import EnclaveOs.Merkle.Store

/-! # Records: what is written comes back, and no two records share a key -/

open EnclaveOs.Lib

open List (append_assoc append_inj cons drop_left' finRange)

namespace EnclaveOs.Merkle

namespace Node

theorem length_encodeChild (c : Child) : (encodeChild c).length = entry := by
  simp [encodeChild, entry]

theorem decodeChild_append (pre : Bytes) (c : Child) (rest : Bytes) :
    decodeChild (pre ++ (encodeChild c ++ rest)) pre.length = .ok c := by
  have hversion : ((pre ++ (encodeChild c ++ rest)).drop pre.length).take 8 = u64Be c.version := by
    rw [List.drop_left, encodeChild, append_assoc, append_assoc]
    exact List.take_left' (length_u64Be _)
  have hhash : toVec 32 ((pre ++ (encodeChild c ++ rest)).drop (pre.length + 8)) = c.hash := by
    rw [← List.drop_drop, List.drop_left, encodeChild, append_assoc, append_assoc,
      drop_left' (length_u64Be _), toVec_toList_append]
  have hflag : (pre ++ (encodeChild c ++ rest)).getD (pre.length + 8 + 32) 0 =
      if c.is_leaf then 1 else 0 := by
    rw [Nat.add_assoc, List.getD_append_right _ _ _ _ (by omega), Nat.add_sub_cancel_left,
      List.getD_append _ _ _ _ (by rw [length_encodeChild]; decide), encodeChild,
      List.getD_append_right _ _ _ _ (by simp)]
    simp
  unfold decodeChild
  simp only [hversion, hhash, hflag, u64OfBe_u64Be]
  obtain ⟨version, hash, is_leaf⟩ := c
  cases is_leaf <;> rfl

theorem decodeChildren_append (children : Nibble → Option Child) (bits : BitVec 16)
    (hbits : ∀ i : Nibble, bits.getLsbD i = (children i).isSome) (slots : List Nibble)
    (hnodup : slots.Nodup) (pre : Bytes) (acc : Nibble → Option Child) :
    decodeChildren (pre ++ (slots.filterMap children).flatMap encodeChild) bits slots acc pre.length =
      .ok fun i => if i ∈ slots ∧ (children i).isSome then children i else acc i := by
  induction slots generalizing pre acc with
  | nil =>
    simp only [decodeChildren, List.not_mem_nil, false_and, if_false]
    rfl
  | cons i rest ih =>
    obtain ⟨hi, hrest⟩ := List.nodup_cons.mp hnodup
    unfold decodeChildren
    rw [hbits i]
    rcases hc : children i with _ | c
    · rw [if_neg (by simp), List.filterMap_cons_none hc, ih hrest]
      congr 1
      funext j
      by_cases hj : j = i
      · subst hj; simp [hc]
      · simp [hj]
    rw [if_pos (by simp), List.filterMap_cons_some hc, List.flatMap_cons, decodeChild_append]
    have hlen : (pre ++ encodeChild c).length = pre.length + entry := by
      rw [List.length_append, length_encodeChild]
    simp only [bind, Except.bind]
    rw [← append_assoc, ← hlen, ih hrest]
    congr 1
    funext j
    by_cases hj : j = i
    · subst hj; simp [hc, hi]
    · simp [hj]

theorem getLsbD_bitmap (children : Nibble → Option Child) (i : Nibble) :
    (bitmap children).getLsbD i = (children i).isSome := by
  simp [bitmap]

theorem bytes_bitmap (bits : BitVec 16) : (bits >>> 8).setWidth 8 ++ bits.setWidth 8 = bits := by
  ext i hi
  simp only [BitVec.getElem_append]
  split
  · simp [BitVec.getLsbD_eq_getElem hi]
  · simp [show 8 + (i - 8) = i by omega, BitVec.getLsbD_eq_getElem hi]

theorem decode_encode_leaf (l : LeafNode) : decode (encode (.leaf l)) = .ok (.leaf l) := by
  have hpath : toVec 32 ((encode (.leaf l)).drop 1) = l.path := by
    simp only [encode, append_assoc, List.singleton_append]
    exact toVec_toList_append _ _
  have hvh : (encode (.leaf l)).drop (1 + 32) = l.vh.toList ++ u64Be l.value_version := by
    simp only [encode]
    rw [append_assoc]
    exact drop_left' (by simp)
  have hvv : (encode (.leaf l)).drop (1 + 2 * 32) = u64Be l.value_version := by
    simp only [encode]
    exact drop_left' (by simp)
  unfold decode
  rw [if_pos (by simp [encode]), if_neg (by simp [encode]), hpath, hvh, hvv, toVec_toList_append, u64OfBe_u64Be]
  rfl

theorem decode_encode (n : Node) (h : ∀ m, n = .internal m → ∃ i, (m.children i).isSome) :
    decode n.encode = .ok n := by
  cases n with
  | leaf l => exact decode_encode_leaf l
  | internal m =>
    obtain ⟨i, hi⟩ := h m rfl
    have hcount : countOnes (bitmap m.children) = ((finRange 16).filterMap m.children).length := by
      unfold countOnes
      rw [List.length_filterMap_eq_countP]
      exact List.countP_congr fun i _ => by rw [getLsbD_bitmap]
    have hpos : 0 < ((finRange 16).filterMap m.children).length := by
      obtain ⟨c, hc⟩ := Option.isSome_iff_exists.mp hi
      exact List.length_pos_of_mem (List.mem_filterMap.mpr ⟨i, List.mem_finRange i, hc⟩)
    have hbody : (((finRange 16).filterMap m.children).flatMap encodeChild).length =
        ((finRange 16).filterMap m.children).length * entry := by
      simp [List.length_flatMap, length_encodeChild]
    have hkids := decodeChildren_append m.children (bitmap m.children) (getLsbD_bitmap m.children)
      (finRange 16) (List.nodup_finRange 16)
      [NODE_TAG_INTERNAL, UInt8.ofBitVec ((bitmap m.children).setWidth 8),
        UInt8.ofBitVec ((bitmap m.children >>> 8).setWidth 8)] (fun _ => none)
    have hall : (fun i => if i ∈ finRange 16 ∧ (m.children i).isSome then m.children i else none) = m.children := by
      funext j
      cases hj : m.children j <;> simp
    rw [hall] at hkids
    unfold decode
    simp only [encode, List.cons_append, List.nil_append, List.head?_cons, List.length_cons,
      List.getD_cons_succ, List.getD_cons_zero, bytes_bitmap, hcount, hbody]
    rw [if_neg (by decide), if_pos trivial, if_neg (by omega), if_neg (by omega), if_neg (by omega)]
    simp only [List.length_cons, List.length_nil, List.cons_append, List.nil_append] at hkids
    rw [hkids]
    rfl

end Node

namespace NodeKey

theorem pack_two (hi lo : Nibble) :
    (UInt8.ofNat hi.val <<< 4 ||| UInt8.ofNat lo.val).toNat = 16 * hi.val + lo.val := by
  revert hi lo
  decide +kernel

theorem pack_one (hi : Nibble) : (UInt8.ofNat hi.val <<< 4).toNat = 16 * hi.val := by
  revert hi
  decide +kernel

theorem packNibbles_inj (a b : List Nibble) (hlen : a.length = b.length)
    (h : packNibbles a = packNibbles b) : a = b := by
  induction a using packNibbles.induct generalizing b with
  | case1 => simpa using hlen.symm
  | case2 hi =>
    obtain ⟨x, rfl⟩ := List.length_eq_one_iff.mp hlen.symm
    simp only [packNibbles, cons.injEq, and_true] at h
    have := congrArg UInt8.toNat h
    rw [pack_one, pack_one] at this
    rw [Fin.ext (show hi.val = x.val by omega)]
  | case3 hi lo rest ih =>
    match b, hlen with
    | x :: y :: rest', hlen =>
      simp only [packNibbles, cons.injEq] at h
      have := congrArg UInt8.toNat h.1
      rw [pack_two, pack_two] at this
      have hhi : hi = x := Fin.ext (by omega)
      have hlo : lo = y := Fin.ext (by omega)
      rw [hhi, hlo, ih rest' (by simpa using hlen) h.2]

theorem encode_inj {a b : NodeKey} (ha : a.pfx.length ≤ 64) (hb : b.pfx.length ≤ 64)
    (h : a.encode = b.encode) : a = b := by
  unfold encode at h
  rw [append_assoc, append_assoc] at h
  obtain ⟨hv, hrest⟩ := append_inj h (by simp)
  simp only [List.singleton_append, cons.injEq] at hrest
  have hlen := congrArg UInt8.toNat hrest.1
  simp only [UInt8.toNat_ofNat'] at hlen
  have hp := packNibbles_inj a.pfx b.pfx (by omega) hrest.2
  obtain ⟨va, pa⟩ := a
  obtain ⟨vb, pb⟩ := b
  rw [show va = vb from u64Be_inj hv, show pa = pb from hp]

end NodeKey

theorem node_record_key_inj {a b : NodeKey} (ha : a.pfx.length ≤ 64) (hb : b.pfx.length ≤ 64)
    (h : node_record_key a = node_record_key b) : a = b :=
  NodeKey.encode_inj ha hb (cons.inj h).2

theorem value_record_key_inj {vh vh' : Hash} {v v' : UInt64}
    (h : value_record_key vh v = value_record_key vh' v') : vh = vh' ∧ v = v' := by
  obtain ⟨hh, hv⟩ := append_inj (cons.inj h).2 (by simp)
  refine ⟨?_, u64Be_inj hv⟩
  rw [← toVec_toList vh, hh, toVec_toList]

theorem stale_record_key_inj {v v' : UInt64} {k k' : Bytes}
    (h : stale_record_key v k = stale_record_key v' k') : v = v' ∧ k = k' := by
  obtain ⟨hv, hk⟩ := append_inj (cons.inj h).2 (by simp)
  exact ⟨u64Be_inj hv, hk⟩

theorem root_record_key_inj {v v' : UInt64} (h : root_record_key v = root_record_key v') : v = v' :=
  u64Be_inj (cons.inj h).2

@[simp] theorem head_node_record_key (nk : NodeKey) : (node_record_key nk).head? = some REC_NODE := rfl

@[simp] theorem head_value_record_key (vh : Hash) (v : UInt64) : (value_record_key vh v).head? = some REC_VALUE := rfl

@[simp] theorem head_stale_record_key (v : UInt64) (k : Bytes) : (stale_record_key v k).head? = some REC_STALE := rfl

@[simp] theorem head_root_record_key (v : UInt64) : (root_record_key v).head? = some REC_ROOT := rfl

@[simp] theorem head_checkpoint_record_key : checkpoint_record_key.head? = some REC_CHECKPOINT := rfl

theorem ne_of_head {a b : Bytes} (h : a.head? ≠ b.head?) : a ≠ b := fun he => h (by rw [he])

end EnclaveOs.Merkle
