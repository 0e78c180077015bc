import EnclaveOs.Lib.Checks
import EnclaveOs.Merkle.Codec

/-! # Stored records have one form -/

open EnclaveOs.Lib

namespace EnclaveOs.Merkle

namespace Node

theorem toList_toVec_take {n : Nat} {l : Bytes} (h : n ≤ l.length) : (toVec n l).toList = l.take n := by
  apply List.ext_getElem
  · simp [h]
  intro i hi _
  simp only [Vector.length_toList] at hi
  simp [toVec, List.getElem?_eq_getElem (by omega : i < l.length)]

theorem encodeChild_of_decode {data : Bytes} {off : Nat} {c : Child} (h : decodeChild data off = .ok c)
    (hlen : off + entry ≤ data.length) : encodeChild c = (data.drop off).take entry := by
  have hsize : entry ≤ (data.drop off).length := by rw [List.length_drop]; omega
  unfold entry at hlen hsize
  have hparts : (data.drop off).take entry =
      (data.drop off).take 8 ++ (data.drop (off + 8)).take 32 ++ [data.getD (off + 8 + 32) 0] := by
    rw [entry, List.take_add_one, List.take_add, List.drop_drop, List.getElem?_drop, ← Nat.add_assoc,
      List.getElem?_eq_getElem (by omega), List.getD_eq_getElem _ _ (by omega)]
    rfl
  have hbytes : ∀ b : Bool, data.getD (off + 8 + 32) 0 = (if b then 1 else 0) →
      encodeChild ⟨u64OfBe ((data.drop off).take 8), toVec 32 (data.drop (off + 8)), b⟩ =
        (data.drop off).take entry := by
    intro b hb
    rw [encodeChild, hparts, hb, u64Be_u64OfBe _ (by rw [List.length_take]; omega),
      toList_toVec_take (by rw [List.length_drop]; omega)]
  unfold decodeChild at h
  by_cases h0 : data.getD (off + 8 + 32) 0 = 0
  · simp only [h0, if_true] at h
    cases h
    exact hbytes false h0
  by_cases h1 : data.getD (off + 8 + 32) 0 = 1
  · simp only [h1] at h
    cases h
    exact hbytes true h1
  · simp only [h0, h1, if_false] at h
    cases h

theorem low_byte (a b : BitVec 8) : (a ++ b : BitVec 16).setWidth 8 = b := BitVec.setWidth_append_eq_right

theorem high_byte (a b : BitVec 8) : ((a ++ b : BitVec 16) >>> 8).setWidth 8 = a := by
  apply BitVec.eq_of_getLsbD_eq
  intro i hi
  rw [BitVec.getLsbD_setWidth, BitVec.getLsbD_ushiftRight, BitVec.getLsbD_append]
  simp [hi]

theorem decodeChildren_ok {data : Bytes} {bits : BitVec 16} {slots : List Nibble} (hnodup : slots.Nodup)
    {acc children : Nibble → Option Child} {off : Nat} (h : decodeChildren data bits slots acc off = .ok children)
    (hacc : ∀ i ∈ slots, acc i = none)
    (hlen : off + slots.countP (fun i => bits.getLsbD i.val) * entry ≤ data.length) :
    (∀ i ∉ slots, children i = acc i) ∧ (∀ i ∈ slots, (children i).isSome = bits.getLsbD i.val) ∧
      (slots.filterMap children).flatMap encodeChild =
        (data.drop off).take (slots.countP (fun i => bits.getLsbD i.val) * entry) := by
  induction slots generalizing acc off with
  | nil =>
    cases h
    simp
  | cons i rest ih =>
    obtain ⟨hi, hrest⟩ := List.nodup_cons.mp hnodup
    unfold decodeChildren at h
    by_cases hbit : bits.getLsbD i.val = true
    · rw [if_pos hbit] at h
      rw [List.countP_cons_of_pos (p := fun i : Nibble => bits.getLsbD i.val) hbit, Nat.add_mul, Nat.one_mul] at hlen ⊢
      rcases hc : decodeChild data off with e | c
      · rw [hc] at h; cases h
      rw [hc] at h
      obtain ⟨hout, hin, hbytes⟩ := ih hrest h (fun j hj => by
        have hne : j ≠ i := fun he => hi (he ▸ hj)
        rw [Function.update_of_ne hne]
        exact hacc j (.tail _ hj)) (by omega)
      have hself : children i = some c := by rw [hout i hi, Function.update_self]
      refine ⟨fun j hj => ?_, fun j hj => ?_, ?_⟩
      · obtain ⟨hne, hj⟩ := not_or.mp (mt List.mem_cons.mpr hj)
        rw [hout j hj, Function.update_of_ne hne]
      · rcases List.mem_cons.mp hj with rfl | hj
        · rw [hself, hbit]
          rfl
        · exact hin j hj
      · rw [List.filterMap_cons_some hself, List.flatMap_cons, hbytes, encodeChild_of_decode hc (by omega)]
        conv_rhs => rw [Nat.add_comm, List.take_add, List.drop_drop]
    · rw [if_neg hbit] at h
      rw [List.countP_cons_of_neg (p := fun i : Nibble => bits.getLsbD i.val) hbit] at hlen ⊢
      obtain ⟨hout, hin, hbytes⟩ := ih hrest h (fun j hj => hacc j (.tail _ hj)) hlen
      have hself : children i = none := by rw [hout i hi, hacc i List.mem_cons_self]
      refine ⟨fun j hj => hout j (fun hm => hj (.tail _ hm)), fun j hj => ?_, ?_⟩
      · rcases List.mem_cons.mp hj with rfl | hj
        · rw [hself]
          simpa using hbit
        · exact hin j hj
      · rw [List.filterMap_cons_none hself, hbytes]

theorem encode_of_decode {data : Bytes} {n : Node} (h : decode data = .ok n) : n.encode = data := by
  unfold decode at h
  split at h
  case isTrue htag =>
    split at h
    case isTrue => cases h
    case isFalse hlen =>
      cases h
      obtain ⟨rest, rfl⟩ : ∃ rest, data = NODE_TAG_LEAF :: rest := List.head?_eq_some_iff.mp htag
      have hrest : rest.length = 32 + 32 + 8 := by simpa using (not_not.mp hlen)
      have hparts : rest.take 32 ++ ((rest.drop 32).take 32 ++ rest.drop (32 + 32)) = rest := by
        rw [← List.drop_drop, List.take_append_drop, List.take_append_drop]
      simp only [encode, List.drop_succ_cons, List.drop_zero, Nat.add_comm 1]
      rw [toList_toVec_take (by omega), toList_toVec_take (by rw [List.length_drop]; omega),
        u64Be_u64OfBe _ (by rw [List.length_drop]; omega), List.append_assoc, List.append_assoc, Nat.two_mul, hparts]
      rfl
  case isFalse =>
    split at h
    case isFalse => cases h
    case isTrue htag =>
      split at h
      case isTrue => cases h
      case isFalse hthree =>
        obtain ⟨b1, b2, rest, rfl⟩ : ∃ b1 b2 rest, data = NODE_TAG_INTERNAL :: b1 :: b2 :: rest := by
          obtain ⟨rest, rfl⟩ := List.head?_eq_some_iff.mp htag
          rcases rest with _ | ⟨b1, _ | ⟨b2, rest⟩⟩
          · simp at hthree
          · simp at hthree
          · exact ⟨b1, b2, rest, rfl⟩
        simp only [List.getD_cons_succ, List.getD_cons_zero] at h
        split at h
        case isTrue => cases h
        case isFalse =>
          split at h
          case isTrue => cases h
          case isFalse hlen =>
            obtain ⟨children, hchildren, hn⟩ := except_bind_ok.mp h
            cases hn
            have hlen : rest.length = countOnes (b2.toBitVec ++ b1.toBitVec) * entry := by
              have := not_not.mp hlen
              simp only [List.length_cons] at this
              omega
            obtain ⟨-, hin, hbytes⟩ := decodeChildren_ok (List.nodup_finRange 16) hchildren (fun _ _ => rfl)
              (show 3 + countOnes (b2.toBitVec ++ b1.toBitVec) * entry ≤ _ by simp only [List.length_cons]; omega)
            have hbits : bitmap children = b2.toBitVec ++ b1.toBitVec := by
              apply BitVec.eq_of_getLsbD_eq
              intro i hi
              rw [← hin ⟨i, hi⟩ (List.mem_finRange _)]
              exact getLsbD_bitmap children ⟨i, hi⟩
            have hall : (rest.take (countOnes (b2.toBitVec ++ b1.toBitVec) * entry)) = rest := by
              rw [← hlen, List.take_length]
            simp only [encode, hbits, high_byte, low_byte, hbytes]
            exact congrArg (NODE_TAG_INTERNAL :: b1 :: b2 :: ·) hall

end Node

inductive Record where
  | node (nk : NodeKey)
  | value (vh : Hash) (value_version : UInt64)
  | stale (stale_since : UInt64) (target_record_key : Bytes)
  | root (version : UInt64)
  | checkpoint

namespace Record

def key : Record → Bytes
  | .node nk => node_record_key nk
  | .value vh value_version => value_record_key vh value_version
  | .stale stale_since target => stale_record_key stale_since target
  | .root version => root_record_key version
  | .checkpoint => checkpoint_record_key

def Placed : Record → Prop
  | .node nk => nk.pfx.length ≤ 64
  | _ => True

theorem key_inj {r r' : Record} (hr : r.Placed) (hr' : r'.Placed) (h : r.key = r'.key) : r = r' := by
  have hhead := congrArg List.head? h
  cases r with
  | node nk =>
    cases r' with
    | node nk' => rw [node_record_key_inj hr hr' h]
    | _ => simp [key] at hhead; exact absurd hhead (by decide)
  | value vh v =>
    cases r' with
    | value vh' v' =>
      obtain ⟨rfl, rfl⟩ := value_record_key_inj h
      rfl
    | _ => simp [key] at hhead; exact absurd hhead (by decide)
  | stale v target =>
    cases r' with
    | stale v' target' =>
      obtain ⟨rfl, rfl⟩ := stale_record_key_inj h
      rfl
    | _ => simp [key] at hhead; exact absurd hhead (by decide)
  | root v =>
    cases r' with
    | root v' => rw [root_record_key_inj h]
    | _ => simp [key] at hhead; exact absurd hhead (by decide)
  | checkpoint =>
    cases r' with
    | checkpoint => rfl
    | _ => simp [key] at hhead; exact absurd hhead (by decide)

end Record

/-- A node has one byte string and a key one record. -/
theorem storage_unambiguous :
    (∀ n : Node, (∀ m, n = .internal m → ∃ i, (m.children i).isSome) → Node.decode n.encode = .ok n) ∧
    (∀ (data : Bytes) (n : Node), Node.decode data = .ok n → n.encode = data) ∧
    (∀ r r' : Record, r.Placed → r'.Placed → r.key = r'.key → r = r') ∧
    ∀ (stale_since : UInt64) (target : Bytes), (stale_record_key stale_since target).drop 9 = target := by
  refine ⟨Node.decode_encode, fun _ _ => Node.encode_of_decode, fun _ _ => Record.key_inj, fun v target => ?_⟩
  rw [stale_record_key, ← List.cons_append]
  exact List.drop_left' (by simp)

def twoLeaves : InternalNode :=
  ⟨fun i => if i.val < 2 then some ⟨i.val.toUInt64, Vector.replicate 32 7, true⟩ else none⟩

/-- Packed two to a byte, the nibbles of both places are the same bytes. -/
theorem storage_unambiguous_sample :
    Node.decode (Node.encode (.internal twoLeaves)) = .ok (.internal twoLeaves) ∧
    (Record.node ⟨1, [2, 3, 4]⟩).key ≠ (Record.node ⟨1, [2, 3, 4, 0]⟩).key := by
  refine ⟨storage_unambiguous.1 _ fun m h => ?_, fun h => ?_⟩
  · cases h
    exact ⟨0, rfl⟩
  · have hshort : (Record.node ⟨1, [2, 3, 4]⟩).Placed := by simp [Record.Placed]
    have hlong : (Record.node ⟨1, [2, 3, 4, 0]⟩).Placed := by simp [Record.Placed]
    cases storage_unambiguous.2.2.1 _ _ hshort hlong h

end EnclaveOs.Merkle
