import EnclaveOs.Merkle.Tree

/-! # The hash of a tree is the canonical hash of its entries -/

open EnclaveOs.Lib EnclaveOs.Lib.SparseMerkle

namespace EnclaveOs.Merkle

theorem mem_presentSlots {children : Nibble → Option Child} {start width : Nat} {i : Nibble} {c : Child} :
    (i, c) ∈ presentSlots children start width ↔ (start ≤ i.val ∧ i.val < start + width) ∧ children i = some c := by
  simp [presentSlots]

theorem presentSlots_cases (children : Nibble → Option Child) (start width : Nat) :
    (presentSlots children start width = [] ∧
      ∀ i : Nibble, start ≤ i.val → i.val < start + width → children i = none) ∨
    (∃ i c, presentSlots children start width = [(i, c)] ∧ start ≤ i.val ∧ i.val < start + width ∧
      children i = some c ∧
      ∀ j : Nibble, start ≤ j.val → j.val < start + width → j ≠ i → children j = none) ∨
    (∃ i c x l, presentSlots children start width = (i, c) :: x :: l ∧ ∃ j c', j ≠ i ∧
      start ≤ i.val ∧ i.val < start + width ∧ children i = some c ∧
      start ≤ j.val ∧ j.val < start + width ∧ children j = some c') := by
  have hmem := @mem_presentSlots children start width
  have hnodup : ((presentSlots children start width).map Prod.fst).Nodup := by
    unfold presentSlots
    rw [List.map_filterMap]
    refine List.Nodup.filterMap ?_ ((List.nodup_finRange 16).filter _)
    intro i j x hi hj
    simp only [Option.map_map, Option.mem_def, Option.map_eq_some_iff, Function.comp] at hi hj
    obtain ⟨_, _, rfl⟩ := hi
    obtain ⟨_, _, h⟩ := hj
    exact h.symm
  match hl : presentSlots children start width with
  | [] =>
    refine .inl ⟨rfl, fun i h1 h2 => ?_⟩
    rw [Option.eq_none_iff_forall_ne_some]
    intro c hc
    have := hmem.mpr ⟨⟨h1, h2⟩, hc⟩
    simp [hl] at this
  | [(i, c)] =>
    have hi := hmem.mp (show (i, c) ∈ presentSlots children start width by simp [hl])
    refine .inr (.inl ⟨i, c, rfl, hi.1.1, hi.1.2, hi.2, fun j h1 h2 hne => ?_⟩)
    rw [Option.eq_none_iff_forall_ne_some]
    intro c' hc'
    have := hmem.mpr ⟨⟨h1, h2⟩, hc'⟩
    simp [hl, hne] at this
  | (i, c) :: (j, c') :: l =>
    have hi := hmem.mp (show (i, c) ∈ presentSlots children start width by simp [hl])
    have hj := hmem.mp (show (j, c') ∈ presentSlots children start width by simp [hl])
    rw [hl] at hnodup
    simp only [List.map_cons, List.nodup_cons, List.mem_cons, not_or] at hnodup
    exact .inr (.inr ⟨i, c, (j, c'), l, rfl, j, c', fun h => hnodup.1.1 h.symm, hi.1.1, hi.1.2, hi.2,
      hj.1.1, hj.1.2, hj.2⟩)

namespace Tree

/-! ## Entries of a range of slots -/

def rangeEntries (c : Nibble → Tree) (start level : Nat) : Finset (Hash × Hash) :=
  (Finset.univ.filter fun i : Nibble => start ≤ i.val ∧ i.val < start + 2 ^ level).biUnion fun i =>
    (c i).entries

variable {start level : Nat} {c : Nibble → Tree}

theorem mem_rangeEntries {e : Hash × Hash} :
    e ∈ rangeEntries c start level ↔
      ∃ i : Nibble, (start ≤ i.val ∧ i.val < start + 2 ^ level) ∧ e ∈ (c i).entries := by
  simp [rangeEntries]

theorem rangeEntries_zero (c : Nibble → Tree) (i : Nibble) : rangeEntries c i.val 0 = (c i).entries := by
  ext e
  rw [mem_rangeEntries]
  constructor
  · rintro ⟨j, ⟨h1, h2⟩, he⟩
    have : j = i := Fin.ext (by simp only [pow_zero] at h2; omega)
    rwa [this] at he
  · intro he
    exact ⟨i, ⟨le_refl _, by simp⟩, he⟩

theorem rangeEntries_four (v : UInt64) (c : Nibble → Tree) : rangeEntries c 0 4 = entries (.node v c) := by
  ext e
  rw [mem_rangeEntries, mem_entries_node]
  constructor
  · rintro ⟨i, -, he⟩
    exact ⟨i, he⟩
  · rintro ⟨i, he⟩
    exact ⟨i, ⟨by omega, by simp⟩, he⟩

theorem testBit_of_range {start level i : Nat} (hs : start % 2 ^ (level + 1) = 0) (h1 : start ≤ i)
    (h2 : i < start + 2 ^ (level + 1)) : i.testBit level = decide (start + 2 ^ level ≤ i) := by
  obtain ⟨q, hq⟩ := Nat.dvd_of_mod_eq_zero hs
  have hpow : 2 ^ (level + 1) = 2 * 2 ^ level := by rw [pow_succ]; ring
  have hpos : 0 < 2 ^ level := Nat.pow_pos (by norm_num)
  rw [Nat.testBit_eq_decide_div_mod_eq]
  rcases Nat.lt_or_ge i (start + 2 ^ level) with hlt | hge
  · have hdiv : i / 2 ^ level = 2 * q := by
      rw [Nat.div_eq_iff hpos]
      constructor
      · rw [hq, hpow] at h1
        nlinarith
      · rw [hq, hpow] at hlt
        have : 2 * q * 2 ^ level + 2 ^ level = 2 * 2 ^ level * q + 2 ^ level := by ring
        omega
    rw [hdiv]
    simp
    omega
  · have hdiv : i / 2 ^ level = 2 * q + 1 := by
      rw [Nat.div_eq_iff hpos]
      constructor
      · rw [hq, hpow] at hge
        nlinarith
      · rw [hq, hpow] at h2
        have : (2 * q + 1) * 2 ^ level + 2 ^ level = 2 * 2 ^ level * q + 2 * 2 ^ level := by ring
        omega
    rw [hdiv]
    simp
    omega

section Range

variable {pre : List Nibble} {c : Nibble → Tree} (hwf : ∀ i, (c i).WF (pre ++ [i]))

include hwf

variable {i : Nibble} {level start : Nat}

theorem bit_of_mem {e : Hash × Hash} (hl : level < 4) (he : e ∈ (c i).entries) :
    bit e.1 (4 * pre.length + 3 - level) = i.val.testBit level := by
  have hnib := (under_append_one.mp ((hwf i).under he)).2.2
  have := bit_eq_testBit e.1 pre.length (3 - level) (by omega)
  rw [show 4 * pre.length + (3 - level) = 4 * pre.length + 3 - level by omega, hnib,
    show 3 - (3 - level) = level by omega] at this
  exact this

theorem rangeEntries_half (hl : level < 4) (hs : start % 2 ^ (level + 1) = 0) (b : Bool) :
    {e ∈ rangeEntries c start (level + 1) | bit e.1 (4 * pre.length + 3 - level) = b} =
      rangeEntries c (start + b.toNat * 2 ^ level) level := by
  ext e
  rw [Finset.mem_filter, mem_rangeEntries, mem_rangeEntries]
  constructor
  · rintro ⟨⟨i, ⟨h1, h2⟩, he⟩, hb⟩
    rw [bit_of_mem hwf hl he, testBit_of_range hs h1 h2] at hb
    refine ⟨i, ?_, he⟩
    cases b <;> simp at hb ⊢ <;> omega
  · rintro ⟨i, hi, he⟩
    have hrange : start ≤ i.val ∧ i.val < start + 2 ^ (level + 1) := by cases b <;> simp at hi <;> omega
    refine ⟨⟨i, hrange, he⟩, ?_⟩
    rw [bit_of_mem hwf hl he, testBit_of_range hs hrange.1 hrange.2]
    cases b <;> simp at hi ⊢ <;> omega

end Range

variable {c : Nibble → Tree} {pre : List Nibble}

theorem rangeEntries_eq {i : Nibble} (hi : start ≤ i.val) (hi' : i.val < start + 2 ^ level)
    (honly : ∀ j : Nibble, start ≤ j.val → j.val < start + 2 ^ level → j ≠ i → c j = .empty) :
    rangeEntries c start level = (c i).entries := by
  ext e
  rw [mem_rangeEntries]
  constructor
  · rintro ⟨j, ⟨h1, h2⟩, he⟩
    by_cases hji : j = i
    · rwa [hji] at he
    · rw [honly j h1 h2 hji] at he
      simp [entries] at he
  · intro he
    exact ⟨i, ⟨hi, hi'⟩, he⟩

theorem rangeEntries_eq_empty (hnone : ∀ j : Nibble, start ≤ j.val → j.val < start + 2 ^ level → c j = .empty) :
    rangeEntries c start level = ∅ := by
  apply Finset.eq_empty_of_forall_notMem
  intro e he
  obtain ⟨j, ⟨h1, h2⟩, he⟩ := mem_rangeEntries.mp he
  rw [hnone j h1 h2] at he
  simp [entries] at he

/-! ## The binary tree of a tree -/

theorem WF.separated {t : Tree} (h : t.WF pre) : Separated bit (256 - 4 * pre.length) (4 * pre.length) t.entries := by
  rintro ⟨p, vh⟩ hx ⟨q, vh'⟩ hy hag
  have hp : p = q := by
    apply eq_of_bit
    intro i hi
    rcases Nat.lt_or_ge i (4 * pre.length) with hlt | hge
    · have hi4 : i = 4 * (i / 4) + i % 4 := by omega
      rw [hi4, bit_eq_testBit p _ _ (by omega), bit_eq_testBit q _ _ (by omega),
        (h.under hx).nibble_eq (h.under hy) (by omega)]
    · exact hag i hge (by omega)
  subst hp
  obtain ⟨l, hl, rfl⟩ := (mem_entries_iff h p vh).mp hx
  obtain ⟨l', hl', rfl⟩ := (mem_entries_iff h p vh').mp hy
  rw [hl] at hl'
  rw [Option.some.inj hl']

noncomputable def shapeAt (pre : List Nibble) (t : Tree) : BTree Hash Hash :=
  shape bit (256 - 4 * pre.length) (4 * pre.length) t.entries

noncomputable def rangeShape (pre : List Nibble) (c : Nibble → Tree) (start level : Nat) : BTree Hash Hash :=
  shape bit (252 - 4 * pre.length + level) (4 * pre.length + 4 - level) (rangeEntries c start level)

theorem rangeShape_zero (hlen : pre.length < 64) (c : Nibble → Tree) (i : Nibble) :
    rangeShape pre c i.val 0 = shapeAt (pre ++ [i]) (c i) := by
  unfold rangeShape shapeAt
  rw [rangeEntries_zero, List.length_append, List.length_singleton]
  congr 1
  omega

theorem rangeShape_four (hlen : pre.length < 64) (v : UInt64) (c : Nibble → Tree) :
    rangeShape pre c 0 4 = shapeAt pre (.node v c) := by
  unfold rangeShape shapeAt
  rw [rangeEntries_four v]
  congr 1
  omega

def RangeSeparated (pre : List Nibble) (c : Nibble → Tree) (start level : Nat) : Prop :=
  Separated bit (252 - 4 * pre.length + level) (4 * pre.length + 4 - level) (rangeEntries c start level)

theorem rangeSeparated_four {v : UInt64} (h : (node v c).WF pre) : RangeSeparated pre c 0 4 := by
  have hsep := h.separated
  unfold RangeSeparated
  rw [rangeEntries_four v]
  have hlen := h.1
  rwa [show 252 - 4 * pre.length + 4 = 256 - 4 * pre.length by omega]

section Halves

variable {pre : List Nibble} {c : Nibble → Tree} (hwf : ∀ i, (c i).WF (pre ++ [i])) {start level : Nat}
  (hl : level < 4) (hs : start % 2 ^ (level + 1) = 0) (hsep : RangeSeparated pre c start (level + 1))

include hwf hl hs

theorem rangeShape_split (h2 : 2 ≤ (rangeEntries c start (level + 1)).card) :
    rangeShape pre c start (level + 1) =
      .node (rangeShape pre c start level) (rangeShape pre c (start + 2 ^ level) level) := by
  unfold rangeShape
  rw [← Nat.add_assoc, shape_split h2, show 4 * pre.length + 4 - (level + 1) = 4 * pre.length + 3 - level by omega,
    rangeEntries_half hwf hl hs, rangeEntries_half hwf hl hs,
    show 4 * pre.length + 3 - level + 1 = 4 * pre.length + 4 - level by omega]
  simp

include hsep

theorem RangeSeparated.half (b : Bool) : RangeSeparated pre c (start + b.toNat * 2 ^ level) level := by
  have h := Separated.filter hsep b
  rw [show 4 * pre.length + 4 - (level + 1) = 4 * pre.length + 3 - level by omega, rangeEntries_half hwf hl hs] at h
  rwa [show 4 * pre.length + 3 - level + 1 = 4 * pre.length + 4 - level by omega] at h

theorem RangeSeparated.left : RangeSeparated pre c start level := by
  simpa using RangeSeparated.half hwf hl hs hsep false

theorem RangeSeparated.right : RangeSeparated pre c (start + 2 ^ level) level := by
  simpa using RangeSeparated.half hwf hl hs hsep true

end Halves

variable [Crypto]

variable {t : Tree} {r : Child} {pre : List Nibble}

theorem hash_of_ref (h : t.ref = some r) : r.hash = t.hash := by
  simp [hash, h]

theorem ref_leaf (h : t.ref = some r) (hl : r.is_leaf = true) : ∃ v l, t = .leaf v l := by
  cases t with
  | empty => simp [ref] at h
  | leaf v l => exact ⟨v, l, rfl⟩
  | node v c =>
    simp only [ref, Option.some.injEq] at h
    simp [← h] at hl

theorem ref_node (h : t.ref = some r) (hl : r.is_leaf = false) : ∃ v c, t = .node v c := by
  cases t with
  | empty => simp [ref] at h
  | leaf v l =>
    simp only [ref, Option.some.injEq] at h
    simp [← h] at hl
  | node v c => exact ⟨v, c, rfl⟩

theorem two_le_card_of_present (hwf : ∀ i, (c i).WF (pre ++ [i])) {i : Nibble} {rest : List (Nibble × Child)}
    (hp : presentSlots (fun i => (c i).ref) start (2 ^ level) = (i, r) :: rest)
    (hmany : ¬ (rest.isEmpty ∧ r.is_leaf)) : 2 ≤ (rangeEntries c start level).card := by
  rcases presentSlots_cases (fun i => (c i).ref) start (2 ^ level) with
    ⟨h, -⟩ | ⟨j, r', h, h1, h2, hr, -⟩ | ⟨j, r', x, l, h, k, r'', hne, h1, h2, hr, h3, h4, hr'⟩
  · simp [hp] at h
  · rw [hp] at h
    simp only [List.cons.injEq, Prod.mk.injEq] at h
    obtain ⟨⟨rfl, rfl⟩, rfl⟩ := h
    have hleaf : r.is_leaf = false := by simpa using hmany
    obtain ⟨v, c', hc⟩ := ref_node hr hleaf
    have hnode := hwf i
    rw [hc] at hnode
    refine le_trans hnode.2.1 (Finset.card_le_card fun e he => ?_)
    exact mem_rangeEntries.mpr ⟨i, ⟨h1, h2⟩, by rw [hc]; exact he⟩
  · obtain ⟨x, hx⟩ := (hwf k).exists_mem fun he => by simp [he, ref] at hr'
    obtain ⟨y, hy⟩ := (hwf j).exists_mem fun he => by simp [he, ref] at hr
    have hxk := (under_append_one.mp ((hwf k).under hx)).2.2
    have hyj := (under_append_one.mp ((hwf j).under hy)).2.2
    have hxy : x ≠ y := fun h => hne (by rw [← hxk, ← hyj, h])
    exact Finset.one_lt_card.mpr ⟨x, mem_rangeEntries.mpr ⟨k, ⟨h3, h4⟩, hx⟩, y,
      mem_rangeEntries.mpr ⟨j, ⟨h1, h2⟩, hy⟩, hxy⟩

theorem subtree_hash_eq (hlen : pre.length < 64) (hwf : ∀ i, (c i).WF (pre ++ [i]))
    (hchild : ∀ i, (c i).hash = (shapeAt (pre ++ [i]) (c i)).hash nodeHashing) (level start : Nat)
    (hl : level ≤ 4) (hs : start % 2 ^ level = 0) (hs' : start + 2 ^ level ≤ 16)
    (hsep : RangeSeparated pre c start level) :
    subtree_hash (fun i => (c i).ref) start level = (rangeShape pre c start level).hash nodeHashing := by
  induction level generalizing start with
  | zero =>
    obtain ⟨i, rfl⟩ : ∃ i : Nibble, i.val = start := ⟨⟨start, by omega⟩, rfl⟩
    rw [rangeShape_zero hlen, ← hchild]
    unfold subtree_hash
    split
    · rename_i hp
      rcases presentSlots_cases (fun i => (c i).ref) i.val 1 with ⟨-, hnone⟩ | ⟨_, _, h, -⟩ | ⟨_, _, _, _, h, -⟩
      · simp [hash, hnone i (le_refl _) (by omega)]
      · simp [hp] at h
      · simp [hp] at h
    · rename_i j r rest hp
      have hj := mem_presentSlots.mp (show (j, r) ∈ presentSlots (fun i => (c i).ref) i.val 1 by simp [hp])
      have hji : j = i := Fin.ext (by omega)
      subst hji
      exact hash_of_ref hj.2
  | succ level ih =>
    have hs0 : start % 2 ^ level = 0 := by
      rw [pow_succ] at hs
      exact Nat.mod_eq_zero_of_dvd (dvd_trans (dvd_mul_right _ 2) (Nat.dvd_of_mod_eq_zero hs))
    unfold subtree_hash
    split
    · rename_i hp
      rcases presentSlots_cases (fun i => (c i).ref) start (2 ^ (level + 1)) with
        ⟨-, hnone⟩ | ⟨_, _, h, -⟩ | ⟨_, _, _, _, h, -⟩
      · have hempty := rangeEntries_eq_empty fun j h1 h2 => ref_eq_none.mp (hnone j h1 h2)
        simp [rangeShape, hempty, BTree.hash, nodeHashing]
      · simp [hp] at h
      · simp [hp] at h
    · rename_i i r rest hp
      split
      · rename_i hlone
        rcases presentSlots_cases (fun i => (c i).ref) start (2 ^ (level + 1)) with
          ⟨h, -⟩ | ⟨j, r', h, h1, h2, hr, honly⟩ | ⟨_, _, x, l, h, -⟩
        · simp [hp] at h
        · rw [hp] at h
          simp only [List.cons.injEq, Prod.mk.injEq] at h
          obtain ⟨⟨rfl, rfl⟩, rfl⟩ := h
          obtain ⟨v, l, hc⟩ := ref_leaf hr hlone.2
          have hentries := rangeEntries_eq h1 h2 fun j h1 h2 hne => ref_eq_none.mp (honly j h1 h2 hne)
          rw [hash_of_ref hr, hc]
          simp [rangeShape, hentries, hc, entries, BTree.hash, nodeHashing, hash, ref, Node.hash]
        · rw [hp] at h
          simp only [List.cons.injEq] at h
          simp [h.2] at hlone
      · rename_i hmany
        have h2 := two_le_card_of_present hwf hp hmany
        rw [rangeShape_split hwf (by omega) hs h2, BTree.hash,
          ih start (by omega) hs0 (by omega) (RangeSeparated.left hwf (by omega) hs hsep),
          ih (start + 2 ^ level) (by omega) (by rw [Nat.add_mod_right]; exact hs0) (by omega)
            (RangeSeparated.right hwf (by omega) hs hsep)]
        rfl

theorem hash_eq_shape (h : t.WF pre) : t.hash = (shapeAt pre t).hash nodeHashing := by
  induction t generalizing pre with
  | empty => simp [hash, ref, shapeAt, entries, BTree.hash, nodeHashing]
  | leaf v l => simp [hash, ref, shapeAt, entries, BTree.hash, nodeHashing, Node.hash]
  | node v c ih =>
    rw [← rangeShape_four h.1, ← subtree_hash_eq h.1 h.2.2 (fun i => ih i (h.2.2 i)) 4 0 (le_refl 4)
      (by norm_num) (by norm_num) (rangeSeparated_four h)]
    rfl

theorem hash_eq_canon (h : t.WF []) : t.hash = canon bit nodeHashing 256 0 t.entries := by
  rw [hash_eq_shape h, shapeAt, hash_shape]
  rfl

end Tree

end EnclaveOs.Merkle
