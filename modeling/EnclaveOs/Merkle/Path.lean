import EnclaveOs.Merkle.Proof

/-! # Paths as nibbles and as bits -/

open EnclaveOs.Lib

open UInt8 (ofNat toNat_and)

namespace EnclaveOs.Merkle

def byteAt (p : Hash) (k : Nat) : UInt8 := p.toList.getD k 0

theorem nibble_even (p : Hash) (k : Nat) : (nibble p (2 * k)).val = (byteAt p k).toNat / 16 := by
  have hlt := (byteAt p k).toNat_lt
  unfold nibble
  rw [if_pos (by omega), show 2 * k / 2 = k by omega]
  change (byteAt p k >>> 4).toNat % 16 = _
  rw [UInt8.toNat_shiftRight]
  change ((byteAt p k).toNat >>> 4) % 16 = _
  rw [Nat.shiftRight_eq_div_pow]
  omega

theorem nibble_odd (p : Hash) (k : Nat) : (nibble p (2 * k + 1)).val = (byteAt p k).toNat % 16 := by
  unfold nibble
  rw [if_neg (by omega), show (2 * k + 1) / 2 = k by omega]
  change (byteAt p k &&& 0x0F).toNat % 16 = _
  rw [toNat_and]
  change ((byteAt p k).toNat &&& 2 ^ 4 - 1) % 16 = _
  rw [Nat.and_two_pow_sub_one_eq_mod]
  omega

variable {p q : Hash} {pre : List Nibble}

theorem byteAt_eq_of_nibble {k : Nat} (he : nibble p (2 * k) = nibble q (2 * k))
    (ho : nibble p (2 * k + 1) = nibble q (2 * k + 1)) : byteAt p k = byteAt q k := by
  apply UInt8.toNat_inj.mp
  have h1 := nibble_even p k
  have h2 := nibble_odd p k
  rw [he, nibble_even] at h1
  rw [ho, nibble_odd] at h2
  omega

theorem eq_of_byteAt (h : ∀ k, k < 32 → byteAt p k = byteAt q k) : p = q := by
  apply Vector.ext
  intro i hi
  have := h i hi
  simpa [byteAt, hi] using this

def nibbles (p : Hash) : List Nibble := (List.range 64).map (nibble p)

@[simp] theorem length_nibbles (p : Hash) : (nibbles p).length = 64 := by simp [nibbles]

theorem eq_of_nibble (h : ∀ i, i < 64 → nibble p i = nibble q i) : p = q := by
  apply eq_of_byteAt
  intro k hk
  exact byteAt_eq_of_nibble (h _ (by omega)) (h _ (by omega))

/-! ## Places in the tree -/

def Under (pre : List Nibble) (p : Hash) : Prop := pre <+: nibbles p

instance (pre : List Nibble) (p : Hash) : Decidable (Under pre p) := inferInstanceAs (Decidable (pre <+: nibbles p))

@[simp] theorem under_nil (p : Hash) : Under [] p := List.nil_prefix

theorem Under.length_le (h : Under pre p) : pre.length ≤ 64 := by
  have := List.IsPrefix.length_le h
  simpa using this

theorem under_iff : Under pre p ↔ pre.length ≤ 64 ∧ ∀ i, (hi : i < pre.length) → pre[i] = nibble p i := by
  constructor
  · intro h
    refine ⟨h.length_le, fun i hi => ?_⟩
    have := List.IsPrefix.getElem h hi
    simpa only [nibbles, List.getElem_map, List.getElem_range] using this
  · rintro ⟨hlen, h⟩
    unfold Under
    rw [List.prefix_iff_eq_take]
    apply List.ext_getElem
    · simp; omega
    intro i hi _
    rw [h i hi, List.getElem_take]
    simp only [nibbles, List.getElem_map, List.getElem_range]

theorem under_append_one {x : Nibble} :
    Under (pre ++ [x]) p ↔ Under pre p ∧ pre.length < 64 ∧ nibble p pre.length = x := by
  simp only [under_iff, List.length_append, List.length_singleton]
  constructor
  · rintro ⟨hlen, h⟩
    refine ⟨⟨by omega, fun i hi => ?_⟩, by omega, ?_⟩
    · rw [← h i (by omega), List.getElem_append_left hi]
    · have := h pre.length (by omega)
      simpa using this.symm
  · rintro ⟨⟨_, h⟩, hlt, hx⟩
    refine ⟨by omega, fun i hi => ?_⟩
    rcases Nat.lt_or_ge i pre.length with hi' | hi'
    · rw [List.getElem_append_left hi', h i hi']
    have : i = pre.length := by omega
    subst this
    simp [hx]

theorem Under.of_append {suf : List Nibble} (h : Under (pre ++ suf) p) : Under pre p :=
  List.IsPrefix.trans (List.prefix_append pre suf) h

theorem Under.nibble_eq (hp : Under pre p) (hq : Under pre q) {i : Nat}
    (hi : i < pre.length) : nibble p i = nibble q i := by
  rw [← (under_iff.mp hp).2 i hi, (under_iff.mp hq).2 i hi]

theorem Under.eq_of_full (hp : Under pre p) (hq : Under pre q) (hlen : 64 ≤ pre.length) : p = q :=
  eq_of_nibble fun _ hi => hp.nibble_eq hq (by omega)

theorem slot_unique {pfx : List Nibble} {i j : Nibble} (hi : pre ++ [i] <+: pfx) (hj : pre ++ [j] <+: pfx) :
    i = j := by
  have h : pre ++ [i] = pre ++ [j] := (List.prefix_of_prefix_length_le hi hj (by simp)).eq_of_length (by simp)
  simpa using h

theorem not_slot_prefix {i : Nibble} : ¬ pre ++ [i] <+: pre := by
  intro h
  have := h.length_le
  simp at this

theorem compare_lt_of_byteAt {k : Nat} (hk : k < 32)
    (h : ∀ i, i < k → byteAt p i = byteAt q i) (hlt : (byteAt p k).toNat < (byteAt q k).toNat) :
    compare p q = .lt := by
  have split : ∀ r : Hash, r.toList = r.toList.take k ++ byteAt r k :: r.toList.drop (k + 1) := by
    intro r
    have hr : k < r.toList.length := by simpa using hk
    rw [byteAt, List.getD_eq_getElem _ _ hr, List.getElem_cons_drop, List.take_append_drop]
  have htake : p.toList.take k = q.toList.take k := by
    apply List.ext_getElem
    · simp
    intro i hi _
    simp only [List.length_take, Vector.length_toList] at hi
    have := h i (by omega)
    simpa [byteAt, show i < 32 by omega] using this
  rw [Vector.compare_eq_compare_toList, split p, split q, htake, compare_append_left,
    List.compare_cons_cons, compare_u8, Nat.compare_eq_lt.mpr hlt]
  rfl

theorem compare_lt_of_nibble (hp : Under pre p) (hq : Under pre q)
    (hlen : pre.length < 64) (hlt : nibble p pre.length < nibble q pre.length) : compare p q = .lt := by
  have hbytes : ∀ i, i < pre.length / 2 → byteAt p i = byteAt q i := fun i hi =>
    byteAt_eq_of_nibble (hp.nibble_eq hq (by omega)) (hp.nibble_eq hq (by omega))
  refine compare_lt_of_byteAt (k := pre.length / 2) (by omega) hbytes ?_
  have hlt' : (nibble p pre.length).val < (nibble q pre.length).val := hlt
  rcases Nat.mod_two_eq_zero_or_one pre.length with hpar | hpar
  · rw [show pre.length = 2 * (pre.length / 2) by omega, nibble_even, nibble_even] at hlt'
    omega
  have heven : nibble p (2 * (pre.length / 2)) = nibble q (2 * (pre.length / 2)) := hp.nibble_eq hq (by omega)
  have heven' := congrArg Fin.val heven
  rw [nibble_even, nibble_even] at heven'
  rw [show pre.length = 2 * (pre.length / 2) + 1 by omega, nibble_odd, nibble_odd] at hlt'
  omega

theorem byte_bits (b : UInt8) : ∀ j : Fin 4,
    ((b &&& (0x80 >>> ofNat j.val)) != 0) = (b >>> 4).toNat.testBit (3 - j.val) ∧
    ((b &&& (0x80 >>> ofNat (4 + j.val))) != 0) = (b &&& 0x0F).toNat.testBit (3 - j.val) := by
  cases b with
  | ofBitVec b =>
    cases b with
    | ofFin b =>
      revert b
      decide +kernel

theorem byte_leading_zeros (x : UInt8) (hx : x ≠ 0) :
    leading_zeros x < 8 ∧ (x &&& (0x80 >>> ofNat (leading_zeros x))) ≠ 0 ∧
      ∀ j : Fin 8, j.val < leading_zeros x → (x &&& (0x80 >>> ofNat j.val)) = 0 := by
  cases x with
  | ofBitVec b =>
    cases b with
    | ofFin b =>
      revert b
      decide +kernel

theorem bit_eq_testBit (p : Hash) (i j : Nat) (hj : j < 4) :
    bit p (4 * i + j) = (nibble p i).val.testBit (3 - j) := by
  have hb := byte_bits (byteAt p (i / 2)) ⟨j, hj⟩
  have hmod : ∀ n, n < 16 → n % 16 = n := fun n hn => Nat.mod_eq_of_lt hn
  rcases Nat.mod_two_eq_zero_or_one i with hpar | hpar
  · have hi : (4 * i + j) / 8 = i / 2 := by omega
    have hr : (4 * i + j) % 8 = j := by omega
    have hn : (nibble p i).val = (byteAt p (i / 2) >>> 4).toNat := by
      have hlt := (byteAt p (i / 2)).toNat_lt
      unfold nibble
      rw [if_pos hpar]
      refine hmod _ ?_
      rw [UInt8.toNat_shiftRight]
      change (byteAt p (i / 2)).toNat >>> 4 < 16
      rw [Nat.shiftRight_eq_div_pow]
      omega
    rw [bit, hi, hr, hn]
    exact hb.1
  · have hi : (4 * i + j) / 8 = i / 2 := by omega
    have hr : (4 * i + j) % 8 = 4 + j := by omega
    have hn : (nibble p i).val = (byteAt p (i / 2) &&& 0x0F).toNat := by
      unfold nibble
      rw [if_neg (by omega)]
      refine hmod _ ?_
      rw [toNat_and]
      exact lt_of_le_of_lt Nat.and_le_right (by decide)
    rw [bit, hi, hr, hn]
    exact hb.2

theorem eq_of_bit (h : ∀ i, i < 256 → bit p i = bit q i) : p = q := by
  apply eq_of_nibble
  intro i hi
  apply Fin.ext
  apply Nat.eq_of_testBit_eq
  intro k
  rcases Nat.lt_or_ge k 4 with hk | hk
  · have := h (4 * i + (3 - k)) (by omega)
    rw [bit_eq_testBit p i _ (by omega), bit_eq_testBit q i _ (by omega)] at this
    rwa [show 3 - (3 - k) = k by omega] at this
  · have hbig : 16 ≤ 2 ^ k := by
      calc 16 = 2 ^ 4 := by norm_num
        _ ≤ 2 ^ k := Nat.pow_le_pow_right (by norm_num) hk
    rw [Nat.testBit_lt_two_pow (by omega), Nat.testBit_lt_two_pow (by omega)]

/-! ## The first bit that differs -/

theorem xor_and_eq_zero_iff (a b : UInt8) (j : Nat) (hj : j < 8) :
    ((a ^^^ b) &&& (0x80 >>> ofNat j)) = 0 ↔
      ((a &&& (0x80 >>> ofNat j)) != 0) = ((b &&& (0x80 >>> ofNat j)) != 0) := by
  have hone : ∀ x : UInt8, ∀ j : Fin 8, x &&& (0x80 >>> ofNat j.val) = 0 ∨
      x &&& (0x80 >>> ofNat j.val) = 0x80 >>> ofNat j.val := by
    intro x
    cases x with
    | ofBitVec x =>
      cases x with
      | ofFin x =>
        revert x
        decide +kernel
  have hdist : (a ^^^ b) &&& (0x80 >>> ofNat j) = (a &&& (0x80 >>> ofNat j)) ^^^ (b &&& (0x80 >>> ofNat j)) := by
    apply UInt8.toNat_inj.mp
    simp only [toNat_and, UInt8.toNat_xor, Nat.and_xor_distrib_right]
  have hne : ∀ j : Fin 8, (0x80 >>> ofNat j.val : UInt8) ≠ 0 := by decide
  have hne' := hne ⟨j, hj⟩
  rw [hdist]
  rcases hone a ⟨j, hj⟩ with ha | ha <;> rcases hone b ⟨j, hj⟩ with hb | hb <;>
    simp_all

def bitOf (l : Bytes) (i : Nat) : Bool := (l.getD (i / 8) 0 &&& (0x80 >>> ofNat (i % 8))) != 0

theorem bitOf_cons_lt (a : UInt8) (l : Bytes) {i : Nat} (hi : i < 8) :
    bitOf (a :: l) i = ((a &&& (0x80 >>> ofNat i)) != 0) := by
  rw [bitOf, show i / 8 = 0 by omega, show i % 8 = i by omega]
  rfl

theorem bitOf_cons_add (a : UInt8) (l : Bytes) (i : Nat) : bitOf (a :: l) (i + 8) = bitOf l i := by
  rw [bitOf, show (i + 8) / 8 = i / 8 + 1 by omega, show (i + 8) % 8 = i % 8 by omega]
  rfl

theorem le_commonPrefixFrom (k n : Nat) (as bs : Bytes) (hlen : as.length = bs.length)
    (hk : k + as.length = 32) (hn : n ≤ 256) :
    n ≤ commonPrefixFrom k as bs ↔ ∀ i, i + k * 8 < n → bitOf as i = bitOf bs i := by
  induction as generalizing k bs with
  | nil =>
    have hb : bs = [] := by simpa using hlen.symm
    subst hb
    simp [commonPrefixFrom, MAX_DEPTH, hn]
  | cons a as ih =>
    rcases bs with _ | ⟨b, bs⟩
    · simp at hlen
    simp only [List.length_cons, Nat.add_right_cancel_iff] at hlen hk
    unfold commonPrefixFrom
    simp only
    split
    · rename_i hx
      obtain ⟨hlt, hset, hzero⟩ := byte_leading_zeros _ hx
      constructor
      · intro hle i hi
        have hi8 : i < 8 := by omega
        rw [bitOf_cons_lt _ _ hi8, bitOf_cons_lt _ _ hi8, ← xor_and_eq_zero_iff a b i hi8]
        exact hzero ⟨i, hi8⟩ (by simp only; omega)
      · intro hall
        by_contra hlt'
        have := hall (leading_zeros (a ^^^ b)) (by omega)
        rw [bitOf_cons_lt _ _ hlt, bitOf_cons_lt _ _ hlt, ← xor_and_eq_zero_iff a b _ hlt] at this
        exact hset this
    · rename_i hx
      have hab : a = b := UInt8.xor_eq_zero_iff.mp (not_not.mp hx)
      subst hab
      rw [ih (k + 1) bs hlen (by omega)]
      constructor
      · intro hall i hi
        rcases Nat.lt_or_ge i 8 with hi8 | hi8
        · rw [bitOf_cons_lt _ _ hi8, bitOf_cons_lt _ _ hi8]
        have := hall (i - 8) (by omega)
        rw [show i = i - 8 + 8 by omega, bitOf_cons_add, bitOf_cons_add]
        exact this
      · intro hall i hi
        have := hall (i + 8) (by omega)
        rwa [bitOf_cons_add, bitOf_cons_add] at this

theorem le_common_prefix_bits (a b : Hash) {n : Nat} (hn : n ≤ 256) :
    n ≤ common_prefix_bits a b ↔ ∀ i, i < n → bit a i = bit b i := by
  have := le_commonPrefixFrom 0 n a.toList b.toList (by simp) (by simp) hn
  simp only [zero_mul, add_zero] at this
  exact this

end EnclaveOs.Merkle
