import Mathlib

/-!
# Arithmetic in GF(2^8) (`vaultkey.rs`)

The tables hold the powers of 3 modulo `0x11b` and their logarithms.
-/

namespace EnclaveOs.Wasm

/-- The tables and the power of 3 that is reached. -/
def gf_round (s : List UInt8 × List UInt8 × UInt16) (i : Nat) : List UInt8 × List UInt8 × UInt16 :=
  let (exp, log, val) := s
  let doubled := val <<< 1
  let doubled := if doubled &&& 0x100 ≠ 0 then doubled ^^^ 0x11b else doubled
  (exp.set i val.toUInt8, log.set val.toNat (UInt8.ofNat i), val ^^^ doubled)

def gf_tables : List UInt8 × List UInt8 :=
  let (exp, log, _) := (List.range 255).foldl gf_round (List.replicate 256 0, List.replicate 256 0, 1)
  (exp.set 255 (exp.getD 0 0), log)

def gf_exp (i : Nat) : UInt8 := gf_tables.1.getD i 0

def gf_log (a : UInt8) : UInt8 := gf_tables.2.getD a.toNat 0

def gf_mul (a b : UInt8) : UInt8 :=
  if a = 0 ∨ b = 0 then 0 else gf_exp (((gf_log a).toNat + (gf_log b).toNat) % 255)

def gf_inv (a : UInt8) : UInt8 := gf_exp (255 - (gf_log a).toNat)

def gf_add (a b : UInt8) : UInt8 := a ^^^ b

/-- The value, its double, and the modulus if a bit was pushed out. -/
def times3 (v : UInt8) : UInt8 := v ^^^ (v <<< 1) ^^^ (if v &&& 0x80 ≠ 0 then 0x1b else 0)

theorem gf_round_val : ∀ v : UInt8, v.toUInt16 ^^^
      (if v.toUInt16 <<< 1 &&& 0x100 ≠ 0 then v.toUInt16 <<< 1 ^^^ 0x11b else v.toUInt16 <<< 1) =
    (times3 v).toUInt16 := by
  decide +kernel

theorem times3_zero : times3 0 = 0 := rfl

theorem times3_add (a b : UInt8) : times3 (a ^^^ b) = times3 a ^^^ times3 b := by
  have htop : ∀ v : UInt8, (v &&& 0x80 ≠ 0) ↔ v.toBitVec.msb = true := by decide +kernel
  have hshift : (a ^^^ b) <<< 1 = a <<< 1 ^^^ b <<< 1 := by
    apply UInt8.toBitVec_inj.mp
    simp [BitVec.shiftLeft_xor_distrib]
  unfold times3
  rw [hshift]
  simp only [htop, UInt8.toBitVec_xor, BitVec.msb_xor]
  have hregroup : ∀ p q p' q' r r' : UInt8,
      p ^^^ q ^^^ (p' ^^^ q') ^^^ (r ^^^ r') = p ^^^ p' ^^^ r ^^^ (q ^^^ q' ^^^ r') := by
    intro p q p' q' r r'
    ac_rfl
  rw [← hregroup]
  congr 1
  cases a.toBitVec.msb <;> cases b.toBitVec.msb <;> rfl

theorem times3_injective : Function.Injective times3 := by
  have hzero : ∀ v : UInt8, times3 v = 0 → v = 0 := by decide +kernel
  intro a b h
  have hsum : a ^^^ b = 0 := hzero _ (by rw [times3_add, h, UInt8.xor_self])
  exact UInt8.xor_eq_zero_iff.mp hsum

theorem minimalPeriod_times3 : Function.minimalPeriod times3 1 = 255 := by
  have hdvd : Function.minimalPeriod times3 1 ∣ 255 :=
    Function.IsPeriodicPt.minimalPeriod_dvd (by unfold Function.IsPeriodicPt Function.IsFixedPt; decide +kernel)
  have hnot : ∀ d, times3^[d] 1 ≠ 1 → ¬ Function.minimalPeriod times3 1 ∣ d := by
    intro d hd hdiv
    exact hd (Function.isPeriodicPt_iff_minimalPeriod_dvd.mpr hdiv)
  have hdivisors : ∀ d ≤ 255, d ∣ 255 → d = 255 ∨ d ∣ 85 ∨ d ∣ 51 ∨ d ∣ 15 := by decide +kernel
  rcases hdivisors _ (Nat.le_of_dvd (by decide) hdvd) hdvd with h | h | h | h
  · exact h
  · exact absurd h (hnot 85 (by decide +kernel))
  · exact absurd h (hnot 51 (by decide +kernel))
  · exact absurd h (hnot 15 (by decide +kernel))

def pow3 (i : Nat) : UInt8 := times3^[i] 1

theorem pow3_injOn : Set.InjOn pow3 (Set.Iio 255) := by
  have h := Function.iterate_injOn_Iio_minimalPeriod (f := times3) (x := 1)
  rwa [minimalPeriod_times3] at h

theorem pow3_mod (i : Nat) : pow3 (i % 255) = pow3 i := by
  have h := Function.iterate_mod_minimalPeriod_eq (f := times3) (x := 1) (n := i)
  rwa [minimalPeriod_times3] at h

theorem pow3_ne_zero (i : Nat) : pow3 i ≠ 0 := by
  intro h
  have hzero : times3^[i] 0 = 0 := Function.iterate_fixed times3_zero i
  have := times3_injective.iterate i (h.trans hzero.symm)
  exact absurd this (by decide)

theorem exists_pow3 {a : UInt8} (ha : a ≠ 0) : ∃ i < 255, pow3 i = a := by
  have hsub : (Finset.range 255).image pow3 ⊆ Finset.univ.erase 0 := by
    intro b hb
    obtain ⟨i, -, rfl⟩ := Finset.mem_image.mp hb
    exact Finset.mem_erase.mpr ⟨pow3_ne_zero i, Finset.mem_univ _⟩
  have hcard : (Finset.univ.erase (0 : UInt8)).card ≤ ((Finset.range 255).image pow3).card := by
    rw [Finset.card_image_of_injOn (by simpa using pow3_injOn), Finset.card_erase_of_mem (Finset.mem_univ _)]
    decide +kernel
  have heq := Finset.eq_of_subset_of_card_le hsub hcard
  have hmem : a ∈ (Finset.range 255).image pow3 := heq ▸ Finset.mem_erase.mpr ⟨ha, Finset.mem_univ _⟩
  obtain ⟨i, hi, rfl⟩ := Finset.mem_image.mp hmem
  exact ⟨i, Finset.mem_range.mp hi, rfl⟩

/-! ## What the tables hold -/

theorem getD_set_self {l : List UInt8} {i : Nat} {v : UInt8} (h : i < l.length) : (l.set i v).getD i 0 = v := by
  simp [List.getD_eq_getElem?_getD, h]

theorem getD_set_ne {l : List UInt8} {i j : Nat} {v : UInt8} (h : i ≠ j) : (l.set i v).getD j 0 = l.getD j 0 := by
  simp [List.getD_eq_getElem?_getD, List.getElem?_set_ne h]

theorem gf_rounds (n : Nat) (hn : n ≤ 255) :
    ∃ exp log : List UInt8,
      (List.range n).foldl gf_round (List.replicate 256 0, List.replicate 256 0, 1) = (exp, log, (pow3 n).toUInt16) ∧
      exp.length = 256 ∧ log.length = 256 ∧ (∀ i < n, exp.getD i 0 = pow3 i) ∧
      ∀ i < n, log.getD (pow3 i).toNat 0 = UInt8.ofNat i := by
  induction n with
  | zero =>
    exact ⟨_, _, rfl, List.length_replicate, List.length_replicate, fun i hi => absurd hi (Nat.not_lt_zero i),
      fun i hi => absurd hi (Nat.not_lt_zero i)⟩
  | succ n ih =>
    obtain ⟨exp, log, hfold, hexp, hlog, hpow, hinv⟩ := ih (by omega)
    refine ⟨exp.set n (pow3 n), log.set (pow3 n).toNat (UInt8.ofNat n), ?_, by simpa, by simpa, ?_, ?_⟩
    · rw [List.range_succ, List.foldl_append, hfold]
      simp only [List.foldl_cons, List.foldl_nil, gf_round, gf_round_val]
      rw [pow3, pow3, Function.iterate_succ_apply']
      simp
    · intro i hi
      rcases Nat.lt_succ_iff_lt_or_eq.mp hi with hlt | rfl
      · rw [getD_set_ne (by omega), hpow i hlt]
      · exact getD_set_self (by omega)
    · intro i hi
      rcases Nat.lt_succ_iff_lt_or_eq.mp hi with hlt | rfl
      · have hne : pow3 n ≠ pow3 i := fun h => by
          have := pow3_injOn (show n < 255 by omega) (show i < 255 by omega) h
          omega
        rw [getD_set_ne (fun h => hne (UInt8.toNat_inj.mp h)), hinv i hlt]
      · exact getD_set_self (by have := (pow3 i).toNat_lt; omega)

theorem gf_exp_eq {i : Nat} (hi : i ≤ 255) : gf_exp i = pow3 i := by
  obtain ⟨exp, log, hfold, hexp, -, hpow, -⟩ := gf_rounds 255 (le_refl _)
  rw [gf_exp, gf_tables, hfold]
  rcases Nat.lt_or_eq_of_le hi with hlt | rfl
  · exact (getD_set_ne (by omega)).trans (hpow i hlt)
  · refine (getD_set_self (by omega)).trans ((hpow 0 (by decide)).trans ?_)
    exact pow3_mod 255

theorem gf_log_pow3 {i : Nat} (hi : i < 255) : gf_log (pow3 i) = UInt8.ofNat i := by
  obtain ⟨exp, log, hfold, -, -, -, hinv⟩ := gf_rounds 255 (le_refl _)
  rw [gf_log, gf_tables, hfold]
  exact hinv i hi

theorem toNat_gf_log_pow3 {i : Nat} (hi : i < 255) : (gf_log (pow3 i)).toNat = i := by
  rw [gf_log_pow3 hi]
  exact UInt8.toNat_ofNat_of_lt' (show i < 256 by omega)

theorem gf_mul_pow3 (i j : Nat) : gf_mul (pow3 i) (pow3 j) = pow3 (i + j) := by
  rw [← pow3_mod i, ← pow3_mod j, gf_mul, if_neg (by simp [pow3_ne_zero]),
    toNat_gf_log_pow3 (Nat.mod_lt _ (by decide)), toNat_gf_log_pow3 (Nat.mod_lt _ (by decide)),
    gf_exp_eq (Nat.le_of_lt (Nat.mod_lt _ (by decide))), ← Nat.add_mod, pow3_mod]

theorem gf_mul_zero (a : UInt8) : gf_mul a 0 = 0 := if_pos (.inr rfl)

theorem zero_gf_mul (a : UInt8) : gf_mul 0 a = 0 := if_pos (.inl rfl)

theorem gf_mul_eq_iterate (i : Nat) (a : UInt8) : gf_mul (pow3 i) a = times3^[i] a := by
  by_cases ha : a = 0
  · rw [ha, gf_mul_zero, Function.iterate_fixed times3_zero]
  · obtain ⟨j, -, rfl⟩ := exists_pow3 ha
    rw [gf_mul_pow3, pow3, pow3, Function.iterate_add_apply]

theorem gf_mul_add (a b c : UInt8) : gf_mul a (gf_add b c) = gf_add (gf_mul a b) (gf_mul a c) := by
  by_cases ha : a = 0
  · rw [ha, zero_gf_mul, zero_gf_mul, zero_gf_mul]
    rfl
  obtain ⟨i, -, rfl⟩ := exists_pow3 ha
  simp only [gf_mul_eq_iterate, gf_add]
  induction i generalizing b c with
  | zero => rfl
  | succ i ih => simp only [Function.iterate_succ_apply, times3_add, ih _ _ (pow3_ne_zero i)]

theorem gf_mul_comm (a b : UInt8) : gf_mul a b = gf_mul b a := by
  unfold gf_mul
  simp only [Nat.add_comm, or_comm]

theorem gf_add_mul (a b c : UInt8) : gf_mul (gf_add a b) c = gf_add (gf_mul a c) (gf_mul b c) := by
  rw [gf_mul_comm, gf_mul_add, gf_mul_comm c, gf_mul_comm c]

theorem gf_mul_assoc (a b c : UInt8) : gf_mul (gf_mul a b) c = gf_mul a (gf_mul b c) := by
  by_cases ha : a = 0
  · rw [ha, zero_gf_mul, zero_gf_mul, zero_gf_mul]
  by_cases hb : b = 0
  · rw [hb, zero_gf_mul, gf_mul_zero, zero_gf_mul]
  by_cases hc : c = 0
  · rw [hc, gf_mul_zero, gf_mul_zero, gf_mul_zero]
  obtain ⟨i, -, rfl⟩ := exists_pow3 ha
  obtain ⟨j, -, rfl⟩ := exists_pow3 hb
  obtain ⟨k, -, rfl⟩ := exists_pow3 hc
  rw [gf_mul_pow3, gf_mul_pow3, gf_mul_pow3, gf_mul_pow3, Nat.add_assoc]

theorem one_gf_mul (a : UInt8) : gf_mul 1 a = a := gf_mul_eq_iterate 0 a

theorem gf_mul_inv {a : UInt8} (ha : a ≠ 0) : gf_mul a (gf_inv a) = 1 := by
  obtain ⟨i, hi, rfl⟩ := exists_pow3 ha
  rw [gf_inv, toNat_gf_log_pow3 hi, gf_exp_eq (by omega), gf_mul_pow3, Nat.add_sub_cancel' (by omega)]
  exact (pow3_mod 255).symm

@[ext]
structure Gf where
  byte : UInt8
deriving DecidableEq

namespace Gf

instance : Zero Gf := ⟨⟨0⟩⟩

instance : One Gf := ⟨⟨1⟩⟩

instance : Add Gf := ⟨fun a b => ⟨gf_add a.byte b.byte⟩⟩

instance : Mul Gf := ⟨fun a b => ⟨gf_mul a.byte b.byte⟩⟩

/-- Every element is its own negative. -/
instance : Neg Gf := ⟨fun a => a⟩

/-- `gf_inv` is not asked for the inverse of zero. -/
instance : Inv Gf := ⟨fun a => if a = 0 then 0 else ⟨gf_inv a.byte⟩⟩

@[simp] theorem byte_mul (a b : Gf) : (a * b).byte = gf_mul a.byte b.byte := rfl

@[simp] theorem neg_eq (a : Gf) : -a = a := rfl

theorem byte_ne_zero {a : Gf} (ha : a ≠ 0) : a.byte ≠ 0 := fun h => ha (Gf.ext h)

theorem byte_inv {a : Gf} (ha : a ≠ 0) : a⁻¹.byte = gf_inv a.byte := by
  have h : a⁻¹ = if a = 0 then 0 else ⟨gf_inv a.byte⟩ := rfl
  rw [h, if_neg ha]

instance : Field Gf where
  add_assoc a b c := Gf.ext (UInt8.xor_assoc a.byte b.byte c.byte)
  zero_add a := Gf.ext UInt8.zero_xor
  add_zero a := Gf.ext UInt8.xor_zero
  add_comm a b := Gf.ext (UInt8.xor_comm a.byte b.byte)
  neg_add_cancel a := Gf.ext UInt8.xor_self
  mul_assoc a b c := Gf.ext (gf_mul_assoc a.byte b.byte c.byte)
  one_mul a := Gf.ext (one_gf_mul a.byte)
  mul_one a := Gf.ext ((gf_mul_comm a.byte 1).trans (one_gf_mul a.byte))
  mul_comm a b := Gf.ext (gf_mul_comm a.byte b.byte)
  left_distrib a b c := Gf.ext (gf_mul_add a.byte b.byte c.byte)
  right_distrib a b c := Gf.ext (gf_add_mul a.byte b.byte c.byte)
  zero_mul a := Gf.ext (zero_gf_mul a.byte)
  mul_zero a := Gf.ext (gf_mul_zero a.byte)
  nsmul := nsmulRec
  zsmul := zsmulRec
  mul_inv_cancel a ha := by
    apply Gf.ext
    rw [byte_mul, byte_inv ha, gf_mul_inv (byte_ne_zero ha)]
    rfl
  inv_zero := if_pos rfl
  exists_pair_ne := ⟨0, 1, by decide⟩
  nnqsmul := _
  nnqsmul_def := fun _ _ => rfl
  qsmul := _
  qsmul_def := fun _ _ => rfl

theorem sub_eq_add (a b : Gf) : a - b = a + b := by rw [sub_eq_add_neg, neg_eq]

end Gf

end EnclaveOs.Wasm
