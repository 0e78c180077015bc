import Mathlib

/-!
# Byte strings

Numbers as bytes, and the order of byte strings: the order of the numbers that
they start with.
-/

namespace EnclaveOs.Lib

abbrev Bytes := List UInt8

/-! ## Big-endian numbers -/

def be : Nat → Nat → Bytes
  | 0, _ => []
  | k + 1, n => be k (n / 256) ++ [UInt8.ofNat n]

def ofBe (l : Bytes) : Nat := l.foldl (fun acc b => acc * 256 + b.toNat) 0

@[simp] theorem length_be (k n : Nat) : (be k n).length = k := by
  induction k generalizing n with
  | zero => rfl
  | succ k ih => simp [be, ih]

theorem ofBe_append_one (l : Bytes) (b : UInt8) : ofBe (l ++ [b]) = ofBe l * 256 + b.toNat := by
  simp [ofBe, List.foldl_append]

theorem ofBe_be (k n : Nat) (h : n < 256 ^ k) : ofBe (be k n) = n := by
  induction k generalizing n with
  | zero => simp at h; simp [be, ofBe, h]
  | succ k ih =>
    rw [pow_succ] at h
    rw [be, ofBe_append_one, ih _ (by omega)]
    simp
    omega

theorem ofBe_lt (l : Bytes) : ofBe l < 256 ^ l.length := by
  induction l using List.reverseRecOn with
  | nil => simp [ofBe]
  | append_singleton l b ih =>
    rw [ofBe_append_one, List.length_append, List.length_singleton, pow_succ]
    have := b.toNat_lt
    omega

theorem be_ofBe (l : Bytes) : be l.length (ofBe l) = l := by
  induction l using List.reverseRecOn with
  | nil => rfl
  | append_singleton l b ih =>
    have := b.toNat_lt
    rw [ofBe_append_one, List.length_append, List.length_singleton, be]
    rw [show (ofBe l * 256 + b.toNat) / 256 = ofBe l by omega, ih]
    congr 2
    apply UInt8.toNat_inj.mp
    simp

def u64Be (v : UInt64) : Bytes := be 8 v.toNat

def u64OfBe (l : Bytes) : UInt64 := UInt64.ofNat (ofBe l)

@[simp] theorem length_u64Be (v : UInt64) : (u64Be v).length = 8 := length_be 8 _

theorem u64OfBe_u64Be (v : UInt64) : u64OfBe (u64Be v) = v := by
  rw [u64OfBe, u64Be, ofBe_be 8 _ (by have := v.toNat_lt; norm_num at this ⊢; omega)]
  simp

theorem u64Be_u64OfBe (l : Bytes) (h : l.length = 8) : u64Be (u64OfBe l) = l := by
  have hlt := ofBe_lt l
  rw [h] at hlt
  rw [u64Be, u64OfBe, UInt64.toNat_ofNat_of_lt' (by norm_num at hlt ⊢; omega)]
  conv => lhs; rw [← h]
  exact be_ofBe l

theorem u64Be_inj {a b : UInt64} (h : u64Be a = u64Be b) : a = b := by
  rw [← u64OfBe_u64Be a, h, u64OfBe_u64Be]

/-! ## Little-endian numbers -/

def le : Nat → Nat → Bytes
  | 0, _ => []
  | k + 1, n => UInt8.ofNat n :: le k (n / 256)

def ofLe : Bytes → Nat
  | [] => 0
  | b :: l => b.toNat + 256 * ofLe l

@[simp] theorem length_le (k n : Nat) : (le k n).length = k := by
  induction k generalizing n with
  | zero => rfl
  | succ k ih => simp [le, ih]

def u64Le (v : UInt64) : Bytes := le 8 v.toNat

def u64OfLe (l : Bytes) : UInt64 := UInt64.ofNat (ofLe l)

theorem ofLe_le (k n : Nat) (h : n < 256 ^ k) : ofLe (le k n) = n := by
  induction k generalizing n with
  | zero => simp at h; simp [le, ofLe, h]
  | succ k ih =>
    rw [pow_succ] at h
    rw [le, ofLe, ih _ (by omega)]
    simp
    omega

theorem ofLe_lt (l : Bytes) : ofLe l < 256 ^ l.length := by
  induction l with
  | nil => exact Nat.one_pos
  | cons b l ih =>
    have := b.toNat_lt
    rw [ofLe, List.length_cons, pow_succ]
    omega

theorem compare_append_left (l x y : Bytes) : compare (l ++ x) (l ++ y) = compare x y := by
  induction l with
  | nil => rfl
  | cons b l ih => simp [List.compare_cons_cons, ih]

theorem compare_u8 (a b : UInt8) : compare a b = compare a.toNat b.toNat := by
  simp only [compare, compareOfLessAndEq, UInt8.lt_iff_toNat_lt, UInt8.toNat_inj]

theorem compare_div_mod (a b : Nat) :
    compare a b = (compare (a / 256) (b / 256)).then (compare (a % 256) (b % 256)) := by
  rcases lt_trichotomy (a / 256) (b / 256) with h | h | h
  · rw [Nat.compare_eq_lt.mpr h, Nat.compare_eq_lt.mpr (by omega)]; rfl
  · rw [Nat.compare_eq_eq.mpr h, Ordering.eq_then]
    rcases lt_trichotomy (a % 256) (b % 256) with h' | h' | h'
    · rw [Nat.compare_eq_lt.mpr h', Nat.compare_eq_lt.mpr (by omega)]
    · rw [Nat.compare_eq_eq.mpr h', Nat.compare_eq_eq.mpr (by omega)]
    · rw [Nat.compare_eq_gt.mpr h', Nat.compare_eq_gt.mpr (by omega)]
  · rw [Nat.compare_eq_gt.mpr h, Nat.compare_eq_gt.mpr (by omega)]; rfl

theorem compare_be_append (k a b : Nat) (x y : Bytes) (ha : a < 256 ^ k) (hb : b < 256 ^ k) :
    compare (be k a ++ x) (be k b ++ y) = (compare a b).then (compare x y) := by
  induction k generalizing a b x y with
  | zero =>
    simp at ha hb
    subst ha hb
    simp [be]
  | succ k ih =>
    rw [pow_succ] at ha hb
    simp only [be, List.append_assoc, List.singleton_append]
    rw [ih _ _ _ _ (by omega) (by omega), List.compare_cons_cons, compare_u8, compare_div_mod a b,
      Ordering.then_assoc]
    simp

theorem compare_u64Be_append (a b : UInt64) (x y : Bytes) :
    compare (u64Be a ++ x) (u64Be b ++ y) = (compare a.toNat b.toNat).then (compare x y) := by
  have ha := a.toNat_lt
  have hb := b.toNat_lt
  exact compare_be_append 8 _ _ x y (by norm_num at ha ⊢; omega) (by norm_num at hb ⊢; omega)

end EnclaveOs.Lib
