import Mathlib

/-!
# Polynomials with a given value at zero

A polynomial of degree at most `m` is given by its value at zero and `m` further coefficients, or by any `m + 1`
of its values.
-/

namespace EnclaveOs.Lib

open Polynomial

variable {F : Type} [Field F] {m : Nat}

noncomputable def sharePoly (b : F) (c : Fin m → F) : F[X] := C b + ∑ i, C (c i) * X ^ (i.val + 1)

theorem eval_sharePoly (b : F) (c : Fin m → F) (x : F) : (sharePoly b c).eval x = b + ∑ i, c i * x ^ (i.val + 1) := by
  simp [sharePoly, eval_finsetSum]

theorem eval_zero_sharePoly (b : F) (c : Fin m → F) : (sharePoly b c).eval 0 = b := by
  simp [eval_sharePoly]

theorem degree_sharePoly_lt (b : F) (c : Fin m → F) : (sharePoly b c).degree < ((m + 1 : Nat) : WithBot Nat) := by
  refine (degree_add_le _ _).trans_lt (max_lt ?_ ?_)
  · exact degree_C_le.trans_lt (by exact_mod_cast Nat.succ_pos m)
  · refine (degree_sum_le _ _).trans_lt ((Finset.sup_lt_iff (WithBot.bot_lt_coe _)).mpr fun i _ => ?_)
    refine (degree_C_mul_X_pow_le _ _).trans_lt ?_
    exact_mod_cast Nat.succ_lt_succ i.isLt

theorem eval_sharePoly_add (b d : F) (c e : Fin m → F) (x : F) :
    (sharePoly (b + d) (c + e)).eval x = (sharePoly b c).eval x + (sharePoly d e).eval x := by
  simp only [eval_sharePoly, Pi.add_apply, add_mul, Finset.sum_add_distrib]
  ring

theorem exists_sharePoly {P : F[X]} (h : P.natDegree ≤ m) : ∃ e : Fin m → F, P = sharePoly (P.coeff 0) e := by
  refine ⟨fun i => P.coeff (i.val + 1), ?_⟩
  conv_lhs => rw [P.as_sum_range_C_mul_X_pow' (Nat.lt_succ_of_le h), Finset.sum_range_succ']
  rw [sharePoly, add_comm, pow_zero, mul_one, Finset.sum_range]

theorem exists_vanishing {S : Finset F} (h0 : (0 : F) ∉ S) (hS : S.card ≤ m) (d : F) :
    ∃ e : Fin m → F, ∀ x ∈ S, (sharePoly d e).eval x = 0 := by
  let P : F[X] := C d * ∏ x ∈ S, (1 - C x⁻¹ * X)
  have hdeg : P.natDegree ≤ m := by
    refine (natDegree_C_mul_le _ _).trans ((natDegree_prod_le _ _).trans ?_)
    refine (Finset.sum_le_card_nsmul S _ 1 fun x _ => ?_).trans (by simpa using hS)
    exact (natDegree_sub_le _ _).trans (by simpa using (natDegree_C_mul_le _ _).trans natDegree_X_le)
  have hzero : P.coeff 0 = d := by
    rw [coeff_zero_eq_eval_zero]
    simp [P, eval_prod]
  obtain ⟨e, he⟩ := exists_sharePoly hdeg
  rw [hzero] at he
  refine ⟨e, fun x hx => ?_⟩
  have hne : x ≠ 0 := fun h => h0 (h ▸ hx)
  rw [← he, eval_mul, eval_prod, Finset.prod_eq_zero hx (by simp [hne]), mul_zero]

theorem eval_zero_eq_sum {P : F[X]} {n : Nat} {x : Nat → F} (hx : Set.InjOn x (Finset.range n))
    (hP : P.degree < (n : WithBot Nat)) :
    P.eval 0 = ∑ i ∈ Finset.range n, P.eval (x i) *
      ((∏ j ∈ (Finset.range n).erase i, (0 - x j)) * (∏ j ∈ (Finset.range n).erase i, (x i - x j))⁻¹) := by
  have h := Lagrange.eq_interpolate hx (by simpa using hP)
  conv_lhs => rw [h]
  rw [Lagrange.interpolate_apply, eval_finsetSum]
  refine Finset.sum_congr rfl fun i _ => ?_
  rw [eval_mul, eval_C, Lagrange.basis, eval_prod]
  congr 1
  rw [← Finset.prod_inv_distrib, ← Finset.prod_mul_distrib]
  refine Finset.prod_congr rfl fun j _ => ?_
  simp [Lagrange.basisDivisor, mul_comm]

end EnclaveOs.Lib
