import Mathlib

/-!
# What a value is due to

The value of a key is due to the last event that set it.
-/

namespace EnclaveOs.Lib

variable {S E V : Type} (step : S → E → S) (s : S) (es : List E)

def before (i : Nat) : S := (es.take i).foldl step s

@[simp] theorem before_zero : before step s es 0 = s := rfl

variable {step s es}

theorem before_succ {i : Nat} {e : E} (h : es[i]? = some e) :
    before step s es (i + 1) = step (before step s es i) e := by
  rw [before, List.take_add_one, h, List.foldl_append]
  rfl

theorem before_of_none {i : Nat} (h : es[i]? = none) : before step s es (i + 1) = before step s es i := by
  rw [before, List.take_add_one, h]
  simp [before]

theorem before_induction {P : S → Prop} (h0 : P s) (hstep : ∀ s e, P s → P (step s e)) (i : Nat) :
    P (before step s es i) := by
  induction i with
  | zero => exact h0
  | succ i ih =>
    rcases h : es[i]? with _ | e
    · rw [before_of_none h]; exact ih
    · rw [before_succ h]; exact hstep _ e ih

/-- No event from `j` up to `i` touches. -/
def Quiet (step : S → E → S) (s : S) (es : List E) (Touches : S → E → Prop) (j i : Nat) : Prop :=
  ∀ k e, j ≤ k → k < i → es[k]? = some e → ¬ Touches (before step s es k) e

theorem since (view : S → Option V) (Touches : S → E → Prop) {Sets : S → E → V → Prop} (h0 : view s = none)
    (hstep : ∀ s e v, view (step s e) = some v → Sets s e v ∨ view s = some v ∧ ¬ Touches s e)
    {i : Nat} {v : V} (hv : view (before step s es i) = some v) :
    ∃ j e, j < i ∧ es[j]? = some e ∧ Sets (before step s es j) e v ∧ Quiet step s es Touches (j + 1) i := by
  induction i with
  | zero => rw [before_zero, h0] at hv; cases hv
  | succ i ih =>
    rcases he : es[i]? with _ | e
    · rw [before_of_none he] at hv
      obtain ⟨j, e, hj, hje, hsets, hquiet⟩ := ih hv
      refine ⟨j, e, by omega, hje, hsets, fun k e' hjk hk hke => ?_⟩
      have hki : k ≠ i := fun h => by rw [h, he] at hke; cases hke
      exact hquiet k e' hjk (by omega) hke
    rw [before_succ he] at hv
    rcases hstep _ e v hv with hsets | ⟨hold, hnot⟩
    · exact ⟨i, e, by omega, he, hsets, fun k _ hjk hk _ => by omega⟩
    obtain ⟨j, e', hj, hje, hsets, hquiet⟩ := ih hold
    refine ⟨j, e', by omega, hje, hsets, fun k e'' hjk hk hke => ?_⟩
    by_cases hki : k = i
    · rw [hki, he, Option.some.injEq] at hke
      rw [hki, ← hke]
      exact hnot
    · exact hquiet k e'' hjk (by omega) hke

theorem until_touched (P : S → Prop) (Touches : S → E → Prop)
    (hstep : ∀ s e, P s → ¬ Touches s e → P (step s e)) {j i : Nat} (hji : j ≤ i)
    (hP : P (before step s es j)) (hquiet : Quiet step s es Touches j i) : P (before step s es i) := by
  induction i, hji using Nat.le_induction with
  | base => exact hP
  | succ i hji ih =>
    have hPi := ih fun k e hjk hk => hquiet k e hjk (by omega)
    rcases h : es[i]? with _ | e
    · rw [before_of_none h]; exact hPi
    · rw [before_succ h]; exact hstep _ e hPi (hquiet i e hji (by omega) h)

theorem view_foldl (view : S → V) (hkeep : ∀ e ∈ es, ∀ s, view (step s e) = view s) :
    view (es.foldl step s) = view s := by
  induction es generalizing s with
  | nil => rfl
  | cons e es ih =>
    rw [List.foldl_cons, ih fun e' he' => hkeep e' (List.mem_cons_of_mem _ he')]
    exact hkeep e (.head _) s

theorem view_foldl_once {K : Type} (view : S → V) {key : E → K} {e : E} (hmem : e ∈ es)
    (hnodup : (es.map key).Nodup) (hkeep : ∀ s e', key e' ≠ key e → view (step s e') = view s) :
    ∃ s', view s' = view s ∧ view (es.foldl step s) = view (step s' e) := by
  obtain ⟨first, rest, rfl⟩ := List.append_of_mem hmem
  rw [List.map_append, List.map_cons, List.nodup_append, List.nodup_cons] at hnodup
  obtain ⟨-, ⟨hrest, -⟩, hfirst⟩ := hnodup
  refine ⟨first.foldl step s, ?_, ?_⟩
  · apply view_foldl
    intro e' he' s'
    exact hkeep s' e' (hfirst _ (List.mem_map_of_mem he') _ (.head _))
  · rw [List.foldl_append, List.foldl_cons]
    apply view_foldl
    intro e' he' s'
    apply hkeep
    intro hkey
    exact hrest (hkey ▸ List.mem_map_of_mem he')

end EnclaveOs.Lib
