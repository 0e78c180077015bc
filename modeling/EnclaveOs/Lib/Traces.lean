import Mathlib

/-! # Logs of events -/

namespace EnclaveOs.Lib

variable {E K H : Type} (next : K → H → E → H) (start : H)

def view (log : List E) (k : K) : H := log.foldl (next k) start

/-- At every moment of the log, for every key. -/
def Always (P : H → Prop) (log : List E) : Prop := ∀ past, past <+: log → ∀ k, P (view next start past k)

/-- After each of the events, from `h` on. -/
def Along (read : H → E → H) (P : H → Prop) : H → List E → Prop
  | _, [] => True
  | h, e :: evs => P (read h e) ∧ Along read P (read h e) evs

/-- The events leave the history of `k` as it is. -/
def Silent (k : K) (evs : List E) : Prop := ∀ e ∈ evs, ∀ h, next k h e = h

variable {next start}

theorem view_append (log evs : List E) (k : K) :
    view next start (log ++ evs) k = evs.foldl (next k) (view next start log k) :=
  List.foldl_append

variable {evs log : List E} {P : H → Prop}

theorem Silent.foldl {k : K} (hs : Silent next k evs) (h : H) : evs.foldl (next k) h = h := by
  induction evs with
  | nil => rfl
  | cons e evs ih =>
    rw [List.foldl_cons, hs e List.mem_cons_self h]
    exact ih fun e' he' => hs e' (.tail _ he')

theorem Silent.along {k : K} (hs : Silent next k evs) {h : H} (hP : P h) : Along (next k) P h evs := by
  induction evs with
  | nil => trivial
  | cons e evs ih =>
    rw [Along, hs e List.mem_cons_self h]
    exact ⟨hP, ih fun e' he' => hs e' (.tail _ he')⟩

theorem Always.now (ha : Always next start P log) (k : K) : P (view next start log k) := ha log (List.prefix_refl _) k

theorem Always.append (ha : Always next start P log)
    (hevs : ∀ k, Along (next k) P (view next start log k) evs) : Always next start P (log ++ evs) := by
  induction evs generalizing log with
  | nil => simpa using ha
  | cons e evs ih =>
    rw [List.append_cons]
    refine ih ?_ fun k => by rw [view_append]; exact (hevs k).2
    intro past hpast k
    rcases List.prefix_concat_iff.mp hpast with rfl | hpast
    · rw [view_append]
      exact (hevs k).1
    · exact ha past hpast k

theorem Always.append_for (ha : Always next start P log) (k : K) (hothers : ∀ j, j ≠ k → Silent next j evs)
    (hevs : Along (next k) P (view next start log k) evs) : Always next start P (log ++ evs) := by
  refine ha.append fun j => ?_
  by_cases hj : j = k
  · rw [hj]
    exact hevs
  · exact (hothers j hj).along (ha.now j)

end EnclaveOs.Lib
