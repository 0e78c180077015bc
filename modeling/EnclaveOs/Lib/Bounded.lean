import Mathlib

/-! # Tables with a bound on their entries -/

namespace EnclaveOs.Lib.Bounded

variable {K V : Type} [DecidableEq K]

omit [DecidableEq K] in
def retain (keep : V → Bool) (t : AList fun _ : K => V) : AList fun _ : K => V :=
  ⟨t.entries.filter fun e => keep e.2, t.nodupKeys.sublist List.filter_sublist⟩

def offer (room : Nat) (live : V → Bool) (k : K) (v : V) (t : AList fun _ : K => V) : Bool × AList fun _ : K => V :=
  let t := if room ≤ t.entries.length then retain live t else t
  if room ≤ t.entries.length then (false, t) else (true, t.insert k v)

theorem lookup_retain (keep : V → Bool) (t : AList fun _ : K => V) (k : K) :
    (retain keep t).lookup k = (t.lookup k).filter keep := by
  refine Option.ext fun v => ?_
  have hnew := AList.mem_lookup_iff (a := k) (b := v) (s := retain keep t)
  have hold := AList.mem_lookup_iff (a := k) (b := v) (s := t)
  rw [Option.mem_def] at hnew hold
  rw [hnew, Option.filter_eq_some_iff, hold]
  exact List.mem_filter

/-- `t'` has nothing new, and what it misses had run out. -/
def Thins (live : V → Bool) (t t' : AList fun _ : K => V) : Prop :=
  ∀ k, t'.lookup k = t.lookup k ∨ t'.lookup k = none ∧ ∃ v, t.lookup k = some v ∧ live v = false

theorem Thins.refl (live : V → Bool) (t : AList fun _ : K => V) : Thins live t t := fun _ => .inl rfl

theorem Thins.old {live : V → Bool} {t t' : AList fun _ : K => V} (h : Thins live t t') {k : K} {v : V}
    (hk : t'.lookup k = some v) : t.lookup k = some v := by
  rcases h k with heq | ⟨hnone, _⟩
  · exact heq ▸ hk
  · rw [hnone] at hk
    cases hk

theorem Thins.stays {live : V → Bool} {t t' : AList fun _ : K => V} (h : Thins live t t') {k : K} {v : V}
    (hk : t.lookup k = some v) (hv : live v = true) : t'.lookup k = some v := by
  rcases h k with heq | ⟨_, u, hu, hdead⟩
  · exact heq.trans hk
  · rw [hk, Option.some.injEq] at hu
    rw [hu, hdead] at hv
    cases hv

theorem offer_spec (room : Nat) (live : V → Bool) (k : K) (v : V) (t : AList fun _ : K => V) :
    ∃ thin, Thins live t thin ∧
      (offer room live k v t = (false, thin) ∨ offer room live k v t = (true, thin.insert k v)) := by
  have hthin : Thins live t (if room ≤ t.entries.length then retain live t else t) := by
    split
    · intro k
      rw [lookup_retain]
      rcases h : t.lookup k with _ | v
      · exact .inl rfl
      by_cases hv : live v = true
      · exact .inl (by simp [hv])
      · exact .inr ⟨by simp [hv], v, rfl, by simpa using hv⟩
    · exact Thins.refl live t
  refine ⟨_, hthin, ?_⟩
  unfold offer
  generalize (if room ≤ t.entries.length then retain live t else t) = thin
  dsimp only
  split
  · exact .inl rfl
  · exact .inr rfl

end EnclaveOs.Lib.Bounded
