import Mathlib

/-! # Runs of equal keys -/

namespace EnclaveOs.Lib

variable {α κ : Type}

def runs [DecidableEq κ] (key : α → κ) : List α → List (κ × List α)
  | [] => []
  | a :: l =>
    match runs key l with
    | [] => [(key a, [a])]
    | (k, run) :: rest => if key a = k then (k, a :: run) :: rest else (key a, [a]) :: (k, run) :: rest

theorem exists_run [DecidableEq κ] (key : α → κ) {l : List α} {a : α} (ha : a ∈ l) :
    ∃ run, (key a, run) ∈ runs key l := by
  induction l with
  | nil => simp at ha
  | cons b l ih =>
    unfold runs
    rcases List.mem_cons.mp ha with rfl | hl
    · split
      · exact ⟨_, List.mem_singleton_self _⟩
      · split
        · rename_i hk
          exact ⟨_, by rw [hk]; exact .head _⟩
        · exact ⟨_, .head _⟩
    · obtain ⟨run, hrun⟩ := ih hl
      split
      · rename_i hnil
        simp [hnil] at hrun
      rename_i k run' rest hcons
      rw [hcons] at hrun
      split
      · rcases List.mem_cons.mp hrun with heq | hin
        · exact ⟨b :: run', by simp only [Prod.mk.injEq] at heq; rw [heq.1]; exact .head _⟩
        · exact ⟨run, .tail _ hin⟩
      · exact ⟨run, .tail _ hrun⟩

section Sorted

variable [LinearOrder κ] [DecidableEq κ] {key : α → κ}

/-- Where the keys never fall, a run is all of the items with its key. -/
theorem runs_of_sorted (l : List α) (hs : l.Pairwise fun a b => key a ≤ key b) :
    (runs key l).Pairwise (fun x y => x.1 < y.1) ∧
      ∀ k run, (k, run) ∈ runs key l → run = l.filter (fun a => key a = k) ∧ run ≠ [] := by
  induction l with
  | nil => simp [runs]
  | cons a l ih =>
    obtain ⟨ha, hl⟩ := List.pairwise_cons.mp hs
    obtain ⟨hpair, hmem⟩ := ih hl
    unfold runs
    split
    · rename_i hnil
      have hempty : l = [] := by
        rcases l with _ | ⟨b, l⟩
        · rfl
        · obtain ⟨run, hrun⟩ := exists_run key (List.mem_cons_self (a := b) (l := l))
          simp [hnil] at hrun
      subst hempty
      simp
    · rename_i k run rest hcons
      rw [hcons] at hpair hmem
      obtain ⟨hk, hrest⟩ := List.pairwise_cons.mp hpair
      obtain ⟨hrun, hne⟩ := hmem k run (.head _)
      -- The first run has an item of `l`, so its key is not below `key a`.
      have hle : key a ≤ k := by
        obtain ⟨b, hb⟩ := List.exists_mem_of_ne_nil run hne
        rw [hrun, List.mem_filter] at hb
        rw [← of_decide_eq_true hb.2]
        exact ha b hb.1
      split
      · rename_i hak
        refine ⟨List.pairwise_cons.mpr ⟨hk, hrest⟩, fun k' run' h => ?_⟩
        rcases List.mem_cons.mp h with heq | hin
        · simp only [Prod.mk.injEq] at heq
          obtain ⟨rfl, rfl⟩ := heq
          rw [List.filter_cons_of_pos (by simp [hak]), ← hrun]
          exact ⟨rfl, by simp⟩
        · have hlt : key a < k' := lt_of_le_of_lt hle (hk _ hin)
          rw [List.filter_cons_of_neg (by simpa using ne_of_lt hlt)]
          exact hmem k' run' (.tail _ hin)
      · rename_i hak
        have hlt : key a < k := lt_of_le_of_ne hle hak
        have hall : ∀ x ∈ (k, run) :: rest, key a < x.1 := by
          intro x hx
          rcases List.mem_cons.mp hx with rfl | hin
          · exact hlt
          · exact lt_trans hlt (hk x hin)
        refine ⟨List.pairwise_cons.mpr ⟨hall, hpair⟩, fun k' run' h => ?_⟩
        rcases List.mem_cons.mp h with heq | hin
        · simp only [Prod.mk.injEq] at heq
          obtain ⟨rfl, rfl⟩ := heq
          have hnone : l.filter (fun b => decide (key b = key a)) = [] := by
            rw [List.filter_eq_nil_iff]
            intro b hb hkey
            obtain ⟨run', hrun'⟩ := exists_run key hb
            rw [hcons] at hrun'
            have := hall _ hrun'
            simp [of_decide_eq_true hkey] at this
          rw [List.filter_cons_of_pos (by simp), hnone]
          exact ⟨rfl, by simp⟩
        · have hlt' := hall _ hin
          rw [List.filter_cons_of_neg (by simpa using ne_of_lt hlt')]
          exact hmem k' run' hin

end Sorted

end EnclaveOs.Lib
