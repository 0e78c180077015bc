import Mathlib.Data.List.Sort

/-! # The first match in a sorted list -/

namespace EnclaveOs.Lib

variable {α : Type*} (r : α → α → Prop) [DecidableRel r] {p : α → Bool} {a : α}

/-- A match that no other match comes before. -/
def LeastMatch (p : α → Bool) (l : List α) (a : α) : Prop := a ∈ l ∧ p a = true ∧ ∀ b ∈ l, p b = true → r a b

omit [DecidableRel r] in
theorem LeastMatch.perm {l l' : List α} (h : l.Perm l') (ha : LeastMatch r p l a) : LeastMatch r p l' a := by
  obtain ⟨hmem, hp, hle⟩ := ha
  exact ⟨h.mem_iff.mp hmem, hp, fun b hb => hle b (h.mem_iff.mpr hb)⟩

variable [Std.Total r] [IsTrans α r] {l : List α}

theorem find?_insertionSort_least (h : (l.insertionSort r).find? p = some a) : LeastMatch r p l a := by
  have hperm := l.perm_insertionSort r
  refine LeastMatch.perm r hperm ?_
  obtain ⟨hp, before, after, hl, hno⟩ := List.find?_eq_some_iff_append.mp h
  have hsorted := l.pairwise_insertionSort r
  rw [hl] at hsorted ⊢
  refine ⟨by simp, hp, fun b hb hpb => ?_⟩
  rcases List.mem_append.mp hb with hb | hb
  · have := hno b hb
    simp [hpb] at this
  · rcases List.mem_cons.mp hb with rfl | hb
    · exact refl_of r b
    · exact List.rel_of_pairwise_cons (List.pairwise_append.mp hsorted).2.1 hb

omit [Std.Total r] [IsTrans α r] in
theorem find?_orderedInsert (hp : p a = true) (hle : ∀ b ∈ l, p b = true → r a b) :
    (l.orderedInsert r a).find? p = some a := by
  induction l with
  | nil => simp [hp]
  | cons b l ih =>
    rw [List.orderedInsert_cons]
    split
    · simp [hp]
    rename_i hab
    have hb : p b = false := by
      by_contra hb
      exact hab (hle b (.head _) (by simpa using hb))
    rw [List.find?_cons_of_neg (by simp [hb])]
    exact ih fun c hc => hle c (.tail b hc)

omit [Std.Total r] [IsTrans α r] in
theorem LeastMatch.find? [DecidableEq α] (h : LeastMatch r p l a) :
    ∃ l' : List α, l'.Perm l ∧ (l'.insertionSort r).find? p = some a := by
  obtain ⟨hmem, hp, hle⟩ := h
  refine ⟨a :: l.erase a, (List.perm_cons_erase hmem).symm, ?_⟩
  rw [List.insertionSort_cons]
  refine find?_orderedInsert r hp fun b hb hpb => hle b ?_ hpb
  rw [List.mem_insertionSort] at hb
  exact List.mem_of_mem_erase hb

/-- The verdict on the first match does not depend on the order exactly when the least matches agree. -/
theorem verdict_orderless_iff [DecidableEq α] (l : List α) (verdict : α → Prop) :
    (∀ l' : List α, l'.Perm l → ((∀ a, (l'.insertionSort r).find? p = some a → verdict a) ↔
        ∀ a, (l.insertionSort r).find? p = some a → verdict a)) ↔
      ∀ a b, LeastMatch r p l a → LeastMatch r p l b → (verdict a ↔ verdict b) := by
  constructor
  · intro hsame
    have hall : ∀ a, LeastMatch r p l a → (verdict a ↔ ∀ c, (l.insertionSort r).find? p = some c → verdict c) := by
      intro a ha
      obtain ⟨l', hperm, hfind⟩ := ha.find? r
      rw [← hsame l' hperm, hfind]
      simp
    intro a b ha hb
    rw [hall a ha, hall b hb]
  · intro hleast l' hperm
    rcases hf : (l.insertionSort r).find? p with _ | a
    · have hf' : (l'.insertionSort r).find? p = none := by
        simp only [List.find?_eq_none, List.mem_insertionSort] at hf ⊢
        exact fun x hx => hf x (hperm.mem_iff.mp hx)
      simp [hf']
    rcases hf' : (l'.insertionSort r).find? p with _ | b
    · simp only [List.find?_eq_none, List.mem_insertionSort] at hf'
      obtain ⟨hmem, hp, -⟩ := find?_insertionSort_least r hf
      exact absurd hp (hf' a (hperm.mem_iff.mpr hmem))
    · have hb := (find?_insertionSort_least r hf').perm r hperm
      simpa using hleast b a hb (find?_insertionSort_least r hf)

end EnclaveOs.Lib
