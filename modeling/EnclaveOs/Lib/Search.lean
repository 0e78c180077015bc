import EnclaveOs.Lib.Bytes

/-!
# Searching in byte strings

The first place of a pattern does not move when more bytes arrive.
-/

namespace EnclaveOs.Lib

def slice (l : Bytes) (a b : Nat) : Bytes := (l.drop a).take (b - a)

def position (pat : Bytes) : Bytes → Option Nat
  | [] => none
  | b :: rest => if pat <+: b :: rest then some 0 else (position pat rest).map (· + 1)

theorem position_fits {pat data : Bytes} {n : Nat} (h : position pat data = some n) :
    n + pat.length ≤ data.length := by
  induction data generalizing n with
  | nil => simp [position] at h
  | cons b rest ih =>
    rw [position] at h
    split at h
    · rename_i hpat
      cases h
      simpa using hpat.length_le
    · obtain ⟨m, hm, rfl⟩ := Option.map_eq_some_iff.mp h
      have := ih hm
      simp only [List.length_cons]
      omega

theorem position_append {pat data : Bytes} {n : Nat} (more : Bytes) (h : position pat data = some n) :
    position pat (data ++ more) = some n := by
  induction data generalizing n with
  | nil => simp [position] at h
  | cons b rest ih =>
    rw [position] at h
    rw [List.cons_append, position]
    split at h
    · rename_i hpat
      cases h
      have hyes : pat <+: b :: (rest ++ more) := hpat.trans (List.prefix_append (b :: rest) more)
      rw [if_pos hyes]
    rename_i hpat
    obtain ⟨m, hm, rfl⟩ := Option.map_eq_some_iff.mp h
    have hfits := position_fits hm
    have hno : ¬ pat <+: b :: (rest ++ more) := by
      intro hp
      refine hpat (List.prefix_of_prefix_length_le hp (List.prefix_append (b :: rest) more) ?_)
      simp only [List.length_cons]
      omega
    rw [if_neg hno, ih hm]
    rfl

/-- A pattern whose first place is within the first bytes is found there. -/
theorem position_of_append {pat data more : Bytes} {n : Nat} (h : position pat (data ++ more) = some n)
    (hfits : n + pat.length ≤ data.length) (hpat : pat ≠ []) : position pat data = some n := by
  have hpos := List.length_pos_iff.mpr hpat
  induction data generalizing n with
  | nil =>
    rw [List.length_nil] at hfits
    omega
  | cons b rest ih =>
    rw [List.cons_append, position] at h
    rw [List.length_cons] at hfits
    rw [position]
    split at h
    · rename_i hp
      cases h
      rw [if_pos (List.prefix_of_prefix_length_le hp (List.prefix_append (b :: rest) more) (by simpa using hfits))]
    · rename_i hp
      obtain ⟨m, hm, rfl⟩ := Option.map_eq_some_iff.mp h
      rw [if_neg fun hyes => hp (hyes.trans (List.prefix_append (b :: rest) more)), ih hm (by omega)]
      rfl

end EnclaveOs.Lib
