import EnclaveOs.Lib.Bytes

/-! # Listing and scanning a table (`kvstore/storage.rs`) -/

namespace EnclaveOs.Storage

open Lib

abbrev Entry := Bytes × Bytes

/-- A column family as the database iterates it. -/
structure ColumnFamily where
  entries : List Entry
  ascending : entries.Pairwise fun a b => a.1 < b.1

inductive IteratorMode
  | start
  | from (key : Bytes)

def iterator_cf (cf : ColumnFamily) : IteratorMode → List Entry
  | .start => cf.entries
  | .from key => cf.entries.filter fun e => key ≤ e.1

section

variable {α : Type} (limit : Nat) (keep past : Entry → Bool) (f : Entry → α)

/-- Both loops push an entry first and then look at the limit; at an entry `past` the last they can keep they stop. -/
def collect : List α → List Entry → List α
  | out, [] => out
  | out, e :: rest =>
    if keep e then
      if limit ≤ (out ++ [f e]).length then out ++ [f e] else collect (out ++ [f e]) rest
    else if past e then out
    else collect out rest

theorem collect_eq {l : List Entry} (h : l.Pairwise fun a b => past a → ¬ keep a → ¬ keep b) (out : List α)
    (hout : out.length < max limit 1) :
    collect limit keep past f out l = out ++ ((l.filter keep).map f).take (max limit 1 - out.length) := by
  induction l generalizing out with
  | nil => simp [collect]
  | cons e l ih =>
    obtain ⟨hpast, hl⟩ := List.pairwise_cons.mp h
    rw [collect]
    split
    · rename_i hkeep
      rw [List.filter_cons_of_pos hkeep, List.map_cons, List.length_append, List.length_singleton]
      split
      · rw [show max limit 1 - out.length = 1 by omega]
        rfl
      · rw [ih hl _ (by simp; omega), List.append_assoc, List.length_append, List.length_singleton,
          show max limit 1 - out.length = max limit 1 - (out.length + 1) + 1 by omega]
        rfl
    · rename_i hkeep
      rw [List.filter_cons_of_neg hkeep]
      split
      · rename_i hstop
        have hnone : l.filter keep = [] := List.filter_eq_nil_iff.mpr fun e' he' => hpast e' he' hstop hkeep
        simp [hnone]
      · exact ih hl out hout

end

def DEFAULT_SCAN_LIMIT : Nat := 10000

def scan (cf : ColumnFamily) (start stop : Bytes) (limit : Nat) : List Entry :=
  collect (if limit = 0 then DEFAULT_SCAN_LIMIT else limit) (fun e => ¬ (stop ≠ [] ∧ stop ≤ e.1)) (fun _ => true) id []
    (iterator_cf cf (if start = [] then .start else .from start))

def list_keys (cf : ColumnFamily) (pfx : Bytes) (limit : Nat) : List Bytes :=
  collect limit (fun e => pfx = [] ∨ pfx <+: e.1) (fun e => pfx ≠ [] ∧ pfx < e.1) Prod.fst [] (iterator_cf cf .start)

theorem append_lt {pfx k : Bytes} (hlt : pfx < k) (hpfx : ¬ pfx <+: k) (s : Bytes) : pfx ++ s < k := by
  induction pfx generalizing k with
  | nil => exact absurd List.nil_prefix hpfx
  | cons a pfx ih =>
    cases k with
    | nil => cases hlt
    | cons b k =>
      rw [List.cons_append]
      rw [List.cons_lt_cons_iff] at hlt ⊢
      rw [List.cons_prefix_cons] at hpfx
      exact hlt.imp_right fun h => ⟨h.1, ih h.2 fun hp => hpfx ⟨h.1, hp⟩⟩

theorem list_keys_eq (cf : ColumnFamily) (pfx : Bytes) (limit : Nat) :
    list_keys cf pfx limit = ((cf.entries.map Prod.fst).filter fun k => pfx <+: k).take (max limit 1) := by
  rw [list_keys, collect_eq]
  · simp +contextual [iterator_cf, List.filter_map, Function.comp_def, or_iff_right_of_imp]
  · refine cf.ascending.imp fun {a b} hab => ?_
    simp only [decide_eq_true_eq, not_or]
    rintro ⟨-, hlt⟩ ⟨hne, ha⟩
    refine ⟨hne, fun ⟨s, hs⟩ => ?_⟩
    rw [← hs] at hab
    exact List.lt_asymm hab (append_lt hlt ha s)
  · simp

theorem scan_eq (cf : ColumnFamily) (start stop : Bytes) (limit : Nat) :
    scan cf start stop limit = (cf.entries.filter fun e => start ≤ e.1 ∧ (stop = [] ∨ e.1 < stop)).take
      (if limit = 0 then DEFAULT_SCAN_LIMIT else limit) := by
  have hiter : iterator_cf cf (if start = [] then .start else .from start) = cf.entries.filter fun e => start ≤ e.1 := by
    split
    · rename_i hstart
      simp [iterator_cf, hstart]
    · rfl
  rw [scan, hiter, collect_eq]
  · have hlimit : max (if limit = 0 then DEFAULT_SCAN_LIMIT else limit) 1 =
        if limit = 0 then DEFAULT_SCAN_LIMIT else limit := by
      split
      · rfl
      · omega
    simp [List.filter_filter, hlimit, imp_iff_or_not, Bool.and_comm, Bool.or_comm]
  · refine (cf.ascending.filter _).imp fun {a b} hab => ?_
    simp only [decide_eq_true_eq, not_not]
    exact fun _ ha => ⟨ha.1, List.le_trans ha.2 (List.le_of_lt hab)⟩
  · simp

/-- With the limit 0 the first key is listed all the same. -/
theorem listing_iff (cf : ColumnFamily) (pfx start stop : Bytes) (limit : Nat) :
    (list_keys cf pfx limit = ((cf.entries.map Prod.fst).filter fun k => pfx <+: k).take limit ↔
      limit ≠ 0 ∨ ∀ k ∈ cf.entries.map Prod.fst, ¬ pfx <+: k) ∧
    scan cf start stop limit = (cf.entries.filter fun e => start ≤ e.1 ∧ (stop = [] ∨ e.1 < stop)).take
      (if limit = 0 then DEFAULT_SCAN_LIMIT else limit) := by
  refine ⟨?_, scan_eq cf start stop limit⟩
  rw [list_keys_eq]
  cases limit with
  | zero => simp [List.take_one]
  | succ limit => simp

def two_keys : ColumnFamily := ⟨[([1], []), ([2], [])], by decide⟩

theorem key_listed_beyond_limit : list_keys two_keys [] 0 = [[1]] ∧
    ((two_keys.entries.map Prod.fst).filter fun k => [] <+: k).take 0 = [] := by decide

end EnclaveOs.Storage
