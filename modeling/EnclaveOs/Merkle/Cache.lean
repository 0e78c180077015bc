import EnclaveOs.Merkle.Node

/-!
# The node cache (`cache.rs`)

A reader of the store sees only `lookup`: what the cache holds, without the order of use.
-/

namespace EnclaveOs.Merkle

abbrev CacheMap := Std.TreeMap NodeKey (Node × Nat)

structure NodeCache where
  capacity : Nat
  tick : Nat
  map : CacheMap
  size_le : map.size ≤ capacity

namespace NodeCache

def new (capacity : Nat) : NodeCache := ⟨capacity, 0, {}, by simp⟩

def get (c : NodeCache) (key : NodeKey) : Option Node × NodeCache :=
  let tick := c.tick + 1
  (c.map[key]?.map Prod.fst,
    ⟨c.capacity, tick, c.map.modify key fun e => (e.1, tick), by
      rw [Std.TreeMap.size_modify]; exact c.size_le⟩)

/-- A full map loses its least recently used entry. -/
def evict (map : CacheMap) (capacity : Nat) (key : NodeKey) : CacheMap :=
  if map.size ≥ capacity ∧ !map.contains key then
    match map.toList.argmin fun e => e.2.2 with
    | some oldest => map.erase oldest.1
    | none => map
  else map

variable {key : NodeKey} {c : NodeCache} {n : Node}

theorem size_evict_insert {map : CacheMap} {capacity : Nat} (e : Node × Nat)
    (hcap : capacity ≠ 0) (h : map.size ≤ capacity) :
    ((evict map capacity key).insert key e).size ≤ capacity := by
  unfold evict
  rcases hc : map.contains key with _ | _
  · by_cases hfull : map.size ≥ capacity
    · rw [if_pos ⟨hfull, rfl⟩]
      split
      · rename_i oldest ho
        have hmem : map.contains oldest.1 = true := by
          have hin := List.argmin_mem (Option.mem_def.mpr ho)
          rw [Std.TreeMap.contains_eq_isSome_getElem?, Std.TreeMap.mem_toList_iff_getElem?_eq_some.mp hin]
          rfl
        have hsize := Std.TreeMap.size_insert_le (t := map.erase oldest.1) (k := key) (v := e)
        have herase := Std.TreeMap.size_erase (t := map) (k := oldest.1)
        rw [hmem, if_pos rfl] at herase
        omega
      · rename_i hnone
        rw [List.argmin_eq_none] at hnone
        have hzero : map.size = 0 := by rw [← Std.TreeMap.length_toList, hnone]; rfl
        omega
    · rw [if_neg (by simp [hfull])]
      have hsize := Std.TreeMap.size_insert_le (t := map) (k := key) (v := e)
      omega
  · rw [if_neg (by simp), Std.TreeMap.size_insert, hc, if_pos rfl]
    exact h

def put (c : NodeCache) (key : NodeKey) (node : Node) : NodeCache :=
  if h : c.capacity = 0 then c
  else
    let tick := c.tick + 1
    ⟨c.capacity, tick, (evict c.map c.capacity key).insert key (node, tick), size_evict_insert _ h c.size_le⟩

def clear (c : NodeCache) : NodeCache := { c with map := {}, size_le := by simp }

def set_capacity (c : NodeCache) (capacity : Nat) : NodeCache := { c with capacity, map := {}, size_le := by simp }

/-! ## What the cache holds -/

def lookup (c : NodeCache) (key : NodeKey) : Option Node := c.map[key]?.map Prod.fst

@[simp] theorem lookup_new (capacity : Nat) (key : NodeKey) : (new capacity).lookup key = none := by
  simp [lookup, new]

@[simp] theorem lookup_clear (c : NodeCache) (key : NodeKey) : c.clear.lookup key = none := by
  simp [lookup, clear]

@[simp] theorem lookup_set_capacity (c : NodeCache) (capacity : Nat) (key : NodeKey) :
    (c.set_capacity capacity).lookup key = none := by
  simp [lookup, set_capacity]

theorem lookup_off (h : c.capacity = 0) (key : NodeKey) : c.lookup key = none := by
  have hzero : c.map.size = 0 := by have := c.size_le; omega
  have hempty : c.map.isEmpty := by rw [Std.TreeMap.isEmpty_eq_size_eq_zero]; simp [hzero]
  simp [lookup, Std.TreeMap.getElem?_of_isEmpty hempty]

@[simp] theorem lookup_get (c : NodeCache) (key k : NodeKey) : (c.get key).2.lookup k = c.lookup k := by
  unfold get lookup
  simp only [Std.TreeMap.getElem?_modify]
  split
  · rename_i hk
    rw [Std.LawfulEqOrd.compare_eq_iff_eq] at hk
    subst hk
    rw [Option.map_map]
    rfl
  · rfl

theorem lookup_put_self {node : Node} (h : (c.put key node).lookup key = some n) : n = node := by
  unfold put at h
  split at h
  · rename_i hoff
    rw [lookup_off hoff] at h
    simp at h
  · simp only [lookup, Std.TreeMap.getElem?_insert_self, Option.map_some, Option.some.injEq] at h
    exact h.symm

theorem lookup_put_ne {k : NodeKey} {node : Node} (hk : k ≠ key)
    (h : (c.put key node).lookup k = some n) : c.lookup k = some n := by
  unfold put at h
  split at h
  · exact h
  have hne : ¬ compare key k = .eq := fun he => hk (Std.LawfulEqOrd.eq_of_compare he).symm
  simp only [lookup, Std.TreeMap.getElem?_insert, hne, if_false] at h
  unfold evict at h
  split at h
  · split at h
    · rw [Std.TreeMap.getElem?_erase] at h
      split at h
      · simp at h
      · exact h
    · exact h
  · exact h

theorem lookup_foldl_put {l : List (NodeKey × Node)} {k : NodeKey}
    (h : (l.foldl (fun c e => c.put e.1 e.2) c).lookup k = some n) :
    (k, n) ∈ l ∨ (∀ m, (k, m) ∉ l) ∧ c.lookup k = some n := by
  induction l generalizing c with
  | nil => exact .inr ⟨by simp, h⟩
  | cons x l ih =>
    rw [List.foldl_cons] at h
    rcases ih h with hin | ⟨hno, hput⟩
    · exact .inl (.tail _ hin)
    by_cases hk : k = x.1
    · subst hk
      rw [lookup_put_self hput]
      exact .inl (.head _)
    · refine .inr ⟨fun m hm => ?_, lookup_put_ne hk hput⟩
      rcases List.mem_cons.mp hm with rfl | hin
      · exact hk rfl
      · exact hno m hin

end NodeCache

end EnclaveOs.Merkle
