import EnclaveOs.Lib.Bytes

/-!
# Errors and storage (`error.rs`, `backend.rs`)

`AtomicBackend` and `HonestBackend` say what the trait promises: a batch lands whole or not at all, and with an
honest host it lands.
-/

open EnclaveOs.Lib

namespace EnclaveOs.Merkle

inductive MerkleError where
  | backend (code : Int32)
  | corrupted (message : String)
  | missing (message : String)
  | invalid (message : String)
  deriving DecidableEq

/-- An error, a panic (also of a `+` that overflows), or a loop for which the fuel ran out. -/
inductive Fault where
  | err (e : MerkleError)
  | panic
  | fuel
  deriving DecidableEq

inductive KvBatchOp where
  | put (key value : Bytes)
  | delete (key : Bytes)
  deriving DecidableEq

class KvBackend (B : Type) where
  get : B → Bytes → Except MerkleError (Option Bytes) × B
  write_batch : B → List KvBatchOp → Except MerkleError Unit × B
  /-- Start, end, limit. An empty end is no bound. -/
  scan : B → Bytes → Bytes → Nat → Except MerkleError (List (Bytes × Bytes)) × B

/-! ## What an honest host does -/

abbrev Table := Bytes → Option Bytes

def KvBatchOp.apply (t : Table) : KvBatchOp → Table
  | .put key value => Function.update t key (some value)
  | .delete key => Function.update t key none

def applyOps (ops : List KvBatchOp) (t : Table) : Table := ops.foldl KvBatchOp.apply t

/-- `l` is the range `[start, stop)` of the table, in ascending order. -/
def IsRange (t : Table) (start stop : Bytes) (l : List (Bytes × Bytes)) : Prop :=
  l.Pairwise (fun a b => compare a.1 b.1 = .lt) ∧
  ∀ k v, (k, v) ∈ l ↔ t k = some v ∧ compare start k ≠ .gt ∧ (stop = [] ∨ compare k stop = .lt)

def limited {α : Type} (limit : Nat) (l : List α) : List α := if limit = 0 then l else l.take limit

class AtomicBackend (B : Type) [KvBackend B] where
  table : B → Table
  get_spec : ∀ (b : B) (k : Bytes), (KvBackend.get b k).1 = .ok (table b k) ∧ table (KvBackend.get b k).2 = table b
  write_spec : ∀ (b : B) (ops : List KvBatchOp),
    (table (KvBackend.write_batch b ops).2 = applyOps ops (table b)) ∨
    (table (KvBackend.write_batch b ops).2 = table b ∧ (KvBackend.write_batch b ops).1 ≠ .ok ())
  scan_spec : ∀ (b : B) (start stop : Bytes) (limit : Nat), ∃ l, IsRange (table b) start stop l ∧
    (KvBackend.scan b start stop limit).1 = .ok (limited limit l) ∧
    table (KvBackend.scan b start stop limit).2 = table b

class HonestBackend (B : Type) [KvBackend B] extends AtomicBackend B where
  write_ok : ∀ (b : B) (ops : List KvBatchOp), (KvBackend.write_batch b ops).1 = .ok ()

theorem write_batch_table {B : Type} [KvBackend B] [HonestBackend B] (b : B) (ops : List KvBatchOp) :
    AtomicBackend.table (KvBackend.write_batch b ops).2 = applyOps ops (AtomicBackend.table b) := by
  rcases AtomicBackend.write_spec b ops with h | ⟨-, h⟩
  · exact h
  · exact absurd (HonestBackend.write_ok b ops) h

/-! ## A batch on the table -/

theorem applyOps_cons (op : KvBatchOp) (ops : List KvBatchOp) (t : Table) :
    applyOps (op :: ops) t = applyOps ops (op.apply t) := rfl

theorem applyOps_other (ops : List KvBatchOp) (t : Table) (k : Bytes)
    (hput : ∀ v, .put k v ∉ ops) (hdel : .delete k ∉ ops) : applyOps ops t k = t k := by
  induction ops generalizing t with
  | nil => rfl
  | cons op ops ih =>
    simp only [List.mem_cons, not_or] at hput hdel
    rw [applyOps_cons, ih _ (fun v => (hput v).2) hdel.2]
    cases op with
    | put key value =>
      have : k ≠ key := fun h => (hput value).1 (by rw [h])
      simp [KvBatchOp.apply, this]
    | delete key =>
      have : k ≠ key := fun h => hdel.1 (by rw [h])
      simp [KvBatchOp.apply, this]

theorem applyOps_put (ops : List KvBatchOp) (t : Table) (k v : Bytes) (hmem : .put k v ∈ ops)
    (huniq : ∀ v', .put k v' ∈ ops → v' = v) (hdel : .delete k ∉ ops) : applyOps ops t k = some v := by
  induction ops generalizing t with
  | nil => simp at hmem
  | cons op ops ih =>
    simp only [List.mem_cons, not_or] at hdel
    have hrest : ∀ v', .put k v' ∈ ops → v' = v := fun v' h => huniq v' (.tail _ h)
    by_cases h : KvBatchOp.put k v ∈ ops
    · exact ih _ h hrest hdel.2
    rcases List.mem_cons.mp hmem with heq | hin
    · subst heq
      have hno : ∀ v', .put k v' ∉ ops := fun v' hv' => h (hrest v' hv' ▸ hv')
      rw [applyOps_cons, applyOps_other _ _ _ hno hdel.2]
      simp [KvBatchOp.apply]
    · exact absurd hin h

theorem applyOps_deletes (ks : List Bytes) (t : Table) (k : Bytes) :
    applyOps (ks.map .delete) t k = if k ∈ ks then none else t k := by
  induction ks generalizing t with
  | nil => rfl
  | cons key ks ih =>
    rw [List.map_cons, applyOps_cons, ih]
    by_cases h : k ∈ ks
    · simp [h]
    · by_cases h' : k = key
      · simp [h', KvBatchOp.apply]
      · simp [h, h', KvBatchOp.apply]

/-! ## The in-memory backend -/

structure MemBackend where
  map : Std.TreeMap Bytes Bytes := {}
  reads : Nat := 0

instance : KvBackend MemBackend where
  get b key := (.ok b.map[key]?, { b with reads := b.reads + 1 })
  write_batch b ops :=
    (.ok (), { b with map := ops.foldl (fun map op =>
      match op with
      | .put key value => map.insert key value
      | .delete key => map.erase key) b.map })
  scan b start stop limit :=
    (.ok (limited limit ((b.map.toList.filter fun e => compare start e.1 != .gt).takeWhile fun e =>
      stop.isEmpty || compare e.1 stop == .lt)), b)

namespace MemBackend

def table (b : MemBackend) : Table := fun k => b.map[k]?

theorem table_write (map : Std.TreeMap Bytes Bytes) (reads : Nat) (ops : List KvBatchOp) :
    table ⟨ops.foldl (fun map op =>
      match op with
      | .put key value => map.insert key value
      | .delete key => map.erase key) map, reads⟩ = applyOps ops (table ⟨map, reads⟩) := by
  induction ops generalizing map with
  | nil => rfl
  | cons op ops ih =>
    rw [List.foldl_cons, ih, applyOps_cons]
    congr 1
    funext k
    cases op with
    | put key value =>
      simp only [table, KvBatchOp.apply, Std.TreeMap.getElem?_insert, Function.update_apply,
        Std.LawfulEqOrd.compare_eq_iff_eq, @eq_comm _ k]
    | delete key =>
      simp only [table, KvBatchOp.apply, Std.TreeMap.getElem?_erase, Function.update_apply,
        Std.LawfulEqOrd.compare_eq_iff_eq, @eq_comm _ k]

theorem mem_takeWhile_below (l : List (Bytes × Bytes)) (stop : Bytes)
    (hs : l.Pairwise (fun a b => compare a.1 b.1 = .lt)) (e : Bytes × Bytes) :
    (e ∈ l.takeWhile fun e => stop.isEmpty || compare e.1 stop == .lt) ↔
      e ∈ l ∧ (stop = [] ∨ compare e.1 stop = .lt) := by
  induction l with
  | nil => simp
  | cons x l ih =>
    rw [List.pairwise_cons] at hs
    rw [List.takeWhile_cons]
    split
    · rename_i hx
      simp only [List.mem_cons, ih hs.2]
      constructor
      · rintro (rfl | ⟨h, hb⟩)
        · refine ⟨.inl rfl, ?_⟩
          simpa using hx
        · exact ⟨.inr h, hb⟩
      · rintro ⟨rfl | h, hb⟩
        · exact .inl rfl
        · exact .inr ⟨h, hb⟩
    · rename_i hx
      simp only [Bool.or_eq_true, List.isEmpty_iff, beq_iff_eq, not_or] at hx
      simp only [List.not_mem_nil, List.mem_cons, false_iff, not_and, not_or]
      -- Nothing after `x` is below the bound either.
      rintro (rfl | h)
      · exact hx
      · exact ⟨hx.1, fun hlt => hx.2 (Std.TransCmp.lt_trans (hs.1 e h) hlt)⟩

end MemBackend

instance : HonestBackend MemBackend where
  table := MemBackend.table
  get_spec _ _ := ⟨rfl, rfl⟩
  write_spec b ops := .inl (MemBackend.table_write b.map b.reads ops)
  scan_spec b start stop _ := by
    have hs : (b.map.toList.filter fun e => compare start e.1 != .gt).Pairwise
        (fun a b => compare a.1 b.1 = .lt) := Std.TreeMap.ordered_keys_toList.filter _
    refine ⟨_, ⟨hs.sublist (List.takeWhile_sublist _), fun k v => ?_⟩, rfl, rfl⟩
    rw [MemBackend.mem_takeWhile_below _ _ hs]
    simp [MemBackend.table, and_assoc]
  write_ok _ _ := rfl

end EnclaveOs.Merkle
