import EnclaveOs.Lib.Runs
import EnclaveOs.Merkle.Store

/-!
# The store: commits (`tree.rs`)

A batch is folded into a `CommitAcc` first, then written at once.
-/

open EnclaveOs.Lib

namespace EnclaveOs.Merkle

abbrev Update := Hash × Option Hash

abbrev Pair := Hash × Hash × UInt64

structure CommitAcc where
  new_version : UInt64
  pending : Std.TreeMap NodeKey Node := {}
  /-- The keys of the records that this commit supersedes. -/
  stale : List Bytes := []
  insert_cts : Std.TreeMap Hash Bytes := {}
  values : Std.TreeMap Hash Bytes := {}

def CommitAcc.pushStale (acc : CommitAcc) (nk : NodeKey) : CommitAcc :=
  { acc with stale := acc.stale ++ [node_record_key nk] }

def CommitAcc.unpend (acc : CommitAcc) (nk : NodeKey) : CommitAcc := { acc with pending := acc.pending.erase nk }

/-- A nonce for each value, by its path, and one for the checkpoint. -/
structure Entropy where
  value : Hash → Option Nonce
  checkpoint : Option Nonce

def nibbleGroups {α : Type} (depth : Nat) (l : List (Hash × α)) : List (Nibble × List (Hash × α)) :=
  runs (fun a => nibble a.1 depth) l

namespace MerkleStore

section

variable [Crypto]

/-- A value that is new in this commit goes with its leaf. -/
def put_leaf (acc : CommitAcc) (pfx : List Nibble) (leaf : LeafNode) : Except Fault (Child × CommitAcc) := do
  let values ←
    if leaf.value_version = acc.new_version ∧ !acc.values.contains leaf.vh then
      match acc.insert_cts[leaf.path]? with
      | none => throw (.err (.corrupted "internal: landed insert without ciphertext"))
      | some ct => pure (acc.values.insert leaf.vh ct)
    else pure acc.values
  let node := Node.leaf leaf
  pure (⟨acc.new_version, node.hash, true⟩,
    { acc with values, pending := acc.pending.insert ⟨acc.new_version, pfx⟩ node })

def putInternal (acc : CommitAcc) (pfx : List Nibble) (children : Nibble → Option Child) : Child × CommitAcc :=
  let node := Node.internal ⟨children⟩
  (⟨acc.new_version, node.hash, false⟩, { acc with pending := acc.pending.insert ⟨acc.new_version, pfx⟩ node })

def buildGroup (build : CommitAcc → List Nibble → List Pair → Except Fault (Option Child × CommitAcc))
    (pfx : List Nibble) (st : (Nibble → Option Child) × CommitAcc) (g : Nibble × List Pair) :
    Except Fault ((Nibble → Option Child) × CommitAcc) := do
  let (c, acc) ← build st.2 (pfx ++ [g.1]) g.2
  pure (Function.update st.1 g.1 c, acc)

def build_from_pairs : Nat → CommitAcc → List Nibble → List Pair → Except Fault (Option Child × CommitAcc)
  | _, acc, _, [] => pure (none, acc)
  | _, acc, pfx, [(path, vh, value_version)] => do
    let (c, acc) ← put_leaf acc pfx ⟨path, vh, value_version⟩
    pure (some c, acc)
  | 0, _, _, _ :: _ :: _ => throw .panic
  | rem + 1, acc, pfx, p :: q :: rest => do
    let (children, acc) ← (nibbleGroups pfx.length (p :: q :: rest)).foldlM
      (buildGroup (build_from_pairs rem) pfx) (fun _ => none, acc)
    let (c, acc) := putInternal acc pfx children
    pure (some c, acc)

def inserts (new_version : UInt64) (updates : List Update) : List Pair :=
  updates.filterMap fun u => u.2.map fun h => (u.1, h, new_version)

def mergeUpdate (new_version : UInt64) (leaf : LeafNode) (merged : Std.TreeMap Hash (Hash × UInt64))
    (u : Update) : Std.TreeMap Hash (Hash × UInt64) :=
  match u with
  | (p, some h) =>
    let value_version := if p = leaf.path ∧ h = leaf.vh then leaf.value_version else new_version
    merged.insert p (h, value_version)
  | (p, none) => merged.erase p

def mergeLeaf (new_version : UInt64) (leaf : LeafNode) (updates : List Update) : Std.TreeMap Hash (Hash × UInt64) :=
  updates.foldl (mergeUpdate new_version leaf)
    (Std.TreeMap.insert {} leaf.path (leaf.vh, leaf.value_version))

def leafStale (leaf : LeafNode) (merged : Std.TreeMap Hash (Hash × UInt64)) : List Bytes :=
  let key := value_record_key leaf.vh leaf.value_version
  match merged[leaf.path]? with
  | some (vh, _) => if vh = leaf.vh then [] else [key]
  | none => [key]

def applyLeaf (rem : Nat) (acc : CommitAcc) (old_child : Child) (nk : NodeKey) (leaf : LeafNode)
    (pfx : List Nibble) (updates : List Update) : Except Fault (Option Child × CommitAcc) :=
  let merged := mergeLeaf acc.new_version leaf updates
  if merged.size = 1 ∧ merged[leaf.path]? = some (leaf.vh, leaf.value_version) then
    pure (some old_child, acc)
  else
    let stale := acc.stale ++ node_record_key nk :: leafStale leaf merged
    build_from_pairs rem { acc with stale } pfx merged.toList

end

variable {B : Type} [KvBackend B] [Crypto]

/-! ## Folding updates into the tree -/

/-- A leaf of this commit leaves the pending set, a stored one becomes stale. -/
def take_leaf (acc : CommitAcc) (child : Child) (pfx : List Nibble) : StoreM B (LeafNode × CommitAcc) :=
  let nk : NodeKey := ⟨child.version, pfx⟩
  if child.version = acc.new_version then
    match acc.pending[nk]? with
    | some (.leaf leaf) => pure (leaf, acc.unpend nk)
    | other => fail (.corrupted ("pending leaf " ++ nk.debug ++ " missing or wrong kind (" ++
        debugOption Node.debug other ++ ")"))
  else do
    match ← load_node nk child.hash with
    | .leaf leaf => pure (leaf, acc.pushStale nk)
    | .internal _ => fail (kindMismatch nk)

def finishInternal (acc : CommitAcc) (nk : NodeKey) (pfx : List Nibble) (children : Nibble → Option Child) :
    StoreM B (Option Child × CommitAcc) :=
  let acc := acc.pushStale nk
  match presentSlots children 0 16 with
  | [] => pure (none, acc)
  | (nib, only) :: rest =>
    if rest.isEmpty ∧ only.is_leaf then do
      let (leaf, acc) ← take_leaf acc only (pfx ++ [nib])
      let (c, acc) ← Method.ofExcept (put_leaf acc pfx leaf)
      pure (some c, acc)
    else
      let (c, acc) := putInternal acc pfx children
      pure (some c, acc)

def applyGroup (apply : CommitAcc → Option Child → List Nibble → List Update → StoreM B (Option Child × CommitAcc))
    (pfx : List Nibble) (st : (Nibble → Option Child) × Bool × CommitAcc) (g : Nibble × List Update) :
    StoreM B ((Nibble → Option Child) × Bool × CommitAcc) := do
  let (children, changed, acc) := st
  let (new_child, acc) ← apply acc (children g.1) (pfx ++ [g.1]) g.2
  if new_child ≠ children g.1 then pure (Function.update children g.1 new_child, true, acc)
  else pure (children, changed, acc)

def apply_subtree : Nat → CommitAcc → Option Child → List Nibble → List Update → StoreM B (Option Child × CommitAcc)
  | rem, acc, old, pfx, updates =>
    if updates.isEmpty then pure (old, acc)
    else
      match old with
      | none =>
        .ofExcept (build_from_pairs rem acc pfx (inserts acc.new_version updates))
      | some old_child => do
        let nk : NodeKey := ⟨old_child.version, pfx⟩
        let node ← load_node nk old_child.hash
        if node.is_leaf ≠ old_child.is_leaf then fail (kindMismatch nk)
        else
          match node with
          | .leaf leaf => .ofExcept (applyLeaf rem acc old_child nk leaf pfx updates)
          | .internal internal =>
            match rem with
            | 0 => throw .panic
            | rem + 1 => do
              let (children, changed, acc) ← (nibbleGroups pfx.length updates).foldlM
                (applyGroup (apply_subtree rem) pfx) (internal.children, false, acc)
              if !changed then pure (some old_child, acc)
              else finishInternal acc nk pfx children

def nextVersion : StoreM B UInt64 := do
  let s ← Method.state
  if s.version.toNat + 1 < 2 ^ 64 then pure (s.version + 1) else throw .panic

def prepare (ck : Key) (cipher : AeadCipher) (entropy : Entropy) (st : CommitAcc × List Update)
    (op : Hash × Option Bytes) : Except Fault (CommitAcc × List Update) :=
  match op with
  | (path, some pt) =>
    match cipher.encrypt (entropy.value path) pt (value_aad path) with
    | .error e => throw (.err (.corrupted ("encrypt: " ++ e)))
    | .ok ct =>
      pure ({ st.1 with insert_cts := st.1.insert_cts.insert path ct }, st.2 ++ [(path, some (vh_of ck path pt))])
  | (path, none) => pure (st.1, st.2 ++ [(path, none)])

section

variable (entropy : Entropy)

/-- What both batches share. None when nothing changes. -/
def computeByPath (new_version : UInt64) (deduped : Std.TreeMap Hash (Option Bytes)) :
    StoreM B (Option (CommitAcc × Option Child × Hash)) := do
  let s ← Method.state
  let (acc, updates) ← Method.ofExcept
    (deduped.toList.foldlM (prepare s.ck s.cipher entropy) (({ new_version } : CommitAcc), []))
  let (new_root_child, acc) ← apply_subtree NIBBLES acc s.root_child [] updates
  if new_root_child = s.root_child then pure none
  else
    let new_root := match new_root_child with
      | some c => c.hash
      | none => placeholder
    pure (some (acc, new_root_child, new_root))

def compute_batch (ops : List (Bytes × Option Bytes)) : StoreM B (Option (CommitAcc × Option Child × Hash)) := do
  let new_version ← nextVersion
  let s ← Method.state
  let deduped := ops.foldl (fun m op => m.insert (path_of s.ck op.1) op.2)
    ({} : Std.TreeMap Hash (Option Bytes))
  if deduped.isEmpty then pure none else computeByPath entropy new_version deduped

def encryptCheckpoint (cipher : AeadCipher) (draw : Option Nonce) (root : Hash) (version : UInt64) :
    Except Fault Bytes :=
  match cipher.encrypt draw (root.toList ++ u64Be version) CHECKPOINT_AAD with
  | .error e => throw (.err (.corrupted ("checkpoint encrypt: " ++ e)))
  | .ok ct => pure ct

def commitOps (acc : CommitAcc) (new_root : Hash) : List KvBatchOp :=
  acc.pending.toList.map (fun e => .put (node_record_key e.1) e.2.encode) ++
  acc.values.toList.map (fun e => .put (value_record_key e.1 acc.new_version) e.2) ++
  acc.stale.map (fun target => .put (stale_record_key acc.new_version target) []) ++
  [.put (root_record_key acc.new_version) new_root.toList]

def commit_acc (acc : CommitAcc) (new_root_child : Option Child) (new_root : Hash) : StoreM B (Hash × UInt64) := do
  let s ← Method.state
  let ckpt ← Method.ofExcept (encryptCheckpoint s.cipher entropy.checkpoint new_root acc.new_version)
  backendWriteBatch (commitOps acc new_root ++ [.put checkpoint_record_key ckpt])
  Method.update fun s => { s with
    cache := acc.pending.toList.foldl (fun c e => c.put e.1 e.2) s.cache
    root := new_root
    version := acc.new_version
    root_child := new_root_child }
  pure (new_root, acc.new_version)

def put_batch (ops : List (Bytes × Option Bytes)) : StoreM B (Hash × UInt64) := do
  match ← compute_batch entropy ops with
  | none =>
    let s ← Method.state
    pure (s.root, s.version)
  | some (acc, new_root_child, new_root) => commit_acc entropy acc new_root_child new_root

def preview_batch (ops : List (Bytes × Option Bytes)) : StoreM B (Hash × UInt64) := do
  match ← compute_batch entropy ops with
  | none =>
    let s ← Method.state
    pure (s.root, s.version)
  | some (_, _, new_root) =>
    let version ← nextVersion
    pure (new_root, version)

def put_batch_by_path (ops : List (Hash × Bytes)) : StoreM B (Hash × UInt64) := do
  let deduped := ops.foldl (fun m op => m.insert op.1 (some op.2))
    ({} : Std.TreeMap Hash (Option Bytes))
  let s ← Method.state
  if deduped.isEmpty then pure (s.root, s.version)
  else do
    let new_version ← nextVersion
    match ← computeByPath entropy new_version deduped with
    | none =>
      let s ← Method.state
      pure (s.root, s.version)
    | some (acc, new_root_child, new_root) => commit_acc entropy acc new_root_child new_root

end

end MerkleStore

end EnclaveOs.Merkle
