import EnclaveOs.Merkle.Store

/-! # The store: proofs and snapshot pages (`tree.rs`) -/

open EnclaveOs.Lib

namespace EnclaveOs.Merkle.MerkleStore

variable {B : Type} [KvBackend B] [Crypto]

inductive SlotEnd where
  | empty
  | leaf (idx : Nibble) (c : Child)
  | child (c : Child)

/-- The halving loop of `prove_path` over `2 ^ level` slots. -/
def descendSlots (children : Nibble → Option Child) (slot : Nibble) : Nat → Nat → List Hash → SlotEnd × List Hash
  | level, start, siblings =>
    match presentSlots children start (2 ^ level), level with
    | [], _ => (.empty, siblings)
    | [(idx, c)], 0 => if c.is_leaf then (.leaf idx c, siblings) else (.child c, siblings)
    -- One slot never holds two children.
    | _ :: _ :: _, 0 => (.empty, siblings)
    | (idx, c) :: rest, level + 1 =>
      if rest.isEmpty ∧ c.is_leaf then (.leaf idx c, siblings)
      else if slot.val < start + 2 ^ level then
        descendSlots children slot level start
          (siblings ++ [subtree_hash children (start + 2 ^ level) level])
      else
        descendSlots children slot level (start + 2 ^ level)
          (siblings ++ [subtree_hash children start level])

def provePathFrom (path : Hash) : Nat → Child → List Nibble → List Hash → StoreM B (Option LeafNode × List Hash)
  | rem, child, pfx, siblings => do
    let nk : NodeKey := ⟨child.version, pfx⟩
    let node ← load_node nk child.hash
    if node.is_leaf ≠ child.is_leaf then fail (kindMismatch nk)
    else
      match node with
      | .leaf leaf => pure (some leaf, siblings)
      | .internal internal =>
        match rem with
        | 0 => throw .panic
        | rem + 1 =>
          let slot := nibble path pfx.length
          match descendSlots internal.children slot 4 0 siblings with
          | (.empty, siblings) => pure (none, siblings)
          | (.leaf idx c, siblings) => do
            let lk : NodeKey := ⟨c.version, pfx ++ [idx]⟩
            match ← load_node lk c.hash with
            | .leaf leaf => pure (some leaf, siblings)
            | .internal _ => fail (kindMismatch lk)
          | (.child c, siblings) => provePathFrom path rem c (pfx ++ [slot]) siblings

def prove_path (root_child : Option Child) (path : Hash) : StoreM B Proof :=
  match root_child with
  | none => pure ⟨none, []⟩
  | some child => do
    let (leaf, siblings) ← provePathFrom path NIBBLES child [] []
    pure ⟨leaf.map fun l => (l.path, l.vh), siblings.reverse⟩

def prove (key : Bytes) : StoreM B Proof := do
  let s ← Method.state
  prove_path s.root_child (path_of s.ck key)

def prove_at (version : UInt64) (key : Bytes) : StoreM B Proof := do
  checkVersion version
  let root ← load_root_record version
  let root_child ← load_root_child root version
  let s ← Method.state
  prove_path root_child (path_of s.ck key)

/-- In slot order, until a child was not exhausted. -/
def collectChildren {α : Type} (visit : Child → List Nibble → Option Hash → α → StoreM B (Bool × α))
    (children : Nibble → Option Child) (pfx : List Nibble) (start_after : Option Hash)
    (resume_nib : Option Nibble) : List Nibble → α → StoreM B (Bool × α)
  | [], out => pure (true, out)
  | nib :: rest, out =>
    if resume_nib.any (nib < ·) then
      collectChildren visit children pfx start_after resume_nib rest out
    else
      match children nib with
      | none => collectChildren visit children pfx start_after resume_nib rest out
      | some c => do
        -- Only the child at the resume nibble keeps the bound.
        let sa := if resume_nib = some nib then start_after else none
        let (exhausted, out) ← visit c (pfx ++ [nib]) sa out
        if !exhausted then pure (false, out)
        else collectChildren visit children pfx start_after resume_nib rest out

/-- `fuel` bounds the depth: without `start_after` nothing looks at the length of the path. -/
def collect_leaves (max : Nat) : Nat → Child → List Nibble → Option Hash → List (Hash × Bytes) →
    StoreM B (Bool × List (Hash × Bytes))
  | 0, _, _, _, _ => throw .fuel
  | fuel + 1, child, pfx, start_after, out =>
    if out.length ≥ max then pure (false, out)
    else do
      let node ← load_node ⟨child.version, pfx⟩ child.hash
      match node with
      | .leaf leaf =>
        if start_after.any fun sa => compare leaf.path sa != .gt then pure (true, out)
        else do
          let value ← read_value leaf.path leaf.vh leaf.value_version
          pure (true, out ++ [(leaf.path, value)])
      | .internal internal =>
        if start_after.isSome ∧ pfx.length ≥ NIBBLES then throw .panic
        else
          collectChildren (collect_leaves max fuel) internal.children pfx start_after
            (start_after.map fun sa => nibble sa pfx.length) (List.finRange 16) out

def snapshot_leaves (fuel : Nat) (version : UInt64) (start_after : Option Hash) (max : Nat) :
    StoreM B (List (Hash × Bytes) × Bool) := do
  let root ← load_root_record version
  match ← load_root_child root version with
  | none => pure ([], true)
  | some child => do
    let (done, out) ← collect_leaves max fuel child [] start_after []
    pure (out, done)

end EnclaveOs.Merkle.MerkleStore
