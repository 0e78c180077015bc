import EnclaveOs.Merkle.Commit

/-!
# Creating, opening and restoring a store (`tree.rs`, `snapshot.rs`)

`open` is a word of Lean, so the method is `openAt` here.
-/

open EnclaveOs.Lib

namespace EnclaveOs.Merkle

namespace MerkleStore

variable {B : Type} [KvBackend B]

def construct (init : StoreM B Unit) (s : MerkleStore B) : Except Fault (MerkleStore B) :=
  match init.exec s with
  | (.ok _, s) => .ok s
  | (.error e, _) => .error e

def fresh (backend : B) (commitment_key storage_key : Key) (root : Hash) (version : UInt64) : MerkleStore B where
  backend
  ck := commitment_key
  cipher := .from_key storage_key
  root
  version
  root_child := none
  cache := .new DEFAULT_CACHE_CAPACITY
  snapshot_pin := none

variable [Crypto]

section

variable (backend : B) (commitment_key storage_key : Key)

def create (draw : Option Nonce) : Except Fault (MerkleStore B) :=
  construct (do
    let s ← Method.state
    let ckpt ← Method.ofExcept (encryptCheckpoint s.cipher draw placeholder 0)
    backendWriteBatch [.put (root_record_key 0) placeholder.toList, .put checkpoint_record_key ckpt])
    (fresh backend commitment_key storage_key placeholder 0)

def openAt (root : Hash) (version : UInt64) : Except Fault (MerkleStore B) :=
  construct (do
    let root_child ← load_root_child root version
    Method.update fun s => { s with root_child })
    (fresh backend commitment_key storage_key root version)

def decrypt_checkpoint (cipher : AeadCipher) (record : Bytes) : Except MerkleError (Hash × UInt64) :=
  match cipher.decrypt record CHECKPOINT_AAD with
  | .error e => throw (.corrupted ("checkpoint decrypt: " ++ e))
  | .ok payload =>
    if payload.length ≠ 32 + 8 then throw (.corrupted "checkpoint bad length")
    else pure (toVec 32 payload, u64OfBe (payload.drop 32))

def open_latest : Except Fault (MerkleStore B) :=
  match KvBackend.get backend checkpoint_record_key with
  | (.error e, _) => .error (.err e)
  | (.ok none, _) => .error (.err (.missing "checkpoint record"))
  | (.ok (some record), backend) =>
    match decrypt_checkpoint (.from_key storage_key) record with
    | .error e => .error (.err e)
    | .ok (root, version) => openAt backend commitment_key storage_key root version

def open_or_create (draw : Option Nonce) : Except Fault (MerkleStore B) :=
  match KvBackend.get backend checkpoint_record_key with
  | (.error e, _) => .error (.err e)
  | (.ok (some _), backend) => open_latest backend commitment_key storage_key
  | (.ok none, backend) => create backend commitment_key storage_key draw

end

/-- The root record, the checkpoint and the root node under the new version. -/
def stamp_version (draw : Option Nonce) (version : UInt64) : StoreM B Unit := do
  let s ← Method.state
  if version < s.version then
    fail (.invalid ("cannot stamp version " ++ toString version ++ " below current " ++ toString s.version))
  else do
    let ckpt ← Method.ofExcept (encryptCheckpoint s.cipher draw s.root version)
    let batch := [.put (root_record_key version) s.root.toList, .put checkpoint_record_key ckpt]
    let batch ← match s.root_child with
      | none => pure batch
      | some c => do
        let node ← load_node ⟨c.version, []⟩ c.hash
        Method.update fun s => { s with root_child := some ⟨version, c.hash, c.is_leaf⟩ }
        pure (batch ++ [.put (node_record_key ⟨version, []⟩) node.encode])
    backendWriteBatch batch
    Method.update fun s => { s with version }

end MerkleStore

/-! ## Restoring a snapshot -/

structure SnapshotBuilder (B : Type) where
  store : MerkleStore B
  leaves : List (Hash × Bytes)

namespace SnapshotBuilder

open MerkleStore

variable {B : Type} [KvBackend B]

def add_leaves (b : SnapshotBuilder B) (chunk : List (Hash × Bytes)) : SnapshotBuilder B :=
  { b with leaves := b.leaves ++ chunk }

def leaf_count (b : SnapshotBuilder B) : Nat := b.leaves.length

variable [Crypto]

def new (backend : B) (commitment_key storage_key : Key) (draw : Option Nonce) :
    Except Fault (SnapshotBuilder B) := do
  let store ← create backend commitment_key storage_key draw
  pure ⟨store, []⟩

/-- `draw` is for the checkpoint of the stamped version. -/
def finalize (entropy : Entropy) (draw : Option Nonce) (b : SnapshotBuilder B) (expected_root : Hash)
    (version : UInt64) : Except Fault (MerkleStore B) :=
  construct (do
    let (root, built_version) ← put_batch_by_path entropy b.leaves
    if root ≠ expected_root then
      fail (.corrupted "snapshot root mismatch: stream does not reproduce the advertised state")
    else if version < built_version then
      fail (.invalid ("snapshot version " ++ toString version ++ " below build version " ++ toString built_version))
    else stamp_version draw version)
    b.store

end SnapshotBuilder

end EnclaveOs.Merkle
