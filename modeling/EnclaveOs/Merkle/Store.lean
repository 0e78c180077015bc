import EnclaveOs.Lib.Method
import EnclaveOs.Merkle.Cache
import EnclaveOs.Merkle.Proof

/-!
# The store: records and reads (`tree.rs`)

A failed call keeps what it did to the backend and to the cache.
-/

open EnclaveOs.Lib

namespace EnclaveOs.Merkle

def REC_NODE : UInt8 := 110
def REC_VALUE : UInt8 := 118
def REC_STALE : UInt8 := 115
def REC_ROOT : UInt8 := 114
def REC_CHECKPOINT : UInt8 := 99

def HMAC_TAG_PATH : Bytes := ascii "p"
def HMAC_TAG_VALUE : Bytes := ascii "v"
def VALUE_AAD_TAG : Bytes := ascii "enclave_os_merkle_val"
def CHECKPOINT_AAD : Bytes := ascii "enclave_os_merkle_ckpt"

def node_record_key (nk : NodeKey) : Bytes := REC_NODE :: nk.encode

def value_record_key (vh : Hash) (value_version : UInt64) : Bytes := REC_VALUE :: (vh.toList ++ u64Be value_version)

def stale_record_key (stale_since : UInt64) (target_record_key : Bytes) : Bytes :=
  REC_STALE :: (u64Be stale_since ++ target_record_key)

def root_record_key (version : UInt64) : Bytes := REC_ROOT :: u64Be version

def checkpoint_record_key : Bytes := [REC_CHECKPOINT]

/-- Records of two kinds have two keys. -/
theorem tag_ne {a b : UInt8} {k l : Bytes} (h : a :: k = b :: l) (hne : a ≠ b := by decide) : False :=
  hne (List.cons.inj h).1

def value_aad (path : Hash) : Bytes := VALUE_AAD_TAG ++ path.toList

structure MerkleStore (B : Type) where
  backend : B
  ck : Key
  cipher : AeadCipher
  root : Hash
  version : UInt64
  root_child : Option Child
  cache : NodeCache
  /-- A version that `prune` must keep. -/
  snapshot_pin : Option UInt64

def DEFAULT_CACHE_CAPACITY : Nat := 1024

abbrev StoreM (B : Type) (α : Type) : Type := Method (MerkleStore B) Fault α

variable {B : Type} [KvBackend B]

def onBackend {α : Type} (f : B → Except MerkleError α × B) : StoreM B α :=
  .of fun s => ((f s.backend).1.mapError .err, { s with backend := (f s.backend).2 })

def backendGet (key : Bytes) : StoreM B (Option Bytes) := onBackend fun b => KvBackend.get b key

def backendWriteBatch (ops : List KvBatchOp) : StoreM B Unit := onBackend fun b => KvBackend.write_batch b ops

def backendScan (start stop : Bytes) (limit : Nat) : StoreM B (List (Bytes × Bytes)) :=
  onBackend fun b => KvBackend.scan b start stop limit

def cacheGet (nk : NodeKey) : StoreM B (Option Node) :=
  .of fun s => (.ok (s.cache.get nk).1, { s with cache := (s.cache.get nk).2 })

def cachePut (nk : NodeKey) (node : Node) : StoreM B Unit := .update fun s => { s with cache := s.cache.put nk node }

def fail {α : Type} (e : MerkleError) : StoreM B α := throw (.err e)

namespace MerkleStore

def rootVersion (s : MerkleStore B) : Hash × UInt64 := (s.root, s.version)

def set_cache_capacity (capacity : Nat) : StoreM B Unit :=
  .update fun s => { s with cache := s.cache.set_capacity capacity }

def pin_version (version : Option UInt64) : StoreM B Unit := .update fun s => { s with snapshot_pin := version }

variable [Crypto]

def path_of (ck : Key) (key : Bytes) : Hash := Crypto.hmac ck (HMAC_TAG_PATH ++ key)

def vh_of (ck : Key) (path : Hash) (plaintext : Bytes) : Hash :=
  Crypto.hmac ck (HMAC_TAG_VALUE ++ path.toList ++ plaintext)

def hashMismatch (nk : NodeKey) : MerkleError := .corrupted ("node " ++ nk.debug ++ " hash mismatch")

def kindMismatch (nk : NodeKey) : MerkleError := .corrupted ("node " ++ nk.debug ++ " kind mismatch")

def load_node (nk : NodeKey) (expected_hash : Hash) : StoreM B Node := do
  match ← cacheGet nk with
  | some node => if node.hash ≠ expected_hash then fail (hashMismatch nk) else pure node
  | none =>
    match ← backendGet (node_record_key nk) with
    | none => fail (.missing ("node " ++ nk.debug))
    | some record =>
      match Node.decode record with
      | .error e => fail e
      | .ok node =>
        if node.hash ≠ expected_hash then fail (hashMismatch nk)
        else do
          cachePut nk node
          pure node

def load_root_record (version : UInt64) : StoreM B Hash := do
  match ← backendGet (root_record_key version) with
  | none => fail (.missing ("root record v" ++ toString version))
  | some rec =>
    if rec.length ≠ 32 then fail (.corrupted ("root record v" ++ toString version ++ " bad length"))
    else pure (toVec 32 rec)

def load_root_child (root : Hash) (version : UInt64) : StoreM B (Option Child) :=
  if root = placeholder then pure none
  else do
    let node ← load_node (.root version) root
    pure (some ⟨version, root, node.is_leaf⟩)

def read_value (path vh : Hash) (value_version : UInt64) : StoreM B Bytes := do
  match ← backendGet (value_record_key vh value_version) with
  | none => fail (.missing "value record")
  | some ct =>
    let s ← Method.state
    match s.cipher.decrypt ct (value_aad path) with
    | .error e => fail (.corrupted ("value decrypt: " ++ e))
    | .ok pt =>
      if vh_of s.ck path pt ≠ vh then fail (.corrupted "value commitment mismatch")
      else pure pt

/-- Past the last nibble `nibble` panics. -/
def walkFrom (path : Hash) : Nat → Child → List Nibble → StoreM B (Option Bytes)
  | rem, child, pfx => do
    let nk : NodeKey := ⟨child.version, pfx⟩
    let node ← load_node nk child.hash
    if node.is_leaf ≠ child.is_leaf then fail (kindMismatch nk)
    else
      match node with
      | .leaf leaf =>
        if leaf.path = path then do
          let value ← read_value path leaf.vh leaf.value_version
          pure (some value)
        else pure none
      | .internal internal =>
        match rem with
        | 0 => throw .panic
        | rem + 1 =>
          let nib := nibble path pfx.length
          match internal.children nib with
          | none => pure none
          | some c => walkFrom path rem c (pfx ++ [nib])

def walk (root_child : Option Child) (path : Hash) : StoreM B (Option Bytes) :=
  match root_child with
  | none => pure none
  | some child => walkFrom path NIBBLES child []

def get (key : Bytes) : StoreM B (Option Bytes) := do
  let s ← Method.state
  walk s.root_child (path_of s.ck key)

def checkVersion (version : UInt64) : StoreM B Unit := do
  let s ← Method.state
  if version > s.version then
    fail (.invalid ("version " ++ toString version ++ " is in the future (current " ++ toString s.version ++ ")"))
  else pure ()

def root_at (version : UInt64) : StoreM B Hash := do
  checkVersion version
  load_root_record version

def get_at (version : UInt64) (key : Bytes) : StoreM B (Option Bytes) := do
  checkVersion version
  let root ← load_root_record version
  let root_child ← load_root_child root version
  let s ← Method.state
  walk root_child (path_of s.ck key)

end MerkleStore

end EnclaveOs.Merkle
