import EnclaveOs.Lib.Crash
import EnclaveOs.Merkle.Hash
import EnclaveOs.Wasm.VaultKey

/-!
# Vault-backed apps (`registry.rs`, `wasm_load`, `wasm_rotate_key`)

The data key of an app lies wrapped in the host's store, under the handle of its KEK.
-/

namespace EnclaveOs.Wasm.Registry

open Lib Lib.Prog

open Merkle (Key Nonce AeadCipher Crypto toVec)

def as_bytes (s : String) : Bytes := s.toUTF8.data.toList

structure AppMeta where
  encryption_key : Key
  key_source : String
  vault_config : Option VaultConfig
  vault_handle : Option String

structure VaultBacking where
  handle : String
  grant : String
  sealed : Option VaultConfig

/-- The ciphertext, and the text that went in or came out. -/
inductive Use
  | sealed (ct text : Bytes)
  | opened (ct text : Bytes)

structure Mem where
  vaults : String → Vaults
  wrapped : String → Option Bytes
  /-- The sealed metadata, and whether the sealed manifest names the app. -/
  app_meta : Option AppMeta
  manifest : Bool
  known : Option AppMeta
  uses : List Use

inductive Write
  | done
  | failed
  /-- It is written, but the reply is lost. -/
  | lost

structure World where
  net : Net
  directory : Except String VaultConfig
  read_error : Option String
  write : Write
  random : Option Key
  nonce : Option Nonce

inductive Op
  | vault (handle : String) (o : Wasm.Op)
  | discover
  | random
  | encrypt (c : AeadCipher) (plaintext aad : Bytes)
  | decrypt (c : AeadCipher) (ciphertext aad : Bytes)
  | get (handle : String)
  | put (handle : String) (blob : Bytes)
  | delete (handle : String)
  | known
  | insert_known (entry : Option AppMeta)
  | put_meta (entry : Option AppMeta)
  | put_manifest

@[reducible] def Ans : Op → Type
  | .vault _ o => Wasm.Ans o
  | .discover => Except String VaultConfig
  | .random => Option Key
  | .encrypt _ _ _ | .decrypt _ _ _ => Except String Bytes
  | .get _ => Except String (Option Bytes)
  | .put _ _ | .delete _ | .put_meta _ | .put_manifest => Except String Unit
  | .known => Option AppMeta
  | .insert_known _ => Unit

/-- A write to a store of the host, as `old` becomes `new`. -/
def Write.apply {α : Type} (old new : α) : Write → Except String Unit × α
  | .done => (.ok (), new)
  | .failed => (.error "", old)
  | .lost => (.error "", new)

section

variable [Crypto]

def respond : (o : Op) → World → Mem → Ans o × Mem
  | .vault handle o, w, m =>
    let r := Wasm.respond o w.net (m.vaults handle)
    (r.1, { m with vaults := Function.update m.vaults handle r.2 })
  | .discover, w, m => (w.directory, m)
  | .random, w, m => (w.random, m)
  | .encrypt c plaintext aad, w, m =>
    match c.encrypt w.nonce plaintext aad with
    | .ok ct => (.ok ct, { m with uses := .sealed ct plaintext :: m.uses })
    | .error e => (.error e, m)
  | .decrypt c ciphertext aad, _, m =>
    match c.decrypt ciphertext aad with
    | .ok text => (.ok text, { m with uses := .opened ciphertext text :: m.uses })
    | .error e => (.error e, m)
  | .get handle, w, m =>
    match w.read_error with
    | some e => (.error e, m)
    | none => (.ok (m.wrapped handle), m)
  | .put handle blob, w, m =>
    let r := w.write.apply (m.wrapped handle) (some blob)
    (r.1, { m with wrapped := Function.update m.wrapped handle r.2 })
  | .delete handle, w, m =>
    let r := w.write.apply (m.wrapped handle) none
    (r.1, { m with wrapped := Function.update m.wrapped handle r.2 })
  | .known, _, m => (m.known, m)
  | .insert_known entry, _, m => ((), { m with known := entry })
  | .put_meta entry, w, m =>
    let r := w.write.apply m.app_meta entry
    (r.1, { m with app_meta := r.2 })
  | .put_manifest, w, m =>
    let r := w.write.apply m.manifest m.known.isSome
    (r.1, { m with manifest := r.2 })

end

/-! ## What the host is asked -/

def discover : Prog Op Ans (Except String VaultConfig) := perform Op.discover

def kv_store_get (handle : String) : Prog Op Ans (Except String (Option Bytes)) := perform (Op.get handle)

def kv_store_put (handle : String) (blob : Bytes) : Prog Op Ans (Except String Unit) := perform (Op.put handle blob)

def encrypt (c : AeadCipher) (plaintext aad : Bytes) : Prog Op Ans (Except String Bytes) :=
  perform (Op.encrypt c plaintext aad)

def decrypt (c : AeadCipher) (ciphertext aad : Bytes) : Prog Op Ans (Except String Bytes) :=
  perform (Op.decrypt c ciphertext aad)

abbrev AppM := ExceptT String (Prog Op Ans)

def ask (o : Op) : AppM (Ans o) := ExceptT.lift (Prog.perform o)

def attempt {α : Type} (lead : String) (p : Prog Op Ans (Except String α)) : AppM α :=
  ExceptT.adapt (lead ++ ·) (ExceptT.mk p)

def on_vaults {α : Type} (handle : String) : VaultM α → Prog Op Ans α
  | .ret a => .ret a
  | .fail => .fail
  | .step o k => .step (.vault handle o) fun a => on_vaults handle (k a)

def selection : Option VaultConfig → AppM VaultConfig
  | some c => pure c
  | none => attempt "" discover

def new_key : Option Key → AppM Key
  | some k => pure k
  | none => do
    match ← ask .random with
    | some k => pure k
    | none => throw "vaultkey: RDRAND failed generating key"

/-! ## The data key of an app -/

/-- Unwrapped if there is a blob for the handle, else given or generated. -/
def resolve_vault_backed_key (vb : VaultBacking) (byok : Option Key) (entropy : Entropy) :
    AppM (Key × String × VaultConfig) := do
  let cfg ← selection vb.sealed
  let kek ← attempt "" (on_vaults vb.handle (resolve_or_provision cfg vb.grant entropy))
  let cipher := AeadCipher.from_key (toVec 32 kek)
  let aad := as_bytes vb.handle
  match ← attempt "vaultkey: host kv get: " (kv_store_get vb.handle) with
  | some blob =>
    let key_vec ← attempt "vaultkey: unwrap encryption_key: " (decrypt cipher blob aad)
    if key_vec.length ≠ 32 then throw "vaultkey: wrapped encryption_key has wrong length"
    else pure (toVec 32 key_vec, "vault:" ++ vb.handle, cfg)
  | none =>
    let key ← new_key byok
    let blob ← attempt "vaultkey: wrap encryption_key: " (encrypt cipher key.toList aad)
    attempt "vaultkey: host kv put: " (kv_store_put vb.handle blob)
    pure (key, "vault:" ++ vb.handle, cfg)

def rotate_vault_backed_key (old_cfg new_cfg : VaultConfig) (old_handle new_handle new_grant : String)
    (entropy entropy' : Entropy) : AppM Unit := do
  let old_kek ← attempt "" (on_vaults old_handle (resolve_or_provision old_cfg "" entropy))
  let new_kek ← attempt "" (on_vaults new_handle (resolve_or_provision new_cfg new_grant entropy'))
  let old_cipher := AeadCipher.from_key (toVec 32 old_kek)
  let new_cipher := AeadCipher.from_key (toVec 32 new_kek)
  match ← attempt "vaultkey: host kv get: " (kv_store_get old_handle) with
  | none => throw ("vaultkey: no wrapped key at handle " ++ old_handle)
  | some blob =>
    let dek ← attempt "vaultkey: unwrap encryption_key (old KEK): "
      (decrypt old_cipher blob (as_bytes old_handle))
    let new_blob ← attempt "vaultkey: wrap encryption_key (new KEK): "
      (encrypt new_cipher dek (as_bytes new_handle))
    attempt "vaultkey: host kv put: " (kv_store_put new_handle new_blob)
    -- best effort: the vaults retire the old KEK
    let _ ← ask (.delete old_handle)

structure Load where
  vault : VaultBacking
  encryption_key : Option Key
  entropy : Entropy
  /-- The checks of the component before the key is resolved, and those after. -/
  component : Except String Unit
  exports : Except String Unit

def load_app (name : String) (load : Load) : AppM AppMeta := do
  match ← ask .known with
  | some _ => throw ("app '" ++ name ++ "' is already loaded")
  | none =>
    attempt "" (pure load.component)
    let (app_key, key_source, cfg) ← resolve_vault_backed_key load.vault load.encryption_key load.entropy
    attempt "" (pure load.exports)
    let entry : AppMeta := ⟨app_key, key_source, some cfg, some load.vault.handle⟩
    ask (.insert_known (some entry))
    -- `persist_app_to_kv` logs its failures
    let _ ← ask (.put_meta (some entry))
    let _ ← ask .put_manifest
    pure entry

structure Rotate where
  new_handle : String
  new_grant : String
  new_cfg : Option VaultConfig
  entropy : Entropy
  entropy' : Entropy

def rotate_vault_key (name : String) (r : Rotate) : AppM AppMeta := do
  match ← ask .known with
  | none => throw ("app '" ++ name ++ "' is not known")
  | some entry =>
    match entry.vault_handle with
    | none => throw ("app '" ++ name ++ "' is not vault-backed (no sealed handle)")
    | some old_handle =>
      if old_handle = r.new_handle then throw ("rotate: new handle equals the current handle " ++ r.new_handle)
      else
        let old_cfg ← selection entry.vault_config
        let target_cfg := r.new_cfg.getD old_cfg
        rotate_vault_backed_key old_cfg target_cfg old_handle r.new_handle r.new_grant r.entropy r.entropy'
        let updated : AppMeta := ⟨entry.encryption_key, "vault:" ++ r.new_handle,
          if r.new_cfg.isSome then some target_cfg else entry.vault_config, some r.new_handle⟩
        ask (.insert_known (some updated))
        pure updated

def wasm_rotate_key (name : String) (r : Rotate) : AppM AppMeta := do
  let updated ← rotate_vault_key name r
  -- `persist_meta_to_kv` logs its failure
  let _ ← ask (.put_meta (some updated))
  pure updated

def unload_app : AppM Unit := do
  match ← ask .known with
  | none => pure ()
  | some _ =>
    ask (.insert_known none)
    let _ ← ask (.put_meta none)
    let _ ← ask .put_manifest

/-! ## Histories -/

inductive Call
  | load (l : Load)
  | rotate (r : Rotate)
  | unload

inductive Event
  /-- When the world answers no more the enclave stops. -/
  | call (c : Call) (ws : List World)
  | restart
  /-- A new measurement cannot read what was sealed. -/
  | upgrade

def Mem.restart (m : Mem) : Mem := { m with known := if m.manifest then m.app_meta else none }

def Mem.upgrade (m : Mem) : Mem := { m with known := none, app_meta := none, manifest := false }

def Call.program (name : String) : Call → Prog Op Ans (Option Key)
  | .load l => do
    match ← (load_app name l).run with
    | .ok entry => pure (some entry.encryption_key)
    | .error _ => pure none
  | .rotate r => do
    let _ ← (wasm_rotate_key name r).run
    pure none
  | .unload => do
    let _ ← unload_app.run
    pure none

section

variable [Crypto]

/-- The memory after an event, and the data keys that loads have returned. -/
def next (name : String) (s : Mem × List Key) : Event → Mem × List Key
  | .call c ws =>
    match (c.program name).play respond ws s.1 with
    | (some (some key), m) => (m, key :: s.2)
    | (some none, m) => (m, s.2)
    | (none, m) => ({ m with known := none }, s.2)
  | .restart => (s.1.restart, s.2)
  | .upgrade => (s.1.upgrade, s.2)

def Mem.init : Mem := ⟨fun _ _ => none, fun _ => none, none, false, none, []⟩

def run (name : String) (history : List Event) : Mem × List Key := history.foldl (next name) (Mem.init, [])

end

end EnclaveOs.Wasm.Registry
