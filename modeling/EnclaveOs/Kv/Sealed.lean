import EnclaveOs.Merkle.Sample

/-! # The sealed key-value store -/

open EnclaveOs.Lib EnclaveOs.Merkle

namespace EnclaveOs.Kv

def AAD_VALUE : Bytes := ascii "enclave_os_kv_val"

def KVSTORE_TABLE : Bytes := ascii "kvstore"

structure Host where
  kv_store_put (table key value : Bytes) : Except String Unit
  kv_store_get (table key : Bytes) : Except String (Option Bytes)
  kv_store_delete (table key : Bytes) : Except String Bool

structure SealedKvStore where
  cipher : AeadCipher
  table : Bytes

namespace SealedKvStore

def from_master_key (key : Key) : SealedKvStore := ⟨.from_key key, KVSTORE_TABLE⟩

def from_master_key_with_table (key : Key) (table : Bytes) : SealedKvStore := ⟨.from_key key, table⟩

section

variable [Crypto] (s : SealedKvStore)

def encrypt_key (key : Bytes) : Except String Bytes := .ok (Crypto.hmac s.cipher.key_bytes key).toList

def put (host : Host) (draw : Option Nonce) (key value : Bytes) : Except String Unit := do
  let enc_key ← s.encrypt_key key
  match s.cipher.encrypt draw value AAD_VALUE with
  | .error e => throw ("Value encryption failed: " ++ e)
  | .ok enc_val =>
    match host.kv_store_put s.table enc_key enc_val with
    | .error e => throw ("Host KV put failed: " ++ e)
    | .ok () => pure ()

def get (host : Host) (key : Bytes) : Except String (Option Bytes) := do
  let enc_key ← s.encrypt_key key
  match host.kv_store_get s.table enc_key with
  | .ok (some enc_val) =>
    match s.cipher.decrypt enc_val AAD_VALUE with
    | .error e => throw ("Value decryption failed: " ++ e)
    | .ok plaintext => pure (some plaintext)
  | .ok none => pure none
  | .error e => throw ("Host KV get failed: " ++ e)

def delete (host : Host) (key : Bytes) : Except String Bool := do
  let enc_key ← s.encrypt_key key
  match host.kv_store_delete s.table enc_key with
  | .error e => throw ("Host KV delete failed: " ++ e)
  | .ok b => pure b

/-! ## What the host has been given -/

inductive Call where
  | put (host : Host) (draw : Option Nonce) (key value : Bytes)
  | get (host : Host) (key : Bytes)
  | delete (host : Host) (key : Bytes)

def puts (history : List Call) : List (Bytes × Bytes) :=
  history.filterMap fun
    | .put _ _ key value => some (key, value)
    | _ => none

def seals (history : List Call) : List ((Bytes × Bytes) × Bytes) :=
  history.filterMap fun
    | .put _ draw key value =>
      match s.cipher.encrypt draw value AAD_VALUE with
      | .ok ct => some ((key, value), ct)
      | .error _ => none
    | _ => none

theorem mem_seals {history : List Call} {key value ct : Bytes} :
    ((key, value), ct) ∈ s.seals history ↔
      ∃ host draw, .put host draw key value ∈ history ∧ s.cipher.encrypt draw value AAD_VALUE = .ok ct := by
  unfold seals
  rw [List.mem_filterMap]
  constructor
  · rintro ⟨c, hc, h⟩
    cases c with
    | get | delete => simp at h
    | put host draw k v =>
      dsimp only at h
      split at h
      · rename_i ct' henc
        cases h
        exact ⟨host, draw, hc, henc⟩
      · cases h
  · rintro ⟨host, draw, hc, henc⟩
    exact ⟨_, hc, by simp [henc]⟩

/-- The answer opens only if it was sealed before. -/
def Authentic (history : List Call) (host : Host) : Prop :=
  ∀ enc_key ct value, host.kv_store_get s.table enc_key = .ok (some ct) →
    s.cipher.decrypt ct AAD_VALUE = .ok value → ∃ key, ((key, value), ct) ∈ s.seals history

def replay (ct : Bytes) : Host where
  kv_store_put _ _ _ := .ok ()
  kv_store_get _ _ := .ok (some ct)
  kv_store_delete _ _ := .ok false

theorem get_replay {ct value : Bytes} (key : Bytes) (h : s.cipher.decrypt ct AAD_VALUE = .ok value) :
    s.get (replay ct) key = .ok (some value) := by
  simp [get, encrypt_key, replay, h, bind, Except.bind, pure, Except.pure]

/-- A get of `key` gives only values put under `key` exactly if every value sealed so far was: the seal does not
say the key. -/
theorem get_bound_iff (history : List Call) (key : Bytes) :
    (∀ host value, s.Authentic history host → s.get host key = .ok (some value) → (key, value) ∈ puts history) ↔
      ∀ key' value ct, ((key', value), ct) ∈ s.seals history → (key, value) ∈ puts history := by
  constructor
  · intro h key' value ct hct
    obtain ⟨_, draw, -, henc⟩ := s.mem_seals.mp hct
    have hdec := AeadCipher.decrypt_encrypt _ _ _ _ _ henc
    refine h (replay ct) value (fun _ ct' value' hget hdec' => ?_) (s.get_replay key hdec)
    cases hget
    rw [hdec] at hdec'
    cases hdec'
    exact ⟨key', hct⟩
  · intro h host value hauth hget
    simp only [get, encrypt_key, bind, Except.bind] at hget
    split at hget
    · rename_i ct hct
      split at hget
      · cases hget
      · rename_i hdec
        cases hget
        obtain ⟨key', hseal⟩ := hauth _ ct value hct hdec
        exact h key' value ct hseal
    · cases hget
    · cases hget

end

open Sample in
/-- The get of `b` gives what was put under `a`. -/
theorem get_of_swapped_key :
    let s := from_master_key Sample.key
    let history : List Call := [.put (replay []) (some Sample.nonce) [97] [1]]
    ∃ host, s.Authentic history host ∧ s.get host [98] = .ok (some [1]) ∧ ([98], [1]) ∉ puts history := by
  intro s history
  have hseal : (([97], [1]), Sample.nonce.toList ++ ([1] ++ List.replicate 16 0)) ∈ s.seals history :=
    s.mem_seals.mpr ⟨_, _, List.mem_singleton_self _, rfl⟩
  have hdec : s.cipher.decrypt (Sample.nonce.toList ++ ([1] ++ List.replicate 16 0)) AAD_VALUE = .ok [1] := by
    decide
  refine ⟨replay _, fun _ ct value hget hdec' => ?_, s.get_replay [98] hdec, by decide⟩
  cases hget
  rw [hdec] at hdec'
  cases hdec'
  exact ⟨_, hseal⟩

end SealedKvStore

end EnclaveOs.Kv
