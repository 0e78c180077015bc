import EnclaveOs.Lib.Wp
import EnclaveOs.Vault.Types

/-!
# What the vault stores, and what it asks of the world

The host and the network may answer differently each time within one request.
-/

namespace EnclaveOs.Vault

open Lib

inductive TeeType where
  | Sgx
  | Tdx
deriving DecidableEq

structure QuoteIdentity where
  tee : TeeType
  measurement : String
  rtmr1 : Option String
  rtmr2 : Option String

structure Certificate where
  extensions : List (String × Bytes)
  subject_public_key : Bytes

/-- `cnf` is the thumbprint of a holder-of-key confirmation. -/
structure KeyCreationGrant where
  iss : String
  aud : String
  sub : String
  scope : String
  key_type : KeyType
  exportable : Bool
  policy : KeyPolicy
  exp : UInt64
  cnf : Option String

class Outside where
  to_lowercase : String → String
  sha256 : Bytes → Bytes
  hex_encode : Bytes → String
  encode : Bytes → String
  decode : String → Except String Bytes
  serde_error : String
  /-- `{:?}` of a list of strings. -/
  debug_strings : List String → String
  from_der : Bytes → Except String Certificate
  parse_quote : Bytes → Except String QuoteIdentity
  generate_pkcs8 : Bytes → Option Bytes
  from_pkcs8 : Bytes → Option Bytes
  /-- Claims, PKCS#8 key, randomness. -/
  encode_jwt : ApprovalClaims → Bytes → Bytes → Except String String
  /-- Public key, JWT. -/
  verify_and_decode : Bytes → String → Except String ApprovalClaims
  valid_aes_key : Bytes → Bool
  /-- Key, nonce, associated data, text. -/
  seal_in_place : Bytes → Bytes → Bytes → Bytes → Option Bytes
  open_in_place : Bytes → Bytes → Bytes → Bytes → Option Bytes
  /-- PKCS#8 key, randomness, message. -/
  ecdsa_sign : Bytes → Bytes → Bytes → Option Bytes
  /-- Whether a key parses for pre-hash signing. -/
  from_pkcs8_der : Bytes → Bool
  sign_prehash : Bytes → Bytes → Option Bytes
  hmac_sha256 : Bytes → Bytes → Bytes

/-- The world at one call out of the vault. -/
structure World where
  /-- Why a KV operation fails now, if it does. -/
  kv_fault : Option String
  current_time : Option UInt64
  entropy : Option Bytes
  /-- The TCB statuses that the servers at these URLs report for a quote. -/
  verify_quote_statuses : Bytes → List String → Except String (List String)
  /-- The issuer of the global OIDC configuration. -/
  oidc_issuer : Option String
  /-- A grant checked against the published keys of an issuer. -/
  verify_jwt_with_jwks : String → String → Except String KeyCreationGrant

/-! ## Saturating counters -/

def satSucc32 (x : UInt32) : UInt32 := if x.toNat + 1 < 2 ^ 32 then x + 1 else x

def satSucc64 (x : UInt64) : UInt64 := if x.toNat + 1 < 2 ^ 64 then x + 1 else x

def satAdd64 (x y : UInt64) : UInt64 :=
  if x.toNat + y.toNat < 2 ^ 64 then x + y else UInt64.ofNat (2 ^ 64 - 1)

def satSub64 (x y : UInt64) : UInt64 := if y ≤ x then x - y else 0

inductive KvKey where
  | record (handle : String)
  | index (owner_sub : String)
  | audit (handle : String) (seq : UInt64)
  | signing_key
deriving DecidableEq

def decimal : Nat → Nat → List Char
  | 0, _ => []
  | k + 1, n => decimal k (n / 10) ++ [Nat.digitChar (n % 10)]

/-- `{:020}`: twenty digits hold every sequence number. -/
def pad20 (seq : UInt64) : List Char := decimal 20 seq.toNat

def KvKey.text : KvKey → List Char
  | .record handle => "key:".toList ++ handle.toList
  | .index owner_sub => "index:".toList ++ owner_sub.toList
  | .audit handle seq => "audit:".toList ++ handle.toList ++ ":".toList ++ pad20 seq
  | .signing_key => "__vault_signing_key_pkcs8__".toList

theorem length_decimal (k n : Nat) : (decimal k n).length = k := by
  induction k generalizing n with
  | zero => rfl
  | succ k ih => simp [decimal, ih]

theorem digitChar_inj {a b : Nat} (ha : a < 10) (hb : b < 10) (h : Nat.digitChar a = Nat.digitChar b) : a = b := by
  interval_cases a <;> interval_cases b <;> first | rfl | exact absurd h (by decide)

theorem decimal_inj {k m n : Nat} (hm : m < 10 ^ k) (hn : n < 10 ^ k) (h : decimal k m = decimal k n) : m = n := by
  induction k generalizing m n with
  | zero => simp at hm hn; omega
  | succ k ih =>
    unfold decimal at h
    obtain ⟨hq, hr⟩ := List.append_inj h (by simp [length_decimal])
    have hdiv : m / 10 = n / 10 := ih (by rw [pow_succ] at hm; omega) (by rw [pow_succ] at hn; omega) hq
    have hmod : m % 10 = n % 10 := digitChar_inj (by omega) (by omega) (List.singleton_inj.mp hr)
    omega

def KvKey.initial : KvKey → Char
  | .record _ => 'k'
  | .index _ => 'i'
  | .audit _ _ => 'a'
  | .signing_key => '_'

theorem KvKey.head_text (k : KvKey) : k.text.head? = some k.initial := by
  cases k <;> rfl

theorem KvKey.text_injective : Function.Injective KvKey.text := by
  intro a b e
  have hi : a.initial = b.initial := by
    have h := congrArg List.head? e
    rw [head_text, head_text] at h
    exact Option.some.inj h
  cases a <;> cases b
  case record.record => rw [String.toList_inj.mp (List.append_cancel_left e)]
  case index.index => rw [String.toList_inj.mp (List.append_cancel_left e)]
  case audit.audit h n h' n' =>
    unfold KvKey.text pad20 at e
    obtain ⟨hh, hd⟩ := List.append_inj' e (by simp [length_decimal])
    have hlt : ∀ x : UInt64, x.toNat < 10 ^ 20 := fun x => lt_trans x.toNat_lt (by norm_num)
    rw [UInt64.toNat_inj.mp (decimal_inj (k := 20) (hlt n) (hlt n') hd),
      String.toList_inj.mp (List.append_cancel_left (List.append_cancel_right hh))]
  case signing_key.signing_key => rfl
  all_goals exact absurd hi (by simp [initial])

/-- A value, before it is written as JSON. -/
inductive Stored where
  | record (r : KeyRecord)
  | handles (l : List String)
  | entry (e : AuditEntry)
  | pkcs8 (b : Bytes)
deriving DecidableEq

abbrev Table := KvKey → Option Stored

/-- The store, and the answers of the world that are still to come. -/
structure State where
  kv : Table
  world : Nat → World

abbrev VaultM := Method State String

def ask : VaultM World := .of fun s => (.ok (s.world 0), { s with world := fun n => s.world (n + 1) })

def kvOp {α : Type} (f : Table → α × Table) : VaultM α := do
  let w ← ask
  match w.kv_fault with
  | some e => throw e
  | none => .of fun s => (.ok (f s.kv).1, { s with kv := (f s.kv).2 })

def kvGet (key : KvKey) : VaultM (Option Stored) := kvOp fun kv => (kv key, kv)

def kvPut (key : KvKey) (value : Stored) : VaultM Unit := kvOp fun kv => ((), Function.update kv key (some value))

def kvDelete (key : KvKey) : VaultM Bool := kvOp fun kv => ((kv key).isSome, Function.update kv key none)

def now_secs : VaultM UInt64 := do return (← ask).current_time.getD 0

def refuse (c : Bool) (e : String) : VaultM Unit := if c then throw e else pure ()

section

variable [Outside]

def load_record (handle : String) : VaultM KeyRecord := do
  match ← Method.mapError ("kv get failed: " ++ ·) (kvGet (.record handle)) with
  | none => throw "key not found"
  | some (.record r) => pure r
  | some _ => throw ("corrupt record: " ++ Outside.serde_error)

/-! ## Audit log (`audit.rs`) -/

section

variable (record : KeyRecord) (op caller : String) (decision : AuditDecision) (reason : String)

def append : VaultM KeyRecord := do
  let now ← now_secs
  let entry : AuditEntry := ⟨record.audit_next_seq, now, op, caller, decision, reason⟩
  Method.mapError ("audit put: " ++ ·) (kvPut (.audit record.handle record.audit_next_seq) (.entry entry))
  pure { record with audit_next_seq := satSucc64 record.audit_next_seq }

def readFrom (handle : String) (limit : Nat) : Nat → UInt64 → List AuditEntry → VaultM (List AuditEntry × UInt64)
  | 0, seq, out => pure (out, seq)
  | n + 1, seq, out =>
    if out.length < limit then do
      match ← Method.mapError ("audit get: " ++ ·) (kvGet (.audit handle seq)) with
      | some (.entry e) => readFrom handle limit n (seq + 1) (out ++ [e])
      | _ => readFrom handle limit n (seq + 1) out
    else pure (out, seq)

/-- At most `limit` entries, and the next unread sequence number. -/
def read (handle : String) (next_seq since_seq : UInt64) (limit : UInt32) : VaultM (List AuditEntry × UInt64) :=
  readFrom handle limit.toNat (next_seq.toNat - since_seq.toNat) since_seq []

def audit_and_save : VaultM Unit := do
  let record ← Method.mapError ("audit append: " ++ ·) (append record op caller decision reason)
  Method.mapError ("kv put failed: " ++ ·) (kvPut (.record record.handle) (.record record))

def audit_if_possible : VaultM Unit := do
  let _ ← (Method.attempt (audit_and_save record op caller decision reason) : VaultM (Except String Unit))
  pure ()

end

/-- A refusal is audited if possible, and answered either way. -/
def deny {α : Type} (record : KeyRecord) (op caller e : String) : VaultM α := do
  audit_if_possible record op caller .Denied e
  throw e

def orDeny {α : Type} (record : KeyRecord) (op caller : String) (check : VaultM α) : VaultM α := do
  match ← (Method.attempt check : VaultM (Except String α)) with
  | .ok a => pure a
  | .error e => deny record op caller e

/-! ## Approval tokens (`signing.rs`) -/

def ISSUER : String := "enclave-os-vault"

def init_signing_key : VaultM Bytes := do
  let w ← ask
  match w.entropy.bind Outside.generate_pkcs8 with
  | none => throw "generate vault signing key failed"
  | some b => do
    Method.mapError ("kv put signing key: " ++ ·) (kvPut .signing_key (.pkcs8 b))
    pure b

def signing_pkcs8 : VaultM Bytes := do
  match ← Method.mapError ("kv get signing key: " ++ ·) (kvGet .signing_key) with
  | some (.pkcs8 b) => pure b
  | some _ => throw "parse vault signing key failed"
  | none => init_signing_key

def load_or_init_keypair : VaultM (Bytes × Bytes) := do
  let pkcs8 ← signing_pkcs8
  match Outside.from_pkcs8 pkcs8 with
  | none => throw "parse vault signing key failed"
  | some public_key => pure (pkcs8, public_key)

def issue_approval_token (handle : String) (op : Operation) (manager : UInt32) (approver_sub : String)
    (iat ttl_seconds : UInt64) : VaultM ApprovalToken := do
  let kp ← load_or_init_keypair
  let claims : ApprovalClaims := ⟨ISSUER, handle, op, manager, approver_sub, iat, satAdd64 iat ttl_seconds⟩
  let w ← ask
  match w.entropy with
  | none => throw "signing failed"
  | some entropy => do
    let jwt ← Method.ofExcept (Outside.encode_jwt claims kp.1 entropy)
    pure ⟨jwt⟩

def check_public_key (raw : Bytes) : Except String Unit :=
  if raw.length = 65 ∧ raw.head? = some 0x04 then .ok ()
  else .error "expected 65-byte uncompressed P-256 point (04 || x || y)"

def check_claims (claims : ApprovalClaims) (handle : String) (op : Operation) (manager : UInt32)
    (distinct_from : Option String) (fresh_for_seconds now : UInt64) : Except String Unit :=
  if claims.iss ≠ ISSUER then .error ("issuer mismatch (got '" ++ claims.iss ++ "')")
  else if claims.handle ≠ handle then
    .error ("handle mismatch (token=" ++ claims.handle ++ ", request=" ++ handle ++ ")")
  else if claims.op ≠ op then
    .error ("op mismatch (token=" ++ claims.op.debug ++ ", request=" ++ op.debug ++ ")")
  else if claims.manager ≠ manager then
    .error ("manager mismatch (token=" ++ toString claims.manager.toNat ++ ", expected=" ++
      toString manager.toNat ++ ")")
  else if distinct_from.isSome ∧ claims.approver_sub = "" then
    .error "co-sign required but token carries no approver_sub"
  else if distinct_from = some claims.approver_sub then
    .error ("co-sign requires a second approver (approver_sub '" ++ claims.approver_sub ++ "' == proposer)")
  else if claims.exp < now then
    .error ("expired (now=" ++ toString now.toNat ++ ", exp=" ++ toString claims.exp.toNat ++ ")")
  else if 0 < fresh_for_seconds ∧ fresh_for_seconds < satSub64 now claims.iat then
    .error ("stale (iat=" ++ toString claims.iat.toNat ++ ", now=" ++ toString now.toNat ++
      ", fresh_for=" ++ toString fresh_for_seconds.toNat ++ "s)")
  else .ok ()

def verify_approval_token (token : ApprovalToken) (handle : String) (op : Operation) (manager : UInt32)
    (distinct_from : Option String) (fresh_for_seconds now : UInt64) : VaultM Unit := do
  let kp ← load_or_init_keypair
  Method.ofExcept (check_public_key kp.2)
  let claims ← Method.ofExcept (Outside.verify_and_decode kp.2 token.jwt)
  Method.ofExcept (check_claims claims handle op manager distinct_from fresh_for_seconds now)

end

end EnclaveOs.Vault
