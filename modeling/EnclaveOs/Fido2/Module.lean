import EnclaveOs.Fido2.Webauthn
import EnclaveOs.Lib.Bounded
import EnclaveOs.Lib.Wp

/-!
# Registration and authentication (`enclave-os-fido2`)

What the clock, the generator and the store answer to a request is part of its world.
-/

namespace EnclaveOs.Fido2

open Lib
open Outside (decode encode sha256)

def MAX_PENDING_CHALLENGES : Nat := 1000
def CHALLENGE_TTL_SECS : UInt64 := 300
def SESSION_TOKEN_TTL_SECS : UInt64 := 3600
def MAX_SESSION_TOKENS : Nat := 10000

inductive Ceremony
  | Registration
  | Authentication
deriving DecidableEq

structure ChallengeEntry where
  expires_at : UInt64
  browser_session_id : Option String
  ceremony : Ceremony
  user_handle : Option String
  user_name : Option String
deriving DecidableEq

structure SessionTokenEntry where
  user_handle : String
  credential_id : String
  browser_session_id : String
  expires_at : UInt64
deriving DecidableEq

structure CredentialRecord where
  user_handle : String
  user_name : String
  public_key_cose : String
  public_key_raw : String
  aaguid : String
  sign_count : Nat
  created_at : UInt64
  rp_id : String
  push_token : Option String
deriving DecidableEq

/-- `fido2:cred:…`, `fido2:user:…` and `fido2:aaguid_allow`: none begins another, so each has its own map. -/
structure Kv where
  cred : String → Option CredentialRecord
  user : String → Option (List String)
  aaguid_allow : Option (List String)

structure State where
  challenges : AList fun _ : String => ChallengeEntry
  tokens : AList fun _ : String => SessionTokenEntry
  kv : Kv

/-! ## The world of a request -/

/-- A write that fails may still have been made. -/
inductive Put
  | done
  | lost (error : String)
  | kept (error : String)

def Put.written : Put → Bool
  | .lost _ => false
  | _ => true

/-- What is answered to each outside call. -/
structure World where
  get_current_time : Option UInt64
  fill_challenge : Option Bytes := none
  fill_token : Option Bytes := none
  get_aaguid_allow : Option String := none
  put_aaguid_allow : Put := .done
  put_credential : Put := .done
  get_index : Option String := none
  put_index : Put := .done
  get_credential : Option String := none
  get_update : Option String := none
  put_update : Put := .done

inductive Fault
  | err (error : String)
  | panic
deriving DecidableEq

abbrev Fido2M := Method State Fault

def lift {α : Type} (r : Except String α) : Fido2M α := Method.ofExcept (r.mapError .err)

def fail {α : Type} (e : String) : Fido2M α := throw (.err e)

def ensure (b : Bool) (e : String) : Fido2M Unit := if b then pure () else fail e

def kv_get {α : Type} (error : Option String) (read : Kv → α) : Fido2M α :=
  match error with
  | some e => fail e
  | none => Method.of fun s => (.ok (read s.kv), s)

def kv_put (answer : Put) (write : Kv → Kv) : Fido2M Unit :=
  Method.of fun s =>
    match answer with
    | .done => (.ok (), { s with kv := write s.kv })
    | .lost e => (.error (.err e), s)
    | .kept e => (.error (.err e), { s with kv := write s.kv })

/-- A clock that does not answer reads 0. -/
def current_time_secs (w : World) : UInt64 := w.get_current_time.getD 0

def expiry [Outside] (now ttl : UInt64) : Fido2M UInt64 :=
  if Outside.overflow_checks && decide (2 ^ 64 ≤ now.toNat + ttl.toNat) then throw .panic else pure (now + ttl)

/-! ## Challenges (`challenge.rs`) -/

section Stores

variable [Outside]

def insert_challenge (now : UInt64) (b64 : String) (entry : ChallengeEntry) : Fido2M Unit :=
  Method.of fun s =>
    match Bounded.offer MAX_PENDING_CHALLENGES (fun e => decide (now < e.expires_at)) b64 entry s.challenges with
    | (true, challenges) => (.ok (), { s with challenges })
    | (false, challenges) => (.error (.err "too many pending challenges"), { s with challenges })

def create_challenge (w : World) (now : UInt64) (browser_session_id : Option String) (ceremony : Ceremony)
    (user_handle user_name : Option String) : Fido2M String :=
  match w.fill_challenge with
  | none => fail "RNG failure"
  | some bytes => do
    let b64 := encode bytes
    let expires_at ← expiry now CHALLENGE_TTL_SECS
    insert_challenge now b64 ⟨expires_at, browser_session_id, ceremony, user_handle, user_name⟩
    pure b64

structure ConsumedChallenge where
  browser_session_id : Option String
  user_handle : Option String
  user_name : Option String

section

omit [Outside]

def remove_challenge (challenge_b64 : String) : Fido2M ChallengeEntry :=
  Method.of fun s =>
    match s.challenges.lookup challenge_b64 with
    | none => (.error (.err "unknown or already-consumed challenge"), s)
    | some entry => (.ok entry, { s with challenges := s.challenges.erase challenge_b64 })

def consume_challenge (challenge_b64 : String) (now : UInt64) (expected_ceremony : Ceremony) :
    Fido2M ConsumedChallenge := do
  let entry ← remove_challenge challenge_b64
  ensure (decide (now ≤ entry.expires_at)) "challenge expired"
  ensure (entry.ceremony == expected_ceremony) "challenge ceremony type mismatch"
  pure ⟨entry.browser_session_id, entry.user_handle, entry.user_name⟩

end

/-! ## Session tokens (`sessions.rs`) -/

def hex_digit (n : Nat) : Char := "0123456789abcdef".toList.getD n '0'

def hex_encode (bytes : Bytes) : String :=
  String.ofList (bytes.flatMap fun b => [hex_digit (b.toNat / 16), hex_digit (b.toNat % 16)])

section

omit [Outside]

def insert_token (now : UInt64) (hex : String) (entry : SessionTokenEntry) : Fido2M Unit :=
  Method.of fun s =>
    match Bounded.offer MAX_SESSION_TOKENS (fun e => decide (now < e.expires_at)) hex entry s.tokens with
    | (true, tokens) => (.ok (), { s with tokens })
    | (false, tokens) => (.error (.err "too many active sessions"), { s with tokens })

def issue_token (w : World) (now : UInt64) (user_handle credential_id browser_session_id : String) : Fido2M String :=
  match w.fill_token with
  | none => fail "RNG failure"
  | some bytes => do
    let hex := hex_encode bytes
    let expires_at ← expiry now SESSION_TOKEN_TTL_SECS
    insert_token now hex ⟨user_handle, credential_id, browser_session_id, expires_at⟩
    pure hex

def validate_token (s : State) (token : String) (now : UInt64) : Except String SessionTokenEntry :=
  match s.tokens.lookup token with
  | none => .error "invalid session token"
  | some entry => if entry.expires_at < now then .error "session token expired" else .ok entry

def revoke_token (s : State) (token : String) : State := { s with tokens := s.tokens.erase token }

end

/-! ## Credentials (`credentials.rs`) -/

def user_index_key (rp_id user_handle : String) : String := rp_id ++ ":" ++ user_handle

section

omit [Outside]

def add_to_user_index (w : World) (rp_id user_handle credential_id_b64 : String) : Fido2M Unit := do
  let key := user_index_key rp_id user_handle
  let ids ← kv_get w.get_index fun kv => (kv.user key).getD []
  let ids := if ids.any (· == credential_id_b64) then ids else ids ++ [credential_id_b64]
  kv_put w.put_index fun kv => { kv with user := Function.update kv.user key (some ids) }

def store_credential (w : World) (record : CredentialRecord) (credential_id_b64 : String) : Fido2M Unit := do
  kv_put w.put_credential fun kv => { kv with cred := Function.update kv.cred credential_id_b64 (some record) }
  add_to_user_index w record.rp_id record.user_handle credential_id_b64

def load_credential (w : World) (credential_id_b64 : String) : Fido2M (Option CredentialRecord) :=
  kv_get w.get_credential fun kv => kv.cred credential_id_b64

def update_credential (w : World) (credential_id_b64 : String) (sign_count : Nat) (push_token : Option String) :
    Fido2M Unit := do
  match ← kv_get w.get_update fun kv => kv.cred credential_id_b64 with
  | none => fail "credential not found"
  | some record =>
    let record := { record with sign_count, push_token := push_token <|> record.push_token }
    kv_put w.put_update fun kv => { kv with cred := Function.update kv.cred credential_id_b64 (some record) }

def list_credentials (kv : Kv) (rp_id user_handle : String) : List String :=
  (kv.user (user_index_key rp_id user_handle)).getD []

def PRIVASYS_WALLET_AAGUID_HEX : String := "f47ac10b58cc4372a5670e02b2c3d479"

def put_allowlist (w : World) (list : List String) : Fido2M Unit :=
  kv_put w.put_aaguid_allow fun kv => { kv with aaguid_allow := some list }

def init_aaguid_allowlist (w : World) (explicit : Option (List String)) : Fido2M Unit :=
  match explicit with
  | some list => put_allowlist w list
  | none => do
    match ← kv_get w.get_aaguid_allow fun kv => kv.aaguid_allow with
    | none => put_allowlist w [PRIVASYS_WALLET_AAGUID_HEX]
    | some _ => pure ()

def eq_ignore_ascii_case (a b : String) : Bool := a.toList.map Char.toLower == b.toList.map Char.toLower

def check_aaguid_in_list (aaguid : Bytes) (allowed : List String) : Bool :=
  allowed.any (· == "*") || allowed.any (eq_ignore_ascii_case · (hex_encode aaguid))

def is_aaguid_allowed (w : World) (aaguid : Bytes) : Fido2M Bool :=
  kv_get w.get_aaguid_allow fun kv => (kv.aaguid_allow.map (check_aaguid_in_list aaguid)).getD false

end

end Stores

/-! ## Requests (`lib.rs`, `types.rs`) -/

inductive Fido2Request
  | RegisterBegin (user_name user_handle : String) (session_id : Option String)
  | RegisterComplete (challenge id attestation_object client_data_json : String) (push_token : Option String)
  | AuthenticateBegin (credential_id session_id : Option String)
  | AuthenticateComplete (challenge id authenticator_data client_data_json signature : String)
deriving DecidableEq

structure RelyingParty where
  id : String
  name : String
deriving DecidableEq

structure PublicKeyUser where
  id : String
  name : String
  display_name : String
deriving DecidableEq

structure PubKeyCredParam where
  cred_type : String
  alg : Int
deriving DecidableEq

structure AuthenticatorSelection where
  authenticator_attachment : String
  resident_key : String
  user_verification : String
deriving DecidableEq

structure PublicKeyCreationOptions where
  challenge : String
  rp : RelyingParty
  user : PublicKeyUser
  pub_key_cred_params : List PubKeyCredParam
  authenticator_selection : AuthenticatorSelection
  attestation : String
deriving DecidableEq

structure AllowCredential where
  cred_type : String
  id : String
deriving DecidableEq

structure PublicKeyRequestOptions where
  challenge : String
  allow_credentials : List AllowCredential
  user_verification : String
deriving DecidableEq

inductive Fido2Response
  | RegisterOptions (public_key : PublicKeyCreationOptions)
  | RegisterOk (status : String) (session_token : Option String)
  | AuthenticateOptions (public_key : PublicKeyRequestOptions)
  | AuthenticateOk (status : String) (session_token : Option String)
  | Error (error : String)
deriving DecidableEq

structure Fido2Module where
  rp_id : String
  rp_name : String

def utf8 (s : String) : Bytes := s.toUTF8.data.toList

section Handlers

variable [Outside] (m : Fido2Module) (w : World)

def handle_register_begin (user_name user_handle : String) (session_id : Option String) : Fido2M Fido2Response := do
  let now := current_time_secs w
  let challenge ← create_challenge w now session_id .Registration (some user_handle) (some user_name)
  pure (.RegisterOptions {
    challenge
    rp := ⟨m.rp_id, m.rp_name⟩
    user := ⟨user_handle, user_name, user_name⟩
    pub_key_cred_params := [⟨"public-key", COSE_ALG_ES256⟩]
    authenticator_selection := ⟨"cross-platform", "required", "required"⟩
    attestation := "direct" })

def token_for (now : UInt64) (user_handle credential_id : String) (session_id : Option String) :
    Fido2M (Option String) :=
  match session_id with
  | none => pure none
  | some sid => some <$> issue_token w now user_handle credential_id sid

def some_or_fail {α : Type} (r : Option α) (e : String) : Fido2M α :=
  match r with
  | some a => pure a
  | none => fail e

def register_record (now : UInt64) (consumed : ConsumedChallenge) (challenge_b64 attestation_object_b64
    client_data_json_b64 credential_id_b64 : String) (push_token : Option String) : Fido2M CredentialRecord := do
  let _ ← lift (parse_client_data client_data_json_b64 "webauthn.create" challenge_b64)
  let att_obj_bytes ← lift ((decode attestation_object_b64).mapError ("attestation_object base64: " ++ ·))
  let auth_data_bytes ← lift (parse_attestation_object att_obj_bytes)
  let auth_data ← lift (parse_authenticator_data auth_data_bytes)
  ensure auth_data.user_present "user not present"
  ensure auth_data.user_verified "user not verified"
  let attested ← some_or_fail auth_data.attested_credential "missing attested credential data"
  ensure (auth_data.rp_id_hash == sha256 (utf8 m.rp_id)) "rpIdHash mismatch"
  let allowed ← is_aaguid_allowed w attested.aaguid
  ensure allowed ("authenticator AAGUID " ++ hex_encode attested.aaguid ++ " not in allowlist")
  let public_key_raw ← lift (extract_p256_public_key attested.credential_public_key_cbor)
  let reported_cred_id ← lift ((decode credential_id_b64).mapError ("credential_id base64: " ++ ·))
  ensure (attested.credential_id == reported_cred_id) "credential ID mismatch"
  pure {
    user_handle := consumed.user_handle.getD ""
    user_name := consumed.user_name.getD ""
    public_key_cose := encode attested.credential_public_key_cbor
    public_key_raw := encode public_key_raw
    aaguid := hex_encode attested.aaguid
    sign_count := auth_data.sign_count
    created_at := now
    rp_id := m.rp_id
    push_token }

def handle_register_complete (challenge_b64 attestation_object_b64 client_data_json_b64 credential_id_b64 : String)
    (push_token : Option String) : Fido2M Fido2Response := do
  let now := current_time_secs w
  let consumed ← consume_challenge challenge_b64 now .Registration
  let record ← register_record m w now consumed challenge_b64 attestation_object_b64 client_data_json_b64
    credential_id_b64 push_token
  store_credential w record credential_id_b64
  let session_token ← token_for w now record.user_handle credential_id_b64 consumed.browser_session_id
  pure (.RegisterOk "ok" session_token)

def handle_authenticate_begin (credential_id_b64 session_id : Option String) : Fido2M Fido2Response := do
  let now := current_time_secs w
  let challenge ← create_challenge w now session_id .Authentication none none
  pure (.AuthenticateOptions {
    challenge
    allow_credentials := (credential_id_b64.map fun cid => ⟨"public-key", cid⟩).toList
    user_verification := "required" })

def clone_check (sign_count stored : Nat) : Fido2M Unit :=
  ensure (!(sign_count != 0 && decide (sign_count ≤ stored)))
    ("sign count not increasing (" ++ toString sign_count ++ " <= " ++ toString stored ++
      ") — possible cloned authenticator")

def verify_assertion (challenge_b64 credential_id_b64 authenticator_data_b64 signature_b64
    client_data_json_b64 : String) : Fido2M (CredentialRecord × Nat) := do
  let client_data ← lift (parse_client_data client_data_json_b64 "webauthn.get" challenge_b64)
  let loaded ← load_credential w credential_id_b64
  let record ← some_or_fail loaded "unknown credential"
  let auth_data_bytes ← lift ((decode authenticator_data_b64).mapError ("authenticator_data base64: " ++ ·))
  let auth_data ← lift (parse_authenticator_data auth_data_bytes)
  ensure auth_data.user_present "user not present"
  ensure auth_data.user_verified "user not verified"
  ensure (auth_data.rp_id_hash == sha256 (utf8 m.rp_id)) "rpIdHash mismatch"
  clone_check auth_data.sign_count record.sign_count
  let signed_data := auth_data_bytes ++ sha256 client_data.2
  let sig_bytes ← lift ((decode signature_b64).mapError ("signature base64: " ++ ·))
  let public_key_bytes ← lift ((decode record.public_key_raw).mapError ("stored public key base64: " ++ ·))
  lift (verify_signature public_key_bytes signed_data sig_bytes)
  pure (record, auth_data.sign_count)

def handle_authenticate_complete (challenge_b64 credential_id_b64 authenticator_data_b64 signature_b64
    client_data_json_b64 : String) : Fido2M Fido2Response := do
  let now := current_time_secs w
  let consumed ← consume_challenge challenge_b64 now .Authentication
  let verified ← verify_assertion m w challenge_b64 credential_id_b64 authenticator_data_b64 signature_b64
    client_data_json_b64
  -- An update that fails is not an error: the authentication has succeeded.
  let _ ← (Method.attempt (update_credential w credential_id_b64 verified.2 none) : Fido2M (Except Fault Unit))
  let session_token ← token_for w now verified.1.user_handle credential_id_b64 consumed.browser_session_id
  pure (.AuthenticateOk "ok" session_token)

def handle_request : Fido2Request → Fido2M Fido2Response
  | .RegisterBegin user_name user_handle session_id => handle_register_begin m w user_name user_handle session_id
  | .RegisterComplete challenge id attestation_object client_data_json push_token =>
    handle_register_complete m w challenge attestation_object client_data_json id push_token
  | .AuthenticateBegin credential_id session_id => handle_authenticate_begin w credential_id session_id
  | .AuthenticateComplete challenge id authenticator_data client_data_json signature =>
    handle_authenticate_complete m w challenge id authenticator_data signature client_data_json

end Handlers

inductive Event
  | request (w : World) (r : Fido2Request)
  | validate (token : String) (now : UInt64)
  | revoke (token : String)
  /-- The enclave starts again: what was in memory is gone. -/
  | restart (w : World) (aaguid_allowlist : Option (List String))

def handle [Outside] (m : Fido2Module) (w : World) (r : Fido2Request) (s : State) : Option Fido2Response × State :=
  match (handle_request m w r).exec s with
  | (.ok response, s') => (some response, s')
  | (.error (.err error), s') => (some (.Error error), s')
  | (.error .panic, s') => (none, s')

def start (w : World) (aaguid_allowlist : Option (List String)) (kv : Kv) : State :=
  ((init_aaguid_allowlist w aaguid_allowlist).exec ⟨∅, ∅, kv⟩).2

def step [Outside] (m : Fido2Module) (s : State) : Event → State
  | .request w r => (handle m w r s).2
  | .validate _ _ => s
  | .revoke token => revoke_token s token
  | .restart w aaguid_allowlist => start w aaguid_allowlist s.kv

end EnclaveOs.Fido2
