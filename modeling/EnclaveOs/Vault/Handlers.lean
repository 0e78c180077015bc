import EnclaveOs.Vault.Policy

/-!
# Request handlers (`lib.rs`, `grant.rs`, `crypto.rs`)

When the audit entry cannot be written, `audit_and_save` gives up and `audit_if_possible` goes on.
-/

namespace EnclaveOs.Vault

open Lib

variable [Outside]

def expired (record : KeyRecord) : VaultM Bool := do return decide (record.expires_at < (← now_secs))

def owner_oidc_sub : Principal → Option String
  | .Oidc _ sub _ => some sub
  | .Tee _ | .Fido2 _ _ => none

def caller_str (ctx : RequestContext) : String :=
  match ctx.oidc_claims with
  | some c => "oidc:" ++ c.sub
  | none => if ctx.peer_cert_der.isSome then "tee" else "anonymous"

def decode_or (what text : String) : VaultM Bytes :=
  Method.ofExcept ((Outside.decode text).mapError (what ++ " base64: " ++ ·))

def handles_of : Stored → List String
  | .handles l => l
  | _ => []

def add_to_owner_index (owner_sub handle : String) : VaultM Unit := do
  let handles := match ← (Method.attempt (kvGet (.index owner_sub)) : VaultM (Except String (Option Stored))) with
    | .ok (some b) => handles_of b
    | _ => []
  kvPut (.index owner_sub) (.handles (if handles.contains handle then handles else handles ++ [handle]))

def remove_from_owner_index (owner_sub handle : String) : VaultM Unit := do
  match ← (Method.attempt (kvGet (.index owner_sub)) : VaultM (Except String (Option Stored))) with
  | .ok (some b) => kvPut (.index owner_sub) (.handles ((handles_of b).filter (· != handle)))
  | _ => pure ()

/-! ## Policy normalisation -/

def normalise_measurement : Measurement → Measurement
  | .Mrenclave s => .Mrenclave (Outside.to_lowercase s)
  | .Tdx mrtd rtmr1 rtmr2 =>
    .Tdx (Outside.to_lowercase mrtd) (Outside.to_lowercase rtmr1) (Outside.to_lowercase rtmr2)

def normalise_profile (profile : AttestationProfile) : AttestationProfile :=
  { profile with
    measurements := profile.measurements.map normalise_measurement
    required_oids := profile.required_oids.map fun o => { o with value := Outside.to_lowercase o.value }
    attestation_servers := profile.attestation_servers.map fun s =>
      { s with pinned_spki_sha256_hex := s.pinned_spki_sha256_hex.map String.toLower } }

def normalise_principal : Principal → Principal
  | .Tee profile => .Tee (normalise_profile profile)
  | p => p

def normalise_ttl (ttl_seconds : UInt64) : UInt64 :=
  if ttl_seconds = 0 then DEFAULT_KEY_TTL_SECONDS
  else if MAX_KEY_TTL_SECONDS < ttl_seconds then MAX_KEY_TTL_SECONDS
  else ttl_seconds

def normalise_policy (policy : KeyPolicy) : KeyPolicy :=
  { policy with
    lifecycle := { policy.lifecycle with ttl_seconds := normalise_ttl policy.lifecycle.ttl_seconds }
    principals :=
      { owner := normalise_principal policy.principals.owner
        managers := policy.principals.managers.map normalise_principal
        auditors := policy.principals.auditors.map normalise_principal
        tees := policy.principals.tees.map normalise_principal } }

/-! ## Key-creation grants (`grant.rs`) -/

def GRANT_AUDIENCE : String := "privasys-vault-keycreate"

def scope_app_id (scope : String) : Option String :=
  if scope.startsWith "apps.privasys.org/" then some (String.ofList (scope.toList.drop 18)) else none

def bind_caller (grant : KeyCreationGrant) (peer_der : Bytes) : Except String Unit :=
  match grant.cnf with
  | some x5t_s256 =>
    if Outside.encode (Outside.sha256 peer_der) = x5t_s256 then .ok ()
    else .error "grant cnf (holder-of-key) does not match the caller's RA-TLS certificate"
  | none => do
    let evidence ← dissect_peer_cert peer_der []
    match evidence.oid_claims.find? (·.1 == APP_ID_OID_STR) with
    | none =>
      .error "caller RA-TLS certificate has no app-id (OID 3.6) and the grant has no cnf binding"
    | some (_, caller_app_id) =>
      match scope_app_id grant.scope with
      | none =>
        .error ("grant scope '" ++ grant.scope ++ "' carries no app-id and the grant has no cnf binding")
      | some app_id =>
        if eq_ignore_ascii_case caller_app_id app_id then .ok ()
        else
          .error ("caller app-id " ++ caller_app_id ++ " does not match grant scope app-id " ++ app_id)

def verify_grant (grant_jwt : String) (ctx : RequestContext) (now : UInt64) : VaultM KeyCreationGrant := do
  let cfg ← ask
  match cfg.oidc_issuer with
  | none => throw "OIDC is not configured; cannot verify a key-creation grant"
  | some issuer => do
    let w ← ask
    let grant ← Method.ofExcept ((w.verify_jwt_with_jwks grant_jwt issuer).mapError
      ("key-creation grant verification failed: " ++ ·))
    refuse (grant.iss != issuer) ("grant issuer mismatch (got '" ++ grant.iss ++ "')")
    refuse (grant.aud != GRANT_AUDIENCE)
      ("grant audience must be '" ++ GRANT_AUDIENCE ++ "' (got '" ++ grant.aud ++ "')")
    refuse (decide (grant.exp ≤ now)) "key-creation grant has expired"
    match ctx.peer_cert_der with
    | none => throw "key creation requires a mutual-RA-TLS peer certificate"
    | some peer_der => do
      Method.ofExcept (bind_caller grant peer_der)
      pure grant

/-! ## Operations on key material (`crypto.rs`) -/

def validate_material (key_type : KeyType) (material : Bytes) : Except String (Option Bytes) :=
  match key_type with
  | .RawShare => .ok none
  | .Aes256GcmKey =>
    if material.length ≠ 32 then
      .error ("Aes256GcmKey requires 32 bytes of material, got " ++ toString material.length)
    else .ok none
  | .HmacSha256Key =>
    if 32 ≤ material.length ∧ material.length ≤ 64 then .ok none
    else .error ("HmacSha256Key requires 32..=64 bytes of material, got " ++ toString material.length)
  | .P256SigningKey =>
    match Outside.from_pkcs8 material with
    | none => .error "P256SigningKey material is not a valid PKCS#8 P-256 key"
    | some public_key => .ok (some public_key)

def NONCE_LEN : Nat := 12

def nonce_error (n : Nat) : String := "AES-GCM nonce must be " ++ toString NONCE_LEN ++ " bytes, got " ++ toString n

def choose_nonce : Option Bytes → VaultM Bytes
  | some b => if b.length = NONCE_LEN then pure b else throw (nonce_error b.length)
  | none => do
    match (← ask).entropy with
    | none => throw "rng failed"
    | some b => pure (b.take NONCE_LEN)

def aes_gcm_seal (key_bytes plaintext aad : Bytes) (iv : Option Bytes) : VaultM (Bytes × Bytes) := do
  let nonce ← choose_nonce iv
  refuse (!Outside.valid_aes_key key_bytes) "invalid AES-256 key"
  match Outside.seal_in_place key_bytes nonce aad plaintext with
  | none => throw "AES-GCM seal failed"
  | some ciphertext => pure (ciphertext, nonce)

def aes_gcm_open (key_bytes ciphertext iv aad : Bytes) : Except String Bytes :=
  if iv.length ≠ NONCE_LEN then .error (nonce_error iv.length)
  else if Outside.valid_aes_key key_bytes = false then .error "invalid AES-256 key"
  else
    match Outside.open_in_place key_bytes iv aad ciphertext with
    | none => .error "AES-GCM open failed (auth tag mismatch)"
    | some plaintext => .ok plaintext

def p256_sign (pkcs8 message : Bytes) : VaultM Bytes := do
  refuse (Outside.from_pkcs8 pkcs8).isNone "parse signing key failed"
  let w ← ask
  match w.entropy.bind (Outside.ecdsa_sign pkcs8 · message) with
  | none => throw "ECDSA sign failed"
  | some sig => pure sig

def p256_sign_prehash (pkcs8 digest : Bytes) : Except String Bytes :=
  if digest.length ≠ 32 then
    .error ("prehash sign requires a 32-byte SHA-256 digest, got " ++ toString digest.length)
  else if Outside.from_pkcs8_der pkcs8 = false then .error "parse signing key (pkcs8) failed"
  else
    match Outside.sign_prehash pkcs8 digest with
    | none => .error "ECDSA prehash sign failed"
    | some sig => .ok sig

section

variable (handle : String)

def new_record (grant : KeyCreationGrant) (material : Bytes) (public_key : Option Bytes)
    (now : UInt64) : KeyRecord where
  handle := handle
  key_type := grant.key_type
  exportable := grant.exportable
  material := material
  public_key := public_key
  policy := normalise_policy grant.policy
  policy_version := 1
  created_at := now
  expires_at := satAdd64 now (normalise_policy grant.policy).lifecycle.ttl_seconds
  pending_profiles := []
  audit_next_seq := 0
  next_pending_id := 0

def decode_material (material_b64 : String) : Except String Bytes :=
  match Outside.decode material_b64 with
  | .error e => .error ("bad base64: " ++ e)
  | .ok b => if b.isEmpty then .error "material must not be empty" else .ok b

def prepare_record (material_b64 grant_jwt : String) (ctx : RequestContext) : VaultM (KeyRecord × String) := do
  refuse (handle == "") "handle must not be empty"
  refuse (handle.startsWith "__") "handles starting with '__' are reserved for internal use"
  let now ← now_secs
  let grant ← verify_grant grant_jwt ctx now
  refuse (handle != grant.scope && !handle.startsWith (grant.scope ++ "/"))
    ("handle '" ++ handle ++ "' is outside the grant scope '" ++ grant.scope ++ "'")
  refuse (owner_oidc_sub grant.policy.principals.owner != some grant.sub)
    "grant policy owner does not match the grant subject"
  let material ← Method.ofExcept (decode_material material_b64)
  let public_key ← Method.ofExcept (validate_material grant.key_type material)
  pure (new_record handle grant material public_key now, grant.sub)

def handle_create (material_b64 grant_jwt : String) (ctx : RequestContext) : VaultM VaultResponse := do
  let (record, owner_sub) ← prepare_record handle material_b64 grant_jwt ctx
  let existing ← Method.mapError ("kv get failed: " ++ ·) (kvGet (.record handle))
  refuse existing.isSome "handle already exists"
  audit_and_save record "CreateKey" (caller_str ctx) .Allowed ("owner=" ++ owner_sub)
  Method.mapError ("kv owner index: " ++ ·) (add_to_owner_index owner_sub handle)
  pure (.KeyCreated handle record.expires_at)

def handle_export (approvals : List ApprovalToken) (ctx : RequestContext) : VaultM VaultResponse := do
  let record ← load_record handle
  refuse (← expired record) "key has expired"
  refuse (!record.exportable) "key is not exportable"
  let caller := caller_str ctx
  -- export has no target measurement: the binding carries an empty one
  orDeny record "ExportKey" caller
    (evaluate_op record.policy .ExportKey handle approvals ctx (some ⟨"", record.policy_version⟩))
  audit_if_possible record "ExportKey" caller .Allowed ""
  pure (.KeyMaterial record.material record.expires_at)

def handle_delete (approvals : List ApprovalToken) (ctx : RequestContext) : VaultM VaultResponse := do
  let record ← load_record handle
  let caller := caller_str ctx
  orDeny record "DeleteKey" caller (evaluate_op record.policy .DeleteKey handle approvals ctx none)
  match owner_oidc_sub record.policy.principals.owner with
  | none => throw "policy owner is not OIDC; cannot index"
  | some owner_sub => do
    audit_if_possible record "DeleteKey" caller .Allowed ""
    let _ ← Method.mapError ("kv delete failed: " ++ ·) (kvDelete (.record handle))
    let _ ← (Method.attempt (remove_from_owner_index owner_sub handle) : VaultM (Except String Unit))
    pure .KeyDeleted

def require_role (policy : KeyPolicy) (ctx : RequestContext) : VaultM CallerRole := do
  match ← resolve_caller policy ctx with
  | some (_, role) => pure role
  | none => throw "caller is not in policy.principals"

def handle_update_policy (new_policy : KeyPolicy) (approvals : List ApprovalToken)
    (ctx : RequestContext) : VaultM VaultResponse := do
  let record ← load_record handle
  refuse (← expired record) "key has expired"
  let caller := caller_str ctx
  orDeny record "UpdatePolicy" caller (evaluate_op record.policy .UpdatePolicy handle approvals ctx none)
  let role ← require_role record.policy ctx
  let new_policy := normalise_policy new_policy
  orDeny record "UpdatePolicy" caller
    (Method.ofExcept (evaluate_policy_update record.policy new_policy role))
  let record := { record with policy := new_policy, policy_version := satSucc32 record.policy_version }
  audit_and_save record "UpdatePolicy" caller .Allowed ""
  pure (.PolicyUpdated record.policy_version)

def handle_get_policy (ctx : RequestContext) : VaultM VaultResponse := do
  let record ← load_record handle
  let _ ← require_role record.policy ctx
  pure (.Policy record.policy record.policy_version)

def handle_get_info (ctx : RequestContext) : VaultM VaultResponse := do
  let record ← load_record handle
  let _ ← require_role record.policy ctx
  pure (.KeyInfo ⟨record.handle, record.key_type, record.exportable, record.created_at,
    record.expires_at, record.policy_version, record.public_key⟩)

end

def list_entries : List String → VaultM (List KeyListEntry)
  | [] => pure []
  | handle :: rest => do
    match ← (Method.attempt (kvGet (.record handle)) : VaultM (Except String (Option Stored))) with
    | .ok (some (.record r)) => do return ⟨r.handle, r.key_type, r.expires_at⟩ :: (← list_entries rest)
    | _ => list_entries rest

def handle_list (ctx : RequestContext) : VaultM VaultResponse := do
  match ctx.oidc_claims with
  | none => throw "OIDC authentication required to list keys"
  | some claims => do
    let stored ← Method.mapError ("kv index read: " ++ ·) (kvGet (.index claims.sub))
    return .KeyList (← list_entries ((stored.map handles_of).getD []))

section

variable (handle : String)

def require_op (op : Operation) (expect_type : KeyType) (approvals : List ApprovalToken)
    (ctx : RequestContext) : VaultM KeyRecord := do
  let record ← load_record handle
  let caller := caller_str ctx
  let late ← expired record
  orDeny record op.debug caller (refuse late "key has expired")
  orDeny record op.debug caller (refuse (record.key_type != expect_type)
    ("key " ++ handle ++ " has type " ++ record.key_type.debug ++ ", op " ++ op.debug ++ " requires " ++
      expect_type.debug))
  orDeny record op.debug caller (evaluate_op record.policy op handle approvals ctx none)
  audit_and_save record op.debug caller .Allowed ""
  pure record

def decode_aad : Option String → VaultM Bytes
  | some s => decode_or "aad" s
  | none => pure []

def decode_iv : Option String → VaultM (Option Bytes)
  | some s => do return some (← decode_or "iv" s)
  | none => pure none

def handle_wrap (plaintext_b64 : String) (aad_b64 iv_b64 : Option String)
    (approvals : List ApprovalToken) (ctx : RequestContext) : VaultM VaultResponse := do
  let record ← require_op handle .Wrap .Aes256GcmKey approvals ctx
  let plaintext ← decode_or "plaintext" plaintext_b64
  let aad ← decode_aad aad_b64
  let iv_vec ← decode_iv iv_b64
  let (ciphertext, iv) ← aes_gcm_seal record.material plaintext aad iv_vec
  pure (.Wrapped ciphertext iv)

def handle_unwrap (ciphertext_b64 iv_b64 : String) (aad_b64 : Option String)
    (approvals : List ApprovalToken) (ctx : RequestContext) : VaultM VaultResponse := do
  let record ← require_op handle .Unwrap .Aes256GcmKey approvals ctx
  let ciphertext ← decode_or "ciphertext" ciphertext_b64
  let iv ← decode_or "iv" iv_b64
  let aad ← decode_aad aad_b64
  let plaintext ← Method.ofExcept (aes_gcm_open record.material ciphertext iv aad)
  pure (.Unwrapped plaintext)

def handle_sign (message_b64 : String) (prehashed : Bool) (approvals : List ApprovalToken)
    (ctx : RequestContext) : VaultM VaultResponse := do
  let record ← require_op handle .Sign .P256SigningKey approvals ctx
  let message ← decode_or "message" message_b64
  let signature ← if prehashed then Method.ofExcept (p256_sign_prehash record.material message)
    else p256_sign record.material message
  pure (.Signature signature "ES256")

def handle_mac (message_b64 : String) (approvals : List ApprovalToken) (ctx : RequestContext) :
    VaultM VaultResponse := do
  let record ← require_op handle .Mac .HmacSha256Key approvals ctx
  let message ← decode_or "message" message_b64
  pure (.MacTag (Outside.hmac_sha256 record.material message) "HMAC-SHA-256")

def approval_ttl (ttl_seconds : UInt64) : UInt64 :=
  if ttl_seconds = 0 then DEFAULT_APPROVAL_TOKEN_TTL_SECONDS
  else if MAX_APPROVAL_TOKEN_TTL_SECONDS < ttl_seconds then MAX_APPROVAL_TOKEN_TTL_SECONDS
  else ttl_seconds

def handle_issue_approval (op : Operation) (ttl_seconds : UInt64) (ctx : RequestContext) : VaultM VaultResponse := do
  let record ← load_record handle
  match ctx.oidc_claims with
  | none => do
    -- here the text in the log is not the text of the answer
    audit_if_possible record "IssueApprovalToken" "anonymous" .Denied "no OIDC claims"
    throw "OIDC authentication required to issue approval tokens"
  | some claims => do
    let caller := "oidc:" ++ claims.sub
    match record.policy.principals.managers.findIdx? (oidc_matches · claims) with
    | none => deny record "IssueApprovalToken" caller "caller is not an OIDC manager of this key"
    | some i => do
      let ttl := approval_ttl ttl_seconds
      let now ← now_secs
      let token ← issue_approval_token handle op (UInt32.ofNat i) claims.sub now ttl
      audit_if_possible record "IssueApprovalToken" caller .Allowed
        ("op=" ++ op.debug ++ " ttl=" ++ toString ttl.toNat ++ "s")
      pure (.ApprovalTokenIssued token)

def audit_limit (limit : UInt32) : UInt32 := if limit = 0 then 256 else if limit ≤ 1024 then limit else 1024

def handle_read_audit (since_seq : UInt64) (limit : UInt32) (ctx : RequestContext) : VaultM VaultResponse := do
  let record ← load_record handle
  let _ ← require_role record.policy ctx
  let (entries, next_seq) ← read handle record.audit_next_seq since_seq (audit_limit limit)
  pure (.AuditLog entries next_seq)

end

/-! ## Pending attestation profiles -/

def check_pending_role (m : Mutability) (role : CallerRole) : Except String Unit :=
  match m.allowed role with
  | none => .error ("caller role " ++ role.debug ++ " cannot stage/revoke pending profiles")
  | some allowed =>
    if m.immutable.contains .PendingProfiles then
      .error "PolicyField::PendingProfiles is immutable on this key"
    else if allowed.contains .PendingProfiles then .ok ()
    else .error ("caller role " ++ role.debug ++ " is not allowed to change PendingProfiles")

section

variable (record : KeyRecord)

def check_pending_mutability (ctx : RequestContext) : VaultM CallerRole := do
  let role ← require_role record.policy ctx
  Method.ofExcept (check_pending_role record.policy.mutability role)
  pure role

inductive StagerIdentity where
  | Principal
  | Platform
deriving DecidableEq

/-- A manager-role bearer who is no principal is the platform. -/
def check_stage_authority (ctx : RequestContext) : VaultM StagerIdentity := do
  match ← resolve_caller record.policy ctx with
  | some _ => do
    let _ ← check_pending_mutability record ctx
    pure .Principal
  | none => do
    refuse (!(ctx.oidc_claims.map (·.is_manager)).getD false) "caller is not in policy.principals"
    refuse (record.policy.mutability.immutable.contains .PendingProfiles)
      "PolicyField::PendingProfiles is immutable on this key"
    pure .Platform

def accepts_already (tees : List Principal) (profile : AttestationProfile) : Bool := tees.contains (.Tee profile)

/-- Some accepted profile differs from `profile` in the runtime only. -/
def rolls_from (tees : List Principal) (profile : AttestationProfile) : Bool :=
  tees.any fun p => match p with | .Tee t => runtime_only_delta profile t | _ => false

def keeps_oids (policy : KeyPolicy) (profile : AttestationProfile) : Bool :=
  (key_required_oids policy).all fun oid => profile.required_oids.any (·.oid == oid)

def auto_migrates (stager : StagerIdentity) (profile : AttestationProfile) : Bool :=
  decide (stager = .Platform) && record.policy.lifecycle.auto_migrate_to_next_attestation_profile &&
    rolls_from record.policy.principals.tees profile && keeps_oids record.policy profile

def push_tee (profile : AttestationProfile) : KeyRecord :=
  { record with
    policy := { record.policy with
      principals := { record.policy.principals with
        tees := record.policy.principals.tees ++ [.Tee profile] } }
    policy_version := satSucc32 record.policy_version }

def push_pending (pending : PendingProfile) : KeyRecord :=
  { record with
    next_pending_id := satSucc32 record.next_pending_id
    pending_profiles := record.pending_profiles ++ [pending] }

def tees_slot : String := "tees[" ++ toString record.policy.principals.tees.length ++ "]"

def stage_new (caller : String) (stager : StagerIdentity) (profile : AttestationProfile)
    (source : PendingProfileSource) (ctx : RequestContext) : VaultM VaultResponse := do
  orDeny record "StagePendingProfile" caller
    (refuse (decide (MAX_PENDING_PROFILES ≤ record.pending_profiles.length))
      ("too many pending profiles (max " ++ toString MAX_PENDING_PROFILES ++ "): promote or revoke some first"))
  let now ← now_secs
  let pending_id := record.next_pending_id
  let record := push_pending record
    { id := pending_id
      profile := profile
      -- what the platform stages is a platform build, whatever the caller claimed
      source := if stager = .Platform then .PlatformBuild else source
      staged_at := now
      staged_by_sub := (ctx.oidc_claims.map (·.sub)).getD "tee"
      staged_by_platform := decide (stager = .Platform) }
  audit_and_save record "StagePendingProfile" caller .Allowed ("id=" ++ toString pending_id.toNat)
  pure (.PendingProfileStaged pending_id false record.policy_version)

end

def handle_stage_pending (handle : String) (profile : AttestationProfile) (source : PendingProfileSource)
    (ctx : RequestContext) : VaultM VaultResponse := do
  let record ← load_record handle
  let caller := caller_str ctx
  let stager ← orDeny record "StagePendingProfile" caller (check_stage_authority record ctx)
  let profile := normalise_profile profile
  if accepts_already record.policy.principals.tees profile then
    pure (.PendingProfileStaged 0 true record.policy_version)
  else
    match record.pending_profiles.find? (·.profile == profile) with
    | some existing => pure (.PendingProfileStaged existing.id false record.policy_version)
    | none =>
      if auto_migrates record stager profile then do
        audit_and_save (push_tee record profile) "AutoMigrateProfile" caller .Allowed
          ("runtime-only delta -> " ++ tees_slot record)
        pure (.PendingProfileStaged 0 true (push_tee record profile).policy_version)
      else stage_new record caller stager profile source ctx

def handle_list_pending (handle : String) (ctx : RequestContext) : VaultM VaultResponse := do
  let record ← load_record handle
  let _ ← require_role record.policy ctx
  pure (.PendingProfileList record.pending_profiles)

def find_pending (record : KeyRecord) (pending_id : UInt32) : Option PendingProfile :=
  record.pending_profiles.find? (·.id == pending_id)

def missing_oid (policy : KeyPolicy) (profile : AttestationProfile) : Option String :=
  (key_required_oids policy).find? fun oid => !profile.required_oids.any (·.oid == oid)

def promote (record : KeyRecord) (pending_id : UInt32) (profile : AttestationProfile) : KeyRecord :=
  push_tee { record with pending_profiles := record.pending_profiles.eraseP (·.id == pending_id) } profile

def handle_promote_pending (handle : String) (pending_id : UInt32) (approvals : List ApprovalToken)
    (ctx : RequestContext) : VaultM VaultResponse := do
  let record ← load_record handle
  let caller := caller_str ctx
  -- an unknown id has no binding, so that an operation-bound step-up fails closed
  let op_binding := (find_pending record pending_id).map fun p =>
    (⟨profile_binding_digest p.profile, record.policy_version⟩ : OpBinding)
  orDeny record "PromotePendingProfile" caller
    (evaluate_op record.policy .PromoteProfile handle approvals ctx op_binding)
  match find_pending record pending_id with
  | none =>
    deny record "PromotePendingProfile" caller
      ("pending profile id " ++ toString pending_id.toNat ++ " not found")
  | some pending =>
    match missing_oid record.policy pending.profile with
    | some oid =>
      deny record "PromotePendingProfile" caller ("pending profile is missing required OID " ++ oid ++
        ": required_oids are append/strengthen-only")
    | none => do
      let promoted := promote record pending_id pending.profile
      audit_and_save promoted "PromotePendingProfile" caller .Allowed
        ("id=" ++ toString pending_id.toNat ++ " -> " ++ tees_slot record)
      pure (.PendingProfilePromoted promoted.policy_version)

def revoke (record : KeyRecord) (pending_id : UInt32) : KeyRecord :=
  { record with pending_profiles := record.pending_profiles.filter (·.id != pending_id) }

def handle_revoke_pending (handle : String) (pending_id : UInt32) (ctx : RequestContext) : VaultM VaultResponse := do
  let record ← load_record handle
  let caller := caller_str ctx
  let _ ← orDeny record "RevokePendingProfile" caller (check_pending_mutability record ctx)
  let revoked := revoke record pending_id
  -- from here on the refused record, too, is the one without the profiles
  orDeny revoked "RevokePendingProfile" caller
    (refuse (decide (revoked.pending_profiles.length = record.pending_profiles.length))
      ("pending profile id " ++ toString pending_id.toNat ++ " not found"))
  audit_and_save revoked "RevokePendingProfile" caller .Allowed ("id=" ++ toString pending_id.toNat)
  pure .PendingProfileRevoked

def dispatch (ctx : RequestContext) : VaultRequest → VaultM VaultResponse
  | .CreateKey handle material_b64 grant => handle_create handle material_b64 grant ctx
  | .ExportKey handle approvals => handle_export handle approvals ctx
  | .DeleteKey handle approvals => handle_delete handle approvals ctx
  | .UpdatePolicy handle new_policy approvals => handle_update_policy handle new_policy approvals ctx
  | .GetPolicy handle => handle_get_policy handle ctx
  | .GetKeyInfo handle => handle_get_info handle ctx
  | .ListKeys => handle_list ctx
  | .Wrap handle plaintext_b64 aad_b64 iv_b64 approvals =>
    handle_wrap handle plaintext_b64 aad_b64 iv_b64 approvals ctx
  | .Unwrap handle ciphertext_b64 iv_b64 aad_b64 approvals =>
    handle_unwrap handle ciphertext_b64 iv_b64 aad_b64 approvals ctx
  | .Sign handle message_b64 prehashed approvals => handle_sign handle message_b64 prehashed approvals ctx
  | .Mac handle message_b64 approvals => handle_mac handle message_b64 approvals ctx
  | .IssueApprovalToken handle op ttl_seconds => handle_issue_approval handle op ttl_seconds ctx
  | .ReadAuditLog handle since_seq limit => handle_read_audit handle since_seq limit ctx
  | .StagePendingProfile handle profile source => handle_stage_pending handle profile source ctx
  | .ListPendingProfiles handle => handle_list_pending handle ctx
  | .PromotePendingProfile handle pending_id approvals =>
    handle_promote_pending handle pending_id approvals ctx
  | .RevokePendingProfile handle pending_id => handle_revoke_pending handle pending_id ctx

structure Call where
  request : VaultRequest
  ctx : RequestContext
  world : Nat → World

def serve (c : Call) (kv : Table) : VaultResponse × Table :=
  match (dispatch c.ctx c.request).exec ⟨kv, c.world⟩ with
  | (.ok response, s) => (response, s.kv)
  | (.error e, s) => (.Error e, s.kv)

end EnclaveOs.Vault
