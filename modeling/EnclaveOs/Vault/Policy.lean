import EnclaveOs.Vault.State

/-!
# Policy evaluation (`policy.rs`, `quote.rs`)
-/

namespace EnclaveOs.Vault

open Lib
open Outside (hex_encode sha256 to_lowercase)

def eq_ignore_ascii_case (a b : String) : Bool := a.toLower == b.toLower

def utf8 (s : String) : Bytes := s.toUTF8.data.toList

/-! ## What an approval is bound to -/

section

variable [Outside]

def VAULT_APPROVAL_DOMAIN : String := "privasys-vault-approval/v1"

structure OpBinding where
  measurement_digest_hex : String
  policy_version : UInt32

def measurement_lines : Measurement → List String
  | .Mrenclave v => ["mrenclave:" ++ to_lowercase v]
  | .Tdx mrtd rtmr1 rtmr2 =>
    ["mrtd:" ++ to_lowercase mrtd, "rtmr1:" ++ to_lowercase rtmr1, "rtmr2:" ++ to_lowercase rtmr2]

def profile_binding_digest (profile : AttestationProfile) : String :=
  let parts := profile.measurements.flatMap measurement_lines ++
    profile.required_oids.map fun o => "oid:" ++ o.oid ++ "=" ++ to_lowercase o.value
  hex_encode (sha256 (utf8 ("\n".intercalate (parts.insertionSort (· ≤ ·)))))

def vault_op_binding (handle measurement_digest_hex : String) (policy_version : UInt32) (nonce : String)
    (exp : UInt64) : String :=
  let input := "\n".intercalate [VAULT_APPROVAL_DOMAIN, handle, measurement_digest_hex,
    toString policy_version.toNat, nonce, toString exp.toNat]
  Outside.encode (sha256 (utf8 input))

/-! ## Who is calling -/

def SGX_QUOTE_OID_STR : String := "1.2.840.113741.1.13.1.0"
def TDX_QUOTE_OID_STR : String := "1.2.840.113741.1.5.5.1.6"
def APP_ID_OID_STR : String := "1.3.6.1.4.1.65230.4.1"

def CLAIM_OIDS : List String :=
  ["1.3.6.1.4.1.65230.2.1", "1.3.6.1.4.1.65230.2.2", "1.3.6.1.4.1.65230.2.4", "1.3.6.1.4.1.65230.2.3",
    "1.3.6.1.4.1.65230.5.1", "1.3.6.1.4.1.65230.4.2", APP_ID_OID_STR]

structure PeerEvidence where
  evidence : Bytes
  oid_claims : List (String × String)
  pubkey_raw : Bytes

def dissect_peer_cert (der quote : Bytes) : Except String PeerEvidence :=
  match Outside.from_der der with
  | .error e => .error ("invalid X.509 DER: " ++ e)
  | .ok cert =>
    if cert.extensions.any fun x => x.1 == SGX_QUOTE_OID_STR || x.1 == TDX_QUOTE_OID_STR then
      .error "v1 RA-TLS certificate (evidence inside the certificate) is not accepted"
    else if cert.subject_public_key.isEmpty then .error "empty subject public key in certificate"
    else
      .ok ⟨quote, (cert.extensions.filter fun x => CLAIM_OIDS.contains x.1).map
        fun x => (x.1, hex_encode x.2), cert.subject_public_key⟩

inductive CallerRole where
  | Owner
  | Manager
  | Auditor
  | Tee
deriving DecidableEq

def CallerRole.debug : CallerRole → String
  | .Owner => "Owner"
  | .Manager => "Manager"
  | .Auditor => "Auditor"
  | .Tee => "Tee"

def has_required_roles (claims : OidcClaims) (required_roles : List String) : Bool :=
  required_roles.all fun r => claims.roles.any fun c => eq_ignore_ascii_case c r

/-- Without a `sub`: everyone with the roles, and nobody if there are none. -/
def oidc_matches (principal : Principal) (claims : OidcClaims) : Bool :=
  match principal with
  | .Oidc _ sub required_roles =>
    if sub = "" then !required_roles.isEmpty && has_required_roles claims required_roles
    else sub == claims.sub && has_required_roles claims required_roles
  | .Tee _ | .Fido2 _ _ => false

def measurement_matches (identity : QuoteIdentity) (allowed : List Measurement) : Bool :=
  let m := to_lowercase identity.measurement
  allowed.any fun am =>
    match am, identity.tee with
    | .Mrenclave s, .Sgx => to_lowercase s == m
    | .Tdx mrtd rtmr1 rtmr2, .Tdx =>
      match identity.rtmr1, identity.rtmr2 with
      | some r1, some r2 =>
        to_lowercase mrtd == m && to_lowercase rtmr1 == to_lowercase r1 && to_lowercase rtmr2 == to_lowercase r2
      | _, _ => false
    | _, _ => false

/-- The floor always passes, `Revoked` never, others if listed. -/
def tcb_status_acceptable (status : String) (acceptable : List String) : Bool :=
  if status = "" ∨ status = "Revoked" then false
  else status == "UpToDate" || status == "SWHardeningNeeded" || acceptable.contains status

def evidence_matches (profile : AttestationProfile) (evidence : PeerEvidence) (statuses : List String) : Bool :=
  statuses.all (tcb_status_acceptable · profile.acceptable_tcb_statuses) &&
    (match Outside.parse_quote evidence.evidence with
      | .error _ => false
      | .ok identity => measurement_matches identity profile.measurements) &&
    profile.required_oids.all fun req => evidence.oid_claims.contains (req.oid, req.value)

def tee_matches (profile : AttestationProfile) (peer_der : Bytes) (peer_evidence : Option Bytes) : VaultM Bool :=
  match peer_evidence with
  | none => pure false
  | some quote =>
    match dissect_peer_cert peer_der quote with
    | .error _ => pure false
    | .ok evidence =>
      let urls := profile.attestation_servers.map (·.url)
      -- a TEE principal must list at least one attestation server
      if urls.isEmpty then pure false
      else do
        let w ← ask
        match w.verify_quote_statuses evidence.evidence urls with
        | .error _ => pure false
        | .ok statuses => pure (evidence_matches profile evidence statuses)

def find_tee (peer_der : Bytes) (peer_evidence : Option Bytes) : Nat → List Principal → VaultM (Option Nat)
  | _, [] => pure none
  | i, .Tee profile :: ps => do
    if ← tee_matches profile peer_der peer_evidence then pure (some i)
    else find_tee peer_der peer_evidence (i + 1) ps
  | i, _ :: ps => find_tee peer_der peer_evidence (i + 1) ps

def resolve_oidc (principals : PrincipalSet) (claims : OidcClaims) : Option (PrincipalRef × CallerRole) :=
  if oidc_matches principals.owner claims then some (.Owner, .Owner)
  else
    match principals.managers.findIdx? (oidc_matches · claims) with
    | some i => some (.Manager (UInt32.ofNat i), .Manager)
    | none =>
      match principals.auditors.findIdx? (oidc_matches · claims) with
      | some i => some (.Auditor (UInt32.ofNat i), .Auditor)
      | none => none

/-- OIDC first, then mutual RA-TLS. -/
def resolve_caller (policy : KeyPolicy) (ctx : RequestContext) : VaultM (Option (PrincipalRef × CallerRole)) :=
  match ctx.oidc_claims.bind (resolve_oidc policy.principals) with
  | some r => pure (some r)
  | none =>
    match ctx.peer_cert_der with
    | none => pure none
    | some peer_der => do
      match ← find_tee peer_der ctx.peer_evidence 0 policy.principals.tees with
      | some i => pure (some (.Tee (UInt32.ofNat i), .Tee))
      | none => pure none

/-! ## Conditions -/

/-- The approvals one by one, with the reason of the last refusal. -/
def accept_token (handle : String) (op : Operation) (manager : UInt32) (distinct_from : Option String)
    (fresh_for_seconds now : UInt64) : List ApprovalToken → Option String → VaultM Unit
  | [], some e => throw ("ManagerApproval: no token accepted (" ++ e ++ ")")
  | [], none => throw "ManagerApproval: no approval token supplied"
  | token :: rest, _ => do
    match ← (Method.attempt (verify_approval_token token handle op manager distinct_from
        fresh_for_seconds now) : VaultM (Except String Unit)) with
    | .ok () => pure ()
    | .error e => accept_token handle op manager distinct_from fresh_for_seconds now rest (some e)

def co_sign (manager : Principal) (ctx : RequestContext) : Except String (Option String) :=
  match manager with
  | .Oidc _ sub _ =>
    if sub = "" then
      match ctx.oidc_claims with
      | some c => .ok (some c.sub)
      | none => .error "ManagerApproval: role-based co-sign requires an authenticated OIDC proposer"
    else .ok none
  | .Tee _ | .Fido2 _ _ => .error "ManagerApproval: only OIDC managers can issue approval tokens"

def check_time_window (not_before not_after now : UInt64) : Except String Unit :=
  if not_before ≠ 0 ∧ now < not_before then
    .error ("TimeWindow: now=" ++ toString now.toNat ++ " before not_before=" ++ toString not_before.toNat)
  else if not_after ≠ 0 ∧ not_after < now then
    .error ("TimeWindow: now=" ++ toString now.toNat ++ " after not_after=" ++ toString not_after.toNat)
  else .ok ()

def has_amr (claims : OidcClaims) (required : List String) : Bool :=
  required.all fun r => claims.amr.any fun m => eq_ignore_ascii_case m r

def check_freshness (claims : OidcClaims) (fresh_for_seconds now : UInt64) : Except String Unit :=
  if 0 < fresh_for_seconds then
    if claims.iat = 0 then .error "OidcStepUp: token has no iat; cannot prove freshness"
    else if fresh_for_seconds < satSub64 now claims.iat then
      .error ("OidcStepUp: token age " ++ toString (satSub64 now claims.iat).toNat ++
        "s exceeds fresh_for_seconds=" ++ toString fresh_for_seconds.toNat)
    else .ok ()
  else .ok ()

def check_binding (claims : OidcClaims) (handle : String) (op_binding : Option OpBinding) : Except String Unit :=
  match op_binding with
  | none => .error "OidcStepUp: operation_bound required but this operation carries no binding context"
  | some binding =>
    match claims.vault_op with
    | none => .error "OidcStepUp: token has no vault_op binding claim"
    | some vault_op =>
      match claims.nonce with
      | none => .error "OidcStepUp: token has no nonce claim"
      | some nonce =>
        if vault_op ≠ vault_op_binding handle binding.measurement_digest_hex binding.policy_version nonce
            claims.exp then
          .error ("OidcStepUp: vault_op does not bind this operation " ++
            "(handle/measurement/policy_version/nonce/exp mismatch)")
        else .ok ()

def check_step_up (required_amr : List String) (operation_bound : Bool) (fresh_for_seconds now : UInt64)
    (handle : String) (ctx : RequestContext) (op_binding : Option OpBinding) : Except String Unit :=
  match ctx.oidc_claims with
  | none => .error "OidcStepUp: no OIDC bearer in request"
  | some claims =>
    if has_amr claims required_amr then do
      check_freshness claims fresh_for_seconds now
      if operation_bound then check_binding claims handle op_binding else .ok ()
    else
      .error ("OidcStepUp: token amr " ++ Outside.debug_strings claims.amr ++
        " does not satisfy required " ++ Outside.debug_strings required_amr)

section

variable (policy : KeyPolicy) (op : Operation) (handle : String) (approvals : List ApprovalToken) (ctx : RequestContext)

/-- Against the managers of the policy in force. -/
def check_manager_approval (now : UInt64) (manager : UInt32)
    (fresh_for_seconds : UInt64) : VaultM Unit :=
  match policy.principals.managers[manager.toNat]? with
  | none => throw ("ManagerApproval: manager index " ++ toString manager.toNat ++ " out of range")
  | some mgr => do
    let distinct_from ← Method.ofExcept (co_sign mgr ctx)
    accept_token handle op manager distinct_from fresh_for_seconds now approvals none

def check_condition (op_binding : Option OpBinding) (now : UInt64) : Condition → VaultM Unit
  | .TimeWindow not_before not_after => Method.ofExcept (check_time_window not_before not_after now)
  | .AttestationMatches profile =>
    match ctx.peer_cert_der with
    | none => throw "AttestationMatches: no peer RA-TLS cert in request"
    | some peer => do
      if ← tee_matches profile peer ctx.peer_evidence then pure ()
      else throw ("AttestationMatches: peer does not match profile '" ++ profile.name ++ "'")
  | .ManagerApproval manager fresh_for_seconds =>
    check_manager_approval policy op handle approvals ctx now manager fresh_for_seconds
  | .OidcStepUp required_amr operation_bound fresh_for_seconds =>
    Method.ofExcept (check_step_up required_amr operation_bound fresh_for_seconds now handle ctx op_binding)

end

def evaluate_conditions (conditions : List Condition) (policy : KeyPolicy) (op : Operation)
    (handle : String) (approvals : List ApprovalToken) (ctx : RequestContext)
    (op_binding : Option OpBinding) : VaultM Unit := do
  let now ← now_secs
  conditions.forM (check_condition policy op handle approvals ctx op_binding now)

/-! ## Rules -/

def ref_grants : PrincipalRef → PrincipalRef → Bool
  | .Owner, .Owner => true
  | .Manager a, .Manager b => a == b
  | .Auditor a, .Auditor b => a == b
  | .Tee a, .Tee b => a == b
  | .AnyTee, .Tee _ => true
  | _, _ => false

def rule_grants_to (rule : OperationRule) (caller : PrincipalRef) : Bool := rule.principals.any (ref_grants · caller)

def try_rules (policy : KeyPolicy) (op : Operation) (handle : String) (approvals : List ApprovalToken)
    (ctx : RequestContext) (op_binding : Option OpBinding) (caller_ref : PrincipalRef) :
    List OperationRule → Option String → VaultM Unit
  | [], some e =>
    throw ("no OperationRule grants " ++ op.debug ++ " to caller with all conditions met: " ++ e)
  | [], none => throw ("caller is in policy.principals but no OperationRule grants " ++ op.debug)
  | rule :: rest, last_err =>
    if rule.ops.contains op && rule_grants_to rule caller_ref then do
      match ← (Method.attempt (evaluate_conditions rule.requires policy op handle approvals ctx
          op_binding) : VaultM (Except String Unit)) with
      | .ok () => pure ()
      | .error e => try_rules policy op handle approvals ctx op_binding caller_ref rest (some e)
    else try_rules policy op handle approvals ctx op_binding caller_ref rest last_err

def evaluate_op (policy : KeyPolicy) (op : Operation) (handle : String) (approvals : List ApprovalToken)
    (ctx : RequestContext) (op_binding : Option OpBinding) : VaultM Unit := do
  match ← resolve_caller policy ctx with
  | none => throw ("caller is not in policy.principals (no OIDC subject or RA-TLS TEE " ++
      "matches the key's PrincipalSet)")
  | some (caller_ref, _) =>
    try_rules policy op handle approvals ctx op_binding caller_ref policy.operations none

end

/-! ## Updates of a policy -/

def same_elements {α : Type} [DecidableEq α] (a b : List α) : Bool := a.all (b.contains ·) && b.all (a.contains ·)

/-- All SGX, all TDX, or neither. -/
def family (ms : List Measurement) : Option Bool :=
  match ms.map fun m => match m with | .Mrenclave _ => true | .Tdx _ _ _ => false with
  | [] => none
  | first :: rest => if rest.all (· == first) then some first else none

def runtime_only_delta (staged active : AttestationProfile) : Bool :=
  same_elements staged.required_oids active.required_oids &&
    same_elements staged.attestation_servers active.attestation_servers &&
    same_elements staged.acceptable_tcb_statuses active.acceptable_tcb_statuses &&
    (family staged.measurements).isSome && family staged.measurements == family active.measurements &&
    staged.measurements != active.measurements

def tee_oids (tees : List Principal) : List (List OidRequirement) :=
  tees.filterMap fun p => match p with | .Tee profile => some profile.required_oids | _ => none

def key_required_oids (policy : KeyPolicy) : List String :=
  match tee_oids policy.principals.tees with
  | [] => []
  | first :: rest =>
    rest.foldl (fun acc reqs => acc.filter fun oid => reqs.any (·.oid == oid)) (first.map (·.oid))

def changed {α : Type} [DecidableEq α] (field : PolicyField) (old new : α) : List PolicyField :=
  if old = new then [] else [field]

def diff_policy_fields (old new : KeyPolicy) : List PolicyField :=
  [changed .Owner old.principals.owner new.principals.owner,
    changed .Managers old.principals.managers new.principals.managers,
    changed .Auditors old.principals.auditors new.principals.auditors,
    changed .Tees old.principals.tees new.principals.tees,
    changed .Operations old.operations new.operations,
    changed .Lifecycle old.lifecycle new.lifecycle,
    changed .Mutability old.mutability new.mutability].flatten

def Mutability.allowed (m : Mutability) : CallerRole → Option (List PolicyField)
  | .Owner => some m.owner_can
  | .Manager => some m.manager_can
  | .Auditor | .Tee => none

def check_fields (m : Mutability) (role : CallerRole) (allowed : List PolicyField) :
    List PolicyField → Except String Unit
  | [] => .ok ()
  | field :: rest =>
    if m.immutable.contains field then .error ("policy field " ++ field.debug ++ " is immutable")
    else if allowed.contains field then check_fields m role allowed rest
    else
      .error ("caller role " ++ role.debug ++ " is not allowed to change policy field " ++ field.debug)

def check_standing_rules (old new : KeyPolicy) (role : CallerRole) : Except String Unit :=
  match (key_required_oids old).find? fun oid => !(key_required_oids new).contains oid with
  | some oid =>
    .error ("required OID " ++ oid ++ " cannot be dropped: required_oids are append/strengthen-only")
  | none =>
    if old.lifecycle.auto_migrate_to_next_attestation_profile ≠
        new.lifecycle.auto_migrate_to_next_attestation_profile ∧ role ≠ .Owner then
      .error ("lifecycle.auto_migrate_to_next_attestation_profile may only be changed by the key owner")
    else .ok ()

def evaluate_policy_update (old new : KeyPolicy) (role : CallerRole) : Except String Unit :=
  let fields := diff_policy_fields old new
  if fields.isEmpty then .ok ()
  else
    match old.mutability.allowed role with
    | none => .error ("caller role " ++ role.debug ++ " is not allowed to change any policy field")
    | some allowed => do
      check_fields old.mutability role allowed fields
      check_standing_rules old new role

end EnclaveOs.Vault
