import EnclaveOs.Lib.Bytes

/-!
# Vault requests, policies and records (`types.rs`)
-/

namespace EnclaveOs.Vault

open Lib

def MAX_KEY_TTL_SECONDS : UInt64 := 90 * 24 * 60 * 60

def DEFAULT_KEY_TTL_SECONDS : UInt64 := 30 * 24 * 60 * 60

def MAX_APPROVAL_TOKEN_TTL_SECONDS : UInt64 := 60 * 60

def DEFAULT_APPROVAL_TOKEN_TTL_SECONDS : UInt64 := 5 * 60

def MAX_PENDING_PROFILES : Nat := 16

/-! ## Keys and operations -/

inductive KeyType where
  | RawShare
  | Aes256GcmKey
  | P256SigningKey
  | HmacSha256Key
deriving DecidableEq

def KeyType.debug : KeyType → String
  | .RawShare => "RawShare"
  | .Aes256GcmKey => "Aes256GcmKey"
  | .P256SigningKey => "P256SigningKey"
  | .HmacSha256Key => "HmacSha256Key"

inductive Operation where
  | ExportKey
  | DeleteKey
  | UpdatePolicy
  | Wrap
  | Unwrap
  | Sign
  | Mac
  | PromoteProfile
deriving DecidableEq

def Operation.debug : Operation → String
  | .ExportKey => "ExportKey"
  | .DeleteKey => "DeleteKey"
  | .UpdatePolicy => "UpdatePolicy"
  | .Wrap => "Wrap"
  | .Unwrap => "Unwrap"
  | .Sign => "Sign"
  | .Mac => "Mac"
  | .PromoteProfile => "PromoteProfile"

inductive Measurement where
  | Mrenclave (s : String)
  | Tdx (mrtd rtmr1 rtmr2 : String)
deriving DecidableEq

structure AttestationServer where
  url : String
  pinned_spki_sha256_hex : Option String
deriving DecidableEq

structure OidRequirement where
  oid : String
  value : String
deriving DecidableEq

structure AttestationProfile where
  name : String
  measurements : List Measurement
  attestation_servers : List AttestationServer
  required_oids : List OidRequirement
  acceptable_tcb_statuses : List String
deriving DecidableEq

/-- An OIDC principal without a `sub` stands for everyone with its roles. -/
inductive Principal where
  | Oidc (issuer sub : String) (required_roles : List String)
  | Fido2 (rp_id credential_id_b64 : String)
  | Tee (profile : AttestationProfile)
deriving DecidableEq

inductive PrincipalRef where
  | Owner
  | Manager (i : UInt32)
  | Auditor (i : UInt32)
  | Tee (i : UInt32)
  | AnyTee
deriving DecidableEq

structure PrincipalSet where
  owner : Principal
  managers : List Principal
  auditors : List Principal
  tees : List Principal
deriving DecidableEq

inductive Condition where
  | AttestationMatches (profile : AttestationProfile)
  | ManagerApproval (manager : UInt32) (fresh_for_seconds : UInt64)
  | TimeWindow (not_before not_after : UInt64)
  | OidcStepUp (required_amr : List String) (operation_bound : Bool) (fresh_for_seconds : UInt64)
deriving DecidableEq

structure OperationRule where
  ops : List Operation
  principals : List PrincipalRef
  requires : List Condition
deriving DecidableEq

structure ApprovalToken where
  jwt : String
deriving DecidableEq

structure ApprovalClaims where
  iss : String
  handle : String
  op : Operation
  manager : UInt32
  /-- OIDC `sub` of the manager who authenticated to issue this token. -/
  approver_sub : String
  iat : UInt64
  exp : UInt64
deriving DecidableEq

structure Lifecycle where
  ttl_seconds : UInt64
  auto_migrate_to_next_attestation_profile : Bool
deriving DecidableEq

def Lifecycle.default : Lifecycle where
  ttl_seconds := DEFAULT_KEY_TTL_SECONDS
  auto_migrate_to_next_attestation_profile := false

inductive PolicyField where
  | Owner
  | Managers
  | Auditors
  | Tees
  | Operations
  | Lifecycle
  | Mutability
  | PendingProfiles
deriving DecidableEq

def PolicyField.debug : PolicyField → String
  | .Owner => "Owner"
  | .Managers => "Managers"
  | .Auditors => "Auditors"
  | .Tees => "Tees"
  | .Operations => "Operations"
  | .Lifecycle => "Lifecycle"
  | .Mutability => "Mutability"
  | .PendingProfiles => "PendingProfiles"

structure Mutability where
  owner_can : List PolicyField
  manager_can : List PolicyField
  immutable : List PolicyField
deriving DecidableEq

def Mutability.default : Mutability where
  owner_can := [.Managers, .Auditors, .Tees, .Operations, .Lifecycle, .PendingProfiles]
  manager_can := []
  immutable := [.Owner, .Mutability]

structure KeyPolicy where
  version : UInt32
  principals : PrincipalSet
  operations : List OperationRule
  mutability : Mutability
  lifecycle : Lifecycle
deriving DecidableEq

inductive PendingProfileSource where
  | PlatformBuild
  | ManualImport
deriving DecidableEq

structure PendingProfile where
  id : UInt32
  profile : AttestationProfile
  source : PendingProfileSource
  staged_at : UInt64
  staged_by_sub : String
  staged_by_platform : Bool
deriving DecidableEq

inductive AuditDecision where
  | Allowed
  | Denied
deriving DecidableEq

structure AuditEntry where
  seq : UInt64
  ts : UInt64
  op : String
  caller : String
  decision : AuditDecision
  reason : String
deriving DecidableEq

structure KeyRecord where
  handle : String
  key_type : KeyType
  exportable : Bool
  material : Bytes
  public_key : Option Bytes
  policy : KeyPolicy
  policy_version : UInt32
  created_at : UInt64
  expires_at : UInt64
  pending_profiles : List PendingProfile
  audit_next_seq : UInt64
  next_pending_id : UInt32
deriving DecidableEq

inductive VaultRequest where
  | CreateKey (handle material_b64 grant : String)
  | ExportKey (handle : String) (approvals : List ApprovalToken)
  | DeleteKey (handle : String) (approvals : List ApprovalToken)
  | UpdatePolicy (handle : String) (new_policy : KeyPolicy) (approvals : List ApprovalToken)
  | GetPolicy (handle : String)
  | GetKeyInfo (handle : String)
  | ListKeys
  | Wrap (handle plaintext_b64 : String) (aad_b64 iv_b64 : Option String) (approvals : List ApprovalToken)
  | Unwrap (handle ciphertext_b64 iv_b64 : String) (aad_b64 : Option String) (approvals : List ApprovalToken)
  | Sign (handle message_b64 : String) (prehashed : Bool) (approvals : List ApprovalToken)
  | Mac (handle message_b64 : String) (approvals : List ApprovalToken)
  | IssueApprovalToken (handle : String) (op : Operation) (ttl_seconds : UInt64)
  | ReadAuditLog (handle : String) (since_seq : UInt64) (limit : UInt32)
  | StagePendingProfile (handle : String) (profile : AttestationProfile) (source : PendingProfileSource)
  | ListPendingProfiles (handle : String)
  | PromotePendingProfile (handle : String) (pending_id : UInt32) (approvals : List ApprovalToken)
  | RevokePendingProfile (handle : String) (pending_id : UInt32)

structure KeyInfo where
  handle : String
  key_type : KeyType
  exportable : Bool
  created_at : UInt64
  expires_at : UInt64
  policy_version : UInt32
  public_key : Option Bytes
deriving DecidableEq

structure KeyListEntry where
  handle : String
  key_type : KeyType
  expires_at : UInt64
deriving DecidableEq

inductive VaultResponse where
  | KeyCreated (handle : String) (expires_at : UInt64)
  | KeyMaterial (material : Bytes) (expires_at : UInt64)
  | KeyDeleted
  | PolicyUpdated (policy_version : UInt32)
  | Policy (policy : KeyPolicy) (policy_version : UInt32)
  | KeyInfo (info : KeyInfo)
  | KeyList (keys : List KeyListEntry)
  | Wrapped (ciphertext iv : Bytes)
  | Unwrapped (plaintext : Bytes)
  | Signature (signature : Bytes) (alg : String)
  | MacTag (mac : Bytes) (alg : String)
  | ApprovalTokenIssued (token : ApprovalToken)
  | AuditLog (entries : List AuditEntry) (next_seq : UInt64)
  | PendingProfileStaged (pending_id : UInt32) (auto_promoted : Bool) (policy_version : UInt32)
  | PendingProfileList (pending : List PendingProfile)
  | PendingProfilePromoted (policy_version : UInt32)
  | PendingProfileRevoked
  | Error (e : String)
deriving DecidableEq

structure OidcClaims where
  sub : String
  roles : List String
  is_manager : Bool
  amr : List String
  iat : UInt64
  exp : UInt64
  vault_op : Option String
  nonce : Option String
deriving DecidableEq

structure RequestContext where
  oidc_claims : Option OidcClaims
  peer_cert_der : Option Bytes
  peer_evidence : Option Bytes
deriving DecidableEq

end EnclaveOs.Vault
