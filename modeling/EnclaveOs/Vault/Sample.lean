import EnclaveOs.Vault.Handlers

/-! # A small vault to run -/

namespace EnclaveOs.Vault.Sample

open Lib

def signing_key : Bytes := [7]

def public_key : Bytes := 0x04 :: List.replicate 64 0

/-- Manager 0 approves an export of `k`. -/
def claims : ApprovalClaims := ⟨ISSUER, "k", .ExportKey, 0, "bob", 1, 301⟩

scoped instance outside : Outside where
  to_lowercase := String.toLower
  sha256 := id
  hex_encode := fun _ => ""
  encode := fun _ => "thumb"
  decode := fun _ => .ok [1]
  serde_error := ""
  debug_strings := fun _ => ""
  from_der := fun _ => .error ""
  parse_quote := fun _ => .error ""
  generate_pkcs8 := fun _ => some signing_key
  from_pkcs8 := fun b => if b = signing_key then some public_key else none
  encode_jwt := fun c key _ => if c = claims ∧ key = signing_key then .ok "token" else .error ""
  verify_and_decode := fun pk jwt => if pk = public_key ∧ jwt = "token" then .ok claims else .error ""
  valid_aes_key := fun _ => true
  seal_in_place := fun _ _ _ text => some text
  open_in_place := fun _ _ _ text => some text
  ecdsa_sign := fun _ _ message => some message
  from_pkcs8_der := fun _ => true
  sign_prehash := fun _ digest => some digest
  hmac_sha256 := fun _ message => message

def oidc (sub : String) : Principal := .Oidc "idp" sub []

def profile (mrenclave : String) : AttestationProfile where
  name := "app"
  measurements := [.Mrenclave mrenclave]
  attestation_servers := [⟨"as", none⟩]
  required_oids := [⟨APP_ID_OID_STR, "app"⟩]
  acceptable_tcb_statuses := []

def lifecycle (auto : Bool) : Lifecycle := ⟨60, auto⟩

/-- Owner `alice`, manager `bob`, one TEE. `approve`: an export needs the manager. -/
def policy (immutable : List PolicyField) (auto approve : Bool) : KeyPolicy where
  version := 1
  principals := ⟨oidc "alice", [oidc "bob"], [], [.Tee (profile "aa")]⟩
  operations := [⟨[.UpdatePolicy, .DeleteKey, .PromoteProfile], [.Owner], []⟩,
    ⟨[.ExportKey], [.Owner], if approve then [.ManagerApproval 0 0] else []⟩]
  mutability := ⟨[.Owner, .Managers, .Tees, .Lifecycle, .PendingProfiles], [], immutable⟩
  lifecycle := lifecycle auto

section

variable (p : KeyPolicy)

def grant : KeyCreationGrant where
  iss := "idp"
  aud := GRANT_AUDIENCE
  sub := "alice"
  scope := "k"
  key_type := .RawShare
  exportable := true
  policy := p
  exp := 100
  cnf := some "thumb"

def world : World where
  kv_fault := none
  current_time := some 1
  entropy := some []
  verify_quote_statuses := fun _ _ => .error ""
  oidc_issuer := some "idp"
  verify_jwt_with_jwks := fun _ _ => .ok (grant p)

def bearer (sub : String) (is_manager : Bool) : RequestContext where
  oidc_claims := some ⟨sub, [], is_manager, [], 1, 100, none, none⟩
  peer_cert_der := some []
  peer_evidence := none

def call (sub : String) (request : VaultRequest) : Call := ⟨request, bearer sub false, fun _ => world p⟩

def create : Call := call p "alice" (.CreateKey "k" "m" "grant")

def record : KeyRecord := { new_record "k" (grant p) [1] none 1 with audit_next_seq := 1 }

def stage : Call := call p "alice" (.StagePendingProfile "k" (profile "bb") .ManualImport)

def promote : Call := call p "alice" (.PromotePendingProfile "k" 0 [])

def roll : Call := ⟨.StagePendingProfile "k" (profile "bb") .PlatformBuild, bearer "platform" true, fun _ => world p⟩

end

end EnclaveOs.Vault.Sample
