import EnclaveOs.Lib.Bytes

/-!
# What an authenticator sends (`webauthn.rs`)

Base64, JSON, CBOR, the hash and the signature check are other crates.
-/

namespace EnclaveOs.Fido2

open Lib

structure ClientData where
  ceremony_type : String
  challenge : String
  origin : String

/-- `ciborium::Value`, as far as it is looked at. -/
inductive Value
  | Integer (i : Int)
  | Bytes (b : Lib.Bytes)
  | Text (s : String)
  | Map (entries : List (Value × Value))
  | Other

class Outside where
  /-- Whether the build checks sums for overflow. -/
  overflow_checks : Bool
  encode : Bytes → String
  decode : String → Except String Bytes
  /-- `serde_json::from_slice` -/
  client_data : Bytes → Except String ClientData
  /-- `ciborium::from_reader` -/
  from_reader : Bytes → Except String Value
  sha256 : Bytes → Bytes
  /-- Public key, message, signature. -/
  verify : Bytes → Bytes → Bytes → Bool

def check_client_data (cd : ClientData) (expected_type expected_challenge_b64 : String) : Except String Unit :=
  if cd.ceremony_type ≠ expected_type then
    .error ("clientDataJSON type mismatch: expected " ++ expected_type ++ ", got " ++ cd.ceremony_type)
  else if cd.challenge ≠ expected_challenge_b64 then .error "clientDataJSON challenge mismatch"
  else .ok ()

def parse_client_data [Outside] (client_data_json_b64 expected_type expected_challenge_b64 : String) :
    Except String (ClientData × Bytes) := do
  let raw ← (Outside.decode client_data_json_b64).mapError ("clientDataJSON base64: " ++ ·)
  let cd ← (Outside.client_data raw).mapError ("clientDataJSON parse: " ++ ·)
  check_client_data cd expected_type expected_challenge_b64
  pure (cd, raw)

theorem check_client_data_ok {cd : ClientData} {ty challenge : String}
    (h : check_client_data cd ty challenge = .ok ()) : cd.ceremony_type = ty ∧ cd.challenge = challenge := by
  unfold check_client_data at h
  split at h
  · cases h
  · split at h
    · cases h
    · exact ⟨not_not.mp ‹_›, not_not.mp ‹_›⟩

/-! ## Authenticator data -/

structure AttestedCredential where
  aaguid : Bytes
  credential_id : Bytes
  credential_public_key_cbor : Bytes
deriving DecidableEq

structure AuthenticatorData where
  rp_id_hash : Bytes
  flags : UInt8
  sign_count : Nat
  attested_credential : Option AttestedCredential
deriving DecidableEq

def AuthenticatorData.user_present (d : AuthenticatorData) : Bool := d.flags &&& 0x01 != 0

def AuthenticatorData.user_verified (d : AuthenticatorData) : Bool := d.flags &&& 0x04 != 0

def range (data : Bytes) (i j : Nat) : Bytes := (data.drop i).take (j - i)

def parse_attested (data : Bytes) : Except String AttestedCredential :=
  if data.length < 55 then .error "authenticator data too short for attested credential"
  else
    let cred_id_end := 55 + ofBe (range data 53 55)
    if data.length < cred_id_end then .error "authenticator data truncated in credential ID"
    else .ok ⟨range data 37 53, range data 55 cred_id_end, data.drop cred_id_end⟩

def parse_authenticator_data (data : Bytes) : Except String AuthenticatorData :=
  if data.length < 37 then .error "authenticator data too short"
  else do
    let flags := data.getD 32 0
    let attested_credential ← if flags &&& 0x40 != 0 then some <$> parse_attested data else pure none
    pure ⟨range data 0 32, flags, ofBe (range data 33 37), attested_credential⟩

def COSE_ALG_ES256 : Int := -7
def COSE_KTY_EC2 : Int := 2
def COSE_CRV_P256 : Int := 1
def COSE_KEY_KTY : Int := 1
def COSE_KEY_CRV : Int := -1
def COSE_KEY_X : Int := -2
def COSE_KEY_Y : Int := -3

/-- `as i64`: a CBOR integer may be longer. -/
def as_i64 (i : Int) : Int := i.bmod (2 ^ 64)

def find_int (map : List (Value × Value)) (key : Int) : Option Value :=
  (map.find? fun e => match e.1 with
    | .Integer i => as_i64 i == key
    | _ => false).map (·.2)

def as_integer : Value → Option Int
  | .Integer i => some (as_i64 i)
  | _ => none

def as_bytes : Value → Option Bytes
  | .Bytes b => some b
  | _ => none

def expect_int (map : List (Value × Value)) (key expected : Int) (missing unsupported suffix : String) :
    Except String Unit :=
  match (find_int map key).bind as_integer with
  | none => .error missing
  | some i => if i ≠ expected then .error (unsupported ++ toString i ++ suffix) else .ok ()

def coordinate (map : List (Value × Value)) (key : Int) (name : String) : Except String Bytes :=
  match (find_int map key).bind as_bytes with
  | none => .error ("COSE key missing " ++ name ++ " coordinate")
  | some b =>
    if b.length ≠ 32 then
      .error (name ++ " coordinate wrong length: " ++ toString b.length ++ ", expected 32")
    else .ok b

def p256_of_map (map : List (Value × Value)) : Except String Bytes := do
  expect_int map COSE_KEY_KTY COSE_KTY_EC2 "COSE key missing kty" "unsupported COSE key type: " ", expected EC2 (2)"
  expect_int map COSE_KEY_CRV COSE_CRV_P256 "COSE key missing crv" "unsupported curve: " ", expected P-256 (1)"
  let x ← coordinate map COSE_KEY_X "x"
  let y ← coordinate map COSE_KEY_Y "y"
  pure (0x04 :: x ++ y)

def extract_p256_public_key [Outside] (cose_cbor : Bytes) : Except String Bytes := do
  match ← (Outside.from_reader cose_cbor).mapError ("COSE key CBOR parse: " ++ ·) with
  | .Map m => p256_of_map m
  | _ => .error "COSE key is not a CBOR map"

/-- The first `authData` counts. -/
def auth_data_of_map : List (Value × Value) → Except String Bytes
  | [] => .error "attestation object missing authData"
  | (.Text key, v) :: rest =>
    if key = "authData" then
      match v with
      | .Bytes auth_data => .ok auth_data
      | _ => .error "authData is not a byte string"
    else auth_data_of_map rest
  | _ :: rest => auth_data_of_map rest

def parse_attestation_object [Outside] (cbor_bytes : Bytes) : Except String Bytes := do
  match ← (Outside.from_reader cbor_bytes).mapError ("attestation object CBOR: " ++ ·) with
  | .Map m => auth_data_of_map m
  | _ => .error "attestation object is not a CBOR map"

def verify_signature [Outside] (public_key signed_data sig : Bytes) : Except String Unit :=
  if Outside.verify public_key signed_data sig then .ok () else .error "ECDSA signature verification failed"

end EnclaveOs.Fido2
