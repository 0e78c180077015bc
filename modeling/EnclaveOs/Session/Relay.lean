import EnclaveOs.Lib.Method
import EnclaveOs.Session.Envelope

/-!
# The session relay (`sessionrelay.rs`)

The calls below hold the lock of the table, so they run one after the other.
-/

namespace EnclaveOs.Session

open Lib

/-- A point is a pair of little-endian coordinates. -/
class Outside where
  hmac_sha256 : Bytes → Bytes → Bytes
  length_hmac : ∀ key text, (hmac_sha256 key text).length = 32
  public_key : Bytes → Bytes × Bytes
  /-- Key pair, point of the peer. -/
  shared_key : Bytes → Bytes × Bytes → Option Bytes
  /-- Key, nonce, associated data, text. -/
  open_in_place : Bytes → Bytes → Bytes → Bytes → Option Bytes
  seal_in_place_append_tag : Bytes → Bytes → Bytes → Bytes → Option Bytes

def sec1_to_ec256_pubkey (sec1 : Bytes) : Option (Bytes × Bytes) :=
  if sec1.length ≠ 65 ∨ sec1.head? ≠ some 0x04 then none
  else some (((sec1.drop 1).take 32).reverse, ((sec1.drop 33).take 32).reverse)

def ec256_pubkey_to_sec1 (point : Bytes × Bytes) : Bytes := 0x04 :: point.1.reverse ++ point.2.reverse

def ALPHA : List Char := "ABCDEFGHIJKLMNOPQRSTUVWXYZabcdefghijklmnopqrstuvwxyz0123456789-_".toList

def letter (n : Nat) : Char := ALPHA.getD (n % 64) 'A'

def b64url_chars : Bytes → List Char
  | a :: b :: c :: rest =>
    let n := a.toNat * 2 ^ 16 + b.toNat * 2 ^ 8 + c.toNat
    [letter (n / 2 ^ 18), letter (n / 2 ^ 12), letter (n / 2 ^ 6), letter n] ++ b64url_chars rest
  | [a, b] =>
    let n := a.toNat * 2 ^ 16 + b.toNat * 2 ^ 8
    [letter (n / 2 ^ 18), letter (n / 2 ^ 12), letter (n / 2 ^ 6)]
  | [a] =>
    let n := a.toNat * 2 ^ 16
    [letter (n / 2 ^ 18), letter (n / 2 ^ 12)]
  | [] => []

def b64url_encode (bytes : Bytes) : String := String.ofList (b64url_chars bytes)

def utf8 (s : String) : Bytes := s.toUTF8.data.toList

def KEY_INFO : Bytes := utf8 "privasys-session/v1"
def C2S_INFO : Bytes := utf8 "privasys-dir/c2s"
def S2C_INFO : Bytes := utf8 "privasys-dir/s2c"

def SESSION_TTL_SECS : UInt64 := 900

structure SessionEntry where
  aead_key : Bytes
  c2s_prefix : Bytes
  s2c_prefix : Bytes
  c2s_last_seen : Int64
  s2c_next : UInt64
  expires_at : UInt64
deriving DecidableEq

structure State where
  sessions : String → Option SessionEntry
  last_sweep : UInt64
  identity_key : Option Bytes

abbrev SessionM := Method State Fault

def err {α : Type} (e : SessionError) : SessionM α := throw (.err e)

def satAdd (x y : UInt64) : UInt64 :=
  if x.toNat + y.toNat < 2 ^ 64 then x + y else UInt64.ofNat (2 ^ 64 - 1)

section

variable [Outside] (checks : Bool)

omit [Outside] in
/-- `checks`: the build checks plain sums for overflow. -/
def sweep_expired (now : UInt64) : SessionM Unit := do
  let last := (← Method.state).last_sweep
  if checks && decide (2 ^ 64 ≤ last.toNat + 60) then throw .panic
  else if now < last + 60 then pure ()
  else
    Method.update fun s =>
      { s with last_sweep := now, sessions := fun id => (s.sessions id).filter fun e => decide (now < e.expires_at) }

def hkdf_extract (salt ikm : Bytes) : Bytes := Outside.hmac_sha256 salt ikm

/-- One block is enough: no length above 32 is ever asked for. -/
def hkdf_expand (prk info : Bytes) (len : Nat) : Bytes := (Outside.hmac_sha256 prk (info ++ [1])).take len

omit [Outside] in
/-- Made at its first use from what `EcKeyPair::create` answers. -/
def identity_keypair (created : Option Bytes) : SessionM Bytes := do
  match (← Method.state).identity_key with
  | some kp => pure kp
  | none =>
    match created with
    | none => err .Crypto
    | some kp => do
      Method.update fun s => { s with identity_key := some kp }
      pure kp

structure Bootstrap where
  session_id : String
  enc_pub : Bytes
  expires_at : UInt64
deriving DecidableEq

def new_entry (sid shared : Bytes) (now : UInt64) : SessionEntry :=
  let prk := hkdf_extract sid shared
  { aead_key := hkdf_expand prk KEY_INFO 32
    c2s_prefix := hkdf_expand prk C2S_INFO 4
    s2c_prefix := hkdf_expand prk S2C_INFO 4
    c2s_last_seen := -1
    s2c_next := 0
    expires_at := satAdd now SESSION_TTL_SECS }

/-- `random` is what the session id is filled with. -/
def bootstrap (sdk_pub : Bytes) (now : UInt64) (created random : Option Bytes) : SessionM Bootstrap := do
  if sdk_pub.length ≠ 65 ∨ sdk_pub.head? ≠ some 0x04 then err .InvalidPubKey
  else
    let keypair ← identity_keypair created
    match (sec1_to_ec256_pubkey sdk_pub).bind (Outside.shared_key keypair) with
    | none => err .InvalidPubKey
    | some share =>
      match random with
      | none => err .Crypto
      | some sid_bytes => do
        let session_id := b64url_encode sid_bytes
        let entry := new_entry sid_bytes share.reverse now
        sweep_expired checks now
        Method.update fun s => { s with sessions := Function.update s.sessions session_id (some entry) }
        pure ⟨session_id, ec256_pubkey_to_sec1 (Outside.public_key keypair), entry.expires_at⟩

/-! ## Requests and responses -/

structure AeadOp where
  key : Bytes
  nonce : Bytes
  aad : Bytes
  text : Bytes
deriving DecidableEq

section

omit [Outside]

def aad (method path session_id : String) : Bytes := utf8 (method ++ ":" ++ path ++ ":" ++ session_id)

section

variable (session_id : String)

def live_entry (now : UInt64) : SessionM SessionEntry := do
  match (← Method.state).sessions session_id with
  | none => err .UnknownSession
  | some entry =>
    if entry.expires_at ≤ now then do
      Method.update fun s => { s with sessions := Function.update s.sessions session_id none }
      err .UnknownSession
    else pure entry

def save (entry : SessionEntry) : SessionM Unit :=
  Method.update fun s => { s with sessions := Function.update s.sessions session_id (some entry) }

def admit_request (method path : String) (sealed_body : Bytes) (now : UInt64) :
    SessionM (SessionEntry × UInt64 × AeadOp) := do
  sweep_expired checks now
  let (ctr, ct) ← Method.ofExcept (cbor_decode_envelope sealed_body)
  let entry ← live_entry session_id now
  if ctr.toInt64 ≤ entry.c2s_last_seen then err .Replay
  else pure (entry, ctr, ⟨entry.aead_key, entry.c2s_prefix ++ u64Be ctr, aad method path session_id, ct⟩)

def open_request (method path : String) (sealed_body : Bytes) (now : UInt64) : SessionM Bytes := do
  let (entry, ctr, op) ← admit_request checks session_id method path sealed_body now
  match Outside.open_in_place op.key op.nonce op.aad op.text with
  | none => err .Crypto
  | some pt => do
    save session_id { entry with c2s_last_seen := ctr.toInt64, expires_at := satAdd now SESSION_TTL_SECS }
    pure pt

/-- Before the cipher is asked. The counter has moved on by then. -/
def next_response (method path : String) (plaintext : Bytes) (now : UInt64) : SessionM (UInt64 × AeadOp) := do
  let entry ← live_entry session_id now
  if entry.s2c_next.toNat + 1 < 2 ^ 64 then do
    save session_id { entry with s2c_next := entry.s2c_next + 1 }
    pure (entry.s2c_next,
      ⟨entry.aead_key, entry.s2c_prefix ++ u64Be entry.s2c_next, aad method path session_id, plaintext⟩)
  else err .Internal

def seal_response (method path : String) (plaintext : Bytes) (now : UInt64) : SessionM Bytes := do
  let (ctr, op) ← next_response session_id method path plaintext now
  match Outside.seal_in_place_append_tag op.key op.nonce op.aad op.text with
  | none => err .Crypto
  | some ct => pure (cbor_encode_envelope ctr ct)

def is_known_session (now : UInt64) : SessionM Bool := do
  match (← Method.state).sessions session_id with
  | some e => pure (decide (now < e.expires_at))
  | none => pure false

end

end

inductive Call where
  | bootstrap (sdk_pub : Bytes) (now : UInt64) (created random : Option Bytes)
  | open_request (session_id method path : String) (sealed_body : Bytes) (now : UInt64)
  | seal_response (session_id method path : String) (plaintext : Bytes) (now : UInt64)
  | is_known_session (session_id : String) (now : UInt64)

inductive Answer where
  | started (b : Bootstrap)
  | opened (plaintext : Bytes)
  | sealed (body : Bytes)
  | known (b : Bool)
deriving DecidableEq

def Call.run : Call → SessionM Answer
  | .bootstrap sdk_pub now created random => .started <$> Session.bootstrap checks sdk_pub now created random
  | .open_request id method path body now => .opened <$> Session.open_request checks id method path body now
  | .seal_response id method path text now => .sealed <$> Session.seal_response id method path text now
  | .is_known_session id now => .known <$> Session.is_known_session id now

def runCalls (s : State) (cs : List Call) : State := cs.foldl (fun s c => ((c.run checks).exec s).2) s

omit [Outside] in
def Call.aeadOp (s : State) : Call → Option AeadOp
  | .open_request id method path body now =>
    match ((admit_request checks id method path body now).exec s).1 with
    | .ok (_, _, op) => some op
    | .error _ => none
  | .seal_response id method path text now =>
    match ((next_response id method path text now).exec s).1 with
    | .ok (_, op) => some op
    | .error _ => none
  | _ => none

end

def start : State := ⟨fun _ => none, 0, none⟩

end EnclaveOs.Session
