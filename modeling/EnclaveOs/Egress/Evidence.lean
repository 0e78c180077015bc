import EnclaveOs.Lib.Checks
import EnclaveOs.Egress.Response

/-! # Evidence of a peer -/

namespace EnclaveOs.Egress

open Lib

structure Quote3 where
  mr_enclave : Register 32
  mr_signer : Register 32
  report_data : Register 64
  deriving DecidableEq

structure Quote4 where
  mr_td : Register 48
  report_data : Register 64
  deriving DecidableEq

structure AttestResponse where
  v : Nat
  mode : String
  tee : String
  quote : String
  gpu_evidence : Option String
  quote_time : String
  client_evidence : String
  client_context : Option String
  error : Option String
  deriving DecidableEq

class Outside extends Unicode where
  from_der : Bytes → Option (X509Certificate × Bytes)
  sha256 : Bytes → Bytes
  sha512 : Bytes → Register 64
  base64_url : String → Except String Bytes
  parse_quote3 : Bytes → Except String Quote3
  parse_quote4 : Bytes → Except String Quote4
  /-- `serde_json::from_slice` -/
  attest_response : Bytes → Except String AttestResponse
  /-- The `{:?}` form of a text. -/
  debug : String → String

section

variable [Outside]

inductive AttestationMode
  | challenge
  | deterministic
  deriving DecidableEq, Repr

def AttestationMode.as_str : AttestationMode → String
  | challenge => "challenge"
  | deterministic => "deterministic"

structure Evidence where
  mode : AttestationMode
  tee : String
  quote : Bytes
  gpu_evidence : Option Bytes
  quote_time : String
  context : Option (Register 32)
  hctx : Option (Register 32)
  deriving DecidableEq

inductive ReportDataBinding
  | deterministic
  | challengeResponse (nonce : Bytes)
  deriving DecidableEq

structure ExpectedOid where
  oid : String
  expected_value : Bytes
  deriving DecidableEq

structure ClientCertIdentity where
  code_hash : Bytes
  app_id : Option Bytes
  deriving DecidableEq

structure RaTlsPolicy where
  tee : TeeType
  mr_enclave : Option (Register 32)
  mr_signer : Option (Register 32)
  mr_td : Option (Register 48)
  report_data : ReportDataBinding
  expected_oids : List ExpectedOid
  attestation_servers : List String
  acceptable_tcb_statuses : List String
  client_identity : Option ClientCertIdentity
  dependencies : Option Bytes
  deriving DecidableEq

/-! ## The leaf -/

def MAX_TLS_PEER_CERTIFICATE_BYTES : Nat := 64 * 1024

def SGX_QUOTE_OID_STR : String := "1.2.840.113741.1.13.1.0"

def TDX_QUOTE_OID_STR : String := "1.2.840.113741.1.5.5.1.6"

def SGX_SIM_REPORT_OID_STR : String := "1.3.6.1.4.1.65230.2.10"

def legacy_quote_oid (oid : String) : Bool :=
  oid = SGX_QUOTE_OID_STR || oid = TDX_QUOTE_OID_STR || oid = SGX_SIM_REPORT_OID_STR

def P256_ALGO_ID : Bytes :=
  [0x30, 0x13, 0x06, 0x07, 0x2a, 0x86, 0x48, 0xce, 0x3d, 0x02, 0x01,
    0x06, 0x08, 0x2a, 0x86, 0x48, 0xce, 0x3d, 0x03, 0x01, 0x07]

def build_p256_spki_der (ec_point : Bytes) : Bytes :=
  [0x30, UInt8.ofNat (P256_ALGO_ID.length + 3 + ec_point.length)] ++ P256_ALGO_ID ++
    [0x03, UInt8.ofNat (ec_point.length + 1), 0] ++ ec_point

def validated_spki (cert : X509Certificate) : Except String Bytes := do
  demand (cert.algorithm = "1.2.840.10045.2.1" ∧ cert.parameters = some "1.2.840.10045.3.1.7" ∧
    cert.unused_bits = 0 ∧ cert.subject_public_key.length = 65 ∧ cert.subject_public_key.head? = some 4)
    "RA-TLS: identity must use an uncompressed P-256 key"
  return build_p256_spki_der cert.subject_public_key

def verify_expected_oids (cert : X509Certificate) : List ExpectedOid → Except String Unit
  | [] => .ok ()
  | exp :: rest => do
    let value ← ok_or (ext_value cert exp.oid)
      ("RA-TLS: expected OID " ++ exp.oid ++ " not found in certificate")
    demand (value = exp.expected_value)
      ("RA-TLS: OID " ++ exp.oid ++ " value mismatch (got " ++ toString value.length ++ " bytes, expected " ++
        toString exp.expected_value.length ++ " bytes)")
    verify_expected_oids cert rest

def verify_ratls_leaf (der : Bytes) (policy : RaTlsPolicy) : Except String Unit := do
  demand (der ≠ [] ∧ der.length ≤ MAX_TLS_PEER_CERTIFICATE_BYTES)
    "RA-TLS: leaf certificate exceeds profile bound"
  let (cert, rest) ← ok_or (Outside.from_der der) "RA-TLS: failed to parse leaf certificate DER"
  demand (rest = []) "RA-TLS: trailing certificate bytes"
  let _ ← validated_spki cert
  demand (cert.extensions.all (fun ext => !legacy_quote_oid ext.1))
    "RA-TLS: v1 certificate (evidence inside the certificate) is not accepted by a v2 verifier"
  verify_expected_oids cert policy.expected_oids

/-! ## Quote times and report data -/

def QUOTE_TIME_LEN : Nat := 17

def QUOTE_MAX_AGE_SECS : Int := 24 * 3600 + 5 * 60

def QUOTE_SKEW_SECS : Int := 5 * 60

def as_i64 (n : UInt64) : Int := if n.toNat < 2 ^ 63 then n.toNat else n.toNat - 2 ^ 64

def decimal (s : Bytes) : Option Int :=
  s.foldlM (fun v c => if 0x30 ≤ c ∧ c ≤ 0x39 then some (v * 10 + (c - 0x30).toNat) else none) 0

def parse_quote_time (raw : String) : Option Int := do
  let b := utf8 raw
  guard (b.length = QUOTE_TIME_LEN ∧ b[4]? = some 0x2d ∧ b[7]? = some 0x2d ∧ b[10]? = some 0x54 ∧
    b[13]? = some 0x3a ∧ b[16]? = some 0x5a)
  let y ← decimal (slice b 0 4)
  let m ← decimal (slice b 5 7)
  let d ← decimal (slice b 8 10)
  let hh ← decimal (slice b 11 13)
  let mm ← decimal (slice b 14 16)
  guard (1 ≤ m ∧ m ≤ 12 ∧ 1 ≤ d ∧ d ≤ 31 ∧ hh ≤ 23 ∧ mm ≤ 59)
  let y2 := if m ≤ 2 then y - 1 else y
  let era := y2 / 400
  let yoe := y2 - era * 400
  let mp := (m + 9) % 12
  let doy := (153 * mp + 2) / 5 + d - 1
  let doe := yoe * 365 + yoe / 4 - yoe / 100 + doy
  let days := era * 146097 + doe - 719468
  return days * 86400 + hh * 3600 + mm * 60

-- The sum and the difference wrap around, as in a release build.
def check_quote_time (raw : String) (now_unix : Int) : Except String Unit := do
  let t ← ok_or (parse_quote_time raw)
    ("quote_time " ++ Outside.debug raw ++ " is not YYYY-MM-DDTHH:MMZ")
  demand (t ≤ (now_unix + QUOTE_SKEW_SECS).bmod (2 ^ 64)) ("quote_time " ++ raw ++ " is in the future")
  demand ((now_unix - t).bmod (2 ^ 64) ≤ QUOTE_MAX_AGE_SECS) ("quote_time " ++ raw ++ " is older than 24 hours")

def padded (width : Nat) (i : Int) : String :=
  let text := toString i.natAbs
  let sign := if i < 0 then "-" else ""
  sign ++ String.ofList (List.replicate (width - sign.length - text.length) '0') ++ text

def format_quote_time (unix : Int) : String :=
  let days := unix / 86400
  let secs := unix % 86400
  let z := days + 719468
  let era := z / 146097
  let doe := z - era * 146097
  let yoe := (doe - doe / 1460 + doe / 36524 - doe / 146096) / 365
  let y := yoe + era * 400
  let doy := doe - (365 * yoe + yoe / 4 - yoe / 100)
  let mp := (5 * doy + 2) / 153
  let d := doy - (153 * mp + 2) / 5 + 1
  let m := if mp < 10 then mp + 3 else mp - 9
  let y := if m ≤ 2 then y + 1 else y
  padded 4 y ++ "-" ++ padded 2 m ++ "-" ++ padded 2 d ++ "T" ++ padded 2 (secs / 3600) ++ ":" ++
    padded 2 (secs % 3600 / 60) ++ "Z"

def report_data_parts (spki_der : Bytes) (parts : List Bytes) (gpu : Option Bytes) : Register 64 :=
  Outside.sha512 (Outside.sha256 spki_der ++ parts.flatten ++ ((gpu.filter (· ≠ [])).map Outside.sha256).getD [])

def challenge_report_data (spki_der context hctx : Bytes) (gpu : Option Bytes) : Register 64 :=
  report_data_parts spki_der [context, hctx] gpu

def expected_report_data (spki_der : Bytes) (ev : Evidence) : Except String (Register 64) :=
  match ev.mode with
  | .deterministic => do
    demand ((utf8 ev.quote_time).length = QUOTE_TIME_LEN) "deterministic evidence needs a quote_time"
    return report_data_parts spki_der [utf8 ev.quote_time] ev.gpu_evidence
  | .challenge =>
    match ev.context, ev.hctx with
    | some ctx, some hctx => .ok (challenge_report_data spki_der ctx.val hctx.val ev.gpu_evidence)
    | _, _ => .error "challenge evidence needs a context and an exporter value"

/-! ## The peer's answer -/

def PROTOCOL_VERSION : Nat := 2

def MAX_MESSAGE : Nat := 65536

def register? (n : Nat) (b : Bytes) : Option (Register n) := if h : b.length = n then some ⟨b, h⟩ else none

def b64_decode (s : String) : Except String Bytes :=
  (Outside.base64_url (String.ofList (s.toList.rdropWhile (· = '=')))).mapError ("base64url: " ++ ·)

def parse_client_context (resp : AttestResponse) : Except String (Option (Register 32)) :=
  if resp.client_evidence = "" ∨ resp.client_evidence = "none" then .ok none
  else if resp.client_evidence = "required" then do
    let cc ← ok_or resp.client_context "server requires client evidence without a client_context"
    let cc ← b64_decode cc
    let context ← ok_or (register? 32 cc) "client_context is not 32 bytes"
    return some context
  else .error ("attest response: unknown client_evidence " ++ Outside.debug resp.client_evidence)

def parse_gpu (resp : AttestResponse) : Except String (Option Bytes) :=
  match resp.gpu_evidence.filter (· ≠ "") with
  | some g => some <$> b64_decode g
  | none => .ok none

def parse_response (body : Bytes) (mode : AttestationMode) (context hctx : Option (Register 32))
    (now_unix : Int) : Except String (Evidence × Option (Register 32)) := do
  let resp ← (Outside.attest_response body).mapError ("attest response: " ++ ·)
  demand (resp.error = none) ("attest failed: " ++ resp.error.getD "")
  demand (resp.v = PROTOCOL_VERSION)
    ("attest response version " ++ toString resp.v ++ ", want " ++ toString PROTOCOL_VERSION)
  demand (resp.mode = mode.as_str)
    ("attest response mode " ++ Outside.debug resp.mode ++ ", requested " ++ mode.as_str)
  demand (resp.tee ∈ ["sgx", "tdx", "tdx-gpu", "sev-snp"])
    ("attest response: unknown tee " ++ Outside.debug resp.tee)
  let quote ← b64_decode resp.quote
  demand (quote ≠ []) "attest response: empty quote"
  let gpu_evidence ← parse_gpu resp
  check_quote_time resp.quote_time now_unix
  let client_context ← parse_client_context resp
  return (⟨mode, resp.tee, quote, gpu_evidence, resp.quote_time, context, hctx⟩, client_context)

def verify_sgx_measurements (quote : Quote3) (policy : RaTlsPolicy) : Except String Unit := do
  demand (∀ m ∈ policy.mr_enclave, quote.mr_enclave = m) "RA-TLS: MRENCLAVE mismatch"
  demand (∀ m ∈ policy.mr_signer, quote.mr_signer = m) "RA-TLS: MRSIGNER mismatch"

def verify_tdx_measurements (quote : Quote4) (policy : RaTlsPolicy) : Except String Unit :=
  demand (∀ m ∈ policy.mr_td, quote.mr_td = m) "RA-TLS: MRTD mismatch"

def TeeType.debug : TeeType → String
  | sgx => "Sgx"
  | tdx => "Tdx"

/-- The names of evidence that stand for the kind of enclave. -/
def TeeType.Family (tee : TeeType) (name : String) : Prop :=
  match tee with
  | .sgx => name = "sgx"
  | .tdx => name = "tdx" ∨ name = "tdx-gpu"

instance (name : String) : ∀ tee : TeeType, Decidable (tee.Family name)
  | .sgx => inferInstanceAs (Decidable (name = "sgx"))
  | .tdx => inferInstanceAs (Decidable (name = "tdx" ∨ name = "tdx-gpu"))

def quote_registers (ev : Evidence) (policy : RaTlsPolicy) :
    Except String (Option (Register 32) × Option (Register 48) × Register 64) :=
  match policy.tee with
  | .sgx => do
    let q ← Outside.parse_quote3 ev.quote
    verify_sgx_measurements q policy
    return (some q.mr_enclave, none, q.report_data)
  | .tdx => do
    let q ← Outside.parse_quote4 ev.quote
    verify_tdx_measurements q policy
    return (none, some q.mr_td, q.report_data)

def verify_pinned (cert : X509Certificate) (policy : RaTlsPolicy) (peer_mrenclave : Option (Register 32))
    (peer_mrtd : Option (Register 48)) : Except String Unit :=
  match policy.dependencies with
  | some deps => verify_dependencies cert policy.tee peer_mrenclave peer_mrtd deps
  | none => .ok ()

def verify_evidence_locally (cert : X509Certificate) (spki_der : Bytes) (ev : Evidence) (policy : RaTlsPolicy) :
    Except String (Option (Register 32) × Option (Register 48)) := do
  demand (policy.tee.Family ev.tee)
    ("RA-TLS: expected " ++ policy.tee.debug ++ " evidence, got " ++ Outside.debug ev.tee)
  let (peer_mrenclave, peer_mrtd, actual) ← quote_registers ev policy
  let expected ← expected_report_data spki_der ev
  demand (actual = expected)
    ("RA-TLS: report_data mismatch (" ++ ev.mode.as_str ++
      " mode): the evidence does not commit to this leaf and connection")
  verify_pinned cert policy peer_mrenclave peer_mrtd
  return (peer_mrenclave, peer_mrtd)

/-! ## Appraisal services -/

structure VerifyResponse where
  success : Bool
  status : String
  tcb_status : String
  error : String
  deriving DecidableEq

inductive Answer
  | unreachable (error : String)
  | malformed (error : String)
  | verdict (response : VerifyResponse)
  deriving DecidableEq

structure Appraisers where
  root_store : Bool
  answer : Nat → String → Bytes → Answer

def tcb_status_acceptable (status : String) (acceptable : List String) : Bool :=
  if status = "" ∨ status = "Revoked" then false
  else status = "UpToDate" || status = "SWHardeningNeeded" || acceptable.contains status

def read_answer (server_url : String) : Answer → Except String VerifyResponse
  | .unreachable e => .error ("attestation server request to " ++ server_url ++ " failed: " ++ e)
  | .malformed e => .error ("invalid JSON response from attestation server " ++ server_url ++ ": " ++ e)
  | .verdict result => .ok result

def ask_servers (world : Appraisers) (quote : Bytes) : Nat → List String → Except String (List VerifyResponse)
  | _, [] => .ok []
  | i, server_url :: rest => do
    let result ← read_answer server_url (world.answer i server_url quote)
    demand (result.success = true)
      ("attestation verification failed at " ++ server_url ++ ": " ++ result.status ++ " — " ++ result.error)
    let responses ← ask_servers world quote (i + 1) rest
    return result :: responses

def verify_quote_statuses (world : Appraisers) (evidence : Bytes) (attestation_servers : List String) :
    Except String (List VerifyResponse) :=
  if attestation_servers.isEmpty then .ok []
  else do
    demand (world.root_store = true)
      "attestation verification requires the egress CA bundle (EgressModule must be initialised before vault verification)"
    ask_servers world evidence 0 attestation_servers

def accept_statuses (acceptable : List String) : List VerifyResponse → Except String Unit
  | [] => .ok ()
  | v :: rest => do
    demand (tcb_status_acceptable v.tcb_status acceptable = true)
      ("peer platform TCB status " ++ Outside.debug v.tcb_status ++ " not acceptable under policy")
    accept_statuses acceptable rest

def appraise_evidence (world : Appraisers) (ev : Evidence) (policy : RaTlsPolicy) : Except String Unit := do
  let verdicts ← verify_quote_statuses world ev.quote policy.attestation_servers
  accept_statuses policy.acceptable_tcb_statuses verdicts

/-! ## What the checks establish -/

/-- What the leaf alone has to show: a key, no evidence of the first version, the expected OIDs. -/
structure LeafPassed (leaf : Bytes) (policy : RaTlsPolicy) (cert : X509Certificate) (spki : Bytes) : Prop where
  parsed : Outside.from_der leaf = some (cert, [])
  spki : validated_spki cert = .ok spki
  v2 : ∀ ext ∈ cert.extensions, legacy_quote_oid ext.1 = false
  oids : ∀ exp ∈ policy.expected_oids, ext_value cert exp.oid = some exp.expected_value

omit [Outside] in
theorem verify_expected_oids_ok {cert : X509Certificate} {l : List ExpectedOid}
    (h : verify_expected_oids cert l = .ok ()) : ∀ exp ∈ l, ext_value cert exp.oid = some exp.expected_value := by
  induction l with
  | nil => simp
  | cons exp l ih =>
    simp only [verify_expected_oids, except_bind_ok, ok_or_ok, demand_ok] at h
    obtain ⟨value, hvalue, _, heq, hrest⟩ := h
    rw [List.forall_mem_cons]
    exact ⟨heq ▸ hvalue, ih hrest⟩

theorem verify_ratls_leaf_ok {leaf : Bytes} {policy : RaTlsPolicy} (h : verify_ratls_leaf leaf policy = .ok ()) :
    ∃ cert spki, LeafPassed leaf policy cert spki := by
  simp only [verify_ratls_leaf, except_bind_ok, ok_or_ok, demand_ok] at h
  obtain ⟨_, _, ⟨cert, rest⟩, hcert, _, rfl, spki, hspki, _, hv2, hoids⟩ := h
  refine ⟨cert, spki, hcert, hspki, ?_, verify_expected_oids_ok hoids⟩
  simpa using hv2

/-- The quote is of the pinned kind and registers, and its report data is for this leaf and connection. -/
structure EvidenceMatched (cert : X509Certificate) (spki : Bytes) (ev : Evidence) (policy : RaTlsPolicy) : Prop where
  family : policy.tee.Family ev.tee
  registers : ∃ mrenclave mrtd report, quote_registers ev policy = .ok (mrenclave, mrtd, report) ∧
    expected_report_data spki ev = .ok report ∧
    ∀ deps, policy.dependencies = some deps → verify_dependencies cert policy.tee mrenclave mrtd deps = .ok ()

theorem verify_evidence_locally_ok {cert : X509Certificate} {spki : Bytes} {ev : Evidence} {policy : RaTlsPolicy}
    {r : Option (Register 32) × Option (Register 48)} (h : verify_evidence_locally cert spki ev policy = .ok r) :
    EvidenceMatched cert spki ev policy := by
  simp only [verify_evidence_locally, except_bind_ok, demand_ok] at h
  obtain ⟨_, hfamily, ⟨mrenclave, mrtd, actual⟩, hquote, expected, hexpected, _, rfl, _, hpinned, -⟩ := h
  refine ⟨hfamily, mrenclave, mrtd, actual, hquote, hexpected, ?_⟩
  intro deps hdeps
  rw [verify_pinned, hdeps] at hpinned
  exact hpinned

/-- Every configured service has verified the quote, with a TCB status that the policy accepts. -/
def Confirmed (world : Appraisers) (quote : Bytes) (policy : RaTlsPolicy) : Prop :=
  ∀ i server, policy.attestation_servers[i]? = some server →
    ∃ v, world.answer i server quote = .verdict v ∧ v.success = true ∧
      tcb_status_acceptable v.tcb_status policy.acceptable_tcb_statuses = true

omit [Outside] in
@[simp] theorem read_answer_ok {server : String} {a : Answer} {v : VerifyResponse} :
    read_answer server a = .ok v ↔ a = .verdict v := by
  cases a <;> simp [read_answer]

omit [Outside] in
theorem ask_servers_ok {world : Appraisers} {quote : Bytes} {i : Nat} {servers : List String}
    {vs : List VerifyResponse} (h : ask_servers world quote i servers = .ok vs) :
    ∀ k server, servers[k]? = some server →
      ∃ v ∈ vs, world.answer (i + k) server quote = .verdict v ∧ v.success = true := by
  induction servers generalizing i vs with
  | nil => simp
  | cons server servers ih =>
    simp only [ask_servers, except_bind_ok, read_answer_ok, demand_ok, except_pure_ok] at h
    obtain ⟨v, hv, _, hsuccess, rest, hrest, rfl⟩ := h
    intro k s hk
    rcases k with _ | k
    · cases hk
      exact ⟨v, .head _, hv, hsuccess⟩
    obtain ⟨v', hmem, hv', hs'⟩ := ih hrest k s hk
    refine ⟨v', .tail v hmem, ?_, hs'⟩
    rw [← hv']
    congr 1
    omega

theorem accept_statuses_ok {acceptable : List String} {vs : List VerifyResponse}
    (h : accept_statuses acceptable vs = .ok ()) :
    ∀ v ∈ vs, tcb_status_acceptable v.tcb_status acceptable = true := by
  induction vs with
  | nil => simp
  | cons v vs ih =>
    simp only [accept_statuses, except_bind_ok, demand_ok] at h
    obtain ⟨_, hv, hrest⟩ := h
    rw [List.forall_mem_cons]
    exact ⟨hv, ih hrest⟩

theorem appraise_evidence_ok {world : Appraisers} {ev : Evidence} {policy : RaTlsPolicy}
    (h : appraise_evidence world ev policy = .ok ()) : Confirmed world ev.quote policy := by
  simp only [appraise_evidence, except_bind_ok] at h
  obtain ⟨vs, hvs, haccept⟩ := h
  intro i server hi
  unfold verify_quote_statuses at hvs
  split at hvs
  · rename_i hempty
    rw [List.isEmpty_iff] at hempty
    simp [hempty] at hi
  · simp only [except_bind_ok, demand_ok] at hvs
    obtain ⟨_, _, hask⟩ := hvs
    obtain ⟨v, hmem, hv, hsuccess⟩ := ask_servers_ok hask i server hi
    exact ⟨v, by rwa [Nat.zero_add] at hv, hsuccess, accept_statuses_ok haccept v hmem⟩

end

end EnclaveOs.Egress
