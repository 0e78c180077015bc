import EnclaveOs.Egress.Evidence

/-! # The evidence exchange -/

namespace EnclaveOs.Egress

open Lib

section

variable [Outside]

structure Connection where
  peer_leaf : Option Bytes
  /-- By label and context. -/
  exporter : String → Bytes → Option (Register 32)

def EXPORTER_LABEL_SERVER : String := "EXPORTER-privasys-ratls-attest-v2"

def EXPORTER_LABEL_CLIENT : String := "EXPORTER-privasys-ratls-attest-v2-client"

def MAX_HEADERS : Nat := 4096

inductive Phase
  | serverEvidence
  | clientAcknowledgement
  | complete
  | failed
  deriving DecidableEq, Repr

structure Exchange where
  phase : Phase
  mode : AttestationMode
  context : Option (Register 32)
  hctx : Option (Register 32)
  response : Bytes
  peer : Option Evidence
  own : Option Evidence
  -- what only the proofs look at: the peer's answer to the request for evidence, and the acknowledgement
  answer : Option AttestResponse
  acknowledged : Option (Nat × Bytes)
  deriving DecidableEq

/-- What is answered while the exchange goes one step. -/
structure Turn where
  request_written : Except String Unit
  reads : List Read
  now : UInt64
  signer : Option (Register 64 → Option Bytes)
  presented_leaf : Option Bytes
  evidence_written : Except String Unit
  drained : List Read
  refuses : Bytes → Option String

def binding (conn : Connection) (policy : RaTlsPolicy) :
    Except String (AttestationMode × Option (Register 32) × Option (Register 32)) :=
  match policy.report_data with
  | .deterministic => .ok (.deterministic, none, none)
  | .challengeResponse nonce => do
    let context ← ok_or (register? 32 nonce) "RA-TLS: context must be exactly 32 bytes"
    let hctx ← ok_or (conn.exporter EXPORTER_LABEL_SERVER context.val) "RA-TLS: server exporter unavailable"
    return (.challenge, some context, some hctx)

def peer_key (conn : Connection) : Except String (X509Certificate × Bytes) := do
  let leaf ← ok_or conn.peer_leaf "RA-TLS: peer leaf missing"
  let (cert, _) ← ok_or (Outside.from_der leaf) "RA-TLS: malformed peer leaf"
  let spki ← validated_spki cert
  return (cert, spki)

def Exchange.start (conn : Connection) (policy : RaTlsPolicy) (handshaking : Bool) (t : Turn) :
    Except String Exchange := do
  demand (handshaking = false) "RA-TLS: TLS handshake incomplete"
  let leaf ← ok_or conn.peer_leaf "RA-TLS: peer leaf missing"
  verify_ratls_leaf leaf policy
  let _ ← peer_key conn
  let (mode, context, hctx) ← binding conn policy
  t.request_written
  return {
    phase := .serverEvidence, mode, context, hctx, response := [], peer := none, own := none,
    answer := none, acknowledged := none }

def digit (b : UInt8) : Bool := 0x30 ≤ b && b ≤ 0x39

def header_name_byte (b : UInt8) : Bool := digit b || (0x41 ≤ b && b ≤ 0x5a) || (0x61 ≤ b && b ≤ 0x7a) || b == 0x2d

/-- One header line: the length that is known so far. -/
def frame_line (length : Option Nat) (line : List Char) : Except String (Option Nat) := do
  let (name, value) ← ok_or (split_colon line) "RA-TLS: malformed response header"
  demand (name ≠ [] ∧ (utf8 (String.ofList name)).all header_name_byte = true)
    "RA-TLS: invalid response header name"
  demand (eq_ignore_ascii_case name "transfer-encoding".toList = false)
    "RA-TLS: transfer encoding is not allowed"
  if eq_ignore_ascii_case name "content-length".toList then do
    let value := trim value
    demand (length = none ∧ value ≠ [] ∧ (utf8 (String.ofList value)).all digit = true)
      "RA-TLS: ambiguous response length"
    let n ← ok_or (from_str_radix 10 (2 ^ 64) value) "RA-TLS: invalid response length"
    return some n
  else return length

def frame_status (line : List Char) : Except String Nat := do
  let words := line.splitOn ' '
  demand (words.head? = some "HTTP/1.1".toList) "RA-TLS: invalid HTTP version"
  let word ← ok_or (words[1]?.filter fun s =>
    (utf8 (String.ofList s)).length = 3 && (utf8 (String.ofList s)).all digit) "RA-TLS: invalid HTTP status"
  ok_or (from_str_radix 10 (2 ^ 16) word) "RA-TLS: invalid HTTP status"

def frame_length (length : Option Nat) (status : Nat) : Except String Nat :=
  match length with
  | some n => .ok n
  | none => if status = 204 then .ok 0 else .error "RA-TLS: response length missing"

def response_frame (data : Bytes) : Except String (Option (Nat × Bytes)) :=
  match position header_end data with
  | none => if data.length > MAX_HEADERS then .error "RA-TLS: response headers too large" else .ok none
  | some ends => do
    demand (ends + 4 ≤ MAX_HEADERS) "RA-TLS: response headers too large"
    let header ← ok_or (from_utf8 (data.take ends)) "RA-TLS: invalid response headers"
    let lines := split_lines header.toList
    let status ← frame_status (lines.headD [])
    let length ← lines.tail.foldlM frame_line none
    let length ← frame_length length status
    demand (length ≤ MAX_MESSAGE ∧ ¬ (status = 204 ∧ length ≠ 0)) "RA-TLS: invalid response body length"
    if data.length < ends + 4 + length then return none
    else do
      demand (data.length = ends + 4 + length) "RA-TLS: unsolicited trailing plaintext"
      return some (status, data.drop (ends + 4))

def read_response (response : Bytes) : List Read → Except String Bytes
  | [] => .ok response
  | .wouldBlock :: _ => .ok response
  | .closed :: _ => .error "RA-TLS: peer closed during evidence exchange"
  | .failed _ :: _ => .error "RA-TLS: evidence plaintext read failed"
  | .data bytes :: reads => do
    demand (response.length + bytes.length ≤ MAX_MESSAGE + MAX_HEADERS)
      "RA-TLS: evidence response exceeds profile bound"
    read_response (response ++ bytes) reads

def client_evidence (conn : Connection) (t : Turn) (context : Register 32) : Except String Evidence := do
  let signer ← ok_or t.signer "RA-TLS: client signer unavailable"
  let leaf ← ok_or t.presented_leaf "RA-TLS: no client leaf was presented"
  let (cert, _) ← ok_or (Outside.from_der leaf) "RA-TLS: malformed client leaf"
  let spki ← validated_spki cert
  let hctx ← ok_or (conn.exporter EXPORTER_LABEL_CLIENT context.val) "RA-TLS: client exporter unavailable"
  let quote ← ok_or (signer (challenge_report_data spki context.val hctx.val none))
    "RA-TLS: client evidence declined"
  demand (quote ≠ [] ∧ quote.length ≤ MAX_MESSAGE) "RA-TLS: client quote exceeds profile bound"
  return ⟨.challenge, "sgx", quote, none, format_quote_time (as_i64 t.now), some context, some hctx⟩

def Exchange.on_evidence (x : Exchange) (conn : Connection) (policy : RaTlsPolicy) (identity : Bool) (t : Turn)
    (status : Nat) (body : Bytes) : Except String Exchange := do
  demand (status = 200) ("RA-TLS: evidence endpoint returned " ++ toString status)
  let (evidence, client_context) ← parse_response body x.mode x.context x.hctx (as_i64 t.now)
  let (cert, spki) ← peer_key conn
  let _ ← verify_evidence_locally cert spki evidence policy
  demand (policy.client_identity = none ∨ client_context ≠ none)
    "RA-TLS: mutual evidence was required by the client policy"
  let x := { x with answer := (Outside.attest_response body).toOption }
  match client_context with
  | none => return { x with peer := some evidence, response := [], phase := .complete }
  | some context => do
    demand (identity = true) "RA-TLS: server requires a client identity"
    let own ← client_evidence conn t context
    t.evidence_written
    return { x with
      peer := some evidence, response := [], own := some own, phase := .clientAcknowledgement }

def Exchange.on_acknowledgement (x : Exchange) (status : Nat) (body : Bytes) : Except String Exchange := do
  demand ((status = 200 ∨ status = 204) ∧ body = []) "RA-TLS: client evidence acknowledgement rejected"
  return { x with response := [], phase := .complete, acknowledged := some (status, body) }

section

variable (x : Exchange) (conn : Connection) (policy : RaTlsPolicy) (identity : Bool) (t : Turn)

def Exchange.on_response : Except String Exchange := do
  let response ← read_response x.response t.reads
  match ← response_frame response with
  | none => return { x with response }
  | some (status, body) =>
    if x.phase = .clientAcknowledgement then x.on_acknowledgement status body
    else x.on_evidence conn policy identity t status body

def Exchange.advance_inner : Except String Exchange :=
  match x.phase with
  | .failed => .error "RA-TLS: evidence exchange previously failed"
  | .complete => .ok x
  | _ => x.on_response conn policy identity t

/-- Nothing that a failed exchange holds is read again. -/
def Exchange.advance : Except String Unit × Exchange :=
  match x.advance_inner conn policy identity t with
  | .ok x' => (.ok (), x')
  | .error e => (.error e, { x with phase := .failed })

end

def Exchange.is_complete (x : Exchange) : Bool := x.phase = .complete

def Exchange.peer_evidence (x : Exchange) : Option Evidence := if x.is_complete then x.peer else none

/-! ## What an exchange has established -/

/-- A challenge is bound to the nonce of the policy and to the exporter of this connection. -/
def Bound (conn : Connection) (policy : RaTlsPolicy) (mode : AttestationMode)
    (context hctx : Option (Register 32)) : Prop :=
  match policy.report_data with
  | .deterministic => mode = .deterministic
  | .challengeResponse nonce =>
    mode = .challenge ∧ ∃ n h : Register 32, n.val = nonce ∧ context = some n ∧
      conn.exporter EXPORTER_LABEL_SERVER nonce = some h ∧ hctx = some h

/-- The peer's evidence has been checked. -/
def Phase.Past (p : Phase) : Prop := p = .clientAcknowledgement ∨ p = .complete

/-- The client's own evidence is for the context that the answer names. -/
def Presented (x : Exchange) (resp : AttestResponse) : Prop :=
  ∃ text context own, resp.client_context = some text ∧ b64_decode text = .ok context.val ∧
    x.own = some own ∧ own.context = some context

/-- The peer's evidence, and what the answer that it came with asks of the client. -/
structure Checked (x : Exchange) (policy : RaTlsPolicy) (cert : X509Certificate) (spki : Bytes)
    (ev : Evidence) : Prop where
  peer : x.peer = some ev
  mode : ev.mode = x.mode
  context : ev.context = x.context
  hctx : ev.hctx = x.hctx
  matched : EvidenceMatched cert spki ev policy
  answer : ∃ resp, x.answer = some resp ∧ ev.tee = resp.tee ∧
    (policy.client_identity ≠ none → resp.client_evidence = "required") ∧
    (resp.client_evidence = "required" → Presented x resp)

/-- What an exchange has established in its phase. -/
structure Sound (conn : Connection) (policy : RaTlsPolicy) (x : Exchange) : Prop where
  bound : Bound conn policy x.mode x.context x.hctx
  leaf : ∃ leaf cert spki, conn.peer_leaf = some leaf ∧ LeafPassed leaf policy cert spki ∧
    (x.phase.Past → ∃ ev, Checked x policy cert spki ev)
  acknowledged : x.phase = .complete → ∀ resp, x.answer = some resp → resp.client_evidence = "required" →
    ∃ status, x.acknowledged = some (status, []) ∧ (status = 200 ∨ status = 204)

omit [Outside] in
theorem register?_eq {n : Nat} {b : Bytes} {r : Register n} (h : register? n b = some r) : r.val = b := by
  unfold register? at h
  split at h
  · cases h; rfl
  · cases h

variable {conn : Connection} {policy : RaTlsPolicy} {t : Turn} {x x' : Exchange} {body : Bytes}

theorem start_sound {handshaking : Bool}
    (h : Exchange.start conn policy handshaking t = .ok x) : Sound conn policy x ∧ x.phase = .serverEvidence := by
  simp only [Exchange.start, except_bind_ok, demand_ok, ok_or_ok, except_pure_ok] at h
  obtain ⟨_, _, leaf, hleaf, _, hverify, _, _, ⟨mode, context, hctx⟩, hbinding, _, _, rfl⟩ := h
  obtain ⟨cert, spki, hpassed⟩ := verify_ratls_leaf_ok hverify
  have hbound : Bound conn policy mode context hctx := by
    unfold binding at hbinding
    unfold Bound
    split at hbinding
    · cases hbinding
      rfl
    rename_i nonce
    simp only [except_bind_ok, ok_or_ok, except_pure_ok, Prod.mk.injEq] at hbinding
    obtain ⟨n, hn, e, he, rfl, rfl, rfl⟩ := hbinding
    have hval := register?_eq hn
    exact ⟨rfl, n, e, hval, rfl, hval ▸ he, rfl⟩
  refine ⟨⟨hbound, ⟨leaf, cert, spki, hleaf, hpassed, ?_⟩, ?_⟩, rfl⟩
  · rintro (h | h) <;> cases h
  · intro h
    cases h

theorem client_evidence_context {context : Register 32} {ev : Evidence}
    (h : client_evidence conn t context = .ok ev) : ev.context = some context := by
  simp only [client_evidence, except_bind_ok, except_pure_ok] at h
  obtain ⟨_, _, _, _, _, _, _, _, _, _, _, _, _, _, rfl⟩ := h
  rfl

theorem parse_client_context_ok {resp : AttestResponse} {cc : Option (Register 32)}
    (h : parse_client_context resp = .ok cc) : cc = none ∧ resp.client_evidence ≠ "required" ∨
      resp.client_evidence = "required" ∧ ∃ text context, cc = some context ∧ resp.client_context = some text ∧
        b64_decode text = .ok context.val := by
  unfold parse_client_context at h
  split at h
  · rename_i hnone
    cases h
    refine .inl ⟨rfl, fun hreq => ?_⟩
    rw [hreq] at hnone
    revert hnone
    decide
  split at h
  · rename_i hreq
    simp only [except_bind_ok, ok_or_ok, except_pure_ok] at h
    obtain ⟨text, htext, raw, hraw, context, hcontext, rfl⟩ := h
    exact .inr ⟨hreq, text, context, rfl, htext, register?_eq hcontext ▸ hraw⟩
  · cases h

theorem parse_response_ok {mode : AttestationMode} {context hctx : Option (Register 32)} {now : Int} {ev : Evidence}
    {cc : Option (Register 32)} (h : parse_response body mode context hctx now = .ok (ev, cc)) :
    ev.mode = mode ∧ ev.context = context ∧ ev.hctx = hctx ∧ ∃ resp, Outside.attest_response body = .ok resp ∧
      ev.tee = resp.tee ∧ parse_client_context resp = .ok cc := by
  simp only [parse_response, except_bind_ok, except_pure_ok, Prod.mk.injEq] at h
  obtain ⟨resp, hresp, _, _, _, _, _, _, _, _, _, _, _, _, _, _, _, _, _, hcc, rfl, rfl⟩ := h
  refine ⟨rfl, rfl, rfl, resp, ?_, rfl, hcc⟩
  cases hbody : Outside.attest_response body with
  | error e =>
    rw [hbody] at hresp
    cases hresp
  | ok r =>
    rw [hbody] at hresp
    exact hresp

section

variable (hs : Sound conn policy x)

include hs

theorem on_evidence_sound {identity : Bool} {status : Nat}
    (h : x.on_evidence conn policy identity t status body = .ok x') : Sound conn policy x' := by
  simp only [Exchange.on_evidence, except_bind_ok, demand_ok] at h
  obtain ⟨_, _, ⟨ev, cc⟩, hparse, ⟨cert, spki⟩, hkey, _, hlocal, _, hmutual, hrest⟩ := h
  obtain ⟨hmode, hcontext, hhctx, resp, hresp, htee, hcc⟩ := parse_response_ok hparse
  have hmatched := verify_evidence_locally_ok hlocal
  obtain ⟨leaf, cert', spki', hleaf, hpassed, -⟩ := hs.leaf
  -- the leaf that was checked at the start is the one whose key the evidence is bound to
  simp only [peer_key, except_bind_ok, ok_or_ok, except_pure_ok, Prod.mk.injEq] at hkey
  obtain ⟨leaf', hleaf', ⟨_, rest⟩, hcert, _, hspki, rfl, rfl⟩ := hkey
  rw [hleaf, Option.some.injEq] at hleaf'
  subst hleaf'
  rw [hpassed.parsed, Option.some.injEq, Prod.mk.injEq] at hcert
  obtain ⟨rfl, -⟩ := hcert
  rw [hpassed.spki, Except.ok.injEq] at hspki
  subst hspki
  have hanswer : (Outside.attest_response body).toOption = some resp := by
    rw [hresp]
    rfl
  simp only [hanswer] at hrest
  rcases parse_client_context_ok hcc with ⟨rfl, hnot⟩ | ⟨hreq, text, context, rfl, htext, hdecode⟩
  · cases hrest
    refine ⟨hs.bound, ⟨leaf, cert', spki', hleaf, hpassed, fun _ => ⟨ev, rfl, hmode, hcontext, hhctx, hmatched, resp, rfl,
      htee, fun hid => absurd (hmutual.resolve_left hid) (by simp), fun hreq => absurd hreq hnot⟩⟩, ?_⟩
    rintro - _ ⟨⟩ hreq
    exact absurd hreq hnot
  · simp only [except_bind_ok, demand_ok, except_pure_ok] at hrest
    obtain ⟨_, _, own, hown, _, _, rfl⟩ := hrest
    refine ⟨hs.bound, ⟨leaf, cert', spki', hleaf, hpassed, fun _ => ⟨ev, rfl, hmode, hcontext, hhctx, hmatched, resp, rfl,
      htee, fun _ => hreq, fun _ => ?_⟩⟩, fun h => (by cases h)⟩
    exact ⟨text, context, own, htext, hdecode, rfl, client_evidence_context hown⟩

theorem advance_inner_sound {identity : Bool}
    (h : x.advance_inner conn policy identity t = .ok x') : Sound conn policy x' := by
  unfold Exchange.advance_inner at h
  split at h
  · cases h
  · cases h
    exact hs
  · rename_i hnf hnc
    simp only [Exchange.on_response, except_bind_ok] at h
    obtain ⟨response, _, frame, _, h⟩ := h
    rcases frame with _ | frame
    · cases h
      obtain ⟨leaf, cert, spki, hleaf, hpassed, hpast⟩ := hs.leaf
      refine ⟨hs.bound, ⟨leaf, cert, spki, hleaf, hpassed, fun hp => ?_⟩, hs.acknowledged⟩
      obtain ⟨ev, hpeer, hmode, hcontext, hhctx, hmatched, hanswer⟩ := hpast hp
      exact ⟨ev, hpeer, hmode, hcontext, hhctx, hmatched, hanswer⟩
    dsimp only at h
    split at h
    · rename_i hphase
      simp only [Exchange.on_acknowledgement, except_bind_ok, demand_ok, except_pure_ok] at h
      obtain ⟨_, ⟨hstatus, hbody⟩, rfl⟩ := h
      obtain ⟨leaf, cert, spki, hleaf, hpassed, hpast⟩ := hs.leaf
      obtain ⟨ev, hpeer, hmode, hcontext, hhctx, hmatched, hanswer⟩ := hpast (.inl hphase)
      exact ⟨hs.bound, ⟨leaf, cert, spki, hleaf, hpassed, fun _ =>
        ⟨ev, hpeer, hmode, hcontext, hhctx, hmatched, hanswer⟩⟩, fun _ _ _ _ => ⟨_, by rw [hbody], hstatus⟩⟩
    · exact on_evidence_sound hs h

theorem failed_sound : Sound conn policy { x with phase := .failed } := by
  obtain ⟨leaf, cert, spki, hleaf, hpassed, -⟩ := hs.leaf
  refine ⟨hs.bound, ⟨leaf, cert, spki, hleaf, hpassed, ?_⟩, fun h => (by cases h)⟩
  rintro (h | h) <;> cases h

end

end

end EnclaveOs.Egress
