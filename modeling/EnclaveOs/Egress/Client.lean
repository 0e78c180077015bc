import EnclaveOs.Egress.Exchange

/-! # Clients of attested connections -/

namespace EnclaveOs.Egress

open Lib

section

variable [Outside]

def MAX_INCREMENTAL_TLS_FRAGMENT : Nat := 1024 * 1024

def MAX_INCREMENTAL_REQUEST : Nat := 512 * 1024

def MAX_INCREMENTAL_PLAINTEXT : Nat := 2 * 1024 * 1024

structure IncrementalTlsClient where
  handshaking : Bool
  ratls : Option RaTlsPolicy
  channel_verified : Bool
  plaintext : Bytes
  /-- Whether the configuration has a client identity. -/
  identity : Bool
  exchange : Option Exchange
  appraisal_pending : Bool
  failed : Bool
  -- what only the proofs look at: the last appraisal that succeeded, and all application bytes
  -- that TLS took for encryption
  appraised : Option Appraisers
  accepted : Bytes

namespace IncrementalTlsClient

def validate_attested_challenge (policy : RaTlsPolicy) : Except String Unit :=
  match policy.report_data with
  | .deterministic => .error "attested-only TLS requires challenge-response report data"
  | .challengeResponse nonce =>
    demand (nonce.length = 32) "attested-only TLS challenge must be exactly 32 bytes"

def from_config (ratls : Option RaTlsPolicy) (appraisal_pending : Bool) (built : Except String Unit) :
    Except String IncrementalTlsClient := do
  built
  return {
    handshaking := true, ratls, channel_verified := false, plaintext := []
    identity := (ratls.bind (·.client_identity)).isSome, exchange := none, appraisal_pending, failed := false
    appraised := none, accepted := [] }

def new (ratls : Option RaTlsPolicy) (built : Except String Unit) : Except String IncrementalTlsClient := do
  demand (∀ policy ∈ ratls, policy.attestation_servers = [])
    "incremental TLS requires separately pumped quote appraisal"
  from_config ratls false built

def new_attested (policy : RaTlsPolicy) (built : Except String Unit) : Except String IncrementalTlsClient := do
  validate_attested_challenge policy
  demand (policy.mr_enclave ≠ none ∨ policy.mr_td ≠ none)
    "attested-only TLS requires an expected enclave measurement"
  demand (policy.attestation_servers ≠ []) "attested-only TLS requires a quote-appraisal service"
  from_config (some policy) (!policy.attestation_servers.isEmpty) built

def new_attested_deferred (policy : RaTlsPolicy) (built : Except String Unit) :
    Except String IncrementalTlsClient := do
  validate_attested_challenge policy
  demand (policy.client_identity ≠ none ∧ policy.attestation_servers = [])
    "deferred mutual TLS requires a client identity and external appraisal owner"
  from_config (some policy) false built

def is_ready (c : IncrementalTlsClient) : Bool :=
  !c.failed && !c.appraisal_pending && !c.handshaking && c.channel_verified

def needs_remote_appraisal (c : IncrementalTlsClient) : Bool := !c.failed && c.channel_verified && c.appraisal_pending

def peer_evidence (c : IncrementalTlsClient) : Option Evidence :=
  if c.failed then none else c.exchange.bind (·.peer_evidence)

def close (c : IncrementalTlsClient) : IncrementalTlsClient := { c with failed := true }

/-- `append_plaintext` until nothing is left. The pool may refuse. -/
def drain_plaintext (refuses : Bytes → Option String) (plaintext : Bytes) : List Read → Except String Unit × Bytes
  | [] => (.ok (), plaintext)
  | .closed :: _ => (.ok (), plaintext)
  | .wouldBlock :: _ => (.ok (), plaintext)
  | .failed error :: _ => (.error ("incremental TLS plaintext read failed: " ++ error), plaintext)
  | .data bytes :: reads =>
    if plaintext.length + bytes.length > MAX_INCREMENTAL_PLAINTEXT then
      (.error "incremental TLS plaintext exceeds profile bound", plaintext)
    else
      match refuses bytes with
      | some e => (.error e, plaintext)
      | none => drain_plaintext refuses (plaintext ++ bytes) reads

def drain_if_ready (t : Turn) (c : IncrementalTlsClient) : Except String Unit × IncrementalTlsClient :=
  if c.is_ready then
    let drained := drain_plaintext t.refuses c.plaintext t.drained
    (drained.1, { c with plaintext := drained.2 })
  else (.ok (), c)

def current_exchange (conn : Connection) (policy : RaTlsPolicy) (t : Turn) (c : IncrementalTlsClient) :
    Except String Exchange :=
  match c.exchange with
  | some x => .ok x
  | none => Exchange.start conn policy c.handshaking t

def advance_exchange (conn : Connection) (policy : RaTlsPolicy) (t : Turn) (c : IncrementalTlsClient) :
    Except String Unit × IncrementalTlsClient :=
  match c.current_exchange conn policy t with
  | .error e => (.error e, c)
  | .ok x =>
    match x.advance conn policy c.identity t with
    | (.error e, x') => (.error e, { c with exchange := some x' })
    | (.ok _, x') => drain_if_ready t { c with exchange := some x', channel_verified := x'.is_complete }

def advance_attestation (conn : Connection) (t : Turn) (c : IncrementalTlsClient) :
    Except String Unit × IncrementalTlsClient :=
  if c.handshaking then (.ok (), c)
  else
    match c.ratls with
    | none => drain_if_ready t { c with channel_verified := true }
    | some policy => c.advance_exchange conn policy t

inductive Fed
  | unreadable (error : String)
  | stuck
  | rejected (error : String)
  | processed (handshaking : Bool) (turn : Turn)

/-- The loop, and the last step behind it. -/
def feed_packets (conn : Connection) (last : Turn) (c : IncrementalTlsClient) :
    List Fed → Except String Unit × IncrementalTlsClient
  | [] => c.advance_attestation conn last
  | .stuck :: _ => c.advance_attestation conn last
  | .unreadable e :: _ => (.error ("incremental TLS read failed: " ++ e), c)
  | .rejected e :: _ => (.error ("incremental TLS packet rejected: " ++ e), c)
  | .processed handshaking turn :: rest =>
    match { c with handshaking := c.handshaking && handshaking }.advance_attestation conn turn with
    | (.error e, c') => (.error e, c')
    | (.ok _, c') => c'.feed_packets conn last rest

def feed_tls_bytes_inner (conn : Connection) (bytes : Bytes) (packets : List Fed) (last : Turn)
    (c : IncrementalTlsClient) : Except String Unit × IncrementalTlsClient :=
  if bytes.length > MAX_INCREMENTAL_TLS_FRAGMENT then
    (.error "incremental TLS fragment exceeds profile bound", c)
  else c.feed_packets conn last packets

def feed_tls_bytes (conn : Connection) (bytes : Bytes) (packets : List Fed) (last : Turn)
    (c : IncrementalTlsClient) : Except String Unit × IncrementalTlsClient :=
  if c.failed then (.error "incremental TLS previously failed", c)
  else
    match c.feed_tls_bytes_inner conn bytes packets last with
    | (.error e, c') => (.error e, { c' with failed := true })
    | (.ok u, c') => (.ok u, c')

def write_plaintext (bytes : Bytes) (taken : Nat) (refused : Option String) (c : IncrementalTlsClient) :
    Except String Unit × IncrementalTlsClient :=
  if !c.is_ready then (.error "incremental TLS handshake is not ready", c)
  else if bytes.length > MAX_INCREMENTAL_REQUEST then
    (.error "incremental TLS request exceeds profile bound", c)
  else
    match refused with
    | some e => (.error ("incremental TLS plaintext write failed: " ++ e),
      { c with accepted := c.accepted ++ bytes.take taken })
    | none => (.ok (), { c with accepted := c.accepted ++ bytes })

def appraise_pending_evidence (world : Appraisers) (c : IncrementalTlsClient) :
    Except String Unit × IncrementalTlsClient :=
  if !c.needs_remote_appraisal then (.error "no pending remote appraisal", c)
  else
    match c.peer_evidence with
    | none => (.error "RA-TLS evidence missing", c)
    | some evidence =>
      match c.ratls with
      | none => (.error "RA-TLS policy missing", c)
      | some policy =>
        match appraise_evidence world evidence policy with
        | .ok _ => (.ok (), { c with appraisal_pending := false, appraised := some world })
        | .error e => (.error e, { c with failed := true })

def withdraw (policy : RaTlsPolicy) (c : IncrementalTlsClient) : IncrementalTlsClient :=
  { c with
    channel_verified := false, appraisal_pending := !policy.attestation_servers.isEmpty, exchange := none }

def re_attest (conn : Connection) (wants_write : Bool) (random : Option (Register 32)) (t : Turn)
    (c : IncrementalTlsClient) : Except String (Register 32) × IncrementalTlsClient :=
  if !c.is_ready then (.error "RA-TLS renewal requires a ready connection", c)
  else if wants_write || !c.plaintext.isEmpty then
    (.error "RA-TLS renewal requires drained application buffers", c)
  else
    match c.ratls with
    | none => (.error "RA-TLS renewal requires a policy", c)
    | some policy =>
      match policy.report_data with
      | .deterministic => (.error "RA-TLS renewal requires challenge mode", c)
      | .challengeResponse _ =>
        match random with
        | none => (.error "RA-TLS renewal entropy unavailable", (c.withdraw policy).close)
        | some nonce =>
          let policy' := { policy with report_data := .challengeResponse nonce.val }
          match { c.withdraw policy with ratls := some policy' }.advance_attestation conn t with
          | (.error e, c') => (.error e, c'.close)
          | (.ok _, c') => (.ok nonce, c')

def take_plaintext (c : IncrementalTlsClient) : Bytes × IncrementalTlsClient :=
  (c.plaintext, { c with plaintext := [] })

inductive Call
  | feed (bytes : Bytes) (packets : List Fed) (last : Turn)
  | write (bytes : Bytes) (taken : Nat) (refused : Option String)
  | appraise (world : Appraisers)
  | re_attest (wants_write : Bool) (random : Option (Register 32)) (turn : Turn)
  | take
  | close

def step (conn : Connection) (c : IncrementalTlsClient) : Call → IncrementalTlsClient
  | .feed bytes packets last => (c.feed_tls_bytes conn bytes packets last).2
  | .write bytes taken refused => (c.write_plaintext bytes taken refused).2
  | .appraise world => (c.appraise_pending_evidence world).2
  | .re_attest wants_write random turn => (c.re_attest conn wants_write random turn).2
  | .take => c.take_plaintext.2
  | .close => c.close

/-- A client of one of the three constructors, whatever TLS made of it. -/
def Made (policy : RaTlsPolicy) (c : IncrementalTlsClient) : Prop :=
  ∃ built, new (some policy) built = .ok c ∨ new_attested policy built = .ok c ∨
    new_attested_deferred policy built = .ok c

end IncrementalTlsClient

/-! ## The blocking fetch -/

inductive Pumped
  | unreadable
  | stalled
  | rejected
  | processed (turn : Turn)

/-- One turn of the loop of `run_blocking`. -/
structure Round where
  flushed : Bool
  turn : Turn
  flushed_again : Bool
  received : Option (List Pumped)

def pump (conn : Connection) (policy : RaTlsPolicy) (identity : Bool) (x : Exchange) :
    List Pumped → Except String Exchange
  | [] => .ok x
  | .unreadable :: _ => .error "RA-TLS: evidence TLS read failed"
  | .stalled :: _ => .error "RA-TLS: evidence TLS read stalled"
  | .rejected :: _ => .error "RA-TLS: evidence TLS record rejected"
  | .processed turn :: rest => do
    let x ← x.advance_inner conn policy identity turn
    pump conn policy identity x rest

/-- Without another round it is still waiting for the host. -/
def run_rounds (conn : Connection) (policy : RaTlsPolicy) (identity : Bool) (world : Appraisers) (x : Exchange) :
    List Round → Option (Except String Exchange)
  | [] => none
  | r :: rounds =>
    if r.flushed = false then some (.error "RA-TLS: evidence flush failed")
    else
      match x.advance_inner conn policy identity r.turn with
      | .error e => some (.error e)
      | .ok x =>
        if x.is_complete then
          some (do
            let evidence ← ok_or x.peer_evidence "RA-TLS: evidence missing"
            appraise_evidence world evidence policy
            return x)
        else if r.flushed_again = false then some (.error "RA-TLS: evidence flush failed")
        else
          match r.received with
          | none => some (.error "RA-TLS: evidence connection closed")
          | some packets =>
            match pump conn policy identity x packets with
            | .error e => some (.error e)
            | .ok x => run_rounds conn policy identity world x rounds

def run_blocking (conn : Connection) (policy : RaTlsPolicy) (identity : Bool) (world : Appraisers) (first : Turn)
    (rounds : List Round) : Option (Except String Exchange) :=
  match Exchange.start conn policy false first with
  | .error e => some (.error e)
  | .ok x => run_rounds conn policy identity world x rounds

/-- What the host and TLS answer to a fetch besides the exchange. -/
structure FetchWorld where
  handshake : Except String Unit
  appraisers : Appraisers
  first : Turn
  rounds : List Round
  chain : Except String Unit
  authorized : Except String Unit
  taken : Nat

/-- With a policy, up to the writes: the bytes that TLS took. -/
def https_request_connected (conn : Connection) (policy : RaTlsPolicy) (w : FetchWorld) (request : Bytes) : Bytes :=
  match w.handshake with
  | .error _ => []
  | .ok _ =>
    match run_blocking conn policy policy.client_identity.isSome w.appraisers w.first w.rounds with
    | none => []
    | some (.error _) => []
    | some (.ok _) =>
      match w.chain, w.authorized with
      | .ok _, .ok _ => request.take w.taken
      | _, _ => []

end

end EnclaveOs.Egress
