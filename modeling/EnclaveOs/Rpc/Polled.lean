import EnclaveOs.Lib.Bytes
import EnclaveOs.Host.Wake

/-!
# Polled execution operations

The host answers every request once and in order. An operation ends with the next response of the queue.
-/

namespace EnclaveOs.Rpc

open Host (RpcRole)
open Lib (Bytes)

inductive RpcMethod
  | NetTcpConnect
  | NetSend
  | NetRecv
  | NetClose
  | WorkerStorage
  | KvPutDurable
  | other (code : UInt16)
deriving DecidableEq

structure HonestRpcIdentity where
  role : RpcRole
  node_id : UInt64
  node_generation : UInt64
  operation_id : Nat
  method : RpcMethod
deriving DecidableEq

def HONEST_REQ_HEADER_SIZE : Nat := 38
def MAX_HONEST_RPC_PAYLOAD_BYTES : Nat := 1024 * 1024
def MAX_MSG_SIZE : Nat := 4 * 1024 * 1024 - 4

def honest_role_allows_method : RpcRole → RpcMethod → Bool
  | .Control, .KvPutDurable => true
  | .Execution, .NetTcpConnect | .Execution, .NetSend | .Execution, .NetRecv | .Execution, .NetClose
  | .Execution, .WorkerStorage => true
  | _, _ => false

def framed_payload_len_valid (payload header message_maximum : Nat) : Bool :=
  payload < 2 ^ 32 && payload + header ≤ min message_maximum MAX_MSG_SIZE

inductive PolledExecutionRpcError
  | MethodDenied
  | InvalidRequest
  | Busy
  | OperationIdExhausted
  | QueueFull
  | NotPending
  | UnexpectedResponse
deriving DecidableEq

/-- The requests not answered yet and the responses published. -/
structure Client where
  message_maximum : Nat
  in_flight_request_id : Nat := 0
  next_req_id : Nat := 1
  requests : List HonestRpcIdentity := []
  responses : List (HonestRpcIdentity × Int × Bytes) := []

namespace Client

variable (c : Client)

def try_execution_request (room : Bool) (node_id node_generation : UInt64) (method : RpcMethod) (payload : Bytes) :
    Except PolledExecutionRpcError HonestRpcIdentity × Client :=
  if !honest_role_allows_method .Execution method then (.error .MethodDenied, c)
  else if !framed_payload_len_valid payload.length HONEST_REQ_HEADER_SIZE c.message_maximum then
    (.error .InvalidRequest, c)
  else if 2 ^ 64 ≤ c.next_req_id + 1 then (.error .OperationIdExhausted, c)
  else
    -- The counter moves even when the endpoint is taken.
    let taken := { c with next_req_id := c.next_req_id + 1 }
    if c.in_flight_request_id ≠ 0 then (.error .Busy, taken)
    else if node_id = 0 ∨ node_generation = 0 ∨ MAX_HONEST_RPC_PAYLOAD_BYTES < payload.length then
      (.error .InvalidRequest, taken)
    else if !room then (.error .QueueFull, taken)
    else
      let identity := ⟨.Execution, node_id, node_generation, c.next_req_id, method⟩
      (.ok identity, { taken with in_flight_request_id := c.next_req_id, requests := c.requests ++ [identity] })

def poll_execution_rpc (pending : HonestRpcIdentity) :
    Except PolledExecutionRpcError (Option (Int × Bytes)) × Client :=
  if c.in_flight_request_id ≠ pending.operation_id then (.error .NotPending, c)
  else match c.responses with
    | [] => (.ok none, c)
    | (identity, completion) :: rest =>
      (if identity = pending then .ok (some completion) else .error .UnexpectedResponse,
        { c with in_flight_request_id := 0, responses := rest })

def abandon_execution_rpc (pending : HonestRpcIdentity) : Except PolledExecutionRpcError Unit × Client :=
  if c.in_flight_request_id = pending.operation_id then (.ok (), { c with in_flight_request_id := 0 })
  else (.error .NotPending, c)

def outstanding : List HonestRpcIdentity := c.responses.map Prod.fst ++ c.requests

end Client

/-! ## Runs of the client -/

/-- `other` is another client of the counter, `answer` the honest host. -/
inductive Event
  | submit (room : Bool) (node_id node_generation : UInt64) (method : RpcMethod) (payload : Bytes)
  | poll (token : Nat)
  | abandon (token : Nat)
  | answer (status : Int) (payload : Bytes)
  | other

/-- The tokens given out, how many were abandoned, and for each ended operation whether it failed and how many
were abandoned before. -/
structure Trace where
  client : Client
  issued : List HonestRpcIdentity := []
  abandoned : Nat := 0
  ended : List (Bool × Nat) := []

namespace Trace

def record (t : Trace) : Except PolledExecutionRpcError (Option (Int × Bytes)) → List (Bool × Nat)
  | .ok (some _) => t.ended ++ [(false, t.abandoned)]
  | .error .UnexpectedResponse => t.ended ++ [(true, t.abandoned)]
  | _ => t.ended

def step (t : Trace) : Event → Trace
  | .submit room node_id node_generation method payload =>
    let (r, c) := t.client.try_execution_request room node_id node_generation method payload
    { t with client := c, issued := t.issued ++ r.toOption.toList }
  | .poll token =>
    match t.issued[token]? with
    | none => t
    | some pending =>
      let (r, c) := t.client.poll_execution_rpc pending
      { t with client := c, ended := t.record r }
  | .abandon token =>
    match t.issued[token]? with
    | none => t
    | some pending =>
      let (r, c) := t.client.abandon_execution_rpc pending
      { t with client := c, abandoned := t.abandoned + r.toOption.toList.length }
  | .answer status payload =>
    match t.client.requests with
    | [] => t
    | identity :: rest =>
      { t with client := { t.client with
          requests := rest, responses := t.client.responses ++ [(identity, status, payload)] } }
  | .other => { t with client := { t.client with next_req_id := t.client.next_req_id + 1 } }

def run (message_maximum : Nat) (events : List Event) : Trace := events.foldl step { client := { message_maximum } }

def unexpected (t : Trace) : Nat := t.ended.countP Prod.fst

def late (t : Trace) : Nat := t.ended.countP (0 < ·.2)

/-! ## One request at a time -/

/-- Ahead stands one response for every abandoned operation. -/
structure Inv (t : Trace) (current : Option HonestRpcIdentity) : Prop where
  in_flight : t.client.in_flight_request_id = (current.map (·.operation_id)).getD 0
  ahead : ∃ stale, t.client.outstanding = stale ++ current.toList ∧ stale.length = t.abandoned ∧
    ∀ x ∈ stale, ∀ y ∈ current, x.operation_id ≠ y.operation_id
  ids : ∀ x ∈ t.issued ++ t.client.outstanding, 0 < x.operation_id ∧ x.operation_id < t.client.next_req_id
  token : ∀ x ∈ t.issued, ∀ y ∈ current, x.operation_id = y.operation_id → x = y
  positive : 0 < t.client.next_req_id
  ended : ∀ e ∈ t.ended, e.1 = true ↔ 0 < e.2

variable {t : Trace} {current : Option HonestRpcIdentity}

section

variable (h : Inv t current)

include h

theorem Inv.later : Inv { t with client := { t.client with next_req_id := t.client.next_req_id + 1 } } current :=
  { h with
    ids := fun x hx => ⟨(h.ids x hx).1, Nat.lt_succ_of_lt (h.ids x hx).2⟩
    positive := Nat.succ_pos _ }

theorem Inv.submit (room : Bool) (node_id node_generation : UInt64) (method : RpcMethod)
    (payload : Bytes) : ∃ current', Inv (t.step (.submit room node_id node_generation method payload)) current' := by
  simp only [step, Client.try_execution_request]
  split
  · simpa [Except.toOption] using ⟨current, h⟩
  split
  · simpa [Except.toOption] using ⟨current, h⟩
  split
  · simpa [Except.toOption] using ⟨current, h⟩
  split
  · simpa [Except.toOption] using ⟨current, h.later⟩
  rename_i hidle
  split
  · simpa [Except.toOption] using ⟨current, h.later⟩
  split
  · simpa [Except.toOption] using ⟨current, h.later⟩
  -- Every request known so far has a smaller id than the new one.
  have hold := h.ids
  have hnone : current.toList = [] := by
    rcases current with _ | x
    · rfl
    obtain ⟨stale, hout, -, -⟩ := h.ahead
    have hx := (hold x (by simp [hout])).1
    have hf := h.in_flight
    simp only [Option.map_some, Option.getD_some] at hf
    omega
  obtain ⟨stale, hout, hlen, -⟩ := h.ahead
  rw [hnone, List.append_nil] at hout
  refine ⟨some ⟨.Execution, node_id, node_generation, t.client.next_req_id, method⟩, rfl,
    ⟨stale, ?_, hlen, ?_⟩, ?_, ?_, Nat.succ_pos _, h.ended⟩
  · simp [Client.outstanding, ← hout]
  · intro x hx y hy
    cases hy
    exact Nat.ne_of_lt (hold x (by simp [hout, hx])).2
  · intro x hx
    have hx' : x ∈ t.issued ++ t.client.outstanding ∨ x.operation_id = t.client.next_req_id := by
      simp only [Except.toOption, Option.toList_some, Client.outstanding, List.mem_append, List.mem_singleton] at hx ⊢
      rcases hx with (hx | rfl) | hx | hx | rfl
      · exact .inl (.inl hx)
      · exact .inr rfl
      · exact .inl (.inr (.inl hx))
      · exact .inl (.inr (.inr hx))
      · exact .inr rfl
    rcases hx' with hx | hx
    · exact ⟨(hold x hx).1, Nat.lt_succ_of_lt (hold x hx).2⟩
    · exact ⟨hx ▸ h.positive, hx ▸ Nat.lt_succ_self _⟩
  · intro x hx y hy he
    cases hy
    simp only [Except.toOption, Option.toList_some, List.mem_append, List.mem_singleton] at hx
    rcases hx with hx | rfl
    · have := (hold x (by simp [hx])).2
      exact absurd he (Nat.ne_of_lt this)
    · rfl

theorem Inv.current_of {pending : HonestRpcIdentity} (hp : pending ∈ t.issued)
    (he : t.client.in_flight_request_id = pending.operation_id) : current = some pending := by
  have hpos := (h.ids pending (by simp [hp])).1
  have hf := h.in_flight
  rcases current with _ | y
  · simp only [Option.map_none, Option.getD_none] at hf; omega
  · simp only [Option.map_some, Option.getD_some] at hf
    rw [h.token pending hp y rfl (by omega)]

theorem Inv.poll (token : Nat) : ∃ current', Inv (t.step (.poll token)) current' := by
  simp only [step]
  split
  · exact ⟨current, h⟩
  rename_i pending hi
  have hp := List.mem_of_getElem? hi
  simp only [Client.poll_execution_rpc]
  split
  · exact ⟨current, h⟩
  rename_i he
  have hcur := h.current_of hp (not_not.mp he)
  subst hcur
  split
  · exact ⟨_, h⟩
  rename_i identity completion rest hresp
  -- The head of the queue is stale exactly when something was abandoned.
  obtain ⟨stale, hout, hlen, hne⟩ := h.ahead
  have hids : ∀ x ∈ t.issued ++ (rest.map Prod.fst ++ t.client.requests),
      0 < x.operation_id ∧ x.operation_id < t.client.next_req_id := by
    intro x hx
    refine h.ids x ?_
    simp only [Client.outstanding, hresp, List.map_cons, List.mem_append, List.mem_cons] at hx ⊢
    tauto
  simp only [Client.outstanding, hresp, List.map_cons, List.cons_append, Option.toList_some] at hout
  have hkey : (rest.map Prod.fst ++ t.client.requests).length = t.abandoned ∧
      (identity ≠ pending ↔ 0 < t.abandoned) := by
    rcases stale with _ | ⟨x, stale⟩
    · obtain ⟨rfl, hrest⟩ := List.cons.inj hout
      simp [hrest, ← hlen]
    obtain ⟨rfl, hrest⟩ := List.cons.inj hout
    have hother : identity ≠ pending := fun heq => hne identity (.head _) pending rfl (by rw [heq])
    refine ⟨?_, fun _ => hlen ▸ Nat.succ_pos _, fun _ => hother⟩
    rw [← hlen, hrest]
    simp
  refine ⟨none, rfl, ⟨_, (List.append_nil _).symm, hkey.1, by simp⟩, hids, by simp, h.positive, ?_⟩
  intro e hmem
  by_cases heq : identity = pending
  · simp only [heq, if_true, record, List.mem_append, List.mem_singleton] at hmem
    rcases hmem with hmem | rfl
    · exact h.ended e hmem
    · simpa [heq] using hkey.2
  · simp only [heq, if_false, record, List.mem_append, List.mem_singleton] at hmem
    rcases hmem with hmem | rfl
    · exact h.ended e hmem
    · simpa [heq] using hkey.2

theorem Inv.abandon (token : Nat) : ∃ current', Inv (t.step (.abandon token)) current' := by
  simp only [step]
  split
  · exact ⟨current, h⟩
  rename_i pending hi
  simp only [Client.abandon_execution_rpc]
  split
  · rename_i he
    have hcur := h.current_of (List.mem_of_getElem? hi) he
    subst hcur
    obtain ⟨stale, hout, hlen, -⟩ := h.ahead
    exact ⟨none, rfl, ⟨stale ++ [pending], by simpa [Client.outstanding] using hout,
      by simp [Except.toOption, hlen], by simp⟩, h.ids, by simp, h.positive, h.ended⟩
  · exact ⟨current, h⟩

theorem Inv.step (e : Event) : ∃ current', Inv (t.step e) current' := by
  cases e with
  | submit room node_id node_generation method payload => exact h.submit room node_id node_generation method payload
  | poll token => exact h.poll token
  | abandon token => exact h.abandon token
  | answer status payload =>
    simp only [Trace.step]
    split
    · exact ⟨current, h⟩
    rename_i identity rest hreq
    -- A response takes the place of its request.
    have hsame : t.client.outstanding =
        (t.client.responses ++ [(identity, status, payload)]).map Prod.fst ++ rest := by
      simp [Client.outstanding, hreq]
    have hahead := h.ahead
    have hids := h.ids
    rw [hsame] at hahead hids
    exact ⟨current, h.in_flight, hahead, hids, h.token, h.positive, h.ended⟩
  | other => exact ⟨current, h.later⟩

end

theorem inv_run (message_maximum : Nat) (events : List Event) :
    ∃ current, Inv (run message_maximum events) current := by
  induction events using List.reverseRecOn with
  | nil => exact ⟨none, rfl, ⟨[], rfl, rfl, by simp⟩, by simp [run, Client.outstanding], by simp, Nat.one_pos, by simp [run]⟩
  | append_singleton events e ih =>
    obtain ⟨current, h⟩ := ih
    rw [run, List.foldl_append]
    exact h.step e

/-- Once an operation was abandoned every poll that ends one fails. So failures stay within the abandoned exactly
while no more operations end. -/
theorem unexpected_bounded_iff (message_maximum : Nat) (events : List Event) :
    let t := run message_maximum events
    (∀ e ∈ t.ended, e.1 = true ↔ 0 < e.2) ∧ (t.unexpected ≤ t.abandoned ↔ t.late ≤ t.abandoned) := by
  intro t
  obtain ⟨current, h⟩ := inv_run message_maximum events
  have hcount : t.unexpected = t.late := List.countP_congr fun e he => by simpa using h.ended e he
  exact ⟨h.ended, by rw [hcount]⟩

/-- One abandoned operation, and the two that follow it both fail. -/
theorem unexpected_unbounded :
    let send : Event := .submit true 1 1 .NetSend []
    let t := run 4096 [send, .abandon 0, send, .answer 0 [], .poll 1, send, .answer 0 [], .poll 2]
    t.abandoned = 1 ∧ t.unexpected = 2 := by decide

end Trace

end EnclaveOs.Rpc
