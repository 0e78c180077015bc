import EnclaveOs.Lib.MonitorCalls

/-!
# Wake signals of the RPC dispatchers (`dispatcher_wake.rs`)

Each of the two dispatchers and the two workers has one retained bit. A dispatcher looks at its queue before it
takes the mutex, so a signal may come in between.
-/

namespace EnclaveOs.Host

open Lib.Monitor

inductive RpcRole
  | Control
  | Execution
deriving DecidableEq

inductive Mutex
  | pending
  | responses
deriving DecidableEq

abbrev Consumer := Mutex × RpcRole

abbrev Code := List (Instr Mutex Consumer)

def notify : Code := [.acquire .pending, .raise .pending fun _ => true, .wakeAll .pending, .release .pending]

def notify_response (role : RpcRole) : Code :=
  [.acquire .responses, .raise .responses fun k => k.2 = role, .wakeAll .responses, .release .responses]

-- The revision count and the datagram are for waits on sockets.
def notify_execution_cancel : Code := notify_response .Execution

def shutdown : Code :=
  [.acquire .responses, .halt .responses, .wakeAll .responses, .release .responses] ++
    notify_execution_cancel ++ [.halt .pending] ++ notify

/-- A legacy response is published without a signal. -/
inductive Call
  | request (role : RpcRole)
  | notify
  | respond (role : RpcRole)
  | respond_legacy (role : RpcRole)
  | notify_execution_cancel
  | shutdown

def Call.code : Call → Code
  | .request role => .push (.pending, role) true :: Host.notify
  | .notify => Host.notify
  | .respond role => .push (.responses, role) true :: notify_response role
  | .respond_legacy role => [.push (.responses, role) false]
  | .notify_execution_cancel => Host.notify_execution_cancel
  | .shutdown => Host.shutdown

def wait (_bit _shutdown : Bool) : Bool × Int := (false, 0)

def wait_response (bit stopped : Bool) : Bool × Int :=
  if stopped then (bit, -1) else if bit then (false, 0) else (bit, 1)

def rules : Rules Mutex Consumer Call where
  mon := Prod.fst
  code := Call.code
  guarded := by
    rintro (role | _ | role | role | _ | _)
    all_goals simp [Call.code, notify, notify_response, notify_execution_cancel, shutdown, Instr.Guarded,
      Instr.holding]
  polls
    | .pending => true
    | .responses => false
  timed
    | .pending => false
    | .responses => true
  leave
    | .pending => wait
    | .responses => wait_response

theorem calls_announce (k : Consumer) (c : Call) : Instr.Announces k.1 k c.code := by
  obtain ⟨m, role⟩ := k
  rcases c with r | _ | r | r | _ | _ <;> cases m
  all_goals simp +contextual [Call.code, notify, notify_response, notify_execution_cancel, shutdown, Instr.Announces,
    Instr.Raises, Instr.Wakes]

variable {T : Type} [DecidableEq T]

abbrev reach (moves : List (Move T Consumer Call)) : Sys Mutex Consumer T := Sys.init.run rules moves

def asleep : List (Move Unit Consumer Call) :=
  List.replicate 6 (.turn (.pending, .Control) [] false) ++ [.call () [.request .Control], .exec ()]

def answered : List (Move Unit Consumer Call) := .call () [.respond .Execution] :: List.replicate 5 (.exec ())

end EnclaveOs.Host
