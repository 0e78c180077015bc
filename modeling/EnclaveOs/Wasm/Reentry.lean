import EnclaveOs.Lib.Bytes

/-! # Guest code and the registry lock -/

namespace EnclaveOs.Reentry

open Lib

abbrev Reply := Except String (List Bytes)

/-- `lock` answers `false` if the mutex is poisoned. -/
inductive Code where
  | stop
  | lock (k : Bool → Code)
  | unlock (k : Code)
  | ask (k : Reply → Code)

/-- A function goes on with its result. -/
abbrev Task (α : Type) := (α → Code) → Code

def done {α : Type} (a : α) : Task α := fun k => k a

def ask : Task Reply := .ask

def also {α : Type} (x : Task Reply) (y : Task α) : Task α := fun k => x fun _ => y k

/-- The `?` of the source. -/
def andThen (x : Task Reply) (f : List Bytes → Task Reply) : Task Reply := fun k => x fun
  | .error e => k (.error e)
  | .ok a => f a k

def locked (body : Task Reply) : Task Reply := fun k => .lock fun
  | true => body fun r => .unlock (k r)
  | false => k (.error "registry lock poisoned")

def set_attestation_extension : Task Reply := andThen (locked ask) fun _ => also ask (also ask (done (.ok [])))

/-- What the registry has changed is persisted. -/
def mark_configured : Task Reply :=
  andThen (locked ask) fun updated => if updated.isEmpty then done (.ok []) else also ask (done (.ok []))

def app_code_hash : Task Reply := locked ask

/-- The SDK functions that go back into the module, and any other one. -/
inductive HostFn where
  | set_attestation_extension (arc_suffix : UInt32) (value : Bytes)
  | set_config_complete
  | get_seal_key
  | other

structure Env where
  installed : Bool
  sovereign_root : Bool

/-- What a host function refuses before it enters the module. -/
def Env.refuses (env : Env) : HostFn → Option String
  | .other => none
  | f =>
    if !env.installed then some "wasm module not initialised"
    else match f with
      | .set_attestation_extension _ value =>
        if value.length > 4096 then some "attestation extension value exceeds 4096 bytes" else none
      | .get_seal_key => if env.sovereign_root then none else some "sovereign sealing root not initialised"
      | _ => none

/-- The sealing key is derived from what `get_seal_key` answers. -/
def Env.host (env : Env) (f : HostFn) : Task Reply :=
  match env.refuses f with
  | some message => done (.error message)
  | none =>
    match f with
    | .set_attestation_extension _ _ => Reentry.set_attestation_extension
    | .set_config_complete => mark_configured
    | .get_seal_key => app_code_hash
    | .other => ask

/-- Guest code calls host functions; it ends, or traps with a message. -/
inductive Guest where
  | done (trap : Option String)
  | call (f : HostFn) (k : Reply → Guest)

def Guest.play (env : Env) : Guest → Task (Option String)
  | .done trap, k => k trap
  | .call f g, k => env.host f fun r => (g r).play env k

/-! ## Load, call and lazy reload -/

structure Component where
  init : Guest
  function : String → Guest

/-- Linking runs the initialisation code. -/
def instantiate (env : Env) (c : Component) (message : String) : Task Reply := fun k => c.init.play env fun
  | some e => k (.error (message ++ e))
  | none => ask k

def load_app (env : Env) (c : Component) : Task Reply :=
  andThen (locked (andThen ask fun _ =>
    instantiate env c "component failed trial instantiation (linker error): ")) fun _ =>
      also ask (also (locked ask) (also ask (done (.ok []))))

/-- Under the first lock the registry says whether the app is compiled. -/
def ensure_app_loaded : Task Reply :=
  andThen (locked ask) fun loaded =>
    if loaded.isEmpty then andThen ask fun _ => locked ask else done (.ok [])

def prepare_call (env : Env) (c : Component) : Task Reply :=
  andThen ask fun _ => instantiate env c "instantiation failed: WASM instantiation failed: "

/-- The configuration gate, then the fee. -/
def finish_call (returns : List Bytes) : Task Reply := fun k => locked ask fun is_config_fn =>
  also (if is_config_fn matches .ok [] then mark_configured else done (.ok []))
    (also (locked ask) (done (.ok returns))) k

def dispatch_call (env : Env) (c : Component) (function : String) : Task Reply :=
  andThen ensure_app_loaded fun _ => andThen (locked ask) fun _ =>
    andThen (locked (prepare_call env c)) fun _ k => (c.function function).play env fun
      | some e => k (.error ("call failed: " ++ e))
      | none => andThen ask finish_call k

/-- A call, or a load if no function is named. -/
structure Request where
  component : Component
  function : Option String

def Request.run (env : Env) (r : Request) : Task Reply :=
  match r.function with
  | none => load_app env r.component
  | some function => dispatch_call env r.component function

def serve (env : Env) : List Request → Code
  | [] => .stop
  | r :: rs => r.run env fun _ => serve env rs

/-- The lock is never taken while it is held. -/
def NeverTwice : Bool → Code → Prop
  | _, .stop => True
  | held, .lock k => held = false ∧ NeverTwice true (k true) ∧ NeverTwice false (k false)
  | _, .unlock k => NeverTwice false k
  | held, .ask k => ∀ r, NeverTwice held (k r)

/-- The guest reaches no host function that enters the module. -/
def Guest.Quiet (env : Env) : Guest → Prop
  | .done _ => True
  | .call f g =>
    match env.refuses f with
    | some message => (g (.error message)).Quiet env
    | none => f = .other ∧ ∀ r, (g r).Quiet env

variable {α : Type} {held : Bool} {env : Env} {x : Task Reply}

/-- It goes on with the lock as it was. -/
def Keeps (held : Bool) (x : Task α) : Prop := ∀ k, (∀ a, NeverTwice held (k a)) → NeverTwice held (x k)

theorem keeps_done (a : α) : Keeps held (done a) := fun _ hk => hk a

theorem keeps_ask : Keeps held ask := fun _ hk r => hk r

theorem Keeps.also {y : Task α} (hx : Keeps held x) (hy : Keeps held y) : Keeps held (also x y) :=
  fun k hk => hx _ fun _ => hy k hk

theorem Keeps.andThen {f : List Bytes → Task Reply} (hx : Keeps held x) (hf : ∀ a, Keeps held (f a)) :
    Keeps held (andThen x f) := by
  refine fun k hk => hx _ fun r => ?_
  rcases r with e | a
  · exact hk _
  · exact hf a k hk

theorem Keeps.locked (hx : Keeps true x) : Keeps false (locked x) :=
  fun _ hk => ⟨rfl, hx _ fun r => hk r, hk _⟩

theorem keeps_mark_configured : Keeps false mark_configured := by
  refine keeps_ask.locked.andThen fun _ => ?_
  split
  · exact keeps_done _
  · exact keeps_ask.also (keeps_done _)

theorem keeps_play (g : Guest) : Keeps false (g.play env) := by
  induction g with
  | done trap => exact keeps_done trap
  | call f g ih =>
    suffices hhost : Keeps false (env.host f) from fun k hk => hhost _ fun r => ih r k hk
    unfold Env.host
    split
    · exact keeps_done _
    cases f with
    | set_attestation_extension =>
      exact keeps_ask.locked.andThen fun _ => keeps_ask.also (keeps_ask.also (keeps_done _))
    | set_config_complete => exact keeps_mark_configured
    | get_seal_key => exact keeps_ask.locked
    | other => exact keeps_ask

/-- Under the lock, a host function that enters the module waits for ever. -/
theorem play_quiet (g : Guest) : (∀ k, NeverTwice true (g.play env k) → g.Quiet env) ∧
    (g.Quiet env → Keeps true (g.play env)) := by
  induction g with
  | done trap => exact ⟨fun _ _ => trivial, fun _ => keeps_done trap⟩
  | call f g ih =>
    unfold Keeps Guest.Quiet Guest.play Env.host
    rcases env.refuses f with _ | message
    · cases f with
      | other => exact ⟨fun k h => ⟨rfl, fun r => (ih r).1 k (h r)⟩, fun h k hk r => (ih r).2 (h.2 r) k hk⟩
      | _ => exact ⟨fun _ h => (nomatch h.1), fun h => (nomatch h.1)⟩
    · exact ih (.error message)

theorem keeps_run {r : Request} (hc : r.component.init.Quiet env) : Keeps false (r.run env) := by
  have hinit : ∀ message, Keeps false (locked (andThen ask fun _ => instantiate env r.component message)) := by
    refine fun message => (keeps_ask.andThen fun _ k hk => (play_quiet _).2 hc _ fun trap => ?_).locked
    rcases trap with _ | e
    · exact keeps_ask k hk
    · exact hk _
  unfold Request.run
  split
  · exact (hinit _).andThen fun _ => keeps_ask.also (keeps_ask.locked.also (keeps_ask.also (keeps_done _)))
  have hloaded : Keeps false ensure_app_loaded := by
    refine keeps_ask.locked.andThen fun _ => ?_
    split
    · exact keeps_ask.andThen fun _ => keeps_ask.locked
    · exact keeps_done _
  have hfinish : ∀ returns, Keeps false (finish_call returns) := by
    refine fun _ k hk => keeps_ask.locked _ fun _ => Keeps.also ?_ (keeps_ask.locked.also (keeps_done _)) k hk
    split
    · exact keeps_mark_configured
    · exact keeps_done _
  refine hloaded.andThen fun _ => keeps_ask.locked.andThen fun _ => (hinit _).andThen fun _ k hk => ?_
  refine keeps_play _ _ fun trap => ?_
  rcases trap with _ | e
  · exact keeps_ask.andThen hfinish k hk
  · exact hk _

/-- Never twice just when no initialisation code enters the module: it runs under the lock. -/
theorem guest_lock_iff (env : Env) (C : Set Component) :
    (∀ rs : List Request, (∀ r ∈ rs, r.component ∈ C) → NeverTwice false (serve env rs)) ↔
      ∀ c ∈ C, c.init.Quiet env := by
  constructor
  · intro h c hc
    have hload := h [⟨c, none⟩] (by simpa using hc)
    exact (play_quiet _).1 _ (hload.2.1 (.ok []))
  · intro h rs hrs
    induction rs with
    | nil => trivial
    | cons r rs ih =>
      refine keeps_run (h _ (hrs r (.head _))) _ fun _ => ?_
      exact ih fun r' hr' => hrs r' (.tail _ hr')

/-- A component that completes its configuration as it is initialised. -/
theorem init_completes_config : ¬ NeverTwice false (serve ⟨true, false⟩
    [⟨⟨.call .set_config_complete fun _ => .done none, fun _ => .done none⟩, none⟩]) :=
  fun h => nomatch (h.2.1 (.ok [])).1

end EnclaveOs.Reentry
