import EnclaveOs.Wasm.Apps

/-!
# Calls of app functions

What the token services and the app itself answer is part of the call's world.
-/

namespace EnclaveOs.Apps

open Lib Oidc

inductive WasmParam
  | String (s : String)
  | other (v : Value)

structure WasmCall where
  app : String
  function : String
  params : List WasmParam
  app_auth : Option String
  billing_approved : Option String

structure AuthResult where
  roles : List String
  user_id : Option String
deriving DecidableEq

/-- An `Err` of a WIT result, or another value. -/
inductive Val
  | Err (v : Value)
  | plain (v : Value)

inductive WasmResult
  | Ok (returns : List Val) (billing_charged : Option UInt64)
  | Error (message : String)

structure Tokens where
  signed : AppOidcConfig → String → Except String Value
  clock : Reply
  session : String → UInt64 → Except String String
  roles : String → List String
  platform : Option OidcConfig

def is_hex_digit (c : Char) : Bool := c.isDigit || ('a' ≤ c && c ≤ 'f') || ('A' ≤ c && c ≤ 'F')

def is_fido2_session_token (token : String) : Bool := token.toList.length = 64 && token.toList.all is_hex_digit

def verify_session (w : Tokens) (token : String) : Except String AuthResult :=
  match w.session token ((get_current_time w.clock).toOption.getD 0) with
  | .ok user_id => .ok ⟨w.roles user_id, some user_id⟩
  | .error e => .error ("app session token invalid or expired — re-authenticate (" ++ e ++ ")")

def verify_oidc (w : Tokens) (token : String) (oidc : AppOidcConfig) : Except String AuthResult :=
  (verify_app_token (fun o => w.signed o token) oidc w.clock).map fun r => ⟨r.1, r.2⟩

def verify_auth_token (w : Tokens) (token : String) (permissions : AppPermissions) : Except String AuthResult :=
  if permissions.fido2 && is_fido2_session_token token then verify_session w token
  else
    match permissions.oidc with
    | some oidc => verify_oidc w token oidc
    | none => .error "no authentication method available for this app"

def auth_methods_description (permissions : AppPermissions) : String :=
  let oidc := permissions.oidc.map fun o => "an OIDC token from " ++ o.issuer
  let fido2 := if permissions.fido2 then some "a FIDO2 session token" else none
  match oidc.toList ++ fido2.toList with
  | [] => "authentication (no method configured)"
  | methods => " or ".intercalate methods

def config_roles (id : AppId) (audience : String) : List String :=
  let hexid := Fido2.hex_encode id.toList
  [audience ++ ":app:" ++ hexid ++ ":owner", audience ++ ":app:" ++ hexid ++ ":admin"]

def has_configure_role (id : AppId) (audience : String) (roles : List String) : Bool :=
  roles.any fun role => role ∈ config_roles id audience

def OidcConfig.as_app (cfg : OidcConfig) : AppOidcConfig := ⟨cfg.issuer, cfg.audience, cfg.role_claim⟩

def check_configure_authz (w : Tokens) (call : WasmCall) (app_id : Option AppId) : Except String AuthResult := do
  let id ← ok_or app_id ("configure is owner/admin-only: app '" ++ call.app ++ "' has no current app identity")
  let token ← ok_or call.app_auth ("configure is owner/admin-only: function '" ++ call.function ++ "' on app '" ++
    call.app ++ "' requires the caller's platform OIDC bearer in app_auth")
  let cfg ← ok_or w.platform "configure requires platform OIDC configuration"
  let auth ← (verify_oidc w token (OidcConfig.as_app cfg)).mapError
    ("configure platform bearer verification failed: " ++ ·)
  demand (has_configure_role id cfg.audience auth.roles)
    ("configure is owner/admin-only: caller is not an owner/admin of app '" ++ call.app ++ "'")
  pure auth

def named_sponsor (call : WasmCall) (index : Option Nat) : Option String :=
  match index.bind fun i => call.params[i]? with
  | some (.String s) => if s = "" then none else some s
  | _ => none

def sponsor_gate (m : Module) (call : WasmCall) (rule : PriceRule) (index : Option Nat) : Except String Unit := do
  let rp ← ok_or (named_sponsor call index)
    ("payment required: function '" ++ call.function ++ "' on app '" ++ call.app ++
      "' is sponsor-priced; the request must carry the sponsoring relying party in '" ++
      rule.sponsor_from.getD "<unset>" ++ "'")
  demand (rp ∈ m.funded_rps)
    ("payment required: relying party '" ++ rp ++ "' has not funded this verification")

def pay_gate (m : Module) (call : WasmCall) : Option (PriceRule × Option Nat) → Except String Unit
  | some (rule, index) => if rule.payer = .Sponsor then sponsor_gate m call rule index else .ok ()
  | none => .ok ()

def priced_caller : Option (PriceRule × Option Nat) → Bool
  | some (rule, _) => rule.payer = .Caller
  | none => false

def expected (rule : PriceRule) : String := toString rule.credits.toNat ++ " credits"

/-- No class of callers is exempt (`wallet_class_unavailable`). -/
def consent (call : WasmCall) : Option (PriceRule × Option Nat) → Except String Unit
  | some (rule, _) =>
    if rule.payer = .Caller then
      match call.billing_approved.map trim with
      | some approved =>
        demand (approved = expected rule)
          ("payment approval mismatch: approved '" ++ approved ++ "' but this call charges " ++ expected rule ++
            " — retry with X-Billing-Approved: " ++ expected rule)
      | none =>
        .error ("payment approval required: this call charges " ++ expected rule ++
          " — retry with X-Billing-Approved: " ++ expected rule)
    else .ok ()
  | none => .ok ()

def check_owner (m : Module) (w : Tokens) (call : WasmCall) (permissions : AppPermissions) :
    Except String AuthResult := do
  let owners := m.app_owners call.app
  demand (owners ≠ []) ("owner-only: app '" ++ call.app ++
    "' has no owners team configured; redeploy from the platform to populate it")
  let token ← ok_or call.app_auth ("owner-only: function '" ++ call.function ++ "' on app '" ++ call.app ++
    "' requires the caller's platform OIDC bearer in app_auth")
  let auth ← (verify_auth_token w token permissions).mapError
    ("owner-only: app_auth verification failed: " ++ ·)
  let caller_sub ← ok_or auth.user_id ("owner-only: app_auth on '" ++ call.app ++
    "' did not yield a caller identity (need OIDC JWT with 'sub')")
  demand (caller_sub ∈ owners) ("owner-only: caller '" ++ caller_sub ++
    "' is not on the owners team for app '" ++ call.app ++ "' (team has " ++ toString owners.length ++ " member(s))")
  pure auth

def check_roles [Outside] (call : WasmCall) (policy : FunctionPolicy) (required_roles : List String)
    (auth : AuthResult) : Except String Unit :=
  demand (policy = .Authenticated ∨ required_roles = [] ∨ ∃ r ∈ auth.roles, r ∈ required_roles)
    ("access denied: function '" ++ call.function ++ "' on app '" ++ call.app ++ "' requires one of " ++
      Outside.debug required_roles)

def check_token [Outside] (w : Tokens) (call : WasmCall) (permissions : AppPermissions)
    (price_ctx : Option (PriceRule × Option Nat)) (policy : FunctionPolicy × List String) :
    Except String AuthResult := do
  let token ← ok_or call.app_auth ("authentication required: function '" ++ call.function ++ "' on app '" ++
    call.app ++ "' requires " ++ auth_methods_description permissions)
  let auth ← (verify_auth_token w token permissions).mapError ("app auth failed: " ++ ·)
  consent call price_ctx
  check_roles call policy.1 policy.2 auth
  pure auth

def check_policy [Outside] (m : Module) (w : Tokens) (call : WasmCall) (permissions : AppPermissions)
    (price_ctx : Option (PriceRule × Option Nat)) : Except String (Option AuthResult) :=
  let policy := permissions.effective call.function
  if policy.1 = .Public ∧ priced_caller price_ctx = false then .ok none
  else if policy.1 = .Owner then (check_owner m w call permissions).map some
  else (check_token w call permissions price_ctx policy).map some

def check_app_permissions [Outside] (m : Module) (w : Tokens) (call : WasmCall) : Except String (Option AuthResult) :=
  if m.config_api.lookup call.app = some call.function then
    (check_configure_authz w call (m.app_id call.app)).map some
  else
    match m.app_permissions call.app with
    | none => .ok none
    | some permissions => do
      pay_gate m call (m.price_context call.app call.function)
      check_policy m w call permissions (m.price_context call.app call.function)

structure Run where
  bytes : Except String Unit
  engine : Except String AppSchema
  instantiate : Except String Unit
  completes : Bool
  outcome : Except String (List Val)
  call_id : String

def prepare_call [Outside] (m : Module) (call : WasmCall) (run : Run) : Except String Unit :=
  match m.loaded.lookup call.app with
  | none => .error ("app '" ++ call.app ++ "' is not loaded")
  | some app => do
    demand (call.function ∈ app.exports) ("app '" ++ call.app ++ "' has no export '" ++ call.function ++
      "'. Available: [" ++ ", ".intercalate (app.exports.dedup.insertionSort (· ≤ ·)) ++ "]")
    run.instantiate

def start_call [Outside] (m : Module) (call : WasmCall) (run : Run) : Except String Unit × Module :=
  match m.ensure_app_loaded call.app run.bytes run.engine with
  | (.error e, m) => (.error e, m)
  | (.ok _, m) =>
    if m.is_frozen call.app call.function then (.error "app is awaiting initial configuration", m)
    else
      match m.billing_frozen.lookup call.app with
      | some reason => (.error ("app frozen: " ++ reason), m)
      | none => (prepare_call (m.touch call.app) call run, m.touch call.app)

def owed (m : Module) (call : WasmCall) (fee_caller : Option String) :
    Option (UInt64 × Option String × Option String) :=
  (m.price_context call.app call.function).bind fun (rule, index) =>
    match rule.payer with
    -- no subject: nobody to charge
    | .Caller => fee_caller.map fun sub => (rule.credits, some sub, none)
    | .Sponsor => (named_sponsor call index).map fun rp => (rule.credits, none, some rp)

def charge (m : Module) (call : WasmCall) (run : Run) (fee_caller : Option String) : Option UInt64 × Module :=
  match owed m call fee_caller with
  | some (credits, caller_sub, sponsor_rp) =>
    (some credits, m.record_api_fee call.app call.function run.call_id caller_sub sponsor_rp credits)
  | none => (none, m)

def wit_err : List Val → Bool
  | .Err _ :: _ => true
  | _ => false

def execute (m : Module) (kv : Kv) (call : WasmCall) (run : Run) : Module :=
  if run.completes then m.mark_configured kv call.app else m

def finish_call (m : Module) (kv : Kv) (call : WasmCall) (run : Run) (fee_caller : Option String) :
    WasmResult × Module :=
  match run.outcome with
  | .error e => (.Error ("call failed: " ++ e), m)
  | .ok returns =>
    if wit_err returns then (.Ok returns none, m)
    else
      let m := if m.config_api.lookup call.app = some call.function then m.mark_configured kv call.app else m
      ((charge m call run fee_caller).map (.Ok returns) id)

def dispatch_call [Outside] (m : Module) (kv : Kv) (call : WasmCall) (auth : Option AuthResult) (run : Run) :
    WasmResult × Module :=
  match start_call m call run with
  | (.error e, m) => (.Error e, m)
  | (.ok _, m) => finish_call (execute m kv call run) kv call run (auth.bind AuthResult.user_id)

structure World where
  tokens : Tokens
  kv : Kv
  run : Run
  json_to_wasm_param : Value → String → Except String WasmParam

def run_call [Outside] (m : Module) (w : World) (call : WasmCall) : WasmResult × Module :=
  match check_app_permissions m w.tokens call with
  | .error e => (.Error e, m)
  | .ok auth => dispatch_call m w.kv call auth w.run

structure ConnectCall where
  app : String
  function : String
  body : Value
  app_auth : Option String
  billing_approved : Option String

def connect_to_wasm_call [Outside] (m : Module) (w : World) (call : ConnectCall) : Except String WasmCall := do
  let app ← m.resolve_app call.app
  let info ← ok_or (m.known.lookup app) ("app '" ++ app ++ "' is not loaded")
  let schema ← ok_or info.schema ("app '" ++ app ++ "' has no schema — try reloading it")
  let func ← ok_or (schema.find_function call.function) ("function '" ++ call.function ++ "' not found in app '" ++
    app ++ "'. Available: [" ++ ", ".intercalate (schema.paths.map fun e => e.2.name) ++ "]")
  let params ← func.params.mapM fun p => w.json_to_wasm_param ((call.body.get p).getD .null) p
  pure ⟨app, call.function, params, call.app_auth, call.billing_approved⟩

def run_connect_call [Outside] (m : Module) (w : World) (call : ConnectCall) : WasmResult × Module :=
  match connect_to_wasm_call m w call with
  | .error e => (.Error e, m)
  | .ok call => run_call m w call

/-! ## What an admitted call has passed -/

variable {call : WasmCall}

section

variable {ctx : Option (PriceRule × Option Nat)} {u : Unit}

theorem payer_ok (p : Payer) {g : PriceRule → Option Nat → Except String Unit} {P : PriceRule → Option Nat → Prop}
    (hg : ∀ rule index, g rule index = .ok u ↔ P rule index) :
    (match ctx with
      | some (rule, index) => if rule.payer = p then g rule index else .ok ()
      | none => .ok ()) = .ok u ↔ ∀ rule index, ctx = some (rule, index) → rule.payer = p → P rule index := by
  rcases ctx with _ | ⟨rule, index⟩
  · simp
  simp only [Option.some.injEq, Prod.mk.injEq]
  split
  · rename_i hpayer
    rw [hg]
    constructor
    · rintro h _ _ ⟨rfl, rfl⟩ -
      exact h
    · intro h
      exact h rule index ⟨rfl, rfl⟩ hpayer
  · rename_i hpayer
    refine iff_of_true rfl ?_
    rintro _ _ ⟨rfl, rfl⟩ h
    exact absurd h hpayer

theorem pay_gate_ok {m : Module} :
    pay_gate m call ctx = .ok u ↔ ∀ rule index, ctx = some (rule, index) → rule.payer = .Sponsor →
      ∃ rp, named_sponsor call index = some rp ∧ rp ∈ m.funded_rps :=
  payer_ok .Sponsor fun rule index => by simp only [sponsor_gate, except_bind_ok, ok_or_ok, demand_ok]

theorem consent_ok :
    consent call ctx = .ok u ↔ ∀ rule index, ctx = some (rule, index) → rule.payer = .Caller →
      call.billing_approved.map trim = some (expected rule) :=
  payer_ok .Caller fun rule _ => by cases call.billing_approved.map trim <;> simp

end

theorem check_configure_authz_ok {w : Tokens} {app_id : Option AppId} {auth : AuthResult} :
    check_configure_authz w call app_id = .ok auth ↔ ∃ id token cfg, app_id = some id ∧
      call.app_auth = some token ∧ w.platform = some cfg ∧ verify_oidc w token (OidcConfig.as_app cfg) = .ok auth ∧
      has_configure_role id cfg.audience auth.roles = true := by
  simp only [check_configure_authz, except_bind_ok, ok_or_ok, except_mapError_ok, demand_ok, except_pure_ok]
  constructor
  · rintro ⟨id, hid, token, htoken, cfg, hcfg, a, ha, _, hrole, rfl⟩
    exact ⟨id, token, cfg, hid, htoken, hcfg, ha, hrole⟩
  · rintro ⟨id, token, cfg, hid, htoken, hcfg, ha, hrole⟩
    exact ⟨id, hid, token, htoken, cfg, hcfg, auth, ha, (), hrole, rfl⟩

theorem check_owner_ok {m : Module} {w : Tokens} {p : AppPermissions} {auth : AuthResult} :
    check_owner m w call p = .ok auth ↔ ∃ token sub, call.app_auth = some token ∧
      verify_auth_token w token p = .ok auth ∧ auth.user_id = some sub ∧ sub ∈ m.app_owners call.app := by
  simp only [check_owner, except_bind_ok, ok_or_ok, except_mapError_ok, demand_ok, except_pure_ok]
  constructor
  · rintro ⟨_, -, token, htoken, a, ha, sub, hsub, _, hmem, rfl⟩
    exact ⟨token, sub, htoken, ha, hsub, hmem⟩
  · rintro ⟨token, sub, htoken, ha, hsub, hmem⟩
    exact ⟨(), List.ne_nil_of_mem hmem, token, htoken, auth, ha, sub, hsub, (), hmem, rfl⟩

theorem except_map_some_ok {α : Type} {x : Except String α} {o : Option α} :
    x.map some = .ok o ↔ ∃ a, o = some a ∧ x = .ok a := by
  cases x <;> simp [Except.map, eq_comm]

section Gate

variable [Outside]

variable {w : Tokens} {call : WasmCall}

theorem check_token_ok {p : AppPermissions} {ctx : Option (PriceRule × Option Nat)}
    {policy : FunctionPolicy × List String} {auth : AuthResult} :
    check_token w call p ctx policy = .ok auth ↔ ∃ token, call.app_auth = some token ∧
      verify_auth_token w token p = .ok auth ∧ consent call ctx = .ok () ∧
      (policy.1 = .Authenticated ∨ policy.2 = [] ∨ ∃ r ∈ auth.roles, r ∈ policy.2) := by
  simp only [check_token, check_roles, except_bind_ok, ok_or_ok, except_mapError_ok, demand_ok, except_pure_ok]
  constructor
  · rintro ⟨token, htoken, a, ha, _, hconsent, _, hroles, rfl⟩
    exact ⟨token, htoken, ha, hconsent, hroles⟩
  · rintro ⟨token, htoken, ha, hconsent, hroles⟩
    exact ⟨token, htoken, auth, ha, (), hconsent, (), hroles, rfl⟩

theorem check_policy_ok {m : Module} {p : AppPermissions}
    {ctx : Option (PriceRule × Option Nat)} {auth : Option AuthResult} :
    check_policy m w call p ctx = .ok auth ↔
      (((p.effective call.function).1 = .Public ∧ priced_caller ctx = false) ∧ auth = none) ∨
      ((p.effective call.function).1 = .Owner ∧ ∃ a, auth = some a ∧ check_owner m w call p = .ok a) ∨
      (¬ ((p.effective call.function).1 = .Public ∧ priced_caller ctx = false) ∧
        (p.effective call.function).1 ≠ .Owner ∧
        ∃ a, auth = some a ∧ check_token w call p ctx (p.effective call.function) = .ok a) := by
  unfold check_policy
  dsimp only
  by_cases hopen : (p.effective call.function).1 = .Public ∧ priced_caller ctx = false
  · simp [hopen, eq_comm]
  rw [if_neg hopen]
  by_cases howner : (p.effective call.function).1 = .Owner
  · rw [if_pos howner, except_map_some_ok]
    simp [howner]
  · rw [if_neg howner, except_map_some_ok]
    simp only [hopen, howner, false_and, false_or, not_false_eq_true, true_and, ne_eq]

theorem check_app_permissions_ok {m : Module} {auth : Option AuthResult} :
    check_app_permissions m w call = .ok auth ↔
      (m.config_api.lookup call.app = some call.function ∧
        ∃ a, auth = some a ∧ check_configure_authz w call (m.app_id call.app) = .ok a) ∨
      (m.config_api.lookup call.app ≠ some call.function ∧ m.app_permissions call.app = none ∧ auth = none) ∨
      (m.config_api.lookup call.app ≠ some call.function ∧ ∃ p, m.app_permissions call.app = some p ∧
        pay_gate m call (m.price_context call.app call.function) = .ok () ∧
        check_policy m w call p (m.price_context call.app call.function) = .ok auth) := by
  unfold check_app_permissions
  split
  · rename_i hconfig
    simp [hconfig, except_map_some_ok]
  · rename_i hconfig
    rcases hp : m.app_permissions call.app with _ | p
    · simp [hconfig, eq_comm]
    · simp [hconfig, except_bind_ok, Unique.exists_iff]

end Gate

end EnclaveOs.Apps
