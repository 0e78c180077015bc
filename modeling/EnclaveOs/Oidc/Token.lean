import EnclaveOs.Lib.Search

/-!
# Bearer tokens (`verify_oidc_token`, `verify_app_token`)

The signature step is taken as given. The host answers the clock call as it likes.
-/

namespace EnclaveOs.Oidc

open Lib

/-! ## JSON values (`request_json`) -/

inductive Number where
  | posInt (n : UInt64)
  /-- The number `-(n + 1)`: a number of this kind is below zero. -/
  | negInt (n : Fin (2 ^ 63))
  /-- The bits of a double: nothing here reads them. -/
  | float (bits : UInt64)

inductive Value where
  | null
  | bool (b : Bool)
  | number (n : Number)
  | string (s : String)
  | array (values : List Value)
  | object (entries : List (String × Value))

def Value.get (v : Value) (key : String) : Option Value :=
  match v with
  | .object entries => (entries.find? fun e => e.1 = key).map Prod.snd
  | _ => none

def Value.as_str : Value → Option String
  | .string s => some s
  | _ => none

def Value.as_u64 : Value → Option UInt64
  | .number (.posInt n) => some n
  | _ => none

variable {v claims : Value} {clock : Reply}

@[simp] theorem Value.as_str_eq_some {s : String} : v.as_str = some s ↔ v = .string s := by
  cases v <;> simp [Value.as_str]

structure Reply where
  status : Int32
  resp : Bytes

def decode_u64 (p : Bytes) : Option UInt64 :=
  if p.length < 8 then none else some (u64OfLe (slice p 0 8))

def get_current_time (clock : Reply) : Except Int32 UInt64 :=
  if clock.status = 0 then .ok ((decode_u64 clock.resp).getD 0) else .error clock.status

def audience_ok (audience : String) : Option Value → Bool
  | some (.string s) => s = audience
  | some (.array arr) => arr.any fun v => v.as_str = some audience
  | _ => false

def check_expiry (claims : Value) (clock : Reply) : Except String Unit :=
  match (claims.get "exp").bind Value.as_u64 with
  | some exp =>
    let now := (get_current_time clock).toOption.getD 0
    if exp < now then .error "JWT token expired" else .ok ()
  -- no such claim, or not a u64: nothing is compared
  | none => .ok ()

def validate (issuer audience : String) (claims : Value) (clock : Reply) : Except String Unit :=
  match (claims.get "iss").bind Value.as_str with
  | none => .error "JWT missing 'iss' claim"
  | some iss =>
    if iss ≠ issuer then .error ("JWT issuer '" ++ iss ++ "' != expected '" ++ issuer ++ "'")
    else if audience_ok audience (claims.get "aud") = false then
      .error ("JWT audience does not contain '" ++ audience ++ "'")
    else check_expiry claims clock

structure OidcConfig where
  issuer : String
  audience : String
  role_claim : String
  manager_role : String
  monitoring_role : String

structure OidcClaims where
  sub : String
  roles : List String
  is_manager : Bool
  is_monitoring : Bool
  amr : List String
  acr : Option String
  iat : UInt64
  exp : UInt64
  vault_op : Option String
  nonce : Option String

inductive OidcError where
  | Invalid
  | Unavailable
deriving DecidableEq

def push_new (out : List String) (s : String) : List String := if s ∈ out then out else out ++ [s]

def push_strings (arr : List Value) (out : List String) : List String :=
  (arr.filterMap Value.as_str).foldl push_new out

def collect_role_strings (v : Value) (out : List String) : List String :=
  match v with
  | .object entries => (entries.map Prod.fst).foldl push_new out
  | .array arr => push_strings arr out
  | _ => out

def collect_at (v : Option Value) (out : List String) : List String :=
  match v with
  | some v => collect_role_strings v out
  | none => out

def extract_roles (claims : Value) (config : OidcConfig) : List String :=
  let roles := collect_at (claims.get config.role_claim) []
  let roles := if config.role_claim ≠ "roles" then collect_at (claims.get "roles") roles else roles
  collect_at ((claims.get "realm_access").bind fun ra => ra.get "roles") roles

def extract_amr (claims : Value) : List String :=
  match claims.get "amr" with
  | some (.array arr) => push_strings arr []
  | _ => []

def text (claims : Value) (key : String) : Option String := (claims.get key).bind Value.as_str

def seconds (claims : Value) (key : String) : UInt64 := ((claims.get key).bind Value.as_u64).getD 0

def OidcClaims.from_raw (sub : String) (roles : List String) (config : OidcConfig) : OidcClaims :=
  let is_manager := roles.any (· = config.manager_role)
  { sub, roles, is_manager
    is_monitoring := is_manager || roles.any (· = config.monitoring_role)
    amr := [], acr := none, iat := 0, exp := 0, vault_op := none, nonce := none }

def read_claims (claims : Value) (config : OidcConfig) : OidcClaims :=
  { OidcClaims.from_raw ((text claims "sub").getD "") (extract_roles claims config) config with
    amr := extract_amr claims
    acr := text claims "acr"
    iat := seconds claims "iat"
    exp := seconds claims "exp"
    vault_op := text claims "vault_op"
    nonce := text claims "nonce" }

/-- `pool` says whether the local allocation pool is there. -/
def verify_oidc_token (config : Option OidcConfig) (pool : Bool) (signed : OidcConfig → Except OidcError Value)
    (clock : Reply) : Except OidcError OidcClaims :=
  match config with
  | none => .error .Invalid
  | some config =>
    if pool = false then .error .Unavailable
    else
      match signed config with
      | .error err => .error err
      | .ok claims =>
        match validate config.issuer config.audience claims clock with
        | .error _ => .error .Invalid
        | .ok _ => .ok (read_claims claims config)

/-! ## Tokens of an app's own users -/

structure AppOidcConfig where
  issuer : String
  audience : String
  roles_claim : String

/-- Here repetitions stay: the caller sorts and dedups at the end. -/
def app_role_strings : Option Value → List String
  | some (.array arr) => arr.filterMap Value.as_str
  | some (.object entries) => entries.map Prod.fst
  | _ => []

def app_roles (claims : Value) (oidc : AppOidcConfig) : List String :=
  let roles := app_role_strings (claims.get oidc.roles_claim) ++ app_role_strings (claims.get "roles") ++
    app_role_strings ((claims.get "realm_access").bind fun ra => ra.get "roles")
  (roles.insertionSort (· ≤ ·)).destutter (· ≠ ·)

def verify_app_token (signed : AppOidcConfig → Except String Value) (oidc : AppOidcConfig) (clock : Reply) :
    Except String (List String × Option String) :=
  match signed oidc with
  | .error err => .error err
  | .ok claims =>
    match validate oidc.issuer oidc.audience claims clock with
    | .error err => .error err
    | .ok _ => .ok (app_roles claims oidc, text claims "sub")

/-! ## What acceptance should mean -/

def Value.as_int : Value → Option Int
  | .number (.posInt n) => some n.toNat
  | .number (.negInt n) => some (.negSucc n)
  | _ => none

def reading (clock : Reply) : Option UInt64 := if clock.status = 0 then decode_u64 clock.resp else none

/-- The claims name this issuer and, alone or in a list, this audience. -/
def Names (issuer audience : String) (claims : Value) : Prop :=
  claims.get "iss" = some (.string issuer) ∧
    (claims.get "aud" = some (.string audience) ∨
      ∃ arr, claims.get "aud" = some (.array arr) ∧ Value.string audience ∈ arr)

/-- An integer expiry, not before the time the host told. -/
def Current (claims : Value) (clock : Reply) : Prop :=
  ∃ exp now, (claims.get "exp").bind Value.as_int = some exp ∧ reading clock = some now ∧ (now.toNat : Int) ≤ exp

def Subject (claims : Value) (sub : String) : Prop := sub ≠ "" ∧ claims.get "sub" = some (.string sub)

def OidcSound (config : OidcConfig) (claims : Value) (clock : Reply) : Prop :=
  ∀ oc, verify_oidc_token (some config) true (fun _ => .ok claims) clock = .ok oc →
    Names config.issuer config.audience claims ∧ Current claims clock ∧ Subject claims oc.sub

def AppSound (oidc : AppOidcConfig) (claims : Value) (clock : Reply) : Prop :=
  ∀ out, verify_app_token (fun _ => .ok claims) oidc clock = .ok out →
    Names oidc.issuer oidc.audience claims ∧ Current claims clock

/-! ## When the checks pass -/

theorem bind_as_str {v : Option Value} {s : String} : v.bind Value.as_str = some s ↔ v = some (.string s) := by
  cases v <;> simp

theorem audience_ok_iff {audience : String} {aud : Option Value} : audience_ok audience aud = true ↔
    aud = some (.string audience) ∨ ∃ arr, aud = some (.array arr) ∧ Value.string audience ∈ arr := by
  unfold audience_ok
  split
  · simp
  · simp
  · rename_i hstring harray
    simp only [Bool.false_eq_true, false_iff, not_or, not_exists, not_and]
    exact ⟨fun h => hstring _ h, fun arr h => absurd h (harray arr)⟩

theorem toOption_get_current_time (clock : Reply) :
    (get_current_time clock).toOption.getD 0 = (reading clock).getD 0 := by
  unfold get_current_time reading
  split <;> rfl

theorem check_expiry_eq_ok : check_expiry claims clock = .ok () ↔
    ∀ exp, (claims.get "exp").bind Value.as_u64 = some exp → (reading clock).getD 0 ≤ exp := by
  unfold check_expiry
  split
  · rename_i exp hexp
    simp only [toOption_get_current_time, hexp, Option.some.injEq, forall_eq']
    split
    · rename_i hlt
      simp [UInt64.not_le.mpr hlt]
    · rename_i hle
      simp [UInt64.not_lt.mp hle]
  · rename_i hnone
    simp [hnone]

theorem validate_eq_ok {issuer audience : String} : validate issuer audience claims clock = .ok () ↔
      Names issuer audience claims ∧ check_expiry claims clock = .ok () := by
  unfold validate Names
  rw [← bind_as_str, ← audience_ok_iff]
  split
  · rename_i hnone
    simp [hnone]
  · rename_i iss hiss
    rw [hiss]
    by_cases heq : iss = issuer <;> by_cases haud : audience_ok audience (claims.get "aud") = true <;>
      simp [heq, haud]

/-! ## What the checks leave open -/

theorem as_int_of_as_u64 {n : UInt64} (h : v.as_u64 = some n) : v.as_int = some n.toNat := by
  unfold Value.as_u64 at h
  split at h
  · rw [Option.some.inj h]
    rfl
  · cases h

/-- An expiry that the code reads, and a clock that answers. -/
def Timed (claims : Value) (clock : Reply) (exp now : UInt64) : Prop :=
  (claims.get "exp").bind Value.as_u64 = some exp ∧ reading clock = some now

theorem current_iff : Current claims clock ↔ ∃ exp now, Timed claims clock exp now ∧ now ≤ exp := by
  unfold Current Timed
  rcases claims.get "exp" with _ | v
  · simp
  simp only [Option.bind_some]
  constructor
  · rintro ⟨exp, now, hexp, hnow, hle⟩
    unfold Value.as_int at hexp
    split at hexp
    · rename_i n
      obtain rfl := Option.some.inj hexp
      exact ⟨n, now, ⟨rfl, hnow⟩, UInt64.le_iff_toNat_le.mpr (by exact_mod_cast hle)⟩
    · obtain rfl := Option.some.inj hexp
      exact absurd hle (by simp only [Int.negSucc_eq]; omega)
    · cases hexp
  · rintro ⟨exp, now, ⟨hexp, hnow⟩, hle⟩
    exact ⟨exp.toNat, now, as_int_of_as_u64 hexp, hnow, by exact_mod_cast UInt64.le_iff_toNat_le.mp hle⟩

theorem check_expiry_ne_ok : check_expiry claims clock ≠ .ok () ↔
    ∃ exp now, Timed claims clock exp now ∧ exp < now := by
  rw [ne_eq, check_expiry_eq_ok]
  push Not
  unfold Timed
  constructor
  · rintro ⟨exp, hexp, hlt⟩
    rcases hnow : reading clock with _ | now
    · rw [hnow] at hlt
      exact absurd UInt64.zero_le hlt
    · exact ⟨exp, now, ⟨hexp, rfl⟩, by simpa [hnow] using hlt⟩
  · rintro ⟨exp, now, ⟨hexp, hnow⟩, hlt⟩
    exact ⟨exp, hexp, by simpa [hnow] using hlt⟩

theorem current_of_ok (h : check_expiry claims clock = .ok ()) :
    Current claims clock ↔ ∃ exp now, Timed claims clock exp now := by
  rw [current_iff]
  constructor
  · rintro ⟨exp, now, htimed, -⟩
    exact ⟨exp, now, htimed⟩
  · rintro ⟨exp, now, htimed⟩
    refine ⟨exp, now, htimed, UInt64.not_lt.mp fun hlt => ?_⟩
    exact check_expiry_ne_ok.mpr ⟨exp, now, htimed, hlt⟩ h

theorem subject_iff : Subject claims ((text claims "sub").getD "") ↔ ∃ sub, Subject claims sub := by
  constructor
  · exact fun h => ⟨_, h⟩
  · rintro ⟨sub, hne, hsub⟩
    have htext : text claims "sub" = some sub := bind_as_str.mpr hsub
    rw [htext]
    exact ⟨hne, hsub⟩

theorem verify_oidc_token_eq_ok {config : OidcConfig} {oc : OidcClaims} :
    verify_oidc_token (some config) true (fun _ => .ok claims) clock = .ok oc ↔
      (Names config.issuer config.audience claims ∧ check_expiry claims clock = .ok ()) ∧
        read_claims claims config = oc := by
  rw [← validate_eq_ok]
  cases hv : validate config.issuer config.audience claims clock <;> simp [verify_oidc_token, hv]

theorem verify_app_token_eq_ok {oidc : AppOidcConfig} {out : List String × Option String} :
    verify_app_token (fun _ => .ok claims) oidc clock = .ok out ↔
      (Names oidc.issuer oidc.audience claims ∧ check_expiry claims clock = .ok ()) ∧
        (app_roles claims oidc, text claims "sub") = out := by
  rw [← validate_eq_ok]
  cases hv : validate oidc.issuer oidc.audience claims clock <;> simp [verify_app_token, hv]

/-- What a token that names the right parties has to show. -/
theorem sound_iff {names subject : Prop} :
    (names → check_expiry claims clock = .ok () → Current claims clock ∧ subject) ↔
      ¬ names ∨ ∃ exp now, Timed claims clock exp now ∧ (exp < now ∨ subject) := by
  rw [imp_iff_not_or]
  refine or_congr_right ?_
  by_cases hok : check_expiry claims clock = .ok ()
  · have hfresh : ¬ ∃ exp now, Timed claims clock exp now ∧ exp < now := fun h => check_expiry_ne_ok.mpr h hok
    rw [current_of_ok hok]
    constructor
    · rintro h
      obtain ⟨⟨exp, now, htimed⟩, hsub⟩ := h hok
      exact ⟨exp, now, htimed, .inr hsub⟩
    · rintro ⟨exp, now, htimed, hlt | hsub⟩ -
      · exact absurd ⟨exp, now, htimed, hlt⟩ hfresh
      · exact ⟨⟨exp, now, htimed⟩, hsub⟩
  · obtain ⟨exp, now, htimed, hlt⟩ := check_expiry_ne_ok.mp hok
    exact ⟨fun _ => ⟨exp, now, htimed, .inl hlt⟩, fun _ h => absurd h hok⟩

/-- Acceptance is sound exactly with an expiry, a subject and a clock that answers. -/
theorem tokens_sound_iff (config : OidcConfig) (oidc : AppOidcConfig) (claims : Value) (clock : Reply) :
    (OidcSound config claims clock ↔ ¬ Names config.issuer config.audience claims ∨
      ∃ exp now, Timed claims clock exp now ∧ (exp < now ∨ ∃ sub, Subject claims sub)) ∧
    (AppSound oidc claims clock ↔ ¬ Names oidc.issuer oidc.audience claims ∨
      ∃ exp now, Timed claims clock exp now) := by
  constructor
  · simp only [← sound_iff, OidcSound, verify_oidc_token_eq_ok, and_imp, ← subject_iff]
    constructor
    · intro h hnames hok
      exact (h _ hnames hok rfl).2
    · rintro h oc hnames hok rfl
      exact ⟨hnames, h hnames hok⟩
  · have hsound := @sound_iff claims clock (Names oidc.issuer oidc.audience claims) True
    simp only [and_true, or_true] at hsound
    simp only [← hsound, AppSound, verify_app_token_eq_ok, and_imp]
    constructor
    · intro h hnames hok
      exact (h _ hnames hok rfl).2
    · rintro h out hnames hok -
      exact ⟨hnames, h hnames hok⟩

def platform : OidcConfig := ⟨"https://idp", "platform", "roles", "manager", "monitoring"⟩

def bearer (claims : List (String × Value)) : Value :=
  .object ([("iss", .string "https://idp"), ("aud", .string "platform")] ++ claims)

def noon : Reply := ⟨0, u64Le 1700000000⟩

/-- No expiry, an expiry long past with a failing clock, and no subject. -/
theorem accepted_unsound :
    (∃ oc, verify_oidc_token (some platform) true (fun _ => .ok (bearer [("sub", .string "alice")])) noon = .ok oc ∧
      oc.sub = "alice" ∧ ¬ Current (bearer [("sub", .string "alice")]) noon) ∧
    (∃ out, verify_app_token (fun _ => .ok (bearer [("exp", .number (.posInt 1))])) ⟨"https://idp", "platform", "roles"⟩
        ⟨-1, []⟩ = .ok out ∧ ¬ Current (bearer [("exp", .number (.posInt 1))]) ⟨-1, []⟩) ∧
    ∃ oc, verify_oidc_token (some platform) true (fun _ => .ok (bearer [("exp", .number (.posInt 1800000000))])) noon =
      .ok oc ∧ oc.sub = "" := by
  refine ⟨⟨_, verify_oidc_token_eq_ok.mpr ⟨⟨?_, ?_⟩, rfl⟩, ?_, ?_⟩, ⟨_, verify_app_token_eq_ok.mpr ⟨⟨?_, ?_⟩, rfl⟩, ?_⟩,
    ⟨_, verify_oidc_token_eq_ok.mpr ⟨⟨?_, ?_⟩, rfl⟩, ?_⟩⟩
  · exact ⟨rfl, .inl rfl⟩
  · rfl
  · rfl
  · rintro ⟨exp, now, hexp, -⟩
    cases hexp
  · exact ⟨rfl, .inl rfl⟩
  · rfl
  · rintro ⟨exp, now, -, hnow, -⟩
    cases hnow
  · exact ⟨rfl, .inl rfl⟩
  · decide
  · rfl

end EnclaveOs.Oidc
