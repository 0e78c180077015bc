import EnclaveOs.Wasm.Calls

/-!
# Annotations and the functions they govern

The docs name a function by its bare name, a call names it by its path.
-/

namespace EnclaveOs.Apps

open Lib Oidc

/-! ## What is asked of a caller -/

inductive Demand
  | nobody
  | anyone
  | token
  | oneOf (roles : List String)
  | owner
  | configurer
deriving DecidableEq

section

variable (m : Module) (w : Tokens) (app : String) (cred : Option String)

/-- The credential is a token that the app's permissions accept. -/
def Verified (a : AuthResult) : Prop :=
  ∃ t p, cred = some t ∧ m.app_permissions app = some p ∧ verify_auth_token w t p = .ok a

/-- The credential is a platform token with the role for the app's configure function. -/
def Configures : Prop :=
  ∃ id t cfg a, m.app_id app = some id ∧ cred = some t ∧ w.platform = some cfg ∧
    verify_oidc w t (OidcConfig.as_app cfg) = .ok a ∧ has_configure_role id cfg.audience a.roles = true

/-- The caller satisfies the demand. -/
def Meets : Demand → Prop
  | .nobody => False
  | .anyone => True
  | .token => ∃ a, Verified m w app cred a
  | .oneOf roles => ∃ a, Verified m w app cred a ∧ ∃ r ∈ a.roles, r ∈ roles
  | .owner => ∃ a sub, Verified m w app cred a ∧ a.user_id = some sub ∧ sub ∈ m.app_owners app
  | .configurer => Configures m w app cred

end

-- parsing a text is nothing that unification should do
@[irreducible] def annotated (value : String) : Demand :=
  match parse_auth_annotation value with
  | (.Public, _) => .anyone
  | (.Authenticated, _) => .token
  | (.Role, roles) => .oneOf roles
  | (.Owner, _) => .owner

def AppPermissions.can_login (p : AppPermissions) : Bool := p.oidc.isSome || p.fido2

def asked (p : AppPermissions) (owners : List String) (policy : FunctionPolicy × List String) (priced : Bool) :
    Demand :=
  if policy.1 = .Public ∧ priced = false then .anyone
  else if p.can_login = false then .nobody
  else if policy.1 = .Owner then (if owners = [] then .nobody else .owner)
  else if policy.1 = .Authenticated ∨ policy.2 = [] then .token
  else .oneOf policy.2

def payable (m : Module) : Option (PriceRule × Option Nat) → Bool
  | some (rule, index) => rule.payer = .Caller || (index.isSome && ∃ rp ∈ m.funded_rps, rp ≠ "")
  | none => true

def demanded (m : Module) (app q : String) : Demand :=
  if m.config_api.lookup app = some q then (if (m.app_id app).isSome then .configurer else .nobody)
  else
    match m.app_permissions app with
    | none => .anyone
    | some p =>
      if payable m (m.price_context app q) then
        asked p (m.app_owners app) (p.effective q) (priced_caller (m.price_context app q))
      else .nobody

def Demand.covers : Demand → Demand → Bool
  | .nobody, _ => true
  | _, .anyone => true
  | .token, .token => true
  | .oneOf _, .token => true
  | .owner, .token => true
  | .oneOf roles, .oneOf roles' => roles.all (· ∈ roles')
  | .owner, .owner => true
  | .configurer, .configurer => true
  | _, _ => false

theorem trim_chars_of_ends {c d : Char} {cs : List Char} (hc : is_whitespace c = false)
    (hd : is_whitespace d = false) : trim_chars (c :: (cs ++ [d])) = c :: (cs ++ [d]) := by
  unfold trim_chars
  rw [List.dropWhile_cons_of_neg (by simp [hc])]
  simp only [List.reverse_cons, List.reverse_append, List.reverse_nil, List.nil_append, List.cons_append]
  rw [List.dropWhile_cons_of_neg (by simp [hd])]
  simp

theorem is_whitespace_of_isDigit {c : Char} (h : c.isDigit = true) : is_whitespace c = false := by
  have hrange : 48 ≤ c.toNat ∧ c.toNat ≤ 57 := by
    rw [Char.isDigit, Bool.and_eq_true, decide_eq_true_iff, decide_eq_true_iff] at h
    exact ⟨h.1, h.2⟩
  simp only [is_whitespace, Bool.or_eq_false_iff, Bool.and_eq_false_iff, decide_eq_false_iff_not]
  omega

theorem trim_expected (rule : PriceRule) : trim (expected rule) = expected rule := by
  have hdigits : (toString rule.credits.toNat).toList = Nat.toDigits 10 rule.credits.toNat := by
    simp [Nat.repr]
  rcases hcs : Nat.toDigits 10 rule.credits.toNat with _ | ⟨c, cs⟩
  · exact absurd hcs (Nat.toDigits_ne_nil)
  have hc : c.isDigit = true :=
    Nat.isDigit_of_mem_toDigits (b := 10) (by decide) (by decide) (hcs ▸ List.mem_cons_self)
  have hlist : (expected rule).toList = c :: (cs ++ " credit".toList ++ ['s']) := by
    rw [expected, String.toList_append, hdigits, hcs]
    simp
  rw [trim, hlist, trim_chars_of_ends (is_whitespace_of_isDigit hc) (by decide), ← hlist, String.ofList_toList]

/-! ## Every demand can be met by some, and not by others -/

def silent : Tokens := ⟨fun _ _ => .error "", ⟨0, []⟩, fun _ _ => .error "", fun _ => [], none⟩

def claims (issuer audience user : String) (roles : List String) : Value :=
  .object [("iss", .string issuer), ("aud", .string audience), ("sub", .string user),
    ("roles", .array (roles.map .string))]

theorem app_role_strings_claims (issuer audience user : String) (role : Option String) (key : String) :
    app_role_strings ((claims issuer audience user role.toList).get key) = [] ∨
      app_role_strings ((claims issuer audience user role.toList).get key) = role.toList := by
  by_cases hkey : key = "roles"
  · right
    subst hkey
    cases role <;> rfl
  left
  by_cases hiss : key = "iss"
  · subst hiss; rfl
  by_cases haud : key = "aud"
  · subst haud; rfl
  by_cases hsub : key = "sub"
  · subst hsub; rfl
  · simp [claims, Value.get, app_role_strings, Ne.symm hkey, Ne.symm hiss, Ne.symm haud, Ne.symm hsub]

theorem app_roles_claims (oidc : AppOidcConfig) (user : String) (role : Option String) :
    app_roles (claims oidc.issuer oidc.audience user role.toList) oidc = role.toList := by
  have hroles : app_role_strings ((claims oidc.issuer oidc.audience user role.toList).get "roles") = role.toList := by
    cases role <;> rfl
  have hrealm : (claims oidc.issuer oidc.audience user role.toList).get "realm_access" = none := rfl
  unfold app_roles
  rw [hroles, hrealm]
  rcases app_role_strings_claims oidc.issuer oidc.audience user role oidc.roles_claim with h | h <;> rw [h]
  · cases role <;> rfl
  · cases role <;> simp [app_role_strings, List.insertionSort, List.destutter]

variable {w : Tokens} {m : Module} {app : String} {d : Demand}

theorem verify_oidc_claims {oidc : AppOidcConfig} {token user : String} {role : Option String}
    (h : w.signed oidc token = .ok (claims oidc.issuer oidc.audience user role.toList)) :
    verify_oidc w token oidc = .ok ⟨role.toList, some user⟩ := by
  have hnames : Names oidc.issuer oidc.audience (claims oidc.issuer oidc.audience user role.toList) := ⟨rfl, .inl rfl⟩
  have hvalid := validate_eq_ok.mpr ⟨hnames, (rfl : check_expiry _ w.clock = .ok ())⟩
  unfold verify_oidc verify_app_token
  simp only [h, hvalid, app_roles_claims]
  rfl

theorem exists_verified {p : AppPermissions} (h : p.can_login = true) (role : Option String) (user : String) :
    ∃ w t, w.platform = none ∧ verify_auth_token w t p = .ok ⟨role.toList, some user⟩ := by
  by_cases hfido : p.fido2 = true
  · refine ⟨{ silent with session := fun _ _ => .ok user, roles := fun _ => role.toList },
      String.ofList (List.replicate 64 'a'), rfl, ?_⟩
    have hshape : is_fido2_session_token (String.ofList (List.replicate 64 'a')) = true := by
      unfold is_fido2_session_token
      rw [String.toList_ofList]
      decide
    rw [verify_auth_token, hfido, hshape]
    rfl
  · obtain ⟨oidc, hoidc⟩ : ∃ oidc, p.oidc = some oidc := by
      simpa [AppPermissions.can_login, hfido, Option.isSome_iff_exists] using h
    refine ⟨{ silent with signed := fun o _ => .ok (claims o.issuer o.audience user role.toList) }, "", rfl, ?_⟩
    simp only [verify_auth_token, hfido, hoidc, Bool.false_and, Bool.false_eq_true, if_false]
    exact verify_oidc_claims rfl

theorem exists_configures (h : (m.app_id app).isSome) :
    ∃ w cred, Configures m w app cred ∧ ∀ a, ¬ Verified m w app cred a := by
  obtain ⟨id, hid⟩ := Option.isSome_iff_exists.mp h
  -- an issuer that is not the app's
  let issuer := (((m.app_permissions app).bind AppPermissions.oidc).map AppOidcConfig.issuer).getD "" ++ "/platform"
  let cfg : OidcConfig := ⟨issuer, "", "roles", "", ""⟩
  let role := (config_roles id "").head?
  let w : Tokens := { silent with
    platform := some cfg
    signed := fun o _ => if o.issuer = issuer then .ok (claims o.issuer o.audience "" role.toList) else .error "" }
  refine ⟨w, some "", ⟨id, "", cfg, ⟨role.toList, some ""⟩, hid, rfl, rfl, ?_, ?_⟩, ?_⟩
  · exact verify_oidc_claims (if_pos rfl)
  · simp [has_configure_role, role, config_roles, cfg]
  rintro a ⟨t, p, ht, hp, hv⟩
  cases ht
  have hshape : is_fido2_session_token "" = false := by decide
  simp only [verify_auth_token, hshape, Bool.and_false, Bool.false_eq_true, if_false] at hv
  rcases hoidc : p.oidc with _ | o
  · simp [hoidc] at hv
  have hne : o.issuer ≠ issuer := by
    simp only [issuer, hp, Option.bind_some, hoidc, Option.map_some, Option.getD_some]
    intro heq
    have := congrArg (fun s => s.toList.length) heq
    simp at this
  simp [hoidc, verify_oidc, verify_app_token, w, hne, Except.map] at hv

/-- The app is set up for the demand: a login where one is asked for, owners, an id. -/
def Demand.Fits (m : Module) (app : String) : Demand → Prop
  | .nobody => True
  | .anyone => True
  | .token => ∃ p, m.app_permissions app = some p ∧ p.can_login = true
  | .oneOf roles => roles ≠ [] ∧ ∃ p, m.app_permissions app = some p ∧ p.can_login = true
  | .owner => m.app_owners app ≠ [] ∧ ∃ p, m.app_permissions app = some p ∧ p.can_login = true
  | .configurer => (m.app_id app).isSome

theorem demanded_fits (m : Module) (app q : String) : (demanded m app q).Fits m app := by
  unfold demanded
  split
  · split
    · assumption
    · trivial
  rcases hp : m.app_permissions app with _ | p
  · trivial
  dsimp only
  split
  · unfold asked
    split
    · trivial
    split
    · trivial
    rename_i hlogin
    have hlogin : p.can_login = true := by simpa using hlogin
    split
    · split
      · trivial
      · rename_i howners
        exact ⟨howners, p, hp, hlogin⟩
    · split
      · exact ⟨p, hp, hlogin⟩
      · rename_i hroles
        exact ⟨fun h => hroles (.inr h), p, hp, hlogin⟩
  · trivial

theorem exists_not_mem (l : List String) : ∃ s, s ∉ l := by
  obtain ⟨s, hs⟩ := Infinite.exists_notMem_finset l.toFinset
  exact ⟨s, by simpa using hs⟩

def Demand.MetBy (owners : List String) (role : Option String) (user : String) : Demand → Prop
  | .nobody => False
  | .anyone => True
  | .token => True
  | .oneOf roles => ∃ r ∈ role, r ∈ roles
  | .owner => user ∈ owners
  | .configurer => False

theorem covers_of_login {d' : Demand} (role : Option String) (user : String)
    (hlogin : ∃ p, m.app_permissions app = some p ∧ p.can_login = true)
    (h : ∀ w cred, Meets m w app cred d → Meets m w app cred d') (hd : d.MetBy (m.app_owners app) role user) :
    d'.MetBy (m.app_owners app) role user := by
  obtain ⟨p, hp, hlogin⟩ := hlogin
  obtain ⟨w, t, hplatform, hv⟩ := exists_verified hlogin role user
  have honly (a : AuthResult) : Verified m w app (some t) a ↔ a = ⟨role.toList, some user⟩ := by
    constructor
    · rintro ⟨t', p', ht, hp', hv'⟩
      cases ht
      rw [hp] at hp'
      cases hp'
      rw [hv] at hv'
      exact (Except.ok.inj hv').symm
    · rintro rfl
      exact ⟨t, p, rfl, hp, hv⟩
  have hmeets (e : Demand) : Meets m w app (some t) e ↔ e.MetBy (m.app_owners app) role user := by
    cases e with
    | nobody | anyone => exact Iff.rfl
    | token | oneOf roles | owner => simp [Meets, Demand.MetBy, honly]
    | configurer => simp [Meets, Demand.MetBy, Configures, hplatform]
  exact (hmeets d').mp (h w (some t) ((hmeets d).mpr hd))

theorem covers_iff (hd : d.Fits m app) (d' : Demand) :
    d.covers d' = true ↔ ∀ w cred, Meets m w app cred d → Meets m w app cred d' := by
  constructor
  · intro h w cred hd
    unfold Demand.covers at h
    split at h
    · exact hd.elim
    · trivial
    · exact hd
    · obtain ⟨a, ha, -⟩ := hd
      exact ⟨a, ha⟩
    · obtain ⟨a, -, ha, -⟩ := hd
      exact ⟨a, ha⟩
    · obtain ⟨a, ha, r, hr, hmem⟩ := hd
      exact ⟨a, ha, r, hr, by simpa using List.all_eq_true.mp h r hmem⟩
    · exact hd
    · exact hd
    · cases h
  · intro h
    obtain ⟨stranger, hstranger⟩ := exists_not_mem (m.app_owners app)
    cases d with
    | nobody => rfl
    | anyone =>
      have hnone := h silent none trivial
      cases d' <;> simp_all [Meets, Verified, Configures, Demand.covers]
    | token =>
      have hlogin := covers_of_login none stranger hd h trivial
      cases d' <;> simp_all [Demand.MetBy, Demand.covers]
    | oneOf roles =>
      have hlogin (r : String) (hr : r ∈ roles) := covers_of_login (some r) stranger hd.2 h ⟨r, rfl, hr⟩
      obtain ⟨r, hr⟩ := List.exists_mem_of_ne_nil roles hd.1
      cases d' <;> simp_all [Demand.MetBy, Demand.covers]
    | owner =>
      obtain ⟨user, huser⟩ := List.exists_mem_of_ne_nil _ hd.1
      have hlogin := covers_of_login none user hd.2 h huser
      cases d' <;> simp_all [Demand.MetBy, Demand.covers]
    | configurer =>
      obtain ⟨w, cred, hconf, hnot⟩ := exists_configures hd
      have hmeets := h w cred hconf
      cases d' <;> simp_all [Meets, Demand.covers]

/-! ## The gate asks for what is demanded -/

/-- The gate lets the credential through to the function. -/
def MayCall [Outside] (m : Module) (w : Tokens) (app q : String) (cred : Option String) : Prop :=
  ∃ params approved auth, check_app_permissions m w ⟨app, q, params, cred, approved⟩ = .ok auth

theorem can_login_of_verified {t : String} {p : AppPermissions} {a : AuthResult}
    (h : verify_auth_token w t p = .ok a) : p.can_login = true := by
  unfold verify_auth_token at h
  unfold AppPermissions.can_login
  split at h
  · rename_i hfido
    simp [(Bool.and_eq_true _ _ ▸ hfido).1]
  · rcases hoidc : p.oidc with _ | o
    · simp [hoidc] at h
    · rfl

theorem payable_of_pay_gate {call : WasmCall} {ctx : Option (PriceRule × Option Nat)}
    (h : pay_gate m call ctx = .ok ()) : payable m ctx = true := by
  rcases ctx with _ | ⟨rule, index⟩
  · rfl
  cases hpayer : rule.payer with
  | Caller => simp [payable, hpayer]
  | Sponsor =>
    obtain ⟨rp, hrp, hfunded⟩ := pay_gate_ok.mp h rule index rfl hpayer
    unfold named_sponsor at hrp
    rcases index with _ | i
    · simp at hrp
    split at hrp
    · split at hrp
      · cases hrp
      rename_i hne
      cases hrp
      simp only [payable, Option.isSome_some, Bool.true_and, Bool.or_eq_true, decide_eq_true_eq]
      exact .inr ⟨_, hfunded, hne⟩
    · cases hrp

theorem exists_params {ctx : Option (PriceRule × Option Nat)} (h : payable m ctx = true) :
    ∃ params, ∀ app q cred approved, pay_gate m ⟨app, q, params, cred, approved⟩ ctx = .ok () := by
  rcases ctx with _ | ⟨rule, index⟩
  · exact ⟨[], fun _ _ _ _ => rfl⟩
  cases hpayer : rule.payer with
  | Caller => exact ⟨[], fun _ _ _ _ => by simp [pay_gate, hpayer]⟩
  | Sponsor =>
    simp only [payable, hpayer, reduceCtorEq, decide_false, Bool.false_or, Bool.and_eq_true, decide_eq_true_eq] at h
    obtain ⟨hindex, rp, hfunded, hne⟩ := h
    obtain ⟨i, rfl⟩ := Option.isSome_iff_exists.mp hindex
    refine ⟨List.replicate i (.other .null) ++ [.String rp], fun app q cred approved => ?_⟩
    rw [pay_gate_ok]
    rintro _ _ ⟨⟩ -
    exact ⟨rp, by simp [named_sponsor, hne], hfunded⟩

section Gate

variable [Outside]

variable {m : Module} {w : Tokens}

theorem admitted_meets {call : WasmCall} {auth : Option AuthResult}
    (h : check_app_permissions m w call = .ok auth) :
    Meets m w call.app call.app_auth (demanded m call.app call.function) := by
  unfold demanded
  rcases check_app_permissions_ok.mp h with ⟨hconfig, a, -, ha⟩ | ⟨hconfig, hp, -⟩ | ⟨hconfig, p, hp, hpay, hpol⟩
  · obtain ⟨id, token, cfg, hid, htoken, hcfg, hv, hrole⟩ := check_configure_authz_ok.mp ha
    rw [if_pos hconfig, if_pos (by simp [hid])]
    exact ⟨id, token, cfg, a, hid, htoken, hcfg, hv, hrole⟩
  · rw [if_neg hconfig, hp]
    trivial
  · rw [if_neg hconfig, hp]
    dsimp only
    rw [if_pos (payable_of_pay_gate hpay), asked]
    rcases check_policy_ok.mp hpol with ⟨hopen, -⟩ | ⟨howner, a, -, ha⟩ | ⟨hclosed, howner, a, -, ha⟩
    · rw [if_pos hopen]
      trivial
    · obtain ⟨token, sub, htoken, hv, hsub, hmem⟩ := check_owner_ok.mp ha
      rw [if_neg (by simp [howner]), if_neg (by simp [can_login_of_verified hv]), if_pos howner,
        if_neg (List.ne_nil_of_mem hmem)]
      exact ⟨a, sub, ⟨token, p, htoken, hp, hv⟩, hsub, hmem⟩
    · obtain ⟨token, htoken, hv, -, hroles⟩ := check_token_ok.mp ha
      have hverified : Verified m w call.app call.app_auth a := ⟨token, p, htoken, hp, hv⟩
      rw [if_neg hclosed, if_neg (by simp [can_login_of_verified hv]), if_neg howner]
      split
      · exact ⟨a, hverified⟩
      rename_i hneeds
      rcases hroles with hauth | hempty | hrole
      · exact absurd (.inl hauth) hneeds
      · exact absurd (.inr hempty) hneeds
      · exact ⟨a, hverified, hrole⟩

theorem check_policy_of_asked {call : WasmCall} {p : AppPermissions}
    {ctx : Option (PriceRule × Option Nat)} (hp : m.app_permissions call.app = some p)
    (hconsent : consent call ctx = .ok ()) (h : Meets m w call.app call.app_auth
      (asked p (m.app_owners call.app) (p.effective call.function) (priced_caller ctx))) :
    ∃ auth, check_policy m w call p ctx = .ok auth := by
  have huse {a : AuthResult} (hv : Verified m w call.app call.app_auth a) :
      ∃ t, call.app_auth = some t ∧ verify_auth_token w t p = .ok a := by
    obtain ⟨t, p', ht, hp', hv⟩ := hv
    rw [hp] at hp'
    cases hp'
    exact ⟨t, ht, hv⟩
  unfold asked at h
  split at h
  · rename_i hopen
    exact ⟨none, check_policy_ok.mpr (.inl ⟨hopen, rfl⟩)⟩
  rename_i hclosed
  split at h
  · exact h.elim
  split at h
  · rename_i howner
    split at h
    · exact h.elim
    obtain ⟨a, sub, hv, hsub, hmem⟩ := h
    obtain ⟨t, ht, hv⟩ := huse hv
    have hcheck := check_owner_ok.mpr ⟨t, sub, ht, hv, hsub, hmem⟩
    exact ⟨some a, check_policy_ok.mpr (.inr (.inl ⟨howner, a, rfl, hcheck⟩))⟩
  · rename_i howner
    obtain ⟨a, hv, hroles⟩ : ∃ a, Verified m w call.app call.app_auth a ∧
        ((p.effective call.function).1 = .Authenticated ∨ (p.effective call.function).2 = [] ∨
          ∃ r ∈ a.roles, r ∈ (p.effective call.function).2) := by
      split at h
      · rename_i hneeds
        obtain ⟨a, hv⟩ := h
        exact ⟨a, hv, hneeds.imp_right .inl⟩
      · obtain ⟨a, hv, hrole⟩ := h
        exact ⟨a, hv, .inr (.inr hrole)⟩
    obtain ⟨t, ht, hv⟩ := huse hv
    have hcheck := check_token_ok.mpr ⟨t, ht, hv, hconsent, hroles⟩
    exact ⟨some a, check_policy_ok.mpr (.inr (.inr ⟨hclosed, howner, a, rfl, hcheck⟩))⟩

theorem may_call_of_meets {app q : String} {cred : Option String}
    (h : Meets m w app cred (demanded m app q)) : MayCall m w app q cred := by
  unfold demanded at h
  by_cases hconfig : m.config_api.lookup app = some q
  · rw [if_pos hconfig] at h
    split at h
    · obtain ⟨id, t, cfg, a, hid, ht, hcfg, hv, hrole⟩ := h
      refine ⟨[], none, some a, check_app_permissions_ok.mpr (.inl ⟨hconfig, a, rfl, ?_⟩)⟩
      exact check_configure_authz_ok.mpr ⟨id, t, cfg, hid, ht, hcfg, hv, hrole⟩
    · exact h.elim
  rw [if_neg hconfig] at h
  rcases hp : m.app_permissions app with _ | p
  · exact ⟨[], none, none, check_app_permissions_ok.mpr (.inr (.inl ⟨hconfig, hp, rfl⟩))⟩
  rw [hp] at h
  dsimp only at h
  split at h
  · rename_i hpayable
    obtain ⟨params, hpay⟩ := exists_params hpayable
    let approved := (m.price_context app q).map fun c => expected c.1
    have hconsent : consent ⟨app, q, params, cred, approved⟩ (m.price_context app q) = .ok () := by
      rw [consent_ok]
      intro rule index hctx _
      simp [approved, hctx, trim_expected]
    obtain ⟨auth, hpol⟩ := check_policy_of_asked hp hconsent h
    refine ⟨params, approved, auth, check_app_permissions_ok.mpr (.inr (.inr ⟨hconfig, p, hp, ?_, hpol⟩))⟩
    exact hpay app q cred approved
  · exact h.elim

theorem may_call_iff {app q : String} {cred : Option String} :
    MayCall m w app q cred ↔ Meets m w app cred (demanded m app q) := by
  constructor
  · rintro ⟨params, approved, auth, h⟩
    exact admitted_meets h
  · exact may_call_of_meets

end Gate

/-! ## An app as it was loaded -/

def AppLoad.auth_doc (load : AppLoad) (f : String) : Option String := load.docs.bind fun d => d.lookup ("auth:" ++ f)

def AppLoad.priced (load : AppLoad) (adds : List (String × String)) : AppLoad :=
  { load with docs := some ((load.docs.getD ∅).price adds) }

section

variable (load : AppLoad)

def AppLoad.notes : Docs := load.docs.getD ∅

def AppLoad.sent : AppPermissions := load.permissions.getD .fresh

def AppLoad.price [Outside] (q : String) : Option PriceRule := price_said Outside.price_rule load.notes load.sent q

def AppLoad.admits (q : String) (priced : Bool) : Demand :=
  asked load.sent load.owners (policy_said load.notes load.sent q) priced

end

/-- A parameter of the function called `q` names who pays. -/
def AppSchema.names_sponsor (schema : AppSchema) (q : String) (rule : PriceRule) : Bool :=
  rule.sponsor_from.any fun field => (schema.find_function q).any fun f => field ∈ f.params

/-- What a call of `q` asks of its caller, read off the docs, the operator's permissions and the schema. -/
def AppLoad.asks [Outside] (load : AppLoad) (schema : AppSchema) (funded : Finset String) (q : String) : Demand :=
  if load.config_api = some q then (if load.app_id.isSome then .configurer else .nobody)
  else if ¬ Policed load.notes load.permissions then .anyone
  else
    match load.price q with
    | none => load.admits q false
    | some rule =>
      if rule.payer = .Caller then load.admits q true
      else if schema.names_sponsor q rule ∧ ∃ rp ∈ funded, rp ≠ "" then load.admits q false
      else .nobody

section Governed

variable [Outside]

/-- Known as it was loaded. The schema has no prices. -/
structure Installed (m : Module) (load : AppLoad) (schema : AppSchema) : Prop where
  kept : ∃ info, m.known.lookup load.name = some info ∧ info.permissions = load.merged ∧
    info.schema = some (load.stamped schema) ∧ info.owners = load.owners ∧ info.app_id = load.app_id
  gate : m.config_api.lookup load.name = load.config_api
  unpriced : ∀ e ∈ schema.paths, e.2.price = none

/-- Annotations are enforced, shown prices applied, and `m'`, with more prices, has the same callers as `m`. -/
structure Governed (m m' : Module) (load : AppLoad) (schema : AppSchema) : Prop where
  policy : ∀ q f value, (q, f) ∈ schema.paths → load.auth_doc f.name = some value → ∀ w call auth,
    call.app = load.name → call.function = q → check_app_permissions m w call = .ok auth →
    Meets m w load.name call.app_auth (annotated value)
  price : ∀ info s q f, m.known.lookup load.name = some info → info.schema = some s → (q, f) ∈ s.paths →
    f.price = (m.price_context load.name q).map Prod.fst
  callers : ∀ q w cred, MayCall m' w load.name q cred ↔ MayCall m w load.name q cred

/-- A function is found under its path as under its name, and the prices of `adds` ask nothing more of a caller. -/
structure Consistent (load : AppLoad) (adds : List (String × String)) (schema : AppSchema)
    (funded funded' : Finset String) : Prop where
  policy : ∀ q f value, (q, f) ∈ schema.paths → load.auth_doc f.name = some value →
    (load.asks schema funded q).covers (annotated value) = true
  price : ∀ q f, (q, f) ∈ schema.paths → Policed load.notes load.permissions → load.price f.name = load.price q
  callers : ∀ q, (load.priced adds).asks schema funded' q = load.asks schema funded q

omit [Outside] in
theorem AppSchema.paths_stamp (schema : AppSchema) (perms : AppPermissions) :
    (schema.stamp perms).paths = schema.paths.map fun e => (e.1, e.2.stamp perms) := by
  simp only [AppSchema.paths, AppSchema.stamp, List.map_map, List.map_append, List.map_flatMap, List.flatMap_map]
  rfl

variable {m m' : Module} {load : AppLoad} {schema : AppSchema}

theorem load_app_installed {kv : Kv} {w : LoadWorld} (hnew : m.config_api.lookup load.name = none)
    (h : m.load_app kv load w = (.ok (), m')) (hengine : w.engine = .ok schema)
    (hunpriced : ∀ e ∈ schema.paths, e.2.price = none) : Installed m' load schema := by
  unfold Module.load_app at h
  split at h
  · cases h
  rename_i info hinfo
  obtain ⟨-, schema', key, hschema, -, -, -, rfl⟩ := AppLoad.prepare_ok.mp hinfo
  rw [hengine] at hschema
  cases hschema
  let info := load.app_meta m schema key w.reads_mark
  obtain ⟨cached, lru, counter, hcompiled⟩ := Module.compiled_eq (m.register_known info) load.name
    (info.compile ⟨[], []⟩)
  rw [hcompiled, Prod.mk.injEq] at h
  obtain ⟨-, rfl⟩ := h
  refine ⟨⟨_, AList.lookup_insert _, rfl, rfl, rfl, rfl⟩, ?_, hunpriced⟩
  change (m.arm info).config_api.lookup load.name = info.config_api_function
  unfold Module.arm
  rcases hconfig : info.config_api_function with _ | f
  · exact hnew
  · exact AList.lookup_insert _

section

variable (h : Installed m load schema)

include h

theorem Installed.permissions : m.app_permissions load.name = load.merged := by
  obtain ⟨info, hinfo, hperms, -⟩ := h.kept
  simp [Module.app_permissions, hinfo, hperms]

theorem Installed.owners : m.app_owners load.name = load.owners := by
  obtain ⟨info, hinfo, -, -, howners, -⟩ := h.kept
  simp [Module.app_owners, hinfo, howners]

theorem Installed.app_id : m.app_id load.name = load.app_id := by
  obtain ⟨info, hinfo, -, -, -, hid⟩ := h.kept
  simp [Module.app_id, hinfo, hid]

theorem Installed.price_rule (q : String) :
    (m.price_context load.name q).map Prod.fst = load.merged.bind fun p => p.price_for q := by
  obtain ⟨info, hinfo, hperms, -⟩ := h.kept
  simp only [Module.price_context, hinfo, hperms, Option.bind_some, Option.map_bind]
  congr 1
  funext p
  simp only [Function.comp_apply, Option.map_map]
  exact Option.map_id'

end

section

variable {p : AppPermissions}

theorem AppLoad.merged_none : load.merged = none ↔ ¬ Policed load.notes load.permissions := merge_from_docs_none

variable (hp : load.merged = some p)

include hp

theorem AppLoad.policed : Policed load.notes load.permissions := by
  by_contra hnot
  rw [AppLoad.merged_none.mpr hnot] at hp
  cases hp

theorem AppLoad.merged_said : p.login = load.sent.login ∧
    (∀ q, p.effective q = policy_said load.notes load.sent q) ∧ ∀ q, p.price_for q = load.price q :=
  merge_from_docs_said hp

end

theorem merged_login (load : AppLoad) :
    load.merged.map AppPermissions.login =
      if Policed load.notes load.permissions then some load.sent.login else none := by
  rcases hp : load.merged with _ | p
  · rw [if_neg (AppLoad.merged_none.mp hp)]
    rfl
  · rw [if_pos (AppLoad.policed hp), Option.map_some, (AppLoad.merged_said hp).1]

theorem priced_login (load : AppLoad) (adds : List (String × String)) :
    (load.priced adds).merged.map AppPermissions.login = load.merged.map AppPermissions.login := by
  rw [merged_login, merged_login]
  exact if_congr (Docs.policed_price ..) rfl rfl

omit [Outside] in
theorem AppSchema.find_function_stamp (schema : AppSchema) (perms : AppPermissions) (q : String) :
    (schema.stamp perms).find_function q = (schema.find_function q).map (FunctionSchema.stamp perms) := by
  unfold AppSchema.find_function
  rw [AppSchema.paths_stamp, List.find?_map, Option.map_map, Option.map_map]
  rfl

omit [Outside] in
theorem asked_congr {p p' : AppPermissions} (h : p.login = p'.login) (owners : List String)
    (policy : FunctionPolicy × List String) (priced : Bool) : asked p owners policy priced = asked p' owners policy priced := by
  obtain ⟨hoidc, hfido⟩ := Prod.mk.inj h
  unfold asked AppPermissions.can_login
  rw [hoidc, hfido]

/-- The gate asks what the docs, the operator's permissions and the schema say. -/
theorem Installed.demanded (h : Installed m load schema) (q : String) :
    demanded m load.name q = load.asks schema m.funded_rps q := by
  unfold Apps.demanded AppLoad.asks
  rw [h.gate, h.app_id]
  refine if_congr Iff.rfl rfl ?_
  rw [h.permissions, h.owners]
  rcases hp : load.merged with _ | p
  · rw [if_pos (AppLoad.merged_none.mp hp)]
  obtain ⟨hlogin, hpolicy, hprice⟩ := AppLoad.merged_said hp
  obtain ⟨info, hinfo, hperms, hschema, -⟩ := h.kept
  have hctx : m.price_context load.name q = (load.price q).map fun rule => (rule, Module.sponsor_index info q rule) := by
    rw [Module.price_context, hinfo, Option.bind_some, hperms, hp, Option.bind_some, hprice]
  have hsponsor (rule : PriceRule) :
      (Module.sponsor_index info q rule).isSome = schema.names_sponsor q rule := by
    rw [Module.sponsor_index, hschema, AppLoad.stamped, hp, AppSchema.names_sponsor]
    simp only [Option.bind_some, AppSchema.find_function_stamp]
    rcases rule.sponsor_from with _ | field
    · rfl
    rcases schema.find_function q with _ | f
    · rfl
    · simp [FunctionSchema.stamp, List.findIdx?_isSome, List.any_eq, eq_comm]
  have hasked (priced : Bool) : asked p load.owners (p.effective q) priced = load.admits q priced := by
    rw [hpolicy]
    exact asked_congr hlogin _ _ _
  rw [if_neg (not_not.mpr (AppLoad.policed hp)), hctx]
  dsimp only
  rcases load.price q with _ | rule
  · exact hasked false
  · by_cases hpayer : rule.payer = .Caller
    · simp [payable, priced_caller, hpayer, hasked]
    · simp [payable, priced_caller, hpayer, hasked, hsponsor]

omit [Outside] in
theorem verified_congr {app : String}
    (h : (m'.app_permissions app).map AppPermissions.login = (m.app_permissions app).map AppPermissions.login)
    {w : Tokens} {cred : Option String} {a : AuthResult} (hv : Verified m' w app cred a) :
    Verified m w app cred a := by
  obtain ⟨t, p', ht, hp', hv⟩ := hv
  rw [hp', Option.map_some] at h
  obtain ⟨p, hp, hlogin⟩ := Option.map_eq_some_iff.mp h.symm
  obtain ⟨hoidc, hfido⟩ := Prod.mk.inj hlogin
  refine ⟨t, p, ht, hp, ?_⟩
  rw [verify_auth_token, hoidc, hfido]
  exact hv

theorem policy_iff :
    (∀ q f value, (q, f) ∈ schema.paths → load.auth_doc f.name = some value → ∀ w call auth,
      call.app = load.name → call.function = q → check_app_permissions m w call = .ok auth →
      Meets m w load.name call.app_auth (annotated value)) ↔
    ∀ q f value, (q, f) ∈ schema.paths → load.auth_doc f.name = some value →
      (demanded m load.name q).covers (annotated value) = true := by
  refine forall₅_congr fun q f value hf hdoc => ?_
  rw [covers_iff (demanded_fits m load.name q)]
  constructor
  · intro h w cred hmeets
    obtain ⟨params, approved, auth, hok⟩ := may_call_of_meets hmeets
    exact h w ⟨load.name, q, params, cred, approved⟩ auth rfl rfl hok
  · intro h w call auth happ hfn hok
    have hmeets := admitted_meets hok
    rw [happ, hfn] at hmeets
    exact h w call.app_auth hmeets

theorem price_iff (h : Installed m load schema) :
    (∀ info s q f, m.known.lookup load.name = some info → info.schema = some s → (q, f) ∈ s.paths →
      f.price = (m.price_context load.name q).map Prod.fst) ↔
    ∀ q f, (q, f) ∈ schema.paths → Policed load.notes load.permissions → load.price f.name = load.price q := by
  obtain ⟨info, hinfo, -, hschema, -⟩ := h.kept
  simp only [h.price_rule]
  rcases hp : load.merged with _ | perms
  · have hnot := AppLoad.merged_none.mp hp
    constructor
    · intro _ q f _ hset
      exact absurd hset hnot
    · rintro - info' s q f hinfo' hs hf
      rw [hinfo] at hinfo'
      cases hinfo'
      rw [hschema, AppLoad.stamped, hp] at hs
      cases hs
      exact h.unpriced _ hf
  have hprice (q : String) : perms.price_for q = load.price q := (AppLoad.merged_said hp).2.2 q
  have hstamped : load.stamped schema = schema.stamp perms := by rw [AppLoad.stamped, hp]
  simp only [hinfo, Option.some.injEq, Option.bind_some, hprice]
  constructor
  · intro h q f hf _
    rw [← hprice]
    refine h info (schema.stamp perms) q (f.stamp perms) rfl (by rw [hschema, hstamped]) ?_
    rw [AppSchema.paths_stamp]
    exact List.mem_map_of_mem hf
  · rintro hsame _ s q f rfl hs hf
    rw [hschema, hstamped, Option.some.injEq] at hs
    subst hs
    rw [AppSchema.paths_stamp, List.mem_map] at hf
    obtain ⟨⟨q', f'⟩, hf', heq⟩ := hf
    cases heq
    exact (hprice _).trans (hsame _ f' hf' (AppLoad.policed hp))

omit [Outside] in
theorem Demand.eq_of_covers {d d' : Demand} (hroles : ∀ roles roles', d = .oneOf roles → d' = .oneOf roles' → roles = roles')
    (h : d.covers d' = true) (h' : d'.covers d = true) : d = d' := by
  cases d <;> cases d' <;> simp_all [Demand.covers]

theorem AppLoad.asks_roles {funded : Finset String} {q : String} {roles : List String}
    (h : load.asks schema funded q = .oneOf roles) : roles = (policy_said load.notes load.sent q).2 := by
  have hadmits {priced : Bool} (h : load.admits q priced = .oneOf roles) :
      roles = (policy_said load.notes load.sent q).2 := by
    unfold AppLoad.admits asked at h
    split_ifs at h
    cases h
    rfl
  unfold AppLoad.asks at h
  split_ifs at h
  split at h
  · exact hadmits h
  · split_ifs at h <;> exact hadmits h

theorem callers_iff {adds : List (String × String)} (h : Installed m load schema)
    (h' : Installed m' (load.priced adds) schema) :
    (∀ q w cred, MayCall m' w load.name q cred ↔ MayCall m w load.name q cred) ↔
    ∀ q, (load.priced adds).asks schema m'.funded_rps q = load.asks schema m.funded_rps q := by
  have hlogin : (m'.app_permissions load.name).map AppPermissions.login =
      (m.app_permissions load.name).map AppPermissions.login := by
    rw [h.permissions, ← priced_login load adds]
    exact congrArg _ h'.permissions
  have hmeets (w : Tokens) (cred : Option String) (d : Demand) :
      Meets m' w load.name cred d ↔ Meets m w load.name cred d := by
    have hv (a : AuthResult) : Verified m' w load.name cred a ↔ Verified m w load.name cred a :=
      ⟨verified_congr hlogin, verified_congr hlogin.symm⟩
    have howners : m'.app_owners load.name = m.app_owners load.name := h'.owners.trans h.owners.symm
    have hid : m'.app_id load.name = m.app_id load.name := h'.app_id.trans h.app_id.symm
    cases d <;> simp only [Meets, Configures, hv, howners, hid]
  have hdemanded (q : String) : demanded m load.name q = load.asks schema m.funded_rps q := h.demanded q
  have hdemanded' (q : String) : demanded m' load.name q = (load.priced adds).asks schema m'.funded_rps q :=
    h'.demanded q
  refine forall_congr' fun q => ?_
  simp only [may_call_iff, hmeets, ← hdemanded, ← hdemanded']
  constructor
  · intro hiff
    refine Demand.eq_of_covers (fun roles roles' hd hd' => ?_) ?_ ?_
    · rw [hdemanded'] at hd
      rw [hdemanded] at hd'
      rw [AppLoad.asks_roles hd, AppLoad.asks_roles hd']
      exact congrArg Prod.snd (Docs.policy_said_price ..)
    · rw [covers_iff (demanded_fits m' load.name q)]
      intro w cred hd
      rw [hmeets] at hd ⊢
      exact (hiff w cred).mp hd
    · rw [covers_iff (demanded_fits m load.name q)]
      intro w cred hd
      exact (hiff w cred).mpr hd
  · intro heq w cred
    rw [heq]

theorem AppLoad.asks_priced_other (funded : Finset String) {adds : List (String × String)} {q : String}
    (h : ∀ e ∈ adds, e.1 ≠ q ∧ e.1 ≠ "__default__") :
    (load.priced adds).asks schema funded q = load.asks schema funded q := by
  have hconfig : (load.priced adds).config_api = load.config_api := by
    have hlookup : (load.notes.price adds).lookup "config-api" = load.notes.lookup "config-api" :=
      Docs.lookup_price _ _ fun _ _ => ne_price (by decide)
    unfold AppLoad.config_api AppLoad.priced
    rw [Option.bind_some]
    refine congrArg (Option.or · _) (hlookup.trans ?_)
    unfold AppLoad.notes
    cases load.docs <;> rfl
  have hprice : (load.priced adds).price q = load.price q := Docs.price_said_other load.notes adds _ load.sent h
  have hadmits (priced : Bool) : (load.priced adds).admits q priced = load.admits q priced :=
    congrArg (asked load.sent load.owners · priced) (Docs.policy_said_price load.notes adds load.sent q)
  have hpoliced : Policed (load.priced adds).notes (load.priced adds).permissions ↔ Policed load.notes load.permissions :=
    Docs.policed_price load.notes adds load.permissions
  unfold AppLoad.asks
  rw [hconfig, hprice]
  refine if_congr Iff.rfl rfl (if_congr (not_congr hpoliced) rfl ?_)
  simp only [hadmits]

theorem root_function_covered (h : Installed m load schema) {f value : String}
    (hdoc : load.auth_doc f = some value) (hdefault : f ≠ "__default__") (hconfig : load.config_api ≠ some f)
    (hroles : annotated value ≠ .oneOf []) : (demanded m load.name f).covers (annotated value) = true := by
  obtain ⟨docs, hdocs, hvalue⟩ := Option.bind_eq_some_iff.mp hdoc
  have hnotes : load.notes = docs := by rw [AppLoad.notes, hdocs, Option.getD_some]
  have hset : Policed load.notes load.permissions := by
    refine .inr ⟨"auth:" ++ f, ?_, String.toList_append ▸ List.prefix_append _ _⟩
    rw [hnotes, AList.mem_keys.symm, ← AList.lookup_isSome, hvalue]
    rfl
  have hpolicy : policy_said load.notes load.sent f = parse_auth_annotation value := by
    rw [policy_said, Docs.own, if_neg hdefault, hnotes, hvalue]
  have hadmits (priced : Bool) : (load.admits f priced).covers (annotated value) = true := by
    unfold AppLoad.admits
    rw [hpolicy]
    unfold annotated at hroles ⊢
    unfold asked
    rcases hparse : parse_auth_annotation value with ⟨policy, roles⟩
    rw [hparse] at hroles
    cases policy <;> split_ifs <;> simp_all [Demand.covers]
  rw [h.demanded, AppLoad.asks, if_neg hconfig, if_neg (not_not.mpr hset)]
  split
  · exact hadmits false
  · split_ifs
    · exact hadmits true
    · exact hadmits false
    · rfl

theorem governed_iff {adds : List (String × String)} (h : Installed m load schema)
    (h' : Installed m' (load.priced adds) schema) :
    Governed m m' load schema ↔ Consistent load adds schema m.funded_rps m'.funded_rps := by
  have hpolicy := @policy_iff _ m load schema
  simp only [h.demanded] at hpolicy
  exact ⟨fun g => ⟨hpolicy.mp g.policy, (price_iff h).mp g.price, (callers_iff h h').mp g.callers⟩,
    fun c => ⟨hpolicy.mpr c.policy, (price_iff h).mpr c.price, (callers_iff h h').mpr c.callers⟩⟩

end Governed

namespace Sample

scoped instance outside : Outside where
  price_rule s := if s = "5" then some ⟨5, .Caller, none, []⟩ else none
  fingerprint _ := ""
  config_digest _ := Vector.replicate 32 0
  debug _ := ""

def permissions : AppPermissions := { AppPermissions.fresh with oidc := some ⟨"issuer", "aud", "roles"⟩ }

/-- Its function `f` is kept for the owners. -/
def load : AppLoad where
  name := "app"
  hostname := "app"
  encryption_key := none
  permissions := some permissions
  docs := some (AList.insert "auth:f" "owner" ∅)
  config_api_function := none
  owners := ["ada"]
  app_id := none
  vault := none
  dependencies := none

def adds : List (String × String) := [("f", "5")]

def f : FunctionSchema := ⟨"f", [], none⟩

def rooted : AppSchema := ⟨[f], []⟩

def nested : AppSchema := ⟨[], [⟨"api", [f]⟩]⟩

def world (schema : AppSchema) : LoadWorld := ⟨true, .ok schema, .error "", some (Vector.replicate 32 0)⟩

def loaded (load : AppLoad) (schema : AppSchema) : Module :=
  (Module.init.load_app ⟨true, true, true⟩ load (world schema)).2

theorem installed {load : AppLoad} {schema : AppSchema}
    (h : (Module.init.load_app ⟨true, true, true⟩ load (world schema)).1 = .ok ())
    (hunpriced : ∀ e ∈ schema.paths, e.2.price = none) : Installed (loaded load schema) load schema :=
  load_app_installed rfl (Prod.ext h rfl) rfl hunpriced

theorem funded_loaded (load : AppLoad) (schema : AppSchema) : (loaded load schema).funded_rps = ∅ := by
  unfold loaded Module.load_app
  split
  · rfl
  · rename_i info _
    obtain ⟨cached, lru, counter, h⟩ := Module.compiled_eq (Module.init.register_known info) load.name
      (info.compile ⟨[], []⟩)
    dsimp only [Module.persist_meta_to_kv, Module.update_kv_manifest]
    rw [h]
    unfold Module.register_known Module.arm
    split <;> rfl

end Sample

open Sample in
theorem governed_owner : Governed (loaded load rooted) (loaded (load.priced adds) rooted) load rooted := by
  have h : Installed (loaded load rooted) load rooted := installed (by decide +kernel) (by decide)
  have h' : Installed (loaded (load.priced adds) rooted) (load.priced adds) rooted :=
    installed (by decide +kernel) (by decide)
  refine (governed_iff h h').mpr ⟨?_, ?_, fun q => ?_⟩
  · intro q g value hg hdoc
    obtain ⟨rfl, rfl⟩ : q = f.name ∧ g = f := by simpa [rooted, AppSchema.paths] using hg
    have howner : load.auth_doc f.name = some "owner" := by decide +kernel
    rw [howner] at hdoc
    cases hdoc
    decide +kernel
  · intro q g hg _
    obtain ⟨rfl, rfl⟩ : q = f.name ∧ g = f := by simpa [rooted, AppSchema.paths] using hg
    rfl
  · rw [funded_loaded, funded_loaded]
    by_cases hq : q = "f"
    · subst hq
      decide +kernel
    · exact AppLoad.asks_priced_other _ (by simp [adds, Ne.symm hq])

open Sample in
theorem root_owner_covered : (demanded (loaded load rooted) "app" "f").covers (annotated "owner") = true :=
  root_function_covered (@installed load rooted (by decide +kernel) (by decide)) (f := "f") (by decide +kernel)
    (by decide) (by decide +kernel) (by decide +kernel)

open Sample in
/-- Without a token, a function kept for the owners is called, for free though it has a price. -/
theorem interface_not_governed : Installed (loaded (load.priced adds) nested) (load.priced adds) nested ∧
    ("api/f", f) ∈ nested.paths ∧ (load.priced adds).auth_doc f.name = some "owner" ∧
    check_app_permissions (loaded (load.priced adds) nested) silent ⟨"app", "api/f", [], none, none⟩ = .ok none ∧
    ¬ Meets (loaded (load.priced adds) nested) silent "app" none .owner ∧
    (((loaded (load.priced adds) nested).known.lookup "app").bind fun info =>
      info.schema.map fun s => s.paths.map fun e => e.2.price) = some [some ⟨5, .Caller, none, []⟩] ∧
    (loaded (load.priced adds) nested).price_context "app" "api/f" = none := by
  refine ⟨installed (by decide +kernel) (by decide), by decide +kernel, by decide +kernel, by decide +kernel, ?_,
    by decide +kernel, by decide +kernel⟩
  rintro ⟨a, sub, ⟨t, p, ht, -⟩, -⟩
  cases ht

end EnclaveOs.Apps
