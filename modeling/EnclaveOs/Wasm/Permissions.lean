import EnclaveOs.Fido2.Module
import EnclaveOs.Lib.Since
import EnclaveOs.Oidc.Token

/-! # Permissions of an app -/

namespace EnclaveOs.Apps

open Lib Oidc
open Fido2 (eq_ignore_ascii_case)

def is_whitespace (c : Char) : Bool :=
  let n := c.toNat
  (9 ≤ n && n ≤ 13) || n = 0x20 || n = 0x85 || n = 0xA0 || n = 0x1680 || (0x2000 ≤ n && n ≤ 0x200A) ||
    n = 0x2028 || n = 0x2029 || n = 0x202F || n = 0x205F || n = 0x3000

def trim_chars (cs : List Char) : List Char := ((cs.dropWhile is_whitespace).reverse.dropWhile is_whitespace).reverse

def trim (s : String) : String := String.ofList (trim_chars s.toList)

def after (lead s : String) : Option String :=
  if lead.toList <+: s.toList then some (String.ofList (s.toList.drop lead.toList.length)) else none

theorem after_eq_some {lead s rest : String} : after lead s = some rest ↔ s = lead ++ rest := by
  unfold after
  split
  · rename_i hpre
    obtain ⟨cs, hcs⟩ := hpre
    rw [Option.some.injEq, ← hcs, List.drop_left, ← String.toList_inj, ← String.toList_inj, ← hcs,
      String.toList_append, String.toList_ofList]
    exact ⟨fun h => by rw [h], fun h => List.append_cancel_left h⟩
  · rename_i hpre
    constructor
    · intro h
      cases h
    · rintro rfl
      exact absurd (String.toList_append ▸ List.prefix_append _ _) hpre

/-! ## Policies and prices -/

inductive FunctionPolicy
  | Public
  | Authenticated
  | Role
  | Owner
deriving DecidableEq

inductive Payer
  | Caller
  | Sponsor
deriving DecidableEq

structure PriceRule where
  credits : UInt64
  payer : Payer
  sponsor_from : Option String
  free_for : List String
deriving DecidableEq

structure FunctionPermission where
  policy : FunctionPolicy
  roles : List String
  price : Option PriceRule
deriving DecidableEq

structure AppPermissions where
  version : UInt32
  oidc : Option AppOidcConfig
  fido2 : Bool
  default_policy : FunctionPolicy
  default_roles : List String
  functions : AList fun _ : String => FunctionPermission
  schema_policy : FunctionPolicy
  schema_roles : List String
  default_price : Option PriceRule

def AppPermissions.price_for (p : AppPermissions) (func : String) : Option PriceRule :=
  (((p.functions.lookup func).bind FunctionPermission.price).or p.default_price).filter fun r => 0 < r.credits

def AppPermissions.effective (p : AppPermissions) (func : String) : FunctionPolicy × List String :=
  match p.functions.lookup func with
  | some fp => (fp.policy, fp.roles)
  | none => (p.default_policy, p.default_roles)

def AppPermissions.login (p : AppPermissions) : Option AppOidcConfig × Bool := (p.oidc, p.fido2)

def role_list (inner : List Char) : List String :=
  ((inner.splitOn ',').map fun r => String.ofList (trim_chars r)).filter (· ≠ "")

def parse_auth_annotation (value : String) : FunctionPolicy × List String :=
  let v := trim value
  if eq_ignore_ascii_case v "public" then (.Public, [])
  else if eq_ignore_ascii_case v "authenticated" then (.Authenticated, [])
  else if eq_ignore_ascii_case v "owner" then (.Owner, [])
  else
    match (after "role(" v).map String.toList with
    | some inner => if inner.getLast? = some ')' then (.Role, role_list inner.dropLast) else (.Authenticated, [])
    -- anything else asks for a token
    | none => (.Authenticated, [])

abbrev Docs : Type := AList fun _ : String => String

def Docs.under (docs : Docs) (lead : String) : List (String × String) :=
  docs.entries.filterMap fun e => (after lead e.1).map fun name => (name, e.2)

def auth_entry (value : String) : FunctionPermission :=
  let ann := parse_auth_annotation value
  ⟨ann.1, ann.2, none⟩

def set_auth (perms : AppPermissions) (e : String × String) : AppPermissions :=
  let ann := parse_auth_annotation e.2
  if e.1 = "__default__" then { perms with default_policy := ann.1, default_roles := ann.2 }
  else { perms with functions := perms.functions.insert e.1 (auth_entry e.2) }

def AppPermissions.fresh : AppPermissions where
  version := 1
  oidc := none
  fido2 := false
  default_policy := .Public
  default_roles := []
  functions := ∅
  schema_policy := .Public
  schema_roles := []
  default_price := none

def merge_auth_from_docs (docs : Docs) (permissions : Option AppPermissions) : Option AppPermissions :=
  if docs.under "auth:" = [] then permissions
  else some ((docs.under "auth:").foldl set_auth (permissions.getD .fresh))

section Prices

def price_entry (perms : AppPermissions) (name : String) (rule : PriceRule) : FunctionPermission :=
  match perms.functions.lookup name with
  | some fp => { fp with price := some rule }
  | none => ⟨perms.default_policy, perms.default_roles, some rule⟩

-- how the JSON of a price annotation is read
variable (price_rule : String → Option PriceRule)

def set_price (perms : AppPermissions) (e : String × String) : AppPermissions :=
  match price_rule e.2 with
  -- a malformed annotation prices nothing
  | none => perms
  | some rule =>
    if e.1 = "__default__" then { perms with default_price := some rule }
    else { perms with functions := perms.functions.insert e.1 (price_entry perms e.1 rule) }

def merge_price_from_docs (docs : Docs) (permissions : Option AppPermissions) : Option AppPermissions :=
  permissions.map fun perms => (docs.under "price:").foldl (set_price price_rule) perms

def merge_from_docs (docs : Option Docs) (permissions : Option AppPermissions) : Option AppPermissions :=
  match docs with
  | some d => merge_price_from_docs price_rule d (merge_auth_from_docs d permissions)
  | none => permissions

end Prices

/-! ## What the merged policy says -/

variable {value f : String}

theorem Docs.nodup_under (docs : Docs) (lead : String) : ((docs.under lead).map Prod.fst).Nodup := by
  have hkeys : (docs.under lead).map Prod.fst = docs.keys.filterMap (after lead) := by
    unfold Docs.under AList.keys List.keys
    rw [List.map_filterMap, List.filterMap_map]
    congr 1
    funext e
    simp [Option.map_map, Function.comp_def]
  rw [hkeys]
  apply docs.keys_nodup.filterMap
  intro a b name ha hb
  rw [after_eq_some.mp ha, after_eq_some.mp hb]

theorem Docs.mem_under {docs : Docs} {lead name value : String} :
    (name, value) ∈ docs.under lead ↔ docs.lookup (lead ++ name) = some value := by
  unfold Docs.under
  rw [List.mem_filterMap, ← Option.mem_def, AList.mem_lookup_iff]
  constructor
  · rintro ⟨⟨key, v⟩, hmem, h⟩
    obtain ⟨name', hname, heq⟩ := Option.map_eq_some_iff.mp h
    cases heq
    rw [← after_eq_some.mp hname]
    exact hmem
  · intro h
    exact ⟨_, h, by simp [after_eq_some.mpr rfl]⟩

/-- What is read off the result of a merge under one name is due to the doc of that name. -/
theorem Docs.foldl_under {S V : Type} {g : S → String × String → S} (view : S → V) (set : V → String → V)
    (hkeep : ∀ s e, e.1 ≠ f → view (g s e) = view s) (hset : ∀ s v, view (g s (f, v)) = set (view s) v)
    (docs : Docs) (lead : String) (s : S) :
    view ((docs.under lead).foldl g s) = (docs.lookup (lead ++ f)).elim (view s) (set (view s)) := by
  rcases hdoc : docs.lookup (lead ++ f) with _ | value
  · apply view_foldl
    rintro ⟨name, value⟩ hmem s
    apply hkeep
    rintro rfl
    rw [Docs.mem_under.mp hmem] at hdoc
    cases hdoc
  · obtain ⟨s', hs, h⟩ := view_foldl_once (s := s) view (Docs.mem_under.mpr hdoc) (docs.nodup_under lead) hkeep
    rw [h, hset, hs]
    rfl

/-! ### Policies

A doc under the name `__default__` is no function's.
-/

def Docs.own (docs : Docs) (lead q : String) : Option String :=
  if q = "__default__" then none else docs.lookup (lead ++ q)

/-- The policy of a function as the docs and the operator set it: for the function itself, or by default. -/
def policy_said (docs : Docs) (sent : AppPermissions) (q : String) : FunctionPolicy × List String :=
  match docs.own "auth:" q, sent.functions.lookup q, docs.lookup "auth:__default__" with
  | some value, _, _ => parse_auth_annotation value
  | none, some fp, _ => (fp.policy, fp.roles)
  | none, none, some value => parse_auth_annotation value
  | none, none, none => (sent.default_policy, sent.default_roles)

section Auth

variable (docs : Docs) (perms : AppPermissions)

def with_auth : AppPermissions := (docs.under "auth:").foldl set_auth perms

theorem with_auth_function (q : String) :
    (with_auth docs perms).functions.lookup q =
      (docs.own "auth:" q).elim (perms.functions.lookup q) fun value => some (auth_entry value) := by
  have hother {perms : AppPermissions} {e : String × String} (h : e.1 = "__default__" ∨ e.1 ≠ q) :
      (set_auth perms e).functions.lookup q = perms.functions.lookup q := by
    unfold set_auth
    dsimp only
    split
    · rfl
    · exact AList.lookup_insert_ne (Ne.symm (h.resolve_left ‹_›))
  unfold with_auth Docs.own
  by_cases hq : q = "__default__"
  · rw [if_pos hq]
    refine view_foldl (fun p : AppPermissions => p.functions.lookup q) fun e _ s => hother ?_
    grind
  rw [if_neg hq]
  refine Docs.foldl_under (g := set_auth) (fun p => p.functions.lookup q) (fun _ value => some (auth_entry value))
    (fun s e h => hother (.inr h)) (fun s value => ?_) docs "auth:" perms
  unfold set_auth
  rw [if_neg hq]
  exact AList.lookup_insert _

theorem with_auth_default :
    ((with_auth docs perms).default_policy, (with_auth docs perms).default_roles) =
      (docs.lookup "auth:__default__").elim (perms.default_policy, perms.default_roles) parse_auth_annotation := by
  refine Docs.foldl_under (f := "__default__") (g := set_auth) (fun p => (p.default_policy, p.default_roles))
    (fun _ value => parse_auth_annotation value) (fun s e h => ?_) (fun s value => ?_) docs "auth:" perms
  · rw [set_auth, if_neg h]
  · rw [set_auth, if_pos rfl]

theorem with_auth_effective (q : String) : (with_auth docs perms).effective q = policy_said docs perms q := by
  unfold AppPermissions.effective
  rw [with_auth_function, with_auth_default]
  unfold policy_said
  rcases docs.own "auth:" q with _ | value
  · rcases perms.functions.lookup q with _ | fp
    · cases docs.lookup "auth:__default__" <;> simp only [Option.elim]
    · simp only [Option.elim]
  · simp only [Option.elim, auth_entry, Prod.mk.eta]

theorem with_auth_kept : ((with_auth docs perms).login, (with_auth docs perms).default_price) =
    (perms.login, perms.default_price) := by
  unfold with_auth
  refine view_foldl (fun p : AppPermissions => (p.login, p.default_price)) fun e _ s => ?_
  unfold set_auth AppPermissions.login
  dsimp only
  split <;> simp only

end Auth

/-! ### Prices -/

section Prices

variable (price_rule : String → Option PriceRule)

/-- The price of a function as the docs and the operator set it. -/
def price_said (docs : Docs) (sent : AppPermissions) (q : String) : Option PriceRule :=
  let annotated := (docs.own "price:" q).bind price_rule
  -- an annotated policy takes the place of all that the operator set for the function
  let set := if (docs.own "auth:" q).isSome then none else (sent.functions.lookup q).bind FunctionPermission.price
  let default := ((docs.lookup "price:__default__").bind price_rule).or sent.default_price
  ((annotated.or set).or default).filter fun r => 0 < r.credits

variable (docs : Docs) (perms : AppPermissions)

def with_prices : AppPermissions := (docs.under "price:").foldl (set_price price_rule) perms

theorem set_price_effective (e : String × String) (q : String) :
    (set_price price_rule perms e).effective q = perms.effective q := by
  unfold set_price
  split
  · rfl
  split
  · rfl
  unfold AppPermissions.effective
  by_cases hq : q = e.1
  · subst hq
    dsimp only
    rw [AList.lookup_insert]
    unfold price_entry
    cases perms.functions.lookup e.1 <;> rfl
  · dsimp only
    rw [AList.lookup_insert_ne hq]

theorem with_prices_effective (q : String) : (with_prices price_rule docs perms).effective q = perms.effective q :=
  view_foldl (fun p : AppPermissions => p.effective q) fun e _ s => set_price_effective price_rule s e q

theorem with_prices_login : (with_prices price_rule docs perms).login = perms.login := by
  refine view_foldl AppPermissions.login fun e _ s => ?_
  unfold set_price
  split
  · rfl
  · split <;> rfl

theorem with_prices_function (q : String) :
    ((with_prices price_rule docs perms).functions.lookup q).bind FunctionPermission.price =
      ((docs.own "price:" q).bind price_rule).or ((perms.functions.lookup q).bind FunctionPermission.price) := by
  let view (p : AppPermissions) := (p.functions.lookup q).bind FunctionPermission.price
  have hother {perms : AppPermissions} {e : String × String} (h : e.1 = "__default__" ∨ e.1 ≠ q) :
      view (set_price price_rule perms e) = view perms := by
    unfold set_price
    split
    · rfl
    split
    · rfl
    · exact congrArg (Option.bind · _) (AList.lookup_insert_ne (Ne.symm (h.resolve_left ‹_›)))
  unfold with_prices Docs.own
  by_cases hq : q = "__default__"
  · rw [if_pos hq]
    refine view_foldl view fun e _ s => hother ?_
    grind
  rw [if_neg hq]
  have h := Docs.foldl_under view (fun old value => (price_rule value).or old) (fun s e h => hother (.inr h))
    (fun s value => ?_) docs "price:" perms
  · refine h.trans ?_
    cases docs.lookup ("price:" ++ q) <;> rfl
  · unfold set_price
    dsimp only
    split
    · rename_i hrule
      rw [hrule]
      rfl
    · rename_i rule hrule
      rw [if_neg hq, hrule]
      simp only [view, AList.lookup_insert, Option.bind_some, Option.some_or]
      unfold price_entry
      split <;> rfl

theorem with_prices_default : (with_prices price_rule docs perms).default_price =
    ((docs.lookup "price:__default__").bind price_rule).or perms.default_price := by
  have h := Docs.foldl_under (f := "__default__") (g := set_price price_rule) AppPermissions.default_price
    (fun old value => (price_rule value).or old) (fun s e h => ?_) (fun s value => ?_) docs "price:" perms
  · refine h.trans ?_
    change (docs.lookup "price:__default__").elim _ _ = _
    cases docs.lookup "price:__default__" <;> rfl
  · unfold set_price
    split
    · rfl
    · rw [if_neg h]
  · unfold set_price
    dsimp only
    split
    · rename_i hrule
      rw [hrule]
      rfl
    · rename_i rule hrule
      rw [if_pos rfl, hrule]
      rfl

theorem with_both_price (q : String) :
    (with_prices price_rule docs (with_auth docs perms)).price_for q = price_said price_rule docs perms q := by
  unfold AppPermissions.price_for price_said
  rw [with_prices_function, with_prices_default, with_auth_function, (Prod.mk.inj (with_auth_kept docs perms)).2]
  rcases docs.own "auth:" q with _ | value <;> rfl

/-! ### Both -/

/-- Some policy is set at all. -/
def Policed (docs : Docs) (permissions : Option AppPermissions) : Prop :=
  permissions.isSome ∨ ∃ key ∈ docs.keys, "auth:".toList <+: key.toList

instance (docs : Docs) (permissions : Option AppPermissions) : Decidable (Policed docs permissions) :=
  inferInstanceAs (Decidable (_ ∨ _))

variable {docs : Docs} {permissions : Option AppPermissions}

theorem Docs.under_eq_nil {lead : String} :
    docs.under lead = [] ↔ ¬ ∃ key ∈ docs.keys, lead.toList <+: key.toList := by
  rw [List.eq_nil_iff_forall_not_mem, ← not_exists, Prod.exists, not_iff_not, iff_comm]
  simp only [Docs.mem_under]
  constructor
  · rintro ⟨key, hkey, rest, hrest⟩
    obtain ⟨value, hvalue⟩ := Option.isSome_iff_exists.mp (AList.lookup_isSome.mpr (AList.mem_keys.mp hkey))
    have hname : lead ++ String.ofList rest = key := by
      rw [← String.toList_inj, String.toList_append, String.toList_ofList, hrest]
    exact ⟨_, value, hname ▸ hvalue⟩
  · rintro ⟨name, value, hvalue⟩
    refine ⟨lead ++ name, ?_, String.toList_append ▸ List.prefix_append _ _⟩
    exact AList.mem_keys.mpr (AList.lookup_isSome.mp (by simp [hvalue]))

theorem merge_from_docs_eq (docs : Option Docs) (permissions : Option AppPermissions) :
    merge_from_docs price_rule docs permissions =
      if Policed (docs.getD ∅) permissions then
        some (with_prices price_rule (docs.getD ∅) (with_auth (docs.getD ∅) (permissions.getD .fresh)))
      else none := by
  have hmerge (d : Docs) : merge_price_from_docs price_rule d (merge_auth_from_docs d permissions) =
      if Policed d permissions then some (with_prices price_rule d (with_auth d (permissions.getD .fresh)))
      else none := by
    unfold merge_price_from_docs merge_auth_from_docs
    by_cases hnil : d.under "auth:" = []
    · rw [if_pos hnil, with_auth, hnil]
      rcases permissions with _ | p
      · have hnot : ¬ Policed d none := by
          rintro (h | h)
          · cases h
          · exact Docs.under_eq_nil.mp hnil h
        rw [if_neg hnot]
        rfl
      · have hset : Policed d (some p) := .inl rfl
        rw [if_pos hset]
        rfl
    · have hset : Policed d permissions := .inr (not_not.mp fun h => hnil (Docs.under_eq_nil.mpr h))
      rw [if_neg hnil, if_pos hset]
      rfl
  rcases docs with _ | d
  · refine Eq.trans ?_ (hmerge ∅)
    rcases permissions with _ | p <;> rfl
  · exact hmerge d

variable {price_rule}

theorem merge_from_docs_said {docs : Option Docs} {p : AppPermissions}
    (h : merge_from_docs price_rule docs permissions = some p) :
    p.login = (permissions.getD .fresh).login ∧
      (∀ q, p.effective q = policy_said (docs.getD ∅) (permissions.getD .fresh) q) ∧
      ∀ q, p.price_for q = price_said price_rule (docs.getD ∅) (permissions.getD .fresh) q := by
  rw [merge_from_docs_eq, Option.ite_none_right_eq_some, Option.some.injEq] at h
  obtain ⟨-, rfl⟩ := h
  refine ⟨?_, fun q => ?_, fun q => with_both_price _ _ _ q⟩
  · rw [with_prices_login, (Prod.mk.inj (with_auth_kept _ _)).1]
  · rw [with_prices_effective, with_auth_effective]

theorem merge_from_docs_none {docs : Option Docs} :
    merge_from_docs price_rule docs permissions = none ↔ ¬ Policed (docs.getD ∅) permissions := by
  simp [merge_from_docs_eq]

end Prices

/-! ## Docs with more prices -/

def Docs.price (docs : Docs) (adds : List (String × String)) : Docs :=
  adds.foldl (fun d e => d.insert ("price:" ++ e.1) e.2) docs

theorem ne_price {key name : String} (h : key.toList.head? ≠ some 'p') : key ≠ "price:" ++ name := by
  rintro rfl
  rw [String.toList_append] at h
  exact h rfl

theorem auth_ne_price {key name : String} (h : "auth:".toList <+: key.toList) : key ≠ "price:" ++ name := by
  obtain ⟨rest, hrest⟩ := h
  exact ne_price (by simp [← hrest])

variable (docs : Docs) (adds : List (String × String))

theorem Docs.lookup_price {key : String} (h : ∀ e ∈ adds, key ≠ "price:" ++ e.1) :
    (docs.price adds).lookup key = docs.lookup key :=
  view_foldl (fun d : Docs => d.lookup key) fun e he _ => AList.lookup_insert_ne (h e he)

theorem Docs.policed_price (permissions : Option AppPermissions) :
    Policed (docs.price adds) permissions ↔ Policed docs permissions := by
  unfold Policed
  simp only [AList.mem_keys.symm, ← AList.lookup_isSome]
  refine or_congr_right (exists_congr fun key => and_congr_left fun h => ?_)
  rw [docs.lookup_price adds fun _ _ => auth_ne_price h]

theorem Docs.lookup_auth_price (name : String) :
    (docs.price adds).lookup ("auth:" ++ name) = docs.lookup ("auth:" ++ name) :=
  docs.lookup_price adds fun _ _ => auth_ne_price (String.toList_append ▸ List.prefix_append _ _)

theorem Docs.policy_said_price (sent : AppPermissions) (q : String) :
    policy_said (docs.price adds) sent q = policy_said docs sent q := by
  have hdefault : (docs.price adds).lookup "auth:__default__" = docs.lookup "auth:__default__" :=
    docs.lookup_auth_price adds "__default__"
  rw [policy_said, policy_said, Docs.own, Docs.own, docs.lookup_auth_price, hdefault]

theorem Docs.price_said_other (price_rule : String → Option PriceRule) (sent : AppPermissions) {q : String}
    (h : ∀ e ∈ adds, e.1 ≠ q ∧ e.1 ≠ "__default__") :
    price_said price_rule (docs.price adds) sent q = price_said price_rule docs sent q := by
  have hother {name : String} (hne : ∀ e ∈ adds, e.1 ≠ name) :
      (docs.price adds).lookup ("price:" ++ name) = docs.lookup ("price:" ++ name) := by
    refine docs.lookup_price adds fun e he heq => hne e he ?_
    exact Option.some.inj ((after_eq_some.mpr heq).symm.trans (after_eq_some.mpr rfl))
  have hdefault : (docs.price adds).lookup "price:__default__" = docs.lookup "price:__default__" :=
    hother fun e he => (h e he).2
  rw [price_said, price_said, Docs.own, Docs.own, Docs.own, Docs.own, docs.lookup_auth_price, hdefault,
    hother fun e he => (h e he).1]

end EnclaveOs.Apps
