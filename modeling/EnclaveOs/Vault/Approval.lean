import EnclaveOs.Vault.Release

/-! # Approvals by a current manager -/

namespace EnclaveOs.Vault

open Lib Lib.Method

section Model

variable [Outside]

/-! ## The rule that lets a request through -/

section Rules

variable {policy : KeyPolicy} {op : Operation} {h : String} {approvals : List ApprovalToken}
  {ctx : RequestContext} {binding : Option OpBinding} {ref : PrincipalRef} {s s' : State}

/-- The rules up to the first one that grants and holds, with the states between. -/
inductive Grants (policy : KeyPolicy) (op : Operation) (h : String) (approvals : List ApprovalToken)
    (ctx : RequestContext) (binding : Option OpBinding) (ref : PrincipalRef) :
    List OperationRule → State → OperationRule → State → Prop where
  | here {rule : OperationRule} {rest : List OperationRule} {s s' : State}
      (hg : (rule.ops.contains op && rule_grants_to rule ref) = true)
      (hx : (evaluate_conditions rule.requires policy op h approvals ctx binding).exec s = (.ok (), s')) :
      Grants policy op h approvals ctx binding ref (rule :: rest) s rule s'
  | other {first rule : OperationRule} {rest : List OperationRule} {s s' : State}
      (hg : (first.ops.contains op && rule_grants_to first ref) = false)
      (hrest : Grants policy op h approvals ctx binding ref rest s rule s') :
      Grants policy op h approvals ctx binding ref (first :: rest) s rule s'
  | failed {first rule : OperationRule} {rest : List OperationRule} {s s1 s' : State} {e : String}
      (hg : (first.ops.contains op && rule_grants_to first ref) = true)
      (hx : (evaluate_conditions first.requires policy op h approvals ctx binding).exec s = (.error e, s1))
      (hrest : Grants policy op h approvals ctx binding ref rest s1 rule s') :
      Grants policy op h approvals ctx binding ref (first :: rest) s rule s'

/-- `evaluate_op` succeeds by a rule under the condition `cond`. -/
def SucceedsThrough (policy : KeyPolicy) (op : Operation) (h : String) (approvals : List ApprovalToken)
    (ctx : RequestContext) (binding : Option OpBinding) (s : State) (cond : Condition) : Prop :=
  ∃ ref role s1 rule s', (resolve_caller policy ctx).exec s = (.ok (some (ref, role)), s1) ∧
    Grants policy op h approvals ctx binding ref policy.operations s1 rule s' ∧
    (evaluate_op policy op h approvals ctx binding).exec s = (.ok (), s') ∧ cond ∈ rule.requires

theorem Grants.try_rules {rules : List OperationRule} {rule : OperationRule} {e : Option String}
    (hg : Grants policy op h approvals ctx binding ref rules s rule s') :
    (try_rules policy op h approvals ctx binding ref rules e).exec s = (.ok (), s') := by
  induction hg generalizing e with
  | here hg hx =>
    rw [Vault.try_rules, if_pos hg, exec_bind_ok (exec_attempt hx)]
    rfl
  | other hg _ ih => rw [Vault.try_rules, hg, if_neg Bool.false_ne_true, ih]
  | failed hg hx _ ih => rw [Vault.try_rules, if_pos hg, exec_bind_ok (exec_attempt hx), ih]

theorem evaluate_op_of_grants {rule : OperationRule} {role : CallerRole} {s1 : State}
    (hres : (resolve_caller policy ctx).exec s = (.ok (some (ref, role)), s1))
    (hg : Grants policy op h approvals ctx binding ref policy.operations s1 rule s') :
    (evaluate_op policy op h approvals ctx binding).exec s = (.ok (), s') := by
  rw [evaluate_op, exec_bind_ok hres]
  exact hg.try_rules

omit [Outside] in
theorem exec_eq_of_fst {α : Type} {x : VaultM α} {a : α} (hx : (x.exec s).1 = .ok a) :
    x.exec s = (.ok a, (x.exec s).2) := Prod.ext hx rfl

omit [Outside] in
theorem forM_ok {α : Type} {f : α → VaultM Unit} (hf : ∀ a, Calm (f a)) {l : List α}
    (hx : (l.forM f).exec s = (.ok (), s')) {a : α} (ha : a ∈ l) :
    ∃ s1 s2, Spares s s1 ∧ (f a).exec s1 = (.ok (), s2) := by
  induction l generalizing s with
  | nil => cases ha
  | cons b l ih =>
    obtain ⟨_, s1, h1, h2⟩ := exec_bind_eq_ok.mp hx
    rcases List.mem_cons.mp ha with rfl | ha
    · exact ⟨s, s1, .refl s, h1⟩
    · obtain ⟨t, t', hsp, ht⟩ := ih h2 ha
      exact ⟨t, t', ((hf b).of_exec h1).trans hsp, ht⟩

theorem Grants.condition {rules : List OperationRule} {rule : OperationRule} {cond : Condition}
    (hg : Grants policy op h approvals ctx binding ref rules s rule s') (hc : cond ∈ rule.requires) :
    ∃ now s1 s2, Spares s s1 ∧
      (check_condition policy op h approvals ctx binding now cond).exec s1 = (.ok (), s2) := by
  induction hg with
  | @here rule rest s s' _ hx =>
    obtain ⟨now, t, h1, h2⟩ := exec_bind_eq_ok.mp hx
    obtain ⟨s1, s2, hsp, hpass⟩ := forM_ok (fun _ => calm_check_condition) h2 hc
    exact ⟨now, s1, s2, (calm_now_secs.of_exec h1).trans hsp, hpass⟩
  | other _ _ ih => exact ih hc
  | @failed first rule rest s s1 s' e _ hx _ ih =>
    obtain ⟨now, t, t', hsp, hpass⟩ := ih hc
    exact ⟨now, t, t', (calm_evaluate_conditions.of_exec hx).trans hsp, hpass⟩

end Rules

section Tokens

variable {op : Operation} {h : String} {m : UInt32} {distinct : Option String} {fresh now : UInt64}
  {s s' : State}

omit [Outside] in
theorem check_claims_ok {claims : ApprovalClaims}
    (hx : check_claims claims h op m distinct fresh now = .ok ()) :
    claims.handle = h ∧ claims.op = op ∧ claims.manager = m ∧
      ∀ sub, distinct = some sub → claims.approver_sub ≠ sub := by
  unfold check_claims at hx
  split at hx
  · cases hx
  split at hx
  · cases hx
  split at hx
  · cases hx
  split at hx
  · cases hx
  split at hx
  · cases hx
  split at hx
  · cases hx
  rename_i _ hh hop hm _ hd
  refine ⟨not_not.mp hh, not_not.mp hop, not_not.mp hm, ?_⟩
  rintro sub rfl rfl
  exact hd rfl

theorem accept_token_ok {tokens : List ApprovalToken} {e : Option String}
    (hx : (accept_token h op m distinct fresh now tokens e).exec s = (.ok (), s')) :
    ∃ token ∈ tokens, ∃ s1 s2, Spares s s1 ∧
      (verify_approval_token token h op m distinct fresh now).exec s1 = (.ok (), s2) := by
  induction tokens generalizing e s with
  | nil => cases e <;> cases hx
  | cons token rest ih =>
    unfold accept_token at hx
    rcases hv : (verify_approval_token token h op m distinct fresh now).exec s with ⟨e' | _, s1⟩
    · rw [exec_bind_ok (exec_attempt hv)] at hx
      obtain ⟨t, ht, s2, s3, hsp, hacc⟩ := ih hx
      have hcalm := aloof_verify_approval_token.calm.of_exec hv
      exact ⟨t, .tail _ ht, s2, s3, hcalm.trans hsp, hacc⟩
    · exact ⟨token, .head _, s, s1, .refl s, hv⟩

end Tokens

/-! ## Who is issued a token -/

/-- `who` asks for an approval, and `mgr` at place `i` is the first manager of the key that they match. -/
structure Asks (d : Call) (kv : Table) (h : String) (op : Operation) (who : OidcClaims) (mgr : Principal) (i : Nat) :
    Prop where
  request : ∃ ttl, d.request = .IssueApprovalToken h op ttl
  bearer : d.ctx.oidc_claims = some who
  manager : ∃ r, kv (.record h) = some (.record r) ∧ r.policy.principals.managers[i]? = some mgr ∧
    r.policy.principals.managers.findIdx? (oidc_matches · who) = some i

omit [Outside] in
theorem Asks.matched {d : Call} {kv : Table} {h : String} {op : Operation} {who : OidcClaims} {mgr : Principal} {i : Nat}
    (ha : Asks d kv h op who mgr i) : oidc_matches mgr who = true := by
  obtain ⟨r, -, hmgr, hi⟩ := ha.manager
  obtain ⟨hlt, hmatch, -⟩ := List.findIdx?_eq_some_iff_getElem.mp hi
  rw [List.getElem?_eq_getElem hlt] at hmgr
  cases hmgr
  exact hmatch

theorem issue_of_token {d : Call} {kv : Table} {token : ApprovalToken}
    (h : (serve d kv).1 = .ApprovalTokenIssued token) : ∃ handle op ttl s, d.request = .IssueApprovalToken handle op ttl ∧
      (handle_issue_approval handle op ttl d.ctx).exec (start d kv) = (.ok (.ApprovalTokenIssued token), s) := by
  obtain ⟨s, hx, -⟩ := serve_ok h rfl
  generalize d.request = request at hx ⊢
  have hno (hother : Answers (fun r => ∀ t, r ≠ .ApprovalTokenIssued t) (dispatch d.ctx request)) : False :=
    hother _ _ _ hx token rfl
  cases request with
  | IssueApprovalToken handle op ttl => exact ⟨handle, op, ttl, s, rfl, hx⟩
  | Sign _ _ prehashed _ =>
    refine (hno (answers_bind fun _ => answers_bind fun _ => ?_)).elim
    cases prehashed <;> exact answers_bind fun _ => answers_pure (by simp)
  | ExportKey _ _ | Wrap _ _ _ _ _ | Unwrap _ _ _ _ _ | Mac _ _ _ =>
    refine (hno ?_).elim
    repeat refine answers_bind fun _ => ?_
    exact answers_pure (by simp)
  | _ => cases answers_dispatch d.ctx rfl _ _ _ hx

/-- What the vault signs when it answers with a token. -/
theorem asks_of_token {d : Call} {kv : Table} {token : ApprovalToken}
    (h : (serve d kv).1 = .ApprovalTokenIssued token) : ∃ (claims : ApprovalClaims) (who : OidcClaims) (mgr : Principal)
      (i : Nat), Asks d kv claims.handle claims.op who mgr i ∧ claims.manager = UInt32.ofNat i ∧
      claims.approver_sub = who.sub ∧ ∃ key entropy, Outside.encode_jwt claims key entropy = .ok token.jwt := by
  obtain ⟨handle, op, ttl, s, hreq, hx⟩ := issue_of_token h
  rw [handle_issue_approval_eq] at hx
  obtain ⟨⟨r, token'⟩, s1, hchecks, hx⟩ := exec_bind_eq_ok.mp hx
  obtain ⟨_, s2, -, hx⟩ := exec_bind_eq_ok.mp hx
  cases hx
  obtain ⟨hr, -, who, i, iat, exp, key, entropy, hwho, hi, hjwt⟩ := issue_checks_ok hchecks
  obtain ⟨hlt, -⟩ := List.findIdx?_eq_some_iff_getElem.mp hi
  exact ⟨⟨ISSUER, handle, op, _, _, iat, exp⟩, who, _, i,
    ⟨⟨ttl, hreq⟩, hwho, r, hr, List.getElem?_eq_getElem hlt, hi⟩, rfl, rfl, key, entropy, hjwt⟩

/-! ## The approval of a request -/

/-- What a token of the request says under a key that the vault loads meanwhile, a token that the vault issued in an
earlier one says too. -/
def OnlyVaultSigns (past : List Call) (c : Call) (approvals : List ApprovalToken) : Prop :=
  ∀ token ∈ approvals, ∀ s kp s' claims, Spares (start c (serveAll empty past)) s →
    load_or_init_keypair.exec s = (.ok kp, s') → Outside.verify_and_decode kp.2 token.jwt = .ok claims →
      ∃ pre d post issued, past = pre ++ d :: post ∧
        (serve d (serveAll empty pre)).1 = .ApprovalTokenIssued issued ∧
        Outside.verify_and_decode kp.2 issued.jwt = .ok claims

/-- A token says what it was made to say. -/
def SaysClaims : Prop := ∀ claims key entropy jwt public_key said,
  Outside.encode_jwt claims key entropy = .ok jwt → Outside.verify_and_decode public_key jwt = .ok said → said = claims

/-- The first manager that one matched when asking for an approval still stands at that place. -/
def SlotKept (past : List Call) (h : String) (op : Operation) (m : UInt32) (policy : KeyPolicy) : Prop :=
  ∀ pre d post who mgr i, past = pre ++ d :: post → Asks d (serveAll empty pre) h op who mgr i → UInt32.ofNat i = m →
    policy.principals.managers[m.toNat]? = some mgr

/-- An approval of the operation was issued to `who` in the past. -/
def IssuedTo (past : List Call) (h : String) (op : Operation) (who : OidcClaims) : Prop :=
  ∃ pre d post issued ttl, past = pre ++ d :: post ∧ d.request = .IssueApprovalToken h op ttl ∧
    d.ctx.oidc_claims = some who ∧ (serve d (serveAll empty pre)).1 = .ApprovalTokenIssued issued

section Use

variable {past : List Call} {c : Call} {h : String} {op : Operation} {approvals : List ApprovalToken}
  {binding : Option OpBinding} {m : UInt32} {fresh : UInt64} {policy : KeyPolicy} {s : State}

omit [Outside] in
theorem co_sign_ok {mgr : Principal} {ctx : RequestContext} {distinct : Option String}
    (hx : co_sign mgr ctx = .ok distinct) :
    ∃ issuer sub roles, mgr = .Oidc issuer sub roles ∧
      (sub = "" → ∃ caller, ctx.oidc_claims = some caller ∧ distinct = some caller.sub) := by
  unfold co_sign at hx
  cases mgr with
  | Tee _ | Fido2 _ _ => cases hx
  | Oidc issuer sub roles =>
    refine ⟨issuer, sub, roles, rfl, ?_⟩
    rintro rfl
    rcases hc : ctx.oidc_claims with _ | caller
    · rw [hc] at hx
      cases hx
    rw [hc] at hx
    cases hx
    exact ⟨caller, rfl, rfl⟩

theorem check_manager_approval_ok {ctx : RequestContext} {now : UInt64} {s' : State}
    (hx : (check_manager_approval policy op h approvals ctx now m fresh).exec s = (.ok (), s')) :
    ∃ issuer sub roles, policy.principals.managers[m.toNat]? = some (.Oidc issuer sub roles) ∧
      ∃ token ∈ approvals, ∃ s1 kp s2 claims, Spares s s1 ∧ load_or_init_keypair.exec s1 = (.ok kp, s2) ∧
        Outside.verify_and_decode kp.2 token.jwt = .ok claims ∧ claims.handle = h ∧ claims.op = op ∧
        claims.manager = m ∧ (sub = "" → ∃ caller, ctx.oidc_claims = some caller ∧ claims.approver_sub ≠ caller.sub) := by
  unfold check_manager_approval at hx
  rcases hm : policy.principals.managers[m.toNat]? with _ | mgr
  · rw [hm] at hx
    cases hx
  rw [hm] at hx
  obtain ⟨distinct, t, hsign, hacc⟩ := exec_bind_eq_ok.mp hx
  obtain ⟨hco, rfl⟩ := ofExcept_ok hsign
  obtain ⟨issuer, sub, roles, rfl, hrole⟩ := co_sign_ok hco
  obtain ⟨token, htoken, s1, t1, hsp, hverify⟩ := accept_token_ok hacc
  unfold verify_approval_token at hverify
  obtain ⟨kp, s2, hkp, hverify⟩ := exec_bind_eq_ok.mp hverify
  obtain ⟨_, t2, -, hverify⟩ := exec_bind_eq_ok.mp hverify
  obtain ⟨claims, t3, hdecode, hcheck⟩ := exec_bind_eq_ok.mp hverify
  obtain ⟨hhandle, hop, hmanager, hdist⟩ := check_claims_ok (ofExcept_ok hcheck).1
  refine ⟨issuer, sub, roles, rfl, token, htoken, s1, kp, s2, claims, hsp, hkp, (ofExcept_ok hdecode).1, hhandle, hop,
    hmanager, fun hempty => ?_⟩
  obtain ⟨caller, hcaller, rfl⟩ := hrole hempty
  exact ⟨caller, hcaller, hdist caller.sub rfl⟩

end Use

end Model

/-! ## A run with an approval, and one in which the manager has left -/

namespace Sample

def issue (p : KeyPolicy) : Call := call p "bob" (.IssueApprovalToken "k" .ExportKey 0)

def approved (p : KeyPolicy) : Call := call p "alice" (.ExportKey "k" [⟨"token"⟩])

end Sample

end EnclaveOs.Vault
