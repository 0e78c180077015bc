import EnclaveOs.Lib.Follow
import EnclaveOs.Vault.Approval
import EnclaveOs.Vault.Authorisation

/-!
# A clock that gives no answer

`now_secs` turns a failed `get_current_time` into 0, which only a lower bound refuses.
-/

namespace EnclaveOs.Vault

open Lib Lib.Method

/-! ## Without upper bounds -/

def MAX64 : UInt64 := UInt64.ofNat (2 ^ 64 - 1)

/-- A step-up for a fresh token still asks for an issue time. -/
def Condition.unbounded : Condition → Condition
  | .TimeWindow not_before _ => .TimeWindow not_before 0
  | .ManagerApproval manager _ => .ManagerApproval manager 0
  | .OidcStepUp amr bound fresh => .OidcStepUp amr bound (if 0 < fresh then MAX64 else 0)
  | .AttestationMatches profile => .AttestationMatches profile

def OperationRule.unbounded (r : OperationRule) : OperationRule :=
  { r with requires := r.requires.map Condition.unbounded }

def KeyPolicy.unbounded (p : KeyPolicy) : KeyPolicy :=
  { p with operations := p.operations.map OperationRule.unbounded }

def KeyRecord.unbounded (r : KeyRecord) : KeyRecord := { r with expires_at := MAX64, policy := r.policy.unbounded }

def Stored.unbounded : Stored → Stored
  | .record r => .record r.unbounded
  | v => v

/-- The table with every key and every rule without an upper bound. -/
def unbounded (kv : Table) : Table := fun k => (kv k).map Stored.unbounded

def State.unbounded (s : State) : State := ⟨Vault.unbounded s.kv, s.world⟩

def VaultResponse.uses : VaultResponse → Bool
  | .KeyMaterial _ _ | .Signature _ _ | .MacTag _ _ | .Wrapped _ _ | .Unwrapped _ => true
  | _ => false

def VaultResponse.unbounded : VaultResponse → VaultResponse
  | .KeyMaterial material _ => .KeyMaterial material MAX64
  | r => r

theorem VaultResponse.uses_unbounded (r : VaultResponse) : r.unbounded.uses = r.uses := by
  cases r <;> rfl

def TimeMissing (world : Nat → World) : Prop := ∀ n, (world n).current_time = none

/-- `m'` does without upper bounds what `m` does with them. -/
def Alike {α β : Type} (g : α → β) (m : VaultM α) (m' : VaultM β) : Prop :=
  Follows State.unbounded (fun s => TimeMissing s.world) g m m'

section Alike

variable {α β γ δ : Type} {g : α → β}

theorem alike_pure {a : α} {b : β} (h : b = g a) : Alike g (pure a) (pure b) := by
  rw [h]
  exact follows_pure a

theorem alike_throw (e : String) : Alike g (throw e) (throw e) := follows_throw e

theorem alike_ofExcept (r : Except String α) : Alike id (Method.ofExcept r) (Method.ofExcept r) := by
  intro s hs
  refine ⟨?_, hs⟩
  cases r <;> rfl

theorem Alike.bind {k : γ → δ} {x : VaultM α} {x' : VaultM β} {f : α → VaultM γ} {f' : β → VaultM δ}
    (hx : Alike g x x') (hf : ∀ a, Alike k (f a) (f' (g a))) : Alike k (x >>= f) (x' >>= f') :=
  Follows.bind hx hf

theorem alike_ask : Alike id ask ask := fun _ h => ⟨rfl, fun n => h (n + 1)⟩

theorem alike_kvOp {f : Table → α × Table} {f' : Table → β × Table}
    (h : ∀ kv, f' (unbounded kv) = (g (f kv).1, unbounded (f kv).2)) : Alike g (kvOp f) (kvOp f') := by
  unfold kvOp
  apply alike_ask.bind
  intro w
  simp only [id]
  rcases w.kv_fault with _ | e
  · refine fun s hs => ⟨?_, hs⟩
    rw [exec_of, exec_of]
    have hk : f' s.unbounded.kv = (g (f s.kv).1, unbounded (f s.kv).2) := h s.kv
    rw [hk]
    rfl
  · exact alike_throw e

theorem alike_kvGet (key : KvKey) : Alike (Option.map Stored.unbounded) (kvGet key) (kvGet key) :=
  alike_kvOp fun _ => rfl

theorem unbounded_update (kv : Table) (key : KvKey) (v : Option Stored) :
    Function.update (unbounded kv) key (v.map Stored.unbounded) = unbounded (Function.update kv key v) := by
  funext k
  unfold unbounded
  by_cases h : k = key
  · subst h
    simp
  · simp [Function.update_of_ne h]

theorem alike_kvPut (key : KvKey) (v : Stored) : Alike id (kvPut key v) (kvPut key v.unbounded) :=
  alike_kvOp fun kv => by
    simp only [id]
    rw [← unbounded_update]
    rfl

theorem alike_now_secs : Alike id now_secs now_secs := alike_ask.bind fun _ => alike_pure rfl

theorem alike_now_bind {k : γ → δ} {f : UInt64 → VaultM γ} {f' : UInt64 → VaultM δ}
    (hf : Alike k (f 0) (f' 0)) : Alike k (now_secs >>= f) (now_secs >>= f') := by
  refine Follows.bind_const alike_now_secs (a := 0) ?_ hf
  intro s hs
  rw [exec_now_secs, hs 0]
  rfl

theorem alike_expired (r : KeyRecord) : Alike id (expired r) (expired r.unbounded) := by
  unfold expired
  refine alike_now_bind ?_
  apply alike_pure
  simp only [id, decide_eq_decide]
  exact iff_of_false (UInt64.not_lt_zero) (UInt64.not_lt_zero)

theorem Alike.attempt_unit {m m' : VaultM Unit} (h : Alike id m m') :
    Alike id (Method.attempt m : VaultM (Except String Unit)) (Method.attempt m') := by
  have ha := Follows.attempt h
  rwa [Except.map_id] at ha

theorem alike_forM {γ : Type} {f f' : γ → VaultM Unit} {c : γ → γ} (hf : ∀ a, Alike id (f a) (f' (c a)))
    (l : List γ) : Alike id (l.forM f) ((l.map c).forM f') := by
  induction l with
  | nil => exact alike_pure rfl
  | cons a l ih => exact (hf a).bind fun _ => ih

end Alike

section Model

variable [Outside]

theorem alike_signing_pkcs8 : Alike id signing_pkcs8 signing_pkcs8 := by
  unfold signing_pkcs8
  apply (Follows.mapError _ (alike_kvGet _)).bind
  intro v
  rcases v with _ | (r | l | e | b)
  · unfold init_signing_key
    apply alike_ask.bind
    intro w
    simp only [id]
    split
    · exact alike_throw _
    · exact (Follows.mapError _ (alike_kvPut _ _)).bind fun _ => alike_pure rfl
  all_goals first | exact alike_throw _ | exact alike_pure rfl

theorem Aloof.alike {α : Type} {m : VaultM α} (h : Aloof m) : Alike id m m := by
  induction h with
  | pure a => exact alike_pure rfl
  | throw e => exact alike_throw e
  | ofExcept r => exact alike_ofExcept r
  | ask => exact alike_ask
  | signing => exact alike_signing_pkcs8
  | bind _ _ hx hf => exact hx.bind hf

omit [Outside] in
theorem not_lt_age (fresh iat : UInt64) : ¬ fresh < satSub64 0 iat := by
  have hzero : satSub64 0 iat = 0 := by
    unfold satSub64
    split
    · rename_i h
      rw [UInt64.le_iff_toNat_le] at h
      apply UInt64.toNat_inj.mp
      rw [UInt64.toNat_sub_of_le _ _ (UInt64.le_iff_toNat_le.mpr h)]
      simp
    · rfl
  rw [hzero]
  exact UInt64.not_lt_zero

omit [Outside] in
theorem check_claims_zero (claims : ApprovalClaims) (h : String) (op : Operation) (m : UInt32)
    (distinct : Option String) (fresh exp : UInt64) :
    check_claims claims h op m distinct fresh 0 = check_claims { claims with exp := exp } h op m distinct 0 0 := by
  unfold check_claims
  simp only [UInt64.not_lt_zero, not_lt_age, and_false, if_false]

theorem alike_accept_token (h : String) (op : Operation) (m : UInt32) (distinct : Option String)
    (fresh : UInt64) (tokens : List ApprovalToken) (e : Option String) :
    Alike id (accept_token h op m distinct fresh 0 tokens e) (accept_token h op m distinct 0 0 tokens e) := by
  induction tokens generalizing e with
  | nil => cases e <;> exact alike_throw _
  | cons token rest ih =>
    have hzero : verify_approval_token token h op m distinct fresh 0 =
        verify_approval_token token h op m distinct 0 0 := by
      unfold verify_approval_token
      simp only [fun claims => check_claims_zero claims h op m distinct fresh claims.exp]
    unfold accept_token
    rw [hzero]
    apply aloof_verify_approval_token.alike.attempt_unit.bind
    intro r
    rcases r with e' | _
    · exact ih _
    · exact alike_pure rfl

omit [Outside] in
theorem check_time_window_zero (not_before not_after : UInt64) :
    check_time_window not_before not_after 0 = check_time_window not_before 0 0 := by
  unfold check_time_window
  simp only [UInt64.not_lt_zero, and_false, if_false]

theorem check_step_up_zero (amr : List String) (bound : Bool) (fresh : UInt64) (h : String)
    (ctx : RequestContext) (binding : Option OpBinding) :
    check_step_up amr bound fresh 0 h ctx binding =
      check_step_up amr bound (if 0 < fresh then MAX64 else 0) 0 h ctx binding := by
  have hfresh : ∀ claims : OidcClaims,
      check_freshness claims fresh 0 = check_freshness claims (if 0 < fresh then MAX64 else 0) 0 := by
    intro claims
    unfold check_freshness
    by_cases hpos : 0 < fresh
    · have hmax : 0 < MAX64 := by decide
      simp only [if_pos hpos, if_pos hmax, if_neg (not_lt_age _ _)]
    · simp only [if_neg hpos, if_neg (UInt64.lt_irrefl 0)]
  unfold check_step_up
  simp only [hfresh]

variable (policy : KeyPolicy) (op : Operation) (h : String) (approvals : List ApprovalToken)
  (ctx : RequestContext) (binding : Option OpBinding)

theorem alike_check_condition (cond : Condition) :
    Alike id (check_condition policy op h approvals ctx binding 0 cond)
      (check_condition policy.unbounded op h approvals ctx binding 0 cond.unbounded) := by
  cases cond with
  | TimeWindow nb na =>
    simp only [check_condition, Condition.unbounded, check_time_window_zero nb na]
    exact alike_ofExcept _
  | OidcStepUp amr bound fresh =>
    simp only [check_condition, Condition.unbounded, ← check_step_up_zero]
    exact alike_ofExcept _
  | ManagerApproval m fresh =>
    simp only [check_condition, Condition.unbounded, check_manager_approval]
    rw [show policy.unbounded.principals = policy.principals from rfl]
    rcases policy.principals.managers[m.toNat]? with _ | mgr
    · exact alike_throw _
    · exact (alike_ofExcept _).bind fun _ => alike_accept_token _ _ _ _ _ _ _
  | AttestationMatches profile =>
    simp only [check_condition, Condition.unbounded]
    rcases ctx.peer_cert_der with _ | peer
    · exact alike_throw _
    apply aloof_tee_matches.alike.bind
    intro b
    cases b
    · exact alike_throw _
    · exact alike_pure rfl

theorem alike_evaluate_conditions (conditions : List Condition) :
    Alike id (evaluate_conditions conditions policy op h approvals ctx binding)
      (evaluate_conditions (conditions.map Condition.unbounded) policy.unbounded op h approvals ctx binding) :=
  alike_now_bind (alike_forM (alike_check_condition policy op h approvals ctx binding) conditions)

theorem alike_try_rules (ref : PrincipalRef) (rules : List OperationRule) (e : Option String) :
    Alike id (try_rules policy op h approvals ctx binding ref rules e)
      (try_rules policy.unbounded op h approvals ctx binding ref (rules.map OperationRule.unbounded) e) := by
  induction rules generalizing e with
  | nil => cases e <;> exact alike_throw _
  | cons rule rest ih =>
    rw [List.map_cons]
    unfold try_rules
    change Alike id _ (if (rule.ops.contains op && rule_grants_to rule ref) = true then _ else _)
    split
    · apply (alike_evaluate_conditions policy op h approvals ctx binding rule.requires).attempt_unit.bind
      intro r
      rcases r with e' | _
      · exact ih _
      · exact alike_pure rfl
    · exact ih e

theorem alike_evaluate_op :
    Alike id (evaluate_op policy op h approvals ctx binding)
      (evaluate_op policy.unbounded op h approvals ctx binding) := by
  unfold evaluate_op
  change Alike id _ (resolve_caller policy ctx >>= _)
  apply aloof_resolve_caller.alike.bind
  intro caller
  rcases caller with _ | c
  · exact alike_throw _
  · exact alike_try_rules policy op h approvals ctx binding c.1 policy.operations none

theorem alike_load_record : Alike KeyRecord.unbounded (load_record h) (load_record h) := by
  unfold load_record
  apply (Follows.mapError _ (alike_kvGet _)).bind
  intro v
  rcases v with _ | (r | l | e | b) <;> first | exact alike_throw _ | exact alike_pure rfl

omit [Outside] in
theorem alike_audit_and_save (r : KeyRecord) (name caller : String) (d : AuditDecision) (reason : String) :
    Alike id (audit_and_save r name caller d reason) (audit_and_save r.unbounded name caller d reason) := by
  have happend : Alike KeyRecord.unbounded (append r name caller d reason)
      (append r.unbounded name caller d reason) := by
    unfold append
    apply alike_now_secs.bind
    intro now
    exact (Follows.mapError _ (alike_kvPut _ _)).bind fun _ => alike_pure rfl
  unfold audit_and_save
  apply (Follows.mapError _ happend).bind
  intro r'
  exact Follows.mapError _ (alike_kvPut (.record r'.handle) (.record r'))

omit [Outside] in
theorem alike_audit_if_possible (r : KeyRecord) (name caller : String) (d : AuditDecision) (reason : String) :
    Alike id (audit_if_possible r name caller d reason) (audit_if_possible r.unbounded name caller d reason) :=
  (alike_audit_and_save r name caller d reason).attempt_unit.bind fun _ => alike_pure rfl

omit [Outside] in
theorem alike_orDeny (r : KeyRecord) (name caller : String) {check check' : VaultM Unit}
    (hc : Alike id check check') :
    Alike id (orDeny r name caller check) (orDeny r.unbounded name caller check') := by
  unfold orDeny
  apply hc.attempt_unit.bind
  intro x
  rcases x with e | _
  · exact (alike_audit_if_possible r name caller .Denied e).bind fun _ => alike_throw _
  · exact alike_pure rfl

theorem alike_handle_export :
    Alike VaultResponse.unbounded (handle_export h approvals ctx) (handle_export h approvals ctx) := by
  unfold handle_export
  apply (alike_load_record h).bind
  intro r
  apply (alike_expired r).bind
  intro late
  apply aloof_refuse.alike.bind
  intro _
  apply aloof_refuse.alike.bind
  intro _
  apply (alike_orDeny r _ _ (alike_evaluate_op r.policy .ExportKey h approvals ctx _)).bind
  intro _
  apply (alike_audit_if_possible r _ _ _ _).bind
  intro _
  exact alike_pure rfl

theorem alike_require_op (ty : KeyType) :
    Alike KeyRecord.unbounded (require_op h op ty approvals ctx) (require_op h op ty approvals ctx) := by
  unfold require_op
  apply (alike_load_record h).bind
  intro r
  apply (alike_expired r).bind
  intro late
  apply (alike_orDeny r _ _ aloof_refuse.alike).bind
  intro _
  apply (alike_orDeny r _ _ aloof_refuse.alike).bind
  intro _
  apply (alike_orDeny r _ _ (alike_evaluate_op r.policy op h approvals ctx none)).bind
  intro _
  apply (alike_audit_and_save r _ _ _ _).bind
  intro _
  exact alike_pure rfl

def VaultRequest.uses : VaultRequest → Bool
  | .ExportKey _ _ | .Wrap _ _ _ _ _ | .Unwrap _ _ _ _ _ | .Sign _ _ _ _ | .Mac _ _ _ => true
  | _ => false

theorem alike_crypto {m : VaultM VaultResponse} {ty : KeyType} (hm : Computes m h op ty approvals ctx) :
    Alike id m m := by
  obtain ⟨g, rfl, hg, hsame⟩ := hm
  apply (alike_require_op op h approvals ctx ty).bind
  intro r
  rw [show g r.unbounded = g r from hsame r _ _]
  exact (hg r).alike

theorem alike_dispatch {request : VaultRequest} (hu : request.uses = true) :
    ∃ g : VaultResponse → VaultResponse, (∀ r, (g r).uses = r.uses) ∧
      Alike g (dispatch ctx request) (dispatch ctx request) := by
  cases request with
  | ExportKey h approvals => exact ⟨_, VaultResponse.uses_unbounded, alike_handle_export h approvals ctx⟩
  | Wrap _ _ _ _ _ => exact ⟨id, fun _ => rfl, alike_crypto _ _ _ _ computes_wrap⟩
  | Unwrap _ _ _ _ _ => exact ⟨id, fun _ => rfl, alike_crypto _ _ _ _ computes_unwrap⟩
  | Sign _ _ _ _ => exact ⟨id, fun _ => rfl, alike_crypto _ _ _ _ computes_sign⟩
  | Mac _ _ _ => exact ⟨id, fun _ => rfl, alike_crypto _ _ _ _ computes_mac⟩
  | _ => cases hu

omit [Outside] in
theorem VaultResponse.releases_of_uses {r : VaultResponse} (h : r.uses = true) : r.releases = true := by
  cases r <;> first | rfl | cases h

theorem uses_of_serve {c : Call} {kv : Table} (hr : (serve c kv).1.uses = true) : c.request.uses = true := by
  have hrel := VaultResponse.releases_of_uses hr
  obtain ⟨s, hx, -⟩ := serve_ok rfl hrel
  generalize c.request = request at hx ⊢
  cases request with
  | IssueApprovalToken h op ttl =>
    change (handle_issue_approval h op ttl c.ctx).exec _ = _ at hx
    rw [handle_issue_approval_eq] at hx
    rw [answers_bind (P := (·.uses = false)) (fun _ => answers_bind fun _ => answers_pure (by rfl)) _ _ _ hx] at hr
    cases hr
  | ExportKey _ _ | Wrap _ _ _ _ _ | Unwrap _ _ _ _ _ | Sign _ _ _ _ | Mac _ _ _ => rfl
  | _ =>
    rw [answers_dispatch c.ctx rfl _ _ _ hx] at hrel
    cases hrel

theorem uses_unbounded {c : Call} (kv : Table) (hmiss : TimeMissing c.world) :
    (serve c (unbounded kv)).1.uses = (serve c kv).1.uses := by
  rcases hu : c.request.uses with _ | _
  · have hno : ∀ kv', (serve c kv').1.uses = false := by
      intro kv'
      apply Bool.eq_false_iff.mpr
      intro hr
      rw [uses_of_serve hr] at hu
      cases hu
    rw [hno, hno]
  · obtain ⟨g, hg, halike⟩ := alike_dispatch c.ctx hu
    have hx := (halike ⟨kv, c.world⟩ hmiss).1
    change (dispatch c.ctx c.request).exec ⟨unbounded kv, c.world⟩ = _ at hx
    unfold serve
    rw [hx]
    rcases (dispatch c.ctx c.request).exec ⟨kv, c.world⟩ with ⟨e | resp, s⟩
    · rfl
    · exact hg resp

/-! ## What refuses without a clock -/

/-- Stepped up by a token with an issue time, however long ago. -/
def SteppedUpOnce (amr : List String) (bound : Bool) (h : String) (ctx : RequestContext)
    (binding : Option OpBinding) : Prop :=
  Authorisation.SteppedUp amr bound 0 0 h ctx binding ∧ ∃ claims, ctx.oidc_claims = some claims ∧ claims.iat ≠ 0

def Names (claims : ApprovalClaims) (h : String) (op : Operation) (m : UInt32) (distinct : Option String) : Prop :=
  claims.iss = ISSUER ∧ claims.handle = h ∧ claims.op = op ∧ claims.manager = m ∧
    ¬ (distinct.isSome ∧ claims.approver_sub = "") ∧ distinct ≠ some claims.approver_sub

theorem check_step_up_zero_iff {amr : List String} {bound : Bool} {fresh : UInt64} (hf : 0 < fresh) :
    check_step_up amr bound fresh 0 h ctx binding ≠ .ok () ↔ ¬ SteppedUpOnce amr bound h ctx binding := by
  rw [ne_eq, Authorisation.check_step_up_iff]
  apply not_congr
  constructor
  · rintro ⟨claims, hclaims, hamr, hfresh, hbound⟩
    obtain ⟨hiat, -⟩ := hfresh.resolve_left fun h => by simp [h] at hf
    exact ⟨⟨claims, hclaims, hamr, .inl rfl, hbound⟩, claims, hclaims, hiat⟩
  · rintro ⟨⟨claims, hclaims, hamr, -, hbound⟩, claims', hclaims', hiat⟩
    obtain rfl := Option.some.inj (hclaims.symm.trans hclaims')
    exact ⟨claims, hclaims, hamr, .inr ⟨hiat, UInt64.not_lt.mp (not_lt_age _ _)⟩, hbound⟩

/-- While the clock gives no answer, an expiry, an upper time bound, a freshness limit and an approval token
refuse iff they would without the bound. -/
theorem missing_time_refuses_iff (c : Call) (kv : Table) (hmiss : TimeMissing c.world) :
    ((serve c kv).1.uses = false ↔ (serve c (unbounded kv)).1.uses = false) ∧
    (∀ s : State, TimeMissing s.world → ∀ (rule : OperationRule) policy op h approvals ctx binding,
      ((evaluate_conditions rule.requires policy op h approvals ctx binding).exec s).1 ≠ .ok () ↔
        ((evaluate_conditions rule.unbounded.requires policy.unbounded op h approvals ctx binding).exec
          s.unbounded).1 ≠ .ok ()) ∧
    ∀ w : World, w.current_time = none →
      (∀ not_before not_after, not_after ≠ 0 →
        (check_time_window not_before not_after (w.current_time.getD 0) ≠ .ok () ↔ not_before ≠ 0)) ∧
      (∀ amr bound fresh h ctx binding, 0 < fresh →
        (check_step_up amr bound fresh (w.current_time.getD 0) h ctx binding ≠ .ok () ↔
          ¬ SteppedUpOnce amr bound h ctx binding)) ∧
      ∀ claims h op m distinct fresh,
        check_claims claims h op m distinct fresh (w.current_time.getD 0) ≠ .ok () ↔
          ¬ Names claims h op m distinct := by
  refine ⟨by rw [uses_unbounded kv hmiss], ?_, ?_⟩
  · intro s hs rule policy op h approvals ctx binding
    have hx := (alike_evaluate_conditions policy op h approvals ctx binding rule.requires s hs).1
    change _ ↔ ((evaluate_conditions (rule.requires.map Condition.unbounded) policy.unbounded op h approvals
      ctx binding).exec s.unbounded).1 ≠ .ok ()
    rw [hx, Except.map_id]
    rfl
  · intro w hw
    rw [hw]
    refine ⟨fun not_before not_after _ => ?_, fun _ _ _ h ctx binding hf => check_step_up_zero_iff h ctx binding hf,
      fun claims h op m distinct fresh => not_congr ?_⟩
    · rw [Option.getD_none, check_time_window_zero]
      unfold check_time_window
      have hpos : not_before ≠ 0 → 0 < not_before := by
        intro hne
        rw [UInt64.lt_iff_toNat_lt]
        have h0 : not_before.toNat ≠ 0 := fun h => hne (UInt64.toNat_inj.mp h)
        simpa using Nat.pos_of_ne_zero h0
      by_cases hne : not_before = 0
      · simp [hne]
      · simp [hne, hpos hne]
    · rw [Option.getD_none, check_claims_zero claims h op m distinct fresh 0]
      unfold check_claims Names
      simp only [UInt64.lt_irrefl, false_and, if_false]
      split_ifs <;> simp_all

end Model

namespace Sample

def bounded : KeyPolicy :=
  { policy [] false true with operations := [⟨[.ExportKey], [.Owner],
    [.TimeWindow 0 1, .OidcStepUp [] false 1, .ManagerApproval 0 1]⟩] }

def exportAt (time : Option UInt64) (p : KeyPolicy) : Call :=
  { call p "alice" (.ExportKey "k" [⟨"token"⟩]) with
    world := fun _ => { world p with current_time := time } }

end Sample

open Sample in
theorem missing_time_refuses_after :
    let p := { policy [] false true with operations := [⟨[.ExportKey], [.Owner], [.TimeWindow 5 9]⟩] }
    (serve (exportAt none p) (serveAll empty [create p])).1.uses = false := by
  intro p
  have hmiss : TimeMissing (exportAt none p).world := fun _ => rfl
  exact ((missing_time_refuses_iff (exportAt none p) (serveAll empty [create p]) hmiss).1).mpr (by decide +kernel)

open Sample in
/-- Expired, and no bound of its rule is met at 1000. -/
theorem expired_key_exported_without_time :
    let kv := serveAll empty [create bounded]
    (kv (.record "k")).map (fun v => match v with | .record r => r.expires_at | _ => 0) = some 61 ∧
      (serve (exportAt (some 1000) bounded) kv).1 = .Error "key has expired" ∧
      (serve (exportAt (some 60) bounded) kv).1.uses = false ∧
      (serve (exportAt none bounded) kv).1 = .KeyMaterial [1] 61 := by
  decide +kernel

end EnclaveOs.Vault
