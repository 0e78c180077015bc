import EnclaveOs.Vault.Governance

/-!
# What is released is audited

What a request releases leaves the vault after one audit write.
-/

namespace EnclaveOs.Vault

open Lib Lib.Method

/-- The answer carries something that must not leave the vault unaudited. -/
def VaultResponse.releases : VaultResponse → Bool
  | .KeyMaterial _ _ | .Signature _ _ | .MacTag _ _ | .Wrapped _ _ | .Unwrapped _ | .ApprovalTokenIssued _ => true
  | _ => false

/-- The key, and the name under which its release is audited. -/
def VaultRequest.audited : VaultRequest → Option (String × String)
  | .ExportKey h _ => some (h, "ExportKey")
  | .Wrap h _ _ _ _ => some (h, "Wrap")
  | .Unwrap h _ _ _ _ => some (h, "Unwrap")
  | .Sign h _ _ _ => some (h, "Sign")
  | .Mac h _ _ => some (h, "Mac")
  | .IssueApprovalToken h _ _ => some (h, "IssueApprovalToken")
  | _ => none

/-- The entry is stored, below the next sequence number. -/
def Logged (kv kv' : Table) (h name caller : String) : Prop :=
  ∃ r r' e, kv (.record h) = some (.record r) ∧ kv' (.record h) = some (.record r') ∧
    kv' (.audit h e.seq) = some (.entry e) ∧ e.op = name ∧ e.caller = caller ∧ e.decision = .Allowed ∧
    e.seq = r.audit_next_seq ∧ e.seq < r'.audit_next_seq

theorem lt_satSucc64 {x : UInt64} : x < satSucc64 x ↔ x.toNat + 1 < 2 ^ 64 := by
  unfold satSucc64
  split
  · rename_i hlt
    simp only [hlt, iff_true]
    rw [UInt64.lt_iff_toNat_lt, UInt64.toNat_add]
    simp only [UInt64.toNat_one]
    omega
  · rename_i hlt
    constructor
    · exact fun h => absurd h (UInt64.lt_irrefl _)
    · exact fun h => absurd h hlt

theorem logged_saved {kv kv1 kv' : Table} {r : KeyRecord} {name caller reason : String} {ts : UInt64}
    (hr : kv (.record r.handle) = some (.record r))
    (hkv : ∀ k, k ≠ .signing_key → kv' k = saved kv1 r (entryOf r name caller .Allowed reason ts) k) :
    Logged kv kv' r.handle name caller ↔ r.audit_next_seq.toNat + 1 < 2 ^ 64 := by
  have hrec : kv' (.record r.handle) = some (.record (bump r)) := by
    rw [hkv _ (by simp), saved_self]
  constructor
  · rintro ⟨r0, r1, e, h0, h1, -, -, -, -, hseq, hlt⟩
    rw [hr] at h0
    rw [hrec] at h1
    cases h0
    cases h1
    rw [hseq] at hlt
    exact lt_satSucc64.mp hlt
  · intro hlt
    refine ⟨r, bump r, entryOf r name caller .Allowed reason ts, hr, hrec, ?_, rfl, rfl, rfl, rfl,
      lt_satSucc64.mpr hlt⟩
    rw [hkv _ (by simp)]
    unfold saved logged
    rw [Function.update_of_ne (by simp)]
    exact Function.update_self _ _ _

theorem not_logged_of_kept {kv kv' : Table} {h name caller : String}
    (hkeep : kv' (.record h) = kv (.record h)) : ¬ Logged kv kv' h name caller := by
  rintro ⟨r0, r1, e, h0, h1, -, -, -, -, hseq, hlt⟩
  rw [hkeep, h0] at h1
  cases h1
  rw [hseq] at hlt
  exact absurd hlt (UInt64.lt_irrefl _)

/-! ## When the audit write succeeds -/

/-- The clock is asked first, then entry and record are written. -/
def NoFault (s : State) : Prop := (s.world 1).kv_fault = none ∧ (s.world 2).kv_fault = none

theorem exec_now_secs (s : State) : now_secs.exec s = (.ok ((s.world 0).current_time.getD 0), s.next) := rfl

section Write

variable {s : State} {r : KeyRecord} {op caller reason : String} {d : AuditDecision}

def entered (s : State) (r : KeyRecord) (op caller : String) (d : AuditDecision) (reason : String) : State :=
  { s.next.next with kv := logged s.kv r (entryOf r op caller d reason ((s.world 0).current_time.getD 0)) }

theorem exec_append_ok (h : (s.world 1).kv_fault = none) :
    (append r op caller d reason).exec s = (.ok (bump r), entered s r op caller d reason) := by
  unfold append
  rw [exec_bind_ok (exec_now_secs s)]
  dsimp only
  rw [exec_bind_ok (exec_mapError_ok.mpr (exec_kvPut_ok (s := s.next) h))]
  rfl

theorem exec_append_error {e : String} (h : (s.world 1).kv_fault = some e) :
    (append r op caller d reason).exec s = (.error ("audit put: " ++ e), s.next.next) := by
  unfold append
  rw [exec_bind_ok (exec_now_secs s)]
  dsimp only
  exact exec_bind_error (exec_mapError_error.mpr ⟨e, exec_kvPut_error (s := s.next) h, rfl⟩)

theorem audit_and_save_ok_iff (r : KeyRecord) (op caller : String) (d : AuditDecision) (reason : String) :
    ((audit_and_save r op caller d reason).exec s).1 = .ok () ↔ NoFault s := by
  unfold audit_and_save NoFault
  rcases h1 : (s.world 1).kv_fault with _ | e
  · rw [exec_bind_ok (exec_mapError_ok.mpr (exec_append_ok h1))]
    rcases h2 : (s.world 2).kv_fault with _ | e
    · rw [exec_mapError_ok.mpr (exec_kvPut_ok (s := entered s r op caller d reason) h2)]
      simp
    · rw [exec_mapError_error.mpr ⟨e, exec_kvPut_error (s := entered s r op caller d reason) h2, rfl⟩]
      simp
  · rw [exec_bind_error (exec_mapError_error.mpr ⟨_, exec_append_error h1, rfl⟩)]
    simp

end Write

section Runs

variable [Outside] {c : Call} {kv : Table} {h : String} {r : KeyRecord} {s s' : State} {ctx : RequestContext}
  {approvals : List ApprovalToken} {resp : VaultResponse} {op : Operation}

theorem load_record_ok (hx : (load_record h).exec s = (.ok r, s')) :
    s.kv (.record h) = some (.record r) ∧ s' = s.next := by
  have hwp : wp (load_record h)
      (fun res s' => ∀ r, res = .ok r → s.kv (.record h) = some (.record r) ∧ s' = s.next) s := by
    apply wp_load_record
    · exact fun e r he => by cases he
    intro r hr r' he
    cases he
    exact ⟨hr, rfl⟩
  unfold wp at hwp
  rw [hx] at hwp
  exact hwp r rfl

omit [Outside] in
theorem orDeny_ok {α : Type} {op caller : String} {check : VaultM α} {a : α}
    (hx : (orDeny r op caller check).exec s = (.ok a, s')) : check.exec s = (.ok a, s') := by
  unfold orDeny at hx
  obtain ⟨res, s1, h1, h2⟩ := exec_bind_eq_ok.mp hx
  have hcheck : check.exec s = (res, s1) := by
    cases h1
    rfl
  rcases res with e | b
  · unfold deny at h2
    obtain ⟨_, _, _, h3⟩ := exec_bind_eq_ok.mp h2
    cases h3
  · cases h2
    exact hcheck

def export_checks (handle : String) (approvals : List ApprovalToken) (ctx : RequestContext) : VaultM KeyRecord := do
  let record ← load_record handle
  let late ← expired record
  refuse late "key has expired"
  refuse (!record.exportable) "key is not exportable"
  orDeny record "ExportKey" (caller_str ctx)
    (evaluate_op record.policy .ExportKey handle approvals ctx (some ⟨"", record.policy_version⟩))
  pure record

theorem handle_export_eq (handle : String) (approvals : List ApprovalToken) (ctx : RequestContext) :
    handle_export handle approvals ctx = (do
      let record ← export_checks handle approvals ctx
      audit_if_possible record "ExportKey" (caller_str ctx) .Allowed ""
      pure (.KeyMaterial record.material record.expires_at)) := by
  simp only [handle_export, export_checks, bind_assoc, pure_bind]

theorem export_checks_ok (hx : (export_checks h approvals ctx).exec s = (.ok r, s')) :
    s.kv (.record h) = some (.record r) ∧ Spares s s' := by
  unfold export_checks at hx
  obtain ⟨r0, s1, h1, hx⟩ := exec_bind_eq_ok.mp hx
  obtain ⟨hr, rfl⟩ := load_record_ok h1
  obtain ⟨late, s2, h2, hx⟩ := exec_bind_eq_ok.mp hx
  obtain ⟨_, s3, h3, hx⟩ := exec_bind_eq_ok.mp hx
  obtain ⟨_, s4, h4, hx⟩ := exec_bind_eq_ok.mp hx
  obtain ⟨_, s5, h5, hx⟩ := exec_bind_eq_ok.mp hx
  cases hx
  obtain rfl : s2 = s.next.next := (congrArg Prod.snd h2).symm
  obtain ⟨-, rfl⟩ := refuse_ok h3
  obtain ⟨-, rfl⟩ := refuse_ok h4
  exact ⟨hr, ((Spares.next s).trans (Spares.next _)).trans (calm_evaluate_op.of_exec (orDeny_ok h5))⟩

def issue_checks (handle : String) (op : Operation) (ttl_seconds : UInt64) (ctx : RequestContext) :
    VaultM (KeyRecord × ApprovalToken) := do
  let record ← load_record handle
  match ctx.oidc_claims with
  | none => do
    audit_if_possible record "IssueApprovalToken" "anonymous" .Denied "no OIDC claims"
    throw "OIDC authentication required to issue approval tokens"
  | some claims =>
    match record.policy.principals.managers.findIdx? (oidc_matches · claims) with
    | none =>
      deny record "IssueApprovalToken" ("oidc:" ++ claims.sub) "caller is not an OIDC manager of this key"
    | some i => do
      let now ← now_secs
      let token ← issue_approval_token handle op (UInt32.ofNat i) claims.sub now (approval_ttl ttl_seconds)
      pure (record, token)

def issue_reason (op : Operation) (ttl_seconds : UInt64) : String :=
  "op=" ++ op.debug ++ " ttl=" ++ toString (approval_ttl ttl_seconds).toNat ++ "s"

theorem handle_issue_approval_eq (handle : String) (op : Operation) (ttl_seconds : UInt64)
    (ctx : RequestContext) :
    handle_issue_approval handle op ttl_seconds ctx = (do
      let (record, token) ← issue_checks handle op ttl_seconds ctx
      audit_if_possible record "IssueApprovalToken" (caller_str ctx) .Allowed (issue_reason op ttl_seconds)
      pure (.ApprovalTokenIssued token)) := by
  unfold handle_issue_approval issue_checks
  rw [bind_assoc]
  congr 1
  funext record
  rcases hc : ctx.oidc_claims with _ | claims
  · rfl
  dsimp only
  rcases record.policy.principals.managers.findIdx? (oidc_matches · claims) with _ | i
  · simp only [deny, bind_assoc]
    rfl
  · simp only [bind_assoc, pure_bind, caller_str, hc, issue_reason]

theorem issue_approval_token_ok {manager : UInt32} {approver_sub : String} {iat ttl : UInt64} {token : ApprovalToken}
    (hx : (issue_approval_token h op manager approver_sub iat ttl).exec s = (.ok token, s')) : ∃ key entropy,
    Outside.encode_jwt ⟨ISSUER, h, op, manager, approver_sub, iat, satAdd64 iat ttl⟩ key entropy = .ok token.jwt := by
  unfold issue_approval_token at hx
  obtain ⟨kp, s1, -, hx⟩ := exec_bind_eq_ok.mp hx
  obtain ⟨w, s2, -, hx⟩ := exec_bind_eq_ok.mp hx
  rcases hw : w.entropy with _ | entropy
  · rw [hw] at hx
    cases hx
  rw [hw] at hx
  obtain ⟨jwt, s3, hjwt, hx⟩ := exec_bind_eq_ok.mp hx
  cases hx
  exact ⟨kp.1, entropy, (ofExcept_ok hjwt).1⟩

/-- What is signed: the first manager that the bearer matches, and the bearer. -/
theorem issue_checks_ok {ttl : UInt64} {token : ApprovalToken}
    (hx : (issue_checks h op ttl ctx).exec s = (.ok (r, token), s')) :
    s.kv (.record h) = some (.record r) ∧ Spares s s' ∧ ∃ who i iat exp key entropy, ctx.oidc_claims = some who ∧
      r.policy.principals.managers.findIdx? (oidc_matches · who) = some i ∧
      Outside.encode_jwt ⟨ISSUER, h, op, UInt32.ofNat i, who.sub, iat, exp⟩ key entropy = .ok token.jwt := by
  unfold issue_checks at hx
  obtain ⟨r0, s1, h1, hx⟩ := exec_bind_eq_ok.mp hx
  obtain ⟨hr, rfl⟩ := load_record_ok h1
  rcases hc : ctx.oidc_claims with _ | claims
  · rw [hc] at hx
    obtain ⟨_, _, _, h3⟩ := exec_bind_eq_ok.mp hx
    cases h3
  rw [hc] at hx
  dsimp only at hx
  rcases hi : r0.policy.principals.managers.findIdx? (oidc_matches · claims) with _ | i
  · rw [hi] at hx
    unfold deny at hx
    obtain ⟨_, _, _, h3⟩ := exec_bind_eq_ok.mp hx
    cases h3
  rw [hi] at hx
  obtain ⟨now, s2, h2, hx⟩ := exec_bind_eq_ok.mp hx
  obtain ⟨token', s3, h3, hx⟩ := exec_bind_eq_ok.mp hx
  cases hx
  obtain rfl : s2 = s.next.next := (congrArg Prod.snd h2).symm
  have hcalm := calm_issue_approval_token.of_exec h3
  obtain ⟨key, entropy, hjwt⟩ := issue_approval_token_ok h3
  exact ⟨hr, ((Spares.next s).trans (Spares.next _)).trans hcalm, claims, i, now, _, key, entropy, rfl, hi, hjwt⟩

section Answers

omit [Outside]

def Answers (P : VaultResponse → Prop) (m : VaultM VaultResponse) : Prop :=
  ∀ s resp s', m.exec s = (.ok resp, s') → P resp

variable {P : VaultResponse → Prop}

theorem answers_pure (h : P resp) : Answers P (pure resp) := by
  intro s resp' s' hx
  cases hx
  exact h

theorem answers_throw (e : String) : Answers P (throw e) := by
  intro s resp s' hx
  cases hx

theorem answers_bind {α : Type} {x : VaultM α} {f : α → VaultM VaultResponse}
    (hf : ∀ a, Answers P (f a)) : Answers P (x >>= f) := by
  intro s resp s' hx
  obtain ⟨a, s1, _, h2⟩ := exec_bind_eq_ok.mp hx
  exact hf a s1 resp s' h2

theorem answers_deny (op caller e : String) : Answers P (deny r op caller e) := answers_bind fun _ => answers_throw _

end Answers

theorem answers_dispatch (ctx : RequestContext) {request : VaultRequest} (hn : request.audited = none) :
    Answers (·.releases = false) (dispatch ctx request) := by
  cases request with
  | DeleteKey _ _ =>
    apply answers_bind
    intro r
    apply answers_bind
    intro _
    split
    · exact answers_throw _
    · exact answers_bind fun _ => answers_bind fun _ => answers_bind fun _ => answers_pure rfl
  | ListKeys =>
    change Answers _ (handle_list ctx)
    unfold handle_list
    split
    · exact answers_throw _
    · exact answers_bind fun _ => answers_bind fun _ => answers_pure rfl
  | StagePendingProfile _ _ _ =>
    apply answers_bind
    intro r
    apply answers_bind
    intro stager
    dsimp only
    split
    · exact answers_pure rfl
    split
    · exact answers_pure rfl
    split
    · exact answers_bind fun _ => answers_pure rfl
    · exact answers_bind fun _ => answers_bind fun _ => answers_bind fun _ => answers_pure rfl
  | PromotePendingProfile _ _ _ =>
    apply answers_bind
    intro r
    apply answers_bind
    intro _
    split
    · exact answers_deny _ _ _
    split
    · exact answers_deny _ _ _
    · exact answers_bind fun _ => answers_pure rfl
  | ExportKey _ _ | Wrap _ _ _ _ _ | Unwrap _ _ _ _ _ | Sign _ _ _ _ | Mac _ _ _ | IssueApprovalToken _ _ _ =>
    cases hn
  | _ =>
    -- the other handlers are sequences of calls that end in their answer
    repeat refine answers_bind fun _ => ?_
    exact answers_pure rfl

/-! ## The exact condition -/

/-- There is room for one more audit entry of the key. -/
def HasNumber (kv : Table) (h : String) : Prop :=
  ∃ r, kv (.record h) = some (.record r) ∧ r.audit_next_seq.toNat + 1 < 2 ^ 64

/-- When the release of a request shows up in the audit log. -/
def AuditPersists (c : Call) (kv : Table) : Prop :=
  match c.request with
  | .ExportKey h approvals =>
    HasNumber kv h ∧ NoFault ((export_checks h approvals c.ctx).exec (start c kv)).2
  | .IssueApprovalToken h op ttl =>
    HasNumber kv h ∧ NoFault ((issue_checks h op ttl c.ctx).exec (start c kv)).2
  | .Wrap h _ _ _ _ | .Unwrap h _ _ _ _ | .Sign h _ _ _ | .Mac h _ _ => HasNumber kv h
  | _ => True

omit [Outside] in
theorem hasNumber_iff (hr : kv (.record h) = some (.record r)) :
    HasNumber kv h ↔ r.audit_next_seq.toNat + 1 < 2 ^ 64 := by
  constructor
  · rintro ⟨r', hr', hlt⟩
    rw [hr] at hr'
    cases hr'
    exact hlt
  · exact fun hlt => ⟨r, hr, hlt⟩

omit [Outside] in
theorem logged_iff_noFault {name reason : String} (hk : Keyed kv)
    (hr : kv (.record h) = some (.record r)) (hs : Spares (start c kv) s)
    (hx : (audit_if_possible r name (caller_str ctx) .Allowed reason).exec s = (.ok (), s')) :
    Logged kv s'.kv h name (caller_str ctx) ↔ HasNumber kv h ∧ NoFault s := by
  obtain rfl := hk h r hr
  rw [hasNumber_iff hr, ← audit_and_save_ok_iff r name (caller_str ctx) .Allowed reason]
  obtain ⟨res, s1, hsave, hs'⟩ := exec_bind_eq_ok.mp hx
  cases hs'
  replace hsave : (audit_and_save r name (caller_str ctx) .Allowed reason).exec s = (res, s') := by
    cases hsave
    rfl
  have ha := audited_of_exec hsave
  rw [hsave]
  have hrec : s.kv (.record r.handle) = kv (.record r.handle) := hs.table _ (by simp)
  generalize s'.kv = kv' at ha
  cases ha with
  | nothing e => simpa using not_logged_of_kept hrec
  | entry e ts =>
    have hkeep : logged s.kv r (entryOf r name (caller_str ctx) .Allowed reason ts) (.record r.handle) =
        kv (.record r.handle) := by rw [logged_record, hrec]
    simpa using not_logged_of_kept hkeep
  | both ts => simpa using logged_saved hr fun k _ => rfl

theorem logged_of_computes {m : VaultM VaultResponse} {ty : KeyType} (hk : Keyed kv)
    (hm : Computes m h op ty approvals ctx) (hx : m.exec (start c kv) = (.ok resp, s')) :
    Logged kv s'.kv h op.debug (caller_str ctx) ↔ HasNumber kv h := by
  obtain ⟨g, rfl, hg, -⟩ := hm
  obtain ⟨r, s1, hop, hrest⟩ := exec_bind_eq_ok.mp hx
  unfold require_op at hop
  obtain ⟨_, _, h1, hop⟩ := exec_bind_eq_ok.mp hop
  obtain ⟨hr, rfl⟩ := load_record_ok h1
  obtain ⟨late, s2, h2, hop⟩ := exec_bind_eq_ok.mp hop
  obtain ⟨_, s3, h3, hop⟩ := exec_bind_eq_ok.mp hop
  obtain ⟨_, s4, h4, hop⟩ := exec_bind_eq_ok.mp hop
  obtain ⟨_, s5, h5, hop⟩ := exec_bind_eq_ok.mp hop
  obtain ⟨_, s6, h6, hop⟩ := exec_bind_eq_ok.mp hop
  cases hop
  have ha := audited_of_exec h6
  generalize hkv : s1.kv = kv1 at ha
  cases ha with
  | both ts =>
    change kv (.record h) = some (.record r) at hr
    obtain rfl := hk h r hr
    rw [hasNumber_iff hr]
    apply logged_saved hr
    intro k hne
    rw [((hg r).calm.of_exec hrest).table k hne, hkv]

theorem serve_ok (hrel : (serve c kv).1 = resp) (hr : resp.releases = true) :
    ∃ s', (dispatch c.ctx c.request).exec (start c kv) = (.ok resp, s') ∧ (serve c kv).2 = s'.kv := by
  unfold serve at hrel ⊢
  unfold start
  rcases hx : (dispatch c.ctx c.request).exec ⟨kv, c.world⟩ with ⟨_ | resp', s'⟩
  · rw [hx] at hrel
    subst hrel
    cases hr
  · rw [hx] at hrel
    subst hrel
    exact ⟨s', rfl, rfl⟩

theorem release_cases (hk : Keyed kv) (hrel : (serve c kv).1.releases = true) :
    ∃ h name, c.request.audited = some (h, name) ∧
      (Logged kv (serve c kv).2 h name (caller_str c.ctx) ↔ AuditPersists c kv) := by
  obtain ⟨s', hx, hkv⟩ := serve_ok rfl hrel
  rw [hkv]
  unfold AuditPersists
  generalize c.request = request at hx ⊢
  cases request with
  | ExportKey h approvals =>
    refine ⟨h, _, rfl, ?_⟩
    change (handle_export h approvals c.ctx).exec _ = _ at hx
    rw [handle_export_eq] at hx
    obtain ⟨r, s1, h1, hx⟩ := exec_bind_eq_ok.mp hx
    obtain ⟨_, s2, h2, hx⟩ := exec_bind_eq_ok.mp hx
    obtain ⟨hr, hsp⟩ := export_checks_ok h1
    obtain rfl : s2 = s' := congrArg Prod.snd hx
    dsimp only
    rw [h1]
    exact logged_iff_noFault hk hr hsp h2
  | IssueApprovalToken h op ttl =>
    refine ⟨h, _, rfl, ?_⟩
    change (handle_issue_approval h op ttl c.ctx).exec _ = _ at hx
    rw [handle_issue_approval_eq] at hx
    obtain ⟨⟨r, token⟩, s1, h1, hx⟩ := exec_bind_eq_ok.mp hx
    obtain ⟨_, s2, h2, hx⟩ := exec_bind_eq_ok.mp hx
    obtain ⟨hr, hsp, -⟩ := issue_checks_ok h1
    obtain rfl : s2 = s' := congrArg Prod.snd hx
    dsimp only
    rw [h1]
    exact logged_iff_noFault hk hr hsp h2
  | Wrap h _ _ _ _ => exact ⟨h, _, rfl, logged_of_computes hk computes_wrap hx⟩
  | Unwrap h _ _ _ _ => exact ⟨h, _, rfl, logged_of_computes hk computes_unwrap hx⟩
  | Sign h _ _ _ => exact ⟨h, _, rfl, logged_of_computes hk computes_sign hx⟩
  | Mac h _ _ => exact ⟨h, _, rfl, logged_of_computes hk computes_mac hx⟩
  | _ =>
    rw [answers_dispatch c.ctx rfl _ _ _ hx] at hrel
    cases hrel

/-- A release is audited exactly when a sequence number is left and, for exports and approval tokens, the audit
write goes through. -/
theorem release_logged_iff (past : List Call) (c : Call)
    (hrel : (serve c (serveAll empty past)).1.releases = true) :
    ∃ h name, c.request.audited = some (h, name) ∧
      (Logged (serveAll empty past) (serve c (serveAll empty past)).2 h name (caller_str c.ctx) ↔
        AuditPersists c (serveAll empty past)) :=
  release_cases (keyed_empty.serveAll past) hrel

end Runs

open Sample in
theorem export_logged :
    let p := policy [.Owner, .Mutability] false false
    let c := call p "alice" (.ExportKey "k" [])
    (serve c (serveAll empty [create p])).1.releases = true ∧
      ∃ h name, c.request.audited = some (h, name) ∧
        (Logged (serveAll empty [create p]) (serve c (serveAll empty [create p])).2 h name (caller_str c.ctx) ↔
          AuditPersists c (serveAll empty [create p])) := by
  intro p c
  have hrel : (serve c (serveAll empty [create p])).1.releases = true := by decide +kernel
  exact ⟨hrel, release_logged_iff [create p] c hrel⟩

open Sample in
/-- Every KV operation but the first fails: the log holds no export. -/
theorem export_released_unaudited :
    let p := policy [.Owner, .Mutability] false false
    let c : Call := { call p "alice" (.ExportKey "k" []) with
      world := fun n => if n = 0 then world p else { world p with kv_fault := some "disk full" } }
    (serve c (serveAll empty [create p])).1 = .KeyMaterial [1] 61 ∧
      (serve c (serveAll empty [create p])).2 (.record "k") = some (.record (record p)) ∧
      ∀ seq e, seq < (record p).audit_next_seq →
        (serve c (serveAll empty [create p])).2 (.audit "k" seq) = some (.entry e) → e.op ≠ "ExportKey" := by
  intro p c
  refine ⟨by decide +kernel, by decide +kernel, ?_⟩
  intro seq e hlt he
  have hzero : seq = 0 := by
    have hone : seq < 1 := hlt
    rw [UInt64.lt_iff_toNat_lt] at hone
    apply UInt64.toNat_inj.mp
    simpa using hone
  subst hzero
  have hentry : (serve c (serveAll empty [create p])).2 (.audit "k" 0) =
      some (.entry ⟨0, 1, "CreateKey", "oidc:alice", .Allowed, "owner=alice"⟩) := by decide +kernel
  rw [hentry] at he
  cases he
  decide

end EnclaveOs.Vault
