import EnclaveOs.Vault.Handlers

/-! # What a request can do to the store -/

open Function (update update_of_ne)

namespace EnclaveOs.Vault

open Lib Lib.Method

/-! ## Calls that spare the table -/

/-- Nothing but the signing key may differ. -/
structure Spares (s s' : State) : Prop where
  table : ∀ k, k ≠ .signing_key → s'.kv k = s.kv k
  world : ∃ n, ∀ i, s'.world i = s.world (i + n)

theorem Spares.refl (s : State) : Spares s s := ⟨fun _ _ => rfl, 0, fun _ => rfl⟩

theorem Spares.trans {a b c : State} (h : Spares a b) (h' : Spares b c) : Spares a c := by
  obtain ⟨n, hn⟩ := h.world
  obtain ⟨m, hm⟩ := h'.world
  refine ⟨fun k hk => (h'.table k hk).trans (h.table k hk), m + n, ?_⟩
  intro i
  rw [hm, hn, Nat.add_assoc]

def State.next (s : State) : State := { s with world := fun n => s.world (n + 1) }

theorem Spares.next (s : State) : Spares s s.next := ⟨fun _ _ => rfl, 1, fun _ => rfl⟩

def Calm {α : Type} (m : VaultM α) : Prop := Keeps Spares m

section Calm

variable {α β : Type}

theorem calm_pure {a : α} : Calm (pure a : VaultM α) := Keeps.pure Spares.refl a

theorem calm_throw {e : String} : Calm (throw e : VaultM α) := Keeps.throw Spares.refl e

theorem calm_ofExcept {r : Except String α} : Calm (Method.ofExcept r : VaultM α) := fun s => Spares.refl s

theorem Calm.bind {x : VaultM α} {f : α → VaultM β} (hx : Calm x) (hf : ∀ a, Calm (f a)) : Calm (x >>= f) :=
  Keeps.bind (fun _ _ _ h h' => h.trans h') hx hf

theorem Calm.attempt {m : VaultM α} (h : Calm m) : Calm (attempt m : VaultM (Except String α)) := h

theorem Calm.mapError {m : VaultM α} (f : String → String) (h : Calm m) : Calm (mapError f m) := h

theorem calm_ask : Calm ask := Spares.next

theorem calm_kvOp {f : Table → α × Table} (h : ∀ kv k, k ≠ .signing_key → (f kv).2 k = kv k) : Calm (kvOp f) := by
  unfold kvOp
  apply calm_ask.bind
  intro w
  rcases w.kv_fault with _ | e
  · exact fun s => ⟨fun k hk => h s.kv k hk, 0, fun _ => rfl⟩
  · exact calm_throw

theorem calm_kvGet {key : KvKey} : Calm (kvGet key) := calm_kvOp fun _ _ _ => rfl

theorem calm_put_signing_key {b : Stored} : Calm (kvPut .signing_key b) :=
  calm_kvOp fun kv _ hk => update_of_ne hk _ kv

theorem calm_now_secs : Calm now_secs := calm_ask.bind fun _ => calm_pure

theorem calm_forM {f : α → VaultM Unit} (hf : ∀ a, Calm (f a)) {l : List α} : Calm (l.forM f) := by
  induction l with
  | nil => exact calm_pure
  | cons a l ih => exact (hf a).bind fun _ => ih

theorem calm_expired {record : KeyRecord} : Calm (expired record) := calm_now_secs.bind fun _ => calm_pure

variable [Outside] {handle : String} {op : Operation} {manager : UInt32} {distinct_from : Option String}
  {fresh now : UInt64} {policy : KeyPolicy} {approvals : List ApprovalToken} {ctx : RequestContext}
  {binding : Option OpBinding} {record : KeyRecord} {profile : AttestationProfile} {der : Bytes}
  {evidence : Option Bytes}

theorem calm_load_record : Calm (load_record handle) := by
  unfold load_record
  apply (calm_kvGet.mapError _).bind
  intro v
  split
  · exact calm_throw
  · exact calm_pure
  · exact calm_throw

theorem calm_signing_pkcs8 : Calm signing_pkcs8 := by
  unfold signing_pkcs8
  apply (calm_kvGet.mapError _).bind
  intro v
  split
  · exact calm_pure
  · exact calm_throw
  · unfold init_signing_key
    apply calm_ask.bind
    intro w
    split
    · exact calm_throw
    · exact (calm_put_signing_key.mapError _).bind fun _ => calm_pure

/-- Calls that use the world and, of the table, at most the signing key. -/
inductive Aloof : {α : Type} → VaultM α → Prop where
  | pure {α : Type} (a : α) : Aloof (pure a : VaultM α)
  | throw {α : Type} (e : String) : Aloof (throw e : VaultM α)
  | ofExcept {α : Type} (r : Except String α) : Aloof (Method.ofExcept r : VaultM α)
  | ask : Aloof ask
  | signing : Aloof signing_pkcs8
  | bind {α β : Type} {x : VaultM α} {f : α → VaultM β} (hx : Aloof x) (hf : ∀ a, Aloof (f a)) : Aloof (x >>= f)

theorem Aloof.calm {m : VaultM α} (h : Aloof m) : Calm m := by
  induction h with
  | pure a => exact calm_pure
  | throw e => exact calm_throw
  | ofExcept r => exact calm_ofExcept
  | ask => exact calm_ask
  | signing => exact calm_signing_pkcs8
  | bind _ _ hx hf => exact hx.bind hf

theorem aloof_refuse {c : Bool} {e : String} : Aloof (refuse c e) := by
  unfold refuse
  split
  · exact .throw e
  · exact .pure ()

theorem calm_refuse {c : Bool} {e : String} : Calm (refuse c e) := aloof_refuse.calm

theorem aloof_load_or_init_keypair : Aloof load_or_init_keypair := by
  unfold load_or_init_keypair
  apply Aloof.signing.bind
  intro b
  split
  · exact .throw _
  · exact .pure _

theorem calm_issue_approval_token {sub : String} {iat ttl : UInt64} :
    Calm (issue_approval_token handle op manager sub iat ttl) := by
  unfold issue_approval_token
  apply aloof_load_or_init_keypair.calm.bind
  intro kp
  apply calm_ask.bind
  intro w
  split
  · exact calm_throw
  · exact calm_ofExcept.bind fun _ => calm_pure

theorem aloof_verify_approval_token {token : ApprovalToken} :
    Aloof (verify_approval_token token handle op manager distinct_from fresh now) := by
  unfold verify_approval_token
  apply aloof_load_or_init_keypair.bind
  intro kp
  apply (Aloof.ofExcept _).bind
  intro _
  exact (Aloof.ofExcept _).bind fun _ => .ofExcept _

theorem calm_accept_token {tokens : List ApprovalToken} {e : Option String} :
    Calm (accept_token handle op manager distinct_from fresh now tokens e) := by
  induction tokens generalizing e with
  | nil => cases e <;> exact calm_throw
  | cons token rest ih =>
    unfold accept_token
    apply aloof_verify_approval_token.calm.attempt.bind
    intro r
    split
    · exact calm_pure
    · exact ih

theorem aloof_tee_matches : Aloof (tee_matches profile der evidence) := by
  unfold tee_matches
  split
  · exact .pure _
  split
  · exact .pure _
  dsimp only
  split
  · exact .pure _
  apply Aloof.ask.bind
  intro w
  split <;> exact .pure _

theorem aloof_find_tee {i : Nat} {ps : List Principal} : Aloof (find_tee der evidence i ps) := by
  induction ps generalizing i with
  | nil => exact .pure _
  | cons p ps ih =>
    cases p with
    | Tee profile =>
      apply aloof_tee_matches.bind
      intro b
      split
      · exact .pure _
      · exact ih
    | Oidc _ _ _ | Fido2 _ _ => exact ih

theorem aloof_resolve_caller : Aloof (resolve_caller policy ctx) := by
  unfold resolve_caller
  split
  · exact .pure _
  split
  · exact .pure _
  apply aloof_find_tee.bind
  intro r
  split <;> exact .pure _

theorem calm_check_condition {c : Condition} :
    Calm (check_condition policy op handle approvals ctx binding now c) := by
  cases c with
  | TimeWindow _ _ | OidcStepUp _ _ _ => exact calm_ofExcept
  | AttestationMatches profile =>
    simp only [check_condition]
    split
    · exact calm_throw
    apply aloof_tee_matches.calm.bind
    intro b
    split
    · exact calm_pure
    · exact calm_throw
  | ManagerApproval manager fresh =>
    simp only [check_condition, check_manager_approval]
    split
    · exact calm_throw
    · exact calm_ofExcept.bind fun _ => calm_accept_token

theorem calm_evaluate_conditions {conditions : List Condition} :
    Calm (evaluate_conditions conditions policy op handle approvals ctx binding) :=
  calm_now_secs.bind fun _ => calm_forM fun _ => calm_check_condition

theorem calm_try_rules {caller : PrincipalRef} {rules : List OperationRule} {e : Option String} :
    Calm (try_rules policy op handle approvals ctx binding caller rules e) := by
  induction rules generalizing e with
  | nil => cases e <;> exact calm_throw
  | cons rule rest ih =>
    unfold try_rules
    split
    · apply calm_evaluate_conditions.attempt.bind
      intro r
      split
      · exact calm_pure
      · exact ih
    · exact ih

theorem calm_evaluate_op : Calm (evaluate_op policy op handle approvals ctx binding) := by
  unfold evaluate_op
  apply aloof_resolve_caller.calm.bind
  intro r
  split
  · exact calm_throw
  · exact calm_try_rules

theorem calm_require_role : Calm (require_role policy ctx) := by
  unfold require_role
  apply aloof_resolve_caller.calm.bind
  intro r
  split
  · exact calm_pure
  · exact calm_throw

theorem calm_check_pending_mutability : Calm (check_pending_mutability record ctx) :=
  calm_require_role.bind fun _ => calm_ofExcept.bind fun _ => calm_pure

theorem calm_check_stage_authority : Calm (check_stage_authority record ctx) := by
  unfold check_stage_authority
  apply aloof_resolve_caller.calm.bind
  intro r
  split
  · exact calm_check_pending_mutability.bind fun _ => calm_pure
  · exact calm_refuse.bind fun _ => calm_refuse.bind fun _ => calm_pure

end Calm

def bump (r : KeyRecord) : KeyRecord := { r with audit_next_seq := satSucc64 r.audit_next_seq }

def entryOf (r : KeyRecord) (op caller : String) (d : AuditDecision) (reason : String) (ts : UInt64) :
    AuditEntry := ⟨r.audit_next_seq, ts, op, caller, d, reason⟩

section

variable (kv : Table) (r : KeyRecord) (e : AuditEntry)

def logged : Table := update kv (.audit r.handle r.audit_next_seq) (some (.entry e))

def saved : Table := update (logged kv r e) (.record r.handle) (some (.record (bump r)))

@[simp] theorem logged_record (h : String) : logged kv r e (.record h) = kv (.record h) := update_of_ne (by simp) _ _

@[simp] theorem saved_self : saved kv r e (.record r.handle) = some (.record (bump r)) := Function.update_self _ _ _

theorem saved_other {h : String} (hh : h ≠ r.handle) : saved kv r e (.record h) = kv (.record h) := by
  unfold saved
  rw [update_of_ne (by simpa using hh), logged_record]

end

/-! ## Rules for single calls -/

section Rules

variable {α : Type} {s : State}

theorem exec_ask (s : State) : ask.exec s = (.ok (s.world 0), s.next) := rfl

variable {f : Table → α × Table} {e : String} {key : KvKey} {v : Stored}

theorem exec_kvOp_ok (h : (s.world 0).kv_fault = none) :
    (kvOp f).exec s = (.ok (f s.kv).1, { s.next with kv := (f s.kv).2 }) := by
  unfold kvOp
  rw [exec_bind_ok (exec_ask s), h]
  rfl

theorem exec_kvOp_error (h : (s.world 0).kv_fault = some e) : (kvOp f).exec s = (.error e, s.next) := by
  unfold kvOp
  rw [exec_bind_ok (exec_ask s), h]
  rfl

theorem exec_kvGet_ok (h : (s.world 0).kv_fault = none) :
    (kvGet key).exec s = (.ok (s.kv key), s.next) := exec_kvOp_ok h

theorem exec_kvGet_error (h : (s.world 0).kv_fault = some e) :
    (kvGet key).exec s = (.error e, s.next) := exec_kvOp_error h

theorem exec_kvPut_ok (h : (s.world 0).kv_fault = none) :
    (kvPut key v).exec s = (.ok (), { s.next with kv := update s.kv key (some v) }) := exec_kvOp_ok h

theorem exec_kvPut_error (h : (s.world 0).kv_fault = some e) :
    (kvPut key v).exec s = (.error e, s.next) := exec_kvOp_error h

theorem wp_kvOp {Q : Except String α → State → Prop}
    (herr : ∀ e, Q (.error e) s.next) (hok : Q (.ok (f s.kv).1) { s.next with kv := (f s.kv).2 }) :
    wp (kvOp f) Q s := by
  unfold kvOp wp
  rw [exec_bind_ok (exec_ask s)]
  rcases (s.world 0).kv_fault with _ | e
  · exact hok
  · exact herr e

theorem wp_kvGet {Q : Except String (Option Stored) → State → Prop}
    (herr : ∀ e, Q (.error e) s.next) (hok : Q (.ok (s.kv key)) s.next) : wp (kvGet key) Q s :=
  wp_kvOp herr hok

theorem wp_kvPut {Q : Except String Unit → State → Prop} (herr : ∀ e, Q (.error e) s.next)
    (hok : Q (.ok ()) { s.next with kv := update s.kv key (some v) }) : wp (kvPut key v) Q s :=
  wp_kvOp herr hok

theorem wp_kvDelete {Q : Except String Bool → State → Prop} (herr : ∀ e, Q (.error e) s.next)
    (hok : Q (.ok (s.kv key).isSome) { s.next with kv := update s.kv key none }) :
    wp (kvDelete key) Q s :=
  wp_kvOp herr hok

theorem wp_now_secs {Q : Except String UInt64 → State → Prop} (h : ∀ ts, Q (.ok ts) s.next) : wp now_secs Q s := h _

theorem wp_calm {m : VaultM α} (hm : Calm m) {Q : Except String α → State → Prop}
    (h : ∀ r s', m.exec s = (r, s') → Spares s s' → Q r s') : wp m Q s := h _ _ rfl (hm s)

theorem wp_load_record [Outside] {handle : String} {Q : Except String KeyRecord → State → Prop}
    (herr : ∀ e, Q (.error e) s.next)
    (hok : ∀ r, s.kv (.record handle) = some (.record r) → Q (.ok r) s.next) : wp (load_record handle) Q s := by
  unfold load_record
  rw [wp_bind, wp_mapError]
  apply wp_kvGet
  · exact fun e => herr _
  dsimp only [Except.mapError]
  split
  · exact herr _
  · exact hok _ (by assumption)
  · exact herr _

end Rules

/-- Nothing written, the entry alone, or entry and record. -/
inductive Audited (kv : Table) (r : KeyRecord) (op caller : String) (d : AuditDecision) (reason : String) :
    Except String Unit → Table → Prop where
  | nothing (e : String) : Audited kv r op caller d reason (.error e) kv
  | entry (e : String) (ts : UInt64) :
      Audited kv r op caller d reason (.error e) (logged kv r (entryOf r op caller d reason ts))
  | both (ts : UInt64) : Audited kv r op caller d reason (.ok ()) (saved kv r (entryOf r op caller d reason ts))

variable {s : State} {r : KeyRecord} {op caller reason : String} {d : AuditDecision}

theorem wp_audit_and_save {Q : Except String Unit → State → Prop}
    (h : ∀ res s', Audited s.kv r op caller d reason res s'.kv → Q res s') :
    wp (audit_and_save r op caller d reason) Q s := by
  unfold audit_and_save append
  rw [wp_bind, wp_mapError, wp_bind]
  apply wp_now_secs
  intro ts
  dsimp only
  rw [wp_bind, wp_mapError]
  apply wp_kvPut
  · exact fun e => h _ _ (.nothing _)
  dsimp only [Except.mapError]
  rw [wp_pure]
  dsimp only [Except.mapError]
  rw [wp_mapError]
  apply wp_kvPut
  · exact fun e => h _ _ (.entry _ ts)
  · exact h _ _ (.both ts)

theorem audited_of_exec {s' : State} {res : Except String Unit}
    (hx : (audit_and_save r op caller d reason).exec s = (res, s')) :
    Audited s.kv r op caller d reason res s'.kv := by
  have hwp : wp (audit_and_save r op caller d reason)
      (fun res t => Audited s.kv r op caller d reason res t.kv) s := wp_audit_and_save fun _ _ ha => ha
  unfold wp at hwp
  rwa [hx] at hwp

theorem wp_audit_if_possible {Q : Except String Unit → State → Prop}
    (h : ∀ res s', Audited s.kv r op caller d reason res s'.kv → Q (.ok ()) s') :
    wp (audit_if_possible r op caller d reason) Q s := by
  unfold audit_if_possible
  rw [wp_bind, wp_attempt]
  exact wp_audit_and_save h

theorem wp_deny {α : Type} {e : String} {Q : Except String α → State → Prop}
    (h : ∀ res s', Audited s.kv r op caller .Denied e res s'.kv → Q (.error e) s') :
    wp (deny r op caller e : VaultM α) Q s := by
  unfold deny
  rw [wp_bind]
  exact wp_audit_if_possible h

theorem wp_orDeny {α : Type} {check : VaultM α} (hc : Calm check) {Q : Except String α → State → Prop}
    (hok : ∀ a s', check.exec s = (.ok a, s') → Spares s s' → Q (.ok a) s')
    (herr : ∀ e s' s'' res, Spares s s' → Audited s'.kv r op caller .Denied e res s''.kv → Q (.error e) s'') :
    wp (orDeny r op caller check) Q s := by
  unfold orDeny
  rw [wp_bind, wp_attempt]
  apply wp_calm hc
  intro res s' hres hs
  rcases res with e | a
  · exact wp_deny fun res s'' h => herr e s' s'' res hs h
  · exact hok a s' hres hs

end EnclaveOs.Vault
