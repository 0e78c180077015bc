import EnclaveOs.Vault.Effects

/-! # What a request can do to a key record -/

namespace EnclaveOs.Vault

open Lib Lib.Method

variable [Outside]

def start (c : Call) (kv : Table) : State := ⟨kv, c.world⟩

def Keyed (kv : Table) : Prop := ∀ h r, kv (.record h) = some (.record r) → r.handle = h

/-- What a request may make of the record that it loaded. The states are those of the checks. -/
inductive Edit (c : Call) (kv : Table) (h : String) (r : KeyRecord) : KeyRecord → Prop where
  | same : Edit c kv h r r
  | update {new : KeyPolicy} {approvals : List ApprovalToken} {ref : PrincipalRef} {role : CallerRole}
      {s s' : State} (hreq : c.request = .UpdatePolicy h new approvals)
      (hop : (evaluate_op r.policy .UpdatePolicy h approvals c.ctx none).exec (start c kv).next.next = (.ok (), s))
      (hrole : (resolve_caller r.policy c.ctx).exec s = (.ok (some (ref, role)), s'))
      (hok : evaluate_policy_update r.policy (normalise_policy new) role = .ok ()) :
      Edit c kv h r { r with policy := normalise_policy new, policy_version := satSucc32 r.policy_version }
  | stage {profile : AttestationProfile} {source : PendingProfileSource} (pending : PendingProfile)
      (hreq : c.request = .StagePendingProfile h profile source) : Edit c kv h r (push_pending r pending)
  | migrate {profile : AttestationProfile} {source : PendingProfileSource} {claims : OidcClaims} {s : State}
      (hreq : c.request = .StagePendingProfile h profile source)
      (hwho : (resolve_caller r.policy c.ctx).exec (start c kv).next = (.ok none, s))
      (hclaims : c.ctx.oidc_claims = some claims) (hmanager : claims.is_manager = true)
      (hpending : .PendingProfiles ∉ r.policy.mutability.immutable)
      (hflag : r.policy.lifecycle.auto_migrate_to_next_attestation_profile = true)
      (hroll : rolls_from r.policy.principals.tees (normalise_profile profile) = true)
      (hoids : keeps_oids r.policy (normalise_profile profile) = true) :
      Edit c kv h r (push_tee r (normalise_profile profile))
  | promote {id : UInt32} {approvals : List ApprovalToken} {pending : PendingProfile} {s : State}
      (hreq : c.request = .PromotePendingProfile h id approvals)
      (hop : (evaluate_op r.policy .PromoteProfile h approvals c.ctx
        (some ⟨profile_binding_digest pending.profile, r.policy_version⟩)).exec (start c kv).next = (.ok (), s))
      (hfind : find_pending r id = some pending) (hoids : missing_oid r.policy pending.profile = none) :
      Edit c kv h r (promote r id pending.profile)
  | revoke {id : UInt32} (hreq : c.request = .RevokePendingProfile h id) : Edit c kv h r (revoke r id)

theorem Edit.handle_eq {c : Call} {kv : Table} {h : String} {r r' : KeyRecord} (e : Edit c kv h r r') :
    r'.handle = r.handle := by
  cases e <;> rfl

/-- What one request can do to a record. -/
inductive RecordStep (c : Call) (kv : Table) (h : String) : Option Stored → Option Stored → Prop where
  | keep (v : Option Stored) : RecordStep c kv h v v
  | save {r r' : KeyRecord} (e : Edit c kv h r r') : RecordStep c kv h (some (.record r)) (some (.record (bump r')))
  | create {material_b64 jwt sub : String} {r : KeyRecord} {s : State}
      (hreq : c.request = .CreateKey h material_b64 jwt)
      (hprep : (prepare_record h material_b64 jwt c.ctx).exec (start c kv) = (.ok (r, sub), s)) :
      RecordStep c kv h none (some (.record (bump r)))
  | delete {r : KeyRecord} {approvals : List ApprovalToken} {s : State}
      (hreq : c.request = .DeleteKey h approvals)
      (hop : (evaluate_op r.policy .DeleteKey h approvals c.ctx none).exec (start c kv).next = (.ok (), s)) :
      RecordStep c kv h (some (.record r)) none

def Ends (c : Call) (kv : Table) (s : State) : Prop := ∀ h, RecordStep c kv h (kv (.record h)) (s.kv (.record h))

/-- Only these requests write the owner index. -/
def Indexes (c : Call) : Prop :=
  (∃ h material_b64 jwt, c.request = .CreateKey h material_b64 jwt) ∨ ∃ h approvals, c.request = .DeleteKey h approvals

/-- What one request can do to the table. -/
structure Ended (c : Call) (kv : Table) (s : State) : Prop where
  records : Ends c kv s
  index : Indexes c ∨ ∀ sub, s.kv (.index sub) = kv (.index sub)

variable {c : Call} {kv : Table} {h : String} {s s' : State} {r r' : KeyRecord}

theorem Ended.spares (hs : Ended c kv s) (h' : Spares s s') : Ended c kv s' := by
  refine ⟨fun h => ?_, hs.index.imp_right fun hi sub => (h'.table _ (by simp)).trans (hi sub)⟩
  rw [h'.table _ (by simp)]
  exact hs.records h

theorem ends_start : Ended c kv (start c kv) := ⟨fun _ => .keep _, .inr fun _ => rfl⟩

theorem ends_of_spares (hs : Spares (start c kv) s) : Ended c kv s := ends_start.spares hs

theorem ends_of_audited {op caller reason : String} {d : AuditDecision} {res : Except String Unit}
    (hs : Spares (start c kv) s) (hh : r'.handle = h)
    (hstep : RecordStep c kv h (kv (.record h)) (some (.record (bump r'))))
    (ha : Audited s.kv r' op caller d reason res s'.kv) : Ended c kv s' := by
  have hkeep : ∀ h', s.kv (.record h') = kv (.record h') := fun h' => hs.table _ (by simp)
  have hindex : ∀ sub, s.kv (.index sub) = kv (.index sub) := fun sub => hs.table _ (by simp)
  refine ⟨fun h' => ?_, .inr fun sub => ?_⟩
  · generalize s'.kv = kv' at ha
    cases ha with
    | nothing e =>
      rw [hkeep]
      exact .keep _
    | entry e ts =>
      rw [logged_record, hkeep]
      exact .keep _
    | both ts =>
      by_cases heq : h' = r'.handle
      · subst heq
        rw [saved_self, hh]
        exact hstep
      · rw [saved_other _ _ _ heq, hkeep]
        exact .keep _
  · rw [← hindex]
    generalize s'.kv = kv' at ha
    cases ha with
    | nothing e => rfl
    | entry e ts => exact Function.update_of_ne (by simp) _ _
    | both ts => exact (Function.update_of_ne (by simp) _ _).trans (Function.update_of_ne (by simp) _ _)

/-- Nothing but the signing key has changed since the load. -/
structure Loaded (c : Call) (kv : Table) (h : String) (r : KeyRecord) (s : State) : Prop where
  spares : Spares (start c kv) s
  stored : kv (.record h) = some (.record r)
  handle : r.handle = h

omit [Outside] in
theorem Loaded.next (l : Loaded c kv h r s) (hs : Spares s s') : Loaded c kv h r s' :=
  ⟨l.spares.trans hs, l.stored, l.handle⟩

theorem Loaded.ends (l : Loaded c kv h r s) : Ended c kv s := ends_of_spares l.spares

theorem Loaded.audited {op caller reason : String} {d : AuditDecision} {res : Except String Unit}
    (l : Loaded c kv h r s) (he : Edit c kv h r r') (ha : Audited s.kv r' op caller d reason res s'.kv) :
    Ended c kv s' := by
  apply ends_of_audited l.spares (he.handle_eq.trans l.handle) _ ha
  rw [l.stored]
  exact .save he

section Walk

variable {α β : Type} {f : KeyRecord → VaultM α} {m : VaultM α}

abbrev EndsAll (c : Call) (kv : Table) (m : VaultM α) (s : State) : Prop := wp m (fun _ s' => Ended c kv s') s

theorem ends_load (hk : Keyed kv)
    (hf : ∀ r, Loaded c kv h r (start c kv).next → EndsAll c kv (f r) (start c kv).next) :
    EndsAll c kv (load_record h >>= f) (start c kv) := by
  unfold EndsAll
  rw [wp_bind]
  apply wp_load_record
  · exact fun _ => ends_of_spares (Spares.next _)
  · exact fun r hr => hf r ⟨Spares.next _, hr, hk h r hr⟩

theorem ends_calm (hs : Ended c kv s) (hm : Calm m) : EndsAll c kv m s := hs.spares (hm s)

theorem ends_calm_bind {g : α → VaultM β} (hs : Ended c kv s) (hm : Calm m)
    (hg : ∀ a s', m.exec s = (.ok a, s') → Spares s s' → EndsAll c kv (g a) s') : EndsAll c kv (m >>= g) s := by
  unfold EndsAll
  rw [wp_bind]
  apply wp_calm hm
  intro res s' hres hsp
  rcases res with e | a
  · exact hs.spares hsp
  · exact hg a s' hres hsp

variable {op caller : String}

section

variable (l : Loaded c kv h r s)

include l

theorem ends_orDeny {check : VaultM α} {g : α → VaultM β} (he : Edit c kv h r r') (hc : Calm check)
    (hg : ∀ a s', check.exec s = (.ok a, s') → Loaded c kv h r s' → EndsAll c kv (g a) s') :
    EndsAll c kv (orDeny r' op caller check >>= g) s := by
  unfold EndsAll
  rw [wp_bind]
  apply wp_orDeny hc
  · exact fun a s' hx hsp => hg a s' hx (l.next hsp)
  · exact fun e s' s'' res hsp ha => (l.next hsp).audited he ha

theorem ends_save {reason : String} {d : AuditDecision} {a : α}
    (he : Edit c kv h r r') : EndsAll c kv (audit_and_save r' op caller d reason >>= fun _ => pure a) s := by
  unfold EndsAll
  rw [wp_bind]
  apply wp_audit_and_save
  intro res s' ha
  cases res <;> exact l.audited he ha

theorem ends_told {reason : String} {d : AuditDecision} (hm : Calm m) :
    EndsAll c kv (audit_if_possible r op caller d reason >>= fun _ => m) s := by
  unfold EndsAll
  rw [wp_bind]
  apply wp_audit_if_possible
  exact fun _ _ ha => ends_calm (l.audited .same ha) hm

theorem ends_deny {e : String} : EndsAll c kv (deny r op caller e : VaultM α) s :=
  wp_deny fun _ _ ha => l.audited .same ha

end

end Walk

/-! ## Calm parts of the handlers -/

section Parts

variable {handle : String} {ctx : RequestContext} {approvals : List ApprovalToken}

theorem aloof_decode_or {what text : String} : Aloof (decode_or what text) := .ofExcept _

theorem aloof_decode_aad {aad : Option String} : Aloof (decode_aad aad) := by
  rcases aad with _ | a
  · exact .pure _
  · exact aloof_decode_or

theorem aloof_decode_iv {iv : Option String} : Aloof (decode_iv iv) := by
  rcases iv with _ | a
  · exact .pure _
  · exact aloof_decode_or.bind fun _ => .pure _

theorem aloof_choose_nonce {iv : Option Bytes} : Aloof (choose_nonce iv) := by
  unfold choose_nonce
  split
  · split
    · exact .pure _
    · exact .throw _
  · apply Aloof.ask.bind
    intro w
    split
    · exact .throw _
    · exact .pure _

theorem aloof_aes_gcm_seal {key text aad : Bytes} {iv : Option Bytes} : Aloof (aes_gcm_seal key text aad iv) := by
  unfold aes_gcm_seal
  apply aloof_choose_nonce.bind
  intro nonce
  apply aloof_refuse.bind
  intro _
  split
  · exact .throw _
  · exact .pure _

theorem aloof_p256_sign {key message : Bytes} : Aloof (p256_sign key message) := by
  unfold p256_sign
  apply aloof_refuse.bind
  intro _
  apply Aloof.ask.bind
  intro w
  split
  · exact .throw _
  · exact .pure _

theorem calm_verify_grant {jwt : String} {now : UInt64} : Calm (verify_grant jwt ctx now) := by
  unfold verify_grant
  apply calm_ask.bind
  intro cfg
  split
  · exact calm_throw
  apply calm_ask.bind
  intro w
  apply calm_ofExcept.bind
  intro grant
  apply calm_refuse.bind
  intro _
  apply calm_refuse.bind
  intro _
  apply calm_refuse.bind
  intro _
  split
  · exact calm_throw
  · exact calm_ofExcept.bind fun _ => calm_pure

theorem calm_prepare_record {material jwt : String} : Calm (prepare_record handle material jwt ctx) := by
  unfold prepare_record
  apply calm_refuse.bind
  intro _
  apply calm_refuse.bind
  intro _
  apply calm_now_secs.bind
  intro now
  apply calm_verify_grant.bind
  intro grant
  apply calm_refuse.bind
  intro _
  apply calm_refuse.bind
  intro _
  exact calm_ofExcept.bind fun _ => calm_ofExcept.bind fun _ => calm_pure

section

omit [Outside]

theorem calm_readFrom {limit n : Nat} {seq : UInt64} {out : List AuditEntry} :
    Calm (readFrom handle limit n seq out) := by
  induction n generalizing seq out with
  | zero => exact calm_pure
  | succ n ih =>
    unfold readFrom
    split
    · apply (calm_kvGet.mapError _).bind
      intro v
      split <;> exact ih
    · exact calm_pure

theorem calm_list_entries {handles : List String} : Calm (list_entries handles) := by
  induction handles with
  | nil => exact calm_pure
  | cons handle rest ih =>
    unfold list_entries
    apply calm_kvGet.attempt.bind
    intro v
    split
    · exact ih.bind fun _ => calm_pure
    · exact ih

end

/-! ## Handlers that read -/

theorem calm_handle_get_policy : Calm (handle_get_policy handle ctx) :=
  calm_load_record.bind fun _ => calm_require_role.bind fun _ => calm_pure

theorem calm_handle_get_info : Calm (handle_get_info handle ctx) :=
  calm_load_record.bind fun _ => calm_require_role.bind fun _ => calm_pure

theorem calm_handle_list_pending : Calm (handle_list_pending handle ctx) :=
  calm_load_record.bind fun _ => calm_require_role.bind fun _ => calm_pure

theorem calm_handle_read_audit {since : UInt64} {limit : UInt32} : Calm (handle_read_audit handle since limit ctx) :=
  calm_load_record.bind fun _ => calm_require_role.bind fun _ =>
    calm_readFrom.bind fun _ => calm_pure

omit [Outside] in
theorem calm_handle_list : Calm (handle_list ctx) := by
  unfold handle_list
  split
  · exact calm_throw
  · exact (calm_kvGet.mapError _).bind fun _ => calm_list_entries.bind fun _ => calm_pure

end Parts

/-! ## What a passed check says -/

section

omit [Outside]

theorem refuse_ok {b : Bool} {e : String} (hx : (refuse b e).exec s = (.ok (), s')) : b = false ∧ s' = s := by
  unfold refuse at hx
  split at hx
  · cases hx
  · cases hx
    exact ⟨by simpa using ‹¬ b = true›, rfl⟩

theorem ofExcept_ok {α : Type} {x : Except String α} {a : α}
    (hx : (Method.ofExcept x : VaultM α).exec s = (.ok a, s')) : x = .ok a ∧ s' = s := by
  cases hx
  exact ⟨rfl, rfl⟩

end

omit [Outside] in
/-- What follows the checks reads neither the policy nor the expiry. -/
def Computes (m : VaultM VaultResponse) (h : String) (op : Operation) (ty : KeyType)
    (approvals : List ApprovalToken) (ctx : RequestContext) : Prop :=
  ∃ g : KeyRecord → VaultM VaultResponse, m = require_op h op ty approvals ctx >>= g ∧ (∀ r, Aloof (g r)) ∧
    ∀ r p t, g { r with policy := p, expires_at := t } = g r

section Computes

variable {approvals : List ApprovalToken} {ctx : RequestContext} {text : String} {aad : Option String}

theorem computes_wrap {h text : String} {aad iv : Option String} :
    Computes (handle_wrap h text aad iv approvals ctx) h .Wrap .Aes256GcmKey approvals ctx := by
  refine ⟨_, rfl, fun r => ?_, fun _ _ _ => rfl⟩
  exact aloof_decode_or.bind fun _ => aloof_decode_aad.bind fun _ => aloof_decode_iv.bind fun _ =>
    aloof_aes_gcm_seal.bind fun _ => .pure _

theorem computes_unwrap {h text iv : String} {aad : Option String} :
    Computes (handle_unwrap h text iv aad approvals ctx) h .Unwrap .Aes256GcmKey approvals ctx := by
  refine ⟨_, rfl, fun r => ?_, fun _ _ _ => rfl⟩
  exact aloof_decode_or.bind fun _ => aloof_decode_or.bind fun _ => aloof_decode_aad.bind fun _ =>
    (Aloof.ofExcept _).bind fun _ => .pure _

theorem computes_sign {h message : String} {prehashed : Bool} :
    Computes (handle_sign h message prehashed approvals ctx) h .Sign .P256SigningKey approvals ctx := by
  refine ⟨_, rfl, fun r => ?_, fun _ _ _ => rfl⟩
  apply aloof_decode_or.bind
  intro m
  rcases prehashed with _ | _
  · exact aloof_p256_sign.bind fun _ => .pure _
  · exact (Aloof.ofExcept _).bind fun _ => .pure _

theorem computes_mac {h message : String} :
    Computes (handle_mac h message approvals ctx) h .Mac .HmacSha256Key approvals ctx := by
  refine ⟨_, rfl, fun r => ?_, fun _ _ _ => rfl⟩
  exact aloof_decode_or.bind fun _ => .pure _

end Computes

/-! ## Handlers that write -/

section Handlers

variable (hk : Keyed kv)

include hk

variable {op : Operation} {approvals : List ApprovalToken} {ctx : RequestContext} {sub : String}

theorem ends_require_op {ty : KeyType}
    : EndsAll c kv (require_op h op ty approvals ctx) (start c kv) := by
  unfold require_op
  apply ends_load hk
  intro r l
  apply ends_calm_bind l.ends calm_expired
  intro late s _ hs
  apply ends_orDeny (l.next hs) .same calm_refuse
  intro _ s _ l
  apply ends_orDeny l .same calm_refuse
  intro _ s _ l
  apply ends_orDeny l .same calm_evaluate_op
  intro _ s _ l
  exact ends_save l .same

theorem ends_crypto {m : VaultM VaultResponse} {ty : KeyType}
    (hm : Computes m h op ty approvals ctx) : EndsAll c kv m (start c kv) := by
  obtain ⟨g, rfl, hg, -⟩ := hm
  unfold EndsAll
  apply (ends_require_op hk (c := c) (h := h)).bind
  · exact fun r s hs => ends_calm hs (hg r).calm
  · exact fun _ _ hs => hs

theorem ends_export : EndsAll c kv (handle_export h approvals ctx) (start c kv) := by
  unfold handle_export
  apply ends_load hk
  intro r l
  apply ends_calm_bind l.ends calm_expired
  intro late s _ hs
  apply ends_calm_bind (l.next hs).ends calm_refuse
  intro _ s1 _ hs1
  apply ends_calm_bind ((l.next hs).next hs1).ends calm_refuse
  intro _ s2 _ hs2
  apply ends_orDeny (((l.next hs).next hs1).next hs2) .same calm_evaluate_op
  exact fun _ s3 _ l => ends_told l calm_pure

theorem ends_issue_approval {ttl : UInt64} : EndsAll c kv (handle_issue_approval h op ttl ctx) (start c kv) := by
  unfold handle_issue_approval
  apply ends_load hk
  intro r l
  split
  · exact ends_told l calm_throw
  dsimp only
  split
  · exact ends_deny l
  apply ends_calm_bind l.ends calm_now_secs
  intro now s _ hs
  apply ends_calm_bind (l.next hs).ends calm_issue_approval_token
  exact fun token s1 _ hs1 => ends_told ((l.next hs).next hs1) calm_pure

theorem ends_update {new : KeyPolicy} (hreq : c.request = .UpdatePolicy h new approvals) :
    EndsAll c kv (handle_update_policy h new approvals c.ctx) (start c kv) := by
  unfold handle_update_policy
  apply ends_load hk
  intro r l
  apply ends_calm_bind l.ends calm_expired
  intro late s hlate hs
  -- the clock is asked once, so the policy is evaluated two calls after the start
  obtain rfl : s = (start c kv).next.next := (congrArg Prod.snd hlate).symm
  apply ends_calm_bind (l.next hs).ends calm_refuse
  intro _ s1 hrefuse hs1
  obtain ⟨-, rfl⟩ := refuse_ok hrefuse
  apply ends_orDeny ((l.next hs).next hs1) .same calm_evaluate_op
  intro _ s2 hop l2
  apply ends_calm_bind l2.ends calm_require_role
  intro role s3 hrole hs3
  unfold require_role at hrole
  obtain ⟨_ | ⟨ref, _⟩, _, hrole, hfound⟩ := exec_bind_eq_ok.mp hrole
  · cases hfound
  cases hfound
  apply ends_orDeny (l2.next hs3) .same calm_ofExcept
  intro _ s4 hcheck l4
  obtain ⟨hok, rfl⟩ := ofExcept_ok hcheck
  exact ends_save l4 (.update hreq hop hrole hok)

theorem ends_stage {profile : AttestationProfile} {source : PendingProfileSource}
    (hreq : c.request = .StagePendingProfile h profile source) :
    EndsAll c kv (handle_stage_pending h profile source c.ctx) (start c kv) := by
  unfold handle_stage_pending
  apply ends_load hk
  intro r l
  apply ends_orDeny l .same calm_check_stage_authority
  intro stager s hstager l1
  dsimp only
  split
  · exact l1.ends
  split
  · exact l1.ends
  split
  · rename_i hauto
    simp only [auto_migrates, Bool.and_eq_true, decide_eq_true_eq] at hauto
    obtain ⟨⟨⟨rfl, hflag⟩, hroll⟩, hoids⟩ := hauto
    -- the platform stages only where the caller holds no slot of the key
    unfold check_stage_authority at hstager
    obtain ⟨res, s1, hwho, h1⟩ := exec_bind_eq_ok.mp hstager
    rcases res with _ | _
    · obtain ⟨_, s2, h2, h3⟩ := exec_bind_eq_ok.mp h1
      obtain ⟨_, s3, h4, h5⟩ := exec_bind_eq_ok.mp h3
      obtain ⟨hm, rfl⟩ := refuse_ok h2
      obtain ⟨hp, rfl⟩ := refuse_ok h4
      cases h5
      rcases hclaims : c.ctx.oidc_claims with _ | claims
      · simp [hclaims] at hm
      · exact ends_save l1 (.migrate hreq hwho hclaims (by simpa [hclaims] using hm) (by simpa using hp) hflag hroll
          hoids)
    · obtain ⟨_, _, _, h2⟩ := exec_bind_eq_ok.mp h1
      cases h2
  · unfold stage_new
    apply ends_orDeny l1 .same calm_refuse
    intro _ s2 _ l2
    apply ends_calm_bind l2.ends calm_now_secs
    intro now s3 _ hs3
    exact ends_save (l2.next hs3) (.stage _ hreq)

theorem ends_promote {id : UInt32} (hreq : c.request = .PromotePendingProfile h id approvals) :
    EndsAll c kv (handle_promote_pending h id approvals c.ctx) (start c kv) := by
  unfold handle_promote_pending
  apply ends_load hk
  intro r l
  apply ends_orDeny l .same calm_evaluate_op
  intro _ s hop l1
  rcases hfind : find_pending r id with _ | pending
  · exact ends_deny l1
  rcases hoids : missing_oid r.policy pending.profile with _ | oid
  · simp only [hoids]
    rw [hfind] at hop
    exact ends_save l1 (.promote hreq hop hfind hoids)
  · simp only [hoids]
    exact ends_deny l1

theorem ends_revoke {id : UInt32} (hreq : c.request = .RevokePendingProfile h id) :
    EndsAll c kv (handle_revoke_pending h id c.ctx) (start c kv) := by
  unfold handle_revoke_pending
  apply ends_load hk
  intro r l
  apply ends_orDeny l .same calm_check_pending_mutability
  intro _ s _ l1
  apply ends_orDeny l1 (.revoke hreq) calm_refuse
  intro _ s2 _ l2
  exact ends_save l2 (.revoke hreq)

section

omit hk

theorem ends_put_index (hi : Indexes c) {v : Stored} (hs : Ended c kv s) : EndsAll c kv (kvPut (.index sub) v) s := by
  apply wp_kvPut
  · exact fun _ => hs.spares (Spares.next _)
  refine ⟨fun h => ?_, .inl hi⟩
  dsimp only
  rw [Function.update_of_ne (by simp)]
  exact hs.records h

theorem ends_add_index (hi : Indexes c) (hs : Ended c kv s) : EndsAll c kv (add_to_owner_index sub h) s := by
  unfold add_to_owner_index
  apply ends_calm_bind hs calm_kvGet.attempt
  exact fun _ _ _ hsp => ends_put_index hi (hs.spares hsp)

theorem ends_remove_index (hi : Indexes c) (hs : Ended c kv s) : EndsAll c kv (remove_from_owner_index sub h) s := by
  unfold remove_from_owner_index
  apply ends_calm_bind hs calm_kvGet.attempt
  intro v s' _ hsp
  split
  · exact ends_put_index hi (hs.spares hsp)
  · exact hs.spares hsp

theorem prepare_record_ok {material jwt sub : String} {ctx : RequestContext}
    (hx : (prepare_record h material jwt ctx).exec s = (.ok (r, sub), s')) :
    ∃ grant : KeyCreationGrant, ∃ m pk now, r = new_record h grant m pk now ∧ sub = grant.sub ∧
      owner_oidc_sub grant.policy.principals.owner = some grant.sub := by
  unfold prepare_record at hx
  obtain ⟨_, s1, h1, hx⟩ := exec_bind_eq_ok.mp hx
  obtain ⟨_, s2, h2, hx⟩ := exec_bind_eq_ok.mp hx
  obtain ⟨now, s3, h3, hx⟩ := exec_bind_eq_ok.mp hx
  obtain ⟨grant, s4, h4, hx⟩ := exec_bind_eq_ok.mp hx
  obtain ⟨_, s5, h5, hx⟩ := exec_bind_eq_ok.mp hx
  obtain ⟨_, s6, h6, hx⟩ := exec_bind_eq_ok.mp hx
  obtain ⟨m, s7, h7, hx⟩ := exec_bind_eq_ok.mp hx
  obtain ⟨pk, s8, h8, hx⟩ := exec_bind_eq_ok.mp hx
  cases hx
  exact ⟨grant, m, pk, now, rfl, rfl, by simpa using (refuse_ok h6).1⟩

theorem ends_create {material jwt : String} (hreq : c.request = .CreateKey h material jwt) :
    EndsAll c kv (handle_create h material jwt c.ctx) (start c kv) := by
  unfold handle_create
  apply ends_calm_bind ends_start calm_prepare_record
  rintro ⟨r, sub⟩ s hprep hs
  unfold EndsAll
  dsimp only
  rw [wp_bind, wp_mapError]
  apply wp_kvGet
  · exact fun _ => ends_of_spares (hs.trans (Spares.next _))
  dsimp only [Except.mapError]
  rw [hs.table _ (by simp)]
  -- a stored value ends the request here, so below the handle is free
  rcases hfree : (start c kv).kv (.record h) with _ | v
  · rw [wp_bind]
    simp only [refuse, Option.isSome_none, Bool.false_eq_true, if_false, wp_pure]
    rw [wp_bind]
    apply wp_audit_and_save
    intro res s2 ha
    have hstep : RecordStep c kv h (kv (.record h)) (some (.record (bump r))) := by
      rw [show kv (.record h) = none from hfree]
      exact .create hreq hprep
    have hh : r.handle = h := by
      obtain ⟨_, _, _, _, rfl, _, _⟩ := prepare_record_ok hprep
      rfl
    have hends : Ended c kv s2 := ends_of_audited (s := s.next) (hs.trans (Spares.next _)) hh hstep ha
    rcases res with e | _
    · exact hends
    dsimp only
    rw [wp_bind, wp_mapError]
    apply wp_mono (ends_add_index (.inl ⟨_, _, _, hreq⟩) hends)
    intro res s3 h3
    cases res <;> exact h3
  · exact ends_of_spares (hs.trans (Spares.next _))

end

theorem ends_delete {approvals : List ApprovalToken} (hreq : c.request = .DeleteKey h approvals) :
    EndsAll c kv (handle_delete h approvals c.ctx) (start c kv) := by
  unfold handle_delete
  apply ends_load hk
  intro r l
  apply ends_orDeny l .same calm_evaluate_op
  intro _ s hop l1
  split
  · exact l1.ends
  unfold EndsAll
  rw [wp_bind]
  apply wp_audit_if_possible
  intro _ s2 ha
  have hends := l1.audited .same ha
  dsimp only
  rw [wp_bind, wp_mapError]
  apply wp_kvDelete
  · exact fun _ => hends.spares (Spares.next _)
  dsimp only [Except.mapError]
  rw [wp_bind, wp_attempt]
  have hi : Indexes c := .inr ⟨_, _, hreq⟩
  apply wp_mono (ends_remove_index hi ⟨fun h' => ?_, .inl hi⟩)
  · exact fun _ _ h3 => h3
  by_cases heq : h' = h
  · subst heq
    simp only [Function.update_self, l.stored]
    exact .delete hreq hop
  · dsimp only
    rw [Function.update_of_ne (by simpa using heq)]
    exact hends.records h'

end Handlers

theorem ends_dispatch (hk : Keyed kv) (c : Call) : EndsAll c kv (dispatch c.ctx c.request) (start c kv) := by
  cases hreq : c.request with
  | CreateKey _ _ _ => exact ends_create hreq
  | ExportKey _ _ => exact ends_export hk
  | DeleteKey _ _ => exact ends_delete hk hreq
  | UpdatePolicy _ _ _ => exact ends_update hk hreq
  | GetPolicy _ => exact ends_calm ends_start calm_handle_get_policy
  | GetKeyInfo _ => exact ends_calm ends_start calm_handle_get_info
  | ListKeys => exact ends_calm ends_start calm_handle_list
  | Wrap _ _ _ _ _ => exact ends_crypto hk computes_wrap
  | Unwrap _ _ _ _ _ => exact ends_crypto hk computes_unwrap
  | Sign _ _ _ _ => exact ends_crypto hk computes_sign
  | Mac _ _ _ => exact ends_crypto hk computes_mac
  | IssueApprovalToken _ _ _ => exact ends_issue_approval hk
  | ReadAuditLog _ _ _ => exact ends_calm ends_start calm_handle_read_audit
  | StagePendingProfile _ _ _ => exact ends_stage hk hreq
  | ListPendingProfiles _ => exact ends_calm ends_start calm_handle_list_pending
  | PromotePendingProfile _ _ _ => exact ends_promote hk hreq
  | RevokePendingProfile _ _ => exact ends_revoke hk hreq

theorem serve_snd (c : Call) (kv : Table) : (serve c kv).2 = ((dispatch c.ctx c.request).exec (start c kv)).2.kv := by
  unfold serve start
  rcases (dispatch c.ctx c.request).exec ⟨kv, c.world⟩ with ⟨_ | _, _⟩ <;> rfl

theorem serve_record (hk : Keyed kv) (c : Call) (h : String) :
    RecordStep c kv h (kv (.record h)) ((serve c kv).2 (.record h)) := by
  rw [serve_snd]
  exact (ends_dispatch hk c).records h

theorem serve_index (hk : Keyed kv) (c : Call) : Indexes c ∨ ∀ sub, (serve c kv).2 (.index sub) = kv (.index sub) := by
  rw [serve_snd]
  exact (ends_dispatch hk c).index

theorem Keyed.serve (hk : Keyed kv) (c : Call) : Keyed (serve c kv).2 := by
  intro h r hr
  have hstep := serve_record hk c h
  rw [hr] at hstep
  generalize hv : kv (.record h) = v at hstep
  cases hstep with
  | keep => exact hk h r hv
  | save e => exact e.handle_eq.trans (hk h _ hv)
  | create hreq hprep =>
    obtain ⟨_, _, _, _, rfl, _, _⟩ := prepare_record_ok hprep
    rfl

def serveAll (kv : Table) (cs : List Call) : Table := cs.foldl (fun kv c => (serve c kv).2) kv

theorem Keyed.serveAll (hk : Keyed kv) (cs : List Call) : Keyed (serveAll kv cs) := by
  induction cs generalizing kv with
  | nil => exact hk
  | cons c cs ih => exact ih (hk.serve c)

end EnclaveOs.Vault
