import EnclaveOs.Lib.Answers
import EnclaveOs.Vault.Sample

/-! # What a policy declares (`evaluate_op`) -/

namespace EnclaveOs.Vault.Authorisation

open Lib Lib.Method
open Outside (parse_quote to_lowercase)

section

variable [Outside]

/-! ## The declared meaning -/

/-- A subject of this issuer, the one named if one is named, with all the roles. Claims are of the issuer that is
configured. -/
def OidcActs (w : World) (ctx : RequestContext) (p : Principal) : Prop :=
  ∃ claims issuer sub roles, ctx.oidc_claims = some claims ∧ p = .Oidc issuer sub roles ∧
    w.oidc_issuer = some issuer ∧ (sub = "" ∨ sub = claims.sub) ∧
    ∀ r ∈ roles, ∃ c ∈ claims.roles, eq_ignore_ascii_case c r = true

def Measured (identity : QuoteIdentity) : Measurement → Prop
  | .Mrenclave s => identity.tee = .Sgx ∧ to_lowercase s = to_lowercase identity.measurement
  | .Tdx mrtd rtmr1 rtmr2 => identity.tee = .Tdx ∧
    to_lowercase mrtd = to_lowercase identity.measurement ∧
    (∃ r1, identity.rtmr1 = some r1 ∧ to_lowercase rtmr1 = to_lowercase r1) ∧
    ∃ r2, identity.rtmr2 = some r2 ∧ to_lowercase rtmr2 = to_lowercase r2

/-- The caller's evidence matches the profile, the services being an oracle. -/
def Attested (w : World) (ctx : RequestContext) (profile : AttestationProfile) : Prop :=
  ∃ der quote ev statuses identity, ctx.peer_cert_der = some der ∧ ctx.peer_evidence = some quote ∧
    dissect_peer_cert der quote = .ok ev ∧ profile.attestation_servers ≠ [] ∧
    w.verify_quote_statuses ev.evidence (profile.attestation_servers.map (·.url)) = .ok statuses ∧
    (∀ s ∈ statuses, tcb_status_acceptable s profile.acceptable_tcb_statuses = true) ∧
    parse_quote ev.evidence = .ok identity ∧
    (∃ m ∈ profile.measurements, Measured identity m) ∧
    ∀ req ∈ profile.required_oids, (req.oid, req.value) ∈ ev.oid_claims

/-- The caller satisfies the reference in the words of the policy. -/
def Acts (w : World) (principals : PrincipalSet) (ctx : RequestContext) : PrincipalRef → Prop
  | .Owner => OidcActs w ctx principals.owner
  | .Manager i => ∃ p, principals.managers[i.toNat]? = some p ∧ OidcActs w ctx p
  | .Auditor i => ∃ p, principals.auditors[i.toNat]? = some p ∧ OidcActs w ctx p
  | .Tee i => ∃ profile, principals.tees[i.toNat]? = some (.Tee profile) ∧ Attested w ctx profile
  | .AnyTee => ∃ profile, .Tee profile ∈ principals.tees ∧ Attested w ctx profile

/-- The token verifies under the vault's key and its claims pass. -/
def Approves (pair : Except String (Bytes × Bytes)) (handle : String) (op : Operation) (manager : UInt32)
    (distinct_from : Option String) (fresh now : UInt64) (token : ApprovalToken) : Prop :=
  ∃ kp claims, pair = .ok kp ∧ check_public_key kp.2 = .ok () ∧
    Outside.verify_and_decode kp.2 token.jwt = .ok claims ∧
    check_claims claims handle op manager distinct_from fresh now = .ok ()

/-- The login has the methods, is recent, and is for this very operation where that is asked. -/
def SteppedUp (required_amr : List String) (bound : Bool) (fresh now : UInt64) (handle : String)
    (ctx : RequestContext) (binding : Option OpBinding) : Prop :=
  ∃ claims, ctx.oidc_claims = some claims ∧
    (∀ r ∈ required_amr, ∃ m ∈ claims.amr, eq_ignore_ascii_case m r = true) ∧
    (fresh = 0 ∨ claims.iat ≠ 0 ∧ satSub64 now claims.iat ≤ fresh) ∧
    (bound = false ∨ ∃ b nonce, binding = some b ∧ claims.nonce = some nonce ∧
      claims.vault_op = some (vault_op_binding handle b.measurement_digest_hex b.policy_version nonce claims.exp))

section

variable (w : World) (pair : Except String (Bytes × Bytes)) (policy : KeyPolicy) (op : Operation) (handle : String) (approvals : List ApprovalToken) (ctx : RequestContext) (binding : Option OpBinding)

/-- The meaning of a condition, at one moment. -/
def Holds : Condition → Prop
  | .TimeWindow not_before not_after =>
    (not_before = 0 ∨ not_before ≤ w.current_time.getD 0) ∧ (not_after = 0 ∨ w.current_time.getD 0 ≤ not_after)
  | .AttestationMatches profile => Attested w ctx profile
  | .ManagerApproval manager fresh =>
    ∃ mgr distinct_from, policy.principals.managers[manager.toNat]? = some mgr ∧
      co_sign mgr ctx = .ok distinct_from ∧
      ∃ token ∈ approvals, Approves pair handle op manager distinct_from fresh (w.current_time.getD 0) token
  | .OidcStepUp required_amr bound fresh =>
    SteppedUp required_amr bound fresh (w.current_time.getD 0) handle ctx binding

/-- Some rule lists the operation and a principal of the caller, and is met. -/
def Granted : Prop :=
  ∃ rule ∈ policy.operations, op ∈ rule.ops ∧ (∃ ref ∈ rule.principals, Acts w policy.principals ctx ref) ∧
    ∀ c ∈ rule.requires, Holds w pair policy op handle approvals ctx binding c

end

/-! ## A world that stands still -/

/-- Every call out meets `w`, and the key pair is `pair`. -/
def Still (w : World) (pair : Except String (Bytes × Bytes)) : Set State :=
  {s | s.world = (fun _ => w) ∧ (load_or_init_keypair.exec s).1 = pair}

def at_rest (kv : Table) (w : World) : State := ⟨kv, fun _ => w⟩

def key_pair (kv : Table) (w : World) : Except String (Bytes × Bytes) := (load_or_init_keypair.exec (at_rest kv w)).1

theorem at_rest_mem (kv : Table) (w : World) : at_rest kv w ∈ Still w (key_pair kv w) := ⟨rfl, rfl⟩

variable {w : World} {pair : Except String (Bytes × Bytes)} {ctx : RequestContext}

section

omit [Outside]

theorem ask_at_rest (kv : Table) : ask.exec (at_rest kv w) = (.ok w, at_rest kv w) := rfl

theorem kvOp_at_rest {α : Type} (f : Table → α × Table) (kv : Table) : (kvOp f).exec (at_rest kv w) =
    match w.kv_fault with
    | some e => (.error e, at_rest kv w)
    | none => (.ok (f kv).1, at_rest (f kv).2 w) := by
  unfold kvOp
  rw [exec_bind_ok (ask_at_rest kv)]
  cases w.kv_fault <;> rfl

theorem kvGet_at_rest (key : KvKey) (kv : Table) : (kvGet key).exec (at_rest kv w) =
    match w.kv_fault with
    | some e => (.error e, at_rest kv w)
    | none => (.ok (kv key), at_rest kv w) := kvOp_at_rest _ kv

end

theorem signing_pkcs8_at_rest (kv : Table) : ∃ r kv', signing_pkcs8.exec (at_rest kv w) = (r, at_rest kv' w) ∧
    signing_pkcs8.exec (at_rest kv' w) = (r, at_rest kv' w) := by
  cases hfault : w.kv_fault with
  | some e =>
    have hget : ∀ kv, signing_pkcs8.exec (at_rest kv w) = (.error ("kv get signing key: " ++ e), at_rest kv w) := by
      intro kv
      have hkv : (kvGet .signing_key).exec (at_rest kv w) = (.error e, at_rest kv w) := by rw [kvGet_at_rest, hfault]
      exact exec_bind_error (exec_mapError_error.mpr ⟨e, hkv, rfl⟩)
    exact ⟨_, kv, hget kv, hget kv⟩
  | none =>
    have hget : ∀ kv, (mapError ("kv get signing key: " ++ ·) (kvGet .signing_key)).exec (at_rest kv w) =
        (.ok (kv .signing_key), at_rest kv w) := by
      intro kv
      have hkv : (kvGet .signing_key).exec (at_rest kv w) = (.ok (kv .signing_key), at_rest kv w) := by
        rw [kvGet_at_rest, hfault]
      exact exec_mapError_ok.mpr hkv
    have hstored : ∀ kv b, kv .signing_key = some (.pkcs8 b) →
        signing_pkcs8.exec (at_rest kv w) = (.ok b, at_rest kv w) := by
      intro kv b hb
      unfold signing_pkcs8
      rw [exec_bind_ok (hget kv), hb]
      rfl
    cases hkey : kv .signing_key with
    | none =>
      cases hgen : w.entropy.bind Outside.generate_pkcs8 with
      | none =>
        have hfail : signing_pkcs8.exec (at_rest kv w) = (.error "generate vault signing key failed", at_rest kv w) := by
          unfold signing_pkcs8 init_signing_key
          rw [exec_bind_ok (hget kv), hkey]
          dsimp only
          rw [exec_bind_ok (ask_at_rest kv), hgen]
          rfl
        exact ⟨_, kv, hfail, hfail⟩
      | some b =>
        refine ⟨.ok b, Function.update kv .signing_key (some (.pkcs8 b)), ?_, hstored _ b (Function.update_self _ _ _)⟩
        have hput : (kvPut .signing_key (.pkcs8 b)).exec (at_rest kv w) =
            (.ok (), at_rest (Function.update kv .signing_key (some (.pkcs8 b))) w) :=
          (kvOp_at_rest _ kv).trans (by rw [hfault])
        unfold signing_pkcs8 init_signing_key
        rw [exec_bind_ok (hget kv), hkey]
        dsimp only
        rw [exec_bind_ok (ask_at_rest kv), hgen]
        dsimp only
        rw [exec_bind_ok (exec_mapError_ok.mpr hput)]
        rfl
    | some stored =>
      by_cases hpk : ∃ b, stored = .pkcs8 b
      · obtain ⟨b, rfl⟩ := hpk
        exact ⟨_, kv, hstored kv b hkey, hstored kv b hkey⟩
      have hfail : signing_pkcs8.exec (at_rest kv w) = (.error "parse vault signing key failed", at_rest kv w) := by
        unfold signing_pkcs8
        rw [exec_bind_ok (hget kv), hkey]
        cases stored with
        | pkcs8 b => exact absurd ⟨b, rfl⟩ hpk
        | record r | handles l | entry e => rfl
      exact ⟨_, kv, hfail, hfail⟩

theorem keypair_at_rest (kv : Table) : ∃ kv', load_or_init_keypair.exec (at_rest kv w) = (key_pair kv w, at_rest kv' w) ∧
    key_pair kv' w = key_pair kv w := by
  obtain ⟨r, kv', hfirst, hagain⟩ := signing_pkcs8_at_rest (w := w) kv
  rcases r with e | b
  · have hexec : load_or_init_keypair.exec (at_rest kv w) = (.error e, at_rest kv' w) := exec_bind_error hfirst
    have hexec' : load_or_init_keypair.exec (at_rest kv' w) = (.error e, at_rest kv' w) := exec_bind_error hagain
    exact ⟨kv', by simp [key_pair, hexec], by simp [key_pair, hexec, hexec']⟩
  · cases hpublic : Outside.from_pkcs8 b <;>
      exact ⟨kv', by simp [key_pair, load_or_init_keypair, exec_bind, hfirst, hpublic],
        by simp [key_pair, load_or_init_keypair, exec_bind, hfirst, hagain, hpublic]⟩

/-! ## What each function answers -/

omit [Outside] in
theorem eq_at_rest {s : State} (h : s.world = fun _ => w) : s = at_rest s.kv w := by
  cases s
  subst h
  rfl

theorem answers_keypair : Answers (Still w pair) load_or_init_keypair pair := by
  rintro s ⟨hworld, hpair⟩
  rw [eq_at_rest hworld] at hpair ⊢
  obtain ⟨kv', hexec, hsame⟩ := keypair_at_rest (w := w) s.kv
  rw [hexec]
  exact ⟨hpair, rfl, hsame.trans hpair⟩

theorem answers_ask : Answers (Still w pair) ask (.ok w) := by
  rintro s ⟨hworld, hpair⟩
  rw [eq_at_rest hworld] at hpair ⊢
  exact ⟨rfl, rfl, hpair⟩

theorem answers_now : Answers (Still w pair) now_secs (.ok (w.current_time.getD 0)) :=
  answers_ask.bind (answers_pure _)

def Tells (S : Set State) (m : VaultM Bool) (P : Prop) : Prop := ∃ b, Answers S m (.ok b) ∧ (b = true ↔ P)

theorem measurement_matches_iff (identity : QuoteIdentity) (allowed : List Measurement) :
    measurement_matches identity allowed = true ↔ ∃ m ∈ allowed, Measured identity m := by
  unfold measurement_matches
  rw [List.any_eq_true]
  refine exists_congr fun m => and_congr_right fun _ => ?_
  cases m with
  | Mrenclave s => cases htee : identity.tee <;> simp [Measured, htee]
  | Tdx mrtd rtmr1 rtmr2 =>
    cases htee : identity.tee <;> cases h1 : identity.rtmr1 <;> cases h2 : identity.rtmr2 <;>
      simp [Measured, htee, h1, h2, and_assoc]

theorem tells_tee_matches {der : Bytes} (hder : ctx.peer_cert_der = some der) (profile : AttestationProfile) :
    Tells (Still w pair) (tee_matches profile der ctx.peer_evidence) (Attested w ctx profile) := by
  unfold tee_matches Attested
  rcases hquote : ctx.peer_evidence with _ | quote
  · exact ⟨false, answers_pure _, by simp⟩
  dsimp only
  rcases hev : dissect_peer_cert der quote with e | ev
  · exact ⟨false, answers_pure _, by simp [hder, hev]⟩
  dsimp only
  by_cases hservers : profile.attestation_servers = []
  · rw [if_pos (by simp [hservers])]
    exact ⟨false, answers_pure _, by simp [hservers]⟩
  rw [if_neg (by simpa using hservers)]
  rcases hstatus : w.verify_quote_statuses ev.evidence (profile.attestation_servers.map (·.url)) with e | statuses
  · refine ⟨false, answers_ask.bind ?_, by simp [hder, hev, hstatus]⟩
    rw [hstatus]
    exact answers_pure _
  refine ⟨evidence_matches profile ev statuses, answers_ask.bind ?_, ?_⟩
  · rw [hstatus]
    exact answers_pure _
  · unfold evidence_matches
    rcases hparse : parse_quote ev.evidence with e | identity
    · simp [hder, hev, hparse]
    · simp [measurement_matches_iff, hder, hev, hservers, hstatus, hparse]
      tauto

section Conditions

variable {policy : KeyPolicy} {op : Operation} {handle : String} {approvals : List ApprovalToken}
  {ctx : RequestContext} {binding : Option OpBinding} {manager : UInt32} {distinct_from : Option String}
  {fresh now : UInt64} {last_err : Option String}

theorem decides_verify_approval_token {token : ApprovalToken} :
    Decides (Still w pair) (verify_approval_token token handle op manager distinct_from fresh now)
      (Approves pair handle op manager distinct_from fresh now token) := by
  refine (Decides.after_except answers_keypair fun kp _ => (decides_ofExcept (check_public_key kp.2)).and
    (Decides.after_except (answers_ofExcept (Outside.verify_and_decode kp.2 token.jwt)) fun claims _ =>
      decides_ofExcept (check_claims claims handle op manager distinct_from fresh now))).congr ?_
  constructor
  · rintro ⟨kp, hpair, hkey, claims, hclaims, hcheck⟩
    exact ⟨kp, claims, hpair, hkey, hclaims, hcheck⟩
  · rintro ⟨kp, claims, hpair, hkey, hclaims, hcheck⟩
    exact ⟨kp, hpair, hkey, claims, hclaims, hcheck⟩

theorem decides_accept_token {tokens : List ApprovalToken} :
    Decides (Still w pair) (accept_token handle op manager distinct_from fresh now tokens last_err)
      (∃ token ∈ tokens, Approves pair handle op manager distinct_from fresh now token) := by
  induction tokens generalizing last_err with
  | nil => cases last_err <;> exact (decides_throw _).congr (by simp)
  | cons token rest ih =>
    refine (Decides.or decides_verify_approval_token rfl fun e => ih).congr ?_
    simp

section

omit [Outside]

theorem check_freshness_iff {claims : OidcClaims} :
    check_freshness claims fresh now = .ok () ↔ fresh = 0 ∨ claims.iat ≠ 0 ∧ satSub64 now claims.iat ≤ fresh := by
  unfold check_freshness
  by_cases hfresh : fresh = 0
  · simp [hfresh]
  have hpos : 0 < fresh := UInt64.pos_iff_ne_zero.mpr hfresh
  by_cases hiat : claims.iat = 0
  · simp [hpos, hfresh, hiat]
  by_cases hold : fresh < satSub64 now claims.iat
  · simp [hpos, hfresh, hiat, hold, UInt64.not_le.mpr hold]
  · simp [hpos, hfresh, hiat, hold, UInt64.not_lt.mp hold]

end

theorem check_binding_iff {claims : OidcClaims} :
    check_binding claims handle binding = .ok () ↔
      ∃ b nonce, binding = some b ∧ claims.nonce = some nonce ∧
        claims.vault_op = some (vault_op_binding handle b.measurement_digest_hex b.policy_version nonce claims.exp) := by
  unfold check_binding
  rcases binding with _ | b
  · simp
  rcases hop : claims.vault_op with _ | vault_op
  · simp
  rcases hnonce : claims.nonce with _ | nonce
  · simp
  dsimp only
  split
  · rename_i hne
    refine iff_of_false (fun h => nomatch h) ?_
    rintro ⟨b', nonce', hb, hn, hop'⟩
    obtain rfl := Option.some.inj hb
    obtain rfl := Option.some.inj hn
    exact hne (Option.some.inj hop')
  · rename_i heq
    exact iff_of_true rfl ⟨b, nonce, rfl, rfl, congrArg some (not_not.mp heq)⟩

theorem check_step_up_iff {required_amr : List String} {bound : Bool} :
    check_step_up required_amr bound fresh now handle ctx binding = .ok () ↔
      SteppedUp required_amr bound fresh now handle ctx binding := by
  unfold check_step_up SteppedUp
  rcases ctx.oidc_claims with _ | claims
  · simp
  have hamr : has_amr claims required_amr = true ↔
      ∀ r ∈ required_amr, ∃ m ∈ claims.amr, eq_ignore_ascii_case m r = true := by
    simp [has_amr]
  simp only [Option.some.injEq, exists_eq_left', ← hamr, ← check_freshness_iff, ← check_binding_iff]
  rcases has_amr claims required_amr with _ | _
  · simp
  rcases check_freshness claims fresh now with e | u
  · simp [bind, Except.bind]
  · cases bound <;> simp [bind, Except.bind]

theorem decides_check_condition {c : Condition} :
    Decides (Still w pair) (check_condition policy op handle approvals ctx binding (w.current_time.getD 0) c)
      (Holds w pair policy op handle approvals ctx binding c) := by
  cases c with
  | TimeWindow not_before not_after =>
    refine (decides_ofExcept _).congr ?_
    unfold check_time_window Holds
    dsimp only
    rw [← UInt64.not_lt (a := w.current_time.getD 0), ← UInt64.not_lt (a := not_after)]
    by_cases hb : not_before ≠ 0 ∧ w.current_time.getD 0 < not_before
    · simp [hb]
    by_cases ha : not_after ≠ 0 ∧ not_after < w.current_time.getD 0
    · simp [hb, ha]
    · simp only [hb, ha, if_false]
      tauto
  | OidcStepUp required_amr bound fresh =>
    exact (decides_ofExcept _).congr check_step_up_iff
  | AttestationMatches profile =>
    rcases hder : ctx.peer_cert_der with _ | der
    · simp only [check_condition, Holds, hder]
      exact (decides_throw _).congr (by simp [Attested, hder])
    obtain ⟨b, hans, hiff⟩ : Tells (Still w pair) _ (Attested w ctx profile) := tells_tee_matches hder profile
    simp only [check_condition, Holds, hder]
    rw [← hiff]
    refine Decides.after hans ?_
    rcases b with _ | _
    · exact (decides_throw _).congr (by simp)
    · exact decides_pure.congr (by simp)
  | ManagerApproval manager fresh =>
    simp only [check_condition, check_manager_approval, Holds]
    rcases hmgr : policy.principals.managers[manager.toNat]? with _ | mgr
    · exact (decides_throw _).congr (by simp)
    refine (Decides.after_except (answers_ofExcept (co_sign mgr ctx)) fun distinct_from _ =>
      decides_accept_token).congr ?_
    simp

theorem decides_try_rules {slot : PrincipalRef} {rules : List OperationRule} :
    Decides (Still w pair) (try_rules policy op handle approvals ctx binding slot rules last_err)
      (∃ rule ∈ rules, op ∈ rule.ops ∧ (∃ ref ∈ rule.principals, ref_grants ref slot = true) ∧
        ∀ c ∈ rule.requires, Holds w pair policy op handle approvals ctx binding c) := by
  induction rules generalizing last_err with
  | nil => cases last_err <;> exact (decides_throw _).congr (by simp)
  | cons rule rest ih =>
    have hgrants : (rule.ops.contains op && rule_grants_to rule slot) = true ↔
        op ∈ rule.ops ∧ ∃ ref ∈ rule.principals, ref_grants ref slot = true := by
      simp [rule_grants_to]
    unfold try_rules
    split
    · rename_i hg
      obtain ⟨hop, href⟩ := hgrants.mp hg
      refine (Decides.or (Decides.after answers_now (decides_forM fun _ => decides_check_condition)) rfl
        fun e => ih).congr ?_
      rw [List.exists_mem_cons_iff]
      exact or_congr_left ⟨fun h => ⟨hop, href, h⟩, fun h => h.2.2⟩
    · rename_i hg
      refine ih.congr ?_
      rw [List.exists_mem_cons_iff, or_iff_right]
      exact fun h => hg (hgrants.mpr ⟨h.1, h.2.1⟩)

end Conditions

/-! ## The slot of a caller -/

/-- The subject, or roles where none is named; the issuer is not looked at. -/
def OidcMatches (ctx : RequestContext) (p : Principal) : Prop :=
  ∃ claims issuer sub roles, ctx.oidc_claims = some claims ∧ p = .Oidc issuer sub roles ∧
    (sub = "" ∧ roles ≠ [] ∨ sub ≠ "" ∧ sub = claims.sub) ∧
    ∀ r ∈ roles, ∃ c ∈ claims.roles, eq_ignore_ascii_case c r = true

def TeeMatches (w : World) (ctx : RequestContext) (p : Principal) : Prop :=
  ∃ profile, p = .Tee profile ∧ Attested w ctx profile

open Classical in
noncomputable def first_slot (w : World) (principals : PrincipalSet) (ctx : RequestContext) : Option PrincipalRef :=
  if OidcMatches ctx principals.owner then some .Owner
  else
    ((principals.managers.findIdx? (OidcMatches ctx ·)).map fun i => .Manager (UInt32.ofNat i)) <|>
    ((principals.auditors.findIdx? (OidcMatches ctx ·)).map fun i => .Auditor (UInt32.ofNat i)) <|>
    ((principals.tees.findIdx? (TeeMatches w ctx ·)).map fun i => .Tee (UInt32.ofNat i))

section

omit [Outside]

theorem oidc_matches_iff {claims : OidcClaims} (hclaims : ctx.oidc_claims = some claims)
    (p : Principal) : oidc_matches p claims = true ↔ OidcMatches ctx p := by
  unfold oidc_matches OidcMatches
  cases p with
  | Oidc issuer sub roles =>
    by_cases hsub : sub = "" <;> simp [hclaims, hsub, has_required_roles]
  | Tee profile | Fido2 rp_id credential => simp

theorem not_oidcMatches (hclaims : ctx.oidc_claims = none) (p : Principal) : ¬ OidcMatches ctx p := by
  rintro ⟨claims, _, _, _, h, _⟩
  rw [hclaims] at h
  cases h

end

open Classical in
theorem answers_find_tee {der : Bytes} (hder : ctx.peer_cert_der = some der) (i : Nat) (ps : List Principal) :
    Answers (Still w pair) (find_tee der ctx.peer_evidence i ps)
      (.ok ((ps.findIdx? (TeeMatches w ctx ·)).map (i + ·))) := by
  induction ps generalizing i with
  | nil => exact answers_pure none
  | cons p ps ih =>
    have hrest := ih (i + 1)
    have hshift : ((ps.findIdx? (TeeMatches w ctx ·)).map (· + 1)).map (i + ·) =
        (ps.findIdx? (TeeMatches w ctx ·)).map (i + 1 + ·) := by
      rw [Option.map_map]
      congr 1
      funext j
      simp only [Function.comp_apply]
      omega
    cases p with
    | Tee profile =>
      obtain ⟨b, hans, hiff⟩ : Tells (Still w pair) _ (Attested w ctx profile) := tells_tee_matches hder profile
      have htee : TeeMatches w ctx (.Tee profile) ↔ b = true := by simp [TeeMatches, hiff]
      unfold find_tee
      rcases b with _ | _
      · rw [List.findIdx?_cons, if_neg (by simpa using htee), hshift]
        exact hans.bind hrest
      · rw [List.findIdx?_cons, if_pos (by simpa using htee)]
        exact hans.bind (answers_pure _)
    | Oidc issuer sub roles | Fido2 rp_id credential =>
      rw [List.findIdx?_cons, if_neg (by simp [TeeMatches]), hshift]
      exact hrest

theorem answers_resolve_caller (policy : KeyPolicy) (ctx : RequestContext) :
    ∃ slot, Answers (Still w pair) (resolve_caller policy ctx) (.ok slot) ∧
      slot.map Prod.fst = first_slot w policy.principals ctx := by
  classical
  have hfirst : first_slot w policy.principals ctx =
      ((ctx.oidc_claims.bind (resolve_oidc policy.principals)).map Prod.fst <|>
        (policy.principals.tees.findIdx? (TeeMatches w ctx ·)).map fun i => .Tee (UInt32.ofNat i)) := by
    unfold first_slot
    rcases hclaims : ctx.oidc_claims with _ | claims
    · have hnone (ps : List Principal) : ps.findIdx? (OidcMatches ctx ·) = none := by
        simp [List.findIdx?_eq_none_iff, not_oidcMatches hclaims]
      rw [if_neg (not_oidcMatches hclaims _), hnone, hnone]
      rfl
    have hmatch : (fun p => oidc_matches p claims) = fun p => decide (OidcMatches ctx p) := by
      funext p
      rw [Bool.eq_iff_iff, oidc_matches_iff hclaims p, decide_eq_true_iff]
    simp only [Option.bind_some, resolve_oidc, hmatch, oidc_matches_iff hclaims]
    split
    · rfl
    rcases policy.principals.managers.findIdx? (OidcMatches ctx ·) with _ | i
    · cases policy.principals.auditors.findIdx? (OidcMatches ctx ·) <;> rfl
    · rfl
  rw [hfirst]
  unfold resolve_caller
  rcases hr : ctx.oidc_claims.bind (resolve_oidc policy.principals) with _ | r
  · rcases hder : ctx.peer_cert_der with _ | der
    · have hnone : policy.principals.tees.findIdx? (TeeMatches w ctx ·) = none := by
        simp [List.findIdx?_eq_none_iff, TeeMatches, Attested, hder]
      exact ⟨none, answers_pure _, by simp [hnone]⟩
    have htee : Answers (Still w pair) _ _ := answers_find_tee hder 0 policy.principals.tees
    rcases hidx : policy.principals.tees.findIdx? (TeeMatches w ctx ·) with _ | i
    · rw [hidx] at htee
      exact ⟨none, htee.bind (answers_pure _), by simp⟩
    · rw [hidx] at htee
      exact ⟨some (.Tee (UInt32.ofNat (0 + i)), .Tee), htee.bind (answers_pure _), by simp⟩
  · exact ⟨some r, answers_pure _, rfl⟩

/-- The reference names the first slot that the caller matches. -/
def Resolves (w : World) (principals : PrincipalSet) (ctx : RequestContext) (ref : PrincipalRef) : Prop :=
  ∃ slot, first_slot w principals ctx = some slot ∧ ref_grants ref slot = true

theorem evaluate_op_iff (kv : Table) (w : World) (policy : KeyPolicy) (op : Operation) (handle : String)
    (approvals : List ApprovalToken) (ctx : RequestContext) (binding : Option OpBinding) :
    ((evaluate_op policy op handle approvals ctx binding).exec (at_rest kv w)).1 = .ok () ↔
      ∃ rule ∈ policy.operations, op ∈ rule.ops ∧
        (∃ ref ∈ rule.principals, Resolves w policy.principals ctx ref) ∧
        ∀ c ∈ rule.requires, Holds w (key_pair kv w) policy op handle approvals ctx binding c := by
  obtain ⟨slot, hslot, hfirst⟩ : ∃ slot, Answers (Still w (key_pair kv w)) _ (.ok slot) ∧ _ :=
    answers_resolve_caller policy ctx
  have hdecides : Decides (Still w (key_pair kv w)) (evaluate_op policy op handle approvals ctx binding)
      (∃ rule ∈ policy.operations, op ∈ rule.ops ∧
        (∃ ref ∈ rule.principals, Resolves w policy.principals ctx ref) ∧
        ∀ c ∈ rule.requires, Holds w (key_pair kv w) policy op handle approvals ctx binding c) := by
    refine Decides.after hslot ?_
    rcases slot with _ | r
    · exact (decides_throw _).congr (by simp [Resolves, ← hfirst])
    · refine decides_try_rules.congr ?_
      simp [Resolves, ← hfirst]
  exact hdecides.iff (at_rest_mem kv w)

/-! ## Where the code and the declaration agree -/

/-- Whatever the rules, the operation and the approvals. -/
def AsDeclared (kv : Table) (w : World) (principals : PrincipalSet) (ctx : RequestContext) : Prop :=
  ∀ version operations mutability lifecycle op handle approvals binding,
    let policy : KeyPolicy := ⟨version, principals, operations, mutability, lifecycle⟩
    ((evaluate_op policy op handle approvals ctx binding).exec (at_rest kv w)).1 = .ok () ↔
      Granted w (key_pair kv w) policy op handle approvals ctx binding

/-- Allowed is what a rule grants to the first slot of the caller: as declared exactly for callers of this slot
and no other. -/
theorem evaluate_op_first_slot (kv : Table) (w : World) (principals : PrincipalSet) (ctx : RequestContext) :
    (∀ version operations mutability lifecycle op handle approvals binding,
      let policy : KeyPolicy := ⟨version, principals, operations, mutability, lifecycle⟩
      ((evaluate_op policy op handle approvals ctx binding).exec (at_rest kv w)).1 = .ok () ↔
        ∃ rule ∈ operations, op ∈ rule.ops ∧ (∃ ref ∈ rule.principals, Resolves w principals ctx ref) ∧
          ∀ c ∈ rule.requires, Holds w (key_pair kv w) policy op handle approvals ctx binding c) ∧
    (AsDeclared kv w principals ctx ↔ ∀ ref, Acts w principals ctx ref ↔ Resolves w principals ctx ref) := by
  refine ⟨fun _ _ _ _ _ _ _ _ => evaluate_op_iff kv w _ _ _ _ ctx _, ?_, ?_⟩
  · intro h ref
    -- one rule that names this reference and has no conditions
    have hrule := h 0 [⟨[.ExportKey], [ref], []⟩] .default .default .ExportKey "" [] none
    dsimp only at hrule
    rw [evaluate_op_iff] at hrule
    simpa [Granted] using hrule.symm
  · intro h version operations mutability lifecycle op handle approvals binding
    dsimp only
    rw [evaluate_op_iff]
    simp only [Granted, h]

end

open Sample in
def export_policy (principals : PrincipalSet) (ref : PrincipalRef) : KeyPolicy :=
  { policy [] false false with principals, operations := [⟨[.ExportKey], [ref], []⟩] }

open Sample in
/-- An owner is refused what they may do as manager, and a subject of one issuer acts as that of another. -/
theorem declared_differs :
    let kv : Table := fun _ => none
    let w := world (policy [] false false)
    let both := export_policy ⟨oidc "alice", [oidc "alice"], [], []⟩ (.Manager 0)
    let other := export_policy ⟨.Oidc "other" "alice" [], [], [], []⟩ .Owner
    (Granted w (key_pair kv w) both .ExportKey "k" [] (bearer "alice" false) none ∧
      ((evaluate_op both .ExportKey "k" [] (bearer "alice" false) none).exec (at_rest kv w)).1 =
        .error "caller is in policy.principals but no OperationRule grants ExportKey") ∧
    ¬ Granted w (key_pair kv w) other .ExportKey "k" [] (bearer "alice" false) none ∧
      ((evaluate_op other .ExportKey "k" [] (bearer "alice" false) none).exec (at_rest kv w)).1 = .ok () := by
  intro kv w both other
  refine ⟨⟨⟨_, List.mem_singleton_self _, List.mem_singleton_self _, ?_, by simp⟩, rfl⟩, ?_, rfl⟩
  · exact ⟨.Manager 0, List.mem_singleton_self _, _, rfl, _, "idp", "alice", [], rfl, rfl, rfl, .inr rfl, by simp⟩
  rintro ⟨rule, hrule, -, ⟨ref, href, hacts⟩, -⟩
  obtain rfl := List.mem_singleton.mp hrule
  obtain rfl := List.mem_singleton.mp href
  obtain ⟨claims, issuer, sub, roles, -, hp, hissuer, -⟩ := hacts
  cases hp
  exact absurd hissuer (by decide)

end EnclaveOs.Vault.Authorisation
