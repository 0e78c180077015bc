import EnclaveOs.Vault.Sample
import EnclaveOs.Vault.Steps

/-! # What may change in the policy of a key -/

namespace EnclaveOs.Vault

open Lib Lib.Method

theorem mem_changed {α : Type} [DecidableEq α] {f g : PolicyField} {old new : α} :
    g ∈ changed f old new ↔ old ≠ new ∧ g = f := by
  unfold changed
  split <;> simp_all

variable {role : CallerRole}

theorem check_fields_ok {m : Mutability} {allowed fields : List PolicyField}
    (h : check_fields m role allowed fields = .ok ()) : ∀ f ∈ fields, f ∉ m.immutable := by
  induction fields with
  | nil => simp
  | cons f rest ih =>
    unfold check_fields at h
    split at h
    · cases h
    split at h
    · rename_i hf _
      intro g hg
      rcases List.mem_cons.mp hg with rfl | hg
      · simpa using hf
      · exact ih h g hg
    · cases h

/-- What `evaluate_policy_update` lets pass. -/
structure Accepted (old new : KeyPolicy) (role : CallerRole) : Prop where
  fields : ∀ f ∈ diff_policy_fields old new, f ∉ old.mutability.immutable
  oids : key_required_oids old ⊆ key_required_oids new
  flag : old.lifecycle.auto_migrate_to_next_attestation_profile ≠
    new.lifecycle.auto_migrate_to_next_attestation_profile → role = .Owner

variable {old new : KeyPolicy}

theorem accepted_of_ok (h : evaluate_policy_update old new role = .ok ()) : Accepted old new role := by
  unfold evaluate_policy_update at h
  dsimp only at h
  split at h
  · rename_i hempty
    rw [List.isEmpty_iff] at hempty
    have hno : ∀ f, f ∉ diff_policy_fields old new := by simp [hempty]
    have ht : old.principals.tees = new.principals.tees := by
      by_contra hne
      exact hno .Tees (by simp [diff_policy_fields, mem_changed, hne])
    have hl : old.lifecycle = new.lifecycle := by
      by_contra hne
      exact hno .Lifecycle (by simp [diff_policy_fields, mem_changed, hne])
    refine ⟨by simp [hempty], ?_, fun hne => absurd (by rw [hl]) hne⟩
    unfold key_required_oids
    rw [ht]
    exact List.Subset.refl _
  · split at h
    · cases h
    rename_i allowed _
    rcases hf : check_fields old.mutability role allowed (diff_policy_fields old new) with e | _
    · rw [hf] at h
      cases h
    rw [hf] at h
    unfold check_standing_rules at h
    split at h
    · cases h
    rename_i hnone
    split at h
    · cases h
    rename_i hflag
    refine ⟨check_fields_ok hf, fun oid hoid => ?_, fun hne => not_not.mp fun hr => hflag ⟨hne, hr⟩⟩
    simpa using List.find?_eq_none.mp hnone oid hoid

/-! ## Required OIDs -/

theorem mem_keep_oids {acc : List String} {rest : List (List OidRequirement)} {oid : String} :
    oid ∈ rest.foldl (fun acc reqs => acc.filter fun oid => reqs.any (·.oid == oid)) acc ↔
      oid ∈ acc ∧ ∀ reqs ∈ rest, ∃ q ∈ reqs, q.oid = oid := by
  induction rest generalizing acc with
  | nil => simp
  | cons reqs rest ih =>
    rw [List.foldl_cons, ih]
    simp [and_assoc]

theorem mem_key_required_oids {policy : KeyPolicy} {oid : String} :
    oid ∈ key_required_oids policy ↔
      tee_oids policy.principals.tees ≠ [] ∧ ∀ reqs ∈ tee_oids policy.principals.tees, ∃ q ∈ reqs, q.oid = oid := by
  unfold key_required_oids
  split
  · simp_all
  rename_i first rest heq
  rw [mem_keep_oids, heq]
  simp

theorem push_tee_oids {r : KeyRecord} {profile : AttestationProfile}
    (h : ∀ oid ∈ key_required_oids r.policy, ∃ q ∈ profile.required_oids, q.oid = oid) :
    key_required_oids r.policy ⊆ key_required_oids (push_tee r profile).policy := by
  intro oid hoid
  obtain ⟨-, hall⟩ := mem_key_required_oids.mp hoid
  have htees : tee_oids (push_tee r profile).policy.principals.tees =
      tee_oids r.policy.principals.tees ++ [profile.required_oids] := by
    simp [push_tee, tee_oids]
  rw [mem_key_required_oids, htees]
  refine ⟨by simp, ?_⟩
  intro reqs hreqs
  rcases List.mem_append.mp hreqs with hold | hnew
  · exact hall reqs hold
  · rw [List.mem_singleton.mp hnew]
    exact h oid hoid

section Oids

variable [Outside]

theorem Edit.oids {c : Call} {kv : Table} {h : String} {r r' : KeyRecord} (e : Edit c kv h r r') :
    key_required_oids r.policy ⊆ key_required_oids r'.policy := by
  cases e with
  | same | stage _ _ | revoke _ => exact List.Subset.refl _
  | update _ _ _ hok => exact (accepted_of_ok hok).oids
  | migrate _ _ _ _ _ _ _ hoids => exact push_tee_oids (by simpa [keeps_oids] using hoids)
  | promote _ _ _ hoids => exact push_tee_oids (by simpa [missing_oid, List.find?_eq_none] using hoids)

def empty : Table := fun _ => none

omit [Outside] in
theorem keyed_empty : Keyed empty := by
  intro h r hr
  cases hr

def NotDeleted (h : String) (cs : List Call) : Prop := ∀ c ∈ cs, ∀ approvals, c.request ≠ .DeleteKey h approvals

/-- Where nobody deletes a record it is edited, step by step. -/
theorem run_record {P : KeyRecord → KeyRecord → Prop} {A : Call → Table → Prop} {h : String}
    (hrefl : ∀ r, P r r) (htrans : ∀ a b d, P a b → P b d → P a d)
    (hedit : ∀ {c kv r r'}, A c kv → kv (.record h) = some (.record r) → Edit c kv h r r' → P r (bump r'))
    {kv : Table} (hk : Keyed kv) {cs : List Call} (hd : NotDeleted h cs)
    (hok : ∀ pre c post, cs = pre ++ c :: post → A c (serveAll kv pre)) {r : KeyRecord}
    (hr : kv (.record h) = some (.record r)) :
    ∃ r', serveAll kv cs (.record h) = some (.record r') ∧ P r r' := by
  induction cs generalizing kv r with
  | nil => exact ⟨r, hr, hrefl r⟩
  | cons c cs ih =>
    have hstep := serve_record hk c h
    rw [hr] at hstep
    have hnext : ∃ r1, (serve c kv).2 (.record h) = some (.record r1) ∧ P r r1 := by
      generalize (serve c kv).2 (.record h) = v at hstep
      cases hstep with
      | keep => exact ⟨r, rfl, hrefl r⟩
      | save e => exact ⟨_, rfl, hedit (hok [] c cs rfl) hr e⟩
      | delete hreq _ => exact absurd hreq (hd c (by simp) _)
    obtain ⟨r1, hr1, hp1⟩ := hnext
    obtain ⟨r2, hr2, hp2⟩ := ih (hk.serve c) (fun d hdm => hd d (.tail _ hdm))
      (fun pre d post heq => hok (c :: pre) d post (by simp [heq])) hr1
    exact ⟨r2, hr2, htrans _ _ _ hp1 hp2⟩

/-- Required OIDs are append-only, whatever requests follow, for as long as the key is not deleted. -/
theorem required_oids_append_only (past future : List Call) (h : String) (hd : NotDeleted h future)
    (r : KeyRecord) (hr : serveAll empty past (.record h) = some (.record r)) :
    ∃ r', serveAll (serveAll empty past) future (.record h) = some (.record r') ∧
      key_required_oids r.policy ⊆ key_required_oids r'.policy := by
  apply run_record (P := fun a b => key_required_oids a.policy ⊆ key_required_oids b.policy)
    (A := fun _ _ => True) (fun _ => List.Subset.refl _) (fun _ _ _ => List.Subset.trans)
    (fun _ _ e => e.oids) (keyed_empty.serveAll past) hd (fun _ _ _ _ => trivial) hr

end Oids

open Sample in
theorem required_oids_after_promotion :
    let p := policy [.Owner, .Mutability] false false
    key_required_oids (record p).policy = [APP_ID_OID_STR] ∧
      ∃ r', serveAll (serveAll empty [create p]) [stage p, Sample.promote p] (.record "k") = some (.record r') ∧
        key_required_oids (record p).policy ⊆ key_required_oids r'.policy := by
  intro p
  refine ⟨by decide +kernel, ?_⟩
  apply required_oids_append_only [create p] [stage p, Sample.promote p] "k"
  · intro c hc approvals hreq
    rcases List.mem_pair.mp hc with rfl | rfl <;> cases hreq
  · decide +kernel

/-! ## Immutable fields -/

section Immutable

variable [Outside] {f : PolicyField}

def SameField (p q : KeyPolicy) : PolicyField → Prop
  | .Owner => p.principals.owner = q.principals.owner
  | .Managers => p.principals.managers = q.principals.managers
  | .Auditors => p.principals.auditors = q.principals.auditors
  | .Tees => p.principals.tees = q.principals.tees
  | .Operations => p.operations = q.operations
  | .Lifecycle => p.lifecycle = q.lifecycle
  | .Mutability => p.mutability = q.mutability
  | .PendingProfiles => True

instance (p q : KeyPolicy) (f : PolicyField) : Decidable (SameField p q f) := by
  cases f <;> unfold SameField <;> infer_instance

section

omit [Outside]

theorem SameField.refl (p : KeyPolicy) (f : PolicyField) : SameField p p f := by
  cases f <;> simp [SameField]

theorem SameField.trans {p q t : KeyPolicy} (h : SameField p q f) (h' : SameField q t f) : SameField p t f := by
  cases f <;> first | exact Eq.trans h h' | trivial

theorem Accepted.sameField {old new : KeyPolicy} {role : CallerRole} (ha : Accepted old new role)
    (hf : f ∈ old.mutability.immutable) : SameField old new f := by
  by_contra hne
  refine ha.fields f ?_ hf
  cases f <;> simp_all [SameField, diff_policy_fields, mem_changed]

/-- The request makes a new TEE principal of `h` without a policy update. -/
inductive Pushes (h : String) (c : Call) (kv : Table) : Prop where
  | promote {r : KeyRecord} {id : UInt32} {approvals : List ApprovalToken} {pending : PendingProfile}
      {s : State} (hr : kv (.record h) = some (.record r))
      (hreq : c.request = .PromotePendingProfile h id approvals)
      (hop : (evaluate_op r.policy .PromoteProfile h approvals c.ctx
        (some ⟨profile_binding_digest pending.profile, r.policy_version⟩)).exec (start c kv).next = (.ok (), s))
      (hfind : find_pending r id = some pending) (hoids : missing_oid r.policy pending.profile = none)
  | migrate {r : KeyRecord} {profile : AttestationProfile} {source : PendingProfileSource}
      {claims : OidcClaims} {s : State} (hr : kv (.record h) = some (.record r))
      (hreq : c.request = .StagePendingProfile h profile source)
      (hwho : (resolve_caller r.policy c.ctx).exec (start c kv).next = (.ok none, s))
      (hclaims : c.ctx.oidc_claims = some claims) (hmanager : claims.is_manager = true)
      (hpending : .PendingProfiles ∉ r.policy.mutability.immutable)
      (hflag : r.policy.lifecycle.auto_migrate_to_next_attestation_profile = true)
      (hroll : rolls_from r.policy.principals.tees (normalise_profile profile) = true)
      (hoids : keeps_oids r.policy (normalise_profile profile) = true)

theorem sameField_push_tee (r : KeyRecord) (profile : AttestationProfile) (hf : f ≠ .Tees) :
    SameField r.policy (push_tee r profile).policy f := by
  cases f <;> first | exact absurd rfl hf | exact rfl | trivial

end

/-- An edit leaves an immutable field as it is, unless it pushes a TEE principal. -/
theorem Edit.sameField {c : Call} {kv : Table} {h : String} {r r' : KeyRecord} (e : Edit c kv h r r')
    (hr : kv (.record h) = some (.record r)) (hf : f ∈ r.policy.mutability.immutable)
    (hp : f = .Tees → ¬ Pushes h c kv) : SameField r.policy r'.policy f := by
  cases e with
  | same | stage _ _ | revoke _ => exact .refl _ _
  | update _ _ _ hok => exact (accepted_of_ok hok).sameField hf
  | migrate hreq hwho hclaims hm hpend hflag hroll hoids =>
    apply sameField_push_tee
    intro ht
    exact hp ht (.migrate hr hreq hwho hclaims hm hpend hflag hroll hoids)
  | promote hreq hop hfind hoids =>
    apply sameField_push_tee { r with pending_profiles := _ }
    intro ht
    exact hp ht (.promote hr hreq hop hfind hoids)

/-- Immutable rules and an immutable `f` stay as they are. -/
def Frozen (f : PolicyField) (a b : KeyRecord) : Prop :=
  .Mutability ∈ a.policy.mutability.immutable → f ∈ a.policy.mutability.immutable →
    SameField a.policy b.policy f ∧ a.policy.mutability = b.policy.mutability

omit [Outside] in
theorem Frozen.trans {a b d : KeyRecord} (h : Frozen f a b) (h' : Frozen f b d) : Frozen f a d := by
  intro hm hf
  obtain ⟨h1, h2⟩ := h hm hf
  obtain ⟨h3, h4⟩ := h' (h2 ▸ hm) (h2 ▸ hf)
  exact ⟨h1.trans h3, h2.trans h4⟩

/-- No requests change an immutable field, if none deletes the key and, for the TEE principals, none pushes a
profile. -/
theorem immutable_kept_unless_pushed (past future : List Call) (h : String) (f : PolicyField)
    (hd : NotDeleted h future)
    (hp : f = .Tees → ∀ pre c post, future = pre ++ c :: post → ¬ Pushes h c (serveAll (serveAll empty past) pre))
    (r : KeyRecord) (hr : serveAll empty past (.record h) = some (.record r))
    (hm : .Mutability ∈ r.policy.mutability.immutable) (hf : f ∈ r.policy.mutability.immutable) :
    ∃ r', serveAll (serveAll empty past) future (.record h) = some (.record r') ∧ SameField r.policy r'.policy f := by
  have hrun := run_record (P := Frozen f) (A := fun c kv => f = .Tees → ¬ Pushes h c kv)
    (fun _ _ _ => ⟨.refl _ _, rfl⟩) (fun _ _ _ => Frozen.trans)
    (fun hpush hr e hm hf => ⟨e.sameField hr hf hpush, e.sameField hr hm (fun ht => by cases ht)⟩)
    (keyed_empty.serveAll past) hd (fun pre c post heq ht => hp ht pre c post heq) hr
  obtain ⟨r', hr', hfrozen⟩ := hrun
  exact ⟨r', hr', (hfrozen hm hf).1⟩

end Immutable

open Sample in
/-- With the TEE principals immutable, an update that takes them away is refused. -/
theorem tees_kept_by_update :
    let p := policy [.Mutability, .Tees] false false
    let update := call p "alice" (.UpdatePolicy "k" { p with principals := { p.principals with tees := [] } } [])
    let later := [update, call p "alice" (.ExportKey "k" [])]
    (serve update (serveAll empty [create p])).1 = .Error "policy field Tees is immutable" ∧
      ∃ r', serveAll (serveAll empty [create p]) later (.record "k") = some (.record r') ∧
        SameField (record p).policy r'.policy .Tees := by
  intro p update later
  refine ⟨by decide +kernel, ?_⟩
  apply immutable_kept_unless_pushed [create p] later "k" .Tees
  · intro c hc approvals hreq
    rcases List.mem_pair.mp hc with rfl | rfl <;> cases hreq
  · intro _ pre c post heq hpush
    have hc : c ∈ later := by simp [heq]
    rcases List.mem_pair.mp hc with rfl | rfl <;> cases hpush with
    | promote _ hreq _ _ _ => cases hreq
    | migrate _ hreq _ _ _ _ _ _ _ => cases hreq
  all_goals decide +kernel

open Sample in
theorem promotion_changes_immutable_tees :
    let p := policy [.Mutability, .Tees] false false
    ∃ r r', serveAll empty [create p] (.record "k") = some (.record r) ∧
      .Mutability ∈ r.policy.mutability.immutable ∧ .Tees ∈ r.policy.mutability.immutable ∧
      NotDeleted "k" [stage p, Sample.promote p] ∧
      serveAll (serveAll empty [create p]) [stage p, Sample.promote p] (.record "k") = some (.record r') ∧
      ¬ SameField r.policy r'.policy .Tees := by
  intro p
  -- the record after staging and promotion, read off from the run
  have hrun : ∃ r', serveAll (serveAll empty [create p]) [stage p, Sample.promote p] (.record "k") =
      some (.record r') ∧ r'.policy.principals.tees.length = 2 := by
    refine ⟨bump (EnclaveOs.Vault.promote (bump (push_pending (record p)
      ⟨0, profile "bb", .ManualImport, 1, "alice", false⟩)) 0 (profile "bb")), ?_, ?_⟩ <;> decide +kernel
  obtain ⟨r', hr', hlen⟩ := hrun
  refine ⟨record p, r', by decide +kernel, by decide +kernel, by decide +kernel, ?_, hr', ?_⟩
  · intro c hc approvals hreq
    rcases List.mem_pair.mp hc with rfl | rfl <;> cases hreq
  intro hsame
  have hone : (record p).policy.principals.tees.length = 1 := by decide +kernel
  rw [show (record p).policy.principals.tees = r'.policy.principals.tees from hsame] at hone
  omega

/-! ## Platform migration -/

section Migration

variable [Outside] {p : AttestationProfile} {h : String} {c : Call}

structure SameTerms (p q : AttestationProfile) : Prop where
  oids : ∀ x, x ∈ p.required_oids ↔ x ∈ q.required_oids
  servers : ∀ x, x ∈ p.attestation_servers ↔ x ∈ q.attestation_servers
  statuses : ∀ x, x ∈ p.acceptable_tcb_statuses ↔ x ∈ q.acceptable_tcb_statuses

section

omit [Outside]

theorem SameTerms.refl (p : AttestationProfile) : SameTerms p p :=
  ⟨fun _ => Iff.rfl, fun _ => Iff.rfl, fun _ => Iff.rfl⟩

theorem SameTerms.trans {p q t : AttestationProfile} (h : SameTerms p q) (h' : SameTerms q t) : SameTerms p t :=
  ⟨fun x => (h.oids x).trans (h'.oids x), fun x => (h.servers x).trans (h'.servers x),
    fun x => (h.statuses x).trans (h'.statuses x)⟩

theorem same_elements_iff {α : Type} [DecidableEq α] {a b : List α} :
    same_elements a b = true ↔ ∀ x, x ∈ a ↔ x ∈ b := by
  simp only [same_elements, Bool.and_eq_true, List.all_eq_true, List.contains_iff_mem]
  constructor
  · exact fun h x => ⟨h.1 x, h.2 x⟩
  · exact fun h => ⟨fun x => (h x).mp, fun x => (h x).mpr⟩

end

def Admits (kv : Table) (h : String) (p : AttestationProfile) : Prop :=
  ∃ r, kv (.record h) = some (.record r) ∧ .Tee p ∈ r.policy.principals.tees

def Enters (h : String) (c : Call) (kv : Table) (p : AttestationProfile) : Prop :=
  Admits (serve c kv).2 h p ∧ ¬ Admits kv h p

/-- The ways for a profile to come into a policy. -/
inductive Granted (h : String) (c : Call) (kv : Table) (p : AttestationProfile) : Prop where
  | create {material jwt : String} (hreq : c.request = .CreateKey h material jwt)
  | update {new : KeyPolicy} {approvals : List ApprovalToken} (hreq : c.request = .UpdatePolicy h new approvals)
  | promote {r : KeyRecord} {id : UInt32} {approvals : List ApprovalToken} {pending : PendingProfile} {s : State}
      (hr : kv (.record h) = some (.record r)) (hreq : c.request = .PromotePendingProfile h id approvals)
      (hfind : find_pending r id = some pending) (hp : p = pending.profile)
      (hop : (evaluate_op r.policy .PromoteProfile h approvals c.ctx
        (some ⟨profile_binding_digest pending.profile, r.policy_version⟩)).exec (start c kv).next = (.ok (), s))

/-- By the platform: a manager-role bearer who is no principal stages a runtime-only delta of an accepted `q`. -/
inductive Migrated (h : String) (c : Call) (kv : Table) (p : AttestationProfile) : Prop where
  | mk {r : KeyRecord} {q profile : AttestationProfile} {source : PendingProfileSource} {claims : OidcClaims}
      {s : State} (hr : kv (.record h) = some (.record r))
      (hreq : c.request = .StagePendingProfile h profile source)
      (hwho : (resolve_caller r.policy c.ctx).exec (start c kv).next = (.ok none, s))
      (hclaims : c.ctx.oidc_claims = some claims) (hmanager : claims.is_manager = true)
      (hpending : .PendingProfiles ∉ r.policy.mutability.immutable)
      (hflag : r.policy.lifecycle.auto_migrate_to_next_attestation_profile = true)
      (hq : .Tee q ∈ r.policy.principals.tees) (hterms : SameTerms p q)
      (hfamily : (family p.measurements).isSome ∧ family p.measurements = family q.measurements)

theorem enters_cases {kv : Table} (hk : Keyed kv)
    (he : Enters h c kv p) : Granted h c kv p ∨ Migrated h c kv p := by
  obtain ⟨⟨r', hr', hp⟩, hnot⟩ := he
  have hstep := serve_record hk c h
  rw [hr'] at hstep
  generalize hv : kv (.record h) = v at hstep
  cases hstep with
  | keep => exact absurd ⟨r', hv, hp⟩ hnot
  | create hreq _ => exact .inl (.create hreq)
  | save e =>
    rename_i r r1
    have hold : .Tee p ∉ r.policy.principals.tees := fun hmem => hnot ⟨r, hv, hmem⟩
    cases e with
    | same | stage _ _ | revoke _ => exact absurd hp hold
    | update hreq _ _ _ => exact .inl (.update hreq)
    | promote hreq hop hfind _ =>
      rcases List.mem_append.mp hp with hmem | hmem
      · exact absurd hmem hold
      · have heq := List.mem_singleton.mp hmem
        exact .inl (.promote hv hreq hfind (Principal.Tee.inj heq) hop)
    | migrate hreq hwho hclaims hm hpend hflag hroll _ =>
      rcases List.mem_append.mp hp with hmem | hmem
      · exact absurd hmem hold
      obtain rfl := Principal.Tee.inj (List.mem_singleton.mp hmem)
      obtain ⟨x, hx, hdelta⟩ := List.any_eq_true.mp hroll
      cases x with
      | Oidc _ _ _ | Fido2 _ _ => cases hdelta
      | Tee q =>
        simp only [runtime_only_delta, Bool.and_eq_true, beq_iff_eq] at hdelta
        obtain ⟨⟨⟨⟨⟨ho, hs⟩, ht⟩, hsome⟩, hfam⟩, -⟩ := hdelta
        exact .inr ⟨hv, hreq, hwho, hclaims, hm, hpend, hflag, hx,
          ⟨same_elements_iff.mp ho, same_elements_iff.mp hs, same_elements_iff.mp ht⟩, hsome, hfam⟩

theorem serveAll_append (kv : Table) (cs ds : List Call) :
    serveAll kv (cs ++ ds) = serveAll (serveAll kv cs) ds := List.foldl_append

/-- `q` entered by a grant, and the key has not been deleted since. -/
def Origin (h : String) (past : List Call) (q : AttestationProfile) : Prop :=
  ∃ pre c post, past = pre ++ c :: post ∧ Enters h c (serveAll empty pre) q ∧
    Granted h c (serveAll empty pre) q ∧
    ∀ mid rest, post = mid ++ rest → ∃ r, serveAll empty (pre ++ c :: mid) (.record h) = some (.record r)

theorem Origin.snoc {past : List Call} {q : AttestationProfile} (ho : Origin h past q)
    {r : KeyRecord} (hr : serveAll empty (past ++ [c]) (.record h) = some (.record r)) :
    Origin h (past ++ [c]) q := by
  obtain ⟨pre, d, post, rfl, he, hg, halive⟩ := ho
  refine ⟨pre, d, post ++ [c], by simp, he, hg, ?_⟩
  intro mid rest heq
  rcases List.eq_nil_or_concat rest with rfl | ⟨rest', x, rfl⟩
  · rw [List.append_nil] at heq
    subst heq
    exact ⟨r, by simpa using hr⟩
  · rw [List.concat_eq_append, ← List.append_assoc] at heq
    exact halive mid rest' (List.append_inj_left' heq rfl)

theorem origin_of_admits (past : List Call)
    (ha : Admits (serveAll empty past) h p) : ∃ q, Origin h past q ∧ SameTerms p q := by
  induction past using List.reverseRecOn generalizing p with
  | nil =>
    obtain ⟨r, hr, _⟩ := ha
    cases hr
  | append_singleton past c ih =>
    have hk : Keyed (serveAll empty past) := keyed_empty.serveAll past
    have hserve : serveAll empty (past ++ [c]) = (serve c (serveAll empty past)).2 := serveAll_append _ _ _
    obtain ⟨r, hr, hp⟩ := id ha
    by_cases hold : Admits (serveAll empty past) h p
    · obtain ⟨q, ho, ht⟩ := ih hold
      exact ⟨q, ho.snoc hr, ht⟩
    have he : Enters h c (serveAll empty past) p := ⟨hserve ▸ ha, hold⟩
    rcases enters_cases hk he with hg | hm
    · refine ⟨p, ⟨past, c, [], rfl, he, hg, ?_⟩, .refl p⟩
      intro mid rest heq
      obtain ⟨rfl, -⟩ := List.append_eq_nil_iff.mp heq.symm
      exact ⟨r, hr⟩
    · obtain ⟨hr0, _, _, _, _, _, _, hq, hterms, _⟩ := hm
      obtain ⟨q', ho, ht⟩ := ih ⟨_, hr0, hq⟩
      exact ⟨q', ho.snoc hr, hterms.trans ht⟩

theorem resolve_owner {policy : KeyPolicy} {ctx : RequestContext} {ref : PrincipalRef} {s s' : State}
    (hx : (resolve_caller policy ctx).exec s = (.ok (some (ref, .Owner)), s')) :
    ∃ claims, ctx.oidc_claims = some claims ∧ oidc_matches policy.principals.owner claims = true := by
  unfold resolve_caller at hx
  split at hx
  · rename_i res hres
    cases hx
    obtain ⟨claims, hc, hr⟩ := Option.bind_eq_some_iff.mp hres
    refine ⟨claims, hc, ?_⟩
    unfold resolve_oidc at hr
    split at hr
    · assumption
    split at hr
    · cases hr
    · split at hr <;> cases hr
  · split at hx
    · cases hx
    · obtain ⟨res, s1, _, h2⟩ := exec_bind_eq_ok.mp hx
      cases res <;> cases h2

/-- After any history, a profile becomes a TEE principal by a grant or as a migration; every TEE principal has
the terms of a granted one; and only the owner changes the flag. -/
theorem platform_migration_confined (past : List Call) (c : Call) (h : String) :
    (∀ p, Enters h c (serveAll empty past) p →
      Granted h c (serveAll empty past) p ∨ Migrated h c (serveAll empty past) p) ∧
    (∀ p, Admits (serveAll empty past) h p → ∃ q, Origin h past q ∧ SameTerms p q) ∧
    ∀ r r', serveAll empty past (.record h) = some (.record r) →
      (serve c (serveAll empty past)).2 (.record h) = some (.record r') →
      r.policy.lifecycle.auto_migrate_to_next_attestation_profile ≠
        r'.policy.lifecycle.auto_migrate_to_next_attestation_profile →
      ∃ new approvals claims, c.request = .UpdatePolicy h new approvals ∧
        c.ctx.oidc_claims = some claims ∧ oidc_matches r.policy.principals.owner claims = true := by
  have hk : Keyed (serveAll empty past) := keyed_empty.serveAll past
  refine ⟨?_, ?_, ?_⟩
  · exact fun p he => enters_cases hk he
  · exact fun p ha => origin_of_admits past ha
  intro r r' hr hr' hne
  have hstep := serve_record hk c h
  rw [hr, hr'] at hstep
  cases hstep with
  | keep => exact absurd rfl hne
  | save e =>
    cases e with
    | same | stage _ _ | revoke _ | migrate _ _ _ _ _ _ _ _ | promote _ _ _ _ => exact absurd rfl hne
    | update hreq _ hrole hok =>
      obtain rfl := (accepted_of_ok hok).flag hne
      obtain ⟨claims, hc, hm⟩ := resolve_owner hrole
      exact ⟨_, _, claims, hreq, hc, hm⟩

end Migration

open Sample in
/-- The platform rolls a key with the flag set to the next build. -/
theorem platform_rolls_granted_terms :
    let p := policy [.Owner, .Mutability] true false
    Admits (serveAll empty [create p, roll p]) "k" (profile "bb") ∧
      ∃ q, Origin "k" [create p, roll p] q ∧ SameTerms (profile "bb") q := by
  intro p
  have hadmits : Admits (serveAll empty [create p, roll p]) "k" (profile "bb") := by
    refine ⟨bump (push_tee (record p) (profile "bb")), ?_, ?_⟩ <;> decide +kernel
  exact ⟨hadmits, (platform_migration_confined [create p, roll p] (roll p) "k").2.1 _ hadmits⟩

end EnclaveOs.Vault
