import EnclaveOs.Vault.Release

/-!
# The owner index

The index is a second copy of who owns which key. Only `CreateKey` and `DeleteKey` write it.
-/

open Function (update update_of_ne update_self)

namespace EnclaveOs.Vault

open Lib Lib.Method

def indexOf (kv : Table) (sub : String) : List String := ((kv (.index sub)).map handles_of).getD []

def ownerOf (kv : Table) (h : String) : Option String :=
  match kv (.record h) with
  | some (.record r) => owner_oidc_sub r.policy.principals.owner
  | _ => none

/-- Each subject's list holds the keys it owns, each once. -/
structure IndexCorrect (kv : Table) : Prop where
  nodup : ∀ sub, (indexOf kv sub).Nodup
  mem : ∀ sub h, h ∈ indexOf kv sub ↔ ownerOf kv h = some sub

/-! ## Calls that leave the index alone -/

def SameIndex (s s' : State) : Prop := ∀ sub, s'.kv (.index sub) = s.kv (.index sub)

theorem SameIndex.trans {a b c : State} (h : SameIndex a b) (h' : SameIndex b c) : SameIndex a c :=
  fun sub => (h' sub).trans (h sub)

/-- Records are not taken away. -/
structure Adds (s s' : State) : Prop where
  index : SameIndex s s'
  present : ∀ h, s.kv (.record h) ≠ none → s'.kv (.record h) ≠ none
  world : ∃ n, ∀ i, s'.world i = s.world (i + n)

theorem Adds.trans {a b c : State} (h : Adds a b) (h' : Adds b c) : Adds a c := by
  obtain ⟨n, hn⟩ := h.world
  obtain ⟨m, hm⟩ := h'.world
  refine ⟨h.index.trans h'.index, fun k hk => h'.present k (h.present k hk), m + n, ?_⟩
  intro i
  rw [hm, hn, Nat.add_assoc]

theorem Spares.adds {s s' : State} (h : Spares s s') : Adds s s' where
  index sub := h.table _ (by simp)
  present k hk := by rwa [h.table _ (by simp)]
  world := h.world

section Frame

variable {α β : Type} {r : KeyRecord} {op caller reason : String} {d : AuditDecision}

theorem adds_calm {m : VaultM α} (h : Calm m) : Keeps Adds m := fun s => (h s).adds

theorem adds_bind {x : VaultM α} {f : α → VaultM β} (hx : Keeps Adds x) (hf : ∀ a, Keeps Adds (f a)) :
    Keeps Adds (x >>= f) :=
  Keeps.bind (fun _ _ _ h h' => h.trans h') hx hf

theorem adds_pure {a : α} : Keeps Adds (pure a : VaultM α) := adds_calm calm_pure

theorem adds_after {x : VaultM α} {f : α → VaultM β} (hx : Calm x) (hf : ∀ a, Keeps Adds (f a)) :
    Keeps Adds (x >>= f) := adds_bind (adds_calm hx) hf

theorem adds_put {key : KvKey} {v : Stored} (hi : ∀ sub, key ≠ .index sub) : Keeps Adds (kvPut key v) := by
  intro s
  refine wp_kvPut (Q := fun _ s' => Adds s s') (fun _ => (Spares.next s).adds) ?_
  refine ⟨fun sub => ?_, fun h hh => ?_, 1, fun _ => rfl⟩
  · dsimp only
    rw [update_of_ne (fun he => hi sub he.symm)]
  dsimp only
  by_cases hk : KvKey.record h = key
  · subst hk
    simp
  · rwa [update_of_ne hk]

theorem adds_audit_and_save : Keeps Adds (audit_and_save r op caller d reason) := by
  apply adds_bind
  · apply adds_after calm_now_secs
    intro now
    exact adds_bind (adds_put fun _ => by simp) fun _ => adds_pure
  · exact fun r => adds_put fun _ => by simp

theorem adds_audit_if_possible : Keeps Adds (audit_if_possible r op caller d reason) :=
  adds_bind adds_audit_and_save fun _ => adds_pure

theorem adds_orDeny {check : VaultM α} (hc : Calm check) : Keeps Adds (orDeny r op caller check) := by
  apply adds_after hc.attempt
  intro res
  rcases res with e | a
  · exact adds_bind adds_audit_if_possible fun _ => adds_calm calm_throw
  · exact adds_pure

end Frame

def Healthy (s : State) : Prop := ∀ n, (s.world n).kv_fault = none

theorem Healthy.adds {s s' : State} (hs : Healthy s) (h : Adds s s') : Healthy s' := by
  obtain ⟨n, hn⟩ := h.world
  intro i
  rw [hn]
  exact hs _

/-! ## The two calls on the index -/

def addHandle (l : List String) (h : String) : List String := if l.contains h then l else l ++ [h]

theorem mem_addHandle {l : List String} {h x : String} : x ∈ addHandle l h ↔ x ∈ l ∨ x = h := by
  unfold addHandle
  split
  · rename_i hc
    constructor
    · exact .inl
    · rintro (hx | rfl)
      · exact hx
      · simpa using hc
  · simp

theorem nodup_addHandle {l : List String} (hl : l.Nodup) (h : String) : (addHandle l h).Nodup := by
  unfold addHandle
  split
  · exact hl
  rename_i hc
  rw [List.nodup_append]
  refine ⟨hl, List.nodup_singleton h, ?_⟩
  intro a ha b hb
  obtain rfl := List.mem_singleton.mp hb
  rintro rfl
  exact hc (by simpa using ha)

@[simp] theorem indexOf_put_self (kv : Table) (sub : String) (l : List String) :
    indexOf (update kv (.index sub) (some (.handles l))) sub = l := by
  simp [indexOf, handles_of]

theorem indexOf_put_other {kv : Table} {sub sub' : String} (hne : sub' ≠ sub) (v : Option Stored) :
    indexOf (update kv (.index sub) v) sub' = indexOf kv sub' := by
  unfold indexOf
  rw [update_of_ne (by simpa using hne)]

theorem SameIndex.indexOf {s s' : State} (h : SameIndex s s') (sub : String) :
    indexOf s'.kv sub = indexOf s.kv sub := by
  unfold Vault.indexOf
  rw [h sub]

section Index

variable {s : State} {sub h : String}

/-- A failed read counts as an empty list. -/
def readIndex (s : State) (sub : String) : List String :=
  if (s.world 0).kv_fault = none then indexOf s.kv sub else []

theorem exec_add_index (s : State) (sub h : String) : (add_to_owner_index sub h).exec s =
    (kvPut (.index sub) (.handles (addHandle (readIndex s sub) h))).exec s.next := by
  unfold add_to_owner_index readIndex
  rcases h0 : (s.world 0).kv_fault with _ | e
  · rw [exec_bind_ok (exec_attempt (exec_kvGet_ok h0)), if_pos rfl, indexOf]
    rcases s.kv (.index sub) with _ | b <;> rfl
  · rw [exec_bind_ok (exec_attempt (exec_kvGet_error h0))]
    rfl

def unlist (kv : Table) (sub h : String) : Table :=
  match kv (.index sub) with
  | some b => update kv (.index sub) (some (.handles ((handles_of b).filter (· != h))))
  | none => kv

theorem exec_remove_index (sub h : String) (hs : Healthy s) :
    ∃ s', (remove_from_owner_index sub h).exec s = (.ok (), s') ∧ s'.kv = unlist s.kv sub h := by
  unfold remove_from_owner_index unlist
  rw [exec_bind_ok (exec_attempt (exec_kvGet_ok (hs 0)))]
  rcases s.kv (.index sub) with _ | b
  · exact ⟨_, rfl, rfl⟩
  · exact ⟨_, exec_kvPut_ok (s := s.next) (hs 1), rfl⟩

theorem unlist_record (kv : Table) (sub h h' : String) : unlist kv sub h (.record h') = kv (.record h') := by
  unfold unlist
  rcases kv (.index sub) with _ | b
  · rfl
  · exact update_of_ne (by simp) _ _

theorem indexOf_unlist_self (kv : Table) (sub h : String) :
    indexOf (unlist kv sub h) sub = (indexOf kv sub).filter (· != h) := by
  unfold unlist
  rcases hb : kv (.index sub) with _ | b
  · simp [indexOf, hb]
  dsimp only
  rw [indexOf_put_self]
  simp [indexOf, hb]

theorem indexOf_unlist_other {kv : Table} {sub sub' : String} (hne : sub' ≠ sub) (h : String) :
    indexOf (unlist kv sub h) sub' = indexOf kv sub' := by
  unfold unlist
  rcases kv (.index sub) with _ | b
  · rfl
  · exact indexOf_put_other hne _

end Index

/-! ## Creation -/

section Create

variable [Outside] {c : Call} {kv : Table} {h material jwt sub e : String} {ctx : RequestContext}
  {r : KeyRecord} {s s' : State}

def create_checks (handle material_b64 grant_jwt : String) (ctx : RequestContext) : VaultM (KeyRecord × String) := do
  let p ← prepare_record handle material_b64 grant_jwt ctx
  let existing ← Method.mapError ("kv get failed: " ++ ·) (kvGet (.record handle))
  refuse existing.isSome "handle already exists"
  audit_and_save p.1 "CreateKey" (caller_str ctx) .Allowed ("owner=" ++ p.2)
  pure p

theorem handle_create_eq (handle material jwt : String) (ctx : RequestContext) :
    handle_create handle material jwt ctx = (do
      let p ← create_checks handle material jwt ctx
      Method.mapError ("kv owner index: " ++ ·) (add_to_owner_index p.2 handle)
      pure (.KeyCreated handle p.1.expires_at)) := by
  simp only [handle_create, create_checks, bind_assoc, pure_bind]

theorem adds_create_checks : Keeps Adds (create_checks h material jwt ctx) := by
  apply adds_after calm_prepare_record
  intro p
  apply adds_after (calm_kvGet.mapError _)
  intro v
  apply adds_after calm_refuse
  exact fun _ => adds_bind adds_audit_and_save fun _ => adds_pure

omit [Outside] in
theorem kvGet_ok {key : KvKey} {v : Option Stored} (hx : (kvGet key).exec s = (.ok v, s')) :
    v = s.kv key ∧ s' = s.next := by
  rcases hf : (s.world 0).kv_fault with _ | e
  · rw [exec_kvGet_ok hf] at hx
    cases hx
    exact ⟨rfl, rfl⟩
  · rw [exec_kvGet_error hf] at hx
    cases hx

/-- The handle was free, and the owner is the subject to be listed. -/
theorem create_checks_ok (hx : (create_checks h material jwt ctx).exec s = (.ok (r, sub), s')) :
    s.kv (.record h) = none ∧ s'.kv (.record h) = some (.record (bump r)) ∧
      (∀ h', h' ≠ h → s'.kv (.record h') = s.kv (.record h')) ∧
      owner_oidc_sub r.policy.principals.owner = some sub := by
  unfold create_checks at hx
  obtain ⟨⟨r0, sub0⟩, s1, h1, hx⟩ := exec_bind_eq_ok.mp hx
  obtain ⟨v, s2, h2, hx⟩ := exec_bind_eq_ok.mp hx
  obtain ⟨_, s3, h3, hx⟩ := exec_bind_eq_ok.mp hx
  obtain ⟨_, s4, h4, hx⟩ := exec_bind_eq_ok.mp hx
  cases hx
  have hsp := calm_prepare_record.of_exec h1
  have hrec : ∀ h', s1.next.kv (.record h') = s.kv (.record h') := fun h' => hsp.table _ (by simp)
  obtain ⟨rfl, rfl⟩ := kvGet_ok (exec_mapError_ok.mp h2)
  obtain ⟨hfree, rfl⟩ := refuse_ok h3
  obtain ⟨grant, m, pk, now, rfl, rfl, howner⟩ := prepare_record_ok h1
  have ha := audited_of_exec h4
  generalize s'.kv = kv' at ha
  cases ha with
  | both ts =>
    refine ⟨?_, saved_self _ (new_record h grant m pk now) _, ?_, ?_⟩
    · rw [← hrec h]
      simpa [State.next] using hfree
    · intro h' hne
      rw [saved_other _ (new_record h grant m pk now) _ hne, hrec]
    · rw [← howner]
      change owner_oidc_sub (normalise_principal grant.policy.principals.owner) = _
      cases grant.policy.principals.owner <;> rfl

theorem create_checks_error (hx : (create_checks h material jwt ctx).exec s = (.error e, s')) (h' : String) :
    s'.kv (.record h') = s.kv (.record h') := by
  unfold create_checks at hx
  rcases exec_bind_eq_error.mp hx with hx | ⟨p, s1, h1, hx⟩
  · exact (calm_prepare_record.of_exec hx).table _ (by simp)
  rw [← (calm_prepare_record.of_exec h1).table (.record h') (by simp)]
  rcases exec_bind_eq_error.mp hx with hx | ⟨v, s2, h2, hx⟩
  · exact ((calm_kvGet.mapError _).of_exec hx).table _ (by simp)
  rw [← ((calm_kvGet.mapError _).of_exec h2).table (.record h') (by simp)]
  rcases exec_bind_eq_error.mp hx with hx | ⟨_, s3, h3, hx3⟩
  · exact (calm_refuse.of_exec hx).table _ (by simp)
  obtain ⟨-, rfl⟩ := refuse_ok h3
  rcases exec_bind_eq_error.mp hx3 with hx4 | ⟨_, s4, _, hx4⟩
  · have ha := audited_of_exec hx4
    generalize s'.kv = kv' at ha
    cases ha with
    | nothing e => rfl
    | entry e ts => rw [logged_record]
  · cases hx4

/-- The ways that `handle_create` can end, with what is then stored. -/
inductive Creation (c : Call) (kv : Table) (h material jwt : String) : VaultResponse × Table → Prop where
  | refused {e : String} {s : State}
      (hx : (create_checks h material jwt c.ctx).exec (start c kv) = (.error e, s)) :
      Creation c kv h material jwt (.Error e, s.kv)
  | unlisted {r : KeyRecord} {sub e : String} {s : State}
      (hx : (create_checks h material jwt c.ctx).exec (start c kv) = (.ok (r, sub), s))
      (hf : (s.world 1).kv_fault = some e) :
      Creation c kv h material jwt (.Error ("kv owner index: " ++ e), s.kv)
  | listed {r : KeyRecord} {sub : String} {s : State}
      (hx : (create_checks h material jwt c.ctx).exec (start c kv) = (.ok (r, sub), s))
      (hf : (s.world 1).kv_fault = none) :
      Creation c kv h material jwt (.KeyCreated h r.expires_at,
        update s.kv (.index sub) (some (.handles (addHandle (readIndex s sub) h))))

theorem creation (kv : Table) (hreq : c.request = .CreateKey h material jwt) :
    Creation c kv h material jwt (serve c kv) := by
  rw [serve, hreq, dispatch, ← start, handle_create_eq]
  rcases hx : (create_checks h material jwt c.ctx).exec (start c kv) with ⟨e | ⟨r, sub⟩, s⟩
  · rw [exec_bind_error hx]
    exact .refused hx
  rw [exec_bind_ok hx]
  rcases hf : (s.world 1).kv_fault with _ | e
  · rw [exec_bind_ok (exec_mapError_ok.mpr ((exec_add_index s sub h).trans (exec_kvPut_ok hf)))]
    exact .listed hx hf
  · rw [exec_bind_error (exec_mapError_error.mpr ⟨e, (exec_add_index s sub h).trans (exec_kvPut_error hf), rfl⟩)]
    exact .unlisted (s := s) hx hf

theorem indexOf_create_checks {res : Except String (KeyRecord × String)} {s : State}
    (hx : (create_checks h material jwt c.ctx).exec (start c kv) = (res, s)) (sub : String) :
    indexOf s.kv sub = indexOf kv sub :=
  (adds_create_checks.of_exec hx).index.indexOf sub

end Create

/-! ## Deletion -/

section Delete

variable [Outside] {h sub : String} {approvals : List ApprovalToken} {ctx : RequestContext} {s s' : State}

def delete_checks (handle : String) (approvals : List ApprovalToken) (ctx : RequestContext) : VaultM String := do
  let record ← load_record handle
  orDeny record "DeleteKey" (caller_str ctx) (evaluate_op record.policy .DeleteKey handle approvals ctx none)
  match owner_oidc_sub record.policy.principals.owner with
  | none => throw "policy owner is not OIDC; cannot index"
  | some owner_sub => do
    audit_if_possible record "DeleteKey" (caller_str ctx) .Allowed ""
    pure owner_sub

theorem handle_delete_eq (handle : String) (approvals : List ApprovalToken) (ctx : RequestContext) :
    handle_delete handle approvals ctx = (do
      let owner_sub ← delete_checks handle approvals ctx
      let _ ← Method.mapError ("kv delete failed: " ++ ·) (kvDelete (.record handle))
      let _ ← (Method.attempt (remove_from_owner_index owner_sub handle) : VaultM (Except String Unit))
      pure .KeyDeleted) := by
  unfold handle_delete delete_checks
  simp only [bind_assoc]
  congr 1
  funext record
  congr 1
  funext _
  rcases owner_oidc_sub record.policy.principals.owner with _ | sub
  · rfl
  · simp only [bind_assoc, pure_bind]

theorem adds_delete_checks : Keeps Adds (delete_checks h approvals ctx) := by
  apply adds_after calm_load_record
  intro r
  apply adds_bind (adds_orDeny calm_evaluate_op)
  intro _
  split
  · exact adds_calm calm_throw
  · exact adds_bind adds_audit_if_possible fun _ => adds_pure

theorem delete_checks_ok (hx : (delete_checks h approvals ctx).exec s = (.ok sub, s')) :
    ownerOf s.kv h = some sub := by
  unfold delete_checks at hx
  obtain ⟨r, s1, h1, hx1⟩ := exec_bind_eq_ok.mp hx
  obtain ⟨_, s2, _, hx2⟩ := exec_bind_eq_ok.mp hx1
  obtain ⟨hr, rfl⟩ := load_record_ok h1
  unfold ownerOf
  rw [hr]
  dsimp only
  rcases ho : owner_oidc_sub r.policy.principals.owner with _ | sub'
  · rw [ho] at hx2
    cases hx2
  rw [ho] at hx2
  obtain ⟨_, s3, _, hx3⟩ := exec_bind_eq_ok.mp hx2
  cases hx3
  rfl

end Delete

/-! ## Every request -/

section Invariant

variable {kv kv' : Table} {h sub : String}

theorem ownerOf_congr (hr : kv' (.record h) = kv (.record h)) : ownerOf kv' h = ownerOf kv h := by
  unfold ownerOf
  rw [hr]

section

variable (hi : IndexCorrect kv)

include hi

theorem IndexCorrect.of_same (hidx : ∀ sub, indexOf kv' sub = indexOf kv sub)
    (ho : ∀ h, ownerOf kv' h = ownerOf kv h) : IndexCorrect kv' where
  nodup sub := by
    rw [hidx]
    exact hi.nodup sub
  mem sub h := by
    rw [hidx, ho]
    exact hi.mem sub h

variable (hrest : ∀ h', h' ≠ h → ownerOf kv' h' = ownerOf kv h')
  (hother : ∀ sub', sub' ≠ sub → indexOf kv' sub' = indexOf kv sub')

include hrest hother

theorem IndexCorrect.change
    (hothers : ∀ sub', sub' ≠ sub → (ownerOf kv h = some sub' ↔ ownerOf kv' h = some sub'))
    (hnodup : (indexOf kv' sub).Nodup)
    (hmem : ∀ h', h' ∈ indexOf kv' sub ↔ if h' = h then ownerOf kv' h = some sub else h' ∈ indexOf kv sub) :
    IndexCorrect kv' where
  nodup sub' := by
    by_cases hs : sub' = sub
    · exact hs ▸ hnodup
    · rw [hother sub' hs]
      exact hi.nodup sub'
  mem sub' h' := by
    by_cases hs : sub' = sub
    · subst hs
      rw [hmem]
      by_cases hh : h' = h
      · simp [hh]
      · simp [hh, hi.mem, hrest h' hh]
    · rw [hother sub' hs, hi.mem]
      by_cases hh : h' = h
      · rw [hh, hothers sub' hs]
      · rw [hrest h' hh]

theorem IndexCorrect.add (hfree : ownerOf kv h = none) (hnew : ownerOf kv' h = some sub)
    (hidx : indexOf kv' sub = addHandle (indexOf kv sub) h) : IndexCorrect kv' := by
  refine hi.change hrest hother (fun sub' hs => ?_) (hidx ▸ nodup_addHandle (hi.nodup sub) h) fun h' => ?_
  · simp [hfree, hnew, Ne.symm hs]
  · rw [hidx, mem_addHandle]
    by_cases hh : h' = h <;> simp [hh, hnew]

theorem IndexCorrect.remove (hold : ownerOf kv h = some sub) (hnew : ownerOf kv' h = none)
    (hidx : indexOf kv' sub = (indexOf kv sub).filter (· != h)) : IndexCorrect kv' := by
  refine hi.change hrest hother (fun sub' hs => ?_) (hidx ▸ (hi.nodup sub).filter _) fun h' => ?_
  · simp [hold, hnew, Ne.symm hs]
  · rw [hidx, List.mem_filter]
    by_cases hh : h' = h <;> simp [hh, hnew]

end

variable [Outside] {c : Call}

theorem RecordStep.present {v v' : Option Stored} (hstep : RecordStep c kv h v v')
    (hd : ∀ a, c.request ≠ .DeleteKey h a) (hv : v ≠ none) : v' ≠ none := by
  cases hstep with
  | keep => exact hv
  | save e | create hreq hprep => simp
  | delete hreq hop => exact absurd hreq (hd _)

theorem ownerOf_step (hstep : RecordStep c kv h (kv (.record h)) (kv' (.record h)))
    (hc : ∀ m j, c.request ≠ .CreateKey h m j) (hkept : kv (.record h) ≠ none → kv' (.record h) ≠ none)
    (hup : ∀ new a, c.request = .UpdatePolicy h new a → ownerOf kv' h = ownerOf kv h) :
    ownerOf kv' h = ownerOf kv h := by
  unfold ownerOf at hup ⊢
  generalize kv (.record h) = v at *
  generalize kv' (.record h) = v' at *
  cases hstep with
  | keep => rfl
  | create hreq _ => exact absurd hreq (hc _ _)
  | delete _ _ => exact absurd rfl (hkept (by simp))
  | save e =>
    cases e with
    | update hreq _ _ _ => exact hup _ _ hreq
    | same | stage _ _ | migrate _ _ _ _ _ _ _ _ | promote _ _ _ _ | revoke _ => rfl

def Faultless (c : Call) : Prop := ∀ n, (c.world n).kv_fault = none

/-- No update of the call changes whose key it is. -/
def KeepsOwner (c : Call) (kv : Table) : Prop :=
  ∀ h new approvals, c.request = .UpdatePolicy h new approvals → ownerOf (serve c kv).2 h = ownerOf kv h

theorem index_create (hi : IndexCorrect kv) (hf : Faultless c) {material jwt : String}
    (hreq : c.request = .CreateKey h material jwt) : IndexCorrect (serve c kv).2 := by
  have hcr := creation kv hreq
  have hhealthy {res : Except String (KeyRecord × String)} {s : State}
      (hx : (create_checks h material jwt c.ctx).exec (start c kv) = (res, s)) : Healthy s :=
    Healthy.adds (s := start c kv) hf (adds_create_checks.of_exec hx)
  generalize serve c kv = out at hcr ⊢
  cases hcr with
  | refused hx => exact hi.of_same (indexOf_create_checks hx) fun h' => ownerOf_congr (create_checks_error hx h')
  | unlisted hx hfault =>
    rw [hhealthy hx 1] at hfault
    cases hfault
  | @listed r sub s hx _ =>
    obtain ⟨hfree, hnew, hrest, howner⟩ := create_checks_ok hx
    have hidx := indexOf_create_checks hx
    show IndexCorrect (update _ _ _)
    refine hi.add (h := h) ?_ (fun sub' hne => (indexOf_put_other hne _).trans (hidx sub')) ?_ (?_ : _ = some sub) ?_
    · intro h' hne
      apply ownerOf_congr
      rw [update_of_ne (by simp), hrest h' hne]
      rfl
    · unfold ownerOf
      rw [show kv (.record h) = none from hfree]
    · unfold ownerOf
      rw [update_of_ne (by simp), hnew]
      exact howner
    · rw [indexOf_put_self, readIndex, if_pos (hhealthy hx 0), hidx]

theorem index_delete (hi : IndexCorrect kv) (hk : Keyed kv) (hf : Faultless c) {approvals : List ApprovalToken}
    (hreq : c.request = .DeleteKey h approvals) : IndexCorrect (serve c kv).2 := by
  -- every record but that of `h` keeps its owner, and so does that of `h` unless it is deleted
  have howner : ∀ h', (kv (.record h') ≠ none → (serve c kv).2 (.record h') ≠ none) →
      ownerOf (serve c kv).2 h' = ownerOf kv h' := by
    intro h' hkept
    apply ownerOf_step (serve_record hk c h') _ hkept
    · exact fun _ _ hup => by rw [hreq] at hup; cases hup
    · exact fun _ _ => by rw [hreq]; simp
  have hsnd := serve_snd c kv
  rw [hreq] at hsnd
  change _ = ((handle_delete h approvals c.ctx).exec _).2.kv at hsnd
  rw [handle_delete_eq] at hsnd
  rcases hx : (delete_checks h approvals c.ctx).exec (start c kv) with ⟨e | sub, s1⟩
  · rw [exec_bind_error hx] at hsnd
    have hadds := adds_delete_checks.of_exec hx
    have hidx : ∀ sub, indexOf (serve c kv).2 sub = indexOf kv sub := by
      intro sub
      rw [hsnd]
      exact hadds.index.indexOf sub
    apply hi.of_same hidx
    intro h'
    apply howner
    rw [hsnd]
    exact hadds.present h'
  · have hadds := adds_delete_checks.of_exec hx
    have hs1 : Healthy s1 := Healthy.adds (s := start c kv) hf hadds
    have hdel : (mapError ("kv delete failed: " ++ ·) (kvDelete (.record h))).exec s1 = _ :=
      exec_mapError_ok.mpr (exec_kvOp_ok (hs1 0))
    obtain ⟨s3, hrem, hkv3⟩ := exec_remove_index sub h
      (s := ⟨update s1.kv (.record h) none, s1.next.world⟩) fun n => hs1 (n + 1)
    rw [exec_bind_ok hx, exec_bind_ok hdel, exec_bind_ok (exec_attempt hrem)] at hsnd
    replace hsnd : (serve c kv).2 = unlist (update s1.kv (.record h) none) sub h := hsnd.trans hkv3
    have hidx : ∀ sub', indexOf (update s1.kv (.record h) none) sub' = indexOf kv sub' := by
      intro sub'
      unfold indexOf
      rw [update_of_ne (by simp), hadds.index sub']
      rfl
    refine hi.remove ?_ ?_ (delete_checks_ok hx) ?_ ?_
    · intro h' hne
      apply howner
      rw [hsnd, unlist_record, update_of_ne (by simpa using hne)]
      exact hadds.present h'
    · intro sub' hne
      rw [hsnd, indexOf_unlist_other hne, hidx]
    · unfold ownerOf
      rw [hsnd, unlist_record, update_self]
    · rw [hsnd, indexOf_unlist_self, hidx]

theorem sameIndex_serve (hk : Keyed kv) (hi : ¬ Indexes c) (sub : String) :
    indexOf (serve c kv).2 sub = indexOf kv sub := by
  unfold indexOf
  rw [(serve_index hk c).resolve_left hi]

theorem IndexCorrect.step (hi : IndexCorrect kv) (hk : Keyed kv) (hf : Faultless c) (ho : KeepsOwner c kv) :
    IndexCorrect (serve c kv).2 := by
  by_cases hindexes : Indexes c
  · rcases hindexes with ⟨h, m, j, hreq⟩ | ⟨h, a, hreq⟩
    · exact index_create hi hf hreq
    · exact index_delete hi hk hf hreq
  obtain ⟨hc, hd⟩ := not_or.mp hindexes
  apply hi.of_same (sameIndex_serve hk hindexes)
  intro h
  have hstep := serve_record hk c h
  refine ownerOf_step hstep (fun m j hreq => hc ⟨h, m, j, hreq⟩) ?_ (ho h)
  exact hstep.present fun a hreq => hd ⟨h, a, hreq⟩

end Invariant

/-! ## Listing -/

section Listing

variable {kv : Table} {s : State}

def isKey (kv : Table) (h : String) : Bool :=
  match kv (.record h) with
  | some (.record _) => true
  | _ => false

theorem isKey_of_owner {h sub : String} (ho : ownerOf kv h = some sub) : isKey kv h = true := by
  unfold ownerOf at ho
  unfold isKey
  split at ho
  · rfl
  · cases ho

theorem exec_list_entries (hs : Healthy s) (hk : Keyed s.kv) (l : List String) :
    ∃ keys s', (list_entries l).exec s = (.ok keys, s') ∧ keys.map (·.handle) = l.filter (isKey s.kv) := by
  induction l generalizing s with
  | nil => exact ⟨[], s, rfl, rfl⟩
  | cons h l ih =>
    obtain ⟨keys, s', hx, hkeys⟩ := ih (s := s.next) (fun n => hs (n + 1)) hk
    unfold list_entries
    rw [exec_bind_ok (exec_attempt (exec_kvGet_ok (hs 0))), List.filter_cons]
    rcases hv : s.kv (.record h) with _ | (r | _ | _ | _)
    case some.record =>
      refine ⟨⟨r.handle, r.key_type, r.expires_at⟩ :: keys, s', ?_, ?_⟩
      · dsimp only
        rw [exec_bind_ok hx]
        rfl
      · rw [if_pos (by simp [isKey, hv]), List.map_cons, hkeys, hk h r hv]
        rfl
    all_goals
      have hno : isKey s.kv h = false := by simp [isKey, hv]
      exact ⟨keys, s', hx, by simpa [hno, State.next] using hkeys⟩

variable [Outside]

theorem serve_list {c : Call} {claims : OidcClaims} (hk : Keyed kv) (hf : Faultless c)
    (hreq : c.request = .ListKeys) (hc : c.ctx.oidc_claims = some claims) :
    ∃ keys, (serve c kv).1 = .KeyList keys ∧ keys.map (·.handle) = (indexOf kv claims.sub).filter (isKey kv) := by
  obtain ⟨keys, s', hx, hkeys⟩ := exec_list_entries (s := (start c kv).next) (fun n => hf (n + 1)) hk
    (indexOf kv claims.sub)
  refine ⟨keys, ?_, hkeys⟩
  have hlist : (handle_list c.ctx).exec (start c kv) = (.ok (.KeyList keys), s') := by
    unfold handle_list
    rw [hc]
    dsimp only
    rw [exec_bind_ok (exec_mapError_ok.mpr (exec_kvGet_ok (s := start c kv) (hf 0)))]
    exact exec_bind_ok hx
  rw [serve, hreq, dispatch, ← start, hlist]

/-- Without KV failures `ListKeys` answers with the caller's keys, each once. -/
def ListsOwned (kv : Table) : Prop :=
  ∀ c claims, c.request = .ListKeys → c.ctx.oidc_claims = some claims → Faultless c →
    ∃ keys, (serve c kv).1 = .KeyList keys ∧ (keys.map (·.handle)).Nodup ∧
      ∀ h, h ∈ keys.map (·.handle) ↔ ownerOf kv h = some claims.sub

theorem IndexCorrect.listsOwned (hi : IndexCorrect kv) (hk : Keyed kv) : ListsOwned kv := by
  intro c claims hreq hc hf
  obtain ⟨keys, hresp, hkeys⟩ := serve_list hk hf hreq hc
  refine ⟨keys, hresp, ?_, fun h => ?_⟩
  · rw [hkeys]
    exact (hi.nodup _).filter _
  · rw [hkeys, List.mem_filter, hi.mem]
    exact and_iff_left_of_imp isKey_of_owner

def listing (sub : String) : Call where
  request := .ListKeys
  ctx := ⟨some ⟨sub, [], false, [], 0, 0, none, none⟩, none, none⟩
  world := fun _ => ⟨none, none, none, fun _ _ => .error "", none, fun _ _ => .error ""⟩

theorem ListsOwned.mem_iff (hl : ListsOwned kv) (hk : Keyed kv) (sub h : String) :
    (h ∈ indexOf kv sub ∧ isKey kv h = true) ↔ ownerOf kv h = some sub := by
  have hf : Faultless (listing sub) := fun _ => rfl
  obtain ⟨keys, hresp, -, hmem⟩ := hl (listing sub) _ rfl rfl hf
  obtain ⟨keys', hresp', hkeys⟩ := serve_list hk hf rfl rfl
  rw [hresp] at hresp'
  cases hresp'
  rw [← hmem h, hkeys, List.mem_filter]

theorem keepsOwner_of_listsOwned {c : Call} (hi : IndexCorrect kv) (hk : Keyed kv)
    (hl : ListsOwned (serve c kv).2) : KeepsOwner c kv := by
  intro h new approvals hreq
  have hidx := sameIndex_serve hk (c := c) (by simp [Indexes, hreq])
  have hmem := fun sub => hl.mem_iff (hk.serve c) sub h
  simp only [hidx, hi.mem] at hmem
  cases ho : ownerOf kv h with
  | none =>
    -- a handle that was in no list still is in none
    rcases hn : ownerOf (serve c kv).2 h with _ | sub
    · rfl
    have hold := ((hmem sub).mpr hn).1
    rw [ho] at hold
    cases hold
  | some sub =>
    refine (hmem sub).mp ⟨ho, ?_⟩
    have hstep := serve_record hk c h
    have hold := isKey_of_owner ho
    unfold isKey at hold ⊢
    generalize kv (.record h) = v at hstep hold
    generalize (serve c kv).2 (.record h) = v' at hstep ⊢
    cases hstep with
    | keep => exact hold
    | save e | create _ _ => rfl
    | delete hd _ =>
      rw [hreq] at hd
      cases hd

end Listing

section Runs

variable [Outside]

omit [Outside] in
theorem indexCorrect_empty : IndexCorrect empty := by
  constructor
  · intro sub
    exact List.nodup_nil
  · intro sub h
    simp [indexOf, ownerOf, empty]

theorem indexCorrect_run {cs : List Call} (hf : ∀ c ∈ cs, Faultless c)
    (ho : ∀ pre c post, cs = pre ++ c :: post → KeepsOwner c (serveAll empty pre)) :
    IndexCorrect (serveAll empty cs) := by
  induction cs using List.reverseRecOn with
  | nil => exact indexCorrect_empty
  | append_singleton cs c ih =>
    rw [serveAll_append]
    have hcs : IndexCorrect (serveAll empty cs) := by
      apply ih
      · exact fun d hd => hf d (List.mem_append_left _ hd)
      · intro pre d post heq
        exact ho pre d (post ++ [c]) (by simp [heq])
    exact hcs.step (keyed_empty.serveAll cs) (hf c (by simp)) (ho cs c [] rfl)

theorem listsOwned_run_iff {cs : List Call} (hf : ∀ c ∈ cs, Faultless c) :
    (∀ pre, pre <+: cs → ListsOwned (serveAll empty pre)) ↔
      ∀ pre c post, cs = pre ++ c :: post → KeepsOwner c (serveAll empty pre) := by
  constructor
  · intro hl
    induction cs using List.reverseRecOn with
    | nil => exact fun pre c post heq => by simp at heq
    | append_singleton cs d ih =>
      have hearlier := ih (fun c hc => hf c (List.mem_append_left _ hc))
        fun pre hpre => hl pre (hpre.trans (List.prefix_append _ _))
      intro pre c post heq
      rcases List.eq_nil_or_concat post with rfl | ⟨post', d', rfl⟩
      · -- the last request: the index was right before it
        obtain ⟨rfl, hcd⟩ := List.append_inj' heq rfl
        cases hcd
        have hcs : IndexCorrect (serveAll empty cs) :=
          indexCorrect_run (fun c hc => hf c (List.mem_append_left _ hc)) hearlier
        apply keepsOwner_of_listsOwned hcs (keyed_empty.serveAll cs)
        have hlast := hl (cs ++ [d]) (List.prefix_refl _)
        rwa [serveAll_append] at hlast
      · rw [List.concat_eq_append, ← List.cons_append, ← List.append_assoc] at heq
        exact hearlier pre c post' (List.append_inj' heq rfl).1
  · intro ho pre hpre
    obtain ⟨post, rfl⟩ := hpre
    apply (indexCorrect_run _ _).listsOwned (keyed_empty.serveAll pre)
    · exact fun c hc => hf c (List.mem_append_left _ hc)
    · intro pre' c post' heq
      exact ho pre' c (post' ++ post) (by simp [heq])

/-! ## A creation under KV failures -/

def ListsKept (kv kv' : Table) : Prop := ∀ sub h, h ∈ indexOf kv sub → h ∈ indexOf kv' sub

/-- The write of the index does not fail. -/
def IndexWritten (c : Call) (kv : Table) (h material jwt : String) : Prop :=
  ∀ r sub s, (create_checks h material jwt c.ctx).exec (start c kv) = (.ok (r, sub), s) → (s.world 1).kv_fault = none

/-- If the read fails, the write fails too or nothing is lost. -/
def IndexRead (c : Call) (kv : Table) (h material jwt : String) : Prop :=
  ∀ r sub s, (create_checks h material jwt c.ctx).exec (start c kv) = (.ok (r, sub), s) →
    (s.world 0).kv_fault ≠ none → (s.world 1).kv_fault = none → ∀ h' ∈ indexOf kv sub, h' = h

variable {c : Call} {kv : Table} {h material jwt : String}

theorem forall_created {P : KeyRecord → String → State → Prop} {r : KeyRecord} {sub : String} {s : State}
    (hx : (create_checks h material jwt c.ctx).exec (start c kv) = (.ok (r, sub), s)) :
    (∀ r sub s, (create_checks h material jwt c.ctx).exec (start c kv) = (.ok (r, sub), s) → P r sub s) ↔
      P r sub s := by
  constructor
  · exact fun hall => hall r sub s hx
  · intro hp r' sub' s' hx'
    rw [hx] at hx'
    cases hx'
    exact hp

theorem failed_create_iff (hreq : c.request = .CreateKey h material jwt) :
    (∀ e, (serve c kv).1 = .Error e →
      (serve c kv).2 (.record h) = kv (.record h) ∧ ListsKept kv (serve c kv).2) ↔
      IndexWritten c kv h material jwt := by
  have hcr := creation kv hreq
  generalize serve c kv = out at hcr ⊢
  unfold IndexWritten
  cases hcr with
  | refused hx =>
    refine iff_of_true (fun _ _ => ⟨create_checks_error hx h, fun sub h' hm => ?_⟩) fun r sub s hx' => ?_
    · rwa [indexOf_create_checks hx]
    · rw [hx] at hx'
      cases hx'
  | unlisted hx hf =>
    obtain ⟨hfree, hnew, -, -⟩ := create_checks_ok hx
    rw [forall_created hx, hf]
    refine iff_of_false (fun hkept => ?_) (by simp)
    have hrec := (hkept _ rfl).1
    dsimp only at hrec
    rw [hnew, show kv (.record h) = none from hfree] at hrec
    cases hrec
  | listed hx hf =>
    rw [forall_created hx]
    exact iff_of_true (fun _ he => nomatch he) hf

theorem lists_kept_iff (hreq : c.request = .CreateKey h material jwt) :
    ListsKept kv (serve c kv).2 ↔ IndexRead c kv h material jwt := by
  have hcr := creation kv hreq
  generalize serve c kv = out at hcr ⊢
  unfold IndexRead
  cases hcr with
  | refused hx =>
    refine iff_of_true (fun sub h' hm => ?_) fun r sub s hx' => ?_
    · rwa [indexOf_create_checks hx]
    · rw [hx] at hx'
      cases hx'
  | unlisted hx hf =>
    rw [forall_created hx, hf]
    refine iff_of_true (fun sub h' hm => ?_) (by simp)
    rwa [indexOf_create_checks hx]
  | @listed r sub s hx hf =>
    have hkeep := indexOf_create_checks hx
    rw [forall_created hx]
    constructor
    · intro hl hbad _ h' hm
      have hin := hl sub h' hm
      rw [indexOf_put_self, mem_addHandle, readIndex, if_neg hbad] at hin
      simpa using hin
    · intro hr sub' h' hm
      by_cases hs : sub' = sub
      · subst hs
        rw [indexOf_put_self, mem_addHandle]
        unfold readIndex
        split
        · rw [hkeep]
          exact .inl hm
        · rename_i hbad
          exact .inr (hr hbad hf h' hm)
      · rw [indexOf_put_other hs, hkeep]
        exact hm

/-- Without KV failures the listing is exact iff no `UpdatePolicy` changes an owner. With failures, a failed
`CreateKey` leaves no record iff it is not the index write that fails, and any drops no handle iff the index is
not overwritten unread. -/
theorem owner_index_exact_iff :
    (∀ cs : List Call, (∀ c ∈ cs, Faultless c) →
      ((∀ pre, pre <+: cs → ListsOwned (serveAll empty pre)) ↔
        ∀ pre c post, cs = pre ++ c :: post → KeepsOwner c (serveAll empty pre))) ∧
    ∀ (c : Call) (kv : Table) (h material jwt : String), c.request = .CreateKey h material jwt →
      ((∀ e, (serve c kv).1 = .Error e →
        (serve c kv).2 (.record h) = kv (.record h) ∧ ListsKept kv (serve c kv).2) ↔
        IndexWritten c kv h material jwt) ∧
      (ListsKept kv (serve c kv).2 ↔ IndexRead c kv h material jwt) :=
  ⟨fun _ hf => listsOwned_run_iff hf,
    fun _ _ _ _ _ hreq => ⟨failed_create_iff hreq, lists_kept_iff hreq⟩⟩

end Runs

open Sample in
/-- Two keys are created, and one is deleted. -/
theorem listed_after_deletion :
    let p := policy [.Owner, .Mutability] false false
    let second : Call := { call p "alice" (.CreateKey "j" "m" "grant") with
      world := fun _ => { world p with verify_jwt_with_jwks := fun _ _ => .ok { grant p with scope := "j" } } }
    let calls := [create p, second, call p "alice" (.DeleteKey "k" [])]
    (serve (call p "alice" .ListKeys) (serveAll empty [create p, second])).1 =
        .KeyList [⟨"k", .RawShare, 61⟩, ⟨"j", .RawShare, 61⟩] ∧
      ListsOwned (serveAll empty calls) ∧
      ListsKept (serveAll empty [create p]) (serve second (serveAll empty [create p])).2 := by
  intro p second calls
  have hf : ∀ c ∈ calls, Faultless c := by
    intro c hc n
    simp only [calls, List.mem_cons, List.not_mem_nil, or_false] at hc
    rcases hc with rfl | rfl | rfl <;> rfl
  refine ⟨by decide +kernel, ?_, ?_⟩
  · apply (owner_index_exact_iff.1 calls hf).mpr
    · intro pre c post heq h new approvals hreq
      have hc : c ∈ calls := by simp [heq]
      simp only [calls, List.mem_cons, List.not_mem_nil, or_false] at hc
      rcases hc with rfl | rfl | rfl <;> cases hreq
    · exact List.prefix_refl _
  · apply (owner_index_exact_iff.2 second (serveAll empty [create p]) "j" "m" "grant" rfl).2.mpr
    intro r sub s hx hfault
    have hread : ((((create_checks "j" "m" "grant" second.ctx).exec
        (start second (serveAll empty [create p]))).2.world 0).kv_fault) = none := by decide +kernel
    rw [hx] at hread
    exact absurd hread hfault

open Sample in
/-- The old owner of a key stays listed, and a creation whose index write fails leaves the key behind. -/
theorem owner_change_leaves_index :
    let p := policy [.Mutability] false false
    let handover := call p "alice" (.UpdatePolicy "k"
      { p with principals := { p.principals with owner := oidc "carol" } } [])
    let torn : Call := { create p with
      world := fun n => if n = 8 then { world p with kv_fault := some "disk full" } else world p }
    ownerOf (serveAll empty [create p, handover]) "k" = some "carol" ∧
      (serve (call p "carol" .ListKeys) (serveAll empty [create p, handover])).1 = .KeyList [] ∧
      (serve (call p "alice" .ListKeys) (serveAll empty [create p, handover])).1 = .KeyList [⟨"k", .RawShare, 61⟩] ∧
      (serve torn empty).1 = .Error "kv owner index: disk full" ∧
      (serve torn empty).2 (.record "k") = some (.record (record p)) := by
  decide +kernel

end EnclaveOs.Vault
