import EnclaveOs.Fido2.Ceremonies

/-! # Stored credentials over histories -/

open Function (update update_eq_self update_of_ne update_self)

namespace EnclaveOs.Fido2

open Lib Lib.Method

section Theory

variable [Outside] {m : Fido2Module} {s : State} {w : World} {record : CredentialRecord} {id : String} {kv : Kv}
  {e : Event}

/-! ## What a request writes -/

variable (m s w) in
theorem kv_of_register (c id att cd : String) (push : Option String) :
    (∃ record, record_to_store m w c att cd id push s = some record ∧ record.rp_id = m.rp_id ∧
        (handle m w (.RegisterComplete c id att cd push) s).2.kv = stored w s.kv record id) ∨
      record_to_store m w c att cd id push s = none ∧
        (handle m w (.RegisterComplete c id att cd push) s).2.kv = s.kv := by
  rw [handle_eq]
  obtain ⟨-, h⟩ := handle_register_complete_spec s w m c att cd id push
  rcases h with ⟨-, hnone, hkv, -⟩ | ⟨_, record, -, -, -, hrec, hkv, -⟩
  · exact .inr ⟨hnone, hkv⟩
  · exact .inl ⟨record, hrec, record_to_store_ok hrec, hkv⟩

variable (m s w) in
theorem kv_of_authenticate (c id ad cd sig : String) :
    (∃ record n, assertion_passed m w c id ad sig cd s = some (record, n) ∧ s.kv.cred id = some record ∧
        (n = 0 ∨ record.sign_count < n) ∧
        (handle m w (.AuthenticateComplete c id ad cd sig) s).2.kv = updated w s.kv id n) ∨
      assertion_passed m w c id ad sig cd s = none ∧
        (handle m w (.AuthenticateComplete c id ad cd sig) s).2.kv = s.kv := by
  rw [handle_eq]
  obtain ⟨-, h⟩ := handle_authenticate_complete_spec s w m c id ad sig cd
  rcases h with ⟨-, hnone, hkv, -⟩ | ⟨_, ⟨record, n⟩, -, -, -, hpass, hkv, -⟩
  · exact .inr ⟨hnone, hkv⟩
  · obtain ⟨hrecord, a, ha, rfl⟩ := assertion_passed_ok hpass
    exact .inl ⟨record, _, hpass, hrecord, ha.counter, hkv⟩

theorem kv_of_begin {r : Fido2Request} {k : Ceremony} (hr : begins r = some k) : (handle m w r s).2.kv = s.kv := by
  obtain ⟨thin, -, ⟨_, _, _, _, _, -, -, -, hs⟩ | ⟨hs, -⟩⟩ := handle_begin s w m hr <;> rw [hs]

omit [Outside] in
theorem kv_of_start (list : Option (List String)) (kv : Kv) :
    (start w list kv).kv.cred = kv.cred ∧ (start w list kv).kv.user = kv.user := by
  obtain ⟨allow, h⟩ := start_eq w list kv
  rw [h]
  exact ⟨rfl, rfl⟩

/-! ## The lists of the users -/

/-- The list of a user has the ids whose record is the user's, each once. -/
structure Indexed (rp_id : String) (kv : Kv) : Prop where
  nodup : ∀ u, (list_credentials kv rp_id u).Nodup
  mem : ∀ u id, id ∈ list_credentials kv rp_id u ↔ ∃ r, kv.cred id = some r ∧ r.user_handle = u

/-- No record is gone or other than it was. -/
def Unharmed (kv kv' : Kv) : Prop := ∀ id r, kv.cred id = some r → kv'.cred id = some r

/-- A record is written under a free id and with its list, or is there already. -/
def Clean (m : Fido2Module) (w : World) (c id att cd : String) (push : Option String) (s : State) : Prop :=
  ∀ record, record_to_store m w c att cd id push s = some record → w.put_credential.written = true →
    s.kv.cred id = some record ∨
      s.kv.cred id = none ∧ w.put_credential = .done ∧ w.get_index = none ∧ w.put_index.written = true

section

omit [Outside]

theorem user_index_key_inj {rp_id u v : String} (h : user_index_key rp_id u = user_index_key rp_id v) : u = v := by
  unfold user_index_key at h
  exact (String.append_right_inj _).mp h

theorem stored_cred (hw : w.put_credential.written = true) :
    (stored w kv record id).cred = update kv.cred id (some record) := by
  unfold stored
  rw [if_pos hw]
  dsimp only
  split
  · split <;> rfl
  · rfl

theorem stored_lost (hw : w.put_credential.written = false) : stored w kv record id = kv := by
  unfold stored
  rw [hw]
  cases h : w.put_credential with
  | lost e => rfl
  | done | kept e => rw [h] at hw; cases hw

theorem stored_user_of_not
    (h : ¬ (w.put_credential = .done ∧ w.get_index = none ∧ w.put_index.written = true)) :
    (stored w kv record id).user = kv.user := by
  unfold stored
  dsimp only
  split
  · rename_i hdone hget
    rw [if_neg fun hput => h ⟨hdone, hget, hput⟩]
    split <;> rfl
  · split <;> rfl

theorem stored_done (hdone : w.put_credential = .done)
    (hget : w.get_index = none) (hput : w.put_index.written = true) :
    (stored w kv record id).user = update kv.user (user_index_key record.rp_id record.user_handle)
      (some (if (list_credentials kv record.rp_id record.user_handle).any (· == id)
        then list_credentials kv record.rp_id record.user_handle
        else list_credentials kv record.rp_id record.user_handle ++ [id])) := by
  unfold stored list_credentials
  rw [hdone, hget, hput]
  rfl

theorem Indexed.add {rp_id id : String} {kv kv' : Kv} (h : Indexed rp_id kv)
    (hfree : kv.cred id = none) (hcred : kv'.cred = update kv.cred id (some record))
    (huser : kv'.user = update kv.user (user_index_key rp_id record.user_handle)
      (some (list_credentials kv rp_id record.user_handle ++ [id]))) : Indexed rp_id kv' := by
  have hnew : ∀ u, id ∉ list_credentials kv rp_id u := by
    intro u hu
    obtain ⟨r, hr, -⟩ := (h.mem u id).mp hu
    rw [hfree] at hr
    cases hr
  have hlist : ∀ u, list_credentials kv' rp_id u =
      if u = record.user_handle then list_credentials kv rp_id u ++ [id] else list_credentials kv rp_id u := by
    intro u
    unfold list_credentials at *
    rw [huser]
    split
    · rename_i hu
      rw [hu, update_self]
      rfl
    · rename_i hu
      rw [update_of_ne fun hkey => hu (user_index_key_inj hkey)]
  constructor
  · intro u
    rw [hlist]
    split
    · exact (h.nodup u).append (List.nodup_singleton id) (by simpa using hnew u)
    · exact h.nodup u
  · intro u id'
    rw [hlist, hcred]
    by_cases hid : id' = id
    · subst hid
      rw [update_self]
      split
      · rename_i hu
        simpa using hu.symm
      · rename_i hu
        simp only [hnew u, Option.some.injEq, exists_eq_left', false_iff]
        exact fun h => hu h.symm
    · rw [update_of_ne hid, ← h.mem u id']
      split
      · simp [hid]
      · rfl

theorem Indexed.stored_same (h : Indexed record.rp_id kv)
    (hsame : kv.cred id = some record) : stored w kv record id = kv := by
  have hlisted : id ∈ list_credentials kv record.rp_id record.user_handle := (h.mem _ _).mpr ⟨record, hsame, rfl⟩
  have hany : (list_credentials kv record.rp_id record.user_handle).any (· == id) = true := by simpa using hlisted
  have hkey : kv.user (user_index_key record.rp_id record.user_handle) =
      some (list_credentials kv record.rp_id record.user_handle) := by
    unfold list_credentials at *
    rcases hu : kv.user (user_index_key record.rp_id record.user_handle) with _ | l
    · rw [hu] at hlisted; cases hlisted
    · rfl
  have hcred : (stored w kv record id).cred = kv.cred := by
    by_cases hw : w.put_credential.written = true
    · rw [stored_cred hw, ← hsame, update_eq_self]
    · rw [stored_lost (by simpa using hw)]
  have huser : (stored w kv record id).user = kv.user := by
    by_cases hall : w.put_credential = .done ∧ w.get_index = none ∧ w.put_index.written = true
    · obtain ⟨hdone, hget, hput⟩ := hall
      rw [stored_done hdone hget hput, if_pos hany, ← hkey, update_eq_self]
    · exact stored_user_of_not hall
  have hallow : (stored w kv record id).aaguid_allow = kv.aaguid_allow := by
    unfold stored
    dsimp only
    split
    · split <;> split <;> rfl
    · split <;> rfl
  cases hkv : stored w kv record id
  cases kv
  simp_all

end

theorem register_iff_clean (hind : Indexed m.rp_id s.kv) (c id att cd : String) (push : Option String) :
    Unharmed s.kv (handle m w (.RegisterComplete c id att cd push) s).2.kv ∧
        Indexed m.rp_id (handle m w (.RegisterComplete c id att cd push) s).2.kv ↔
      Clean m w c id att cd push s := by
  rcases kv_of_register m s w c id att cd push with ⟨record, hrec, hrp, hkv⟩ | ⟨hnone, hkv⟩
  · rw [hkv]
    constructor
    · rintro ⟨hun, hind'⟩ record' hrec' hw
      rw [hrec, Option.some.injEq] at hrec'
      subst hrec'
      rcases hid : s.kv.cred id with _ | r
      · refine .inr ⟨rfl, not_not.mp fun hnot => ?_⟩
        -- The record is stored, but its id is in no list.
        have hmem : id ∈ list_credentials (stored w s.kv record id) m.rp_id record.user_handle :=
          (hind'.mem _ _).mpr ⟨record, by rw [stored_cred hw, update_self], rfl⟩
        unfold list_credentials at hmem
        rw [stored_user_of_not hnot] at hmem
        obtain ⟨r, hr, -⟩ := (hind.mem _ _).mp hmem
        rw [hid] at hr
        cases hr
      · have hr := hun id r hid
        rw [stored_cred hw, update_self] at hr
        exact .inl hr.symm
    · intro hclean
      by_cases hw : w.put_credential.written = true
      · rcases hclean record hrec hw with hsame | ⟨hfree, hdone, hget, hput⟩
        · rw [Indexed.stored_same (hrp ▸ hind) hsame]
          exact ⟨fun _ _ h => h, hind⟩
        refine ⟨fun id' r hr => ?_, hind.add hfree (stored_cred hw) ?_⟩
        · have hne : id' ≠ id := fun h => by rw [h, hfree] at hr; cases hr
          rw [stored_cred hw, update_of_ne hne]
          exact hr
        have hnot : (list_credentials s.kv m.rp_id record.user_handle).any (· == id) = false := by
          rw [List.any_eq_false]
          intro id' hid' heq
          obtain ⟨r, hr, -⟩ := (hind.mem _ _).mp hid'
          rw [eq_of_beq heq, hfree] at hr
          cases hr
        rw [stored_done hdone hget hput, hrp, hnot]
        rfl
      · rw [stored_lost (by simpa using hw)]
        exact ⟨fun _ _ h => h, hind⟩
  · rw [hkv]
    refine ⟨fun _ record hrec => ?_, fun _ => ⟨fun _ _ h => h, hind⟩⟩
    rw [hnone] at hrec
    cases hrec

section

omit [Outside]

theorem Indexed.congr {rp_id : String} {kv kv' : Kv} (h : Indexed rp_id kv) (huser : kv'.user = kv.user)
    (hcred : ∀ id u, (∃ r, kv'.cred id = some r ∧ r.user_handle = u) ↔ ∃ r, kv.cred id = some r ∧ r.user_handle = u) :
    Indexed rp_id kv' := by
  have hlist : ∀ u, list_credentials kv' rp_id u = list_credentials kv rp_id u := fun u => by
    unfold list_credentials
    rw [huser]
  exact ⟨fun u => by rw [hlist]; exact h.nodup u, fun u id => by rw [hlist, h.mem, hcred]⟩

theorem Indexed.updated {rp_id id : String} (h : Indexed rp_id kv) (n : Nat) : Indexed rp_id (updated w kv id n) := by
  unfold Fido2.updated
  split
  · refine h.congr rfl fun id' u => ?_
    dsimp only
    by_cases hid : id' = id
    · subst hid
      rw [update_self]
      cases kv.cred id' <;> simp
    · rw [update_of_ne hid]
  · exact h

end

/-- Every registration of the history is clean in the state it finds. -/
def AllClean (m : Fido2Module) (s0 : State) (es : List Event) : Prop :=
  ∀ i w c id att cd push, es[i]? = some (.request w (.RegisterComplete c id att cd push)) →
    Clean m w c id att cd push (before (step m) s0 es i)

theorem Indexed.step (h : Indexed m.rp_id s.kv)
    (hclean : ∀ w c id att cd push, e = .request w (.RegisterComplete c id att cd push) →
      Clean m w c id att cd push s) : Indexed m.rp_id (step m s e).kv := by
  cases e with
  | validate token now | revoke token => exact h
  | restart w list =>
    obtain ⟨hcred, huser⟩ := kv_of_start (w := w) list s.kv
    exact h.congr huser fun id u => by rw [Fido2.step, hcred]
  | request w r =>
    change Indexed m.rp_id (handle m w r s).2.kv
    cases r with
    | RegisterBegin _ _ _ | AuthenticateBegin _ _ => rw [kv_of_begin rfl]; exact h
    | RegisterComplete c id att cd push =>
      exact ((register_iff_clean h c id att cd push).mpr (hclean w c id att cd push rfl)).2
    | AuthenticateComplete c id ad cd sig =>
      rcases kv_of_authenticate m s w c id ad cd sig with ⟨_, n, -, -, -, hkv⟩ | ⟨-, hkv⟩
      · rw [hkv]
        exact h.updated n
      · rw [hkv]
        exact h

variable (m) in
/-- A registration takes nothing over exactly if it is clean, and then the lists stay exact. -/
theorem registration_takes_nothing_iff :
    (∀ s w c id att cd push, Indexed m.rp_id s.kv →
      (Unharmed s.kv (handle m w (.RegisterComplete c id att cd push) s).2.kv ∧
          Indexed m.rp_id (handle m w (.RegisterComplete c id att cd push) s).2.kv ↔
        Clean m w c id att cd push s)) ∧
    ∀ w0 list kv es, Indexed m.rp_id kv → AllClean m (start w0 list kv) es → ∀ i,
      Indexed m.rp_id (before (step m) (start w0 list kv) es i).kv ∧
      ∀ w c id att cd push, es[i]? = some (.request w (.RegisterComplete c id att cd push)) →
        Unharmed (before (step m) (start w0 list kv) es i).kv (before (step m) (start w0 list kv) es (i + 1)).kv := by
  refine ⟨fun s w c id att cd push h => register_iff_clean h c id att cd push, ?_⟩
  intro w0 list kv es hkv hclean
  have hind : ∀ i, Indexed m.rp_id (before (step m) (start w0 list kv) es i).kv := by
    intro i
    induction i with
    | zero =>
      obtain ⟨hcred, huser⟩ := kv_of_start (w := w0) list kv
      exact hkv.congr huser fun id u => by rw [before_zero, hcred]
    | succ i ih =>
      rcases he : es[i]? with _ | e
      · rw [before_of_none he]; exact ih
      rw [before_succ he]
      refine ih.step ?_
      rintro w c id att cd push rfl
      exact hclean i w c id att cd push he
  refine fun i => ⟨hind i, fun w c id att cd push he => ?_⟩
  rw [before_succ he]
  exact ((register_iff_clean (hind i) c id att cd push).mpr (hclean i w c id att cd push he)).1

def count (id : String) (s : State) : Nat := ((s.kv.cred id).map (·.sign_count)).getD 0

/-- No authentication falls back to zero or loses its counter, and no registration sets it back. -/
def CounterKept (m : Fido2Module) (id : String) (s : State) : Event → Prop
  | .request w (.AuthenticateComplete c id' ad cd sig) => id' = id → ∀ record n,
    assertion_passed m w c id ad sig cd s = some (record, n) →
      (n ≠ 0 ∨ record.sign_count = 0) ∧ (w.get_update = none ∧ w.put_update.written = true ∨ n = record.sign_count)
  | .request w (.RegisterComplete c id' att cd push) => id' = id → ∀ record r,
    record_to_store m w c att cd id push s = some record → w.put_credential.written = true → s.kv.cred id = some r →
      r.sign_count ≤ record.sign_count
  | _ => True

/-- The event is an accepted authentication with the credential, at sign count `n`. -/
def Accepts (m : Fido2Module) (id : String) (s : State) (e : Event) (n : Nat) : Prop :=
  ∃ w c ad cd sig status token bytes auth_data, e = .request w (.AuthenticateComplete c id ad cd sig) ∧
    (handle m w (.AuthenticateComplete c id ad cd sig) s).1 = some (.AuthenticateOk status token) ∧
    Outside.decode ad = .ok bytes ∧ parse_authenticator_data bytes = .ok auth_data ∧ auth_data.sign_count = n

variable {id : String} {n : Nat}

omit [Outside] in
theorem updated_other {id' : String} (h : id' ≠ id) : (updated w kv id n).cred id' = kv.cred id' := by
  unfold updated
  split
  · exact update_of_ne h _ _
  · rfl

theorem passed_iff_kept {c ad cd sig : String} (h : assertion_passed m w c id ad sig cd s = some (record, n)) :
    ((record.sign_count < n ∨ n = 0 ∧ record.sign_count = 0) ∧
        count id (handle m w (.AuthenticateComplete c id ad cd sig) s).2 = n) ↔
      CounterKept m id s (.request w (.AuthenticateComplete c id ad cd sig)) := by
  rcases kv_of_authenticate m s w c id ad cd sig with ⟨record', n', hpass, hcred, hrise, hkv⟩ | ⟨hnone, -⟩
  · rw [h, Option.some.injEq, Prod.mk.injEq] at hpass
    obtain ⟨rfl, rfl⟩ := hpass
    have hcount : count id (handle m w (.AuthenticateComplete c id ad cd sig) s).2 =
        if w.get_update = none ∧ w.put_update.written = true then n else record.sign_count := by
      rw [count, hkv, updated]
      split <;> simp [hcred]
    have hkept : CounterKept m id s (.request w (.AuthenticateComplete c id ad cd sig)) ↔
        (n ≠ 0 ∨ record.sign_count = 0) ∧ (w.get_update = none ∧ w.put_update.written = true ∨ n = record.sign_count) := by
      constructor
      · exact fun hk => hk rfl record n h
      · rintro hk - record' n' hpass
        rw [h, Option.some.injEq, Prod.mk.injEq] at hpass
        obtain ⟨rfl, rfl⟩ := hpass
        exact hk
    rw [hkept, hcount]
    split
    · rename_i hw
      simp only [hw, and_self, and_true, true_or]
      omega
    · rename_i hw
      simp only [hw, false_or]
      omega
  · rw [hnone] at h
    cases h

theorem count_le_step (h : CounterKept m id s e) : count id s ≤ count id (step m s e) := by
  cases e with
  | validate token now | revoke token => exact le_rfl
  | restart w list =>
    rw [count, count, step, (kv_of_start (w := w) list s.kv).1]
  | request w r =>
    change _ ≤ count id (handle m w r s).2
    unfold count
    cases r with
    | RegisterBegin _ _ _ | AuthenticateBegin _ _ => rw [kv_of_begin rfl]
    | RegisterComplete c id' att cd push =>
      rcases kv_of_register m s w c id' att cd push with ⟨record, hrec, -, hkv⟩ | ⟨-, hkv⟩
      · rw [hkv]
        by_cases hw : w.put_credential.written = true
        · rw [stored_cred hw]
          by_cases hid : id = id'
          · subst hid
            rw [update_self]
            rcases hcred : s.kv.cred id with _ | r
            · exact Nat.zero_le _
            · exact h rfl record r hrec hw hcred
          · rw [update_of_ne hid]
        · rw [stored_lost (by simpa using hw)]
      · rw [hkv]
    | AuthenticateComplete c id' ad cd sig =>
      rcases kv_of_authenticate m s w c id' ad cd sig with ⟨record, n, hpass, hcred, hrise, hkv⟩ | ⟨-, hkv⟩
      · by_cases hid : id = id'
        · subst hid
          have hcount := ((passed_iff_kept hpass).mpr h)
          have hold : ((s.kv.cred id).map (·.sign_count)).getD 0 = record.sign_count := by rw [hcred]; rfl
          rw [count] at hcount
          rw [hold, hcount.2]
          omega
        · rw [hkv, updated_other hid]
      · rw [hkv]

theorem Accepts.passed (h : Accepts m id s e n) (hkept : CounterKept m id s e) :
    (count id s < n ∨ n = 0 ∧ count id s = 0) ∧ count id (step m s e) = n := by
  obtain ⟨w, c, ad, cd, sig, status, token, bytes, auth_data, rfl, hok, hbytes, hauth, rfl⟩ := h
  obtain ⟨_, record, a, -, -, -, hpass, hcred, ha, -⟩ := handle_authenticated hok
  have hsame : a.auth_data = auth_data := by
    have h1 := ha.authenticator_data
    rw [hbytes, Except.ok.injEq] at h1
    have h2 := ha.auth_data
    rw [← h1, hauth, Except.ok.injEq] at h2
    exact h2.symm
  rw [hsame] at hpass
  have hold : count id s = record.sign_count := by rw [count, hcred]; rfl
  rw [hold]
  exact (passed_iff_kept hpass).mpr hkept

variable (m) in
/-- The law of the counter, for one assertion and for two any time apart. -/
theorem clone_detection_iff (id : String) :
    (∀ s w c ad cd sig record n, assertion_passed m w c id ad sig cd s = some (record, n) →
      ((record.sign_count < n ∨ n = 0 ∧ record.sign_count = 0) ∧
          count id (handle m w (.AuthenticateComplete c id ad cd sig) s).2 = n ↔
        CounterKept m id s (.request w (.AuthenticateComplete c id ad cd sig)))) ∧
    ∀ s0 es, (∀ i e, es[i]? = some e → CounterKept m id (before (step m) s0 es i) e) →
      ∀ i j ei ej n n', i < j → es[i]? = some ei → es[j]? = some ej →
        Accepts m id (before (step m) s0 es i) ei n → n ≠ 0 → Accepts m id (before (step m) s0 es j) ej n' → n < n' := by
  refine ⟨fun s w c ad cd sig record n h => passed_iff_kept h, ?_⟩
  intro s0 es hkept i j ei ej n n' hij hi hj ha hn hb
  obtain ⟨-, hstored⟩ := ha.passed (hkept i ei hi)
  obtain ⟨hrise, -⟩ := hb.passed (hkept j ej hj)
  have hmono : n ≤ count id (before (step m) s0 es j) := by
    have hstart : n ≤ count id (before (step m) s0 es (i + 1)) := by rw [before_succ hi, hstored]
    refine until_touched (fun s => n ≤ count id s) (fun s e => ¬ CounterKept m id s e) ?_ hij hstart ?_
    · intro s e hle hnot
      exact hle.trans (count_le_step (not_not.mp hnot))
    · intro k e _ _ hk
      exact not_not.mpr (hkept k e hk)
  omega

end Theory

open Sample

/-- The record of the first user stays, and that of the second is added. -/
theorem registration_takes_nothing_second :
    let es := registration boot 1 "alice" "id" ++ registration boot 2 "bob" "jd"
    let s := before (step rp) (start boot (some ["*"]) nothing) es
    AllClean rp (start boot (some ["*"]) nothing) es ∧ Indexed "rp" (s 4).kv ∧ Unharmed (s 3).kv (s 4).kv ∧
      ((s 3).kv.cred "id").map (·.user_handle) = some "alice" ∧ list_credentials (s 4).kv "rp" "bob" = ["jd"] := by
  intro es s
  have hempty : Indexed "rp" nothing := ⟨fun u => List.nodup_nil, fun u id => by simp [list_credentials, nothing]⟩
  have hfirst : (s 1).kv.cred "id" = none := by decide +kernel
  have hsecond : (s 3).kv.cred "jd" = none := by decide +kernel
  have hclean : AllClean rp (start boot (some ["*"]) nothing) es := by
    rintro (_ | _ | _ | _ | i) w c id att cd push hi <;> cases hi
    · exact fun record _ _ => .inr ⟨hfirst, rfl, rfl, rfl⟩
    · exact fun record _ _ => .inr ⟨hsecond, rfl, rfl, rfl⟩
  have hall := (registration_takes_nothing_iff rp).2 boot (some ["*"]) nothing es hempty hclean
  exact ⟨hclean, (hall 4).1, (hall 3).2 _ _ _ _ _ _ rfl, by decide +kernel, by decide +kernel⟩

/-- A second user registers the id of the first, in whose list it stays. -/
theorem registration_takes_over :
    let es := registration boot 1 "alice" "id" ++ registration boot 2 "mallory" "id"
    let s := before (step rp) (start boot (some ["*"]) nothing) es
    (handle rp boot (.RegisterComplete (chars [2]) "id" (attestation "id") (chars [0, 2]) none) (s 3)).1 =
        some (.RegisterOk "ok" none) ∧
      ((s 3).kv.cred "id").map (·.user_handle) = some "alice" ∧
      ((s 4).kv.cred "id").map (·.user_handle) = some "mallory" ∧
      list_credentials (s 4).kv "rp" "alice" = ["id"] := by
  decide +kernel

def completion (w : World) (c n : UInt8) : Event :=
  .request { w with fill_token := some [c] } (.AuthenticateComplete (chars [c]) "id" (auth_data n) (chars [c]) "k")

theorem accepts_completion {s : State} {w : World} {c n : UInt8} (token : String) (auth : AuthenticatorData)
    (hok : (handle rp { w with fill_token := some [c] }
      (.AuthenticateComplete (chars [c]) "id" (auth_data n) (chars [c]) "k") s).1 = some (.AuthenticateOk "ok" (some token)))
    (hauth : parse_authenticator_data (codes (auth_data n)) = .ok auth) :
    Accepts rp "id" s (completion w c n) auth.sign_count :=
  ⟨_, _, _, _, _, "ok", some token, codes (auth_data n), auth, rfl, hok, rfl, hauth, rfl⟩

def parsed (n : Nat) : AuthenticatorData := ⟨List.replicate 32 0, 5, n, none⟩

theorem clone_detection_rising :
    let es := auth boot 1 7 ++ auth boot 2 9
    let s := before (step rp) (start boot none (kv 3)) es
    (∀ i e, es[i]? = some e → CounterKept rp "id" (s i) e) ∧ Accepts rp "id" (s 1) (completion boot 1 7) 7 ∧
      Accepts rp "id" (s 3) (completion boot 2 9) 9 ∧ 7 < 9 := by
  intro es s
  have hfirst : assertion_passed rp { boot with fill_token := some [1] } (chars [1]) "id" (auth_data 7) "k" (chars [1]) (s 1) =
      some (record 3, 7) := by
    decide +kernel
  have hsecond : assertion_passed rp { boot with fill_token := some [2] } (chars [2]) "id" (auth_data 9) "k" (chars [2]) (s 3) =
      some (record 7, 9) := by
    decide +kernel
  have hkept : ∀ i e, es[i]? = some e → CounterKept rp "id" (s i) e := by
    rintro (_ | _ | _ | _ | i) e hi <;> cases hi
    · trivial
    · intro _ r n hr
      rw [hfirst] at hr
      cases hr
      exact ⟨.inl (by decide), .inl ⟨rfl, rfl⟩⟩
    · trivial
    · intro _ r n hr
      rw [hsecond] at hr
      cases hr
      exact ⟨.inl (by decide), .inl ⟨rfl, rfl⟩⟩
  have ha : Accepts rp "id" (s 1) (completion boot 1 7) 7 :=
    accepts_completion "01" (parsed 7) (by decide +kernel) (by decide +kernel)
  have hb : Accepts rp "id" (s 3) (completion boot 2 9) 9 :=
    accepts_completion "02" (parsed 9) (by decide +kernel) (by decide +kernel)
  exact ⟨hkept, ha, hb, (clone_detection_iff rp "id").2 _ es hkept 1 3 _ _ 7 9 (by decide) rfl rfl ha (by decide) hb⟩

def twice (w : World) (n n' : UInt8) : Nat → State :=
  before (step rp) (start boot none (kv 3)) (auth w 1 n ++ auth boot 2 n')

/-- After 7 comes 0, or 5 if the write of the 7 was lost. -/
theorem counter_falls :
    (Accepts rp "id" (twice boot 7 0 1) (completion boot 1 7) 7 ∧
      Accepts rp "id" (twice boot 7 0 3) (completion boot 2 0) 0) ∧
    let lost := { boot with put_update := .lost "io" }
    Accepts rp "id" (twice lost 7 5 1) (completion lost 1 7) 7 ∧
      Accepts rp "id" (twice lost 7 5 3) (completion boot 2 5) 5 := by
  refine ⟨⟨?_, ?_⟩, ?_, ?_⟩
  · exact accepts_completion "01" (parsed 7) (by decide +kernel) (by decide +kernel)
  · exact accepts_completion "02" (parsed 0) (by decide +kernel) (by decide +kernel)
  · exact accepts_completion "01" (parsed 7) (by decide +kernel) (by decide +kernel)
  · exact accepts_completion "02" (parsed 5) (by decide +kernel) (by decide +kernel)

end EnclaveOs.Fido2
