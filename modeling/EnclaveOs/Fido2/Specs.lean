import EnclaveOs.Fido2.Module

/-! # What each call does -/

open Function (update update_eq_self)

namespace EnclaveOs.Fido2

open Lib Lib.Method

variable {s s' : State} {w : World} {m : Fido2Module}

/-- The state is left as it was. -/
abbrev Reads {α : Type} (x : Fido2M α) : Prop := Keeps (fun s s' => s' = s) x

variable {α : Type}

theorem Reads.bind {β : Type} {x : Fido2M α} {f : α → Fido2M β} (hx : Reads x) (hf : ∀ a, Reads (f a)) :
    Reads (x >>= f) := Keeps.bind (fun _ _ _ h h' => h'.trans h) hx hf

theorem reads_pure (a : α) : Reads (pure a : Fido2M α) := fun _ => rfl

theorem reads_lift (r : Except String α) : Reads (lift r) := fun _ => rfl

theorem reads_ensure (b : Bool) (e : String) : Reads (ensure b e) := by
  unfold ensure
  cases b <;> exact fun _ => rfl

theorem reads_some_or_fail (r : Option α) (e : String) : Reads (some_or_fail r e) := by
  rcases r with _ | a <;> exact fun _ => rfl

theorem reads_kv_get (error : Option String) (read : Kv → α) : Reads (kv_get error read) := by
  rcases error with _ | e <;> exact fun _ => rfl

theorem reads_verify_assertion [Outside] (c id ad sig cd : String) : Reads (verify_assertion m w c id ad sig cd) := by
  unfold verify_assertion
  refine (reads_lift _).bind fun _ => (reads_kv_get _ _).bind fun _ => (reads_some_or_fail _ _).bind fun _ => ?_
  refine (reads_lift _).bind fun _ => (reads_lift _).bind fun _ => ?_
  refine (reads_ensure _ _).bind fun _ => (reads_ensure _ _).bind fun _ => (reads_ensure _ _).bind fun _ => ?_
  refine (reads_ensure _ _).bind fun _ => (reads_lift _).bind fun _ => (reads_lift _).bind fun _ => ?_
  exact (reads_lift _).bind fun _ => reads_pure _

theorem reads_register_record [Outside] (now : UInt64) (consumed : ConsumedChallenge) (c att cd id : String)
    (push : Option String) : Reads (register_record m w now consumed c att cd id push) := by
  unfold register_record
  refine (reads_lift _).bind fun _ => (reads_lift _).bind fun _ => (reads_lift _).bind fun _ => ?_
  refine (reads_lift _).bind fun _ => (reads_ensure _ _).bind fun _ => (reads_ensure _ _).bind fun _ => ?_
  refine (reads_some_or_fail _ _).bind fun _ => (reads_ensure _ _).bind fun _ => ?_
  refine (reads_kv_get _ _).bind fun _ => (reads_ensure _ _).bind fun _ => (reads_lift _).bind fun _ => ?_
  exact (reads_lift _).bind fun _ => (reads_ensure _ _).bind fun _ => reads_pure _

/-! ## When a step answers -/

@[simp] theorem mapError_eq_ok {ε ε' : Type} {f : ε → ε'} {r : Except ε α} {a : α} :
    r.mapError f = .ok a ↔ r = .ok a := by
  cases r <;> simp [Except.mapError]

@[simp] theorem lift_ok {r : Except String α} {a : α} : (lift r).exec s = (.ok a, s') ↔ r = .ok a ∧ s' = s := by
  simp [lift, eq_comm]

@[simp] theorem ensure_ok {b : Bool} {e : String} {u : Unit} :
    (ensure b e).exec s = (.ok u, s') ↔ b = true ∧ s' = s := by
  cases b <;> simp [ensure, fail, eq_comm]

@[simp] theorem some_or_fail_ok {r : Option α} {e : String} {a : α} :
    (some_or_fail r e).exec s = (.ok a, s') ↔ r = some a ∧ s' = s := by
  cases r <;> simp [some_or_fail, fail, eq_comm]

@[simp] theorem kv_get_ok {error : Option String} {read : Kv → α} {a : α} :
    (kv_get error read).exec s = (.ok a, s') ↔ error = none ∧ read s.kv = a ∧ s' = s := by
  cases error <;> simp [kv_get, fail, eq_comm]

theorem expiry_spec [Outside] (now ttl : UInt64) :
    (expiry now ttl).exec s = (.ok (now + ttl), s) ∨ (expiry now ttl).exec s = (.error .panic, s) := by
  unfold expiry
  split
  · exact .inr rfl
  · exact .inl rfl

def challengeEntry (now : UInt64) (sid : Option String) (k : Ceremony) (user_handle user_name : Option String) :
    ChallengeEntry := ⟨now + CHALLENGE_TTL_SECS, sid, k, user_handle, user_name⟩

theorem create_challenge_spec [Outside] (now : UInt64) (sid : Option String) (k : Ceremony)
    (user_handle user_name : Option String) :
    wp (create_challenge w now sid k user_handle user_name) (fun r s' =>
      ∃ thin, Bounded.Thins (fun e => decide (now < e.expires_at)) s.challenges thin ∧
        match r with
        | .ok c => s' = { s with challenges := thin.insert c (challengeEntry now sid k user_handle user_name) }
        | .error _ => s' = { s with challenges := thin }) s := by
  unfold create_challenge
  rcases w.fill_challenge with _ | bytes
  · exact ⟨_, .refl _ _, rfl⟩
  dsimp only
  rw [wp, exec_bind]
  rcases expiry_spec (s := s) now CHALLENGE_TTL_SECS with h | h
  · rw [h]
    dsimp only
    rw [exec_bind, insert_challenge, exec_of]
    obtain ⟨thin, hthin, h | h⟩ := Bounded.offer_spec MAX_PENDING_CHALLENGES
      (fun e => decide (now < e.expires_at)) (Outside.encode bytes)
      (challengeEntry now sid k user_handle user_name) s.challenges
    all_goals
      rw [challengeEntry] at h
      rw [h]
      exact ⟨thin, hthin, rfl⟩
  · rw [h]
    exact ⟨_, .refl _ _, rfl⟩

theorem consume_challenge_spec (c : String) (now : UInt64) (k : Ceremony) :
    wp (consume_challenge c now k) (fun r s' => s' = { s with challenges := s.challenges.erase c } ∧
      ∀ consumed, r = .ok consumed → ∃ entry, s.challenges.lookup c = some entry ∧ now ≤ entry.expires_at ∧
        entry.ceremony = k ∧ consumed = ⟨entry.browser_session_id, entry.user_handle, entry.user_name⟩) s := by
  unfold consume_challenge
  rw [wp, exec_bind, remove_challenge, exec_of]
  rcases h : s.challenges.lookup c with _ | entry
  · have herase : s.challenges.erase c = s.challenges :=
      AList.ext (List.kerase_of_notMem_keys (AList.lookup_eq_none.mp h))
    refine ⟨by rw [herase], fun consumed hr => ?_⟩
    cases hr
  dsimp only
  have hreads : Reads (do
      ensure (decide (now ≤ entry.expires_at)) "challenge expired"
      ensure (entry.ceremony == k) "challenge ceremony type mismatch"
      pure (⟨entry.browser_session_id, entry.user_handle, entry.user_name⟩ : ConsumedChallenge)) :=
    (reads_ensure _ _).bind fun _ => (reads_ensure _ _).bind fun _ => reads_pure _
  refine ⟨hreads _, fun consumed hr => ?_⟩
  have ht : _ = (Except.ok consumed, _) := Prod.ext hr (hreads _)
  simp only [exec_bind_eq_ok, ensure_ok, exec_pure, Prod.mk.injEq, Except.ok.injEq] at ht
  obtain ⟨_, _, ⟨htime, rfl⟩, _, _, ⟨hkind, rfl⟩, rfl, -⟩ := ht
  exact ⟨entry, rfl, of_decide_eq_true htime, eq_of_beq hkind, rfl⟩

def tokenEntry (w : World) (user_handle credential_id sid : String) : SessionTokenEntry :=
  ⟨user_handle, credential_id, sid, current_time_secs w + SESSION_TOKEN_TTL_SECS⟩

/-- The table of tokens after an answer with `token`. -/
def Granted (w : World) (user_handle credential_id : String) (token : Option String)
    (tokens tokens' : AList fun _ : String => SessionTokenEntry) : Prop :=
  match token with
  | none => tokens' = tokens
  | some t => ∃ thin sid, w.fill_token.map hex_encode = some t ∧
      Bounded.Thins (fun e => decide (current_time_secs w < e.expires_at)) tokens thin ∧
      tokens' = thin.insert t (tokenEntry w user_handle credential_id sid)

/-- Some expired tokens are gone, and nothing else. -/
def Thinned (w : World) (tokens tokens' : AList fun _ : String => SessionTokenEntry) : Prop :=
  Bounded.Thins (fun e => decide (current_time_secs w < e.expires_at)) tokens tokens'

theorem issue_token_spec [Outside] (user_handle id sid : String) :
    wp (issue_token w (current_time_secs w) user_handle id sid) (fun r s' =>
      s' = { s with tokens := s'.tokens } ∧
        match r with
        | .ok t => Granted w user_handle id (some t) s.tokens s'.tokens
        | .error _ => Thinned w s.tokens s'.tokens) s := by
  unfold issue_token
  rcases hdrawn : w.fill_token with _ | bytes
  · exact ⟨rfl, .refl _ _⟩
  dsimp only
  rw [wp, exec_bind]
  rcases expiry_spec (s := s) (current_time_secs w) SESSION_TOKEN_TTL_SECS with h | h
  · rw [h]
    dsimp only
    rw [exec_bind, insert_token, exec_of]
    obtain ⟨thin, hthin, h | h⟩ := Bounded.offer_spec MAX_SESSION_TOKENS
      (fun e => decide (current_time_secs w < e.expires_at)) (hex_encode bytes)
      (tokenEntry w user_handle id sid) s.tokens
    · rw [tokenEntry] at h
      rw [h]
      exact ⟨rfl, hthin⟩
    · rw [tokenEntry] at h
      rw [h]
      exact ⟨rfl, thin, sid, by rw [hdrawn]; rfl, hthin, rfl⟩
  · rw [h]
    exact ⟨rfl, .refl _ _⟩

theorem token_for_spec [Outside] (user_handle id : String) (sid : Option String) :
    wp (token_for w (current_time_secs w) user_handle id sid) (fun r s' =>
      s' = { s with tokens := s'.tokens } ∧
        match r with
        | .ok token => Granted w user_handle id token s.tokens s'.tokens
        | .error _ => Thinned w s.tokens s'.tokens) s := by
  rcases sid with _ | sid
  · exact ⟨rfl, rfl⟩
  have h := issue_token_spec (w := w) (s := s) user_handle id sid
  unfold token_for
  rw [wp] at h
  rw [wp, exec_map]
  rcases hx : (issue_token w (current_time_secs w) user_handle id sid).exec s with ⟨_ | t, s1⟩ <;> rwa [hx] at h

def updated (w : World) (kv : Kv) (id : String) (count : Nat) : Kv :=
  if w.get_update = none ∧ w.put_update.written = true then
    { kv with cred := update kv.cred id ((kv.cred id).map fun r => { r with sign_count := count }) }
  else kv

theorem update_credential_spec (id : String) (count : Nat) :
    ((update_credential w id count none).exec s).2 = { s with kv := updated w s.kv id count } := by
  unfold update_credential updated kv_get
  rcases w.get_update with _ | e
  · rw [exec_bind, exec_of]
    dsimp only
    rcases h : s.kv.cred id with _ | r
    · have hid : update s.kv.cred id none = s.kv.cred := by rw [← h, update_eq_self]
      rw [Option.map_none, hid, ite_self]
      rfl
    · dsimp only
      rw [kv_put, exec_of]
      cases w.put_update <;> rfl
  · rfl

def stored (w : World) (kv : Kv) (record : CredentialRecord) (id : String) : Kv :=
  let kv1 := if w.put_credential.written then { kv with cred := update kv.cred id (some record) } else kv
  let key := user_index_key record.rp_id record.user_handle
  let ids := (kv.user key).getD []
  let ids := if ids.any (· == id) then ids else ids ++ [id]
  match w.put_credential, w.get_index with
  | .done, none =>
    if w.put_index.written then { kv1 with user := update kv.user key (some ids) } else kv1
  | _, _ => kv1

theorem store_credential_spec (record : CredentialRecord) (id : String) :
    ((store_credential w record id).exec s).2 = { s with kv := stored w s.kv record id } := by
  unfold store_credential stored
  rw [exec_bind, kv_put, exec_of]
  cases w.put_credential with
  | lost e | kept e => rfl
  | done =>
    dsimp only
    unfold add_to_user_index kv_get
    rcases w.get_index with _ | e
    · dsimp only
      rw [exec_bind, exec_of]
      dsimp only
      rw [kv_put, exec_of]
      cases w.put_index <;> rfl
    · rfl

structure Assertion where
  client_data_raw : Bytes
  client_data : ClientData
  auth_data_bytes : Bytes
  auth_data : AuthenticatorData
  signature : Bytes
  public_key : Bytes

/-- What `verify_assertion` has checked, step by step. -/
structure Assertion.Accepted [Outside] (m : Fido2Module) (record : CredentialRecord)
    (challenge authenticator_data client_data_json signature : String) (a : Assertion) : Prop where
  client_data_json : Outside.decode client_data_json = .ok a.client_data_raw
  client_data : Outside.client_data a.client_data_raw = .ok a.client_data
  ceremony_type : a.client_data.ceremony_type = "webauthn.get"
  challenge : a.client_data.challenge = challenge
  authenticator_data : Outside.decode authenticator_data = .ok a.auth_data_bytes
  auth_data : parse_authenticator_data a.auth_data_bytes = .ok a.auth_data
  user_present : a.auth_data.user_present = true
  user_verified : a.auth_data.user_verified = true
  rp_id_hash : a.auth_data.rp_id_hash = Outside.sha256 (utf8 m.rp_id)
  public_key : Outside.decode record.public_key_raw = .ok a.public_key
  signature : Outside.decode signature = .ok a.signature
  verified : Outside.verify a.public_key (a.auth_data_bytes ++ Outside.sha256 a.client_data_raw) a.signature = true
  counter : a.auth_data.sign_count = 0 ∨ record.sign_count < a.auth_data.sign_count

theorem verify_assertion_ok [Outside] {c id ad sig cd : String} {v : CredentialRecord × Nat}
    (hr : ((verify_assertion m w c id ad sig cd).exec s).1 = .ok v) : s.kv.cred id = some v.1 ∧
      ∃ a : Assertion, a.Accepted m v.1 c ad cd sig ∧ a.auth_data.sign_count = v.2 := by
  have h : _ = (Except.ok v, s) := Prod.ext hr (reads_verify_assertion c id ad sig cd s)
  unfold verify_assertion at h
  simp only [exec_bind_eq_ok, lift_ok, ensure_ok, load_credential, kv_get_ok, some_or_fail_ok, mapError_eq_ok,
    clone_check, exec_pure, Prod.mk.injEq, Except.ok.injEq] at h
  obtain ⟨⟨data, raw⟩, _, ⟨hdata, rfl⟩, _, _, ⟨-, hload, rfl⟩, record', _, ⟨rfl, rfl⟩, bytes, _, ⟨hbytes, rfl⟩, auth, _,
    ⟨hauth, rfl⟩, _, _, ⟨hpresent, rfl⟩, _, _, ⟨hverified, rfl⟩, _, _, ⟨hrp, rfl⟩, _, _, ⟨hcount, rfl⟩, sig', _,
    ⟨hsig, rfl⟩, key, _, ⟨hkey, rfl⟩, _, _, ⟨hverify, rfl⟩, rfl, -⟩ := h
  unfold parse_client_data at hdata
  rcases hraw : Outside.decode cd with _ | raw' <;> rw [hraw] at hdata
  · cases hdata
  rcases hcd : Outside.client_data raw' with _ | cd' <;> simp only [Except.mapError, hcd, bind, Except.bind] at hdata
  · cases hdata
  rcases hcheck : check_client_data cd' _ _ with _ | u <;> rw [hcheck] at hdata
  · cases hdata
  cases hdata
  obtain ⟨hty, hch⟩ := check_client_data_ok hcheck
  refine ⟨hload, ⟨raw, data, bytes, auth, sig', key⟩, ⟨hraw, hcd, hty, hch, hbytes, hauth, hpresent, hverified,
    eq_of_beq hrp, hkey, hsig, ?_, ?_⟩, rfl⟩
  · unfold verify_signature at hverify
    split at hverify
    · assumption
    · cases hverify
  · simp only [Bool.not_eq_true', Bool.and_eq_false_iff, bne_eq_false_iff_eq, decide_eq_false_iff_not] at hcount
    exact hcount.imp_right Nat.lt_of_not_le

def assertion_passed [Outside] (m : Fido2Module) (w : World) (c id ad sig cd : String) (s : State) :
    Option (CredentialRecord × Nat) :=
  (((consume_challenge c (current_time_secs w) .Authentication) >>= fun _ =>
    verify_assertion m w c id ad sig cd).exec s).1.toOption

def record_to_store [Outside] (m : Fido2Module) (w : World) (c att cd id : String) (push : Option String)
    (s : State) : Option CredentialRecord :=
  (((consume_challenge c (current_time_secs w) .Registration) >>= fun consumed =>
    register_record m w (current_time_secs w) consumed c att cd id push).exec s).1.toOption

/-- How the completion of a ceremony ends: `passed` is what was verified, and the store keeps it as `kv'`. -/
def Completed (w : World) (c id : String) (k : Ceremony) (wrap : Option String → Fido2Response) (passed : Option α)
    (user : α → String) (kv' : α → Kv) (s : State) (r : Except Fault Fido2Response) (s' : State) : Prop :=
  s'.challenges = s.challenges.erase c ∧
    ((∃ e, r = .error e) ∧ passed = none ∧ s'.kv = s.kv ∧ s'.tokens = s.tokens ∨
      ∃ entry a, s.challenges.lookup c = some entry ∧ current_time_secs w ≤ entry.expires_at ∧ entry.ceremony = k ∧
        passed = some a ∧ s'.kv = kv' a ∧
        match r with
        | .ok resp => ∃ token, resp = wrap token ∧ Granted w (user a) id token s.tokens s'.tokens
        | .error _ => Thinned w s.tokens s'.tokens)

section

variable [Outside] {c : String} {k : Ceremony} {x : ConsumedChallenge → Fido2M α}

theorem completed_spec {β : Type} {id : String} {wrap : Option String → Fido2Response} {save : α → Fido2M β}
    {user : α → String} {kv' : α → Kv} (hx : ∀ consumed, Reads (x consumed))
    (hsave : ∀ a s1, s1.kv = s.kv → ((save a).exec s1).2 = { s1 with kv := kv' a }) :
    wp (do
      let consumed ← consume_challenge c (current_time_secs w) k
      let a ← x consumed
      let _ ← save a
      let token ← token_for w (current_time_secs w) (user a) id consumed.browser_session_id
      pure (wrap token))
      (Completed w c id k wrap ((consume_challenge c (current_time_secs w) k >>= x).exec s).1.toOption user kv' s) s := by
  refine (consume_challenge_spec (s := s) c (current_time_secs w) k).bind_exec ?_ ?_
  · rintro consumed s1 hc ⟨rfl, hentry⟩
    obtain ⟨entry, hentry, htime, hkind, -⟩ := hentry consumed rfl
    refine wp.bind_exec (P := fun _ s2 => s2 = { s with challenges := s.challenges.erase c }) (hx consumed _) ?_ ?_
    · rintro a s2 hy rfl
      rw [exec_bind_ok hc, hy]
      refine wp.bind (P := fun _ s3 => s3 = _) (hsave a _ rfl) ?_ ?_
      · rintro _ s3 rfl
        refine (token_for_spec (user a) id consumed.browser_session_id).bind ?_ ?_
        · rintro token s4 ⟨hs4, hgrant⟩
          rw [hs4]
          exact ⟨rfl, .inr ⟨entry, a, hentry, htime, hkind, rfl, rfl, token, rfl, hgrant⟩⟩
        · rintro e s4 ⟨hs4, hthin⟩
          rw [hs4]
          exact ⟨rfl, .inr ⟨entry, a, hentry, htime, hkind, rfl, rfl, hthin⟩⟩
      · rintro e s3 rfl
        exact ⟨rfl, .inr ⟨entry, a, hentry, htime, hkind, rfl, rfl, .refl _ _⟩⟩
    · rintro e s2 hy rfl
      rw [exec_bind_ok hc, hy]
      exact ⟨rfl, .inl ⟨⟨e, rfl⟩, rfl, rfl, rfl⟩⟩
  · rintro e s1 hc ⟨rfl, -⟩
    rw [exec_bind_error hc]
    exact ⟨rfl, .inl ⟨⟨e, rfl⟩, rfl, rfl, rfl⟩⟩

omit [Outside] in
theorem passed_ok {now : UInt64} {a : α}
    (h : ((consume_challenge c now k >>= x).exec s).1.toOption = some a) :
    ∃ consumed s1, s1.kv = s.kv ∧ ((x consumed).exec s1).1 = .ok a := by
  have hs := (consume_challenge_spec (s := s) c now k).1
  rcases hy : (consume_challenge c now k).exec s with ⟨e | consumed, s1⟩
  · rw [exec_bind_error hy] at h
    cases h
  rw [exec_bind_ok hy] at h
  rw [hy] at hs
  refine ⟨consumed, s1, by rw [show s1 = _ from hs], ?_⟩
  rcases hz : ((x consumed).exec s1).1 with e | b <;> rw [hz] at h <;> cases h
  rfl

end

theorem assertion_passed_ok [Outside] {c id ad sig cd : String} {record : CredentialRecord} {n : Nat}
    (h : assertion_passed m w c id ad sig cd s = some (record, n)) : s.kv.cred id = some record ∧
      ∃ a : Assertion, a.Accepted m record c ad cd sig ∧ a.auth_data.sign_count = n := by
  obtain ⟨_, s1, hs, hx⟩ := passed_ok h
  rw [← hs]
  exact verify_assertion_ok hx

theorem record_to_store_ok [Outside] {c att cd id : String} {push : Option String} {record : CredentialRecord}
    (h : record_to_store m w c att cd id push s = some record) : record.rp_id = m.rp_id := by
  obtain ⟨consumed, s1, -, hr⟩ := passed_ok h
  have hx : _ = (Except.ok record, s1) := Prod.ext hr (reads_register_record _ consumed c att cd id push s1)
  unfold register_record at hx
  simp only [exec_bind_eq_ok, exec_pure, Prod.mk.injEq, Except.ok.injEq] at hx
  obtain ⟨_, _, -, _, _, -, _, _, -, _, _, -, _, _, -, _, _, -, _, _, -, _, _, -, _, _, -, _, _, -, _, _, -, _, _, -, _, _, -,
    rfl, -⟩ := hx
  rfl

variable (s w m) in
theorem handle_authenticate_complete_spec [Outside] (c id ad sig cd : String) :
    wp (handle_authenticate_complete m w c id ad sig cd) (Completed w c id .Authentication (.AuthenticateOk "ok")
      (assertion_passed m w c id ad sig cd s) (·.1.user_handle) (fun p => updated w s.kv id p.2) s) s :=
  completed_spec (fun _ => reads_verify_assertion c id ad sig cd) fun p s1 hs => by
    rw [← hs]
    exact update_credential_spec id p.2

variable (s w m) in
theorem handle_register_complete_spec [Outside] (c att cd id : String) (push : Option String) :
    wp (handle_register_complete m w c att cd id push) (Completed w c id .Registration (.RegisterOk "ok")
      (record_to_store m w c att cd id push s) (·.user_handle) (stored w s.kv · id) s) s :=
  completed_spec (fun consumed => reads_register_record _ consumed c att cd id push) fun record s1 hs => by
    rw [← hs]
    exact store_credential_spec record id

def begins : Fido2Request → Option Ceremony
  | .RegisterBegin _ _ _ => some .Registration
  | .AuthenticateBegin _ _ => some .Authentication
  | _ => none

def answers : Fido2Request → Option String
  | .RegisterComplete challenge _ _ _ _ => some challenge
  | .AuthenticateComplete challenge _ _ _ _ => some challenge
  | _ => none

def offers : Fido2Response → Option String
  | .RegisterOptions public_key => some public_key.challenge
  | .AuthenticateOptions public_key => some public_key.challenge
  | _ => none

def grants : Fido2Response → Option String
  | .RegisterOk _ token => token
  | .AuthenticateOk _ token => token
  | _ => none

variable [Outside]

variable (s w m) in
theorem handle_begin {r : Fido2Request} {k : Ceremony} (hr : begins r = some k) :
    ∃ thin, Bounded.Thins (fun e => decide (current_time_secs w < e.expires_at)) s.challenges thin ∧
      ((∃ resp c sid u n, (handle m w r s).1 = some resp ∧ offers resp = some c ∧ grants resp = none ∧
          (handle m w r s).2 = { s with challenges := thin.insert c (challengeEntry (current_time_secs w) sid k u n) }) ∨
        (handle m w r s).2 = { s with challenges := thin } ∧
          ∀ resp, (handle m w r s).1 = some resp → offers resp = none ∧ grants resp = none) := by
  -- both ceremonies begin with a challenge and answer with it
  obtain ⟨sid, u, n, f, hreq, hf⟩ : ∃ sid u n, ∃ f : String → Fido2Response,
      handle_request m w r = (create_challenge w (current_time_secs w) sid k u n >>= fun c => pure (f c)) ∧
        ∀ c, offers (f c) = some c ∧ grants (f c) = none := by
    cases r with
    | RegisterBegin n u sid => cases hr; exact ⟨sid, some u, some n, _, rfl, fun _ => ⟨rfl, rfl⟩⟩
    | AuthenticateBegin cid sid => cases hr; exact ⟨sid, none, none, _, rfl, fun _ => ⟨rfl, rfl⟩⟩
    | RegisterComplete _ _ _ _ _ | AuthenticateComplete _ _ _ _ _ => cases hr
  obtain ⟨thin, hthin, h⟩ := create_challenge_spec (w := w) (s := s) (current_time_secs w) sid k u n
  refine ⟨thin, hthin, ?_⟩
  unfold handle
  rw [hreq, exec_bind]
  rcases hx : (create_challenge w (current_time_secs w) sid k u n).exec s with ⟨e | c, s1⟩ <;> rw [hx] at h
  · cases e with
    | err e => exact .inr ⟨h, fun resp hresp => by cases hresp; exact ⟨rfl, rfl⟩⟩
    | panic => exact .inr ⟨h, fun resp hresp => by cases hresp⟩
  · exact .inl ⟨_, c, sid, u, n, rfl, (hf c).1, (hf c).2, h⟩

end EnclaveOs.Fido2
