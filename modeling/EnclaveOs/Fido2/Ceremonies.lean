import EnclaveOs.Fido2.Specs
import EnclaveOs.Lib.Since

/-! # Challenges and tokens over histories -/

open Option (some)

namespace EnclaveOs.Fido2

open Lib Lib.Method

section Theory

variable [Outside] {m : Fido2Module} {s s' : State} {w : World} {entry : SessionTokenEntry} {e : Event}
  {t c : String}

def respond : Except Fault Fido2Response → Option Fido2Response
  | .ok response => some response
  | .error (.err error) => some (.Error error)
  | .error .panic => none

omit [Outside] in
theorem respond_error {e : Fault} {resp : Fido2Response} (h : respond (.error e) = some resp) :
    ∃ text, resp = .Error text := by
  cases e with
  | err text => exact ⟨text, by cases h; rfl⟩
  | panic => cases h

theorem handle_eq (r : Fido2Request) :
    handle m w r s = (respond ((handle_request m w r).exec s).1, ((handle_request m w r).exec s).2) := by
  unfold handle
  rcases (handle_request m w r).exec s with ⟨(_ | _) | _, _⟩ <;> rfl

section

variable {α : Type} {id : String} {k : Ceremony} {wrap : Option String → Fido2Response} {passed : Option α}
  {user : α → String} {kv' : α → Kv} {r : Except Fault Fido2Response}
  (h : Completed w c id k wrap passed user kv' s r s')

omit [Outside]

include h

theorem Completed.answered {resp : Fido2Response} (hresp : respond r = some resp) :
    (∃ text, resp = .Error text) ∨ ∃ token entry a, resp = wrap token ∧ s.challenges.lookup c = some entry ∧
      current_time_secs w ≤ entry.expires_at ∧ entry.ceremony = k ∧ passed = some a ∧ s'.kv = kv' a ∧
      Granted w (user a) id token s.tokens s'.tokens := by
  rcases r with e | resp'
  · exact .inl (respond_error hresp)
  obtain ⟨-, ⟨⟨e, he⟩, -⟩ | ⟨entry, a, hc, htime, hkind, hp, hkv, token, rfl, hgrant⟩⟩ := h
  · cases he
  · cases hresp
    exact .inr ⟨token, entry, a, rfl, hc, htime, hkind, hp, hkv, hgrant⟩

theorem Completed.grants (hwrap : ∀ token, Fido2.grants (wrap token) = token) :
    ∃ thin, Thinned w s.tokens thin ∧ (s'.tokens = thin ∧ (respond r).bind Fido2.grants = none ∨
      ∃ t sid a, passed = some a ∧ s'.tokens = thin.insert t (tokenEntry w (user a) id sid) ∧
        (respond r).bind Fido2.grants = some t ∧ w.fill_token.map hex_encode = some t) := by
  obtain ⟨-, ⟨⟨e, rfl⟩, -, -, htok⟩ | ⟨_, a, -, -, -, hp, -, hend⟩⟩ := h
  · exact ⟨_, .refl _ _, .inl ⟨htok, by cases e <;> rfl⟩⟩
  rcases r with e | resp
  · exact ⟨_, hend, .inl ⟨rfl, by cases e <;> rfl⟩⟩
  obtain ⟨token, rfl, hgrant⟩ := hend
  rcases token with _ | t
  · exact ⟨_, .refl _ _, .inl ⟨hgrant, hwrap none⟩⟩
  · obtain ⟨thin, sid, hdrawn, hthin, htokens⟩ := hgrant
    exact ⟨thin, hthin, .inr ⟨t, sid, a, hp, htokens, hwrap (some t), hdrawn⟩⟩

end

variable (m s w) in
theorem handle_answers {r : Fido2Request} (hr : answers r = some c) :
    (handle m w r s).2.challenges = s.challenges.erase c ∧
      ∀ resp, (handle m w r s).1 = some resp → offers resp = none := by
  rw [handle_eq]
  cases r with
  | RegisterBegin _ _ _ | AuthenticateBegin _ _ => cases hr
  | RegisterComplete c' id att cd push =>
    cases hr
    have h := handle_register_complete_spec s w m c att cd id push
    refine ⟨h.1, fun resp hresp => ?_⟩
    rcases Completed.answered h hresp with ⟨text, rfl⟩ | ⟨token, _, _, rfl, -⟩ <;> rfl
  | AuthenticateComplete c' id ad cd sig =>
    cases hr
    have h := handle_authenticate_complete_spec s w m c id ad sig cd
    refine ⟨h.1, fun resp hresp => ?_⟩
    rcases Completed.answered h hresp with ⟨text, rfl⟩ | ⟨token, _, _, rfl, -⟩ <;> rfl

theorem handle_authenticated {c id ad cd sig status : String} {token : Option String}
    (h : (handle m w (.AuthenticateComplete c id ad cd sig) s).1 = some (.AuthenticateOk status token)) :
    ∃ entry record, ∃ a : Assertion, s.challenges.lookup c = some entry ∧ current_time_secs w ≤ entry.expires_at ∧
      entry.ceremony = .Authentication ∧
      assertion_passed m w c id ad sig cd s = some (record, a.auth_data.sign_count) ∧
      s.kv.cred id = some record ∧ a.Accepted m record c ad cd sig ∧
      (handle m w (.AuthenticateComplete c id ad cd sig) s).2.kv = updated w s.kv id a.auth_data.sign_count ∧
      Granted w record.user_handle id token s.tokens (handle m w (.AuthenticateComplete c id ad cd sig) s).2.tokens := by
  rw [handle_eq] at h ⊢
  rcases Completed.answered (handle_authenticate_complete_spec s w m c id ad sig cd) h with
    ⟨text, ht⟩ | ⟨_, entry, ⟨record, n⟩, ht, hc, htime, hkind, hpass, hkv, hgrant⟩
  · cases ht
  cases ht
  obtain ⟨hrecord, a, ha, rfl⟩ := assertion_passed_ok hpass
  exact ⟨entry, record, a, hc, htime, hkind, hpass, hrecord, ha, hkv, hgrant⟩

/-! ## Challenges -/

/-- The event hands out the challenge `c`, good until `expires_at`. -/
def Issues (m : Fido2Module) (c : String) (s : State) (e : Event) (k : Ceremony) (expires_at : UInt64) : Prop :=
  ∃ w r resp, e = .request w r ∧ begins r = some k ∧ (handle m w r s).1 = some resp ∧ offers resp = some c ∧
    expires_at = current_time_secs w + CHALLENGE_TTL_SECS

/-- The event completes `c`, hands it out again, or clears the memory. -/
inductive Touches (m : Fido2Module) (c : String) (s : State) : Event → Prop
  | answers {w : World} {r : Fido2Request} (h : answers r = some c) : Touches m c s (.request w r)
  | offers {w : World} {r : Fido2Request} {resp : Fido2Response} (hresp : (handle m w r s).1 = some resp)
      (h : offers resp = some c) : Touches m c s (.request w r)
  | restart {w : World} {list : Option (List String)} : Touches m c s (.restart w list)

omit [Outside] in
theorem begins_or_answers (r : Fido2Request) :
    (∃ k, begins r = some k ∧ answers r = none) ∨ ∃ c, answers r = some c ∧ begins r = none := by
  cases r <;> first | exact .inl ⟨_, rfl, rfl⟩ | exact .inr ⟨_, rfl, rfl⟩

omit [Outside] in
theorem start_eq (w : World) (list : Option (List String)) (kv : Kv) :
    ∃ aaguid_allow, start w list kv = ⟨∅, ∅, { kv with aaguid_allow }⟩ := by
  unfold start init_aaguid_allowlist put_allowlist kv_get kv_put
  rcases list with _ | l
  · rcases w.get_aaguid_allow with _ | e
    · rw [exec_bind, exec_of]
      dsimp only
      rcases kv.aaguid_allow with _ | l
      · dsimp only
        rw [exec_of]
        cases w.put_aaguid_allow <;> exact ⟨_, rfl⟩
      · exact ⟨_, rfl⟩
    · exact ⟨_, rfl⟩
  · rw [exec_of]
    cases w.put_aaguid_allow <;> exact ⟨_, rfl⟩

omit [Outside] in
theorem start_memory (w : World) (list : Option (List String)) (kv : Kv) :
    (start w list kv).challenges = ∅ ∧ (start w list kv).tokens = ∅ := by
  obtain ⟨allow, h⟩ := start_eq w list kv
  rw [h]
  exact ⟨rfl, rfl⟩

theorem step_challenge {entry : ChallengeEntry} (h : (step m s e).challenges.lookup c = some entry) :
    Issues m c s e entry.ceremony entry.expires_at ∨ s.challenges.lookup c = some entry ∧ ¬ Touches m c s e := by
  cases e with
  | request w r =>
    change (handle m w r s).2.challenges.lookup c = some entry at h
    rcases begins_or_answers r with ⟨k, hk, hnone⟩ | ⟨c', hc', hnone⟩
    · obtain ⟨thin, hthin, ⟨resp, c', sid, u, n, hresp, hoff, -, hs⟩ | ⟨hs, hno⟩⟩ := handle_begin s w m hk
      · rw [hs] at h
        by_cases hcc : c = c'
        · subst hcc
          rw [AList.lookup_insert, some.injEq] at h
          subst h
          exact .inl ⟨w, r, resp, rfl, hk, hresp, hoff, rfl⟩
        rw [AList.lookup_insert_ne hcc] at h
        refine .inr ⟨hthin.old h, ?_⟩
        rintro (ha | ⟨hresp', ho⟩ | _)
        · rw [hnone] at ha
          cases ha
        · rw [hresp, some.injEq] at hresp'
          rw [← hresp', hoff, some.injEq] at ho
          exact hcc ho.symm
      · rw [hs] at h
        refine .inr ⟨hthin.old h, ?_⟩
        rintro (ha | ⟨hresp', ho⟩ | _)
        · rw [hnone] at ha
          cases ha
        · rw [(hno _ hresp').1] at ho
          cases ho
    · obtain ⟨herase, hno⟩ := handle_answers m s w hc'
      rw [herase] at h
      by_cases hcc : c = c'
      · rw [hcc, AList.lookup_erase] at h
        cases h
      rw [AList.lookup_erase_ne hcc] at h
      refine .inr ⟨h, ?_⟩
      rintro (ha | ⟨hresp', ho⟩ | _)
      · rw [hc', some.injEq] at ha
        exact hcc ha.symm
      · rw [hno _ hresp'] at ho
        cases ho
  | validate token now | revoke token => exact .inr ⟨h, by rintro ⟨⟩⟩
  | restart w list =>
    change (start w list s.kv).challenges.lookup c = some entry at h
    rw [(start_memory w list s.kv).1] at h
    cases h

/-! ## Tokens -/

def tokenOf (m : Fido2Module) (s : State) : Event → Option String
  | .request w r => (handle m w r s).1.bind grants
  | _ => none

/-- The event answers with the token `t`, for the user of the credential it names. -/
def Grants (m : Fido2Module) (t : String) (s : State) (e : Event) (entry : SessionTokenEntry) : Prop :=
  tokenOf m s e = some t ∧ ∀ w c id ad cd sig record,
    e = .request w (.AuthenticateComplete c id ad cd sig) → s.kv.cred id = some record →
      ∃ sid, entry = tokenEntry w record.user_handle id sid

variable (m s w) in
theorem handle_tokens (r : Fido2Request) :
    ∃ thin, Thinned w s.tokens thin ∧
      ((handle m w r s).2.tokens = thin ∧ tokenOf m s (.request w r) = none ∨
        ∃ t entry, (handle m w r s).2.tokens = thin.insert t entry ∧ Grants m t s (.request w r) entry ∧
          entry.expires_at = current_time_secs w + SESSION_TOKEN_TTL_SECS ∧ w.fill_token.map hex_encode = some t) := by
  rcases begins_or_answers r with ⟨k, hk, -⟩ | ⟨c, hc, -⟩
  · refine ⟨s.tokens, .refl _ _, .inl ?_⟩
    obtain ⟨thin, -, ⟨resp, c, _, _, _, hresp, -, hg, hs⟩ | ⟨hs, hno⟩⟩ := handle_begin s w m hk
    · exact ⟨by rw [hs], by rw [tokenOf, hresp]; exact hg⟩
    refine ⟨by rw [hs], ?_⟩
    rw [tokenOf]
    rcases hresp : (handle m w r s).1 with _ | resp
    · rfl
    · exact (hno resp hresp).2
  · unfold Grants
    rw [tokenOf, handle_eq]
    cases r with
    | RegisterBegin _ _ _ | AuthenticateBegin _ _ => cases hc
    | RegisterComplete c' id att cd push =>
      obtain ⟨thin, hthin, hkeep | ⟨t, sid, record, -, htok, ht, hdrawn⟩⟩ :=
        Completed.grants (handle_register_complete_spec s w m c' att cd id push) fun _ => rfl
      · exact ⟨thin, hthin, .inl hkeep⟩
      · exact ⟨thin, hthin, .inr ⟨t, _, htok, ⟨ht, by rintro _ _ _ _ _ _ _ ⟨⟩⟩, rfl, hdrawn⟩⟩
    | AuthenticateComplete c' id ad cd sig =>
      obtain ⟨thin, hthin, hkeep | ⟨t, sid, ⟨record, n⟩, hpass, htok, ht, hdrawn⟩⟩ :=
        Completed.grants (handle_authenticate_complete_spec s w m c' id ad sig cd) fun _ => rfl
      · exact ⟨thin, hthin, .inl hkeep⟩
      refine ⟨thin, hthin, .inr ⟨t, _, htok, ⟨ht, ?_⟩, rfl, hdrawn⟩⟩
      rintro _ _ _ _ _ _ record' ⟨⟩ hrecord'
      rw [(assertion_passed_ok hpass).1, some.injEq] at hrecord'
      exact ⟨sid, by rw [← hrecord']⟩

theorem step_token (h : (step m s e).tokens.lookup t = some entry) :
    Grants m t s e entry ∨ s.tokens.lookup t = some entry := by
  cases e with
  | request w r =>
    change (handle m w r s).2.tokens.lookup t = some entry at h
    obtain ⟨thin, hthin, ⟨hs, -⟩ | ⟨t', entry', hs, hgrant, -⟩⟩ := handle_tokens m s w r
    · rw [hs] at h
      exact .inr (hthin.old h)
    rw [hs] at h
    by_cases htt : t = t'
    · subst htt
      rw [AList.lookup_insert, some.injEq] at h
      subst h
      exact .inl hgrant
    · rw [AList.lookup_insert_ne htt] at h
      exact .inr (hthin.old h)
  | validate token now => exact .inr h
  | revoke token =>
    change (s.tokens.erase token).lookup t = some entry at h
    by_cases htt : t = token
    · rw [htt, AList.lookup_erase] at h
      cases h
    · rw [AList.lookup_erase_ne htt] at h
      exact .inr h
  | restart w list =>
    change (start w list s.kv).tokens.lookup t = some entry at h
    rw [(start_memory w list s.kv).2] at h
    cases h

theorem tokenOf_drawn {r : Fido2Request} (h : tokenOf m s (.request w r) = some t) :
    w.fill_token.map hex_encode = some t := by
  obtain ⟨_, -, ⟨-, hnone⟩ | ⟨t', _, -, hgrant, -, hdrawn⟩⟩ := handle_tokens m s w r
  · rw [hnone] at h
    cases h
  · obtain rfl := Option.some.inj (hgrant.1.symm.trans h)
    exact hdrawn

/-- What may take away the token `t`, good until `expires_at`. -/
inductive Ends (t : String) (expires_at : UInt64) : Event → Prop
  | late {w : World} {r : Fido2Request} (h : expires_at ≤ current_time_secs w) : Ends t expires_at (.request w r)
  | revoke : Ends t expires_at (.revoke t)
  | restart {w : World} {list : Option (List String)} : Ends t expires_at (.restart w list)

theorem step_keeps_token
    (h : s.tokens.lookup t = some entry) (hno : ¬ Ends t entry.expires_at e) (hother : tokenOf m s e ≠ some t) :
    (step m s e).tokens.lookup t = some entry := by
  cases e with
  | request w r =>
    change (handle m w r s).2.tokens.lookup t = some entry
    have hlive : decide (current_time_secs w < entry.expires_at) = true :=
      decide_eq_true (UInt64.not_le.mp fun hle => hno (.late hle))
    obtain ⟨thin, hthin, ⟨hs, -⟩ | ⟨t', entry', hs, hgrant, -⟩⟩ := handle_tokens m s w r
    · rw [hs]
      exact hthin.stays h hlive
    · have htt : t ≠ t' := fun htt => hother (htt ▸ hgrant.1)
      rw [hs, AList.lookup_insert_ne htt]
      exact hthin.stays h hlive
  | validate token now => exact h
  | revoke token =>
    have htt : t ≠ token := fun htt => hno (htt ▸ .revoke)
    exact (AList.lookup_erase_ne htt).trans h
  | restart w list => exact absurd .restart hno

/-! ## Histories -/

variable (m)

/-- Event `j` hands out a challenge of kind `k`, and `i` is the first to answer it, in time. -/
def Spends (s0 : State) (es : List Event) (k : Ceremony) (j i : Nat) : Prop :=
  j < i ∧ ∃ c ej w r expires_at, es[j]? = some ej ∧ Issues m c (before (step m) s0 es j) ej k expires_at ∧
    es[i]? = some (.request w r) ∧ answers r = some c ∧ current_time_secs w ≤ expires_at ∧
    Quiet (step m) s0 es (Touches m c) (j + 1) i

/-- No two tokens are made of the same bytes of the generator. -/
def FreshTokens (s0 : State) (es : List Event) : Prop :=
  ∀ i j w r w' r', es[i]? = some (.request w r) → es[j]? = some (.request w' r') →
    (tokenOf m (before (step m) s0 es i) (.request w r)).isSome →
    (tokenOf m (before (step m) s0 es j) (.request w' r')).isSome → w.fill_token = w'.fill_token → i = j

variable {m}

omit [Outside] in
theorem hex_encode_injective : Function.Injective hex_encode := by
  have hdigit : ∀ a b : Fin 16, hex_digit a = hex_digit b → a = b := by decide
  intro bytes bytes' h
  have hflat := String.ofList_injective h
  clear h
  induction bytes generalizing bytes' with
  | nil => cases bytes' <;> simp_all
  | cons b bytes ih =>
    rcases bytes' with _ | ⟨b', bytes'⟩
    · simp at hflat
    simp only [List.flatMap_cons, List.cons_append, List.nil_append, List.cons.injEq] at hflat
    obtain ⟨hhigh, hlow, hrest⟩ := hflat
    have hlt := b.toNat_lt
    have hlt' := b'.toNat_lt
    have hhigh := congrArg Fin.val (hdigit ⟨b.toNat / 16, by omega⟩ ⟨b'.toNat / 16, by omega⟩ hhigh)
    have hlow := congrArg Fin.val (hdigit ⟨b.toNat % 16, by omega⟩ ⟨b'.toNat % 16, by omega⟩ hlow)
    dsimp only at hhigh hlow
    rw [ih hrest, UInt8.toNat_inj.mp (by omega : b.toNat = b'.toNat)]

theorem FreshTokens.unique {s0 : State} {es : List Event} (h : FreshTokens m s0 es) {i j : Nat} {ei ej : Event}
    {t : String} (hi : es[i]? = some ei) (hj : es[j]? = some ej)
    (ht : tokenOf m (before (step m) s0 es i) ei = some t) (ht' : tokenOf m (before (step m) s0 es j) ej = some t) :
    i = j := by
  cases ei with
  | request w r =>
    cases ej with
    | request w' r' =>
      refine h i j w r w' r' hi hj (by rw [ht]; rfl) (by rw [ht']; rfl) ?_
      exact Option.map_injective hex_encode_injective ((tokenOf_drawn ht).trans (tokenOf_drawn ht').symm)
    | _ => cases ht'
  | _ => cases ht

variable {k k' : Ceremony} {es : List Event} {i : Nat} {list : Option (List String)} {w0 : World} {kv : Kv}

theorem Issues.unique {c c' : String} {x x' : UInt64} (h : Issues m c s e k x)
    (h' : Issues m c' s e k' x') : c = c' ∧ k = k' := by
  obtain ⟨w, r, resp, rfl, hk, hresp, hoff, -⟩ := h
  obtain ⟨_, _, _, ⟨⟩, hk', hresp', hoff', -⟩ := h'
  rw [hk, some.injEq] at hk'
  rw [hresp, some.injEq] at hresp'
  rw [← hresp', hoff, some.injEq] at hoff'
  exact ⟨hoff', hk'⟩

theorem Spends.not_twice {s0 : State} {j i' : Nat}
    (h : Spends m s0 es k j i) (h' : Spends m s0 es k' j i') (hlt : i < i') : False := by
  obtain ⟨hji, c, e, w, r, x, hj, hissue, hi, hans, -, -⟩ := h
  obtain ⟨-, c', e', w', r', x', hj', hissue', -, -, -, hquiet⟩ := h'
  rw [hj, some.injEq] at hj'
  subst hj'
  obtain ⟨rfl, -⟩ := hissue.unique hissue'
  exact hquiet i _ hji hlt hi (.answers hans)

theorem Spends.unique {s0 : State} {j i' : Nat}
    (h : Spends m s0 es k j i) (h' : Spends m s0 es k' j i') : i = i' ∧ k = k' := by
  rcases Nat.lt_trichotomy i i' with hlt | rfl | hlt
  · exact (h.not_twice h' hlt).elim
  · obtain ⟨-, c, e, _, _, x, hj, hissue, -⟩ := h
    obtain ⟨-, c', e', _, _, x', hj', hissue', -⟩ := h'
    rw [hj, some.injEq] at hj'
    subst hj'
    exact ⟨rfl, (hissue.unique hissue').2⟩
  · exact (h'.not_twice h hlt).elim

theorem spends_of_lookup {w : World}
    {r : Fido2Request} {entry : ChallengeEntry} (hi : es[i]? = some (.request w r)) (hr : answers r = some c)
    (hc : (before (step m) (start w0 list kv) es i).challenges.lookup c = some entry)
    (htime : current_time_secs w ≤ entry.expires_at) :
    ∃ j, Spends m (start w0 list kv) es entry.ceremony j i := by
  obtain ⟨j, e, hji, hj, hissue, hquiet⟩ := since (fun s : State => s.challenges.lookup c) (Touches m c)
    (by rw [(start_memory w0 list kv).1]; rfl) (fun s e v => step_challenge) hc
  exact ⟨j, hji, c, e, w, r, entry.expires_at, hj, hissue, hi, hr, htime, hquiet⟩

omit [Outside] in
theorem validate_token_ok {now : UInt64} :
    validate_token s t now = .ok entry ↔ s.tokens.lookup t = some entry ∧ now ≤ entry.expires_at := by
  unfold validate_token
  rcases s.tokens.lookup t with _ | e
  · simp
  dsimp only
  split
  · rename_i h
    simp only [reduceCtorEq, some.injEq, false_iff, not_and]
    rintro rfl hle
    exact absurd h (UInt64.not_lt.mpr hle)
  · rename_i h
    simp only [Except.ok.injEq, some.injEq]
    exact ⟨fun he => ⟨he, he ▸ UInt64.not_lt.mp h⟩, fun he => he.1⟩

variable (m) in
theorem authentication_sound (w0 : World) (list : Option (List String)) (kv : Kv) (es : List Event) :
    (∀ i w c id ad cd sig status token,
      es[i]? = some (.request w (.AuthenticateComplete c id ad cd sig)) →
      (handle m w (.AuthenticateComplete c id ad cd sig) (before (step m) (start w0 list kv) es i)).1 =
        some (.AuthenticateOk status token) →
      (∃ j, Spends m (start w0 list kv) es .Authentication j i) ∧
      ∃ record, ∃ a : Assertion, (before (step m) (start w0 list kv) es i).kv.cred id = some record ∧
        a.Accepted m record c ad cd sig ∧
        ∀ t n now, token = some t → FreshTokens m (start w0 list kv) es →
          (∀ entry, validate_token (before (step m) (start w0 list kv) es n) t now = .ok entry →
            entry.user_handle = record.user_handle ∧ entry.credential_id = id ∧
              now ≤ current_time_secs w + SESSION_TOKEN_TTL_SECS) ∧
          (i < n → now ≤ current_time_secs w + SESSION_TOKEN_TTL_SECS →
            Quiet (step m) (start w0 list kv) es
              (fun _ e => Ends t (current_time_secs w + SESSION_TOKEN_TTL_SECS) e) (i + 1) n →
            ∃ entry, validate_token (before (step m) (start w0 list kv) es n) t now = .ok entry)) ∧
    (∀ i w c id att cd push status token,
      es[i]? = some (.request w (.RegisterComplete c id att cd push)) →
      (handle m w (.RegisterComplete c id att cd push) (before (step m) (start w0 list kv) es i)).1 =
        some (.RegisterOk status token) →
      ∃ j, Spends m (start w0 list kv) es .Registration j i) ∧
    ∀ k k' j i i', Spends m (start w0 list kv) es k j i → Spends m (start w0 list kv) es k' j i' → i = i' ∧ k = k' := by
  refine ⟨?_, ?_, fun k k' j i i' h h' => h.unique h'⟩
  · intro i w c id ad cd sig status token hi hok
    obtain ⟨entry, record, a, hc, htime, hkind, -, hrecord, ha, -, hgrant⟩ := handle_authenticated hok
    refine ⟨hkind ▸ spends_of_lookup hi rfl hc htime, record, a, hrecord, ha, ?_⟩
    rintro t n now rfl hfresh
    have ht : tokenOf m (before (step m) (start w0 list kv) es i) (.request w (.AuthenticateComplete c id ad cd sig)) =
        some t := by
      rw [tokenOf, hok]
      rfl
    constructor
    · intro entry hv
      obtain ⟨hentry, htime⟩ := validate_token_ok.mp hv
      obtain ⟨j, ej, -, hj, hgrant, -⟩ := since (fun s : State => s.tokens.lookup t) (fun _ _ => False)
        (by rw [(start_memory w0 list kv).2]; rfl)
        (fun s e v h => (step_token h).imp_right fun hold => ⟨hold, not_false⟩) hentry
      -- the token is fresh, so its only grant is this one
      obtain rfl := hfresh.unique hi hj ht hgrant.1
      rw [hi, some.injEq] at hj
      subst hj
      obtain ⟨sid, rfl⟩ := hgrant.2 w c id ad cd sig record rfl hrecord
      exact ⟨rfl, rfl, htime⟩
    · intro hin htime hquiet
      obtain ⟨thin, sid, -, -, htokens⟩ := hgrant
      have hafter : (before (step m) (start w0 list kv) es (i + 1)).tokens.lookup t =
          some (tokenEntry w record.user_handle id sid) := by
        rw [before_succ hi]
        change (handle m w _ _).2.tokens.lookup t = _
        rw [htokens, AList.lookup_insert]
      have hstill := until_touched
        (fun s : State => s.tokens.lookup t = some (tokenEntry w record.user_handle id sid))
        (fun s e => Ends t (current_time_secs w + SESSION_TOKEN_TTL_SECS) e ∨ tokenOf m s e = some t)
        (fun s e h hno => step_keeps_token h (fun hend => hno (.inl hend)) fun hagain => hno (.inr hagain))
        hin hafter (fun k e hk hkn hke => by
          rintro (hend | hagain)
          · exact hquiet k e hk hkn hke hend
          · have := hfresh.unique hi hke ht hagain
            omega)
      exact ⟨_, validate_token_ok.mpr ⟨hstill, htime⟩⟩
  · intro i w c id att cd push status token hi hok
    rw [handle_eq] at hok
    rcases Completed.answered (handle_register_complete_spec (before (step m) (start w0 list kv) es i) w m c att cd id
      push) hok with ⟨text, ht⟩ | ⟨_, entry, _, -, hc, htime, hkind, -⟩
    · cases ht
    · exact hkind ▸ spends_of_lookup hi rfl hc htime

end Theory

namespace Sample

/-! ## Alice authenticates twice -/

def chars (b : Bytes) : String := String.ofList (b.map fun x => Char.ofNat x.toNat)

def codes (s : String) : Bytes := s.toList.map fun c => UInt8.ofNat c.toNat

def key : Value :=
  .Map [(.Integer 1, .Integer 2), (.Integer (-1), .Integer 1), (.Integer (-2), .Bytes (List.replicate 32 7)),
    (.Integer (-3), .Bytes (List.replicate 32 8))]

/-- Client data stands for its challenge, after a 0 if it is to create. -/
scoped instance outside : Outside where
  overflow_checks := false
  encode := chars
  decode := fun s => .ok (codes s)
  client_data
    | 0 :: b => .ok ⟨"webauthn.create", chars b, ""⟩
    | b => .ok ⟨"webauthn.get", chars b, ""⟩
  from_reader := fun b => .ok (if b = [9] then key else .Map [(.Text "authData", .Bytes b)])
  sha256 := fun _ => List.replicate 32 0
  verify := fun key _ sig => key == sig

def rp : Fido2Module := ⟨"rp", "RP"⟩

def auth_data (n : UInt8) : String := chars (List.replicate 32 0 ++ [5, 0, 0, 0, n])

def record (n : Nat) : CredentialRecord := ⟨"alice", "Alice", "", "k", "", n, 0, "rp", none⟩

def kv (n : Nat) : Kv := ⟨fun id => if id = "id" then some (record n) else none, fun _ => none, none⟩

def boot : World := ⟨some 0, none, none, none, .done, .done, none, .done, none, none, .done⟩

def auth (w : World) (c : UInt8) (n : UInt8) : List Event :=
  [.request { w with fill_challenge := some [c] } (.AuthenticateBegin none (some "browser")),
    .request { w with fill_token := some [c] } (.AuthenticateComplete (chars [c]) "id" (auth_data n) (chars [c]) "k")]

def nothing : Kv := ⟨fun _ => none, fun _ => none, none⟩

def attestation (id : String) : String :=
  chars (List.replicate 32 0 ++ [0x45, 0, 0, 0, 0] ++ List.replicate 16 0 ++ [0, UInt8.ofNat id.length] ++ codes id ++ [9])

def registration (w : World) (c : UInt8) (user id : String) : List Event :=
  [.request { w with fill_challenge := some [c] } (.RegisterBegin user user none),
    .request w (.RegisterComplete (chars [c]) id (attestation id) (chars [0, c]) none)]

end Sample

open Sample in
/-- Two authentications. The token of the first is good after the second. -/
theorem authentication_sound_twice :
    let es := auth boot 1 7 ++ auth boot 2 9
    let s := before (step rp) (start boot none (kv 3)) es
    (∃ j, Spends rp (start boot none (kv 3)) es .Authentication j 1) ∧ FreshTokens rp (start boot none (kv 3)) es ∧
      (handle rp { boot with fill_token := some [2] }
        (.AuthenticateComplete (chars [2]) "id" (auth_data 9) (chars [2]) "k") (s 3)).1 =
          some (.AuthenticateOk "ok" (some "02")) ∧
      ∃ entry, validate_token (s 4) "01" 60 = .ok entry ∧ entry.user_handle = "alice" := by
  intro es s
  have hok : (handle rp { boot with fill_token := some [1] }
      (.AuthenticateComplete (chars [1]) "id" (auth_data 7) (chars [1]) "k") (s 1)).1 =
        some (.AuthenticateOk "ok" (some "01")) := by
    decide +kernel
  have hfresh : FreshTokens rp (start boot none (kv 3)) es := by
    rintro (_ | _ | _ | _ | i) (_ | _ | _ | _ | j) w r w' r' hi hj ht ht' hdrawn <;> cases hi <;> cases hj
    all_goals
      first
      | rfl
      | exact absurd hdrawn (by decide)
      | exact absurd ht (by decide +kernel)
  obtain ⟨hspends, record, _, hrecord, -, htoken⟩ :=
    (authentication_sound rp boot none (kv 3) es).1 1 _ _ _ _ _ _ _ _ rfl hok
  obtain ⟨hvalid, hgood⟩ := htoken "01" 4 60 rfl hfresh
  have hquiet : Quiet (step rp) (start boot none (kv 3)) es
      (fun _ e => Ends "01" (current_time_secs boot + SESSION_TOKEN_TTL_SECS) e) 2 4 := by
    intro k e hk hk' he hend
    obtain rfl | rfl : k = 2 ∨ k = 3 := by omega
    all_goals
      cases he
      cases hend with
      | late h => exact absurd h (by decide)
  obtain ⟨entry, hentry⟩ := hgood (by decide) (by decide) hquiet
  refine ⟨hspends, hfresh, by decide +kernel, entry, hentry, ?_⟩
  have halice : ((s 1).kv.cred "id").map (·.user_handle) = some "alice" := by decide +kernel
  rw [(hvalid entry hentry).1]
  rw [hrecord] at halice
  exact Option.some.inj halice

end EnclaveOs.Fido2
