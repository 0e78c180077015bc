import EnclaveOs.Session.Relay

/-! # Counters and nonces of a session -/

open Function (update update_of_ne update_self)

namespace EnclaveOs.Session

open Lib Lib.Method

/-! ## What a call can do to an entry -/

structure Later (e e' : SessionEntry) : Prop where
  key : e'.aead_key = e.aead_key
  c2s : e'.c2s_prefix = e.c2s_prefix
  s2c : e'.s2c_prefix = e.s2c_prefix
  seen : e.c2s_last_seen ≤ e'.c2s_last_seen
  next : e.s2c_next ≤ e'.s2c_next

theorem Later.refl (e : SessionEntry) : Later e e := ⟨rfl, rfl, rfl, Int64.le_refl _, UInt64.le_refl _⟩

theorem Later.trans {a b c : SessionEntry} (h : Later a b) (h' : Later b c) : Later a c :=
  ⟨h'.key.trans h.key, h'.c2s.trans h.c2s, h'.s2c.trans h.s2c, Int64.le_trans h.seen h'.seen,
    UInt64.le_trans h.next h'.next⟩

/-- An entry was there before, perhaps earlier in its life. -/
def Ages (id : String) (s s' : State) : Prop :=
  ∀ e', s'.sessions id = some e' → ∃ e, s.sessions id = some e ∧ Later e e'

theorem Ages.refl (id : String) (s : State) : Ages id s s := fun e h => ⟨e, h, .refl e⟩

theorem Ages.trans {id : String} {a b c : State} (h : Ages id a b) (h' : Ages id b c) : Ages id a c := by
  intro e'' hc
  obtain ⟨e', hb, hl'⟩ := h' e'' hc
  obtain ⟨e, ha, hl⟩ := h e' hb
  exact ⟨e, ha, hl.trans hl'⟩

/-- Every entry is as it was, except that some that have expired are gone. -/
def Drops (now : UInt64) (s s' : State) : Prop :=
  ∀ id, s'.sessions id = s.sessions id ∨ s'.sessions id = none ∧ ∃ e, s.sessions id = some e ∧ e.expires_at ≤ now

theorem Drops.refl (now : UInt64) (s : State) : Drops now s s := fun _ => .inl rfl

variable {now : UInt64}

theorem Drops.trans {a b c : State} (h : Drops now a b) (h' : Drops now b c) : Drops now a c := by
  intro id
  rcases h' id with hk | ⟨hn, e, he, hx⟩
  · rw [hk]
    exact h id
  rcases h id with hk | ⟨hn', _⟩
  · exact .inr ⟨hn, e, hk ▸ he, hx⟩
  · rw [hn'] at he
    cases he

theorem Drops.some {s s' : State} (h : Drops now s s') {id : String} {e : SessionEntry}
    (he : s'.sessions id = some e) : s.sessions id = some e := by
  rcases h id with hk | ⟨hn, _⟩
  · rw [← hk]
    exact he
  · rw [hn] at he
    cases he

theorem Drops.ages {s s' : State} (h : Drops now s s') (id : String) : Ages id s s' :=
  fun e he => ⟨e, h.some he, .refl e⟩

section Model

variable [Outside] (checks : Bool) {s s' : State} {now : UInt64} {id : String} {e : SessionEntry} {a b : UInt64}
  {op : AeadOp} {c : Call}

section

omit [Outside]

theorem drops_sweep_expired (now : UInt64) (s : State) : Drops now s ((sweep_expired checks now).exec s).2 := by
  unfold sweep_expired
  rw [exec_bind_ok (exec_state s)]
  dsimp only
  split
  · exact Drops.refl now s
  split
  · exact Drops.refl now s
  intro id
  rw [exec_update]
  dsimp only
  rcases h : s.sessions id with _ | e
  · exact .inl rfl
  by_cases hx : now < e.expires_at
  · simp [hx]
  · have hle := UInt64.not_lt.mp hx
    exact .inr ⟨by simp [hle], e, rfl, hle⟩

theorem live_entry_ok (h : (live_entry id now).exec s = (.ok e, s')) : s' = s ∧ s.sessions id = some e := by
  unfold live_entry at h
  rw [exec_bind_ok (exec_state s)] at h
  rcases he : s.sessions id with _ | e0
  · rw [he] at h
    cases h
  rw [he] at h
  dsimp only at h
  split at h
  · cases h
  · cases h
    exact ⟨rfl, rfl⟩

theorem drops_live_entry (id : String) (now : UInt64) (s : State) : Drops now s ((live_entry id now).exec s).2 := by
  unfold live_entry
  rw [exec_bind_ok (exec_state s)]
  rcases he : s.sessions id with _ | e
  · exact Drops.refl now s
  dsimp only
  split
  · rename_i hx
    intro j
    rw [exec_bind_ok (exec_update _ s)]
    by_cases hj : j = id
    · subst hj
      exact .inr ⟨by simp [err], e, he, hx⟩
    · exact .inl (by simp [err, hj])
  · exact Drops.refl now s

/-- What an opening has checked before it decrypts. -/
structure Admitted (s s' : State) (id method path : String) (body : Bytes) (now : UInt64) (e : SessionEntry)
    (ctr : UInt64) (op : AeadOp) : Prop where
  drops : Drops now s s'
  entry : s'.sessions id = some e
  fresh : e.c2s_last_seen < ctr.toInt64
  body : ∃ ct, cbor_decode_envelope body = .ok (ctr, ct)
  nonce : op.nonce = e.c2s_prefix ++ u64Be ctr

theorem admit_request_ok {method path : String} {body : Bytes} {ctr : UInt64}
    (h : (admit_request checks id method path body now).exec s = (.ok (e, ctr, op), s')) :
    Admitted s s' id method path body now e ctr op := by
  unfold admit_request at h
  obtain ⟨_, s1, h1, hx⟩ := exec_bind_eq_ok.mp h
  obtain ⟨⟨ctr0, ct⟩, s2, h2, hy⟩ := exec_bind_eq_ok.mp hx
  obtain ⟨e0, s3, h3, hz⟩ := exec_bind_eq_ok.mp hy
  have hdrops := drops_sweep_expired checks now s
  rw [h1] at hdrops
  rw [exec_ofExcept] at h2
  obtain ⟨hdec, rfl⟩ := Prod.mk.inj h2
  obtain ⟨rfl, hentry⟩ := live_entry_ok h3
  split at hz
  · cases hz
  rename_i hlast
  cases hz
  exact ⟨hdrops, hentry, Int64.not_le.mp hlast, ⟨ct, hdec⟩, rfl⟩

theorem drops_admit_request (id method path : String) (body : Bytes) (now : UInt64) (s : State) :
    Drops now s ((admit_request checks id method path body now).exec s).2 := by
  have hdrops := drops_sweep_expired checks now s
  unfold admit_request
  rw [exec_bind]
  rcases h1 : (sweep_expired checks now).exec s with ⟨e | _, s1⟩
  · rw [h1] at hdrops
    exact hdrops
  rw [h1] at hdrops
  dsimp only
  rcases hdec : cbor_decode_envelope body with f | r
  · rw [exec_bind_error (exec_ofExcept _ _)]
    exact hdrops
  rw [exec_bind_ok (exec_ofExcept _ _), exec_bind]
  have hlive := drops_live_entry id now s1
  rcases h2 : (live_entry id now).exec s1 with ⟨e | e, s2⟩
  · rw [h2] at hlive
    exact hdrops.trans hlive
  rw [h2] at hlive
  dsimp only
  split <;> exact hdrops.trans hlive

end

theorem open_request_cases (id method path : String) (body : Bytes) (now : UInt64) (s : State) :
    (∃ f, ((open_request checks id method path body now).exec s).1 = .error f ∧
      Drops now s ((open_request checks id method path body now).exec s).2) ∨
    ∃ pt s1 e ctr op, (admit_request checks id method path body now).exec s = (.ok (e, ctr, op), s1) ∧
      (open_request checks id method path body now).exec s = (.ok pt, { s1 with
        sessions := update s1.sessions id (some { e with
          c2s_last_seen := ctr.toInt64, expires_at := satAdd now SESSION_TTL_SECS }) }) := by
  have hdrops := drops_admit_request checks id method path body now s
  unfold open_request
  rw [exec_bind]
  rcases h1 : (admit_request checks id method path body now).exec s with ⟨f | ⟨e, ctr, op⟩, s1⟩
  · rw [h1] at hdrops
    exact .inl ⟨f, rfl, hdrops⟩
  rw [h1] at hdrops
  dsimp only
  rcases hopen : Outside.open_in_place op.key op.nonce op.aad op.text with _ | pt
  · exact .inl ⟨_, rfl, hdrops⟩
  · exact .inr ⟨pt, s1, e, ctr, op, rfl, rfl⟩

section

omit [Outside]

theorem next_response_cases (id method path : String) (text : Bytes) (now : UInt64) (s : State) :
    (∃ f, ((next_response id method path text now).exec s).1 = .error f ∧
      Drops now s ((next_response id method path text now).exec s).2) ∨
    ∃ e op, s.sessions id = some e ∧ e.s2c_next.toNat + 1 < 2 ^ 64 ∧
      op.nonce = e.s2c_prefix ++ u64Be e.s2c_next ∧
      (next_response id method path text now).exec s = (.ok (e.s2c_next, op), { s with
        sessions := update s.sessions id (some { e with s2c_next := e.s2c_next + 1 }) }) := by
  have hdrops := drops_live_entry id now s
  unfold next_response
  rw [exec_bind]
  rcases h1 : (live_entry id now).exec s with ⟨f | e, s1⟩
  · rw [h1] at hdrops
    exact .inl ⟨f, rfl, hdrops⟩
  obtain ⟨rfl, he⟩ := live_entry_ok h1
  dsimp only
  split
  · rename_i hlt
    exact .inr ⟨e, _, he, hlt, rfl, rfl⟩
  · exact .inl ⟨_, rfl, Drops.refl now _⟩

theorem ages_update {e e' : SessionEntry} (he : s.sessions id = some e) (hl : Later e e') (j : String) :
    Ages j s { s with sessions := update s.sessions id (some e') } := by
  intro x hx
  dsimp only at hx
  by_cases hj : j = id
  · subst hj
    rw [update_self] at hx
    cases hx
    exact ⟨e, he, hl⟩
  · rw [update_of_ne hj] at hx
    exact ⟨x, hx, .refl x⟩

end

theorem bootstrap_cases (sdk_pub : Bytes) (now : UInt64) (created random : Option Bytes) (s : State) :
    (∃ f, ((bootstrap checks sdk_pub now created random).exec s).1 = .error f ∧
      Drops now s ((bootstrap checks sdk_pub now created random).exec s).2) ∨
    ∃ b s1 sid shared, Drops now s s1 ∧
      (bootstrap checks sdk_pub now created random).exec s = (.ok b, { s1 with
        sessions := update s1.sessions b.session_id (some (new_entry sid shared now)) }) := by
  unfold bootstrap
  split
  · exact .inl ⟨_, rfl, Drops.refl now s⟩
  have hid : Drops now s ((identity_keypair created).exec s).2 := by
    unfold identity_keypair
    rw [exec_bind_ok (exec_state s)]
    split
    · exact Drops.refl now s
    split
    · exact Drops.refl now s
    · exact fun _ => .inl rfl
  rw [exec_bind]
  rcases h1 : (identity_keypair created).exec s with ⟨f | kp, s1⟩
  · rw [h1] at hid
    exact .inl ⟨f, rfl, hid⟩
  rw [h1] at hid
  dsimp only
  split
  · exact .inl ⟨_, rfl, hid⟩
  rename_i share _
  split
  · exact .inl ⟨_, rfl, hid⟩
  rename_i sid_bytes
  have hsweep := drops_sweep_expired checks now s1
  rw [exec_bind]
  rcases h2 : (sweep_expired checks now).exec s1 with ⟨f | _, s2⟩
  · rw [h2] at hsweep
    exact .inl ⟨f, rfl, hid.trans hsweep⟩
  · rw [h2] at hsweep
    exact .inr ⟨_, s2, sid_bytes, share.reverse, hid.trans hsweep, rfl⟩

omit [Outside] in
theorem le_succ {x : UInt64} (h : x.toNat + 1 < 2 ^ 64) : x ≤ x + 1 := by
  rw [UInt64.le_iff_toNat_le, UInt64.toNat_add]
  simp only [UInt64.toNat_one]
  omega

theorem seal_snd (id method path : String) (text : Bytes) (now : UInt64) (s : State) :
    ((seal_response id method path text now).exec s).2 = ((next_response id method path text now).exec s).2 := by
  unfold seal_response
  rw [exec_bind]
  rcases (next_response id method path text now).exec s with ⟨_ | ⟨ctr, op⟩, s1⟩
  · rfl
  · dsimp only
    cases Outside.seal_in_place_append_tag op.key op.nonce op.aad op.text <;> rfl

def Starts (s : State) (id : String) (c : Call) : Prop :=
  ∃ b, ((c.run checks).exec s).1 = .ok (.started b) ∧ b.session_id = id

omit [Outside] in
theorem exec_map_snd {α β : Type} (g : α → β) (m : SessionM α) (s : State) : ((g <$> m).exec s).2 = (m.exec s).2 := by
  rw [exec_map]
  rcases m.exec s with ⟨_ | _, _⟩ <;> rfl

theorem step_entry (c : Call) (s : State) (id : String) :
    Ages id s ((c.run checks).exec s).2 ∨
      Starts checks s id c ∧ ∀ e, ((c.run checks).exec s).2.sessions id = some e → e.c2s_last_seen = -1 := by
  cases c with
  | bootstrap sdk_pub now created random =>
    unfold Starts Call.run
    rw [exec_map_snd]
    rcases bootstrap_cases checks sdk_pub now created random s with
      ⟨f, -, hd⟩ | ⟨b, s1, sid, shared, hd, h1⟩
    · exact .inl (hd.ages id)
    rw [exec_map, h1]
    dsimp only
    by_cases hid : id = b.session_id
    · subst hid
      refine .inr ⟨⟨b, rfl, rfl⟩, ?_⟩
      intro e he
      rw [update_self] at he
      cases he
      rfl
    · refine .inl (Ages.trans (hd.ages id) ?_)
      intro e he
      dsimp only at he
      rw [update_of_ne hid] at he
      exact ⟨e, he, .refl e⟩
  | open_request id' method path body now =>
    refine .inl ?_
    unfold Call.run
    rw [exec_map_snd]
    rcases open_request_cases checks id' method path body now s with
      ⟨f, -, hd⟩ | ⟨pt, s1, e, ctr, op, hadm, h1⟩
    · exact hd.ages id
    rw [h1]
    have ha := admit_request_ok checks hadm
    have hlater : Later e { e with c2s_last_seen := ctr.toInt64, expires_at := satAdd now SESSION_TTL_SECS } :=
      ⟨rfl, rfl, rfl, Int64.le_of_lt ha.fresh, UInt64.le_refl _⟩
    exact (ha.drops.ages id).trans (ages_update ha.entry hlater id)
  | seal_response id' method path text now =>
    refine .inl ?_
    unfold Call.run
    rw [exec_map_snd, seal_snd]
    rcases next_response_cases id' method path text now s with ⟨f, -, hd⟩ | ⟨e, op, he, hlt, hop, h1⟩
    · exact hd.ages id
    have hlater : Later e { e with s2c_next := e.s2c_next + 1 } := ⟨rfl, rfl, rfl, Int64.le_refl _, le_succ hlt⟩
    rw [h1]
    exact ages_update he hlater id
  | is_known_session id' now =>
    refine .inl ?_
    unfold Call.run is_known_session
    rw [exec_map_snd, exec_bind_ok (exec_state s)]
    split <;> exact Ages.refl id s

/-- No bootstrap of the calls draws the id. -/
def Undisturbed (id : String) : State → List Call → Prop
  | _, [] => True
  | s, c :: cs => ¬ Starts checks s id c ∧ Undisturbed id ((c.run checks).exec s).2 cs

theorem run_ages {cs : List Call} {s : State} (h : Undisturbed checks id s cs) :
    Ages id s (runCalls checks s cs) := by
  induction cs generalizing s with
  | nil => exact Ages.refl id s
  | cons c cs ih =>
    obtain ⟨hno, hrest⟩ := h
    have hstep := (step_entry checks c s id).resolve_right fun hs => hno hs.1
    exact hstep.trans (ih hrest)

omit [Outside] in
def Marked (s : State) : Prop := ∀ id e, s.sessions id = some e → -1 ≤ e.c2s_last_seen

theorem run_marked {s : State} (h : Marked s) (cs : List Call) : Marked (runCalls checks s cs) := by
  induction cs generalizing s with
  | nil => exact h
  | cons c cs ih =>
    apply ih
    intro id e he
    rcases step_entry checks c s id with hages | ⟨-, hnew⟩
    · obtain ⟨e0, he0, hl⟩ := hages e he
      exact Int64.le_trans (h id e0 he0) hl.seen
    · rw [hnew e he]
      exact Int64.le_refl _

/-- The request with this counter is opened. -/
def Accepts (s : State) (id : String) (ctr : UInt64) (c : Call) : Prop :=
  ∃ method path body now ct pt, c = .open_request id method path body now ∧
    cbor_decode_envelope body = .ok (ctr, ct) ∧ ((c.run checks).exec s).1 = .ok (.opened pt)

theorem Accepts.mark {ctr : UInt64} (h : Accepts checks s id ctr c) :
    ∃ e e', s.sessions id = some e ∧ ((c.run checks).exec s).2.sessions id = some e' ∧
      e.c2s_last_seen < ctr.toInt64 ∧ e'.c2s_last_seen = ctr.toInt64 := by
  obtain ⟨method, path, body, now, ct, pt, rfl, hdec, hok⟩ := h
  unfold Call.run at hok ⊢
  rw [exec_map_snd]
  rcases open_request_cases checks id method path body now s with
    ⟨f, h1, -⟩ | ⟨pt', s1, e, ctr', op, hadm, h1⟩
  · rcases hx : (open_request checks id method path body now).exec s with ⟨f' | _, s2⟩
    · rw [exec_map, hx] at hok
      cases hok
    · rw [hx] at h1
      cases h1
  · have ha := admit_request_ok checks hadm
    obtain ⟨ct', hdec'⟩ := ha.body
    rw [hdec] at hdec'
    cases hdec'
    rw [h1]
    exact ⟨e, _, ha.drops.some ha.entry, update_self _ _ _, ha.fresh, rfl⟩

theorem accepts_of_opened {method path : String} {body pt : Bytes}
    (h : (((Call.open_request id method path body now).run checks).exec s).1 = .ok (.opened pt)) :
    ∃ ctr, Accepts checks s id ctr (.open_request id method path body now) := by
  have hrun := h
  unfold Call.run at h
  rw [exec_map] at h
  rcases open_request_cases checks id method path body now s with
    ⟨f, h1, -⟩ | ⟨pt', s1, e, ctr, op, hadm, -⟩
  · rcases hx : (open_request checks id method path body now).exec s with ⟨f' | _, s2⟩
    · rw [hx] at h
      cases h
    · rw [hx] at h1
      cases h1
  · obtain ⟨ct, hdec⟩ := (admit_request_ok checks hadm).body
    exact ⟨ctr, method, path, body, now, ct, pt, rfl, hdec, hrun⟩

section

omit [Outside]

theorem toInt_toInt64 (a : UInt64) :
    a.toInt64.toInt = if 2 * a.toNat < 2 ^ 64 then (a.toNat : Int) else a.toNat - 2 ^ 64 :=
  BitVec.toInt_eq_toNat_cond a.toBitVec

theorem lt_of_signed {m : Int64} (hm : -1 ≤ m) (ha : m < a.toInt64) (hb : a.toInt64 < b.toInt64) : a < b := by
  rw [Int64.le_iff_toInt_le] at hm
  rw [Int64.lt_iff_toInt_lt] at ha hb
  rw [UInt64.lt_iff_toNat_lt]
  have h1 : (-1 : Int64).toInt = -1 := by decide
  have hlt := a.toNat_lt
  rw [toInt_toInt64] at ha hb
  rw [toInt_toInt64] at hb
  split at ha <;> split at hb <;> omega

end

def Call.session : Call → Option String
  | .open_request id _ _ _ _ | .seal_response id _ _ _ _ => some id
  | .bootstrap _ _ _ _ | .is_known_session _ _ => none

/-- An opening that fails leaves the counter to others. -/
def Call.Uses (s : State) : Call → Prop
  | .open_request id method path body now =>
    ∃ pt, ((Session.open_request checks id method path body now).exec s).1 = .ok pt
  | .seal_response _ _ _ _ _ => True
  | .bootstrap _ _ _ _ | .is_known_session _ _ => False

section

omit [Outside]

/-- Above the mark, or at the next response. -/
def Ahead (e : SessionEntry) (nonce : Bytes) : Prop :=
  (∃ ctr : UInt64, e.c2s_last_seen < ctr.toInt64 ∧ nonce = e.c2s_prefix ++ u64Be ctr) ∨
    nonce = e.s2c_prefix ++ u64Be e.s2c_next

/-- The nonce is of a counter that the entry has left behind. -/
def Behind (e : SessionEntry) (nonce : Bytes) : Prop :=
  (∃ ctr : UInt64, ctr.toInt64 ≤ e.c2s_last_seen ∧ nonce = e.c2s_prefix ++ u64Be ctr) ∨
    ∃ ctr : UInt64, ctr < e.s2c_next ∧ nonce = e.s2c_prefix ++ u64Be ctr

theorem Behind.later {e e' : SessionEntry} {nonce : Bytes} (h : Behind e nonce) (hl : Later e e') :
    Behind e' nonce := by
  rcases h with ⟨ctr, hle, rfl⟩ | ⟨ctr, hlt, rfl⟩
  · exact .inl ⟨ctr, Int64.le_trans hle hl.seen, by rw [hl.c2s]⟩
  · exact .inr ⟨ctr, UInt64.lt_of_lt_of_le hlt hl.next, by rw [hl.s2c]⟩

theorem nonce_inj {p q : Bytes} (h : p ++ u64Be a = q ++ u64Be b) : p = q ∧ a = b := by
  obtain ⟨hp, hc⟩ := List.append_inj' h (by simp)
  exact ⟨hp, u64Be_inj hc⟩

theorem Behind.ne_of_ahead {n n' : Bytes} (hp : e.c2s_prefix ≠ e.s2c_prefix) (h : Behind e n)
    (h' : Ahead e n') : n ≠ n' := by
  rintro rfl
  rcases h with ⟨a, hle, rfl⟩ | ⟨a, hlt, rfl⟩ <;> rcases h' with ⟨b, hb, hn⟩ | hn
  · obtain ⟨-, rfl⟩ := nonce_inj hn
    exact absurd hb (Int64.not_lt.mpr hle)
  · exact hp (nonce_inj hn).1
  · exact hp (nonce_inj hn).1.symm
  · obtain ⟨-, rfl⟩ := nonce_inj hn
    exact absurd hlt (UInt64.lt_irrefl _)

theorem ahead_of_aeadOp (hid : c.session = some id) (hop : c.aeadOp checks s = some op) :
    ∃ e, s.sessions id = some e ∧ Ahead e op.nonce := by
  cases c with
  | bootstrap _ _ _ _ | is_known_session _ _ => cases hid
  | open_request id' method path body now =>
    cases hid
    simp only [Call.aeadOp] at hop
    rcases hx : (admit_request checks id method path body now).exec s with ⟨f | ⟨e, ctr, op'⟩, s1⟩
    · rw [hx] at hop
      cases hop
    rw [hx] at hop
    cases hop
    have ha := admit_request_ok checks hx
    exact ⟨e, ha.drops.some ha.entry, .inl ⟨ctr, ha.fresh, ha.nonce⟩⟩
  | seal_response id' method path text now =>
    cases hid
    simp only [Call.aeadOp] at hop
    rcases next_response_cases id method path text now s with ⟨f, h1, -⟩ | ⟨e, op', he, -, hn, h1⟩
    · rw [h1] at hop
      cases hop
    · rw [h1] at hop
      cases hop
      exact ⟨e, he, .inr hn⟩

end

theorem behind_of_uses (hid : c.session = some id) (hop : c.aeadOp checks s = some op) (hu : c.Uses checks s) :
    ∃ e e', s.sessions id = some e ∧ ((c.run checks).exec s).2.sessions id = some e' ∧
      e'.c2s_prefix = e.c2s_prefix ∧ e'.s2c_prefix = e.s2c_prefix ∧ Behind e' op.nonce := by
  cases c with
  | bootstrap _ _ _ _ | is_known_session _ _ => cases hid
  | open_request id' method path body now =>
    cases hid
    obtain ⟨pt, hok⟩ := hu
    unfold Call.run
    rw [exec_map_snd]
    simp only [Call.aeadOp] at hop
    rcases open_request_cases checks id method path body now s with
      ⟨f, h1, -⟩ | ⟨pt', s1, e, ctr, op', hadm, h1⟩
    · rw [h1] at hok
      cases hok
    rw [hadm] at hop
    cases hop
    have ha := admit_request_ok checks hadm
    rw [h1]
    refine ⟨e, _, ha.drops.some ha.entry, update_self _ _ _, rfl, rfl, ?_⟩
    exact .inl ⟨ctr, Int64.le_refl _, ha.nonce⟩
  | seal_response id' method path text now =>
    cases hid
    unfold Call.run
    rw [exec_map_snd, seal_snd]
    simp only [Call.aeadOp] at hop
    rcases next_response_cases id method path text now s with ⟨f, h1, -⟩ | ⟨e, op', he, hlt, hn, h1⟩
    · rw [h1] at hop
      cases hop
    rw [h1] at hop ⊢
    cases hop
    refine ⟨e, _, he, update_self _ _ _, rfl, rfl, .inr ⟨e.s2c_next, ?_, hn⟩⟩
    rw [UInt64.lt_iff_toNat_lt, UInt64.toNat_add]
    simp only [UInt64.toNat_one]
    omega

/-- Two calls of a run on one entry of the table, the first of them `c`. -/
theorem relay_discipline (pre mid : List Call) (c c' : Call) (id : String)
    (hentry : Undisturbed checks id ((c.run checks).exec (runCalls checks start pre)).2 mid) :
    let s := runCalls checks start pre
    let s' := runCalls checks ((c.run checks).exec s).2 mid
    (∀ ctr ctr', Accepts checks s id ctr c → Accepts checks s' id ctr' c' → ctr < ctr') ∧
    (∀ method path body now method' path' now' pt, c = .open_request id method path body now →
      c' = .open_request id method' path' body now' → ((c.run checks).exec s).1 = .ok (.opened pt) →
      ∀ pt', ((c'.run checks).exec s').1 ≠ .ok (.opened pt')) ∧
    (∀ op op', c.session = some id → c'.session = some id → c.aeadOp checks s = some op →
      c'.aeadOp checks s' = some op' → c.Uses checks s →
      (∀ e, s.sessions id = some e → e.c2s_prefix ≠ e.s2c_prefix) → op.nonce ≠ op'.nonce) ∧
    ∀ method path body now f, ((open_request checks id method path body now).exec s).1 = .error f →
      Drops now s ((open_request checks id method path body now).exec s).2 := by
  intro s s'
  have hages := run_ages checks hentry
  have hmarked : Marked s := run_marked checks (fun _ _ h => by cases h) pre
  have hrise : ∀ ctr ctr', Accepts checks s id ctr c → Accepts checks s' id ctr' c' → ctr < ctr' := by
    intro ctr ctr' h h'
    obtain ⟨e, e1, he, he1, hlt, hmark⟩ := h.mark
    obtain ⟨e2, -, he2, -, hlt', -⟩ := h'.mark
    obtain ⟨e1', he1', hl⟩ := hages e2 he2
    rw [he1] at he1'
    cases he1'
    have hle : ctr.toInt64 ≤ e2.c2s_last_seen := hmark ▸ hl.seen
    exact lt_of_signed (hmarked id e he) hlt (Int64.lt_of_le_of_lt hle hlt')
  refine ⟨hrise, ?_, ?_, ?_⟩
  · rintro method path body now method' path' now' pt rfl rfl hok pt' hok'
    obtain ⟨ctr, hacc⟩ := accepts_of_opened checks hok
    obtain ⟨ctr', hacc'⟩ := accepts_of_opened checks hok'
    have hlt := hrise ctr ctr' hacc hacc'
    -- both calls read the counter from the same body
    obtain ⟨_, _, _, _, _, _, hc, hdec, -⟩ := hacc
    obtain ⟨_, _, _, _, _, _, hc', hdec', -⟩ := hacc'
    cases hc
    cases hc'
    rw [hdec] at hdec'
    cases hdec'
    exact absurd hlt (UInt64.lt_irrefl _)
  · intro op op' hid hid' hop hop' hu hp
    obtain ⟨e, e1, he, he1, hc2s, hs2c, hbehind⟩ := behind_of_uses checks hid hop hu
    obtain ⟨e2, he2, hahead⟩ := ahead_of_aeadOp checks hid' hop'
    obtain ⟨e1', he1', hl⟩ := hages e2 he2
    rw [he1] at he1'
    cases he1'
    have hprefix : e2.c2s_prefix ≠ e2.s2c_prefix := by
      rw [hl.c2s, hl.s2c, hc2s, hs2c]
      exact hp e he
    exact (hbehind.later hl).ne_of_ahead hprefix hahead
  · intro method path body now f hf
    rcases open_request_cases checks id method path body now s with ⟨_, -, hd⟩ | ⟨_, _, _, _, _, -, h1⟩
    · exact hd
    · rw [h1] at hf
      cases hf

end Model

/-! ## A session with one request and one response -/

namespace Sample

/-- What is opened or sealed is its own text; `[9]` does not open. -/
@[reducible] def outside (hmac : Bytes → Bytes) : Outside where
  hmac_sha256 := fun _ text => (hmac text ++ List.replicate 32 0).take 32
  length_hmac := by simp
  public_key := fun _ => ([], [])
  shared_key := fun _ _ => some []
  open_in_place := fun _ _ _ text => if text = [9] then none else some text
  seal_in_place_append_tag := fun _ _ _ text => some text

def sid : String := "AAAAAAAAAAAAAAAAAAAAAA"

def boot : Call := .bootstrap (0x04 :: List.replicate 64 0) 1 (some []) (some (List.replicate 16 0))

def request : Call := .open_request sid "POST" "/" (cbor_encode_envelope 0 [1]) 2

def forged : Call := .open_request sid "POST" "/" (cbor_encode_envelope 0 [9]) 2

def response : Call := .seal_response sid "POST" "/" [2] 2

end Sample

open Sample in
theorem request_and_response_nonces :
    letI : Outside := outside List.reverse
    ∃ op op', request.aeadOp true (runCalls true start [boot]) = some op ∧
      response.aeadOp true (runCalls true start [boot, request]) = some op' ∧ op.nonce ≠ op'.nonce := by
  let _ : Outside := outside List.reverse
  have hop : (request.aeadOp true (runCalls true start [boot])).isSome = true := by decide +kernel
  have hop' : (response.aeadOp true (runCalls true start [boot, request])).isSome = true := by decide +kernel
  obtain ⟨op, hop⟩ := Option.isSome_iff_exists.mp hop
  obtain ⟨op', hop'⟩ := Option.isSome_iff_exists.mp hop'
  have haccepted : ((open_request true sid "POST" "/" (cbor_encode_envelope 0 [1]) 2).exec
      (runCalls true start [boot])).1 = .ok [1] := by decide +kernel
  have hprefix : ∀ e, (runCalls true start [boot]).sessions sid = some e → e.c2s_prefix ≠ e.s2c_prefix := by
    have hdec : ((runCalls true start [boot]).sessions sid).all
      (fun e => decide (e.c2s_prefix ≠ e.s2c_prefix)) = true := by decide +kernel
    intro e he
    rw [he] at hdec
    simpa using hdec
  exact ⟨op, op', hop, hop', (relay_discipline true [boot] [] request response sid trivial).2.2.1 op op' rfl rfl
    hop hop' ⟨[1], haccepted⟩ hprefix⟩

open Sample in
/-- If both directions have one prefix, request and response share key and nonce; and a request shares them with
one before it that did not open. -/
theorem nonce_shared_by_directions :
    (letI : Outside := outside fun _ => []
    let s := runCalls true start [boot]
    let s' := runCalls true start [boot, request]
    ((request.run true).exec s).1 = .ok (.opened [1]) ∧
      ((response.run true).exec s').1 = .ok (.sealed (cbor_encode_envelope 0 [2])) ∧
      ((request.aeadOp true s).map fun op => (op.key, op.nonce)) =
        (response.aeadOp true s').map (fun op => (op.key, op.nonce)) ∧
      ((request.aeadOp true s).map AeadOp.text) = some [1] ∧
      ((response.aeadOp true s').map AeadOp.text) = some [2]) ∧
    letI : Outside := outside List.reverse
    let s := runCalls true start [boot]
    let s' := runCalls true start [boot, forged]
    ((s.sessions sid).map fun e => decide (e.c2s_prefix = e.s2c_prefix)) = some false ∧
      ((forged.run true).exec s).1 = .error (.err .Crypto) ∧
      ((request.run true).exec s').1 = .ok (.opened [1]) ∧
      ((forged.aeadOp true s).map fun op => (op.key, op.nonce)) =
        (request.aeadOp true s').map (fun op => (op.key, op.nonce)) ∧
      ((forged.aeadOp true s).map AeadOp.text) = some [9] ∧
      ((request.aeadOp true s').map AeadOp.text) = some [1] := by
  decide +kernel

end EnclaveOs.Session
