import EnclaveOs.Lib.Since
import EnclaveOs.Egress.Client

/-! # No application byte before the proof -/

namespace EnclaveOs.Egress

open Lib

section Theory

variable [Outside]

/-- What has to hold before the peer sees an application byte. -/
structure Proof (conn : Connection) (policy : RaTlsPolicy) (x : Exchange) (ev : Evidence)
    (appraised : Option Appraisers) : Prop where
  bound : Bound conn policy x.mode x.context x.hctx
  leaf : ∃ leaf cert spki, conn.peer_leaf = some leaf ∧ LeafPassed leaf policy cert spki ∧
    Checked x policy cert spki ev
  /-- Where the server or the policy requires it, the client's evidence is accepted. -/
  acknowledged : ∃ resp, x.answer = some resp ∧
    (resp.client_evidence = "required" ∨ policy.client_identity ≠ none → Presented x resp ∧
      ∃ status, x.acknowledged = some (status, []) ∧ (status = 200 ∨ status = 204))
  confirmed : policy.attestation_servers ≠ [] → ∃ world, appraised = some world ∧ Confirmed world ev.quote policy

variable {conn : Connection} {policy : RaTlsPolicy} {x : Exchange}

theorem Sound.proof {appraised : Option Appraisers} (hs : Sound conn policy x) (hcomplete : x.phase = .complete)
    (hconfirmed : ∀ ev, x.peer = some ev → policy.attestation_servers ≠ [] →
      ∃ world, appraised = some world ∧ Confirmed world ev.quote policy) :
    ∃ ev, Proof conn policy x ev appraised := by
  obtain ⟨leaf, cert, spki, hleaf, hpassed, hpast⟩ := hs.leaf
  obtain ⟨ev, hchecked⟩ := hpast (.inr hcomplete)
  refine ⟨ev, hs.bound, ⟨leaf, cert, spki, hleaf, hpassed, hchecked⟩, ?_, hconfirmed ev hchecked.peer⟩
  obtain ⟨resp, hresp, -, hpolicy, hpresented⟩ := hchecked.answer
  refine ⟨resp, hresp, fun hneeded => ?_⟩
  have hreq : resp.client_evidence = "required" := hneeded.elim id hpolicy
  exact ⟨hpresented hreq, hs.acknowledged hcomplete resp hresp hreq⟩

theorem pump_sound {identity : Bool} {x' : Exchange}
    {packets : List Pumped} (hs : Sound conn policy x) (h : pump conn policy identity x packets = .ok x') :
    Sound conn policy x' := by
  induction packets generalizing x with
  | nil =>
    cases h
    exact hs
  | cons packet packets ih =>
    cases packet with
    | unreadable | stalled | rejected => cases h
    | processed turn =>
      simp only [pump, except_bind_ok] at h
      obtain ⟨x1, h1, hrest⟩ := h
      exact ih (advance_inner_sound hs h1) hrest

theorem run_rounds_proof {identity : Bool} {world : Appraisers}
    {x' : Exchange} {rounds : List Round} (hs : Sound conn policy x)
    (h : run_rounds conn policy identity world x rounds = some (.ok x')) :
    ∃ ev, Proof conn policy x' ev (some world) := by
  induction rounds generalizing x with
  | nil => cases h
  | cons r rounds ih =>
    rw [run_rounds] at h
    split at h
    · cases h
    split at h
    · cases h
    rename_i x1 h1
    have hs1 := advance_inner_sound hs h1
    split at h
    · rename_i hcomplete
      simp only [Option.some.injEq, except_bind_ok, ok_or_ok, except_pure_ok] at h
      obtain ⟨ev, hev, _, happraise, rfl⟩ := h
      have hphase : x1.phase = .complete := by simpa [Exchange.is_complete] using hcomplete
      rw [Exchange.peer_evidence, if_pos hcomplete] at hev
      refine hs1.proof hphase fun ev' hev' _ => ⟨world, rfl, ?_⟩
      rw [hev, Option.some.injEq] at hev'
      exact hev' ▸ appraise_evidence_ok happraise
    · split at h
      · cases h
      split at h
      · cases h
      split at h
      · cases h
      · rename_i hpump
        exact ih (pump_sound hs1 hpump) h

/-! ## The incremental client -/

namespace IncrementalTlsClient

/-- What the flags of a client with this policy stand for. -/
structure Inv (conn : Connection) (policy : RaTlsPolicy) (c : IncrementalTlsClient) : Prop where
  ratls : c.ratls = some policy
  exchange : ∀ x, c.exchange = some x → Sound conn policy x
  verified : c.channel_verified = true → ∃ x, c.exchange = some x ∧ x.phase = .complete
  confirmed : c.appraisal_pending = false → policy.attestation_servers ≠ [] →
    ∃ x ev world, c.exchange = some x ∧ x.phase = .complete ∧ x.peer = some ev ∧ c.appraised = some world ∧
      Confirmed world ev.quote policy

/-- The client holds a proof for its present policy. -/
def Proved (conn : Connection) (c : IncrementalTlsClient) : Prop :=
  ∃ policy x ev, c.ratls = some policy ∧ c.exchange = some x ∧ Proof conn policy x ev c.appraised

theorem Inv.proved {conn : Connection} {policy : RaTlsPolicy} {c : IncrementalTlsClient}
    (hi : Inv conn policy c) (hready : c.is_ready = true) : Proved conn c := by
  simp only [is_ready, Bool.and_eq_true, Bool.not_eq_true'] at hready
  obtain ⟨⟨⟨-, hpending⟩, -⟩, hverified⟩ := hready
  obtain ⟨x, hx, hcomplete⟩ := hi.verified hverified
  have hconfirmed : ∀ ev, x.peer = some ev → policy.attestation_servers ≠ [] →
      ∃ world, c.appraised = some world ∧ Confirmed world ev.quote policy := by
    intro ev hev hservers
    obtain ⟨x', ev', world, hx', -, hev', hworld, hconfirmed⟩ := hi.confirmed hpending hservers
    rw [hx, Option.some.injEq] at hx'
    subst hx'
    rw [hev, Option.some.injEq] at hev'
    exact ⟨world, hworld, hev' ▸ hconfirmed⟩
  obtain ⟨ev, hproof⟩ := (hi.exchange x hx).proof hcomplete hconfirmed
  exact ⟨policy, x, ev, hi.ratls, hx, hproof⟩

omit [Outside] in
theorem drain_if_ready_eq (t : Turn) (c : IncrementalTlsClient) :
    ∃ p, (c.drain_if_ready t).2 = { c with plaintext := p } := by
  unfold drain_if_ready
  split
  · exact ⟨_, rfl⟩
  · exact ⟨c.plaintext, rfl⟩

theorem complete_stays {x : Exchange} (h : x.phase = .complete) (conn : Connection) (policy : RaTlsPolicy)
    (identity : Bool) (t : Turn) : x.advance conn policy identity t = (.ok (), x) := by
  simp [Exchange.advance, Exchange.advance_inner, h]

variable {conn : Connection} {policy : RaTlsPolicy} {c : IncrementalTlsClient} {c' : IncrementalTlsClient}
  {r : Except String Unit}

theorem advance_sound {x x' : Exchange} {identity : Bool} {t : Turn}
    (hs : Sound conn policy x) (h : x.advance conn policy identity t = (r, x')) : Sound conn policy x' := by
  unfold Exchange.advance at h
  split at h
  · cases h
    rename_i h'
    exact advance_inner_sound hs h'
  · cases h
    exact failed_sound hs

/-- A step that keeps the invariant, does not touch `failed` and hands TLS no application byte. -/
structure Advanced (conn : Connection) (policy : RaTlsPolicy) (c c' : IncrementalTlsClient) : Prop where
  inv : Inv conn policy c'
  failed : c'.failed = c.failed
  accepted : c'.accepted = c.accepted

theorem Advanced.refl (hi : Inv conn policy c) : Advanced conn policy c c := ⟨hi, rfl, rfl⟩

theorem Advanced.trans {c' c'' : IncrementalTlsClient}
    (h : Advanced conn policy c c') (h' : Advanced conn policy c' c'') : Advanced conn policy c c'' :=
  ⟨h'.inv, h'.failed.trans h.failed, h'.accepted.trans h.accepted⟩

theorem advance_exchange_spec
    (hi : Inv conn policy c) (t : Turn) : Advanced conn policy c (c.advance_exchange conn policy t).2 := by
  unfold advance_exchange
  split
  · exact Advanced.refl hi
  rename_i x hx
  have hs : Sound conn policy x := by
    unfold current_exchange at hx
    split at hx
    · rename_i x' hx'
      cases hx
      exact hi.exchange x hx'
    · exact (start_sound hx).1
  -- an exchange that was complete is the one at hand, and stays as it is
  have hold : ∀ x0, c.exchange = some x0 → x0.phase = .complete →
      x = x0 ∧ x.advance conn policy c.identity t = (.ok (), x) := by
    intro x0 hx0 hcomplete
    rw [current_exchange, hx0] at hx
    cases hx
    exact ⟨rfl, complete_stays hcomplete conn policy c.identity t⟩
  split
  · rename_i x' hadv
    have hs' := advance_sound hs hadv
    refine ⟨⟨hi.ratls, ?_, ?_, ?_⟩, rfl, rfl⟩
    · rintro _ ⟨⟩
      exact hs'
    · intro hverified
      obtain ⟨x0, hx0, hcomplete⟩ := hi.verified hverified
      rw [(hold x0 hx0 hcomplete).2] at hadv
      cases hadv
    · intro hpending hservers
      obtain ⟨x0, _, _, hx0, hcomplete, -⟩ := hi.confirmed hpending hservers
      rw [(hold x0 hx0 hcomplete).2] at hadv
      cases hadv
  · rename_i x' hadv
    have hs' := advance_sound hs hadv
    obtain ⟨p, hp⟩ := drain_if_ready_eq t { c with exchange := some x', channel_verified := x'.is_complete }
    rw [hp]
    refine ⟨⟨hi.ratls, ?_, ?_, ?_⟩, rfl, rfl⟩
    · rintro _ ⟨⟩
      exact hs'
    · intro hverified
      exact ⟨x', rfl, by simpa [Exchange.is_complete] using hverified⟩
    · intro hpending hservers
      obtain ⟨x0, ev, world, hx0, hcomplete, hev, hworld, hconfirmed⟩ := hi.confirmed hpending hservers
      obtain ⟨rfl, hsame⟩ := hold x0 hx0 hcomplete
      rw [hsame] at hadv
      cases hadv
      exact ⟨x, ev, world, rfl, hcomplete, hev, hworld, hconfirmed⟩

theorem advance_attestation_spec
    (hi : Inv conn policy c) (t : Turn) : Advanced conn policy c (c.advance_attestation conn t).2 := by
  unfold advance_attestation
  split
  · exact Advanced.refl hi
  have hratls := hi.ratls
  split
  · rename_i hnone
    rw [hratls] at hnone
    cases hnone
  · rename_i policy' hsome
    rw [hratls, Option.some.injEq] at hsome
    subst hsome
    exact advance_exchange_spec hi t

theorem feed_packets_spec {last : Turn} (packets : List Fed) (hi : Inv conn policy c) :
    Advanced conn policy c (c.feed_packets conn last packets).2 := by
  induction packets generalizing c with
  | nil => exact advance_attestation_spec hi last
  | cons packet packets ih =>
    cases packet with
    | unreadable e => exact Advanced.refl hi
    | stuck => exact advance_attestation_spec hi last
    | rejected e => exact Advanced.refl hi
    | processed handshaking turn =>
      have hi1 : Inv conn policy { c with handshaking := c.handshaking && handshaking } :=
        ⟨hi.ratls, hi.exchange, hi.verified, hi.confirmed⟩
      have h1 := advance_attestation_spec hi1 turn
      rw [feed_packets]
      split
      · rename_i c' hadv
        rw [hadv] at h1
        exact ⟨h1.inv, h1.failed, h1.accepted⟩
      · rename_i c' hadv
        rw [hadv] at h1
        exact Advanced.trans ⟨h1.inv, h1.failed, h1.accepted⟩ (ih h1.inv)

/-! ## What each call does -/

theorem feed_tls_bytes_spec (hi : Inv conn policy c) (bytes : Bytes) (packets : List Fed) (last : Turn)
    (h : c.feed_tls_bytes conn bytes packets last = (r, c')) :
    Inv conn policy c' ∧ c'.accepted = c.accepted ∧ (c.failed = true → c'.failed = true) ∧
      (r ≠ .ok () → c'.failed = true) := by
  unfold feed_tls_bytes at h
  split at h
  · rename_i hfailed
    cases h
    exact ⟨hi, rfl, fun _ => hfailed, fun _ => hfailed⟩
  have hspec : Advanced conn policy c (c.feed_tls_bytes_inner conn bytes packets last).2 := by
    unfold feed_tls_bytes_inner
    split
    · exact Advanced.refl hi
    · exact feed_packets_spec packets hi
  split at h
  · rename_i c1 hinner
    cases h
    rw [hinner] at hspec
    exact ⟨⟨hspec.inv.ratls, hspec.inv.exchange, hspec.inv.verified, hspec.inv.confirmed⟩, hspec.accepted,
      fun _ => rfl, fun _ => rfl⟩
  · rename_i c1 hinner
    cases h
    rw [hinner] at hspec
    exact ⟨hspec.inv, hspec.accepted, fun hf => hspec.failed.trans hf, fun hr => absurd rfl hr⟩

variable {c : IncrementalTlsClient} {conn : Connection} {policy : RaTlsPolicy}

omit [Outside] in
theorem write_plaintext_spec (bytes : Bytes) (taken : Nat) (refused : Option String) :
    ∃ more, (c.write_plaintext bytes taken refused).2 = { c with accepted := c.accepted ++ more } ∧
      (more ≠ [] → c.is_ready = true) := by
  unfold write_plaintext
  split
  · exact ⟨[], by simp, fun h => absurd rfl h⟩
  rename_i hready
  simp only [Bool.not_eq_true', Bool.not_eq_false] at hready
  split
  · exact ⟨[], by simp, fun h => absurd rfl h⟩
  split <;> exact ⟨_, rfl, fun _ => hready⟩

theorem appraise_spec (hi : Inv conn policy c) (world : Appraisers)
    (h : c.appraise_pending_evidence world = (r, c')) :
    Inv conn policy c' ∧ c'.accepted = c.accepted ∧ (c.failed = true → c'.failed = true) ∧
      (c.needs_remote_appraisal = true → r ≠ .ok () → c'.failed = true) := by
  unfold appraise_pending_evidence at h
  split at h
  · rename_i hneeds
    cases h
    exact ⟨hi, rfl, id, fun hn => by simp [hn] at hneeds⟩
  rename_i hneeds
  simp only [Bool.not_eq_true', Bool.not_eq_false] at hneeds
  simp only [needs_remote_appraisal, Bool.and_eq_true, Bool.not_eq_true'] at hneeds
  obtain ⟨⟨hfailed, hverified⟩, -⟩ := hneeds
  obtain ⟨x, hx, hcomplete⟩ := hi.verified hverified
  obtain ⟨ev, hproof⟩ : ∃ ev, x.peer = some ev := by
    obtain ⟨_, _, _, _, _, hpast⟩ := (hi.exchange x hx).leaf
    obtain ⟨ev, hchecked⟩ := hpast (.inr hcomplete)
    exact ⟨ev, hchecked.peer⟩
  have hevidence : c.peer_evidence = some ev := by
    simp [peer_evidence, hfailed, hx, Exchange.peer_evidence, Exchange.is_complete, hcomplete, hproof]
  rw [hevidence, hi.ratls] at h
  dsimp only at h
  split at h
  · rename_i happraise
    cases h
    refine ⟨⟨rfl, hi.exchange, hi.verified, fun _ _ => ?_⟩, rfl, id, fun _ hr => absurd rfl hr⟩
    exact ⟨x, ev, world, hx, hcomplete, hproof, rfl, appraise_evidence_ok happraise⟩
  · cases h
    exact ⟨⟨rfl, hi.exchange, hi.verified, hi.confirmed⟩, rfl, fun _ => rfl, fun _ _ => rfl⟩

theorem re_attest_spec (hi : Inv conn policy c) (wants_write : Bool) (random : Option (Register 32)) (t : Turn)
    {r : Except String (Register 32)} (h : c.re_attest conn wants_write random t = (r, c')) :
    c'.accepted = c.accepted ∧ (c.failed = true → c'.failed = true) ∧
      ((∃ e, r = .error e) ∧ c' = c ∨
        (∃ e, r = .error e) ∧ c'.failed = true ∧ (∃ policy', Inv conn policy' c') ∨
        ∃ nonce, r = .ok nonce ∧ random = some nonce ∧
          Inv conn { policy with report_data := .challengeResponse nonce.val } c') := by
  unfold re_attest at h
  split at h
  · cases h
    exact ⟨rfl, id, .inl ⟨⟨_, rfl⟩, rfl⟩⟩
  rename_i hready
  have hfailed : c.failed = false := by
    cases hf : c.failed
    · rfl
    · simp [is_ready, hf] at hready
  split at h
  · cases h
    exact ⟨rfl, id, .inl ⟨⟨_, rfl⟩, rfl⟩⟩
  rw [hi.ratls] at h
  dsimp only at h
  split at h
  · cases h
    exact ⟨rfl, id, .inl ⟨⟨_, rfl⟩, rfl⟩⟩
  -- nothing of the old proof is left
  have hwithdrawn : ∀ policy', policy'.attestation_servers = policy.attestation_servers →
      Inv conn policy' { c.withdraw policy with ratls := some policy' } := by
    intro policy' hservers
    refine ⟨rfl, fun x hx => (nomatch hx), fun hv => (nomatch hv), fun hpending hne => ?_⟩
    rw [hservers] at hne
    simp [withdraw, hne] at hpending
  split at h
  · cases h
    refine ⟨rfl, fun _ => rfl, .inr (.inl ⟨⟨_, rfl⟩, rfl, policy, ?_⟩)⟩
    have hw := hwithdrawn policy rfl
    exact ⟨hi.ratls, hw.exchange, hw.verified, hw.confirmed⟩
  rename_i nonce
  have hspec := advance_attestation_spec
    (hwithdrawn { policy with report_data := .challengeResponse nonce.val } rfl) t
  split at h
  · rename_i c1 hadv
    cases h
    rw [hadv] at hspec
    exact ⟨hspec.accepted, fun _ => rfl, .inr (.inl ⟨⟨_, rfl⟩, rfl, _,
      hspec.inv.ratls, hspec.inv.exchange, hspec.inv.verified, hspec.inv.confirmed⟩)⟩
  · rename_i c1 hadv
    cases h
    rw [hadv] at hspec
    refine ⟨hspec.accepted, fun hf => ?_, .inr (.inr ⟨nonce, rfl, rfl, hspec.inv⟩)⟩
    rw [hfailed] at hf
    cases hf

theorem made_inv (h : Made policy c) : Inv conn policy c := by
  have hbuilt : ∀ pending built, from_config (some policy) pending built = .ok c →
      (pending = false → policy.attestation_servers = []) → Inv conn policy c := by
    intro pending built hc hservers
    simp only [from_config, except_bind_ok, except_pure_ok] at hc
    obtain ⟨_, _, rfl⟩ := hc
    exact ⟨rfl, fun _ hx => (by cases hx), fun hv => (by cases hv), fun hp hne => absurd (hservers hp) hne⟩
  obtain ⟨built, h | h | h⟩ := h
  · simp only [new, except_bind_ok, demand_ok] at h
    obtain ⟨_, hservers, hc⟩ := h
    exact hbuilt false built hc fun _ => hservers policy rfl
  · simp only [new_attested, except_bind_ok, demand_ok] at h
    obtain ⟨_, _, _, _, _, hservers, hc⟩ := h
    refine hbuilt _ built hc fun hp => ?_
    simpa using hp
  · simp only [new_attested_deferred, except_bind_ok, demand_ok] at h
    obtain ⟨_, _, _, ⟨_, hservers⟩, hc⟩ := h
    exact hbuilt false built hc fun _ => hservers

/-- What a call can do: bytes and readiness need a proof, a nonce is drawn, failures stay. -/
structure Guarded (conn : Connection) (c : IncrementalTlsClient) (call : Call) : Prop where
  accepts : (step conn c call).accepted ≠ c.accepted → c.is_ready = true ∧ Proved conn c
  ready : (step conn c call).is_ready = true → Proved conn (step conn c call)
  renews : ∀ wants_write random turn nonce, call = .re_attest wants_write random turn →
    (c.re_attest conn wants_write random turn).1 = .ok nonce → random = some nonce ∧
      ∃ policy, (step conn c call).ratls = some policy ∧ policy.report_data = .challengeResponse nonce.val
  keeps : (∀ wants_write random turn, call ≠ .re_attest wants_write random turn) → (step conn c call).ratls = c.ratls
  feed_fails : ∀ bytes packets last, call = .feed bytes packets last →
    (c.feed_tls_bytes conn bytes packets last).1 ≠ .ok () → (step conn c call).failed = true
  appraisal_fails : ∀ world, call = .appraise world → c.needs_remote_appraisal = true →
    (c.appraise_pending_evidence world).1 ≠ .ok () → (step conn c call).failed = true
  renewal_fails : ∀ wants_write random turn e, call = .re_attest wants_write random turn →
    (c.re_attest conn wants_write random turn).1 = .error e →
    (step conn c call).failed = true ∨ step conn c call = c
  closes : call = .close → (step conn c call).failed = true

section

variable (hi : Inv conn policy c)

include hi

theorem step_inv (call : Call) :
    (∃ policy', Inv conn policy' (step conn c call)) ∧ (c.failed = true → (step conn c call).failed = true) := by
  cases call with
  | feed bytes packets last =>
    obtain ⟨hinv, -, hfailed, -⟩ := feed_tls_bytes_spec hi bytes packets last Prod.mk.eta.symm
    exact ⟨⟨policy, hinv⟩, hfailed⟩
  | write bytes taken refused =>
    obtain ⟨more, hmore, -⟩ := write_plaintext_spec (c := c) bytes taken refused
    rw [step, hmore]
    exact ⟨⟨policy, hi.ratls, hi.exchange, hi.verified, hi.confirmed⟩, id⟩
  | appraise world =>
    obtain ⟨hinv, -, hfailed, -⟩ := appraise_spec hi world Prod.mk.eta.symm
    exact ⟨⟨policy, hinv⟩, hfailed⟩
  | re_attest wants_write random turn =>
    obtain ⟨-, hfailed, hcases⟩ := re_attest_spec hi wants_write random turn Prod.mk.eta.symm
    refine ⟨?_, hfailed⟩
    rcases hcases with ⟨-, hsame⟩ | ⟨-, -, hinv⟩ | ⟨nonce, -, -, hinv⟩
    · rw [step, hsame]
      exact ⟨policy, hi⟩
    · exact hinv
    · exact ⟨_, hinv⟩
  | take => exact ⟨⟨policy, hi.ratls, hi.exchange, hi.verified, hi.confirmed⟩, id⟩
  | close => exact ⟨⟨policy, hi.ratls, hi.exchange, hi.verified, hi.confirmed⟩, fun _ => rfl⟩

theorem step_accepted {call : Call} (h : (step conn c call).accepted ≠ c.accepted) : c.is_ready = true := by
  cases call with
  | feed bytes packets last => exact absurd (feed_tls_bytes_spec hi bytes packets last Prod.mk.eta.symm).2.1 h
  | write bytes taken refused =>
    obtain ⟨more, hmore, hready⟩ := write_plaintext_spec (c := c) bytes taken refused
    rw [step, hmore] at h
    exact hready fun hnil => h (by simp [hnil])
  | appraise world => exact absurd (appraise_spec hi world Prod.mk.eta.symm).2.1 h
  | re_attest wants_write random turn => exact absurd (re_attest_spec hi wants_write random turn Prod.mk.eta.symm).1 h
  | take | close => exact absurd rfl h

theorem step_ratls {call : Call} (h : ∀ wants_write random turn, call ≠ .re_attest wants_write random turn) :
    (step conn c call).ratls = c.ratls := by
  rw [hi.ratls]
  cases call with
  | feed bytes packets last => exact (feed_tls_bytes_spec hi bytes packets last Prod.mk.eta.symm).1.ratls
  | write bytes taken refused =>
    obtain ⟨more, hmore, -⟩ := write_plaintext_spec (c := c) bytes taken refused
    rw [step, hmore]
    exact hi.ratls
  | appraise world => exact (appraise_spec hi world Prod.mk.eta.symm).1.ratls
  | re_attest wants_write random turn => exact absurd rfl (h wants_write random turn)
  | take | close => exact hi.ratls

theorem step_guarded (call : Call) : Guarded conn c call where
  accepts h := by
    have hready := step_accepted hi h
    exact ⟨hready, hi.proved hready⟩
  ready h := by
    obtain ⟨policy', hi'⟩ := (step_inv hi call).1
    exact hi'.proved h
  renews := by
    rintro wants_write random turn nonce rfl hr
    obtain ⟨-, -, hcases⟩ := re_attest_spec hi wants_write random turn Prod.mk.eta.symm
    rw [hr] at hcases
    rcases hcases with ⟨⟨e, he⟩, -⟩ | ⟨⟨e, he⟩, -⟩ | ⟨nonce', hn, hrandom, hinv⟩
    · cases he
    · cases he
    · cases hn
      exact ⟨hrandom, _, hinv.ratls, rfl⟩
  keeps := step_ratls hi
  feed_fails := by
    rintro bytes packets last rfl
    exact (feed_tls_bytes_spec hi bytes packets last Prod.mk.eta.symm).2.2.2
  appraisal_fails := by
    rintro world rfl
    exact (appraise_spec hi world Prod.mk.eta.symm).2.2.2
  renewal_fails := by
    rintro wants_write random turn e rfl hr
    obtain ⟨-, -, hcases⟩ := re_attest_spec hi wants_write random turn Prod.mk.eta.symm
    rcases hcases with ⟨-, hsame⟩ | ⟨-, hfailed, -⟩ | ⟨nonce, hn, -⟩
    · exact .inr hsame
    · exact .inl hfailed
    · rw [hr] at hn
      cases hn
  closes := by
    rintro rfl
    rfl

end

theorem run_inv (conn : Connection) (hmade : Made policy c)
    (calls : List Call) (i : Nat) : ∃ policy', Inv conn policy' (before (step conn) c calls i) := by
  refine before_induction (P := fun c => ∃ policy', Inv conn policy' c) ⟨policy, made_inv hmade⟩ ?_ i
  rintro c call ⟨policy', hi⟩
  exact (step_inv hi call).1

theorem run_failed (hmade : Made policy c)
    (calls : List Call) {i j : Nat} (hij : i ≤ j) (h : (before (step conn) c calls i).failed = true) :
    (before (step conn) c calls j).failed = true := by
  induction j, hij using Nat.le_induction with
  | base => exact h
  | succ j hij ih =>
    rcases hcall : calls[j]? with _ | call
    · rw [before_of_none hcall]
      exact ih
    rw [before_succ hcall]
    obtain ⟨policy', hi⟩ := run_inv conn hmade calls j
    exact (step_inv hi call).2 ih

end IncrementalTlsClient

end Theory

namespace Sample

scoped instance outside : Outside where
  toUnicode := unicode
  from_der der := if der = [1] then
    some (⟨[], "1.2.840.10045.2.1", some "1.2.840.10045.3.1.7", 0, 4 :: List.replicate 64 1⟩, []) else none
  sha256 b := b
  sha512 _ := register 64 7
  base64_url s := .ok (utf8 s)
  parse_quote3 _ := .ok ⟨register 32 0xaa, register 32 0xbb, register 64 7⟩
  parse_quote4 _ := .error "RA-TLS: TDX quote too short (1 bytes, need >= 632)"
  attest_response _ := .ok ⟨2, "challenge", "sgx", "q", none, "2026-09-04T12:00Z", "required",
    some (String.ofList (List.replicate 32 'c')), none⟩
  debug s := s

def conn : Connection := ⟨some [1], fun _ _ => some (register 32 9)⟩

def policy : RaTlsPolicy where
  tee := .sgx
  mr_enclave := some (register 32 0xaa)
  mr_signer := none
  mr_td := none
  report_data := .challengeResponse (List.replicate 32 5)
  expected_oids := []
  attestation_servers := ["https://appraiser.test"]
  acceptable_tcb_statuses := []
  client_identity := some ⟨[1], none⟩
  dependencies := none

def turn (reads : List Read) : Turn :=
  ⟨.ok (), reads, 1788523200, some fun _ => some [1], some [1], .ok (), [], fun _ => none⟩

def appraiser : Appraisers := ⟨true, fun _ _ _ => .verdict ⟨true, "OK", "UpToDate", ""⟩⟩

def answer : Turn := turn [.data (utf8 "HTTP/1.1 200 OK\r\nContent-Length: 1\r\n\r\nx")]

def accepted : Turn := turn [.data (utf8 "HTTP/1.1 204 No Content\r\n\r\n")]

open IncrementalTlsClient

def client : IncrementalTlsClient := ⟨true, some policy, false, [], true, none, true, false, none, []⟩

def calls : List Call :=
  [.feed [] [.processed false (turn [])] (turn []), .feed [] [.processed false answer] (turn []),
    .feed [] [.processed false accepted] (turn []), .appraise appraiser, .write (utf8 "hi") 2 none]

end Sample

end EnclaveOs.Egress
