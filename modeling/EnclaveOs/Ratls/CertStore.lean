import EnclaveOs.Attest.ConfigRoot

/-!
# The certificate store (`cert_store.rs`)

A lease is the address of its flag.
-/

namespace EnclaveOs.Ratls

open Lib Merkle Attest

def HONEST_PEER_SNI : String := "peer.s1.invalid"

structure AppIdentity where
  hostname : String
  config : List ConfigEntry
  attested_endpoint : Option AttestedEndpointIdentity

structure AppCertData where
  hostname : String
  merkle_root : Hash
  oid_extensions : List (List UInt64 × Bytes)
  attested_endpoint : Option AttestedEndpointIdentity

structure Entry where
  configuration : Nat
  app : RegisteredApp

structure StoreState where
  apps : String → Option Entry
  platform : Nat
  fixed_peer : Option Nat
  flags : Nat → Bool
  next : Nat

inductive Slot where
  | app (hostname : String)
  | platform
  | peer

namespace StoreState

def held (s : StoreState) : Slot → Option Nat
  | .app hostname => (s.apps hostname).map Entry.configuration
  | .platform => some s.platform
  | .peer => s.fixed_peer

def is_current (s : StoreState) (l : Nat) : Bool := s.flags l

/-- `ConfigurationLease::new`. -/
def new_lease (s : StoreState) : StoreState :=
  { s with flags := Function.update s.flags s.next true, next := s.next + 1 }

def revoke (s : StoreState) (lease : Nat) : StoreState := { s with flags := Function.update s.flags lease false }

/-- `ConfigurationLease::replace`: the new lease is the one at `s.next`. -/
def replace (s : StoreState) (lease : Nat) : StoreState := (s.revoke lease).new_lease

def with_fixed_peer (fixed_peer : Bool) : StoreState where
  apps _ := none
  platform := 0
  fixed_peer := if fixed_peer then some 1 else none
  flags _ := true
  next := 2

def replace_platform (s : StoreState) : StoreState := { s.replace s.platform with platform := s.next }

/-- `fixed_peer.take()`, revoking what is taken. -/
def take_peer (s : StoreState) : StoreState :=
  match s.fixed_peer with
  | some peer => { s.revoke peer with fixed_peer := none }
  | none => s

def replace_peer (s : StoreState) : StoreState :=
  match s.fixed_peer with
  | some peer => { s.replace peer with fixed_peer := some s.next }
  | none => s

def replace_app (s : StoreState) (hostname : String) : StoreState :=
  match s.apps hostname with
  | some app =>
    { s.replace app.configuration with apps := Function.update s.apps hostname (some { app with configuration := s.next }) }
  | none => s

def register (sha256 : Bytes → Hash) (s : StoreState) (identity : AppIdentity) : StoreState :=
  -- `compute_app` makes the new entry's lease.
  let registered : Entry := ⟨s.next, compute_app sha256 identity.config identity.attested_endpoint⟩
  let s := s.new_lease
  let s := if identity.hostname = HONEST_PEER_SNI then s.take_peer else s
  let s := (s.replace_app identity.hostname).replace_platform
  { s with apps := Function.update s.apps identity.hostname (some registered) }

def unregister (s : StoreState) (hostname : String) : StoreState × Bool :=
  let s := if hostname = HONEST_PEER_SNI ∧ s.fixed_peer.isSome then s.take_peer.replace_platform else s
  match s.apps hostname with
  | some previous =>
    ({ s.replace previous.configuration with apps := Function.update s.apps hostname none }.replace_platform, true)
  | none => (s, false)

def invalidate (s : StoreState) (hostname : String) : StoreState :=
  let s := if hostname = HONEST_PEER_SNI then s.replace_peer else s
  (s.replace_app hostname).replace_platform

def app_data (hostname : String) (app : RegisteredApp) : AppCertData :=
  ⟨hostname, app.merkle_root, app.oid_extensions, app.attested_endpoint⟩

def snapshot (s : StoreState) (hostname : Option String) : Option AppCertData × Nat :=
  match hostname.bind fun name => (s.apps name).map fun entry => (name, entry) with
  | some (name, entry) => (some (app_data name entry.app), entry.configuration)
  | none => (none, (s.fixed_peer.filter fun _ => hostname = some HONEST_PEER_SNI).getD s.platform)

inductive Op where
  | register (identity : AppIdentity)
  | unregister (hostname : String)
  | invalidate (hostname : String)
  | snapshot (hostname : Option String)

def Op.name : Op → Option String
  | .register identity => some identity.hostname
  | .unregister hostname => some hostname
  | .invalidate hostname => some hostname
  | .snapshot _ => none

section

variable (sha256 : Bytes → Hash)

def step (s : StoreState) : Op → StoreState
  | .register identity => s.register sha256 identity
  | .unregister hostname => (s.unregister hostname).1
  | .invalidate hostname => s.invalidate hostname
  | .snapshot _ => s

def run (s : StoreState) (ops : List Op) : StoreState := ops.foldl (step sha256) s

end

/-! ## What one call does -/

/-- Leases that are held are current, and each is held in one place. -/
structure Inv (s : StoreState) : Prop where
  current : ∀ k l, s.held k = some l → l < s.next ∧ s.flags l = true
  distinct : ∀ k k' l, s.held k = some l → s.held k' = some l → k = k'

/-- The places `K` lose their leases, which are revoked, and may get new ones. -/
structure Moved (K : Set Slot) (s s' : StoreState) : Prop where
  next : s.next ≤ s'.next
  apps : ∀ h, .app h ∉ K → s'.apps h = s.apps h
  same : ∀ k ∉ K, s'.held k = s.held k
  new : ∀ k ∈ K, ∀ l, s'.held k = some l → s.next ≤ l
  flags : ∀ l < s.next, s'.flags l = true ↔ s.flags l = true ∧ ∀ k ∈ K, s.held k ≠ some l
  inv : Inv s → Inv s'

variable {s s' s'' : StoreState} {K K' : Set Slot} {n : String}

theorem moved_none (s : StoreState) : Moved ∅ s s :=
  ⟨le_rfl, fun _ _ => rfl, fun _ _ => rfl, by simp, by simp, id⟩

theorem moved_new_lease (s : StoreState) : Moved ∅ s s.new_lease where
  next := Nat.le_succ _
  apps _ _ := rfl
  same _ _ := rfl
  new := by simp
  flags l hl := by simp [new_lease, hl.ne]
  inv h := by
    refine ⟨fun k l hk => ?_, h.distinct⟩
    obtain ⟨hlt, hflag⟩ := h.current k l hk
    exact ⟨Nat.lt_succ_of_lt hlt, by simp [new_lease, hlt.ne, hflag]⟩

theorem Moved.trans (h : Moved K s s') (h' : Moved K' s' s'') : Moved (K ∪ K') s s'' where
  next := h.next.trans h'.next
  apps host hn := by
    rw [Set.mem_union, not_or] at hn
    rw [h'.apps host hn.2, h.apps host hn.1]
  same k hk := by
    rw [Set.mem_union, not_or] at hk
    rw [h'.same k hk.2, h.same k hk.1]
  new k hk l hl := by
    by_cases hk' : k ∈ K'
    · exact h.next.trans (h'.new k hk' l hl)
    · exact h.new k (hk.resolve_right hk') l (h'.same k hk' ▸ hl)
  flags l hl := by
    have hheld : (∀ k ∈ K, s.held k ≠ some l) → ((∀ k ∈ K', s'.held k ≠ some l) ↔ ∀ k ∈ K', s.held k ≠ some l) := by
      intro hK
      refine forall₂_congr fun k _ => ?_
      by_cases hk : k ∈ K
      · exact iff_of_true (fun hnew => absurd (h.new k hk l hnew) (Nat.not_le.mpr hl)) (hK k hk)
      · rw [h.same k hk]
    rw [h'.flags l (hl.trans_le h.next), h.flags l hl, and_assoc]
    refine and_congr_right fun _ => ?_
    simp only [Set.mem_union, or_imp, forall_and]
    exact and_congr_right hheld
  inv hi := h'.inv (h.inv hi)

/-- One place changes hands. -/
theorem moved_one (k : Slot) (hnext : s.next ≤ s'.next) (happs : ∀ h, .app h ≠ k → s'.apps h = s.apps h)
    (hsame : ∀ k' ≠ k, s'.held k' = s.held k')
    (hnew : ∀ l, s'.held k = some l → l = s.next ∧ s'.flags l = true ∧ l < s'.next)
    (hflags : ∀ l < s.next, s'.flags l = true ↔ s.flags l = true ∧ s.held k ≠ some l) : Moved {k} s s' where
  next := hnext
  apps h hh := happs h hh
  same k' hk' := hsame k' hk'
  new k' hk' l hl := by
    obtain rfl := Set.mem_singleton_iff.mp hk'
    exact (hnew l hl).1.ge
  flags l hl := by simpa using hflags l hl
  inv hi := by
    have hold {k' l} (hk' : k' ≠ k) (hl : s'.held k' = some l) : s.held k' = some l ∧ l < s.next := by
      rw [hsame k' hk'] at hl
      exact ⟨hl, (hi.current k' l hl).1⟩
    constructor
    · intro k' l hl
      by_cases hk' : k' = k
      · subst hk'
        exact (hnew l hl).2.symm
      · obtain ⟨hheld, hlt⟩ := hold hk' hl
        refine ⟨hlt.trans_le hnext, (hflags l hlt).mpr ⟨(hi.current k' l hheld).2, fun hk => hk' ?_⟩⟩
        exact hi.distinct k' k l hheld hk
    · intro k₁ k₂ l h₁ h₂
      by_cases hk₁ : k₁ = k <;> by_cases hk₂ : k₂ = k
      · rw [hk₁, hk₂]
      · exact absurd (hnew l (hk₁ ▸ h₁)).1 (hold hk₂ h₂).2.ne
      · exact absurd (hnew l (hk₂ ▸ h₂)).1 (hold hk₁ h₁).2.ne
      · exact hi.distinct k₁ k₂ l (hold hk₁ h₁).1 (hold hk₂ h₂).1

theorem flags_replace {lease l : Nat} (hl : l < s.next) :
    (s.replace lease).flags l = true ↔ s.flags l = true ∧ some lease ≠ some l := by
  rw [replace, new_lease]
  dsimp only
  rw [Function.update_of_ne (show l ≠ (s.revoke lease).next from hl.ne)]
  by_cases h : l = lease <;> simp [revoke, h, Ne.symm]

theorem flags_next (lease : Nat) : (s.replace lease).flags s.next = true := by simp [replace, revoke, new_lease]

theorem moved_platform (s : StoreState) : Moved {.platform} s s.replace_platform := by
  refine moved_one _ (Nat.le_succ _) (fun _ _ => rfl) ?_ ?_ fun l hl => flags_replace hl
  · rintro (h | - | -) hk
    · rfl
    · exact absurd rfl hk
    · rfl
  · rintro l ⟨⟩
    exact ⟨rfl, flags_next _, Nat.lt_succ_self _⟩

theorem moved_take_peer (s : StoreState) : Moved {.peer} s s.take_peer := by
  unfold take_peer
  split
  · rename_i peer hp
    refine moved_one _ le_rfl (fun _ _ => rfl) ?_ (by rintro l ⟨⟩) fun l _ => ?_
    · rintro (h | - | -) hk
      · rfl
      · rfl
      · exact absurd rfl hk
    · by_cases h : l = peer <;> simp [revoke, held, hp, h, Ne.symm]
  · rename_i hp
    exact moved_one _ le_rfl (fun _ _ => rfl) (fun _ _ => rfl) (by simp [held, hp]) (by simp [held, hp])

theorem moved_replace_peer (s : StoreState) : Moved {.peer} s s.replace_peer := by
  unfold replace_peer
  split
  · rename_i peer hp
    refine moved_one _ (Nat.le_succ _) (fun _ _ => rfl) ?_ ?_ fun l hl => ?_
    · rintro (h | - | -) hk
      · rfl
      · rfl
      · exact absurd rfl hk
    · rintro l ⟨⟩
      exact ⟨rfl, flags_next _, Nat.lt_succ_self _⟩
    · rw [held, hp]
      exact flags_replace hl
  · rename_i hp
    exact moved_one _ le_rfl (fun _ _ => rfl) (fun _ _ => rfl) (by simp [held, hp]) (by simp [held, hp])

/-- The entry's lease is replaced; the entry gets the new one or goes. -/
theorem moved_app {previous : Entry} (hp : s.apps n = some previous) (app : Option Entry)
    (happ : ∀ e, app = some e → e.configuration = s.next) :
    Moved {.app n} s { s.replace previous.configuration with apps := Function.update s.apps n app } := by
  refine moved_one _ (Nat.le_succ _) ?_ ?_ ?_ fun l hl => ?_
  · intro h hh
    exact Function.update_of_ne (fun heq => hh (congrArg _ heq)) ..
  · rintro (h | - | -) hk
    · have hne : h ≠ n := fun heq => hk (congrArg _ heq)
      simp [held, hne]
    · rfl
    · rfl
  · intro l hl
    obtain ⟨e, he, rfl⟩ : ∃ e, app = some e ∧ e.configuration = l := by simpa [held] using hl
    rw [happ e he]
    exact ⟨rfl, flags_next _, Nat.lt_succ_self _⟩
  · rw [held, hp]
    exact flags_replace hl

theorem moved_replace_app (s : StoreState) (n : String) : Moved {.app n} s (s.replace_app n) := by
  unfold replace_app
  split
  · exact moved_app ‹_› _ (by rintro e ⟨⟩; rfl)
  · rename_i hp
    exact moved_one _ le_rfl (fun _ _ => rfl) (fun _ _ => rfl) (by simp [held, hp]) (by simp [held, hp])

/-- The lease made before the other changes is put in its place after them. -/
theorem Moved.insert {e : Entry} (h : Moved K s.new_lease s') (hn : .app n ∈ K) (he : e.configuration = s.next) :
    Moved K s { s' with apps := Function.update s'.apps n (some e) } := by
  have hs := (moved_new_lease s).trans h
  rw [Set.empty_union] at hs
  have happ : StoreState.held { s' with apps := Function.update s'.apps n (some e) } (.app n) = some s.next := by
    simp [held, he]
  have hother : ∀ k ≠ .app n, StoreState.held { s' with apps := Function.update s'.apps n (some e) } k = s'.held k := by
    rintro (h | - | -) hk
    · have hne : h ≠ n := fun heq => hk (congrArg _ heq)
      simp [held, hne]
    · rfl
    · rfl
  refine ⟨hs.next, fun host hh => ?_, fun k hk => ?_, fun k hk l hl => ?_, hs.flags, fun hi => ?_⟩
  · rw [← hs.apps host hh]
    refine Function.update_of_ne ?_ ..
    rintro rfl
    exact hh hn
  · rw [hother k fun heq => hk (heq ▸ hn), hs.same k hk]
  · by_cases hkn : k = .app n
    · rw [hkn, happ] at hl
      exact (Option.some.inj hl).le
    · exact hs.new k hk l (hother k hkn ▸ hl)
  have hunheld : ∀ k, s.held k ≠ some s.next := fun k hk => (hi.current k _ hk).1.false
  have hflag : s'.flags s.next = true := (h.flags _ (Nat.lt_succ_self _)).mpr ⟨by simp [new_lease], fun k _ => hunheld k⟩
  have hfree : ∀ k, s'.held k ≠ some s.next := by
    intro k hl
    by_cases hk : k ∈ K
    · exact absurd (h.new k hk _ hl) (Nat.not_succ_le_self _)
    · exact hunheld k ((hs.same k hk).symm.trans hl)
  constructor
  · intro k l hl
    by_cases hk : k = .app n
    · obtain rfl := Option.some.inj ((hk ▸ hl).symm.trans happ)
      exact ⟨(Nat.lt_succ_self _).trans_le h.next, hflag⟩
    · exact (hs.inv hi).current k l (hother k hk ▸ hl)
  · intro k k' l hl hl'
    by_cases hk : k = .app n <;> by_cases hk' : k' = .app n
    · rw [hk, hk']
    · rw [hk, happ] at hl
      exact absurd ((hother k' hk').symm.trans (hl'.trans hl.symm)) (hfree k')
    · rw [hk', happ] at hl'
      exact absurd ((hother k hk).symm.trans (hl.trans hl'.symm)) (hfree k)
    · exact (hs.inv hi).distinct k k' l (hother k hk ▸ hl) (hother k' hk' ▸ hl')

def Concerns (n : String) : Slot → Prop
  | .app host => host = n
  | .peer => n = HONEST_PEER_SNI
  | .platform => True

/-- What a call for `n` does: it revokes only leases that concern `n`, the platform's with any other, and that of
the fixed peer on the reserved name. -/
structure Change (s s' : StoreState) (n : String) (K : Set Slot) : Prop extends Moved K s s' where
  concerns : ∀ k ∈ K, Concerns n k
  platform : K.Nonempty → .platform ∈ K
  reserved : n = HONEST_PEER_SNI → s.fixed_peer.isSome → .peer ∈ K

variable (sha256 : Bytes → Hash)

theorem change_register (s : StoreState) (identity : AppIdentity) :
    ∃ K, Change s (s.register sha256 identity) identity.hostname K := by
  have hrest (s : StoreState) : Moved {.app identity.hostname, .platform} s
      (s.replace_app identity.hostname).replace_platform :=
    (moved_replace_app s _).trans (moved_platform _)
  unfold register
  dsimp only
  split
  · rename_i hn
    refine ⟨_, ((moved_take_peer s.new_lease).trans (hrest _)).insert (by simp) rfl, ?_, by simp, by simp⟩
    rintro k (rfl | rfl | rfl)
    exacts [hn, rfl, trivial]
  · rename_i hn
    refine ⟨_, (hrest s.new_lease).insert (by simp) rfl, ?_, by simp, fun h => absurd h hn⟩
    rintro k (rfl | rfl)
    exacts [rfl, trivial]

theorem change_unregister (s : StoreState) (n : String) : ∃ K, Change s (s.unregister n).1 n K := by
  have hpeer : ∃ K ⊆ {.peer, .platform},
      Moved K s (if n = HONEST_PEER_SNI ∧ s.fixed_peer.isSome then s.take_peer.replace_platform else s) ∧
      (K.Nonempty → n = HONEST_PEER_SNI ∧ .platform ∈ K) ∧ (n = HONEST_PEER_SNI → s.fixed_peer.isSome → .peer ∈ K) := by
    split
    · rename_i hn
      exact ⟨_, subset_rfl, (moved_take_peer s).trans (moved_platform _), by simp [hn], by simp⟩
    · rename_i hn
      exact ⟨∅, Set.empty_subset _, moved_none s, by simp, fun h hp => absurd ⟨h, hp⟩ hn⟩
  obtain ⟨K, hK, hmoved, hplatform, hreserved⟩ := hpeer
  have hconcerns : ∀ k ∈ K, Concerns n k := by
    intro k hk
    rcases hK hk with rfl | rfl
    exacts [(hplatform ⟨_, hk⟩).1, trivial]
  unfold unregister
  dsimp only
  split
  · rename_i previous hp
    refine ⟨_, hmoved.trans ((moved_app hp none (by simp)).trans (moved_platform _)), ?_, by simp,
      fun h hp => .inl (hreserved h hp)⟩
    rintro k (hk | rfl | rfl)
    exacts [hconcerns k hk, rfl, trivial]
  · exact ⟨K, hmoved, hconcerns, fun h => (hplatform h).2, hreserved⟩

theorem change_invalidate (s : StoreState) (n : String) : ∃ K, Change s (s.invalidate n) n K := by
  unfold invalidate
  dsimp only
  split
  · rename_i hn
    refine ⟨_, (moved_replace_peer s).trans ((moved_replace_app _ n).trans (moved_platform _)), ?_, by simp, by simp⟩
    rintro k (rfl | rfl | rfl)
    exacts [hn, rfl, trivial]
  · rename_i hn
    refine ⟨_, (moved_replace_app s n).trans (moved_platform _), ?_, by simp, fun h => absurd h hn⟩
    rintro k (rfl | rfl)
    exacts [rfl, trivial]

theorem step_cases (s : StoreState) (op : Op) : step sha256 s op = s ∧ op.name = none ∨
    ∃ n K, op.name = some n ∧ Change s (step sha256 s op) n K := by
  cases op with
  | register identity =>
    obtain ⟨K, h⟩ := change_register sha256 s identity
    exact .inr ⟨_, K, rfl, h⟩
  | unregister n =>
    obtain ⟨K, h⟩ := change_unregister s n
    exact .inr ⟨n, K, rfl, h⟩
  | invalidate n =>
    obtain ⟨K, h⟩ := change_invalidate s n
    exact .inr ⟨n, K, rfl, h⟩
  | snapshot hostname => exact .inl ⟨rfl, rfl⟩

/-! ## Leases over histories -/

theorem inv_step (h : Inv s) (op : Op) : Inv (step sha256 s op) := by
  rcases step_cases sha256 s op with ⟨hs, -⟩ | ⟨n, K, -, hc⟩
  · rwa [hs]
  · exact hc.inv h

theorem next_step {l : Nat} (hl : l < s.next) (op : Op) : l < (step sha256 s op).next := by
  rcases step_cases sha256 s op with ⟨hs, -⟩ | ⟨n, K, -, hc⟩
  · rwa [hs]
  · exact hl.trans_le hc.next

theorem inv_run (h : Inv s) (ops : List Op) : Inv (run sha256 s ops) := by
  induction ops generalizing s with
  | nil => exact h
  | cons op ops ih => exact ih (inv_step sha256 h op)

theorem inv_with_fixed_peer (fixed_peer : Bool) : Inv (with_fixed_peer fixed_peer) := by
  constructor
  · rintro (h | - | -) l hk <;> cases fixed_peer <;> simp [with_fixed_peer, held] at hk ⊢ <;> omega
  · rintro (h | - | -) (h' | - | -) l hk hk' <;> cases fixed_peer <;> simp [with_fixed_peer, held] at hk hk' ⊢ <;> omega

theorem current_step {l : Nat} (hl : l < s.next) {op : Op} (hcur : (step sha256 s op).is_current l = true) :
    s.is_current l = true := by
  rcases step_cases sha256 s op with ⟨hs, -⟩ | ⟨n, K, -, hc⟩
  · rwa [hs] at hcur
  · exact ((hc.flags l hl).mp hcur).1

theorem snapshot_cases (s : StoreState) (name : Option String) :
    (∃ host e, name = some host ∧ s.apps host = some e ∧ s.snapshot name = (some (app_data host e.app), e.configuration)) ∨
    (∀ host, name = some host → s.apps host = none) ∧
      ((∃ l, name = some HONEST_PEER_SNI ∧ s.fixed_peer = some l ∧ s.snapshot name = (none, l)) ∨
        ¬ (name = some HONEST_PEER_SNI ∧ s.fixed_peer.isSome) ∧ s.snapshot name = (none, s.platform)) := by
  have hfallback : (∀ host, name = some host → s.apps host = none) → s.snapshot name =
      (none, (s.fixed_peer.filter fun _ => name = some HONEST_PEER_SNI).getD s.platform) := by
    intro h
    rcases name with _ | host
    · rfl
    · simp [snapshot, h host rfl]
  by_cases h : ∀ host, name = some host → s.apps host = none
  · refine .inr ⟨h, ?_⟩
    rw [hfallback h]
    by_cases hn : name = some HONEST_PEER_SNI <;> cases s.fixed_peer <;> simp [hn, Option.filter]
  · push Not at h
    obtain ⟨host, rfl, hne⟩ := h
    obtain ⟨e, he⟩ := Option.ne_none_iff_exists'.mp hne
    exact .inl ⟨host, e, rfl, he, by simp [snapshot, he]⟩

theorem snapshot_lt (h : Inv s) (name : Option String) : (s.snapshot name).2 < s.next ∧
    s.is_current (s.snapshot name).2 = true := by
  rcases snapshot_cases s name with ⟨host, e, -, he, hs⟩ | ⟨-, ⟨l, -, hl, hs⟩ | ⟨-, hs⟩⟩
  · rw [hs]
    exact h.current (.app host) _ (by simp [held, he])
  · rw [hs]
    exact h.current .peer l hl
  · rw [hs]
    exact h.current .platform _ rfl

theorem snapshot_step (h : Inv s) {op : Op} {name : Option String}
    (hcur : (step sha256 s op).is_current (s.snapshot name).2 = true) :
    (step sha256 s op).snapshot name = s.snapshot name := by
  obtain ⟨hlt, -⟩ := snapshot_lt h name
  rcases step_cases sha256 s op with ⟨hs, -⟩ | ⟨n, K, -, hc⟩
  · rw [hs]
  have hkept := ((hc.flags _ hlt).mp hcur).2
  rcases snapshot_cases s name with ⟨host, e, rfl, he, hsnap⟩ | ⟨hnone, ⟨l, rfl, hl, hsnap⟩ | ⟨-, hsnap⟩⟩ <;>
    rw [hsnap] at hkept ⊢
  · have happ := hc.apps host fun hk => hkept _ hk (by simp [held, he])
    simp [snapshot, happ, he]
  · -- A call on the reserved name would have taken the lease away.
    have hpeer : .peer ∉ K := fun hk => hkept _ hk hl
    have hname : .app HONEST_PEER_SNI ∉ K := fun hk => hpeer (hc.reserved (hc.concerns _ hk).symm (by rw [hl]; rfl))
    have hheld : (step sha256 s op).fixed_peer = some l := (hc.same .peer hpeer).trans hl
    simp [snapshot, hc.apps _ hname, hnone _ rfl, hheld, Option.filter]
  · have hnone (k : Slot) : k ∉ K := fun hk => hkept _ (hc.platform ⟨k, hk⟩) rfl
    have hplatform : (step sha256 s op).platform = s.platform := Option.some.inj (hc.same .platform (hnone _))
    have hpeer : (step sha256 s op).fixed_peer = s.fixed_peer := hc.same .peer (hnone _)
    rw [← hsnap]
    simp [snapshot, fun host => hc.apps host (hnone _), hplatform, hpeer]

theorem current_run (ops : List Op) {l : Nat} (hl : l < s.next) (hcur : (run sha256 s ops).is_current l = true) :
    s.is_current l = true := by
  induction ops generalizing s with
  | nil => exact hcur
  | cons op ops ih =>
    by_cases hone : (step sha256 s op).is_current l = true
    · exact current_step sha256 hl hone
    · exact absurd (ih (next_step sha256 hl op) hcur) hone

theorem snapshot_run (h : Inv s) (ops : List Op) {name : Option String}
    (hcur : (run sha256 s ops).is_current (s.snapshot name).2 = true) :
    (run sha256 s ops).snapshot name = s.snapshot name := by
  induction ops generalizing s with
  | nil => rfl
  | cons op ops ih =>
    have hlt := next_step sha256 (snapshot_lt h name).1 op
    have hone := snapshot_step sha256 h (current_run sha256 ops hlt hcur)
    rw [← hone] at hcur ⊢
    exact ih (inv_step sha256 h op) hcur

theorem kept_run (h : Inv s) (ops : List Op) {k : Slot} {l : Nat} (hl : s.held k = some l)
    (hother : ∀ op ∈ ops, ∀ n, op.name = some n → ¬ Concerns n k) : (run sha256 s ops).is_current l = true := by
  induction ops generalizing s with
  | nil => exact (h.current k l hl).2
  | cons op ops ih =>
    refine ih (inv_step sha256 h op) ?_ fun op' hop' => hother op' (.tail _ hop')
    rcases step_cases sha256 s op with ⟨hs, -⟩ | ⟨n, K, hn, hc⟩
    · rw [hs, hl]
    · rw [hc.same k fun hk => hother op (.head _) n hn (hc.concerns k hk), hl]

/-- A lease from `snapshot` is current, and while it is the name resolves to the same data. A retired one stays
so. Calls for other names leave the lease of an application, or of the fixed peer, alone. -/
theorem leases_track (fixed_peer : Bool) (history later : List Op) (name : Option String) :
    let s := run sha256 (with_fixed_peer fixed_peer) history
    let s' := run sha256 s later
    s.is_current (s.snapshot name).2 = true ∧
    (s'.is_current (s.snapshot name).2 = true → s'.snapshot name = s.snapshot name) ∧
    (∀ lease < s.next, s.is_current lease = false → s'.is_current lease = false) ∧
    (∀ host e, s.apps host = some e → (∀ op ∈ later, op.name ≠ some host) → s'.is_current e.configuration = true) ∧
    ∀ peer, s.fixed_peer = some peer → (∀ op ∈ later, op.name ≠ some HONEST_PEER_SNI) →
      s'.is_current peer = true := by
  intro s s'
  have h : Inv s := inv_run sha256 (inv_with_fixed_peer fixed_peer) history
  refine ⟨(snapshot_lt h name).2, snapshot_run sha256 h later, fun lease hl hold => ?_, fun host e he hother => ?_,
    fun peer hpeer hother => ?_⟩
  · rw [← Bool.not_eq_true] at hold ⊢
    exact fun hcur => hold (current_run sha256 later hl hcur)
  · refine kept_run sha256 h later (k := .app host) (by simp [held, he]) fun op hop n hn hk => ?_
    exact hother op hop (hn.trans (congrArg some hk.symm))
  · exact kept_run sha256 h later (k := .peer) hpeer fun op hop n hn hk => hother op hop (hk ▸ hn)

theorem leases_track_sample :
    let s := run (fun _ => zeros) (with_fixed_peer true) [.register ⟨"a", [], none⟩]
    let later := [.register ⟨"b", [], none⟩, .invalidate "b", .unregister "b"]
    (run (fun _ => zeros) s later).is_current 2 = true ∧ (run (fun _ => zeros) s later).is_current 1 = true ∧
      (run (fun _ => zeros) s later).snapshot (some "a") = s.snapshot (some "a") := by
  have h := leases_track (fun _ => zeros) true [.register ⟨"a", [], none⟩]
    [.register ⟨"b", [], none⟩, .invalidate "b", .unregister "b"] (some "a")
  exact ⟨h.2.2.2.1 "a" _ rfl (by simp [Op.name]), h.2.2.2.2 1 rfl (by simp [Op.name, HONEST_PEER_SNI]),
    h.2.1 (h.2.2.2.1 "a" _ rfl (by simp [Op.name]))⟩

end StoreState

end EnclaveOs.Ratls
