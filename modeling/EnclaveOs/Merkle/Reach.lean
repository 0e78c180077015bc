import EnclaveOs.Merkle.Paging
import EnclaveOs.Merkle.Proving
import EnclaveOs.Merkle.Restore
import EnclaveOs.Merkle.Sample

/-! # Reachable stores -/

open EnclaveOs.Lib

open Function (update update_apply update_self)

namespace EnclaveOs.Merkle

inductive Call where
  | batch (b : Batch)
  | preview_batch (entropy : Entropy) (ops : List (Bytes × Option Bytes))
  | get (key : Bytes)
  | get_at (version : UInt64) (key : Bytes)
  | root_at (version : UInt64)
  | prove (key : Bytes)
  | prove_at (version : UInt64) (key : Bytes)
  | snapshot_leaves (fuel : Nat) (version : UInt64) (start_after : Option Hash) (max : Nat)
  | set_cache_capacity (capacity : Nat)
  | pin_version (version : Option UInt64)
  | prune (fuel : Nat) (before_version : UInt64)
  | retain_recent (fuel : Nat) (window : UInt64)
  /-- The store is dropped, and opened again at its root and version. -/
  | reopen

def History.drop (hist : History) (h : UInt64) : History := fun v => if v < h then none else hist v

def History.single (v : UInt64) (M : PathMap) : History := update (fun _ => none) v (some M)

def emptyHistory : History := .single 0 fun _ => none

def HistoryWithin (hist : History) (U : Set (Hash × Bytes)) : Prop :=
  ∀ v M, hist v = some M → ∀ p x, M p = some x → (p, x) ∈ U

theorem HistoryWithin.drop {hist : History} {U : Set (Hash × Bytes)} (h : HistoryWithin hist U) (v : UInt64) :
    HistoryWithin (hist.drop v) U := by
  intro w M hw
  unfold History.drop at hw
  split at hw
  · simp at hw
  · exact h w M hw

theorem Tracks.drop {H : Archive} {hist : History} (h : Tracks H hist) (v : UInt64) :
    Tracks (H.drop v) (hist.drop v) := by
  intro w
  unfold Archive.drop History.drop
  split
  · rfl
  · exact h w

theorem tracks_empty : Tracks emptyArchive emptyHistory := by
  intro v
  unfold emptyArchive emptyHistory History.single
  by_cases hv : v = 0
  · subst hv
    simp
  · simp [hv]

namespace Call

open MerkleStore

def Within (ck : Key) (U : Set (Hash × Bytes)) [Crypto] : Call → Prop
  | .batch b => ∀ p x, (p, some x) ∈ b.updates ck → (p, x) ∈ U
  | _ => True

variable {B : Type} [KvBackend B] [Crypto]

def step (s : MerkleStore B) : Call → MerkleStore B
  | .batch b => b.step s
  | .preview_batch entropy ops => ((MerkleStore.preview_batch entropy ops).exec s).2
  | .get key => ((MerkleStore.get key).exec s).2
  | .get_at version key => ((MerkleStore.get_at version key).exec s).2
  | .root_at version => ((MerkleStore.root_at version).exec s).2
  | .prove key => ((MerkleStore.prove key).exec s).2
  | .prove_at version key => ((MerkleStore.prove_at version key).exec s).2
  | .snapshot_leaves fuel version start_after max => ((MerkleStore.snapshot_leaves fuel version start_after max).exec s).2
  | .set_cache_capacity capacity => ((MerkleStore.set_cache_capacity capacity).exec s).2
  | .pin_version version => ((MerkleStore.pin_version version).exec s).2
  | .prune fuel before_version => ((MerkleStore.prune fuel before_version).exec s).2
  | .retain_recent fuel window => ((MerkleStore.retain_recent fuel window).exec s).2
  | .reopen => (openAt s.backend s.ck s.cipher.key_bytes s.root s.version).toOption.getD s

/-- A version above the current one is refused. -/
def recordPrune (s : MerkleStore B) (before_version : UInt64) (hist : History) : History :=
  if horizon s.snapshot_pin before_version ≤ s.version then hist.drop (horizon s.snapshot_pin before_version) else hist

def record (s : MerkleStore B) (hist : History) : Call → History
  | .batch b => recordBatch b s hist
  | .prune _ before_version => recordPrune s before_version hist
  | .retain_recent _ window => recordPrune s (if window ≤ s.version then s.version - window else 0) hist
  | _ => hist

def pruning (s : MerkleStore B) : Call → Option (Nat × UInt64)
  | .prune fuel before_version => some (fuel, before_version)
  | .retain_recent fuel window => some (fuel, if window ≤ s.version then s.version - window else 0)
  | _ => none

end Call

namespace MerkleStore

section Model

variable {B : Type} [KvBackend B] [Crypto]

section Atomic

variable [AtomicBackend B] {H : Archive} {s s' : MerkleStore B} {c : Version} {U : Set (Hash × Bytes)} {t : Tree}

/-! ## Calls that keep the table -/

theorem Consistent.pinned (h : Consistent H s) (pin : Option UInt64) : Consistent H { s with snapshot_pin := pin } :=
  ⟨h.live, h.upto, fun v c hv => (h.kept v c hv).keep rfl rfl (fun _ _ => rfl) fun _ _ _ hm => .inl hm⟩

theorem Sturdy.pinned (h : Sturdy H s) (pin : Option UInt64) : Sturdy H { s with snapshot_pin := pin } :=
  ⟨h.consistent.pinned pin, h.indexed.shape, h.indexed.unused⟩

theorem Legible.pinned (h : Legible U H s) (pin : Option UInt64) : Legible U H { s with snapshot_pin := pin } :=
  ⟨h.readable, h.within, h.indexed.shape, h.indexed.unused⟩

theorem TidyLive.pinned (h : TidyLive H s) (pin : Option UInt64) : TidyLive H { s with snapshot_pin := pin } := by
  obtain ⟨c, hc, ht⟩ := h
  exact ⟨c, hc, ht.checkpoint, ht.covered⟩

theorem same_preview_batch (hg : Grown s s.version t) (hroot : s.root_child = t.ref) (entropy : Entropy)
    (ops : List (Bytes × Option Bytes)) : Same s ((preview_batch entropy ops).exec s).2 := by
  obtain ⟨r, hr, s1, hexec, hs1⟩ := computes_batch hg hroot entropy ops
  unfold preview_batch
  cases hr with
  | failed why =>
    rw [Method.exec_bind_error hexec]
    exact hs1
  | unchanged hup =>
    rw [Method.exec_bind_ok hexec]
    exact hs1
  | changed hv hne hup hd =>
    rw [Method.exec_bind_ok hexec, Method.exec_bind, exec_nextVersion]
    split <;> rename_i hx <;> (obtain ⟨-, rfl⟩ := Prod.mk.inj hx; exact hs1)

theorem same_reopen (h : Consistent H s) (hc : H s.version = some c)
    (hne : c.tree ≠ .empty → c.tree.hash ≠ placeholder) :
    Same { s with snapshot_pin := none } (Call.reopen.step s) := by
  obtain ⟨hchild, hroot⟩ := h.now hc
  have hk : Kept (fresh s.backend s.ck s.cipher.key_bytes c.tree.hash s.version) s.version c :=
    (h.kept _ c hc).keep rfl rfl (fun _ _ => rfl) fun x _ m hm => by simp [fresh] at hm
  obtain ⟨s1, hopen, ho⟩ := openAt_spec hk hne
  have hstep : Call.reopen.step s = s1 := by
    simp only [Call.step]
    rw [hroot, hopen]
    rfl
  rw [hstep]
  exact ⟨⟨ho.ck, ho.cipher, ho.root.trans hroot.symm, ho.version, ho.root_child.trans hchild.symm, ho.snapshot_pin,
    fun nk n hn => .inr (ho.cache nk n hn)⟩, ho.table⟩

inductive CallKind (s : MerkleStore B) (hist : History) : Call → Prop where
  | batch (b : Batch) : CallKind s hist (.batch b)
  | prunes {c : Call} {fuel : Nat} {before_version : UInt64} (h : c.pruning s = some (fuel, before_version))
    (hstep : c.step s = ((prune fuel before_version).exec s).2)
    (hrecord : c.record s hist = Call.recordPrune s before_version hist) : CallKind s hist c
  | quiet {c : Call} (pin : Option UInt64) (h : c.pruning s = none) (hno : ∀ b, c ≠ .batch b)
    (hrecord : c.record s hist = hist) (hs : Same { s with snapshot_pin := pin } (c.step s)) : CallKind s hist c

theorem Consistent.kind (h : Consistent H s) (hc : H s.version = some c)
    (hne : c.tree ≠ .empty → c.tree.hash ≠ placeholder) (hist : History) (call : Call) : CallKind s hist call := by
  obtain ⟨hchild, -⟩ := h.now hc
  have hk := h.kept _ _ hc
  cases call with
  | batch b => exact .batch b
  | preview_batch entropy ops =>
    exact .quiet _ rfl (by simp) rfl (same_preview_batch hk.toGrown hchild entropy ops)
  | get key => exact .quiet _ rfl (by simp) rfl (reads_get_key key s)
  | get_at version key => exact .quiet _ rfl (by simp) rfl (reads_get_at version key s)
  | root_at version => exact .quiet _ rfl (by simp) rfl (reads_root_at version s)
  | prove key => exact .quiet _ rfl (by simp) rfl (reads_prove key s)
  | prove_at version key => exact .quiet _ rfl (by simp) rfl (reads_prove_at version key s)
  | snapshot_leaves fuel version start_after max =>
    exact .quiet _ rfl (by simp) rfl (reads_snapshot_leaves fuel version start_after max s)
  | set_cache_capacity capacity =>
    refine .quiet s.snapshot_pin rfl (by simp) rfl ⟨⟨rfl, rfl, rfl, rfl, rfl, rfl, fun nk n hn => ?_⟩, rfl⟩
    exact absurd ((NodeCache.lookup_set_capacity _ _ _).symm.trans hn) (by simp)
  | pin_version version => exact .quiet version rfl (by simp) rfl (Same.refl _)
  | prune fuel before_version | retain_recent fuel window => exact .prunes rfl rfl rfl
  | reopen => exact .quiet none rfl (by simp) rfl (same_reopen h hc hne)

theorem Faithful.gives_prove_at {v : UInt64} {key : Bytes} {proof : Proof} (h : Faithful U H s)
    (hR : RootsApart s.ck U) (hc : H v = some c)
    (hgives : ∀ s1 : MerkleStore B, Stored s1 [] c.tree → Gives (prove_path c.tree.ref (path_of s.ck key)) s1 (.ok proof)) :
    Gives (prove_at v key) s (.ok proof) := by
  have hk := h.consistent.kept v c hc
  unfold prove_at
  refine h.gives_at hR hc fun s1 hs1 => ?_
  refine gives_bind ⟨s1, rfl, Same.refl s1⟩ fun s2 hs2 => ?_
  rw [hs1.ck]
  exact hgives s2 (hk.stored.of_same (Same.trans _ _ _ hs1 hs2))

/-- What every call of a run preserves without assumptions on the hashes. -/
structure Upkeep (ck : Key) (U : Set (Hash × Bytes)) (hist : History) (H : Archive) (s : MerkleStore B) : Prop where
  sturdy : Sturdy H s
  tracks : Tracks H hist
  keyed : s.ck = ck
  within : HistoryWithin hist U

/-- What a call hands on when values do not collide, and when the store is tidy. -/
structure Carries (ck : Key) (U : Set (Hash × Bytes)) (H : Archive) (s : MerkleStore B) (H' : Archive)
    (s' : MerkleStore B) : Prop where
  legible : ValuesApart ck U → Legible U H s → Legible U H' s'
  tidy : TidyLive H s → TidyLive H' s'

variable {ck : Key} {hist : History}

theorem Carries.trans {H1 H2 H3 : Archive} {s1 s2 s3 : MerkleStore B} (h : Carries ck U H1 s1 H2 s2)
    (h' : Carries ck U H2 s2 H3 s3) : Carries ck U H1 s1 H3 s3 :=
  ⟨fun hU hl => h'.legible hU (h.legible hU hl), fun ht => h'.tidy (h.tidy ht)⟩

theorem Carries.of_same (hs : Same s s') : Carries ck U H s H s' :=
  ⟨fun _ hl => hl.of_same hs, fun ht => ht.of_same hs⟩

theorem Carries.pinned (pin : Option UInt64) : Carries ck U H s H { s with snapshot_pin := pin } :=
  ⟨fun _ hl => hl.pinned pin, fun ht => ht.pinned pin⟩

section

variable (h : Upkeep ck U hist H s)

include h

theorem Upkeep.of_same (hs : Same s s') : Upkeep ck U hist H s' :=
  ⟨h.sturdy.of_same hs, h.tracks, hs.ck.trans h.keyed, h.within⟩

theorem Upkeep.pinned (pin : Option UInt64) :
    Upkeep ck U hist H { s with snapshot_pin := pin } := ⟨h.sturdy.pinned pin, h.tracks, h.keyed, h.within⟩

theorem Upkeep.archive_within : EnclaveOs.Merkle.MerkleStore.Within H U := by
  intro v c hv
  refine h.within v c.map ?_
  rw [← h.tracks v, hv]
  rfl

theorem Upkeep.live : ∃ c, H s.version = some c ∧ hist s.version = some c.map ∧
    s.root_child = c.tree.ref ∧ s.root = c.tree.hash := by
  obtain ⟨c, hc, hchild, hroot⟩ := h.sturdy.consistent.live
  refine ⟨c, hc, ?_, hchild, hroot⟩
  rw [← h.tracks, hc]
  rfl

theorem Upkeep.hash_ne (hR : RootsApart ck U) {v : UInt64} (hc : H v = some c) :
    c.tree ≠ .empty → c.tree.hash ≠ placeholder :=
  (h.sturdy.consistent.kept v c hc).hash_ne (by rw [h.keyed]; exact hR) (h.archive_within v c hc)

theorem Upkeep.prune (fuel : Nat) (before_version : UInt64) :
    ∃ H', Upkeep ck U (Call.recordPrune s before_version hist) H' ((prune fuel before_version).exec s).2 ∧
      Carries ck U H s H' ((prune fuel before_version).exec s).2 := by
  unfold Call.recordPrune
  rcases prune_cases fuel before_version s with ⟨hlt, m, hexec⟩ | ⟨hle, r, b, hexec, hrec, -⟩
  · rw [hexec, if_neg (UInt64.not_le.mpr hlt)]
    exact ⟨H, h, .of_same (Same.refl s)⟩
  · rw [hexec, if_pos hle]
    exact ⟨H.drop _, ⟨h.sturdy.pruned hle hrec, h.tracks.drop _, h.keyed, h.within.drop _⟩,
      fun _ hl => hl.pruned h.sturdy hrec, fun ht => ht.pruned h.sturdy hle hrec⟩

end

end Atomic

section Honest

variable [HonestBackend B] {H : Archive} {s s' : MerkleStore B} {U : Set (Hash × Bytes)} {ck : Key} {hist : History}

omit [HonestBackend B] in
theorem recordBatch_ok {b : Batch} {root : Hash} {v : UInt64} {M : PathMap} (h : (b.run.exec s).1 = .ok (root, v))
    (hM : hist s.version = some M) :
    recordBatch b s hist = update hist v (some (overlay M (b.updates s.ck))) := by
  unfold recordBatch
  rw [h, hM]
  rfl

omit [HonestBackend B] in
theorem recordBatch_error {b : Batch} {e : Fault} (h : (b.run.exec s).1 = .error e) : recordBatch b s hist = hist := by
  unfold recordBatch
  rw [h]

theorem Upkeep.batch (h : Upkeep ck U hist H s) (b : Batch) (hb : ∀ p x, (p, some x) ∈ b.updates ck → (p, x) ∈ U) :
    ∃ H', Upkeep ck U (recordBatch b s hist) H' (b.step s) ∧ Carries ck U H s H' (b.step s) := by
  obtain ⟨H', hs', ht', hl, htidy⟩ := h.sturdy.batch h.tracks b
  obtain ⟨c, hc, hlive, hchild, -⟩ := h.live
  have hck := (b.outcome (h.sturdy.consistent.kept _ c hc).toGrown hchild).settings.1
  refine ⟨H', ⟨hs', ht', hck.trans h.keyed, fun v M hv => ?_⟩, fun hU => ?_, htidy⟩
  · rcases hr : (b.run.exec s).1 with e | ⟨root, w⟩
    · rw [recordBatch_error hr] at hv
      exact h.within v M hv
    rw [recordBatch_ok hr hlive, update_apply] at hv
    split at hv
    · rw [← Option.some.inj hv]
      intro p x hx
      rw [← patched_dedup, h.keyed] at hx
      exact patched_mem (h.within _ _ hlive) (fun p x hp => hb p x (mem_dedup hp)) p x hx
    · exact h.within v M hv
  · rw [h.keyed] at hl
    exact hl U hU hb

theorem Upkeep.call (h : Upkeep ck U hist H s) (hR : RootsApart ck U) (call : Call) (hc : call.Within ck U) :
    ∃ H', Upkeep ck U (call.record s hist) H' (call.step s) ∧ Carries ck U H s H' (call.step s) := by
  obtain ⟨c, hlive, -, -, -⟩ := h.live
  cases h.sturdy.consistent.kind hlive (h.hash_ne hR hlive) hist call with
  | batch b => exact h.batch b hc
  | prunes hp hstep hrecord =>
    rw [hstep, hrecord]
    exact h.prune _ _
  | quiet pin hp hno hrecord hs =>
    rw [hrecord]
    exact ⟨H, (h.pinned pin).of_same hs, (Carries.pinned pin).trans (.of_same hs)⟩

/-! ## Where a run starts -/

omit [HonestBackend B] in
theorem Created.upkeep [AtomicBackend B] {T : Table} {sk : Key} (h : Created T ck sk s)
    (hT : ∀ k, T (REC_STALE :: k) = none) (U : Set (Hash × Bytes)) :
    Upkeep ck U emptyHistory emptyArchive s ∧ Legible U emptyArchive s := by
  have hf := h.faithful U
  refine ⟨⟨⟨h.consistent, h.indexed hT _ _⟩, tracks_empty, h.ck, fun v M hv p x hx => ?_⟩,
    hf.readable, hf.within, h.indexed hT _ _⟩
  have hmap := tracks_empty v
  rw [hv] at hmap
  obtain ⟨c, hc, rfl⟩ := Option.map_eq_some_iff.mp hmap
  exact hf.within v c hc p x hx

omit [HonestBackend B] in
theorem Upkeep.stamped [AtomicBackend B] {c : Version} {v : UInt64} (h : Upkeep ck U hist H s)
    (hc : H s.version = some c) (hst : Stamped s c.tree v s')
    (hfresh : v ≠ s.version → s.cache.lookup ⟨v, []⟩ = none) :
    ∃ H', Upkeep ck U (.single v c.map) H' s' ∧ (Legible U H s → Legible U H' s') := by
  have hcon := h.sturdy.consistent.stamped hc hst hfresh
  have hself : Archive.stamp H v c v = some ⟨c.tree.stamp v, c.map⟩ := update_self ..
  -- Only the stamped version is promised.
  let H' : Archive := fun w => if w = v then Archive.stamp H v c w else none
  have hle : ∀ w c', H' w = some c' → Archive.stamp H v c w = some c' := by
    intro w c' hw
    simp only [H', Option.ite_none_right_eq_some] at hw
    exact hw.2
  have hind : ∀ {K : Set Ref}, Indexed K H s → Indexed K H' s' := fun hi =>
    (hi.stamped h.sturdy.consistent hc hst).mono fun w c' hw => ⟨c', hle w c' hw, rfl⟩
  refine ⟨H', ⟨⟨hcon.mono hle ?_, hind h.sturdy.indexed⟩, fun w => ?_, hst.ck.trans h.keyed, fun w M hw => ?_⟩,
    fun hl => ⟨fun w c' hw => hl.readable.stamped hc hst w c' (hle w c' hw),
      fun w c' hw => hl.within.stamped hc v w c' (hle w c' hw), hind hl.indexed⟩⟩
  · rw [hst.version]
    simp [H']
  · unfold History.single
    by_cases hw : w = v
    · subst hw
      simp [H', hself]
    · simp [H', hw]
  · unfold History.single at hw
    rw [update_apply] at hw
    split at hw
    · rw [← Option.some.inj hw]
      exact h.archive_within _ c hc
    · simp at hw

/-- What a restore makes of its leaves. The last one of a path counts. -/
def leafMap (leaves : List (Hash × Bytes)) : PathMap := overlay (fun _ => none) (puts leaves)

theorem restore_upkeep {b : B} {sk : Key} {draw draw' : Option Nonce} {entropy : Entropy}
    {chunks : List (List (Hash × Bytes))} {R : Hash} {v : UInt64}
    (hT : ∀ k, AtomicBackend.table b (REC_STALE :: k) = none)
    (h : restore b ck sk draw entropy draw' chunks R v = .ok s)
    (hU : ∀ p x, (p, x) ∈ chunks.flatten → (p, x) ∈ U) :
    s.version = v ∧ s.root = R ∧
      ∃ H, Upkeep ck U (.single v (leafMap chunks.flatten)) H s ∧ (ValuesApart ck U → Legible U H s) := by
  obtain ⟨s0, s1, bv, hcreate, hput, hstamp, hfresh⟩ := restore_ok h
  obtain ⟨hup0, hleg0⟩ := (create_spec hcreate).upkeep hT U
  obtain ⟨c0, hc0, hlive0, hchild0, -⟩ := hup0.live
  have hrun : (Batch.paths entropy chunks.flatten).run.exec s0 = (.ok (R, bv), s1) := hput
  have hstep : (Batch.paths entropy chunks.flatten).step s0 = s1 := by
    unfold Batch.step
    rw [hrun]
  have hin : ∀ p x, (p, some x) ∈ (Batch.paths entropy chunks.flatten).updates ck → (p, x) ∈ U := by
    intro p x hp
    obtain ⟨op, hop, he⟩ := List.mem_map.mp hp
    obtain ⟨rfl, hx⟩ := Prod.mk.inj he
    rw [← Option.some.inj hx]
    exact hU _ _ hop
  obtain ⟨H1, hup1, hcar⟩ := hup0.batch _ hin
  rw [hstep] at hup1 hcar
  have ho := (Batch.paths entropy chunks.flatten).outcome (hup0.sturdy.consistent.kept _ c0 hc0).toGrown hchild0
  have hans : (Except.ok (R, bv) : Except Fault (Hash × UInt64)) = .ok (s1.root, s1.version) := by
    rcases hup0.sturdy.consistent.put hc0 ho with ⟨e, hr, -⟩ | ⟨t', hr, -⟩
    · rw [hrun] at hr
      simp at hr
    · rw [hrun, hstep] at hr
      exact hr
  obtain ⟨rfl, rfl⟩ := Prod.mk.inj (Except.ok.inj hans)
  obtain ⟨c1, hc1, hlive1, hchild1, -⟩ := hup1.live
  have hst := stamp_spec (hup1.sturdy.consistent.kept _ c1 hc1) hchild1 hstamp
  obtain ⟨H', hup', hleg'⟩ := hup1.stamped hc1 hst (hfresh v)
  have hmap : c1.map = leafMap chunks.flatten := by
    rw [(create_spec hcreate).live] at hc0
    rw [recordBatch_ok (by rw [hrun]) hlive0, update_self, ← Option.some.inj hc0] at hlive1
    exact (Option.some.inj hlive1).symm
  rw [hmap] at hup'
  exact ⟨hst.version, hst.root, H', hup', fun hV => hleg' (hcar.legible hV hleg0)⟩

/-- `s` is reached with values from `U`, and keeps `hist`. -/
inductive Reachable (ck : Key) (U : Set (Hash × Bytes)) : MerkleStore B → History → Prop where
  | created {b : B} {sk : Key} {draw : Option Nonce} {s : MerkleStore B}
    (hT : ∀ k, AtomicBackend.table b (REC_STALE :: k) = none) (h : create b ck sk draw = .ok s) :
    Reachable ck U s emptyHistory
  | restored {b : B} {sk : Key} {draw draw' : Option Nonce} {entropy : Entropy} {chunks : List (List (Hash × Bytes))}
    {R : Hash} {v : UInt64} {s : MerkleStore B} (hT : ∀ k, AtomicBackend.table b (REC_STALE :: k) = none)
    (h : restore b ck sk draw entropy draw' chunks R v = .ok s)
    (hU : ∀ p x, (p, x) ∈ chunks.flatten → (p, x) ∈ U) : Reachable ck U s (.single v (leafMap chunks.flatten))
  | call {s : MerkleStore B} {hist : History} (h : Reachable ck U s hist) (c : Call) (hc : c.Within ck U) :
    Reachable ck U (c.step s) (c.record s hist)

theorem Reachable.upkeep (h : Reachable ck U s hist) (hR : RootsApart ck U) :
    ∃ H, Upkeep ck U hist H s ∧ (ValuesApart ck U → Legible U H s) := by
  induction h with
  | created hT h =>
    obtain ⟨hup, hleg⟩ := (create_spec h).upkeep hT U
    exact ⟨_, hup, fun _ => hleg⟩
  | restored hT h hU =>
    obtain ⟨-, -, H, hup, hleg⟩ := restore_upkeep hT h hU
    exact ⟨H, hup, hleg⟩
  | call _ c hc ih =>
    obtain ⟨H, hup, hleg⟩ := ih
    obtain ⟨H', hup', hcar⟩ := hup.call hR c hc
    exact ⟨H', hup', fun hU => hcar.legible hU (hleg hU)⟩

theorem Reachable.faithful (h : Reachable ck U s hist) (hU : ValuesApart ck U) (hR : RootsApart ck U) :
    ∃ H, Faithful U H s ∧ Tracks H hist ∧ s.ck = ck := by
  obtain ⟨H, hup, hleg⟩ := h.upkeep hR
  exact ⟨H, (hleg hU).faithful hup.sturdy, hup.tracks, hup.keyed⟩

end Honest

end Model

/-! ## A run to compute with -/

namespace Sample

open EnclaveOs.Merkle.Sample

def put : Call := .batch (.keys entropy [([1], some [2])])

def values : Set (Hash × Bytes) := {(path_of key [1], [2])}

theorem values_apart : ValuesApart key values := Set.injOn_singleton _ _

theorem table_empty (k : Bytes) : AtomicBackend.table ({} : MemBackend) k = none := by
  have h : ({} : Std.TreeMap Bytes Bytes)[k]? = none := by simp
  exact h

theorem reachable_store (U : Set (Hash × Bytes)) : Reachable key U store emptyHistory :=
  .created (fun _ => table_empty _) create_store

theorem put_within : put.Within key values := by
  intro p x hp
  obtain ⟨rfl, hx⟩ := Prod.mk.inj (List.mem_singleton.mp hp)
  rw [Option.some.inj hx]
  rfl

theorem reachable_put : Reachable key values (put.step store) (put.record store emptyHistory) :=
  (reachable_store values).call put put_within

end Sample

end MerkleStore

end EnclaveOs.Merkle
