import EnclaveOs.Merkle.Pruning
import EnclaveOs.Merkle.Refinement
import EnclaveOs.Merkle.Root

/-! # Transaction forks (`fork.rs`) -/

open EnclaveOs.Lib EnclaveOs.Lib.Method

namespace EnclaveOs.Merkle

structure MerkleFork (B : Type) where
  store : MerkleStore B
  root_before : Hash
  version_before : UInt64
  overlay : Std.TreeMap Bytes (Option Bytes) := {}

structure SealedFork where
  root_before : Hash
  version_before : UInt64
  root_after : Hash
  version_after : UInt64
  ops : List (Bytes × Option Bytes)

inductive ForkCall where
  | get (key : Bytes)
  | put (key value : Bytes)
  | delete (key : Bytes)

def ForkCall.write : ForkCall → Option (Bytes × Option Bytes)
  | .get _ => none
  | .put key value => some (key, some value)
  | .delete key => some (key, none)

namespace MerkleFork

variable {B : Type} [KvBackend B] [Crypto]

def new (store : MerkleStore B) : MerkleFork B :=
  { store, root_before := store.root, version_before := store.version }

def get (f : MerkleFork B) (key : Bytes) : Except Fault (Option Bytes) × MerkleFork B :=
  match f.overlay[key]? with
  | some pending => (.ok pending, f)
  | none =>
    let (r, store) := (MerkleStore.get key).exec f.store
    (r, { f with store })

def put (f : MerkleFork B) (key value : Bytes) : MerkleFork B :=
  { f with overlay := f.overlay.insert key (some value) }

def delete (f : MerkleFork B) (key : Bytes) : MerkleFork B := { f with overlay := f.overlay.insert key none }

/-- The store is given back to whoever lent it. -/
def «seal» (f : MerkleFork B) (entropy : Entropy) : Except Fault SealedFork × MerkleStore B :=
  if f.store.rootVersion ≠ (f.root_before, f.version_before) then
    (.error (.err (.invalid s!"store moved under the fork (version {f.store.version} != {f.version_before})")),
      f.store)
  else
    let ops := f.overlay.toList
    match (MerkleStore.preview_batch entropy ops).exec f.store with
    | (.error e, store) => (.error e, store)
    | (.ok (root_after, version_after), store) =>
      (.ok ⟨f.root_before, f.version_before, root_after, version_after, ops⟩, store)

def step (f : MerkleFork B) : ForkCall → MerkleFork B
  | .get key => (f.get key).2
  | .put key value => f.put key value
  | .delete key => f.delete key

def after (s : MerkleStore B) (calls : List ForkCall) : MerkleFork B := calls.foldl step (new s)

end MerkleFork

namespace MerkleStore

section

variable {B : Type} [KvBackend B] [Crypto] {s : MerkleStore B} {entropy : Entropy}
  {ops : List (Bytes × Option Bytes)}

section Overlay

variable [AtomicBackend B] {calls : List ForkCall} {f : MerkleFork B}

/-- The fork of `s` holds the last write of every key and has left `s` alone. -/
structure Forked (s : MerkleStore B) (calls : List ForkCall) (f : MerkleFork B) : Prop where
  same : Same s f.store
  before : s.rootVersion = (f.root_before, f.version_before)
  overlay : ∀ k, f.overlay[k]? = (calls.filterMap ForkCall.write).reverse.lookup k

omit [KvBackend B] [Crypto] [AtomicBackend B] in
theorem KeyMap.put_eq_lookup (M : KeyMap) (ops : List (Bytes × Option Bytes)) (k : Bytes) :
    M.put ops k = (ops.reverse.lookup k).getD (M k) := by
  induction ops using List.reverseRecOn with
  | nil => rfl
  | append_singleton ops op ih =>
    have hput : M.put (ops ++ [op]) = Function.update (M.put ops) op.1 op.2 := List.foldl_append
    rw [hput, List.reverse_append, List.reverse_singleton, List.singleton_append, List.lookup_cons]
    by_cases hk : k = op.1
    · subst hk
      simp
    · rw [Function.update_of_ne hk, ih, beq_false_of_ne hk]

omit [Crypto] in
theorem Forked.reads (h : Forked s calls f) (M : KeyMap) (k : Bytes) :
    (f.overlay[k]?).getD (M k) = M.put (calls.filterMap ForkCall.write) k := by
  rw [h.overlay, KeyMap.put_eq_lookup]

omit [Crypto] in
theorem Forked.writes (h : Forked s calls f) {k : Bytes} {o : Option Bytes} (hk : f.overlay[k]? = some o) :
    (k, o) ∈ calls.filterMap ForkCall.write := by
  rw [h.overlay, List.lookup_eq_some_iff] at hk
  obtain ⟨l, l', heq, -⟩ := hk
  exact List.mem_reverse.mp (by simp [heq])

omit [Crypto] in
theorem Forked.write (h : Forked s calls f) {c : ForkCall} {k : Bytes} {o : Option Bytes}
    (hc : c.write = some (k, o)) : Forked s (calls ++ [c]) { f with overlay := f.overlay.insert k o } := by
  refine ⟨h.same, h.before, fun k' => ?_⟩
  rw [List.filterMap_append, List.filterMap_cons_some hc, List.filterMap_nil, List.reverse_append,
    List.reverse_singleton, List.singleton_append, List.lookup_cons, Std.TreeMap.getElem?_insert]
  by_cases he : k' = k
  · simp [he]
  · have hne : ¬ compare k k' = .eq := fun hcmp => he (Std.LawfulEqOrd.eq_of_compare hcmp).symm
    rw [if_neg hne, beq_false_of_ne he]
    exact h.overlay k'

theorem forked_after (s : MerkleStore B) (calls : List ForkCall) : Forked s calls (MerkleFork.after s calls) := by
  induction calls using List.reverseRecOn with
  | nil => exact ⟨Same.refl s, rfl, fun k => by simp [MerkleFork.after, MerkleFork.new]⟩
  | append_singleton calls c ih =>
    rw [MerkleFork.after, List.foldl_append]
    cases c with
    | put key value | delete key => exact ih.write rfl
    | get key =>
      have hw : (calls ++ [ForkCall.get key]).filterMap ForkCall.write = calls.filterMap ForkCall.write :=
        List.filterMap_append.trans (List.append_nil _)
      show Forked s _ ((MerkleFork.after s calls).get key).2
      rw [MerkleFork.get]
      split
      · exact ⟨ih.same, ih.before, hw ▸ ih.overlay⟩
      · exact ⟨Same.trans _ _ _ ih.same (reads_get_key key _), ih.before, hw ▸ ih.overlay⟩

theorem Forked.seal_eq (h : Forked s calls f) (entropy : Entropy) :
    f.seal entropy = (((preview_batch entropy f.overlay.toList).exec f.store).1.map fun a =>
      ⟨f.root_before, f.version_before, a.1, a.2, f.overlay.toList⟩,
      ((preview_batch entropy f.overlay.toList).exec f.store).2) := by
  have hstill : f.store.rootVersion = (f.root_before, f.version_before) := by
    rw [← h.before, rootVersion, h.same.root, h.same.version]
    rfl
  rw [MerkleFork.seal, if_neg (not_not.mpr hstill)]
  dsimp only
  rcases (preview_batch entropy f.overlay.toList).exec f.store with ⟨_ | _, _⟩ <;> rfl

end Overlay

theorem commit_acc_ok {acc : CommitAcc} {child : Option Child} {root : Hash} {a : Hash × UInt64}
    (h : ((commit_acc entropy acc child root).exec s).1 = .ok a) : a = (root, acc.new_version) := by
  obtain ⟨_, _, -, h⟩ := exec_bind_eq_ok.mp (Prod.ext h rfl)
  obtain ⟨_, _, -, h⟩ := exec_bind_eq_ok.mp h
  obtain ⟨_, _, -, h⟩ := exec_bind_eq_ok.mp h
  obtain ⟨_, _, -, h⟩ := exec_bind_eq_ok.mp h
  exact (Except.ok.inj (congrArg Prod.fst h)).symm

theorem preview_of_put [AtomicBackend B] {t : Tree} (hg : Grown s s.version t) (hroot : s.root_child = t.ref)
    {a : Hash × UInt64} (h : ((put_batch entropy ops).exec s).1 = .ok a) :
    ((preview_batch entropy ops).exec s).1 = .ok a := by
  obtain ⟨r, hr, s1, hexec, hs1⟩ := computes_batch hg hroot entropy ops
  unfold preview_batch
  unfold put_batch at h
  cases hr with
  | failed why =>
    rw [exec_bind_error hexec] at h
    cases h
  | unchanged hup =>
    rw [exec_bind_ok hexec] at h ⊢
    exact h
  | changed hv hne hup hd =>
    rw [exec_bind_ok hexec] at h ⊢
    simp only at h ⊢
    have hnext := exec_nextVersion s1
    rw [hs1.version, if_pos hv] at hnext
    rw [exec_bind_ok hnext, commit_acc_ok h, hd.new_version]
    rfl

theorem room_of_preview {a : Hash × UInt64} (h : ((preview_batch entropy ops).exec s).1 = .ok a) :
    s.version.toNat + 1 < 2 ^ 64 := by
  by_contra hv
  have hnext := exec_nextVersion s
  rw [if_neg hv] at hnext
  unfold preview_batch compute_batch at h
  rw [exec_bind_error (exec_bind_error hnext)] at h
  cases h

/-! ## One answer for every replica -/

variable [HonestBackend B] {U : Set (Hash × Bytes)} {H : Archive} {c : Version}

theorem Faithful.put_answer (h : Faithful U H s) (hc : H s.version = some c) (hs : Seals) (hU : ValuesApart s.ck U)
    (he : entropy.Drawn) (hops : ∀ k x, (k, some x) ∈ ops → (path_of s.ck k, x) ∈ U)
    (hv : s.version.toNat + 1 < 2 ^ 64) :
    ∃ S v, ((put_batch entropy ops).exec s).1 = .ok (canonRoot S, v) ∧
      EntriesOf s.ck (overlay c.map (byPath s.ck ops)) S ∧
      (overlay c.map (byPath s.ck ops) = c.map ∧ v = s.version ∨
        overlay c.map (byPath s.ck ops) ≠ c.map ∧ v = s.version + 1) := by
  obtain ⟨hchild, -⟩ := h.consistent.now hc
  have ho := put_batch_outcome (h.consistent.kept _ _ hc).toGrown hchild entropy ops
  have hin : ∀ p x, (p, some x) ∈ (dedup (byPath s.ck ops)).toList → (p, x) ∈ U := by
    intro p x hp
    obtain ⟨op, hop, hop'⟩ := List.mem_map.mp (mem_dedup hp)
    obtain ⟨rfl, hx⟩ := Prod.mk.inj hop'
    exact hops op.1 x (hx ▸ hop)
  rcases h.put hc ho hU hin with ⟨e, hr, -⟩ | ⟨t', hr, hver, hfaith, -⟩
  · exact absurd hr (ho.ok (not_blocked hs he hv _) e)
  rw [patched_dedup] at hver hfaith
  obtain ⟨S, hS, hroot⟩ := hfaith.consistent.root_eq (Function.update_self ..)
  rw [ho.settings.1] at hS
  refine ⟨S, _, by rw [hr, hroot], hS, ?_⟩
  rcases hver with ⟨hv', hsame⟩ | ⟨hv', -, hne⟩
  · exact .inl ⟨hsame, hv'⟩
  · exact .inr ⟨hne, hv'⟩

theorem Faithful.put_agrees {B' : Type} [KvBackend B'] [HonestBackend B'] {s' : MerkleStore B'} {H' : Archive}
    {c' : Version} {e e' : Entropy} (h : Faithful U H s) (h' : Faithful U H' s') (hc : H s.version = some c)
    (hc' : H' s'.version = some c') (hck : s'.ck = s.ck) (hversion : s'.version = s.version) (hmap : c'.map = c.map)
    (hs : Seals) (hU : ValuesApart s.ck U) (he : e.Drawn) (he' : e'.Drawn)
    (hops : ∀ k x, (k, some x) ∈ ops → (path_of s.ck k, x) ∈ U) (hv : s.version.toNat + 1 < 2 ^ 64) :
    ((put_batch e' ops).exec s').1 = ((put_batch e ops).exec s).1 := by
  obtain ⟨S, v, hr, hS, hver⟩ := h.put_answer hc hs hU he hops hv
  obtain ⟨S', v', hr', hS', hver'⟩ := h'.put_answer hc' hs (hck ▸ hU) he' (hck ▸ hops) (hversion ▸ hv)
  rw [hck, hmap] at hS' hver'
  rw [hversion] at hver'
  have hvv : v' = v := by
    rcases hver with ⟨heq, rfl⟩ | ⟨hne, rfl⟩ <;> rcases hver' with ⟨heq', rfl⟩ | ⟨hne', rfl⟩
    · rfl
    · exact absurd heq hne'
    · exact absurd heq' hne
    · rfl
  rw [hr, hr', hS'.unique hS, hvv]

/-- The store answers as it did, for the present and for every version kept. -/
structure Untouched (hist : History) (s s' : MerkleStore B) : Prop where
  rootVersion : s'.rootVersion = s.rootVersion
  table : s'.table = s.table
  get : ∀ key, ((MerkleStore.get key).exec s').1 = ((MerkleStore.get key).exec s).1
  reads : ∀ v M, hist v = some M → SameReads s s' v

theorem Faithful.untouched {hist : History} {s' : MerkleStore B} (h : Faithful U H s) (ht : Tracks H hist)
    (hR : RootsApart s.ck U) (hc : H s.version = some c) (hs : Same s s') : Untouched hist s s' := by
  have h' := h.of_same hs
  refine ⟨by rw [MerkleStore.rootVersion, hs.root, hs.version]; rfl, hs.table, fun key => ?_, fun v M hv => ?_⟩
  · rw [(h.gives_get hc key).fst, (h'.gives_get (hs.version ▸ hc) key).fst, hs.ck]
  rw [← ht v] at hv
  obtain ⟨d, hd, -⟩ := Option.map_eq_some_iff.mp hv
  exact h.sameReads h' hs.ck hR hd hd

section Fork

variable {calls : List ForkCall} {f : MerkleFork B} (h : Faithful U H s) (hc : H s.version = some c)
  (hf : Forked s calls f)

include h hc hf

theorem Faithful.fork_get (k : Bytes) :
    (f.get k).1 = .ok (KeyMap.put (fun k => c.map (path_of s.ck k)) (calls.filterMap ForkCall.write) k) := by
  rw [← hf.reads, MerkleFork.get]
  split
  · rename_i pending hk
    rw [hk]
    rfl
  · rename_i hk
    rw [hk, ((h.of_same hf.same).gives_get (hf.same.version ▸ hc) k).fst, hf.same.ck]
    rfl

theorem Faithful.fork_tree : Grown f.store f.store.version c.tree ∧ f.store.root_child = c.tree.ref := by
  have hff := h.of_same hf.same
  have hfc : H f.store.version = some c := hf.same.version ▸ hc
  exact ⟨(hff.consistent.kept _ _ hfc).toGrown, (hff.consistent.now hfc).1⟩

theorem Faithful.same_seal (entropy : Entropy) : Same s (f.seal entropy).2 := by
  obtain ⟨hgrown, hchild⟩ := h.fork_tree hc hf
  rw [hf.seal_eq]
  exact Same.trans _ _ _ hf.same (same_preview_batch hgrown hchild entropy f.overlay.toList)

theorem Faithful.fork_preview (hs : Seals) (hU : ValuesApart s.ck U) (he : entropy.Drawn)
    (hops : ∀ k x, (k, some x) ∈ f.overlay.toList → (path_of s.ck k, x) ∈ U) (hv : s.version.toNat + 1 < 2 ^ 64) :
    ((preview_batch entropy f.overlay.toList).exec f.store).1 = ((put_batch entropy f.overlay.toList).exec s).1 := by
  have hff := h.of_same hf.same
  have hfc : H f.store.version = some c := hf.same.version ▸ hc
  obtain ⟨hgrown, hchild⟩ := h.fork_tree hc hf
  obtain ⟨S, v, hr, -⟩ := hff.put_answer hfc hs (hf.same.ck ▸ hU) he (hf.same.ck ▸ hops) (hf.same.version ▸ hv)
  rw [preview_of_put hgrown hchild hr, ← hr]
  exact h.put_agrees hff hc hfc hf.same.ck hf.same.version rfl hs hU he he hops hv

end Fork

/-- Reads of a fork see its writes, the store stays as it was, and `put_batch` of the last writes answers
afterwards what the fork was sealed with, on every store with the same key, map and version. -/
theorem fork_sealed {ck : Key} {hist : History} {P : PathMap} (hs : Seals) (hU : ValuesApart ck U)
    (hR : RootsApart ck U) (h : Reachable ck U s hist) (hP : hist s.version = some P) (calls : List ForkCall)
    (hcalls : ∀ k x, (k, some x) ∈ calls.filterMap ForkCall.write → (path_of ck k, x) ∈ U) (entropy : Entropy)
    (he : entropy.Drawn) :
    let f := MerkleFork.after s calls
    (∀ k, (f.get k).1 = .ok (KeyMap.put (fun k => P (path_of ck k)) (calls.filterMap ForkCall.write) k)) ∧
    Untouched hist s f.store ∧ Untouched hist s (f.seal entropy).2 ∧
    (s.version.toNat + 1 < 2 ^ 64 → ∃ sealed, (f.seal entropy).1 = .ok sealed) ∧
    ∀ sealed, (f.seal entropy).1 = .ok sealed → s.rootVersion = (sealed.root_before, sealed.version_before) ∧
      (∀ k o, (k, o) ∈ sealed.ops ↔ (calls.filterMap ForkCall.write).reverse.lookup k = some o) ∧
      ∀ entropy' : Entropy, entropy'.Drawn →
      ((put_batch entropy' sealed.ops).exec (f.seal entropy).2).1 = .ok (sealed.root_after, sealed.version_after) ∧
      ∀ {B' : Type} [KvBackend B'] [HonestBackend B'] (s' : MerkleStore B') (hist' : History), Reachable ck U s' hist' →
        s'.version = s.version → hist' s'.version = some P →
        ((put_batch entropy' sealed.ops).exec s').1 = .ok (sealed.root_after, sealed.version_after) := by
  intro f
  have hf := forked_after s calls
  obtain ⟨H, hfaith, ht, rfl⟩ := h.faithful hU hR
  obtain ⟨c, hc, rfl⟩ := Option.map_eq_some_iff.mp ((ht s.version).trans hP)
  have hops : ∀ k x, (k, some x) ∈ f.overlay.toList → (path_of s.ck k, x) ∈ U := fun k x hk =>
    hcalls k x (hf.writes (Std.TreeMap.mem_toList_iff_getElem?_eq_some.mp hk))
  have hput := hfaith.fork_preview hc hf hs hU he hops
  have hlast := hfaith.same_seal hc hf entropy
  refine ⟨hfaith.fork_get hc hf, hfaith.untouched ht hR hc hf.same, hfaith.untouched ht hR hc hlast, fun hv => ?_,
    fun sealed hsealed => ?_⟩
  · obtain ⟨S, v, hr, -⟩ := hfaith.put_answer hc hs hU he hops hv
    rw [hf.seal_eq, hput hv, hr]
    exact ⟨_, rfl⟩
  · rw [hf.seal_eq] at hsealed
    rcases hr : ((preview_batch entropy f.overlay.toList).exec f.store).1 with e | a
    · rw [hr] at hsealed
      cases hsealed
    have hv := hf.same.version ▸ room_of_preview hr
    rw [hr] at hsealed
    obtain rfl := Except.ok.inj hsealed
    rw [hput hv] at hr
    refine ⟨hf.before, fun k o => ?_, fun entropy' he' => ⟨?_, fun s' hist' h' hversion hmap => ?_⟩⟩
    · rw [← hf.overlay, ← Std.TreeMap.mem_toList_iff_getElem?_eq_some]
    · rw [hfaith.put_agrees (hfaith.of_same hlast) hc (hlast.version ▸ hc) hlast.ck hlast.version rfl hs hU he he'
        hops hv, hr]
    · obtain ⟨H', hfaith', ht', hck⟩ := h'.faithful hU hR
      obtain ⟨c'', hc'', hmap'⟩ := Option.map_eq_some_iff.mp ((ht' s'.version).trans hmap)
      rw [hfaith.put_agrees hfaith' hc hc'' hck hversion hmap' hs hU he he' hops hv, hr]

end

namespace Sample

open EnclaveOs.Merkle.Sample

theorem fork_sealed_put : ∃ sealed, ((MerkleFork.after store [.put [1] [2]]).seal entropy).1 = .ok sealed ∧
    ((put_batch entropy sealed.ops).exec store).1 = .ok (sealed.root_after, sealed.version_after) := by
  have hversion := (create_spec create_store).version
  have hlive : emptyHistory store.version = some fun _ => none := by rw [hversion]; rfl
  obtain ⟨-, -, -, hok, hput⟩ := fork_sealed seals values_apart (rootsApart _ _) (reachable_store values) hlive
    [.put [1] [2]] (by simp [ForkCall.write, values]) entropy drawn
  obtain ⟨sealed, hsealed⟩ := hok (by rw [hversion]; decide)
  exact ⟨sealed, hsealed, ((hput sealed hsealed).2.2 entropy drawn).2 store _ (reachable_store values) rfl hlive⟩

end Sample

end MerkleStore

end EnclaveOs.Merkle
