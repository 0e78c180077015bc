import EnclaveOs.Merkle.Reach

/-! # What pruning keeps and what it leaves -/

open EnclaveOs.Lib EnclaveOs.Lib.Method

open UInt64 (le_iff_toNat_le le_of_lt le_trans not_le not_lt zero_le)

namespace EnclaveOs.Merkle

/-! ## Following the records -/

/-- The record is that of the node, or of what it refers to, or below that. -/
inductive NodeReaches (T : Table) : NodeKey → Bytes → Prop where
  | node (nk : NodeKey) : NodeReaches T nk (node_record_key nk)
  | value {nk : NodeKey} {record : Bytes} {l : LeafNode} (h : T (node_record_key nk) = some record)
    (hd : Node.decode record = .ok (.leaf l)) : NodeReaches T nk (value_record_key l.vh l.value_version)
  | child {nk : NodeKey} {record : Bytes} {m : InternalNode} {i : Nibble} {c : Child} {k : Bytes}
    (h : T (node_record_key nk) = some record) (hd : Node.decode record = .ok (.internal m))
    (hc : m.children i = some c) (hk : NodeReaches T ⟨c.version, nk.pfx ++ [i]⟩ k) : NodeReaches T nk k

theorem NodeReaches.exists_ref {T : Table} {nk : NodeKey} {k : Bytes} (h : NodeReaches T nk k) :
    ∃ r : Ref, r.key = k := by
  induction h with
  | node nk => exact ⟨.node nk, rfl⟩
  | value h hd => exact ⟨.value _, rfl⟩
  | child h hd hc hk ih => exact ih

/-- The record `k` is named on the way down from the root of version `v`. -/
def References [Crypto] (T : Table) (v : UInt64) (k : Bytes) : Prop :=
  ∃ root : Hash, T (root_record_key v) = some root.toList ∧ root ≠ placeholder ∧ NodeReaches T (.root v) k

namespace MerkleStore

section Model

variable {B : Type} [KvBackend B] [Crypto]

section Atomic

variable [AtomicBackend B] {s : MerkleStore B}

theorem nodeReaches_iff {pre : List Nibble} {t : Tree} {v : UInt64} (hst : Stored s pre t) (hv : t.version = some v)
    (k : Bytes) : NodeReaches s.table ⟨v, pre⟩ k ↔ ∃ r ∈ t.refs pre, r.key = k := by
  induction t generalizing pre v with
  | empty => simp [Tree.version] at hv
  | leaf w l =>
    obtain rfl := Option.some.inj hv
    have hag := hst (⟨w, pre⟩, .leaf l) (by simp)
    simp only [Tree.mem_refs_leaf]
    constructor
    · intro h
      cases h with
      | node => exact ⟨_, .inl rfl, rfl⟩
      | value h hd =>
        rw [hag.record] at h
        rw [← Option.some.inj h, hag.decode] at hd
        obtain rfl := Node.leaf.inj (Except.ok.inj hd)
        exact ⟨_, .inr rfl, rfl⟩
      | child h hd =>
        rw [hag.record] at h
        rw [← Option.some.inj h, hag.decode] at hd
        simp at hd
    · rintro ⟨r, rfl | rfl, rfl⟩
      · exact .node _
      · exact .value hag.record hag.decode
  | node w c ih =>
    obtain rfl := Option.some.inj hv
    have hag := hst (⟨w, pre⟩, Tree.record c) (by simp)
    simp only [Tree.mem_refs_internal]
    constructor
    · intro h
      cases h with
      | node => exact ⟨_, .inl rfl, rfl⟩
      | value h hd =>
        rw [hag.record] at h
        rw [← Option.some.inj h, hag.decode] at hd
        simp [Tree.record] at hd
      | child h hd hc hk =>
        rename_i record m i child
        rw [hag.record] at h
        rw [← Option.some.inj h, hag.decode] at hd
        obtain rfl := Node.internal.inj (Except.ok.inj hd)
        have hver : (c i).version = some child.version := by
          rw [Tree.version_eq, show (c i).ref = some child from hc]
          rfl
        obtain ⟨r, hr, hkey⟩ := (ih i (hst.child i) hver).mp hk
        exact ⟨r, .inr ⟨i, hr⟩, hkey⟩
    · rintro ⟨r, rfl | ⟨i, hr⟩, rfl⟩
      · exact .node _
      rcases hc : (c i).ref with _ | child
      · exact absurd hr (by rw [Tree.ref_eq_none.mp hc]; simp)
      have hver : (c i).version = some child.version := by
        rw [Tree.version_eq, hc]
        rfl
      exact .child hag.record hag.decode hc ((ih i (hst.child i) hver).mpr ⟨r, hr, rfl⟩)

theorem Kept.references_iff {v : UInt64} {c : Version} (hk : Kept s v c)
    (hne : c.tree ≠ .empty → c.tree.hash ≠ placeholder) (k : Bytes) :
    References s.table v k ↔ ∃ r ∈ c.tree.refs [], r.key = k := by
  rcases hk.root with he | hv
  · constructor
    · rintro ⟨root, hroot, hno, -⟩
      rw [hk.record, he] at hroot
      have heq : (Tree.hash .empty).toList = root.toList := Option.some.inj hroot
      exact absurd (Vector.toList_inj.mp heq).symm hno
    · rintro ⟨r, hr, -⟩
      rw [he] at hr
      simp at hr
  · have hnonempty : c.tree ≠ .empty := by
      intro he
      simp [he, Tree.version] at hv
    rw [← nodeReaches_iff hk.stored hv]
    refine ⟨?_, fun h => ⟨_, hk.record, hne hnonempty, h⟩⟩
    rintro ⟨_, _, _, h⟩
    exact h

/-- Every read of version `v` answers the same in both stores. -/
structure SameReads (s s' : MerkleStore B) (v : UInt64) : Prop where
  get_at : ∀ key, ((get_at v key).exec s').1 = ((get_at v key).exec s).1
  prove_at : ∀ key, ((prove_at v key).exec s').1 = ((prove_at v key).exec s).1
  snapshot_leaves : ∀ fuel start_after max, 65 ≤ fuel →
    ((snapshot_leaves fuel v start_after max).exec s').1 = ((snapshot_leaves fuel v start_after max).exec s).1

theorem Faithful.sameReads {U : Set (Hash × Bytes)} {H H' : Archive} {s' : MerkleStore B} {v : UInt64} {c : Version}
    (h : Faithful U H s) (h' : Faithful U H' s') (hck : s'.ck = s.ck) (hR : RootsApart s.ck U) (hc : H v = some c)
    (hc' : H' v = some c) : SameReads s s' v := by
  have hR' : RootsApart s'.ck U := by
    rw [hck]
    exact hR
  refine ⟨fun key => ?_, fun key => ?_, fun fuel start_after max hfuel => ?_⟩
  · rw [(h.gives_get_at hR hc key).fst, (h'.gives_get_at hR' hc' key).fst, hck]
  · obtain ⟨proof, -, hgives⟩ := gives_prove_path (B := B) (path_of s.ck key) (h.consistent.kept v c hc).wf
    rw [(h.gives_prove_at hR hc hgives).fst, (h'.gives_prove_at hR' hc' (by rw [hck]; exact hgives)).fst]
  · rw [(h.gives_snapshot_leaves hR hc fuel hfuel start_after max).fst,
      (h'.gives_snapshot_leaves hR' hc' fuel hfuel start_after max).fst]

end Atomic

def runCalls (s : MerkleStore B) (cs : List Call) : MerkleStore B := cs.foldl Call.step s

def historyAfter : MerkleStore B → History → List Call → History
  | _, hist, [] => hist
  | s, hist, c :: cs => historyAfter (c.step s) (c.record s hist) cs

def pruneFloor (s : MerkleStore B) (before_version floor : UInt64) : UInt64 :=
  if horizon s.snapshot_pin before_version ≤ s.version then max floor (horizon s.snapshot_pin before_version) else floor

def Call.floor (s : MerkleStore B) (floor : UInt64) (c : Call) : UInt64 :=
  match c.pruning s with
  | some (_, before_version) => pruneFloor s before_version floor
  | none => floor

def floorAfter : MerkleStore B → UInt64 → List Call → UInt64
  | _, floor, [] => floor
  | s, floor, c :: cs => floorAfter (c.step s) (Call.floor s floor c) cs

/-- A pruning that the call asks for is refused, or goes through. -/
def Call.Ends (s : MerkleStore B) (c : Call) : Prop :=
  ∀ fuel before_version, c.pruning s = some (fuel, before_version) → horizon s.snapshot_pin before_version ≤ s.version →
    ∃ stats, ((prune fuel before_version).exec s).1 = .ok stats

/-- No call of the run is cut off for want of fuel. -/
def Finishes : MerkleStore B → List Call → Prop
  | _, [] => True
  | s, c :: cs => Call.Ends s c ∧ Finishes (c.step s) cs

/-- The history starts at the floor, and nothing is left below. -/
structure Settled [AtomicBackend B] (floor : UInt64) (hist : History) (s : MerkleStore B) : Prop where
  floor_le : floor ≤ s.version
  kept : ∀ v, floor ≤ v → v ≤ s.version → hist v ≠ none
  cleared : Cleared floor s.table

section Honest

variable [HonestBackend B] {H : Archive} {s s' : MerkleStore B} {U : Set (Hash × Bytes)} {ck : Key} {hist : History}
  {floor : UInt64}

section

omit [Crypto] [HonestBackend B] [KvBackend B]

theorem max_cases (a b : UInt64) : max a b = a ∨ max a b = b := by
  by_cases h : a ≤ b
  · exact .inr (if_pos h)
  · exact .inl (if_neg h)

theorem le_of_max_le {a b v : UInt64} (h : max a b ≤ v) : a ≤ v ∧ b ≤ v := by
  by_cases hab : a ≤ b
  · rw [show max a b = b from if_pos hab] at h
    exact ⟨le_trans hab h, h⟩
  · rw [show max a b = a from if_neg hab] at h
    exact ⟨h, le_trans (le_of_lt (not_le.mp hab)) h⟩

end

omit [HonestBackend B] [Crypto] in
theorem Settled.of_same [AtomicBackend B] (h : Settled floor hist s) (hs : Same s s') : Settled floor hist s' := by
  refine ⟨?_, fun v hle hv => h.kept v hle ?_, ?_⟩
  · rw [hs.version]
    exact h.floor_le
  · rw [← hs.version]
    exact hv
  · rw [hs.table]
    exact h.cleared

theorem Settled.batch (hg : Settled floor hist s) (h : Upkeep ck U hist H s) (b : Batch) :
    Settled floor (recordBatch b s hist) (b.step s) := by
  obtain ⟨c, hc, hlive, hchild, -⟩ := h.live
  have ho := b.outcome (h.sturdy.consistent.kept _ c hc).toGrown hchild
  rcases hrun : b.run.exec s with ⟨r, s1⟩
  have hstep : b.step s = s1 := by
    unfold Batch.step
    rw [hrun]
  rw [hrun, hstep] at ho
  rw [hstep]
  cases ho with
  | failed why hs =>
    rw [recordBatch_error (by rw [hrun])]
    exact hg.of_same hs
  | lost why hs hw =>
    obtain ⟨b', ops, hno⟩ := why
    exact absurd (HonestBackend.write_ok b' ops) hno
  | unchanged hs hup =>
    rw [recordBatch_ok (by rw [hrun]) hlive]
    refine ⟨(hg.of_same hs).floor_le, fun v hle hv => ?_, (hg.of_same hs).cleared⟩
    rw [Function.update_apply]
    split
    · simp
    · exact (hg.of_same hs).kept v hle hv
  | committed hm hw =>
    rw [recordBatch_ok (by rw [hrun]) hlive]
    have hnext := toNat_next hw.next
    have hfloor := le_iff_toNat_le.mp hg.floor_le
    refine ⟨?_, fun v hle hv => ?_, fun since target hle => ?_, fun v hv => ?_⟩
    · rw [hm.version, le_iff_toNat_le]
      omega
    · rw [Function.update_apply]
      split
      · simp
      rename_i hne
      refine hg.kept v hle ?_
      rw [hm.version, le_iff_toNat_le] at hv
      rw [le_iff_toNat_le]
      have hne' : v.toNat ≠ s.version.toNat + 1 := fun he => hne (UInt64.toNat_inj.mp (by rw [hnext, he]))
      omega
    · -- The entries of this commit are above the floor.
      rcases hw.landed.stale_cases (u64Be since ++ target) with hold | ⟨r, -, he⟩
      · exact hold.trans (hg.cleared.stale since target hle)
      · rw [(stale_record_key_inj he).1, le_iff_toNat_le] at hle
        omega
    · rw [UInt64.lt_iff_toNat_lt] at hv
      refine (hw.landed.old_root fun he => ?_).trans (hg.cleared.roots v (UInt64.lt_iff_toNat_lt.mpr hv))
      rw [he] at hv
      omega

omit [HonestBackend B] [Crypto] in
theorem Settled.prune [AtomicBackend B] (hg : Settled floor hist s) (fuel : Nat) (before_version : UInt64)
    (hend : horizon s.snapshot_pin before_version ≤ s.version →
      ∃ stats, ((prune fuel before_version).exec s).1 = .ok stats) :
    Settled (pruneFloor s before_version floor) (Call.recordPrune s before_version hist)
      ((prune fuel before_version).exec s).2 := by
  unfold pruneFloor Call.recordPrune
  rcases prune_cases fuel before_version s with ⟨hlt, m, hexec⟩ | ⟨hle, r, b, hexec, hrec, hdone⟩
  · rw [hexec, if_neg (not_le.mpr hlt), if_neg (not_le.mpr hlt)]
    exact hg
  obtain ⟨stats, hok⟩ := hend hle
  rw [hexec] at hok
  have hclear := hdone stats hok
  have hgone : ∀ k, s.table k = none → AtomicBackend.table b k = none := by
    intro k hk
    rcases hrec.taken k with he | ⟨he, -⟩
    · exact he.trans hk
    · exact he
  rw [hexec, if_pos hle, if_pos hle]
  refine ⟨?_, fun v hle' hv => ?_, fun since target hs => ?_, fun v hv => ?_⟩
  · rcases max_cases floor (horizon s.snapshot_pin before_version) with he | he
    · rw [he]
      exact hg.floor_le
    · rw [he]
      exact hle
  · obtain ⟨h1, h2⟩ := le_of_max_le hle'
    unfold History.drop
    rw [if_neg (not_lt.mpr h2)]
    exact hg.kept v h1 hv
  · rcases max_cases floor (horizon s.snapshot_pin before_version) with he | he
    · rw [he] at hs
      exact hgone _ (hg.cleared.stale since target hs)
    · rw [he] at hs
      exact hclear.stale since target hs
  · rcases max_cases floor (horizon s.snapshot_pin before_version) with he | he
    · rw [he] at hv
      exact hgone _ (hg.cleared.roots v hv)
    · rw [he] at hv
      exact hclear.roots v hv

theorem Settled.call (hg : Settled floor hist s) (h : Upkeep ck U hist H s) (hR : RootsApart ck U) (c : Call)
    (hend : Call.Ends s c) : Settled (Call.floor s floor c) (c.record s hist) (c.step s) := by
  unfold Call.floor
  obtain ⟨cur, hlive, -, -, -⟩ := h.live
  cases h.sturdy.consistent.kind hlive (h.hash_ne hR hlive) hist c with
  | batch b => exact hg.batch h b
  | prunes hp hstep hrecord =>
    rw [hp, hstep, hrecord]
    exact hg.prune _ _ (hend _ _ hp)
  | quiet pin hp hno hrecord hs =>
    rw [hp, hrecord]
    exact Settled.of_same (s := { s with snapshot_pin := pin }) ⟨hg.floor_le, hg.kept, hg.cleared⟩ hs

theorem Upkeep.run (h : Upkeep ck U hist H s) (hR : RootsApart ck U) (cs : List Call)
    (hcs : ∀ c ∈ cs, c.Within ck U) : ∃ H', Upkeep ck U (historyAfter s hist cs) H' (runCalls s cs) ∧
      Carries ck U H s H' (runCalls s cs) ∧
      ∀ floor, Settled floor hist s → Finishes s cs →
        Settled (floorAfter s floor cs) (historyAfter s hist cs) (runCalls s cs) := by
  induction cs generalizing s hist H with
  | nil => exact ⟨H, h, .of_same (Same.refl s), fun floor hg _ => hg⟩
  | cons c cs ih =>
    obtain ⟨H1, h1, hcar⟩ := h.call hR c (hcs c (.head _))
    obtain ⟨H2, h2, hcar2, hset⟩ := ih h1 fun c hc => hcs c (.tail _ hc)
    exact ⟨H2, h2, hcar.trans hcar2, fun floor hg hf => hset _ (hg.call h hR c hf.1) hf.2⟩

omit [HonestBackend B] in
theorem Created.settled [AtomicBackend B] {T : Table} {sk : Key} (h : Created T ck sk s)
    (hT : ∀ k, T (REC_STALE :: k) = none) : Settled 0 emptyHistory s := by
  refine ⟨zero_le, fun v _ hv => ?_, fun since target _ => ?_, fun v hv => absurd hv UInt64.not_lt_zero⟩
  · rw [h.version] at hv
    obtain rfl : v = 0 := UInt64.le_antisymm hv zero_le
    simp [emptyHistory, History.single]
  · rw [h.other (ne_of_head (by simp [REC_STALE, REC_ROOT])) (ne_of_head (by simp [REC_STALE, REC_CHECKPOINT]))]
    exact hT _

/-! ## Nothing that is needed goes -/

omit [HonestBackend B] in
theorem get_at_missing [AtomicBackend B] (s : MerkleStore B) {v : UInt64} (hv : v ≤ s.version) (h : s.table (root_record_key v) = none)
    (key : Bytes) : ∃ m, ((get_at v key).exec s).1 = .error (.err (.missing m)) := by
  unfold get_at checkVersion
  rw [bind_assoc, exec_bind_ok (exec_state s), if_neg (not_lt.mpr hv), pure_bind]
  obtain ⟨s1, hget, -⟩ := MerkleStore.gives_get s (root_record_key v)
  unfold load_root_record
  rw [bind_assoc, exec_bind_ok hget, h]
  exact ⟨_, rfl⟩

/-- `floor` is the largest horizon before `h`. -/
structure PruneSafe [AtomicBackend B] (h floor : UInt64) (s s' : MerkleStore B) : Prop where
  root : rootVersion s' = rootVersion s
  get : ∀ key, ((MerkleStore.get key).exec s').1 = ((MerkleStore.get key).exec s).1
  reads : ∀ v, h ≤ v → floor ≤ v → v ≤ s.version → SameReads s s' v
  below : ∀ v key, v < h → ∃ m, ((get_at v key).exec s').1 = .error (.err (.missing m))
  unreferenced : ∀ since target, since ≤ h → s.table (stale_record_key since target) ≠ none →
    ∀ v, h ≤ v → v ≤ s.version → ¬ References s.table v target

/-- Pruning takes nothing that a version from the horizons on needs, in any run. -/
theorem prune_keeps_retained {b : B} {sk : Key} {draw : Option Nonce} {s0 : MerkleStore B} {cs : List Call} {fuel : Nat}
    {before_version : UInt64} {stats : PruneStats} (hT : ∀ k, AtomicBackend.table b (REC_STALE :: k) = none)
    (hcreate : create b ck sk draw = .ok s0) (hU : ValuesApart ck U) (hR : RootsApart ck U)
    (hcs : ∀ c ∈ cs, c.Within ck U) (hfin : Finishes s0 cs)
    (hprune : (prune fuel before_version).exec (runCalls s0 cs) = (.ok stats, s')) :
    PruneSafe (horizon (runCalls s0 cs).snapshot_pin before_version) (floorAfter s0 0 cs) (runCalls s0 cs) s' := by
  obtain ⟨hup0, hleg0⟩ := (create_spec hcreate).upkeep hT U
  obtain ⟨H, hup, hcar, hset⟩ := hup0.run hR cs hcs
  have hl := hcar.legible hU hleg0
  have hg := hset 0 ((create_spec hcreate).settled hT) hfin
  generalize runCalls s0 cs = s at *
  rcases prune_cases fuel before_version s with ⟨-, m, hexec⟩ | ⟨hle, r, b, hexec, hrec, hdone⟩
  · rw [hexec] at hprune
    simp at hprune
  rw [hexec] at hprune
  obtain ⟨rfl, rfl⟩ := Prod.mk.inj hprune
  have hf := hl.faithful hup.sturdy
  have hf' := (hl.pruned hup.sturdy hrec).faithful (hup.sturdy.pruned hle hrec)
  have hR' : RootsApart s.ck U := by
    rw [hup.keyed]
    exact hR
  have hkept : ∀ v, floorAfter s0 0 cs ≤ v → v ≤ s.version → ∃ c, H v = some c := by
    intro v hfloor hv
    have hmap := hup.tracks v
    obtain ⟨M, hM⟩ := Option.ne_none_iff_exists'.mp (hg.kept v hfloor hv)
    rw [hM] at hmap
    obtain ⟨c, hc, -⟩ := Option.map_eq_some_iff.mp hmap
    exact ⟨c, hc⟩
  refine ⟨rfl, fun key => ?_, fun v hv hfloor hle' => ?_, fun v key hv => ?_, fun since target hs hin v hv hle' href => ?_⟩
  · obtain ⟨c, hc, -, -, -⟩ := hup.live
    rw [(hf.gives_get hc key).fst, (hf'.gives_get (Archive.drop_eq_some.mpr ⟨hle, hc⟩) key).fst]
  · obtain ⟨c, hc⟩ := hkept v hfloor hle'
    exact hf.sameReads hf' rfl hR' hc (Archive.drop_eq_some.mpr ⟨hv, hc⟩)
  · exact get_at_missing { s with backend := b, cache := s.cache.clear }
      (le_trans (le_of_lt hv) hle) ((hdone stats rfl).roots v hv) key
  · by_cases hfloor : floorAfter s0 0 cs ≤ v
    · obtain ⟨c, hc⟩ := hkept v hfloor hle'
      have hk := hup.sturdy.consistent.kept v c hc
      obtain ⟨r, hr, hkey⟩ := (hk.references_iff (hup.hash_ne hR hc) target).mp href
      exact hl.indexed.unused since target hin v c hc (le_trans hs hv) r hr trivial hkey
    · -- Below the floor there is no root left.
      obtain ⟨root, hroot, -⟩ := href
      rw [hg.cleared.roots v (not_le.mp hfloor)] at hroot
      simp at hroot

end Honest

end Model

namespace Sample

open EnclaveOs.Merkle.Sample

def putDelete : List Call := [put, .prune 8 0, .batch (.keys entropy [([1], none)])]

theorem putDelete_within : ∀ c ∈ putDelete, c.Within key values := by
  intro c hc
  simp only [putDelete, List.mem_cons, List.not_mem_nil, or_false] at hc
  rcases hc with rfl | rfl | rfl
  · exact put_within
  · trivial
  · intro p x hp
    simpa using (Prod.mk.inj (List.mem_singleton.mp hp)).2

theorem putDelete_finishes : Finishes store putDelete := by
  refine ⟨?_, ?_, ?_, trivial⟩
  · rintro fuel before_version ⟨⟩
  · rintro fuel before_version h -
    obtain ⟨rfl, rfl⟩ := Prod.mk.inj (Option.some.inj h)
    exact ⟨{}, by decide +kernel⟩
  · rintro fuel before_version ⟨⟩

end Sample

open EnclaveOs.Merkle.Sample MerkleStore.Sample in
theorem prune_keeps_retained_delete :
    ((prune 8 2).exec (runCalls store putDelete)).1 = .ok ⟨2, 2, 2⟩ ∧
      PruneSafe 2 0 (runCalls store putDelete) ((prune 8 2).exec (runCalls store putDelete)).2 := by
  have hok : ((prune 8 2).exec (runCalls store putDelete)).1 = .ok ⟨2, 2, 2⟩ := by decide +kernel
  refine ⟨hok, ?_⟩
  have h := prune_keeps_retained (fun _ => table_empty _) create_store values_apart (rootsApart _ _) putDelete_within
    putDelete_finishes (Prod.ext hok rfl)
  have hpin : (runCalls store putDelete).snapshot_pin = none := by decide +kernel
  have hfloor : floorAfter store 0 putDelete = 0 := by decide +kernel
  rw [hpin, hfloor] at h
  exact h

section

variable {B : Type} [KvBackend B] [Crypto] [HonestBackend B] {H : Archive} {s : MerkleStore B}
  {U : Set (Hash × Bytes)}
  {ck : Key} {hist : History}

/-! ## Nothing else stays -/

section

omit [HonestBackend B] [Crypto]

theorem sweep_empty [AtomicBackend B] {start stop : Bytes} {short : Bytes → Bool} {doom : Bytes → List Bytes}
    {count : PruneStats → Nat → PruneStats} (fuel : Nat) (stats : PruneStats) (s : MerkleStore B)
    (hnone : ∀ e, ¬ InTable start stop s.table e) : ∃ b : B,
      (sweep start stop short doom count (fuel + 1) stats).exec s = (.ok stats, { s with backend := b }) ∧
        AtomicBackend.table b = s.table := by
  unfold sweep
  obtain ⟨l, b, hscan, htab, hrange⟩ := scan_cases start stop PRUNE_CHUNK s
  have hnil : l = [] := by
    rw [List.eq_nil_iff_forall_not_mem]
    intro e he
    exact hnone e.1 ((inTable_iff hrange).mpr ⟨e.2, he⟩)
  subst hnil
  rw [exec_bind_ok hscan]
  exact ⟨b, rfl, htab⟩

end

/-- The table holds the present version and nothing else. -/
structure Exact [AtomicBackend B] (s : MerkleStore B) : Prop where
  stale : ∀ k, s.table (REC_STALE :: k) = none
  records : ∀ k, s.table k ≠ none ↔
    k = root_record_key s.version ∨ k = checkpoint_record_key ∨ References s.table s.version k

section

omit [HonestBackend B]

theorem TidyLive.exact [AtomicBackend B] (ht : TidyLive H s) (hs : Sturdy H s) (hl : Legible U H s)
    (hR : RootsApart s.ck U) (hclear : Cleared s.version s.table) : Exact s := by
  obtain ⟨c, hc, htidy⟩ := ht
  have hk := hs.consistent.kept _ c hc
  have hstale : ∀ k, s.table (REC_STALE :: k) = none := by
    intro k
    by_contra hne
    obtain ⟨since, r, he, hle, -⟩ := hs.indexed.shape k hne
    rw [he] at hne
    exact hne (hclear.stale since _ hle)
  refine ⟨hstale, fun k => ?_⟩
  rw [hk.references_iff (hk.hash_ne hR (hl.within _ c hc))]
  constructor
  · intro hne
    rcases htidy.covered k hne with hr | ⟨since, hin⟩ | hhead | ⟨v, hv, rfl⟩ | rfl
    · exact .inr (.inr hr)
    · exact absurd (hstale _) hin
    · obtain ⟨rest, rfl⟩ := List.head?_eq_some_iff.mp hhead
      exact absurd (hstale rest) hne
    · by_cases hlt : v < s.version
      · exact absurd (hclear.roots v hlt) hne
      · exact .inl (by rw [UInt64.le_antisymm hv (not_lt.mp hlt)])
    · exact .inr (.inl rfl)
  · rintro (rfl | rfl | ⟨r, hr, rfl⟩)
    · rw [hk.record]
      simp
    · exact htidy.checkpoint
    · cases r with
      | node nk =>
        obtain ⟨n, hn⟩ := hr
        rw [show s.table (Ref.node nk).key = some n.encode from (hk.stored _ hn).record]
        simp
      | value l =>
        have hfind := ((Tree.mem_leaf_iff hk.wf l).mp hr).2
        obtain ⟨x, hx, -⟩ := hk.map_of_find hfind
        obtain ⟨ct, htab, -⟩ := hl.readable _ c hc l.path l x hfind hx
        rw [show s.table (Ref.value l).key = some ct from htab]
        simp

end

theorem Upkeep.prune_exact (h : Upkeep ck U hist H s) (hl : Legible U H s) (ht : TidyLive H s) (hR : RootsApart ck U)
    (hpin : s.snapshot_pin = none) : ∃ n, ∀ fuel, n ≤ fuel → ∃ stats s',
      (MerkleStore.prune fuel s.version).exec s = (.ok stats, s') ∧ s'.version = s.version ∧ Exact s' ∧
      ∀ fuel, 1 ≤ fuel → ∃ s'', (MerkleStore.prune fuel s.version).exec s' = (.ok {}, s'') ∧ s''.table = s'.table := by
  have hhor : horizon s.snapshot_pin s.version = s.version := by
    rw [hpin]
    rfl
  have hle : horizon s.snapshot_pin s.version ≤ s.version := by
    rw [hhor]
    exact UInt64.le_refl _
  obtain ⟨n, hn⟩ := prune_ok s.version s hle fun k hk => by
    obtain ⟨since, r, he, -⟩ := h.sturdy.indexed.shape k hk
    obtain rfl := (List.cons.inj he).2
    have hpos : 0 < r.key.length := by cases r <;> simp [Ref.key, node_record_key, value_record_key]
    rw [List.length_append, length_u64Be]
    omega
  refine ⟨n, fun fuel hfuel => ?_⟩
  obtain ⟨stats, hok⟩ := hn fuel hfuel
  rcases prune_cases fuel s.version s with ⟨hlt, -⟩ | ⟨-, r, b, hexec, hrec, hdone⟩
  · exact absurd hlt (not_lt.mpr hle)
  rw [hexec] at hok
  obtain rfl : r = .ok stats := hok
  have hclear := hdone stats rfl
  rw [hhor] at hclear
  have hexact := (ht.pruned h.sturdy hle hrec).exact (h.sturdy.pruned hle hrec) (hl.pruned h.sturdy hrec)
    (by rw [← h.keyed] at hR; exact hR) hclear
  refine ⟨stats, _, hexec, rfl, hexact, fun fuel' hfuel' => ?_⟩
  obtain ⟨m, rfl⟩ := Nat.exists_eq_add_of_le' hfuel'
  unfold MerkleStore.prune
  rw [exec_bind_ok (exec_state _), if_neg (not_lt.mpr hle), exec_bind_ok (exec_update _ _), pruneStale_eq_sweep]
  obtain ⟨b1, hexec1, htab1⟩ := sweep_empty m {} { s with cache := s.cache.clear.clear, backend := b } fun e he => by
    obtain ⟨rest, rfl⟩ := stale_head he.1
    exact he.2 (hexact.stale rest)
  rw [exec_bind_ok hexec1, pruneRoots_eq_sweep]
  have hnone : ∀ k, ¬ InTable [REC_ROOT] (REC_ROOT :: u64Be (horizon s.snapshot_pin s.version))
      (AtomicBackend.table b1) k := by
    rintro k ⟨hk, hne⟩
    rw [htab1] at hne
    obtain ⟨rest, rfl, hlt⟩ := inRange_cons.mp hk
    rcases (hexact.records _).mp hne with he | he | ⟨-, -, -, he⟩
    · rw [he] at hk
      exact absurd (inRange_root.mp hk) (by rw [show horizon _ _ = _ from hhor]; exact UInt64.lt_irrefl _)
    · exact (tag_ne he).elim
    · obtain ⟨r, hr⟩ := he.exists_ref
      exact (Ref.key_head r).2 (by rw [hr]; rfl)
  obtain ⟨b2, hexec2, htab2⟩ := sweep_empty m {} { s with cache := s.cache.clear.clear, backend := b1 } hnone
  exact ⟨_, hexec2, htab2.trans htab1⟩

/-- Pruned up to the current version, the table has the live version only. -/
theorem prune_current_exact {b : B} {sk : Key} {draw : Option Nonce} {s0 : MerkleStore B} {cs : List Call}
    (hT : ∀ k, AtomicBackend.table b k = none) (hcreate : create b ck sk draw = .ok s0) (hU : ValuesApart ck U)
    (hR : RootsApart ck U) (hcs : ∀ c ∈ cs, c.Within ck U) (hpin : (runCalls s0 cs).snapshot_pin = none) :
    ∃ n, ∀ fuel, n ≤ fuel → ∃ stats s',
      (prune fuel (runCalls s0 cs).version).exec (runCalls s0 cs) = (.ok stats, s') ∧
      s'.version = (runCalls s0 cs).version ∧ Exact s' ∧
      ∀ fuel, 1 ≤ fuel →
        ∃ s'', (prune fuel (runCalls s0 cs).version).exec s' = (.ok {}, s'') ∧ s''.table = s'.table := by
  have hnew := create_spec hcreate
  obtain ⟨hup0, hleg0⟩ := hnew.upkeep (fun k => hT _) U
  obtain ⟨H, hup, hcar, -⟩ := hup0.run hR cs hcs
  have htidy : TidyLive emptyArchive s0 := ⟨_, hnew.live, hnew.tidy hT⟩
  exact hup.prune_exact (hcar.legible hU hleg0) (hcar.tidy htidy) hR hpin

end

open EnclaveOs.Merkle.Sample MerkleStore.Sample in
/-- The key is deleted and put again. -/
theorem prune_current_exact_put : let s := runCalls store (putDelete ++ [put])
    ∃ n, ∀ fuel, n ≤ fuel → ∃ stats s',
      (prune fuel s.version).exec s = (.ok stats, s') ∧ s'.version = s.version ∧ Exact s' ∧
      ∀ fuel, 1 ≤ fuel → ∃ s'', (prune fuel s.version).exec s' = (.ok {}, s'') ∧ s''.table = s'.table := by
  refine prune_current_exact table_empty create_store values_apart (rootsApart _ _) (fun c hc => ?_) (by decide +kernel)
  rcases List.mem_append.mp hc with hc | hc
  · exact putDelete_within c hc
  · rw [List.mem_singleton.mp hc]
    exact put_within

end MerkleStore

end EnclaveOs.Merkle
