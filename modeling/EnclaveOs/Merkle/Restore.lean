import EnclaveOs.Merkle.Retain

/-!
# Opening and restoring a store

`openAt` gives back the store that the table holds. `stamp_version` gives the live tree a second name.
-/

open EnclaveOs.Lib
open EnclaveOs.Lib.Method (exec_bind_eq_ok exec_bind_error exec_bind_ok exec_ofExcept exec_state)

namespace EnclaveOs.Merkle

/-! ## A tree under another version -/

namespace Tree

def stamp (v : UInt64) : Tree → Tree
  | .empty => .empty
  | .leaf _ l => .leaf v l
  | .node _ c => .node v c

@[simp] theorem find_stamp (v : UInt64) (t : Tree) (p : Hash) (d : Nat) : (t.stamp v).find p d = t.find p d := by
  cases t <;> rfl

variable {t : Tree}

theorem WF.stamp {pre : List Nibble} (h : t.WF pre) (v : UInt64) : (t.stamp v).WF pre := by
  cases t with
  | empty => trivial
  | leaf w l | node w c => exact h

theorem version_stamp (v : UInt64) (t : Tree) : t.stamp v = .empty ∨ (t.stamp v).version = some v := by
  cases t with
  | empty => exact .inl rfl
  | leaf w l | node w c => exact .inr rfl

variable {v : UInt64}

theorem stamp_of_version (h : t = .empty ∨ t.version = some v) : t.stamp v = t := by
  cases t with
  | empty => rfl
  | leaf w l | node w c =>
    rw [stamp, Option.some.inj (h.resolve_left (by simp))]

variable [Crypto]

@[simp] theorem hash_stamp (v : UInt64) (t : Tree) : (t.stamp v).hash = t.hash := by
  cases t <;> rfl

theorem ref_stamp (v : UInt64) (t : Tree) : (t.stamp v).ref = t.ref.map fun r => ⟨v, r.hash, r.is_leaf⟩ := by
  cases t <;> rfl

theorem mem_nodes_stamp {x : NodeKey × Node} (h : x ∈ (t.stamp v).nodes []) :
    (x.1 = ⟨v, []⟩ ∧ ∃ w, t.version = some w ∧ (⟨w, []⟩, x.2) ∈ t.nodes []) ∨ x ∈ t.nodes [] := by
  cases t with
  | empty => simp [stamp] at h
  | leaf w l =>
    rw [stamp, mem_nodes_leaf] at h
    rw [h]
    exact .inl ⟨rfl, w, rfl, by simp⟩
  | node w c =>
    rcases mem_nodes_node.mp h with rfl | hin
    · exact .inl ⟨rfl, w, rfl, by simp⟩
    · exact .inr (mem_nodes_node.mpr (.inr hin))

theorem exists_root_node {r : Child} (hv : t.version = some v) (hr : t.ref = some r) :
    ∃ n, (⟨v, []⟩, n) ∈ t.nodes [] ∧ r = ⟨v, n.hash, n.is_leaf⟩ := by
  cases t with
  | empty => simp [ref] at hr
  | leaf w l =>
    obtain rfl := Option.some.inj hv
    exact ⟨.leaf l, by simp, (Option.some.inj hr).symm⟩
  | node w c =>
    obtain rfl := Option.some.inj hv
    exact ⟨record c, by simp, (Option.some.inj hr).symm⟩

end Tree

namespace MerkleStore

/-! ## Opening and stamping -/

variable {B : Type} [KvBackend B] [AtomicBackend B] [Crypto] {s : MerkleStore B} {v : UInt64} {ck sk : Key}

/-- A store opened on the table of the backend at the version `v`. -/
structure Opened (b : B) (ck sk : Key) (v : UInt64) (t : Tree) (s : MerkleStore B) : Prop where
  ck : s.ck = ck
  cipher : s.cipher = .from_key sk
  root : s.root = t.hash
  version : s.version = v
  root_child : s.root_child = t.ref
  snapshot_pin : s.snapshot_pin = none
  table : s.table = AtomicBackend.table b
  cache : ∀ nk n, s.cache.lookup nk = some n →
    ∃ record, AtomicBackend.table b (node_record_key nk) = some record ∧ Node.decode record = .ok n

theorem openAt_spec {b : B} {c : Version} (hk : Kept (fresh b ck sk c.tree.hash v) v c)
    (hne : c.tree ≠ .empty → c.tree.hash ≠ placeholder) :
    ∃ s, openAt b ck sk c.tree.hash v = .ok s ∧ Opened b ck sk v c.tree s := by
  obtain ⟨s1, hexec, hsame⟩ := hk.gives_load_root_child hne
  refine ⟨{ s1 with root_child := c.tree.ref }, ?_, ?_⟩
  · unfold openAt construct
    rw [exec_bind_ok hexec, Method.exec_update]
  refine ⟨hsame.ck, hsame.cipher, hsame.root, hsame.version, rfl, hsame.snapshot_pin, hsame.table, fun nk n hn => ?_⟩
  rcases hsame.cache nk n hn with hc | hc
  · simp [fresh] at hc
  · exact hc

omit [AtomicBackend B] in
theorem cache_load_node {k : NodeKey} {m : Node} (nk : NodeKey) (expected : Hash)
    (h : ((load_node nk expected).exec s).2.cache.lookup k = some m) : k = nk ∨ s.cache.lookup k = some m := by
  by_cases hk : k = nk
  · exact .inl hk
  refine .inr ?_
  rcases hc : s.cache.lookup nk with _ | n
  · rw [exec_load_node_miss hc] at h
    simp only at h
    split at h
    · simpa using h
    · simpa using h
    split at h
    · simpa using h
    split at h
    · simpa using NodeCache.lookup_put_ne hk h
    · simpa using h
  · rw [exec_load_node_hit hc] at h
    simpa using h

/-- `s'` is `s` after `stamp_version` to `v`. The live tree is `t`. -/
structure Stamped (s : MerkleStore B) (t : Tree) (v : UInt64) (s' : MerkleStore B) : Prop where
  le : s.version ≤ v
  ck : s'.ck = s.ck
  cipher : s'.cipher = s.cipher
  root : s'.root = s.root
  version : s'.version = v
  root_child : s'.root_child = (t.stamp v).ref
  snapshot_pin : s'.snapshot_pin = s.snapshot_pin
  record : s'.table (root_record_key v) = some s.root.toList
  checkpoint : s'.table checkpoint_record_key ≠ none
  node : ∀ n, (⟨s.version, []⟩, n) ∈ t.nodes [] → s'.table (node_record_key ⟨v, []⟩) = some n.encode
  other : ∀ k, k ≠ root_record_key v → k ≠ checkpoint_record_key → k ≠ node_record_key ⟨v, []⟩ →
    s'.table k = s.table k
  cache : ∀ nk n, s'.cache.lookup nk = some n → Cached s nk n ∧ (nk = ⟨s.version, []⟩ ∨ s.cache.lookup nk = some n)

theorem stamped_of_write {s s1 s' : MerkleStore B} {t : Tree} {ckpt : Bytes} (node : Option Bytes) (h : (do
      backendWriteBatch ([.put (root_record_key v) s.root.toList, .put checkpoint_record_key ckpt] ++
        node.toList.map (.put (node_record_key ⟨v, []⟩)))
      Method.update fun s => { s with version := v } : StoreM B Unit).exec s1 = (.ok (), s'))
    (hle : s.version ≤ v) (hck : s1.ck = s.ck) (hcipher : s1.cipher = s.cipher) (hroot : s1.root = s.root)
    (hpin : s1.snapshot_pin = s.snapshot_pin) (htable : s1.table = s.table)
    (hchild : s1.root_child = (t.stamp v).ref)
    (hcache : ∀ nk n, s1.cache.lookup nk = some n → Cached s nk n ∧ (nk = ⟨s.version, []⟩ ∨ s.cache.lookup nk = some n))
    (hnode : ∀ n, (⟨s.version, []⟩, n) ∈ t.nodes [] → node = some n.encode) : Stamped s t v s' := by
  obtain ⟨_, s2, hw, hu⟩ := exec_bind_eq_ok.mp h
  obtain ⟨b, ⟨hexec, htab⟩ | ⟨e, hexec, -⟩⟩ := write_cases
    ([.put (root_record_key v) s.root.toList, .put checkpoint_record_key ckpt] ++
      node.toList.map (.put (node_record_key ⟨v, []⟩))) s1
  · rw [hexec] at hw
    obtain rfl := (Prod.mk.inj hw).2
    obtain rfl := (Prod.mk.inj hu).2
    have hrc : root_record_key v ≠ checkpoint_record_key := ne_of_head (by simp [REC_ROOT, REC_CHECKPOINT])
    have hrn : root_record_key v ≠ node_record_key ⟨v, []⟩ := ne_of_head (by simp [REC_ROOT, REC_NODE])
    have hcn : checkpoint_record_key ≠ node_record_key ⟨v, []⟩ := ne_of_head (by simp [REC_CHECKPOINT, REC_NODE])
    refine ⟨hle, hck, hcipher, hroot, rfl, hchild, hpin, (congrFun htab _).trans ?_, fun hnone => ?_,
      fun n hin => (congrFun htab _).trans ?_, fun k h1 h2 h3 => (congrFun htab k).trans ?_, hcache⟩
    · cases node <;> simp [applyOps, KvBatchOp.apply, hrc, hrn]
    · have hnone := (congrFun htab _).symm.trans hnone
      cases node <;> simp [applyOps, KvBatchOp.apply, hcn] at hnone
    · simp [hnode n hin, applyOps, KvBatchOp.apply]
    · rw [← htable]
      cases node <;> simp [applyOps, KvBatchOp.apply, h1, h2, h3]
  · rw [hexec] at hw
    simp at hw

theorem stamp_spec {s s' : MerkleStore B} {c : Version} {draw : Option Nonce}
    (hk : Kept s s.version c) (hchild : s.root_child = c.tree.ref)
    (h : (stamp_version draw v).exec s = (.ok (), s')) : Stamped s c.tree v s' := by
  unfold stamp_version at h
  rw [exec_bind_ok (exec_state s)] at h
  by_cases hlt : v < s.version
  · rw [if_pos hlt, exec_fail] at h
    simp at h
  rw [if_neg hlt] at h
  have hle := UInt64.not_lt.mp hlt
  obtain ⟨ckpt, s0, hck, h⟩ := exec_bind_eq_ok.mp h
  obtain rfl := (Prod.mk.inj hck).2
  rcases hr : c.tree.ref with _ | r
  · have hempty := Tree.ref_eq_none.mp hr
    simp only [hchild, hr, pure_bind] at h
    refine stamped_of_write none h hle rfl rfl rfl rfl rfl ?_ (fun nk n hn => ⟨.inl hn, .inr hn⟩) ?_
    · rw [hchild, hempty]
      rfl
    · simp [hempty]
  have hver : c.tree.version = some s.version := by
    refine hk.root.resolve_left fun he => ?_
    simp [he, Tree.ref] at hr
  obtain ⟨n, hn, rfl⟩ := Tree.exists_root_node hver hr
  simp only [hchild, hr, pure_bind] at h
  obtain ⟨n', s2, hload, h⟩ := exec_bind_eq_ok.mp h
  obtain ⟨s2', hload', hsame⟩ := gives_load_node (hk.stored _ hn)
  rw [hload'] at hload
  obtain ⟨hnn, rfl⟩ := Prod.mk.inj hload
  obtain rfl := Except.ok.inj hnn
  obtain ⟨_, s3, hup, h⟩ := exec_bind_eq_ok.mp h
  obtain ⟨-, rfl⟩ := Prod.mk.inj hup
  refine stamped_of_write (some n.encode) h hle hsame.ck hsame.cipher hsame.root hsame.snapshot_pin hsame.table
    ?_ (fun nk m hm => ⟨hsame.cache nk m hm, ?_⟩) (fun m hm => ?_)
  · rw [Tree.ref_stamp, hr]
    rfl
  · refine cache_load_node ⟨s.version, []⟩ n.hash ?_
    rw [hload']
    exact hm
  · rw [(Tree.node_unique hm hn rfl).2]

section

variable {H : Archive} {s s' : MerkleStore B} {c c' : Version} {v w : UInt64} {U : Set (Hash × Bytes)} {K : Set Ref}
  {t : Tree}

def Archive.stamp (H : Archive) (v : UInt64) (c : Version) : Archive := Archive.extend H v ⟨c.tree.stamp v, c.map⟩

omit [Crypto] in
theorem Archive.stamp_cases (h : Archive.stamp H v c w = some c') :
    w = v ∧ c' = ⟨c.tree.stamp v, c.map⟩ ∨ H w = some c' := by
  unfold Archive.stamp Archive.extend at h
  rw [Function.update_apply] at h
  split at h
  · rename_i hw
    exact .inl ⟨hw, (Option.some.inj h).symm⟩
  · exact .inr h

theorem Stamped.other_head (hst : Stamped s t v s') {k : Bytes} (hr : k.head? ≠ some REC_ROOT)
    (hc : k.head? ≠ some REC_CHECKPOINT) (hn : k.head? ≠ some REC_NODE) : s'.table k = s.table k :=
  hst.other k (ne_of_head hr) (ne_of_head hc) (ne_of_head hn)

theorem Stamped.stale (hst : Stamped s t v s') (k : Bytes) : s'.table (REC_STALE :: k) = s.table (REC_STALE :: k) :=
  hst.other_head (by simp [REC_STALE, REC_ROOT]) (by simp [REC_STALE, REC_CHECKPOINT])
    (by simp [REC_STALE, REC_NODE])

theorem Stamped.value (hst : Stamped s t v s') (vh : Hash) (w : UInt64) :
    s'.table (value_record_key vh w) = s.table (value_record_key vh w) :=
  hst.other_head (by simp [REC_VALUE, REC_ROOT]) (by simp [REC_VALUE, REC_CHECKPOINT])
    (by simp [REC_VALUE, REC_NODE])

theorem Stamped.kept_old (hst : Stamped s c.tree v s') (h : Consistent H s) (hc : H s.version = some c)
    (hw : H w = some c') : Kept s' w c' := by
  have hk := h.kept w c' hw
  have hws := h.upto w c' hw
  refine hk.keep hst.ck ?_ (fun x hx => ?_) fun x _ m hm => (hst.cache x.1 m hm).1
  · by_cases hv : w = v
    · subst hv
      obtain rfl : w = s.version := UInt64.le_antisymm hws hst.le
      rw [hst.record, (h.now hw).2]
      exact hk.record.symm
    · refine hst.other _ (fun he => hv (root_record_key_inj he)) (ne_of_head (by simp [REC_ROOT, REC_CHECKPOINT]))
        (ne_of_head (by simp [REC_ROOT, REC_NODE]))
  · by_cases hname : x.1 = ⟨v, []⟩
    · have hle : v ≤ w := by
        have := (hk.upto x hx).1
        rwa [hname] at this
      obtain rfl : v = s.version := UInt64.le_antisymm (UInt64.le_trans hle hws) hst.le
      obtain rfl : w = s.version := UInt64.le_antisymm hws hle
      obtain rfl : c = c' := Option.some.inj (hc.symm.trans hw)
      have hrec := hst.node x.2 (by rw [← hname]; exact hx)
      rw [hname, hrec, ← hname]
      exact (hk.stored x hx).record.symm
    · refine hst.other _ (ne_of_head (by simp [REC_NODE, REC_ROOT])) (ne_of_head (by simp [REC_NODE, REC_CHECKPOINT]))
        fun he => hname ?_
      exact node_record_key_inj (hk.wf.pfx_le hx) (by simp) he

theorem Stamped.kept_new (hst : Stamped s c.tree v s') (h : Consistent H s) (hc : H s.version = some c)
    (hfresh : v ≠ s.version → s.cache.lookup ⟨v, []⟩ = none) : Kept s' v ⟨c.tree.stamp v, c.map⟩ := by
  have hk := h.kept _ c hc
  have hk' := hst.kept_old h hc hc
  by_cases hv : v = s.version
  · rw [hv, Tree.stamp_of_version hk.root]
    exact hk'
  obtain ⟨-, hroot⟩ := h.now hc
  refine ⟨⟨hk.wf.stamp v, fun x hx => ?_, fun x hx => ?_⟩, Tree.version_stamp v _, ?_, fun p => ?_⟩
  · rcases Tree.mem_nodes_stamp hx with ⟨hname, w, -, hin⟩ | hin
    · rw [hname]
      exact ⟨UInt64.le_refl _, fun l hl => UInt64.le_trans ((hk.upto _ hin).2 l hl) hst.le⟩
    · exact ⟨UInt64.le_trans (hk.upto x hin).1 hst.le,
        fun l hl => UInt64.le_trans ((hk.upto x hin).2 l hl) hst.le⟩
  · rcases Tree.mem_nodes_stamp hx with ⟨hname, w, hw, hin⟩ | hin
    · -- The root under its new name. No cached node has that name.
      have hws : w = s.version := by
        refine Option.some.inj (hw.symm.trans (hk.root.resolve_left fun he => ?_))
        simp [he] at hin
      subst hws
      rw [hname]
      refine ⟨hst.node x.2 hin, (hk.stored _ hin).decode, fun m hm => ?_⟩
      rcases (hst.cache _ m hm).2 with he | hc
      · exact absurd (congrArg NodeKey.version he) hv
      · rw [hfresh hv] at hc
        simp at hc
    · exact hk'.stored x hin
  · rw [hst.record, hroot, Tree.hash_stamp]
  · rw [hst.ck, Tree.find_stamp]
    exact hk.commits p

theorem Consistent.stamped (h : Consistent H s) (hc : H s.version = some c) (hst : Stamped s c.tree v s')
    (hfresh : v ≠ s.version → s.cache.lookup ⟨v, []⟩ = none) : Consistent (Archive.stamp H v c) s' := by
  obtain ⟨-, hroot⟩ := h.now hc
  refine ⟨⟨⟨c.tree.stamp v, c.map⟩, ?_, hst.root_child, ?_⟩, fun w c' hw => ?_, fun w c' hw => ?_⟩
  · rw [hst.version]
    exact Function.update_self ..
  · rw [hst.root, hroot, Tree.hash_stamp]
  · rw [hst.version]
    rcases Archive.stamp_cases hw with ⟨rfl, -⟩ | hold
    · exact UInt64.le_refl _
    · exact UInt64.le_trans (h.upto w c' hold) hst.le
  · rcases Archive.stamp_cases hw with ⟨rfl, rfl⟩ | hold
    · exact hst.kept_new h hc hfresh
    · exact hst.kept_old h hc hold

theorem Readable.stamped (h : Readable H s) (hc : H s.version = some c) (hst : Stamped s c.tree v s') :
    Readable (Archive.stamp H v c) s' := by
  have hold : ∀ w c', H w = some c' → ∀ p l x, c'.tree.find p 0 = some l → c'.map p = some x → ValueAt s' l x := by
    intro w c' hw p l x hl hx
    unfold ValueAt
    rw [hst.value, hst.cipher, hst.ck]
    exact h w c' hw p l x hl hx
  intro w c' hw p l x hl hx
  rcases Archive.stamp_cases hw with ⟨rfl, rfl⟩ | hw
  · rw [Tree.find_stamp] at hl
    exact hold _ c hc p l x hl hx
  · exact hold w c' hw p l x hl hx

omit [Crypto] in
theorem Within.stamped (h : Within H U) (hc : H w = some c) (v : UInt64) : Within (Archive.stamp H v c) U := by
  intro v' c' hv'
  rcases Archive.stamp_cases hv' with ⟨-, rfl⟩ | hold
  · exact h w c hc
  · exact h v' c' hold

theorem Indexed.stamped (hi : Indexed K H s) (h : Consistent H s) (hc : H s.version = some c)
    (hst : Stamped s c.tree v s') : Indexed K (Archive.stamp H v c) s' := by
  have hk := h.kept _ c hc
  refine ⟨fun k hk => ?_, fun since target hin w c' hw hs r hr hrK he => ?_⟩
  · rw [hst.stale] at hk
    obtain ⟨since, r, he, hs, hr⟩ := hi.shape k hk
    rw [hst.version]
    exact ⟨since, r, he, UInt64.le_trans hs hst.le, hr.mono hst.le⟩
  have hin' : s.table (stale_record_key since target) ≠ none := fun hnone => hin ((hst.stale _).trans hnone)
  rcases Archive.stamp_cases hw with ⟨rfl, rfl⟩ | hold
  · obtain ⟨since', r', hkeys, hs', hr'⟩ := hi.shape _ hin'
    obtain ⟨rfl, ht⟩ := stale_record_key_inj hkeys
    have hold : r ∈ c.tree.refs [] → False := fun hin0 => hi.unused since target hin' _ c hc hs' r hin0 hrK he
    cases r with
    | node nk =>
      obtain ⟨n, hn⟩ := hr
      rcases Tree.mem_nodes_stamp hn with ⟨hname, -⟩ | hn
      · have hup := hr'.of_key (r := .node nk) (fun nk' hnk => ?_) (he.trans ht)
        · have hle : w ≤ s.version := by
            have := hup.2
            rwa [show nk = ⟨w, []⟩ from hname] at this
          have hws : w = s.version := UInt64.le_antisymm hle hst.le
          rw [hws, Tree.stamp_of_version hk.root] at hn
          exact hold ⟨n, hn⟩
        · obtain rfl := Ref.node.inj hnk
          rw [show nk = ⟨w, []⟩ from hname]
          simp
      · exact hold ⟨n, hn⟩
    | value l =>
      obtain ⟨nk, hn⟩ := hr
      rcases Tree.mem_nodes_stamp hn with ⟨-, w', -, hin0⟩ | hn
      · exact hold ⟨_, hin0⟩
      · exact hold ⟨nk, hn⟩
  · exact hi.unused since target hin' w c' hold hs r hr hrK he

end

/-! ## Restoring a snapshot -/

omit [AtomicBackend B] in
theorem exec_computeByPath_snd (h : s.root_child = none) (entropy : Entropy) (new : UInt64)
    (d : Std.TreeMap Hash (Option Bytes)) : ((computeByPath entropy new d).exec s).2 = s := by
  unfold computeByPath
  rw [exec_bind_ok (exec_state s), h]
  rcases hp : d.toList.foldlM (prepare s.ck s.cipher entropy) (({ new_version := new } : CommitAcc), []) with e | ⟨acc, us⟩
  · rw [exec_bind_error (exec_ofExcept (.error e) s)]
  rw [exec_bind_ok (exec_ofExcept (.ok (acc, us)) s)]
  have happly : ((apply_subtree NIBBLES acc none [] us : StoreM B _).exec s).2 = s := by
    unfold apply_subtree
    split <;> rfl
  rcases ha : (apply_subtree NIBBLES acc none [] us : StoreM B _).exec s with ⟨e | ⟨rc, acc'⟩, s1⟩
  · rw [ha] at happly
    rw [exec_bind_error ha]
    exact happly
  · rw [ha] at happly
    rw [exec_bind_ok ha]
    simp only
    split <;> exact happly

omit [AtomicBackend B] in
theorem cache_commit_acc {entropy : Entropy} {acc : CommitAcc} {rc : Option Child} {root : Hash}
    {nk : NodeKey} {n : Node} (h : ((commit_acc entropy acc rc root).exec s).2.cache.lookup nk = some n) :
    acc.pending[nk]? = some n ∧ ((commit_acc entropy acc rc root).exec s).2.version = acc.new_version ∨
      s.cache.lookup nk = some n := by
  unfold commit_acc at h ⊢
  rw [exec_bind_ok (exec_state s)] at h ⊢
  rcases hck : encryptCheckpoint s.cipher entropy.checkpoint root acc.new_version with e | ckpt
  · rw [exec_bind_error (by rw [exec_ofExcept, hck])] at h
    exact .inr h
  rw [exec_bind_ok (by rw [exec_ofExcept, hck])] at h
  rw [exec_bind_ok (exec_ofExcept (.ok ckpt) s)]
  rcases hw : (backendWriteBatch (commitOps acc root ++ [.put checkpoint_record_key ckpt])).exec s with ⟨e | u, s1⟩
  · have hs1 : s1.cache = s.cache := by
      have := congrArg (fun x => x.2.cache) hw
      exact this.symm
    rw [exec_bind_error hw] at h
    rw [hs1] at h
    exact .inr h
  · have hs1 : s1.cache = s.cache := by
      have := congrArg (fun x => x.2.cache) hw
      exact this.symm
    rw [exec_bind_ok hw] at h
    rw [exec_bind_ok hw]
    rcases NodeCache.lookup_foldl_put h with hin | ⟨-, hold⟩
    · exact .inl ⟨Std.TreeMap.mem_toList_iff_getElem?_eq_some.mp hin, rfl⟩
    · rw [hs1] at hold
      exact .inr hold

theorem cache_put_batch_by_path (hroot : s.root_child = none)
    (hcache : ∀ nk, s.cache.lookup nk = none) (entropy : Entropy) (ops : List (Hash × Bytes)) (nk : NodeKey) (n : Node)
    (h : ((put_batch_by_path entropy ops).exec s).2.cache.lookup nk = some n) :
    nk.version = ((put_batch_by_path entropy ops).exec s).2.version := by
  have hno : ∀ {s1 : MerkleStore B}, s1 = s → s1.cache.lookup nk = some n → False := by
    rintro s1 rfl hs1
    simp [hcache] at hs1
  unfold put_batch_by_path at h ⊢
  rw [exec_bind_ok (exec_state s)] at h ⊢
  split at h
  · exact absurd h (hno rfl)
  rename_i hne
  rw [if_neg hne]
  by_cases hv : s.version.toNat + 1 < 2 ^ 64
  · have hnext : (nextVersion : StoreM B UInt64).exec s = (.ok (s.version + 1), s) := by
      rw [exec_nextVersion, if_pos hv]
    rw [exec_bind_ok hnext] at h ⊢
    have hg : Grown s s.version .empty := ⟨trivial, by simp, fun x hx => absurd hx (by simp)⟩
    obtain ⟨r, hr, s1, hexec, -⟩ := computes_byPath hg hroot entropy
      (ops.foldl (fun m op => m.insert op.1 (some op.2)) {}) hv
    obtain rfl : s1 = s := by
      have := exec_computeByPath_snd hroot entropy (s.version + 1) (ops.foldl (fun m op => m.insert op.1 (some op.2)) {})
      rw [hexec] at this
      exact this
    cases hr with
    | failed why =>
      rw [exec_bind_error hexec] at h
      exact absurd h (hno rfl)
    | unchanged hup =>
      rw [exec_bind_ok hexec] at h
      exact absurd h (hno rfl)
    | changed hv' hne' hup hd =>
      rw [exec_bind_ok hexec] at h ⊢
      rcases cache_commit_acc h with ⟨hin, hver⟩ | hold
      · exact (((hd.pending nk n).mp hin).2.trans hd.new_version.symm).trans hver.symm
      · exact absurd hold (hno rfl)
  · have hnext : (nextVersion : StoreM B UInt64).exec s = (.error .panic, s) := by
      rw [exec_nextVersion, if_neg hv]
    rw [exec_bind_error hnext] at h
    exact absurd h (hno rfl)

def restore (backend : B) (ck sk : Key) (draw : Option Nonce) (entropy : Entropy) (draw' : Option Nonce)
    (chunks : List (List (Hash × Bytes))) (expected_root : Hash) (version : UInt64) : Except Fault (MerkleStore B) := do
  let builder ← SnapshotBuilder.new backend ck sk draw
  (chunks.foldl SnapshotBuilder.add_leaves builder).finalize entropy draw' expected_root version

omit [KvBackend B] [AtomicBackend B] [Crypto] in
theorem foldl_add_leaves (chunks : List (List (Hash × Bytes))) (b : SnapshotBuilder B) :
    chunks.foldl SnapshotBuilder.add_leaves b = ⟨b.store, b.leaves ++ chunks.flatten⟩ := by
  induction chunks generalizing b with
  | nil => simp
  | cons chunk chunks ih =>
    rw [List.foldl_cons, ih]
    simp [SnapshotBuilder.add_leaves]

theorem restore_ok {b : B} {draw draw' : Option Nonce} {entropy : Entropy}
    {chunks : List (List (Hash × Bytes))} {R : Hash} {s' : MerkleStore B}
    (h : restore b ck sk draw entropy draw' chunks R v = .ok s') :
    ∃ s0 s1 bv, create b ck sk draw = .ok s0 ∧ (put_batch_by_path entropy chunks.flatten).exec s0 = (.ok (R, bv), s1) ∧
      (stamp_version draw' v).exec s1 = (.ok (), s') ∧
      ∀ w, w ≠ s1.version → s1.cache.lookup ⟨w, []⟩ = none := by
  unfold restore SnapshotBuilder.new at h
  rcases hcreate : create b ck sk draw with e | s0
  · rw [hcreate] at h
    simp [bind, Except.bind] at h
  rw [hcreate] at h
  simp only [bind, Except.bind, pure, Except.pure, foldl_add_leaves, List.nil_append] at h
  unfold SnapshotBuilder.finalize construct at h
  split at h
  · rename_i u s2 hexec
    obtain rfl := Except.ok.inj h
    obtain ⟨⟨root, bv⟩, s1, hput, hrest⟩ := exec_bind_eq_ok.mp hexec
    simp only at hrest
    split at hrest
    · simp at hrest
    rename_i hroot
    obtain rfl := not_not.mp hroot
    split at hrest
    · simp at hrest
    refine ⟨s0, s1, bv, rfl, hput, hrest, fun w hw => ?_⟩
    have hcon := (create_spec hcreate).consistent
    obtain ⟨c, hc, hchild, -⟩ := hcon.live
    rw [(create_spec hcreate).live] at hc
    obtain rfl := Option.some.inj hc
    by_contra hne
    obtain ⟨n, hn⟩ := Option.ne_none_iff_exists'.mp hne
    have hempty (nk : NodeKey) : s0.cache.lookup nk = none := by
      obtain ⟨_, _, rfl, -⟩ := create_cases hcreate
      exact NodeCache.lookup_new _ _
    have hver := cache_put_batch_by_path hchild hempty entropy chunks.flatten ⟨w, []⟩ n
    rw [hput] at hver
    exact hw (hver hn)
  · simp at h

end MerkleStore

end EnclaveOs.Merkle
