import EnclaveOs.Merkle.Put

/-!
# The versions of a store

An archive says for each version that can still be read which tree it is and what its keys hold.
-/

open EnclaveOs.Lib
open Function (update update_of_ne update_self)
open UInt64 (le_of_lt le_refl lt_of_le_of_lt ne_of_lt)

namespace EnclaveOs.Merkle

structure Version where
  tree : Tree
  map : PathMap

abbrev Archive := UInt64 → Option Version

namespace MerkleStore

variable {B : Type} [KvBackend B] [AtomicBackend B] [Crypto]

structure Kept (s : MerkleStore B) (v : UInt64) (c : Version) : Prop extends Grown s v c.tree where
  root : c.tree = .empty ∨ c.tree.version = some v
  record : s.table (root_record_key v) = some c.tree.hash.toList
  commits : Commits s.ck c.tree c.map

/-- The store is at the last version of the archive and keeps the trees of all. -/
structure Consistent (H : Archive) (s : MerkleStore B) : Prop where
  live : ∃ c, H s.version = some c ∧ s.root_child = c.tree.ref ∧ s.root = c.tree.hash
  upto : ∀ v c, H v = some c → v ≤ s.version
  kept : ∀ v c, H v = some c → Kept s v c

/-- The values of every archived version can be read. -/
def Readable (H : Archive) (s : MerkleStore B) : Prop :=
  ∀ v c, H v = some c → ∀ p l x, c.tree.find p 0 = some l → c.map p = some x → ValueAt s l x

/-- No two of the values in `U` have one hash. -/
def ValuesApart (ck : Key) (U : Set (Hash × Bytes)) : Prop := Set.InjOn (fun e : Hash × Bytes => vh_of ck e.1 e.2) U

def Within (H : Archive) (U : Set (Hash × Bytes)) : Prop := ∀ v c, H v = some c → ∀ p x, c.map p = some x → (p, x) ∈ U

/-- The store holds the versions of the archive. -/
structure Faithful (U : Set (Hash × Bytes)) (H : Archive) (s : MerkleStore B) : Prop where
  consistent : Consistent H s
  readable : Readable H s
  within : Within H U

/-! ## Where nothing is written -/

variable {s s' : MerkleStore B} {H : Archive}

theorem Kept.keep {v : UInt64} {c : Version} (h : Kept s v c) (hck : s'.ck = s.ck)
    (hroot : s'.table (root_record_key v) = s.table (root_record_key v))
    (hnode : ∀ x ∈ c.tree.nodes [], s'.table (node_record_key x.1) = s.table (node_record_key x.1))
    (hcache : ∀ x ∈ c.tree.nodes [], ∀ m, s'.cache.lookup x.1 = some m → Cached s x.1 m) : Kept s' v c := by
  refine ⟨⟨h.wf, h.upto, fun x hx => ?_⟩, h.root, ?_, ?_⟩
  · exact (h.stored x hx).keep (hnode x hx) (hcache x hx)
  · rw [hroot]
    exact h.record
  · rw [hck]
    exact h.commits

theorem Consistent.now (h : Consistent H s) (hc : H s.version = some c) :
    s.root_child = c.tree.ref ∧ s.root = c.tree.hash := by
  obtain ⟨c', hc', hlive⟩ := h.live
  rwa [Option.some.inj (hc'.symm.trans hc)] at hlive

theorem Consistent.frozen (h : Consistent H s) (hs : Frozen s s') (hkept : ∀ v c, H v = some c → Kept s' v c) :
    Consistent H s' := by
  obtain ⟨c, hc, hchild, hroot⟩ := h.live
  refine ⟨⟨c, ?_, ?_, ?_⟩, fun v c hv => ?_, hkept⟩
  · rw [hs.version]
    exact hc
  · rw [hs.root_child]
    exact hchild
  · rw [hs.root]
    exact hroot
  · rw [hs.version]
    exact h.upto v c hv

theorem Consistent.of_same (h : Consistent H s) (hs : Same s s') : Consistent H s' :=
  h.frozen hs.toFrozen fun v c hv =>
    (h.kept v c hv).keep hs.ck (by rw [hs.table]) (fun x _ => by rw [hs.table]) fun x _ => hs.cache x.1

theorem Readable.of_same (h : Readable H s) (hs : Same s s') :
    Readable H s' := fun v c hv p l x hl hx => (h v c hv p l x hl hx).of_same hs

theorem Faithful.of_same {U : Set (Hash × Bytes)} (h : Faithful U H s)
    (hs : Same s s') : Faithful U H s' := ⟨h.consistent.of_same hs, h.readable.of_same hs, h.within⟩

theorem Consistent.mono {H' : Archive} (h : Consistent H s)
    (hle : ∀ v c, H' v = some c → H v = some c) (hlive : H' s.version = H s.version) : Consistent H' s := by
  obtain ⟨c, hc, hrest⟩ := h.live
  exact ⟨⟨c, by rw [hlive]; exact hc, hrest⟩, fun v c hv => h.upto v c (hle v c hv),
    fun v c hv => h.kept v c (hle v c hv)⟩

/-! ## Where a write has landed -/

omit [Crypto] in
theorem lt_next_of_le {v w : UInt64} (hv : v.toNat + 1 < 2 ^ 64) (h : w ≤ v) : w < v + 1 :=
  lt_of_le_of_lt h (lt_next hv)

section

variable {H : Archive} {s s' : MerkleStore B} {entropy : Entropy} {d : Std.TreeMap Hash (Option Bytes)}
  {t t' : Tree} {c : Version}
  {acc : CommitAcc} {ckpt : Bytes}

theorem Consistent.old_kept (h : Consistent H s) (hw : Written s entropy d t t' acc ckpt s'.table)
    (hck : s'.ck = s.ck)
    (hcache : ∀ nk n, nk.version ≠ s.version + 1 → s'.cache.lookup nk = some n → Cached s nk n)
    {v : UInt64} (hv : H v = some c) : Kept s' v c := by
  have hk := h.kept v c hv
  have hlt : v < s.version + 1 := lt_next_of_le hw.next (h.upto v c hv)
  have hold : ∀ x ∈ c.tree.nodes [], x.1.version ≠ s.version + 1 := fun x hx => (hk.toGrown.older hlt x hx).1
  refine hk.keep hck ?_ (fun x hx => ?_) (fun x hx m => hcache x.1 m (hold x hx))
  · exact hw.landed.old_root (ne_of_lt hlt)
  · exact hw.landed.old_node hw.updated.wf (hk.wf.pfx_le hx) (hold x hx)

theorem Consistent.lost (h : Consistent H s) (hs : Frozen s s')
    (hw : Written s entropy d t t' acc ckpt s'.table) : Consistent H s' :=
  h.frozen hs fun _ _ hv => h.old_kept hw hs.ck (fun nk n _ => hs.cache nk n) hv

def Archive.extend (H : Archive) (v : UInt64) (c : Version) : Archive := update H v (some c)

theorem Kept.committed (hk : Kept s s.version c) (hm : Moved s s' (s.version + 1) t')
    (hw : Written s entropy d c.tree t' acc ckpt s'.table) : Kept s' (s.version + 1) ⟨t', patched c.map d⟩ := by
  have hlt := lt_next hw.next
  have hup := hw.updated
  have hold : Older (s.version + 1) [] c.tree := hk.toGrown.older hlt
  refine ⟨⟨hup.wf, fun x hx => ⟨?_, fun l hl => ?_⟩, fun x hx => ?_⟩, ?_, ?_, ?_⟩
  · rcases hup.nodes x hx with hv | hin
    · rw [hv]
      exact le_refl _
    · exact le_of_lt (lt_of_le_of_lt (hk.upto x hin).1 hlt)
  · have hmem : Ref.value l ∈ t'.refs [] := ⟨x.1, by rw [← hl]; exact hx⟩
    rcases hup.value_cases hk.wf hmem with hv | ⟨nk, hin⟩
    · rw [hv]
      exact le_refl _
    · exact le_of_lt (lt_of_le_of_lt ((hk.upto _ hin).2 l rfl) hlt)
  · by_cases hv : x.1.version = s.version + 1
    · -- A node of this commit: it was written, and the cache took it in.
      refine ⟨hw.landed.node x ⟨hx, hv⟩, hup.wf.decode_encode hx, fun m hm' => ?_⟩
      rcases hm.cache x.1 m hm' with hin | ⟨hno, -⟩
      · exact (Tree.node_unique hin.1 hx rfl).2
      · exact absurd ⟨hx, hv⟩ (hno x.2)
    · have hin := (hup.nodes x hx).resolve_left hv
      refine (hk.stored x hin).keep (hw.landed.old_node hup.wf (hk.wf.pfx_le hin) hv) fun m hm' => ?_
      rcases hm.cache x.1 m hm' with hin' | ⟨-, hc⟩
      · exact absurd hin'.2 hv
      · exact hc
  · exact (hup.root.resolve_left hw.changed)
  · exact hw.landed.root
  · rw [hm.ck]
    exact hk.commits.patched hup

theorem Consistent.committed (h : Consistent H s) (hc : H s.version = some c)
    (hm : Moved s s' (s.version + 1) t') (hw : Written s entropy d c.tree t' acc ckpt s'.table) :
    Consistent (Archive.extend H (s.version + 1) ⟨t', patched c.map d⟩) s' := by
  have hlt := lt_next hw.next
  refine ⟨⟨⟨t', patched c.map d⟩, ?_, hm.root_child, hm.root⟩, fun v c' hv => ?_, fun v c' hv => ?_⟩
  · rw [hm.version]
    exact update_self ..
  · rw [hm.version]
    by_cases he : v = s.version + 1
    · rw [he]
      exact le_refl _
    · rw [Archive.extend, update_of_ne he] at hv
      exact le_of_lt (lt_of_le_of_lt (h.upto v c' hv) hlt)
  · by_cases he : v = s.version + 1
    · subst he
      rw [Archive.extend, update_self] at hv
      rw [← Option.some.inj hv]
      exact (h.kept _ c hc).committed hm hw
    · rw [Archive.extend, update_of_ne he] at hv
      refine h.old_kept hw hm.ck (fun nk n hne hn => ?_) hv
      rcases hm.cache nk n hn with hin | ⟨-, hold⟩
      · exact absurd hin.2 hne
      · exact hold

theorem Consistent.unchanged (h : Consistent H s) (hc : H s.version = some c) (hs : Same s s')
    (hup : Updated (s.version + 1) [] (updatesOf s.ck d.toList) c.tree c.tree) :
    Consistent (Archive.extend H s.version ⟨c.tree, patched c.map d⟩) s' := by
  refine Consistent.of_same ?_ hs
  have hnow := h.now hc
  refine ⟨⟨⟨c.tree, patched c.map d⟩, update_self .., hnow⟩, fun v c hv => ?_, fun v c hv => ?_⟩
  · by_cases he : v = s.version
    · rw [he]
      exact le_refl _
    · rw [Archive.extend, update_of_ne he] at hv
      exact h.upto v c hv
  · by_cases he : v = s.version
    · subst he
      rw [Archive.extend, update_self] at hv
      rw [← Option.some.inj hv]
      have hk := h.kept _ _ hc
      exact { hk with commits := hk.commits.patched hup }
    · rw [Archive.extend, update_of_ne he] at hv
      exact h.kept v c hv

end

theorem Consistent.put {H : Archive} {s s' : MerkleStore B} {c : Version} {entropy : Entropy}
    {d : Std.TreeMap Hash (Option Bytes)} {r : Except Fault (Hash × UInt64)} (h : Consistent H s)
    (hc : H s.version = some c) (ho : PutOutcome s c.tree entropy d r s') :
    (∃ e, r = .error e ∧ s'.version = s.version ∧ Consistent H s') ∨
    ∃ t', r = .ok (s'.root, s'.version) ∧ Consistent (Archive.extend H s'.version ⟨t', patched c.map d⟩) s' := by
  cases ho with
  | failed why hs => exact .inl ⟨_, rfl, hs.version, h.of_same hs⟩
  | lost why hs hw => exact .inl ⟨_, rfl, hs.version, h.lost hs hw⟩
  | unchanged hs hup =>
    refine .inr ⟨c.tree, ?_, ?_⟩
    · rw [hs.root, hs.version]
    · rw [hs.version]
      exact h.unchanged hc hs hup
  | committed hm hw =>
    rename_i t' acc ckpt
    refine .inr ⟨t', ?_, ?_⟩
    · rw [hm.root, hm.version]
    · rw [hm.version]
      exact h.committed hc hm hw

section

variable {H : Archive} {s s' : MerkleStore B} {entropy : Entropy} {d : Std.TreeMap Hash (Option Bytes)}
  {t t' : Tree} {U : Set (Hash × Bytes)} {l : LeafNode} {c : Version}
  {acc : CommitAcc} {ckpt : Bytes}

theorem ValueAt.old {x : Bytes} (h : ValueAt s l x) (hck : s'.ck = s.ck) (hci : s'.cipher = s.cipher)
    (hw : Written s entropy d t t' acc ckpt s'.table) (hv : l.value_version ≤ s.version) : ValueAt s' l x := by
  obtain ⟨ct, htab, hdec, hvh⟩ := h
  refine ⟨ct, ?_, by rw [hci]; exact hdec, by rw [hck]; exact hvh⟩
  rw [hw.landed.old_value l.vh (ne_of_lt (lt_next_of_le hw.next hv))]
  exact htab

theorem Kept.value_upto {v : UInt64} (hk : Kept s v c) {p : Hash}
    (hl : c.tree.find p 0 = some l) : l.value_version ≤ v := by
  have hp := Tree.find_path hl
  subst hp
  obtain ⟨nk, hin⟩ := (Tree.mem_leaf_iff hk.wf l).mpr ⟨under_nil _, hl⟩
  exact (hk.upto _ hin).2 l rfl

theorem Readable.old (h : Readable H s) (hcon : Consistent H s) (hck : s'.ck = s.ck) (hci : s'.cipher = s.cipher)
    (hw : Written s entropy d t t' acc ckpt s'.table) : Readable H s' := by
  intro v c hv p l x hl hx
  have hle : l.value_version ≤ s.version := UInt64.le_trans ((hcon.kept v c hv).value_upto hl) (hcon.upto v c hv)
  exact (h v c hv p l x hl hx).old hck hci hw hle

theorem Readable.new_tree (h : Readable H s) (hcon : Consistent H s)
    (hc : H s.version = some c) (hck : s'.ck = s.ck) (hci : s'.cipher = s.cipher)
    (hw : Written s entropy d c.tree t' acc ckpt s'.table) (hU : ValuesApart s.ck U)
    (hin : ∀ p x, c.map p = some x → (p, x) ∈ U) (hd : ∀ p x, patched c.map d p = some x → (p, x) ∈ U)
    {p : Hash} {x : Bytes} (hl : t'.find p 0 = some l) (hx : patched c.map d p = some x) : ValueAt s' l x := by
  have hk := hcon.kept _ c hc
  have hcom := hk.commits.patched hw.updated
  have hvh : ∀ q l' y, t'.find q 0 = some l' → patched c.map d q = some y → l'.vh = vh_of s.ck q y := by
    intro q l' y hl' hy
    have := hcom q
    rw [hl', hy] at this
    simpa using this
  have hpath := Tree.find_path hl
  rcases updLeaf_cases (fun _ => Tree.find_path) ((hw.updated.find p).symm.trans hl) with hv | hold
  · -- A value of this commit.
    obtain ⟨nk, hnk⟩ := (Tree.mem_leaf_iff hw.updated.wf l).mpr ⟨under_nil _, by rw [hpath]; exact hl⟩
    have hnew : nk.version = s.version + 1 := by
      refine (hw.updated.nodes _ hnk).resolve_right fun hold => ?_
      exact ((hk.toGrown.older (lt_next hw.next)) _ hold).2 l rfl hv
    obtain ⟨ct, hct⟩ := hw.delta.value_all nk l ⟨hnk, hnew⟩ hv
    obtain ⟨nk', lf, pt, hlf, -, hlvh, hpt, henc⟩ := hw.delta.value_of l.vh ct hct
    have hfind : t'.find lf.path 0 = some lf := ((Tree.mem_leaf_iff hw.updated.wf lf).mp ⟨nk', hlf.1⟩).2
    have hmap : patched c.map d lf.path = some pt := by
      unfold patched
      rw [Std.TreeMap.mem_toList_iff_getElem?_eq_some.mp hpt]
      rfl
    -- The record is shared only by leaves with the same path and value.
    have hsame : (lf.path, pt) = (p, x) := by
      refine hU (hd _ _ hmap) (hd _ _ hx) ?_
      exact ((hvh _ _ _ hfind hmap).symm.trans hlvh).trans (hvh _ _ _ hl hx)
    obtain ⟨hlp, rfl⟩ := Prod.mk.inj hsame
    refine ⟨ct, ?_, ?_, ?_⟩
    · rw [hv]
      exact hw.landed.value l.vh ct hct
    · rw [hci, hpath, ← hlp]
      exact AeadCipher.decrypt_encrypt _ _ _ _ _ henc
    · rw [hck, hpath]
      exact (hvh _ _ _ hl hx).symm
  · have hcp := hk.commits p
    rw [show c.tree.find p 0 = some l from hold] at hcp
    obtain ⟨y, hy, hyv⟩ := Option.map_eq_some_iff.mp hcp.symm
    have hsame : (p, y) = (p, x) := hU (hin p y hy) (hd p x hx) (hyv.trans (hvh _ _ _ hl hx))
    rw [← (Prod.mk.inj hsame).2]
    exact (h _ c hc p l y hold hy).old hck hci hw (hk.value_upto hold)

omit [KvBackend B] [AtomicBackend B] [Crypto] in
theorem patched_mem {M : PathMap} (hM : ∀ p x, M p = some x → (p, x) ∈ U)
    (hd : ∀ p x, (p, some x) ∈ d.toList → (p, x) ∈ U) (p : Hash) (x : Bytes) (hx : patched M d p = some x) :
    (p, x) ∈ U := by
  unfold patched at hx
  rcases hdp : d[p]? with _ | v
  · rw [hdp] at hx
    exact hM p x hx
  rw [hdp] at hx
  have hv : v = some x := hx
  exact hd p x (Std.TreeMap.mem_toList_iff_getElem?_eq_some.mpr (by rw [hdp, hv]))

/-- However a batch ends, the store stays faithful. -/
theorem Faithful.put {r : Except Fault (Hash × UInt64)} (h : Faithful U H s)
    (hc : H s.version = some c) (ho : PutOutcome s c.tree entropy d r s')
    (hU : ValuesApart s.ck U) (hd : ∀ p x, (p, some x) ∈ d.toList → (p, x) ∈ U) :
    (∃ e, r = .error e ∧ s'.version = s.version ∧ Faithful U H s') ∨
    ∃ t', r = .ok (s'.root, s'.version) ∧
      (s'.version = s.version ∧ patched c.map d = c.map ∨
        s'.version = s.version + 1 ∧ s.version.toNat + 1 < 2 ^ 64 ∧ patched c.map d ≠ c.map) ∧
      Faithful U (Archive.extend H s'.version ⟨t', patched c.map d⟩) s' ∧
      ∀ v c', H v = some c' → ∃ c'', Archive.extend H s'.version ⟨t', patched c.map d⟩ v = some c'' ∧
        c''.map = c'.map := by
  obtain ⟨hcon, hread, hin⟩ := h
  have hk := hcon.kept _ c hc
  have hpatched := patched_mem (hin _ c hc) hd
  cases ho with
  | failed why hs => exact .inl ⟨_, rfl, hs.version, hcon.of_same hs, hread.of_same hs, hin⟩
  | lost why hs hw => exact .inl ⟨_, rfl, hs.version, hcon.lost hs hw, hread.old hcon hs.ck hs.cipher hw, hin⟩
  | unchanged hs hup =>
    -- The same tree commits to one map only.
    have hmap : patched c.map d = c.map := hk.commits.unique hU (hk.commits.patched hup) (hin _ c hc) hpatched
    refine .inr ⟨c.tree, by rw [hs.root, hs.version], .inl ⟨hs.version, hmap⟩, ?_⟩
    have hsame : Archive.extend H s'.version ⟨c.tree, patched c.map d⟩ = H := by
      rw [hs.version, hmap]
      exact Function.update_eq_self_iff.mpr hc.symm
    rw [hsame]
    exact ⟨⟨hcon.of_same hs, hread.of_same hs, hin⟩, fun v c' hv => ⟨c', hv, rfl⟩⟩
  | committed hm hw =>
    rename_i t' acc ckpt
    have hne : ∀ v c', H v = some c' → v ≠ s.version + 1 :=
      fun v c' hv => ne_of_lt (lt_next_of_le hw.next (hcon.upto v c' hv))
    refine .inr ⟨t', by rw [hm.root, hm.version], .inr ⟨hm.version, hw.next, fun he => ?_⟩, ?_⟩
    · exact hw.changed (hk.commits.eq_of_patched_eq hw.updated he)
    rw [hm.version]
    refine ⟨⟨hcon.committed hc hm hw, fun v c' hv p l x hl hx => ?_, fun v c' hv => ?_⟩, fun v c' hv => ?_⟩
    · by_cases he : v = s.version + 1
      · subst he
        rw [Archive.extend, update_self] at hv
        obtain rfl := Option.some.inj hv
        exact hread.new_tree hcon hc hm.ck hm.cipher hw hU (hin _ c hc) hpatched hl hx
      · rw [Archive.extend, update_of_ne he] at hv
        exact hread.old hcon hm.ck hm.cipher hw v c' hv p l x hl hx
    · by_cases he : v = s.version + 1
      · subst he
        rw [Archive.extend, update_self] at hv
        obtain rfl := Option.some.inj hv
        exact hpatched
      · rw [Archive.extend, update_of_ne he] at hv
        exact hin v c' hv
    · exact ⟨c', by rw [Archive.extend, update_of_ne (hne v c' hv)]; exact hv, rfl⟩

end

/-- No entries over `U` have the hash of the empty tree. -/
def RootsApart (ck : Key) (U : Set (Hash × Bytes)) : Prop :=
  ∀ S : Finset (Hash × Hash), S.Nonempty → (∀ e ∈ S, ∃ x, (e.1, x) ∈ U ∧ e.2 = vh_of ck e.1 x) →
    (∀ e ∈ S, ∀ e' ∈ S, e.1 = e'.1 → e = e') → SparseMerkle.canon bit nodeHashing 256 0 S ≠ placeholder

section

variable {H : Archive} {s : MerkleStore B} {v : UInt64} {c : Version} {U : Set (Hash × Bytes)}

theorem Kept.map_of_find (hk : Kept s v c) {p : Hash} {l : LeafNode} (hl : c.tree.find p 0 = some l) :
    ∃ x, c.map p = some x ∧ vh_of s.ck p x = l.vh := by
  have h := hk.commits p
  rw [hl] at h
  exact Option.map_eq_some_iff.mp h.symm

theorem Kept.hash_ne (hk : Kept s v c) (hR : RootsApart s.ck U) (hin : ∀ p x, c.map p = some x → (p, x) ∈ U)
    (hne : c.tree ≠ .empty) : c.tree.hash ≠ placeholder := by
  rw [Tree.hash_eq_canon hk.wf]
  refine hR _ (hk.wf.exists_mem hne) (fun e he => ?_) (fun e he e' he' hp => ?_)
  · obtain ⟨l, hl, hvh⟩ := (Tree.mem_entries_iff hk.wf e.1 e.2).mp he
    obtain ⟨x, hx, hxv⟩ := hk.map_of_find hl
    exact ⟨x, hin e.1 x hx, hvh.symm.trans hxv.symm⟩
  · obtain ⟨l, hl, hvh⟩ := (Tree.mem_entries_iff hk.wf e.1 e.2).mp he
    obtain ⟨l', hl', hvh'⟩ := (Tree.mem_entries_iff hk.wf e'.1 e'.2).mp he'
    rw [hp, hl'] at hl
    exact Prod.ext hp (by rw [← hvh, ← hvh', Option.some.inj hl])

theorem Faithful.holds (h : Faithful U H s) (hc : H v = some c) (p : Hash) : Holds s c.tree 0 p (c.map p) := by
  have hk := h.consistent.kept v c hc
  have hcom := hk.commits p
  unfold Holds
  rcases hl : c.tree.find p 0 with _ | l
  · rw [hl] at hcom
    simpa using hcom.symm
  · obtain ⟨x, hx, -⟩ := hk.map_of_find hl
    exact ⟨x, h.readable v c hc p l x hl hx, hx⟩

theorem Faithful.gives_get (h : Faithful U H s) (hc : H s.version = some c) (key : Bytes) :
    Gives (MerkleStore.get key) s (.ok (c.map (path_of s.ck key))) := by
  obtain ⟨hchild, -⟩ := h.consistent.now hc
  have hk := h.consistent.kept _ _ hc
  unfold MerkleStore.get
  refine gives_bind ⟨s, rfl, Same.refl s⟩ fun s1 hs1 => ?_
  rw [hchild]
  exact gives_walk hk.wf (hk.stored.of_same hs1) ((h.holds hc _).of_same hs1)

theorem Kept.gives_load_root_record (hk : Kept s v c) : Gives (load_root_record v) s (.ok c.tree.hash) := by
  unfold load_root_record
  refine gives_bind (MerkleStore.gives_get s _) fun s1 _ => ?_
  rw [hk.record]
  simp only [Vector.length_toList, ne_eq, not_true_eq_false, if_false, toVec_toList]
  exact gives_pure _ _

theorem Kept.gives_load_root_child (hk : Kept s v c) (hne : c.tree ≠ .empty → c.tree.hash ≠ placeholder) :
    Gives (load_root_child c.tree.hash v) s (.ok c.tree.ref) := by
  unfold load_root_child
  rcases hk.root with he | hv
  · rw [he, if_pos (show Tree.empty.hash = placeholder from rfl)]
    exact gives_pure _ _
  have hnonempty : c.tree ≠ .empty := by
    intro he
    rw [he] at hv
    simp [Tree.version] at hv
  rw [if_neg (hne hnonempty)]
  cases ht : c.tree with
  | empty => exact absurd ht hnonempty
  | leaf w l =>
    rw [ht] at hv
    obtain rfl := Option.some.inj hv
    have hag := hk.stored (⟨w, []⟩, .leaf l) (by rw [ht]; simp)
    exact gives_bind (gives_load_node hag) fun s1 _ => gives_pure _ _
  | node w ch =>
    rw [ht] at hv
    obtain rfl := Option.some.inj hv
    have hag := hk.stored (⟨w, []⟩, Tree.record ch) (by rw [ht]; simp)
    exact gives_bind (gives_load_node hag) fun s1 _ => gives_pure _ _

theorem Consistent.gives_checkVersion (h : Consistent H s) (hc : H v = some c) :
    Gives (checkVersion v) s (.ok ()) := by
  unfold checkVersion
  refine gives_bind ⟨s, rfl, Same.refl s⟩ fun s1 hs1 => ?_
  rw [if_neg (UInt64.not_lt.mpr (h.upto v c hc))]
  exact gives_pure _ _

theorem Consistent.gives_root_at (h : Consistent H s) (hc : H v = some c) :
    Gives (root_at v) s (.ok c.tree.hash) := by
  unfold root_at
  refine gives_bind (h.gives_checkVersion hc) fun s1 hs1 => ?_
  exact ((h.of_same hs1).kept v c hc).gives_load_root_record

theorem Faithful.gives_at {α : Type} {f : Option Child → StoreM B α} {r : Except Fault α} (h : Faithful U H s)
    (hR : RootsApart s.ck U) (hc : H v = some c) (hf : ∀ s1, Same s s1 → Gives (f c.tree.ref) s1 r) :
    Gives (do
      checkVersion v
      let root ← load_root_record v
      let root_child ← load_root_child root v
      f root_child) s r := by
  refine gives_bind (h.consistent.gives_checkVersion hc) fun s1 hs1 => ?_
  have h1 := h.consistent.of_same hs1
  refine gives_bind (h1.kept v c hc).gives_load_root_record fun s2 hs2 => ?_
  have h2 := h1.of_same hs2
  have hs : Same s s2 := Same.trans _ _ _ hs1 hs2
  refine gives_bind ((h2.kept v c hc).gives_load_root_child fun hne => ?_) fun s3 hs3 => ?_
  · exact (h.consistent.kept v c hc).hash_ne hR (h.within v c hc) hne
  · exact hf s3 (Same.trans _ _ _ hs hs3)

theorem Faithful.gives_get_at (h : Faithful U H s) (hR : RootsApart s.ck U) (hc : H v = some c) (key : Bytes) :
    Gives (get_at v key) s (.ok (c.map (path_of s.ck key))) := by
  have hk := h.consistent.kept v c hc
  unfold get_at
  refine h.gives_at hR hc fun s1 hs1 => ?_
  refine gives_bind ⟨s1, rfl, Same.refl s1⟩ fun s2 hs2 => ?_
  have hs : Same s s2 := Same.trans _ _ _ hs1 hs2
  rw [hs1.ck]
  exact gives_walk hk.wf (hk.stored.of_same hs) ((h.holds hc _).of_same hs)

end

end MerkleStore

end EnclaveOs.Merkle
