import EnclaveOs.Merkle.Reclaim

/-!
# What a store keeps

The trees of the archive are in the table (`Sturdy`), and their values (`Legible`).
-/

open EnclaveOs.Lib

open Function (update update_apply update_of_ne update_self)

namespace EnclaveOs.Merkle

abbrev History := UInt64 → Option PathMap

def Tracks (H : Archive) (h : History) : Prop := ∀ v, (H v).map Version.map = h v

def Archive.drop (H : Archive) (h : UInt64) : Archive := fun v => if v < h then none else H v

theorem Archive.drop_eq_some {H : Archive} {h v : UInt64} {c : Version} :
    H.drop h v = some c ↔ h ≤ v ∧ H v = some c := by
  unfold Archive.drop
  by_cases hv : v < h
  · simp [hv, UInt64.not_le.mpr hv]
  · simp [hv, UInt64.not_lt.mp hv]

namespace MerkleStore

variable {B : Type} [KvBackend B] [Crypto]

section Atomic

variable [AtomicBackend B]

/-- The kept trees are there, and no stale record names a node of theirs. -/
structure Sturdy (H : Archive) (s : MerkleStore B) : Prop where
  consistent : Consistent H s
  indexed : Indexed nodeRefs H s

/-- The same for the values, which can be read. -/
structure Legible (U : Set (Hash × Bytes)) (H : Archive) (s : MerkleStore B) : Prop where
  readable : Readable H s
  within : Within H U
  indexed : Indexed Set.univ H s

def TidyLive (H : Archive) (s : MerkleStore B) : Prop := ∃ c, H s.version = some c ∧ Tidy c.tree s

variable {H : Archive} {s s' : MerkleStore B} {c : Version} {U : Set (Hash × Bytes)}

theorem Legible.faithful (h : Legible U H s) (hs : Sturdy H s) : Faithful U H s :=
  ⟨hs.consistent, h.readable, h.within⟩

theorem Sturdy.of_same (h : Sturdy H s) (hs : Same s s') : Sturdy H s' :=
  ⟨h.consistent.of_same hs, h.indexed.of_same hs⟩

theorem Legible.of_same (h : Legible U H s) (hs : Same s s') : Legible U H s' :=
  ⟨h.readable.of_same hs, h.within, h.indexed.of_same hs⟩

theorem TidyLive.of_same (h : TidyLive H s) (hs : Same s s') : TidyLive H s' := by
  obtain ⟨c, hc, ht⟩ := h
  exact ⟨c, by rw [hs.version]; exact hc, ht.of_same hs⟩

/-! ## Pruning -/

section

variable {K : Set Ref} {h : UInt64} {b : B}

theorem Indexed.shaped (hi : Indexed K H s) : Shaped s.table := by
  intro k hk
  obtain ⟨since, r, he, -⟩ := hi.shape k hk
  exact ⟨since, r, he⟩

theorem Indexed.spares (hi : Indexed K H s) (hrec : Reclaims h s.table (AtomicBackend.table b)) {v : UInt64}
    (hv : H.drop h v = some c) {r : Ref} (hr : r ∈ c.tree.refs []) (hK : r ∈ K) :
    AtomicBackend.table b r.key = s.table r.key := by
  obtain ⟨hle, hc⟩ := Archive.drop_eq_some.mp hv
  refine hrec.spares_ref fun since hs => ?_
  by_contra hne
  exact hi.unused since r.key hne v c hc (UInt64.le_trans hs hle) r hr hK rfl

theorem Indexed.pruned (hi : Indexed K H s) (hrec : Reclaims h s.table (AtomicBackend.table b)) :
    Indexed K (H.drop h) { s with backend := b, cache := s.cache.clear } := by
  have hsub : ∀ k, AtomicBackend.table b k ≠ none → s.table k ≠ none := by
    intro k hk
    rcases hrec.taken k with he | ⟨hnone, -⟩
    · rw [← he]
      exact hk
    · exact absurd hnone hk
  refine ⟨fun k hk => hi.shape k (hsub _ hk), fun since target hk v c hv => ?_⟩
  exact hi.unused since target (hsub _ hk) v c (Archive.drop_eq_some.mp hv).2

theorem Sturdy.pruned (hs : Sturdy H s) (hle : h ≤ s.version)
    (hrec : Reclaims h s.table (AtomicBackend.table b)) :
    Sturdy (H.drop h) { s with backend := b, cache := s.cache.clear } := by
  obtain ⟨c, hc, hchild, hroot⟩ := hs.consistent.live
  refine ⟨⟨⟨c, Archive.drop_eq_some.mpr ⟨hle, hc⟩, hchild, hroot⟩, fun v c hv => ?_, fun v c hv => ?_⟩,
    hs.indexed.pruned hrec⟩
  · exact hs.consistent.upto v c (Archive.drop_eq_some.mp hv).2
  obtain ⟨hv', hc⟩ := Archive.drop_eq_some.mp hv
  refine (hs.consistent.kept v c hc).keep rfl ?_ (fun x hx => ?_) fun x hx m hm => ?_
  · exact hrec.spares_root hs.indexed.shaped hv'
  · exact hs.indexed.spares hrec hv (r := .node x.1) ⟨x.2, hx⟩ ⟨x.1, rfl⟩
  · simp at hm

theorem Legible.pruned (hl : Legible U H s) (hs : Sturdy H s)
    (hrec : Reclaims h s.table (AtomicBackend.table b)) :
    Legible U (H.drop h) { s with backend := b, cache := s.cache.clear } := by
  refine ⟨fun v c hv p l x hf hx => ?_, fun v c hv => ?_, hl.indexed.pruned hrec⟩
  · obtain ⟨-, hc⟩ := Archive.drop_eq_some.mp hv
    obtain ⟨ct, htab, hrest⟩ := hl.readable v c hc p l x hf hx
    have hp := Tree.find_path hf
    subst hp
    have hmem := (Tree.mem_leaf_iff (hs.consistent.kept v c hc).wf l).mpr ⟨under_nil _, hf⟩
    refine ⟨ct, ?_, hrest⟩
    rw [← htab]
    exact hl.indexed.spares hrec hv (r := .value l) hmem trivial
  · exact hl.within v c (Archive.drop_eq_some.mp hv).2

end

theorem TidyLive.pruned {h : UInt64} {b : B} (ht : TidyLive H s) (hs : Sturdy H s) (hle : h ≤ s.version)
    (hrec : Reclaims h s.table (AtomicBackend.table b)) :
    TidyLive (H.drop h) { s with backend := b, cache := s.cache.clear } := by
  obtain ⟨c, hc, htidy⟩ := ht
  have hplain : ∀ since target, s.table (stale_record_key since target) ≠ none → target.head? ≠ some REC_STALE := by
    intro since target hin
    obtain ⟨since', r, he⟩ := hs.indexed.shaped _ hin
    rw [(stale_record_key_inj he).2]
    exact (Ref.key_head r).1
  refine ⟨c, Archive.drop_eq_some.mpr ⟨hle, hc⟩, ?_, fun k hk => ?_⟩
  · have hkeep : AtomicBackend.table b checkpoint_record_key = s.table checkpoint_record_key := by
      refine hrec.spares (by simp [REC_STALE, REC_CHECKPOINT]) (fun hin => ?_) fun since _ => ?_
      · obtain ⟨rest, he, -⟩ := inRange_cons.mp hin
        exact (tag_ne he).elim
      · by_contra hne
        obtain ⟨since', r, he⟩ := hs.indexed.shaped _ hne
        have hkey := congrArg List.head? (stale_record_key_inj he).2
        cases r <;> simp [Ref.key, REC_NODE, REC_VALUE, REC_CHECKPOINT] at hkey
    exact fun hnone => htidy.checkpoint (hkeep.symm.trans hnone)
  · have hk' : AtomicBackend.table b k ≠ none := hk
    rcases hrec.taken k with he | ⟨hnone, -⟩
    · rw [he] at hk'
      rcases htidy.covered k hk' with hr | ⟨since, hin⟩ | hrest
      · exact .inl hr
      · -- The entry that names the record is still there: it goes only together with the record.
        refine .inr (.inl ⟨since, fun hgone => ?_⟩)
        rcases hrec.taken (stale_record_key since k) with hsame | ⟨-, hdoom⟩
        · exact hin (hsame.symm.trans hgone)
        have hle' : since ≤ h := by
          rcases hdoom with ⟨since', target, hs', hin', heq | heq⟩ | ⟨rest, heq, -⟩
          · rw [(stale_record_key_inj heq).1]
            exact hs'
          · exact absurd (by rw [← heq]; rfl) (hplain since' target hin')
          · exact (tag_ne heq).elim
        exact hk (hrec.targets hplain since k hle' hin hgone)
      · exact .inr (.inr hrest)
    · exact absurd hnone hk

/-! ## Commits -/

section

variable {entropy : Entropy} {d : Std.TreeMap Hash (Option Bytes)} {t' : Tree} {acc : CommitAcc} {ckpt : Bytes}

theorem Sturdy.committed (hs : Sturdy H s) (hc : H s.version = some c) (hm : Moved s s' (s.version + 1) t')
    (hw : Written s entropy d c.tree t' acc ckpt s'.table) :
    Sturdy (Archive.extend H (s.version + 1) ⟨t', patched c.map d⟩) s' :=
  ⟨hs.consistent.committed hc hm hw, hs.indexed.committed hs.consistent hc _ hm hw
    (keysApart_nodes (hs.consistent.kept _ c hc).wf hw.updated.wf)⟩

theorem Legible.committed (hl : Legible U H s) (hs : Sturdy H s) (hc : H s.version = some c)
    (hm : Moved s s' (s.version + 1) t') (hw : Written s entropy d c.tree t' acc ckpt s'.table)
    (hU : ValuesApart s.ck U) (hd : ∀ p x, (p, some x) ∈ d.toList → (p, x) ∈ U) :
    Legible U (Archive.extend H (s.version + 1) ⟨t', patched c.map d⟩) s' := by
  have hk := hs.consistent.kept _ c hc
  have hpatched := patched_mem (hl.within _ c hc) hd
  have hcases : ∀ {v : UInt64} {c' : Version},
      Archive.extend H (s.version + 1) ⟨t', patched c.map d⟩ v = some c' → c' = ⟨t', patched c.map d⟩ ∨ H v = some c' := by
    intro v c' hv
    unfold Archive.extend at hv
    rw [update_apply] at hv
    split at hv
    · exact .inl (Option.some.inj hv).symm
    · exact .inr hv
  refine ⟨fun v c' hv p l x hf hx => ?_, fun v c' hv => ?_, ?_⟩
  · rcases hcases hv with rfl | hold
    · exact hl.readable.new_tree hs.consistent hc hm.ck hm.cipher hw hU (hl.within _ c hc) hpatched hf hx
    · exact hl.readable.old hs.consistent hm.ck hm.cipher hw v c' hold p l x hf hx
  · rcases hcases hv with rfl | hold
    · exact hpatched
    · exact hl.within v c' hold
  · exact hl.indexed.committed hs.consistent hc _ hm hw (keysApart_all hU hk.wf hw.updated.wf hk.commits
      (hk.commits.patched hw.updated) (hl.within _ c hc) hpatched)

theorem Sturdy.unchanged (hs : Sturdy H s) (hc : H s.version = some c) (hsame : Same s s')
    (hup : Updated (s.version + 1) [] (updatesOf s.ck d.toList) c.tree c.tree) :
    Sturdy (Archive.extend H s.version ⟨c.tree, patched c.map d⟩) s' := by
  refine ⟨hs.consistent.unchanged hc hsame hup, (hs.indexed.mono fun v c' hv => ?_).of_same hsame⟩
  unfold Archive.extend at hv
  rw [update_apply] at hv
  split at hv
  · rename_i he
    rw [he, ← Option.some.inj hv]
    exact ⟨c, hc, rfl⟩
  · exact ⟨c', hv, rfl⟩

theorem Legible.unchanged (hl : Legible U H s) (hs : Sturdy H s) (hc : H s.version = some c) (hsame : Same s s')
    (hup : Updated (s.version + 1) [] (updatesOf s.ck d.toList) c.tree c.tree)
    (hU : ValuesApart s.ck U) (hd : ∀ p x, (p, some x) ∈ d.toList → (p, x) ∈ U) :
    Legible U (Archive.extend H s.version ⟨c.tree, patched c.map d⟩) s' := by
  have hk := hs.consistent.kept _ c hc
  have hmap : patched c.map d = c.map := hk.commits.unique hU (hk.commits.patched hup) (hl.within _ c hc)
    (patched_mem (hl.within _ c hc) hd)
  rw [hmap, show Archive.extend H s.version c = H from Function.update_eq_self_iff.mpr hc.symm]
  exact hl.of_same hsame

end

end Atomic

section Honest

variable [HonestBackend B] {H : Archive} {s : MerkleStore B} {c : Version}

def recordBatch (b : Batch) (s : MerkleStore B) (h : History) : History :=
  match (b.run.exec s).1 with
  | .ok (_, v) => update h v (some (overlay ((h s.version).getD fun _ => none) (b.updates s.ck)))
  | .error _ => h

theorem Sturdy.batch (hs : Sturdy H s) {h : History} (ht : Tracks H h) (b : Batch) :
    ∃ H', Sturdy H' (b.step s) ∧ Tracks H' (recordBatch b s h) ∧
      (∀ U, ValuesApart s.ck U → (∀ p x, (p, some x) ∈ b.updates s.ck → (p, x) ∈ U) → Legible U H s →
        Legible U H' (b.step s)) ∧
      (TidyLive H s → TidyLive H' (b.step s)) := by
  obtain ⟨c, hc, hchild, -⟩ := hs.consistent.live
  have ho := b.outcome (hs.consistent.kept _ c hc).toGrown hchild
  have hlive : (h s.version).getD (fun _ => none) = c.map := by
    rw [← ht s.version, hc]
    rfl
  have hmem : ∀ {U : Set (Hash × Bytes)}, (∀ p x, (p, some x) ∈ b.updates s.ck → (p, x) ∈ U) →
      ∀ p x, (p, some x) ∈ (dedup (b.updates s.ck)).toList → (p, x) ∈ U := fun hU p x hp => hU p x (mem_dedup hp)
  have htrack : ∀ v t, Tracks (Archive.extend H v ⟨t, patched c.map (dedup (b.updates s.ck))⟩)
      (update h v (some (overlay ((h s.version).getD fun _ => none) (b.updates s.ck)))) := by
    intro v t w
    rw [hlive, ← patched_dedup]
    unfold Archive.extend
    by_cases hw : w = v
    · subst hw
      simp
    · rw [update_of_ne hw, update_of_ne hw]
      exact ht w
  unfold recordBatch
  rcases hrun : b.run.exec s with ⟨r, s'⟩
  rw [show b.step s = s' by unfold Batch.step; rw [hrun]] at ho ⊢
  rw [hrun] at ho
  cases ho with
  | failed why hsame =>
    exact ⟨H, hs.of_same hsame, ht, fun U _ _ hl => hl.of_same hsame, fun htidy => htidy.of_same hsame⟩
  | lost why hfrozen hw =>
    obtain ⟨b', ops, hno⟩ := why
    exact absurd (HonestBackend.write_ok b' ops) hno
  | unchanged hsame hup =>
    refine ⟨_, hs.unchanged hc hsame hup, htrack _ _, fun U hU hin hl => ?_, fun htidy => ?_⟩
    · exact hl.unchanged hs hc hsame hup hU (hmem hin)
    obtain ⟨c', hc', htidy⟩ := htidy
    obtain rfl : c' = c := Option.some.inj (hc'.symm.trans hc)
    refine ⟨⟨c'.tree, patched c'.map (dedup (b.updates s.ck))⟩, ?_, htidy.of_same hsame⟩
    rw [hsame.version]
    exact update_self ..
  | committed hm hw =>
    rename_i t' acc ckpt
    refine ⟨_, hs.committed hc hm hw, htrack _ _, fun U hU hin hl => ?_, fun htidy => ?_⟩
    · exact hl.committed hs hc hm hw hU (hmem hin)
    obtain ⟨c', hc', htidy⟩ := htidy
    obtain rfl : c' = c := Option.some.inj (hc'.symm.trans hc)
    refine ⟨⟨t', patched c'.map (dedup (b.updates s.ck))⟩, ?_, htidy.committed hm hw⟩
    rw [hm.version]
    exact update_self ..

end Honest

end MerkleStore

end EnclaveOs.Merkle
