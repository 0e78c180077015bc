import EnclaveOs.Merkle.History

/-!
# The stale index

An entry never names a record of the versions from its own on (`Indexed`), and nothing is left out (`Tidy`).
-/

open EnclaveOs.Lib

namespace EnclaveOs.Merkle

def Ref.Upto (v : UInt64) : Ref → Prop
  | .node nk => nk.pfx.length ≤ 64 ∧ nk.version ≤ v
  | .value l => l.value_version ≤ v

theorem Ref.Upto.mono {v w : UInt64} {r : Ref} (h : r.Upto v) (hvw : v ≤ w) : r.Upto w := by
  cases r with
  | node nk => exact ⟨h.1, UInt64.le_trans h.2 hvw⟩
  | value l => exact UInt64.le_trans (show l.value_version ≤ v from h) hvw

theorem Ref.Upto.of_key {v : UInt64} {r r' : Ref} (h : r'.Upto v) (hlen : ∀ nk, r = .node nk → nk.pfx.length ≤ 64)
    (hkey : r.key = r'.key) : r.Upto v := by
  cases r with
  | node nk =>
    cases r' with
    | node nk' =>
      obtain rfl := node_record_key_inj (hlen nk rfl) h.1 hkey
      exact h
    | value l => exact (tag_ne hkey).elim
  | value l =>
    cases r' with
    | node nk => exact (tag_ne hkey).elim
    | value l' =>
      have hv : l'.value_version ≤ v := h
      rw [← (value_record_key_inj hkey).2] at hv
      exact hv

def nodeRefs : Set Ref := {r | ∃ nk, r = .node nk}

/-- Keys of `A` and of `B`, of records of `K`, name different records. -/
def KeysApart (K A B : Set Ref) : Prop := ∀ r ∈ A, ∀ r' ∈ B, r' ∈ K → r.key = r'.key → r = r'

namespace MerkleStore

section

variable [Crypto]

theorem keysApart_nodes {t t' : Tree} (h : t.WF []) (h' : t'.WF []) :
    KeysApart nodeRefs (t.refs []) (t'.refs []) := by
  rintro r hr _ hr' ⟨nk', rfl⟩ hkey
  cases r with
  | node nk =>
    obtain ⟨n, hn⟩ := hr
    obtain ⟨n', hn'⟩ := hr'
    exact congrArg Ref.node (node_record_key_inj (h.pfx_le hn) (h'.pfx_le hn') hkey)
  | value l => exact (tag_ne hkey).elim

theorem keysApart_all {ck : Key} {U : Set (Hash × Bytes)} {t t' : Tree} {M M' : PathMap} (hU : ValuesApart ck U)
    (h : t.WF []) (h' : t'.WF []) (hc : Commits ck t M) (hc' : Commits ck t' M')
    (hM : ∀ p x, M p = some x → (p, x) ∈ U) (hM' : ∀ p x, M' p = some x → (p, x) ∈ U) :
    KeysApart Set.univ (t.refs []) (t'.refs []) := by
  intro r hr r' hr' _ hkey
  cases r' with
  | node nk => exact keysApart_nodes h h' r hr _ hr' ⟨nk, rfl⟩ hkey
  | value l' =>
    cases r with
    | node nk => exact (tag_ne hkey).elim
    | value l =>
      obtain ⟨hvh, hvv⟩ := value_record_key_inj hkey
      have hx := hc l.path
      have hy := hc' l'.path
      rw [show t.find l.path 0 = some l from ((Tree.mem_leaf_iff h l).mp hr).2] at hx
      rw [show t'.find l'.path 0 = some l' from ((Tree.mem_leaf_iff h' l').mp hr').2] at hy
      obtain ⟨x, hx, hxv⟩ := Option.map_eq_some_iff.mp hx.symm
      obtain ⟨y, hy, hyv⟩ := Option.map_eq_some_iff.mp hy.symm
      have hpath := hU (hM _ _ hx) (hM' _ _ hy) ((hxv.trans hvh).trans hyv.symm)
      cases l
      cases l'
      simp_all

end

variable {B : Type} [KvBackend B] [AtomicBackend B] [Crypto]

theorem Grown.ref_upto {s : MerkleStore B} {v : UInt64} {t : Tree} (h : Grown s v t) {r : Ref} (hr : r ∈ t.refs []) :
    r.Upto v := by
  cases r with
  | node nk =>
    obtain ⟨n, hn⟩ := hr
    exact ⟨h.wf.pfx_le hn, (h.upto _ hn).1⟩
  | value l =>
    obtain ⟨nk, hn⟩ := hr
    exact (h.upto _ hn).2 l rfl

/-! ## No entry names what is still needed -/

/-- A stale record names nothing that a version since then still refers to. -/
structure Indexed (K : Set Ref) (H : Archive) (s : MerkleStore B) : Prop where
  shape : ∀ k, s.table (REC_STALE :: k) ≠ none →
    ∃ since r, REC_STALE :: k = stale_record_key since (Ref.key r) ∧ since ≤ s.version ∧ r.Upto s.version
  unused : ∀ since target, s.table (stale_record_key since target) ≠ none → ∀ v c, H v = some c → since ≤ v →
    ∀ r ∈ c.tree.refs [], r ∈ K → r.key ≠ target

section

variable {K : Set Ref} {H H' : Archive} {s s' : MerkleStore B} {entropy : Entropy}
  {d : Std.TreeMap Hash (Option Bytes)} {t' : Tree} {acc : CommitAcc} {ckpt : Bytes} {c : Version}

theorem Indexed.of_same (h : Indexed K H s) (hs : Same s s') : Indexed K H s' := by
  refine ⟨fun k hk => ?_, fun since target hk => ?_⟩
  · rw [hs.table] at hk
    rw [hs.version]
    exact h.shape k hk
  · rw [hs.table] at hk
    exact h.unused since target hk

theorem Indexed.mono (h : Indexed K H s)
    (hle : ∀ v c', H' v = some c' → ∃ c, H v = some c ∧ c.tree = c'.tree) : Indexed K H' s := by
  refine ⟨h.shape, fun since target hk v c' hv hs => ?_⟩
  obtain ⟨c, hc, ht⟩ := hle v c' hv
  rw [← ht]
  exact h.unused since target hk v c hc hs

theorem Written.ref_cases (hw : Written s entropy d c.tree t' acc ckpt s'.table) (hk : Kept s s.version c) {r : Ref}
    (hr : r ∈ t'.refs []) : (∀ v, v ≤ s.version → ¬ r.Upto v) ∨ r ∈ c.tree.refs [] := by
  have hnew : ∀ v, v ≤ s.version → ¬ s.version + 1 ≤ v :=
    fun v hv hle => UInt64.not_le.mpr (lt_next_of_le hw.next hv) hle
  cases r with
  | node nk =>
    obtain ⟨n, hn⟩ := hr
    rcases hw.updated.nodes _ hn with hv | hold
    · refine .inl fun v hle hup => hnew v hle ?_
      rw [← hv]
      exact hup.2
    · exact .inr ⟨n, hold⟩
  | value l =>
    rcases hw.updated.value_cases hk.wf hr with hv | hold
    · refine .inl fun v hle hup => hnew v hle ?_
      rw [← hv]
      exact hup
    · exact .inr hold

theorem Indexed.committed (h : Indexed K H s) (hcon : Consistent H s) (hc : H s.version = some c) (M : PathMap)
    (hm : Moved s s' (s.version + 1) t') (hw : Written s entropy d c.tree t' acc ckpt s'.table)
    (hapart : KeysApart K (c.tree.refs []) (t'.refs [])) :
    Indexed K (Archive.extend H (s.version + 1) ⟨t', M⟩) s' := by
  have hk := hcon.kept _ c hc
  have hlt := lt_next hw.next
  refine ⟨fun k hkey => ?_, fun since target hkey v c' hv hsince r hr hrK he => ?_⟩
  · rw [hm.version]
    rcases hw.landed.stale_cases k with hold | ⟨r, hr, he⟩
    · rw [hold] at hkey
      obtain ⟨since, r, he, hs, hr⟩ := h.shape k hkey
      exact ⟨since, r, he, UInt64.le_trans hs (UInt64.le_of_lt hlt), hr.mono (UInt64.le_of_lt hlt)⟩
    · exact ⟨s.version + 1, r, he, UInt64.le_refl _, (hk.toGrown.ref_upto hr.1).mono (UInt64.le_of_lt hlt)⟩
  rcases hw.landed.stale_cases (u64Be since ++ target) with hold | ⟨r0, hr0, hkeys⟩
  · have hkey' : s.table (stale_record_key since target) ≠ none := by
      have := hold ▸ hkey
      exact this
    obtain ⟨since', r', hkeys, hs', hr'⟩ := h.shape _ hkey'
    obtain ⟨rfl, ht⟩ := stale_record_key_inj hkeys
    unfold Archive.extend at hv
    by_cases hnew : v = s.version + 1
    · subst hnew
      rw [Function.update_self] at hv
      obtain rfl := Option.some.inj hv
      rcases hw.ref_cases hk hr with hup | hin
      · -- A record of this commit is not one that an old entry names.
        refine absurd (hr'.of_key (fun nk hnk => ?_) (he.trans ht)) (hup _ (UInt64.le_refl _))
        subst hnk
        obtain ⟨n, hn⟩ := hr
        exact hw.updated.wf.pfx_le hn
      · exact h.unused since target hkey' _ c hc hs' r hin hrK he
    · rw [Function.update_of_ne hnew] at hv
      exact h.unused since target hkey' v c' hv hsince r hr hrK he
  · obtain ⟨rfl, ht⟩ := stale_record_key_inj hkeys
    unfold Archive.extend at hv
    by_cases hnew : v = s.version + 1
    · subst hnew
      rw [Function.update_self] at hv
      obtain rfl := Option.some.inj hv
      have hsame := hapart r0 hr0.1 r hr hrK (he.trans ht).symm
      exact hr0.2 (hsame ▸ hr)
    · rw [Function.update_of_ne hnew] at hv
      exact absurd hsince (UInt64.not_le.mpr (lt_next_of_le hw.next (hcon.upto v c' hv)))

end

/-! ## Nothing is forgotten -/

/-- Every record is needed, has a stale entry, or is one of the few others. -/
structure Tidy (t : Tree) (s : MerkleStore B) : Prop where
  checkpoint : s.table checkpoint_record_key ≠ none
  covered : ∀ k, s.table k ≠ none → (∃ r ∈ t.refs [], r.key = k) ∨
    (∃ since, s.table (stale_record_key since k) ≠ none) ∨ k.head? = some REC_STALE ∨
    (∃ v, v ≤ s.version ∧ k = root_record_key v) ∨ k = checkpoint_record_key

section

variable {s s' : MerkleStore B} {t : Tree}

theorem Tidy.of_same (h : Tidy t s) (hs : Same s s') : Tidy t s' := by
  refine ⟨?_, fun k hk => ?_⟩
  · rw [hs.table]
    exact h.checkpoint
  · rw [hs.table] at hk ⊢
    rw [hs.version]
    exact h.covered k hk

theorem Tidy.committed {entropy : Entropy} {d : Std.TreeMap Hash (Option Bytes)} {t' : Tree} {acc : CommitAcc}
    {ckpt : Bytes} (h : Tidy t s) (hm : Moved s s' (s.version + 1) t')
    (hw : Written s entropy d t t' acc ckpt s'.table) : Tidy t' s' := by
  refine ⟨by rw [hw.landed.checkpoint]; simp, fun k hk => ?_⟩
  rw [hm.version]
  rcases hw.landed.other k with ⟨x, hx, rfl⟩ | ⟨vh, ct, hct, rfl⟩ | ⟨r, hr, rfl⟩ | rfl | rfl | hold
  · exact .inl ⟨.node x.1, ⟨x.2, hx.1⟩, rfl⟩
  · obtain ⟨nk, lf, pt, hlf, hv, rfl, -⟩ := hw.delta.value_of vh ct hct
    exact .inl ⟨.value lf, ⟨nk, hlf.1⟩, congrArg (value_record_key lf.vh) hv⟩
  · exact .inr (.inr (.inl rfl))
  · exact .inr (.inr (.inr (.inl ⟨_, UInt64.le_refl _, rfl⟩)))
  · exact .inr (.inr (.inr (.inr rfl)))
  · rw [hold] at hk
    rcases h.covered k hk with ⟨r, hr, rfl⟩ | ⟨since, hs⟩ | hhead | ⟨v, hv, rfl⟩ | rfl
    · -- A record that the old tree needed: still needed, or stale from now on.
      by_cases hr' : r ∈ t'.refs []
      · exact .inl ⟨r, hr', rfl⟩
      refine .inr (.inl ⟨s.version + 1, ?_⟩)
      rw [hw.landed.stale r ⟨hr, hr'⟩]
      simp
    · refine .inr (.inl ⟨since, ?_⟩)
      rcases hw.landed.stale_cases (stale_record_key since k).tail with hsame | ⟨r, hr, he⟩
      · exact ne_of_eq_of_ne hsame hs
      · exact ne_of_eq_of_ne ((congrArg _ he).trans (hw.landed.stale r hr)) (by simp)
    · exact .inr (.inr (.inl hhead))
    · exact .inr (.inr (.inr (.inl ⟨v, UInt64.le_of_lt (lt_next_of_le hw.next hv), rfl⟩)))
    · exact .inr (.inr (.inr (.inr rfl)))

end

section

variable {T : Table} {ck sk : Key} {s : MerkleStore B}

theorem Created.other (h : Created T ck sk s) {k : Bytes} (hroot : k ≠ root_record_key 0)
    (hck : k ≠ checkpoint_record_key) : s.table k = T k := by
  obtain ⟨ckpt, htab⟩ := h.table
  rw [htab]
  refine applyOps_other _ _ _ (fun v hv => ?_) (by simp)
  simp only [List.mem_cons, KvBatchOp.put.injEq, List.not_mem_nil, or_false] at hv
  rcases hv with ⟨hk, -⟩ | ⟨hk, -⟩
  · exact hroot hk
  · exact hck hk

theorem Created.indexed (h : Created T ck sk s) (hT : ∀ k, T (REC_STALE :: k) = none) (K : Set Ref) (H : Archive) :
    Indexed K H s := by
  have hnone : ∀ k, s.table (REC_STALE :: k) = none := by
    intro k
    rw [h.other (ne_of_head (by simp [REC_STALE, REC_ROOT])) (ne_of_head (by simp [REC_STALE, REC_CHECKPOINT]))]
    exact hT k
  exact ⟨fun k hk => absurd (hnone k) hk, fun since target hk => absurd (hnone _) hk⟩

theorem Created.tidy (h : Created T ck sk s) (hT : ∀ k, T k = none) : Tidy .empty s := by
  refine ⟨?_, fun k hk => ?_⟩
  · obtain ⟨ckpt, htab⟩ := h.table
    rw [htab]
    simp [applyOps, KvBatchOp.apply]
  by_cases hroot : k = root_record_key 0
  · refine .inr (.inr (.inr (.inl ⟨0, ?_, hroot⟩)))
    rw [h.version]
    exact UInt64.le_refl _
  · by_cases hck : k = checkpoint_record_key
    · exact .inr (.inr (.inr (.inr hck)))
    · rw [h.other hroot hck] at hk
      exact absurd (hT k) hk

end

end MerkleStore

end EnclaveOs.Merkle
