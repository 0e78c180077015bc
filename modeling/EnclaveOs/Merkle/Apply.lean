import EnclaveOs.Merkle.Build
import EnclaveOs.Merkle.Read

/-! # Folding updates into a tree -/

open EnclaveOs.Lib
open Function (update update_eq_self update_of_ne)

namespace EnclaveOs.Merkle

/-- An equal value keeps its record. -/
def updLeaf (new : UInt64) (p : Hash) (u : Option (Option Hash)) (old : Option LeafNode) : Option LeafNode :=
  match u with
  | none => old
  | some none => none
  | some (some h) =>
    match old with
    | some l => some ⟨p, h, if l.vh = h then l.value_version else new⟩
    | none => some ⟨p, h, new⟩

namespace MerkleStore

/-! ## The lists and maps of a batch -/

variable {new : UInt64} {p : Hash} {l : LeafNode} {updates : List Update}

theorem updLeaf_cases {u : Option (Option Hash)} {old : Option LeafNode}
    (hold : ∀ l, old = some l → l.path = p) (h : updLeaf new p u old = some l) :
    l.value_version = new ∨ old = some l := by
  unfold updLeaf at h
  split at h
  · exact .inr h
  · simp at h
  rename_i hash
  split at h
  · rename_i l0
    have hl := Option.some.inj h
    by_cases hv : l0.vh = hash
    · rw [if_pos hv, ← hold l0 rfl, ← hv] at hl
      exact .inr (congrArg some hl)
    · rw [if_neg hv] at hl
      exact .inl (by rw [← hl])
  · exact .inl (by rw [← Option.some.inj h])

theorem rising_inserts (h : Rising updates) (new : UInt64) : Rising (inserts new updates) := by
  unfold Rising inserts
  rw [List.pairwise_filterMap]
  refine h.imp ?_
  intro a b hab x hx y hy
  obtain ⟨_, -, rfl⟩ := Option.map_eq_some_iff.mp hx
  obtain ⟨_, -, rfl⟩ := Option.map_eq_some_iff.mp hy
  exact hab

theorem mem_inserts {e : Hash × UInt64} :
    (p, e) ∈ inserts new updates ↔ ∃ h, (p, some h) ∈ updates ∧ e = (h, new) := by
  unfold inserts
  rw [List.mem_filterMap]
  constructor
  · rintro ⟨⟨q, u⟩, hx, he⟩
    obtain ⟨h, hu, he⟩ := Option.map_eq_some_iff.mp he
    simp only at hu he
    obtain ⟨rfl, rfl⟩ := Prod.mk.inj he
    rw [hu] at hx
    exact ⟨h, hx, rfl⟩
  · rintro ⟨h, hx, rfl⟩
    exact ⟨(p, some h), hx, rfl⟩

theorem lookup_inserts (h : Rising updates) (new : UInt64) (p : Hash) :
    ((inserts new updates).lookup p).map (pairLeaf p) = updLeaf new p (updates.lookup p) none := by
  have hmem : ∀ e, (inserts new updates).lookup p = some e ↔
      ∃ hash, updates.lookup p = some (some hash) ∧ e = (hash, new) := by
    intro e
    rw [lookup_eq_some (rising_inserts h new), mem_inserts]
    simp only [lookup_eq_some h]
  rcases hl : (inserts new updates).lookup p with _ | e
  · rcases hu : updates.lookup p with _ | u
    · rfl
    rcases u with _ | hash
    · rfl
    · rw [(hmem (hash, new)).mpr ⟨hash, hu, rfl⟩] at hl
      simp at hl
  · obtain ⟨hash, hu, rfl⟩ := (hmem e).mp hl
    rw [hu]
    rfl

theorem getElem?_foldl_merge (h : Rising updates) (new : UInt64) (l : LeafNode)
    (m : Std.TreeMap Hash (Hash × UInt64)) (p : Hash) :
    (updates.foldl (mergeUpdate new l) m)[p]? =
    match updates.lookup p with
    | none => m[p]?
    | some none => none
    | some (some h) => some (h, if p = l.path ∧ h = l.vh then l.value_version else new) := by
  induction updates generalizing m with
  | nil => rfl
  | cons x updates ih =>
    obtain ⟨q, u⟩ := x
    obtain ⟨hx, hrest⟩ := List.pairwise_cons.mp h
    rw [List.foldl_cons, ih hrest, List.lookup_cons]
    by_cases hp : p = q
    · subst hp
      have hnone : updates.lookup p = none := by
        rw [lookup_eq_none]
        intro y hy he
        have := hx y hy
        rw [he] at this
        simp at this
      rw [hnone]
      cases u <;> simp [mergeUpdate]
    · have hne : ¬ compare q p = .eq := fun he => hp (Std.LawfulEqOrd.eq_of_compare he).symm
      rw [beq_false_of_ne hp]
      cases u <;> simp [mergeUpdate, Std.TreeMap.getElem?_insert, Std.TreeMap.getElem?_erase, hne]

theorem getElem?_mergeLeaf (h : Rising updates) (new v : UInt64) (l : LeafNode) (d : Nat) (p : Hash) :
    ((mergeLeaf new l updates)[p]?).map (pairLeaf p) =
      updLeaf new p (updates.lookup p) ((Tree.leaf v l).find p d) := by
  unfold mergeLeaf
  rw [getElem?_foldl_merge h, Tree.find]
  rcases hu : updates.lookup p with _ | u
  · simp only [updLeaf, Std.TreeMap.getElem?_insert]
    by_cases hp : l.path = p
    · subst hp
      simp [pairLeaf]
    · have hne : ¬ compare l.path p = .eq := fun he => hp (Std.LawfulEqOrd.eq_of_compare he)
      simp [hne, hp]
  rcases u with _ | hash
  · rfl
  by_cases hp : l.path = p
  · subst hp
    by_cases hh : hash = l.vh
    · simp [updLeaf, pairLeaf, hh]
    · simp [updLeaf, pairLeaf, hh, Ne.symm hh]
  · simp [updLeaf, hp, pairLeaf, Ne.symm hp]

theorem lookup_toList {α : Type} (m : Std.TreeMap Hash α) (p : Hash) : m.toList.lookup p = m[p]? := by
  have hr : Rising m.toList := Std.TreeMap.ordered_keys_toList
  apply Option.ext
  intro e
  rw [lookup_eq_some hr, Std.TreeMap.mem_toList_iff_getElem?_eq_some]

theorem size_eq_one_iff {α : Type} (m : Std.TreeMap Hash α) (p : Hash) (a : α) :
    (m.size = 1 ∧ m[p]? = some a) ↔ ∀ q, m[q]? = if p = q then some a else none := by
  have hr : Rising m.toList := Std.TreeMap.ordered_keys_toList
  rw [← Std.TreeMap.length_toList]
  constructor
  · rintro ⟨hlen, hp⟩ q
    obtain ⟨x, hx⟩ := List.length_eq_one_iff.mp hlen
    have hin := Std.TreeMap.mem_toList_iff_getElem?_eq_some.mpr hp
    rw [hx, List.mem_singleton] at hin
    rw [← lookup_toList, hx, ← hin, List.lookup_cons]
    by_cases hq : p = q
    · subst hq; simp
    · simp [hq, beq_false_of_ne (Ne.symm hq)]
  · intro hall
    have hp : m[p]? = some a := by rw [hall p, if_pos rfl]
    refine ⟨?_, hp⟩
    have hone : ∀ x ∈ m.toList, x.1 = p := by
      intro x hx
      have hx' := Std.TreeMap.mem_toList_iff_getElem?_eq_some.mp (show (x.1, x.2) ∈ m.toList from hx)
      rw [hall x.1] at hx'
      split at hx'
      · rename_i h; exact h.symm
      · simp at hx'
    match hl : m.toList with
    | [] =>
      have := Std.TreeMap.mem_toList_iff_getElem?_eq_some.mpr hp
      simp [hl] at this
    | [x] => rfl
    | x :: y :: rest =>
      rw [hl] at hr hone
      have hlt := (List.pairwise_cons.mp hr).1 y (.head _)
      rw [hone x List.mem_cons_self, hone y (List.mem_cons_of_mem _ List.mem_cons_self)] at hlt
      simp at hlt

theorem mem_leafStale {merged : Std.TreeMap Hash (Hash × UInt64)} {k : Bytes} : k ∈ leafStale l merged ↔
      k = (Ref.value l).key ∧ ¬ ∃ vv, merged[l.path]? = some (l.vh, vv) := by
  unfold leafStale Ref.key
  split
  · rename_i vh vv hm
    by_cases hv : vh = l.vh <;> simp [hm, hv]
  · rename_i hm
    simp [hm]

theorem mem_mergeLeaf (hr : Rising updates) {e : Hash × UInt64} (h : (mergeLeaf new l updates)[p]? = some e) :
    (∃ hash, (p, some hash) ∈ updates) ∨ (p = l.path ∧ e = (l.vh, l.value_version)) := by
  unfold mergeLeaf at h
  rw [getElem?_foldl_merge hr] at h
  split at h
  · rw [Std.TreeMap.getElem?_insert] at h
    split at h
    · rename_i he
      exact .inr ⟨(Std.LawfulEqOrd.eq_of_compare he).symm, (Option.some.inj h).symm⟩
    · simp at h
  · simp at h
  · rename_i hash hl
    exact .inl ⟨hash, (lookup_eq_some hr).mp hl⟩

section

variable [Crypto]

/-- `t'` is `t` with the updates made under the new version; without a change it is `t` itself. -/
structure Updated (new : UInt64) (pre : List Nibble) (updates : List Update) (t t' : Tree) : Prop where
  wf : t'.WF pre
  find : ∀ p, t'.find p pre.length = updLeaf new p (updates.lookup p) (t.find p pre.length)
  nodes : ∀ x ∈ t'.nodes pre, x.1.version = new ∨ x ∈ t.nodes pre
  root : t' = t ∨ t' = .empty ∨ t'.version = some new
  same : (∀ p, Under pre p → t'.find p pre.length = t.find p pre.length) → t' = t

/-- Nothing in the tree has the new version yet. -/
def Older (new : UInt64) (pre : List Nibble) (t : Tree) : Prop :=
  ∀ x ∈ t.nodes pre, x.1.version ≠ new ∧ ∀ l, x.2 = .leaf l → l.value_version ≠ new

def newNodes (new : UInt64) (pre : List Nibble) (t : Tree) : Set (NodeKey × Node) :=
  {x | x ∈ t.nodes pre ∧ x.1.version = new}

variable {new v : UInt64} {pre : List Nibble} {t t' : Tree} {updates : List Update} {l : LeafNode}
  {acc : CommitAcc} {rem : Nat}

theorem Updated.refl (h : t.WF pre) : Updated new pre [] t t :=
  ⟨h, fun _ => rfl, fun _ hx => .inr hx, .inl rfl, fun _ => rfl⟩

theorem Older.child {c : Nibble → Tree}
    (h : Older new pre (.node v c)) (i : Nibble) : Older new (pre ++ [i]) (c i) :=
  fun x hx => h x (Tree.mem_nodes_node.mpr (.inr ⟨i, hx⟩))

theorem Older.newNodes_eq (h : Older new pre t) : newNodes new pre t = ∅ := by
  apply Set.eq_empty_of_forall_notMem
  rintro x ⟨hx, hv⟩
  exact (h x hx).1 hv

theorem Updated.ref_eq_iff
    (h : Updated new pre updates t t') (ho : Older new pre t) : t'.ref = t.ref ↔ t' = t := by
  constructor
  · intro hr
    rcases h.root with he | he | hv
    · exact he
    · rw [he] at hr ⊢
      exact (Tree.ref_eq_none.mp hr.symm).symm
    · rw [Tree.version_eq, hr, ← Tree.version_eq] at hv
      obtain ⟨n, hn⟩ := Tree.exists_root_record pre hv
      exact absurd rfl (ho _ hn).1
  · rintro rfl
    rfl

theorem Updated.value_cases
    (h : Updated new pre updates t t') (hwf : t.WF pre) (hl : Ref.value l ∈ t'.refs pre) :
    l.value_version = new ∨ Ref.value l ∈ t.refs pre := by
  obtain ⟨hu, hf⟩ := (Tree.mem_leaf_iff h.wf l).mp hl
  rw [h.find] at hf
  rcases updLeaf_cases (fun _ => Tree.find_path) hf with hv | hold
  · exact .inl hv
  · exact .inr ((Tree.mem_leaf_iff hwf l).mpr ⟨hu, hold⟩)

/-- The ciphertext of every value to insert is at hand. -/
def HasInsertCts (acc : CommitAcc) (updates : List Update) : Prop :=
  ∀ p h, (p, some h) ∈ updates → ∃ ct, acc.insert_cts[p]? = some ct

abbrev Applied (pre : List Nibble) (t t' : Tree) (acc acc' : CommitAcc) : Prop :=
  Adds (newNodes acc.new_version pre t') (t.refs pre \ t'.refs pre) acc acc'

theorem Applied.refl (ho : Older acc.new_version pre t) : Applied pre t t acc acc := by
  unfold Applied
  rw [ho.newNodes_eq, Set.sdiff_self]
  exact Adds.refl acc

/-! ## On nothing, and on a leaf -/

theorem Built.newNodes_eq {pairs : List Pair}
    (h : Built new pre pairs t) : newNodes new pre t = t.nodes pre := by
  ext x
  exact ⟨fun hx => hx.1, fun hx => ⟨hx, h.fresh x hx⟩⟩

theorem Built.root {pairs : List Pair} (h : Built new pre pairs t) : t = .empty ∨ t.version = some new := by
  rcases hv : t.version with _ | v
  · exact .inl (Tree.ref_eq_none.mp (by rw [Tree.version_eq] at hv; simpa using hv))
  · obtain ⟨n, hn⟩ := Tree.exists_root_record pre hv
    exact .inr (by rw [← h.fresh _ hn])

theorem value_kept_iff {v : UInt64} (hr : Rising updates) (hl : Under pre l.path) (hwf : t'.WF pre)
    (hfind : ∀ p, t'.find p pre.length = ((mergeLeaf new l updates)[p]?).map (pairLeaf p)) :
    Ref.value l ∈ t'.refs pre ↔ ∃ vv, (mergeLeaf new l updates)[l.path]? = some (l.vh, vv) := by
  have hm := getElem?_mergeLeaf hr new v l pre.length l.path
  rw [Tree.mem_refs_value, Tree.mem_leaf_iff hwf, hfind]
  constructor
  · rintro ⟨-, h⟩
    obtain ⟨e, he, hp⟩ := Option.map_eq_some_iff.mp h
    refine ⟨e.2, ?_⟩
    rw [he, ← hp]
    rfl
  · rintro ⟨vv, h⟩
    refine ⟨hl, ?_⟩
    -- With the same value hash the merge keeps the version of the record.
    rw [h] at hm ⊢
    rw [hm]
    simp only [Tree.find, if_true, Option.map_some] at hm ⊢
    unfold updLeaf at hm ⊢
    split at hm
    · rfl
    · simp at hm
    · rename_i hash _
      simp only [pairLeaf, Option.some.injEq, LeafNode.mk.injEq, true_and] at hm
      simp [← hm.1]

theorem applyLeaf_changed
    (hrem : pre.length + rem = 64) (hr : Rising updates) (hu : ∀ x ∈ updates, Under pre x.1)
    (hfree : Free pre acc) (hcts : HasInsertCts acc updates) (hwf : (Tree.leaf v l).WF pre)
    (ho : Older acc.new_version pre (.leaf v l)) (hsame : ¬ ((mergeLeaf acc.new_version l updates).size = 1 ∧
      (mergeLeaf acc.new_version l updates)[l.path]? = some (l.vh, l.value_version))) (r : Child) :
    ∃ t' acc', applyLeaf rem acc r ⟨v, pre⟩ l pre updates = .ok (t'.ref, acc') ∧
      Updated acc.new_version pre updates (.leaf v l) t' ∧ Applied pre (.leaf v l) t' acc acc' := by
  have hold := ho (⟨v, pre⟩, .leaf l) (by simp)
  have hunder : ∀ p e, (mergeLeaf acc.new_version l updates)[p]? = some e → Under pre p := by
    intro p e he
    rcases mem_mergeLeaf hr he with ⟨hash, hin⟩ | ⟨rfl, -⟩
    · exact hu (p, some hash) hin
    · exact hwf
  have hin : BuildInput pre
      { acc with stale := acc.stale ++ node_record_key ⟨v, pre⟩ :: leafStale l (mergeLeaf acc.new_version l updates) }
      (mergeLeaf acc.new_version l updates).toList := by
    refine ⟨Std.TreeMap.ordered_keys_toList, fun x hx => ?_, hfree, fun x hx hv => ?_⟩
    · exact hunder x.1 x.2 (Std.TreeMap.mem_toList_iff_getElem?_eq_some.mp hx)
    rcases mem_mergeLeaf hr (Std.TreeMap.mem_toList_iff_getElem?_eq_some.mp hx) with ⟨hash, hin⟩ | ⟨-, he⟩
    · exact hcts x.1 hash hin
    -- A leaf that stayed has an old value.
    rw [he] at hv
    exact absurd hv (hold.2 l rfl)
  obtain ⟨t', acc', hok, hb, hadds⟩ := build_from_pairs_spec rem pre hrem _ _ hin
  have hfind : ∀ p, t'.find p pre.length = ((mergeLeaf acc.new_version l updates)[p]?).map (pairLeaf p) := by
    intro p
    rw [hb.find, lookup_toList]
  refine ⟨t', acc', ?_, ⟨hb.wf, fun p => ?_, fun x hx => .inl (hb.fresh x hx), .inr hb.root, ?_⟩, ?_⟩
  · unfold applyLeaf
    rw [if_neg hsame]
    exact hok
  · rw [hfind, getElem?_mergeLeaf hr]
  · intro hall
    refine absurd ((size_eq_one_iff _ _ _).mpr fun q => ?_) hsame
    by_cases hq : Under pre q
    · have h := hall q hq
      rw [hfind, Tree.find] at h
      by_cases hp : l.path = q
      · subst hp
        rw [if_pos rfl] at h ⊢
        obtain ⟨e, he, hp⟩ := Option.map_eq_some_iff.mp h
        rw [he, ← hp]
        rfl
      · rw [if_neg hp] at h ⊢
        exact Option.map_eq_none_iff.mp h
    · have hne : l.path ≠ q := by
        rintro rfl
        exact hq hwf
      rw [if_neg hne, Option.eq_none_iff_forall_ne_some]
      exact fun e he => hq (hunder q e he)
  · have hstale : ∀ k, k ∈ node_record_key ⟨v, pre⟩ :: leafStale l (mergeLeaf acc.new_version l updates) ↔
        ∃ r ∈ (Tree.leaf v l).refs pre \ t'.refs pre, r.key = k := by
      have hnode : Ref.node ⟨v, pre⟩ ∉ t'.refs pre := by
        rintro ⟨n, hn⟩
        exact hold.1 (hb.fresh (⟨v, pre⟩, n) hn)
      intro k
      rw [List.mem_cons, mem_leafStale, ← value_kept_iff (v := v) hr hwf hb.wf hfind]
      constructor
      · rintro (rfl | ⟨rfl, hno⟩)
        · exact ⟨.node ⟨v, pre⟩, ⟨by simp, hnode⟩, rfl⟩
        · exact ⟨.value l, ⟨by simp, hno⟩, rfl⟩
      · rintro ⟨r, ⟨hr, hno⟩, rfl⟩
        rcases Tree.mem_refs_leaf.mp hr with rfl | rfl
        · exact .inl rfl
        · exact .inr ⟨rfl, hno⟩
    have h := (Adds.stale_only hstale).trans hadds
    rw [Set.empty_union, Set.union_empty] at h
    unfold Applied
    rw [hb.newNodes_eq]
    exact h

end

/-! ## On an internal node -/

variable {B : Type} [KvBackend B] [AtomicBackend B] [Crypto] {pre : List Nibble} {t : Tree}

/-- What `apply_subtree` finds at a place. -/
structure ApplyInput (s : MerkleStore B) (pre : List Nibble) (t : Tree) (acc : CommitAcc)
    (updates : List Update) : Prop where
  wf : t.WF pre
  stored : Stored s pre t
  older : Older acc.new_version pre t
  rising : Rising updates
  under : ∀ x ∈ updates, Under pre x.1
  free : Free pre acc
  cts : HasInsertCts acc updates

/-- What `apply_subtree` gives there: a tree, and the records that it adds and makes stale. -/
def ApplyOutput (s : MerkleStore B) (pre : List Nibble) (t : Tree) (acc : CommitAcc) (updates : List Update)
    (m : StoreM B (Option Child × CommitAcc)) : Prop :=
  ∃ t' acc', Gives m s (.ok (t'.ref, acc')) ∧ Updated acc.new_version pre updates t t' ∧ Applied pre t t' acc acc'

theorem ApplyInput.later {s s' : MerkleStore B} {acc acc' : CommitAcc}
    {updates : List Update} {N : Set (NodeKey × Node)} {R : Set Ref} (h : ApplyInput s pre t acc updates)
    (hs : Same s s') (ha : Adds N R acc acc') (hN : ∀ x ∈ N, ¬ pre <+: x.1.pfx) :
    ApplyInput s' pre t acc' updates := by
  refine ⟨h.wf, h.stored.of_same hs, ?_, h.rising, h.under, h.free.adds ha hN, ?_⟩
  · rw [ha.new_version]
    exact h.older
  · unfold HasInsertCts
    rw [ha.insert_cts]
    exact h.cts

variable {apply : CommitAcc → Option Child → List Nibble → List Update → StoreM B (Option Child × CommitAcc)}

theorem gives_applyGroup {s : MerkleStore B} {c : Nibble → Tree} {acc acc1 : CommitAcc} {i : Nibble}
    {g : List Update} (changed : Bool) (hin : ApplyInput s (pre ++ [i]) (c i) acc g)
    (hg : Gives (apply acc (c i).ref (pre ++ [i]) g) s (.ok (t.ref, acc1)))
    (hup : Updated acc.new_version (pre ++ [i]) g (c i) t) :
    ∃ changed1 : Bool, (changed1 = true ↔ changed = true ∨ t ≠ c i) ∧
      Gives (applyGroup apply pre (fun j => (c j).ref, changed, acc) (i, g)) s
        (.ok (fun j => (update c i t j).ref, changed1, acc1)) := by
  by_cases ht : t = c i
  · refine ⟨changed, by simp [ht], ?_⟩
    unfold applyGroup
    refine gives_bind hg fun s1 _ => ?_
    rw [ht, update_eq_self]
    simp only [ne_eq, not_true_eq_false, if_false]
    exact gives_pure _ _
  refine ⟨true, by simp [ht], ?_⟩
  have hne : t.ref ≠ (c i).ref := fun he => ht ((hup.ref_eq_iff hin.older).mp he)
  have hfun : (fun j => (update c i t j).ref) = update (fun j => (c j).ref) i t.ref := by
    funext j
    by_cases hj : j = i
    · subst hj; simp
    · simp [hj]
  unfold applyGroup
  refine gives_bind hg fun s1 _ => ?_
  rw [hfun]
  simp only [ne_eq, hne, not_false_eq_true, if_true]
  exact gives_pure _ _

variable (pre apply) in
/-- The recursive call is right at the children, the hypothesis of the induction. -/
def AppliesBelow : Prop := ∀ i s t acc g, ApplyInput s (pre ++ [i]) t acc g →
  ApplyOutput s (pre ++ [i]) t acc g (apply acc t.ref (pre ++ [i]) g)

theorem apply_groups (happly : AppliesBelow pre apply)
    (gs : List (Nibble × List Update)) (hnodup : (gs.map Prod.fst).Nodup) (s : MerkleStore B)
    (c : Nibble → Tree) (changed : Bool) (acc : CommitAcc)
    (hin : ∀ x ∈ gs, ApplyInput s (pre ++ [x.1]) (c x.1) acc x.2) :
    ∃ (c' : Nibble → Tree) (changed' : Bool) (acc' : CommitAcc),
      Gives (gs.foldlM (applyGroup apply pre) (fun i => (c i).ref, changed, acc)) s
        (.ok (fun i => (c' i).ref, changed', acc')) ∧
      (changed' = true ↔ changed = true ∨ c' ≠ c) ∧
      (∀ i, i ∉ gs.map Prod.fst → c' i = c i) ∧
      (∀ x ∈ gs, Updated acc.new_version (pre ++ [x.1]) x.2 (c x.1) (c' x.1)) ∧
      Adds {y | ∃ i ∈ gs.map Prod.fst, y ∈ newNodes acc.new_version (pre ++ [i]) (c' i)}
        {r | ∃ i ∈ gs.map Prod.fst, r ∈ (c i).refs (pre ++ [i]) \ (c' i).refs (pre ++ [i])} acc acc' := by
  induction gs generalizing s c changed acc with
  | nil =>
    refine ⟨c, changed, acc, gives_pure _ _, by simp, fun _ _ => rfl, by simp, ?_⟩
    simpa using Adds.refl acc
  | cons x gs ih =>
    obtain ⟨i, g⟩ := x
    obtain ⟨hi, hgs⟩ := List.nodup_cons.mp hnodup
    have hini := hin (i, g) (.head _)
    obtain ⟨t, acc1, hg, hup, happ⟩ := happly i s (c i) acc g hini
    obtain ⟨changed1, hchanged, hstep⟩ := gives_applyGroup changed hini hg hup
    obtain ⟨s1, hexec, hs1⟩ := hstep
    have hother : ∀ y ∈ gs, y.1 ≠ i := by
      rintro y hy rfl
      exact hi (List.mem_map.mpr ⟨y, hy, rfl⟩)
    have hin1 : ∀ y ∈ gs, ApplyInput s1 (pre ++ [y.1]) (update c i t y.1) acc1 y.2 := by
      intro y hy
      rw [update_of_ne (hother y hy)]
      refine (hin y (.tail _ hy)).later hs1 happ fun z hz hp => ?_
      exact hother y hy (slot_unique hp (Tree.pfx_of_mem hz.1))
    obtain ⟨c', changed', acc', hfold, hch, hkeep, hall, hadds⟩ := ih hgs s1 (update c i t) changed1 acc1 hin1
    have hci : c' i = t := by rw [hkeep i hi, Function.update_self]
    refine ⟨c', changed', acc', ?_, ?_, ?_, ?_, ?_⟩
    · rw [List.foldlM_cons]
      obtain ⟨s2, hexec2, hs2⟩ := hfold
      exact ⟨s2, by rw [Method.exec_bind_ok hexec, hexec2], Same.trans _ _ _ hs1 hs2⟩
    · rw [hch, hchanged]
      by_cases ht : t = c i
      · rw [ht, update_eq_self]
        simp
      · have hne : c' ≠ c := fun he => ht (by rw [← hci, he])
        simp [ht, hne]
    · intro j hj
      simp only [List.map_cons, List.mem_cons, not_or] at hj
      rw [hkeep j hj.2, update_of_ne hj.1]
    · intro y hy
      rcases List.mem_cons.mp hy with rfl | hy
      · rw [hci]
        exact hup
      · have h := hall y hy
        rw [happ.new_version, update_of_ne (hother y hy)] at h
        exact h
    · have h := happ.trans hadds
      rw [happ.new_version] at h
      have hN : newNodes acc.new_version (pre ++ [i]) t ∪
          {y | ∃ j ∈ gs.map Prod.fst, y ∈ newNodes acc.new_version (pre ++ [j]) (c' j)} =
          {y | ∃ j ∈ ((i, g) :: gs).map Prod.fst, y ∈ newNodes acc.new_version (pre ++ [j]) (c' j)} := by
        ext y
        simp [← hci]
      have hR : ((c i).refs (pre ++ [i]) \ t.refs (pre ++ [i])) ∪
          {r | ∃ j ∈ gs.map Prod.fst, r ∈ (update c i t j).refs (pre ++ [j]) \ (c' j).refs (pre ++ [j])} =
          {r | ∃ j ∈ ((i, g) :: gs).map Prod.fst, r ∈ (c j).refs (pre ++ [j]) \ (c' j).refs (pre ++ [j])} := by
        ext r
        have hup_of : ∀ j ∈ gs.map Prod.fst, update c i t j = c j := by
          intro j hj
          refine update_of_ne ?_ _ _
          rintro rfl
          exact hi hj
        simp only [Set.mem_union, Set.mem_ofPred_eq, List.map_cons, List.mem_cons, exists_eq_or_imp, ← hci]
        refine or_congr Iff.rfl (exists_congr fun j => and_congr_right fun hj => ?_)
        rw [hci, hup_of j hj]
      rw [hN, hR] at h
      exact h

/-! ## When the children changed -/

/-- A branch whose children were replaced, before it is put together again. -/
structure Changed (s : MerkleStore B) (pre : List Nibble) (v : UInt64) (c c' : Nibble → Tree)
    (acc acc' : CommitAcc) : Prop where
  wf : (Tree.node v c).WF pre
  stored : Stored s pre (.node v c)
  older : Older acc.new_version pre (.node v c)
  free : Free pre acc
  wf_new : ∀ i, (c' i).WF (pre ++ [i])
  nodes : ∀ i, ∀ x ∈ (c' i).nodes (pre ++ [i]), x.1.version = acc.new_version ∨ x ∈ (c i).nodes (pre ++ [i])
  adds : Adds {y | ∃ i, y ∈ newNodes acc.new_version (pre ++ [i]) (c' i)}
    {r | ∃ i, r ∈ (c i).refs (pre ++ [i]) \ (c' i).refs (pre ++ [i])} acc acc'

section

variable {s : MerkleStore B} {pre : List Nibble} {v : UInt64} {c c' : Nibble → Tree} {acc acc' : CommitAcc}

section

variable (h : Changed s pre v c c' acc acc')

include h

theorem Changed.stale_root :
    Adds {y | ∃ i, y ∈ newNodes acc.new_version (pre ++ [i]) (c' i)}
      ({r | ∃ i, r ∈ (c i).refs (pre ++ [i]) \ (c' i).refs (pre ++ [i])} ∪ {.node ⟨v, pre⟩}) acc
      (acc'.pushStale ⟨v, pre⟩) := by
  have h := h.adds.trans (Adds.pushStale acc' ⟨v, pre⟩)
  rw [Set.union_empty] at h
  exact h

theorem Changed.root_free : acc'.pending[(⟨acc.new_version, pre⟩ : NodeKey)]? = none := by
  rw [Option.eq_none_iff_forall_ne_some]
  intro n hn
  rcases (h.adds.pending _ n).mp hn with hold | ⟨i, hi, -⟩
  · exact h.free _ n hold List.prefix_rfl
  · have hp := Tree.pfx_of_mem hi
    exact not_slot_prefix hp

theorem Changed.root_not_mem (w : UInt64) (i : Nibble) : Ref.node ⟨w, pre⟩ ∉ (c' i).refs (pre ++ [i]) :=
  fun hr => not_slot_prefix ((h.wf_new i).ref_below hr)

theorem Changed.version_ne : v ≠ acc.new_version := (h.older (⟨v, pre⟩, Tree.record c) (by simp)).1

end

variable (s pre v c c' acc acc') in
/-- With these children, the node ends as `t'`. -/
def Rebuilds (t' : Tree) : Prop :=
  ∃ acc'', Gives (finishInternal acc' ⟨v, pre⟩ pre fun i => (c' i).ref) s (.ok (t'.ref, acc'')) ∧
    Applied pre (.node v c) t' acc acc''

theorem finish_empty (h : Changed s pre v c c' acc acc') (hc : ∀ i, c' i = .empty) :
    Rebuilds s pre v c c' acc acc' .empty := by
  refine ⟨acc'.pushStale ⟨v, pre⟩, ?_, ?_⟩
  rotate_left
  · have hadds := h.stale_root
    unfold Applied
    convert hadds using 1
    · ext y
      simp [newNodes, hc]
    · ext r
      simp [hc]
  · unfold finishInternal
    have hnil : presentSlots (fun i => (c' i).ref) 0 16 = [] := by
      simp [presentSlots, hc, Tree.ref]
    rw [hnil]
    exact gives_pure _ _

theorem finish_node (h : Changed s pre v c c' acc acc') {i : Nibble} {r : Child} {rest : List (Nibble × Child)}
    (hp : presentSlots (fun i => (c' i).ref) 0 16 = (i, r) :: rest) (hmany : ¬ (rest.isEmpty ∧ r.is_leaf)) :
    Rebuilds s pre v c c' acc acc' (.node acc.new_version c') := by
  have hroot := h.root_free
  rw [← h.adds.new_version] at hroot
  have hadds := h.stale_root.trans (putInternal_adds (fun i => (c' i).ref) hroot)
  refine ⟨(putInternal (acc'.pushStale ⟨v, pre⟩) pre fun i => (c' i).ref).2, ?_, ?_⟩
  rotate_left
  · unfold Applied
    convert hadds using 1
    · ext y
      simp only [newNodes, Tree.mem_nodes_node, Set.mem_ofPred_eq, Set.mem_union, Set.mem_singleton_iff,
        h.stale_root.new_version]
      constructor
      · rintro ⟨rfl | ⟨i, hi⟩, hv⟩
        · exact .inr rfl
        · exact .inl ⟨i, hi, hv⟩
      · rintro (⟨i, hi, hv⟩ | rfl)
        · exact ⟨.inr ⟨i, hi⟩, hv⟩
        · exact ⟨.inl rfl, rfl⟩
    · ext r
      simp only [Set.mem_sdiff, Tree.mem_refs_internal, not_or, not_exists, Set.union_empty, Set.mem_union,
        Set.mem_ofPred_eq, Set.mem_singleton_iff]
      constructor
      · rintro ⟨rfl | ⟨i, hi⟩, -, hno⟩
        · exact .inr rfl
        · exact .inl ⟨i, hi, hno i⟩
      · rintro (⟨i, hi, hno⟩ | rfl)
        · refine ⟨.inr ⟨i, hi⟩, ?_, fun j hj => ?_⟩
          · rintro rfl
            exact not_slot_prefix ((h.wf.2.2 i).ref_below hi)
          · have := (h.wf.2.2 i).slot_eq (h.wf_new j) hi hj
            subst this
            exact hno hj
        · refine ⟨.inl rfl, ?_, h.root_not_mem v⟩
          simpa using h.version_ne
  · unfold finishInternal
    rw [hp]
    simp only [hmany, if_false]
    refine ⟨s, ?_, Same.refl s⟩
    simp only [Method.exec_pure, putInternal, Tree.ref, h.stale_root.new_version]

/-- The lone leaf of the children, from slot `j`, stands for the node now. -/
structure Lone (c' : Nibble → Tree) (j : Nibble) (w : UInt64) (l : LeafNode) : Prop where
  leaf : c' j = .leaf w l
  others : ∀ i, i ≠ j → c' i = .empty

variable {j : Nibble} {w : UInt64} {l : LeafNode}

theorem Lone.presentSlots_eq (hl : Lone c' j w l) :
    presentSlots (fun i => (c' i).ref) 0 16 = [(j, ⟨w, (Node.leaf l).hash, true⟩)] := by
  rcases presentSlots_cases (fun i => (c' i).ref) 0 16 with
    ⟨-, h⟩ | ⟨i, r, h, -, -, hr, -⟩ | ⟨i, r, x, rest, -, k, r', hne, -, -, hr, -, -, hr'⟩
  · have := h j (Nat.zero_le _) (by omega)
    simp [hl.leaf, Tree.ref] at this
  · by_cases hij : i = j
    · subst hij
      simp only [hl.leaf, Tree.ref, Option.some.injEq] at hr
      rw [h, hr]
    · simp [hl.others i hij, Tree.ref] at hr
  · by_cases hij : i = j
    · subst hij
      simp [hl.others k hne, Tree.ref] at hr'
    · simp [hl.others i hij, Tree.ref] at hr

theorem Lone.mem_newNodes (hl : Lone c' j w l) (new : UInt64) (pre : List Nibble) (y : NodeKey × Node) :
    (∃ i, y ∈ newNodes new (pre ++ [i]) (c' i)) ↔ y = (⟨w, pre ++ [j]⟩, .leaf l) ∧ w = new := by
  constructor
  · rintro ⟨i, hi, hv⟩
    by_cases hij : i = j
    · subst hij
      rw [hl.leaf, Tree.mem_nodes_leaf] at hi
      subst hi
      exact ⟨rfl, hv⟩
    · rw [hl.others i hij] at hi
      simp at hi
  · rintro ⟨rfl, rfl⟩
    exact ⟨j, by rw [hl.leaf]; simp, rfl⟩

theorem Changed.lone_refs (h : Changed s pre v c c' acc acc') (hl : Lone c' j w l) (r : Ref) :
    r ∈ (Tree.node v c).refs pre \ (Tree.leaf acc.new_version l).refs pre ↔
      ((∃ i, r ∈ (c i).refs (pre ++ [i]) \ (c' i).refs (pre ++ [i])) ∨ r = .node ⟨v, pre⟩) ∨
        (w ≠ acc.new_version ∧ r = .node ⟨w, pre ++ [j]⟩) := by
  simp only [Set.mem_sdiff, Tree.mem_refs_internal, Tree.mem_refs_leaf, not_or]
  constructor
  · rintro ⟨rfl | ⟨i, hi⟩, -, hval⟩
    · exact .inl (.inr rfl)
    by_cases hn : r = .node ⟨w, pre ++ [j]⟩
    · refine .inr ⟨?_, hn⟩
      -- A record of this version is no record of the old node.
      rintro rfl
      rw [hn] at hi
      obtain ⟨n, hn⟩ := hi
      exact (h.older.child i _ hn).1 rfl
    · refine .inl (.inl ⟨i, hi, ?_⟩)
      by_cases hij : i = j
      · subst hij
        rw [hl.leaf, Tree.mem_refs_leaf]
        simp [hn, hval]
      · rw [hl.others i hij]
        simp
  · rintro ((⟨i, hi, hno⟩ | rfl) | ⟨hw, rfl⟩)
    · refine ⟨.inr ⟨i, hi⟩, ?_, ?_⟩
      · rintro rfl
        exact not_slot_prefix ((h.wf.2.2 i).ref_below hi)
      rintro rfl
      have hj : Ref.value l ∈ (c' j).refs (pre ++ [j]) := by
        rw [hl.leaf]
        simp
      have := (h.wf.2.2 i).slot_eq (h.wf_new j) hi hj
      subst this
      exact hno hj
    · exact ⟨.inl rfl, by simpa using h.version_ne, by simp⟩
    · refine ⟨.inr ⟨j, ?_⟩, by simp, by simp⟩
      have hmem := h.nodes j (⟨w, pre ++ [j]⟩, .leaf l) (by rw [hl.leaf]; simp)
      exact ⟨.leaf l, hmem.resolve_left hw⟩

theorem newNodes_leaf (new : UInt64) (pre : List Nibble) (l : LeafNode) :
    newNodes new pre (.leaf new l) = {(⟨new, pre⟩, .leaf l)} := by
  ext y
  simp only [newNodes, Tree.mem_nodes_leaf, Set.mem_ofPred_eq, Set.mem_singleton_iff]
  constructor
  · exact fun hy => hy.1
  · rintro rfl
    exact ⟨rfl, rfl⟩

theorem put_leaf_moved {N : Set (NodeKey × Node)} {R : Set Ref} {acc acc1 : CommitAcc} {nk : NodeKey}
    {pre : List Nibble} (h : Adds N R acc acc1) (hN : ∀ y, y ∈ N ↔ y = (nk, .leaf l))
    (hnk : acc.pending[nk]? = none) (hpre : acc.pending[(⟨acc.new_version, pre⟩ : NodeKey)]? = none) :
    ∃ acc2, put_leaf (acc1.unpend nk) pre l = .ok (⟨acc.new_version, (Node.leaf l).hash, true⟩, acc2) ∧
      Adds {(⟨acc.new_version, pre⟩, .leaf l)} R acc acc2 := by
  have hmem : (nk, Node.leaf l) ∈ N := (hN _).mpr rfl
  -- Its value record is there already.
  have hvalue : l.value_version = acc.new_version → ∃ ct, acc1.values[l.vh]? = some ct := h.value_all nk l hmem
  have hno : ¬ (l.value_version = (acc1.unpend nk).new_version ∧
      (!(acc1.unpend nk).values.contains l.vh) = true) := by
    rintro ⟨hv, hc⟩
    obtain ⟨ct, hct⟩ := hvalue (hv.trans h.new_version)
    unfold CommitAcc.unpend at hc
    rw [Std.TreeMap.contains_eq_isSome_getElem?, hct] at hc
    simp at hc
  have hpend : ∀ (nk' : NodeKey) (n : Node), (acc1.pending.erase nk)[nk']? = some n ↔ acc.pending[nk']? = some n := by
    intro nk' n
    rw [Std.TreeMap.getElem?_erase]
    by_cases hk : nk = nk'
    · subst hk
      simp [hnk]
    · have hne : ¬ compare nk nk' = .eq := fun he => hk (Std.LawfulEqOrd.eq_of_compare he)
      rw [if_neg hne, h.pending, hN]
      simp [Ne.symm hk]
  have hnone : (acc1.pending.erase nk)[(⟨acc.new_version, pre⟩ : NodeKey)]? = none := by
    rw [Option.eq_none_iff_forall_ne_some]
    intro n hn
    rw [hpend, hpre] at hn
    simp at hn
  refine ⟨{ acc1 with pending := (acc1.pending.erase nk).insert ⟨acc.new_version, pre⟩ (.leaf l) }, ?_, ?_⟩
  · unfold put_leaf
    rw [if_neg hno, ← h.new_version]
    rfl
  refine ⟨h.new_version, h.insert_cts, fun nk' n => ?_, h.value_old, fun vh ct hct => ?_, ?_, h.stale⟩
  · rw [getElem?_insert_iff hnone, hpend]
  · rcases h.value_new vh ct hct with hold | ⟨nk', l', hin, hrest⟩
    · exact .inl hold
    have he := (hN _).mp hin
    simp only [Prod.mk.injEq, Node.leaf.injEq] at he
    rw [he.2] at hrest
    exact .inr ⟨_, l, rfl, hrest⟩
  · intro nk' l' hin hv
    simp only [Set.mem_singleton_iff, Prod.mk.injEq, Node.leaf.injEq] at hin
    rw [hin.2] at hv ⊢
    exact hvalue hv

theorem finish_leaf_new (h : Changed s pre v c c' acc acc') (hl : Lone c' j acc.new_version l) :
    Rebuilds s pre v c c' acc acc' (.leaf acc.new_version l) := by
  have hnone : ∀ nk : NodeKey, pre <+: nk.pfx → acc.pending[nk]? = none := by
    intro nk hp
    rw [Option.eq_none_iff_forall_ne_some]
    exact fun n hn => h.free nk n hn hp
  have hN := fun y => (hl.mem_newNodes acc.new_version pre y).trans (and_iff_left rfl)
  obtain ⟨acc2, hput, hadds⟩ := put_leaf_moved h.stale_root hN (hnone _ (List.prefix_append _ _))
    (hnone ⟨acc.new_version, pre⟩ List.prefix_rfl)
  have hpending : acc'.pending[(⟨acc.new_version, pre ++ [j]⟩ : NodeKey)]? = some (.leaf l) :=
    (h.adds.pending _ _).mpr (.inr ((hN _).mpr rfl))
  refine ⟨acc2, ?_, ?_⟩
  · unfold finishInternal
    rw [hl.presentSlots_eq]
    simp only [List.isEmpty_nil, and_self, if_true]
    refine gives_bind
      (a := (l, (acc'.pushStale ⟨v, pre⟩).unpend ⟨acc.new_version, pre ++ [j]⟩)) ⟨s, ?_, Same.refl s⟩ fun s1 _ => ?_
    · unfold take_leaf
      simp only [h.stale_root.new_version, if_true]
      rw [show (acc'.pushStale ⟨v, pre⟩).pending = acc'.pending from rfl, hpending]
      rfl
    · refine gives_bind (gives_ofExcept hput s1) fun s2 _ => ?_
      exact gives_pure _ _
  · unfold Applied
    rw [newNodes_leaf]
    convert hadds using 1
    ext r
    rw [h.lone_refs hl]
    simp [or_comm]

theorem finish_leaf_old (h : Changed s pre v c c' acc acc') (hl : Lone c' j w l) (hw : w ≠ acc.new_version) :
    Rebuilds s pre v c c' acc acc' (.leaf acc.new_version l) := by
  have hmem : ((⟨w, pre ++ [j]⟩ : NodeKey), Node.leaf l) ∈ (c j).nodes (pre ++ [j]) :=
    (h.nodes j (⟨w, pre ++ [j]⟩, .leaf l) (by rw [hl.leaf]; simp)).resolve_left hw
  have hstale := h.stale_root.trans (Adds.pushStale (acc'.pushStale ⟨v, pre⟩) ⟨w, pre ++ [j]⟩)
  have hnew := hstale.new_version
  have hroot := h.root_free
  rw [← h.adds.new_version] at hroot
  obtain ⟨acc2, hput, hadds⟩ := put_leaf_spec ((acc'.pushStale ⟨v, pre⟩).pushStale ⟨w, pre ++ [j]⟩) pre l
    hroot (fun hv => absurd (hv.trans h.adds.new_version) ((h.older.child j _ hmem).2 l rfl))
  refine ⟨acc2, ?_, ?_⟩
  · unfold finishInternal
    rw [hl.presentSlots_eq]
    simp only [List.isEmpty_nil, and_self, if_true]
    have hload := gives_load_node (h.stored.child j _ hmem)
    refine gives_bind (a := (l, (acc'.pushStale ⟨v, pre⟩).pushStale ⟨w, pre ++ [j]⟩)) ?_
      fun s1 _ => ?_
    · unfold take_leaf
      simp only [h.stale_root.new_version, hw, if_false]
      refine gives_bind hload fun s1 _ => ?_
      exact gives_pure _ _
    · refine gives_bind (gives_ofExcept hput s1) fun s2 _ => ?_
      rw [hnew]
      exact gives_pure _ _
  · have hall := hstale.trans hadds
    unfold Applied
    rw [newNodes_leaf]
    convert hall using 1
    · ext y
      simp only [Set.mem_union, Set.mem_ofPred_eq, hl.mem_newNodes, hw, and_false, Set.mem_empty_iff_false,
        false_or, hnew]
    · ext r
      rw [h.lone_refs hl]
      simp only [Set.mem_union, Set.mem_ofPred_eq, Set.mem_singleton_iff, Set.mem_empty_iff_false, or_false,
        hw, ne_eq, not_false_eq_true, true_and]

end

variable {v : UInt64} {pre : List Nibble} {updates : List Update} {c : Nibble → Tree} {s : MerkleStore B}
  {acc : CommitAcc} {rem : Nat}

/-- Each child takes the updates of its slot. -/
def UpdatedBelow (new : UInt64) (pre : List Nibble) (updates : List Update) (c c' : Nibble → Tree) : Prop :=
  ∀ i, Updated new (pre ++ [i]) (updates.filter fun x => nibble x.1 pre.length = i) (c i) (c' i)

theorem Updated.of_children {new : UInt64} {c' : Nibble → Tree} {t' : Tree} (hup : UpdatedBelow new pre updates c c')
    (hne : c' ≠ c) (hwf : t'.WF pre)
    (hfind : ∀ p, t'.find p pre.length = (c' (nibble p pre.length)).find p (pre.length + 1))
    (hnodes : ∀ x ∈ t'.nodes pre, x.1.version = new ∨ ∃ i, x ∈ (c' i).nodes (pre ++ [i]))
    (hroot : t' = .empty ∨ t'.version = some new) : Updated new pre updates (.node v c) t' := by
  refine ⟨hwf, fun p => ?_, fun x hx => ?_, .inr hroot, fun hall => ?_⟩
  · have h := (hup (nibble p pre.length)).find p
    rw [lookup_filter updates (fun q => nibble q pre.length = nibble p pre.length) p, if_pos rfl,
      List.length_append, List.length_singleton] at h
    rw [hfind, h, Tree.find]
  · rcases hnodes x hx with hv | ⟨i, hi⟩
    · exact .inl hv
    rcases (hup i).nodes x hi with hv | hold
    · exact .inl hv
    · exact .inr (Tree.mem_nodes_node.mpr (.inr ⟨i, hold⟩))
  · -- Equal below every slot would mean equal children.
    refine absurd (funext fun i => (hup i).same fun p hp => ?_) hne
    obtain ⟨hpre, -, hnib⟩ := under_append_one.mp hp
    have h := hall p hpre
    rw [hfind, Tree.find, hnib] at h
    rw [List.length_append, List.length_singleton]
    exact h

theorem Updated.unchanged {new : UInt64} (hup : UpdatedBelow new pre updates c c)
    (hwf : (Tree.node v c).WF pre) : Updated new pre updates (.node v c) (.node v c) := by
  refine ⟨hwf, fun p => ?_, fun x hx => .inr hx, .inl rfl, fun _ => rfl⟩
  have h := (hup (nibble p pre.length)).find p
  rw [lookup_filter updates (fun q => nibble q pre.length = nibble p pre.length) p, if_pos rfl,
    List.length_append, List.length_singleton] at h
  exact h

theorem finish_spec {c' : Nibble → Tree} {acc' : CommitAcc} (h : Changed s pre v c c' acc acc') (hne : c' ≠ c)
    (hup : UpdatedBelow acc.new_version pre updates c c') :
    ApplyOutput s pre (.node v c) acc updates (finishInternal acc' ⟨v, pre⟩ pre fun i => (c' i).ref) := by
  match hp : presentSlots (fun i => (c' i).ref) 0 16 with
  | [] =>
    have hc : ∀ i, c' i = .empty := by
      intro i
      rcases presentSlots_cases (fun i => (c' i).ref) 0 16 with ⟨-, hnone⟩ | ⟨_, _, hone, -⟩ | ⟨_, _, _, _, htwo, -⟩
      · exact Tree.ref_eq_none.mp (hnone i (Nat.zero_le _) (by omega))
      · simp [hp] at hone
      · simp [hp] at htwo
    obtain ⟨acc'', hg, happ⟩ := finish_empty h hc
    refine ⟨.empty, acc'', hg, ?_, happ⟩
    refine Updated.of_children hup hne trivial (fun p => ?_) (by simp) (.inl rfl)
    rw [hc]
    rfl
  | (j, r) :: rest =>
    by_cases hlone : rest.isEmpty ∧ r.is_leaf
    · obtain ⟨w, l, hl⟩ : ∃ w l, Lone c' j w l := by
        rw [List.isEmpty_iff.mp hlone.1] at hp
        rcases presentSlots_cases (fun i => (c' i).ref) 0 16 with ⟨hnil, -⟩ | ⟨i, r', hone, -, -, hr, hothers⟩ |
          ⟨_, _, _, _, htwo, -⟩
        · simp [hp] at hnil
        · rw [hp] at hone
          simp only [List.cons.injEq, Prod.mk.injEq, and_true] at hone
          obtain ⟨rfl, rfl⟩ := hone
          obtain ⟨w, l, hw⟩ := Tree.ref_leaf hr hlone.2
          exact ⟨w, l, hw, fun i hi => Tree.ref_eq_none.mp (hothers i (Nat.zero_le _) (by omega) hi)⟩
        · simp [hp] at htwo
      have hunder := h.wf_new j
      rw [hl.leaf] at hunder
      obtain ⟨hpre, -, hnib⟩ := under_append_one.mp hunder
      obtain ⟨acc'', hg, happ⟩ : Rebuilds s pre v c c' acc acc' (.leaf acc.new_version l) := by
        by_cases hw : w = acc.new_version
        · subst hw
          exact finish_leaf_new h hl
        · exact finish_leaf_old h hl hw
      refine ⟨.leaf acc.new_version l, acc'', hg, ?_, happ⟩
      refine Updated.of_children hup hne hpre (fun p => ?_) ?_ (.inr rfl)
      · by_cases hj : nibble p pre.length = j
        · rw [hj, hl.leaf]
          rfl
        · rw [hl.others _ hj, Tree.find, Tree.find, if_neg]
          rintro rfl
          exact hj hnib
      · intro x hx
        rw [Tree.mem_nodes_leaf.mp hx]
        exact .inl rfl
    · obtain ⟨acc'', hg, happ⟩ := finish_node h hp hlone
      have hcard : 2 ≤ (Tree.rangeEntries c' 0 4).card := Tree.two_le_card_of_present h.wf_new hp hlone
      rw [Tree.rangeEntries_four acc.new_version] at hcard
      refine ⟨.node acc.new_version c', acc'', hg, ?_, happ⟩
      refine Updated.of_children hup hne ⟨h.wf.1, hcard, h.wf_new⟩ (fun p => rfl) ?_ (.inr rfl)
      intro x hx
      rcases Tree.mem_nodes_node.mp hx with rfl | hi
      · exact .inl rfl
      · exact .inr hi

theorem apply_none (hrem : pre.length + rem = 64) (hne : updates ≠ [])
    (hin : ApplyInput s pre .empty acc updates) :
    ApplyOutput s pre .empty acc updates (apply_subtree rem acc Tree.empty.ref pre updates) := by
  have hmem : ∀ x ∈ inserts acc.new_version updates, ∃ h, (x.1, some h) ∈ updates := by
    intro x hx
    obtain ⟨h, hin, -⟩ := mem_inserts.mp hx
    exact ⟨h, hin⟩
  have hbuild : BuildInput pre acc (inserts acc.new_version updates) := by
    refine ⟨rising_inserts hin.rising _, fun x hx => ?_, hin.free, fun x hx _ => ?_⟩
    · obtain ⟨h, hx⟩ := hmem x hx
      exact hin.under (x.1, some h) hx
    · obtain ⟨h, hx⟩ := hmem x hx
      exact hin.cts _ h hx
  obtain ⟨t', acc', hok, hb, hadds⟩ := build_from_pairs_spec rem pre hrem acc _ hbuild
  refine ⟨t', acc', ?_, ⟨hb.wf, fun p => ?_, fun x hx => .inl (hb.fresh x hx), .inr hb.root, ?_⟩, ?_⟩
  · unfold apply_subtree
    rw [if_neg (by simpa using hne)]
    exact gives_ofExcept hok s
  · rw [hb.find, lookup_inserts hin.rising]
    rfl
  · intro hall
    refine hb.wf.eq_empty (Finset.eq_empty_of_forall_notMem fun e he => ?_)
    obtain ⟨l, hl, -⟩ := (Tree.mem_entries_iff hb.wf e.1 e.2).mp he
    rw [hall e.1 (hb.wf.under he)] at hl
    simp [Tree.find] at hl
  · unfold Applied
    rw [hb.newNodes_eq]
    convert hadds using 1
    ext r
    simp

theorem apply_leaf {l : LeafNode} (hrem : pre.length + rem = 64) (hne : updates ≠ [])
    (hin : ApplyInput s pre (.leaf v l) acc updates) :
    ApplyOutput s pre (.leaf v l) acc updates (apply_subtree rem acc (Tree.leaf v l).ref pre updates) := by
  obtain ⟨t', acc', hok, hup, happ⟩ : ∃ t' acc',
      applyLeaf rem acc ⟨v, (Node.leaf l).hash, true⟩ ⟨v, pre⟩ l pre updates = .ok (t'.ref, acc') ∧
      Updated acc.new_version pre updates (.leaf v l) t' ∧ Applied pre (.leaf v l) t' acc acc' := by
    by_cases hsame : (mergeLeaf acc.new_version l updates).size = 1 ∧
        (mergeLeaf acc.new_version l updates)[l.path]? = some (l.vh, l.value_version)
    · refine ⟨.leaf v l, acc, by unfold applyLeaf; rw [if_pos hsame]; rfl, ?_, Applied.refl hin.older⟩
      refine ⟨hin.wf, fun p => ?_, fun _ hx => .inr hx, .inl rfl, fun _ => rfl⟩
      rw [← getElem?_mergeLeaf hin.rising, (size_eq_one_iff _ _ _).mp hsame p, Tree.find]
      by_cases hp : l.path = p
      · subst hp
        simp [pairLeaf]
      · simp [hp]
    · exact applyLeaf_changed hrem hin.rising hin.under hin.free hin.cts hin.wf hin.older hsame _
  refine ⟨t', acc', ?_, hup, happ⟩
  have hload := gives_load_node (hin.stored (⟨v, pre⟩, .leaf l) (by simp))
  unfold apply_subtree
  rw [if_neg (by simpa using hne)]
  simp only [Tree.ref]
  refine gives_bind hload fun s1 _ => ?_
  simp only [Node.is_leaf, ne_eq, not_true_eq_false, if_false]
  exact gives_ofExcept hok s1

theorem apply_children (hin : ApplyInput s pre (.node v c) acc updates)
    (ih : AppliesBelow (B := B) pre (apply_subtree rem)) :
    ∃ (c' : Nibble → Tree) (changed : Bool) (acc' : CommitAcc),
      Gives ((nibbleGroups pre.length updates).foldlM (applyGroup (apply_subtree rem) pre)
        (fun i => (c i).ref, false, acc)) s (.ok (fun i => (c' i).ref, changed, acc')) ∧
      (changed = true ↔ c' ≠ c) ∧
      UpdatedBelow acc.new_version pre updates c c' ∧ Changed s pre v c c' acc acc' := by
  obtain ⟨hnodup, hgroups⟩ := nibbleGroups_spec hin.wf.1 hin.rising hin.under
  have hgin : ∀ x ∈ nibbleGroups pre.length updates, ApplyInput s (pre ++ [x.1]) (c x.1) acc x.2 := by
    intro x hx
    obtain ⟨heq, -, hr, hu⟩ := hgroups x.1 x.2 hx
    refine ⟨hin.wf.2.2 x.1, hin.stored.child x.1, hin.older.child x.1, hr, hu, hin.free.child x.1, ?_⟩
    intro p h hp
    rw [heq] at hp
    exact hin.cts p h (List.mem_filter.mp hp).1
  obtain ⟨c', changed, acc', hfold, hch, hkeep, hall, hadds⟩ := apply_groups ih _ hnodup s c false acc hgin
  have hup : UpdatedBelow acc.new_version pre updates c c' := by
    intro i
    by_cases hi : i ∈ (nibbleGroups pre.length updates).map Prod.fst
    · obtain ⟨x, hx, rfl⟩ := List.mem_map.mp hi
      rw [← (hgroups x.1 x.2 hx).1]
      exact hall x hx
    · rw [hkeep i hi, filter_eq_nil_of_not_group hi]
      exact Updated.refl (hin.wf.2.2 i)
  refine ⟨c', changed, acc', hfold, by simpa using hch, hup, hin.wf, hin.stored, hin.older, hin.free,
    fun i => (hup i).wf, fun i => (hup i).nodes, ?_⟩
  -- A slot without updates adds nothing.
  convert hadds using 1
  · ext y
    refine exists_congr fun i => (iff_and_self.mpr fun hy => ?_)
    by_contra hi
    rw [hkeep i hi, (hin.older.child i).newNodes_eq] at hy
    exact hy
  · ext r
    refine exists_congr fun i => (iff_and_self.mpr fun hr => ?_)
    by_contra hi
    rw [hkeep i hi, Set.sdiff_self] at hr
    exact hr

theorem apply_node (hne : updates ≠ []) (ih : AppliesBelow (B := B) pre (apply_subtree rem))
    (hin : ApplyInput s pre (.node v c) acc updates) :
    ApplyOutput s pre (.node v c) acc updates
      (apply_subtree (rem + 1) acc (Tree.node v c).ref pre updates) := by
  have hload : Gives (load_node ⟨v, pre⟩ (Tree.record c).hash) s (.ok (Tree.record c)) :=
    gives_load_node (hin.stored (⟨v, pre⟩, Tree.record c) (by simp))
  obtain ⟨s1, hexec, hs1⟩ := hload
  have hin1 : ApplyInput s1 pre (.node v c) acc updates := hin.later hs1 (Adds.refl acc) (by simp)
  obtain ⟨c', changed, acc', ⟨s2, hexec2, hs2⟩, hch, hup, hchanged⟩ := apply_children hin1 ih
  have hs : Same s s2 := Same.trans _ _ _ hs1 hs2
  -- Up to the groups, the call is these two.
  have hbody : ∀ r s3, (if !changed then pure ((Tree.node v c).ref, acc')
        else finishInternal acc' ⟨v, pre⟩ pre fun i => (c' i).ref : StoreM B _).exec s2 = (r, s3) →
      (apply_subtree (rem + 1) acc (Tree.node v c).ref pre updates).exec s = (r, s3) := by
    intro r s3 h
    unfold apply_subtree
    rw [if_neg (by simpa using hne)]
    simp only [Tree.ref]
    unfold Tree.record at hexec
    rw [Method.exec_bind_ok hexec]
    simp only [Node.is_leaf, ne_eq, not_true_eq_false, if_false]
    rw [Method.exec_bind_ok hexec2]
    exact h
  by_cases hc : c' = c
  · subst hc
    refine ⟨.node v c', acc', ⟨s2, hbody _ _ ?_, hs⟩, Updated.unchanged hup hin.wf, ?_⟩
    · rw [if_pos (by simpa using hch)]
      rfl
    have hadds := hchanged.adds
    unfold Applied
    rw [hin.older.newNodes_eq, Set.sdiff_self]
    convert hadds using 1
    · symm
      apply Set.eq_empty_of_forall_notMem
      rintro y ⟨i, hy⟩
      rw [(hin.older.child i).newNodes_eq] at hy
      exact hy
    · symm
      apply Set.eq_empty_of_forall_notMem
      rintro r ⟨i, hr, hno⟩
      exact hno hr
  · obtain ⟨t', acc'', ⟨s3, hexec3, hs3⟩, hup', happ⟩ :=
      finish_spec { hchanged with stored := hin.stored.of_same hs } hc hup
    refine ⟨t', acc'', ⟨s3, hbody _ _ ?_, Same.trans _ _ _ hs hs3⟩, hup', happ⟩
    rw [if_neg (by simp [hch.mpr hc])]
    exact hexec3

theorem apply_subtree_spec (rem : Nat) (pre : List Nibble) (hrem : pre.length + rem = 64) (s : MerkleStore B)
    (t : Tree) (acc : CommitAcc) (updates : List Update) (hin : ApplyInput s pre t acc updates) :
    ApplyOutput s pre t acc updates (apply_subtree rem acc t.ref pre updates) := by
  induction rem using Nat.strong_induction_on generalizing pre s t acc updates with
  | _ rem ih =>
    by_cases hne : updates = []
    · subst hne
      refine ⟨t, acc, ?_, Updated.refl hin.wf, Applied.refl hin.older⟩
      unfold apply_subtree
      exact gives_pure _ _
    cases t with
    | empty => exact apply_none hrem hne hin
    | leaf v l => exact apply_leaf hrem hne hin
    | node v c =>
      obtain ⟨rem, rfl⟩ := Nat.exists_eq_add_one_of_ne_zero (show rem ≠ 0 by have := hin.wf.1; omega)
      exact apply_node hne (fun i => ih rem (Nat.lt_succ_self _) (pre ++ [i]) (by simp; omega)) hin

end MerkleStore

end EnclaveOs.Merkle
