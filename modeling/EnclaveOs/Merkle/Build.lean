import EnclaveOs.Merkle.Canon
import EnclaveOs.Merkle.Commit

/-! # New subtrees -/

open EnclaveOs.Lib

namespace EnclaveOs.Merkle

/-! ## Sorted lists by path -/

def Rising {α : Type} (l : List (Hash × α)) : Prop := l.Pairwise fun a b => compare a.1 b.1 = .lt

variable {α : Type} {pre : List Nibble} {R : Set Ref} {acc : CommitAcc} {l : List (Hash × α)}

theorem lookup_eq_some (h : Rising l) {p : Hash} {u : α} : l.lookup p = some u ↔ (p, u) ∈ l := by
  induction l with
  | nil => simp
  | cons x l ih =>
    obtain ⟨q, v⟩ := x
    obtain ⟨hx, hl⟩ := List.pairwise_cons.mp h
    rw [List.lookup_cons]
    by_cases hp : p = q
    · subst hp
      simp only [BEq.rfl, List.mem_cons, Prod.mk.injEq, true_and, Option.some.injEq]
      constructor
      · rintro rfl
        exact .inl rfl
      · rintro (rfl | hin)
        · rfl
        · have := hx _ hin
          simp at this
    · simp [beq_false_of_ne hp, ih hl, hp]

theorem lookup_eq_none {p : Hash} : l.lookup p = none ↔ ∀ x ∈ l, x.1 ≠ p := by
  rw [List.lookup_eq_none_iff]
  refine forall₂_congr fun x _ => ?_
  rw [bne_iff_ne]
  exact ne_comm

theorem lookup_filter (l : List (Hash × α)) (q : Hash → Prop) [DecidablePred q] (p : Hash) :
    (l.filter fun x => q x.1).lookup p = if q p then l.lookup p else none := by
  induction l with
  | nil => simp
  | cons x l ih =>
    obtain ⟨k, v⟩ := x
    rw [List.filter_cons, List.lookup_cons]
    by_cases hk : q k
    · simp only [hk, decide_true, if_true, List.lookup_cons, ih]
      by_cases hp : p = k
      · subst hp; simp [hk]
      · simp [beq_false_of_ne hp]
    · simp only [hk, decide_false, Bool.false_eq_true, if_false, ih]
      by_cases hp : p = k
      · subst hp; simp [hk]
      · simp [beq_false_of_ne hp]

theorem nibbleGroups_spec (hlen : pre.length < 64) (hr : Rising l) (hu : ∀ x ∈ l, Under pre x.1) :
    ((nibbleGroups pre.length l).map Prod.fst).Nodup ∧
    ∀ i g, (i, g) ∈ nibbleGroups pre.length l →
      g = l.filter (fun x => nibble x.1 pre.length = i) ∧ g ≠ [] ∧ Rising g ∧ ∀ x ∈ g, Under (pre ++ [i]) x.1 := by
  have hsorted : l.Pairwise fun a b => nibble a.1 pre.length ≤ nibble b.1 pre.length := by
    refine hr.imp_of_mem ?_
    intro a b ha hb hlt
    by_contra hgt
    have := compare_lt_of_nibble (hu b hb) (hu a ha) hlen (lt_of_not_ge hgt)
    rw [Std.OrientedCmp.gt_of_lt this] at hlt
    simp at hlt
  obtain ⟨hpair, hmem⟩ := runs_of_sorted l hsorted
  refine ⟨List.pairwise_map.mpr (hpair.imp fun h => ne_of_lt h), fun i g hg => ?_⟩
  obtain ⟨heq, hne⟩ := hmem i g hg
  refine ⟨heq, hne, ?_, fun x hx => ?_⟩
  · rw [heq]
    exact hr.filter _
  · rw [heq, List.mem_filter] at hx
    exact under_append_one.mpr ⟨hu x hx.1, hlen, of_decide_eq_true hx.2⟩

theorem filter_eq_nil_of_not_group {d : Nat} {i : Nibble}
    (h : i ∉ (nibbleGroups d l).map Prod.fst) : l.filter (fun x => nibble x.1 d = i) = [] := by
  rw [List.filter_eq_nil_iff]
  intro x hx hi
  obtain ⟨g, hg⟩ := exists_run (fun x : Hash × α => nibble x.1 d) hx
  rw [of_decide_eq_true hi] at hg
  exact h (List.mem_map.mpr ⟨_, hg, rfl⟩)

/-! ## What a step adds to the accumulator -/

/-- `acc'` has the records `N` with their values, and stale entries for `R`, besides. -/
structure Adds (N : Set (NodeKey × Node)) (R : Set Ref) (acc acc' : CommitAcc) : Prop where
  new_version : acc'.new_version = acc.new_version
  insert_cts : acc'.insert_cts = acc.insert_cts
  pending : ∀ (nk : NodeKey) (n : Node), acc'.pending[nk]? = some n ↔ acc.pending[nk]? = some n ∨ (nk, n) ∈ N
  value_old : ∀ (vh : Hash) (ct : Bytes), acc.values[vh]? = some ct → acc'.values[vh]? = some ct
  value_new : ∀ (vh : Hash) (ct : Bytes), acc'.values[vh]? = some ct → acc.values[vh]? = some ct ∨
    ∃ nk l, (nk, Node.leaf l) ∈ N ∧ l.value_version = acc.new_version ∧ l.vh = vh ∧ acc.insert_cts[l.path]? = some ct
  value_all : ∀ (nk : NodeKey) (l : LeafNode), (nk, Node.leaf l) ∈ N → l.value_version = acc.new_version →
    ∃ ct, acc'.values[l.vh]? = some ct
  stale : ∀ k, k ∈ acc'.stale ↔ k ∈ acc.stale ∨ ∃ r ∈ R, r.key = k

theorem Adds.refl (acc : CommitAcc) : Adds ∅ ∅ acc acc :=
  ⟨rfl, rfl, by simp, fun _ _ h => h, fun _ _ h => .inl h, by simp, by simp⟩

theorem Adds.trans {N M : Set (NodeKey × Node)} {Q : Set Ref} {a b c : CommitAcc} (h : Adds N R a b)
    (h' : Adds M Q b c) : Adds (N ∪ M) (R ∪ Q) a c where
  new_version := h'.new_version.trans h.new_version
  insert_cts := h'.insert_cts.trans h.insert_cts
  pending := by
    intro nk n
    rw [h'.pending, h.pending, Set.mem_union, or_assoc]
  value_old := fun vh ct hv => h'.value_old vh ct (h.value_old vh ct hv)
  value_new := by
    intro vh ct hv
    rcases h'.value_new vh ct hv with hb | ⟨nk, l, hl, hvv, hvh, hct⟩
    · rcases h.value_new vh ct hb with ha | ⟨nk, l, hl, hrest⟩
      · exact .inl ha
      · exact .inr ⟨nk, l, .inl hl, hrest⟩
    · rw [h.new_version] at hvv
      rw [h.insert_cts] at hct
      exact .inr ⟨nk, l, .inr hl, hvv, hvh, hct⟩
  value_all := by
    rintro nk l (hl | hl) hvv
    · obtain ⟨ct, hct⟩ := h.value_all nk l hl hvv
      exact ⟨ct, h'.value_old _ _ hct⟩
    · rw [← h.new_version] at hvv
      exact h'.value_all nk l hl hvv
  stale := by
    intro k
    rw [h'.stale, h.stale, or_assoc]
    simp only [Set.mem_union, or_and_right, exists_or]

theorem Adds.stale_only {ks : List Bytes}
    (h : ∀ k, k ∈ ks ↔ ∃ r ∈ R, r.key = k) : Adds ∅ R acc { acc with stale := acc.stale ++ ks } :=
  ⟨rfl, rfl, by simp, fun _ _ h => h, fun _ _ h => .inl h, by simp, fun k => by simp [h]⟩

theorem Adds.pushStale (acc : CommitAcc) (nk : NodeKey) : Adds ∅ {.node nk} acc (acc.pushStale nk) :=
  Adds.stale_only fun k => by simp [Ref.key, eq_comm]

/-- Nothing is pending under the prefix. -/
def Free (pre : List Nibble) (acc : CommitAcc) : Prop :=
  ∀ (nk : NodeKey) (n : Node), acc.pending[nk]? = some n → ¬ pre <+: nk.pfx

theorem Free.child (h : Free pre acc) (i : Nibble) :
    Free (pre ++ [i]) acc := fun nk n hn hp => h nk n hn ((List.prefix_append pre [i]).trans hp)

theorem Free.adds {N : Set (NodeKey × Node)} {acc' : CommitAcc}
    (h : Free pre acc) (ha : Adds N R acc acc') (hN : ∀ x ∈ N, ¬ pre <+: x.1.pfx) : Free pre acc' := by
  intro nk n hn
  rcases (ha.pending nk n).mp hn with hold | hnew
  · exact h nk n hold
  · exact hN _ hnew

theorem getElem?_insert_iff {m : Std.TreeMap NodeKey Node} {nk : NodeKey} (hnone : m[nk]? = none) (n : Node)
    (nk' : NodeKey) (n' : Node) :
    (m.insert nk n)[nk']? = some n' ↔ m[nk']? = some n' ∨ (nk', n') ∈ ({(nk, n)} : Set _) := by
  rw [Std.TreeMap.getElem?_insert, Set.mem_singleton_iff, Prod.mk.injEq]
  by_cases h : nk = nk'
  · subst h
    simp [hnone, eq_comm]
  · have : ¬ compare nk nk' = .eq := fun he => h (Std.LawfulEqOrd.eq_of_compare he)
    simp [this, eq_comm (b := nk), h]

namespace MerkleStore

def HasCts (acc : CommitAcc) (pairs : List Pair) : Prop :=
  ∀ x ∈ pairs, x.2.2 = acc.new_version → ∃ ct, acc.insert_cts[x.1]? = some ct

theorem HasCts.adds {acc acc' : CommitAcc} {pairs : List Pair} {N : Set (NodeKey × Node)} {R : Set Ref}
    (h : HasCts acc pairs) (ha : Adds N R acc acc') : HasCts acc' pairs := by
  intro x hx hv
  rw [ha.insert_cts]
  rw [ha.new_version] at hv
  exact h x hx hv

variable [Crypto]

theorem put_leaf_spec (acc : CommitAcc) (pfx : List Nibble) (l : LeafNode)
    (hfree : acc.pending[(⟨acc.new_version, pfx⟩ : NodeKey)]? = none)
    (hct : l.value_version = acc.new_version → ∃ ct, acc.insert_cts[l.path]? = some ct) :
    ∃ acc', put_leaf acc pfx l = .ok (⟨acc.new_version, (Node.leaf l).hash, true⟩, acc') ∧
      Adds {(⟨acc.new_version, pfx⟩, .leaf l)} ∅ acc acc' := by
  unfold put_leaf
  by_cases hnew : l.value_version = acc.new_version ∧ (!acc.values.contains l.vh) = true
  · obtain ⟨ct, hct⟩ := hct hnew.1
    have hnone : acc.values[l.vh]? = none := by
      have hnot := hnew.2
      rw [Std.TreeMap.contains_eq_isSome_getElem?] at hnot
      rcases hv : acc.values[l.vh]? with _ | ct
      · rfl
      · simp [hv] at hnot
    rw [if_pos hnew, hct]
    refine ⟨_, rfl, rfl, rfl, getElem?_insert_iff hfree _, ?_, ?_, ?_, by simp⟩
    · intro vh ct' hv
      simp only [Std.TreeMap.getElem?_insert]
      rw [if_neg]
      · exact hv
      intro he
      rw [Std.LawfulEqOrd.eq_of_compare he, hv] at hnone
      simp at hnone
    · intro vh ct' hv
      simp only [Std.TreeMap.getElem?_insert] at hv
      split at hv
      · rename_i he
        have hvh := Std.LawfulEqOrd.eq_of_compare he
        rw [← Option.some.inj hv]
        exact .inr ⟨_, l, rfl, hnew.1, hvh, hct⟩
      · exact .inl hv
    · intro nk l' hl' _
      simp only [Set.mem_singleton_iff, Prod.mk.injEq, Node.leaf.injEq] at hl'
      rw [hl'.2]
      exact ⟨ct, by simp⟩
  · rw [if_neg hnew]
    refine ⟨_, rfl, rfl, rfl, getElem?_insert_iff hfree _, fun _ _ h => h, fun _ _ h => .inl h, ?_, by simp⟩
    intro nk l' hl' hvv
    simp only [Set.mem_singleton_iff, Prod.mk.injEq, Node.leaf.injEq] at hl'
    rw [hl'.2] at hvv ⊢
    have hin : acc.values.contains l.vh = true := by simpa [hvv] using hnew
    rw [Std.TreeMap.contains_eq_isSome_getElem?] at hin
    exact Option.isSome_iff_exists.mp hin

variable {acc : CommitAcc} {pre : List Nibble}

theorem putInternal_adds {pfx : List Nibble} (children : Nibble → Option Child)
    (hfree : acc.pending[(⟨acc.new_version, pfx⟩ : NodeKey)]? = none) :
    Adds {(⟨acc.new_version, pfx⟩, .internal ⟨children⟩)} ∅ acc (putInternal acc pfx children).2 :=
  ⟨rfl, rfl, getElem?_insert_iff hfree _, fun _ _ h => h, fun _ _ h => .inl h, by simp,
    by simp [putInternal]⟩

/-! ## The tree of a list of pairs -/

def pairLeaf (p : Hash) (e : Hash × UInt64) : LeafNode := ⟨p, e.1, e.2⟩

/-- The tree of the pairs, all of whose nodes are new. -/
structure Built (new_version : UInt64) (pre : List Nibble) (pairs : List Pair) (t : Tree) : Prop where
  wf : t.WF pre
  fresh : ∀ x ∈ t.nodes pre, x.1.version = new_version
  find : ∀ p, t.find p pre.length = (pairs.lookup p).map (pairLeaf p)

/-- What `build_from_pairs` finds at a place. -/
structure BuildInput (pre : List Nibble) (acc : CommitAcc) (pairs : List Pair) : Prop where
  rising : Rising pairs
  under : ∀ x ∈ pairs, Under pre x.1
  free : Free pre acc
  cts : HasCts acc pairs

/-- What `build_from_pairs` gives there. -/
def BuildOutput (pre : List Nibble) (acc : CommitAcc) (pairs : List Pair)
    (r : Except Fault (Option Child × CommitAcc)) : Prop :=
  ∃ t acc', r = .ok (t.ref, acc') ∧ Built acc.new_version pre pairs t ∧ Adds (t.nodes pre) ∅ acc acc'

theorem build_groups {build : CommitAcc → List Nibble → List Pair → Except Fault (Option Child × CommitAcc)}
    (hbuild : ∀ i acc g, BuildInput (pre ++ [i]) acc g → BuildOutput (pre ++ [i]) acc g (build acc (pre ++ [i]) g))
    (gs : List (Nibble × List Pair)) (hnodup : (gs.map Prod.fst).Nodup) (c : Nibble → Tree) (acc : CommitAcc)
    (hin : ∀ x ∈ gs, BuildInput (pre ++ [x.1]) acc x.2) :
    ∃ (c' : Nibble → Tree) (acc' : CommitAcc),
      gs.foldlM (buildGroup build pre) (fun i => (c i).ref, acc) = .ok (fun i => (c' i).ref, acc') ∧
      (∀ i, i ∉ gs.map Prod.fst → c' i = c i) ∧
      (∀ x ∈ gs, Built acc.new_version (pre ++ [x.1]) x.2 (c' x.1)) ∧
      Adds {y | ∃ i ∈ gs.map Prod.fst, y ∈ (c' i).nodes (pre ++ [i])} ∅ acc acc' := by
  induction gs generalizing c acc with
  | nil =>
    refine ⟨c, acc, rfl, fun _ _ => rfl, by simp, ?_⟩
    simpa using Adds.refl acc
  | cons x gs ih =>
    obtain ⟨i, g⟩ := x
    obtain ⟨hi, hgs⟩ := List.nodup_cons.mp hnodup
    obtain ⟨t, acc1, hok, hbuilt, hadds⟩ := hbuild i acc g (hin (i, g) (.head _))
    -- The other groups still find their places free.
    have hin1 : ∀ y ∈ gs, BuildInput (pre ++ [y.1]) acc1 y.2 := by
      intro y hy
      have h := hin y (.tail _ hy)
      refine ⟨h.rising, h.under, h.free.adds hadds fun z hz hp => ?_, h.cts.adds hadds⟩
      have := slot_unique hp (Tree.pfx_of_mem hz)
      exact hi (this ▸ List.mem_map.mpr ⟨y, hy, rfl⟩)
    obtain ⟨c', acc', hfold, hkeep, hall, hadds'⟩ := ih hgs (Function.update c i t) acc1 hin1
    have hci : c' i = t := by rw [hkeep i hi, Function.update_self]
    have hstep : buildGroup build pre (fun i => (c i).ref, acc) (i, g) =
        .ok (fun j => (Function.update c i t j).ref, acc1) := by
      unfold buildGroup
      rw [hok]
      simp only [bind, Except.bind, pure, Except.pure]
      congr 2
      funext j
      by_cases hj : j = i
      · subst hj; simp
      · simp [hj]
    refine ⟨c', acc', ?_, ?_, ?_, ?_⟩
    · rw [List.foldlM_cons, hstep]
      exact hfold
    · intro j hj
      simp only [List.map_cons, List.mem_cons, not_or] at hj
      rw [hkeep j hj.2, Function.update_of_ne hj.1]
    · intro y hy
      rcases List.mem_cons.mp hy with rfl | hy
      · rw [hci]
        exact hbuilt
      · rw [← hadds.new_version]
        exact hall y hy
    · have h := hadds.trans hadds'
      rw [Set.union_self] at h
      have hset : {y | ∃ j ∈ (gs.map Prod.fst), y ∈ (c' j).nodes (pre ++ [j])} ∪ t.nodes (pre ++ [i]) =
          {y | ∃ j ∈ (((i, g) :: gs).map Prod.fst), y ∈ (c' j).nodes (pre ++ [j])} := by
        ext y
        simp [← hci, or_comm]
      rw [Set.union_comm, hset] at h
      exact h

theorem Built.empty (new_version : UInt64) (pre : List Nibble) : Built new_version pre [] .empty :=
  ⟨trivial, by simp, fun p => rfl⟩

theorem Built.node {new_version : UInt64} {pairs : List Pair} {c : Nibble → Tree}
    (hlen : pre.length < 64) (hr : Rising pairs) (h2 : 2 ≤ pairs.length)
    (hc : ∀ i, Built new_version (pre ++ [i]) (pairs.filter fun x => nibble x.1 pre.length = i) (c i)) :
    Built new_version pre pairs (.node new_version c) := by
  have hfind : ∀ p, (Tree.node new_version c).find p pre.length = (pairs.lookup p).map (pairLeaf p) := by
    intro p
    have h := (hc (nibble p pre.length)).find p
    rw [lookup_filter pairs (fun q => nibble q pre.length = nibble p pre.length) p, if_pos rfl] at h
    rw [Tree.find, ← h]
    simp
  have hentry : ∀ x ∈ pairs, (x.1, x.2.1) ∈ (Tree.node new_version c).entries := by
    intro x hx
    have hp := (lookup_eq_some hr).mpr (show (x.1, x.2) ∈ pairs from hx)
    have h := (hc (nibble x.1 pre.length)).find x.1
    rw [lookup_filter pairs (fun q => nibble q pre.length = nibble x.1 pre.length) x.1, if_pos rfl, hp] at h
    exact Tree.mem_entries_node.mpr ⟨_, (Tree.mem_entries_iff (hc _).wf _ _).mpr ⟨_, h, rfl⟩⟩
  refine ⟨⟨hlen, ?_, fun i => (hc i).wf⟩, ?_, hfind⟩
  · rcases pairs with _ | ⟨x, _ | ⟨y, rest⟩⟩
    · cases h2
    · simp at h2
    · have hne : x.1 ≠ y.1 := by
        have := (List.pairwise_cons.mp hr).1 y (.head _)
        intro he
        rw [he] at this
        simp at this
      refine Finset.one_lt_card.mpr ⟨_, hentry x (.head _), _,
        hentry y (.tail _ (.head _)), ?_⟩
      intro he
      exact hne (Prod.mk.inj he).1
  · intro x hx
    rcases Tree.mem_nodes_node.mp hx with rfl | ⟨i, hi⟩
    · rfl
    · exact (hc i).fresh x hi

theorem build_one {rem : Nat} {p vh : Hash} {vv : UInt64} (hin : BuildInput pre acc [(p, vh, vv)]) :
    BuildOutput pre acc [(p, vh, vv)] (build_from_pairs rem acc pre [(p, vh, vv)]) := by
  have hfree : acc.pending[(⟨acc.new_version, pre⟩ : NodeKey)]? = none := by
    rw [Option.eq_none_iff_forall_ne_some]
    intro n hn
    exact hin.free _ n hn List.prefix_rfl
  obtain ⟨acc', hput, hadds⟩ := put_leaf_spec acc pre ⟨p, vh, vv⟩ hfree
    (hin.cts (p, vh, vv) (List.mem_singleton_self _))
  refine ⟨.leaf acc.new_version ⟨p, vh, vv⟩, acc', ?_, ⟨?_, ?_, ?_⟩, ?_⟩
  · unfold build_from_pairs
    rw [hput]
    rfl
  · exact hin.under (p, vh, vv) (List.mem_singleton_self _)
  · intro x hx
    rw [Tree.mem_nodes_leaf.mp hx]
  · intro q
    rw [Tree.find, List.lookup_cons]
    by_cases hq : q = p
    · subst hq; simp [pairLeaf]
    · simp [beq_false_of_ne hq, Ne.symm hq]
  · exact hadds

theorem build_many {rem : Nat} {x y : Pair} {rest : List Pair} (hlen : pre.length < 64)
    (ih : ∀ i acc g, BuildInput (pre ++ [i]) acc g →
      BuildOutput (pre ++ [i]) acc g (build_from_pairs rem acc (pre ++ [i]) g))
    (hin : BuildInput pre acc (x :: y :: rest)) :
    BuildOutput pre acc (x :: y :: rest) (build_from_pairs (rem + 1) acc pre (x :: y :: rest)) := by
  obtain ⟨hnodup, hgroups⟩ := nibbleGroups_spec hlen hin.rising hin.under
  have hgin : ∀ z ∈ nibbleGroups pre.length (x :: y :: rest), BuildInput (pre ++ [z.1]) acc z.2 := by
    intro z hz
    obtain ⟨heq, -, hr, hu⟩ := hgroups z.1 z.2 hz
    refine ⟨hr, hu, hin.free.child z.1, fun w hw => hin.cts w ?_⟩
    rw [heq] at hw
    exact (List.mem_filter.mp hw).1
  obtain ⟨c, acc1, hfold, hkeep, hbuilt, hadds⟩ := build_groups ih _ hnodup (fun _ => .empty) acc hgin
  have hc : ∀ i, Built acc.new_version (pre ++ [i])
      ((x :: y :: rest).filter fun z => nibble z.1 pre.length = i) (c i) := by
    intro i
    by_cases hi : i ∈ (nibbleGroups pre.length (x :: y :: rest)).map Prod.fst
    · obtain ⟨z, hz, rfl⟩ := List.mem_map.mp hi
      rw [← (hgroups z.1 z.2 hz).1]
      exact hbuilt z hz
    · rw [hkeep i hi, filter_eq_nil_of_not_group hi]
      exact Built.empty _ _
  have hnode := Built.node hlen hin.rising (by simp) hc
  have hfree : acc1.pending[(⟨acc1.new_version, pre⟩ : NodeKey)]? = none := by
    rw [Option.eq_none_iff_forall_ne_some]
    intro n hn
    rcases (hadds.pending _ n).mp hn with hold | ⟨i, -, hi⟩
    · exact hin.free _ n hold List.prefix_rfl
    · have hp := Tree.pfx_of_mem hi
      exact not_slot_prefix hp
  have hput := hadds.trans (putInternal_adds (fun i => (c i).ref) hfree)
  refine ⟨.node acc.new_version c, (putInternal acc1 pre fun i => (c i).ref).2, ?_, hnode, ?_⟩
  · unfold build_from_pairs
    have hempty : (fun i : Nibble => (Tree.empty).ref) = fun _ => none := rfl
    rw [hempty] at hfold
    rw [hfold]
    simp only [bind, Except.bind, pure, Except.pure, putInternal, Tree.ref, hadds.new_version]
  rw [Set.union_self, hadds.new_version] at hput
  convert hput using 1
  ext z
  simp only [Tree.mem_nodes_node, Set.mem_union, Set.mem_ofPred_eq, Set.mem_singleton_iff, Tree.record]
  constructor
  · rintro (rfl | ⟨i, hi⟩)
    · exact .inr rfl
    refine .inl ⟨i, ?_, hi⟩
    by_contra hno
    rw [hkeep i hno] at hi
    simp at hi
  · rintro (⟨i, -, hi⟩ | rfl)
    · exact .inr ⟨i, hi⟩
    · exact .inl rfl

theorem build_from_pairs_spec (rem : Nat) (pre : List Nibble) (hrem : pre.length + rem = 64) (acc : CommitAcc)
    (pairs : List Pair) (hin : BuildInput pre acc pairs) :
    BuildOutput pre acc pairs (build_from_pairs rem acc pre pairs) := by
  induction rem generalizing pre acc pairs with
  | zero =>
    match pairs, hin with
    | [], hin => exact ⟨.empty, acc, rfl, Built.empty _ _, Adds.refl acc⟩
    | [(p, vh, vv)], hin => exact build_one hin
    | x :: y :: rest, hin =>
      -- A full place is on one path only.
      have hxy := Under.eq_of_full (hin.under x (.head _))
        (hin.under y (.tail _ (.head _))) (by omega)
      have hlt := (List.pairwise_cons.mp hin.rising).1 y (.head _)
      rw [hxy] at hlt
      simp at hlt
  | succ rem ih =>
    match pairs, hin with
    | [], hin => exact ⟨.empty, acc, rfl, Built.empty _ _, Adds.refl acc⟩
    | [(p, vh, vv)], hin => exact build_one hin
    | x :: y :: rest, hin => exact build_many (by omega) (fun i => ih (pre ++ [i]) (by simp; omega)) hin

end MerkleStore

end EnclaveOs.Merkle
