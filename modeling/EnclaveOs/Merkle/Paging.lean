import EnclaveOs.Merkle.Archive
import EnclaveOs.Merkle.Query

/-! # Pages of a stored tree -/

open EnclaveOs.Lib

namespace EnclaveOs.Merkle

namespace Tree

/-! ## The leaves in their order -/

def leaves : Tree → List LeafNode
  | .empty => []
  | .leaf _ l => [l]
  | .node _ c => (List.finRange 16).flatMap fun i => (c i).leaves

variable {t : Tree} {l : LeafNode} {pre : List Nibble}

theorem mem_leaves [Crypto] (pre : List Nibble) : l ∈ t.leaves ↔ ∃ nk, (nk, .leaf l) ∈ t.nodes pre := by
  induction t generalizing pre with
  | empty | leaf v l' => simp [leaves]
  | node v c ih =>
    simp only [leaves, List.mem_flatMap, List.mem_finRange, true_and, mem_nodes_node, record, Prod.mk.injEq,
      reduceCtorEq, and_false, false_or]
    constructor
    · rintro ⟨i, hi⟩
      obtain ⟨nk, hnk⟩ := (ih i (pre ++ [i])).mp hi
      exact ⟨nk, i, hnk⟩
    · rintro ⟨nk, i, hnk⟩
      exact ⟨i, (ih i (pre ++ [i])).mpr ⟨nk, hnk⟩⟩

theorem WF.under_leaves (h : t.WF pre) (hl : l ∈ t.leaves) : Under pre l.path := by
  induction t generalizing pre with
  | empty => simp [leaves] at hl
  | leaf v l' =>
    obtain rfl := List.mem_singleton.mp hl
    exact h
  | node v c ih =>
    obtain ⟨i, -, hi⟩ := List.mem_flatMap.mp hl
    exact (ih i (h.2.2 i) hi).of_append

theorem WF.leaves_ne_nil (h : t.WF pre) (ht : t ≠ .empty) : t.leaves ≠ [] := by
  induction t generalizing pre with
  | empty => exact absurd rfl ht
  | leaf v l => simp [leaves]
  | node v c ih =>
    obtain ⟨e, he⟩ := h.exists_mem ht
    obtain ⟨i, hi⟩ := mem_entries_node.mp he
    have hne : c i ≠ .empty := by
      intro hempty
      simp [hempty, entries] at hi
    obtain ⟨l, hl⟩ := List.exists_mem_of_ne_nil _ (ih i (h.2.2 i) hne)
    exact List.ne_nil_of_mem (List.mem_flatMap.mpr ⟨i, List.mem_finRange i, hl⟩)

theorem WF.compare_slots {v : UInt64} {c : Nibble → Tree} (h : (node v c).WF pre) {i : Nibble}
    (hl : l ∈ (c i).leaves) {p : Hash} (hp : Under pre p) :
    (i < nibble p pre.length → compare l.path p = .lt) ∧ (nibble p pre.length < i → compare p l.path = .lt) := by
  obtain ⟨hu, -, hnib⟩ := under_append_one.mp ((h.2.2 i).under_leaves hl)
  refine ⟨fun hlt => compare_lt_of_nibble hu hp h.1 ?_, fun hlt => compare_lt_of_nibble hp hu h.1 ?_⟩
  · rw [hnib]
    exact hlt
  · rw [hnib]
    exact hlt

end Tree

def Version.value (c : Version) (p : Hash) : Bytes := (c.map p).getD []

namespace MerkleStore

/-- `out`, filled up from `rest`. True when `rest` is exhausted. -/
def page {α : Type} (max : Nat) (out rest : List α) : Bool × List α :=
  (decide (rest.length ≤ max - out.length), out ++ rest.take (max - out.length))

variable {α : Type} {max : Nat} {v : UInt64}

@[simp] theorem page_nil (max : Nat) (out : List α) : page max out [] = (true, out) := by
  simp [page]

theorem page_full {out rest : List α} (h : max ≤ out.length) (hr : rest ≠ []) : page max out rest = (false, out) := by
  have := List.length_pos_of_ne_nil hr
  have h0 : max - out.length = 0 := by omega
  unfold page
  rw [h0, decide_eq_false (by omega), List.take_zero, List.append_nil]

theorem page_fits {out xs : List α} (h : xs.length ≤ max - out.length) (ys : List α) :
    page max out xs = (true, out ++ xs) ∧ page max (out ++ xs) ys = page max out (xs ++ ys) := by
  constructor
  · unfold page
    rw [decide_eq_true h, List.take_of_length_le h]
  unfold page
  rw [List.length_append, List.length_append, List.take_append, List.take_of_length_le h, List.append_assoc]
  congr 2
  · rw [eq_iff_iff]
    omega
  · congr 1
    rw [show max - (out.length + xs.length) = max - out.length - xs.length by omega]

theorem page_over {out xs : List α} (h : ¬ xs.length ≤ max - out.length) (ys : List α) :
    page max out xs = (false, out ++ xs.take (max - out.length)) ∧ page max out (xs ++ ys) = page max out xs := by
  constructor
  · unfold page
    rw [decide_eq_false h]
  · unfold page
    rw [decide_eq_false h, decide_eq_false (by rw [List.length_append]; omega),
      List.take_append_of_le_length (by omega)]

def after (start_after : Option Hash) (l : LeafNode) : Bool := !start_after.any fun sa => compare l.path sa != .gt

def leafPairs (val : Hash → Bytes) (start_after : Option Hash) (t : Tree) : List (Hash × Bytes) :=
  (t.leaves.filter (after start_after)).map fun l => (l.path, val l.path)

def childBound (start_after : Option Hash) (resume_nib : Option Nibble) (i : Nibble) : Option Hash :=
  if resume_nib = some i then start_after else none

@[simp] theorem after_none (l : LeafNode) : after none l = true := rfl

@[simp] theorem leafPairs_none (val : Hash → Bytes) (t : Tree) :
    leafPairs val none t = t.leaves.map fun l => (l.path, val l.path) := by
  unfold leafPairs
  rw [List.filter_eq_self.mpr fun l _ => after_none l]

theorem leafPairs_node {pre : List Nibble} {c : Nibble → Tree} (h : (Tree.node v c).WF pre)
    (val : Hash → Bytes) {start_after : Option Hash} (hsa : ∀ p, start_after = some p → Under pre p) :
    leafPairs val start_after (.node v c) = (List.finRange 16).flatMap fun i =>
      if (start_after.map fun sa => nibble sa pre.length).any (i < ·) then []
      else leafPairs val (childBound start_after (start_after.map fun sa => nibble sa pre.length) i) (c i) := by
  have hleaves : (Tree.node v c).leaves = (List.finRange 16).flatMap fun i => (c i).leaves := rfl
  unfold leafPairs
  rw [hleaves, List.filter_flatMap, List.map_flatMap]
  refine List.flatMap_congr fun i _ => ?_
  rcases hs : start_after with _ | p
  · simp [childBound]
  have hp := hsa p hs
  simp only [Option.map_some, Option.any_some, decide_eq_true_eq, childBound, Option.some.injEq]
  have hafter : ∀ l, after (some p) l = true ↔ compare l.path p = .gt := by simp [after]
  rcases lt_trichotomy i (nibble p pre.length) with hlt | heq | hgt
  · rw [if_pos hlt, List.filter_eq_nil_iff.mpr fun l hl => ?_, List.map_nil]
    rw [hafter, (h.compare_slots hl hp).1 hlt]
    simp
  · rw [if_neg (by rw [heq]; exact lt_irrefl _), if_pos heq.symm]
  · rw [if_neg (not_lt_of_gt hgt), if_neg (ne_of_lt hgt)]
    congr 1
    refine List.filter_congr fun l hl => ?_
    rw [after_none, hafter]
    exact Std.OrientedCmp.gt_of_lt ((h.compare_slots hl hp).2 hgt)

variable {B : Type} [KvBackend B] [AtomicBackend B] [Crypto] {s : MerkleStore B}

/-- The child of the bound is visited first, so there is room when it is entered. -/
theorem gives_collectChildren {max : Nat} {visit : Child → List Nibble → Option Hash → List (Hash × Bytes) →
      StoreM B (Bool × List (Hash × Bytes))} {c : Nibble → Tree} {pre : List Nibble} {sa : Option Hash}
    {rn : Option Nibble} {val : Hash → Bytes}
    (hvisit : ∀ i r s1 out, (c i).ref = some r → Same s s1 → (rn = some i → out.length < max) →
      Gives (visit r (pre ++ [i]) (childBound sa rn i) out) s1
        (.ok (page max out (leafPairs val (childBound sa rn i) (c i)))))
    (nibs : List Nibble) (hsorted : nibs.Pairwise (· < ·)) (s1 : MerkleStore B) (hs1 : Same s s1)
    (out : List (Hash × Bytes)) (hroom : ∀ n ∈ nibs, rn = some n → out.length < max) :
    Gives (collectChildren visit (fun i => (c i).ref) pre sa rn nibs out) s1
      (.ok (page max out (nibs.flatMap fun i =>
        if rn.any (i < ·) then [] else leafPairs val (childBound sa rn i) (c i)))) := by
  induction nibs generalizing s1 out with
  | nil =>
    rw [List.flatMap_nil, page_nil]
    exact gives_pure _ _
  | cons i nibs ih =>
    obtain ⟨hi, hsorted⟩ := List.pairwise_cons.mp hsorted
    rw [List.flatMap_cons]
    unfold collectChildren
    by_cases hskip : rn.any (i < ·) = true
    · rw [if_pos hskip, if_pos hskip, List.nil_append]
      exact ih hsorted s1 hs1 out fun n hn => hroom n (.tail _ hn)
    rw [if_neg hskip, if_neg hskip]
    rcases hc : (c i).ref with _ | r
    · have hnil : leafPairs val (childBound sa rn i) (c i) = [] := by
        rw [Tree.ref_eq_none.mp hc]
        rfl
      rw [hnil, List.nil_append]
      exact ih hsorted s1 hs1 out fun n hn => hroom n (.tail _ hn)
    have hv := hvisit i r s1 out hc hs1 (hroom i (.head _))
    by_cases hfit : (leafPairs val (childBound sa rn i) (c i)).length ≤ max - out.length
    · obtain ⟨hpage, hrest⟩ := page_fits hfit (nibs.flatMap fun i =>
        if rn.any (i < ·) then [] else leafPairs val (childBound sa rn i) (c i))
      rw [hpage] at hv
      rw [← hrest]
      refine gives_bind hv fun s2 hs2 => ?_
      -- No slot after this one is the slot of the bound.
      refine ih hsorted s2 (Same.trans _ _ _ hs1 hs2) _ fun n hn hrn => ?_
      subst hrn
      exact absurd (hi n hn) (by simpa using hskip)
    · obtain ⟨hpage, hrest⟩ := page_over hfit (nibs.flatMap fun i =>
        if rn.any (i < ·) then [] else leafPairs val (childBound sa rn i) (c i))
      rw [hrest, hpage]
      rw [hpage] at hv
      exact gives_bind hv fun s2 _ => gives_pure _ _

/-- With a bound there must be room for one leaf: a full page does not look at the rest. -/
theorem gives_collect_leaves {max : Nat} (val : Hash → Bytes) (t : Tree) (pre : List Nibble) (hwf : t.WF pre)
    (fuel : Nat) (hfuel : 65 ≤ pre.length + fuel) (s : MerkleStore B) (r : Child) (hr : t.ref = some r)
    (hst : Stored s pre t) (hval : ∀ l ∈ t.leaves, ValueAt s l (val l.path)) (sa : Option Hash)
    (hsa : ∀ p, sa = some p → Under pre p) (out : List (Hash × Bytes)) (hroom : sa.isSome → out.length < max) :
    Gives (collect_leaves max fuel r pre sa out) s (.ok (page max out (leafPairs val sa t))) := by
  induction t generalizing pre fuel s r sa out with
  | empty => simp [Tree.ref] at hr
  | leaf v l =>
    obtain ⟨fuel, rfl⟩ : ∃ k, fuel = k + 1 := ⟨fuel - 1, by have := Under.length_le hwf; omega⟩
    have hag := hst (⟨v, pre⟩, .leaf l) (by simp)
    simp only [Tree.ref, Option.some.injEq] at hr
    subst hr
    unfold collect_leaves
    by_cases hfull : out.length ≥ max
    · have hnone : sa = none := by
        rcases sa with _ | p
        · rfl
        · exact absurd (hroom rfl) (by omega)
      rw [if_pos hfull, hnone, page_full hfull (by simp [Tree.leaves])]
      exact gives_pure _ _
    rw [if_neg hfull]
    refine gives_bind (gives_load_node hag) fun s1 hs1 => ?_
    have hl := (hval l (by simp [Tree.leaves])).of_same hs1
    by_cases hold : sa.any (fun sa => compare l.path sa != .gt) = true
    · have hnil : leafPairs val sa (.leaf v l) = [] := by simp [leafPairs, Tree.leaves, after, hold]
      simp only [if_pos hold, hnil, page_nil]
      exact gives_pure _ _
    have hone : leafPairs val sa (.leaf v l) = [(l.path, val l.path)] := by
      simp [leafPairs, Tree.leaves, after, hold]
    have hfit : [(l.path, val l.path)].length ≤ max - out.length := by
      rw [List.length_singleton]
      omega
    rw [hone, (page_fits hfit []).1]
    simp only [if_neg hold]
    exact gives_bind (gives_read_value hl) fun s2 _ => gives_pure _ _
  | node v c ih =>
    have hlen := hwf.1
    obtain ⟨fuel, rfl⟩ : ∃ k, fuel = k + 1 := ⟨fuel - 1, by omega⟩
    have hag := hst (⟨v, pre⟩, Tree.record c) (by simp)
    simp only [Tree.ref, Option.some.injEq] at hr
    subst hr
    unfold collect_leaves
    by_cases hfull : out.length ≥ max
    · have hnone : sa = none := by
        rcases sa with _ | p
        · rfl
        · exact absurd (hroom rfl) (by omega)
      have hne := hwf.leaves_ne_nil (by simp)
      rw [if_pos hfull, hnone, page_full hfull (by simpa using hne)]
      exact gives_pure _ _
    · rw [if_neg hfull]
      refine gives_bind (gives_load_node hag) fun s1 hs1 => ?_
      simp only [Tree.record]
      rw [if_neg (by rintro ⟨-, h⟩; exact absurd h (by simp [NIBBLES]; omega)), leafPairs_node hwf val hsa]
      refine gives_collectChildren (s := s1) (fun i r s2 out hr hs2 hroom' => ?_) _ (List.pairwise_lt_finRange 16) s1
        (Same.refl s1) out fun n _ _ => by omega
      refine ih i (pre ++ [i]) (hwf.2.2 i) fuel (by simp; omega) s2 r hr
        ((hst.child i).of_same (Same.trans _ _ _ hs1 hs2)) (fun l hl => ?_) _ (fun p hp => ?_) out fun hsome => ?_
      · have hin : l ∈ (Tree.node v c).leaves := List.mem_flatMap.mpr ⟨i, List.mem_finRange i, hl⟩
        exact ((hval l hin).of_same hs1).of_same hs2
      · unfold childBound at hp
        split at hp
        · rename_i hrn
          rw [hp] at hrn
          exact under_append_one.mpr ⟨hsa p hp, hlen, Option.some.inj hrn⟩
        · simp at hp
      · unfold childBound at hsome
        split at hsome
        · rename_i hrn
          exact hroom' hrn
        · simp at hsome

/-! ## Snapshot pages of a version -/

/-- An empty page is the last one only in an empty tree. -/
def leafPage (val : Hash → Bytes) (max : Nat) (start_after : Option Hash) (t : Tree) : List (Hash × Bytes) × Bool :=
  if max = 0 then ([], t.leaves.isEmpty)
  else ((leafPairs val start_after t).take max, decide ((leafPairs val start_after t).length ≤ max))

theorem Faithful.gives_snapshot_leaves {U : Set (Hash × Bytes)} {H : Archive}
    {c : Version} (h : Faithful U H s) (hR : RootsApart s.ck U) (hc : H v = some c) (fuel : Nat) (hfuel : 65 ≤ fuel)
    (start_after : Option Hash) (max : Nat) :
    Gives (snapshot_leaves fuel v start_after max) s (.ok (leafPage c.value max start_after c.tree)) := by
  have hk := h.consistent.kept v c hc
  unfold snapshot_leaves
  refine gives_bind hk.gives_load_root_record fun s1 hs1 => ?_
  have h1 := h.of_same hs1
  refine gives_bind ((h1.consistent.kept v c hc).gives_load_root_child fun hne => ?_) fun s2 hs2 => ?_
  · exact hk.hash_ne hR (h.within v c hc) hne
  have h2 := h1.of_same hs2
  have hk2 := h2.consistent.kept v c hc
  cases hr : c.tree.ref with
  | none =>
    rw [Tree.ref_eq_none.mp hr]
    have hpage : leafPage c.value max start_after .empty = ([], true) := by
      unfold leafPage
      split <;> simp [leafPairs, Tree.leaves]
    rw [hpage]
    exact gives_pure _ _
  | some r =>
    have hne : c.tree ≠ .empty := fun he => by simp [he, Tree.ref] at hr
    by_cases hmax : max = 0
    · have hpage : leafPage c.value max start_after c.tree = ([], false) := by
        rw [leafPage, if_pos hmax, List.isEmpty_eq_false_iff.mpr (hk.wf.leaves_ne_nil hne)]
      obtain ⟨fuel, rfl⟩ : ∃ k, fuel = k + 1 := ⟨fuel - 1, by omega⟩
      rw [hpage, hmax]
      exact gives_pure _ _
    · have hpage : leafPage c.value max start_after c.tree =
          ((page max [] (leafPairs c.value start_after c.tree)).2, (page max [] (leafPairs c.value start_after c.tree)).1) := by
        simp [leafPage, hmax, page]
      rw [hpage]
      refine gives_bind (gives_collect_leaves c.value c.tree [] hk2.wf fuel (by simpa using hfuel) s2 r hr
        hk2.stored (fun l hl => ?_) start_after (fun p _ => under_nil p) [] fun _ => ?_) fun s3 _ => ?_
      · have hfind := ((Tree.mem_leaf_iff hk2.wf l).mp ((Tree.mem_leaves []).mp hl)).2
        obtain ⟨x, hx, -⟩ := hk2.map_of_find hfind
        have hval : c.value l.path = x := by rw [Version.value, hx]; rfl
        rw [hval]
        exact h2.readable v c hc l.path l x hfind hx
      · rw [List.length_nil]
        omega
      · exact gives_pure _ _

omit [Crypto] in
theorem reads_collectChildren {α : Type} {visit : Child → List Nibble → Option Hash → α → StoreM B (Bool × α)}
    (hvisit : ∀ r pfx sa out, Reads (visit r pfx sa out)) (children : Nibble → Option Child) (pfx : List Nibble)
    (sa : Option Hash) (rn : Option Nibble) (nibs : List Nibble) (out : α) :
    Reads (collectChildren visit children pfx sa rn nibs out) := by
  induction nibs generalizing out with
  | nil => exact reads_pure _
  | cons i nibs ih =>
    unfold collectChildren
    refine reads_ite (ih out) ?_
    rcases children i with _ | r
    · exact ih out
    · exact reads_bind (hvisit _ _ _ _) fun _ => reads_ite (reads_pure _) (ih _)

theorem reads_collect_leaves (max fuel : Nat) (child : Child) (pfx : List Nibble) (sa : Option Hash)
    (out : List (Hash × Bytes)) : Reads (collect_leaves max fuel child pfx sa out : StoreM B _) := by
  induction fuel generalizing child pfx sa out with
  | zero => exact reads_throw _
  | succ fuel ih =>
    unfold collect_leaves
    refine reads_ite (reads_pure _) (reads_bind (reads_load_node _ _) fun n => ?_)
    cases n with
    | leaf l => exact reads_ite (reads_pure _) (reads_bind (reads_read_value _ _ _) fun _ => reads_pure _)
    | internal m => exact reads_ite (reads_throw _) (reads_collectChildren ih _ _ _ _ _ _)

theorem reads_snapshot_leaves (fuel : Nat) (v : UInt64) (sa : Option Hash) (max : Nat) :
    Reads (snapshot_leaves fuel v sa max : StoreM B (List (Hash × Bytes) × Bool)) := by
  unfold snapshot_leaves
  refine reads_bind (reads_load_root_record v) fun root => reads_bind (reads_load_root_child _ _) fun rc => ?_
  rcases rc with _ | r
  · exact reads_pure _
  · exact reads_bind (reads_collect_leaves _ _ _ _ _ _) fun _ => reads_pure _

end MerkleStore

end EnclaveOs.Merkle
