import EnclaveOs.Merkle.Query
import EnclaveOs.Merkle.Read

/-! # Proofs of a stored tree -/

open EnclaveOs.Lib EnclaveOs.Lib.SparseMerkle

namespace EnclaveOs.Merkle

namespace MerkleStore

section

variable [Crypto]

def terminal (leaf : Option (Hash × Hash)) : BTree Hash Hash :=
  match leaf with
  | some (path, vh) => .leaf path vh
  | none => .empty

noncomputable def wayDown (p : Hash) (pre : List Nibble) (t : Tree) : List Hash × BTree Hash Hash :=
  (Tree.shapeAt pre t).descend nodeHashing (bit p) (4 * pre.length)

noncomputable def wayThrough (p : Hash) (pre : List Nibble) (c : Nibble → Tree) (start level : Nat) :
    List Hash × BTree Hash Hash :=
  (Tree.rangeShape pre c start level).descend nodeHashing (bit p) (4 * pre.length + 4 - level)

/-! ## Inside a branch -/

/-- Where the descent inside a branch ends, with the hashes beside the way. -/
inductive DescendsTo (p : Hash) (pre : List Nibble) (c : Nibble → Tree) (way : List Hash × BTree Hash Hash) :
    SlotEnd → List Hash → Prop where
  | empty (h : way.2 = .empty) : DescendsTo p pre c way .empty way.1
  | leaf {i : Nibble} {v : UInt64} {l : LeafNode} (hc : c i = .leaf v l) (h : way.2 = .leaf l.path l.vh) :
    DescendsTo p pre c way (.leaf i ⟨v, (Node.leaf l).hash, true⟩) way.1
  | child {r : Child} {sibs : List Hash} (hr : (c (nibble p pre.length)).ref = some r) (hl : r.is_leaf = false)
    (h : way = (sibs ++ (wayDown p (pre ++ [nibble p pre.length]) (c (nibble p pre.length))).1,
      (wayDown p (pre ++ [nibble p pre.length]) (c (nibble p pre.length))).2)) :
    DescendsTo p pre c way (.child r) sibs

variable {p : Hash} {pre : List Nibble} {c : Nibble → Tree}

theorem DescendsTo.cons {way : List Hash × BTree Hash Hash} {e : SlotEnd} {sibs : List Hash}
    (h : DescendsTo p pre c way e sibs) (x : Hash) : DescendsTo p pre c (x :: way.1, way.2) e (x :: sibs) := by
  cases h with
  | empty he => exact .empty he
  | leaf hc he => exact .leaf hc he
  | child hr hl hw =>
    refine .child hr hl ?_
    rw [hw]
    rfl

theorem descendSlots_few {level start : Nat} (hfew : ∀ i r rest,
      presentSlots (fun i => (c i).ref) start (2 ^ level) = (i, r) :: rest → rest.isEmpty ∧ r.is_leaf) :
    ∃ e sibs, (∀ acc, descendSlots (fun i => (c i).ref) (nibble p pre.length) level start acc = (e, acc ++ sibs)) ∧
      DescendsTo p pre c (wayThrough p pre c start level) e sibs := by
  unfold descendSlots
  rcases presentSlots_cases (fun i => (c i).ref) start (2 ^ level) with
    ⟨hp, hnone⟩ | ⟨i, r, hp, h1, h2, hr, honly⟩ | ⟨i, r, x, l, hp, -⟩
  · have hempty := Tree.rangeEntries_eq_empty fun j h1 h2 => Tree.ref_eq_none.mp (hnone j h1 h2)
    have hd : wayThrough p pre c start level = ([], .empty) := by
      simp [wayThrough, Tree.rangeShape, hempty, BTree.descend]
    rw [hd]
    exact ⟨.empty, [], fun acc => by simp [hp], .empty rfl⟩
  · have hleaf := (hfew _ _ _ hp).2
    obtain ⟨v, l, hc⟩ := Tree.ref_leaf hr hleaf
    have hentries := Tree.rangeEntries_eq h1 h2 fun j h1 h2 hne => Tree.ref_eq_none.mp (honly j h1 h2 hne)
    have hd : wayThrough p pre c start level = ([], .leaf l.path l.vh) := by
      simp [wayThrough, Tree.rangeShape, hentries, hc, Tree.entries, BTree.descend]
    rw [hd]
    refine ⟨.leaf i r, [], fun acc => by cases level <;> rw [hp] <;> simp [hleaf], ?_⟩
    rw [hc] at hr
    rw [← Option.some.inj hr]
    exact .leaf hc rfl
  · exact absurd (hfew _ _ _ hp).1 (by simp)

theorem descendSlots_spec (hlen : pre.length < 64) (hwf : ∀ i, (c i).WF (pre ++ [i])) (level start : Nat)
    (hl : level ≤ 4) (hs : start % 2 ^ level = 0) (hle : start + 2 ^ level ≤ 16)
    (hin : start ≤ (nibble p pre.length).val ∧ (nibble p pre.length).val < start + 2 ^ level)
    (hsep : Tree.RangeSeparated pre c start level) :
    ∃ e sibs, (∀ acc, descendSlots (fun i => (c i).ref) (nibble p pre.length) level start acc = (e, acc ++ sibs)) ∧
      DescendsTo p pre c (wayThrough p pre c start level) e sibs := by
  induction level generalizing start with
  | zero =>
    obtain rfl : start = (nibble p pre.length).val := by omega
    rcases presentSlots_cases (fun i => (c i).ref) (nibble p pre.length).val (2 ^ 0) with
      ⟨hp, -⟩ | ⟨i, r, hp, h1, h2, hr, -⟩ | ⟨i, r, x, l, hp, k, r', hne, h1, h2, -, h3, h4, -⟩
    · exact descendSlots_few (by simp only [hp]; nofun)
    · obtain rfl : i = nibble p pre.length := Fin.ext (by omega)
      rcases hleaf : r.is_leaf with _ | _
      · refine ⟨.child r, [], fun acc => by unfold descendSlots; rw [hp]; simp [hleaf], .child hr hleaf ?_⟩
        unfold wayThrough wayDown
        rw [Tree.rangeShape_zero hlen, List.length_append, List.length_singleton]
        rfl
      · exact descendSlots_few fun i r' rest h => by cases hp.symm.trans h; exact ⟨rfl, hleaf⟩
    · exact absurd (Fin.ext (by omega : k.val = i.val)) hne
  | succ level ih =>
    by_cases hfew : ∀ i r rest, presentSlots (fun i => (c i).ref) start (2 ^ (level + 1)) = (i, r) :: rest →
        rest.isEmpty ∧ r.is_leaf
    · exact descendSlots_few hfew
    push Not at hfew
    obtain ⟨i, r, rest, hp, hmany⟩ := hfew
    have hmany : ¬ (rest.isEmpty ∧ r.is_leaf) := fun h => hmany h.1 h.2
    have hs0 : start % 2 ^ level = 0 := by
      rw [pow_succ] at hs
      exact Nat.mod_eq_zero_of_dvd (dvd_trans (dvd_mul_right _ 2) (Nat.dvd_of_mod_eq_zero hs))
    have hleft := Tree.RangeSeparated.left hwf (by omega) hs hsep
    have hright := Tree.RangeSeparated.right hwf (by omega) hs hsep
    have hhash := fun start => Tree.subtree_hash_eq hlen hwf (fun i => Tree.hash_eq_shape (hwf i)) level start (by omega)
    -- The turn that the path takes here is the bit of its nibble.
    have hbit : bit p (4 * pre.length + 4 - (level + 1)) = decide (start + 2 ^ level ≤ (nibble p pre.length).val) := by
      rw [show 4 * pre.length + 4 - (level + 1) = 4 * pre.length + (3 - level) by omega,
        bit_eq_testBit p _ _ (by omega), show 3 - (3 - level) = level by omega]
      exact Tree.testBit_of_range hs hin.1 hin.2
    have hway : wayThrough p pre c start (level + 1) =
        ((Tree.rangeShape pre c start level).node (Tree.rangeShape pre c (start + 2 ^ level) level)).descend
          nodeHashing (bit p) (4 * pre.length + 4 - (level + 1)) := by
      rw [wayThrough, Tree.rangeShape_split hwf (by omega) hs (Tree.two_le_card_of_present hwf hp hmany)]
    rw [hway, BTree.descend, hbit, show 4 * pre.length + 4 - (level + 1) + 1 = 4 * pre.length + 4 - level by omega]
    unfold descendSlots
    simp only [hp, if_neg hmany]
    rw [pow_succ] at hle hin
    split
    · rename_i hlt
      obtain ⟨e, sibs, he, hd⟩ := ih start (by omega) hs0 (by omega) ⟨hin.1, hlt⟩ hleft
      rw [if_neg (by simp; omega), ← hhash _ (by rw [Nat.add_mod_right]; exact hs0) (by omega) hright]
      exact ⟨e, _ :: sibs, fun acc => by rw [he, List.append_assoc]; rfl, hd.cons _⟩
    · rename_i hge
      obtain ⟨e, sibs, he, hd⟩ := ih (start + 2 ^ level) (by omega) (by rw [Nat.add_mod_right]; exact hs0) (by omega)
        ⟨by omega, by omega⟩ hright
      rw [if_pos (by simp; omega), ← hhash _ hs0 (by omega) hleft]
      exact ⟨e, _ :: sibs, fun acc => by rw [he, List.append_assoc]; rfl, hd.cons _⟩

theorem descendSlots_node {v : UInt64} (hwf : (Tree.node v c).WF pre) : ∃ e sibs,
    (∀ acc, descendSlots (fun i => (c i).ref) (nibble p pre.length) 4 0 acc = (e, acc ++ sibs)) ∧
      DescendsTo p pre c (wayDown p pre (.node v c)) e sibs := by
  have hway : wayThrough p pre c 0 4 = wayDown p pre (.node v c) := by
    unfold wayThrough wayDown
    rw [Tree.rangeShape_four hwf.1 v]
    rfl
  rw [← hway]
  exact descendSlots_spec hwf.1 hwf.2.2 4 0 (le_refl 4) (by norm_num) (by norm_num) ⟨Nat.zero_le _, by omega⟩
    (Tree.rangeSeparated_four hwf)

end

/-! ## Down the tree -/

variable {B : Type} [KvBackend B] [AtomicBackend B] [Crypto]

/-- What is done where the slots end. -/
def provePathEnd (p : Hash) (rem : Nat) (pre : List Nibble) :
    SlotEnd × List Hash → StoreM B (Option LeafNode × List Hash)
  | (.empty, siblings) => pure (none, siblings)
  | (.leaf idx c, siblings) => do
    match ← load_node ⟨c.version, pre ++ [idx]⟩ c.hash with
    | .leaf leaf => pure (some leaf, siblings)
    | .internal _ => fail (kindMismatch ⟨c.version, pre ++ [idx]⟩)
  | (.child c, siblings) => provePathFrom p rem c (pre ++ [nibble p pre.length]) siblings

theorem gives_provePathFrom (p : Hash) (t : Tree) (pre : List Nibble) (hwf : t.WF pre) :
    ∃ leaf : Option LeafNode, (wayDown p pre t).2 = terminal (leaf.map fun l => (l.path, l.vh)) ∧
      ∀ (rem : Nat) (s : MerkleStore B) (r : Child) (acc : List Hash), t.ref = some r → Stored s pre t →
        pre.length + rem = 64 → Gives (provePathFrom p rem r pre acc) s (.ok (leaf, acc ++ (wayDown p pre t).1)) := by
  induction t generalizing pre with
  | empty => exact ⟨none, by simp [wayDown, Tree.shapeAt, Tree.entries, BTree.descend, terminal], by simp [Tree.ref]⟩
  | leaf v l =>
    have hway : wayDown p pre (.leaf v l) = ([], .leaf l.path l.vh) := by
      simp [wayDown, Tree.shapeAt, Tree.entries, BTree.descend]
    rw [hway]
    refine ⟨some l, rfl, fun rem s r acc hr hst hrem => ?_⟩
    have hag := hst (⟨v, pre⟩, .leaf l) (by simp)
    simp only [Tree.ref, Option.some.injEq] at hr
    subst hr
    rw [List.append_nil]
    unfold provePathFrom
    refine gives_bind (gives_load_node hag) fun s1 hs1 => ?_
    simp only [Node.is_leaf, ne_eq, not_true_eq_false, if_false]
    exact gives_pure _ _
  | node v c ih =>
    obtain ⟨e, sibs, hdesc, hend⟩ := descendSlots_node (p := p) hwf
    obtain ⟨below, hbelow, hgives⟩ := ih (nibble p pre.length) _ (hwf.2.2 _)
    have hlen : (pre ++ [nibble p pre.length]).length = pre.length + 1 := by simp
    -- The leaf that the slots lead to: none, a leaf of this node, or what the child leads to.
    obtain ⟨leaf, hterm, hend'⟩ : ∃ leaf : Option LeafNode,
        (wayDown p pre (.node v c)).2 = terminal (leaf.map fun l => (l.path, l.vh)) ∧
        ∀ (rem : Nat) (s : MerkleStore B) (acc : List Hash), Stored s pre (.node v c) → pre.length + (rem + 1) = 64 →
          Gives (provePathEnd p rem pre (e, acc ++ sibs)) s (.ok (leaf, acc ++ (wayDown p pre (.node v c)).1)) := by
      cases hend with
      | empty he => exact ⟨none, he, fun _ _ _ _ _ => gives_pure _ _⟩
      | leaf hc he =>
        rename_i i w l
        refine ⟨some l, he, fun rem s acc hst _ => ?_⟩
        have hleaf := (hst.child i) (⟨w, pre ++ [i]⟩, .leaf l) (by rw [hc]; simp)
        exact gives_bind (gives_load_node hleaf) fun s2 _ => gives_pure _ _
      | child hr hl hway =>
        refine ⟨below, by rw [hway]; exact hbelow, fun rem s acc hst hrem => ?_⟩
        rw [hway, ← List.append_assoc]
        exact hgives rem s _ _ hr (hst.child _) (by rw [hlen]; omega)
    refine ⟨leaf, hterm, fun rem s r acc hr hst hrem => ?_⟩
    obtain ⟨rem, rfl⟩ : ∃ k, rem = k + 1 := ⟨rem - 1, by have := hwf.1; omega⟩
    have hag := hst (⟨v, pre⟩, Tree.record c) (by simp)
    simp only [Tree.ref, Option.some.injEq] at hr
    subst hr
    unfold provePathFrom
    refine gives_bind (gives_load_node hag) fun s1 hs1 => ?_
    simp only [Tree.record, Node.is_leaf, ne_eq, not_true_eq_false, if_false, hdesc]
    exact hend' rem s1 acc (hst.of_same hs1) hrem

theorem reads_provePathFrom (p : Hash) (rem : Nat) (child : Child) (pfx : List Nibble) (acc : List Hash) :
    Reads (provePathFrom p rem child pfx acc : StoreM B (Option LeafNode × List Hash)) := by
  induction rem generalizing child pfx acc with
  | zero =>
    unfold provePathFrom
    refine reads_bind (reads_load_node _ _) fun n => reads_ite (reads_fail _) ?_
    cases n with
    | leaf l => exact reads_pure _
    | internal m => exact reads_throw _
  | succ rem ih =>
    unfold provePathFrom
    refine reads_bind (reads_load_node _ _) fun n => reads_ite (reads_fail _) ?_
    cases n with
    | leaf l => exact reads_pure _
    | internal m =>
      simp only
      split
      · exact reads_pure _
      · refine reads_bind (reads_load_node _ _) fun n => ?_
        cases n with
        | leaf l => exact reads_pure _
        | internal m => exact reads_fail _
      · exact ih _ _ _

theorem reads_prove_path (root_child : Option Child) (p : Hash) :
    Reads (prove_path root_child p : StoreM B Proof) := by
  unfold prove_path
  rcases root_child with _ | child
  · exact reads_pure _
  · exact reads_bind (reads_provePathFrom _ _ _ _ _) fun _ => reads_pure _

theorem reads_prove (key : Bytes) : Reads (prove key : StoreM B Proof) :=
  reads_bind reads_state fun _ => reads_prove_path _ _

theorem reads_prove_at (v : UInt64) (key : Bytes) : Reads (prove_at v key : StoreM B Proof) :=
  reads_bind (reads_checkVersion v) fun _ => reads_bind (reads_load_root_record v) fun _ =>
    reads_bind (reads_load_root_child _ _) fun _ => reads_bind reads_state fun _ => reads_prove_path _ _

/-! ## The proof verifies -/

/-- The siblings and the end of the way down to `p`. -/
structure ProofOf (p : Hash) (t : Tree) (proof : Proof) : Prop where
  siblings : proof.siblings.reverse = (wayDown p [] t).1
  leaf : terminal proof.leaf = (wayDown p [] t).2

theorem gives_prove_path (p : Hash) {t : Tree} (hwf : t.WF []) :
    ∃ proof, ProofOf p t proof ∧ ∀ s : MerkleStore B, Stored s [] t → Gives (prove_path t.ref p) s (.ok proof) := by
  obtain ⟨leaf, hterm, hgives⟩ := gives_provePathFrom (B := B) p t [] hwf
  rcases hr : t.ref with _ | r
  · refine ⟨⟨none, []⟩, ?_, fun s _ => gives_pure _ _⟩
    rw [Tree.ref_eq_none.mp hr]
    constructor <;> simp [wayDown, Tree.shapeAt, Tree.entries, BTree.descend, terminal]
  refine ⟨⟨leaf.map fun l => (l.path, l.vh), (wayDown p [] t).1.reverse⟩, ⟨List.reverse_reverse _, hterm.symm⟩,
    fun s hst => ?_⟩
  unfold prove_path
  refine gives_bind (hgives NIBBLES s r [] hr hst rfl) fun s1 hs1 => ?_
  exact gives_pure _ _

section

omit [KvBackend B] [AtomicBackend B]

variable {p : Hash} {t : Tree} {proof : Proof}

open Classical in
theorem ProofOf.entries (h : ProofOf p t proof) (hwf : t.WF []) : proof.siblings.length ≤ 256 ∧
    {x ∈ t.entries | ∀ i, i < proof.siblings.length → bit x.1 i = bit p i} =
      match proof.leaf with
      | some e => {e}
      | none => ∅ := by
  have hfollow := BTree.follow_descend nodeHashing (bit p) 0 (Tree.shapeAt [] t)
  have hlen : (wayDown p [] t).1.length = proof.siblings.length := by rw [← h.siblings, List.length_reverse]
  have hend : (wayDown p [] t).2 = terminal proof.leaf := h.leaf.symm
  unfold wayDown at hlen hend
  simp only [List.length_nil, Nat.mul_zero] at hlen hend
  rw [hlen, hend] at hfollow
  obtain ⟨hle, hshape⟩ := follow_shape (bit p) _ hfollow
  simp only [zero_le, forall_true_left, zero_add] at hshape
  refine ⟨hle, ?_⟩
  have hsep : Separated bit (256 - 4 * ([] : List Nibble).length - proof.siblings.length) proof.siblings.length
      {x ∈ t.entries | ∀ i, i < proof.siblings.length → bit x.1 i = bit p i} := by
    intro x hx y hy hag
    obtain ⟨hx, hxp⟩ := Finset.mem_filter.mp hx
    obtain ⟨hy, hyp⟩ := Finset.mem_filter.mp hy
    refine hwf.separated x hx y hy fun i _ hi => ?_
    rcases Nat.lt_or_ge i proof.siblings.length with hlt | hge
    · rw [hxp i hlt, hyp i hlt]
    · exact hag i hge (by simp only [List.length_nil] at hi ⊢; omega)
  rcases hleaf : proof.leaf with _ | e
  · rw [hleaf] at hshape
    exact shape_eq_empty hsep hshape.symm
  · rw [hleaf] at hshape
    exact shape_eq_leaf hsep hshape.symm

theorem ProofOf.verify (h : ProofOf p t proof) (hwf : t.WF []) :
    EnclaveOs.Merkle.verify t.hash p proof = .ok (match t.find p 0 with
      | some l => .present l.vh
      | none => .absent) := by
  classical
  obtain ⟨hle, hset⟩ := h.entries hwf
  have hmem : ∀ l, t.find p 0 = some l →
      (p, l.vh) ∈ {x ∈ t.entries | ∀ i, i < proof.siblings.length → bit x.1 i = bit p i} := by
    intro l hl
    exact Finset.mem_filter.mpr ⟨(Tree.mem_entries_iff hwf p l.vh).mpr ⟨l, hl, rfl⟩, fun i _ => rfl⟩
  rw [hset] at hmem
  have hclimb := climb_descend nodeHashing (bit p) 0 (Tree.shapeAt [] t)
  have hway : (wayDown p [] t) = (Tree.shapeAt [] t).descend nodeHashing (bit p) 0 := rfl
  rw [← hway, ← h.siblings, ← h.leaf, ← Tree.hash_eq_shape hwf] at hclimb
  rw [verify_eq_ok]
  refine ⟨hle, (terminal proof.leaf).hash nodeHashing, ?_, hclimb⟩
  unfold verifyStart
  rcases hleaf : proof.leaf with _ | e
  · rw [hleaf] at hmem
    rcases hf : t.find p 0 with _ | l
    · rfl
    · exact absurd (hmem l hf) (by simp)
  obtain ⟨lp, vh⟩ := e
  rw [hleaf] at hmem hset
  have hin : (lp, vh) ∈ {x ∈ t.entries | ∀ i, i < proof.siblings.length → bit x.1 i = bit p i} := by
    rw [hset]
    exact Finset.mem_singleton_self _
  obtain ⟨hentry, hbits⟩ := Finset.mem_filter.mp hin
  simp only
  by_cases hp : lp = p
  · subst hp
    obtain ⟨l, hl, rfl⟩ := (Tree.mem_entries_iff hwf lp vh).mp hentry
    rw [if_pos rfl, show t.find lp 0 = some l from hl]
    rfl
  · rw [if_neg hp, if_neg (Nat.not_lt.mpr ((le_common_prefix_bits lp p hle).mpr hbits))]
    rcases hf : t.find p 0 with _ | l
    · rfl
    · exact absurd (congrArg Prod.fst (Finset.mem_singleton.mp (hmem l hf))) (Ne.symm hp)

end

end MerkleStore

end EnclaveOs.Merkle
