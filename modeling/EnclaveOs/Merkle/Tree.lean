import EnclaveOs.Merkle.Codec
import EnclaveOs.Merkle.Path

/-!
# The tree behind the records

One version of the store, without the records that it is stored in.
-/

open EnclaveOs.Lib

namespace EnclaveOs.Merkle

inductive Tree where
  | empty
  | leaf (version : UInt64) (l : LeafNode)
  | node (version : UInt64) (c : Nibble → Tree)

inductive Ref where
  | node (nk : NodeKey)
  | value (l : LeafNode)

def Ref.key : Ref → Bytes
  | .node nk => node_record_key nk
  | .value l => value_record_key l.vh l.value_version

namespace Tree

section

variable [Crypto]

def ref : Tree → Option Child
  | .empty => none
  | .leaf v l => some ⟨v, (Node.leaf l).hash, true⟩
  | .node v c => some ⟨v, (Node.internal ⟨fun i => (c i).ref⟩).hash, false⟩

def record (c : Nibble → Tree) : Node := .internal ⟨fun i => (c i).ref⟩

def hash (t : Tree) : Hash :=
  match t.ref with
  | some c => c.hash
  | none => placeholder

def nodes : List Nibble → Tree → Set (NodeKey × Node)
  | _, .empty => ∅
  | pre, .leaf v l => {(⟨v, pre⟩, .leaf l)}
  | pre, .node v c => insert (⟨v, pre⟩, record c) {x | ∃ i, x ∈ (c i).nodes (pre ++ [i])}

def refs (pre : List Nibble) (t : Tree) : Set Ref :=
  {r | match r with
    | .node nk => ∃ n, (nk, n) ∈ t.nodes pre
    | .value l => ∃ nk, (nk, .leaf l) ∈ t.nodes pre}

end

def find (p : Hash) : Nat → Tree → Option LeafNode
  | _, .empty => none
  | _, .leaf _ l => if l.path = p then some l else none
  | d, .node _ c => (c (nibble p d)).find p (d + 1)

def entries : Tree → Finset (Hash × Hash)
  | .empty => ∅
  | .leaf _ l => {(l.path, l.vh)}
  | .node _ c => Finset.univ.biUnion fun i => (c i).entries

/-- Leaves are on their paths, and a node stands over two entries or more. -/
def WF : List Nibble → Tree → Prop
  | _, .empty => True
  | pre, .leaf _ l => Under pre l.path
  | pre, .node v c => pre.length < 64 ∧ 2 ≤ (entries (.node v c)).card ∧ ∀ i, (c i).WF (pre ++ [i])

def version : Tree → Option UInt64
  | .empty => none
  | .leaf v _ => some v
  | .node v _ => some v

/-! ## Entries and leaves -/

variable {e : Hash × Hash} {pre : List Nibble} {t : Tree} {c : Nibble → Tree}

@[simp] theorem mem_entries_node {v : UInt64} : e ∈ entries (.node v c) ↔ ∃ i, e ∈ (c i).entries := by
  simp [entries]

theorem WF.under (h : t.WF pre) (he : e ∈ t.entries) : Under pre e.1 := by
  induction t generalizing pre with
  | empty => simp [entries] at he
  | leaf v l =>
    simp only [entries, Finset.mem_singleton] at he
    rw [he]
    exact h
  | node v c ih =>
    obtain ⟨i, hi⟩ := mem_entries_node.mp he
    exact (ih i (h.2.2 i) hi).of_append

theorem WF.mem_child {v : UInt64} (h : (node v c).WF pre)
    {i : Nibble} (he : e ∈ (c i).entries) : nibble e.1 pre.length = i :=
  (under_append_one.mp ((h.2.2 i).under he)).2.2

theorem mem_entries_iff (h : t.WF pre) (p vh : Hash) :
    (p, vh) ∈ t.entries ↔ ∃ l, t.find p pre.length = some l ∧ l.vh = vh := by
  induction t generalizing pre with
  | empty => simp [entries, find]
  | leaf v l =>
    simp only [entries, Finset.mem_singleton, find, Prod.mk.injEq]
    constructor
    · rintro ⟨rfl, rfl⟩
      exact ⟨l, by simp⟩
    · rintro ⟨l', hl, rfl⟩
      split at hl
      · simp_all
      · simp at hl
  | node v c ih =>
    rw [mem_entries_node, find]
    have hlen : (pre ++ [nibble p pre.length]).length = pre.length + 1 := by simp
    rw [← hlen, ← ih _ (h.2.2 _)]
    constructor
    · rintro ⟨i, hi⟩
      rw [h.mem_child hi]
      exact hi
    · intro hi
      exact ⟨_, hi⟩

theorem find_path {p : Hash} {d : Nat} {l : LeafNode} (h : t.find p d = some l) : l.path = p := by
  induction t generalizing d with
  | empty => simp [find] at h
  | leaf v l' =>
    simp only [find] at h
    split at h
    · simp_all
    · simp at h
  | node v c ih => exact ih _ h

theorem WF.eq_empty (h : t.WF pre) (he : t.entries = ∅) : t = .empty := by
  cases t with
  | empty => rfl
  | leaf v l => simp [entries] at he
  | node v c =>
    have := h.2.1
    rw [he] at this
    simp at this

theorem WF.exists_mem (h : t.WF pre) (ht : t ≠ .empty) : ∃ e, e ∈ t.entries := by
  by_contra hno
  exact ht (h.eq_empty (Finset.eq_empty_of_forall_notMem fun e he => hno ⟨e, he⟩))

variable [Crypto]

variable {t : Tree} {pre : List Nibble} {v : UInt64} {x : NodeKey × Node} {l : LeafNode} {r : Ref}

@[simp] theorem ref_eq_none : t.ref = none ↔ t = .empty := by
  cases t <;> simp [ref]

theorem version_eq (t : Tree) : t.version = t.ref.map Child.version := by
  cases t <;> rfl

@[simp] theorem mem_nodes_node :
    x ∈ nodes pre (.node v c) ↔ x = (⟨v, pre⟩, record c) ∨ ∃ i, x ∈ (c i).nodes (pre ++ [i]) := by
  simp [nodes]

@[simp] theorem mem_nodes_leaf : x ∈ nodes pre (.leaf v l) ↔ x = (⟨v, pre⟩, .leaf l) := by
  simp [nodes]

@[simp] theorem not_mem_nodes_empty : x ∉ nodes pre .empty := by
  simp [nodes]

@[simp] theorem mem_refs_node {nk : NodeKey} : .node nk ∈ t.refs pre ↔ ∃ n, (nk, n) ∈ t.nodes pre := Iff.rfl

@[simp] theorem mem_refs_value : .value l ∈ t.refs pre ↔ ∃ nk, (nk, .leaf l) ∈ t.nodes pre := Iff.rfl

theorem pfx_of_mem (h : x ∈ t.nodes pre) : pre <+: x.1.pfx := by
  induction t generalizing pre with
  | empty => simp at h
  | leaf v l =>
    rw [mem_nodes_leaf] at h
    rw [h]
  | node v c ih =>
    rcases mem_nodes_node.mp h with rfl | ⟨i, hi⟩
    · exact List.prefix_rfl
    · exact (List.prefix_append pre [i]).trans (ih i hi)

theorem node_unique {nk nk' : NodeKey} {n m : Node}
    (hn : (nk, n) ∈ t.nodes pre) (hm : (nk', m) ∈ t.nodes pre) (hp : nk.pfx = nk'.pfx) : nk = nk' ∧ n = m := by
  induction t generalizing pre with
  | empty => simp at hn
  | leaf v l => simp_all
  | node v c ih =>
    rcases mem_nodes_node.mp hn with h1 | ⟨i, hi⟩ <;> rcases mem_nodes_node.mp hm with h2 | ⟨j, hj⟩
    · simp_all
    · have := pfx_of_mem hj
      simp only [Prod.mk.injEq] at h1
      rw [← hp, h1.1] at this
      exact absurd this not_slot_prefix
    · have := pfx_of_mem hi
      simp only [Prod.mk.injEq] at h2
      rw [hp, h2.1] at this
      exact absurd this not_slot_prefix
    · have hij := slot_unique (pfx_of_mem hi) (hp ▸ pfx_of_mem hj)
      subst hij
      exact ih i hi hj

theorem WF.pfx_le (h : t.WF pre) (hx : x ∈ t.nodes pre) : x.1.pfx.length ≤ 64 := by
  induction t generalizing pre with
  | empty => simp at hx
  | leaf v l =>
    rw [mem_nodes_leaf] at hx
    rw [hx]
    exact Under.length_le h
  | node v c ih =>
    rcases mem_nodes_node.mp hx with rfl | ⟨i, hi⟩
    · exact le_of_lt h.1
    · exact ih i (h.2.2 i) hi

theorem WF.decode_encode (h : t.WF pre) (hx : x ∈ t.nodes pre) : Node.decode x.2.encode = .ok x.2 := by
  induction t generalizing pre with
  | empty => simp at hx
  | leaf v l =>
    rw [mem_nodes_leaf] at hx
    rw [hx]
    exact Node.decode_encode_leaf l
  | node v c ih =>
    rcases mem_nodes_node.mp hx with rfl | ⟨i, hi⟩
    · apply Node.decode_encode
      rintro m hm
      obtain ⟨e, he⟩ := h.exists_mem (by simp)
      obtain ⟨i, hi⟩ := mem_entries_node.mp he
      refine ⟨i, ?_⟩
      simp only [record, Node.internal.injEq] at hm
      rw [← hm, Option.isSome_iff_ne_none]
      intro hnone
      rw [ref_eq_none.mp hnone] at hi
      simp [entries] at hi
    · exact ih i (h.2.2 i) hi

theorem mem_leaf_iff (h : t.WF pre) (l : LeafNode) :
    (∃ nk, (nk, Node.leaf l) ∈ t.nodes pre) ↔ Under pre l.path ∧ t.find l.path pre.length = some l := by
  induction t generalizing pre with
  | empty => simp [find]
  | leaf v l' =>
    simp only [mem_nodes_leaf, Prod.mk.injEq, Node.leaf.injEq, find]
    constructor
    · rintro ⟨nk, -, rfl⟩
      exact ⟨h, by simp⟩
    · rintro ⟨-, hl⟩
      split at hl
      · exact ⟨_, rfl, by simpa using hl.symm⟩
      · simp at hl
  | node v c ih =>
    have hlen : ∀ i, (pre ++ [i]).length = pre.length + 1 := by simp
    simp only [mem_nodes_node, record, Prod.mk.injEq, reduceCtorEq, and_false, false_or, find]
    constructor
    · rintro ⟨nk, i, hi⟩
      obtain ⟨hu, hf⟩ := (ih i (h.2.2 i)).mp ⟨nk, hi⟩
      obtain ⟨hu, -, hnib⟩ := under_append_one.mp hu
      rw [hlen] at hf
      exact ⟨hu, by rw [hnib]; exact hf⟩
    · rintro ⟨hu, hf⟩
      have hu' : Under (pre ++ [nibble l.path pre.length]) l.path := under_append_one.mpr ⟨hu, h.1, rfl⟩
      rw [← hlen (nibble l.path pre.length)] at hf
      obtain ⟨nk, hnk⟩ := (ih _ (h.2.2 _)).mpr ⟨hu', hf⟩
      exact ⟨nk, _, hnk⟩

/-! ## The records that a tree needs -/

@[simp] theorem not_mem_refs_empty : r ∉ refs pre .empty := by
  cases r <;> simp

@[simp] theorem mem_refs_leaf : r ∈ refs pre (.leaf v l) ↔ r = .node ⟨v, pre⟩ ∨ r = .value l := by
  cases r with
  | node nk | value l' => simp

@[simp] theorem mem_refs_internal :
    r ∈ refs pre (.node v c) ↔ r = .node ⟨v, pre⟩ ∨ ∃ i, r ∈ (c i).refs (pre ++ [i]) := by
  cases r with
  | node nk =>
    simp only [mem_refs_node, mem_nodes_node, Prod.mk.injEq, Ref.node.injEq]
    constructor
    · rintro ⟨n, ⟨rfl, -⟩ | ⟨i, hi⟩⟩
      · exact .inl rfl
      · exact .inr ⟨i, n, hi⟩
    · rintro (rfl | ⟨i, n, hi⟩)
      · exact ⟨record c, .inl ⟨rfl, rfl⟩⟩
      · exact ⟨n, .inr ⟨i, hi⟩⟩
  | value l =>
    simp only [mem_refs_value, mem_nodes_node, record, Prod.mk.injEq, reduceCtorEq, and_false, false_or]
    constructor
    · rintro ⟨nk, i, hi⟩
      exact ⟨i, nk, hi⟩
    · rintro ⟨i, nk, hi⟩
      exact ⟨nk, i, hi⟩

theorem WF.ref_below (h : t.WF pre) (hr : r ∈ t.refs pre) : match r with
    | .node nk => pre <+: nk.pfx
    | .value l => Under pre l.path := by
  cases r with
  | node nk =>
    obtain ⟨n, hn⟩ := hr
    exact pfx_of_mem hn
  | value l => exact ((mem_leaf_iff h l).mp hr).1

theorem WF.slot_eq {t' : Tree} {i j : Nibble} (h : t.WF (pre ++ [i]))
    (h' : t'.WF (pre ++ [j])) (hr : r ∈ t.refs (pre ++ [i])) (hr' : r ∈ t'.refs (pre ++ [j])) : i = j := by
  have hb := h.ref_below hr
  have hb' := h'.ref_below hr'
  cases r with
  | node nk | value l => exact slot_unique hb hb'

theorem exists_root_record (pre : List Nibble) (h : t.version = some v) : ∃ n, (⟨v, pre⟩, n) ∈ t.nodes pre := by
  cases t with
  | empty => simp [version] at h
  | leaf v' l =>
    simp only [version, Option.some.injEq] at h
    exact ⟨.leaf l, by simp [h]⟩
  | node v' c =>
    simp only [version, Option.some.injEq] at h
    exact ⟨record c, by simp [h]⟩

end Tree

end EnclaveOs.Merkle
