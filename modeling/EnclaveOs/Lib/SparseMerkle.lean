import Mathlib

/-!
# Compressed binary Merkle trees

A set of entries is hashed along the bits of their paths. `canon` is that hash, `shape` is the tree behind it.
-/

namespace EnclaveOs.Lib.SparseMerkle

variable {P V D : Type}

/-! ## Hashes and their inputs -/

structure Hashing (P V D : Type) where
  empty : D
  leaf : P → V → D
  node : D → D → D

inductive Input (P V D : Type) where
  | empty
  | leaf (p : P) (v : V)
  | node (l r : D)

def Hashing.eval (H : Hashing P V D) : Input P V D → D
  | .empty => H.empty
  | .leaf p v => H.leaf p v
  | .node l r => H.node l r

def Hashing.NoCollision (H : Hashing P V D) (Q : Set (Input P V D)) : Prop := Set.InjOn H.eval Q

def Hashing.Collision (H : Hashing P V D) (Q : Set (Input P V D)) : Prop :=
  ∃ a ∈ Q, ∃ b ∈ Q, a ≠ b ∧ H.eval a = H.eval b

theorem Hashing.noCollision_or_collision (H : Hashing P V D) (Q : Set (Input P V D)) :
    H.NoCollision Q ∨ H.Collision Q := by
  by_contra hno
  obtain ⟨hinj, hcol⟩ := not_or.mp hno
  refine hinj fun a ha b hb he => ?_
  by_contra hne
  exact hcol ⟨a, ha, b, hb, hne, he⟩

inductive BTree (P V : Type) where
  | empty
  | leaf (p : P) (v : V)
  | node (l r : BTree P V)

namespace BTree

def hash (H : Hashing P V D) : BTree P V → D
  | .empty => H.empty
  | .leaf p v => H.leaf p v
  | .node l r => H.node (l.hash H) (r.hash H)

def top (H : Hashing P V D) : BTree P V → Input P V D
  | .empty => .empty
  | .leaf p v => .leaf p v
  | .node l r => .node (l.hash H) (r.hash H)

def inputs (H : Hashing P V D) : BTree P V → Set (Input P V D)
  | .empty => {.empty}
  | .leaf p v => {.leaf p v}
  | .node l r => insert (.node (l.hash H) (r.hash H)) (l.inputs H ∪ r.inputs H)

theorem eval_top (H : Hashing P V D) (t : BTree P V) : H.eval (t.top H) = t.hash H := by
  cases t <;> rfl

theorem top_mem_inputs (H : Hashing P V D) (t : BTree P V) : t.top H ∈ t.inputs H := by
  cases t <;> simp [top, inputs]

theorem top_eq_of_hash_eq {H : Hashing P V D} {Q : Set (Input P V D)} (hQ : H.NoCollision Q)
    {t : BTree P V} {e : Input P V D} (ht : t.inputs H ⊆ Q) (he : e ∈ Q)
    (h : t.hash H = H.eval e) : t.top H = e := by
  apply hQ (ht (top_mem_inputs H t)) he
  rw [eval_top, h]

theorem hash_inj {H : Hashing P V D} {Q : Set (Input P V D)} (hQ : H.NoCollision Q)
    (t u : BTree P V) (ht : t.inputs H ⊆ Q) (hu : u.inputs H ⊆ Q) (h : t.hash H = u.hash H) : t = u := by
  have htop : t.top H = u.top H := top_eq_of_hash_eq hQ ht (hu (top_mem_inputs H u)) (by rw [h, eval_top])
  induction t generalizing u with
  | empty | leaf p v => cases u <;> simp_all [top]
  | node l r ihl ihr =>
    cases u with
    | empty | leaf p v => simp [top] at htop
    | node l' r' =>
      simp only [inputs, Set.insert_subset_iff, Set.union_subset_iff] at ht hu
      simp only [top, Input.node.injEq] at htop
      have hl := top_eq_of_hash_eq hQ ht.2.1 (hu.2.1 (top_mem_inputs H l')) (by rw [htop.1, eval_top])
      have hr := top_eq_of_hash_eq hQ ht.2.2 (hu.2.2 (top_mem_inputs H r')) (by rw [htop.2, eval_top])
      rw [ihl l' ht.2.1 hu.2.1 htop.1 hl, ihr r' ht.2.2 hu.2.2 htop.2 hr]

def count : BTree P V → Nat
  | .empty => 0
  | .leaf _ _ => 1
  | .node l r => l.count + r.count

def entries : BTree P V → Set (P × V)
  | .empty => ∅
  | .leaf p v => {(p, v)}
  | .node l r => l.entries ∪ r.entries

inductive Sub (u : BTree P V) : BTree P V → Prop where
  | refl : Sub u u
  | left {l r : BTree P V} : Sub u l → Sub u (.node l r)
  | right {l r : BTree P V} : Sub u r → Sub u (.node l r)

theorem Sub.inputs_subset {H : Hashing P V D} {u t : BTree P V} (h : Sub u t) : u.inputs H ⊆ t.inputs H := by
  induction h with
  | refl => exact subset_rfl
  | left _ ih => exact fun x hx => Set.mem_insert_of_mem _ (.inl (ih hx))
  | right _ ih => exact fun x hx => Set.mem_insert_of_mem _ (.inr (ih hx))

/-! ## Following the bits of a path -/

/-- The subtree after `n` turns along `b`, the first turn at bit `d`. -/
def follow (b : Nat → Bool) : Nat → Nat → BTree P V → Option (BTree P V)
  | _, 0, t => some t
  | d, n + 1, .node l r => follow b (d + 1) n (if b d then r else l)
  | _, _ + 1, _ => none

/-- The hashes beside the path, highest first, and where it ends. -/
def descend (H : Hashing P V D) (b : Nat → Bool) : Nat → BTree P V → List D × BTree P V
  | d, .node l r =>
    if b d then
      let below := descend H b (d + 1) r
      (l.hash H :: below.1, below.2)
    else
      let below := descend H b (d + 1) l
      (r.hash H :: below.1, below.2)
  | _, t => ([], t)

theorem follow_descend (H : Hashing P V D) (b : Nat → Bool) (d : Nat) (t : BTree P V) :
    follow b d (descend H b d t).1.length t = some (descend H b d t).2 := by
  induction t generalizing d with
  | empty | leaf => rfl
  | node l r ihl ihr =>
    by_cases hb : b d
    · simp only [descend, hb, if_true, List.length_cons, follow]
      exact ihr (d + 1)
    · simp only [descend, hb, Bool.false_eq_true, if_false, List.length_cons, follow]
      exact ihl (d + 1)

end BTree

/-- What a verifier computes from `x` at the bottom. -/
def climb (H : Hashing P V D) (b : Nat → Bool) : Nat → List D → D → D
  | _, [], x => x
  | d, s :: rest, x =>
    if b d then H.node s (climb H b (d + 1) rest x) else H.node (climb H b (d + 1) rest x) s

def climbInputs (H : Hashing P V D) (b : Nat → Bool) : Nat → List D → D → Set (Input P V D)
  | _, [], _ => ∅
  | d, s :: rest, x =>
    let below := climb H b (d + 1) rest x
    insert (if b d then .node s below else .node below s) (climbInputs H b (d + 1) rest x)

theorem climb_descend (H : Hashing P V D) (b : Nat → Bool) (d : Nat) (t : BTree P V) :
    climb H b d (t.descend H b d).1 ((t.descend H b d).2.hash H) = t.hash H := by
  induction t generalizing d with
  | empty | leaf => rfl
  | node l r ihl ihr =>
    by_cases hb : b d
    · simp only [BTree.descend, hb, if_true, climb, ihr, BTree.hash]
    · simp only [BTree.descend, hb, Bool.false_eq_true, if_false, climb, ihl, BTree.hash]

/-- A climb that ends at the root of `t` started at the subtree on the path. -/
theorem follow_of_climb {H : Hashing P V D} {Q : Set (Input P V D)} (hQ : H.NoCollision Q)
    (b : Nat → Bool) (d : Nat) (sibs : List D) (x : D) (t : BTree P V) (ht : t.inputs H ⊆ Q)
    (hc : climbInputs H b d sibs x ⊆ Q) (h : climb H b d sibs x = t.hash H) :
    ∃ u, t.follow b d sibs.length = some u ∧ u.Sub t ∧ u.hash H = x := by
  induction sibs generalizing d t with
  | nil => exact ⟨t, rfl, .refl, h.symm⟩
  | cons s rest ih =>
    simp only [climbInputs, Set.insert_subset_iff] at hc
    have heval : t.hash H =
        H.eval (if b d then .node s (climb H b (d + 1) rest x) else .node (climb H b (d + 1) rest x) s) := by
      rw [← h, climb]
      split <;> rfl
    have htop := BTree.top_eq_of_hash_eq hQ ht hc.1 heval
    cases t with
    | empty | leaf p v => cases hb : b d <;> simp [BTree.top, hb] at htop
    | node l r =>
      simp only [BTree.inputs, Set.insert_subset_iff, Set.union_subset_iff] at ht
      rcases hb : b d with _ | _
      · simp only [BTree.top, hb, Bool.false_eq_true, if_false, Input.node.injEq] at htop
        obtain ⟨u, hu, hsub, hx⟩ := ih (d + 1) l ht.2.1 hc.2 htop.1.symm
        exact ⟨u, by simpa [BTree.follow, hb] using hu, hsub.left, hx⟩
      · simp only [BTree.top, hb, if_true, Input.node.injEq] at htop
        obtain ⟨u, hu, hsub, hx⟩ := ih (d + 1) r ht.2.2 hc.2 htop.2.symm
        exact ⟨u, by simpa [BTree.follow, hb] using hu, hsub.right, hx⟩

/-! ## The tree of a set of entries -/

section Shape

variable (bit : P → Nat → Bool)

/-- The hash of a set of entries, with `n` bits left from bit `d` on. -/
noncomputable def canon (H : Hashing P V D) : Nat → Nat → Finset (P × V) → D
  | n, d, S =>
    match S.toList with
    | [] => H.empty
    | [x] => H.leaf x.1 x.2
    | _ =>
      match n with
      | 0 => H.empty
      | n + 1 =>
        H.node (canon H n (d + 1) {x ∈ S | bit x.1 d = false})
          (canon H n (d + 1) {x ∈ S | bit x.1 d = true})

noncomputable def shape : Nat → Nat → Finset (P × V) → BTree P V
  | n, d, S =>
    match S.toList with
    | [] => .empty
    | [x] => .leaf x.1 x.2
    | _ =>
      match n with
      | 0 => .empty
      | n + 1 =>
        .node (shape n (d + 1) {x ∈ S | bit x.1 d = false})
          (shape n (d + 1) {x ∈ S | bit x.1 d = true})

/-- Two entries that agree in the bits `d` to `d + n` are one. -/
def Separated (n d : Nat) (S : Finset (P × V)) : Prop :=
  ∀ x ∈ S, ∀ y ∈ S, (∀ i, d ≤ i → i < d + n → bit x.1 i = bit y.1 i) → x = y

variable {bit}

@[simp] theorem shape_empty (n d : Nat) : shape bit n d (∅ : Finset (P × V)) = .empty := by
  unfold shape
  simp

@[simp] theorem shape_singleton (n d : Nat) (x : P × V) : shape bit n d {x} = .leaf x.1 x.2 := by
  unfold shape
  simp

variable {S : Finset (P × V)} {n d : Nat}

theorem toList_of_two_le (h : 2 ≤ S.card) : ∃ x y l, S.toList = x :: y :: l := by
  rw [← Finset.length_toList] at h
  match S.toList, h with
  | x :: y :: l, _ => exact ⟨x, y, l, rfl⟩

theorem shape_split (h : 2 ≤ S.card) :
    shape bit (n + 1) d S = .node (shape bit n (d + 1) {x ∈ S | bit x.1 d = false})
      (shape bit n (d + 1) {x ∈ S | bit x.1 d = true}) := by
  obtain ⟨x, y, l, hl⟩ := toList_of_two_le h
  rw [shape, hl]

@[simp] theorem canon_singleton (H : Hashing P V D) (n d : Nat) (x : P × V) :
    canon bit H n d {x} = H.leaf x.1 x.2 := by
  unfold canon
  simp

theorem canon_split (H : Hashing P V D) (h : 2 ≤ S.card) :
    canon bit H (n + 1) d S = H.node (canon bit H n (d + 1) {x ∈ S | bit x.1 d = false})
      (canon bit H n (d + 1) {x ∈ S | bit x.1 d = true}) := by
  obtain ⟨x, y, l, hl⟩ := toList_of_two_le h
  rw [canon, hl]

theorem hash_shape (H : Hashing P V D) (n d : Nat) (S : Finset (P × V)) :
    (shape bit n d S).hash H = canon bit H n d S := by
  induction n generalizing d S with
  | zero =>
    unfold shape canon
    split <;> rfl
  | succ n ih =>
    unfold shape canon
    split
    · rfl
    · rfl
    · simp only [BTree.hash, ih]

theorem card_cases (S : Finset (P × V)) : S = ∅ ∨ (∃ x, S = {x}) ∨ 2 ≤ S.card := by
  rcases Nat.lt_or_ge S.card 2 with h | h
  · rcases Nat.lt_or_ge S.card 1 with h' | h'
    · exact .inl (Finset.card_eq_zero.mp (by omega))
    · exact .inr (.inl (Finset.card_eq_one.mp (by omega)))
  · exact .inr (.inr h)

theorem card_filter_bit (d : Nat) (S : Finset (P × V)) :
    Finset.card {x ∈ S | bit x.1 d = false} + Finset.card {x ∈ S | bit x.1 d = true} = S.card := by
  rw [← Finset.card_filter_add_card_filter_not (s := S) (fun x => bit x.1 d = false)]
  simp

theorem Separated.filter (h : Separated bit (n + 1) d S) (b : Bool) :
    Separated bit n (d + 1) {x ∈ S | bit x.1 d = b} := by
  intro x hx y hy hag
  simp only [Finset.mem_filter] at hx hy
  apply h x hx.1 y hy.1
  intro i hi hi'
  rcases Nat.eq_or_lt_of_le hi with rfl | hlt
  · rw [hx.2, hy.2]
  · exact hag i hlt (by omega)

theorem Separated.card_le_one (h : Separated bit 0 d S) : S.card ≤ 1 := by
  rw [Finset.card_le_one]
  intro x hx y hy
  exact h x hx y hy (fun i _ _ => by omega)

theorem entries_shape (h : Separated bit n d S) : (shape bit n d S).entries = ↑S ∧ (shape bit n d S).count = S.card := by
  induction n generalizing d S with
  | zero =>
    have hc := h.card_le_one
    rcases card_cases S with rfl | ⟨x, rfl⟩ | h2
    · simp [BTree.entries, BTree.count]
    · simp [BTree.entries, BTree.count]
    · omega
  | succ n ih =>
    rcases card_cases S with rfl | ⟨x, rfl⟩ | h2
    iterate 2 · simp [BTree.entries, BTree.count]
    obtain ⟨hleft, hcount⟩ := ih (h.filter false)
    obtain ⟨hright, hcount'⟩ := ih (h.filter true)
    rw [shape_split h2, BTree.entries, BTree.count, hleft, hright, hcount, hcount', card_filter_bit]
    refine ⟨?_, rfl⟩
    ext x
    cases hb : bit x.1 d <;> simp [hb]

theorem shape_eq_empty (h : Separated bit n d S) (he : shape bit n d S = .empty) : S = ∅ := by
  have := (entries_shape h).2
  rw [he] at this
  exact Finset.card_eq_zero.mp this.symm

theorem shape_eq_leaf (h : Separated bit n d S) {p : P} {v : V}
    (he : shape bit n d S = .leaf p v) : S = {(p, v)} := by
  have := (entries_shape h).1
  rw [he, BTree.entries] at this
  exact_mod_cast this.symm

open Classical in
theorem follow_shape {n d : Nat} {S : Finset (P × V)} (b : Nat → Bool) (k : Nat) {u : BTree P V}
    (h : (shape bit n d S).follow b d k = some u) :
    k ≤ n ∧ u = shape bit (n - k) (d + k) {x ∈ S | ∀ i, d ≤ i → i < d + k → bit x.1 i = b i} := by
  induction k generalizing n d S with
  | zero =>
    simp only [BTree.follow, Option.some.injEq] at h
    refine ⟨Nat.zero_le _, ?_⟩
    rw [← h]
    congr 1
    exact (Finset.filter_true_of_mem fun x _ i hi hi' => by omega).symm
  | succ k ih =>
    rcases card_cases S with rfl | ⟨x, rfl⟩ | h2
    iterate 2 · simp [BTree.follow] at h
    rcases n with _ | n
    · obtain ⟨x, y, l, hl⟩ := toList_of_two_le h2
      rw [shape, hl] at h
      simp [BTree.follow] at h
    rw [shape_split h2] at h
    have hb : (shape bit n (d + 1) {x ∈ S | bit x.1 d = b d}).follow b (d + 1) k = some u := by
      cases hbd : b d <;> simpa [BTree.follow, hbd] using h
    obtain ⟨hk, hu⟩ := ih hb
    refine ⟨by omega, ?_⟩
    rw [hu, Finset.filter_filter, show n + 1 - (k + 1) = n - k by omega, show d + (k + 1) = d + 1 + k by omega]
    congr 1
    ext x
    simp only [Finset.mem_filter, and_congr_right_iff]
    intro _
    constructor
    · rintro ⟨h0, hrest⟩ i hi hi'
      rcases Nat.eq_or_lt_of_le hi with rfl | hlt
      · exact h0
      · exact hrest i hlt hi'
    · intro hall
      exact ⟨hall d (le_refl d) (by omega), fun i hi hi' => hall i (by omega) hi'⟩

end Shape

end EnclaveOs.Lib.SparseMerkle
