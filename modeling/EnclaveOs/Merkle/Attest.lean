import EnclaveOs.Merkle.Reach
import EnclaveOs.Merkle.Root

/-! # What a proof says -/

open EnclaveOs.Lib EnclaveOs.Lib.SparseMerkle

namespace EnclaveOs.Merkle

section

variable [Crypto] {proof : Proof} {p : Hash}

def startInput (proof : Proof) : Input Hash Hash Hash :=
  match proof.leaf with
  | some (path, vh) => .leaf path vh
  | none => .empty

def verifyInputs (p : Hash) (proof : Proof) : Set (Input Hash Hash Hash) :=
  insert (startInput proof)
    (climbInputs nodeHashing (bit p) 0 proof.siblings.reverse (nodeHashing.eval (startInput proof)))

def Verified.Holds (p : Hash) (S : Finset (Hash × Hash)) : Verified → Prop
  | .present vh => (p, vh) ∈ S
  | .absent => ∀ vh, (p, vh) ∉ S

theorem verifyStart_ok {acc : Hash} {st : Verified}
    (h : verifyStart p proof = .ok (acc, st)) : acc = nodeHashing.eval (startInput proof) ∧
      (st = .absent ∧ (∀ vh, proof.leaf ≠ some (p, vh)) ∨ ∃ vh, proof.leaf = some (p, vh) ∧ st = .present vh) := by
  unfold verifyStart startInput at *
  rcases hl : proof.leaf with _ | ⟨lp, vh⟩
  · rw [hl] at h
    obtain ⟨rfl, rfl⟩ := Prod.mk.inj (Except.ok.inj h)
    exact ⟨rfl, .inl ⟨rfl, by simp⟩⟩
  rw [hl] at h
  simp only at h
  split at h
  · rename_i hp
    obtain ⟨rfl, rfl⟩ := Prod.mk.inj (Except.ok.inj h)
    exact ⟨rfl, .inr ⟨vh, by rw [hp], rfl⟩⟩
  · rename_i hp
    split at h
    · simp [throw, throwThe, MonadExceptOf.throw] at h
    · obtain ⟨rfl, rfl⟩ := Prod.mk.inj (Except.ok.inj h)
      exact ⟨rfl, .inl ⟨rfl, by simp [hp]⟩⟩

open Classical in
theorem entries_of_climb {S : Finset (Hash × Hash)} {Q : Set (Input Hash Hash Hash)}
    (hsep : Separated bit 256 0 S) (hQ : nodeHashing.NoCollision Q) (hS : canonInputs S ⊆ Q)
    (hin : verifyInputs p proof ⊆ Q)
    (h : climb nodeHashing (bit p) 0 proof.siblings.reverse (nodeHashing.eval (startInput proof)) = canonRoot S) :
    ({x ∈ S | ∀ i, i < proof.siblings.length → bit x.1 i = bit p i} : Finset (Hash × Hash)) =
      match proof.leaf with
      | some e => {e}
      | none => ∅ := by
  unfold canonRoot at h
  rw [← hash_shape] at h
  have hin' := Set.insert_subset_iff.mp hin
  obtain ⟨u, hu, hsub, hx⟩ := follow_of_climb hQ (bit p) 0 _ _ (shape bit 256 0 S) hS hin'.2 h
  rw [List.length_reverse] at hu
  have htop := BTree.top_eq_of_hash_eq hQ (hsub.inputs_subset.trans hS) hin'.1 hx
  obtain ⟨hle, hshape⟩ := follow_shape (bit p) _ hu
  simp only [zero_le, forall_true_left, zero_add] at hshape
  have hsep' : Separated bit (256 - proof.siblings.length) proof.siblings.length
      {x ∈ S | ∀ i, i < proof.siblings.length → bit x.1 i = bit p i} := by
    intro x hx y hy hag
    obtain ⟨hx, hxp⟩ := Finset.mem_filter.mp hx
    obtain ⟨hy, hyp⟩ := Finset.mem_filter.mp hy
    refine hsep x hx y hy fun i _ hi => ?_
    rcases Nat.lt_or_ge i proof.siblings.length with hlt | hge
    · rw [hxp i hlt, hyp i hlt]
    · exact hag i hge (by omega)
  unfold startInput at htop
  rcases hl : proof.leaf with _ | ⟨lp, vh⟩
  · rw [hl] at htop
    refine shape_eq_empty hsep' (hshape.symm.trans ?_)
    cases u <;> simp_all [BTree.top]
  · rw [hl] at htop
    refine shape_eq_leaf hsep' (hshape.symm.trans ?_)
    cases u <;> simp_all [BTree.top]

end

namespace MerkleStore

section

variable {B : Type} [KvBackend B] [HonestBackend B] [Crypto]

/-- What an accepted proof says is true of the store, or two hashed inputs collide. -/
theorem verify_sound {ck : Key} {U : Set (Hash × Bytes)} {s : MerkleStore B} {hist : History}
    (h : Reachable ck U s hist) (hR : RootsApart ck U) : ∃ M S, hist s.version = some M ∧ EntriesOf ck M S ∧
      ∀ p proof st, verify s.root p proof = .ok st →
        st.Holds p S ∨ nodeHashing.Collision (canonInputs S ∪ verifyInputs p proof) := by
  obtain ⟨H, hup, -⟩ := h.upkeep hR
  obtain ⟨c, hc, hlive, -, -⟩ := hup.live
  obtain ⟨S, hS, hroot⟩ := hup.sturdy.consistent.root_eq hc
  rw [hup.keyed] at hS
  refine ⟨c.map, S, hlive, hS, fun p proof st hv => ?_⟩
  rw [hroot] at hv
  refine (nodeHashing.noCollision_or_collision (canonInputs S ∪ verifyInputs p proof)).imp_left fun hQ => ?_
  obtain ⟨-, acc, hstart, hclimb⟩ := verify_eq_ok.mp hv
  obtain ⟨rfl, hst⟩ := verifyStart_ok hstart
  have hset := entries_of_climb hS.separated hQ Set.subset_union_left Set.subset_union_right hclimb
  rcases hst with ⟨rfl, hno⟩ | ⟨vh, hleaf, rfl⟩
  · -- An entry of the path would agree with the path, so it would be the leaf of the proof.
    intro vh hvh
    have hmem := hset.le (Finset.mem_filter.mpr ⟨hvh, fun _ _ => rfl⟩)
    rcases hl : proof.leaf with _ | e
    · simp [hl] at hmem
    · rw [hl] at hmem
      exact hno vh (by rw [hl, Finset.mem_singleton.mp hmem])
  · rw [hleaf] at hset
    exact (Finset.mem_filter.mp (hset.ge (Finset.mem_singleton_self (p, vh)))).1

end

open EnclaveOs.Merkle.Sample MerkleStore.Sample in
/-- A store with one key, and a proof of absence for another. -/
theorem verify_sound_put : ∃ M S, put.record store emptyHistory (put.step store).version = some M ∧
    EntriesOf key M S ∧
    (Verified.absent.Holds (path_of key [9]) S ∨ nodeHashing.Collision (canonInputs S ∪
      verifyInputs (path_of key [9]) ⟨some (path_of key [1], vh_of key (path_of key [1]) [2]), []⟩)) := by
  obtain ⟨M, S, hM, hS, h⟩ := verify_sound reachable_put (rootsApart _ _)
  exact ⟨M, S, hM, hS, h _ ⟨some (path_of key [1], vh_of key (path_of key [1]) [2]), []⟩ _ (by decide +kernel)⟩

/-! ## The proofs of the store -/

section

variable {B : Type} [KvBackend B] [Crypto]

/-- Proof and read agree, and the proof survives the wire. -/
structure Agreement (ck : Key) (U : Set (Hash × Bytes)) (p root : Hash) (proof : Proof) (o : Option Bytes) : Prop where
  bounded : proof.siblings.length ≤ 256
  wire : Proof.decode proof.encode = .ok proof
  accepted : ∃ st, verify root p proof = .ok st
  present : ∀ x, (p, x) ∈ U → (verify root p proof = .ok (.present (vh_of ck p x)) ↔ o = some x)
  absent : verify root p proof = .ok .absent ↔ o = none

theorem Kept.agreement [AtomicBackend B] {s : MerkleStore B} {v : UInt64} {c : Version} {U : Set (Hash × Bytes)}
    (hk : Kept s v c) (hU : ValuesApart s.ck U) (hin : ∀ p x, c.map p = some x → (p, x) ∈ U) {p : Hash} {proof : Proof}
    (hp : ProofOf p c.tree proof) : Agreement s.ck U p c.tree.hash proof (c.map p) := by
  have hle := (hp.entries hk.wf).1
  have hver := hp.verify hk.wf
  refine ⟨hle, proof.decode_encode hle, ⟨_, hver⟩, fun x hx => ?_, ?_⟩
  · rw [hver]
    rcases hl : c.tree.find p 0 with _ | l
    · have hcom := hk.commits p
      rw [hl] at hcom
      have hnone : c.map p = none := by simpa using hcom.symm
      simp [hnone]
    obtain ⟨y, hy, hvh⟩ := hk.map_of_find hl
    simp only [Except.ok.injEq, Verified.present.injEq, hy, Option.some.injEq]
    rw [← hvh]
    constructor
    · intro he
      exact (Prod.mk.inj (hU (hin p y hy) hx he)).2
    · rintro rfl
      rfl
  · rw [hver]
    rcases hl : c.tree.find p 0 with _ | l
    · have hcom := hk.commits p
      rw [hl] at hcom
      simpa using hcom.symm
    · obtain ⟨y, hy, -⟩ := hk.map_of_find hl
      simp [hy]

/-- In every reachable store proofs succeed and agree with reads, for every version that is kept. -/
theorem prove_agrees_with_get [HonestBackend B] {ck : Key} {U : Set (Hash × Bytes)} {s : MerkleStore B}
    {hist : History} (h : Reachable ck U s hist) (hU : ValuesApart ck U) (hR : RootsApart ck U) (key : Bytes) :
    (∃ proof o, ((prove key).exec s).1 = .ok proof ∧ ((MerkleStore.get key).exec s).1 = .ok o ∧
      Agreement ck U (path_of ck key) s.root proof o) ∧
    ∀ v M, hist v = some M → ∃ proof o root, ((prove_at v key).exec s).1 = .ok proof ∧
      ((get_at v key).exec s).1 = .ok o ∧ ((root_at v).exec s).1 = .ok root ∧
      Agreement ck U (path_of ck key) root proof o := by
  obtain ⟨H, hf, htrack, rfl⟩ := h.faithful hU hR
  refine ⟨?_, fun v M hv => ?_⟩
  · obtain ⟨c, hc, hchild, hroot⟩ := hf.consistent.live
    have hk := hf.consistent.kept _ c hc
    obtain ⟨proof, hp, hgives⟩ := gives_prove_path (B := B) (path_of s.ck key) hk.wf
    refine ⟨proof, _, ?_, (hf.gives_get hc key).fst, ?_⟩
    · unfold prove
      rw [Method.exec_bind_ok (Method.exec_state s), hchild]
      exact (hgives s hk.stored).fst
    · rw [hroot]
      exact hk.agreement hU (hf.within _ c hc) hp
  · have hmap := htrack v
    rw [hv] at hmap
    obtain ⟨c, hc, -⟩ := Option.map_eq_some_iff.mp hmap
    have hk := hf.consistent.kept v c hc
    obtain ⟨proof, hp, hgives⟩ := gives_prove_path (B := B) (path_of s.ck key) hk.wf
    exact ⟨proof, _, _, (hf.gives_prove_at hR hc hgives).fst, (hf.gives_get_at hR hc key).fst,
      (hf.consistent.gives_root_at hc).fst, hk.agreement hU (hf.within v c hc) hp⟩

end

open EnclaveOs.Merkle.Sample MerkleStore.Sample in
/-- The key that was put, and the versions before and after. -/
theorem prove_agrees_with_get_put :
    (∃ proof o, ((prove [1]).exec (put.step store)).1 = .ok proof ∧
      ((MerkleStore.get [1]).exec (put.step store)).1 = .ok o ∧
      Agreement key values (path_of key [1]) (put.step store).root proof o) ∧
    ∀ v M, put.record store emptyHistory v = some M →
      ∃ proof o root, ((prove_at v [1]).exec (put.step store)).1 = .ok proof ∧
        ((get_at v [1]).exec (put.step store)).1 = .ok o ∧ ((root_at v).exec (put.step store)).1 = .ok root ∧
        Agreement key values (path_of key [1]) root proof o :=
  prove_agrees_with_get reachable_put values_apart (rootsApart _ _) [1]

end MerkleStore

end EnclaveOs.Merkle
