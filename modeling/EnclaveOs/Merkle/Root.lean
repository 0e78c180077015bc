import EnclaveOs.Merkle.Sample

/-! # The root -/

open EnclaveOs.Lib EnclaveOs.Lib.SparseMerkle

namespace EnclaveOs.Merkle

section

variable [Crypto]

/-- Nothing, one pair, or two halves by the next bit of the paths. -/
noncomputable def canonRoot (S : Finset (Hash × Hash)) : Hash := canon bit nodeHashing 256 0 S

def canonInputs (S : Finset (Hash × Hash)) : Set (Input Hash Hash Hash) := (shape bit 256 0 S).inputs nodeHashing

def EntriesOf (ck : Key) (M : PathMap) (S : Finset (Hash × Hash)) : Prop :=
  ∀ p vh, (p, vh) ∈ S ↔ ∃ x, M p = some x ∧ vh = MerkleStore.vh_of ck p x

variable {ck : Key} {M : PathMap} {S : Finset (Hash × Hash)}

theorem EntriesOf.unique {S' : Finset (Hash × Hash)} (h : EntriesOf ck M S)
    (h' : EntriesOf ck M S') : S = S' := by
  ext ⟨p, vh⟩
  rw [h, h']

theorem EntriesOf.separated (h : EntriesOf ck M S) : Separated bit 256 0 S := by
  rintro ⟨p, vh⟩ hp ⟨q, vh'⟩ hq hbits
  obtain rfl : p = q := eq_of_bit fun i hi => hbits i (Nat.zero_le i) (by omega)
  obtain ⟨x, hx, hvh⟩ := (h p vh).mp hp
  obtain ⟨y, hy, hvh'⟩ := (h p vh').mp hq
  rw [hx] at hy
  rw [hvh, hvh', Option.some.inj hy]

end

namespace MerkleStore

section

variable {B : Type} [KvBackend B] [AtomicBackend B] [Crypto]

theorem Kept.entriesOf {s : MerkleStore B} {v : UInt64} {c : Version} (hk : Kept s v c) :
    EntriesOf s.ck c.map c.tree.entries := by
  intro p vh
  rw [Tree.mem_entries_iff hk.wf]
  constructor
  · rintro ⟨l, hl, rfl⟩
    obtain ⟨x, hx, hvh⟩ := hk.map_of_find hl
    exact ⟨x, hx, hvh.symm⟩
  · rintro ⟨x, hx, rfl⟩
    have h := hk.commits p
    rw [hx] at h
    exact Option.map_eq_some_iff.mp h

theorem Consistent.root_eq {H : Archive} {s : MerkleStore B} {c : Version} (h : Consistent H s)
    (hc : H s.version = some c) : ∃ S, EntriesOf s.ck c.map S ∧ s.root = canonRoot S := by
  have hk := h.kept _ _ hc
  refine ⟨c.tree.entries, hk.entriesOf, ?_⟩
  rw [(h.now hc).2, Tree.hash_eq_canon hk.wf]
  rfl

theorem root_of_run {b : B} {ck sk : Key} {draw : Option Nonce} {s : MerkleStore B}
    (h : create b ck sk draw = .ok s) (bs : List Batch) :
    ∃ S, EntriesOf ck (mapAfter s (fun _ => none) bs) S ∧ (runBatches s bs).root = canonRoot S := by
  have hcr := create_spec h
  obtain ⟨H, c, hcon, hc, hmap, hck⟩ := hcr.consistent.run hcr.live bs
  obtain ⟨S, hS, hroot⟩ := hcon.root_eq hc
  rw [hck, hcr.ck, hmap] at hS
  exact ⟨S, hS, hroot⟩

/-- Whatever the batches were, the root is the canonical hash of the map. So equal maps have equal roots, and
without a collision only those. -/
theorem root_canonical {B' : Type} [KvBackend B'] [AtomicBackend B'] {b : B} {b' : B'} {ck sk sk' : Key}
    {draw draw' : Option Nonce} {s : MerkleStore B} {s' : MerkleStore B'} (h : create b ck sk draw = .ok s)
    (h' : create b' ck sk' draw' = .ok s') (bs bs' : List Batch) :
    ∃ S S', EntriesOf ck (mapAfter s (fun _ => none) bs) S ∧ EntriesOf ck (mapAfter s' (fun _ => none) bs') S' ∧
      (runBatches s bs).root = canonRoot S ∧ (runBatches s' bs').root = canonRoot S' ∧
      (mapAfter s (fun _ => none) bs = mapAfter s' (fun _ => none) bs' →
        (runBatches s bs).root = (runBatches s' bs').root) ∧
      ∀ Q U, nodeHashing.NoCollision Q → canonInputs S ⊆ Q → canonInputs S' ⊆ Q → ValuesApart ck U →
        (∀ p x, mapAfter s (fun _ => none) bs p = some x → (p, x) ∈ U) →
        (∀ p x, mapAfter s' (fun _ => none) bs' p = some x → (p, x) ∈ U) →
        ((runBatches s bs).root = (runBatches s' bs').root ↔
          mapAfter s (fun _ => none) bs = mapAfter s' (fun _ => none) bs') := by
  obtain ⟨S, hS, hroot⟩ := root_of_run h bs
  obtain ⟨S', hS', hroot'⟩ := root_of_run h' bs'
  have hsame : mapAfter s (fun _ => none) bs = mapAfter s' (fun _ => none) bs' →
      (runBatches s bs).root = (runBatches s' bs').root := by
    intro he
    rw [hroot, hroot', hS.unique (he ▸ hS')]
  refine ⟨S, S', hS, hS', hroot, hroot', hsame, fun Q U hQ hin hin' hU hM hM' => ⟨fun he => ?_, hsame⟩⟩
  rw [hroot, hroot', canonRoot, canonRoot, ← hash_shape, ← hash_shape] at he
  have hset := (entries_shape hS.separated).1
  rw [BTree.hash_inj hQ _ _ hin hin' he, (entries_shape hS'.separated).1] at hset
  obtain rfl : S = S' := by exact_mod_cast hset.symm
  have hsub : ∀ {N N' : PathMap}, EntriesOf ck N S → EntriesOf ck N' S → (∀ p x, N p = some x → (p, x) ∈ U) →
      (∀ p x, N' p = some x → (p, x) ∈ U) → ∀ p x, N p = some x → N' p = some x := by
    intro N N' hN hN' hNU hNU' p x hx
    obtain ⟨y, hy, hvh⟩ := (hN' p _).mp ((hN p _).mpr ⟨x, hx, rfl⟩)
    have hxy : (p, x) = (p, y) := hU (hNU p x hx) (hNU' p y hy) hvh
    rw [(Prod.mk.inj hxy).2]
    exact hy
  funext p
  apply Option.ext
  intro x
  exact ⟨hsub hS hS' hM hM' p x, hsub hS' hS hM' hM p x⟩

end

open Sample

def oneByOne : List Batch := [.keys entropy [([1], some [3])], .keys entropy [([2], some [4])]]

def writtenTwice : List Batch := [.keys entropy [([2], some [4]), ([1], some [5])], .keys entropy [([1], some [3])]]

theorem mapAfter_pair {b b' : Batch} (h : (b.run.exec store).1.isOk = true)
    (h' : (b'.run.exec (b.step store)).1.isOk = true) : mapAfter store (fun _ => none) [b, b'] =
      overlay (overlay (fun _ => none) (b.updates store.ck)) (b'.updates (b.step store).ck) := by
  unfold mapAfter mapAfter mapAfter
  rw [Batch.mapAfter_of_ok h, Batch.mapAfter_of_ok h']

/-- A key written twice, and another order. -/
theorem root_canonical_two_histories :
    create ({} : MemBackend) key key (some nonce) = .ok store ∧
    (runBatches store oneByOne).root = (runBatches store writtenTwice).root := by
  refine ⟨create_store, ?_⟩
  obtain ⟨S, S', -, -, -, -, hsame, -⟩ := root_canonical create_store create_store oneByOne writtenTwice
  refine hsame ?_
  have hpath : path_of key [2] ≠ path_of key [1] := by decide +kernel
  unfold oneByOne writtenTwice
  rw [mapAfter_pair (by decide +kernel) (by decide +kernel), mapAfter_pair (by decide +kernel) (by decide +kernel)]
  exact ((Function.update_idem ..).trans (Function.update_comm hpath ..)).symm

end MerkleStore

end EnclaveOs.Merkle
