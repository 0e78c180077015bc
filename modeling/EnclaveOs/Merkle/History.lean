import EnclaveOs.Merkle.Archive
import EnclaveOs.Merkle.Snapshot

/-! # Runs of batches -/

open EnclaveOs.Lib EnclaveOs.Lib.Method

namespace EnclaveOs.Merkle

def emptyArchive : Archive := Function.update (fun _ => none) 0 (some ⟨.empty, fun _ => none⟩)

theorem emptyArchive_eq_some {v : UInt64} {c : Version} :
    emptyArchive v = some c ↔ v = 0 ∧ c = ⟨.empty, fun _ => none⟩ := by
  unfold emptyArchive
  by_cases hv : v = 0
  · subst hv
    simp [eq_comm]
  · simp [hv]

namespace MerkleStore

variable {B : Type} [KvBackend B] [AtomicBackend B] [Crypto] {s : MerkleStore B} {ck sk : Key}

/-- A store just created on the table `T`, at version 0. -/
structure Created (T : Table) (ck sk : Key) (s : MerkleStore B) : Prop where
  ck : s.ck = ck
  cipher : s.cipher = .from_key sk
  version : s.version = 0
  snapshot_pin : s.snapshot_pin = none
  table : ∃ ckpt, s.table = applyOps [.put (root_record_key 0) placeholder.toList, .put checkpoint_record_key ckpt] T
  consistent : Consistent emptyArchive s

theorem create_cases {b : B} {draw : Option Nonce}
    (h : create b ck sk draw = .ok s) : ∃ (b' : B) (ckpt : Bytes),
      s = { fresh b ck sk placeholder 0 with backend := b' } ∧ AtomicBackend.table b' =
        applyOps [.put (root_record_key 0) placeholder.toList, .put checkpoint_record_key ckpt]
          (AtomicBackend.table b) := by
  unfold create construct at h
  rw [exec_bind_ok (exec_state _)] at h
  rcases hck : encryptCheckpoint (fresh b ck sk placeholder 0).cipher draw placeholder 0 with e | ckpt
  · rw [exec_bind_error (by rw [exec_ofExcept, hck])] at h
    simp at h
  rw [exec_bind_ok (by rw [exec_ofExcept, hck])] at h
  obtain ⟨b', ⟨hexec, htab⟩ | ⟨e, hexec, -⟩⟩ := write_cases
    [.put (root_record_key 0) placeholder.toList, .put checkpoint_record_key ckpt] (fresh b ck sk placeholder 0)
  · rw [hexec] at h
    exact ⟨b', ckpt, (Except.ok.inj h).symm, htab⟩
  · rw [hexec] at h
    simp at h

theorem create_spec {b : B} {draw : Option Nonce}
    (h : create b ck sk draw = .ok s) : Created (AtomicBackend.table b) ck sk s := by
  obtain ⟨b', ckpt, rfl, htab⟩ := create_cases h
  have hroot : AtomicBackend.table b' (root_record_key 0) = some placeholder.toList := by
    rw [htab]
    refine applyOps_put _ _ _ _ (.head _) (fun v' hv' => ?_) (by simp)
    simp only [List.mem_cons, KvBatchOp.put.injEq, true_and, List.not_mem_nil, or_false] at hv'
    rcases hv' with hv' | ⟨hk, -⟩
    · exact hv'
    · exact (tag_ne hk).elim
  refine ⟨rfl, rfl, rfl, rfl, ⟨ckpt, htab⟩, ⟨_, emptyArchive_eq_some.mpr ⟨rfl, rfl⟩, rfl, rfl⟩, ?_, ?_⟩
  · intro v c hv
    rw [(emptyArchive_eq_some.mp hv).1]
    exact UInt64.le_refl _
  · intro v c hv
    obtain ⟨rfl, rfl⟩ := emptyArchive_eq_some.mp hv
    exact ⟨⟨trivial, by simp, fun x hx => absurd hx (by simp)⟩, .inl rfl, hroot, fun p => rfl⟩

omit [AtomicBackend B] in
theorem create_ok [HonestBackend B] (hs : Seals) (b : B) (ck sk : Key) (nonce : Nonce) :
    ∃ s, create b ck sk (some nonce) = .ok s := by
  obtain ⟨ct, hct⟩ := encrypt_ok hs (.from_key sk) nonce (placeholder.toList ++ u64Be 0) CHECKPOINT_AAD
  have henc : encryptCheckpoint (fresh b ck sk placeholder 0).cipher (some nonce) placeholder 0 = .ok ct := by
    simp only [encryptCheckpoint, fresh, hct]
    rfl
  unfold create construct
  rw [exec_bind_ok (exec_state _), exec_bind_ok (by rw [exec_ofExcept, henc])]
  obtain ⟨b', ⟨hexec, -⟩ | ⟨e, -, ⟨b'', ops, hno⟩, -⟩⟩ := write_cases
    [.put (root_record_key 0) placeholder.toList, .put checkpoint_record_key ct] (fresh b ck sk placeholder 0)
  · rw [hexec]
    exact ⟨_, rfl⟩
  · exact absurd (HonestBackend.write_ok b'' ops) hno

theorem Created.faithful {T : Table} (h : Created T ck sk s)
    (U : Set (Hash × Bytes)) : Faithful U emptyArchive s := by
  refine ⟨h.consistent, fun v c hv p l x _ hx => ?_, fun v c hv p x hx => ?_⟩
  · obtain ⟨-, rfl⟩ := emptyArchive_eq_some.mp hv
    simp at hx
  · obtain ⟨-, rfl⟩ := emptyArchive_eq_some.mp hv
    simp at hx

theorem Created.live {T : Table} (h : Created T ck sk s) : emptyArchive s.version = some ⟨.empty, fun _ => none⟩ := by
  rw [h.version]
  exact emptyArchive_eq_some.mpr ⟨rfl, rfl⟩

end MerkleStore

inductive Batch where
  | keys (entropy : Entropy) (ops : List (Bytes × Option Bytes))
  | paths (entropy : Entropy) (ops : List (Hash × Bytes))

namespace Batch

open MerkleStore

def entropy : Batch → Entropy
  | .keys e _ => e
  | .paths e _ => e

variable [Crypto]

def updates (ck : Key) : Batch → List (Hash × Option Bytes)
  | .keys _ ops => byPath ck ops
  | .paths _ ops => puts ops

variable {B : Type} [KvBackend B]

def run : Batch → StoreM B (Hash × UInt64)
  | .keys e ops => put_batch e ops
  | .paths e ops => put_batch_by_path e ops

def step (b : Batch) (s : MerkleStore B) : MerkleStore B := (b.run.exec s).2

def mapAfter (b : Batch) (s : MerkleStore B) (M : PathMap) : PathMap :=
  match (b.run.exec s).1 with
  | .ok _ => overlay M (b.updates s.ck)
  | .error _ => M

theorem mapAfter_of_ok {b : Batch} {s : MerkleStore B} (h : (b.run.exec s).1.isOk = true) (M : PathMap) :
    b.mapAfter s M = overlay M (b.updates s.ck) := by
  unfold mapAfter
  split
  · rfl
  · rename_i he
    rw [he] at h
    simp [Except.isOk, Except.toBool] at h

variable [AtomicBackend B]

theorem outcome {s : MerkleStore B} {t : Tree} (hg : Grown s s.version t) (hroot : s.root_child = t.ref)
    (b : Batch) : PutOutcome s t b.entropy (dedup (b.updates s.ck)) (b.run.exec s).1 (b.step s) := by
  cases b with
  | keys e ops => exact put_batch_outcome hg hroot e ops
  | paths e ops => exact put_batch_by_path_outcome hg hroot e ops

end Batch

namespace MerkleStore

variable {B : Type} [KvBackend B] [Crypto]

def runBatches (s : MerkleStore B) (bs : List Batch) : MerkleStore B := bs.foldl (fun s b => b.step s) s

def mapAfter : MerkleStore B → PathMap → List Batch → PathMap
  | _, M, [] => M
  | s, M, b :: bs => mapAfter (b.step s) (b.mapAfter s M) bs

variable [AtomicBackend B]

theorem Consistent.step {H : Archive} {s : MerkleStore B} {c : Version} (h : Consistent H s)
    (hc : H s.version = some c) (b : Batch) :
    ∃ H' c', Consistent H' (b.step s) ∧ H' (b.step s).version = some c' ∧ c'.map = b.mapAfter s c.map ∧
      (b.step s).ck = s.ck := by
  obtain ⟨hchild, -⟩ := h.now hc
  have ho := b.outcome (h.kept _ _ hc).toGrown hchild
  unfold Batch.mapAfter
  rcases h.put hc ho with ⟨e, hr, hv, hcon⟩ | ⟨t', hr, hcon⟩
  · rw [hr]
    exact ⟨H, c, hcon, by rw [hv]; exact hc, rfl, ho.settings.1⟩
  · rw [hr]
    exact ⟨_, _, hcon, Function.update_self .., patched_dedup _ _, ho.settings.1⟩

theorem Consistent.run {H : Archive} {s : MerkleStore B} {c : Version} (h : Consistent H s)
    (hc : H s.version = some c) (bs : List Batch) :
    ∃ H' c', Consistent H' (runBatches s bs) ∧ H' (runBatches s bs).version = some c' ∧
      c'.map = mapAfter s c.map bs ∧ (runBatches s bs).ck = s.ck := by
  induction bs generalizing H s c with
  | nil => exact ⟨H, c, h, hc, rfl, rfl⟩
  | cons b bs ih =>
    obtain ⟨H1, c1, h1, hc1, hmap, hck⟩ := h.step hc b
    obtain ⟨H2, c2, h2, hc2, hmap2, hck2⟩ := ih h1 hc1
    refine ⟨H2, c2, h2, hc2, ?_, hck2.trans hck⟩
    rw [hmap2, hmap]
    rfl

end MerkleStore

end EnclaveOs.Merkle
