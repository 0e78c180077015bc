import EnclaveOs.Merkle.Batch

/-!
# What a batch does

A batch fails with nothing written, changes nothing, commits, or fails after the write has landed.
-/

open EnclaveOs.Lib
open EnclaveOs.Lib.Method (exec_bind_error exec_bind_ok exec_state)

namespace EnclaveOs.Merkle

def Entropy.Drawn (e : Entropy) : Prop := (∀ p, ∃ n, e.value p = some n) ∧ ∃ n, e.checkpoint = some n

def Seals [Crypto] : Prop := ∀ key nonce aad pt, ∃ ct, Crypto.sealInPlace key nonce aad pt = some ct

namespace MerkleStore

theorem toNat_next {v : UInt64} (h : v.toNat + 1 < 2 ^ 64) : (v + 1).toNat = v.toNat + 1 := by
  rw [UInt64.toNat_add]
  exact Nat.mod_eq_of_lt h

theorem lt_next {v : UInt64} (h : v.toNat + 1 < 2 ^ 64) : v < v + 1 := by
  rw [UInt64.lt_iff_toNat_lt, toNat_next h]
  exact Nat.lt_succ_self _

theorem exec_nextVersion {B : Type} (s : MerkleStore B) :
    (nextVersion : StoreM B UInt64).exec s =
      (if s.version.toNat + 1 < 2 ^ 64 then .ok (s.version + 1) else .error .panic, s) := by
  unfold nextVersion
  rw [exec_bind_ok (exec_state s)]
  split <;> rfl

/-! ## The table after the write -/

variable {acc : CommitAcc}

theorem mem_commitOps {root : Hash} {ckpt : Bytes} {op : KvBatchOp} :
    op ∈ commitOps acc root ++ [.put checkpoint_record_key ckpt] ↔
      (∃ (nk : NodeKey) (n : Node), acc.pending[nk]? = some n ∧ op = .put (node_record_key nk) n.encode) ∨
      (∃ (vh : Hash) (ct : Bytes), acc.values[vh]? = some ct ∧ op = .put (value_record_key vh acc.new_version) ct) ∨
      (∃ k ∈ acc.stale, op = .put (stale_record_key acc.new_version k) []) ∨
      op = .put (root_record_key acc.new_version) root.toList ∨ op = .put checkpoint_record_key ckpt := by
  unfold commitOps
  simp only [List.mem_append, List.mem_map, List.mem_singleton, Prod.exists,
    Std.TreeMap.mem_toList_iff_getElem?_eq_some, or_assoc, eq_comm (a := op)]

theorem not_delete_mem_commitOps {root : Hash} {ckpt k : Bytes} :
    .delete k ∉ commitOps acc root ++ [.put checkpoint_record_key ckpt] := by
  rw [mem_commitOps]
  simp

variable [Crypto]

/-- What one commit writes, and that the rest of the table stays. -/
structure Landed (new : UInt64) (t t' : Tree) (acc : CommitAcc) (ckpt : Bytes) (T T' : Table) : Prop where
  node : ∀ x ∈ newNodes new [] t', T' (node_record_key x.1) = some x.2.encode
  value : ∀ (vh : Hash) (ct : Bytes), acc.values[vh]? = some ct → T' (value_record_key vh new) = some ct
  stale : ∀ r ∈ t.refs [] \ t'.refs [], T' (stale_record_key new r.key) = some []
  root : T' (root_record_key new) = some t'.hash.toList
  checkpoint : T' checkpoint_record_key = some ckpt
  other : ∀ k, (∃ x ∈ newNodes new [] t', k = node_record_key x.1) ∨
    (∃ (vh : Hash) (ct : Bytes), acc.values[vh]? = some ct ∧ k = value_record_key vh new) ∨
    (∃ r ∈ t.refs [] \ t'.refs [], k = stale_record_key new r.key) ∨
    k = root_record_key new ∨ k = checkpoint_record_key ∨ T' k = T k

section

variable {cipher : AeadCipher} {entropy : Entropy} {new : UInt64} {l : List (Hash × Option Bytes)} {t t' : Tree}
  {acc : CommitAcc}

section

variable (hd : Delta cipher entropy new l t t' acc)

include hd

theorem Delta.pfx_le (hwf : t'.WF []) {nk : NodeKey} {n : Node}
    (h : acc.pending[nk]? = some n) : nk.pfx.length ≤ 64 :=
  hwf.pfx_le ((hd.pending nk n).mp h).1

theorem Delta.put_lands (hwf : t'.WF []) (ckpt : Bytes) (T : Table)
    {k v : Bytes} (h : .put k v ∈ commitOps acc t'.hash ++ [.put checkpoint_record_key ckpt]) :
    applyOps (commitOps acc t'.hash ++ [.put checkpoint_record_key ckpt]) T k = some v := by
  refine applyOps_put _ _ _ _ h (fun v' h' => ?_) not_delete_mem_commitOps
  rw [mem_commitOps] at h h'
  simp only [KvBatchOp.put.injEq] at h h'
  rcases h with ⟨nk, n, hn, rfl, rfl⟩ | ⟨vh, ct, hct, rfl, rfl⟩ | ⟨j, hj, rfl, rfl⟩ | ⟨rfl, rfl⟩ | ⟨rfl, rfl⟩ <;>
    rcases h' with ⟨nk', n', hn', hk, rfl⟩ | ⟨vh', ct', hct', hk, rfl⟩ | ⟨j', hj', hk, rfl⟩ | ⟨hk, rfl⟩ | ⟨hk, rfl⟩ <;>
    have hh := congrArg List.head? hk <;>
    simp [REC_NODE, REC_VALUE, REC_STALE, REC_ROOT, REC_CHECKPOINT] at hh
  -- Two records of one kind.
  · have := node_record_key_inj (hd.pfx_le hwf hn) (hd.pfx_le hwf hn') hk
    subst this
    rw [hn] at hn'
    rw [Option.some.inj hn']
  · have := (value_record_key_inj hk).1
    subst this
    rw [hct] at hct'
    exact (Option.some.inj hct').symm
  all_goals rfl

theorem Delta.landed (hwf : t'.WF []) (ckpt : Bytes) (T : Table) :
    Landed new t t' acc ckpt T (applyOps (commitOps acc t'.hash ++ [.put checkpoint_record_key ckpt]) T) := by
  have hmem := @mem_commitOps acc t'.hash ckpt
  rw [hd.new_version] at hmem
  refine ⟨fun x hx => ?_, fun vh ct hct => ?_, fun r hr => ?_, ?_, ?_, fun k => ?_⟩
  · exact hd.put_lands hwf ckpt T (hmem.mpr (.inl ⟨x.1, x.2, (hd.pending _ _).mpr hx, rfl⟩))
  · exact hd.put_lands hwf ckpt T (hmem.mpr (.inr (.inl ⟨vh, ct, hct, rfl⟩)))
  · exact hd.put_lands hwf ckpt T
      (hmem.mpr (.inr (.inr (.inl ⟨r.key, (hd.stale _).mpr ⟨r, hr, rfl⟩, rfl⟩))))
  · exact hd.put_lands hwf ckpt T (hmem.mpr (.inr (.inr (.inr (.inl rfl)))))
  · exact hd.put_lands hwf ckpt T (hmem.mpr (.inr (.inr (.inr (.inr rfl)))))
  · by_cases hput : ∃ v, .put k v ∈ commitOps acc t'.hash ++ [.put checkpoint_record_key ckpt]
    · obtain ⟨v, hv⟩ := hput
      rw [hmem] at hv
      simp only [KvBatchOp.put.injEq] at hv
      rcases hv with ⟨nk, n, hn, rfl, -⟩ | ⟨vh, ct, hct, rfl, -⟩ | ⟨j, hj, rfl, -⟩ | ⟨rfl, -⟩ | ⟨rfl, -⟩
      · exact .inl ⟨(nk, n), (hd.pending nk n).mp hn, rfl⟩
      · exact .inr (.inl ⟨vh, ct, hct, rfl⟩)
      · obtain ⟨r, hr, rfl⟩ := (hd.stale j).mp hj
        exact .inr (.inr (.inl ⟨r, hr, rfl⟩))
      · exact .inr (.inr (.inr (.inl rfl)))
      · exact .inr (.inr (.inr (.inr (.inl rfl))))
    · refine .inr (.inr (.inr (.inr (.inr ?_))))
      exact applyOps_other _ _ _ (fun v hv => hput ⟨v, hv⟩) not_delete_mem_commitOps

end

end

section

variable {new : UInt64} {t t' : Tree} {acc : CommitAcc} {ckpt : Bytes} {T T' : Table}

section

variable (h : Landed new t t' acc ckpt T T')

include h

theorem Landed.old_node (hwf : t'.WF []) {nk : NodeKey} (hlen : nk.pfx.length ≤ 64) (hv : nk.version ≠ new) :
    T' (node_record_key nk) = T (node_record_key nk) := by
  rcases h.other (node_record_key nk) with ⟨x, hx, hk⟩ | ⟨_, _, -, hk⟩ | ⟨_, -, hk⟩ | hk | hk | hk
  · rw [node_record_key_inj hlen (hwf.pfx_le hx.1) hk] at hv
    exact absurd hx.2 hv
  case inr.inr.inr.inr.inr => exact hk
  all_goals exact (tag_ne hk).elim

theorem Landed.old_value (vh : Hash) {v : UInt64} (hv : v ≠ new) :
    T' (value_record_key vh v) = T (value_record_key vh v) := by
  rcases h.other (value_record_key vh v) with ⟨_, -, hk⟩ | ⟨_, _, -, hk⟩ | ⟨_, -, hk⟩ | hk | hk | hk
  case inr.inl => exact absurd (value_record_key_inj hk).2 hv
  case inr.inr.inr.inr.inr => exact hk
  all_goals exact (tag_ne hk).elim

theorem Landed.old_root {v : UInt64} (hv : v ≠ new) : T' (root_record_key v) = T (root_record_key v) := by
  rcases h.other (root_record_key v) with ⟨_, -, hk⟩ | ⟨_, _, -, hk⟩ | ⟨_, -, hk⟩ | hk | hk | hk
  case inr.inr.inr.inl => exact absurd (root_record_key_inj hk) hv
  case inr.inr.inr.inr.inr => exact hk
  all_goals exact (tag_ne hk).elim

theorem Landed.stale_cases (k : Bytes) :
    T' (REC_STALE :: k) = T (REC_STALE :: k) ∨
      ∃ r ∈ t.refs [] \ t'.refs [], REC_STALE :: k = stale_record_key new r.key := by
  rcases h.other (REC_STALE :: k) with ⟨_, -, hk⟩ | ⟨_, _, -, hk⟩ | ⟨r, hr, hk⟩ | hk | hk | hk
  case inr.inr.inl => exact .inr ⟨r, hr, hk⟩
  case inr.inr.inr.inr.inr => exact .inl hk
  all_goals exact (tag_ne hk).elim

end

end

/-- The backend is one whose writes can fail. -/
def FailsWrites (B : Type) [KvBackend B] : Prop :=
  ∃ (b : B) (ops : List KvBatchOp), (KvBackend.write_batch b ops).1 ≠ .ok ()

section

variable {B : Type} [KvBackend B] [AtomicBackend B]

omit [Crypto] in
theorem write_cases (ops : List KvBatchOp) (s : MerkleStore B) : ∃ b : B,
    ((backendWriteBatch ops).exec s = (.ok (), { s with backend := b }) ∧
      AtomicBackend.table b = applyOps ops s.table) ∨
    ∃ e, (backendWriteBatch ops).exec s = (.error (.err e), { s with backend := b }) ∧
      FailsWrites B ∧ (AtomicBackend.table b = applyOps ops s.table ∨ AtomicBackend.table b = s.table) := by
  have hspec := AtomicBackend.write_spec s.backend ops
  refine ⟨(KvBackend.write_batch s.backend ops).2, ?_⟩
  unfold backendWriteBatch
  rw [exec_onBackend]
  rcases hw : (KvBackend.write_batch s.backend ops).1 with e | u
  · rw [hw] at hspec
    refine .inr ⟨e, rfl, ⟨s.backend, ops, by rw [hw]; simp⟩, ?_⟩
    rcases hspec with h | ⟨h, -⟩
    · exact .inl h
    · exact .inr h
  · rw [hw] at hspec
    exact .inl ⟨rfl, hspec.resolve_right (by simp)⟩

end

variable {B : Type} [KvBackend B] [AtomicBackend B] {d : Std.TreeMap Hash (Option Bytes)} {entropy : Entropy}
  {t : Tree}

/-- The store in memory after a commit. -/
structure Moved (s s' : MerkleStore B) (new : UInt64) (t' : Tree) : Prop where
  ck : s'.ck = s.ck
  cipher : s'.cipher = s.cipher
  snapshot_pin : s'.snapshot_pin = s.snapshot_pin
  root : s'.root = t'.hash
  version : s'.version = new
  root_child : s'.root_child = t'.ref
  cache : ∀ nk n, s'.cache.lookup nk = some n →
    (nk, n) ∈ newNodes new [] t' ∨ (∀ m, (nk, m) ∉ newNodes new [] t') ∧ Cached s nk n

/-- A batch that changes the tree was computed, sealed and written. -/
structure Written (s : MerkleStore B) (entropy : Entropy) (d : Std.TreeMap Hash (Option Bytes)) (t t' : Tree)
    (acc : CommitAcc) (ckpt : Bytes) (T' : Table) : Prop where
  next : s.version.toNat + 1 < 2 ^ 64
  updated : Updated (s.version + 1) [] (updatesOf s.ck d.toList) t t'
  changed : t' ≠ t
  delta : Delta s.cipher entropy (s.version + 1) d.toList t t' acc
  sealed : s.cipher.encrypt entropy.checkpoint (t'.hash.toList ++ u64Be (s.version + 1)) CHECKPOINT_AAD = .ok ckpt
  landed : Landed (s.version + 1) t t' acc ckpt s.table T'

/-- Why a batch can fail. -/
def Blocked (s : MerkleStore B) (entropy : Entropy) (d : Std.TreeMap Hash (Option Bytes)) : Prop :=
  ¬ s.version.toNat + 1 < 2 ^ 64 ∨
  (∃ p pt, (p, some pt) ∈ d.toList ∧ ∀ ct, s.cipher.encrypt (entropy.value p) pt (value_aad p) ≠ .ok ct) ∨
  (∃ pt, ∀ ct, s.cipher.encrypt entropy.checkpoint pt CHECKPOINT_AAD ≠ .ok ct) ∨ FailsWrites B

/-- The ways that `put_batch` can end. -/
inductive PutOutcome (s : MerkleStore B) (t : Tree) (entropy : Entropy) (d : Std.TreeMap Hash (Option Bytes)) :
    Except Fault (Hash × UInt64) → MerkleStore B → Prop where
  | failed {e : Fault} {s' : MerkleStore B} (why : Blocked s entropy d) (hs : Same s s') :
    PutOutcome s t entropy d (.error e) s'
  | unchanged {s' : MerkleStore B} (hs : Same s s')
    (hup : Updated (s.version + 1) [] (updatesOf s.ck d.toList) t t) :
    PutOutcome s t entropy d (.ok (s.root, s.version)) s'
  | lost {e : Fault} {s' : MerkleStore B} {t' : Tree} {acc : CommitAcc} {ckpt : Bytes}
    (why : FailsWrites B) (hs : Frozen s s') (hw : Written s entropy d t t' acc ckpt s'.table) :
    PutOutcome s t entropy d (.error e) s'
  | committed {s' : MerkleStore B} {t' : Tree} {acc : CommitAcc} {ckpt : Bytes}
    (hm : Moved s s' (s.version + 1) t') (hw : Written s entropy d t t' acc ckpt s'.table) :
    PutOutcome s t entropy d (.ok (t'.hash, s.version + 1)) s'

theorem PutOutcome.settings {s s' : MerkleStore B}
    {r : Except Fault (Hash × UInt64)} (h : PutOutcome s t entropy d r s') :
    s'.ck = s.ck ∧ s'.cipher = s.cipher ∧ s'.snapshot_pin = s.snapshot_pin := by
  cases h with
  | failed why hs => exact ⟨hs.ck, hs.cipher, hs.snapshot_pin⟩
  | unchanged hs hup => exact ⟨hs.ck, hs.cipher, hs.snapshot_pin⟩
  | lost why hs hw => exact ⟨hs.ck, hs.cipher, hs.snapshot_pin⟩
  | committed hm hw => exact ⟨hm.ck, hm.cipher, hm.snapshot_pin⟩

theorem PutOutcome.ok {s s' : MerkleStore B}
    {r : Except Fault (Hash × UInt64)} (h : PutOutcome s t entropy d r s') (hfree : ¬ Blocked s entropy d) (e : Fault) :
    r ≠ .error e := by
  cases h with
  | failed why hs => exact absurd why hfree
  | lost why hs hw => exact absurd (.inr (.inr (.inr why))) hfree
  | unchanged hs hup | committed hm hw => simp

/-- What `put_batch` computes before it writes. -/
inductive Computes (s : MerkleStore B) (t : Tree) (entropy : Entropy) (d : Std.TreeMap Hash (Option Bytes)) :
    Except Fault (Option (CommitAcc × Option Child × Hash)) → Prop where
  | failed {e : Fault} (why : Blocked s entropy d) : Computes s t entropy d (.error e)
  | unchanged (hup : Updated (s.version + 1) [] (updatesOf s.ck d.toList) t t) : Computes s t entropy d (.ok none)
  | changed {t' : Tree} {acc : CommitAcc} (hv : s.version.toNat + 1 < 2 ^ 64) (hne : t' ≠ t)
    (hup : Updated (s.version + 1) [] (updatesOf s.ck d.toList) t t')
    (hd : Delta s.cipher entropy (s.version + 1) d.toList t t' acc) :
    Computes s t entropy d (.ok (some (acc, t'.ref, t'.hash)))

section

variable {s : MerkleStore B} {t : Tree} (hg : Grown s s.version t) (hroot : s.root_child = t.ref)
  (entropy : Entropy)
include hg hroot

theorem computes_byPath (d : Std.TreeMap Hash (Option Bytes)) (hv : s.version.toNat + 1 < 2 ^ 64) :
    ∃ r, Computes s t entropy d r ∧ Gives (computeByPath entropy (s.version + 1) d) s r := by
  rcases computeByPath_cases hg hroot (lt_next hv) entropy d with
    ⟨e, p, pt, hgives, hin, hno⟩ | ⟨t', acc, hup, ⟨rfl, hgives⟩ | ⟨hne, hd, hgives⟩⟩
  · exact ⟨_, .failed (.inr (.inl ⟨p, pt, hin, hno⟩)), hgives⟩
  · exact ⟨_, .unchanged hup, hgives⟩
  · exact ⟨_, .changed hv hne hup hd, hgives⟩

omit hroot in
theorem computes_empty {d : Std.TreeMap Hash (Option Bytes)} (hd : d.isEmpty = true) :
    Computes s t entropy d (.ok none) := by
  refine .unchanged ?_
  have hnil : d.toList = [] := by
    rw [← List.isEmpty_iff, Std.TreeMap.isEmpty_toList]
    exact hd
  rw [hnil]
  exact Updated.refl hg.wf

theorem computes_batch (ops : List (Bytes × Option Bytes)) :
    ∃ r, Computes s t entropy (dedup (byPath s.ck ops)) r ∧ Gives (compute_batch entropy ops) s r := by
  have hfold : ops.foldl (fun m op => m.insert (path_of s.ck op.1) op.2) ({} : Std.TreeMap Hash (Option Bytes)) =
      dedup (byPath s.ck ops) := by
    unfold dedup byPath
    rw [List.foldl_map]
  by_cases hv : s.version.toNat + 1 < 2 ^ 64
  · have hnext := exec_nextVersion s
    rw [if_pos hv] at hnext
    obtain ⟨r, hr, s1, hexec, hs1⟩ : ∃ r, Computes s t entropy (dedup (byPath s.ck ops)) r ∧
        Gives (if (dedup (byPath s.ck ops)).isEmpty then pure none
          else computeByPath entropy (s.version + 1) (dedup (byPath s.ck ops)) : StoreM B _) s r := by
      by_cases he : (dedup (byPath s.ck ops)).isEmpty = true
      · rw [if_pos he]
        exact ⟨.ok none, computes_empty hg entropy he, gives_pure _ _⟩
      · rw [if_neg he]
        exact computes_byPath hg hroot entropy _ hv
    refine ⟨r, hr, s1, ?_, hs1⟩
    unfold compute_batch
    rw [exec_bind_ok hnext, exec_bind_ok (exec_state s)]
    simp only [hfold]
    exact hexec
  · have hnext := exec_nextVersion s
    rw [if_neg hv] at hnext
    refine ⟨.error .panic, .failed (.inl hv), s, ?_, Same.refl s⟩
    unfold compute_batch
    exact exec_bind_error hnext

end

theorem commit_acc_outcome {s s1 : MerkleStore B} {t t' : Tree}
    (hs1 : Same s s1) (hv : s.version.toNat + 1 < 2 ^ 64)
    (hne : t' ≠ t) (hup : Updated (s.version + 1) [] (updatesOf s.ck d.toList) t t')
    (hd : Delta s.cipher entropy (s.version + 1) d.toList t t' acc) :
    PutOutcome s t entropy d ((commit_acc entropy acc t'.ref t'.hash).exec s1).1
      ((commit_acc entropy acc t'.ref t'.hash).exec s1).2 := by
  unfold commit_acc
  rw [exec_bind_ok (exec_state s1), hs1.cipher, hd.new_version]
  rcases hck : s.cipher.encrypt entropy.checkpoint (t'.hash.toList ++ u64Be (s.version + 1)) CHECKPOINT_AAD with
    e | ckpt
  · have henc : (Method.ofExcept (encryptCheckpoint s.cipher entropy.checkpoint t'.hash (s.version + 1)) :
        StoreM B Bytes).exec s1 = (.error (.err (.corrupted ("checkpoint encrypt: " ++ e))), s1) := by
      unfold encryptCheckpoint
      rw [hck]
      rfl
    rw [exec_bind_error henc]
    exact .failed (.inr (.inr (.inl ⟨t'.hash.toList ++ u64Be (s.version + 1), by simp [hck]⟩))) hs1
  · have henc : (Method.ofExcept (encryptCheckpoint s.cipher entropy.checkpoint t'.hash (s.version + 1)) :
        StoreM B Bytes).exec s1 = (.ok ckpt, s1) := by
      unfold encryptCheckpoint
      rw [hck]
      rfl
    rw [exec_bind_ok henc]
    have hland := hd.landed hup.wf ckpt s1.table
    rw [hs1.table] at hland
    obtain ⟨b, ⟨hexec, htab⟩ | ⟨e, hexec, hwhy, htab⟩⟩ :=
      write_cases (commitOps acc t'.hash ++ [.put checkpoint_record_key ckpt]) s1
    · rw [exec_bind_ok hexec]
      rw [hs1.table] at htab
      rw [← htab] at hland
      refine .committed ⟨hs1.ck, hs1.cipher, hs1.snapshot_pin, rfl, rfl, rfl, ?_⟩ ⟨hv, hup, hne, hd, hck, hland⟩
      intro nk n hn
      rcases NodeCache.lookup_foldl_put hn with hin | ⟨hno, hold⟩
      · exact .inl ((hd.pending nk n).mp (Std.TreeMap.mem_toList_iff_getElem?_eq_some.mp hin))
      · refine .inr ⟨fun m hm => hno m ?_, hs1.cache nk n hold⟩
        exact Std.TreeMap.mem_toList_iff_getElem?_eq_some.mpr ((hd.pending nk m).mpr hm)
    · -- The host reports a failure, after the write or without it.
      rw [exec_bind_error hexec]
      have hfrozen : Frozen s { s1 with backend := b } :=
        ⟨hs1.ck, hs1.cipher, hs1.root, hs1.version, hs1.root_child, hs1.snapshot_pin, hs1.cache⟩
      rcases htab with htab | htab
      · refine .lost hwhy hfrozen ⟨hv, hup, hne, hd, hck, ?_⟩
        rw [hs1.table] at htab
        rw [← htab] at hland
        exact hland
      · exact .failed (.inr (.inr (.inr hwhy))) ⟨hfrozen, htab.trans hs1.table⟩

theorem outcome_of_computes {s : MerkleStore B}
    {m : StoreM B (Option (CommitAcc × Option Child × Hash))} {r : Except Fault (Option (CommitAcc × Option Child × Hash))}
    (hr : Computes s t entropy d r) (hm : Gives m s r)
    (finish : Option (CommitAcc × Option Child × Hash) → StoreM B (Hash × UInt64))
    (hnone : ∀ s1, (finish none).exec s1 = (.ok (s1.root, s1.version), s1))
    (hsome : ∀ acc c root, finish (some (acc, c, root)) = commit_acc entropy acc c root) :
    PutOutcome s t entropy d ((m >>= finish).exec s).1 ((m >>= finish).exec s).2 := by
  obtain ⟨s1, hexec, hs1⟩ := hm
  cases hr with
  | failed why =>
    rw [exec_bind_error hexec]
    exact .failed why hs1
  | unchanged hup =>
    rw [exec_bind_ok hexec, hnone, hs1.root, hs1.version]
    exact .unchanged hs1 hup
  | changed hv hne hup hd =>
    rw [exec_bind_ok hexec, hsome]
    exact commit_acc_outcome hs1 hv hne hup hd

section

variable {s : MerkleStore B} {t : Tree} (hg : Grown s s.version t) (hroot : s.root_child = t.ref)
  (entropy : Entropy)
include hg hroot

theorem put_batch_outcome (ops : List (Bytes × Option Bytes)) :
    PutOutcome s t entropy (dedup (byPath s.ck ops)) ((put_batch entropy ops).exec s).1
      ((put_batch entropy ops).exec s).2 := by
  obtain ⟨r, hr, hm⟩ := computes_batch hg hroot entropy ops
  exact outcome_of_computes hr hm _ (fun _ => rfl) (fun _ _ _ => rfl)

theorem put_batch_by_path_outcome (ops : List (Hash × Bytes)) :
    PutOutcome s t entropy (dedup (puts ops)) ((put_batch_by_path entropy ops).exec s).1
      ((put_batch_by_path entropy ops).exec s).2 := by
  have hfold : ops.foldl (fun m op => m.insert op.1 (some op.2)) ({} : Std.TreeMap Hash (Option Bytes)) =
      dedup (puts ops) := by
    unfold dedup puts
    rw [List.foldl_map]
  unfold put_batch_by_path
  simp only [hfold]
  rw [exec_bind_ok (exec_state s)]
  by_cases he : (dedup (puts ops)).isEmpty = true
  · rw [if_pos he]
    cases computes_empty hg entropy he with
    | unchanged hup => exact .unchanged (Same.refl s) hup
  rw [if_neg he]
  have hnext := exec_nextVersion s
  by_cases hv : s.version.toNat + 1 < 2 ^ 64
  · rw [if_pos hv] at hnext
    rw [exec_bind_ok hnext]
    obtain ⟨r, hr, hm⟩ := computes_byPath hg hroot entropy (dedup (puts ops)) hv
    exact outcome_of_computes hr hm _ (fun _ => rfl) (fun _ _ _ => rfl)
  · rw [if_neg hv] at hnext
    rw [exec_bind_error hnext]
    exact .failed (.inl hv) (Same.refl s)

end

theorem encrypt_ok (hs : Seals) (c : AeadCipher) (n : Nonce) (pt aad : Bytes) :
    ∃ ct, c.encrypt (some n) pt aad = .ok ct := by
  obtain ⟨ct, hct⟩ := hs c.key_bytes n aad pt
  refine ⟨n.toList ++ ct, ?_⟩
  simp only [AeadCipher.encrypt, hct]

omit [AtomicBackend B] in
theorem not_blocked [HonestBackend B] (hs : Seals) {e : Entropy} (he : e.Drawn) {s : MerkleStore B}
    (hv : s.version.toNat + 1 < 2 ^ 64) (d : Std.TreeMap Hash (Option Bytes)) : ¬ Blocked s e d := by
  obtain ⟨hval, n, hn⟩ := he
  rintro (h | ⟨p, pt, -, h⟩ | ⟨pt, h⟩ | ⟨b, ops, h⟩)
  · exact h hv
  · obtain ⟨m, hm⟩ := hval p
    obtain ⟨ct, hct⟩ := encrypt_ok hs s.cipher m pt (value_aad p)
    exact h ct (by rw [hm]; exact hct)
  · obtain ⟨ct, hct⟩ := encrypt_ok hs s.cipher n pt CHECKPOINT_AAD
    exact h ct (by rw [hn]; exact hct)
  · exact h (HonestBackend.write_ok b ops)

end MerkleStore

end EnclaveOs.Merkle
