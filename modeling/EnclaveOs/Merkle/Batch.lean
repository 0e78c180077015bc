import EnclaveOs.Merkle.Apply

/-! # Computing a batch -/

open EnclaveOs.Lib EnclaveOs.Lib.Method

namespace EnclaveOs.Merkle

abbrev PathMap := Hash → Option Bytes

namespace MerkleStore

def overlay (M : PathMap) (ops : List (Hash × Option Bytes)) : PathMap :=
  ops.foldl (fun M op => Function.update M op.1 op.2) M

def dedup (ops : List (Hash × Option Bytes)) : Std.TreeMap Hash (Option Bytes) :=
  ops.foldl (fun m op => m.insert op.1 op.2) {}

def patched (M : PathMap) (d : Std.TreeMap Hash (Option Bytes)) : PathMap := fun p => (d[p]?).getD (M p)

theorem patched_insert (M : PathMap) (d : Std.TreeMap Hash (Option Bytes)) (p : Hash) (v : Option Bytes) :
    patched M (d.insert p v) = Function.update (patched M d) p v := by
  funext q
  unfold patched
  rw [Std.TreeMap.getElem?_insert]
  by_cases hq : q = p
  · subst hq
    simp
  · have hne : ¬ compare p q = .eq := fun he => hq (Std.LawfulEqOrd.eq_of_compare he).symm
    simp [hq, hne]

theorem patched_dedup (M : PathMap) (ops : List (Hash × Option Bytes)) : patched M (dedup ops) = overlay M ops := by
  have h : ∀ d, patched M (ops.foldl (fun m op => m.insert op.1 op.2) d) = overlay (patched M d) ops := by
    intro d
    induction ops generalizing d with
    | nil => rfl
    | cons op ops ih =>
      rw [List.foldl_cons, ih, patched_insert]
      rfl
  exact h {}

theorem mem_dedup {ops : List (Hash × Option Bytes)} {p : Hash} {v : Option Bytes}
    (h : (p, v) ∈ (dedup ops).toList) : (p, v) ∈ ops := by
  have hfold : ∀ d : Std.TreeMap Hash (Option Bytes), (ops.foldl (fun m op => m.insert op.1 op.2) d)[p]? = some v →
      d[p]? = some v ∨ (p, v) ∈ ops := by
    clear h
    intro d h
    induction ops generalizing d with
    | nil => exact .inl h
    | cons op ops ih =>
      rw [List.foldl_cons] at h
      rcases ih _ h with hd | hin
      · rw [Std.TreeMap.getElem?_insert] at hd
        split at hd
        · rename_i he
          have hp := Std.LawfulEqOrd.eq_of_compare he
          have hv := Option.some.inj hd
          exact .inr (by rw [← hp, ← hv]; exact .head _)
        · exact .inl hd
      · exact .inr (.tail _ hin)
  rcases hfold {} (Std.TreeMap.mem_toList_iff_getElem?_eq_some.mp h) with hnil | hin
  · simp at hnil
  · exact hin

def puts (ops : List (Hash × Bytes)) : List (Hash × Option Bytes) := ops.map fun op => (op.1, some op.2)

variable [Crypto]

def byPath (ck : Key) (ops : List (Bytes × Option Bytes)) : List (Hash × Option Bytes) :=
  ops.map fun op => (path_of ck op.1, op.2)

def updatesOf (ck : Key) (l : List (Hash × Option Bytes)) : List Update :=
  l.map fun op => (op.1, op.2.map (vh_of ck op.1))

/-! ## Value hashes and ciphertexts -/

/-- The values of the batch were sealed; the rest of the accumulator is as before. -/
structure Prepared (cipher : AeadCipher) (entropy : Entropy) (l : List (Hash × Option Bytes))
    (acc acc' : CommitAcc) : Prop where
  new_version : acc'.new_version = acc.new_version
  pending : acc'.pending = acc.pending
  stale : acc'.stale = acc.stale
  values : acc'.values = acc.values
  cts_keep : ∀ (p : Hash) (ct : Bytes), acc.insert_cts[p]? = some ct → ∃ ct', acc'.insert_cts[p]? = some ct'
  cts_all : ∀ (p : Hash) (pt : Bytes), (p, some pt) ∈ l → ∃ ct, acc'.insert_cts[p]? = some ct
  cts_of : ∀ (p : Hash) (ct : Bytes), acc'.insert_cts[p]? = some ct → acc.insert_cts[p]? = some ct ∨
    ∃ pt, (p, some pt) ∈ l ∧ cipher.encrypt (entropy.value p) pt (value_aad p) = .ok ct

variable {ck : Key} {cipher : AeadCipher} {entropy : Entropy} {l : List (Hash × Option Bytes)} {new : UInt64}
  {t t' : Tree} {d : Std.TreeMap Hash (Option Bytes)} {M : PathMap}

theorem Prepared.cons_some {acc acc' : CommitAcc} {p : Hash} {pt ct : Bytes}
    (hct : cipher.encrypt (entropy.value p) pt (value_aad p) = .ok ct)
    (h : Prepared cipher entropy l { acc with insert_cts := acc.insert_cts.insert p ct } acc') :
    Prepared cipher entropy ((p, some pt) :: l) acc acc' := by
  have hself : ∃ ct', acc'.insert_cts[p]? = some ct' := h.cts_keep p ct (by simp)
  refine ⟨h.new_version, h.pending, h.stale, h.values, fun q ct' hq => ?_, fun q pt' hq => ?_, fun q ct' hq => ?_⟩
  · by_cases hp : p = q
    · subst hp
      exact hself
    have hne : ¬ compare p q = .eq := fun he => hp (Std.LawfulEqOrd.eq_of_compare he)
    refine h.cts_keep q ct' ?_
    rw [Std.TreeMap.getElem?_insert, if_neg hne]
    exact hq
  · rcases List.mem_cons.mp hq with he | hin
    · rw [(Prod.mk.inj he).1]
      exact hself
    · exact h.cts_all q pt' hin
  · rcases h.cts_of q ct' hq with hold | ⟨pt', hin, henc⟩
    · rw [Std.TreeMap.getElem?_insert] at hold
      split at hold
      · rename_i he
        have hp := Std.LawfulEqOrd.eq_of_compare he
        subst hp
        rw [← Option.some.inj hold]
        exact .inr ⟨pt, .head _, hct⟩
      · exact .inl hold
    · exact .inr ⟨pt', .tail _ hin, henc⟩

theorem prepare_cases (ck : Key) (cipher : AeadCipher) (entropy : Entropy) (l : List (Hash × Option Bytes))
    (acc : CommitAcc) (us : List Update) :
    (∃ e p pt, l.foldlM (prepare ck cipher entropy) (acc, us) = .error (.err e) ∧ (p, some pt) ∈ l ∧
      ∀ ct, cipher.encrypt (entropy.value p) pt (value_aad p) ≠ .ok ct) ∨
    ∃ acc', l.foldlM (prepare ck cipher entropy) (acc, us) = .ok (acc', us ++ updatesOf ck l) ∧
      Prepared cipher entropy l acc acc' := by
  induction l generalizing acc us with
  | nil =>
    refine .inr ⟨acc, by simp [updatesOf, pure, Except.pure], rfl, rfl, rfl, rfl, fun _ ct h => ⟨ct, h⟩, by simp,
      fun _ _ h => .inl h⟩
  | cons op l ih =>
    obtain ⟨p, v⟩ := op
    rw [List.foldlM_cons]
    rcases v with _ | pt
    · have hstep : prepare ck cipher entropy (acc, us) (p, none) = .ok (acc, us ++ [(p, none)]) := rfl
      rw [hstep]
      rcases ih acc (us ++ [(p, none)]) with ⟨e, q, pt, herr, hin, hno⟩ | ⟨acc', hok, hprep⟩
      · exact .inl ⟨e, q, pt, herr, .tail _ hin, hno⟩
      refine .inr ⟨acc', ?_, hprep.new_version, hprep.pending, hprep.stale, hprep.values, hprep.cts_keep,
        fun q pt hq => ?_, fun q ct hq => ?_⟩
      · rw [List.append_assoc] at hok
        exact hok
      · rcases List.mem_cons.mp hq with he | hin
        · simp at he
        · exact hprep.cts_all q pt hin
      · rcases hprep.cts_of q ct hq with hold | ⟨pt, hin, henc⟩
        · exact .inl hold
        · exact .inr ⟨pt, .tail _ hin, henc⟩
    · rcases henc : cipher.encrypt (entropy.value p) pt (value_aad p) with e | ct
      · refine .inl ⟨.corrupted ("encrypt: " ++ e), p, pt, ?_, .head _, by simp [henc]⟩
        simp only [prepare, henc]
        rfl
      have hstep : prepare ck cipher entropy (acc, us) (p, some pt) =
          .ok ({ acc with insert_cts := acc.insert_cts.insert p ct }, us ++ [(p, some (vh_of ck p pt))]) := by
        simp only [prepare, henc]
        rfl
      rw [hstep]
      rcases ih { acc with insert_cts := acc.insert_cts.insert p ct } (us ++ [(p, some (vh_of ck p pt))]) with
        ⟨e, q, pt', herr, hin, hno⟩ | ⟨acc', hok, hprep⟩
      · exact .inl ⟨e, q, pt', herr, .tail _ hin, hno⟩
      refine .inr ⟨acc', ?_, Prepared.cons_some henc hprep⟩
      rw [List.append_assoc] at hok
      exact hok

theorem rising_updatesOf (h : Rising l) : Rising (updatesOf ck l) := by
  unfold Rising updatesOf
  rw [List.pairwise_map]
  exact h

theorem lookup_updatesOf (ck : Key) (l : List (Hash × Option Bytes)) (p : Hash) :
    (updatesOf ck l).lookup p = (l.lookup p).map (Option.map (vh_of ck p)) := by
  induction l with
  | nil => rfl
  | cons op l ih =>
    obtain ⟨q, v⟩ := op
    unfold updatesOf at ih ⊢
    rw [List.map_cons, List.lookup_cons, List.lookup_cons, ih]
    by_cases hp : p = q
    · subst hp
      simp
    · simp [beq_false_of_ne hp]

/-- The accumulator when the tree goes from `t` to `t'`. -/
structure Delta (cipher : AeadCipher) (entropy : Entropy) (new : UInt64) (l : List (Hash × Option Bytes))
    (t t' : Tree) (acc : CommitAcc) : Prop where
  new_version : acc.new_version = new
  pending : ∀ (nk : NodeKey) (n : Node), acc.pending[nk]? = some n ↔ (nk, n) ∈ newNodes new [] t'
  value_of : ∀ (vh : Hash) (ct : Bytes), acc.values[vh]? = some ct → ∃ nk lf pt,
    (nk, .leaf lf) ∈ newNodes new [] t' ∧ lf.value_version = new ∧ lf.vh = vh ∧
      (lf.path, some pt) ∈ l ∧ cipher.encrypt (entropy.value lf.path) pt (value_aad lf.path) = .ok ct
  value_all : ∀ (nk : NodeKey) (lf : LeafNode), (nk, .leaf lf) ∈ newNodes new [] t' →
    lf.value_version = new → ∃ ct, acc.values[lf.vh]? = some ct
  stale : ∀ k, k ∈ acc.stale ↔ ∃ r ∈ t.refs [] \ t'.refs [], r.key = k

theorem Prepared.delta
    {t t' : Tree} {acc0 acc : CommitAcc} (hp : Prepared cipher entropy l { new_version := new } acc0)
    (ha : Applied [] t t' acc0 acc) : Delta cipher entropy new l t t' acc := by
  have hnew : acc0.new_version = new := hp.new_version
  unfold Applied at ha
  rw [hnew] at ha
  refine ⟨ha.new_version.trans hnew, fun nk n => ?_, fun vh ct hct => ?_, fun nk lf hlf hv => ?_, fun k => ?_⟩
  · rw [ha.pending, hp.pending]
    simp
  · rcases ha.value_new vh ct hct with hold | ⟨nk, lf, hin, hv, hvh, hcts⟩
    · rw [hp.values] at hold
      simp at hold
    · rcases hp.cts_of lf.path ct hcts with hold | ⟨pt, hpt, henc⟩
      · simp at hold
      · exact ⟨nk, lf, pt, hin, hv.trans hnew, hvh, hpt, henc⟩
  · exact ha.value_all nk lf hlf (hv.trans hnew.symm)
  · rw [ha.stale, hp.stale]
    simp

/-! ## What a tree commits to -/

/-- The leaves of the tree hold the hashes of the map's values. -/
def Commits (ck : Key) (t : Tree) (M : PathMap) : Prop := ∀ p, (t.find p 0).map LeafNode.vh = (M p).map (vh_of ck p)

theorem Updated.find_patched (hup : Updated new [] (updatesOf ck d.toList) t t') (p : Hash) :
    t'.find p 0 = updLeaf new p ((d[p]?).map (Option.map (vh_of ck p))) (t.find p 0) := by
  have h := hup.find p
  rw [lookup_updatesOf, lookup_toList] at h
  exact h

theorem Commits.patched (h : Commits ck t M) (hup : Updated new [] (updatesOf ck d.toList) t t') :
    Commits ck t' (patched M d) := by
  intro p
  unfold MerkleStore.patched
  rw [hup.find_patched]
  rcases d[p]? with _ | v
  · exact h p
  rcases v with _ | x
  · rfl
  · cases t.find p 0 <;> rfl

theorem Commits.eq_of_patched_eq (h : Commits ck t M) (hup : Updated new [] (updatesOf ck d.toList) t t')
    (hM : MerkleStore.patched M d = M) : t' = t := by
  refine hup.same fun p _ => ?_
  have hp := h p
  have hMp := congrFun hM p
  unfold MerkleStore.patched at hMp
  have hfind := hup.find_patched p
  rcases hd : d[p]? with _ | v
  · rw [hd] at hfind
    exact hfind
  rw [hd] at hfind hMp
  simp only [Option.getD_some] at hMp
  rw [← hMp] at hp
  rcases v with _ | x
  · have hnone : t.find p 0 = none := by simpa using hp
    rw [hnone] at hfind
    exact hfind.trans hnone.symm
  obtain ⟨l, hl, hvh⟩ := Option.map_eq_some_iff.mp hp
  refine (hfind.trans ?_).trans hl.symm
  have hpath := Tree.find_path hl
  rw [hl]
  simp only [Option.map_some, updLeaf, hvh, if_true, Option.some.injEq]
  rw [← hvh, ← hpath]

theorem Commits.unique {U : Set (Hash × Bytes)} {M' : PathMap}
    (hU : Set.InjOn (fun e : Hash × Bytes => vh_of ck e.1 e.2) U) (h : Commits ck t M) (h' : Commits ck t M')
    (hM : ∀ p x, M p = some x → (p, x) ∈ U) (hM' : ∀ p x, M' p = some x → (p, x) ∈ U) : M' = M := by
  funext p
  have he : (M' p).map (vh_of ck p) = (M p).map (vh_of ck p) := (h' p).symm.trans (h p)
  rcases hx : M p with _ | x
  · rw [hx] at he
    simpa using he
  rw [hx] at he
  obtain ⟨y, hy, hvh⟩ := Option.map_eq_some_iff.mp he
  have := hU (hM' p y hy) (hM p x hx) hvh
  rw [hy, (Prod.mk.inj this).2]

variable {B : Type} [KvBackend B] [AtomicBackend B]

/-- `t` is a tree in the table, with nothing newer than `v` in it. -/
structure Grown (s : MerkleStore B) (v : UInt64) (t : Tree) : Prop where
  wf : t.WF []
  upto : ∀ x ∈ t.nodes [], x.1.version ≤ v ∧ ∀ l, x.2 = .leaf l → l.value_version ≤ v
  stored : Stored s [] t

theorem Grown.older {s : MerkleStore B} {v new : UInt64} {t : Tree} (h : Grown s v t) (hv : v < new) :
    Older new [] t := by
  intro x hx
  refine ⟨fun he => ?_, fun l hl he => ?_⟩
  · exact absurd (h.upto x hx).1 (by rw [he]; exact UInt64.not_le.mpr hv)
  · exact absurd ((h.upto x hx).2 l hl) (by rw [he]; exact UInt64.not_le.mpr hv)

theorem computeByPath_cases {s : MerkleStore B} {v new : UInt64} {t : Tree} (hg : Grown s v t)
    (hroot : s.root_child = t.ref) (hv : v < new) (entropy : Entropy) (d : Std.TreeMap Hash (Option Bytes)) :
    (∃ e p pt, Gives (computeByPath entropy new d) s (.error (.err e)) ∧ (p, some pt) ∈ d.toList ∧
      ∀ ct, s.cipher.encrypt (entropy.value p) pt (value_aad p) ≠ .ok ct) ∨
    ∃ t' acc, Updated new [] (updatesOf s.ck d.toList) t t' ∧
      ((t' = t ∧ Gives (computeByPath entropy new d) s (.ok none)) ∨
        (t' ≠ t ∧ Delta s.cipher entropy new d.toList t t' acc ∧
          Gives (computeByPath entropy new d) s (.ok (some (acc, t'.ref, t'.hash))))) := by
  have hrising : Rising d.toList := Std.TreeMap.ordered_keys_toList
  rcases prepare_cases s.ck s.cipher entropy d.toList { new_version := new } [] with
    ⟨e, p, pt, herr, hin, hno⟩ | ⟨acc0, hok, hprep⟩
  · refine .inl ⟨e, p, pt, ⟨s, ?_, Same.refl s⟩, hin, hno⟩
    unfold computeByPath
    rw [exec_bind_ok (exec_state s)]
    exact exec_bind_error (by rw [exec_ofExcept, herr])
  have hin : ApplyInput s [] t acc0 (updatesOf s.ck d.toList) := by
    have hnew : acc0.new_version = new := hprep.new_version
    refine ⟨hg.wf, hg.stored, ?_, rising_updatesOf hrising, fun x _ => under_nil x.1, ?_, ?_⟩
    · rw [hnew]
      exact hg.older hv
    · intro nk n hn
      rw [hprep.pending] at hn
      simp at hn
    · intro p h hp
      obtain ⟨op, hop, he⟩ := List.mem_map.mp hp
      obtain ⟨rfl, hv⟩ := Prod.mk.inj he
      obtain ⟨pt, hpt, -⟩ := Option.map_eq_some_iff.mp hv
      exact hprep.cts_all op.1 pt (by rw [← hpt]; exact hop)
  obtain ⟨t', acc, ⟨s1, hexec, hs1⟩, hup, happ⟩ := apply_subtree_spec NIBBLES [] rfl s t acc0 _ hin
  have hsame := hup.ref_eq_iff hin.older
  rw [show acc0.new_version = new from hprep.new_version] at hup
  have hbody : ∀ r, (if t'.ref = s.root_child then pure none
      else pure (some (acc, t'.ref, t'.hash)) : StoreM B _).exec s1 = (r, s1) →
      Gives (computeByPath entropy new d) s r := by
    intro r hr
    refine ⟨s1, ?_, hs1⟩
    unfold computeByPath
    rw [exec_bind_ok (exec_state s)]
    rw [exec_bind_ok (show (ofExcept _).exec s = (.ok (acc0, updatesOf s.ck d.toList), s) by
      rw [exec_ofExcept, hok]; rfl)]
    simp only [hroot]
    rw [exec_bind_ok hexec]
    rw [hroot] at hr
    exact hr
  refine .inr ⟨t', acc, hup, ?_⟩
  by_cases ht : t' = t
  · refine .inl ⟨ht, hbody _ ?_⟩
    rw [hroot, if_pos (hsame.mpr ht)]
    rfl
  · refine .inr ⟨ht, hprep.delta happ, hbody _ ?_⟩
    rw [hroot, if_neg (fun he => ht (hsame.mp he))]
    rfl

end MerkleStore

end EnclaveOs.Merkle
