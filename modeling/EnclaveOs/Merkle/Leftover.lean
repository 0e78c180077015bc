import EnclaveOs.Merkle.Pruning
import EnclaveOs.Merkle.Refinement

/-!
# What is left over in a table

A write that was reported as failed may have landed, and a restore may start on a used table. Batches and reads
are not disturbed by it, pruning is.
-/

open EnclaveOs.Lib

namespace EnclaveOs.Merkle

open MerkleStore (get prune)

def Archive.only (v : UInt64) (c : Version) : Archive := Function.update (fun _ => none) v (some c)

theorem Archive.only_self (v : UInt64) (c : Version) : Archive.only v c v = some c := Function.update_self ..

theorem Archive.only_eq_some {v w : UInt64} {c c' : Version} : Archive.only v c w = some c' ↔ w = v ∧ c' = c := by
  unfold Archive.only
  rw [Function.update_apply]
  split
  · simp [*, eq_comm]
  · simp [*]

namespace MerkleStore

section Model

variable {B : Type} [KvBackend B] [Crypto] [AtomicBackend B] {H : Archive} {s s' : MerkleStore B} {c : Version}
  {U : Set (Hash × Bytes)} {ck : Key} {P : PathMap}

theorem Faithful.only (h : Faithful U H s) (hc : H s.version = some c) : Faithful U (.only s.version c) s := by
  have hle : ∀ v c', Archive.only s.version c v = some c' → H v = some c' := by
    intro v c' hv
    obtain ⟨rfl, rfl⟩ := Archive.only_eq_some.mp hv
    exact hc
  exact ⟨h.consistent.mono hle (by rw [hc]; exact Archive.only_self _ c),
    fun v c' hv => h.readable v c' (hle v c' hv), fun v c' hv => h.within v c' (hle v c' hv)⟩

/-- The live version holds `P`, whatever else is in the table. -/
structure Alive (ck : Key) (U : Set (Hash × Bytes)) (P : PathMap) (s : MerkleStore B) : Prop where
  live : ∃ c, Faithful U (.only s.version c) s ∧ c.map = P
  keyed : s.ck = ck
  shaped : Shaped s.table

theorem Alive.of_faithful (h : Faithful U H s) (hc : H s.version = some c) (hck : s.ck = ck) (hs : Shaped s.table) :
    Alive ck U c.map s := ⟨⟨c, h.only hc, rfl⟩, hck, hs⟩

theorem Alive.gives_get (h : Alive ck U P s) (key : Bytes) : ((get key).exec s).1 = .ok (P (path_of ck key)) := by
  obtain ⟨c, hf, rfl⟩ := h.live
  rw [(hf.gives_get (Archive.only_self _ c) key).fst, h.keyed]

theorem Alive.of_same (h : Alive ck U P s) (hs : Same s s') : Alive ck U P s' := by
  obtain ⟨c, hf, rfl⟩ := h.live
  refine ⟨⟨c, ?_, rfl⟩, hs.ck.trans h.keyed, ?_⟩
  · rw [hs.version]
    exact hf.of_same hs
  · rw [hs.table]
    exact h.shaped

theorem Alive.pinned (h : Alive ck U P s) (pin : Option UInt64) : Alive ck U P { s with snapshot_pin := pin } := by
  obtain ⟨c, hf, rfl⟩ := h.live
  exact ⟨⟨c, ⟨hf.consistent.pinned pin, hf.readable, hf.within⟩, rfl⟩, h.keyed, h.shaped⟩

omit [KvBackend B] [AtomicBackend B] in
theorem Landed.shaped {new : UInt64} {t t' : Tree} {acc : CommitAcc} {ckpt : Bytes} {T T' : Table}
    (h : Landed new t t' acc ckpt T T') (hT : Shaped T) : Shaped T' := by
  intro k hk
  rcases h.stale_cases k with hold | ⟨r, -, he⟩
  · rw [hold] at hk
    exact hT k hk
  · exact ⟨new, r, he⟩

theorem PutOutcome.shaped {t : Tree} {entropy : Entropy} {d : Std.TreeMap Hash (Option Bytes)}
    {r : Except Fault (Hash × UInt64)} (h : PutOutcome s t entropy d r s') (hT : Shaped s.table) : Shaped s'.table := by
  cases h with
  | failed why hs =>
    rw [hs.table]
    exact hT
  | unchanged hs hup =>
    rw [hs.table]
    exact hT
  | lost why hs hw => exact hw.landed.shaped hT
  | committed hm hw => exact hw.landed.shaped hT

/-- However a batch ends, the live version holds the map after it. -/
theorem Alive.batch (h : Alive ck U P s) (hU : ValuesApart ck U) (b : Batch)
    (hb : ∀ p x, (p, some x) ∈ b.updates ck → (p, x) ∈ U) : Alive ck U (b.mapAfter s P) (b.step s) := by
  obtain ⟨c, hf, rfl⟩ := h.live
  have hlive := Archive.only_self s.version c
  obtain ⟨hchild, -⟩ := hf.consistent.now hlive
  have ho := b.outcome (hf.consistent.kept _ _ hlive).toGrown hchild
  have hck : (b.step s).ck = ck := ho.settings.1.trans h.keyed
  have hd : ∀ p x, (p, some x) ∈ (dedup (b.updates s.ck)).toList → (p, x) ∈ U := by
    intro p x hp
    have := mem_dedup hp
    rw [h.keyed] at this
    exact hb p x this
  unfold Batch.mapAfter
  rcases hf.put hlive ho (by rw [h.keyed]; exact hU) hd with ⟨e, hr, hv, hf'⟩ | ⟨t', hr, -, hf', -⟩
  · rw [hr]
    exact .of_faithful hf' (by rw [hv]; exact hlive) hck (ho.shaped h.shaped)
  rw [hr]
  have halive := Alive.of_faithful hf' (Function.update_self ..) hck (ho.shaped h.shaped)
  rw [patched_dedup] at halive
  exact halive

/-- No stale entry that is followed names a record of the live version. A prune of later versions is refused. -/
def Harmless (s : MerkleStore B) (before_version : UInt64) : Prop :=
  horizon s.snapshot_pin before_version ≤ s.version → ∀ since target, since ≤ horizon s.snapshot_pin before_version → s.table (stale_record_key since target) ≠ none →
    ¬ References s.table s.version target

omit [KvBackend B] [Crypto] [AtomicBackend B] in
theorem Reclaims.shaped {h : UInt64} {T T' : Table} (hrec : Reclaims h T T') (hT : Shaped T) : Shaped T' := by
  intro k hk
  rcases hrec.taken (REC_STALE :: k) with he | ⟨hnone, -⟩
  · rw [he] at hk
    exact hT k hk
  · exact absurd hnone hk

theorem Alive.prune (h : Alive ck U P s) (hR : RootsApart ck U) (fuel : Nat) (before_version : UInt64)
    (hharm : Harmless s before_version) : Alive ck U P ((prune fuel before_version).exec s).2 := by
  rcases prune_cases fuel before_version s with ⟨-, m, hexec⟩ | ⟨hle, r, b, hexec, hrec, -⟩
  · rw [hexec]
    exact h
  rw [hexec]
  obtain ⟨c, hf, rfl⟩ := h.live
  have hlive := Archive.only_self s.version c
  have hk := hf.consistent.kept _ c hlive
  have hne := hk.hash_ne (by rw [h.keyed]; exact hR) (hf.within _ c hlive)
  have hspare : ∀ r ∈ c.tree.refs [], AtomicBackend.table b r.key = s.table r.key := by
    intro r hr
    refine hrec.spares_ref fun since hs => ?_
    by_contra hin
    exact hharm hle since r.key hs hin ((hk.references_iff hne r.key).mpr ⟨r, hr, rfl⟩)
  have hroot := hrec.spares_root h.shaped hle
  refine ⟨⟨c, ⟨⟨⟨c, hlive, hf.consistent.now hlive⟩, hf.consistent.upto, fun v c hv => ?_⟩, fun v c hv p l x hl hx => ?_,
    hf.within⟩, rfl⟩, h.keyed, hrec.shaped h.shaped⟩
  · obtain ⟨rfl, rfl⟩ := Archive.only_eq_some.mp hv
    refine hk.keep rfl hroot (fun x hx => hspare (.node x.1) ⟨x.2, hx⟩) fun x hx m hm => ?_
    simp at hm
  · obtain ⟨rfl, rfl⟩ := Archive.only_eq_some.mp hv
    obtain ⟨ct, htab, hrest⟩ := hf.readable _ _ hlive p l x hl hx
    have hp := Tree.find_path hl
    subst hp
    exact ⟨ct, (hspare (.value l) ((Tree.mem_leaf_iff hk.wf l).mpr ⟨under_nil _, hl⟩)).trans htab, hrest⟩

def Call.mapAfter (s : MerkleStore B) (P : PathMap) : Call → PathMap
  | .batch b => b.mapAfter s P
  | _ => P

def pathsAfter : MerkleStore B → PathMap → List Call → PathMap
  | _, P, [] => P
  | s, P, c :: cs => pathsAfter (c.step s) (Call.mapAfter s P c) cs

/-- Every pruning of the run is harmless where it is called. -/
def HarmlessRun : MerkleStore B → List Call → Prop
  | _, [] => True
  | s, c :: cs =>
    (∀ fuel before_version, c.pruning s = some (fuel, before_version) → Harmless s before_version) ∧
      HarmlessRun (c.step s) cs

theorem Alive.call (h : Alive ck U P s) (hU : ValuesApart ck U) (hR : RootsApart ck U) (call : Call)
    (hc : call.Within ck U)
    (hharm : ∀ fuel before_version, call.pruning s = some (fuel, before_version) → Harmless s before_version) :
    Alive ck U (Call.mapAfter s P call) (call.step s) := by
  obtain ⟨c, hf, rfl⟩ := h.live
  have hlive := Archive.only_self s.version c
  have hne := (hf.consistent.kept _ c hlive).hash_ne (by rw [h.keyed]; exact hR) (hf.within _ c hlive)
  have hmap : (∀ b, call ≠ .batch b) → Call.mapAfter s c.map call = c.map := by
    intro hno
    cases call <;> first | rfl | exact absurd rfl (hno _)
  cases hf.consistent.kind hlive hne emptyHistory call with
  | batch b => exact h.batch hU b hc
  | prunes hp hstep hrecord =>
    rw [hstep, hmap fun b he => by rw [he] at hp; simp [Call.pruning] at hp]
    exact h.prune hR _ _ (hharm _ _ hp)
  | quiet pin hp hno hrecord hs =>
    rw [hmap hno]
    exact (h.pinned pin).of_same hs

theorem Alive.run (h : Alive ck U P s) (hU : ValuesApart ck U) (hR : RootsApart ck U) (cs : List Call)
    (hcs : ∀ c ∈ cs, c.Within ck U) (hharm : HarmlessRun s cs) : Alive ck U (pathsAfter s P cs) (runCalls s cs) := by
  induction cs generalizing s P with
  | nil => exact h
  | cons c cs ih =>
    exact ih (h.call hU hR c (hcs c (.head _)) hharm.1) (fun c hc => hcs c (.tail _ hc)) hharm.2

/-! ## Where the table comes from -/

theorem Created.alive {T : Table} {sk : Key} (h : Created T ck sk s) (hT : Shaped T) (U : Set (Hash × Bytes)) :
    Alive ck U (fun _ => none) s := by
  refine .of_faithful (h.faithful U) h.live h.ck fun k hk => ?_
  rw [h.other (ne_of_head (by simp [REC_STALE, REC_ROOT])) (ne_of_head (by simp [REC_STALE, REC_CHECKPOINT]))] at hk
  exact hT k hk

/-- What the keys hold after a call. A `put_batch` that fails leaves them. -/
def Call.keysAfter (s : MerkleStore B) (M : KeyMap) : Call → KeyMap
  | .batch (.keys entropy ops) =>
    match ((put_batch entropy ops).exec s).1 with
    | .ok _ => M.put ops
    | .error _ => M
  | _ => M

def keysAfter : MerkleStore B → KeyMap → List Call → KeyMap
  | _, M, [] => M
  | s, M, c :: cs => keysAfter (c.step s) (Call.keysAfter s M c) cs

def Call.Keyed (ck : Key) (K : Set Bytes) (U : Set (Hash × Bytes)) : Call → Prop
  | .batch (.keys entropy ops) => KeyBatchWithin ck K U (entropy, ops)
  | .batch (.paths _ _) => False
  | _ => True

omit [AtomicBackend B] [KvBackend B] in
theorem Call.Keyed.within {K : Set Bytes} {c : Call} (h : Call.Keyed ck K U c) : c.Within ck U := by
  cases c with
  | batch b =>
    cases b with
    | keys entropy ops =>
      intro p x hp
      obtain ⟨op, hop, he⟩ := List.mem_map.mp hp
      obtain ⟨rfl, hx⟩ := Prod.mk.inj he
      exact (h op hop).2 x hx
    | paths entropy ops => exact absurd h id
  | _ => trivial

omit [AtomicBackend B] in
theorem Mirrors.call {K : Set Bytes} {M : KeyMap} (h : Mirrors ck K M P) (hK : Set.InjOn (path_of ck) K) (hck : s.ck = ck)
    {c : Call} (hc : Call.Keyed ck K U c) : Mirrors ck K (Call.keysAfter s M c) (Call.mapAfter s P c) := by
  cases c with
  | batch b =>
    cases b with
    | keys entropy ops =>
      simp only [Call.keysAfter, Call.mapAfter, Batch.mapAfter, Batch.run, Batch.updates, hck]
      rcases ((put_batch entropy ops).exec s).1 with e | r
      · exact h
      · exact h.put hK ops fun op hop => (hc op hop).1
    | paths entropy ops => exact absurd hc id
  | _ => exact h

theorem Alive.mirrors {K : Set Bytes} {M : KeyMap} (h : Alive ck U P s) (hU : ValuesApart ck U) (hR : RootsApart ck U)
    (hK : Set.InjOn (path_of ck) K) (hm : Mirrors ck K M P) (cs : List Call) (hcs : ∀ c ∈ cs, Call.Keyed ck K U c)
    (hharm : HarmlessRun s cs) : Mirrors ck K (keysAfter s M cs) (pathsAfter s P cs) := by
  induction cs generalizing s M P with
  | nil => exact hm
  | cons c cs ih =>
    have hc := hcs c (.head _)
    exact ih (h.call hU hR c hc.within hharm.1) (hm.call hK h.keyed hc) (fun c hc => hcs c (.tail _ hc))
      hharm.2

/-- Writes may fail, landed or not: if all prunings are harmless, `get` returns the map without the failed
batches. -/
theorem get_after_failed_writes {b : B} {sk : Key} {draw : Option Nonce} {s0 : MerkleStore B} {K : Set Bytes}
    {cs : List Call} (hT : Shaped (AtomicBackend.table b)) (hcreate : create b ck sk draw = .ok s0)
    (hK : Set.InjOn (path_of ck) K) (hU : ValuesApart ck U) (hR : RootsApart ck U)
    (hcs : ∀ c ∈ cs, Call.Keyed ck K U c) (hharm : HarmlessRun s0 cs) :
    ∀ k ∈ K, ((get k).exec (runCalls s0 cs)).1 = .ok (keysAfter s0 (fun _ => none) cs k) := by
  intro k hk
  have h0 := (create_spec hcreate).alive hT U
  have hrun := h0.run hU hR cs (fun c hc => (hcs c hc).within) hharm
  rw [hrun.gives_get k, (h0.mirrors hU hR hK (Mirrors.empty ck K) cs hcs hharm).inside k hk]

end Model

/-! ## A host that reports a landed write as failed -/

structure FlakyBackend where
  inner : MemBackend := {}
  /-- Whether the next writes are reported as done. They land all the same. -/
  reports : List Bool := []

instance : KvBackend FlakyBackend where
  get b key := ((KvBackend.get b.inner key).1, { b with inner := (KvBackend.get b.inner key).2 })
  write_batch b ops := (if b.reports.headD true then .ok () else .error (.backend (-1)),
    ⟨(KvBackend.write_batch b.inner ops).2, b.reports.tail⟩)
  scan b start stop limit :=
    ((KvBackend.scan b.inner start stop limit).1, { b with inner := (KvBackend.scan b.inner start stop limit).2 })

instance : AtomicBackend FlakyBackend where
  table b := AtomicBackend.table b.inner
  get_spec b k := AtomicBackend.get_spec b.inner k
  write_spec b ops := .inl (write_batch_table b.inner ops)
  scan_spec b start stop limit := AtomicBackend.scan_spec b.inner start stop limit

namespace Sample

open EnclaveOs.Merkle.Sample

def flaky : MerkleStore FlakyBackend :=
  match create ({ reports := [true, true, false] } : FlakyBackend) key key (some nonce) with
  | .ok s => s
  | .error _ => fresh {} key key placeholder 0

theorem create_flaky : create ({ reports := [true, true, false] } : FlakyBackend) key key (some nonce) = .ok flaky := by
  have hok : (create ({ reports := [true, true, false] } : FlakyBackend) key key (some nonce)).isOk = true := by
    decide +kernel
  unfold flaky
  split
  · assumption
  rename_i h
  rw [h] at hok
  simp [Except.isOk, Except.toBool] at hok

def putOf (k v : UInt8) : Call := .batch (.keys entropy [([k], some [v])])

/-- The second put is reported as failed and the third takes its version. -/
def lostPut (k v : UInt8) : List Call := [putOf 1 2, putOf 1 9, putOf k v]

def lostKeys : Set Bytes := {[1], [5]}

def lostValues : Set (Hash × Bytes) := {(path_of key [1], [2]), (path_of key [1], [9]), (path_of key [5], [6])}

theorem lostKeys_apart : Set.InjOn (path_of key) lostKeys := by
  rintro k (rfl | rfl) k' (rfl | rfl) h
  · rfl
  · exact absurd h (by decide +kernel)
  · exact absurd h (by decide +kernel)
  · rfl

theorem lostValues_apart : ValuesApart key lostValues := by
  have h12 : vh_of key (path_of key [1]) [2] ≠ vh_of key (path_of key [1]) [9] := by decide +kernel
  have h13 : vh_of key (path_of key [1]) [2] ≠ vh_of key (path_of key [5]) [6] := by decide +kernel
  have h23 : vh_of key (path_of key [1]) [9] ≠ vh_of key (path_of key [5]) [6] := by decide +kernel
  rintro e (rfl | rfl | rfl) e' (rfl | rfl | rfl) h
  · rfl
  · exact absurd h h12
  · exact absurd h h13
  · exact absurd h.symm h12
  · rfl
  · exact absurd h h23
  · exact absurd h.symm h13
  · exact absurd h.symm h23
  · rfl

theorem putOf_keyed {k v : UInt8} (hk : [k] ∈ lostKeys) (hv : (path_of key [k], [v]) ∈ lostValues) :
    Call.Keyed key lostKeys lostValues (putOf k v) := by
  intro op hop
  obtain rfl := List.mem_singleton.mp hop
  exact ⟨hk, fun x hx => by rw [← Option.some.inj hx]; exact hv⟩

theorem lostPut_keyed {k v : UInt8} (hk : [k] ∈ lostKeys) (hv : (path_of key [k], [v]) ∈ lostValues) (before : UInt64) :
    ∀ c ∈ lostPut k v ++ [.prune 8 before], Call.Keyed key lostKeys lostValues c := by
  intro c hc
  simp only [lostPut, List.cons_append, List.nil_append, List.mem_cons, List.not_mem_nil, or_false] at hc
  rcases hc with rfl | rfl | rfl | rfl
  · exact putOf_keyed (.inl rfl) (.inl rfl)
  · exact putOf_keyed (.inl rfl) (.inr (.inl rfl))
  · exact putOf_keyed hk hv
  · trivial

theorem shaped_empty : Shaped (AtomicBackend.table ({ reports := [true, true, false] } : FlakyBackend)) :=
  fun k hk => absurd (table_empty (REC_STALE :: k)) hk

def entriesOf (v : UInt64) (m : Std.TreeMap Bytes Bytes) : Bool :=
  m.toList.all fun e => e.1.head? != some REC_STALE || e.1.take 9 == REC_STALE :: u64Be v

theorem no_entry {v since : UInt64} {m : Std.TreeMap Bytes Bytes} (h : entriesOf v m = true) (hs : since ≠ v)
    (target : Bytes) : m[stale_record_key since target]? = none := by
  by_contra hne
  obtain ⟨x, hx⟩ := Option.ne_none_iff_exists'.mp hne
  have hin := List.all_eq_true.mp h _ (Std.TreeMap.mem_toList_iff_getElem?_eq_some.mpr hx)
  have hhead : (stale_record_key since target).head? = some REC_STALE := rfl
  have htake : (stale_record_key since target).take 9 = REC_STALE :: u64Be since := by
    unfold stale_record_key
    rw [List.take_succ_cons, List.take_left' (by simp)]
  simp only [hhead, htake, bne_self_eq_false, Bool.false_or, beq_iff_eq] at hin
  exact hs (u64Be_inj (List.cons.inj hin).2)

end Sample

open EnclaveOs.Merkle.Sample MerkleStore.Sample in
/-- The failed put is tried again. Pruning to version 1 follows no entry. -/
theorem get_after_failed_writes_retry :
    ((putOf 1 9).step (runCalls flaky [putOf 1 2])).version = 1 ∧
    ((get [1]).exec (runCalls flaky (lostPut 1 9 ++ [.prune 8 1]))).1 =
      .ok (keysAfter flaky (fun _ => none) (lostPut 1 9 ++ [.prune 8 1]) [1]) := by
  refine ⟨by decide +kernel, ?_⟩
  refine get_after_failed_writes shaped_empty create_flaky lostKeys_apart lostValues_apart (rootsApart _ _)
    (lostPut_keyed (.inl rfl) (.inr (.inl rfl)) 1) ?_ [1] (.inl rfl)
  refine ⟨by rintro _ _ ⟨⟩, by rintro _ _ ⟨⟩, by rintro _ _ ⟨⟩, ?_, trivial⟩
  intro fuel before_version h _ since target hs hin
  obtain ⟨rfl, rfl⟩ := Prod.mk.inj (Option.some.inj h)
  refine absurd (no_entry (v := 2) (by decide +kernel) (fun he => ?_) target) hin
  rw [he] at hs
  exact absurd hs (by decide +kernel)

open EnclaveOs.Merkle.Sample MerkleStore.Sample in
/-- Entries of the failed put are followed, and the value of `[1]` is gone. -/
theorem failed_write_loses_value :
    create ({ reports := [true, true, false] } : FlakyBackend) key key (some nonce) = .ok flaky ∧
    (∀ c ∈ lostPut 5 6 ++ [.prune 8 2], Call.Keyed key lostKeys lostValues c) ∧
    Set.InjOn (path_of key) lostKeys ∧ ValuesApart key lostValues ∧ RootsApart key lostValues ∧
    ((put_batch entropy [([1], some [9])]).exec (runCalls flaky [putOf 1 2])).1 = .error (.err (.backend (-1))) ∧
    keysAfter flaky (fun _ => none) (lostPut 5 6 ++ [.prune 8 2]) [1] = some [2] ∧
    ((prune 8 2).exec (runCalls flaky (lostPut 5 6))).1 = .ok ⟨2, 2, 2⟩ ∧
    ((get [1]).exec (runCalls flaky (lostPut 5 6 ++ [.prune 8 2]))).1 = .error (.err (.missing "value record")) :=
  ⟨create_flaky, lostPut_keyed (.inr rfl) (.inr (.inr rfl)) 2, lostKeys_apart, lostValues_apart, rootsApart _ _,
    by decide +kernel, by decide +kernel, by decide +kernel, by decide +kernel⟩

/-! ## A restore over a table that was used -/

section

variable {B : Type} [KvBackend B] [Crypto] [AtomicBackend B] {s : MerkleStore B} {U : Set (Hash × Bytes)} {ck : Key}

theorem Faithful.stamped {H : Archive} {s' : MerkleStore B} {c : Version} {v : UInt64} (h : Faithful U H s)
    (hc : H s.version = some c) (hst : Stamped s c.tree v s') (hfresh : v ≠ s.version → s.cache.lookup ⟨v, []⟩ = none) :
    Faithful U (Archive.stamp H v c) s' :=
  ⟨h.consistent.stamped hc hst hfresh, h.readable.stamped hc hst, h.within.stamped hc v⟩

/-- Restored over a used table: if all prunings are harmless, `get` returns the restored map with the later
batches. -/
theorem get_after_restore_over_used {b : B} {sk : Key} {draw draw' : Option Nonce} {entropy : Entropy}
    {chunks : List (List (Hash × Bytes))} {R : Hash} {v : UInt64} {cs : List Call}
    (hT : Shaped (AtomicBackend.table b)) (h : restore b ck sk draw entropy draw' chunks R v = .ok s)
    (hU : ValuesApart ck U) (hR : RootsApart ck U) (hin : ∀ p x, (p, x) ∈ chunks.flatten → (p, x) ∈ U)
    (hcs : ∀ c ∈ cs, c.Within ck U) (hharm : HarmlessRun s cs) (key : Bytes) :
    ((get key).exec (runCalls s cs)).1 = .ok (pathsAfter s (leafMap chunks.flatten) cs (path_of ck key)) := by
  obtain ⟨s0, s1, bv, hcreate, hput, hstamp, hfresh⟩ := restore_ok h
  have h0 := (create_spec hcreate).alive hT U
  have hb : ∀ p x, (p, some x) ∈ (Batch.paths entropy chunks.flatten).updates ck → (p, x) ∈ U := by
    intro p x hp
    obtain ⟨op, hop, he⟩ := List.mem_map.mp hp
    obtain ⟨rfl, hx⟩ := Prod.mk.inj he
    rw [← Option.some.inj hx]
    exact hin _ _ hop
  have h1 := h0.batch hU (.paths entropy chunks.flatten) hb
  have hrun : (Batch.paths entropy chunks.flatten).run.exec s0 = (.ok (R, bv), s1) := hput
  unfold Batch.step Batch.mapAfter at h1
  rw [hrun] at h1
  obtain ⟨c, hf, hmap⟩ := h1.live
  have hlive := Archive.only_self s1.version c
  obtain ⟨hchild, -⟩ := hf.consistent.now hlive
  have hst := stamp_spec (hf.consistent.kept _ _ hlive) hchild hstamp
  have hfaith := hf.stamped hlive hst (hfresh v)
  have hshaped : Shaped s.table := by
    intro k hk
    rw [hst.stale] at hk
    exact h1.shaped k hk
  have halive := Alive.of_faithful hfaith (by rw [hst.version]; exact Function.update_self ..)
    (hst.ck.trans h1.keyed) hshaped
  have hleaf : c.map = leafMap chunks.flatten := hmap
  rw [← hleaf]
  exact (halive.run hU hR cs hcs hharm).gives_get key

end

namespace Sample

open EnclaveOs.Merkle.Sample

def used : MemBackend := (runCalls store putDelete).backend

theorem used_shaped : Shaped (AtomicBackend.table used) := by
  obtain ⟨hup0, -⟩ := (create_spec create_store).upkeep (fun _ => table_empty _) values
  obtain ⟨H, hup, -⟩ := hup0.run (rootsApart _ _) putDelete putDelete_within
  exact hup.sturdy.indexed.shaped

def leaves : List (List (Hash × Bytes)) := [[(path_of key [1], [2])]]

def restored : MerkleStore MemBackend :=
  match restore used key key (some nonce) entropy (some nonce) leaves (put.step store).root 2 with
  | .ok s => s
  | .error _ => store

theorem restore_used :
    restore used key key (some nonce) entropy (some nonce) leaves (put.step store).root 2 = .ok restored := by
  have hok : (restore used key key (some nonce) entropy (some nonce) leaves (put.step store).root 2).isOk = true := by
    decide +kernel
  unfold restored
  split
  · assumption
  rename_i h
  rw [h] at hok
  simp [Except.isOk, Except.toBool] at hok

theorem leaves_within (p : Hash) (x : Bytes) (h : (p, x) ∈ leaves.flatten) : (p, x) ∈ values := List.mem_singleton.mp h

end Sample

open EnclaveOs.Merkle.Sample MerkleStore.Sample in
theorem get_after_restore_over_used_one :
    ((get [1]).exec (runCalls restored [.prune 8 1])).1 =
      .ok (pathsAfter restored (leafMap leaves.flatten) [.prune 8 1] (path_of key [1])) := by
  have hharm : HarmlessRun restored [.prune 8 1] := by
    refine ⟨fun fuel before_version h _ since target hs hin => ?_, trivial⟩
    obtain ⟨rfl, rfl⟩ := Prod.mk.inj (Option.some.inj h)
    refine absurd (no_entry (v := 2) (by decide +kernel) (fun he => ?_) target) hin
    rw [he] at hs
    exact absurd hs (by decide +kernel)
  exact get_after_restore_over_used used_shaped restore_used values_apart (rootsApart _ _) leaves_within
    (fun c hc => by rw [List.mem_singleton.mp hc]; trivial) hharm [1]

open EnclaveOs.Merkle.Sample MerkleStore.Sample in
/-- Entries of the earlier store name records of the restored one. -/
theorem restored_value_is_pruned :
    create ({} : MemBackend) key key (some nonce) = .ok store ∧ used = (runCalls store putDelete).backend ∧
    (∀ c ∈ putDelete, c.Within key values) ∧ ValuesApart key values ∧ RootsApart key values ∧
    restore used key key (some nonce) entropy (some nonce) leaves (put.step store).root 2 = .ok restored ∧
    ((get [1]).exec restored).1 = .ok (some [2]) ∧
    ((prune 8 2).exec restored).1 = .ok ⟨2, 2, 2⟩ ∧
    ((get [1]).exec (runCalls restored [.prune 8 2])).1 = .error (.err (.missing "value record")) :=
  ⟨create_store, rfl, putDelete_within, values_apart, rootsApart _ _, restore_used, by decide +kernel, by decide +kernel,
    by decide +kernel⟩

end MerkleStore

end EnclaveOs.Merkle
