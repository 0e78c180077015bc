import EnclaveOs.Merkle.Canon

/-! # Reading a stored tree -/

open EnclaveOs.Lib

namespace EnclaveOs.Merkle

namespace MerkleStore

/-! ## One call at a time, over any backend -/

section Any

variable {B : Type} [KvBackend B]

omit [KvBackend B] in
@[simp] theorem exec_onBackend {α : Type} (f : B → Except MerkleError α × B) (s : MerkleStore B) :
    (onBackend f).exec s = ((f s.backend).1.mapError .err, { s with backend := (f s.backend).2 }) := rfl

omit [KvBackend B] in
@[simp] theorem exec_cacheGet (nk : NodeKey) (s : MerkleStore B) :
    (cacheGet nk).exec s = (.ok (s.cache.lookup nk), { s with cache := (s.cache.get nk).2 }) := rfl

omit [KvBackend B] in
@[simp] theorem exec_fail {α : Type} (e : MerkleError) (s : MerkleStore B) :
    (fail e : StoreM B α).exec s = (.error (.err e), s) := rfl

variable [Crypto]

theorem exec_load_node_hit {s : MerkleStore B} {nk : NodeKey} {n : Node} (h : s.cache.lookup nk = some n)
    (expected : Hash) :
    (load_node nk expected).exec s =
      (if n.hash = expected then .ok n else .error (.err (hashMismatch nk)),
        { s with cache := (s.cache.get nk).2 }) := by
  unfold load_node
  rw [Method.exec_bind, exec_cacheGet, h]
  simp only
  by_cases hh : n.hash = expected
  · rw [if_neg (by simp [hh]), if_pos hh]
    rfl
  · rw [if_pos hh, if_neg hh]
    rfl

theorem exec_load_node_miss {s : MerkleStore B} {nk : NodeKey} (h : s.cache.lookup nk = none)
    (expected : Hash) :
    (load_node nk expected).exec s =
      let r := KvBackend.get s.backend (node_record_key nk)
      let s1 : MerkleStore B := { s with cache := (s.cache.get nk).2, backend := r.2 }
      match r.1 with
      | .error e => (.error (.err e), s1)
      | .ok none => (.error (.err (.missing ("node " ++ nk.debug))), s1)
      | .ok (some record) =>
        match Node.decode record with
        | .error e => (.error (.err e), s1)
        | .ok n =>
          if n.hash = expected then (.ok n, { s1 with cache := s1.cache.put nk n })
          else (.error (.err (hashMismatch nk)), s1) := by
  unfold load_node
  rw [Method.exec_bind, exec_cacheGet, h]
  simp only
  rw [Method.exec_bind, backendGet, exec_onBackend]
  rcases hr : (KvBackend.get s.backend (node_record_key nk)).1 with e | o
  · rfl
  rcases o with _ | record
  · rfl
  simp only [Except.mapError]
  rcases hd : Node.decode record with e | n
  · rfl
  simp only
  by_cases hh : n.hash = expected
  · rw [if_neg (by simp [hh]), if_pos hh]
    rfl
  · rw [if_pos hh, if_neg hh]
    rfl

end Any

/-! ## What a read may change -/

variable {B : Type} [KvBackend B] [AtomicBackend B]

def table (s : MerkleStore B) : Table := AtomicBackend.table s.backend

/-- The node is what a load of the key may come by. -/
def Cached (s : MerkleStore B) (nk : NodeKey) (n : Node) : Prop :=
  s.cache.lookup nk = some n ∨ ∃ record, s.table (node_record_key nk) = some record ∧ Node.decode record = .ok n

/-- The same store, but for nodes that the cache lost or won. -/
structure Frozen (s s' : MerkleStore B) : Prop where
  ck : s'.ck = s.ck
  cipher : s'.cipher = s.cipher
  root : s'.root = s.root
  version : s'.version = s.version
  root_child : s'.root_child = s.root_child
  snapshot_pin : s'.snapshot_pin = s.snapshot_pin
  cache : ∀ nk n, s'.cache.lookup nk = some n → Cached s nk n

structure Same (s s' : MerkleStore B) : Prop extends Frozen s s' where
  table : s'.table = s.table

theorem Same.refl (s : MerkleStore B) : Same s s := ⟨⟨rfl, rfl, rfl, rfl, rfl, rfl, fun _ _ h => .inl h⟩, rfl⟩

theorem Frozen.after {a b c : MerkleStore B} (h : Same a b) (h' : Frozen b c) : Frozen a c where
  ck := h'.ck.trans h.ck
  cipher := h'.cipher.trans h.cipher
  root := h'.root.trans h.root
  version := h'.version.trans h.version
  root_child := h'.root_child.trans h.root_child
  snapshot_pin := h'.snapshot_pin.trans h.snapshot_pin
  cache := by
    intro nk n hn
    rcases h'.cache nk n hn with hb | hb
    · exact h.cache nk n hb
    · rw [h.table] at hb
      exact .inr hb

theorem Same.trans (a b c : MerkleStore B) (h : Same a b) (h' : Same b c) : Same a c :=
  ⟨Frozen.after h h'.toFrozen, h'.table.trans h.table⟩

abbrev Gives {α : Type} (m : StoreM B α) (s : MerkleStore B) (r : Except Fault α) : Prop := Method.Gives Same m s r

abbrev Reads {α : Type} (m : StoreM B α) : Prop := Method.Keeps Same m

variable {s : MerkleStore B} {α : Type} {nk : NodeKey} {n : Node}

theorem Same.of_get (k : Bytes) (c : NodeCache) (hc : ∀ nk n, c.lookup nk = some n → Cached s nk n) :
    Same s { s with cache := c, backend := (KvBackend.get s.backend k).2 } :=
  ⟨⟨rfl, rfl, rfl, rfl, rfl, rfl, hc⟩, (AtomicBackend.get_spec s.backend k).2⟩

theorem reads_state : Reads (Method.state : StoreM B (MerkleStore B)) := fun s => Same.refl s

theorem reads_pure (a : α) : Reads (pure a : StoreM B α) := Method.Keeps.pure Same.refl a

theorem reads_throw (e : Fault) : Reads (throw e : StoreM B α) := Method.Keeps.throw Same.refl e

theorem reads_fail (e : MerkleError) : Reads (fail e : StoreM B α) := reads_throw _

theorem gives_ofExcept {r : Except Fault α} {a : α} (h : r = .ok a) (s : MerkleStore B) :
    Gives (Method.ofExcept r) s (.ok a) := ⟨s, by rw [Method.exec_ofExcept, h], Same.refl s⟩

theorem gives_pure (a : α) (s : MerkleStore B) : Gives (pure a : StoreM B α) s (.ok a) := Method.Gives.pure Same.refl a s

theorem gives_bind {β : Type} {x : StoreM B α} {f : α → StoreM B β} {a : α} {r : Except Fault β} (hx : Gives x s (.ok a))
    (hf : ∀ s', Same s s' → Gives (f a) s' r) : Gives (x >>= f) s r := Method.Gives.bind Same.trans hx hf

theorem reads_bind {β : Type} {x : StoreM B α} {f : α → StoreM B β} (hx : Reads x) (hf : ∀ a, Reads (f a)) :
    Reads (x >>= f) := Method.Keeps.bind Same.trans hx hf

theorem reads_ite {p : Prop} [Decidable p] {x y : StoreM B α} (hx : Reads x) (hy : Reads y) :
    Reads (if p then x else y) := by
  split
  · exact hx
  · exact hy

theorem gives_get (s : MerkleStore B) (k : Bytes) : Gives (backendGet k) s (.ok (s.table k)) := by
  refine ⟨_, ?_, Same.of_get k s.cache fun _ _ h => .inl h⟩
  unfold backendGet
  rw [exec_onBackend, (AtomicBackend.get_spec s.backend k).1]
  rfl

theorem reads_get (k : Bytes) : Reads (backendGet k : StoreM B (Option Bytes)) :=
  fun s => (gives_get s k).snd

theorem reads_load_root_record (v : UInt64) : Reads (load_root_record v : StoreM B Hash) := by
  unfold load_root_record
  refine reads_bind (reads_get _) fun o => ?_
  rcases o with _ | record
  · exact reads_fail _
  · exact reads_ite (reads_fail _) (reads_pure _)

theorem reads_checkVersion (v : UInt64) : Reads (checkVersion v : StoreM B Unit) :=
  reads_bind reads_state fun _ => reads_ite (reads_fail _) (reads_pure _)

theorem reads_root_at (v : UInt64) : Reads (root_at v : StoreM B Hash) :=
  reads_bind (reads_checkVersion v) fun _ => reads_load_root_record v

/-- Table and cache agree on the node. -/
structure Agree (s : MerkleStore B) (nk : NodeKey) (n : Node) : Prop where
  record : s.table (node_record_key nk) = some n.encode
  decode : Node.decode n.encode = .ok n
  cached : ∀ m, s.cache.lookup nk = some m → m = n

theorem Agree.keep {s' : MerkleStore B} (h : Agree s nk n)
    (htab : s'.table (node_record_key nk) = s.table (node_record_key nk))
    (hcache : ∀ m, s'.cache.lookup nk = some m → Cached s nk m) : Agree s' nk n := by
  refine ⟨by rw [htab]; exact h.record, h.decode, fun m hm => ?_⟩
  rcases hcache m hm with hc | ⟨record, hr, hd⟩
  · exact h.cached m hc
  · rw [h.record] at hr
    rw [← Option.some.inj hr, h.decode] at hd
    exact (Except.ok.inj hd).symm

theorem Agree.of_same {s' : MerkleStore B} (h : Agree s nk n) (hs : Same s s') :
    Agree s' nk n := h.keep (by rw [hs.table]) (hs.cache nk)

variable [Crypto]

theorem reads_load_node (nk : NodeKey) (expected : Hash) : Reads (load_node nk expected : StoreM B Node) := by
  intro s
  rcases hc : s.cache.lookup nk with _ | n
  · have hget : ∀ k m, (s.cache.get nk).2.lookup k = some m → Cached s k m :=
      fun k m hm => .inl (by simpa using hm)
    rw [exec_load_node_miss hc]
    simp only [(AtomicBackend.get_spec s.backend (node_record_key nk)).1]
    rcases hrec : AtomicBackend.table s.backend (node_record_key nk) with _ | record
    · exact Same.of_get _ _ hget
    rcases hn : Node.decode record with e | n
    · simp only [hn]
      exact Same.of_get _ _ hget
    simp only [hn]
    split
    · refine Same.of_get _ _ fun k m hm => ?_
      by_cases hk : k = nk
      · subst hk
        rw [NodeCache.lookup_put_self hm]
        exact .inr ⟨record, hrec, hn⟩
      · exact hget k m (NodeCache.lookup_put_ne hk hm)
    · exact Same.of_get _ _ hget
  · rw [exec_load_node_hit hc]
    exact ⟨⟨rfl, rfl, rfl, rfl, rfl, rfl, fun k m hm => .inl (by simpa using hm)⟩, rfl⟩

theorem reads_load_root_child (root : Hash) (v : UInt64) :
    Reads (load_root_child root v : StoreM B (Option Child)) := by
  unfold load_root_child
  exact reads_ite (reads_pure _) (reads_bind (reads_load_node _ _) fun _ => reads_pure _)

theorem reads_read_value (path vh : Hash) (v : UInt64) : Reads (read_value path vh v : StoreM B Bytes) := by
  unfold read_value
  refine reads_bind (reads_get _) fun o => ?_
  rcases o with _ | ct
  · exact reads_fail _
  refine reads_bind reads_state fun s => ?_
  rcases s.cipher.decrypt ct (value_aad path) with e | pt
  · exact reads_fail _
  · exact reads_ite (reads_fail _) (reads_pure _)

theorem reads_walkFrom (path : Hash) (rem : Nat) (child : Child) (pfx : List Nibble) :
    Reads (walkFrom path rem child pfx : StoreM B (Option Bytes)) := by
  induction rem generalizing child pfx with
  | zero =>
    unfold walkFrom
    refine reads_bind (reads_load_node _ _) fun n => reads_ite (reads_fail _) ?_
    cases n with
    | leaf l => exact reads_ite (reads_bind (reads_read_value _ _ _) fun _ => reads_pure _) (reads_pure _)
    | internal m => exact reads_throw _
  | succ rem ih =>
    unfold walkFrom
    refine reads_bind (reads_load_node _ _) fun n => reads_ite (reads_fail _) ?_
    cases n with
    | leaf l => exact reads_ite (reads_bind (reads_read_value _ _ _) fun _ => reads_pure _) (reads_pure _)
    | internal m =>
      simp only
      split
      · exact reads_pure _
      · exact ih _ _

theorem reads_walk (root_child : Option Child) (path : Hash) :
    Reads (walk root_child path : StoreM B (Option Bytes)) := by
  unfold walk
  rcases root_child with _ | child
  · exact reads_pure _
  · exact reads_walkFrom _ _ _ _

theorem reads_get_key (key : Bytes) : Reads (MerkleStore.get key : StoreM B (Option Bytes)) :=
  reads_bind reads_state fun _ => reads_walk _ _

theorem reads_get_at (v : UInt64) (key : Bytes) : Reads (get_at v key : StoreM B (Option Bytes)) :=
  reads_bind (reads_checkVersion v) fun _ => reads_bind (reads_load_root_record v) fun _ =>
    reads_bind (reads_load_root_child _ _) fun _ => reads_bind reads_state fun _ => reads_walk _ _

/-! ## Reading what is stored -/

variable {s s' : MerkleStore B} {t : Tree}

theorem gives_load_node (h : Agree s nk n) : Gives (load_node nk n.hash) s (.ok n) := by
  refine ⟨_, Prod.ext ?_ rfl, reads_load_node nk n.hash s⟩
  rcases hc : s.cache.lookup nk with _ | m
  · rw [exec_load_node_miss hc]
    have hrec : AtomicBackend.table s.backend (node_record_key nk) = some n.encode := h.record
    simp only [(AtomicBackend.get_spec s.backend (node_record_key nk)).1, hrec, h.decode, if_true]
  · have hm := h.cached m hc
    subst hm
    rw [exec_load_node_hit hc, if_pos rfl]

/-- The record of the leaf's value opens to `x`. -/
def ValueAt (s : MerkleStore B) (l : LeafNode) (x : Bytes) : Prop :=
  ∃ ct, s.table (value_record_key l.vh l.value_version) = some ct ∧
    s.cipher.decrypt ct (value_aad l.path) = .ok x ∧ vh_of s.ck l.path x = l.vh

theorem ValueAt.of_same {l : LeafNode} {x : Bytes} (h : ValueAt s l x) (hs : Same s s') : ValueAt s' l x := by
  unfold ValueAt
  rw [hs.table, hs.cipher, hs.ck]
  exact h

theorem gives_read_value {l : LeafNode} {x : Bytes} (h : ValueAt s l x) :
    Gives (read_value l.path l.vh l.value_version) s (.ok x) := by
  obtain ⟨ct, htab, hdec, hvh⟩ := h
  unfold read_value
  refine gives_bind (gives_get s _) fun s1 hs1 => ?_
  rw [htab]
  simp only
  refine gives_bind ⟨s1, rfl, Same.refl s1⟩ fun s2 hs2 => ?_
  rw [hs1.cipher, hdec, hs1.ck]
  simp only [hvh, ne_eq, not_true_eq_false, if_false]
  exact gives_pure _ _

/-- Cache and table agree with the tree on its nodes. -/
def Stored (s : MerkleStore B) (pre : List Nibble) (t : Tree) : Prop := ∀ x ∈ t.nodes pre, Agree s x.1 x.2

theorem Stored.of_same {pre : List Nibble} (h : Stored s pre t)
    (hs : Same s s') : Stored s' pre t := fun x hx => (h x hx).of_same hs

theorem Stored.child {pre : List Nibble} {v : UInt64} {c : Nibble → Tree}
    (h : Stored s pre (.node v c)) (i : Nibble) : Stored s (pre ++ [i]) (c i) :=
  fun x hx => h x (Tree.mem_nodes_node.mpr (.inr ⟨i, hx⟩))

/-- `r` is what a read of `p` has to give. -/
def Holds (s : MerkleStore B) (t : Tree) (d : Nat) (p : Hash) (r : Option Bytes) : Prop :=
  match t.find p d with
  | none => r = none
  | some l => ∃ x, ValueAt s l x ∧ r = some x

theorem Holds.of_same {d : Nat} {p : Hash} {r : Option Bytes}
    (h : Holds s t d p r) (hs : Same s s') : Holds s' t d p r := by
  unfold Holds at h ⊢
  split at h
  · exact h
  · obtain ⟨x, hx, hr⟩ := h
    exact ⟨x, hx.of_same hs, hr⟩

theorem gives_walkFrom (p : Hash) (t : Tree) (pre : List Nibble) (rem : Nat) (s : MerkleStore B)
    (r : Child) (out : Option Bytes) (hr : t.ref = some r) (hwf : t.WF pre) (hst : Stored s pre t)
    (hrem : pre.length + rem = 64) (hout : Holds s t pre.length p out) :
    Gives (walkFrom p rem r pre) s (.ok out) := by
  induction t generalizing pre rem s r with
  | empty => simp [Tree.ref] at hr
  | leaf v l =>
    have hag := hst (⟨v, pre⟩, .leaf l) (by simp)
    simp only [Tree.ref, Option.some.injEq] at hr
    subst hr
    unfold walkFrom
    refine gives_bind (gives_load_node hag) fun s1 hs1 => ?_
    simp only [Node.is_leaf, ne_eq, not_true_eq_false, if_false]
    unfold Holds at hout
    simp only [Tree.find] at hout
    by_cases hp : l.path = p
    · rw [if_pos hp] at hout ⊢
      obtain ⟨x, hx, rfl⟩ := hout
      subst hp
      refine gives_bind (gives_read_value (hx.of_same hs1)) fun s2 _ => ?_
      exact gives_pure _ _
    · rw [if_neg hp] at hout ⊢
      rw [hout]
      exact gives_pure _ _
  | node v c ih =>
    have hag := hst (⟨v, pre⟩, Tree.record c) (by simp)
    simp only [Tree.ref, Option.some.injEq] at hr
    subst hr
    obtain ⟨rem, rfl⟩ : ∃ k, rem = k + 1 := ⟨rem - 1, by have := hwf.1; omega⟩
    unfold walkFrom
    refine gives_bind (gives_load_node hag) fun s1 hs1 => ?_
    simp only [Tree.record, Node.is_leaf, ne_eq, not_true_eq_false, if_false]
    have hout' : Holds s (c (nibble p pre.length)) (pre.length + 1) p out := hout
    rcases hc : (c (nibble p pre.length)).ref with _ | r'
    · rw [Tree.ref_eq_none.mp hc] at hout'
      simp only [Holds, Tree.find] at hout'
      rw [hout']
      exact gives_pure _ _
    · have hlen : (pre ++ [nibble p pre.length]).length = pre.length + 1 := by simp
      refine ih _ _ _ s1 r' hc (hwf.2.2 _) ((hst.child _).of_same hs1) (by rw [hlen]; omega) ?_
      rw [hlen]
      exact hout'.of_same hs1

theorem gives_walk {p : Hash} {out : Option Bytes} (hwf : t.WF [])
    (hst : Stored s [] t) (hout : Holds s t 0 p out) : Gives (walk t.ref p) s (.ok out) := by
  rcases hr : t.ref with _ | r
  · rw [Tree.ref_eq_none.mp hr] at hout
    simp only [Holds, Tree.find] at hout
    rw [hout]
    exact gives_pure _ _
  · exact gives_walkFrom p t [] 64 s r out hr hwf hst rfl hout

end MerkleStore

end EnclaveOs.Merkle
