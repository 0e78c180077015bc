import EnclaveOs.Lib.Wp
import EnclaveOs.Merkle.Paging
import EnclaveOs.Merkle.Sample

/-!
# Snapshot pages of hostile records

`collect_leaves` does not look whether a record is of the kind that the reference names, as `walk` does.
-/

open EnclaveOs.Lib EnclaveOs.Lib.Method

namespace EnclaveOs.Merkle

theorem exists_under {pfx : List Nibble} (h : pfx.length = 64) : ∃ p, Under pfx p := by
  let byte (k : Nat) : UInt8 := UInt8.ofNat ((pfx.getD (2 * k) 0).val * 16 + (pfx.getD (2 * k + 1) 0).val)
  let p : Hash := Vector.ofFn fun k => byte k.val
  have hbyte : ∀ k < 32, (byteAt p k).toNat = (pfx.getD (2 * k) 0).val * 16 + (pfx.getD (2 * k + 1) 0).val := by
    intro k hk
    have hp : byteAt p k = byte k := by simp [byteAt, p, hk]
    rw [hp]
    exact Nat.mod_eq_of_lt (by have := (pfx.getD (2 * k) 0).isLt; have := (pfx.getD (2 * k + 1) 0).isLt; omega)
  refine ⟨p, under_iff.mpr ⟨h.le, fun i hi => ?_⟩⟩
  have hget : pfx[i] = pfx.getD i 0 := by simp [hi]
  have hlt := (pfx.getD (2 * (i / 2) + 1) 0).isLt
  apply Fin.ext
  rw [hget]
  rcases Nat.even_or_odd' i with ⟨k, rfl | rfl⟩
  · rw [nibble_even, hbyte k (by omega)]
    rw [show 2 * k / 2 = k by omega] at hlt
    omega
  · rw [nibble_odd, hbyte k (by omega)]
    rw [show (2 * k + 1) / 2 = k by omega] at hlt
    omega

namespace MerkleStore

variable {B : Type} {s s1 : MerkleStore B} {r c : Child} {pfx : List Nibble} {max : Nat}

theorem collectChildren_error {α : Type} {visit : Child → List Nibble → Option Hash → α → StoreM B (Bool × α)}
    {children : Nibble → Option Child} {i : Nibble} {sa : Option Hash} {out : α} {e : Fault} (hc : children i = some c)
    (hvisit : ((visit c (pfx ++ [i]) sa out).exec s).1 = .error e) (nibs : List Nibble)
    (hsorted : nibs.Pairwise (· < ·)) (hi : i ∈ nibs) :
    ((collectChildren visit children pfx sa (some i) nibs out).exec s).1 = .error e := by
  induction nibs with
  | nil => simp at hi
  | cons j nibs ih =>
    obtain ⟨hj, hsorted⟩ := List.pairwise_cons.mp hsorted
    unfold collectChildren
    rcases List.mem_cons.mp hi with rfl | hi
    · simp only [Option.any_some, lt_self_iff_false, decide_false, Bool.false_eq_true, if_false, hc, if_true]
      rw [exec_bind_error (Prod.ext hvisit rfl)]
    · rw [if_pos (by simpa using hj i hi)]
      exact ih hsorted hi

/-! ## Ending without a panic -/

variable [KvBackend B] [AtomicBackend B]

/-- The cache holds nothing but what the table has. -/
def Coherent (s : MerkleStore B) : Prop :=
  ∀ nk n, s.cache.lookup nk = some n →
    ∃ record, s.table (node_record_key nk) = some record ∧ Node.decode record = .ok n

theorem Coherent.of_same (h : Coherent s) (hs : Same s s1) : Coherent s1 := by
  intro nk n hn
  rw [hs.table]
  rcases hs.cache nk n hn with hc | hc
  · exact h nk n hc
  · exact hc

/-- It read only, and no fault but an error came out. -/
def Ended {α : Type} (s : MerkleStore B) (r : Except Fault α) (s1 : MerkleStore B) : Prop :=
  Same s s1 ∧ ∀ e, r = .error e → ∃ err, e = .err err

theorem ended_ok {α : Type} (hs : Same s s1) (a : α) : Ended s (.ok a) s1 := ⟨hs, nofun⟩

theorem ended_err {α : Type} (hs : Same s s1) (e : MerkleError) :
    Ended s (.error (.err e) : Except Fault α) s1 := ⟨hs, fun _ h => ⟨e, (Except.error.inj h).symm⟩⟩

theorem load_root_record_ended (s : MerkleStore B) (v : UInt64) :
    wp (load_root_record v) (fun o s1 => Ended s o s1 ∧ ∀ root, o = .ok root ↔
      ∃ record, s.table (root_record_key v) = some record ∧ record.length = 32 ∧ toVec 32 record = root) s := by
  obtain ⟨s1, hget, hs⟩ := gives_get s (root_record_key v)
  unfold load_root_record
  rw [wp, exec_bind_ok hget]
  rcases hrec : s.table (root_record_key v) with _ | record
  · exact ⟨ended_err hs _, by simp⟩
  simp only
  split
  · rename_i hlen
    exact ⟨ended_err hs _, by simp [hlen]⟩
  · rename_i hlen
    exact ⟨ended_ok hs _, by simp [not_not.mp hlen]⟩

theorem ended_collectChildren {α : Type} {visit : Child → List Nibble → Option Hash → α → StoreM B (Bool × α)}
    {children : Nibble → Option Child}
    (hvisit : ∀ i d sa out s1, children i = some d → Same s s1 → wp (visit d (pfx ++ [i]) sa out) (Ended s) s1)
    (sa : Option Hash) (rn : Option Nibble) (nibs : List Nibble) (out : α) (hs : Same s s1) :
    wp (collectChildren visit children pfx sa rn nibs out) (Ended s) s1 := by
  induction nibs generalizing out s1 with
  | nil => exact ended_ok hs _
  | cons i nibs ih =>
    unfold collectChildren
    split
    · exact ih out hs
    split
    · exact ih out hs
    rename_i d hd
    refine wp.bind (hvisit i d _ out s1 hd hs) (fun b s2 hb => ?_) fun e s2 he => ⟨he.1, by simpa using he.2 e⟩
    obtain ⟨exhausted, out⟩ := b
    rcases exhausted with _ | _
    · exact ended_ok hb.1 _
    · exact ih out hb.1

variable [Crypto]

/-- The table answers the reference `c` at `pfx` with `n`. -/
def Offers (s : MerkleStore B) (c : Child) (pfx : List Nibble) (n : Node) : Prop :=
  (∃ record, s.table (node_record_key ⟨c.version, pfx⟩) = some record ∧ Node.decode record = .ok n) ∧ n.hash = c.hash

theorem Offers.unique {n m : Node} (h : Offers s c pfx n) (h' : Offers s c pfx m) : n = m := by
  obtain ⟨⟨record, hr, hn⟩, -⟩ := h
  obtain ⟨⟨record', hr', hm⟩, -⟩ := h'
  cases hr.symm.trans hr'
  exact Except.ok.inj (hn.symm.trans hm)

theorem Offers.of_same {n : Node} (hs : Same s s1) : Offers s1 c pfx n ↔ Offers s c pfx n := by
  rw [Offers, Offers, hs.table]

theorem load_node_ended (h : Coherent s) (c : Child) (pfx : List Nibble) :
    wp (load_node ⟨c.version, pfx⟩ c.hash) (fun r s1 => Ended s r s1 ∧ ∀ n, r = .ok n ↔ Offers s c pfx n) s := by
  refine ⟨⟨reads_load_node _ _ s, ?_⟩, ?_⟩ <;> cases hc : s.cache.lookup ⟨c.version, pfx⟩ with
  | some m =>
    obtain ⟨record, hr, hd⟩ := h _ _ hc
    rw [exec_load_node_hit hc]
    simp only [Offers, hr, Option.some.injEq, exists_eq_left', hd, Except.ok.injEq]
    split <;> grind
  | none =>
    rw [exec_load_node_miss hc]
    simp only [Offers, (AtomicBackend.get_spec s.backend _).1, table]
    rcases hr : AtomicBackend.table s.backend (node_record_key ⟨c.version, pfx⟩) with _ | record
    · simp
    rcases hd : Node.decode record with e | m
    · simp [hd]
    · simp only [Option.some.injEq, exists_eq_left', hd, Except.ok.injEq]
      split <;> grind

/-! ## The root of a version -/

def openRoot (v : UInt64) : StoreM B (Option Child) := do
  let root ← load_root_record v
  load_root_child root v

def pageOf (max fuel : Nat) (start_after : Option Hash) : Option Child → StoreM B (List (Hash × Bytes) × Bool)
  | none => pure ([], true)
  | some child => do
    let (done, out) ← collect_leaves max fuel child [] start_after []
    pure (out, done)

omit [AtomicBackend B] in
theorem snapshot_leaves_eq (fuel : Nat) (v : UInt64) (sa : Option Hash) (max : Nat) :
    (snapshot_leaves fuel v sa max : StoreM B _) = openRoot v >>= pageOf max fuel sa := by
  unfold snapshot_leaves openRoot
  rw [bind_assoc]
  rfl

/-- The child that `load_root_child` gives for the version. -/
def IsRoot (s : MerkleStore B) (v : UInt64) (r : Child) : Prop :=
  ∃ record n, s.table (root_record_key v) = some record ∧ record.length = 32 ∧ toVec 32 record ≠ placeholder ∧
    Offers s r [] n ∧ r = ⟨v, toVec 32 record, n.is_leaf⟩

theorem read_value_ended (hs : Same s s1) (path vh : Hash) (v : UInt64) : wp (read_value path vh v) (Ended s) s1 := by
  obtain ⟨s2, hget, hs2⟩ := gives_get s1 (value_record_key vh v)
  have hs := Same.trans _ _ _ hs hs2
  unfold read_value
  rw [wp, exec_bind_ok hget]
  rcases s1.table (value_record_key vh v) with _ | ct
  · exact ended_err hs _
  simp only
  rw [exec_bind_ok (exec_state s2)]
  rcases s2.cipher.decrypt ct (value_aad path) with e | pt
  · exact ended_err hs _
  simp only
  split
  · exact ended_err hs _
  · exact ended_ok hs _

theorem openRoot_ended (h : Coherent s) (v : UInt64) :
    wp (openRoot v) (fun o s1 => Ended s o s1 ∧ ∀ r, o = .ok (some r) ↔ IsRoot s v r) s := by
  refine wp.bind (load_root_record_ended s v) (fun root s1 hroot => ?_) fun e s1 he => ?_
  · obtain ⟨⟨hs, -⟩, hrec⟩ := hroot
    obtain ⟨record, hget, hlen, rfl⟩ := (hrec root).mp rfl
    unfold load_root_child
    split
    · rename_i hnil
      exact ⟨ended_ok hs _, by simp [IsRoot, hget, hnil]⟩
    rename_i hne
    refine wp.bind (load_node_ended (h.of_same hs) ⟨v, toVec 32 record, true⟩ []) (fun n s2 hn => ?_)
      fun e s2 he => ?_
    · have ho := (Offers.of_same hs).mp ((hn.2 n).mp rfl)
      refine ⟨ended_ok (Same.trans _ _ _ hs hn.1.1) _, fun r => ?_⟩
      constructor
      · intro hr
        cases hr
        exact ⟨record, n, hget, hlen, hne, ho, rfl⟩
      · rintro ⟨record', n', hget', -, -, ho', rfl⟩
        cases hget.symm.trans hget'
        rw [Offers.unique ho ho']
        rfl
    · refine ⟨⟨Same.trans _ _ _ hs he.1.1, by simpa using he.1.2 e⟩, fun r => ⟨nofun, ?_⟩⟩
      rintro ⟨record', n, hget', -, -, ho, rfl⟩
      cases hget.symm.trans hget'
      exact absurd ((he.2 n).mpr ((Offers.of_same hs).mpr ho)) nofun
  · refine ⟨⟨he.1.1, by simpa using he.1.2 e⟩, fun r => ⟨nofun, ?_⟩⟩
    rintro ⟨record, n, hget, hlen, -⟩
    exact absurd ((he.2 _).mpr ⟨record, hget, hlen, rfl⟩) nofun

/-- The descent comes from the root to this child through records with the right hashes. -/
inductive Reaches (s : MerkleStore B) (r : Child) : List Nibble → Child → Prop
  | root : Reaches s r [] r
  | child {pfx : List Nibble} {c d : Child} {m : InternalNode} {i : Nibble} (hc : Reaches s r pfx c)
      (ho : Offers s c pfx (.internal m)) (hd : m.children i = some d) : Reaches s r (pfx ++ [i]) d

theorem ended_collect_leaves (h : Coherent s)
    (hshallow : ∀ pfx c m, Reaches s r pfx c → Offers s c pfx (.internal m) → pfx.length ≠ NIBBLES) (fuel : Nat)
    (hc : Reaches s r pfx c) (hlen : pfx.length ≤ NIBBLES) (hfuel : NIBBLES < pfx.length + fuel) (sa : Option Hash)
    (out : List (Hash × Bytes)) (hs : Same s s1) : wp (collect_leaves max fuel c pfx sa out) (Ended s) s1 := by
  induction fuel generalizing pfx c sa out s1 with
  | zero => omega
  | succ fuel ih =>
    unfold collect_leaves
    split
    · exact ended_ok hs _
    refine wp.bind (load_node_ended (h.of_same hs) c pfx) (fun n s2 hn => ?_) fun e s2 he => ?_
    · have hs2 := Same.trans _ _ _ hs hn.1.1
      cases n with
      | leaf l =>
        simp only
        split
        · exact ended_ok hs2 _
        · exact wp.bind (read_value_ended hs2 _ _ _) (fun x s3 hx => ended_ok hx.1 _)
            fun e s3 he => ⟨he.1, by simpa using he.2 e⟩
      | internal m =>
        have ho := (Offers.of_same hs).mp ((hn.2 _).mp rfl)
        have hne := hshallow pfx c m hc ho
        simp only
        rw [if_neg (by omega)]
        refine ended_collectChildren (fun i d sa out s3 hd hs3 => ?_) _ _ _ _ hs2
        exact ih (hc.child ho hd) (by simp; omega) (by simp; omega) sa out hs3
    · exact ⟨Same.trans _ _ _ hs he.1.1, by simpa using he.1.2 e⟩

/-! ## Branches at full depth -/

/-- How a descent past the last nibble ends. -/
def deepFault (n : Nat) : Fault := if n ≤ NIBBLES then .fuel else .panic

theorem collect_leaves_deep (h : Coherent s) {p : Hash} (hmax : 1 ≤ max) (hc : Reaches s r pfx c) (hp : Under pfx p)
    (hdeep : ∀ fuel s1, Same s s1 →
      ((collect_leaves max fuel c pfx (some p) []).exec s1).1 = .error (deepFault (pfx.length + fuel))) (fuel : Nat)
    (hs : Same s s1) : ((collect_leaves max fuel r [] (some p) []).exec s1).1 = .error (deepFault fuel) := by
  induction hc generalizing fuel s1 with
  | root => simpa using hdeep fuel s1 hs
  | @child pfx c d m i hc ho hd ih =>
    obtain ⟨hp, hlt, hnib⟩ := under_append_one.mp hp
    refine ih hp (fun fuel s1 hs => ?_) fuel hs
    rcases fuel with _ | fuel
    · rw [deepFault, if_pos (by simp [NIBBLES]; omega)]; rfl
    unfold collect_leaves
    rw [if_neg (by simp; omega)]
    have hload := load_node_ended (h.of_same hs) c pfx
    have hok := (hload.2 _).mpr ((Offers.of_same hs).mpr ho)
    rw [exec_bind_ok (Prod.ext hok rfl)]
    simp only
    rw [if_neg (by simp [NIBBLES]; omega), Option.map_some, hnib]
    have hvisit := hdeep fuel _ (Same.trans _ _ _ hs hload.1.1)
    rw [List.length_append, List.length_singleton, Nat.add_assoc, Nat.add_comm 1] at hvisit
    exact collectChildren_error hd hvisit _ (List.pairwise_lt_finRange 16) (List.mem_finRange i)

/-- An internal node at depth 64 stops a page that resumes below it. -/
theorem snapshot_leaves_deep (h : Coherent s) {v : UInt64} {p : Hash} {m : InternalNode} (hmax : 1 ≤ max)
    (hr : IsRoot s v r) (hc : Reaches s r pfx c) (ho : Offers s c pfx (.internal m)) (hlen : pfx.length = NIBBLES)
    (hp : Under pfx p) (fuel : Nat) :
    ((snapshot_leaves fuel v (some p) max).exec s).1 = .error (deepFault fuel) := by
  have hopen := openRoot_ended h v
  rw [snapshot_leaves_eq, exec_bind_ok (Prod.ext ((hopen.2 r).mpr hr) rfl)]
  have hcollect := collect_leaves_deep h hmax hc hp (fun fuel s1 hs => ?_) fuel hopen.1.1
  · simp only [pageOf]
    rw [exec_bind_error (Prod.ext hcollect rfl)]
  rcases fuel with _ | fuel
  · rw [deepFault, if_pos (by omega)]; rfl
  unfold collect_leaves
  rw [if_neg (by simp; omega)]
  have hok := ((load_node_ended (h.of_same hs) c pfx).2 _).mpr ((Offers.of_same hs).mpr ho)
  rw [exec_bind_ok (Prod.ext hok rfl)]
  simp only
  rw [if_pos ⟨rfl, hlen.ge⟩, deepFault, if_neg (by omega)]
  rfl

/-- Every page that may be asked for comes, or an error does. -/
def Streams (s : MerkleStore B) : Prop :=
  ∀ v start_after max, 1 ≤ max → ∃ fuel, ∀ e,
    ((snapshot_leaves fuel v start_after max).exec s).1 = .error e → ∃ err, e = .err err

/-- No branch is reached at the depth of a whole path. -/
def Shallow (s : MerkleStore B) : Prop :=
  ∀ v r pfx c m, IsRoot s v r → Reaches s r pfx c → Offers s c pfx (.internal m) → pfx.length ≠ NIBBLES

/-- Pages come exactly when no version has an internal node at depth 64. -/
theorem streams_iff (h : Coherent s) : Streams s ↔ Shallow s := by
  constructor
  · intro hst v r pfx c m hr hc ho hlen
    obtain ⟨p, hp⟩ := exists_under hlen
    obtain ⟨fuel, hend⟩ := hst v (some p) 1 le_rfl
    obtain ⟨_, he⟩ := hend _ (snapshot_leaves_deep h le_rfl hr hc ho hlen hp fuel)
    unfold deepFault at he
    split at he <;> cases he
  · intro hsh v sa max _
    refine ⟨NIBBLES + 1, ?_⟩
    have hend : wp (snapshot_leaves (NIBBLES + 1) v sa max) (Ended s) s := by
      rw [snapshot_leaves_eq]
      refine wp.bind (openRoot_ended h v) (fun o s1 ho => ?_) fun e s1 he => ⟨he.1.1, by simpa using he.1.2 e⟩
      rcases o with _ | r
      · exact ended_ok ho.1.1 _
      have hr := (ho.2 r).mp rfl
      exact wp.bind (ended_collect_leaves h (fun pfx c m => hsh v r pfx c m hr) _ .root (by simp) (by simp) sa []
        ho.1.1) (fun b s2 hb => ended_ok hb.1 _) fun e s2 he => ⟨he.1, by simpa using he.2 e⟩
    exact hend.2

end MerkleStore

namespace Sample

open MerkleStore

/-! ## A branch, and a trap -/

def leafAt (b : UInt8) : Node := .leaf ⟨toVec 32 [b], toVec 32 [b], 0⟩

def branch : InternalNode :=
  ⟨fun i => if i.val = 0 then some ⟨0, (leafAt 0).hash, true⟩
    else if i.val = 1 then some ⟨0, (leafAt 16).hash, true⟩ else none⟩

def branchOps : List KvBatchOp :=
  [.put (root_record_key 0) (Node.internal branch).hash.toList,
    .put (node_record_key ⟨0, []⟩) (Node.internal branch).encode,
    .put (node_record_key ⟨0, [(0#4).toFin]⟩) (leafAt 0).encode,
    .put (node_record_key ⟨0, [(1#4).toFin]⟩) (leafAt 16).encode]

def branched : MerkleStore MemBackend :=
  fresh (KvBackend.write_batch ({} : MemBackend) branchOps).2 key key (Node.internal branch).hash 0

theorem branched_node {k record : Bytes} (h : branched.table k = some record) : ∃ v, .put k v ∈ branchOps := by
  have htable : branched.table = applyOps branchOps _ := write_batch_table ({} : MemBackend) branchOps
  by_contra hnot
  rw [htable, applyOps_other branchOps _ k (not_exists.mp hnot) (by simp [branchOps])] at h
  simp [AtomicBackend.table, MemBackend.table] at h

/-- One internal node over two leaves. -/
theorem streams_iff_branch : Offers branched ⟨0, (Node.internal branch).hash, false⟩ [] (.internal branch) ∧
    Offers branched ⟨0, (leafAt 16).hash, true⟩ [1] (leafAt 16) ∧ Streams branched := by
  refine ⟨⟨⟨_, by decide +kernel, Node.decode_encode (.internal branch) fun m hm => ?_⟩, rfl⟩,
    ⟨⟨_, by decide +kernel, Node.decode_encode (leafAt 16) fun m hm => ?_⟩, rfl⟩,
    (streams_iff fun nk n hn => ?_).mpr ?_⟩
  · cases hm
    exact ⟨0, rfl⟩
  · cases hm
  · simp [branched, fresh] at hn
  · rintro v r pfx c m - - ⟨⟨record, hrecord, -⟩, -⟩ hlen
    obtain ⟨_, hput⟩ := branched_node hrecord
    simp only [branchOps, List.mem_cons, KvBatchOp.put.injEq, List.not_mem_nil, or_false] at hput
    rcases hput with ⟨h, -⟩ | ⟨h, -⟩ | ⟨h, -⟩ | ⟨h, -⟩
    · exact (tag_ne h).elim
    all_goals
      obtain ⟨-, rfl⟩ := NodeKey.mk.inj (node_record_key_inj hlen.le (by decide) h)
      cases hlen

def trapHash : Hash := toVec 32 [1]

/-- It hashes to the hash of its only child, whatever that is. -/
def trap : InternalNode := ⟨fun i => if i.val = 0 then some ⟨0, trapHash, true⟩ else none⟩

theorem trap_hash : (Node.internal trap).hash = trapHash := by decide

/-- The same node at every place down to depth 64. -/
def trapOps : List KvBatchOp :=
  .put (root_record_key 0) trapHash.toList ::
    (List.range 65).map fun k => .put (node_record_key ⟨0, List.replicate k (0#4).toFin⟩) (Node.internal trap).encode

def trapped : MerkleStore MemBackend := fresh (KvBackend.write_batch ({} : MemBackend) trapOps).2 key key trapHash 0

theorem trapped_root : trapped.table (root_record_key 0) = some trapHash.toList := by
  have htable : trapped.table = applyOps trapOps _ := write_batch_table ({} : MemBackend) trapOps
  rw [htable]
  refine applyOps_put _ _ _ _ (.head _) (fun v hv => ?_) (by simp [trapOps])
  rcases List.mem_cons.mp hv with hv | hv
  · simpa using hv
  · obtain ⟨k, -, hk⟩ := List.mem_map.mp hv
    exact (tag_ne (KvBatchOp.put.inj hk).1).elim

theorem trapped_node {k : Nat} (hk : k < 65) (b : Bool) :
    Offers trapped ⟨0, trapHash, b⟩ (List.replicate k 0) (.internal trap) := by
  have htable : trapped.table = applyOps trapOps _ := write_batch_table ({} : MemBackend) trapOps
  refine ⟨⟨_, ?_, Node.decode_encode _ fun m hm => ?_⟩, trap_hash⟩
  · rw [htable]
    refine applyOps_put _ _ _ _ ?_ (fun v hv => ?_) (by simp [trapOps])
    · exact .tail _ (List.mem_map.mpr ⟨k, List.mem_range.mpr hk, rfl⟩)
    rcases List.mem_cons.mp hv with hv | hv
    · exact (tag_ne (KvBatchOp.put.inj hv).1).elim
    · obtain ⟨j, -, hj⟩ := List.mem_map.mp hv
      exact (KvBatchOp.put.inj hj).2.symm
  · cases hm
    exact ⟨0, rfl⟩

theorem trapped_reaches (k : Nat) (hk : k < 65) :
    ∃ b, Reaches trapped ⟨0, trapHash, false⟩ (List.replicate k 0) ⟨0, trapHash, b⟩ := by
  induction k with
  | zero => exact ⟨false, .root⟩
  | succ k ih =>
    obtain ⟨b, hb⟩ := ih (by omega)
    rw [List.replicate_succ']
    exact ⟨true, hb.child (trapped_node (by omega) b) rfl⟩

/-- 65 records of one node, and the page after the path of zeros panics. -/
theorem trapped_panics :
    ((snapshot_leaves 65 0 (some (Vector.replicate 32 0)) 1).exec trapped).1 = .error .panic := by
  obtain ⟨b, hb⟩ := trapped_reaches 64 (by omega)
  have hroot : IsRoot trapped 0 ⟨0, trapHash, false⟩ := by
    refine ⟨_, .internal trap, trapped_root, by simp, ?_, ?_, ?_⟩
    · rw [toVec_toList]
      decide
    · exact trapped_node (k := 0) (by omega) false
    · rw [toVec_toList]
      rfl
  refine snapshot_leaves_deep (fun nk n hn => ?_) le_rfl hroot hb (trapped_node (by omega) b) (by simp [NIBBLES]) ?_ 65
  · simp [trapped, fresh] at hn
  · decide

end Sample

end EnclaveOs.Merkle
