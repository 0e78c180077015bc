import EnclaveOs.Merkle.Sample

/-! # The store is a map with a history -/

open EnclaveOs.Lib
open Function (update update_of_ne update_self)

namespace EnclaveOs.Merkle

abbrev KeyMap := Bytes → Option Bytes

abbrev KeyBatch := Entropy × List (Bytes × Option Bytes)

def KeyMap.put (M : KeyMap) (ops : List (Bytes × Option Bytes)) : KeyMap :=
  ops.foldl (fun M op => update M op.1 op.2) M

def KeyMap.puts (M : KeyMap) (bs : List KeyBatch) : KeyMap := bs.foldl (fun M b => M.put b.2) M

def modelMap (bs : List KeyBatch) : KeyMap := KeyMap.puts (fun _ => none) bs

namespace MerkleStore

/-! ## Keys and paths -/

section

variable [Crypto]

/-- The map by keys and the map by paths are one. -/
structure Mirrors (ck : Key) (K : Set Bytes) (M : KeyMap) (P : PathMap) : Prop where
  inside : ∀ k ∈ K, P (path_of ck k) = M k
  outside : ∀ k ∉ K, M k = none
  onto : ∀ p, P p ≠ none → ∃ k ∈ K, path_of ck k = p

variable {ck : Key} {K : Set Bytes} {M M' : KeyMap} {P P' : PathMap}

theorem Mirrors.empty (ck : Key) (K : Set Bytes) : Mirrors ck K (fun _ => none) (fun _ => none) :=
  ⟨fun _ _ => rfl, fun _ _ => rfl, fun _ h => absurd rfl h⟩

theorem Mirrors.update (h : Mirrors ck K M P) (hK : Set.InjOn (path_of ck) K) {k : Bytes} (hk : k ∈ K)
    (v : Option Bytes) : Mirrors ck K (update M k v) (update P (path_of ck k) v) := by
  refine ⟨fun k' hk' => ?_, fun k' hk' => ?_, fun p hp => ?_⟩
  · by_cases he : k' = k
    · subst he
      simp
    · have hne : path_of ck k' ≠ path_of ck k := fun hpe => he (hK hk' hk hpe)
      rw [update_of_ne he, update_of_ne hne]
      exact h.inside k' hk'
  · have he : k' ≠ k := by
      rintro rfl
      exact hk' hk
    rw [update_of_ne he]
    exact h.outside k' hk'
  · by_cases he : p = path_of ck k
    · exact ⟨k, hk, he.symm⟩
    · rw [update_of_ne he] at hp
      exact h.onto p hp

theorem Mirrors.put (h : Mirrors ck K M P) (hK : Set.InjOn (path_of ck) K) (ops : List (Bytes × Option Bytes))
    (hops : ∀ op ∈ ops, op.1 ∈ K) : Mirrors ck K (M.put ops) (overlay P (byPath ck ops)) := by
  induction ops generalizing M P with
  | nil => exact h
  | cons op ops ih =>
    exact ih (h.update hK (hops op (.head _)) op.2) fun o ho => hops o (.tail _ ho)

theorem Mirrors.eq_iff (h : Mirrors ck K M P) (h' : Mirrors ck K M' P') : P' = P ↔ M' = M := by
  constructor
  · intro he
    funext k
    by_cases hk : k ∈ K
    · rw [← h.inside k hk, ← h'.inside k hk, he]
    · rw [h.outside k hk, h'.outside k hk]
  · intro he
    funext p
    by_cases hp : ∃ k ∈ K, path_of ck k = p
    · obtain ⟨k, hk, rfl⟩ := hp
      rw [h.inside k hk, h'.inside k hk, he]
    have hnone : P p = none := by
      by_contra hno
      exact hp (h.onto p hno)
    have hnone' : P' p = none := by
      by_contra hno
      exact hp (h'.onto p hno)
    rw [hnone, hnone']

end

/-! ## Batches one after the other -/

section

variable {B : Type} [KvBackend B] [Crypto]

def putBatches (s : MerkleStore B) (bs : List KeyBatch) : MerkleStore B :=
  bs.foldl (fun s b => ((put_batch b.1 b.2).exec s).2) s

theorem putBatches_append (s : MerkleStore B) (xs ys : List KeyBatch) :
    putBatches s (xs ++ ys) = putBatches (putBatches s xs) ys := by
  unfold putBatches
  rw [List.foldl_append]

variable [HonestBackend B]

/-- The store holds `M`, and earlier versions what the archive says. -/
structure Refines (ck : Key) (K : Set Bytes) (U : Set (Hash × Bytes)) (H : Archive) (s : MerkleStore B)
    (M : KeyMap) : Prop where
  keyed : s.ck = ck
  faithful : Faithful U H s
  live : ∃ c, H s.version = some c ∧ Mirrors ck K M c.map

/-- The keys and values of a batch are among those that do not collide. -/
def KeyBatchWithin (ck : Key) (K : Set Bytes) (U : Set (Hash × Bytes)) (b : KeyBatch) : Prop :=
  ∀ op ∈ b.2, op.1 ∈ K ∧ ∀ x, op.2 = some x → (path_of ck op.1, x) ∈ U

section

variable {ck : Key} {K : Set Bytes} {U : Set (Hash × Bytes)} {H : Archive} {s : MerkleStore B} {M : KeyMap}

theorem Refines.step (h : Refines ck K U H s M) (hs : Seals) (hK : Set.InjOn (path_of ck) K) (hU : ValuesApart ck U)
    {b : KeyBatch} (hd : b.1.Drawn) (hb : KeyBatchWithin ck K U b) (hv : s.version.toNat + 1 < 2 ^ 64) :
    ((put_batch b.1 b.2).exec s).1 = .ok ((put_batch b.1 b.2).exec s).2.rootVersion ∧
    (M.put b.2 = M → ((put_batch b.1 b.2).exec s).2.version = s.version) ∧
    (M.put b.2 ≠ M → ((put_batch b.1 b.2).exec s).2.version.toNat = s.version.toNat + 1) ∧
    ∃ H', Refines ck K U H' ((put_batch b.1 b.2).exec s).2 (M.put b.2) ∧
      ∀ v c, H v = some c → ∃ c', H' v = some c' ∧ c'.map = c.map := by
  obtain ⟨c, hc, hmir⟩ := h.live
  obtain ⟨hchild, -⟩ := h.faithful.consistent.now hc
  have hkey := h.keyed
  have ho := put_batch_outcome (h.faithful.consistent.kept _ _ hc).toGrown hchild b.1 b.2
  have hops : ∀ p x, (p, some x) ∈ (dedup (byPath s.ck b.2)).toList → (p, x) ∈ U := by
    intro p x hp
    obtain ⟨op, hop, he⟩ := List.mem_map.mp (mem_dedup hp)
    obtain ⟨rfl, hx⟩ := Prod.mk.inj he
    rw [hkey]
    exact (hb op hop).2 x hx
  have hmir' : Mirrors ck K (M.put b.2) (patched c.map (dedup (byPath s.ck b.2))) := by
    rw [patched_dedup, hkey]
    exact hmir.put hK b.2 fun op hop => (hb op hop).1
  have heq := hmir.eq_iff hmir'
  rcases h.faithful.put hc ho (by rw [hkey]; exact hU) hops with ⟨e, hr, -⟩ | ⟨t', hr, hver, hfaith, hkeep⟩
  · exact absurd hr (ho.ok (not_blocked hs hd hv _) e)
  refine ⟨hr, fun hM => ?_, fun hM => ?_, _, ⟨ho.settings.1.trans hkey, hfaith, _, update_self .., hmir'⟩, hkeep⟩
  · rcases hver with ⟨hv', -⟩ | ⟨-, -, hne⟩
    · exact hv'
    · exact absurd (heq.mpr hM) hne
  · rcases hver with ⟨-, hsame⟩ | ⟨hv', -, -⟩
    · exact absurd (heq.mp hsame) hM
    · rw [hv', toNat_next hv]

/-- The version counter does not run out in the batches. -/
def Room (s : MerkleStore B) (bs : List KeyBatch) : Prop :=
  ∀ xs y ys, bs = xs ++ y :: ys → (putBatches s xs).version.toNat + 1 < 2 ^ 64

omit [HonestBackend B] in
theorem Room.left {xs ys : List KeyBatch} (h : Room s (xs ++ ys)) : Room s xs :=
  fun us y vs he => h us y (vs ++ ys) (by rw [he, List.append_assoc]; rfl)

theorem Refines.run (h : Refines ck K U H s M) (hs : Seals) (hK : Set.InjOn (path_of ck) K) (hU : ValuesApart ck U)
    (bs : List KeyBatch) (hbs : ∀ b ∈ bs, b.1.Drawn ∧ KeyBatchWithin ck K U b) (hroom : Room s bs) :
    ∃ H', Refines ck K U H' (putBatches s bs) (M.puts bs) ∧
      ∀ v c, H v = some c → ∃ c', H' v = some c' ∧ c'.map = c.map := by
  induction bs generalizing s H M with
  | nil => exact ⟨H, h, fun v c hv => ⟨c, hv, rfl⟩⟩
  | cons b bs ih =>
    obtain ⟨hd, hb⟩ := hbs b (.head _)
    obtain ⟨-, -, -, H1, h1, hkeep1⟩ := h.step hs hK hU hd hb (hroom [] b bs rfl)
    obtain ⟨H2, h2, hkeep2⟩ := ih h1 (fun b hb => hbs b (.tail _ hb))
      fun xs y ys he => hroom (b :: xs) y ys (by rw [he]; rfl)
    refine ⟨H2, h2, fun v c hv => ?_⟩
    obtain ⟨c1, hc1, hm1⟩ := hkeep1 v c hv
    obtain ⟨c2, hc2, hm2⟩ := hkeep2 v c1 hc1
    exact ⟨c2, hc2, hm2.trans hm1⟩

end

theorem Created.refines {T : Table} {ck sk : Key} {s : MerkleStore B} (h : Created T ck sk s) (K : Set Bytes)
    (U : Set (Hash × Bytes)) : Refines ck K U emptyArchive s (fun _ => none) :=
  ⟨h.ck, h.faithful U, _, h.live, Mirrors.empty ck K⟩

/-- `put_batch` succeeds while a version is left, and steps the version exactly when the map changes; `get` and
`get_at` return the maps. -/
theorem put_batch_refines_map {ck sk : Key} {K : Set Bytes} {U : Set (Hash × Bytes)} (hs : Seals)
    (hK : Set.InjOn (path_of ck) K) (hU : ValuesApart ck U) (hR : RootsApart ck U) (b : B) (nonce : Nonce) :
    ∃ s, create b ck sk (some nonce) = .ok s ∧
      ∀ bs : List KeyBatch, (∀ b ∈ bs, b.1.Drawn ∧ KeyBatchWithin ck K U b) → Room s bs →
        (∀ xs y ys, bs = xs ++ y :: ys →
          ((put_batch y.1 y.2).exec (putBatches s xs)).1 = .ok (putBatches s (xs ++ [y])).rootVersion ∧
          (modelMap (xs ++ [y]) = modelMap xs → (putBatches s (xs ++ [y])).version = (putBatches s xs).version) ∧
          (modelMap (xs ++ [y]) ≠ modelMap xs →
            (putBatches s (xs ++ [y])).version.toNat = (putBatches s xs).version.toNat + 1)) ∧
        (∀ k ∈ K, ((MerkleStore.get k).exec (putBatches s bs)).1 = .ok (modelMap bs k)) ∧
        ∀ xs ys, bs = xs ++ ys → ∀ k ∈ K,
          ((get_at (putBatches s xs).version k).exec (putBatches s bs)).1 = .ok (modelMap xs k) := by
  obtain ⟨s, hcreate⟩ := create_ok hs b ck sk nonce
  have h0 := (create_spec hcreate).refines K U
  refine ⟨s, hcreate, fun bs hbs hroom => ⟨?_, fun k hk => ?_, ?_⟩⟩
  · rintro xs y ys rfl
    obtain ⟨H, h, -⟩ := h0.run hs hK hU xs (fun b hb => hbs b (List.mem_append_left _ hb)) hroom.left
    obtain ⟨hd, hy⟩ := hbs y (List.mem_append_right _ (.head _))
    obtain ⟨hok, hsame, hnext, -⟩ := h.step hs hK hU hd hy (hroom xs y ys rfl)
    have hmodel : modelMap (xs ++ [y]) = (modelMap xs).put y.2 := by
      unfold modelMap KeyMap.puts
      rw [List.foldl_append]
      rfl
    rw [putBatches_append, hmodel]
    exact ⟨hok, hsame, hnext⟩
  · obtain ⟨H, h, -⟩ := h0.run hs hK hU bs hbs hroom
    obtain ⟨c, hc, hmir⟩ := h.live
    rw [(h.faithful.gives_get hc k).fst, h.keyed, hmir.inside k hk]
    rfl
  · rintro xs ys rfl k hk
    obtain ⟨H, h, -⟩ := h0.run hs hK hU xs (fun b hb => hbs b (List.mem_append_left _ hb)) hroom.left
    obtain ⟨c, hc, hmir⟩ := h.live
    have hroom' : Room (putBatches s xs) ys := by
      intro us y vs he
      rw [← putBatches_append]
      exact hroom (xs ++ us) y vs (by rw [he, List.append_assoc])
    obtain ⟨H', h', hkeep⟩ := h.run hs hK hU ys (fun b hb => hbs b (List.mem_append_right _ hb)) hroom'
    obtain ⟨c', hc', hmap⟩ := hkeep _ c hc
    have hget := h'.faithful.gives_get_at (by rw [h'.keyed]; exact hR) hc' k
    rw [putBatches_append, hget.fst, h'.keyed, hmap, hmir.inside k hk]
    rfl

end

open Sample

/-! ## Two edits, and the last version -/

def edits : List KeyBatch :=
  [(entropy, [([1], some [2]), ([3], some [4])]), (entropy, [([1], some [5])]), (entropy, [([3], none)])]

def editValues : Set (Hash × Bytes) := {(path_of key [1], [2]), (path_of key [3], [4]), (path_of key [1], [5])}

theorem edits_within : ∀ b ∈ edits, b.1.Drawn ∧ KeyBatchWithin key {[1], [3]} editValues b := by
  intro b hb
  simp only [edits, List.mem_cons, List.not_mem_nil, or_false] at hb
  rcases hb with rfl | rfl | rfl <;> exact ⟨drawn, by simp [KeyBatchWithin, editValues]⟩

theorem edits_room : Room store edits := by
  intro xs y ys he
  have hlen : xs.length < 3 := by
    have := congrArg List.length he
    simp [edits] at this
    omega
  have hxs : xs = edits.take xs.length := by rw [he, List.take_left]
  rw [hxs]
  generalize xs.length = n at hlen
  interval_cases n <;> decide +kernel

/-- Two keys are put, one is put again, the other deleted. -/
theorem put_batch_refines_map_edits :
    create ({} : MemBackend) key key (some nonce) = .ok store ∧ Room store edits ∧
      ((MerkleStore.get [1]).exec (putBatches store edits)).1 = .ok (some [5]) ∧
      ((MerkleStore.get [3]).exec (putBatches store edits)).1 = .ok none ∧
      ((get_at (putBatches store (edits.take 1)).version [3]).exec (putBatches store edits)).1 = .ok (some [4]) := by
  have hpaths : path_of key [1] ≠ path_of key [3] := by decide
  have hkeys : Set.InjOn (path_of key) {[1], [3]} := by
    rintro _ (rfl | rfl) _ (rfl | rfl) h
    exacts [rfl, absurd h hpaths, absurd h.symm hpaths, rfl]
  have hvalues : ValuesApart key editValues := by
    rintro _ (rfl | rfl | rfl) _ (rfl | rfl | rfl) h
    all_goals first | rfl | exact absurd h (by decide)
  obtain ⟨s, hs, h⟩ := @put_batch_refines_map MemBackend _ _ _ key key {[1], [3]} editValues seals hkeys hvalues
    (rootsApart _ _) {} nonce
  obtain rfl := Except.ok.inj (create_store.symm.trans hs)
  obtain ⟨-, hget, hat⟩ := h edits edits_within edits_room
  refine ⟨hs, edits_room, ?_, ?_, ?_⟩
  · rw [hget [1] (.inl rfl)]
    decide
  · rw [hget [3] (.inr rfl)]
    decide
  · rw [hat (edits.take 1) (edits.drop 1) rfl [3] (.inr rfl)]
    decide

def flip (i : Nat) : KeyBatch := (entropy, [([1], if i % 2 = 0 then some [2] else none)])

def flips (n : Nat) : List KeyBatch := (List.range n).map flip

theorem flips_succ (n : Nat) : flips (n + 1) = flips n ++ [flip n] := by
  unfold flips
  rw [List.range_succ, List.map_append]
  rfl

theorem modelMap_flips_succ (n : Nat) : modelMap (flips (n + 1)) = (modelMap (flips n)).put (flip n).2 := by
  unfold modelMap KeyMap.puts
  rw [flips_succ, List.foldl_append]
  rfl

theorem modelMap_flips (n : Nat) : modelMap (flips n) [1] = if n % 2 = 0 then none else some [2] := by
  rcases n with _ | n
  · rfl
  rw [modelMap_flips_succ]
  simp only [KeyMap.put, flip, List.foldl_cons, List.foldl_nil, update_self]
  rcases Nat.mod_two_eq_zero_or_one n with h | h
  · rw [if_pos h, if_neg (by omega)]
  · rw [if_neg (by omega), if_pos (by omega)]

def flipKeys : Set Bytes := {[1]}

def flipValues : Set (Hash × Bytes) := {(path_of key [1], [2])}

theorem flip_within (i : Nat) : (flip i).1.Drawn ∧ KeyBatchWithin key flipKeys flipValues (flip i) := by
  refine ⟨drawn, fun op hop => ?_⟩
  obtain rfl := List.mem_singleton.mp hop
  refine ⟨rfl, fun x hx => ?_⟩
  simp only [Option.ite_none_right_eq_some] at hx
  obtain ⟨-, hx⟩ := hx
  rw [← Option.some.inj hx]
  rfl

theorem version_flips (n : Nat) (hn : n < 2 ^ 64) :
    ∃ H, Refines key flipKeys flipValues H (putBatches store (flips n)) (modelMap (flips n)) ∧
      (putBatches store (flips n)).version.toNat = n := by
  induction n with
  | zero =>
    have hc := create_spec create_store
    refine ⟨emptyArchive, hc.refines _ _, ?_⟩
    rw [show putBatches store (flips 0) = store from rfl, hc.version]
    rfl
  | succ n ih =>
    obtain ⟨H, h, hv⟩ := ih (by omega)
    have hput : modelMap (flips (n + 1)) [1] ≠ modelMap (flips n) [1] := by
      rw [modelMap_flips, modelMap_flips]
      rcases Nat.mod_two_eq_zero_or_one n with h0 | h0
      · rw [if_neg (by omega), if_pos h0]
        simp
      · rw [if_pos (by omega), if_neg (by omega)]
        simp
    rw [modelMap_flips_succ] at hput ⊢
    obtain ⟨-, -, hnext, H', h', -⟩ := h.step seals (Set.injOn_singleton _ _) (Set.injOn_singleton _ _)
      (flip_within n).1 (flip_within n).2 (by omega)
    rw [flips_succ, putBatches_append]
    have hnew := hnext fun he => hput (by rw [he])
    rw [hv] at hnew
    exact ⟨H', h', hnew⟩

/-- The last of a sequence of batches fails, over an honest host. -/
theorem put_batch_fails_at_last_version : ∃ xs : List KeyBatch, ∃ y : KeyBatch,
    Seals ∧ Set.InjOn (path_of key) flipKeys ∧ ValuesApart key flipValues ∧ RootsApart key flipValues ∧
    (∀ b ∈ xs ++ [y], b.1.Drawn ∧ KeyBatchWithin key flipKeys flipValues b) ∧
    create ({} : MemBackend) key key (some nonce) = .ok store ∧
    ((put_batch y.1 y.2).exec (putBatches store xs)).1 = .error .panic := by
  obtain ⟨n, hn⟩ : ∃ n, n + 1 = 2 ^ 64 := ⟨2 ^ 64 - 1, by norm_num⟩
  obtain ⟨H, -, hv⟩ := version_flips n (by omega)
  refine ⟨flips n, flip 0, seals, Set.injOn_singleton _ _, Set.injOn_singleton _ _, rootsApart _ _,
    fun b hb => ?_, create_store, ?_⟩
  · rcases List.mem_append.mp hb with hin | hin
    · obtain ⟨i, -, rfl⟩ := List.mem_map.mp hin
      exact flip_within i
    · rw [List.mem_singleton.mp hin]
      exact flip_within 0
  · have hnext := exec_nextVersion (putBatches store (flips n))
    rw [if_neg (by rw [hv]; omega)] at hnext
    unfold put_batch compute_batch
    rw [Method.exec_bind_error (Method.exec_bind_error hnext)]

end MerkleStore

end EnclaveOs.Merkle
