import EnclaveOs.Merkle.Prune
import EnclaveOs.Merkle.Stale

/-!
# What pruning takes

Both loops of `prune` scan a range, delete what the entries name, and go on while the chunks are full.
-/

open EnclaveOs.Lib
open EnclaveOs.Lib.Method (exec_bind_ok exec_state exec_update)

namespace EnclaveOs.Merkle

namespace MerkleStore

/-! ## Sweeping a table -/

def InRange (start stop k : Bytes) : Prop := compare start k ≠ .gt ∧ (stop = [] ∨ compare k stop = .lt)

def InTable (start stop : Bytes) (T : Table) (k : Bytes) : Prop := InRange start stop k ∧ T k ≠ none

/-- `T'` is `T` without some records that entries of the range name. -/
structure Swept (start stop : Bytes) (short : Bytes → Bool) (doom : Bytes → List Bytes) (T T' : Table) : Prop where
  taken : ∀ k, T' k = T k ∨ T' k = none ∧ ∃ e, InTable start stop T e ∧ short e = false ∧ k ∈ doom e
  /-- An entry goes together with what it names. -/
  whole : (∀ e e', InTable start stop T e → InTable start stop T e' → e' ∈ doom e → e' = e) →
    ∀ e, InTable start stop T e → T' e = none → ∀ k ∈ doom e, T' k = none

section

variable {start stop : Bytes} {short : Bytes → Bool} {doom : Bytes → List Bytes} {T T' T'' : Table} {k : Bytes}

theorem Swept.refl (start stop : Bytes) (short : Bytes → Bool) (doom : Bytes → List Bytes) (T : Table) :
    Swept start stop short doom T T :=
  ⟨fun _ => .inl rfl, fun _ _ he hnone => absurd hnone he.2⟩

section

variable (h : Swept start stop short doom T T')

include h

theorem Swept.sub (hk : T' k ≠ none) : T k ≠ none := by
  rcases h.taken k with he | ⟨hnone, -⟩
  · rw [← he]
    exact hk
  · exact absurd hnone hk

theorem Swept.inTable (hk : InTable start stop T' k) : InTable start stop T k := ⟨hk.1, h.sub hk.2⟩

theorem Swept.gone (hk : T k = none) : T' k = none := by
  by_contra hne
  exact h.sub hne hk

theorem Swept.trans (h' : Swept start stop short doom T' T'') : Swept start stop short doom T T'' := by
  refine ⟨fun k => ?_, fun hapart e he hnone k hk => ?_⟩
  · rcases h'.taken k with hk | ⟨hnone, e, he, hlong, hdoom⟩
    · rw [hk]
      exact h.taken k
    · exact .inr ⟨hnone, e, h.inTable he, hlong, hdoom⟩
  · by_cases he' : T' e = none
    · exact h'.gone (h.whole hapart e he he' k hk)
    · exact h'.whole (fun a b ha hb => hapart a b (h.inTable ha) (h.inTable hb)) e ⟨he.1, he'⟩ hnone k hk

end

theorem swept_deletes (es : List Bytes) (hes : ∀ e ∈ es, InTable start stop T e ∧ short e = false) (hself : ∀ e ∈ es, e ∈ doom e) :
    Swept start stop short doom T (applyOps ((es.flatMap doom).map .delete) T) ∧
      ∀ e ∈ es, applyOps ((es.flatMap doom).map .delete) T e = none := by
  have happly := applyOps_deletes (es.flatMap doom) T
  refine ⟨⟨fun k => ?_, fun hapart e he hnone k hk => ?_⟩, fun e he => ?_⟩
  · rw [happly]
    split
    · rename_i hk
      obtain ⟨e, he, hdoom⟩ := List.mem_flatMap.mp hk
      exact .inr ⟨rfl, e, (hes e he).1, (hes e he).2, hdoom⟩
    · exact .inl rfl
  · rw [happly] at hnone
    split at hnone
    · rename_i hin
      obtain ⟨e', he', hdoom⟩ := List.mem_flatMap.mp hin
      obtain rfl := hapart e' e (hes e' he').1 he hdoom
      rw [happly, if_pos (List.mem_flatMap.mpr ⟨e, he', hk⟩)]
    · exact absurd hnone he.2
  · rw [happly, if_pos (List.mem_flatMap.mpr ⟨e, he, hself e he⟩)]

end

/-! ## The loop -/

variable {B : Type} [KvBackend B] {T T' : Table} {h : UInt64}

/-- Both loops of `prune`. -/
def sweep (start stop : Bytes) (short : Bytes → Bool) (doom : Bytes → List Bytes)
    (count : PruneStats → Nat → PruneStats) : Nat → PruneStats → StoreM B PruneStats
  | 0, _ => throw .fuel
  | fuel + 1, stats => do
    let entries ← backendScan start stop PRUNE_CHUNK
    if entries.isEmpty then pure stats
    else if entries.any (fun e => short e.1) then fail (.corrupted "stale entry key too short")
    else do
      backendWriteBatch (((entries.map Prod.fst).flatMap doom).map .delete)
      if entries.length ≠ PRUNE_CHUNK then pure (count stats entries.length)
      else sweep start stop short doom count fuel (count stats entries.length)

theorem pruneStale_eq_sweep (stop : Bytes) (fuel : Nat) (stats : PruneStats) :
    (pruneStale stop fuel stats : StoreM B PruneStats) =
      sweep [REC_STALE] stop (fun k => k.length < 10) (fun k => [k.drop 9, k]) (fun stats n => { stats with
          stale_entries := stats.stale_entries + n, records_deleted := stats.records_deleted + n }) fuel stats := by
  induction fuel generalizing stats with
  | zero => rfl
  | succ fuel ih =>
    unfold pruneStale sweep
    simp only [ih, List.flatMap_map, List.map_flatMap, List.map_cons, List.map_nil]

theorem pruneRoots_eq_sweep (stop : Bytes) (fuel : Nat) (stats : PruneStats) :
    (pruneRoots stop fuel stats : StoreM B PruneStats) =
      sweep [REC_ROOT] stop (fun _ => false) (fun k => [k])
        (fun stats n => { stats with root_records_deleted := stats.root_records_deleted + n }) fuel stats := by
  induction fuel generalizing stats with
  | zero => rfl
  | succ fuel ih =>
    unfold pruneRoots sweep
    simp [ih, List.flatMap_singleton', Function.comp_def]

section Atomic

variable [AtomicBackend B]

theorem scan_cases (start stop : Bytes) (limit : Nat) (s : MerkleStore B) : ∃ (l : List (Bytes × Bytes)) (b : B),
    (backendScan start stop limit).exec s = (.ok (limited limit l), { s with backend := b }) ∧
      AtomicBackend.table b = s.table ∧ IsRange s.table start stop l := by
  obtain ⟨l, hl, hans, htab⟩ := AtomicBackend.scan_spec s.backend start stop limit
  refine ⟨l, (KvBackend.scan s.backend start stop limit).2, ?_, htab, hl⟩
  unfold backendScan
  rw [exec_onBackend, hans]
  rfl

omit [KvBackend B] [AtomicBackend B] in
theorem inTable_iff {start stop : Bytes} {T : Table} {l : List (Bytes × Bytes)} (h : IsRange T start stop l)
    {k : Bytes} : InTable start stop T k ↔ ∃ v, (k, v) ∈ l := by
  unfold InTable InRange
  constructor
  · rintro ⟨hr, hk⟩
    obtain ⟨v, hv⟩ := Option.ne_none_iff_exists'.mp hk
    exact ⟨v, (h.2 k v).mpr ⟨hv, hr⟩⟩
  · rintro ⟨v, hv⟩
    obtain ⟨hk, hr⟩ := (h.2 k v).mp hv
    exact ⟨hr, by simp [hk]⟩

section

variable {start stop : Bytes} {short : Bytes → Bool} {doom : Bytes → List Bytes}
  {count : PruneStats → Nat → PruneStats} (hself : ∀ e, e ∈ doom e)
include hself

/-- Wherever the loop ends, it took only what entries of the range name. -/
theorem sweep_spec (fuel : Nat) (stats : PruneStats) (s : MerkleStore B) : ∃ (r : Except Fault PruneStats) (b : B),
    (sweep start stop short doom count fuel stats).exec s = (r, { s with backend := b }) ∧
      Swept start stop short doom s.table (AtomicBackend.table b) ∧
      ∀ stats', r = .ok stats' → ∀ e, ¬ InTable start stop (AtomicBackend.table b) e := by
  induction fuel generalizing stats s with
  | zero => exact ⟨.error .fuel, s.backend, rfl, Swept.refl .., by simp⟩
  | succ fuel ih =>
    unfold sweep
    obtain ⟨l, b, hscan, htab, hrange⟩ := scan_cases start stop PRUNE_CHUNK s
    have hlim : limited PRUNE_CHUNK l = l.take PRUNE_CHUNK := if_neg (by decide)
    rw [exec_bind_ok hscan, hlim]
    have hin : ∀ e ∈ (l.take PRUNE_CHUNK).map Prod.fst, InTable start stop s.table e := by
      intro e he
      obtain ⟨⟨k, v⟩, hkv, rfl⟩ := List.mem_map.mp he
      exact (inTable_iff hrange).mpr ⟨v, List.mem_of_mem_take hkv⟩
    by_cases hempty : (l.take PRUNE_CHUNK).isEmpty = true
    · rw [if_pos hempty]
      refine ⟨.ok stats, b, rfl, by rw [htab]; exact Swept.refl .., fun stats' _ e he => ?_⟩
      rw [htab] at he
      obtain ⟨v, hv⟩ := (inTable_iff hrange).mp he
      have hnil : l = [] := by
        rw [List.isEmpty_iff, List.take_eq_nil_iff] at hempty
        exact hempty.resolve_left (by decide)
      simp [hnil] at hv
    rw [if_neg hempty]
    by_cases hshort : (l.take PRUNE_CHUNK).any (fun e => short e.1) = true
    · rw [if_pos hshort]
      exact ⟨_, b, rfl, by rw [htab]; exact Swept.refl .., by simp⟩
    rw [if_neg hshort]
    have hlong : ∀ e ∈ (l.take PRUNE_CHUNK).map Prod.fst, InTable start stop s.table e ∧ short e = false := by
      intro e he
      obtain ⟨x, hx, rfl⟩ := List.mem_map.mp he
      rw [Bool.not_eq_true, List.any_eq_false] at hshort
      exact ⟨hin _ he, by simpa using hshort x hx⟩
    obtain ⟨hswept, hgone⟩ := swept_deletes _ hlong fun e _ => hself e
    obtain ⟨b', ⟨hexec, htab'⟩ | ⟨e, hexec, -, htab'⟩⟩ := write_cases
      ((((l.take PRUNE_CHUNK).map Prod.fst).flatMap doom).map .delete) ({ s with backend := b } : MerkleStore B)
    · rw [exec_bind_ok hexec]
      have htab'' : AtomicBackend.table b' = applyOps
          ((((l.take PRUNE_CHUNK).map Prod.fst).flatMap doom).map .delete) s.table := by rw [htab', ← htab]; rfl
      rw [← htab''] at hswept hgone
      by_cases hlen : (l.take PRUNE_CHUNK).length ≠ PRUNE_CHUNK
      · rw [if_pos hlen]
        refine ⟨_, b', rfl, hswept, fun stats' _ e he => ?_⟩
        -- The chunk was not full, so it was the whole range.
        obtain ⟨v, hv⟩ := (inTable_iff hrange).mp (hswept.inTable he)
        rw [List.length_take] at hlen
        have hall : l.take PRUNE_CHUNK = l := List.take_of_length_le (by omega)
        exact he.2 (hgone e (List.mem_map.mpr ⟨(e, v), by rw [hall]; exact hv, rfl⟩))
      · rw [if_neg hlen]
        obtain ⟨r, b'', hexec', hswept', hdone⟩ := ih (count stats (l.take PRUNE_CHUNK).length)
          ({ s with backend := b' } : MerkleStore B)
        exact ⟨r, b'', hexec', hswept.trans hswept', hdone⟩
    · rw [Method.exec_bind_error hexec]
      refine ⟨_, b', rfl, ?_, by simp⟩
      rcases htab' with htab' | htab'
      · rw [htab']
        exact htab ▸ hswept
      · rw [htab']
        exact htab ▸ Swept.refl ..

end

end Atomic

section

omit [KvBackend B]

/-! ## It comes to an end -/

variable {start stop : Bytes} {T T' : Table} {l l' : List (Bytes × Bytes)}

theorem nodup_of_range (h : IsRange T start stop l) : l.Nodup := by
  refine h.1.imp ?_
  rintro a b hab rfl
  simp at hab

theorem subset_of_range (hl : IsRange T start stop l) (hl' : IsRange T' start stop l')
    (hsub : ∀ k, T' k = T k ∨ T' k = none) : l' ⊆ l := by
  rintro ⟨k, v⟩ hkv
  obtain ⟨hk, hr⟩ := (hl'.2 k v).mp hkv
  refine (hl.2 k v).mpr ⟨?_, hr⟩
  rcases hsub k with he | hnone
  · rw [← he]
    exact hk
  · rw [hnone] at hk
    simp at hk

theorem length_lt_of_range (hl : IsRange T start stop l) (hl' : IsRange T' start stop l')
    (hsub : ∀ k, T' k = T k ∨ T' k = none) {x : Bytes × Bytes} (hx : x ∈ l) (hgone : T' x.1 = none) :
    l'.length < l.length := by
  have hsubset : l' ⊆ l.erase x := by
    intro y hy
    have hne : y ≠ x := by
      rintro rfl
      have := ((hl'.2 y.1 y.2).mp hy).1
      rw [hgone] at this
      simp at this
    exact (List.mem_erase_of_ne hne).mpr (subset_of_range hl hl' hsub hy)
  have hle := ((nodup_of_range hl').subperm hsubset).length_le
  rw [List.length_erase_of_mem hx] at hle
  have := List.length_pos_of_mem hx
  omega

end

section Honest

variable [HonestBackend B]

theorem sweep_ok {start stop : Bytes} {short : Bytes → Bool} {doom : Bytes → List Bytes}
    {count : PruneStats → Nat → PruneStats} (hself : ∀ e, e ∈ doom e) (fuel : Nat) (stats : PruneStats) (s : MerkleStore B)
    (hlong : ∀ e, InTable start stop s.table e → short e = false) (l : List (Bytes × Bytes))
    (hl : IsRange s.table start stop l) (hfuel : l.length < fuel) :
    ∃ stats', ((sweep start stop short doom count fuel stats).exec s).1 = .ok stats' := by
  induction fuel generalizing stats s l with
  | zero => omega
  | succ fuel ih =>
    unfold sweep
    obtain ⟨m, b, hscan, htab, hm⟩ := scan_cases start stop PRUNE_CHUNK s
    have hlim : limited PRUNE_CHUNK m = m.take PRUNE_CHUNK := if_neg (by decide)
    rw [exec_bind_ok hscan, hlim]
    split
    · exact ⟨stats, rfl⟩
    rename_i hempty
    have hin : ∀ x ∈ m.take PRUNE_CHUNK, InTable start stop s.table x.1 :=
      fun x hx => (inTable_iff hm).mpr ⟨x.2, List.mem_of_mem_take hx⟩
    rw [if_neg (by simp only [List.any_eq_true, not_exists, not_and]; intro x hx; simp [hlong x.1 (hin x hx)])]
    obtain ⟨b', ⟨hexec, htab'⟩ | ⟨e, -, ⟨b'', ops, hno⟩, -⟩⟩ := write_cases
      ((((m.take PRUNE_CHUNK).map Prod.fst).flatMap doom).map .delete) ({ s with backend := b } : MerkleStore B)
    · rw [exec_bind_ok hexec]
      split
      · exact ⟨_, rfl⟩
      have hes : ∀ e ∈ (m.take PRUNE_CHUNK).map Prod.fst, InTable start stop s.table e ∧ short e = false := by
        intro e he
        obtain ⟨x, hx, rfl⟩ := List.mem_map.mp he
        exact ⟨hin x hx, hlong _ (hin x hx)⟩
      obtain ⟨hswept, hgone⟩ := swept_deletes _ hes fun e _ => hself e
      have htab'' : AtomicBackend.table b' = applyOps
          ((((m.take PRUNE_CHUNK).map Prod.fst).flatMap doom).map .delete) s.table := by rw [htab', ← htab]; rfl
      rw [← htab''] at hswept hgone
      -- The first entry is gone, so the range is shorter now.
      obtain ⟨l', b'', -, -, hl'⟩ := scan_cases start stop 0 ({ s with backend := b' } : MerkleStore B)
      obtain ⟨x, hx⟩ := List.exists_mem_of_ne_nil (m.take PRUNE_CHUNK) fun he => hempty (by rw [he]; rfl)
      have hxl : x ∈ l := (hl.2 x.1 x.2).mpr ((hm.2 x.1 x.2).mp (List.mem_of_mem_take hx))
      have hlt := length_lt_of_range hl hl' (fun k => (hswept.taken k).imp_right And.left) hxl
        (hgone _ (List.mem_map_of_mem hx))
      exact ih _ ({ s with backend := b' } : MerkleStore B) (fun e he => hlong e (hswept.inTable he)) l' hl' (by omega)
    · exact absurd (HonestBackend.write_ok b'' ops) hno

end Honest

section Ranges

omit [KvBackend B]

/-! ## Ranges of keys -/

theorem compare_nil_ne_gt (l : Bytes) : compare [] l ≠ .gt := by
  cases l <;> simp

variable {e : Bytes} {h : UInt64}

theorem inRange_cons {a : UInt8} {stop : Bytes} :
    InRange [a] (a :: stop) e ↔ ∃ rest, e = a :: rest ∧ compare rest stop = .lt := by
  unfold InRange
  constructor
  · rintro ⟨hle, hlt⟩
    have hlt := hlt.resolve_left (by simp)
    rcases e with _ | ⟨b, rest⟩
    · simp at hle
    rw [List.compare_cons_cons] at hle hlt
    have hab : a = b := by
      rcases hc : compare a b with _ | _ | _
      · rw [Std.OrientedCmp.gt_of_lt hc] at hlt
        simp at hlt
      · exact Std.LawfulEqOrd.eq_of_compare hc
      · rw [hc] at hle
        simp at hle
    subst hab
    exact ⟨rest, rfl, by simpa using hlt⟩
  · rintro ⟨rest, rfl, hlt⟩
    refine ⟨?_, .inr ?_⟩
    · rw [List.compare_cons_cons]
      simpa using compare_nil_ne_gt rest
    · rw [List.compare_cons_cons]
      simpa using hlt

theorem inRange_all : InRange [REC_STALE] [REC_STALE + 1] e ↔ ∃ rest, e = REC_STALE :: rest := by
  unfold InRange
  constructor
  · rintro ⟨hle, hlt⟩
    have hlt := hlt.resolve_left (by simp)
    rcases e with _ | ⟨b, rest⟩
    · simp at hle
    rw [List.compare_cons_cons, compare_u8] at hle hlt
    refine ⟨rest, congrArg (· :: rest) (UInt8.toNat_inj.mp ?_)⟩
    have h1 : ¬ b.toNat < REC_STALE.toNat := by
      intro h
      rw [Nat.compare_eq_gt.mpr h] at hle
      simp at hle
    have h2 : ¬ (REC_STALE + 1).toNat ≤ b.toNat := by
      intro h
      rcases Nat.eq_or_lt_of_le h with he | hgt
      · rw [Nat.compare_eq_eq.mpr he.symm] at hlt
        cases rest <;> simp at hlt
      · rw [Nat.compare_eq_gt.mpr hgt] at hlt
        simp at hlt
    have h115 : REC_STALE.toNat = 115 := rfl
    have h116 : (REC_STALE + 1).toNat = 116 := rfl
    omega
  · rintro ⟨rest, rfl⟩
    refine ⟨?_, .inr ?_⟩
    · rw [List.compare_cons_cons]
      simpa using compare_nil_ne_gt rest
    · rw [List.compare_cons_cons]
      rfl

theorem u64Be_append_lt (since v : UInt64) (target : Bytes) :
    compare (u64Be since ++ target) (u64Be v) = .lt ↔ since < v := by
  have h := compare_u64Be_append since v target []
  rw [List.append_nil] at h
  rw [h, UInt64.lt_iff_toNat_lt]
  rcases Nat.lt_trichotomy since.toNat v.toNat with hlt | heq | hgt
  · simp [Nat.compare_eq_lt.mpr hlt, hlt]
  · rw [Nat.compare_eq_eq.mpr heq, heq]
    cases target <;> simp
  · rw [Nat.compare_eq_gt.mpr hgt]
    simp
    omega

theorem inRange_stale {since : UInt64} {target : Bytes} :
    InRange [REC_STALE] (staleEnd h) (stale_record_key since target) ↔ since ≤ h := by
  unfold staleEnd
  split
  · rename_i hnext
    rw [inRange_cons]
    constructor
    · rintro ⟨rest, he, hlt⟩
      obtain rfl := (List.cons.inj he).2
      rw [u64Be_append_lt, UInt64.lt_iff_toNat_lt, toNat_next hnext] at hlt
      exact UInt64.le_iff_toNat_le.mpr (by omega)
    · intro hle
      refine ⟨_, rfl, ?_⟩
      rw [u64Be_append_lt]
      exact lt_next_of_le hnext hle
  · rename_i hlast
    rw [inRange_all]
    refine ⟨fun _ => ?_, fun _ => ⟨_, rfl⟩⟩
    have := since.toNat_lt
    exact UInt64.le_iff_toNat_le.mpr (by omega)

theorem stale_head (he : InRange [REC_STALE] (staleEnd h) e) : ∃ rest, e = REC_STALE :: rest := by
  unfold staleEnd at he
  split at he
  · obtain ⟨rest, hr, -⟩ := inRange_cons.mp he
    exact ⟨rest, hr⟩
  · exact inRange_all.mp he

theorem exists_stale_key (he : InRange [REC_STALE] (staleEnd h) e)
    (hlen : ¬ e.length < 10) : ∃ since, since ≤ h ∧ e = stale_record_key since (e.drop 9) := by
  obtain ⟨rest, rfl⟩ := stale_head he
  have hkey : REC_STALE :: rest = stale_record_key (u64OfBe (rest.take 8)) ((REC_STALE :: rest).drop 9) := by
    unfold stale_record_key
    rw [u64Be_u64OfBe _ (by simp at hlen ⊢; omega), List.drop_succ_cons, List.take_append_drop]
  refine ⟨u64OfBe (rest.take 8), ?_, hkey⟩
  rw [hkey] at he
  exact inRange_stale.mp he

theorem inRange_root {v : UInt64} : InRange [REC_ROOT] (REC_ROOT :: u64Be h) (root_record_key v) ↔ v < h := by
  rw [inRange_cons]
  have hlt := u64Be_append_lt v h []
  rw [List.append_nil] at hlt
  constructor
  · rintro ⟨rest, he, hc⟩
    obtain rfl := (List.cons.inj he).2
    exact hlt.mp hc
  · intro hv
    exact ⟨_, rfl, hlt.mpr hv⟩

end Ranges

/-! ## What a pruning takes -/

/-- Stale entries up to `h`, what they name, and root records below `h`. -/
def Doomed (h : UInt64) (T : Table) (k : Bytes) : Prop :=
  (∃ since target, since ≤ h ∧ T (stale_record_key since target) ≠ none ∧
    (k = stale_record_key since target ∨ k = target)) ∨
  ∃ rest, k = REC_ROOT :: rest ∧ InRange [REC_ROOT] (REC_ROOT :: u64Be h) k

/-- Only doomed records go, and a stale record not before its target. -/
structure Reclaims (h : UInt64) (T T' : Table) : Prop where
  taken : ∀ k, T' k = T k ∨ T' k = none ∧ Doomed h T k
  targets : (∀ since target, T (stale_record_key since target) ≠ none → target.head? ≠ some REC_STALE) →
    ∀ since target, since ≤ h → T (stale_record_key since target) ≠ none →
      T' (stale_record_key since target) = none → T' target = none

/-- Nothing that is due is left. -/
structure Cleared (h : UInt64) (T : Table) : Prop where
  stale : ∀ since target, since ≤ h → T (stale_record_key since target) = none
  roots : ∀ v, v < h → T (root_record_key v) = none

omit [KvBackend B] in
theorem reclaims_of_swept {T T1 T' : Table}
    (h1 : Swept [REC_STALE] (staleEnd h) (fun k => k.length < 10) (fun k => [k.drop 9, k]) T T1)
    (h2 : Swept [REC_ROOT] (REC_ROOT :: u64Be h) (fun _ => false) (fun k => [k]) T1 T') : Reclaims h T T' := by
  have hroot : ∀ k, T' k = T1 k ∨ T' k = none ∧ Doomed h T k := by
    intro k
    refine (h2.taken k).imp_right fun ⟨hnone, e, he, _, hk⟩ => ⟨hnone, .inr ?_⟩
    obtain rfl := List.mem_singleton.mp hk
    obtain ⟨rest, hr, -⟩ := inRange_cons.mp he.1
    exact ⟨rest, hr, he.1⟩
  refine ⟨fun k => ?_, fun hplain since target hs hin hnone => ?_⟩
  · rcases hroot k with hk | hdoom
    · rw [hk]
      refine (h1.taken k).imp_right fun ⟨hnone, e, he, hlong, hk⟩ => ⟨hnone, .inl ?_⟩
      obtain ⟨since, hs, hkey⟩ := exists_stale_key he.1 (by simpa using hlong)
      have hin := he.2
      simp only [List.mem_cons, List.not_mem_nil, or_false] at hk
      rw [hkey] at hin
      refine ⟨since, e.drop 9, hs, hin, ?_⟩
      rcases hk with hk | hk
      · exact .inr hk
      · exact .inl (hk.trans hkey)
    · exact .inr hdoom
  · have hT1 : T1 (stale_record_key since target) = none := by
      rcases h2.taken (stale_record_key since target) with he | ⟨-, e, he, -, hk⟩
      · rw [← he]
        exact hnone
      · obtain rfl := List.mem_singleton.mp hk
        obtain ⟨rest, hr, -⟩ := inRange_cons.mp he.1
        exact (tag_ne hr).elim
    have hdrop : (stale_record_key since target).drop 9 = target := by
      unfold stale_record_key
      rw [List.drop_succ_cons, List.drop_left' (by simp)]
    refine h2.gone (h1.whole (fun e e' he he' hdoom => ?_) _ ⟨inRange_stale.mpr hs, hin⟩ hT1 target ?_)
    · -- No entry names another entry.
      simp only [List.mem_cons, List.not_mem_nil, or_false] at hdoom
      rcases hdoom with hd | hd
      · obtain ⟨rest, hrest⟩ := stale_head he'.1
        by_cases hlen : e.length < 10
        · rw [List.drop_of_length_le (by omega), hrest] at hd
          simp at hd
        obtain ⟨since', -, hkey⟩ := exists_stale_key he.1 hlen
        have hin' := he.2
        rw [hkey] at hin'
        refine absurd ?_ (hplain since' _ hin')
        rw [← hd, hrest]
        rfl
      · exact hd
    · rw [hdrop]
      exact .head _

section

variable [AtomicBackend B]

theorem pruneStale_spec (stop : Bytes) (fuel : Nat) (stats : PruneStats) (s : MerkleStore B) :
    ∃ (r : Except Fault PruneStats) (b : B), (pruneStale stop fuel stats).exec s = (r, { s with backend := b }) ∧
      Swept [REC_STALE] stop (fun k => k.length < 10) (fun k => [k.drop 9, k]) s.table (AtomicBackend.table b) ∧
      ∀ stats', r = .ok stats' → ∀ e, ¬ InTable [REC_STALE] stop (AtomicBackend.table b) e := by
  rw [pruneStale_eq_sweep]
  exact sweep_spec (fun e => .tail _ (.head _)) fuel stats s

theorem prune_cases (fuel : Nat) (before_version : UInt64) (s : MerkleStore B) :
    (s.version < horizon s.snapshot_pin before_version ∧ ∃ m,
      (prune fuel before_version).exec s = (.error (.err (.invalid m)), s)) ∨
    (horizon s.snapshot_pin before_version ≤ s.version ∧ ∃ (r : Except Fault PruneStats) (b : B),
      (prune fuel before_version).exec s = (r, { s with backend := b, cache := s.cache.clear }) ∧
      Reclaims (horizon s.snapshot_pin before_version) s.table (AtomicBackend.table b) ∧
      ∀ stats, r = .ok stats → Cleared (horizon s.snapshot_pin before_version) (AtomicBackend.table b)) := by
  unfold prune
  rw [exec_bind_ok (exec_state s)]
  by_cases hle : horizon s.snapshot_pin before_version > s.version
  · rw [if_pos hle]
    exact .inl ⟨hle, _, rfl⟩
  rw [if_neg hle, exec_bind_ok (exec_update _ s)]
  refine .inr ⟨UInt64.not_lt.mp hle, ?_⟩
  obtain ⟨r1, b1, hexec1, hswept1, hdone1⟩ := pruneStale_spec (staleEnd (horizon s.snapshot_pin before_version)) fuel {}
    ({ s with cache := s.cache.clear } : MerkleStore B)
  rcases r1 with e | stats1
  · rw [Method.exec_bind_error hexec1]
    exact ⟨_, b1, rfl, reclaims_of_swept hswept1 (Swept.refl ..), by simp⟩
  rw [exec_bind_ok hexec1]
  rw [pruneRoots_eq_sweep]
  obtain ⟨r, b, hexec, hswept, hdone⟩ := sweep_spec (fun e => .head _) fuel stats1
    ({ s with cache := s.cache.clear, backend := b1 } : MerkleStore B)
  refine ⟨r, b, hexec, reclaims_of_swept hswept1 hswept, fun stats hok => ⟨fun since target hs => ?_, fun v hv => ?_⟩⟩
  · by_contra hne
    exact hdone1 stats1 rfl _ ⟨inRange_stale.mpr hs, hswept.sub hne⟩
  · by_contra hne
    exact hdone stats hok _ ⟨inRange_root.mpr hv, hne⟩

end

theorem prune_ok [HonestBackend B] (before_version : UInt64) (s : MerkleStore B)
    (hle : horizon s.snapshot_pin before_version ≤ s.version)
    (hlong : ∀ k, s.table (REC_STALE :: k) ≠ none → 9 ≤ k.length) :
    ∃ n, ∀ fuel, n ≤ fuel → ∃ stats, ((prune fuel before_version).exec s).1 = .ok stats := by
  obtain ⟨l1, -, -, -, hl1⟩ := scan_cases [REC_STALE] (staleEnd (horizon s.snapshot_pin before_version)) 0 s
  obtain ⟨l2, -, -, -, hl2⟩ := scan_cases [REC_ROOT] (REC_ROOT :: u64Be (horizon s.snapshot_pin before_version)) 0 s
  refine ⟨l1.length + l2.length + 1, fun fuel hfuel => ?_⟩
  unfold prune
  rw [exec_bind_ok (exec_state s), if_neg (UInt64.not_lt.mpr hle), exec_bind_ok (exec_update _ s)]
  obtain ⟨r, b, hexec, hswept, -⟩ := pruneStale_spec (staleEnd (horizon s.snapshot_pin before_version)) fuel {}
    ({ s with cache := s.cache.clear } : MerkleStore B)
  obtain ⟨stats, hok⟩ : ∃ stats, r = .ok stats := by
    have hfst := congrArg Prod.fst hexec
    rw [pruneStale_eq_sweep] at hfst
    have hnot : ∀ e, InTable [REC_STALE] (staleEnd (horizon s.snapshot_pin before_version)) s.table e →
        decide (e.length < 10) = false := by
      intro e he
      obtain ⟨rest, rfl⟩ := stale_head he.1
      have := hlong rest he.2
      simp
      omega
    obtain ⟨stats, hstats⟩ := sweep_ok (fun e => .tail _ (.head _)) fuel {}
      ({ s with cache := s.cache.clear } : MerkleStore B) hnot l1 hl1 (by omega)
    exact ⟨stats, hfst.symm.trans hstats⟩
  subst hok
  rw [exec_bind_ok hexec, pruneRoots_eq_sweep]
  obtain ⟨l3, -, -, -, hl3⟩ := scan_cases [REC_ROOT] (REC_ROOT :: u64Be (horizon s.snapshot_pin before_version)) 0
    ({ s with cache := s.cache.clear, backend := b } : MerkleStore B)
  have hsub := subset_of_range hl2 hl3 fun k => (hswept.taken k).imp_right And.left
  have hlen := ((nodup_of_range hl3).subperm hsub).length_le
  exact sweep_ok (fun e => .head _) fuel stats _ (fun _ _ => rfl) l3 hl3 (by omega)

section

omit [KvBackend B]

/-! ## What it spares -/

theorem Reclaims.spares {k : Bytes} (hrec : Reclaims h T T')
    (hstale : k.head? ≠ some REC_STALE) (hroot : ¬ InRange [REC_ROOT] (REC_ROOT :: u64Be h) k)
    (hno : ∀ since, since ≤ h → T (stale_record_key since k) = none) : T' k = T k := by
  rcases hrec.taken k with hk | ⟨-, ⟨since, target, hs, hin, rfl | rfl⟩ | ⟨rest, -, hr⟩⟩
  · exact hk
  · exact absurd rfl hstale
  · exact absurd (hno since hs) hin
  · exact absurd hr hroot

theorem Ref.key_head (r : Ref) : r.key.head? ≠ some REC_STALE ∧ r.key.head? ≠ some REC_ROOT := by
  cases r <;> simp [Ref.key, REC_NODE, REC_VALUE, REC_STALE, REC_ROOT]

theorem Reclaims.spares_ref {r : Ref} (hrec : Reclaims h T T')
    (hno : ∀ since, since ≤ h → T (stale_record_key since r.key) = none) : T' r.key = T r.key := by
  obtain ⟨hs, hr⟩ := Ref.key_head r
  refine hrec.spares hs (fun hin => ?_) hno
  obtain ⟨rest, he, -⟩ := inRange_cons.mp hin
  rw [he] at hr
  exact hr rfl

def Shaped (s : Table) : Prop :=
  ∀ k, s (REC_STALE :: k) ≠ none → ∃ since r, REC_STALE :: k = stale_record_key since (Ref.key r)

theorem Reclaims.spares_root {h v : UInt64} (hrec : Reclaims h T T') (hT : Shaped T) (hv : h ≤ v) :
    T' (root_record_key v) = T (root_record_key v) := by
  refine hrec.spares (by simp [REC_STALE, REC_ROOT]) (fun hin => ?_) fun since _ => ?_
  · exact absurd hv (UInt64.not_le.mpr (inRange_root.mp hin))
  · by_contra hne
    obtain ⟨since', r, he⟩ := hT _ hne
    have hkey := (stale_record_key_inj he).2
    exact (Ref.key_head r).2 (by rw [← hkey]; rfl)

end

end MerkleStore

end EnclaveOs.Merkle
