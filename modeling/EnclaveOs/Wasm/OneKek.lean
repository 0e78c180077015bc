import EnclaveOs.Wasm.VaultKey

/-! # One KEK for a handle -/

open Function (update update_apply update_eq_self update_of_ne update_self)
open Multiset (mem_add mem_of_le mem_singleton replicate)

namespace EnclaveOs.Wasm

open Lib Lib.Tasks

/-! ## Enclaves that resolve one handle -/

/-- An order of the `n` vaults, and randomness of its own. -/
structure Caller (n : Nat) where
  endpoints : List Nat
  perm : endpoints.Perm (List.range n)
  grant : String
  entropy : Entropy

/-- What is known of the vaults, and the KEKs that calls have returned. -/
inductive Token where
  | holds (vault : Nat) (material : Bytes)
  | answer (kek : Bytes)
deriving DecidableEq

variable {n k : Nat} {m : Vaults}

def call (k : Nat) (c : Caller n) : VaultM (Multiset Token) := do
  let out ← resolve_or_provision ⟨c.endpoints, k⟩ c.grant c.entropy
  Prog.perform Op.report
  match out with
  | .ok kek => pure {.answer kek}
  | .error _ => pure 0

abbrev System := Tasks Op Ans Vaults Token

section System

variable {ι : Type} (k : Nat) (caller : ι → Caller n)

def start : System := ⟨fun _ => none, 0, []⟩

def run (sched : List (Tasks.Turn ι Net)) : System :=
  Tasks.run respond (fun _ => 0) (fun i => call k (caller i)) start sched

/-- No two callers draw the same generation. -/
def Distinct : Prop :=
  ∀ i j g, (caller i).entropy.generation = some g → (caller j).entropy.generation = some g → i = j

end System

/-- In every schedule of any callers, two answers are one key. -/
def OneKek (n k : Nat) : Prop :=
  ∀ (ι : Type) (caller : ι → Caller n), Distinct caller → ∀ (sched : List (Tasks.Turn ι Net)) (kek kek' : Bytes),
    Token.answer kek ∈ (run k caller sched).hand → Token.answer kek' ∈ (run k caller sched).hand → kek = kek'

/-- The share that a caller's deal gives to the vault `v`. -/
def Dealt (k : Nat) (c : Caller n) (v : Nat) (p : Bytes) : Prop :=
  n ≤ 255 ∧ ∃ kek g i, c.entropy.kek = some kek ∧ c.entropy.generation = some g ∧ c.endpoints[i]? = some v ∧
    p = encode_share g (share_at (table c.entropy.coeffs k) kek i)

theorem length_endpoints (c : Caller n) : c.endpoints.length = n := by
  rw [c.perm.length_eq, List.length_range]

theorem decode_share_encode_share {g : Bytes} (hg : g.length = GENERATION_SIZE) {s : Share} (hx : s.x ≠ 0)
    (hdata : s.data ≠ []) : decode_share (encode_share g s) = .ok (g, s) := by
  have hpos : 0 < s.data.length := List.length_pos_iff.mpr hdata
  have hlen : (encode_share g s).length = GENERATION_SIZE + 1 + s.data.length := by
    simp [encode_share, hg]
    omega
  have hdrop : (encode_share g s).drop GENERATION_SIZE = s.x :: s.data := by simp [encode_share, ← hg]
  have htake : (encode_share g s).take GENERATION_SIZE = g := by simp [encode_share, ← hg]
  rw [decode_share, hlen, if_neg (by omega), hdrop]
  dsimp only
  rw [if_neg hx, htake]

theorem Dealt.decode {c : Caller n} {v : Nat} {p : Bytes} (h : Dealt k c v p) :
    ∃ kek g i, c.entropy.kek = some kek ∧ c.entropy.generation = some g ∧ c.endpoints[i]? = some v ∧
      decode_share p = .ok (g, share_at (table c.entropy.coeffs k) kek i) := by
  obtain ⟨hn, kek, g, i, hkek, hg, hi, rfl⟩ := h
  have hlt : i < n := by
    have := (List.getElem?_eq_some_iff.mp hi).1
    rwa [length_endpoints] at this
  refine ⟨kek, g, i, hkek, hg, hi, decode_share_encode_share (c.entropy.generation_size g hg) ?_ ?_⟩
  · intro hzero
    have hnat := congrArg UInt8.toNat hzero
    rw [share_at, UInt8.toNat_ofNat_of_lt' (show i + 1 < 256 by omega)] at hnat
    simp at hnat
  · intro hnil
    have hlen := congrArg List.length hnil
    rw [share_at, length_data_at, c.entropy.kek_size kek hkek] at hlen
    exact absurd hlen (by decide)

/-! ## What holds in every state -/

section Invariant

variable {ι : Type} (k : Nat) (caller : ι → Caller n)

/-- At least `k` vaults hold shares that one caller dealt of this KEK. -/
def Backed (m : Vaults) (kek : Bytes) : Prop :=
  ∃ i, (caller i).entropy.kek = some kek ∧ ∃ S : Finset Nat, S ⊆ Finset.range n ∧ k ≤ S.card ∧
    ∀ v ∈ S, ∃ p, m v = some p ∧ Dealt k (caller i) v p

/-- What a token says about the vaults. -/
def Token.Fact (m : Vaults) : Token → Prop
  | .holds v p => m v = some p
  | .answer kek => Backed k caller m kek

/-- Vaults hold dealt shares only, and every token is true. -/
def Inv (m : Vaults) (T : Multiset Token) : Prop :=
  (∀ v p, m v = some p → ∃ i, Dealt k (caller i) v p) ∧ ∀ t ∈ T, t.Fact k caller m

variable {k caller}

def Keeps (m m' : Vaults) : Prop := ∀ v p, m v = some p → m' v = some p

variable {m : Vaults} {r r' : Multiset Token} {i : ι} {v : Nat} {p g : Bytes} {eps : List Nat} {c : Caller n}
  {shares : List Share} {s : Share} {by_gen : List (Bytes × List Share)}

theorem Token.Fact.mono {m' : Vaults} (hm : Keeps m m') {t : Token} (h : t.Fact k caller m) : t.Fact k caller m' := by
  cases t with
  | holds v p => exact hm v p h
  | answer kek =>
    obtain ⟨i, hkek, S, hS, hk, hall⟩ := h
    refine ⟨i, hkek, S, hS, hk, fun v hv => ?_⟩
    obtain ⟨p, hp, hd⟩ := hall v hv
    exact ⟨p, hm v p hp, hd⟩

theorem Inv.change {m' : Vaults} {others : Multiset Token} (h : Inv k caller m (r + others))
    (hm : Keeps m m') (hdealt : ∀ v p, m' v = some p → m v = some p ∨ ∃ i, Dealt k (caller i) v p)
    (hr : ∀ t ∈ r', t ∈ r ∨ t.Fact k caller m') : Inv k caller m' (r' + others) := by
  refine ⟨fun v p hp => ?_, fun t ht => ?_⟩
  · rcases hdealt v p hp with hold | hnew
    · exact h.1 v p hold
    · exact hnew
  · rcases mem_add.mp ht with hin | hother
    · rcases hr t hin with hmem | hfact
      · exact (h.2 t (mem_add.mpr (.inl hmem))).mono hm
      · exact hfact
    · exact (h.2 t (mem_add.mpr (.inr hother))).mono hm

theorem does_export (v : Nat) (r : Multiset Token) :
    Does respond (Inv k caller) (fun reply r' =>
      match reply with
      | .ok p => r' = r + {Token.holds v p}
      | .error _ => r' = r) (Prog.perform (Op.exportKey v)) r := by
  refine Moves.does fun m net others h => ?_
  have hkeep : Keeps m m := fun v p hp => hp
  cases net with
  | fine =>
    rcases hv : m v with _ | p
    · exact ⟨r, h, by simp [respond, export_key, hv]⟩
    refine ⟨r + {.holds v p}, h.change hkeep (fun v p hp => .inl hp) fun t ht => ?_, by
      simp [respond, export_key, hv]⟩
    rcases mem_add.mp ht with hmem | hmem
    · exact .inl hmem
    · rw [mem_singleton.mp hmem]
      exact .inr hv
  | unreachable | lost => exact ⟨r, h, by simp [respond, export_key]⟩
  | refused =>
    refine ⟨r, h, ?_⟩
    cases hv : m v <;> simp [respond, export_key, hv]

theorem does_create (hd : Dealt k (caller i) v p) (r : Multiset Token) :
    Does respond (Inv k caller) (fun reply r' =>
      match reply with
      | .ok _ => r' = r + {Token.holds v p}
      | .error _ => r' = r) (Prog.perform (Op.createKey v p)) r := by
  refine Moves.does fun m net others h => ?_
  obtain ⟨hsame, hnew, hack, hempty⟩ : (∀ q, m v = some q → (create_key (m v) p net).2 = some q) ∧
      (∀ q, (create_key (m v) p net).2 = some q → m v = some q ∨ q = p) ∧
      ((create_key (m v) p net).1 = .ok [] → (create_key (m v) p net).2 = some p) ∧
      ∀ b, (create_key (m v) p net).1 = .ok b → b = [] := by
    cases net <;> cases m v <;> simp [create_key]
  have hkeep : Keeps m (respond (.createKey v p) net m).2 := by
    intro u q hq
    simp only [respond, update_apply]
    split
    · rename_i huv
      exact hsame q (huv ▸ hq)
    · exact hq
  have hdealt : ∀ u q, (respond (.createKey v p) net m).2 u = some q →
      m u = some q ∨ ∃ i, Dealt k (caller i) u q := by
    intro u q hq
    simp only [respond, update_apply] at hq
    split at hq
    · rename_i huv
      rcases hnew q hq with hold | rfl
      · exact .inl (huv ▸ hold)
      · exact .inr ⟨i, huv ▸ hd⟩
    · exact .inl hq
  rcases hreply : (create_key (m v) p net).1 with err | b
  · refine ⟨r, h.change hkeep hdealt fun t ht => .inl ht, ?_⟩
    simp [respond, hreply]
  refine ⟨r + {.holds v p}, h.change hkeep hdealt fun t ht => ?_, by simp [respond, hreply]⟩
  rcases mem_add.mp ht with hmem | hmem
  · exact .inl hmem
  rw [mem_singleton.mp hmem]
  refine .inr ?_
  show (respond (.createKey v p) net m).2 v = some p
  simp only [respond, update_self]
  exact hack (by rw [hreply, hempty b hreply])

/-- The shares of one generation come from exports of different endpoints. -/
def Group (r : Multiset Token) (eps : List Nat) (g : Bytes) (shares : List Share) : Prop :=
  ∃ exports : List (Nat × Bytes), (exports.map Prod.fst).Sublist eps ∧
    (∀ e ∈ exports, Token.holds e.1 e.2 ∈ r) ∧
    List.Forall₂ (fun e s => decode_share e.2 = .ok (g, s)) exports shares

theorem Group.mono (h : Group r eps g shares) (hr : r ≤ r') (v : Nat) : Group r' (eps ++ [v]) g shares := by
  obtain ⟨exports, hsub, hheld, hdec⟩ := h
  exact ⟨exports, hsub.trans (List.sublist_append_left _ _), fun e he => mem_of_le hr (hheld e he), hdec⟩

theorem Group.snoc (h : Group r eps g shares) (hr : r ≤ r') (hv : Token.holds v p ∈ r')
    (hp : decode_share p = .ok (g, s)) : Group r' (eps ++ [v]) g (shares ++ [s]) := by
  obtain ⟨exports, hsub, hheld, hdec⟩ := h
  refine ⟨exports ++ [(v, p)], ?_, fun e he => ?_, List.rel_append hdec (.cons hp .nil)⟩
  · rw [List.map_append]
    exact hsub.append (List.Sublist.refl _)
  · rcases List.mem_append.mp he with hold | hnew
    · exact mem_of_le hr (hheld e hold)
    · rwa [List.mem_singleton.mp hnew]

theorem mem_push_share {gen : Bytes} (h : (g, shares) ∈ push_share gen s by_gen) :
    (g, shares) ∈ by_gen ∨ g = gen ∧ ∃ old, (old = [] ∨ (g, old) ∈ by_gen) ∧ shares = old ++ [s] := by
  induction by_gen with
  | nil =>
    simp only [push_share, List.mem_singleton, Prod.mk.injEq] at h
    exact .inr ⟨h.1, [], .inl rfl, h.2⟩
  | cons entry rest ih =>
    obtain ⟨g', old⟩ := entry
    unfold push_share at h
    split at h
    · rename_i hgen
      rcases List.mem_cons.mp h with heq | hrest
      · obtain ⟨rfl, rfl⟩ := Prod.mk.inj heq
        exact .inr ⟨hgen, old, .inr (.head _), rfl⟩
      · exact .inl (.tail _ hrest)
    · rcases List.mem_cons.mp h with heq | hrest
      · exact .inl (heq ▸ List.mem_cons_self)
      · rcases ih hrest with hold | ⟨hgen, old', hmem, hshares⟩
        · exact .inl (.tail _ hold)
        · exact .inr ⟨hgen, old', hmem.imp_right (List.mem_cons_of_mem _), hshares⟩

def Groups (r : Multiset Token) (eps : List Nat) (by_gen : List (Bytes × List Share)) : Prop :=
  ∀ g shares, (g, shares) ∈ by_gen → Group r eps g shares

theorem Groups.push (h : Groups r eps by_gen) (hr : r ≤ r') (hv : Token.holds v p ∈ r') {gen : Bytes}
    (hp : decode_share p = .ok (gen, s)) : Groups r' (eps ++ [v]) (push_share gen s by_gen) := by
  intro g shares hmem
  rcases mem_push_share hmem with hold | ⟨rfl, old, hold | hold, rfl⟩
  · exact (h g shares hold).mono hr v
  · subst hold
    exact Group.snoc ⟨[], List.nil_sublist _, by simp, .nil⟩ hr hv hp
  · exact (h g old hold).snoc hr hv hp

theorem does_collect (eps done : List Nat) (found : Found) (r : Multiset Token) (h : Groups r done found.by_gen) :
    Does respond (Inv k caller) (fun found' r' => Groups r' (done ++ eps) found'.by_gen)
      (collect_shares eps found) r := by
  induction eps generalizing done found r with
  | nil =>
    rw [List.append_nil]
    exact h
  | cons v eps ih =>
    have hassoc : done ++ v :: eps = (done ++ [v]) ++ eps := by simp
    rw [hassoc]
    refine (does_export v r).bind fun reply r' hreply => ih _ _ _ ?_
    have hsame : Groups r (done ++ [v]) found.by_gen := fun g shares hm => (h g shares hm).mono le_rfl v
    rcases reply with err | p
    · subst hreply
      cases err <;> exact hsame
    subst hreply
    have hle : r ≤ r + {Token.holds v p} := Multiset.le_add_right _ _
    rcases hp : decode_share p with msg | decoded
    · simp only [Found.add, hp]
      exact fun g shares hm => (h g shares hm).mono hle v
    · simp only [Found.add, hp]
      exact h.push hle (by simp) hp

theorem best_group_mem {best : Option (List Share)} (h : best_group k by_gen best = some shares) :
    best = some shares ∨ k ≤ shares.length ∧ ∃ g, (g, shares) ∈ by_gen := by
  induction by_gen generalizing best with
  | nil => exact .inl h
  | cons entry rest ih =>
    obtain ⟨g, group⟩ := entry
    unfold best_group at h
    split at h
    · rename_i hlarge
      rcases ih h with heq | ⟨hk, g', hmem⟩
      · cases heq
        exact .inr ⟨hlarge.1, g, .head _⟩
      · exact .inr ⟨hk, g', .tail _ hmem⟩
    · exact (ih h).imp_right fun ⟨hk, g', hmem⟩ => ⟨hk, g', .tail _ hmem⟩

/-! ## Groups and acknowledgements back a KEK -/

def dealt_share (k : Nat) (c : Caller n) (kek : Bytes) (v : Nat) : Share :=
  share_at (table c.entropy.coeffs k) kek (c.endpoints.idxOf v)

theorem idxOf_lt (c : Caller n) (hv : v ∈ c.endpoints) : c.endpoints.idxOf v < n := by
  have hlt := List.idxOf_lt_length_of_mem hv
  rwa [length_endpoints] at hlt

theorem nodup_endpoints (c : Caller n) : c.endpoints.Nodup := c.perm.nodup_iff.mpr List.nodup_range

theorem Dealt.share (h : Dealt k c v p)
    (hp : decode_share p = .ok (g, s)) : c.entropy.generation = some g ∧ v ∈ c.endpoints ∧
      ∃ kek, c.entropy.kek = some kek ∧ s = dealt_share k c kek v := by
  obtain ⟨kek, g', i, hkek, hg, hi, hdec⟩ := h.decode
  obtain ⟨rfl, rfl⟩ := Prod.mk.inj (Except.ok.inj (hdec.symm.trans hp))
  obtain ⟨hlt, rfl⟩ := List.getElem?_eq_some_iff.mp hi
  refine ⟨hg, List.getElem_mem hlt, kek, hkek, ?_⟩
  rw [dealt_share, (nodup_endpoints c).idxOf_getElem i hlt]

theorem nodup_dealt (hn : n ≤ 255) (c : Caller n) (kek : Bytes) {vs : List Nat} (hvs : vs.Nodup)
    (hmem : ∀ v ∈ vs, v ∈ c.endpoints) : ((vs.map (dealt_share k c kek)).map Share.x).Nodup := by
  rw [List.map_map]
  refine List.Nodup.map_on (fun u hu v hv huv => ?_) hvs
  have hult := idxOf_lt c (hmem u hu)
  have hvlt := idxOf_lt c (hmem v hv)
  have hnat := congrArg UInt8.toNat huv
  simp only [Function.comp_apply, dealt_share, share_at] at hnat
  rw [UInt8.toNat_ofNat_of_lt' (show _ < 256 by omega), UInt8.toNat_ofNat_of_lt' (show _ < 256 by omega)] at hnat
  exact (List.idxOf_inj (hmem u hu)).mp (by omega)

theorem backed_of_list {kek : Bytes} (hkek : (caller i).entropy.kek = some kek) {vs : List Nat}
    (heps : eps.Perm (List.range n)) (hsub : vs.Sublist eps) (hk : k ≤ vs.length)
    (hall : ∀ v ∈ vs, ∃ p, m v = some p ∧ Dealt k (caller i) v p) : Backed k caller m kek := by
  have hnodup : vs.Nodup := (heps.nodup_iff.mpr List.nodup_range).sublist hsub
  refine ⟨i, hkek, vs.toFinset, fun v hv => ?_, ?_, fun v hv => hall v (List.mem_toFinset.mp hv)⟩
  · exact Finset.mem_range.mpr (List.mem_range.mp (heps.mem_iff.mp (hsub.subset (List.mem_toFinset.mp hv))))
  · rwa [List.toFinset_card_of_nodup hnodup]

theorem Group.backed (hdist : Distinct caller) (hk : 2 ≤ k) {others : Multiset Token}
    (h : Group r eps g shares) (heps : eps.Perm (List.range n)) (hlen : k ≤ shares.length)
    (hinv : Inv k caller m (r + others)) :
    ∃ kek, shamir_reconstruct shares = .ok kek ∧ Backed k caller m kek := by
  obtain ⟨exports, hsub, hheld, hdec⟩ := h
  have hlength := hdec.length_eq
  -- every export is what some caller dealt, and the generation tells which
  have hsome : ∀ e ∈ exports, ∃ i, m e.1 = some e.2 ∧ Dealt k (caller i) e.1 e.2 := fun e he => by
    have hfact : m e.1 = some e.2 := hinv.2 _ (mem_add.mpr (.inl (hheld e he)))
    obtain ⟨i, hd⟩ := hinv.1 e.1 e.2 hfact
    exact ⟨i, hfact, hd⟩
  have hboth := (List.forall₂_and_left exports shares).mpr ⟨hsome, hdec⟩
  obtain ⟨e, rest, rfl⟩ := List.exists_cons_of_length_pos (show 0 < exports.length by omega)
  cases hboth with
  | cons hfirst hrest =>
    rename_i s tail
    obtain ⟨⟨i, -, hd⟩, hp⟩ := hfirst
    obtain ⟨hgen, -, kek, hkek, -⟩ := hd.share hp
    have hone : ∀ (e : Nat × Bytes) (s : Share), (∃ j, m e.1 = some e.2 ∧ Dealt k (caller j) e.1 e.2) ∧
        decode_share e.2 = .ok (g, s) → (m e.1 = some e.2 ∧ Dealt k (caller i) e.1 e.2) ∧
          s = dealt_share k (caller i) kek e.1 := by
      rintro e s ⟨⟨j, hheld, hdealt⟩, hp⟩
      obtain ⟨hgen', -, kek', hkek', hs⟩ := hdealt.share hp
      obtain rfl := hdist j i g hgen' hgen
      obtain rfl := Option.some.inj (hkek'.symm.trans hkek)
      exact ⟨⟨hheld, hdealt⟩, hs⟩
    have hdealt := (List.forall₂_and_left (e :: rest) (s :: tail)).mp
      (((List.forall₂_and_left _ _).mpr ⟨hsome, hdec⟩).imp fun e s he => hone e s he)
    have hshares : s :: tail = ((e :: rest).map Prod.fst).map (dealt_share k (caller i) kek) := by
      rw [List.map_map, ← List.forall₂_eq_eq_eq, List.forall₂_map_right_iff]
      exact hdealt.2.flip
    have hin : ∀ v ∈ (e :: rest).map Prod.fst, ∃ p, m v = some p ∧ Dealt k (caller i) v p := by
      rintro v hv
      obtain ⟨e', he', rfl⟩ := List.mem_map.mp hv
      exact ⟨e'.2, hdealt.1 e' he'⟩
    have hmem : ∀ v ∈ (e :: rest).map Prod.fst, v ∈ (caller i).endpoints := fun v hv =>
      (caller i).perm.mem_iff.mpr (heps.mem_iff.mp (hsub.subset hv))
    have hnodup := (heps.nodup_iff.mpr List.nodup_range).sublist hsub
    refine ⟨kek, ?_, backed_of_list hkek heps hsub (by rw [List.length_map]; omega) hin⟩
    rw [hshares]
    refine shamir_reconstruct_eq (c := table (caller i).entropy.coeffs k) ?_ (nodup_dealt hd.1 _ _ hnodup hmem) ?_
    · rw [← hshares]
      omega
    · intro s hs
      obtain ⟨v, -, rfl⟩ := List.mem_map.mp hs
      rfl

theorem does_create_share (hd : Dealt k (caller i) v p) (tries : Nat) (r : Multiset Token) :
    Does respond (Inv k caller) (fun ack r' => ack ≤ 1 ∧ r' = r + replicate ack (Token.holds v p))
      (create_share v p tries) r := by
  induction tries with
  | zero => exact ⟨Nat.zero_le 1, (add_zero r).symm⟩
  | succ tries ih =>
    refine (does_create hd r).bind fun reply r' hreply => ?_
    rcases reply with err | b
    · subst hreply
      -- only "already exists" ends the tries
      rcases err with _ | _ | _ | _
      · exact ih
      · exact ih
      · exact ⟨Nat.zero_le 1, (add_zero _).symm⟩
      · exact ih
    · exact ⟨le_rfl, hreply⟩

/-- Each one counted is a vault that holds its share. -/
def Acked (k : Nat) (c : Caller n) (r : Multiset Token) (eps : List Nat) (acks : Nat) : Prop :=
  ∃ vs : List Nat, vs.Sublist eps ∧ acks = vs.length ∧ ∀ v ∈ vs, ∃ p, Token.holds v p ∈ r ∧ Dealt k c v p

theorem Acked.add {acks : Nat} (h : Acked k c r eps acks) (hd : Dealt k c v p) {ack : Nat} (hack : ack ≤ 1) :
    Acked k c (r + replicate ack (Token.holds v p)) (eps ++ [v]) (acks + ack) := by
  obtain ⟨vs, hsub, hlen, hall⟩ := h
  refine ⟨vs ++ List.replicate ack v, hsub.append ?_, by simp [hlen], fun u hu => ?_⟩
  · exact List.replicate_sublist_iff.mpr (by simpa using hack)
  rcases List.mem_append.mp hu with hold | hnew
  · obtain ⟨q, hq, hdq⟩ := hall u hold
    exact ⟨q, mem_add.mpr (.inl hq), hdq⟩
  · obtain ⟨hne, rfl⟩ := List.mem_replicate.mp hnew
    exact ⟨p, mem_add.mpr (.inr (Multiset.mem_replicate.mpr ⟨hne, rfl⟩)), hd⟩

theorem does_create_shares {generation : Bytes} (eps done : List Nat) (shares : List Share) (acks : Nat)
    (r : Multiset Token) (hdealt : ∀ e ∈ eps.zip shares, Dealt k (caller i) e.1 (encode_share generation e.2))
    (h : Acked k (caller i) r done acks) :
    Does respond (Inv k caller) (fun acks' r' => Acked k (caller i) r' (done ++ eps) acks')
      (create_shares generation eps shares acks) r := by
  have hstop : Acked k (caller i) r (done ++ eps) acks := by
    obtain ⟨vs, hsub, hrest⟩ := h
    exact ⟨vs, hsub.trans (List.sublist_append_left _ _), hrest⟩
  induction eps generalizing done shares acks r with
  | nil =>
    unfold create_shares
    exact hstop
  | cons v eps ih =>
    rcases shares with _ | ⟨s, shares⟩
    · exact hstop
    have hassoc : done ++ v :: eps = (done ++ [v]) ++ eps := by simp
    have hd : Dealt k (caller i) v (encode_share generation s) := hdealt (v, s) (by simp)
    rw [hassoc]
    refine (does_create_share hd 2 r).bind fun ack r' ⟨hack, hr'⟩ => ?_
    subst hr'
    have hnext := h.add hd hack
    refine ih _ _ _ _ (fun e he => hdealt e (by simp [he])) hnext ?_
    obtain ⟨vs, hsub, hrest⟩ := hnext
    exact ⟨vs, hsub.trans (List.sublist_append_left _ _), hrest⟩

variable (k caller) in
def Settles (out : Except String Bytes) (r : Multiset Token) : Prop :=
  ∀ kek, out = .ok kek → ∀ m others, Inv k caller m (r + others) → Backed k caller m kek

theorem settles_error (msg : String) (r : Multiset Token) : Settles k caller (.error msg) r :=
  fun _ h => nomatch h

theorem threshold_eq (hk : 2 ≤ k) (eps : List Nat) : VaultConfig.threshold ⟨eps, k⟩ = k := by
  have hne : k ≠ 0 := by omega
  simp [VaultConfig.threshold, hne]

theorem does_provision (hk : 2 ≤ k) (i : ι) (r : Multiset Token) :
    Does respond (Inv k caller) (Settles k caller)
      (provision ⟨(caller i).endpoints, k⟩ (caller i).entropy) r := by
  unfold provision
  split
  · exact settles_error _ r
  rename_i kek hkek
  split
  · exact settles_error _ r
  rename_i generation hgen
  rw [threshold_eq hk, length_endpoints]
  split
  · exact settles_error _ r
  rename_i shares hsplit
  obtain ⟨-, hn, rfl⟩ := shares_of_split hsplit
  have hstart : Acked k (caller i) r [] 0 := ⟨[], List.nil_sublist _, rfl, by simp⟩
  refine (does_create_shares (caller i).endpoints [] _ 0 r (fun e he => ?_) hstart).bind fun acks r' hacked => ?_
  · obtain ⟨j, hj, rfl⟩ := List.getElem_of_mem he
    rw [List.length_zip] at hj
    refine ⟨hn, kek, generation, j, hkek, hgen, ?_, ?_⟩
    · rw [List.getElem_zip, List.getElem?_eq_getElem]
    · simp
  split
  · exact settles_error _ r'
  rename_i hacks
  rintro kek' hout m others hinv
  obtain rfl := Except.ok.inj hout
  obtain ⟨vs, hsub, rfl, hall⟩ := hacked
  refine backed_of_list hkek (caller i).perm hsub (by omega) fun v hv => ?_
  obtain ⟨p, hp, hd⟩ := hall v hv
  exact ⟨p, hinv.2 _ (mem_add.mpr (.inl hp)), hd⟩

section

variable (hdist : Distinct caller)

include hdist

theorem does_resolve (hk : 2 ≤ k) (i : ι) (r : Multiset Token) :
    Does respond (Inv k caller) (Settles k caller)
      (resolve_or_provision ⟨(caller i).endpoints, k⟩ (caller i).grant (caller i).entropy) r := by
  unfold resolve_or_provision
  rw [threshold_eq hk]
  split
  · exact settles_error _ r
  split
  · exact settles_error _ r
  refine (does_collect (caller i).endpoints [] ⟨[], 0, 0⟩ r (fun g shares hm => nomatch hm)).bind
    fun found r' hgroups => ?_
  split
  · rename_i best hbest
    rcases best_group_mem hbest with hnone | ⟨hlen, g, hmem⟩
    · exact nomatch hnone
    rintro kek hout m others hinv
    obtain ⟨kek', hrec, hbacked⟩ := (hgroups g best hmem).backed hdist hk (caller i).perm hlen hinv
    rw [hrec] at hout
    have hto : to_kek kek' = .ok kek := hout
    unfold to_kek at hto
    split at hto
    · exact nomatch hto
    · obtain rfl := Except.ok.inj hto
      exact hbacked
  · split
    · exact settles_error _ r'
    split
    · exact settles_error _ r'
    split
    · exact settles_error _ r'
    · exact does_provision hk i r'

theorem hands_call (hk : 2 ≤ k) (i : ι) : Hands respond (Inv k caller) (call k (caller i)) 0 := by
  refine (does_resolve hdist hk i 0).bind fun out r hsettles m net others hinv => ?_
  rcases out with msg | kek
  · exact ⟨0, hinv.change (fun v p hp => hp) (fun v p hp => .inl hp) (by simp), rfl⟩
  refine ⟨{Token.answer kek}, hinv.change (fun v p hp => hp) (fun v p hp => .inl hp) fun t ht => ?_, rfl⟩
  rw [mem_singleton.mp ht]
  exact .inr (hsettles kek rfl m others hinv)

theorem answer_backed (hk : 2 ≤ k) (sched : List (Tasks.Turn ι Net)) {kek : Bytes}
    (h : Token.answer kek ∈ (run k caller sched).hand) : Backed k caller (run k caller sched).mem kek := by
  have hgood : Good respond (Inv k caller) (start : System) :=
    ⟨0, rfl, ⟨fun v p hp => absurd hp (by simp [start]), fun t ht => absurd ht (by simp [start])⟩⟩
  have hend : Good respond (Inv k caller) (run k caller sched) :=
    hgood.run (hands_call hdist hk) sched
  obtain ⟨R, -, hinv⟩ := hend
  exact hinv.2 _ (mem_add.mpr (.inl h))

theorem Backed.agree (hk : 2 ≤ k) (hn : n < 2 * k ∨ 255 < n) {m : Vaults} {kek kek' : Bytes}
    (h : Backed k caller m kek) (h' : Backed k caller m kek') : kek = kek' := by
  obtain ⟨i, hkek, S, hS, hcard, hall⟩ := h
  obtain ⟨j, hkek', S', hS', hcard', hall'⟩ := h'
  have hne : S.Nonempty := Finset.card_pos.mp (by omega)
  obtain ⟨v0, hv0⟩ := hne
  obtain ⟨p0, -, hfew⟩ := hall v0 hv0
  have hlt : (Finset.range n).card < S.card + S'.card := by
    have := hfew.1
    rw [Finset.card_range]
    omega
  obtain ⟨v, hv⟩ := Finset.inter_nonempty_of_card_lt_card_add_card hS hS' hlt
  obtain ⟨p, hp, hd⟩ := hall v (Finset.mem_inter.mp hv).1
  obtain ⟨p', hp', hd'⟩ := hall' v (Finset.mem_inter.mp hv).2
  obtain rfl := Option.some.inj (hp.symm.trans hp')
  obtain ⟨kek0, g, l, -, hg, -, hdec⟩ := hd.decode
  obtain rfl := hdist j i g (hd'.share hdec).1 hg
  exact Option.some.inj (hkek.symm.trans hkek')

end

end Invariant

theorem oneKek_of_majority (hk : 2 ≤ k) (hn : n < 2 * k ∨ 255 < n) : OneKek n k := by
  intro ι caller hdist sched kek kek' h h'
  exact (answer_backed hdist hk sched h).agree hdist hk hn (answer_backed hdist hk sched h')

/-!
## Two generations side by side

The first caller creates its share in `k` vaults, the second in all that are left.
-/

theorem steps_collect (eps : List Nat) (hm : ∀ v ∈ eps, m v = none) (absent : Nat) :
    Steps respond (collect_shares eps ⟨[], absent, 0⟩) m (List.replicate eps.length .fine)
      (pure ⟨[], absent + eps.length, 0⟩) m := by
  induction eps generalizing absent with
  | nil => exact .refl
  | cons v eps ih =>
    have hv : m v = none := hm v (.head _)
    refine .step ?_
    simp only [respond, export_key, hv, Prog.pure_eq, Found.add]
    have hlen : absent + (v :: eps).length = absent + 1 + eps.length := by
      rw [List.length_cons]
      omega
    rw [hlen]
    exact ih (fun u hu => hm u (.tail _ hu)) (absent + 1)

theorem steps_create_fresh (gen : Bytes) (eps eps' : List Nat) (shares shares' : List Share) (acks : Nat)
    (hlen : eps.length = shares.length) (hnodup : eps.Nodup) (hm : ∀ v ∈ eps, m v = none) :
    ∃ m', Steps respond (create_shares gen (eps ++ eps') (shares ++ shares') acks) m
      (List.replicate eps.length .fine) (create_shares gen eps' shares' (acks + eps.length)) m' ∧
      (∀ v ∈ eps, m' v ≠ none) ∧ ∀ v ∉ eps, m' v = m v := by
  induction eps generalizing shares acks m with
  | nil =>
    obtain rfl := List.length_eq_zero_iff.mp hlen.symm
    exact ⟨m, .refl, by simp, fun _ _ => rfl⟩
  | cons v eps ih =>
    obtain ⟨s, shares, rfl⟩ := List.exists_cons_of_length_pos (by rw [← hlen]; exact Nat.succ_pos _)
    obtain ⟨hv, hnodup⟩ := List.nodup_cons.mp hnodup
    have hnone : m v = none := hm v (.head _)
    obtain ⟨m', hsteps, htaken, hrest⟩ := ih shares (acks + 1) (m := update m v (some (encode_share gen s)))
      (by simpa using hlen) hnodup fun u hu => by
        have hne : u ≠ v := fun h => hv (h ▸ hu)
        rw [update_of_ne hne]
        exact hm u (.tail _ hu)
    refine ⟨m', .step ?_, fun u hu => ?_, fun u hu => ?_⟩
    · have hacks : acks + (v :: eps).length = acks + 1 + eps.length := by
        rw [List.length_cons]
        omega
      simp only [respond, create_key, hnone, Prog.pure_eq]
      rw [hacks]
      exact hsteps
    · rcases List.mem_cons.mp hu with rfl | hu
      · rw [hrest u hv, update_self]
        simp
      · exact htaken u hu
    · have hne : u ≠ v := fun h => hu (h ▸ List.mem_cons_self)
      rw [hrest u fun h => hu (List.mem_cons_of_mem _ h), update_of_ne hne]

theorem steps_create_taken (gen : Bytes) (eps eps' : List Nat) (shares shares' : List Share) (acks : Nat)
    (hlen : eps.length = shares.length) (hm : ∀ v ∈ eps, m v ≠ none) :
    Steps respond (create_shares gen (eps ++ eps') (shares ++ shares') acks) m
      (List.replicate eps.length .fine) (create_shares gen eps' shares' acks) m := by
  induction eps generalizing shares with
  | nil =>
    obtain rfl := List.length_eq_zero_iff.mp hlen.symm
    exact .refl
  | cons v eps ih =>
    obtain ⟨s, shares, rfl⟩ := List.exists_cons_of_length_pos (by rw [← hlen]; exact Nat.succ_pos _)
    obtain ⟨held, hheld⟩ := Option.ne_none_iff_exists'.mp (hm v (.head _))
    have hsame : update m v (some held) = m := by rw [← hheld, update_eq_self]
    refine .step ?_
    simp only [respond, create_key, hheld, Prog.pure_eq, hsame]
    exact ih shares (by simpa using hlen) fun u hu => hm u (.tail _ hu)

def rival (n : Nat) (b : UInt8) : Caller n where
  endpoints := List.range n
  perm := List.Perm.refl _
  grant := "grant"
  entropy :=
    { kek := some (List.replicate KEK_SIZE b)
      generation := some (List.replicate GENERATION_SIZE b)
      coeffs := fun _ => some fun _ => 0
      kek_size := fun _ h => Option.some.inj h ▸ List.length_replicate
      generation_size := fun _ h => Option.some.inj h ▸ List.length_replicate }

def rivals (n : Nat) (first : Bool) : Caller n := rival n (if first then 0 else 1)

theorem distinct_rivals : Distinct (rivals n) := by
  intro i j g hi hj
  have hsame := Option.some.inj (hi.trans hj.symm)
  have hbyte := (List.replicate_inj.mp hsame).2.resolve_left (by decide)
  cases i <;> cases j <;> first | rfl | exact absurd hbyte (by decide)

def rival_shares (n k : Nat) (b : UInt8) : List Share :=
  (List.range n).map (share_at (table (rival n b).entropy.coeffs k) (List.replicate KEK_SIZE b))

def finish (n k : Nat) (b : UInt8) (acks : Nat) : VaultM (Multiset Token) := do
  let out ← (if acks < k then
      pure (.error ("vaultkey: only " ++ toString acks ++ " of " ++ toString n ++
        " vaults accepted a share (threshold " ++ toString k ++ ") — refusing to use an unrecoverable KEK"))
    else pure (.ok (List.replicate KEK_SIZE b)) : VaultM (Except String Bytes))
  Prog.perform Op.report
  match out with
  | .ok kek => pure {.answer kek}
  | .error _ => pure 0

def creating (n k : Nat) (b : UInt8) : VaultM (Multiset Token) :=
  create_shares (List.replicate GENERATION_SIZE b) (List.range n) (rival_shares n k b) 0 >>= finish n k b

theorem provision_rival (hk : 2 ≤ k) (hkn : k ≤ n) (hn : n ≤ 255) (b : UInt8) :
    (provision ⟨List.range n, k⟩ (rival n b).entropy >>= fun out => do
      Prog.perform Op.report
      match out with
      | .ok kek => pure {Token.answer kek}
      | .error _ => pure 0) = creating n k b := by
  have hsplit : shamir_split (rival n b).entropy.coeffs (List.replicate KEK_SIZE b) k n = .ok (rival_shares n k b) :=
    shamir_split_eq hk hkn hn (by simp [KEK_SIZE]) fun _ _ => rfl
  unfold provision
  simp only [rival] at hsplit ⊢
  rw [threshold_eq hk, List.length_range, hsplit]
  exact Prog.bind_assoc _ _ _

theorem steps_absent (hk : 2 ≤ k) (hkn : k ≤ n) (hn : n ≤ 255) (b : UInt8) :
    Steps respond (call k (rival n b)) (fun _ => none) (List.replicate n .fine)
      (creating n k b) fun _ => none := by
  rw [← provision_rival hk hkn hn b]
  have hcollect := steps_collect (List.range n) (m := fun _ => none) (fun _ _ => rfl) 0
  rw [List.length_range] at hcollect
  unfold call resolve_or_provision
  rw [if_neg (by simp [rival]; omega), if_neg (by simpa [rival, threshold_eq hk] using hkn)]
  refine Steps.bind (hcollect.ret_bind ?_) _
  simp [best_group, rival]

theorem steps_finish (b : UInt8) (gen : Bytes) {acks : Nat} (hacks : k ≤ acks) (m : Vaults) :
    Steps respond (create_shares gen [] [] acks >>= finish n k b) m [.fine]
      (.ret {.answer (List.replicate KEK_SIZE b)}) m := by
  have hfinish : create_shares gen [] [] acks >>= finish n k b =
      .step .report fun _ => .ret {.answer (List.replicate KEK_SIZE b)} := by
    simp only [create_shares, Prog.pure_eq, Prog.ret_bind, finish, if_neg (Nat.not_lt.mpr hacks)]
    rfl
  rw [hfinish]
  exact .step .refl

theorem exists_overtaking (hkn : 2 * k ≤ n) : ∃ (p : VaultM (Multiset Token)) (m1 m2 : Vaults) (ws ws' ws'' : List Net),
    Steps respond (creating n k 0) (fun _ => none) ws p m1 ∧
    Steps respond (creating n k 1) m1 ws' (.ret {.answer (List.replicate KEK_SIZE 1)}) m2 ∧
    Steps respond p m2 ws'' (.ret {.answer (List.replicate KEK_SIZE 0)}) m2 := by
  obtain ⟨lower, upper, hrange, hlower, hupper⟩ : ∃ lower upper, List.range n = lower ++ upper ∧
      lower.length = k ∧ upper.length = n - k :=
    ⟨(List.range n).take k, (List.range n).drop k, (List.take_append_drop k _).symm, by simp; omega, by simp⟩
  have hshares (b : UInt8) : ∃ low up, rival_shares n k b = low ++ up ∧ lower.length = low.length ∧
      upper.length = up.length :=
    ⟨(rival_shares n k b).take k, (rival_shares n k b).drop k, (List.take_append_drop k _).symm,
      by simp [rival_shares]; omega, by simp [rival_shares, hupper]⟩
  obtain ⟨low0, up0, hsplit0, hlow0, hup0⟩ := hshares 0
  obtain ⟨low1, up1, hsplit1, hlow1, hup1⟩ := hshares 1
  obtain ⟨hnodup_lower, hnodup_upper, hdisjoint⟩ := List.nodup_append'.mp (hrange ▸ List.nodup_range (n := n))
  -- the first caller reaches the lower vaults
  obtain ⟨m1, hfirst, htaken1, hrest1⟩ := steps_create_fresh (List.replicate GENERATION_SIZE 0) lower upper
    low0 up0 0 (m := fun _ => none) hlow0 hnodup_lower fun _ _ => rfl
  -- the second finds those taken and gets all the others
  have hskip := steps_create_taken (List.replicate GENERATION_SIZE 1) lower upper low1 up1 0 hlow1 htaken1
  obtain ⟨m2, hsecond, htaken2, -⟩ := steps_create_fresh (List.replicate GENERATION_SIZE 1) upper [] up1 [] 0
    (m := m1) hup1 hnodup_upper fun v hv => hrest1 v fun hv' => hdisjoint hv' hv
  have hlast := steps_create_taken (List.replicate GENERATION_SIZE 0) upper [] up0 [] (0 + lower.length) hup0 htaken2
  rw [List.append_nil, List.append_nil] at hsecond hlast
  have hcreating0 : creating n k 0 = create_shares (List.replicate GENERATION_SIZE 0) (lower ++ upper) (low0 ++ up0) 0 >>=
      finish n k 0 := by rw [creating, hrange, hsplit0]
  have hcreating1 : creating n k 1 = create_shares (List.replicate GENERATION_SIZE 1) (lower ++ upper) (low1 ++ up1) 0 >>=
      finish n k 1 := by rw [creating, hrange, hsplit1]
  rw [hcreating0, hcreating1]
  exact ⟨_, m1, m2, _, _, _, hfirst.bind _,
    ((hskip.trans hsecond).bind _).trans (steps_finish 1 _ (by omega) m2),
    (hlast.bind _).trans (steps_finish 0 _ (by omega) m2)⟩

theorem exists_two_answers (hk : 2 ≤ k) (hkn : 2 * k ≤ n) (hn : n ≤ 255) :
    ∃ sched : List (Tasks.Turn Bool Net), (run k (rivals n) sched).hand =
      {.answer (List.replicate KEK_SIZE 0), .answer (List.replicate KEK_SIZE 1)} := by
  obtain ⟨p, m1, m2, ws, ws', ws'', hfirst, hsecond, hlast⟩ := exists_overtaking hkn
  have habsent (b : UInt8) := steps_absent hk (show k ≤ n by omega) hn b
  let calls : List (Tasks.Turn Bool Net) := [.call true, .call false]
  have hcalls : Tasks.run respond (fun _ => 0) (fun i => call k (rivals n i)) start calls =
      ⟨fun _ => none, 0, [call k (rival n 0), call k (rival n 1)]⟩ := by
    simp [calls, Tasks.run, Tasks.turn, start, rivals]
  refine ⟨calls ++ (List.replicate n .fine).map (.step 0) ++ (List.replicate n .fine).map (.step 1) ++
    ws.map (.step 0) ++ ws'.map (.step 1) ++ ws''.map (.step 0) ++ [.done 0, .done 0], ?_⟩
  rw [run, run_append, run_append, run_append, run_append, run_append, run_append, hcalls,
    run_steps (habsent 0) rfl, run_steps (habsent 1) rfl, run_steps hfirst rfl, run_steps hsecond rfl,
    run_steps hlast rfl]
  simp [Tasks.run, Tasks.turn]

theorem not_oneKek (hk : 2 ≤ k) (hkn : 2 * k ≤ n) (hn : n ≤ 255) : ¬ OneKek n k := by
  intro h
  obtain ⟨sched, hhand⟩ := exists_two_answers hk hkn hn
  have hsame := h Bool (rivals n) distinct_rivals sched (List.replicate KEK_SIZE 0) (List.replicate KEK_SIZE 1)
    (by simp [hhand]) (by simp [hhand])
  exact absurd hsame (by decide)

/-- One KEK needs a threshold of more than half of the vaults. -/
theorem oneKek_iff (hk : 2 ≤ k) : OneKek n k ↔ n < 2 * k ∨ 255 < n := by
  constructor
  · intro h
    by_contra hsplit
    exact not_oneKek hk (by omega) (by omega) h
  · exact oneKek_of_majority hk

theorem oneKek_two_of_three : OneKek 3 2 := (oneKek_iff (by decide)).mpr (.inl (by decide))

theorem two_keks_of_four : ∃ sched : List (Tasks.Turn Bool Net), ∃ kek kek' : Bytes,
    Token.answer kek ∈ (run 2 (rivals 4) sched).hand ∧ Token.answer kek' ∈ (run 2 (rivals 4) sched).hand ∧
      kek ≠ kek' := by
  obtain ⟨sched, hhand⟩ := exists_two_answers (n := 4) (k := 2) (by decide) (by decide) (by decide)
  exact ⟨sched, List.replicate KEK_SIZE 0, List.replicate KEK_SIZE 1, by simp [hhand], by simp [hhand], by decide⟩

end EnclaveOs.Wasm
