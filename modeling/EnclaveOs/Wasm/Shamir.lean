import EnclaveOs.Lib.Bytes
import EnclaveOs.Lib.Interpolation
import EnclaveOs.Wasm.Gf256

/-!
# Secret sharing (`vaultkey.rs`)
-/

open Finset (mem_erase mem_range range sum_mul)

open UInt8 (ofNat toNat)

namespace EnclaveOs.Wasm

open Lib

structure Share where
  x : UInt8
  data : Bytes
deriving DecidableEq

def eval_poly (constant : UInt8) (coeffs : Bytes) (x : UInt8) : UInt8 :=
  let val := coeffs.reverse.foldl (fun val c => gf_add (gf_mul val x) c) 0
  gf_add (gf_mul val x) constant

def basis_round (xs : Bytes) (i : Nat) (basis : UInt8 × UInt8) (j : Nat) : UInt8 × UInt8 :=
  if i = j then basis
  -- 0 - xs[j] = xs[j] in GF(2^8)
  else (gf_mul basis.1 (xs.getD j 0), gf_mul basis.2 (gf_add (xs.getD i 0) (xs.getD j 0)))

def lagrange_at_zero (xs ys : Bytes) : UInt8 :=
  let n := xs.length
  (List.range n).foldl (fun result i =>
    let (num, den) := (List.range n).foldl (basis_round xs i) (1, 1)
    let basis := gf_mul num (gf_inv den)
    gf_add result (gf_mul (ys.getD i 0) basis)) 0

section Split

-- `rng` answers the call for the coefficients of one byte with a stream of bytes, or fails.
variable (rng : Nat → Option (Nat → UInt8))

def push_bytes (threshold : Nat) : Nat → Bytes → List Share → Except String (List Share)
  | _, [], shares => .ok shares
  | j, b :: rest, shares =>
    match rng j with
    | none => .error "rng (shamir coeffs)"
    | some fill =>
      let coeffs := (List.range (threshold - 1)).map fill
      push_bytes threshold (j + 1) rest (shares.map fun share =>
        { share with data := share.data ++ [eval_poly b coeffs share.x] })

def shamir_split (secret : Bytes) (threshold num_shares : Nat) : Except String (List Share) :=
  if threshold < 2 then .error "threshold must be >= 2"
  else if num_shares < threshold then .error "numShares must be >= threshold"
  else if 255 < num_shares then .error "max 255 shares (GF(256))"
  else if secret.isEmpty then .error "secret must not be empty"
  else push_bytes rng threshold 0 secret ((List.range num_shares).map fun i => ⟨ofNat (i + 1), []⟩)

end Split

def duplicate : List Share → List UInt8 → Option UInt8
  | [], _ => none
  | s :: rest, seen => if seen.contains s.x then some s.x else duplicate rest (s.x :: seen)

def shamir_reconstruct (shares : List Share) : Except String Bytes :=
  match shares with
  | [] => .error "no shares provided"
  | first :: rest =>
    let data_len := first.data.length
    if rest.any (·.data.length ≠ data_len) then .error "all shares must have the same data length"
    else
      match duplicate shares [] with
      | some x => .error ("duplicate share X=" ++ toString x.toNat)
      | none =>
        let xs := shares.map (·.x)
        .ok ((List.range data_len).map fun j => lagrange_at_zero xs (shares.map fun s => s.data.getD j 0))

/-! ## The loops as sums and products -/

variable {m : Nat} {xs : Bytes}

theorem horner_eq (x : UInt8) (c : Fin m → UInt8) :
    (⟨(List.ofFn c).reverse.foldl (fun val c => gf_add (gf_mul val x) c) 0⟩ : Gf) =
      ∑ i : Fin m, ⟨c i⟩ * ⟨x⟩ ^ i.val := by
  induction m with
  | zero => rfl
  | succ m ih =>
    have hstep : (⟨(List.ofFn c).reverse.foldl (fun val c => gf_add (gf_mul val x) c) 0⟩ : Gf) =
        ⟨(List.ofFn fun i : Fin m => c i.succ).reverse.foldl (fun val c => gf_add (gf_mul val x) c) 0⟩ * ⟨x⟩ +
          ⟨c 0⟩ := by
      rw [List.ofFn_succ, List.reverse_cons, List.foldl_append]
      rfl
    rw [hstep, ih, sum_mul, Fin.sum_univ_succ]
    simp only [Fin.val_zero, Fin.val_succ, pow_zero, mul_one, pow_succ, mul_assoc]
    rw [add_comm]

theorem eval_poly_eq (b : UInt8) (c : Fin m → UInt8) (x : UInt8) :
    (⟨eval_poly b (List.ofFn c) x⟩ : Gf) = (sharePoly (⟨b⟩ : Gf) fun i => ⟨c i⟩).eval ⟨x⟩ := by
  have hlast : (⟨eval_poly b (List.ofFn c) x⟩ : Gf) =
      ⟨(List.ofFn c).reverse.foldl (fun val c => gf_add (gf_mul val x) c) 0⟩ * ⟨x⟩ + ⟨b⟩ := rfl
  rw [hlast, horner_eq, eval_sharePoly, sum_mul, add_comm]
  simp only [pow_succ, mul_assoc]

theorem basis_rounds (xs : Bytes) (i n : Nat) :
    (⟨((List.range n).foldl (basis_round xs i) (1, 1)).1⟩ : Gf) = ∏ j ∈ (range n).erase i, (0 - ⟨xs.getD j 0⟩) ∧
      (⟨((List.range n).foldl (basis_round xs i) (1, 1)).2⟩ : Gf) =
        ∏ j ∈ (range n).erase i, (⟨xs.getD i 0⟩ - ⟨xs.getD j 0⟩) := by
  induction n with
  | zero => exact ⟨rfl, rfl⟩
  | succ n ih =>
    rw [List.range_succ, List.foldl_append, List.foldl_cons, List.foldl_nil, basis_round]
    by_cases hi : i = n
    · have herase : (range (n + 1)).erase i = (range n).erase i := by
        ext j
        simp only [mem_erase, mem_range]
        omega
      rw [if_pos hi, herase]
      exact ih
    · have herase : (range (n + 1)).erase i = insert n ((range n).erase i) := by
        ext j
        simp only [mem_erase, mem_range, Finset.mem_insert]
        omega
      rw [if_neg hi, herase, Finset.prod_insert (by simp), Finset.prod_insert (by simp), ← ih.1, ← ih.2]
      constructor
      · rw [mul_comm, Gf.sub_eq_add, zero_add]
        rfl
      · rw [mul_comm, Gf.sub_eq_add]
        rfl

theorem getD_injOn (hxs : xs.Nodup) : Set.InjOn (fun i => (⟨xs.getD i 0⟩ : Gf)) (range xs.length) := by
  intro i hi j hj h
  simp only [Finset.coe_range, Set.mem_Iio] at hi hj
  have hbyte : xs[i] = xs[j] := by
    simpa [List.getD_eq_getElem?_getD, hi, hj] using congrArg Gf.byte h
  exact (hxs.getElem_inj_iff).mp hbyte

noncomputable def weight (xs : Bytes) (i : Nat) : Gf :=
  (∏ j ∈ (range xs.length).erase i, (0 - ⟨xs.getD j 0⟩)) *
    (∏ j ∈ (range xs.length).erase i, (⟨xs.getD i 0⟩ - ⟨xs.getD j 0⟩))⁻¹

theorem basis_eq_weight (hxs : xs.Nodup) {i : Nat} (hi : i < xs.length) :
    (⟨gf_mul ((List.range xs.length).foldl (basis_round xs i) (1, 1)).1
      (gf_inv ((List.range xs.length).foldl (basis_round xs i) (1, 1)).2)⟩ : Gf) = weight xs i := by
  obtain ⟨hnum, hden⟩ := basis_rounds xs i xs.length
  have hne : (⟨((List.range xs.length).foldl (basis_round xs i) (1, 1)).2⟩ : Gf) ≠ 0 := by
    rw [hden]
    refine Finset.prod_ne_zero_iff.mpr fun j hj => sub_ne_zero.mpr fun h => ?_
    obtain ⟨hji, hj⟩ := mem_erase.mp hj
    exact hji (getD_injOn hxs hj (Finset.mem_coe.mpr (mem_range.mpr hi)) h.symm)
  rw [weight, ← hnum, ← hden]
  apply Gf.ext
  rw [Gf.byte_mul, Gf.byte_inv hne]

theorem lagrange_at_zero_eq (hxs : xs.Nodup) (ys : Bytes) :
    (⟨lagrange_at_zero xs ys⟩ : Gf) = ∑ i ∈ range xs.length, ⟨ys.getD i 0⟩ * weight xs i := by
  have hsum : ∀ n ≤ xs.length, (⟨(List.range n).foldl (fun result i =>
      gf_add result (gf_mul (ys.getD i 0) (gf_mul ((List.range xs.length).foldl (basis_round xs i) (1, 1)).1
        (gf_inv ((List.range xs.length).foldl (basis_round xs i) (1, 1)).2)))) 0⟩ : Gf) =
      ∑ i ∈ range n, ⟨ys.getD i 0⟩ * weight xs i := by
    intro n hn
    induction n with
    | zero => rfl
    | succ n ih =>
      rw [List.range_succ, List.foldl_append, Finset.sum_range_succ, ← ih (by omega),
        ← basis_eq_weight hxs (by omega)]
      rfl
  exact hsum xs.length (le_refl _)

theorem lagrange_at_zero_eval_poly (hxs : xs.Nodup) (b : UInt8) (c : Fin m → UInt8)
    (hlen : m < xs.length) : lagrange_at_zero xs (xs.map (eval_poly b (List.ofFn c))) = b := by
  let P := sharePoly (⟨b⟩ : Gf) fun i => ⟨c i⟩
  have hvalues : ∀ i ∈ range xs.length,
      (⟨(xs.map (eval_poly b (List.ofFn c))).getD i 0⟩ : Gf) = P.eval ⟨xs.getD i 0⟩ := by
    intro i hi
    rw [← eval_poly_eq]
    simp [List.getD_eq_getElem?_getD, mem_range.mp hi]
  have hdeg : P.degree < (xs.length : WithBot Nat) := (degree_sharePoly_lt _ _).trans_le (by exact_mod_cast hlen)
  have hzero : (⟨b⟩ : Gf) = ∑ i ∈ range xs.length, P.eval ⟨xs.getD i 0⟩ * weight xs i :=
    (eval_zero_sharePoly _ _).symm.trans (eval_zero_eq_sum (getD_injOn hxs) hdeg)
  have h : (⟨lagrange_at_zero xs (xs.map (eval_poly b (List.ofFn c)))⟩ : Gf) = ⟨b⟩ := by
    rw [lagrange_at_zero_eq hxs, hzero]
    exact Finset.sum_congr rfl fun i hi => by rw [hvalues i hi]
  exact congrArg Gf.byte h

section Shares

/-- For the bytes from `j` on. A row of `c` belongs to one byte. -/
def data_at {m : Nat} (c : Nat → Fin m → UInt8) (x : UInt8) : Nat → Bytes → Bytes
  | _, [] => []
  | j, b :: rest => eval_poly b (List.ofFn (c j)) x :: data_at c x (j + 1) rest

def share_at {m : Nat} (c : Nat → Fin m → UInt8) (secret : Bytes) (i : Nat) : Share :=
  ⟨ofNat (i + 1), data_at c (ofNat (i + 1)) 0 secret⟩

variable {m k : Nat} {c : Nat → Fin m → UInt8}

@[simp] theorem length_data_at (x : UInt8) (j : Nat) (secret : Bytes) :
    (data_at c x j secret).length = secret.length := by
  induction secret generalizing j with
  | nil => rfl
  | cons b rest ih => simp [data_at, ih]

variable {secret : Bytes} {rng : Nat → Option (Nat → UInt8)} {n : Nat} {shares : List Share}

theorem getD_data_at (x : UInt8) {i : Nat} (hi : i < secret.length) (j : Nat) :
    (data_at c x j secret).getD i 0 = eval_poly (secret.getD i 0) (List.ofFn (c (j + i))) x := by
  induction secret generalizing i j with
  | nil => simp at hi
  | cons b rest ih =>
    rcases i with _ | i
    · rfl
    · rw [data_at, List.getD_cons_succ, List.getD_cons_succ, ih (by simpa using hi), Nat.add_assoc, Nat.add_comm 1]

def table (rng : Nat → Option (Nat → UInt8)) (k j : Nat) (i : Fin (k - 1)) : UInt8 := (rng j).getD (fun _ => 0) i

theorem push_bytes_eq {j : Nat} (hrng : ∀ i < secret.length, (rng (j + i)).isSome) (shares : List Share) :
    push_bytes rng k j secret shares =
      .ok (shares.map fun s => { s with data := s.data ++ data_at (table rng k) s.x j secret }) := by
  induction secret generalizing j shares with
  | nil => simp [push_bytes, data_at]
  | cons b rest ih =>
    obtain ⟨fill, hfill⟩ := Option.isSome_iff_exists.mp (hrng 0 (by simp))
    rw [Nat.add_zero] at hfill
    have hcoeffs : (List.range (k - 1)).map fill = List.ofFn (table rng k j) := by
      apply List.ext_getElem <;> simp [table, hfill]
    have hrest : ∀ i < rest.length, (rng (j + 1 + i)).isSome := by
      intro i hi
      rw [Nat.add_assoc, Nat.add_comm 1]
      exact hrng (i + 1) (by simpa using hi)
    rw [push_bytes, hfill]
    dsimp only
    rw [ih hrest, List.map_map, hcoeffs]
    simp [data_at]

theorem push_bytes_error {j i : Nat} (hi : i < secret.length)
    (hrng : rng (j + i) = none) (shares : List Share) :
    push_bytes rng k j secret shares = .error "rng (shamir coeffs)" := by
  induction secret generalizing j i shares with
  | nil => simp at hi
  | cons b rest ih =>
    rw [push_bytes]
    split
    · rfl
    rename_i fill hfill
    rcases i with _ | i
    · rw [Nat.add_zero, hfill] at hrng
      cases hrng
    · exact ih (by simpa using hi) (by rwa [Nat.add_assoc, Nat.add_comm 1]) _

theorem shamir_split_eq (hk : 2 ≤ k) (hkn : k ≤ n) (hn : n ≤ 255) (hs : secret ≠ [])
    (hrng : ∀ i < secret.length, (rng i).isSome) :
    shamir_split rng secret k n = .ok ((List.range n).map (share_at (table rng k) secret)) := by
  rw [shamir_split, if_neg (by omega), if_neg (by omega), if_neg (by omega), if_neg (by simpa using hs),
    push_bytes_eq (by simpa using hrng), List.map_map]
  rfl

theorem shares_of_split (h : shamir_split rng secret k n = .ok shares) :
    2 ≤ k ∧ n ≤ 255 ∧ shares = (List.range n).map (share_at (table rng k) secret) := by
  unfold shamir_split at h
  split at h
  · cases h
  split at h
  · cases h
  split at h
  · cases h
  split at h
  · cases h
  rename_i hk hkn hn hs
  have hrng : ∀ i < secret.length, (rng i).isSome := by
    intro i hi
    by_contra hnone
    rw [push_bytes_error hi (by simpa using hnone)] at h
    cases h
  have hsplit := shamir_split_eq (k := k) (n := n) (by omega) (by omega) (by omega) (by simpa using hs) hrng
  rw [shamir_split, if_neg hk, if_neg hkn, if_neg hn, if_neg hs, h] at hsplit
  cases hsplit
  exact ⟨by omega, by omega, rfl⟩

def stream (draws : Nat → Nat → UInt8) (j : Nat) : Option (Nat → UInt8) := some (draws j)

theorem nodup_points (hn : n ≤ 255) (secret : Bytes) :
    (((List.range n).map (share_at c secret)).map Share.x).Nodup := by
  rw [List.map_map]
  refine List.Nodup.map_on ?_ List.nodup_range
  intro i hi j hj h
  have hi' := List.mem_range.mp hi
  have hj' := List.mem_range.mp hj
  have hnat := congrArg toNat h
  simp only [Function.comp_apply, share_at] at hnat
  rw [UInt8.toNat_ofNat_of_lt' (show i + 1 < 256 by omega),
    UInt8.toNat_ofNat_of_lt' (show j + 1 < 256 by omega)] at hnat
  omega

theorem duplicate_eq_none {seen : List UInt8} (h : (shares.map Share.x).Nodup)
    (hseen : ∀ s ∈ shares, s.x ∉ seen) : duplicate shares seen = none := by
  induction shares generalizing seen with
  | nil => rfl
  | cons s rest ih =>
    simp only [List.map_cons, List.nodup_cons] at h
    rw [duplicate, if_neg (by simpa using hseen s (by simp))]
    refine ih h.2 fun t ht hmem => ?_
    rcases List.mem_cons.mp hmem with heq | hold
    · exact h.1 (heq ▸ List.mem_map_of_mem ht)
    · exact hseen t (by simp [ht]) hold

theorem shamir_reconstruct_eq (hm : m < shares.length)
    (hdistinct : (shares.map Share.x).Nodup) (hdata : ∀ s ∈ shares, s.data = data_at c s.x 0 secret) :
    shamir_reconstruct shares = .ok secret := by
  rcases shares with _ | ⟨first, rest⟩
  · simp at hm
  have hlen : ∀ s ∈ first :: rest, s.data.length = secret.length := by
    intro s hs
    rw [hdata s hs, length_data_at]
  have hsame : (rest.any fun s => s.data.length ≠ first.data.length) = false := by
    simp only [List.any_eq_false, decide_eq_true_eq, not_not]
    intro s hs
    rw [hlen s (by simp [hs]), hlen first (by simp)]
  rw [shamir_reconstruct]
  dsimp only
  rw [hsame, if_neg (by simp), duplicate_eq_none hdistinct (by simp)]
  dsimp only
  rw [hlen first (by simp)]
  congr 1
  refine List.ext_getElem (by simp) fun j h1 h2 => ?_
  have hj : j < secret.length := h2
  have hys : ((first :: rest).map fun s => s.data.getD j 0) =
      ((first :: rest).map Share.x).map (eval_poly (secret.getD j 0) (List.ofFn (c (0 + j)))) := by
    rw [List.map_map]
    refine List.map_congr_left fun s hs => ?_
    rw [hdata s hs, getD_data_at s.x hj]
    rfl
  rw [List.getElem_map, List.getElem_range, hys, lagrange_at_zero_eval_poly hdistinct _ _ (by simpa using hm)]
  simp [List.getD_eq_getElem?_getD, hj]

end Shares

/-- The tables are those of a field, and any `k` shares, in any order, give the secret back. -/
theorem shamir_recovers :
    (Nat.card Gf = 256 ∧ (∀ a b : Gf, (a + b).byte = gf_add a.byte b.byte ∧ (a * b).byte = gf_mul a.byte b.byte) ∧
      ∀ a : Gf, a ≠ 0 → a⁻¹.byte = gf_inv a.byte) ∧
    ∀ (secret : Bytes) (k n : Nat) (draws : Nat → Nat → UInt8), 2 ≤ k → k ≤ n → n ≤ 255 →
      (secret = [] ∧ shamir_split (stream draws) secret k n = .error "secret must not be empty") ∨
      ∃ shares, shamir_split (stream draws) secret k n = .ok shares ∧ shares.length = n ∧
        ∀ selected, selected.Subperm shares → k ≤ selected.length → shamir_reconstruct selected = .ok secret := by
  refine ⟨⟨?_, fun a b => ⟨rfl, rfl⟩, fun a => Gf.byte_inv⟩, ?_⟩
  · rw [Nat.card_congr (⟨Gf.byte, Gf.mk, fun _ => rfl, fun _ => rfl⟩ : Gf ≃ UInt8), Nat.card_eq_fintype_card]
    decide +kernel
  intro secret k n draws hk hkn hn
  by_cases hs : secret = []
  · refine .inl ⟨hs, ?_⟩
    rw [shamir_split, if_neg (by omega), if_neg (by omega), if_neg (by omega), if_pos (by simp [hs])]
  refine .inr ⟨_, shamir_split_eq hk hkn hn hs (fun _ _ => rfl), by simp, fun selected hsub hlen => ?_⟩
  obtain ⟨l, hperm, hl⟩ := hsub
  refine shamir_reconstruct_eq (c := table (stream draws) k) (by omega) ?_ fun s hmem => ?_
  · have hnodup := (nodup_points hn secret).sublist (hl.map Share.x)
    exact (hperm.map Share.x).nodup_iff.mp hnodup
  · obtain ⟨i, -, rfl⟩ := List.mem_map.mp (hl.subset (hperm.mem_iff.mpr hmem))
    rfl

theorem two_of_three_recover : ∃ shares,
    shamir_split (stream fun _ _ => 5) [7, 9] 2 3 = .ok shares ∧ shares.length = 3 ∧
      ∀ selected, selected.Subperm shares → 2 ≤ selected.length → shamir_reconstruct selected = .ok [7, 9] :=
  (shamir_recovers.2 [7, 9] 2 3 (fun _ _ => 5) (by decide) (by decide) (by decide)).resolve_left (by simp)

/-! ## Fewer shares say nothing -/

section Hiding

variable {k n len : Nat}

/-- One row for each byte of the secret. -/
def drawn (c : Fin len → Fin (k - 1) → UInt8) (j i : Nat) : UInt8 :=
  if h : j < len ∧ i < k - 1 then c ⟨j, h.1⟩ ⟨i, h.2⟩ else 0

/-- With these coefficients the shares numbered in `known` are `values`. -/
def Produces (secret : Bytes) (k n : Nat) (known : Finset (Fin n)) (values : Fin n → Bytes)
    (c : Fin len → Fin (k - 1) → UInt8) : Prop :=
  ∃ shares, shamir_split (stream (drawn c)) secret k n = .ok shares ∧
    ∀ i ∈ known, shares[i.val]? = some ⟨ofNat (i.val + 1), values i⟩

theorem eval_drawn (c : Fin len → Fin (k - 1) → UInt8) (b : UInt8) (j : Fin len) (x : UInt8) :
    (⟨eval_poly b (List.ofFn fun i : Fin (k - 1) => drawn c j i) x⟩ : Gf) =
      (sharePoly (⟨b⟩ : Gf) fun i => ⟨c j i⟩).eval ⟨x⟩ := by
  have hrow : (fun i : Fin (k - 1) => drawn c j i) = c j := by
    funext i
    exact dif_pos ⟨j.isLt, i.isLt⟩
  rw [hrow, eval_poly_eq]

def points (known : Finset (Fin n)) : Finset Gf := known.image fun i => ⟨ofNat (i.val + 1)⟩

theorem zero_not_mem_points (hn : n ≤ 255) (known : Finset (Fin n)) : (0 : Gf) ∉ points known := by
  intro h
  obtain ⟨i, -, hi⟩ := Finset.mem_image.mp h
  have hnat := congrArg (toNat ∘ Gf.byte) hi
  simp only [Function.comp_apply] at hnat
  rw [UInt8.toNat_ofNat_of_lt' (show i.val + 1 < 256 by omega)] at hnat
  exact Nat.succ_ne_zero _ hnat

theorem exists_shift (len : Nat) (hn : n ≤ 255) (known : Finset (Fin n)) (hknown : known.card ≤ k - 1) (a b : Bytes) :
    ∃ e : Fin len → Fin (k - 1) → UInt8, ∀ (c : Fin len → Fin (k - 1) → UInt8), ∀ i ∈ known, ∀ j : Fin len,
      eval_poly (b.getD j 0) (List.ofFn fun l : Fin (k - 1) => drawn (fun j l => gf_add (c j l) (e j l)) j l)
          (ofNat (i.val + 1)) =
        eval_poly (a.getD j 0) (List.ofFn fun l : Fin (k - 1) => drawn c j l) (ofNat (i.val + 1)) := by
  have hcard : (points known).card ≤ k - 1 := Finset.card_image_le.trans hknown
  have hrow := fun j : Fin len =>
    exists_vanishing (zero_not_mem_points hn known) hcard ((⟨b.getD j 0⟩ : Gf) - ⟨a.getD j 0⟩)
  choose e he using hrow
  refine ⟨fun j l => (e j l).byte, fun c i hi j => ?_⟩
  have hzero := he j ⟨ofNat (i.val + 1)⟩ (Finset.mem_image_of_mem _ hi)
  have h : (⟨eval_poly (b.getD j 0)
        (List.ofFn fun l : Fin (k - 1) => drawn (fun j l => gf_add (c j l) (e j l).byte) j l)
        (ofNat (i.val + 1))⟩ : Gf) =
      ⟨eval_poly (a.getD j 0) (List.ofFn fun l : Fin (k - 1) => drawn c j l) (ofNat (i.val + 1))⟩ := by
    rw [eval_drawn, eval_drawn]
    have hsum := eval_sharePoly_add (⟨a.getD j 0⟩ : Gf) (⟨b.getD j 0⟩ - ⟨a.getD j 0⟩) (fun l => ⟨c j l⟩) (e j)
      ⟨ofNat (i.val + 1)⟩
    rw [hzero, add_zero, add_sub_cancel] at hsum
    exact hsum
  exact congrArg Gf.byte h

theorem produces_iff (hk : 2 ≤ k) (hkn : k ≤ n) (hn : n ≤ 255) {secret : Bytes} (hs : secret ≠ [])
    {known : Finset (Fin n)} {values : Fin n → Bytes} {c : Fin len → Fin (k - 1) → UInt8} :
    Produces secret k n known values c ↔ ∀ i ∈ known,
      data_at (fun j (l : Fin (k - 1)) => drawn c j l) (ofNat (i.val + 1)) 0 secret = values i := by
  unfold Produces
  rw [shamir_split_eq hk hkn hn hs fun _ _ => rfl]
  constructor
  · rintro ⟨_, h, hshares⟩ i hi
    cases h
    have hshare := hshares i hi
    rw [List.getElem?_map, List.getElem?_range i.isLt, Option.map_some, Option.some.injEq] at hshare
    exact congrArg Share.data hshare
  · intro h
    refine ⟨_, rfl, fun i hi => ?_⟩
    rw [List.getElem?_map, List.getElem?_range i.isLt, Option.map_some, ← h i hi]
    rfl

/-- As many choices of the coefficients produce at most `k - 1` shares from one secret as from any other. -/
theorem shares_hide_secret (hk : 2 ≤ k) (hkn : k ≤ n) (hn : n ≤ 255) {a b : Bytes} (ha : a.length = len)
    (hb : b.length = len) (known : Finset (Fin n)) (hknown : known.card ≤ k - 1) (values : Fin n → Bytes) :
    Nat.card {c : Fin len → Fin (k - 1) → UInt8 // Produces a k n known values c} =
      Nat.card {c : Fin len → Fin (k - 1) → UInt8 // Produces b k n known values c} := by
  by_cases hlen : len = 0
  · have hab : a = b := by
      rw [List.eq_nil_of_length_eq_zero (ha.trans hlen), List.eq_nil_of_length_eq_zero (hb.trans hlen)]
    rw [hab]
  have hane : a ≠ [] := fun h => hlen (by rw [← ha, h]; rfl)
  have hbne : b ≠ [] := fun h => hlen (by rw [← hb, h]; rfl)
  obtain ⟨e, he⟩ := exists_shift len hn known hknown a b
  let shift : (Fin len → Fin (k - 1) → UInt8) ≃ (Fin len → Fin (k - 1) → UInt8) :=
    { toFun := fun c j l => gf_add (c j l) (e j l)
      invFun := fun c j l => gf_add (c j l) (e j l)
      left_inv := fun c => by funext j l; simp [gf_add]
      right_inv := fun c => by funext j l; simp [gf_add] }
  refine Nat.card_congr (shift.subtypeEquiv fun c => ?_)
  rw [produces_iff hk hkn hn hane, produces_iff hk hkn hn hbne]
  refine forall₂_congr fun i hi => ?_
  have hdata : data_at (fun j (l : Fin (k - 1)) => drawn c j l) (ofNat (i.val + 1)) 0 a =
      data_at (fun j (l : Fin (k - 1)) => drawn (shift c) j l) (ofNat (i.val + 1)) 0 b := by
    refine List.ext_getElem (by simp [ha, hb]) fun j h1 h2 => ?_
    have hj : j < len := by rw [← ha]; simpa using h1
    have hleft := getD_data_at (c := fun j (l : Fin (k - 1)) => drawn c j l) (ofNat (i.val + 1))
      (show j < a.length by omega) 0
    have hright := getD_data_at (c := fun j (l : Fin (k - 1)) => drawn (shift c) j l) (ofNat (i.val + 1))
      (show j < b.length by omega) 0
    rw [Nat.zero_add] at hleft hright
    rw [List.getD_eq_getElem?_getD, List.getElem?_eq_getElem h1] at hleft
    rw [List.getD_eq_getElem?_getD, List.getElem?_eq_getElem h2] at hright
    exact hleft.trans ((he c i hi ⟨j, hj⟩).symm.trans hright.symm)
  rw [hdata]

end Hiding

theorem one_share_hides : Nat.card {c : Fin 1 → Fin (2 - 1) → UInt8 // Produces [7] 2 3 {0} (fun _ => [1]) c} =
    Nat.card {c : Fin 1 → Fin (2 - 1) → UInt8 // Produces [9] 2 3 {0} (fun _ => [1]) c} :=
  shares_hide_secret (k := 2) (n := 3) (a := [7]) (b := [9]) (by decide) (by decide) (by decide) rfl rfl {0}
    (by decide) fun _ => [1]

end EnclaveOs.Wasm
