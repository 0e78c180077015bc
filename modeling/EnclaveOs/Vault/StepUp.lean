import EnclaveOs.Vault.Authorisation

/-!
# What a step-up is bound to (`vault_op_binding`, `profile_binding_digest`)

Both hashes are over lines of text, and a line break inside a field moves the fields.
-/

namespace EnclaveOs.Vault.StepUp

open Lib
open Sample (profile)

def Plain (s : String) : Prop := '\n' ∉ s.toList

variable {l l' : List String}

theorem splitOn_lines (hplain : ∀ s ∈ l, Plain s) (hne : l ≠ []) :
    List.splitOn '\n' ("\n".intercalate l).toList = l.map String.toList := by
  rw [String.toList_intercalate]
  refine List.splitOn_intercalate '\n' ?_ (by simpa using hne)
  intro cs hcs
  obtain ⟨s, hs, rfl⟩ := List.mem_map.mp hcs
  exact hplain s hs

theorem lines_inj (h : "\n".intercalate l = "\n".intercalate l') (hplain : ∀ s ∈ l, Plain s)
    (hplain' : ∀ s ∈ l', Plain s) (hne : l ≠ []) (hne' : l' ≠ []) : l = l' := by
  have hsplit := splitOn_lines hplain hne
  rw [h, splitOn_lines hplain' hne'] at hsplit
  exact (List.map_injective_iff.mpr fun _ _ => String.toList_inj.mp) hsplit.symm

theorem eq_nil_of_lines_eq_empty (h : "\n".intercalate l = "") (hplain : ∀ s ∈ l, Plain s)
    (hempty : "" ∉ l) : l = [] := by
  by_contra hne
  have hsplit := splitOn_lines hplain hne
  rw [h] at hsplit
  have hnil : [] ∈ l.map String.toList := by
    rw [← hsplit]
    simp
  obtain ⟨s, hs, hs'⟩ := List.mem_map.mp hnil
  rw [String.toList_eq_nil_iff.mp hs'] at hs
  exact hempty hs

theorem lines_inj_of_ne_empty (h : "\n".intercalate l = "\n".intercalate l')
    (hplain : ∀ s ∈ l, Plain s) (hplain' : ∀ s ∈ l', Plain s) (hempty : "" ∉ l) (hempty' : "" ∉ l') : l = l' := by
  by_cases hl : l = []
  · subst hl
    exact (eq_nil_of_lines_eq_empty h.symm hplain' hempty').symm
  · by_cases hl' : l' = []
    · subst hl'
      exact eq_nil_of_lines_eq_empty h hplain hempty
    · exact lines_inj h hplain hplain' hl hl'

theorem plain_toString (n : Nat) : Plain (toString n) := by
  intro h
  have hdigit := Nat.isDigit_of_mem_toDigits (b := 10) (by decide) (by decide) (n := n) (c := '\n') (by
    simpa [Nat.repr] using h)
  exact absurd hdigit (by decide)

theorem insertionSort_eq_iff : l.insertionSort (· ≤ ·) = l'.insertionSort (· ≤ ·) ↔ l.Perm l' := by
  constructor
  · intro h
    have hperm := (List.perm_insertionSort (· ≤ ·) l).symm
    rw [h] at hperm
    exact hperm.trans (List.perm_insertionSort (· ≤ ·) l')
  · intro h
    refine List.Perm.eq_of_pairwise (fun a b _ _ => le_antisymm) (List.pairwise_insertionSort _ l)
      (List.pairwise_insertionSort _ l') ?_
    exact (List.perm_insertionSort _ l).trans (h.trans (List.perm_insertionSort _ l').symm)

/-! ## Hex (`common/src/hex.rs`) -/

def HEX : List Char := "0123456789abcdef".toList

def hex_pair (b : UInt8) : List Char := [HEX.getD (b >>> 4).toNat '0', HEX.getD (b &&& 0x0f).toNat '0']

def hex_encode (bytes : Bytes) : String := String.ofList (bytes.flatMap hex_pair)

theorem HEX_inj : ∀ i < 16, ∀ j < 16, HEX.getD i '0' = HEX.getD j '0' → i = j := by decide

theorem HEX_plain : ∀ i < 16, HEX.getD i '0' ≠ '\n' := by decide

theorem toNat_high (b : UInt8) : (b >>> 4).toNat = b.toNat / 16 := by
  rw [UInt8.toNat_shiftRight, Nat.shiftRight_eq_div_pow]
  rfl

theorem toNat_low (b : UInt8) : (b &&& 0x0f).toNat = b.toNat % 16 := by
  rw [UInt8.toNat_and]
  exact Nat.and_two_pow_sub_one_eq_mod b.toNat 4

theorem high_lt (b : UInt8) : (b >>> 4).toNat < 16 := by
  have := b.toNat_lt
  rw [toNat_high]
  omega

theorem low_lt (b : UInt8) : (b &&& 0x0f).toNat < 16 := by
  rw [toNat_low]
  omega

theorem hex_pair_inj {b c : UInt8} (h : hex_pair b = hex_pair c) : b = c := by
  simp only [hex_pair, List.cons.injEq, and_true] at h
  have hhigh := HEX_inj _ (high_lt b) _ (high_lt c) h.1
  have hlow := HEX_inj _ (low_lt b) _ (low_lt c) h.2
  rw [toNat_high, toNat_high] at hhigh
  rw [toNat_low, toNat_low] at hlow
  exact UInt8.toNat_inj.mp (by omega)

theorem hex_encode_inj : Function.Injective hex_encode := by
  intro b c h
  have hflat : b.flatMap hex_pair = c.flatMap hex_pair := String.ofList_injective h
  induction b generalizing c with
  | nil => cases c <;> simp_all [hex_pair]
  | cons x xs ih =>
    rcases c with _ | ⟨y, ys⟩
    · simp [hex_pair] at hflat
    rw [List.flatMap_cons, List.flatMap_cons] at hflat
    obtain ⟨hpair, hrest⟩ := List.append_inj hflat rfl
    rw [hex_pair_inj hpair, ih (congrArg String.ofList hrest) hrest]

theorem plain_hex (b : Bytes) : Plain (hex_encode b) := by
  intro h
  obtain ⟨x, -, hx⟩ := List.mem_flatMap.mp (by simpa [hex_encode] using h)
  simp only [hex_pair, List.mem_cons, List.not_mem_nil, or_false] at hx
  rcases hx with hx | hx
  · exact HEX_plain _ (high_lt x) hx.symm
  · exact HEX_plain _ (low_lt x) hx.symm
section

variable [Outside]

/-- This profile becomes current for this key and policy version. -/
structure Promotion where
  handle : String
  profile : AttestationProfile
  policy_version : UInt32
  nonce : String
  exp : UInt64

def Promotion.binding (x : Promotion) : String :=
  vault_op_binding x.handle (profile_binding_digest x.profile) x.policy_version x.nonce x.exp

def profile_lines (p : AttestationProfile) : List String :=
  p.measurements.flatMap measurement_lines ++
    p.required_oids.map fun o => "oid:" ++ o.oid ++ "=" ++ Outside.to_lowercase o.value

def profile_text (p : AttestationProfile) : String := "\n".intercalate ((profile_lines p).insertionSort (· ≤ ·))

def Promotion.fields (x : Promotion) : List String :=
  [VAULT_APPROVAL_DOMAIN, x.handle, profile_binding_digest x.profile, toString x.policy_version.toNat, x.nonce,
    toString x.exp.toNat]

def Promotion.text (x : Promotion) : String := "\n".intercalate x.fields

/-! ## The same promotion -/

def lower_measurement : Measurement → Measurement
  | .Mrenclave v => .Mrenclave (Outside.to_lowercase v)
  | .Tdx mrtd rtmr1 rtmr2 =>
    .Tdx (Outside.to_lowercase mrtd) (Outside.to_lowercase rtmr1) (Outside.to_lowercase rtmr2)

def lower_oid (o : OidRequirement) : OidRequirement := ⟨o.oid, Outside.to_lowercase o.value⟩

/-- The profiles say the same, whatever the order and the case of their texts. -/
structure SameProfile (p p' : AttestationProfile) : Prop where
  measurements : ∀ m, m ∈ p.measurements.map lower_measurement ↔ m ∈ p'.measurements.map lower_measurement
  required_oids : ∀ o, o ∈ p.required_oids.map lower_oid ↔ o ∈ p'.required_oids.map lower_oid
  attestation_servers : ∀ s, s ∈ p.attestation_servers ↔ s ∈ p'.attestation_servers
  acceptable_tcb_statuses : ∀ s, s ∈ p.acceptable_tcb_statuses ↔ s ∈ p'.acceptable_tcb_statuses

structure Same (x x' : Promotion) : Prop where
  handle : x.handle = x'.handle
  policy_version : x.policy_version = x'.policy_version
  nonce : x.nonce = x'.nonce
  exp : x.exp = x'.exp
  profile : SameProfile x.profile x'.profile

/-- A step-up for one does for the other only if they are the same. -/
def Distinguishes (x x' : Promotion) : Prop := x.binding = x'.binding → Same x x'

/-! ## What the hashes tell -/

/-- The digest goes out as hex, and base64url keeps bytes apart. -/
structure Codecs : Prop where
  hex : Outside.hex_encode = hex_encode
  encode_inj : Function.Injective Outside.encode

def hashed (x : Promotion) : Set Bytes := {utf8 x.text, utf8 (profile_text x.profile)}

theorem digest_eq (p : AttestationProfile) :
    profile_binding_digest p = Outside.hex_encode (Outside.sha256 (utf8 (profile_text p))) := rfl

theorem binding_eq (x : Promotion) : x.binding = Outside.encode (Outside.sha256 (utf8 x.text)) := rfl

variable {p : AttestationProfile} {s : String} {x x' : Promotion}

theorem line_ne_empty (h : s ∈ profile_lines p) : s ≠ "" := by
  have hprefix : ∃ t u : String, t ≠ "" ∧ s = t ++ u := by
    rcases List.mem_append.mp h with hm | ho
    · obtain ⟨m, -, hline⟩ := List.mem_flatMap.mp hm
      cases m with
      | Mrenclave v =>
        rw [List.mem_singleton.mp hline]
        exact ⟨_, _, by decide, rfl⟩
      | Tdx mrtd rtmr1 rtmr2 =>
        simp only [measurement_lines, List.mem_cons, List.not_mem_nil, or_false] at hline
        rcases hline with rfl | rfl | rfl <;> exact ⟨_, _, by decide, rfl⟩
    · obtain ⟨o, -, rfl⟩ := List.mem_map.mp ho
      refine ⟨"oid:", o.oid ++ "=" ++ Outside.to_lowercase o.value, by decide, ?_⟩
      simp [String.append_assoc]
  obtain ⟨t, u, ht, rfl⟩ := hprefix
  intro hempty
  exact ht (String.append_eq_empty_iff.mp hempty).1

theorem mem_sorted : s ∈ (profile_lines p).insertionSort (· ≤ ·) ↔ s ∈ profile_lines p :=
  (List.perm_insertionSort _ _).mem_iff

theorem profile_text_of_perm {p' : AttestationProfile} (h : (profile_lines p).Perm (profile_lines p')) :
    profile_text p = profile_text p' := by
  unfold profile_text
  rw [insertionSort_eq_iff.mpr h]

theorem profile_text_eq_iff {p' : AttestationProfile} (hp : ∀ s ∈ profile_lines p, Plain s)
    (hp' : ∀ s ∈ profile_lines p', Plain s) :
    profile_text p = profile_text p' ↔ (profile_lines p).Perm (profile_lines p') := by
  refine ⟨fun h => insertionSort_eq_iff.mp ?_, profile_text_of_perm⟩
  refine lines_inj_of_ne_empty h (fun s hs => hp s (mem_sorted.mp hs)) (fun s hs => hp' s (mem_sorted.mp hs)) ?_ ?_ <;>
    exact fun hempty => line_ne_empty (mem_sorted.mp hempty) rfl

theorem sha256_text_inj {S : Set Bytes} (hno : Set.InjOn Outside.sha256 S) {t : String} (hs : utf8 s ∈ S)
    (ht : utf8 t ∈ S) : Outside.sha256 (utf8 s) = Outside.sha256 (utf8 t) ↔ s = t := by
  constructor
  · intro h
    have hdata := Array.toList_inj.mp (hno hs ht h)
    rw [String.toUTF8_eq_toByteArray, String.toUTF8_eq_toByteArray] at hdata
    exact String.toByteArray_inj.mp (ByteArray.ext hdata)
  · intro h
    rw [h]

theorem text_hashed (x : Promotion) : utf8 x.text ∈ hashed x := Set.mem_insert _ _

theorem profile_hashed (x : Promotion) : utf8 (profile_text x.profile) ∈ hashed x :=
  Set.mem_insert_of_mem _ (Set.mem_singleton _)

structure Promotion.OneLine (x : Promotion) : Prop where
  handle : Plain x.handle
  nonce : Plain x.nonce
  profile : ∀ s ∈ profile_lines x.profile, Plain s

theorem Promotion.OneLine.fields (h : x.OneLine) (hc : Codecs) : ∀ s ∈ x.fields, Plain s := by
  intro s hs
  simp only [Promotion.fields, List.mem_cons, List.not_mem_nil, or_false] at hs
  rcases hs with rfl | rfl | rfl | rfl | rfl | rfl
  · unfold Plain
    decide
  · exact h.handle
  · rw [digest_eq, hc.hex]
    exact plain_hex _
  · exact plain_toString _
  · exact h.nonce
  · exact plain_toString _

/-- The texts that are hashed have the same lines. -/
structure Alike (x x' : Promotion) : Prop where
  handle : x.handle = x'.handle
  policy_version : x.policy_version = x'.policy_version
  nonce : x.nonce = x'.nonce
  exp : x.exp = x'.exp
  lines : (profile_lines x.profile).Perm (profile_lines x'.profile)

theorem text_eq_iff (hc : Codecs) (h : x.OneLine) (h' : x'.OneLine)
    (hno : Set.InjOn Outside.sha256 (hashed x ∪ hashed x')) : x.text = x'.text ↔ Alike x x' := by
  have hdigest : profile_binding_digest x.profile = profile_binding_digest x'.profile ↔
      (profile_lines x.profile).Perm (profile_lines x'.profile) := by
    rw [← profile_text_eq_iff h.profile h'.profile, digest_eq, digest_eq, hc.hex, hex_encode_inj.eq_iff]
    exact sha256_text_inj hno (.inl (profile_hashed x)) (.inr (profile_hashed x'))
  constructor
  · intro htext
    have hfields := lines_inj htext (h.fields hc) (h'.fields hc) (List.cons_ne_nil _ _) (List.cons_ne_nil _ _)
    simp only [Promotion.fields, List.cons.injEq, true_and, and_true] at hfields
    obtain ⟨hhandle, hprofile, hversion, hnonce, hexp⟩ := hfields
    exact ⟨hhandle, UInt32.toNat_inj.mp (Nat.repr_inj.mp hversion), hnonce,
      UInt64.toNat_inj.mp (Nat.repr_inj.mp hexp), hdigest.mp hprofile⟩
  · rintro ⟨hhandle, hversion, hnonce, hexp, hlines⟩
    unfold Promotion.text Promotion.fields
    rw [hhandle, hversion, hnonce, hexp, hdigest.mpr hlines]

theorem binding_eq_iff (hc : Codecs)
    (hno : Set.InjOn Outside.sha256 (hashed x ∪ hashed x')) : x.binding = x'.binding ↔ x.text = x'.text := by
  rw [binding_eq, binding_eq, hc.encode_inj.eq_iff]
  exact sha256_text_inj hno (.inl (text_hashed x)) (.inr (text_hashed x'))

/-- The binding tells two promotions apart exactly if their texts differ or they are the same: without line
breaks, unless they differ in what the lines do not show. -/
theorem distinguishes_iff (hc : Codecs) (x x' : Promotion)
    (hno : Set.InjOn Outside.sha256 (hashed x ∪ hashed x')) :
    (Distinguishes x x' ↔ x.text ≠ x'.text ∨ Same x x') ∧
    (x.OneLine → x'.OneLine → (Distinguishes x x' ↔ ¬ Alike x x' ∨ SameProfile x.profile x'.profile)) := by
  refine ⟨?_, fun h h' => ?_⟩
  · rw [Distinguishes, binding_eq_iff hc hno]
    exact imp_iff_not_or
  rw [Distinguishes, binding_eq_iff hc hno, text_eq_iff hc h h' hno, imp_iff_not_or]
  by_cases halike : Alike x x'
  · have hsame : Same x x' ↔ SameProfile x.profile x'.profile :=
      ⟨Same.profile, fun hp => ⟨halike.handle, halike.policy_version, halike.nonce, halike.exp, hp⟩⟩
    rw [hsame]
  · exact ⟨fun _ => .inl halike, fun _ => .inl halike⟩

end

/-! ## Promotions that share a step-up -/

scoped instance outside : Outside where
  __ := Sample.outside
  to_lowercase := fun s => String.ofList (s.toList.map Char.toLower)
  sha256 := id
  hex_encode := hex_encode
  encode := hex_encode

theorem codecs_outside : Codecs := ⟨rfl, hex_encode_inj⟩

def promotion (profile : AttestationProfile) (policy_version : UInt32) : Promotion :=
  ⟨"k", profile, policy_version, "n", 300⟩

theorem oneLine_promotion {p : AttestationProfile} (h : ∀ s ∈ profile_lines p, Plain s) (v : UInt32) :
    (promotion p v).OneLine := by
  have hk : Plain "k" := by
    unfold Plain
    decide
  have hn : Plain "n" := by
    unfold Plain
    decide
  exact ⟨hk, hn, h⟩

theorem sample_plain : ∀ s ∈ profile_lines (profile "aa"), Plain s := by
  unfold Plain
  decide

theorem distinguishes_versions : Distinguishes (promotion (profile "aa") 1) (promotion (profile "aa") 2) := by
  have h := (distinguishes_iff codecs_outside (promotion (profile "aa") 1)
    (promotion (profile "aa") 2) Function.injective_id.injOn).2
  refine (h (oneLine_promotion sample_plain 1) (oneLine_promotion sample_plain 2)).mpr (.inl ?_)
  intro halike
  exact absurd halike.policy_version (by decide)

def tdx_profile (rtmr1 rtmr1' : String) : AttestationProfile :=
  { profile "aa" with measurements := [.Tdx "a1" rtmr1 "a2", .Tdx "b1" rtmr1' "b2"] }

def served_by (server : String) : AttestationProfile := { profile "aa" with attestation_servers := [⟨server, none⟩] }

/-- Its nonce holds the last fields of the other one. -/
def inner : Promotion := ⟨"k", profile "aa", 1, profile_binding_digest (profile "bb") ++ "\n1\nn", 300⟩

def outer : Promotion := ⟨"k\n" ++ profile_binding_digest (profile "aa") ++ "\n1", profile "bb", 1, "n", 300⟩

theorem binding_of_text {x x' : Promotion} (h : x.text = x'.text) : x.binding = x'.binding := by
  rw [binding_eq, binding_eq, h]

theorem binding_of_perm {p p' : AttestationProfile} (h : (profile_lines p).Perm (profile_lines p')) (v : UInt32) :
    (promotion p v).binding = (promotion p' v).binding := by
  refine binding_of_text ?_
  have hdigest : profile_binding_digest p = profile_binding_digest p' := by
    rw [digest_eq, digest_eq, profile_text_of_perm h]
  simp only [Promotion.text, Promotion.fields, promotion, hdigest]

theorem inner_text : inner.text = outer.text := by
  have hmove : ∀ a b : String, "\n".intercalate [VAULT_APPROVAL_DOMAIN, "k", a, "1", b ++ "\n1\nn", "300"] =
      "\n".intercalate [VAULT_APPROVAL_DOMAIN, "k\n" ++ a ++ "\n1", b, "1", "n", "300"] := by
    intro a b
    rw [← String.toList_inj]
    simp
  exact hmove _ _

def stepped_up (x : Promotion) : OidcClaims where
  sub := "alice"
  roles := []
  is_manager := false
  amr := []
  iat := 1
  exp := x.exp
  vault_op := some x.binding
  nonce := some x.nonce

/-- For other groupings of the TDX registers, any attestation server, and another key if there are line breaks.
-/
theorem one_step_up_for_two :
    check_binding (stepped_up (promotion (tdx_profile "a" "b") 1)) "k"
      (some ⟨profile_binding_digest (tdx_profile "b" "a"), 1⟩) = .ok () ∧
    ¬ Distinguishes (promotion (tdx_profile "a" "b") 1) (promotion (tdx_profile "b" "a") 1) ∧
    ¬ Distinguishes (promotion (served_by "as") 1) (promotion (served_by "other") 1) ∧
    ¬ Distinguishes inner outer := by
  have hlines : (profile_lines (tdx_profile "a" "b")).Perm (profile_lines (tdx_profile "b" "a")) := by decide
  refine ⟨?_, fun h => ?_, fun h => ?_, fun h => ?_⟩
  · exact Authorisation.check_binding_iff.mpr ⟨_, "n", rfl, rfl, congrArg some (binding_of_perm hlines 1)⟩
  · have hsame := (h (binding_of_perm hlines 1)).profile.measurements (.Tdx "a1" "a" "a2")
    revert hsame
    decide
  · have hsame := (h rfl).profile.attestation_servers ⟨"as", none⟩
    revert hsame
    decide
  · have hsame := (h (binding_of_text inner_text)).profile.measurements (.Mrenclave "aa")
    revert hsame
    decide

end EnclaveOs.Vault.StepUp
