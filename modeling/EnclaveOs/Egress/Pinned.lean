import EnclaveOs.Egress.Dependencies

/-! # What a pinned dependency enforces -/

namespace EnclaveOs.Egress

open Lib
open DependencySet (sealed)

inductive Quote
  | sgx (mrenclave : Register 32)
  | tdx (mrtd rtmr1 rtmr2 : Register 48)
  deriving DecidableEq

namespace Quote

def tee : Quote → TeeType
  | sgx _ => .sgx
  | tdx _ _ _ => .tdx

def mrenclave : Quote → Option (Register 32)
  | sgx r => some r
  | tdx _ _ _ => none

def mrtd : Quote → Option (Register 48)
  | sgx _ => none
  | tdx r _ _ => some r

/-- All registers of the quote are those of the measurement, three of them for TDX. -/
def Matches : Quote → DepMeasurement → Prop
  | sgx r, .sgx h => hex_decode h = some r.val
  | tdx r r1 r2, .tdx h h1 h2 =>
    hex_decode h = some r.val ∧ hex_decode h1 = some r1.val ∧ hex_decode h2 = some r2.val
  | _, _ => False

instance : ∀ (q : Quote) (m : DepMeasurement), Decidable (q.Matches m)
  | sgx _, .sgx _ => inferInstanceAs (Decidable (_ = _))
  | tdx _ _ _, .tdx _ _ _ => inferInstanceAs (Decidable (_ ∧ _ ∧ _))
  | sgx _, .tdx _ _ _ => .isFalse id
  | tdx _ _ _, .sgx _ => .isFalse id

/-- The register that the check compares. -/
def Begins : Quote → DepMeasurement → Prop
  | sgx r, .sgx h => hex_decode h = some r.val
  | tdx r _ _, .tdx h _ _ => hex_decode h = some r.val
  | _, _ => False

theorem measurement_ok_iff {q : Quote} {m : DepMeasurement} :
    measurement_ok q.tee q.mrenclave q.mrtd m = true ↔ q.Begins m := by
  cases q <;> cases m <;> simp [Begins, measurement_ok, tee, mrenclave, mrtd]

theorem sgx_matches {r : Register 32} {m : DepMeasurement} (h : (sgx r).Begins m) : (sgx r).Matches m := by
  cases m with
  | sgx h' => exact h
  | tdx _ _ _ => exact h.elim

end Quote

section Theory

variable [Unicode]

/-- The certificate carries the app-id of the entry. -/
def Pins (cert : X509Certificate) (e : DependencyEntry) : Prop :=
  (ext_value cert APP_ID_OID_STR).any (entry_pins_app_id e) = true

/-- The certificate has every OID of the entry with the required value. -/
def Carries (cert : X509Certificate) (e : DependencyEntry) : Prop :=
  ∀ o ∈ e.required_oids, ext_value cert o.1 = some o.2

/-- What the check asks of the entry at which it stops. -/
def Passes (cert : X509Certificate) (q : Quote) (e : DependencyEntry) : Prop :=
  (∃ m ∈ e.measurements, q.Begins m) ∧ Carries cert e

/-- `verify_dependencies` on what the source passes it of the quote, RTMRs left out. -/
def Accepts (set : DependencySet) (cert : X509Certificate) (q : Quote) : Prop :=
  verify_dependencies cert q.tee q.mrenclave q.mrtd (encode_dependency_set set) = .ok ()

/-- An entry for the peer lists every register of the quote, and its OIDs are there. -/
def Enforced (set : DependencySet) (cert : X509Certificate) (q : Quote) : Prop :=
  ∃ e ∈ set.sealed.entries, Pins cert e ∧ (∃ m ∈ e.measurements, q.Matches m) ∧ Carries cert e

/-- Peers with an entry need one that matches in full, whatever the order of the entries; other peers pass. -/
structure EnforcedInFull (set : DependencySet) (cert : X509Certificate) (q : Quote) : Prop where
  pinned : (∃ e ∈ set.sealed.entries, Pins cert e) → Accepts set cert q → Enforced set cert q
  orderless : ∀ set' : DependencySet, set'.entries.Perm set.entries → (Accepts set' cert q ↔ Accepts set cert q)
  unpinned : (∀ e ∈ set.sealed.entries, ¬ Pins cert e) → Accepts set cert q

/-! ## The check, entry by entry -/

omit [Unicode] in
theorem check_oids_ok {cert : X509Certificate} {app_id : String} {l : List (String × Bytes)} :
    check_oids cert app_id l = .ok () ↔ ∀ o ∈ l, ext_value cert o.1 = some o.2 := by
  induction l with
  | nil => simp [check_oids]
  | cons o l ih =>
    obtain ⟨oid, val⟩ := o
    rw [check_oids, List.forall_mem_cons]
    split
    · rename_i h
      simp [ih, h]
    · rename_i h
      simp [h]

omit [Unicode] in
theorem check_entry_ok {cert : X509Certificate} {q : Quote} {e : DependencyEntry} :
    check_entry cert q.tee q.mrenclave q.mrtd e = .ok () ↔ Passes cert q e := by
  unfold check_entry Passes
  simp only [← Quote.measurement_ok_iff]
  split
  · rename_i h
    rw [check_oids_ok]
    rw [List.any_eq_true] at h
    exact ⟨fun ho => ⟨h, ho⟩, fun hp => hp.2⟩
  · rename_i h
    rw [List.any_eq_true] at h
    simp only [reduceCtorEq, false_iff]
    exact fun hp => h hp.1

variable {cert : X509Certificate} {q : Quote}

omit [Unicode] in
theorem check_entries_ok {id : Bytes} {l : List DependencyEntry} :
    check_entries cert q.tee q.mrenclave q.mrtd id l = .ok () ↔
      ∀ e, l.find? (entry_pins_app_id · id) = some e → Passes cert q e := by
  induction l with
  | nil => simp [check_entries]
  | cons e l ih =>
    rw [check_entries]
    split
    · rename_i h
      simp [check_entry_ok, h]
    · rename_i h
      simp [ih, h]

theorem accepts_sealed {set : DependencySet} (hfits : set.Fits) :
    Accepts set cert q ↔ check_set cert q.tee q.mrenclave q.mrtd set.sealed = .ok () := by
  rw [Accepts, verify_dependencies, decode_encode hfits]
  rfl

theorem verify_dependencies_ok {set : DependencySet} (hfits : set.Fits) :
    Accepts set cert q ↔ ∀ id, ext_value cert APP_ID_OID_STR = some id →
      ∀ e, set.sealed.entries.find? (entry_pins_app_id · id) = some e → Passes cert q e := by
  rw [accepts_sealed hfits, check_set]
  split
  · rename_i h
    rw [List.isEmpty_iff] at h
    simp [h]
  · rcases hid : ext_value cert APP_ID_OID_STR with _ | id
    · simp
    · simp [check_entries_ok]

variable {cert : X509Certificate} {set : DependencySet} {q : Quote}

omit [Unicode] in
theorem pins_iff {id : Bytes} (h : ext_value cert APP_ID_OID_STR = some id)
    {e : DependencyEntry} : Pins cert e ↔ entry_pins_app_id e id = true := by
  simp [Pins, h]

omit [Unicode] in
theorem pins_of_find? {id : Bytes} (hid : ext_value cert APP_ID_OID_STR = some id) {l : List DependencyEntry}
    {e : DependencyEntry} (he : l.find? (entry_pins_app_id · id) = some e) : e ∈ l ∧ Pins cert e := by
  have hp := List.find?_some he
  exact ⟨List.mem_of_find?_eq_some he, (pins_iff hid).mpr hp⟩

/-! ## The order of the entries -/

theorem DependencySet.Fits.perm {set' : DependencySet} (h : set'.entries.Perm set.entries)
    (hfits : set.Fits) : set'.Fits where
  count := h.length_eq ▸ hfits.count
  entries := fun e he => hfits.entries e (h.mem_iff.mp he)

theorem accepts_iff (hfits : set.Fits) {id : Bytes} (hid : ext_value cert APP_ID_OID_STR = some id) :
    Accepts set cert q ↔ ∀ e, (set.entries.insertionSort by_app_id).find?
      (fun e => entry_pins_app_id e.sealed id) = some e → Passes cert q e.sealed := by
  rw [verify_dependencies_ok hfits]
  simp only [hid, Option.some.injEq, forall_eq', sealed, List.find?_map]
  simp

/-- All entries that may come first say the same. -/
def Alike (set : DependencySet) (cert : X509Certificate) (q : Quote) : Prop :=
  ∀ id, ext_value cert APP_ID_OID_STR = some id →
    ∀ a b, LeastMatch by_app_id (fun e => entry_pins_app_id e.sealed id) set.entries a →
      LeastMatch by_app_id (fun e => entry_pins_app_id e.sealed id) set.entries b →
      (Passes cert q a.sealed ↔ Passes cert q b.sealed)

theorem orderless_iff (hfits : set.Fits) : (∀ set' : DependencySet, set'.entries.Perm set.entries →
      (Accepts set' cert q ↔ Accepts set cert q)) ↔ Alike set cert q := by
  rcases hid : ext_value cert APP_ID_OID_STR with _ | id
  · have hall : ∀ set' : DependencySet, set'.Fits → Accepts set' cert q := by
      intro set' hfits'
      rw [verify_dependencies_ok hfits', hid]
      simp
    simp only [Alike, hid, reduceCtorEq, false_imp_iff, implies_true, iff_true]
    intro set' hperm
    exact iff_of_true (hall set' (hfits.perm hperm)) (hall set hfits)
  · have hverdict := verdict_orderless_iff by_app_id (p := fun e => entry_pins_app_id e.sealed id)
      set.entries fun e => Passes cert q e.sealed
    simp only [Alike, hid, Option.some.injEq, forall_eq']
    rw [← hverdict]
    constructor
    · intro h entries hperm
      have hfits' : DependencySet.Fits ⟨entries⟩ := hfits.perm hperm
      rw [← accepts_iff hfits hid, ← accepts_iff hfits' hid]
      exact h ⟨entries⟩ hperm
    · intro h set' hperm
      rw [accepts_iff hfits hid, accepts_iff (hfits.perm hperm) hid]
      exact h set'.entries hperm

/-- If the first entry for the peer lists the MRTD of a TDX quote and its OIDs are there, then all registers are listed
under an entry for the peer whose OIDs are there. -/
def Listed (set : DependencySet) (cert : X509Certificate) (q : Quote) : Prop :=
  ∀ mrtd rtmr1 rtmr2, q = .tdx mrtd rtmr1 rtmr2 → ∀ id first, ext_value cert APP_ID_OID_STR = some id →
    set.sealed.entries.find? (entry_pins_app_id · id) = some first → Passes cert q first →
    ∃ e ∈ set.sealed.entries, Pins cert e ∧ Carries cert e ∧
      ∃ h h1 h2, .tdx h h1 h2 ∈ e.measurements ∧ hex_decode h = some mrtd.val ∧
        hex_decode h1 = some rtmr1.val ∧ hex_decode h2 = some rtmr2.val

theorem enforced_iff (hfits : set.Fits) :
    ((∃ e ∈ set.sealed.entries, Pins cert e) → Accepts set cert q → Enforced set cert q) ↔ Listed set cert q := by
  constructor
  · rintro h mrtd rtmr1 rtmr2 rfl id first hid hfirst hpass
    have hacc : Accepts set cert (.tdx mrtd rtmr1 rtmr2) := by
      refine (verify_dependencies_ok hfits).mpr fun id' hid' e he => ?_
      obtain rfl := Option.some.inj (hid.symm.trans hid')
      exact Option.some.inj (hfirst.symm.trans he) ▸ hpass
    obtain ⟨e, he, hpin, ⟨m, hm, hmatch⟩, hcarries⟩ := h ⟨first, pins_of_find? hid hfirst⟩ hacc
    cases m with
    | sgx m => exact hmatch.elim
    | tdx h h1 h2 => exact ⟨e, he, hpin, hcarries, h, h1, h2, hm, hmatch⟩
  · rintro h ⟨e, he, hpin⟩ hacc
    obtain ⟨id, hid, hp⟩ := (Option.any_eq_true _ _).mp hpin
    have hsome : (set.sealed.entries.find? (entry_pins_app_id · id)).isSome := List.find?_isSome.mpr ⟨e, he, hp⟩
    obtain ⟨first, hfirst⟩ := Option.isSome_iff_exists.mp hsome
    have hpass := (verify_dependencies_ok hfits).mp hacc id hid first hfirst
    cases q with
    | sgx r =>
      obtain ⟨⟨m, hm, hbegins⟩, hcarries⟩ := hpass
      obtain ⟨he, hpin⟩ := pins_of_find? hid hfirst
      exact ⟨first, he, hpin, ⟨m, hm, Quote.sgx_matches hbegins⟩, hcarries⟩
    | tdx mrtd rtmr1 rtmr2 =>
      obtain ⟨e, he, hpin, hcarries, h, h1, h2, hm, hmatch⟩ := h _ _ _ rfl id first hid hfirst hpass
      exact ⟨e, he, hpin, ⟨_, hm, hmatch⟩, hcarries⟩

/-- The set is enforced exactly when all registers are listed and the entries that may come first agree. -/
theorem enforced_in_full_iff (set : DependencySet) (hfits : set.Fits) (cert : X509Certificate)
    (q : Quote) : EnforcedInFull set cert q ↔ Listed set cert q ∧ Alike set cert q := by
  rw [← enforced_iff hfits, ← orderless_iff hfits]
  constructor
  · intro h
    exact ⟨h.pinned, h.orderless⟩
  · rintro ⟨hpinned, horderless⟩
    refine ⟨hpinned, horderless, fun h => (verify_dependencies_ok hfits).mpr fun id hid e he => ?_⟩
    obtain ⟨he, hpin⟩ := pins_of_find? hid he
    exact absurd hpin (h e he)

end Theory

namespace Sample

def digits (n : Nat) (c : Char) : String := String.ofList (List.replicate (2 * n) c)

def database : X509Certificate where
  extensions := [(APP_ID_OID_STR, utf8 "db")]
  algorithm := "1.2.840.10045.2.1"
  parameters := some "1.2.840.10045.3.1.7"
  unused_bits := 0
  subject_public_key := 4 :: List.replicate 64 1

def entry (m : DepMeasurement) : DependencyEntry := ⟨"db", [m], [], ""⟩

def onTdx : DependencyEntry := entry (.tdx (digits 48 'a') (digits 48 'b') (digits 48 'c'))

def onSgx : DependencyEntry := entry (.sgx (digits 32 'a'))

def otherKernel : Quote := .tdx (register 48 0xaa) (register 48 0) (register 48 0)

def sameKernel : Quote := .tdx (register 48 0xaa) (register 48 0xbb) (register 48 0xcc)

def enclave : Quote := .sgx (register 32 0xaa)

theorem digits_lower (n : Nat) {c : Char} (h : c.toLower = c) : Unicode.to_lowercase (digits n c) = digits n c := by
  simp [Unicode.to_lowercase, digits, h]

theorem colon_notMem_digits (n : Nat) {c : Char} (h : ':' ≠ c) : ':' ∉ (digits n c).toList := by
  simp [digits, h]

theorem entry_sealed {m : DepMeasurement} (h : measurement_from_canonical m.canonical = m) :
    (entry m).sealed = entry m := by
  have hempty : Unicode.to_lowercase "" = "" := by decide +kernel
  simp [DependencyEntry.sealed, DependencyEntry.reread, DependencyEntry.normalised, entry, h, hempty]

theorem onSgx_sealed : onSgx.sealed = onSgx := by
  apply entry_sealed
  rw [reread_sgx, DepMeasurement.lowered, digits_lower 32 (by decide)]

theorem onTdx_sealed : onTdx.sealed = onTdx := by
  have ha := digits_lower 48 (c := 'a') (by decide)
  have hb := digits_lower 48 (c := 'b') (by decide)
  have hc := digits_lower 48 (c := 'c') (by decide)
  apply entry_sealed
  rw [reread_tdx, DepMeasurement.lowered, ha, hb, hc]
  · rw [ha]
    exact colon_notMem_digits 48 (by decide)
  · rw [hb]
    exact colon_notMem_digits 48 (by decide)
  · rw [hc]
    exact colon_notMem_digits 48 (by decide)

theorem entry_fits {m : DepMeasurement} (h : (utf8 m.canonical).length < 2 ^ 32) : (entry m).Fits := by
  have hid : (utf8 "db").length < 2 ^ 32 := by decide +kernel
  have hfolded : (utf8 (Unicode.to_lowercase "")).length < 2 ^ 32 := by decide +kernel
  refine ⟨hid, by simp [entry], ?_, by simp [entry], by simp [entry], hfolded⟩
  intro x hx
  rw [List.mem_singleton.mp hx]
  exact h

theorem onSgx_fits : onSgx.Fits := by
  apply entry_fits
  rw [DepMeasurement.canonical, digits_lower 32 (by decide)]
  decide +kernel

theorem onTdx_fits : onTdx.Fits := by
  apply entry_fits
  rw [DepMeasurement.canonical, digits_lower 48 (by decide), digits_lower 48 (by decide), digits_lower 48 (by decide)]
  decide +kernel

end Sample

open Sample

theorem onTdx_alone : DependencySet.Fits ⟨[onTdx]⟩ ∧ sealed ⟨[onTdx]⟩ = ⟨[onTdx]⟩ ∧ Pins database onTdx := by
  refine ⟨⟨by decide, by simpa using onTdx_fits⟩, by simp [sealed, onTdx_sealed], ?_⟩
  unfold Pins
  decide +kernel

theorem enforced_in_full_tdx : DependencySet.Fits ⟨[onTdx]⟩ ∧ EnforcedInFull ⟨[onTdx]⟩ database sameKernel := by
  obtain ⟨hfits, hsealed, hpin⟩ := onTdx_alone
  refine ⟨hfits, (enforced_in_full_iff _ hfits _ _).mpr ⟨?_, ?_⟩⟩
  · rintro mrtd rtmr1 rtmr2 ⟨⟩ id first - - -
    refine ⟨onTdx, by simp [hsealed], hpin, by simp [Carries, onTdx, entry], _, _, _, List.mem_singleton_self _, ?_⟩
    decide +kernel
  · rintro id - a b ⟨ha, -⟩ ⟨hb, -⟩
    rw [List.mem_singleton.mp ha, List.mem_singleton.mp hb]

/-- Other RTMRs are accepted, and of two entries the first decides. -/
theorem not_enforced_in_full :
    ¬ EnforcedInFull ⟨[onTdx]⟩ database otherKernel ∧ ¬ EnforcedInFull ⟨[onSgx, onTdx]⟩ database enclave := by
  obtain ⟨hone, h1, hpin⟩ := onTdx_alone
  have htwo : DependencySet.Fits ⟨[onSgx, onTdx]⟩ := ⟨by decide, by simpa using ⟨onSgx_fits, onTdx_fits⟩⟩
  have hswap : DependencySet.Fits ⟨[onTdx, onSgx]⟩ := ⟨by decide, by simpa using ⟨onTdx_fits, onSgx_fits⟩⟩
  have hsame : ∀ a b : DependencyEntry, a.app_id = b.app_id → by_app_id a b := by
    intro a b h
    simp [by_app_id, h]
  have hleft := hsame onSgx onTdx rfl
  have hright := hsame onTdx onSgx rfl
  have h2 : sealed ⟨[onSgx, onTdx]⟩ = ⟨[onSgx, onTdx]⟩ := by
    simp [sealed, onTdx_sealed, onSgx_sealed, hleft]
  have h3 : sealed ⟨[onTdx, onSgx]⟩ = ⟨[onTdx, onSgx]⟩ := by
    simp [sealed, onTdx_sealed, onSgx_sealed, hright]
  constructor
  · intro h
    have hacc : Accepts ⟨[onTdx]⟩ database otherKernel := by
      rw [accepts_sealed hone, h1]
      decide +kernel
    have hnot : ¬ ∃ m ∈ onTdx.measurements, otherKernel.Matches m := by decide +kernel
    obtain ⟨e, he, -, hmatch, -⟩ := h.pinned ⟨onTdx, by simp [h1], hpin⟩ hacc
    rw [h1, List.mem_singleton] at he
    exact hnot (he ▸ hmatch)
  · intro h
    have hacc : Accepts ⟨[onSgx, onTdx]⟩ database enclave := by
      rw [accepts_sealed htwo, h2]
      decide +kernel
    have hrej : ¬ Accepts ⟨[onTdx, onSgx]⟩ database enclave := by
      rw [accepts_sealed hswap, h3]
      decide +kernel
    exact hrej ((h.orderless ⟨[onTdx, onSgx]⟩ (List.Perm.swap ..)).mpr hacc)

end EnclaveOs.Egress
