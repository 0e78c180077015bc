import EnclaveOs.Lib.Wire
import EnclaveOs.Lib.Sorting

/-! # Pinned dependencies -/

namespace EnclaveOs.Egress

open Lib

class Unicode where
  to_lowercase : String → String
  is_whitespace : Char → Bool

variable [Unicode]

def utf8 (s : String) : Bytes := s.toByteArray.data.toList

def from_utf8 (b : Bytes) : Option String := String.fromUTF8? ⟨b.toArray⟩

omit [Unicode] in
@[simp] theorem from_utf8_utf8 (s : String) : from_utf8 (utf8 s) = some s := by
  have hbytes : from_utf8 (utf8 s) = String.fromUTF8? s.toByteArray := by simp [from_utf8, utf8]
  rw [hbytes, String.fromUTF8?, dif_pos s.isValidUTF8]
  rfl

def hex_nibble (b : UInt8) : Option UInt8 :=
  if 0x30 ≤ b ∧ b ≤ 0x39 then some (b - 0x30)
  else if 0x61 ≤ b ∧ b ≤ 0x66 then some (b - 0x61 + 10)
  else if 0x41 ≤ b ∧ b ≤ 0x46 then some (b - 0x41 + 10)
  else none

def hex_chunks : Bytes → Option Bytes
  | hi :: lo :: rest => do
    let hi ← hex_nibble hi
    let lo ← hex_nibble lo
    let out ← hex_chunks rest
    return (hi <<< 4 ||| lo) :: out
  | _ => some []

def hex_decode (hex : String) : Option Bytes :=
  if (utf8 hex).length % 2 ≠ 0 then none else hex_chunks (utf8 hex)

inductive DepMeasurement
  | sgx (mrenclave : String)
  | tdx (mrtd rtmr1 rtmr2 : String)
  deriving DecidableEq, Repr

def DepMeasurement.canonical : DepMeasurement → String
  | sgx m => "sgx:" ++ Unicode.to_lowercase m
  | tdx mrtd rtmr1 rtmr2 =>
    "tdx:" ++ Unicode.to_lowercase mrtd ++ ":" ++ Unicode.to_lowercase rtmr1 ++ ":" ++ Unicode.to_lowercase rtmr2

structure DependencyEntry where
  app_id : String
  measurements : List DepMeasurement
  required_oids : List (String × Bytes)
  folded_identity : String
  deriving DecidableEq, Repr

structure DependencySet where
  entries : List DependencyEntry
  deriving DecidableEq, Repr

def by_app_id (a b : DependencyEntry) : Prop := (compare (utf8 a.app_id) (utf8 b.app_id)).isLE

def by_canonical (a b : DepMeasurement) : Prop := (compare (utf8 a.canonical) (utf8 b.canonical)).isLE

def by_oid (a b : String × Bytes) : Prop := ((compare (utf8 a.1) (utf8 b.1)).then (compare a.2 b.2)).isLE

instance : DecidableRel by_app_id := fun a b =>
  inferInstanceAs (Decidable ((compare (utf8 a.app_id) (utf8 b.app_id)).isLE = true))

instance : DecidableRel by_canonical := fun a b =>
  inferInstanceAs (Decidable ((compare (utf8 a.canonical) (utf8 b.canonical)).isLE = true))

instance : DecidableRel by_oid := fun a b =>
  inferInstanceAs (Decidable (((compare (utf8 a.1) (utf8 b.1)).then (compare a.2 b.2)).isLE = true))

instance : Std.Total by_app_id where
  total a b := by
    have hswap : compare (utf8 b.app_id) (utf8 a.app_id) =
        (compare (utf8 a.app_id) (utf8 b.app_id)).swap := Std.OrientedCmp.eq_swap
    unfold by_app_id
    rw [hswap]
    cases compare (utf8 a.app_id) (utf8 b.app_id) <;> simp

instance : IsTrans DependencyEntry by_app_id where
  trans _ _ _ := Std.TransCmp.isLE_trans

def DependencyEntry.normalised (e : DependencyEntry) : DependencyEntry :=
  { e with
    measurements := e.measurements.insertionSort by_canonical
    required_oids := e.required_oids.insertionSort by_oid }

def DependencySet.normalised (set : DependencySet) : DependencySet :=
  ⟨(set.entries.map DependencyEntry.normalised).insertionSort by_app_id⟩

def put_str (s : String) : Bytes := Wire.putBlock (utf8 s)

def write_oid (o : String × Bytes) : Bytes := put_str o.1 ++ Wire.putBlock o.2

def write_entry (e : DependencyEntry) : Bytes :=
  put_str e.app_id ++
  (Wire.putU32 e.measurements.length ++ e.measurements.flatMap fun m => put_str m.canonical) ++
  (Wire.putU32 e.required_oids.length ++ e.required_oids.flatMap write_oid) ++
  put_str (Unicode.to_lowercase e.folded_identity)

def encode_dependency_set (set : DependencySet) : Bytes :=
  Wire.putU32 set.normalised.entries.length ++ set.normalised.entries.flatMap write_entry

def truncated : String := "dependency set truncated"

def read_string : Wire.Reader String String := do
  let b ← Wire.block truncated
  match from_utf8 b with
  | some s => return s
  | none => throw "invalid utf-8 in dependency set"

/-- A missing part behind `tdx:` is empty. -/
def measurement_of_chars (s : List Char) : DepMeasurement :=
  match s.dropPrefix? ['t', 'd', 'x', ':'] with
  | some rest =>
    let part i := String.ofList ((rest.splitOn ':').getD i [])
    .tdx (part 0) (part 1) (part 2)
  | none => .sgx (String.ofList ((s.dropPrefix? ['s', 'g', 'x', ':']).getD s))

def measurement_from_canonical (s : String) : DepMeasurement := measurement_of_chars s.toList

def read_oid : Wire.Reader String (String × Bytes) := do
  let oid ← read_string
  let val ← Wire.block truncated
  return (oid, val)

def read_entry : Wire.Reader String DependencyEntry := do
  let app_id ← read_string
  let m_count ← Wire.u32 truncated
  let measurements ← Wire.times (measurement_from_canonical <$> read_string) m_count
  let o_count ← Wire.u32 truncated
  let required_oids ← Wire.times read_oid o_count
  let folded_identity ← read_string
  return { app_id, measurements, required_oids, folded_identity }

def read_entries : Wire.Reader String (List DependencyEntry) := do
  let count ← Wire.u32 truncated
  Wire.times read_entry count

def decode_dependency_set (bytes : Bytes) : Except String DependencySet := do
  let (entries, rest) ← read_entries bytes
  if rest ≠ [] then throw "trailing bytes in dependency set"
  return ⟨entries⟩

def canonicalize_encoded (bytes : Bytes) : Except String Bytes :=
  encode_dependency_set <$> decode_dependency_set bytes

/-! ## The check of a peer -/

/-- What the checks read. Extensions stand under dotted names. -/
structure X509Certificate where
  extensions : List (String × Bytes)
  algorithm : String
  parameters : Option String
  unused_bits : Nat
  subject_public_key : Bytes
  deriving DecidableEq, Repr

inductive TeeType
  | sgx
  | tdx
  deriving DecidableEq, Repr

abbrev Register (n : Nat) := { b : Bytes // b.length = n }

def APP_ID_OID_STR : String := "1.3.6.1.4.1.65230.4.1"

def ext_value (cert : X509Certificate) (oid : String) : Option Bytes := (cert.extensions.find? (·.1 = oid)).map (·.2)

def entry_pins_app_id (entry : DependencyEntry) (peer_app_id : Bytes) : Bool :=
  match entry.required_oids.find? (·.1 = APP_ID_OID_STR) with
  | some (_, val) => val = peer_app_id
  | none =>
    utf8 entry.app_id = peer_app_id ||
      hex_decode (String.ofList (entry.app_id.toList.filter (· ≠ '-'))) = some peer_app_id

def measurement_ok (tee : TeeType) (peer_mrenclave : Option (Register 32))
    (peer_mrtd : Option (Register 48)) : DepMeasurement → Bool
  | .sgx h => tee = .sgx && peer_mrenclave.any fun mre => hex_decode h = some mre.val
  -- the other two registers are not looked at
  | .tdx mrtd _ _ => tee = .tdx && peer_mrtd.any fun t => hex_decode mrtd = some t.val

def check_oids (cert : X509Certificate) (app_id : String) : List (String × Bytes) → Except String Unit
  | [] => .ok ()
  | (oid, val) :: rest =>
    if ext_value cert oid = some val then check_oids cert app_id rest
    else .error ("RA-TLS: dependency " ++ app_id ++ " required OID " ++ oid ++ " mismatch (fail closed)")

def check_entry (cert : X509Certificate) (tee : TeeType) (peer_mrenclave : Option (Register 32))
    (peer_mrtd : Option (Register 48)) (entry : DependencyEntry) : Except String Unit :=
  if entry.measurements.any (measurement_ok tee peer_mrenclave peer_mrtd) then
    check_oids cert entry.app_id entry.required_oids
  else .error ("RA-TLS: dependency " ++ entry.app_id ++ " measurement not pinned (fail closed)")

def check_entries (cert : X509Certificate) (tee : TeeType) (peer_mrenclave : Option (Register 32))
    (peer_mrtd : Option (Register 48)) (peer_app_id : Bytes) : List DependencyEntry → Except String Unit
  | [] => .ok ()
  | entry :: rest =>
    if entry_pins_app_id entry peer_app_id then check_entry cert tee peer_mrenclave peer_mrtd entry
    else check_entries cert tee peer_mrenclave peer_mrtd peer_app_id rest

section

variable (cert : X509Certificate) (tee : TeeType) (peer_mrenclave : Option (Register 32)) (peer_mrtd : Option (Register 48))

def check_set (set : DependencySet) : Except String Unit :=
  if set.entries.isEmpty then .ok ()
  else
    match ext_value cert APP_ID_OID_STR with
    | none => .ok ()
    | some peer_app_id => check_entries cert tee peer_mrenclave peer_mrtd peer_app_id set.entries

def verify_dependencies (deps : Bytes) : Except String Unit := do
  let set ← (decode_dependency_set deps).mapError ("RA-TLS: invalid pinned dependency set: " ++ ·)
  check_set cert tee peer_mrenclave peer_mrtd set

end

/-- Every length of the entry has room in its four bytes. -/
structure DependencyEntry.Fits (e : DependencyEntry) : Prop where
  app_id : (utf8 e.app_id).length < 2 ^ 32
  m_count : e.measurements.length < 2 ^ 32
  measurements : ∀ m ∈ e.measurements, (utf8 m.canonical).length < 2 ^ 32
  o_count : e.required_oids.length < 2 ^ 32
  required_oids : ∀ o ∈ e.required_oids, (utf8 o.1).length < 2 ^ 32 ∧ o.2.length < 2 ^ 32
  folded_identity : (utf8 (Unicode.to_lowercase e.folded_identity)).length < 2 ^ 32

structure DependencySet.Fits (set : DependencySet) : Prop where
  count : set.entries.length < 2 ^ 32
  entries : ∀ e ∈ set.entries, e.Fits

def DependencyEntry.reread (e : DependencyEntry) : DependencyEntry :=
  { e with
    measurements := e.measurements.map fun m => measurement_from_canonical m.canonical
    folded_identity := Unicode.to_lowercase e.folded_identity }

def DependencyEntry.sealed (e : DependencyEntry) : DependencyEntry := e.normalised.reread

def DependencySet.sealed (set : DependencySet) : DependencySet :=
  ⟨(set.entries.insertionSort by_app_id).map DependencyEntry.sealed⟩

def DepMeasurement.lowered : DepMeasurement → DepMeasurement
  | sgx m => sgx (Unicode.to_lowercase m)
  | tdx mrtd rtmr1 rtmr2 =>
    tdx (Unicode.to_lowercase mrtd) (Unicode.to_lowercase rtmr1) (Unicode.to_lowercase rtmr2)

theorem reread_sgx (m : String) : measurement_from_canonical (DepMeasurement.sgx m).canonical =
    (DepMeasurement.sgx m).lowered := by
  simp [measurement_from_canonical, measurement_of_chars, DepMeasurement.canonical, DepMeasurement.lowered,
    List.dropPrefix?]

theorem reread_tdx {mrtd rtmr1 rtmr2 : String} (h : ':' ∉ (Unicode.to_lowercase mrtd).toList)
    (h1 : ':' ∉ (Unicode.to_lowercase rtmr1).toList) (h2 : ':' ∉ (Unicode.to_lowercase rtmr2).toList) :
    measurement_from_canonical (DepMeasurement.tdx mrtd rtmr1 rtmr2).canonical =
      (DepMeasurement.tdx mrtd rtmr1 rtmr2).lowered := by
  simp [measurement_from_canonical, measurement_of_chars, DepMeasurement.canonical, DepMeasurement.lowered,
    List.dropPrefix?, List.splitOn_append_cons_self_of_not_mem h, List.splitOn_append_cons_self_of_not_mem h1,
    List.splitOn_eq_singleton h2]

theorem normalised_entries (set : DependencySet) :
    set.normalised.entries = (set.entries.insertionSort by_app_id).map DependencyEntry.normalised := by
  refine (List.map_insertionSort by_app_id by_app_id _ _ ?_).symm
  intro a _ b _
  rfl

theorem DependencyEntry.Fits.normalised {e : DependencyEntry} (h : e.Fits) : e.normalised.Fits where
  app_id := h.app_id
  m_count := by simpa [DependencyEntry.normalised] using h.m_count
  measurements := by simpa [DependencyEntry.normalised] using h.measurements
  o_count := by simpa [DependencyEntry.normalised] using h.o_count
  required_oids := by simpa [DependencyEntry.normalised] using h.required_oids
  folded_identity := h.folded_identity

omit [Unicode] in
theorem read_string_reads {s : String} (h : (utf8 s).length < 2 ^ 32) : Wire.Reads read_string (put_str s) s := by
  rw [← List.append_nil (put_str s)]
  refine (Wire.block_reads truncated h).bind ?_
  rw [from_utf8_utf8]
  exact Wire.Reads.pure s

theorem read_entry_reads {e : DependencyEntry} (h : e.Fits) : Wire.Reads read_entry (write_entry e) e.reread := by
  have hm := Wire.times_reads fun m hm =>
    (read_string_reads (h.measurements m hm)).map measurement_from_canonical
  have ho := Wire.times_reads (fun o ho => (read_string_reads (h.required_oids o ho).1).bind
    ((Wire.block_reads truncated (h.required_oids o ho).2).map _) : ∀ o ∈ e.required_oids, Wire.Reads read_oid (write_oid o) o)
  rw [List.map_id'] at ho
  simp only [write_entry, List.append_assoc]
  refine (read_string_reads h.app_id).bind ?_
  refine (Wire.u32_reads truncated h.m_count).bind ?_
  refine hm.bind ?_
  refine (Wire.u32_reads truncated h.o_count).bind ?_
  refine ho.bind ?_
  exact (read_string_reads h.folded_identity).map _

theorem decode_encode {set : DependencySet} (h : set.Fits) :
    decode_dependency_set (encode_dependency_set set) = .ok set.sealed := by
  have hall : ∀ e ∈ set.normalised.entries, Wire.Reads read_entry (write_entry e) e.reread := by
    intro e he
    rw [normalised_entries, List.mem_map] at he
    obtain ⟨e, he, rfl⟩ := he
    rw [List.mem_insertionSort] at he
    exact read_entry_reads (h.entries e he).normalised
  have hcount : set.normalised.entries.length < 2 ^ 32 := by
    rw [normalised_entries, List.length_map, List.length_insertionSort]
    exact h.count
  have hread : Wire.Reads read_entries (encode_dependency_set set) (set.normalised.entries.map _) :=
    (Wire.u32_reads truncated hcount).bind (Wire.times_reads hall)
  rw [decode_dependency_set, hread.all, normalised_entries, List.map_map]
  rfl

scoped instance Sample.unicode : Unicode where
  to_lowercase s := String.ofList (s.toList.map Char.toLower)
  is_whitespace c := c = ' '

def Sample.register (n : Nat) (b : UInt8) : Register n := ⟨List.replicate n b, by simp⟩

end EnclaveOs.Egress
