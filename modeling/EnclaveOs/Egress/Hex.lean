import EnclaveOs.Egress.Dependencies

/-! # Hex texts (`hex.rs`, `quote.rs`, `jwt.rs`) -/

namespace EnclaveOs.Hex

open Lib Egress

def HEX : List Char := "0123456789abcdef".toList

def hex_digit (n : UInt8) : Char := HEX.getD n.toNat '0'

def hex_pair (b : UInt8) : List Char := [hex_digit (b >>> 4), hex_digit (b &&& 0x0f)]

/-- `quote::hex_encode` writes the same digits. -/
def hex_encode (bytes : Bytes) : String := String.ofList (bytes.flatMap hex_pair)

/-- A copy of `hex::hex_decode`. -/
def jwt_hex_decode (hex : String) : Option Bytes := hex_decode hex

/-- The bytes of a character after its first. -/
def in_character (b : UInt8) : Bool := 0x80 ≤ b && b < 0xc0

/-- `u8::from_str_radix` of two bytes: a plus sign may be the first. -/
def from_str_radix_16 (a b : UInt8) : Option UInt8 :=
  if a = 0x2b then hex_nibble b else do
    let hi ← hex_nibble a
    let lo ← hex_nibble b
    return hi * 16 + lo

/-- `none` is a panic: a text is cut between its characters only. -/
def quote_chunks (i : Nat) : Bytes → Except (Option String) Bytes
  | a :: b :: rest =>
    if in_character a || rest.head?.any in_character then
      .error none
    else
      match from_str_radix_16 a b with
      | none => .error (some ("invalid hex at offset " ++ toString i ++ ": invalid digit found in string"))
      | some byte => (byte :: ·) <$> quote_chunks (i + 2) rest
  | _ => .ok []

def quote_hex_decode (hex : String) : Except (Option String) Bytes :=
  if (utf8 hex).length % 2 ≠ 0 then .error (some "odd-length hex string") else quote_chunks 0 (utf8 hex)

def to_ascii_lowercase (x : UInt8) : UInt8 := if 0x41 ≤ x ∧ x ≤ 0x5a then x + 0x20 else x

/-! ## Which texts are read -/

/-- A hexadecimal digit of either case, as a byte. -/
def Digit (x : UInt8) : Prop := x ∈ utf8 "0123456789abcdefABCDEF"

/-- What `from_str_radix` takes as the first byte of two. -/
def Signed (x : UInt8) : Prop := x = 0x2b ∨ Digit x

/-- An even number of digits and nothing else. -/
def HexText (t : Bytes) : Prop := t.length % 2 = 0 ∧ ∀ x ∈ t, Digit x

/-- Pairs whose first byte may be a plus sign. -/
def Pairs : Bytes → Prop
  | a :: b :: t => Signed a ∧ Digit b ∧ Pairs t
  | _ => True

/-- After pairs that are read, a pair starts or ends inside a character. -/
def Splits : Bytes → Prop
  | a :: b :: t => in_character a ∨ t.head?.any in_character ∨ Signed a ∧ Digit b ∧ Splits t
  | _ => False

theorem nibble_isSome (x : UInt8) : (hex_nibble x).isSome ↔ Digit x := by
  revert x
  unfold Digit
  decide +kernel

theorem radix_isSome (a b : UInt8) : (from_str_radix_16 a b).isSome ↔ Signed a ∧ Digit b := by
  rw [Signed, ← nibble_isSome, ← nibble_isSome, from_str_radix_16]
  split
  · simp [*]
  · cases hex_nibble a <;> cases hex_nibble b <;> simp [*]

def chunk (a b : UInt8) : Option UInt8 := do
  let hi ← hex_nibble a
  let lo ← hex_nibble b
  return hi <<< 4 ||| lo

theorem nibble_spec {x n : UInt8} (h : hex_nibble x = some n) :
    n < 16 ∧ String.utf8EncodeChar (hex_digit n) = [to_ascii_lowercase x] := by
  have hall : ∀ x, (hex_nibble x).all fun n =>
      decide (n < 16 ∧ String.utf8EncodeChar (hex_digit n) = [to_ascii_lowercase x]) := by decide +kernel
  have hx := hall x
  rw [h] at hx
  simpa using hx

theorem join_nibbles {hi lo : UInt8} (hhi : hi < 16) (hlo : lo < 16) :
    (hi <<< 4 ||| lo) = hi * 16 + lo ∧ hex_pair (hi <<< 4 ||| lo) = [hex_digit hi, hex_digit lo] := by
  have hall : ∀ a b : Fin 16, (UInt8.ofNat a <<< 4 ||| UInt8.ofNat b) = UInt8.ofNat a * 16 + UInt8.ofNat b ∧
      hex_pair (UInt8.ofNat a <<< 4 ||| UInt8.ofNat b) = [hex_digit (UInt8.ofNat a), hex_digit (UInt8.ofNat b)] := by
    decide +kernel
  simpa using hall ⟨hi.toNat, UInt8.lt_iff_toNat_lt.mp hhi⟩ ⟨lo.toNat, UInt8.lt_iff_toNat_lt.mp hlo⟩

theorem radix_digit {a b : UInt8} (h : Digit a) : from_str_radix_16 a b = chunk a b := by
  rw [from_str_radix_16, if_neg (by rintro rfl; revert h; unfold Digit; decide), chunk]
  cases ha : hex_nibble a with
  | none => rfl
  | some hi =>
    cases hb : hex_nibble b with
    | none => rfl
    | some lo => exact congrArg some (join_nibbles (nibble_spec ha).1 (nibble_spec hb).1).1.symm

theorem hex_chunks_cons (a b : UInt8) (t : Bytes) : hex_chunks (a :: b :: t) = (do
    let byte ← chunk a b
    let out ← hex_chunks t
    return byte :: out) := by
  rw [hex_chunks, chunk]
  cases hex_nibble a <;> cases hex_nibble b <;> rfl

theorem hex_chunks_isSome : ∀ t, t.length % 2 = 0 → ((hex_chunks t).isSome ↔ ∀ x ∈ t, Digit x)
  | [], _ => by simp [hex_chunks]
  | a :: b :: t, h => by
    have ih := hex_chunks_isSome t (by simp only [List.length_cons] at h; omega)
    simp only [List.forall_mem_cons]
    rw [← ih, ← nibble_isSome, ← nibble_isSome, hex_chunks]
    cases hex_nibble a <;> cases hex_nibble b <;> cases hex_chunks t <;> simp

theorem pairs_of_digits : ∀ t, (∀ x ∈ t, Digit x) → Pairs t
  | [], _ | [_], _ => trivial
  | a :: b :: t, h => ⟨.inr (h a (by simp)), h b (by simp), pairs_of_digits t fun x hx => h x (by simp [hx])⟩

theorem quote_chunks_spec : ∀ i t, match quote_chunks i t with
    | .error none => Splits t
    | .error (some _) => ¬ Splits t ∧ ¬ Pairs t
    | .ok b => ¬ Splits t ∧ Pairs t ∧ ((∀ x ∈ t, Digit x) → hex_chunks t = some b)
  | _, [] => by simp [quote_chunks, Splits, Pairs, hex_chunks]
  | _, [_] => by simp [quote_chunks, Splits, Pairs, hex_chunks]
  | i, a :: b :: t => by
    have ih := quote_chunks_spec (i + 2) t
    have hradix := radix_isSome a b
    rw [quote_chunks, Splits, Pairs]
    by_cases hcut : (in_character a || t.head?.any in_character) = true
    · rw [if_pos hcut]
      simp only [Bool.or_eq_true] at hcut
      exact or_assoc.mp (.inl hcut)
    rw [if_neg hcut]
    simp only [Bool.or_eq_true, not_or] at hcut
    cases hbyte : from_str_radix_16 a b with
    | none =>
      rw [hbyte] at hradix
      simp at hradix
      simp [hcut]
      tauto
    | some byte =>
      rw [hbyte] at hradix
      obtain ⟨hsigned, hdigit⟩ := hradix.mp rfl
      cases hrest : quote_chunks (i + 2) t with
      | error e =>
        rw [hrest] at ih
        cases e <;> simp_all
      | ok out =>
        rw [hrest] at ih
        refine ⟨by simp_all, ⟨hsigned, hdigit, ih.2.1⟩, fun hall => ?_⟩
        simp only [List.forall_mem_cons] at hall
        rw [hex_chunks_cons, ← radix_digit hall.1, hbyte, ih.2.2 hall.2.2]
        rfl

def byte_pair (x : UInt8) : Bytes := (hex_pair x).flatMap String.utf8EncodeChar

theorem utf8_hex_encode (b : Bytes) : utf8 (hex_encode b) = b.flatMap byte_pair := by
  simp [utf8, hex_encode, List.utf8Encode, List.flatMap_assoc]
  rfl

theorem hex_chunks_encode (b : Bytes) : (b.flatMap byte_pair).length % 2 = 0 ∧ hex_chunks (b.flatMap byte_pair) = some b := by
  have hpair : ∀ x, byte_pair x = [(byte_pair x).getD 0 0, (byte_pair x).getD 1 0] ∧
      chunk ((byte_pair x).getD 0 0) ((byte_pair x).getD 1 0) = some x := by decide +kernel
  induction b with
  | nil => exact ⟨rfl, rfl⟩
  | cons x b ih =>
    rw [List.flatMap_cons, (hpair x).1]
    simp only [List.cons_append, List.nil_append]
    rw [hex_chunks_cons, (hpair x).2, ih.2]
    exact ⟨by simp only [List.length_cons]; omega, rfl⟩

theorem encode_hex_chunks : ∀ t b, t.length % 2 = 0 → hex_chunks t = some b → b.flatMap byte_pair = t.map to_ascii_lowercase
  | [], b, _, h => by cases h; rfl
  | x :: y :: t, b, heven, h => by
    simp only [hex_chunks, Option.bind_eq_bind, Option.bind_eq_some_iff] at h
    obtain ⟨hi, hhi, lo, hlo, out, hout, hb⟩ := h
    cases hb
    obtain ⟨hhi, hx⟩ := nibble_spec hhi
    obtain ⟨hlo, hy⟩ := nibble_spec hlo
    rw [List.flatMap_cons, encode_hex_chunks t out (by simp only [List.length_cons] at heven; omega) hout, byte_pair,
      (join_nibbles hhi hlo).2]
    simp [hx, hy]

/-- No panic, and the bytes that the other decoders return. -/
def Strict (s : String) : Prop :=
  quote_hex_decode s ≠ .error none ∧ ∀ b, quote_hex_decode s = .ok b ↔ hex_decode s = some b

theorem hex_decode_isSome (s : String) : (hex_decode s).isSome ↔ HexText (utf8 s) := by
  rw [hex_decode, HexText]
  split
  · simp [*]
  · rename_i heven
    rw [not_not] at heven
    rw [hex_chunks_isSome _ heven]
    simp [heven]

theorem hex_encode_decode {s : String} {b : Bytes} (h : hex_decode s = some b) :
    utf8 (hex_encode b) = (utf8 s).map to_ascii_lowercase := by
  rw [hex_decode] at h
  split at h
  · cases h
  · rename_i heven
    rw [utf8_hex_encode]
    exact encode_hex_chunks _ b (not_not.mp heven) h

theorem hex_decode_encode (b : Bytes) : hex_decode (hex_encode b) = some b := by
  rw [hex_decode, utf8_hex_encode, if_neg (not_not.mpr (hex_chunks_encode b).1)]
  exact (hex_chunks_encode b).2

theorem strict_iff (s : String) :
    Strict s ↔ (utf8 s).length % 2 = 0 → ¬ Splits (utf8 s) ∧ (Pairs (utf8 s) → HexText (utf8 s)) := by
  have hspec := quote_chunks_spec 0 (utf8 s)
  rw [Strict, quote_hex_decode]
  by_cases heven : (utf8 s).length % 2 = 0
  swap
  · simp [heven, hex_decode]
  rw [hex_decode, if_neg (not_not.mpr heven), if_neg (not_not.mpr heven)]
  simp only [heven, HexText, true_and, forall_const]
  have hall := hex_chunks_isSome _ heven
  cases hq : quote_chunks 0 (utf8 s) with
  | error e =>
    rw [hq] at hspec
    cases e with
    | none => simp [show Splits (utf8 s) from hspec]
    | some e =>
      obtain ⟨hsplits, hpairs⟩ := hspec
      have hnone : hex_chunks (utf8 s) = none :=
        Option.not_isSome_iff_eq_none.mp fun h => hpairs (pairs_of_digits _ (hall.mp h))
      simp [hnone, hsplits, hpairs]
  | ok b =>
    rw [hq] at hspec
    obtain ⟨hsplits, hpairs, hb⟩ := hspec
    constructor
    · rintro ⟨-, h⟩
      exact ⟨hsplits, fun _ => hall.mp (by rw [(h b).mp rfl]; rfl)⟩
    · rintro ⟨-, h⟩
      simp [hb (h hpairs)]

/-- Two of the decoders read hex texts and nothing else; the third does on the texts where it cuts no character and
finds no sign. -/
theorem hex_texts_iff (s : String) :
    ((hex_decode s).isSome ↔ HexText (utf8 s)) ∧ jwt_hex_decode s = hex_decode s ∧
    (∀ b, hex_decode s = some b → utf8 (hex_encode b) = (utf8 s).map to_ascii_lowercase) ∧
    (∀ b, hex_decode (hex_encode b) = some b) ∧
    (Strict s ↔ (utf8 s).length % 2 = 0 → ¬ Splits (utf8 s) ∧ (Pairs (utf8 s) → HexText (utf8 s))) :=
  ⟨hex_decode_isSome s, rfl, fun _ => hex_encode_decode, hex_decode_encode, strict_iff s⟩

theorem sign_read_and_character_split : quote_hex_decode "+a" = .ok [0x0a] ∧ hex_decode "+a" = none ∧
    quote_hex_decode "aéb" = .error none := by decide

end EnclaveOs.Hex
