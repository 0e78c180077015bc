import EnclaveOs.Lib.Bytes

/-! # RSA public keys as DER (`jwks.rs`) -/

namespace EnclaveOs.Jwks

open Lib

def encode_der_length (buf : Bytes) (len : Nat) : Bytes :=
  if len < 0x80 then
    buf ++ [UInt8.ofNat len]
  else if len < 0x100 then
    buf ++ [0x81, UInt8.ofNat len]
  else if len < 0x10000 then
    buf ++ [0x82, UInt8.ofNat (len >>> 8), UInt8.ofNat len]
  else
    buf ++ [0x83, UInt8.ofNat (len >>> 16), UInt8.ofNat (len >>> 8), UInt8.ofNat len]

def stripped (bytes : Bytes) : Bytes :=
  match bytes.findIdx? (· ≠ 0) with
  | some pos => bytes.drop pos
  | none => [0]

def contents (bytes : Bytes) : Bytes :=
  if (stripped bytes).head?.any (· &&& 0x80 ≠ 0) then 0 :: stripped bytes else stripped bytes

def encode_der_integer (bytes : Bytes) : Bytes :=
  encode_der_length [0x02] (contents bytes).length ++ contents bytes

def encode_rsa_public_key_der (n e : Bytes) : Bytes :=
  encode_der_length [0x30] ((encode_der_integer n).length + (encode_der_integer e).length) ++
    encode_der_integer n ++ encode_der_integer e

/-! ## DER -/

/-- The definite form with the fewest octets. -/
def IsLength (octets : Bytes) (n : Nat) : Prop :=
  n < 0x80 ∧ octets = [UInt8.ofNat n] ∨
    0x80 ≤ n ∧ ∃ d s, octets = UInt8.ofNat (0x81 + s.length) :: d :: s ∧ s.length < 126 ∧ d ≠ 0 ∧ ofBe (d :: s) = n

/-- A tag, the length of the body, and the body. -/
def IsElement (tag : UInt8) (body der : Bytes) : Prop :=
  ∃ octets, IsLength octets body.length ∧ der = tag :: octets ++ body

def signed (body : Bytes) : Int :=
  if 0x80 ≤ body.headD 0 then (ofBe body : Int) - 256 ^ body.length else ofBe body

/-- At least one octet, and the first nine bits are not all alike. -/
def Minimal : Bytes → Prop
  | a :: b :: _ => ¬ (a = 0 ∧ b < 0x80) ∧ ¬ (a = 0xff ∧ 0x80 ≤ b)
  | body => body ≠ []

/-- The shortest contents that denote `v` in two's complement. -/
def IsInteger (v : Int) (der : Bytes) : Prop := ∃ body, IsElement 0x02 body der ∧ Minimal body ∧ signed body = v

theorem digit_ne_zero {m : Nat} (h0 : 0 < m) (h : m < 256) : UInt8.ofNat m ≠ 0 := by
  intro heq
  have := congrArg UInt8.toNat heq
  simp at this
  omega

theorem encode_der_length_spec (buf : Bytes) {len : Nat} (h : len < 2 ^ 24) :
    ∃ octets, IsLength octets len ∧ encode_der_length buf len = buf ++ octets := by
  unfold encode_der_length
  split
  · rename_i hshort
    exact ⟨_, .inl ⟨hshort, rfl⟩, rfl⟩
  rename_i hlong
  have hform : ∀ d s, s.length < 126 → 0 < d → d < 256 → ofBe (UInt8.ofNat d :: s) = len →
      IsLength (UInt8.ofNat (0x81 + s.length) :: UInt8.ofNat d :: s) len :=
    fun d s hs h0 hd hvalue => .inr ⟨not_lt.mp hlong, _, s, rfl, hs, digit_ne_zero h0 hd, hvalue⟩
  simp only [Nat.shiftRight_eq_div_pow]
  split
  · exact ⟨_, hform len [] (by simp) (by omega) (by omega) (by simp [ofBe]; omega), rfl⟩
  split
  · exact ⟨_, hform _ [UInt8.ofNat len] (by simp) (by omega) (by omega) (by simp [ofBe]; omega), rfl⟩
  · exact ⟨_, hform _ [UInt8.ofNat (len / 2 ^ 8), UInt8.ofNat len] (by simp) (by omega) (by omega)
      (by simp [ofBe]; omega), rfl⟩

theorem is_element (tag : UInt8) {body : Bytes} (h : body.length < 2 ^ 24) :
    IsElement tag body (encode_der_length [tag] body.length ++ body) := by
  obtain ⟨octets, hoctets, heq⟩ := encode_der_length_spec [tag] h
  exact ⟨octets, hoctets, by rw [heq]; rfl⟩

theorem stripped_cons (l : Bytes) : stripped (0 :: l) = stripped l := by
  simp only [stripped, List.findIdx?_cons]
  cases l.findIdx? (· ≠ 0) <;> simp

theorem ofBe_cons_zero (l : Bytes) : ofBe (0 :: l) = ofBe l := by simp [ofBe]

theorem stripped_spec (l : Bytes) :
    ∃ b s, stripped l = b :: s ∧ (b = 0 → s = []) ∧ ofBe (b :: s) = ofBe l := by
  induction l with
  | nil => exact ⟨0, [], rfl, fun _ => rfl, rfl⟩
  | cons b l ih =>
    by_cases hb : b = 0
    · rw [hb, stripped_cons, ofBe_cons_zero]
      exact ih
    · exact ⟨b, l, by simp [stripped, List.findIdx?_cons, hb], fun h => absurd h hb, rfl⟩

theorem contents_spec (l : Bytes) : Minimal (contents l) ∧ signed (contents l) = ofBe l := by
  obtain ⟨b, s, hstripped, hzero, hvalue⟩ := stripped_spec l
  have htop : ∀ b : UInt8, b &&& 0x80 ≠ 0 ↔ 0x80 ≤ b := by decide +kernel
  simp only [contents, hstripped, List.head?_cons, Option.any_some, decide_eq_true_eq, htop]
  split
  · rename_i hsign
    refine ⟨⟨fun h => absurd hsign (UInt8.not_le.mpr h.2), fun h => nomatch h.1⟩, ?_⟩
    rw [← hvalue, ← ofBe_cons_zero]
    rfl
  · rename_i hsign
    refine ⟨?_, ?_⟩
    · cases s with
      | nil => simp [Minimal]
      | cons c s => exact ⟨fun h => (by cases hzero h.1), fun h => hsign (by rw [h.1]; decide)⟩
    · rw [signed, List.headD_cons, if_neg hsign, hvalue]

/-- Padded to one length, byte strings of one value are equal. -/
theorem stripped_eq {l l' : Bytes} (h : ofBe l = ofBe l') : stripped l = stripped l' := by
  have hpad : ∀ k (m : Bytes), ofBe (List.replicate k 0 ++ m) = ofBe m ∧ stripped (List.replicate k 0 ++ m) = stripped m := by
    intro k m
    induction k with
    | zero => exact ⟨rfl, rfl⟩
    | succ k ih =>
      rw [List.replicate_succ, List.cons_append, ofBe_cons_zero, stripped_cons]
      exact ih
  have heq : List.replicate l'.length 0 ++ l = List.replicate l.length 0 ++ l' := by
    rw [← be_ofBe (_ ++ l), ← be_ofBe (_ ++ l'), (hpad _ l).1, (hpad _ l').1, h]
    simp [Nat.add_comm]
  rw [← (hpad _ l).2, heq, (hpad _ l').2]

theorem encode_rsa_public_key_der_canonical {n e : Bytes}
    (h : (encode_der_integer n).length + (encode_der_integer e).length < 2 ^ 24) :
    (∃ a b, IsElement 0x30 (a ++ b) (encode_rsa_public_key_der n e) ∧ IsInteger (ofBe n) a ∧ IsInteger (ofBe e) b) ∧
    ∀ n' e', ofBe n' = ofBe n → ofBe e' = ofBe e → encode_rsa_public_key_der n' e' = encode_rsa_public_key_der n e := by
  have hint : ∀ l, (encode_der_integer l).length < 2 ^ 24 → IsInteger (ofBe l) (encode_der_integer l) := by
    intro l hl
    refine ⟨contents l, is_element 0x02 (lt_of_le_of_lt ?_ hl), contents_spec l⟩
    simp [encode_der_integer]
  refine ⟨⟨_, _, ?_, hint n (by omega), hint e (by omega)⟩, fun n' e' hn he => ?_⟩
  · rw [encode_rsa_public_key_der, List.append_assoc, ← List.length_append]
    exact is_element 0x30 (by rwa [List.length_append])
  · simp only [encode_rsa_public_key_der, encode_der_integer, contents, stripped_eq hn, stripped_eq he]

/-- A modulus that needs a sign octet, given with and without leading zeros, and the exponent 65537. -/
theorem encode_sample :
    encode_rsa_public_key_der [0xff, 1] [1, 0, 1] = [0x30, 0x0a, 0x02, 0x03, 0, 0xff, 1, 0x02, 0x03, 1, 0, 1] ∧
    encode_rsa_public_key_der [0xff, 1] [1, 0, 1] = encode_rsa_public_key_der [0, 0, 0xff, 1] [1, 0, 1] :=
  ⟨by decide, (encode_rsa_public_key_der_canonical (by decide)).2 _ _ rfl rfl⟩

end EnclaveOs.Jwks
