import EnclaveOs.Session.Canonical

/-!
# Vouchers (`encauth.rs`)

A head may be longer than it needs to be. `None` is `bad`, and a sum that overflows is a panic.
-/

namespace EnclaveOs.Session.EncAuth

open Lib Reader

/-- Strings are given by their bytes. -/
structure EncAuthPayload where
  v : UInt64
  sub : Bytes
  sid : Bytes
  workload_digest : Bytes
  enc_meas : Bytes
  enc_pub : Bytes
  quote_hash : Bytes
  not_before : UInt64
  not_after : UInt64
  hw_pub : Bytes
deriving DecidableEq

inductive Kind where
  | uint
  | bstr
  | tstr

inductive Item where
  | uint (v : UInt64)
  | bstr (b : Bytes)
  | tstr (b : Bytes)

/-- What is expected under the keys from 1 on. -/
def kinds : List Kind := [.uint, .tstr, .tstr, .bstr, .bstr, .bstr, .bstr, .uint, .uint, .bstr]

def of_items : List Item → Option EncAuthPayload
  | [.uint v, .tstr sub, .tstr sid, .bstr workload_digest, .bstr enc_meas, .bstr enc_pub, .bstr quote_hash,
      .uint not_before, .uint not_after, .bstr hw_pub] =>
    some ⟨v, sub, sid, workload_digest, enc_meas, enc_pub, quote_hash, not_before, not_after, hw_pub⟩
  | _ => none

def EncAuthPayload.structural (out : EncAuthPayload) : Bool :=
  out.enc_pub.length = 65 ∧ out.enc_pub.head? = some 0x04 ∧ out.hw_pub.length = 65 ∧ out.hw_pub.head? = some 0x04 ∧
    out.workload_digest.length = 32 ∧ out.enc_meas.length = 32 ∧ out.quote_hash.length = 32

def take_head (major : UInt8) : Reader Fault UInt64 := fun buf p =>
  match buf[p]? with
  | none => bad
  | some head => if head >>> 5 ≠ major then bad else cbor_take_arg buf (head &&& 0x1F) (p + 1)

def take_uint : Reader Fault UInt64 := take_head 0

def take_bstr : Reader Fault Bytes := (take_head 2).andThen take_body

def take_key (expected_key : UInt64) : Reader Fault Unit :=
  take_uint.check (· == expected_key) (.err .BadEnvelope) fun _ => ()

section

variable (from_utf8 : Bytes → Bool)

def take_tstr : Reader Fault Bytes := ((take_head 3).andThen take_body).check from_utf8 (.err .BadEnvelope) id

def take_item : Kind → Reader Fault Item
  | .uint => take_uint.andThen fun v _ p => .ok (.uint v, p)
  | .bstr => take_bstr.andThen fun b _ p => .ok (.bstr b, p)
  | .tstr => (take_tstr from_utf8).andThen fun b _ p => .ok (.tstr b, p)

def take_items : UInt64 → List Kind → Reader Fault (List Item)
  | _, [] => fun _ p => .ok ([], p)
  | expected_key, k :: ks => (take_key expected_key).andThen fun _ => (take_item from_utf8 k).andThen fun i =>
      (take_items (expected_key + 1) ks).andThen fun is _ p => .ok (i :: is, p)

/-- Nothing may follow, and the keys and hashes must have their lengths. -/
def finish (buf : Bytes) (items : List Item) (p : Nat) : Except Fault EncAuthPayload :=
  match of_items items with
  | some out => if p = buf.length ∧ out.structural then .ok out else bad
  | none => bad

def decode_encauth_payload : Bytes → Except Fault EncAuthPayload :=
  tagged 0xAA (.err .BadEnvelope) (take_items from_utf8 1 kinds) finish

/-! ## The deterministic encoding -/

def EncAuthPayload.items (p : EncAuthPayload) : List Item :=
  [.uint p.v, .tstr p.sub, .tstr p.sid, .bstr p.workload_digest, .bstr p.enc_meas, .bstr p.enc_pub,
    .bstr p.quote_hash, .uint p.not_before, .uint p.not_after, .bstr p.hw_pub]

def write_item : Item → Bytes
  | .uint v => cbor_write_head 0x00 v
  | .bstr b => cbor_write_head 0x40 (UInt64.ofNat b.length) ++ b
  | .tstr b => cbor_write_head 0x60 (UInt64.ofNat b.length) ++ b

def write_items : UInt64 → List Item → Bytes
  | _, [] => []
  | key, i :: is => cbor_write_head 0x00 key ++ (write_item i ++ write_items (key + 1) is)

def encode (p : EncAuthPayload) : Bytes := 0xAA :: write_items 1 p.items

def Number (v : UInt64) (w : Bytes) : Prop := ∃ info, Spells info v ∧ w = spelled 0x00 info v

def Str (major : UInt8) (b w : Bytes) : Prop :=
  ∃ info n, Spells info n ∧ b.length = n.toNat ∧ w = spelled major info n ++ b

/-- An item with any head that spells its number or length. -/
def Form : Kind → Item → Bytes → Prop
  | .uint, i, w => ∃ v, Number v w ∧ i = .uint v
  | .bstr, i, w => ∃ b, Str 0x40 b w ∧ i = .bstr b
  | .tstr, i, w => ∃ b, (Str 0x60 b w ∧ from_utf8 b = true) ∧ i = .tstr b

/-- The items stand in order under the keys from `key` on. -/
def Written : UInt64 → List Kind → List Item → Bytes → Prop
  | _, [], is, w => is = [] ∧ w = []
  | key, k :: ks, is, w => ∃ u u', Number key u ∧ w = u ++ u' ∧
      ∃ i v v', Form from_utf8 k i v ∧ u' = v ++ v' ∧ ∃ is', Written (key + 1) ks is' v' ∧ is = i :: is'

def Long : Kind → Nat → Bytes → Prop
  | .uint => fun _ _ => False
  | .bstr => Oversize 0x40
  | .tstr => Oversize 0x60

/-- A string is reached whose length leads past the last address. -/
def Overruns : UInt64 → List Kind → Nat → Bytes → Prop
  | _, [], _, _ => False
  | key, k :: ks, p, r => ∃ u r', Number key u ∧ r = u ++ r' ∧ (Long k (p + u.length) r' ∨
      ∃ i v r'', Form from_utf8 k i v ∧ r' = v ++ r'' ∧ Overruns (key + 1) ks (p + u.length + v.length) r'')

end

variable {from_utf8 : Bytes → Bool} {N : Nat}

theorem take_head_eq {major : UInt8} (hm : major ∈ [(0 : UInt8), 2, 3]) :
    take_head major = take_number (major <<< 5) := by
  have key : ∀ b : Fin 256, ∀ m ∈ [(0 : UInt8), 2, 3],
      UInt8.ofNat b.val >>> 5 = m ↔ UInt8.ofNat b.val &&& (0xE0 : UInt8) = m <<< 5 := by
    decide +kernel
  funext buf p
  unfold take_head take_number andThen Session.take_head
  beta_reduce
  rcases buf[p]? with _ | head
  · rfl
  have hhead := key ⟨head.toNat, head.toNat_lt⟩ major hm
  rw [UInt8.ofNat_toNat] at hhead
  simp only [ne_eq, hhead]
  split <;> rfl

theorem reads_uint : Reads N take_uint Number := by
  rw [take_uint, take_head_eq (by decide)]
  exact reads_number (by decide)

theorem reads_key (key : UInt64) : Reads N (take_key key) fun _ w => Number key w :=
  (reads_uint.check _ _ _).congr fun _ w => by simp

theorem reads_item (k : Kind) : Reads (2 ^ 64) (take_item from_utf8 k) (Form from_utf8 k) := by
  cases k with
  | uint => exact reads_uint.map _
  | bstr =>
    unfold take_item take_bstr
    rw [take_head_eq (by decide)]
    exact (reads_string (by decide)).map _
  | tstr =>
    unfold take_item take_tstr
    rw [take_head_eq (by decide)]
    refine (((reads_string (by decide)).check from_utf8 _ id).congr fun b w => ?_).map _
    simp [Str, show (3 : UInt8) <<< 5 = 0x60 from rfl]

theorem reads_items (key : UInt64) (ks : List Kind) :
    Reads (2 ^ 64) (take_items from_utf8 key ks) (Written from_utf8 key ks) := by
  induction ks generalizing key with
  | nil => exact Reads.ok []
  | cons k ks ih =>
    refine ((reads_key key).andThen fun _ => (reads_item k).andThen fun i => (ih _).map (i :: ·)).congr fun is w => ⟨?_, ?_⟩
    · rintro ⟨-, u, _, hu, ⟨i, v, v', hi, his, rfl⟩, rfl⟩
      exact ⟨u, _, hu, rfl, i, v, v', hi, rfl, his⟩
    · rintro ⟨u, _, hu, rfl, i, v, v', hi, rfl, his⟩
      exact ⟨(), u, _, hu, ⟨i, v, v', hi, his, rfl⟩, rfl⟩

theorem stops_item (k : Kind) : Stops (2 ^ 64) (take_item from_utf8 k) .panic (Long k) := by
  cases k with
  | uint =>
    unfold take_item take_uint
    rw [take_head_eq (by decide)]
    exact (Stops.never (number_calm _)).map _
  | bstr =>
    unfold take_item take_bstr
    rw [take_head_eq (by decide)]
    exact (stops_string (by decide)).map _
  | tstr =>
    unfold take_item take_tstr
    rw [take_head_eq (by decide)]
    exact ((stops_string (by decide)).check _ (by simp) _).map _

theorem stops_items (key : UInt64) (ks : List Kind) :
    Stops (2 ^ 64) (take_items from_utf8 key ks) .panic (Overruns from_utf8 key ks) := by
  induction ks generalizing key with
  | nil => exact Stops.never fun _ _ => by simp [take_items]
  | cons k ks ih =>
    have hkey : Stops (2 ^ 64) (take_key key) .panic fun _ _ => False := by
      unfold take_key take_uint
      rw [take_head_eq (by decide)]
      exact (Stops.never (number_calm _)).check _ (by simp) _
    refine (hkey.andThen (reads_key key) fun _ =>
      (stops_item k).andThen (reads_item k) fun i => (ih _).map (i :: ·)).congr fun p r => ?_
    simp [Overruns]

theorem finish_ok {buf : Bytes} {is : List Item} {n : Nat} {p : EncAuthPayload} :
    finish buf is n = .ok p ↔ is = p.items ∧ n = buf.length ∧ p.structural = true := by
  unfold finish
  constructor
  · intro h
    unfold of_items at h
    split at h
    · rename_i heq
      split at heq
      · cases heq
        split at h
        · cases h
          exact ⟨rfl, ‹_›⟩
        · cases h
      · cases heq
    · cases h
  · rintro ⟨rfl, hp⟩
    exact if_pos hp

theorem decode_iff {buf : Bytes} {p : EncAuthPayload} (hbuf : buf.length < 2 ^ 64) :
    decode_encauth_payload from_utf8 buf = .ok p ↔
      p.structural = true ∧ ∃ w, Written from_utf8 1 kinds p.items w ∧ buf = 0xAA :: w := by
  rw [decode_encauth_payload, tagged_ok (reads_items 1 kinds) hbuf]
  simp only [finish_ok]
  constructor
  · rintro ⟨_, w, r, hw, rfl, rfl, hlen, hs⟩
    obtain rfl : r = [] := by simpa using hlen
    exact ⟨hs, w, hw, by simp⟩
  · rintro ⟨hs, w, hw, rfl⟩
    exact ⟨_, w, [], hw, by simp, rfl, rfl, hs⟩

theorem decode_panic {buf : Bytes} (hbuf : buf.length < 2 ^ 64) :
    decode_encauth_payload from_utf8 buf = .error .panic ↔ ∃ r, buf = 0xAA :: r ∧ Overruns from_utf8 1 kinds 1 r := by
  refine tagged_error (stops_items 1 kinds) hbuf (by simp) fun is p h => ?_
  unfold finish at h
  split at h
  · split at h <;> cases h
  · cases h

theorem number_write (v : UInt64) : Number v (cbor_write_head 0x00 v) :=
  ⟨shortest v, spells_shortest v, write_head_eq _ v⟩

theorem str_write (major : UInt8) {b : Bytes} (hb : b.length < 2 ^ 64) :
    Str major b (cbor_write_head major (UInt64.ofNat b.length) ++ b) :=
  ⟨_, UInt64.ofNat b.length, spells_shortest _, (UInt64.toNat_ofNat_of_lt hb).symm, by rw [write_head_eq]⟩

theorem written_write {ks : List Kind} {is : List Item}
    (h : List.Forall₂ (fun k i => Form from_utf8 k i (write_item i)) ks is) (key : UInt64) :
    Written from_utf8 key ks is (write_items key is) := by
  induction h generalizing key with
  | nil => exact ⟨rfl, rfl⟩
  | cons hi _ ih => exact ⟨_, _, number_write _, rfl, _, _, _, hi, rfl, _, ih _, rfl⟩

variable (from_utf8) in
/-- No length overflows, and the heads of ten fields are the shortest. -/
def Tidy (buf : Bytes) : Prop :=
  (∀ r, buf = 0xAA :: r → ¬ Overruns from_utf8 1 kinds 1 r) ∧
    ∀ (p : EncAuthPayload) w, p.structural = true → Written from_utf8 1 kinds p.items w → buf = 0xAA :: w →
      w = write_items 1 p.items

/-- An encoding decodes to its payload; no other buffer does, and no sum overflows, just when it is tidy. -/
theorem encauth_exact_iff (from_utf8 : Bytes → Bool) :
    (∀ p, p.structural = true → from_utf8 p.sub = true → from_utf8 p.sid = true → (encode p).length < 2 ^ 64 →
      decode_encauth_payload from_utf8 (encode p) = .ok p) ∧
    ∀ buf : Bytes, buf.length < 2 ^ 64 → ((decode_encauth_payload from_utf8 buf ≠ .error .panic ∧
      ∀ p, decode_encauth_payload from_utf8 buf = .ok p → buf = encode p) ↔ Tidy from_utf8 buf) := by
  constructor
  · intro p hp hsub hsid hlen
    refine (decode_iff hlen).mpr ⟨hp, write_items 1 p.items, ?_, rfl⟩
    simp only [EncAuthPayload.structural, decide_eq_true_eq] at hp
    simp only [encode, EncAuthPayload.items, write_items, write_item, List.length_cons, List.length_append] at hlen
    obtain ⟨h1, -, h2, -, h3, h4, h5⟩ := hp
    have hbstr : ∀ {b : Bytes}, b.length < 2 ^ 64 → Form from_utf8 .bstr (.bstr b) (write_item (.bstr b)) :=
      fun hb => ⟨_, str_write 0x40 hb, rfl⟩
    have htstr : ∀ {b : Bytes}, b.length < 2 ^ 64 → from_utf8 b = true →
        Form from_utf8 .tstr (.tstr b) (write_item (.tstr b)) := fun hb hu => ⟨_, ⟨str_write 0x60 hb, hu⟩, rfl⟩
    have huint : ∀ v, Form from_utf8 .uint (.uint v) (write_item (.uint v)) := fun v => ⟨v, number_write v, rfl⟩
    refine written_write (.cons (huint _) <| .cons (htstr ?_ hsub) <| .cons (htstr ?_ hsid) <| .cons (hbstr ?_) <|
      .cons (hbstr ?_) <| .cons (hbstr ?_) <| .cons (hbstr ?_) <| .cons (huint _) <| .cons (huint _) <|
      .cons (hbstr ?_) .nil) 1
    all_goals omega
  · intro buf hbuf
    unfold Tidy
    rw [Ne, decode_panic hbuf]
    refine and_congr ⟨fun h r hr hreach => h ⟨r, hr, hreach⟩, fun h ⟨r, hr, hreach⟩ => h r hr hreach⟩ ⟨?_, ?_⟩
    · rintro h p w hp hw rfl
      exact (List.cons.inj (h p ((decode_iff hbuf).mpr ⟨hp, w, hw, rfl⟩))).2
    · intro h p hdec
      obtain ⟨hp, w, hw, rfl⟩ := (decode_iff hbuf).mp hdec
      rw [encode, h p w hp hw rfl]

def sample : EncAuthPayload :=
  let key := 0x04 :: List.replicate 64 0
  let hash := List.replicate 32 0
  ⟨1, [0x61], [0x62], hash, hash, key, hash, 5, 6, key⟩

theorem encauth_exact_sample : decode_encauth_payload (fun _ => true) (encode sample) = .ok sample :=
  (encauth_exact_iff _).1 sample (by decide) rfl rfl (by decide +kernel)

/-- The first key in a longer head, and a length of 2^64 - 1. -/
theorem encauth_other_form :
    decode_encauth_payload (fun _ => true) (0xAA :: 0x18 :: (encode sample).tail) = .ok sample ∧
    decode_encauth_payload (fun _ => true) ([0xAA, 0x01, 0x00, 0x02, 0x7B] ++ List.replicate 8 0xFF) =
      .error .panic := by
  decide +kernel

end EnclaveOs.Session.EncAuth
