import EnclaveOs.Lib.Exact
import EnclaveOs.Session.Envelope

/-!
# What the envelope decoder accepts

The head of a field may be longer than it needs to be. What follows the three fields is ignored.
-/

open UInt8 (ofNat)

namespace EnclaveOs.Session

open Lib Reader

/-! ## Numbers and texts -/

/-- The head with `info` in it, then the bytes it asks for. -/
def spelled (major info : UInt8) (v : UInt64) : Bytes := (major ||| info) :: be ((width info).getD 0) v.toNat

/-- The additional information can carry the number. -/
def Spells (info : UInt8) (v : UInt64) : Prop :=
  match width info with
  | some w => v.toNat < 256 ^ w
  | none => info ≤ 23 ∧ v = UInt64.ofNat info.toNat

theorem width_le {info : UInt8} {w : Nat} (h : width info = some w) : 23 < info ∧ info < 32 ∧ w ≤ 8 := by
  unfold width at h
  split at h
  all_goals first | (cases h; decide) | cases h

theorem Spells.lt {info : UInt8} {v : UInt64} (h : Spells info v) : info < 32 := by
  unfold Spells at h
  split at h
  case h_1 w hw => exact (width_le hw).2.1
  case h_2 => exact UInt8.lt_of_le_of_lt h.1 (by decide)

theorem head_parts (b : UInt8) : (b &&& 0xE0) ||| (b &&& 0x1F) = b ∧ b &&& 0x1F < 32 := by
  obtain ⟨⟨b⟩⟩ := b
  revert b
  decide +kernel

theorem head_of_parts {major info : UInt8} (hm : major ∈ [0x00, 0x40, 0x60]) (hi : info < 32) :
    (major ||| info) &&& 0xE0 = major ∧ (major ||| info) &&& 0x1F = info := by
  have key : ∀ i : Fin 32, ∀ m ∈ [(0x00 : UInt8), 0x40, 0x60],
      (m ||| ofNat i.val) &&& 0xE0 = m ∧ (m ||| ofNat i.val) &&& 0x1F = ofNat i.val := by
    decide +kernel
  have := key ⟨info.toNat, UInt8.lt_iff_toNat_lt.mp hi⟩ major hm
  rwa [UInt8.ofNat_toNat] at this

variable {N : Nat}

theorem reads_head {major : UInt8} (hm : major ∈ [0x00, 0x40, 0x60]) :
    Reads N (fun buf p => take_head buf p major) fun info w => info < 32 ∧ w = [major ||| info] := by
  intro pre r info p _
  unfold take_head
  rcases r with _ | ⟨b, r⟩
  · simp [bad]
  obtain ⟨hb, hlt⟩ := head_parts b
  simp only [List.getElem?_append_right (le_refl _), Nat.sub_self, List.getElem?_cons_zero]
  constructor
  · intro h
    split at h
    · cases h
    rename_i hhead
    cases h
    exact ⟨[b], r, ⟨hlt, by rw [← not_not.mp hhead, hb]⟩, rfl, by simp⟩
  · rintro ⟨w, r', ⟨hi, rfl⟩, hr, rfl⟩
    cases hr
    rw [if_neg (not_not.mpr (head_of_parts hm hi).1), (head_of_parts hm hi).2]
    simp

theorem reads_arg (info : UInt8) :
    Reads N (fun buf p => cbor_take_arg buf info p) fun v w => Spells info v ∧ w = be ((width info).getD 0) v.toNat := by
  unfold cbor_take_arg Spells
  rcases hw : width info with _ | w
  · by_cases hi : info ≤ 23
    · simp only [hi, if_true, true_and]
      exact Reads.ok _
    · simp only [hi, if_false, false_and]
      exact Reads.error _
  obtain ⟨hlow, -, hw8⟩ := width_le hw
  have hmax : 256 ^ w ≤ 256 ^ 8 := Nat.pow_le_pow_right (by decide) hw8
  simp only [UInt8.not_le.mpr hlow, if_false]
  have hslice : (fun buf p => if List.length buf < p + w then bad else
      .ok (u64OfBe ((buf.drop p).take w), p + w)) =
      (Reader.slice (.err .BadEnvelope) w).andThen fun b _ p => .ok (u64OfBe b, p) := by
    funext buf p
    by_cases hp : List.length buf < p + w <;> simp [Reader.slice, andThen, hp, bad, bind, Except.bind]
  rw [hslice]
  refine ((Reads.slice _ w).map u64OfBe).congr fun v u => ⟨?_, ?_⟩
  · rintro ⟨b, ⟨rfl, rfl⟩, rfl⟩
    have hlt := ofBe_lt u
    have hnat : (u64OfBe u).toNat = ofBe u := UInt64.toNat_ofNat_of_lt' (by norm_num at hmax ⊢; omega)
    rw [hnat, Option.getD_some, be_ofBe]
    exact ⟨hlt, rfl⟩
  · rintro ⟨hv, rfl⟩
    refine ⟨_, ⟨rfl, length_be w _⟩, ?_⟩
    rw [Option.getD_some, u64OfBe, ofBe_be w _ hv, UInt64.ofNat_toNat]

def take_number (major : UInt8) : Reader Fault UInt64 :=
  andThen (fun buf p => take_head buf p major) fun info buf p => cbor_take_arg buf info p

theorem reads_number {major : UInt8} (hm : major ∈ [0x00, 0x40, 0x60]) :
    Reads N (take_number major) fun v w => ∃ info, Spells info v ∧ w = spelled major info v := by
  refine ((reads_head hm).andThen reads_arg).congr fun v w => ⟨?_, ?_⟩
  · rintro ⟨info, _, _, ⟨-, rfl⟩, ⟨hs, rfl⟩, rfl⟩
    exact ⟨info, hs, rfl⟩
  · rintro ⟨info, hs, rfl⟩
    exact ⟨info, _, _, ⟨hs.lt, rfl⟩, ⟨hs, rfl⟩, rfl⟩

def text (key : Bytes) : Bytes := (0x60 ||| ofNat key.length) :: key

theorem reads_text : Reads N cbor_take_text fun key w => key.length ≤ 23 ∧ w = text key := by
  have hbody : ∀ info : UInt8, Reads N (fun buf p => if 23 < info.toNat then bad else
      Reader.slice (.err .BadEnvelope) info.toNat buf p) fun key w => info.toNat ≤ 23 ∧ w = key ∧ key.length = info.toNat := by
    intro info
    by_cases hi : 23 < info.toNat
    · simp only [hi, if_true, not_le.mpr hi, false_and]
      exact Reads.error _
    · simp only [hi, if_false, not_lt.mp hi, true_and]
      exact Reads.slice _ _
  refine ((reads_head (by decide)).andThen hbody).congr fun key w => ⟨?_, ?_⟩
  · rintro ⟨info, _, _, ⟨-, rfl⟩, ⟨hi, rfl, hkey⟩, rfl⟩
    rw [text, hkey, UInt8.ofNat_toNat]
    exact ⟨hi, rfl⟩
  · rintro ⟨hk, rfl⟩
    have hnat : (ofNat key.length).toNat = key.length := UInt8.toNat_ofNat_of_lt' (by norm_num; omega)
    refine ⟨ofNat key.length, _, key, ⟨?_, rfl⟩, ⟨by omega, rfl, hnat.symm⟩, rfl⟩
    rw [UInt8.lt_iff_toNat_lt, hnat]
    exact Nat.lt_of_le_of_lt hk (by decide)

/-- The sum is taken before it is compared. -/
def take_body (n : UInt64) : Reader Fault Bytes := fun buf p =>
  if 2 ^ 64 ≤ p + n.toNat then .error .panic else Reader.slice (.err .BadEnvelope) n.toNat buf p

theorem take_bytes_eq : cbor_take_bytes = (take_number 0x40).andThen take_body := by
  funext buf p
  unfold cbor_take_bytes take_number andThen
  rw [bind_assoc]
  rfl

theorem reads_body (n : UInt64) : Reads (2 ^ 64) (take_body n) fun b w => w = b ∧ b.length = n.toNat := by
  intro pre r b p hbuf
  unfold take_body
  by_cases hn : 2 ^ 64 ≤ pre.length + n.toNat
  · rw [if_pos hn]
    constructor
    · intro h
      cases h
    · rintro ⟨w, r', ⟨rfl, hw⟩, rfl, -⟩
      simp only [List.length_append] at hbuf
      omega
  · rw [if_neg hn]
    exact Reads.slice _ _ pre r b p hbuf

/-! ## Strings that are too long -/

/-- The length in the head at this place reaches past the last address. -/
def Oversize (major : UInt8) (p : Nat) (r : Bytes) : Prop :=
  ∃ info n r', Spells info n ∧ r = spelled major info n ++ r' ∧ 2 ^ 64 ≤ p + (spelled major info n).length + n.toNat

theorem reads_string {major : UInt8} (hm : major ∈ [0x00, 0x40, 0x60]) :
    Reads (2 ^ 64) ((take_number major).andThen take_body) fun b w =>
      ∃ info n, Spells info n ∧ b.length = n.toNat ∧ w = spelled major info n ++ b := by
  refine ((reads_number hm).andThen reads_body).congr fun b w => ⟨?_, ?_⟩
  · rintro ⟨n, _, _, ⟨info, hs, rfl⟩, ⟨rfl, hn⟩, rfl⟩
    exact ⟨info, n, hs, hn, rfl⟩
  · rintro ⟨info, n, hs, hn, rfl⟩
    exact ⟨n, _, _, ⟨info, hs, rfl⟩, ⟨rfl, hn⟩, rfl⟩

theorem reads_bytes : Reads (2 ^ 64) cbor_take_bytes fun b w =>
    ∃ info n, Spells info n ∧ b.length = n.toNat ∧ w = spelled 0x40 info n ++ b := by
  rw [take_bytes_eq]
  exact reads_string (by decide)

theorem head_calm (major : UInt8) (buf : Bytes) (p : Nat) : take_head buf p major ≠ .error .panic := by
  unfold take_head bad
  split
  · simp
  · split <;> simp

theorem number_calm (major : UInt8) (buf : Bytes) (p : Nat) : take_number major buf p ≠ .error .panic := by
  unfold take_number andThen
  rw [Ne, except_bind_error]
  rintro (h | ⟨⟨info, q⟩, -, h⟩)
  · exact head_calm major buf p h
  unfold cbor_take_arg bad at h
  dsimp only at h
  split at h
  · cases h
  split at h
  · cases h
  · split at h <;> cases h

theorem text_calm (buf : Bytes) (p : Nat) : cbor_take_text buf p ≠ .error .panic := by
  unfold cbor_take_text
  rw [Ne, except_bind_error]
  rintro (h | ⟨⟨info, q⟩, -, h⟩)
  · exact head_calm _ buf p h
  unfold bad at h
  dsimp only at h
  split at h
  · cases h
  · split at h <;> cases h

theorem stops_string {major : UInt8} (hm : major ∈ [0x00, 0x40, 0x60]) :
    Stops (2 ^ 64) ((take_number major).andThen take_body) .panic (Oversize major) := by
  have hbody : ∀ n, Stops (2 ^ 64) (take_body n) .panic fun p _ => 2 ^ 64 ≤ p + n.toNat := by
    intro n pre r _
    unfold take_body Reader.slice
    split
    · simp_all
    · split <;> simp_all
  refine ((Stops.never (number_calm major)).andThen (reads_number hm) hbody).congr fun p r => ⟨?_, ?_⟩
  · rintro (h | ⟨n, _, r', ⟨info, hs, rfl⟩, rfl, hbig⟩)
    · exact h.elim
    · exact ⟨info, n, r', hs, rfl, hbig⟩
  · rintro ⟨info, n, r', hs, rfl, hbig⟩
    exact .inr ⟨n, _, r', ⟨info, hs, rfl⟩, rfl, hbig⟩

theorem stops_bytes : Stops (2 ^ 64) cbor_take_bytes .panic (Oversize 0x40) := by
  rw [take_bytes_eq]
  exact stops_string (by decide)

/-! ## Fields -/

/-- A value under its key, and what the decoder has seen then. -/
inductive Value (f : Fields) : Bytes → Fields → Bytes → Prop where
  | version {info : UInt8} {v : UInt64} (h : Spells info v) :
      Value f [0x76] { f with version := some v } (spelled 0x00 info v)
  | ctr {info : UInt8} {v : UInt64} (h : Spells info v) :
      Value f [0x63, 0x74, 0x72] { f with ctr := some v } (spelled 0x00 info v)
  | ct {info : UInt8} {n : UInt64} {b : Bytes} (h : Spells info n) (hb : b.length = n.toNat) :
      Value f [0x63, 0x74] { f with ct := some b } (spelled 0x40 info n ++ b)

def take_value (f : Fields) (key : Bytes) : Reader Fault Fields := fun buf p =>
  if key = [0x76] then
    andThen (take_number 0x00) (fun v _ p => .ok ({ f with version := some v }, p)) buf p
  else if key = [0x63, 0x74, 0x72] then
    andThen (take_number 0x00) (fun v _ p => .ok ({ f with ctr := some v }, p)) buf p
  else if key = [0x63, 0x74] then andThen cbor_take_bytes (fun v _ p => .ok ({ f with ct := some v }, p)) buf p
  else bad

theorem reads_value (f : Fields) (key : Bytes) : Reads (2 ^ 64) (take_value f key) (Value f key) := by
  have huint := reads_number (N := 2 ^ 64) (by decide : (0x00 : UInt8) ∈ _)
  by_cases h1 : key = [0x76]
  · subst h1
    refine (huint.map fun v => { f with version := some v }).congr fun f' w => ⟨?_, ?_⟩
    · rintro ⟨v, ⟨info, hs, rfl⟩, rfl⟩
      exact .version hs
    · intro h
      cases h with
      | version hs => exact ⟨_, ⟨_, hs, rfl⟩, rfl⟩
  by_cases h2 : key = [0x63, 0x74, 0x72]
  · subst h2
    refine (huint.map fun v => { f with ctr := some v }).congr fun f' w => ⟨?_, ?_⟩
    · rintro ⟨v, ⟨info, hs, rfl⟩, rfl⟩
      exact .ctr hs
    · intro h
      cases h with
      | ctr hs => exact ⟨_, ⟨_, hs, rfl⟩, rfl⟩
  by_cases h3 : key = [0x63, 0x74]
  · subst h3
    refine (reads_bytes.map fun b => { f with ct := some b }).congr fun f' w => ⟨?_, ?_⟩
    · rintro ⟨b, ⟨info, n, hs, hb, rfl⟩, rfl⟩
      exact .ct hs hb
    · intro h
      cases h with
      | ct hs hb => exact ⟨_, ⟨_, _, hs, hb, rfl⟩, rfl⟩
  · unfold take_value
    simp only [h1, h2, h3, if_false]
    refine (Reads.error _).congr fun f' w => ⟨False.elim, fun h => ?_⟩
    cases h <;> contradiction

theorem stops_value (f : Fields) (key : Bytes) :
    Stops (2 ^ 64) (take_value f key) .panic fun p r => key = [0x63, 0x74] ∧ Oversize 0x40 p r := by
  have huint : Stops (2 ^ 64) (take_number 0x00) .panic fun _ _ => False := Stops.never (number_calm 0x00)
  by_cases h1 : key = [0x76]
  · subst h1
    refine (huint.map fun v => { f with version := some v }).congr fun p r => ?_
    simp
  by_cases h2 : key = [0x63, 0x74, 0x72]
  · subst h2
    refine (huint.map fun v => { f with ctr := some v }).congr fun p r => ?_
    simp
  by_cases h3 : key = [0x63, 0x74]
  · subst h3
    refine (stops_bytes.map fun b => { f with ct := some b }).congr fun p r => ?_
    simp
  · unfold take_value
    simp only [h1, h2, h3, if_false, false_and]
    exact Stops.never fun _ _ => by simp [bad]

/-- `n` fields, and what the decoder has seen before and after. -/
inductive Written : Nat → Fields → Fields → Bytes → Prop where
  | nil {f : Fields} : Written 0 f f []
  | cons {n : Nat} {f f' f'' : Fields} {key v w : Bytes} (h : Value f key f' v) (h' : Written n f' f'' w) :
      Written (n + 1) f f'' (text key ++ v ++ w)

def take_fields : Nat → Fields → Reader Fault Fields
  | 0, f => fun _ p => .ok (f, p)
  | n + 1, f => andThen (fun buf p => take_field buf f p) (take_fields n)

theorem Value.key_le {f f' : Fields} {key w : Bytes} (h : Value f key f' w) : key.length ≤ 23 := by
  cases h <;> decide

theorem reads_fields (n : Nat) (f : Fields) : Reads (2 ^ 64) (take_fields n f) (Written n f) := by
  induction n generalizing f with
  | zero =>
    refine (Reads.ok f).congr fun f' w => ⟨?_, ?_⟩
    · rintro ⟨rfl, rfl⟩
      exact .nil
    · rintro ⟨⟩
      exact ⟨rfl, rfl⟩
  | succ n ih =>
    refine ((reads_text.andThen (reads_value f)).andThen ih).congr fun f' w => ⟨?_, ?_⟩
    · rintro ⟨f1, _, w, ⟨key, _, v, ⟨-, rfl⟩, hv, rfl⟩, hw, rfl⟩
      exact .cons hv hw
    · intro h
      cases h with
      | cons hv hw => exact ⟨_, _, _, ⟨_, _, _, ⟨hv.key_le, rfl⟩, hv, rfl⟩, hw, rfl⟩

/-- After fewer than `n` fields comes a `ct` whose length is too large. -/
def Reaches (n : Nat) (f : Fields) (p : Nat) (r : Bytes) : Prop :=
  ∃ m f' w r', m < n ∧ Written m f f' w ∧ r = w ++ (text [0x63, 0x74] ++ r') ∧
    Oversize 0x40 (p + w.length + (text [0x63, 0x74]).length) r'

theorem stops_fields (n : Nat) (f : Fields) : Stops (2 ^ 64) (take_fields n f) .panic (Reaches n f) := by
  induction n generalizing f with
  | zero =>
    refine (Stops.never fun _ _ => by simp [take_fields]).congr fun p r => ⟨False.elim, ?_⟩
    rintro ⟨m, -, -, -, hm, -⟩
    omega
  | succ n ih =>
    have htext := (Stops.never text_calm).andThen (N := 2 ^ 64) reads_text (stops_value f)
    refine (htext.andThen (reads_text.andThen (reads_value f)) ih).congr fun p r => ⟨?_, ?_⟩
    · rintro ((h | ⟨key, _, r', ⟨-, rfl⟩, rfl, rfl, hbig⟩) |
        ⟨f1, _, r', ⟨key, _, v, ⟨-, rfl⟩, hv, rfl⟩, rfl, m, f', w, r'', hm, hw, rfl, hbig⟩)
      · exact h.elim
      · exact ⟨0, f, [], r', by omega, .nil, rfl, by simpa using hbig⟩
      · refine ⟨m + 1, f', _, r'', by omega, .cons hv hw, by simp, ?_⟩
        rwa [List.length_append, ← Nat.add_assoc]
    · rintro ⟨m, f', _, r', hm, hw, rfl, hbig⟩
      rcases hw with _ | ⟨hv, hw⟩
      · exact .inl (.inr ⟨_, _, r', ⟨by decide, rfl⟩, rfl, rfl, by simpa using hbig⟩)
      refine .inr ⟨_, _, _, ⟨_, _, _, ⟨hv.key_le, rfl⟩, hv, rfl⟩, List.append_assoc _ _ _, ?_⟩
      refine ⟨_, _, _, r', Nat.lt_of_succ_lt_succ hm, hw, rfl, ?_⟩
      rwa [List.length_append, ← Nat.add_assoc] at hbig

/-! ## The envelope -/

def shortest (v : UInt64) : UInt8 :=
  if v ≤ 23 then ofNat v.toNat
  else if v ≤ 0xFF then 24
  else if v ≤ 0xFFFF then 25
  else if v ≤ 0xFFFFFFFF then 26
  else 27

theorem decode_eq : cbor_decode_envelope = tagged 0xA3 (.err .BadEnvelope) (take_fields 3 ⟨none, none, none⟩)
    fun _ f _ => match f with
      | ⟨some 1, some ctr, some ct⟩ => .ok (ctr, ct)
      | _ => bad := by
  funext buf
  unfold tagged
  simp only [take_fields, andThen, bind_assoc]
  rfl

theorem decode_iff {buf : Bytes} {ctr : UInt64} {ct : Bytes} (hbuf : buf.length < 2 ^ 64) :
    cbor_decode_envelope buf = .ok (ctr, ct) ↔
      ∃ w r, Written 3 ⟨none, none, none⟩ ⟨some 1, some ctr, some ct⟩ w ∧ buf = 0xA3 :: (w ++ r) := by
  rw [decode_eq, tagged_ok (reads_fields 3 _) hbuf]
  constructor
  · rintro ⟨f, w, r, hw, hr, hf⟩
    split at hf
    · cases hf
      exact ⟨w, r, hw, hr⟩
    · cases hf
  · rintro ⟨w, r, hw, hr⟩
    exact ⟨_, w, r, hw, hr, rfl⟩

theorem decode_panic {buf : Bytes} (hbuf : buf.length < 2 ^ 64) :
    cbor_decode_envelope buf = .error .panic ↔ ∃ r, buf = 0xA3 :: r ∧ Reaches 3 ⟨none, none, none⟩ 1 r := by
  rw [decode_eq]
  refine tagged_error (stops_fields 3 _) hbuf (by simp) fun f p h => ?_
  split at h <;> cases h

theorem width_small {v : UInt64} (h : v ≤ 23) :
    width (ofNat v.toNat) = none ∧ ofNat v.toNat ≤ 23 ∧ (ofNat v.toNat).toNat = v.toNat := by
  have key : ∀ i : Fin 24, width (ofNat i.val) = none ∧ ofNat i.val ≤ 23 ∧
      (ofNat i.val).toNat = i.val := by decide +kernel
  exact key ⟨v.toNat, Nat.lt_succ_of_le (UInt64.le_iff_toNat_le.mp h)⟩

theorem write_head_eq (major : UInt8) (v : UInt64) : cbor_write_head major v = spelled major (shortest v) v := by
  unfold cbor_write_head shortest
  split_ifs with h
  · rw [spelled, (width_small h).1]
    rfl
  all_goals rfl

theorem spells_shortest (v : UInt64) : Spells (shortest v) v := by
  have hv := v.toNat_lt
  unfold shortest Spells
  split_ifs with h1 h2 h3 h4
  · obtain ⟨hw, hle, hnat⟩ := width_small h1
    rw [hw]
    exact ⟨hle, by rw [hnat, UInt64.ofNat_toNat]⟩
  · exact Nat.lt_succ_of_le (UInt64.le_iff_toNat_le.mp h2)
  · exact Nat.lt_succ_of_le (UInt64.le_iff_toNat_le.mp h3)
  · exact Nat.lt_succ_of_le (UInt64.le_iff_toNat_le.mp h4)
  · exact hv

/-- The decoder does not panic and takes nothing but what the encoder writes. -/
def Sound (buf : Bytes) : Prop :=
  cbor_decode_envelope buf ≠ .error .panic ∧
    ∀ ctr ct, cbor_decode_envelope buf = .ok (ctr, ct) → buf = cbor_encode_envelope ctr ct

/-- No `ct` reaches past the last address, and where the three fields are there, they stand as the encoder writes
them. -/
def Tidy (buf : Bytes) : Prop :=
  (∀ r, buf = 0xA3 :: r → ¬ Reaches 3 ⟨none, none, none⟩ 1 r) ∧
    ∀ ctr ct w r, Written 3 ⟨none, none, none⟩ ⟨some 1, some ctr, some ct⟩ w → buf = 0xA3 :: (w ++ r) →
      0xA3 :: (w ++ r) = cbor_encode_envelope ctr ct

theorem envelope_sound_iff (ctr : UInt64) (ct buf : Bytes) :
    ((cbor_encode_envelope ctr ct).length < 2 ^ 64 →
      cbor_decode_envelope (cbor_encode_envelope ctr ct) = .ok (ctr, ct)) ∧
    (buf.length < 2 ^ 64 → (Sound buf ↔ Tidy buf)) := by
  constructor
  · intro hlen
    have hct : ct.length < 2 ^ 64 := by
      simp only [cbor_encode_envelope, cbor_write_bytes, List.length_append] at hlen
      omega
    have hn : ct.length = (UInt64.ofNat ct.length).toNat := (UInt64.toNat_ofNat_of_lt' hct).symm
    refine (decode_iff hlen).mpr ⟨_, [], .cons (.version (spells_shortest 1)) (.cons (.ctr (spells_shortest ctr))
      (.cons (.ct (spells_shortest (UInt64.ofNat ct.length)) hn) .nil)), ?_⟩
    simp only [cbor_encode_envelope, cbor_write_uint, cbor_write_bytes, write_head_eq, List.append_assoc,
      List.append_nil]
    rfl
  · intro hbuf
    unfold Sound Tidy
    rw [Ne, decode_panic hbuf]
    refine and_congr ⟨fun h r hr hreach => h ⟨r, hr, hreach⟩, fun h ⟨r, hr, hreach⟩ => h r hr hreach⟩ ⟨?_, ?_⟩
    · rintro h ctr ct w r hw rfl
      exact h ctr ct ((decode_iff hbuf).mpr ⟨w, r, hw, rfl⟩)
    · intro h ctr ct hdec
      obtain ⟨w, r, hw, rfl⟩ := (decode_iff hbuf).mp hdec
      exact h ctr ct w r hw rfl

theorem envelope_sound_sample : Tidy (cbor_encode_envelope 5 [1]) := by
  refine ((envelope_sound_iff 5 [1] _).2 (by decide)).mp ⟨?_, fun ctr ct h => ?_⟩
  · rw [(envelope_sound_iff 5 [1] []).1 (by decide)]
    simp
  · rw [(envelope_sound_iff 5 [1] []).1 (by decide)] at h
    cases h
    rfl

/-- A length of 2^64 - 1, and a longer head with a byte behind. -/
theorem envelope_unsound :
    cbor_decode_envelope ([0xA3, 0x62, 0x63, 0x74, 0x5B] ++ List.replicate 8 0xFF) = .error .panic ∧
    cbor_decode_envelope
      [0xA3, 0x61, 0x76, 0x01, 0x63, 0x63, 0x74, 0x72, 0x18, 0x05, 0x62, 0x63, 0x74, 0x40, 0x00] = .ok (5, []) ∧
    cbor_encode_envelope 5 [] = [0xA3, 0x61, 0x76, 0x01, 0x63, 0x63, 0x74, 0x72, 0x05, 0x62, 0x63, 0x74, 0x40] := by
  decide +kernel

end EnclaveOs.Session
