import EnclaveOs.Lib.Bytes

/-!
# The sealed envelope (`sessionrelay.rs`)

Canonical CBOR of a map with the three keys `v`, `ctr` and `ct`.
-/

namespace EnclaveOs.Session

open Lib

inductive SessionError where
  | InvalidPubKey
  | Crypto
  | UnknownSession
  | Replay
  | BadEnvelope
  | Internal
deriving DecidableEq

inductive Fault where
  | err (e : SessionError)
  | panic
deriving DecidableEq

def bad {α : Type} : Except Fault α := .error (.err .BadEnvelope)

def take_head (buf : Bytes) (p : Nat) (major : UInt8) : Except Fault (UInt8 × Nat) :=
  match buf[p]? with
  | none => bad
  | some head => if head &&& 0xE0 ≠ major then bad else .ok (head &&& 0x1F, p + 1)

/-- A key that is no UTF-8 is refused as unknown. -/
def cbor_take_text (buf : Bytes) (p : Nat) : Except Fault (Bytes × Nat) := do
  let (info, p) ← take_head buf p 0x60
  let len := info.toNat
  if 23 < len then bad
  else if buf.length < p + len then bad
  else .ok ((buf.drop p).take len, p + len)

def width : UInt8 → Option Nat
  | 24 => some 1
  | 25 => some 2
  | 26 => some 4
  | 27 => some 8
  | _ => none

/-- Small numbers are in the head, others follow. -/
def cbor_take_arg (buf : Bytes) (info : UInt8) (p : Nat) : Except Fault (UInt64 × Nat) :=
  if info ≤ 23 then .ok (UInt64.ofNat info.toNat, p)
  else
    match width info with
    | none => bad
    | some w => if buf.length < p + w then bad else .ok (u64OfBe ((buf.drop p).take w), p + w)

def cbor_take_uint (buf : Bytes) (p : Nat) : Except Fault (UInt64 × Nat) := do
  let (info, p) ← take_head buf p 0x00
  cbor_take_arg buf info p

def cbor_take_bytes (buf : Bytes) (p : Nat) : Except Fault (Bytes × Nat) := do
  let (info, p) ← take_head buf p 0x40
  let (n, p) ← cbor_take_arg buf info p
  -- the sum overflows, or it wraps and the slice ends before it starts
  if 2 ^ 64 ≤ p + n.toNat then .error .panic
  else if buf.length < p + n.toNat then bad
  else .ok ((buf.drop p).take n.toNat, p + n.toNat)

structure Fields where
  version : Option UInt64
  ctr : Option UInt64
  ct : Option Bytes

/-- A key may come twice; the last value counts. -/
def take_field (buf : Bytes) (f : Fields) (p : Nat) : Except Fault (Fields × Nat) := do
  let (key, p) ← cbor_take_text buf p
  if key = [0x76] then
    let (v, p) ← cbor_take_uint buf p
    .ok ({ f with version := some v }, p)
  else if key = [0x63, 0x74, 0x72] then
    let (v, p) ← cbor_take_uint buf p
    .ok ({ f with ctr := some v }, p)
  else if key = [0x63, 0x74] then
    let (v, p) ← cbor_take_bytes buf p
    .ok ({ f with ct := some v }, p)
  else bad

def cbor_decode_envelope (buf : Bytes) : Except Fault (UInt64 × Bytes) := do
  if buf.head? ≠ some 0xA3 then bad
  else
    let (f, p) ← take_field buf ⟨none, none, none⟩ 1
    let (f, p) ← take_field buf f p
    let (f, _) ← take_field buf f p
    match f with
    | ⟨some 1, some ctr, some ct⟩ => .ok (ctr, ct)
    | _ => bad

def cbor_write_head (major : UInt8) (v : UInt64) : Bytes :=
  if v ≤ 23 then [major ||| UInt8.ofNat v.toNat]
  else if v ≤ 0xFF then (major ||| 0x18) :: be 1 v.toNat
  else if v ≤ 0xFFFF then (major ||| 0x19) :: be 2 v.toNat
  else if v ≤ 0xFFFFFFFF then (major ||| 0x1A) :: be 4 v.toNat
  else (major ||| 0x1B) :: be 8 v.toNat

def cbor_write_uint (v : UInt64) : Bytes := cbor_write_head 0x00 v

def cbor_write_bytes (b : Bytes) : Bytes := cbor_write_head 0x40 (UInt64.ofNat b.length) ++ b

/-- `{v:1, ctr, ct}` in canonical CBOR. -/
def cbor_encode_envelope (ctr : UInt64) (ct : Bytes) : Bytes :=
  [0xA3, 0x61, 0x76, 0x01, 0x63, 0x63, 0x74, 0x72] ++ cbor_write_uint ctr ++ [0x62, 0x63, 0x74] ++ cbor_write_bytes ct

end EnclaveOs.Session
