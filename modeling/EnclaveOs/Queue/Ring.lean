import EnclaveOs.Lib.Bytes
import EnclaveOs.Lib.Interleave

/-!
# The shared ring

An endpoint touches host memory one load, store or byte at a time. `usize` is 64 bits wide.
-/

namespace EnclaveOs.Queue

open Lib

def MSG_HEADER_SIZE : UInt64 := 4

def MIN_SHARED_QUEUE_CAPACITY : UInt64 := 4096

def MAX_SHARED_QUEUE_CAPACITY : UInt64 := 16 * 1024 * 1024

def MAX_RING_FRAME_BYTES : UInt64 := 4 * 1024 * 1024

def is_power_of_two (x : UInt64) : Bool := x.toNat == 2 ^ x.toNat.log2

def shared_queue_capacity_valid (capacity : UInt64) : Bool :=
  is_power_of_two capacity && MIN_SHARED_QUEUE_CAPACITY ≤ capacity && capacity ≤ MAX_SHARED_QUEUE_CAPACITY

/-- Frames fit both the primitive ceiling and the ring. -/
def max_message_bytes (capacity : UInt64) : UInt64 :=
  let frame := if capacity < MAX_RING_FRAME_BYTES then capacity else MAX_RING_FRAME_BYTES
  if frame < MSG_HEADER_SIZE then 0 else frame - MSG_HEADER_SIZE

inductive Op where
  | loadHead
  | loadTail
  | loadCapacity
  | storeHead (v : UInt64)
  | storeTail (v : UInt64)
  | readByte (i : Nat)
  | writeByte (i : Nat) (b : UInt8)
deriving DecidableEq

@[reducible] def Ans : Op → Type
  | .loadHead | .loadTail | .loadCapacity => UInt64
  | .storeHead _ | .storeTail _ | .writeByte _ _ => Unit
  | .readByte _ => UInt8

abbrev RingM := Prog Op Ans

def loadHead : RingM UInt64 := Prog.perform Op.loadHead

def loadTail : RingM UInt64 := Prog.perform Op.loadTail

def loadCapacity : RingM UInt64 := Prog.perform Op.loadCapacity

def storeHead (v : UInt64) : RingM Unit := Prog.perform (Op.storeHead v)

def storeTail (v : UInt64) : RingM Unit := Prog.perform (Op.storeTail v)

def readByte (i : Nat) : RingM UInt8 := Prog.perform (Op.readByte i)

def writeByte (i : Nat) (b : UInt8) : RingM Unit := Prog.perform (Op.writeByte i b)

section Binds

variable {α : Type}

@[simp] theorem loadHead_bind (f : UInt64 → RingM α) : loadHead >>= f = .step .loadHead f := rfl

@[simp] theorem loadTail_bind (f : UInt64 → RingM α) : loadTail >>= f = .step .loadTail f := rfl

@[simp] theorem storeTail_bind (v : UInt64) (f : Unit → RingM α) : storeTail v >>= f = .step (.storeTail v) f := rfl

@[simp] theorem readByte_bind (i : Nat) (f : UInt8 → RingM α) : readByte i >>= f = .step (.readByte i) f := rfl

@[simp] theorem writeByte_bind (i : Nat) (b : UInt8) (f : Unit → RingM α) :
    writeByte i b >>= f = .step (.writeByte i b) f := rfl

end Binds

/-- The capacity was checked once and is not read again. -/
structure Endpoint where
  capacity : UInt64
  valid : shared_queue_capacity_valid capacity = true

abbrev SpscProducer := Endpoint

abbrev SpscConsumer := Endpoint

def Endpoint.from_raw_with_capacity (capacity : UInt64) : RingM Endpoint :=
  if h : shared_queue_capacity_valid capacity = true then pure ⟨capacity, h⟩ else .fail

def Endpoint.from_raw : RingM Endpoint := do
  let capacity ← loadCapacity
  Endpoint.from_raw_with_capacity capacity

/-!
## Plain arithmetic

`checks` says whether the build checks plain arithmetic for overflow.
-/

section Plain

variable (checks : Bool)

def plus (x y : UInt64) : RingM UInt64 :=
  if checks && decide (2 ^ 64 ≤ x.toNat + y.toNat) then .fail else pure (x + y)

def minus (x y : UInt64) : RingM UInt64 :=
  if checks && decide (x < y) then .fail else pure (x - y)

end Plain

def copy_to_shared : Bytes → Nat → RingM Unit
  | [], _ => pure ()
  | b :: data, destination => do
    writeByte destination b
    copy_to_shared data (destination + 1)

def copy_from_shared (source : Nat) : Nat → RingM Bytes
  | 0 => pure []
  | n + 1 => do
    let b ← readByte source
    let out ← copy_from_shared (source + 1) n
    pure (b :: out)

section Endpoints

variable (checks : Bool) (e : Endpoint)

structure SendRefused where
deriving DecidableEq

def message_len_valid (bytes : Nat) : Bool := bytes ≤ (max_message_bytes e.capacity).toNat

def write_bytes (offset : UInt64) (data : Bytes) : RingM Unit := do
  let cap := e.capacity
  let mask ← minus checks e.capacity 1
  let start := offset &&& mask
  let room ← minus checks cap start
  let first := min data.length room.toNat
  copy_to_shared (data.take first) start.toNat
  if first < data.length then copy_to_shared (data.drop first) 0 else pure ()

def try_send (msg : Bytes) : RingM (Except SendRefused Unit) :=
  if !message_len_valid e msg.length then pure (.error ⟨⟩)
  else do
    let total ← plus checks MSG_HEADER_SIZE (UInt64.ofNat msg.length)
    let head ← loadHead
    let tail ← loadTail
    let used := head - tail
    if e.capacity < used then pure (.error ⟨⟩)
    else do
      let free ← minus checks e.capacity used
      if free < total then pure (.error ⟨⟩)
      else do
        let len_bytes := le 4 msg.length
        write_bytes checks e head len_bytes
        let body ← plus checks head MSG_HEADER_SIZE
        write_bytes checks e body msg
        let fin ← plus checks head total
        storeHead fin
        pure (.ok ())

def read_bytes (offset len : UInt64) : RingM Bytes := do
  let cap := e.capacity
  let mask ← minus checks e.capacity 1
  let start := offset &&& mask
  let fin ← plus checks start len
  if fin ≤ cap then copy_from_shared start.toNat len.toNat
  else do
    let first_chunk ← minus checks cap start
    let front ← copy_from_shared start.toNat first_chunk.toNat
    let back ← copy_from_shared 0 (len.toNat - first_chunk.toNat)
    pure (front ++ back)

/-- Start and length of the next frame, when all of it is there. -/
def readable_frame : RingM (Option (UInt64 × UInt64)) := do
  let head ← loadHead
  let tail ← loadTail
  let avail := head - tail
  if e.capacity < avail then pure none
  else if avail < MSG_HEADER_SIZE then pure none
  else do
    let len_bytes ← read_bytes checks e tail MSG_HEADER_SIZE
    let msg_len := UInt64.ofNat (ofLe len_bytes)
    if max_message_bytes e.capacity < msg_len then do
      -- Corrupted message: skip and advance tail past the header
      storeTail (tail + MSG_HEADER_SIZE)
      pure none
    else do
      let total ← plus checks MSG_HEADER_SIZE msg_len
      if e.capacity < total || avail < total then pure none
      else pure (some (tail, msg_len))

def consume_frame (tail length : UInt64) : RingM Unit := storeTail (tail + MSG_HEADER_SIZE + length)

/-- The second part is the storage afterwards. -/
def try_recv_into (output : Bytes) : RingM (Except UInt64 (Option UInt64) × Bytes) := do
  match ← readable_frame checks e with
  | none => pure (.ok none, output)
  | some (tail, length) =>
    if output.length < length.toNat then pure (.error length, output)
    else do
      let payload ← read_bytes checks e (tail + MSG_HEADER_SIZE) length
      consume_frame tail length
      pure (.ok (some length), payload ++ output.drop length.toNat)

/-- A provided owner was refused or did not cover the validated frame. -/
inductive ReceiveOwnerError (E : Type) where
  | owner (err : E)
  | tooShort

def fill_backing {E : Type} (tail length : UInt64) :
    Except E (Option Bytes) → RingM (Except (ReceiveOwnerError E) (Option Bytes))
  | .error err => pure (.error (.owner err))
  | .ok none => pure (.ok none)
  | .ok (some buffer) =>
    if buffer.length < length.toNat then pure (.error .tooShort)
    else do
      let payload ← read_bytes checks e (tail + MSG_HEADER_SIZE) length
      pure (.ok (some (payload ++ buffer.drop length.toNat)))

/-- The first part is what `owner` was called with, if it was. -/
def try_recv_with {E : Type} (PREFIX : UInt64) (owner : UInt64 → Bytes → Except E (Option Bytes)) :
    RingM (Option (UInt64 × Bytes) × Except (ReceiveOwnerError E) (Option Bytes)) := do
  match ← readable_frame checks e with
  | none => pure (none, .ok none)
  | some (tail, length) =>
    let copied := if length ≤ PREFIX then length else PREFIX
    let front ← read_bytes checks e (tail + MSG_HEADER_SIZE) copied
    let result ← fill_backing checks e tail length (owner length front)
    consume_frame tail length
    pure (some (length, front), result)

def try_recv : RingM (Option Bytes) := do
  match ← readable_frame checks e with
  | none => pure none
  | some (tail, length) =>
    let payload ← read_bytes checks e (tail + MSG_HEADER_SIZE) length
    consume_frame tail length
    pure (some payload)

end Endpoints

end EnclaveOs.Queue
