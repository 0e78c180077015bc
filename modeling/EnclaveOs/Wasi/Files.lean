import EnclaveOs.Lib.Bytes

/-!
# Files of an app (`wasi/filesystem.rs`)

Offsets and lengths are added as `usize`. A build with overflow checks aborts at the sum, one without them at the
slice.
-/

namespace EnclaveOs.Wasi

open Lib

inductive FsDescriptor where
  | Directory (path : String)
  | File (key : String) (buf : Bytes) (dirty : Bool)
deriving DecidableEq

inductive Answer (α : Type) where
  | ok (a : α)
  | error (code : String)
  | aborts
deriving DecidableEq

def read_via_stream (offset : UInt64) : Option FsDescriptor → Answer Bytes
  | some (.File _ buf _) => .ok (if offset.toNat < buf.length then buf.drop offset.toNat else [])
  | _ => .error "bad-descriptor"

/-- The bytes, and whether they reach the end of the file. -/
def read (length offset : UInt64) : Option FsDescriptor → Answer (Bytes × Bool)
  | some (.File _ buf _) =>
    let start := min offset.toNat buf.length
    let stop := min ((start + length.toNat) % 2 ^ 64) buf.length
    if start ≤ stop then .ok ((buf.drop start).take (stop - start), decide (buf.length ≤ stop)) else .aborts
  | _ => .error "bad-descriptor"

/-- `heap n` says whether there is room for a buffer of `n` bytes. -/
def write (heap : Nat → Bool) (data : Bytes) (offset : UInt64) : Option FsDescriptor → Answer (UInt64 × FsDescriptor)
  | some (.File key buf _) =>
    let stop := (offset.toNat + data.length) % 2 ^ 64
    if buf.length < stop ∧ ¬ (stop < 2 ^ 63 ∧ heap stop) then .aborts
    else if offset.toNat ≤ stop then
      let buf := buf ++ List.replicate (stop - buf.length) 0
      .ok (.ofNat data.length, .File key (buf.take offset.toNat ++ data ++ buf.drop stop) true)
    else .aborts
  | _ => .error "bad-descriptor"

def clipped (buf : Bytes) (length offset : Nat) : Bytes × Bool :=
  ((buf.drop offset).take length, decide (buf.length ≤ offset + length))

/-- Zeroes up to the end of the write, and `data` at `offset`. -/
def overwritten (buf : Bytes) (offset : Nat) (data : Bytes) : Bytes :=
  let long := buf ++ List.replicate (offset + data.length - buf.length) 0
  long.take offset ++ data ++ long.drop (offset + data.length)

/-- The end fits 64 bits and there is room to grow. -/
def WriteFits (heap : Nat → Bool) (buf : Bytes) (stop : Nat) : Prop :=
  stop < 2 ^ 64 ∧ ¬ (buf.length < stop ∧ ¬ (stop < 2 ^ 63 ∧ heap stop))

instance (heap : Nat → Bool) (buf : Bytes) (stop : Nat) : Decidable (WriteFits heap buf stop) :=
  inferInstanceAs (Decidable (_ ∧ _))

variable {key : String} {buf data : Bytes} {dirty : Bool} {heap : Nat → Bool}

theorem read_file (length offset : UInt64) : read length offset (some (.File key buf dirty)) =
    if min offset.toNat buf.length + length.toNat < 2 ^ 64 then .ok (clipped buf length.toNat offset.toNat)
    else .aborts := by
  have := length.toNat_lt
  simp only [read, clipped]
  by_cases hlt : min offset.toNat buf.length + length.toNat < 2 ^ 64
  · rw [Nat.mod_eq_of_lt hlt, if_pos (by omega), if_pos hlt]
    simp only [Answer.ok.injEq, Prod.mk.injEq, decide_eq_decide]
    refine ⟨?_, by omega⟩
    by_cases hin : offset.toNat ≤ buf.length
    · rw [min_eq_left hin, List.take_eq_take_iff, List.length_drop]
      omega
    · rw [List.drop_eq_nil_of_le (by omega), List.drop_eq_nil_of_le (by omega), List.take_nil, List.take_nil]
  · rw [if_neg (by omega), if_neg hlt]

theorem write_file (hdata : data.length < 2 ^ 64) (offset : UInt64) :
    write heap data offset (some (.File key buf dirty)) =
      if WriteFits heap buf (offset.toNat + data.length) then
        .ok (.ofNat data.length, .File key (overwritten buf offset.toNat data) true)
      else .aborts := by
  have := offset.toNat_lt
  simp only [write, overwritten, WriteFits]
  by_cases hlt : offset.toNat + data.length < 2 ^ 64
  · rw [Nat.mod_eq_of_lt hlt]
    split <;> simp_all
  · have hwrap : ¬ offset.toNat ≤ (offset.toNat + data.length) % 2 ^ 64 := by omega
    simp only [hwrap, hlt, if_false, false_and]
    split <;> rfl

end EnclaveOs.Wasi
