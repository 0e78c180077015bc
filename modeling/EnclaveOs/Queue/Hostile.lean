import EnclaveOs.Queue.Frame

/-! # The ring against a hostile peer -/

namespace EnclaveOs.Queue

open Lib

def InRing (e : Endpoint) : Op → Prop
  | .readByte i => i < e.capacity.toNat
  | .writeByte i _ => i < e.capacity.toNat
  | _ => True

/-- A peer that is free in everything but the value of `head`. -/
def Peer (head : UInt64) : (o : Op) → Ans o → Prop
  | .loadHead, a => a = head
  | _, _ => True

inductive Call (E : Type) where
  | try_send (msg : Bytes)
  | try_recv
  | try_recv_into (output : Bytes)
  | try_recv_with (PREFIX : UInt64) (owner : UInt64 → Bytes → Except E (Option Bytes))

/-- Accesses stay in the ring, nothing overflows, and what is delivered is at most `max_message_bytes` long. -/
def Call.Safe {E : Type} (e : Endpoint) (head : UInt64) : Call E → Prop
  | .try_send msg => (Queue.try_send true e msg).Safe (Peer head) (InRing e) fun _ => True
  | .try_recv => (Queue.try_recv true e).Safe (Peer head) (InRing e) fun r =>
      ∀ p, r = some p → p.length ≤ (max_message_bytes e.capacity).toNat
  | .try_recv_into output => (Queue.try_recv_into true e output).Safe (Peer head) (InRing e) fun r =>
      ∀ n, r.1 = .ok (some n) → n.toNat ≤ output.length ∧ n ≤ max_message_bytes e.capacity
  | .try_recv_with PREFIX owner => (Queue.try_recv_with true e PREFIX owner).Safe (Peer head) (InRing e) fun r =>
      ∀ n front, r.1 = some (n, front) → n ≤ max_message_bytes e.capacity ∧
        ∀ buffer, r.2 = .ok (some buffer) → n.toNat ≤ buffer.length

def Call.Unwrapped {E : Type} (e : Endpoint) (head : UInt64) : Call E → Prop
  | .try_send msg =>
      msg.length ≤ (max_message_bytes e.capacity).toNat → head.toNat + 4 + msg.length < 2 ^ 64
  | _ => True

section Walks

variable {e : Endpoint} {head : UInt64} {α : Type} {post : α → Prop}

theorem safe_loadHead_bind (f : UInt64 → RingM α) :
    (loadHead >>= f).Safe (Peer head) (InRing e) post ↔ (f head).Safe (Peer head) (InRing e) post := by
  rw [loadHead_bind, Prog.safe_step]
  exact ⟨fun h => h.2 head rfl, fun h => ⟨trivial, fun _ ha => ha ▸ h⟩⟩

theorem safe_loadTail_bind (f : UInt64 → RingM α) :
    (loadTail >>= f).Safe (Peer head) (InRing e) post ↔ ∀ tail, (f tail).Safe (Peer head) (InRing e) post := by
  rw [loadTail_bind, Prog.safe_step]
  exact ⟨fun h tail => h.2 tail trivial, fun h => ⟨trivial, fun tail _ => h tail⟩⟩

theorem safe_store_at_bind (pos : UInt64) (data : Bytes) (f : Unit → RingM α) :
    (store_at e pos data >>= f).Safe (Peer head) (InRing e) post ↔ (f ()).Safe (Peer head) (InRing e) post := by
  induction data generalizing pos with
  | nil => rfl
  | cons b data ih =>
    rw [store_at, Prog.bind_assoc]
    refine ⟨fun h => (ih (pos + 1)).mp (h.2 () trivial), fun h => ⟨e.slot_lt pos, fun _ _ => ?_⟩⟩
    exact (ih (pos + 1)).mpr h

theorem safe_load_at (pos : UInt64) (n : Nat) :
    (load_at e pos n).Safe (Peer head) (InRing e) fun r => r.length = n := by
  induction n generalizing pos with
  | zero => rfl
  | succ n ih =>
    rw [load_at, readByte_bind]
    refine ⟨e.slot_lt pos, fun b _ => (ih (pos + 1)).bind fun out hout => ?_⟩
    exact congrArg (· + 1) hout

theorem safe_readable_frame :
    (readable_frame true e).Safe (Peer head) (InRing e) fun r =>
      ∀ tail length, r = some (tail, length) → length ≤ max_message_bytes e.capacity := by
  rw [readable_frame_eq, safe_loadHead_bind, safe_loadTail_bind]
  intro tail
  split
  · simp
  split
  · simp
  refine (safe_load_at tail 4).bind fun len_bytes _ => ?_
  split
  · rw [storeTail_bind]
    exact ⟨trivial, fun _ _ => by simp⟩
  rename_i hle
  split
  · simp
  · rintro t n ⟨⟩
    exact UInt64.not_lt.mp hle

theorem safe_read_bytes (pos : UInt64) {len : UInt64} (h : len ≤ max_message_bytes e.capacity) :
    (read_bytes true e pos len).Safe (Peer head) (InRing e) fun r => r.length = len.toNat := by
  have hb := e.max_message_bounds
  rw [UInt64.le_iff_toNat_le] at h
  rw [read_bytes_eq pos (by omega)]
  exact safe_load_at pos _

end Walks

section Calls

variable {E : Type} {e : Endpoint} {head : UInt64}

theorem safe_try_recv : (Call.try_recv : Call E).Safe e head := by
  unfold Call.Safe try_recv
  refine safe_readable_frame.bind fun r hr => ?_
  rcases r with _ | ⟨tail, length⟩
  · simp
  have hlen := hr tail length rfl
  refine (safe_read_bytes _ hlen).bind fun payload hpayload => ⟨trivial, fun _ _ => ?_⟩
  rintro p ⟨⟩
  rw [hpayload]
  exact UInt64.le_iff_toNat_le.mp hlen

theorem safe_try_recv_into (output : Bytes) : (Call.try_recv_into output : Call E).Safe e head := by
  unfold Call.Safe try_recv_into
  refine safe_readable_frame.bind fun r hr => ?_
  rcases r with _ | ⟨tail, length⟩
  · simp
  have hlen := hr tail length rfl
  dsimp only
  split
  · simp
  rename_i hroom
  refine (safe_read_bytes _ hlen).bind fun payload hpayload => ⟨trivial, fun _ _ => ?_⟩
  rintro n ⟨⟩
  exact ⟨not_lt.mp hroom, hlen⟩

theorem safe_fill_backing {tail length : UInt64} (h : length ≤ max_message_bytes e.capacity)
    (answer : Except E (Option Bytes)) :
    (fill_backing true e tail length answer).Safe (Peer head) (InRing e) fun result =>
      ∀ buffer, result = .ok (some buffer) → length.toNat ≤ buffer.length := by
  unfold fill_backing
  split
  · simp
  · simp
  split
  · simp
  refine (safe_read_bytes _ h).bind fun payload hpayload => ?_
  rintro buffer ⟨⟩
  simp [hpayload]

theorem safe_try_recv_with (PREFIX : UInt64) (owner : UInt64 → Bytes → Except E (Option Bytes)) :
    (Call.try_recv_with PREFIX owner).Safe e head := by
  unfold Call.Safe try_recv_with
  refine safe_readable_frame.bind fun r hr => ?_
  rcases r with _ | ⟨tail, length⟩
  · simp
  have hlen := hr tail length rfl
  have hcopied : (if length ≤ PREFIX then length else PREFIX) ≤ max_message_bytes e.capacity := by
    split
    · exact hlen
    · rename_i hlt
      exact UInt64.le_trans (UInt64.le_of_lt (UInt64.not_le.mp hlt)) hlen
  refine (safe_read_bytes _ hcopied).bind fun front _ => ?_
  refine (safe_fill_backing hlen _).bind fun result hresult => ⟨trivial, fun _ _ => ?_⟩
  rintro n front' ⟨⟩
  exact ⟨hlen, hresult⟩

theorem safe_try_send_iff (msg : Bytes) :
    (Call.try_send msg : Call E).Safe e head ↔ (Call.try_send msg : Call E).Unwrapped e head := by
  simp only [Call.Safe, Call.Unwrapped]
  by_cases hlen : msg.length ≤ (max_message_bytes e.capacity).toNat
  · rw [try_send_eq hlen, safe_loadHead_bind, safe_loadTail_bind]
    have htotal := (toNat_total hlen).2
    have hcap := e.max_message_bounds.1
    constructor
    · intro h _
      by_contra hwrap
      -- With `tail = head` the ring looks empty, so the send goes on to its additions.
      have hroom := h head
      rw [if_pos (by simp; omega)] at hroom
      unfold send_frame at hroom
      rw [safe_store_at_bind] at hroom
      rcases Nat.lt_or_ge (head.toNat + 4) (2 ^ 64) with hbody | hbody
      · rw [plus_eq (.inr hbody), Prog.ret_bind, safe_store_at_bind, plus,
          if_pos (by simp only [Bool.true_and, decide_eq_true_eq, htotal]; omega)] at hroom
        exact hroom
      · rw [plus, if_pos (by simpa [MSG_HEADER_SIZE] using hbody)] at hroom
        exact hroom
    · intro h tail
      split
      · rw [send_frame_eq hlen (.inr (h hlen)), safe_store_at_bind]
        exact ⟨trivial, fun _ _ => trivial⟩
      · trivial
  · rw [try_send_too_long hlen]
    exact ⟨fun _ h => absurd h hlen, fun _ => trivial⟩

end Calls

/-- Every call is safe, but for a send whose frame ends past 2^64. -/
theorem call_safe_iff {E : Type} (e : Endpoint) (head : UInt64) (c : Call E) :
    c.Safe e head ↔ c.Unwrapped e head := by
  cases c with
  | try_send msg => exact safe_try_send_iff msg
  | try_recv => exact iff_of_true safe_try_recv trivial
  | try_recv_into output => exact iff_of_true (safe_try_recv_into output) trivial
  | try_recv_with PREFIX owner => exact iff_of_true (safe_try_recv_with PREFIX owner) trivial

/-- At `u64::MAX` an empty message overflows. -/
theorem try_send_overflows_at_max :
    ¬ (Call.try_send [] : Call Unit).Safe ⟨4096, by decide⟩ (UInt64.ofNat (2 ^ 64 - 1)) := by
  rw [safe_try_send_iff]
  unfold Call.Unwrapped
  decide

end EnclaveOs.Queue
