import EnclaveOs.Queue.Frame

/-! # The ring is a queue -/

namespace EnclaveOs.Queue

open Lib

structure Ring where
  head : UInt64
  tail : UInt64
  capacity : UInt64
  buf : Nat → UInt8

def respond : (o : Op) → Ring → Ans o × Ring
  | .loadHead, m => (m.head, m)
  | .loadTail, m => (m.tail, m)
  | .loadCapacity, m => (m.capacity, m)
  | .storeHead v, m => ((), { m with head := v })
  | .storeTail v, m => ((), { m with tail := v })
  | .readByte i, m => (m.buf i, m)
  | .writeByte i b, m => ((), { m with buf := Function.update m.buf i b })

inductive Outcome where
  /-- No whole frame was there. -/
  | empty
  /-- `try_recv_into` was given `room` bytes for `need`. -/
  | tooShort (room need : Nat)
  | delivered (payload : Bytes)
  /-- The owner was shown `len` and `front` and the frame was dropped. -/
  | discarded (len : Nat) (front : Bytes)

/-- What was sent with success, and what the receive calls answered. -/
structure Log where
  sent : List Bytes
  got : List Outcome

inductive Recv (E : Type) where
  | try_recv
  | try_recv_into (output : Bytes)
  | try_recv_with (PREFIX : UInt64) (owner : UInt64 → Bytes → Except E (Option Bytes))

def Log.note (o : Outcome) (log : Log) : Log := { log with got := log.got ++ [o] }

def Log.noteSend (msg : Bytes) (r : Except SendRefused Unit) (log : Log) : Log :=
  match r with
  | .ok _ => { log with sent := log.sent ++ [msg] }
  | .error _ => log

def outcomeOfRecv : Option Bytes → Outcome
  | none => .empty
  | some payload => .delivered payload

def outcomeOfInto (room : Nat) : Except UInt64 (Option UInt64) × Bytes → Outcome
  | (.ok none, _) => .empty
  | (.ok (some n), output) => .delivered (output.take n.toNat)
  | (.error n, _) => .tooShort room n.toNat

def outcomeOfWith {E : Type} : Option (UInt64 × Bytes) × Except (ReceiveOwnerError E) (Option Bytes) → Outcome
  | (none, _) => .empty
  | (some (n, _), .ok (some buffer)) => .delivered (buffer.take n.toNat)
  | (some (n, front), _) => .discarded n.toNat front

def producer (e : SpscProducer) (msg : Bytes) : RingM (Log → Log) :=
  try_send false e msg >>= fun r => .ret (Log.noteSend msg r)

def consumer {E : Type} (e : SpscConsumer) : Recv E → RingM (Log → Log)
  | .try_recv => try_recv false e >>= fun r => .ret (Log.note (outcomeOfRecv r))
  | .try_recv_into output =>
    try_recv_into false e output >>= fun r => .ret (Log.note (outcomeOfInto output.length r))
  | .try_recv_with PREFIX owner =>
    try_recv_with false e PREFIX owner >>= fun r => .ret (Log.note (outcomeOfWith r))

def start (m : Ring) : Pair Op Ans Ring Log where
  world := ⟨m, ⟨[], []⟩⟩
  left := .ret id
  right := .ret id

/-- The flag says that the receive before it left its frame. -/
def serve : List Bytes × Bool → Outcome → Option (List Bytes × Bool)
  | (q, kept), .empty => if kept then none else some (q, false)
  | (p :: q, _), .tooShort room need => if need = p.length ∧ room < need then some (p :: q, true) else none
  | (p :: q, _), .delivered payload => if payload = p then some (q, false) else none
  | (p :: q, _), .discarded len front => if len = p.length ∧ front <+: p then some (q, false) else none
  | ([], _), _ => none

/-- The queue after all receive calls, if a queue can answer so. -/
def Log.replay (log : Log) : Option (List Bytes × Bool) := log.got.foldlM serve (log.sent, false)

/-- The call took the message `p` off the queue. -/
def Outcome.Takes : Outcome → Bytes → Prop
  | .delivered payload, p => payload = p
  | .discarded len front, p => len = p.length ∧ front <+: p
  | _, _ => False

def Outcome.taken : Outcome → Bool
  | .delivered _ | .discarded _ _ => true
  | _ => false

variable {q q' : List Bytes} {k k' : Bool} {e : Endpoint}

theorem serve_append {o : Outcome} (h : serve (q, k) o = some (q', k'))
    (x : List Bytes) : serve (q ++ x, k) o = some (q' ++ x, k') := by
  cases o with
  | empty =>
    simp only [serve] at h ⊢
    split at h
    · cases h
    · rename_i hk
      cases h
      rw [if_neg hk]
  | tooShort | delivered | discarded =>
    rcases q with _ | ⟨p, q⟩
    · cases h
    simp only [serve, List.cons_append] at h ⊢
    split at h
    · rename_i hp
      cases h
      simp only [if_pos hp, List.cons_append]
    · cases h

theorem foldlM_serve_append {got : List Outcome}
    (h : got.foldlM serve (q, k) = some (q', k')) (x : List Bytes) :
    got.foldlM serve (q ++ x, k) = some (q' ++ x, k') := by
  induction got generalizing q k with
  | nil => simpa using h
  | cons o got ih =>
    rw [List.foldlM_cons] at h ⊢
    obtain ⟨⟨q1, k1⟩, h1, h2⟩ := Option.bind_eq_some_iff.mp h
    rw [serve_append h1 x]
    exact ih h2

theorem serve_cases {o : Outcome} (h : serve (q, k) o = some (q', k')) :
    (q = q' ∧ o.taken = false) ∨ ∃ p, q = p :: q' ∧ o.taken = true ∧ o.Takes p := by
  cases o with
  | empty =>
    simp only [serve] at h
    split at h
    · cases h
    · cases h
      exact .inl ⟨rfl, rfl⟩
  | tooShort | delivered | discarded =>
    rcases q with _ | ⟨p, q⟩
    · cases h
    simp only [serve] at h
    split at h
    · rename_i hp
      cases h
      first
      | exact .inl ⟨rfl, rfl⟩
      | exact .inr ⟨p, rfl, rfl, hp⟩
    · cases h

theorem foldlM_serve_taken {got : List Outcome} (h : got.foldlM serve (q, k) = some (q', k')) :
    ∃ taken, q = taken ++ q' ∧ List.Forall₂ Outcome.Takes (got.filter Outcome.taken) taken := by
  induction got generalizing q k with
  | nil =>
    simp only [List.foldlM_nil, Option.pure_def, Option.some.injEq, Prod.mk.injEq] at h
    exact ⟨[], by simp [h.1], .nil⟩
  | cons o got ih =>
    rw [List.foldlM_cons] at h
    obtain ⟨⟨q1, k1⟩, h1, h2⟩ := Option.bind_eq_some_iff.mp h
    obtain ⟨taken, hq, htaken⟩ := ih h2
    rcases serve_cases h1 with ⟨rfl, ho⟩ | ⟨p, rfl, ho, hp⟩
    · exact ⟨taken, hq, by rwa [List.filter_cons_of_neg (by simp [ho])]⟩
    · exact ⟨p :: taken, by rw [hq, List.cons_append], by rw [List.filter_cons_of_pos ho]; exact .cons hp htaken⟩

/-! ## The bytes of a queue -/

def wire (q : List Bytes) : Bytes := q.flatMap frame

@[simp] theorem wire_nil : wire [] = [] := rfl

@[simp] theorem wire_cons (p : Bytes) (q : List Bytes) : wire (p :: q) = frame p ++ wire q := rfl

@[simp] theorem wire_append (q q' : List Bytes) : wire (q ++ q') = wire q ++ wire q' := List.flatMap_append

/-- The ring holds the frames of the messages between its indices. -/
structure Holds (e : Endpoint) (m : Ring) (q : List Bytes) : Prop where
  head : m.head = m.tail + UInt64.ofNat (wire q).length
  room : (wire q).length ≤ e.capacity.toNat
  sizes : ∀ p ∈ q, p.length ≤ (max_message_bytes e.capacity).toNat
  bytes : ∀ j < (wire q).length, (wire q)[j]? = some (m.buf (e.slot (m.tail + UInt64.ofNat j)))

def Ring.avail (m : Ring) : Nat := (m.head - m.tail).toNat

theorem Holds.avail {m : Ring} (h : Holds e m q) : m.avail = (wire q).length := by
  have hb := e.capacity_bounds
  have hr := h.room
  unfold Ring.avail
  rw [h.head, UInt64.add_comm, UInt64.add_sub_cancel, UInt64.toNat_ofNat_of_lt' (by norm_num; omega)]

/-- The ring holds what the log says was sent and not received. -/
def Inv (e : Endpoint) (w : World Ring Log) : Prop :=
  ∃ q kept, w.log.replay = some (q, kept) ∧ Holds e w.mem q ∧ (kept = true → q ≠ [])

/-- What the producer may do to the ring. -/
structure Produces (e : Endpoint) (w w' : World Ring Log) : Prop where
  keeps : Inv e w → Inv e w'
  tail : w'.mem.tail = w.mem.tail
  got : w'.log.got = w.log.got
  sent : ∃ more, w'.log.sent = w.log.sent ++ more
  avail : w.mem.avail ≤ w'.mem.avail
  bytes : ∀ j < w.mem.avail, w'.mem.buf (e.slot (w.mem.tail + UInt64.ofNat j)) =
    w.mem.buf (e.slot (w.mem.tail + UInt64.ofNat j))

/-- What the consumer may do to it. -/
structure Consumes (e : Endpoint) (w w' : World Ring Log) : Prop where
  keeps : Inv e w → Inv e w'
  head : w'.mem.head = w.mem.head
  buf : w'.mem.buf = w.mem.buf
  avail : w'.mem.avail ≤ w.mem.avail

theorem Produces.refl (w : World Ring Log) : Produces e w w :=
  ⟨id, rfl, rfl, ⟨[], by simp⟩, le_refl _, fun _ _ => rfl⟩

theorem Produces.trans {u v w : World Ring Log} (h : Produces e u v) (h' : Produces e v w) : Produces e u w := by
  obtain ⟨x, hx⟩ := h.sent
  obtain ⟨y, hy⟩ := h'.sent
  refine ⟨h'.keeps ∘ h.keeps, h'.tail.trans h.tail, h'.got.trans h.got, ⟨x ++ y, by rw [hy, hx, List.append_assoc]⟩,
    le_trans h.avail h'.avail, fun j hj => ?_⟩
  rw [← h.bytes j hj, ← h.tail]
  exact h'.bytes j (lt_of_lt_of_le hj h.avail)

theorem Consumes.refl (w : World Ring Log) : Consumes e w w := ⟨id, rfl, rfl, le_refl _⟩

theorem Consumes.trans {u v w : World Ring Log} (h : Consumes e u v) (h' : Consumes e v w) : Consumes e u w :=
  ⟨h'.keeps ∘ h.keeps, h'.head.trans h.head, h'.buf.trans h.buf, le_trans h'.avail h.avail⟩

def producing (e : Endpoint) : Thread.Contract Ring Log where
  inv := Inv e
  rely := Consumes e
  guar := Produces e
  rely_trans := Consumes.trans
  guar_refl := Produces.refl
  guar_trans := Produces.trans

def consuming (e : Endpoint) : Thread.Contract Ring Log where
  inv := Inv e
  rely := Produces e
  guar := Consumes e
  rely_trans := Produces.trans
  guar_refl := Consumes.refl
  guar_trans := Consumes.trans

theorem contracts_fit (e : Endpoint) : Pair.Fits (producing e) (consuming e) where
  inv := rfl
  left_rely := id
  right_rely := id
  left_keeps := fun h hg => hg.keeps h
  right_keeps := fun h hg => hg.keeps h

end EnclaveOs.Queue
