import EnclaveOs.Lib.Bytes

/-!
# Output streams over sockets (`wasi/mod.rs`, `wasi/io.rs`)

`write_stream` offers its data to the host once.
-/

open Function (update)

namespace EnclaveOs.Wasi

open Lib

inductive OutputStreamKind where
  | Stdout
  | Stderr
  | TcpSocket (fd : Int32)
  | Null

structure AppContext where
  output_streams : UInt32 → Option OutputStreamKind
  /-- What the host has taken for each socket. -/
  handed : Int32 → Bytes

/-- What the host takes, and what the source of a splice holds. -/
structure Host where
  net_send : Except Int32 Nat
  read_stream : Except String Bytes

def write_stream (c : AppContext) (w : Host) (rep : UInt32) (data : Bytes) : Except String AppContext :=
  match c.output_streams rep with
  | none => .error "closed"
  | some (.TcpSocket fd) =>
    match w.net_send with
    | .error _ => .error "last-operation-failed"
    | .ok n => .ok { c with handed := update c.handed fd (c.handed fd ++ data.take n) }
  -- to the log, or nowhere
  | some _ => .ok c

/-- The blocking forms have the same bodies. -/
inductive StreamCall where
  | write (contents : Bytes) (and_flush : Bool)
  | write_zeroes (len : UInt64) (and_flush : Bool)
  | splice (len : UInt64)
  | flush

namespace StreamCall

def serve (rep : UInt32) (c : AppContext) : StreamCall × Host → Except String AppContext
  | (write contents _, w) => (write_stream c w rep contents).mapError fun _ => "closed"
  | (write_zeroes len _, w) =>
    (write_stream c w rep (List.replicate (min len.toNat 65536) 0)).mapError fun _ => "closed"
  | (splice len, w) =>
    (w.read_stream >>= fun data => write_stream c w rep (data.take len.toNat)).mapError fun _ => "closed"
  | (flush, _) => .ok c

def data : StreamCall × Host → Bytes
  | (write contents _, _) => contents
  | (write_zeroes len _, _) => List.replicate len.toNat 0
  | (splice len, w) => (w.read_stream.toOption.getD []).take len.toNat
  | (flush, _) => []

def flushes : StreamCall → Bool
  | write _ and_flush | write_zeroes _ and_flush => and_flush
  | splice _ => false
  | flush => true

/-- The host takes all, and that is not more zeroes than a call offers. -/
def Whole (x : StreamCall × Host) : Prop :=
  (∀ n, x.2.net_send = .ok n → (data x).length ≤ n) ∧ ∀ len and_flush, x.1 = write_zeroes len and_flush → len.toNat ≤ 65536

end StreamCall

open StreamCall

def run (rep : UInt32) (c : AppContext) (xs : List (StreamCall × Host)) : Except String AppContext :=
  xs.foldlM (serve rep) c

/-- A prefix of what was to be written is handed over, and all of it at a flush. -/
def Conserved (rep : UInt32) (c : AppContext) (fd : Int32) (xs : List (StreamCall × Host)) : Prop :=
  ∀ ys c', ys <+: xs → run rep c ys = .ok c' → c'.handed fd <+: c.handed fd ++ ys.flatMap data ∧
    ∀ x, ys.getLast? = some x → x.1.flushes = true → c'.handed fd = c.handed fd ++ ys.flatMap data

variable {c c' : AppContext} {w : Host} {rep : UInt32} {fd : Int32} {x : StreamCall × Host}

/-- What a call that succeeds hands over of the data it is given. -/
structure Hands (fd : Int32) (data : Bytes) (whole : Prop) (c c' : AppContext) : Prop where
  streams : c'.output_streams = c.output_streams
  handed : ∃ out, c'.handed fd = c.handed fd ++ out ∧ out <+: data ∧ (out = data ↔ whole)

section

variable (hrep : c.output_streams rep = some (.TcpSocket fd))

include hrep

theorem hands_write {data : Bytes} {most : Nat}
    (h : (write_stream c w rep (data.take most)).mapError (fun _ => "closed") = .ok c') :
    Hands fd data ((∀ n, w.net_send = .ok n → data.length ≤ n) ∧ data.length ≤ most) c c' := by
  unfold write_stream at h
  rw [hrep] at h
  rcases hs : w.net_send with e | n
  · simp [hs, Except.mapError] at h
  simp only [hs, Except.mapError, Except.ok.injEq] at h
  subst h
  refine ⟨rfl, (data.take most).take n, by simp, ?_, ?_⟩
  · exact (List.take_prefix _ _).trans (List.take_prefix _ _)
  · rw [List.take_take, List.take_eq_self_iff]
    simp

theorem hands_serve (h : serve rep c x = .ok c') : Hands fd (data x) (Whole x) c c' := by
  obtain ⟨call, w⟩ := x
  cases call with
  | flush =>
    obtain rfl := Except.ok.inj h
    exact ⟨rfl, [], by simp, List.prefix_refl _, by simp [Whole, data]⟩
  | write contents and_flush =>
    rw [serve, ← List.take_length (l := contents)] at h
    simpa [Whole, data] using hands_write hrep h
  | write_zeroes len and_flush =>
    rw [serve, min_comm, ← List.take_replicate] at h
    simpa [Whole, data] using hands_write hrep h
  | splice len =>
    rw [serve] at h
    rcases hr : w.read_stream with e | source
    · simp [hr, bind, Except.bind, Except.mapError] at h
    · rw [hr] at h
      change (write_stream c w rep (source.take len.toNat)).mapError _ = _ at h
      rw [← List.take_length (l := source.take len.toNat)] at h
      simpa [Whole, data, hr, Except.toOption] using hands_write hrep h

theorem run_handed {xs : List (StreamCall × Host)}
    (h : run rep c xs = .ok c') : ∃ out, c'.handed fd = c.handed fd ++ out ∧
      out.length ≤ (xs.flatMap data).length ∧ (out = xs.flatMap data ↔ ∀ x ∈ xs, Whole x) := by
  induction xs generalizing c with
  | nil =>
    obtain rfl := Except.ok.inj h
    exact ⟨[], by simp⟩
  | cons x xs ih =>
    rw [run, List.foldlM_cons] at h
    rcases hx : serve rep c x with e | c1
    · simp [hx, bind, Except.bind] at h
    rw [hx] at h
    obtain ⟨hstreams, out, hout, hpre, hwhole⟩ := hands_serve hrep hx
    obtain ⟨out', hout', hlen', hall'⟩ := ih (by rw [hstreams, hrep]) h
    have hlen := hpre.length_le
    refine ⟨out ++ out', by rw [hout', hout, List.append_assoc], ?_, ?_⟩
    · rw [List.flatMap_cons, List.length_append, List.length_append]
      omega
    rw [List.forall_mem_cons, ← hwhole, ← hall', List.flatMap_cons]
    constructor
    · intro heq
      have := congrArg List.length heq
      simp only [List.length_append] at this
      exact List.append_inj heq (by omega)
    · rintro ⟨rfl, rfl⟩
      rfl

end

/-- A run conserves its bytes exactly if all its calls were whole. -/
theorem conserved_iff (hrep : c.output_streams rep = some (.TcpSocket fd)) {xs : List (StreamCall × Host)}
    (h : run rep c xs = .ok c') (w : Host) :
    Conserved rep c fd (xs ++ [(.flush, w)]) ↔ ∀ x ∈ xs, Whole x := by
  have hflush : run rep c (xs ++ [(.flush, w)]) = .ok c' := by
    rw [run, List.foldlM_append, ← run, h]
    rfl
  constructor
  · intro hc
    obtain ⟨out, hout, -, hall⟩ := run_handed hrep h
    have hend := (hc _ _ (List.prefix_refl _) hflush).2 _ List.getLast?_concat rfl
    rw [hout, List.flatMap_append] at hend
    exact hall.mp (by simpa [data] using List.append_cancel_left hend)
  · intro hwhole ys c1 hys hrun
    obtain ⟨out, hout, -, hall⟩ := run_handed hrep hrun
    have hout' : out = ys.flatMap data := by
      refine hall.mpr fun x hx => ?_
      rcases List.mem_append.mp (hys.subset hx) with hx | hx
      · exact hwhole x hx
      · rw [List.mem_singleton.mp hx]
        simp [Whole, data]
    rw [hout, hout']
    exact ⟨List.prefix_refl _, fun _ _ _ => rfl⟩

def connected : AppContext := ⟨fun _ => some (.TcpSocket 7), fun _ => []⟩

def takes (n : Nat) : Host := ⟨.ok n, .ok []⟩

theorem conserved_whole : Conserved 1 connected 7 ([(.write [1, 2] false, takes 2)] ++ [(.flush, takes 0)]) := by
  refine (conserved_iff rfl (rfl : run 1 connected _ = .ok _) _).mpr ?_
  simp [Whole, data, takes]

/-- The host takes one byte of two. -/
theorem short_send_skips_byte :
    ¬ Conserved 1 connected 7 [(.write [1, 2] false, takes 1), (.write [3] true, takes 1)] := by
  intro h
  have := (h _ _ (List.prefix_refl _) rfl).1
  revert this
  decide

end EnclaveOs.Wasi
