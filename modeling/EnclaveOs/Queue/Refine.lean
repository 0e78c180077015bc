import EnclaveOs.Queue.Fifo

/-! # Each endpoint keeps its promise -/

namespace EnclaveOs.Queue

open Lib

variable {e : Endpoint}

theorem ofNat_succ (n : Nat) : UInt64.ofNat (n + 1) = UInt64.ofNat n + 1 := UInt64.ofNat_add n 1

theorem add_ofNat_add (pos : UInt64) (m n : Nat) :
    pos + UInt64.ofNat m + UInt64.ofNat n = pos + UInt64.ofNat (m + n) := by
  rw [UInt64.ofNat_add, UInt64.add_assoc]

section Loads

variable {c : Thread.Contract Ring Log}

theorem does_loadHead (w : World Ring Log) :
    Thread.Does respond c (fun h w' => c.inv w' ∧ c.rely w w' ∧ w'.mem.head = h) loadHead w :=
  fun w' hi hr => ⟨c.guar_refl w', hi, hr, rfl⟩

theorem does_loadTail (w : World Ring Log) :
    Thread.Does respond c (fun t w' => c.inv w' ∧ c.rely w w' ∧ w'.mem.tail = t) loadTail w :=
  fun w' hi hr => ⟨c.guar_refl w', hi, hr, rfl⟩

end Loads

theorem head_eq_tail_add (m : Ring) : m.head = m.tail + UInt64.ofNat m.avail := by
  unfold Ring.avail
  rw [UInt64.ofNat_toNat, UInt64.add_comm, UInt64.sub_add_cancel]

variable {w w' : World Ring Log} {pos tail : UInt64} {msg p : Bytes} {n : Nat} {q : List Bytes}
  {kept checks : Bool} {o : Outcome} {E : Type} {os : List Op}

theorem produces_write {j : Nat} (b : UInt8) (hj : w.mem.avail + j < e.capacity.toNat) :
    Produces e w ⟨{ w.mem with buf := Function.update w.mem.buf (e.slot (w.mem.head + UInt64.ofNat j)) b }, w.log⟩ := by
  have hbytes : ∀ i < w.mem.avail, Function.update w.mem.buf (e.slot (w.mem.head + UInt64.ofNat j)) b
      (e.slot (w.mem.tail + UInt64.ofNat i)) = w.mem.buf (e.slot (w.mem.tail + UInt64.ofNat i)) := by
    intro i hi
    rw [head_eq_tail_add, add_ofNat_add]
    refine Function.update_of_ne (fun h => ?_) _ _
    have := e.slot_inj (by omega) (by omega) h
    omega
  refine ⟨?_, rfl, rfl, ⟨[], by simp⟩, le_refl _, hbytes⟩
  rintro ⟨q, kept, hq, hh, hk⟩
  refine ⟨q, kept, hq, ⟨hh.head, hh.room, hh.sizes, fun i hi => ?_⟩, hk⟩
  rw [hh.bytes i hi]
  exact congrArg some (hbytes i (by rw [hh.avail]; exact hi)).symm

/-! ## The producer -/

/-- The first `n` bytes of the frame stand in the room behind the head. -/
structure Writing (e : Endpoint) (pos : UInt64) (msg : Bytes) (n : Nat) (w : World Ring Log) : Prop where
  head : w.mem.head = pos
  room : w.mem.avail + (frame msg).length ≤ e.capacity.toNat
  done : ∀ j < n, (frame msg)[j]? = some (w.mem.buf (e.slot (pos + UInt64.ofNat j)))

theorem Writing.stable (h : Writing e pos msg n w) (hr : Consumes e w w') : Writing e pos msg n w' := by
  have := hr.avail
  have := h.room
  refine ⟨hr.head.trans h.head, by omega, fun j hj => ?_⟩
  rw [hr.buf]
  exact h.done j hj

theorem does_store_at (h : Writing e pos msg n w) (hn : n ≤ (frame msg).length) :
    Thread.Does respond (producing e) (fun _ w => Writing e pos msg (frame msg).length w)
      (store_at e (pos + UInt64.ofNat n) ((frame msg).drop n)) w := by
  induction hm : (frame msg).length - n generalizing n w with
  | zero =>
    have hn' : n = (frame msg).length := by omega
    subst hn'
    rw [List.drop_length]
    exact h
  | succ m ih =>
    have hlt : n < (frame msg).length := by omega
    rw [List.drop_eq_getElem_cons hlt, store_at, UInt64.add_assoc, ← ofNat_succ, writeByte_bind]
    intro w' _ hr
    have hw := h.stable hr
    have hroom := hw.room
    dsimp only [respond]
    refine ⟨?_, ih ⟨hw.head, hw.room, fun j hj => ?_⟩ (by omega) (by omega)⟩
    · rw [← hw.head]
      exact produces_write _ (by omega)
    dsimp only
    rcases Nat.lt_succ_iff_lt_or_eq.mp hj with hjn | rfl
    · rw [Function.update_of_ne]
      · exact hw.done j hjn
      intro heq
      have := e.slot_inj (by omega) (by omega) heq
      omega
    · rw [Function.update_self, List.getElem?_eq_getElem hlt]

theorem produces_publish (hlen : msg.length ≤ (max_message_bytes e.capacity).toNat) (hi : Inv e w)
    (h : Writing e pos msg (frame msg).length w) :
    Produces e w ⟨{ w.mem with head := pos + UInt64.ofNat (frame msg).length },
      { w.log with sent := w.log.sent ++ [msg] }⟩ := by
  obtain ⟨q, kept, hq, hh, hk⟩ := hi
  have hroom := h.room
  have hav := hh.avail
  have hpos : pos = w.mem.tail + UInt64.ofNat (wire q).length := by rw [← h.head, hh.head]
  have hwire : (wire (q ++ [msg])).length = (wire q).length + (frame msg).length := by simp
  have hholds : Holds e { w.mem with head := pos + UInt64.ofNat (frame msg).length } (q ++ [msg]) := by
    refine ⟨?_, by omega, ?_, fun j hj => ?_⟩
    · rw [hwire]
      dsimp only
      rw [hpos, add_ofNat_add]
    · intro p hp
      rcases List.mem_append.mp hp with hp | hp
      · exact hh.sizes p hp
      · rw [List.mem_singleton.mp hp]
        exact hlen
    · rw [hwire] at hj
      rw [wire_append]
      rcases Nat.lt_or_ge j (wire q).length with hjq | hjq
      · rw [List.getElem?_append_left hjq]
        exact hh.bytes j hjq
      · have hframe : wire [msg] = frame msg := by simp
        rw [List.getElem?_append_right hjq, hframe, h.done _ (by omega), hpos, add_ofNat_add, Nat.add_sub_cancel' hjq]
  refine ⟨fun _ => ⟨q ++ [msg], kept, foldlM_serve_append hq [msg], hholds, by simp⟩, rfl, rfl, ⟨[msg], rfl⟩, ?_,
    fun _ _ => rfl⟩
  rw [hav, hholds.avail, hwire]
  omega

theorem producer_starts (msg : Bytes) (w : World Ring Log) :
    Thread.Starts respond (producing e) (producer e msg) w := by
  unfold producer
  by_cases hlen : msg.length ≤ (max_message_bytes e.capacity).toNat
  · rw [try_send_eq hlen, Prog.bind_assoc]
    refine (does_loadHead w).starts fun head w1 hw1 => ?_
    rw [Prog.bind_assoc]
    refine (does_loadTail w1).starts fun tail w2 hw2 => ?_
    split
    · rename_i hroom
      have hwriting : Writing e head msg 0 w2 := by
        obtain ⟨-, hr, htail⟩ := hw2
        have hhead : w2.mem.head = head := hr.head.trans hw1.2.2
        refine ⟨hhead, ?_, fun j hj => absurd hj (Nat.not_lt_zero j)⟩
        rw [length_frame, Ring.avail, hhead, htail]
        omega
      have hstore := does_store_at hwriting (Nat.zero_le _)
      rw [List.drop_zero, show head + UInt64.ofNat 0 = head from UInt64.add_zero head] at hstore
      rw [send_frame_eq hlen (.inl rfl), Prog.bind_assoc]
      refine hstore.starts fun _ w3 hw3 => ?_
      exact Thread.starts_last (f := Log.noteSend msg (.ok ())) (fun _ => rfl) fun w' hi hr =>
        produces_publish hlen hi (hw3.stable hr)
    · exact ⟨Produces.refl _, trivial⟩
  · rw [try_send_too_long hlen]
    exact ⟨Produces.refl _, trivial⟩

theorem Produces.replay (h : Produces e w w')
    (hq : w.log.replay = some (q, kept)) : ∃ more, w'.log.replay = some (q ++ more, kept) := by
  obtain ⟨more, hmore⟩ := h.sent
  refine ⟨more, ?_⟩
  unfold Log.replay
  rw [h.got, hmore]
  exact foldlM_serve_append hq more

theorem replay_note {log : Log} {q q' : List Bytes × Bool} (hq : log.replay = some q)
    (ho : serve q o = some q') : (log.note o).replay = some q' := by
  unfold Log.replay at hq ⊢
  unfold Log.note
  rw [List.foldlM_append, hq]
  simp [ho]

theorem serve_takes (h : o.Takes p) : serve (p :: q, kept) o = some (q, false) := by
  cases o with
  | empty | tooShort => exact h.elim
  | delivered | discarded => exact if_pos h

/-! ## The consumer -/

/-- The message at the tail is `p`. -/
structure Facing (tail : UInt64) (p : Bytes) (w : World Ring Log) : Prop where
  tail : w.mem.tail = tail
  first : ∃ rest kept, w.log.replay = some (p :: rest, kept)

section

variable (h : Facing tail p w)

include h

theorem Facing.stable (hr : Produces e w w') : Facing tail p w' := by
  obtain ⟨rest, kept, hq⟩ := h.first
  obtain ⟨more, hmore⟩ := hr.replay hq
  exact ⟨hr.tail.trans h.tail, rest ++ more, kept, hmore⟩

theorem Facing.holds (hi : Inv e w) :
    ∃ rest kept, w.log.replay = some (p :: rest, kept) ∧ Holds e w.mem (p :: rest) := by
  obtain ⟨rest, kept, hq⟩ := h.first
  obtain ⟨q, kept', hq', hh, -⟩ := hi
  rw [hq] at hq'
  cases hq'
  exact ⟨rest, kept, hq, hh⟩

theorem Facing.byte (hi : Inv e w) {j : Nat}
    (hj : j < (frame p).length) : (frame p)[j]? = some (w.mem.buf (e.slot (tail + UInt64.ofNat j))) := by
  obtain ⟨rest, kept, -, hh⟩ := h.holds hi
  have hbyte := hh.bytes j (by rw [wire_cons, List.length_append]; omega)
  rw [wire_cons, List.getElem?_append_left hj, h.tail] at hbyte
  exact hbyte

theorem does_load_at {i : Nat} (hin : i + n ≤ (frame p).length) :
    Thread.Does respond (consuming e) (fun r w' => r = ((frame p).drop i).take n ∧ Facing tail p w')
      (load_at e (tail + UInt64.ofNat i) n) w := by
  induction n generalizing i w with
  | zero => exact ⟨by simp, h⟩
  | succ n ih =>
    rw [load_at, UInt64.add_assoc, ← ofNat_succ, readByte_bind]
    intro w' hi hr
    have hw := h.stable hr
    have hbyte := hw.byte hi (j := i) (by omega)
    refine ⟨Consumes.refl w', (ih hw (i := i + 1) (by omega)).bind fun out w'' hout => ⟨?_, hout.2⟩⟩
    rw [List.getElem?_eq_getElem (by omega), Option.some.injEq] at hbyte
    rw [List.drop_eq_getElem_cons (by omega), List.take_succ_cons, hbyte, ← hout.1]
    rfl

theorem Facing.read {n : UInt64}
    (hn : n.toNat ≤ p.length) (hp : p.length ≤ (max_message_bytes e.capacity).toNat) :
    Thread.Does respond (consuming e) (fun r w' => r = p.take n.toNat ∧ Facing tail p w')
      (read_bytes false e (tail + MSG_HEADER_SIZE) n) w := by
  have hb := e.max_message_bounds
  have hload := does_load_at (e := e) h (i := 4) (n := n.toNat) (by rw [length_frame]; omega)
  have hdrop : (frame p).drop 4 = p := by
    unfold frame
    exact List.drop_left' (length_le 4 _)
  rw [hdrop] at hload
  rw [read_bytes_eq _ (by omega)]
  exact hload

end

theorem consumes_take (ho : o.Takes p) (h : Facing tail p w) (hi : Inv e w) :
    Consumes e w ⟨{ w.mem with tail := tail + UInt64.ofNat (frame p).length }, w.log.note o⟩ := by
  obtain ⟨rest, kept, hq, hh⟩ := h.holds hi
  have hlen : (wire (p :: rest)).length = (frame p).length + (wire rest).length := by simp
  have hroom := hh.room
  have hholds : Holds e { w.mem with tail := tail + UInt64.ofNat (frame p).length } rest := by
    refine ⟨?_, by omega, fun p' hp' => hh.sizes p' (.tail _ hp'), fun j hj => ?_⟩
    · dsimp only
      rw [hh.head, hlen, h.tail, add_ofNat_add]
    have hbyte := hh.bytes ((frame p).length + j) (by omega)
    rw [wire_cons, List.getElem?_append_right (by omega), Nat.add_sub_cancel_left, h.tail] at hbyte
    rw [hbyte]
    dsimp only
    rw [add_ofNat_add]
  refine ⟨fun _ => ⟨rest, false, replay_note hq (serve_takes ho), hholds, by simp⟩, rfl, rfl, ?_⟩
  rw [hholds.avail, hh.avail, hlen]
  omega

theorem Facing.take {length : UInt64} (h : Facing tail p w)
    (hl : length = UInt64.ofNat p.length) (ho : o.Takes p) :
    Thread.Starts respond (consuming e) (consume_frame tail length >>= fun _ => .ret (Log.note o) : RingM _) w := by
  unfold consume_frame
  have hend : tail + MSG_HEADER_SIZE + length = tail + UInt64.ofNat (frame p).length := by
    rw [length_frame, hl, ← add_ofNat_add]
    rfl
  rw [hend, storeTail_bind]
  exact Thread.starts_last (f := Log.note o) (fun _ => rfl) fun w' hi hr => consumes_take ho (h.stable hr) hi

theorem starts_note {kept' : Bool}
    (hq : w.log.replay = some (q, kept)) (ho : serve (q, kept) o = some (q, kept')) (hk : kept' = true → q ≠ []) :
    Thread.Starts respond (consuming e) (.ret (Log.note o) : RingM (Log → Log)) w := by
  refine ⟨⟨?_, rfl, rfl, le_refl _⟩, trivial⟩
  rintro ⟨q', kept'', hq', hh, -⟩
  rw [hq] at hq'
  cases hq'
  exact ⟨q, kept', replay_note hq ho, hh, hk⟩

/-! ## The receiving calls -/

/-- No frame, and none was left by the last receive; or the first of the queue. -/
def Found (e : Endpoint) (r : Option (UInt64 × UInt64)) (w : World Ring Log) : Prop :=
  match r with
  | none => ∃ q, w.log.replay = some (q, false)
  | some (tail, length) => ∃ p, Facing tail p w ∧ length = UInt64.ofNat p.length ∧
      p.length ≤ (max_message_bytes e.capacity).toNat

theorem does_readable_frame (w : World Ring Log) :
    Thread.Does respond (consuming e) (Found e) (readable_frame false e) w := by
  rw [readable_frame_eq]
  refine (does_loadHead w).bind fun head w1 ⟨hi, _, hhead⟩ =>
    (does_loadTail w1).bind fun tail w2 ⟨_, hr, htail⟩ => ?_
  obtain ⟨q, kept, hq, hh, hk⟩ := hi
  obtain ⟨more, hmore⟩ := hr.replay hq
  have hroom := hh.room
  have hm := e.max_message_bounds
  have hb := e.capacity_bounds
  -- The load of `head` decides what is seen, even if the producer publishes before the rest.
  have havail : (head - tail).toNat = (wire q).length := by
    rw [← hhead, ← htail, hr.tail]
    exact hh.avail
  rw [if_neg (by rw [UInt64.lt_iff_toNat_lt]; omega)]
  rcases q with _ | ⟨p, rest⟩
  · rw [if_pos (by rw [UInt64.lt_iff_toNat_lt, havail]; decide)]
    have hkept : kept = false := by
      by_contra hne
      exact hk (by simpa using hne) rfl
    exact ⟨more, hkept ▸ hmore⟩
  have hsize := hh.sizes p (.head _)
  have hlen : (wire (p :: rest)).length = 4 + p.length + (wire rest).length := by simp
  have hp : (UInt64.ofNat p.length).toNat = p.length := UInt64.toNat_ofNat_of_lt' (by norm_num; omega)
  have htotal := (toNat_total hsize).2
  rw [if_neg (by rw [UInt64.lt_iff_toNat_lt, havail]; change ¬ _ < 4; omega)]
  have hface : Facing tail p w2 := ⟨htail, rest ++ more, kept, hmore⟩
  have hload := does_load_at (e := e) hface (i := 0) (n := 4) (by rw [length_frame]; omega)
  rw [show tail + UInt64.ofNat 0 = tail from UInt64.add_zero tail] at hload
  refine hload.bind fun len_bytes w3 ⟨hbytes, hface3⟩ => ?_
  have hle : ofLe len_bytes = p.length := by
    rw [hbytes, List.drop_zero, frame, List.take_left' (length_le 4 _), ofLe_le 4 _ (by norm_num; omega)]
  rw [hle, if_neg (by rw [UInt64.lt_iff_toNat_lt]; omega), if_neg]
  · exact ⟨p, hface3, rfl, hsize⟩
  · simp only [Bool.or_eq_true, decide_eq_true_eq, UInt64.lt_iff_toNat_lt]
    omega

theorem starts_empty (h : Found e none w) :
    Thread.Starts respond (consuming e) (.ret (Log.note .empty) : RingM (Log → Log)) w := by
  obtain ⟨q, hq⟩ := h
  exact starts_note hq rfl (by simp)

theorem toNat_length (hp : p.length ≤ (max_message_bytes e.capacity).toNat) :
    (UInt64.ofNat p.length).toNat = p.length := by
  have := e.max_message_bounds
  exact UInt64.toNat_ofNat_of_lt' (by norm_num; omega)

theorem try_recv_starts (w : World Ring Log) :
    Thread.Starts respond (consuming e)
      (try_recv false e >>= fun r => .ret (Log.note (outcomeOfRecv r)) : RingM (Log → Log)) w := by
  unfold try_recv
  rw [Prog.bind_assoc]
  refine (does_readable_frame w).starts fun r w1 hr => ?_
  rcases r with _ | ⟨tail, length⟩
  · exact starts_empty hr
  obtain ⟨p, hface, rfl, hp⟩ := hr
  have hn := toNat_length hp
  dsimp only
  rw [Prog.bind_assoc]
  refine (hface.read (le_of_eq hn) hp).starts fun payload w2 ⟨hpayload, hface2⟩ => ?_
  rw [hn, List.take_length] at hpayload
  exact hface2.take rfl hpayload

theorem try_recv_into_starts (output : Bytes) (w : World Ring Log) :
    Thread.Starts respond (consuming e)
      (try_recv_into false e output >>= fun r => .ret (Log.note (outcomeOfInto output.length r)) :
        RingM (Log → Log)) w := by
  unfold try_recv_into
  rw [Prog.bind_assoc]
  refine (does_readable_frame w).starts fun r w1 hr => ?_
  rcases r with _ | ⟨tail, length⟩
  · exact starts_empty hr
  obtain ⟨p, hface, rfl, hp⟩ := hr
  have hn := toNat_length hp
  dsimp only
  split
  · rename_i hshort
    obtain ⟨rest, kept, hq⟩ := hface.first
    exact starts_note hq (if_pos ⟨hn, hshort⟩) (by simp)
  rw [Prog.bind_assoc]
  refine (hface.read (le_of_eq hn) hp).starts fun payload w2 ⟨hpayload, hface2⟩ => ?_
  rw [hn, List.take_length] at hpayload
  subst hpayload
  refine hface2.take rfl ?_
  change (payload ++ _).take _ = payload
  rw [hn, List.take_left]

theorem try_recv_with_starts (PREFIX : UInt64) (owner : UInt64 → Bytes → Except E (Option Bytes))
    (w : World Ring Log) :
    Thread.Starts respond (consuming e)
      (try_recv_with false e PREFIX owner >>= fun r => .ret (Log.note (outcomeOfWith r)) : RingM (Log → Log)) w := by
  unfold try_recv_with
  rw [Prog.bind_assoc]
  refine (does_readable_frame w).starts fun r w1 hr => ?_
  rcases r with _ | ⟨tail, length⟩
  · exact starts_empty hr
  obtain ⟨p, hface, rfl, hp⟩ := hr
  have hn := toNat_length hp
  dsimp only
  rw [Prog.bind_assoc]
  have hcopied : (if UInt64.ofNat p.length ≤ PREFIX then UInt64.ofNat p.length else PREFIX).toNat ≤ p.length := by
    split
    · exact le_of_eq hn
    rename_i hlt
    rw [UInt64.not_le, UInt64.lt_iff_toNat_lt] at hlt
    omega
  refine (hface.read hcopied hp).starts fun front w2 ⟨hfront, hface2⟩ => ?_
  rw [Prog.bind_assoc]
  replace hfront : front <+: p := hfront ▸ List.take_prefix _ _
  unfold fill_backing
  split
  · exact hface2.take rfl ⟨hn, hfront⟩
  · exact hface2.take rfl ⟨hn, hfront⟩
  split
  · exact hface2.take rfl ⟨hn, hfront⟩
  rw [Prog.bind_assoc]
  refine (hface2.read (le_of_eq hn) hp).starts fun payload w3 ⟨hpayload, hface3⟩ => ?_
  rw [hn, List.take_length] at hpayload
  subst hpayload
  refine hface3.take rfl ?_
  change (payload ++ _).take _ = payload
  rw [hn, List.take_left]

theorem consumer_starts (call : Recv E) (w : World Ring Log) :
    Thread.Starts respond (consuming e) (consumer e call) w := by
  cases call with
  | try_recv => exact try_recv_starts w
  | try_recv_into output => exact try_recv_into_starts output w
  | try_recv_with PREFIX owner => exact try_recv_with_starts PREFIX owner w

/-! ## Both endpoints together -/

theorem run_inv (e : Endpoint) (pos capacity : UInt64) (buf : Nat → UInt8)
    (sched : List (Turn Bytes (Recv E))) :
    Inv e ((start ⟨pos, pos, capacity, buf⟩).run respond (producer e) (consumer e) sched).world := by
  have hstart : Pair.Good respond (producing e) (consuming e) (start ⟨pos, pos, capacity, buf⟩) :=
    ⟨⟨[], false, rfl, ⟨(UInt64.add_zero pos).symm, Nat.zero_le _, by simp, by simp⟩, by simp⟩, trivial, trivial⟩
  exact (hstart.run (contracts_fit e) (fun msg w _ => producer_starts msg w)
    (fun call w _ => consumer_starts call w) sched).inv

def Op.Reads : Op → Prop
  | .storeHead _ | .storeTail _ | .writeByte _ _ => False
  | _ => True

theorem try_send_refused (h : (try_send checks e msg).Runs os (.error ⟨⟩)) : ∀ o ∈ os, o.Reads := by
  by_cases hlen : msg.length ≤ (max_message_bytes e.capacity).toNat
  · rw [try_send_eq hlen, loadHead_bind] at h
    cases h with
    | step head h =>
      cases h with
      | step tail h =>
        change Prog.Runs (if (head - tail).toNat + 4 + msg.length ≤ e.capacity.toNat then _ else _) _ _ at h
        split at h
        · unfold send_frame at h
          obtain ⟨_, _, _, -, -, h⟩ := h.bind_inv
          obtain ⟨_, _, _, -, -, h⟩ := h.bind_inv
          obtain ⟨_, _, _, -, -, h⟩ := h.bind_inv
          obtain ⟨_, _, _, -, -, h⟩ := h.bind_inv
          obtain ⟨_, _, _, -, -, h⟩ := h.bind_inv
          cases h
        · cases h
          simp [Op.Reads]
  · rw [try_send_too_long hlen] at h
    cases h
    simp

theorem load_at_reads {r : Bytes} (h : (load_at e pos n).Runs os r) : ∀ o ∈ os, o.Reads := by
  induction n generalizing pos os r with
  | zero =>
    cases h
    simp
  | succ n ih =>
    rw [load_at, readByte_bind] at h
    cases h with
    | step b h =>
      obtain ⟨_, os1, os2, rfl, h1, h2⟩ := h.bind_inv
      cases h2
      simpa [Op.Reads] using ih h1

theorem readable_frame_reads {x : UInt64 × UInt64}
    (h : (readable_frame checks e).Runs os (some x)) : ∀ o ∈ os, o.Reads := by
  rw [readable_frame_eq, loadHead_bind] at h
  cases h with
  | step head h =>
    dsimp only at h
    rw [loadTail_bind] at h
    cases h with
    | step tail h =>
      dsimp only at h
      split at h
      · cases h
      split at h
      · cases h
      obtain ⟨len_bytes, os1, os2, rfl, h1, h2⟩ := h.bind_inv
      have hreads := load_at_reads h1
      split at h2
      · cases h2 with
        | step _ h => cases h
      split at h2
      · cases h2
      · cases h2
        simpa [Op.Reads] using hreads

theorem try_recv_into_refused {output out : Bytes} {n : UInt64}
    (h : (try_recv_into checks e output).Runs os (.error n, out)) : out = output ∧ ∀ o ∈ os, o.Reads := by
  unfold try_recv_into at h
  obtain ⟨r, os1, os2, rfl, h1, h2⟩ := h.bind_inv
  rcases r with _ | ⟨tail, length⟩
  · cases h2
  dsimp only at h2
  split at h2
  · cases h2
    exact ⟨rfl, by simpa using readable_frame_reads h1⟩
  · obtain ⟨_, _, _, -, -, h⟩ := h2.bind_inv
    obtain ⟨_, _, _, -, -, h⟩ := h.bind_inv
    cases h

/-- In every interleaving what was taken is the start of what was sent, and the receive calls answer as a queue
does. -/
theorem ring_refines_queue {E : Type} (e : Endpoint) (pos capacity : UInt64) (buf : Nat → UInt8)
    (sched : List (Turn Bytes (Recv E))) :
    let log := ((start ⟨pos, pos, capacity, buf⟩).run respond (producer e) (consumer e) sched).world.log
    (∃ taken left, log.sent = taken ++ left ∧ List.Forall₂ Outcome.Takes (log.got.filter Outcome.taken) taken) ∧
      (∃ q, log.replay = some q) ∧
      (∀ msg os, (try_send false e msg).Runs os (.error ⟨⟩) → ∀ o ∈ os, o.Reads) ∧
      (∀ output out n os, (try_recv_into false e output).Runs os (.error n, out) →
        out = output ∧ ∀ o ∈ os, o.Reads) := by
  intro log
  obtain ⟨q, kept, hq, -, -⟩ := run_inv e pos capacity buf sched
  obtain ⟨taken, hsent, htaken⟩ := foldlM_serve_taken hq
  exact ⟨⟨taken, q, hsent, htaken⟩, ⟨_, hq⟩, fun _ _ h => try_send_refused h,
    fun _ _ _ _ h => try_recv_into_refused h⟩

end EnclaveOs.Queue
