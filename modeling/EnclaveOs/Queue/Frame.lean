import EnclaveOs.Queue.Ring

/-!
# What the ring operations access

A copy that is cut in two at the end of the buffer is one walk over consecutive positions.
-/

namespace EnclaveOs.Queue

open Lib

namespace Endpoint

variable (e : Endpoint)

theorem capacity_pow : ∃ k ≤ 64, e.capacity.toNat = 2 ^ k := by
  have h := e.valid
  simp only [shared_queue_capacity_valid, is_power_of_two, Bool.and_eq_true, beq_iff_eq] at h
  refine ⟨_, ?_, h.1.1⟩
  have hlt := e.capacity.toNat_lt
  rw [h.1.1] at hlt
  exact le_of_lt ((Nat.pow_lt_pow_iff_right (by norm_num)).mp hlt)

theorem capacity_bounds : 4096 ≤ e.capacity.toNat ∧ e.capacity.toNat ≤ 16777216 := by
  have h := e.valid
  simp only [shared_queue_capacity_valid, Bool.and_eq_true, decide_eq_true_eq, UInt64.le_iff_toNat_le] at h
  exact ⟨h.1.2, h.2⟩

theorem capacity_dvd : e.capacity.toNat ∣ 2 ^ 64 := by
  obtain ⟨k, hk, h⟩ := e.capacity_pow
  rw [h]
  exact Nat.pow_dvd_pow 2 hk

theorem max_message_bounds :
    (max_message_bytes e.capacity).toNat + 4 ≤ e.capacity.toNat ∧
      (max_message_bytes e.capacity).toNat + 4 ≤ 4194304 := by
  have hb := e.capacity_bounds
  unfold max_message_bytes
  dsimp only
  rcases Nat.lt_or_ge e.capacity.toNat 4194304 with hlt | hge
  · have hframe : e.capacity < MAX_RING_FRAME_BYTES := UInt64.lt_iff_toNat_lt.mpr hlt
    have hheader : MSG_HEADER_SIZE ≤ e.capacity := UInt64.le_iff_toNat_le.mpr (le_trans (by decide) hb.1)
    rw [if_pos hframe, if_neg (UInt64.not_lt.mpr hheader), UInt64.toNat_sub_of_le _ _ hheader]
    change e.capacity.toNat - 4 + 4 ≤ _ ∧ e.capacity.toNat - 4 + 4 ≤ _
    omega
  · have hframe : ¬ e.capacity < MAX_RING_FRAME_BYTES := fun h =>
      absurd (UInt64.lt_iff_toNat_lt.mp h) (not_lt.mpr hge)
    rw [if_neg hframe, if_neg (by decide)]
    exact ⟨hge, le_refl _⟩

def slot (pos : UInt64) : Nat := (pos &&& (e.capacity - 1)).toNat

theorem slot_eq (pos : UInt64) : e.slot pos = pos.toNat % e.capacity.toNat := by
  obtain ⟨k, -, h⟩ := e.capacity_pow
  have hb := e.capacity_bounds
  unfold slot
  rw [UInt64.toNat_and, UInt64.toNat_sub_of_le _ _ (by rw [UInt64.le_iff_toNat_le]; simp; omega), h]
  exact Nat.and_two_pow_sub_one_eq_mod _ _

theorem slot_lt (pos : UInt64) : e.slot pos < e.capacity.toNat := by
  rw [slot_eq]
  exact Nat.mod_lt _ (by have := e.capacity_bounds; omega)

theorem slot_add (pos : UInt64) (j : Nat) : e.slot (pos + UInt64.ofNat j) = (e.slot pos + j) % e.capacity.toNat := by
  rw [slot_eq, slot_eq, UInt64.toNat_add, UInt64.toNat_ofNat', Nat.mod_mod_of_dvd _ e.capacity_dvd,
    Nat.add_mod, Nat.mod_mod_of_dvd _ e.capacity_dvd, ← Nat.add_mod, Nat.mod_add_mod]

theorem slot_succ (pos : UInt64) (h : e.slot pos + 1 < e.capacity.toNat) : e.slot (pos + 1) = e.slot pos + 1 := by
  have := e.slot_add pos 1
  rw [Nat.mod_eq_of_lt h] at this
  exact this

theorem slot_inj {pos : UInt64} {i j : Nat} (hi : i < e.capacity.toNat) (hj : j < e.capacity.toNat)
    (h : e.slot (pos + UInt64.ofNat i) = e.slot (pos + UInt64.ofNat j)) : i = j := by
  rw [slot_add, slot_add] at h
  have hij : i ≡ j [MOD e.capacity.toNat] := Nat.ModEq.add_left_cancel' _ h
  exact Nat.ModEq.eq_of_lt_of_lt hij hi hj

end Endpoint

section Walks

variable (e : Endpoint)

def store_at : UInt64 → Bytes → RingM Unit
  | _, [] => pure ()
  | pos, b :: data => do
    writeByte (e.slot pos) b
    store_at (pos + 1) data

def load_at : UInt64 → Nat → RingM Bytes
  | _, 0 => pure []
  | pos, n + 1 => do
    let b ← readByte (e.slot pos)
    let out ← load_at (pos + 1) n
    pure (b :: out)

variable {e}

theorem add_ofNat_succ (pos : UInt64) (n : Nat) : pos + 1 + UInt64.ofNat n = pos + UInt64.ofNat (n + 1) := by
  rw [Nat.add_comm n 1, UInt64.ofNat_add, ← UInt64.add_assoc]
  rfl

theorem store_at_append (pos : UInt64) (xs ys : Bytes) :
    store_at e pos (xs ++ ys) = store_at e pos xs >>= fun _ => store_at e (pos + UInt64.ofNat xs.length) ys := by
  induction xs generalizing pos with
  | nil => simp [store_at]
  | cons b xs ih =>
    rw [List.cons_append, store_at, store_at, Prog.bind_assoc, List.length_cons, ← add_ofNat_succ]
    congr 1
    funext
    exact ih (pos + 1)

theorem load_at_append (pos : UInt64) (m n : Nat) :
    load_at e pos (m + n) =
      load_at e pos m >>= fun xs => load_at e (pos + UInt64.ofNat m) n >>= fun ys => pure (xs ++ ys) := by
  induction m generalizing pos with
  | zero =>
    simp only [Nat.zero_add, load_at, Prog.pure_eq, Prog.ret_bind, List.nil_append]
    rw [show pos + UInt64.ofNat 0 = pos from UInt64.add_zero pos]
    exact (Prog.bind_ret _).symm
  | succ m ih =>
    rw [Nat.succ_add, load_at, load_at, Prog.bind_assoc, ← add_ofNat_succ]
    congr 1
    funext b
    rw [ih, Prog.bind_assoc, Prog.bind_assoc]
    congr 1
    funext xs
    rw [Prog.bind_assoc]
    rfl

theorem copy_to_shared_eq {pos : UInt64} {data : Bytes} (h : e.slot pos + data.length ≤ e.capacity.toNat) :
    copy_to_shared data (e.slot pos) = store_at e pos data := by
  induction data generalizing pos with
  | nil => rfl
  | cons b data ih =>
    rw [List.length_cons] at h
    rw [copy_to_shared, store_at]
    congr 1
    funext
    rcases data with _ | ⟨b', data⟩
    · rfl
    rw [List.length_cons] at h ih
    have hs := e.slot_succ pos (by omega)
    rw [← hs]
    exact ih (by omega)

theorem copy_from_shared_eq (pos : UInt64) {n : Nat} (h : e.slot pos + n ≤ e.capacity.toNat) :
    copy_from_shared (e.slot pos) n = load_at e pos n := by
  induction n generalizing pos with
  | zero => rfl
  | succ n ih =>
    rw [copy_from_shared, load_at]
    congr 1
    funext b
    rcases n with _ | n
    · rfl
    · have hs := e.slot_succ pos (by omega)
      rw [← hs, ih (pos + 1) (by omega)]

theorem slot_end (pos : UInt64) {n : Nat} (h : e.slot pos + n = e.capacity.toNat) :
    e.slot (pos + UInt64.ofNat n) = 0 := by
  rw [e.slot_add, h, Nat.mod_self]

end Walks

/-! ## The operations as walks -/

section Operations

variable {checks : Bool} {e : Endpoint}

theorem plus_eq {x y : UInt64} (h : checks = false ∨ x.toNat + y.toNat < 2 ^ 64) :
    plus checks x y = .ret (x + y) := by
  unfold plus
  rw [if_neg]
  · rfl
  simp only [Bool.and_eq_true, decide_eq_true_eq, not_and, not_le]
  intro hc
  rcases h with h | h
  · simp [h] at hc
  · exact h

theorem minus_eq {x y : UInt64} (h : y ≤ x) : minus checks x y = .ret (x - y) := by
  unfold minus
  rw [if_neg]
  · rfl
  · simp only [Bool.and_eq_true, decide_eq_true_eq, not_and, UInt64.not_lt]
    exact fun _ => h

theorem mask_eq : minus checks e.capacity 1 = .ret (e.capacity - 1) := by
  have hb := e.capacity_bounds
  refine minus_eq ?_
  rw [UInt64.le_iff_toNat_le]
  simp
  omega

theorem room_eq (checks : Bool) (e : Endpoint) (pos : UInt64) :
    minus checks e.capacity (pos &&& (e.capacity - 1)) = .ret (e.capacity - (pos &&& (e.capacity - 1))) ∧
      (e.capacity - (pos &&& (e.capacity - 1))).toNat = e.capacity.toNat - e.slot pos := by
  have hle : pos &&& (e.capacity - 1) ≤ e.capacity := by
    rw [UInt64.le_iff_toNat_le]
    exact le_of_lt (e.slot_lt pos)
  exact ⟨minus_eq hle, UInt64.toNat_sub_of_le _ _ hle⟩

theorem write_bytes_eq (pos : UInt64) {data : Bytes} (h : data.length ≤ e.capacity.toNat) :
    write_bytes checks e pos data = store_at e pos data := by
  obtain ⟨hroom, hnat⟩ := room_eq checks e pos
  have hslot := e.slot_lt pos
  unfold write_bytes
  simp only [mask_eq, Prog.ret_bind, hroom, hnat]
  change (copy_to_shared _ (e.slot pos) >>= _) = _
  by_cases hfit : data.length ≤ e.capacity.toNat - e.slot pos
  · rw [min_eq_left hfit, List.take_length, copy_to_shared_eq (by omega), if_neg (lt_irrefl _)]
    exact Prog.bind_ret _
  rw [min_eq_right (by omega), if_pos (by omega), copy_to_shared_eq (by rw [List.length_take]; omega)]
  conv_rhs => rw [← List.take_append_drop (e.capacity.toNat - e.slot pos) data, store_at_append]
  congr 1
  funext
  rw [List.length_take, min_eq_left (by omega)]
  have hend := slot_end (e := e) pos (n := e.capacity.toNat - e.slot pos) (by omega)
  rw [← copy_to_shared_eq (by rw [hend, List.length_drop]; omega), hend]

theorem read_bytes_eq (pos : UInt64) {len : UInt64} (h : len.toNat ≤ e.capacity.toNat) :
    read_bytes checks e pos len = load_at e pos len.toNat := by
  obtain ⟨hroom, hnat⟩ := room_eq checks e pos
  have hslot := e.slot_lt pos
  have hb := e.capacity_bounds
  have hsum : (pos &&& (e.capacity - 1)).toNat + len.toNat < 2 ^ 64 := by
    change e.slot pos + len.toNat < 2 ^ 64
    omega
  have hfin : ((pos &&& (e.capacity - 1)) + len).toNat = e.slot pos + len.toNat := by
    rw [UInt64.toNat_add, Nat.mod_eq_of_lt hsum]
    rfl
  unfold read_bytes
  simp only [mask_eq, Prog.ret_bind, plus_eq (.inr hsum), UInt64.le_iff_toNat_le, hfin]
  change (if e.slot pos + len.toNat ≤ e.capacity.toNat then copy_from_shared (e.slot pos) len.toNat else _) = _
  split
  · exact copy_from_shared_eq pos (by omega)
  rename_i hover
  simp only [hroom, Prog.ret_bind, hnat]
  conv_rhs => rw [show len.toNat = (e.capacity.toNat - e.slot pos) + (len.toNat - (e.capacity.toNat - e.slot pos))
    by omega, load_at_append]
  change (copy_from_shared (e.slot pos) _ >>= _) = _
  rw [copy_from_shared_eq pos (by omega)]
  congr 1
  funext front
  have hend := slot_end (e := e) pos (n := e.capacity.toNat - e.slot pos) (by omega)
  rw [← copy_from_shared_eq (pos + UInt64.ofNat (e.capacity.toNat - e.slot pos)) (by rw [hend]; omega), hend]

def frame (msg : Bytes) : Bytes := le 4 msg.length ++ msg

@[simp] theorem length_frame (msg : Bytes) : (frame msg).length = 4 + msg.length := by
  simp [frame]

def send_frame (checks : Bool) (e : Endpoint) (msg : Bytes) (head : UInt64) : RingM (Except SendRefused Unit) := do
  store_at e head (le 4 msg.length)
  let body ← plus checks head MSG_HEADER_SIZE
  store_at e body msg
  let fin ← plus checks head (MSG_HEADER_SIZE + UInt64.ofNat msg.length)
  storeHead fin
  pure (.ok ())

theorem toNat_total {n : Nat} (h : n ≤ (max_message_bytes e.capacity).toNat) :
    MSG_HEADER_SIZE.toNat + (UInt64.ofNat n).toNat = 4 + n ∧ (MSG_HEADER_SIZE + UInt64.ofNat n).toNat = 4 + n := by
  have hb := e.max_message_bounds
  have hn : (UInt64.ofNat n).toNat = n := UInt64.toNat_ofNat_of_lt' (by norm_num; omega)
  have h4 : MSG_HEADER_SIZE.toNat = 4 := rfl
  refine ⟨by rw [hn, h4], ?_⟩
  rw [UInt64.toNat_add, hn, h4, Nat.mod_eq_of_lt (by omega)]

theorem try_send_too_long {msg : Bytes} (h : ¬ msg.length ≤ (max_message_bytes e.capacity).toNat) :
    try_send checks e msg = .ret (.error ⟨⟩) := by
  unfold try_send
  rw [if_pos]
  · rfl
  · simpa [message_len_valid] using h

theorem try_send_eq {msg : Bytes} (h : msg.length ≤ (max_message_bytes e.capacity).toNat) :
    try_send checks e msg = loadHead >>= fun head => loadTail >>= fun tail =>
      if (head - tail).toNat + 4 + msg.length ≤ e.capacity.toNat then send_frame checks e msg head
      else .ret (.error ⟨⟩) := by
  obtain ⟨hsum, htotal⟩ := toNat_total h
  have hb := e.max_message_bounds
  unfold try_send
  rw [if_neg (by simpa [message_len_valid] using h), plus_eq (.inr (by omega)), Prog.ret_bind]
  congr 1
  funext head
  congr 1
  funext tail
  rcases Nat.lt_or_ge e.capacity.toNat (head - tail).toNat with hover | hused
  · rw [if_pos (UInt64.lt_iff_toNat_lt.mpr hover), if_neg (by omega)]
    rfl
  have hle : head - tail ≤ e.capacity := UInt64.le_iff_toNat_le.mpr hused
  rw [if_neg (UInt64.not_lt.mpr hle), minus_eq hle, Prog.ret_bind]
  simp only [UInt64.lt_iff_toNat_lt, UInt64.toNat_sub_of_le _ _ hle, htotal]
  split
  · rw [if_neg (by omega)]
    rfl
  rw [if_pos (by omega)]
  unfold send_frame
  rw [write_bytes_eq head (by rw [length_le]; omega)]
  congr 1
  funext
  congr 1
  funext body
  rw [write_bytes_eq body (by omega)]

theorem send_frame_eq {msg : Bytes} {head : UInt64} (h : msg.length ≤ (max_message_bytes e.capacity).toNat)
    (hw : checks = false ∨ head.toNat + 4 + msg.length < 2 ^ 64) :
    send_frame checks e msg head = store_at e head (frame msg) >>= fun _ =>
      storeHead (head + UInt64.ofNat (frame msg).length) >>= fun _ => .ret (.ok ()) := by
  have htotal := (toNat_total h).2
  have h4 : MSG_HEADER_SIZE.toNat = 4 := rfl
  unfold send_frame
  rw [plus_eq (hw.imp_right fun h => by omega), Prog.ret_bind, plus_eq (hw.imp_right fun h => by omega),
    length_frame, UInt64.ofNat_add, frame, store_at_append, length_le, Prog.bind_assoc]
  rfl

theorem readable_frame_eq :
    readable_frame checks e = loadHead >>= fun head => loadTail >>= fun tail =>
      if e.capacity < head - tail then .ret none
      else if head - tail < MSG_HEADER_SIZE then .ret none
      else load_at e tail 4 >>= fun len_bytes =>
        if max_message_bytes e.capacity < UInt64.ofNat (ofLe len_bytes) then
          storeTail (tail + MSG_HEADER_SIZE) >>= fun _ => .ret none
        else if e.capacity < MSG_HEADER_SIZE + UInt64.ofNat (ofLe len_bytes) ||
            head - tail < MSG_HEADER_SIZE + UInt64.ofNat (ofLe len_bytes) then .ret none
        else .ret (some (tail, UInt64.ofNat (ofLe len_bytes))) := by
  have hm := e.max_message_bounds
  have h4 : MSG_HEADER_SIZE.toNat = 4 := rfl
  unfold readable_frame
  congr 1
  funext head
  congr 1
  funext tail
  dsimp only
  split
  · rfl
  split
  · rfl
  rw [read_bytes_eq tail (by omega), h4]
  congr 1
  funext len_bytes
  split
  · rfl
  · rename_i hle
    rw [UInt64.not_lt, UInt64.le_iff_toNat_le] at hle
    rw [plus_eq (.inr (by omega))]
    rfl

end Operations

end EnclaveOs.Queue
