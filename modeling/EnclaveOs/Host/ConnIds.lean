import EnclaveOs.Host.TcpProxy

/-! # Fresh connection ids -/

namespace EnclaveOs.Host.Proxy

open Lib Channel

/-! ## Probing a range -/

def in_range (lo hi id : ConnId) : Bool := lo ≤ id && id < hi

/-- The id that is probed after `id`. -/
def after (lo hi id : ConnId) : ConnId := if in_range lo hi (id + 1) then id + 1 else lo

/-- Both allocators: the first free id of `tries`, and where to go on. -/
def probe (lo hi : ConnId) (taken : ConnId → Bool) : Nat → ConnId → Option ConnId × ConnId
  | 0, next => (none, next)
  | tries + 1, next =>
    if in_range lo hi next && !taken next then (some next, after lo hi next)
    else probe lo hi taken tries (after lo hi next)

section

variable {lo hi id next : ConnId} {taken : ConnId → Bool} {tries : Nat}

theorem in_range_iff : in_range lo hi id = true ↔ lo.toNat ≤ id.toNat ∧ id.toNat < hi.toNat := by
  simp [in_range, UInt32.le_iff_toNat_le, UInt32.lt_iff_toNat_lt]

theorem in_range_after (h : in_range lo hi id = true) : in_range lo hi (after lo hi id) = true := by
  unfold after
  split
  · assumption
  · rw [in_range_iff] at h ⊢
    omega

theorem toNat_after (h : in_range lo hi id = true) :
    (after lo hi id).toNat = lo.toNat + (id.toNat - lo.toNat + 1) % (hi.toNat - lo.toNat) := by
  have hhi := hi.toNat_lt
  rw [in_range_iff] at h
  have hsucc : (id + 1).toNat = id.toNat + 1 := by
    rw [UInt32.toNat_add, Nat.mod_eq_of_lt]
    · rfl
    · change id.toNat + 1 < _
      omega
  unfold after
  split
  · rename_i hnext
    rw [in_range_iff, hsucc] at hnext
    rw [hsucc, Nat.mod_eq_of_lt (by omega)]
    omega
  · rename_i hnext
    rw [in_range_iff, hsucc] at hnext
    have hlast : id.toNat - lo.toNat + 1 = hi.toNat - lo.toNat := by omega
    rw [hlast, Nat.mod_self, Nat.add_zero]

theorem toNat_iterate (h : in_range lo hi next = true) (i : Nat) : in_range lo hi ((after lo hi)^[i] next) = true ∧
    ((after lo hi)^[i] next).toNat = lo.toNat + (next.toNat - lo.toNat + i) % (hi.toNat - lo.toNat) := by
  induction i with
  | zero =>
    refine ⟨h, ?_⟩
    rw [in_range_iff] at h
    rw [Nat.mod_eq_of_lt (by omega)]
    show next.toNat = _
    omega
  | succ i ih =>
    rw [Function.iterate_succ_apply']
    refine ⟨in_range_after ih.1, ?_⟩
    rw [toNat_after ih.1, ih.2, Nat.add_sub_cancel_left, Nat.mod_add_mod, Nat.add_assoc]

theorem taken_of_probe (h : in_range lo hi next = true) (hnone : (probe lo hi taken tries next).1 = none) :
    ∀ i < tries, taken ((after lo hi)^[i] next) = true := by
  induction tries generalizing next with
  | zero => exact fun i hi => by omega
  | succ tries ih =>
    rw [probe] at hnone
    split at hnone
    · cases hnone
    rename_i hno
    intro i hi
    rcases i with _ | i
    · simpa [h] using hno
    · exact ih (in_range_after h) hnone i (by omega)

theorem in_range_probe (h : in_range lo hi next = true) : in_range lo hi (probe lo hi taken tries next).2 = true := by
  induction tries generalizing next with
  | zero => exact h
  | succ tries ih =>
    rw [probe]
    split
    · exact in_range_after h
    · exact ih (in_range_after h)

theorem free_of_probe (h : (probe lo hi taken tries next).1 = some id) :
    in_range lo hi id = true ∧ taken id = false := by
  induction tries generalizing next with
  | zero => cases h
  | succ tries ih =>
    rw [probe] at h
    split at h
    · rename_i hfree
      cases h
      simpa using hfree
    · exact ih h

/-- One probe more than there are taken ids finds a free one. -/
theorem probe_finds {S : Finset ConnId} (hS : ∀ id, taken id = true → id ∈ S) (hcard : S.card < tries)
    (hwide : tries ≤ hi.toNat - lo.toNat) (h : in_range lo hi next = true) :
    ∃ id, (probe lo hi taken tries next).1 = some id := by
  rw [← Option.ne_none_iff_exists']
  intro hnone
  have hinj : Set.InjOn (fun i => (after lo hi)^[i] next) (Finset.range tries) := by
    intro i hi' j hj heq
    have hnat := congrArg UInt32.toNat heq
    rw [(toNat_iterate h i).2, (toNat_iterate h j).2, Nat.add_left_cancel_iff] at hnat
    have hmod := Nat.ModEq.add_left_cancel' _ hnat
    rw [Finset.coe_range, Set.mem_Iio] at hi' hj
    exact hmod.eq_of_lt_of_lt (by omega) (by omega)
  have hle := Finset.card_le_card_of_injOn (t := S) _
    (fun i hi => hS _ (taken_of_probe h hnone i (Finset.mem_range.mp hi))) hinj
  rw [Finset.card_range] at hle
  omega

end

/-! ## The two allocators -/

theorem allocate_conn_id_eq (tries : Nat) (p : TcpProxy) :
    p.allocate_conn_id tries = ((probe 1 CONN_ID_PEER_IN_BASE p.contains tries p.next_conn_id).1,
      { p with next_conn_id := (probe 1 CONN_ID_PEER_IN_BASE p.contains tries p.next_conn_id).2 }) := by
  have hpos (id : ConnId) : id ≠ 0 ↔ 1 ≤ id := by
    rw [UInt32.le_iff_toNat_le, ne_eq, ← UInt32.toNat_inj]
    exact Nat.pos_iff_ne_zero.symm
  have hwrap (id : ConnId) : TcpProxy.wrap_conn_id (id + 1) = after 1 CONN_ID_PEER_IN_BASE id := by
    have hout : (id + 1 = 0 || CONN_ID_PEER_IN_BASE ≤ id + 1) = !in_range 1 CONN_ID_PEER_IN_BASE (id + 1) := by
      rw [Bool.eq_iff_iff]
      simp [in_range, ← hpos]
    rw [TcpProxy.wrap_conn_id, hout, after]
    cases in_range 1 CONN_ID_PEER_IN_BASE (id + 1) <;> rfl
  induction tries generalizing p with
  | zero => rfl
  | succ tries ih =>
    unfold TcpProxy.allocate_conn_id probe
    simp only [hwrap, hpos]
    by_cases h : (in_range 1 CONN_ID_PEER_IN_BASE p.next_conn_id && !p.contains p.next_conn_id) = true
    · rw [if_pos h]
      exact if_pos h
    · rw [if_neg h]
      exact (if_neg h).trans (ih _)

theorem allocate_peer_conn_id_eq (tries : Nat) (p : TcpProxy) :
    p.allocate_peer_conn_id tries =
      ((probe CONN_ID_PEER_IN_BASE CONN_ID_OUTBOUND_BASE p.contains tries p.next_peer_conn_id).1,
      { p with next_peer_conn_id :=
        (probe CONN_ID_PEER_IN_BASE CONN_ID_OUTBOUND_BASE p.contains tries p.next_peer_conn_id).2 }) := by
  induction tries generalizing p with
  | zero => rfl
  | succ tries ih =>
    unfold TcpProxy.allocate_peer_conn_id probe
    by_cases h : (in_range CONN_ID_PEER_IN_BASE CONN_ID_OUTBOUND_BASE p.next_peer_conn_id &&
      !p.contains p.next_peer_conn_id) = true
    · rw [if_pos h]
      exact if_pos h
    · rw [if_neg h]
      exact (if_neg h).trans (ih _)

/-! ## In every run -/

/-- The counters are in their ranges, and no more ids are tracked than are allowed. -/
structure Fit (p : TcpProxy) : Prop where
  ingress : in_range 1 CONN_ID_PEER_IN_BASE p.next_conn_id = true
  peer : in_range CONN_ID_PEER_IN_BASE CONN_ID_OUTBOUND_BASE p.next_peer_conn_id = true
  len : p.len ≤ MAX_CONNS

section

variable {w : World} {p p' : TcpProxy} {id : ConnId}

theorem Fit.of_eq (h : Fit p) (hid : p'.next_conn_id = p.next_conn_id)
    (hpeer : p'.next_peer_conn_id = p.next_peer_conn_id) (hlen : p'.len ≤ p.len) : Fit p' :=
  ⟨hid ▸ h.ingress, hpeer ▸ h.peer, hlen.trans h.len⟩

theorem Fit.foldl {α : Type} {f : TcpProxy → α → TcpProxy} (h : Fit p) (hf : ∀ p a, Fit p → Fit (f p a))
    (l : List α) : Fit (l.foldl f p) := by
  induction l generalizing p with
  | nil => exact h
  | cons a l ih => exact ih (hf _ a h)

@[simp] theorem len_send (m : Bytes) : (p.send_to_enclave w m).len = p.len := by
  rw [TcpProxy.send_to_enclave]
  split
  · rfl
  · split <;> rfl

@[grind ←] theorem Fit.send (h : Fit p) (m : Bytes) : Fit (p.send_to_enclave w m) := by
  refine h.of_eq ?_ ?_ (len_send m).le
  all_goals
    rw [TcpProxy.send_to_enclave]
    split
    · rfl
    · split <;> rfl

@[grind ←] theorem Fit.tick (h : Fit p) : Fit p.tick := h.of_eq rfl rfl le_rfl

@[grind ←] theorem Fit.emit (h : Fit p) (e : Event) : Fit (p.emit e) := h.of_eq rfl rfl le_rfl

theorem len_insert (conn : ConnState) :
    (p.insert id conn).len = if (p.connections.lookup id).isSome then p.len else p.len + 1 := by
  simp only [TcpProxy.len, TcpProxy.insert, AList.keys_insert, AList.lookup_isSome, AList.mem_keys, List.length_cons,
    List.length_erase]
  split
  · rename_i hmem
    have := List.length_pos_of_mem hmem
    omega
  · omega

@[grind ←] theorem Fit.insert (h : Fit p) (hroom : p.len < MAX_CONNS ∨ (p.connections.lookup id).isSome)
    (conn : ConnState) : Fit (p.insert id conn) := by
  refine ⟨h.ingress, h.peer, ?_⟩
  rw [len_insert]
  split
  · exact h.len
  · exact Nat.succ_le_of_lt (hroom.resolve_right ‹_›)

@[grind ←] theorem Fit.remove (h : Fit p) (path : Path) : Fit (p.remove id path) := by
  unfold TcpProxy.remove
  split
  · exact h.of_eq rfl rfl (by simp [TcpProxy.len, TcpProxy.emit, AList.keys_erase, List.length_erase_le])
  · exact h

@[grind ←] theorem Fit.remove_pending (h : Fit p) (path : Path) : Fit (p.remove_pending id path) := by
  unfold TcpProxy.remove_pending
  split
  · exact h.of_eq rfl rfl (by simp [TcpProxy.len, TcpProxy.emit, AList.keys_erase, List.length_erase_le])
  · exact h

theorem len_pending {pending : PendingConn} (hp : p.pending_connects.lookup id = some pending) :
    (p.pending_connects.keys.erase id).length + 1 = p.pending_connects.keys.length := by
  have hmem : id ∈ p.pending_connects.keys := by
    rw [← AList.mem_keys, ← AList.lookup_isSome, hp]
    rfl
  rw [List.length_erase_of_mem hmem]
  exact Nat.sub_add_cancel (List.length_pos_of_mem hmem)

theorem Fit.write_to_socket (h : Fit p) (data : Bytes) : Fit (p.write_to_socket w id data) := by
  unfold TcpProxy.write_to_socket
  split
  · rename_i pending hp
    split
    · exact (h.remove_pending _).send _
    · exact h.of_eq rfl rfl (by simp [TcpProxy.len, AList.keys_insert, len_pending hp])
  · grind

theorem Fit.close_from_enclave (h : Fit p) : Fit (p.close_from_enclave w id) := by
  unfold TcpProxy.close_from_enclave
  dsimp only
  split
  · exact h.remove_pending _
  split
  · split
    · exact (h.remove_pending _).remove _
    · refine Fit.send ?_ _
      split <;> grind
  · grind

theorem Fit.flush_socket_writes (h : Fit p) : Fit (p.flush_socket_writes w) := by
  have hadvance (s : Flush) (id : ConnId) (conn conn' : ConnState) (n : Nat) (hs : Fit s.proxy)
      (hc : s.proxy.connections.lookup id = some conn) : Fit (s.advance id conn' n).proxy := by
    unfold Flush.advance
    split <;> exact hs.insert (.inr (by rw [hc]; rfl)) _
  have hone (s : Flush) (id : ConnId) (hs : Fit s.proxy) : Fit (s.one w id).proxy := by
    unfold Flush.one
    split
    · exact hs
    rename_i conn hc
    split
    · exact hs
    split
    · exact hs
    · exact hs.emit _
    · exact hs.emit _
    dsimp only
    split
    · exact hadvance _ id conn _ _ (hs.emit _) hc
    · split
      · exact hs.emit _
      · exact hadvance _ id conn _ _ (hs.emit _) hc
  have hall (l : List ConnId) (s : Flush) (hs : Fit s.proxy) : Fit (l.foldl (Flush.one w) s).proxy := by
    induction l generalizing s with
    | nil => exact hs
    | cons id l ih => exact ih _ (hone s id hs)
  unfold TcpProxy.flush_socket_writes
  refine ((hall _ ⟨p.tick, [], []⟩ h.tick).foldl (fun _ _ h => h.send _) _).foldl (fun p c h => ?_) _
  unfold TcpProxy.close_one
  grind

theorem Fit.poll_one (h : Fit p) (done : ConnId × Bool) : Fit (p.poll_one w done) := by
  have hreplay (chunks : List Bytes) (p : TcpProxy) (h : Fit p) : Fit (TcpProxy.replay w done.1 p chunks) := by
    induction chunks generalizing p with
    | nil => exact h
    | cons chunk chunks ih =>
      unfold TcpProxy.replay
      dsimp only
      split
      · exact ih _ (h.write_to_socket chunk)
      · exact h.write_to_socket chunk
  unfold TcpProxy.poll_one
  split
  · exact h
  rename_i pending hp
  split
  · exact (h.remove_pending _).send _
  · refine hreplay _ _ (Fit.send ?_ _)
    refine h.of_eq rfl rfl ?_
    have hlen := @len_insert { p with pending_connects := p.pending_connects.erase done.1 } done.1
      { origin := .Outbound }
    have hone := len_pending hp
    simp only [TcpProxy.len, TcpProxy.emit, AList.keys_erase] at hlen ⊢
    grind

theorem Fit.allocated (h : Fit p) {tries : Nat} {out : Option ConnId}
    (heq : p.allocate_conn_id tries = (out, p') ∨ p.allocate_peer_conn_id tries = (out, p')) :
    Fit p' ∧ p'.len = p.len := by
  rw [allocate_conn_id_eq, allocate_peer_conn_id_eq] at heq
  rcases heq with heq | heq <;> cases heq
  · exact ⟨⟨in_range_probe h.ingress, h.peer, h.len⟩, rfl⟩
  · exact ⟨⟨h.ingress, in_range_probe h.peer, h.len⟩, rfl⟩

theorem Fit.register (h : Fit p) (hlen : p.len < MAX_CONNS) (socket : Incoming) : Fit (p.register w id socket) := by
  have hannounce (p : TcpProxy) (h : Fit p) (hlen : p.len < MAX_CONNS) (n : Nat) : Fit (p.announce w id socket n) := by
    unfold TcpProxy.announce
    grind [len_send]
  unfold TcpProxy.register
  split
  · exact h
  split
  · exact hannounce p h hlen 0
  split
  · exact h
  · exact hannounce { p with next_read_generation := p.next_read_generation + 1 } (h.of_eq rfl rfl le_rfl) hlen _

theorem Fit.accept_one (h : Fit p) (incoming : Incoming × Bool) : Fit (p.accept_one w incoming) := by
  unfold TcpProxy.accept_one
  split
  · exact h
  split
  all_goals
    rename_i heq
    rw [ite_eq_iff'] at heq
    obtain ⟨hfit, hlen⟩ := h.allocated ((Classical.em (incoming.2 = true)).symm.imp heq.2 heq.1)
  · exact hfit
  · exact hfit.register (by omega) _

theorem Fit.accept_local_one (h : Fit p) (socket : Incoming) : Fit (p.accept_local_one w socket) := by
  unfold TcpProxy.accept_local_one
  split
  · exact h
  split <;> rename_i heq <;> obtain ⟨hfit, hlen⟩ := h.allocated (.inl heq)
  · exact hfit
  · grind [len_send]

theorem Fit.start_outbound_connect (h : Fit p) : Fit (p.start_outbound_connect w id) := by
  unfold TcpProxy.start_outbound_connect
  split
  · exact h.send _
  rename_i hroom
  dsimp only
  split
  · exact h.tick.send _
  · refine ⟨h.ingress, h.peer, ?_⟩
    have := List.length_erase_le (a := id) (l := p.pending_connects.keys)
    have hlen : p.len < MAX_CONNS := by grind
    rw [TcpProxy.len] at hlen
    simp only [TcpProxy.len, TcpProxy.emit, TcpProxy.tick, AList.keys_insert, List.length_cons]
    omega

theorem Fit.begin_outbound_connection (h : Fit p) (payload : Bytes) : Fit (p.begin_outbound_connection w payload) := by
  unfold TcpProxy.begin_outbound_connection
  split
  · exact h
  split
  · exact h.send _
  split <;> rename_i heq <;> obtain ⟨hfit, hlen⟩ := h.allocated (.inl heq)
  · exact hfit.send _
  · have htick (p : TcpProxy) : p.tick.len = p.len := rfl
    grind

theorem Fit.on_message (h : Fit p) (msg_type : ChannelMsgType) (payload : Bytes) :
    Fit (p.on_message w msg_type id payload) := by
  cases msg_type <;> unfold TcpProxy.on_message
  case TcpWriteCredit =>
    unfold TcpProxy.on_write_credit
    grind
  case TcpReadControl =>
    unfold TcpProxy.on_read_control
    grind
  case TcpData => exact h.write_to_socket payload
  case TcpClose => exact h.close_from_enclave
  case TcpConnect => grind [Fit.begin_outbound_connection]
  case PeerTcpConnect => grind [Fit.start_outbound_connect]
  case DataReady => exact h.of_eq rfl rfl le_rfl
  all_goals exact h

theorem Fit.drain_enclave_output (h : Fit p) (turns : Nat) : Fit (p.drain_enclave_output w turns) := by
  induction turns generalizing p with
  | zero => exact h
  | succ turns ih =>
    unfold TcpProxy.drain_enclave_output
    dsimp only
    split
    · exact h.tick
    split
    · exact ih h.tick
    · exact ih ((h.tick.emit _).on_message _ _)

theorem Fit.serve (h : Fit p) : Fit (p.serve w) := by
  unfold TcpProxy.serve
  split
  swap
  · exact h
  have haccepted : Fit (p.accept_connections w) := h.tick.foldl (fun _ a h => h.accept_one a) _
  have hlocal : Fit ((p.accept_connections w).accept_local_control_connections w) :=
    haccepted.tick.foldl (fun _ a h => h.accept_local_one a) _
  have hprogress : Fit (((p.accept_connections w).accept_local_control_connections w).progress_outbound_connections w) := by
    refine (hlocal.tick.foldl (fun p c h => Fit.send ?_ _) _).foldl (fun _ _ h => (h.remove _).send _) _
    grind
  have hpoll : Fit ((((p.accept_connections w).accept_local_control_connections w).progress_outbound_connections w).poll_pending_connects w) :=
    hprogress.tick.foldl (fun _ a h => h.poll_one a) _
  exact (hpoll.tick.foldl (fun _ _ h => h.remove _) _).foldl (fun _ _ h => h.send _) _

theorem Fit.run (h : Fit p) (rounds : Nat) : Fit (TcpProxy.run w p rounds) := by
  induction rounds generalizing p with
  | zero => exact h
  | succ rounds ih =>
    unfold TcpProxy.run
    split
    · exact (h.foldl (fun _ _ h => h.remove _) _).foldl (fun _ _ h => h.remove_pending _) _
    refine ih ?_
    have hflush (p : TcpProxy) (h : Fit p) : Fit (p.flush_pending_to_enclave w) := by
      unfold TcpProxy.flush_pending_to_enclave
      split
      · exact h
      · dsimp only
        split
        · exact h.of_eq rfl rfl le_rfl
        · exact h.tick
    have hreap (p : TcpProxy) (h : Fit p) : Fit (p.scan w) := by
      unfold TcpProxy.scan
      split
      · refine h.tick.foldl (fun p id h => ?_) _
        unfold TcpProxy.reap_one
        split
        · exact h
        · exact (h.remove _).send _
      · exact h
    unfold TcpProxy.round TcpProxy.send_tick_if_due
    have hdrained := hflush _ (h.drain_enclave_output (w := w) 64)
    dsimp only
    split
    · exact hdrained
    split
    · exact (hreap _ hdrained.flush_socket_writes.serve).send _
    · exact hreap _ hdrained.flush_socket_writes.serve

theorem probe_free {lo hi next : ConnId} (hlen : p.len ≤ MAX_CONNS)
    (hwide : MAX_CONNS + 1 ≤ hi.toNat - lo.toNat) (h : in_range lo hi next = true) :
    ∃ id, (probe lo hi p.contains (MAX_CONNS + 1) next).1 = some id := by
  have hS : ∀ id, p.contains id = true → id ∈ (p.connections.keys ++ p.pending_connects.keys).toFinset := by
    intro id hid
    simpa [TcpProxy.contains, AList.lookup_isSome, AList.mem_keys] using hid
  have hcard := List.toFinset_card_le (p.connections.keys ++ p.pending_connects.keys)
  rw [List.length_append] at hcard
  exact probe_finds hS (hcard.trans_lt (Nat.lt_succ_of_le hlen)) hwide h

end

/-- What is handed out is fresh at any two moments; in states as a run reaches them, an id is found. -/
theorem conn_ids_fresh (p p' : TcpProxy) :
    (∀ w rounds, Fit (TcpProxy.run w {} rounds)) ∧
    (∀ id id', (p.allocate_conn_id (MAX_CONNS + 1)).1 = some id →
      (p'.allocate_peer_conn_id (MAX_CONNS + 1)).1 = some id' →
      p.contains id = false ∧ id ≠ 0 ∧ id < CONN_ID_PEER_IN_BASE ∧ p'.contains id' = false ∧
        CONN_ID_PEER_IN_BASE ≤ id' ∧ id' < CONN_ID_OUTBOUND_BASE ∧ id ≠ id') ∧
    (Fit p → Fit p' → ∃ id id', (p.allocate_conn_id (MAX_CONNS + 1)).1 = some id ∧
      (p'.allocate_peer_conn_id (MAX_CONNS + 1)).1 = some id') := by
  refine ⟨fun w rounds => Fit.run ⟨by decide, by decide, by decide⟩ rounds, fun id id' hid hid' => ?_, fun h h' => ?_⟩
  · rw [allocate_conn_id_eq] at hid
    rw [allocate_peer_conn_id_eq] at hid'
    obtain ⟨hrange, hfree⟩ := free_of_probe hid
    obtain ⟨hrange', hfree'⟩ := free_of_probe hid'
    simp only [in_range, Bool.and_eq_true, decide_eq_true_eq] at hrange hrange'
    refine ⟨hfree, ?_, hrange.2, hfree', hrange'.1, hrange'.2, ?_⟩
    · rintro rfl
      exact absurd hrange.1 (by decide)
    · rintro rfl
      exact absurd hrange'.1 (UInt32.not_le.mpr hrange.2)
  · obtain ⟨id, hid⟩ := probe_free h.len (by decide) h.ingress
    obtain ⟨id', hid'⟩ := probe_free h'.len (by decide) h'.peer
    rw [allocate_conn_id_eq, allocate_peer_conn_id_eq]
    exact ⟨id, id', hid, hid'⟩

/-- Both counters at the last id of their range, which is taken, as is the first one of the enclave's. -/
def at_range_end : TcpProxy where
  connections := ((∅ : AList _).insert 1 { origin := .Outbound }).insert (CONN_ID_PEER_IN_BASE - 1) { origin := .Outbound }
  pending_connects := (∅ : AList _).insert (CONN_ID_OUTBOUND_BASE - 1) {}
  next_conn_id := CONN_ID_PEER_IN_BASE - 1
  next_peer_conn_id := CONN_ID_OUTBOUND_BASE - 1

theorem wrapped_conn_ids : (at_range_end.allocate_conn_id (MAX_CONNS + 1)).1 = some 2 ∧
    (at_range_end.allocate_peer_conn_id (MAX_CONNS + 1)).1 = some CONN_ID_PEER_IN_BASE ∧
    at_range_end.contains 2 = false ∧ at_range_end.contains CONN_ID_PEER_IN_BASE = false := by
  obtain ⟨-, hfresh, hfound⟩ := conn_ids_fresh at_range_end at_range_end
  obtain ⟨id, id', hid, hid'⟩ := hfound ⟨by decide, by decide, by decide⟩ ⟨by decide, by decide, by decide⟩
  have htwo : id = 2 := Option.some_inj.mp (hid.symm.trans (by decide))
  have hbase : id' = CONN_ID_PEER_IN_BASE := Option.some_inj.mp (hid'.symm.trans (by decide))
  subst htwo hbase
  obtain ⟨hfree, -, -, hfree', -⟩ := hfresh _ _ hid hid'
  exact ⟨hid, hid', hfree, hfree'⟩

end EnclaveOs.Host.Proxy
