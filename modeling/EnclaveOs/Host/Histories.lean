import EnclaveOs.Host.TcpProxy
import EnclaveOs.Lib.Traces

/-!
# Connections of the proxy, as the log shows them

What the enclave has sent for a connection is what its socket has taken and what the buffers still hold.
-/

namespace EnclaveOs.Host.Proxy

open Lib Channel

structure History where
  phase : Phase := .connected
  -- Every byte of `TcpData`, and those that did not come before the enclave knew the id.
  sent : Bytes := []
  heard : Bytes := []
  written : Bytes := []
  refused : Bool := false
  -- How many bytes had been heard at the first `TcpClose`.
  closed : Option Nat := none
  -- How many bytes had been written when credit was enabled.
  credit_from : Option Nat := none
  reports : List Nat := []
  dropped : Option Path := none
  -- The enclave was told of the drop.
  told_close : Bool := false

namespace History

def hear (h : History) (payload : Bytes) : ChannelMsgType → History
  | .TcpData =>
    { h with sent := h.sent ++ payload, heard := if h.phase = .connecting then h.heard else h.heard ++ payload }
  | .TcpClose => { h with closed := some (h.closed.getD h.heard.length) }
  | .TcpWriteCredit =>
    if h.phase ≠ .pending ∧ h.credit_from = none ∧ decode_tcp_write_credit payload = some 0 then
      { h with credit_from := some h.written.length }
    else h
  | _ => h

def tell (h : History) (payload : Bytes) : ChannelMsgType → History
  | .TcpWriteCredit => { h with reports := h.reports ++ (decode_tcp_write_credit payload).toList }
  | .TcpClose => if h.dropped.isSome then { h with told_close := true } else h
  | _ => h

def write (h : History) (bytes : Bytes) : History := { h with written := h.written ++ bytes }

def drop (h : History) (path : Path) : History := { h with dropped := some path, told_close := false }

def next (conn_id : ConnId) (h : History) : Event → History
  | .opened j phase => if j = conn_id then { phase } else h
  | .connected j => if j = conn_id then { h with phase := .connected } else h
  | .message msg_type j payload => if j = conn_id ∧ h.dropped = none then h.hear payload msg_type else h
  | .wrote j bytes => if j = conn_id then h.write bytes else h
  | .refused j => if j = conn_id then { h with refused := true } else h
  | .told message =>
    match decode_channel_msg message with
    | some (msg_type, j, payload) => if j = conn_id then h.tell payload msg_type else h
    | none => h
  | .delivered _ => h
  | .dropped j path => if j = conn_id then h.drop path else h

end History

def unopened : History := { dropped := some .run }

abbrev history (log : List Event) (conn_id : ConnId) : History := view History.next unopened log conn_id

/-! ## What is to hold of them -/

def Path.writes : Path → Bool
  | .write_to_socket | .close_from_enclave | .flush_socket_writes => true
  | _ => false

namespace History

/-- Closed by the enclave, and all that was heard is written. -/
def Orderly (h : History) : Prop :=
  h.closed.isSome ∧ (h.dropped = some .flush_socket_writes ∨ h.dropped = some .close_from_enclave) ∧
    h.written = h.heard

/-- More bytes since credit was enabled than a `u64` counts. -/
def Exhausted (h : History) : Prop := ∃ b, h.credit_from = some b ∧ b + 2 ^ 64 ≤ h.written.length

/-- Why bytes may be left when the write path drops a connection. -/
def Failed (h : History) : Prop :=
  h.phase = .pending ∨ h.refused = true ∨ h.Exhausted ∨
    (h.dropped = some .write_to_socket ∧ h.written.length + MAX_PENDING_WRITE < h.heard.length)

/-- After an orderly close the last report is the count of the bytes written. -/
def Settled (h : History) : Prop :=
  h.Orderly → ¬ h.Exhausted → ∀ b, h.credit_from = some b → b + h.reports.getLastD 0 = h.written.length

/-- What holds of a connection at every moment. The last report may wait until the close is told. -/
structure Honest (h : History) : Prop where
  conserved : h.written <+: h.heard
  drained : ∀ path n, h.dropped = some path → path.writes = true → h.closed = some n → n ≤ h.written.length ∨ h.Failed
  increasing : h.reports.Pairwise (· < ·)
  bounded : ∀ r ∈ h.reports, ∃ b, h.credit_from = some b ∧ b + r ≤ h.written.length
  settled : h.told_close = true → h.Settled

end History

/-! ## What the state says of them -/

/-- The counts, with the reports still to be sent. -/
def Counted (owed : List Nat) (h : History) : Option WrittenCredit → Prop
  | none => h.credit_from = none ∧ h.reports = [] ∧ owed = []
  | some c => (∃ b, h.credit_from = some b ∧ b + c.total = h.written.length) ∧ c.total < 2 ^ 64 ∧
      (h.reports ++ owed).Pairwise (· < ·) ∧ (h.reports ++ owed).getLastD 0 = c.reported ∧ c.reported ≤ c.total

/-- The credits owed go on from those reported, within the bytes written. -/
def Payable (owed : List Nat) (h : History) : Prop :=
  (h.reports ++ owed).Pairwise (· < ·) ∧
    ∀ r ∈ owed, r < 2 ^ 64 ∧ ∃ b, h.credit_from = some b ∧ b + r ≤ h.written.length

/-- `rest` has been heard and is not in the buffer yet. -/
structure Tracks (conn : ConnState) (rest : Bytes) (owed : List Nat) (h : History) : Prop where
  live : h.dropped = none
  phase : h.phase = if conn.origin.connecting.isSome then .connecting else .connected
  offset : conn.write_offset ≤ conn.write_buffer.length
  bytes : h.heard = h.written ++ conn.write_buffer.drop conn.write_offset ++
    if conn.origin.connecting.isSome then [] else rest
  closed : ∀ n, h.closed = some n → n ≤ h.heard.length
  counted : Counted owed h conn.write_credit

/-- A peer connect in progress: what was heard is buffered or still to come. -/
structure Waits (pending : PendingConn) (rest : Bytes) (owed : List Nat) (h : History) : Prop where
  live : h.dropped = none
  phase : h.phase = .pending
  bytes : h.heard = pending.buffered.flatten ++ rest
  written : h.written = []
  closed : ∀ n, h.closed = some n → n ≤ h.heard.length
  counted : Counted owed h none

/-- A connection about to be dropped, and why it may be. -/
structure Leaves (owed : List Nat) (h : History) : Prop where
  live : h.dropped = none
  closed : ∀ n, h.closed = some n → n ≤ h.heard.length
  reason : (h.refused = true ∧ h.written ≠ h.heard ∧ owed = []) ∨ (h.Exhausted ∧ owed = []) ∨
    (h.written = h.heard ∧ ∃ credit, Counted owed h credit ∧ ∀ c, credit = some c → c.reported = c.total)

/-- A connection that was dropped or never opened. -/
structure Gone (owed : List Nat) (h : History) : Prop where
  dead : h.dropped.isSome = true
  settled : History.Settled { h with reports := h.reports ++ owed }
  payable : Payable owed h
  quiet : owed ≠ [] → h.told_close = false

structure Debt where
  rest : Bytes := []
  owed : List Nat := []
  leaving : Bool := false

/-- What the tables say of a connection fits its history, given what the log still owes. -/
def Fits (debt : Debt) (h : History) : Option ConnState → Option PendingConn → Prop
  | some conn, none => if debt.leaving then Leaves debt.owed h else Tracks conn debt.rest debt.owed h
  | none, some pending => Waits pending debt.rest debt.owed h
  | none, none => Gone debt.owed h
  | some _, some _ => False

/-- Between the events of one call the log lags behind the tables by `debt`. -/
structure Inv (connections : AList fun _ : ConnId => ConnState) (pending : AList fun _ : ConnId => PendingConn)
    (log : List Event) (debt : ConnId → Debt) : Prop where
  fits : ∀ j, Fits (debt j) (history log j) (connections.lookup j) (pending.lookup j)
  honest : Always History.next unopened History.Honest log

abbrev TcpProxy.InvD (p : TcpProxy) (debt : ConnId → Debt) : Prop := Inv p.connections p.pending_connects p.log debt

def paid : ConnId → Debt := fun _ => {}

def owes (j : ConnId) (rest : Bytes) : ConnId → Debt := fun i => if i = j then { rest } else {}

theorem owes_nil (j : ConnId) : owes j [] = paid := by
  funext i
  rw [owes, paid, ite_self]

theorem owes_of_ne {i j : ConnId} (h : i ≠ j) (rest : Bytes) : owes j rest i = {} := if_neg h

@[simp] theorem owes_self (j : ConnId) (rest : Bytes) : owes j rest j = { rest } := if_pos rfl

/-! ## Events of one connection -/

def Event.about : Event → Option ConnId
  | .opened j _ | .connected j | .message _ j _ | .wrote j _ | .refused j | .dropped j _ => some j
  | .told m => (decode_channel_msg m).map (·.2.1)
  | .delivered _ => none

theorem next_of_not_about {e : Event} {j : ConnId} (h : e.about ≠ some j) (x : History) : x.next j e = x := by
  cases e with
  | told message =>
    rw [History.next]
    split
    · rename_i msg_type i payload hm
      have hij : i ≠ j := by
        rintro rfl
        exact h (by rw [Event.about, hm, Option.map_some])
      exact if_neg hij
    · rfl
  | delivered message => rfl
  | message msg_type i payload =>
    have hij : i ≠ j := fun heq => h (congrArg some heq)
    exact if_neg fun hc => hij hc.1
  | _ =>
    have hij := fun heq => h (congrArg some heq)
    exact if_neg hij

variable {cs : AList fun _ : ConnId => ConnState} {ps : AList fun _ : ConnId => PendingConn}
  {ps' : AList fun _ : ConnId => PendingConn} {cs' : AList fun _ : ConnId => ConnState}
  {pending : Option PendingConn} {debt' : ConnId → Debt} {conn : Option ConnState}
  {log : List Event} {debt : ConnId → Debt}

section

variable (hi : Inv cs ps log debt)

include hi

theorem Inv.change (j : ConnId) (evs : List Event) (habout : ∀ e ∈ evs, e.about = some j)
    (hcs : ∀ i, i ≠ j → cs'.lookup i = cs.lookup i) (hps : ∀ i, i ≠ j → ps'.lookup i = ps.lookup i)
    (hdebt : ∀ i, i ≠ j → debt' i = debt i)
    (hfits : Fits (debt' j) (evs.foldl (History.next j) (history log j)) (cs'.lookup j) (ps'.lookup j))
    (halong : Along (History.next j) History.Honest (history log j) evs) : Inv cs' ps' (log ++ evs) debt' := by
  have hsilent : ∀ i, i ≠ j → Silent History.next i evs := by
    intro i hij e he
    refine next_of_not_about ?_
    rw [habout e he]
    exact fun heq => hij (Option.some.inj heq).symm
  refine ⟨fun i => ?_, hi.honest.append_for j hsilent halong⟩
  have hview : history (log ++ evs) i = evs.foldl (History.next i) (history log i) := view_append ..
  rw [hview]
  by_cases hij : i = j
  · rw [hij]
    exact hfits
  · rw [hcs i hij, hps i hij, hdebt i hij, (hsilent i hij).foldl]
    exact hi.fits i

theorem Inv.event {j : ConnId} {e : Event} {h' : History} (habout : e.about = some j)
    (hnext : (history log j).next j e = h') (hcs : ∀ i, i ≠ j → cs'.lookup i = cs.lookup i)
    (hps : ∀ i, i ≠ j → ps'.lookup i = ps.lookup i) (hdebt : ∀ i, i ≠ j → debt' i = debt i)
    (hc : cs'.lookup j = conn) (hq : ps'.lookup j = pending) (hfits : Fits (debt' j) h' conn pending)
    (hhonest : h'.Honest) : Inv cs' ps' (log ++ [e]) debt' := by
  subst hnext hc hq
  refine hi.change j [e] (fun e' he' => ?_) hcs hps hdebt hfits ⟨hhonest, trivial⟩
  rw [List.mem_singleton.mp he', habout]

theorem Inv.set (j : ConnId)
    (hcs : ∀ i, i ≠ j → cs'.lookup i = cs.lookup i) (hps : ∀ i, i ≠ j → ps'.lookup i = ps.lookup i)
    (hdebt : ∀ i, i ≠ j → debt' i = debt i)
    (hfits : Fits (debt' j) (history log j) (cs'.lookup j) (ps'.lookup j)) : Inv cs' ps' log debt' := by
  have := hi.change j [] (by simp) hcs hps hdebt hfits trivial
  rwa [List.append_nil] at this

theorem Inv.unread (e : Event) (h : ∀ j x, History.next j x e = x) : Inv cs ps (log ++ [e]) debt := by
  have hsilent : ∀ j, Silent History.next j [e] := by
    intro j e' he'
    rw [List.mem_singleton.mp he']
    exact h j
  refine ⟨fun j => ?_, hi.honest.append fun j => (hsilent j).along (hi.honest.now j)⟩
  have hview : history (log ++ [e]) j = history log j := (view_append ..).trans ((hsilent j).foldl _)
  rw [hview]
  exact hi.fits j

end

variable {w : World} {p : TcpProxy}

/-! ## Messages to the enclave -/

namespace TcpProxy

@[simp] theorem send_connections (m : Bytes) : (p.send_to_enclave w m).connections = p.connections := by
  rw [send_to_enclave]
  split
  · rfl
  · split <;> rfl

@[simp] theorem send_pending (m : Bytes) : (p.send_to_enclave w m).pending_connects = p.pending_connects := by
  rw [send_to_enclave]
  split
  · rfl
  · split <;> rfl

end TcpProxy

theorem Inv.told {debt : ConnId → Debt} {m : Bytes} (hi : Inv p.connections p.pending_connects (p.log ++ [.told m]) debt) :
    (p.send_to_enclave w m).InvD debt := by
  rw [TcpProxy.InvD, TcpProxy.send_connections, TcpProxy.send_pending, TcpProxy.send_to_enclave]
  split
  · exact hi.unread _ fun _ _ => rfl
  split <;> exact hi

theorem about_told (msg_type : ChannelMsgType) (j : ConnId) {payload : Bytes}
    (hlen : payload.length ≤ MAX_CHANNEL_PAYLOAD) :
    (Event.told (encode_channel_msg msg_type j payload)).about = some j := by
  rw [Event.about, decode_encode, if_neg (by omega), Option.map_some]

theorem next_told (msg_type : ChannelMsgType) (j : ConnId) {payload : Bytes}
    (hlen : payload.length ≤ MAX_CHANNEL_PAYLOAD) (h : History) :
    h.next j (.told (encode_channel_msg msg_type j payload)) = h.tell payload msg_type := by
  rw [History.next, decode_encode, if_neg (by omega)]
  exact if_pos rfl

variable {h : History}

theorem Fits.live_or_gone {debt : Debt}
    (hf : Fits debt h conn pending) : h.dropped = none ∨ (conn = none ∧ pending = none ∧ Gone debt.owed h) := by
  match conn, pending, hf with
  | some conn, none, hf =>
    rw [Fits] at hf
    split at hf <;> exact .inl hf.live
  | none, some pending, hf => exact .inl hf.live
  | none, none, hf => exact .inr ⟨rfl, rfl, hf⟩

theorem Gone.told_close (hg : Gone [] h) : Gone [] { h with told_close := true } :=
  ⟨hg.dead, hg.settled, hg.payable, fun hne => absurd rfl hne⟩

theorem Gone.settled_now (hg : Gone [] h) : h.Settled := by
  have := hg.settled
  rwa [List.append_nil] at this

theorem History.Honest.told_close (hh : h.Honest) (hs : h.Settled) : History.Honest { h with told_close := true } :=
  ⟨hh.conserved, hh.drained, hh.increasing, hh.bounded, fun _ => hs⟩

/-- A message to the enclave other than a credit. -/
def Plain (m : Bytes) : Prop :=
  ∃ msg_type j payload, m = encode_channel_msg msg_type j payload ∧ msg_type ≠ .TcpWriteCredit

theorem Inv.send {debt : ConnId → Debt} (hi : p.InvD debt) {m : Bytes} (hm : Plain m)
    (howed : ∀ j, (debt j).owed = []) : (p.send_to_enclave w m).InvD debt := by
  obtain ⟨msg_type, j, payload, rfl, htype⟩ := hm
  apply Inv.told
  by_cases hlen : payload.length ≤ MAX_CHANNEL_PAYLOAD
  · have hh := hi.honest.now j
    have hf := hi.fits j
    have hnext : Fits (debt j) ((history p.log j).tell payload msg_type) (p.connections.lookup j)
        (p.pending_connects.lookup j) ∧ ((history p.log j).tell payload msg_type).Honest := by
      cases msg_type with
      | TcpWriteCredit => exact absurd rfl htype
      | TcpClose =>
        rcases hf.live_or_gone with hlive | ⟨hc, hq, hg⟩
        · rw [History.tell, hlive]
          exact ⟨hf, hh⟩
        · rw [howed j] at hg
          rw [History.tell, if_pos hg.dead, hc, hq, Fits, howed j]
          exact ⟨hg.told_close, hh.told_close hg.settled_now⟩
      | _ => exact ⟨hf, hh⟩
    refine hi.event (about_told msg_type j hlen) (next_told msg_type j hlen _) (fun _ _ => rfl) (fun _ _ => rfl)
      (fun _ _ => rfl) rfl rfl hnext.1 hnext.2
  · refine hi.unread _ fun i x => ?_
    rw [History.next, decode_encode, if_pos (by omega)]

theorem plain_tick : Plain (encode_channel_msg .Tick 0 []) := ⟨_, _, _, rfl, by decide⟩
theorem plain_new (j : ConnId) (addr : Bytes) : Plain (encode_tcp_new j addr) := ⟨_, _, _, rfl, by decide⟩
theorem plain_local (j : ConnId) : Plain (encode_local_control_new j) := ⟨_, _, _, rfl, by decide⟩
theorem plain_data (j : ConnId) (data : Bytes) : Plain (encode_tcp_data j data) := ⟨_, _, _, rfl, by decide⟩
theorem plain_close (j : ConnId) : Plain (encode_tcp_close j) := ⟨_, _, _, rfl, by decide⟩
theorem plain_connected (id : UInt64) (j : ConnId) : Plain (encode_tcp_connected id j) := ⟨_, _, _, rfl, by decide⟩
theorem plain_peer_connected (j : ConnId) : Plain (encode_peer_tcp_connected j) := ⟨_, _, _, rfl, by decide⟩
theorem plain_identity (j : ConnId) (n : Nat) : Plain (encode_tcp_read_identity j n) := ⟨_, _, _, rfl, by decide⟩
theorem plain_failed (id : UInt64) (reason : TcpConnectFailure) : Plain (encode_tcp_connect_failed id reason) :=
  ⟨_, _, _, rfl, by decide⟩

theorem le_getLastD_of_pairwise {l : List Nat} (hl : l.Pairwise (· < ·)) : ∀ r ∈ l, r ≤ l.getLastD 0 := by
  induction l using List.reverseRecOn with
  | nil => simp
  | append_singleton l a ih =>
    intro r hr
    rw [List.getLastD_concat]
    rcases List.mem_append.mp hr with hr | hr
    · exact le_of_lt ((List.pairwise_append.mp hl).2.2 r hr a (List.mem_singleton_self a))
    · exact le_of_eq (List.mem_singleton.mp hr)

theorem Counted.payable {owed : List Nat} {credit : Option WrittenCredit} (hc : Counted owed h credit) :
    Payable owed h := by
  rcases credit with _ | c
  · obtain ⟨-, hr, ho⟩ := hc
    rw [Payable, hr, ho]
    simp
  obtain ⟨⟨b, hb, htotal⟩, hlt, hchain, hlast, hle⟩ := hc
  refine ⟨hchain, fun r hr => ?_⟩
  have := le_getLastD_of_pairwise hchain r (List.mem_append_right _ hr)
  exact ⟨by omega, b, hb, by omega⟩

theorem Leaves.payable {owed : List Nat} (hl : Leaves owed h) (hh : h.Honest) : Payable owed h := by
  rcases hl.reason with ⟨-, -, ho⟩ | ⟨-, ho⟩ | ⟨-, credit, hc, -⟩
  case inr.inr => exact hc.payable
  all_goals
    rw [ho, Payable, List.append_nil]
    exact ⟨hh.increasing, by simp⟩

theorem Fits.payable {debt : Debt} (hf : Fits debt h conn pending) (hh : h.Honest) : Payable debt.owed h := by
  match conn, pending, hf with
  | some conn, none, hf =>
    rw [Fits] at hf
    split at hf
    · exact hf.payable hh
    · exact hf.counted.payable
  | none, some pending, hf => exact hf.counted.payable
  | none, none, hf => exact Gone.payable hf

section Report

variable {t : Nat} {more : List Nat} {h : History}

def History.report (h : History) (t : Nat) : History := { h with reports := h.reports ++ [t] }

theorem report_append (h : History) (t : Nat) (more : List Nat) :
    (h.report t).reports ++ more = h.reports ++ t :: more := by
  rw [History.report, List.append_assoc, List.singleton_append]

theorem Payable.report (hp : Payable (t :: more) h) : Payable more (h.report t) := by
  refine ⟨?_, fun r hr => hp.2 r (.tail _ hr)⟩
  rw [report_append]
  exact hp.1

theorem Counted.report {credit : Option WrittenCredit} (hc : Counted (t :: more) h credit) :
    Counted more (h.report t) credit := by
  rcases credit with _ | c
  · exact absurd hc.2.2 (List.cons_ne_nil _ _)
  · rw [Counted, report_append]
    exact hc

theorem Leaves.report (hl : Leaves (t :: more) h) : Leaves more (h.report t) := by
  refine ⟨hl.live, hl.closed, ?_⟩
  rcases hl.reason with ⟨-, -, ho⟩ | ⟨-, ho⟩ | ⟨heq, credit, hc, hlast⟩
  · exact absurd ho (List.cons_ne_nil _ _)
  · exact absurd ho (List.cons_ne_nil _ _)
  · exact .inr (.inr ⟨heq, credit, hc.report, hlast⟩)

theorem Gone.report (hg : Gone (t :: more) h) : Gone more (h.report t) := by
  refine ⟨hg.dead, ?_, hg.payable.report, fun _ => hg.quiet (List.cons_ne_nil _ _)⟩
  rw [report_append]
  exact hg.settled

theorem Fits.report {debt : Debt} {conn : Option ConnState} {pending : Option PendingConn}
    (hf : Fits debt h conn pending) (howed : debt.owed = t :: more) :
    Fits { debt with owed := more } (h.report t) conn pending := by
  match conn, pending, hf with
  | some conn, none, hf =>
    rw [Fits, howed] at hf
    rw [Fits]
    split at hf
    · rename_i hleave
      rw [if_pos hleave]
      exact hf.report
    · rename_i hstay
      rw [if_neg hstay]
      exact ⟨hf.live, hf.phase, hf.offset, hf.bytes, hf.closed, hf.counted.report⟩
  | none, some pending, hf =>
    rw [Fits, howed] at hf
    exact ⟨hf.live, hf.phase, hf.bytes, hf.written, hf.closed, hf.counted.report⟩
  | none, none, hf =>
    rw [Fits, howed] at hf
    exact hf.report

theorem History.Honest.report (hh : h.Honest) (hp : Payable (t :: more) h)
    (hnews : h.told_close = true → (h.report t).Settled) : (h.report t).Honest := by
  obtain ⟨-, b, hb, hle⟩ := hp.2 t (.head _)
  refine ⟨hh.conserved, hh.drained, ?_, fun r hr => ?_, hnews⟩
  · exact (List.pairwise_append.mp hp.report.1).1
  rcases List.mem_append.mp hr with hr | hr
  · exact hh.bounded r hr
  · rw [List.mem_singleton.mp hr]
    exact ⟨b, hb, hle⟩

end Report

variable {h : History} {debt debt' : ConnId → Debt} {j : ConnId} {path : Path} {conn : ConnState}

theorem settled_of_live (hlive : h.dropped = none) : h.Settled := by
  rintro ⟨-, hd | hd, -⟩ <;> simp [hlive] at hd

theorem Inv.report (hi : p.InvD debt) {t : Nat} {more : List Nat}
    (howed : (debt j).owed = t :: more) (hj : debt' j = { debt j with owed := more }) (hdebt : ∀ i, i ≠ j → debt' i = debt i) :
    (p.send_to_enclave w (encode_tcp_write_credit j t)).InvD debt' := by
  apply Inv.told
  have hp := (hi.fits j).payable (hi.honest.now j)
  rw [howed] at hp
  have hlen : (le 8 t).length ≤ MAX_CHANNEL_PAYLOAD := by
    rw [length_le, MAX_CHANNEL_PAYLOAD]
    omega
  have hnext : (history p.log j).next j (.told (encode_tcp_write_credit j t)) = (history p.log j).report t := by
    rw [encode_tcp_write_credit, next_told _ _ hlen, History.tell, decode_write_credit (hp.2 t List.mem_cons_self).1]
    rfl
  refine hi.event (about_told _ j hlen) hnext (fun _ _ => rfl) (fun _ _ => rfl) hdebt rfl rfl ?_ ?_
  · rw [hj]
    exact (hi.fits j).report howed
  refine (hi.honest.now j).report hp fun htold => ?_
  rcases (hi.fits j).live_or_gone with hlive | ⟨-, -, hg⟩
  · exact settled_of_live hlive
  · rw [hg.quiet (by rw [howed]; exact List.cons_ne_nil _ _)] at htold
    cases htold

/-! ## Dropped connections -/

theorem History.Honest.drop (hh : h.Honest)
    (hwrites : path.writes = true → ∀ n, h.closed = some n → n ≤ h.written.length ∨ (h.drop path).Failed) :
    (h.drop path).Honest := by
  refine ⟨hh.conserved, fun path' n hpath hw hn => ?_, hh.increasing, hh.bounded, fun htold => ?_⟩
  · obtain rfl : path = path' := Option.some.inj hpath
    exact hwrites hw n hn
  · cases htold

theorem gone_of_dropped (hh : h.Honest) (hsettled : (h.drop path).Settled) : Gone [] (h.drop path) := by
  refine ⟨rfl, ?_, ⟨?_, by simp⟩, fun _ => rfl⟩ <;> rw [List.append_nil]
  · exact hsettled
  · exact hh.increasing

theorem settled_of_path (h1 : path ≠ .flush_socket_writes)
    (h2 : path ≠ .close_from_enclave) : (h.drop path).Settled := by
  rintro ⟨-, hd | hd, -⟩
  · exact absurd (Option.some.inj hd) h1
  · exact absurd (Option.some.inj hd) h2

theorem History.Honest.abandoned (hh : h.Honest) (hpath : path.writes = false) :
    (h.drop path).Honest ∧ Gone [] (h.drop path) := by
  refine ⟨hh.drop fun hw => ?_, gone_of_dropped hh (settled_of_path ?_ ?_)⟩
  · rw [hpath] at hw
    cases hw
  all_goals
    rintro rfl
    cases hpath

theorem next_dropped (j : ConnId) (path : Path) (h : History) : h.next j (.dropped j path) = h.drop path := if_pos rfl

section

variable (hi : p.InvD debt)

include hi

theorem Inv.only_connection
    (hconn : p.connections.lookup j = some conn) : p.pending_connects.lookup j = none := by
  have hf := hi.fits j
  rcases hq : p.pending_connects.lookup j with _ | q
  · rfl
  · rw [hconn, hq] at hf
    exact hf.elim

theorem Inv.only_pending {q : PendingConn}
    (hq : p.pending_connects.lookup j = some q) : p.connections.lookup j = none := by
  have hf := hi.fits j
  rcases hc : p.connections.lookup j with _ | c
  · rfl
  · rw [hc, hq] at hf
    exact hf.elim

theorem Inv.tracks (hnone : debt j = {}) (hconn : p.connections.lookup j = some conn) :
    Tracks conn [] [] (history p.log j) := by
  have hf := hi.fits j
  rw [hconn, hi.only_connection hconn, hnone] at hf
  exact hf

theorem Inv.remove (hconn : p.connections.lookup j = some conn) (path : Path)
    (hhonest : ((history p.log j).drop path).Honest) (hgone : Gone (debt' j).owed ((history p.log j).drop path))
    (hdebt : ∀ i, i ≠ j → debt' i = debt i) : (p.remove j path).InvD debt' := by
  rw [TcpProxy.remove, if_pos (by rw [hconn]; rfl)]
  exact Inv.event hi rfl (next_dropped j path _) (fun i hij => AList.lookup_erase_ne hij) (fun _ _ => rfl) hdebt
    (AList.lookup_erase _ _) (hi.only_connection hconn) hgone hhonest

theorem Inv.remove_pending {q : PendingConn} (hq : p.pending_connects.lookup j = some q) (path : Path)
    (hhonest : ((history p.log j).drop path).Honest) (hgone : Gone (debt' j).owed ((history p.log j).drop path))
    (hdebt : ∀ i, i ≠ j → debt' i = debt i) : (p.remove_pending j path).InvD debt' := by
  rw [TcpProxy.remove_pending, if_pos (by rw [hq]; rfl)]
  exact Inv.event hi rfl (next_dropped j path _) (fun _ _ => rfl) (fun i hij => AList.lookup_erase_ne hij) hdebt
    (hi.only_pending hq) (AList.lookup_erase _ _) hgone hhonest

theorem Inv.abandon (hconn : p.connections.lookup j = some conn) (hpath : path.writes = false)
    (howed : (debt' j).owed = []) (hdebt : ∀ i, i ≠ j → debt' i = debt i) : (p.remove j path).InvD debt' := by
  obtain ⟨hhonest, hgone⟩ := (hi.honest.now j).abandoned hpath
  exact hi.remove hconn path hhonest (by rwa [howed]) hdebt

theorem Inv.insert
    (hconn : (p.connections.lookup j).isSome = true) (hfits : Fits (debt' j) (history p.log j) (some conn) none)
    (hdebt : ∀ i, i ≠ j → debt' i = debt i) : (p.insert j conn).InvD debt' := by
  obtain ⟨old, hold⟩ := Option.isSome_iff_exists.mp hconn
  refine Inv.set hi j ?_ (fun _ _ => rfl) hdebt ?_
  · exact fun i hij => AList.lookup_insert_ne hij
  show Fits _ _ ((p.connections.insert j conn).lookup j) (p.pending_connects.lookup j)
  rw [AList.lookup_insert, hi.only_connection hold]
  exact hfits

end

end EnclaveOs.Host.Proxy
