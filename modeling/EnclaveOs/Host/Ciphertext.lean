import EnclaveOs.Host.ConnIds
import EnclaveOs.Host.Histories

/-! # What the proxy does with the ciphertext of a connection -/

open List (append_assoc append_nil foldl_cons length_append)

open AList (lookup_erase lookup_insert lookup_insert_ne)

namespace EnclaveOs.Host.Proxy

open Lib Channel
open History (hear next)
open TcpProxy (close_one contains on_message remove remove_pending replay run scan send_pending)

variable {w : World} {p : TcpProxy} {h : History} {j : ConnId}

theorem paid_owed (i : ConnId) : (paid i).owed = [] := rfl

theorem owes_owed (j : ConnId) (rest : Bytes) (i : ConnId) : (owes j rest i).owed = [] := by
  rw [owes]
  split <;> rfl

/-! ## Messages from the enclave -/

theorem next_message (hlive : h.dropped = none) (msg_type : ChannelMsgType) (payload : Bytes) :
    h.next j (.message msg_type j payload) = h.hear payload msg_type := if_pos ⟨rfl, hlive⟩

theorem next_message_of_dead (hdead : h.dropped.isSome = true) (msg_type : ChannelMsgType) (payload : Bytes) :
    h.next j (.message msg_type j payload) = h := by
  refine if_neg fun hc => ?_
  rw [hc.2] at hdead
  cases hdead

theorem honest_of_live (hlive : h.dropped = none) (hconserved : h.written <+: h.heard)
    (hincreasing : h.reports.Pairwise (· < ·))
    (hbounded : ∀ r ∈ h.reports, ∃ b, h.credit_from = some b ∧ b + r ≤ h.written.length) : h.Honest := by
  refine ⟨hconserved, fun path n hpath => ?_, hincreasing, hbounded, fun _ => settled_of_live hlive⟩
  rw [hlive] at hpath
  cases hpath

theorem Inv.heard (hi : p.InvD paid) {msg_type : ChannelMsgType} {payload rest : Bytes}
    (htracks : ∀ conn h, Tracks conn [] [] h → Tracks conn rest [] (h.hear payload msg_type))
    (hwaits : ∀ pending h, Waits pending [] [] h → Waits pending rest [] (h.hear payload msg_type))
    (hhonest : ∀ h : History, h.dropped = none → h.Honest → (h.hear payload msg_type).Honest) (j : ConnId) :
    (p.emit (.message msg_type j payload)).InvD (owes j rest) := by
  have hf := hi.fits j
  have hh := hi.honest.now j
  refine hi.event rfl rfl (fun _ _ => rfl) (fun _ _ => rfl) (fun i hij => owes_of_ne hij rest) rfl rfl ?_ ?_
  · rw [owes_self]
    match hc : p.connections.lookup j, hq : p.pending_connects.lookup j with
    | some conn, none =>
      rw [hc, hq] at hf
      rw [next_message hf.live]
      exact htracks conn _ hf
    | none, some pending =>
      rw [hc, hq] at hf
      rw [next_message hf.live]
      exact hwaits pending _ hf
    | none, none =>
      rw [hc, hq] at hf
      rw [next_message_of_dead hf.dead]
      exact hf
    | some conn, some pending =>
      rw [hc, hq] at hf
      exact hf.elim
  · rcases hf.live_or_gone with hlive | ⟨-, -, hg⟩
    · rw [next_message hlive]
      exact hhonest _ hlive hh
    · rw [next_message_of_dead hg.dead]
      exact hh

theorem Inv.data (hi : p.InvD paid) (j : ConnId) (payload : Bytes) :
    (p.emit (.message .TcpData j payload)).InvD (owes j payload) := by
  refine hi.heard (fun conn h ht => ?_) (fun pending h hw => ?_) (fun h hlive hh => ?_) j
  · have hphase := ht.phase
    have hbytes := ht.bytes
    have hclosed := ht.closed
    split at hphase
    · rename_i hcon
      rw [if_pos hcon] at hbytes
      rw [hear, if_pos hphase]
      exact ⟨ht.live, by rw [if_pos hcon]; exact hphase, ht.offset, by rw [if_pos hcon]; exact hbytes, ht.closed,
        ht.counted⟩
    · rename_i hcon
      rw [if_neg hcon, append_nil] at hbytes
      rw [hear, if_neg (by rw [hphase]; decide)]
      refine ⟨ht.live, by rw [if_neg hcon]; exact hphase, ht.offset, ?_, fun n hn => ?_, ht.counted⟩
      · rw [if_neg hcon, ← hbytes]
      · rw [length_append]
        exact (hclosed n hn).trans (Nat.le_add_right _ _)
  · have hbytes := hw.bytes
    rw [append_nil] at hbytes
    rw [hear, if_neg (by rw [hw.phase]; decide)]
    refine ⟨hw.live, hw.phase, by rw [← hbytes], hw.written, fun n hn => ?_, hw.counted⟩
    rw [length_append]
    exact (hw.closed n hn).trans (Nat.le_add_right _ _)
  · refine honest_of_live hlive ?_ hh.increasing hh.bounded
    rw [hear]
    split
    · exact hh.conserved
    · exact hh.conserved.trans (List.prefix_append _ _)

theorem closed_le {h : History} (hclosed : ∀ n, h.closed = some n → n ≤ h.heard.length) :
    ∀ n, some (h.closed.getD h.heard.length) = some n → n ≤ h.heard.length := by
  intro n hn
  obtain rfl := Option.some.inj hn
  rcases hc : h.closed with _ | m
  · exact le_refl _
  · exact hclosed m hc

theorem Inv.close (hi : p.InvD paid) (j : ConnId) (payload : Bytes) :
    (p.emit (.message .TcpClose j payload)).InvD paid := by
  rw [← owes_nil j]
  refine hi.heard (fun conn h ht => ?_) (fun pending h hw => ?_) (fun h hlive hh => ?_) j
  · exact ⟨ht.live, ht.phase, ht.offset, ht.bytes, closed_le ht.closed, ht.counted⟩
  · exact ⟨hw.live, hw.phase, hw.bytes, hw.written, closed_le hw.closed, hw.counted⟩
  · exact honest_of_live hlive hh.conserved hh.increasing hh.bounded

theorem Inv.ignore (hi : p.InvD paid) {msg_type : ChannelMsgType} {payload : Bytes}
    (hnone : ∀ h : History, h.hear payload msg_type = h) (j : ConnId) :
    (p.emit (.message msg_type j payload)).InvD paid := by
  refine hi.unread _ fun i x => ?_
  rw [next]
  split
  · exact hnone x
  · rfl

theorem write_to_socket_spec {data rest : Bytes} (hi : p.InvD (owes j (data ++ rest))) :
    (p.write_to_socket w j data).InvD (owes j rest) := by
  have hf := hi.fits j
  have hh := hi.honest.now j
  have hdebt : ∀ i, i ≠ j → owes j rest i = owes j (data ++ rest) i := by
    intro i hij
    rw [owes_of_ne hij, owes_of_ne hij]
  rw [TcpProxy.write_to_socket]
  rw [owes_self] at hf
  split
  · rename_i pending hq
    rw [hi.only_pending hq, hq] at hf
    split
    · refine Inv.send ?_ (plain_close j) (owes_owed j rest)
      refine hi.remove_pending hq _ (hh.drop fun _ n _ => .inr (.inl hf.phase)) ?_ hdebt
      rw [owes_self]
      exact gone_of_dropped hh (settled_of_path (by decide) (by decide))
    · refine hi.set j (fun _ _ => rfl) (fun i hij => lookup_insert_ne hij) hdebt ?_
      rw [hi.only_pending hq, lookup_insert, owes_self]
      refine ⟨hf.live, hf.phase, ?_, hf.written, hf.closed, hf.counted⟩
      rw [hf.bytes, List.flatten_concat, append_assoc]
  · rename_i hq
    rw [hq] at hf
    split
    · rename_i hc
      rw [hc] at hf
      refine hi.set j (fun _ _ => rfl) (fun _ _ => rfl) hdebt ?_
      rw [hc, hq, owes_self]
      exact hf
    rename_i conn hc
    rw [hc] at hf
    have hbytes := hf.bytes
    split
    · rename_i hcon
      refine hi.set j (fun _ _ => rfl) (fun _ _ => rfl) hdebt ?_
      rw [hc, hq, owes_self]
      refine ⟨hf.live, hf.phase, hf.offset, ?_, hf.closed, hf.counted⟩
      rw [if_pos hcon] at hbytes ⊢
      exact hbytes
    rename_i hcon
    rw [if_neg hcon] at hbytes
    split
    · rename_i hcap
      refine Inv.send ?_ (plain_close j) (owes_owed j rest)
      refine hi.remove hc _ (hh.drop fun _ n _ => .inr (.inr (.inr (.inr ⟨rfl, ?_⟩)))) ?_ hdebt
      · show (history p.log j).written.length + _ < (history p.log j).heard.length
        rw [hbytes]
        simp only [length_append, List.length_drop]
        omega
      · rw [owes_self]
        exact gone_of_dropped hh (settled_of_path (by decide) (by decide))
    · refine hi.insert (by rw [hc]; rfl) ?_ hdebt
      rw [owes_self]
      refine ⟨hf.live, hf.phase, Nat.zero_le _, ?_, hf.closed, hf.counted⟩
      rw [if_neg hcon, hbytes, List.drop_zero]
      simp only [append_assoc]

variable {c : WrittenCredit} {n : Nat} {closing : Bool} {report : Option Nat} {owed : List Nat}
  {credit : Option WrittenCredit}

theorem not_lt_of_record_none (hr : c.record n closing = none) : ¬ c.total + n < 2 ^ 64 := by
  rw [WrittenCredit.record] at hr
  split at hr
  · rename_i hge
    exact Nat.not_lt.mpr hge
  · split at hr <;> cases hr

theorem Counted.record {c' : WrittenCredit}
    (hc : Counted [] h (some c)) (h' : History) (hr : c.record n closing = some (c', report))
    (hwritten : h'.written.length = h.written.length + n) (hfrom : h'.credit_from = h.credit_from)
    (hreports : h'.reports = h.reports) :
    Counted report.toList h' (some c') ∧ (closing = true → c'.reported = c'.total) := by
  obtain ⟨⟨b, hb, htotal⟩, hlt, hchain, hlast, hle⟩ := hc
  rw [append_nil] at hchain hlast
  rw [WrittenCredit.record] at hr
  split at hr
  · cases hr
  rename_i hover
  split at hr
  · rename_i hdue
    obtain ⟨rfl, rfl⟩ := Prod.mk.inj (Option.some.inj hr)
    simp only [Bool.or_eq_true, decide_eq_true_eq, Bool.and_eq_true, bne_iff_ne] at hdue
    rw [WRITE_CREDIT_QUANTUM] at hdue
    refine ⟨⟨⟨b, by rw [hfrom, hb], by simp only; omega⟩, Nat.lt_of_not_le hover, ?_, ?_, le_refl _⟩, fun _ => rfl⟩
    · rw [hreports, Option.toList_some, List.pairwise_append]
      refine ⟨hchain, List.pairwise_singleton _ _, fun r hr' t ht => ?_⟩
      rw [List.mem_singleton.mp ht]
      have := le_getLastD_of_pairwise hchain r hr'
      omega
    · rw [Option.toList_some, List.getLastD_concat]
  · rename_i hnot
    obtain ⟨rfl, rfl⟩ := Prod.mk.inj (Option.some.inj hr)
    refine ⟨⟨⟨b, by rw [hfrom, hb], by simp only; omega⟩, Nat.lt_of_not_le hover, by simpa [hreports] using hchain,
      by rw [hreports, Option.toList_none, append_nil, hlast], hle.trans (Nat.le_add_right _ _)⟩, fun hclosing => ?_⟩
    simp only [hclosing, Bool.or_eq_true, decide_eq_true_eq, Bool.true_and, bne_iff_ne, not_or, not_not] at hnot
    exact hnot.2.symm

theorem Counted.settles (hc : Counted owed h credit) (hall : ∀ c, credit = some c → c.reported = c.total) :
    History.Settled { h with reports := h.reports ++ owed } := by
  intro _ _ b hb
  rcases credit with _ | c
  · have hnone : h.credit_from = none := hc.1
    rw [show h.credit_from = some b from hb] at hnone
    cases hnone
  obtain ⟨⟨b', hb', htotal⟩, -, -, hlast, -⟩ := hc
  have heq : b = b' := Option.some.inj ((show h.credit_from = some b from hb).symm.trans hb')
  show b + (h.reports ++ owed).getLastD 0 = h.written.length
  rw [hlast, hall c rfl, heq, htotal]

theorem Counted.drop (hc : Counted owed h credit) (path : Path) : Counted owed (h.drop path) credit := by
  rcases credit with _ | c <;> exact hc

theorem Counted.gone {path : Path} (hc : Counted owed h credit)
    (hall : ∀ c, credit = some c → c.reported = c.total) : Gone owed (h.drop path) :=
  ⟨rfl, (hc.drop path).settles hall, (hc.drop path).payable, fun _ => rfl⟩

/-! ## `close_from_enclave` -/

def due (j : ConnId) (owed : List Nat) : ConnId → Debt := fun i => if i = j then { owed } else {}

theorem due_nil (j : ConnId) : due j [] = paid := by
  funext i
  rw [due, paid, ite_self]

theorem due_of_ne {i : ConnId} (hij : i ≠ j) (owed : List Nat) : due j owed i = {} := if_neg hij

@[simp] theorem due_self (owed : List Nat) : due j owed j = { owed } := if_pos rfl

theorem report_spec (hi : p.InvD (due j report.toList)) : (match report with
      | some total => p.send_to_enclave w (encode_tcp_write_credit j total)
      | none => p).InvD paid := by
  rcases report with _ | total
  · rw [Option.toList_none, due_nil] at hi
    exact hi
  rw [← due_nil j]
  refine hi.report (by rw [due_self]; rfl) ?_ fun i hij => ?_
  · rw [due_self, due_self]
  · rw [due_of_ne hij, due_of_ne hij]

theorem close_connected {conn : ConnState} (hi : p.InvD paid) (hc : p.connections.lookup j = some conn)
    (ht : Tracks conn [] [] (history p.log j)) (hfull : conn.write_offset = conn.write_buffer.length)
    (hcounted : Counted owed (history p.log j) credit) (hall : ∀ c, credit = some c → c.reported = c.total) :
    (p.remove j .close_from_enclave).InvD (due j owed) := by
  refine hi.remove hc _ ((hi.honest.now j).drop fun _ n hn => .inl ?_) ?_ fun i hij => due_of_ne hij owed
  · have hbytes := ht.bytes
    rw [hfull, List.drop_length, ite_self, append_nil, append_nil] at hbytes
    rw [← hbytes]
    exact ht.closed n hn
  · rw [due_self]
    exact hcounted.gone hall

theorem close_from_enclave_spec (hi : p.InvD paid) : (p.close_from_enclave w j).InvD paid := by
  have hf := hi.fits j
  have hh := hi.honest.now j
  rw [TcpProxy.close_from_enclave]
  rcases hq : p.pending_connects.lookup j with _ | pending
  · have hsame : p.remove_pending j .close_from_enclave = p := by
      rw [remove_pending, if_neg (by rw [hq]; exact Bool.false_ne_true)]
    rw [hsame]
    rcases hc : p.connections.lookup j with _ | conn
    · exact hi
    have ht := hi.tracks rfl hc
    simp only
    split
    · rename_i hfull
      have hcounted := ht.counted
      rcases hcredit : conn.write_credit with _ | credit
      · rw [hcredit] at hcounted
        have := close_connected hi hc ht hfull hcounted fun c hc => by cases hc
        rwa [due_nil] at this
      rw [hcredit] at hcounted
      simp only
      refine Inv.send ?_ (plain_close j) paid_owed
      rcases hr : credit.record 0 true with _ | out
      · exact absurd hcounted.2.1 (not_lt_of_record_none hr)
      obtain ⟨credit', report⟩ := out
      obtain ⟨hcounted', hall⟩ := hcounted.record (history p.log j) hr rfl rfl rfl
      have := close_connected hi hc ht hfull hcounted' fun c hc => by
        rw [← Option.some.inj hc]
        exact hall rfl
      have := report_spec (w := w) this
      rcases report with _ | total <;> exact this
    · refine hi.insert (by rw [hc]; rfl) ?_ fun _ _ => rfl
      exact ⟨ht.live, ht.phase, ht.offset, ht.bytes, ht.closed, ht.counted⟩
  · rw [hi.only_pending hq, hq] at hf
    have hnone : (p.remove_pending j .close_from_enclave).connections.lookup j = none := by
      rw [remove_pending, if_pos (by rw [hq]; rfl)]
      exact hi.only_pending hq
    rw [hnone]
    refine hi.remove_pending hq _ (hh.drop fun _ n _ => .inr (.inl hf.phase)) ?_ fun _ _ => rfl
    exact hf.counted.gone fun c hc => by cases hc

/-! ## The other messages -/

theorem hear_credit {conn : ConnState} (ht : Tracks conn [] [] h) (hh : h.Honest) (payload : Bytes) :
    (h.hear payload .TcpWriteCredit).Honest := by
  rw [hear]
  split
  · rename_i hnew
    have hcounted := ht.counted
    rcases hcredit : conn.write_credit with _ | c
    · rw [hcredit] at hcounted
      have hnone : h.reports = [] := hcounted.2.1
      refine honest_of_live ht.live hh.conserved hh.increasing fun r hr => ?_
      rw [show h.reports = [] from hnone] at hr
      cases hr
    · rw [hcredit] at hcounted
      obtain ⟨⟨b, hb, -⟩, -⟩ := hcounted
      rw [hnew.2.1] at hb
      cases hb
  · exact hh

theorem on_write_credit_spec (hi : p.InvD paid) (payload : Bytes) :
    ((p.emit (.message .TcpWriteCredit j payload)).on_write_credit w j payload).InvD paid := by
  have hf := hi.fits j
  have hh := hi.honest.now j
  rw [TcpProxy.on_write_credit, show (p.emit (.message .TcpWriteCredit j payload)).connections = p.connections from rfl]
  rcases hc : p.connections.lookup j with _ | conn
  · have hnext : (history p.log j).next j (.message .TcpWriteCredit j payload) = history p.log j := by
      rcases hf.live_or_gone with hlive | ⟨-, -, hg⟩
      · rw [next_message hlive]
        rcases hq : p.pending_connects.lookup j with _ | pending
        · rw [hc, hq] at hf
          have hdead := hf.dead
          rw [hlive] at hdead
          cases hdead
        · rw [hc, hq] at hf
          exact if_neg fun hnot => hnot.1 hf.phase
      · exact next_message_of_dead hg.dead _ _
    exact hi.event rfl hnext (fun _ _ => rfl) (fun _ _ => rfl) (fun _ _ => rfl) rfl rfl hf hh
  · have hq := hi.only_connection hc
    have ht := hi.tracks rfl hc
    have hnext := next_message (j := j) ht.live .TcpWriteCredit payload
    simp only
    split
    · rename_i hok
      simp only [Bool.and_eq_true, decide_eq_true_eq, Option.isNone_iff_eq_none] at hok
      obtain ⟨⟨hzero, hnone⟩, -⟩ := hok
      have hcounted := ht.counted
      rw [hnone] at hcounted
      have hphase : (history p.log j).phase ≠ .pending := by
        rw [ht.phase]
        split <;> decide
      refine hi.event rfl hnext (fun i hij => lookup_insert_ne hij) (fun _ _ => rfl) (fun _ _ => rfl)
        (lookup_insert _) hq ?_ (hear_credit ht hh payload)
      rw [hear, if_pos ⟨hphase, hcounted.1, hzero⟩]
      refine ⟨ht.live, ht.phase, ht.offset, ht.bytes, ht.closed, ⟨_, rfl, rfl⟩, by decide, ?_, ?_, le_refl _⟩
      · rw [hcounted.2.1]
        exact .nil
      · rw [hcounted.2.1]
        rfl
    · refine Inv.send ?_ (plain_close j) paid_owed
      have hgone : (p.emit (.message .TcpWriteCredit j payload)).remove j .drain_enclave_output =
          { p with
            connections := p.connections.erase j
            log := p.log ++ [.message .TcpWriteCredit j payload, .dropped j .drain_enclave_output] } := by
        rw [remove, if_pos (by show (p.connections.lookup j).isSome = true; rw [hc]; rfl)]
        exact congrArg _ (append_assoc ..)
      have hhear := hear_credit ht hh payload
      rw [hgone]
      refine hi.change j _ (by simp [Event.about]) (fun i hij => AList.lookup_erase_ne hij) (fun _ _ => rfl)
        (fun _ _ => rfl) ?_ ⟨by rw [hnext]; exact hhear, ?_, trivial⟩
      · rw [lookup_erase, hq, foldl_cons, foldl_cons, List.foldl_nil, hnext, next_dropped]
        exact gone_of_dropped hhear (settled_of_path (by decide) (by decide))
      · rw [hnext, next_dropped]
        exact hhear.drop fun hw => by cases hw

theorem on_read_control_spec (hi : p.InvD paid) (payload : Bytes) : (p.on_read_control w j payload).InvD paid := by
  rw [TcpProxy.on_read_control]
  split
  · exact hi
  rename_i conn hc
  have ht := hi.tracks rfl hc
  split
  · split
    · refine hi.insert (by rw [hc]; rfl) ?_ fun _ _ => rfl
      exact ⟨ht.live, ht.phase, ht.offset, ht.bytes, ht.closed, ht.counted⟩
    · exact hi
  · exact (hi.abandon hc rfl rfl fun _ _ => rfl).send (plain_close j) paid_owed

theorem inv_foldl {α : Type} {l : List α} {f : TcpProxy → α → TcpProxy} (hi : p.InvD paid)
    (hf : ∀ p a, p.InvD paid → a ∈ l → (f p a).InvD paid) : (l.foldl f p).InvD paid :=
  List.foldlRecOn l f hi fun p hp a ha => hf p a hp ha

theorem Inv.open (hi : p.InvD paid) (hfree : p.contains j = false) (origin : ConnectionOrigin)
    (generation : Nat) :
    ((p.insert j { origin, connection_generation := generation }).emit
      (.opened j (if origin.connecting.isSome then .connecting else .connected))).InvD paid := by
  have hq : p.pending_connects.lookup j = none := by
    rw [contains, Bool.or_eq_false_iff] at hfree
    simpa using hfree.2
  refine hi.event rfl (if_pos rfl) (fun i hij => lookup_insert_ne hij) (fun _ _ => rfl) (fun _ _ => rfl)
    (lookup_insert _) hq ?_ (honest_of_live rfl (List.prefix_refl _) .nil (by simp))
  exact ⟨rfl, rfl, le_refl _, by simp [paid], by simp, rfl, rfl, rfl⟩

/-- An id was looked for: only the counters moved, and an id that was found is free. -/
structure Allocated (p p' : TcpProxy) (id : Option ConnId) : Prop where
  connections : p'.connections = p.connections
  pending : p'.pending_connects = p.pending_connects
  log : p'.log = p.log
  free : ∀ j, id = some j → p'.contains j = false

theorem Allocated.inv {p p' : TcpProxy} {id : Option ConnId} (ha : Allocated p p' id) {debt : ConnId → Debt}
    (hi : p.InvD debt) : p'.InvD debt := by
  rw [TcpProxy.InvD, ha.connections, ha.pending, ha.log]
  exact hi

theorem allocate_conn_id_spec (tries : Nat) (p : TcpProxy) :
    Allocated p (p.allocate_conn_id tries).2 (p.allocate_conn_id tries).1 ∧
      Allocated p (p.allocate_peer_conn_id tries).2 (p.allocate_peer_conn_id tries).1 := by
  rw [allocate_conn_id_eq, allocate_peer_conn_id_eq]
  exact ⟨⟨rfl, rfl, rfl, fun _ hj => (free_of_probe hj).2⟩, rfl, rfl, rfl, fun _ hj => (free_of_probe hj).2⟩

theorem contains_send (m : Bytes) (j : ConnId) : (p.send_to_enclave w m).contains j = p.contains j := by
  rw [contains, contains, TcpProxy.send_connections, send_pending]

section

variable (hi : p.InvD paid)

include hi

theorem announce_spec (hfree : p.contains j = false) (socket : Incoming) (generation : Nat) :
    (p.announce w j socket generation).InvD paid := by
  have hnew := hi.send (w := w) (plain_new j socket.addr) paid_owed
  have hopen := hnew.open (by rw [contains_send]; exact hfree) .Inbound generation
  rw [TcpProxy.announce]
  split
  · exact hopen.send (plain_identity j generation) paid_owed
  · exact hopen

theorem register_spec (hfree : p.contains j = false) (socket : Incoming) : (p.register w j socket).InvD paid := by
  rw [TcpProxy.register]
  split
  · exact hi
  split
  · exact announce_spec hi hfree socket 0
  split
  · exact hi
  refine announce_spec (p := { p with next_read_generation := p.next_read_generation + 1 }) ?_ ?_ socket _
  · exact hi
  · exact hfree

theorem accept_one_spec (incoming : Incoming × Bool) : (p.accept_one w incoming).InvD paid := by
  rw [TcpProxy.accept_one]
  split
  · exact hi
  have ha : Allocated p
      (if incoming.2 then p.allocate_peer_conn_id (MAX_CONNS + 1) else p.allocate_conn_id (MAX_CONNS + 1)).2
      (if incoming.2 then p.allocate_peer_conn_id (MAX_CONNS + 1) else p.allocate_conn_id (MAX_CONNS + 1)).1 := by
    split
    · exact (allocate_conn_id_spec _ p).2
    · exact (allocate_conn_id_spec _ p).1
  split
  · rename_i p' heq
    rw [heq] at ha
    exact ha.inv hi
  · rename_i j p' heq
    rw [heq] at ha
    exact register_spec (ha.inv hi) (ha.free j rfl) incoming.1

theorem accept_local_one_spec (socket : Incoming) : (p.accept_local_one w socket).InvD paid := by
  rw [TcpProxy.accept_local_one]
  split
  · exact hi
  have ha := (allocate_conn_id_spec (MAX_CONNS + 1) p).1
  split
  · rename_i p' heq
    rw [heq] at ha
    exact ha.inv hi
  rename_i j p' heq
  rw [heq] at ha
  split
  · exact ha.inv hi
  · have hnew := (ha.inv hi).send (w := w) (plain_local j) paid_owed
    exact hnew.open (by rw [contains_send]; exact ha.free j rfl) .LocalControl 0

theorem accept_connections_spec : (p.accept_connections w).InvD paid :=
  inv_foldl hi fun _ incoming hp _ => accept_one_spec hp incoming

theorem accept_local_control_connections_spec : (p.accept_local_control_connections w).InvD paid :=
  inv_foldl hi fun _ socket hp _ => accept_local_one_spec hp socket

theorem start_outbound_connect_spec (j : ConnId) : (p.start_outbound_connect w j).InvD paid := by
  rw [TcpProxy.start_outbound_connect]
  split
  · exact hi.send (plain_close j) paid_owed
  rename_i hok
  simp only [Bool.or_eq_true, not_or, Bool.not_eq_true] at hok
  have hi' : p.tick.InvD paid := hi
  simp only
  split
  · exact hi'.send (plain_close j) paid_owed
  · have hc : p.connections.lookup j = none := by
      have hfree := hok.1.2
      rw [contains, Bool.or_eq_false_iff] at hfree
      simpa using hfree.1
    refine Inv.event hi' rfl (if_pos rfl) (fun _ _ => rfl) (fun i hij => lookup_insert_ne hij) (fun _ _ => rfl)
      hc (lookup_insert _) ?_ (honest_of_live rfl (List.prefix_refl _) .nil (by simp))
    exact ⟨rfl, rfl, rfl, rfl, by simp, rfl, rfl, rfl⟩

theorem begin_outbound_connection_spec (payload : Bytes) : (p.begin_outbound_connection w payload).InvD paid := by
  rw [TcpProxy.begin_outbound_connection]
  split
  · exact hi
  rename_i request_id endpoint hdecode
  split
  · exact hi.send (plain_failed _ _) paid_owed
  have ha := (allocate_conn_id_spec (MAX_CONNS + 1) p).1
  split
  · rename_i p' heq
    rw [heq] at ha
    exact (ha.inv hi).send (plain_failed _ _) paid_owed
  rename_i j p' heq
  rw [heq] at ha
  have hi' : p'.tick.InvD paid := ha.inv hi
  have hfree : p'.tick.contains j = false := ha.free j rfl
  split
  · exact (ha.inv hi).send (plain_failed _ _) paid_owed
  split
  · exact (ha.inv hi).send (plain_failed _ _) paid_owed
  simp only
  split
  · exact hi'.send (plain_failed _ _) paid_owed
  · exact hi'.open hfree (.OutboundConnecting request_id) 0
  · exact (hi'.open hfree .Outbound 0).send (plain_connected _ j) paid_owed

theorem on_message_spec (msg_type : ChannelMsgType) (j : ConnId) (payload : Bytes) :
    ((p.emit (.message msg_type j payload)).on_message w msg_type j payload).InvD paid := by
  cases msg_type with
  | TcpData =>
    have hdata := hi.data j payload
    rw [← append_nil payload] at hdata
    have := write_to_socket_spec (w := w) hdata
    rw [owes_nil] at this
    rwa [append_nil] at this
  | TcpClose => exact close_from_enclave_spec (hi.close j payload)
  | TcpWriteCredit => exact on_write_credit_spec hi payload
  | TcpReadControl => exact on_read_control_spec (hi.ignore (fun _ => rfl) j) payload
  | TcpConnect =>
    have hi' : (p.emit (.message .TcpConnect j payload)).InvD paid := hi.ignore (fun _ => rfl) j
    rw [on_message]
    split
    · exact hi'
    · exact begin_outbound_connection_spec hi' payload
  | PeerTcpConnect =>
    have hi' : (p.emit (.message .PeerTcpConnect j payload)).InvD paid := hi.ignore (fun _ => rfl) j
    rw [on_message]
    split
    · exact start_outbound_connect_spec hi' j
    · exact hi'.send (plain_close j) paid_owed
  | _ => exact hi.ignore (fun _ => rfl) j

theorem drain_enclave_output_spec (turns : Nat) : (p.drain_enclave_output w turns).InvD paid := by
  induction turns generalizing p with
  | zero => exact hi
  | succ turns ih =>
    have hi' : p.tick.InvD paid := hi
    rw [TcpProxy.drain_enclave_output]
    split
    · exact hi'
    split
    · exact ih hi'
    · exact ih (on_message_spec hi' _ _ _)

end

/-! ## `flush_socket_writes` -/

def flushed (credits : List (ConnId × Nat)) (to_close : List (ConnId × Bool)) : ConnId → Debt := fun i =>
  { owed := (credits.filter (·.1 = i)).map (·.2), leaving := i ∈ to_close.map (·.1) }

section Flushed

variable {credits : List (ConnId × Nat)} {to_close : List (ConnId × Bool)}

theorem flushed_credit (hj : (flushed credits to_close j).owed = []) (report : Option Nat) :
    flushed (credits ++ (report.map (j, ·)).toList) to_close j =
      { flushed credits to_close j with owed := report.toList } := by
  have howed : (credits.filter (·.1 = j)).map (·.2) = [] := hj
  rcases report with _ | t <;> simp [flushed, howed]

theorem flushed_credit_of_ne {i : ConnId} (hij : i ≠ j) (report : Option Nat) :
    flushed (credits ++ (report.map (j, ·)).toList) to_close i = flushed credits to_close i := by
  rcases report with _ | t
  · simp [flushed]
  · simp [flushed, hij.symm]

theorem flushed_close (b : Bool) :
    flushed credits (to_close ++ [(j, b)]) j = { flushed credits to_close j with leaving := true } := by
  simp [flushed]

theorem flushed_close_of_ne {i : ConnId} (hij : i ≠ j) (b : Bool) :
    flushed credits (to_close ++ [(j, b)]) i = flushed credits to_close i := by
  simp [flushed, hij]

end Flushed

variable {conn : ConnState} {s : Flush}

theorem Tracks.all (ht : Tracks conn [] owed h) :
    h.heard = h.written ++ conn.write_buffer.drop conn.write_offset := by
  have hbytes := ht.bytes
  rwa [ite_self, append_nil] at hbytes

theorem Inv.wrote {debt debt' : ConnId → Debt} {conn' : ConnState} {bytes : Bytes}
    {cs' : AList fun _ : ConnId => ConnState} (hi : p.InvD debt) (hc : p.connections.lookup j = some conn)
    (ht : Tracks conn [] [] (history p.log j)) (hbytes : bytes <+: conn.write_buffer.drop conn.write_offset)
    (hcs : ∀ i, i ≠ j → cs'.lookup i = p.connections.lookup i) (hc' : cs'.lookup j = some conn')
    (hfits : Fits (debt' j) ((history p.log j).write bytes) (some conn') none)
    (hdebt : ∀ i, i ≠ j → debt' i = debt i) : Inv cs' p.pending_connects (p.log ++ [.wrote j bytes]) debt' := by
  have hh : (history p.log j).Honest := hi.honest.now j
  refine hi.event rfl (if_pos rfl) hcs (fun _ _ => rfl) hdebt hc' (hi.only_connection hc) hfits ?_
  refine honest_of_live ht.live ?_ hh.increasing fun r hr => ?_
  · show (history p.log j).written ++ bytes <+: (history p.log j).heard
    rw [ht.all]
    exact (List.prefix_append_right_inj _).mpr hbytes
  · obtain ⟨b, hb, hle⟩ := hh.bounded r hr
    refine ⟨b, hb, ?_⟩
    show b + r ≤ ((history p.log j).written ++ bytes).length
    rw [length_append]
    omega

section

variable (hi : s.proxy.InvD (flushed s.credits s.to_close))

include hi

theorem refuse_spec
    (hc : s.proxy.connections.lookup j = some conn) (ht : Tracks conn [] [] (history s.proxy.log j))
    (hclear : flushed s.credits s.to_close j = {}) (hleft : conn.write_offset ≠ conn.write_buffer.length) :
    (s.refuse j).proxy.InvD (flushed (s.refuse j).credits (s.refuse j).to_close) := by
  have hh := hi.honest.now j
  refine hi.event rfl (if_pos rfl) (fun _ _ => rfl) (fun _ _ => rfl) (fun i hij => flushed_close_of_ne hij true) hc
    (hi.only_connection hc) ?_ (honest_of_live ht.live hh.conserved hh.increasing hh.bounded)
  show Fits (flushed s.credits (s.to_close ++ [(j, true)]) j) _ _ _
  rw [flushed_close, hclear]
  refine ⟨ht.live, ht.closed, .inl ⟨rfl, ?_, rfl⟩⟩
  show (history s.proxy.log j).written ≠ (history s.proxy.log j).heard
  rw [ht.all, ne_eq, List.self_eq_append_right, List.drop_eq_nil_iff]
  have := ht.offset
  omega

theorem advance_spec {bytes : Bytes} {credit : Option WrittenCredit} {report : Option Nat}
    (hc : s.proxy.connections.lookup j = some conn) (ht : Tracks conn [] [] (history s.proxy.log j))
    (hclear : flushed s.credits s.to_close j = {}) (hbytes : bytes <+: conn.write_buffer.drop conn.write_offset)
    (hcounted : Counted report.toList ((history s.proxy.log j).write bytes) credit)
    (hall : conn.close_after_write = true → conn.write_offset + bytes.length = conn.write_buffer.length →
      ∀ c, credit = some c → c.reported = c.total) {s' : Flush} (hs' : s' = Flush.advance
      { s with proxy := s.proxy.emit (.wrote j bytes), credits := s.credits ++ (report.map (j, ·)).toList } j
      { conn with write_credit := credit } bytes.length) :
    s'.proxy.InvD (flushed s'.credits s'.to_close) ∧
      ∀ i, i ≠ j → flushed s'.credits s'.to_close i = flushed s.credits s.to_close i := by
  have hheard := ht.all
  have hrest : bytes ++ conn.write_buffer.drop (conn.write_offset + bytes.length) =
      conn.write_buffer.drop conn.write_offset := by
    rw [← List.drop_drop]
    exact (List.prefix_iff_eq_append.mp hbytes)
  have hle : conn.write_offset + bytes.length ≤ conn.write_buffer.length := by
    have := hbytes.length_le
    have := ht.offset
    rw [List.length_drop] at *
    omega
  have howed : (flushed s.credits s.to_close j).owed = [] := by rw [hclear]
  have hdebt : ∀ i, i ≠ j → flushed (s.credits ++ (report.map (j, ·)).toList) s.to_close i =
      flushed s.credits s.to_close i := fun i hij => flushed_credit_of_ne hij report
  rw [Flush.advance] at hs'
  split at hs'
  · rename_i hfull
    have hdone : (history s.proxy.log j).heard = (history s.proxy.log j).written ++ bytes := by
      rw [hheard, ← hrest, show conn.write_offset + bytes.length = conn.write_buffer.length from hfull,
        List.drop_length, append_nil]
    by_cases hclose : conn.close_after_write = true
    · simp only [hclose, if_true] at hs'
      subst hs'
      refine ⟨hi.wrote hc ht hbytes (fun i hij => lookup_insert_ne hij) (lookup_insert _) ?_ ?_, ?_⟩
      · rw [flushed_close, flushed_credit howed, hclear]
        exact ⟨ht.live, ht.closed, .inr (.inr ⟨hdone.symm, credit, hcounted, hall hclose hfull⟩)⟩
      all_goals exact fun i hij => (flushed_close_of_ne hij _).trans (hdebt i hij)
    · simp only [hclose, Bool.false_eq_true, if_false] at hs'
      subst hs'
      refine ⟨hi.wrote hc ht hbytes (fun i hij => lookup_insert_ne hij) (lookup_insert _) ?_ hdebt, hdebt⟩
      rw [flushed_credit howed, hclear]
      refine ⟨ht.live, ht.phase, le_refl _, ?_, ht.closed, hcounted⟩
      simpa [History.write] using hdone
  · subst hs'
    refine ⟨hi.wrote hc ht hbytes (fun i hij => lookup_insert_ne hij) (lookup_insert _) ?_ hdebt, hdebt⟩
    rw [flushed_credit howed, hclear]
    refine ⟨ht.live, ht.phase, hle, ?_, ht.closed, hcounted⟩
    show (history s.proxy.log j).heard = (history s.proxy.log j).written ++ bytes ++
      conn.write_buffer.drop (conn.write_offset + bytes.length) ++ if conn.origin.connecting.isSome then [] else []
    rw [hheard, ← hrest, ite_self, append_nil, append_assoc]

theorem one_spec (hclear : flushed s.credits s.to_close j = {}) :
    (s.one w j).proxy.InvD (flushed (s.one w j).credits (s.one w j).to_close) ∧
      ∀ i, i ≠ j → flushed (s.one w j).credits (s.one w j).to_close i = flushed s.credits s.to_close i := by
  rw [Flush.one]
  split
  · exact ⟨hi, fun _ _ => rfl⟩
  rename_i conn hc
  have ht := hi.tracks hclear hc
  split
  · exact ⟨hi, fun _ _ => rfl⟩
  rename_i hleft
  simp only [Bool.or_eq_true, decide_eq_true_eq, not_or] at hleft
  simp only
  split
  · exact ⟨hi, fun _ _ => rfl⟩
  · exact ⟨refuse_spec hi hc ht hclear hleft.2, fun i hij => flushed_close_of_ne hij true⟩
  · exact ⟨refuse_spec hi hc ht hclear hleft.2, fun i hij => flushed_close_of_ne hij true⟩
  · rename_i n hn
    have hbytes := List.take_prefix (n + 1) (conn.write_buffer.drop conn.write_offset)
    have hcounted := ht.counted
    split
    · rename_i hcredit
      rw [hcredit] at hcounted
      have hcounted' : Counted (none : Option Nat).toList ((history s.proxy.log j).write
          ((conn.write_buffer.drop conn.write_offset).take (n + 1))) none := hcounted
      refine advance_spec hi hc ht hclear hbytes hcounted' ?_ ?_
      · exact fun _ _ c hc => by cases hc
      · simp [← hcredit]
    · rename_i credit hcredit
      rw [hcredit] at hcounted
      split
      · rename_i hr
        refine ⟨?_, fun i hij => flushed_close_of_ne hij true⟩
        refine hi.wrote hc ht hbytes (fun _ _ => rfl) hc ?_ fun i hij => flushed_close_of_ne hij true
        rw [flushed_close, hclear]
        refine ⟨ht.live, ht.closed, .inr (.inl ⟨?_, rfl⟩)⟩
        obtain ⟨⟨b, hb, htotal⟩, -⟩ := hcounted
        refine ⟨b, hb, ?_⟩
        have := not_lt_of_record_none hr
        show b + 2 ^ 64 ≤ ((history s.proxy.log j).written ++ _).length
        rw [length_append]
        omega
      · rename_i credit' report hr
        obtain ⟨hcounted', hall⟩ := hcounted.record ((history s.proxy.log j).write _) hr length_append rfl rfl
        refine advance_spec hi hc ht hclear hbytes hcounted' (fun hclose hfull c hc => ?_) rfl
        rw [← Option.some.inj hc]
        apply hall
        rw [hclose, Bool.true_and, decide_eq_true_eq, List.length_drop]
        omega

end

theorem visits_nodup {keys : List ConnId} (hk : keys.Nodup) : (visits w p keys).Nodup := by
  refine List.Nodup.append (List.nodup_dedup _) (hk.filter _) fun i hi hi' => ?_
  simp only [List.mem_filter, decide_not, Bool.not_eq_true', decide_eq_false_iff_not] at hi'
  exact hi'.2 hi

theorem visit_all {l : List ConnId} (hl : l.Nodup) (hi : s.proxy.InvD (flushed s.credits s.to_close))
    (hclear : ∀ j ∈ l, flushed s.credits s.to_close j = {}) :
    (l.foldl (Flush.one w) s).proxy.InvD
      (flushed (l.foldl (Flush.one w) s).credits (l.foldl (Flush.one w) s).to_close) := by
  induction l generalizing s with
  | nil => exact hi
  | cons j l ih =>
    obtain ⟨hj, hl⟩ := List.nodup_cons.mp hl
    obtain ⟨hi', hothers⟩ := one_spec (w := w) hi (hclear j (.head _))
    refine ih hl hi' fun i hil => ?_
    rw [hothers i fun hij => hj (hij ▸ hil)]
    exact hclear i (.tail _ hil)

theorem tell_credits {credits : List (ConnId × Nat)} {to_close : List (ConnId × Bool)}
    (hi : p.InvD (flushed credits to_close)) :
    (credits.foldl (fun p c => p.send_to_enclave w (encode_tcp_write_credit c.1 c.2)) p).InvD
      (flushed [] to_close) := by
  induction credits generalizing p with
  | nil => exact hi
  | cons c credits ih =>
    have howed : (flushed (c :: credits) to_close c.1).owed = c.2 :: (credits.filter (·.1 = c.1)).map (·.2) := by
      simp [flushed]
    refine ih (hi.report howed ?_ fun i hij => ?_)
    · simp [flushed]
    · simp [flushed, hij.symm]

theorem Leaves.honest_drop (hl : Leaves [] h) (hh : h.Honest) : (h.drop .flush_socket_writes).Honest := by
  refine hh.drop fun _ n hn => ?_
  rcases hl.reason with ⟨hrefused, -⟩ | ⟨hexhausted, -⟩ | ⟨hall, -⟩
  · exact .inr (.inr (.inl hrefused))
  · exact .inr (.inr (.inr (.inl hexhausted)))
  · rw [hall]
    exact .inl (hl.closed n hn)

theorem Leaves.gone (hl : Leaves [] h) (hh : h.Honest) : Gone [] (h.drop .flush_socket_writes) := by
  rcases hl.reason with ⟨-, hne, -⟩ | ⟨hexhausted, -⟩ | ⟨-, credit, hc, hall⟩
  · exact gone_of_dropped hh fun horderly => absurd horderly.2.2 hne
  · exact gone_of_dropped hh fun _ hnot => absurd hexhausted hnot
  · exact hc.gone hall

theorem close_all {to_close : List (ConnId × Bool)} (hi : p.InvD (flushed [] to_close)) :
    (to_close.foldl (close_one w) p).InvD paid := by
  induction to_close generalizing p with
  | nil => exact hi
  | cons close to_close ih =>
    obtain ⟨j, notify⟩ := close
    have hdebt : ∀ i, i ≠ j → flushed [] to_close i = flushed [] ((j, notify) :: to_close) i := by
      intro i hij
      simp [flushed, hij]
    have hi' : (p.remove j .flush_socket_writes).InvD (flushed [] to_close) := by
      have hf := hi.fits j
      rcases hc : p.connections.lookup j with _ | conn
      · rw [remove, if_neg (by rw [hc]; exact Bool.false_ne_true)]
        refine hi.set j (fun _ _ => rfl) (fun _ _ => rfl) hdebt ?_
        rw [hc] at hf ⊢
        rcases hq : p.pending_connects.lookup j <;> rw [hq] at hf <;> exact hf
      · rw [hc, hi.only_connection hc, Fits, if_pos (by simp [flushed])] at hf
        have hl : Leaves [] (history p.log j) := hf
        exact hi.remove hc _ (hl.honest_drop (hi.honest.now j)) (hl.gone (hi.honest.now j)) hdebt
    rw [foldl_cons]
    refine ih ?_
    rw [close_one]
    split
    · exact hi'.send (plain_close j) fun _ => rfl
    · exact hi'

theorem flush_socket_writes_spec (hi : p.InvD paid) : (p.flush_socket_writes w).InvD paid :=
  close_all (tell_credits (visit_all (visits_nodup p.connections.nodupKeys) hi fun _ _ => rfl))

/-! ## Reading, connecting and the clock -/

theorem write_to_socket_pending (hq : p.pending_connects.lookup j = none) (data : Bytes) :
    (p.write_to_socket w j data).pending_connects.lookup j = none := by
  rw [TcpProxy.write_to_socket, hq]
  simp only
  split
  · exact hq
  rename_i conn hc
  split
  · exact hq
  split
  · rw [send_pending, remove, if_pos (by rw [hc]; rfl)]
    exact hq
  · exact hq

theorem replay_spec {chunks : List Bytes} (hi : p.InvD (owes j chunks.flatten))
    (hq : p.pending_connects.lookup j = none) : (replay w j p chunks).InvD paid := by
  induction chunks generalizing p with
  | nil =>
    rw [List.flatten_nil, owes_nil] at hi
    exact hi
  | cons chunk chunks ih =>
    have hi' := write_to_socket_spec (w := w) hi
    have hq' := write_to_socket_pending (w := w) hq chunk
    rw [replay]
    split
    · exact ih hi' hq'
    rename_i hgone
    -- The write has dropped the connection, so nothing is owed to it.
    refine hi'.set j (fun _ _ => rfl) (fun _ _ => rfl) (fun i hij => (owes_of_ne hij _).symm) ?_
    have hf := hi'.fits j
    rw [hq', Option.not_isSome_iff_eq_none.mp hgone] at hf ⊢
    rw [owes_self] at hf
    exact hf

section

variable (hi : p.InvD paid)

include hi

theorem remove_spec {path : Path} (hpath : path.writes = false) (j : ConnId) : (p.remove j path).InvD paid := by
  rcases hc : p.connections.lookup j with _ | conn
  · rw [remove, if_neg (by rw [hc]; exact Bool.false_ne_true)]
    exact hi
  · exact hi.abandon hc hpath rfl fun _ _ => rfl

theorem remove_pending_spec {path : Path} (hpath : path.writes = false) (j : ConnId) :
    (p.remove_pending j path).InvD paid := by
  rcases hq : p.pending_connects.lookup j with _ | pending
  · rw [remove_pending, if_neg (by rw [hq]; exact Bool.false_ne_true)]
    exact hi
  obtain ⟨hhonest, hgone⟩ := (hi.honest.now j).abandoned hpath
  exact hi.remove_pending hq path hhonest hgone fun _ _ => rfl

theorem read_sockets_spec : (p.read_sockets w).InvD paid := by
  refine inv_foldl (inv_foldl hi fun _ j hp _ => remove_spec hp rfl j) fun _ m hp hm => hp.send ?_ paid_owed
  rcases List.mem_append.mp hm with hm | hm
  · obtain ⟨f, -, hf⟩ := List.mem_filterMap.mp hm
    obtain ⟨bytes, -, rfl⟩ := Option.map_eq_some_iff.mp hf
    exact plain_data _ _
  · obtain ⟨j, -, rfl⟩ := List.mem_map.mp hm
    exact plain_close j

theorem reap_one_spec (j : ConnId) : (p.reap_one w j).InvD paid := by
  rw [TcpProxy.reap_one]
  split
  · exact hi
  refine (remove_spec hi rfl j).send ?_ paid_owed
  split
  · exact plain_close j
  · exact plain_failed _ _

theorem finish_connect_spec (c : ConnId × UInt64) : (p.finish_connect w c).InvD paid := by
  rw [TcpProxy.finish_connect]
  refine Inv.send ?_ (plain_connected c.2 c.1) paid_owed
  split
  · exact hi
  rename_i conn hc
  have hh := hi.honest.now c.1
  have ht := hi.tracks rfl hc
  refine hi.event rfl (if_pos rfl) (fun i hij => lookup_insert_ne hij) (fun _ _ => rfl) (fun _ _ => rfl)
    (lookup_insert _) (hi.only_connection hc) ?_
    (honest_of_live ht.live hh.conserved hh.increasing hh.bounded)
  have hbytes := ht.bytes
  rw [ite_self] at hbytes
  exact ⟨ht.live, rfl, ht.offset, hbytes, ht.closed, ht.counted⟩

theorem progress_outbound_connections_spec : (p.progress_outbound_connections w).InvD paid := by
  refine inv_foldl ?_ fun _ c hp _ => ?_
  · exact inv_foldl hi fun _ c hp _ => finish_connect_spec hp c
  · exact (remove_spec hp rfl c.1).send (plain_failed _ _) paid_owed

theorem poll_one_spec (done : ConnId × Bool) : (p.poll_one w done).InvD paid := by
  rw [TcpProxy.poll_one]
  split
  · exact hi
  rename_i pending hq
  split
  · exact (remove_pending_spec hi rfl done.1).send (plain_close done.1) paid_owed
  refine replay_spec ?_ (by rw [send_pending]; exact lookup_erase _ _)
  refine Inv.send ?_ (plain_peer_connected done.1) (owes_owed done.1 _)
  have hf := hi.fits done.1
  have hh := hi.honest.now done.1
  rw [hq, hi.only_pending hq] at hf
  have hw : Waits pending [] [] (history p.log done.1) := hf
  refine Inv.event hi rfl (if_pos rfl) (fun i hij => lookup_insert_ne hij)
    (fun i hij => AList.lookup_erase_ne hij) (fun i hij => owes_of_ne hij _) (lookup_insert _)
    (lookup_erase _ _) ?_ (honest_of_live hw.live hh.conserved hh.increasing hh.bounded)
  rw [owes_self]
  refine ⟨hw.live, rfl, le_refl _, ?_, hw.closed, hw.counted⟩
  have hbytes := hw.bytes
  rw [append_nil] at hbytes
  show (history p.log done.1).heard = (history p.log done.1).written ++ [] ++ pending.buffered.flatten
  rw [hbytes, hw.written]
  rfl

theorem poll_pending_connects_spec : (p.poll_pending_connects w).InvD paid :=
  inv_foldl hi fun _ done hp _ => poll_one_spec hp done

theorem reap_idle_connections_spec : (p.reap_idle_connections w).InvD paid :=
  inv_foldl hi fun _ j hp _ => reap_one_spec hp j

theorem flush_pending_to_enclave_spec : (p.flush_pending_to_enclave w).InvD paid := by
  rw [TcpProxy.flush_pending_to_enclave]
  split
  · exact hi
  simp only
  split
  · exact hi.unread _ fun _ _ => rfl
  · exact hi

theorem serve_spec : (p.serve w).InvD paid := by
  rw [TcpProxy.serve]
  split
  · have haccepted := accept_local_control_connections_spec (w := w) (accept_connections_spec (w := w) hi)
    exact read_sockets_spec (poll_pending_connects_spec (progress_outbound_connections_spec haccepted))
  · exact hi

theorem scan_spec : (p.scan w).InvD paid := by
  rw [scan]
  split
  · exact reap_idle_connections_spec hi
  · exact hi

theorem send_tick_if_due_spec : (p.send_tick_if_due w).InvD paid := by
  rw [TcpProxy.send_tick_if_due]
  split
  · exact hi.send plain_tick paid_owed
  · exact hi

theorem round_spec : (p.round w).InvD paid := by
  have hdrained := flush_pending_to_enclave_spec (w := w) (drain_enclave_output_spec (w := w) hi 64)
  rw [TcpProxy.round]
  split
  · exact hdrained
  · exact send_tick_if_due_spec (scan_spec (serve_spec (flush_socket_writes_spec hdrained)))

theorem clean_up_spec : p.clean_up.InvD paid := by
  refine inv_foldl ?_ fun _ j hp _ => remove_pending_spec hp rfl j
  exact inv_foldl hi fun _ j hp _ => remove_spec hp rfl j

theorem run_spec (rounds : Nat) : (run w p rounds).InvD paid := by
  induction rounds generalizing p with
  | zero => exact hi
  | succ rounds ih =>
    rw [run]
    split
    · exact clean_up_spec hi
    · exact ih (round_spec hi)

end

theorem start_spec : TcpProxy.InvD {} paid := by
  have hunopened : unopened.Honest := by
    refine ⟨List.prefix_refl _, ?_, .nil, by simp [unopened], fun htold => by cases htold⟩
    intro path n hpath hw hn
    cases hn
  refine ⟨fun j => ?_, fun past hpast j => ?_⟩
  · refine ⟨rfl, ?_, ⟨.nil, by simp [paid]⟩, fun hne => absurd rfl hne⟩
    rintro ⟨hclosed, -⟩
    cases hclosed
  · rw [List.prefix_nil.mp hpast]
    exact hunopened

theorem ciphertext_conserved (w : World) (rounds : Nat) : Always next unopened History.Honest (run w {} rounds).log :=
  (run_spec start_spec rounds).honest

/-- `10.0.0.1:443`. -/
def endpoint : Bytes := [49, 48, 46, 48, 46, 48, 46, 49, 58, 52, 52, 51]

def hasty : World where
  dial _ := .in_progress
  probe _ _ := .connected
  write _ _ := .wrote 1
  try_recv
    | 1 => some (encode_channel_msg .DataReady 0 [])
    | 2 => some (encode_channel_msg .TcpConnect 0 (le 8 7 ++ endpoint))
    | 4 => some (encode_tcp_data 1 [1])
    | 13 => some (encode_tcp_data 1 [2])
    | _ => none

def broken : World where
  incoming _ := [{}]
  write _ _ := .error
  try_recv
    | 1 => some (encode_channel_msg .DataReady 0 [])
    | 10 => some (encode_tcp_data 1 [1])
    | 11 => some (encode_tcp_close 1)
    | _ => none

def hurried : World where
  dial _ := .in_progress
  try_recv
    | 1 => some (encode_channel_msg .DataReady 0 [])
    | 2 => some (encode_channel_msg .PeerTcpConnect CONN_ID_OUTBOUND_BASE endpoint)
    | 4 => some (encode_tcp_data CONN_ID_OUTBOUND_BASE [1])
    | 5 => some (encode_tcp_close CONN_ID_OUTBOUND_BASE)
    | _ => none

/-- What was heard before a close is written before the write path drops the connection. -/
def Drained (h : History) : Prop :=
  ∀ path n, h.dropped = some path → path.writes = true → h.closed = some n → n ≤ h.written.length

/-- The socket misses what was sent too early, and a close does not wait. -/
theorem bytes_skipped_or_lost :
    ¬ Always next unopened (fun h => h.written <+: h.sent) (run hasty {} 2).log ∧
      ¬ Always next unopened Drained (run broken {} 2).log ∧
      ¬ Always next unopened Drained (run hurried {} 1).log := by
  refine ⟨fun hall => ?_, fun hall => ?_, fun hall => ?_⟩
  · have hbytes := hall.now (1 : ConnId)
    revert hbytes
    decide +kernel
  · have hle := hall.now (1 : ConnId) .flush_socket_writes 1 (by decide +kernel) rfl (by decide +kernel)
    revert hle
    decide +kernel
  · have hle := hall.now CONN_ID_OUTBOUND_BASE .close_from_enclave 1 (by decide +kernel) rfl (by decide +kernel)
    revert hle
    decide +kernel

end EnclaveOs.Host.Proxy
