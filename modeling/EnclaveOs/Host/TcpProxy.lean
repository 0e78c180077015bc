import EnclaveOs.Host.Channel

/-!
# The TCP proxy of the host (`tcp_proxy.rs`)

The loop is a function of what the sockets, the queues and the clock answer. The log has what can be seen from
outside.
-/

namespace EnclaveOs.Host.Proxy

open Lib Channel

def MAX_PENDING_WRITE : Nat := 2 * 1024 * 1024
def MAX_PENDING_TO_ENCLAVE : Nat := 2 * 1024 * 1024
def MAX_PENDING_CONNECT_WRITE : Nat := 256 * 1024
def MAX_CONNS : Nat := 800
def WRITE_CREDIT_QUANTUM : Nat := 256 * 1024

structure WrittenCredit where
  total : Nat := 0
  reported : Nat := 0

/-- The counts, and the total if it is to be reported. -/
def WrittenCredit.record (credit : WrittenCredit) (written : Nat) (closing : Bool) :
    Option (WrittenCredit × Option Nat) :=
  let total := credit.total + written
  if 2 ^ 64 ≤ total then none
  else if WRITE_CREDIT_QUANTUM ≤ total - credit.reported || (closing && total != credit.reported) then
    some (⟨total, total⟩, some total)
  else some ({ credit with total }, none)

inductive ConnectionOrigin
  | Inbound
  | LocalControl
  | OutboundConnecting (request_id : UInt64)
  | Outbound

def ConnectionOrigin.connecting : ConnectionOrigin → Option UInt64
  | .OutboundConnecting request_id => some request_id
  | _ => none

structure ConnState where
  origin : ConnectionOrigin
  write_buffer : Bytes := []
  write_offset : Nat := 0
  write_credit : Option WrittenCredit := none
  read_control : Option (Nat × Bool) := none
  connection_generation : Nat := 0
  close_after_write : Bool := false

structure PendingConn where
  buffered : List Bytes := []
  buffered_len : Nat := 0

/-- `connecting`: the enclave has not been told the id yet. -/
inductive Phase
  | pending
  | connecting
  | connected
deriving DecidableEq

inductive Path
  | drain_enclave_output
  | write_to_socket
  | close_from_enclave
  | flush_socket_writes
  | read_sockets
  | reap_idle_connections
  | progress_outbound_connections
  | poll_pending_connects
  | run
deriving DecidableEq

inductive Event
  | opened (conn_id : ConnId) (phase : Phase)
  | connected (conn_id : ConnId)
  | message (msg_type : ChannelMsgType) (conn_id : ConnId) (payload : Bytes)
  | wrote (conn_id : ConnId) (bytes : Bytes)
  | refused (conn_id : ConnId)
  | told (message : Bytes)
  | delivered (message : Bytes)
  | dropped (conn_id : ConnId) (path : Path)

inductive WriteAnswer
  | wrote (n : Nat)
  | would_block
  | error

inductive ReadAnswer
  | data (bytes : Bytes)
  | would_block
  | error

inductive Probe
  | failed
  | connected
  | waiting

inductive Dial
  | connected
  | in_progress
  | failed

structure Incoming where
  addr : Bytes := []
  set_nonblocking : Bool := true

structure World where
  stream_read_credit : Bool := false
  from_utf8 : Bytes → Bool := fun _ => true
  parse_socket_addr : Bytes → Bool := fun _ => true
  shutdown : Nat → Bool := fun _ => false
  try_recv : Nat → Option Bytes := fun _ => none
  try_send : Nat → Bool := fun _ => true
  order : Nat → List ConnId := fun _ => []
  write : Nat → ConnId → WriteAnswer := fun _ _ => .would_block
  read : Nat → ConnId → ReadAnswer := fun _ _ => .would_block
  disconnected_ready : Nat → ConnId → Bool := fun _ _ => false
  visited : Nat → Nat := fun _ => 0
  incoming : Nat → List Incoming := fun _ => []
  incoming_peer : Nat → List Incoming := fun _ => []
  incoming_local : Nat → List Incoming := fun _ => []
  probe : Nat → ConnId → Probe := fun _ _ => .waiting
  dial : Nat → Dial := fun _ => .failed
  stale : Nat → ConnId → Bool := fun _ _ => false
  scan_due : Nat → Bool := fun _ => false
  tick_due : Nat → Bool := fun _ => false

structure TcpProxy where
  connections : AList (fun _ : ConnId => ConnState) := ∅
  pending_connects : AList (fun _ : ConnId => PendingConn) := ∅
  next_conn_id : ConnId := 1
  next_read_generation : Nat := 0
  next_peer_conn_id : ConnId := CONN_ID_PEER_IN_BASE
  shutdown : Bool := false
  ready : Bool := false
  pending_to_enclave : List Bytes := []
  pending_to_enclave_bytes : Nat := 0
  now : Nat := 0
  log : List Event := []

variable (w : World) (p : TcpProxy)

/-- A hash map is walked in any order. -/
def visits (keys : List ConnId) : List ConnId :=
  let first := ((w.order p.now).filter (· ∈ keys)).dedup
  first ++ keys.filter (· ∉ first)

namespace TcpProxy

def emit (e : Event) : TcpProxy := { p with log := p.log ++ [e] }

def tick : TcpProxy := { p with now := p.now + 1 }

def len : Nat := p.connections.keys.length + p.pending_connects.keys.length

def insert (conn_id : ConnId) (conn : ConnState) : TcpProxy :=
  { p with connections := p.connections.insert conn_id conn }

def remove (conn_id : ConnId) (path : Path) : TcpProxy :=
  if p.connections.lookup conn_id |>.isSome then
    { p with connections := p.connections.erase conn_id }.emit (.dropped conn_id path)
  else p

def remove_pending (conn_id : ConnId) (path : Path) : TcpProxy :=
  if p.pending_connects.lookup conn_id |>.isSome then
    { p with pending_connects := p.pending_connects.erase conn_id }.emit (.dropped conn_id path)
  else p

def contains (conn_id : ConnId) : Bool :=
  (p.connections.lookup conn_id).isSome || (p.pending_connects.lookup conn_id).isSome

def send_to_enclave (message : Bytes) : TcpProxy :=
  let p := (p.emit (.told message)).tick
  if p.pending_to_enclave.isEmpty && w.try_send p.now then p.emit (.delivered message)
  else if MAX_PENDING_TO_ENCLAVE < p.pending_to_enclave_bytes + message.length then { p with shutdown := true }
  else
    { p with
      pending_to_enclave := p.pending_to_enclave ++ [message]
      pending_to_enclave_bytes := p.pending_to_enclave_bytes + message.length }

def flush_pending_to_enclave : TcpProxy :=
  match p.pending_to_enclave with
  | [] => p
  | message :: rest =>
    let p := p.tick
    if w.try_send p.now then
      { p with
        pending_to_enclave := rest
        pending_to_enclave_bytes := p.pending_to_enclave_bytes - message.length }.emit (.delivered message)
    else p

def send_all (messages : List Bytes) : TcpProxy := messages.foldl (send_to_enclave w) p

def send_tick_if_due : TcpProxy :=
  if w.tick_due p.now && p.pending_to_enclave.isEmpty then
    p.send_to_enclave w (encode_channel_msg .Tick 0 [])
  else p

def wrap_conn_id (next : ConnId) : ConnId := if next = 0 || CONN_ID_PEER_IN_BASE ≤ next then 1 else next

def wrap_peer_conn_id (next : ConnId) : ConnId :=
  if CONN_ID_PEER_IN_BASE ≤ next && next < CONN_ID_OUTBOUND_BASE then next else CONN_ID_PEER_IN_BASE

def allocate_conn_id (p : TcpProxy) : Nat → Option ConnId × TcpProxy
  | 0 => (none, p)
  | tries + 1 =>
    let candidate := p.next_conn_id
    let p := { p with next_conn_id := wrap_conn_id (candidate + 1) }
    if candidate ≠ 0 && candidate < CONN_ID_PEER_IN_BASE && !p.contains candidate then (some candidate, p)
    else p.allocate_conn_id tries

def allocate_peer_conn_id (p : TcpProxy) : Nat → Option ConnId × TcpProxy
  | 0 => (none, p)
  | tries + 1 =>
    let candidate := p.next_peer_conn_id
    let p := { p with next_peer_conn_id := wrap_peer_conn_id (candidate + 1) }
    if CONN_ID_PEER_IN_BASE ≤ candidate && candidate < CONN_ID_OUTBOUND_BASE && !p.contains candidate then
      (some candidate, p)
    else p.allocate_peer_conn_id tries

def announce (conn_id : ConnId) (socket : Incoming) (generation : Nat) : TcpProxy :=
  let p := p.send_to_enclave w (encode_tcp_new conn_id socket.addr)
  let p := (p.insert conn_id { origin := .Inbound, connection_generation := generation }).emit
    (.opened conn_id .connected)
  if generation ≠ 0 then p.send_to_enclave w (encode_tcp_read_identity conn_id generation) else p

/-- A generation that overflows loses the socket. -/
def register (conn_id : ConnId) (socket : Incoming) : TcpProxy :=
  if !socket.set_nonblocking then p
  else if !w.stream_read_credit then p.announce w conn_id socket 0
  else if 2 ^ 64 ≤ p.next_read_generation + 1 then p
  else
    { p with next_read_generation := p.next_read_generation + 1 }.announce w conn_id socket (p.next_read_generation + 1)

def accept_one (p : TcpProxy) (incoming : Incoming × Bool) : TcpProxy :=
  if MAX_CONNS ≤ p.len then p
  else
    match if incoming.2 then p.allocate_peer_conn_id (MAX_CONNS + 1) else p.allocate_conn_id (MAX_CONNS + 1) with
    | (none, p) => p
    | (some conn_id, p) => p.register w conn_id incoming.1

def accept_connections : TcpProxy :=
  let incoming := ((w.incoming p.now).take 16).map (·, false) ++ ((w.incoming_peer p.now).take 16).map (·, true)
  incoming.foldl (accept_one w) p.tick

def accept_local_one (p : TcpProxy) (socket : Incoming) : TcpProxy :=
  if MAX_CONNS ≤ p.len then p
  else
    match p.allocate_conn_id (MAX_CONNS + 1) with
    | (none, p) => p
    | (some conn_id, p) =>
      if !socket.set_nonblocking then p
      else
        let p := p.send_to_enclave w (encode_local_control_new conn_id)
        (p.insert conn_id { origin := .LocalControl }).emit (.opened conn_id .connected)

def accept_local_control_connections : TcpProxy :=
  ((w.incoming_local p.now).take 16).foldl (accept_local_one w) p.tick

def start_outbound_connect (conn_id : ConnId) : TcpProxy :=
  if !conn_id_is_outbound conn_id || p.contains conn_id || MAX_CONNS ≤ p.len then
    p.send_to_enclave w (encode_tcp_close conn_id)
  else
    let p := p.tick
    match w.dial p.now with
    | .failed => p.send_to_enclave w (encode_tcp_close conn_id)
    | _ => { p with pending_connects := p.pending_connects.insert conn_id {} }.emit (.opened conn_id .pending)

def MAX_ENDPOINT_BYTES : Nat := 128

def begin_outbound_connection (payload : Bytes) : TcpProxy :=
  match decode_tcp_connect w.from_utf8 payload with
  | none => p
  | some (request_id, endpoint) =>
    if endpoint.isEmpty || MAX_ENDPOINT_BYTES < endpoint.length then
      p.send_to_enclave w (encode_tcp_connect_failed request_id .MalformedEndpoint)
    else
      match p.allocate_conn_id (MAX_CONNS + 1) with
      | (none, p) => p.send_to_enclave w (encode_tcp_connect_failed request_id .ConnectionLimit)
      | (some conn_id, p) =>
        if MAX_CONNS ≤ p.len then p.send_to_enclave w (encode_tcp_connect_failed request_id .ConnectionLimit)
        else if !w.parse_socket_addr endpoint then
          p.send_to_enclave w (encode_tcp_connect_failed request_id .MalformedEndpoint)
        else
          let p := p.tick
          match w.dial p.now with
          | .failed => p.send_to_enclave w (encode_tcp_connect_failed request_id .SocketFailure)
          | .in_progress =>
            (p.insert conn_id { origin := .OutboundConnecting request_id }).emit (.opened conn_id .connecting)
          | .connected =>
            let p := (p.insert conn_id { origin := .Outbound }).emit (.opened conn_id .connected)
            p.send_to_enclave w (encode_tcp_connected request_id conn_id)

def write_to_socket (conn_id : ConnId) (data : Bytes) : TcpProxy :=
  match p.pending_connects.lookup conn_id with
  | some pending =>
    if MAX_PENDING_CONNECT_WRITE < pending.buffered_len + data.length then
      (p.remove_pending conn_id .write_to_socket).send_to_enclave w (encode_tcp_close conn_id)
    else
      { p with
        pending_connects := p.pending_connects.insert conn_id
          { buffered := pending.buffered ++ [data], buffered_len := pending.buffered_len + data.length } }
  | none =>
    match p.connections.lookup conn_id with
    | none => p
    | some conn =>
      if conn.origin.connecting.isSome then p
      else if MAX_PENDING_WRITE < conn.write_buffer.length - conn.write_offset + data.length then
        (p.remove conn_id .write_to_socket).send_to_enclave w (encode_tcp_close conn_id)
      else
        -- `drain(..write_offset)`
        p.insert conn_id
          { conn with write_buffer := conn.write_buffer.drop conn.write_offset ++ data, write_offset := 0 }

def close_from_enclave (conn_id : ConnId) : TcpProxy :=
  let p := p.remove_pending conn_id .close_from_enclave
  match p.connections.lookup conn_id with
  | none => p
  | some conn =>
    if conn.write_offset = conn.write_buffer.length then
      let p := p.remove conn_id .close_from_enclave
      match conn.write_credit with
      | none => p
      | some credit =>
        let p :=
          match credit.record 0 true with
          | some (_, some total) => p.send_to_enclave w (encode_tcp_write_credit conn_id total)
          | _ => p
        p.send_to_enclave w (encode_tcp_close conn_id)
    else p.insert conn_id { conn with close_after_write := true }

def on_write_credit (conn_id : ConnId) (payload : Bytes) : TcpProxy :=
  match p.connections.lookup conn_id with
  | none => p
  | some conn =>
    if decode_tcp_write_credit payload = some 0 && conn.write_credit.isNone && conn.write_buffer.isEmpty then
      p.insert conn_id { conn with write_credit := some {} }
    else (p.remove conn_id .drain_enclave_output).send_to_enclave w (encode_tcp_close conn_id)

def on_read_control (conn_id : ConnId) (payload : Bytes) : TcpProxy :=
  match p.connections.lookup conn_id with
  | none => p
  | some conn =>
    match decode_tcp_read_control payload with
    | some (generation, revision, paused) =>
      if generation = conn.connection_generation &&
          (conn.read_control.isNone || conn.read_control.any (·.1 < revision)) then
        p.insert conn_id { conn with read_control := some (revision, paused) }
      else p
    | none => (p.remove conn_id .drain_enclave_output).send_to_enclave w (encode_tcp_close conn_id)

/-- The other types are the host's own, and only logged. -/
def on_message (msg_type : ChannelMsgType) (conn_id : ConnId) (payload : Bytes) : TcpProxy :=
  match msg_type with
  | .TcpWriteCredit => p.on_write_credit w conn_id payload
  | .TcpReadControl => p.on_read_control w conn_id payload
  | .TcpData => p.write_to_socket w conn_id payload
  | .TcpClose => p.close_from_enclave w conn_id
  | .TcpConnect => if conn_id ≠ 0 then p else p.begin_outbound_connection w payload
  | .PeerTcpConnect =>
    if w.from_utf8 payload then p.start_outbound_connect w conn_id
    else p.send_to_enclave w (encode_tcp_close conn_id)
  | .DataReady => { p with ready := true }
  | _ => p

def drain_enclave_output (p : TcpProxy) : Nat → TcpProxy
  | 0 => p
  | turns + 1 =>
    let p := p.tick
    match w.try_recv p.now with
    | none => p
    | some msg =>
      match decode_channel_msg msg with
      | none => p.drain_enclave_output turns
      | some (msg_type, conn_id, payload) =>
        ((p.emit (.message msg_type conn_id payload)).on_message w msg_type conn_id payload).drain_enclave_output turns

end TcpProxy

/-! ## Writing to the sockets -/

structure Flush where
  proxy : TcpProxy
  credits : List (ConnId × Nat) := []
  to_close : List (ConnId × Bool) := []

def Flush.advance (s : Flush) (conn_id : ConnId) (conn : ConnState) (written : Nat) : Flush :=
  if conn.write_offset + written = conn.write_buffer.length then
    { s with
      proxy := s.proxy.insert conn_id { conn with write_buffer := [], write_offset := 0 }
      to_close :=
        if conn.close_after_write then s.to_close ++ [(conn_id, conn.write_credit.isSome)] else s.to_close }
  else { s with proxy := s.proxy.insert conn_id { conn with write_offset := conn.write_offset + written } }

def Flush.refuse (s : Flush) (conn_id : ConnId) : Flush :=
  { s with proxy := s.proxy.emit (.refused conn_id), to_close := s.to_close ++ [(conn_id, true)] }

def Flush.one (s : Flush) (conn_id : ConnId) : Flush :=
  match s.proxy.connections.lookup conn_id with
  | none => s
  | some conn =>
    if conn.origin.connecting.isSome || conn.write_offset = conn.write_buffer.length then s
    else
      let unwritten := conn.write_buffer.drop conn.write_offset
      match w.write s.proxy.now conn_id with
      | .would_block => s
      | .error => s.refuse conn_id
      | .wrote 0 => s.refuse conn_id
      | .wrote (n + 1) =>
        -- A socket never takes more than it was offered.
        let bytes := unwritten.take (n + 1)
        let s := { s with proxy := s.proxy.emit (.wrote conn_id bytes) }
        match conn.write_credit with
        | none => s.advance conn_id conn bytes.length
        | some credit =>
          match credit.record bytes.length (conn.close_after_write && bytes.length = unwritten.length) with
          | none => { s with to_close := s.to_close ++ [(conn_id, true)] }
          | some (credit, report) =>
            { s with credits := s.credits ++ (report.map (conn_id, ·)).toList }.advance conn_id
              { conn with write_credit := some credit } bytes.length

namespace TcpProxy

def close_one (p : TcpProxy) (close : ConnId × Bool) : TcpProxy :=
  let p := p.remove close.1 .flush_socket_writes
  if close.2 then p.send_to_enclave w (encode_tcp_close close.1) else p

def flush_socket_writes : TcpProxy :=
  let s := (visits w p p.connections.keys).foldl (Flush.one w) { proxy := p.tick }
  let p := s.credits.foldl (fun p c => p.send_to_enclave w (encode_tcp_write_credit c.1 c.2)) s.proxy
  s.to_close.foldl (close_one w) p

/-! ## The other side, and time -/

def read_one (now : Nat) (conn_id : ConnId) (conn : ConnState) : Option (Bytes ⊕ Unit) :=
  if conn.origin.connecting.isSome then none
  else if conn.read_control.any (·.2) then
    if w.disconnected_ready now conn_id then some (.inr ()) else none
  else
    match w.read now conn_id with
    | .data [] => some (.inr ())
    | .data bytes => some (.inl bytes)
    | .would_block => none
    | .error => some (.inr ())

/-- Only as many sockets are visited as the backlog has room for. -/
def read_sockets : TcpProxy :=
  let found := ((visits w p p.connections.keys).take (w.visited p.now)).filterMap fun conn_id =>
    (p.connections.lookup conn_id).bind fun conn => (read_one w p.now conn_id conn).map (conn_id, ·)
  let data := found.filterMap fun f => f.2.getLeft?.map (encode_tcp_data f.1)
  let to_close := found.filterMap fun f => f.2.getRight?.map fun _ => f.1
  let p := to_close.foldl (fun p conn_id => p.remove conn_id .read_sockets) p.tick
  p.send_all w (data ++ to_close.map encode_tcp_close)

def reap_one (p : TcpProxy) (conn_id : ConnId) : TcpProxy :=
  match p.connections.lookup conn_id with
  | none => p
  | some conn =>
    let message :=
      match conn.origin.connecting with
      | none => encode_tcp_close conn_id
      | some request_id => encode_tcp_connect_failed request_id .Timeout
    (p.remove conn_id .reap_idle_connections).send_to_enclave w message

def reap_idle_connections : TcpProxy :=
  ((visits w p p.connections.keys).filter (w.stale p.now)).foldl (reap_one w) p.tick

def probed (answer : Probe → Bool) : List (ConnId × UInt64) :=
  (visits w p p.connections.keys).filterMap fun conn_id =>
    (p.connections.lookup conn_id).bind fun conn =>
      if answer (w.probe p.now conn_id) then conn.origin.connecting.map (conn_id, ·) else none

def finish_connect (p : TcpProxy) (c : ConnId × UInt64) : TcpProxy :=
  let p :=
    match p.connections.lookup c.1 with
    | none => p
    | some conn => (p.insert c.1 { conn with origin := .Outbound }).emit (.connected c.1)
  p.send_to_enclave w (encode_tcp_connected c.2 c.1)

def fail_connect (p : TcpProxy) (c : ConnId × UInt64) : TcpProxy :=
  (p.remove c.1 .progress_outbound_connections).send_to_enclave w (encode_tcp_connect_failed c.2 .SocketFailure)

def progress_outbound_connections : TcpProxy :=
  let connected := probed w p fun | .connected => true | _ => false
  let failed := probed w p fun | .failed => true | _ => false
  failed.foldl (fail_connect w) (connected.foldl (finish_connect w) p.tick)

def replay (conn_id : ConnId) (p : TcpProxy) : List Bytes → TcpProxy
  | [] => p
  | chunk :: chunks =>
    let p := p.write_to_socket w conn_id chunk
    if (p.connections.lookup conn_id).isSome then p.replay conn_id chunks else p

def poll_one (p : TcpProxy) (done : ConnId × Bool) : TcpProxy :=
  match p.pending_connects.lookup done.1 with
  | none => p
  | some pending =>
    if !done.2 then
      (p.remove_pending done.1 .poll_pending_connects).send_to_enclave w (encode_tcp_close done.1)
    else
      let p := { p with pending_connects := p.pending_connects.erase done.1 }
      let p := (p.insert done.1 { origin := .Outbound }).emit (.connected done.1)
      replay w done.1 (p.send_to_enclave w (encode_peer_tcp_connected done.1)) pending.buffered

def poll_pending_connects : TcpProxy :=
  let done := (visits w p p.pending_connects.keys).filterMap fun conn_id =>
    match w.probe p.now conn_id with
    | .failed => some (conn_id, false)
    | .connected => some (conn_id, true)
    | .waiting => none
  done.foldl (poll_one w) p.tick

/-- Nothing new is taken on while the enclave is behind. -/
def serve : TcpProxy :=
  if p.pending_to_enclave.isEmpty then
    let p := (p.accept_connections w).accept_local_control_connections w
    ((p.progress_outbound_connections w).poll_pending_connects w).read_sockets w
  else p

def scan : TcpProxy := if w.scan_due p.now then p.reap_idle_connections w else p

def round : TcpProxy :=
  let p := (p.drain_enclave_output w 64).flush_pending_to_enclave w
  if !p.ready then p else (((p.flush_socket_writes w).serve w).scan w).send_tick_if_due w

def clean_up : TcpProxy :=
  let p := p.connections.keys.foldl (fun p conn_id => p.remove conn_id .run) p
  p.pending_connects.keys.foldl (fun p conn_id => p.remove_pending conn_id .run) p

def run (p : TcpProxy) : Nat → TcpProxy
  | 0 => p
  | rounds + 1 => if p.shutdown || w.shutdown p.now then p.clean_up else run (p.round w) rounds

end TcpProxy

end EnclaveOs.Host.Proxy
