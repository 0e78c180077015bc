import EnclaveOs.Lib.Bytes

/-! # Messages of the data channel (`channel.rs`) -/

namespace EnclaveOs.Channel

open Lib

abbrev ConnId := UInt32

inductive ChannelMsgType
  | TcpNew
  | TcpData
  | TcpClose
  | DataReady
  | TcpConnect
  | TcpConnected
  | TcpConnectFailed
  | LocalControlNew
  | PeerTcpConnect
  | PeerTcpConnected
  | Tick
  | TcpWriteCredit
  | TcpReadControl
  | TcpReadIdentity
deriving DecidableEq, Repr

def ChannelMsgType.as_u8 : ChannelMsgType → UInt8
  | .TcpNew => 0x01
  | .TcpData => 0x02
  | .TcpClose => 0x03
  | .DataReady => 0x04
  | .TcpConnect => 0x05
  | .TcpConnected => 0x06
  | .TcpConnectFailed => 0x07
  | .LocalControlNew => 0x08
  | .PeerTcpConnect => 0x09
  | .PeerTcpConnected => 0x0A
  | .Tick => 0x0B
  | .TcpWriteCredit => 0x0C
  | .TcpReadControl => 0x0D
  | .TcpReadIdentity => 0x0E

def ChannelMsgType.from_u8 (val : UInt8) : Option ChannelMsgType :=
  match val.toNat with
  | 0x01 => some .TcpNew
  | 0x02 => some .TcpData
  | 0x03 => some .TcpClose
  | 0x04 => some .DataReady
  | 0x05 => some .TcpConnect
  | 0x06 => some .TcpConnected
  | 0x07 => some .TcpConnectFailed
  | 0x08 => some .LocalControlNew
  | 0x09 => some .PeerTcpConnect
  | 0x0A => some .PeerTcpConnected
  | 0x0B => some .Tick
  | 0x0C => some .TcpWriteCredit
  | 0x0D => some .TcpReadControl
  | 0x0E => some .TcpReadIdentity
  | _ => none

inductive TcpConnectFailure
  | MalformedEndpoint
  | ConnectionLimit
  | SocketFailure
  | Timeout

def TcpConnectFailure.as_u8 : TcpConnectFailure → UInt8
  | .MalformedEndpoint => 0x01
  | .ConnectionLimit => 0x02
  | .SocketFailure => 0x03
  | .Timeout => 0x04

def CHANNEL_MSG_HEADER : Nat := 5
def MAX_CHANNEL_PAYLOAD : Nat := 1024 * 1024
def CONN_ID_PEER_IN_BASE : ConnId := 0x40000000
def CONN_ID_OUTBOUND_BASE : ConnId := 0x80000000

def conn_id_is_outbound (conn_id : ConnId) : Bool := CONN_ID_OUTBOUND_BASE ≤ conn_id

def encode_channel_msg (msg_type : ChannelMsgType) (conn_id : ConnId) (payload : Bytes) : Bytes :=
  msg_type.as_u8 :: (le 4 conn_id.toNat ++ payload)

def encode_tcp_new (conn_id : ConnId) (peer_addr : Bytes) : Bytes := encode_channel_msg .TcpNew conn_id peer_addr

def encode_local_control_new (conn_id : ConnId) : Bytes :=
  encode_channel_msg .LocalControlNew conn_id "unix:local-control".toUTF8.toList

def encode_tcp_data (conn_id : ConnId) (data : Bytes) : Bytes := encode_channel_msg .TcpData conn_id data

def encode_tcp_write_credit (conn_id : ConnId) (written : Nat) : Bytes :=
  encode_channel_msg .TcpWriteCredit conn_id (le 8 written)

def encode_tcp_close (conn_id : ConnId) : Bytes := encode_channel_msg .TcpClose conn_id []

def encode_tcp_connected (request_id : UInt64) (conn_id : ConnId) : Bytes :=
  encode_channel_msg .TcpConnected conn_id (le 8 request_id.toNat)

def encode_peer_tcp_connected (conn_id : ConnId) : Bytes := encode_channel_msg .PeerTcpConnected conn_id []

def encode_tcp_connect_failed (request_id : UInt64) (reason : TcpConnectFailure) : Bytes :=
  encode_channel_msg .TcpConnectFailed 0 (le 8 request_id.toNat ++ [reason.as_u8])

def encode_tcp_read_identity (conn_id : ConnId) (generation : Nat) : Bytes :=
  encode_channel_msg .TcpReadIdentity conn_id (be 8 generation)

def decode_channel_msg (data : Bytes) : Option (ChannelMsgType × ConnId × Bytes) :=
  match data with
  | t :: rest =>
    if data.length < CHANNEL_MSG_HEADER then none
    else
      match ChannelMsgType.from_u8 t with
      | none => none
      | some msg_type =>
        let payload := rest.drop 4
        if MAX_CHANNEL_PAYLOAD < payload.length then none
        else some (msg_type, UInt32.ofNat (ofLe (rest.take 4)), payload)
  | [] => none

def decode_tcp_write_credit (payload : Bytes) : Option Nat :=
  if payload.length = 8 then some (ofLe payload) else none

/-- `decode_tcp_connect`, with `core::str::from_utf8` as an argument. -/
def decode_tcp_connect (from_utf8 : Bytes → Bool) (payload : Bytes) : Option (UInt64 × Bytes) :=
  if payload.length ≤ 8 then none
  else if from_utf8 (payload.drop 8) then some (UInt64.ofNat (ofLe (payload.take 8)), payload.drop 8)
  else none

def decode_tcp_read_control (payload : Bytes) : Option (Nat × Nat × Bool) :=
  if payload.length ≠ 17 then none
  else
    let flag := (payload.drop 16).headD 0
    if 1 < flag then none
    else
      let generation := ofBe (payload.take 8)
      let revision := ofBe ((payload.drop 8).take 8)
      if generation ≠ 0 && revision ≠ 0 then some (generation, revision, flag != 0) else none

theorem from_u8_as_u8 (msg_type : ChannelMsgType) : ChannelMsgType.from_u8 msg_type.as_u8 = some msg_type := by
  cases msg_type <;> rfl

theorem decode_encode (msg_type : ChannelMsgType) (conn_id : ConnId) (payload : Bytes) :
    decode_channel_msg (encode_channel_msg msg_type conn_id payload) =
      if MAX_CHANNEL_PAYLOAD < payload.length then none else some (msg_type, conn_id, payload) := by
  have hid : UInt32.ofNat (ofLe (le 4 conn_id.toNat)) = conn_id := by
    rw [ofLe_le 4 _ (by have := conn_id.toNat_lt; norm_num at this ⊢; omega)]
    simp
  have hlen : ¬ payload.length + 4 + 1 < CHANNEL_MSG_HEADER := by rw [CHANNEL_MSG_HEADER]; omega
  have htake : (le 4 conn_id.toNat ++ payload).take 4 = le 4 conn_id.toNat := List.take_left' (length_le 4 _)
  have hdrop : (le 4 conn_id.toNat ++ payload).drop 4 = payload := List.drop_left' (length_le 4 _)
  simp only [decode_channel_msg, encode_channel_msg, from_u8_as_u8, htake, hdrop, hid, List.length_cons,
    List.length_append, length_le]
  rw [if_neg (by omega)]

theorem decode_write_credit {total : Nat} (h : total < 2 ^ 64) : decode_tcp_write_credit (le 8 total) = some total := by
  rw [decode_tcp_write_credit, if_pos (length_le 8 _), ofLe_le 8 _ (by norm_num at h ⊢; omega)]

end EnclaveOs.Channel
