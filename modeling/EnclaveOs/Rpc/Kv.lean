import EnclaveOs.Lib.Checks
import EnclaveOs.Lib.Wire
import EnclaveOs.Rpc.Polled

/-!
# Requests to the key-value store (`rpc.rs`)

Lengths are written as `u16` and `u32`. What a decoder leaves over is not looked at.
-/

namespace EnclaveOs.Rpc.Kv

open Lib (Bytes le ofLe length_le ofLe_le ofLe_lt checked_add checked_add_some except_bind_ok)
open Lib.Wire

/-! ## The codecs -/

def put (k : Nat) (b : Bytes) : Bytes := le k b.length ++ b

def num (k : Nat) : Reader Unit Nat := ofLe <$> take () k

def sized (k : Nat) : Reader Unit Bytes := num k >>= take ()

def rest : Reader Unit Bytes := fun input => .ok (input, [])

def run {α : Type} (r : Reader Unit α) (p : Bytes) : Option α := (r p).toOption.map Prod.fst

inductive KvBatchOp where
  | Put (key value : Bytes)
  | Delete (key : Bytes)

def encode_kv_put_req (table key value : Bytes) : Bytes := put 2 table ++ (put 4 key ++ value)

def decode_kv_put_req : Bytes → Option (Bytes × Bytes × Bytes) := run do
  return (← sized 2, ← sized 4, ← rest)

def encode_kv_get_req (table key : Bytes) : Bytes := put 2 table ++ key

def decode_kv_get_req : Bytes → Option (Bytes × Bytes) := run do
  return (← sized 2, ← rest)

def encode_kv_delete_req := encode_kv_get_req

def decode_kv_delete_req := decode_kv_get_req

def encode_kv_list_keys_req (table pfx : Bytes) : Bytes := put 2 table ++ pfx

def decode_kv_list_keys_req := decode_kv_get_req

def encode_op : KvBatchOp → Bytes
  | .Put key value => [0] ++ (put 4 key ++ put 4 value)
  | .Delete key => [1] ++ put 4 key

def decode_op : Reader Unit KvBatchOp := do
  let tag ← take () 1
  let key ← sized 4
  match tag with
  | [0] => return .Put key (← sized 4)
  | [1] => return .Delete key
  | _ => throw ()

def encode_kv_write_batch_req (table : Bytes) (ops : List KvBatchOp) : Bytes :=
  put 2 table ++ (le 4 ops.length ++ ops.flatMap encode_op)

def decode_kv_write_batch_req : Bytes → Option (Bytes × List KvBatchOp) := run do
  return (← sized 2, ← times decode_op (← num 4))

def encode_kv_multi_get_req (table : Bytes) (keys : List Bytes) : Bytes :=
  put 2 table ++ (le 4 keys.length ++ keys.flatMap (put 4))

def decode_kv_multi_get_req : Bytes → Option (Bytes × List Bytes) := run do
  return (← sized 2, ← times (sized 4) (← num 4))

def encode_kv_scan_req (table start stop : Bytes) (limit : UInt32) : Bytes :=
  put 2 table ++ (le 4 limit.toNat ++ (put 4 start ++ stop))

def decode_kv_scan_req : Bytes → Option (Bytes × Bytes × Bytes × UInt32) := run do
  let table ← sized 2
  let limit ← num 4
  return (table, ← sized 4, ← rest, UInt32.ofNat limit)

/-! ## Frames -/

def REQ_HEADER_SIZE : Nat := 14

/-- A method is its number. -/
def METHODS : List UInt16 :=
  [0x0100, 0x0101, 0x0102, 0x0103, 0x0104, 0x0105, 0x0200, 0x0201, 0x0202, 0x0203, 0x0204, 0x0205, 0x0206, 0x0207,
    0x0208, 0x0300, 0x0301, 0x0400, 0x0401, 0xff00]

def from_u16 (val : UInt16) : Option UInt16 := if val ∈ METHODS then some val else none

def request_header (req_id : UInt64) (method : UInt16) (payload_len : Nat) : Bytes :=
  le 8 req_id.toNat ++ le 2 method.toNat ++ le 4 payload_len

def encode_request (req_id : UInt64) (method : UInt16) (payload : Bytes) : Bytes :=
  request_header req_id method payload.length ++ payload

def encode_request_bounded (req_id : UInt64) (method : UInt16) (payload : Bytes) (message_maximum : Nat) :
    Option Bytes :=
  if framed_payload_len_valid payload.length REQ_HEADER_SIZE message_maximum then
    some (encode_request req_id method payload)
  else none

def decode_request : Bytes → Option (UInt64 × UInt16 × Bytes) := run do
  let req_id ← num 8
  let method_raw ← num 2
  let payload_len ← num 4
  match from_u16 (UInt16.ofNat method_raw) with
  | none => throw ()
  | some method => return (UInt64.ofNat req_id, method, ← take () payload_len)

/-- `output[at..].copy_from_slice(b)` -/
def copied (output : Bytes) (at_ : Nat) (b : Bytes) : Bytes := output.take at_ ++ b ++ output.drop (at_ + b.length)

def write_part (acc : Nat × Bytes) (part : Bytes) : Option (Nat × Bytes) := do
  let stop ← checked_add acc.1 part.length
  some (stop, copied acc.2 acc.1 part)

/-- The length of the frame, and the storage afterwards. -/
def encode_request_parts_into_bounded (req_id : UInt64) (method : UInt16) (parts : List Bytes) (maximum : Nat)
    (output : Bytes) : Option (Nat × Bytes) := do
  let payload_len ← parts.foldlM (fun total part => checked_add total part.length) 0
  guard (framed_payload_len_valid payload_len REQ_HEADER_SIZE maximum)
  let length ← checked_add REQ_HEADER_SIZE payload_len
  guard (length ≤ output.length)
  guard (payload_len < 2 ^ 32)
  let header := request_header req_id method payload_len
  let (_, output) ← parts.foldlM write_part (REQ_HEADER_SIZE, copied output 0 header)
  some (length, output)

/-! ## Round trips -/

variable {α β : Type} {k n : Nat} {b : Bytes}

theorem num_reads (h : n < 256 ^ k) : Reads (num k) (le k n) n := by
  have hread := (take_reads () (le k n)).map ofLe
  rwa [length_le, ofLe_le k n h] at hread

theorem sized_reads (h : b.length < 256 ^ k) : Reads (sized k) (put k b) b := (num_reads h).bind (take_reads () b)

def KvBatchOp.Fits : KvBatchOp → Prop
  | .Put key value => key.length < 2 ^ 32 ∧ value.length < 2 ^ 32
  | .Delete key => key.length < 2 ^ 32

theorem op_reads {op : KvBatchOp} (h : op.Fits) : Reads decode_op (encode_op op) op := by
  cases op with
  | Put key value => exact (take_reads () [0]).bind ((sized_reads h.1).bind ((sized_reads h.2).map _))
  | Delete key =>
    have hkey := sized_reads (k := 4) (b := key) h
    exact (take_reads () [1]).bind (List.append_nil (put 4 key) ▸ hkey.bind (.pure _))

/-- What a reader returns, on any input. -/
def Returns (r : Reader Unit α) (P : α → Prop) : Prop := ∀ input a left, r input = .ok (a, left) → P a

section

variable {r : Reader Unit α} {P : α → Prop}

theorem Returns.bind {f : α → Reader Unit β} {Q : β → Prop} (hr : Returns r P) (hf : ∀ a, P a → Returns (f a) Q) :
    Returns (r >>= f) Q := by
  intro input b left h
  obtain ⟨⟨a, mid⟩, ha, hb⟩ := (except_bind_ok (x := r input)).mp h
  exact hf a (hr _ _ _ ha) _ _ _ hb

theorem Returns.pure {a : α} (h : P a) : Returns (pure a : Reader Unit α) P := by
  rintro input _ left ⟨⟩
  exact h

theorem Returns.run (h : Returns r P) {p : Bytes} {a : α} (hr : run r p = some a) : P a := by
  unfold Kv.run at hr
  rcases hx : r p with e | ⟨a', left⟩
  · rw [hx] at hr
    cases hr
  · rw [hx] at hr
    cases hr
    exact h _ _ _ hx

theorem returns_rest : Returns rest fun _ => True := fun _ _ _ _ => trivial

theorem returns_take : Returns (take () n) (·.length = n) := by
  intro input a left h
  unfold take at h
  split at h
  · cases h
  · cases h
    simp
    omega

theorem returns_num : Returns (num k) (· < 256 ^ k) := by
  unfold num
  rw [map_eq_pure_bind]
  refine returns_take.bind fun l hl => .pure ?_
  have := ofLe_lt l
  rwa [hl] at this

theorem returns_sized : Returns (sized k) (·.length < 256 ^ k) :=
  returns_num.bind fun n hn input b left h => by rwa [returns_take _ _ _ h]

theorem returns_times (h : Returns r P) (n : Nat) : Returns (times r n) fun l => l.length = n ∧ ∀ a ∈ l, P a := by
  induction n with
  | zero => exact .pure ⟨rfl, nofun⟩
  | succ n ih =>
    refine h.bind fun a ha => ih.bind fun l hl => .pure ⟨by simp [hl.1], ?_⟩
    simpa using ⟨ha, hl.2⟩

end

theorem returns_op : Returns decode_op KvBatchOp.Fits := by
  refine returns_take.bind fun tag _ => returns_sized.bind fun key hkey => ?_
  split
  · exact returns_sized.bind fun value hvalue => .pure ⟨hkey, hvalue⟩
  · exact .pure hkey
  · intro input a left h
    cases h

inductive KvRequest where
  | put (table key value : Bytes)
  | get (table key : Bytes)
  | delete (table key : Bytes)
  | list_keys (table pfx : Bytes)
  | write_batch (table : Bytes) (ops : List KvBatchOp)
  | multi_get (table : Bytes) (keys : List Bytes)
  | scan (table start stop : Bytes) (limit : UInt32)

namespace KvRequest

/-- The host reads what was written. -/
def Unchanged : KvRequest → Prop
  | put table key value => decode_kv_put_req (encode_kv_put_req table key value) = some (table, key, value)
  | get table key => decode_kv_get_req (encode_kv_get_req table key) = some (table, key)
  | delete table key => decode_kv_delete_req (encode_kv_delete_req table key) = some (table, key)
  | list_keys table pfx => decode_kv_list_keys_req (encode_kv_list_keys_req table pfx) = some (table, pfx)
  | write_batch table ops => decode_kv_write_batch_req (encode_kv_write_batch_req table ops) = some (table, ops)
  | multi_get table keys => decode_kv_multi_get_req (encode_kv_multi_get_req table keys) = some (table, keys)
  | scan table start stop limit =>
    decode_kv_scan_req (encode_kv_scan_req table start stop limit) = some (table, start, stop, limit)

/-- Every length has room where it is written. -/
def Fits : KvRequest → Prop
  | put table key _ => table.length < 2 ^ 16 ∧ key.length < 2 ^ 32
  | get table _ => table.length < 2 ^ 16
  | delete table _ => table.length < 2 ^ 16
  | list_keys table _ => table.length < 2 ^ 16
  | write_batch table ops => table.length < 2 ^ 16 ∧ ops.length < 2 ^ 32 ∧ ∀ op ∈ ops, op.Fits
  | multi_get table keys => table.length < 2 ^ 16 ∧ keys.length < 2 ^ 32 ∧ ∀ key ∈ keys, key.length < 2 ^ 32
  | scan table start _ _ => table.length < 2 ^ 16 ∧ start.length < 2 ^ 32

end KvRequest

theorem get_unchanged_iff (table key : Bytes) :
    decode_kv_get_req (encode_kv_get_req table key) = some (table, key) ↔ table.length < 2 ^ 16 := by
  constructor
  · refine Returns.run (P := fun x : Bytes × Bytes => x.1.length < 2 ^ 16) ?_
    exact returns_sized.bind fun _ htable => returns_rest.bind fun _ _ => .pure htable
  · intro htable
    unfold decode_kv_get_req encode_kv_get_req run
    rw [(sized_reads htable).step]
    rfl

theorem write_batch_unchanged {table : Bytes} {ops : List KvBatchOp} (htable : table.length < 2 ^ 16)
    (hcount : ops.length < 2 ^ 32) (hops : ∀ op ∈ ops, op.Fits) :
    decode_kv_write_batch_req (encode_kv_write_batch_req table ops) = some (table, ops) := by
  have hread := times_reads (w := encode_op) (f := id) fun op hop => op_reads (hops op hop)
  unfold decode_kv_write_batch_req encode_kv_write_batch_req run
  rw [(sized_reads htable).step, (num_reads hcount).step, ← List.append_nil (ops.flatMap _), hread.step, List.map_id]
  rfl

theorem unchanged_iff (r : KvRequest) : r.Unchanged ↔ r.Fits := by
  cases r with
  | put table key value =>
    constructor
    · refine Returns.run (P := fun (t, k, v) => (KvRequest.put t k v).Fits) ?_
      exact returns_sized.bind fun _ htable => returns_sized.bind fun _ hkey =>
        returns_rest.bind fun _ _ => .pure ⟨htable, hkey⟩
    · rintro ⟨htable, hkey⟩
      show decode_kv_put_req (encode_kv_put_req table key value) = _
      unfold decode_kv_put_req encode_kv_put_req run
      rw [(sized_reads htable).step, (sized_reads hkey).step]
      rfl
  | get table key => exact get_unchanged_iff table key
  | delete table key => exact get_unchanged_iff table key
  | list_keys table pfx => exact get_unchanged_iff table pfx
  | write_batch table ops =>
    constructor
    · refine Returns.run (P := fun (t, ops) => (KvRequest.write_batch t ops).Fits) ?_
      exact returns_sized.bind fun _ htable => returns_num.bind fun n hn =>
        (returns_times returns_op n).bind fun ops hops => .pure ⟨htable, hops.1.trans_lt hn, hops.2⟩
    · exact fun h => write_batch_unchanged h.1 h.2.1 h.2.2
  | multi_get table keys =>
    constructor
    · refine Returns.run (P := fun (t, ks) => (KvRequest.multi_get t ks).Fits) ?_
      exact returns_sized.bind fun _ htable => returns_num.bind fun n hn =>
        (returns_times returns_sized n).bind fun keys hkeys => .pure ⟨htable, hkeys.1.trans_lt hn, hkeys.2⟩
    · rintro ⟨htable, hcount, hkeys⟩
      have hread := times_reads (w := put 4) (f := id) fun key hkey => sized_reads (k := 4) (hkeys key hkey)
      show decode_kv_multi_get_req (encode_kv_multi_get_req table keys) = _
      unfold decode_kv_multi_get_req encode_kv_multi_get_req run
      rw [(sized_reads htable).step, (num_reads hcount).step, ← List.append_nil (keys.flatMap _), hread.step,
        List.map_id]
      rfl
  | scan table start stop limit =>
    constructor
    · refine Returns.run (P := fun (t, a, b, n) => (KvRequest.scan t a b n).Fits) ?_
      exact returns_sized.bind fun _ htable => returns_num.bind fun _ _ => returns_sized.bind
        fun _ hstart => returns_rest.bind fun _ _ => .pure ⟨htable, hstart⟩
    · rintro ⟨htable, hstart⟩
      show decode_kv_scan_req (encode_kv_scan_req table start stop limit) = _
      unfold decode_kv_scan_req encode_kv_scan_req run
      rw [(sized_reads htable).step, (num_reads limit.toNat_lt).step, (sized_reads hstart).step, UInt32.ofNat_toNat]
      rfl

/-! ## Parts -/

theorem sum_parts {parts : List Bytes} {total : Nat} (h : total < 2 ^ 64) :
    parts.foldlM (fun total part => checked_add total part.length) total = checked_add total parts.flatten.length := by
  induction parts generalizing total with
  | nil => exact (if_pos h).symm
  | cons p ps ih =>
    rw [List.foldlM_cons, List.flatten_cons, List.length_append]
    by_cases hp : total + p.length < 2 ^ 64
    · rw [checked_add_some hp, Option.bind_eq_bind, Option.bind_some, ih hp, checked_add, checked_add, Nat.add_assoc]
    · unfold checked_add
      rw [if_neg hp, if_neg (by omega)]
      rfl

theorem write_parts {parts : List Bytes} {written left : Bytes} (hroom : parts.flatten.length ≤ left.length)
    (hsmall : written.length + parts.flatten.length < 2 ^ 64) :
    parts.foldlM write_part (written.length, written ++ left) = some (written.length + parts.flatten.length,
      written ++ parts.flatten ++ left.drop parts.flatten.length) := by
  induction parts generalizing written left with
  | nil => simp
  | cons p ps ih =>
    rw [List.flatten_cons, List.length_append] at hroom hsmall
    have hcopied : copied (written ++ left) written.length p = (written ++ p) ++ left.drop p.length := by
      simp [copied, List.drop_append]
    have hstep : write_part (written.length, written ++ left) p =
        some ((written ++ p).length, (written ++ p) ++ left.drop p.length) := by
      rw [write_part, checked_add_some (by omega), hcopied, List.length_append]
      rfl
    rw [List.foldlM_cons, hstep, Option.bind_eq_bind, Option.bind_some,
      ih (by rw [List.length_drop]; omega) (by rw [List.length_append]; omega)]
    simp [Nat.add_assoc]

theorem length_header (req_id : UInt64) (method : UInt16) (n : Nat) :
    (request_header req_id method n).length = REQ_HEADER_SIZE := by
  simp [request_header, REQ_HEADER_SIZE]

theorem parts_eq (req_id : UInt64) (method : UInt16) (parts : List Bytes) (maximum : Nat) (output : Bytes) :
    encode_request_parts_into_bounded req_id method parts maximum output =
      ((encode_request_bounded req_id method parts.flatten maximum).filter (·.length ≤ output.length)).map
        fun frame => (frame.length, frame ++ output.drop frame.length) := by
  unfold encode_request_parts_into_bounded encode_request_bounded
  rw [sum_parts (by decide)]
  by_cases hvalid : framed_payload_len_valid parts.flatten.length REQ_HEADER_SIZE maximum = true
  swap
  · rw [if_neg hvalid]
    unfold checked_add
    split <;> simp [-List.length_flatten, hvalid]
  have hlt : parts.flatten.length < 2 ^ 32 := by
    simp only [framed_payload_len_valid, Bool.and_eq_true, decide_eq_true_eq] at hvalid
    exact hvalid.1
  have hsmall : REQ_HEADER_SIZE + parts.flatten.length < 2 ^ 64 := by
    unfold REQ_HEADER_SIZE
    omega
  have hlen : (encode_request req_id method parts.flatten).length = REQ_HEADER_SIZE + parts.flatten.length := by
    rw [encode_request, List.length_append, length_header]
  rw [if_pos hvalid, checked_add_some (by omega), Nat.zero_add]
  simp only [Option.bind_eq_bind, Option.bind_some, hvalid, hlt, guard, if_true, checked_add_some hsmall]
  by_cases hroom : REQ_HEADER_SIZE + parts.flatten.length ≤ output.length
  · have hwrite := @write_parts parts (request_header req_id method parts.flatten.length)
      (output.drop REQ_HEADER_SIZE) (by rw [List.length_drop]; omega) (by rwa [length_header])
    rw [length_header, List.drop_drop] at hwrite
    rw [if_pos hroom, Option.filter_some_pos (by simpa [hlen] using hroom)]
    simp [-List.length_flatten, copied, length_header, hwrite, encode_request]
  · rw [if_neg hroom, Option.filter_some_neg (by simpa [hlen] using hroom)]
    rfl

theorem decode_encode_request {req_id : UInt64} {method : UInt16} {payload frame : Bytes} {maximum : Nat}
    (hmethod : method ∈ METHODS) (h : encode_request_bounded req_id method payload maximum = some frame) :
    decode_request frame = some (req_id, method, payload) := by
  unfold encode_request_bounded at h
  split at h
  · rename_i hvalid
    cases h
    simp only [framed_payload_len_valid, Bool.and_eq_true, decide_eq_true_eq] at hvalid
    have hpayload := take_reads () payload []
    rw [List.append_nil] at hpayload
    unfold decode_request encode_request request_header run
    simp only [List.append_assoc]
    rw [(num_reads req_id.toNat_lt).step, (num_reads method.toNat_lt).step, (num_reads hvalid.1).step,
      UInt16.ofNat_toNat, from_u16, if_pos hmethod]
    simp only [bind, StateT.bind, hpayload]
    simp [Except.bind, Except.toOption, pure, StateT.pure, Except.pure]
  · cases h

/-- A request reaches the host unchanged exactly if its lengths fit; a frame of parts is the frame of the whole, and
the host takes out of it what was put in. -/
theorem requests_unchanged_iff (r : KvRequest) (req_id : UInt64) (method : UInt16) (parts : List Bytes) (maximum : Nat)
    (output : Bytes) : (r.Unchanged ↔ r.Fits) ∧
    encode_request_parts_into_bounded req_id method parts maximum output =
      ((encode_request_bounded req_id method parts.flatten maximum).filter (·.length ≤ output.length)).map
        (fun frame => (frame.length, frame ++ output.drop frame.length)) ∧
    (method ∈ METHODS → ∀ frame ∈ encode_request_bounded req_id method parts.flatten maximum,
      decode_request frame = some (req_id, method, parts.flatten)) :=
  ⟨unchanged_iff r, parts_eq req_id method parts maximum output, fun hmethod _ h => decode_encode_request hmethod h⟩

/-- The table reads as empty, and its bytes as the key. -/
theorem long_table_is_lost : decode_kv_get_req (encode_kv_get_req (List.replicate 65536 7) []) =
    some ([], List.replicate 65536 7) := by
  have hread : Reads (sized 2) (le 2 65536) [] := (num_reads (n := 0) (k := 2) (by decide)).bind (take_reads () [])
  unfold decode_kv_get_req encode_kv_get_req put run
  rw [List.append_nil, List.length_replicate, hread.step]
  rfl

end EnclaveOs.Rpc.Kv
