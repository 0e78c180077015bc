import EnclaveOs.Lib.Checks
import EnclaveOs.Rpc.Polled

/-!
# Read batches of the workers (`honest/get_batch.rs`)

How many records of one size go into a batch: one function divides, another one adds up.
-/

namespace EnclaveOs.Rpc

open Lib (Bytes checked_add checked_add_some)

def HONEST_RESP_HEADER_SIZE : Nat := 42
def MAX_WORKER_STORAGE_BATCH_RECORDS : Nat := 64
def MAX_WORKER_STORAGE_BATCH_TABLE_BYTES : Nat := 256
def MAX_WORKER_STORAGE_BATCH_KEY_BYTES : Nat := 512
def SCOPE_BYTES : Nat := 32
def WORKER_GET_BATCH_RESPONSE_HEADER_BYTES : Nat := 2
def WORKER_GET_BATCH_VALUE_HEADER_BYTES : Nat := 4

abbrev Scope := Vector UInt8 SCOPE_BYTES

def checked_sub (x y : Nat) : Option Nat := if y ≤ x then some (x - y) else none

def request_header (table_bytes : Nat) : Option Nat := do
  checked_add (← checked_add SCOPE_BYTES (2 * 2)) table_bytes

def request_record (key_bytes : Nat) : Option Nat := checked_add key_bytes (2 + 4)

def demandRecord (acc : Nat × Nat) (key_bytes : Nat) : Option (Nat × Nat) :=
  if acc.1 = MAX_WORKER_STORAGE_BATCH_RECORDS ∨ key_bytes = 0 ∨ MAX_WORKER_STORAGE_BATCH_KEY_BYTES < key_bytes then none
  else do pure (← checked_add acc.1 1, ← checked_add acc.2 (← request_record key_bytes))

def worker_get_batch_request_demand (table_bytes : Nat) (key_lengths : List Nat) : Option Nat :=
  if table_bytes = 0 ∨ MAX_WORKER_STORAGE_BATCH_TABLE_BYTES < table_bytes then none
  else do
    let (count, length) ← key_lengths.foldlM demandRecord (0, ← request_header table_bytes)
    if count = 0 then none else some length

def worker_get_batch_geometry (table : Bytes) (key value request_maximum response_maximum : Nat) :
    Option (Nat × Nat) :=
  if table.length = 0 ∨ MAX_WORKER_STORAGE_BATCH_TABLE_BYTES < table.length ∨ key = 0 ∨
      MAX_WORKER_STORAGE_BATCH_KEY_BYTES < key ∨ value = 0 then none
  else if 2 ^ 32 ≤ value then none
  else do
    let header ← request_header table.length
    let record ← request_record key
    let request_payload ← checked_sub (min (← checked_sub request_maximum HONEST_REQ_HEADER_SIZE)
      MAX_HONEST_RPC_PAYLOAD_BYTES) 1
    let response_payload := min (← checked_sub response_maximum HONEST_RESP_HEADER_SIZE) MAX_HONEST_RPC_PAYLOAD_BYTES
    let count := min (min MAX_WORKER_STORAGE_BATCH_RECORDS ((← checked_sub request_payload header) / record))
      ((← checked_sub response_payload WORKER_GET_BATCH_RESPONSE_HEADER_BYTES) /
        (← checked_add value WORKER_GET_BATCH_VALUE_HEADER_BYTES))
    if count = 0 then none
    else do pure (count, ← worker_get_batch_request_demand table.length (List.replicate count key))

/-- For a key of the first size and a value up to the second. -/
def replyRecord (reply : Nat) (x : Nat × Nat) : Option Nat :=
  if x.1 = 0 ∨ MAX_WORKER_STORAGE_BATCH_KEY_BYTES < x.1 ∨ x.2 = 0 then none
  else if 2 ^ 32 ≤ x.2 then none
  else do checked_add (← checked_add reply WORKER_GET_BATCH_VALUE_HEADER_BYTES) x.2

def worker_get_batch_encoded_len (scope : Scope) (table : Bytes) (requests : List (Bytes × Nat))
    (request_maximum response_maximum : Nat) : Option Nat :=
  if scope = Vector.replicate SCOPE_BYTES 0 ∨ table.length = 0 ∨ MAX_WORKER_STORAGE_BATCH_TABLE_BYTES < table.length ∨
      requests.length = 0 ∨ MAX_WORKER_STORAGE_BATCH_RECORDS < requests.length then none
  else do
    let length ← worker_get_batch_request_demand table.length (requests.map (·.1.length))
    let reply ← (requests.map fun x => (x.1.length, x.2)).foldlM replyRecord WORKER_GET_BATCH_RESPONSE_HEADER_BYTES
    let payload ← checked_add length 1
    if !framed_payload_len_valid payload HONEST_REQ_HEADER_SIZE request_maximum ||
        MAX_HONEST_RPC_PAYLOAD_BYTES < payload || MAX_HONEST_RPC_PAYLOAD_BYTES < reply ||
        !framed_payload_len_valid reply HONEST_RESP_HEADER_SIZE response_maximum then none
    else some length

/-! ## Records of one size -/

variable {table : Bytes} {key value q r n d : Nat} {scope : Scope} {requests : List (Bytes × Nat)}

/-- The length of `n` records. -/
def size (table : Bytes) (key n : Nat) : Nat := 36 + table.length + n * (key + 6)

/-- `n` records fit into frames of `q` and `r` bytes. -/
def Fits (table : Bytes) (key value q r n : Nat) : Prop :=
  (0 < table.length ∧ table.length ≤ 256) ∧ (0 < key ∧ key ≤ 512) ∧ (0 < value ∧ value < 2 ^ 32) ∧
    size table key n + 1 ≤ min (q - 38) (1024 * 1024) ∧ 2 + n * (value + 4) ≤ min (r - 42) (1024 * 1024)

def Uniform (n key value : Nat) (requests : List (Bytes × Nat)) : Prop :=
  requests.map (fun x => (x.1.length, x.2)) = List.replicate n (key, value)

theorem foldlM_replicate {σ α : Type} {f : σ → α → Option σ} {a : α} (s : Nat → σ)
    (h : ∀ i < n, f (s i) a = some (s (i + 1))) : (List.replicate n a).foldlM f (s 0) = some (s n) := by
  induction n with
  | zero => rfl
  | succ n ih =>
    rw [List.replicate_succ', List.foldlM_append, ih fun i hi => h i (by omega)]
    simpa using h n (by omega)

theorem checked_sub_some {x y : Nat} (h : y ≤ x) : checked_sub x y = some (x - y) := if_pos h

theorem request_header_some (h : table.length ≤ 256) : request_header table.length = some (36 + table.length) := by
  unfold request_header SCOPE_BYTES
  rw [checked_add_some (by omega), Option.bind_eq_bind, Option.bind_some, checked_add_some (by omega)]

theorem request_demand_replicate (htable : 0 < table.length ∧ table.length ≤ 256) (hkey : 0 < key ∧ key ≤ 512)
    (hn : 0 < n ∧ n ≤ 64) :
    worker_get_batch_request_demand table.length (List.replicate n key) = some (size table key n) := by
  have hfold := foldlM_replicate (n := n) (f := demandRecord) (a := key) (fun i => (i, size table key i)) fun i hi => by
    have hbound : i * (key + 6) ≤ 64 * (512 + 6) := Nat.mul_le_mul (by omega) (by omega)
    unfold demandRecord request_record size
    rw [if_neg (by simp [MAX_WORKER_STORAGE_BATCH_RECORDS, MAX_WORKER_STORAGE_BATCH_KEY_BYTES]; omega)]
    simp only [Option.bind_eq_bind, checked_add_some (show i + 1 < 2 ^ 64 by omega), Option.bind_some,
      checked_add_some (show key + (2 + 4) < 2 ^ 64 by omega)]
    rw [checked_add_some (by omega), Nat.add_mul, Nat.one_mul, Nat.add_assoc (36 + _)]
    rfl
  simp only [size, Nat.zero_mul, Nat.add_zero] at hfold
  unfold worker_get_batch_request_demand
  rw [if_neg (by unfold MAX_WORKER_STORAGE_BATCH_TABLE_BYTES; omega), request_header_some htable.2]
  simp only [Option.bind_eq_bind, Option.bind_some, hfold]
  exact if_neg (by omega)

theorem encoded_len_uniform (hu : Uniform n key value requests) :
    worker_get_batch_encoded_len scope table requests q r = some d ↔ scope ≠ Vector.replicate SCOPE_BYTES 0 ∧
      (0 < n ∧ n ≤ 64) ∧ Fits table key value q r n ∧ size table key n = d := by
  have hlen : requests.length = n := by simpa using congrArg List.length hu
  have hkeys : requests.map (·.1.length) = List.replicate n key := by
    simpa [Function.comp_def] using congrArg (List.map Prod.fst) hu
  unfold worker_get_batch_encoded_len MAX_WORKER_STORAGE_BATCH_TABLE_BYTES MAX_WORKER_STORAGE_BATCH_RECORDS
    WORKER_GET_BATCH_RESPONSE_HEADER_BYTES
  rw [Option.ite_none_left_eq_some, hkeys, hlen, hu]
  by_cases hn : 0 < n ∧ n ≤ 64
  swap
  · exact iff_of_false (fun h => hn (by omega)) fun h => hn h.2.1
  by_cases hrange : (0 < table.length ∧ table.length ≤ 256) ∧ (0 < key ∧ key ≤ 512) ∧ 0 < value ∧ value < 2 ^ 32
  swap
  · refine iff_of_false (fun ⟨hg, h⟩ => hrange ?_) fun h => hrange ⟨h.2.2.1.1, h.2.2.1.2.1, h.2.2.1.2.2.1⟩
    obtain ⟨m, rfl⟩ := Nat.exists_eq_add_of_lt hn.1
    rw [Nat.zero_add, List.replicate_succ (n := m) (a := (key, value))] at h
    simp only [Option.bind_eq_bind, Option.bind_eq_some_iff, List.foldlM_cons, replyRecord,
      Option.ite_none_left_eq_some, MAX_WORKER_STORAGE_BATCH_KEY_BYTES] at h
    obtain ⟨_, _, _, ⟨_, ⟨hkey, hvalue, -⟩, -⟩, -⟩ := h
    omega
  obtain ⟨htable, hkey, hvalue⟩ := hrange
  have hreply := foldlM_replicate (n := n) (f := replyRecord) (a := (key, value)) (fun i => 2 + i * (value + 4))
    fun i hi => by
    have hbound : i * (value + 4) ≤ 64 * (2 ^ 32 + 4) := Nat.mul_le_mul (by omega) (by omega)
    unfold replyRecord MAX_WORKER_STORAGE_BATCH_KEY_BYTES WORKER_GET_BATCH_VALUE_HEADER_BYTES
    rw [if_neg (by omega), if_neg (by omega), checked_add_some (by omega), Option.bind_eq_bind, Option.bind_some,
      checked_add_some (by omega), Nat.add_mul, Nat.one_mul]
    congr 1
    omega
  have hsize : n * (key + 6) ≤ 64 * (512 + 6) := Nat.mul_le_mul hn.2 (by omega)
  rw [Nat.zero_mul] at hreply
  simp only [request_demand_replicate htable hkey hn, hreply, Option.bind_eq_bind, Option.bind_some]
  rw [checked_add_some (by unfold size; omega), Option.bind_some]
  simp only [framed_payload_len_valid, Option.ite_none_left_eq_some, Bool.or_eq_true, Bool.not_eq_true',
    Bool.and_eq_false_iff, decide_eq_false_iff_not, decide_eq_true_eq, Option.some.injEq, Fits]
  unfold HONEST_REQ_HEADER_SIZE HONEST_RESP_HEADER_SIZE MAX_HONEST_RPC_PAYLOAD_BYTES MAX_MSG_SIZE
  by_cases hscope : scope = Vector.replicate SCOPE_BYTES 0
  · simp [hscope]
  · simp only [hscope, false_or, ne_eq, not_false_eq_true, true_and]
    omega

theorem geometry_cases (table : Bytes) (key value q r : Nat) :
    (worker_get_batch_geometry table key value q r = none ∧ ∀ n, 0 < n → ¬ Fits table key value q r n) ∨
    ∃ c, 0 < c ∧ c ≤ 64 ∧ worker_get_batch_geometry table key value q r = some (c, size table key c) ∧
      ∀ n, n ≤ 64 → (Fits table key value q r n ↔ n ≤ c) := by
  unfold worker_get_batch_geometry MAX_WORKER_STORAGE_BATCH_TABLE_BYTES MAX_WORKER_STORAGE_BATCH_KEY_BYTES
  by_cases hrange : (0 < table.length ∧ table.length ≤ 256) ∧ (0 < key ∧ key ≤ 512) ∧ 0 < value ∧ value < 2 ^ 32
  swap
  · refine .inl ⟨?_, fun n _ hf => hrange ⟨hf.1, hf.2.1, hf.2.2.1⟩⟩
    split
    · rfl
    · rw [if_pos (by omega)]
  obtain ⟨htable, hkey, hvalue⟩ := hrange
  have hrecord : request_record key = some (key + 6) := checked_add_some (by omega)
  rw [if_neg (by omega), if_neg (by omega), request_header_some htable.2, hrecord]
  unfold HONEST_REQ_HEADER_SIZE HONEST_RESP_HEADER_SIZE WORKER_GET_BATCH_RESPONSE_HEADER_BYTES
    MAX_HONEST_RPC_PAYLOAD_BYTES WORKER_GET_BATCH_VALUE_HEADER_BYTES MAX_WORKER_STORAGE_BATCH_RECORDS
  by_cases hroom : 36 + table.length + 39 ≤ q ∧ 44 ≤ r
  swap
  · refine .inl ⟨?_, fun n _ hf => hroom (by unfold Fits size at hf; omega)⟩
    refine Option.eq_none_iff_forall_ne_some.mpr fun x hx => ?_
    simp only [Option.bind_eq_bind, Option.bind_some, Option.bind_eq_some_iff, checked_sub,
      Option.ite_none_right_eq_some, Option.some.injEq] at hx
    obtain ⟨_, ⟨h1, rfl⟩, _, ⟨h2, rfl⟩, _, ⟨h3, rfl⟩, _, ⟨h4, rfl⟩, _, ⟨h5, rfl⟩, -⟩ := hx
    omega
  rw [checked_sub_some (show 38 ≤ q by omega), checked_sub_some (show 42 ≤ r by omega)]
  simp only [Option.bind_eq_bind, Option.bind_some]
  rw [checked_sub_some (by omega), Option.bind_some, checked_sub_some (by omega), Option.bind_some,
    checked_sub_some (by omega), Option.bind_some, checked_add_some (by omega), Option.bind_some]
  -- a division says how many records there is room for
  have hfits (n : Nat) : Fits table key value q r n ↔
      n ≤ (min (q - 38) (1024 * 1024) - 1 - (36 + table.length)) / (key + 6) ∧
        n ≤ (min (r - 42) (1024 * 1024) - 2) / (value + 4) := by
    rw [Nat.le_div_iff_mul_le (by omega), Nat.le_div_iff_mul_le (by omega)]
    unfold Fits size
    omega
  generalize (min (q - 38) (1024 * 1024) - 1 - (36 + table.length)) / (key + 6) = a at *
  generalize (min (r - 42) (1024 * 1024) - 2) / (value + 4) = b at *
  by_cases hzero : min (min 64 a) b = 0
  · refine .inl ⟨if_pos hzero, fun n hn hf => ?_⟩
    have := (hfits n).mp hf
    omega
  · refine .inr ⟨min (min 64 a) b, by omega, by omega, ?_, fun n hn => ?_⟩
    · rw [if_neg hzero, request_demand_replicate htable hkey (by omega)]
      rfl
    · rw [hfits]
      omega

/-- Some batch of `n` such records is accepted, with length `d`. -/
def Accepted (table : Bytes) (key value q r n d : Nat) : Prop :=
  ∃ scope requests, Uniform n key value requests ∧ worker_get_batch_encoded_len scope table requests q r = some d

theorem accepted_iff : Accepted table key value q r n d ↔
    (0 < n ∧ n ≤ 64) ∧ Fits table key value q r n ∧ size table key n = d := by
  constructor
  · rintro ⟨scope, requests, hu, h⟩
    exact ((encoded_len_uniform hu).mp h).2
  · intro h
    have hu : Uniform n key value (List.replicate n (List.replicate key (0 : UInt8), value)) := by simp [Uniform]
    exact ⟨Vector.replicate SCOPE_BYTES 1, _, hu, (encoded_len_uniform hu).mpr ⟨by decide, h⟩⟩

/-- The geometry is the greatest number of records of one size that is accepted, with their length. Whether a
batch is accepted depends on the sizes only. -/
theorem geometry_maximal (table : Bytes) (key value q r : Nat) :
    (∀ n d, worker_get_batch_geometry table key value q r = some (n, d) ↔
      IsGreatest {m | m ≤ MAX_WORKER_STORAGE_BATCH_RECORDS ∧ ∃ d, Accepted table key value q r m d} n ∧
        Accepted table key value q r n d) ∧
    (worker_get_batch_geometry table key value q r = none ↔ ∀ d, ¬ Accepted table key value q r 1 d) ∧
    ∀ n d scope requests, scope ≠ Vector.replicate SCOPE_BYTES 0 → Uniform n key value requests →
      (worker_get_batch_encoded_len scope table requests q r = some d ↔ Accepted table key value q r n d) := by
  refine and_assoc.mp ⟨?_, fun n d scope requests hscope hu => ?_⟩
  swap
  · rw [encoded_len_uniform hu, accepted_iff]
    exact and_iff_right hscope
  simp only [accepted_iff]
  rcases geometry_cases table key value q r with ⟨hg, hno⟩ | ⟨c, hpos, hle, hg, hfits⟩
  · rw [hg]
    exact ⟨fun n d => iff_of_false nofun fun h => hno n h.2.1.1 h.2.2.1, iff_of_true rfl fun d h => hno 1 one_pos h.2.1⟩
  have hc := (hfits c hle).mpr le_rfl
  have hgreatest : IsGreatest {m | m ≤ MAX_WORKER_STORAGE_BATCH_RECORDS ∧ ∃ d, (0 < m ∧ m ≤ 64) ∧
      Fits table key value q r m ∧ size table key m = d} c := by
    refine ⟨⟨hle, _, ⟨hpos, hle⟩, hc, rfl⟩, ?_⟩
    rintro m ⟨-, d, ⟨-, hle'⟩, hf, -⟩
    exact (hfits m hle').mp hf
  rw [hg]
  refine ⟨fun n d => ?_, iff_of_false nofun fun h => h _ ⟨by omega, (hfits 1 (by omega)).mpr hpos, rfl⟩⟩
  rw [Option.some.injEq, Prod.mk.injEq]
  constructor
  · rintro ⟨rfl, rfl⟩
    exact ⟨hgreatest, ⟨hpos, hle⟩, hc, rfl⟩
  · rintro ⟨hn, -, -, hd⟩
    obtain rfl := hn.unique hgreatest
    exact ⟨rfl, hd⟩

end EnclaveOs.Rpc
