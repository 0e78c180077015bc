import EnclaveOs.Lib.Bytes
import EnclaveOs.Lib.Search
import EnclaveOs.Egress.Dependencies

/-! # The response of a blocking fetch -/

namespace EnclaveOs.Egress

open Lib

variable [Unicode]

def MAX_RESPONSE_HEADER_BYTES : Nat := 16 * 1024

def MAX_RESPONSE_HEADERS : Nat := 128

def crlf : Bytes := [13, 10]

def header_end : Bytes := [13, 10, 13, 10]

/-! ## Text of the header -/

def split_lines : List Char → List (List Char)
  | [] => [[]]
  | '\r' :: '\n' :: rest => [] :: split_lines rest
  | c :: rest =>
    match split_lines rest with
    | [] => [[c]]
    | line :: lines => (c :: line) :: lines

def split_whitespace (s : List Char) : List (List Char) := (s.splitOnP Unicode.is_whitespace).filter (· ≠ [])

def trim (s : List Char) : List Char := s.rdropWhile Unicode.is_whitespace |>.dropWhile Unicode.is_whitespace

def split_colon (s : List Char) : Option (List Char × List Char) :=
  if ':' ∈ s then some (s.takeWhile (· ≠ ':'), (s.dropWhile (· ≠ ':')).tail) else none

def eq_ignore_ascii_case (a b : List Char) : Bool := a.map Char.toLower = b.map Char.toLower

def digit_value (c : Char) : Option Nat :=
  if '0' ≤ c ∧ c ≤ '9' then some (c.toNat - '0'.toNat)
  else if 'a' ≤ c ∧ c ≤ 'z' then some (c.toNat - 'a'.toNat + 10)
  else if 'A' ≤ c ∧ c ≤ 'Z' then some (c.toNat - 'A'.toNat + 10)
  else none

def digits_value (radix : Nat) (s : List Char) : Option Nat :=
  s.foldlM (fun acc c => do
    let d ← digit_value c
    guard (d < radix)
    return acc * radix + d) 0

/-- For an unsigned type of `bound` values. One plus sign may stand in front. -/
def from_str_radix (radix bound : Nat) (s : List Char) : Option Nat := do
  let s := match s with
    | '+' :: rest => rest
    | s => s
  guard (s ≠ [])
  let n ← digits_value radix s
  guard (n < bound)
  return n

structure Header where
  status : Nat
  headers : List (String × String)
  chunked : Bool
  content_length : Option Nat
  deriving DecidableEq, Repr

def graphic (b : UInt8) : Bool := 0x21 ≤ b && b ≤ 0x7e

def header_line (h : Header) (line : List Char) : Except String Header := do
  match split_colon line with
  | none => throw "invalid HTTP response: malformed header line"
  | some (name, value) =>
    if h.headers.length ≥ MAX_RESPONSE_HEADERS || name.isEmpty ||
        (utf8 (String.ofList name)).any (fun b => !graphic b || b == 0x3a) then
      throw "invalid HTTP response: invalid or excessive headers"
    let value := trim value
    let chunked ←
      if eq_ignore_ascii_case name "transfer-encoding".toList then
        if !eq_ignore_ascii_case value "chunked".toList || h.chunked then
          throw "invalid HTTP response: unsupported transfer encoding"
        else pure true
      else pure h.chunked
    let content_length ←
      if eq_ignore_ascii_case name "content-length".toList then
        if h.content_length.isSome then throw "invalid HTTP response: duplicate content-length"
        else
          match from_str_radix 10 (2 ^ 64) value with
          | some n => pure (some n)
          | none => throw "invalid HTTP response: bad content-length"
      else pure h.content_length
    return { h with
      headers := h.headers ++ [(String.ofList name, String.ofList value)], chunked, content_length }

def parse_status (line : List Char) : Except String Nat :=
  match (split_whitespace line)[1]? with
  | none => throw "invalid HTTP response: no status"
  | some word =>
    match from_str_radix 10 (2 ^ 16) word with
    | some n => pure n
    | none => throw "invalid HTTP status code"

def parse_header (header_bytes : Bytes) : Except String Header := do
  match from_utf8 header_bytes with
  | none => throw "invalid HTTP response: non-UTF-8 headers"
  | some header_text =>
    let lines := split_lines header_text.toList
    let status ← parse_status (lines.headD [])
    let header ← lines.tail.foldlM header_line ⟨status, [], false, none⟩
    if header.chunked && header.content_length.isSome then
      throw "invalid HTTP response: conflicting body framing"
    return header

def chunk_size (size_field : Bytes) : Except String Nat := do
  match from_utf8 (size_field.takeWhile (· ≠ 0x3b)) with
  | none => throw "chunked: non-UTF-8 size"
  | some size_hex =>
    match from_str_radix 16 (2 ^ 64) (trim size_hex.toList) with
    | some n => return n
    | none => throw "chunked: invalid hex size"

def dechunk_loop (maximum : Nat) (data output : Bytes) : Except String Bytes :=
  match _hline : position crlf data with
  | none => .error "chunked: missing size CRLF"
  | some newline =>
    match chunk_size (data.take newline) with
    | .error e => .error e
    | .ok size =>
      let rest := data.drop (newline + 2)
      if size = 0 then
        if rest ≠ crlf then .error "chunked: missing final CRLF or unsupported trailers" else .ok output
      else if size + 2 ≥ 2 ^ 64 then .error "chunked: declared size overflow"
      else if rest.length < size + 2 then .error "chunked: truncated chunk"
      else if slice rest size (size + 2) ≠ crlf then .error "chunked: missing data CRLF"
      else if (output ++ rest.take size).length > maximum then .error "chunked: body exceeds bound"
      else dechunk_loop maximum (rest.drop (size + 2)) (output ++ rest.take size)
termination_by data.length
decreasing_by
  have := position_fits _hline
  simp only [crlf, List.length_cons, List.length_nil] at this
  simp only [List.length_drop]
  omega

def dechunk (data : Bytes) (maximum : Nat) : Except String Bytes := dechunk_loop maximum data []

structure HttpResponse where
  status : Nat
  headers : List (String × String)
  raw_header_section : Bytes
  body : Bytes
  deriving DecidableEq, Repr

def parse_body (header : Header) (raw_body : Bytes) (maximum : Nat) : Except String Bytes :=
  if header.chunked then dechunk raw_body maximum
  else if header.content_length.any (· ≠ raw_body.length) then
    .error "invalid HTTP response: truncated or excess body"
  else .ok raw_body

def parse_http_response_with_limit (data : Bytes) (maximum : Nat) : Except String HttpResponse := do
  match position header_end data with
  | none => throw "invalid HTTP response: no header terminator"
  | some separator =>
    if separator + 4 > MAX_RESPONSE_HEADER_BYTES then
      throw "invalid HTTP response: header section exceeds bound"
    let raw_body := data.drop (separator + 4)
    if raw_body.length > maximum then throw "invalid HTTP response: body exceeds bound"
    let header ← parse_header (data.take separator)
    let body ← parse_body header raw_body maximum
    return ⟨header.status, header.headers, data.take (separator + 4), body⟩

inductive HttpsFetchFailurePhase
  | ambiguousAfterDispatch
  | invalidResponseAfterDispatch
  deriving DecidableEq, Repr

structure HttpsFetchError where
  phase : HttpsFetchFailurePhase
  detail : String
  deriving DecidableEq, Repr

def ambiguous (detail : String) : HttpsFetchError := ⟨.ambiguousAfterDispatch, detail⟩

def invalid (detail : String) : HttpsFetchError := ⟨.invalidResponseAfterDispatch, detail⟩

inductive Read
  | data (bytes : Bytes)
  | closed
  | wouldBlock
  | failed (error : String)

/-- `read_tls`, then `process_new_packets`, then the plaintext that is there. -/
inductive Packet
  | stuck
  | unreadable (error : String)
  | rejected (error : String)
  | processed (reads : List Read)

inductive Recv
  | closed
  | failed (error : String)
  | received (packets : List Packet)

structure Collected where
  response_data : Bytes
  header_complete : Bool

def collect (response_limit : Nat) (c : Collected) (read : Bytes) : Except HttpsFetchError Collected :=
  if c.response_data.length + read.length > response_limit + MAX_RESPONSE_HEADER_BYTES then
    .error (invalid "HTTP response exceeds header/body bounds")
  else
    let response_data := c.response_data ++ read
    if c.header_complete then .ok ⟨response_data, true⟩
    else
      let ends := (position header_end response_data).map (· + 4)
      if ends.any (· > MAX_RESPONSE_HEADER_BYTES) ||
          ends.isNone && response_data.length > MAX_RESPONSE_HEADER_BYTES then
        .error (invalid "HTTP response header exceeds bound")
      else .ok ⟨response_data, ends.isSome⟩

def read_plaintext (response_limit : Nat) (c : Collected) : List Read → Except HttpsFetchError Collected
  | [] => .ok c
  | .closed :: _ => .ok c
  | .wouldBlock :: _ => .ok c
  | .failed error :: _ => .error (ambiguous ("TLS plaintext read failed: " ++ error))
  | .data bytes :: reads => do
    let c ← collect response_limit c bytes
    read_plaintext response_limit c reads

def read_packets (response_limit : Nat) (c : Collected) : List Packet → Except HttpsFetchError Collected
  | [] => .ok c
  | .stuck :: _ => .ok c
  | .unreadable error :: _ => .error (ambiguous ("read_tls error: " ++ error))
  | .rejected error :: _ => .error (ambiguous ("TLS error: " ++ error))
  | .processed reads :: packets => do
    let c ← read_plaintext response_limit c reads
    read_packets response_limit c packets

/-- Without an answer the loop still waits. The end of the stream is taken at the host's word. -/
def receive (response_limit : Nat) (c : Collected) : List Recv → Option (Except HttpsFetchError Collected)
  | [] => none
  | .closed :: _ => some (.ok c)
  | .failed error :: _ => some (.error (ambiguous ("network read failed: " ++ error)))
  | .received packets :: answers =>
    match read_packets response_limit c packets with
    | .error e => some (.error e)
    | .ok c => receive response_limit c answers

def fetch_response (response_limit : Nat) (answers : List Recv) : Option (Except HttpsFetchError HttpResponse) :=
  (receive response_limit ⟨[], false⟩ answers).map fun r => do
    let c ← r
    (parse_http_response_with_limit c.response_data response_limit).mapError invalid

end EnclaveOs.Egress
