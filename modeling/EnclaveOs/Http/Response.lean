import EnclaveOs.Lib.Checks

/-!
# Response heads (`protocol.rs`)

One function writes the head of a response, into a string, a counter or a bounded buffer.
-/

namespace EnclaveOs.Http

open Lib

abbrev Text := List Char

def size (t : Text) : Nat := (t.map Char.utf8Size).sum

def CRLF : Text := ['\r', '\n']

/-- `contains(['\r', '\n'])` -/
def splits (t : Text) : Bool := t.any fun c => c = '\r' || c = '\n'

structure Head where
  status : UInt16
  content_type : Text
  extra_headers : List (Text × Text)
  content_length : Nat
  close : Bool

def reason (status : UInt16) : String :=
  match status.toNat with
  | 200 => "OK"
  | 400 => "Bad Request"
  | 401 => "Unauthorized"
  | 403 => "Forbidden"
  | 404 => "Not Found"
  | 405 => "Method Not Allowed"
  | 413 => "Payload Too Large"
  | 429 => "Too Many Requests"
  | 500 => "Internal Server Error"
  | _ => "Unknown"

def Head.guarded (h : Head) : List (Text × Text) := h.extra_headers.filter fun e => !(splits e.1 || splits e.2)

/-- What is passed to `write_str`, call by call. -/
def Head.pieces (h : Head) : List Text :=
  ["HTTP/1.1 ".toList, (toString h.status.toNat).toList, " ".toList, (reason h.status).toList,
    "\r\nContent-Type: ".toList, h.content_type, "\r\nContent-Length: ".toList, (toString h.content_length).toList,
    CRLF] ++
  h.guarded.flatMap (fun e => [e.1, ": ".toList, e.2, CRLF]) ++
  (if h.close then ["Connection: close\r\n".toList] else []) ++ [CRLF]

def write_response_head {W : Type} (write_str : W → Text → Option W) (out : W) (h : Head) : Option W :=
  h.pieces.foldlM write_str out

def format_http_response_head (h : Head) : Option Text := write_response_head (fun s v => some (s ++ v)) [] h

structure ResponseHeadWriter where
  bytes : Option Text
  length : Nat
  maximum : Nat

def ResponseHeadWriter.write_str (w : ResponseHeadWriter) (value : Text) : Option ResponseHeadWriter := do
  let next ← checked_add w.length (size value)
  if next ≤ w.maximum then some { w with bytes := w.bytes.map (· ++ value), length := next } else none

def response_head_encoded_len (h : Head) : Option Nat := do
  let out ← write_response_head ResponseHeadWriter.write_str ⟨none, 0, 2 ^ 64 - 1⟩ h
  some out.length

/-- `reserve` is the capacity that `try_reserve_exact` makes, if any. -/
def format_http_response_head_bounded (reserve : Nat → Option Nat) (h : Head) (maximum : Nat) :
    Except String Text := do
  let length ← ok_or ((response_head_encoded_len h).filter (· ≤ maximum)) "response header bound"
  let capacity ← ok_or (reserve length) "response header allocation"
  demand (capacity = length) "response header capacity"
  let out ← ok_or (write_response_head ResponseHeadWriter.write_str ⟨some [], 0, length⟩ h) "response header changed"
  ok_or out.bytes "bounded response writer"

def Head.lines (h : Head) : List Text :=
  ["HTTP/1.1 ".toList ++ (toString h.status.toNat).toList ++ " ".toList ++ (reason h.status).toList,
    "Content-Type: ".toList ++ h.content_type, "Content-Length: ".toList ++ (toString h.content_length).toList] ++
  h.guarded.map (fun e => e.1 ++ ": ".toList ++ e.2) ++ (if h.close then ["Connection: close".toList] else [])

def framed (lines : List Text) : Text := lines.flatMap (· ++ CRLF) ++ CRLF

theorem flatten_pieces (h : Head) : h.pieces.flatten = framed h.lines := by
  have hguarded : (h.guarded.flatMap fun e => [e.1, ": ".toList, e.2, CRLF]).flatten =
      h.guarded.flatMap fun e => e.1 ++ ": ".toList ++ e.2 ++ CRLF := by
    induction h.guarded with
    | nil => rfl
    | cons e es ih => simpa using ih
  unfold Head.pieces framed Head.lines
  rw [List.flatten_append, List.flatten_append, List.flatten_append, hguarded]
  cases h.close <;> simp [CRLF, List.flatMap_map]

theorem write_all (ps : List Text) (w : ResponseHeadWriter) (hmax : w.maximum < 2 ^ 64) (hlen : w.length ≤ w.maximum) :
    ps.foldlM ResponseHeadWriter.write_str w =
      if w.length + size ps.flatten ≤ w.maximum then
        some { w with bytes := w.bytes.map (· ++ ps.flatten), length := w.length + size ps.flatten }
      else none := by
  induction ps generalizing w with
  | nil => simp [size, hlen]
  | cons p ps ih =>
    have hsize : size (p :: ps).flatten = size p + size ps.flatten := by simp [size]
    rw [List.foldlM_cons, hsize, ← Nat.add_assoc]
    by_cases hp : w.length + size p ≤ w.maximum
    · have hstep : w.write_str p = some { w with bytes := w.bytes.map (· ++ p), length := w.length + size p } := by
        unfold ResponseHeadWriter.write_str checked_add
        rw [if_pos (by omega), Option.bind_eq_bind, Option.bind_some, if_pos hp]
      rw [hstep, Option.bind_eq_bind, Option.bind_some,
        ih { w with bytes := w.bytes.map (· ++ p), length := w.length + size p } hmax hp]
      simp [Function.comp_def]
    · have hstep : w.write_str p = none := by
        unfold ResponseHeadWriter.write_str checked_add
        split
        · exact if_neg hp
        · rfl
      rw [hstep, if_neg (by omega)]
      rfl

theorem format_eq (h : Head) : format_http_response_head h = some (framed h.lines) := by
  have hfold (ps : List Text) (s : Text) : ps.foldlM (fun s v => some (s ++ v)) s = some (s ++ ps.flatten) := by
    induction ps generalizing s with
    | nil => simp
    | cons p ps ih => simp [ih]
  rw [← flatten_pieces]
  exact hfold h.pieces []

theorem encoded_len_eq (h : Head) : response_head_encoded_len h =
    if size (framed h.lines) < 2 ^ 64 then some (size (framed h.lines)) else none := by
  unfold response_head_encoded_len write_response_head
  rw [write_all _ _ (by decide) (Nat.zero_le _), flatten_pieces]
  simp only [Nat.zero_add, Nat.le_sub_one_iff_lt (Nat.two_pow_pos 64)]
  split <;> rfl

theorem splits_append (s t : Text) : splits (s ++ t) = (splits s || splits t) := List.any_append

theorem splits_digits (n : Nat) : splits (toString n).toList = false := by
  rw [splits, List.any_eq_false]
  intro c hc h
  have hdigit := Nat.isDigit_of_mem_toDigits (b := 10) (by decide) (by decide) (n := n) (c := c)
    (by simpa [Nat.repr] using hc)
  simp only [Bool.or_eq_true, decide_eq_true_eq] at h
  rcases h with rfl | rfl <;> exact absurd hdigit (by decide)

theorem lines_unsplit_iff (h : Head) : (∀ l ∈ h.lines, splits l = false) ↔ splits h.content_type = false := by
  have hreason : splits (reason h.status).toList = false := by
    unfold reason
    split <;> decide
  have hguarded : ∀ e ∈ h.guarded, splits e.1 = false ∧ splits e.2 = false := by
    intro e he
    simpa using (List.mem_filter.mp he).2
  constructor
  · intro hall
    have htype := hall _ (List.mem_append_left _ (List.mem_append_left _ (.tail _ (.head _))))
    rw [splits_append, Bool.or_eq_false_iff] at htype
    exact htype.2
  · intro htype l hl
    rcases List.mem_append.mp hl with hl | hl
    · rcases List.mem_append.mp hl with hl | hl
      · simp only [List.mem_cons, List.not_mem_nil, or_false] at hl
        rcases hl with rfl | rfl | rfl
        · rw [splits_append, splits_append, splits_append, splits_digits, hreason]
          decide
        · rw [splits_append, htype]
          decide
        · rw [splits_append, splits_digits]
          decide
      · obtain ⟨e, he, rfl⟩ := List.mem_map.mp hl
        rw [splits_append, splits_append, (hguarded e he).1, (hguarded e he).2]
        decide
    · split at hl
      · rw [List.mem_singleton.mp hl]
        decide
      · cases hl

/-- The three formatters agree, and the head is its lines with nothing in between. -/
def Exact (h : Head) : Prop :=
  (∃ head, format_http_response_head h = some head ∧ head = framed h.lines ∧
    response_head_encoded_len h = (if size head < 2 ^ 64 then some (size head) else none) ∧
    ∀ reserve maximum bytes, format_http_response_head_bounded reserve h maximum = .ok bytes ↔
      head = bytes ∧ size head ≤ maximum ∧ size head < 2 ^ 64 ∧ reserve (size head) = some (size head)) ∧
  ∀ l ∈ h.lines, splits l = false

/-- The content type is the one text that is not looked at for line ends. -/
theorem head_exact_iff (h : Head) : Exact h ↔ splits h.content_type = false := by
  rw [← lines_unsplit_iff]
  refine and_iff_right ⟨_, format_eq h, rfl, encoded_len_eq h, fun reserve maximum bytes => ?_⟩
  have hwrite (length : Nat) (hlt : length < 2 ^ 64) (hle : size (framed h.lines) ≤ length) :
      write_response_head ResponseHeadWriter.write_str ⟨some [], 0, length⟩ h =
        some ⟨some (framed h.lines), size (framed h.lines), length⟩ := by
    rw [write_response_head, write_all _ _ hlt (Nat.zero_le _), flatten_pieces, Nat.zero_add, if_pos hle]
    rfl
  simp only [format_http_response_head_bounded, except_bind_ok, ok_or_ok, demand_ok, encoded_len_eq]
  constructor
  · rintro ⟨length, hlength, capacity, hreserve, _, hcapacity, out, hout, hbytes⟩
    rw [Option.filter_eq_some_iff, Option.ite_none_right_eq_some, Option.some.injEq, decide_eq_true_eq] at hlength
    obtain ⟨⟨hlt, hsize⟩, hle⟩ := hlength
    rw [hwrite length (hsize ▸ hlt) hsize.le, Option.some.injEq] at hout
    rw [← hout] at hbytes
    rw [hcapacity] at hreserve
    exact ⟨Option.some.inj hbytes, hsize.le.trans hle, hlt, by rw [hsize, hreserve]⟩
  · rintro ⟨rfl, hle, hlt, hreserve⟩
    refine ⟨_, ?_, _, hreserve, (), rfl, _, hwrite _ hlt le_rfl, rfl⟩
    rw [if_pos hlt, Option.filter_some_pos (by simpa using hle)]

def added : Head := ⟨200, "a\r\nX: y".toList, [], 0, false⟩

theorem content_type_adds_line : ¬ Exact added ∧
    ∃ head, format_http_response_head added = some head ∧ "\r\nX: y\r\n".toList <:+: head :=
  ⟨fun h => absurd (h.2 _ (.tail _ (.head _))) (by decide), _, format_eq added, by decide⟩

end EnclaveOs.Http
