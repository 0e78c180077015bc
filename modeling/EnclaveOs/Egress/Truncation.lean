import EnclaveOs.Egress.Response

/-! # Truncated responses -/

namespace EnclaveOs.Egress

open Lib

section Theory

variable [Unicode] {c c' : Collected} {limit maximum : Nat} {header : Header}

/-! ## What the loop collects -/

def plaintext : List Read → Bytes
  | .data bytes :: reads => bytes ++ plaintext reads
  | _ => []

def decrypted : List Packet → Bytes
  | .processed reads :: packets => plaintext reads ++ decrypted packets
  | _ => []

/-- The plaintext up to the point where the host ended the stream. -/
def delivered : List Recv → Bytes
  | .received packets :: answers => decrypted packets ++ delivered answers
  | _ => []

/-- No read fails before the loop leaves off. -/
def reads_end : List Read → Bool
  | .failed _ :: _ => false
  | .data _ :: reads => reads_end reads
  | _ => true

def packets_end : List Packet → Bool
  | .unreadable _ :: _ | .rejected _ :: _ => false
  | .processed reads :: packets => reads_end reads && packets_end packets
  | _ => true

/-- The host ends the stream, and nothing fails before. -/
def ended : List Recv → Bool
  | .closed :: _ => true
  | .received packets :: answers => packets_end packets && ended answers
  | _ => false

section

omit [Unicode]

theorem collect_data {read : Bytes} (h : collect limit c read = .ok c') :
    c'.response_data = c.response_data ++ read := by
  unfold collect at h
  split at h
  · cases h
  split at h
  · cases h; rfl
  dsimp only at h
  split at h
  · cases h
  · cases h; rfl

theorem read_plaintext_data {reads : List Read} (h : read_plaintext limit c reads = .ok c') :
    c'.response_data = c.response_data ++ plaintext reads ∧ reads_end reads = true := by
  induction reads generalizing c with
  | nil => cases h; simp [plaintext, reads_end]
  | cons read reads ih =>
    cases read with
    | closed | wouldBlock => cases h; simp [plaintext, reads_end]
    | failed error => cases h
    | data bytes =>
      rw [read_plaintext] at h
      rcases hc : collect limit c bytes with e | c1
      · rw [hc] at h; cases h
      · rw [hc] at h
        rw [(ih h).1, collect_data hc, plaintext, List.append_assoc]
        exact ⟨rfl, (ih h).2⟩

theorem read_packets_data {packets : List Packet} (h : read_packets limit c packets = .ok c') :
    c'.response_data = c.response_data ++ decrypted packets ∧ packets_end packets = true := by
  induction packets generalizing c with
  | nil => cases h; simp [decrypted, packets_end]
  | cons packet packets ih =>
    cases packet with
    | stuck => cases h; simp [decrypted, packets_end]
    | unreadable error | rejected error => cases h
    | processed reads =>
      rw [read_packets] at h
      rcases hc : read_plaintext limit c reads with e | c1
      · rw [hc] at h; cases h
      · rw [hc] at h
        obtain ⟨hdata, hend⟩ := read_plaintext_data hc
        rw [(ih h).1, hdata, decrypted, List.append_assoc, packets_end, hend, (ih h).2]
        exact ⟨rfl, rfl⟩

theorem receive_data {answers : List Recv} (h : receive limit c answers = some (.ok c')) :
    c'.response_data = c.response_data ++ delivered answers ∧ ended answers = true := by
  induction answers generalizing c with
  | nil => cases h
  | cons answer answers ih =>
    cases answer with
    | closed => cases h; simp [delivered, ended]
    | failed error => cases h
    | received packets =>
      rw [receive] at h
      rcases hc : read_packets limit c packets with e | c1
      · rw [hc] at h; cases h
      · rw [hc] at h
        obtain ⟨hdata, hend⟩ := read_packets_data hc
        rw [(ih h).1, hdata, delivered, List.append_assoc, ended, hend, (ih h).2]
        exact ⟨rfl, rfl⟩

/-! ## What the loop lets pass -/

/-- The bounds of the loop, on all that arrives. -/
structure Bounded (limit : Nat) (data : Bytes) (separator : Nat) : Prop where
  header : position header_end data = some separator
  header_len : separator + 4 ≤ MAX_RESPONSE_HEADER_BYTES
  len : data.length ≤ limit + MAX_RESPONSE_HEADER_BYTES

variable {data rest : Bytes} {separator : Nat}

theorem Bounded.collect {read : Bytes} (h : Bounded limit (c.response_data ++ read ++ rest) separator) :
    ∃ c', collect limit c read = .ok c' := by
  have hlen := h.len
  have hmax := h.header_len
  rw [List.length_append, List.length_append] at hlen
  unfold Egress.collect
  rw [if_neg (by omega)]
  split
  · exact ⟨_, rfl⟩
  dsimp only
  rw [if_neg]
  · exact ⟨_, rfl⟩
  -- The header's end is where it is in the whole, or not yet there.
  rcases hp : position header_end (c.response_data ++ read) with _ | n
  · simp only [Option.map_none, Option.any_none, Option.isNone_none, Bool.true_and, Bool.false_or, decide_eq_true_eq]
    intro hlong
    have hfound := position_of_append h.header (hmax.trans hlong.le) (by decide)
    rw [hp] at hfound
    cases hfound
  · obtain rfl := Option.some.inj ((position_append rest hp).symm.trans h.header)
    simp
    omega

theorem Bounded.read_plaintext {reads : List Read} (hend : reads_end reads = true)
    (h : Bounded limit (c.response_data ++ plaintext reads ++ rest) separator) :
    ∃ c', read_plaintext limit c reads = .ok c' := by
  induction reads generalizing c with
  | nil => exact ⟨c, rfl⟩
  | cons read reads ih =>
    cases read with
    | closed | wouldBlock => exact ⟨c, rfl⟩
    | failed error => cases hend
    | data bytes =>
      rw [plaintext, ← List.append_assoc] at h
      obtain ⟨c1, hc⟩ := Bounded.collect (List.append_assoc _ _ rest ▸ h)
      rw [← collect_data hc] at h
      obtain ⟨c', hc'⟩ := ih hend h
      exact ⟨c', by rw [Egress.read_plaintext, hc]; exact hc'⟩

theorem Bounded.read_packets {packets : List Packet} (hend : packets_end packets = true)
    (h : Bounded limit (c.response_data ++ decrypted packets ++ rest) separator) :
    ∃ c', read_packets limit c packets = .ok c' := by
  induction packets generalizing c with
  | nil => exact ⟨c, rfl⟩
  | cons packet packets ih =>
    cases packet with
    | stuck => exact ⟨c, rfl⟩
    | unreadable error | rejected error => cases hend
    | processed reads =>
      obtain ⟨hreads, hpackets⟩ := Bool.and_eq_true_iff.mp hend
      rw [decrypted, ← List.append_assoc] at h
      obtain ⟨c1, hc⟩ := Bounded.read_plaintext hreads (List.append_assoc _ _ rest ▸ h)
      rw [← (read_plaintext_data hc).1] at h
      obtain ⟨c', hc'⟩ := ih hpackets h
      exact ⟨c', by rw [Egress.read_packets, hc]; exact hc'⟩

theorem Bounded.receive {answers : List Recv} (hend : ended answers = true)
    (h : Bounded limit (c.response_data ++ delivered answers) separator) :
    ∃ c', receive limit c answers = some (.ok c') := by
  induction answers generalizing c with
  | nil => cases hend
  | cons answer answers ih =>
    cases answer with
    | closed => exact ⟨c, rfl⟩
    | failed error => cases hend
    | received packets =>
      obtain ⟨hpackets, hanswers⟩ := Bool.and_eq_true_iff.mp hend
      rw [delivered, ← List.append_assoc] at h
      obtain ⟨c1, hc⟩ := Bounded.read_packets hpackets h
      rw [← (read_packets_data hc).1] at h
      obtain ⟨c', hc'⟩ := ih hanswers h
      exact ⟨c', by rw [Egress.receive, hc]; exact hc'⟩

end

/-! ## What the parser accepts -/

theorem parse_ok {data : Bytes} {r : HttpResponse} : parse_http_response_with_limit data maximum = .ok r ↔
    ∃ separator header, position header_end data = some separator ∧ separator + 4 ≤ MAX_RESPONSE_HEADER_BYTES ∧
      data.length ≤ separator + 4 + maximum ∧ parse_header (data.take separator) = .ok header ∧
      parse_body header (data.drop (separator + 4)) maximum = .ok r.body ∧
      r = ⟨header.status, header.headers, data.take (separator + 4), r.body⟩ := by
  unfold parse_http_response_with_limit
  rcases hsep : position header_end data with _ | separator
  · simp [throw, throwThe, MonadExceptOf.throw]
  simp only [bind, Except.bind, Option.some.injEq, exists_and_left, exists_eq_left', List.length_drop]
  split_ifs with hmax hlen
  · simp [not_le.mpr hmax]
  · refine iff_of_false (by simp) fun h => ?_
    have := h.2.1
    omega
  rw [and_iff_right (not_lt.mp hmax), and_iff_right (by omega)]
  rcases hheader : parse_header (data.take separator) with e | header
  · simp
  rcases hbody : parse_body header (data.drop (separator + 4)) maximum with e | body
  · simp [hbody]
  · simp only [Except.ok.injEq, exists_eq_left', hbody, pure, Except.pure]
    constructor
    · rintro rfl
      exact ⟨rfl, rfl⟩
    · rintro ⟨rfl, hr⟩
      exact hr.symm

/-- The fetch succeeds when the stream ends and what arrived is a response. -/
theorem fetch_response_ok {answers : List Recv} {r : HttpResponse} : fetch_response limit answers = some (.ok r) ↔
    ended answers = true ∧ parse_http_response_with_limit (delivered answers) limit = .ok r := by
  have hparse (c : Collected) (hdata : c.response_data = delivered answers) :
      ((parse_http_response_with_limit c.response_data limit).mapError invalid = .ok r ↔
        parse_http_response_with_limit (delivered answers) limit = .ok r) := by
    rw [hdata]
    cases parse_http_response_with_limit (delivered answers) limit <;> simp [Except.mapError]
  constructor
  · intro h
    obtain ⟨outcome, hreceive, hr⟩ := Option.map_eq_some_iff.mp h
    rcases outcome with e | c
    · cases hr
    obtain ⟨hdata, hend⟩ := receive_data hreceive
    exact ⟨hend, (hparse c hdata).mp hr⟩
  · rintro ⟨hend, hr⟩
    obtain ⟨separator, header, hsep, hmax, hlen, -⟩ := parse_ok.mp hr
    have hbounded : Bounded limit ([] ++ delivered answers) separator := ⟨hsep, hmax, by rw [List.nil_append]; omega⟩
    obtain ⟨c, hc⟩ := hbounded.receive (c := ⟨[], false⟩) hend
    exact Option.map_eq_some_iff.mpr ⟨_, hc, (hparse c (receive_data hc).1).mpr hr⟩

theorem dechunk_loop_ok {data output body : Bytes} (h : dechunk_loop maximum data output = .ok body) :
    ∃ newline size, position crlf data = some newline ∧ chunk_size (data.take newline) = .ok size ∧
      (size = 0 ∧ data.drop (newline + 2) = crlf ∧ body = output ∨
        size ≠ 0 ∧ size + 2 ≤ (data.drop (newline + 2)).length ∧
        dechunk_loop maximum ((data.drop (newline + 2)).drop (size + 2))
          (output ++ (data.drop (newline + 2)).take size) = .ok body) := by
  rw [dechunk_loop] at h
  split at h
  · cases h
  rename_i newline hline
  split at h
  · cases h
  rename_i size hsize
  refine ⟨newline, size, hline, hsize, ?_⟩
  dsimp only at h
  split_ifs at h with h0 hend hover hshort hcrlf hmax
  · exact .inl ⟨h0, not_not.mp hend, (Except.ok.inj h).symm⟩
  · exact .inr ⟨h0, by omega, h⟩

theorem dechunk_loop_unique {maximum maximum' : Nat} {data more output body body' : Bytes}
    (h : dechunk_loop maximum data output = .ok body)
    (h' : dechunk_loop maximum' (data ++ more) output = .ok body') : more = [] ∧ body = body' := by
  induction hn : data.length using Nat.strong_induction_on generalizing data output with
  | _ n ih =>
    obtain ⟨newline, size, hline, hsize, hcases⟩ := dechunk_loop_ok h
    obtain ⟨newline', size', hline', hsize', hcases'⟩ := dechunk_loop_ok h'
    have hfits := position_fits hline
    simp only [crlf, List.length_cons, List.length_nil] at hfits
    rw [position_append more hline, Option.some.injEq] at hline'
    subst hline'
    rw [List.take_append_of_le_length (by omega), hsize, Except.ok.injEq] at hsize'
    subst hsize'
    rw [List.drop_append_of_le_length (by omega)] at hcases'
    rcases hcases with ⟨h0, hend, rfl⟩ | ⟨h0, hlong, hrest⟩
    · rcases hcases' with ⟨-, hend', rfl⟩ | ⟨hne, -⟩
      · rw [hend] at hend'
        exact ⟨by simpa using hend', rfl⟩
      · exact absurd h0 hne
    · rcases hcases' with ⟨h0', -⟩ | ⟨-, -, hrest'⟩
      · exact absurd h0' h0
      rw [List.drop_append_of_le_length hlong, List.take_append_of_le_length (by omega)] at hrest'
      have hless : ((data.drop (newline + 2)).drop (size + 2)).length < n := by
        simp only [List.length_drop]
        omega
      exact ih _ hless hrest hrest' rfl

/-! ## What the peer sent -/

/-- The body that the header declares of the bytes behind it. -/
def SentBody (header : Header) (raw body : Bytes) : Prop :=
  if header.chunked then ∃ maximum message, message <+: raw ∧ dechunk message maximum = .ok body
  else
    match header.content_length with
    | some n => n ≤ raw.length ∧ body = raw.take n
    | none => body = raw

/-- The peer's bytes stand for this response. -/
def Sent (bytes : Bytes) (r : HttpResponse) : Prop :=
  ∃ separator header, position header_end bytes = some separator ∧
    parse_header (bytes.take separator) = .ok header ∧
    SentBody header (bytes.drop (separator + 4)) r.body ∧
    r = ⟨header.status, header.headers, bytes.take (separator + 4), r.body⟩

theorem SentBody.unique {raw body body' : Bytes} (h : SentBody header raw body)
    (h' : SentBody header raw body') : body = body' := by
  unfold SentBody at h h'
  split at h
  · rename_i hchunked
    rw [if_pos hchunked] at h'
    obtain ⟨max, message, hpre, hd⟩ := h
    obtain ⟨max', message', hpre', hd'⟩ := h'
    rcases List.prefix_or_prefix_of_prefix hpre hpre' with ⟨more, rfl⟩ | ⟨more, rfl⟩
    · exact (dechunk_loop_unique hd hd').2
    · exact (dechunk_loop_unique hd' hd).2.symm
  · rename_i hchunked
    rw [if_neg hchunked] at h'
    rcases hlen : header.content_length with _ | n
    · rw [hlen] at h h'
      exact h.trans h'.symm
    · rw [hlen] at h h'
      exact h.2.trans h'.2.symm

theorem Sent.unique {bytes : Bytes} {r r' : HttpResponse} (h : Sent bytes r) (h' : Sent bytes r') : r = r' := by
  obtain ⟨separator, header, hsep, hheader, hbody, hr⟩ := h
  obtain ⟨separator', header', hsep', hheader', hbody', hr'⟩ := h'
  rw [hsep, Option.some.injEq] at hsep'
  subst hsep'
  rw [hheader, Except.ok.injEq] at hheader'
  subst hheader'
  rw [hr, hr', hbody.unique hbody']

/-- The stream ends before the body does, which no length is declared for, and what arrived is within the bounds. -/
def CutShort (limit : Nat) (bytes : Bytes) (answers : List Recv) : Prop :=
  ended answers = true ∧ delivered answers ≠ bytes ∧ ∃ separator header, position header_end bytes = some separator ∧
    parse_header (bytes.take separator) = .ok header ∧ header.chunked = false ∧ header.content_length = none ∧
    separator + 4 ≤ MAX_RESPONSE_HEADER_BYTES ∧ separator + 4 ≤ (delivered answers).length ∧
    (delivered answers).length ≤ separator + 4 + limit

/-- Success is with the one response that the peer's bytes stand for. -/
def Intact (limit : Nat) (bytes : Bytes) (answers : List Recv) : Prop :=
  ∀ r, fetch_response limit answers = some (.ok r) → Sent bytes r ∧ ∀ s, Sent bytes s → s = r

theorem parse_body_sent {raw more body : Bytes} (h : parse_body header raw maximum = .ok body)
    (hframed : header.chunked = false → header.content_length = none → more = []) :
    SentBody header (raw ++ more) body := by
  unfold parse_body at h
  unfold SentBody
  split at h
  · rename_i hchunked
    rw [if_pos hchunked]
    exact ⟨maximum, raw, List.prefix_append raw more, h⟩
  rename_i hchunked
  rw [if_neg hchunked]
  split at h
  · cases h
  rename_i hlen
  cases h
  rcases hn : header.content_length with _ | n
  · simp [hframed (by simpa using hchunked) hn]
  · have hraw : n = raw.length := by simpa [hn] using hlen
    simp [hraw]

/-- A fetch is intact unless the host cuts a body that ends with the connection. -/
theorem intact_iff (limit : Nat) (bytes : Bytes) (answers : List Recv) (hcut : delivered answers <+: bytes) :
    Intact limit bytes answers ↔ ¬ CutShort limit bytes answers := by
  obtain ⟨more, rfl⟩ := hcut
  constructor
  · rintro h ⟨hend, hshort, separator, header, hsep, hheader, hchunked, hnone, hmax, hlong, hlen⟩
    have hbody (raw : Bytes) : parse_body header raw limit = .ok raw := by simp [parse_body, hchunked, hnone]
    have hsep' := position_of_append hsep hlong (by decide)
    rw [List.take_append_of_le_length (by omega)] at hheader
    have hparse : parse_http_response_with_limit (delivered answers) limit = .ok ⟨header.status, header.headers,
        (delivered answers).take (separator + 4), (delivered answers).drop (separator + 4)⟩ :=
      parse_ok.mpr ⟨separator, header, hsep', hmax, hlen, hheader, hbody _, rfl⟩
    obtain ⟨⟨separator', header', hs, hh, hb, -⟩, -⟩ := h _ (fetch_response_ok.mpr ⟨hend, hparse⟩)
    obtain rfl := Option.some.inj (hsep.symm.trans hs)
    rw [List.take_append_of_le_length (by omega), hheader] at hh
    cases hh
    simp only [SentBody, hchunked, hnone, Bool.false_eq_true, if_false, List.drop_append_of_le_length hlong] at hb
    exact hshort (by simpa using hb)
  · intro h r hr
    obtain ⟨hend, hparse⟩ := fetch_response_ok.mp hr
    obtain ⟨separator, header, hsep, hmax, hlen, hheader, hbody, hres⟩ := parse_ok.mp hparse
    have hfits : separator + 4 ≤ (delivered answers).length := position_fits hsep
    have hsep' := position_append more hsep
    have htake {n : Nat} (hn : n ≤ separator + 4) :
        (delivered answers).take n = (delivered answers ++ more).take n :=
      (List.take_append_of_le_length (by omega)).symm
    rw [htake (by omega)] at hheader
    rw [htake le_rfl] at hres
    have hsent : Sent (delivered answers ++ more) r := by
      refine ⟨separator, header, hsep', hheader, ?_, hres⟩
      rw [List.drop_append_of_le_length hfits]
      refine parse_body_sent hbody fun hchunked hnone => ?_
      by_contra hmore
      exact h ⟨hend, by simpa using hmore, separator, header, hsep', hheader, hchunked, hnone, hmax, hfits, hlen⟩
    exact ⟨hsent, fun s hs => hs.unique hsent⟩

end Theory

namespace Sample

def page : Bytes := utf8 "HTTP/1.1 200 OK" ++ header_end ++ utf8 "hello world"

def sizedPage : Bytes := utf8 "HTTP/1.1 200 OK\r\ncontent-length: 11" ++ header_end ++ utf8 "hello world"

def cutAt (n : Nat) (bytes : Bytes) : List Recv :=
  [.received [.processed [.data (bytes.take n), .wouldBlock]], .closed]

theorem delivered_cutAt (n : Nat) (bytes : Bytes) : delivered (cutAt n bytes) <+: bytes := by
  simpa [cutAt, delivered, decrypted, plaintext] using List.take_prefix n bytes

end Sample

open Sample

/-- The cut is noticed where the length is declared, and harmless where nothing is missing. -/
theorem intact_page :
    delivered (cutAt 45 sizedPage) <+: sizedPage ∧ Intact 2097152 sizedPage (cutAt 45 sizedPage) ∧
      Intact 2097152 page (cutAt 30 page) := by
  refine ⟨delivered_cutAt 45 sizedPage, (intact_iff _ _ _ (delivered_cutAt 45 sizedPage)).mpr ?_,
    (intact_iff _ _ _ (delivered_cutAt 30 page)).mpr ?_⟩
  · rintro ⟨-, -, separator, header, hsep, hheader, -, hnone, -⟩
    obtain rfl : 35 = separator := Option.some.inj ((by decide +kernel : position header_end sizedPage = _).symm.trans hsep)
    have hsized : (parse_header (sizedPage.take 35)).toOption.bind Header.content_length = some 11 := by decide +kernel
    rw [hheader] at hsized
    cases hnone.symm.trans hsized
  · rintro ⟨-, hshort, -⟩
    exact hshort (by decide +kernel)

theorem page_cut_short : delivered (cutAt 24 page) <+: page ∧ ¬ Intact 2097152 page (cutAt 24 page) := by
  refine ⟨delivered_cutAt 24 page, fun h => ?_⟩
  have hfetch : fetch_response 2097152 (cutAt 24 page) =
      some (.ok ⟨200, [], utf8 "HTTP/1.1 200 OK" ++ header_end, utf8 "hello"⟩) := by decide +kernel
  have hsent : Sent page ⟨200, [], utf8 "HTTP/1.1 200 OK" ++ header_end, utf8 "hello world"⟩ := by
    refine ⟨15, ⟨200, [], false, none⟩, by decide +kernel, by decide +kernel, ?_, by decide +kernel⟩
    simp only [SentBody, Bool.false_eq_true, if_false]
    decide +kernel
  have hsame := (h _ hfetch).2 _ hsent
  revert hsame
  decide +kernel

end EnclaveOs.Egress
