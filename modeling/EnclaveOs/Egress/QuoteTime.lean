import EnclaveOs.Egress.Readiness
import Mathlib.Tactic.IntervalCases

/-! # Quote times (`attest.rs`)

The arithmetic of the two directions, between a time and the date written for it. Years begin in March. -/

namespace EnclaveOs.QuoteTime

open Egress Lib

/-! ## The calendar -/

def leap (y : Int) : Prop := y % 4 = 0 ∧ (y % 100 ≠ 0 ∨ y % 400 = 0)

instance (y : Int) : Decidable (leap y) := inferInstanceAs (Decidable (_ ∧ _))

def days_in (y m : Int) : Int :=
  if m = 2 then if leap y then 29 else 28 else if m = 4 ∨ m = 6 ∨ m = 9 ∨ m = 11 then 30 else 31

structure Instant where
  year : Int
  month : Int
  day : Int
  hour : Int
  minute : Int

namespace Instant

/-- A day of the calendar and a minute of that day. -/
structure Real (i : Instant) : Prop where
  month : 1 ≤ i.month ∧ i.month ≤ 12
  day : 1 ≤ i.day ∧ i.day ≤ days_in i.year i.month
  hour : 0 ≤ i.hour ∧ i.hour ≤ 23
  minute : 0 ≤ i.minute ∧ i.minute ≤ 59

structure FourDigit (i : Instant) : Prop extends i.Real where
  year : 0 ≤ i.year ∧ i.year ≤ 9999

def text (i : Instant) : String :=
  padded 4 i.year ++ "-" ++ padded 2 i.month ++ "-" ++ padded 2 i.day ++ "T" ++ padded 2 i.hour ++ ":" ++
    padded 2 i.minute ++ "Z"

-- As `parse_quote_time` counts them.
def seconds (i : Instant) : Int :=
  let y2 := if i.month ≤ 2 then i.year - 1 else i.year
  let era := y2 / 400
  let yoe := y2 - era * 400
  let mp := (i.month + 9) % 12
  let doy := (153 * mp + 2) / 5 + i.day - 1
  let doe := yoe * 365 + yoe / 4 - yoe / 100 + doy
  let days := era * 146097 + doe - 719468
  days * 86400 + i.hour * 3600 + i.minute * 60

def Before (i j : Instant) : Prop :=
  i.year < j.year ∨ i.year = j.year ∧ (i.month < j.month ∨ i.month = j.month ∧ (i.day < j.day ∨ i.day = j.day ∧
    (i.hour < j.hour ∨ i.hour = j.hour ∧ i.minute < j.minute)))

theorem trichotomy (i j : Instant) : i.Before j ∨ i = j ∨ j.Before i := by
  rcases i
  rcases j
  simp only [Before, mk.injEq]
  omega

end Instant

-- As `format_quote_time` finds it.
def civil (unix : Int) : Instant :=
  let days := unix / 86400
  let secs := unix % 86400
  let z := days + 719468
  let era := z / 146097
  let doe := z - era * 146097
  let yoe := (doe - doe / 1460 + doe / 36524 - doe / 146096) / 365
  let y := yoe + era * 400
  let doy := doe - (365 * yoe + yoe / 4 - yoe / 100)
  let mp := (5 * doy + 2) / 153
  let d := doy - (153 * mp + 2) / 5 + 1
  let m := if mp < 10 then mp + 3 else mp - 9
  ⟨if m ≤ 2 then y + 1 else y, m, d, secs / 3600, secs % 3600 / 60⟩

theorem format_eq (unix : Int) : format_quote_time unix = (civil unix).text := rfl

/-! ## Counting days -/

def days_before (y : Int) : Int := 365 * y + y / 4 - y / 100 + y / 400

theorem days_before_succ (y : Int) : days_before (y + 1) = days_before y + if leap (y + 1) then 366 else 365 := by
  unfold days_before
  split <;> rename_i h <;> unfold leap at h <;> omega

theorem days_before_mono {y z : Int} (h : y ≤ z) : days_before y ≤ days_before z := by
  unfold days_before
  omega

theorem days_before_era (k era : Int) : days_before (k + era * 400) = days_before k + era * 146097 := by
  unfold days_before
  omega

variable {i j : Instant}

theorem seconds_eq (hm : 1 ≤ i.month ∧ i.month ≤ 12) :
    ∃ y mp, 12 * y + mp = 12 * i.year + i.month - 3 ∧ 0 ≤ mp ∧ mp ≤ 11 ∧
      i.seconds = (days_before y + (153 * mp + 2) / 5 + i.day - 719469) * 86400 + i.hour * 3600 + i.minute * 60 := by
  generalize hy : (if i.month ≤ 2 then i.year - 1 else i.year) = y
  have h4 : (y - y / 400 * 400) / 4 = y / 4 - 100 * (y / 400) := by omega
  have h100 : (y - y / 400 * 400) / 100 = y / 100 - 4 * (y / 400) := by omega
  refine ⟨y, (i.month + 9) % 12, by split at hy <;> omega, by omega, by omega, ?_⟩
  simp only [Instant.seconds, hy, h4, h100, days_before]
  omega

theorem seconds_lt (hi : i.Real) (hj : j.Real) (h : i.Before j) : i.seconds < j.seconds := by
  obtain ⟨y, mp, hy, h0, h11, hs⟩ := seconds_eq hi.month
  obtain ⟨y', mp', hy', h0', h11', hs'⟩ := seconds_eq hj.month
  obtain ⟨hm, hd, hh, hmin⟩ := hi
  unfold days_in at hd
  -- A month ends before the next begins, and February with its year.
  have hmonth : (153 * mp + 2) / 5 + i.day ≤ (153 * (mp + 1) + 2) / 5 := by
    interval_cases mp <;> (repeat' split at hd) <;> omega
  have hyear : days_before y + (153 * mp + 2) / 5 + i.day ≤ days_before (y + 1) := by
    rw [days_before_succ]
    rcases Int.lt_or_eq_of_le h11 with hmp | rfl
    · (repeat' split at hd) <;> split <;> omega
    · have hnext : i.year = y + 1 := by omega
      rw [if_pos (by omega), hnext] at hd
      by_cases hleap : leap (y + 1)
      · rw [if_pos hleap] at hd ⊢
        omega
      · rw [if_neg hleap] at hd ⊢
        omega
  obtain ⟨hm', ⟨hd', -⟩, hh', hmin'⟩ := hj
  clear hd
  unfold Instant.Before at h
  rcases lt_trichotomy y y' with hlt | rfl | hgt
  · have := days_before_mono hlt
    omega
  · omega
  · omega

theorem year_of_era {doe : Int} (h0 : 0 ≤ doe) (h1 : doe < 146097) :
    ∃ k r : Int, 0 ≤ k ∧ k < 400 ∧ 0 ≤ r ∧ (r ≤ 364 ∨ r = 365 ∧ leap (k + 1)) ∧
      doe = 365 * k + k / 4 - k / 100 + r ∧ (doe - doe / 1460 + doe / 36524 - doe / 146096) / 365 = k := by
  -- Centuries, spans of four years, years and days.
  obtain ⟨c, b, hc0, hc3, hb0, hb, rfl⟩ : ∃ c b : Int, 0 ≤ c ∧ c ≤ 3 ∧ 0 ≤ b ∧ (b ≤ 36523 ∨ b = 36524 ∧ c = 3) ∧
      doe = 36524 * c + b := ⟨min (doe / 36524) 3, doe - 36524 * min (doe / 36524) 3, by omega⟩
  obtain ⟨q, a, hq0, hq, ha0, ha, rfl⟩ : ∃ q a : Int, 0 ≤ q ∧ q ≤ 24 ∧ 0 ≤ a ∧ a ≤ 1460 ∧ b = 1461 * q + a :=
    ⟨b / 1461, b % 1461, by omega⟩
  obtain ⟨s, r, hs0, hs, hr0, hr, rfl⟩ : ∃ s r : Int, 0 ≤ s ∧ s ≤ 3 ∧ 0 ≤ r ∧ (r ≤ 364 ∨ r = 365 ∧ s = 3) ∧
      a = 365 * s + r := ⟨min (a / 365) 3, a - 365 * min (a / 365) 3, by omega⟩
  refine ⟨100 * c + 4 * q + s, r, by omega, by omega, hr0, hr.imp_right fun h => ⟨h.1, ?_⟩, by omega, ?_⟩
  · unfold leap
    omega
  · -- The last day of the era is counted in both of the larger spans.
    have hspans : (36524 * c + (1461 * q + (365 * s + r))) / 36524 -
        (36524 * c + (1461 * q + (365 * s + r))) / 146096 = c := by omega
    have hdays : (36524 * c + (1461 * q + (365 * s + r))) / 1460 = 25 * c + q ∧ r ≤ 364 ∨
        (36524 * c + (1461 * q + (365 * s + r))) / 1460 = 25 * c + q + 1 ∧ 1 ≤ r := by omega
    omega

theorem civil_real (u : Int) : (civil u).Real ∧ (civil u).seconds = u - u % 60 := by
  obtain ⟨era, doe, h0, h1, hz⟩ : ∃ era doe, 0 ≤ doe ∧ doe < 146097 ∧ u / 86400 + 719468 = 146097 * era + doe :=
    ⟨(u / 86400 + 719468) / 146097, (u / 86400 + 719468) % 146097, by omega⟩
  obtain ⟨k, r, hk0, hk, hr0, hr, hdoe, hyoe⟩ := year_of_era h0 h1
  have hera : (u / 86400 + 719468) / 146097 = era := by omega
  have hrest : u / 86400 + 719468 - era * 146097 = doe := by omega
  have hdoy : doe - (365 * k + k / 4 - k / 100) = r := by omega
  have hreal : (civil u).Real := by
    have hlast : r ≤ 364 ∨ leap (k + era * 400 + 1) := hr.imp_right fun h => by
      unfold leap at h ⊢
      omega
    simp only [civil, hera, hrest, hyoe, hdoy]
    refine ⟨by dsimp only; omega, ?_, by dsimp only; omega, by dsimp only; omega⟩
    unfold days_in
    dsimp only
    generalize hmp : (5 * r + 2) / 153 = mp
    have hmp0 : 0 ≤ mp := by omega
    rcases Int.lt_or_eq_of_le (by omega : mp ≤ 11) with hlt | rfl
    · interval_cases mp <;> norm_num <;> omega
    · norm_num
      split
      · omega
      · have := hlast.resolve_right ‹_›
        omega
  refine ⟨hreal, ?_⟩
  obtain ⟨y, mp, hy, hmp0, hmp, hs⟩ := seconds_eq hreal.month
  rw [hs]
  simp only [civil, hera, hrest, hyoe, hdoy] at hy ⊢
  generalize hmp' : (5 * r + 2) / 153 = mp' at hy
  obtain ⟨rfl, rfl⟩ : y = k + era * 400 ∧ mp = mp' := by split at hy <;> split at hy <;> omega
  rw [days_before_era, days_before]
  omega

theorem civil_seconds (h : i.Real) : civil i.seconds = i := by
  obtain ⟨hreal, hs⟩ := civil_real i.seconds
  have hminute : i.seconds % 60 = 0 := by
    obtain ⟨_, _, -, -, -, hi⟩ := seconds_eq h.month
    omega
  rw [hminute, Int.sub_zero] at hs
  rcases Instant.trichotomy (civil i.seconds) i with hlt | heq | hgt
  · exact absurd hs (seconds_lt hreal h hlt).ne
  · exact heq
  · exact absurd hs (seconds_lt h hreal hgt).ne'

/-! ## Texts -/

def digit (n : Int) : Char := Nat.digitChar n.toNat

theorem padded_natCast (w k : Nat) :
    (padded w k).toList = List.replicate (w - (Nat.toDigits 10 k).length) '0' ++ Nat.toDigits 10 k := by
  simp [padded, Nat.repr, not_lt.mpr (Int.natCast_nonneg k)]

/-- The last digit comes off the end. -/
theorem padded_succ {w : Nat} {n : Int} (hw : 1 ≤ w) (h0 : 0 ≤ n) :
    (padded (w + 1) n).toList = (padded w (n / 10)).toList ++ [digit (n % 10)] := by
  obtain ⟨k, rfl⟩ := Int.eq_ofNat_of_zero_le h0
  have hdiv : (k : Int) / 10 = (k / 10 : Nat) := by omega
  have hmod : digit ((k : Int) % 10) = Nat.digitChar (k % 10) := rfl
  rw [hdiv, hmod, padded_natCast, padded_natCast, Nat.toDigits_eq_if (n := k) (by decide)]
  split
  · obtain ⟨v, rfl⟩ := Nat.exists_eq_add_of_le hw
    have hzero : k / 10 = 0 := by omega
    simp [hzero, Nat.mod_eq_of_lt ‹k < 10›, Nat.add_comm 1 v, List.replicate_succ']
  · simp

theorem padded_two {n : Int} (h0 : 0 ≤ n) (h : n ≤ 99) : (padded 2 n).toList = [digit (n / 10), digit (n % 10)] := by
  have hone {d : Int} (hd0 : 0 ≤ d) (hd : d ≤ 9) : (padded 1 d).toList = [digit d] := by
    interval_cases d <;> decide
  rw [padded_succ (by decide) h0, hone (by omega) (by omega)]
  rfl

theorem text_toList (h : i.FourDigit) :
    i.text.toList = [digit (i.year / 1000), digit (i.year / 100 % 10), digit (i.year / 10 % 10),
      digit (i.year % 10), '-', digit (i.month / 10), digit (i.month % 10), '-',
      digit (i.day / 10), digit (i.day % 10), 'T', digit (i.hour / 10), digit (i.hour % 10), ':',
      digit (i.minute / 10), digit (i.minute % 10), 'Z'] ∧ i.day ≤ 31 := by
  obtain ⟨⟨hm, hd, hh, hmin⟩, hy⟩ := h
  have h31 : i.day ≤ 31 := hd.2.trans (by unfold days_in; split_ifs <;> decide)
  have h100 : i.year / 10 / 10 = i.year / 100 := by omega
  have h1000 : i.year / 100 / 10 = i.year / 1000 := by omega
  simp only [Instant.text, String.toList_append]
  rw [padded_succ (by decide) hy.1, padded_succ (by decide) (by omega), padded_two (by omega) (by omega),
    padded_two (by omega) (by omega), padded_two (by omega) (by omega), padded_two hh.1 (by omega),
    padded_two hmin.1 (by omega), h100, h1000]
  exact ⟨rfl, h31⟩

theorem digit_lex {a b : Int} {l m : List Char} (ha0 : 0 ≤ a) (ha : a ≤ 9) (hb0 : 0 ≤ b) (hb : b ≤ 9) :
    digit a :: l < digit b :: m ↔ a < b ∨ a = b ∧ l < m := by
  have hlt : digit a < digit b ↔ a < b := by interval_cases a <;> interval_cases b <;> decide
  have heq : digit a = digit b ↔ a = b := by interval_cases a <;> interval_cases b <;> decide
  rw [List.cons_lt_cons_iff, hlt, heq]

theorem text_lt (hi : i.FourDigit) (hj : j.FourDigit) (h : i.text < j.text) : i.Before j := by
  obtain ⟨hlist, hd31⟩ := text_toList hi
  obtain ⟨hlist', hd31'⟩ := text_toList hj
  rw [String.lt_iff, hlist, hlist'] at h
  obtain ⟨⟨hm, hd, hh, hmin⟩, hy⟩ := hi
  obtain ⟨⟨hm', hd', hh', hmin'⟩, hy'⟩ := hj
  simp (disch := omega) only [digit_lex, List.cons_lt_cons_self, List.not_lt_nil, and_false, or_false] at h
  unfold Instant.Before
  omega

def ascii (n : Int) : UInt8 := 0x30 + UInt8.ofNat n.toNat

theorem utf8_digit {n : Int} (h0 : 0 ≤ n) (h : n ≤ 9) : String.utf8EncodeChar (digit n) = [ascii n] := by
  interval_cases n <;> decide

theorem decimal_snoc {l : Bytes} {v n : Int} (h0 : 0 ≤ n) (h : n ≤ 9) (hl : decimal l = some v) :
    decimal (l ++ [ascii n]) = some (v * 10 + n) := by
  unfold decimal at hl ⊢
  rw [List.foldlM_append, hl]
  interval_cases n <;> rfl

theorem decimal_two {n : Int} (h0 : 0 ≤ n) (h : n ≤ 99) : decimal [ascii (n / 10), ascii (n % 10)] = some n := by
  have hfirst := decimal_snoc (n := n / 10) (by omega) (by omega) (l := []) rfl
  have hboth := decimal_snoc (n := n % 10) (by omega) (by omega) hfirst
  exact hboth.trans (congrArg some (by omega))

theorem decimal_four {n : Int} (h0 : 0 ≤ n) (h : n ≤ 9999) :
    decimal [ascii (n / 1000), ascii (n / 100 % 10), ascii (n / 10 % 10), ascii (n % 10)] = some n := by
  have htwo := decimal_two (n := n / 100) (by omega) (by omega)
  have hthree := decimal_snoc (n := n / 10 % 10) (by omega) (by omega) htwo
  have hfour := decimal_snoc (n := n % 10) (by omega) (by omega) hthree
  have h1000 : n / 100 / 10 = n / 1000 := by omega
  rw [h1000] at hfour
  exact hfour.trans (congrArg some (by omega))

theorem parse_text (h : i.FourDigit) : parse_quote_time i.text = some i.seconds := by
  have hbytes : utf8 i.text = i.text.toList.flatMap String.utf8EncodeChar := by
    obtain ⟨l, hl⟩ : ∃ l, i.text = String.ofList l := ⟨i.text.toList, by simp⟩
    simp [hl, utf8, List.utf8Encode]
  obtain ⟨hlist, h31⟩ := text_toList h
  obtain ⟨⟨hm, hd, hh, hmin⟩, hy⟩ := h
  rw [hlist] at hbytes
  simp (disch := omega) only [List.flatMap_cons, utf8_digit] at hbytes
  unfold parse_quote_time
  simp only [hbytes]
  change (do
    let y ← decimal [_, _, _, _]
    let m ← decimal [_, _]
    let d ← decimal [_, _]
    let hh ← decimal [_, _]
    let mm ← decimal [_, _]
    guard (1 ≤ m ∧ m ≤ 12 ∧ 1 ≤ d ∧ d ≤ 31 ∧ hh ≤ 23 ∧ mm ≤ 59)
    some (Instant.seconds ⟨y, m, d, hh, mm⟩)) = _
  rw [decimal_four hy.1 hy.2, decimal_two (by omega) (by omega), decimal_two (by omega) (by omega),
    decimal_two hh.1 (by omega), decimal_two hmin.1 (by omega)]
  simp [guard, hm, hd.1, h31, hh, hmin]

/-! ## Exactness -/

/-- The text of a minute in the years 0 to 9999. -/
def Dated (raw : String) : Prop := ∃ i : Instant, i.FourDigit ∧ raw = i.text

/-- Asked of an accepted text for the time `t`, with the clock at `now`. -/
structure Exact [Outside] (raw : String) (t now : Int) : Prop where
  produced : ∃ u, (0 ≤ (civil u).year ∧ (civil u).year ≤ 9999) ∧ format_quote_time u = raw
  ordered : ∀ raw' t', Dated raw' → parse_quote_time raw' = some t' → raw < raw' → t < t'
  -- The difference is taken of a time that is not in the future.
  no_overflow : now + QUOTE_SKEW_SECS < 2 ^ 63 ∧ (t ≤ now + QUOTE_SKEW_SECS → now - t < 2 ^ 63)
  window : check_quote_time raw now = .ok () ↔ t ≤ now + QUOTE_SKEW_SECS ∧ now - t ≤ QUOTE_MAX_AGE_SECS

/-- Formatted times are read back to the minute. An accepted text is one of those, and in order with them,
exactly if it names a day of the calendar; the window is exact while the clock does not overflow. -/
theorem quote_time_exact_iff [Outside] {raw : String} {t now : Int} (h : parse_quote_time raw = some t)
    (hnow : -2 ^ 63 ≤ now) :
    (∀ u, 0 ≤ (civil u).year ∧ (civil u).year ≤ 9999 → parse_quote_time (format_quote_time u) = some (u - u % 60)) ∧
    (Exact raw t now ↔ Dated raw ∧ now + QUOTE_SKEW_SECS < 2 ^ 63 ∧ now - t < 2 ^ 63) := by
  refine ⟨fun u hu => ?_, fun hexact => ?_, ?_⟩
  · obtain ⟨hreal, hs⟩ := civil_real u
    rw [format_eq, parse_text ⟨hreal, hu⟩, hs]
  · obtain ⟨⟨u, hy, hu⟩, -, ⟨hsum, hdiff⟩, -⟩ := hexact
    refine ⟨⟨civil u, ⟨(civil_real u).1, hy⟩, hu.symm⟩, hsum, ?_⟩
    unfold QUOTE_SKEW_SECS at hdiff
    omega
  · rintro ⟨⟨i, hi, rfl⟩, hsum, hdiff⟩
    have htime {j : Instant} (hj : j.FourDigit) {t' : Int} (hp : parse_quote_time j.text = some t') : j.seconds = t' :=
      Option.some.inj ((parse_text hj).symm.trans hp)
    refine ⟨⟨i.seconds, ?_, ?_⟩, ?_, ⟨hsum, fun _ => hdiff⟩, ?_⟩
    · rw [civil_seconds hi.toReal]
      exact hi.year
    · rw [format_eq, civil_seconds hi.toReal]
    · rintro _ t' ⟨j, hj, rfl⟩ hp hlt
      rw [← htime hi h, ← htime hj hp]
      exact seconds_lt hi.toReal hj.toReal (text_lt hi hj hlt)
    · unfold QUOTE_SKEW_SECS at hsum ⊢
      have hwrap : (now + 5 * 60).bmod (2 ^ 64) = now + 5 * 60 := Int.bmod_eq_of_le (by omega) (by omega)
      have hwrap' : t ≤ now + 5 * 60 → (now - t).bmod (2 ^ 64) = now - t :=
        fun ht => Int.bmod_eq_of_le (by omega) (by omega)
      simp only [check_quote_time, except_bind_ok, ok_or_ok, demand_ok, h, Option.some.injEq, exists_eq_left',
        QUOTE_SKEW_SECS, hwrap]
      constructor
      · rintro ⟨_, ht, hage⟩
        exact ⟨ht, hwrap' ht ▸ hage⟩
      · rintro ⟨ht, hage⟩
        exact ⟨(), ht, (hwrap' ht).symm ▸ hage⟩

open Egress.Sample in
theorem quote_time_of_test :
    Exact "2026-09-04T12:00Z" 1788523200 1788523237 ∧ format_quote_time 1788523237 = "2026-09-04T12:00Z" := by
  have hdate : Dated "2026-09-04T12:00Z" :=
    ⟨⟨2026, 9, 4, 12, 0⟩, ⟨⟨by decide, by decide, by decide, by decide⟩, by decide⟩, by decide⟩
  exact ⟨(quote_time_exact_iff (by decide) (by decide)).2.mpr ⟨hdate, by decide, by decide⟩, by decide⟩

/-- The last day of a short month passes for a day of the next. -/
theorem february_has_31_days :
    parse_quote_time "2026-02-31T00:00Z" = some 1772496000 ∧ format_quote_time 1772496000 = "2026-03-03T00:00Z" ∧
    parse_quote_time "2026-03-01T00:00Z" = some 1772323200 ∧ "2026-02-31T00:00Z" < "2026-03-01T00:00Z" := by
  decide

end EnclaveOs.QuoteTime
