import Cyng.Theory.Numerals
import Mathlib.Tactic.IntervalCases

/-!
# Dates, times and their texts

Dates of the Gregorian calendar, counted in days from the first day of 1970, times of day, and
offsets from universal time, with the texts that ISO 8601 gives them. A time without an offset is
one in universal time; an offset says how far the local time is ahead, so that it is taken away to
get the instant.

Numbers are written with two digits or with four. What follows the digits does not matter to the
functions that read a number at the start of a text, if it is no digit.
-/

namespace Theory

/-! ### Numbers of fixed width -/

def twoDigits (n : ℕ) : List UInt8 := [hexDigit (n / 10), hexDigit (n % 10)]

def fourDigits (n : ℕ) : List UInt8 := twoDigits (n / 100) ++ twoDigits (n % 100)

section Width

variable {n : ℕ} {ds rest : List UInt8}

theorem digits_twoDigits (h : n < 100) : Digits 10 (twoDigits n) := by
  have hhigh : digitValue (hexDigit (n / 10)) = n / 10 := digitValue_hexDigit (by omega)
  have hlow : digitValue (hexDigit (n % 10)) = n % 10 := digitValue_hexDigit (by omega)
  intro c hc
  rcases List.mem_pair.mp hc with rfl | rfl
  · rw [hhigh]
    omega
  · rw [hlow]
    omega

theorem ofNumeral_twoDigits (h : n < 100) : ofNumeral 10 (twoDigits n) = n := by
  have hhigh : digitValue (hexDigit (n / 10)) = n / 10 := digitValue_hexDigit (by omega)
  have hlow : digitValue (hexDigit (n % 10)) = n % 10 := digitValue_hexDigit (by omega)
  simp only [ofNumeral, twoDigits, List.foldl_cons, List.foldl_nil, hhigh, hlow]
  omega

theorem digits_fourDigits (h : n < 10000) : Digits 10 (fourDigits n) :=
  (digits_twoDigits (by omega)).append (digits_twoDigits (by omega))

theorem ofNumeral_fourDigits (h : n < 10000) : ofNumeral 10 (fourDigits n) = n := by
  have hhigh : ofNumeral 10 (twoDigits (n / 100)) = n / 100 := ofNumeral_twoDigits (by omega)
  have hlow := ofNumeral_twoDigits (n := n % 100) (by omega)
  have happend : fourDigits n =
      twoDigits (n / 100) ++ [hexDigit (n % 100 / 10)] ++ [hexDigit (n % 100 % 10)] := by
    simp [fourDigits, twoDigits]
  have hdigits : ofNumeral 10 (twoDigits (n % 100)) =
      digitValue (hexDigit (n % 100 / 10)) * 10 + digitValue (hexDigit (n % 100 % 10)) := by
    simp [ofNumeral, twoDigits]
  rw [hlow] at hdigits
  rw [happend, ofNumeral_append_singleton, ofNumeral_append_singleton, hhigh]
  omega

/-- No separator is one of the digits. -/
theorem notMem_twoDigits {mark : UInt8} (hmark : 16 ≤ digitValue mark) (h : n < 100) :
    mark ∉ twoDigits n := ((digits_twoDigits h).mono (by decide)).notMem hmark

theorem notMem_fourDigits {mark : UInt8} (hmark : 16 ≤ digitValue mark) (h : n < 10000) :
    mark ∉ fourDigits n := ((digits_fourDigits h).mono (by decide)).notMem hmark

theorem takeWhile_digits_append {base : ℕ} (h : Digits base ds)
    (hrest : ∀ c, rest.head? = some c → ¬digitValue c < base) :
    (ds ++ rest).takeWhile (digitValue · < base) = ds := by
  have hstop : rest.takeWhile (digitValue · < base) = [] := by
    cases rest with
    | nil => rfl
    | cons c rest =>
      rw [List.takeWhile_cons_of_neg]
      simpa using hrest c rfl
  rw [List.takeWhile_append_of_pos fun c hc => decide_eq_true (h c hc), hstop, List.append_nil]

/-- A number is read up to the first character that is no digit. -/
theorem scan_append (h : Digits 10 ds) (hne : ds ≠ [])
    (hrest : ∀ c, rest.head? = some c → ¬digitValue c < 10) :
    scan 10 (ds ++ rest) = some (false, ofNumeral 10 ds) := by
  obtain ⟨c, ds', rfl⟩ := List.exists_cons_of_ne_nil hne
  have hc : digitValue c < 16 := (h c List.mem_cons_self).trans (by decide)
  have hspace : (c :: ds' ++ rest).dropWhile isSpace = c :: ds' ++ rest := by
    rw [List.cons_append, List.dropWhile_cons_of_neg]
    rw [isSpace_of_digit hc]
    exact Bool.false_ne_true
  -- the first character is neither white space nor a sign
  have hsign : takeSign (c :: ds' ++ rest) = (false, c :: ds' ++ rest) := by
    have hnot {mark : UInt8} (hmark : 16 ≤ digitValue mark) :
        (c :: ds' ++ rest).head? ≠ some mark := by
      intro hhead
      obtain rfl : c = mark := Option.some.inj hhead
      omega
    rw [takeSign, if_neg (hnot (by decide)), if_neg (hnot (by decide))]
  have hmark : dropMark 10 (c :: ds' ++ rest) = c :: ds' ++ rest := if_neg (by simp)
  simp only [scan, hspace, hsign, hmark, takeWhile_digits_append h hrest]
  rw [if_neg hne]

end Width

namespace Calendar

/-! ### The Gregorian calendar -/

/-- A leap year. -/
def IsLeap (year : ℕ) : Prop := 4 ∣ year ∧ (¬100 ∣ year ∨ 400 ∣ year)

instance : DecidablePred IsLeap := fun _ => inferInstanceAs (Decidable (_ ∧ _))

/-- The days of a month; there is none before the first. -/
def monthLength (year : ℕ) : ℕ → ℕ
  | 0 => 0
  | 2 => if IsLeap year then 29 else 28
  | 4 | 6 | 9 | 11 => 30
  | _ => 31

/-- The days of the months before a month. -/
def daysBeforeMonth (year : ℕ) : ℕ → ℕ
  | 0 => 0
  | month + 1 => daysBeforeMonth year month + monthLength year month

/-- The days of the years before a year. -/
def daysBeforeYear : ℕ → ℕ
  | 0 => 0
  | year + 1 => daysBeforeYear year + daysBeforeMonth year 13

/-- A date of a year with four digits. -/
structure Date where
  year : ℕ
  month : ℕ
  day : ℕ
  year_lt : year < 10000
  month_mem : 1 ≤ month ∧ month ≤ 12
  day_mem : 1 ≤ day ∧ day ≤ monthLength year month

/-- The days before 1970. -/
def epoch : ℕ := 719528

/-- The number of a day; the first day of 1970 is zero. -/
def Date.dayNumber (d : Date) : ℤ :=
  daysBeforeYear d.year + daysBeforeMonth d.year d.month + (d.day - 1) - epoch

/-- A time of day. -/
structure Time where
  hour : ℕ
  minute : ℕ
  second : ℕ
  hour_lt : hour < 24
  minute_lt : minute < 60
  second_lt : second < 60

/-- The seconds since midnight. -/
def Time.seconds (t : Time) : ℕ := t.second + t.minute * 60 + t.hour * 3600

/-- How far local time is ahead of universal time, or behind it. -/
structure Offset where
  behind : Bool
  hour : ℕ
  minute : ℕ
  hour_lt : hour < 24
  minute_lt : minute < 60

/-- The seconds that local time is ahead. -/
def Offset.seconds (o : Offset) : ℤ :=
  if o.behind then -(o.minute * 60 + o.hour * 3600 : ℕ) else (o.minute * 60 + o.hour * 3600 : ℕ)

theorem monthLength_le (year month : ℕ) : monthLength year month ≤ 31 := by
  unfold monthLength
  split
  · omega
  · split_ifs <;> omega
  all_goals omega

theorem daysBeforeMonth_thirteen (year : ℕ) :
    daysBeforeMonth year 13 = if IsLeap year then 366 else 365 := by
  simp only [daysBeforeMonth, monthLength]
  split_ifs <;> rfl

/-- Every fourth year has one more day, but not every hundredth, and again every four hundredth. -/
theorem daysBeforeYear_eq (year : ℕ) :
    daysBeforeYear year + (year + 99) / 100 = 365 * year + (year + 3) / 4 + (year + 399) / 400 := by
  induction year with
  | zero => rfl
  | succ year ih =>
    rw [daysBeforeYear, daysBeforeMonth_thirteen]
    -- the quotients step just where the year is a leap year
    split_ifs with hleap
    · unfold IsLeap at hleap
      omega
    · unfold IsLeap at hleap
      omega

/-- The days that February lacks to thirty, once it is over. -/
def lacking (year month : ℕ) : ℕ := if month ≤ 2 then 0 else if IsLeap year then 1 else 2

/-- If February had thirty days, the months would follow a line. -/
theorem daysBeforeMonth_eq (year : ℕ) {month : ℕ} (hfirst : 1 ≤ month) (hlast : month ≤ 12) :
    daysBeforeMonth year month + lacking year month = (367 * month - 362) / 12 := by
  by_cases hleap : IsLeap year
  · interval_cases month <;> simp [daysBeforeMonth, monthLength, lacking, hleap]
  · interval_cases month <;> simp [daysBeforeMonth, monthLength, lacking, hleap]

theorem daysBeforeYear_epoch : daysBeforeYear 1970 = epoch := by
  have h := daysBeforeYear_eq 1970
  unfold epoch
  omega

theorem Date.day_le (d : Date) : d.day ≤ 31 := d.day_mem.2.trans (monthLength_le _ _)

/-- The days of ten thousand years. -/
theorem Date.dayNumber_bounds (d : Date) : -719528 ≤ d.dayNumber ∧ d.dayNumber < 3000000 := by
  have hyear := d.year_lt
  have hday := d.day_mem.1
  have hlast := d.day_le
  have hyears := daysBeforeYear_eq d.year
  have hmonths := daysBeforeMonth_eq d.year d.month_mem.1 d.month_mem.2
  have hmonth := d.month_mem
  unfold dayNumber epoch
  omega

theorem Time.seconds_lt (t : Time) : t.seconds < 86400 := by
  have hhour := t.hour_lt
  have hminute := t.minute_lt
  have hsecond := t.second_lt
  unfold seconds
  omega

theorem Offset.seconds_bounds (o : Offset) : -86400 ≤ o.seconds ∧ o.seconds ≤ 86400 := by
  have hhour := o.hour_lt
  have hminute := o.minute_lt
  unfold seconds
  split_ifs
  · omega
  · omega

/-! ### Texts -/

def dateSeparator : UInt8 := 0x2D
def timeSeparator : UInt8 := 0x3A
def timeDesignator : UInt8 := 0x54
def utcDesignator : UInt8 := 0x5A

/-- `YYYY-MM-DD` -/
def Date.text (d : Date) : List UInt8 :=
  fourDigits d.year ++ dateSeparator :: (twoDigits d.month ++ dateSeparator :: twoDigits d.day)

/-- `HH:MM:SS` -/
def Time.text (t : Time) : List UInt8 :=
  twoDigits t.hour ++ timeSeparator :: (twoDigits t.minute ++ timeSeparator :: twoDigits t.second)

/-- `hh:mm`, without the sign -/
def Offset.digits (o : Offset) : List UInt8 :=
  twoDigits o.hour ++ timeSeparator :: twoDigits o.minute

/-- The four forms of a time stamp. -/
inductive Stamp
  | date (d : Date)
  | dateTime (d : Date) (t : Time)
  | utc (d : Date) (t : Time)
  | zoned (d : Date) (t : Time) (o : Offset)

namespace Stamp

def text : Stamp → List UInt8
  | date d => d.text
  | dateTime d t => d.text ++ timeDesignator :: t.text
  | utc d t => d.text ++ timeDesignator :: (t.text ++ [utcDesignator])
  | zoned d t o =>
    d.text ++ timeDesignator :: (t.text ++ (if o.behind then minusSign else plusSign) :: o.digits)

/-- The midnight of the date, as if it were in universal time. -/
def midnight : Stamp → ℤ
  | date d | dateTime d _ | utc d _ | zoned d _ _ => 86400 * d.dayNumber

/-- The time of day in seconds. -/
def timeOfDay : Stamp → ℤ
  | date _ => 0
  | dateTime _ t | utc _ t | zoned _ t _ => t.seconds

/-- The offset from universal time in seconds. -/
def offset : Stamp → ℤ
  | date _ | dateTime _ _ | utc _ _ => 0
  | zoned _ _ o => o.seconds

/-- The seconds since the first day of 1970 began in universal time. -/
def instant (s : Stamp) : ℤ := s.midnight + s.timeOfDay - s.offset

variable (s : Stamp)

theorem midnight_bounds : -70000000000 ≤ s.midnight ∧ s.midnight ≤ 260000000000 := by
  cases s with
  | date d | dateTime d _ | utc d _ | zoned d _ _ =>
    have hday := d.dayNumber_bounds
    simp only [midnight]
    omega

theorem timeOfDay_bounds : 0 ≤ s.timeOfDay ∧ s.timeOfDay < 86400 := by
  cases s with
  | date d => simp [timeOfDay]
  | dateTime _ t | utc _ t | zoned _ t _ =>
    have hlt := t.seconds_lt
    simp only [timeOfDay]
    omega

theorem offset_bounds : -86400 ≤ s.offset ∧ s.offset ≤ 86400 := by
  cases s with
  | date _ | dateTime _ _ | utc _ _ => simp [offset]
  | zoned _ _ o => exact o.seconds_bounds

end Stamp

end Calendar

end Theory
