import Cyng.Io.Utf8
import Cyng.Parse.Numbers
import Cyng.Theory.Calendar

/-!
# Time stamps

`to_timestamp` goes by the length of a text. The C library counts the seconds of the date, and
the time of day and the offset from universal time are added as durations. The clock counts ticks
with 64 bits, so that not every date has a time point.

An offset says how far the local time is ahead, and has to be taken away to get the instant. It is
added. So a text is read as its instant only where there is no offset, or one of zero.
-/

namespace Cyng

open Theory Theory.Calendar

/-! ### The C library and the clock -/

/-- `std::tm` -/
structure Tm where
  sec : ℤ
  min : ℤ
  hour : ℤ
  mday : ℤ
  mon : ℤ
  year : ℤ
  wday : ℤ
  yday : ℤ
  isdst : ℤ

/-- `timegm`: the seconds since the epoch of a time in universal time. What the last three fields
hold does not matter. -/
structure TimeLibrary where
  timegm : Tm → ℤ
  timegm_eq : ∀ (d : Date) (t : Time) wday yday isdst,
    timegm ⟨t.second, t.minute, t.hour, d.day, d.month - 1, d.year - 1900, wday, yday, isdst⟩ =
      86400 * d.dayNumber + t.seconds

/-- `std::chrono::system_clock`: ticks since the epoch. How many make a second is up to the
library; none counts finer than in nanoseconds. -/
structure SystemClock where
  ticks : ℕ
  ticks_pos : 0 < ticks
  ticks_le : ticks ≤ 10 ^ 9

/-- A number of ticks, which has 64 bits. -/
def rep (n : ℤ) : Except Fault ℤ :=
  if -2 ^ 63 ≤ n ∧ n < 2 ^ 63 then .ok n else .error (.undefined "signed overflow")

namespace SystemClock

variable (clk : SystemClock)

/-- `system_clock::from_time_t` -/
def fromTimeT (tt : ℤ) : Except Fault ℤ := rep (tt * clk.ticks)

/-- A duration in seconds is added to a time point. -/
def add (tp secs : ℤ) : Except Fault ℤ := do
  let d ← rep (secs * clk.ticks)
  rep (tp + d)

/-- A duration in seconds is taken from a time point. -/
def sub (tp secs : ℤ) : Except Fault ℤ := do
  let d ← rep (secs * clk.ticks)
  rep (tp - d)

/-- The seconds that have a time point. -/
def InRange (secs : ℤ) : Prop := -2 ^ 63 ≤ secs * clk.ticks ∧ secs * clk.ticks < 2 ^ 63

instance (secs : ℤ) : Decidable (clk.InRange secs) := inferInstanceAs (Decidable (_ ∧ _))

end SystemClock

/-! ### Reading -/

/-- `split(std::string const&, char)`: three numbers, or zeros if there are not three parts. -/
def splitThree (str : Bytes) (sep : UInt8) :
    Except Fault (BitVec 32 × BitVec 32 × BitVec 32) :=
  match str.splitOn sep with
  | [x, y, z] => do
    let x ← stoul 10 x
    let y ← stoul 10 y
    let z ← stoul 10 z
    return (x.setWidth 32, y.setWidth 32, z.setWidth 32)
  | _ => .ok (0, 0, 0)

/-- `split(std::string const&)`: two numbers with a colon between them. -/
def splitTwo (str : Bytes) : Except Fault (BitVec 32 × BitVec 32) :=
  match str.splitOn colon with
  | [x, y] => do
    let x ← stoul 10 x
    let y ← stoul 10 y
    return (x.setWidth 32, y.setWidth 32)
  | _ => .ok (0, 0)

section ToTimestamp

variable (lib : TimeLibrary) (clk : SystemClock)

/-- `to_timestamp_date` -/
def toTimestampDate (str : Bytes) : Except Fault ℤ := do
  let (year, month, day) ← splitThree str minusSign
  clk.fromTimeT
    (lib.timegm ⟨0, 0, 0, day.toInt, (month - 1).toInt, (year - 1900).toInt, 0, 0, -1⟩)

/-- `to_timestamp_offset`, in seconds -/
def toTimestampOffset (str : Bytes) : Except Fault ℤ := do
  let (h, m, s) ← splitThree str colon
  return (s.setWidth 64 + m.setWidth 64 * 60 + h.setWidth 64 * 60 * 60 : BitVec 64).toInt

/-- `to_tz_offset`, in minutes -/
def toTzOffset (str : Bytes) : Except Fault ℤ := do
  let (h, m) ← splitTwo str
  return (m.setWidth 64 + h.setWidth 64 * 60 : BitVec 64).toInt

/-- The last case of `to_timestamp`, which the case before it falls into. -/
def toTimestampZoned (str : Bytes) : Except Fault ℤ :=
  if str[10]? = some 0x54 ∧ str[19]? = some plusSign then do
    let tp ← toTimestampDate lib clk (str.take 10)
    let time ← toTimestampOffset ((str.drop 11).take 8)
    let tz ← toTzOffset (str.drop 20)
    let tp ← clk.add tp time
    clk.add tp (tz * 60)
  else if str[10]? = some 0x54 ∧ str[19]? = some minusSign then do
    let tp ← toTimestampDate lib clk (str.take 10)
    let time ← toTimestampOffset ((str.drop 11).take 8)
    let tz ← toTzOffset (str.drop 20)
    let tp ← clk.add tp time
    clk.sub tp (tz * 60)
  else .ok 0

/-- `to_timestamp`: ticks since the epoch, none for a text of another form. -/
def toTimestamp (str : Bytes) : Except Fault ℤ :=
  if str.length = 10 then toTimestampDate lib clk str
  else if str.length = 19 then
    if str[10]? = some 0x54 then do
      let tp ← toTimestampDate lib clk str
      let time ← toTimestampOffset (str.drop 11)
      clk.add tp time
    else .ok 0
  else if str.length = 20 then
    if str[10]? = some 0x54 ∧ str[19]? = some 0x5A then do
      let tp ← toTimestampDate lib clk (str.take 10)
      let time ← toTimestampOffset ((str.drop 11).take 8)
      clk.add tp time
    else toTimestampZoned lib clk str
  else if str.length = 25 then toTimestampZoned lib clk str
  else .ok 0

/-- A text is read as the instant that it denotes. -/
def ReadsInstant (s : Stamp) : Prop := toTimestamp lib clk s.text = .ok (s.instant * clk.ticks)

end ToTimestamp

/-! ### Fields -/

/-- The text of a field that is read as a number. -/
def ReadsAs (str : Bytes) (n : ℕ) : Prop :=
  ∃ v, stoul 10 str = .ok v ∧ v.setWidth 32 = BitVec.ofNat 32 n

section Fields

variable {ds rest x y z : Bytes} {k m n : ℕ}

/-- What stands behind the digits is not looked at. -/
theorem readsAs_append (h : Digits 10 ds) (hne : ds ≠ []) (hlt : ofNumeral 10 ds < 2 ^ 32)
    (hrest : ∀ c, rest.head? = some c → ¬digitValue c < 10) :
    ReadsAs (ds ++ rest) (ofNumeral 10 ds) :=
  ⟨_, stoull_of_scan (scan_append h hne hrest) (hlt.trans (by decide)),
    BitVec.setWidth_ofNat_of_le (by decide) _⟩

theorem readsAs_twoDigits_append (h : n < 100)
    (hrest : ∀ c, rest.head? = some c → ¬digitValue c < 10) :
    ReadsAs (twoDigits n ++ rest) n := by
  have hvalue := ofNumeral_twoDigits h
  have hread := readsAs_append (digits_twoDigits h) (List.cons_ne_nil _ _) (by omega) hrest
  rwa [hvalue] at hread

theorem readsAs_twoDigits (h : n < 100) : ReadsAs (twoDigits n) n := by
  have hread : ReadsAs (twoDigits n ++ []) n := readsAs_twoDigits_append h (by simp)
  rwa [List.append_nil] at hread

theorem readsAs_fourDigits (h : n < 10000) : ReadsAs (fourDigits n) n := by
  have hvalue := ofNumeral_fourDigits h
  have hread : ReadsAs (fourDigits n ++ []) (ofNumeral 10 (fourDigits n)) :=
    readsAs_append (digits_fourDigits h) (List.cons_ne_nil _ _) (by omega) (by simp)
  rwa [hvalue, List.append_nil] at hread

theorem splitThree_eq {sep : UInt8} (hx : sep ∉ x) (hy : sep ∉ y) (hz : sep ∉ z)
    (readsX : ReadsAs x k) (readsY : ReadsAs y m) (readsZ : ReadsAs z n) :
    splitThree (x ++ sep :: (y ++ sep :: z)) sep =
      .ok (BitVec.ofNat 32 k, BitVec.ofNat 32 m, BitVec.ofNat 32 n) := by
  have hparts : x ++ sep :: (y ++ sep :: z) = [sep].intercalate [x, y, z] := by
    simp [List.intercalate_cons_cons]
  have hsplit : (x ++ sep :: (y ++ sep :: z)).splitOn sep = [x, y, z] := by
    rw [hparts]
    exact List.splitOn_intercalate sep (by simp [hx, hy, hz]) (List.cons_ne_nil _ _)
  obtain ⟨vx, hvx, hwx⟩ := readsX
  obtain ⟨vy, hvy, hwy⟩ := readsY
  obtain ⟨vz, hvz, hwz⟩ := readsZ
  simp only [splitThree, hsplit, hvx, hvy, hvz, ok_bind, hwx, hwy, hwz, pure_eq_ok]

theorem splitTwo_eq (hx : colon ∉ x) (hy : colon ∉ y) (readsX : ReadsAs x k)
    (readsY : ReadsAs y m) :
    splitTwo (x ++ colon :: y) = .ok (BitVec.ofNat 32 k, BitVec.ofNat 32 m) := by
  have hparts : x ++ colon :: y = [colon].intercalate [x, y] := by
    simp [List.intercalate_cons_cons]
  have hsplit : (x ++ colon :: y).splitOn colon = [x, y] := by
    rw [hparts]
    exact List.splitOn_intercalate colon (by simp [hx, hy]) (List.cons_ne_nil _ _)
  obtain ⟨vx, hvx, hwx⟩ := readsX
  obtain ⟨vy, hvy, hwy⟩ := readsY
  simp only [splitTwo, hsplit, hvx, hvy, ok_bind, hwx, hwy, pure_eq_ok]

/-- The difference of two small numbers, as an `int`. -/
theorem toInt_ofNat_sub_ofNat (hm : m < 2 ^ 30) (hn : n < 2 ^ 30) :
    (BitVec.ofNat 32 m - BitVec.ofNat 32 n).toInt = m - n := by
  simp only [BitVec.toInt_eq_toNat_bmod, BitVec.toNat_sub, BitVec.toNat_ofNat, Int.bmod_def]
  omega

theorem toInt_ofNat_of_lt {w : ℕ} (h : 2 * n < 2 ^ w) : (BitVec.ofNat w n).toInt = n := by
  have hcast : (n : ℤ) * 2 < (2 ^ w : ℕ) := by
    rw [Int.mul_comm]
    exact_mod_cast h
  rw [BitVec.toInt_ofNat']
  exact Int.bmod_eq_of_le_mul_two (by omega) hcast

theorem setWidth_ofNat_of_lt (h : n < 2 ^ 32) :
    (BitVec.ofNat 32 n).setWidth 64 = BitVec.ofNat 64 n :=
  BitVec.setWidth_ofNat_of_le_of_lt (by decide) h

end Fields

section Parts

variable {lib : TimeLibrary} {clk : SystemClock} {rest : Bytes}

/-- A date is split whatever follows its last digit, as long as that is no further part. -/
theorem splitThree_date_append (d : Date)
    (hrest : ∀ c, rest.head? = some c → ¬digitValue c < 10) (hnot : minusSign ∉ rest) :
    splitThree (d.text ++ rest) minusSign =
      .ok (BitVec.ofNat 32 d.year, BitVec.ofNat 32 d.month, BitVec.ofNat 32 d.day) := by
  have hyear := d.year_lt
  have hmonth := d.month_mem
  have hday := d.day_le
  have hsep : 16 ≤ digitValue minusSign := by decide
  have htext : d.text ++ rest = fourDigits d.year ++
      minusSign :: (twoDigits d.month ++ minusSign :: (twoDigits d.day ++ rest)) := by
    simp [Date.text, dateSeparator, minusSign]
  have hlast : minusSign ∉ twoDigits d.day ++ rest := by
    rw [List.mem_append, not_or]
    exact ⟨notMem_twoDigits hsep (by omega), hnot⟩
  rw [htext]
  exact splitThree_eq (notMem_fourDigits hsep hyear) (notMem_twoDigits hsep (by omega)) hlast
    (readsAs_fourDigits hyear) (readsAs_twoDigits (by omega))
    (readsAs_twoDigits_append (by omega) hrest)

theorem splitThree_time (t : Time) :
    splitThree t.text colon =
      .ok (BitVec.ofNat 32 t.hour, BitVec.ofNat 32 t.minute, BitVec.ofNat 32 t.second) := by
  have hhour := t.hour_lt
  have hminute := t.minute_lt
  have hsecond := t.second_lt
  have hsep : 16 ≤ digitValue colon := by decide
  exact splitThree_eq (notMem_twoDigits hsep (by omega)) (notMem_twoDigits hsep (by omega))
    (notMem_twoDigits hsep (by omega)) (readsAs_twoDigits (by omega))
    (readsAs_twoDigits (by omega)) (readsAs_twoDigits (by omega))

theorem splitTwo_offset (o : Offset) :
    splitTwo o.digits = .ok (BitVec.ofNat 32 o.hour, BitVec.ofNat 32 o.minute) := by
  have hhour := o.hour_lt
  have hminute := o.minute_lt
  have hsep : 16 ≤ digitValue colon := by decide
  exact splitTwo_eq (notMem_twoDigits hsep (by omega)) (notMem_twoDigits hsep (by omega))
    (readsAs_twoDigits (by omega)) (readsAs_twoDigits (by omega))

theorem toTimestampDate_append (d : Date)
    (hrest : ∀ c, rest.head? = some c → ¬digitValue c < 10) (hnot : minusSign ∉ rest) :
    toTimestampDate lib clk (d.text ++ rest) = rep (86400 * d.dayNumber * clk.ticks) := by
  have hyear := d.year_lt
  have hmonth := d.month_mem
  have hday := d.day_le
  -- the year is counted from 1900 and may become negative
  have hyr : (BitVec.ofNat 32 d.year - 1900).toInt = (d.year : ℤ) - 1900 :=
    toInt_ofNat_sub_ofNat (n := 1900) (by omega) (by omega)
  have hmon : (BitVec.ofNat 32 d.month - 1).toInt = (d.month : ℤ) - 1 :=
    toInt_ofNat_sub_ofNat (n := 1) (by omega) (by omega)
  have hmday : (BitVec.ofNat 32 d.day).toInt = (d.day : ℤ) := toInt_ofNat_of_lt (by omega)
  have htt := lib.timegm_eq d ⟨0, 0, 0, by decide, by decide, by decide⟩ 0 0 (-1)
  simp only [Time.seconds, Nat.cast_zero, zero_mul, add_zero] at htt
  simp only [toTimestampDate, splitThree_date_append d hrest hnot, ok_bind, hyr, hmon, hmday, htt,
    SystemClock.fromTimeT]

theorem toTimestampDate_text (d : Date) :
    toTimestampDate lib clk d.text = rep (86400 * d.dayNumber * clk.ticks) := by
  have h : toTimestampDate lib clk (d.text ++ []) = rep (86400 * d.dayNumber * clk.ticks) :=
    toTimestampDate_append d (by simp) (by simp)
  rwa [List.append_nil] at h

theorem toTimestampOffset_text (t : Time) : toTimestampOffset t.text = .ok t.seconds := by
  have hhour := t.hour_lt
  have hminute := t.minute_lt
  have hsecond := t.second_lt
  have hsum : BitVec.ofNat 64 t.second + BitVec.ofNat 64 t.minute * 60 +
      BitVec.ofNat 64 t.hour * 60 * 60 = BitVec.ofNat 64 t.seconds := by
    have hhours : t.hour * 3600 = t.hour * 60 * 60 := by omega
    rw [Time.seconds, hhours]
    simp only [BitVec.ofNat_add, BitVec.ofNat_mul, BitVec.ofNat_eq_ofNat]
  have hlt := t.seconds_lt
  simp only [toTimestampOffset, splitThree_time, ok_bind, pure_eq_ok,
    setWidth_ofNat_of_lt (show t.second < 2 ^ 32 by omega),
    setWidth_ofNat_of_lt (show t.minute < 2 ^ 32 by omega),
    setWidth_ofNat_of_lt (show t.hour < 2 ^ 32 by omega), hsum]
  rw [toInt_ofNat_of_lt (by omega)]

theorem toTzOffset_digits (o : Offset) :
    toTzOffset o.digits = .ok (o.minute + o.hour * 60 : ℕ) := by
  have hhour := o.hour_lt
  have hminute := o.minute_lt
  have hsum : BitVec.ofNat 64 o.minute + BitVec.ofNat 64 o.hour * 60 =
      BitVec.ofNat 64 (o.minute + o.hour * 60) := by
    simp only [BitVec.ofNat_add, BitVec.ofNat_mul, BitVec.ofNat_eq_ofNat]
  simp only [toTzOffset, splitTwo_offset, ok_bind, pure_eq_ok,
    setWidth_ofNat_of_lt (show o.minute < 2 ^ 32 by omega),
    setWidth_ofNat_of_lt (show o.hour < 2 ^ 32 by omega), hsum]
  rw [toInt_ofNat_of_lt (by omega)]

end Parts

/-! ### Durations -/

section Durations

variable {clk : SystemClock} {n r secs : ℤ}

theorem rep_eq_ok_iff : rep n = .ok r ↔ (-2 ^ 63 ≤ n ∧ n < 2 ^ 63) ∧ n = r := by
  unfold rep
  split_ifs with h
  · rw [Except.ok.injEq]
    exact (and_iff_right h).symm
  · exact iff_of_false (by simp) fun h' => h h'.1

theorem rep_of_inRange (h : clk.InRange n) : rep (n * clk.ticks) = .ok (n * clk.ticks) := if_pos h

theorem inRange_of_mul_lt {bound : ℤ} (hbound : bound * clk.ticks < 2 ^ 63)
    (hlow : -bound ≤ secs) (hhigh : secs ≤ bound) : clk.InRange secs := by
  have hpos : (0 : ℤ) ≤ clk.ticks := Int.natCast_nonneg _
  have hfrom : -bound * clk.ticks ≤ secs * clk.ticks :=
    Int.mul_le_mul_of_nonneg_right hlow hpos
  have hto : secs * clk.ticks ≤ bound * clk.ticks := Int.mul_le_mul_of_nonneg_right hhigh hpos
  rw [Int.neg_mul] at hfrom
  constructor
  · omega
  · omega

/-- A day fits, whatever the clock. -/
theorem inRange_of_le (hlow : -86400 ≤ secs) (hhigh : secs ≤ 86400) : clk.InRange secs := by
  have hticks := clk.ticks_le
  have hbound : (86400 : ℤ) * clk.ticks < 2 ^ 63 := by omega
  exact inRange_of_mul_lt hbound hlow hhigh

/-- Where the clock counts no finer than a tenth of a microsecond, all years with four digits
fit. -/
theorem inRange_of_ticks_le (hticks : clk.ticks ≤ 10 ^ 7) (s : Stamp) :
    clk.InRange s.midnight ∧ clk.InRange s.instant := by
  have hbound : (300000000000 : ℤ) * clk.ticks < 2 ^ 63 := by omega
  have hmidnight := s.midnight_bounds
  have htime := s.timeOfDay_bounds
  have hoffset := s.offset_bounds
  have hinstant : s.instant = s.midnight + s.timeOfDay - s.offset := rfl
  exact ⟨inRange_of_mul_lt hbound (by omega) (by omega),
    inRange_of_mul_lt hbound (by omega) (by omega)⟩

theorem add_eq_rep (hlow : -86400 ≤ secs) (hhigh : secs ≤ 86400) :
    clk.add (n * clk.ticks) secs = rep ((n + secs) * clk.ticks) := by
  rw [SystemClock.add, rep_of_inRange (inRange_of_le hlow hhigh), ok_bind, Int.add_mul]

theorem sub_eq_rep (hlow : -86400 ≤ secs) (hhigh : secs ≤ 86400) :
    clk.sub (n * clk.ticks) secs = rep ((n - secs) * clk.ticks) := by
  rw [SystemClock.sub, rep_of_inRange (inRange_of_le hlow hhigh), ok_bind, Int.sub_mul]

/-- What is computed from a number of ticks may rely on that number. -/
theorem rep_bind_congr {α : Type} {f g : ℤ → Except Fault α} (h : f n = g n) :
    (rep n >>= f) = (rep n >>= g) := by
  cases hrep : rep n with
  | error fault => rfl
  | ok r =>
    obtain ⟨-, rfl⟩ := rep_eq_ok_iff.mp hrep
    exact h

theorem rep_bind_rep : (rep n >>= fun _ => rep n) = rep n := by
  cases h : rep n with
  | error fault => rfl
  | ok r => rfl

end Durations

/-! ### Texts -/

section Texts

variable {lib : TimeLibrary} {clk : SystemClock}

/-- The date, the time of day and the offset are added up. -/
def addedUp (clk : SystemClock) (s : Stamp) : Except Fault ℤ := do
  let _ ← rep (s.midnight * clk.ticks)
  let _ ← rep ((s.midnight + s.timeOfDay) * clk.ticks)
  rep ((s.midnight + s.timeOfDay + s.offset) * clk.ticks)

theorem toTimestamp_date (d : Date) :
    toTimestamp lib clk (Stamp.date d).text = addedUp clk (.date d) := by
  have hlength : (Stamp.date d).text.length = 10 := rfl
  rw [toTimestamp, if_pos hlength]
  simp only [addedUp, Stamp.text, Stamp.midnight, Stamp.timeOfDay, Stamp.offset, add_zero,
    rep_bind_rep]
  exact toTimestampDate_text d

/-- No part of the time of day is taken for one of the date. -/
theorem minusSign_notMem_time (t : Time) : minusSign ∉ timeDesignator :: t.text := by
  have hsep : 16 ≤ digitValue minusSign := by decide
  have hhour := notMem_twoDigits hsep (t.hour_lt.trans (by decide))
  have hminute := notMem_twoDigits hsep (t.minute_lt.trans (by decide))
  have hsecond := notMem_twoDigits hsep (t.second_lt.trans (by decide))
  have htime : minusSign ≠ timeSeparator := by decide
  have hmark : minusSign ≠ timeDesignator := by decide
  simp [Time.text, hhour, hminute, hsecond, htime, hmark]

theorem toTimestamp_dateTime (d : Date) (t : Time) :
    toTimestamp lib clk (Stamp.dateTime d t).text = addedUp clk (.dateTime d t) := by
  have hten : (Stamp.dateTime d t).text.length ≠ 10 := by
    show 19 ≠ 10
    decide
  have hlength : (Stamp.dateTime d t).text.length = 19 := rfl
  have hmark : (Stamp.dateTime d t).text[10]? = some 0x54 := rfl
  have hdrop : (Stamp.dateTime d t).text.drop 11 = t.text := rfl
  -- the date is read from the whole text, and its day ends at the `T`
  have hdate : toTimestampDate lib clk (Stamp.dateTime d t).text = _ :=
    toTimestampDate_append d (fun c hc => by
      obtain rfl := Option.some.inj hc
      decide) (minusSign_notMem_time t)
  have hlt := t.seconds_lt
  rw [toTimestamp, if_neg hten, if_pos hlength, if_pos hmark, hdate, hdrop, toTimestampOffset_text]
  simp only [addedUp, Stamp.midnight, Stamp.timeOfDay, Stamp.offset, add_zero, rep_bind_rep]
  apply rep_bind_congr
  rw [ok_bind, add_eq_rep (by omega) (by omega)]

theorem toTimestamp_utc (d : Date) (t : Time) :
    toTimestamp lib clk (Stamp.utc d t).text = addedUp clk (.utc d t) := by
  have hten : (Stamp.utc d t).text.length ≠ 10 := by
    show 20 ≠ 10
    decide
  have hnineteen : (Stamp.utc d t).text.length ≠ 19 := by
    show 20 ≠ 19
    decide
  have hlength : (Stamp.utc d t).text.length = 20 := rfl
  have hmark : (Stamp.utc d t).text[10]? = some 0x54 ∧ (Stamp.utc d t).text[19]? = some 0x5A :=
    ⟨rfl, rfl⟩
  have hdate : (Stamp.utc d t).text.take 10 = d.text := rfl
  have htime : ((Stamp.utc d t).text.drop 11).take 8 = t.text := rfl
  have hlt := t.seconds_lt
  rw [toTimestamp, if_neg hten, if_neg hnineteen, if_pos hlength, if_pos hmark, hdate, htime,
    toTimestampDate_text, toTimestampOffset_text]
  simp only [addedUp, Stamp.midnight, Stamp.timeOfDay, Stamp.offset, add_zero, rep_bind_rep]
  apply rep_bind_congr
  rw [ok_bind, add_eq_rep (by omega) (by omega)]

/-- The parts of a text with an offset are where the code looks for them. -/
theorem toTimestampZoned_parts (d : Date) (t : Time) (o : Offset) :
    (Stamp.zoned d t o).text.take 10 = d.text ∧
      ((Stamp.zoned d t o).text.drop 11).take 8 = t.text ∧
      (Stamp.zoned d t o).text.drop 20 = o.digits ∧
      (Stamp.zoned d t o).text[10]? = some 0x54 ∧
      (Stamp.zoned d t o).text[19]? = some (if o.behind then minusSign else plusSign) :=
  ⟨rfl, rfl, rfl, rfl, rfl⟩

/-- The minutes of the offset are added for a `+`, and taken away for a `-`. -/
theorem toTimestampZoned_text (d : Date) (t : Time) (o : Offset) :
    toTimestampZoned lib clk (Stamp.zoned d t o).text = addedUp clk (.zoned d t o) := by
  obtain ⟨hdate, htime, htz, hmark, hsign⟩ := toTimestampZoned_parts d t o
  have hlt := t.seconds_lt
  have hhour := o.hour_lt
  have hminute := o.minute_lt
  have hsecs : ((o.minute * 60 + o.hour * 3600 : ℕ) : ℤ) = (o.minute + o.hour * 60 : ℕ) * 60 := by
    omega
  simp only [toTimestampZoned, addedUp, Stamp.midnight, Stamp.timeOfDay, Stamp.offset,
    Offset.seconds, hmark, hsign, hdate, htime, htz, toTimestampDate_text,
    toTimestampOffset_text, toTzOffset_digits, hsecs, true_and]
  -- the sign decides whether the offset is added or subtracted
  cases o.behind with
  | false =>
    rw [if_neg Bool.false_ne_true, if_neg Bool.false_ne_true, if_pos rfl]
    apply rep_bind_congr
    rw [ok_bind, ok_bind, add_eq_rep (by omega) (by omega)]
    apply rep_bind_congr
    rw [add_eq_rep (by omega) (by omega)]
  | true =>
    have hne : ¬some minusSign = some plusSign := by decide
    rw [if_pos rfl, if_pos rfl, if_neg hne, if_pos rfl]
    apply rep_bind_congr
    rw [ok_bind, ok_bind, add_eq_rep (by omega) (by omega)]
    apply rep_bind_congr
    rw [sub_eq_rep (by omega) (by omega), Int.sub_eq_add_neg]

theorem toTimestamp_zoned (d : Date) (t : Time) (o : Offset) :
    toTimestamp lib clk (Stamp.zoned d t o).text = addedUp clk (.zoned d t o) := by
  have hlength : (Stamp.zoned d t o).text.length = 25 := rfl
  rw [toTimestamp, hlength, if_neg (by decide), if_neg (by decide), if_neg (by decide),
    if_pos rfl, toTimestampZoned_text]

theorem toTimestamp_text (s : Stamp) : toTimestamp lib clk s.text = addedUp clk s := by
  cases s with
  | date d => exact toTimestamp_date d
  | dateTime d t => exact toTimestamp_dateTime d t
  | utc d t => exact toTimestamp_utc d t
  | zoned d t o => exact toTimestamp_zoned d t o

theorem addedUp_eq_ok_iff {s : Stamp} {r : ℤ} :
    addedUp clk s = .ok r ↔
      clk.InRange s.midnight ∧ clk.InRange (s.midnight + s.timeOfDay) ∧
        clk.InRange (s.midnight + s.timeOfDay + s.offset) ∧
        (s.midnight + s.timeOfDay + s.offset) * clk.ticks = r := by
  constructor
  · intro h
    obtain ⟨_, hmidnight, hrest⟩ := bind_eq_ok_iff.mp h
    obtain ⟨_, htime, hsum⟩ := bind_eq_ok_iff.mp hrest
    exact ⟨(rep_eq_ok_iff.mp hmidnight).1, (rep_eq_ok_iff.mp htime).1, rep_eq_ok_iff.mp hsum⟩
  · rintro ⟨hmidnight, htime, hsum, rfl⟩
    rw [addedUp, rep_of_inRange hmidnight, ok_bind, rep_of_inRange htime, ok_bind,
      rep_of_inRange hsum]

/-- A text is read as the instant that it denotes exactly when it has no offset, or one of zero,
and the clock has time points for the midnight before and for the instant. -/
theorem readsInstant_iff (lib : TimeLibrary) (clk : SystemClock) (s : Stamp) :
    ReadsInstant lib clk s ↔
      s.offset = 0 ∧ clk.InRange s.midnight ∧ clk.InRange s.instant := by
  rw [ReadsInstant, toTimestamp_text, addedUp_eq_ok_iff]
  constructor
  -- the offset is added here and taken away there, so that it has to be zero
  · rintro ⟨hmidnight, -, hsum, heq⟩
    have hticks : (clk.ticks : ℤ) ≠ 0 := by exact_mod_cast clk.ticks_pos.ne'
    have hinstant : s.midnight + s.timeOfDay + s.offset = s.instant :=
      mul_right_cancel₀ hticks heq
    have hoffset : s.offset = 0 := by
      unfold Stamp.instant at hinstant
      omega
    exact ⟨hoffset, hmidnight, hinstant ▸ hsum⟩
  · rintro ⟨hoffset, hmidnight, hinstant⟩
    have hsum : s.midnight + s.timeOfDay = s.instant := by
      rw [Stamp.instant, hoffset, sub_zero]
    rw [hoffset, add_zero, hsum]
    exact ⟨hmidnight, hinstant, hinstant, rfl⟩

/-- Texts of one instant are read as one time point only where their offsets are the same. -/
theorem timePoint_eq_iff {s s' : Stamp} (hinstant : s.instant = s'.instant) {r r' : ℤ}
    (hr : toTimestamp lib clk s.text = .ok r) (hr' : toTimestamp lib clk s'.text = .ok r') :
    r = r' ↔ s.offset = s'.offset := by
  rw [toTimestamp_text, addedUp_eq_ok_iff] at hr hr'
  obtain ⟨-, -, -, rfl⟩ := hr
  obtain ⟨-, -, -, rfl⟩ := hr'
  have hticks : (clk.ticks : ℤ) ≠ 0 := by exact_mod_cast clk.ticks_pos.ne'
  rw [mul_left_inj' hticks]
  unfold Stamp.instant at hinstant
  omega

end Texts

/-! ### Runs -/

/-- The day count of the Gregorian calendar, for years from zero on. -/
def TimeLibrary.gregorian : TimeLibrary where
  timegm tm :=
    let year := tm.year + 1900
    let month := tm.mon + 1
    let days := 365 * year + (year + 3) / 4 - (year + 99) / 100 + (year + 399) / 400 +
      ((367 * month - 362) / 12 - lacking year.toNat month.toNat) + (tm.mday - 1) - epoch
    86400 * days + 3600 * tm.hour + 60 * tm.min + tm.sec
  timegm_eq d t wday yday isdst := by
    have hyears := daysBeforeYear_eq d.year
    have hmonth := d.month_mem
    have hmonths := daysBeforeMonth_eq d.year hmonth.1 hmonth.2
    have hyear : (d.year : ℤ) - 1900 + 1900 = d.year := by omega
    have hmon : (d.month : ℤ) - 1 + 1 = d.month := by omega
    simp only [hyear, hmon, Int.toNat_natCast, Date.dayNumber, Time.seconds]
    omega

/-- The clock of a library that counts nanoseconds. -/
def SystemClock.nanoseconds : SystemClock := ⟨10 ^ 9, by decide, by decide⟩

/-- The twentieth of April 2000. -/
def sampleDate : Date := ⟨2000, 4, 20, by decide, by decide, by decide⟩

theorem dayNumber_sampleDate : sampleDate.dayNumber = 11067 := by
  have hyears := daysBeforeYear_eq 2000
  have hmonths : daysBeforeMonth 2000 4 = 91 := by decide
  show (daysBeforeYear 2000 + daysBeforeMonth 2000 4 + (20 - 1) - epoch : ℤ) = 11067
  unfold epoch
  omega

/-- Six hours, four minutes and a second after midnight, two hours ahead of universal time. -/
def cairo : Stamp :=
  .zoned sampleDate ⟨6, 4, 1, by decide, by decide, by decide⟩ ⟨false, 2, 0, by decide, by decide⟩

/-- The same instant in universal time. -/
def greenwich : Stamp := .utc sampleDate ⟨4, 4, 1, by decide, by decide, by decide⟩

/-- The text is read as a time point four hours late, and the text of the same instant in
universal time as another one. -/
theorem not_readsInstant_cairo :
    cairo.text = utf8 ['2', '0', '0', '0', '-', '0', '4', '-', '2', '0', 'T',
      '0', '6', ':', '0', '4', ':', '0', '1', '+', '0', '2', ':', '0', '0'] ∧
    cairo.instant = 956203441 ∧ greenwich.instant = 956203441 ∧
    toTimestamp .gregorian .nanoseconds cairo.text = .ok (956217841 * 10 ^ 9) ∧
    toTimestamp .gregorian .nanoseconds greenwich.text = .ok (956203441 * 10 ^ 9) ∧
    ¬ReadsInstant .gregorian .nanoseconds cairo := by
  have hmidnight : cairo.midnight = 956188800 ∧ greenwich.midnight = 956188800 := by
    show 86400 * sampleDate.dayNumber = _ ∧ 86400 * sampleDate.dayNumber = _
    rw [dayNumber_sampleDate]
    decide
  have htime : cairo.timeOfDay = 21841 ∧ greenwich.timeOfDay = 14641 := ⟨rfl, rfl⟩
  have hoffset : cairo.offset = 7200 ∧ greenwich.offset = 0 := ⟨rfl, rfl⟩
  have hcairo : toTimestamp .gregorian .nanoseconds cairo.text = .ok (956217841 * 10 ^ 9) := by
    rw [toTimestamp_text, addedUp_eq_ok_iff, hmidnight.1, htime.1, hoffset.1]
    decide
  have hinstant : cairo.instant = 956203441 := by
    rw [Stamp.instant, hmidnight.1, htime.1, hoffset.1]
    rfl
  refine ⟨by decide, hinstant, ?_, hcairo, ?_, ?_⟩
  · rw [Stamp.instant, hmidnight.2, htime.2, hoffset.2]
    rfl
  · rw [toTimestamp_text, addedUp_eq_ok_iff, hmidnight.2, htime.2, hoffset.2]
    decide
  · rw [ReadsInstant, hcairo, hinstant]
    decide

end Cyng
