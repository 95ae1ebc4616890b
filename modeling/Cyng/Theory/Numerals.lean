import Cyng.Theory.Hex
import Mathlib.Data.List.Induction
import Mathlib.Data.List.TakeWhile

/-!
# Numerals

Numbers in the digits of a base up to sixteen, as ASCII bytes, and how they are read back: white
space, a sign, in base sixteen a mark, and then as many digits as there are. What stands behind
the digits is not looked at.

A text that is written in one base and read in another is read up to its first character that is
no digit. The number is the same only where one digit is enough for it.
-/

namespace Theory

/-- The digits of a number, without zeros in front. -/
def numeral (base n : ℕ) : List UInt8 := (Nat.toDigits base n).map fun c => UInt8.ofNat c.toNat

/-- A number with a sign where it is negative. -/
def signedNumeral (base : ℕ) (n : ℤ) : List UInt8 :=
  if n < 0 then 0x2D :: numeral base n.natAbs else numeral base n.natAbs

/-- What a character stands for: digits first, then letters; `36` where it is neither. -/
def digitValue (c : UInt8) : ℕ :=
  if 0x30 ≤ c ∧ c ≤ 0x39 then c.toNat - 0x30
  else if 0x61 ≤ c ∧ c ≤ 0x7A then c.toNat - 0x61 + 10
  else if 0x41 ≤ c ∧ c ≤ 0x5A then c.toNat - 0x41 + 10
  else 36

/-- The number that a row of digits stands for. -/
def ofNumeral (base : ℕ) (ds : List UInt8) : ℕ :=
  ds.foldl (fun n c => n * base + digitValue c) 0

/-- A row of digits of a base. -/
def Digits (base : ℕ) (ds : List UInt8) : Prop := ∀ c ∈ ds, digitValue c < base

/-- `isspace` -/
def isSpace (c : UInt8) : Bool := c = 0x20 || 0x09 ≤ c && c ≤ 0x0D

def plusSign : UInt8 := 0x2B

def minusSign : UInt8 := 0x2D

/-- A sign in front, and what follows. -/
def takeSign (str : List UInt8) : Bool × List UInt8 :=
  if str.head? = some minusSign then (true, str.tail)
  else if str.head? = some plusSign then (false, str.tail)
  else (false, str)

/-- The mark of base sixteen is left out where a digit follows. -/
def dropMark (base : ℕ) (str : List UInt8) : List UInt8 :=
  if base = 16 ∧ (str.take 2 = [0x30, 0x78] ∨ str.take 2 = [0x30, 0x58]) ∧
      ((str.drop 2).takeWhile (digitValue · < 16)) ≠ [] then str.drop 2
  else str

/-- `strtol` and its kin: a sign and a number, or nothing where there is no digit. -/
def scan (base : ℕ) (str : List UInt8) : Option (Bool × ℕ) :=
  let (negative, rest) := takeSign (str.dropWhile isSpace)
  let ds := (dropMark base rest).takeWhile (digitValue · < base)
  if ds = [] then none else some (negative, ofNumeral base ds)

section Values

variable {base : ℕ} {ds ds' : List UInt8}

@[simp] theorem ofNumeral_nil : ofNumeral base [] = 0 := rfl

theorem ofNumeral_append_singleton (c : UInt8) :
    ofNumeral base (ds ++ [c]) = ofNumeral base ds * base + digitValue c := by
  rw [ofNumeral, List.foldl_append]
  rfl

@[simp] theorem digits_nil : Digits base [] := fun _ h => absurd h List.not_mem_nil

theorem Digits.append (h : Digits base ds) (h' : Digits base ds') : Digits base (ds ++ ds') := by
  intro c hc
  rcases List.mem_append.mp hc with hc | hc
  · exact h c hc
  · exact h' c hc

theorem Digits.mono {base' : ℕ} (hle : base ≤ base') (h : Digits base ds) : Digits base' ds :=
  fun c hc => Nat.lt_of_lt_of_le (h c hc) hle

/-- Digits that are left out at the end make the number no greater. -/
theorem ofNumeral_le_append (hbase : 0 < base) :
    ofNumeral base ds ≤ ofNumeral base (ds ++ ds') := by
  induction ds' using List.reverseRecOn with
  | nil => rw [List.append_nil]
  | append_singleton ds' c ih =>
    rw [← List.append_assoc, ofNumeral_append_singleton]
    calc ofNumeral base ds
        ≤ ofNumeral base (ds ++ ds') := ih
      _ ≤ ofNumeral base (ds ++ ds') * base := Nat.le_mul_of_pos_right _ hbase
      _ ≤ ofNumeral base (ds ++ ds') * base + digitValue c := Nat.le_add_right _ _

/-- The same digits make no smaller number in a greater base. -/
theorem ofNumeral_mono {base' : ℕ} (hle : base ≤ base') (ds : List UInt8) :
    ofNumeral base ds ≤ ofNumeral base' ds := by
  induction ds using List.reverseRecOn with
  | nil => exact Nat.le_refl 0
  | append_singleton ds c ih =>
    rw [ofNumeral_append_singleton, ofNumeral_append_singleton]
    exact Nat.add_le_add_right (Nat.mul_le_mul ih hle) _

/-- Digits that make the same number in two bases make one with a single digit. -/
theorem ofNumeral_lt_of_eq {base' : ℕ} (hlt : base < base') (h : Digits base ds) (hpos : 0 < base)
    (heq : ofNumeral base ds = ofNumeral base' ds) : ofNumeral base ds < base := by
  induction ds using List.reverseRecOn with
  | nil => exact hpos
  | append_singleton ds c _ =>
    rw [ofNumeral_append_singleton, ofNumeral_append_singleton] at heq
    have hmul : ofNumeral base ds * base = ofNumeral base' ds * base' :=
      Nat.add_right_cancel heq
    have hmono : ofNumeral base ds ≤ ofNumeral base' ds := ofNumeral_mono hlt.le ds
    -- the number in front of the last digit is multiplied by less, and must be zero
    have hzero : ofNumeral base ds = 0 := by
      rcases Nat.eq_zero_or_pos (ofNumeral base ds) with hzero | hds
      · exact hzero
      · have hsmaller : ofNumeral base ds * base < ofNumeral base' ds * base' :=
          Nat.mul_lt_mul_of_le_of_lt hmono hlt (Nat.lt_of_lt_of_le hds hmono)
        exact absurd hmul hsmaller.ne
    rw [ofNumeral_append_singleton, hzero, Nat.zero_mul, Nat.zero_add]
    exact h c (List.mem_append_right _ (List.mem_singleton_self c))

end Values

/-! ### Written digits -/

section Written

variable {base n : ℕ}

/-- Digits of a base are digit characters. -/
theorem mem_toDigits (hbase : 1 < base) {c : Char} (h : c ∈ Nat.toDigits base n) :
    ∃ d < base, c = Nat.digitChar d := by
  induction n using Nat.strongRecOn with
  | ind n ih =>
    by_cases hn : n < base
    · rw [Nat.toDigits_of_lt_base hn, List.mem_singleton] at h
      exact ⟨n, hn, h⟩
    · have hle : base ≤ n := Nat.le_of_not_lt hn
      rw [Nat.toDigits_of_base_le hbase hle, List.mem_append, List.mem_singleton] at h
      rcases h with h | h
      · exact ih (n / base) (Nat.div_lt_self (by omega) hbase) h
      · exact ⟨n % base, Nat.mod_lt _ (by omega), h⟩

@[simp] theorem digitValue_hexDigit (h : n < 16) : digitValue (hexDigit n) = n := by
  revert n
  decide

theorem numeral_of_lt (h : n < base) : numeral base n = [hexDigit n] := by
  rw [numeral, Nat.toDigits_of_lt_base h]
  rfl

theorem numeral_of_le (hbase : 1 < base) (h : base ≤ n) :
    numeral base n = numeral base (n / base) ++ [hexDigit (n % base)] := by
  rw [numeral, Nat.toDigits_of_base_le hbase h, List.map_append]
  rfl

theorem numeral_ne_nil : numeral base n ≠ [] := by
  have hpos : 0 < (Nat.toDigits base n).length := Nat.length_toDigits_pos
  intro hnil
  have hlength := congrArg List.length hnil
  rw [numeral, List.length_map, List.length_nil] at hlength
  omega

theorem digits_numeral (hbase : 1 < base) (hle : base ≤ 16) : Digits base (numeral base n) := by
  intro c hc
  obtain ⟨x, hx, rfl⟩ := List.mem_map.mp hc
  obtain ⟨d, hd, rfl⟩ := mem_toDigits hbase hx
  rw [← hexDigit, digitValue_hexDigit (Nat.lt_of_lt_of_le hd hle)]
  exact hd

/-- A number is the one its digits stand for. -/
theorem ofNumeral_numeral (hbase : 1 < base) (hle : base ≤ 16) (n : ℕ) :
    ofNumeral base (numeral base n) = n := by
  induction n using Nat.strongRecOn with
  | ind n ih =>
    by_cases hn : n < base
    · rw [numeral_of_lt hn]
      have hlt : n < 16 := Nat.lt_of_lt_of_le hn hle
      exact (congrArg (· + digitValue (hexDigit n)) (Nat.zero_mul base)).trans
        ((Nat.zero_add _).trans (digitValue_hexDigit hlt))
    · have hn' : base ≤ n := Nat.le_of_not_lt hn
      have hmod : n % base < 16 := Nat.lt_of_lt_of_le (Nat.mod_lt n (by omega)) hle
      rw [numeral_of_le hbase hn', ofNumeral_append_singleton,
        ih (n / base) (Nat.div_lt_self (by omega) hbase), digitValue_hexDigit hmod]
      exact Nat.div_add_mod' n base

/-- Zeros in front do not count. -/
theorem ofNumeral_zeros (base k : ℕ) (ds : List UInt8) :
    ofNumeral base (List.replicate k 0x30 ++ ds) = ofNumeral base ds := by
  induction k with
  | zero => rfl
  | succ k ih =>
    rw [List.replicate_succ, List.cons_append, ← ih, ofNumeral, ofNumeral, List.foldl_cons,
      show digitValue 0x30 = 0 by decide, Nat.zero_mul]

theorem digits_zeros {base : ℕ} (hbase : 0 < base) (k : ℕ) :
    Digits base (List.replicate k 0x30) := by
  intro c hc
  rw [List.eq_of_mem_replicate hc]
  exact hbase

theorem hexPad_eq (w n : ℕ) :
    hexPad w n = List.replicate (w - (Nat.toDigits 16 n).length) 0x30 ++ numeral 16 n := rfl

theorem hexPad_ne_nil (w n : ℕ) : hexPad w n ≠ [] := by
  rw [hexPad_eq]
  exact List.append_ne_nil_of_right_ne_nil _ numeral_ne_nil

theorem digits_hexPad (w n : ℕ) : Digits 16 (hexPad w n) := by
  rw [hexPad_eq]
  exact (digits_zeros (by decide) _).append (digits_numeral (by decide) (by decide))

theorem ofNumeral_hexPad (w n : ℕ) : ofNumeral 16 (hexPad w n) = n := by
  rw [hexPad_eq, ofNumeral_zeros, ofNumeral_numeral (by decide) (by decide)]

end Written

/-! ### Scanning -/

section Scan

variable {base : ℕ} {ds rest : List UInt8} {c : UInt8}

theorem isSpace_of_digit (h : digitValue c < 16) : isSpace c = false := by
  by_contra hspace
  simp only [isSpace, Bool.not_eq_false, Bool.or_eq_true, decide_eq_true_eq,
    Bool.and_eq_true] at hspace
  have hc : ¬(0x30 ≤ c ∧ c ≤ 0x39) ∧ ¬(0x61 ≤ c ∧ c ≤ 0x7A) ∧ ¬(0x41 ≤ c ∧ c ≤ 0x5A) := by
    simp only [UInt8.le_iff_toNat_le, ← UInt8.toNat_inj] at hspace ⊢
    simp only [UInt8.reduceToNat] at hspace ⊢
    omega
  rw [digitValue, if_neg hc.1, if_neg hc.2.1, if_neg hc.2.2] at h
  omega

/-- No digit is a sign or a mark. -/
theorem Digits.notMem (h : Digits 16 ds) {mark : UInt8} (hmark : 16 ≤ digitValue mark) :
    mark ∉ ds := fun hmem => Nat.not_lt.mpr hmark (h mark hmem)

theorem dropWhile_digits (h : Digits 16 ds) : ds.dropWhile isSpace = ds := by
  cases ds with
  | nil => rfl
  | cons c ds =>
    have hc : isSpace c = false := isSpace_of_digit (h c List.mem_cons_self)
    rw [List.dropWhile_cons, hc]
    rfl

theorem takeSign_digits (h : Digits 16 ds) : takeSign ds = (false, ds) := by
  have hne {mark : UInt8} (hmark : 16 ≤ digitValue mark) : ds.head? ≠ some mark := fun hhead =>
    h.notMem hmark (List.mem_of_head? hhead)
  rw [takeSign, if_neg (hne (by decide)), if_neg (hne (by decide))]

theorem dropMark_digits (h : Digits 16 ds) (base : ℕ) : dropMark base ds = ds := by
  -- the second character of a mark is no digit
  have hne {z mark : UInt8} (hmark : 16 ≤ digitValue mark) : ds.take 2 ≠ [z, mark] := by
    intro htake
    have hmem : mark ∈ ds.take 2 := by rw [htake]; simp
    exact h.notMem hmark (List.mem_of_mem_take hmem)
  rw [dropMark, if_neg]
  rintro ⟨-, hmark | hmark, -⟩
  · exact hne (by decide) hmark
  · exact hne (by decide) hmark

/-- Digits up to sixteen are read as far as they are digits of the base. -/
theorem scan_digits (h : Digits 16 ds) (base : ℕ) :
    scan base ds =
      if ds.takeWhile (digitValue · < base) = [] then none
      else some (false, ofNumeral base (ds.takeWhile (digitValue · < base))) := by
  simp only [scan, dropWhile_digits h, takeSign_digits h, dropMark_digits h]

theorem scan_minus (h : Digits 16 ds) (base : ℕ) :
    scan base (minusSign :: ds) =
      if ds.takeWhile (digitValue · < base) = [] then none
      else some (true, ofNumeral base (ds.takeWhile (digitValue · < base))) := by
  have hspace : (minusSign :: ds).dropWhile isSpace = minusSign :: ds := rfl
  have hsign : takeSign (minusSign :: ds) = (true, ds) := rfl
  simp only [scan, hspace, hsign, dropMark_digits h]

theorem takeWhile_digits (h : Digits base ds) : ds.takeWhile (digitValue · < base) = ds :=
  List.takeWhile_eq_self_iff.mpr fun c hc => decide_eq_true (h c hc)

theorem scan_numeral (hbase : 1 < base) (hle : base ≤ 16) (n : ℕ) :
    scan base (numeral base n) = some (false, n) := by
  have hdigits : Digits base (numeral base n) := digits_numeral hbase hle
  rw [scan_digits (hdigits.mono hle), takeWhile_digits hdigits, if_neg numeral_ne_nil,
    ofNumeral_numeral hbase hle]

/-- A number with a sign is read with its sign. -/
theorem scan_signedNumeral (hbase : 1 < base) (hle : base ≤ 16) (n : ℤ) :
    scan base (signedNumeral base n) = some (decide (n < 0), n.natAbs) := by
  have hdigits : Digits base (numeral base n.natAbs) := digits_numeral hbase hle
  by_cases hn : n < 0
  · have hminus := scan_minus (hdigits.mono hle) base
    rw [takeWhile_digits hdigits, if_neg numeral_ne_nil, ofNumeral_numeral hbase hle] at hminus
    rw [signedNumeral, if_pos hn, decide_eq_true hn]
    exact hminus
  · rw [signedNumeral, if_neg hn, decide_eq_false hn, scan_numeral hbase hle]

theorem scan_hexPad (w n : ℕ) : scan 16 (hexPad w n) = some (false, n) := by
  have hdigits := digits_hexPad w n
  rw [scan_digits hdigits, takeWhile_digits hdigits, if_neg (hexPad_ne_nil w n), ofNumeral_hexPad]

/-- A hexadecimal text, read in base ten. -/
theorem scan_ten_hexPad_of_lt {w n : ℕ} (h : n < 10) : scan 10 (hexPad w n) = some (false, n) := by
  have hnumeral : numeral 16 n = numeral 10 n := by
    rw [numeral_of_lt h, numeral_of_lt (h.trans (by decide))]
  have hdigits : Digits 10 (hexPad w n) := by
    rw [hexPad_eq, hnumeral]
    exact (digits_zeros (by decide) _).append (digits_numeral (by decide) (by decide))
  rw [scan_digits (digits_hexPad w n), takeWhile_digits hdigits, if_neg (hexPad_ne_nil w n),
    hexPad_eq, ofNumeral_zeros, hnumeral, ofNumeral_numeral (by decide) (by decide)]

/-- It is never read as a greater number, and as the same one only if one digit is enough. -/
theorem scan_ten_hexPad (w n : ℕ) :
    scan 10 (hexPad w n) = none ∧ 10 ≤ n ∨
      ∃ m, scan 10 (hexPad w n) = some (false, m) ∧ m ≤ n ∧ (m = n ↔ n < 10) := by
  rw [scan_digits (digits_hexPad w n)]
  generalize hds : (hexPad w n).takeWhile (digitValue · < 10) = ds
  have hsplit : ds ++ (hexPad w n).dropWhile (digitValue · < 10) = hexPad w n := by
    rw [← hds, List.takeWhile_append_dropWhile]
  have hdigits : Digits 10 ds := fun c hc => by
    rw [← hds] at hc
    simpa using List.mem_takeWhile_imp hc
  have hlow : ofNumeral 10 ds ≤ ofNumeral 16 ds := ofNumeral_mono (by decide) ds
  have hhigh : ofNumeral 16 ds ≤ n := by
    calc ofNumeral 16 ds
        ≤ ofNumeral 16 (ds ++ (hexPad w n).dropWhile (digitValue · < 10)) :=
          ofNumeral_le_append (by decide)
      _ = n := by rw [hsplit, ofNumeral_hexPad]
  -- one digit is read as it is
  have hsmall (hn : n < 10) : ds ≠ [] ∧ ofNumeral 10 ds = n := by
    have hscan := scan_ten_hexPad_of_lt (w := w) hn
    rw [scan_digits (digits_hexPad w n), hds] at hscan
    split at hscan
    · cases hscan
    · case isFalse hne => exact ⟨hne, by simpa using hscan⟩
  by_cases hnil : ds = []
  · left
    refine ⟨if_pos hnil, ?_⟩
    by_contra hn
    exact (hsmall (Nat.lt_of_not_le hn)).1 hnil
  · right
    refine ⟨ofNumeral 10 ds, if_neg hnil, hlow.trans hhigh, fun heq => ?_, fun hn => (hsmall hn).2⟩
    have hsame : ofNumeral 10 ds = ofNumeral 16 ds := Nat.le_antisymm hlow (heq ▸ hhigh)
    rw [← heq]
    exact ofNumeral_lt_of_eq (by decide) hdigits (by decide) hsame

end Scan

end Theory
