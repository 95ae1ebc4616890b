import Mathlib.Data.List.Basic
import Mathlib.Data.Nat.Digits.Defs

/-!
# Hexadecimal text

Numbers in lower case hexadecimal digits, as ASCII bytes. What a stream writes, the digits of
the number filled up with zeros to a width, has exactly that width for numbers that fit, and
is then the positional notation digit by digit.
-/

namespace Theory

/-- The ASCII code of a digit. -/
def hexDigit (n : ℕ) : UInt8 := UInt8.ofNat n.digitChar.toNat

/-- The digits of a number, with zeros in front up to a width. -/
def hexPad (w n : ℕ) : List UInt8 :=
  List.replicate (w - (Nat.toDigits 16 n).length) 0x30 ++
    (Nat.toDigits 16 n).map fun c => UInt8.ofNat c.toNat

/-- The last `w` digits of a number. -/
def hexFixed : ℕ → ℕ → List UInt8
  | 0, _ => []
  | w + 1, n => hexFixed w (n / 16) ++ [hexDigit (n % 16)]

@[simp] theorem length_hexFixed (w n : ℕ) : (hexFixed w n).length = w := by
  induction w generalizing n with
  | zero => rfl
  | succ w ih => simp [hexFixed, ih]

theorem hexFixed_zero (w : ℕ) : hexFixed w 0 = List.replicate w 0x30 := by
  induction w with
  | zero => rfl
  | succ w ih =>
    rw [hexFixed, Nat.zero_div, ih, List.replicate_succ']
    rfl

/-- A number that fits is written with exactly that many digits. -/
theorem hexPad_eq_hexFixed {w n : ℕ} (hw : 0 < w) (h : n < 16 ^ w) :
    hexPad w n = hexFixed w n := by
  induction w generalizing n with
  | zero => exact absurd hw (Nat.lt_irrefl 0)
  | succ w ih =>
    rcases Nat.lt_or_ge n 16 with hn | hle
    · rw [hexPad, hexFixed, Nat.toDigits_of_lt_base hn, Nat.div_eq_of_lt hn, hexFixed_zero,
        Nat.mod_eq_of_lt hn]
      rfl
    · have hdiv : n / 16 < 16 ^ w := Nat.div_lt_of_lt_mul (by rwa [pow_succ'] at h)
      have hpos : 0 < w := by
        rcases Nat.eq_zero_or_pos w with rfl | hpos
        · simp only [pow_zero] at hdiv
          omega
        · exact hpos
      rw [hexFixed, ← ih hpos hdiv, hexPad, hexPad, Nat.toDigits_of_base_le (by decide) hle,
        List.length_append, List.length_singleton, Nat.add_sub_add_right, List.map_append,
        List.append_assoc]
      rfl

theorem hexFixed_two (n : ℕ) : hexFixed 2 n = [hexDigit (n / 16 % 16), hexDigit (n % 16)] := rfl

/-- The digits of a byte. -/
theorem hexPad_two (b : UInt8) :
    hexPad 2 b.toNat = [hexDigit (b.toNat / 16), hexDigit (b.toNat % 16)] := by
  have hb : b.toNat < 256 := b.toNat_lt
  rw [hexPad_eq_hexFixed (by decide) hb, hexFixed_two, Nat.mod_eq_of_lt (by omega)]

@[simp] theorem length_hexPad_two (b : UInt8) : (hexPad 2 b.toNat).length = 2 := by
  rw [hexPad_two]
  rfl

theorem hexFixed_add_two (w n : ℕ) :
    hexFixed (w + 2) n = hexFixed w (n / 256) ++ hexFixed 2 (n % 256) := by
  have hdiv : n / 16 / 16 = n / 256 := Nat.div_div_eq_div_mul n 16 16
  have hhigh : n / 16 % 16 = n % 256 / 16 % 16 := by omega
  have hlow : n % 16 = n % 256 % 16 := by omega
  rw [hexFixed_two, ← hhigh, ← hlow, hexFixed, hexFixed, hdiv, List.append_assoc]
  rfl

/-- The digits of a word are those of its two bytes. -/
theorem hexPad_four {n : ℕ} (h : n < 65536) :
    hexPad 4 n = hexPad 2 (UInt8.ofNat (n / 256)).toNat ++
      hexPad 2 (UInt8.ofNat (n % 256)).toNat := by
  have hhigh : (UInt8.ofNat (n / 256)).toNat = n / 256 :=
    UInt8.toNat_ofNat_of_lt' (show n / 256 < 256 by omega)
  have hlow : (UInt8.ofNat (n % 256)).toNat = n % 256 :=
    UInt8.toNat_ofNat_of_lt' (show n % 256 < 256 by omega)
  rw [hhigh, hlow, hexPad_eq_hexFixed (by decide) (show n < 16 ^ 4 by omega),
    hexPad_eq_hexFixed (by decide) (show n / 256 < 16 ^ 2 by omega),
    hexPad_eq_hexFixed (by decide) (show n % 256 < 16 ^ 2 by omega)]
  exact hexFixed_add_two 2 n

/-- The bytes of a string, two digits each. -/
def hexBytes (bytes : List UInt8) : List UInt8 := bytes.flatMap fun b => hexPad 2 b.toNat

@[simp] theorem length_hexBytes (bytes : List UInt8) :
    (hexBytes bytes).length = 2 * bytes.length := by
  induction bytes with
  | nil => rfl
  | cons b bytes ih =>
    rw [hexBytes, List.flatMap_cons, List.length_append, length_hexPad_two, ← hexBytes, ih,
      List.length_cons]
    omega

/-- Parts of one length with a separator between them. -/
theorem length_intercalate {α : Type*} (sep : α) {parts : List (List α)} {k : ℕ}
    (h : ∀ part ∈ parts, part.length = k) (hne : parts ≠ []) :
    ([sep].intercalate parts).length + 1 = parts.length * (k + 1) := by
  induction parts with
  | nil => exact absurd rfl hne
  | cons part parts ih =>
    obtain ⟨hpart, hparts⟩ := List.forall_mem_cons.mp h
    cases parts with
    | nil => simp [hpart]
    | cons next parts =>
      have htail := ih hparts (List.cons_ne_nil _ _)
      rw [List.length_cons, Nat.add_mul, Nat.one_mul, ← htail, List.intercalate_cons_cons,
        List.length_append, List.length_append, hpart, List.length_singleton]
      omega

end Theory
