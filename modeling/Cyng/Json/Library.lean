import Cyng.Json.Tokenizer
import Cyng.Theory.Rfc8259

/-!
# The libraries behind the JSON parser

What is assumed of the conversions that the tokenizer and the parser call, and conversions
that meet the assumptions.
-/

namespace Cyng

open Theory Theory.Rfc8259

namespace Json

/-- The code points of a text. -/
def codes (cs : List Char) : List ℕ := cs.map Char.toNat

@[simp] theorem codes_nil : codes [] = [] := rfl

@[simp] theorem codes_cons (c : Char) (cs : List Char) : codes (c :: cs) = c.toNat :: codes cs :=
  rfl

@[simp] theorem codes_append (cs cs' : List Char) : codes (cs ++ cs') = codes cs ++ codes cs' :=
  List.map_append

/-- A code point that is a character is the code point of this character. -/
theorem toNat_ofNat_of_valid {cp : ℕ} (h : cp.isValidChar) : (Char.ofNat cp).toNat = cp := by
  rw [Char.ofNat, dif_pos h]
  rfl

/-- The documented behaviour of the libraries: characters become UTF-8, different code points
never give the same text, and the text of an integer is converted to its value. -/
structure Library.Lawful (lib : Library) : Prop where
  u32ToU8_codes : ∀ cs, lib.u32ToU8 (codes cs) = .ok (utf8 cs)
  u32ToU8_injective : ∀ cps cps' text, lib.u32ToU8 cps = .ok text → lib.u32ToU8 cps' = .ok text →
    cps = cps'
  castInt64_integer : ∀ n : Number, n.IsInteger → -2 ^ 63 ≤ n.toInt → n.toInt < 2 ^ 63 →
    lib.castInt64 (utf8 n.text) = some (BitVec.ofInt 64 n.toInt)

namespace Library

/-- The value of a text that consists of decimal digits. -/
def unsigned (text : Bytes) : Option ℕ :=
  if text ≠ [] ∧ text.all (fun c => oneOf digits c.toNat) then
    some (text.foldl (fun n c => 10 * n + (c.toNat - 0x30)) 0)
  else none

/-- The value of such a text with an optional minus sign. -/
def decimal (text : Bytes) : Option ℤ :=
  if text.head? = some 0x2D then (unsigned text.tail).map fun n => -(n : ℤ)
  else (unsigned text).map Nat.cast

/-- Conversions for examples; of the floating point numbers it knows zero only. -/
def sample : Library where
  u32ToU8 cps :=
    if ∀ cp ∈ cps, cp.isValidChar then .ok (utf8 (cps.map Char.ofNat))
    else .error "Invalid UTF-32 code point encountered while trying to encode UTF-8 sequence"
  castInt64 text :=
    match decimal text with
    | some n => if -2 ^ 63 ≤ n ∧ n < 2 ^ 63 then some (BitVec.ofInt 64 n) else none
    | none => none
  castDouble text :=
    if text = [] then none
    else if text.head? = some 0x2D then some (BitVec.twoPow 64 63)
    else some 0

/-- The byte of a digit. -/
def digitByte (d : Digit) : UInt8 := UInt8.ofNat (d.val + 0x30)

theorem utf8_digit (d : Digit) : String.utf8EncodeChar d.char = [digitByte d] := by
  revert d
  decide

@[simp] theorem utf8_digits (ds : List Digit) : utf8 (ds.map Digit.char) = ds.map digitByte := by
  induction ds with
  | nil => rfl
  | cons d ds ih =>
    rw [List.map_cons, utf8_cons, utf8_digit, ih]
    rfl

theorem digitByte_spec (d : Digit) :
    oneOf digits (digitByte d).toNat = true ∧ (digitByte d).toNat - 0x30 = d.val ∧
      digitByte d ≠ 0x2D := by
  revert d
  decide

theorem unsigned_digits {ds : List Digit} (h : ds ≠ []) :
    unsigned (ds.map digitByte) = some (natOf ds) := by
  have hfold (n : ℕ) : (ds.map digitByte).foldl (fun n c => 10 * n + (c.toNat - 0x30)) n =
      ds.foldl (fun n d => 10 * n + d.val) n := by
    rw [List.foldl_map]
    simp only [digitByte_spec]
  simp [unsigned, h, digitByte_spec, hfold, natOf]

theorem digits_ne_nil (w : Whole) : w.digits ≠ [] := by cases w <;> simp [Whole.digits]

theorem decimal_text {n : Number} (h : n.IsInteger) : decimal (utf8 n.text) = some n.toInt := by
  obtain ⟨minus, whole, frac, exp⟩ := n
  obtain ⟨rfl, rfl⟩ : frac = none ∧ exp = none := h
  have hunsigned := unsigned_digits (digits_ne_nil whole)
  cases minus with
  | true =>
    have htext : utf8 (Number.text ⟨true, whole, none, none⟩) =
        0x2D :: whole.digits.map digitByte := by
      simp [Number.text, Number.minusText, Number.wholeText, Number.fracText, Number.expText]
      rfl
    simp [htext, decimal, hunsigned, Number.toInt]
  | false =>
    have htext : utf8 (Number.text ⟨false, whole, none, none⟩) = whole.digits.map digitByte := by
      simp [Number.text, Number.minusText, Number.wholeText, Number.fracText, Number.expText]
    have hhead : (whole.digits.map digitByte).head? ≠ some 0x2D := by
      obtain ⟨d, ds, hds⟩ := List.exists_cons_of_ne_nil (digits_ne_nil whole)
      simpa [hds] using (digitByte_spec d).2.2
    rw [htext, decimal, if_neg hhead, hunsigned]
    rfl

theorem lawful_sample : sample.Lawful where
  u32ToU8_codes cs := by
    have hvalid : ∀ cp ∈ codes cs, cp.isValidChar := by
      intro cp hcp
      obtain ⟨c, -, rfl⟩ := List.mem_map.mp hcp
      exact c.valid
    have hchars : (codes cs).map Char.ofNat = cs := by simp [codes, Function.comp_def]
    simp only [sample]
    rw [if_pos hvalid, hchars]
  u32ToU8_injective cps cps' text h h' := by
    simp only [sample] at h h'
    split_ifs at h h' with hvalid hvalid'
    have hchars := utf8_injective ((Except.ok.inj h).trans (Except.ok.inj h').symm)
    have hcodes := congrArg codes hchars
    have hback (cps : List ℕ) (hvalid : ∀ cp ∈ cps, cp.isValidChar) :
        codes (cps.map Char.ofNat) = cps := by
      rw [codes, List.map_map]
      exact (List.map_congr_left fun cp hcp => toNat_ofNat_of_valid (hvalid cp hcp)).trans
        (List.map_id' cps)
    rwa [hback cps hvalid, hback cps' hvalid'] at hcodes
  castInt64_integer n hn hlow hhigh := by
    simp only [sample, decimal_text hn]
    rw [if_pos ⟨hlow, hhigh⟩]

end Library
end Json

end Cyng
