import Mathlib.Data.Rat.Defs
import Mathlib.Algebra.Field.Rat
import Mathlib.Tactic.Ring

/-!
# The JSON grammar of RFC 8259

The texts of the grammar are the texts of its derivations, and a derivation is a tree of
these types: every choice the grammar leaves to the author of a text, white space included,
is an argument of a constructor. There is no text of the grammar without a tree and no tree
without a text.

A tree denotes a value. The grammar knows one kind of numbers only; integers without fraction
or exponent are kept apart here from all others, which are given by sign and magnitude.
-/

namespace Theory.Rfc8259

/-! ### White space -/

/-- `ws` is any number of these. -/
inductive Blank
  | space | tab | lineFeed | carriageReturn
deriving DecidableEq, Repr

def Blank.char : Blank → Char
  | space => ' '
  | tab => '\t'
  | lineFeed => '\n'
  | carriageReturn => '\r'

abbrev Blanks := List Blank

def Blanks.text (ws : Blanks) : List Char := List.map Blank.char ws

/-! ### Numbers -/

abbrev Digit := Fin 10

def Digit.char (d : Digit) : Char := Nat.digitChar d.val

/-- The number that decimal digits stand for. -/
def natOf (ds : List Digit) : ℕ := ds.foldl (fun n d => 10 * n + d.val) 0

/-- `int`: no zeros lead. -/
inductive Whole
  | zero
  | positive (first : Fin 9) (rest : List Digit)
deriving DecidableEq, Repr

def Whole.digits : Whole → List Digit
  | zero => [0]
  | positive first rest => first.succ :: rest

/-- `1*DIGIT` -/
structure Digits where
  first : Digit
  rest : List Digit
deriving DecidableEq, Repr

def Digits.list (ds : Digits) : List Digit := ds.first :: ds.rest

/-- `minus / plus` -/
inductive Sign
  | minus | plus
deriving DecidableEq, Repr

def Sign.char : Sign → Char
  | minus => '-'
  | plus => '+'

/-- `exp` -/
structure Exponent where
  upper : Bool
  sign : Option Sign
  digits : Digits
deriving DecidableEq, Repr

namespace Exponent

def letter (e : Exponent) : Char := if e.upper then 'E' else 'e'

def signText (e : Exponent) : List Char := (e.sign.map Sign.char).toList

def digitsText (e : Exponent) : List Char := e.digits.list.map Digit.char

def text (e : Exponent) : List Char := e.letter :: e.signText ++ e.digitsText

def value (e : Exponent) : ℤ :=
  match e.sign with
  | some .minus => -(natOf e.digits.list : ℤ)
  | _ => natOf e.digits.list

end Exponent

/-- `number` -/
structure Number where
  minus : Bool
  whole : Whole
  frac : Option Digits
  exp : Option Exponent
deriving DecidableEq, Repr

namespace Number

/-- Neither a fraction nor an exponent. -/
def IsInteger (n : Number) : Prop := n.frac = none ∧ n.exp = none

instance (n : Number) : Decidable n.IsInteger := inferInstanceAs (Decidable (_ ∧ _))

def minusText (n : Number) : List Char :=
  match n.minus with
  | true => ['-']
  | false => []

def wholeText (n : Number) : List Char := n.whole.digits.map Digit.char

def fracText (n : Number) : List Char :=
  match n.frac with
  | none => []
  | some ds => '.' :: ds.list.map Digit.char

def expText (n : Number) : List Char :=
  match n.exp with
  | none => []
  | some e => e.text

def text (n : Number) : List Char := n.minusText ++ n.wholeText ++ n.fracText ++ n.expText

/-- The value of a number without fraction and exponent. -/
def toInt (n : Number) : ℤ :=
  if n.minus then -(natOf n.whole.digits : ℤ) else natOf n.whole.digits

def fracDigits (n : Number) : List Digit :=
  match n.frac with
  | none => []
  | some ds => ds.list

def expValue (n : Number) : ℤ :=
  match n.exp with
  | none => 0
  | some e => e.value

/-- The number without its sign: digits before and after the point, moved by the exponent. -/
def magnitude (n : Number) : ℚ :=
  natOf (n.whole.digits ++ n.fracDigits) * (10 : ℚ) ^ (n.expValue - n.fracDigits.length)

end Number

/-! ### Strings -/

/-- The characters that can follow a backslash, `u` apart. -/
inductive Escape
  | quotationMark | reverseSolidus | solidus | backspace | formFeed | lineFeed | carriageReturn
  | tab
deriving DecidableEq, Repr

def Escape.letter : Escape → Char
  | quotationMark => '"'
  | reverseSolidus => '\\'
  | solidus => '/'
  | backspace => 'b'
  | formFeed => 'f'
  | lineFeed => 'n'
  | carriageReturn => 'r'
  | tab => 't'

/-- The code point that is meant. -/
def Escape.unit : Escape → ℕ
  | quotationMark => 0x22
  | reverseSolidus => 0x5C
  | solidus => 0x2F
  | backspace => 0x08
  | formFeed => 0x0C
  | lineFeed => 0x0A
  | carriageReturn => 0x0D
  | tab => 0x09

/-- `HEXDIG`, in upper or lower case. -/
structure HexDigit where
  value : Fin 16
  upper : Bool
deriving DecidableEq, Repr

def HexDigit.char (h : HexDigit) : Char :=
  if h.upper then (Nat.digitChar h.value).toUpper else Nat.digitChar h.value

/-- `unescaped` -/
def Unescaped (c : Char) : Prop := 0x20 ≤ c.toNat ∧ c ≠ '"' ∧ c ≠ '\\'

instance (c : Char) : Decidable (Unescaped c) := inferInstanceAs (Decidable (_ ∧ _ ∧ _))

/-- `char` -/
inductive StrChar
  | unescaped (c : Char) (h : Unescaped c)
  | escape (e : Escape)
  | unicode (a b c d : HexDigit)
deriving DecidableEq

namespace StrChar

def text : StrChar → List Char
  | unescaped c _ => [c]
  | escape e => ['\\', e.letter]
  | unicode a b c d => ['\\', 'u', a.char, b.char, c.char, d.char]

/-- The code point, or one half of a pair of surrogates. -/
def unit : StrChar → ℕ
  | unescaped c _ => c.toNat
  | escape e => e.unit
  | unicode a b c d => ((a.value * 16 + b.value) * 16 + c.value) * 16 + d.value

end StrChar

/-- What stands between the quotation marks. -/
abbrev Str := List StrChar

def Str.text (s : Str) : List Char := '"' :: s.flatMap StrChar.text ++ ['"']

def IsHigh (cp : ℕ) : Prop := 0xD800 ≤ cp ∧ cp < 0xDC00
def IsLow (cp : ℕ) : Prop := 0xDC00 ≤ cp ∧ cp < 0xE000

instance (cp : ℕ) : Decidable (IsHigh cp) := inferInstanceAs (Decidable (_ ∧ _))
instance (cp : ℕ) : Decidable (IsLow cp) := inferInstanceAs (Decidable (_ ∧ _))

/-- A high surrogate and the low one after it are one code point. -/
def joinSurrogates : List ℕ → List ℕ
  | high :: low :: cps =>
    if IsHigh high ∧ IsLow low then
      (0x10000 + (high - 0xD800) * 0x400 + (low - 0xDC00)) :: joinSurrogates cps
    else high :: joinSurrogates (low :: cps)
  | cps => cps

/-- The code points a string stands for. -/
def Str.codePoints (s : Str) : List ℕ := joinSurrogates (s.map StrChar.unit)

theorem joinSurrogates_of_forall {cps : List ℕ} (h : ∀ cp ∈ cps, ¬IsHigh cp) :
    joinSurrogates cps = cps := by
  fun_induction joinSurrogates cps with
  | case1 high low cps hpair => exact absurd hpair.1 (h high List.mem_cons_self)
  | case2 high low cps hpair ih =>
    rw [ih fun cp hcp => h cp (List.mem_cons_of_mem _ hcp)]
  | case3 => rfl

/-! ### Values -/

/-- A member name with the white space around it and the colon. -/
structure Label where
  before : Blanks
  name : Str
  middle : Blanks
  after : Blanks
deriving DecidableEq

def Label.text (l : Label) : List Char :=
  l.before.text ++ l.name.text ++ l.middle.text ++ ':' :: l.after.text

mutual

/-- `value` -/
inductive Tree
  | null
  | bool (v : Bool)
  | number (n : Number)
  | string (s : Str)
  | emptyArray (ws : Blanks)
  | array (items : Items)
  | emptyObject (ws : Blanks)
  | object (members : Members)

/-- The values of an array, with the white space before and after each. -/
inductive Items
  | last (before : Blanks) (value : Tree) (after : Blanks)
  | cons (before : Blanks) (value : Tree) (after : Blanks) (rest : Items)

/-- The members of an object. -/
inductive Members
  | last (label : Label) (value : Tree) (after : Blanks)
  | cons (label : Label) (value : Tree) (after : Blanks) (rest : Members)

end

/-- The literal names of truth values. -/
def boolText (v : Bool) : List Char := if v then "true".toList else "false".toList

mutual

def Tree.text : Tree → List Char
  | .null => "null".toList
  | .bool v => boolText v
  | .number n => n.text
  | .string s => s.text
  | .emptyArray ws => '[' :: ws.text ++ [']']
  | .array items => '[' :: items.text ++ [']']
  | .emptyObject ws => '{' :: ws.text ++ ['}']
  | .object members => '{' :: members.text ++ ['}']

def Items.text : Items → List Char
  | .last before value after => before.text ++ value.text ++ after.text
  | .cons before value after rest =>
    before.text ++ value.text ++ after.text ++ ',' :: rest.text

def Members.text : Members → List Char
  | .last label value after => label.text ++ value.text ++ after.text
  | .cons label value after rest => label.text ++ value.text ++ after.text ++ ',' :: rest.text

end

/-- Arrays and objects. -/
def Tree.IsContainer : Tree → Prop
  | .emptyArray _ | .array _ | .emptyObject _ | .object _ => True
  | _ => False

/-- `JSON-text` -/
structure Document where
  before : Blanks
  tree : Tree
  after : Blanks

def Document.text (d : Document) : List Char := d.before.text ++ d.tree.text ++ d.after.text

section Tokens

variable (number : Number → Prop) (char : StrChar → Prop)

mutual

/-- All numbers of a tree have one property, and all characters of its strings and member
names have another one. -/
def Tree.Tokens : Tree → Prop
  | .number n => number n
  | .string s => ∀ c ∈ s, char c
  | .array items => items.Tokens
  | .object members => members.Tokens
  | _ => True

def Items.Tokens : Items → Prop
  | .last _ value _ => value.Tokens
  | .cons _ value _ rest => value.Tokens ∧ rest.Tokens

def Members.Tokens : Members → Prop
  | .last label value _ => (∀ c ∈ label.name, char c) ∧ value.Tokens
  | .cons label value _ rest => (∀ c ∈ label.name, char c) ∧ value.Tokens ∧ rest.Tokens

end

end Tokens

/-! ### Denotation -/

/-- What a tree stands for. -/
inductive Value
  | null
  | bool (v : Bool)
  | integer (n : ℤ)
  | real (minus : Bool) (magnitude : ℚ)
  | string (cps : List ℕ)
  | array (items : List Value)
  | object (members : List (List ℕ × Value))

def Number.denote (n : Number) : Value :=
  if n.IsInteger then .integer n.toInt else .real n.minus n.magnitude

mutual

def Tree.denote : Tree → Value
  | .null => .null
  | .bool v => .bool v
  | .number n => n.denote
  | .string s => .string s.codePoints
  | .emptyArray _ => .array []
  | .array items => .array items.denote
  | .emptyObject _ => .object []
  | .object members => .object members.denote

def Items.denote : Items → List Value
  | .last _ value _ => [value.denote]
  | .cons _ value _ rest => value.denote :: rest.denote

def Members.denote : Members → List (List ℕ × Value)
  | .last label value _ => [(label.name.codePoints, value.denote)]
  | .cons label value _ rest => (label.name.codePoints, value.denote) :: rest.denote

end

/-! ### Numbers that are written differently -/

namespace Number

/-- Write an exponent after a fraction, even where there is none to write. -/
def withFraction (n : Number) : Number :=
  match n.frac, n.exp with
  | none, some _ => { n with frac := some ⟨0, []⟩ }
  | _, _ => n

theorem withFraction_of_isInteger {n : Number} (h : n.IsInteger) : n.withFraction = n := by
  obtain ⟨minus, whole, frac, exp⟩ := n
  obtain ⟨rfl, rfl⟩ : frac = none ∧ exp = none := h
  rfl

theorem not_isInteger_withFraction {n : Number} (h : ¬n.IsInteger) :
    ¬n.withFraction.IsInteger := by
  obtain ⟨minus, whole, frac, exp⟩ := n
  cases frac <;> cases exp <;> simp_all [Number.IsInteger, Number.withFraction]

theorem minus_withFraction (n : Number) : n.withFraction.minus = n.minus := by
  obtain ⟨minus, whole, frac, exp⟩ := n
  cases frac <;> cases exp <;> rfl

theorem natOf_append (ds : List Digit) (d : Digit) : natOf (ds ++ [d]) = 10 * natOf ds + d := by
  simp [natOf]

/-- A fraction of one zero does not change the number. -/
theorem magnitude_withFraction (n : Number) : n.withFraction.magnitude = n.magnitude := by
  obtain ⟨minus, whole, frac, exp⟩ := n
  cases frac with
  | some ds => rfl
  | none =>
    cases exp with
    | none => rfl
    | some e =>
      have hdigits : natOf (whole.digits ++ [0]) = 10 * natOf whole.digits := by
        simp [natOf_append]
      have hpow : (10 : ℚ) ^ e.value = (10 : ℚ) ^ (e.value - 1) * 10 := by
        rw [← zpow_add_one₀ (by norm_num), sub_add_cancel]
      simp only [magnitude, withFraction, fracDigits, expValue, Digits.list, hdigits,
        List.append_nil, List.length_singleton, List.length_nil, Nat.cast_mul, Nat.cast_ofNat,
        Nat.cast_one, Nat.cast_zero, sub_zero, hpow]
      ring

end Number

end Theory.Rfc8259
