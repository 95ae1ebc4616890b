import Mathlib.Data.List.Basic
import Mathlib.Tactic.SplitIfs

/-!
# Texts with literals

A text in which string literals are marked. White space outside of them can be taken out in two
ways, piece by piece, or by reading the text and looking for the quotes. Both are the same where
no literal ends before its last quote.
-/

namespace Theory

/-- Part of a text: what stands between the quotes of a literal, or anything else. -/
inductive Piece
  | plain (bytes : List UInt8)
  | literal (body : List UInt8)

namespace Piece

def quote : UInt8 := 0x22

def backslash : UInt8 := 0x5C

/-- Blanks, tabs and line ends. -/
def isBlank (c : UInt8) : Bool := c = 0x20 || c = 0x09 || c = 0x0A || c = 0x0D

def bytes : Piece → List UInt8
  | plain bytes => bytes
  | literal body => quote :: body ++ [quote]

/-- A piece less the white space outside of literals. -/
def squeezed : Piece → List UInt8
  | plain bytes => bytes.filter (!isBlank ·)
  | literal body => quote :: body ++ [quote]

def text (ps : List Piece) : List UInt8 := ps.flatMap bytes

def squeeze (ps : List Piece) : List UInt8 := ps.flatMap squeezed

section Basic

variable {p : Piece} {ps ps' : List Piece}

@[simp] theorem text_nil : text [] = [] := rfl

@[simp] theorem text_cons : text (p :: ps) = p.bytes ++ text ps := rfl

@[simp] theorem text_append : text (ps ++ ps') = text ps ++ text ps' := List.flatMap_append

@[simp] theorem squeeze_nil : squeeze [] = [] := rfl

@[simp] theorem squeeze_cons : squeeze (p :: ps) = p.squeezed ++ squeeze ps := rfl

@[simp] theorem squeeze_append : squeeze (ps ++ ps') = squeeze ps ++ squeeze ps' :=
  List.flatMap_append

end Basic

/-! ### Reading a text -/

/-- Where the reader of a text is. -/
inductive Position
  | outside | inside | escaped
deriving DecidableEq

/-- Where the reader is after one more byte. -/
def Position.next : Position → UInt8 → Position
  | outside, c => if c = quote then inside else outside
  | inside, c => if c = quote then outside else if c = backslash then escaped else inside
  | escaped, _ => inside

/-- A text less the white space outside of literals. -/
def strip : Position → List UInt8 → List UInt8
  | _, [] => []
  | pos, c :: cs =>
    if pos = .outside ∧ isBlank c then strip pos cs else c :: strip (pos.next c) cs

/-- No byte of the rest of a literal ends it, and none escapes the quote after it. -/
def closedFrom : Bool → List UInt8 → Bool
  | escaped, [] => !escaped
  | true, _ :: cs => closedFrom false cs
  | false, c :: cs => c ≠ quote && closedFrom (c = backslash) cs

/-- A reader finds the literals of the text where they are. -/
def Closed : Piece → Prop
  | plain bytes => quote ∉ bytes
  | literal body => closedFrom false body

instance : (p : Piece) → Decidable p.Closed
  | plain bytes => inferInstanceAs (Decidable (quote ∉ bytes))
  | literal body => inferInstanceAs (Decidable (closedFrom false body = true))

section Reading

variable {body rest cs cs' : List UInt8} {c : UInt8}

theorem strip_body {escaped : Bool} (h : closedFrom escaped body) :
    strip (if escaped then .escaped else .inside) (body ++ quote :: rest) =
      body ++ quote :: strip .outside rest := by
  induction body generalizing escaped with
  | nil =>
    obtain rfl : escaped = false := by simpa [closedFrom] using h
    rfl
  | cons c cs ih =>
    cases escaped with
    | true =>
      have hrest : strip .inside (cs ++ quote :: rest) = cs ++ quote :: strip .outside rest :=
        @ih false h
      rw [List.cons_append, strip, if_neg (by simp)]
      exact congrArg (c :: ·) hrest
    | false =>
      obtain ⟨hquote, hcs⟩ : c ≠ quote ∧ closedFrom (c = backslash) cs := by
        simpa [closedFrom] using h
      have hrest := ih hcs
      rw [List.cons_append, strip, if_neg (by simp)]
      have hnext : Position.next .inside c = if c = backslash then .escaped else .inside := by
        simp [Position.next, hquote]
      simp only [decide_eq_true_eq] at hrest
      exact congrArg (c :: ·) (hnext ▸ hrest)

theorem strip_plain (h : quote ∉ cs) :
    strip .outside (cs ++ rest) = cs.filter (!isBlank ·) ++ strip .outside rest := by
  induction cs with
  | nil => rfl
  | cons c cs ih =>
    obtain ⟨hc, hcs⟩ := not_or.mp (mt List.mem_cons.mpr h)
    rw [List.cons_append, strip, List.filter_cons]
    cases hblank : isBlank c with
    | true => simpa using ih hcs
    | false =>
      have hnext : Position.next .outside c = .outside := if_neg fun heq => hc heq.symm
      simpa [hnext] using ih hcs

/-- Both ways to take white space out of a text give the same. -/
theorem strip_text {ps : List Piece} (h : ∀ p ∈ ps, p.Closed) :
    strip .outside (text ps) = squeeze ps := by
  induction ps with
  | nil => rfl
  | cons p ps ih =>
    obtain ⟨hp, hps⟩ := List.forall_mem_cons.mp h
    rw [text_cons, squeeze_cons, ← ih hps]
    cases p with
    | plain bytes => exact strip_plain hp
    | literal body =>
      have hbody : strip .inside (body ++ quote :: text ps) =
          body ++ quote :: strip .outside (text ps) := strip_body hp
      simp only [bytes, squeezed, List.cons_append, List.append_assoc, List.nil_append]
      exact congrArg (quote :: ·) hbody

/-- Literals may be put together from closed parts. -/
theorem closedFrom_append {escaped : Bool} (h : closedFrom escaped cs)
    (h' : closedFrom false cs') : closedFrom escaped (cs ++ cs') := by
  induction cs generalizing escaped with
  | nil =>
    obtain rfl : escaped = false := by simpa [closedFrom] using h
    exact h'
  | cons c cs ih =>
    cases escaped with
    | true => exact @ih false h
    | false =>
      obtain ⟨hquote, hcs⟩ : c ≠ quote ∧ closedFrom (c = backslash) cs := by
        simpa [closedFrom] using h
      simpa [closedFrom, hquote] using ih hcs

end Reading

end Piece

end Theory
