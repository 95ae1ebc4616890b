import Cyng.Csv.Tokenizer
import Cyng.Json.Parser

/-!
# The CSV parser

A stack of the fields of a line, which goes to the callback where the line ends. A separator
only counts where the stack is empty: all other fields come with symbols of their own.

The parser is a pipeline like the JSON parser, and `parser::read` feeds a line break behind the
text it is given.
-/

namespace Cyng

open Theory

namespace Csv

open Json (Bom codes codes_append codes_cons codes_nil)

/-- `line_t` -/
abbrev Line := List Bytes

namespace Parser

variable (b : Build)

/-- `parser::process_eol`, with the line that `cleanup` takes off the stack. -/
def processEol (stack : List Bytes) : List Bytes × List Line :=
  if stack = [] then (stack, []) else ([], [stack.reverse])

/-- `parser::next_symbol` on the stack, its top first. -/
def nextSymbol : Step (List Bytes) Symbol Line Fault := fun stack sym =>
  match sym.type with
  | .string => .ok (sym.value :: stack, [])
  | .nothing => do
    b.check "sym.value_.empty()" (sym.value = [])
    return ([] :: stack, [])
  | .separator => .ok (if stack = [] then [[]] else stack, [])
  | .eol => .ok (processEol stack)

variable {b} {stack : List Bytes} {syms : List Symbol} {r : List Bytes × List Line}

/-- The first line that is complete begins with what was on the stack before. -/
theorem prefix_of_run (h : Step.run (nextSymbol b) stack syms = .ok r) {line : Line}
    {lines : List Line} (hlines : r.2 = line :: lines) : stack.reverse <+: line := by
  induction syms generalizing stack r with
  | nil =>
    obtain rfl : (stack, []) = r := by simpa using h
    cases hlines
  | cons sym syms ih =>
    obtain ⟨stack', os, os', hstep, hrun, hout⟩ := Step.run_cons_eq_ok_iff.mp h
    obtain ⟨type, value⟩ := sym
    -- a field that is pushed stays on the stack
    have hpush {field : Bytes} (hstack : field :: stack = stack') (hos : [] = os) :
        stack.reverse <+: line := by
      subst hstack hos
      refine List.IsPrefix.trans ?_ (ih hrun (hout.symm.trans hlines))
      simp
    cases type with
    | string =>
      obtain ⟨hstack, hos⟩ := Prod.mk.inj (Except.ok.inj hstep)
      exact hpush hstack hos
    | nothing =>
      obtain ⟨_, -, hreturn⟩ := bind_eq_ok_iff.mp hstep
      obtain ⟨hstack, hos⟩ := Prod.mk.inj (Except.ok.inj hreturn)
      exact hpush hstack hos
    | separator =>
      obtain ⟨hstack, hos⟩ := Prod.mk.inj (Except.ok.inj hstep)
      by_cases hempty : stack = []
      · simp [hempty]
      · rw [if_neg hempty] at hstack
        subst hstack hos
        exact ih hrun (hout.symm.trans hlines)
    | eol =>
      obtain hstep := Except.ok.inj hstep
      by_cases hempty : stack = []
      · simp [hempty]
      · rw [processEol, if_neg hempty] at hstep
        cases hstep
        rw [hlines] at hout
        rw [(List.cons.inj hout).1]

end Parser

/-- `parser` -/
structure Reader where
  counter : ℕ
  sanitizer : U8ToU32
  tokenizer : Tokenizer
  stack : List Bytes
deriving DecidableEq

/-- `parser::next_code_point`, with the symbols that go to `parser::next_symbol`. -/
def feed (b : Build) (enc : Encoder) (sep : UInt8) : Step (Tokenizer × List Bytes) ℕ Line Fault :=
  Step.pipe (Tokenizer.nextCodePoint b enc sep) (Parser.nextSymbol b)

namespace Reader

variable (b : Build) (enc : Encoder) (sep : UInt8)

def initial : Reader := ⟨0, .initial, .initial, []⟩

/-- `parser::put` -/
def put : Step (U8ToU32 × Tokenizer × List Bytes) UInt8 Line Fault :=
  Step.pipe U8ToU32.put (feed b enc sep)

/-- `parser::read`: the lines that go to the callback. The loop that looks for a byte order mark
is the one of the JSON parser. -/
def read : Step Reader Bytes Line Fault := fun r chunk => do
  let ((bom, s), lines) ← Step.run (Step.pipe Bom.put (put b enc sep))
    (.start r.counter, r.sanitizer, r.tokenizer, r.stack) chunk
  let ((sanitizer, tokenizer, stack), lines') ← put b enc sep s 0x0A
  return (⟨bom.counter, sanitizer, tokenizer, stack⟩, lines ++ lines')

end Reader

/-! ### The characters that reach the tokenizer -/

/-- U+FEFF -/
def byteOrderMark : Char := Char.ofNat 0xFEFF

/-- A text without the byte order mark it begins with. -/
def withoutMark : List Char → List Char
  | [] => []
  | c :: cs => if c = byteOrderMark then cs else c :: cs

theorem withoutMark_of_head {cs : List Char} (h : cs.head? ≠ some byteOrderMark) :
    withoutMark cs = cs := by
  cases cs with
  | nil => rfl
  | cons c cs => exact if_neg fun hc => h (congrArg some hc)

/-- The characters that are read where a character is not decoded. -/
def spoilt (c : Char) : List Char :=
  if U8ToU32.Decodes c then [c] else [Char.ofNat (c.toNat / 64 + 0x40), Char.ofNat (c.toNat % 64)]

theorem toNat_ofNat_of_lt {n : ℕ} (h : n < 0xD800) : (Char.ofNat n).toNat = n :=
  Json.toNat_ofNat_of_valid (Or.inl h)

theorem codes_spoilt (c : Char) : codes (spoilt c) = U8ToU32.decoded c := by
  unfold spoilt U8ToU32.decoded
  split_ifs with h
  · rfl
  · simp only [U8ToU32.Decodes, not_or, not_lt, not_le] at h
    have hlead : c.toNat / 64 + 0x40 < 0xD800 := by omega
    have htail : c.toNat % 64 < 0xD800 := by omega
    simp only [codes_cons, codes_nil, toNat_ofNat_of_lt hlead, toNat_ofNat_of_lt htail]

theorem codes_flatMap_spoilt (cs : List Char) :
    codes (cs.flatMap spoilt) = cs.flatMap U8ToU32.decoded := by
  induction cs with
  | nil => rfl
  | cons c cs ih => simp only [List.flatMap_cons, codes_append, codes_spoilt, ih]

/-- The bytes of a character that begins like a byte order mark. -/
theorem utf8EncodeChar_of_head {c : Char} (h : (String.utf8EncodeChar c).head? = some 0xEF) :
    ∃ x y, String.utf8EncodeChar c = [0xEF, x, y] := by
  have hmax := U8ToU32.toNat_lt c
  have hbyte {n : ℕ} (hn : n < 256) (h : some (UInt8.ofNat n) = some 0xEF) : n = 0xEF := by
    have hnat := congrArg UInt8.toNat (Option.some.inj h)
    rwa [U8ToU32.toNat_ofNat hn] at hnat
  have hv : c.val.toNat = c.toNat := rfl
  unfold String.utf8EncodeChar at h ⊢
  simp only [hv] at h ⊢
  generalize c.toNat = v at *
  split_ifs at h ⊢ with h1 h2 h3
  · have := hbyte (by omega) h
    omega
  · have := hbyte (by omega) h
    omega
  · obtain hlead := Option.some.inj h
    exact ⟨_, _, by rw [hlead]⟩
  · have := hbyte (by omega) h
    omega

/-- The bytes that pass the detection of a byte order mark. -/
theorem run_bom_text (cs : List Char) :
    ∃ bom, Step.run Bom.put (.start 0) (utf8 cs) = .ok (bom, utf8 (withoutMark cs)) := by
  cases cs with
  | nil => exact ⟨_, rfl⟩
  | cons c cs =>
    have hmark : String.utf8EncodeChar byteOrderMark = [0xEF, 0xBB, 0xBF] := by decide
    -- only a character that begins like the mark is held back
    by_cases hhead : (String.utf8EncodeChar c).head? = some 0xEF
    · obtain ⟨x, y, hbytes⟩ := utf8EncodeChar_of_head hhead
      have hrest := @Json.Reader.run_bom 3 (utf8 cs) [0xEF, x, y] (Or.inl (by decide))
      have hiff : [0xEF, x, y] = [0xEF, 0xBB, 0xBF] ↔ c = byteOrderMark := by
        rw [← hmark, ← hbytes]
        constructor
        · intro h
          have htext : utf8 [c] = utf8 [byteOrderMark] := by simpa using h
          exact (List.cons.inj (utf8_injective htext)).1
        · rintro rfl
          rfl
      have hthree : Step.run Bom.put (.start 0) [0xEF, x, y] =
          .ok (⟨3, false, [0xEF, x, y]⟩, if c = byteOrderMark then [] else [0xEF, x, y]) := by
        simp [Step.run, Bom.put, Bom.start, ← hiff]
      refine ⟨⟨3 + (utf8 cs).length, false, [0xEF, x, y]⟩, ?_⟩
      rw [utf8_cons, hbytes, Step.run_append_ok hthree hrest, withoutMark]
      split_ifs
      · rfl
      · rw [utf8_cons, hbytes]
    · have hne : c ≠ byteOrderMark := by
        rintro rfl
        exact hhead (by rw [hmark]; rfl)
      have hplain : Json.Reader.Plain 0 (utf8 (c :: cs)) := by
        refine Or.inr fun h => hhead ?_
        obtain ⟨x, xs, hbytes⟩ := List.exists_cons_of_ne_nil (String.utf8EncodeChar_ne_nil (c := c))
        rw [utf8_cons, hbytes] at h
        rw [hbytes]
        exact h
      rw [withoutMark, if_neg hne]
      exact ⟨_, Json.Reader.run_bom hplain⟩

variable {b : Build} {enc : Encoder} {sep : UInt8}

/-- A new parser on a whole text. -/
theorem read_initial_iff {text : List Char} {lines : List Line} :
    (∃ r, Reader.read b enc sep .initial (utf8 text) = .ok (r, lines)) ↔
      ∃ s, Step.run (feed b enc sep) (.initial, [])
        (codes ((withoutMark text ++ ['\n']).flatMap spoilt)) = .ok (s, lines) := by
  obtain ⟨bom, hbom⟩ := run_bom_text text
  have hbytes : utf8 (withoutMark text ++ ['\n']) = utf8 (withoutMark text) ++ [0x0A] := by
    rw [utf8_append]
    rfl
  have htext := U8ToU32.run_put_text (withoutMark text ++ ['\n'])
  rw [codes_flatMap_spoilt]
  constructor
  · rintro ⟨r, hread⟩
    obtain ⟨⟨⟨bom', s⟩, lines₁⟩, hrun, hlast⟩ := bind_eq_ok_iff.mp hread
    obtain ⟨⟨⟨sanitizer, s'⟩, lines₂⟩, hput, hreturn⟩ := bind_eq_ok_iff.mp hlast
    obtain ⟨bytes, hfirst, hsecond⟩ := Step.run_pipe_eq_ok_iff.mp hrun
    cases hbom.symm.trans hfirst
    -- the newline that read appends is one more character of the text
    have hwhole := Step.run_append_ok hsecond (Step.run_singleton hput)
    rw [← hbytes] at hwhole
    obtain ⟨cps, hcps, hfeed⟩ := Step.run_pipe_eq_ok_iff.mp hwhole
    cases htext.symm.trans hcps
    rw [(Prod.mk.inj (Except.ok.inj hreturn)).2] at hfeed
    exact ⟨_, hfeed⟩
  · rintro ⟨⟨tokenizer, stack⟩, hfeed⟩
    have hwhole := Step.run_pipe_ok htext hfeed
    rw [hbytes] at hwhole
    obtain ⟨s₁, lines₁, lines₂, hfirst, hlast, rfl⟩ := Step.run_append_eq_ok_iff.mp hwhole
    rw [Step.run_singleton_eq] at hlast
    refine ⟨⟨bom.counter, .initial, tokenizer, stack⟩,
      bind_eq_ok_iff.mpr ⟨((bom, s₁), lines₁), ?_, ?_⟩⟩
    · exact Step.run_pipe_ok hbom hfirst
    · exact bind_eq_ok_iff.mpr ⟨_, hlast, rfl⟩

end Csv

end Cyng
