import Cyng.Json.Library

/-!
# The CSV tokenizer

An automaton over code points, built like the JSON tokenizer: a state may refuse a code point
after it has finished a symbol, and then the same code point is offered again. Only the start
of a field looks for the separator. A literal ends at a fixed set of characters, whether the
separator is one of them or not.
-/

namespace Cyng

open Theory

namespace Csv

open Json (oneOf hexDigits codes codes_append codes_cons codes_nil)

/-- What is used of another library: `boost::u32_to_u8_iterator`, which may throw an exception
with a text. -/
abbrev Encoder := List ℕ → Except String Bytes

/-- The documented behaviour: characters become UTF-8, and different code points never give the
same text. -/
structure Encoder.Lawful (enc : Encoder) : Prop where
  characters : ∀ cs, enc (codes cs) = .ok (utf8 cs)
  injective : ∀ cps cps' text, enc cps = .ok text → enc cps' = .ok text → cps = cps'

/-- `symbol_type`, as far as the tokenizer emits it. -/
inductive SymbolType
  | string | nothing | separator | eol
deriving DecidableEq, Repr

/-- `symbol` -/
structure Symbol where
  type : SymbolType
  value : Bytes
deriving DecidableEq, Repr

/-- `tokenizer::state` -/
inductive TokenizerState
  | error | start | string | literal | separator | escape | unicode | eol
deriving DecidableEq, Repr

/-- `tokenizer`, less its separator, which does not change. -/
structure Tokenizer where
  state : TokenizerState
  buffer : List ℕ
deriving DecidableEq, Repr

/-- The characters that end a line. -/
def breaks : List Char := ['\n', '\r']

/-- The characters that end a literal besides these. -/
def reserved : List Char := ['"', '\'', '[', ']', '{', '}', ',', ':']

namespace Tokenizer

def initial : Tokenizer := ⟨.start, []⟩

/-- The result of one call: the state, the symbols it emits, and whether the code point was
taken. -/
abbrev Reply := Tokenizer × List Symbol × Bool

/-- What a `char` is in a comparison with an unsigned number: above 0x7F it is negative and
counts as a large one. -/
def sepCode (sep : UInt8) : ℕ :=
  if sep.toNat < 0x80 then sep.toNat else sep.toNat + (2 ^ 32 - 2 ^ 8)

variable (b : Build) (enc : Encoder) (sep : UInt8) (t : Tokenizer) (cp : ℕ)

/-- Take the code point and go to a state. -/
def goto (state : TokenizerState) : Reply := ({ t with state }, [], true)

/-- Append a code point to the buffer, take the code point and go to a state. -/
def append (cp : ℕ) (state : TokenizerState) : Reply := (⟨state, t.buffer ++ [cp]⟩, [], true)

/-- `symbol(symbol_type, std::u32string const&)` -/
def makeSymbol (type : SymbolType) (buffer : List ℕ) : Except Fault Symbol :=
  match enc buffer with
  | .ok value => .ok ⟨type, value⟩
  | .error what => .error (.exception what)

/-- `symbol(symbol_type, std::uint32_t)` -/
def charSymbol (type : SymbolType) (cp : ℕ) : Symbol := ⟨type, [UInt8.ofNat cp]⟩

/-- `tokenizer::state_start` -/
def stateStart : Reply :=
  if sepCode sep = cp then ({ t with state := .separator }, [charSymbol .separator cp], true)
  else if oneOf [' ', '\t'] cp then (t, [], true)
  else if oneOf breaks cp then ({ t with state := .eol }, [charSymbol .eol cp], true)
  else if oneOf ['"'] cp then t.goto .string
  else t.append cp .literal

/-- `tokenizer::state_eol` -/
def stateEol : Reply :=
  if oneOf breaks cp then (t, [], true) else ({ t with state := .start }, [], false)

/-- `tokenizer::state_string` -/
def stateString : Except Fault Reply :=
  if oneOf ['"'] cp then do
    let sym ← makeSymbol enc .string t.buffer
    return (initial, [sym], true)
  else if oneOf ['\\'] cp then .ok (t.goto .escape)
  else .ok (t.append cp t.state)

/-- `tokenizer::build_literal`: where the conversion throws, the text of the exception is the
string. -/
def buildLiteral : Except Fault Symbol :=
  if t.buffer = [] then makeSymbol enc .nothing t.buffer
  else
    match enc t.buffer with
    | .ok value => .ok ⟨.string, value⟩
    | .error what => .ok ⟨.string, utf8 what.toList⟩

/-- `tokenizer::state_literal`: the separator has no case of its own. -/
def stateLiteral : Except Fault Reply :=
  if oneOf (breaks ++ reserved) cp then do
    let sym ← t.buildLiteral enc
    return (initial, [sym], false)
  else .ok (t.append cp t.state)

/-- `tokenizer::state_escape`: the character after an unknown escape is dropped. -/
def stateEscape : Reply :=
  if oneOf ['"', '\\', '/'] cp then t.append cp .string
  else if oneOf ['b'] cp then t.append 8 .string
  else if oneOf ['f'] cp then t.append 12 .string
  else if oneOf ['n'] cp then t.append 10 .string
  else if oneOf ['r'] cp then t.append 13 .string
  else if oneOf ['t'] cp then t.append 9 .string
  else if oneOf ['u'] cp then t.append 1 .unicode
  else t.goto .string

/-- `tokenizer::convert_to_unicode`: the digits follow the last mark in the buffer. Without a
mark the position is `npos`, and the sizes wrap around. -/
def convertToUnicode (buffer : List ℕ) : Except Fault Reply :=
  let sub := buffer.reverse.takeWhile (· ≠ 1)
  if 1 ∈ buffer then
    if 4 < sub.length + 1 then
      let pos := buffer.length - (sub.length + 1)
      .ok (⟨.string, buffer.take pos ++ [Json.Tokenizer.hexValue sub.reverse]⟩, [], true)
    else .ok (⟨.unicode, buffer⟩, [], true)
  else if 4 < buffer.length + 1 then .error (.exception "std::length_error")
  else .ok (⟨.unicode, buffer⟩, [], true)

/-- `tokenizer::state_unicode` -/
def stateUnicode : Except Fault Reply :=
  if oneOf hexDigits cp then convertToUnicode (t.buffer ++ [cp]) else .ok (t.goto .error)

/-- `tokenizer::state_separator`: a second separator stands for an empty field. -/
def stateSeparator : Except Fault Reply :=
  if sepCode sep = cp then do
    b.check "buffer_.empty()" (t.buffer = [])
    let sym ← makeSymbol enc .nothing t.buffer
    return (t, [sym, charSymbol .separator cp], true)
  else .ok ({ t with state := .start }, [], false)

/-- `tokenizer::put` -/
def put : Except Fault Reply :=
  match t.state with
  | .start => .ok (t.stateStart sep cp)
  | .string => t.stateString enc cp
  | .literal => t.stateLiteral enc cp
  | .escape => .ok (t.stateEscape cp)
  | .separator => t.stateSeparator b enc sep cp
  | .unicode => t.stateUnicode cp
  | .eol => .ok (t.stateEol cp)
  | .error => do
    b.check "undefined state" False
    return (t, [], true)

/-- The loop of `parser::next_code_point`, with a number of repetitions left. -/
def replay : ℕ → Step Tokenizer ℕ Symbol Fault
  | 0, t, cp => do
    let (t, syms, _) ← put b enc sep t cp
    return (t, syms)
  | limit + 1, t, cp => do
    let (t, syms, advance) ← put b enc sep t cp
    if advance then return (t, syms)
    let (t, syms') ← replay limit t cp
    return (t, syms ++ syms')

/-- `parser::next_code_point`: the tokenizer may refuse a code point up to 32 times. -/
def nextCodePoint : Step Tokenizer ℕ Symbol Fault := replay b enc sep 32

/-! ### One character -/

section Characters

variable {b enc sep t cp} {t' t'' : Tokenizer} {syms syms' : List Symbol}

theorem next_of_taken (h : put b enc sep t cp = .ok (t', syms, true)) :
    nextCodePoint b enc sep t cp = .ok (t', syms) := by
  simp [nextCodePoint, replay, h]

theorem next_of_refused (h : put b enc sep t cp = .ok (t', syms, false))
    (h' : put b enc sep t' cp = .ok (t'', syms', true)) :
    nextCodePoint b enc sep t cp = .ok (t'', syms ++ syms') := by
  simp [nextCodePoint, replay, h, h']

/-- What was emitted before the code point is offered again stays emitted. -/
theorem replay_emits_of_refused {limit : ℕ} (h : put b enc sep t cp = .ok (t', syms, false))
    (h' : replay b enc sep (limit + 1) t cp = .ok (t'', syms')) :
    ∃ more, syms' = syms ++ more := by
  rw [replay] at h'
  obtain ⟨_, hput, hrest⟩ := bind_eq_ok_iff.mp h'
  cases h.symm.trans hput
  obtain ⟨r, -, hr⟩ := bind_eq_ok_iff.mp hrest
  exact ⟨r.2, (Prod.mk.inj (Except.ok.inj hr)).2.symm⟩

theorem next_emits_of_refused (h : put b enc sep t cp = .ok (t', syms, false))
    (h' : nextCodePoint b enc sep t cp = .ok (t'', syms')) : ∃ more, syms' = syms ++ more :=
  replay_emits_of_refused h h'

@[simp] theorem oneOf_toNat {chars : List Char} {c : Char} :
    oneOf chars c.toNat = true ↔ c ∈ chars := by
  simp [oneOf, Char.toNat_inj]

/-- States between two fields. -/
def Fresh : TokenizerState → Prop
  | .start | .separator | .eol => True
  | _ => False

/-- The separator as the constructor gets it. -/
def sepByte (sep : Char) : UInt8 := UInt8.ofNat sep.toNat

theorem sepCode_sepByte {sep c : Char} (hsep : sep.toNat < 0x80) :
    sepCode (sepByte sep) = c.toNat ↔ c = sep := by
  have hbyte : (sepByte sep).toNat = sep.toNat := U8ToU32.toNat_ofNat (by omega)
  rw [sepCode, hbyte, if_pos hsep, Char.toNat_inj, eq_comm]

variable {s c : Char} {state : TokenizerState} {B : List Char} (hsep : s.toNat < 0x80)

include hsep

/-- Between two fields a character is read as in the first state, unless it has a case of its
own. -/
theorem next_of_start {reply : Tokenizer × List Symbol} (hstate : Fresh state) (hc : c ≠ s)
    (hbreak : c ∉ breaks)
    (h : put b enc (sepByte s) initial c.toNat = .ok (reply.1, reply.2, true)) :
    nextCodePoint b enc (sepByte s) ⟨state, []⟩ c.toNat = .ok reply := by
  have hnot : sepCode (sepByte s) ≠ c.toNat := (sepCode_sepByte hsep).not.mpr hc
  cases state with
  | start => exact next_of_taken h
  | separator =>
    have hrefused : put b enc (sepByte s) ⟨.separator, []⟩ c.toNat = .ok (initial, [], false) := by
      simp only [put, stateSeparator, hnot, if_false]
      rfl
    exact next_of_refused hrefused h
  | eol =>
    have hrefused : put b enc (sepByte s) ⟨.eol, []⟩ c.toNat = .ok (initial, [], false) := by
      simp only [put, stateEol, oneOf_toNat, hbreak, if_false]
      rfl
    exact next_of_refused hrefused h
  | _ => exact hstate.elim

/-- The first character of a field that is not quoted. -/
theorem next_fresh (hstate : Fresh state) (hc : c ≠ s)
    (hplain : c ∉ [' ', '\t'] ∧ c ∉ breaks ∧ c ≠ '"') :
    nextCodePoint b enc (sepByte s) ⟨state, []⟩ c.toNat = .ok (⟨.literal, [c.toNat]⟩, []) := by
  obtain ⟨hblank, hbreak, hquote⟩ := hplain
  have hnot : sepCode (sepByte s) ≠ c.toNat := (sepCode_sepByte hsep).not.mpr hc
  have hquote' : c ∉ ['"'] := by simpa using hquote
  refine next_of_start hsep hstate hc hbreak ?_
  simp only [put, initial, stateStart, hnot, oneOf_toNat, hblank, hbreak, hquote', if_false]
  rfl

omit hsep in
/-- The other ones. -/
theorem next_literal (buffer : List ℕ) (hc : c ∉ breaks ++ reserved) :
    nextCodePoint b enc sep ⟨.literal, buffer⟩ c.toNat =
      .ok (⟨.literal, buffer ++ [c.toNat]⟩, []) := by
  refine next_of_taken ?_
  simp only [put, stateLiteral, oneOf_toNat, hc, if_false]
  rfl

/-- The separator, where a field could begin. -/
theorem next_sep (hstate : Fresh state) (hbreak : state = .eol → s ∉ breaks) (henc : enc.Lawful) :
    nextCodePoint b enc (sepByte s) ⟨state, []⟩ s.toNat = .ok (⟨.separator, []⟩,
      (if state = .separator then [⟨.nothing, []⟩] else []) ++
        [charSymbol .separator s.toNat]) := by
  have hyes : sepCode (sepByte s) = s.toNat := (sepCode_sepByte hsep).mpr rfl
  have hstart : put b enc (sepByte s) initial s.toNat =
      .ok (⟨.separator, []⟩, [charSymbol .separator s.toNat], true) := by
    simp [put, initial, stateStart, hyes]
  cases state with
  | start => exact next_of_taken hstart
  | separator =>
    have hempty : enc [] = .ok [] := henc.characters []
    refine next_of_taken ?_
    simp [put, stateSeparator, hyes, makeSymbol, hempty, Build.check_of]
  | eol =>
    have hrefused : put b enc (sepByte s) ⟨.eol, []⟩ s.toNat = .ok (initial, [], false) := by
      simp only [put, stateEol, oneOf_toNat, hbreak rfl, if_false]
      rfl
    exact next_of_refused hrefused hstart
  | _ => exact hstate.elim

omit hsep in
/-- Behind the end of a line more line breaks are passed over, the separator among them. -/
theorem next_eol_break (hbreak : c ∈ breaks) :
    nextCodePoint b enc sep ⟨.eol, []⟩ c.toNat = .ok (⟨.eol, []⟩, []) := by
  refine next_of_taken ?_
  simp only [put, stateEol, oneOf_toNat, hbreak, if_true]

/-- The end of the line, where a field could begin. -/
theorem next_break (hstate : Fresh state) (hc : c ≠ s) (hbreak : c ∈ breaks) :
    nextCodePoint b enc (sepByte s) ⟨state, []⟩ c.toNat = .ok (⟨.eol, []⟩,
      if state = .eol then [] else [charSymbol .eol c.toNat]) := by
  have hnot : sepCode (sepByte s) ≠ c.toNat := (sepCode_sepByte hsep).not.mpr hc
  have hall : ∀ c ∈ breaks, c ∉ [' ', '\t'] := by simp [breaks]
  have hblank : c ∉ [' ', '\t'] := hall c hbreak
  have hstart : put b enc (sepByte s) initial c.toNat =
      .ok (⟨.eol, []⟩, [charSymbol .eol c.toNat], true) := by
    simp only [put, initial, stateStart, hnot, oneOf_toNat, hblank, hbreak, if_false, if_true]
  cases state with
  | start => exact next_of_taken hstart
  | separator =>
    have hrefused : put b enc (sepByte s) ⟨.separator, []⟩ c.toNat = .ok (initial, [], false) := by
      simp only [put, stateSeparator, hnot, if_false]
      rfl
    exact next_of_refused hrefused hstart
  | eol => exact next_eol_break hbreak
  | _ => exact hstate.elim

omit hsep in
/-- The end of a literal. -/
theorem put_literal (henc : enc.Lawful) (hB : B ≠ []) (hc : c ∈ breaks ++ reserved) :
    put b enc sep ⟨.literal, codes B⟩ c.toNat = .ok (initial, [⟨.string, utf8 B⟩], false) := by
  have hbuffer : codes B ≠ [] := by simpa [codes] using hB
  simp [put, stateLiteral, oneOf_toNat, hc, buildLiteral, hbuffer, henc.characters B]

/-- A literal between two separators. -/
theorem next_literal_sep (henc : enc.Lawful) (hB : B ≠ []) (hends : s ∈ breaks ++ reserved) :
    nextCodePoint b enc (sepByte s) ⟨.literal, codes B⟩ s.toNat =
      .ok (⟨.separator, []⟩, [⟨.string, utf8 B⟩, charSymbol .separator s.toNat]) := by
  have hyes : sepCode (sepByte s) = s.toNat := (sepCode_sepByte hsep).mpr rfl
  refine next_of_refused (put_literal henc hB hends) ?_
  simp [put, initial, stateStart, hyes]

/-- A literal at the end of a line. -/
theorem next_literal_break (henc : enc.Lawful) (hB : B ≠ []) (hc : c ≠ s) (hbreak : c ∈ breaks) :
    nextCodePoint b enc (sepByte s) ⟨.literal, codes B⟩ c.toNat =
      .ok (⟨.eol, []⟩, [⟨.string, utf8 B⟩, charSymbol .eol c.toNat]) := by
  have hnot : sepCode (sepByte s) ≠ c.toNat := (sepCode_sepByte hsep).not.mpr hc
  have hall : ∀ c ∈ breaks, c ∉ [' ', '\t'] := by simp [breaks]
  refine next_of_refused (put_literal henc hB (List.mem_append_left _ hbreak)) ?_
  simp only [put, initial, stateStart, hnot, oneOf_toNat, hall c hbreak, hbreak, if_false, if_true]

omit hsep in
/-- Whatever follows, a literal begins with what was read of it. -/
theorem run_literal (henc : enc.Lawful) (hB : B ≠ []) {more : List Char}
    {r : Tokenizer × List Symbol}
    (h : Step.run (nextCodePoint b enc sep) ⟨.literal, codes B⟩ (codes more) = .ok r) :
    r.2 = [] ∨ ∃ C syms, r.2 = ⟨.string, utf8 (B ++ C)⟩ :: syms := by
  induction more generalizing B r with
  | nil =>
    obtain rfl : (⟨.literal, codes B⟩, []) = r := by simpa using h
    exact Or.inl rfl
  | cons c more ih =>
    obtain ⟨t, syms, syms', hstep, hrun, hout⟩ := Step.run_cons_eq_ok_iff.mp h
    by_cases hc : c ∈ breaks ++ reserved
    · obtain ⟨syms'', rfl⟩ := next_emits_of_refused (put_literal henc hB hc) hstep
      exact Or.inr ⟨[], syms'' ++ syms', by simpa using hout⟩
    · cases (next_literal (codes B) hc).symm.trans hstep
      have happend : codes B ++ [c.toNat] = codes (B ++ [c]) := by simp
      rw [happend] at hrun
      obtain hnone | ⟨C, syms, hsome⟩ := ih (B := B ++ [c]) (by simp) hrun
      · exact Or.inl (hout.trans hnone)
      · exact Or.inr ⟨c :: C, syms, hout.trans (by simpa using hsome)⟩

end Characters

end Tokenizer

end Csv

end Cyng
