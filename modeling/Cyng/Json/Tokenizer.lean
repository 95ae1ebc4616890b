import Cyng.Io.Utf8

/-!
# The JSON tokenizer

An automaton over code points that hands symbols to the parser. A state may refuse a code
point, after it has finished a symbol; the same code point is then offered again, up to 32
times. The text of a symbol is converted back to UTF-8, which can throw for code points
that are no characters.
-/

namespace Cyng

open Theory

namespace Json

/-- What is used of other libraries: `boost::u32_to_u8_iterator`, which may throw an exception
with a text, and `boost::lexical_cast` from text to `std::int64_t` and to `double`. -/
structure Library where
  u32ToU8 : List ℕ → Except String Bytes
  castInt64 : Bytes → Option (BitVec 64)
  castDouble : Bytes → Option (BitVec 64)

/-- `symbol_type`, as far as the tokenizer emits it. -/
inductive SymbolType
  | string | number | float | boolean | nothing | symbol
deriving DecidableEq, Repr

/-- `symbol` -/
structure Symbol where
  type : SymbolType
  value : Bytes
deriving DecidableEq, Repr

/-- Is the code point one of these characters? -/
def oneOf (chars : List Char) (cp : ℕ) : Bool := chars.any fun c => c.toNat == cp

def structural : List Char := [',', ':', '[', ']', '{', '}']
def blanks : List Char := [' ', '\n', '\r', '\t']
def digits : List Char := ['0', '1', '2', '3', '4', '5', '6', '7', '8', '9']
def hexDigits : List Char :=
  digits ++ ['a', 'A', 'b', 'B', 'c', 'C', 'd', 'D', 'e', 'E', 'f', 'F']

/-- `tokenizer::state` -/
inductive TokenizerState
  | error | start | string | literal | number | fraction | exponent | digits | escape | unicode
deriving DecidableEq, Repr

/-- `tokenizer` -/
structure Tokenizer where
  state : TokenizerState
  buffer : List ℕ
deriving DecidableEq, Repr

namespace Tokenizer

def initial : Tokenizer := ⟨.start, []⟩

/-- The result of one call: the state, the symbols it emits, and whether the code point was
taken. -/
abbrev Reply := Tokenizer × List Symbol × Bool

variable (b : Build) (lib : Library) (t : Tokenizer) (cp : ℕ)

/-- Take the code point and go to a state. -/
def goto (state : TokenizerState) : Reply := ({ t with state }, [], true)

/-- Append something to the buffer, take the code point and go to a state. -/
def append (cps : List ℕ) (state : TokenizerState) : Reply :=
  (⟨state, t.buffer ++ cps⟩, [], true)

/-- `symbol(symbol_type, std::u32string const&)` -/
def makeSymbol (type : SymbolType) (buffer : List ℕ) : Except Fault Symbol :=
  match lib.u32ToU8 buffer with
  | .ok value => .ok ⟨type, value⟩
  | .error what => .error (.exception what)

/-- Emit the buffer as a symbol and start over. -/
def finish (type : SymbolType) (advance : Bool) : Except Fault Reply := do
  let sym ← makeSymbol lib type t.buffer
  return (initial, [sym], advance)

/-- `tokenizer::state_start`: a leading zero is taken without being stored. -/
def stateStart : Reply :=
  if oneOf structural cp then (t, [⟨.symbol, [UInt8.ofNat cp]⟩], true)
  else if oneOf blanks cp then (t, [], true)
  else if oneOf ['"'] cp then t.goto .string
  else if oneOf ['0'] cp then t.goto .exponent
  else if oneOf ['-', '1', '2', '3', '4', '5', '6', '7', '8', '9'] cp then t.append [cp] .number
  else t.append [cp] .literal

/-- `tokenizer::state_string` -/
def stateString : Except Fault Reply :=
  if oneOf ['"'] cp then t.finish lib .string true
  else if oneOf ['\\'] cp then .ok (t.goto .escape)
  else .ok (t.append [cp] t.state)

/-- `tokenizer::build_literal`: where the conversion throws, the text of the exception is the
string. -/
def buildLiteral : Except Fault Symbol :=
  if t.buffer = "null".toList.map Char.toNat then makeSymbol lib .nothing t.buffer
  else if t.buffer = "true".toList.map Char.toNat then makeSymbol lib .boolean t.buffer
  else if t.buffer = "false".toList.map Char.toNat then makeSymbol lib .boolean t.buffer
  else
    match lib.u32ToU8 t.buffer with
    | .ok value => .ok ⟨.string, value⟩
    | .error what => .ok ⟨.string, utf8 what.toList⟩

/-- `tokenizer::state_literal` -/
def stateLiteral : Except Fault Reply :=
  if oneOf blanks cp then do
    let sym ← t.buildLiteral lib
    return (initial, [sym], true)
  else if oneOf ['"', '\'', '[', ']', '{', '}', ',', ':'] cp then do
    let sym ← t.buildLiteral lib
    return (initial, [sym], false)
  else .ok (t.append [cp] t.state)

/-- `tokenizer::state_escape`: the character after an unknown escape is dropped. -/
def stateEscape : Reply :=
  if oneOf ['"', '\\', '/'] cp then t.append [cp] .string
  else if oneOf ['b'] cp then t.append [8] .string
  else if oneOf ['f'] cp then t.append [12] .string
  else if oneOf ['n'] cp then t.append [10] .string
  else if oneOf ['r'] cp then t.append [13] .string
  else if oneOf ['t'] cp then t.append [9] .string
  else if oneOf ['u'] cp then t.append [1] .unicode
  else t.goto .string

/-- The value of a hexadecimal digit. -/
def hexDigit (cp : ℕ) : ℕ :=
  if cp < 0x3A then cp - 0x30 else if cp < 0x47 then cp - 0x37 else cp - 0x57

/-- What a stream in hexadecimal mode reads from hexadecimal digits. -/
def hexValue (cps : List ℕ) : ℕ := cps.foldl (fun n cp => n * 16 + hexDigit cp) 0

/-- `tokenizer::convert_to_unicode`: the digits follow the last mark in the buffer. Without a
mark the position is `npos`, and the sizes wrap around. -/
def convertToUnicode (buffer : List ℕ) : Except Fault Reply :=
  let sub := buffer.reverse.takeWhile (· ≠ 1)
  if 1 ∈ buffer then
    if 4 < sub.length + 1 then
      let pos := buffer.length - (sub.length + 1)
      .ok (⟨.string, buffer.take pos ++ [hexValue sub.reverse]⟩, [], true)
    else .ok (⟨.unicode, buffer⟩, [], true)
  else if 4 < buffer.length + 1 then .error (.exception "std::length_error")
  else .ok (⟨.unicode, buffer⟩, [], true)

/-- `tokenizer::state_unicode` -/
def stateUnicode : Except Fault Reply :=
  if oneOf hexDigits cp then convertToUnicode (t.buffer ++ [cp])
  else .ok (t.goto .error)

/-- `tokenizer::state_number`: an exponent without a fraction gets one. -/
def stateNumber : Except Fault Reply :=
  if oneOf ['.'] cp then .ok (t.append [cp] .fraction)
  else if oneOf digits cp then .ok (t.append [cp] t.state)
  else if oneOf ['e', 'E'] cp then .ok (t.append ['.'.toNat, '0'.toNat, cp] .exponent)
  else t.finish lib .number false

/-- `tokenizer::state_fraction` -/
def stateFraction : Except Fault Reply :=
  if oneOf digits cp then .ok (t.append [cp] t.state)
  else if oneOf ['e', 'E'] cp then .ok (t.append [cp] .exponent)
  else t.finish lib .float false

/-- `tokenizer::state_exponent` -/
def stateExponent : Reply :=
  if oneOf ['-', '+'] cp then t.append [cp] .digits
  else ({ t with state := .digits }, [], false)

/-- `tokenizer::state_digits` -/
def stateDigits : Except Fault Reply :=
  if oneOf digits cp then .ok (t.append [cp] t.state)
  else t.finish lib .float false

/-- `tokenizer::put` -/
def put : Except Fault Reply :=
  match t.state with
  | .start => .ok (t.stateStart cp)
  | .string => t.stateString lib cp
  | .literal => t.stateLiteral lib cp
  | .escape => .ok (t.stateEscape cp)
  | .number => t.stateNumber lib cp
  | .fraction => t.stateFraction lib cp
  | .exponent => .ok (t.stateExponent cp)
  | .digits => t.stateDigits lib cp
  | .unicode => t.stateUnicode cp
  | .error => do
    b.check "undefined state" False
    return (t, [], true)

/-- The loop of `parser::next_code_point`, with a number of repetitions left. -/
def replay : ℕ → Step Tokenizer ℕ Symbol Fault
  | 0, t, cp => do
    let (t, syms, _) ← put b lib t cp
    return (t, syms)
  | limit + 1, t, cp => do
    let (t, syms, advance) ← put b lib t cp
    if advance then return (t, syms)
    let (t, syms') ← replay limit t cp
    return (t, syms ++ syms')

/-- `parser::next_code_point`: the tokenizer may refuse a code point up to 32 times. -/
def nextCodePoint : Step Tokenizer ℕ Symbol Fault := replay b lib 32

section Replay

variable {b lib} {t t' t'' : Tokenizer} {cp : ℕ} {syms syms' : List Symbol}

theorem replay_of_taken {limit : ℕ} (h : put b lib t cp = .ok (t', syms, true)) :
    replay b lib limit t cp = .ok (t', syms) := by
  cases limit <;> simp [replay, h]

theorem replay_of_error {limit : ℕ} {e : Fault} (h : put b lib t cp = .error e) :
    replay b lib limit t cp = .error e := by
  cases limit <;> simp [replay, h]

theorem replay_of_refused {limit : ℕ} (h : put b lib t cp = .ok (t', syms, false))
    (h' : replay b lib limit t' cp = .ok (t'', syms')) :
    replay b lib (limit + 1) t cp = .ok (t'', syms ++ syms') := by
  simp [replay, h, h']

end Replay

end Tokenizer

end Json

end Cyng
