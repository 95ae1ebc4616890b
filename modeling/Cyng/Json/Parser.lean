import Cyng.Json.Tokenizer
import Cyng.Obj.Object

/-!
# The JSON parser

Two stacks: one of states, one for each open array or object, and one of values, where an
end-of-data object marks the place at which an array or object was opened. A closing bracket
takes the values off down to the mark. When the last state is gone the value is complete and
goes to the callback.

The whole parser is a pipeline: bytes pass the detection of a byte order mark, become code
points, then symbols, then values.
-/

namespace Cyng

open Theory

namespace Json

/-- `parser::state` -/
inductive ParserState
  | array | object | value
deriving DecidableEq, Repr

/-- The two stacks of `parser`, their tops first. -/
structure Parser where
  state : List ParserState
  stack : List Obj
deriving DecidableEq

namespace Parser

def initial : Parser := ⟨[], []⟩

variable (b : Build) (lib : Library) (p : Parser)

def push (o : Obj) : Parser := { p with stack := o :: p.stack }

/-- `parser::swap(state)` -/
def swap (s : ParserState) : Parser :=
  match p.state with
  | [] => p
  | _ :: state => { p with state := s :: state }

/-- `is_of_type<TC_EOD>` -/
def isEod (o : Obj) : Bool := o.typeCode = .eod

/-- `value_cast<std::string>(object, "")` -/
def textOf : Obj → Bytes
  | .scalar (.string str) => str
  | _ => []

/-- `container_cast<param_t>`: what is no parameter becomes an empty one. -/
def toParam : Obj → Key × Obj
  | .pair (.name n) value => (.name n, value)
  | _ => (.name [], .scalar .null)

/-- `parser::build_object` -/
def buildObject : Except Fault Parser :=
  match p.state with
  | [] => .error (.undefined "state_.top()")
  | .value :: _ =>
    match p.stack with
    | obj :: name :: below :: rest => do
      b.check "is_of_type<TC_STRING>(stack_.top())" (name.typeCode = .string)
      return Parser.swap ⟨p.state, .param (textOf name) obj :: below :: rest⟩ .object
    | _ => return p.swap .object
  | _ => return p

/-- The values above the mark, the last one first. -/
def items : List Obj := p.stack.takeWhile fun o => !isEod o

/-- What the loops of `build_array` and `build_member` leave on the stack, with the mark
replaced by the value that was built. -/
def replaceMark (o : Obj) : Except Fault Parser :=
  match p.stack.dropWhile fun o => !isEod o with
  | [] => .error (.undefined "stack_.top()")
  | mark :: rest => do
    b.check "is_of_type<TC_EOD>(stack_.top())" (isEod mark = true)
    return ⟨p.state, o :: rest⟩

/-- `state_.pop()`, and `cleanup` with the callback where this was the last state. -/
def close : Except Fault (Parser × List Obj) :=
  match p.state with
  | [] => .error (.undefined "state_.pop()")
  | [_] => do
    b.check "stack_.size() == 1" (p.stack.length = 1)
    match p.stack with
    | [] => .error (.undefined "stack_.top()")
    | obj :: rest => return (⟨[], rest⟩, [obj])
  | _ :: state => return ({ p with state }, [])

/-- `parser::build_array` -/
def buildArray : Except Fault (Parser × List Obj) := do
  b.check "not enough parameters" (p.stack ≠ [])
  let p' ← p.replaceMark b (.vector p.items.reverse)
  p'.close b

/-- `parser::build_member`: of members with the same name the last one is kept. -/
def buildMember : Except Fault (Parser × List Obj) := do
  b.check "not enough parameters" (p.stack ≠ [])
  let p' ← p.replaceMark b (.paramMap (OrderedMap.ofEntries (p.items.reverse.map toParam)))
  p'.close b

/-- `parser::process_symbol` -/
def processSymbol (value : Bytes) : Except Fault (Parser × List Obj) := do
  b.check "invalid symbol" (value.length = 1)
  match value with
  | [] => .error (.exception "std::out_of_range")
  | c :: _ =>
    if oneOf ['['] c.toNat then return (⟨.array :: p.state, .scalar .eod :: p.stack⟩, [])
    else if oneOf ['{'] c.toNat then return (⟨.object :: p.state, .scalar .eod :: p.stack⟩, [])
    else if oneOf [':'] c.toNat then
      -- the assertion reads the top of the stack
      match p.state with
      | [] =>
        if b.enabled "OBJECT state expected" then .error (.undefined "state_.top()")
        else return (p, [])
      | s :: _ =>
        b.check "OBJECT state expected" (s = .object)
        return (p.swap .value, [])
    else if oneOf [']'] c.toNat then p.buildArray b
    else if oneOf ['}'] c.toNat then
      let p ← p.buildObject b
      p.buildMember b
    else if oneOf [','] c.toNat then
      let p ← p.buildObject b
      return (p, [])
    else return (p, [])

/-- `parser::process_number`: a text that is no number stays a text. -/
def processNumber (value : Bytes) : Parser :=
  match lib.castInt64 value with
  | some n => p.push (.scalar (.int .int64 n))
  | none => p.push (.scalar (.string value))

/-- `parser::process_float` -/
def processFloat (value : Bytes) : Parser :=
  match lib.castDouble value with
  | some x => p.push (.scalar (.float .double x))
  | none => p.push (.scalar (.string value))

/-- `parser::next_symbol` -/
def nextSymbol : Step Parser Symbol Obj Fault := fun p sym =>
  match sym.type with
  | .string => .ok (p.push (.scalar (.string sym.value)), [])
  | .number => .ok (p.processNumber lib sym.value, [])
  | .float => .ok (p.processFloat lib sym.value, [])
  | .boolean => .ok (p.push (.scalar (.bool (sym.value = utf8 "true".toList))), [])
  | .nothing => .ok (p.push (.scalar .null), [])
  | .symbol => p.processSymbol b sym.value

end Parser

/-! ### The pipeline -/

/-- The counter of `parser` and the variables of `parser::read` that detect a byte order mark.
The counter is taken not to come around, which takes 2^64 bytes. -/
structure Bom where
  counter : ℕ
  bom : Bool
  trailer : List UInt8
deriving DecidableEq

namespace Bom

/-- A new call of `parser::read`. -/
def start (counter : ℕ) : Bom := ⟨counter, false, [0, 0, 0]⟩

/-- The loop of `parser::read`: the bytes that are handed on. -/
def put : Step Bom UInt8 UInt8 Fault := fun s c =>
  if s.bom || (s.counter = 0 && c = 0xEF) then
    if s.counter < 3 then
      let trailer := s.trailer.set s.counter c
      if s.counter = 2 then
        .ok (⟨s.counter + 1, false, trailer⟩, if trailer = [0xEF, 0xBB, 0xBF] then [] else trailer)
      else .ok (⟨s.counter + 1, true, trailer⟩, [])
    else .error (.undefined "trailer[counter_]")
  else .ok (⟨s.counter + 1, false, s.trailer⟩, [c])

end Bom

/-- `parser` -/
structure Reader where
  counter : ℕ
  sanitizer : U8ToU32
  tokenizer : Tokenizer
  parser : Parser
deriving DecidableEq

namespace Reader

variable (b : Build) (lib : Library)

def initial : Reader := ⟨0, .initial, .initial, .initial⟩

/-- `parser::put` -/
def put : Step ((U8ToU32 × Tokenizer) × Parser) UInt8 Obj Fault :=
  Step.pipe (Step.pipe U8ToU32.put (Tokenizer.nextCodePoint b lib)) (Parser.nextSymbol b lib)

/-- `parser::read`: the results that go to the callback. -/
def read : Step Reader Bytes Obj Fault := fun r chunk =>
  match Step.run (Step.pipe Bom.put (put b lib))
      (.start r.counter, (r.sanitizer, r.tokenizer), r.parser) chunk with
  | .error e => .error e
  | .ok ((bom, (sanitizer, tokenizer), parser), os) =>
    .ok (⟨bom.counter, sanitizer, tokenizer, parser⟩, os)

/-! ### Text without a byte order mark -/

section Plain

variable {b lib} {r r' : Reader} {os : List Obj}

/-- These bytes do not begin with what looks like a byte order mark, or are not the first. -/
def Plain (counter : ℕ) (bytes : Bytes) : Prop := counter ≠ 0 ∨ bytes.head? ≠ some 0xEF

theorem Plain.left {counter : ℕ} {bytes bytes' : Bytes} (h : Plain counter (bytes ++ bytes')) :
    Plain counter bytes := by
  refine h.imp id fun hhead hbytes => hhead ?_
  cases bytes with
  | nil => cases hbytes
  | cons c bytes => exact hbytes

theorem Plain.right {counter : ℕ} {bytes bytes' : Bytes} (h : Plain counter (bytes ++ bytes')) :
    Plain (counter + bytes.length) bytes' := by
  cases bytes with
  | nil => exact h
  | cons c bytes => exact Or.inl (by simp)

/-- All bytes are handed on. -/
theorem run_bom {counter : ℕ} {bytes : Bytes} {trailer : List UInt8} (h : Plain counter bytes) :
    Step.run Bom.put ⟨counter, false, trailer⟩ bytes =
      .ok (⟨counter + bytes.length, false, trailer⟩, bytes) := by
  induction bytes generalizing counter with
  | nil => rfl
  | cons c bytes ih =>
    have hfirst : ¬(counter = 0 ∧ c = 0xEF) := by
      rintro ⟨rfl, rfl⟩
      simp [Plain] at h
    have hput : Bom.put ⟨counter, false, trailer⟩ c =
        .ok (⟨counter + 1, false, trailer⟩, [c]) := by
      simp [Bom.put, hfirst]
    have hcounter : counter + 1 + bytes.length = counter + (bytes.length + 1) := by omega
    rw [Step.run_cons_of_ok hput, ih (Or.inl (Nat.succ_ne_zero counter)), List.length_cons,
      hcounter]
    rfl

/-- One call on such bytes. -/
theorem read_eq_ok_iff {chunk : Bytes} (h : Plain r.counter chunk) :
    read b lib r chunk = .ok (r', os) ↔
      Step.run (put b lib) ((r.sanitizer, r.tokenizer), r.parser) chunk =
          .ok (((r'.sanitizer, r'.tokenizer), r'.parser), os) ∧
        r'.counter = r.counter + chunk.length := by
  have hbom := @run_bom _ _ [0, 0, 0] h
  obtain ⟨counter', sanitizer', tokenizer', parser'⟩ := r'
  constructor
  · intro hread
    unfold read at hread
    split at hread
    case h_1 => cases hread
    case h_2 bom sanitizer tokenizer parser os' hrun =>
      obtain ⟨bytes, hfirst, hput⟩ := Step.run_pipe_eq_ok_iff.mp hrun
      cases hbom.symm.trans hfirst
      cases hread
      exact ⟨hput, rfl⟩
  · rintro ⟨hput, rfl⟩
    have hrun := Step.run_pipe_ok hbom hput
    simp [read, Bom.start, hrun]

/-- How the text is cut into calls does not matter. -/
theorem run_read_eq_ok_iff {chunks : List Bytes} (h : Plain r.counter chunks.flatten) :
    Step.run (read b lib) r chunks = .ok (r', os) ↔
      Step.run (put b lib) ((r.sanitizer, r.tokenizer), r.parser) chunks.flatten =
          .ok (((r'.sanitizer, r'.tokenizer), r'.parser), os) ∧
        r'.counter = r.counter + chunks.flatten.length := by
  induction chunks generalizing r os with
  | nil =>
    obtain ⟨counter, sanitizer, tokenizer, parser⟩ := r
    obtain ⟨counter', sanitizer', tokenizer', parser'⟩ := r'
    simp only [List.flatten_nil, Step.run_nil, Except.ok.injEq, Prod.mk.injEq, Reader.mk.injEq,
      List.length_nil, Nat.add_zero]
    tauto
  | cons chunk chunks ih =>
    rw [List.flatten_cons] at h ⊢
    rw [Step.run_cons_eq_ok_iff, Step.run_append_eq_ok_iff]
    constructor
    · rintro ⟨s, head, tail, hread, hrun, hos⟩
      -- a chunk is the run over its bytes, and the counter has moved by its length
      obtain ⟨hput, hcounter⟩ := (read_eq_ok_iff h.left).mp hread
      obtain ⟨htail, hcounter'⟩ := (ih (by rw [hcounter]; exact h.right)).mp hrun
      refine ⟨⟨_, head, tail, hput, htail, hos⟩, ?_⟩
      rw [hcounter', hcounter, List.length_append, Nat.add_assoc]
    · rintro ⟨⟨⟨⟨sanitizer, tokenizer⟩, parser⟩, head, tail, hput, htail, hos⟩, hcounter⟩
      refine ⟨⟨r.counter + chunk.length, sanitizer, tokenizer, parser⟩, head, tail,
        (read_eq_ok_iff h.left).mpr ⟨hput, rfl⟩, (ih h.right).mpr ⟨htail, ?_⟩, hos⟩
      rw [hcounter, List.length_append, Nat.add_assoc]

end Plain

end Reader

end Json

end Cyng
