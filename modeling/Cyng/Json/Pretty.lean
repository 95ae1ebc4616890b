import Cyng.Dom.Walker
import Cyng.Json.Library
import Cyng.Json.Serializer
import Cyng.Theory.Machine
import Cyng.Theory.Pieces

/-!
# Pretty JSON

An object is walked through, and a walker with a flag of its own writes it: brackets, commas and
line ends where a container opens or closes, and the compact text of everything else.

The texts of both writers agree up to white space, as long as no parameter is an element of a
vector or the value of another parameter. The compact writer puts braces around these, the walker
does not. In a map there are no braces from either of them.
-/

namespace Cyng

open Theory

namespace Json

/-! ### The compact text -/

/-- Braces around attributes and parameters, where they are asked for. -/
def marksBraces (wrap : Bool) (o : Obj) (ps : List Piece) : List Piece :=
  if wrap ∧ (o.typeCode = .attr ∨ o.typeCode = .param) then
    .plain (utf8 ['{']) :: ps ++ [.plain (utf8 ['}'])]
  else ps

section Writers

variable (b : Build) (other : Obj → Bytes)

mutual

/-- The compact text with its literals marked; with or without the braces around parameters. -/
def marked (braced : Bool) : Obj → Except Fault (List Piece)
  | .scalar (.string str) => do
    let cps ← U8ToU32.codePoints b str
    return [.literal (utf8 (cps.flatMap escape))]
  | .pair (.name n) value => do
    let ps ← marked braced value
    return .literal n :: .plain (utf8 [':', ' ']) :: marksBraces braced value ps
  | .seq .vector items =>
    if items = [] then .ok [.plain (utf8 "null".toList)]
    else do
      let ps ← markedItems braced true false items
      return .plain (utf8 ['[']) :: ps ++ [.plain (utf8 [']'])]
  | .seq .tuple items =>
    if items = [] then .ok [.plain (utf8 "null".toList)]
    else do
      let ps ← markedItems braced false false items
      return .plain (utf8 ['{']) :: ps ++ [.plain (utf8 ['}'])]
  | .map .name entries =>
    if entries = [] then .ok [.plain (utf8 "null".toList)]
    else do
      let ps ← markedEntries braced false entries
      return .plain (utf8 ['{']) :: ps ++ [.plain (utf8 ['}'])]
  | o => do
    let text ← write b other o
    return [.plain text]

def markedItems (braced wrap init : Bool) : List Obj → Except Fault (List Piece)
  | [] => .ok []
  | item :: items => do
    let ps ← marked braced item
    let qs ← markedItems braced wrap true items
    return .plain (if init then utf8 [',', ' '] else []) ::
      marksBraces (braced && wrap) item ps ++ qs

def markedEntries (braced flag : Bool) : List (Key × Obj) → Except Fault (List Piece)
  | [] => .ok []
  | (key, value) :: entries => do
    let ps ← marked braced value
    let qs ← markedEntries braced true entries
    return .plain (if flag then utf8 [','] else []) :: .literal (nameOf key) ::
      .plain (utf8 [':']) :: ps ++ qs

end

/-! ### The walker -/

/-- `json_walker::indentation` -/
def indentation (depth : ℕ) : Piece := .plain (List.replicate (depth * 2) 0x20)

/-- `std::endl` -/
def endl : Piece := .plain [0x0A]

variable (codeText : Obis → Bytes)

/-- The key of an attribute, a parameter or a property; how an OBIS code is written is given. -/
def keyText : Key → Bytes
  | .index n => utf8 (decimal n.toNat)
  | .name n => n
  | .code c => codeText c

/-- Indentation at the start of a line. -/
def lineStart (nl : Bool) (depth : ℕ) : List Piece := if nl then [indentation depth] else []

/-- The key, and what separates it from its value. -/
def keyStart (nl : Bool) (key : Key) (depth : ℕ) : List Piece :=
  [if nl then indentation depth else .plain [0x20], .literal (keyText codeText key),
    .plain (utf8 [':', ' '])]

/-- A bracket that opens, and whether a line ends after it. -/
def openBracket (nl : Bool) (bracket : List Char) (depth size : ℕ) : Bool × List Piece :=
  if size > 1 then (true, lineStart nl depth ++ [.plain (utf8 bracket), endl])
  else (false, lineStart nl depth ++ [.plain (utf8 bracket)])

/-- A bracket that closes, and what comes after it. -/
def closeBracket (nl : Bool) (bracket : Char) (depth : ℕ) (state : WalkerState)
    (parent : TypeCode) : Bool × List Piece :=
  let ps := lineStart nl depth ++ [.plain (utf8 [bracket])]
  if state ≠ .last then (true, ps ++ [.plain (utf8 [',', ' ']), endl])
  else
    match parent with
    | .tuple | .vector | .deque => (false, ps)
    | _ => (true, ps ++ [endl])

/-- `json_walker::open` -/
def opening (nl : Bool) (tag : TypeCode) (depth size : ℕ) : Bool × List Piece :=
  match tag with
  | .tuple | .deque | .paramMap | .attrMap | .propMap => openBracket nl ['{'] depth size
  | .vector => openBracket nl ['[', ' '] depth size
  | _ => (nl, [])

/-- `json_walker::close` -/
def closing (nl : Bool) (tag : TypeCode) (depth : ℕ) (state : WalkerState) (parent : TypeCode) :
    Bool × List Piece :=
  match tag with
  | .tuple | .deque | .paramMap | .attrMap | .propMap => closeBracket nl '}' depth state parent
  | .vector => closeBracket nl ']' depth state parent
  | _ => (nl, [])

/-- `json_walker`, whose state is the flag `nl_` -/
def walk : Step Bool WalkerCall Piece Fault := fun nl call =>
  match call with
  | .visit o depth state => do
    let ps ← marked b other true o
    if state ≠ .last then .ok (true, lineStart nl depth ++ ps ++ [.plain (utf8 [',', ' ']), endl])
    else .ok (false, lineStart nl depth ++ ps)
  | .opens tag depth size => .ok (opening nl tag depth size)
  | .closes tag depth state parent => .ok (closing nl tag depth state parent)
  | .pair key depth => .ok (false, keyStart codeText nl key depth)
  | .simple key value depth state => do
    let ps ← marked b other true value
    .ok (true, keyStart codeText nl key depth ++ ps ++
      (if state ≠ .last then [.plain (utf8 [',', ' '])] else []) ++ [endl])

/-- `serialize_json_pretty`, with the literals marked -/
def pretty (o : Obj) : Except Fault (List Piece) :=
  (Step.run (walk b other codeText) true (traverse 0 .last o.typeCode o)).map Prod.snd

/-- `to_json_pretty` -/
def toJsonPretty (o : Obj) : Except Fault Bytes := (pretty b other codeText o).map Piece.text

end Writers

/-! ### The marked text is the compact text -/

section Text

variable {b : Build} {other : Obj → Bytes}

theorem utf8EncodeChar_quote : String.utf8EncodeChar '"' = [Piece.quote] := by decide

theorem text_marksBraces (wrap : Bool) (o : Obj) (ps : List Piece) :
    Piece.text (marksBraces wrap o ps) =
      if wrap then braces o (Piece.text ps) else Piece.text ps := by
  unfold marksBraces braces
  cases wrap <;> by_cases h : o.typeCode = .attr ∨ o.typeCode = .param <;> simp [h, Piece.bytes]

theorem text_marked_scalar (braced : Bool) (v : Scalar) :
    (marked b other braced (.scalar v)).map Piece.text = write b other (.scalar v) := by
  cases v with
  | string str =>
    rw [marked, write, writeString]
    cases U8ToU32.codePoints b str with
    | error e => rfl
    | ok cps => simp [Except.map, Piece.bytes, utf8EncodeChar_quote]
  | _ => simp [marked, write, Except.map, Piece.bytes]

mutual

/-- The compact text with marks is the compact text. -/
theorem text_marked (o : Obj) :
    (marked b other true o).map Piece.text = write b other o := by
  match o with
  | .scalar v => exact text_marked_scalar true v
  | .pair (.name n) value =>
    rw [marked, write, ← text_marked value]
    cases marked b other true value with
    | error e => rfl
    | ok ps =>
      -- the name and the colon come first, then the braces
      simp [Except.map, Piece.bytes, utf8EncodeChar_quote, text_marksBraces]
  | .pair (.index n) value | .pair (.code c) value =>
    simp [marked, write, Except.map, Piece.bytes]
  | .seq .vector items =>
    rw [marked, write, ← text_markedItems true false items]
    split_ifs
    · simp [Except.map, Piece.bytes]
    · cases markedItems b other true true false items with
      | error e => rfl
      | ok ps => simp [Except.map, Piece.bytes]
  | .seq .tuple items =>
    rw [marked, write, ← text_markedItems false false items]
    split_ifs
    · simp [Except.map, Piece.bytes]
    · cases markedItems b other true false false items with
      | error e => rfl
      | ok ps => simp [Except.map, Piece.bytes]
  | .map .name entries =>
    rw [marked, write, ← text_markedEntries false entries]
    split_ifs
    · simp [Except.map, Piece.bytes]
    · cases markedEntries b other true false entries with
      | error e => rfl
      | ok ps => simp [Except.map, Piece.bytes]
  | .seq .deque items | .map .index entries | .map .code entries | .prg bufs =>
    simp [marked, write, Except.map, Piece.bytes]

theorem text_markedItems (wrap init : Bool) (items : List Obj) :
    (markedItems b other true wrap init items).map Piece.text =
      writeItems b other wrap init items := by
  match items with
  | [] => rfl
  | item :: items =>
    rw [markedItems, writeItems, ← text_marked item, ← text_markedItems wrap true items]
    cases marked b other true item with
    | error e => rfl
    | ok ps =>
      cases markedItems b other true wrap true items with
      | error e => rfl
      | ok qs => simp [Except.map, Piece.bytes, text_marksBraces]

theorem text_markedEntries (flag : Bool) (entries : List (Key × Obj)) :
    (markedEntries b other true flag entries).map Piece.text =
      writeEntries b other flag entries := by
  match entries with
  | [] => rfl
  | (key, value) :: entries =>
    rw [markedEntries, writeEntries, ← text_marked value, ← text_markedEntries true entries]
    cases marked b other true value with
    | error e => rfl
    | ok ps =>
      cases markedEntries b other true true entries with
      | error e => rfl
      | ok qs => simp [Except.map, Piece.bytes, utf8EncodeChar_quote]

end

end Text

/-! ### What the walker writes, less white space -/

section Trees

variable (name : Bytes → Prop)

mutual

/-- Vectors, tuples and maps of parameters that are not empty, parameters, and null, truth
values, integers and strings, with a condition on the names. -/
def IsTree : Obj → Prop
  | .scalar .null | .scalar (.bool _) | .scalar (.int _ _) | .scalar (.string _) => True
  | .pair (.name n) value => name n ∧ IsTree value
  | .seq .vector items | .seq .tuple items => items ≠ [] ∧ treeItems items
  | .map .name entries => entries ≠ [] ∧ treeEntries entries
  | _ => False

def treeItems : List Obj → Prop
  | [] => True
  | item :: items => IsTree item ∧ treeItems items

def treeEntries : List (Key × Obj) → Prop
  | [] => True
  | (key, value) :: entries => (∃ n, key = .name n ∧ name n) ∧ IsTree value ∧ treeEntries entries

end

end Trees

/-- The comma after everything but the last element. -/
def comma (state : WalkerState) : Bytes := if state ≠ .last then utf8 [','] else []

section Walks

variable (b : Build) (other : Obj → Bytes) (codeText : Obis → Bytes) {name : Bytes → Prop}

/-- What is left of a call when white space is taken out. -/
def callText : WalkerCall → Except Fault Bytes
  | .visit o _ state => (marked b other true o).map fun ps => Piece.squeeze ps ++ comma state
  | .opens tag _ _ =>
    match tag with
    | .tuple | .deque | .paramMap | .attrMap | .propMap => .ok (utf8 ['{'])
    | .vector => .ok (utf8 ['['])
    | _ => .ok []
  | .closes tag _ state _ =>
    match tag with
    | .tuple | .deque | .paramMap | .attrMap | .propMap => .ok (utf8 ['}'] ++ comma state)
    | .vector => .ok (utf8 [']'] ++ comma state)
    | _ => .ok []
  | .pair key _ => .ok ((Piece.literal (keyText codeText key)).squeezed ++ utf8 [':'])
  | .simple key value _ state => (marked b other true value).map fun ps =>
    (Piece.literal (keyText codeText key)).squeezed ++ utf8 [':'] ++ Piece.squeeze ps ++
      comma state

/-- What is left of several calls. -/
def callsText : List WalkerCall → Except Fault Bytes
  | [] => .ok []
  | call :: calls => do
    let text ← callText b other codeText call
    let texts ← callsText calls
    return text ++ texts

variable {b} {other} {codeText}

theorem squeeze_lineStart (nl : Bool) (depth : ℕ) : Piece.squeeze (lineStart nl depth) = [] := by
  cases nl <;> simp [lineStart, indentation, Piece.squeezed, Piece.isBlank]

theorem squeeze_endl : endl.squeezed = [] := by decide

/-- What is left of brackets and separators. -/
theorem squeezed_marks :
    (Piece.plain (utf8 ['{'])).squeezed = utf8 ['{'] ∧
      (Piece.plain (utf8 ['}'])).squeezed = utf8 ['}'] ∧
      (Piece.plain (utf8 ['['])).squeezed = utf8 ['['] ∧
      (Piece.plain (utf8 ['[', ' '])).squeezed = utf8 ['['] ∧
      (Piece.plain (utf8 [']'])).squeezed = utf8 [']'] ∧
      (Piece.plain (utf8 [','])).squeezed = utf8 [','] ∧
      (Piece.plain (utf8 [',', ' '])).squeezed = utf8 [','] ∧
      (Piece.plain (utf8 [':'])).squeezed = utf8 [':'] ∧
      (Piece.plain (utf8 [':', ' '])).squeezed = utf8 [':'] ∧
      (Piece.plain [0x20]).squeezed = [] ∧
      (Piece.plain []).squeezed = [] := by
  decide

theorem squeeze_keyStart (nl : Bool) (key : Key) (depth : ℕ) :
    Piece.squeeze (keyStart codeText nl key depth) =
      (Piece.literal (keyText codeText key)).squeezed ++ utf8 [':'] := by
  have hstart : (if nl then indentation depth else .plain [0x20]).squeezed = [] := by
    cases nl
    · exact squeezed_marks.2.2.2.2.2.2.2.2.2.1
    · simpa [lineStart] using squeeze_lineStart true depth
  simp [-utf8_cons, keyStart, squeezed_marks, hstart]

theorem squeeze_openBracket (nl : Bool) (bracket : List Char) (depth size : ℕ) :
    Piece.squeeze (openBracket nl bracket depth size).2 =
      (Piece.plain (utf8 bracket)).squeezed := by
  unfold openBracket
  split_ifs <;> simp [squeeze_lineStart, squeeze_endl]

theorem squeeze_closeBracket (nl : Bool) (bracket : Char) (depth : ℕ) (state : WalkerState)
    (parent : TypeCode) :
    Piece.squeeze (closeBracket nl bracket depth state parent).2 =
      (Piece.plain (utf8 [bracket])).squeezed ++ comma state := by
  unfold closeBracket comma
  by_cases hstate : state = .last
  · cases parent <;> simp [-utf8_cons, hstate, squeeze_lineStart, squeeze_endl]
  · simp [-utf8_cons, hstate, squeeze_lineStart, squeeze_endl, squeezed_marks]

/-- What a call writes does not depend on the flag, less white space. -/
theorem squeeze_walk (b : Build) (other : Obj → Bytes) (codeText : Obis → Bytes) (nl : Bool)
    (call : WalkerCall) :
    (walk b other codeText nl call).map (fun r => Piece.squeeze r.2) =
      callText b other codeText call := by
  cases call with
  -- each call of the walker writes its blanks around the text of the call
  | visit o depth state =>
    rw [walk, callText]
    cases marked b other true o with
    | error e => rfl
    | ok ps =>
      unfold comma
      by_cases hstate : state = .last <;>
        simp [-utf8_cons, hstate, Except.map, squeeze_lineStart, squeeze_endl, squeezed_marks]
  | opens tag depth size =>
    cases tag <;>
      simp [-utf8_cons, walk, opening, callText, Except.map, squeeze_openBracket, squeezed_marks]
  | closes tag depth state parent =>
    cases tag <;>
      simp [-utf8_cons, walk, closing, callText, Except.map, squeeze_closeBracket, squeezed_marks]
  | pair key depth => simp [-utf8_cons, walk, callText, Except.map, squeeze_keyStart]
  | simple key value depth state =>
    rw [walk, callText]
    cases marked b other true value with
    | error e => rfl
    | ok ps =>
      unfold comma
      by_cases hstate : state = .last <;>
        simp [-utf8_cons, hstate, Except.map, squeeze_keyStart, squeeze_endl, squeezed_marks]

theorem squeeze_run (nl : Bool) (calls : List WalkerCall) :
    (Step.run (walk b other codeText) nl calls).map (fun r => Piece.squeeze r.2) =
      callsText b other codeText calls := by
  induction calls generalizing nl with
  | nil => rfl
  | cons call calls ih =>
    have hcall := squeeze_walk b other codeText nl call
    rw [callsText, ← hcall]
    cases hwalk : walk b other codeText nl call with
    | error e => rw [Step.run_cons_of_error hwalk]; rfl
    | ok r =>
      obtain ⟨nl', ps⟩ := r
      have hrest := ih nl'
      rw [Step.run_cons_of_ok hwalk, ← hrest]
      cases Step.run (walk b other codeText) nl' calls with
      | error e => rfl
      | ok q => simp [Except.map]

theorem callsText_append (calls calls' : List WalkerCall) :
    callsText b other codeText (calls ++ calls') = (do
      let text ← callsText b other codeText calls
      let texts ← callsText b other codeText calls'
      return text ++ texts) := by
  induction calls with
  | nil =>
    rw [List.nil_append, callsText]
    cases callsText b other codeText calls' <;> rfl
  | cons call calls ih =>
    rw [List.cons_append, callsText, callsText, ih]
    cases callText b other codeText call with
    | error e => rfl
    | ok text =>
      cases callsText b other codeText calls with
      | error e => rfl
      | ok texts =>
        cases callsText b other codeText calls' with
        | error e => rfl
        | ok rest => simp

theorem getState_last_iff (index size : ℕ) : getState index size = .last ↔ index = size := by
  unfold getState
  split_ifs <;> simp_all

@[simp] theorem marksBraces_false (o : Obj) (ps : List Piece) : marksBraces false o ps = ps := by
  simp [marksBraces]

theorem marked_scalar (braced braced' : Bool) (v : Scalar) :
    marked b other braced (.scalar v) = marked b other braced' (.scalar v) := by
  cases v <;> simp [marked]

/-- The comma that a list has before its rest is the one behind the element before: the element
is the last one if there is no rest. -/
theorem squeeze_markedItems (b : Build) (other : Obj → Bytes) (braced wrap : Bool)
    {items : List Obj} {state : WalkerState} (hlast : state = .last ↔ items = []) :
    (markedItems b other braced wrap true items).map Piece.squeeze =
      (markedItems b other braced wrap false items).map fun ps =>
        comma state ++ Piece.squeeze ps := by
  match items with
  | [] =>
    rw [hlast.mpr rfl]
    rfl
  | item :: items =>
    have hcomma : comma state = utf8 [','] := if_pos (mt hlast.mp (List.cons_ne_nil _ _))
    rw [markedItems, markedItems, hcomma]
    cases marked b other braced item with
    | error e => rfl
    | ok ps =>
      cases markedItems b other braced wrap true items with
      | error e => rfl
      | ok qs =>
        simp [-utf8_cons, Except.map, squeezed_marks]

theorem squeeze_markedEntries (b : Build) (other : Obj → Bytes) (braced : Bool)
    {entries : List (Key × Obj)} {state : WalkerState} (hlast : state = .last ↔ entries = []) :
    (markedEntries b other braced true entries).map Piece.squeeze =
      (markedEntries b other braced false entries).map fun ps =>
        comma state ++ Piece.squeeze ps := by
  match entries with
  | [] =>
    rw [hlast.mpr rfl]
    rfl
  | (key, value) :: entries =>
    have hcomma : comma state = utf8 [','] := if_pos (mt hlast.mp (List.cons_ne_nil _ _))
    rw [markedEntries, markedEntries, hcomma]
    cases marked b other braced value with
    | error e => rfl
    | ok ps =>
      cases markedEntries b other braced true entries with
      | error e => rfl
      | ok qs =>
        simp [-utf8_cons, Except.map, squeezed_marks]

/-- An element with its comma, and the rest. -/
theorem squeeze_element {comma text : Bytes} {element : List Piece}
    {init rest : Except Fault (List Piece)} (helement : Piece.squeeze element = text)
    (hrest : init.map Piece.squeeze = rest.map fun ps => comma ++ Piece.squeeze ps) :
    (do
      let texts ← rest.map Piece.squeeze
      return text ++ comma ++ texts) =
    (do
      let qs ← init
      return element ++ qs : Except Fault (List Piece)).map Piece.squeeze := by
  cases init with
  | error e =>
    cases rest with
    | error e' =>
      obtain rfl := Except.error.inj hrest
      rfl
    | ok rs => cases hrest
  | ok qs =>
    cases rest with
    | error e => cases hrest
    | ok rs =>
      have hqs : Piece.squeeze qs = comma ++ Piece.squeeze rs := Except.ok.inj hrest
      simp [Except.map, helement, hqs]

/-- A parameter is its name and its value, whether it is visited or not. -/
theorem callsText_traversePair (n : Bytes) (parent : TypeCode) {value : Obj} {depth : ℕ}
    {state : WalkerState} (hvalue : IsTree name value)
    (h : callsText b other codeText (traverse depth state .param value) =
      (marked b other false value).map fun ps => Piece.squeeze ps ++ comma state) :
    callsText b other codeText (traversePair (.name n) value depth state parent
        (traverse depth state .param value)) =
      (marked b other false value).map fun ps =>
        (Piece.literal n).squeezed ++ utf8 [':'] ++ Piece.squeeze ps ++ comma state := by
  have hkey : keyText codeText (.name n) = n := rfl
  have hkind : (Key.name n).kind.pairCode = .param := rfl
  unfold traversePair
  -- a container comes after the key as a walk of its own, anything else in the same call
  split_ifs with hcontainer
  · simp only [hkind, List.cons_append, callsText, callText, hkey, callsText_append, h, ok_bind]
    cases marked b other false value with
    | error e => rfl
    | ok ps => simp [-utf8_cons, Except.map]
  · match value, hvalue with
    | .scalar v, _ =>
      simp only [callsText, callText, hkey, marked_scalar true false v]
      cases marked b other false (.scalar v) with
      | error e => rfl
      | ok ps => simp [-utf8_cons, Except.map]
    | .pair (.name _) _, _ | .seq .vector _, _ | .seq .tuple _, _ | .map .name _, _ =>
      exact absurd rfl hcontainer

theorem callsText_closed {tag closing : TypeCode} {depth size : ℕ} {state : WalkerState}
    {parent : TypeCode} {calls : List WalkerCall} {opening ending : Bytes}
    (hopen : callText b other codeText (.opens tag depth size) = .ok opening)
    (hclose : callText b other codeText (.closes closing depth state parent) =
      .ok (ending ++ comma state)) :
    callsText b other codeText
        (.opens tag depth size :: calls ++ [.closes closing depth state parent]) =
      (callsText b other codeText calls).map fun text =>
        opening ++ text ++ ending ++ comma state := by
  simp only [List.cons_append, callsText, callsText_append, hopen, hclose, ok_bind]
  cases callsText b other codeText calls with
  | error e => rfl
  | ok text => simp [Except.map]

mutual

/-- Less white space, the walker writes the compact text without braces around parameters. The
induction is on the object; what a call writes for an element does not depend on the state that
the walker is in. -/
theorem callsText_traverse (o : Obj) (ho : IsTree name o) (depth : ℕ) (state : WalkerState)
    (parent : TypeCode) :
    callsText b other codeText (traverse depth state parent o) =
      (marked b other false o).map fun ps => Piece.squeeze ps ++ comma state := by
  match o, ho with
  -- items and entries are walked by theorems of their own
  | .scalar v, _ =>
    rw [traverse, callsText, callsText, callText, marked_scalar true false v]
    cases marked b other false (.scalar v) with
    | error e => rfl
    | ok ps => simp [Except.map]
    all_goals nofun
  | .pair (.name n) value, ⟨_, htree⟩ =>
    have hvalue := callsText_traverse value htree depth state .param
    rw [traverse, marked]
    refine (callsText_traversePair n parent htree hvalue).trans ?_
    cases marked b other false value with
    | error e => rfl
    | ok ps => simp [-utf8_cons, Except.map, squeezed_marks]
  | .seq .vector items, ⟨hne, hitems⟩ =>
    have hinner := callsText_traverseItems items hitems (depth + 1) .vector items.length 1 true
      (Nat.add_comm _ _)
    rw [traverse, marked, if_neg hne, callsText_closed rfl rfl, hinner]
    cases markedItems b other false true false items with
    | error e => rfl
    | ok ps => simp [-utf8_cons, Except.map, squeezed_marks]
  | .seq .tuple items, ⟨hne, hitems⟩ =>
    have hinner := callsText_traverseItems items hitems (depth + 1) .tuple items.length 1 false
      (Nat.add_comm _ _)
    rw [traverse, marked, if_neg hne, callsText_closed rfl rfl, hinner]
    cases markedItems b other false false false items with
    | error e => rfl
    | ok ps => simp [-utf8_cons, Except.map, squeezed_marks]
  | .map .name entries, ⟨hne, hentries⟩ =>
    have hinner := callsText_traverseEntries entries hentries (depth + 1) .paramMap entries.length 1
      (Nat.add_comm _ _)
    rw [traverse, marked, if_neg hne, callsText_closed rfl rfl]
    refine (congrArg _ hinner).trans ?_
    cases markedEntries b other false false entries with
    | error e => rfl
    | ok ps => simp [-utf8_cons, Except.map, squeezed_marks]

theorem callsText_traverseItems (items : List Obj) (hitems : treeItems name items) (depth : ℕ)
    (parent : TypeCode) (size index : ℕ) (wrap : Bool) (hsize : index + items.length = size + 1) :
    callsText b other codeText (traverseItems depth parent size index items) =
      (markedItems b other false wrap false items).map Piece.squeeze := by
  match items, hitems with
  | [], _ => rfl
  | item :: items, ⟨hitem, hitems⟩ =>
    have hhead := callsText_traverse item hitem depth (getState index size) parent
    rw [List.length_cons] at hsize
    have htail := callsText_traverseItems items hitems depth parent size (index + 1) wrap
      (by omega)
    have hlast : getState index size = .last ↔ items = [] := by
      rw [getState_last_iff, ← List.length_eq_zero_iff]
      omega
    rw [traverseItems, callsText_append, hhead, htail, markedItems]
    cases marked b other false item with
    | error e => rfl
    | ok ps =>
      have helement : Piece.squeeze (.plain (if false then utf8 [',', ' '] else []) ::
          marksBraces (false && wrap) item ps) = Piece.squeeze ps := by
        simp [squeezed_marks]
      exact squeeze_element helement (squeeze_markedItems b other false wrap hlast)

theorem callsText_traverseEntries (entries : List (Key × Obj)) (hentries : treeEntries name entries)
    (depth : ℕ) (parent : TypeCode) (size index : ℕ) (hsize : index + entries.length = size + 1) :
    callsText b other codeText (traverseEntries depth parent size index entries) =
      (markedEntries b other false false entries).map Piece.squeeze := by
  match entries, hentries with
  | [], _ => rfl
  | (.name n, value) :: entries, ⟨_, hvalue, hentries⟩ =>
    have hpair := callsText_traversePair n parent hvalue
      (callsText_traverse value hvalue depth (getState index size) .param)
    rw [List.length_cons] at hsize
    have htail := callsText_traverseEntries entries hentries depth parent size (index + 1)
      (by omega)
    have hkind : (Key.name n).kind.pairCode = .param := rfl
    have hname : nameOf (.name n) = n := rfl
    -- only the last entry has no comma behind it
    have hlast : getState index size = .last ↔ entries = [] := by
      rw [getState_last_iff, ← List.length_eq_zero_iff]
      omega
    rw [traverseEntries, callsText_append, hkind, hpair, htail, markedEntries, hname]
    cases marked b other false value with
    | error e => rfl
    | ok ps =>
      have helement : Piece.squeeze (.plain (if false then utf8 [','] else []) :: .literal n ::
          .plain (utf8 [':']) :: ps) =
            (Piece.literal n).squeezed ++ utf8 [':'] ++ Piece.squeeze ps := by
        simp [-utf8_cons, squeezed_marks]
      exact squeeze_element helement (squeeze_markedEntries b other false hlast)
  | (.index n, value) :: entries, ⟨⟨_, hkey, _⟩, _⟩ => cases hkey
  | (.code c, value) :: entries, ⟨⟨_, hkey, _⟩, _⟩ => cases hkey

end

end Walks

/-! ### Parameters in braces -/

/-- One, for an object that the compact writer may put in braces. -/
def inBraces (o : Obj) : ℕ := if o.typeCode = .attr ∨ o.typeCode = .param then 1 else 0

mutual

/-- How many parameters are an element of a vector, or the value of a parameter outside of a
map. -/
def looseParams : Obj → ℕ
  | .pair (.name _) value => inBraces value + looseParams value
  | .seq .vector items => looseItems true items
  | .seq .tuple items => looseItems false items
  | .map .name entries => looseEntries entries
  | _ => 0

def looseItems (wrap : Bool) : List Obj → ℕ
  | [] => 0
  | item :: items => (if wrap then inBraces item else 0) + looseParams item + looseItems wrap items

def looseEntries : List (Key × Obj) → ℕ
  | [] => 0
  | (_, value) :: entries => looseParams value + looseEntries entries

end

/-- The UTF-8 iterator gets through a string. -/
def Readable (b : Build) : Scalar → Prop
  | .string str => ∃ cps, U8ToU32.codePoints b str = .ok cps
  | _ => True

/-- How many bytes are left when white space is taken out. -/
def squeezedLength (ps : List Piece) : ℕ := (Piece.squeeze ps).length

section Braces

variable {b : Build} {other : Obj → Bytes} {name : Bytes → Prop}

theorem squeezedLength_marksBraces (o : Obj) (ps : List Piece) :
    squeezedLength (marksBraces true o ps) = squeezedLength ps + 2 * inBraces o := by
  unfold marksBraces inBraces squeezedLength
  by_cases h : o.typeCode = .attr ∨ o.typeCode = .param
  · have hlen : (utf8 ['{']).length = 1 ∧ (utf8 ['}']).length = 1 := by decide
    simp [-utf8_cons, h, squeezed_marks, hlen]
    omega
  · simp [h]

theorem marksBraces_of_inBraces {o : Obj} (h : inBraces o = 0) (braced : Bool)
    (ps : List Piece) : marksBraces braced o ps = ps := by
  have hnot : ¬(o.typeCode = .attr ∨ o.typeCode = .param) := by
    intro hparam
    rw [inBraces, if_pos hparam] at h
    cases h
  simp [marksBraces, hnot]

@[simp] theorem squeezedLength_cons (p : Piece) (ps : List Piece) :
    squeezedLength (p :: ps) = p.squeezed.length + squeezedLength ps := by
  simp [squeezedLength]

@[simp] theorem squeezedLength_append (ps ps' : List Piece) :
    squeezedLength (ps ++ ps') = squeezedLength ps + squeezedLength ps' := by
  simp [squeezedLength]

/-- Two texts, the first of which has so many pairs of braces more, or the same fault. -/
inductive Differ (loose : ℕ) : Except Fault (List Piece) → Except Fault (List Piece) → Prop
  | error (e : Fault) : Differ loose (.error e) (.error e)
  | ok (ps qs : List Piece) (length : squeezedLength ps = squeezedLength qs + 2 * loose)
    (eq : loose = 0 → ps = qs) : Differ loose (.ok ps) (.ok qs)

theorem Differ.refl (r : Except Fault (List Piece)) : Differ 0 r r := by
  cases r with
  | error e => exact .error e
  | ok ps => exact .ok ps ps rfl fun _ => rfl

theorem Differ.bind {loose loose' : ℕ} {r s : Except Fault (List Piece)}
    {f g : List Piece → Except Fault (List Piece)} (h : Differ loose r s)
    (hnext : ∀ ps qs, squeezedLength ps = squeezedLength qs + 2 * loose →
      (loose = 0 → ps = qs) → Differ loose' (f ps) (g qs)) :
    Differ loose' (r >>= f) (s >>= g) := by
  cases h with
  | error e => exact .error e
  | ok ps qs hlength heq => exact hnext ps qs hlength heq

mutual

/-- The braces around parameters are all the difference. -/
theorem differ_marked (o : Obj) :
    Differ (looseParams o) (marked b other true o) (marked b other false o) := by
  match o with
  | .scalar v =>
    rw [marked_scalar true false v]
    exact Differ.refl _
  | .pair (.name n) value =>
    rw [marked, marked, looseParams]
    -- here are the braces: two more characters, unless the value has its own
    refine (differ_marked value).bind fun ps qs hlength heq => .ok _ _ ?_ ?_
    · simp only [squeezedLength_cons, squeezedLength_marksBraces, marksBraces_false, hlength]
      omega
    · intro hzero
      obtain ⟨hbraces, hvalue⟩ := Nat.add_eq_zero_iff.mp hzero
      rw [heq hvalue, marksBraces_of_inBraces hbraces, marksBraces_false]
  | .seq .vector items =>
    rw [marked, marked, looseParams]
    split_ifs with hempty
    · subst hempty
      exact Differ.refl _
    · refine (differ_markedItems true false items).bind fun ps qs hlength heq => .ok _ _ ?_ ?_
      · simp only [squeezedLength_cons, squeezedLength_append, List.cons_append, hlength]
        omega
      · intro hzero
        rw [heq hzero]
  | .seq .tuple items =>
    rw [marked, marked, looseParams]
    split_ifs with hempty
    · subst hempty
      exact Differ.refl _
    · refine (differ_markedItems false false items).bind fun ps qs hlength heq => .ok _ _ ?_ ?_
      · simp only [squeezedLength_cons, squeezedLength_append, List.cons_append, hlength]
        omega
      · intro hzero
        rw [heq hzero]
  | .map .name entries =>
    rw [marked, marked, looseParams]
    split_ifs with hempty
    · subst hempty
      exact Differ.refl _
    · refine (differ_markedEntries false entries).bind fun ps qs hlength heq => .ok _ _ ?_ ?_
      · simp only [squeezedLength_cons, squeezedLength_append, List.cons_append, hlength]
        omega
      · intro hzero
        rw [heq hzero]
  | .pair (.index n) value | .pair (.code c) value | .seq .deque items | .map .index entries
  | .map .code entries | .prg bufs =>
    simp only [marked, looseParams]
    exact Differ.refl _

theorem differ_markedItems (wrap init : Bool) (items : List Obj) :
    Differ (looseItems wrap items) (markedItems b other true wrap init items)
      (markedItems b other false wrap init items) := by
  match items with
  | [] => exact Differ.refl _
  | item :: items =>
    rw [markedItems, markedItems, looseItems]
    refine (differ_marked item).bind fun ps qs hlength heq => ?_
    refine (differ_markedItems wrap true items).bind fun ps' qs' hlength' heq' => .ok _ _ ?_ ?_
    · cases wrap <;>
        simp only [squeezedLength_cons, squeezedLength_append, List.cons_append, Bool.true_and,
          Bool.false_and, squeezedLength_marksBraces, marksBraces_false, hlength, hlength',
          if_true, Bool.false_eq_true, if_false] <;>
        omega
    · intro hzero
      obtain ⟨hfirst, hrest⟩ := Nat.add_eq_zero_iff.mp hzero
      obtain ⟨hbraces, hitem⟩ := Nat.add_eq_zero_iff.mp hfirst
      rw [heq hitem, heq' hrest]
      cases wrap with
      | true => rw [marksBraces_of_inBraces hbraces, marksBraces_of_inBraces hbraces]
      | false => rfl

theorem differ_markedEntries (flag : Bool) (entries : List (Key × Obj)) :
    Differ (looseEntries entries) (markedEntries b other true flag entries)
      (markedEntries b other false flag entries) := by
  match entries with
  | [] => exact Differ.refl _
  | (key, value) :: entries =>
    rw [markedEntries, markedEntries, looseEntries]
    refine (differ_marked value).bind fun ps qs hlength heq => ?_
    refine (differ_markedEntries true entries).bind fun ps' qs' hlength' heq' => .ok _ _ ?_ ?_
    · simp only [squeezedLength_cons, squeezedLength_append, List.cons_append, hlength, hlength']
      omega
    · intro hzero
      obtain ⟨hvalue, hrest⟩ := Nat.add_eq_zero_iff.mp hzero
      rw [heq hvalue, heq' hrest]

end

/-! ### Where the writers return -/

theorem exists_bind_ok_iff {α β : Type} {r : Except Fault α} {f : α → Except Fault β}
    (hf : ∀ a, ∃ c, f a = .ok c) : (∃ c, (r >>= f) = .ok c) ↔ ∃ a, r = .ok a := by
  cases r with
  | error e => exact iff_of_false nofun nofun
  | ok a => exact iff_of_true (hf a) ⟨a, rfl⟩

mutual

/-- The compact writer returns exactly where the iterator gets through all strings. -/
theorem marked_ok_iff (braced : Bool) (o : Obj) (ho : IsTree name o) :
    (∃ ps, marked b other braced o = .ok ps) ↔ o.Leaves (Readable b) := by
  match o, ho with
  | .scalar (.string str), _ =>
    rw [marked]
    exact exists_bind_ok_iff fun cps => ⟨_, rfl⟩
  | .scalar .null, _ | .scalar (.bool _), _ | .scalar (.int _ _), _ =>
    exact iff_of_true ⟨_, rfl⟩ trivial
  | .pair (.name n) value, ⟨_, hvalue⟩ =>
    rw [marked]
    exact (exists_bind_ok_iff fun ps => ⟨_, rfl⟩).trans (marked_ok_iff braced value hvalue)
  | .seq .vector items, ⟨hne, hitems⟩ | .seq .tuple items, ⟨hne, hitems⟩ =>
    rw [marked, if_neg hne]
    exact (exists_bind_ok_iff fun ps => ⟨_, rfl⟩).trans (markedItems_ok_iff braced _ _ items hitems)
  | .map .name entries, ⟨hne, hentries⟩ =>
    rw [marked, if_neg hne]
    exact (exists_bind_ok_iff fun ps => ⟨_, rfl⟩).trans
      (markedEntries_ok_iff braced false entries hentries)

theorem markedItems_ok_iff (braced wrap init : Bool) (items : List Obj)
    (hitems : treeItems name items) :
    (∃ ps, markedItems b other braced wrap init items = .ok ps) ↔
      itemsLeaves (Readable b) items := by
  match items, hitems with
  | [], _ => exact iff_of_true ⟨_, rfl⟩ trivial
  | item :: items, ⟨hitem, hitems⟩ =>
    rw [markedItems, itemsLeaves, ← marked_ok_iff braced item hitem,
      ← markedItems_ok_iff braced wrap true items hitems]
    cases marked b other braced item with
    | error e => exact iff_of_false nofun nofun
    | ok ps =>
      rw [ok_bind, and_iff_right ⟨ps, rfl⟩]
      exact exists_bind_ok_iff fun qs => ⟨_, rfl⟩

theorem markedEntries_ok_iff (braced flag : Bool) (entries : List (Key × Obj))
    (hentries : treeEntries name entries) :
    (∃ ps, markedEntries b other braced flag entries = .ok ps) ↔
      entriesLeaves (Readable b) entries := by
  match entries, hentries with
  | [], _ => exact iff_of_true ⟨_, rfl⟩ trivial
  | (key, value) :: entries, ⟨_, hvalue, hentries⟩ =>
    rw [markedEntries, entriesLeaves, ← marked_ok_iff braced value hvalue,
      ← markedEntries_ok_iff braced true entries hentries]
    cases marked b other braced value with
    | error e => exact iff_of_false nofun nofun
    | ok ps =>
      rw [ok_bind, and_iff_right ⟨ps, rfl⟩]
      exact exists_bind_ok_iff fun qs => ⟨_, rfl⟩

end

end Braces

/-! ### Both writers -/

section Agreement

variable (b : Build) (other : Obj → Bytes) (codeText : Obis → Bytes)

/-- Both writers return, and their texts are the same less the white space outside of the
strings and names that they write. -/
def Agrees (o : Obj) : Prop :=
  ∃ ps qs, pretty b other codeText o = .ok ps ∧ marked b other true o = .ok qs ∧
    Piece.squeeze ps = Piece.squeeze qs

/-- The same, where the literals are found by reading the texts. -/
def AgreesAsRead (o : Obj) : Prop :=
  ∃ text text', toJsonPretty b other codeText o = .ok text ∧ toJson b other o = .ok text' ∧
    Piece.strip .outside text = Piece.strip .outside text'

/-- A name that can stand between quotes as it is. -/
def IsClosedName (n : Bytes) : Prop := Piece.closedFrom false n

variable {b} {other} {codeText} {name : Bytes → Prop} {o : Obj}

/-- Less white space, the walker writes no braces around parameters, and is like the compact
writer in all else. -/
theorem squeeze_pretty (ho : IsTree name o) :
    (pretty b other codeText o).map Piece.squeeze =
      (marked b other false o).map Piece.squeeze := by
  have hcalls : callsText b other codeText (traverse 0 .last o.typeCode o) = _ :=
    callsText_traverse o ho 0 .last o.typeCode
  have hrun : (Step.run (walk b other codeText) true (traverse 0 .last o.typeCode o)).map _ = _ :=
    squeeze_run true (traverse 0 .last o.typeCode o)
  have hmap : (pretty b other codeText o).map Piece.squeeze =
      (Step.run (walk b other codeText) true (traverse 0 .last o.typeCode o)).map
        fun r => Piece.squeeze r.2 := by
    rw [pretty]
    cases Step.run (walk b other codeText) true (traverse 0 .last o.typeCode o) <;> rfl
  rw [hmap, hrun, hcalls]
  cases marked b other false o <;> simp [Except.map, comma]

theorem agrees_marked_iff (ho : IsTree name o) :
    Agrees b other codeText o ↔ o.Leaves (Readable b) ∧ looseParams o = 0 := by
  have hpretty : (pretty b other codeText o).map Piece.squeeze = _ := squeeze_pretty ho
  have hreturns : (∃ ps, marked b other true o = .ok ps) ↔ _ := marked_ok_iff true o ho
  have hdiffer : Differ _ (marked b other true o) _ := differ_marked o
  rw [← hreturns]
  unfold Agrees
  revert hpretty
  generalize pretty b other codeText o = r
  generalize marked b other true o = compact at hdiffer ⊢
  generalize marked b other false o = plain at hdiffer ⊢
  intro hpretty
  -- only these three results matter, not what they are made from
  cases hdiffer with
  | error e =>
    refine iff_of_false ?_ fun h => nomatch h.1
    rintro ⟨-, qs, -, hqs, -⟩
    cases hqs
  | ok qs rs hlength heq =>
    cases r with
    | error e => cases hpretty
    | ok ps =>
      have hps : Piece.squeeze ps = Piece.squeeze rs := Except.ok.inj hpretty
      constructor
      · rintro ⟨_, _, hp, hq, hagree⟩
        obtain rfl := Except.ok.inj hp
        obtain rfl := Except.ok.inj hq
        -- texts of different lengths do not agree
        have hbytes : squeezedLength rs = squeezedLength qs :=
          congrArg List.length (hps.symm.trans hagree)
        exact ⟨⟨_, rfl⟩, by omega⟩
      · rintro ⟨-, hzero⟩
        exact ⟨ps, qs, rfl, rfl, by rw [hps, heq hzero]⟩

/-! ### Texts that are read -/

theorem closedFrom_of_forall {cs : List UInt8}
    (h : ∀ c ∈ cs, c ≠ Piece.quote ∧ c ≠ Piece.backslash) : Piece.closedFrom false cs := by
  induction cs with
  | nil => rfl
  | cons c cs ih =>
    obtain ⟨hc, hcs⟩ := List.forall_mem_cons.mp h
    simpa [Piece.closedFrom, hc] using ih hcs

/-- The byte of an ASCII character that is neither a quotation mark nor a backslash. -/
theorem ne_of_mem_ascii {x : Char} (h : x.toNat < 128) (hquote : x.toNat ≠ 34)
    (hbackslash : x.toNat ≠ 92) :
    ∀ c ∈ String.utf8EncodeChar x, c ≠ Piece.quote ∧ c ≠ Piece.backslash := by
  have hval : x.val.toNat = x.toNat := rfl
  have hencode : String.utf8EncodeChar x = [UInt8.ofNat x.toNat] := by
    unfold String.utf8EncodeChar
    rw [hval, if_pos (by omega)]
  have hbyte : (UInt8.ofNat x.toNat).toNat = x.toNat := U8ToU32.toNat_ofNat (by omega)
  rw [hencode]
  refine List.forall_mem_singleton.mpr ⟨?_, ?_⟩
  · intro heq
    exact hquote (hbyte.symm.trans (congrArg UInt8.toNat heq))
  · intro heq
    exact hbackslash (hbyte.symm.trans (congrArg UInt8.toNat heq))

/-- Digits are neither quotation marks nor backslashes. -/
theorem ne_of_mem_digitChar {d : ℕ} (hd : d < 16) :
    ∀ c ∈ String.utf8EncodeChar (Nat.digitChar d), c ≠ Piece.quote ∧ c ≠ Piece.backslash := by
  have hdigit : ∀ d < 16, (Nat.digitChar d).toNat < 128 ∧ (Nat.digitChar d).toNat ≠ 34 ∧
      (Nat.digitChar d).toNat ≠ 92 := by decide
  obtain ⟨hlt, hquote, hbackslash⟩ := hdigit d hd
  exact ne_of_mem_ascii hlt hquote hbackslash

theorem closedFrom_printable {c : ℕ} (h : c < 127) (hquote : c ≠ 34) (hbackslash : c ≠ 92) :
    Piece.closedFrom false (utf8 [Char.ofNat c]) := by
  have hchar : (Char.ofNat c).toNat = c := toNat_ofNat_of_valid (Or.inl (by omega))
  refine closedFrom_of_forall fun byte hmem => ?_
  rw [utf8_cons, utf8_nil, List.append_nil] at hmem
  refine ne_of_mem_ascii ?_ ?_ ?_ byte hmem
  all_goals
    rw [hchar]
    omega

theorem closedFrom_escape (c : ℕ) : Piece.closedFrom false (utf8 (escape c)) := by
  unfold escape
  split
  case h_11 =>
    split_ifs with hprintable
    · -- the quotation mark and the backslash have escapes of their own
      exact closedFrom_printable hprintable.2 (by assumption) (by assumption)
    · have hdigits : Piece.closedFrom false (utf8 (hex c)) := by
        refine closedFrom_of_forall fun byte hbyte => ?_
        obtain ⟨x, hx, hbyte⟩ := List.mem_flatMap.mp hbyte
        obtain ⟨d, hd, rfl⟩ := mem_hex hx
        exact ne_of_mem_digitChar hd byte hbyte
      exact hdigits
  all_goals decide

theorem closedFrom_escapes (cps : List ℕ) :
    Piece.closedFrom false (utf8 (cps.flatMap escape)) := by
  induction cps with
  | nil => rfl
  | cons c cps ih =>
    rw [List.flatMap_cons, utf8_append]
    exact Piece.closedFrom_append (closedFrom_escape c) ih

theorem quote_notMem_decimal (n : ℤ) : Piece.quote ∉ utf8 (decimal n) := by
  have hdigits : Piece.quote ∉ utf8 (Nat.toDigits 10 n.natAbs) := by
    intro hmem
    obtain ⟨x, hx, hbyte⟩ := List.mem_flatMap.mp hmem
    obtain ⟨d, hd, rfl⟩ := mem_toDigits (by decide) hx
    exact (ne_of_mem_digitChar (by omega) _ hbyte).1 rfl
  have hminus : Piece.quote ∉ String.utf8EncodeChar '-' := by decide
  unfold decimal
  split_ifs
  · simp [hdigits, hminus]
  · exact hdigits

theorem closed_marksBraces (wrap : Bool) (o : Obj) {ps : List Piece} (h : ∀ p ∈ ps, p.Closed) :
    ∀ p ∈ marksBraces wrap o ps, p.Closed := by
  unfold marksBraces
  split_ifs
  · have hopen : (Piece.plain (utf8 ['{'])).Closed := by decide
    have hclose : (Piece.plain (utf8 ['}'])).Closed := by decide
    simpa [-utf8_cons, or_imp, forall_and, hopen, hclose] using h
  · exact h

mutual

theorem closed_marked {braced : Bool} (o : Obj) (ho : IsTree IsClosedName o) {ps : List Piece}
    (h : marked b other braced o = .ok ps) : ∀ p ∈ ps, p.Closed := by
  match o, ho with
  | .scalar (.string str), _ =>
    rw [marked] at h
    obtain ⟨cps, -, hps⟩ := bind_eq_ok_iff.mp h
    obtain rfl := Except.ok.inj hps
    -- an escaped string holds no quote that would end it
    exact List.forall_mem_singleton.mpr (closedFrom_escapes cps)
  | .scalar .null, _ =>
    obtain rfl := Except.ok.inj h
    exact List.forall_mem_singleton.mpr (by decide)
  | .scalar (.bool v), _ =>
    obtain rfl := Except.ok.inj h
    refine List.forall_mem_singleton.mpr ?_
    cases v <;> decide
  | .scalar (.int ty v), _ =>
    obtain rfl := Except.ok.inj h
    exact List.forall_mem_singleton.mpr (quote_notMem_decimal _)
  | .pair (.name n) value, ⟨hn, hvalue⟩ =>
    rw [marked] at h
    obtain ⟨qs, hqs, hps⟩ := bind_eq_ok_iff.mp h
    obtain rfl := Except.ok.inj hps
    have hinner := closed_marksBraces braced value (closed_marked value hvalue hqs)
    exact List.forall_mem_cons.mpr ⟨hn, List.forall_mem_cons.mpr ⟨by decide, hinner⟩⟩
  | .seq .vector items, ⟨hne, hitems⟩ | .seq .tuple items, ⟨hne, hitems⟩ =>
    rw [marked, if_neg hne] at h
    obtain ⟨qs, hqs, hps⟩ := bind_eq_ok_iff.mp h
    obtain rfl := Except.ok.inj hps
    have hinner := closed_markedItems items hitems hqs
    refine List.forall_mem_cons.mpr ⟨by decide, List.forall_mem_append.mpr ⟨hinner, ?_⟩⟩
    exact List.forall_mem_singleton.mpr (by decide)
  | .map .name entries, ⟨hne, hentries⟩ =>
    rw [marked, if_neg hne] at h
    obtain ⟨qs, hqs, hps⟩ := bind_eq_ok_iff.mp h
    obtain rfl := Except.ok.inj hps
    have hinner := closed_markedEntries entries hentries hqs
    refine List.forall_mem_cons.mpr ⟨by decide, List.forall_mem_append.mpr ⟨hinner, ?_⟩⟩
    exact List.forall_mem_singleton.mpr (by decide)

theorem closed_markedItems {braced wrap init : Bool} (items : List Obj)
    (hitems : treeItems IsClosedName items) {ps : List Piece}
    (h : markedItems b other braced wrap init items = .ok ps) : ∀ p ∈ ps, p.Closed := by
  match items, hitems with
  | [], _ =>
    obtain rfl := Except.ok.inj h
    simp
  | item :: items, ⟨hitem, hitems⟩ =>
    rw [markedItems] at h
    obtain ⟨qs, hqs, h⟩ := bind_eq_ok_iff.mp h
    obtain ⟨rs, hrs, hps⟩ := bind_eq_ok_iff.mp h
    obtain rfl := Except.ok.inj hps
    have hhead := closed_marksBraces (braced && wrap) item
      (closed_marked item hitem hqs)
    have htail := closed_markedItems items hitems hrs
    have hcomma : (Piece.plain (if init then utf8 [',', ' '] else [])).Closed := by
      cases init <;> decide
    exact List.forall_mem_cons.mpr ⟨hcomma, List.forall_mem_append.mpr ⟨hhead, htail⟩⟩

theorem closed_markedEntries {braced flag : Bool} (entries : List (Key × Obj))
    (hentries : treeEntries IsClosedName entries) {ps : List Piece}
    (h : markedEntries b other braced flag entries = .ok ps) : ∀ p ∈ ps, p.Closed := by
  match entries, hentries with
  | [], _ =>
    obtain rfl := Except.ok.inj h
    simp
  | (key, value) :: entries, ⟨⟨n, hkey, hn⟩, hvalue, hentries⟩ =>
    rw [markedEntries] at h
    obtain ⟨qs, hqs, h⟩ := bind_eq_ok_iff.mp h
    obtain ⟨rs, hrs, hps⟩ := bind_eq_ok_iff.mp h
    obtain rfl := Except.ok.inj hps
    have hhead := closed_marked value hvalue hqs
    have htail := closed_markedEntries entries hentries hrs
    have hcomma : (Piece.plain (if flag then utf8 [','] else [])).Closed := by
      cases flag <;> decide
    have hname : (Piece.literal (nameOf key)).Closed := hkey ▸ hn
    have hcolon : (Piece.plain (utf8 [':'])).Closed := by decide
    exact List.forall_mem_cons.mpr ⟨hcomma, List.forall_mem_cons.mpr ⟨hname,
      List.forall_mem_cons.mpr ⟨hcolon, List.forall_mem_append.mpr ⟨hhead, htail⟩⟩⟩⟩

end

/-- The walker gets names that can stand between quotes. -/
def ClosedCall : WalkerCall → Prop
  | .visit o _ _ => IsTree IsClosedName o
  | .pair key _ => ∃ n, key = .name n ∧ IsClosedName n
  | .simple key value _ _ => (∃ n, key = .name n ∧ IsClosedName n) ∧ IsTree IsClosedName value
  | _ => True

theorem closedCall_traversePair {n : Bytes} (hn : IsClosedName n) {value : Obj}
    (hvalue : IsTree IsClosedName value) {depth : ℕ} {state : WalkerState} {parent : TypeCode}
    {calls : List WalkerCall} (h : ∀ call ∈ calls, ClosedCall call) :
    ∀ call ∈ traversePair (.name n) value depth state parent calls, ClosedCall call := by
  unfold traversePair
  split_ifs
  · refine List.forall_mem_cons.mpr ⟨trivial, List.forall_mem_cons.mpr ⟨⟨n, rfl, hn⟩, ?_⟩⟩
    exact List.forall_mem_append.mpr ⟨h, List.forall_mem_singleton.mpr trivial⟩
  · exact List.forall_mem_singleton.mpr ⟨⟨n, rfl, hn⟩, hvalue⟩

mutual

theorem closedCall_traverse (o : Obj) (ho : IsTree IsClosedName o) (depth : ℕ)
    (state : WalkerState) (parent : TypeCode) :
    ∀ call ∈ traverse depth state parent o, ClosedCall call := by
  match o, ho with
  | .scalar v, ho => exact List.forall_mem_singleton.mpr ho
  | .pair (.name n) value, ⟨hn, hvalue⟩ =>
    exact closedCall_traversePair hn hvalue (closedCall_traverse value hvalue depth state .param)
  | .seq .vector items, ⟨_, hitems⟩ | .seq .tuple items, ⟨_, hitems⟩ =>
    refine List.forall_mem_cons.mpr ⟨trivial, List.forall_mem_append.mpr ⟨?_, ?_⟩⟩
    · exact closedCall_traverseItems items hitems _ _ _ _
    · exact List.forall_mem_singleton.mpr trivial
  | .map .name entries, ⟨_, hentries⟩ =>
    refine List.forall_mem_cons.mpr ⟨trivial, List.forall_mem_append.mpr ⟨?_, ?_⟩⟩
    · exact closedCall_traverseEntries entries hentries _ _ _ _
    · exact List.forall_mem_singleton.mpr trivial

theorem closedCall_traverseItems (items : List Obj) (hitems : treeItems IsClosedName items)
    (depth : ℕ) (parent : TypeCode) (size index : ℕ) :
    ∀ call ∈ traverseItems depth parent size index items, ClosedCall call := by
  match items, hitems with
  | [], _ => simp [traverseItems]
  | item :: items, ⟨hitem, hitems⟩ =>
    exact List.forall_mem_append.mpr ⟨closedCall_traverse item hitem _ _ _,
      closedCall_traverseItems items hitems _ _ _ _⟩

theorem closedCall_traverseEntries (entries : List (Key × Obj))
    (hentries : treeEntries IsClosedName entries) (depth : ℕ) (parent : TypeCode)
    (size index : ℕ) :
    ∀ call ∈ traverseEntries depth parent size index entries, ClosedCall call := by
  match entries, hentries with
  | [], _ => simp [traverseEntries]
  | (.name n, value) :: entries, ⟨⟨_, hkey, hn⟩, hvalue, hentries⟩ =>
    obtain rfl := Key.name.inj hkey
    exact List.forall_mem_append.mpr ⟨closedCall_traversePair hn hvalue
      (closedCall_traverse value hvalue _ _ _), closedCall_traverseEntries entries hentries _ _ _ _⟩

end

theorem closed_indentation (depth : ℕ) : (indentation depth).Closed := by
  intro hmem
  have hspace : Piece.quote = 0x20 := List.eq_of_mem_replicate hmem
  cases hspace

theorem closed_lineStart (nl : Bool) (depth : ℕ) : ∀ p ∈ lineStart nl depth, p.Closed := by
  cases nl <;> simp [lineStart, closed_indentation]

theorem closed_endl : endl.Closed := by decide

theorem closed_keyStart (codeText : Obis → Bytes) {n : Bytes} (hn : IsClosedName n) (nl : Bool)
    (depth : ℕ) :
    ∀ p ∈ keyStart codeText nl (.name n) depth, p.Closed := by
  have hstart : (if nl then indentation depth else .plain [0x20]).Closed := by
    cases nl
    · exact of_decide_eq_true rfl
    · exact closed_indentation depth
  have hcolon : (Piece.plain (utf8 [':', ' '])).Closed := by decide
  have hname : (Piece.literal (keyText codeText (.name n))).Closed := hn
  simp [-utf8_cons, keyStart, hstart, hcolon, hname]

theorem closed_openBracket {bracket : List Char} (h : (Piece.plain (utf8 bracket)).Closed)
    (nl : Bool) (depth size : ℕ) : ∀ p ∈ (openBracket nl bracket depth size).2, p.Closed := by
  have hstart := List.forall_mem_append.mpr
    ⟨closed_lineStart nl depth, List.forall_mem_singleton.mpr h⟩
  unfold openBracket
  split_ifs
  · rw [← List.singleton_append, ← List.append_assoc]
    exact List.forall_mem_append.mpr ⟨hstart, List.forall_mem_singleton.mpr closed_endl⟩
  · exact hstart

theorem closed_closeBracket {bracket : Char} (h : (Piece.plain (utf8 [bracket])).Closed)
    (nl : Bool) (depth : ℕ) (state : WalkerState) (parent : TypeCode) :
    ∀ p ∈ (closeBracket nl bracket depth state parent).2, p.Closed := by
  have hcomma : (Piece.plain (utf8 [',', ' '])).Closed := by decide
  have hstart := List.forall_mem_append.mpr
    ⟨closed_lineStart nl depth, List.forall_mem_singleton.mpr h⟩
  have hend := List.forall_mem_append.mpr ⟨hstart, List.forall_mem_singleton.mpr closed_endl⟩
  unfold closeBracket
  dsimp only
  split_ifs
  · exact List.forall_mem_append.mpr ⟨hstart, List.forall_mem_cons.mpr
      ⟨hcomma, List.forall_mem_singleton.mpr closed_endl⟩⟩
  · split
    all_goals first | exact hstart | exact hend

theorem closed_opening (nl : Bool) (tag : TypeCode) (depth size : ℕ) :
    ∀ p ∈ (opening nl tag depth size).2, p.Closed := by
  have hbrace : (Piece.plain (utf8 ['{'])).Closed := by decide
  have hbracket : (Piece.plain (utf8 ['[', ' '])).Closed := by decide
  unfold opening
  split
  case h_6 => exact closed_openBracket hbracket nl depth size
  case h_7 => simp
  all_goals exact closed_openBracket hbrace nl depth size

theorem closed_closing (nl : Bool) (tag : TypeCode) (depth : ℕ) (state : WalkerState)
    (parent : TypeCode) : ∀ p ∈ (closing nl tag depth state parent).2, p.Closed := by
  have hbrace : (Piece.plain (utf8 ['}'])).Closed := by decide
  have hbracket : (Piece.plain (utf8 [']'])).Closed := by decide
  unfold closing
  split
  case h_6 => exact closed_closeBracket hbracket nl depth state parent
  case h_7 => simp
  all_goals exact closed_closeBracket hbrace nl depth state parent

/-- What the walker writes then is closed. -/
theorem closed_walk {nl nl' : Bool} {call : WalkerCall} (hcall : ClosedCall call)
    {ps : List Piece} (h : walk b other codeText nl call = .ok (nl', ps)) :
    ∀ p ∈ ps, p.Closed := by
  have hcomma : (Piece.plain (utf8 [',', ' '])).Closed := by decide
  cases call with
  -- what the walker adds is blanks, brackets and commas; the rest is closed by its object
  | visit o depth state =>
    rw [walk] at h
    obtain ⟨qs, hqs, h⟩ := bind_eq_ok_iff.mp h
    have hinner := List.forall_mem_append.mpr
      ⟨closed_lineStart nl depth, closed_marked o hcall hqs⟩
    split_ifs at h
    · obtain ⟨-, rfl⟩ := Prod.mk.inj (Except.ok.inj h)
      exact List.forall_mem_append.mpr ⟨hinner, List.forall_mem_cons.mpr
        ⟨hcomma, List.forall_mem_singleton.mpr closed_endl⟩⟩
    · obtain ⟨-, rfl⟩ := Prod.mk.inj (Except.ok.inj h)
      exact hinner
  | opens tag depth size =>
    have hps : (opening nl tag depth size).2 = ps := congrArg Prod.snd (Except.ok.inj h)
    exact hps ▸ closed_opening nl tag depth size
  | closes tag depth state parent =>
    have hps : (closing nl tag depth state parent).2 = ps := congrArg Prod.snd (Except.ok.inj h)
    exact hps ▸ closed_closing nl tag depth state parent
  | pair key depth =>
    obtain ⟨n, rfl, hn⟩ := hcall
    obtain ⟨-, rfl⟩ := Prod.mk.inj (Except.ok.inj h)
    exact closed_keyStart codeText hn nl depth
  | simple key value depth state =>
    obtain ⟨⟨n, rfl, hn⟩, hvalue⟩ := hcall
    rw [walk] at h
    obtain ⟨qs, hqs, h⟩ := bind_eq_ok_iff.mp h
    obtain ⟨-, rfl⟩ := Prod.mk.inj (Except.ok.inj h)
    have hinner := List.forall_mem_append.mpr
      ⟨closed_keyStart codeText hn nl depth, closed_marked value hvalue hqs⟩
    refine List.forall_mem_append.mpr ⟨List.forall_mem_append.mpr ⟨hinner, ?_⟩,
      List.forall_mem_singleton.mpr closed_endl⟩
    split_ifs
    · exact List.forall_mem_singleton.mpr hcomma
    · simp

theorem closed_pretty (ho : IsTree IsClosedName o) {ps : List Piece}
    (h : pretty b other codeText o = .ok ps) : ∀ p ∈ ps, p.Closed := by
  have hguard : Step.Guarded (walk b other codeText) (fun _ call => ClosedCall call) true
      (traverse 0 .last o.typeCode o) :=
    Step.guarded_of_forall_mem (closedCall_traverse o ho 0 .last o.typeCode)
  cases hrun : Step.run (walk b other codeText) true (traverse 0 .last o.typeCode o) with
  | error e =>
    rw [pretty, hrun] at h
    cases h
  | ok r =>
    rw [pretty, hrun] at h
    obtain rfl : r.2 = ps := Except.ok.inj h
    have hstep : ∀ nl call nl' qs, True → ClosedCall call →
        walk b other codeText nl call = .ok (nl', qs) → True ∧ ∀ p ∈ qs, p.Closed :=
      fun _ _ _ _ _ hcall hwalk => ⟨trivial, closed_walk hcall hwalk⟩
    exact Step.run_emits hstep trivial hguard hrun

/-- Where all names can stand between quotes, a reader of the texts finds the literals where
they were written. -/
theorem agreesAsRead_iff (ho : IsTree IsClosedName o) :
    AgreesAsRead b other codeText o ↔ Agrees b other codeText o := by
  have htext : (marked b other true o).map Piece.text = write b other o := text_marked o
  constructor
  · rintro ⟨text, text', hpretty, hcompact, heq⟩
    cases hps : pretty b other codeText o with
    | error e =>
      rw [toJsonPretty, hps] at hpretty
      cases hpretty
    | ok ps =>
      cases hqs : marked b other true o with
      | error e =>
        rw [toJson, ← htext, hqs] at hcompact
        cases hcompact
      | ok qs =>
        rw [toJsonPretty, hps] at hpretty
        rw [toJson, ← htext, hqs] at hcompact
        obtain rfl : Piece.text ps = text := Except.ok.inj hpretty
        obtain rfl : Piece.text qs = text' := Except.ok.inj hcompact
        -- stripping the text of closed pieces strips each piece by itself
        rw [Piece.strip_text (closed_pretty ho hps),
          Piece.strip_text (closed_marked o ho hqs)] at heq
        exact ⟨ps, qs, hps, hqs, heq⟩
  · rintro ⟨ps, qs, hps, hqs, heq⟩
    refine ⟨Piece.text ps, Piece.text qs, ?_, ?_, ?_⟩
    · rw [toJsonPretty, hps]
      rfl
    · rw [toJson, ← htext, hqs]
      rfl
    · rw [Piece.strip_text (closed_pretty ho hps), Piece.strip_text (closed_marked o ho hqs), heq]

/-- The two texts of an object agree exactly when all its strings can be written and no parameter
is an element of a vector or the value of a parameter outside of a map. A reader who looks for the
quotes comes to the same result where all names can stand between quotes. -/
theorem writersAgree_iff (ho : IsTree (fun _ => True) o) :
    (Agrees b other codeText o ↔ o.Leaves (Readable b) ∧ looseParams o = 0) ∧
      (IsTree IsClosedName o →
        (AgreesAsRead b other codeText o ↔ o.Leaves (Readable b) ∧ looseParams o = 0)) :=
  ⟨agrees_marked_iff ho, fun hclosed => (agreesAsRead_iff hclosed).trans (agrees_marked_iff ho)⟩

end Agreement

/-- A tuple with a parameter whose value is a vector, and a map in it. -/
def sampleTree : Obj :=
  .seq .tuple [.pair (.name [0x61]) (.seq .vector [.size 1, .scalar (.string [0x20])]),
    .map .name [(.name [0x62], .scalar .null)], .scalar (.bool true)]

theorem writersAgree_sampleTree :
    AgreesAsRead .debug (fun _ => []) (fun _ => []) sampleTree := by
  have htree (name : Bytes → Prop) (hname : name [0x61] ∧ name [0x62]) :
      IsTree name sampleTree := by
    simp [IsTree, treeItems, treeEntries, sampleTree, hname, Obj.size]
  refine ((writersAgree_iff (htree _ ⟨trivial, trivial⟩)).2 (htree _ ⟨rfl, rfl⟩)).mpr ⟨?_, rfl⟩
  exact ⟨⟨trivial, ⟨_, rfl⟩, trivial⟩, ⟨trivial, trivial⟩, trivial, trivial⟩

/-- A vector with a parameter. -/
def looseTree : Obj := .seq .vector [.pair (.name [0x61]) (.scalar (.bool true))]

/-- The braces around the parameter are missing in the pretty text. -/
theorem not_writersAgree_looseTree :
    IsTree IsClosedName looseTree ∧
      ¬AgreesAsRead .debug (fun _ => []) (fun _ => []) looseTree := by
  refine ⟨⟨nofun, ⟨rfl, trivial⟩, trivial⟩, ?_⟩
  rintro ⟨_, _, hpretty, hcompact, heq⟩
  cases hpretty
  cases hcompact
  revert heq
  decide

end Json

end Cyng
