import Cyng.Json.Parser

/-!
# Documents

A value as a tree of the symbols it is written with. The parser turns the symbols of such a
tree back into one object: inside an open array or object it leaves the object on the stack
and touches nothing below; at top level it hands the object to the callback. Members are
reduced late: the last one is a name and a value on the stack until a comma or the closing
brace comes.
-/

namespace Cyng

open Theory Theory.Step

namespace Json

/-- A symbol that is a value of its own. -/
structure Atom extends Symbol where
  atomic : type ≠ .symbol

namespace Atom

def string (value : Bytes) : Atom := ⟨⟨.string, value⟩, nofun⟩
def number (value : Bytes) : Atom := ⟨⟨.number, value⟩, nofun⟩
def float (value : Bytes) : Atom := ⟨⟨.float, value⟩, nofun⟩
def boolean (value : Bytes) : Atom := ⟨⟨.boolean, value⟩, nofun⟩
def nothing (value : Bytes) : Atom := ⟨⟨.nothing, value⟩, nofun⟩

end Atom

/-- A value, as the symbols it is made of. -/
inductive Doc
  | atom (a : Atom)
  | array (items : List Doc)
  | object (members : List (Bytes × Doc))

/-- One of the six structural characters. -/
def punctuation (c : Char) : Symbol := ⟨.symbol, [UInt8.ofNat c.toNat]⟩

mutual

/-- The symbols, with commas and colons. -/
def Doc.symbols : Doc → List Symbol
  | .atom a => [a.toSymbol]
  | .array items => punctuation '[' :: itemsSymbols items ++ [punctuation ']']
  | .object members => punctuation '{' :: membersSymbols members ++ [punctuation '}']

def itemsSymbols : List Doc → List Symbol
  | [] => []
  | d :: ds => d.symbols ++ furtherItems ds

def furtherItems : List Doc → List Symbol
  | [] => []
  | d :: ds => punctuation ',' :: d.symbols ++ furtherItems ds

def membersSymbols : List (Bytes × Doc) → List Symbol
  | [] => []
  | (name, d) :: ms =>
    (Atom.string name).toSymbol :: punctuation ':' :: d.symbols ++ furtherMembers ms

def furtherMembers : List (Bytes × Doc) → List Symbol
  | [] => []
  | (name, d) :: ms =>
    punctuation ',' :: (Atom.string name).toSymbol :: punctuation ':' :: d.symbols ++
      furtherMembers ms

end

section Values

variable (lib : Library)

/-- The object of a single symbol. -/
def Atom.obj (a : Atom) : Obj :=
  match a.type with
  | .string | .symbol => .scalar (.string a.value)
  | .number =>
    match lib.castInt64 a.value with
    | some n => .scalar (.int .int64 n)
    | none => .scalar (.string a.value)
  | .float =>
    match lib.castDouble a.value with
    | some x => .scalar (.float .double x)
    | none => .scalar (.string a.value)
  | .boolean => .scalar (.bool (a.value = utf8 "true".toList))
  | .nothing => .scalar .null

mutual

/-- The object that a document stands for. -/
def Doc.obj : Doc → Obj
  | .atom a => a.obj lib
  | .array items => .vector (itemsObj items)
  | .object members => .paramMap (OrderedMap.ofEntries (membersObj members))

def itemsObj : List Doc → List Obj
  | [] => []
  | d :: ds => d.obj :: itemsObj ds

def membersObj : List (Bytes × Doc) → List (Key × Obj)
  | [] => []
  | (name, d) :: ms => (.name name, d.obj) :: membersObj ms

end

end Values

def Doc.IsContainer : Doc → Prop
  | .atom _ => False
  | _ => True

namespace Parser

variable {b : Build} {lib : Library} {p q r : Parser} {S : List ParserState} {K : List Obj}

/-! ### No value is a mark -/

theorem isEod_atom (a : Atom) : isEod (a.obj lib) = false := by
  unfold Atom.obj
  split
  · rfl
  · rfl
  · split <;> rfl
  · split <;> rfl
  · rfl
  · rfl

theorem isEod_doc (d : Doc) : isEod (d.obj lib) = false := by
  cases d with
  | atom a => exact isEod_atom a
  | array items => rfl
  | object members => rfl

theorem isEod_itemsObj {ds : List Doc} {o : Obj} (h : o ∈ itemsObj lib ds) : isEod o = false := by
  induction ds with
  | nil => cases h
  | cons d ds ih =>
    rcases List.mem_cons.mp h with rfl | h
    · exact isEod_doc d
    · exact ih h

/-- The parameters on the stack for members that are complete. -/
def params (entries : List (Key × Obj)) : List Obj := entries.map fun e => .pair e.1 e.2

theorem isEod_params {entries : List (Key × Obj)} {o : Obj} (h : o ∈ params entries) :
    isEod o = false := by
  obtain ⟨e, -, rfl⟩ := List.mem_map.mp h
  obtain ⟨key, value⟩ := e
  cases key <;> rfl

theorem map_toParam_params (ms : List (Bytes × Doc)) :
    (params (membersObj lib ms)).map toParam = membersObj lib ms := by
  induction ms with
  | nil => rfl
  | cons m ms ih =>
    obtain ⟨name, d⟩ := m
    simp only [membersObj, params, List.map_cons, List.map_map, toParam] at ih ⊢
    rw [ih]

/-! ### Steps -/

theorem nextSymbol_atom (a : Atom) :
    nextSymbol b lib p a.toSymbol = .ok (p.push (a.obj lib), []) := by
  obtain ⟨⟨type, value⟩, atomic⟩ := a
  cases type with
  | string => rfl
  | number =>
    cases h : lib.castInt64 value with
    | none => simp [nextSymbol, processNumber, Atom.obj, h]
    | some n => simp [nextSymbol, processNumber, Atom.obj, h]
  | float =>
    cases h : lib.castDouble value with
    | none => simp [nextSymbol, processFloat, Atom.obj, h]
    | some x => simp [nextSymbol, processFloat, Atom.obj, h]
  | boolean => rfl
  | nothing => rfl
  | symbol => exact absurd rfl atomic

theorem nextSymbol_name (name : Bytes) :
    nextSymbol b lib p (Atom.string name).toSymbol = .ok (p.push (.scalar (.string name)), []) :=
  rfl

theorem nextSymbol_openArray :
    nextSymbol b lib ⟨S, K⟩ (punctuation '[') = .ok (⟨.array :: S, .scalar .eod :: K⟩, []) := by
  simp [nextSymbol, punctuation, processSymbol, Build.check_of, oneOf]

theorem nextSymbol_openObject :
    nextSymbol b lib ⟨S, K⟩ (punctuation '{') = .ok (⟨.object :: S, .scalar .eod :: K⟩, []) := by
  simp [nextSymbol, punctuation, processSymbol, Build.check_of, oneOf]

theorem nextSymbol_colon :
    nextSymbol b lib ⟨.object :: S, K⟩ (punctuation ':') = .ok (⟨.value :: S, K⟩, []) := by
  simp [nextSymbol, punctuation, processSymbol, Build.check_of, oneOf, swap]

theorem nextSymbol_comma (h : p.buildObject b = .ok q) :
    nextSymbol b lib p (punctuation ',') = .ok (q, []) := by
  simp [nextSymbol, punctuation, processSymbol, Build.check_of, oneOf, h]

theorem nextSymbol_closeArray :
    nextSymbol b lib p (punctuation ']') = p.buildArray b := by
  simp [nextSymbol, punctuation, processSymbol, Build.check_of, oneOf]

theorem nextSymbol_closeObject (h : p.buildObject b = .ok q) :
    nextSymbol b lib p (punctuation '}') = q.buildMember b := by
  simp [nextSymbol, punctuation, processSymbol, Build.check_of, oneOf, h]

theorem buildObject_array : buildObject b ⟨.array :: S, K⟩ = .ok ⟨.array :: S, K⟩ := rfl

theorem buildObject_object : buildObject b ⟨.object :: S, K⟩ = .ok ⟨.object :: S, K⟩ := rfl

/-- A name and a value above a third object are a member. -/
theorem buildObject_value {obj : Obj} {name : Bytes} (hK : K ≠ []) :
    buildObject b ⟨.value :: S, obj :: .scalar (.string name) :: K⟩ =
      .ok ⟨.object :: S, .pair (.name name) obj :: K⟩ := by
  obtain ⟨below, rest, rfl⟩ := List.exists_cons_of_ne_nil hK
  simp [buildObject, Build.check_of, Obj.typeCode, Scalar.typeCode, swap, textOf, Obj.param]

section Closing

variable {vs : List Obj}

theorem isEod_eod : isEod (.scalar .eod) = true := rfl

theorem takeWhile_mark (hvs : ∀ o ∈ vs, isEod o = false) :
    ((vs ++ .scalar .eod :: K).takeWhile fun o => !isEod o) = vs := by
  rw [List.takeWhile_append_of_pos (by simpa using hvs)]
  simp [isEod_eod]

theorem dropWhile_mark (hvs : ∀ o ∈ vs, isEod o = false) :
    ((vs ++ .scalar .eod :: K).dropWhile fun o => !isEod o) = .scalar .eod :: K := by
  rw [List.dropWhile_append_of_pos (by simpa using hvs)]
  simp [isEod_eod]

theorem replaceMark_of (hvs : ∀ o ∈ vs, isEod o = false) {o : Obj} :
    replaceMark b ⟨S, vs ++ .scalar .eod :: K⟩ o = .ok ⟨S, o :: K⟩ := by
  simp [replaceMark, dropWhile_mark hvs, Build.check_of, isEod_eod]

theorem buildArray_of (hvs : ∀ o ∈ vs, isEod o = false) :
    buildArray b ⟨S, vs ++ .scalar .eod :: K⟩ = close b ⟨S, .vector vs.reverse :: K⟩ := by
  simp [buildArray, Build.check_of, items, takeWhile_mark hvs, replaceMark_of hvs]

theorem buildMember_of (hvs : ∀ o ∈ vs, isEod o = false) :
    buildMember b ⟨S, vs ++ .scalar .eod :: K⟩ =
      close b ⟨S, .paramMap (OrderedMap.ofEntries (vs.reverse.map toParam)) :: K⟩ := by
  simp [buildMember, Build.check_of, items, takeWhile_mark hvs, replaceMark_of hvs]

/-- Inside another array or object a closing bracket goes back to it. -/
theorem close_inner {s : ParserState} (hS : S ≠ []) :
    close b ⟨s :: S, K⟩ = .ok (⟨S, K⟩, []) := by
  obtain ⟨t, S, rfl⟩ := List.exists_cons_of_ne_nil hS
  rfl

/-- The last closing bracket completes the value. -/
theorem close_outer {s : ParserState} {o : Obj} :
    close b ⟨[s], [o]⟩ = .ok (initial, [o]) := by
  simp [close, Build.check_of, initial]

end Closing

/-! ### Runs -/

/-- An array whose items were taken is closed. -/
theorem run_array {ds : List Doc}
    (h : Moves (nextSymbol b lib) ⟨.array :: S, .scalar .eod :: K⟩ (itemsSymbols ds)
      ⟨.array :: S, (itemsObj lib ds).reverse ++ .scalar .eod :: K⟩) :
    Step.run (nextSymbol b lib) ⟨S, K⟩ (Doc.array ds).symbols =
      close b ⟨.array :: S, (Doc.array ds).obj lib :: K⟩ := by
  have hitems : ∀ o ∈ (itemsObj lib ds).reverse, isEod o = false := fun o ho =>
    isEod_itemsObj (List.mem_reverse.mp ho)
  have hopen := Moves.cons nextSymbol_openArray h
  rw [Doc.symbols, hopen.run_append, Step.run_singleton_eq, nextSymbol_closeArray,
    buildArray_of hitems, List.reverse_reverse, Doc.obj]

/-- An object whose members were taken, the last one reduced or not, is closed. -/
theorem run_object {ms : List (Bytes × Doc)}
    (h : Moves (nextSymbol b lib) ⟨.object :: S, .scalar .eod :: K⟩ (membersSymbols ms) p)
    (hlast : p.buildObject b =
      .ok ⟨.object :: S, (params (membersObj lib ms)).reverse ++ .scalar .eod :: K⟩) :
    Step.run (nextSymbol b lib) ⟨S, K⟩ (Doc.object ms).symbols =
      close b ⟨.object :: S, (Doc.object ms).obj lib :: K⟩ := by
  have hparams : ∀ o ∈ (params (membersObj lib ms)).reverse, isEod o = false := fun o ho =>
    isEod_params (List.mem_reverse.mp ho)
  have hopen := Moves.cons nextSymbol_openObject h
  rw [Doc.symbols, hopen.run_append, Step.run_singleton_eq, nextSymbol_closeObject hlast,
    buildMember_of hparams, List.reverse_reverse, map_toParam_params, Doc.obj]

mutual

/-- Inside an array or object the symbols of a document put its object on the stack. -/
theorem takes_doc (d : Doc) (S : List ParserState) (K : List Obj) (hS : S ≠ []) :
    Moves (nextSymbol b lib) ⟨S, K⟩ d.symbols ⟨S, d.obj lib :: K⟩ := by
  match d with
  | .atom a => exact Moves.cons (nextSymbol_atom a) Moves.nil
  | .array items => exact (run_array (takes_items items S _)).trans (close_inner hS)
  | .object members =>
    obtain ⟨p, htakes, hlast⟩ := takes_members members S (.scalar .eod :: K) (by simp)
    exact (run_object htakes hlast).trans (close_inner hS)

theorem takes_items (ds : List Doc) (S : List ParserState) (K : List Obj) :
    Moves (nextSymbol b lib) ⟨.array :: S, K⟩ (itemsSymbols ds)
      ⟨.array :: S, (itemsObj lib ds).reverse ++ K⟩ := by
  match ds with
  | [] => exact Moves.nil
  | d :: ds =>
    have hhead := takes_doc d (.array :: S) K (by simp)
    have htail := takes_furtherItems ds S (d.obj lib :: K)
    simpa [itemsSymbols, itemsObj] using hhead.append htail

theorem takes_furtherItems (ds : List Doc) (S : List ParserState) (K : List Obj) :
    Moves (nextSymbol b lib) ⟨.array :: S, K⟩ (furtherItems ds)
      ⟨.array :: S, (itemsObj lib ds).reverse ++ K⟩ := by
  match ds with
  | [] => exact Moves.nil
  | d :: ds =>
    have hhead := takes_doc d (.array :: S) K (by simp)
    have htail := takes_furtherItems ds S (d.obj lib :: K)
    have hcomma := @nextSymbol_comma b lib _ _ (buildObject_array (S := S) (K := K))
    simpa [furtherItems, itemsObj] using Moves.cons hcomma (hhead.append htail)

/-- Members end with one that a comma or a brace will reduce. -/
theorem takes_members (ms : List (Bytes × Doc)) (S : List ParserState) (K : List Obj)
    (hK : K ≠ []) :
    ∃ p, Moves (nextSymbol b lib) ⟨.object :: S, K⟩ (membersSymbols ms) p ∧
      p.buildObject b = .ok ⟨.object :: S, (params (membersObj lib ms)).reverse ++ K⟩ := by
  match ms with
  | [] => exact ⟨_, Moves.nil, buildObject_object⟩
  | (name, d) :: ms =>
    have hvalue := takes_doc d (.value :: S) (.scalar (.string name) :: K) (by simp)
    obtain ⟨p, htail, hlast⟩ := takes_furtherMembers ms _ S (.pair (.name name) (d.obj lib) :: K)
      (by simp) (buildObject_value hK)
    refine ⟨p, ?_, by simpa [membersObj, params] using hlast⟩
    exact Moves.cons (nextSymbol_name name) (Moves.cons nextSymbol_colon (hvalue.append htail))

theorem takes_furtherMembers (ms : List (Bytes × Doc)) (p : Parser) (S : List ParserState)
    (K : List Obj) (hK : K ≠ []) (hp : p.buildObject b = .ok ⟨.object :: S, K⟩) :
    ∃ q, Moves (nextSymbol b lib) p (furtherMembers ms) q ∧
      q.buildObject b = .ok ⟨.object :: S, (params (membersObj lib ms)).reverse ++ K⟩ := by
  match ms with
  | [] => exact ⟨p, Moves.nil, hp⟩
  | (name, d) :: ms =>
    have hvalue := takes_doc d (.value :: S) (.scalar (.string name) :: K) (by simp)
    obtain ⟨q, htail, hlast⟩ := takes_furtherMembers ms _ S (.pair (.name name) (d.obj lib) :: K)
      (by simp) (buildObject_value hK)
    refine ⟨q, ?_, by simpa [membersObj, params] using hlast⟩
    exact Moves.cons (nextSymbol_comma hp) (Moves.cons (nextSymbol_name name)
      (Moves.cons nextSymbol_colon (hvalue.append htail)))

end

/-- At top level an array or object goes to the callback, and the parser starts over. -/
theorem run_document {d : Doc} (hd : d.IsContainer) :
    Step.run (nextSymbol b lib) initial d.symbols = .ok (initial, [d.obj lib]) := by
  cases d with
  | atom a => exact hd.elim
  | array items => exact (run_array (takes_items items [] _)).trans close_outer
  | object members =>
    obtain ⟨p, htakes, hlast⟩ := takes_members members [] [.scalar .eod] (by simp)
    exact (run_object htakes hlast).trans close_outer

end Parser

end Json

end Cyng
