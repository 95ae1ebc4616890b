import Cyng.Json.Lexing

/-!
# Acceptance of JSON texts

Texts of the grammar are read as the value they denote, under three conditions on their
tokens. A number whose integer part is zero needs a minus sign, since the tokenizer skips a
zero at the beginning of a number and then finds an empty number, or one that begins with the
point. A character that stands for itself must be decoded. An escaped surrogate is no character
for the conversion to UTF-8, not even as half of a pair.
-/

namespace Cyng

open Theory Theory.Step Theory.Rfc8259

namespace Json

/-! ### The object that is denoted -/

/-- The text of some code points. -/
def textOfCodePoints (cps : List ℕ) : Bytes := utf8 (cps.map Char.ofNat)

section Objects

variable (double : Bool → ℚ → BitVec 64)

mutual

/-- The object for a value, given the conversion of real numbers. -/
def objOf : Value → Obj
  | .null => .scalar .null
  | .bool v => .scalar (.bool v)
  | .integer n => .scalar (.int .int64 (BitVec.ofInt 64 n))
  | .real minus magnitude => .scalar (.float .double (double minus magnitude))
  | .string cps => .scalar (.string (textOfCodePoints cps))
  | .array items => .vector (objsOf items)
  | .object members => .paramMap (OrderedMap.ofEntries (entriesOf members))

def objsOf : List Value → List Obj
  | [] => []
  | v :: vs => objOf v :: objsOf vs

def entriesOf : List (List ℕ × Value) → List (Key × Obj)
  | [] => []
  | (name, v) :: ms => (.name (textOfCodePoints name), objOf v) :: entriesOf ms

end

end Objects

/-! ### Conditions on tokens -/

/-- Every text of this real number is converted to the same floating point number. -/
def Library.Converts (lib : Library) (double : Bool → ℚ → BitVec 64) (n : Number) : Prop :=
  ∀ n' : Number, ¬n'.IsInteger → n'.minus = n.minus → n'.magnitude = n.magnitude →
    lib.castDouble (utf8 n'.text) = some (double n.minus n.magnitude)

/-- Integers are in the range of the type, and real numbers have a conversion. -/
def Representable (lib : Library) (double : Bool → ℚ → BitVec 64) (n : Number) : Prop :=
  (n.IsInteger → -2 ^ 63 ≤ n.toInt ∧ n.toInt < 2 ^ 63) ∧ (¬n.IsInteger → lib.Converts double n)

/-- Characters that arrive: they are decoded, or escaped and no surrogates. -/
def Kept : StrChar → Prop
  | .unescaped c _ => U8ToU32.Decodes c
  | c => ¬IsHigh c.unit ∧ ¬IsLow c.unit

instance : DecidablePred Kept := fun c =>
  match c with
  | .unescaped c _ => inferInstanceAs (Decidable (U8ToU32.Decodes c))
  | .escape e => inferInstanceAs (Decidable (¬IsHigh e.unit ∧ ¬IsLow e.unit))
  | .unicode a b c d =>
    inferInstanceAs (Decidable (¬IsHigh (StrChar.unicode a b c d).unit ∧
      ¬IsLow (StrChar.unicode a b c d).unit))

/-! ### Documents of trees -/

/-- The text of a string. -/
def stringText (s : Str) : Bytes := textOfCodePoints s.codePoints

mutual

/-- The symbols of a tree. -/
def docOf : Tree → Doc
  | .null => .atom (.nothing (utf8 "null".toList))
  | .bool v => .atom (.boolean (utf8 (boolText v)))
  | .number n => .atom (numberAtom n)
  | .string s => .atom (.string (stringText s))
  | .emptyArray _ => .array []
  | .array items => .array (docsOf items)
  | .emptyObject _ => .object []
  | .object members => .object (memberDocsOf members)

def docsOf : Items → List Doc
  | .last _ value _ => [docOf value]
  | .cons _ value _ rest => docOf value :: docsOf rest

def memberDocsOf : Members → List (Bytes × Doc)
  | .last label value _ => [(stringText label.name, docOf value)]
  | .cons label value _ rest => (stringText label.name, docOf value) :: memberDocsOf rest

end

namespace Tokenizer

variable {b : Build} {lib : Library} {buffer rest : List ℕ} {syms : List Symbol}

/-! ### Strings -/

theorem hexDigit_char (h : HexDigit) :
    oneOf hexDigits h.char.toNat = true ∧ hexDigit h.char.toNat = h.value.val := by
  obtain ⟨value, upper⟩ := h
  revert value upper
  decide

/-- Each character of a string is stored as its code point. -/
theorem moves_strChar (c : StrChar) :
    Moves (nextCodePoint b lib) ⟨.string, buffer⟩ (codes c.text)
      ⟨.string, buffer ++ [c.unit]⟩ := by
  cases c with
  | unescaped c h =>
    obtain ⟨-, hquote, hbackslash⟩ := h
    refine moves_plain fun cp hcp => ?_
    obtain rfl := List.mem_singleton.mp hcp
    exact ⟨fun heq => hquote (Char.toNat_inj.mp heq),
      fun heq => hbackslash (Char.toNat_inj.mp heq)⟩
  | escape e => cases e <;> exact moves_escape rfl
  | unicode c d e f =>
    have hvalue : hexValue [c.char.toNat, d.char.toNat, e.char.toNat, f.char.toNat] =
        (StrChar.unicode c d e f).unit := by
      simp [hexValue, StrChar.unit, hexDigit_char]
    rw [← hvalue]
    refine moves_unicode fun x hx => ?_
    fin_cases hx <;> exact (hexDigit_char _).1

theorem moves_str (s : Str) :
    Moves (nextCodePoint b lib) ⟨.string, buffer⟩ (codes (s.flatMap StrChar.text))
      ⟨.string, buffer ++ s.map StrChar.unit⟩ := by
  induction s generalizing buffer with
  | nil => simpa using Moves.nil
  | cons c s ih => simpa using (moves_strChar c).append (@ih (buffer ++ [c.unit]))

theorem isValidChar_unit {c : StrChar} (h : Kept c) : c.unit.isValidChar := by
  cases c with
  | unescaped c h => exact c.valid
  | escape e => cases e <;> decide
  | unicode c d e f =>
    obtain ⟨hhigh, hlow⟩ := h
    have hmax : (StrChar.unicode c d e f).unit < 0x10000 := by
      simp only [StrChar.unit]
      omega
    simp only [IsHigh, IsLow, not_and, not_lt] at hhigh hlow
    simp only [Nat.isValidChar]
    omega

/-- Without surrogates the code points of a string are those of its characters. -/
theorem codes_codePoints {s : Str} (hs : ∀ c ∈ s, Kept c) :
    codes (s.codePoints.map Char.ofNat) = s.map StrChar.unit := by
  have hhigh : ∀ cp ∈ s.map StrChar.unit, ¬IsHigh cp := by
    intro cp hcp
    obtain ⟨c, hc, rfl⟩ := List.mem_map.mp hcp
    have hvalid := isValidChar_unit (hs c hc)
    simp only [Nat.isValidChar, IsHigh] at hvalid ⊢
    omega
  rw [Str.codePoints, joinSurrogates_of_forall hhigh, codes, List.map_map, List.map_map]
  refine List.map_congr_left fun c hc => ?_
  exact toNat_ofNat_of_valid (isValidChar_unit (hs c hc))

theorem emits_str (hlib : lib.Lawful) {s : Str} (hs : ∀ c ∈ s, Kept c)
    (hrest : Emits b lib rest (.ok syms)) :
    Emits b lib (codes s.text ++ rest)
      (.ok ((Atom.string (stringText s)).toSymbol :: syms)) := by
  have hstored : makeSymbol lib .string (s.map StrChar.unit) =
      .ok (Atom.string (stringText s)).toSymbol := by
    rw [← codes_codePoints hs]
    exact makeSymbol_codes hlib .string _
  have hall := emits_string (moves_str s) hrest
  rw [List.nil_append, hstored] at hall
  simpa [Str.text] using hall

/-! ### Trees -/

/-- Items after the first one come with a comma. -/
theorem furtherItems_docsOf (items : Items) :
    furtherItems (docsOf items) = punctuation ',' :: itemsSymbols (docsOf items) := by
  cases items <;> rfl

theorem furtherMembers_memberDocsOf (members : Members) :
    furtherMembers (memberDocsOf members) =
      punctuation ',' :: membersSymbols (memberDocsOf members) := by
  cases members <;> rfl

/-- A member name with its colon. -/
theorem emits_label (hlib : lib.Lawful) {label : Label} (hname : ∀ c ∈ label.name, Kept c)
    (hrest : Emits b lib rest (.ok syms)) :
    Emits b lib (codes label.text ++ rest)
      (.ok ((Atom.string (stringText label.name)).toSymbol :: punctuation ':' :: syms)) := by
  have hafter := emits_blanks label.after hrest
  have hcolon := emits_punctuation (c := ':') (by decide) hafter
  have hmiddle := emits_blanks label.middle hcolon
  have hstring := emits_str hlib hname hmiddle
  simpa [Label.text] using emits_blanks label.before hstring

mutual

/-- A tree is read as its symbols, where a delimiter follows or none is needed. -/
theorem emits_tree (hlib : lib.Lawful) (t : Tree) (rest : List ℕ) (syms : List Symbol)
    (ht : t.Tokens Stored Kept) (hend : t.IsContainer ∨ Delimited rest)
    (hrest : Emits b lib rest (.ok syms)) :
    Emits b lib (codes t.text ++ rest) (.ok ((docOf t).symbols ++ syms)) := by
  match t with
  | .null => exact emits_null hlib (hend.resolve_left id) hrest
  | .bool v => exact emits_bool hlib v (hend.resolve_left id) hrest
  | .number n => exact emits_number hlib ht (hend.resolve_left id) hrest
  | .string s => exact emits_str hlib ht hrest
  -- a container is read from the back: the closing bracket, then what it holds, then the opening
  | .emptyArray ws =>
    have hclose := emits_punctuation (c := ']') (by decide) hrest
    have hopen := emits_punctuation (c := '[') (by decide) (emits_blanks ws hclose)
    simpa [Tree.text, docOf, Doc.symbols, itemsSymbols, Except.map] using hopen
  | .array items =>
    have hclose := emits_punctuation (c := ']') (by decide) hrest
    have hitems := emits_items hlib items _ _ ht (delimited_punctuation (by decide)) hclose
    have hopen := emits_punctuation (c := '[') (by decide) hitems
    simpa [Tree.text, docOf, Doc.symbols, Except.map] using hopen
  | .emptyObject ws =>
    have hclose := emits_punctuation (c := '}') (by decide) hrest
    have hopen := emits_punctuation (c := '{') (by decide) (emits_blanks ws hclose)
    simpa [Tree.text, docOf, Doc.symbols, membersSymbols, Except.map] using hopen
  | .object members =>
    have hclose := emits_punctuation (c := '}') (by decide) hrest
    have hmembers := emits_members hlib members _ _ ht (delimited_punctuation (by decide)) hclose
    have hopen := emits_punctuation (c := '{') (by decide) hmembers
    simpa [Tree.text, docOf, Doc.symbols, Except.map] using hopen

theorem emits_items (hlib : lib.Lawful) (items : Items) (rest : List ℕ) (syms : List Symbol)
    (hitems : items.Tokens Stored Kept) (hdelimited : Delimited rest)
    (hrest : Emits b lib rest (.ok syms)) :
    Emits b lib (codes items.text ++ rest) (.ok (itemsSymbols (docsOf items) ++ syms)) := by
  match items with
  | .last before value after =>
    have hvalue := emits_tree hlib value _ _ hitems (Or.inr (delimited_blanks after hdelimited))
      (emits_blanks after hrest)
    simpa [Items.text, docsOf, itemsSymbols, furtherItems] using emits_blanks before hvalue
  | .cons before value after more =>
    obtain ⟨hvalue, hmore⟩ := hitems
    have hcomma := emits_punctuation (c := ',') (by decide)
      (emits_items hlib more rest syms hmore hdelimited hrest)
    have hvalue := emits_tree hlib value _ _ hvalue
      (Or.inr (delimited_blanks after (delimited_punctuation (by decide))))
      (emits_blanks after hcomma)
    simpa [Items.text, docsOf, itemsSymbols, furtherItems_docsOf] using emits_blanks before hvalue

theorem emits_members (hlib : lib.Lawful) (members : Members) (rest : List ℕ)
    (syms : List Symbol) (hmembers : members.Tokens Stored Kept) (hdelimited : Delimited rest)
    (hrest : Emits b lib rest (.ok syms)) :
    Emits b lib (codes members.text ++ rest)
      (.ok (membersSymbols (memberDocsOf members) ++ syms)) := by
  match members with
  | .last label value after =>
    obtain ⟨hname, hvalue⟩ := hmembers
    have hvalue := emits_tree hlib value _ _ hvalue (Or.inr (delimited_blanks after hdelimited))
      (emits_blanks after hrest)
    simpa [Members.text, memberDocsOf, membersSymbols, furtherMembers] using
      emits_label hlib hname hvalue
  | .cons label value after more =>
    obtain ⟨hname, hvalue, hmore⟩ := hmembers
    have hcomma := emits_punctuation (c := ',') (by decide)
      (emits_members hlib more rest syms hmore hdelimited hrest)
    have hvalue := emits_tree hlib value _ _ hvalue
      (Or.inr (delimited_blanks after (delimited_punctuation (by decide))))
      (emits_blanks after hcomma)
    simpa [Members.text, memberDocsOf, membersSymbols, furtherMembers_memberDocsOf] using
      emits_label hlib hname hvalue

end

end Tokenizer

/-! ### The objects of the symbols -/

section Denotation

variable {lib : Library} {double : Bool → ℚ → BitVec 64}

theorem obj_numberAtom (hlib : lib.Lawful) {n : Number} (hn : Representable lib double n) :
    (numberAtom n).obj lib = objOf double n.denote := by
  by_cases hint : n.IsInteger
  · obtain ⟨hlow, hhigh⟩ := hn.1 hint
    have hcast := hlib.castInt64_integer n hint hlow hhigh
    simp [numberAtom, hint, Number.withFraction_of_isInteger hint, Atom.number, Atom.obj, hcast,
      Number.denote, objOf]
  · have hcast := hn.2 hint n.withFraction (Number.not_isInteger_withFraction hint)
      (Number.minus_withFraction n) (Number.magnitude_withFraction n)
    simp [numberAtom, hint, Atom.float, Atom.obj, hcast, Number.denote, objOf]

mutual

/-- The parser builds from the symbols of a tree the object it denotes. -/
theorem obj_docOf (hlib : lib.Lawful) (t : Tree)
    (ht : t.Tokens (Representable lib double) fun _ => True) :
    (docOf t).obj lib = objOf double t.denote := by
  match t with
  | .null => rfl
  | .bool v => cases v <;> rfl
  | .number n => exact obj_numberAtom hlib ht
  | .string s => rfl
  | .emptyArray ws => rfl
  | .array items =>
    rw [docOf, Doc.obj, obj_docsOf hlib items ht, Tree.denote, objOf]
  | .emptyObject ws => rfl
  | .object members =>
    rw [docOf, Doc.obj, obj_memberDocsOf hlib members ht, Tree.denote, objOf]

theorem obj_docsOf (hlib : lib.Lawful) (items : Items)
    (hitems : items.Tokens (Representable lib double) fun _ => True) :
    itemsObj lib (docsOf items) = objsOf double items.denote := by
  match items with
  | .last before value after =>
    simp only [docsOf, itemsObj, Items.denote, objsOf, obj_docOf hlib value hitems]
  | .cons before value after rest =>
    obtain ⟨hvalue, hrest⟩ := hitems
    simp only [docsOf, itemsObj, Items.denote, objsOf, obj_docOf hlib value hvalue,
      obj_docsOf hlib rest hrest]

theorem obj_memberDocsOf (hlib : lib.Lawful) (members : Members)
    (hmembers : members.Tokens (Representable lib double) fun _ => True) :
    membersObj lib (memberDocsOf members) = entriesOf double members.denote := by
  match members with
  | .last label value after =>
    simp only [memberDocsOf, membersObj, Members.denote, entriesOf, stringText,
      obj_docOf hlib value hmembers.2]
  | .cons label value after rest =>
    obtain ⟨-, hvalue, hrest⟩ := hmembers
    simp only [memberDocsOf, membersObj, Members.denote, entriesOf, stringText,
      obj_docOf hlib value hvalue, obj_memberDocsOf hlib rest hrest]

end

end Denotation

/-! ### The characters of a text -/

section Characters

open U8ToU32

namespace AllDecode

theorem strChar {c : StrChar} (h : Kept c) : AllDecode c.text := by
  cases c with
  | unescaped c hc =>
    have hdecodes : Decodes c := h
    simp [StrChar.text, hdecodes]
  | escape e => cases e <;> simp [StrChar.text, Escape.letter, Decodes]
  | unicode c d e f =>
    have hchar (x : HexDigit) : Decodes x.char := by
      obtain ⟨value, upper⟩ := x
      revert value upper
      decide
    have hescape : Decodes '\\' ∧ Decodes 'u' := by decide
    simp [StrChar.text, hchar, hescape]

theorem str {s : Str} (h : ∀ c ∈ s, Kept c) : AllDecode s.text := by
  have hbody : AllDecode (s.flatMap StrChar.text) := by
    intro c hc
    obtain ⟨x, hx, hcx⟩ := List.mem_flatMap.mp hc
    exact strChar (h x hx) c hcx
  simp [Str.text, hbody, Decodes]

theorem label {l : Label} (h : ∀ c ∈ l.name, Kept c) : AllDecode l.text := by
  simp [Label.text, blanks, str h, Decodes]

mutual

theorem tree (t : Tree) (ht : t.Tokens Stored Kept) : AllDecode t.text := by
  match t with
  | .null => simp [Tree.text, Decodes]
  | .bool v => cases v <;> simp [Tree.text, boolText, Decodes]
  | .number n => exact number n
  | .string s => exact str ht
  | .emptyArray ws => simp [Tree.text, blanks, Decodes]
  | .array is => simp [Tree.text, items is ht, Decodes]
  | .emptyObject ws => simp [Tree.text, blanks, Decodes]
  | .object ms => simp [Tree.text, members ms ht, Decodes]

theorem items (is : Items) (hitems : is.Tokens Stored Kept) : AllDecode is.text := by
  match is with
  | .last before value after => simp [Items.text, blanks, tree value hitems]
  | .cons before value after rest =>
    simp [Items.text, blanks, tree value hitems.1, items rest hitems.2, Decodes]

theorem members (ms : Members) (hmembers : ms.Tokens Stored Kept) : AllDecode ms.text := by
  match ms with
  | .last l value after =>
    simp [Members.text, blanks, label hmembers.1, tree value hmembers.2]
  | .cons l value after rest =>
    simp [Members.text, blanks, label hmembers.1, tree value hmembers.2.1,
      members rest hmembers.2.2, Decodes]

end

end AllDecode

end Characters

/-! ### Documents -/

section Documents

variable {b : Build} {lib : Library} {double : Bool → ℚ → BitVec 64}

theorem isContainer_docOf {t : Tree} (h : t.IsContainer) : (docOf t).IsContainer := by
  cases t <;> first | exact h.elim | trivial

/-- White space, a container and white space are read as the symbols of the container. -/
theorem emits_document (hlib : lib.Lawful) {d : Document} (hcontainer : d.tree.IsContainer)
    (hkept : d.tree.Tokens Stored Kept) :
    Tokenizer.Emits b lib (codes d.text) (.ok (docOf d.tree).symbols) := by
  have hafter := @Tokenizer.emits_blanks b lib _ _ d.after Tokenizer.Emits.nil
  have htree := Tokenizer.emits_tree hlib d.tree _ _ hkept (Or.inl hcontainer) hafter
  simpa [Document.text] using Tokenizer.emits_blanks d.before htree

theorem allDecode_document {d : Document} (hkept : d.tree.Tokens Stored Kept) :
    AllDecode d.text := by
  simp [Document.text, AllDecode.blanks, AllDecode.tree d.tree hkept]

/-- No text of the grammar begins with a byte order mark. -/
theorem plain_document {d : Document} (hcontainer : d.tree.IsContainer) :
    Reader.Plain 0 (utf8 d.text) := by
  obtain ⟨before, tree, after⟩ := d
  refine Or.inr ?_
  cases before with
  | cons w ws => cases w <;> exact fun h => by cases h
  | nil => cases tree <;> first | exact hcontainer.elim | exact fun h => by cases h

/-- A text that the grammar derives from an array or an object is read as the value it denotes,
in any number of calls. -/
theorem read_document (hlib : lib.Lawful) {d : Document} (hcontainer : d.tree.IsContainer)
    (hnumbers : d.tree.Tokens (Representable lib double) fun _ => True)
    (hkept : d.tree.Tokens Stored Kept) {chunks : List Bytes}
    (hchunks : chunks.flatten = utf8 d.text) :
    ∃ r, Step.run (Reader.read b lib) .initial chunks = .ok (r, [objOf double d.tree.denote]) := by
  have hparse := @Parser.run_document b lib _ (isContainer_docOf hcontainer)
  rw [obj_docOf hlib d.tree hnumbers] at hparse
  exact (read_iff_of_emits (allDecode_document hkept) (plain_document hcontainer) hchunks
    (emits_document hlib hcontainer hkept)).mpr ⟨_, _, rfl, hparse⟩

end Documents

/-! ### Two documents -/

/-- Zeros of both signs. -/
def signedZero : Bool → ℚ → BitVec 64 := fun minus _ => if minus then BitVec.twoPow 64 63 else 0

/-- ` [-0 ,{"\u00e9": null},-0e9]` -/
def sampleDocument : Document where
  before := [.space]
  tree := .array (.cons [] (.number ⟨true, .zero, none, none⟩) [.space]
    (.cons []
      (.object (.last ⟨[], [.unicode ⟨0, false⟩ ⟨0, false⟩ ⟨14, false⟩ ⟨9, false⟩], [], [.space]⟩
        .null [])) []
      (.last [] (.number ⟨true, .zero, none, some ⟨false, none, ⟨Fin.last 9, []⟩⟩⟩) [])))
  after := []

theorem converts_sample {n : Number} (h : n.minus = true) :
    Library.sample.Converts signedZero n := by
  rintro ⟨minus, whole, frac, exp⟩ - hminus -
  obtain rfl : minus = true := hminus.trans h
  rw [h]
  rfl

theorem read_document_sample :
    ∃ r, Step.run (Reader.read .debug .sample) .initial [utf8 sampleDocument.text] =
      .ok (r, [objOf signedZero sampleDocument.tree.denote]) := by
  refine read_document (d := sampleDocument) Library.lawful_sample trivial ?_ ?_
    (List.append_nil _)
  · refine ⟨⟨fun _ => by decide, fun h => absurd ⟨rfl, rfl⟩ h⟩, ⟨fun _ _ => trivial, trivial⟩, ?_⟩
    exact ⟨fun h => (Option.some_ne_none _ h.2).elim, fun _ => converts_sample rfl⟩
  · exact ⟨Or.inl rfl, ⟨by decide, trivial⟩, Or.inl rfl⟩

/-- `[0]` -/
def zeroDocument : Document where
  before := []
  tree := .array (.last [] (.number ⟨false, .zero, none, none⟩) [])
  after := []

/-- Zero is read as an empty string. -/
theorem zero_misread :
    Library.sample.Lawful ∧ zeroDocument.tree.IsContainer ∧
      zeroDocument.tree.Tokens (Representable .sample signedZero) (fun _ => True) ∧
      ¬∃ r, Step.run (Reader.read .debug .sample) .initial [utf8 zeroDocument.text] =
        .ok (r, [objOf signedZero zeroDocument.tree.denote]) := by
  refine ⟨Library.lawful_sample, trivial, ⟨fun _ => by decide, fun h => absurd ⟨rfl, rfl⟩ h⟩, ?_⟩
  rintro ⟨r, hread⟩
  have hmisread : Step.run (Reader.read .debug .sample) .initial [utf8 zeroDocument.text] =
      .ok (⟨3, .initial, .initial, .initial⟩, [.vector [.scalar (.string [])]]) := rfl
  rw [hmisread] at hread
  cases hread

end Json

end Cyng
