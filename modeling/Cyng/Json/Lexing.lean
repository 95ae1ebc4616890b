import Cyng.Json.Document
import Cyng.Json.Library
import Mathlib.Tactic.FinCases

/-!
# Lexing

What the tokenizer makes of the pieces a text consists of. A piece that stands for a value is
read in front of a text that goes on with white space, a comma or a closing bracket: numbers
and literals end only when such a code point is refused. So the results are about a piece and
the rest of the text, whose symbols are known.
-/

namespace Cyng

open Theory Theory.Step Theory.Rfc8259

namespace Json

/-- The first digit of the number is stored: a zero without a sign is not. -/
def Stored (n : Number) : Prop := n.minus = true ∨ n.whole ≠ .zero

instance (n : Number) : Decidable (Stored n) := inferInstanceAs (Decidable (_ ∨ _))

/-- The symbol of a number; without a fraction an exponent gets one. -/
def numberAtom (n : Number) : Atom :=
  if n.IsInteger then .number (utf8 n.withFraction.text) else .float (utf8 n.withFraction.text)

namespace Tokenizer

variable {b : Build} {lib : Library} {t t' : Tokenizer} {cp : ℕ} {buffer cps rest : List ℕ}
  {syms : List Symbol} {sym : Symbol} {result : Except Fault (List Symbol)}

/-! ### Steps -/

/-- At the start every code point is taken. -/
theorem put_initial (cp : ℕ) :
    put b lib initial cp =
      .ok ((stateStart initial cp).1, (stateStart initial cp).2.1, true) := by
  have htaken : (stateStart initial cp).2.2 = true := by
    unfold stateStart
    split_ifs <;> rfl
  rw [← htaken]
  rfl

theorem nextCodePoint_initial :
    nextCodePoint b lib initial cp =
      .ok ((stateStart initial cp).1, (stateStart initial cp).2.1) :=
  replay_of_taken (put_initial cp)

/-- A code point that ends a symbol is offered again. -/
theorem nextCodePoint_refused (h : put b lib t cp = .ok (initial, [sym], false))
    (h' : nextCodePoint b lib initial cp = .ok (t', syms)) :
    nextCodePoint b lib t cp = .ok (t', sym :: syms) := by
  rw [nextCodePoint_initial] at h'
  exact replay_of_refused h ((replay_of_taken (put_initial cp)).trans h')

/-- Code points that are appended one after the other. -/
theorem moves_append {state : TokenizerState}
    (h : ∀ cp ∈ cps, ∀ buffer,
      put b lib ⟨state, buffer⟩ cp = .ok (⟨state, buffer ++ [cp]⟩, [], true)) :
    Moves (nextCodePoint b lib) ⟨state, buffer⟩ cps ⟨state, buffer ++ cps⟩ := by
  induction cps generalizing buffer with
  | nil => simpa using Moves.nil
  | cons cp cps ih =>
    have hhead := @replay_of_taken b lib _ _ _ _ 32 (h cp List.mem_cons_self buffer)
    have htail := @ih (buffer ++ [cp]) fun x hx => h x (List.mem_cons_of_mem _ hx)
    rw [List.append_assoc, List.singleton_append] at htail
    exact Moves.cons hhead htail

/-! ### Texts and their symbols -/

/-- From the start, a text gives these symbols, or this fault, and leads back to the start. -/
def Emits (b : Build) (lib : Library) (cps : List ℕ) (result : Except Fault (List Symbol)) :
    Prop :=
  Step.run (nextCodePoint b lib) initial cps = result.map fun syms => (initial, syms)

theorem Emits.nil : Emits b lib [] (.ok []) := rfl

/-- A piece that leads back to the start goes before any text. -/
theorem Emits.cons (h : nextCodePoint b lib initial cp = .ok (initial, syms))
    (hrest : Emits b lib rest result) :
    Emits b lib (cp :: rest) (result.map (syms ++ ·)) := by
  unfold Emits at hrest ⊢
  rw [run_cons_of_ok h, hrest]
  cases result with
  | error e => rfl
  | ok syms' => rfl

/-- A code point that ends the symbol before it. -/
def IsDelimiter (cp : ℕ) : Prop := cp ∈ codes (blanks ++ [',', ']', '}'])

theorem isDelimiter_iff :
    IsDelimiter cp ↔ cp = 32 ∨ cp = 10 ∨ cp = 13 ∨ cp = 9 ∨ cp = 44 ∨ cp = 93 ∨ cp = 125 := by
  simp [IsDelimiter, blanks]

/-- At the start they lead back to the start. -/
theorem nextCodePoint_delimiter (h : IsDelimiter cp) :
    ∃ syms, nextCodePoint b lib initial cp = .ok (initial, syms) := by
  rcases isDelimiter_iff.mp h with rfl | rfl | rfl | rfl | rfl | rfl | rfl <;>
    exact ⟨_, nextCodePoint_initial⟩

/-- A text that begins with such a code point. -/
def Delimited : List ℕ → Prop
  | [] => False
  | cp :: _ => IsDelimiter cp

/-- A state in which delimiters emit a symbol before they have their own effect. -/
def Ends (b : Build) (lib : Library) (t : Tokenizer) (sym : Symbol) : Prop :=
  ∀ cp, IsDelimiter cp → ∃ syms, nextCodePoint b lib initial cp = .ok (initial, syms) ∧
    nextCodePoint b lib t cp = .ok (initial, sym :: syms)

/-- A piece without an end of its own goes before a text that begins with a delimiter. -/
theorem Emits.ended (hpiece : Moves (nextCodePoint b lib) initial cps t) (hends : Ends b lib t sym)
    (hdelimited : Delimited rest) (hrest : Emits b lib rest result) :
    Emits b lib (cps ++ rest) (result.map (sym :: ·)) := by
  cases rest with
  | nil => exact hdelimited.elim
  | cons cp rest =>
    -- the delimiter ends the piece and is read like in the initial state
    obtain ⟨syms, hinitial, ht⟩ := hends cp hdelimited
    unfold Emits at hrest ⊢
    rw [run_cons_of_ok hinitial] at hrest
    rw [hpiece.run_append, run_cons_of_ok ht]
    cases htail : Step.run (nextCodePoint b lib) initial rest with
    | error e =>
      rw [htail] at hrest
      cases result with
      | error e' => exact hrest
      | ok syms' => cases hrest
    | ok r =>
      rw [htail] at hrest
      cases result with
      | error e' => cases hrest
      | ok syms' =>
        obtain ⟨hstate, rfl⟩ : r.1 = initial ∧ syms ++ r.2 = syms' := by
          simpa [Except.map] using hrest
        simp [Except.map, hstate]

/-- White space gives nothing. -/
theorem emits_blanks (ws : Blanks) (hrest : Emits b lib rest result) :
    Emits b lib (codes ws.text ++ rest) result := by
  induction ws with
  | nil => exact hrest
  | cons w ws ih =>
    have hstep : nextCodePoint b lib initial w.char.toNat = .ok (initial, []) := by
      rw [nextCodePoint_initial]
      cases w <;> rfl
    have hmap : result.map (([] : List Symbol) ++ ·) = result := by cases result <;> rfl
    exact hmap ▸ Emits.cons hstep ih

/-- A structural character is a symbol. -/
theorem emits_punctuation {c : Char} (hc : c ∈ structural) (hrest : Emits b lib rest result) :
    Emits b lib (c.toNat :: rest) (result.map (punctuation c :: ·)) := by
  have hstep : nextCodePoint b lib initial c.toNat = .ok (initial, [punctuation c]) := by
    rw [nextCodePoint_initial]
    fin_cases hc <;> rfl
  exact Emits.cons hstep hrest

theorem delimited_blanks (ws : Blanks) (hrest : Delimited rest) :
    Delimited (codes ws.text ++ rest) := by
  cases ws with
  | nil => exact hrest
  | cons w ws =>
    change IsDelimiter w.char.toNat
    cases w <;> simp [IsDelimiter, Blank.char, blanks]

theorem delimited_punctuation {c : Char} (hc : c ∈ [',', ']', '}']) :
    Delimited (c.toNat :: rest) := by
  fin_cases hc <;> simp [Delimited, IsDelimiter, blanks]

/-! ### Literals -/

/-- A word that is read in front of a delimiter. -/
theorem ends_literal (h : buildLiteral lib ⟨.literal, buffer⟩ = .ok sym) :
    Ends b lib ⟨.literal, buffer⟩ sym := by
  intro cp hcp
  have hput (hblank : oneOf blanks cp = true) :
      put b lib ⟨.literal, buffer⟩ cp = .ok (initial, [sym], true) := by
    simp [put, stateLiteral, hblank, h]
  have hput' (hblank : oneOf blanks cp = false)
      (hother : oneOf ['"', '\'', '[', ']', '{', '}', ',', ':'] cp = true) :
      put b lib ⟨.literal, buffer⟩ cp = .ok (initial, [sym], false) := by
    simp [put, stateLiteral, hblank, hother, h]
  rcases isDelimiter_iff.mp hcp with rfl | rfl | rfl | rfl | rfl | rfl | rfl
  · exact ⟨[], nextCodePoint_initial, replay_of_taken (hput rfl)⟩
  · exact ⟨[], nextCodePoint_initial, replay_of_taken (hput rfl)⟩
  · exact ⟨[], nextCodePoint_initial, replay_of_taken (hput rfl)⟩
  · exact ⟨[], nextCodePoint_initial, replay_of_taken (hput rfl)⟩
  · exact ⟨_, nextCodePoint_initial, nextCodePoint_refused (hput' rfl rfl) nextCodePoint_initial⟩
  · exact ⟨_, nextCodePoint_initial, nextCodePoint_refused (hput' rfl rfl) nextCodePoint_initial⟩
  · exact ⟨_, nextCodePoint_initial, nextCodePoint_refused (hput' rfl rfl) nextCodePoint_initial⟩

theorem makeSymbol_codes (hlib : lib.Lawful) (type : SymbolType) (cs : List Char) :
    makeSymbol lib type (codes cs) = .ok ⟨type, utf8 cs⟩ := by
  simp [makeSymbol, hlib.u32ToU8_codes]

/-- One of the three words. -/
theorem emits_word (hlib : lib.Lawful) {word : List Char} {type : SymbolType}
    (hpiece : Moves (nextCodePoint b lib) initial (codes word) ⟨.literal, codes word⟩)
    (hbuild : buildLiteral lib ⟨.literal, codes word⟩ = makeSymbol lib type (codes word))
    (hdelimited : Delimited rest) (hrest : Emits b lib rest result) :
    Emits b lib (codes word ++ rest) (result.map (⟨type, utf8 word⟩ :: ·)) :=
  Emits.ended hpiece (ends_literal (hbuild.trans (makeSymbol_codes hlib type word))) hdelimited
    hrest

theorem emits_null (hlib : lib.Lawful) (hdelimited : Delimited rest)
    (hrest : Emits b lib rest result) :
    Emits b lib (codes "null".toList ++ rest)
      (result.map ((Atom.nothing (utf8 "null".toList)).toSymbol :: ·)) :=
  emits_word hlib rfl rfl hdelimited hrest

theorem emits_bool (hlib : lib.Lawful) (v : Bool) (hdelimited : Delimited rest)
    (hrest : Emits b lib rest result) :
    Emits b lib (codes (boolText v) ++ rest)
      (result.map ((Atom.boolean (utf8 (boolText v))).toSymbol :: ·)) := by
  cases v with
  | true => exact emits_word hlib rfl rfl hdelimited hrest
  | false => exact emits_word hlib rfl rfl hdelimited hrest

/-! ### Numbers -/

/-- The states that digits do not leave. -/
def InDigits (state : TokenizerState) : Prop :=
  state = .number ∨ state = .fraction ∨ state = .digits

theorem oneOf_digit (d : Digit) :
    oneOf digits d.char.toNat = true ∧ oneOf ['.'] d.char.toNat = false ∧
      oneOf ['-', '+'] d.char.toNat = false := by
  revert d
  decide

theorem put_digit {state : TokenizerState} (hstate : InDigits state) (d : Digit) :
    put b lib ⟨state, buffer⟩ d.char.toNat =
      .ok (⟨state, buffer ++ [d.char.toNat]⟩, [], true) := by
  obtain ⟨hdigit, hpoint, -⟩ := oneOf_digit d
  rcases hstate with rfl | rfl | rfl
  · simp [put, stateNumber, hdigit, hpoint, Tokenizer.append]
  · simp [put, stateFraction, hdigit, Tokenizer.append]
  · simp [put, stateDigits, hdigit, Tokenizer.append]

theorem moves_digits {state : TokenizerState} (hstate : InDigits state) (ds : List Digit) :
    Moves (nextCodePoint b lib) ⟨state, buffer⟩ (codes (ds.map Digit.char))
      ⟨state, buffer ++ codes (ds.map Digit.char)⟩ := by
  refine moves_append fun cp hcp buffer => ?_
  obtain ⟨d, -, rfl⟩ : ∃ d ∈ ds, d.char.toNat = cp := by simpa [codes] using hcp
  exact put_digit hstate d

/-- Sign and digits before the point. -/
theorem moves_whole {n : Number} (hn : Stored n) :
    Moves (nextCodePoint b lib) initial (codes (n.minusText ++ n.wholeText))
      ⟨.number, codes (n.minusText ++ n.wholeText)⟩ := by
  cases hminus : n.minus with
  | true =>
    have hsign : nextCodePoint b lib initial '-'.toNat = .ok (⟨.number, ['-'.toNat]⟩, []) :=
      nextCodePoint_initial
    have hdigits := @moves_digits b lib ['-'.toNat] _ (Or.inl rfl)
      n.whole.digits
    simpa [Number.minusText, Number.wholeText, hminus] using Moves.cons hsign hdigits
  | false =>
    cases hwhole : n.whole with
    | zero => simp [Stored, hminus, hwhole] at hn
    | positive first rest =>
      have hfirst : nextCodePoint b lib initial (Digit.char first.succ).toNat =
          .ok (⟨.number, [(Digit.char first.succ).toNat]⟩, []) := by
        rw [nextCodePoint_initial]
        fin_cases first <;> rfl
      have hdigits := @moves_digits b lib [(Digit.char first.succ).toNat] _ (Or.inl rfl) rest
      simpa [Number.minusText, Number.wholeText, Whole.digits, hminus, hwhole] using
        Moves.cons hfirst hdigits

/-- The point and the digits after it. -/
theorem moves_fraction (ds : Digits) :
    Moves (nextCodePoint b lib) ⟨.number, buffer⟩ (codes ('.' :: ds.list.map Digit.char))
      ⟨.fraction, buffer ++ codes ('.' :: ds.list.map Digit.char)⟩ := by
  have hpoint : nextCodePoint b lib ⟨.number, buffer⟩ '.'.toNat =
      .ok (⟨.fraction, buffer ++ ['.'.toNat]⟩, []) := replay_of_taken rfl
  have hdigits := @moves_digits b lib (buffer ++ ['.'.toNat]) _
    (Or.inr (Or.inl rfl)) ds.list
  simpa using Moves.cons hpoint hdigits

/-- The sign and the digits of an exponent. -/
theorem moves_exponent (e : Exponent) :
    Moves (nextCodePoint b lib) ⟨.exponent, buffer⟩ (codes (e.signText ++ e.digitsText))
      ⟨.digits, buffer ++ codes (e.signText ++ e.digitsText)⟩ := by
  have hdigits (buffer : List ℕ) (ds : List Digit) :=
    @moves_digits b lib buffer _ (Or.inr (Or.inr rfl)) ds
  cases hsign : e.sign with
  | none =>
    -- the first digit is refused once
    have hrefused : put b lib ⟨.exponent, buffer⟩ e.digits.first.char.toNat =
        .ok (⟨.digits, buffer⟩, [], false) := by
      simp [put, stateExponent, (oneOf_digit e.digits.first).2.2]
    have hfirst : nextCodePoint b lib ⟨.exponent, buffer⟩ e.digits.first.char.toNat =
        .ok (⟨.digits, buffer ++ [e.digits.first.char.toNat]⟩, []) :=
      replay_of_refused hrefused (replay_of_taken (put_digit (Or.inr (Or.inr rfl)) _))
    simpa [Exponent.signText, Exponent.digitsText, Digits.list, hsign] using
      Moves.cons hfirst (hdigits _ e.digits.rest)
  | some sign =>
    have hfirst : nextCodePoint b lib ⟨.exponent, buffer⟩ sign.char.toNat =
        .ok (⟨.digits, buffer ++ [sign.char.toNat]⟩, []) :=
      replay_of_taken (by cases sign <;> rfl)
    simpa [Exponent.signText, Exponent.digitsText, hsign] using
      Moves.cons hfirst (hdigits _ e.digits.list)

/-- The letter of an exponent; a number without a fraction gets one. -/
theorem nextCodePoint_letter (e : Exponent) :
    nextCodePoint b lib ⟨.fraction, buffer⟩ e.letter.toNat =
        .ok (⟨.exponent, buffer ++ [e.letter.toNat]⟩, []) ∧
      nextCodePoint b lib ⟨.number, buffer⟩ e.letter.toNat =
        .ok (⟨.exponent, buffer ++ codes ['.', '0', e.letter]⟩, []) := by
  cases hupper : e.upper <;>
    exact ⟨replay_of_taken (by simp only [Exponent.letter, hupper]; rfl),
      replay_of_taken (by simp only [Exponent.letter, hupper]; rfl)⟩

/-- The state in which the text of a number ends. -/
def lexed (n : Number) : Tokenizer :=
  ⟨match n.frac, n.exp with
    | none, none => .number
    | some _, none => .fraction
    | _, some _ => .digits, codes n.withFraction.text⟩

theorem moves_number {n : Number} (hn : Stored n) :
    Moves (nextCodePoint b lib) initial (codes n.text) (lexed n) := by
  have hwhole := @moves_whole b lib _ hn
  obtain ⟨minus, whole, frac, exp⟩ := n
  -- fraction and exponent are optional on their own
  cases frac with
  | none =>
    cases exp with
    | none => simpa [lexed, Number.text, Number.withFraction, Number.fracText,
        Number.expText] using hwhole
    | some e =>
      have hall := hwhole.append (Moves.cons (nextCodePoint_letter e).2 (moves_exponent e))
      have hzero : Digit.char 0 = '0' := rfl
      simpa [lexed, Number.text, Number.minusText, Number.wholeText, Number.withFraction,
        Number.fracText, Number.expText, Exponent.text, Digits.list, hzero] using hall
  | some ds =>
    cases exp with
    | none =>
      have hall := hwhole.append (moves_fraction ds)
      simpa [lexed, Number.text, Number.withFraction, Number.fracText, Number.expText] using hall
    | some e =>
      have hall := hwhole.append ((moves_fraction ds).append
        (Moves.cons (nextCodePoint_letter e).1 (moves_exponent e)))
      simpa [lexed, Number.text, Number.withFraction, Number.fracText, Number.expText,
        Exponent.text] using hall

theorem ends_number (hlib : lib.Lawful) (n : Number) :
    Ends b lib (lexed n) (numberAtom n).toSymbol := by
  intro cp hcp
  obtain ⟨syms, hinitial⟩ := @nextCodePoint_delimiter b lib _ hcp
  refine ⟨syms, hinitial, nextCodePoint_refused ?_ hinitial⟩
  obtain ⟨minus, whole, frac, exp⟩ := n
  have hdigit : oneOf digits cp = false ∧ oneOf ['.'] cp = false ∧ oneOf ['e', 'E'] cp = false := by
    rcases isDelimiter_iff.mp hcp with rfl | rfl | rfl | rfl | rfl | rfl | rfl <;> decide
  cases frac <;> cases exp <;>
    simp [lexed, numberAtom, Atom.number, Atom.float, put, stateNumber, stateFraction, stateDigits,
      finish, hdigit, makeSymbol_codes hlib, Number.IsInteger]

theorem emits_number (hlib : lib.Lawful) {n : Number} (hn : Stored n)
    (hdelimited : Delimited rest) (hrest : Emits b lib rest result) :
    Emits b lib (codes n.text ++ rest) (result.map ((numberAtom n).toSymbol :: ·)) :=
  Emits.ended (moves_number hn) (ends_number hlib n) hdelimited hrest

/-! ### Strings -/

/-- Between quotation marks every code point but a quotation mark or backslash is stored. -/
theorem moves_plain (h : ∀ cp ∈ cps, cp ≠ '"'.toNat ∧ cp ≠ '\\'.toNat) :
    Moves (nextCodePoint b lib) ⟨.string, buffer⟩ cps ⟨.string, buffer ++ cps⟩ := by
  refine moves_append fun cp hcp buffer => ?_
  obtain ⟨hquote, hbackslash⟩ := h cp hcp
  have hquote' : oneOf ['"'] cp = false := by simpa [oneOf] using Ne.symm hquote
  have hbackslash' : oneOf ['\\'] cp = false := by simpa [oneOf] using Ne.symm hbackslash
  simp [put, stateString, hquote', hbackslash', Tokenizer.append]

/-- A backslash and a code point after it. -/
theorem moves_escape {state : TokenizerState} {stored : List ℕ}
    (h : stateEscape ⟨.escape, buffer⟩ cp = (⟨state, buffer ++ stored⟩, [], true)) :
    Moves (nextCodePoint b lib) ⟨.string, buffer⟩ ['\\'.toNat, cp] ⟨state, buffer ++ stored⟩ := by
  have hbackslash : nextCodePoint b lib ⟨.string, buffer⟩ '\\'.toNat =
      .ok (⟨.escape, buffer⟩, []) := replay_of_taken rfl
  have hescape : nextCodePoint b lib ⟨.escape, buffer⟩ cp = .ok (⟨state, buffer ++ stored⟩, []) :=
    replay_of_taken (by rw [← h]; rfl)
  exact Moves.cons hbackslash (Moves.single hescape)

/-- What follows the last mark. -/
theorem takeWhile_mark {ds : List ℕ} (h : ∀ d ∈ ds, d ≠ 1) :
    (buffer ++ 1 :: ds).reverse.takeWhile (· ≠ 1) = ds.reverse := by
  rw [List.reverse_append, List.reverse_cons, List.append_assoc,
    List.takeWhile_append_of_pos (by simpa using h)]
  simp

theorem convertToUnicode_mark {ds : List ℕ} (h : ∀ d ∈ ds, d ≠ 1) :
    convertToUnicode (buffer ++ 1 :: ds) =
      if 4 ≤ ds.length then .ok (⟨.string, buffer ++ [hexValue ds]⟩, [], true)
      else .ok (⟨.unicode, buffer ++ 1 :: ds⟩, [], true) := by
  unfold convertToUnicode
  simp only [takeWhile_mark h, List.reverse_reverse, List.length_reverse]
  have hmem : 1 ∈ buffer ++ 1 :: ds := by simp
  have hlength : (buffer ++ 1 :: ds).length - (ds.length + 1) = buffer.length := by simp
  have htake : (buffer ++ 1 :: ds).take buffer.length = buffer := List.take_left
  rw [if_pos hmem, hlength, htake]
  simp only [Nat.lt_iff_add_one_le, Nat.reduceLeDiff]

/-- A mark, four hexadecimal digits, and the code point takes their place. -/
theorem moves_unicode {c d e f : ℕ} (h : ∀ x ∈ [c, d, e, f], oneOf hexDigits x = true) :
    Moves (nextCodePoint b lib) ⟨.string, buffer⟩ ['\\'.toNat, 'u'.toNat, c, d, e, f]
      ⟨.string, buffer ++ [hexValue [c, d, e, f]]⟩ := by
  have hmark : Moves (nextCodePoint b lib) ⟨.string, buffer⟩ ['\\'.toNat, 'u'.toNat]
      ⟨.unicode, buffer ++ [1]⟩ := moves_escape rfl
  -- no digit is the mark
  have hone (x : ℕ) (hx : oneOf hexDigits x = true) : x ≠ 1 := by
    rintro rfl
    cases hx
  have hstep (ds : List ℕ) (x : ℕ) (hx : oneOf hexDigits x = true) (hds : ∀ d ∈ ds ++ [x], d ≠ 1) :
      nextCodePoint b lib ⟨.unicode, buffer ++ 1 :: ds⟩ x =
        .ok (if 4 ≤ ds.length + 1 then ⟨.string, buffer ++ [hexValue (ds ++ [x])]⟩
          else ⟨.unicode, buffer ++ 1 :: (ds ++ [x])⟩, []) := by
    refine replay_of_taken ?_
    have hput : put b lib ⟨.unicode, buffer ++ 1 :: ds⟩ x =
        convertToUnicode (buffer ++ 1 :: (ds ++ [x])) := by
      simp [put, stateUnicode, hx]
    rw [hput, convertToUnicode_mark hds, List.length_append, List.length_singleton]
    split_ifs <;> rfl
  obtain ⟨hc, hd, he, hf⟩ : oneOf hexDigits c = true ∧ oneOf hexDigits d = true ∧
      oneOf hexDigits e = true ∧ oneOf hexDigits f = true := by simpa using h
  have hdigits : Moves (nextCodePoint b lib) ⟨.unicode, buffer ++ [1]⟩ [c, d, e, f]
      ⟨.string, buffer ++ [hexValue [c, d, e, f]]⟩ := by
    refine Moves.cons (hstep [] c hc ?_) (Moves.cons (hstep [c] d hd ?_)
      (Moves.cons (hstep [c, d] e he ?_) (Moves.single (hstep [c, d, e] f hf ?_)))) <;>
    simp [hone, hc, hd, he, hf]
  exact hmark.append hdigits

/-- The closing quotation mark emits the string, unless its conversion throws. -/
theorem emits_string {body stored : List ℕ}
    (hbody : Moves (nextCodePoint b lib) ⟨.string, []⟩ body ⟨.string, stored⟩)
    (hrest : Emits b lib rest result) :
    Emits b lib ('"'.toNat :: body ++ '"'.toNat :: rest) (do
      let sym ← makeSymbol lib .string stored
      let syms ← result
      return sym :: syms) := by
  have hopen : nextCodePoint b lib initial '"'.toNat = .ok (⟨.string, []⟩, []) :=
    nextCodePoint_initial
  -- the opening quote enters the string state and stores nothing
  have hpiece := Moves.cons hopen hbody
  unfold Emits at hrest ⊢
  rw [hpiece.run_append]
  -- the symbol is made at the closing quote, which fails where the conversion does
  cases hsym : makeSymbol lib .string stored with
  | error e =>
    have hclose : nextCodePoint b lib ⟨.string, stored⟩ '"'.toNat = .error e := by
      refine replay_of_error ?_
      simp [put, stateString, finish, hsym, oneOf]
    exact run_cons_of_error hclose
  | ok sym =>
    have hclose : nextCodePoint b lib ⟨.string, stored⟩ '"'.toNat = .ok (initial, [sym]) := by
      refine replay_of_taken ?_
      simp [put, stateString, finish, hsym, oneOf]
    rw [run_cons_of_ok hclose, hrest]
    cases result <;> rfl

end Tokenizer

/-! ### The characters of a text -/

section Characters

open U8ToU32

/-- All characters of a text are decoded. -/
def AllDecode (cs : List Char) : Prop := ∀ c ∈ cs, Decodes c

namespace AllDecode

variable {c : Char} {cs cs' : List Char}

@[simp] theorem nil : AllDecode [] := by simp [AllDecode]

@[simp] theorem cons_iff : AllDecode (c :: cs) ↔ Decodes c ∧ AllDecode cs := by
  simp [AllDecode]

@[simp] theorem append_iff : AllDecode (cs ++ cs') ↔ AllDecode cs ∧ AllDecode cs' := by
  simp [AllDecode, or_imp, forall_and]

theorem blanks (ws : Blanks) : AllDecode ws.text := by
  intro c hc
  obtain ⟨w, -, rfl⟩ := List.mem_map.mp hc
  cases w <;> decide

theorem digits (ds : List Digit) : AllDecode (ds.map Digit.char) := by
  have hchar : ∀ d : Digit, Decodes d.char := by decide
  intro c hc
  obtain ⟨d, -, rfl⟩ := List.mem_map.mp hc
  exact hchar d

theorem number (n : Number) : AllDecode n.text := by
  have hminus : AllDecode n.minusText := by
    unfold Number.minusText
    split <;> simp [Decodes]
  have hfrac : AllDecode n.fracText := by
    unfold Number.fracText
    split <;> simp [Decodes, digits]
  have hexp : AllDecode n.expText := by
    unfold Number.expText
    split
    · exact nil
    · next e he =>
      have hletter : Decodes e.letter := by
        unfold Exponent.letter
        split <;> decide
      have hsign : AllDecode e.signText := by
        unfold Exponent.signText
        cases e.sign with
        | none => exact nil
        | some sign => cases sign <;> simp [Sign.char, Decodes]
      simp [Exponent.text, hletter, hsign, Exponent.digitsText, digits]
  simp [Number.text, hminus, Number.wholeText, digits, hfrac, hexp]

end AllDecode

end Characters

/-! ### Whole texts -/

section Reading

variable {b : Build} {lib : Library} {cs : List Char} {chunks : List Bytes} {os : List Obj}

/-- A text that is decoded goes through the tokenizer and the parser, in any number of calls. -/
theorem read_iff (hdecodes : AllDecode cs) (hplain : Reader.Plain 0 (utf8 cs))
    (hchunks : chunks.flatten = utf8 cs) :
    (∃ r, Step.run (Reader.read b lib) .initial chunks = .ok (r, os)) ↔
      ∃ t syms p, Step.run (Tokenizer.nextCodePoint b lib) .initial (codes cs) = .ok (t, syms) ∧
        Step.run (Parser.nextSymbol b lib) .initial syms = .ok (p, os) := by
  have hbytes := U8ToU32.run_put_utf8 hdecodes
  rw [← hchunks] at hplain hbytes
  constructor
  · rintro ⟨r, hread⟩
    obtain ⟨hput, -⟩ := (Reader.run_read_eq_ok_iff hplain).mp hread
    obtain ⟨syms, hfront, hparse⟩ := run_pipe_eq_ok_iff.mp hput
    obtain ⟨cps, hdecode, hlex⟩ := run_pipe_eq_ok_iff.mp hfront
    obtain rfl : codes cs = cps :=
      congrArg Prod.snd (Except.ok.inj (hbytes.symm.trans hdecode))
    exact ⟨_, syms, _, hlex, hparse⟩
  · rintro ⟨t, syms, p, hlex, hparse⟩
    have hfront := run_pipe_ok hbytes hlex
    refine ⟨⟨chunks.flatten.length, .initial, t, p⟩,
      (Reader.run_read_eq_ok_iff hplain).mpr ⟨run_pipe_ok hfront hparse, ?_⟩⟩
    simp [Reader.initial]

theorem read_iff_of_emits {result : Except Fault (List Symbol)} (hdecodes : AllDecode cs)
    (hplain : Reader.Plain 0 (utf8 cs)) (hchunks : chunks.flatten = utf8 cs)
    (hemits : Tokenizer.Emits b lib (codes cs) result) :
    (∃ r, Step.run (Reader.read b lib) .initial chunks = .ok (r, os)) ↔
      ∃ syms p, result = .ok syms ∧
        Step.run (Parser.nextSymbol b lib) .initial syms = .ok (p, os) := by
  rw [read_iff hdecodes hplain hchunks, hemits]
  cases result with
  | error e => simp [Except.map]
  | ok syms => simp [Except.map]

end Reading

end Json

end Cyng
