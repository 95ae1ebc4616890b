import Cyng.Json.Library
import Cyng.Json.Document

/-!
# Safety of the JSON parser

Not every input is safe: the structural symbols take the tops of the two stacks without a look
at them. What has to hold at each symbol is a condition on the stacks as they are then. Under
these conditions one invariant ties the stacks together over all inputs: the stack of values
holds one mark for each open array or object. The tokenizer needs two conditions of its own: it
does not go on after a broken escape, and the strings it finishes can be converted.
-/

namespace Cyng

open Theory Theory.Step

/-! ### Bytes -/

namespace U8ToU32

/-- Between two glyphs, or inside one that has more bytes to come. -/
def Inv (s : U8ToU32) : Prop := s.size = 0 ∨ s.char.length < s.size ∧ s.size ≤ 4

theorem utf8ByteCount_bounds {c : UInt8} (h : 0x7F < c.toNat) :
    0 < utf8ByteCount c ∧ utf8ByteCount c ≤ 4 := by
  have hupper : ∀ n < 256, 0x7F < n → n &&& 0xF0 ≠ 0 := by decide +kernel
  have hne := hupper c.toNat c.toNat_lt h
  unfold utf8ByteCount
  split
  case h_1 hzero => exact absurd hzero hne
  all_goals decide

/-- Decoding never fails. -/
theorem safe_put : Safe put Inv (fun _ _ => True) fun _ => True := by
  rintro ⟨char, size⟩ c hinv -
  by_cases hascii : 0x7F < c.toNat ∨ size ≠ 0
  · by_cases hsize : size = 0
    · subst hsize
      have hbig : 0x7F < c.toNat := hascii.resolve_right (not_not_intro rfl)
      obtain ⟨hpos, hle⟩ := utf8ByteCount_bounds hbig
      by_cases hone : 1 = utf8ByteCount c
      · exact ⟨initial, [glyph [c]], by simp [put, hbig, ← hone], Or.inl rfl, by simp⟩
      · refine ⟨⟨[c], utf8ByteCount c⟩, [], by simp [put, hbig, hone], Or.inr ⟨?_, hle⟩, by simp⟩
        exact Nat.lt_of_le_of_ne hpos hone
    · obtain ⟨hlength, hle⟩ := hinv.resolve_left hsize
      have hpos : char.length < 4 := Nat.lt_of_lt_of_le hlength hle
      by_cases hlast : char.length + 1 = size
      · exact ⟨initial, [glyph (char ++ [c])], by simp [put, hsize, hpos, hlast], Or.inl rfl,
          by simp⟩
      · refine ⟨⟨char ++ [c], size⟩, [], by simp [put, hsize, hpos, hlast],
          Or.inr ⟨?_, hle⟩, by simp⟩
        rw [List.length_append, List.length_singleton]
        exact Nat.lt_of_le_of_ne hlength hlast
  · exact ⟨⟨char, size⟩, [c.toNat], by simp only [put, if_neg hascii], hinv, by simp⟩

end U8ToU32

namespace Json

/-! ### Code points -/

namespace Tokenizer

variable {b : Build} {lib : Library} {t t' : Tokenizer} {cp : ℕ}

/-- The buffer is empty between two symbols, what is stored of a number are characters, and an
escape has its mark. -/
def Inv (t : Tokenizer) : Prop :=
  match t.state with
  | .start => t.buffer = []
  | .number | .fraction | .exponent | .digits => ∃ cs, t.buffer = codes cs
  | .unicode => 1 ∈ t.buffer
  | _ => True

/-- Nothing follows a broken escape, and a string that is finished can be converted. -/
def Guard (lib : Library) (t : Tokenizer) (cp : ℕ) : Prop :=
  t.state ≠ .error ∧ (t.state = .string → cp = '"'.toNat → (lib.u32ToU8 t.buffer).isOk = true)

instance instDecidableGuard (t : Tokenizer) (cp : ℕ) : Decidable (Guard lib t cp) :=
  inferInstanceAs (Decidable (_ ∧ _))

/-- The symbols that the tokenizer emits. -/
def Good (sym : Symbol) : Prop := sym.type = .symbol → sym.value.length = 1

/-- What a call leaves behind: the invariant holds, the symbols are well formed, and a code
point is refused only on the way to a state in which the guard holds. -/
def Settled : Reply → Prop
  | (t, syms, advance) => t.Inv ∧ (∀ sym ∈ syms, Good sym) ∧
    (advance = false → t.state = .start ∨ t.state = .digits)

theorem settled_take (h : t.Inv) : Settled (t, [], true) :=
  ⟨h, by simp, nofun⟩

theorem settled_initial {sym : Symbol} {advance : Bool} (h : sym.type ≠ .symbol) :
    Settled (initial, [sym], advance) :=
  ⟨rfl, by simpa [Good] using fun hsym => absurd hsym h, fun _ => Or.inl rfl⟩

/-- A text that can be converted is finished. -/
theorem finish_of_isOk {type : SymbolType} {advance : Bool} (htype : type ≠ .symbol)
    (h : (lib.u32ToU8 t.buffer).isOk = true) :
    ∃ r, t.finish lib type advance = .ok r ∧ Settled r := by
  cases htext : lib.u32ToU8 t.buffer with
  | error what => simp [htext, Except.isOk, Except.toBool] at h
  | ok text =>
    exact ⟨(initial, [⟨type, text⟩], advance), by simp [finish, makeSymbol, htext],
      settled_initial htype⟩

/-- So are the characters of a number. -/
theorem finish_of_codes {type : SymbolType} {advance : Bool} {cs : List Char}
    (lawful : lib.Lawful) (htype : type ≠ .symbol) (h : t.buffer = codes cs) :
    ∃ r, t.finish lib type advance = .ok r ∧ Settled r := by
  refine finish_of_isOk htype ?_
  rw [h, lawful.u32ToU8_codes]
  rfl

/-- A code point that is one of these characters is the code point of a character. -/
theorem codes_of_oneOf {chars : List Char} (h : oneOf chars cp = true) :
    ∃ c : Char, cp = c.toNat := by
  obtain ⟨c, -, hc⟩ := List.any_eq_true.mp h
  exact ⟨c, (beq_iff_eq.mp hc).symm⟩

/-- One more character of a number. -/
theorem codes_append_of_oneOf {chars : List Char} {cs : List Char} (more : List Char)
    (hbuffer : t.buffer = codes cs) (h : oneOf chars cp = true) :
    ∃ cs', t.buffer ++ (codes more ++ [cp]) = codes cs' := by
  obtain ⟨c, rfl⟩ := codes_of_oneOf h
  exact ⟨cs ++ (more ++ [c]), by simp [hbuffer]⟩

theorem settled_stateStart (hstate : t.state = .start) (hinv : t.buffer = []) :
    Settled (t.stateStart cp) := by
  have hkeep : t.Inv := by simpa [Inv, hstate] using hinv
  unfold stateStart
  split_ifs with h1 h2 h3 h4 h5
  · exact ⟨hkeep, by simp [Good], nofun⟩
  · exact settled_take hkeep
  · exact settled_take trivial
  · exact settled_take ⟨[], hinv⟩
  · exact settled_take (@codes_append_of_oneOf _ _ _ [] [] hinv h5)
  · exact settled_take trivial

/-- A literal is always finished: where it cannot be converted it is the text of the exception. -/
theorem buildLiteral_eq_ok (lawful : lib.Lawful) :
    ∃ sym, t.buildLiteral lib = .ok sym ∧ sym.type ≠ .symbol := by
  have hword (type : SymbolType) (word : String) (h : t.buffer = word.toList.map Char.toNat) :
      makeSymbol lib type t.buffer = .ok ⟨type, utf8 word.toList⟩ := by
    rw [makeSymbol, h, show word.toList.map Char.toNat = codes word.toList from rfl,
      lawful.u32ToU8_codes]
  unfold buildLiteral
  split_ifs with hnull htrue hfalse
  · exact ⟨_, hword _ _ hnull, by decide⟩
  · exact ⟨_, hword _ _ htrue, by decide⟩
  · exact ⟨_, hword _ _ hfalse, by decide⟩
  · cases lib.u32ToU8 t.buffer with
    | ok value => exact ⟨⟨.string, value⟩, rfl, by simp⟩
    | error what => exact ⟨⟨.string, utf8 what.toList⟩, rfl, by simp⟩

theorem stateLiteral_settled (lawful : lib.Lawful) (hstate : t.state = .literal) :
    ∃ r, t.stateLiteral lib cp = .ok r ∧ Settled r := by
  obtain ⟨sym, hsym, htype⟩ := t.buildLiteral_eq_ok lawful
  unfold stateLiteral
  split_ifs
  · exact ⟨(initial, [sym], true), by simp [hsym], settled_initial htype⟩
  · exact ⟨(initial, [sym], false), by simp [hsym], settled_initial htype⟩
  · refine ⟨_, rfl, settled_take ?_⟩
    rw [hstate]
    trivial

theorem stateString_settled (hstate : t.state = .string)
    (hguard : cp = '"'.toNat → (lib.u32ToU8 t.buffer).isOk = true) :
    ∃ r, t.stateString lib cp = .ok r ∧ Settled r := by
  unfold stateString
  split_ifs with hquote
  · have hcp : '"'.toNat = cp := by simpa [oneOf] using hquote
    exact finish_of_isOk (by decide) (hguard hcp.symm)
  · exact ⟨_, rfl, settled_take trivial⟩
  · refine ⟨_, rfl, settled_take ?_⟩
    rw [hstate]
    trivial

theorem settled_stateEscape : Settled (t.stateEscape cp) := by
  have hmark : 1 ∈ t.buffer ++ [1] := List.mem_append_right t.buffer (List.mem_singleton_self 1)
  unfold stateEscape
  split_ifs <;> first | exact settled_take trivial | exact settled_take hmark

theorem stateNumber_settled {cs : List Char} (lawful : lib.Lawful) (hstate : t.state = .number)
    (hbuffer : t.buffer = codes cs) : ∃ r, t.stateNumber lib cp = .ok r ∧ Settled r := by
  unfold stateNumber
  split_ifs with hpoint hdigit hexp
  · exact ⟨_, rfl, settled_take (codes_append_of_oneOf [] hbuffer hpoint)⟩
  · refine ⟨_, rfl, settled_take ?_⟩
    rw [hstate]
    exact codes_append_of_oneOf [] hbuffer hdigit
  · exact ⟨_, rfl, settled_take (codes_append_of_oneOf ['.', '0'] hbuffer hexp)⟩
  · exact finish_of_codes lawful (by decide) hbuffer

theorem stateFraction_settled {cs : List Char} (lawful : lib.Lawful)
    (hstate : t.state = .fraction) (hbuffer : t.buffer = codes cs) :
    ∃ r, t.stateFraction lib cp = .ok r ∧ Settled r := by
  unfold stateFraction
  split_ifs with hdigit hexp
  · refine ⟨_, rfl, settled_take ?_⟩
    rw [hstate]
    exact codes_append_of_oneOf [] hbuffer hdigit
  · exact ⟨_, rfl, settled_take (codes_append_of_oneOf [] hbuffer hexp)⟩
  · exact finish_of_codes lawful (by decide) hbuffer

theorem settled_stateExponent {cs : List Char} (hbuffer : t.buffer = codes cs) :
    Settled (t.stateExponent cp) := by
  unfold stateExponent
  split_ifs with hsign
  · exact settled_take (codes_append_of_oneOf [] hbuffer hsign)
  · exact ⟨⟨cs, hbuffer⟩, by simp, fun _ => Or.inr rfl⟩

theorem stateDigits_settled {cs : List Char} (lawful : lib.Lawful) (hstate : t.state = .digits)
    (hbuffer : t.buffer = codes cs) : ∃ r, t.stateDigits lib cp = .ok r ∧ Settled r := by
  unfold stateDigits
  split_ifs with hdigit
  · refine ⟨_, rfl, settled_take ?_⟩
    rw [hstate]
    exact codes_append_of_oneOf [] hbuffer hdigit
  · exact finish_of_codes lawful (by decide) hbuffer

theorem stateUnicode_settled (hmark : 1 ∈ t.buffer) :
    ∃ r, t.stateUnicode cp = .ok r ∧ Settled r := by
  have hmark' : 1 ∈ t.buffer ++ [cp] := List.mem_append_left [cp] hmark
  unfold stateUnicode
  split_ifs
  · unfold convertToUnicode
    simp only [if_pos hmark']
    split_ifs
    · exact ⟨_, rfl, settled_take trivial⟩
    · exact ⟨_, rfl, settled_take hmark'⟩
  · exact ⟨_, rfl, settled_take trivial⟩

/-- One call. -/
theorem put_settled (lawful : lib.Lawful) (hinv : t.Inv) (hguard : Guard lib t cp) :
    ∃ r, put b lib t cp = .ok r ∧ Settled r := by
  obtain ⟨hlive, hstring⟩ := hguard
  unfold put
  unfold Inv at hinv
  cases hstate : t.state <;> simp only [hstate] at hinv hstring
  case error => exact absurd hstate hlive
  case start => exact ⟨_, rfl, settled_stateStart hstate hinv⟩
  case string => exact stateString_settled hstate (hstring trivial)
  case literal => exact stateLiteral_settled lawful hstate
  case number => exact hinv.elim fun _ => stateNumber_settled lawful hstate
  case fraction => exact hinv.elim fun _ => stateFraction_settled lawful hstate
  case exponent => exact ⟨_, rfl, hinv.elim fun _ => settled_stateExponent⟩
  case digits => exact hinv.elim fun _ => stateDigits_settled lawful hstate
  case escape => exact ⟨_, rfl, settled_stateEscape⟩
  case unicode => exact stateUnicode_settled hinv

theorem replay_settled (lawful : lib.Lawful) {limit : ℕ} (hinv : t.Inv)
    (hguard : Guard lib t cp) :
    ∃ t' syms, replay b lib limit t cp = .ok (t', syms) ∧ t'.Inv ∧ ∀ sym ∈ syms, Good sym := by
  induction limit generalizing t with
  | zero =>
    obtain ⟨⟨t', syms, advance⟩, hput, hinv', hgood, -⟩ := put_settled (b := b) lawful hinv hguard
    exact ⟨t', syms, by simp [replay, hput], hinv', hgood⟩
  | succ limit ih =>
    obtain ⟨⟨t', syms, advance⟩, hput, hinv', hgood, hrefused⟩ :=
      put_settled (b := b) lawful hinv hguard
    cases advance with
    | true => exact ⟨t', syms, replay_of_taken hput, hinv', hgood⟩
    | false =>
      have hguard' : Guard lib t' cp := by
        rcases hrefused rfl with hstate | hstate <;> simp [Guard, hstate]
      obtain ⟨t'', syms', hreplay, hinv'', hgood'⟩ := ih hinv' hguard'
      refine ⟨t'', syms ++ syms', replay_of_refused hput hreplay, hinv'', ?_⟩
      intro sym hsym
      rcases List.mem_append.mp hsym with hsym | hsym
      · exact hgood sym hsym
      · exact hgood' sym hsym

/-- The tokenizer is safe: a code point that is refused is offered again to a state that is
covered by the guard. -/
theorem safe_nextCodePoint (lawful : lib.Lawful) :
    Safe (nextCodePoint b lib) Inv (Guard lib) Good :=
  fun _ _ hinv hguard => replay_settled lawful hinv hguard

end Tokenizer

/-! ### Symbols -/

namespace Parser

variable {b : Build} {lib : Library} {p p' : Parser}

/-- One mark for each open array or object. -/
def Inv (p : Parser) : Prop := p.stack.countP isEod = p.state.length

/-- The last array or object can be closed: it is open, and nothing lies below the mark of
the outermost one. -/
def Closable (p : Parser) : Prop :=
  p.state ≠ [] ∧ (p.state.length = 1 → p.stack.getLast?.any isEod = true)

/-- A member that lies on the stack can be built: it is a name with a value, and no mark. -/
def Reducible (p : Parser) : Prop :=
  match p.state, p.stack with
  | .value :: _, obj :: name :: _ :: _ => isEod obj = false ∧ name.typeCode = .string
  | _, _ => True

/-- What the parser relies on, symbol by symbol. -/
def Guard (p : Parser) (sym : Symbol) : Prop :=
  (sym = punctuation ':' → p.state.head? = some .object) ∧
  (sym = punctuation ',' → p.state ≠ [] ∧ p.Reducible) ∧
  (sym = punctuation ']' → p.Closable) ∧
  (sym = punctuation '}' → p.Closable ∧ p.Reducible)

instance instDecidableClosable (p : Parser) : Decidable p.Closable :=
  inferInstanceAs (Decidable (_ ∧ _))

instance instDecidableReducible : (p : Parser) → Decidable p.Reducible
  | ⟨.value :: _, _ :: _ :: _ :: _⟩ => inferInstanceAs (Decidable (_ ∧ _))
  | ⟨.value :: _, []⟩ | ⟨.value :: _, [_]⟩ | ⟨.value :: _, [_, _]⟩ => isTrue trivial
  | ⟨[], _⟩ | ⟨.array :: _, _⟩ | ⟨.object :: _, _⟩ => isTrue trivial

instance instDecidableGuard (p : Parser) (sym : Symbol) : Decidable (p.Guard sym) :=
  inferInstanceAs (Decidable (_ ∧ _ ∧ _ ∧ _))

/-- Marks are made in one way only. -/
theorem isEod_iff {o : Obj} : isEod o = true ↔ o = .scalar .eod := by
  constructor
  · intro h
    replace h : o.typeCode = .eod := by simpa [isEod] using h
    cases o with
    | scalar v =>
      cases v
      case eod => rfl
      case float ty _ | int ty _ | duration ty _ | digest ty _ | aesKey ty _ | endpoint ty _ _ =>
        cases ty <;> cases h
      all_goals cases h
    | pair key _ => cases key <;> cases h
    | map kind _ => cases kind <;> cases h
    | seq kind _ => cases kind <;> cases h
    | prg _ => cases h
  · rintro rfl
    rfl

theorem countP_mark (K : List Obj) :
    (Obj.scalar .eod :: K).countP isEod = K.countP isEod + 1 :=
  List.countP_cons_of_pos isEod_eod

/-- Where the stack has a mark, the values above the last one come off. -/
theorem exists_mark {K : List Obj} (h : 0 < K.countP isEod) :
    ∃ vs rest, K = vs ++ .scalar .eod :: rest ∧ (∀ o ∈ vs, isEod o = false) ∧
      K.countP isEod = rest.countP isEod + 1 := by
  induction K with
  | nil => exact absurd h (by simp)
  | cons o K ih =>
    by_cases heod : isEod o = true
    · obtain rfl := isEod_iff.mp heod
      exact ⟨[], K, rfl, by simp, countP_mark K⟩
    · have hcount : (o :: K).countP isEod = K.countP isEod := by simp [heod]
      rw [hcount] at h ⊢
      obtain ⟨vs, rest, rfl, hvs, hrest⟩ := ih h
      have hvs' : ∀ v ∈ o :: vs, isEod v = false :=
        List.forall_mem_cons.mpr ⟨by simpa using heod, hvs⟩
      exact ⟨o :: vs, rest, rfl, hvs', hrest⟩

/-- A closing bracket, once the values above the mark are replaced by one value. -/
theorem close_inv {s : ParserState} {S : List ParserState} {vs K : List Obj} {o : Obj}
    (ho : isEod o = false) (hcount : K.countP isEod = S.length)
    (hclosable : Closable ⟨s :: S, vs ++ .scalar .eod :: K⟩) :
    ∃ q os, close b ⟨s :: S, o :: K⟩ = .ok (q, os) ∧ q.Inv := by
  cases S with
  | cons s' S =>
    refine ⟨⟨s' :: S, o :: K⟩, [], close_inner (List.cons_ne_nil s' S), ?_⟩
    simp [Inv, ho, hcount]
  | nil =>
    -- the bottom of the stack is the mark that was replaced
    have hK : K = [] := by
      by_contra hne
      have hlast := hclosable.2 rfl
      rw [List.getLast?_append_of_ne_nil _ (List.cons_ne_nil _ K),
        List.getLast?_cons_of_ne_nil hne, List.getLast?_eq_some_getLast hne] at hlast
      have hmark : 0 < K.countP isEod :=
        List.countP_pos_iff.mpr ⟨_, List.getLast_mem hne, hlast⟩
      rw [hcount] at hmark
      exact Nat.lt_irrefl 0 hmark
    rw [hK]
    exact ⟨initial, [o], close_outer, rfl⟩

/-- Under the invariant every open array or object has a mark. -/
theorem exists_open (hinv : p.Inv) (hopen : p.state ≠ []) :
    ∃ s S vs K, p = ⟨s :: S, vs ++ .scalar .eod :: K⟩ ∧ (∀ v ∈ vs, isEod v = false) ∧
      K.countP isEod = S.length := by
  obtain ⟨state, stack⟩ := p
  obtain ⟨s, S, rfl⟩ := List.exists_cons_of_ne_nil hopen
  have hcount : stack.countP isEod = S.length + 1 := hinv
  obtain ⟨vs, K, rfl, hvs, hK⟩ := exists_mark (Nat.lt_of_lt_of_eq (Nat.succ_pos _) hcount.symm)
  exact ⟨s, S, vs, K, rfl, hvs, Nat.succ.inj (hK.symm.trans hcount)⟩

theorem buildArray_inv (hinv : p.Inv) (h : p.Closable) :
    ∃ q os, p.buildArray b = .ok (q, os) ∧ q.Inv := by
  obtain ⟨s, S, vs, K, rfl, hvs, hK⟩ := exists_open hinv h.1
  rw [buildArray_of hvs]
  exact close_inv rfl hK h

theorem buildMember_inv (hinv : p.Inv) (h : p.Closable) :
    ∃ q os, p.buildMember b = .ok (q, os) ∧ q.Inv := by
  obtain ⟨s, S, vs, K, rfl, hvs, hK⟩ := exists_open hinv h.1
  rw [buildMember_of hvs]
  exact close_inv rfl hK h

/-- Building a member leaves the marks where they are. -/
theorem buildObject_inv (hinv : p.Inv) (hopen : p.state ≠ []) (h : p.Reducible) :
    ∃ q, p.buildObject b = .ok q ∧ q.Inv ∧ q.state.length = p.state.length ∧
      q.stack.getLast? = p.stack.getLast? := by
  obtain ⟨state, stack⟩ := p
  obtain ⟨s, S, rfl⟩ := List.exists_cons_of_ne_nil hopen
  cases s with
  | array => exact ⟨_, buildObject_array, hinv, rfl, rfl⟩
  | object => exact ⟨_, buildObject_object, hinv, rfl, rfl⟩
  | value =>
    match stack with
    | [] | [_] | [_, _] => exact ⟨⟨.object :: S, _⟩, rfl, hinv, rfl, rfl⟩
    | obj :: name :: below :: rest =>
      obtain ⟨hobj, hname⟩ : isEod obj = false ∧ name.typeCode = .string := h
      have hmark : isEod name = false := by simp [isEod, hname]
      refine ⟨⟨.object :: S, .param (textOf name) obj :: below :: rest⟩, ?_, ?_, rfl, ?_⟩
      · simp [buildObject, Build.check_of hname, swap]
      · have hparam : isEod (.param (textOf name) obj) = false := rfl
        have hcount (K : List Obj) : (Obj.param (textOf name) obj :: K).countP isEod =
            (obj :: name :: K).countP isEod := by
          simp [hobj, hmark, hparam]
        exact (hcount _).trans hinv
      · simp

/-- A structural symbol is read off its only character. -/
theorem eq_punctuation {sym : Symbol} {c : UInt8} {char : Char} (htype : sym.type = .symbol)
    (hvalue : sym.value = [c]) (h : oneOf [char] c.toNat = true) : sym = punctuation char := by
  have hc : char.toNat = c.toNat := by simpa [oneOf] using h
  obtain ⟨type, value⟩ := sym
  simp only at htype hvalue
  rw [punctuation, htype, hvalue, hc, UInt8.ofNat_toNat]

/-- Any other character is ignored. -/
theorem nextSymbol_other {sym : Symbol} {c : UInt8} (htype : sym.type = .symbol)
    (hvalue : sym.value = [c])
    (h : ∀ char ∈ ['[', '{', ':', ']', '}', ','], sym ≠ punctuation char) :
    nextSymbol b lib p sym = .ok (p, []) := by
  have hother : ∀ char ∈ ['[', '{', ':', ']', '}', ','], oneOf [char] c.toNat = false := by
    intro char hchar
    by_contra hone
    exact h char hchar (eq_punctuation htype hvalue (by simpa using hone))
  simp [nextSymbol, htype, hvalue, processSymbol, Build.check_of, hother]

/-- The parser is safe under its guard: what a bracket takes off the stacks is there. -/
theorem safe_nextSymbol :
    Safe (nextSymbol b lib) Inv (fun p sym => p.Guard sym ∧ Tokenizer.Good sym)
      fun _ => True := by
  rintro p sym hinv ⟨⟨hcolon, hcomma, hbracket, hbrace⟩, hgood⟩
  suffices hstep : ∃ q os, nextSymbol b lib p sym = .ok (q, os) ∧ q.Inv by
    obtain ⟨q, os, hstep, hq⟩ := hstep
    exact ⟨q, os, hstep, hq, by simp⟩
  -- one case for each bracket and separator, as in next_symbol
  by_cases htype : sym.type = .symbol
  · obtain ⟨c, hc⟩ := List.length_eq_one_iff.mp (hgood htype)
    by_cases h1 : sym = punctuation '['
    · rw [h1]
      exact ⟨_, _, nextSymbol_openArray, (countP_mark _).trans (congrArg _ hinv)⟩
    by_cases h2 : sym = punctuation '{'
    · rw [h2]
      exact ⟨_, _, nextSymbol_openObject, (countP_mark _).trans (congrArg _ hinv)⟩
    by_cases h3 : sym = punctuation ':'
    · obtain ⟨state, stack⟩ := p
      obtain ⟨S, rfl⟩ := List.head?_eq_some_iff.mp (hcolon h3)
      rw [h3]
      exact ⟨_, _, nextSymbol_colon, hinv⟩
    by_cases h4 : sym = punctuation ']'
    · rw [h4, nextSymbol_closeArray]
      exact buildArray_inv hinv (hbracket h4)
    by_cases h5 : sym = punctuation '}'
    · obtain ⟨hclosable, hreducible⟩ := hbrace h5
      obtain ⟨q, hbuild, hq, hlength, hlast⟩ :=
        buildObject_inv (b := b) hinv hclosable.1 hreducible
      have hclosable' : q.Closable := by
        rw [Closable, ← List.length_pos_iff, hlength, hlast, List.length_pos_iff]
        exact hclosable
      rw [h5, nextSymbol_closeObject hbuild]
      exact buildMember_inv hq hclosable'
    by_cases h6 : sym = punctuation ','
    · obtain ⟨hopen, hreducible⟩ := hcomma h6
      obtain ⟨q, hbuild, hq, -⟩ := buildObject_inv (b := b) hinv hopen hreducible
      rw [h6]
      exact ⟨q, [], nextSymbol_comma hbuild, hq⟩
    · exact ⟨p, [], nextSymbol_other htype hc (by simp [h1, h2, h3, h4, h5, h6]), hinv⟩
  · -- the symbol is a value of its own
    have hvalue := @isEod_atom lib ⟨sym, htype⟩
    exact ⟨_, _, nextSymbol_atom ⟨sym, htype⟩, by simpa [Inv, push, hvalue] using hinv⟩

end Parser

/-! ### Bytes to values -/

namespace Bom

/-- While a byte order mark is expected, less than three bytes were read. -/
def Inv (s : Bom) : Prop := s.bom = true → s.counter < 3

theorem safe_put : Safe put Inv (fun _ _ => True) fun _ => True := by
  rintro ⟨counter, bom, trailer⟩ c hinv -
  unfold put
  simp only []
  split_ifs with hmark hthree htwo hbom
  · exact ⟨_, _, rfl, nofun, by simp⟩
  · exact ⟨_, _, rfl, nofun, by simp⟩
  · refine ⟨_, _, rfl, fun _ => ?_, by simp⟩
    change counter + 1 < 3
    omega
  · have hcounter : counter < 3 := by
      rcases Bool.or_eq_true_iff.mp hmark with hbom | hfirst
      · exact hinv hbom
      · simp only [Bool.and_eq_true, decide_eq_true_eq] at hfirst
        omega
    exact absurd hcounter hthree
  · exact ⟨_, _, rfl, nofun, by simp⟩

end Bom

namespace Reader

variable {b : Build} {lib : Library} {r : Reader}

/-- Each symbol finds the stacks as it needs them, and so does each code point. -/
def Guard (b : Build) (lib : Library) (r : Reader) (chunk : Bytes) : Prop :=
  Guarded (Step.pipe Bom.put (put b lib))
    (pipeGuard Bom.put (put b lib) (fun _ _ => True)
      (pipeGuard (Step.pipe U8ToU32.put (Tokenizer.nextCodePoint b lib)) (Parser.nextSymbol b lib)
        (pipeGuard U8ToU32.put (Tokenizer.nextCodePoint b lib) (fun _ _ => True)
          (Tokenizer.Guard lib))
        Parser.Guard))
    (.start r.counter, (r.sanitizer, r.tokenizer), r.parser) chunk

/-- The invariant of all stages between two calls. -/
def Inv (r : Reader) : Prop := (r.sanitizer.Inv ∧ r.tokenizer.Inv) ∧ r.parser.Inv

instance instDecidableGuard (r : Reader) (chunk : Bytes) : Decidable (Guard b lib r chunk) :=
  instDecidableGuarded _ chunk

theorem safe_put (lawful : lib.Lawful) :
    Safe (put b lib) (fun s => (s.1.1.Inv ∧ s.1.2.Inv) ∧ s.2.Inv)
      (pipeGuard (Step.pipe U8ToU32.put (Tokenizer.nextCodePoint b lib)) (Parser.nextSymbol b lib)
        (pipeGuard U8ToU32.put (Tokenizer.nextCodePoint b lib) (fun _ _ => True)
          (Tokenizer.Guard lib))
        Parser.Guard) fun _ => True := by
  have htokens : Safe (Tokenizer.nextCodePoint b lib) Tokenizer.Inv
      (fun t cp => Tokenizer.Guard lib t cp ∧ True) Tokenizer.Good :=
    fun t cp hinv hguard => Tokenizer.safe_nextCodePoint lawful t cp hinv hguard.1
  exact (U8ToU32.safe_put.pipe htokens).pipe Parser.safe_nextSymbol

/-- One call of `parser::read`. -/
theorem safe_read (lawful : lib.Lawful) :
    Safe (read b lib) Inv (Guard b lib) fun _ => True := by
  have hput : Safe (put b lib) _ (fun s c => _ ∧ True) _ :=
    fun s c hinv hguard => safe_put lawful s c hinv hguard.1
  intro r chunk hinv hguard
  obtain ⟨⟨bom, ⟨sanitizer, tokenizer⟩, parser⟩, os, hrun, ⟨-, hinv'⟩, -⟩ :=
    (Bom.safe_put.pipe hput).run (s := (.start r.counter, (r.sanitizer, r.tokenizer), r.parser))
      ⟨nofun, hinv⟩ hguard
  exact ⟨⟨bom.counter, sanitizer, tokenizer, parser⟩, os, by simp [read, hrun], hinv', by simp⟩

theorem inv_initial : initial.Inv := ⟨⟨Or.inl rfl, rfl⟩, rfl⟩

/-- However the input is cut into calls: where each symbol finds the stacks as it needs them,
no assertion fails, no exception leaves a call, and nothing is taken off an empty stack. -/
theorem read_safe (b : Build) (lib : Library) (lawful : lib.Lawful) (chunks : List Bytes)
    (h : Guarded (read b lib) (Guard b lib) initial chunks) :
    ∃ r os, Step.run (read b lib) initial chunks = .ok (r, os) ∧ r.Inv := by
  obtain ⟨r, os, hrun, hinv, -⟩ := (safe_read lawful).run inv_initial h
  exact ⟨r, os, hrun, hinv⟩

/-- `{"a":[1,null]}`, in two calls. -/
theorem read_safe_sample :
    ∃ r os, Step.run (read .debug .sample) initial
      [utf8 "\x7b\"a\":[1,".toList, utf8 "null]\x7d".toList] = .ok (r, os) ∧ r.Inv :=
  read_safe .debug .sample Library.lawful_sample _ (by decide +kernel)

/-- A single closing bracket. -/
theorem not_read_safe :
    Step.run (read .debug .sample) initial [utf8 "]".toList] =
        .error (.assertion "not enough parameters") ∧
      Step.run (read .release .sample) initial [utf8 "]".toList] =
        .error (.undefined "stack_.top()") := by
  decide +kernel

end Reader

end Json

end Cyng
