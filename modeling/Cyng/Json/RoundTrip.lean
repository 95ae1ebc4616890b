import Cyng.Json.Lexing
import Cyng.Json.Serializer

/-!
# The JSON round trip

What the parser makes of the text that the serializer writes for nulls, truth values, 64 bit
integers, strings, vectors and maps of parameters. A value comes back as it was under these
conditions: no container is empty, since those are written as `null`; no integer is zero, which
the tokenizer skips, and none is unsigned; and strings have only characters that the serializer
decodes and escapes in a way the tokenizer knows. The names of parameters, which are not
escaped, are taken to be plain throughout.
-/

namespace Cyng

open Theory Theory.Step Theory.Rfc8259

namespace Json

/-! ### Digits -/

/-- Hexadecimal digits are read as such, and are neither quotation marks nor backslashes. -/
theorem digitChar_spec {d : ℕ} (h : d < 16) :
    oneOf hexDigits (Nat.digitChar d).toNat = true ∧
      Tokenizer.hexDigit (Nat.digitChar d).toNat = d ∧
      U8ToU32.Decodes (Nat.digitChar d) := by
  revert d
  decide

theorem length_hex (c : ℕ) : 4 ≤ (hex c).length := by
  simp only [hex, List.length_append, List.length_replicate]
  omega

theorem length_hex_of_lt {c : ℕ} (h : c < 0x10000) : (hex c).length = 4 := by
  have hlength := (Nat.length_toDigits_le_iff (b := 16) (n := c) (k := 4) (by decide)
    (by decide)).mpr h
  simp only [hex, List.length_append, List.length_replicate]
  omega

theorem hexValue_append (cps : List ℕ) (cp : ℕ) :
    Tokenizer.hexValue (cps ++ [cp]) =
      Tokenizer.hexValue cps * 16 + Tokenizer.hexDigit cp := by
  simp [Tokenizer.hexValue]

theorem hexValue_toDigits (n : ℕ) : Tokenizer.hexValue (codes (Nat.toDigits 16 n)) = n := by
  induction n using Nat.strongRecOn with
  | ind n ih =>
    by_cases hn : n < 16
    · rw [Nat.toDigits_of_lt_base hn]
      simpa [Tokenizer.hexValue] using (digitChar_spec hn).2.1
    · have hle : 16 ≤ n := Nat.le_of_not_lt hn
      have hdigit := (digitChar_spec (Nat.mod_lt n (show 0 < 16 by decide))).2.1
      rw [Nat.toDigits_of_base_le (by decide) hle, codes_append, codes_cons, codes_nil,
        hexValue_append, ih (n / 16) (Nat.div_lt_self (by omega) (by decide)), hdigit]
      omega

/-- Zeros in front do not matter. -/
theorem hexValue_zeros (k : ℕ) (cps : List ℕ) :
    Tokenizer.hexValue (codes (List.replicate k '0') ++ cps) = Tokenizer.hexValue cps := by
  induction k with
  | zero => rfl
  | succ k ih =>
    rw [List.replicate_succ, codes_cons, List.cons_append]
    exact ih

/-- Leading zeros do not count. -/
theorem hexValue_hex (c : ℕ) : Tokenizer.hexValue (codes (hex c)) = c := by
  rw [hex, codes_append, hexValue_zeros, hexValue_toDigits]

/-- Four digits stay below the supplementary planes. -/
theorem hexValue_lt {cps : List ℕ} (hlength : cps.length = 4)
    (h : ∀ cp ∈ cps, Tokenizer.hexDigit cp < 16) : Tokenizer.hexValue cps < 0x10000 := by
  match cps, hlength with
  | [c, d, e, f], _ =>
    have hc := h c (by simp)
    have hd := h d (by simp)
    have he := h e (by simp)
    have hf := h f (by simp)
    simp only [Tokenizer.hexValue, List.foldl_cons, List.foldl_nil]
    omega

/-! ### Strings -/

/-- What arrives of a code point that is written in a string. -/
def arrives (c : ℕ) : List ℕ :=
  if c = 7 ∨ c = 11 ∨ c = 39 then []
  else if c < 0x10000 then [c]
  else Tokenizer.hexValue (codes ((hex c).take 4)) :: codes ((hex c).drop 4)

namespace Tokenizer

variable {b : Build} {lib : Library} {buffer rest : List ℕ} {result : Except Fault (List Symbol)}

/-- An escape with four or more digits: the first four are read as the code point. -/
theorem moves_hex (c : ℕ) :
    Moves (nextCodePoint b lib) ⟨.string, buffer⟩ (codes ('\\' :: 'u' :: hex c))
      ⟨.string, buffer ++ hexValue (codes ((hex c).take 4)) :: codes ((hex c).drop 4)⟩ := by
  have hdigits : ∀ cp ∈ codes (hex c), oneOf hexDigits cp = true ∧ hexDigit cp < 16 := by
    intro cp hcp
    obtain ⟨x, hx, rfl⟩ := List.mem_map.mp hcp
    obtain ⟨d, hd, rfl⟩ := mem_hex hx
    obtain ⟨hdigit, hvalue, -⟩ := digitChar_spec hd
    exact ⟨hdigit, by omega⟩
  have hsplit : hex c = (hex c).take 4 ++ (hex c).drop 4 := (List.take_append_drop 4 _).symm
  -- the scanner takes four digits, those left over are plain characters of the string
  have hrest : ∀ cp ∈ codes ((hex c).drop 4), cp ≠ '"'.toNat ∧ cp ≠ '\\'.toNat := by
    intro cp hcp
    have hdigit := (hdigits cp (by rw [hsplit, codes_append]; exact List.mem_append_right _ hcp)).1
    constructor <;> rintro rfl <;> cases hdigit
  have hlength : ((hex c).take 4).length = 4 := by
    rw [List.length_take]
    exact Nat.min_eq_left (length_hex c)
  match hfour : (hex c).take 4, hlength with
  | [w, x, y, z], _ =>
    have hunicode : Moves (nextCodePoint b lib) ⟨.string, buffer⟩
        ['\\'.toNat, 'u'.toNat, w.toNat, x.toNat, y.toNat, z.toNat]
        ⟨.string, buffer ++ [hexValue (codes [w, x, y, z])]⟩ := by
      refine moves_unicode fun cp hcp => (hdigits cp ?_).1
      rw [hsplit, hfour, codes_append]
      exact List.mem_append_left _ hcp
    have hall := hunicode.append (moves_plain hrest)
    rw [hsplit, hfour]
    simpa using hall

/-- The tokenizer reads what the serializer writes for a code point. -/
theorem moves_written (c : ℕ) :
    Moves (nextCodePoint b lib) ⟨.string, buffer⟩ (codes (escape c))
      ⟨.string, buffer ++ arrives c⟩ := by
  -- three of the escapes are not read as what they stand for
  have hdropped {x : ℕ} (h : stateEscape ⟨.escape, buffer⟩ x = (⟨.string, buffer⟩, [], true)) :
      Moves (nextCodePoint b lib) ⟨.string, buffer⟩ ['\\'.toNat, x] ⟨.string, buffer ++ []⟩ :=
    moves_escape (by rw [h, List.append_nil])
  unfold escape
  split
  · exact hdropped rfl
  · exact moves_escape rfl
  · exact moves_escape rfl
  · exact moves_escape rfl
  · exact moves_escape rfl
  · exact moves_escape rfl
  · exact hdropped rfl
  · exact moves_escape rfl
  · exact hdropped rfl
  · exact moves_escape rfl
  case h_11 h7 _ _ _ _ _ h11 h92 h39 h34 =>
    have hkept : ¬(c = 7 ∨ c = 11 ∨ c = 39) := by tauto
    split_ifs with hprintable
    · have hchar : (Char.ofNat c).toNat = c :=
        toNat_ofNat_of_valid (Or.inl (by omega))
      have harrives : arrives c = [c] := by
        rw [arrives, if_neg hkept, if_pos (by omega)]
      rw [harrives, codes_cons, codes_nil, hchar]
      refine moves_plain fun cp hcp => ?_
      obtain rfl := List.mem_singleton.mp hcp
      exact ⟨h34, h92⟩
    · -- the tokenizer takes four digits, the rest are characters
      have harrives : arrives c =
          hexValue (codes ((hex c).take 4)) :: codes ((hex c).drop 4) := by
        by_cases hsmall : c < 0x10000
        · have hlength := length_hex_of_lt hsmall
          rw [arrives, if_neg hkept, if_pos hsmall, List.take_of_length_le hlength.le,
            List.drop_of_length_le hlength.le, hexValue_hex]
          rfl
        · rw [arrives, if_neg hkept, if_neg hsmall]
      rw [harrives]
      exact moves_hex c

theorem moves_writtens (cps buffer : List ℕ) :
    Moves (nextCodePoint b lib) ⟨.string, buffer⟩ (codes (cps.flatMap escape))
      ⟨.string, buffer ++ cps.flatMap arrives⟩ := by
  induction cps generalizing buffer with
  | nil => simpa using Moves.nil
  | cons cp cps ih => simpa using (moves_written cp).append (ih (buffer ++ arrives cp))

end Tokenizer

/-! ### Strings that come back -/

section Stored

open U8ToU32

/-- What arrives of a character. -/
def storedOf (c : Char) : List ℕ := (decoded c).flatMap arrives

/-- Characters that arrive: they are decoded, have four hexadecimal digits, and their escape is
one of those the tokenizer knows. -/
def PlainChar (c : Char) : Prop :=
  Decodes c ∧ c.toNat < 0x10000 ∧ ¬(c.toNat = 7 ∨ c.toNat = 11 ∨ c.toNat = 39)

instance (c : Char) : Decidable (PlainChar c) := inferInstanceAs (Decidable (_ ∧ _))

theorem hexValue_append_lt (cps cps' : List ℕ)
    (h : ∀ cp ∈ cps', Tokenizer.hexDigit cp < 16) :
    Tokenizer.hexValue (cps ++ cps') < (Tokenizer.hexValue cps + 1) * 16 ^ cps'.length := by
  induction cps' using List.reverseRecOn with
  | nil => simp
  | append_singleton cps' cp ih =>
    have hhead := ih fun x hx => h x (List.mem_append_left _ hx)
    have hlast := h cp (by simp)
    rw [← List.append_assoc, hexValue_append, List.length_append, List.length_singleton, pow_succ,
      ← mul_assoc]
    omega

/-- The first four of five or more digits stand for a number of four digits. -/
theorem hexValue_take_hex {c : ℕ} (h : 0x10000 ≤ c) :
    0x1000 ≤ Tokenizer.hexValue (codes ((hex c).take 4)) ∧
      Tokenizer.hexValue (codes ((hex c).take 4)) < 0x10000 := by
  have hdigits : ∀ cp ∈ codes (hex c), Tokenizer.hexDigit cp < 16 := by
    intro cp hcp
    obtain ⟨x, hx, rfl⟩ := List.mem_map.mp hcp
    obtain ⟨d, hd, rfl⟩ := mem_hex hx
    exact lt_of_eq_of_lt (digitChar_spec hd).2.1 hd
  have hsplit : codes (hex c) = codes ((hex c).take 4) ++ codes ((hex c).drop 4) := by
    rw [← codes_append, List.take_append_drop]
  constructor
  · -- the number of digits bounds the value from below
    have hlength : (Nat.toDigits 16 c).length = (hex c).length := by
      have hnot : ¬(Nat.toDigits 16 c).length ≤ 4 := fun hle =>
        absurd ((Nat.length_toDigits_le_iff (by decide) (by decide)).mp hle) (by omega)
      simp only [hex, List.length_append, List.length_replicate]
      omega
    have hlow : 16 ^ ((hex c).length - 1) ≤ c := by
      have hnot : ¬(Nat.toDigits 16 c).length ≤ (hex c).length - 1 := by
        have := length_hex c
        omega
      have hpos : 0 < (hex c).length - 1 := by
        have := length_hex c
        omega
      exact not_lt.mp fun hlt => hnot ((Nat.length_toDigits_le_iff (by decide) hpos).mpr hlt)
    have hvalue := hexValue_append_lt (codes ((hex c).take 4)) (codes ((hex c).drop 4))
      fun cp hcp => hdigits cp (hsplit ▸ List.mem_append_right _ hcp)
    rw [← hsplit, hexValue_hex] at hvalue
    have hdrop : (codes ((hex c).drop 4)).length = (hex c).length - 4 := by simp [codes]
    have hpow : 16 ^ ((hex c).length - 1) = 0x1000 * 16 ^ ((hex c).length - 4) := by
      have hsub : (hex c).length - 1 = 3 + ((hex c).length - 4) := by
        have := length_hex c
        omega
      rw [hsub, pow_add]
      norm_num
    rw [hpow] at hlow
    rw [hdrop] at hvalue
    have hlt := lt_of_mul_lt_mul_right (hlow.trans_lt hvalue) (Nat.zero_le _)
    omega
  · refine hexValue_lt ?_ fun cp hcp => hdigits cp (hsplit ▸ List.mem_append_left _ hcp)
    simpa [codes] using length_hex c

theorem storedOf_of_plain {c : Char} (h : PlainChar c) : storedOf c = [c.toNat] := by
  obtain ⟨hdecodes, hsmall, hkept⟩ := h
  simp [storedOf, decoded, hdecodes, arrives, hkept, hsmall]

/-- A character that does not arrive is dropped, or something else comes first. -/
theorem storedOf_of_not_plain {c : Char} (h : ¬PlainChar c) :
    (storedOf c = [] ∧ (c.toNat = 7 ∨ c.toNat = 11 ∨ c.toNat = 39)) ∨
      ∃ x xs, storedOf c = x :: xs ∧ x ≠ c.toNat ∧ ¬(x = 7 ∨ x = 11 ∨ x = 39) := by
  by_cases hdecodes : Decodes c
  · by_cases hdropped : c.toNat = 7 ∨ c.toNat = 11 ∨ c.toNat = 39
    · exact Or.inl ⟨by simp [storedOf, decoded, hdecodes, arrives, hdropped], hdropped⟩
    · have hlarge : 0x10000 ≤ c.toNat := not_lt.mp fun hsmall => h ⟨hdecodes, hsmall, hdropped⟩
      obtain ⟨hlow, hhigh⟩ := hexValue_take_hex hlarge
      refine Or.inr ⟨Tokenizer.hexValue (codes ((hex c.toNat).take 4)),
        codes ((hex c.toNat).drop 4), ?_, by omega, by omega⟩
      simp [storedOf, decoded, hdecodes, arrives, hdropped, not_lt.mpr hlarge]
  · have hblock : 0x400 ≤ c.toNat ∧ c.toNat < 0x800 := by
      simpa [Decodes, not_or] using hdecodes
    refine Or.inr ⟨c.toNat / 64 + 0x40, arrives (c.toNat % 64), ?_, by omega, by omega⟩
    have hkept : ¬(c.toNat / 64 + 64 = 7 ∨ c.toNat / 64 + 64 = 11 ∨ c.toNat / 64 + 64 = 39) := by
      omega
    have hsmall : c.toNat / 64 + 64 < 65536 := by omega
    have harrives : arrives (c.toNat / 64 + 0x40) = [c.toNat / 64 + 0x40] := by
      rw [arrives, if_neg hkept, if_pos hsmall]
    simp [storedOf, decoded, hdecodes, harrives]

/-- What arrives never begins with a code point that is dropped. -/
theorem head_stored {cs : List Char} {x : ℕ} {xs : List ℕ} (h : cs.flatMap storedOf = x :: xs) :
    ¬(x = 7 ∨ x = 11 ∨ x = 39) := by
  induction cs with
  | nil => cases h
  | cons c cs ih =>
    rw [List.flatMap_cons] at h
    by_cases hplain : PlainChar c
    · rw [storedOf_of_plain hplain, List.singleton_append] at h
      rw [← (List.cons.inj h).1]
      exact hplain.2.2
    · rcases storedOf_of_not_plain hplain with ⟨hempty, -⟩ | ⟨y, ys, hhead, -, hy⟩
      · rw [hempty, List.nil_append] at h
        exact ih h
      · rw [hhead, List.cons_append] at h
        rw [← (List.cons.inj h).1]
        exact hy

/-- A string comes back as it was exactly when all of its characters arrive. -/
theorem stored_eq_codes_iff {cs : List Char} :
    cs.flatMap storedOf = codes cs ↔ ∀ c ∈ cs, PlainChar c := by
  induction cs with
  | nil => simp
  | cons c cs ih =>
    rw [List.flatMap_cons, codes_cons, List.forall_mem_cons, ← ih]
    by_cases hplain : PlainChar c
    · simp [storedOf_of_plain hplain, hplain]
    · refine iff_of_false (fun h => ?_) fun h => hplain h.1
      rcases storedOf_of_not_plain hplain with ⟨hempty, hdropped⟩ | ⟨x, xs, hhead, hx, -⟩
      · rw [hempty, List.nil_append] at h
        exact head_stored h hdropped
      · rw [hhead, List.cons_append] at h
        exact hx (List.cons.inj h).1

end Stored

/-! ### Integers -/

theorem exists_whole {n : ℕ} (hn : 0 < n) :
    ∃ first rest, (Whole.positive first rest).digits.map Digit.char = Nat.toDigits 10 n ∧
      natOf (Whole.positive first rest).digits = n := by
  induction n using Nat.strongRecOn with
  | ind n ih =>
    by_cases hsmall : n < 10
    · refine ⟨⟨n - 1, by omega⟩, [], ?_, ?_⟩
      · have hdigit : n - 1 + 1 = n := Nat.sub_add_cancel hn
        simp [Whole.digits, Digit.char, Nat.toDigits_of_lt_base hsmall, hdigit]
      · simp only [Whole.digits, natOf, List.foldl_cons, List.foldl_nil, Fin.val_succ]
        omega
    · have hle : 10 ≤ n := Nat.le_of_not_lt hsmall
      obtain ⟨first, rest, htext, hvalue⟩ := ih (n / 10)
        (Nat.div_lt_self hn (by decide)) (Nat.div_pos hle (by decide))
      refine ⟨first, rest ++ [⟨n % 10, Nat.mod_lt _ (by decide)⟩], ?_, ?_⟩
      · rw [Nat.toDigits_of_base_le (by decide) hle, ← htext]
        simp [Whole.digits, Digit.char]
      · simp only [Whole.digits] at hvalue ⊢
        rw [← List.cons_append, Number.natOf_append, hvalue]
        exact Nat.div_add_mod n 10

/-- All integers but zero are written as numbers that the tokenizer stores. -/
theorem exists_number {n : ℤ} (hn : n ≠ 0) :
    ∃ m : Number, m.text = decimal n ∧ m.IsInteger ∧ m.toInt = n ∧ Stored m := by
  obtain ⟨first, rest, htext, hvalue⟩ := exists_whole (Int.natAbs_pos.mpr hn)
  refine ⟨⟨decide (n < 0), .positive first rest, none, none⟩, ?_, ⟨rfl, rfl⟩, ?_,
    Or.inr (by simp)⟩
  · by_cases hneg : n < 0 <;>
      simp [Number.text, Number.minusText, Number.wholeText, Number.fracText, Number.expText,
        decimal, hneg, htext]
  · simp only [Number.toInt, decide_eq_true_eq, hvalue]
    omega

/-- The symbol that an integer becomes. -/
def intAtom (n : ℤ) : Atom := if n = 0 then .float [] else .number (utf8 (decimal n))

theorem decimal_zero : decimal 0 = ['0'] := by decide

theorem allDecode_decimal (n : ℤ) : AllDecode (decimal n) := by
  by_cases hn : n = 0
  · subst hn
    simp [decimal_zero, U8ToU32.Decodes]
  · obtain ⟨m, htext, -⟩ := exists_number hn
    rw [← htext]
    exact AllDecode.number m

namespace Tokenizer

variable {b : Build} {lib : Library} {buffer rest : List ℕ} {result : Except Fault (List Symbol)}

/-- After the zero that was skipped, a delimiter is refused twice. -/
theorem ends_zero (hlib : lib.Lawful) :
    Ends b lib ⟨.exponent, []⟩ (Atom.float []).toSymbol := by
  intro cp hcp
  obtain ⟨syms, hinitial⟩ := @nextCodePoint_delimiter b lib _ hcp
  have hdigits : oneOf digits cp = false ∧ oneOf ['-', '+'] cp = false := by
    rcases isDelimiter_iff.mp hcp with rfl | rfl | rfl | rfl | rfl | rfl | rfl <;> decide
  have hexponent : put b lib ⟨.exponent, []⟩ cp = .ok (⟨.digits, []⟩, [], false) := by
    simp [put, stateExponent, hdigits]
  have hempty : makeSymbol lib .float [] = .ok ⟨.float, []⟩ := makeSymbol_codes hlib .float []
  have hfinish : put b lib ⟨.digits, []⟩ cp =
      .ok (initial, [(Atom.float []).toSymbol], false) := by
    simp [put, stateDigits, finish, hdigits, hempty, Atom.float]
  refine ⟨syms, hinitial, replay_of_refused hexponent (replay_of_refused hfinish ?_)⟩
  rw [nextCodePoint_initial] at hinitial
  exact (replay_of_taken (put_initial cp)).trans hinitial

theorem emits_decimal (hlib : lib.Lawful) (n : ℤ) (hdelimited : Delimited rest)
    (hrest : Emits b lib rest result) :
    Emits b lib (codes (decimal n) ++ rest) (result.map ((intAtom n).toSymbol :: ·)) := by
  by_cases hn : n = 0
  · subst hn
    have hpiece : Moves (nextCodePoint b lib) initial (codes (decimal 0)) ⟨.exponent, []⟩ :=
      Moves.single nextCodePoint_initial
    exact Emits.ended hpiece (ends_zero hlib) hdelimited hrest
  · obtain ⟨m, htext, hint, -, hstored⟩ := exists_number hn
    have hatom : numberAtom m = intAtom n := by
      simp [numberAtom, hint, intAtom, hn, Number.withFraction_of_isInteger hint, htext]
    have hemits := emits_number hlib hstored hdelimited hrest
    rwa [htext, hatom] at hemits

end Tokenizer

/-! ### Pieces of text -/

theorem allDecode_escape (c : ℕ) : AllDecode (escape c) := by
  unfold escape
  split
  case h_11 =>
    split_ifs with hprintable
    · have hchar : (Char.ofNat c).toNat = c := toNat_ofNat_of_valid (Or.inl (by omega))
      have hdecodes : U8ToU32.Decodes (Char.ofNat c) := Or.inl (by rw [hchar]; omega)
      simp [hdecodes]
    · have hdigits : AllDecode (hex c) := by
        intro x hx
        obtain ⟨d, hd, rfl⟩ := mem_hex hx
        exact (digitChar_spec hd).2.2
      have hescape : U8ToU32.Decodes '\\' ∧ U8ToU32.Decodes 'u' := by decide
      simp [hdigits, hescape]
  all_goals simp [U8ToU32.Decodes]

/-- Characters of a name that need no escape and are decoded. -/
def PlainName (k : Char) : Prop := U8ToU32.Decodes k ∧ k ≠ '"' ∧ k ≠ '\\'

instance (k : Char) : Decidable (PlainName k) := inferInstanceAs (Decidable (_ ∧ _))

/-- Symbols after symbols; the first fault counts. -/
def follow (x y : Except Fault (List Symbol)) : Except Fault (List Symbol) := do
  let syms ← x
  let syms' ← y
  return syms ++ syms'

theorem follow_assoc (x y z : Except Fault (List Symbol)) :
    follow (follow x y) z = follow x (follow y z) := by
  cases x <;> cases y <;> cases z <;> simp [follow]

theorem map_cons_eq_follow (sym : Symbol) (y : Except Fault (List Symbol)) :
    y.map (sym :: ·) = follow (.ok [sym]) y := by
  cases y <;> rfl

@[simp] theorem follow_nil (y : Except Fault (List Symbol)) : follow (.ok []) y = y := by
  cases y <;> rfl

/-- No condition on the text that follows. -/
def Anything : List ℕ → Prop := fun _ => True

/-- A piece of text: it can be decoded, and before a text of one kind it gives a text of another
kind, with its own symbols in front. -/
def Reads (b : Build) (lib : Library) (pre post : List ℕ → Prop) (text : Bytes)
    (x : Except Fault (List Symbol)) : Prop :=
  ∃ cs, text = utf8 cs ∧ AllDecode cs ∧ ∀ rest result, pre rest →
    Tokenizer.Emits b lib rest result →
      post (codes cs ++ rest) ∧ Tokenizer.Emits b lib (codes cs ++ rest) (follow x result)

namespace Reads

open Tokenizer

variable {b : Build} {lib : Library} {pre mid post : List ℕ → Prop} {text text' : Bytes}
  {x x' : Except Fault (List Symbol)}

theorem append (h : Reads b lib mid post text x) (h' : Reads b lib pre mid text' x') :
    Reads b lib pre post (text ++ text') (follow x x') := by
  obtain ⟨cs, rfl, hdecode, hreads⟩ := h
  obtain ⟨cs', rfl, hdecode', hreads'⟩ := h'
  refine ⟨cs ++ cs', (utf8_append cs cs').symm, AllDecode.append_iff.mpr ⟨hdecode, hdecode'⟩, ?_⟩
  intro rest result hpre hrest
  obtain ⟨hmid, hrest'⟩ := hreads' rest result hpre hrest
  rw [codes_append, List.append_assoc, follow_assoc]
  exact hreads _ _ hmid hrest'

/-- What needs nothing can stand before a delimiter. -/
theorem before (h : Reads b lib Anything post text x) : Reads b lib Delimited post text x := by
  obtain ⟨cs, htext, hdecode, hreads⟩ := h
  exact ⟨cs, htext, hdecode, fun rest result _ => hreads rest result trivial⟩

/-- The kind of the whole text need not be known. -/
theorem anyway (h : Reads b lib pre post text x) : Reads b lib pre Anything text x := by
  obtain ⟨cs, htext, hdecode, hreads⟩ := h
  exact ⟨cs, htext, hdecode, fun rest result hpre hrest =>
    ⟨trivial, (hreads rest result hpre hrest).2⟩⟩

theorem nil : Reads b lib Delimited Delimited [] (.ok []) :=
  ⟨[], rfl, AllDecode.nil, fun _ result hdelimited hrest =>
    ⟨hdelimited, (follow_nil result).symm ▸ hrest⟩⟩

/-- An opening bracket or a colon. -/
theorem punctuation {c : Char} (hc : c ∈ structural) :
    Reads b lib Anything Anything (utf8 [c]) (.ok [Json.punctuation c]) := by
  have hdecodes : U8ToU32.Decodes c := by fin_cases hc <;> decide
  refine ⟨[c], rfl, by simp [hdecodes], fun rest result _ hrest => ⟨trivial, ?_⟩⟩
  rw [← map_cons_eq_follow]
  exact emits_punctuation hc hrest

/-- A comma or a closing bracket is a delimiter. -/
theorem delimiter {c : Char} (hc : c ∈ [',', ']', '}']) :
    Reads b lib Anything Delimited (utf8 [c]) (.ok [Json.punctuation c]) := by
  have hstructural : c ∈ structural := by fin_cases hc <;> decide
  obtain ⟨cs, htext, hdecode, hreads⟩ := @punctuation b lib _ hstructural
  obtain rfl := utf8_injective htext
  exact ⟨[c], rfl, hdecode, fun rest result hpre hrest =>
    ⟨delimited_punctuation hc, (hreads rest result hpre hrest).2⟩⟩

theorem blank : Reads b lib Anything Anything (utf8 [' ']) (.ok []) := by
  refine ⟨[' '], rfl, by simp [U8ToU32.Decodes], fun rest result _ hrest => ⟨trivial, ?_⟩⟩
  rw [follow_nil]
  exact emits_blanks [.space] hrest

theorem null (hlib : lib.Lawful) : Reads b lib Delimited Anything (utf8 "null".toList)
    (.ok [(Atom.nothing (utf8 "null".toList)).toSymbol]) := by
  refine ⟨_, rfl, by simp [U8ToU32.Decodes], fun rest result hpre hrest => ⟨trivial, ?_⟩⟩
  rw [← map_cons_eq_follow]
  exact emits_null hlib hpre hrest

theorem bool (hlib : lib.Lawful) (v : Bool) : Reads b lib Delimited Anything (utf8 (boolText v))
    (.ok [(Atom.boolean (utf8 (boolText v))).toSymbol]) := by
  refine ⟨_, rfl, by cases v <;> simp [boolText, U8ToU32.Decodes],
    fun rest result hpre hrest => ⟨trivial, ?_⟩⟩
  rw [← map_cons_eq_follow]
  exact emits_bool hlib v hpre hrest

theorem int (hlib : lib.Lawful) (n : ℤ) : Reads b lib Delimited Anything (utf8 (decimal n))
    (.ok [(intAtom n).toSymbol]) := by
  refine ⟨_, rfl, allDecode_decimal n, fun rest result hpre hrest => ⟨trivial, ?_⟩⟩
  rw [← map_cons_eq_follow]
  exact emits_decimal hlib n hpre hrest

/-- Quotation marks around something that the tokenizer stores. -/
theorem quoted {body : List Char} {stored : List ℕ} (hbody : AllDecode body)
    (hquiet : Moves (nextCodePoint b lib) ⟨.string, []⟩ (codes body) ⟨.string, stored⟩) :
    Reads b lib Anything Anything (utf8 ('"' :: body ++ ['"'])) (do
      let sym ← makeSymbol lib .string stored
      return [sym]) := by
  refine ⟨_, rfl, by simp [hbody, U8ToU32.Decodes], fun rest result _ hrest => ⟨trivial, ?_⟩⟩
  have hemits := emits_string hquiet hrest
  have hfollow : (follow (do
      let sym ← makeSymbol lib .string stored
      return [sym]) result) = (do
      let sym ← makeSymbol lib .string stored
      let syms ← result
      return sym :: syms) := by
    cases makeSymbol lib .string stored <;> rfl
  rw [hfollow]
  simpa using hemits

/-- A string, of which some code points arrive. -/
theorem string (cps : List ℕ) :
    Reads b lib Anything Anything (utf8 ('"' :: cps.flatMap escape ++ ['"'])) (do
      let sym ← makeSymbol lib .string (cps.flatMap arrives)
      return [sym]) := by
  refine quoted (fun c hc => ?_) ?_
  · obtain ⟨cp, -, hc⟩ := List.mem_flatMap.mp hc
    exact allDecode_escape cp c hc
  · simpa using moves_writtens cps []

/-- A name that is written as it is. -/
theorem name (hlib : lib.Lawful) {ks : List Char} (hks : ∀ k ∈ ks, PlainName k) :
    Reads b lib Anything Anything (utf8 ('"' :: ks ++ ['"']))
      (.ok [(Atom.string (utf8 ks)).toSymbol]) := by
  have hquiet : Moves (nextCodePoint b lib) ⟨.string, []⟩ (codes ks) ⟨.string, codes ks⟩ := by
    refine moves_plain fun cp hcp => ?_
    obtain ⟨k, hk, rfl⟩ := List.mem_map.mp hcp
    obtain ⟨-, hquote, hbackslash⟩ := hks k hk
    exact ⟨fun heq => hquote (Char.toNat_inj.mp heq),
      fun heq => hbackslash (Char.toNat_inj.mp heq)⟩
  have hquoted := quoted (fun k hk => (hks k hk).1) hquiet
  rwa [makeSymbol_codes hlib] at hquoted

end Reads

/-! ### Objects of the kind in question -/

section Trees

variable (name : Bytes → Prop) (leaf : Scalar → Prop) (count : ℕ → Prop)

mutual

/-- Vectors and maps of parameters over leaves, with conditions on the names, on the leaves and
on the number of elements. -/
def JsonTree : Obj → Prop
  | .scalar v => leaf v
  | .seq .vector items => count items.length ∧ jsonItems items
  | .map .name entries => count entries.length ∧ OrderedMap.Sorted entries ∧ jsonEntries entries
  | _ => False

def jsonItems : List Obj → Prop
  | [] => True
  | item :: items => JsonTree item ∧ jsonItems items

def jsonEntries : List (Key × Obj) → Prop
  | [] => True
  | (key, value) :: entries =>
    (∃ n, key = .name n ∧ name n) ∧ JsonTree value ∧ jsonEntries entries

end

end Trees

/-- Nulls, truth values, 64 bit integers and strings of characters. -/
inductive JsonLeaf : Scalar → Prop
  | null : JsonLeaf .null
  | bool (v : Bool) : JsonLeaf (.bool v)
  | int64 (v : BitVec 64) : JsonLeaf (.int .int64 v)
  | uint64 (v : BitVec 64) : JsonLeaf (.int .uint64 v)
  | string (cs : List Char) : JsonLeaf (.string (utf8 cs))

/-- Leaves that come back as they were. -/
inductive FaithfulLeaf : Scalar → Prop
  | null : FaithfulLeaf .null
  | bool (v : Bool) : FaithfulLeaf (.bool v)
  | int64 (v : BitVec 64) (h : v ≠ 0) : FaithfulLeaf (.int .int64 v)
  | string (cs : List Char) (h : ∀ c ∈ cs, PlainChar c) : FaithfulLeaf (.string (utf8 cs))

/-- A name of plain characters. -/
def IsPlainName (n : Bytes) : Prop := ∃ ks, n = utf8 ks ∧ ∀ k ∈ ks, PlainName k

/-- Objects whose text can be asked to be read back, with plain names. -/
def IsJson : Obj → Prop := JsonTree IsPlainName JsonLeaf fun _ => True

/-- Objects that come back as they were. -/
def Faithful : Obj → Prop := JsonTree IsPlainName FaithfulLeaf fun count => 0 < count

/-! ### What is read where an object was written -/

section Written

variable (b : Build) (lib : Library)

/-- The symbol of an empty container, too. -/
def nullDoc : Doc := .atom (.nothing (utf8 "null".toList))

mutual

def writtenDoc : Obj → Except Fault Doc
  | .scalar (.bool v) => .ok (.atom (.boolean (utf8 (boolText v))))
  | .scalar (.int ty v) => .ok (.atom (intAtom (intValue ty v)))
  | .scalar (.string str) => do
    let cps ← U8ToU32.codePoints b str
    let sym ← Tokenizer.makeSymbol lib .string (cps.flatMap arrives)
    return .atom (.string sym.value)
  | .seq .vector items =>
    if items = [] then .ok nullDoc else (writtenItems items).map .array
  | .map .name entries =>
    if entries = [] then .ok nullDoc else (writtenEntries entries).map .object
  | _ => .ok nullDoc

def writtenItems : List Obj → Except Fault (List Doc)
  | [] => .ok []
  | item :: items => do
    let d ← writtenDoc item
    let ds ← writtenItems items
    return d :: ds

def writtenEntries : List (Key × Obj) → Except Fault (List (Bytes × Doc))
  | [] => .ok []
  | (key, value) :: entries => do
    let d ← writtenDoc value
    let ms ← writtenEntries entries
    return (nameOf key, d) :: ms

end

end Written

section Reading

open Tokenizer (Delimited)

variable {b : Build} {lib : Library} {other : Obj → Bytes}

theorem braces_of_isJson {o : Obj} (ho : IsJson o) (text : Bytes) : braces o text = text := by
  refine if_neg ?_
  match o, ho with
  | .scalar v, (hv : JsonLeaf v) =>
    cases hv <;> simp [Obj.typeCode, Scalar.typeCode, IntType.typeCode]
  | .seq .vector items, _ => simp [Obj.typeCode, SeqKind.typeCode]
  | .map .name entries, _ => simp [Obj.typeCode, KeyKind.mapCode]

/-! ### The text is read as these symbols -/

theorem reads_leaf (hlib : lib.Lawful) {v : Scalar} (hv : JsonLeaf v) {text : Bytes}
    (h : write b other (.scalar v) = .ok text) :
    Reads b lib Delimited Anything text ((writtenDoc b lib (.scalar v)).map Doc.symbols) := by
  cases hv with
  | null =>
    obtain rfl := Except.ok.inj h
    exact Reads.null hlib
  | bool v =>
    obtain rfl := Except.ok.inj h
    exact Reads.bool hlib v
  | int64 v =>
    obtain rfl := Except.ok.inj h
    exact Reads.int hlib _
  | uint64 v =>
    obtain rfl := Except.ok.inj h
    exact Reads.int hlib _
  | string cs =>
    obtain ⟨cps, hcps, htext⟩ := bind_eq_ok_iff.mp h
    obtain rfl := Except.ok.inj htext
    have hstring := (@Reads.string b lib cps).before
    have hsymbols : (writtenDoc b lib (.scalar (.string (utf8 cs)))).map Doc.symbols = (do
        let sym ← Tokenizer.makeSymbol lib .string (cps.flatMap arrives)
        return [sym]) := by
      simp only [writtenDoc, hcps, ok_bind, Tokenizer.makeSymbol]
      cases lib.u32ToU8 (cps.flatMap arrives) <;> rfl
    rwa [hsymbols]

/-- Brackets around the items of a vector. -/
theorem reads_vector {text : Bytes} {items : List Obj}
    (hitems : Reads b lib Delimited Anything text ((writtenItems b lib items).map itemsSymbols)) :
    Reads b lib Anything Anything (utf8 ['['] ++ text ++ utf8 [']'])
      (((writtenItems b lib items).map Doc.array).map Doc.symbols) := by
  have hopen := @Reads.punctuation b lib '[' (by decide)
  have hclose := @Reads.delimiter b lib ']' (by decide)
  have hall := (hopen.append hitems).append hclose
  have hsymbols : follow (follow (.ok [punctuation '[']) ((writtenItems b lib items).map
      itemsSymbols)) (.ok [punctuation ']']) =
      ((writtenItems b lib items).map Doc.array).map Doc.symbols := by
    cases writtenItems b lib items <;> rfl
  rwa [hsymbols] at hall

/-- Braces around the members of a map. -/
theorem reads_paramMap {text : Bytes} {entries : List (Key × Obj)}
    (hentries : Reads b lib Delimited Anything text
      ((writtenEntries b lib entries).map membersSymbols)) :
    Reads b lib Anything Anything (utf8 ['{'] ++ text ++ utf8 ['}'])
      (((writtenEntries b lib entries).map Doc.object).map Doc.symbols) := by
  have hopen := @Reads.punctuation b lib '{' (by decide)
  have hclose := @Reads.delimiter b lib '}' (by decide)
  have hall := (hopen.append hentries).append hclose
  have hsymbols : follow (follow (.ok [punctuation '{']) ((writtenEntries b lib entries).map
      membersSymbols)) (.ok [punctuation '}']) =
      ((writtenEntries b lib entries).map Doc.object).map Doc.symbols := by
    cases writtenEntries b lib entries <;> rfl
  rwa [hsymbols] at hall

/-- A name, a colon and a value. -/
theorem reads_entry (hlib : lib.Lawful) {ks : List Char} (hks : ∀ k ∈ ks, PlainName k)
    {text : Bytes} {x : Except Fault (List Symbol)}
    (hvalue : Reads b lib Delimited Anything text x) :
    Reads b lib Delimited Anything (utf8 ['"'] ++ utf8 ks ++ utf8 ['"', ':'] ++ text)
      (follow (.ok [(Atom.string (utf8 ks)).toSymbol, punctuation ':']) x) := by
  have hcolon := @Reads.punctuation b lib ':' (by decide)
  have hall := ((Reads.name hlib hks).append hcolon).append hvalue
  simpa [follow] using hall

/-- The pieces of two items. -/
theorem follow_items (item : Obj) (items : List Obj) :
    follow ((writtenDoc b lib item).map Doc.symbols)
        ((writtenItems b lib items).map furtherItems) =
      (writtenItems b lib (item :: items)).map itemsSymbols := by
  rw [writtenItems]
  cases writtenDoc b lib item with
  | error e => rfl
  | ok d => cases writtenItems b lib items <;> rfl

theorem follow_comma_items (item : Obj) (items : List Obj) :
    follow (.ok [punctuation ',']) ((writtenItems b lib (item :: items)).map itemsSymbols) =
      (writtenItems b lib (item :: items)).map furtherItems := by
  rw [writtenItems]
  cases writtenDoc b lib item with
  | error e => rfl
  | ok d => cases writtenItems b lib items <;> rfl

theorem follow_entries (key : Key) (value : Obj) (entries : List (Key × Obj)) :
    follow (follow (.ok [(Atom.string (nameOf key)).toSymbol, punctuation ':'])
        ((writtenDoc b lib value).map Doc.symbols))
        ((writtenEntries b lib entries).map furtherMembers) =
      (writtenEntries b lib ((key, value) :: entries)).map membersSymbols := by
  rw [writtenEntries]
  cases writtenDoc b lib value with
  | error e => rfl
  | ok d => cases writtenEntries b lib entries <;> rfl

theorem follow_comma_entries (key : Key) (value : Obj) (entries : List (Key × Obj)) :
    follow (.ok [punctuation ','])
        ((writtenEntries b lib ((key, value) :: entries)).map membersSymbols) =
      (writtenEntries b lib ((key, value) :: entries)).map furtherMembers := by
  rw [writtenEntries]
  cases writtenDoc b lib value with
  | error e => rfl
  | ok d => cases writtenEntries b lib entries <;> rfl

mutual

/-- The text of an object is read as its symbols, where a delimiter follows. -/
theorem reads_write (hlib : lib.Lawful) (o : Obj) (ho : IsJson o) (text : Bytes)
    (h : write b other o = .ok text) :
    Reads b lib Delimited Anything text ((writtenDoc b lib o).map Doc.symbols) := by
  match o, ho with
  | .scalar v, (hv : JsonLeaf v) => exact reads_leaf hlib hv h
  | .seq .vector items, ⟨_, hitems⟩ =>
    rw [write] at h
    rw [writtenDoc]
    split_ifs at h ⊢ with hempty
    · obtain rfl := Except.ok.inj h
      exact Reads.null hlib
    · obtain ⟨inner, hinner, htext⟩ := bind_eq_ok_iff.mp h
      obtain rfl := Except.ok.inj htext
      exact (reads_vector (reads_writeItems hlib items hitems inner hinner)).before
  | .map .name entries, ⟨_, _, hentries⟩ =>
    rw [write] at h
    rw [writtenDoc]
    split_ifs at h ⊢ with hempty
    · obtain rfl := Except.ok.inj h
      exact Reads.null hlib
    · obtain ⟨inner, hinner, htext⟩ := bind_eq_ok_iff.mp h
      obtain rfl := Except.ok.inj htext
      exact (reads_paramMap (reads_writeEntries hlib entries hentries inner hinner)).before

theorem reads_writeItems (hlib : lib.Lawful) (items : List Obj)
    (hitems : jsonItems IsPlainName JsonLeaf (fun _ => True) items) (text : Bytes)
    (h : writeItems b other true false items = .ok text) :
    Reads b lib Delimited Anything text ((writtenItems b lib items).map itemsSymbols) := by
  match items with
  | [] =>
    obtain rfl := Except.ok.inj h
    exact Reads.nil.anyway
  | item :: items =>
    obtain ⟨hitem, hrest⟩ := hitems
    obtain ⟨head, hhead, h⟩ := bind_eq_ok_iff.mp h
    obtain ⟨tail, htail, h⟩ := bind_eq_ok_iff.mp h
    obtain rfl := Except.ok.inj h
    have hfirst := reads_write hlib item hitem head hhead
    have hmore := reads_furtherItems hlib items hrest tail htail
    rw [← follow_items]
    simpa [braces_of_isJson hitem] using hfirst.append hmore

theorem reads_furtherItems (hlib : lib.Lawful) (items : List Obj)
    (hitems : jsonItems IsPlainName JsonLeaf (fun _ => True) items) (text : Bytes)
    (h : writeItems b other true true items = .ok text) :
    Reads b lib Delimited Delimited text ((writtenItems b lib items).map furtherItems) := by
  match items with
  | [] =>
    obtain rfl := Except.ok.inj h
    exact Reads.nil
  | item :: items =>
    obtain ⟨hitem, hrest⟩ := hitems
    obtain ⟨head, hhead, h⟩ := bind_eq_ok_iff.mp h
    obtain ⟨tail, htail, h⟩ := bind_eq_ok_iff.mp h
    obtain rfl := Except.ok.inj h
    have hcomma := @Reads.delimiter b lib ',' (by decide)
    have hfirst := reads_write hlib item hitem head hhead
    have hmore := reads_furtherItems hlib items hrest tail htail
    have hall := (hcomma.append Reads.blank).append (hfirst.append hmore)
    rw [follow_items, follow_assoc, follow_nil, follow_comma_items] at hall
    simpa [braces_of_isJson hitem] using hall

theorem reads_writeEntries (hlib : lib.Lawful) (entries : List (Key × Obj))
    (hentries : jsonEntries IsPlainName JsonLeaf (fun _ => True) entries) (text : Bytes)
    (h : writeEntries b other false entries = .ok text) :
    Reads b lib Delimited Anything text ((writtenEntries b lib entries).map membersSymbols) := by
  match entries with
  | [] =>
    obtain rfl := Except.ok.inj h
    exact Reads.nil.anyway
  | (key, value) :: entries =>
    obtain ⟨⟨_, rfl, ks, rfl, hks⟩, hvalue, hrest⟩ := hentries
    obtain ⟨head, hhead, h⟩ := bind_eq_ok_iff.mp h
    obtain ⟨tail, htail, h⟩ := bind_eq_ok_iff.mp h
    obtain rfl := Except.ok.inj h
    have hfirst := reads_entry hlib hks (reads_write hlib value hvalue head hhead)
    have hmore := reads_furtherEntries hlib entries hrest tail htail
    rw [← follow_entries]
    simpa [nameOf] using hfirst.append hmore

theorem reads_furtherEntries (hlib : lib.Lawful) (entries : List (Key × Obj))
    (hentries : jsonEntries IsPlainName JsonLeaf (fun _ => True) entries) (text : Bytes)
    (h : writeEntries b other true entries = .ok text) :
    Reads b lib Delimited Delimited text ((writtenEntries b lib entries).map furtherMembers) := by
  match entries with
  | [] =>
    obtain rfl := Except.ok.inj h
    exact Reads.nil
  | (key, value) :: entries =>
    obtain ⟨⟨_, rfl, ks, rfl, hks⟩, hvalue, hrest⟩ := hentries
    obtain ⟨head, hhead, h⟩ := bind_eq_ok_iff.mp h
    obtain ⟨tail, htail, h⟩ := bind_eq_ok_iff.mp h
    obtain rfl := Except.ok.inj h
    have hcomma := @Reads.delimiter b lib ',' (by decide)
    have hfirst := reads_entry hlib hks (reads_write hlib value hvalue head hhead)
    have hmore := reads_furtherEntries hlib entries hrest tail htail
    have hall := hcomma.append (hfirst.append hmore)
    rw [← follow_comma_entries, ← follow_entries]
    simpa [nameOf] using hall

end

end Reading

/-! ### Objects that come back -/

section Objects

variable {b : Build} {lib : Library} {other : Obj → Bytes}

theorem obj_intAtom (hlib : lib.Lawful) {v : BitVec 64} (hv : v ≠ 0) :
    (intAtom v.toInt).obj lib = .scalar (.int .int64 v) := by
  have hn : v.toInt ≠ 0 := fun h => hv (BitVec.toInt_inj.mp (h.trans BitVec.toInt_zero.symm))
  obtain ⟨m, htext, hint, hvalue, -⟩ := exists_number hn
  have hlow : -2 ^ 63 ≤ m.toInt := hvalue ▸ BitVec.le_toInt v
  have hhigh : m.toInt < 2 ^ 63 := hvalue ▸ BitVec.toInt_lt
  have hcast := hlib.castInt64_integer m hint hlow hhigh
  rw [htext, hvalue, BitVec.ofInt_toInt] at hcast
  simp [intAtom, hn, Atom.number, Atom.obj, hcast]

/-- Zero does not come back as an integer. -/
theorem obj_intAtom_zero (ty : IntType) (v : BitVec (8 * ty.size)) :
    (intAtom 0).obj lib ≠ .scalar (.int ty v) := by
  have hatom : intAtom 0 = Atom.float [] := if_pos rfl
  rw [hatom]
  cases h : lib.castDouble [] <;> simp [Atom.float, Atom.obj, h]

/-- Nothing comes back as an unsigned integer. -/
theorem obj_intAtom_ne_uint64 (n : ℤ) (v : BitVec 64) :
    (intAtom n).obj lib ≠ .scalar (.int .uint64 v) := by
  by_cases hn : n = 0
  · subst hn
    exact obj_intAtom_zero .uint64 v
  · cases h : lib.castInt64 (utf8 (decimal n)) with
    | none => simp [intAtom, hn, Atom.number, Atom.obj, h]
    | some m =>
      simp only [intAtom, hn, if_false, Atom.number, Atom.obj, h]
      exact fun hobj => absurd (Scalar.int.inj (Obj.scalar.inj hobj)).1 (by decide)

/-- All characters of a string arrive exactly when the string comes back. -/
theorem written_string (hlib : lib.Lawful) {cs : List Char} :
    (∃ d, writtenDoc b lib (.scalar (.string (utf8 cs))) = .ok d ∧
        d.obj lib = .scalar (.string (utf8 cs))) ↔
      ∀ c ∈ cs, PlainChar c := by
  constructor
  · rintro ⟨d, hd, hobj⟩
    obtain ⟨cps, hcps, hd⟩ := bind_eq_ok_iff.mp hd
    obtain rfl := U8ToU32.codePoints_utf8 hcps
    obtain ⟨sym, hsym, hd⟩ := bind_eq_ok_iff.mp hd
    obtain rfl := Except.ok.inj hd
    cases hconvert : lib.u32ToU8 ((cs.flatMap U8ToU32.decoded).flatMap arrives) with
    | error what => simp [Tokenizer.makeSymbol, hconvert] at hsym
    | ok value =>
      obtain rfl : ⟨.string, value⟩ = sym := by
        simpa [Tokenizer.makeSymbol, hconvert] using hsym
      obtain rfl : value = utf8 cs := by simpa [Doc.obj, Atom.string, Atom.obj] using hobj
      -- the texts are the same, so the code points are
      have hcodes := hlib.u32ToU8_injective _ _ _ hconvert (hlib.u32ToU8_codes cs)
      rw [List.flatMap_assoc] at hcodes
      exact stored_eq_codes_iff.mp hcodes
  · intro hplain
    have hcps := U8ToU32.codePoints_of_decodes (b := b) fun c hc => (hplain c hc).1
    have harrive : (codes cs).flatMap arrives = codes cs :=
      calc (codes cs).flatMap arrives
          = (cs.flatMap U8ToU32.decoded).flatMap arrives := by
            rw [← U8ToU32.codePoints_utf8 hcps, codes]
        _ = cs.flatMap storedOf := List.flatMap_assoc
        _ = codes cs := stored_eq_codes_iff.mpr hplain
    refine ⟨.atom (.string (utf8 cs)), ?_, rfl⟩
    rw [← codes] at hcps
    simp [writtenDoc, hcps, harrive, Tokenizer.makeSymbol_codes hlib]

theorem keys_writtenEntries {entries : List (Key × Obj)} {ms : List (Bytes × Doc)}
    (hentries : jsonEntries IsPlainName JsonLeaf (fun _ => True) entries)
    (h : writtenEntries b lib entries = .ok ms) :
    (membersObj lib ms).map Prod.fst = entries.map Prod.fst := by
  induction entries generalizing ms with
  | nil =>
    obtain rfl := Except.ok.inj h
    rfl
  | cons e entries ih =>
    obtain ⟨key, value⟩ := e
    obtain ⟨⟨n, rfl, -⟩, -, hrest⟩ := hentries
    obtain ⟨d, -, h⟩ := bind_eq_ok_iff.mp h
    obtain ⟨tail, htail, h⟩ := bind_eq_ok_iff.mp h
    obtain rfl := Except.ok.inj h
    simp [membersObj, nameOf, ih hrest htail]

/-- The members of a map are in order already. -/
theorem ofEntries_written {entries : List (Key × Obj)} {ms : List (Bytes × Doc)}
    (hsorted : OrderedMap.Sorted entries)
    (hentries : jsonEntries IsPlainName JsonLeaf (fun _ => True) entries)
    (h : writtenEntries b lib entries = .ok ms) :
    OrderedMap.ofEntries (membersObj lib ms) = membersObj lib ms := by
  refine OrderedMap.ofEntries_of_sorted (OrderedMap.sorted_iff_keys.mpr ?_)
  rw [keys_writtenEntries hentries h]
  exact OrderedMap.sorted_iff_keys.mp hsorted

theorem faithful_leaf (hlib : lib.Lawful) {v : Scalar} (hv : JsonLeaf v) {d : Doc}
    (hd : writtenDoc b lib (.scalar v) = .ok d) (hobj : d.obj lib = .scalar v) :
    FaithfulLeaf v := by
  cases hv with
  | null => exact .null
  | bool v => exact .bool v
  | int64 v =>
    refine .int64 v ?_
    rintro rfl
    obtain rfl := Except.ok.inj hd
    exact absurd hobj (obj_intAtom_zero .int64 0)
  | uint64 v =>
    obtain rfl := Except.ok.inj hd
    exact absurd hobj (obj_intAtom_ne_uint64 _ v)
  | string cs => exact .string cs ((written_string hlib).mp ⟨d, hd, hobj⟩)

theorem written_leaf (hlib : lib.Lawful) {v : Scalar} (hv : FaithfulLeaf v) :
    ∃ text d, write b other (.scalar v) = .ok text ∧ writtenDoc b lib (.scalar v) = .ok d ∧
      d.obj lib = .scalar v := by
  cases hv with
  | null => exact ⟨_, _, rfl, rfl, rfl⟩
  | bool v => exact ⟨_, _, rfl, rfl, by cases v <;> rfl⟩
  | int64 v hne => exact ⟨_, _, rfl, rfl, obj_intAtom hlib hne⟩
  | string cs hplain =>
    obtain ⟨d, hd, hobj⟩ := (written_string (b := b) hlib).mpr hplain
    have hcps := U8ToU32.codePoints_of_decodes (b := b) fun c hc => (hplain c hc).1
    exact ⟨_, d, by rw [write, writeString, hcps]; rfl, hd, hobj⟩

mutual

/-- An object that is built from its own symbols has none of the leaves and containers that
change. -/
theorem faithful_of_obj (hlib : lib.Lawful) (o : Obj) (ho : IsJson o) (d : Doc)
    (hd : writtenDoc b lib o = .ok d) (hobj : d.obj lib = o) : Faithful o := by
  match o, ho with
  | .scalar v, (hv : JsonLeaf v) => exact faithful_leaf hlib hv hd hobj
  -- an empty container is written as the null object and so never comes back
  | .seq .vector items, ⟨_, hitems⟩ =>
    rw [writtenDoc] at hd
    split_ifs at hd with hempty
    · obtain rfl := Except.ok.inj hd
      cases hobj
    · cases hds : writtenItems b lib items with
      | error e => simp [hds, Except.map] at hd
      | ok ds =>
        obtain rfl : .array ds = d := by simpa [hds, Except.map] using hd
        have hback : itemsObj lib ds = items := by simpa [Doc.obj, Obj.vector] using hobj
        exact ⟨List.length_pos_iff.mpr hempty, faithful_of_itemsObj hlib items hitems ds hds hback⟩
  | .map .name entries, ⟨_, hsorted, hentries⟩ =>
    rw [writtenDoc] at hd
    split_ifs at hd with hempty
    · obtain rfl := Except.ok.inj hd
      cases hobj
    · cases hms : writtenEntries b lib entries with
      | error e => simp [hms, Except.map] at hd
      | ok ms =>
        obtain rfl : .object ms = d := by simpa [hms, Except.map] using hd
        have hback : membersObj lib ms = entries := by
          simpa [Doc.obj, Obj.paramMap, ofEntries_written hsorted hentries hms] using hobj
        exact ⟨List.length_pos_iff.mpr hempty, hsorted,
          faithful_of_membersObj hlib entries hentries ms hms hback⟩

theorem faithful_of_itemsObj (hlib : lib.Lawful) (items : List Obj)
    (hitems : jsonItems IsPlainName JsonLeaf (fun _ => True) items) (ds : List Doc)
    (hds : writtenItems b lib items = .ok ds) (hback : itemsObj lib ds = items) :
    jsonItems IsPlainName FaithfulLeaf (0 < ·) items := by
  match items with
  | [] => trivial
  | item :: items =>
    obtain ⟨hitem, hrest⟩ := hitems
    obtain ⟨d, hd, h⟩ := bind_eq_ok_iff.mp hds
    obtain ⟨tail, htail, h⟩ := bind_eq_ok_iff.mp h
    obtain rfl := Except.ok.inj h
    obtain ⟨hhead, hback⟩ := List.cons.inj hback
    exact ⟨faithful_of_obj hlib item hitem d hd hhead,
      faithful_of_itemsObj hlib items hrest tail htail hback⟩

theorem faithful_of_membersObj (hlib : lib.Lawful) (entries : List (Key × Obj))
    (hentries : jsonEntries IsPlainName JsonLeaf (fun _ => True) entries)
    (ms : List (Bytes × Doc)) (hms : writtenEntries b lib entries = .ok ms)
    (hback : membersObj lib ms = entries) :
    jsonEntries IsPlainName FaithfulLeaf (0 < ·) entries := by
  match entries with
  | [] => trivial
  | (key, value) :: entries =>
    obtain ⟨hkey, hvalue, hrest⟩ := hentries
    obtain ⟨d, hd, h⟩ := bind_eq_ok_iff.mp hms
    obtain ⟨tail, htail, h⟩ := bind_eq_ok_iff.mp h
    obtain rfl := Except.ok.inj h
    obtain ⟨hhead, hback⟩ := List.cons.inj hback
    exact ⟨hkey, faithful_of_obj hlib value hvalue d hd (Prod.mk.inj hhead).2,
      faithful_of_membersObj hlib entries hrest tail htail hback⟩

end

mutual

/-- Without them it is written, and built from its own symbols. -/
theorem obj_of_faithful (hlib : lib.Lawful) (o : Obj) (ho : Faithful o) :
    ∃ text d, write b other o = .ok text ∧ writtenDoc b lib o = .ok d ∧ d.obj lib = o := by
  match o, ho with
  | .scalar v, (hv : FaithfulLeaf v) => exact written_leaf hlib hv
  | .seq .vector items, ⟨hcount, hitems⟩ =>
    have hne : items ≠ [] := List.length_pos_iff.mp hcount
    obtain ⟨text, ds, htext, hds, hback⟩ := itemsObj_of_faithful hlib items hitems true false
    refine ⟨_, .array ds, by rw [write, if_neg hne, htext]; rfl,
      by rw [writtenDoc, if_neg hne, hds]; rfl, ?_⟩
    rw [Doc.obj, hback]
    rfl
  | .map .name entries, ⟨hcount, hsorted, hentries⟩ =>
    have hne : entries ≠ [] := List.length_pos_iff.mp hcount
    obtain ⟨text, ms, htext, hms, hback⟩ := membersObj_of_faithful hlib entries hentries false
    refine ⟨_, .object ms, by rw [write, if_neg hne, htext]; rfl,
      by rw [writtenDoc, if_neg hne, hms]; rfl, ?_⟩
    rw [Doc.obj, hback, OrderedMap.ofEntries_of_sorted hsorted]
    rfl

theorem itemsObj_of_faithful (hlib : lib.Lawful) (items : List Obj)
    (hitems : jsonItems IsPlainName FaithfulLeaf (0 < ·) items) (wrap init : Bool) :
    ∃ text ds, writeItems b other wrap init items = .ok text ∧
      writtenItems b lib items = .ok ds ∧ itemsObj lib ds = items := by
  match items with
  | [] => exact ⟨[], [], rfl, rfl, rfl⟩
  | item :: items =>
    obtain ⟨hitem, hrest⟩ := hitems
    obtain ⟨head, d, hhead, hd, hobj⟩ := obj_of_faithful hlib item hitem
    obtain ⟨tail, ds, htail, hds, hback⟩ := itemsObj_of_faithful hlib items hrest wrap true
    exact ⟨_, d :: ds, by rw [writeItems, hhead, ok_bind, htail]; rfl,
      by rw [writtenItems, hd, hds]; rfl, by rw [itemsObj, hobj, hback]⟩

theorem membersObj_of_faithful (hlib : lib.Lawful) (entries : List (Key × Obj))
    (hentries : jsonEntries IsPlainName FaithfulLeaf (0 < ·) entries) (flag : Bool) :
    ∃ text ms, writeEntries b other flag entries = .ok text ∧
      writtenEntries b lib entries = .ok ms ∧ membersObj lib ms = entries := by
  match entries with
  | [] => exact ⟨[], [], rfl, rfl, rfl⟩
  | (key, value) :: entries =>
    obtain ⟨⟨n, rfl, -⟩, hvalue, hrest⟩ := hentries
    obtain ⟨head, d, hhead, hd, hobj⟩ := obj_of_faithful hlib value hvalue
    obtain ⟨tail, ms, htail, hms, hback⟩ := membersObj_of_faithful hlib entries hrest true
    exact ⟨_, (n, d) :: ms, by rw [writeEntries, hhead, ok_bind, htail]; rfl,
      by rw [writtenEntries, hd, hms]; rfl, by rw [membersObj, hobj, hback]⟩

end

end Objects

/-! ### Round trips -/

/-- Parsing the text of an object, in any number of calls, calls the callback exactly once, with
an equal object. -/
def RoundTrips (b : Build) (lib : Library) (other : Obj → Bytes) (o : Obj) : Prop :=
  ∃ text, toJson b other o = .ok text ∧ ∀ chunks : List Bytes, chunks.flatten = text →
    ∃ r, Step.run (Reader.read b lib) .initial chunks = .ok (r, [o])

/-- A vector or a map of parameters. -/
def IsContainer (o : Obj) : Prop := o.typeCode = .vector ∨ o.typeCode = .paramMap

section Containers

variable {b : Build} {lib : Library} {other : Obj → Bytes} {o : Obj}

/-- The word for an empty container is never complete. -/
theorem not_roundTrips_null (h : toJson b other o = .ok (utf8 "null".toList)) :
    ¬RoundTrips b lib other o := by
  rintro ⟨text, htext, hread⟩
  obtain rfl := Except.ok.inj (h.symm.trans htext)
  have hdecode : AllDecode "null".toList := by simp [U8ToU32.Decodes]
  have hplain : Reader.Plain 0 (utf8 "null".toList) := Or.inr (by decide)
  have hlex : Step.run (Tokenizer.nextCodePoint b lib) .initial (codes "null".toList) =
      .ok (⟨.literal, codes "null".toList⟩, []) := rfl
  obtain ⟨t, syms, p, hsyms, hparse⟩ := (read_iff hdecode hplain (List.append_nil _)).mp
    (hread [utf8 "null".toList] (List.append_nil _))
  obtain ⟨-, rfl⟩ := Prod.mk.inj (Except.ok.inj (hlex.symm.trans hsyms))
  cases hparse

/-- An empty container is written as a word; the text of any other one is read as its symbols. -/
theorem reads_container (hlib : lib.Lawful) (ho : IsJson o) (hcontainer : IsContainer o)
    {text : Bytes} (h : write b other o = .ok text) :
    (text = utf8 "null".toList ∧ ¬Faithful o) ∨
      Reads b lib Anything Anything text ((writtenDoc b lib o).map Doc.symbols) ∧
        Reader.Plain 0 text ∧ ∀ d, writtenDoc b lib o = .ok d → d.IsContainer := by
  match o, ho with
  | .scalar v, (hv : JsonLeaf v) =>
    -- a leaf is no container
    cases hv <;> simp [IsContainer, Obj.typeCode, Scalar.typeCode, IntType.typeCode] at hcontainer
  | .seq .vector items, ⟨_, hitems⟩ =>
    rw [write] at h
    rw [writtenDoc]
    split_ifs at h ⊢ with hempty
    · exact Or.inl ⟨(Except.ok.inj h).symm, fun hf => hf.1.ne' (hempty ▸ rfl)⟩
    · obtain ⟨inner, hinner, htext⟩ := bind_eq_ok_iff.mp h
      obtain rfl := Except.ok.inj htext
      refine Or.inr ⟨reads_vector (reads_writeItems hlib items hitems inner hinner),
        Or.inr (fun hbom => by cases hbom), fun d hd => ?_⟩
      cases hds : writtenItems b lib items with
      | error e => simp [hds, Except.map] at hd
      | ok ds =>
        obtain rfl : .array ds = d := by simpa [hds, Except.map] using hd
        trivial
  | .map .name entries, ⟨_, _, hentries⟩ =>
    rw [write] at h
    rw [writtenDoc]
    split_ifs at h ⊢ with hempty
    · exact Or.inl ⟨(Except.ok.inj h).symm, fun hf => hf.1.ne' (hempty ▸ rfl)⟩
    · obtain ⟨inner, hinner, htext⟩ := bind_eq_ok_iff.mp h
      obtain rfl := Except.ok.inj htext
      refine Or.inr ⟨reads_paramMap (reads_writeEntries hlib entries hentries inner hinner),
        Or.inr (fun hbom => by cases hbom), fun d hd => ?_⟩
      cases hms : writtenEntries b lib entries with
      | error e => simp [hms, Except.map] at hd
      | ok ms =>
        obtain rfl : .object ms = d := by simpa [hms, Except.map] using hd
        trivial

/-- The whole text of a container that is not empty. -/
theorem read_container_iff {text : Bytes} {x : Except Fault (List Symbol)} {chunks : List Bytes}
    {os : List Obj} (hreads : Reads b lib Anything Anything text x)
    (hplain : Reader.Plain 0 text) (hchunks : chunks.flatten = text) :
    (∃ r, Step.run (Reader.read b lib) .initial chunks = .ok (r, os)) ↔
      ∃ syms p, x = .ok syms ∧
        Step.run (Parser.nextSymbol b lib) .initial syms = .ok (p, os) := by
  obtain ⟨cs, rfl, hdecode, hreads⟩ := hreads
  have hemits := (hreads [] (.ok []) trivial Tokenizer.Emits.nil).2
  have hfollow : follow x (.ok []) = x := by cases x <;> simp [follow]
  rw [List.append_nil, hfollow] at hemits
  exact read_iff_of_emits hdecode hplain hchunks hemits

/-- Objects with plain names come back exactly when they are faithful. -/
theorem roundTrips_iff (hlib : lib.Lawful) (ho : IsJson o) (hcontainer : IsContainer o) :
    RoundTrips b lib other o ↔ Faithful o := by
  constructor
  · intro h
    obtain ⟨text, htext, hread⟩ := id h
    rcases reads_container hlib ho hcontainer htext with ⟨rfl, -⟩ | ⟨hreads, hplain, hdoc⟩
    · exact absurd h (not_roundTrips_null htext)
    · have hchunk : [text].flatten = text := List.append_nil text
      -- reading the text in one chunk is enough here
      obtain ⟨syms, p, hsyms, hparse⟩ :=
        (read_container_iff hreads hplain hchunk).mp (hread [text] hchunk)
      cases hd : writtenDoc b lib o with
      | error e => simp [hd, Except.map] at hsyms
      | ok d =>
        obtain rfl : d.symbols = syms := by simpa [hd, Except.map] using hsyms
        have hback := (Parser.run_document (hdoc d hd)).symm.trans hparse
        obtain ⟨-, hobj⟩ := Prod.mk.inj (Except.ok.inj hback)
        exact faithful_of_obj hlib o ho d hd (List.singleton_inj.mp hobj)
  · intro h
    obtain ⟨text, d, htext, hd, hobj⟩ := @obj_of_faithful b lib other hlib o h
    refine ⟨text, htext, fun chunks hchunks => ?_⟩
    rcases reads_container hlib ho hcontainer htext with ⟨-, hnot⟩ | ⟨hreads, hplain, hdoc⟩
    · exact absurd h hnot
    · refine (read_container_iff hreads hplain hchunks).mpr ⟨d.symbols, .initial, ?_, ?_⟩
      · rw [hd]
        rfl
      · rw [Parser.run_document (hdoc d hd), hobj]

end Containers

/-! ### Two objects -/

/-- `[null, -5, "\"\u00e9\n", {"k":[true]}]` -/
def sampleVector : Obj :=
  .vector [.scalar .null, .scalar (.int .int64 (-5 : BitVec 64)),
    .scalar (.string (utf8 ['"', 'é', '\n'])),
    .paramMap [(.name (utf8 ['k']), .vector [.scalar (.bool true)])]]

theorem sampleVector_tree {leaf : Scalar → Prop} {count : ℕ → Prop} (hnull : leaf .null)
    (hbool : leaf (.bool true)) (hint : leaf (.int .int64 (-5 : BitVec 64)))
    (hstring : leaf (.string (utf8 ['"', 'é', '\n']))) (hone : count 1) (hfour : count 4) :
    JsonTree IsPlainName leaf count sampleVector := by
  have hname : ∃ n, Key.name (utf8 ['k']) = .name n ∧ IsPlainName n :=
    ⟨_, rfl, ['k'], rfl, List.forall_mem_singleton.mpr (by decide)⟩
  exact ⟨hfour, hnull, hint, hstring,
    ⟨hone, List.pairwise_singleton _ _, hname, ⟨hone, hbool, trivial⟩, trivial⟩, trivial⟩

theorem roundTrips_sample : RoundTrips .debug .sample (fun _ => []) sampleVector := by
  have hjson : IsJson sampleVector :=
    sampleVector_tree .null (.bool true) (.int64 _) (.string _) trivial trivial
  have hplain : ∀ c ∈ ['"', 'é', '\n'], PlainChar c := by
    simp only [List.forall_mem_cons]
    exact ⟨by decide, by decide, by decide, List.forall_mem_nil _⟩
  have hfaithful : Faithful sampleVector :=
    sampleVector_tree .null (.bool true) (.int64 _ (by decide)) (.string _ hplain)
      (by decide) (by decide)
  exact (roundTrips_iff Library.lawful_sample hjson (Or.inl rfl)).mpr hfaithful

/-- `[0]` -/
def zeroVector : Obj := .vector [.scalar (.int .int64 (0 : BitVec 64))]

/-- Zero comes back as an empty string. -/
theorem not_roundTrips_zero :
    Library.sample.Lawful ∧ IsJson zeroVector ∧ IsContainer zeroVector ∧
      ¬RoundTrips .debug .sample (fun _ => []) zeroVector := by
  refine ⟨Library.lawful_sample, ⟨trivial, .int64 _, trivial⟩, Or.inl rfl, ?_⟩
  rintro ⟨text, htext, hread⟩
  have hwritten : toJson .debug (fun _ => []) zeroVector = .ok (utf8 "[0]".toList) := rfl
  obtain rfl := Except.ok.inj (hwritten.symm.trans htext)
  obtain ⟨r, hr⟩ := hread [utf8 "[0]".toList] (List.append_nil _)
  have hmisread : Step.run (Reader.read .debug .sample) .initial [utf8 "[0]".toList] =
      .ok (⟨3, .initial, .initial, .initial⟩, [.vector [.scalar (.string [])]]) := rfl
  rw [hmisread] at hr
  cases hr

end Json

end Cyng
