import Cyng.Csv.Rows
import Cyng.Store.Table

/-!
# Tables as CSV text

A table is written with one line for the names of its columns and one for each record. The
writer puts its texts between commas as they are, and the parser gives quotes, blanks in front
and some other characters a meaning of their own.

A text comes back only where none of these is met. The argument counts: a quotation mark that
opens a string, a blank that is passed over and a character that is not decoded are lost, and
nothing makes up for them.
-/

namespace Cyng

open Theory

namespace Csv

open Json (codes codes_append codes_cons codes_nil)

/-! ### The writer -/

section Write

variable (other : Obj → Bytes)

mutual

/-- `serialize<CSV>::write`, where the text of objects of all other types is given. -/
def write : Obj → Bytes
  | .scalar .null => []
  | .scalar (.bool v) => utf8 (if v then "true".toList else "false".toList)
  | .scalar (.string str) => str
  | .seq .vector items => writeElements false items
  | .seq .tuple items => writeColumns false items ++ utf8 ['\n']
  | o => other o

/-- The loop of `serializer<vector_t, CSV>::write`: no comma in front of sequences. -/
def writeElements (init : Bool) : List Obj → Bytes
  | [] => []
  | item :: items =>
    (if init ∧ item.typeCode ∉ [TypeCode.tuple, .vector, .deque] then utf8 [','] else []) ++
      write item ++ writeElements true items

/-- The loop of `serializer<tuple_t, CSV>::write`. -/
def writeColumns (init : Bool) : List Obj → Bytes
  | [] => []
  | item :: items => (if init then utf8 [','] else []) ++ write item ++ writeColumns true items

end

end Write

/-- `table::to_vector` -/
def toVector {hasher : Hasher} {m : Meta} (t : Table hasher m) (colNames : Bool) : List Obj :=
  let records := t.data.rows.map fun row => Obj.tuple (row.1 ++ row.2.data.toList)
  if colNames then Obj.tuple (m.columns.map fun col => .scalar (.string col.name)) :: records
  else records

/-- A row of texts as an object. -/
def textTuple (row : List (List Char)) : Obj :=
  Obj.tuple (row.map fun f => .scalar (.string (utf8 f)))

section Text

variable {other : Obj → Bytes}

theorem writeColumns_texts (row : List (List Char)) :
    writeColumns other true (row.map fun f => .scalar (.string (utf8 f))) =
      utf8 (row.flatMap fun f => ',' :: f) := by
  induction row with
  | nil => rfl
  | cons f row ih =>
    rw [List.map_cons, writeColumns, ih, List.flatMap_cons, utf8_append, utf8_cons]
    simp [write]

theorem flatMap_eq_intercalate (f : List Char) (row : List (List Char)) :
    f ++ row.flatMap (fun g => ',' :: g) = [','].intercalate (f :: row) := by
  induction row generalizing f with
  | nil => simp
  | cons g row ih =>
    rw [List.intercalate_cons_cons, ← ih g]
    simp

theorem write_textTuple (row : List (List Char)) :
    write other (textTuple row) = utf8 ([','].intercalate row ++ ['\n']) := by
  cases row with
  | nil => rfl
  | cons f row =>
    have hcolumns : writeColumns other false ((f :: row).map fun f => .scalar (.string (utf8 f))) =
        utf8 f ++ writeColumns other true (row.map fun f => .scalar (.string (utf8 f))) := by
      simp [writeColumns, write]
    rw [textTuple, Obj.tuple, write, hcolumns, writeColumns_texts, ← utf8_append,
      flatMap_eq_intercalate, utf8_append]

/-- The rows are written one after the other, with a newline behind each. -/
theorem writeElements_texts (rows : List (List (List Char))) (init : Bool) :
    writeElements other init (rows.map textTuple) = utf8 (text ',' rows) := by
  induction rows generalizing init with
  | nil => rfl
  | cons row rows ih =>
    have hcode : (textTuple row).typeCode = .tuple := rfl
    rw [List.map_cons, writeElements, ih, write_textTuple, text_cons, hcode]
    simp

/-- Rows of texts are written as they are. -/
theorem write_texts (rows : List (List (List Char))) :
    write other (Obj.vector (rows.map textTuple)) = utf8 (text ',' rows) :=
  writeElements_texts rows false

end Text

/-! ### Outside quotation marks -/

namespace Tokenizer

section Outside

variable {b : Build} {enc : Encoder} (henc : enc.Lawful) {s : Char} (hsep : s.toNat < 0x80)

/-- The states that are reached without a quotation mark. -/
inductive Outside (s : Char) : Tokenizer → Prop
  | fresh {state : TokenizerState} (h : Fresh state) : Outside s ⟨state, []⟩
  | literal {B : List Char} (hB : B ≠ []) (hsep : s ∉ B) : Outside s ⟨.literal, codes B⟩

/-- The symbols that are emitted then, for a character. -/
def Plain (s c : Char) (sym : Symbol) : Prop :=
  (∃ B, B ≠ [] ∧ s ∉ B ∧ sym = ⟨.string, utf8 B⟩) ∨ sym.type = .eol ∨
    c = s ∧ (sym = ⟨.nothing, []⟩ ∨ sym.type = .separator)

variable {t : Tokenizer} {c : Char} {state : TokenizerState} {B : List Char}

include hsep

/-- A blank in front of a field. -/
theorem next_blank (hstate : Fresh state) (hc : c ≠ s) (hblank : c ∈ [' ', '\t']) :
    nextCodePoint b enc (sepByte s) ⟨state, []⟩ c.toNat = .ok (initial, []) := by
  have hnot : sepCode (sepByte s) ≠ c.toNat := (sepCode_sepByte hsep).not.mpr hc
  have hall : ∀ c ∈ [' ', '\t'], c ∉ breaks := by simp [breaks]
  refine next_of_start hsep hstate hc (hall c hblank) ?_
  simp only [put, initial, stateStart, hnot, oneOf_toNat, hblank, if_false, if_true]

/-- A quotation mark in front of a field. -/
theorem next_quote (hstate : Fresh state) (hs : '"' ≠ s) :
    nextCodePoint b enc (sepByte s) ⟨state, []⟩ '"'.toNat = .ok (⟨.string, []⟩, []) := by
  have hnot : sepCode (sepByte s) ≠ '"'.toNat := (sepCode_sepByte hsep).not.mpr hs
  refine next_of_start hsep hstate hs (by simp [breaks]) ?_
  simp only [put, initial, stateStart, hnot, if_false]
  rfl

include henc

/-- A quotation mark behind a literal. -/
theorem next_literal_quote (hB : B ≠ []) (hs : '"' ≠ s) :
    nextCodePoint b enc (sepByte s) ⟨.literal, codes B⟩ '"'.toNat =
      .ok (⟨.string, []⟩, [⟨.string, utf8 B⟩]) := by
  have hnot : sepCode (sepByte s) ≠ '"'.toNat := (sepCode_sepByte hsep).not.mpr hs
  refine next_of_refused (put_literal henc hB (by simp [breaks, reserved])) ?_
  simp only [put, initial, stateStart, hnot, if_false]
  rfl

/-- A character that ends a literal and begins the next one. -/
theorem next_literal_reserved (hB : B ≠ []) (hc : c ≠ s) (hquote : c ≠ '"')
    (hreserved : c ∈ reserved) :
    nextCodePoint b enc (sepByte s) ⟨.literal, codes B⟩ c.toNat =
      .ok (⟨.literal, codes [c]⟩, [⟨.string, utf8 B⟩]) := by
  have hnot : sepCode (sepByte s) ≠ c.toNat := (sepCode_sepByte hsep).not.mpr hc
  have hall : ∀ c ∈ reserved, c ∉ [' ', '\t'] ∧ c ∉ breaks := by simp [breaks, reserved]
  obtain ⟨hblank, hbreak⟩ := hall c hreserved
  have hquote' : c ∉ ['"'] := by simpa using hquote
  refine next_of_refused (put_literal henc hB (List.mem_append_right _ hreserved)) ?_
  simp only [put, initial, stateStart, hnot, oneOf_toNat, hblank, hbreak, hquote', if_false]
  rfl

/-- Without a quotation mark every character is taken, and the state stays outside. -/
theorem next_outside (hends : EndsLiteral s) (hs : s ∉ breaks) (hblank : s ∉ [' ', '\t'])
    (h : Outside s t) (hc : c ≠ '"') :
    ∃ t' syms, nextCodePoint b enc (sepByte s) t c.toNat = .ok (t', syms) ∧ Outside s t' ∧
      ∀ sym ∈ syms, Plain s c sym := by
  have hstring {B : List Char} (hB : B ≠ []) (hsB : s ∉ B) : Plain s c ⟨.string, utf8 B⟩ :=
    Or.inl ⟨B, hB, hsB, rfl⟩
  -- outside of quotation marks there are two kinds of states: between fields, or in a literal
  cases h with
  | @fresh state hstate =>
    by_cases hcs : c = s
    · subst hcs
      refine ⟨_, _, next_sep hsep hstate (fun _ => hs) henc, .fresh trivial, ?_⟩
      intro sym hsym
      refine Or.inr (Or.inr ⟨rfl, ?_⟩)
      obtain hsym | hsym := List.mem_append.mp hsym
      · split_ifs at hsym
        · exact Or.inl (List.mem_singleton.mp hsym)
        · cases hsym
      · exact Or.inr (by rw [List.mem_singleton.mp hsym]; rfl)
    · by_cases hbreak : c ∈ breaks
      · refine ⟨_, _, next_break hsep hstate hcs hbreak, .fresh trivial, ?_⟩
        intro sym hsym
        refine Or.inr (Or.inl ?_)
        split_ifs at hsym
        · cases hsym
        · rw [List.mem_singleton.mp hsym]
          rfl
      · by_cases hskip : c ∈ [' ', '\t']
        · exact ⟨_, _, next_blank hsep hstate hcs hskip, .fresh trivial, by simp⟩
        · refine ⟨_, _, next_fresh hsep hstate hcs ⟨hskip, hbreak, hc⟩, ?_, by simp⟩
          exact @Outside.literal s [c] (by simp) (by simpa using Ne.symm hcs)
  | @literal B hB hsB =>
    by_cases hcs : c = s
    · subst hcs
      refine ⟨_, _, next_literal_sep hsep henc hB hends, .fresh trivial, ?_⟩
      simp only [List.forall_mem_cons]
      exact ⟨hstring hB hsB, Or.inr (Or.inr ⟨rfl, Or.inr rfl⟩), by simp⟩
    · by_cases hbreak : c ∈ breaks
      · refine ⟨_, _, next_literal_break hsep henc hB hcs hbreak, .fresh trivial, ?_⟩
        simp only [List.forall_mem_cons]
        exact ⟨hstring hB hsB, Or.inr (Or.inl rfl), by simp⟩
      · by_cases hreserved : c ∈ reserved
        · -- a reserved character ends the literal, and its code point starts the next one
          refine ⟨_, _, next_literal_reserved henc hsep hB hcs hc hreserved,
            .literal (by simp) (by simpa using Ne.symm hcs), ?_⟩
          simpa using hstring hB hsB
        · -- any other character is appended
          have hplain : c ∉ breaks ++ reserved := by simp [hbreak, hreserved]
          have happend : codes B ++ [c.toNat] = codes (B ++ [c]) := by simp
          refine ⟨_, _, next_literal (codes B) hplain, ?_, by simp⟩
          rw [happend]
          exact .literal (by simp) (by simp [hsB, Ne.symm hcs])

/-- Behind a separator or a line break a field can begin. -/
theorem next_fresh_state (hends : EndsLiteral s) (hs : s ∉ breaks) (h : Outside s t)
    (hc : c = s ∨ c ∈ breaks) :
    ∃ state syms, nextCodePoint b enc (sepByte s) t c.toNat = .ok (⟨state, []⟩, syms) ∧
      Fresh state := by
  have hsplit : c = s ∨ c ≠ s ∧ c ∈ breaks := by
    by_cases hcs : c = s
    · exact Or.inl hcs
    · exact Or.inr ⟨hcs, hc.resolve_left hcs⟩
  obtain rfl | ⟨hcs, hbreak⟩ := hsplit
  · cases h with
    | fresh hstate => exact ⟨_, _, next_sep hsep hstate (fun _ => hs) henc, trivial⟩
    | literal hB _ => exact ⟨_, _, next_literal_sep hsep henc hB hends, trivial⟩
  · cases h with
    | fresh hstate => exact ⟨_, _, next_break hsep hstate hcs hbreak, trivial⟩
    | literal hB _ => exact ⟨_, _, next_literal_break hsep henc hB hcs hbreak, trivial⟩

/-- A text without quotation marks. -/
theorem run_outside (hends : EndsLiteral s) (hs : s ∉ breaks) (hblank : s ∉ [' ', '\t'])
    (h : Outside s t) {z : List Char} (hz : '"' ∉ z) :
    ∃ t' syms, Step.run (nextCodePoint b enc (sepByte s)) t (codes z) = .ok (t', syms) ∧
      Outside s t' ∧ ∀ sym ∈ syms, ∃ c ∈ z, Plain s c sym := by
  induction z generalizing t with
  | nil => exact ⟨t, [], rfl, h, by simp⟩
  | cons c z ih =>
    have hc : c ≠ '"' := fun hc => hz (hc ▸ List.mem_cons_self)
    obtain ⟨t₁, syms₁, hnext, h₁, hplain₁⟩ := next_outside henc hsep hends hs hblank h hc
    obtain ⟨t₂, syms₂, hrun, h₂, hplain₂⟩ := ih h₁ fun h => hz (List.mem_cons_of_mem c h)
    refine ⟨t₂, syms₁ ++ syms₂, Step.run_cons_ok hnext hrun, h₂, fun sym hsym => ?_⟩
    obtain hsym | hsym := List.mem_append.mp hsym
    · exact ⟨c, List.mem_cons_self, hplain₁ sym hsym⟩
    · obtain ⟨d, hd, hplain⟩ := hplain₂ sym hsym
      exact ⟨d, List.mem_cons_of_mem c hd, hplain⟩

end Outside

end Tokenizer

/-! ### What is lost -/

section Lost

variable {b : Build} {enc : Encoder} (henc : enc.Lawful) {s : Char} (hsep : s.toNat < 0x80)
  {counts : ℕ → Bool} {key : Char} {z z₁ z₂ : List Char} {c : Char}
  {rows : List (List (List Char))} {s' : Tokenizer × List Bytes}

include henc in
/-- A character that counts and is read for nothing is missing in the fields. -/
theorem countP_lt_of_run {sep : UInt8} {t t' : Tokenizer} {syms₁ syms₂ : List Symbol}
    (hkey : Priced counts key) (hcounts : counts c.toNat = true)
    (hfirst : Step.run (Tokenizer.nextCodePoint b enc sep) .initial (codes z₁) = .ok (t, syms₁))
    (hnext : Tokenizer.nextCodePoint b enc sep t c.toNat = .ok (t', syms₂))
    (hfree : (syms₂.map (symbolWeight enc counts)).sum + t'.owed counts key ≤ t.owed counts key)
    (h : Step.run (feed b enc sep) (.initial, []) (codes (z₁ ++ c :: z₂)) =
      .ok (s', rows.map encoded)) :
    (codes rows.flatten.flatten).countP counts < (codes (z₁ ++ c :: z₂)).countP counts := by
  obtain ⟨syms, htokens, hsyms⟩ := Step.run_pipe_eq_ok_iff.mp h
  rw [codes_append, codes_cons] at htokens
  obtain ⟨u, out₁, out, hrun₁, hrest, hout⟩ := Step.run_append_eq_ok_iff.mp htokens
  cases hfirst.symm.trans hrun₁
  obtain ⟨u', out₂, out₃, hstep, hrun₂, hout'⟩ := Step.run_cons_eq_ok_iff.mp hrest
  cases hnext.symm.trans hstep
  -- before and behind the character every code point is paid at most once
  have hsettled : Tokenizer.initial.Settled := rfl
  obtain ⟨hsettled₁, hpays₁⟩ := pays_tokens henc hkey hsettled hrun₁
  obtain ⟨hsettled₂, -⟩ := Tokenizer.pays_replay henc hkey hsettled₁ hstep
  obtain ⟨-, hpays₂⟩ := pays_tokens henc hkey hsettled₂ hrun₂
  have hfields : (codes rows.flatten.flatten).countP counts ≤
      (syms.map (symbolWeight enc counts)).sum := countP_le_of_symbols henc hsyms
  have hinitial : Tokenizer.initial.owed counts key = 0 := rfl
  simp only at hout hout'
  rw [hout, hout', List.map_append, List.map_append, List.sum_append, List.sum_append] at hfields
  rw [codes_append, codes_cons, List.countP_append, List.countP_cons_of_pos hcounts]
  omega

include henc hsep in
/-- A quotation mark is. -/
theorem countP_lt_of_quote (hends : EndsLiteral s) (hs : s ∉ breaks) (hblank : s ∉ [' ', '\t'])
    (hs' : '"' ≠ s) (hkey : Priced counts key) (hcounts : counts '"'.toNat = true)
    (h : Step.run (feed b enc (Tokenizer.sepByte s)) (.initial, []) (codes z) =
      .ok (s', rows.map encoded)) (hz : '"' ∈ z) :
    (codes rows.flatten.flatten).countP counts < (codes z).countP counts := by
  obtain ⟨z₁, z₂, rfl, hfirst⟩ := List.eq_append_cons_of_mem hz
  have hinitial : Tokenizer.Outside s .initial := .fresh trivial
  obtain ⟨t, syms, hrun, houtside, -⟩ :=
    Tokenizer.run_outside (b := b) henc hsep hends hs hblank hinitial hfirst
  cases houtside with
  | fresh hstate =>
    have hnext := @Tokenizer.next_quote b enc _ hsep _ hstate hs'
    exact countP_lt_of_run henc hkey hcounts hrun hnext (by simp [Tokenizer.owed,
      Tokenizer.credit]) h
  | @literal B hB _ =>
    have hnext := Tokenizer.next_literal_quote (b := b) henc hsep hB hs'
    refine countP_lt_of_run henc hkey hcounts hrun hnext ?_ h
    simp [symbolWeight, textWeight_utf8 henc, Tokenizer.owed, Tokenizer.credit]

include henc hsep in
/-- A blank in front of a field is. -/
theorem countP_lt_of_blank (hends : EndsLiteral s) (hs : s ∉ breaks) (hblank : s ∉ [' ', '\t'])
    (hkey : Priced counts key) (hcounts : counts c.toNat = true) (hc : c ∈ [' ', '\t'])
    (hz : '"' ∉ z₁) (hstart : z₁ = [] ∨ ∃ y d, z₁ = y ++ [d] ∧ (d = s ∨ d ∈ breaks))
    (h : Step.run (feed b enc (Tokenizer.sepByte s)) (.initial, []) (codes (z₁ ++ c :: z₂)) =
      .ok (s', rows.map encoded)) :
    (codes rows.flatten.flatten).countP counts < (codes (z₁ ++ c :: z₂)).countP counts := by
  have hinitial : Tokenizer.Outside s .initial := .fresh trivial
  -- the tokenizer stands in front of a field
  obtain ⟨state, syms, hrun, hstate⟩ : ∃ state syms,
      Step.run (Tokenizer.nextCodePoint b enc (Tokenizer.sepByte s)) .initial (codes z₁) =
        .ok (⟨state, []⟩, syms) ∧ Tokenizer.Fresh state := by
    obtain rfl | ⟨y, d, rfl, hd⟩ := hstart
    · exact ⟨.start, [], rfl, trivial⟩
    · have hy : '"' ∉ y := fun h => hz (List.mem_append_left _ h)
      obtain ⟨t, syms₁, hrun, houtside, -⟩ :=
        Tokenizer.run_outside (b := b) henc hsep hends hs hblank hinitial hy
      obtain ⟨state, syms₂, hnext, hstate⟩ :=
        Tokenizer.next_fresh_state (b := b) henc hsep hends hs houtside hd
      rw [codes_append]
      exact ⟨state, _, Step.run_append_ok hrun (Step.run_singleton hnext), hstate⟩
  have hcs : c ≠ s := fun h => hblank (h ▸ hc)
  have hnext := @Tokenizer.next_blank b enc _ hsep _ _ hstate hcs hc
  exact countP_lt_of_run henc hkey hcounts hrun hnext (by simp [Tokenizer.owed, Tokenizer.credit,
    Tokenizer.initial]) h

include henc hsep in
/-- The fields of a text without quotation marks: none holds a separator, and without a
separator none is empty. -/
theorem fields_outside (hends : EndsLiteral s) (hs : s ∉ breaks) (hblank : s ∉ [' ', '\t'])
    (hz : '"' ∉ z) {lines : List Line}
    (h : Step.run (feed b enc (Tokenizer.sepByte s)) (.initial, []) (codes z) = .ok (s', lines)) :
    ∀ line ∈ lines, line ≠ [] ∧ ∀ x ∈ line,
      (∃ B, B ≠ [] ∧ s ∉ B ∧ x = utf8 B) ∨ s ∈ z ∧ x = [] := by
  have hinitial : Tokenizer.Outside s .initial := .fresh trivial
  obtain ⟨t, syms, hrun, -, hplain⟩ :=
    Tokenizer.run_outside (b := b) henc hsep hends hs hblank hinitial hz
  obtain ⟨syms', hnext, hsyms⟩ := Step.run_pipe_eq_ok_iff.mp h
  cases hrun.symm.trans hnext
  -- the invariant is about the fields on the stack; the lines are made of them
  have hstep : ∀ (stack : List Bytes) (sym : Symbol) (stack' : List Bytes) (os : List Line),
      (∀ x ∈ stack, (∃ B, B ≠ [] ∧ s ∉ B ∧ x = utf8 B) ∨ s ∈ z ∧ x = []) →
      (∃ c ∈ z, Tokenizer.Plain s c sym) → Parser.nextSymbol b stack sym = .ok (stack', os) →
      (∀ x ∈ stack', (∃ B, B ≠ [] ∧ s ∉ B ∧ x = utf8 B) ∨ s ∈ z ∧ x = []) ∧
        ∀ line ∈ os, line ≠ [] ∧ ∀ x ∈ line,
          (∃ B, B ≠ [] ∧ s ∉ B ∧ x = utf8 B) ∨ s ∈ z ∧ x = [] := by
    rintro stack sym stack' os hstack ⟨c, hc, hsym⟩ hnext
    obtain ⟨type, value⟩ := sym
    obtain ⟨B, hB, hsB, hsym⟩ | heol | ⟨rfl, hsym⟩ := hsym
    · cases hsym
      cases hnext
      exact ⟨List.forall_mem_cons.mpr ⟨Or.inl ⟨B, hB, hsB, rfl⟩, hstack⟩, by simp⟩
    · obtain rfl : type = .eol := heol
      obtain hnext := Except.ok.inj hnext
      unfold Parser.processEol at hnext
      split_ifs at hnext with hempty
      · cases hnext
        exact ⟨hstack, by simp⟩
      · cases hnext
        refine ⟨by simp, List.forall_mem_singleton.mpr ⟨by simpa using hempty, fun x hx => ?_⟩⟩
        exact hstack x (List.mem_reverse.mp hx)
    · obtain hnothing | hseparator := hsym
      · cases hnothing
        obtain ⟨_, -, hnext⟩ := bind_eq_ok_iff.mp hnext
        cases hnext
        exact ⟨List.forall_mem_cons.mpr ⟨Or.inr ⟨hc, rfl⟩, hstack⟩, by simp⟩
      · obtain rfl : type = .separator := hseparator
        cases hnext
        refine ⟨?_, by simp⟩
        split_ifs
        · exact List.forall_mem_singleton.mpr (Or.inr ⟨hc, rfl⟩)
        · exact hstack
  exact Step.run_emits hstep (by simp) (Step.guarded_of_forall_mem hplain) hsyms

end Lost

/-! ### The round trip of a table -/

/-- The texts in a table: the names of its columns, and the cells of its records. -/
structure Texts {hasher : Hasher} {m : Meta} (t : Table hasher m) (header : List (List Char))
    (records : List (List (List Char))) : Prop where
  columns : m.columns.map Column.name = header.map utf8
  cells : t.data.rows.map (fun row => row.1 ++ row.2.data.toList) =
    records.map fun record => record.map fun f => Obj.scalar (.string (utf8 f))

/-- What is written for the table is read as the names of the columns and then the records. -/
def Returns (b : Build) (enc : Encoder) (other : Obj → Bytes) {hasher : Hasher} {m : Meta}
    (t : Table hasher m) (rows : List (List (List Char))) : Prop :=
  ∃ r, Reader.read b enc (Tokenizer.sepByte ',') .initial
    (write other (Obj.vector (toVector t true))) = .ok (r, rows.map encoded)

/-- Texts that survive: without quotes, commas and blanks in front, made of characters that are
decoded, not cut in two, and not empty at the end of a row. -/
structure Exportable (rows : List (List (List Char))) : Prop where
  field : ∀ row ∈ rows, ∀ f ∈ row, PlainField ',' f ∧ ReadableField f
  last : ∀ row ∈ rows, ∃ f ∈ row.getLast?, f ≠ []
  mark : (text ',' rows).head? ≠ some byteOrderMark

section Main

variable {b : Build} {enc : Encoder} (henc : enc.Lawful) {other : Obj → Bytes} {hasher : Hasher}
  {m : Meta} {t : Table hasher m} {header : List (List Char)}
  {records rows : List (List (List Char))} {s' : Tokenizer × List Bytes}

theorem toVector_texts (h : Texts t header records) :
    toVector t true = (header :: records).map textTuple := by
  have hheader : Obj.tuple (m.columns.map fun col => .scalar (.string col.name)) =
      textTuple header := by
    have hnames : m.columns.map (fun col => Obj.scalar (.string col.name)) =
        (m.columns.map Column.name).map fun n => .scalar (.string n) := by
      rw [List.map_map]
      rfl
    rw [hnames, h.columns, List.map_map]
    rfl
  have hrecords : t.data.rows.map (fun row => Obj.tuple (row.1 ++ row.2.data.toList)) =
      records.map textTuple := by
    have hcells := congrArg (List.map Obj.tuple) h.cells
    rw [List.map_map, List.map_map] at hcells
    exact hcells
  rw [toVector, if_pos rfl, hheader, hrecords, List.map_cons]

/-- All rows have as many fields as the table has columns. -/
theorem length_of_texts (h : Texts t header records) :
    ∀ row ∈ header :: records, row.length = m.columns.length := by
  have hlength := congrArg List.length h.columns
  rw [List.length_map, List.length_map] at hlength
  refine List.forall_mem_cons.mpr ⟨hlength.symm, fun record hrecord => ?_⟩
  have hmem : record.map (fun f => Obj.scalar (.string (utf8 f))) ∈
      t.data.rows.map fun row => row.1 ++ row.2.data.toList := by
    rw [h.cells]
    exact List.mem_map_of_mem hrecord
  obtain ⟨row, hrow, hcells⟩ := List.mem_map.mp hmem
  have hsize := congrArg List.length hcells
  have hkey := t.keySize row hrow
  have hpk := m.pk_le
  simp only [List.length_append, Vector.length_toList, List.length_map] at hsize
  rw [hkey, Meta.bodySize, Meta.size, Meta.keySize] at hsize
  omega

/-- A field with its place in the text. -/
theorem exists_split {s : Char} {row : List (List Char)} {c : Char} {q : List Char}
    (hf : c :: q ∈ row) :
    ∃ w₁ w₂, [s].intercalate row = w₁ ++ c :: w₂ ∧ (w₁ = [] ∨ ∃ y, w₁ = y ++ [s]) := by
  induction row with
  | nil => cases hf
  | cons g row ih =>
    obtain hfg | hf := List.mem_cons.mp hf
    · subst hfg
      cases row with
      | nil => exact ⟨[], q, by simp, Or.inl rfl⟩
      | cons g' row => exact ⟨[], q ++ s :: [s].intercalate (g' :: row), by simp, Or.inl rfl⟩
    · obtain ⟨w₁, w₂, hrow, hw₁⟩ := ih hf
      obtain ⟨g', row, rfl⟩ := List.exists_cons_of_ne_nil (List.ne_nil_of_mem hf)
      refine ⟨g ++ s :: w₁, w₂, ?_, Or.inr ?_⟩
      · rw [List.intercalate_cons_cons, hrow]
        simp
      · obtain rfl | ⟨y, rfl⟩ := hw₁
        · exact ⟨g, rfl⟩
        · exact ⟨g ++ s :: y, by simp⟩

theorem exists_split_text {s c : Char} {q : List Char} {row : List (List Char)} (hrow : row ∈ rows)
    (hf : c :: q ∈ row) :
    ∃ z₁ z₂, text s rows = z₁ ++ c :: z₂ ∧
      (z₁ = [] ∨ ∃ y d, z₁ = y ++ [d] ∧ (d = s ∨ d ∈ breaks)) := by
  induction rows with
  | nil => cases hrow
  | cons row' rows ih =>
    rw [text_cons]
    obtain rfl | hrow := List.mem_cons.mp hrow
    · obtain ⟨w₁, w₂, hsplit, hw₁⟩ := @exists_split s _ _ _ hf
      refine ⟨w₁, w₂ ++ '\n' :: text s rows, by simp [hsplit], hw₁.imp_right ?_⟩
      rintro ⟨y, rfl⟩
      exact ⟨y, s, rfl, Or.inl rfl⟩
    · obtain ⟨z₁, z₂, hsplit, hz₁⟩ := ih hrow
      refine ⟨[s].intercalate row' ++ '\n' :: z₁, z₂, by simp [hsplit], Or.inr ?_⟩
      obtain rfl | ⟨y, d, rfl, hd⟩ := hz₁
      · exact ⟨_, '\n', rfl, Or.inr newline_mem_breaks⟩
      · exact ⟨[s].intercalate row' ++ '\n' :: y, d, by simp, hd⟩

theorem flatMap_spoilt_of_decodes {cs : List Char} (h : ∀ c ∈ cs, U8ToU32.Decodes c) :
    cs.flatMap spoilt = cs := by
  induction cs with
  | nil => rfl
  | cons c cs ih =>
    obtain ⟨hc, hcs⟩ := List.forall_mem_cons.mp h
    rw [flatMap_spoilt_cons, spoilt_of_decodes hc, ih hcs]
    rfl

theorem mem_intercalate {s : Char} {row : List (List Char)} {f : List Char} {c : Char}
    (hf : f ∈ row) (hc : c ∈ f) : c ∈ [s].intercalate row := by
  induction row with
  | nil => cases hf
  | cons g row ih =>
    cases row with
    | nil =>
      obtain rfl := List.mem_singleton.mp hf
      simpa using hc
    | cons g' row =>
      rw [List.intercalate_cons_cons]
      obtain rfl | hf := List.mem_cons.mp hf
      · simp [hc]
      · simp [ih hf]

/-- A character of a field is one of the text. -/
theorem mem_text {s : Char} {row : List (List Char)} {f : List Char} {c : Char} (hrow : row ∈ rows)
    (hf : f ∈ row) (hc : c ∈ f) : c ∈ text s rows :=
  List.mem_flatMap.mpr ⟨row, hrow, List.mem_append_left _ (mem_intercalate hf hc)⟩

/-- Characters that are lost without quotation marks, and one that escape sequences need. -/
def losses (cp : ℕ) : Bool := cp = 0x75 || cp = 0x22 || cp = 0xFEFF || (0x400 ≤ cp && cp < 0x800)

theorem priced_losses : Priced losses 'u' := ⟨by decide, by decide, Or.inr ⟨rfl, by decide⟩⟩

theorem losses_of_not_decodes (c : Char) (h : ¬U8ToU32.Decodes c) : losses c.toNat = true := by
  simp only [U8ToU32.Decodes, not_or, not_lt, not_le] at h
  simp [losses, h]

theorem losses_of_range (cp : ℕ) (hlow : 0x50 ≤ cp) (hhigh : cp < 0x60) : losses cp = false := by
  have h1 : cp ≠ 0x75 := by omega
  have h2 : cp ≠ 0x22 := by omega
  have h3 : cp ≠ 0xFEFF := by omega
  have h4 : ¬0x400 ≤ cp := by omega
  simp [losses, h1, h2, h3, h4]

theorem countP_withoutMark_le (cs : List Char) :
    (codes (withoutMark cs)).countP losses ≤ (codes cs).countP losses := by
  cases cs with
  | nil => exact Nat.le_refl _
  | cons c cs =>
    rw [withoutMark]
    split_ifs
    · exact (List.sublist_cons_self _ _).countP_le
    · exact Nat.le_refl _

include henc in
/-- Rows that come back have neither quotes nor characters that are not decoded, and do not
begin with a byte order mark. -/
theorem sound_of_run
    (h : Step.run (feed b enc (Tokenizer.sepByte ',')) (.initial, [])
      (codes ((withoutMark (text ',' rows) ++ ['\n']).flatMap spoilt)) =
        .ok (s', rows.map encoded)) :
    (text ',' rows).head? ≠ some byteOrderMark ∧ '"' ∉ text ',' rows ∧
      ∀ c ∈ text ',' rows, U8ToU32.Decodes c := by
  have hfields := @countP_text losses ',' (by decide) (by decide) rows
  have hle := countP_le_of_run henc priced_losses h
  have hspoilt (cs : List Char) : (codes (cs.flatMap spoilt)).countP losses ≤
      (codes cs).countP losses :=
    countP_spoilt losses_of_not_decodes (Or.inl losses_of_range) cs
  have hwhole := hspoilt (withoutMark (text ',' rows) ++ ['\n'])
  have hnewline : (codes (withoutMark (text ',' rows) ++ ['\n'])).countP losses =
      (codes (withoutMark (text ',' rows))).countP losses := by
    rw [codes_append, List.countP_append]
    rfl
  have hrest := countP_withoutMark_le (text ',' rows)
  have hmark : (text ',' rows).head? ≠ some byteOrderMark := by
    intro hhead
    cases htext : text ',' rows with
    | nil => simp [htext] at hhead
    | cons c cs =>
      rw [htext] at hhead
      obtain rfl : c = byteOrderMark := Option.some.inj hhead
      have hlost : (codes (byteOrderMark :: cs)).countP losses = (codes cs).countP losses + 1 :=
        List.countP_cons_of_pos (by decide)
      rw [htext, withoutMark, if_pos rfl] at hnewline hwhole hle
      rw [htext] at hfields
      omega
  rw [withoutMark_of_head hmark] at h hle hwhole hnewline
  have hquote : '"' ∉ (text ',' rows ++ ['\n']).flatMap spoilt := by
    intro hmem
    have hlt := countP_lt_of_quote henc (by decide) (by decide) (by decide) (by decide) (by decide)
      priced_losses (by decide) h hmem
    omega
  have hdecodes : ∀ c ∈ text ',' rows ++ ['\n'], U8ToU32.Decodes c := by
    intro c hc
    by_contra hbad
    obtain ⟨w₁, w₂, hsplit⟩ := List.append_of_mem hc
    obtain ⟨a, x, hspoiltc, hlow, hhigh, -, hx⟩ := spoilt_of_not_decodes hbad
    rw [hsplit, List.flatMap_append, flatMap_spoilt_cons, hspoiltc] at hquote
    -- neither of the two characters counts
    have ha : losses a.toNat = false := losses_of_range _ hlow hhigh
    have hx : losses x.toNat = false := by
      have hne : x ≠ '"' := fun hx => hquote (by simp [hx])
      have h1 : x.toNat ≠ 0x75 := by omega
      have h2 : x.toNat ≠ 0x22 := fun h => hne (Char.toNat_inj.mp h)
      have h3 : x.toNat ≠ 0xFEFF := by omega
      have h4 : ¬0x400 ≤ x.toNat := by omega
      simp [losses, h1, h2, h3, h4]
    have hnone : (codes [a, x]).countP losses = 0 := by simp [ha, hx]
    have hone : (codes (c :: w₂)).countP losses = (codes w₂).countP losses + 1 :=
      List.countP_cons_of_pos (losses_of_not_decodes c hbad)
    have hw₁ := hspoilt w₁
    have hw₂ := hspoilt w₂
    rw [hsplit, List.flatMap_append, flatMap_spoilt_cons, hspoiltc, codes_append, codes_append,
      List.countP_append, List.countP_append, hnone] at hle
    rw [hsplit, codes_append, List.countP_append, hone] at hnewline
    omega
  rw [flatMap_spoilt_of_decodes hdecodes] at hquote
  exact ⟨hmark, fun hc => hquote (List.mem_append_left _ hc),
    fun c hc => hdecodes c (List.mem_append_left _ hc)⟩

/-- Blanks, and a character that escape sequences need. -/
def blanks (cp : ℕ) : Bool := cp = 0x5C || cp = 0x20 || cp = 0x09

theorem priced_blanks : Priced blanks '\\' := ⟨by decide, by decide, Or.inl rfl⟩

include henc in
/-- Without quotes and byte order mark, rows that come back consist of plain fields, and none
that stands alone is empty. -/
theorem plain_of_run (hquote : '"' ∉ text ',' rows)
    (hlines : ∀ row ∈ rows, ∀ f ∈ row, ∀ c ∈ f, c ∉ breaks)
    (h : Step.run (feed b enc (Tokenizer.sepByte ',')) (.initial, [])
      (codes (text ',' rows ++ ['\n'])) = .ok (s', rows.map encoded)) :
    (∀ row ∈ rows, ∀ f ∈ row, PlainField ',' f) ∧ (∀ row ∈ rows, row ≠ []) ∧
      ((∀ row ∈ rows, row.length ≤ 1) → ∀ row ∈ rows, [] ∉ row) := by
  have hz : '"' ∉ text ',' rows ++ ['\n'] := by simpa using hquote
  have hfields := fields_outside henc (by decide) (by decide) (by decide) (by decide) hz h
  have hcomma : ∀ row ∈ rows, ∀ f ∈ row, ',' ∉ f := by
    intro row hrow f hf hmem
    obtain ⟨-, hrow'⟩ := hfields _ (List.mem_map_of_mem hrow)
    obtain ⟨B, -, hB, hsame⟩ | ⟨-, hempty⟩ := hrow' (utf8 f) (List.mem_map_of_mem hf)
    · rw [utf8_injective hsame] at hmem
      exact hB hmem
    · have hnil : utf8 f = utf8 [] := hempty
      rw [utf8_injective hnil] at hmem
      cases hmem
  refine ⟨fun row hrow f hf => ⟨hcomma row hrow f hf, ?_, hlines row hrow f hf, ?_⟩, ?_, ?_⟩
  · exact fun hmem => hquote (mem_text hrow hf hmem)
  · -- a field that begins with a blank loses it: fewer blanks come out than went in
    intro c hc hblank
    obtain ⟨q, rfl⟩ : ∃ q, f = c :: q := by
      cases f with
      | nil => cases hc
      | cons d q =>
        obtain rfl : d = c := Option.some.inj hc
        exact ⟨q, rfl⟩
    obtain ⟨z₁, z₂, hsplit, hz₁⟩ := exists_split_text (s := ',') hrow hf
    have hcounts : blanks c.toNat = true := by
      obtain rfl | hc := List.mem_cons.mp hblank
      · decide
      · rw [List.mem_singleton.mp hc]
        decide
    have htext : text ',' rows ++ ['\n'] = z₁ ++ c :: (z₂ ++ ['\n']) := by simp [hsplit]
    rw [htext] at h hz
    have hlt := countP_lt_of_blank henc (by decide) (by decide) (by decide) (by decide)
      priced_blanks hcounts hblank (fun hmem => hz (List.mem_append_left _ hmem)) hz₁ h
    have hcount := @countP_text blanks ',' (by decide) (by decide) rows
    have hnewline : (codes (text ',' rows ++ ['\n'])).countP blanks =
        (codes (text ',' rows)).countP blanks := by
      rw [codes_append, List.countP_append]
      rfl
    rw [htext] at hnewline
    omega
  · intro row hrow hempty
    obtain ⟨hne, -⟩ := hfields _ (List.mem_map_of_mem hrow)
    exact hne (by rw [hempty]; rfl)
  · -- without a separator in the text no field is empty
    intro hshort row hrow hmem
    obtain ⟨-, hrow'⟩ := hfields _ (List.mem_map_of_mem hrow)
    obtain ⟨B, hB, -, hsame⟩ | ⟨hsep, -⟩ := hrow' (utf8 []) (List.mem_map_of_mem hmem)
    · exact hB (utf8_injective hsame).symm
    · -- a comma would have to stand in one of the fields
      obtain hsep | hsep := List.mem_append.mp hsep
      · obtain ⟨row', hrow', hin⟩ := List.mem_flatMap.mp hsep
        obtain hin | hin := List.mem_append.mp hin
        · match row', hshort row' hrow' with
          | [], _ => cases hin
          | [f], _ =>
            rw [List.intercalate_singleton] at hin
            exact hcomma _ hrow' f List.mem_cons_self hin
        · exact absurd hin (by decide)
      · exact absurd hsep (by decide)

theorem Exportable.plainRow (h : Exportable rows) : ∀ row ∈ rows, PlainRow ',' row := by
  intro row hrow
  refine ⟨?_, fun f hf => (h.field row hrow f hf).1⟩
  obtain ⟨f, hlast, hne⟩ := h.last row hrow
  match row, hlast with
  | [g], hlast =>
    obtain rfl : g = f := Option.some.inj hlast
    exact Or.inr ⟨g, hne, rfl⟩
  | _ :: _ :: _, _ => exact Or.inl (by simp)

theorem Exportable.readableRow (h : Exportable rows) : ∀ row ∈ rows, ReadableRow ',' row := by
  intro row hrow
  obtain ⟨f, hlast, hne⟩ := h.last row hrow
  refine ⟨fun f hf => (h.field row hrow f hf).2, fun hempty => ?_, Or.inl (by decide)⟩
  rw [hempty] at hlast
  exact hne (Option.some.inj hlast).symm

include henc in
/-- A table of texts comes back exactly if its texts are such as survive. -/
theorem returns_iff (ht : Texts t header records)
    (hlines : ∀ row ∈ header :: records, ∀ f ∈ row, ∀ c ∈ f, c ∉ breaks) :
    Returns b enc other t (header :: records) ↔ Exportable (header :: records) := by
  have hbetween : Between .start [] := Or.inr ⟨Or.inl rfl, rfl⟩
  have hcomma : ',' ≠ '\n' ∧ ',' ≠ '\r' := by decide
  rw [Returns, toVector_texts ht, write_texts, read_initial_iff]
  constructor
  · rintro ⟨s', hrun⟩
    obtain ⟨hmark, hquote, hdecodes⟩ := sound_of_run henc hrun
    rw [withoutMark_of_head hmark] at hrun
    have hdecodes' : ∀ c ∈ text ',' (header :: records) ++ ['\n'], U8ToU32.Decodes c :=
      List.forall_mem_append.mpr ⟨hdecodes, List.forall_mem_singleton.mpr (by decide)⟩
    -- every character decodes, so the parser sees the text itself
    have hplainRun := hrun
    rw [flatMap_spoilt_of_decodes hdecodes'] at hplainRun
    obtain ⟨hplain, hne, hsingle⟩ := plain_of_run henc hquote hlines hplainRun
    have hlength := length_of_texts ht
    have hrows : ∀ row ∈ header :: records, PlainRow ',' row := by
      intro row hrow
      refine ⟨?_, hplain row hrow⟩
      -- a row of a single field has to be visible
      by_cases hmany : 2 ≤ m.columns.length
      · exact Or.inl ((hlength row hrow).symm ▸ hmany)
      · have hfull := hsingle (fun row' hrow' => by rw [hlength row' hrow']; omega) row hrow
        match row, hne row hrow, hlength row hrow with
        | [f], _, _ => exact Or.inr ⟨f, fun hf => hfull (by simp [hf]), rfl⟩
        | _ :: _ :: _, _, hsize =>
          simp only [List.length_cons] at hsize
          omega
    obtain ⟨-, hreadable, -⟩ := (run_rows_iff henc (by decide) hbetween hrows).mp ⟨s', hrun⟩
    refine ⟨fun row hrow f hf => ⟨hplain row hrow f hf, (hreadable row hrow).field f hf⟩,
      fun row hrow => ?_, hmark⟩
    have hlast := (hreadable row hrow).last
    rw [List.getLast?_eq_some_getLast (hne row hrow)] at hlast ⊢
    exact ⟨_, rfl, fun hempty => hlast (congrArg some hempty)⟩
  · intro h
    rw [withoutMark_of_head h.mark]
    exact (run_rows_iff henc (by decide) hbetween h.plainRow).mpr
      ⟨fun hs => absurd hs hcomma.1, h.readableRow, fun hs => absurd hs hcomma.2⟩

end Main

/-! ### Examples -/

/-- A key column and a body column. -/
def sampleMeta : Meta where
  name := utf8 ['t']
  columns := [⟨utf8 ['k'], .string⟩, ⟨utf8 ['v'], .string⟩]
  pk := 1
  pk_le := by decide

/-- A table with one record, and a text in its body. -/
def sampleTable (f : List Char) : Table .numbers sampleMeta where
  data := ⟨[([.scalar (.string (utf8 ['1']))], ⟨#v[.scalar (.string (utf8 f))], 1⟩)],
    List.pairwise_singleton _ _⟩
  keySize := by
    intro row hrow
    rw [List.mem_singleton.mp hrow]
    rfl

theorem texts_sampleTable (f : List Char) :
    Texts (sampleTable f) [['k'], ['v']] [[['1'], f]] := ⟨rfl, rfl⟩

theorem returns_iff_sampleTable :
    Returns .debug sampleEncoder (fun _ => []) (sampleTable ['x'])
        [[['k'], ['v']], [['1'], ['x']]] ↔
      Exportable [[['k'], ['v']], [['1'], ['x']]] :=
  returns_iff lawful_sampleEncoder (texts_sampleTable ['x']) (by simp [breaks])

/-- A comma in a cell cuts it in two. -/
theorem not_returns_comma :
    Texts (sampleTable ['a', ',', 'b']) [['k'], ['v']] [[['1'], ['a', ',', 'b']]] ∧
      ¬Returns .debug sampleEncoder (fun _ => []) (sampleTable ['a', ',', 'b'])
        [[['k'], ['v']], [['1'], ['a', ',', 'b']]] := by
  refine ⟨texts_sampleTable _, ?_⟩
  rintro ⟨r, h⟩
  have hread : Reader.read .debug sampleEncoder (Tokenizer.sepByte ',') .initial
      (write (fun _ => []) (Obj.vector (toVector (sampleTable ['a', ',', 'b']) true))) =
      .ok (⟨10, .initial, ⟨.eol, []⟩, []⟩,
        [[[0x6B], [0x76]], [[0x31], [0x61], [0x62]]]) := by rfl
  cases hread.symm.trans h

end Csv

end Cyng
