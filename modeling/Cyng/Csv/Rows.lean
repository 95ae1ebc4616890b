import Cyng.Csv.Weight

/-!
# Rows of plain fields

What the parser makes of rows whose fields are joined by the separator. Between two fields the
tokenizer knows the separator, but a literal runs on to the next character of a fixed set: a
separator outside this set becomes part of the field, and another character of this set cuts
the field in two. The last field of a row comes without a separator behind it, so that nothing
is left of it where it is empty.
-/

namespace Cyng

open Theory

namespace Csv

open Json (codes codes_append codes_cons codes_nil)

/-! ### The text and what it should be read as -/

/-- Does a literal end at this character? -/
def EndsLiteral (c : Char) : Prop := c ∈ breaks ++ reserved

instance (c : Char) : Decidable (EndsLiteral c) := inferInstanceAs (Decidable (c ∈ _))

/-- The fields joined by the separator, each row ended by a newline. -/
def text (s : Char) (rows : List (List (List Char))) : List Char :=
  rows.flatMap fun row => [s].intercalate row ++ ['\n']

/-- The UTF-8 texts of the fields. -/
def encoded (row : List (List Char)) : Line := row.map utf8

/-- Fields without the separator, quotes and line breaks, and without blanks in front. -/
structure PlainField (s : Char) (f : List Char) : Prop where
  sep : s ∉ f
  quote : '"' ∉ f
  line : ∀ c ∈ f, c ∉ breaks
  blank : ∀ c ∈ f.head?, c ∉ [' ', '\t']

/-- Rows of two or more such fields, or of one that is not empty. -/
def PlainRow (s : Char) (row : List (List Char)) : Prop :=
  (2 ≤ row.length ∨ ∃ f, f ≠ [] ∧ row = [f]) ∧ ∀ f ∈ row, PlainField s f

/-- A new parser hands exactly the rows to its callback. -/
def Reads (b : Build) (enc : Encoder) (s : Char) (rows : List (List (List Char))) : Prop :=
  ∃ r, Reader.read b enc (Tokenizer.sepByte s) .initial (utf8 (text s rows)) =
    .ok (r, rows.map encoded)

/-- All characters are decoded, and the field is not cut in two. -/
structure ReadableField (f : List Char) : Prop where
  decodes : ∀ c ∈ f, U8ToU32.Decodes c
  whole : ∀ c ∈ f.tail, ¬EndsLiteral c

/-- The last field is not lost, and the others end at the separator. -/
structure ReadableRow (s : Char) (row : List (List Char)) : Prop where
  field : ∀ f ∈ row, ReadableField f
  last : row.getLast? ≠ some []
  others : EndsLiteral s ∨ ∀ f ∈ row.dropLast, f = []

/-- The rows that are read. -/
structure Readable (s : Char) (rows : List (List (List Char))) : Prop where
  row : ∀ row ∈ rows, ReadableRow s row
  mark : (text s rows).head? ≠ some byteOrderMark
  newline : s = '\n' → rows = []
  carriage : s = '\r' → ∀ row ∈ rows.tail, row.head? ≠ some []

theorem readableField_nil : ReadableField [] := ⟨by simp, by simp⟩

theorem readableRow_singleton {s : Char} {f : List Char} :
    ReadableRow s [f] ↔ ReadableField f ∧ f ≠ [] :=
  ⟨fun h => ⟨h.field f List.mem_cons_self, fun hf => h.last (by simp [hf])⟩,
    fun h => ⟨by simpa using h.1, by simpa using h.2, by simp⟩⟩

theorem readableRow_cons {s : Char} {f g : List Char} {row : List (List Char)} :
    ReadableRow s (f :: g :: row) ↔
      ReadableField f ∧ (EndsLiteral s ∨ f = []) ∧ ReadableRow s (g :: row) := by
  constructor
  · rintro ⟨hfield, hlast, hothers⟩
    obtain ⟨hf, hrow⟩ := List.forall_mem_cons.mp hfield
    rw [List.dropLast_cons_cons, List.forall_mem_cons] at hothers
    exact ⟨hf, hothers.imp_right And.left, hrow, by simpa using hlast, hothers.imp_right And.right⟩
  · rintro ⟨hf, hends, hrow, hlast, hothers⟩
    refine ⟨List.forall_mem_cons.mpr ⟨hf, hrow⟩, by simpa using hlast, ?_⟩
    rw [List.dropLast_cons_cons, List.forall_mem_cons]
    exact or_and_left.mpr ⟨hends, hothers⟩

/-! ### Spoilt characters -/

/-- The first of the characters that are read for one that is not decoded. -/
theorem spoilt_of_not_decodes {c : Char} (h : ¬U8ToU32.Decodes c) :
    ∃ a x, spoilt c = [a, x] ∧ 0x50 ≤ a.toNat ∧ a.toNat < 0x60 ∧ a ≠ c ∧ x.toNat < 0x40 := by
  have hrange : 0x400 ≤ c.toNat ∧ c.toNat < 0x800 := by
    simpa [U8ToU32.Decodes, not_or] using h
  have hlead : (Char.ofNat (c.toNat / 64 + 0x40)).toNat = c.toNat / 64 + 0x40 :=
    toNat_ofNat_of_lt (by omega)
  have htail : (Char.ofNat (c.toNat % 64)).toNat = c.toNat % 64 := toNat_ofNat_of_lt (by omega)
  refine ⟨_, _, if_neg h, by omega, by omega, fun hsame => ?_, by omega⟩
  have hnat := congrArg Char.toNat hsame
  omega

theorem spoilt_of_decodes {c : Char} (h : U8ToU32.Decodes c) : spoilt c = [c] := if_pos h

/-- Such a character is no blank, no quote and no line break. -/
theorem plain_of_range {a : Char} (hlow : 0x50 ≤ a.toNat) (hhigh : a.toNat < 0x60) :
    a ∉ [' ', '\t'] ∧ a ∉ breaks ∧ a ≠ '"' := by
  have hne {c : Char} (hc : c.toNat < 0x50) : a ≠ c := by
    rintro rfl
    omega
  simp [breaks, hne]

theorem flatMap_spoilt_cons (c : Char) (cs : List Char) :
    (c :: cs).flatMap spoilt = spoilt c ++ cs.flatMap spoilt := List.flatMap_cons

/-! ### One field -/

section Feed

variable {b : Build} {enc : Encoder} (henc : enc.Lawful) {s : Char} (hsep : s.toNat < 0x80)

/-- A state between two fields with the fields before it. -/
def Between (state : TokenizerState) (stack : List Bytes) : Prop :=
  (state = .separator ∧ stack ≠ []) ∨ ((state = .start ∨ state = .eol) ∧ stack = [])

theorem Between.fresh {state : TokenizerState} {stack : List Bytes} (h : Between state stack) :
    Tokenizer.Fresh state := by
  obtain ⟨rfl, -⟩ | ⟨rfl | rfl, -⟩ := h <;> trivial

variable {state : TokenizerState} {stack : List Bytes} {sep : UInt8} {t t' : Tokenizer}
  {c : Char} {B z : List Char} {r : (Tokenizer × List Bytes) × List Line} {line : Line}
  {lines : List Line}

theorem feed_of {cp : ℕ} {syms : List Symbol} {stack' : List Bytes}
    (hnext : Tokenizer.nextCodePoint b enc sep t cp = .ok (t', syms))
    (hsyms : Step.run (Parser.nextSymbol b) stack syms = .ok (stack', lines)) :
    feed b enc sep (t, stack) cp = .ok ((t', stack'), lines) := by
  simp [feed, Step.pipe, hnext, hsyms]

theorem prefix_of_feed {cps : List ℕ} (h : Step.run (feed b enc sep) (t, stack) cps = .ok r)
    (hlines : r.2 = line :: lines) : stack.reverse <+: line := by
  obtain ⟨syms, -, hsyms⟩ := Step.run_pipe_eq_ok_iff.mp h
  exact Parser.prefix_of_run hsyms hlines

include henc in
/-- The field that is being read will begin with what was read of it. -/
theorem prefix_of_literal (hB : B ≠ [])
    (h : Step.run (feed b enc sep) (⟨.literal, codes B⟩, stack) (codes z) = .ok r)
    (hlines : r.2 = line :: lines) : ∃ C, stack.reverse ++ [utf8 (B ++ C)] <+: line := by
  obtain ⟨syms, hnext, hsyms⟩ := Step.run_pipe_eq_ok_iff.mp h
  obtain (hnone : syms = []) | ⟨C, syms', (hsome : syms = _)⟩ :=
    Tokenizer.run_literal henc hB hnext
  · rw [hnone] at hsyms
    cases (Prod.mk.inj (Except.ok.inj hsyms)).2.trans hlines
  · have hpush : Parser.nextSymbol b stack ⟨.string, utf8 (B ++ C)⟩ =
        .ok (utf8 (B ++ C) :: stack, []) := rfl
    rw [hsome, Step.run_cons_silent hpush] at hsyms
    exact ⟨C, by simpa using Parser.prefix_of_run hsyms hlines⟩

include henc in
/-- A field that is cut off here is complete. -/
theorem prefix_of_literal_end (hB : B ≠ []) (hc : EndsLiteral c)
    (h : Step.run (feed b enc sep) (⟨.literal, codes B⟩, stack) (codes (c :: z)) = .ok r)
    (hlines : r.2 = line :: lines) : stack.reverse ++ [utf8 B] <+: line := by
  obtain ⟨syms, hnext, hsyms⟩ := Step.run_pipe_eq_ok_iff.mp h
  obtain ⟨t', syms₁, syms₂, hstep, -, hout⟩ := Step.run_cons_eq_ok_iff.mp hnext
  obtain ⟨more, rfl⟩ := Tokenizer.next_emits_of_refused (Tokenizer.put_literal henc hB hc) hstep
  have hpush : Parser.nextSymbol b stack ⟨.string, utf8 B⟩ = .ok (utf8 B :: stack, []) := rfl
  simp only [List.cons_append, List.nil_append] at hout
  rw [hout, Step.run_cons_silent hpush] at hsyms
  simpa using Parser.prefix_of_run hsyms hlines

/-- There is one field at a place. -/
theorem prefix_unique {fields : List Bytes} {x y : Bytes} (hx : fields ++ [x] <+: line)
    (hy : fields ++ [y] <+: line) : x = y := by
  obtain ⟨rest, rfl⟩ := hx
  have hsame : y = x := by simpa using hy
  exact hsame.symm

/-! #### The steps of the parser -/

include hsep in
theorem feed_fresh (hbetween : Between state stack) (hc : c ≠ s)
    (hplain : c ∉ [' ', '\t'] ∧ c ∉ breaks ∧ c ≠ '"') :
    feed b enc (Tokenizer.sepByte s) (⟨state, []⟩, stack) c.toNat =
      .ok ((⟨.literal, codes [c]⟩, stack), []) :=
  feed_of (Tokenizer.next_fresh hsep hbetween.fresh hc hplain) Step.run_nil

theorem feed_literal (hc : ¬EndsLiteral c) :
    feed b enc sep (⟨.literal, codes B⟩, stack) c.toNat =
      .ok ((⟨.literal, codes (B ++ [c])⟩, stack), []) := by
  refine feed_of (Tokenizer.next_literal (codes B) hc |>.trans ?_) Step.run_nil
  simp

include henc hsep in
theorem feed_sep (hbetween : Between state stack) (hbreak : state = .eol → s ∉ breaks) :
    feed b enc (Tokenizer.sepByte s) (⟨state, []⟩, stack) s.toNat =
      .ok ((⟨.separator, []⟩, [] :: stack), []) := by
  refine feed_of (Tokenizer.next_sep hsep hbetween.fresh hbreak henc) ?_
  obtain ⟨rfl, hstack⟩ | ⟨rfl | rfl, rfl⟩ := hbetween
  · simp [Step.run, Parser.nextSymbol, Tokenizer.charSymbol, Build.check_of]
  · simp [Step.run, Parser.nextSymbol, Tokenizer.charSymbol]
  · simp [Step.run, Parser.nextSymbol, Tokenizer.charSymbol]

include hsep in
theorem feed_break (hbetween : Between state stack) (hc : c ≠ s) (hbreak : c ∈ breaks) :
    feed b enc (Tokenizer.sepByte s) (⟨state, []⟩, stack) c.toNat =
      .ok ((⟨.eol, []⟩, []), if stack = [] then [] else [stack.reverse]) := by
  refine feed_of (Tokenizer.next_break hsep hbetween.fresh hc hbreak) ?_
  obtain ⟨rfl, hstack⟩ | ⟨rfl | rfl, rfl⟩ := hbetween
  · simp [Step.run, Parser.nextSymbol, Parser.processEol, Tokenizer.charSymbol, hstack]
  · simp [Step.run, Parser.nextSymbol, Parser.processEol, Tokenizer.charSymbol]
  · simp

theorem feed_eol_break (hbreak : c ∈ breaks) :
    feed b enc sep (⟨.eol, []⟩, stack) c.toNat = .ok ((⟨.eol, []⟩, stack), []) :=
  feed_of (Tokenizer.next_eol_break hbreak) Step.run_nil

include henc hsep in
theorem feed_literal_sep (hB : B ≠ []) (hends : EndsLiteral s) :
    feed b enc (Tokenizer.sepByte s) (⟨.literal, codes B⟩, stack) s.toNat =
      .ok ((⟨.separator, []⟩, utf8 B :: stack), []) := by
  refine feed_of (Tokenizer.next_literal_sep hsep henc hB hends) ?_
  simp [Step.run, Parser.nextSymbol, Tokenizer.charSymbol]

include henc hsep in
theorem feed_literal_break (hB : B ≠ []) (hc : c ≠ s) (hbreak : c ∈ breaks) :
    feed b enc (Tokenizer.sepByte s) (⟨.literal, codes B⟩, stack) c.toNat =
      .ok ((⟨.eol, []⟩, []), [stack.reverse ++ [utf8 B]]) := by
  refine feed_of (Tokenizer.next_literal_break hsep henc hB hc hbreak) ?_
  simp [Step.run, Parser.nextSymbol, Parser.processEol, Tokenizer.charSymbol]

/-! #### Runs over a field -/

variable {s' : Tokenizer × List Bytes}

theorem run_feed_silent {u u' : Tokenizer × List Bytes}
    (h : feed b enc sep u c.toNat = .ok (u', [])) :
    Step.run (feed b enc sep) u (codes (c :: z)) = Step.run (feed b enc sep) u' (codes z) :=
  Step.run_cons_silent h

include henc in
/-- The rest of a field. -/
theorem run_rest_iff {q : List Char} (hB : B ≠ [])
    (hline : stack.reverse ++ [utf8 (B ++ q)] <+: line) :
    Step.run (feed b enc sep) (⟨.literal, codes B⟩, stack) (codes (q.flatMap spoilt ++ z)) =
        .ok (s', line :: lines) ↔
      (∀ c ∈ q, U8ToU32.Decodes c ∧ ¬EndsLiteral c) ∧
        Step.run (feed b enc sep) (⟨.literal, codes (B ++ q)⟩, stack) (codes z) =
          .ok (s', line :: lines) := by
  induction q generalizing B with
  | nil => simp
  | cons c q ih =>
    have hwhole : B ++ c :: q = B ++ [c] ++ q := by simp
    rw [flatMap_spoilt_cons, List.append_assoc, List.forall_mem_cons]
    -- the field would have to end here, or to go on with another character
    have hcut {x : List Char}
        (h : Step.run (feed b enc sep) (⟨.literal, codes B⟩, stack) (codes x) =
          .ok (s', line :: lines))
        (hends : ∃ a y, x = a :: y ∧ EndsLiteral a) : False := by
      obtain ⟨a, y, rfl, ha⟩ := hends
      have hfield := prefix_unique (prefix_of_literal_end henc hB ha h rfl) hline
      simpa using utf8_injective hfield
    by_cases hdecodes : U8ToU32.Decodes c
    · rw [spoilt_of_decodes hdecodes]
      by_cases hends : EndsLiteral c
      · simp only [hends, not_true_eq_false, and_false, false_and, iff_false]
        exact fun h => hcut h ⟨c, _, rfl, hends⟩
      · rw [List.singleton_append, run_feed_silent (feed_literal hends), hwhole,
          ih (by simp) (hwhole ▸ hline)]
        simp [hdecodes, hends]
    · obtain ⟨a, x, hspoilt, -, -, hne, -⟩ := spoilt_of_not_decodes hdecodes
      rw [hspoilt]
      simp only [hdecodes, false_and, iff_false]
      intro h
      by_cases hends : EndsLiteral a
      · exact hcut h ⟨a, _, rfl, hends⟩
      · simp only [List.cons_append] at h
        rw [run_feed_silent (feed_literal hends)] at h
        obtain ⟨C, hC⟩ := prefix_of_literal henc (by simp) h rfl
        have hfield := utf8_injective (prefix_unique hC hline)
        simp only [List.append_assoc, List.append_cancel_left_eq, List.singleton_append] at hfield
        exact hne (List.cons.inj hfield).1

include henc hsep in
/-- A field that is not empty. -/
theorem run_field_iff {f : List Char} (hbetween : Between state stack) (hf : PlainField s f)
    (hne : f ≠ []) (hline : stack.reverse ++ [utf8 f] <+: line) :
    Step.run (feed b enc (Tokenizer.sepByte s)) (⟨state, []⟩, stack)
        (codes (f.flatMap spoilt ++ z)) = .ok (s', line :: lines) ↔
      ReadableField f ∧ Step.run (feed b enc (Tokenizer.sepByte s)) (⟨.literal, codes f⟩, stack)
        (codes z) = .ok (s', line :: lines) := by
  obtain ⟨c, q, rfl⟩ := List.exists_cons_of_ne_nil hne
  have hreadable : ReadableField (c :: q) ↔
      U8ToU32.Decodes c ∧ ∀ x ∈ q, U8ToU32.Decodes x ∧ ¬EndsLiteral x := by
    constructor
    · rintro ⟨hdecodes, hwhole⟩
      obtain ⟨hc, hq⟩ := List.forall_mem_cons.mp hdecodes
      exact ⟨hc, fun x hx => ⟨hq x hx, hwhole x hx⟩⟩
    · rintro ⟨hc, hq⟩
      exact ⟨List.forall_mem_cons.mpr ⟨hc, fun x hx => (hq x hx).1⟩, fun x hx => (hq x hx).2⟩
  have hplain : c ∉ [' ', '\t'] ∧ c ∉ breaks ∧ c ≠ '"' :=
    ⟨hf.blank c rfl, hf.line c List.mem_cons_self, fun h => hf.quote (h ▸ List.mem_cons_self)⟩
  have hc : c ≠ s := fun h => hf.sep (h ▸ List.mem_cons_self)
  rw [flatMap_spoilt_cons, List.append_assoc, hreadable]
  by_cases hdecodes : U8ToU32.Decodes c
  · rw [spoilt_of_decodes hdecodes, List.singleton_append,
      run_feed_silent (feed_fresh hsep hbetween hc hplain), run_rest_iff henc (by simp) hline]
    simp [hdecodes]
  · -- the first character does not decode: a field that begins otherwise comes out
    obtain ⟨a, x, hspoilt, hlow, hhigh, hne', -⟩ := spoilt_of_not_decodes hdecodes
    have hplain' := plain_of_range hlow hhigh
    rw [hspoilt]
    simp only [hdecodes, false_and, iff_false, List.cons_append]
    intro h
    by_cases ha : a = s
    · -- an empty field comes in front
      subst ha
      rw [run_feed_silent (feed_sep henc hsep hbetween fun _ => hplain'.2.1)] at h
      have hempty := prefix_of_feed h rfl
      rw [List.reverse_cons] at hempty
      have hfield : utf8 [] = utf8 (c :: q) := prefix_unique hempty hline
      cases utf8_injective hfield
    · rw [run_feed_silent (feed_fresh hsep hbetween ha hplain')] at h
      obtain ⟨C, hC⟩ := prefix_of_literal henc (by simp) h rfl
      have hfield := utf8_injective (prefix_unique hC hline)
      exact hne' (List.cons.inj hfield).1

/-! #### Separators that are line breaks -/

/-- What follows is read as separators, line breaks and fields that are not quoted. -/
def Opens (s : Char) : List Char → Prop
  | [] => True
  | c :: cs => if c = s ∨ c = '\n' then Opens s cs else c ∉ [' ', '\t'] ∧ c ∉ breaks ∧ c ≠ '"'

theorem newline_mem_breaks : '\n' ∈ breaks := List.mem_cons_self

theorem opens_field {f : List Char} (hs : s ∈ breaks) (hf : PlainField s f) (hz : Opens s z) :
    Opens s (f.flatMap spoilt ++ z) := by
  cases f with
  | nil => exact hz
  | cons c q =>
    have hplain : c ∉ [' ', '\t'] ∧ c ∉ breaks ∧ c ≠ '"' :=
      ⟨hf.blank c rfl, hf.line c List.mem_cons_self, fun h => hf.quote (h ▸ List.mem_cons_self)⟩
    have hopens {a : Char} {y : List Char} (ha : a ∉ [' ', '\t'] ∧ a ∉ breaks ∧ a ≠ '"') :
        Opens s (a :: y) := by
      have hnot : ¬(a = s ∨ a = '\n') := by
        rintro (rfl | rfl)
        · exact ha.2.1 hs
        · exact ha.2.1 newline_mem_breaks
      simpa only [Opens, hnot, if_false] using ha
    rw [flatMap_spoilt_cons, List.append_assoc]
    by_cases hdecodes : U8ToU32.Decodes c
    · rw [spoilt_of_decodes hdecodes]
      exact hopens hplain
    · obtain ⟨a, x, hspoilt, hlow, hhigh, -⟩ := spoilt_of_not_decodes hdecodes
      rw [hspoilt]
      exact hopens (plain_of_range hlow hhigh)

theorem opens_cons (h : c = s ∨ c = '\n') : Opens s (c :: z) ↔ Opens s z := by
  simp only [Opens, h, if_true]

include hsep in
theorem spoilt_sep : spoilt s = [s] := spoilt_of_decodes (Or.inl (by omega))

theorem spoilt_newline : spoilt '\n' = ['\n'] := spoilt_of_decodes (by decide)

include hsep in
theorem flatMap_spoilt_intercalate (f g : List Char) (row : List (List Char)) :
    ([s].intercalate (f :: g :: row)).flatMap spoilt =
      f.flatMap spoilt ++ s :: ([s].intercalate (g :: row)).flatMap spoilt := by
  rw [List.intercalate_cons_cons, List.flatMap_append, List.flatMap_append, List.flatMap_singleton,
    spoilt_sep hsep, List.append_assoc]
  rfl

include hsep in
theorem opens_row {row : List (List Char)} (hs : s ∈ breaks) (hrow : ∀ f ∈ row, PlainField s f)
    (hz : Opens s z) : Opens s (([s].intercalate row).flatMap spoilt ++ '\n' :: z) := by
  have hnewline : Opens s ('\n' :: z) := (opens_cons (Or.inr rfl)).mpr hz
  induction row with
  | nil => exact hnewline
  | cons f row ih =>
    obtain ⟨hf, hrest⟩ := List.forall_mem_cons.mp hrow
    cases row with
    | nil =>
      rw [List.intercalate_singleton]
      exact opens_field hs hf hnewline
    | cons g row =>
      rw [flatMap_spoilt_intercalate hsep, List.append_assoc]
      exact opens_field hs hf ((opens_cons (Or.inl rfl)).mpr (ih hrest))

include henc hsep in
/-- Behind a line, a separator that is a line break is passed over with the field in front of
it: the first field that is read is not empty. -/
theorem head_of_opens (hs : s ∈ breaks) (hz : Opens s z)
    (h : Step.run (feed b enc (Tokenizer.sepByte s)) (⟨.eol, []⟩, []) (codes z) = .ok r)
    (hlines : r.2 = line :: lines) : line.head? ≠ some [] := by
  induction z with
  | nil =>
    cases (Prod.mk.inj (Except.ok.inj h)).2.trans hlines
  | cons c z ih =>
    by_cases hc : c = s ∨ c = '\n'
    · have hbreak : c ∈ breaks := hc.elim (fun h => h ▸ hs) fun h => h ▸ newline_mem_breaks
      rw [run_feed_silent (feed_eol_break hbreak)] at h
      exact ih ((opens_cons hc).mp hz) h
    · simp only [Opens, hc, if_false] at hz
      have hbetween : Between .eol [] := Or.inr ⟨Or.inr rfl, rfl⟩
      rw [run_feed_silent (feed_fresh hsep hbetween (fun h => hc (Or.inl h)) hz)] at h
      obtain ⟨C, rest, rfl⟩ := prefix_of_literal henc (by simp) h hlines
      simp

include henc hsep in
/-- Behind a separator a line goes on, even where a row ends with it. -/
theorem longer_of_opens (hstack : stack ≠ []) (hs : s = '\n') (hz : Opens s z) (hne : z ≠ [])
    (h : Step.run (feed b enc (Tokenizer.sepByte s)) (⟨.separator, []⟩, stack) (codes z) = .ok r)
    (hlines : r.2 = line :: lines) : line ≠ stack.reverse := by
  have hbetween : Between .separator stack := Or.inl ⟨rfl, hstack⟩
  have hlonger {field : Bytes} (hstart : stack.reverse ++ [field] <+: line) :
      line ≠ stack.reverse := by
    rintro rfl
    simpa using hstart.length_le
  obtain ⟨c, z, rfl⟩ := List.exists_cons_of_ne_nil hne
  by_cases hc : c = s
  · subst hc
    rw [run_feed_silent (feed_sep henc hsep hbetween (by simp))] at h
    have hstart := prefix_of_feed h hlines
    rw [List.reverse_cons] at hstart
    exact hlonger hstart
  · have hnot : ¬(c = s ∨ c = '\n') := by rwa [hs, or_self, ← hs]
    simp only [Opens, hnot, if_false] at hz
    rw [run_feed_silent (feed_fresh hsep hbetween hc hz)] at h
    obtain ⟨C, hC⟩ := prefix_of_literal henc (by simp) h hlines
    exact hlonger hC

/-! #### Rows -/

include henc hsep in
/-- The last field of a row. -/
theorem run_last_iff {f : List Char} (hbetween : Between state stack) (hf : PlainField s f)
    (hone : stack = [] → f ≠ []) (hz : s ∈ breaks → Opens s z ∧ z ≠ []) :
    Step.run (feed b enc (Tokenizer.sepByte s)) (⟨state, []⟩, stack)
        (codes (f.flatMap spoilt ++ '\n' :: z)) = .ok (s', (stack.reverse ++ [utf8 f]) :: lines) ↔
      (s ≠ '\n' ∧ ReadableField f ∧ f ≠ []) ∧
        Step.run (feed b enc (Tokenizer.sepByte s)) (⟨.eol, []⟩, []) (codes z) =
          .ok (s', lines) := by
  -- a separator in the place of the line break does not end the line
  have hgoes {fields : List Bytes} (hfields : fields ≠ []) (hs : s = '\n')
      (h : Step.run (feed b enc (Tokenizer.sepByte s)) (⟨.separator, []⟩, fields) (codes z) =
        .ok (s', fields.reverse :: lines)) : False := by
    obtain ⟨hopens, hne⟩ := hz (hs ▸ newline_mem_breaks)
    exact longer_of_opens henc hsep hfields hs hopens hne h rfl rfl
  have hreverse : stack.reverse ++ [utf8 f] = (utf8 f :: stack).reverse := by simp
  by_cases hempty : f = []
  · subst hempty
    have hstack : stack ≠ [] := fun h => hone h rfl
    refine iff_of_false (fun h => ?_) fun h => h.1.2.2 rfl
    rw [List.flatMap_nil, List.nil_append] at h
    by_cases hs : s = '\n'
    · have hstate : state = .eol → s ∉ breaks := by
        rintro rfl
        exact absurd (hbetween.resolve_left fun h => by cases h.1).2 hstack
      rw [← hs, run_feed_silent (feed_sep henc hsep hbetween hstate), hreverse] at h
      exact hgoes (List.cons_ne_nil _ _) hs h
    · -- nothing stands for the field behind the last separator
      have hstep : feed b enc (Tokenizer.sepByte s) (⟨state, []⟩, stack) '\n'.toNat = _ :=
        feed_break hsep hbetween (Ne.symm hs) newline_mem_breaks
      rw [if_neg hstack] at hstep
      obtain ⟨hline, -⟩ := (Step.run_cons_emit_iff hstep).mp h
      simpa using congrArg List.length hline
  · rw [run_field_iff henc hsep hbetween hf hempty (List.prefix_refl _)]
    by_cases hs : s = '\n'
    · refine iff_of_false (fun h => ?_) fun h => h.1.1 hs
      obtain ⟨-, h⟩ := h
      have hends : EndsLiteral s := List.mem_append_left _ (hs ▸ newline_mem_breaks)
      rw [← hs, run_feed_silent (feed_literal_sep henc hsep hempty hends), hreverse] at h
      exact hgoes (List.cons_ne_nil _ _) hs h
    · have hstep : feed b enc (Tokenizer.sepByte s) (⟨.literal, codes f⟩, stack) '\n'.toNat = _ :=
        feed_literal_break henc hsep hempty (Ne.symm hs) newline_mem_breaks
      rw [codes_cons, Step.run_cons_emit_iff hstep]
      simp [hs, hempty]

include henc hsep in
/-- One row, from the field that comes next to its end. -/
theorem run_row_iff {f : List Char} {row : List (List Char)} (hbetween : Between state stack)
    (hplain : ∀ g ∈ f :: row, PlainField s g) (hone : stack = [] → row = [] → f ≠ [])
    (hz : s ∈ breaks → Opens s z ∧ z ≠ []) :
    Step.run (feed b enc (Tokenizer.sepByte s)) (⟨state, []⟩, stack)
        (codes (([s].intercalate (f :: row)).flatMap spoilt ++ '\n' :: z)) =
          .ok (s', (stack.reverse ++ encoded (f :: row)) :: lines) ↔
      (s ≠ '\n' ∧ ReadableRow s (f :: row) ∧ (s = '\r' → state = .eol → f ≠ [])) ∧
        Step.run (feed b enc (Tokenizer.sepByte s)) (⟨.eol, []⟩, []) (codes z) =
          .ok (s', lines) := by
  -- the stack holds the fields that are read, and the line starts with them
  induction row generalizing f state stack with
  | nil =>
    have hf : PlainField s f := hplain f List.mem_cons_self
    rw [List.intercalate_singleton, readableRow_singleton, encoded, List.map_singleton,
      run_last_iff henc hsep hbetween hf (fun h => hone h rfl) hz]
    refine and_congr_left' (and_congr_right' ⟨fun h => ⟨h, fun _ _ => h.2⟩, fun h => h.1⟩)
  | cons g row ih =>
    obtain ⟨hf, hrow⟩ := List.forall_mem_cons.mp hplain
    have hline : stack.reverse ++ encoded (f :: g :: row) =
        (utf8 f :: stack).reverse ++ encoded (g :: row) := by simp [encoded]
    have hfield : stack.reverse ++ [utf8 f] <+: stack.reverse ++ encoded (f :: g :: row) :=
      ⟨encoded (g :: row), by simp [encoded]⟩
    have hnext : Between .separator (utf8 f :: stack) := Or.inl ⟨rfl, List.cons_ne_nil _ _⟩
    have hrest := ih hnext hrow fun h => by cases h
    rw [flatMap_spoilt_intercalate hsep, List.append_assoc, readableRow_cons, List.cons_append]
    by_cases hempty : f = []
    · subst hempty
      rw [List.flatMap_nil, List.nil_append]
      by_cases hskip : state = .eol ∧ s ∈ breaks
      · -- a separator that is a line break is skipped after a line break
        obtain ⟨rfl, hs⟩ := hskip
        obtain ⟨-, rfl⟩ := hbetween.resolve_left fun h => by cases h.1
        refine iff_of_false (fun h => ?_) ?_
        · rw [run_feed_silent (feed_eol_break hs)] at h
          exact head_of_opens henc hsep hs (opens_row hsep hs hrow (hz hs).1) h rfl rfl
        · rintro ⟨⟨hnewline, -, hcarriage⟩, -⟩
          obtain rfl | rfl : s = '\n' ∨ s = '\r' := by simpa [breaks] using hs
          · exact hnewline rfl
          · exact hcarriage rfl rfl rfl
      · have hcarriage (hs : s = '\r') (h : state = .eol) : ([] : List Char) ≠ [] :=
          absurd ⟨h, by simp [hs, breaks]⟩ hskip
        rw [run_feed_silent (feed_sep henc hsep hbetween fun h hs => hskip ⟨h, hs⟩), hline]
        refine hrest.trans (and_congr_left' (and_congr_right' ?_))
        constructor
        · rintro ⟨hrow', -⟩
          exact ⟨⟨readableField_nil, Or.inr rfl, hrow'⟩, hcarriage⟩
        · rintro ⟨⟨-, -, hrow'⟩, -⟩
          exact ⟨hrow', fun _ h => by cases h⟩
    · rw [run_field_iff henc hsep hbetween hf hempty hfield]
      by_cases hends : EndsLiteral s
      · rw [run_feed_silent (feed_literal_sep henc hsep hempty hends), hline, hrest]
        constructor
        · rintro ⟨hfield', ⟨hnewline, hrow', -⟩, hrun⟩
          exact ⟨⟨hnewline, ⟨hfield', Or.inl hends, hrow'⟩, fun _ _ => hempty⟩, hrun⟩
        · rintro ⟨⟨hnewline, ⟨hfield', -, hrow'⟩, -⟩, hrun⟩
          exact ⟨hfield', ⟨hnewline, hrow', fun _ h => by cases h⟩, hrun⟩
      · -- the separator becomes part of the field
        refine iff_of_false (fun h => ?_) fun h => h.1.2.1.2.1.elim hends hempty
        obtain ⟨-, h⟩ := h
        rw [run_feed_silent (feed_literal hends)] at h
        obtain ⟨C, hC⟩ := prefix_of_literal henc (by simp) h rfl
        simpa using utf8_injective (prefix_unique hC hfield)

theorem text_cons (row : List (List Char)) (rows : List (List (List Char))) :
    text s (row :: rows) = [s].intercalate row ++ '\n' :: text s rows := by
  simp [text]

theorem flatMap_spoilt_text (row : List (List Char)) (rows : List (List (List Char))) :
    (text s (row :: rows) ++ ['\n']).flatMap spoilt =
      ([s].intercalate row).flatMap spoilt ++ '\n' :: (text s rows ++ ['\n']).flatMap spoilt := by
  rw [text_cons, List.append_assoc, List.flatMap_append, List.cons_append, List.flatMap_cons,
    spoilt_newline]
  rfl

include hsep in
theorem opens_text {rows : List (List (List Char))} (hs : s ∈ breaks)
    (hplain : ∀ row ∈ rows, PlainRow s row) :
    Opens s ((text s rows ++ ['\n']).flatMap spoilt) := by
  induction rows with
  | nil => exact (opens_cons (Or.inr rfl)).mpr trivial
  | cons row rows ih =>
    obtain ⟨hrow, hrows⟩ := List.forall_mem_cons.mp hplain
    rw [flatMap_spoilt_text]
    exact opens_row hsep hs hrow.2 (ih hrows)

include henc hsep in
/-- All rows, from the first state or behind a line. -/
theorem run_rows_iff {rows : List (List (List Char))} (hbetween : Between state [])
    (hplain : ∀ row ∈ rows, PlainRow s row) :
    (∃ s', Step.run (feed b enc (Tokenizer.sepByte s)) (⟨state, []⟩, [])
        (codes ((text s rows ++ ['\n']).flatMap spoilt)) = .ok (s', rows.map encoded)) ↔
      (s = '\n' → rows = []) ∧ (∀ row ∈ rows, ReadableRow s row) ∧
        (s = '\r' → ∀ row ∈ if state = .eol then rows else rows.tail, row.head? ≠ some []) := by
  induction rows generalizing state with
  | nil =>
    refine iff_of_true ?_ ⟨fun _ => rfl, by simp, by simp⟩
    have htext : codes ((text s [] ++ ['\n']).flatMap spoilt) = ['\n'.toNat] := rfl
    -- nothing but the newline that is appended
    simp only [htext, Step.run_singleton_eq, List.map_nil]
    by_cases hs : s = '\n'
    · subst hs
      by_cases hstate : state = .eol
      · subst hstate
        exact ⟨_, feed_eol_break newline_mem_breaks⟩
      · exact ⟨_, feed_sep henc hsep hbetween fun h => absurd h hstate⟩
    · exact ⟨_, feed_break hsep hbetween (Ne.symm hs) newline_mem_breaks⟩
  | cons row rows ih =>
    obtain ⟨⟨hsize, hrow⟩, hrows⟩ := List.forall_mem_cons.mp hplain
    obtain ⟨f, row, rfl⟩ : ∃ f fs, row = f :: fs := by
      cases row with
      | nil => simp at hsize
      | cons f fs => exact ⟨f, fs, rfl⟩
    have hone : ([] : List Bytes) = [] → row = [] → f ≠ [] := by
      rintro - rfl
      obtain hsize | ⟨g, hg, hfg⟩ := hsize
      · simp at hsize
      · rwa [(List.cons.inj hfg).1]
    have hz (hs : s ∈ breaks) : Opens s ((text s rows ++ ['\n']).flatMap spoilt) ∧
        (text s rows ++ ['\n']).flatMap spoilt ≠ [] := by
      refine ⟨opens_text hsep hs hrows, ?_⟩
      rw [List.flatMap_append, List.flatMap_singleton, spoilt_newline]
      simp
    have hnext := ih (Or.inr ⟨Or.inr rfl, rfl⟩) hrows
    rw [flatMap_spoilt_text]
    constructor
    · rintro ⟨s', h⟩
      obtain ⟨⟨hnewline, hreadable, hcarriage⟩, hrun⟩ :=
        (run_row_iff henc hsep hbetween hrow hone hz).mp h
      obtain ⟨-, hreadables, hcarriages⟩ := hnext.mp ⟨s', hrun⟩
      rw [if_pos rfl] at hcarriages
      refine ⟨fun hs => absurd hs hnewline, List.forall_mem_cons.mpr ⟨hreadable, hreadables⟩,
        fun hs => ?_⟩
      split_ifs with hstate
      · exact List.forall_mem_cons.mpr ⟨by simpa using hcarriage hs hstate, hcarriages hs⟩
      · exact hcarriages hs
    · rintro ⟨hnewline, hreadable, hcarriage⟩
      have hnewline' : s ≠ '\n' := fun hs => by cases hnewline hs
      obtain ⟨hreadable, hreadables⟩ := List.forall_mem_cons.mp hreadable
      have hrest : s = '\r' → ∀ row ∈ rows, row.head? ≠ some [] := by
        intro hs
        have hall := hcarriage hs
        split_ifs at hall
        · exact (List.forall_mem_cons.mp hall).2
        · exact hall
      have hhead (hs : s = '\r') (hstate : state = .eol) : f ≠ [] := by
        have hall := hcarriage hs
        rw [if_pos hstate] at hall
        simpa using (List.forall_mem_cons.mp hall).1
      obtain ⟨s', hrun⟩ :=
        hnext.mpr ⟨fun hs => absurd hs hnewline', hreadables, by simpa using hrest⟩
      exact ⟨s', (run_row_iff henc hsep hbetween hrow hone hz).mpr
        ⟨⟨hnewline', hreadable, hhead⟩, hrun⟩⟩

end Feed

/-! ### Byte order marks -/

/-- Characters that count where a byte order mark is lost: one that escape sequences need, the
mark itself, and those that are not decoded. -/
def marks (key : Char) (cp : ℕ) : Bool :=
  cp = key.toNat || cp = 0xFEFF || (0x400 ≤ cp && cp < 0x800)

section Marks

variable {counts : ℕ → Bool} {s : Char}

/-- Separators that do not count do not matter in a row. -/
theorem countP_row (hsep : counts s.toNat = false) (row : List (List Char)) :
    (codes ([s].intercalate row)).countP counts = (codes row.flatten).countP counts := by
  induction row with
  | nil => rfl
  | cons f row ih =>
    cases row with
    | nil => simp
    | cons g row =>
      rw [List.intercalate_cons_cons, List.flatten_cons, codes_append, codes_append, codes_append,
        List.countP_append, List.countP_append, List.countP_append, ih]
      simp [hsep]

theorem countP_text (hsep : counts s.toNat = false) (hnewline : counts '\n'.toNat = false)
    (rows : List (List (List Char))) :
    (codes (text s rows)).countP counts = (codes rows.flatten.flatten).countP counts := by
  induction rows with
  | nil => rfl
  | cons row rows ih =>
    have hnone : (codes ('\n' :: text s rows)).countP counts =
        (codes (text s rows)).countP counts :=
      List.countP_cons_of_neg (Bool.eq_false_iff.mp hnewline)
    rw [text_cons, List.flatten_cons, List.flatten_append, codes_append, codes_append,
      List.countP_append, List.countP_append, countP_row hsep, hnone, ih]

/-- Where a character that is not decoded counts, what is read for it is not worth more: only
one of the two characters can count. -/
theorem countP_spoilt (hbad : ∀ c, ¬U8ToU32.Decodes c → counts c.toNat = true)
    (hone : (∀ cp, 0x50 ≤ cp → cp < 0x60 → counts cp = false) ∨
      ∀ cp, cp < 0x40 → counts cp = false) (cs : List Char) :
    (codes (cs.flatMap spoilt)).countP counts ≤ (codes cs).countP counts := by
  induction cs with
  | nil => exact Nat.le_refl _
  | cons c cs ih =>
    have hchar : (codes (spoilt c)).countP counts ≤ [c.toNat].countP counts := by
      by_cases hdecodes : U8ToU32.Decodes c
      · rw [spoilt_of_decodes hdecodes]
        rfl
      · obtain ⟨a, x, hspoilt, hlow, hhigh, -, hx⟩ := spoilt_of_not_decodes hdecodes
        have hc : [c.toNat].countP counts = 1 := List.countP_cons_of_pos (hbad c hdecodes)
        rw [hspoilt, hc]
        have hsum : (codes [a, x]).countP counts =
            [a.toNat].countP counts + [x.toNat].countP counts :=
          @List.countP_append _ counts [a.toNat] [x.toNat]
        have hle (cp : ℕ) : [cp].countP counts ≤ 1 := List.countP_le_length
        have hzero {cp : ℕ} (h : counts cp = false) : [cp].countP counts = 0 :=
          List.countP_cons_of_neg (Bool.eq_false_iff.mp h)
        -- one of the two code points is in a range that does not count
        rw [hsum]
        obtain hlead | htail := hone
        · rw [hzero (hlead _ hlow hhigh), Nat.zero_add]
          exact hle _
        · rw [hzero (htail _ hx)]
          exact hle _
    rw [flatMap_spoilt_cons, codes_append, codes_cons, List.countP_append, ← List.singleton_append,
      List.countP_append]
    exact Nat.add_le_add hchar ih

end Marks

section Main

variable {b : Build} {enc : Encoder} (henc : enc.Lawful) {s : Char} (hsep : s.toNat < 0x80)

include henc in
/-- What is read of a text, counted. -/
theorem countP_le_of_run {counts : ℕ → Bool} {key : Char} (hkey : Priced counts key)
    {z : List Char} {rows : List (List (List Char))} {s' : Tokenizer × List Bytes} {sep : UInt8}
    (h : Step.run (feed b enc sep) (.initial, []) (codes z) = .ok (s', rows.map encoded)) :
    (codes rows.flatten.flatten).countP counts ≤ (codes z).countP counts := by
  obtain ⟨syms, hnext, hsyms⟩ := Step.run_pipe_eq_ok_iff.mp h
  have hsettled : Tokenizer.initial.Settled := rfl
  obtain ⟨-, htokens⟩ := pays_tokens henc hkey hsettled hnext
  have hfields : (codes rows.flatten.flatten).countP counts ≤
      (syms.map (symbolWeight enc counts)).sum := countP_le_of_symbols henc hsyms
  have hinitial : Tokenizer.initial.owed counts key = 0 := rfl
  omega

include henc hsep in
/-- A text that begins with a byte order mark does not come back. -/
theorem not_reads_of_mark {rows : List (List (List Char))}
    (hmark : (text s rows).head? = some byteOrderMark) : ¬Reads b enc s rows := by
  intro hreads
  obtain ⟨s', hrun⟩ := read_initial_iff.mp hreads
  obtain ⟨cs, htext⟩ : ∃ cs, text s rows = byteOrderMark :: cs := by
    cases h : text s rows with
    | nil => simp [h] at hmark
    | cons c cs =>
      rw [h] at hmark
      exact ⟨cs, by rw [Option.some.inj hmark]⟩
  -- the separator itself must not count
  obtain ⟨key, hkey, hother, hone⟩ : ∃ key, Priced (marks key) key ∧ key ≠ s ∧
      ((∀ cp, 0x50 ≤ cp → cp < 0x60 → marks key cp = false) ∨
        ∀ cp, cp < 0x40 → marks key cp = false) := by
    by_cases hu : s = 'u'
    · refine ⟨'\\', ⟨by decide, by decide, Or.inl rfl⟩, by simp [hu], Or.inr fun cp hcp => ?_⟩
      have h1 : cp ≠ 92 := by omega
      have h2 : cp ≠ 0xFEFF := by omega
      have h3 : ¬0x400 ≤ cp := by omega
      simp [marks, h1, h2, h3]
    · refine ⟨'u', ⟨by decide, by decide, Or.inr ⟨rfl, by decide⟩⟩, Ne.symm hu,
        Or.inl fun cp _ hcp => ?_⟩
      have h1 : cp ≠ 117 := by omega
      have h2 : cp ≠ 0xFEFF := by omega
      have h3 : ¬0x400 ≤ cp := by omega
      simp [marks, h1, h2, h3]
  have hs : marks key s.toNat = false := by
    have h1 : s.toNat ≠ key.toNat := fun h => hother (Char.toNat_inj.mp h).symm
    have h2 : s.toNat ≠ 0xFEFF := by omega
    have h3 : ¬0x400 ≤ s.toNat := by omega
    simp [marks, h1, h2, h3]
  have hnewline : marks key '\n'.toNat = false := by
    obtain ⟨-, -, rfl | ⟨rfl, -⟩⟩ := hkey <;> decide
  have hbad (c : Char) (h : ¬U8ToU32.Decodes c) : marks key c.toNat = true := by
    simp only [U8ToU32.Decodes, not_or, not_lt, not_le] at h
    simp [marks, h]
  have hle := countP_le_of_run henc hkey hrun
  have hspoilt := countP_spoilt hbad hone (cs ++ ['\n'])
  have hin := countP_text hs hnewline rows
  have hfirst : (codes (byteOrderMark :: cs)).countP (marks key) =
      (codes cs).countP (marks key) + 1 :=
    List.countP_cons_of_pos (by simp [marks, byteOrderMark])
  have hlast : (codes (cs ++ ['\n'])).countP (marks key) = (codes cs).countP (marks key) := by
    rw [codes_append, List.countP_append]
    exact congrArg _ (List.countP_cons_of_neg (Bool.eq_false_iff.mp hnewline))
  rw [htext, hfirst] at hin
  rw [htext, withoutMark, if_pos rfl] at hle
  omega

include henc hsep in
/-- Rows of plain fields come back exactly if they are readable. -/
theorem reads_iff {rows : List (List (List Char))} (hplain : ∀ row ∈ rows, PlainRow s row) :
    Reads b enc s rows ↔ Readable s rows := by
  by_cases hmark : (text s rows).head? = some byteOrderMark
  · exact iff_of_false (not_reads_of_mark henc hsep hmark) fun h => h.mark hmark
  · have hbetween : Between .start [] := Or.inr ⟨Or.inl rfl, rfl⟩
    have hrows := run_rows_iff (b := b) henc hsep hbetween hplain
    rw [if_neg (by decide)] at hrows
    rw [Reads, read_initial_iff, withoutMark_of_head hmark]
    exact hrows.trans
      ⟨fun h => ⟨h.2.1, hmark, h.1, h.2.2⟩, fun h => ⟨h.newline, h.row, h.carriage⟩⟩

end Main

/-! ### Examples -/

/-- The conversion that is used for examples. -/
def sampleEncoder : Encoder := Json.Library.sample.u32ToU8

theorem lawful_sampleEncoder : sampleEncoder.Lawful :=
  ⟨Json.Library.lawful_sample.u32ToU8_codes, Json.Library.lawful_sample.u32ToU8_injective⟩

/-- Two rows, one with an empty field in front. -/
def sampleRows : List (List (List Char)) := [[['a'], ['b', ' ', 'c']], [[], [':']]]

theorem plainField_nil {s : Char} : PlainField s [] := ⟨by simp, by simp, by simp, by simp⟩

theorem plainRow_sampleRows : ∀ row ∈ sampleRows, PlainRow ',' row := by
  have ha : PlainField ',' ['a'] := ⟨by simp, by simp, by simp [breaks], by simp⟩
  have hb : PlainField ',' ['b', ' ', 'c'] := ⟨by simp, by simp, by simp [breaks], by simp⟩
  have hcolon : PlainField ',' [':'] := ⟨by simp, by simp, by simp [breaks], by simp⟩
  simp only [sampleRows, List.forall_mem_cons]
  refine ⟨⟨Or.inl (Nat.le_refl 2), ?_⟩, ⟨Or.inl (Nat.le_refl 2), ?_⟩, by simp⟩
  · simpa using ⟨ha, hb⟩
  · simpa using ⟨plainField_nil, hcolon⟩

theorem reads_iff_sampleRows :
    Reads .debug sampleEncoder ',' sampleRows ↔ Readable ',' sampleRows :=
  reads_iff lawful_sampleEncoder (by decide) plainRow_sampleRows

/-- A semicolon between two fields is read as part of the first one. -/
theorem not_reads_semicolon :
    PlainRow ';' [['a'], ['b']] ∧ ¬Reads .debug sampleEncoder ';' [[['a'], ['b']]] := by
  constructor
  · have ha : PlainField ';' ['a'] := ⟨by simp, by simp, by simp [breaks], by simp⟩
    have hb : PlainField ';' ['b'] := ⟨by simp, by simp, by simp [breaks], by simp⟩
    refine ⟨Or.inl (Nat.le_refl 2), ?_⟩
    simpa using ⟨ha, hb⟩
  · rintro ⟨r, h⟩
    have hread : Reader.read .debug sampleEncoder (Tokenizer.sepByte ';') .initial
        (utf8 (text ';' [[['a'], ['b']]])) =
        .ok (⟨4, .initial, ⟨.eol, []⟩, []⟩, [[[0x61, 0x3B, 0x62]]]) := by rfl
    cases hread.symm.trans h

end Csv

end Cyng
