import Cyng.Csv.Parser

/-!
# What a text is worth

Some characters are counted on the way through the parser. A literal passes on what it is made
of. Quotation marks are dropped, and an escape sequence may stand for any character, but it
takes one character more than it gives. So the fields that come out never hold more of the
characters that count than the text that went in.
-/

namespace Cyng

open Theory

namespace Csv

open Json (oneOf hexDigits codes codes_append codes_cons codes_nil)

/-- The characters that count: one of those an escape sequence needs is among them, and so is
none of those it gives for nothing. -/
structure Priced (counts : ℕ → Bool) (key : Char) : Prop where
  counted : counts key.toNat = true
  mark : counts 1 = false
  escape : key = '\\' ∨ key = 'u' ∧ ∀ cp ∈ [8, 9, 10, 12, 13], counts cp = false

namespace Tokenizer

/-- Between two fields the buffer is empty, and a literal consists of characters. -/
def Settled (t : Tokenizer) : Prop :=
  match t.state with
  | .start | .separator | .eol => t.buffer = []
  | .literal => ∃ cs, t.buffer = codes cs
  | _ => True

variable (counts : ℕ → Bool) (key : Char)

/-- What an escape sequence has paid already. -/
def credit : TokenizerState → ℕ
  | .unicode => 1
  | .escape => if key = '\\' then 1 else 0
  | _ => 0

def owed (t : Tokenizer) : ℕ := t.buffer.countP counts + credit key t.state

end Tokenizer

/-- What the code points are worth that a text was made from. -/
noncomputable def textWeight (enc : Encoder) (counts : ℕ → Bool) (value : Bytes) : ℕ :=
  open Classical in
  if h : ∃ cps, enc cps = .ok value then h.choose.countP counts else 0

section Weights

variable {b : Build} {enc : Encoder} (henc : enc.Lawful) {sep : UInt8} {counts : ℕ → Bool}
  {key : Char}

include henc in
theorem textWeight_of_ok {cps : List ℕ} {value : Bytes} (h : enc cps = .ok value) :
    textWeight enc counts value = cps.countP counts := by
  have hex : ∃ cps, enc cps = .ok value := ⟨cps, h⟩
  rw [textWeight, dif_pos hex, henc.injective _ _ _ hex.choose_spec h]

include henc in
theorem textWeight_utf8 (cs : List Char) :
    textWeight enc counts (utf8 cs) = (codes cs).countP counts :=
  textWeight_of_ok henc (henc.characters cs)

/-- Only what becomes a field counts. -/
noncomputable def symbolWeight (enc : Encoder) (counts : ℕ → Bool) (sym : Symbol) : ℕ :=
  match sym.type with
  | .string | .nothing => textWeight enc counts sym.value
  | .separator | .eol => 0

namespace Tokenizer

/-- A call of the tokenizer pays for what it emits and for what it keeps. -/
def Pays (enc : Encoder) (counts : ℕ → Bool) (key : Char) (t : Tokenizer) (c : Char)
    (reply : Reply) : Prop :=
  reply.1.Settled ∧ (reply.2.1.map (symbolWeight enc counts)).sum + reply.1.owed counts key ≤
    t.owed counts key + if reply.2.2 then [c.toNat].countP counts else 0

variable {t : Tokenizer} {c : Char} {reply : Reply}

/-- Nothing is emitted, and the buffer stays. -/
theorem pays_state {state : TokenizerState} {advance : Bool}
    (hsettled : Settled { t with state }) (hcredit : credit key state ≤ credit key t.state) :
    Pays enc counts key t c ({ t with state }, [], advance) := by
  refine ⟨hsettled, ?_⟩
  simp only [List.map_nil, List.sum_nil, owed]
  omega

/-- A code point is appended that costs no more than there is. -/
theorem pays_append {state : TokenizerState} {cp : ℕ}
    (hsettled : Settled ⟨state, t.buffer ++ [cp]⟩)
    (hcredit : [cp].countP counts + credit key state ≤
      credit key t.state + [c.toNat].countP counts) :
    Pays enc counts key t c (t.append cp state) := by
  refine ⟨hsettled, ?_⟩
  simp only [append, List.map_nil, List.sum_nil, owed, List.countP_append, if_true]
  omega

theorem countP_singleton_le (cp : ℕ) : [cp].countP counts ≤ 1 := List.countP_le_length

theorem pays_start (ht : t.state = .start) (hsettled : t.Settled) :
    Pays enc counts key t c (t.stateStart sep c.toNat) := by
  have hempty : t.buffer = [] := by simpa [Settled, ht] using hsettled
  unfold stateStart
  split_ifs with hsep hblank hbreak hquote
  · exact ⟨hempty, by simp [symbolWeight, charSymbol, owed, credit, hempty]⟩
  · exact ⟨hsettled, by simp⟩
  · exact ⟨hempty, by simp [symbolWeight, charSymbol, owed, credit, hempty]⟩
  · exact ⟨trivial, by simp [goto, owed, credit, hempty]⟩
  · exact pays_append ⟨[c], by simp [hempty]⟩ (by simp [credit])

theorem pays_eol (ht : t.state = .eol) (hsettled : t.Settled) :
    Pays enc counts key t c (t.stateEol c.toNat) := by
  have hempty : t.buffer = [] := by simpa [Settled, ht] using hsettled
  unfold stateEol
  split_ifs
  · exact ⟨hsettled, by simp⟩
  · exact pays_state hempty (by simp [credit])

include henc in
theorem pays_separator (ht : t.state = .separator) (hsettled : t.Settled)
    (h : t.stateSeparator b enc sep c.toNat = .ok reply) : Pays enc counts key t c reply := by
  have hempty : t.buffer = [] := by simpa [Settled, ht] using hsettled
  unfold stateSeparator at h
  split_ifs at h
  · obtain ⟨_, -, h⟩ := bind_eq_ok_iff.mp h
    have hnothing : makeSymbol enc .nothing t.buffer = .ok ⟨.nothing, []⟩ := by
      rw [hempty, makeSymbol, show enc [] = .ok [] from henc.characters []]
    rw [hnothing] at h
    cases h
    have hweight : textWeight enc counts [] = 0 := textWeight_utf8 henc []
    exact ⟨hsettled, by simp [symbolWeight, charSymbol, hweight]⟩
  · cases h
    exact pays_state hempty (by simp [credit])

include henc in
theorem pays_string (hkey : Priced counts key) (ht : t.state = .string)
    (h : t.stateString enc c.toNat = .ok reply) : Pays enc counts key t c reply := by
  unfold stateString at h
  split_ifs at h with hquote hescape
  · obtain ⟨sym, hsym, h⟩ := bind_eq_ok_iff.mp h
    cases h
    unfold makeSymbol at hsym
    split at hsym
    case h_2 => cases hsym
    case h_1 value hvalue =>
      cases hsym
      refine ⟨rfl, ?_⟩
      simp [symbolWeight, textWeight_of_ok henc hvalue, owed, initial, credit, ht]
  · cases h
    refine ⟨trivial, ?_⟩
    have hc : c = '\\' := by simpa using hescape
    -- a backslash is replaced, and worth what it may be replaced by
    have hcounted := hkey.counted
    simp only [goto, List.map_nil, List.sum_nil, owed, credit, ht, if_true]
    split_ifs with h
    · rw [hc, ← h]
      simp [hcounted]
    · omega
  · cases h
    refine pays_append ?_ (by simp [ht, credit])
    rw [ht]
    trivial

include henc in
theorem pays_literal (ht : t.state = .literal) (hsettled : t.Settled)
    (h : t.stateLiteral enc c.toNat = .ok reply) : Pays enc counts key t c reply := by
  obtain ⟨cs, hbuffer⟩ : ∃ cs, t.buffer = codes cs := by simpa [Settled, ht] using hsettled
  unfold stateLiteral at h
  split_ifs at h
  · obtain ⟨sym, hsym, h⟩ := bind_eq_ok_iff.mp h
    cases h
    have hvalue : enc t.buffer = .ok (utf8 cs) := hbuffer ▸ henc.characters cs
    have hweight : symbolWeight enc counts sym = t.buffer.countP counts := by
      unfold buildLiteral makeSymbol at hsym
      rw [hvalue] at hsym
      split_ifs at hsym <;> cases hsym <;> exact textWeight_of_ok henc hvalue
    refine ⟨rfl, ?_⟩
    simp [hweight, owed, initial, credit]
  · cases h
    refine pays_append ?_ (by simp [ht, credit])
    rw [ht, hbuffer]
    exact ⟨cs ++ [c], by simp⟩

theorem pays_escape (hkey : Priced counts key) (ht : t.state = .escape) :
    Pays enc counts key t c (t.stateEscape c.toNat) := by
  -- a character that is written as an escape sequence
  have hfree {cp : ℕ} (hcp : cp ∈ [8, 9, 10, 12, 13]) :
      Pays enc counts key t c (t.append cp .string) := by
    refine pays_append trivial ?_
    have hone : [cp].countP counts ≤ 1 := countP_singleton_le cp
    obtain rfl | ⟨rfl, hnone⟩ := hkey.escape
    · simp only [ht, credit, if_true]
      omega
    · have hzero : [cp].countP counts = 0 := by simpa using hnone cp hcp
      simp only [hzero, credit]
      omega
  unfold stateEscape
  split_ifs with h1 h2 h3 h4 h5 h6 h7
  · exact pays_append trivial (by simp [credit])
  · exact hfree (by simp)
  · exact hfree (by simp)
  · exact hfree (by simp)
  · exact hfree (by simp)
  · exact hfree (by simp)
  · refine pays_append trivial ?_
    have hc : c = 'u' := by simpa using h7
    have hcounted := hkey.counted
    have hmark : [1].countP counts = 0 := by simpa using hkey.mark
    obtain rfl | ⟨rfl, -⟩ := hkey.escape
    · simp only [hmark, ht, credit, if_true]
      omega
    · have hpaid : [c.toNat].countP counts = 1 := by
        simp only [hc, List.countP_cons, List.countP_nil, hcounted, if_true, Nat.zero_add]
      simp only [hmark, hpaid, credit]
      omega
  · exact pays_state trivial (by simp [credit])

theorem pays_unicode (ht : t.state = .unicode) (h : t.stateUnicode c.toNat = .ok reply) :
    Pays enc counts key t c reply := by
  unfold stateUnicode at h
  split_ifs at h
  · have hkeep : Pays enc counts key t c (⟨.unicode, t.buffer ++ [c.toNat]⟩, [], true) :=
      pays_append trivial (by simp [ht, credit, Nat.add_comm])
    unfold convertToUnicode at h
    simp only at h
    split_ifs at h
    · cases h
      refine ⟨trivial, ?_⟩
      -- the digits are dropped for the code point that they stand for
      have htake (n : ℕ) : ((t.buffer ++ [c.toNat]).take n).countP counts ≤
          (t.buffer ++ [c.toNat]).countP counts := (List.take_sublist n _).countP_le
      have hone (n : ℕ) : [n].countP counts ≤ 1 := countP_singleton_le n
      simp only [List.map_nil, List.sum_nil, owed, ht, credit, List.countP_append, if_true]
      refine le_trans (Nat.add_le_add_left (Nat.add_le_add (htake _) (hone _)) _) ?_
      rw [List.countP_append]
      omega
    · cases h
      exact hkeep
    · cases h
      exact hkeep
  · cases h
    exact pays_state trivial (by simp [credit])

include henc in
/-- One call of the tokenizer. -/
theorem pays_put (hkey : Priced counts key) (hsettled : t.Settled)
    (h : put b enc sep t c.toNat = .ok reply) : Pays enc counts key t c reply := by
  unfold put at h
  split at h
  case h_1 ht =>
    cases h
    exact pays_start ht hsettled
  case h_2 ht => exact pays_string henc hkey ht h
  case h_3 ht => exact pays_literal henc ht hsettled h
  case h_4 ht =>
    cases h
    exact pays_escape hkey ht
  case h_5 ht => exact pays_separator henc ht hsettled h
  case h_6 ht => exact pays_unicode ht h
  case h_7 ht =>
    cases h
    exact pays_eol ht hsettled
  case h_8 ht =>
    obtain ⟨_, -, h⟩ := bind_eq_ok_iff.mp h
    cases h
    exact ⟨hsettled, by simp⟩

variable {t' : Tokenizer} {syms : List Symbol}

include henc in
/-- A code point is paid once, however often it is offered. -/
theorem pays_replay (hkey : Priced counts key) (hsettled : t.Settled) {limit : ℕ}
    (h : replay b enc sep limit t c.toNat = .ok (t', syms)) :
    t'.Settled ∧ (syms.map (symbolWeight enc counts)).sum + t'.owed counts key ≤
      t.owed counts key + [c.toNat].countP counts := by
  -- a code point that is not taken is offered again, to the state that it has led to
  induction limit generalizing t syms with
  | zero =>
    rw [replay] at h
    obtain ⟨⟨u, syms₁, advance⟩, hput, h⟩ := bind_eq_ok_iff.mp h
    cases h
    obtain ⟨hsettled', hpays⟩ := pays_put henc hkey hsettled hput
    refine ⟨hsettled', hpays.trans (Nat.add_le_add_left ?_ _)⟩
    split_ifs <;> simp
  | succ limit ih =>
    rw [replay] at h
    obtain ⟨⟨u, syms₁, advance⟩, hput, h⟩ := bind_eq_ok_iff.mp h
    obtain ⟨hsettled', hpays⟩ := pays_put henc hkey hsettled hput
    cases advance with
    | true =>
      cases h
      exact ⟨hsettled', hpays⟩
    | false =>
      obtain ⟨⟨v, syms₂⟩, hrest, h⟩ := bind_eq_ok_iff.mp h
      cases h
      obtain ⟨hsettled'', hpays'⟩ := ih (t := u) hsettled' hrest
      refine ⟨hsettled'', ?_⟩
      have hfirst : (syms₁.map (symbolWeight enc counts)).sum + u.owed counts key ≤
          t.owed counts key + 0 := hpays
      rw [List.map_append, List.sum_append]
      omega

end Tokenizer

/-- The fields on the stack or in a line. -/
noncomputable def lineWeight (enc : Encoder) (counts : ℕ → Bool) (line : Line) : ℕ :=
  (line.map (textWeight enc counts)).sum

include henc in
theorem lineWeight_encoded (row : List (List Char)) :
    lineWeight enc counts (row.map utf8) = (codes row.flatten).countP counts := by
  induction row with
  | nil => rfl
  | cons f row ih =>
    rw [List.flatten_cons, codes_append, List.countP_append, ← ih, ← textWeight_utf8 henc]
    rfl

include henc in
/-- The parser hands on what it is given. -/
theorem pays_nextSymbol {stack stack' : List Bytes} {sym : Symbol} {lines : List Line}
    (h : Parser.nextSymbol b stack sym = .ok (stack', lines)) :
    (lines.map (lineWeight enc counts)).sum + lineWeight enc counts stack' ≤
      lineWeight enc counts stack + symbolWeight enc counts sym := by
  have hempty : textWeight enc counts [] = 0 := textWeight_utf8 henc []
  obtain ⟨type, value⟩ := sym
  cases type with
  | string =>
    cases h
    simp [lineWeight, symbolWeight, Nat.add_comm]
  | nothing =>
    obtain ⟨_, -, h⟩ := bind_eq_ok_iff.mp h
    cases h
    simp [lineWeight, hempty]
  | separator =>
    cases h
    split_ifs <;> simp [lineWeight, hempty]
  | eol =>
    obtain h := Except.ok.inj h
    unfold Parser.processEol at h
    split_ifs at h <;> cases h <;> simp [lineWeight, List.sum_reverse]

theorem sum_map_countP (cps : List ℕ) :
    (cps.map fun cp => [cp].countP counts).sum = cps.countP counts := by
  induction cps with
  | nil => rfl
  | cons cp cps ih =>
    rw [List.map_cons, List.sum_cons, ih, ← List.countP_append]
    rfl

include henc in
theorem pays_tokens (hkey : Priced counts key) {t t' : Tokenizer} {z : List Char}
    {syms : List Symbol} (hsettled : t.Settled)
    (h : Step.run (Tokenizer.nextCodePoint b enc sep) t (codes z) = .ok (t', syms)) :
    t'.Settled ∧ (syms.map (symbolWeight enc counts)).sum + t'.owed counts key ≤
      t.owed counts key + (codes z).countP counts := by
  have hstep : ∀ t cp t' syms, t.Settled → (∃ c : Char, cp = c.toNat) →
      Tokenizer.nextCodePoint b enc sep t cp = .ok (t', syms) →
      t'.Settled ∧ (syms.map (symbolWeight enc counts)).sum + t'.owed counts key ≤
        t.owed counts key + [cp].countP counts := by
    rintro t _ t' syms hsettled ⟨c, rfl⟩ hnext
    exact Tokenizer.pays_replay henc hkey hsettled hnext
  have hgood : ∀ cp ∈ codes z, ∃ c : Char, cp = c.toNat := by
    intro cp hcp
    obtain ⟨c, -, hc⟩ := List.mem_map.mp hcp
    exact ⟨c, hc.symm⟩
  rw [← sum_map_countP (codes z)]
  exact Step.run_pays hstep hsettled hgood h

include henc in
theorem pays_symbols {stack stack' : List Bytes} {syms : List Symbol} {lines : List Line}
    (h : Step.run (Parser.nextSymbol b) stack syms = .ok (stack', lines)) :
    (lines.map (lineWeight enc counts)).sum + lineWeight enc counts stack' ≤
      lineWeight enc counts stack + (syms.map (symbolWeight enc counts)).sum := by
  have hstep : ∀ stack sym stack' lines, True → True →
      Parser.nextSymbol b stack sym = .ok (stack', lines) →
      True ∧ (lines.map (lineWeight enc counts)).sum + lineWeight enc counts stack' ≤
        lineWeight enc counts stack + symbolWeight enc counts sym :=
    fun _ _ _ _ _ _ h => ⟨trivial, pays_nextSymbol henc h⟩
  exact (Step.run_pays hstep trivial (fun _ _ => trivial) h).2

include henc in
theorem sum_lineWeight_rows (rows : List (List (List Char))) :
    ((rows.map (·.map utf8)).map (lineWeight enc counts)).sum =
      (codes rows.flatten.flatten).countP counts := by
  induction rows with
  | nil => rfl
  | cons row rows ih =>
    rw [List.map_cons, List.map_cons, List.sum_cons, ih, lineWeight_encoded henc,
      List.flatten_cons, List.flatten_append, codes_append, List.countP_append]

include henc in
/-- The fields hold no more of what counts than the symbols they come with. -/
theorem countP_le_of_symbols {stack' : List Bytes} {syms : List Symbol}
    {rows : List (List (List Char))}
    (h : Step.run (Parser.nextSymbol b) [] syms = .ok (stack', rows.map (·.map utf8))) :
    (codes rows.flatten.flatten).countP counts ≤ (syms.map (symbolWeight enc counts)).sum := by
  have hpays := @pays_symbols _ _ henc counts _ _ _ _ h
  have hrows : ((rows.map (·.map utf8)).map (lineWeight enc counts)).sum = _ :=
    sum_lineWeight_rows henc rows
  have hstack : lineWeight enc counts [] = 0 := rfl
  omega

end Weights

end Csv

end Cyng
