import Cyng.Theory.Refusal
import Cyng.Json.Lexing

/-!
# Refused code points

The states in which the tokenizer refuses a code point are those that end with whatever comes
next: a literal, and a number in each of its parts. After an exponent the digits may refuse what
the exponent refused already. Every refusal comes closer to the start state, which takes
everything; a code point is refused twice at most. The buffer is empty in the start state, and
in an escape it ends with the mark and at most three digits.
-/

namespace Cyng

open Theory

namespace Json

/-- The buffer of an escape: a mark, and fewer than four hexadecimal digits after it. -/
def EndsInMark (buffer : List ℕ) : Prop :=
  ∃ before ds, buffer = before ++ 1 :: ds ∧ ds.length < 4 ∧ ∀ d ∈ ds, oneOf hexDigits d = true

/-- One more digit, which is not the mark. -/
theorem EndsInMark.snoc {buffer : List ℕ} {cp : ℕ} (h : EndsInMark buffer)
    (hdigit : oneOf hexDigits cp = true) :
    ∃ before ds, buffer ++ [cp] = before ++ 1 :: ds ∧ (∀ d ∈ ds, oneOf hexDigits d = true) ∧
      ∀ d ∈ ds, d ≠ 1 := by
  obtain ⟨before, ds, hbuffer, -, hds⟩ := h
  have hall : ∀ d ∈ ds ++ [cp], oneOf hexDigits d = true := by
    simpa [or_imp, forall_and] using ⟨hds, hdigit⟩
  refine ⟨before, ds ++ [cp], by simp [hbuffer], hall, ?_⟩
  rintro d hd rfl
  cases hall 1 hd

namespace Tokenizer

variable {b : Build} {lib : Library} {t t' : Tokenizer} {cp : ℕ} {syms : List Symbol}

/-- What the buffer holds between two symbols and in an escape. -/
def Tidy (t : Tokenizer) : Prop :=
  match t.state with
  | .start => t.buffer = []
  | .unicode => EndsInMark t.buffer
  | _ => True

/-- How often a code point may be refused from here. -/
def rank (t : Tokenizer) : ℕ :=
  match t.state with
  | .exponent => 2
  | .literal | .number | .fraction | .digits => 1
  | _ => 0

theorem rank_le (t : Tokenizer) : t.rank ≤ 2 := by
  unfold rank
  split <;> decide

theorem tidy_initial : initial.Tidy := rfl

/-- What a call leaves behind: a code point is refused on the way down in rank only. -/
def Kept (rank : ℕ) (r : Reply) : Prop :=
  r.1.Tidy ∧ (r.2.2 = false → r.1.rank < rank ∧ r.1.state ≠ .error)

theorem kept_taken (n : ℕ) (h : t.Tidy) : Kept n (t, syms, true) := ⟨h, nofun⟩

theorem kept_initial {advance : Bool} {n : ℕ} (h : advance = false → 0 < n) :
    Kept n (initial, syms, advance) := ⟨tidy_initial, fun ha => ⟨h ha, nofun⟩⟩

/-- A symbol that is finished leaves the start state. -/
theorem kept_finish {type : SymbolType} {advance : Bool} {n : ℕ} {r : Reply}
    (h : t.finish lib type advance = .ok r) (hn : advance = false → 0 < n) : Kept n r := by
  obtain ⟨sym, -, hr⟩ := bind_eq_ok_iff.mp h
  cases hr
  exact kept_initial hn

theorem kept_stateStart (htidy : t.Tidy) : Kept 0 (t.stateStart cp) := by
  unfold stateStart
  split_ifs
  · exact kept_taken 0 htidy
  · exact kept_taken 0 htidy
  all_goals exact kept_taken 0 trivial

theorem stateLiteral_kept {r : Reply} (hstate : t.state = .literal)
    (h : t.stateLiteral lib cp = .ok r) : Kept 1 r := by
  unfold stateLiteral at h
  split_ifs at h
  · obtain ⟨sym, -, hr⟩ := bind_eq_ok_iff.mp h
    cases hr
    exact kept_initial fun _ => Nat.one_pos
  · obtain ⟨sym, -, hr⟩ := bind_eq_ok_iff.mp h
    cases hr
    exact kept_initial fun _ => Nat.one_pos
  · cases h
    refine kept_taken 1 ?_
    rw [hstate]
    trivial

theorem stateString_kept {r : Reply} (hstate : t.state = .string)
    (h : t.stateString lib cp = .ok r) : Kept 0 r := by
  unfold stateString at h
  split_ifs at h
  · exact kept_finish h nofun
  · cases h
    exact kept_taken 0 trivial
  · cases h
    refine kept_taken 0 ?_
    rw [hstate]
    trivial

theorem kept_stateEscape : Kept 0 (t.stateEscape cp) := by
  have hmark : EndsInMark (t.buffer ++ [1]) := ⟨t.buffer, [], rfl, by decide, nofun⟩
  unfold stateEscape
  split_ifs <;> first | exact kept_taken 0 trivial | exact kept_taken 0 hmark

theorem stateNumber_kept {r : Reply} (hstate : t.state = .number)
    (h : t.stateNumber lib cp = .ok r) : Kept 1 r := by
  unfold stateNumber at h
  split_ifs at h
  · cases h
    exact kept_taken 1 trivial
  · cases h
    refine kept_taken 1 ?_
    rw [hstate]
    trivial
  · cases h
    exact kept_taken 1 trivial
  · exact kept_finish h fun _ => Nat.one_pos

theorem stateFraction_kept {r : Reply} (hstate : t.state = .fraction)
    (h : t.stateFraction lib cp = .ok r) : Kept 1 r := by
  unfold stateFraction at h
  split_ifs at h
  · cases h
    refine kept_taken 1 ?_
    rw [hstate]
    trivial
  · cases h
    exact kept_taken 1 trivial
  · exact kept_finish h fun _ => Nat.one_pos

theorem kept_stateExponent : Kept 2 (t.stateExponent cp) := by
  unfold stateExponent
  split_ifs
  · exact kept_taken 2 trivial
  · exact ⟨trivial, fun _ => ⟨Nat.one_lt_two, nofun⟩⟩

theorem stateDigits_kept {r : Reply} (hstate : t.state = .digits)
    (h : t.stateDigits lib cp = .ok r) : Kept 1 r := by
  unfold stateDigits at h
  split_ifs at h
  · cases h
    refine kept_taken 1 ?_
    rw [hstate]
    trivial
  · exact kept_finish h fun _ => Nat.one_pos

/-- A digit of an escape is stored until there are four of them. -/
theorem stateUnicode_kept {r : Reply} (hmark : EndsInMark t.buffer)
    (h : t.stateUnicode cp = .ok r) : Kept 0 r := by
  unfold stateUnicode at h
  split_ifs at h with hdigit
  -- the digit goes behind the mark, and the fourth one makes the code point
  · obtain ⟨before, ds, hbuffer, hds, hone⟩ := hmark.snoc hdigit
    rw [hbuffer, convertToUnicode_mark hone] at h
    split_ifs at h with hfour
    · cases h
      exact kept_taken 0 trivial
    · cases h
      exact kept_taken 0 ⟨before, ds, rfl, by omega, hds⟩
  · cases h
    exact kept_taken 0 trivial

/-- One call: the buffer stays as it should, and a refusal lowers the rank. -/
theorem put_kept {r : Reply} (htidy : t.Tidy) (h : put b lib t cp = .ok r) : Kept t.rank r := by
  unfold put at h
  unfold rank
  -- each state has its own lemma; only numbers and literals refuse
  cases hstate : t.state <;> simp only [hstate] at h ⊢
  case error =>
    obtain ⟨_, -, hr⟩ := bind_eq_ok_iff.mp h
    cases hr
    exact kept_taken 0 htidy
  case start =>
    cases h
    exact kept_stateStart htidy
  case string => exact stateString_kept hstate h
  case literal => exact stateLiteral_kept hstate h
  case number => exact stateNumber_kept hstate h
  case fraction => exact stateFraction_kept hstate h
  case exponent =>
    cases h
    exact kept_stateExponent
  case digits => exact stateDigits_kept hstate h
  case escape =>
    cases h
    exact kept_stateEscape
  case unicode =>
    have hmark : EndsInMark t.buffer := by simpa [Tidy, hstate] using htidy
    exact stateUnicode_kept hmark h

theorem finish_error {type : SymbolType} {advance : Bool} {e : Fault}
    (h : t.finish lib type advance = .error e) : ∃ what, e = .exception what := by
  unfold finish makeSymbol at h
  cases htext : lib.u32ToU8 t.buffer with
  | ok value => simp [htext] at h
  | error what => exact ⟨what, by simpa [htext] using h.symm⟩

theorem buildLiteral_error {e : Fault} (h : t.buildLiteral lib = .error e) :
    ∃ what, e = .exception what := by
  unfold buildLiteral makeSymbol at h
  cases htext : lib.u32ToU8 t.buffer with
  | ok value =>
    simp only [htext] at h
    split_ifs at h
  | error what =>
    simp only [htext] at h
    split_ifs at h
    all_goals exact ⟨what, (Except.error.inj h).symm⟩

theorem stateLiteral_error {e : Fault} (h : t.stateLiteral lib cp = .error e) :
    ∃ what, e = .exception what := by
  unfold stateLiteral at h
  split_ifs at h
  all_goals exact buildLiteral_error (eq_error_of_bind_ok h)

/-- Before an error a call fails with an exception only: a text that cannot be converted. -/
theorem put_error {e : Fault} (htidy : t.Tidy) (hstate : t.state ≠ .error)
    (h : put b lib t cp = .error e) : ∃ what, e = .exception what := by
  unfold put at h
  cases hlive : t.state <;> simp only [hlive] at h
  case error => exact absurd hlive hstate
  -- no text is made in these states
  case start | exponent | escape => cases h
  case literal => exact stateLiteral_error h
  case string =>
    unfold stateString at h
    split_ifs at h
    exact finish_error h
  case number =>
    unfold stateNumber at h
    split_ifs at h
    exact finish_error h
  case fraction =>
    unfold stateFraction at h
    split_ifs at h
    exact finish_error h
  case digits =>
    unfold stateDigits at h
    split_ifs at h
    exact finish_error h
  case unicode =>
    obtain ⟨before, ds, hbuffer, -⟩ : EndsInMark t.buffer := by simpa [Tidy, hlive] using htidy
    -- the mark is found, so that the assertion about it holds
    have hmem : 1 ∈ t.buffer ++ [cp] := by simp [hbuffer]
    unfold stateUnicode convertToUnicode at h
    simp only [if_pos hmem] at h
    split_ifs at h

/-- The states before an error. -/
def Live (t : Tokenizer) : Prop := t.Tidy ∧ t.state ≠ .error

theorem ranked_put : Offer.Ranked (put b lib) Live rank := fun _ _ _ _ hlive h =>
  have hkept := put_kept hlive.1 h
  ⟨⟨hkept.1, (hkept.2 rfl).2⟩, (hkept.2 rfl).1⟩

theorem tidy_of_reached (h : Offer.Reached (put b lib) initial t) : t.Tidy :=
  h.preserves (fun _ _ _ _ _ htidy hput => (put_kept htidy hput).1) tidy_initial

theorem replay_eq (limit : ℕ) : replay b lib limit = Offer.replay (put b lib) limit := by
  induction limit with
  | zero => rfl
  | succ limit ih =>
    funext t cp
    rw [replay, Offer.replay, ih]

/-- A code point is refused twice at most, and the loop goes on until it is taken or a text cannot
be converted. -/
theorem nextCodePoint_ends (hlive : t.Live) (cp : ℕ) :
    ∃ n ≤ 2, ∃ r, Offer.Ends (put b lib) cp n t r ∧ nextCodePoint b lib t cp = r ∧
      ∀ e, r = .error e → ∃ what, e = .exception what := by
  have hranked : Offer.Ranked (put b lib) Live rank := ranked_put
  obtain ⟨n, hn, r, hends⟩ := hranked.exists_ends (i := cp) hlive
  -- the limit of the loop leaves room for the refusals
  have hn2 : n ≤ 2 := hn.trans t.rank_le
  refine ⟨n, hn2, r, hends, ?_, fun e hr => ?_⟩
  · rw [nextCodePoint, replay_eq]
    exact Offer.replay_of_ends hends (by omega)
  · exact hranked.failure (fun _ _ _ hlive => put_error hlive.1 hlive.2) hlive hends hr

end Tokenizer

end Json

end Cyng
