import Cyng.Json.Replay
import Cyng.Csv.Tokenizer

/-!
# Refused code points of the CSV tokenizer

A code point that ends a literal, and the first one after a separator or after the end of a
line, goes on to the start state, which takes everything; a code point is refused once at most.
Between two fields the buffer is empty.
-/

namespace Cyng

open Theory

namespace Csv

open Json (oneOf hexDigits EndsInMark)
open Json.Tokenizer (takeWhile_mark)

namespace Tokenizer

variable {b : Build} {enc : Encoder} {sep : UInt8} {t t' : Tokenizer} {cp : ℕ}
  {syms : List Symbol}

/-- What the buffer holds between two fields and in an escape. -/
def Tidy (t : Tokenizer) : Prop :=
  match t.state with
  | .start | .separator | .eol => t.buffer = []
  | .unicode => EndsInMark t.buffer
  | _ => True

/-- How often a code point may be refused from here. -/
def rank (t : Tokenizer) : ℕ :=
  match t.state with
  | .literal | .separator | .eol => 1
  | _ => 0

theorem rank_le (t : Tokenizer) : t.rank ≤ 1 := by
  unfold rank
  split <;> decide

theorem tidy_initial : initial.Tidy := rfl

/-- What a call leaves behind: a code point is refused on the way down in rank only. -/
def Kept (rank : ℕ) (r : Reply) : Prop :=
  r.1.Tidy ∧ (r.2.2 = false → r.1.rank < rank ∧ r.1.state ≠ .error)

theorem kept_taken (n : ℕ) (h : t.Tidy) : Kept n (t, syms, true) := ⟨h, nofun⟩

theorem kept_initial {advance : Bool} {n : ℕ} (h : advance = false → 0 < n) :
    Kept n (initial, syms, advance) := ⟨tidy_initial, fun ha => ⟨h ha, by simp [initial]⟩⟩

/-- A code point is passed on to the start state. -/
theorem kept_passed (hbuffer : t.buffer = []) : Kept 1 ({ t with state := .start }, [], false) :=
  ⟨hbuffer, fun _ => ⟨Nat.one_pos, by simp⟩⟩

theorem kept_stateStart (hbuffer : t.buffer = []) (hstate : t.state = .start) :
    Kept 0 (t.stateStart sep cp) := by
  have htidy : t.Tidy := by simpa [Tidy, hstate] using hbuffer
  unfold stateStart
  split_ifs
  · exact kept_taken 0 hbuffer
  · exact kept_taken 0 htidy
  · exact kept_taken 0 hbuffer
  · exact kept_taken 0 trivial
  · exact kept_taken 0 trivial

theorem kept_stateEol (hbuffer : t.buffer = []) (hstate : t.state = .eol) :
    Kept 1 (t.stateEol cp) := by
  have htidy : t.Tidy := by simpa [Tidy, hstate] using hbuffer
  unfold stateEol
  split_ifs
  · exact kept_taken 1 htidy
  · exact kept_passed hbuffer

theorem stateSeparator_kept {r : Reply} (hbuffer : t.buffer = []) (hstate : t.state = .separator)
    (h : t.stateSeparator b enc sep cp = .ok r) : Kept 1 r := by
  have htidy : t.Tidy := by simpa [Tidy, hstate] using hbuffer
  unfold stateSeparator at h
  split_ifs at h
  · obtain ⟨_, -, hrest⟩ := bind_eq_ok_iff.mp h
    obtain ⟨sym, -, hr⟩ := bind_eq_ok_iff.mp hrest
    cases hr
    exact kept_taken 1 htidy
  · cases h
    exact kept_passed hbuffer

theorem stateLiteral_kept {r : Reply} (hstate : t.state = .literal)
    (h : t.stateLiteral enc cp = .ok r) : Kept 1 r := by
  unfold stateLiteral at h
  split_ifs at h
  · obtain ⟨sym, -, hr⟩ := bind_eq_ok_iff.mp h
    cases hr
    exact kept_initial fun _ => Nat.one_pos
  · cases h
    refine kept_taken 1 ?_
    rw [hstate]
    trivial

theorem stateString_kept {r : Reply} (hstate : t.state = .string)
    (h : t.stateString enc cp = .ok r) : Kept 0 r := by
  unfold stateString at h
  split_ifs at h
  · obtain ⟨sym, -, hr⟩ := bind_eq_ok_iff.mp h
    cases hr
    exact kept_initial nofun
  · cases h
    exact kept_taken 0 trivial
  · cases h
    refine kept_taken 0 ?_
    rw [hstate]
    trivial

theorem kept_stateEscape : Kept 0 (t.stateEscape cp) := by
  have hmark : EndsInMark (t.buffer ++ [1]) := ⟨t.buffer, [], rfl, by decide, nofun⟩
  unfold stateEscape
  split_ifs <;> first | exact kept_taken 0 trivial | exact kept_taken 0 hmark

theorem convertToUnicode_mark {before ds : List ℕ} (h : ∀ d ∈ ds, d ≠ 1) :
    convertToUnicode (before ++ 1 :: ds) =
      if 4 ≤ ds.length then .ok (⟨.string, before ++ [Json.Tokenizer.hexValue ds]⟩, [], true)
      else .ok (⟨.unicode, before ++ 1 :: ds⟩, [], true) := by
  unfold convertToUnicode
  simp only [takeWhile_mark h, List.reverse_reverse, List.length_reverse]
  have hmem : 1 ∈ before ++ 1 :: ds := by simp
  have hlength : (before ++ 1 :: ds).length - (ds.length + 1) = before.length := by simp
  have htake : (before ++ 1 :: ds).take before.length = before := List.take_left
  rw [if_pos hmem, hlength, htake]
  simp only [Nat.lt_iff_add_one_le, Nat.reduceLeDiff]

/-- A digit of an escape is stored until there are four of them. -/
theorem stateUnicode_kept {r : Reply} (hmark : EndsInMark t.buffer)
    (h : t.stateUnicode cp = .ok r) : Kept 0 r := by
  unfold stateUnicode at h
  split_ifs at h with hdigit
  -- the digit goes behind the mark, and the fourth one makes the code point
  · obtain ⟨before, ds, hbuffer, hds, hone⟩ := hmark.snoc hdigit
    rw [hbuffer, convertToUnicode_mark hone] at h
    split_ifs at h with hfour
    · cases h
      exact kept_taken 0 trivial
    · cases h
      exact kept_taken 0 ⟨before, ds, rfl, by omega, hds⟩
  · cases h
    exact kept_taken 0 trivial

/-- One call: the buffer stays as it should, and a refusal lowers the rank. -/
theorem put_kept {r : Reply} (htidy : t.Tidy) (h : put b enc sep t cp = .ok r) :
    Kept t.rank r := by
  unfold put at h
  unfold rank
  -- each state has its own lemma; most of them never refuse
  cases hstate : t.state <;> simp only [hstate] at h ⊢
  case error =>
    obtain ⟨_, -, hr⟩ := bind_eq_ok_iff.mp h
    cases hr
    exact kept_taken 0 htidy
  case start =>
    cases h
    exact kept_stateStart (by simpa [Tidy, hstate] using htidy) hstate
  case string => exact stateString_kept hstate h
  case literal => exact stateLiteral_kept hstate h
  case separator => exact stateSeparator_kept (by simpa [Tidy, hstate] using htidy) hstate h
  case escape =>
    cases h
    exact kept_stateEscape
  case unicode => exact stateUnicode_kept (by simpa [Tidy, hstate] using htidy) h
  case eol =>
    cases h
    exact kept_stateEol (by simpa [Tidy, hstate] using htidy) hstate

theorem makeSymbol_error {type : SymbolType} {buffer : List ℕ} {e : Fault}
    (h : makeSymbol enc type buffer = .error e) : ∃ what, e = .exception what := by
  unfold makeSymbol at h
  split at h
  case h_1 => cases h
  case h_2 what _ => exact ⟨what, (Except.error.inj h).symm⟩

theorem buildLiteral_error {e : Fault} (h : t.buildLiteral enc = .error e) :
    ∃ what, e = .exception what := by
  unfold buildLiteral at h
  split_ifs at h
  · exact makeSymbol_error h
  · cases htext : enc t.buffer <;> simp [htext] at h

/-- Before an error a call fails with an exception only: a text that cannot be converted. -/
theorem put_error {e : Fault} (htidy : t.Tidy) (hstate : t.state ≠ .error)
    (h : put b enc sep t cp = .error e) : ∃ what, e = .exception what := by
  unfold put at h
  cases hlive : t.state <;> simp only [hlive] at h
  case error => exact absurd hlive hstate
  -- no text is made in these states
  case start | eol | escape => cases h
  case literal =>
    unfold stateLiteral at h
    split_ifs at h
    exact buildLiteral_error (eq_error_of_bind_ok h)
  case string =>
    unfold stateString at h
    split_ifs at h
    exact makeSymbol_error (eq_error_of_bind_ok h)
  case separator =>
    have hbuffer : t.buffer = [] := by simpa [Tidy, hlive] using htidy
    unfold stateSeparator at h
    split_ifs at h
    rw [Build.check_of hbuffer, ok_bind] at h
    exact makeSymbol_error (eq_error_of_bind_ok h)
  case unicode =>
    obtain ⟨before, ds, hbuffer, -⟩ : EndsInMark t.buffer := by simpa [Tidy, hlive] using htidy
    -- the mark is found, so that the assertion about it holds
    have hmem : 1 ∈ t.buffer ++ [cp] := by simp [hbuffer]
    unfold stateUnicode convertToUnicode at h
    simp only [if_pos hmem] at h
    split_ifs at h

/-- The states before an error. -/
def Live (t : Tokenizer) : Prop := t.Tidy ∧ t.state ≠ .error

theorem ranked_put : Offer.Ranked (put b enc sep) Live rank := fun _ _ _ _ hlive h =>
  have hkept := put_kept hlive.1 h
  ⟨⟨hkept.1, (hkept.2 rfl).2⟩, (hkept.2 rfl).1⟩

theorem tidy_of_reached (h : Offer.Reached (put b enc sep) initial t) : t.Tidy :=
  h.preserves (fun _ _ _ _ _ htidy hput => (put_kept htidy hput).1) tidy_initial

theorem replay_eq (limit : ℕ) : replay b enc sep limit = Offer.replay (put b enc sep) limit := by
  induction limit with
  | zero => rfl
  | succ limit ih =>
    funext t cp
    rw [replay, Offer.replay, ih]

/-- A code point is refused once at most, and the loop goes on until it is taken or a text cannot
be converted. -/
theorem nextCodePoint_ends (hlive : t.Live) (cp : ℕ) :
    ∃ n ≤ 1, ∃ r, Offer.Ends (put b enc sep) cp n t r ∧ nextCodePoint b enc sep t cp = r ∧
      ∀ e, r = .error e → ∃ what, e = .exception what := by
  have hranked : Offer.Ranked (put b enc sep) Live rank := ranked_put
  obtain ⟨n, hn, r, hends⟩ := hranked.exists_ends (i := cp) hlive
  -- the limit of the loop leaves room for the refusals
  have hn1 : n ≤ 1 := hn.trans t.rank_le
  refine ⟨n, hn1, r, hends, ?_, fun e hr => ?_⟩
  · rw [nextCodePoint, replay_eq]
    exact Offer.replay_of_ends hends (by omega)
  · exact hranked.failure (fun _ _ _ hlive => put_error hlive.1 hlive.2) hlive hends hr

end Tokenizer

/-! ### Both tokenizers -/

/-- In every state that is reached before an error the buffer is as it should be, and a code point
that is offered is refused twice at most. The loop over it ends where the tokenizer takes it, or
with the exception of a text that cannot be converted, and never by its limit. -/
theorem tokenizers_replay (b : Build) (lib : Json.Library) (enc : Encoder) (sep : UInt8) :
    (∀ t, Offer.Reached (Json.Tokenizer.put b lib) Json.Tokenizer.initial t → t.state ≠ .error →
      (t.state = .start → t.buffer = []) ∧ (t.state = .unicode → EndsInMark t.buffer) ∧
      ∀ cp, ∃ n ≤ 2, ∃ r, Offer.Ends (Json.Tokenizer.put b lib) cp n t r ∧
        Json.Tokenizer.nextCodePoint b lib t cp = r ∧
        ∀ e, r = .error e → ∃ what, e = .exception what) ∧
    ∀ t, Offer.Reached (Tokenizer.put b enc sep) Tokenizer.initial t → t.state ≠ .error →
      (t.state = .start ∨ t.state = .separator ∨ t.state = .eol → t.buffer = []) ∧
      (t.state = .unicode → EndsInMark t.buffer) ∧
      ∀ cp, ∃ n ≤ 2, ∃ r, Offer.Ends (Tokenizer.put b enc sep) cp n t r ∧
        Tokenizer.nextCodePoint b enc sep t cp = r ∧
        ∀ e, r = .error e → ∃ what, e = .exception what := by
  refine ⟨fun t hreached hstate => ?_, fun t hreached hstate => ?_⟩
  · have htidy : t.Tidy := Json.Tokenizer.tidy_of_reached hreached
    refine ⟨fun hstart => ?_, fun hunicode => ?_, Json.Tokenizer.nextCodePoint_ends ⟨htidy, hstate⟩⟩
    · simpa [Json.Tokenizer.Tidy, hstart] using htidy
    · simpa [Json.Tokenizer.Tidy, hunicode] using htidy
  · have htidy : t.Tidy := Tokenizer.tidy_of_reached hreached
    refine ⟨?_, fun hunicode => ?_, fun cp => ?_⟩
    · rintro (hfresh | hfresh | hfresh) <;> simpa [Tokenizer.Tidy, hfresh] using htidy
    · simpa [Tokenizer.Tidy, hunicode] using htidy
    · obtain ⟨n, hn, hends⟩ := Tokenizer.nextCodePoint_ends ⟨htidy, hstate⟩ cp
      exact ⟨n, hn.trans one_le_two, hends⟩

end Csv

end Cyng
