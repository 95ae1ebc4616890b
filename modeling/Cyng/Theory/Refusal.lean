import Cyng.Theory.Machine

/-!
# Machines that refuse

A machine is offered an input and may take it or refuse it; an input that is refused is offered
again, to the state the machine has moved to meanwhile, and so on up to a limit. Where every
refusal brings the machine down in rank, an input is refused no more often than the rank says,
and no limit beyond that matters. A call that fails leaves the machine as it was.
-/

namespace Theory

universe u v w x

/-- One offer: fault, or a new state, the outputs, and whether the input was taken. -/
abbrev Offer (σ : Type u) (ι : Type v) (ο : Type w) (ε : Type x) :=
  σ → ι → Except ε (σ × List ο × Bool)

namespace Offer

variable {σ : Type u} {ι : Type v} {ο : Type w} {ε : Type x}

/-- Offer an input again while it is refused, up to a limit. -/
def replay (offer : Offer σ ι ο ε) : ℕ → Step σ ι ο ε
  | 0, s, i => do
    let (s, os, _) ← offer s i
    return (s, os)
  | limit + 1, s, i => do
    let (s, os, advance) ← offer s i
    if advance then return (s, os)
    let (s, os') ← replay offer limit s i
    return (s, os ++ os')

/-- The input is refused a number of times in a row, and then the offer has an end: it is taken,
or the call fails. -/
inductive Ends (offer : Offer σ ι ο ε) (i : ι) : ℕ → σ → Except ε (σ × List ο) → Prop
  | taken {s s' os} (h : offer s i = .ok (s', os, true)) : Ends offer i 0 s (.ok (s', os))
  | failed {s e} (h : offer s i = .error e) : Ends offer i 0 s (.error e)
  | refused {n s s' os r} (h : offer s i = .ok (s', os, false)) (h' : Ends offer i n s' r) :
    Ends offer i (n + 1) s (r.map fun q => (q.1, os ++ q.2))

/-- The state after an offer. -/
def attempt (offer : Offer σ ι ο ε) (s : σ) (i : ι) : σ :=
  match offer s i with
  | .error _ => s
  | .ok (s', _) => s'

/-- The states that some inputs lead to. -/
def Reached (offer : Offer σ ι ο ε) (s₀ s : σ) : Prop :=
  ∃ is : List ι, s = is.foldl (attempt offer) s₀

/-- A refusal keeps the invariant and lowers the rank. -/
def Ranked (offer : Offer σ ι ο ε) (inv : σ → Prop) (rank : σ → ℕ) : Prop :=
  ∀ s i s' os, inv s → offer s i = .ok (s', os, false) → inv s' ∧ rank s' < rank s

variable {offer : Offer σ ι ο ε} {s s' : σ} {i : ι} {os : List ο} {r : Except ε (σ × List ο)}

/-- The loop stops where the offer has its end. -/
theorem replay_of_ends {n limit : ℕ} (h : Ends offer i n s r) (hlimit : n ≤ limit) :
    replay offer limit s i = r := by
  induction h generalizing limit with
  | taken h => cases limit <;> simp [replay, h, bind, Except.bind, pure, Except.pure]
  | failed h => cases limit <;> simp [replay, h, bind, Except.bind]
  | @refused n s s' os r h h' ih =>
    -- the limit has room for this refusal
    obtain ⟨limit, rfl⟩ : ∃ l, limit = l + 1 := ⟨limit - 1, by omega⟩
    have hrest : replay offer limit s' i = r := ih (by omega)
    cases r with
    | error e => simp [replay, h, hrest, Except.map, bind, Except.bind]
    | ok q => simp [replay, h, hrest, Except.map, bind, Except.bind, pure, Except.pure]

/-- An input is refused no more often than the rank says. -/
theorem Ranked.exists_ends {inv : σ → Prop} {rank : σ → ℕ} (hranked : Ranked offer inv rank)
    (hinv : inv s) : ∃ n ≤ rank s, ∃ r, Ends offer i n s r := by
  induction hrank : rank s using Nat.strong_induction_on generalizing s with
  | h bound ih =>
    subst hrank
    cases h : offer s i with
    | error e => exact ⟨0, Nat.zero_le _, _, .failed h⟩
    | ok q =>
      obtain ⟨s', os, advance⟩ := q
      cases advance with
      | true => exact ⟨0, Nat.zero_le _, _, .taken h⟩
      -- the input is offered again, to a state of lower rank
      | false =>
        obtain ⟨hinv', hlt⟩ := hranked s i s' os hinv h
        obtain ⟨n, hn, r, hends⟩ := ih (rank s') hlt hinv' rfl
        exact ⟨n + 1, Nat.lt_of_le_of_lt hn hlt, _, .refused h hends⟩

/-- How an offer fails is decided by the call that fails. -/
theorem Ranked.failure {inv : σ → Prop} {rank : σ → ℕ} {how : ε → Prop}
    (hranked : Ranked offer inv rank)
    (hfail : ∀ s i e, inv s → offer s i = .error e → how e)
    {n : ℕ} {e : ε} (hinv : inv s) (h : Ends offer i n s r) (hr : r = .error e) : how e := by
  induction h with
  | taken h => cases hr
  | failed h =>
    cases hr
    exact hfail _ _ _ hinv h
  | @refused n s s' os r h h' ih =>
    cases r with
    | error e' =>
      cases hr
      exact ih (hranked s i s' os hinv h).1 rfl
    | ok q => cases hr

/-- What every offer keeps holds of every state that is reached. -/
theorem Reached.preserves {inv : σ → Prop} {s₀ : σ}
    (hstep : ∀ s i s' os advance, inv s → offer s i = .ok (s', os, advance) → inv s')
    (hinit : inv s₀) (h : Reached offer s₀ s) : inv s := by
  obtain ⟨is, rfl⟩ := h
  induction is generalizing s₀ with
  | nil => exact hinit
  | cons i is ih =>
    refine ih ?_
    unfold attempt
    split
    case h_1 => exact hinit
    case h_2 heq => exact hstep _ _ _ _ _ hinit heq

end Offer

end Theory
