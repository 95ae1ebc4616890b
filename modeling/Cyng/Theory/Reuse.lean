import Cyng.Theory.Machine

/-!
# Machines that are used again

What a machine gives for a list of inputs, one after the other, may be compared with what it gives
for each of them afresh. The two agree where every step goes back to the state it came from. Where
a state gives itself away with its next output, they agree only then, but the last step is free to
go anywhere.
-/

namespace Theory

namespace Step

universe u v w x

variable {σ : Type u} {ι : Type v} {ο : Type w} {ε : Type x} {step : Step σ ι ο ε} {s s' : σ}
  {i : ι} {is : List ι} {os : List ο}

/-- The outputs of a run. -/
def outputs (step : Step σ ι ο ε) (s : σ) (is : List ι) : Except ε (List ο) :=
  (run step s is).map fun r => r.2

/-- The outputs of a machine that takes every input in the same state. -/
def afresh (step : Step σ ι ο ε) (s : σ) : List ι → Except ε (List ο)
  | [] => .ok []
  | i :: is =>
    match step s i with
    | .error e => .error e
    | .ok (_, os) => (afresh step s is).map (os ++ ·)

/-- The outputs are those of a machine that is made anew for every input. -/
def Reused (step : Step σ ι ο ε) (s : σ) (is : List ι) : Prop :=
  outputs step s is = afresh step s is

@[simp] theorem outputs_nil : outputs step s [] = .ok [] := rfl

@[simp] theorem afresh_nil : afresh step s [] = .ok [] := rfl

theorem outputs_cons_of_ok (h : step s i = .ok (s', os)) :
    outputs step s (i :: is) = (outputs step s' is).map (os ++ ·) := by
  rw [outputs, run_cons_of_ok h, outputs]
  cases run step s' is <;> rfl

theorem outputs_cons_of_error {e : ε} (h : step s i = .error e) :
    outputs step s (i :: is) = .error e := by
  rw [outputs, run_cons_of_error h]
  rfl

theorem afresh_cons_of_ok (h : step s i = .ok (s', os)) :
    afresh step s (i :: is) = (afresh step s is).map (os ++ ·) := by
  simp [afresh, h]

theorem afresh_cons_of_error {e : ε} (h : step s i = .error e) :
    afresh step s (i :: is) = .error e := by
  simp [afresh, h]

theorem map_append_injective (os : List ο) :
    Function.Injective fun r : Except ε (List ο) => r.map (os ++ ·) := by
  intro r r' h
  cases r <;> cases r' <;> simp_all [Except.map]

/-- A machine whose steps go back to where they came from can be used again. -/
theorem reused_of_resets (hreset : ∀ i s' os, step s i = .ok (s', os) → s' = s) :
    Reused step s is := by
  unfold Reused
  induction is with
  | nil => rfl
  | cons i is ih =>
    cases h : step s i with
    | error e => rw [outputs_cons_of_error h, afresh_cons_of_error h]
    | ok r =>
      obtain ⟨s', os⟩ := r
      obtain rfl := hreset i s' os h
      rw [outputs_cons_of_ok h, afresh_cons_of_ok h, ih]

section Total

variable {next : σ → ι → σ} {out : σ → ι → ο}

/-- A machine that gives one output with every step and never fails. -/
theorem exists_outputs (hstep : ∀ s i, step s i = .ok (next s i, [out s i])) :
    ∃ os, outputs step s is = .ok os := by
  induction is generalizing s with
  | nil => exact ⟨[], rfl⟩
  | cons i is ih =>
    obtain ⟨os, hos⟩ := ih (s := next s i)
    refine ⟨out s i :: os, ?_⟩
    rw [outputs_cons_of_ok (hstep s i), hos]
    rfl

/-- Where a state other than the first one shows in the next output, the machine can be used again
exactly as long as it comes back to the first state. -/
theorem reused_iff_of_shows (hstep : ∀ s i, step s i = .ok (next s i, [out s i]))
    (hshows : ∀ i j, next s i ≠ s → out (next s i) j ≠ out s j) :
    Reused step s is ↔ ∀ i ∈ is.dropLast, next s i = s := by
  induction is with
  | nil => simp [Reused]
  | cons i is ih =>
    have hcons : Reused step s (i :: is) ↔ outputs step (next s i) is = afresh step s is := by
      rw [Reused, outputs_cons_of_ok (hstep s i), afresh_cons_of_ok (hstep s i)]
      exact (map_append_injective _).eq_iff
    rw [hcons]
    cases is with
    | nil => simp
    | cons j js =>
      rw [List.dropLast_cons_cons, List.forall_mem_cons]
      by_cases hnext : next s i = s
      · rw [hnext, and_iff_right rfl]
        exact ih
      -- the next output differs already, whatever follows
      · refine iff_of_false (fun heq => ?_) fun h => hnext h.1
        obtain ⟨os, hos⟩ : ∃ os, outputs step (next (next s i) j) js = .ok os :=
          exists_outputs hstep
        rw [outputs_cons_of_ok (hstep _ j), afresh_cons_of_ok (hstep s j), hos] at heq
        cases hfresh : afresh step s js with
        | error e => simp [hfresh, Except.map] at heq
        | ok os' =>
          rw [hfresh] at heq
          exact hshows i j hnext (List.cons.inj (Except.ok.inj heq)).1

end Total

end Step

end Theory
