import Mathlib.Data.List.Basic
import Mathlib.Algebra.Ring.Nat

/-!
# Fallible machines

A machine reads one input at a time, moves to a new state and emits a list of
outputs, or stops with a fault. Runs over input lists, runs over inputs cut into
chunks, and pipelines of two machines are derived from the one step.

Two rules carry whole runs. A machine that is safe under a guard (every guarded
step from a state of the invariant succeeds and keeps the invariant) never faults
on a guarded run. A machine that simulates another step by step emits what the
other one emits on every run.
-/

namespace Theory

universe u v w x y z

/-- One step of a machine: fault, or a new state together with the outputs. -/
abbrev Step (σ : Type u) (ι : Type v) (ο : Type w) (ε : Type x) :=
  σ → ι → Except ε (σ × List ο)

namespace Step

variable {σ : Type u} {ι : Type v} {ο : Type w} {ε : Type x}

/-- Run a machine over a list of inputs; the outputs are collected in order. -/
def run (step : Step σ ι ο ε) : σ → List ι → Except ε (σ × List ο)
  | s, [] => .ok (s, [])
  | s, i :: is =>
    match step s i with
    | .error e => .error e
    | .ok (s', os) =>
      match run step s' is with
      | .error e => .error e
      | .ok (s'', os') => .ok (s'', os ++ os')

section Runs

variable {step : Step σ ι ο ε} {s s' s'' : σ} {os os' : List ο}

@[simp] theorem run_nil : run step s [] = .ok (s, []) := rfl

theorem run_cons_of_ok {i : ι} {is : List ι} (h : step s i = .ok (s', os)) :
    run step s (i :: is) = match run step s' is with
      | .error e => .error e
      | .ok (s'', os') => .ok (s'', os ++ os') := by
  simp [run, h]

theorem run_cons_of_error {i : ι} {is : List ι} {e : ε} (h : step s i = .error e) :
    run step s (i :: is) = .error e := by
  simp [run, h]

theorem run_cons_ok {i : ι} {is : List ι} (h : step s i = .ok (s', os))
    (h' : run step s' is = .ok (s'', os')) :
    run step s (i :: is) = .ok (s'', os ++ os') := by
  simp [run, h, h']

/-- A successful run over a nonempty list is a successful step and a successful run. -/
theorem run_cons_eq_ok_iff {i : ι} {is : List ι} {r : σ × List ο} :
    run step s (i :: is) = .ok r ↔
      ∃ s' os os', step s i = .ok (s', os) ∧ run step s' is = .ok (r.1, os') ∧
        r.2 = os ++ os' := by
  obtain ⟨t, out⟩ := r
  constructor
  · intro h
    cases hstep : step s i with
    | error e => simp [run, hstep] at h
    | ok r =>
      obtain ⟨s', os⟩ := r
      cases hrun : run step s' is with
      | error e => simp [run, hstep, hrun] at h
      | ok r =>
        obtain ⟨s'', os'⟩ := r
        simp only [run, hstep, hrun, Except.ok.injEq, Prod.mk.injEq] at h
        obtain ⟨rfl, rfl⟩ := h
        exact ⟨s', os, os', rfl, hrun, rfl⟩
  · rintro ⟨s', os, os', hstep, hrun, rfl⟩
    exact run_cons_ok hstep hrun

theorem run_singleton {i : ι} (h : step s i = .ok (s', os)) :
    run step s [i] = .ok (s', os) := by
  simpa using run_cons_ok h run_nil

/-- Runs concatenate. -/
theorem run_append_ok {is is' : List ι} (h : run step s is = .ok (s', os))
    (h' : run step s' is' = .ok (s'', os')) :
    run step s (is ++ is') = .ok (s'', os ++ os') := by
  induction is generalizing s os with
  | nil =>
    obtain ⟨rfl, rfl⟩ : s = s' ∧ os = [] := by simpa using h
    simpa using h'
  | cons i is ih =>
    obtain ⟨t, out, out', hstep, hrun, hout⟩ := run_cons_eq_ok_iff.mp h
    simp only at hrun hout
    rw [List.cons_append, hout, List.append_assoc]
    exact run_cons_ok hstep (ih hrun)

/-- A successful run over a concatenation splits at the seam. -/
theorem run_append_eq_ok_iff {is is' : List ι} {r : σ × List ο} :
    run step s (is ++ is') = .ok r ↔
      ∃ s' os os', run step s is = .ok (s', os) ∧ run step s' is' = .ok (r.1, os') ∧
        r.2 = os ++ os' := by
  constructor
  · intro h
    induction is generalizing s r with
    | nil => exact ⟨s, [], r.2, rfl, by simpa using h, rfl⟩
    | cons i is ih =>
      obtain ⟨t, out, out', hstep, hrun, hout⟩ := run_cons_eq_ok_iff.mp h
      obtain ⟨t', mid, tail, hmid, htail, hsplit⟩ := ih hrun
      simp only at hsplit
      exact ⟨t', out ++ mid, tail, run_cons_ok hstep hmid, htail, by
        rw [hout, hsplit, List.append_assoc]⟩
  · rintro ⟨s', os, os', h, h', hout⟩
    rw [run_append_ok h h', ← hout]

/-- A run that faults goes on to fault on every longer list. -/
theorem run_append_of_error {is is' : List ι} {e : ε} (h : run step s is = .error e) :
    run step s (is ++ is') = .error e := by
  induction is generalizing s with
  | nil => simp at h
  | cons i is ih =>
    rw [List.cons_append]
    cases hstep : step s i with
    | error d =>
      rw [run_cons_of_error hstep] at h ⊢
      exact h
    | ok r =>
      obtain ⟨t, out⟩ := r
      rw [run_cons_of_ok hstep] at h ⊢
      cases htail : run step t is with
      | ok r => simp [htail] at h
      | error d =>
        rw [htail] at h
        rw [ih (htail.trans h)]

theorem run_append_ok_error {is is' : List ι} {e : ε} (h : run step s is = .ok (s', os))
    (h' : run step s' is' = .error e) : run step s (is ++ is') = .error e := by
  induction is generalizing s os with
  | nil =>
    obtain ⟨rfl, -⟩ : s = s' ∧ os = [] := by simpa using h
    exact h'
  | cons i is ih =>
    obtain ⟨t, out, out', hstep, htail, -⟩ := run_cons_eq_ok_iff.mp h
    rw [List.cons_append, run_cons_of_ok hstep, ih htail]

theorem run_singleton_eq {i : ι} : run step s [i] = step s i := by
  cases h : step s i with
  | error e => exact run_cons_of_error h
  | ok r => exact run_singleton h

end Runs

/-- A run that emits nothing. -/
def Moves (step : Step σ ι ο ε) (s : σ) (is : List ι) (s' : σ) : Prop :=
  run step s is = .ok (s', [])

namespace Moves

variable {step : Step σ ι ο ε} {s s' s'' : σ} {i : ι} {is is' : List ι}

theorem nil : Moves step s [] s := rfl

theorem single (h : step s i = .ok (s', [])) : Moves step s [i] s' := run_singleton h

theorem cons (h : step s i = .ok (s', [])) (h' : Moves step s' is s'') :
    Moves step s (i :: is) s'' :=
  run_cons_ok h h'

theorem append (h : Moves step s is s') (h' : Moves step s' is' s'') :
    Moves step s (is ++ is') s'' :=
  run_append_ok h h'

/-- What comes next is decided by the state that was reached. -/
theorem run_append (h : Moves step s is s') : run step s (is ++ is') = run step s' is' := by
  cases h' : run step s' is' with
  | error e => exact run_append_ok_error h h'
  | ok r => exact run_append_ok h h'

end Moves

section FirstStep

variable {step : Step σ ι ο ε} {s s' s'' : σ} {i : ι} {is : List ι}

theorem run_cons_silent (h : step s i = .ok (s', [])) : run step s (i :: is) = run step s' is :=
  (Moves.single h).run_append

theorem run_cons_emit_iff {o o' : ο} {os : List ο} (h : step s i = .ok (s', [o])) :
    run step s (i :: is) = .ok (s'', o' :: os) ↔ o = o' ∧ run step s' is = .ok (s'', os) := by
  constructor
  · intro hrun
    obtain ⟨t, first, rest, hstep, hrest, hout⟩ := run_cons_eq_ok_iff.mp hrun
    cases h.symm.trans hstep
    obtain ⟨rfl, rfl⟩ := List.cons.inj hout
    exact ⟨rfl, hrest⟩
  · rintro ⟨rfl, hrest⟩
    exact run_cons_ok h hrest

end FirstStep

/-- Read inputs that arrive in chunks: one run after the other. -/
def runChunks (step : Step σ ι ο ε) : Step σ (List ι) ο ε := fun s chunk => run step s chunk

/-- How the inputs are cut into chunks does not matter. -/
theorem run_runChunks_of_flatten {step : Step σ ι ο ε} {chunks : List (List ι)} {s : σ}
    {r : σ × List ο} (h : run step s chunks.flatten = .ok r) :
    run (runChunks step) s chunks = .ok r := by
  induction chunks generalizing s r with
  | nil => simpa using h
  | cons chunk chunks ih =>
    rw [List.flatten_cons] at h
    obtain ⟨s', os, os', hhead, htail, hout⟩ := run_append_eq_ok_iff.mp h
    have hstep : runChunks step s chunk = .ok (s', os) := hhead
    rw [run_cons_ok hstep (ih htail), ← hout]

theorem run_runChunks_eq_ok_iff {step : Step σ ι ο ε} {chunks : List (List ι)} {s : σ}
    {r : σ × List ο} :
    run (runChunks step) s chunks = .ok r ↔ run step s chunks.flatten = .ok r := by
  refine ⟨fun h => ?_, run_runChunks_of_flatten⟩
  induction chunks generalizing s r with
  | nil => simpa using h
  | cons chunk chunks ih =>
    obtain ⟨t, os, os', hhead, htail, hout⟩ := run_cons_eq_ok_iff.mp h
    rw [List.flatten_cons]
    exact run_append_eq_ok_iff.mpr ⟨t, os, os', hhead, ih htail, hout⟩

/-- The outputs of every single step, kept apart. -/
def each (step : Step σ ι ο ε) : Step σ ι (List ο) ε := fun s i =>
  match step s i with
  | .error e => .error e
  | .ok (s', os) => .ok (s', [os])

section Each

variable {step : Step σ ι ο ε} {s s' : σ} {i : ι} {is : List ι} {os : List ο}

theorem each_eq_ok_iff {r : σ × List (List ο)} :
    each step s i = .ok r ↔ ∃ os, step s i = .ok (r.1, os) ∧ r.2 = [os] := by
  obtain ⟨t, oss⟩ := r
  cases h : step s i with
  | error e => simp [each, h]
  | ok q =>
    constructor
    · intro heq
      obtain ⟨rfl, rfl⟩ : q.1 = t ∧ [q.2] = oss := by simpa [each, h] using heq
      exact ⟨q.2, rfl, rfl⟩
    · rintro ⟨os, hq, hos⟩
      obtain rfl : q = (t, os) := Except.ok.inj hq
      obtain rfl : oss = [os] := hos
      simp [each, h]

theorem each_of_ok (h : step s i = .ok (s', os)) : each step s i = .ok (s', [os]) :=
  each_eq_ok_iff.mpr ⟨os, h, rfl⟩

/-- Put together again, they are the outputs of the run. -/
theorem run_of_run_each {r : σ × List (List ο)} (h : run (each step) s is = .ok r) :
    run step s is = .ok (r.1, r.2.flatten) := by
  induction is generalizing s r with
  | nil =>
    obtain rfl : (s, []) = r := by simpa using h
    rfl
  | cons i is ih =>
    obtain ⟨t, out, out', hone, hrun, hout⟩ := run_cons_eq_ok_iff.mp h
    obtain ⟨os, hstep, rfl⟩ := each_eq_ok_iff.mp hone
    rw [hout, List.singleton_append, List.flatten_cons]
    exact run_cons_ok hstep (ih hrun)

/-- Steps of a run that emits nothing emit nothing. -/
theorem Moves.run_each (h : Moves step s is s') :
    run (each step) s is = .ok (s', List.replicate is.length []) := by
  induction is generalizing s with
  | nil =>
    obtain rfl : s = s' := by simpa [Moves] using h
    rfl
  | cons i is ih =>
    obtain ⟨t, out, out', hstep, hrun, hout⟩ := run_cons_eq_ok_iff.mp h
    obtain ⟨rfl, rfl⟩ : out = [] ∧ out' = [] := by simpa using hout.symm
    exact run_cons_ok (each_of_ok hstep) (ih hrun)

end Each

section Guards

/-- Every step the run takes meets the guard. -/
def Guarded (step : Step σ ι ο ε) (guard : σ → ι → Prop) : σ → List ι → Prop
  | _, [] => True
  | s, i :: is => guard s i ∧ ∀ s' os, step s i = .ok (s', os) → Guarded step guard s' is

variable {step : Step σ ι ο ε} {guard : σ → ι → Prop} {inv : σ → Prop}

@[simp] theorem guarded_nil {s : σ} : Guarded step guard s [] := trivial

@[simp] theorem guarded_cons {s : σ} {i : ι} {is : List ι} :
    Guarded step guard s (i :: is) ↔
      guard s i ∧ ∀ s' os, step s i = .ok (s', os) → Guarded step guard s' is := Iff.rfl

theorem guarded_cons_of_ok {s s' : σ} {os : List ο} {i : ι} {is : List ι}
    (h : step s i = .ok (s', os)) :
    Guarded step guard s (i :: is) ↔ guard s i ∧ Guarded step guard s' is := by
  simp [h]

theorem guarded_of_forall (h : ∀ s i, guard s i) {s : σ} {is : List ι} :
    Guarded step guard s is := by
  induction is generalizing s with
  | nil => trivial
  | cons i is ih => exact ⟨h s i, fun _ _ _ => ih⟩

theorem guarded_of_forall_mem {good : ι → Prop} {s : σ} {is : List ι} (h : ∀ i ∈ is, good i) :
    Guarded step (fun _ i => good i) s is := by
  induction is generalizing s with
  | nil => trivial
  | cons i is ih =>
    obtain ⟨hi, his⟩ := List.forall_mem_cons.mp h
    exact ⟨hi, fun _ _ _ => ih his⟩

/-- Whether a run is guarded can be found out by running the machine. -/
def decidableGuarded [∀ s i, Decidable (guard s i)] (s : σ) :
    (is : List ι) → Decidable (Guarded step guard s is)
  | [] => isTrue trivial
  | i :: is =>
    match h : step s i with
    | .error _ => decidable_of_iff (guard s i) (by simp [h])
    | .ok (s', _) =>
      have := decidableGuarded s' is
      decidable_of_iff (guard s i ∧ Guarded step guard s' is) (guarded_cons_of_ok h).symm

instance instDecidableGuarded [∀ s i, Decidable (guard s i)] (s : σ) (is : List ι) :
    Decidable (Guarded step guard s is) :=
  decidableGuarded s is

/-- A run split in two is guarded when both parts are. -/
theorem guarded_append {s : σ} {is is' : List ι} :
    Guarded step guard s (is ++ is') ↔
      Guarded step guard s is ∧
        ∀ s' os, run step s is = .ok (s', os) → Guarded step guard s' is' := by
  induction is generalizing s with
  | nil => simp
  | cons i is ih =>
    simp only [List.cons_append, guarded_cons, ih]
    constructor
    · rintro ⟨hg, hrest⟩
      refine ⟨⟨hg, fun s' os hs => (hrest s' os hs).1⟩, fun s'' os' hrun => ?_⟩
      obtain ⟨t, out, out', hstep, htail, -⟩ := run_cons_eq_ok_iff.mp hrun
      exact (hrest t out hstep).2 s'' out' htail
    · rintro ⟨⟨hg, hhead⟩, htail⟩
      exact ⟨hg, fun s' os hs => ⟨hhead s' os hs, fun s'' os' hrun =>
        htail s'' (os ++ os') (run_cons_ok hs hrun)⟩⟩

/-- Two guards are one. -/
theorem guarded_and {guard' : σ → ι → Prop} {s : σ} {is : List ι} :
    Guarded step (fun s i => guard s i ∧ guard' s i) s is ↔
      Guarded step guard s is ∧ Guarded step guard' s is := by
  induction is generalizing s with
  | nil => simp
  | cons i is ih =>
    simp only [guarded_cons, ih]
    constructor
    · rintro ⟨⟨hi, hi'⟩, hrest⟩
      exact ⟨⟨hi, fun s' os hs => (hrest s' os hs).1⟩, hi', fun s' os hs => (hrest s' os hs).2⟩
    · rintro ⟨⟨hi, hrest⟩, hi', hrest'⟩
      exact ⟨⟨hi, hi'⟩, fun s' os hs => ⟨hrest s' os hs, hrest' s' os hs⟩⟩

/-- What holds of all inputs may be added to the guard. -/
theorem Guarded.and_forall {good : ι → Prop} {s : σ} {is : List ι}
    (h : Guarded step guard s is) (hgood : ∀ i ∈ is, good i) :
    Guarded step (fun s i => guard s i ∧ good i) s is := by
  induction is generalizing s with
  | nil => trivial
  | cons i is ih =>
    obtain ⟨hi, his⟩ := List.forall_mem_cons.mp hgood
    exact ⟨⟨h.1, hi⟩, fun s' os hstep => ih (h.2 s' os hstep) his⟩

/-- From states of the invariant every guarded step succeeds, keeps the invariant
and emits outputs of the given kind only. -/
def Safe (step : Step σ ι ο ε) (inv : σ → Prop) (guard : σ → ι → Prop) (good : ο → Prop) : Prop :=
  ∀ s i, inv s → guard s i →
    ∃ s' os, step s i = .ok (s', os) ∧ inv s' ∧ ∀ o ∈ os, good o

/-- The run rule: a safe machine does not fault on a guarded run. -/
theorem Safe.run {good : ο → Prop} (safe : Safe step inv guard good) {s : σ} {is : List ι}
    (hinv : inv s) (hguard : Guarded step guard s is) :
    ∃ s' os, Step.run step s is = .ok (s', os) ∧ inv s' ∧ ∀ o ∈ os, good o := by
  induction is generalizing s with
  | nil => exact ⟨s, [], rfl, hinv, by simp⟩
  | cons i is ih =>
    obtain ⟨hg, hrest⟩ := hguard
    obtain ⟨s', os, hstep, hinv', hgood⟩ := safe s i hinv hg
    obtain ⟨s'', os', hrun, hinv'', hgood'⟩ := ih hinv' (hrest s' os hstep)
    refine ⟨s'', os ++ os', run_cons_ok hstep hrun, hinv'', fun o ho => ?_⟩
    rcases List.mem_append.mp ho with ho | ho
    · exact hgood o ho
    · exact hgood' o ho

/-- Where the guard is also necessary for a step, it decides about whole runs. -/
theorem Safe.run_iff {good : ο → Prop} (safe : Safe step inv guard good)
    (necessary : ∀ s i s' os, inv s → step s i = .ok (s', os) → (∀ o ∈ os, good o) → guard s i)
    {s : σ} {is : List ι} (hinv : inv s) :
    (∃ s' os, Step.run step s is = .ok (s', os) ∧ ∀ o ∈ os, good o) ↔
      Guarded step guard s is := by
  constructor
  · rintro ⟨s', os, hrun, hgood⟩
    induction is generalizing s os with
    | nil => trivial
    | cons i is ih =>
      obtain ⟨t, out, out', hstep, htail, hout⟩ := run_cons_eq_ok_iff.mp hrun
      simp only at htail hout
      subst hout
      -- the outputs of the first step are among those of the run, so they are good
      have hg : guard s i := necessary s i t out hinv hstep fun o ho =>
        hgood o (List.mem_append_left _ ho)
      obtain ⟨t', out'', hstep', ht', -⟩ := safe s i hinv hg
      rw [hstep] at hstep'
      obtain ⟨rfl, rfl⟩ : t = t' ∧ out = out'' := by simpa using hstep'
      refine ⟨hg, fun u os hu => ?_⟩
      rw [hstep] at hu
      obtain ⟨rfl, rfl⟩ : t = u ∧ out = os := by simpa using hu
      exact ih ht' out' htail fun o ho => hgood o (List.mem_append_right _ ho)
  · intro hguard
    obtain ⟨s', os, hrun, -, hgood⟩ := safe.run hinv hguard
    exact ⟨s', os, hrun, hgood⟩

/-- The invariant rule: what guarded steps preserve, guarded runs preserve. -/
theorem run_preserves
    (hstep : ∀ s i s' os, inv s → guard s i → step s i = .ok (s', os) → inv s')
    {s s' : σ} {is : List ι} {os : List ο} (hinv : inv s) (hguard : Guarded step guard s is)
    (h : Step.run step s is = .ok (s', os)) : inv s' := by
  induction is generalizing s os with
  | nil =>
    obtain ⟨rfl, -⟩ : s = s' ∧ os = [] := by simpa using h
    exact hinv
  | cons i is ih =>
    obtain ⟨t, out, out', hone, hrun, -⟩ := run_cons_eq_ok_iff.mp h
    exact ih (hstep s i t out hinv hguard.1 hone) (hguard.2 t out hone) hrun

/-- The history rule: the inputs are folded into a state of their own. What guarded steps
preserve between the two, guarded runs preserve. -/
theorem run_history {τ : Type y} {note : τ → ι → τ} {rel : σ → τ → Prop}
    (hstep : ∀ s t i s' os, rel s t → guard s i → step s i = .ok (s', os) → rel s' (note t i))
    {s s' : σ} {t : τ} {is : List ι} {os : List ο} (hrel : rel s t)
    (hguard : Guarded step guard s is) (h : Step.run step s is = .ok (s', os)) :
    rel s' (is.foldl note t) := by
  induction is generalizing s t os with
  | nil =>
    obtain ⟨rfl, -⟩ : s = s' ∧ os = [] := by simpa using h
    exact hrel
  | cons i is ih =>
    obtain ⟨u, out, out', hone, hrun, -⟩ := run_cons_eq_ok_iff.mp h
    exact ih (hstep s t i u out hrel hguard.1 hone) (hguard.2 u out hone) hrun

/-- The output rule: what guarded steps from states of the invariant may emit, and no more,
is what a run emits. -/
theorem run_emits {good : ο → Prop}
    (hstep : ∀ s i s' os, inv s → guard s i → step s i = .ok (s', os) →
      inv s' ∧ ∀ o ∈ os, good o)
    {s s' : σ} {is : List ι} {os : List ο} (hinv : inv s) (hguard : Guarded step guard s is)
    (h : Step.run step s is = .ok (s', os)) : ∀ o ∈ os, good o := by
  induction is generalizing s os with
  | nil =>
    obtain ⟨-, rfl⟩ : s = s' ∧ os = [] := by simpa using h
    simp
  | cons i is ih =>
    obtain ⟨t, out, out', hone, hrun, hout⟩ := run_cons_eq_ok_iff.mp h
    simp only at hrun hout
    obtain ⟨hinv', hgood⟩ := hstep s i t out hinv hguard.1 hone
    rw [hout]
    intro o ho
    rcases List.mem_append.mp ho with ho | ho
    · exact hgood o ho
    · exact ih hinv' (hguard.2 t out hone) hrun o ho

/-- The observer rule: someone folds the outputs of a machine into a state of their own.
What guarded steps preserve between the two, guarded runs preserve. -/
theorem run_observed {τ : Type y} {absorb : τ → ο → τ} {rel : σ → τ → Prop}
    (hstep : ∀ s t i s' os, rel s t → guard s i → step s i = .ok (s', os) →
      rel s' (os.foldl absorb t))
    {s s' : σ} {t : τ} {is : List ι} {os : List ο} (hrel : rel s t)
    (hguard : Guarded step guard s is) (h : Step.run step s is = .ok (s', os)) :
    rel s' (os.foldl absorb t) := by
  induction is generalizing s t os with
  | nil =>
    obtain ⟨rfl, rfl⟩ : s = s' ∧ os = [] := by simpa using h
    exact hrel
  | cons i is ih =>
    obtain ⟨u, out, out', hs, hrun, hout⟩ := run_cons_eq_ok_iff.mp h
    simp only at hrun hout
    rw [hout, List.foldl_append]
    exact ih (hstep s t i u out hrel hguard.1 hs) (hguard.2 u out hs) hrun

/-- The invariant holds in every state that is reached on the way. -/
def Always (step : Step σ ι ο ε) (inv : σ → Prop) (s : σ) (is : List ι) : Prop :=
  ∀ is', is' <+: is → ∀ s' os, run step s is' = .ok (s', os) → inv s'

/-- The invariant holds in the state it starts from, and all the way from the next state. -/
theorem always_cons {s : σ} {i : ι} {is : List ι} :
    Always step inv s (i :: is) ↔
      inv s ∧ ∀ s' os, step s i = .ok (s', os) → Always step inv s' is := by
  constructor
  · intro h
    refine ⟨h [] List.nil_prefix s [] rfl, fun s' os hstep is' hpre s'' os' hrun => ?_⟩
    exact h (i :: is') (List.cons_prefix_cons.mpr ⟨rfl, hpre⟩) s'' _ (run_cons_ok hstep hrun)
  · rintro ⟨hinv, hrest⟩ is' hpre s' os hrun
    cases is' with
    | nil =>
      obtain ⟨rfl, -⟩ : s = s' ∧ os = [] := by simpa using hrun
      exact hinv
    | cons j is' =>
      obtain ⟨rfl, htail⟩ := List.cons_prefix_cons.mp hpre
      obtain ⟨t, out, out', hstep, hrun', -⟩ := run_cons_eq_ok_iff.mp hrun
      exact hrest t out hstep is' htail s' out' hrun'

/-- The invariant rule for guards that are exact: where a step keeps the invariant exactly when
it meets the guard, the invariant holds throughout a run exactly when all its steps do. -/
theorem always_iff_guarded
    (hstep : ∀ s i, inv s → ((∀ s' os, step s i = .ok (s', os) → inv s') ↔ guard s i))
    {s : σ} {is : List ι} (hinv : inv s) : Always step inv s is ↔ Guarded step guard s is := by
  induction is generalizing s with
  | nil =>
    refine iff_of_true ?_ trivial
    intro is' hpre s' os hrun
    obtain rfl := List.prefix_nil.mp hpre
    obtain ⟨rfl, -⟩ : s = s' ∧ os = [] := by simpa using hrun
    exact hinv
  | cons i is ih =>
    rw [always_cons, guarded_cons, and_iff_right hinv]
    constructor
    · intro h
      have hkeeps : ∀ s' os, step s i = .ok (s', os) → inv s' := fun s' os hs =>
        h s' os hs [] List.nil_prefix s' [] rfl
      exact ⟨(hstep s i hinv).mp hkeeps, fun s' os hs => (ih (hkeeps s' os hs)).mp (h s' os hs)⟩
    · rintro ⟨hguard, hrest⟩ s' os hs
      exact (ih ((hstep s i hinv).mpr hguard s' os hs)).mpr (hrest s' os hs)

end Guards

section Quantities

variable {step : Step σ ι ο ε} {weight : ο → ℕ} {potential : σ → ℕ}

/-- Conservation: where every step emits what it takes from the state, so does a run. -/
theorem run_conserves
    (hstep : ∀ s i s' os, step s i = .ok (s', os) →
      (os.map weight).sum + potential s' = potential s)
    {s s' : σ} {is : List ι} {os : List ο} (h : run step s is = .ok (s', os)) :
    (os.map weight).sum + potential s' = potential s := by
  induction is generalizing s os with
  | nil =>
    obtain ⟨rfl, rfl⟩ : s = s' ∧ os = [] := by simpa using h
    simp
  | cons i is ih =>
    obtain ⟨t, out, out', hone, hrun, hout⟩ := run_cons_eq_ok_iff.mp h
    simp only at hrun hout
    have hhead := hstep s i t out hone
    have htail := ih hrun
    rw [hout, List.map_append, List.sum_append]
    omega

/-- Accounting: where every step pays for what it emits from its input and from the state, so
does a run. -/
theorem run_pays {cost : ι → ℕ} {inv : σ → Prop} {good : ι → Prop}
    (hstep : ∀ s i s' os, inv s → good i → step s i = .ok (s', os) →
      inv s' ∧ (os.map weight).sum + potential s' ≤ potential s + cost i)
    {s s' : σ} {is : List ι} {os : List ο} (hinv : inv s) (hgood : ∀ i ∈ is, good i)
    (h : run step s is = .ok (s', os)) :
    inv s' ∧ (os.map weight).sum + potential s' ≤ potential s + (is.map cost).sum := by
  induction is generalizing s os with
  | nil =>
    obtain ⟨rfl, rfl⟩ : s = s' ∧ os = [] := by simpa using h
    exact ⟨hinv, by simp⟩
  | cons i is ih =>
    obtain ⟨t, out, out', hone, hrun, hout⟩ := run_cons_eq_ok_iff.mp h
    simp only at hrun hout
    obtain ⟨hi, his⟩ := List.forall_mem_cons.mp hgood
    obtain ⟨ht, hhead⟩ := hstep s i t out hinv hi hone
    obtain ⟨hs', htail⟩ := ih ht his hrun
    refine ⟨hs', ?_⟩
    rw [hout, List.map_append, List.sum_append, List.map_cons, List.sum_cons]
    omega

/-- A machine whose potential falls with every silent step is silent for no longer than its
potential lasts. -/
theorem Moves.length_le {inv : σ → Prop}
    (hstep : ∀ s i s', inv s → step s i = .ok (s', []) → inv s' ∧ potential s' < potential s)
    {s s' : σ} {is : List ι} (hinv : inv s) (h : Moves step s is s') :
    is.length + potential s' ≤ potential s := by
  induction is generalizing s with
  | nil =>
    obtain rfl : s = s' := by simpa [Moves] using h
    simp
  | cons i is ih =>
    obtain ⟨t, out, out', hone, hrun, hout⟩ := run_cons_eq_ok_iff.mp h
    obtain ⟨rfl, rfl⟩ : out = [] ∧ out' = [] := by simpa using hout.symm
    obtain ⟨ht, hlt⟩ := hstep s i t hinv hone
    have htail := ih ht hrun
    rw [List.length_cons]
    omega

end Quantities

section Pipeline

variable {σ' : Type y} {ο' : Type z}

/-- The outputs of the first machine are the inputs of the second one. -/
def pipe (first : Step σ ι ο ε) (second : Step σ' ο ο' ε) : Step (σ × σ') ι ο' ε :=
  fun s i =>
    match first s.1 i with
    | .error e => .error e
    | .ok (t, os) =>
      match run second s.2 os with
      | .error e => .error e
      | .ok (t', os') => .ok ((t, t'), os')

variable {first : Step σ ι ο ε} {second : Step σ' ο ο' ε}

/-- A pipeline whose stages both succeed on the whole stream succeeds. -/
theorem run_pipe_ok {s t : σ} {s' t' : σ'} {is : List ι} {os : List ο} {os' : List ο'}
    (h : run first s is = .ok (t, os)) (h' : run second s' os = .ok (t', os')) :
    run (pipe first second) (s, s') is = .ok ((t, t'), os') := by
  induction is generalizing s s' os os' with
  | nil =>
    obtain ⟨rfl, rfl⟩ : s = t ∧ os = [] := by simpa using h
    obtain ⟨rfl, rfl⟩ : s' = t' ∧ os' = [] := by simpa using h'
    rfl
  | cons i is ih =>
    obtain ⟨u, out, tail, hstep, hrun, hout⟩ := run_cons_eq_ok_iff.mp h
    simp only at hrun hout
    subst hout
    obtain ⟨u', mid, last, hmid, hlast, hsplit⟩ := run_append_eq_ok_iff.mp h'
    simp only at hlast hsplit
    subst hsplit
    exact run_cons_ok (by simp [pipe, hstep, hmid]) (ih hrun hlast)

/-- A pipeline succeeds when both stages do, each on all of its inputs. -/
theorem run_pipe_eq_ok_iff {s : σ} {s' : σ'} {is : List ι} {r : (σ × σ') × List ο'} :
    run (pipe first second) (s, s') is = .ok r ↔
      ∃ os, run first s is = .ok (r.1.1, os) ∧ run second s' os = .ok (r.1.2, r.2) := by
  constructor
  · intro h
    induction is generalizing s s' r with
    | nil =>
      obtain rfl : ((s, s'), []) = r := by simpa using h
      exact ⟨[], rfl, rfl⟩
    | cons i is ih =>
      obtain ⟨⟨u, u'⟩, out, out', hstep, hrun, hout⟩ := run_cons_eq_ok_iff.mp h
      obtain ⟨tail, hfirst, hsecond⟩ := ih hrun
      -- a piped step is a step of the first machine and a run of the second over its outputs
      cases hhead : first s i with
      | error e => simp [pipe, hhead] at hstep
      | ok q =>
        obtain ⟨v, mid⟩ := q
        cases hmid : run second s' mid with
        | error e => simp [pipe, hhead, hmid] at hstep
        | ok q' =>
          obtain ⟨v', out''⟩ := q'
          obtain ⟨⟨rfl, rfl⟩, rfl⟩ : (v = u ∧ v' = u') ∧ out'' = out := by
            simpa [pipe, hhead, hmid] using hstep
          refine ⟨mid ++ tail, run_cons_ok hhead hfirst, ?_⟩
          rw [hout]
          exact run_append_ok hmid hsecond
  · rintro ⟨os, hfirst, hsecond⟩
    exact run_pipe_ok hfirst hsecond

/-- A pipeline faults where its second stage does. -/
theorem run_pipe_of_error {s t : σ} {s' : σ'} {is : List ι} {os : List ο} {e : ε}
    (h : run first s is = .ok (t, os)) (h' : run second s' os = .error e) :
    run (pipe first second) (s, s') is = .error e := by
  induction is generalizing s s' os with
  | nil =>
    obtain ⟨-, rfl⟩ : s = t ∧ os = [] := by simpa using h
    simp at h'
  | cons i is ih =>
    obtain ⟨u, out, tail, hstep, hrun, hout⟩ := run_cons_eq_ok_iff.mp h
    simp only at hrun hout
    subst hout
    -- the second machine fails on the outputs of this step, or on those of the later ones
    cases hmid : run second s' out with
    | error d =>
      have hpipe : pipe first second (s, s') i = .error d := by simp [pipe, hstep, hmid]
      rw [run_append_of_error hmid] at h'
      rw [run_cons_of_error hpipe, Except.error.inj h']
    | ok r =>
      obtain ⟨u', mid⟩ := r
      have hpipe : pipe first second (s, s') i = .ok ((u, u'), mid) := by simp [pipe, hstep, hmid]
      cases htail : run second u' tail with
      | ok r =>
        rw [run_append_ok hmid htail] at h'
        cases h'
      | error d =>
        rw [run_append_ok_error hmid htail] at h'
        rw [run_cons_of_ok hpipe, ih hrun (htail.trans h')]

/-- The guard of a pipeline: the first stage is guarded, and the second one is
guarded on everything the first one hands over. -/
def pipeGuard (first : Step σ ι ο ε) (second : Step σ' ο ο' ε) (guard : σ → ι → Prop)
    (guard' : σ' → ο → Prop) : σ × σ' → ι → Prop :=
  fun s i => guard s.1 i ∧ ∀ t os, first s.1 i = .ok (t, os) → Guarded second guard' s.2 os

instance instDecidablePipeGuard {guard : σ → ι → Prop} {guard' : σ' → ο → Prop}
    [∀ s i, Decidable (guard s i)] [∀ s i, Decidable (guard' s i)] (s : σ × σ') (i : ι) :
    Decidable (pipeGuard first second guard guard' s i) :=
  match h : first s.1 i with
  | .error _ => decidable_of_iff (guard s.1 i) (by simp [pipeGuard, h])
  | .ok (_, os) =>
    decidable_of_iff (guard s.1 i ∧ Guarded second guard' s.2 os) (by simp [pipeGuard, h])

/-- Two safe stages make a safe pipeline. The second one may count on what the first one
emits. -/
theorem Safe.pipe {inv : σ → Prop} {inv' : σ' → Prop} {guard : σ → ι → Prop}
    {guard' : σ' → ο → Prop} {good : ο → Prop} {good' : ο' → Prop}
    (safe : Safe first inv guard good)
    (safe' : Safe second inv' (fun s o => guard' s o ∧ good o) good') :
    Safe (Step.pipe first second) (fun s => inv s.1 ∧ inv' s.2)
      (pipeGuard first second guard guard') good' := by
  rintro ⟨s, s'⟩ i ⟨hinv, hinv'⟩ ⟨hg, hg'⟩
  obtain ⟨t, os, hstep, ht, hgood'⟩ := safe s i hinv hg
  obtain ⟨t', os', hrun, ht', hgood⟩ := safe'.run hinv' ((hg' t os hstep).and_forall hgood')
  exact ⟨(t, t'), os', by simp [Step.pipe, hstep, hrun], ⟨ht, ht'⟩, hgood⟩

end Pipeline

section Simulation

variable {τ : Type y} {ο' : Type z}

/-- Guarded steps of the first machine succeed and are matched by the second one:
related states stay related and the outputs, seen through a view, are the same. -/
def Simulates (step : Step σ ι ο ε) (spec : Step τ ι ο' ε) (rel : σ → τ → Prop)
    (guard : σ → ι → Prop) (view : List ο → List ο') : Prop :=
  ∀ s t i, rel s t → guard s i →
    ∃ s' t' os, step s i = .ok (s', os) ∧ spec t i = .ok (t', view os) ∧ rel s' t'

/-- Step-by-step simulation gives simulation of whole runs. -/
theorem Simulates.run {step : Step σ ι ο ε} {spec : Step τ ι ο' ε} {rel : σ → τ → Prop}
    {guard : σ → ι → Prop} {view : List ο → List ο'}
    (sim : Simulates step spec rel guard view) (view_nil : view [] = [])
    (view_append : ∀ xs ys, view (xs ++ ys) = view xs ++ view ys)
    {s : σ} {t : τ} {is : List ι} (hrel : rel s t) (hguard : Guarded step guard s is) :
    ∃ s' t' os, Step.run step s is = .ok (s', os) ∧
      Step.run spec t is = .ok (t', view os) ∧ rel s' t' := by
  induction is generalizing s t with
  | nil => exact ⟨s, t, [], rfl, by simp [view_nil], hrel⟩
  | cons i is ih =>
    obtain ⟨hg, hrest⟩ := hguard
    obtain ⟨s', t', os, hstep, hspec, hrel'⟩ := sim s t i hrel hg
    obtain ⟨s'', t'', os', hrun, hrun', hrel''⟩ := ih hrel' (hrest s' os hstep)
    exact ⟨s'', t'', os ++ os', run_cons_ok hstep hrun, by
      rw [view_append]; exact run_cons_ok hspec hrun', hrel''⟩

/-- The same for machines that may fault: where every step that succeeds is matched, so is
every run that does. -/
theorem run_matched {step : Step σ ι ο ε} {spec : Step τ ι ο' ε} {rel : σ → τ → Prop}
    {guard : σ → ι → Prop} {view : List ο → List ο'}
    (hstep : ∀ s t i s' os, rel s t → guard s i → step s i = .ok (s', os) →
      ∃ t', spec t i = .ok (t', view os) ∧ rel s' t')
    (view_nil : view [] = []) (view_append : ∀ xs ys, view (xs ++ ys) = view xs ++ view ys)
    {s s' : σ} {t : τ} {is : List ι} {os : List ο} (hrel : rel s t)
    (hguard : Guarded step guard s is) (h : Step.run step s is = .ok (s', os)) :
    ∃ t', Step.run spec t is = .ok (t', view os) ∧ rel s' t' := by
  induction is generalizing s t os with
  | nil =>
    obtain ⟨rfl, rfl⟩ : s = s' ∧ os = [] := by simpa using h
    exact ⟨t, by rw [view_nil]; rfl, hrel⟩
  | cons i is ih =>
    obtain ⟨u, out, out', hone, hrun, hout⟩ := run_cons_eq_ok_iff.mp h
    simp only at hrun hout
    obtain ⟨u', hspec, hrel'⟩ := hstep s t i u out hrel hguard.1 hone
    obtain ⟨t', hrun', hrel''⟩ := ih hrel' (hguard.2 u out hone) hrun
    exact ⟨t', by rw [hout, view_append]; exact run_cons_ok hspec hrun', hrel''⟩

end Simulation

end Step

end Theory
