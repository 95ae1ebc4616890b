import Mathlib.Data.List.Basic

/-!
# Programs that write

A program that writes to a stream has a result and leaves the stream longer than it was. What it
appends must not depend on what was written before. Such programs are put together like texts:
the parts are appended one after the other, and the results are passed on.
-/

namespace Theory

/-- A call on a stream; the state is what was written so far. -/
abbrev Sink (τ : Type*) := StateM (List τ)

namespace Sink

variable {τ α β : Type}

/-- Appends to the stream. -/
def put (ts : List τ) : Sink τ PUnit := modify (· ++ ts)

/-- The program has this result and appends these tokens, whatever is in the stream. -/
def Emits (p : Sink τ α) (a : α) (ts : List τ) : Prop := ∀ os, p.run os = (a, os ++ ts)

/-- The program returns how many tokens it appends. -/
abbrev Counts (p : Sink τ ℕ) (ts : List τ) : Prop := Emits p ts.length ts

theorem emits_put (ts : List τ) : Emits (put ts) ⟨⟩ ts := fun _ => rfl

theorem emits_pure (a : α) : Emits (pure a : Sink τ α) a [] := by
  intro os
  rw [List.append_nil]
  rfl

/-- One program after the other. -/
theorem Emits.bind {p : Sink τ α} {q : α → Sink τ β} {a : α} {r : β} {ts ts' : List τ}
    (h : Emits p a ts) (h' : Emits (q a) r ts') : Emits (p >>= q) r (ts ++ ts') := by
  intro os
  have hfirst := h os
  have hsecond := h' (os ++ ts)
  rw [StateT.run_bind, hfirst, ← List.append_assoc]
  exact hsecond

/-- A program that ends with a result of its own. -/
theorem Emits.bind_pure {p : Sink τ α} {g : α → β} {a : α} {ts : List τ} (h : Emits p a ts) :
    Emits (p >>= fun x => pure (g x)) (g a) ts := by
  have hpure := h.bind (q := fun x => pure (g x)) (emits_pure (g a))
  rwa [List.append_nil] at hpure

/-- The same program by another name, for its result and its text. -/
theorem Emits.congr {p : Sink τ α} {a a' : α} {ts ts' : List τ} (h : Emits p a ts)
    (ha : a = a') (hts : ts = ts') : Emits p a' ts' := by
  rw [← ha, ← hts]
  exact h

/-- A loop that adds up what its steps return. -/
def sumLoop (step : α → Sink τ ℕ) (size : ℕ) : List α → Sink τ ℕ
  | [] => pure size
  | a :: as => do
    let n ← step a
    sumLoop step (size + n) as

/-- A loop over programs that count is one. -/
theorem counts_sumLoop {step : α → Sink τ ℕ} {text : α → List τ}
    (h : ∀ a, Counts (step a) (text a)) (size : ℕ) (as : List α) :
    Emits (sumLoop step size as) (size + (as.flatMap text).length) (as.flatMap text) := by
  induction as generalizing size with
  | nil => exact emits_pure size
  | cons a as ih =>
    refine ((h a).bind (ih (size + (text a).length))).congr ?_ List.flatMap_cons.symm
    rw [List.flatMap_cons, List.length_append, Nat.add_assoc]

end Sink

end Theory
