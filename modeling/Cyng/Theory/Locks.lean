import Mathlib.Data.List.Basic

/-!
# Threads and the mutexes they hold

A thread locks and unlocks mutexes and works on what they guard. Its calls change a state, end
with a value or a fault, and leave the sequence of their steps behind.

A guard locks a mutex for the time of a body, and unlocks it when the body ends with a value or
with an exception; a fault that ends the whole program unlocks nothing. A call made of guards is
tidy: unless the program ended, it leaves the locks as it found them. Whether a call locks a
mutex that is held already can then be read off part by part.
-/

namespace Theory

/-- A mutex is locked by several threads at once, or by one alone. -/
inductive LockMode
  | shared | exclusive
deriving DecidableEq, Repr

/-- What a thread does next: something with a mutex, or its work. -/
inductive ThreadStep (μ α : Type)
  | lock (mutex : μ) (mode : LockMode)
  | unlock (mutex : μ) (mode : LockMode)
  | work (what : α)

namespace ThreadStep

variable {μ α : Type}

/-- The work among the steps. -/
def works : List (ThreadStep μ α) → List α
  | [] => []
  | work what :: steps => what :: works steps
  | lock _ _ :: steps | unlock _ _ :: steps => works steps

theorem works_append {xs ys : List (ThreadStep μ α)} :
    works (xs ++ ys) = works xs ++ works ys := by
  induction xs with
  | nil => rfl
  | cons step xs ih => cases step <;> simp [works, ih]

variable [DecidableEq μ]

/-- The locks that are held after a step. -/
def hold (held : List (μ × LockMode)) : ThreadStep μ α → List (μ × LockMode)
  | lock mutex mode => (mutex, mode) :: held
  | unlock mutex mode => held.erase (mutex, mode)
  | work _ => held

/-- The locks that are held after some steps. -/
def holding (held : List (μ × LockMode)) (steps : List (ThreadStep μ α)) :
    List (μ × LockMode) :=
  steps.foldl hold held

/-- The step does not lock a mutex that is held, in whatever mode. -/
def Fresh (held : List (μ × LockMode)) : ThreadStep μ α → Prop
  | lock mutex _ => mutex ∉ held.map Prod.fst
  | unlock _ _ | work _ => True

/-- No step locks a mutex that is held by then. -/
def NeverRelocks (held : List (μ × LockMode)) : List (ThreadStep μ α) → Prop
  | [] => True
  | step :: steps => Fresh held step ∧ NeverRelocks (hold held step) steps

variable {held : List (μ × LockMode)} {xs ys : List (ThreadStep μ α)}

theorem holding_append : holding held (xs ++ ys) = holding (holding held xs) ys :=
  List.foldl_append

theorem neverRelocks_append :
    NeverRelocks held (xs ++ ys) ↔
      NeverRelocks held xs ∧ NeverRelocks (holding held xs) ys := by
  induction xs generalizing held with
  | nil => exact ⟨fun h => ⟨trivial, h⟩, And.right⟩
  | cons step xs ih =>
    rw [List.cons_append, NeverRelocks, NeverRelocks, ih, and_assoc]
    rfl

end ThreadStep

open ThreadStep

/-- How a call ends. -/
structure Outcome (μ α σ ε β : Type) where
  result : Except ε β
  state : σ
  steps : List (ThreadStep μ α)

/-- The calls of a thread. -/
def Thread (μ α σ ε β : Type) := σ → Outcome μ α σ ε β

namespace Thread

variable {μ α σ ε β γ : Type}

instance : Monad (Thread μ α σ ε) where
  pure b := fun s => ⟨.ok b, s, []⟩
  bind p f := fun s =>
    let out := p s
    match out.result with
    | .error e => ⟨.error e, out.state, out.steps⟩
    | .ok b =>
      let out' := f b out.state
      ⟨out'.result, out'.state, out.steps ++ out'.steps⟩

/-- The call ends with a fault. -/
def fail (e : ε) : Thread μ α σ ε β := fun s => ⟨.error e, s, []⟩

/-- Look at the state. -/
def look (f : σ → Except ε β) : Thread μ α σ ε β := fun s => ⟨f s, s, []⟩

/-- One step of work. -/
def perform (f : σ → Except ε β × σ × α) : Thread μ α σ ε β := fun s =>
  ⟨(f s).1, (f s).2.1, [.work (f s).2.2]⟩

/-- The body with a mutex locked. -/
def guarded (unwinds : ε → Bool) (mutex : μ) (mode : LockMode) (body : Thread μ α σ ε β) :
    Thread μ α σ ε β := fun s =>
  let out := body s
  let release := match out.result with
    | .ok _ => [.unlock mutex mode]
    | .error e => if unwinds e then [.unlock mutex mode] else []
  ⟨out.result, out.state, .lock mutex mode :: (out.steps ++ release)⟩

section Runs

variable {unwinds : ε → Bool} {mutex : μ} {mode : LockMode} {s : σ} {e : ε} {b : β}
  {p body : Thread μ α σ ε β} {f : β → Thread μ α σ ε γ}

theorem bind_of_ok (h : (p s).result = .ok b) :
    (p >>= f) s = ⟨(f b (p s).state).result, (f b (p s).state).state,
      (p s).steps ++ (f b (p s).state).steps⟩ := by
  simp only [bind, h]

theorem bind_of_error (h : (p s).result = .error e) :
    (p >>= f) s = ⟨.error e, (p s).state, (p s).steps⟩ := by
  simp only [bind, h]

/-- A guard neither changes the value nor the state. -/
theorem result_guarded : (guarded unwinds mutex mode body s).result = (body s).result := rfl

/-- The work under a guard is the work of the body. -/
theorem works_guarded :
    works (guarded unwinds mutex mode body s).steps = works (body s).steps := by
  have hrelease : ∀ release : List (ThreadStep μ α), works release = [] →
      works (.lock mutex mode :: ((body s).steps ++ release)) = works (body s).steps := by
    intro release h
    rw [works, works_append, h, List.append_nil]
  apply hrelease
  split
  · rfl
  · split_ifs <;> rfl

variable [DecidableEq μ] {held : List (μ × LockMode)}

/-- What is unlocked is not locked. -/
theorem neverRelocks_unlocks (mutex : μ) (mode : LockMode) {release : List (ThreadStep μ α)}
    (h : ∀ step ∈ release, step = .unlock mutex mode) : NeverRelocks held release := by
  induction release generalizing held with
  | nil => trivial
  | cons step release ih =>
    obtain ⟨rfl, htail⟩ := List.forall_mem_cons.mp h
    exact ⟨trivial, ih htail⟩

/-- A guard is right where its mutex is not held yet, and the body is right with it held. -/
theorem neverRelocks_guarded_iff :
    NeverRelocks held (guarded unwinds mutex mode body s).steps ↔
      mutex ∉ held.map Prod.fst ∧ NeverRelocks ((mutex, mode) :: held) (body s).steps := by
  refine and_congr_right fun _ => neverRelocks_append.trans (and_iff_left ?_)
  apply neverRelocks_unlocks mutex mode
  split
  · simp
  · split_ifs <;> simp

/-- Unless the program has ended, the locks are left as they were found. -/
def Tidy (unwinds : ε → Bool) (p : Thread μ α σ ε β) : Prop :=
  ∀ s held, (∀ e, (p s).result = .error e → unwinds e = true) →
    holding held (p s).steps = held

theorem tidy_pure : Tidy unwinds (pure b : Thread μ α σ ε β) := fun _ _ _ => rfl

theorem tidy_fail : Tidy unwinds (fail e : Thread μ α σ ε β) := fun _ _ _ => rfl

theorem tidy_look {f : σ → Except ε β} : Tidy unwinds (look f : Thread μ α σ ε β) :=
  fun _ _ _ => rfl

theorem tidy_perform {f : σ → Except ε β × σ × α} :
    Tidy unwinds (perform f : Thread μ α σ ε β) :=
  fun _ _ _ => rfl

theorem Tidy.bind (h : Tidy unwinds p) (h' : ∀ b, Tidy unwinds (f b)) :
    Tidy unwinds (p >>= f) := by
  intro s held hends
  cases hp : (p s).result with
  | error e =>
    rw [bind_of_error hp] at hends ⊢
    refine h s held fun d hd => ?_
    rw [hp] at hd
    obtain rfl := Except.error.inj hd
    exact hends e rfl
  | ok b =>
    rw [bind_of_ok hp] at hends ⊢
    have hfirst : holding held (p s).steps = held :=
      h s held fun d hd => by rw [hp] at hd; cases hd
    rw [holding_append, hfirst]
    exact h' b _ held hends

/-- The lock of a guard is given back. -/
theorem Tidy.guarded (h : Tidy unwinds body) :
    Tidy unwinds (guarded unwinds mutex mode body) := by
  intro s held hends
  have hbody : holding ((mutex, mode) :: held) (body s).steps = (mutex, mode) :: held :=
    h s _ hends
  have hrelease : (match (body s).result with
      | .ok _ => [ThreadStep.unlock mutex mode]
      | .error e => if unwinds e then [.unlock mutex mode] else []) =
      ([.unlock mutex mode] : List (ThreadStep μ α)) := by
    cases hresult : (body s).result with
    | ok b => rfl
    | error e => exact if_pos (hends e hresult)
  calc holding held (Thread.guarded unwinds mutex mode body s).steps
      = holding ((mutex, mode) :: held) ((body s).steps ++ [.unlock mutex mode]) :=
        congrArg (fun release => holding ((mutex, mode) :: held) ((body s).steps ++ release))
          hrelease
    _ = holding (holding ((mutex, mode) :: held) (body s).steps) [.unlock mutex mode] :=
        holding_append
    _ = held := by
        rw [hbody]
        exact List.erase_cons_head (mutex, mode) held

end Runs

end Thread

end Theory
