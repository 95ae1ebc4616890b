import Cyng.Theory.Locks
import Cyng.Theory.Machine
import Mathlib.Algebra.BigOperators.Group.Finset.Basic
import Mathlib.Algebra.Order.Group.Multiset
import Mathlib.Data.Finset.Max
import Mathlib.Data.Fintype.Card

/-!
# Transactions under locks

Threads share cells. What a thread wants to do with them is a transaction: it acquires locks,
some at a time, reads and writes cells under the locks it has, and gives back all of them at its
end. To acquire several locks at once a thread takes them one by one, in any order, and while one
is missing it may drop those it took and try again.

A discipline says which locks are needed to read and to write a cell, and in which order mutexes
are locked. Under a discipline any interleaving is serial: cells and results are those of the
transactions one after the other, in the order in which they ended. And no interleaving is dead:
from wherever the threads have got to, all of them can come to their end.
-/

namespace Theory

/-- What a thread does with shared cells. Results of one cell decide about the rest. -/
inductive Transaction (μ κ : Type) (ν : κ → Type) (ε ρ : Type)
  | done (result : ρ)
  /-- the program ends -/
  | halt (fault : ε)
  | acquire (locks : List (μ × LockMode)) (rest : Transaction μ κ ν ε ρ)
  | read (cell : κ) (rest : ν cell → Transaction μ κ ν ε ρ)
  | write (cell : κ) (next : ν cell → ν cell) (rest : ν cell → Transaction μ κ ν ε ρ)

/-- Two threads can have these locks at the same time. -/
def Compatible {μ : Type} (held other : List (μ × LockMode)) : Prop :=
  ∀ lock ∈ held, ∀ lock' ∈ other, lock.1 = lock'.1 → lock.2 = .shared ∧ lock'.2 = .shared

/-- Which locks are needed for which cell, and the order of the mutexes. Who may write a cell
excludes all others who may read it. -/
structure Discipline (μ κ : Type) where
  Reads : List (μ × LockMode) → κ → Prop
  Writes : List (μ × LockMode) → κ → Prop
  rank : μ → ℕ
  reads_of_writes : ∀ {held cell}, Writes held cell → Reads held cell
  reads_append : ∀ {held cell} more, Reads held cell → Reads (more ++ held) cell
  writes_append : ∀ {held cell} more, Writes held cell → Writes (more ++ held) cell
  excludes : ∀ {held other cell}, Writes held cell → Reads other cell → ¬Compatible held other

section Locks

variable {μ : Type} {held other more : List (μ × LockMode)}

instance [DecidableEq μ] : Decidable (Compatible held other) :=
  inferInstanceAs (Decidable (∀ lock ∈ held, ∀ lock' ∈ other,
    lock.1 = lock'.1 → lock.2 = .shared ∧ lock'.2 = .shared))

theorem Compatible.symm (h : Compatible held other) : Compatible other held := by
  intro lock hlock lock' hlock' heq
  exact (h lock' hlock' lock hlock heq.symm).symm

theorem compatible_nil : Compatible held [] := fun _ _ _ h => absurd h List.not_mem_nil

theorem Compatible.mono {held' : List (μ × LockMode)} (h : Compatible held other)
    (hsub : ∀ lock ∈ held', lock ∈ held) : Compatible held' other :=
  fun lock hlock => h lock (hsub lock hlock)

/-- One more lock. -/
theorem compatible_cons {lock : μ × LockMode} :
    Compatible (lock :: held) other ↔ Compatible [lock] other ∧ Compatible held other := by
  simp [Compatible]

end Locks

namespace Transaction

variable {μ κ : Type} {ν : κ → Type} {ε ρ τ : Type}

/-- Under a discipline: mutexes are locked in their order, and cells are read and written under
the locks they need. -/
def Careful (d : Discipline μ κ) :
    List (μ × LockMode) → Transaction μ κ ν ε ρ → Prop
  | _, .done _ => True
  | _, .halt _ => True
  | held, .acquire locks rest =>
    (∀ lock ∈ locks, ∀ lock' ∈ held, d.rank lock'.1 < d.rank lock.1) ∧
      (locks.map Prod.fst).Nodup ∧ Careful d (locks ++ held) rest
  | held, .read cell rest => d.Reads held cell ∧ ∀ value, Careful d held (rest value)
  | held, .write cell _ rest => d.Writes held cell ∧ ∀ value, Careful d held (rest value)

/-- A transaction that a thread is at: what it was when it began, what is left of it, the locks
it has, and those it has got so far of the ones it acquires. -/
structure Job (μ κ : Type) (ν : κ → Type) (ε ρ : Type) where
  origin : Transaction μ κ ν ε ρ
  rest : Transaction μ κ ν ε ρ
  held : List (μ × LockMode)
  got : List (μ × LockMode)

/-- The cells, and what the threads are at. -/
structure World (τ μ κ : Type) (ν : κ → Type) (ε ρ : Type) where
  cells : ∀ cell, ν cell
  jobs : τ → Option (Job μ κ ν ε ρ)

/-- What can happen next. -/
inductive Move (τ : Type) (d : Discipline μ κ) (ν : κ → Type) (ε ρ : Type)
  | start (t : τ) (origin : Transaction μ κ ν ε ρ) (careful : origin.Careful d [])
  | take (t : τ) (lock : μ × LockMode)
  | drop (t : τ)
  | work (t : τ)

/-- The transaction that begins with a move. -/
def Move.started {d : Discipline μ κ} : Move τ d ν ε ρ → List (Transaction μ κ ν ε ρ)
  | .start _ origin _ => [origin]
  | .take .. | .drop _ | .work _ => []

/-- Why a move leads nowhere. -/
inductive Stop (ε : Type)
  | disabled
  | halted (fault : ε)

namespace World

variable (w : World τ μ κ ν ε ρ)

/-- The locks of a thread. -/
def locks (t : τ) : List (μ × LockMode) :=
  match w.jobs t with
  | none => []
  | some job => job.got ++ job.held

/-- No other thread stands in the way of a lock. -/
def Free (t : τ) (lock : μ × LockMode) : Prop :=
  ∀ u, u ≠ t → Compatible [lock] (w.locks u)

/-- No thread is at a transaction. -/
def AtRest : Prop := ∀ t, w.jobs t = none

instance [Fintype τ] [DecidableEq τ] [DecidableEq μ] (t : τ) (lock : μ × LockMode) :
    Decidable (w.Free t lock) :=
  inferInstanceAs (Decidable (∀ u, u ≠ t → Compatible [lock] (w.locks u)))

/-- All threads at rest. -/
def idle (cells : ∀ cell, ν cell) : World τ μ κ ν ε ρ := ⟨cells, fun _ => none⟩

/-- A thread goes on with another job. -/
def put [DecidableEq τ] (t : τ) (job : Option (Job μ κ ν ε ρ)) : World τ μ κ ν ε ρ :=
  { w with jobs := Function.update w.jobs t job }

/-- A cell has another value. -/
def set [DecidableEq κ] (cell : κ) (value : ν cell) : World τ μ κ ν ε ρ :=
  { w with cells := Function.update w.cells cell value }

end World

section Machine

variable [DecidableEq κ] [DecidableEq τ] {d : Discipline μ κ}

/-- The next step of a thread that has all locks it waits for. -/
def workOn [DecidableEq μ] (w : World τ μ κ ν ε ρ) (t : τ) (job : Job μ κ ν ε ρ) :
    Except (Stop ε) (World τ μ κ ν ε ρ × List (Transaction μ κ ν ε ρ × ρ)) :=
  match job.rest with
  | .done result => .ok (w.put t none, [(job.origin, result)])
  | .halt fault => .error (.halted fault)
  | .acquire locks rest =>
    if ∀ lock ∈ locks, lock ∈ job.got then
      .ok (w.put t (some { job with rest, held := locks ++ job.held, got := [] }), [])
    else .error .disabled
  | .read cell rest => .ok (w.put t (some { job with rest := rest (w.cells cell) }), [])
  | .write cell next rest =>
    .ok ((w.put t (some { job with rest := rest (w.cells cell) })).set cell
      (next (w.cells cell)), [])

/-- One move of one thread. Transactions come out as they end, with their results. -/
def step [Fintype τ] [DecidableEq μ] :
    Step (World τ μ κ ν ε ρ) (Move τ d ν ε ρ) (Transaction μ κ ν ε ρ × ρ) (Stop ε)
  | w, .start t origin _ =>
    match w.jobs t with
    | none => .ok (w.put t (some ⟨origin, origin, [], []⟩), [])
    | some _ => .error .disabled
  | w, .take t lock =>
    match w.jobs t with
    | some ⟨origin, .acquire locks rest, held, got⟩ =>
      if lock ∈ locks ∧ lock ∉ got ∧ w.Free t lock then
        .ok (w.put t (some ⟨origin, .acquire locks rest, held, lock :: got⟩), [])
      else .error .disabled
    | _ => .error .disabled
  | w, .drop t =>
    match w.jobs t with
    | some ⟨origin, .acquire locks rest, held, got⟩ =>
      if ∀ lock ∈ locks, lock ∈ got then .error .disabled
      else .ok (w.put t (some ⟨origin, .acquire locks rest, held, []⟩), [])
    | _ => .error .disabled
  | w, .work t =>
    match w.jobs t with
    | none => .error .disabled
    | some job => workOn w t job

/-- The transaction with nobody else around. -/
def alone : Transaction μ κ ν ε ρ → (∀ cell, ν cell) → Except ε (ρ × ∀ cell, ν cell)
  | .done result, cells => .ok (result, cells)
  | .halt fault, _ => .error fault
  | .acquire _ rest, cells => alone rest cells
  | .read cell rest, cells => alone (rest (cells cell)) cells
  | .write cell next rest, cells =>
    alone (rest (cells cell)) (Function.update cells cell (next (cells cell)))

/-- Transactions one after the other. -/
def serial : Step (∀ cell, ν cell) (Transaction μ κ ν ε ρ) ρ ε := fun cells p =>
  match p.alone cells with
  | .ok (result, cells') => .ok (cells', [result])
  | .error fault => .error fault

end Machine

/-! ### What a move does -/

section Moves

variable [DecidableEq κ] [DecidableEq τ] {d : Discipline μ κ}

/-- The moves that lead somewhere: what begins, where they lead, and what ends. -/
inductive Moved (d : Discipline μ κ) (w : World τ μ κ ν ε ρ) :
    List (Transaction μ κ ν ε ρ) → World τ μ κ ν ε ρ → List (Transaction μ κ ν ε ρ × ρ) → Prop
  | start {t origin} (fresh : w.jobs t = none) (careful : origin.Careful d []) :
    Moved d w [origin] (w.put t (some ⟨origin, origin, [], []⟩)) []
  | take {t origin locks rest held got lock}
    (at_job : w.jobs t = some ⟨origin, .acquire locks rest, held, got⟩) (free : w.Free t lock) :
    Moved d w [] (w.put t (some ⟨origin, .acquire locks rest, held, lock :: got⟩)) []
  | drop {t origin locks rest held got}
    (at_job : w.jobs t = some ⟨origin, .acquire locks rest, held, got⟩) :
    Moved d w [] (w.put t (some ⟨origin, .acquire locks rest, held, []⟩)) []
  | acquired {t origin locks rest held got}
    (at_job : w.jobs t = some ⟨origin, .acquire locks rest, held, got⟩)
    (complete : ∀ lock ∈ locks, lock ∈ got) :
    Moved d w [] (w.put t (some ⟨origin, rest, locks ++ held, []⟩)) []
  | read {t origin cell rest held got}
    (at_job : w.jobs t = some ⟨origin, .read cell rest, held, got⟩) :
    Moved d w [] (w.put t (some ⟨origin, rest (w.cells cell), held, got⟩)) []
  | write {t origin cell next rest held got}
    (at_job : w.jobs t = some ⟨origin, .write cell next rest, held, got⟩) :
    Moved d w [] ((w.put t (some ⟨origin, rest (w.cells cell), held, got⟩)).set cell
      (next (w.cells cell))) []
  | done {t origin result held got}
    (at_job : w.jobs t = some ⟨origin, .done result, held, got⟩) :
    Moved d w [] (w.put t none) [(origin, result)]

theorem moved_of_step [Fintype τ] [DecidableEq μ] {w w' : World τ μ κ ν ε ρ}
    {m : Move τ d ν ε ρ} {outs : List (Transaction μ κ ν ε ρ × ρ)}
    (h : step w m = .ok (w', outs)) : Moved d w m.started w' outs := by
  cases m with
  | start t origin careful =>
    cases hjob : w.jobs t with
    | some job => simp [step, hjob] at h
    | none =>
      simp only [step, hjob, Except.ok.injEq, Prod.mk.injEq] at h
      obtain ⟨rfl, rfl⟩ := h
      exact .start hjob careful
  | take t lock =>
    simp only [step] at h
    split at h
    · rename_i hjob
      split_ifs at h with hfree
      simp only [Except.ok.injEq, Prod.mk.injEq] at h
      obtain ⟨rfl, rfl⟩ := h
      exact .take hjob hfree.2.2
    · cases h
  | drop t =>
    simp only [step] at h
    split at h
    · rename_i hjob
      split_ifs at h
      simp only [Except.ok.injEq, Prod.mk.injEq] at h
      obtain ⟨rfl, rfl⟩ := h
      exact .drop hjob
    · cases h
  | work t =>
    cases hjob : w.jobs t with
    | none => simp [step, hjob] at h
    | some job =>
      obtain ⟨origin, rest, held, got⟩ := job
      simp only [step, hjob] at h
      cases rest with
      | done result =>
        simp only [workOn, Except.ok.injEq, Prod.mk.injEq] at h
        obtain ⟨rfl, rfl⟩ := h
        exact .done hjob
      | halt fault => simp [workOn] at h
      | acquire locks rest =>
        simp only [workOn] at h
        split_ifs at h with hcomplete
        simp only [Except.ok.injEq, Prod.mk.injEq] at h
        obtain ⟨rfl, rfl⟩ := h
        exact .acquired hjob hcomplete
      | read cell rest =>
        simp only [workOn, Except.ok.injEq, Prod.mk.injEq] at h
        obtain ⟨rfl, rfl⟩ := h
        exact .read hjob
      | write cell next rest =>
        simp only [workOn, Except.ok.injEq, Prod.mk.injEq] at h
        obtain ⟨rfl, rfl⟩ := h
        exact .write hjob

end Moves

/-! ### A transaction that is partway -/

section Partway

variable [DecidableEq κ] {d : Discipline μ κ}

/-- From some cells on its own, a transaction has got to what is left of it, with the locks it
has by then and the cells as it sees them. -/
inductive Partway (origin : Transaction μ κ ν ε ρ) (base : ∀ cell, ν cell) :
    List (μ × LockMode) → Transaction μ κ ν ε ρ → (∀ cell, ν cell) → Prop
  | start : Partway origin base [] origin base
  | acquired {held locks rest view} (before : Partway origin base held (.acquire locks rest) view) :
    Partway origin base (locks ++ held) rest view
  | read {held cell rest view} (before : Partway origin base held (.read cell rest) view) :
    Partway origin base held (rest (view cell)) view
  | write {held cell next rest view}
    (before : Partway origin base held (.write cell next rest) view) :
    Partway origin base held (rest (view cell)) (Function.update view cell (next (view cell)))

namespace Partway

variable {origin rest : Transaction μ κ ν ε ρ} {base base' view : ∀ cell, ν cell}
  {held : List (μ × LockMode)}

/-- What is left ends as the whole does. -/
theorem alone_eq (h : Partway origin base held rest view) :
    origin.alone base = rest.alone view := by
  induction h with
  | start => rfl
  | acquired _ ih => exact ih
  | read _ ih => exact ih
  | write _ ih => exact ih

theorem careful (h : Partway origin base held rest view) (horigin : origin.Careful d []) :
    rest.Careful d held := by
  induction h with
  | start => exact horigin
  | acquired _ ih => exact ih.2.2
  | read _ ih => exact ih.2 _
  | write _ ih => exact ih.2 _

/-- What may not be written is as it was. -/
theorem view_eq_base (h : Partway origin base held rest view) (horigin : origin.Careful d [])
    {cell : κ} (hcell : ¬d.Writes held cell) : view cell = base cell := by
  induction h with
  | start => rfl
  | acquired _ ih => exact ih fun hwrites => hcell (d.writes_append _ hwrites)
  | read _ ih => exact ih hcell
  | write before ih =>
    have hwrites := (before.careful horigin).1
    -- the cell that was written is another one
    rw [Function.update_of_ne]
    · exact ih hcell
    · rintro rfl
      exact hcell hwrites

/-- Only the cells that may be read have a say. -/
theorem transport (h : Partway origin base held rest view) (horigin : origin.Careful d [])
    (hbase : ∀ cell, d.Reads held cell → base' cell = base cell) :
    ∃ view', Partway origin base' held rest view' ∧
      ∀ cell, base' cell = base cell → view' cell = view cell := by
  induction h with
  | start => exact ⟨base', .start, fun _ => id⟩
  | acquired before ih =>
    obtain ⟨view', hpartway, hview⟩ := ih fun cell h => hbase cell (d.reads_append _ h)
    exact ⟨view', hpartway.acquired, hview⟩
  | @read held cell rest view before ih =>
    obtain ⟨view', hpartway, hview⟩ := ih hbase
    have hcell : view' cell = view cell := hview cell (hbase cell (before.careful horigin).1)
    refine ⟨view', ?_, hview⟩
    rw [← hcell]
    exact hpartway.read
  | @write held cell next rest view before ih =>
    obtain ⟨view', hpartway, hview⟩ := ih hbase
    have hwrites : d.Writes held cell := (before.careful horigin).1
    have hcell : view' cell = view cell := hview cell (hbase cell (d.reads_of_writes hwrites))
    refine ⟨Function.update view' cell (next (view' cell)), ?_, fun other hother => ?_⟩
    · rw [← hcell]
      exact hpartway.write
    · rcases eq_or_ne other cell with rfl | hne
      · rw [Function.update_self, Function.update_self, hcell]
      · rw [Function.update_of_ne hne, Function.update_of_ne hne]
        exact hview other hother

end Partway

end Partway

/-! ### Interleavings are serial -/

section Serial

variable {d : Discipline μ κ} {base cells : ∀ cell, ν cell} {w w' : World τ μ κ ν ε ρ}
  {job : Job μ κ ν ε ρ} {t : τ}

theorem locks_of_job (h : w.jobs t = some job) : w.locks t = job.got ++ job.held := by
  simp only [World.locks, h]

section Put

variable [DecidableEq τ]

@[simp] theorem World.jobs_put_self {job? : Option (Job μ κ ν ε ρ)} :
    (w.put t job?).jobs t = job? :=
  Function.update_self ..

theorem World.jobs_put_of_ne {job? : Option (Job μ κ ν ε ρ)} {u : τ} (h : u ≠ t) :
    (w.put t job?).jobs u = w.jobs u :=
  Function.update_of_ne h ..

theorem World.locks_put_of_ne {job? : Option (Job μ κ ν ε ρ)} {u : τ} (h : u ≠ t) :
    (w.put t job?).locks u = w.locks u := by
  simp only [World.locks, World.jobs_put_of_ne h]

theorem World.locks_put_self : (w.put t (some job)).locks t = job.got ++ job.held :=
  locks_of_job World.jobs_put_self

/-- Something holds of all jobs when it holds of the new one and of those of the others. -/
theorem World.forall_jobs_put {P : τ → Job μ κ ν ε ρ → Prop} {job? : Option (Job μ κ ν ε ρ)}
    (hself : ∀ job, job? = some job → P t job)
    (hothers : ∀ u job, u ≠ t → w.jobs u = some job → P u job) :
    ∀ u job, (w.put t job?).jobs u = some job → P u job := by
  intro u job hjob
  rcases eq_or_ne u t with rfl | hne
  · exact hself job (World.jobs_put_self.symm.trans hjob)
  · rw [World.jobs_put_of_ne hne] at hjob
    exact hothers u job hne hjob

end Put

section Cells

variable [DecidableEq κ]

theorem World.cells_set_self {cell : κ} {value : ν cell} : (w.set cell value).cells cell = value :=
  Function.update_self ..

theorem World.cells_set_of_ne {cell other : κ} {value : ν cell} (h : other ≠ cell) :
    (w.set cell value).cells other = w.cells other :=
  Function.update_of_ne h ..

end Cells

variable [DecidableEq κ]

/-- A job has got to where it would be on its own, and what it may read is what it would see. -/
structure Job.Follows (d : Discipline μ κ) (base cells : ∀ cell, ν cell)
    (job : Job μ κ ν ε ρ) : Prop where
  careful : job.origin.Careful d []
  partway : ∃ view, Partway job.origin base job.held job.rest view ∧
    ∀ cell, d.Reads job.held cell → view cell = cells cell

/-- The world as the transactions left it that have ended, apart from what the others write. -/
structure Consistent (d : Discipline μ κ) (base : ∀ cell, ν cell) (w : World τ μ κ ν ε ρ) :
    Prop where
  follows : ∀ t job, w.jobs t = some job → job.Follows d base w.cells
  compatible : ∀ t u, t ≠ u → Compatible (w.locks t) (w.locks u)
  quiet : ∀ cell, (∀ t job, w.jobs t = some job → ¬d.Writes job.held cell) →
    w.cells cell = base cell

theorem consistent_idle : Consistent d base (World.idle base : World τ μ κ ν ε ρ) where
  follows _ _ h := nomatch h
  compatible _ _ _ := compatible_nil
  quiet _ _ := rfl

namespace Consistent

/-- Locks exclude each other also among those that are held for good. -/
theorem held_compatible (h : Consistent d base w) {u : τ} {job' : Job μ κ ν ε ρ} (hne : t ≠ u)
    (ht : w.jobs t = some job) (hu : w.jobs u = some job') : Compatible job.held job'.held := by
  have hall := h.compatible t u hne
  rw [locks_of_job ht, locks_of_job hu] at hall
  intro lock hlock lock' hlock'
  exact hall lock (List.mem_append_right _ hlock) lock' (List.mem_append_right _ hlock')

/-- While one may read a cell, no other one may write it. -/
theorem not_writes (h : Consistent d base w) {u : τ} {job' : Job μ κ ν ε ρ} (hne : t ≠ u)
    (ht : w.jobs t = some job) (hu : w.jobs u = some job') {cell : κ}
    (hreads : d.Reads job'.held cell) : ¬d.Writes job.held cell := fun hwrites =>
  d.excludes hwrites hreads (h.held_compatible hne ht hu)

end Consistent

variable [DecidableEq τ]

/-- New locks of one thread. -/
theorem compatible_put (h : Consistent d base w) {job? : Option (Job μ κ ν ε ρ)}
    (hself : ∀ u, u ≠ t → Compatible ((w.put t job?).locks t) (w.locks u)) :
    ∀ u v, u ≠ v → Compatible ((w.put t job?).locks u) ((w.put t job?).locks v) := by
  intro u v hne
  rcases eq_or_ne u t with rfl | hu
  · rw [World.locks_put_of_ne hne.symm]
    exact hself v hne.symm
  · rw [World.locks_put_of_ne hu]
    rcases eq_or_ne v t with rfl | hv
    · exact (hself u hu).symm
    · rw [World.locks_put_of_ne hv]
      exact h.compatible u v hne

/-- A job whose cells and locks for good are the old ones. -/
theorem Consistent.put_of_held (h : Consistent d base w) {job' : Job μ κ ν ε ρ}
    (ht : w.jobs t = some job) (hfollows : job'.Follows d base w.cells)
    (hheld : job'.held = job.held)
    (hlocks : ∀ u, u ≠ t → Compatible (job'.got ++ job'.held) (w.locks u)) :
    Consistent d base (w.put t (some job')) where
  follows := World.forall_jobs_put (fun _ heq => Option.some.inj heq ▸ hfollows)
    fun u other _ hu => h.follows u other hu
  compatible := compatible_put h fun u hne => by
    rw [World.locks_put_self]
    exact hlocks u hne
  quiet cell hquiet := by
    apply h.quiet cell
    intro u other hu
    rcases eq_or_ne u t with rfl | hne
    · obtain rfl : job = other := Option.some.inj (ht.symm.trans hu)
      rw [← hheld]
      exact hquiet u job' World.jobs_put_self
    · exact hquiet u other ((World.jobs_put_of_ne hne).trans hu)

/-- A thread begins. -/
theorem Consistent.start (h : Consistent d base w) {origin : Transaction μ κ ν ε ρ}
    (fresh : w.jobs t = none) (careful : origin.Careful d []) :
    Consistent d base (w.put t (some ⟨origin, origin, [], []⟩)) where
  follows := by
    refine World.forall_jobs_put (fun job heq => ?_) fun u other _ hu => h.follows u other hu
    obtain rfl := Option.some.inj heq
    refine ⟨careful, base, .start, fun cell hreads => ?_⟩
    -- what may be read without a lock is written by nobody
    exact (h.quiet cell fun u other _ hwrites => d.excludes hwrites hreads compatible_nil).symm
  compatible := compatible_put h fun u _ => by
    rw [World.locks_put_self]
    exact compatible_nil.symm
  quiet cell hquiet := by
    apply h.quiet cell
    intro u other hu
    refine hquiet u other ?_
    rw [World.jobs_put_of_ne]
    · exact hu
    · rintro rfl
      rw [fresh] at hu
      cases hu

/-- A thread has all locks it waited for. -/
theorem Consistent.acquired (h : Consistent d base w) {origin rest : Transaction μ κ ν ε ρ}
    {locks held got : List (μ × LockMode)}
    (ht : w.jobs t = some ⟨origin, .acquire locks rest, held, got⟩)
    (complete : ∀ lock ∈ locks, lock ∈ got) :
    Consistent d base (w.put t (some ⟨origin, rest, locks ++ held, []⟩)) where
  follows := by
    refine World.forall_jobs_put (fun job heq => ?_) fun u other _ hu => h.follows u other hu
    obtain rfl := Option.some.inj heq
    obtain ⟨careful, view, hpartway, hview⟩ := h.follows t _ ht
    refine ⟨careful, view, hpartway.acquired, fun cell hreads => ?_⟩
    by_cases hwrites : d.Writes held cell
    · exact hview cell (d.reads_of_writes hwrites)
    -- neither this thread nor any other one has written the cell
    · rw [hpartway.view_eq_base careful hwrites]
      refine (h.quiet cell fun u other hu => ?_).symm
      rcases eq_or_ne u t with rfl | hne
      · obtain rfl := Option.some.inj (ht.symm.trans hu)
        exact hwrites
      · intro hother
        refine d.excludes hother hreads fun lock hlock lock' hlock' => ?_
        have hall := h.compatible u t hne
        rw [locks_of_job hu, locks_of_job ht] at hall
        apply hall lock (List.mem_append_right _ hlock) lock'
        rcases List.mem_append.mp hlock' with hnew | hold
        · exact List.mem_append_left _ (complete lock' hnew)
        · exact List.mem_append_right _ hold
  compatible := compatible_put h fun u hne => by
    have hall := h.compatible t u hne.symm
    rw [locks_of_job ht] at hall
    rw [World.locks_put_self, List.nil_append]
    refine hall.mono fun lock hlock => ?_
    rcases List.mem_append.mp hlock with hnew | hold
    · exact List.mem_append_left _ (complete lock hnew)
    · exact List.mem_append_right _ hold
  quiet cell hquiet := by
    apply h.quiet cell
    intro u other hu
    rcases eq_or_ne u t with rfl | hne
    · obtain rfl := Option.some.inj (ht.symm.trans hu)
      exact fun hwrites => hquiet u _ World.jobs_put_self (d.writes_append locks hwrites)
    · exact hquiet u other ((World.jobs_put_of_ne hne).trans hu)

/-- A thread writes a cell. -/
theorem Consistent.write (h : Consistent d base w) {origin : Transaction μ κ ν ε ρ} {cell : κ}
    {next : ν cell → ν cell} {rest : ν cell → Transaction μ κ ν ε ρ}
    {held got : List (μ × LockMode)}
    (ht : w.jobs t = some ⟨origin, .write cell next rest, held, got⟩) :
    Consistent d base ((w.put t (some ⟨origin, rest (w.cells cell), held, got⟩)).set cell
      (next (w.cells cell))) := by
  obtain ⟨careful, view, hpartway, hview⟩ := h.follows t _ ht
  have hwrites : d.Writes held cell := (hpartway.careful careful).1
  have hcell : view cell = w.cells cell := hview cell (d.reads_of_writes hwrites)
  refine ⟨World.forall_jobs_put (fun job heq => ?_) fun u other hne hu => ?_, ?_, ?_⟩
  · obtain rfl := Option.some.inj heq
    refine ⟨careful, Function.update view cell (next (view cell)), ?_, fun other hreads => ?_⟩
    · rw [← hcell]
      exact hpartway.write
    · rcases eq_or_ne other cell with rfl | hne
      · rw [Function.update_self, World.cells_set_self, hcell]
      · rw [Function.update_of_ne hne, World.cells_set_of_ne hne]
        exact hview other hreads
  · obtain ⟨careful', view', hpartway', hview'⟩ := h.follows u other hu
    refine ⟨careful', view', hpartway', fun cell' hreads => ?_⟩
    rw [World.cells_set_of_ne]
    · exact hview' cell' hreads
    -- no other thread may read the cell
    · rintro rfl
      exact h.not_writes hne.symm ht hu hreads hwrites
  · refine compatible_put h fun u hne => ?_
    rw [World.locks_put_self, ← locks_of_job ht]
    exact h.compatible t u hne.symm
  · intro cell' hquiet
    have hne : cell' ≠ cell := by
      rintro rfl
      exact hquiet t _ World.jobs_put_self hwrites
    rw [World.cells_set_of_ne hne]
    apply h.quiet cell'
    intro u other hu
    rcases eq_or_ne u t with rfl | hne
    · obtain rfl := Option.some.inj (ht.symm.trans hu)
      exact hquiet u ⟨origin, rest (w.cells cell), held, got⟩ World.jobs_put_self
    · exact hquiet u other ((World.jobs_put_of_ne hne).trans hu)

/-- A thread is done: its cells are the base for the others. -/
theorem Consistent.done (h : Consistent d base w) {origin : Transaction μ κ ν ε ρ} {result : ρ}
    {held got : List (μ × LockMode)}
    (ht : w.jobs t = some ⟨origin, .done result, held, got⟩) :
    ∃ base', origin.alone base = .ok (result, base') ∧ Consistent d base' (w.put t none) := by
  obtain ⟨careful, view, hpartway, hview⟩ := h.follows t _ ht
  refine ⟨view, hpartway.alone_eq, ?_, ?_, ?_⟩
  · refine World.forall_jobs_put (fun _ heq => nomatch heq) fun u other hne hu => ?_
    obtain ⟨careful', view', hpartway', hview'⟩ := h.follows u other hu
    -- the others have read nothing that this thread has written
    have hbase : ∀ cell, d.Reads other.held cell → view cell = base cell := fun cell hreads =>
      hpartway.view_eq_base careful (h.not_writes hne.symm ht hu hreads)
    obtain ⟨view'', hpartway'', hview''⟩ := hpartway'.transport careful' hbase
    refine ⟨careful', view'', hpartway'', fun cell hreads => ?_⟩
    exact (hview'' cell (hbase cell hreads)).trans (hview' cell hreads)
  · refine compatible_put h fun u _ => ?_
    simp only [World.locks, World.jobs_put_self]
    exact compatible_nil.symm
  · intro cell hquiet
    by_cases hwrites : d.Writes held cell
    · exact (hview cell (d.reads_of_writes hwrites)).symm
    · refine Eq.trans (h.quiet cell fun u other hu => ?_)
        (hpartway.view_eq_base careful hwrites).symm
      rcases eq_or_ne u t with rfl | hne
      · obtain rfl := Option.some.inj (ht.symm.trans hu)
        exact hwrites
      · exact hquiet u other ((World.jobs_put_of_ne hne).trans hu)

/-- Whatever moves, the transactions that end are a serial run. -/
theorem Consistent.moved (h : Consistent d base w) {ins : List (Transaction μ κ ν ε ρ)}
    {outs : List (Transaction μ κ ν ε ρ × ρ)} (hmoved : Moved d w ins w' outs) :
    ∃ base', Step.run serial base (outs.map Prod.fst) = .ok (base', outs.map Prod.snd) ∧
      Consistent d base' w' := by
  cases hmoved with
  | start fresh careful => exact ⟨base, rfl, h.start fresh careful⟩
  | @take t origin locks rest held got lock at_job free =>
    have hjob := h.follows t _ at_job
    refine ⟨base, rfl, h.put_of_held at_job ⟨hjob.careful, hjob.partway⟩ rfl fun u hne => ?_⟩
    have hall := h.compatible t u hne.symm
    rw [locks_of_job at_job] at hall
    exact compatible_cons.mpr ⟨free u hne, hall⟩
  | @drop t origin locks rest held got at_job =>
    have hjob := h.follows t _ at_job
    refine ⟨base, rfl, h.put_of_held at_job ⟨hjob.careful, hjob.partway⟩ rfl fun u hne => ?_⟩
    have hall := h.compatible t u hne.symm
    rw [locks_of_job at_job] at hall
    exact hall.mono fun lock hlock => List.mem_append_right _ hlock
  | acquired at_job complete => exact ⟨base, rfl, h.acquired at_job complete⟩
  | @read t origin cell rest held got at_job =>
    obtain ⟨careful, view, hpartway, hview⟩ := h.follows t _ at_job
    have hcell : view cell = w.cells cell := hview cell (hpartway.careful careful).1
    refine ⟨base, rfl, h.put_of_held at_job ⟨careful, view, ?_, hview⟩ rfl fun u hne => ?_⟩
    · rw [← hcell]
      exact hpartway.read
    · rw [← locks_of_job at_job]
      exact h.compatible t u hne.symm
  | write at_job => exact ⟨base, rfl, h.write at_job⟩
  | done at_job =>
    obtain ⟨base', halone, hconsistent⟩ := h.done at_job
    refine ⟨base', ?_, hconsistent⟩
    apply Step.run_singleton
    simp only [serial, halone]
    rfl

variable [Fintype τ] [DecidableEq μ]

/-- Every reachable world is consistent with what a serial run of the transactions that have
ended makes of the cells. -/
theorem exists_consistent {moves : List (Move τ d ν ε ρ)}
    {outs : List (Transaction μ κ ν ε ρ × ρ)} (hbase : Consistent d base w)
    (h : Step.run step w moves = .ok (w', outs)) :
    ∃ base', Step.run serial base (outs.map Prod.fst) = .ok (base', outs.map Prod.snd) ∧
      Consistent d base' w' := by
  induction moves generalizing w base outs with
  | nil =>
    obtain ⟨rfl, rfl⟩ : w = w' ∧ outs = [] := by simpa using h
    exact ⟨base, rfl, hbase⟩
  | cons m moves ih =>
    obtain ⟨w₁, first, later, hstep, hrun, hout⟩ := Step.run_cons_eq_ok_iff.mp h
    simp only at hrun hout
    obtain ⟨base₁, hserial, hconsistent⟩ := hbase.moved (moved_of_step hstep)
    obtain ⟨base₂, hserial', hconsistent'⟩ := ih hconsistent hrun
    refine ⟨base₂, ?_, hconsistent'⟩
    rw [hout, List.map_append, List.map_append]
    exact Step.run_append_ok hserial hserial'

/-- Serializability: when all threads are at rest again, cells and results are those of the
transactions one after the other, in the order in which they ended. -/
theorem run_eq_serial {moves : List (Move τ d ν ε ρ)}
    {outs : List (Transaction μ κ ν ε ρ × ρ)}
    (h : Step.run step (World.idle base) moves = .ok (w, outs)) (hrest : w.AtRest) :
    Step.run serial base (outs.map Prod.fst) = .ok (w.cells, outs.map Prod.snd) := by
  obtain ⟨base', hserial, hconsistent⟩ := exists_consistent consistent_idle h
  have hcells : w.cells = base' := by
    ext cell
    apply hconsistent.quiet cell
    intro t job hjob
    rw [hrest t] at hjob
    cases hjob
  rw [hcells]
  exact hserial

end Serial

/-! ### What begins ends once -/

section Accounting

variable {d : Discipline μ κ} {w w' : World τ μ κ ν ε ρ} {t : τ} {job : Job μ κ ν ε ρ}

/-- What a thread was asked for. -/
def origins : Option (Job μ κ ν ε ρ) → Multiset (Transaction μ κ ν ε ρ)
  | none => 0
  | some job => {job.origin}

variable [Fintype τ]

/-- The transactions that have begun and not ended. -/
def pending (w : World τ μ κ ν ε ρ) : Multiset (Transaction μ κ ν ε ρ) :=
  ∑ t, origins (w.jobs t)

theorem pending_of_atRest (h : w.AtRest) : pending w = 0 := by
  apply Finset.sum_eq_zero
  intro t _
  rw [h t]
  rfl

variable [DecidableEq τ]

theorem pending_put (w : World τ μ κ ν ε ρ) (t : τ) (job? : Option (Job μ κ ν ε ρ)) :
    pending (w.put t job?) + origins (w.jobs t) = pending w + origins job? := by
  have hothers : ∑ u ∈ Finset.univ.erase t, origins ((w.put t job?).jobs u) =
      ∑ u ∈ Finset.univ.erase t, origins (w.jobs u) := by
    refine Finset.sum_congr rfl fun u hu => ?_
    rw [World.jobs_put_of_ne (Finset.ne_of_mem_erase hu)]
  simp only [pending]
  rw [← Finset.add_sum_erase _ (fun u => origins ((w.put t job?).jobs u)) (Finset.mem_univ t),
    ← Finset.add_sum_erase _ (fun u => origins (w.jobs u)) (Finset.mem_univ t), hothers]
  simp only [World.jobs_put_self]
  ac_rfl

/-- A job goes on with the same transaction. -/
theorem pending_put_of_job {origin rest rest' : Transaction μ κ ν ε ρ}
    {held held' got got' : List (μ × LockMode)} (h : w.jobs t = some ⟨origin, rest, held, got⟩) :
    pending (w.put t (some ⟨origin, rest', held', got'⟩)) = pending w := by
  have hput := pending_put w t (some ⟨origin, rest', held', got'⟩)
  rw [h] at hput
  simpa [origins] using hput

variable [DecidableEq κ]

theorem pending_moved {ins : List (Transaction μ κ ν ε ρ)}
    {outs : List (Transaction μ κ ν ε ρ × ρ)} (h : Moved d w ins w' outs) :
    (outs.map Prod.fst : Multiset _) + pending w' = pending w + (ins : Multiset _) := by
  cases h with
  | @start t origin fresh careful =>
    have hput := pending_put w t (some ⟨origin, origin, [], []⟩)
    rw [fresh] at hput
    simpa [origins] using hput
  | take at_job _ | drop at_job | acquired at_job _ | read at_job | write at_job =>
    rw [List.map_nil, Multiset.coe_nil, zero_add, add_zero]
    exact pending_put_of_job at_job
  | @done t origin result held got at_job =>
    have hput := pending_put w t none
    rw [at_job] at hput
    simpa [origins, add_comm] using hput

variable [DecidableEq μ]

/-- What has ended and what is pending was pending before or began on the way. -/
theorem pending_run {moves : List (Move τ d ν ε ρ)} {outs : List (Transaction μ κ ν ε ρ × ρ)}
    (h : Step.run step w moves = .ok (w', outs)) :
    (outs.map Prod.fst : Multiset _) + pending w' =
      pending w + (moves.flatMap Move.started : Multiset _) := by
  induction moves generalizing w outs with
  | nil =>
    obtain ⟨rfl, rfl⟩ : w = w' ∧ outs = [] := by simpa using h
    simp
  | cons m moves ih =>
    obtain ⟨w₁, first, later, hstep, hrun, hout⟩ := Step.run_cons_eq_ok_iff.mp h
    simp only at hrun hout
    have hhead := pending_moved (moved_of_step hstep)
    have htail := ih hrun
    rw [hout, List.map_append, List.flatMap_cons, ← Multiset.coe_add, ← Multiset.coe_add]
    rw [add_assoc, htail, ← add_assoc, hhead, add_assoc]

/-- When all threads are at rest again, what has begun has ended, each transaction once. -/
theorem ended_perm_started {base : ∀ cell, ν cell} {moves : List (Move τ d ν ε ρ)}
    {outs : List (Transaction μ κ ν ε ρ × ρ)}
    (h : Step.run step (World.idle base) moves = .ok (w, outs)) (hrest : w.AtRest) :
    (outs.map Prod.fst).Perm (moves.flatMap Move.started) := by
  have hrun := pending_run h
  rw [pending_of_atRest hrest, pending_of_atRest fun _ => rfl, add_zero, zero_add] at hrun
  exact Multiset.coe_eq_coe.mp hrun

end Accounting

/-! ### No interleaving is dead -/

section Completion

variable {d : Discipline μ κ} {w w' : World τ μ κ ν ε ρ} {t : τ}
  {origin rest : Transaction μ κ ν ε ρ} {locks held got : List (μ × LockMode)}

/-- A number above the ranks of all locks. -/
def top (d : Discipline μ κ) (held : List (μ × LockMode)) : ℕ :=
  (held.map fun lock => d.rank lock.1 + 1).foldr max 0

theorem lt_top {lock : μ × LockMode} (h : lock ∈ held) : d.rank lock.1 < top d held := by
  induction held with
  | nil => cases h
  | cons lock' held ih =>
    simp only [top, List.map_cons, List.foldr_cons] at ih ⊢
    rcases List.mem_cons.mp h with rfl | hmem
    · omega
    · have := ih hmem
      omega

theorem top_le {n : ℕ} (h : ∀ lock ∈ held, d.rank lock.1 < n) : top d held ≤ n := by
  induction held with
  | nil => exact Nat.zero_le n
  | cons lock held ih =>
    obtain ⟨hhead, htail⟩ := List.forall_mem_cons.mp h
    exact max_le hhead (ih htail)

theorem top_le_append : top d held ≤ top d (locks ++ held) :=
  top_le fun _ hlock => lt_top (List.mem_append_right locks hlock)

/-- The thread is not in the middle of taking locks. -/
def Settled (w : World τ μ κ ν ε ρ) (t : τ) : Prop := ∀ job, w.jobs t = some job → job.got = []

/-- The job keeps the discipline, and takes locks only while it acquires some. -/
structure Job.Orderly (d : Discipline μ κ) (job : Job μ κ ν ε ρ) : Prop where
  careful : job.rest.Careful d job.held
  waiting : job.got ≠ [] → ∃ locks rest, job.rest = .acquire locks rest

/-- All jobs are orderly. -/
def Orderly (d : Discipline μ κ) (w : World τ μ κ ν ε ρ) : Prop :=
  ∀ t job, w.jobs t = some job → job.Orderly d

/-- All other threads are where they were. -/
def SameElsewhere (t : τ) (w w' : World τ μ κ ν ε ρ) : Prop := ∀ u, u ≠ t → w'.jobs u = w.jobs u

theorem SameElsewhere.trans {w'' : World τ μ κ ν ε ρ} (h : SameElsewhere t w w')
    (h' : SameElsewhere t w' w'') : SameElsewhere t w w'' :=
  fun u hne => (h' u hne).trans (h u hne)

theorem SameElsewhere.locks_eq (h : SameElsewhere t w w') {u : τ} (hne : u ≠ t) :
    w'.locks u = w.locks u := by
  simp only [World.locks, h u hne]

/-- No move begins a transaction. -/
def Continues (moves : List (Move τ d ν ε ρ)) : Prop := ∀ m ∈ moves, m.started = []

theorem continues_work : Continues [(.work t : Move τ d ν ε ρ)] :=
  List.forall_mem_singleton.mpr rfl

theorem orderly_idle {base : ∀ cell, ν cell} :
    Orderly d (World.idle base : World τ μ κ ν ε ρ) := by
  intro t job hjob
  cases hjob

variable [DecidableEq τ]

theorem sameElsewhere_put (w : World τ μ κ ν ε ρ) (t : τ) (job? : Option (Job μ κ ν ε ρ)) :
    SameElsewhere t w (w.put t job?) :=
  fun _ hne => World.jobs_put_of_ne hne

theorem Orderly.put {job : Job μ κ ν ε ρ} (h : Orderly d w) (hjob : job.Orderly d) :
    Orderly d (w.put t (some job)) :=
  World.forall_jobs_put (fun _ heq => Option.some.inj heq ▸ hjob) fun u other _ => h u other

variable [DecidableEq κ]

theorem orderly_moved {ins : List (Transaction μ κ ν ε ρ)}
    {outs : List (Transaction μ κ ν ε ρ × ρ)} (h : Orderly d w)
    (hmoved : Moved d w ins w' outs) : Orderly d w' := by
  cases hmoved with
  | start fresh careful => exact h.put ⟨careful, fun hgot => absurd rfl hgot⟩
  | take at_job free => exact h.put ⟨(h _ _ at_job).careful, fun _ => ⟨_, _, rfl⟩⟩
  | drop at_job => exact h.put ⟨(h _ _ at_job).careful, fun hgot => absurd rfl hgot⟩
  | acquired at_job complete =>
    exact h.put ⟨(h _ _ at_job).careful.2.2, fun hgot => absurd rfl hgot⟩
  | read at_job =>
    refine h.put ⟨(h _ _ at_job).careful.2 _, fun hgot => ?_⟩
    obtain ⟨locks, rest, hrest⟩ := (h _ _ at_job).waiting hgot
    cases hrest
  | @write t origin cell next rest held got at_job =>
    -- the cells have no say in this
    refine h.put (w := w) ⟨(h _ _ at_job).careful.2 _, fun hgot => ?_⟩
    obtain ⟨locks, rest, hrest⟩ := (h _ _ at_job).waiting hgot
    cases hrest
  | done at_job =>
    exact World.forall_jobs_put (fun _ heq => nomatch heq) fun u other _ => h u other

variable [Fintype τ] [DecidableEq μ]

theorem orderly_run {moves : List (Move τ d ν ε ρ)} {outs : List (Transaction μ κ ν ε ρ × ρ)}
    (hw : Orderly d w) (h : Step.run step w moves = .ok (w', outs)) : Orderly d w' :=
  Step.run_preserves (fun _ _ _ _ hinv _ hstep => orderly_moved hinv (moved_of_step hstep)) hw
    (Step.guarded_of_forall fun _ _ => trivial) h

/-- The locks that are left are taken one by one when nobody is in the way. -/
theorem exists_takeAll {more : List (μ × LockMode)}
    (hjob : w.jobs t = some ⟨origin, .acquire locks rest, held, got⟩)
    (hmore : ∀ lock ∈ more, lock ∈ locks ∧ lock ∉ got ∧ w.Free t lock) (hnodup : more.Nodup) :
    ∃ w' got', Step.Moves (step (d := d)) w (more.map (Move.take t)) w' ∧
      w'.jobs t = some ⟨origin, .acquire locks rest, held, got'⟩ ∧
      (∀ lock ∈ more ++ got, lock ∈ got') ∧ SameElsewhere t w w' := by
  induction more generalizing w got with
  | nil => exact ⟨w, got, .nil, hjob, fun _ => id, fun _ _ => rfl⟩
  | cons lock more ih =>
    obtain ⟨hlock, hrest⟩ := List.forall_mem_cons.mp hmore
    obtain ⟨hnew, hnodup'⟩ := List.nodup_cons.mp hnodup
    let next := w.put t (some ⟨origin, .acquire locks rest, held, lock :: got⟩)
    have hstep : step (d := d) w (.take t lock) = .ok (next, []) := by
      simp only [step, hjob]
      exact if_pos hlock
    have hsame : SameElsewhere t w next := sameElsewhere_put w t _
    obtain ⟨w', got', hmoves, hjob', hgot', hsame'⟩ := ih (w := next) World.jobs_put_self
      (fun other hother => by
        obtain ⟨hmem, hnot, hfree⟩ := hrest other hother
        refine ⟨hmem, ?_, fun u hne => hsame.locks_eq hne ▸ hfree u hne⟩
        rw [List.mem_cons, not_or]
        exact ⟨fun heq => hnew (heq ▸ hother), hnot⟩) hnodup'
    refine ⟨w', got', .cons hstep hmoves, hjob', fun other hother => hgot' other ?_,
      hsame.trans hsame'⟩
    simp only [List.mem_append, List.mem_cons] at hother ⊢
    tauto

/-- The thread comes to its end, and the others stay where they are, or the program ends. -/
def Finishes (d : Discipline μ κ) (t : τ) (w : World τ μ κ ν ε ρ) : Prop :=
  ∃ moves : List (Move τ d ν ε ρ), Continues moves ∧
    ((∃ w' outs, Step.run step w moves = .ok (w', outs) ∧ w'.jobs t = none ∧
      SameElsewhere t w w') ∨
    ∃ fault, Step.run step w moves = .error (.halted fault))

/-- Some moves first. -/
theorem Finishes.of_moves {moves : List (Move τ d ν ε ρ)} (h : Step.Moves step w moves w')
    (hcontinues : Continues moves) (hsame : SameElsewhere t w w') (h' : Finishes d t w') :
    Finishes d t w := by
  obtain ⟨moves', hcontinues', hend⟩ := h'
  refine ⟨moves ++ moves', List.forall_mem_append.mpr ⟨hcontinues, hcontinues'⟩, ?_⟩
  rcases hend with ⟨w'', outs, hrun, hnone, hsame'⟩ | ⟨fault, hrun⟩
  · exact .inl ⟨w'', outs, h.run_append.trans hrun, hnone, hsame.trans hsame'⟩
  · exact .inr ⟨fault, h.run_append.trans hrun⟩

/-- Who has the topmost locks finds nobody in the way, and comes to the end. -/
theorem finishes_of_top (hjob : w.jobs t = some ⟨origin, rest, held, []⟩)
    (hcareful : rest.Careful d held)
    (htop : ∀ u, u ≠ t → ∀ lock ∈ w.locks u, d.rank lock.1 < top d held) : Finishes d t w := by
  -- by induction on what is left of the transaction: with more locks it is still at the top
  induction rest generalizing w held with
  | done result =>
    refine ⟨[.work t], continues_work, .inl ⟨w.put t none, [(origin, result)],
      Step.run_singleton ?_, World.jobs_put_self, sameElsewhere_put w t _⟩⟩
    simp only [step, hjob, workOn]
  | halt fault =>
    refine ⟨[.work t], continues_work, .inr ⟨fault, Step.run_cons_of_error ?_⟩⟩
    simp only [step, hjob, workOn]
  | acquire locks rest ih =>
    obtain ⟨horder, hnodup, hrest⟩ := hcareful
    have habove : ∀ lock ∈ locks, top d held ≤ d.rank lock.1 := fun lock hlock =>
      top_le (horder lock hlock)
    have hfree : ∀ lock ∈ locks, w.Free t lock := by
      intro lock hlock u hne first hfirst lock' hlock' heq
      obtain rfl := List.mem_singleton.mp hfirst
      have hbelow := htop u hne lock' hlock'
      have := habove first hlock
      rw [heq] at this
      omega
    obtain ⟨w', got, hmoves, hjob', hgot, hsame⟩ := exists_takeAll (d := d) hjob
      (fun lock hlock => ⟨hlock, List.not_mem_nil, hfree lock hlock⟩) hnodup.of_map
    have hstep : step (d := d) w' (.work t) =
        .ok (w'.put t (some ⟨origin, rest, locks ++ held, []⟩), []) := by
      simp only [step, hjob', workOn]
      exact if_pos fun lock hlock => hgot lock (List.mem_append_left _ hlock)
    have hsame' := hsame.trans (sameElsewhere_put w' t
      (some ⟨origin, rest, locks ++ held, []⟩))
    have hcontinues : Continues (locks.map (Move.take t) ++ [(.work t : Move τ d ν ε ρ)]) := by
      refine List.forall_mem_append.mpr ⟨fun m hm => ?_, continues_work⟩
      obtain ⟨lock, -, rfl⟩ := List.mem_map.mp hm
      rfl
    refine .of_moves (hmoves.append (.single hstep)) hcontinues hsame' ?_
    refine ih World.jobs_put_self hrest fun u hne lock hlock => ?_
    rw [hsame'.locks_eq hne] at hlock
    exact (htop u hne lock hlock).trans_le top_le_append
  | read cell rest ih =>
    have hstep : step (d := d) w (.work t) =
        .ok (w.put t (some ⟨origin, rest (w.cells cell), held, []⟩), []) := by
      simp only [step, hjob, workOn]
    refine .of_moves (.single hstep) continues_work (sameElsewhere_put w t _) ?_
    refine ih _ World.jobs_put_self (hcareful.2 _) fun u hne lock hlock => ?_
    rw [World.locks_put_of_ne hne] at hlock
    exact htop u hne lock hlock
  | write cell next rest ih =>
    let job : Job μ κ ν ε ρ := ⟨origin, rest (w.cells cell), held, []⟩
    let w' := (w.put t (some job)).set cell (next (w.cells cell))
    have hstep : step (d := d) w (.work t) = .ok (w', []) := by
      simp only [step, hjob, workOn]
      rfl
    have hsame : SameElsewhere t w w' := sameElsewhere_put w t _
    refine .of_moves (.single hstep) continues_work hsame ?_
    refine ih _ (World.jobs_put_self (w := w)) (hcareful.2 _) fun u hne lock hlock => ?_
    rw [hsame.locks_eq hne] at hlock
    exact htop u hne lock hlock

/-- A thread in the middle of taking locks gets through or drops them. -/
theorem exists_settling (hw : Orderly d w) (t : τ) :
    ∃ (moves : List (Move τ d ν ε ρ)) (w' : World τ μ κ ν ε ρ), Continues moves ∧
      Step.Moves step w moves w' ∧ (∀ u, Settled w u → Settled w' u) ∧ Settled w' t := by
  by_cases hsettled : Settled w t
  · exact ⟨[], w, fun _ h => absurd h List.not_mem_nil, .nil, fun _ => id, hsettled⟩
  simp only [Settled, not_forall] at hsettled
  obtain ⟨⟨origin, rest, held, got⟩, hjob, hgot⟩ := hsettled
  obtain ⟨locks, rest, rfl⟩ := (hw t _ hjob).waiting hgot
  obtain ⟨m, rest', held', hm, hstep⟩ : ∃ (m : Move τ d ν ε ρ) (rest' : Transaction μ κ ν ε ρ)
      (held' : List (μ × LockMode)), m.started = [] ∧
      step w m = .ok (w.put t (some ⟨origin, rest', held', []⟩), []) := by
    by_cases hall : ∀ lock ∈ locks, lock ∈ got
    · refine ⟨.work t, rest, locks ++ held, rfl, ?_⟩
      simp only [step, hjob, workOn]
      exact if_pos hall
    · refine ⟨.drop t, .acquire locks rest, held, rfl, ?_⟩
      simp only [step, hjob]
      exact if_neg hall
  have hnow : Settled (w.put t (some ⟨origin, rest', held', []⟩)) t := by
    intro job heq
    rw [World.jobs_put_self] at heq
    exact (Option.some.inj heq) ▸ rfl
  refine ⟨[m], _, List.forall_mem_singleton.mpr hm, .single hstep, fun u hu => ?_, hnow⟩
  rcases eq_or_ne u t with rfl | hne
  · exact hnow
  · intro job heq
    rw [World.jobs_put_of_ne hne] at heq
    exact hu job heq

theorem exists_settled (ts : List τ) (hw : Orderly d w) :
    ∃ (moves : List (Move τ d ν ε ρ)) (w' : World τ μ κ ν ε ρ), Continues moves ∧
      Step.Moves step w moves w' ∧ (∀ t, Settled w t → Settled w' t) ∧
      ∀ t ∈ ts, Settled w' t := by
  induction ts generalizing w with
  | nil =>
    exact ⟨[], w, fun _ h => absurd h List.not_mem_nil, .nil, fun _ => id,
      fun _ h => absurd h List.not_mem_nil⟩
  | cons t ts ih =>
    obtain ⟨first, w₁, hfirst, hmoves, hkept, hsettled⟩ := exists_settling hw t
    obtain ⟨later, w₂, hlater, hmoves', hkept', hsettled'⟩ := ih (orderly_run hw hmoves)
    refine ⟨first ++ later, w₂, List.forall_mem_append.mpr ⟨hfirst, hlater⟩,
      hmoves.append hmoves', fun u hu => hkept' u (hkept u hu), fun u hu => ?_⟩
    rcases List.mem_cons.mp hu with rfl | hmem
    · exact hkept' u hsettled
    · exact hsettled' u hmem

/-- All threads come to their end, and no other transaction has to begin for that, or the
program ends. -/
def Ends (d : Discipline μ κ) (w : World τ μ κ ν ε ρ) : Prop :=
  ∃ moves : List (Move τ d ν ε ρ), Continues moves ∧
    ((∃ w' outs, Step.run step w moves = .ok (w', outs) ∧ w'.AtRest) ∨
    ∃ fault, Step.run step w moves = .error (.halted fault))

theorem Ends.of_run {moves : List (Move τ d ν ε ρ)} {outs : List (Transaction μ κ ν ε ρ × ρ)}
    (h : Step.run step w moves = .ok (w', outs)) (hcontinues : Continues moves)
    (h' : Ends d w') : Ends d w := by
  obtain ⟨moves', hcontinues', hend⟩ := h'
  refine ⟨moves ++ moves', List.forall_mem_append.mpr ⟨hcontinues, hcontinues'⟩, ?_⟩
  rcases hend with ⟨w'', outs', hrun, hrest⟩ | ⟨fault, hrun⟩
  · exact .inl ⟨w'', _, Step.run_append_ok h hrun, hrest⟩
  · exact .inr ⟨fault, Step.run_append_ok_error h hrun⟩

/-- The threads that are at a transaction. -/
def running (w : World τ μ κ ν ε ρ) : Finset τ := Finset.univ.filter fun t => (w.jobs t).isSome

/-- Where all threads are settled, the one with the topmost locks ends first, and so on. -/
theorem ends_of_settled (hw : Orderly d w) (hsettled : ∀ t, Settled w t) : Ends d w := by
  induction hn : (running w).card using Nat.strong_induction_on generalizing w with
  | _ n ih =>
    rcases (running w).eq_empty_or_nonempty with hnone | hsome
    · refine ⟨[], fun _ h => absurd h List.not_mem_nil, .inl ⟨w, [], rfl, fun t => ?_⟩⟩
      have hnot : t ∉ running w := hnone ▸ Finset.notMem_empty t
      simpa [running] using hnot
    · obtain ⟨t, ht, hmax⟩ := (running w).exists_max_image (fun t => top d (w.locks t)) hsome
      obtain ⟨job, hjob⟩ : ∃ job, w.jobs t = some job :=
        Option.isSome_iff_exists.mp (Finset.mem_filter.mp ht).2
      obtain ⟨origin, rest, held, got⟩ := job
      obtain rfl : got = [] := hsettled t _ hjob
      have htop : ∀ u, u ≠ t → ∀ lock ∈ w.locks u, d.rank lock.1 < top d held := by
        intro u _ lock hlock
        have hu : u ∈ running w := by
          refine Finset.mem_filter.mpr ⟨Finset.mem_univ u, ?_⟩
          by_contra hnot
          rw [Bool.not_eq_true, Option.isSome_eq_false_iff, Option.isNone_iff_eq_none] at hnot
          simp [World.locks, hnot] at hlock
        have hle := hmax u hu
        simp only [locks_of_job hjob, List.nil_append] at hle
        exact (lt_top hlock).trans_le hle
      obtain ⟨moves, hcontinues, ⟨w', outs, hrun, hnone, hsame⟩ | ⟨fault, hrun⟩⟩ :=
        finishes_of_top hjob (hw t _ hjob).careful htop
      · refine .of_run hrun hcontinues (ih (running w').card ?_ (orderly_run hw hrun) ?_ rfl)
        · rw [← hn]
          apply Finset.card_lt_card
          refine Finset.ssubset_iff_subset_ne.mpr ⟨fun u hu => ?_, fun heq => ?_⟩
          · have hu' := (Finset.mem_filter.mp hu).2
            rcases eq_or_ne u t with rfl | hne
            · rw [hnone] at hu'
              cases hu'
            · rw [hsame u hne] at hu'
              exact Finset.mem_filter.mpr ⟨Finset.mem_univ u, hu'⟩
          · have ht' : t ∈ running w' := heq ▸ ht
            have hsome' := (Finset.mem_filter.mp ht').2
            rw [hnone] at hsome'
            cases hsome'
        · intro u other hother
          rcases eq_or_ne u t with rfl | hne
          · rw [hnone] at hother
            cases hother
          · rw [hsame u hne] at hother
            exact hsettled u other hother
      · exact ⟨moves, hcontinues, .inr ⟨fault, hrun⟩⟩

/-- No deadlock: however far the threads have got, all of them can come to their end. -/
theorem ends_of_run {base : ∀ cell, ν cell} {moves : List (Move τ d ν ε ρ)}
    {outs : List (Transaction μ κ ν ε ρ × ρ)}
    (h : Step.run step (World.idle base) moves = .ok (w, outs)) : Ends d w := by
  have horderly : Orderly d w := orderly_run orderly_idle h
  obtain ⟨settling, w', hcontinues, hmoves, -, hsettled⟩ :=
    exists_settled (Finset.univ : Finset τ).toList horderly
  refine .of_run hmoves hcontinues (ends_of_settled (orderly_run horderly hmoves) fun t => ?_)
  exact hsettled t (Finset.mem_toList.mpr (Finset.mem_univ t))

end Completion

end Transaction

end Theory
