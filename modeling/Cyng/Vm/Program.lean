import Cyng.Vm.OpCodes
import Cyng.Vm.RoundTrip

/-!
# Programs in the memory of the machine

Instructions are appended to the memory, a run executes what lies behind the program counter.
The memory never shrinks, so the counter is all that separates what was executed from what
waits for the next run.

A run executes the instruction at the counter before it moves on, and `INVOKE_R` can call any
function of the machine directly, also those that load a program or run it. So a run is defined
with a limit on the instructions it executes.
-/

namespace Cyng

open Theory

namespace Vm

/-! ### Memory -/

/-- `memory` -/
structure Memory where
  mem : List Obj
  pc : ℕ

namespace Memory

variable (b : Build) (m : Memory)

/-- `memory::operator bool` -/
def hasMore : Bool := m.pc < m.mem.length

/-- `memory::operator()` -/
def fetch : Except Fault Obj := do
  b.check "pc_ < mem_.size()" (m.pc < m.mem.length)
  match m.mem[m.pc]? with
  | some o => .ok o
  | none => .error (.undefined "mem_[pc_]")

/-- `memory::step` -/
def step : Except Fault Memory := do
  b.check "pc_ < mem_.size()" (m.pc < m.mem.length)
  return if m.pc < m.mem.length then { m with pc := m.pc + 1 } else m

/-- The instructions that were not executed yet; `memory::op_count` is their number. -/
def pending : List Obj := m.mem.drop m.pc

/-- The counter is at the end. -/
def Exhausted : Prop := m.pc = m.mem.length

end Memory

/-! ### The machine with its memory -/

/-- `context` -/
structure Context where
  memory : Memory
  stack : Stack

namespace Context

/-- `context::load` of one object -/
def load (c : Context) (o : Obj) : Context :=
  { c with memory := { c.memory with mem := c.memory.mem ++ [o] } }

/-- `context::load` of a deque -/
def loadAll (c : Context) (deq : List Obj) : Context :=
  { c with memory := { c.memory with mem := c.memory.mem ++ deq } }

end Context

/-- Why a run does not come to its end. -/
inductive Halt
  | fault (fault : Fault)
  /-- the limit was reached -/
  | limit
deriving DecidableEq

/-- A call that needs no limit. -/
def unlimited {α : Type} : Except Fault α → Except Halt α
  | .ok x => .ok x
  | .error fault => .error (.fault fault)

@[simp] theorem unlimited_ok {α : Type} (x : α) : unlimited (.ok x) = .ok x := rfl

@[simp] theorem unlimited_error {α : Type} (e : Fault) :
    unlimited (.error e : Except Fault α) = .error (.fault e) := rfl

/-- A context and what was asked of the surroundings on the way to it. -/
abbrev Outcome := Except Halt (Context × List VmEffect)

section Runs

variable (b : Build) (env : VmEnv)

/-- `tuple_cast` to a single parameter: the last object of the message. -/
def parameter (msg : List Obj) : Except Fault Obj := do
  b.check "size == inp.size()" (msg.length = 1)
  b.check "pos != end" (msg ≠ [])
  match msg.getLast? with
  | some o => .ok o
  | none => .error (.undefined "*pos")

/-- The function with the given number, as far as it is one of the machine itself: the first
two load, the third one runs the program. The other ones leave the memory alone. -/
def function (run : Context → Outcome) (number : ℕ) (msg : List Obj) (c : Context) : Outcome :=
  match number with
  | 0 => do
    let o ← unlimited (parameter b msg)
    return (c.load o, [])
  | 1 => do
    let o ← unlimited (parameter b msg)
    return (c.loadAll ((Stack.asSeq .deque o).getD []), [])
  | 2 => run c
  | _ => .ok (c, [])

/-- The functions that an instruction calls directly. -/
def callFunctions (run : Context → Outcome) : Context → List VmEffect → Outcome
  | c, [] => .ok (c, [])
  | c, .call number msg :: effects => do
    let (c, inner) ← function b run number msg c
    let (c, outer) ← callFunctions run c effects
    return (c, .call number msg :: inner ++ outer)
  | c, effect :: effects => do
    let (c, outer) ← callFunctions run c effects
    return (c, effect :: outer)

/-- `vm_base::run`, for a number of instructions -/
def run : ℕ → Context → Outcome
  | 0, c => if c.memory.hasMore then .error .limit else .ok (c, [])
  | limit + 1, c =>
    if c.memory.hasMore then do
      let o ← unlimited (c.memory.fetch b)
      let (stack, effects) ← unlimited (exec b env c.stack o)
      -- the counter still points to the instruction while a function is called
      let (c, done) ← callFunctions b (run limit) { c with stack } effects
      let memory ← unlimited (c.memory.step b)
      let (c, rest) ← run limit { c with memory }
      return (c, done ++ rest)
    else .ok (c, [])

/-- A call that reaches the machine over its channel. -/
inductive Message
  | load (o : Obj)
  | loadAll (deq : List Obj)
  | run

/-- The slots 0, 1 and 2 of the machine -/
def slot (limit : ℕ) : Step Context Message VmEffect Halt := fun c msg =>
  match msg with
  | .load o => .ok (c.load o, [])
  | .loadAll deq => .ok (c.loadAll deq, [])
  | .run => run b env limit c

end Runs

/-- `vm_proxy::load` of one object: an op code runs at once. -/
def Message.ofObject (o : Obj) : List Message :=
  match o with
  | .scalar (.op _) => [.load o, .run]
  | _ => [.load o]

/-! ### What messages ask for -/

namespace Message

/-- The instructions that messages load. -/
def loaded : List Message → List Obj
  | [] => []
  | .load o :: ms => o :: loaded ms
  | .loadAll deq :: ms => deq ++ loaded ms
  | .run :: ms => loaded ms

/-- Is there a run among the messages? -/
def runs : List Message → Bool
  | [] => false
  | .run :: _ => true
  | _ :: ms => runs ms

/-- The instructions that are loaded before the last run. -/
def ready : List Message → List Obj
  | [] => []
  | .load o :: ms => if runs ms then o :: ready ms else []
  | .loadAll deq :: ms => if runs ms then deq ++ ready ms else []
  | .run :: ms => ready ms

/-- Op code or not, an object is loaded once. -/
theorem loaded_ofObject (o : Obj) : loaded (ofObject o) = [o] := by
  cases o with
  | scalar v => cases v <;> rfl
  | _ => rfl

@[simp] theorem loaded_append (ms ms' : List Message) :
    loaded (ms ++ ms') = loaded ms ++ loaded ms' := by
  induction ms with
  | nil => rfl
  | cons m ms ih => cases m <;> simp [loaded, ih]

theorem ready_of_not_runs {ms : List Message} (h : runs ms = false) : ready ms = [] := by
  cases ms with
  | nil => rfl
  | cons m ms => cases m <;> simp_all [runs, ready]

theorem runs_concat (ms : List Message) : runs (ms ++ [.run]) = true := by
  induction ms with
  | nil => rfl
  | cons m ms ih => cases m <;> simp [runs, ih]

/-- After a run nothing that was loaded waits. -/
theorem ready_concat (ms : List Message) : ready (ms ++ [.run]) = loaded ms := by
  induction ms with
  | nil => rfl
  | cons m ms ih => cases m <;> simp [ready, loaded, runs_concat, ih]

/-- Instructions are taken from the front. -/
theorem ready_isPrefix (ms : List Message) : ready ms <+: loaded ms := by
  induction ms with
  | nil => exact List.prefix_rfl
  | cons m ms ih =>
    cases m with
    | run => exact ih
    | load o =>
      simp only [ready, loaded]
      split_ifs
      · exact (List.prefix_cons_inj o).mpr ih
      · exact List.nil_prefix
    | loadAll deq =>
      simp only [ready, loaded]
      split_ifs
      · exact (List.prefix_append_right_inj deq).mpr ih
      · exact List.nil_prefix

end Message

/-! ### Direct calls -/

section Calls

variable {b : Build} {env : VmEnv} {s s' : Stack} {effects : List VmEffect} {code : BitVec 16}

/-- The number that `INVOKE_R` takes from the stack. -/
def functionNumber (s : Stack) : ℕ := ((s.items.getLast?.bind Stack.asSize).getD 0).toNat

/-- A direct call is one of a function that does not touch the memory. -/
def External (env : VmEnv) (s : Stack) (o : Obj) : Prop :=
  o = .op Op.invokeR → 3 ≤ functionNumber s ∧ functionNumber s < env.functions

instance instDecidableExternal (env : VmEnv) (s : Stack) (o : Obj) :
    Decidable (External env s o) :=
  inferInstanceAs (Decidable (_ → _))

/-- Every function that an external instruction calls is one of those. -/
theorem call_external {o : Obj} {number : ℕ} {msg : List Obj}
    (h : exec b env s o = .ok (s', effects)) (hexternal : External env s o)
    (hcall : .call number msg ∈ effects) : 3 ≤ number := by
  have hpush (ho : exec b env s o = .ok (s.push o, [])) : 3 ≤ number := by
    obtain ⟨-, rfl⟩ := Prod.mk.inj (Except.ok.inj (ho.symm.trans h))
    cases hcall
  cases o with
  | scalar v =>
    cases v with
    | op code =>
      rcases execOp_cases h with ⟨rfl, -⟩ | ⟨-, hinvoke⟩ | ⟨rfl, hinvokeR⟩ | ⟨-, hforward⟩
      · cases hcall
      · exact absurd hcall (no_call_of_invoke hinvoke)
      · obtain ⟨id, msg', t, hstack, rfl⟩ := call_of_invokeR hinvokeR
        obtain ⟨hlow, hhigh⟩ := hexternal rfl
        rw [functionNumber, ← Stack.invokeR_eq_ok hstack] at hlow hhigh
        rw [if_pos ⟨by omega, hhigh⟩, List.mem_singleton] at hcall
        obtain ⟨rfl, -⟩ := VmEffect.call.inj hcall
        exact hlow
      · exact absurd hcall (no_call_of_forward hforward)
    | _ => exact hpush rfl
  | _ => exact hpush rfl

/-- Such calls leave the context as it is. -/
theorem callFunctions_of_external {run : Context → Outcome} {c : Context}
    (h : ∀ number msg, .call number msg ∈ effects → 3 ≤ number) :
    callFunctions b run c effects = .ok (c, effects) := by
  induction effects with
  | nil => rfl
  | cons effect effects ih =>
    have htail := ih fun number msg hmem => h number msg (List.mem_cons_of_mem effect hmem)
    cases effect with
    | dispatch slot msg => simp [callFunctions, htail]
    | forward tag slot msg => simp [callFunctions, htail]
    | call number msg =>
      obtain ⟨n, rfl⟩ := Nat.exists_eq_add_of_le' (h number msg List.mem_cons_self)
      simp [callFunctions, function, htail]

end Calls

section Order

variable {b : Build} {env : VmEnv}

/-- What is left of an execution when the memory is put beside it. -/
def withMemory (memory : Memory) (result : Except Fault (Stack × List VmEffect)) : Outcome := do
  let (stack, effects) ← unlimited result
  return (⟨memory, stack⟩, effects)

/-- A run executes what is pending, each instruction once and in order, and then the memory is
exhausted. -/
theorem run_eq {limit : ℕ} {c : Context} (hpc : c.memory.pc ≤ c.memory.mem.length)
    (hlimit : c.memory.pending.length ≤ limit)
    (h : Step.Guarded (exec b env) (External env) c.stack c.memory.pending) :
    run b env limit c =
      withMemory ⟨c.memory.mem, c.memory.mem.length⟩
        (Step.run (exec b env) c.stack c.memory.pending) := by
  obtain ⟨⟨mem, pc⟩, stack⟩ := c
  simp only [Memory.pending] at hpc hlimit h ⊢
  induction limit generalizing pc stack with
  | zero =>
    have hend : pc = mem.length := by
      rw [List.length_drop] at hlimit
      omega
    subst hend
    simp [run, Memory.hasMore, withMemory]
  | succ limit ih =>
    rcases Nat.lt_or_eq_of_le hpc with hlt | rfl
    · have hdrop : mem.drop pc = mem[pc] :: mem.drop (pc + 1) := List.drop_eq_getElem_cons hlt
      rw [hdrop] at h hlimit ⊢
      have hfetch : Memory.fetch b ⟨mem, pc⟩ = .ok mem[pc] := by
        simp only [Memory.fetch]
        rw [Build.check_of hlt, ok_bind, List.getElem?_eq_getElem hlt]
      have hstep : Memory.step b ⟨mem, pc⟩ = .ok ⟨mem, pc + 1⟩ := by
        simp only [Memory.step]
        rw [Build.check_of hlt, ok_bind, if_pos hlt]
        rfl
      rw [run, if_pos (by simpa [Memory.hasMore] using hlt)]
      cases hexec : exec b env stack mem[pc] with
      | error e =>
        rw [Step.run_cons_of_error hexec]
        simp only [hfetch, hexec, withMemory, unlimited_ok, unlimited_error, ok_bind, error_bind]
      | ok r =>
        obtain ⟨stack', effects⟩ := r
        -- an external effect does not come back to this machine
        have hcalls : callFunctions b (run b env limit) ⟨⟨mem, pc⟩, stack'⟩ effects =
            .ok (⟨⟨mem, pc⟩, stack'⟩, effects) :=
          callFunctions_of_external fun number msg => call_external hexec h.1
        have hrest := ih stack' (pc + 1) hlt (Nat.le_of_succ_le_succ hlimit)
          (h.2 stack' effects hexec)
        rw [Step.run_cons_of_ok hexec]
        simp only [hfetch, hexec, hcalls, hstep, hrest, unlimited_ok, ok_bind]
        cases Step.run (exec b env) stack' (mem.drop (pc + 1)) <;> rfl
    · simp [run, Memory.hasMore, withMemory]

/-- What was pending when the messages arrive, and what they load, is executed by the runs among
them. -/
theorem run_slot_eq {limit : ℕ} {c : Context} {ms : List Message}
    (hpc : c.memory.pc ≤ c.memory.mem.length)
    (hlimit : c.memory.pending.length + (Message.loaded ms).length ≤ limit)
    {todo : List Obj}
    (htodo : todo = if Message.runs ms then c.memory.pending ++ Message.ready ms else [])
    (h : Step.Guarded (exec b env) (External env) c.stack todo) :
    Step.run (slot b env limit) c ms =
      withMemory ⟨c.memory.mem ++ Message.loaded ms, c.memory.pc + todo.length⟩
        (Step.run (exec b env) c.stack todo) := by
  induction ms generalizing c todo with
  | nil =>
    subst htodo
    simp [Message.runs, Message.loaded, withMemory]
  | cons m ms ih =>
    -- both kinds of loads put instructions behind the pending ones
    have hloads (os : List Obj)
        (hlimit : c.memory.pending.length + (os ++ Message.loaded ms).length ≤ limit)
        (htodo : todo = if Message.runs ms then c.memory.pending ++ (os ++ Message.ready ms)
          else []) :
        Step.run (slot b env limit) (c.loadAll os) ms =
          withMemory ⟨c.memory.mem ++ (os ++ Message.loaded ms), c.memory.pc + todo.length⟩
            (Step.run (exec b env) c.stack todo) := by
      have hpending : (c.loadAll os).memory.pending = c.memory.pending ++ os :=
        List.drop_append_of_le_length hpc
      have hpc' : (c.loadAll os).memory.pc ≤ (c.loadAll os).memory.mem.length :=
        hpc.trans (by simp [Context.loadAll])
      have hlimit' : (c.loadAll os).memory.pending.length + (Message.loaded ms).length ≤ limit := by
        rwa [hpending, List.length_append, Nat.add_assoc, ← List.length_append]
      rw [← List.append_assoc]
      exact ih (c := c.loadAll os) hpc' hlimit' (by rwa [hpending, List.append_assoc]) h
    cases m with
    | load o =>
      have hstep : slot b env limit c (.load o) = .ok (c.loadAll [o], []) := rfl
      have htodo' : todo =
          if Message.runs ms then c.memory.pending ++ ([o] ++ Message.ready ms) else [] := by
        rw [htodo]
        cases hruns : Message.runs ms <;> simp [Message.runs, Message.ready, hruns]
      rw [Step.run_cons_of_ok hstep, hloads [o] hlimit htodo']
      cases Step.run (exec b env) c.stack todo <;> rfl
    | loadAll deq =>
      have hstep : slot b env limit c (.loadAll deq) = .ok (c.loadAll deq, []) := rfl
      have htodo' : todo =
          if Message.runs ms then c.memory.pending ++ (deq ++ Message.ready ms) else [] := by
        rw [htodo]
        cases hruns : Message.runs ms <;> simp [Message.runs, Message.ready, hruns]
      rw [Step.run_cons_of_ok hstep, hloads deq hlimit htodo']
      cases Step.run (exec b env) c.stack todo <;> rfl
    | run =>
      have htodo' : todo = c.memory.pending ++ Message.ready ms := htodo
      obtain ⟨hpending, hrest⟩ := Step.guarded_append.mp (htodo' ▸ h)
      have hstep : slot b env limit c .run = withMemory ⟨c.memory.mem, c.memory.mem.length⟩
          (Step.run (exec b env) c.stack c.memory.pending) :=
        run_eq hpc (Nat.le_of_add_right_le hlimit) hpending
      cases hrun : Step.run (exec b env) c.stack c.memory.pending with
      | error e =>
        rw [hrun] at hstep
        rw [Step.run_cons_of_error hstep, htodo', Step.run_append_of_error hrun]
        rfl
      | ok r =>
        obtain ⟨stack, effects⟩ := r
        rw [hrun] at hstep
        have hnone : Memory.pending ⟨c.memory.mem, c.memory.mem.length⟩ = [] := List.drop_length
        have hready : Message.ready ms =
            if Message.runs ms then [] ++ Message.ready ms else [] := by
          cases hruns : Message.runs ms with
          | true => rfl
          | false => exact Message.ready_of_not_runs hruns
        have hmore := ih (c := ⟨⟨c.memory.mem, c.memory.mem.length⟩, stack⟩) le_rfl
          (by rw [hnone]; exact (Nat.add_le_add_right (Nat.zero_le _) _).trans hlimit)
          (by rw [hnone]; exact hready) (hrest stack effects hrun)
        have hcount : c.memory.pc + todo.length =
            c.memory.mem.length + (Message.ready ms).length := by
          rw [htodo', List.length_append, Memory.pending, List.length_drop]
          omega
        rw [Step.run_cons_of_ok hstep, hmore, hcount]
        cases hlast : Step.run (exec b env) stack (Message.ready ms) with
        | error e => rw [htodo', Step.run_append_ok_error hrun hlast]; rfl
        | ok r => rw [htodo', Step.run_append_ok hrun hlast]; rfl

/-- From an idle machine, messages execute what was loaded before the last run: each instruction
once and in the order of loading, as if there had been one program. The memory keeps everything,
and a run leaves nothing behind. -/
theorem program_order {limit : ℕ} {c : Context} (hidle : c.memory.Exhausted) (ms : List Message)
    (hlimit : (Message.loaded ms).length ≤ limit)
    (h : Step.Guarded (exec b env) (External env) c.stack (Message.ready ms)) :
    Step.run (slot b env limit) c ms =
        withMemory ⟨c.memory.mem ++ Message.loaded ms, c.memory.pc + (Message.ready ms).length⟩
          (Step.run (exec b env) c.stack (Message.ready ms)) ∧
      Message.ready ms <+: Message.loaded ms ∧
      ∀ before, ms = before ++ [.run] → Message.ready ms = Message.loaded ms := by
  have hpending : c.memory.pending = [] := by
    rw [Memory.pending, hidle]
    exact List.drop_length
  have hready : Message.ready ms =
      if Message.runs ms then c.memory.pending ++ Message.ready ms else [] := by
    rw [hpending]
    cases hruns : Message.runs ms with
    | true => rfl
    | false => exact Message.ready_of_not_runs hruns
  refine ⟨run_slot_eq hidle.le ?_ hready h, Message.ready_isPrefix ms, ?_⟩
  · simpa [hpending] using hlimit
  · rintro before rfl
    rw [Message.ready_concat]
    simp [Message.loaded]

/-- A program in two parts, with a run behind each of them. -/
def twoParts : List Message :=
  [.load (.size 1), .run, .loadAll [.scalar .null, .op Op.noop], .run]

theorem program_order_twoParts :
    Step.run (slot .debug bare 3) ⟨⟨[], 0⟩, ⟨[], 0⟩⟩ twoParts =
        withMemory ⟨Message.loaded twoParts, (Message.ready twoParts).length⟩
          (Step.run (exec .debug bare) ⟨[], 0⟩ (Message.ready twoParts)) ∧
      Message.ready twoParts <+: Message.loaded twoParts ∧
      ∀ before, twoParts = before ++ [.run] → Message.ready twoParts = Message.loaded twoParts := by
  have hlimit : (Message.loaded twoParts).length ≤ 3 := by decide
  have hguard : Step.Guarded (exec .debug bare) (External bare) ⟨[], 0⟩
      (Message.ready twoParts) := by decide
  simpa using program_order (c := ⟨⟨[], 0⟩, ⟨[], 0⟩⟩) rfl twoParts hlimit hguard

/-- The last instruction calls the function that runs the program. -/
def runsItself : List Message :=
  [.loadAll [.size 0, .size 5, .size 0, .size 2, .op Op.invokeR], .run]

/-- It is executed twice. -/
theorem not_program_order : ¬∀ (b : Build) (env : VmEnv) (limit : ℕ) (c : Context)
    (ms : List Message), c.memory.Exhausted → (Message.loaded ms).length ≤ limit →
    Step.run (slot b env limit) c ms =
      withMemory ⟨c.memory.mem ++ Message.loaded ms, c.memory.pc + (Message.ready ms).length⟩
        (Step.run (exec b env) c.stack (Message.ready ms)) := by
  intro h
  have hruns := h .release { bare with functions := 6 } 9 ⟨⟨[], 0⟩, ⟨[], 0⟩⟩ runsItself rfl
    (by decide)
  have hsize := congrArg (fun r : Outcome => match r with
    | .ok (c, _) => c.stack.items.length
    | .error _ => 0) hruns
  exact absurd hsize (by decide)

end Order

end Vm

end Cyng
