import Cyng.Vm.Invoke
import Cyng.Task.Mail
import Cyng.Db.Restore

/-!
# Machines that forward calls to each other

The machines of a mesh are tasks, and the channel of a machine has its tag as name. A machine that
executes a forwarded call looks up the channel with the tag, over the registry, and dispatches the
call to it. The machines run side by side, one object of a program at a time, and so do the
strands of the registry and of the channels.

A run of the mesh is a run of every machine on its own, and a run of the registry with what the
machines have asked of it.
-/

namespace Cyng

open Theory

namespace Vm

/-- `generate_forward` -/
def generateForward (name : Bytes) (tag : Octets 16) (args : List Obj) : List Obj :=
  args ++ [.size args.length, .scalar (.string name), .scalar (.uuid tag), .op Op.forward]

/-- A forwarded call, and the stack is what it was. -/
theorem run_generateForward {b : Build} {env : VmEnv} {s : Stack} {name : Bytes}
    {tag : Octets 16} {args : List Obj} (hcount : args.length < 2 ^ 64)
    (hargs : ∀ o ∈ args, ∀ code, o ≠ .op code) (htag : tag ≠ Octets.zero 16)
    (hother : channelTag env ≠ tag) :
    (exec b env).run s (generateForward name tag args) = .ok (s, [.forward tag name args]) := by
  have hforward : exec b env
      ((((s.pushAll args).push (.size args.length)).push (.scalar (.string name))).push
        (.scalar (.uuid tag))) (.op Op.forward) = .ok (s, [.forward tag name args]) := by
    have hexec (t : Stack) : exec b env t (.op Op.forward) = forward b env t := rfl
    rw [hexec, forward, Stack.forward, Stack.topValue_push b _ _ (x := tag) rfl, ok_bind,
      Build.check_of htag, ok_bind, Stack.pop_push]
    simp only [ok_bind, invoke_pushAll hcount, if_neg hother]
  exact ((moves_pushAll hargs).run_append).trans
    (Step.run_cons_ok (exec_of_ne_op (by simp)) (Step.run_cons_ok (exec_of_ne_op (by simp))
      (Step.run_cons_ok (exec_of_ne_op (by simp)) (Step.run_singleton hforward))))

end Vm

/-- The machines of a mesh, with the registry. -/
structure Mesh where
  exchange : Task.Exchange
  stackOf : ℕ → Stack

/-- What happens in a mesh. -/
inductive MeshEvent
  /-- a machine executes the next object of its program -/
  | exec (k : ℕ) (obj : Obj)
  | exchange (event : Task.ExchangeEvent)

namespace Mesh

section Machine

variable (b : Build) (names : ℕ → Bytes → ℕ) (envs : ℕ → VmEnv) (ids : ℕ → ℕ)

/-- What a machine asks of the registry, or of its own channel. -/
def asked (k : ℕ) : VmEffect → List Task.ExchangeEvent
  | .forward tag slot msg => [.post (.forward (uuidToPlain tag) slot msg)]
  | .dispatch slot msg => [.registry (.channel (ids k) (.dispatch (names (ids k) slot) msg))]
  | .call _ _ => []

/-- The mesh as a machine. -/
def step : Step Mesh MeshEvent Task.RegistryEffect Fault := fun m event =>
  match event with
  | .exec k obj => do
    let (s, effects) ← Vm.exec b (envs k) (m.stackOf k) obj
    let (e, outs) ← Step.run (Task.Exchange.step b names) m.exchange
      (effects.flatMap (asked names ids k))
    .ok (⟨e, Function.update m.stackOf k s⟩, outs)
  | .exchange event => do
    let (e, outs) ← Task.Exchange.step b names m.exchange event
    .ok ({ m with exchange := e }, outs)

/-- The program of a machine. -/
def executed (k : ℕ) (events : List MeshEvent) : List Obj :=
  events.filterMap fun
    | .exec j obj => if j = k then some obj else none
    | .exchange _ => none

end Machine

/-- Effects of machines, and other events. -/
abbrev Log := List (ℕ × VmEffect ⊕ Task.ExchangeEvent)

namespace Log

/-- The effects of one machine. -/
def effectsOf (k : ℕ) (log : Log) : List VmEffect :=
  log.filterMap fun
    | .inl (j, effect) => if j = k then some effect else none
    | .inr _ => none

/-- What reaches the registry. -/
def events (names : ℕ → Bytes → ℕ) (ids : ℕ → ℕ) (log : Log) : List Task.ExchangeEvent :=
  log.flatMap fun
    | .inl (k, effect) => asked names ids k effect
    | .inr event => [event]

end Log

section Runs

variable {b : Build} {names : ℕ → Bytes → ℕ} {envs : ℕ → VmEnv}
  {ids : ℕ → ℕ} {m m' : Mesh} {events : List MeshEvent} {outs : List Task.RegistryEffect}

theorem effectsOf_append (k : ℕ) (log log' : Log) :
    Log.effectsOf k (log ++ log') = log.effectsOf k ++ log'.effectsOf k := List.filterMap_append

theorem effectsOf_map_self (k : ℕ) (effects : List VmEffect) :
    Log.effectsOf k (effects.map fun effect => .inl (k, effect)) = effects := by
  rw [Log.effectsOf, List.filterMap_map]
  simp

theorem effectsOf_map_of_ne {j k : ℕ} (h : j ≠ k) (effects : List VmEffect) :
    Log.effectsOf j (effects.map fun effect => .inl (k, effect)) = [] := by
  rw [Log.effectsOf, List.filterMap_map]
  simp [h.symm]

theorem executed_exec_self (k : ℕ) (obj : Obj) :
    executed k (.exec k obj :: events) = obj :: executed k events := by
  simp [executed]

theorem executed_exec_of_ne {j k : ℕ} (h : j ≠ k) (obj : Obj) :
    executed j (.exec k obj :: events) = executed j events := by
  simp [executed, h.symm]

/-- A run of the mesh is a run of each machine and a run of the registry. -/
theorem exists_log (h : Step.run (step b names envs ids) m events = .ok (m', outs)) :
    ∃ log : Log,
      Step.run (Task.Exchange.step b names) m.exchange (log.events names ids) =
        .ok (m'.exchange, outs) ∧
      (∀ k, (Vm.exec b (envs k)).run (m.stackOf k) (executed k events) =
        .ok (m'.stackOf k, log.effectsOf k)) ∧
      ∀ event, .inr event ∈ log → .exchange event ∈ events := by
  induction events generalizing m outs with
  | nil =>
    obtain ⟨rfl, rfl⟩ := Prod.mk.inj (Except.ok.inj h)
    exact ⟨[], rfl, fun _ => rfl, fun event hmem => absurd hmem List.not_mem_nil⟩
  | cons event events ih =>
    obtain ⟨m₁, os, os', hstep, hrest, hos⟩ := Step.run_cons_eq_ok_iff.mp h
    obtain ⟨log, hexchange, hmachines, hothers⟩ := ih hrest
    cases event with
    | exec k obj =>
      obtain ⟨⟨s, effects⟩, hexec, hstep⟩ := bind_eq_ok_iff.mp hstep
      obtain ⟨⟨e, outs₁⟩, hrun, hok⟩ := bind_eq_ok_iff.mp hstep
      obtain ⟨rfl, rfl⟩ := Prod.mk.inj (Except.ok.inj hok)
      -- the registry gets what the machine asks for, before all that follows
      refine ⟨effects.map (fun effect => .inl (k, effect)) ++ log, ?_, fun j => ?_, ?_⟩
      · have hevents : Log.events names ids
            (effects.map (fun effect => .inl (k, effect)) ++ log) =
              effects.flatMap (asked names ids k) ++ log.events names ids := by
          rw [Log.events, List.flatMap_append, List.flatMap_map]
          rfl
        rw [hevents, show outs = outs₁ ++ os' from hos]
        exact Step.run_append_ok hrun hexchange
      · -- the other machines do not notice
        rw [effectsOf_append]
        rcases eq_or_ne j k with rfl | hne
        · have hmachine := hmachines j
          dsimp only at hmachine
          rw [Function.update_self] at hmachine
          rw [effectsOf_map_self, executed_exec_self]
          exact Step.run_cons_ok hexec hmachine
        · have hmachine := hmachines j
          dsimp only at hmachine
          rw [Function.update_of_ne hne] at hmachine
          rw [effectsOf_map_of_ne hne, executed_exec_of_ne hne]
          exact hmachine
      · intro event hmem
        rcases List.mem_append.mp hmem with hmem | hmem
        · simp at hmem
        · exact List.mem_cons_of_mem _ (hothers event hmem)
    | exchange event =>
      obtain ⟨⟨e, outs₁⟩, hrun, hok⟩ := bind_eq_ok_iff.mp hstep
      obtain ⟨rfl, rfl⟩ := Prod.mk.inj (Except.ok.inj hok)
      refine ⟨.inr event :: log, ?_, hmachines, ?_⟩
      · rw [show outs = outs₁ ++ os' from hos]
        exact Step.run_cons_ok hrun hexchange
      · intro event' hmem
        rcases List.mem_cons.mp hmem with heq | hmem
        · rw [Sum.inr.inj heq]
          exact List.mem_cons_self
        · exact List.mem_cons_of_mem _ (hothers event' hmem)

end Runs

/-! ### Calls between machines -/

/-- A call that is forwarded: the tag of the machine, the name and the arguments. -/
abbrev Call := Octets 16 × Bytes × List Obj

/-- The program of calls, one after the other -/
def program (calls : List Call) : List Obj :=
  calls.flatMap fun call => Vm.generateForward call.2.1 call.1 call.2.2

/-- A call from one machine to another one. -/
structure Call.Forwarded (env : VmEnv) (call : Call) : Prop where
  count : call.2.2.length < 2 ^ 64
  noOp : ∀ o ∈ call.2.2, ∀ code, o ≠ .op code
  tag : call.1 ≠ Octets.zero 16
  other : Vm.channelTag env ≠ call.1

section Calls

variable {b : Build} {names : ℕ → Bytes → ℕ} {envs : ℕ → VmEnv}
  {ids : ℕ → ℕ} {m' : Mesh} {stackOf : ℕ → Stack} {tag : Octets 16} {i : ℕ} {log : Log}

theorem run_program {env : VmEnv} {s : Stack} {calls : List Call}
    (h : ∀ call ∈ calls, Call.Forwarded env call) :
    (Vm.exec b env).run s (program calls) =
      .ok (s, calls.map fun call => .forward call.1 call.2.1 call.2.2) := by
  induction calls with
  | nil => rfl
  | cons call calls ih =>
    obtain ⟨hcall, hcalls⟩ := List.forall_mem_cons.mp h
    exact Step.run_append_ok
      (Vm.run_generateForward hcall.count hcall.noOp hcall.tag hcall.other) (ih hcalls)

/-- The calls for a machine among the effects of another one. -/
def callsTo (tag : Octets 16) (effects : List VmEffect) : List (Bytes × List Obj) :=
  effects.filterMap fun
    | .forward tag' slot msg => if tag' = tag then some (slot, msg) else none
    | _ => none

/-- The calls that one machine has sent. -/
def sentFrom (k : ℕ) (sent : List (ℕ × Bytes × List Obj)) : List (Bytes × List Obj) :=
  sent.filterMap fun call => if call.1 = k then some call.2 else none

theorem callsTo_append (effects effects' : List VmEffect) :
    callsTo tag (effects ++ effects') = callsTo tag effects ++ callsTo tag effects' :=
  List.filterMap_append

theorem callsTo_map (calls : List Call) :
    callsTo tag (calls.map fun call => .forward call.1 call.2.1 call.2.2) =
      calls.filterMap fun call => if call.1 = tag then some call.2 else none := by
  rw [callsTo, List.filterMap_map]
  rfl

theorem uuidToPlain_injective : Function.Injective uuidToPlain := by
  intro tag tag' h
  have hread := Formats.uuids.stringGenerator_uuidToString tag
  have hread' := Formats.uuids.stringGenerator_uuidToString tag'
  rw [show Formats.uuids.uuidToString tag = Formats.uuids.uuidToString tag' from h] at hread
  exact Except.ok.inj (hread.symm.trans hread')

/-- The mail for the channel of a machine is what the others forward to its tag. -/
theorem exists_sent (ids : ℕ → ℕ)
    (hforwards : ∀ k effect, .inl (k, effect) ∈ log →
      ∃ tag slot msg, effect = .forward tag slot msg)
    (hothers : ∀ event, .inr event ∈ log →
      Task.Exchange.mailOf names i (uuidToPlain tag) event = []) :
    ∃ sent : List (ℕ × Bytes × List Obj),
      (log.events names ids).flatMap (Task.Exchange.mailOf names i (uuidToPlain tag)) =
        sent.map (fun call => (names i call.2.1, call.2.2)) ∧
      ∀ k, sentFrom k sent = callsTo tag (log.effectsOf k) := by
  induction log with
  | nil => exact ⟨[], rfl, fun _ => rfl⟩
  | cons entry log ih =>
    obtain ⟨sent, hmail, hsent⟩ := ih (fun k effect hmem => hforwards k effect
      (List.mem_cons_of_mem _ hmem)) fun event hmem => hothers event (List.mem_cons_of_mem _ hmem)
    cases entry with
    | inr event =>
      refine ⟨sent, ?_, hsent⟩
      have hnone : Task.Exchange.mailOf names i (uuidToPlain tag) event = [] :=
        hothers event List.mem_cons_self
      rw [← hmail]
      change List.flatMap _ ([event] ++ Log.events names ids log) = _
      rw [List.flatMap_append, List.flatMap_singleton, hnone, List.nil_append]
    | inl entry =>
      obtain ⟨k, effect⟩ := entry
      obtain ⟨tag', slot, msg, rfl⟩ := hforwards k effect List.mem_cons_self
      have hfirst : Task.Exchange.mailOf names i (uuidToPlain tag)
          (.post (.forward (uuidToPlain tag') slot msg)) =
          if tag' = tag then [(names i slot, msg)] else [] := by
        by_cases htag : tag' = tag
        · simp [Task.Exchange.mailOf, Task.Exchange.mail, htag]
        · have hname : uuidToPlain tag' ≠ uuidToPlain tag :=
            fun heq => htag (uuidToPlain_injective heq)
          simp [Task.Exchange.mailOf, Task.Exchange.mail, htag, hname]
      have hevents : (Log.events names ids (.inl (k, .forward tag' slot msg) :: log)).flatMap
          (Task.Exchange.mailOf names i (uuidToPlain tag)) =
            (if tag' = tag then [(names i slot, msg)] else []) ++
              sent.map (fun call => (names i call.2.1, call.2.2)) := by
        change List.flatMap _ ([_] ++ Log.events names ids log) = _
        rw [List.flatMap_append, List.flatMap_singleton, hfirst, hmail]
      -- the call is among those that were sent when it is for this machine
      refine ⟨(if tag' = tag then [(k, slot, msg)] else []) ++ sent, ?_, fun j => ?_⟩
      · rw [hevents, List.map_append]
        split
        · rfl
        · rfl
      · have heffects : Log.effectsOf j (.inl (k, .forward tag' slot msg) :: log) =
            Log.effectsOf j [.inl (k, .forward tag' slot msg)] ++ Log.effectsOf j log :=
          effectsOf_append j [_] log
        rw [heffects, callsTo_append, sentFrom, List.filterMap_append, ← hsent j, sentFrom]
        by_cases htag : tag' = tag
        · by_cases hk : k = j
          · simp [callsTo, Log.effectsOf, htag, hk]
          · simp [callsTo, Log.effectsOf, htag, hk]
        · by_cases hk : k = j
          · simp [callsTo, Log.effectsOf, htag, hk]
          · simp [callsTo, Log.effectsOf, htag, hk]

/-- **Machines forward calls to each other, their steps and the strands interleaved as they may.
The channel of a machine gets the calls for its tag exactly once: what it was called with and what
waits for it is what arrived, what arrived over the registry and what waits there are the calls
that were sent, and those of one machine come in the order of its program.** -/
theorem calls_delivered {before : List Task.ExchangeEvent} {e e₁ : Task.Exchange}
    {effects outs₁ outs : List Task.RegistryEffect} {slots : ℕ} {stopIdx : Fin slots}
    {after : List MeshEvent} {calls : ℕ → List Call}
    (hbefore : Step.run (Task.Exchange.step b names) .initial before = .ok (e, effects))
    (hup : e.isShutdown = false) (halone : ∀ m ∈ e.members, m.name ≠ uuidToPlain tag)
    (hcreate : Task.Exchange.step b names e (.registry (.create (uuidToPlain tag) slots stopIdx)) =
      .ok (e₁, outs₁))
    (hprograms : ∀ k, executed k after = program (calls k))
    (hcalls : ∀ k, ∀ call ∈ calls k, Call.Forwarded (envs k) call)
    (hothers : ∀ event, .exchange event ∈ after →
      Task.Exchange.Undisturbed true (e.lastId + 1) (uuidToPlain tag) event ∧
        Task.Exchange.mailOf names (e.lastId + 1) (uuidToPlain tag) event = [])
    (hrun : Step.run (step b names envs ids) ⟨e₁, stackOf⟩ after = .ok (m', outs)) :
    ∃ c ahead arrived, ∃ sent : List (ℕ × Bytes × List Obj),
      m'.exchange.registry.lock (e.lastId + 1) = some ⟨uuidToPlain tag, e.lastId + 1, c⟩ ∧
      Task.Exchange.Ahead (e.lastId + 1) m'.exchange ahead ∧
      Task.calledBy .message (Task.Exchange.effectsOn (e.lastId + 1) outs) ++ c.queued =
        Task.Exchange.valid slots arrived ∧
      Task.Exchange.sentBy .registry arrived ++
          ahead.flatMap (Task.Exchange.mail names (e.lastId + 1) (uuidToPlain tag)) =
        sent.map (fun call => (names (e.lastId + 1) call.2.1, call.2.2)) ∧
      ∀ k, sentFrom k sent =
        (calls k).filterMap fun call => if call.1 = tag then some call.2 else none := by
  obtain ⟨log, hexchange, hmachines, hlog⟩ := exists_log hrun
  -- a machine has done what its program says
  have heffects (k : ℕ) : log.effectsOf k =
      (calls k).map fun call => .forward call.1 call.2.1 call.2.2 := by
    have hmachine := hmachines k
    rw [hprograms k, run_program (hcalls k)] at hmachine
    exact (congrArg Prod.snd (Except.ok.inj hmachine)).symm
  have hforwards : ∀ k effect, .inl (k, effect) ∈ log →
      ∃ tag slot msg, effect = .forward tag slot msg := by
    intro k effect hmem
    have hof : effect ∈ log.effectsOf k := List.mem_filterMap.mpr ⟨_, hmem, if_pos rfl⟩
    rw [heffects] at hof
    obtain ⟨call, -, rfl⟩ := List.mem_map.mp hof
    exact ⟨_, _, _, rfl⟩
  -- to forward a call disturbs nobody
  have hquiet : ∀ event ∈ Log.events names ids log,
      Task.Exchange.Undisturbed true (e.lastId + 1) (uuidToPlain tag) event := by
    intro event hmem
    obtain ⟨entry, hentry, hevent⟩ := List.mem_flatMap.mp hmem
    cases entry with
    | inr event' =>
      rw [List.mem_singleton.mp hevent]
      exact (hothers event' (hlog event' hentry)).1
    | inl entry =>
      obtain ⟨tag', slot, msg, heq⟩ := hforwards entry.1 entry.2 hentry
      simp only [heq, asked, List.mem_singleton] at hevent
      rw [hevent]
      exact fun hlone => by cases hlone
  obtain ⟨hserved, -⟩ := Task.Exchange.served_create
    (Task.Exchange.bounded_reachable hbefore) hup (fun _ => halone) hcreate
  obtain ⟨c, ahead, arrived, hserved', hcarried⟩ :=
    Task.Exchange.served_runs hserved hquiet hexchange
  obtain ⟨sent, hmail, hsent⟩ := exists_sent ids hforwards fun event hmem =>
    (hothers event (hlog event hmem)).2
  refine ⟨c, ahead, arrived, sent, hserved'.known.lock, hserved'.place, hcarried.called,
    hcarried.posted.trans hmail, fun k => ?_⟩
  rw [hsent, heffects, callsTo_map]

/-- A machine forwards a call to another one, and the strands take their turns. -/
def sampleCall : Call := (⟨List.replicate 16 1, rfl⟩, [0x61], [.size 7])

def sampleCalls : ℕ → List Call
  | 0 => [sampleCall]
  | _ + 1 => []

def sampleForward : List MeshEvent :=
  (program [sampleCall]).map (.exec 0) ++
    [.exchange (.registry .run), .exchange (.registry .run),
      .exchange (.registry (.channel 1 .run))]

theorem calls_delivered_sampleForward :
    ∃ e₁ outs₁ m' outs,
      Task.Exchange.step .debug (fun _ _ => 0) .initial
        (.registry (.create (uuidToPlain sampleCall.1) 1 (Fin.last 0))) = .ok (e₁, outs₁) ∧
      Step.run (step .debug (fun _ _ => 0) (fun _ => Vm.connected) id) ⟨e₁, fun _ => ⟨[], 0⟩⟩
        sampleForward = .ok (m', outs) ∧
      ∃ c ahead arrived, ∃ sent : List (ℕ × Bytes × List Obj),
        m'.exchange.registry.lock 1 = some ⟨uuidToPlain sampleCall.1, 1, c⟩ ∧
        Task.Exchange.Ahead 1 m'.exchange ahead ∧
        Task.calledBy .message (Task.Exchange.effectsOn 1 outs) ++ c.queued =
          Task.Exchange.valid 1 arrived ∧
        Task.Exchange.sentBy .registry arrived ++
            ahead.flatMap (Task.Exchange.mail (fun _ _ => 0) 1 (uuidToPlain sampleCall.1)) =
          sent.map (fun call => (0, call.2.2)) ∧
        ∀ k, sentFrom k sent = (sampleCalls k).filterMap fun call =>
          if call.1 = sampleCall.1 then some call.2 else none := by
  have hbefore : Step.run (Task.Exchange.step .debug fun _ _ => 0) .initial [] =
      .ok (.initial, []) := rfl
  have hprograms : ∀ k, executed k sampleForward = program (sampleCalls k) := by
    intro k
    cases k with
    | zero => rfl
    | succ k => rfl
  have hcalls : ∀ k, ∀ call ∈ sampleCalls k, Call.Forwarded Vm.connected call := by
    intro k call hmem
    cases k with
    | zero =>
      rw [List.mem_singleton.mp hmem]
      exact ⟨by decide, by simp [sampleCall, Obj.size], by decide, by decide⟩
    | succ k => cases hmem
  have hothers : ∀ event, .exchange event ∈ sampleForward →
      Task.Exchange.Undisturbed true 1 (uuidToPlain sampleCall.1) event ∧
        Task.Exchange.mailOf (fun _ _ => 0) 1 (uuidToPlain sampleCall.1) event = [] := by
    intro event hmem
    simp [sampleForward] at hmem
    rcases hmem with rfl | rfl
    · exact ⟨trivial, rfl⟩
    · exact ⟨trivial, rfl⟩
  have hruns : ∃ e₁ outs₁ m' outs,
      Task.Exchange.step .debug (fun _ _ => 0) .initial
        (.registry (.create (uuidToPlain sampleCall.1) 1 (Fin.last 0))) = .ok (e₁, outs₁) ∧
      Step.run (step .debug (fun _ _ => 0) (fun _ => Vm.connected) id) ⟨e₁, fun _ => ⟨[], 0⟩⟩
        sampleForward = .ok (m', outs) := ⟨_, _, _, _, rfl, rfl⟩
  obtain ⟨e₁, outs₁, m', outs, hcreate, hrun⟩ := hruns
  exact ⟨e₁, outs₁, m', outs, hcreate, hrun, calls_delivered hbefore rfl
    (by simp [Task.Exchange.initial]) hcreate hprograms hcalls hothers hrun⟩

end Calls

end Mesh

end Cyng
