import Cyng.Obj.Object
import Cyng.Theory.Machine
import Mathlib.Data.List.Perm.Basic

/-!
# Channels

A channel posts the messages for a task to a strand, which runs one handler after the other.
It is open as long as it holds the task: `stop` takes the task away at once and posts a last
handler that calls the stop function and deletes the task. Messages and timers look whether the
channel is open twice, when they are accepted and when their handler runs.

Every call is one step, every handler too, and assertions are compiled out. The completion
handlers of the timer run in any order.
-/

namespace Cyng

open Theory

namespace Task

/-! ### The channel -/

/-- A handler on the strand of a channel. -/
inductive Handler
  | dispatch (slot : ℕ) (msg : List Obj)
  | stop

/-- A pending wait of the timer: the slot to call and the message for it. -/
abbrev Wait := ℕ × List Obj

/-- `channel`, and the task it was opened with. -/
structure Channel where
  /-- `get_signature_count` -/
  slots : ℕ
  /-- `stop_idx_`: the slot of the stop function -/
  stopIdx : Fin slots
  /-- `task_` is set -/
  isOpen : Bool
  /-- `dispatcher_` -/
  strand : List Handler
  /-- `timer_` -/
  timer : Option Wait
  /-- completion handlers of the timer that have not run yet, and if the wait was aborted -/
  completed : List (Wait × Bool)

/-- Who calls a function of the task. -/
inductive Caller
  | message | timer | stop
deriving DecidableEq

/-- What a channel does to its surroundings. -/
inductive ChannelEffect
  /-- a function of the task is called -/
  | call (caller : Caller) (slot : ℕ) (msg : List Obj)
  /-- the result of a call -/
  | returned (result : Bool)

/-- Calls of a channel, and what happens on its strand. -/
inductive ChannelEvent
  | dispatch (slot : ℕ) (msg : List Obj)
  | suspend (slot : ℕ) (msg : List Obj)
  | cancelTimer
  | stop
  /-- the strand runs its next handler -/
  | run
  /-- the timer expires -/
  | expire
  /-- a completion handler of the timer runs -/
  | complete (i : ℕ)

namespace Channel

/-- A channel after `open`. -/
def opened (slots : ℕ) (stopIdx : Fin slots) : Channel where
  slots := slots
  stopIdx := stopIdx
  isOpen := true
  strand := []
  timer := none
  completed := []

variable (c : Channel)

/-- `channel::is_open` of a slot -/
def isOpenAt (slot : ℕ) : Bool := c.isOpen && decide (slot < c.slots)

/-- `channel::dispatch` -/
def dispatch (slot : ℕ) (msg : List Obj) : Channel × List ChannelEffect :=
  if c.isOpenAt slot then ({ c with strand := c.strand ++ [.dispatch slot msg] }, [])
  else (c, [])

/-- The pending wait of the timer is aborted. -/
def aborted : List (Wait × Bool) := c.timer.toList.map fun wait => (wait, true)

/-- `channel::suspend` -/
def suspend (slot : ℕ) (msg : List Obj) : Channel × List ChannelEffect :=
  if c.isOpenAt slot then
    ({ c with timer := some (slot, msg), completed := c.completed ++ c.aborted },
      [.returned true])
  else (c, [.returned false])

/-- `channel::cancel_timer` -/
def cancelTimer : Channel × List ChannelEffect :=
  ({ c with timer := none, completed := c.completed ++ c.aborted }, [.returned c.timer.isSome])

/-- `channel::stop` -/
def stop : Channel × List ChannelEffect :=
  if c.isOpen then
    ({ c with
        isOpen := false
        timer := none
        completed := c.completed ++ c.aborted
        strand := c.strand ++ [.stop] },
      [.returned true])
  else (c, [.returned false])

/-- `task::dispatch` -/
def callSlot (caller : Caller) (slot : ℕ) (msg : List Obj) : List ChannelEffect :=
  if slot < c.slots then [.call caller slot msg] else []

/-- What `channel::dispatch` posted, and the handler of `channel::suspend` -/
def handle (caller : Caller) (slot : ℕ) (msg : List Obj) : List ChannelEffect :=
  if c.isOpenAt slot then c.callSlot caller slot msg else []

/-- The next handler of the strand -/
def run : Channel × List ChannelEffect :=
  match c.strand with
  | [] => (c, [])
  | .dispatch slot msg :: strand => ({ c with strand }, c.handle .message slot msg)
  -- `task::stop` does not look at the channel, which is closed
  | .stop :: strand => ({ c with strand }, c.callSlot .stop c.stopIdx [.scalar .eod])

/-- The time has come. -/
def expire : Channel × List ChannelEffect :=
  ({ c with timer := none, completed := c.completed ++ c.timer.toList.map fun w => (w, false) }, [])

/-- A completion handler of the timer -/
def complete (i : ℕ) : Channel × List ChannelEffect :=
  match c.completed[i]? with
  | none => (c, [])
  | some ((slot, msg), aborted) =>
    ({ c with completed := c.completed.eraseIdx i },
      if aborted then [] else c.handle .timer slot msg)

/-- What a channel does at an event. -/
def react : ChannelEvent → Channel × List ChannelEffect
  | .dispatch slot msg => c.dispatch slot msg
  | .suspend slot msg => c.suspend slot msg
  | .cancelTimer => c.cancelTimer
  | .stop => c.stop
  | .run => c.run
  | .expire => c.expire
  | .complete i => c.complete i

/-- The channel as a machine. -/
def step : Step Channel ChannelEvent ChannelEffect Fault := fun c event => .ok (c.react event)

end Channel

/-! ### What a run shows -/

namespace ChannelEffect

/-- A function of the task is called. -/
def isCall : ChannelEffect → Bool
  | .call _ _ _ => true
  | .returned _ => false

/-- The last handler calls the stop function. -/
def isStopCall : ChannelEffect → Bool
  | .call caller _ _ => caller = .stop
  | .returned _ => false

end ChannelEffect

/-- What a caller called, in order. -/
def calledBy (caller : Caller) (effects : List ChannelEffect) : List Wait :=
  effects.filterMap fun
    | .call caller' slot msg => if caller' = caller then some (slot, msg) else none
    | .returned _ => none

@[simp] theorem calledBy_append (caller : Caller) (xs ys : List ChannelEffect) :
    calledBy caller (xs ++ ys) = calledBy caller xs ++ calledBy caller ys :=
  List.filterMap_append

/-- The messages that are dispatched to a valid slot before the channel is stopped. -/
def accepted (slots : ℕ) : List ChannelEvent → List Wait
  | [] => []
  | .dispatch slot msg :: events =>
    if slot < slots then (slot, msg) :: accepted slots events else accepted slots events
  | .stop :: _ => []
  | _ :: events => accepted slots events

/-- The messages for which the timer was armed. -/
def suspended : List ChannelEvent → List Wait
  | [] => []
  | .suspend slot msg :: events => (slot, msg) :: suspended events
  | _ :: events => suspended events

/-- The slot that a message is for. -/
def ChannelEvent.slot? : ChannelEvent → Option ℕ
  | .dispatch slot _ | .suspend slot _ => some slot
  | _ => none

namespace Channel

variable {c c' : Channel} {event : ChannelEvent} {events : List ChannelEvent}
  {effects : List ChannelEffect}

theorem isOpenAt_iff {slot : ℕ} : c.isOpenAt slot = true ↔ c.isOpen = true ∧ slot < c.slots := by
  simp [isOpenAt]

theorem callSlot_stopIdx (caller : Caller) (msg : List Obj) :
    c.callSlot caller c.stopIdx msg = [.call caller c.stopIdx msg] :=
  if_pos c.stopIdx.isLt

theorem handle_of_isOpenAt {slot : ℕ} (h : c.isOpenAt slot = true) (caller : Caller)
    (msg : List Obj) : c.handle caller slot msg = [.call caller slot msg] := by
  rw [handle, if_pos h, callSlot, if_pos (isOpenAt_iff.mp h).2]

theorem handle_of_not_isOpenAt {slot : ℕ} (h : c.isOpenAt slot = false) (caller : Caller)
    (msg : List Obj) : c.handle caller slot msg = [] := by
  simp [handle, h]

theorem react_of_step (h : step c event = .ok (c', effects)) :
    c' = (c.react event).1 ∧ effects = (c.react event).2 := by
  have hreact : c.react event = (c', effects) := Except.ok.inj h
  rw [hreact]
  exact ⟨rfl, rfl⟩

theorem run_nil (h : c.strand = []) : c.run = (c, []) := by
  simp [run, h]

theorem run_dispatch {slot : ℕ} {msg : List Obj} {strand : List Handler}
    (h : c.strand = .dispatch slot msg :: strand) :
    c.run = ({ c with strand }, c.handle .message slot msg) := by
  simp [run, h]

theorem run_stop {strand : List Handler} (h : c.strand = .stop :: strand) :
    c.run = ({ c with strand }, [.call .stop c.stopIdx [.scalar .eod]]) := by
  simp [run, h, callSlot]

theorem complete_none {i : ℕ} (h : c.completed[i]? = none) : c.complete i = (c, []) := by
  simp [complete, h]

theorem complete_some {i slot : ℕ} {msg : List Obj} {aborted : Bool}
    (h : c.completed[i]? = some ((slot, msg), aborted)) :
    c.complete i = ({ c with completed := c.completed.eraseIdx i },
      if aborted then [] else c.handle .timer slot msg) := by
  simp [complete, h]

/-! ### Open and closed -/

@[simp] theorem slots_react : (c.react event).1.slots = c.slots := by
  cases event with
  | dispatch slot msg => simp only [react, dispatch]; split_ifs <;> rfl
  | suspend slot msg => simp only [react, suspend]; split_ifs <;> rfl
  | stop => simp only [react, stop]; split_ifs <;> rfl
  | run => simp only [react, run]; split <;> rfl
  | complete i => simp only [react, complete]; split <;> rfl
  | cancelTimer => rfl
  | expire => rfl

/-- Only `stop` closes a channel, and nothing opens it again. -/
theorem isOpen_react : (c.react event).1.isOpen =
    match event with
    | .stop => false
    | _ => c.isOpen := by
  cases event with
  | dispatch slot msg => simp only [react, dispatch]; split_ifs <;> rfl
  | suspend slot msg => simp only [react, suspend]; split_ifs <;> rfl
  | stop =>
    simp only [react, stop]
    split_ifs with h
    · rfl
    · simpa using h
  | run => simp only [react, run]; split <;> rfl
  | complete i => simp only [react, complete]; split <;> rfl
  | cancelTimer => rfl
  | expire => rfl

theorem isOpen_run (h : Step.run step c events = .ok (c', effects)) :
    c'.isOpen = true ↔ c.isOpen = true ∧ .stop ∉ events := by
  induction events generalizing c effects with
  | nil =>
    obtain ⟨rfl, -⟩ : c = c' ∧ effects = [] := by simpa using h
    simp
  | cons event events ih =>
    obtain ⟨t, head, tail, hstep, hrun, -⟩ := Step.run_cons_eq_ok_iff.mp h
    obtain ⟨rfl, rfl⟩ := react_of_step hstep
    rw [ih hrun, isOpen_react, List.mem_cons, not_or]
    cases event <;> simp

/-! ### The last handler -/

/-- How often the stop function is called by the last handler. -/
def stopCalls (effects : List ChannelEffect) : ℕ :=
  (effects.map fun effect => if effect.isStopCall then 1 else 0).sum

/-- How often it can still be called: by the handlers that wait, and by the one that a stop
would post. -/
def stopsLeft (c : Channel) : ℕ :=
  (c.strand.map fun handler => match handler with
    | .stop => 1
    | .dispatch _ _ => 0).sum + if c.isOpen then 1 else 0

theorem stopCalls_handle {caller : Caller} (h : caller ≠ .stop) (slot : ℕ) (msg : List Obj) :
    stopCalls (c.handle caller slot msg) = 0 := by
  simp only [handle, callSlot]
  split_ifs <;> simp [stopCalls, ChannelEffect.isStopCall, h]

/-- A stop posts one handler, and a handler is one call. -/
theorem stopsLeft_react (c : Channel) (event : ChannelEvent) :
    stopCalls (c.react event).2 + stopsLeft (c.react event).1 = stopsLeft c := by
  cases event with
  | dispatch slot msg =>
    simp only [react, dispatch]
    split_ifs <;> simp [stopCalls, stopsLeft]
  | suspend slot msg =>
    simp only [react, suspend]
    split_ifs <;> simp [stopCalls, stopsLeft, ChannelEffect.isStopCall]
  | cancelTimer =>
    simp only [react, cancelTimer, stopCalls, stopsLeft, ChannelEffect.isStopCall]
    exact Nat.zero_add _
  | stop =>
    simp only [react, stop]
    split_ifs with h <;> simp [stopCalls, stopsLeft, ChannelEffect.isStopCall, h]
  | run =>
    simp only [react, run]
    split
    · simp [stopCalls]
    · next slot msg strand h =>
      simp [stopCalls_handle, stopsLeft, h]
    · next strand h =>
      -- the handler of the stop calls the last slot
      rw [callSlot_stopIdx]
      simp [stopCalls, stopsLeft, ChannelEffect.isStopCall, h, Nat.add_assoc]
  | expire => exact Nat.zero_add _
  | complete i =>
    simp only [react, complete]
    split
    · simp [stopCalls]
    · next slot msg aborted h =>
      cases aborted with
      | true => simp [stopCalls, stopsLeft]
      | false => simp [stopCalls_handle, stopsLeft]

theorem stopsLeft_run (h : Step.run step c events = .ok (c', effects)) :
    stopCalls effects + stopsLeft c' = stopsLeft c := by
  refine Step.run_conserves (fun c event c' effects hstep => ?_) h
  obtain ⟨rfl, rfl⟩ := react_of_step hstep
  exact stopsLeft_react c event

/-- The last handler has run. -/
def Done (c : Channel) : Prop := stopsLeft c = 0

/-- The functions of a closed task are called by the last handler only. -/
theorem isStopCall_of_closed (h : c.isOpen = false) {effect : ChannelEffect}
    (hmem : effect ∈ (c.react event).2) (hcall : effect.isCall = true) :
    effect.isStopCall = true := by
  -- a closed channel handles nothing
  have hnone (caller : Caller) (slot : ℕ) (msg : List Obj) : c.handle caller slot msg = [] :=
    handle_of_not_isOpenAt (by simp [isOpenAt, h]) caller msg
  have hreturned {result : Bool} (hmem : effect ∈ [ChannelEffect.returned result]) :
      effect.isStopCall = true := by
    rw [List.mem_singleton.mp hmem] at hcall
    cases hcall
  cases event with
  | dispatch slot msg =>
    simp only [react, dispatch] at hmem
    split_ifs at hmem <;> cases hmem
  | suspend slot msg =>
    simp only [react, suspend] at hmem
    split_ifs at hmem <;> exact hreturned hmem
  | cancelTimer => exact hreturned hmem
  | stop =>
    simp only [react, stop, h] at hmem
    exact hreturned hmem
  | run =>
    simp only [react, run] at hmem
    split at hmem
    · cases hmem
    · rw [hnone] at hmem
      cases hmem
    · rw [callSlot_stopIdx] at hmem
      rw [List.mem_singleton.mp hmem]
      rfl
  | expire => cases hmem
  | complete i =>
    simp only [react, complete] at hmem
    split at hmem
    · cases hmem
    · rw [hnone, ite_self] at hmem
      cases hmem

theorem isOpen_of_done (h : Done c) : c.isOpen = false := by
  simpa using (Nat.add_eq_zero_iff.mp h).2

/-- Nobody calls a function of the task after the last handler. -/
theorem safe_of_done :
    Step.Safe step Done (fun _ _ => True) fun effect => effect.isCall = false := by
  intro c event hdone _
  have hleft := stopsLeft_react c event
  rw [hdone, Nat.add_eq_zero_iff] at hleft
  refine ⟨_, _, rfl, hleft.2, fun effect hmem => ?_⟩
  by_contra hcall
  have hstop := isStopCall_of_closed (isOpen_of_done hdone) hmem (by simpa using hcall)
  have hzero := List.sum_eq_zero_iff_forall_eq_nat.mp hleft.1 1
    (List.mem_map.mpr ⟨effect, hmem, by rw [if_pos hstop]⟩)
  exact absurd hzero (by decide)

/-- When the last handler runs, it is done. -/
theorem done_of_isStopCall (hone : stopsLeft c ≤ 1) {effect : ChannelEffect}
    (hmem : effect ∈ (c.react event).2) (hstop : effect.isStopCall = true) :
    Done (c.react event).1 := by
  have hleft := stopsLeft_react c event
  have hpos : 0 < stopCalls (c.react event).2 :=
    List.sum_pos_iff_exists_pos_nat.mpr
      ⟨1, List.mem_map.mpr ⟨effect, hmem, by rw [if_pos hstop]⟩, Nat.one_pos⟩
  rw [Done]
  omega

/-- A step emits one effect at most. -/
theorem length_effects_react (c : Channel) (event : ChannelEvent) :
    (c.react event).2.length ≤ 1 := by
  -- one handler makes at most one call, whoever runs it
  have hhandle (caller : Caller) (slot : ℕ) (msg : List Obj) :
      (c.handle caller slot msg).length ≤ 1 := by
    simp only [handle, callSlot]
    split_ifs <;> simp
  cases event with
  | dispatch slot msg => simp only [react, dispatch]; split_ifs <;> simp
  | suspend slot msg => simp only [react, suspend]; split_ifs <;> simp
  | cancelTimer => simp [react, cancelTimer]
  | stop => simp only [react, stop]; split_ifs <;> simp
  | run =>
    simp only [react, run]
    split
    · simp
    · exact hhandle _ _ _
    · simp [callSlot_stopIdx]
  | expire => simp [react, expire]
  | complete i =>
    simp only [react, complete]
    split
    · simp
    · next slot msg aborted h =>
      cases aborted with
      | true => simp
      | false => exact hhandle _ _ _

/-- No function of the task is called after the stop function. -/
theorem pairwise_run (hone : stopsLeft c ≤ 1) (h : Step.run step c events = .ok (c', effects)) :
    effects.Pairwise fun effect later => effect.isStopCall = true → later.isCall = false := by
  induction events generalizing c effects with
  | nil =>
    obtain ⟨-, rfl⟩ : c = c' ∧ effects = [] := by simpa using h
    exact List.Pairwise.nil
  | cons event events ih =>
    obtain ⟨t, head, tail, hstep, hrun, heffects⟩ := Step.run_cons_eq_ok_iff.mp h
    simp only at hrun heffects
    obtain ⟨rfl, rfl⟩ := react_of_step hstep
    have hleft := stopsLeft_react c event
    -- one event has at most one effect, so there is no pair inside it
    have hhead : (c.react event).2.Pairwise
        fun effect later => effect.isStopCall = true → later.isCall = false := by
      have hlen := length_effects_react c event
      match (c.react event).2, hlen with
      | [], _ => exact List.Pairwise.nil
      | [effect], _ => exact List.pairwise_singleton _ effect
    have htail := ih ((Nat.le_add_left _ _).trans (hleft.le.trans hone)) hrun
    rw [heffects]
    refine List.pairwise_append.mpr ⟨hhead, htail, fun effect hmem later hlater hstop => ?_⟩
    -- after the stop call the channel is done and calls nothing any more
    have hdone := done_of_isStopCall hone hmem hstop
    have hguard : Step.Guarded step (fun _ _ => True) (c.react event).1 events :=
      Step.guarded_of_forall fun _ _ => trivial
    obtain ⟨c'', effects', hrun', -, hnone⟩ := safe_of_done.run hdone hguard
    obtain ⟨-, rfl⟩ := Prod.mk.inj (Except.ok.inj (hrun'.symm.trans hrun))
    exact hnone later hlater

/-! ### Messages -/

/-- The messages that wait on the strand of an open channel. -/
def queued (c : Channel) : List Wait :=
  if c.isOpen then
    c.strand.filterMap fun
      | .dispatch slot msg => some (slot, msg)
      | .stop => none
  else []

/-- Every message on the strand is for a valid slot. -/
def Valid (c : Channel) : Prop := ∀ slot msg, .dispatch slot msg ∈ c.strand → slot < c.slots

theorem valid_react (h : Valid c) : Valid (c.react event).1 := by
  intro slot msg hmem
  rw [slots_react]
  cases event with
  | dispatch slot' msg' =>
    simp only [react, dispatch] at hmem
    split_ifs at hmem with hopen
    · rcases List.mem_append.mp hmem with hmem | hmem
      · exact h slot msg hmem
      · -- the slot was checked when the message was posted
        obtain ⟨rfl, rfl⟩ := Handler.dispatch.inj (List.mem_singleton.mp hmem)
        exact (isOpenAt_iff.mp hopen).2
    · exact h slot msg hmem
  | suspend slot' msg' =>
    simp only [react, suspend] at hmem
    split_ifs at hmem <;> exact h slot msg hmem
  | stop =>
    simp only [react, stop] at hmem
    split_ifs at hmem with hopen
    · exact h slot msg (by simpa using hmem)
    · exact h slot msg hmem
  | run =>
    simp only [react, run] at hmem
    split at hmem
    · exact h slot msg hmem
    · next hstrand => exact h slot msg (hstrand ▸ List.mem_cons_of_mem _ hmem)
    · next hstrand => exact h slot msg (hstrand ▸ List.mem_cons_of_mem _ hmem)
  | complete i =>
    simp only [react, complete] at hmem
    split at hmem <;> exact h slot msg hmem
  | cancelTimer => exact h slot msg hmem
  | expire => exact h slot msg hmem

theorem calledBy_handle_of_ne {caller caller' : Caller} (h : caller ≠ caller') (slot : ℕ)
    (msg : List Obj) : calledBy caller' (c.handle caller slot msg) = [] := by
  simp only [handle, callSlot]
  split_ifs <;> simp [calledBy, h]

theorem queued_of_closed (h : c.isOpen = false) : queued c = [] := by
  rw [queued, h]
  rfl

/-- No message is executed any more when the channel is closed. -/
theorem messages_of_closed (h : c.isOpen = false) :
    calledBy .message (c.react event).2 = [] := by
  refine List.filterMap_eq_nil_iff.mpr fun effect hmem => ?_
  cases effect with
  | returned result => rfl
  | call caller slot msg =>
    have hstop := isStopCall_of_closed h hmem rfl
    obtain rfl : caller = .stop := by simpa [ChannelEffect.isStopCall] using hstop
    rfl

/-- Messages are taken from the front of the queue, accepted ones are put behind it. -/
theorem messages_react (hvalid : Valid c) (events : List ChannelEvent) :
    calledBy .message (c.react event).2 ++ (queued (c.react event).1 ++
        if (c.react event).1.isOpen then accepted c.slots events else []) <+:
      queued c ++ if c.isOpen then accepted c.slots (event :: events) else [] := by
  cases hopen : c.isOpen with
  | false =>
    have hclosed : (c.react event).1.isOpen = false := by
      rw [isOpen_react]
      cases event <;> first | rfl | exact hopen
    -- what is left of the queue is dropped
    rw [messages_of_closed hopen, queued_of_closed hclosed, hclosed]
    exact List.nil_prefix
  | true =>
    cases event with
    | dispatch slot msg =>
      by_cases hslot : slot < c.slots <;>
        simp [react, dispatch, isOpenAt, queued, accepted, calledBy, hopen, hslot]
    | suspend slot msg =>
      by_cases hslot : slot < c.slots <;>
        simp [react, suspend, isOpenAt, queued, accepted, calledBy, hopen, hslot]
    | cancelTimer => simp [react, cancelTimer, queued, accepted, calledBy, hopen]
    | stop => simp [react, stop, queued, accepted, calledBy, hopen]
    | run =>
      rw [react]
      cases hstrand : c.strand with
      | nil => simp [run_nil hstrand, queued, accepted, calledBy, hopen]
      | cons handler strand =>
        cases handler with
        | dispatch slot msg =>
          have hslot : c.isOpenAt slot = true :=
            isOpenAt_iff.mpr ⟨hopen, hvalid slot msg (by simp [hstrand])⟩
          rw [run_dispatch hstrand, handle_of_isOpenAt hslot]
          simp [queued, accepted, calledBy, hopen, hstrand]
        | stop => simp [run_stop hstrand, queued, accepted, calledBy, hopen, hstrand]
    | expire => simp [react, expire, queued, accepted, calledBy, hopen]
    | complete i =>
      rw [react]
      cases hcompleted : c.completed[i]? with
      | none => simp [complete_none hcompleted, queued, accepted, calledBy, hopen]
      | some completed =>
        obtain ⟨⟨slot, msg⟩, aborted⟩ := completed
        have hnone : calledBy .message (if aborted then [] else c.handle .timer slot msg) = [] := by
          cases aborted with
          | true => rfl
          | false => exact calledBy_handle_of_ne (by decide) slot msg
        rw [complete_some hcompleted]
        simp [queued, accepted, hopen, hnone]

/-- The messages that are executed are a prefix of those that wait and those that will be
accepted. -/
theorem messages_run (hvalid : Valid c) (h : Step.run step c events = .ok (c', effects)) :
    calledBy .message effects <+:
      queued c ++ if c.isOpen then accepted c.slots events else [] := by
  induction events generalizing c effects with
  | nil =>
    obtain ⟨-, rfl⟩ : c = c' ∧ effects = [] := by simpa using h
    exact List.nil_prefix
  | cons event events ih =>
    obtain ⟨t, head, tail, hstep, hrun, heffects⟩ := Step.run_cons_eq_ok_iff.mp h
    simp only at hrun heffects
    obtain ⟨rfl, rfl⟩ := react_of_step hstep
    have htail := ih (valid_react hvalid) hrun
    rw [slots_react] at htail
    rw [heffects, calledBy_append]
    exact ((List.prefix_append_right_inj _).mpr htail).trans (messages_react hvalid events)

/-! ### Timers -/

/-- The messages whose time may still come. -/
def waiting (c : Channel) : List Wait :=
  c.timer.toList ++ (c.completed.filter fun wait => !wait.2).map Prod.fst

/-- Every message that the timer was armed with is executed at most once. -/
theorem timers_react (c : Channel) (event : ChannelEvent) (wait : Wait) :
    (calledBy .timer (c.react event).2).count wait + (waiting (c.react event).1).count wait ≤
      (waiting c).count wait + (suspended [event]).count wait := by
  -- an aborted wait does not count any more
  have hnone : c.aborted.filter (fun wait => !wait.2) = [] := by
    simp [aborted]
  cases event with
  | dispatch slot msg =>
    simp only [react, dispatch]
    split_ifs <;> simp [calledBy, waiting, suspended]
  | suspend slot msg =>
    simp only [react, suspend]
    split_ifs
    · simp only [calledBy, waiting, suspended, hnone, List.filterMap_cons, List.filterMap_nil,
        List.filter_append, List.append_nil, List.count_append, List.count_nil]
      simp only [Option.toList_some]
      omega
    · simp [calledBy, waiting, suspended]
  | cancelTimer => simp [react, cancelTimer, calledBy, waiting, suspended, hnone]
  | stop =>
    simp only [react, stop]
    split_ifs <;> simp [calledBy, waiting, suspended, hnone]
  | run =>
    rw [react]
    cases hstrand : c.strand with
    | nil => simp [run_nil hstrand, calledBy, suspended]
    | cons handler strand =>
      cases handler with
      | dispatch slot msg =>
        rw [run_dispatch hstrand]
        simp [calledBy_handle_of_ne, waiting, suspended]
      | stop => simp [run_stop hstrand, calledBy, waiting, suspended]
  | expire =>
    have hfired : (c.timer.toList.map fun w => (w, false)).filter (fun wait => !wait.2) =
        c.timer.toList.map fun w => (w, false) := by
      simp
    simp only [react, expire, calledBy, waiting, suspended, List.filter_append, hfired,
      List.map_append, List.map_map, Function.comp_def, List.map_id', Option.toList_none,
      List.nil_append, List.filterMap_nil, List.count_append, List.count_nil]
    omega
  | complete i =>
    rw [react]
    cases hcompleted : c.completed[i]? with
    | none => simp [complete_none hcompleted, calledBy, suspended]
    | some completed =>
      obtain ⟨⟨slot, msg⟩, aborted⟩ := completed
      -- one of the completed waits is taken out, and called at most once
      have hperm : ((((slot, msg), aborted) : Wait × Bool) :: c.completed.eraseIdx i).Perm
          c.completed := by
        obtain ⟨hlt, hget⟩ := List.getElem?_eq_some_iff.mp hcompleted
        exact hget ▸ List.getElem_cons_eraseIdx_perm hlt
      have hcount := ((hperm.filter fun wait => !wait.2).map Prod.fst).count_eq wait
      rw [complete_some hcompleted]
      cases aborted with
      | true =>
        simp only [waiting, suspended, calledBy, List.count_append, ← hcount]
        simp
      | false =>
        have hcall : (calledBy .timer (c.handle .timer slot msg)).count wait ≤
            [(slot, msg)].count wait := by
          simp only [handle, callSlot]
          split_ifs <;> simp [calledBy]
        simp only [List.filter_cons, Bool.not_false, if_true, List.map_cons] at hcount
        rw [← List.singleton_append, List.count_append] at hcount
        simp only [waiting, List.count_append, ← hcount]
        simp only [Bool.false_eq_true, if_false]
        omega

theorem timers_run (h : Step.run step c events = .ok (c', effects)) (wait : Wait) :
    (calledBy .timer effects).count wait + (waiting c').count wait ≤
      (waiting c).count wait + (suspended events).count wait := by
  induction events generalizing c effects with
  | nil =>
    obtain ⟨rfl, rfl⟩ : c = c' ∧ effects = [] := by simpa using h
    simp [calledBy, suspended]
  | cons event events ih =>
    obtain ⟨t, head, tail, hstep, hrun, heffects⟩ := Step.run_cons_eq_ok_iff.mp h
    simp only at hrun heffects
    obtain ⟨rfl, rfl⟩ := react_of_step hstep
    have hhead := timers_react c event wait
    have htail := ih hrun
    have hsplit : suspended (event :: events) = suspended [event] ++ suspended events := by
      cases event <;> rfl
    rw [heffects, calledBy_append, hsplit, List.count_append, List.count_append]
    omega

/-! ### The slot of the stop function -/

/-- No message that is on its way is for the slot. -/
def Avoids (slot : ℕ) (c : Channel) : Prop :=
  (∀ slot' msg, .dispatch slot' msg ∈ c.strand → slot' ≠ slot) ∧
    (∀ wait ∈ c.timer, wait.1 ≠ slot) ∧ ∀ wait ∈ c.completed, wait.1.1 ≠ slot

/-- A slot that no message is for is called by the last handler only. -/
theorem safe_of_avoids (slot : ℕ) :
    Step.Safe step (Avoids slot) (fun _ event => True ∧ event.slot? ≠ some slot)
      fun effect => ∀ caller msg, effect = .call caller slot msg → caller = .stop := by
  rintro c event ⟨hstrand, htimer, hcompleted⟩ ⟨-, hevent⟩
  -- the wait of the timer is completed, either aborted or expired
  have hdone (aborted : Bool) : ∀ wait ∈ c.completed ++ c.timer.toList.map fun w => (w, aborted),
      wait.1.1 ≠ slot := by
    refine List.forall_mem_append.mpr ⟨hcompleted, fun wait hmem => ?_⟩
    obtain ⟨w, hw, rfl⟩ := List.mem_map.mp hmem
    exact htimer w (Option.mem_toList.mp hw)
  have hhandle {caller : Caller} {slot' : ℕ} (msg : List Obj) (h : slot' ≠ slot) :
      ∀ effect ∈ c.handle caller slot' msg, ∀ caller msg, effect = .call caller slot msg →
        caller = .stop := by
    rintro effect hmem caller' msg' rfl
    simp only [handle, callSlot] at hmem
    split_ifs at hmem
    · obtain ⟨-, rfl, -⟩ := ChannelEffect.call.inj (List.mem_singleton.mp hmem)
      exact absurd rfl h
    · cases hmem
    · cases hmem
  refine ⟨(c.react event).1, (c.react event).2, rfl, ?_⟩
  cases event with
  | dispatch slot' msg =>
    have hne : slot' ≠ slot := fun h => hevent (congrArg some h)
    simp only [react, dispatch]
    split_ifs
    · refine ⟨⟨fun slot'' msg' hmem => ?_, htimer, hcompleted⟩, by simp⟩
      rcases List.mem_append.mp hmem with hmem | hmem
      · exact hstrand slot'' msg' hmem
      · obtain ⟨rfl, -⟩ := Handler.dispatch.inj (List.mem_singleton.mp hmem)
        exact hne
    · exact ⟨⟨hstrand, htimer, hcompleted⟩, by simp⟩
  | suspend slot' msg =>
    have hne : slot' ≠ slot := fun h => hevent (congrArg some h)
    simp only [react, suspend]
    split_ifs
    · exact ⟨⟨hstrand, fun wait hwait => Option.mem_some.mp hwait ▸ hne, hdone true⟩, by simp⟩
    · exact ⟨⟨hstrand, htimer, hcompleted⟩, by simp⟩
  | cancelTimer =>
    exact ⟨⟨hstrand, by simp [react, cancelTimer], hdone true⟩, by simp [react, cancelTimer]⟩
  | stop =>
    simp only [react, stop]
    split_ifs
    · exact ⟨⟨by simpa using hstrand, by simp, hdone true⟩, by simp⟩
    · exact ⟨⟨hstrand, htimer, hcompleted⟩, by simp⟩
  | run =>
    rw [react]
    cases hhead : c.strand with
    | nil =>
      rw [run_nil hhead]
      exact ⟨⟨hstrand, htimer, hcompleted⟩, by simp⟩
    | cons handler strand =>
      have htail : ∀ slot' msg, .dispatch slot' msg ∈ strand → slot' ≠ slot :=
        fun slot' msg hmem => hstrand slot' msg (hhead ▸ List.mem_cons_of_mem _ hmem)
      cases handler with
      | dispatch slot' msg =>
        rw [run_dispatch hhead]
        exact ⟨⟨htail, htimer, hcompleted⟩, hhandle msg (hstrand slot' msg (by simp [hhead]))⟩
      | stop =>
        rw [run_stop hhead]
        refine ⟨⟨htail, htimer, hcompleted⟩, fun effect hmem caller msg heffect => ?_⟩
        obtain ⟨rfl, -⟩ := ChannelEffect.call.inj
          (heffect.symm.trans (List.mem_singleton.mp hmem))
        rfl
  | expire =>
    exact ⟨⟨hstrand, by simp [react, expire], hdone false⟩, by simp [react, expire]⟩
  | complete i =>
    rw [react]
    cases hget : c.completed[i]? with
    | none =>
      rw [complete_none hget]
      exact ⟨⟨hstrand, htimer, hcompleted⟩, by simp⟩
    | some completed =>
      obtain ⟨⟨slot', msg⟩, aborted⟩ := completed
      have hne : slot' ≠ slot := hcompleted _ (List.mem_of_getElem? hget)
      rw [complete_some hget]
      have hrest : ∀ wait ∈ c.completed.eraseIdx i, wait.1.1 ≠ slot :=
        fun wait hmem => hcompleted wait (List.mem_of_mem_eraseIdx hmem)
      refine ⟨⟨hstrand, htimer, hrest⟩, ?_⟩
      cases aborted with
      | true => simp
      | false => exact hhandle msg hne

/-! ### The life cycle -/

/-- In every run of a new channel: the stop function is called by the last handler at most once,
and exactly once when the channel was stopped and nothing waits on the strand. A second stop
reports false and does nothing. No function of the task is called afterwards. The messages that
were accepted before the stop are executed in order, each once, until the rest of them is
dropped, and no message of the timer is executed more often than it was armed with it. Other
messages call the stop function only when they are for its slot. -/
theorem life_cycle (slots : ℕ) (stopIdx : Fin slots) (events : List ChannelEvent) :
    ∃ c effects, Step.run step (opened slots stopIdx) events = .ok (c, effects) ∧
      stopCalls effects ≤ 1 ∧
      (.stop ∈ events → c.strand = [] → stopCalls effects = 1) ∧
      (.stop ∈ events → step c .stop = .ok (c, [.returned false])) ∧
      (effects.Pairwise fun effect later => effect.isStopCall = true → later.isCall = false) ∧
      calledBy .message effects <+: accepted slots events ∧
      (∀ wait, (calledBy .timer effects).count wait ≤ (suspended events).count wait) ∧
      ((∀ event ∈ events, event.slot? ≠ some stopIdx.val) →
        ∀ caller msg, .call caller stopIdx.val msg ∈ effects → caller = .stop) := by
  have htotal : Step.Safe step (fun _ => True) (fun _ _ => True) fun _ => True :=
    fun c event _ _ => ⟨_, _, rfl, trivial, fun _ _ => trivial⟩
  obtain ⟨c, effects, hrun, -, -⟩ :=
    htotal.run (s := opened slots stopIdx) trivial (Step.guarded_of_forall fun _ _ => trivial)
  -- a stop that is posted or can still be posted is one call to come
  have hstops := stopsLeft_run hrun
  have hone : stopsLeft (opened slots stopIdx) = 1 := rfl
  have hopen := isOpen_run hrun
  have hclosed (h : .stop ∈ events) : c.isOpen = false := by
    rw [← Bool.not_eq_true, hopen]
    exact fun hnot => hnot.2 h
  refine ⟨c, effects, hrun, by omega, fun hstop hstrand => ?_, fun hstop => ?_,
    pairwise_run hone.le hrun, ?_, fun wait => ?_, fun havoid caller msg hmem => ?_⟩
  · have hleft : stopsLeft c = 0 := by
      rw [stopsLeft, hstrand, hclosed hstop]
      rfl
    omega
  · simp [step, react, stop, hclosed hstop]
  · have hvalid : Valid (opened slots stopIdx) := fun slot msg hmem => by cases hmem
    exact messages_run hvalid hrun
  · have hcount := timers_run hrun wait
    have hnone : (waiting (opened slots stopIdx)).count wait = 0 := rfl
    omega
  · have hinitial : Avoids stopIdx.val (opened slots stopIdx) := by simp [Avoids, opened]
    have hguard : Step.Guarded step (fun _ event => True ∧ event.slot? ≠ some stopIdx.val)
        (opened slots stopIdx) events :=
      Step.Guarded.and_forall (Step.guarded_of_forall fun _ _ => trivial) havoid
    obtain ⟨c', effects', hrun', -, hcaller⟩ :=
      (safe_of_avoids stopIdx.val).run hinitial hguard
    obtain ⟨-, rfl⟩ := Prod.mk.inj (Except.ok.inj (hrun'.symm.trans hrun))
    exact hcaller _ hmem caller msg rfl

/-- A message for the slot of the stop function calls it as well. -/
theorem stop_called_twice : ¬∀ (slots : ℕ) (stopIdx : Fin slots) (events : List ChannelEvent)
    (c : Channel) (effects : List ChannelEffect),
    Step.run step (opened slots stopIdx) events = .ok (c, effects) →
      (effects.filter fun effect => match effect with
        | .call _ slot _ => slot = stopIdx.val
        | .returned _ => false).length ≤ 1 := by
  intro h
  have htwice := h 1 ⟨0, Nat.one_pos⟩ [.dispatch 0 [.scalar .eod], .run, .stop, .run] _ _ rfl
  exact absurd htwice (by decide)

end Channel

end Task

end Cyng
