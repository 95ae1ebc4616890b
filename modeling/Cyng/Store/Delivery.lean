import Cyng.Store.Replica
import Cyng.Task.Channel

/-!
# Events on their way to a task

A slot belongs to the channel of a task. It turns every event of a table into a message and
dispatches it to a named function of the task. The messages wait on the strand of the channel,
so that the task is behind the table as a rule: other threads go on with the table, and the
strand goes on when it is its turn.

Some of an event gets lost on the way, the record that was removed and the record around a
modified column. It is not needed: a task that keeps a replica has what the table has, as soon
as it has heard what is still on the strand.

The message begins with a pointer to the table, which is always the same one here.
-/

namespace Cyng

open Theory

/-! ### Names of functions -/

/-- `slot_names`: the functions of a task by name. -/
structure SlotNames where
  namedSlots : List (String × ℕ)

namespace SlotNames

def empty : SlotNames := ⟨[]⟩

variable (names : SlotNames)

/-- `slot_names::set_channel_name`: a name is not given twice. -/
def setChannelName (name : String) (slot : ℕ) : SlotNames × Bool :=
  if name ∈ names.namedSlots.map Prod.fst then (names, false)
  else (⟨names.namedSlots ++ [(name, slot)]⟩, true)

/-- `slot_names::set_channel_names`: the loop, with its index. -/
def setNames : SlotNames → ℕ → List String → SlotNames
  | names, _, [] => names
  | names, index, name :: il => setNames (names.setChannelName name index).1 (index + 1) il

def setChannelNames (il : List String) : SlotNames := setNames names names.namedSlots.length il

/-- `slot_names::lookup`: the greatest number there is for a name nobody has. -/
def lookup (name : String) : ℕ :=
  match names.namedSlots.find? fun entry => entry.1 = name with
  | some entry => entry.2
  | none => 2 ^ 64 - 1

end SlotNames

/-! ### Messages -/

/-- The functions that a slot dispatches to. -/
inductive Notice
  | insert | modify | remove | clear | trx
deriving DecidableEq

namespace Notice

def name : Notice → String
  | insert => "db.insert"
  | modify => "db.modify"
  | remove => "db.remove"
  | clear => "db.clear"
  | trx => "db.trx"

def all : List Notice := [insert, modify, remove, clear, trx]

theorem mem_all (notice : Notice) : notice ∈ all := by
  cases notice <;> decide

end Notice

section Messages

variable {n : ℕ}

/-- Which overload of `slot::forward` gets the event. -/
def Event.notice : Event n → Notice
  | .insert .. => .insert
  | .modify .. => .modify
  | .remove .. => .remove
  | .clear _ => .clear
  | .trx _ => .trx

/-- What the overloads of `slot::forward` put into the tuple after the pointer. -/
def Event.message : Event n → List Obj
  | .insert key data generation tag =>
    [.vector key, .vector data.toList, .scalar (.uint64 generation), .scalar (.uuid tag)]
  | .modify key attr _ generation tag =>
    [.vector key, .attr (BitVec.ofNat 64 attr.1) attr.2, .scalar (.uint64 generation),
      .scalar (.uuid tag)]
  | .remove key _ tag => [.vector key, .scalar (.uuid tag)]
  | .clear tag => [.scalar (.uuid tag)]
  | .trx start => [.scalar (.bool start)]

/-- `slot::forward`, where the channel is there. -/
def Event.forward (names : SlotNames) (c : Task.Channel) (event : Event n) : Task.Channel :=
  (c.dispatch (names.lookup event.notice.name) event.message).1

end Messages

/-! ### The task -/

namespace Contents

variable {m : Meta}

/-- A replica takes the arguments of a function. -/
def read (r : Contents m) : Notice → List Obj → Contents m
  | .insert, [.seq .vector key, .seq .vector data, .scalar (.int .uint64 generation), _] =>
    if h : data.length = m.bodySize then
      Function.update r key (some ⟨⟨data.toArray, by simpa using h⟩, generation⟩)
    else r
  | .modify, [.seq .vector key, .pair (.index idx) value, .scalar (.int .uint64 generation), _] =>
    match r key with
    | none => r
    | some body =>
      if h : idx.toNat < m.bodySize then
        Function.update r key (some (body.receive (⟨idx.toNat, h⟩, value) generation))
      else r
  | .remove, [.seq .vector key, _] => Function.update r key none
  | .clear, _ => fun _ => none
  | .trx, [.scalar (.bool start)] => if start then fun _ => none else r
  | _, _ => r

/-- A function of the task is called. -/
def hear (names : SlotNames) (r : Contents m) (call : Task.Wait) : Contents m :=
  match Notice.all.find? fun notice => names.lookup notice.name = call.1 with
  | some notice => read r notice call.2
  | none => r

/-- What a replica makes of the calls of its channel. -/
def observe (names : SlotNames) (r : Contents m) : Task.ChannelEffect → Contents m
  | .call _ slot msg => hear names r (slot, msg)
  | .returned _ => r

end Contents

/-- All five functions of the task have a name, and no two of them are the same. -/
structure Subscribes (names : SlotNames) (slots : ℕ) : Prop where
  valid : ∀ notice : Notice, names.lookup notice.name < slots
  injective : ∀ notice notice' : Notice,
    names.lookup notice.name = names.lookup notice'.name → notice = notice'

/-- The slot of a function that hears about tables. -/
def Hears (names : SlotNames) (slot : ℕ) : Prop :=
  ∃ notice : Notice, names.lookup notice.name = slot

/-! ### A table and the channel of a subscriber -/

/-- A table with its subscribers, and the channel behind one of the slots. -/
structure Feed (hasher : Hasher) (m : Meta) where
  world : World hasher m
  channel : Task.Channel

/-- Something happens to the table, or to the channel. -/
inductive Happening (m : Meta)
  | table (action : Action m)
  | task (event : Task.ChannelEvent)

namespace Feed

variable {hasher : Hasher} {m : Meta}

/-- What is sent to the slot goes to its channel. -/
def delivered (names : SlotNames) (sp : Slot) (c : Task.Channel)
    (deliveries : List (Slot × Event m.bodySize)) : Task.Channel :=
  deliveries.foldl (fun c delivery =>
    if delivery.1 = sp then delivery.2.forward names c else c) c

/-- The outputs are what the channel does. -/
def step (b : Build) (names : SlotNames) (sp : Slot) :
    Step (Feed hasher m) (Happening m) Task.ChannelEffect Fault
  | feed, .table action => do
    let (world, deliveries) ← feed.world.step b action
    return (⟨world, delivered names sp feed.channel deliveries⟩, [])
  | feed, .task event =>
    .ok (⟨feed.world, (feed.channel.react event).1⟩, (feed.channel.react event).2)

/-- The calls on the table are harmless and the slot stays attached. The channel is not stopped,
and nobody else calls the functions that hear about the table. -/
def Undisturbed (names : SlotNames) (sp : Slot) (feed : Feed hasher m) : Happening m → Prop
  | .table action => Quiet sp feed.world action
  | .task (.dispatch slot _) | .task (.suspend slot _) => ¬Hears names slot
  | .task .stop => False
  | .task _ => True

end Feed

/-! ### What is heard -/

section Heard

variable {m : Meta} {names : SlotNames} {slots : ℕ} {r : Contents m}

/-- The number of a function leads back to its name. -/
theorem find_notice (h : Subscribes names slots) (notice : Notice) :
    Notice.all.find? (fun other => names.lookup other.name = names.lookup notice.name) =
      some notice := by
  cases hfind : Notice.all.find?
      fun other => names.lookup other.name = names.lookup notice.name with
  | none =>
    have hnot := List.find?_eq_none.mp hfind notice notice.mem_all
    simp at hnot
  | some other =>
    have heq : names.lookup other.name = names.lookup notice.name := by
      simpa using List.find?_some hfind
    rw [h.injective other notice heq]

/-- What the message leaves out a replica does not need. -/
theorem hear_forward (h : Subscribes names slots) (hsize : m.size < 2 ^ 64)
    (event : Event m.bodySize) :
    Contents.hear names r (names.lookup event.notice.name, event.message) = r.apply event := by
  simp only [Contents.hear, find_notice h]
  cases event with
  | insert key data generation tag =>
    have hdata : ∀ h : data.toList.toArray.size = m.bodySize,
        (⟨data.toList.toArray, h⟩ : Vector Obj m.bodySize) = data := fun h => by
      ext i hi
      simp
    simp [Event.notice, Event.message, Contents.read, Contents.apply, Obj.vector, hdata]
  | modify key attr data generation tag =>
    have hidx : attr.1.val % 18446744073709551616 = attr.1.val := by
      apply Nat.mod_eq_of_lt
      have hlt := attr.1.isLt
      have hle : m.bodySize ≤ m.size := Nat.sub_le _ _
      omega
    cases hkey : r key <;>
      simp [Event.notice, Event.message, Contents.read, Contents.apply, Obj.vector, Obj.attr, hkey,
        hidx]
  | remove key data tag =>
    simp [Event.notice, Event.message, Contents.read, Contents.apply, Obj.vector]
  | clear tag => rfl
  | trx start => rfl

/-- Other functions have nothing to do with the table. -/
theorem hear_of_not_hears {slot : ℕ} (h : ¬Hears names slot) (msg : List Obj) :
    Contents.hear names r (slot, msg) = r := by
  have hnone : Notice.all.find? (fun notice => names.lookup notice.name = slot) = none := by
    refine List.find?_eq_none.mpr fun notice _ => ?_
    simpa using fun heq => h ⟨notice, heq⟩
  simp only [Contents.hear, hnone]

end Heard

/-! ### The replica catches up -/

section Followed

variable {hasher : Hasher} {m : Meta} {names : SlotNames} {sp : Slot} {b : Build}
  {c : Task.Channel} {feed feed' : Feed hasher m} {r : Contents m}

/-- What a replica has when it has heard what waits on the strand. -/
def ahead (names : SlotNames) (c : Task.Channel) (r : Contents m) : Contents m :=
  (Task.Channel.queued c).foldl (Contents.hear names) r

/-- An open channel whose timer has nothing to do with the table. -/
structure Listening (names : SlotNames) (c : Task.Channel) : Prop where
  isOpen : c.isOpen = true
  subscribes : Subscribes names c.slots
  valid : Task.Channel.Valid c
  going : .stop ∉ c.strand
  timer : ∀ wait ∈ c.timer, ¬Hears names wait.1
  completed : ∀ entry ∈ c.completed, ¬Hears names entry.1.1

/-- What a slot puts on the strand. -/
def posted (names : SlotNames) (sp : Slot) (delivery : Slot × Event m.bodySize) :
    Option Task.Handler :=
  if delivery.1 = sp then
    some (.dispatch (names.lookup delivery.2.notice.name) delivery.2.message)
  else none

theorem delivered_eq {deliveries : List (Slot × Event m.bodySize)} (h : Listening names c) :
    Feed.delivered names sp c deliveries =
      { c with strand := c.strand ++ deliveries.filterMap (posted names sp) } := by
  induction deliveries generalizing c with
  | nil => simp [Feed.delivered]
  | cons delivery deliveries ih =>
    have hcons : Feed.delivered names sp c (delivery :: deliveries) =
        Feed.delivered names sp (if delivery.1 = sp then delivery.2.forward names c else c)
          deliveries := rfl
    rw [hcons]
    by_cases hsp : delivery.1 = sp
    · have hopen : c.isOpenAt (names.lookup delivery.2.notice.name) = true :=
        Task.Channel.isOpenAt_iff.mpr ⟨h.isOpen, h.subscribes.valid _⟩
      rw [if_pos hsp, Event.forward, Task.Channel.dispatch, if_pos hopen, ih]
      · simp [posted, hsp]
      -- the channel goes on listening with one more message
      · refine ⟨h.isOpen, h.subscribes, fun slot msg hmem => ?_, ?_, h.timer, h.completed⟩
        · rcases List.mem_append.mp hmem with hmem | hmem
          · exact h.valid slot msg hmem
          · obtain ⟨rfl, rfl⟩ := Task.Handler.dispatch.inj (List.mem_singleton.mp hmem)
            exact h.subscribes.valid _
        · simpa using h.going
    · rw [if_neg hsp, ih h]
      simp [posted, hsp]

theorem listening_delivered {deliveries : List (Slot × Event m.bodySize)}
    (h : Listening names c) : Listening names (Feed.delivered names sp c deliveries) := by
  rw [delivered_eq h]
  have hposted : ∀ handler ∈ deliveries.filterMap (posted names sp), ∃ notice : Notice, ∃ msg,
      handler = .dispatch (names.lookup notice.name) msg := by
    intro handler hmem
    obtain ⟨delivery, -, heq⟩ := List.mem_filterMap.mp hmem
    simp only [posted] at heq
    split_ifs at heq
    exact ⟨_, _, (Option.some.inj heq).symm⟩
  refine ⟨h.isOpen, h.subscribes, fun slot msg hmem => ?_, fun hmem => ?_, h.timer, h.completed⟩
  · rcases List.mem_append.mp hmem with hmem | hmem
    · exact h.valid slot msg hmem
    · obtain ⟨notice, msg', heq⟩ := hposted _ hmem
      obtain ⟨rfl, rfl⟩ := Task.Handler.dispatch.inj heq
      exact h.subscribes.valid notice
  · rcases List.mem_append.mp hmem with hmem | hmem
    · exact h.going hmem
    · obtain ⟨notice, msg, heq⟩ := hposted _ hmem
      cases heq

/-- What the slot is sent comes after what waits on the strand. -/
theorem ahead_delivered {deliveries : List (Slot × Event m.bodySize)} (hsize : m.size < 2 ^ 64)
    (h : Listening names c) :
    ahead names (Feed.delivered names sp c deliveries) r =
      deliveries.foldl (Contents.absorb sp) (ahead names c r) := by
  rw [delivered_eq h]
  simp only [ahead, Task.Channel.queued, h.isOpen, if_true, List.filterMap_append,
    List.foldl_append]
  generalize (List.foldl _ r _) = r'
  induction deliveries generalizing r' with
  | nil => rfl
  | cons delivery deliveries ih =>
    by_cases hsp : delivery.1 = sp
    · simp [posted, hsp, Contents.absorb, hear_forward h.subscribes hsize, ih]
    · simp [posted, hsp, Contents.absorb, ih]

/-- A channel that listens goes on listening, and what its task hears it has been told before. -/
theorem listening_react {event : Task.ChannelEvent} {w : World hasher m} (h : Listening names c)
    (hundisturbed : Feed.Undisturbed names sp ⟨w, c⟩ (.task event)) :
    Listening names (c.react event).1 ∧
      ahead names (c.react event).1 ((c.react event).2.foldl
        (Contents.observe names) r) = ahead names c r := by
  obtain ⟨hopen, hsubscribes, hvalid, hgoing, htimer, hcompleted⟩ := h
  -- an aborted wait is one of the timer
  have haborted : ∀ entry ∈ c.completed ++ c.aborted, ¬Hears names entry.1.1 := by
    intro entry hmem
    rcases List.mem_append.mp hmem with hmem | hmem
    · exact hcompleted entry hmem
    · obtain ⟨wait, hwait, rfl⟩ := List.mem_map.mp hmem
      exact htimer wait (Option.mem_toList.mp hwait)
  cases event with
  | dispatch slot msg =>
    simp only [Task.Channel.react, Task.Channel.dispatch]
    split_ifs with hslot
    · refine ⟨⟨hopen, hsubscribes, fun slot' msg' hmem => ?_, by simpa using hgoing, htimer,
        hcompleted⟩, ?_⟩
      · rcases List.mem_append.mp hmem with hmem | hmem
        · exact hvalid slot' msg' hmem
        · obtain ⟨rfl, rfl⟩ := Task.Handler.dispatch.inj (List.mem_singleton.mp hmem)
          exact (Task.Channel.isOpenAt_iff.mp hslot).2
      · simp [ahead, Task.Channel.queued, hopen, hear_of_not_hears hundisturbed]
    · exact ⟨⟨hopen, hsubscribes, hvalid, hgoing, htimer, hcompleted⟩, rfl⟩
  | suspend slot msg =>
    simp only [Task.Channel.react, Task.Channel.suspend]
    split_ifs with hslot
    · refine ⟨⟨hopen, hsubscribes, hvalid, hgoing, fun wait hwait => ?_, haborted⟩, rfl⟩
      obtain rfl := Option.some.inj hwait
      exact hundisturbed
    · exact ⟨⟨hopen, hsubscribes, hvalid, hgoing, htimer, hcompleted⟩, rfl⟩
  | cancelTimer =>
    exact ⟨⟨hopen, hsubscribes, hvalid, hgoing,
      fun wait hwait => absurd hwait.symm (Option.some_ne_none wait), haborted⟩, rfl⟩
  | stop => exact hundisturbed.elim
  | run =>
    rw [Task.Channel.react]
    cases hstrand : c.strand with
    | nil =>
      rw [Task.Channel.run_nil hstrand]
      exact ⟨⟨hopen, hsubscribes, hvalid, hgoing, htimer, hcompleted⟩, rfl⟩
    | cons handler strand =>
      cases handler with
      | stop => exact absurd (hstrand ▸ List.mem_cons_self) hgoing
      | dispatch slot msg =>
        have hslot : c.isOpenAt slot = true :=
          Task.Channel.isOpenAt_iff.mpr ⟨hopen, hvalid slot msg (by simp [hstrand])⟩
        rw [Task.Channel.run_dispatch hstrand, Task.Channel.handle_of_isOpenAt hslot]
        refine ⟨⟨hopen, hsubscribes, fun slot' msg' hmem => ?_, fun hmem => ?_, htimer,
          hcompleted⟩, ?_⟩
        · exact hvalid slot' msg' (hstrand ▸ List.mem_cons_of_mem _ hmem)
        · exact hgoing (hstrand ▸ List.mem_cons_of_mem _ hmem)
        · simp [ahead, Task.Channel.queued, hopen, hstrand, Contents.observe]
  | expire =>
    refine ⟨⟨hopen, hsubscribes, hvalid, hgoing,
      fun wait hwait => absurd hwait.symm (Option.some_ne_none wait), fun entry hmem => ?_⟩, rfl⟩
    rcases List.mem_append.mp hmem with hmem | hmem
    · exact hcompleted entry hmem
    · obtain ⟨wait, hwait, rfl⟩ := List.mem_map.mp hmem
      exact htimer wait (Option.mem_toList.mp hwait)
  | complete i =>
    rw [Task.Channel.react]
    cases hentry : c.completed[i]? with
    | none =>
      rw [Task.Channel.complete_none hentry]
      exact ⟨⟨hopen, hsubscribes, hvalid, hgoing, htimer, hcompleted⟩, rfl⟩
    | some entry =>
      obtain ⟨⟨slot, msg⟩, aborted⟩ := entry
      have hslot : ¬Hears names slot := hcompleted _ (List.mem_of_getElem? hentry)
      rw [Task.Channel.complete_some hentry]
      refine ⟨⟨hopen, hsubscribes, hvalid, hgoing, htimer, fun entry hmem =>
        hcompleted entry (List.mem_of_mem_eraseIdx hmem)⟩, ?_⟩
      -- the function that the timer calls is another one
      have hsame : (if aborted then [] else c.handle .timer slot msg).foldl
          (Contents.observe names) r = r := by
        simp only [Task.Channel.handle, Task.Channel.callSlot]
        split_ifs <;> simp [Contents.observe, hear_of_not_hears hslot]
      rw [hsame]
      rfl

/-- The slot is attached, its channel listens, and what the replica will have when it has heard
everything is what the table has. -/
structure Followed (names : SlotNames) (sp : Slot) (feed : Feed hasher m) (r : Contents m) :
    Prop where
  listening : Listening names feed.channel
  mirrored : Mirrored sp feed.world (ahead names feed.channel r)

theorem step_followed {happening : Happening m} {effects : List Task.ChannelEffect}
    (hsize : m.size < 2 ^ 64) (hfollowed : Followed names sp feed r)
    (hundisturbed : Feed.Undisturbed names sp feed happening)
    (h : feed.step b names sp happening = .ok (feed', effects)) :
    Followed names sp feed' (effects.foldl (Contents.observe names) r) := by
  cases happening with
  | table action =>
    obtain ⟨⟨world, deliveries⟩, hstep, hret⟩ := bind_eq_ok_iff.mp h
    obtain ⟨rfl, rfl⟩ := Prod.mk.inj (Except.ok.inj hret)
    refine ⟨listening_delivered hfollowed.listening, ?_⟩
    rw [List.foldl_nil, ahead_delivered hsize hfollowed.listening]
    exact step_mirrored hfollowed.mirrored hundisturbed hstep
  | task event =>
    obtain ⟨rfl, rfl⟩ := Prod.mk.inj (Except.ok.inj h)
    obtain ⟨hlistening, hahead⟩ := listening_react (r := r) (w := feed.world) hfollowed.listening
      hundisturbed
    refine ⟨hlistening, ?_⟩
    rw [hahead]
    exact hfollowed.mirrored

/-- The strand runs what waits on it, and the task has heard it all. -/
theorem exists_drained (b : Build) (sp : Slot) (r : Contents m)
    (hlistening : Listening names feed.channel) :
    ∃ c' effects, Step.run (Feed.step b names sp) feed
        (List.replicate feed.channel.strand.length (.task .run)) =
          .ok (⟨feed.world, c'⟩, effects) ∧
      c'.strand = [] ∧
      effects.foldl (Contents.observe names) r =
        ahead names feed.channel r := by
  obtain ⟨w, c⟩ := feed
  induction hstrand : c.strand generalizing c r with
  | nil =>
    refine ⟨c, [], rfl, hstrand, ?_⟩
    simp [ahead, Task.Channel.queued, hstrand]
  | cons handler strand ih =>
    have hstep : Feed.step b names sp ⟨w, c⟩ (.task .run) =
      .ok (⟨w, c.run.1⟩, c.run.2) := rfl
    have hundisturbed : Feed.Undisturbed names sp ⟨w, c⟩ (.task .run) := trivial
    obtain ⟨hlistening', hahead⟩ := listening_react hlistening hundisturbed
    have hrest : c.run.1.strand = strand := by
      cases handler with
      | stop => rw [Task.Channel.run_stop hstrand]
      | dispatch slot msg => rw [Task.Channel.run_dispatch hstrand]
    obtain ⟨c', effects, hrun, hempty, hheard⟩ := ih
      (c.run.2.foldl (Contents.observe names) r) c.run.1 hlistening' hrest
    refine ⟨c', c.run.2 ++ effects, ?_, hempty, ?_⟩
    · exact Step.run_cons_ok hstep hrun
    · rw [List.foldl_append, hheard]
      exact hahead

/-- A subscriber never misses anything. From connecting on, however the calls on the table and
the handlers on the strand take turns, what the replica has heard and what waits on the strand
make up the contents of the table, and when the strand has run what waits, the replica is the
contents. -/
theorem replica_follows {w : World hasher m} {happenings : List (Happening m)}
    {effects : List Task.ChannelEffect} (r : Contents m) (hsize : m.size < 2 ^ 64)
    (halive : w.alive sp = true) (hlistening : Listening names c)
    (hundisturbed : Step.Guarded (Feed.step b names sp) (Feed.Undisturbed names sp) ⟨w, c⟩
      (.table (.connect sp) :: happenings))
    (h : Step.run (Feed.step b names sp) ⟨w, c⟩ (.table (.connect sp) :: happenings) =
      .ok (feed, effects)) :
    ahead names feed.channel (effects.foldl (Contents.observe names) r) =
      feed.world.table.contents ∧
    ∃ c' effects', Step.run (Feed.step b names sp) feed
        (List.replicate feed.channel.strand.length (.task .run)) =
          .ok (⟨feed.world, c'⟩, effects') ∧
      c'.strand = [] ∧
      (effects ++ effects').foldl (Contents.observe names) r =
        feed.world.table.contents := by
  obtain ⟨feed₁, first, later, hstep, hrun, hout⟩ := Step.run_cons_eq_ok_iff.mp h
  simp only at hrun hout
  have hfirst : Followed names sp feed₁
      (first.foldl (Contents.observe names) r) := by
    obtain ⟨⟨world, deliveries⟩, hconnect, hret⟩ := bind_eq_ok_iff.mp hstep
    obtain ⟨rfl, rfl⟩ := Prod.mk.inj (Except.ok.inj hret)
    refine ⟨listening_delivered hlistening, ?_⟩
    rw [List.foldl_nil, ahead_delivered hsize hlistening]
    obtain ⟨rfl, rfl⟩ := Prod.mk.inj (Except.ok.inj hconnect)
    refine ⟨halive, List.mem_append_right _ List.mem_cons_self, ?_⟩
    rw [if_pos halive, foldl_absorb_charge]
  have hfollowed : Followed names sp feed
      (later.foldl (Contents.observe names)
        (first.foldl (Contents.observe names) r)) :=
    Step.run_observed (fun _ _ _ _ _ hrel hg hs => step_followed hsize hrel hg hs) hfirst
      (hundisturbed.2 feed₁ first hstep) hrun
  rw [← List.foldl_append, ← hout] at hfollowed
  refine ⟨hfollowed.mirrored.exact, ?_⟩
  obtain ⟨c', effects', hdrain, hempty, hheard⟩ := exists_drained b sp
    (effects.foldl (Contents.observe names) r) hfollowed.listening
  refine ⟨c', effects', hdrain, hempty, ?_⟩
  rw [List.foldl_append, hheard]
  exact hfollowed.mirrored.exact

end Followed

/-- A task with a function for each event, and one more for the end. -/
def sampleNames : SlotNames :=
  SlotNames.empty.setChannelNames ["db.insert", "db.modify", "db.remove", "db.clear", "db.trx"]

theorem listening_sampleNames : Listening sampleNames (Task.Channel.opened 6 5) where
  isOpen := rfl
  subscribes := ⟨fun notice => by cases notice <;> decide, fun notice notice' => by
    cases notice <;> cases notice' <;> decide⟩
  valid _ _ h := absurd h List.not_mem_nil
  going := List.not_mem_nil
  timer _ h := nomatch h
  completed _ h := absurd h List.not_mem_nil

/-- The strand runs one handler between the two calls, and is behind after them. -/
def sampleHappenings : List (Happening pairMeta) :=
  (sampleActions.map Happening.table).intersperse (.task .run)

theorem undisturbed_sampleHappenings :
    Step.Guarded (Feed.step .release sampleNames 0) (Feed.Undisturbed sampleNames 0)
      ⟨sampleWorld, Task.Channel.opened 6 5⟩ (.table (.connect 0) :: sampleHappenings) := by
  refine (Step.guarded_cons_of_ok rfl).mpr ⟨trivial, ?_⟩
  refine (Step.guarded_cons_of_ok rfl).mpr ⟨fun _ row hrow => Or.inl ?_, ?_⟩
  · rw [← Option.some.inj hrow]
  refine (Step.guarded_cons_of_ok rfl).mpr ⟨trivial, ?_⟩
  exact (Step.guarded_cons_of_ok rfl).mpr ⟨trivial, trivial⟩

theorem replica_follows_sampleHappenings : ∃ (feed : Feed .numbers pairMeta)
    (effects effects' : List Task.ChannelEffect),
    Step.run (Feed.step .release sampleNames 0) ⟨sampleWorld, Task.Channel.opened 6 5⟩
      (.table (.connect 0) :: sampleHappenings) = .ok (feed, effects) ∧
    (effects ++ effects').foldl (Contents.observe sampleNames) (fun _ => none) =
      feed.world.table.contents := by
  have hrun : ∃ (feed : Feed .numbers pairMeta) (effects : List Task.ChannelEffect),
      Step.run (Feed.step .release sampleNames 0) ⟨sampleWorld, Task.Channel.opened 6 5⟩
        (.table (.connect 0) :: sampleHappenings) = .ok (feed, effects) := ⟨_, _, rfl⟩
  obtain ⟨feed, effects, h⟩ := hrun
  obtain ⟨-, c', effects', -, -, hcontents⟩ := replica_follows (fun _ => none) (by decide) rfl
    listening_sampleNames undisturbed_sampleHappenings h
  exact ⟨feed, effects, effects', h, hcontents⟩

end Cyng
