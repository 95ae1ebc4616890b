import Cyng.Store.Replica

/-!
# Routing of events

A slot can be registered for insertions, modifications, removals and clearings one by one.
What a slot should hear is stated by a machine of its own: it counts the registrations of
the slot for each topic, and expects every event once for each registration for the topic of
that event, from the moment the slot is connected until it is disconnected.

The publisher goes over the list of insertions for every event, whatever its topic, and a
disconnect takes one registration out of each list. A slot hears what it should as long as
these two make no difference to it: when an event is published, the slot is in the list of
insertions as often as in the list of the topic, and when it is disconnected, it is in no list
twice.
-/

namespace Cyng

open Theory

/-- What a slot can be registered for. -/
inductive Topic
  | insert
  | modify
  | remove
  | clear
deriving DecidableEq

namespace Event

variable {n : ℕ}

/-- The topic of an event; transaction marks are not published. -/
def topic : Event n → Option Topic
  | .insert .. => some .insert
  | .modify .. => some .modify
  | .remove .. => some .remove
  | .clear _ => some .clear
  | .trx _ => none

/-- How often an event is due to someone with these registrations. -/
def due (event : Event n) (registered : Topic → ℕ) : ℕ :=
  match event.topic with
  | some topic => registered topic
  | none => 0

end Event

namespace Pub

variable (pub : Pub) (sp s : Slot)

/-- The list for a topic. -/
def slots : Topic → List Slot
  | .insert => pub.slotsInsert
  | .modify => pub.slotsModify
  | .remove => pub.slotsRemove
  | .clear => pub.slotsClear

/-- The function that registers a slot for a topic. -/
def connectTo : Topic → Slot → Pub
  | .insert => pub.connectInsert
  | .modify => pub.connectModify
  | .remove => pub.connectRemove
  | .clear => pub.connectClear

/-- How often a slot is registered for each topic. -/
def registered (topic : Topic) : ℕ := (pub.slots topic).count sp

variable {pub sp s}

theorem registered_connectTo {topic : Topic} :
    (pub.connectTo topic s).registered sp =
      if s = sp then
        Function.update (pub.registered sp) topic (pub.registered sp topic + 1)
      else pub.registered sp := by
  funext other
  by_cases hs : s = sp
  · subst hs
    cases topic <;> cases other <;>
      simp [registered, slots, connectTo, connectInsert, connectModify, connectRemove,
        connectClear]
  · cases topic <;> cases other <;>
      simp [registered, slots, connectTo, connectInsert, connectModify, connectRemove,
        connectClear, hs]

theorem registered_connectOnly :
    (pub.connectOnly s).registered sp =
      if s = sp then fun topic => pub.registered sp topic + 1 else pub.registered sp := by
  funext topic
  by_cases hs : s = sp
  · subst hs
    cases topic <;>
      simp [registered, slots, connectOnly, connectInsert, connectModify, connectRemove,
        connectClear]
  · cases topic <;>
      simp [registered, slots, connectOnly, connectInsert, connectModify, connectRemove,
        connectClear, hs]

theorem slots_disconnect {topic : Topic} :
    (pub.disconnect s).1.slots topic = (pub.slots topic).erase s := by
  cases topic <;> rfl

/-- Disconnecting takes one registration out of each list. -/
theorem registered_disconnect_self :
    (pub.disconnect sp).1.registered sp = fun topic => pub.registered sp topic - 1 := by
  funext topic
  rw [registered, slots_disconnect, List.count_erase_self]
  rfl

theorem registered_disconnect_of_ne (h : s ≠ sp) :
    (pub.disconnect s).1.registered sp = pub.registered sp := by
  funext topic
  rw [registered, slots_disconnect, List.count_erase_of_ne (Ne.symm h)]
  rfl

end Pub

/-- What one slot is sent. -/
def received {n : ℕ} (sp : Slot) (deliveries : List (Slot × Event n)) : List (Event n) :=
  deliveries.filterMap fun delivery => if delivery.1 = sp then some delivery.2 else none

section Received

variable {n : ℕ} {sp s : Slot} {event : Event n} {events : List (Event n)}
  {ds ds' : List (Slot × Event n)}

@[simp] theorem received_nil : received sp ([] : List (Slot × Event n)) = [] := rfl

@[simp] theorem received_append :
    received sp (ds ++ ds') = received sp ds ++ received sp ds' :=
  List.filterMap_append

theorem received_eq_nil_iff : received sp ds = [] ↔ ∀ delivery ∈ ds, delivery.1 ≠ sp := by
  simp [received, List.filterMap_eq_nil_iff]

/-- An event that goes to a list of slots is heard once for each registration. -/
theorem received_map_slots {slots : List Slot} :
    received sp (slots.map fun s => (s, event)) = List.replicate (slots.count sp) event := by
  induction slots with
  | nil => rfl
  | cons s slots ih =>
    rw [List.map_cons, ← List.singleton_append, received_append, ih]
    by_cases hs : s = sp
    · simp [received, hs, List.replicate_succ]
    · simp [received, hs]

theorem received_map_self : received sp (events.map fun event => (sp, event)) = events := by
  simp [received, List.filterMap_map]

theorem received_map_of_ne (h : s ≠ sp) :
    received sp (events.map fun event => (s, event)) = [] :=
  received_eq_nil_iff.mpr fun delivery hmem => by
    obtain ⟨event, -, rfl⟩ := List.mem_map.mp hmem
    exact h

end Received

/-! ### What a slot should hear -/

/-- The machine of one slot: the table, the registrations, and whether its channel lives. -/
structure Subscriber (hasher : Hasher) (m : Meta) where
  table : Table hasher m
  registered : Topic → ℕ
  alive : Bool

namespace Subscriber

variable {hasher : Hasher} {m : Meta} (sub : Subscriber hasher m)

def subscribe (topic : Topic) : Subscriber hasher m :=
  { sub with registered := Function.update sub.registered topic (sub.registered topic + 1) }

def subscribeAll : Subscriber hasher m :=
  { sub with registered := fun topic => sub.registered topic + 1 }

def unsubscribe : Subscriber hasher m := { sub with registered := fun _ => 0 }

def expire : Subscriber hasher m := { sub with alive := false }

/-- Every event once for each registration for its topic. -/
def hears (events : List (Event m.bodySize)) : List (Event m.bodySize) :=
  if sub.alive then
    events.flatMap fun event => List.replicate (event.due sub.registered) event
  else []

/-- One action, as the slot `sp` should see it; the outputs are what it should be sent. -/
def step (b : Build) (sp : Slot) :
    Step (Subscriber hasher m) (Action m) (Event m.bodySize) Fault := fun sub action =>
  match action with
  | .call c => do
    let (table, outs) ← sub.table.call b c
    return ({ sub with table }, sub.hears (published outs))
  | .connect s =>
    .ok (if s = sp then sub.subscribeAll else sub,
      if s = sp ∧ sub.alive then sub.table.charge else [])
  | .connectOnly s => .ok (if s = sp then sub.subscribeAll else sub, [])
  | .connectInsert s => .ok (if s = sp then sub.subscribe .insert else sub, [])
  | .connectModify s => .ok (if s = sp then sub.subscribe .modify else sub, [])
  | .connectRemove s => .ok (if s = sp then sub.subscribe .remove else sub, [])
  | .connectClear s => .ok (if s = sp then sub.subscribe .clear else sub, [])
  | .disconnect s => .ok (if s = sp then sub.unsubscribe else sub, [])
  | .expire s => .ok (if s = sp then sub.expire else sub, [])

/-- The slot as it stands in a world. -/
def ofWorld (w : World hasher m) (sp : Slot) : Subscriber hasher m :=
  ⟨w.table, w.pub.registered sp, w.alive sp⟩

end Subscriber

section Routed

variable {hasher : Hasher} {m : Meta} {b : Build} {sp : Slot} {w w' : World hasher m}

/-- The list of insertions serves the slot as well as the list of the topic would, and a
disconnect leaves no registration behind. Nothing is asked once the channel is gone. -/
def Routable (b : Build) (sp : Slot) (w : World hasher m) : Action m → Prop
  | .call c => w.alive sp = true → ∀ table outs, w.table.call b c = .ok (table, outs) →
    ∀ event ∈ published outs, w.pub.slotsInsert.count sp = event.due (w.pub.registered sp)
  | .disconnect s => s = sp → w.alive sp = true → ∀ topic, w.pub.registered sp topic ≤ 1
  | _ => True

/-- Actions that register the slot. -/
def Action.Connects (sp : Slot) : Action m → Prop
  | .connect s | .connectOnly s | .connectInsert s | .connectModify s | .connectRemove s
  | .connectClear s => s = sp
  | _ => False

theorem count_tidy_of_notMem {vec expired : List Slot} (h : sp ∉ expired) :
    (tidy vec expired).count sp = vec.count sp := by
  induction expired generalizing vec with
  | nil => rfl
  | cons s expired ih =>
    obtain ⟨hne, htail⟩ : sp ≠ s ∧ sp ∉ expired := by simpa using h
    calc (tidy (vec.erase s) expired).count sp = (vec.erase s).count sp := ih htail
      _ = vec.count sp := List.count_erase_of_ne hne

theorem mem_of_mem_tidy {vec expired : List Slot} (h : sp ∈ tidy vec expired) : sp ∈ vec := by
  induction expired generalizing vec with
  | nil => exact h
  | cons s expired ih => exact List.mem_of_mem_erase (ih h)

/-! ### One event -/

section Forward

variable {alive : Slot → Bool} {pub pub' : Pub} {event : Event m.bodySize}
  {events : List (Event m.bodySize)} {ds : List (Slot × Event m.bodySize)}

theorem received_forward (h : Pub.forward alive pub event = .ok (pub', ds)) :
    received sp ds =
      if alive sp then List.replicate (pub.slotsInsert.count sp) event else [] := by
  obtain ⟨-, rfl⟩ := Prod.mk.inj (Except.ok.inj h)
  rw [received_map_slots]
  cases halive : alive sp with
  | true => rw [List.count_filter halive, if_pos rfl]
  | false =>
    have hmem : sp ∉ pub.slotsInsert.filter alive := by simp [halive]
    rw [List.count_eq_zero.mpr hmem]
    rfl

/-- Tidying up removes nobody who lives. -/
theorem registered_forward (halive : alive sp = true)
    (h : Pub.forward alive pub event = .ok (pub', ds)) :
    pub'.registered sp = pub.registered sp := by
  obtain ⟨rfl, -⟩ := Prod.mk.inj (Except.ok.inj h)
  funext topic
  cases topic with
  | insert => exact count_tidy_of_notMem (by simp [halive])
  | modify | remove | clear => rfl

theorem slotsInsert_forward (h : Pub.forward alive pub event = .ok (pub', ds))
    (hmem : sp ∈ pub'.slotsInsert) : sp ∈ pub.slotsInsert := by
  obtain ⟨rfl, -⟩ := Prod.mk.inj (Except.ok.inj h)
  exact mem_of_mem_tidy hmem

/-- All events of a call: the living slot keeps its registrations and hears what is due. -/
theorem received_run_forward (halive : alive sp = true)
    (hdue : ∀ event ∈ events, pub.slotsInsert.count sp = event.due (pub.registered sp))
    (h : Step.run (Pub.forward alive) pub events = .ok (pub', ds)) :
    pub'.registered sp = pub.registered sp ∧
      received sp ds =
        events.flatMap fun event => List.replicate (event.due (pub.registered sp)) event := by
  induction events generalizing pub ds with
  | nil =>
    obtain ⟨rfl, rfl⟩ : pub = pub' ∧ ds = [] := by simpa using h
    exact ⟨rfl, rfl⟩
  | cons event events ih =>
    obtain ⟨mid, out, out', hstep, hrun, hout⟩ := Step.run_cons_eq_ok_iff.mp h
    simp only at hrun hout
    obtain ⟨hhead, htail⟩ := List.forall_mem_cons.mp hdue
    have hmid : mid.registered sp = pub.registered sp := registered_forward halive hstep
    have hcount : mid.slotsInsert.count sp = pub.slotsInsert.count sp := congrFun hmid .insert
    -- forwarding an event leaves the registrations alone, so the rest is due as often
    have hdue' : ∀ event ∈ events,
        mid.slotsInsert.count sp = event.due (mid.registered sp) := by
      rw [hcount, hmid]
      exact htail
    obtain ⟨hreg, hrest⟩ := ih hdue' hrun
    refine ⟨hreg.trans hmid, ?_⟩
    rw [hout, received_append, received_forward hstep, if_pos halive, hhead, hrest, hmid]
    rfl

theorem received_run_forward_of_dead (hdead : alive sp = false)
    (h : Step.run (Pub.forward alive) pub events = .ok (pub', ds)) : received sp ds = [] := by
  have hguard : Step.Guarded (Pub.forward alive) (fun _ _ => True) pub events :=
    Step.guarded_of_forall fun _ _ => trivial
  refine received_eq_nil_iff.mpr
    (@Step.run_emits _ _ _ _ _ _ (fun _ => True) _ ?_ _ _ _ _ trivial hguard h)
  intro p event p' os _ _ hforward
  refine ⟨trivial, received_eq_nil_iff.mp ?_⟩
  rw [received_forward hforward, hdead]
  rfl

end Forward

/-! ### One action -/

/-- The machine of the slot is where the world has the slot, as long as its channel lives. -/
structure Tracks (sp : Slot) (w : World hasher m) (sub : Subscriber hasher m) : Prop where
  table : sub.table = w.table
  alive : sub.alive = w.alive sp
  registered : w.alive sp = true → sub.registered = w.pub.registered sp

theorem tracks_ofWorld : Tracks sp w (Subscriber.ofWorld w sp) := ⟨rfl, rfl, fun _ => rfl⟩

variable {sub : Subscriber hasher m} {s : Slot}

theorem Tracks.connectTo (tracks : Tracks sp w sub) (topic : Topic) :
    Tracks sp { w with pub := w.pub.connectTo topic s }
      (if s = sp then sub.subscribe topic else sub) := by
  by_cases hs : s = sp
  · rw [if_pos hs]
    refine ⟨tracks.table, tracks.alive, fun halive => ?_⟩
    rw [Pub.registered_connectTo, if_pos hs, ← tracks.registered halive]
    rfl
  · rw [if_neg hs]
    refine ⟨tracks.table, tracks.alive, fun halive => ?_⟩
    rw [Pub.registered_connectTo, if_neg hs]
    exact tracks.registered halive

theorem Tracks.connectOnly (tracks : Tracks sp w sub) :
    Tracks sp { w with pub := w.pub.connectOnly s }
      (if s = sp then sub.subscribeAll else sub) := by
  by_cases hs : s = sp
  · rw [if_pos hs]
    refine ⟨tracks.table, tracks.alive, fun halive => ?_⟩
    rw [Pub.registered_connectOnly, if_pos hs, ← tracks.registered halive]
    rfl
  · rw [if_neg hs]
    refine ⟨tracks.table, tracks.alive, fun halive => ?_⟩
    rw [Pub.registered_connectOnly, if_neg hs]
    exact tracks.registered halive

theorem Tracks.disconnect (tracks : Tracks sp w sub)
    (once : s = sp → w.alive sp = true → ∀ topic, w.pub.registered sp topic ≤ 1) :
    Tracks sp { w with pub := (w.pub.disconnect s).1 }
      (if s = sp then sub.unsubscribe else sub) := by
  by_cases hs : s = sp
  · rw [if_pos hs]
    refine ⟨tracks.table, tracks.alive, fun halive => ?_⟩
    funext topic
    have hone : w.pub.registered sp topic ≤ 1 := once hs halive topic
    rw [hs, Pub.registered_disconnect_self]
    exact (Nat.sub_eq_zero_of_le hone).symm
  · rw [if_neg hs]
    refine ⟨tracks.table, tracks.alive, fun halive => ?_⟩
    rw [Pub.registered_disconnect_of_ne hs]
    exact tracks.registered halive

theorem Tracks.expire (tracks : Tracks sp w sub) :
    Tracks sp { w with alive := Function.update w.alive s false }
      (if s = sp then sub.expire else sub) := by
  by_cases hs : s = sp
  · rw [if_pos hs, hs]
    have hdead : Function.update w.alive sp false sp = false := Function.update_self ..
    exact ⟨tracks.table, hdead.symm, fun halive => absurd (hdead.symm.trans halive) (by decide)⟩
  · have hsame : Function.update w.alive s false sp = w.alive sp :=
      Function.update_of_ne (Ne.symm hs) ..
    rw [if_neg hs]
    exact ⟨tracks.table, tracks.alive.trans hsame.symm,
      fun halive => tracks.registered (hsame.symm.trans halive)⟩

/-- What a connecting slot is sent, seen by any slot. -/
theorem received_connect :
    received sp (if w.alive s then w.table.charge.map fun event => (s, event) else []) =
      if s = sp ∧ w.alive sp then w.table.charge else [] := by
  by_cases hs : s = sp
  · subst hs
    cases halive : w.alive s with
    | true => simp [received_map_self]
    | false => simp
  · have hother : ¬ (s = sp ∧ w.alive sp = true) := fun h => hs h.1
    rw [if_neg hother]
    cases halive : w.alive s with
    | true => exact received_map_of_ne hs
    | false => rfl

/-- The step lemma: an action that is routable sends the slot what it should be sent. -/
theorem step_tracks {action : Action m} {ds : List (Slot × Event m.bodySize)}
    (tracks : Tracks sp w sub) (routable : Routable b sp w action)
    (h : w.step b action = .ok (w', ds)) :
    ∃ sub', sub.step b sp action = .ok (sub', received sp ds) ∧ Tracks sp w' sub' := by
  cases action with
  | call c =>
    obtain ⟨⟨table, outs⟩, hcall, hrest⟩ := bind_eq_ok_iff.mp h
    obtain ⟨⟨pub, deliveries⟩, hforward, hret⟩ := bind_eq_ok_iff.mp hrest
    obtain ⟨rfl, rfl⟩ := Prod.mk.inj (Except.ok.inj hret)
    have hspec : sub.step b sp (.call c) =
        .ok ({ sub with table }, sub.hears (published outs)) := by
      simp only [Subscriber.step, tracks.table, hcall]
      rfl
    rw [hspec]
    -- a call is published; a slot that is not alive is not called
    cases halive : w.alive sp with
    | true =>
      obtain ⟨hreg, hheard⟩ :=
        received_run_forward halive (routable halive table outs hcall) hforward
      have hsub : sub.registered = w.pub.registered sp := tracks.registered halive
      have hears : sub.hears (published outs) = received sp deliveries := by
        rw [hheard, Subscriber.hears, tracks.alive, halive, if_pos rfl, hsub]
      rw [hears]
      exact ⟨_, rfl, rfl, tracks.alive, fun _ => hsub.trans hreg.symm⟩
    | false =>
      have hears : sub.hears (published outs) = received sp deliveries := by
        rw [received_run_forward_of_dead halive hforward, Subscriber.hears, tracks.alive, halive]
        rfl
      rw [hears]
      exact ⟨_, rfl, rfl, tracks.alive, fun h => absurd (halive.symm.trans h) (by decide)⟩
  | connect s =>
    obtain ⟨rfl, rfl⟩ := Prod.mk.inj (Except.ok.inj h)
    refine ⟨_, ?_, tracks.connectOnly⟩
    rw [received_connect, ← tracks.alive, ← tracks.table]
    rfl
  | connectOnly s =>
    obtain ⟨rfl, rfl⟩ := Prod.mk.inj (Except.ok.inj h)
    exact ⟨_, rfl, tracks.connectOnly⟩
  | connectInsert s =>
    obtain ⟨rfl, rfl⟩ := Prod.mk.inj (Except.ok.inj h)
    exact ⟨_, rfl, tracks.connectTo .insert⟩
  | connectModify s =>
    obtain ⟨rfl, rfl⟩ := Prod.mk.inj (Except.ok.inj h)
    exact ⟨_, rfl, tracks.connectTo .modify⟩
  | connectRemove s =>
    obtain ⟨rfl, rfl⟩ := Prod.mk.inj (Except.ok.inj h)
    exact ⟨_, rfl, tracks.connectTo .remove⟩
  | connectClear s =>
    obtain ⟨rfl, rfl⟩ := Prod.mk.inj (Except.ok.inj h)
    exact ⟨_, rfl, tracks.connectTo .clear⟩
  | disconnect s =>
    obtain ⟨rfl, rfl⟩ := Prod.mk.inj (Except.ok.inj h)
    exact ⟨_, rfl, tracks.disconnect routable⟩
  | expire s =>
    obtain ⟨rfl, rfl⟩ := Prod.mk.inj (Except.ok.inj h)
    exact ⟨_, rfl, tracks.expire⟩

/-! ### Runs -/

/-- The slot is gone from the list every event goes over, or its channel is gone. -/
def Silent (sp : Slot) (w : World hasher m) : Prop :=
  w.alive sp = false ∨ sp ∉ w.pub.slotsInsert

theorem silent_of_disconnect {ds : List (Slot × Event m.bodySize)}
    (routable : Routable b sp w (.disconnect sp))
    (h : w.step b (.disconnect sp) = .ok (w', ds)) : Silent sp w' := by
  obtain ⟨rfl, -⟩ := Prod.mk.inj (Except.ok.inj h)
  cases halive : w.alive sp with
  | false => exact Or.inl halive
  | true =>
    have hone : w.pub.slotsInsert.count sp ≤ 1 := routable rfl halive .insert
    right
    apply List.count_eq_zero.mp
    calc (w.pub.slotsInsert.erase sp).count sp = w.pub.slotsInsert.count sp - 1 :=
        List.count_erase_self
      _ = 0 := Nat.sub_eq_zero_of_le hone

theorem run_forward_silent {alive : Slot → Bool} {pub pub' : Pub}
    {events : List (Event m.bodySize)} {ds : List (Slot × Event m.bodySize)}
    (hmem : sp ∉ pub.slotsInsert)
    (h : Step.run (Pub.forward alive) pub events = .ok (pub', ds)) :
    sp ∉ pub'.slotsInsert ∧ received sp ds = [] := by
  induction events generalizing pub ds with
  | nil =>
    obtain ⟨rfl, rfl⟩ : pub = pub' ∧ ds = [] := by simpa using h
    exact ⟨hmem, rfl⟩
  | cons event events ih =>
    obtain ⟨mid, out, out', hstep, hrun, hout⟩ := Step.run_cons_eq_ok_iff.mp h
    simp only at hrun hout
    obtain ⟨hmem', hrest⟩ := ih (fun hmid => hmem (slotsInsert_forward hstep hmid)) hrun
    refine ⟨hmem', ?_⟩
    rw [hout, received_append, received_forward hstep, List.count_eq_zero.mpr hmem, hrest]
    simp

/-- A silent slot stays silent and is sent nothing, until it is connected again. -/
theorem step_silent {action : Action m} {ds : List (Slot × Event m.bodySize)}
    (silent : Silent sp w) (unconnected : ¬ action.Connects sp)
    (h : w.step b action = .ok (w', ds)) : Silent sp w' ∧ received sp ds = [] := by
  cases action with
  | call c =>
    obtain ⟨⟨table, outs⟩, hcall, hrest⟩ := bind_eq_ok_iff.mp h
    obtain ⟨⟨pub, deliveries⟩, hforward, hret⟩ := bind_eq_ok_iff.mp hrest
    obtain ⟨rfl, rfl⟩ := Prod.mk.inj (Except.ok.inj hret)
    rcases silent with hdead | hmem
    · exact ⟨Or.inl hdead, received_run_forward_of_dead hdead hforward⟩
    · obtain ⟨hmem', hnothing⟩ := run_forward_silent hmem hforward
      exact ⟨Or.inr hmem', hnothing⟩
  | connect s =>
    obtain ⟨rfl, rfl⟩ := Prod.mk.inj (Except.ok.inj h)
    have hs : ¬ s = sp := unconnected
    refine ⟨silent.imp_right fun hmem => ?_, ?_⟩
    · exact List.not_mem_append hmem (List.mem_singleton.not.mpr (Ne.symm hs))
    · rw [received_connect, if_neg fun h => hs h.1]
  | connectInsert s | connectOnly s =>
    obtain ⟨rfl, rfl⟩ := Prod.mk.inj (Except.ok.inj h)
    have hs : ¬ s = sp := unconnected
    exact ⟨silent.imp_right fun hmem =>
      List.not_mem_append hmem (List.mem_singleton.not.mpr (Ne.symm hs)), rfl⟩
  | connectModify s | connectRemove s | connectClear s =>
    obtain ⟨rfl, rfl⟩ := Prod.mk.inj (Except.ok.inj h)
    exact ⟨silent, rfl⟩
  | disconnect s =>
    obtain ⟨rfl, rfl⟩ := Prod.mk.inj (Except.ok.inj h)
    exact ⟨silent.imp_right fun hmem hmem' => hmem (List.mem_of_mem_erase hmem'), rfl⟩
  | expire s =>
    obtain ⟨rfl, rfl⟩ := Prod.mk.inj (Except.ok.inj h)
    refine ⟨silent.imp_left fun hdead => ?_, rfl⟩
    -- a subscriber that expires is silent from then on
    by_cases hs : s = sp
    · subst hs
      exact Function.update_self ..
    · exact (Function.update_of_ne (Ne.symm hs) ..).trans hdead

theorem run_silent {actions : List (Action m)} {ds : List (Slot × Event m.bodySize)}
    (silent : Silent sp w) (unconnected : ∀ action ∈ actions, ¬ action.Connects sp)
    (h : Step.run (World.step b) w actions = .ok (w', ds)) : received sp ds = [] := by
  have hguard : Step.Guarded (World.step b) (fun _ _ => True) w actions :=
    Step.guarded_of_forall fun _ _ => trivial
  refine received_eq_nil_iff.mpr
    (Step.run_emits ?_ silent (hguard.and_forall unconnected) h)
  intro w action w' ds hw hg hstep
  obtain ⟨hw', hnothing⟩ := step_silent hw hg.2 hstep
  exact ⟨hw', received_eq_nil_iff.mp hnothing⟩

/-- On a routable run a slot is sent what its machine says, and after it was disconnected,
or its channel is gone, nothing at all until it is connected again. -/
theorem event_routing {actions : List (Action m)} {ds : List (Slot × Event m.bodySize)}
    (routable : Step.Guarded (World.step b) (Routable b sp) w actions)
    (h : Step.run (World.step b) w actions = .ok (w', ds)) :
    (∃ sub', Step.run (Subscriber.step b sp) (Subscriber.ofWorld w sp) actions =
        .ok (sub', received sp ds) ∧ Tracks sp w' sub') ∧
      ∀ before after mid ds₁ ds₂, actions = before ++ after →
        Step.run (World.step b) w before = .ok (mid, ds₁) →
        Step.run (World.step b) mid after = .ok (w', ds₂) →
        (before.getLast? = some (.disconnect sp) ∨ mid.alive sp = false) →
        (∀ action ∈ after, ¬ action.Connects sp) → received sp ds₂ = [] := by
  constructor
  · exact Step.run_matched (fun w sub action w' ds => step_tracks) received_nil
      (fun _ _ => received_append) tracks_ofWorld routable h
  · rintro before after mid ds₁ ds₂ rfl hbefore hafter hgone unconnected
    refine run_silent ?_ unconnected hafter
    rcases hgone with hlast | hdead
    · obtain ⟨front, rfl⟩ := List.getLast?_eq_some_iff.mp hlast
      obtain ⟨u, out, out', hfront, hone, -⟩ := Step.run_append_eq_ok_iff.mp hbefore
      rw [Step.run_singleton_eq] at hone
      have hguard := (Step.guarded_append.mp (Step.guarded_append.mp routable).1).2 u out hfront
      exact silent_of_disconnect hguard.1 hone
    · exact Or.inl hdead

theorem routable_sampleActions :
    Step.Guarded (World.step .release) (Routable .release 0) sampleWorld
      (.connect 0 :: sampleActions) := by
  refine (Step.guarded_cons_of_ok rfl).mpr ⟨trivial, ?_⟩
  refine (Step.guarded_cons_of_ok rfl).mpr ⟨fun _ table outs hcall => ?_, ?_⟩
  · obtain ⟨-, rfl⟩ := Prod.mk.inj (Except.ok.inj hcall)
    intro event hmem
    obtain rfl := List.mem_singleton.mp hmem
    rfl
  refine (Step.guarded_cons_of_ok rfl).mpr ⟨fun _ table outs hcall => ?_, trivial⟩
  obtain ⟨-, rfl⟩ := Prod.mk.inj (Except.ok.inj hcall)
  intro event hmem
  obtain rfl := List.mem_singleton.mp hmem
  rfl

theorem event_routing_sampleActions :
    ∃ w' ds, Step.run (World.step .release) sampleWorld (.connect 0 :: sampleActions) =
        .ok (w', ds) ∧
      ∃ sub', Step.run (Subscriber.step .release 0) (Subscriber.ofWorld sampleWorld 0)
          (.connect 0 :: sampleActions) = .ok (sub', received 0 ds) ∧ Tracks 0 w' sub' :=
  ⟨_, _, rfl, (event_routing routable_sampleActions rfl).1⟩

/-- A slot that is registered for modifications only misses them, and one that is registered
for insertions only hears that the table was cleared. -/
theorem not_event_routing :
    (¬ ∀ w' ds, Step.run (World.step .release) sampleWorld
          [.connectModify 0, .call (.modify [.size 1, .size 2] (0, .size 8) nilUuid)] =
            .ok (w', ds) →
        ∃ sub', Step.run (Subscriber.step .release 0) (Subscriber.ofWorld sampleWorld 0)
          [.connectModify 0, .call (.modify [.size 1, .size 2] (0, .size 8) nilUuid)] =
            .ok (sub', received 0 ds)) ∧
      ¬ ∀ w' ds, Step.run (World.step .release) sampleWorld
          [.connectInsert 0, .call (.clear nilUuid)] = .ok (w', ds) →
        ∃ sub', Step.run (Subscriber.step .release 0) (Subscriber.ofWorld sampleWorld 0)
          [.connectInsert 0, .call (.clear nilUuid)] = .ok (sub', received 0 ds) := by
  constructor
  · intro hall
    obtain ⟨sub', hrun⟩ := hall _ _ rfl
    exact List.cons_ne_nil _ _ (Prod.mk.inj (Except.ok.inj hrun)).2
  · intro hall
    obtain ⟨sub', hrun⟩ := hall _ _ rfl
    exact List.cons_ne_nil _ _ (Prod.mk.inj (Except.ok.inj hrun)).2.symm

end Routed

end Cyng
