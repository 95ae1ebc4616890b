import Cyng.Task.Channel
import Cyng.Theory.OrderedMap
import Cyng.Build

/-!
# The registry of channels

The controller gives every channel an id and posts its insertion to the strand of the registry.
When the last reference to a channel is gone, its deleter posts the removal. A shutdown stops
the channels of the table and clears it, without a look at what is posted already.

The handler of an insertion asks the channel for its id, and a channel that was stopped in the
meantime has none. So the table can be relied on as long as every insertion is carried out before
its channel is stopped and before the registry is shut down.
-/

namespace Cyng

open Theory

namespace Task

/-! ### The registry -/

/-- A channel that was created: the name and the id that the controller gave it. -/
structure Member where
  name : Bytes
  id : ℕ
  channel : Channel

/-- A handler on the strand of the registry. -/
inductive RegistryHandler
  | insert (id : ℕ)
  | remove (id : ℕ)
  | stop (name : Bytes)
  | dispatch (id slot : ℕ) (msg : List Obj)

/-- `registry`, the channels that exist, and the id counter of the controller -/
structure Registry where
  /-- `list_`: weak references to channels -/
  list : List (ℕ × ℕ)
  /-- `shutdown_` -/
  isShutdown : Bool
  /-- `dispatcher_` -/
  strand : List RegistryHandler
  members : List Member
  /-- `controller::id_` -/
  lastId : ℕ

/-- What the registry does to its surroundings. -/
inductive RegistryEffect
  | channel (id : ℕ) (effect : ChannelEffect)
  | returned (result : Bool)

/-- Calls of the controller and the registry, and what happens to the channels. -/
inductive RegistryEvent
  | create (name : Bytes) (slots : ℕ) (stopIdx : Fin slots)
  | channel (id : ℕ) (event : ChannelEvent)
  /-- the last reference is given up -/
  | destroy (id : ℕ)
  /-- `registry::stop` -/
  | stop (name : Bytes)
  /-- `registry::dispatch` -/
  | dispatch (id slot : ℕ) (msg : List Obj)
  /-- the strand runs its next handler -/
  | run
  | shutdown
  | reset

namespace Registry

/-- A registry without channels. -/
def initial : Registry where
  list := []
  isShutdown := false
  strand := []
  members := []
  lastId := 0

variable (b : Build) (r : Registry)

/-- `std::weak_ptr::lock` -/
def lock (id : ℕ) : Option Member := r.members.find? fun m => m.id = id

/-- `channel::get_id` -/
def getId (m : Member) : ℕ := if m.channel.isOpen then m.id else 0

/-- Something happens to a channel. -/
def onChannel (id : ℕ) (event : ChannelEvent) : Registry × List RegistryEffect :=
  match r.lock id with
  | none => (r, [])
  | some m =>
    let (channel, effects) := m.channel.react event
    ({ r with members := r.members.map fun m => if m.id = id then { m with channel } else m },
      effects.map (.channel id))

/-- Channels are stopped, one after the other. -/
def stopAll : Registry → List ℕ → Registry × List RegistryEffect
  | r, [] => (r, [])
  | r, id :: ids =>
    let (r, head) := r.onChannel id .stop
    let (r, tail) := stopAll r ids
    (r, head ++ tail)

/-- `controller::create_named_channel_annotated` and `registry::insert` -/
def create (name : Bytes) (slots : ℕ) (stopIdx : Fin slots) : Registry :=
  { r with
    lastId := r.lastId + 1
    members := r.members ++ [⟨name, r.lastId + 1, Channel.opened slots stopIdx⟩]
    strand := if r.isShutdown then r.strand else r.strand ++ [.insert (r.lastId + 1)] }

/-- A handler holds a reference to the channel. -/
def isHeld (id : ℕ) : Bool :=
  (r.strand.any fun
    | .insert id' => id' = id
    | _ => false) ||
  (r.lock id).any fun m =>
    !m.channel.strand.isEmpty || m.channel.timer.isSome || !m.channel.completed.isEmpty

/-- `auto_remove::operator()` -/
def destroy (id : ℕ) : Except Fault (Registry × List RegistryEffect) :=
  match r.lock id with
  | none => .ok (r, [])
  | some m =>
    if r.isHeld id then .ok (r, [])
    else do
      b.check "channel still open" (m.channel.isOpen = false)
      .ok ({ r with
        members := r.members.filter fun m => m.id ≠ id
        strand := if r.isShutdown then r.strand else r.strand ++ [.remove id] }, [])

/-- The channels that `registry::lookup_sync` finds by name -/
def lookup (name : Bytes) : List ℕ :=
  (r.list.filterMap fun e => r.lock e.2).filterMap fun m =>
    if m.name = name then some m.id else none

/-- The next handler of the strand -/
def run : Except Fault (Registry × List RegistryEffect) :=
  match r.strand with
  | [] => .ok (r, [])
  | .insert id :: strand =>
    match r.lock id with
    | none => .ok ({ r with strand }, [])
    | some m => do
      b.check "id != 0u" (getId m ≠ 0)
      .ok ({ r with strand, list := OrderedMap.insert (getId m) id r.list }, [])
  | .remove id :: strand =>
    .ok ({ r with strand, list := r.list.filter fun e => e.1 ≠ id }, [])
  | .stop name :: strand => .ok (stopAll { r with strand } (r.lookup name))
  | .dispatch id slot msg :: strand =>
    match r.list.find? fun e => e.1 = id with
    | none => .ok ({ r with strand }, [])
    | some e => .ok (onChannel { r with strand } e.2 (.dispatch slot msg))

/-- `registry::shutdown` -/
def shutdown : Registry × List RegistryEffect :=
  if r.isShutdown then (r, [.returned false])
  else
    let (r, effects) := stopAll { r with isShutdown := true } (r.list.reverse.map Prod.snd)
    ({ r with list := [] }, effects ++ [.returned true])

/-- `registry::reset` -/
def reset : Except Fault (Registry × List RegistryEffect) := do
  b.check "list_.empty()" (r.list = [])
  .ok ({ r with isShutdown := false }, [.returned (r.isShutdown && r.list.isEmpty)])

/-- The registry as a machine. -/
def step : Step Registry RegistryEvent RegistryEffect Fault := fun r event =>
  match event with
  | .create name slots stopIdx => .ok (r.create name slots stopIdx, [])
  | .channel id event => .ok (r.onChannel id event)
  | .destroy id => r.destroy b id
  -- a lookup is posted even after a shutdown
  | .stop name => .ok ({ r with strand := r.strand ++ [.stop name] }, [])
  | .dispatch id slot msg =>
    if r.isShutdown then .ok (r, [])
    else .ok ({ r with strand := r.strand ++ [.dispatch id slot msg] }, [])
  | .run => r.run b
  | .shutdown => .ok r.shutdown
  | .reset => r.reset b

/-! ### What a step changes -/

/-- The ids of the channels that exist. -/
def ids : List ℕ := r.members.map Member.id

/-- The channel exists and is open. -/
def isOpen (id : ℕ) : Bool := (r.lock id).any fun m => m.channel.isOpen

variable {b r}

theorem mem_ids_of_lock {id : ℕ} {m : Member} (h : r.lock id = some m) :
    m.id = id ∧ id ∈ r.ids := by
  have hid : m.id = id := by simpa using List.find?_some h
  exact ⟨hid, hid ▸ List.mem_map_of_mem (List.mem_of_find?_eq_some h)⟩

/-- Whatever happens to a channel, the registry is not concerned. -/
theorem onChannel_eq (r : Registry) (id : ℕ) (event : ChannelEvent) :
    ∃ members, (r.onChannel id event).1 = { r with members } ∧
      members.map Member.id = r.ids := by
  cases h : r.lock id with
  | none =>
    simp only [onChannel, h]
    exact ⟨r.members, rfl, rfl⟩
  | some m =>
    simp only [onChannel, h]
    refine ⟨_, rfl, ?_⟩
    rw [List.map_map, ids]
    refine List.map_congr_left fun m' _ => ?_
    simp only [Function.comp]
    split_ifs <;> rfl

theorem stopAll_eq (r : Registry) (channels : List ℕ) :
    ∃ members, (r.stopAll channels).1 = { r with members } ∧
      members.map Member.id = r.ids := by
  induction channels generalizing r with
  | nil => exact ⟨r.members, rfl, rfl⟩
  | cons id channels ih =>
    obtain ⟨members, hone, hids⟩ := onChannel_eq r id .stop
    obtain ⟨members', hmany, hids'⟩ := ih (r.onChannel id .stop).1
    refine ⟨members', ?_, ?_⟩
    · rw [stopAll]
      simp only [hmany]
      rw [hone]
    · rw [hids', hone]
      exact hids

/-- The event runs the next handler. -/
def isRun : RegistryEvent → Bool
  | .run => true
  | _ => false

/-- The channel that the next handler inserts. -/
def nextInsertion (r : Registry) : Option ℕ :=
  match r.strand with
  | .insert id :: _ => some id
  | _ => none

/-- An insertion is carried out while its channel is open and the registry is not shut down. -/
def Timely (r : Registry) (event : RegistryEvent) : Prop :=
  isRun event = true → ∀ id ∈ r.nextInsertion, r.isShutdown = false ∧ r.isOpen id = true

instance instDecidableTimely (r : Registry) (event : RegistryEvent) :
    Decidable (Timely r event) :=
  inferInstanceAs (Decidable (_ → _))

/-- What a step can change. -/
inductive Change (r : Registry) : RegistryEvent → Registry → Prop
  | members {event : RegistryEvent} {members : List Member} (hrun : isRun event = false)
    (hids : members.map Member.id = r.ids) : Change r event { r with members }
  | create (name : Bytes) (slots : ℕ) (stopIdx : Fin slots) :
    Change r (.create name slots stopIdx) (r.create name slots stopIdx)
  | destroy {id : ℕ} (hheld : .insert id ∉ r.strand) :
    Change r (.destroy id) { r with
      members := r.members.filter fun m => m.id ≠ id
      strand := if r.isShutdown then r.strand else r.strand ++ [.remove id] }
  | post {event : RegistryEvent} {handler : RegistryHandler} (hrun : isRun event = false)
    (hinsert : ∀ id, handler ≠ .insert id) :
    Change r event { r with strand := r.strand ++ [handler] }
  | shutdown {members : List Member} (hids : members.map Member.id = r.ids) :
    Change r .shutdown { r with isShutdown := true, list := [], members }
  | reset : Change r .reset { r with isShutdown := false }
  | idle (hstrand : r.strand = []) : Change r .run r
  | insert {id : ℕ} {strand : List RegistryHandler} (hstrand : r.strand = .insert id :: strand)
    (hshutdown : r.isShutdown = false) (hid : id ∈ r.ids) :
    Change r .run { r with strand, list := OrderedMap.insert id id r.list }
  | remove {id : ℕ} {strand : List RegistryHandler} (hstrand : r.strand = .remove id :: strand) :
    Change r .run { r with strand, list := r.list.filter fun e => e.1 ≠ id }
  | other {handler : RegistryHandler} {strand : List RegistryHandler} {members : List Member}
    (hstrand : r.strand = handler :: strand) (hinsert : ∀ id, handler ≠ .insert id)
    (hremove : ∀ id, handler ≠ .remove id) (hids : members.map Member.id = r.ids) :
    Change r .run { r with strand, members }

theorem change_of_run {r' : Registry} {effects : List RegistryEffect} (htimely : Timely r .run)
    (h : r.run b = .ok (r', effects)) : Change r .run r' := by
  rw [run] at h
  split at h
  · next hstrand =>
    obtain ⟨rfl, -⟩ := Prod.mk.inj (Except.ok.inj h)
    exact .idle hstrand
  · next id strand hstrand =>
    -- the next handler inserts a channel, which is open and in time
    obtain ⟨hshutdown, hopen⟩ := htimely rfl id (by simp [nextInsertion, hstrand])
    cases hlock : r.lock id with
    | none => simp [isOpen, hlock] at hopen
    | some m =>
      obtain ⟨hid, hmem⟩ := mem_ids_of_lock hlock
      have hopen' : m.channel.isOpen = true := by simpa [isOpen, hlock] using hopen
      simp only [hlock, getId, hopen', if_true, hid] at h
      obtain ⟨_, -, h⟩ := bind_eq_ok_iff.mp h
      obtain ⟨rfl, -⟩ := Prod.mk.inj (Except.ok.inj h)
      exact .insert hstrand hshutdown hmem
  · next id strand hstrand =>
    obtain ⟨rfl, -⟩ := Prod.mk.inj (Except.ok.inj h)
    exact .remove hstrand
  · next name strand hstrand =>
    obtain ⟨members, hstop, hids⟩ := stopAll_eq { r with strand } (r.lookup name)
    obtain rfl : (stopAll { r with strand } (r.lookup name)).1 = r' :=
      congrArg Prod.fst (Except.ok.inj h)
    rw [hstop]
    exact .other hstrand (by simp) (by simp) hids
  · next id slot msg strand hstrand =>
    split at h
    · obtain ⟨rfl, -⟩ := Prod.mk.inj (Except.ok.inj h)
      exact .other hstrand (by simp) (by simp) rfl
    · next e he =>
      obtain ⟨members, hdispatch, hids⟩ := onChannel_eq { r with strand } e.2 (.dispatch slot msg)
      obtain rfl : (onChannel { r with strand } e.2 (.dispatch slot msg)).1 = r' :=
        congrArg Prod.fst (Except.ok.inj h)
      rw [hdispatch]
      exact .other hstrand (by simp) (by simp) hids

theorem change_of_step {r' : Registry} {event : RegistryEvent} {effects : List RegistryEffect}
    (htimely : Timely r event) (h : step b r event = .ok (r', effects)) :
    Change r event r' := by
  cases event with
  | create name slots stopIdx =>
    obtain ⟨rfl, -⟩ := Prod.mk.inj (Except.ok.inj h)
    exact .create name slots stopIdx
  | channel id event =>
    obtain ⟨members, hchannel, hids⟩ := onChannel_eq r id event
    obtain rfl : (r.onChannel id event).1 = r' := congrArg Prod.fst (Except.ok.inj h)
    rw [hchannel]
    exact .members rfl hids
  | destroy id =>
    -- twice nothing happens: without the channel, and while it is held
    have hnothing (h : (.ok (r, []) : Except Fault (Registry × List RegistryEffect)) =
        .ok (r', effects)) : Change r (.destroy id) r' := by
      obtain ⟨rfl, -⟩ := Prod.mk.inj (Except.ok.inj h)
      exact .members rfl rfl
    simp only [step, destroy] at h
    split at h
    · exact hnothing h
    · by_cases hheld : r.isHeld id = true
      · rw [if_pos hheld] at h
        exact hnothing h
      · rw [if_neg hheld] at h
        obtain ⟨_, -, h⟩ := bind_eq_ok_iff.mp h
        obtain ⟨rfl, -⟩ := Prod.mk.inj (Except.ok.inj h)
        refine .destroy fun hmem => hheld ?_
        rw [isHeld, Bool.or_eq_true]
        exact Or.inl (List.any_eq_true.mpr ⟨.insert id, hmem, by simp⟩)
  | stop name =>
    obtain ⟨rfl, -⟩ := Prod.mk.inj (Except.ok.inj h)
    exact .post rfl (by simp)
  | dispatch id slot msg =>
    simp only [step] at h
    split_ifs at h
    · obtain ⟨rfl, -⟩ := Prod.mk.inj (Except.ok.inj h)
      exact .members rfl rfl
    · obtain ⟨rfl, -⟩ := Prod.mk.inj (Except.ok.inj h)
      exact .post rfl (by simp)
  | run => exact change_of_run htimely h
  | shutdown =>
    have hr' := congrArg Prod.fst (Except.ok.inj h)
    simp only [shutdown] at hr'
    split_ifs at hr'
    · subst hr'
      exact .members rfl rfl
    · obtain ⟨members, hstop, hids⟩ := stopAll_eq { r with isShutdown := true }
        (r.list.reverse.map Prod.snd)
      rw [hstop] at hr'
      subst hr'
      exact .shutdown hids
  | reset =>
    obtain ⟨_, -, h⟩ := bind_eq_ok_iff.mp h
    obtain ⟨rfl, -⟩ := Prod.mk.inj (Except.ok.inj h)
    exact .reset

/-! ### The invariant -/

/-- What holds as long as insertions are carried out in time. -/
structure Inv (r : Registry) : Prop where
  /-- every entry is stored under the id of its channel -/
  own : ∀ e ∈ r.list, e.1 = e.2
  /-- a posted insertion keeps its channel alive -/
  kept : ∀ id, .insert id ∈ r.strand → id ∈ r.ids
  /-- the entry of a channel that is gone waits for its removal -/
  gone : ∀ e ∈ r.list, e.2 ∈ r.ids ∨ .remove e.2 ∈ r.strand
  down : r.isShutdown = true → r.list = []
  assigned : ∀ id ∈ r.ids, id ≤ r.lastId

theorem inv_initial : Inv initial where
  own := by simp [initial]
  kept := by simp [initial]
  gone := by simp [initial]
  down := by simp [initial]
  assigned := by simp [initial, ids]

theorem ids_create (name : Bytes) (slots : ℕ) (stopIdx : Fin slots) :
    (r.create name slots stopIdx).ids = r.ids ++ [r.lastId + 1] := by
  simp [ids, create]

theorem mem_ids_filter {id id' : ℕ} :
    id' ∈ (r.members.filter fun m => m.id ≠ id).map Member.id ↔ id' ∈ r.ids ∧ id' ≠ id := by
  simp only [List.mem_map, List.mem_filter, ids, decide_eq_true_eq]
  constructor
  · rintro ⟨m, ⟨hm, hne⟩, rfl⟩
    exact ⟨⟨m, hm, rfl⟩, hne⟩
  · rintro ⟨⟨m, hm, rfl⟩, hne⟩
    exact ⟨m, ⟨hm, hne⟩, rfl⟩

theorem inv_change {event : RegistryEvent} {r' : Registry} (hinv : Inv r)
    (h : Change r event r') : Inv r' := by
  -- the invariant counts a channel that is listed and gone until its removal has run
  obtain ⟨hown, hkept, hgone, hdown, hassigned⟩ := hinv
  cases h with
  | members hrun hids =>
    exact ⟨hown, by rwa [ids, hids], by rwa [ids, hids], hdown, by rwa [ids, hids]⟩
  | create name slots stopIdx =>
    refine ⟨hown, fun id hmem => ?_, fun e he => ?_, hdown, fun id hmem => ?_⟩
    · rw [ids_create, List.mem_append, List.mem_singleton]
      simp only [create] at hmem
      split_ifs at hmem
      · exact Or.inl (hkept id hmem)
      · rcases List.mem_append.mp hmem with hmem | hmem
        · exact Or.inl (hkept id hmem)
        · exact Or.inr (RegistryHandler.insert.inj (List.mem_singleton.mp hmem))
    · rw [ids_create, List.mem_append]
      refine (hgone e he).imp Or.inl fun hmem => ?_
      simp only [create]
      split_ifs
      · exact hmem
      · exact List.mem_append_left _ hmem
    · rw [ids_create] at hmem
      rcases List.mem_append.mp hmem with hmem | hmem
      · exact (hassigned id hmem).trans (Nat.le_succ _)
      · exact (List.mem_singleton.mp hmem).le
  | @destroy id hheld =>
    refine ⟨hown, fun id' hmem => ?_, fun e he => ?_, hdown, fun id' hmem => ?_⟩
    · rw [ids, mem_ids_filter]
      have hstrand : .insert id' ∈ r.strand := by
        split_ifs at hmem
        · exact hmem
        · simpa using hmem
      exact ⟨hkept id' hstrand, fun heq => hheld (heq ▸ hstrand)⟩
    · rw [ids, mem_ids_filter]
      split_ifs with hshutdown
      · rw [hdown hshutdown] at he
        cases he
      · rw [List.mem_append, List.mem_singleton]
        by_cases heq : e.2 = id
        · exact Or.inr (Or.inr (congrArg _ heq))
        · exact (hgone e he).imp (fun hmem => ⟨hmem, heq⟩) Or.inl
    · rw [ids, mem_ids_filter] at hmem
      exact hassigned id' hmem.1
  | post hrun hinsert =>
    refine ⟨hown, fun id hmem => ?_, fun e he => ?_, hdown, hassigned⟩
    · rcases List.mem_append.mp hmem with hmem | hmem
      · exact hkept id hmem
      · exact absurd (List.mem_singleton.mp hmem).symm (hinsert id)
    · exact (hgone e he).imp_right (List.mem_append_left _)
  | shutdown hids =>
    exact ⟨by simp, by rwa [ids, hids], by simp, fun _ => rfl, by rwa [ids, hids]⟩
  | reset => exact ⟨hown, hkept, hgone, by simp, hassigned⟩
  | idle hstrand => exact ⟨hown, hkept, hgone, hdown, hassigned⟩
  | insert hstrand hshutdown hid =>
    rw [hstrand] at hkept hgone
    refine ⟨fun e he => ?_, fun id' hmem => hkept id' (List.mem_cons_of_mem _ hmem), fun e he => ?_,
      fun h => by simp [hshutdown] at h, hassigned⟩
    · rcases OrderedMap.mem_insert he with rfl | he
      · rfl
      · exact hown e he
    · rcases OrderedMap.mem_insert he with rfl | he
      · exact Or.inl hid
      · exact (hgone e he).imp_right fun hmem => by simpa using hmem
  | @remove id strand hstrand =>
    rw [hstrand] at hkept hgone
    refine ⟨fun e he => hown e (List.mem_of_mem_filter he),
      fun id' hmem => hkept id' (List.mem_cons_of_mem _ hmem), fun e he => ?_,
      fun h => by simp [hdown h], hassigned⟩
    obtain ⟨he, hne⟩ := List.mem_filter.mp he
    refine (hgone e he).imp_right fun hmem => ?_
    rcases List.mem_cons.mp hmem with heq | hmem
    · have hid : e.1 = id := (hown e he).trans (RegistryHandler.remove.inj heq)
      simp [hid] at hne
    · exact hmem
  | other hstrand hinsert hremove hids =>
    rw [hstrand] at hkept hgone
    refine ⟨hown, fun id hmem => ?_, fun e he => ?_, hdown, by rwa [ids, hids]⟩
    · rw [ids, hids]
      exact hkept id (List.mem_cons_of_mem _ hmem)
    · rw [ids, hids]
      refine (hgone e he).imp_right fun hmem => ?_
      rcases List.mem_cons.mp hmem with heq | hmem
      · exact absurd heq.symm (hremove e.2)
      · exact hmem

theorem inv_run {events : List RegistryEvent} {r' : Registry} {effects : List RegistryEffect}
    (hinv : Inv r) (hguard : Step.Guarded (step b) Timely r events)
    (h : Step.run (step b) r events = .ok (r', effects)) : Inv r' :=
  Step.run_preserves
    (fun _ _ _ _ hinv htimely hstep => inv_change hinv (change_of_step htimely hstep))
    hinv hguard h

/-! ### Channels that are gone -/

/-- The channel was created and does not exist any more. -/
def Destroyed (r : Registry) (id : ℕ) : Prop := 0 < id ∧ id ≤ r.lastId ∧ id ∉ r.ids

/-- The channel is gone, and what is left of it will be removed by one of the next handlers. -/
structure Leaving (id next : ℕ) (r : Registry) : Prop where
  assigned : id ≤ r.lastId
  dead : id ∉ r.ids
  removed : ∀ e ∈ r.list, e.2 = id → .remove id ∈ r.strand.take next

theorem mem_take_append {α : Type} {x : α} {n : ℕ} {xs : List α} (h : x ∈ xs.take n)
    (ys : List α) : x ∈ (xs ++ ys).take n := by
  rw [List.take_append]
  exact List.mem_append_left _ h

theorem mem_take_tail {α : Type} {x y : α} {n : ℕ} {xs : List α} (h : x ∈ (y :: xs).take n)
    (hne : x ≠ y) : x ∈ xs.take (n - 1) := by
  cases n with
  | zero => cases h
  | succ n => exact (List.mem_cons.mp h).resolve_left hne

/-- With every handler that runs, the removal comes closer. -/
theorem leaving_change {id next : ℕ} {event : RegistryEvent} {r' : Registry} (hinv : Inv r)
    (h : Change r event r') (hleaving : Leaving id next r) :
    Leaving id (next - (isRun event).toNat) r' := by
  obtain ⟨hassigned, hdead, hremoved⟩ := hleaving
  cases h with
  | members hrun hids =>
    rw [hrun]
    exact ⟨hassigned, by rwa [ids, hids], hremoved⟩
  | create name slots stopIdx =>
    refine ⟨hassigned.trans (Nat.le_succ _), ?_, fun e he heq => ?_⟩
    · rw [ids_create, List.mem_append, List.mem_singleton]
      exact not_or.mpr ⟨hdead, (Nat.lt_succ_of_le hassigned).ne⟩
    · simp only [create]
      split_ifs
      · exact hremoved e he heq
      · exact mem_take_append (hremoved e he heq) _
  | destroy hheld =>
    refine ⟨hassigned, ?_, fun e he heq => ?_⟩
    · rw [ids, mem_ids_filter]
      exact fun hmem => hdead hmem.1
    · split_ifs
      · exact hremoved e he heq
      · exact mem_take_append (hremoved e he heq) _
  | post hrun hinsert =>
    rw [hrun]
    exact ⟨hassigned, hdead, fun e he heq => mem_take_append (hremoved e he heq) _⟩
  | shutdown hids => exact ⟨hassigned, by rwa [ids, hids], by simp⟩
  | reset => exact ⟨hassigned, hdead, hremoved⟩
  | idle hstrand =>
    refine ⟨hassigned, hdead, fun e he heq => ?_⟩
    have hmem := hremoved e he heq
    simp [hstrand] at hmem
  | @insert id' strand hstrand hshutdown hid =>
    refine ⟨hassigned, hdead, fun e he heq => ?_⟩
    rcases OrderedMap.mem_insert he with rfl | he
    · obtain rfl : id' = id := heq
      exact absurd hid hdead
    · have hmem := hremoved e he heq
      rw [hstrand] at hmem
      exact mem_take_tail hmem (by simp)
  | @remove id' strand hstrand =>
    refine ⟨hassigned, hdead, fun e he heq => ?_⟩
    obtain ⟨he, hne⟩ := List.mem_filter.mp he
    have hmem := hremoved e he heq
    rw [hstrand] at hmem
    refine mem_take_tail hmem fun hsame => ?_
    -- the handler that runs is not the one for this channel
    have hid : e.1 = id' := ((hinv.own e he).trans heq).trans (RegistryHandler.remove.inj hsame)
    simp [hid] at hne
  | other hstrand hinsert hremove hids =>
    refine ⟨hassigned, by rwa [ids, hids], fun e he heq => ?_⟩
    have hmem := hremoved e he heq
    rw [hstrand] at hmem
    exact mem_take_tail hmem (hremove id).symm

/-- How many handlers run. -/
def runs (events : List RegistryEvent) : ℕ := events.countP isRun

theorem leaving_run {id next : ℕ} {events : List RegistryEvent} {r' : Registry}
    {effects : List RegistryEffect} (hinv : Inv r)
    (hguard : Step.Guarded (step b) Timely r events)
    (h : Step.run (step b) r events = .ok (r', effects)) (hleaving : Leaving id next r) :
    Leaving id (next - runs events) r' := by
  induction events generalizing r next effects with
  | nil =>
    obtain ⟨rfl, -⟩ : r = r' ∧ effects = [] := by simpa using h
    exact hleaving
  | cons event events ih =>
    obtain ⟨t, head, tail, hstep, hrun, -⟩ := Step.run_cons_eq_ok_iff.mp h
    have hchange := change_of_step hguard.1 hstep
    have hrest := ih (inv_change hinv hchange) (hguard.2 t head hstep) hrun
      (leaving_change hinv hchange hleaving)
    have hcount : next - (isRun event).toNat - runs events = next - runs (event :: events) := by
      rw [runs, runs, List.countP_cons, Nat.sub_sub, Nat.add_comm]
      cases isRun event <;> rfl
    rwa [hcount] at hrest

/-! ### Shutdown -/

/-- Only a reset ends a shutdown. -/
theorem isShutdown_change {event : RegistryEvent} {r' : Registry} (h : Change r event r')
    (hreset : event ≠ .reset) (hshutdown : r.isShutdown = true) : r'.isShutdown = true := by
  cases h with
  | shutdown hids => rfl
  | reset => exact absurd rfl hreset
  | _ => exact hshutdown

theorem isShutdown_run {events : List RegistryEvent} {r' : Registry}
    {effects : List RegistryEffect} (hguard : Step.Guarded (step b) Timely r events)
    (h : Step.run (step b) r events = .ok (r', effects)) (hreset : .reset ∉ events)
    (hshutdown : r.isShutdown = true) : r'.isShutdown = true := by
  have hne : ∀ event ∈ events, event ≠ .reset := fun event hmem heq => hreset (heq ▸ hmem)
  exact Step.run_preserves (fun _ _ _ _ hshutdown hguard hstep =>
    isShutdown_change (change_of_step hguard.1 hstep) hguard.2 hshutdown)
    hshutdown (hguard.and_forall hne) h

theorem isShutdown_shutdown (r : Registry) : r.shutdown.1.isShutdown = true := by
  simp only [shutdown]
  split_ifs with h
  · exact h
  · obtain ⟨members, hstop, -⟩ := stopAll_eq { r with isShutdown := true }
      (r.list.reverse.map Prod.snd)
    rw [hstop]

/-- As long as insertions are carried out in time, every entry of the table is stored under the
id of its channel; a channel that is gone has no entry any more when the handlers that were posted
until then have run; and the table of a registry that was shut down is empty until the reset. -/
theorem consistent {events : List RegistryEvent} {r : Registry} {effects : List RegistryEffect}
    (hguard : Step.Guarded (step b) Timely initial events)
    (h : Step.run (step b) initial events = .ok (r, effects)) :
    (∀ e ∈ r.list, e.1 = e.2) ∧
      (∀ id, Destroyed r id → ∀ more r' effects', Step.Guarded (step b) Timely r more →
        Step.run (step b) r more = .ok (r', effects') → r.strand.length ≤ runs more →
          ∀ e ∈ r'.list, e.2 ≠ id) ∧
      ∀ before after, events = before ++ .shutdown :: after → .reset ∉ after → r.list = [] := by
  have hinv : Inv r := inv_run inv_initial hguard h
  refine ⟨hinv.own, fun id hdestroyed more r' effects' hmore hrun hcount => ?_, ?_⟩
  · obtain ⟨-, hassigned, hdead⟩ := hdestroyed
    -- the removal is already on the strand, so within its length
    have hleaving : Leaving id r.strand.length r := by
      refine ⟨hassigned, hdead, fun e he heq => ?_⟩
      rw [List.take_length, ← heq]
      exact (hinv.gone e he).resolve_left (heq ▸ hdead)
    obtain ⟨-, -, hremoved⟩ := leaving_run hinv hmore hrun hleaving
    intro e he heq
    have hmem := hremoved e he heq
    rw [Nat.sub_eq_zero_of_le hcount] at hmem
    cases hmem
  · rintro before after rfl hreset
    -- cut the run at the shutdown and carry the flag over what follows
    obtain ⟨t, head, tail, hbefore, hafter, -⟩ := Step.run_append_eq_ok_iff.mp h
    obtain ⟨u, out, out', hstep, hrun, -⟩ := Step.run_cons_eq_ok_iff.mp hafter
    have hrest := ((Step.guarded_append.mp hguard).2 t head hbefore).2 u out hstep
    have hu : u = t.shutdown.1 := (congrArg Prod.fst (Except.ok.inj hstep)).symm
    exact hinv.down (isShutdown_run hrest hrun hreset (hu ▸ isShutdown_shutdown t))

/-- A channel that is created, inserted, stopped and destroyed. -/
def oneChannel : List RegistryEvent :=
  [.create [] 1 (Fin.last 0), .run, .channel 1 .stop, .channel 1 .run, .destroy 1]

/-- Its entry waits for the removal. -/
def oneEntry : Registry := ⟨[(1, 1)], false, [.remove 1], [], 1⟩

theorem consistent_oneChannel :
    (∀ e ∈ oneEntry.list, e.1 = e.2) ∧
      (∀ id, Destroyed oneEntry id → ∀ more r' effects',
        Step.Guarded (step .debug) Timely oneEntry more →
        Step.run (step .debug) oneEntry more = .ok (r', effects') →
          oneEntry.strand.length ≤ runs more → ∀ e ∈ r'.list, e.2 ≠ id) ∧
      ∀ before after, oneChannel = before ++ .shutdown :: after → .reset ∉ after →
        oneEntry.list = [] :=
  consistent (b := .debug) (by decide : Step.Guarded (step .debug) Timely initial oneChannel) rfl

/-- A channel that is stopped before its insertion is stored under the id 0. -/
theorem not_consistent : ¬∀ (b : Build) (events : List RegistryEvent) (r : Registry)
    (effects : List RegistryEffect), Step.run (step b) initial events = .ok (r, effects) →
      ∀ e ∈ r.list, e.1 = e.2 := by
  intro h
  have hown := h .release [.create [] 1 (Fin.last 0), .channel 1 .stop, .run] _ _ rfl (0, 1)
  exact absurd (hown (List.mem_singleton_self _)) (by decide)

end Registry

end Task

end Cyng
