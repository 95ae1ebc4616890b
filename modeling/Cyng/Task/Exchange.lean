import Cyng.Task.Registry

/-!
# Requests on the strand of the registry

Tasks send messages to channels they have no reference to: by id, to a list of ids, to all
channels of a name, to all but one of them, and a machine forwards a call to the channel whose
name is a tag. Each of these is a handler on the strand of the registry, behind the insertions
that were posted before. The handler dispatches the message to the channels it finds, and a
channel puts it on a strand of its own.

What a handler does to a channel depends on two things only: whether the channel is in the table
already, and the mail for it that the handler brings.
-/

namespace Cyng

open Theory

namespace Task

/-! ### Messages that are posted -/

/-- What the registry posts to reach channels: a message and the function that gets it. -/
inductive Request
  /-- `registry::dispatch(std::vector<std::size_t>, std::string, tuple_t&&)` -/
  | dispatchTo (tasks : List ℕ) (slot : Bytes) (msg : List Obj)
  /-- `registry::dispatch(std::string, std::string, tuple_t)` -/
  | dispatchName (channel slot : Bytes) (msg : List Obj)
  /-- `registry::dispatch(std::size_t, std::string, tuple_t)` -/
  | dispatchId (channel : ℕ) (slot : Bytes) (msg : List Obj)
  /-- `registry::dispatch_exclude(std::size_t, std::string, std::string, tuple_t&&)` -/
  | dispatchExclude (id : ℕ) (name slot : Bytes) (msg : List Obj)
  /-- `mesh::lookup` with the callback of `vm_base::forward` -/
  | forward (tag slot : Bytes) (msg : List Obj)

namespace Request

/-- The name of the function. -/
def slot : Request → Bytes
  | .dispatchTo _ slot _ | .dispatchName _ slot _ | .dispatchId _ slot _
  | .dispatchExclude _ _ slot _ | .forward _ slot _ => slot

/-- The message. -/
def msg : Request → List Obj
  | .dispatchTo _ _ msg | .dispatchName _ _ msg | .dispatchId _ _ msg
  | .dispatchExclude _ _ _ msg | .forward _ _ msg => msg

/-- A lookup is posted even after a shutdown. -/
def isLookup : Request → Bool
  | .dispatchExclude .. | .forward .. => true
  | _ => false

/-- The channels that the handler finds, in the order in which they get the message. -/
def recipients (r : Registry) : Request → List ℕ
  | .dispatchTo tasks _ _ => tasks.filterMap fun id =>
      (r.list.find? fun e => e.1 = id).bind fun e => (r.lock e.2).map Member.id
  | .dispatchName channel _ _ => r.lookup channel
  | .dispatchId channel _ _ =>
      ((r.list.find? fun e => e.1 = channel).bind fun e => (r.lock e.2).map Member.id).toList
  | .dispatchExclude id name _ _ =>
      (r.lookup name).filter fun source => (r.lock source).map Registry.getId ≠ some id
  | .forward tag _ _ => (r.lookup tag).head?.toList

/-- The assertion of the callback of `vm_base::forward` -/
def Single (r : Registry) : Request → Prop
  | .forward tag _ _ => (r.lookup tag).length < 2
  | _ => True

instance instDecidableSingle (r : Registry) : (request : Request) → Decidable (request.Single r)
  | .forward tag _ _ => inferInstanceAs (Decidable ((r.lookup tag).length < 2))
  | .dispatchTo .. | .dispatchName .. | .dispatchId .. | .dispatchExclude .. => .isTrue trivial

end Request

/-- A handler that waits on the strand of the registry. -/
abbrev Post := RegistryHandler ⊕ Request

/-- `registry` with all handlers that its strand can hold. -/
structure Exchange where
  /-- `list_` -/
  list : List (ℕ × ℕ)
  /-- `shutdown_` -/
  isShutdown : Bool
  /-- `dispatcher_` -/
  posted : List Post
  members : List Member
  /-- `controller::id_` -/
  lastId : ℕ

/-- Calls of the registry and the controller, and what happens on the strands. -/
inductive ExchangeEvent
  | registry (event : RegistryEvent)
  | post (request : Request)

namespace Exchange

/-- An exchange without channels. -/
def initial : Exchange where
  list := []
  isShutdown := false
  posted := []
  members := []
  lastId := 0

/-- The registry, with those handlers that are not requests. -/
def registry (e : Exchange) : Registry where
  list := e.list
  isShutdown := e.isShutdown
  strand := e.posted.filterMap Sum.getLeft?
  members := e.members
  lastId := e.lastId

/-- The exchange of a registry, with what is posted. -/
def ofRegistry (r : Registry) (posted : List Post) : Exchange where
  list := r.list
  isShutdown := r.isShutdown
  posted := posted
  members := r.members
  lastId := r.lastId

/-- The message is dispatched to channels, one after the other. A name stands for a slot of the
channel, `names` is `channel::lookup`. -/
def deliver (names : ℕ → Bytes → ℕ) (slot : Bytes) (msg : List Obj) :
    Registry → List ℕ → Registry
  | r, [] => r
  | r, id :: ids => deliver names slot msg (r.onChannel id (.dispatch (names id slot) msg)).1 ids

variable (b : Build) (names : ℕ → Bytes → ℕ)

/-- The handler of a request -/
def perform (r : Registry) (request : Request) : Except Fault Registry := do
  b.check "channels.size() < 2" (request.Single r)
  .ok (deliver names request.slot request.msg r (request.recipients r))

/-- The next handler of the strand -/
def run (e : Exchange) : Except Fault (Exchange × List RegistryEffect) :=
  match e.posted with
  | [] => .ok (e, [])
  | .inl handler :: posted => do
    let (r, effects) ← Registry.run b { e.registry with strand := [handler] }
    .ok (ofRegistry r posted, effects)
  | .inr request :: posted => do
    let r ← perform b names e.registry request
    .ok (ofRegistry r posted, [])

/-- The exchange as a machine. -/
def step : Step Exchange ExchangeEvent RegistryEffect Fault := fun e event =>
  match event with
  | .registry .run => e.run b names
  | .registry event => do
    let (r, effects) ← Registry.step b e.registry event
    -- what the call posts goes to the end of the strand
    .ok (ofRegistry r (e.posted ++ (r.strand.drop e.registry.strand.length).map .inl), effects)
  | .post request =>
    if e.isShutdown && !request.isLookup then .ok (e, [])
    else .ok ({ e with posted := e.posted ++ [.inr request] }, [])

/-! ### What reaches a channel -/

/-- Who sent a message to a channel. -/
inductive Sender
  | registry | direct
deriving DecidableEq

/-- The messages of a sender, in order. -/
def sentBy (sender : Sender) (arrived : List (Sender × Wait)) : List Wait :=
  arrived.filterMap fun a => if a.1 = sender then some a.2 else none

/-- The messages that are for a function of the task. -/
def valid (slots : ℕ) (arrived : List (Sender × Wait)) : List Wait :=
  (arrived.map Prod.snd).filter fun wait => wait.1 < slots

@[simp] theorem sentBy_append (sender : Sender) (xs ys : List (Sender × Wait)) :
    sentBy sender (xs ++ ys) = sentBy sender xs ++ sentBy sender ys :=
  List.filterMap_append

@[simp] theorem valid_append (slots : ℕ) (xs ys : List (Sender × Wait)) :
    valid slots (xs ++ ys) = valid slots xs ++ valid slots ys := by
  simp [valid]

/-- What happens to a channel, of all that happens. -/
def effectsOn (i : ℕ) (effects : List RegistryEffect) : List ChannelEffect :=
  effects.filterMap fun
    | .channel id effect => if id = i then some effect else none
    | .returned _ => none

@[simp] theorem effectsOn_append (i : ℕ) (xs ys : List RegistryEffect) :
    effectsOn i (xs ++ ys) = effectsOn i xs ++ effectsOn i ys :=
  List.filterMap_append

/-- The mail for a channel that a handler brings. -/
def mail (i : ℕ) (name : Bytes) : Post → List Wait
  | .inl (.dispatch id slot msg) => if id = i then [(slot, msg)] else []
  | .inl _ => []
  | .inr (.dispatchTo tasks slot msg) => List.replicate (tasks.count i) (names i slot, msg)
  | .inr (.dispatchName channel slot msg) => if channel = name then [(names i slot, msg)] else []
  | .inr (.dispatchId channel slot msg) => if channel = i then [(names i slot, msg)] else []
  | .inr (.dispatchExclude id channel slot msg) =>
    if channel = name ∧ id ≠ i then [(names i slot, msg)] else []
  | .inr (.forward tag slot msg) => if tag = name then [(names i slot, msg)] else []

/-- The mail for a channel that a call posts. -/
def mailOf (i : ℕ) (name : Bytes) : ExchangeEvent → List Wait
  | .registry (.dispatch id slot msg) => mail names i name (.inl (.dispatch id slot msg))
  | .registry _ => []
  | .post request => mail names i name (.inr request)

/-- The messages that are dispatched to the channel itself. -/
def directOf (i : ℕ) : ExchangeEvent → List Wait
  | .registry (.channel id (.dispatch slot msg)) => if id = i then [(slot, msg)] else []
  | _ => []

/-- Nobody stops the channel, gives up the last reference to it, or shuts the registry down.
A call is forwarded to the first channel of a name: either the name stays the name of one
channel, or nothing is forwarded to it. -/
def Undisturbed (lone : Bool) (i : ℕ) (name : Bytes) : ExchangeEvent → Prop
  | .registry (.channel id .stop) => id ≠ i
  | .registry (.destroy id) => id ≠ i
  | .registry (.stop channel) => channel ≠ name
  | .registry .shutdown => False
  | .registry (.create channel _ _) => lone = true → channel ≠ name
  | .post (.forward tag _ _) => lone = false → tag ≠ name
  | _ => True

/-! ### The channel and the registry -/

/-- What the registry knows of a channel that is open. -/
structure Known (i : ℕ) (name : Bytes) (r : Registry) (c : Channel) : Prop where
  lock : r.lock i = some ⟨name, i, c⟩
  isOpen : c.isOpen = true
  valid : c.Valid
  /-- the channel has no other entry, and its id is nobody else's -/
  own : ∀ x ∈ r.list, x.1 = i ∨ x.2 = i → x = (i, i)
  sorted : OrderedMap.Sorted r.list
  assigned : 0 < i ∧ i ≤ r.lastId
  up : r.isShutdown = false

/-- The name and the id of a channel stay what they are. -/
def identity (m : Member) : Bytes × ℕ := (m.name, m.id)

/-- What the next handler leaves for the channel: it is in the table if it was, or if it was
inserted, and the mail for it waits on its strand. -/
structure Handled (i : ℕ) (name : Bytes) (r : Registry) (c : Channel) (post : Post)
    (r' : Registry) (c' : Channel) : Prop where
  known : Known i name r' c'
  slots : c'.slots = c.slots
  members : r'.members.map identity = r.members.map identity
  listed : (i, i) ∈ r'.list ↔ (i, i) ∈ r.list ∨ post = .inl (.insert i)
  queued : c'.queued = c.queued ++
    (if (i, i) ∈ r.list then mail names i name post else []).filter fun wait => wait.1 < c.slots

section Registries

variable {b names} {i : ℕ} {name : Bytes} {r r' : Registry} {c : Channel}

/-- Messages are called in order, and what is not called waits. -/
theorem react_conserves (hopen : c.isOpen = true) (hvalid : c.Valid) (event : ChannelEvent)
    (hstop : event ≠ .stop) :
    calledBy .message (c.react event).2 ++ (c.react event).1.queued =
      c.queued ++ accepted c.slots [event] := by
  cases event with
  | dispatch slot msg =>
    by_cases hslot : slot < c.slots <;>
      simp [Channel.react, Channel.dispatch, Channel.isOpenAt, Channel.queued, accepted, calledBy,
        hopen, hslot]
  | suspend slot msg =>
    by_cases hslot : slot < c.slots <;>
      simp [Channel.react, Channel.suspend, Channel.isOpenAt, Channel.queued, accepted, calledBy,
        hopen, hslot]
  | stop => exact absurd rfl hstop
  | run =>
    rw [Channel.react]
    cases hstrand : c.strand with
    | nil => simp [Channel.run_nil hstrand, Channel.queued, accepted, calledBy, hopen]
    | cons handler strand =>
      cases handler with
      | dispatch slot msg =>
        have hslot : c.isOpenAt slot = true :=
          Channel.isOpenAt_iff.mpr ⟨hopen, hvalid slot msg (by simp [hstrand])⟩
        rw [Channel.run_dispatch hstrand, Channel.handle_of_isOpenAt hslot]
        simp [Channel.queued, accepted, calledBy, hopen, hstrand]
      | stop =>
        simp [Channel.run_stop hstrand, Channel.queued, accepted, calledBy, hopen, hstrand]
  | cancelTimer => simp [Channel.react, Channel.cancelTimer, Channel.queued, accepted, calledBy,
      hopen]
  | expire => simp [Channel.react, Channel.expire, Channel.queued, accepted, calledBy, hopen]
  | complete n =>
    rw [Channel.react]
    cases hcompleted : c.completed[n]? with
    | none => simp [Channel.complete_none hcompleted, Channel.queued, accepted, calledBy, hopen]
    | some completed =>
      obtain ⟨⟨slot, msg⟩, aborted⟩ := completed
      have hnone : calledBy .message (if aborted then [] else c.handle .timer slot msg) = [] := by
        cases aborted with
        | true => rfl
        | false => exact Channel.calledBy_handle_of_ne (by decide) slot msg
      rw [Channel.complete_some hcompleted]
      simp [Channel.queued, accepted, hopen, hnone]

/-- A channel is found after a change of some channel. -/
theorem find_map {id : ℕ} {channel : Channel} (members : List Member) :
    (members.map fun m => if m.id = id then { m with channel } else m).find? (fun m => m.id = i) =
      (members.find? fun m => m.id = i).map fun m =>
        if m.id = id then { m with channel } else m := by
  rw [List.find?_map]
  congr 2
  funext m
  simp only [Function.comp]
  split_ifs <;> rfl

theorem onChannel_self (hlock : r.lock i = some ⟨name, i, c⟩) (event : ChannelEvent) :
    (r.onChannel i event).1.lock i = some ⟨name, i, (c.react event).1⟩ ∧
      (r.onChannel i event).2 = (c.react event).2.map (.channel i) := by
  have hfind : r.members.find? (fun m => m.id = i) = some ⟨name, i, c⟩ := hlock
  simp only [Registry.onChannel, hlock, and_true]
  rw [Registry.lock, find_map, hfind]
  simp

theorem onChannel_of_ne {id : ℕ} (hne : id ≠ i) (event : ChannelEvent) :
    (r.onChannel id event).1.lock i = r.lock i ∧
      effectsOn i (r.onChannel id event).2 = [] := by
  cases hlock : r.lock id with
  | none =>
    simp only [Registry.onChannel, hlock, true_and]
    rfl
  | some m =>
    simp only [Registry.onChannel, hlock]
    constructor
    · rw [Registry.lock, find_map, Registry.lock]
      cases hfind : r.members.find? (fun m => m.id = i) with
      | none => rfl
      | some m' =>
        have hid : m'.id = i := by simpa using List.find?_some hfind
        have hother : m'.id ≠ id := fun h => hne (h.symm.trans hid)
        simp [hother]
    · refine List.filterMap_eq_nil_iff.mpr fun effect heffect => ?_
      obtain ⟨effect, -, rfl⟩ := List.mem_map.mp heffect
      exact if_neg hne

theorem effectsOn_self (effects : List ChannelEffect) :
    effectsOn i (effects.map (.channel i)) = effects := by
  rw [effectsOn, List.filterMap_map]
  refine (List.filterMap_congr fun effect _ => ?_).trans List.filterMap_some
  simp

/-- Whatever happens to a channel, the registry is not concerned. -/
theorem onChannel_eq (r : Registry) (id : ℕ) (event : ChannelEvent) :
    ∃ members, (r.onChannel id event).1 = { r with members } ∧
      members.map identity = r.members.map identity := by
  cases hlock : r.lock id with
  | none =>
    simp only [Registry.onChannel, hlock]
    exact ⟨r.members, rfl, rfl⟩
  | some m =>
    simp only [Registry.onChannel, hlock]
    refine ⟨_, rfl, ?_⟩
    rw [List.map_map]
    refine List.map_congr_left fun m' _ => ?_
    simp only [Function.comp]
    split_ifs <;> rfl

theorem stopAll_eq (r : Registry) (ids : List ℕ) :
    ∃ members, (r.stopAll ids).1 = { r with members } ∧
      members.map identity = r.members.map identity := by
  induction ids generalizing r with
  | nil => exact ⟨r.members, rfl, rfl⟩
  | cons id ids ih =>
    obtain ⟨members, hone, hidentity⟩ := onChannel_eq r id .stop
    obtain ⟨members', hmany, hidentity'⟩ := ih (r.onChannel id .stop).1
    refine ⟨members', ?_, ?_⟩
    · rw [Registry.stopAll]
      simp only [hmany]
      rw [hone]
    · rw [hidentity', hone]
      exact hidentity

theorem deliver_eq (names : ℕ → Bytes → ℕ) (slot : Bytes) (msg : List Obj) (r : Registry)
    (ids : List ℕ) :
    ∃ members, deliver names slot msg r ids = { r with members } ∧
      members.map identity = r.members.map identity := by
  induction ids generalizing r with
  | nil => exact ⟨r.members, rfl, rfl⟩
  | cons id ids ih =>
    obtain ⟨members, hone, hidentity⟩ := onChannel_eq r id (.dispatch (names id slot) msg)
    obtain ⟨members', hmany, hidentity'⟩ := ih (r.onChannel id (.dispatch (names id slot) msg)).1
    refine ⟨members', ?_, ?_⟩
    · rw [deliver, hmany, hone]
    · rw [hidentity', hone]
      exact hidentity

/-- Nothing happens to the table, or to the channel. -/
theorem Known.congr (h : Known i name r c) (hlock : r'.lock i = r.lock i)
    (hlist : r'.list = r.list) (hlast : r.lastId ≤ r'.lastId)
    (hup : r'.isShutdown = r.isShutdown) : Known i name r' c where
  lock := hlock.trans h.lock
  isOpen := h.isOpen
  valid := h.valid
  own := hlist ▸ h.own
  sorted := hlist ▸ h.sorted
  assigned := ⟨h.assigned.1, h.assigned.2.trans hlast⟩
  up := hup.trans h.up

theorem known_onChannel (h : Known i name r c) (event : ChannelEvent) (hstop : event ≠ .stop) :
    Known i name (r.onChannel i event).1 (c.react event).1 := by
  obtain ⟨members, hmembers, -⟩ := onChannel_eq r i event
  have hopen : (c.react event).1.isOpen = true := by
    rw [Channel.isOpen_react]
    cases event with
    | stop => exact absurd rfl hstop
    | _ => exact h.isOpen
  refine ⟨(onChannel_self h.lock event).1, hopen, Channel.valid_react h.valid, ?_, ?_, ?_, ?_⟩
  all_goals rw [hmembers]
  · exact h.own
  · exact h.sorted
  · exact h.assigned
  · exact h.up

theorem known_onChannel_of_ne (h : Known i name r c) {id : ℕ} (hne : id ≠ i)
    (event : ChannelEvent) : Known i name (r.onChannel id event).1 c := by
  obtain ⟨members, hmembers, -⟩ := onChannel_eq r id event
  refine h.congr (onChannel_of_ne hne event).1 ?_ ?_ ?_
  all_goals rw [hmembers]

theorem known_stopAll (h : Known i name r c) {ids : List ℕ} (hmem : i ∉ ids) :
    Known i name (r.stopAll ids).1 c ∧ effectsOn i (r.stopAll ids).2 = [] := by
  induction ids generalizing r with
  | nil => exact ⟨h, rfl⟩
  | cons id ids ih =>
    have hne : id ≠ i := fun heq => hmem (heq ▸ List.mem_cons_self)
    obtain ⟨hknown, heffects⟩ := ih (known_onChannel_of_ne h hne .stop)
      fun hi => hmem (List.mem_cons_of_mem _ hi)
    simp only [Registry.stopAll]
    refine ⟨hknown, ?_⟩
    rw [effectsOn_append, heffects, (onChannel_of_ne hne .stop).2]
    rfl

/-- A message that is dispatched to several channels reaches each of them as often as it is
among them. -/
theorem known_deliver (names : ℕ → Bytes → ℕ) (h : Known i name r c) (slot : Bytes)
    (msg : List Obj) (ids : List ℕ) :
    ∃ c', Known i name (deliver names slot msg r ids) c' ∧ c'.slots = c.slots ∧
      c'.queued = c.queued ++
        (List.replicate (ids.count i) (names i slot, msg)).filter fun wait => wait.1 < c.slots := by
  induction ids generalizing r c with
  | nil => exact ⟨c, h, rfl, by simp⟩
  | cons id ids ih =>
    rw [deliver]
    by_cases hid : id = i
    · subst hid
      obtain ⟨c', hknown, hslots, hqueued⟩ :=
        ih (known_onChannel h (.dispatch (names id slot) msg) (by simp))
      have hdispatch := react_conserves h.isOpen h.valid
        (.dispatch (names id slot) msg) (by simp)
      have hnone : calledBy .message (c.react (.dispatch (names id slot) msg)).2 = [] := by
        simp only [Channel.react, Channel.dispatch]
        split_ifs <;> rfl
      rw [hnone, List.nil_append] at hdispatch
      refine ⟨c', hknown, hslots.trans Channel.slots_react, ?_⟩
      rw [hqueued, hdispatch, Channel.slots_react, List.append_assoc, List.count_cons_self,
        List.replicate_succ]
      congr 1
      by_cases hslot : names id slot < c.slots <;> simp [accepted, hslot]
    · obtain ⟨c', hknown, hslots, hqueued⟩ := ih (known_onChannel_of_ne h hid _)
      refine ⟨c', hknown, hslots, ?_⟩
      rw [hqueued, List.count_cons_of_ne hid]

/-! ### Who is found -/

/-- The channel that an entry leads to. -/
def target (r : Registry) (name : Bytes) (e : ℕ × ℕ) : Option ℕ :=
  (r.lock e.2).bind fun m => if m.name = name then some m.id else none

theorem lookup_eq (r : Registry) (channel : Bytes) :
    r.lookup channel = r.list.filterMap (target r channel) := by
  rw [Registry.lookup, List.filterMap_filterMap]
  rfl

theorem target_eq_some_iff (h : Known i name r c) {channel : Bytes} {e : ℕ × ℕ}
    (he : e ∈ r.list) : target r channel e = some i ↔ e = (i, i) ∧ channel = name := by
  constructor
  · intro htarget
    obtain ⟨m, hlock, hname⟩ := Option.bind_eq_some_iff.mp htarget
    split_ifs at hname with hchannel
    obtain rfl := Option.some.inj hname
    -- the entry of a channel is stored under its id
    obtain ⟨hid, -⟩ := Registry.mem_ids_of_lock hlock
    have hown := h.own e he (Or.inr hid.symm)
    rw [hown, h.lock] at hlock
    exact ⟨hown, (Option.some.inj hlock ▸ hchannel).symm⟩
  · rintro ⟨rfl, rfl⟩
    simp [target, h.lock]

theorem nodup_list (h : Known i name r c) : r.list.Nodup :=
  h.sorted.imp fun hlt heq => (heq ▸ hlt).false

/-- Among the channels of a name, an open channel occurs once, as soon as it is in the table. -/
theorem count_lookup (h : Known i name r c) (channel : Bytes) :
    (r.lookup channel).count i = if (i, i) ∈ r.list ∧ channel = name then 1 else 0 := by
  rw [lookup_eq, List.count_filterMap]
  by_cases hchannel : channel = name
  · rw [List.countP_congr (q := fun e => e == (i, i)) fun e he => by
      simp [target_eq_some_iff h he, hchannel]]
    rw [← List.count, (nodup_list h).count]
    simp [hchannel]
  · rw [if_neg fun hboth => hchannel hboth.2, List.countP_eq_zero]
    intro e he
    simp [target_eq_some_iff h he, hchannel]

/-- The channel that is found under an id. -/
def found (r : Registry) (id : ℕ) : Option ℕ :=
  (r.list.find? fun e => e.1 = id).bind fun e => (r.lock e.2).map Member.id

theorem found_eq_some_iff (h : Known i name r c) (id : ℕ) :
    found r id = some i ↔ id = i ∧ (i, i) ∈ r.list := by
  constructor
  · intro hfound
    obtain ⟨e, hfind, hlock⟩ := Option.bind_eq_some_iff.mp hfound
    obtain ⟨m, hm, rfl⟩ := Option.map_eq_some_iff.mp hlock
    obtain ⟨hid, -⟩ := Registry.mem_ids_of_lock hm
    have hmem := List.mem_of_find?_eq_some hfind
    have hkey : e.1 = id := by simpa using List.find?_some hfind
    have hown := h.own e hmem (Or.inr hid.symm)
    rw [hown] at hkey hmem
    exact ⟨hkey.symm, hmem⟩
  · rintro ⟨rfl, hmem⟩
    have hfind : r.list.find? (fun e => e.1 = id) = some (id, id) := by
      cases hfind : r.list.find? (fun e => e.1 = id) with
      | none =>
        have hnone := List.find?_eq_none.mp hfind _ hmem
        simp at hnone
      | some e =>
        have hkey : e.1 = id := by simpa using List.find?_some hfind
        rw [h.own e (List.mem_of_find?_eq_some hfind) (Or.inl hkey)]
    simp [found, hfind, h.lock]

/-- A request finds an open channel as often as it is meant to, as soon as the channel is in the
table. -/
theorem count_recipients (h : Known i name r c) {request : Request}
    (hlone : ∀ tag slot msg, request = .forward tag slot msg → tag = name → (i, i) ∈ r.list →
      ∀ m ∈ r.members, m.name = name → m.id = i) :
    List.replicate ((request.recipients r).count i) (names i request.slot, request.msg) =
      if (i, i) ∈ r.list then mail names i name (.inr request) else [] := by
  cases request with
  | dispatchTo tasks slot msg =>
    simp only [Request.recipients, Request.slot, Request.msg, mail, List.count_filterMap]
    change List.replicate (tasks.countP fun id => found r id == some i) _ = _
    split_ifs with hmem
    · rw [List.countP_congr (q := fun id => id == i) fun id _ => by
        simp [found_eq_some_iff h, hmem]]
      rfl
    · rw [List.countP_eq_zero.mpr fun id _ => by simp [found_eq_some_iff h, hmem]]
      rfl
  | dispatchName channel slot msg =>
    simp only [Request.recipients, Request.slot, Request.msg, mail, count_lookup h]
    by_cases hmem : (i, i) ∈ r.list <;> by_cases hchannel : channel = name <;>
      simp [hmem, hchannel]
  | dispatchId channel slot msg =>
    simp only [Request.recipients, Request.slot, Request.msg, mail]
    change List.replicate ((found r channel).toList.count i) _ = _
    have hfound := found_eq_some_iff h channel
    cases htarget : found r channel with
    | none =>
      rw [htarget] at hfound
      by_cases hmem : (i, i) ∈ r.list <;> by_cases hchannel : channel = i <;>
        simp_all
    | some id =>
      rw [htarget] at hfound
      by_cases hmem : (i, i) ∈ r.list <;> by_cases hid : id = i <;>
        by_cases hchannel : channel = i <;> simp_all
  | dispatchExclude id channel slot msg =>
    simp only [Request.recipients, Request.slot, Request.msg, mail]
    have hid : Registry.getId ⟨name, i, c⟩ = i := by simp [Registry.getId, h.isOpen]
    by_cases hsource : id = i
    · -- the channel itself is left out
      have hnot : i ∉ (r.lookup channel).filter fun source =>
          (r.lock source).map Registry.getId ≠ some id := by
        rw [List.mem_filter]
        rintro ⟨-, hne⟩
        simp [h.lock, hid, hsource] at hne
      rw [List.count_eq_zero_of_not_mem hnot]
      simp [hsource]
    · rw [List.count_filter (by simpa [h.lock, hid] using Ne.symm hsource), count_lookup h]
      by_cases hmem : (i, i) ∈ r.list <;> by_cases hchannel : channel = name <;>
        simp [hmem, hchannel, hsource]
  | forward tag slot msg =>
    simp only [Request.recipients, Request.slot, Request.msg, mail]
    have hcount := count_lookup h tag
    by_cases hboth : (i, i) ∈ r.list ∧ tag = name
    · obtain ⟨hmem, rfl⟩ := hboth
      have honly := hlone tag slot msg rfl rfl hmem
      -- nobody else has the name
      have hall : ∀ id ∈ r.lookup tag, id = i := by
        intro id hid
        rw [lookup_eq] at hid
        obtain ⟨e, -, htarget⟩ := List.mem_filterMap.mp hid
        obtain ⟨m, hlock, hname⟩ := Option.bind_eq_some_iff.mp htarget
        split_ifs at hname with hm
        obtain rfl := Option.some.inj hname
        exact honly m (List.mem_of_find?_eq_some hlock) hm
      rw [if_pos ⟨hmem, rfl⟩] at hcount
      cases hlookup : r.lookup tag with
      | nil => simp [hlookup] at hcount
      | cons id ids =>
        obtain rfl := hall id (hlookup ▸ List.mem_cons_self)
        simp [hmem]
    · rw [if_neg hboth] at hcount
      have hnot : i ∉ (r.lookup tag).head?.toList := by
        intro hmem
        exact List.count_eq_zero.mp hcount (List.mem_of_mem_head? (Option.mem_toList.mp hmem))
      rw [List.count_eq_zero_of_not_mem hnot]
      by_cases hmem : (i, i) ∈ r.list
      · have htag : tag ≠ name := fun htag => hboth ⟨hmem, htag⟩
        simp [hmem, htag]
      · simp [hmem]

theorem handled_request (h : Known i name r c) {request : Request}
    (hlone : ∀ tag slot msg, request = .forward tag slot msg → tag = name → (i, i) ∈ r.list →
      ∀ m ∈ r.members, m.name = name → m.id = i)
    (hrun : perform b names r request = .ok r') :
    ∃ c', Handled names i name r c (.inr request) r' c' := by
  obtain ⟨_, -, hdeliver⟩ := bind_eq_ok_iff.mp hrun
  obtain rfl := Except.ok.inj hdeliver
  obtain ⟨c', hknown, hslots, hqueued⟩ :=
    known_deliver names h request.slot request.msg (request.recipients r)
  obtain ⟨members, hmembers, hidentity⟩ :=
    deliver_eq names request.slot request.msg r (request.recipients r)
  refine ⟨c', hknown, hslots, ?_, ?_, ?_⟩
  · rw [hmembers]
    exact hidentity
  · rw [hmembers]
    simp
  · rw [hqueued, count_recipients h hlone]

theorem mem_list_insert {id : ℕ} (hid : id ∉ r.list.map Prod.fst) {x : ℕ} :
    (id, x) ∈ OrderedMap.insert id x r.list := by
  obtain ⟨y, hy⟩ := OrderedMap.exists_mem_insert (k := id) (x := x) (m := r.list)
  rcases OrderedMap.mem_insert hy with heq | hmem
  · exact heq ▸ hy
  · exact absurd (List.mem_map_of_mem hmem) hid

/-- An insertion keeps what is in the table, and adds at most the entry of its channel. -/
theorem handled_insert (h : Known i name r c) {id : ℕ} {strand : List RegistryHandler} {m : Member}
    (hlock : r.lock id = some m) :
    Handled names i name r c (.inl (.insert id))
      { r with strand, list := OrderedMap.insert (Registry.getId m) id r.list } c := by
  obtain ⟨hid, -⟩ := Registry.mem_ids_of_lock hlock
  have hqueued : (if (i, i) ∈ r.list then mail names i name (.inl (.insert id)) else []) = [] := by
    simp [mail]
  by_cases heq : id = i
  · subst heq
    -- the channel is open, so it is stored under its id
    obtain rfl := Option.some.inj (h.lock.symm.trans hlock)
    have hkey : Registry.getId ⟨name, id, c⟩ = id := by simp [Registry.getId, h.isOpen]
    rw [hkey]
    refine ⟨⟨h.lock, h.isOpen, h.valid, fun x hx hown => ?_, OrderedMap.sorted_insert h.sorted,
      h.assigned, h.up⟩, rfl, rfl, ?_, by rw [hqueued]; simp⟩
    · rcases OrderedMap.mem_insert hx with rfl | hx
      · rfl
      · exact h.own x hx hown
    · refine ⟨fun _ => Or.inr rfl, fun _ => ?_⟩
      by_cases hmem : (id, id) ∈ r.list
      · exact OrderedMap.mem_insert_of_mem hmem
      · apply mem_list_insert
        intro hkey
        obtain ⟨x, hx, hfst⟩ := List.mem_map.mp hkey
        exact hmem (h.own x hx (Or.inl hfst) ▸ hx)
  · have hne : Registry.getId m ≠ i := by
      simp only [Registry.getId, hid]
      split_ifs
      · exact heq
      · exact h.assigned.1.ne
    refine ⟨⟨h.lock, h.isOpen, h.valid, fun x hx hown => ?_, OrderedMap.sorted_insert h.sorted,
      h.assigned, h.up⟩, rfl, rfl, ?_, by rw [hqueued]; simp⟩
    · rcases OrderedMap.mem_insert hx with rfl | hx
      · exact absurd hown (by simp [hne, heq])
      · exact h.own x hx hown
    · constructor
      · intro hmem
        rcases OrderedMap.mem_insert hmem with hsame | hmem
        · exact absurd (Prod.mk.inj hsame).2.symm heq
        · exact Or.inl hmem
      · rintro (hmem | hinsert)
        · exact OrderedMap.mem_insert_of_mem hmem
        · exact absurd (RegistryHandler.insert.inj (Sum.inl.inj hinsert)) heq

/-- A handler of the strand does to an open channel what it should, unless it removes or stops
the channel. -/
theorem handled_handler (names : ℕ → Bytes → ℕ) (h : Known i name r c) {handler : RegistryHandler}
    {strand : List RegistryHandler} {effects : List RegistryEffect}
    (hstrand : r.strand = handler :: strand) (hremove : handler ≠ .remove i)
    (hstop : (i, i) ∈ r.list → handler ≠ .stop name)
    (hrun : Registry.run b r = .ok (r', effects)) :
    ∃ c', Handled names i name r c (.inl handler) r' c' ∧ effectsOn i effects = [] := by
  have hsame (strand : List RegistryHandler) : Known i name { r with strand } c :=
    h.congr rfl rfl le_rfl rfl
  rw [Registry.run, hstrand] at hrun
  cases handler with
  | insert id =>
    simp only at hrun
    split at hrun
    · next hlock =>
      -- without the channel nothing happens, so it is not the one we look at
      obtain ⟨rfl, rfl⟩ := Prod.mk.inj (Except.ok.inj hrun)
      have hne : id ≠ i := fun heq => by simp [heq, h.lock] at hlock
      exact ⟨c, ⟨hsame strand, rfl, rfl, by simp [hne], by simp [mail]⟩, rfl⟩
    · next m hlock =>
      obtain ⟨_, -, hok⟩ := bind_eq_ok_iff.mp hrun
      obtain ⟨rfl, rfl⟩ := Prod.mk.inj (Except.ok.inj hok)
      exact ⟨c, handled_insert h hlock, rfl⟩
  | remove id =>
    obtain ⟨rfl, rfl⟩ := Prod.mk.inj (Except.ok.inj hrun)
    have hne : i ≠ id := fun heq => hremove (heq ▸ rfl)
    refine ⟨c, ⟨⟨h.lock, h.isOpen, h.valid, ?_, ?_, h.assigned, h.up⟩, rfl, rfl, ?_,
      by simp [mail]⟩, rfl⟩
    · exact fun x hx => h.own x (List.mem_of_mem_filter hx)
    · exact h.sorted.filter _
    · simp [hne]
  | stop channel =>
    obtain ⟨rfl, rfl⟩ := Prod.mk.inj (Except.ok.inj hrun)
    have hnot : i ∉ r.lookup channel := by
      rw [← List.count_eq_zero, count_lookup h]
      apply if_neg
      rintro ⟨hmem, hname⟩
      exact hstop hmem (by rw [hname])
    obtain ⟨hknown, heffects⟩ := known_stopAll (hsame strand) hnot
    obtain ⟨members, hmembers, hidentity⟩ := stopAll_eq { r with strand } (r.lookup channel)
    refine ⟨c, ⟨hknown, rfl, ?_, ?_, by simp [mail]⟩, heffects⟩
    · rw [hmembers]
      exact hidentity
    · rw [hmembers]
      simp
  | dispatch id slot msg =>
    simp only at hrun
    split at hrun
    · next hfind =>
      obtain ⟨rfl, rfl⟩ := Prod.mk.inj (Except.ok.inj hrun)
      refine ⟨c, ⟨hsame strand, rfl, rfl, by simp, ?_⟩, rfl⟩
      split_ifs with hmem
      · have hne : id ≠ i := fun heq => by
          have hnone := List.find?_eq_none.mp hfind _ hmem
          simp [heq] at hnone
        simp [mail, hne]
      · simp
    · next e hfind =>
      obtain rfl : _ = r' := congrArg Prod.fst (Except.ok.inj hrun)
      obtain rfl : _ = effects := congrArg Prod.snd (Except.ok.inj hrun)
      have hmem := List.mem_of_find?_eq_some hfind
      have hkey : e.1 = id := by simpa using List.find?_some hfind
      obtain ⟨members, hmembers, hidentity⟩ :=
        onChannel_eq { r with strand } e.2 (.dispatch slot msg)
      by_cases htarget : e.2 = i
      · have hown := h.own e hmem (Or.inr htarget)
        rw [hown] at hmem hkey
        have hdispatch := react_conserves h.isOpen h.valid (.dispatch slot msg) (by simp)
        have hnone : (c.react (.dispatch slot msg)).2 = [] := by
          simp only [Channel.react, Channel.dispatch]
          split_ifs <;> rfl
        obtain ⟨-, heffects⟩ := onChannel_self (hsame strand).lock (.dispatch slot msg)
        rw [htarget] at hmembers ⊢
        refine ⟨_, ⟨known_onChannel (hsame strand) _ (by simp), Channel.slots_react, ?_, ?_, ?_⟩,
          ?_⟩
        · rw [hmembers]
          exact hidentity
        · rw [hmembers]
          simp
        · rw [hnone] at hdispatch
          rw [if_pos hmem, mail, if_pos hkey.symm]
          simpa [calledBy, accepted, List.filter_cons] using hdispatch
        · rw [heffects, hnone]
          rfl
      · have hne : id ≠ i := fun heq =>
          htarget (congrArg Prod.snd (h.own e hmem (Or.inl (hkey.trans heq))))
        refine ⟨c, ⟨known_onChannel_of_ne (hsame strand) htarget _, rfl, ?_, ?_,
          by simp [mail, hne]⟩, (onChannel_of_ne htarget _).2⟩
        · rw [hmembers]
          exact hidentity
        · rw [hmembers]
          simp

end Registries

end Exchange

end Task

end Cyng
