import Cyng.Obj.Intrinsics
import Cyng.Theory.Machine
import Mathlib.Data.List.NodupEquivFin

/-!
# How the client connects

For each request to connect, the client opens the channel of a resolver, which looks up the host,
tries the endpoints one after the other and calls back with a socket that is connected, or with one
that is not. The callback stops the resolver that the client has then, and lets go of it.

The operation of the socket does not own the resolver, and the callback does not ask which resolver
it comes from. A second request replaces the resolver of the first one: the channel goes and the
task with it, while the handler of the socket still comes. Or the callback of the first one stops
the second one, which is never heard of again, or the callback of the second one finds no resolver
to stop. So all requests are answered exactly when none of them came while a resolver was at work.
-/

namespace Cyng

open Theory

namespace Net

variable {E : Type}

/-! ### Resolvers -/

/-- What waits on the strand of a resolver. -/
inductive ResolverHandler
  | connect
  | stop
deriving DecidableEq

/-- `resolver`, and its channel -/
structure Resolver (E : Type) where
  /-- what the callback was given -/
  host : Bytes
  service : Bytes
  /-- the channel has the task -/
  isOpen : Bool
  strand : List ResolverHandler
  /-- the task was not deleted -/
  alive : Bool
  endpoints : List E
  /-- the position of the endpoint that the socket is connected to, until the handler comes -/
  connecting : Option ℕ

namespace Resolver

/-- There is no such resolver. -/
def absent : Resolver E := ⟨[], [], false, [], false, [], none⟩

/-- A resolver that was told to connect. -/
def opened (host service : Bytes) : Resolver E :=
  ⟨host, service, true, [.connect], true, [], none⟩

/-- The resolver has nothing more to do. -/
def Through (r : Resolver E) : Prop := .connect ∉ r.strand ∧ r.connecting = none

instance instDecidableThrough (r : Resolver E) : Decidable r.Through :=
  inferInstanceAs (Decidable (.connect ∉ r.strand ∧ r.connecting = none))

end Resolver

/-- The part of `client` that connects, and the resolvers by the order in which they were opened. -/
structure Connector (E : Type) where
  /-- the task was not deleted -/
  alive : Bool
  /-- `resolver_` -/
  resolver : Option ℕ
  opened : ℕ
  resolvers : ℕ → Resolver E

/-- What happens to them. -/
inductive ConnectorEvent (E : Type)
  /-- `client::connect`, because someone asked for it or because it is time to try again -/
  | connect (host service : Bytes)
  /-- the last handler of the client: the task is deleted -/
  | stop
  /-- a handler of a resolver, with what is found for the host and what `cb_failed_` would answer -/
  | run (i : ℕ) (found : Except ErrorCode (List E)) (retry : Option ℕ)
  /-- the socket of a resolver is connected, or not -/
  | handleConnect (i : ℕ) (isOpen : Bool) (ec : Option ErrorCode) (retry : Option ℕ)

/-- What they do. -/
inductive ConnectorEffect (E : Type)
  | asyncConnect (i : ℕ) (endpoint : E)
  /-- `cb_connect_`, for the socket of a resolver, and the first read -/
  | connected (i : ℕ) (endpoint : E)
  /-- `cb_failed_`, for the socket of a resolver -/
  | failed (i : ℕ)
  /-- the client will connect again -/
  | suspend (timeout : ℕ) (host service : Bytes)
  /-- the channel of a resolver is stopped -/
  | stopped (i : ℕ)
deriving DecidableEq

namespace Connector

def initial : Connector E := ⟨true, none, 0, fun _ => .absent⟩

variable (c : Connector E)

def set (i : ℕ) (r : Resolver E) : Connector E :=
  { c with resolvers := Function.update c.resolvers i r }

/-- Who had the channel lets go of it: when no one else has it, it goes, and its task. -/
def letGo (i : ℕ) : Connector E :=
  if c.resolver ≠ some i ∧ (c.resolvers i).strand = [] ∧ (c.resolvers i).isOpen then
    c.set i { c.resolvers i with alive := false }
  else c

/-- `resolver_` gets another value. -/
def replace (next : Option ℕ) : Connector E :=
  match c.resolver with
  | none => { c with resolver := next }
  | some i => letGo { c with resolver := next } i

/-- `channel::stop` -/
def stopChannel (i : ℕ) : Connector E × List (ConnectorEffect E) :=
  if (c.resolvers i).isOpen then
    (c.set i { c.resolvers i with
      isOpen := false, strand := (c.resolvers i).strand ++ [.stop] }, [.stopped i])
  else (c, [])

/-- `client::connect` -/
def connect (host service : Bytes) : Connector E :=
  if c.alive then
    replace { c.set c.opened (.opened host service) with opened := c.opened + 1 } (some c.opened)
  else c

/-- The end of the client: what it has is deleted with it. -/
def stop : Connector E := if c.alive then { c.replace none with alive := false } else c

/-- The callback of `client::connect`, with the endpoint of the socket if it is connected. -/
def callback (i : ℕ) (endpoint : Option E) (retry : Option ℕ) :
    Except Fault (Connector E × List (ConnectorEffect E)) :=
  if c.alive then
    let effects := match endpoint with
      | some endpoint => [.connected i endpoint]
      | none => .failed i :: retry.toList.map fun timeout =>
        .suspend timeout (c.resolvers i).host (c.resolvers i).service
    match c.resolver with
    | none => .error (.undefined "resolver_")
    | some j =>
      let (c, stopped) := stopChannel { c with resolver := none } j
      .ok (c, effects ++ stopped)
  else .error (.undefined "client")

/-- `resolver::connect_next` -/
def connectNext (i : ℕ) (pos : ℕ) (retry : Option ℕ) :
    Except Fault (Connector E × List (ConnectorEffect E)) :=
  match (c.resolvers i).endpoints[pos]? with
  | some endpoint =>
    .ok (c.set i { c.resolvers i with connecting := some pos }, [.asyncConnect i endpoint])
  | none => c.callback i none retry

/-- `resolver::connect` -/
def resolve (i : ℕ) (found : Except ErrorCode (List E)) (retry : Option ℕ) :
    Except Fault (Connector E × List (ConnectorEffect E)) :=
  match found with
  | .ok endpoints => connectNext (c.set i { c.resolvers i with endpoints := endpoints }) i 0 retry
  | .error _ => callback (c.set i { c.resolvers i with endpoints := [] }) i none retry

/-- The next handler on the strand of a resolver, which has the channel as long as it runs. -/
def run (i : ℕ) (found : Except ErrorCode (List E)) (retry : Option ℕ) :
    Except Fault (Connector E × List (ConnectorEffect E)) :=
  match (c.resolvers i).strand with
  | [] => .ok (c, [])
  | .stop :: strand => .ok (c.set i { c.resolvers i with strand := strand, alive := false }, [])
  | .connect :: strand => do
    let taken := c.set i { c.resolvers i with strand := strand }
    if (c.resolvers i).isOpen then
      let (c, effects) ← taken.resolve i found retry
      .ok (c.letGo i, effects)
    else .ok (taken.letGo i, [])

/-- `resolver::on_connect` -/
def handleConnect (i : ℕ) (isOpen : Bool) (ec : Option ErrorCode) (retry : Option ℕ) :
    Except Fault (Connector E × List (ConnectorEffect E)) :=
  match (c.resolvers i).connecting with
  | none => .ok (c, [])
  | some pos =>
    if (c.resolvers i).alive then
      let done := c.set i { c.resolvers i with connecting := none }
      if isOpen ∧ ec = none then done.callback i (c.resolvers i).endpoints[pos]? retry
      else done.connectNext i (pos + 1) retry
    else .error (.undefined "resolver")

def step : Step (Connector E) (ConnectorEvent E) (ConnectorEffect E) Fault := fun c event =>
  match event with
  | .connect host service => .ok (c.connect host service, [])
  | .stop => .ok (c.stop, [])
  | .run i found retry => c.run i found retry
  | .handleConnect i isOpen ec retry => c.handleConnect i isOpen ec retry

/-- A request, or the end of the client, while a resolver is at work. -/
def Abandons (c : Connector E) : ConnectorEvent E → Prop
  | .connect _ _ | .stop => c.alive = true ∧ c.resolver ≠ none
  | .run _ _ _ | .handleConnect _ _ _ _ => False

instance instDecidableAbandons (c : Connector E) :
    (event : ConnectorEvent E) → Decidable (c.Abandons event)
  | .connect _ _ | .stop => inferInstanceAs (Decidable (c.alive = true ∧ c.resolver ≠ none))
  | .run _ _ _ | .handleConnect _ _ _ _ => isFalse not_false

/-- No resolver has anything to do. -/
def Settled : Prop := ∀ i < c.opened, (c.resolvers i).Through

instance instDecidableSettled : Decidable c.Settled :=
  inferInstanceAs (Decidable (∀ i < c.opened, (c.resolvers i).Through))

end Connector

/-- The requests that a client gets before its end. -/
def requests : List (ConnectorEvent E) → ℕ
  | [] => 0
  | .connect _ _ :: events => requests events + 1
  | .stop :: _ => 0
  | .run _ _ _ :: events | .handleConnect _ _ _ _ :: events => requests events

/-- The resolvers that called back. -/
def answered (effects : List (ConnectorEffect E)) : List ℕ :=
  effects.filterMap fun
    | .connected i _ | .failed i => some i
    | _ => none

/-- The resolvers that were stopped. -/
def stopped (effects : List (ConnectorEffect E)) : List ℕ :=
  effects.filterMap fun
    | .stopped i => some i
    | _ => none

/-- The endpoints that a resolver tried. -/
def tried (i : ℕ) (effects : List (ConnectorEffect E)) : List E :=
  effects.filterMap fun
    | .asyncConnect j endpoint => if j = i then some endpoint else none
    | _ => none

section Effects

variable {i : ℕ} {effects effects' : List (ConnectorEffect E)}

@[simp] theorem answered_append :
    answered (effects ++ effects') = answered effects ++ answered effects' :=
  List.filterMap_append

@[simp] theorem stopped_append :
    stopped (effects ++ effects') = stopped effects ++ stopped effects' :=
  List.filterMap_append

@[simp] theorem tried_append :
    tried i (effects ++ effects') = tried i effects ++ tried i effects' :=
  List.filterMap_append

end Effects

namespace Connector

variable {c c' : Connector E} {i j k pos : ℕ} {r : Resolver E} {next : Option ℕ}
  {effects : List (ConnectorEffect E)} {found : Except ErrorCode (List E)} {retry : Option ℕ}

/-! ### Operations on one resolver -/

@[simp] theorem set_self : (c.set i r).resolvers i = r := Function.update_self ..

theorem set_of_ne (h : k ≠ i) : (c.set i r).resolvers k = c.resolvers k :=
  Function.update_of_ne h ..

@[simp] theorem set_alive : (c.set i r).alive = c.alive := rfl

@[simp] theorem set_resolver : (c.set i r).resolver = c.resolver := rfl

@[simp] theorem set_opened : (c.set i r).opened = c.opened := rfl

/-- A channel that goes takes its task with it, and changes nothing else. -/
theorem exists_letGo (c : Connector E) (i : ℕ) :
    ∃ alive, c.letGo i = c.set i { c.resolvers i with alive := alive } := by
  unfold letGo
  split
  · exact ⟨false, rfl⟩
  · refine ⟨(c.resolvers i).alive, ?_⟩
    rw [set, Function.update_eq_self]

@[simp] theorem letGo_alive : (c.letGo i).alive = c.alive := by
  obtain ⟨alive, h⟩ := exists_letGo c i
  rw [h, set_alive]

@[simp] theorem letGo_resolver : (c.letGo i).resolver = c.resolver := by
  obtain ⟨alive, h⟩ := exists_letGo c i
  rw [h, set_resolver]

@[simp] theorem letGo_opened : (c.letGo i).opened = c.opened := by
  obtain ⟨alive, h⟩ := exists_letGo c i
  rw [h, set_opened]

theorem exists_letGo_resolvers (c : Connector E) (i k : ℕ) :
    ∃ alive, (c.letGo i).resolvers k = { c.resolvers k with alive := alive } := by
  obtain ⟨alive, h⟩ := exists_letGo c i
  rw [h]
  rcases eq_or_ne k i with rfl | hne
  · exact ⟨alive, set_self⟩
  · exact ⟨(c.resolvers k).alive, set_of_ne hne⟩

/-- The channel of the current resolver stays. -/
theorem letGo_of_current (h : c.resolver = some i) : c.letGo i = c := by
  rw [letGo, if_neg]
  exact fun hall => hall.1 h

@[simp] theorem replace_resolver : (c.replace next).resolver = next := by
  unfold replace
  split
  · rfl
  · exact letGo_resolver

@[simp] theorem replace_opened : (c.replace next).opened = c.opened := by
  unfold replace
  split
  · rfl
  · exact letGo_opened

@[simp] theorem replace_alive : (c.replace next).alive = c.alive := by
  unfold replace
  split
  · rfl
  · exact letGo_alive

theorem exists_replace_resolvers (c : Connector E) (next : Option ℕ) (k : ℕ) :
    ∃ alive, (c.replace next).resolvers k = { c.resolvers k with alive := alive } := by
  unfold replace
  split
  · exact ⟨(c.resolvers k).alive, rfl⟩
  · exact exists_letGo_resolvers _ _ k

/-- Where there is no current resolver, nothing goes. -/
theorem replace_of_none (h : c.resolver = none) :
    c.replace next = { c with resolver := next } := by
  rw [replace, h]

/-- The callback stops the current resolver. That is all it does to resolvers. -/
theorem callback_cases {socket : Option E}
    (hcall : c.callback i socket retry = .ok (c', effects)) :
    ∃ j, c.resolver = some j ∧ c' = { (c.stopChannel j).1 with resolver := none } ∧
      stopped effects = stopped (c.stopChannel j).2 ∧ answered effects = [i] ∧
      (∀ k, tried k effects = []) ∧
      (∀ endpoint, .connected i endpoint ∈ effects → socket = some endpoint) ∧
      (.failed i ∈ effects → socket = none) := by
  unfold callback at hcall
  split at hcall
  · cases hcurrent : c.resolver with
    | none =>
      rw [hcurrent] at hcall
      exact absurd hcall (by simp)
    | some j =>
      simp only [hcurrent, stopChannel] at hcall
      refine ⟨j, rfl, ?_⟩
      unfold stopChannel
      split at hcall
      · rename_i hopen
        obtain ⟨rfl, rfl⟩ := Prod.mk.inj (Except.ok.inj hcall)
        rw [if_pos hopen]
        refine ⟨rfl, ?_⟩
        cases socket <;> cases retry <;> simp [tried, answered, stopped]
      · rename_i hclosed
        obtain ⟨rfl, rfl⟩ := Prod.mk.inj (Except.ok.inj hcall)
        rw [if_neg hclosed]
        refine ⟨rfl, ?_⟩
        cases socket <;> cases retry <;> simp [tried, answered, stopped]
  · exact absurd hcall (by simp)

/-- Stopping the channel leaves its work to a resolver. -/
theorem stopChannel_work (c : Connector E) (j k : ℕ) :
    ((c.stopChannel j).1.resolvers k).endpoints = (c.resolvers k).endpoints ∧
      ((c.stopChannel j).1.resolvers k).connecting = (c.resolvers k).connecting ∧
      (.connect ∈ ((c.stopChannel j).1.resolvers k).strand ↔ .connect ∈ (c.resolvers k).strand) ∧
      (.connect ∉ (c.resolvers k).strand.tail →
        .connect ∉ ((c.stopChannel j).1.resolvers k).strand.tail) := by
  unfold stopChannel
  split
  · rcases eq_or_ne k j with rfl | hne
    · dsimp only
      rw [set_self]
      refine ⟨rfl, rfl, by simp, fun honce => ?_⟩
      cases hstrand : (c.resolvers k).strand with
      | nil => simp
      | cons first rest =>
        rw [hstrand] at honce
        simpa using honce
    · dsimp only
      rw [set_of_ne hne]
      exact ⟨rfl, rfl, Iff.rfl, id⟩
  · exact ⟨rfl, rfl, Iff.rfl, id⟩

/-! ### Every callback stops one resolver -/

/-- What holds in every run, for the resolvers that have called back and those that were stopped:
they are equally many. A resolver that is busy just now may have done its work already. -/
structure Kept (busy : ℕ → Prop) (c : Connector E) (answered stopped : List ℕ) : Prop where
  answered_nodup : answered.Nodup
  stopped_nodup : stopped.Nodup
  length_eq : answered.length = stopped.length
  answered_through : ∀ i ∈ answered, i < c.opened ∧ (c.resolvers i).Through
  stopped_lt : ∀ i ∈ stopped, i < c.opened
  isOpen_iff : ∀ i < c.opened, (c.resolvers i).isOpen = true ↔ i ∉ stopped
  accounted : ∀ i < c.opened, ¬busy i → (c.resolvers i).Through → i ∈ answered ∨ i ∈ stopped
  current : ∀ i, c.resolver = some i → i < c.opened ∧ i ∉ answered ∧ i ∉ stopped
  waits : ∀ i, .connect ∈ (c.resolvers i).strand → (c.resolvers i).connecting = none
  once : ∀ i, .connect ∉ (c.resolvers i).strand.tail
  absent : ∀ i, c.opened ≤ i → (c.resolvers i).strand = [] ∧ (c.resolvers i).connecting = none ∧
    (c.resolvers i).endpoints = []

/-- Between two steps no resolver is busy. -/
abbrev KeptAll (c : Connector E) (a s : List ℕ) : Prop := Kept (fun _ => False) c a s

variable {a s : List ℕ} {busy busy' : ℕ → Prop}

theorem keptAll_initial : KeptAll (initial : Connector E) [] [] where
  answered_nodup := List.nodup_nil
  stopped_nodup := List.nodup_nil
  length_eq := rfl
  answered_through _ h := absurd h List.not_mem_nil
  stopped_lt _ h := absurd h List.not_mem_nil
  isOpen_iff i h := absurd h (Nat.not_lt_zero i)
  accounted i h := absurd h (Nat.not_lt_zero i)
  current i h := absurd h.symm (Option.some_ne_none i)
  waits _ _ := rfl
  once _ := List.not_mem_nil
  absent _ _ := ⟨rfl, rfl, rfl⟩

/-- Who lets go of a channel deletes at most a task. -/
theorem Kept.of_alive (h : Kept busy c a s) (hopened : c'.opened = c.opened)
    (hcurrent : ∀ i, c'.resolver = some i → c.resolver = some i)
    (hsame : ∀ k, ∃ alive, c'.resolvers k = { c.resolvers k with alive := alive }) :
    Kept busy c' a s where
  answered_nodup := h.answered_nodup
  stopped_nodup := h.stopped_nodup
  length_eq := h.length_eq
  answered_through := by
    intro i hi
    obtain ⟨alive, hr⟩ := hsame i
    rw [hopened, hr]
    exact h.answered_through i hi
  stopped_lt := by
    rw [hopened]
    exact h.stopped_lt
  isOpen_iff := by
    intro i hi
    obtain ⟨alive, hr⟩ := hsame i
    rw [hr]
    exact h.isOpen_iff i (hopened ▸ hi)
  accounted := by
    intro i hi hbusy hthrough
    obtain ⟨alive, hr⟩ := hsame i
    rw [hr] at hthrough
    exact h.accounted i (hopened ▸ hi) hbusy hthrough
  current := by
    intro i hi
    rw [hopened]
    exact h.current i (hcurrent i hi)
  waits := by
    intro i
    obtain ⟨alive, hr⟩ := hsame i
    rw [hr]
    exact h.waits i
  once := by
    intro i
    obtain ⟨alive, hr⟩ := hsame i
    rw [hr]
    exact h.once i
  absent := by
    intro i hi
    obtain ⟨alive, hr⟩ := hsame i
    rw [hopened] at hi
    rw [hr]
    exact h.absent i hi

/-- A resolver with something on its strand, or whose socket is being connected, was opened. -/
theorem Kept.lt_opened (h : Kept busy c a s)
    (hwork : (c.resolvers i).strand ≠ [] ∨ (c.resolvers i).connecting ≠ none) : i < c.opened := by
  by_contra hge
  obtain ⟨hstrand, hconnecting, -⟩ := h.absent i (Nat.le_of_not_lt hge)
  rcases hwork with hwork | hwork
  · exact hwork hstrand
  · exact hwork hconnecting

theorem Kept.notMem (h : Kept busy c a s) (hwork : ¬(c.resolvers i).Through) : i ∉ a :=
  fun hmem => hwork (h.answered_through i hmem).2

/-- A resolver goes on with its work: it is open as before, and what is in front on its strand
only leaves it. -/
theorem Kept.set (h : Kept busy c a s) (hi : i < c.opened)
    (hopen : r.isOpen = (c.resolvers i).isOpen) (hthrough : i ∈ a → r.Through)
    (hwaits : .connect ∈ r.strand → r.connecting = none)
    (honce : .connect ∉ r.strand.tail) (hbusy : ∀ k, k ≠ i → busy k → busy' k)
    (hself : busy' i ∨ (r.Through → i ∈ a ∨ i ∈ s)) : Kept busy' (c.set i r) a s where
  answered_nodup := h.answered_nodup
  stopped_nodup := h.stopped_nodup
  length_eq := h.length_eq
  answered_through := by
    intro k hk
    rcases eq_or_ne k i with rfl | hne
    · rw [set_self]
      exact ⟨hi, hthrough hk⟩
    · rw [set_of_ne hne]
      exact h.answered_through k hk
  stopped_lt := h.stopped_lt
  isOpen_iff := by
    intro k hk
    rcases eq_or_ne k i with rfl | hne
    · rw [set_self, hopen]
      exact h.isOpen_iff k hk
    · rw [set_of_ne hne]
      exact h.isOpen_iff k hk
  accounted := by
    intro k hk hidle
    rcases eq_or_ne k i with rfl | hne
    · rw [set_self]
      exact hself.resolve_left hidle
    · rw [set_of_ne hne]
      exact h.accounted k hk fun hb => hidle (hbusy k hne hb)
  current := h.current
  waits := by
    intro k
    rcases eq_or_ne k i with rfl | hne
    · rw [set_self]
      exact hwaits
    · rw [set_of_ne hne]
      exact h.waits k
  once := by
    intro k
    rcases eq_or_ne k i with rfl | hne
    · rw [set_self]
      exact honce
    · rw [set_of_ne hne]
      exact h.once k
  absent := by
    intro k hk
    rw [set_of_ne (Nat.ne_of_gt (Nat.lt_of_lt_of_le hi hk))]
    exact h.absent k hk

/-- Another resolver is opened. -/
theorem Kept.open_ (h : KeptAll c a s) (host service : Bytes) :
    KeptAll { c.set c.opened (.opened host service) with
      opened := c.opened + 1, resolver := some c.opened } a s where
  answered_nodup := h.answered_nodup
  stopped_nodup := h.stopped_nodup
  length_eq := h.length_eq
  answered_through := by
    intro k hk
    obtain ⟨hlt, hthrough⟩ := h.answered_through k hk
    refine ⟨Nat.lt_succ_of_lt hlt, ?_⟩
    change ((c.set c.opened (.opened host service)).resolvers k).Through
    rw [set_of_ne hlt.ne]
    exact hthrough
  stopped_lt := fun k hk => Nat.lt_succ_of_lt (h.stopped_lt k hk)
  isOpen_iff := by
    intro k hk
    change ((c.set c.opened (.opened host service)).resolvers k).isOpen = true ↔ k ∉ s
    rcases eq_or_ne k c.opened with rfl | hne
    · rw [set_self]
      exact iff_of_true rfl fun hmem => (h.stopped_lt _ hmem).false
    · rw [set_of_ne hne]
      exact h.isOpen_iff k (Nat.lt_of_le_of_ne (Nat.le_of_lt_succ hk) hne)
  accounted := by
    intro k hk hidle
    change ((c.set c.opened (.opened host service)).resolvers k).Through → k ∈ a ∨ k ∈ s
    rcases eq_or_ne k c.opened with rfl | hne
    · rw [set_self]
      exact fun hthrough => absurd List.mem_cons_self hthrough.1
    · rw [set_of_ne hne]
      exact h.accounted k (Nat.lt_of_le_of_ne (Nat.le_of_lt_succ hk) hne) hidle
  current := by
    intro k hk
    obtain rfl := Option.some.inj hk
    exact ⟨Nat.lt_succ_self _, fun hmem => (h.answered_through _ hmem).1.false,
      fun hmem => (h.stopped_lt _ hmem).false⟩
  waits := by
    intro k
    change .connect ∈ ((c.set c.opened (.opened host service)).resolvers k).strand →
      ((c.set c.opened (.opened host service)).resolvers k).connecting = none
    rcases eq_or_ne k c.opened with rfl | hne
    · rw [set_self]
      exact fun _ => rfl
    · rw [set_of_ne hne]
      exact h.waits k
  once := by
    intro k
    change .connect ∉ ((c.set c.opened (.opened host service)).resolvers k).strand.tail
    rcases eq_or_ne k c.opened with rfl | hne
    · rw [set_self]
      exact List.not_mem_nil
    · rw [set_of_ne hne]
      exact h.once k
  absent := by
    intro k hk
    have hne : k ≠ c.opened := Nat.ne_of_gt hk
    change ((c.set c.opened (.opened host service)).resolvers k).strand = [] ∧
      ((c.set c.opened (.opened host service)).resolvers k).connecting = none ∧
      ((c.set c.opened (.opened host service)).resolvers k).endpoints = []
    rw [set_of_ne hne]
    exact h.absent k (Nat.le_of_lt hk)

theorem Kept.connect (h : KeptAll c a s) (host service : Bytes) :
    KeptAll (c.connect host service) a s := by
  unfold Connector.connect
  split
  · apply (h.open_ host service).of_alive
    · exact replace_opened
    · intro i hi
      rw [replace_resolver] at hi
      exact hi
    · exact fun k => exists_replace_resolvers _ _ k
  · exact h

theorem Kept.stop (h : KeptAll c a s) : KeptAll c.stop a s := by
  unfold Connector.stop
  split
  · apply h.of_alive
    · exact replace_opened
    · intro i hi
      have hnone : (c.replace none).resolver = some i := hi
      rw [replace_resolver] at hnone
      exact absurd hnone.symm (Option.some_ne_none i)
    · exact fun k => exists_replace_resolvers _ _ k
  · exact h

/-- A resolver that has done its work calls back. -/
theorem Kept.callback {socket : Option E} (h : Kept (· = i) c a s) (hi : i < c.opened)
    (hthrough : (c.resolvers i).Through) (hnew : i ∉ a)
    (hcall : c.callback i socket retry = .ok (c', effects)) :
    KeptAll c' (a ++ answered effects) (s ++ stopped effects) := by
  obtain ⟨j, hcurrent, rfl, hstopped, hanswered, -⟩ := callback_cases hcall
  obtain ⟨hj, -, hrunning⟩ := h.current j hcurrent
  have hopen : (c.resolvers j).isOpen = true := (h.isOpen_iff j hj).mpr hrunning
  have hstop : c.stopChannel j = (c.set j { c.resolvers j with
      isOpen := false, strand := (c.resolvers j).strand ++ [.stop] }, [.stopped j]) := if_pos hopen
  have hwork (k : ℕ) : ((c.stopChannel j).1.resolvers k).Through ↔ (c.resolvers k).Through := by
    obtain ⟨-, hconnecting, hstrand, -⟩ := stopChannel_work c j k
    rw [Resolver.Through, Resolver.Through, hconnecting, hstrand]
  have hstopped' : stopped effects = [j] := by
    rw [hstopped, hstop]
    rfl
  rw [hanswered, hstopped']
  exact
  { answered_nodup := by
      rw [← List.concat_eq_append]
      exact h.answered_nodup.concat hnew
    stopped_nodup := by
      rw [← List.concat_eq_append]
      exact h.stopped_nodup.concat hrunning
    length_eq := by
      rw [List.length_append, List.length_append, h.length_eq]
      rfl
    answered_through := by
      intro k hk
      rw [hstop] at hwork ⊢
      rcases List.mem_append.mp hk with hk | hk
      · exact ⟨(h.answered_through k hk).1, (hwork k).mpr (h.answered_through k hk).2⟩
      · obtain rfl := List.mem_singleton.mp hk
        exact ⟨hi, (hwork k).mpr hthrough⟩
    stopped_lt := by
      intro k hk
      rw [hstop]
      rcases List.mem_append.mp hk with hk | hk
      · exact h.stopped_lt k hk
      · exact List.mem_singleton.mp hk ▸ hj
    isOpen_iff := by
      intro k hk
      rw [hstop] at hk ⊢
      change ((c.set j _).resolvers k).isOpen = true ↔ k ∉ s ++ [j]
      rcases eq_or_ne k j with rfl | hne
      · rw [set_self]
        simp
      · rw [set_of_ne hne, h.isOpen_iff k hk]
        simp [hne]
    accounted := by
      intro k hk _ hdone
      rw [List.mem_append, List.mem_append]
      rw [hstop] at hk
      rcases eq_or_ne k i with rfl | hne
      · exact Or.inl (Or.inr List.mem_cons_self)
      · exact (h.accounted k hk hne ((hwork k).mp hdone)).imp Or.inl Or.inl
    current := fun k hk => absurd hk.symm (Option.some_ne_none k)
    waits := by
      intro k hmem
      obtain ⟨-, hconnecting, hstrand, -⟩ := stopChannel_work c j k
      exact hconnecting.trans (h.waits k (hstrand.mp hmem))
    once := by
      intro k
      obtain ⟨-, -, -, honce⟩ := stopChannel_work c j k
      exact honce (h.once k)
    absent := by
      intro k hk
      rw [hstop] at hk ⊢
      change ((c.set j _).resolvers k).strand = [] ∧ ((c.set j _).resolvers k).connecting = none ∧
        ((c.set j _).resolvers k).endpoints = []
      rw [set_of_ne (Nat.ne_of_gt (Nat.lt_of_lt_of_le hj hk))]
      exact h.absent k hk }

theorem Kept.connectNext (h : Kept (· = i) c a s) (hi : i < c.opened)
    (hthrough : (c.resolvers i).Through) (hnew : i ∉ a)
    (hcall : c.connectNext i pos retry = .ok (c', effects)) :
    KeptAll c' (a ++ answered effects) (s ++ stopped effects) := by
  unfold Connector.connectNext at hcall
  split at hcall
  · obtain ⟨rfl, rfl⟩ := Prod.mk.inj (Except.ok.inj hcall)
    simp only [answered, stopped, List.filterMap_cons_none, List.filterMap_nil, List.append_nil]
    -- the resolver has work again
    refine h.set hi rfl (fun hmem => absurd hmem hnew) (fun hmem => absurd hmem hthrough.1)
      (h.once i) (fun k hne hk => hne hk) (Or.inr fun hdone => ?_)
    exact absurd hdone.2 (Option.some_ne_none pos)
  · exact h.callback hi hthrough hnew hcall

theorem Kept.resolve (h : Kept (· = i) c a s) (hi : i < c.opened)
    (hthrough : (c.resolvers i).Through) (hnew : i ∉ a)
    (hcall : c.resolve i found retry = .ok (c', effects)) :
    KeptAll c' (a ++ answered effects) (s ++ stopped effects) := by
  have hset (endpoints : List E) :
      Kept (· = i) (c.set i { c.resolvers i with endpoints := endpoints }) a s :=
    h.set hi rfl (fun _ => hthrough) (h.waits i) (h.once i) (fun _ _ hk => hk) (Or.inl rfl)
  have hdone (endpoints : List E) :
      ((c.set i { c.resolvers i with endpoints := endpoints }).resolvers i).Through := by
    rw [set_self]
    exact hthrough
  cases found with
  | ok endpoints => exact (hset endpoints).connectNext hi (hdone endpoints) hnew hcall
  | error ec =>
    have hback : Connector.callback (c.set i { c.resolvers i with endpoints := [] }) i none retry =
        .ok (c', effects) := hcall
    exact (hset []).callback hi (hdone []) hnew hback

theorem Kept.letGo (h : Kept busy c a s) (i : ℕ) : Kept busy (c.letGo i) a s :=
  h.of_alive letGo_opened (fun _ hk => letGo_resolver.symm.trans hk) (exists_letGo_resolvers c i)

theorem Kept.run (h : KeptAll c a s) (hcall : c.run i found retry = .ok (c', effects)) :
    KeptAll c' (a ++ answered effects) (s ++ stopped effects) := by
  unfold Connector.run at hcall
  cases hstrand : (c.resolvers i).strand with
  | nil =>
    rw [hstrand] at hcall
    obtain ⟨rfl, rfl⟩ := Prod.mk.inj (Except.ok.inj hcall)
    simpa [answered, stopped] using h
  | cons handler strand =>
    rw [hstrand] at hcall
    have hi : i < c.opened := h.lt_opened (Or.inl (by simp [hstrand]))
    have hrest : .connect ∉ strand := by
      have honce := h.once i
      rwa [hstrand] at honce
    have htail : .connect ∉ strand.tail := fun hmem => hrest (List.mem_of_mem_tail hmem)
    cases handler with
    | stop =>
      obtain ⟨rfl, rfl⟩ := Prod.mk.inj (Except.ok.inj hcall)
      simp only [answered, stopped, List.filterMap_nil, List.append_nil]
      refine h.set hi rfl (fun hmem => ?_) (fun hmem => absurd hmem hrest) htail
        (fun _ _ hk => hk) (Or.inr fun hdone => ?_)
      · exact ⟨hrest, (h.answered_through i hmem).2.2⟩
      · refine h.accounted i hi not_false ⟨?_, hdone.2⟩
        simpa [hstrand] using hrest
    | connect =>
      have hwaiting : (c.resolvers i).connecting = none := h.waits i (by simp [hstrand])
      have hnew : i ∉ a := h.notMem fun hdone => hdone.1 (by simp [hstrand])
      have hthrough : ((c.set i { c.resolvers i with strand := strand }).resolvers i).Through := by
        rw [set_self]
        exact ⟨hrest, hwaiting⟩
      dsimp only at hcall
      split at hcall
      · obtain ⟨⟨c₁, effects₁⟩, hresolve, hret⟩ := bind_eq_ok_iff.mp hcall
        obtain ⟨rfl, rfl⟩ := Prod.mk.inj (Except.ok.inj hret)
        have htaken : Kept (· = i) (c.set i { c.resolvers i with strand := strand }) a s :=
          h.set hi rfl (fun _ => ⟨hrest, hwaiting⟩) (fun hmem => absurd hmem hrest) htail
            (fun _ _ hk => hk.elim) (Or.inl rfl)
        exact (htaken.resolve hi hthrough hnew hresolve).letGo i
      · -- the channel was stopped before
        rename_i hclosed
        obtain ⟨rfl, rfl⟩ := Prod.mk.inj (Except.ok.inj hcall)
        simp only [answered, stopped, List.filterMap_nil, List.append_nil]
        have hstopped : i ∈ s := by
          by_contra hrunning
          exact hclosed ((h.isOpen_iff i hi).mpr hrunning)
        apply Kept.letGo
        exact h.set hi rfl (fun _ => ⟨hrest, hwaiting⟩) (fun hmem => absurd hmem hrest) htail
          (fun _ _ hk => hk) (Or.inr fun _ => Or.inr hstopped)

theorem Kept.handleConnect {isOpen : Bool} {ec : Option ErrorCode} (h : KeptAll c a s)
    (hcall : c.handleConnect i isOpen ec retry = .ok (c', effects)) :
    KeptAll c' (a ++ answered effects) (s ++ stopped effects) := by
  unfold Connector.handleConnect at hcall
  cases hconnecting : (c.resolvers i).connecting with
  | none =>
    rw [hconnecting] at hcall
    obtain ⟨rfl, rfl⟩ := Prod.mk.inj (Except.ok.inj hcall)
    simpa [answered, stopped] using h
  | some pos =>
    rw [hconnecting] at hcall
    have hwork : (c.resolvers i).connecting ≠ none := by simp [hconnecting]
    have hi : i < c.opened := h.lt_opened (Or.inr hwork)
    have hnew : i ∉ a := h.notMem fun hdone => hwork hdone.2
    have hnone : .connect ∉ (c.resolvers i).strand := fun hmem => hwork (h.waits i hmem)
    have hdone : Kept (· = i) (c.set i { c.resolvers i with connecting := none }) a s :=
      h.set hi rfl (fun _ => ⟨hnone, rfl⟩) (fun _ => rfl) (h.once i) (fun _ _ hk => hk.elim)
        (Or.inl rfl)
    have hthrough :
        ((c.set i { c.resolvers i with connecting := none }).resolvers i).Through := by
      rw [set_self]
      exact ⟨hnone, rfl⟩
    dsimp only at hcall
    split_ifs at hcall
    · exact hdone.callback hi hthrough hnew hcall
    · exact hdone.connectNext hi hthrough hnew hcall

theorem Kept.step {event : ConnectorEvent E} (h : KeptAll c a s)
    (hstep : step c event = .ok (c', effects)) :
    KeptAll c' (a ++ answered effects) (s ++ stopped effects) := by
  cases event with
  | connect host service =>
    obtain ⟨rfl, rfl⟩ := Prod.mk.inj (Except.ok.inj hstep)
    simpa [answered, stopped] using h.connect host service
  | stop =>
    obtain ⟨rfl, rfl⟩ := Prod.mk.inj (Except.ok.inj hstep)
    simpa [answered, stopped] using h.stop
  | run i found retry => exact h.run hstep
  | handleConnect i isOpen ec retry => exact h.handleConnect hstep

/-! ### What the handlers do to the client -/

/-- A handler of a resolver stops the current resolver, and the client has none then, or it leaves
the client as it is. -/
structure Acts (c c' : Connector E) (effects : List (ConnectorEffect E)) : Prop where
  opened : c'.opened = c.opened
  alive : c'.alive = c.alive
  resolver : c'.resolver = c.resolver ∨ c'.resolver = none
  stopped : ∀ k ∈ stopped effects, c.resolver = some k

theorem acts_self : Acts c c [] where
  opened := rfl
  alive := rfl
  resolver := Or.inl rfl
  stopped _ h := absurd h List.not_mem_nil

theorem acts_set : Acts c (c.set i r) [] := ⟨rfl, rfl, Or.inl rfl, acts_self.stopped⟩

/-- The client does not look into its resolvers. -/
theorem Acts.of_set (h : Acts (c.set i r) c' effects) : Acts c c' effects :=
  ⟨h.opened, h.alive, h.resolver, h.stopped⟩

theorem Acts.letGo (h : Acts c c' effects) (i : ℕ) : Acts c (c'.letGo i) effects where
  opened := letGo_opened.trans h.opened
  alive := letGo_alive.trans h.alive
  resolver := by
    rw [letGo_resolver]
    exact h.resolver
  stopped := h.stopped

theorem acts_callback {socket : Option E}
    (hcall : c.callback i socket retry = .ok (c', effects)) : Acts c c' effects := by
  obtain ⟨j, hcurrent, rfl, hstopped, -⟩ := callback_cases hcall
  have hstop : (c.stopChannel j).1.opened = c.opened ∧ (c.stopChannel j).1.alive = c.alive ∧
      ∀ k ∈ stopped (c.stopChannel j).2, k = j := by
    unfold stopChannel
    split
    · exact ⟨rfl, rfl, fun k hk => List.mem_singleton.mp hk⟩
    · exact ⟨rfl, rfl, fun k hk => absurd hk List.not_mem_nil⟩
  obtain ⟨hopened, halive, honly⟩ := hstop
  refine ⟨hopened, halive, Or.inr rfl, fun k hk => ?_⟩
  rw [hstopped] at hk
  rw [honly k hk, hcurrent]

theorem acts_connectNext (hcall : c.connectNext i pos retry = .ok (c', effects)) :
    Acts c c' effects := by
  unfold connectNext at hcall
  split at hcall
  · obtain ⟨rfl, rfl⟩ := Prod.mk.inj (Except.ok.inj hcall)
    exact ⟨rfl, rfl, Or.inl rfl, by simp [stopped]⟩
  · exact acts_callback hcall

theorem acts_resolve (hcall : c.resolve i found retry = .ok (c', effects)) :
    Acts c c' effects := by
  cases found with
  | ok endpoints => exact (acts_connectNext hcall).of_set
  | error ec =>
    have hback : callback (c.set i { c.resolvers i with endpoints := [] }) i none retry =
        .ok (c', effects) := hcall
    exact (acts_callback hback).of_set

theorem acts_run (hcall : c.run i found retry = .ok (c', effects)) : Acts c c' effects := by
  unfold run at hcall
  split at hcall
  · obtain ⟨rfl, rfl⟩ := Prod.mk.inj (Except.ok.inj hcall)
    exact acts_self
  · obtain ⟨rfl, rfl⟩ := Prod.mk.inj (Except.ok.inj hcall)
    exact acts_set
  · dsimp only at hcall
    split at hcall
    · obtain ⟨⟨c₁, effects₁⟩, hresolve, hret⟩ := bind_eq_ok_iff.mp hcall
      obtain ⟨rfl, rfl⟩ := Prod.mk.inj (Except.ok.inj hret)
      exact (acts_resolve hresolve).of_set.letGo i
    · obtain ⟨rfl, rfl⟩ := Prod.mk.inj (Except.ok.inj hcall)
      exact acts_set.letGo i

theorem acts_handleConnect {isOpen : Bool} {ec : Option ErrorCode}
    (hcall : c.handleConnect i isOpen ec retry = .ok (c', effects)) : Acts c c' effects := by
  unfold handleConnect at hcall
  split at hcall
  · obtain ⟨rfl, rfl⟩ := Prod.mk.inj (Except.ok.inj hcall)
    exact acts_self
  · dsimp only at hcall
    split_ifs at hcall
    · exact (acts_callback hcall).of_set
    · exact (acts_connectNext hcall).of_set

theorem opened_step {event : ConnectorEvent E} {events : List (ConnectorEvent E)}
    (hstep : step c event = .ok (c', effects)) :
    c'.opened + (if c'.alive then requests events else 0) =
      c.opened + if c.alive then requests (event :: events) else 0 := by
  cases event with
  | connect host service =>
    obtain ⟨rfl, -⟩ := Prod.mk.inj (Except.ok.inj hstep)
    unfold connect
    cases halive : c.alive with
    | false => simp [halive]
    | true =>
      simp [halive, requests]
      omega
  | stop =>
    obtain ⟨rfl, -⟩ := Prod.mk.inj (Except.ok.inj hstep)
    unfold stop
    cases halive : c.alive with
    | false => simp [halive]
    | true => simp [requests]
  | run i found retry =>
    have hacts := acts_run hstep
    rw [hacts.opened, hacts.alive, requests]
  | handleConnect i isOpen ec retry =>
    have hacts := acts_handleConnect hstep
    rw [hacts.opened, hacts.alive, requests]

/-- As many resolvers are opened as there are requests. -/
theorem opened_run {events : List (ConnectorEvent E)}
    (hrun : Step.run step c events = .ok (c', effects)) :
    c'.opened = c.opened + if c.alive then requests events else 0 := by
  induction events generalizing c effects with
  | nil =>
    obtain ⟨rfl, -⟩ : c = c' ∧ effects = [] := by simpa [eq_comm] using hrun
    simp [requests]
  | cons event events ih =>
    obtain ⟨t, out, out', hstep, htail, -⟩ := Step.run_cons_eq_ok_iff.mp hrun
    exact (ih htail).trans (opened_step hstep)

theorem Kept.run_all {events : List (ConnectorEvent E)} (h : KeptAll c a s)
    (hrun : Step.run Connector.step c events = .ok (c', effects)) :
    KeptAll c' (a ++ answered effects) (s ++ stopped effects) := by
  induction events generalizing c a s effects with
  | nil =>
    obtain ⟨rfl, rfl⟩ : c = c' ∧ effects = [] := by simpa [eq_comm] using hrun
    simpa [answered, stopped] using h
  | cons event events ih =>
    obtain ⟨t, out, out', hstep, htail, hout⟩ := Step.run_cons_eq_ok_iff.mp hrun
    simp only at htail hout
    have hlast := ih (h.step hstep) htail
    rw [hout, answered_append, stopped_append, ← List.append_assoc, ← List.append_assoc]
    exact hlast

/-! ### A resolver that is forgotten -/

/-- A resolver that nobody has, and that was not stopped. -/
def Forgotten (c : Connector E) (i : ℕ) (stopped : List ℕ) : Prop :=
  i < c.opened ∧ i ∉ stopped ∧ c.resolver ≠ some i

/-- It will never be stopped. -/
theorem Forgotten.step {event : ConnectorEvent E} (h : Forgotten c i s)
    (hstep : step c event = .ok (c', effects)) : Forgotten c' i (s ++ stopped effects) := by
  obtain ⟨hi, hs, hcurrent⟩ := h
  have hacts (hacts : Acts c c' effects) : Forgotten c' i (s ++ stopped effects) := by
    refine ⟨hacts.opened ▸ hi, fun hmem => ?_, fun hsome => ?_⟩
    · rcases List.mem_append.mp hmem with hmem | hmem
      · exact hs hmem
      · exact hcurrent (hacts.stopped i hmem)
    · rcases hacts.resolver with hsame | hnone
      · exact hcurrent (hsame.symm.trans hsome)
      · exact absurd (hsome.symm.trans hnone) (Option.some_ne_none i)
  cases event with
  | connect host service =>
    obtain ⟨rfl, rfl⟩ := Prod.mk.inj (Except.ok.inj hstep)
    rw [stopped, List.filterMap_nil, List.append_nil]
    unfold connect
    split
    · refine ⟨?_, hs, ?_⟩
      · rw [replace_opened]
        exact Nat.lt_succ_of_lt hi
      · rw [replace_resolver]
        exact fun hsome => hi.ne (Option.some.inj hsome).symm
    · exact ⟨hi, hs, hcurrent⟩
  | stop =>
    obtain ⟨rfl, rfl⟩ := Prod.mk.inj (Except.ok.inj hstep)
    rw [stopped, List.filterMap_nil, List.append_nil]
    unfold stop
    split
    · refine ⟨replace_opened.symm ▸ hi, hs, ?_⟩
      change (c.replace none).resolver ≠ some i
      rw [replace_resolver]
      exact (Option.some_ne_none i).symm
    · exact ⟨hi, hs, hcurrent⟩
  | run j found retry => exact hacts (acts_run hstep)
  | handleConnect j isOpen ec retry => exact hacts (acts_handleConnect hstep)

theorem Forgotten.run {events : List (ConnectorEvent E)} (h : Forgotten c i s)
    (hrun : Step.run Connector.step c events = .ok (c', effects)) :
    Forgotten c' i (s ++ stopped effects) := by
  induction events generalizing c s effects with
  | nil =>
    obtain ⟨rfl, rfl⟩ : c = c' ∧ effects = [] := by simpa [eq_comm] using hrun
    simpa [stopped] using h
  | cons event events ih =>
    obtain ⟨t, out, out', hstep, htail, hout⟩ := Step.run_cons_eq_ok_iff.mp hrun
    simp only at htail hout
    have hlast := ih (h.step hstep) htail
    rw [hout, stopped_append, ← List.append_assoc]
    exact hlast

/-- Who abandons a resolver forgets it. -/
theorem forgotten_of_abandons {event : ConnectorEvent E} (h : KeptAll c a s)
    (habandons : c.Abandons event) (hstep : step c event = .ok (c', effects)) :
    ∃ i, Forgotten c' i (s ++ stopped effects) := by
  have hcurrent (hne : c.resolver ≠ none) : ∃ i, c.resolver = some i ∧ i < c.opened ∧ i ∉ s := by
    obtain ⟨i, hi⟩ := Option.ne_none_iff_exists'.mp hne
    exact ⟨i, hi, (h.current i hi).1, (h.current i hi).2.2⟩
  cases event with
  | connect host service =>
    obtain ⟨halive, hne⟩ := habandons
    obtain ⟨i, -, hi, hs⟩ := hcurrent hne
    obtain ⟨rfl, rfl⟩ := Prod.mk.inj (Except.ok.inj hstep)
    rw [stopped, List.filterMap_nil, List.append_nil, connect, if_pos halive]
    refine ⟨i, ?_, hs, ?_⟩
    · rw [replace_opened]
      exact Nat.lt_succ_of_lt hi
    · rw [replace_resolver]
      exact fun hsome => hi.ne (Option.some.inj hsome).symm
  | stop =>
    obtain ⟨halive, hne⟩ := habandons
    obtain ⟨i, -, hi, hs⟩ := hcurrent hne
    obtain ⟨rfl, rfl⟩ := Prod.mk.inj (Except.ok.inj hstep)
    rw [stopped, List.filterMap_nil, List.append_nil, stop, if_pos halive]
    refine ⟨i, replace_opened.symm ▸ hi, hs, ?_⟩
    change (c.replace none).resolver ≠ some i
    rw [replace_resolver]
    exact (Option.some_ne_none i).symm
  | run i found retry => exact habandons.elim
  | handleConnect i isOpen ec retry => exact habandons.elim

/-- Not all resolvers are stopped then. -/
theorem Forgotten.length_lt (h : Forgotten c i s) (hkept : KeptAll c a s) :
    a.length < c.opened := by
  obtain ⟨hi, hs, -⟩ := h
  have hsubset : s ⊆ (List.range c.opened).erase i := by
    intro k hk
    have hne : k ≠ i := fun heq => hs (heq ▸ hk)
    rw [List.mem_erase_of_ne hne, List.mem_range]
    exact hkept.stopped_lt k hk
  have hle := (hkept.stopped_nodup.subperm hsubset).length_le
  rw [List.length_erase_of_mem (List.mem_range.mpr hi), List.length_range] at hle
  rw [hkept.length_eq]
  omega

/-! ### One request after the other -/

/-- Every resolver has called back, but for the one that the client has. -/
structure Served (c : Connector E) (answered : List ℕ) : Prop where
  answered_or_current : ∀ i < c.opened, i ∈ answered ∨ c.resolver = some i
  client : c.resolver ≠ none → c.alive = true
  task : ∀ i, c.resolver = some i →
    (c.resolvers i).alive = true ∧ .stop ∉ (c.resolvers i).strand

theorem served_initial : Served (initial : Connector E) [] where
  answered_or_current i h := absurd h (Nat.not_lt_zero i)
  client h := absurd rfl h
  task i h := absurd h.symm (Option.some_ne_none i)

theorem Served.set (h : Served c a) (halive : r.alive = (c.resolvers i).alive)
    (hstop : .stop ∈ r.strand → .stop ∈ (c.resolvers i).strand) : Served (c.set i r) a where
  answered_or_current := h.answered_or_current
  client := h.client
  task := by
    intro k hk
    obtain ⟨htask, hnone⟩ := h.task k hk
    rcases eq_or_ne k i with rfl | hne
    · rw [set_self, halive]
      exact ⟨htask, fun hmem => hnone (hstop hmem)⟩
    · rw [set_of_ne hne]
      exact ⟨htask, hnone⟩

/-- A resolver that has not called back is the current one. -/
theorem Served.current (h : Served c a) (hi : i < c.opened) (hnew : i ∉ a) :
    c.resolver = some i :=
  (h.answered_or_current i hi).resolve_left hnew

/-- The callback finds the client, and the resolver that it stops is its own. -/
theorem Served.callback (h : Served c a) (hcurrent : c.resolver = some i) (endpoint : Option E)
    (retry : Option ℕ) :
    ∃ c' effects, c.callback i endpoint retry = .ok (c', effects) ∧ c'.resolver = none ∧
      Served c' (a ++ answered effects) := by
  have halive : c.alive = true := h.client (by simp [hcurrent])
  have hserved (d : Connector E) (hopened : d.opened = c.opened) (hnone : d.resolver = none) :
      Served d (a ++ [i]) := by
    refine ⟨fun k hk => Or.inl ?_, fun hne => absurd hnone hne, fun k hk => ?_⟩
    · rw [List.mem_append]
      rcases h.answered_or_current k (hopened ▸ hk) with hmem | hsome
      · exact Or.inl hmem
      · obtain rfl := Option.some.inj (hcurrent.symm.trans hsome)
        exact Or.inr List.mem_cons_self
    · exact absurd (hk.symm.trans hnone) (Option.some_ne_none k)
  unfold Connector.callback
  rw [if_pos halive]
  simp only [hcurrent, stopChannel]
  split
  · refine ⟨_, _, rfl, rfl, ?_⟩
    cases endpoint <;> cases retry <;> exact hserved _ rfl rfl
  · refine ⟨_, _, rfl, rfl, ?_⟩
    cases endpoint <;> cases retry <;> exact hserved _ rfl rfl

theorem Served.connectNext (h : Served c a) (hcurrent : c.resolver = some i) (pos : ℕ)
    (retry : Option ℕ) :
    ∃ c' effects, c.connectNext i pos retry = .ok (c', effects) ∧
      (c'.resolver = none ∨ c'.resolver = some i) ∧ Served c' (a ++ answered effects) := by
  unfold Connector.connectNext
  split
  · refine ⟨_, _, rfl, Or.inr hcurrent, ?_⟩
    rw [answered, List.filterMap_cons_none rfl, List.filterMap_nil, List.append_nil]
    exact h.set rfl id
  · obtain ⟨c', effects, hcall, hnone, hserved⟩ := h.callback hcurrent none retry
    exact ⟨c', effects, hcall, Or.inl hnone, hserved⟩

theorem Served.resolve (h : Served c a) (hcurrent : c.resolver = some i)
    (found : Except ErrorCode (List E)) (retry : Option ℕ) :
    ∃ c' effects, c.resolve i found retry = .ok (c', effects) ∧
      (c'.resolver = none ∨ c'.resolver = some i) ∧ Served c' (a ++ answered effects) := by
  cases found with
  | ok endpoints =>
    have hset : Served (c.set i { c.resolvers i with endpoints := endpoints }) a := h.set rfl id
    exact hset.connectNext hcurrent 0 retry
  | error ec =>
    have hset : Served (c.set i { c.resolvers i with endpoints := [] }) a := h.set rfl id
    obtain ⟨c', effects, hcall, hnone, hserved⟩ := hset.callback hcurrent none retry
    exact ⟨c', effects, hcall, Or.inl hnone, hserved⟩

theorem Served.letGo (h : Served c a) (hcurrent : c.resolver = none ∨ c.resolver = some i) :
    Served (c.letGo i) a := by
  rcases hcurrent with hnone | hsome
  · refine ⟨fun k hk => ?_, fun hne => ?_, fun k hk => ?_⟩
    · rw [letGo_opened] at hk
      rw [letGo_resolver]
      exact h.answered_or_current k hk
    · rw [letGo_resolver] at hne
      exact absurd hnone hne
    · rw [letGo_resolver] at hk
      exact absurd (hk.symm.trans hnone) (Option.some_ne_none k)
  · rw [letGo_of_current hsome]
    exact h

/-- A step that abandons no resolver succeeds. -/
theorem Served.step {event : ConnectorEvent E} (h : Served c a) (hkept : KeptAll c a s)
    (hguard : ¬c.Abandons event) :
    ∃ c' effects, step c event = .ok (c', effects) ∧ Served c' (a ++ answered effects) := by
  cases event with
  | connect host service =>
    refine ⟨_, _, rfl, ?_⟩
    rw [answered, List.filterMap_nil, List.append_nil]
    unfold connect
    split
    · rename_i halive
      have hnone : c.resolver = none := not_not.mp fun hne => hguard ⟨halive, hne⟩
      unfold replace
      dsimp only [set_resolver]
      rw [hnone]
      refine ⟨fun k hk => ?_, fun _ => halive, fun k hk => ?_⟩
      · rcases eq_or_ne k c.opened with rfl | hne
        · exact Or.inr rfl
        · have hk' := h.answered_or_current k (Nat.lt_of_le_of_ne (Nat.le_of_lt_succ hk) hne)
          exact Or.inl (hk'.resolve_right fun hsome => by simp [hnone] at hsome)
      · obtain rfl := Option.some.inj hk
        change ((c.set c.opened (.opened host service)).resolvers c.opened).alive = true ∧
          .stop ∉ ((c.set c.opened (.opened host service)).resolvers c.opened).strand
        rw [set_self]
        exact ⟨rfl, by simp [Resolver.opened]⟩
    · exact h
  | stop =>
    refine ⟨_, _, rfl, ?_⟩
    rw [answered, List.filterMap_nil, List.append_nil]
    unfold stop
    split
    · rename_i halive
      have hnone : c.resolver = none := not_not.mp fun hne => hguard ⟨halive, hne⟩
      rw [replace_of_none hnone]
      refine ⟨fun k hk => ?_, fun hne => absurd rfl hne, fun k hk => ?_⟩
      · have hk' := h.answered_or_current k hk
        exact Or.inl (hk'.resolve_right fun hsome => by simp [hnone] at hsome)
      · exact absurd hk.symm (Option.some_ne_none k)
    · exact h
  | run i found retry =>
    simp only [Connector.step, Connector.run]
    cases hstrand : (c.resolvers i).strand with
    | nil => exact ⟨c, [], rfl, by simpa [answered] using h⟩
    | cons handler strand =>
      have hi : i < c.opened := hkept.lt_opened (Or.inl (by simp [hstrand]))
      cases handler with
      | stop =>
        -- a resolver that was told to stop is not the current one
        refine ⟨_, _, rfl, ?_⟩
        rw [answered, List.filterMap_nil, List.append_nil]
        have hother : c.resolver ≠ some i := by
          intro hsome
          exact (h.task i hsome).2 (by simp [hstrand])
        refine ⟨h.answered_or_current, h.client, fun k hk => ?_⟩
        have hne : k ≠ i := fun heq => hother (heq ▸ hk)
        rw [set_of_ne hne]
        exact h.task k hk
      | connect =>
        have hnew : i ∉ a := hkept.notMem fun hdone => hdone.1 (by simp [hstrand])
        have hcurrent := h.current hi hnew
        have hopen : (c.resolvers i).isOpen = true :=
          (hkept.isOpen_iff i hi).mpr (hkept.current i hcurrent).2.2
        have htaken : Served (c.set i { c.resolvers i with strand := strand }) a := by
          refine h.set rfl fun hmem => ?_
          rw [hstrand]
          exact List.mem_cons_of_mem _ hmem
        obtain ⟨c', effects, hcall, hresolver, hserved⟩ :=
          htaken.resolve hcurrent found retry
        refine ⟨c'.letGo i, effects, ?_, hserved.letGo hresolver⟩
        dsimp only
        rw [if_pos hopen, hcall]
        rfl
  | handleConnect i isOpen ec retry =>
    simp only [Connector.step, Connector.handleConnect]
    cases hconnecting : (c.resolvers i).connecting with
    | none => exact ⟨c, [], rfl, by simpa [answered] using h⟩
    | some pos =>
      have hwork : (c.resolvers i).connecting ≠ none := by simp [hconnecting]
      have hi : i < c.opened := hkept.lt_opened (Or.inr hwork)
      have hnew : i ∉ a := hkept.notMem fun hdone => hwork hdone.2
      have hcurrent := h.current hi hnew
      have hdone : Served (c.set i { c.resolvers i with connecting := none }) a := h.set rfl id
      dsimp only
      rw [if_pos (h.task i hcurrent).1]
      split_ifs
      · obtain ⟨c', effects, hcall, -, hserved⟩ :=
          hdone.callback hcurrent (c.resolvers i).endpoints[pos]? retry
        exact ⟨c', effects, hcall, hserved⟩
      · obtain ⟨c', effects, hcall, -, hserved⟩ := hdone.connectNext hcurrent (pos + 1) retry
        exact ⟨c', effects, hcall, hserved⟩

theorem Served.run {events : List (ConnectorEvent E)} (h : Served c a) (hkept : KeptAll c a s)
    (hguard : Step.Guarded Connector.step (fun c event => ¬c.Abandons event) c events) :
    ∃ c' effects, Step.run Connector.step c events = .ok (c', effects) ∧
      Served c' (a ++ answered effects) := by
  induction events generalizing c a s with
  | nil => exact ⟨c, [], rfl, by simpa [answered] using h⟩
  | cons event events ih =>
    obtain ⟨t, out, hstep, hserved⟩ := h.step hkept hguard.1
    obtain ⟨c', out', hrun, hlast⟩ := ih hserved (hkept.step hstep) (hguard.2 t out hstep)
    refine ⟨c', out ++ out', Step.run_cons_ok hstep hrun, ?_⟩
    rw [answered_append, ← List.append_assoc]
    exact hlast

/-- The resolvers that have called back, and the current one, are all resolvers. -/
theorem Served.length (h : Served c a) (hkept : KeptAll c a s) :
    a.length + (if c.resolver = none then 0 else 1) = c.opened := by
  cases hcurrent : c.resolver with
  | none =>
    have hperm : a.Perm (List.range c.opened) := by
      apply (List.perm_ext_iff_of_nodup hkept.answered_nodup List.nodup_range).mpr
      intro k
      rw [List.mem_range]
      constructor
      · exact fun hk => (hkept.answered_through k hk).1
      · exact fun hk => (h.answered_or_current k hk).resolve_right fun hsome => by
          simp [hcurrent] at hsome
    simpa using hperm.length_eq
  | some i =>
    obtain ⟨hi, hnew, -⟩ := hkept.current i hcurrent
    have hperm : (i :: a).Perm (List.range c.opened) := by
      apply (List.perm_ext_iff_of_nodup (hkept.answered_nodup.cons hnew) List.nodup_range).mpr
      intro k
      rw [List.mem_range, List.mem_cons]
      constructor
      · rintro (rfl | hk)
        · exact hi
        · exact (hkept.answered_through k hk).1
      · intro hk
        rcases h.answered_or_current k hk with hmem | hsome
        · exact Or.inr hmem
        · exact Or.inl (Option.some.inj (hcurrent.symm.trans hsome)).symm
    simpa using hperm.length_eq

/-- The current resolver has work to do. -/
theorem Kept.resolver_of_settled (hkept : KeptAll c a s) (hsettled : c.Settled) :
    c.resolver = none := by
  by_contra hne
  obtain ⟨i, hcurrent⟩ := Option.ne_none_iff_exists'.mp hne
  obtain ⟨hi, hnew, hrunning⟩ := hkept.current i hcurrent
  rcases hkept.accounted i hi not_false (hsettled i hi) with hmem | hmem
  · exact hnew hmem
  · exact hrunning hmem

theorem opened_initial {events : List (ConnectorEvent E)}
    (hrun : Step.run step (initial : Connector E) events = .ok (c', effects)) :
    c'.opened = requests events := by
  have hopened := opened_run hrun
  have halive : (initial : Connector E).alive = true := rfl
  rw [if_pos halive] at hopened
  exact hopened.trans (Nat.zero_add _)

/-- When all resolvers have called back, none was abandoned. -/
theorem guarded_of_length_eq {events : List (ConnectorEvent E)} (h : KeptAll c a s)
    (hrun : Step.run step c events = .ok (c', effects))
    (hlength : (a ++ answered effects).length = c'.opened) :
    Step.Guarded step (fun c event => ¬c.Abandons event) c events := by
  induction events generalizing c a s effects with
  | nil => trivial
  | cons event events ih =>
    obtain ⟨t, out, out', hstep, htail, hout⟩ := Step.run_cons_eq_ok_iff.mp hrun
    simp only at htail hout
    rw [hout, answered_append, ← List.append_assoc] at hlength
    have hkept := h.step hstep
    rw [Step.guarded_cons_of_ok hstep]
    refine ⟨fun habandons => ?_, ih hkept htail hlength⟩
    obtain ⟨i, hforgotten⟩ := forgotten_of_abandons h habandons hstep
    have hlt := (hforgotten.run htail).length_lt (hkept.run_all htail)
    omega

end Connector

/-- As long as no request, and no end of the client, comes while a resolver is at work, nothing is
used after it was deleted, and every request has been answered, but for the one whose resolver is
at work. -/
theorem connector_safe {events : List (ConnectorEvent E)}
    (h : Step.Guarded Connector.step (fun c event => ¬c.Abandons event) .initial events) :
    ∃ c' effects, Step.run Connector.step (.initial : Connector E) events = .ok (c', effects) ∧
      (answered effects).Nodup ∧
      (answered effects).length + (if c'.resolver = none then 0 else 1) = requests events := by
  obtain ⟨c', effects, hrun, hserved⟩ :=
    Connector.served_initial.run Connector.keptAll_initial h
  have hkept := Connector.keptAll_initial.run_all hrun
  refine ⟨c', effects, hrun, hkept.answered_nodup, ?_⟩
  rw [← Connector.opened_initial hrun]
  exact hserved.length hkept

/-- The first endpoint refuses, the second one does not. -/
def sampleRequest : List (ConnectorEvent ℕ) :=
  [.connect [0x61] [0x38], .run 0 (.ok [4, 6]) none,
    .handleConnect 0 true (some ⟨111, ErrorCode.system⟩) none, .handleConnect 0 true none none,
    .run 0 (.ok []) none, .connect [0x61] [0x38]]

theorem connector_safe_sampleRequest :
    ∃ c' effects, Step.run Connector.step .initial sampleRequest = .ok (c', effects) ∧
      (answered effects).Nodup ∧
      (answered effects).length + (if c'.resolver = none then 0 else 1) =
        requests sampleRequest :=
  connector_safe (by decide)

/-- When nothing is left to do, all requests were answered exactly when none of them, nor the end of
the client, came while a resolver was at work. -/
theorem all_answered_iff {events : List (ConnectorEvent E)} {c' : Connector E}
    {effects : List (ConnectorEffect E)}
    (hrun : Step.run Connector.step .initial events = .ok (c', effects)) (hsettled : c'.Settled) :
    (answered effects).length = requests events ↔
      Step.Guarded Connector.step (fun c event => ¬c.Abandons event) .initial events := by
  have hopened := Connector.opened_initial hrun
  constructor
  · intro hlength
    exact Connector.guarded_of_length_eq Connector.keptAll_initial hrun (hlength.trans hopened.symm)
  · intro hguard
    obtain ⟨c'', effects', hrun', -, hlength⟩ := connector_safe hguard
    obtain ⟨rfl, rfl⟩ := Prod.mk.inj (Except.ok.inj (hrun.symm.trans hrun'))
    have hkept := Connector.keptAll_initial.run_all hrun
    rw [if_pos (hkept.resolver_of_settled hsettled)] at hlength
    exact hlength

/-- The callback of the first resolver stops the second one. -/
def twoRequests : List (ConnectorEvent ℕ) :=
  [.connect [0x61] [0x38], .connect [0x62] [0x38], .run 0 (.error ⟨1, ErrorCode.generic⟩) none,
    .run 1 (.ok [4]) none, .run 1 (.ok []) none]

theorem all_answered_iff_twoRequests :
    ∃ c' effects, Step.run Connector.step .initial twoRequests = .ok (c', effects) ∧
      answered effects = [0] ∧
      ¬Step.Guarded Connector.step (fun c event => ¬c.Abandons event) .initial twoRequests := by
  have hrun : Step.run Connector.step .initial twoRequests = .ok (_, _) := rfl
  have hiff := all_answered_iff hrun (by decide)
  exact ⟨_, _, hrun, rfl, hiff.not.mp (by decide)⟩

end Net

end Cyng
