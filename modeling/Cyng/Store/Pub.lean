import Cyng.Store.Table

/-!
# Subscriptions

A publisher keeps four lists of slots, one for each kind of event. All four kinds of
events are sent to the slots of the first list, the one for insertions; a slot whose
channel is gone answers false and is removed from it.

A world is a table with its subscribers. It changes by calls on the table, by connecting
and disconnecting slots, and by channels that close.
-/

namespace Cyng

open Theory

/-- `slot_ptr`: a slot by its address. -/
abbrev Slot := ℕ

/-- `disconnect(std::vector<slot_ptr>&, slot_ptr)` -/
def disconnect (vec : List Slot) (s : Slot) : List Slot × Bool :=
  (vec.erase s, vec.contains s)

/-- `tidy`: remove a list of slots from the container. -/
def tidy (vec expired : List Slot) : List Slot :=
  expired.foldl (fun vec s => (disconnect vec s).1) vec

/-- `pub` -/
structure Pub where
  slotsInsert : List Slot
  slotsModify : List Slot
  slotsRemove : List Slot
  slotsClear : List Slot
deriving DecidableEq

namespace Pub

def empty : Pub := ⟨[], [], [], []⟩

variable (pub : Pub) (sp : Slot)

def connectInsert : Pub := { pub with slotsInsert := pub.slotsInsert ++ [sp] }
def connectModify : Pub := { pub with slotsModify := pub.slotsModify ++ [sp] }
def connectRemove : Pub := { pub with slotsRemove := pub.slotsRemove ++ [sp] }
def connectClear : Pub := { pub with slotsClear := pub.slotsClear ++ [sp] }

/-- `pub::connect_only` -/
def connectOnly : Pub :=
  (((pub.connectInsert sp).connectModify sp).connectRemove sp).connectClear sp

/-- `pub::disconnect` -/
def disconnect : Pub × Bool :=
  let (slotsInsert, found) := Cyng.disconnect pub.slotsInsert sp
  (⟨slotsInsert, (Cyng.disconnect pub.slotsModify sp).1, (Cyng.disconnect pub.slotsRemove sp).1,
    (Cyng.disconnect pub.slotsClear sp).1⟩, found)

/-- The four overloads of `pub::forward`: each of them goes over `slots_insert_`. -/
def forward {n : ℕ} (alive : Slot → Bool) : Step Pub (Event n) (Slot × Event n) Fault :=
  fun pub event =>
    let expired := (pub.slotsInsert.filter fun sp => !alive sp).reverse
    .ok ({ pub with slotsInsert := tidy pub.slotsInsert expired },
      (pub.slotsInsert.filter alive).map fun sp => (sp, event))

end Pub

/-- The events among the outputs of a call. -/
def published {n : ℕ} (outs : List (Output n)) : List (Event n) :=
  outs.filterMap fun out =>
    match out with
    | .publish event => some event
    | .result _ => none

/-- `table::charge`: the rows as inserts, inside a transaction. -/
def Table.charge {hasher : Hasher} {m : Meta} (t : Table hasher m) : List (Event m.bodySize) :=
  .trx true ::
    (t.data.rows.map fun row => .insert row.1 row.2.data row.2.generation nilUuid) ++
  [.trx false]

/-- A table, its subscribers, and the slots whose channel lives. -/
structure World (hasher : Hasher) (m : Meta) where
  table : Table hasher m
  pub : Pub
  alive : Slot → Bool

/-- What can happen to a world. -/
inductive Action (m : Meta)
  | call (c : Call m)
  | connect (sp : Slot)
  | connectOnly (sp : Slot)
  | connectInsert (sp : Slot)
  | connectModify (sp : Slot)
  | connectRemove (sp : Slot)
  | connectClear (sp : Slot)
  | disconnect (sp : Slot)
  | expire (sp : Slot)

namespace World

variable {hasher : Hasher} {m : Meta}

/-- One action; the outputs are what is delivered to which slot. -/
def step (b : Build) : Step (World hasher m) (Action m) (Slot × Event m.bodySize) Fault :=
  fun w action =>
    match action with
    | .call c => do
      let (table, outs) ← w.table.call b c
      let (pub, deliveries) ← Step.run (Pub.forward w.alive) w.pub (published outs)
      return ({ w with table, pub }, deliveries)
    | .connect sp =>
      .ok ({ w with pub := w.pub.connectOnly sp },
        if w.alive sp then w.table.charge.map fun event => (sp, event) else [])
    | .connectOnly sp => .ok ({ w with pub := w.pub.connectOnly sp }, [])
    | .connectInsert sp => .ok ({ w with pub := w.pub.connectInsert sp }, [])
    | .connectModify sp => .ok ({ w with pub := w.pub.connectModify sp }, [])
    | .connectRemove sp => .ok ({ w with pub := w.pub.connectRemove sp }, [])
    | .connectClear sp => .ok ({ w with pub := w.pub.connectClear sp }, [])
    | .disconnect sp => .ok ({ w with pub := (w.pub.disconnect sp).1 }, [])
    | .expire sp => .ok ({ w with alive := Function.update w.alive sp false }, [])

end World

end Cyng
