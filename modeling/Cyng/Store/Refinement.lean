import Cyng.Store.Table

/-!
# A table is a finite map

The contents of a table are a map from keys to bodies; keys are compared object by
object, in order. Each call has a meaning on such a map, and this meaning compares keys
and columns by their values.

The table compares hashes. A call follows its meaning where the hashes tell apart what it
compares: the key it is given from the keys of the other rows, and the new value of a
column from the stored one. This is the condition `Discerning`; a run whose calls all meet
it ends with the contents, and with the results, that the map gives.
-/

namespace Cyng

open Theory

/-! ### The contents of a table -/

/-- A map from keys to bodies. -/
abbrev Contents (m : Meta) := List Obj → Option (Body m.bodySize)

/-- The rows of a table, read by the values of their keys. -/
def Table.contents {hasher : Hasher} {m : Meta} (t : Table hasher m) : Contents m :=
  t.data.toMap

section Contents

variable {hasher : Hasher} {m : Meta} {t : Table hasher m} {key : List Obj}
  {body : Body m.bodySize} {row : List Obj × Body m.bodySize}

@[simp] theorem contents_empty : (Table.empty : Table hasher m).contents = fun _ => none := rfl

theorem contents_of_find (h : t.data.find key = some row) : t.contents row.1 = some row.2 :=
  KeyedRows.toMap_of_find h

theorem contents_emplace (size : key.length = m.keySize) (absent : t.data.find key = none) :
    (t.emplace key body size absent).contents = Function.update t.contents key (some body) :=
  KeyedRows.toMap_emplace absent

theorem contents_put (h : t.data.find key = some row) :
    (t.put key body).contents = Function.update t.contents row.1 (some body) :=
  KeyedRows.toMap_update h

theorem contents_remove (h : t.data.find key = some row) :
    (t.remove key).contents = Function.update t.contents row.1 none :=
  KeyedRows.toMap_erase h

theorem contents_filter (p : List Obj × Body m.bodySize → Bool) :
    (t.filter p).contents = fun k => (t.contents k).filter fun x => p (k, x) :=
  KeyedRows.toMap_filter t.data p

/-- Where no other row passes for the key, the row found is the one the map has. -/
theorem find_eq_contents (h : t.data.Discerns key) :
    t.data.find key = (t.contents key).map (key, ·) :=
  KeyedRows.find_eq_of_discerns h

/-- `lookup` then reads the map. -/
theorem lookup_eq_contents (h : t.data.Discerns key) :
    t.lookup key = (t.contents key).map fun body => ⟨key, body⟩ := by
  rw [Table.lookup, find_eq_contents h]
  cases t.contents key <;> rfl

end Contents

/-! ### What calls mean -/

namespace Body

variable {n : ℕ}

/-- Set a column; the generation counts up when the value is a new one. -/
def write (body : Body n) (idx : Fin n) (value : Obj) : Body n :=
  if body.data.get idx = value then body else body.assign idx value

/-- Set a column by its index; there may be no such column. -/
def writeAt (body : Body n) (attr : BitVec 64 × Obj) : Body n :=
  if h : attr.1.toNat < n then body.write ⟨attr.1.toNat, h⟩ attr.2 else body

/-- Set all columns; the generation counts up once for each column with a new value. -/
def overwrite (body : Body n) (data : Vector Obj n) : Body n :=
  ⟨data, body.generation + BitVec.ofNat 64
    ((List.finRange n).countP fun idx => body.data.get idx ≠ data.get idx)⟩

end Body

namespace Contents

variable {m : Meta}

/-- Change one column of the record of a key. -/
def change (c : Contents m) (key : List Obj) (idx : BitVec 64) (f : Obj → Obj) :
    Contents m × List Result :=
  match c key with
  | none => (c, [.modified false])
  | some body =>
    if h : idx.toNat < m.bodySize then
      let old := body.data.get ⟨idx.toNat, h⟩
      if old = f old then (c, [.modified false])
      else (Function.update c key (some (body.assign ⟨idx.toNat, h⟩ (f old))), [.modified true])
    else (c, [.thrown "std::out_of_range"])

/-- Change several columns of the record of a key. -/
def changeAll (c : Contents m) (key : List Obj) (am : List (BitVec 64 × Obj)) :
    Contents m × List Result :=
  match c key with
  | none => (c, [.modified false])
  | some body => (Function.update c key (some (am.foldl Body.writeAt body)), [.modified true])

/-- The attributes that parameters stand for. -/
def attributes (pm : List (Bytes × Obj)) : List (BitVec 64 × Obj) :=
  pm.foldl (fun am param => OrderedMap.insert (m.bodyIndexByName param.1) param.2 am) []

/-- What a call does to the map, and what it answers; the answer of a merge is left open. -/
noncomputable def call : Step (Contents m) (Call m) Result Fault := fun c call =>
  match call with
  | .insert key data generation _ =>
    if sizes : m.checkIntegrity key data then
      if c key = none then
        .ok (Function.update c key (some ⟨Meta.vector sizes, generation⟩), [.inserted true])
      else .ok (c, [.inserted false])
    else .ok (c, [.inserted false])
  | .merge key data generation _ =>
    if sizes : m.checkIntegrity key data then
      match c key with
      | none => .ok (Function.update c key (some ⟨Meta.vector sizes, generation⟩), [])
      | some body => .ok (Function.update c key (some (body.overwrite (Meta.vector sizes))), [])
    else .ok (c, [])
  | .modify key attr _ => .ok (c.change key attr.1 fun _ => attr.2)
  | .modifyMap key am _ => .ok (c.changeAll key am)
  | .modifyParam key param _ =>
    .ok (c.change key (m.bodyIndexByName param.1) fun _ => param.2)
  | .modifyParamMap key pm _ => .ok (c.changeAll key (attributes (m := m) pm))
  | .compute key idx f _ => .ok (c.change key idx f)
  | .computeByName key name f _ => .ok (c.change key (m.bodyIndexByName name) f)
  | .erase key _ => .ok (Function.update c key none, [.erased (c key).isSome])
  | .eraseIf f _ =>
    .ok (fun key => (c key).filter fun body => !f ⟨key, body⟩,
      [.erasedIf {key | ∃ body, c key = some body ∧ f ⟨key, body⟩}.ncard])
  | .clear _ => .ok (fun _ => none, [.cleared])

end Contents

section Frame

variable {m : Meta} {c : Contents m} {r : Contents m × List Result} {key k : List Obj}

end Frame

/-! ### Loops over columns -/

section Columns

variable {hasher : Hasher} {n : ℕ} {body : Body n}

theorem Body.get_assign {idx idx' : Fin n} {value : Obj} :
    (body.assign idx value).data.get idx' = if idx = idx' then value else body.data.get idx' := by
  show (body.data.set idx value)[idx'.val] = _
  rw [Vector.getElem_set]
  simp only [Fin.ext_iff]
  rfl

end Columns

/-! ### What the hashes have to tell apart -/

namespace Body

variable (hasher : Hasher) {n : ℕ}

end Body

section Discerning

variable {hasher : Hasher} {m : Meta} (b : Build) (t : Table hasher m)

end Discerning

/-! ### Calls follow their meaning -/

/-- The results of calls, except those of `merge`. -/
def answers {n : ℕ} (outs : List (Output n)) : List Result :=
  outs.filterMap fun out =>
    match out with
    | .publish _ => none
    | .result (.merged _) => none
    | .result r => some r

section Answers

variable {hasher : Hasher} {m : Meta} {t : Table hasher m} {n : ℕ}

theorem answers_append (outs outs' : List (Output n)) :
    answers (outs ++ outs') = answers outs ++ answers outs' :=
  List.filterMap_append

@[simp] theorem answers_publish (events : List (Event n)) :
    answers (events.map Output.publish) = [] := by
  induction events with
  | nil => rfl
  | cons _ _ ih => exact ih

@[simp] theorem answers_answer {events : List (Event m.bodySize)} {r : Result} :
    answers (t.answer events r).2 = answers [(.result r : Output m.bodySize)] := by
  rw [Table.answer, answers_append, answers_publish, List.nil_append]

@[simp] theorem answer_fst {events : List (Event m.bodySize)} {r : Result} :
    (t.answer events r).1 = t := rfl

end Answers

section Steps

variable {hasher : Hasher} {m : Meta} {b : Build} {t : Table hasher m} {key : List Obj}
  {source : Uuid} {n : ℕ} {body : Body n}

/-- What a call leaves and answers, as the map sees it. -/
def seen (r : Table hasher m × List (Output m.bodySize)) : Contents m × List Result :=
  (r.1.contents, answers r.2)

end Steps

section Refinement

variable {hasher : Hasher} {m : Meta} {b : Build}

/-- Whatever the hash of the leaves is, a key passes for each of its permutations. -/
theorem equalTo_of_perm {key key' : List Obj} (h : key.Perm key') :
    (equalTo hasher).r key key' :=
  ⟨h.length_eq, hashItems_perm hasher h 0⟩

/-- A table with a key of two numbers and a body of one. -/
def pairMeta : Meta where
  name := []
  columns := [⟨[97], .uint64⟩, ⟨[98], .uint64⟩, ⟨[99], .uint64⟩]
  pk := 2
  pk_le := by decide

/-- Two records, one of them overwritten, the other one erased. -/
def sampleCalls : List (Call pairMeta) :=
  [.insert [.size 1, .size 2] [.size 7] 1 nilUuid, .insert [.size 1, .size 3] [.size 8] 1 nilUuid,
    .merge [.size 1, .size 2] [.size 9] 1 nilUuid, .erase [.size 1, .size 3] nilUuid]

end Refinement

end Cyng
