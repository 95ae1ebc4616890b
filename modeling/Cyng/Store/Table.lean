import Cyng.Obj.Hash
import Cyng.Theory.KeyedRows
import Cyng.Theory.Machine
import Cyng.Build

/-!
# Tables

A table is a hash table from keys to record bodies. Keys and bodies are vectors of
objects; their sizes are fixed by the meta data. Two keys are the same to the table when
they have the same size and the same hash, and two objects when they have the same hash.

A call publishes events on the way and ends with a result. An exception that leaves a
call is a result as well: every call that throws does so before it changes anything, and
the table stays in use.
-/

namespace Cyng

open Theory

/-- `std::less<std::size_t>`: the order of the indices in an attribute map. -/
instance Meta.indexOrder : LinearOrder (BitVec 64) :=
  LinearOrder.lift' BitVec.toNat BitVec.toNat_injective

/-- `column` -/
structure Column where
  name : Bytes
  type : TypeCode
deriving DecidableEq

/-- `column_sql` -/
structure ColumnSql extends Column where
  width : BitVec 64
deriving DecidableEq

/-- `meta_store`: the key columns come first. -/
structure Meta where
  name : Bytes
  columns : List Column
  pk : ℕ
  pk_le : pk ≤ columns.length

namespace Meta

variable (m : Meta)

def size : ℕ := m.columns.length
def keySize : ℕ := m.pk
def bodySize : ℕ := m.size - m.keySize

/-- `meta::check_integrity` -/
def checkIntegrity (key data : List Obj) : Prop :=
  key.length = m.keySize ∧ data.length = m.bodySize

instance (key data : List Obj) : Decidable (m.checkIntegrity key data) :=
  inferInstanceAs (Decidable (_ ∧ _))

/-- The data of a record whose sizes were checked. -/
def vector {m : Meta} {key data : List Obj} (sizes : m.checkIntegrity key data) :
    Vector Obj m.bodySize :=
  ⟨data.toArray, by simpa using sizes.2⟩

theorem getElem?_eq_get_vector {m : Meta} {key data : List Obj}
    (sizes : m.checkIntegrity key data) (idx : Fin m.bodySize) :
    data[idx]? = some ((vector sizes).get idx) :=
  List.getElem?_eq_getElem (idx.isLt.trans_eq sizes.2.symm)

/-- `std::numeric_limits<std::size_t>::max()`: there is no such column. -/
def noColumn : BitVec 64 := BitVec.allOnes 64

/-- `meta::get_index_by_name` -/
def indexByName (name : Bytes) : BitVec 64 :=
  match m.columns.findIdx? fun col => col.name = name with
  | some idx => BitVec.ofNat 64 idx
  | none => noColumn

/-- `meta::get_body_index_by_name`: for a key column the difference wraps around. -/
def bodyIndexByName (name : Bytes) : BitVec 64 :=
  let idx := m.indexByName name
  if idx ≠ noColumn then idx - BitVec.ofNat 64 m.keySize else idx

end Meta

/-- `std::equal_to<key_t>`: keys of the same size are the same when their hashes are. -/
def equalTo (hasher : Hasher) : Setoid (List Obj) where
  r pk1 pk2 := pk1.length = pk2.length ∧ hashItems hasher 0 pk1 = hashItems hasher 0 pk2
  iseqv :=
    { refl := fun _ => ⟨rfl, rfl⟩
      symm := fun h => ⟨h.1.symm, h.2.symm⟩
      trans := fun h h' => ⟨h.1.trans h'.1, h.2.trans h'.2⟩ }

instance (hasher : Hasher) : DecidableRel (equalTo hasher).r := fun _ _ =>
  inferInstanceAs (Decidable (_ ∧ _))

/-- `operator==(object const&, object const&)` -/
def Obj.same (hasher : Hasher) (a b : Obj) : Prop := a.hash hasher = b.hash hasher

instance (hasher : Hasher) (a b : Obj) : Decidable (a.same hasher b) :=
  inferInstanceAs (Decidable (_ = _))

/-- `body`: the data part of a record. -/
structure Body (n : ℕ) where
  data : Vector Obj n
  generation : BitVec 64
deriving DecidableEq

/-- Swap in the new value of a column and count the generation up. -/
def Body.assign {n : ℕ} (body : Body n) (idx : Fin n) (value : Obj) : Body n :=
  ⟨body.data.set idx value, body.generation + 1⟩

/-- `boost::uuids::uuid`: where a change comes from. -/
abbrev Uuid := Octets 16

/-- `boost::uuids::nil_uuid()` -/
def nilUuid : Uuid := ⟨List.replicate 16 0, rfl⟩

/-- What subscribers are told. -/
inductive Event (n : ℕ)
  | insert (key : List Obj) (data : Vector Obj n) (generation : BitVec 64) (source : Uuid)
  | modify (key : List Obj) (attr : Fin n × Obj) (data : Vector Obj n) (generation : BitVec 64)
      (source : Uuid)
  | remove (key : List Obj) (data : Vector Obj n) (source : Uuid)
  | clear (source : Uuid)
  | trx (start : Bool)

/-- `record`: what a predicate over rows gets to see. -/
structure Record (m : Meta) where
  key : List Obj
  body : Body m.bodySize

/-- `comparator`: a value, by its type and by what is equal to it. -/
structure Comparator where
  type : TypeCode
  equals : Obj → Bool

/-- The condition of `compare`, without its assertion. -/
def Comparator.matches (cmp : Comparator) (obj : Obj) : Bool :=
  obj.typeCode = cmp.type && cmp.equals obj

/-- `compare` -/
def Comparator.compare (b : Build) (cmp : Comparator) (obj : Obj) : Except Fault Bool := do
  b.check "is_same_type<T>(obj)" (obj.typeCode = cmp.type)
  return cmp.matches obj

/-- How a call on a table ends. -/
inductive Result
  | inserted (ok : Bool)
  | merged (ok : Bool)
  | modified (ok : Bool)
  | erased (ok : Bool)
  | erasedIf (counter : ℕ)
  | cleared
  | thrown (what : String)
deriving DecidableEq, Repr

/-- What a call does that is seen from outside. -/
inductive Output (n : ℕ)
  | publish (event : Event n)
  | result (r : Result)

/-- `table`: every record passes the integrity check of the meta data; for the body that
is its type. -/
structure Table (hasher : Hasher) (m : Meta) where
  data : KeyedRows (equalTo hasher) (Body m.bodySize)
  keySize : ∀ row ∈ data.rows, row.1.length = m.keySize

namespace Table

variable {hasher : Hasher} {m : Meta}

def empty : Table hasher m := ⟨.empty, fun _ h => absurd h List.not_mem_nil⟩

/-- `table::size` -/
def size (t : Table hasher m) : ℕ := t.data.rows.length

/-- `table::exists` -/
def «exists» (t : Table hasher m) (key : List Obj) : Bool := (t.data.find key).isSome

/-- `table::lookup`; `none` is the record without data. -/
def lookup (t : Table hasher m) (key : List Obj) : Option (Record m) :=
  (t.data.find key).map fun row => ⟨key, row.2⟩

/-! ### Loops over columns -/

section Columns

variable (hasher) {n : ℕ}

/-- One round of the loop in `table::update`: apply, count, then publish. -/
def updateColumn (key : List Obj) (source : Uuid) :
    Step (Body n) (Fin n × Obj) (Event n) Fault := fun body (idx, value) =>
  if (body.data.get idx).same hasher value then .ok (body, [])
  else
    let body' := body.assign idx value
    .ok (body', [.modify key (idx, value) body'.data body'.generation source])

/-- `table::update`: the columns one after the other. The sizes agree by type, which is
the assertion of the source. -/
def update (key : List Obj) (data : Vector Obj n) (source : Uuid) (body : Body n) :
    Except Fault (Body n × List (Event n)) :=
  Step.run (updateColumn hasher key source) body
    ((List.finRange n).map fun idx => (idx, data.get idx))

/-- Publish, then apply and count. -/
def publishAndAssign (key : List Obj) (source : Uuid) (body : Body n) (idx : Fin n)
    (value : Obj) : Body n × List (Event n) :=
  (body.assign idx value, [.modify key (idx, value) body.data body.generation source])

/-- The assertion in the loop of `table::modify` for an attribute map. -/
def indexAssertion : String := "attr.first != std::numeric_limits<std::size_t>::max()"

/-- One round of the loop in `table::modify` for an attribute map. -/
def modifyColumn (b : Build) (key : List Obj) (source : Uuid) :
    Step (Body n) (BitVec 64 × Obj) (Event n) Fault := fun body (idx, value) => do
  b.check indexAssertion (idx ≠ Meta.noColumn)
  if h : idx.toNat < n then
    if (body.data.get ⟨idx.toNat, h⟩).same hasher value then return (body, [])
    return publishAndAssign key source body ⟨idx.toNat, h⟩ value
  return (body, [])

section Rounds

variable {hasher} {b : Build} (key : List Obj) (source : Uuid) {body : Body n} {idx : Fin n}
  {value : Obj} {attr : BitVec 64 × Obj}

theorem updateColumn_of_same (h : (body.data.get idx).same hasher value) :
    updateColumn hasher key source body (idx, value) = .ok (body, []) :=
  if_pos h

theorem updateColumn_of_not_same (h : ¬(body.data.get idx).same hasher value) :
    updateColumn hasher key source body (idx, value) = .ok (body.assign idx value,
      [.modify key (idx, value) (body.assign idx value).data (body.generation + 1) source]) :=
  if_neg h

variable (passes : b.enabled indexAssertion = true → attr.1 ≠ Meta.noColumn)
include passes

theorem modifyColumn_of_not_lt (h : ¬attr.1.toNat < n) :
    modifyColumn hasher b key source body attr = .ok (body, []) := by
  simp [modifyColumn, Build.check_eq_ok_iff.mpr passes, h]

theorem modifyColumn_of_same (h : attr.1.toNat < n)
    (same : (body.data.get ⟨attr.1.toNat, h⟩).same hasher attr.2) :
    modifyColumn hasher b key source body attr = .ok (body, []) := by
  simp [modifyColumn, Build.check_eq_ok_iff.mpr passes, h, same]

theorem modifyColumn_of_not_same (h : attr.1.toNat < n)
    (differs : ¬(body.data.get ⟨attr.1.toNat, h⟩).same hasher attr.2) :
    modifyColumn hasher b key source body attr =
      .ok (publishAndAssign key source body ⟨attr.1.toNat, h⟩ attr.2) := by
  simp [modifyColumn, Build.check_eq_ok_iff.mpr passes, h, differs]

end Rounds

end Columns

/-! ### Calls -/

/-- The outputs of a call: its events, then its result. -/
def answer (t : Table hasher m) (events : List (Event m.bodySize)) (r : Result) :
    Table hasher m × List (Output m.bodySize) :=
  (t, events.map .publish ++ [.result r])

/-- Write the body of the row found under a key. -/
def put (t : Table hasher m) (key : List Obj) (body : Body m.bodySize) : Table hasher m where
  data := t.data.update key fun _ => body
  keySize := by
    intro row hrow
    obtain ⟨row', hrow', rfl⟩ := List.mem_map.mp hrow
    split_ifs <;> exact t.keySize row' hrow'

/-- `data_.emplace`, for a key that is not there. -/
def emplace (t : Table hasher m) (key : List Obj) (body : Body m.bodySize)
    (size : key.length = m.keySize) (absent : t.data.find key = none) : Table hasher m where
  data := t.data.emplace key body absent
  keySize := by
    intro row hrow
    rcases List.mem_append.mp hrow with hrow | hrow
    · exact t.keySize row hrow
    · rw [List.mem_singleton.mp hrow]
      exact size

/-- `data_.erase`, for the row found under a key. -/
def remove (t : Table hasher m) (key : List Obj) : Table hasher m :=
  ⟨t.data.erase key, fun row hrow => t.keySize row (List.mem_filter.mp hrow).1⟩

/-- Keep some of the rows. -/
def filter (t : Table hasher m) (p : List Obj × Body m.bodySize → Bool) : Table hasher m :=
  ⟨t.data.filter p, fun row hrow => t.keySize row (List.mem_filter.mp hrow).1⟩

/-- `table::insert` and `table::emplace` -/
def insert (t : Table hasher m) (key data : List Obj) (generation : BitVec 64)
    (source : Uuid) : Table hasher m × List (Output m.bodySize) :=
  if sizes : m.checkIntegrity key data then
    match absent : t.data.find key with
    | some _ => t.answer [] (.inserted false)
    | none =>
      (t.emplace key ⟨Meta.vector sizes, generation⟩ sizes.1 absent).answer
        [.insert key (Meta.vector sizes) generation source] (.inserted true)
  else t.answer [] (.inserted false)

/-- `table::merge`: a record that is there already is updated, and the call returns false. -/
def merge (t : Table hasher m) (key data : List Obj) (generation : BitVec 64)
    (source : Uuid) : Except Fault (Table hasher m × List (Output m.bodySize)) :=
  if sizes : m.checkIntegrity key data then
    match absent : t.data.find key with
    | none =>
      .ok <| (t.emplace key ⟨Meta.vector sizes, generation⟩ sizes.1 absent).answer
        [.insert key (Meta.vector sizes) generation source] (.merged true)
    | some row => do
      let (body, events) ← update hasher key (Meta.vector sizes) source row.2
      return (t.put key body).answer events (.merged false)
  else .ok (t.answer [] (.merged false))

section Found

variable {t : Table hasher m} {key data : List Obj} {generation : BitVec 64}
  {source : Uuid} {row : List Obj × Body m.bodySize} (sizes : m.checkIntegrity key data)

theorem insert_of_find_none (absent : t.data.find key = none) :
    t.insert key data generation source =
      (t.emplace key ⟨Meta.vector sizes, generation⟩ sizes.1 absent).answer
        [.insert key (Meta.vector sizes) generation source] (.inserted true) := by
  simp only [insert, dif_pos sizes]
  split
  next row hfind =>
    rw [absent] at hfind
    cases hfind
  next => rfl

theorem insert_of_find (hfind : t.data.find key = some row) :
    t.insert key data generation source = t.answer [] (.inserted false) := by
  unfold insert
  split_ifs
  · split
    next => rfl
    next absent =>
      rw [hfind] at absent
      cases absent
  · rfl

theorem merge_of_find_none (absent : t.data.find key = none) :
    t.merge key data generation source =
      .ok ((t.emplace key ⟨Meta.vector sizes, generation⟩ sizes.1 absent).answer
        [.insert key (Meta.vector sizes) generation source] (.merged true)) := by
  simp only [merge, dif_pos sizes]
  split
  next => rfl
  next row hfind =>
    rw [absent] at hfind
    cases hfind

theorem merge_of_find (hfind : t.data.find key = some row) :
    t.merge key data generation source =
      (update hasher key (Meta.vector sizes) source row.2 >>= fun result =>
        .ok ((t.put key result.1).answer result.2 (.merged false))) := by
  simp only [merge, dif_pos sizes]
  split
  next absent =>
    rw [hfind] at absent
    cases absent
  next row' hrow' =>
    obtain rfl : row = row' := Option.some.inj (hfind.symm.trans hrow')
    rfl

end Found

/-- The common part of `table::modify` for an attribute and of `table::compute`: `at`
throws where the index is out of range, before anything is published. -/
def change (t : Table hasher m) (key : List Obj) (idx : BitVec 64) (f : Obj → Obj)
    (source : Uuid) : Table hasher m × List (Output m.bodySize) :=
  match t.data.find key with
  | none => t.answer [] (.modified false)
  | some row =>
    if h : idx.toNat < m.bodySize then
      let old := row.2.data.get ⟨idx.toNat, h⟩
      if old.same hasher (f old) then t.answer [] (.modified false)
      else
        let (body, events) := publishAndAssign key source row.2 ⟨idx.toNat, h⟩ (f old)
        (t.put key body).answer events (.modified true)
    else t.answer [] (.thrown "std::out_of_range")

/-- `table::modify(key_t const&, attr_t&&)` -/
def modify (t : Table hasher m) (key : List Obj) (attr : BitVec 64 × Obj) (source : Uuid) :
    Table hasher m × List (Output m.bodySize) :=
  t.change key attr.1 (fun _ => attr.2) source

/-- `table::modify(key_t const&, attr_map_t&&)` -/
def modifyMap (b : Build) (t : Table hasher m) (key : List Obj)
    (am : List (BitVec 64 × Obj)) (source : Uuid) :
    Except Fault (Table hasher m × List (Output m.bodySize)) :=
  match t.data.find key with
  | none => .ok (t.answer [] (.modified false))
  | some row => do
    let (body, events) ← Step.run (modifyColumn hasher b key source) row.2 am
    return (t.put key body).answer events (.modified true)

/-- `table::modify(key_t const&, param_t const&)` -/
def modifyParam (t : Table hasher m) (key : List Obj) (param : Bytes × Obj) (source : Uuid) :
    Table hasher m × List (Output m.bodySize) :=
  t.modify key (m.bodyIndexByName param.1, param.2) source

/-- `table::modify(key_t const&, param_map_t const&)`: of several names with the same
index the first one counts. -/
def modifyParamMap (b : Build) (t : Table hasher m) (key : List Obj)
    (pm : List (Bytes × Obj)) (source : Uuid) :
    Except Fault (Table hasher m × List (Output m.bodySize)) :=
  let am := pm.foldl (fun am param =>
    OrderedMap.insert (m.bodyIndexByName param.1) param.2 am) []
  t.modifyMap b key am source

/-- `table::compute` by column index; `f` is the cast to the type of the function, the
function itself, and `make_object` in one. -/
def compute (t : Table hasher m) (key : List Obj) (idx : BitVec 64) (f : Obj → Obj)
    (source : Uuid) : Table hasher m × List (Output m.bodySize) :=
  t.change key idx f source

/-- `table::compute` by column name -/
def computeByName (t : Table hasher m) (key : List Obj) (name : Bytes) (f : Obj → Obj)
    (source : Uuid) : Table hasher m × List (Output m.bodySize) :=
  t.compute key (m.bodyIndexByName name) f source

/-- `std::find_if` over the rows, in the order of the table. -/
def findRow {n : ℕ} (b : Build) (col : BitVec 64) (cmp : Comparator) :
    List (List Obj × Body n) → Except Fault (Option (List Obj × Body n))
  | [] => .ok none
  | row :: rows =>
    if h : col.toNat < n then do
      if ← cmp.compare b (row.2.data.get ⟨col.toNat, h⟩) then return some row
      findRow b col cmp rows
    else .error (.exception "std::out_of_range")

/-- `table::find_first` by column index; `none` is the record without data. -/
def findFirst (b : Build) (t : Table hasher m) (col : BitVec 64) (cmp : Comparator) :
    Except Fault (Option (Record m)) := do
  let row ← findRow b col cmp t.data.rows
  return row.map fun row => ⟨row.1, row.2⟩

/-- `table::find_first` by column name -/
def findFirstByName (b : Build) (t : Table hasher m) (name : Bytes) (cmp : Comparator) :
    Except Fault (Option (Record m)) :=
  let idx := m.bodyIndexByName name
  if idx ≠ Meta.noColumn then t.findFirst b idx cmp else .ok none

/-- `table::erase`: the event carries the key of the call. -/
def erase (t : Table hasher m) (key : List Obj) (source : Uuid) :
    Table hasher m × List (Output m.bodySize) :=
  match t.data.find key with
  | none => t.answer [] (.erased false)
  | some row =>
    (t.remove key).answer
      [.remove key row.2.data source] (.erased true)

/-- `table::erase_if`: the rows in the order of the table. -/
def eraseIf (t : Table hasher m) (f : Record m → Bool) (source : Uuid) :
    Table hasher m × List (Output m.bodySize) :=
  let selected := t.data.rows.filter fun row => f ⟨row.1, row.2⟩
  (t.filter fun row => !f ⟨row.1, row.2⟩).answer
    (selected.map fun row => .remove row.1 row.2.data source) (.erasedIf selected.length)

/-- `table::clear` -/
def clear (_ : Table hasher m) (source : Uuid) : Table hasher m × List (Output m.bodySize) :=
  empty.answer [.clear source] .cleared

end Table

/-- The calls that change a table. -/
inductive Call (m : Meta)
  | insert (key data : List Obj) (generation : BitVec 64) (source : Uuid)
  | merge (key data : List Obj) (generation : BitVec 64) (source : Uuid)
  | modify (key : List Obj) (attr : BitVec 64 × Obj) (source : Uuid)
  | modifyMap (key : List Obj) (am : List (BitVec 64 × Obj)) (source : Uuid)
  | modifyParam (key : List Obj) (param : Bytes × Obj) (source : Uuid)
  | modifyParamMap (key : List Obj) (pm : List (Bytes × Obj)) (source : Uuid)
  | compute (key : List Obj) (idx : BitVec 64) (f : Obj → Obj) (source : Uuid)
  | computeByName (key : List Obj) (name : Bytes) (f : Obj → Obj) (source : Uuid)
  | erase (key : List Obj) (source : Uuid)
  | eraseIf (f : Record m → Bool) (source : Uuid)
  | clear (source : Uuid)

/-- One call on a table. -/
def Table.call {hasher : Hasher} {m : Meta} (b : Build) :
    Step (Table hasher m) (Call m) (Output m.bodySize) Fault := fun t c =>
  match c with
  | .insert key data generation source => .ok (t.insert key data generation source)
  | .merge key data generation source => t.merge key data generation source
  | .modify key attr source => .ok (t.modify key attr source)
  | .modifyMap key am source => t.modifyMap b key am source
  | .modifyParam key param source => .ok (t.modifyParam key param source)
  | .modifyParamMap key pm source => t.modifyParamMap b key pm source
  | .compute key idx f source => .ok (t.compute key idx f source)
  | .computeByName key name f source => .ok (t.computeByName key name f source)
  | .erase key source => .ok (t.erase key source)
  | .eraseIf f source => .ok (t.eraseIf f source)
  | .clear source => .ok (t.clear source)

end Cyng
