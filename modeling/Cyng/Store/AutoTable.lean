import Cyng.Store.Access
import Mathlib.Data.List.Forall2
import Mathlib.Data.List.ReduceOption

/-!
# Tables that find their keys themselves

An `auto_table` remembers the key of its last record and calculates the next one from it. Threads
that insert records into such a table get the keys one after the other, whatever else they do with
the store and however their steps interleave: an insertion writes to the table, so it has the table
for itself.

What holds of requests that are served one after the other holds of the threads.
-/

namespace Cyng

open Theory

section AutoTable

variable {hasher : Hasher} {m : Meta} {b : Build} {name : Bytes}

/-- The key function of the table looks at the last key only. -/
def AutoKeys.ofFun (f : List Obj → List Obj) (current : List Obj) : AutoKeys hasher m where
  current := current
  next _ key := .ok (f key)

/-- An `auto_table` with its subscribers. -/
def autoTable (f : List Obj → List Obj) (current : List Obj) (table : Table hasher m) (pub : Pub) :
    StoredTable hasher := ⟨m, table, pub, some (.ofFun f current)⟩

/-- A function that inserts a record into the `auto_table`. -/
def Request.insertAuto (name : Bytes) (alive : Slot → Bool) (data : List Obj) (source : Uuid) :
    Request hasher Answer :=
  .access [(.write, name)] (List.nodup_singleton _) (.one name alive (.insertAuto data source))
    ⟨⟨.write, List.mem_singleton_self _, .inl rfl⟩, fun
      | .ok _ => trivial
      | .error _ => trivial⟩

/-- The function does not get the table for writing. -/
def Request.Spares {ρ : Type} (name : Bytes) : Request hasher ρ → Prop
  | .access tbls _ _ _ => ∀ tbl ∈ tbls, tbl.2 = name → tbl.1 = .read
  | .createTable _ | .createAutoTable _ _ | .size => True

/-- What is asked of the table. -/
inductive Request.Serves (m : Meta) (name : Bytes) :
    Request hasher Answer → Option (List Obj) → Prop
  | insertAuto {alive : Slot → Bool} {data : List Obj} {source : Uuid}
    (size : data.length = m.bodySize) : Serves m name (.insertAuto name alive data source) data
  | spares {request : Request hasher Answer} (h : request.Spares name) : Serves m name request none

/-! ### What leaves the table alone -/

section Spared

variable {ρ : Type} {cells cells' : ∀ cell, Kept hasher cell} {tbls : List (Access × Bytes)}
  {reply : Except Fault (Reply ρ)}

theorem alone_fault {fault : Fault}
    (h : Transaction.alone (StoreCode.fault fault : StoreCode hasher ρ) cells =
      .ok (reply, cells')) : cells' = cells := by
  rw [StoreCode.fault] at h
  split_ifs at h
  · exact (congrArg Prod.snd (Except.ok.inj h)).symm
  · cases h

theorem spared_after (name : Bytes) {alive : Slot → Bool} {c : TableCall}
    {rest : Except Fault Answer → StoreCode hasher ρ} {shared? : Option (SharedTable hasher)}
    (hrest : ∀ answer, Transaction.alone (rest answer) cells = .ok (reply, cells') →
      cells' (.table name) = cells (.table name) ∧ cells' .store = cells .store)
    (h : Transaction.alone (StoreCode.after b alive c rest shared?) cells = .ok (reply, cells')) :
    cells' (.table name) = cells (.table name) ∧ cells' .store = cells .store := by
  cases shared? with
  | none => cases h
  | some shared =>
    simp only [StoreCode.after] at h
    split at h
    · exact hrest _ h
    · split_ifs at h
      · exact hrest _ h
      · cases h

/-- A function that has the table for reading, or not at all, leaves it as it is. -/
theorem spared_code {f : AccessBody ρ} (htyped : f.Typed tbls)
    (hspares : ∀ tbl ∈ tbls, tbl.2 = name → tbl.1 = .read)
    (h : Transaction.alone (f.code b : StoreCode hasher ρ) cells = .ok (reply, cells')) :
    cells' (.table name) = cells (.table name) ∧ cells' .store = cells .store := by
  induction f generalizing cells with
  | ret value =>
    obtain rfl : cells = cells' := congrArg Prod.snd (Except.ok.inj h)
    exact ⟨rfl, rfl⟩
  | throw fault =>
    rw [alone_fault h]
    exact ⟨rfl, rfl⟩
  | call other alive c rest ih =>
    obtain ⟨⟨how, hmem, hhow⟩, hrest⟩ := htyped
    simp only [AccessBody.code] at h
    split_ifs at h with hconst
    · exact spared_after name (fun answer => ih answer (hrest answer)) h
    · -- what is written is another table
      have hne : Mutex.table name ≠ Mutex.table other := by
        intro heq
        have hread : how = .read := hspares _ hmem (Mutex.table.inj heq).symm
        rcases hhow with hwrite | hconst'
        · rw [hread] at hwrite
          cases hwrite
        · exact hconst hconst'
      obtain ⟨htable, hstore⟩ := spared_after name (fun answer => ih answer (hrest answer)) h
      rw [Function.update_of_ne hne] at htable
      rw [Function.update_of_ne (by simp)] at hstore
      exact ⟨htable, hstore⟩

theorem spared_emplace {t : StoredTable hasher} (hname : name ∈ (cells .store : List Bytes))
    (h : Transaction.alone (Store.emplace t : StoreCode hasher ρ) cells = .ok (reply, cells')) :
    cells' (.table name) = cells (.table name) ∧ name ∈ (cells' .store : List Bytes) := by
  simp only [Store.emplace, Transaction.alone] at h
  by_cases hmem : t.metaStore.name ∈ (cells .store : List Bytes)
  · simp only [hmem, if_true, Transaction.alone] at h
    obtain ⟨-, hcells⟩ := Prod.mk.inj (Except.ok.inj h)
    rw [← hcells, Function.update_eq_self]
    exact ⟨rfl, hname⟩
  · simp only [hmem, if_false, Transaction.alone] at h
    obtain ⟨-, hcells⟩ := Prod.mk.inj (Except.ok.inj h)
    -- the new table has another name
    have hne : Mutex.table name ≠ Mutex.table t.metaStore.name := fun heq =>
      hmem (Mutex.table.inj heq ▸ hname)
    rw [← hcells, Function.update_of_ne hne, Function.update_of_ne (by simp),
      Function.update_of_ne (by simp), Function.update_self]
    exact ⟨rfl, List.mem_append_left _ hname⟩

/-- So does every other request that spares it. -/
theorem spared_request {request : Request hasher ρ} (hspares : request.Spares name)
    (hname : name ∈ (cells .store : List Bytes))
    (h : Transaction.alone (request.code b) cells = .ok (reply, cells')) :
    cells' (.table name) = cells (.table name) ∧ name ∈ (cells' .store : List Bytes) := by
  cases request with
  | access tbls distinct f typed =>
    simp only [Request.code, Store.accessing, Transaction.alone] at h
    split at h
    · rw [alone_fault h]
      exact ⟨rfl, hname⟩
    · split_ifs at h
      · obtain ⟨htable, hstore⟩ := spared_code typed hspares h
        exact ⟨htable, by rw [hstore]; exact hname⟩
      · obtain rfl : cells = cells' := congrArg Prod.snd (Except.ok.inj h)
        exact ⟨rfl, hname⟩
  | createTable m => exact spared_emplace hname h
  | createAutoTable m keys => exact spared_emplace hname h
  | size =>
    obtain rfl : cells = cells' := congrArg Prod.snd (Except.ok.inj h)
    exact ⟨rfl, hname⟩

end Spared

/-! ### An insertion -/

section Insertion

variable {f : List Obj → List Obj} {current data : List Obj} {table : Table hasher m} {pub : Pub}
  {cells : ∀ cell, Kept hasher cell} {sent : List Delivery}

/-- The next key is new, so its record is inserted. -/
theorem call_insertAuto (b : Build) (pub : Pub) (alive : Slot → Bool) (source : Uuid)
    (sizes : m.checkIntegrity (f current) data)
    (absent : table.data.find (f current) = none) :
    ∃ pub' deliveries, (autoTable f current table pub).call b alive (.insertAuto data source) =
      .ok (autoTable f (f current)
        (table.emplace (f current) ⟨Meta.vector sizes, 1⟩ sizes.1 absent) pub',
        .flag true, deliveries) := by
  have hcall : table.call b (.insert (f current) data 1 source) =
      .ok (table.emplace (f current) ⟨Meta.vector sizes, 1⟩ sizes.1 absent,
        [.publish (.insert (f current) (Meta.vector sizes) 1 source), .result (.inserted true)]) :=
    congrArg Except.ok (Table.insert_of_find_none sizes absent)
  have hforward : ∃ pub' deliveries, Step.run (Pub.forward alive) pub
      [.insert (f current) (Meta.vector sizes) 1 source] = .ok (pub', deliveries) := ⟨_, _, rfl⟩
  obtain ⟨pub', deliveries, hforward⟩ := hforward
  refine ⟨pub', deliveries.map fun d => ⟨_, d⟩, ?_⟩
  -- the key is remembered before the record is inserted
  have hact : (autoTable f (f current) table pub).act b alive
      (.call (.insert (f current) data 1 source)) =
      .ok (autoTable f (f current)
        (table.emplace (f current) ⟨Meta.vector sizes, 1⟩ sizes.1 absent) pub',
        .flag true, deliveries.map fun d => ⟨_, d⟩) := by
    simp only [autoTable, StoredTable.act, StoredTable.answer, World.step, hcall, bind,
      Except.bind, pure, Except.pure, List.getLast?_cons_cons, List.getLast?_singleton,
      Result.answer, published, List.filterMap_cons, List.filterMap_nil, hforward]
  exact hact

/-- The request, with nobody else around -/
theorem alone_insertAuto (b : Build) (alive : Slot → Bool) (source : Uuid)
    (hname : name ∈ (cells .store : List Bytes))
    (hcell : cells (.table name) = some ⟨autoTable f current table pub, sent⟩)
    (sizes : m.checkIntegrity (f current) data) (absent : table.data.find (f current) = none) :
    ∃ pub' sent', Transaction.alone ((Request.insertAuto name alive data source).code b) cells =
      .ok (.ok (.returned (.flag true)), Function.update cells (.table name)
        (some ⟨autoTable f (f current)
          (table.emplace (f current) ⟨Meta.vector sizes, 1⟩ sizes.1 absent) pub', sent'⟩)) := by
  obtain ⟨pub', deliveries, hcall⟩ := call_insertAuto b pub alive source sizes absent
  refine ⟨pub', sent ++ deliveries, ?_⟩
  have hnames : ∀ tbl ∈ [(Access.write, name)], tbl.2 ∈ (cells .store : List Bytes) := by
    rw [List.forall_mem_singleton]
    exact hname
  have hwrites : (TableCall.insertAuto data source).isConst = false := rfl
  simp only [Request.insertAuto, Request.code, Store.accessing, Transaction.alone,
    Build.check_of hnames, if_pos hnames, AccessBody.one, AccessBody.code, hwrites,
    Bool.false_eq_true, if_false, hcell, StoreCode.after, hcall, Option.map_some,
    SharedTable.after]

end Insertion

/-! ### One insertion after the other -/

/-- The next keys are those of no record, and differ from each other. -/
structure NewKeys (f : List Obj → List Obj) (n : ℕ) (current : List Obj) (table : Table hasher m) :
    Prop where
  size : ∀ i < n, (f^[i + 1] current).length = m.keySize
  absent : ∀ i < n, table.data.find (f^[i + 1] current) = none
  distinct : ∀ j < n, ∀ i < j, ¬(equalTo hasher).r (f^[j + 1] current) (f^[i + 1] current)

/-- Key, data and generation of the rows of a table, in their order. -/
def Table.records (table : Table hasher m) : List (List Obj × List Obj × BitVec 64) :=
  table.data.rows.map fun row => (row.1, row.2.data.toList, row.2.generation)

/-- The records that insertions make, in their order. -/
def insertedRecords (f : List Obj → List Obj) (current : List Obj) (datas : List (List Obj)) :
    List (List Obj × List Obj × BitVec 64) :=
  ((List.iterate f (f current) datas.length).zip datas).map fun r => (r.1, r.2, 1)

section Serial

variable {f : List Obj → List Obj} {current data : List Obj} {table : Table hasher m} {pub : Pub}
  {n : ℕ} {cells cells' : ∀ cell, Kept hasher cell} {sent : List Delivery}
  {order : List (Request hasher Answer)} {served : List (Option (List Obj))}
  {replies : List (Except Fault (Reply Answer))}

theorem NewKeys.emplace (h : NewKeys f (n + 1) current table) {body : Body m.bodySize}
    (size : (f current).length = m.keySize) (absent : table.data.find (f current) = none) :
    NewKeys f n (f current) (table.emplace (f current) body size absent) where
  size i hi := by
    rw [← Function.iterate_succ_apply]
    exact h.size (i + 1) (Nat.succ_lt_succ hi)
  absent i hi := by
    rw [← Function.iterate_succ_apply]
    rw [KeyedRows.find_eq_none_iff]
    intro row hrow
    rcases List.mem_append.mp hrow with hold | hnew
    · exact KeyedRows.find_eq_none_iff.mp (h.absent (i + 1) (Nat.succ_lt_succ hi)) row hold
    · rw [List.mem_singleton.mp hnew]
      exact h.distinct (i + 1) (Nat.succ_lt_succ hi) 0 (Nat.succ_pos i)
  distinct j hj i hi := by
    rw [← Function.iterate_succ_apply, ← Function.iterate_succ_apply]
    exact h.distinct (j + 1) (Nat.succ_lt_succ hj) (i + 1) (Nat.succ_lt_succ hi)

theorem records_emplace {key : List Obj} (sizes : m.checkIntegrity key data)
    (absent : table.data.find key = none) :
    (table.emplace key ⟨Meta.vector sizes, 1⟩ sizes.1 absent).records =
      table.records ++ [(key, data, 1)] := by
  have hrows : (table.emplace key ⟨Meta.vector sizes, 1⟩ sizes.1 absent).data.rows =
      table.data.rows ++ [(key, ⟨Meta.vector sizes, 1⟩)] := rfl
  rw [Table.records, hrows, List.map_append]
  simp [Table.records, Meta.vector]

theorem insertedRecords_cons (datas : List (List Obj)) :
    insertedRecords f current (data :: datas) =
      (f current, data, 1) :: insertedRecords f (f current) datas := rfl

theorem alone_of_serial {p : StoreCode hasher Answer}
    (h : Transaction.serial cells p = .ok (cells', replies)) :
    ∃ reply, p.alone cells = .ok (reply, cells') ∧ replies = [reply] := by
  rw [Transaction.serial] at h
  cases halone : p.alone cells with
  | error fault =>
    rw [halone] at h
    cases h
  | ok r =>
    rw [halone] at h
    obtain ⟨rfl, rfl⟩ := Prod.mk.inj (Except.ok.inj h)
    exact ⟨r.1, rfl, rfl⟩

/-- Served one after the other, the insertions get the keys in turn, and each of them succeeds. -/
theorem run_serial (hserves : List.Forall₂ (Request.Serves m name) order served)
    (hname : name ∈ (cells .store : List Bytes))
    (hcell : cells (.table name) = some ⟨autoTable f current table pub, sent⟩)
    (hnew : NewKeys f served.reduceOption.length current table)
    (hrun : Step.run Transaction.serial cells (order.map (Request.code b)) =
      .ok (cells', replies)) :
    List.Forall₂ (fun data reply => data.isSome → reply = .ok (.returned (.flag true))) served
        replies ∧
      ∃ (table' : Table hasher m) (pub' : Pub) (sent' : List Delivery), cells' (.table name) =
          some ⟨autoTable f (f^[served.reduceOption.length] current) table' pub', sent'⟩ ∧
        table'.records = table.records ++ insertedRecords f current served.reduceOption := by
  induction hserves generalizing cells current table pub sent replies with
  | nil =>
    obtain ⟨rfl, rfl⟩ := Prod.mk.inj (Except.ok.inj hrun)
    exact ⟨List.Forall₂.nil, table, pub, sent, hcell, (List.append_nil _).symm⟩
  | @cons request data? order served hserve hserves ih =>
    obtain ⟨cells₁, os, os', hstep, hrest, hos⟩ := Step.run_cons_eq_ok_iff.mp hrun
    -- the first request of the order, with nobody else around
    obtain ⟨reply, halone, rfl⟩ := alone_of_serial hstep
    rw [show replies = reply :: os' from hos]
    cases hserve with
    | @insertAuto alive data source size =>
      rw [List.reduceOption_cons_of_some] at hnew ⊢
      have sizes : m.checkIntegrity (f current) data := ⟨hnew.size 0 (Nat.succ_pos _), size⟩
      have absent : table.data.find (f current) = none := hnew.absent 0 (Nat.succ_pos _)
      obtain ⟨pub₁, sent₁, hinsert⟩ :=
        alone_insertAuto b alive source hname hcell sizes absent
      obtain ⟨rfl, rfl⟩ := Prod.mk.inj (Except.ok.inj (halone.symm.trans hinsert))
      -- the table goes on from the key that was given out
      obtain ⟨hreplies, table', pub', sent', hcell', hrecords⟩ :=
        ih (by rw [Function.update_of_ne (by simp)]; exact hname) (Function.update_self _ _ _)
          (hnew.emplace sizes.1 absent) hrest
      refine ⟨List.Forall₂.cons (fun _ => rfl) hreplies, table', pub', sent', hcell', ?_⟩
      rw [hrecords, records_emplace, List.append_assoc, insertedRecords_cons]
      rfl
    | spares hspares =>
      rw [List.reduceOption_cons_of_none] at hnew ⊢
      obtain ⟨htable, hname'⟩ := spared_request hspares hname halone
      obtain ⟨hreplies, hrest'⟩ := ih hname' (htable.trans hcell) hnew hrest
      exact ⟨List.Forall₂.cons (fun hsome => by cases hsome) hreplies, hrest'⟩

end Serial

/-! ### Threads -/

section Threads

variable {τ : Type} [Fintype τ] [DecidableEq τ] {f : List Obj → List Obj} {current : List Obj}
  {table : Table hasher m} {pub : Pub} {s : ∀ cell, Kept hasher cell} {sent : List Delivery}
  {operations : List (ThreadMove τ hasher Answer)} {asked : List (Option (List Obj))}
  {w : Transaction.World τ Mutex Mutex (Kept hasher) Fault (Except Fault (Reply Answer))}
  {outs : List (StoreCode hasher Answer × Except Fault (Reply Answer))}

/-- **Threads insert into an `auto_table` and ask the store for whatever spares the table. However
their steps interleave, every insertion succeeds, and the records get the next keys in turn, in the
order in which the insertions take effect.** -/
theorem insertAuto_in_turn
    (h : Step.run Transaction.step (.idle s) (operations.map (ThreadMove.move b)) = .ok (w, outs))
    (hrest : w.AtRest) (hname : name ∈ (s .store : List Bytes))
    (htable : s (.table name) = some ⟨autoTable f current table pub, sent⟩)
    (hasked : List.Forall₂ (Request.Serves m name) (operations.flatMap ThreadMove.requests) asked)
    (hnew : NewKeys f asked.reduceOption.length current table) :
    ∃ (order : List (Request hasher Answer)) (served : List (Option (List Obj))),
      order.Perm (operations.flatMap ThreadMove.requests) ∧ served.Perm asked ∧
      List.Forall₂ (Request.Serves m name) order served ∧
      Step.run Transaction.serial s (order.map (Request.code b)) =
        .ok (w.cells, outs.map Prod.snd) ∧
      List.Forall₂ (fun data reply => data.isSome → reply = .ok (.returned (.flag true))) served
        (outs.map Prod.snd) ∧
      ∃ (table' : Table hasher m) (pub' : Pub) (sent' : List Delivery), w.cells (.table name) =
          some ⟨autoTable f (f^[served.reduceOption.length] current) table' pub', sent'⟩ ∧
        table'.records = table.records ++ insertedRecords f current served.reduceOption := by
  obtain ⟨order, hperm, hserial⟩ := access_serializable h hrest
  -- what is asked is served in the order in which it takes effect
  obtain ⟨served, hserves, hserved⟩ := List.perm_comp_forall₂ hperm hasked
  -- as many keys are needed as insertions were asked for
  have hlength : served.reduceOption.length = asked.reduceOption.length :=
    (hserved.filterMap id).length_eq
  rw [← hlength] at hnew
  obtain ⟨hreplies, hrecords⟩ := run_serial hserves hname htable hnew hserial
  exact ⟨order, served, hperm, hserved, hserves, hserial, hreplies, hrecords⟩

end Threads

end AutoTable

/-- The next number -/
def nextNumber : List Obj → List Obj
  | [.scalar (.int .uint64 n)] => [.scalar (.int .uint64 (n + 1))]
  | key => key

/-- A store with one table, which counts its records. -/
def countingStore : Store .numbers where
  tables := [([116], autoTable nextNumber [.size 0] (Table.empty : Table .numbers listMeta) .empty)]
  distinct := by decide

/-- Two threads insert a record each. Both have entered the store before one of them gets the
table. -/
def twoInsertions : List (ThreadMove Bool .numbers Answer) :=
  [.ask false (.insertAuto [116] (fun _ => true) [.vector [.size 7]] nilUuid),
    .ask true (.insertAuto [116] (fun _ => true) [.vector [.size 8]] nilUuid),
    .take false (.store, .shared), .take true (.store, .shared), .work false, .work true,
    .work false, .work true, .take true (.table [116], .exclusive), .work true, .work true,
    .work true, .take false (.table [116], .exclusive), .work false, .work false, .work false]

theorem newKeys_countingStore :
    NewKeys nextNumber 2 [.size 0] (Table.empty : Table .numbers listMeta) where
  size := by decide
  absent := fun _ _ => rfl
  distinct := by decide

theorem insertAuto_in_turn_twoInsertions : ∃ (served : List (Option (List Obj))) (w : _)
    (outs : List (StoreCode .numbers Answer × Except Fault (Reply Answer))),
    Step.run Transaction.step (.idle countingStore.cells)
      (twoInsertions.map (ThreadMove.move .release)) = .ok (w, outs) ∧
    served.Perm [some [.vector [.size 7]], some [.vector [.size 8]]] ∧
    List.Forall₂ (fun data reply => data.isSome → reply = .ok (.returned (.flag true))) served
      (outs.map Prod.snd) ∧
    ∃ (table' : Table .numbers listMeta) (pub' : Pub) (sent' : List Delivery),
      w.cells (.table [116]) = some ⟨autoTable nextNumber
        (nextNumber^[served.reduceOption.length] [.size 0]) table' pub', sent'⟩ ∧
      table'.records = insertedRecords nextNumber [.size 0] served.reduceOption := by
  have hrun : ∃ w outs, Step.run Transaction.step (.idle countingStore.cells)
      (twoInsertions.map (ThreadMove.move .release)) = .ok (w, outs) ∧ w.AtRest := by
    refine ⟨_, _, rfl, fun t => ?_⟩
    cases t with
    | false => rfl
    | true => rfl
  obtain ⟨w, outs, h, hrest⟩ := hrun
  have hasked : List.Forall₂ (Request.Serves listMeta [116])
      (twoInsertions.flatMap ThreadMove.requests)
      [some [.vector [.size 7]], some [.vector [.size 8]]] :=
    .cons (.insertAuto rfl) (.cons (.insertAuto rfl) .nil)
  obtain ⟨-, served, -, hserved, -, -, hreplies, hrecords⟩ :=
    insertAuto_in_turn h hrest (by decide) rfl hasked newKeys_countingStore
  exact ⟨served, w, outs, h, hserved, hreplies, hrecords⟩

end Cyng
