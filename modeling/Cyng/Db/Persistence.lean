import Cyng.Db.Storage
import Cyng.Sql.Builder

/-!
# Records in a database

A record goes to the database by the statement that `insert` builds: its key, its generation and
its data are bound to the placeholders, and the columns that the statement lists get their values.
It comes back by the statement that `select` builds, whose row `storage::loop` turns into a record.

The record is the same again exactly when each of its values survives the way to a cell and back,
the generation among them. Values that the binder and the reader of a type do not both know are
left out of account, and so is NULL, whose placeholder is named by the width of a column.
-/

namespace Cyng

open Theory

/-! ### Rows of a table -/

/-- A row, by the names of its columns. -/
abbrev StoredRow := Bytes → Cell

/-- What `INSERT INTO t (a, b) VALUES (?, ?)` stores: a column that is listed gets the value of the
placeholder at the same place, the others get none. -/
def insertedRow (names : List Bytes) (stmt : Sqlite.Bindings) : StoredRow := fun name =>
  (stmt[names.idxOf name]?.getD none).getD .null

/-- The values of a statement that is executed, in the order of the placeholders. -/
def Statement.row (s : Statement) : List Cell := s.stmt.map fun c => c.getD .null

/-- What `SELECT a, b FROM t` makes of a row. -/
def selectedRow (names : List Bytes) (row : StoredRow) : List Cell := names.map row

def columnNames (cols : List ColumnSql) : List Bytes := cols.map fun col => col.name

/-- The meta data of an SQL table as statements know them. -/
def MetaOf.toMetaSql (ms : MetaOf ColumnSql) (h : ms.pk ≤ ms.columns.length) : MetaSql :=
  ⟨ms.name, ms.columns, ms.pk, h⟩

section Calls

variable (f : Formats) (sq : Sqlite) (b : Build)
  (truncate : (ty : FloatType) → BitVec (8 * ty.size) → BitVec 64)

/-- `insert(SQLITE, ms).bind_values(ms)`, `statement::bind(key, data, ms)`, `statement::execute`:
there is a placeholder for each column that is listed. -/
def saveRecord (ms : MetaSql) (key data : List Obj) : Except Fault (Option StoredRow) := do
  let names := columnNames (Sql.listed .sqlite ⟨ms.name, ms.columns, ms.pk⟩)
  let (ok, s) ← (Statement.prepared names.length).bindRecord f sq b key data ms
  return if ok then some (insertedRow names s.stmt) else none

/-- The round of `storage::loop` for a row: all columns are selected. -/
def loadRecord (ms : MetaOf ColumnSql) (row : StoredRow) : Except Fault LoadedRecord :=
  toRecord truncate b ms
    (some (sqliteResult f sq b (selectedRow (columnNames ms.columns) row)))

/-- The record of a table in memory is saved, loaded, and what it was. -/
def Persists (m : MetaOf Column) (width : List (BitVec 64)) (key data : List Obj)
    (g : BitVec 64) : Prop :=
  ∃ (sql : MetaOf ColumnSql) (hpk : sql.pk ≤ sql.columns.length) (row : StoredRow)
    (r : LoadedRecord),
    toSql b m width = .ok sql ∧
    saveRecord f sq b (sql.toMetaSql hpk) key (.scalar (.uint64 g) :: data) = .ok (some row) ∧
    loadRecord f sq b truncate sql row = .ok r ∧
    r.m = ⟨memName (sqlName m.name), m.columns, m.pk⟩ ∧ r.key = key ∧ r.data = data ∧ r.gen = g

/-- A value for a column: both sides know its type, and SQLite does not refuse it. -/
structure Fitting (obj : Obj) (type : TypeCode) : Prop where
  stored : ∃ v, obj = .scalar v ∧ v.typeCode = type ∧ Stored v ∧ bindValue f sq b v ≠ .ok none

/-- The values of a list of columns. -/
def FittingAll (objs : List Obj) (types : List TypeCode) : Prop :=
  List.Forall₂ (Fitting f sq b) objs types

end Calls

/-! ### Binding all values -/

section Bind

variable {f : Formats} {sq : Sqlite} {b : Build} {n : ℕ} {pushed objs : List Obj}
  {types : List TypeCode} {s s' : Statement} {m : MetaSql} {obj : Obj} {type : TypeCode}

/-- What the binder makes of an object. -/
theorem Fitting.cellOf_eq (h : Fitting f sq b obj type) :
    ∃ v, obj = .scalar v ∧ cellOf f sq b obj = bindValue f sq b v := by
  obtain ⟨v, rfl, -, hstored, -⟩ := h.stored
  refine ⟨v, rfl, ?_⟩
  unfold cellOf
  split
  · next heq =>
    rw [Obj.scalar.inj heq] at hstored
    exact hstored.elim
  · next heq => rw [Obj.scalar.inj heq]
  · next heq => exact absurd rfl (heq v)

theorem Fitting.ne_null (h : Fitting f sq b obj type) : obj ≠ .scalar .null := by
  obtain ⟨v, rfl, -, hstored, -⟩ := h.stored
  intro heq
  rw [Obj.scalar.inj heq] at hstored
  exact hstored

/-- A value is bound when its binder does not fail. -/
theorem accepts_of_cell {counter : ℕ} {columnSize : BitVec 64} (h : Fitting f sq b obj type)
    (hroom : counter ≤ n) (hcell : ∃ c, cellOf f sq b obj = .ok c) :
    Statement.Accepts f sq b n counter obj columnSize := by
  refine ⟨hroom, ?_, fun heq => absurd heq h.ne_null⟩
  obtain ⟨v, rfl, heq⟩ := h.cellOf_eq
  obtain ⟨c, hc⟩ := hcell
  obtain ⟨w, hw, -, -, htaken⟩ := h.stored
  obtain rfl := Obj.scalar.inj hw
  rw [heq] at hc ⊢
  cases c with
  | none => exact absurd hc htaken
  | some c => exact ⟨c, hc⟩

/-- A statement that is pushed all of the objects has not failed to bind any. -/
theorem exists_cell_of_pushAll (hfitting : FittingAll f sq b objs types)
    (h : s.pushAll f sq b m objs = .ok s') : ∀ obj ∈ objs, ∃ c, cellOf f sq b obj = .ok c := by
  induction hfitting generalizing s with
  | nil => simp
  | cons hfit _ ih =>
    obtain ⟨t, hpush, hrest⟩ := bind_eq_ok_iff.mp h
    obtain ⟨_, -, hpush⟩ := bind_eq_ok_iff.mp hpush
    obtain ⟨_, hbind, -⟩ := bind_eq_ok_iff.mp hpush
    rw [Statement.bind_of_ne_null _ hfit.ne_null] at hbind
    obtain ⟨c, hc, -⟩ := bind_eq_ok_iff.mp hbind
    exact List.forall_mem_cons.mpr ⟨⟨c, hc⟩, ih hrest⟩

/-- Where all objects have cells and places, they are pushed to their places. -/
theorem exists_pushAll (hplaced : Statement.Placed f sq b n pushed s)
    (hfitting : FittingAll f sq b objs types) (hroom : pushed.length + objs.length ≤ n)
    (hcells : ∀ obj ∈ objs, ∃ c, cellOf f sq b obj = .ok c) :
    ∃ s', s.pushAll f sq b m objs = .ok s' ∧ Statement.Placed f sq b n (pushed ++ objs) s' := by
  induction hfitting generalizing pushed s with
  | nil => exact ⟨s, rfl, by rwa [List.append_nil]⟩
  | @cons obj type objs types hfit hrest ih =>
    obtain ⟨hcell, hcells'⟩ := List.forall_mem_cons.mp hcells
    rw [List.length_cons] at hroom
    have haccepts : Statement.Accepts f sq b s.stmt.length s.bindCounter obj
        (m.getColumn (s.bindCounter - 1)).width := by
      refine accepts_of_cell hfit ?_ hcell
      rw [hplaced.counter, hplaced.size]
      omega
    have hpos : 1 ≤ s.bindCounter := by
      rw [hplaced.counter]
      omega
    obtain ⟨c, hc, hbind⟩ := Statement.bind_of_accepts s.bindCounter hpos haccepts
    obtain ⟨t, hpush⟩ : ∃ t, s.push f sq b obj (m.getColumn (s.bindCounter - 1)).width = .ok t := by
      have hne : s.bindCounter ≠ 0 := by omega
      exact ⟨_, by rw [Statement.push, Build.check_of hne, ok_bind, hbind]; rfl⟩
    have ht := Statement.placed_push hplaced haccepts hpush
    have hroom' : (pushed ++ [obj]).length + objs.length ≤ n := by
      rw [List.length_append, List.length_singleton]
      omega
    obtain ⟨s', hall, hs'⟩ := ih ht hroom' hcells'
    refine ⟨s', ?_, by rwa [List.append_assoc] at hs'⟩
    exact bind_eq_ok_iff.mpr ⟨t, hpush, hall⟩

end Bind

/-! ### From the placeholders to the row -/

/-- Selecting what was inserted: each value in its place. -/
theorem selectedRow_insertedRow {names : List Bytes} {s : Statement} (hnames : names.Nodup)
    (hlength : s.stmt.length = names.length) :
    selectedRow names (insertedRow names s.stmt) = s.row := by
  apply List.ext_getElem
  · simp [selectedRow, Statement.row, hlength]
  · intro i hi hi'
    have hlt : i < names.length := by simpa [selectedRow] using hi
    have hlt' : i < s.stmt.length := hlength ▸ hlt
    simp [selectedRow, insertedRow, Statement.row, hnames.idxOf_getElem, hlt']

/-! ### Reading values -/

section Read

variable {f : Formats} {sq : Sqlite} {b : Build} {truncate : (ty : FloatType) →
  BitVec (8 * ty.size) → BitVec 64} {n : ℕ} {objs seg : List Obj} {s : Statement} {obj : Obj}
  {type : TypeCode} {j : ℕ} {cols : List ColumnSql} {row : List Cell}

/-- The values that come back; the others that a record may have are none of the binder's. -/
def SurvivesObj (f : Formats) (b : Build) (obj : Obj) : Prop :=
  ∃ v, obj = .scalar v ∧ Survives f b v

theorem survivesObj_scalar {v : Scalar} : SurvivesObj f b (.scalar v) ↔ Survives f b v :=
  ⟨fun ⟨_, hw, h⟩ => Obj.scalar.inj hw ▸ h, fun h => ⟨v, rfl, h⟩⟩

/-- What comes back has been bound. -/
theorem Fitting.exists_cell (h : Fitting f sq b obj type) (hsurvives : SurvivesObj f b obj) :
    ∃ c, cellOf f sq b obj = .ok c := by
  obtain ⟨v, rfl, hcell⟩ := h.cellOf_eq
  obtain ⟨w, hw, -, hstored, htaken⟩ := h.stored
  obtain rfl := Obj.scalar.inj hw
  obtain ⟨c, hc, -⟩ := (reads_iff_survives hstored htaken).mpr (survivesObj_scalar.mp hsurvives)
  exact ⟨some c, hcell.trans hc⟩

theorem FittingAll.exists_cells {types : List TypeCode} (h : FittingAll f sq b objs types)
    (hsurvive : ∀ obj ∈ objs, SurvivesObj f b obj) :
    ∀ obj ∈ objs, ∃ c, cellOf f sq b obj = .ok c := by
  induction h with
  | nil => simp
  | cons hfit _ ih =>
    rw [List.forall_mem_cons] at hsurvive ⊢
    exact ⟨hfit.exists_cell hsurvive.1, ih hsurvive.2⟩

theorem sqliteResult_get {c : Cell} (h : row[j]? = some c) (width : BitVec 64) :
    (sqliteResult f sq b row).get (j + 1) type width =
      (recover (getValue f sq b c type) >>= fun v => .ok (.scalar v)) := by
  rw [← get_of_column h]
  rfl

/-- A value that is bound reads as itself from its column, if it is one of those that do. -/
theorem get_iff_survives (hplaced : Statement.Placed f sq b n objs s)
    (hfit : Fitting f sq b obj type) (hobj : objs[j]? = some obj) (width : BitVec 64) :
    (sqliteResult f sq b s.row).get (j + 1) type width = .ok obj ↔ SurvivesObj f b obj := by
  obtain ⟨c, hc, hstmt⟩ := hplaced.bound j obj hobj
  obtain ⟨v, rfl, rfl, hstored, htaken⟩ := hfit.stored
  have hbind : bindValue f sq b v = .ok (some c) := by
    obtain ⟨w, hw, hcell⟩ := hfit.cellOf_eq
    rwa [hcell, ← Obj.scalar.inj hw] at hc
  have hrow : s.row[j]? = some c := by
    rw [Statement.row, List.getElem?_map, hstmt]
    rfl
  have hreads : Reads f sq b v ↔ recover (getValue f sq b c v.typeCode) = .ok v := by
    constructor
    · rintro ⟨c', hbind', hread⟩
      obtain rfl : c = c' := Option.some.inj (Except.ok.inj (hbind.symm.trans hbind'))
      exact hread
    · exact fun hread => ⟨c, hbind, hread⟩
  rw [sqliteResult_get hrow, survivesObj_scalar, ← reads_iff_survives hstored htaken, hreads]
  cases recover (getValue f sq b c v.typeCode) with
  | error fault => exact iff_of_false (fun h => nomatch h) (fun h => nomatch h)
  | ok w => simp

/-- The columns of some objects that stand behind each other read as these objects. -/
theorem readCells_iff_survives (hplaced : Statement.Placed f sq b n objs s)
    (hfitting : FittingAll f sq b seg (cols.map fun col => col.type))
    (hseg : ∀ k, k < seg.length → objs[j + k]? = seg[k]?) :
    readCells (sqliteResult f sq b s.row) (j + 1) cols = .ok seg ↔
      ∀ obj ∈ seg, SurvivesObj f b obj := by
  induction cols generalizing j seg with
  | nil =>
    cases hfitting
    simp [readCells]
  | cons col cols ih =>
    obtain ⟨obj, seg, hfit, hrest, rfl⟩ := List.forall₂_cons_right_iff.mp hfitting
    have hobj : objs[j]? = some obj := hseg 0 (Nat.succ_pos _)
    have hread := get_iff_survives hplaced hfit hobj col.width
    have htail := ih (j := j + 1) hrest fun k hk => by
      have h := hseg (k + 1) (Nat.succ_lt_succ hk)
      rwa [← Nat.add_assoc, Nat.add_right_comm] at h
    rw [List.forall_mem_cons, ← hread, ← htail, readCells]
    -- an object and the objects behind it are read one after the other
    constructor
    · intro h
      obtain ⟨_, hhead, h⟩ := bind_eq_ok_iff.mp h
      obtain ⟨_, hbehind, h⟩ := bind_eq_ok_iff.mp h
      obtain ⟨rfl, rfl⟩ := List.cons.inj (Except.ok.inj h)
      exact ⟨hhead, hbehind⟩
    · rintro ⟨hhead, hbehind⟩
      rw [hhead, ok_bind, hbehind]
      rfl

/-- A number that is read for the generation is an unsigned one. -/
theorem exists_of_get_uint64 {width : BitVec 64}
    (h : (sqliteResult f sq b row).get (j + 1) .uint64 width = .ok obj) :
    ∃ x : BitVec 64, obj = .scalar (.int .uint64 x) := by
  cases hrow : row[j]? with
  | none =>
    obtain ⟨v, hget, -⟩ := bind_eq_ok_iff.mp h
    simp [get, Build.check_of, hrow] at hget
  | some c =>
    rw [sqliteResult_get hrow] at h
    exact ⟨_, (Except.ok.inj h).symm⟩

end Read

/-! ### Saving and loading -/

section Records

variable {f : Formats} {sq : Sqlite} {b : Build}
  {truncate : (ty : FloatType) → BitVec (8 * ty.size) → BitVec 64}

section Save

variable {ms : MetaSql} {key data : List Obj}

theorem listed_of_forall {m : MetaOf ColumnSql}
    (hrowid : ∀ col ∈ m.columns, col.name ≠ Sql.token "ROWID") :
    Sql.listed .sqlite m = m.columns := by
  apply List.filter_eq_self.mpr
  intro col hcol
  simp [Sql.Base.doSkip, hrowid col hcol]

/-- The objects of a record that fits its table are pushed one after the other. -/
theorem saveRecord_eq (hrowid : ∀ col ∈ ms.columns, col.name ≠ Sql.token "ROWID")
    (hsizes : ms.checkIntegrity key data) :
    saveRecord f sq b ms key data =
      ((Statement.prepared ms.columns.length).pushAll f sq b ms (key ++ data) >>= fun s =>
        .ok (some (insertedRow (columnNames ms.columns) s.stmt))) := by
  have hlength : key.length + data.length = ms.size := by
    have hpk := ms.pk_le
    obtain ⟨hkey, hdata⟩ := hsizes
    rw [hkey, hdata]
    unfold MetaSql.bodySize MetaSql.keySize MetaSql.size
    omega
  have hlisted := listed_of_forall (m := ⟨ms.name, ms.columns, ms.pk⟩) hrowid
  have hnames : (columnNames ms.columns).length = ms.columns.length := List.length_map _
  simp only [saveRecord, hlisted, hnames, Statement.bindRecord, Statement.bindKey,
    Build.check_of hlength, Build.check_of (show (Statement.prepared _).bindCounter = 1 from rfl),
    ok_bind, if_pos hsizes, if_pos hsizes.1, Statement.pushAll, List.foldlM_append]
  cases List.foldlM (fun s v => Statement.push f sq b s v (ms.getColumn (s.bindCounter - 1)).width)
    (Statement.prepared ms.columns.length) key with
  | error fault => rfl
  | ok s =>
    simp only [ok_bind, pure_eq_ok]
    cases List.foldlM (fun s v => Statement.push f sq b s v
      (ms.getColumn (s.bindCounter - 1)).width) s data <;> rfl

variable (hrowid : ∀ col ∈ ms.columns, col.name ≠ Sql.token "ROWID")
  (hsizes : ms.checkIntegrity key data)
  (hfitting : FittingAll f sq b (key ++ data) (ms.columns.map fun col => col.type))

include hrowid hsizes hfitting

/-- The values of a record that was saved have cells, and stand in the order of the columns. -/
theorem placed_of_saveRecord {row : StoredRow}
    (h : saveRecord f sq b ms key data = .ok (some row)) :
    (∀ obj ∈ key ++ data, ∃ c, cellOf f sq b obj = .ok c) ∧
      ∃ s, row = insertedRow (columnNames ms.columns) s.stmt ∧
        Statement.Placed f sq b ms.columns.length (key ++ data) s := by
  rw [saveRecord_eq hrowid hsizes] at h
  obtain ⟨s, hall, hrow⟩ := bind_eq_ok_iff.mp h
  have hcells := exists_cell_of_pushAll hfitting hall
  have hroom : ([] : List Obj).length + (key ++ data).length ≤ ms.columns.length := by
    rw [hfitting.length_eq, List.length_map, List.length_nil, zero_add]
  obtain ⟨s', hall', hplaced⟩ :=
    exists_pushAll Statement.placed_prepared hfitting hroom hcells (m := ms)
  obtain rfl : s = s' := Except.ok.inj (hall.symm.trans hall')
  exact ⟨hcells, s, (Option.some.inj (Except.ok.inj hrow)).symm, hplaced⟩

/-- Values that have cells are saved. -/
theorem exists_saveRecord (hcells : ∀ obj ∈ key ++ data, ∃ c, cellOf f sq b obj = .ok c) :
    ∃ s, saveRecord f sq b ms key data =
        .ok (some (insertedRow (columnNames ms.columns) s.stmt)) ∧
      Statement.Placed f sq b ms.columns.length (key ++ data) s := by
  have hroom : ([] : List Obj).length + (key ++ data).length ≤ ms.columns.length := by
    rw [hfitting.length_eq, List.length_map, List.length_nil, zero_add]
  obtain ⟨s, hall, hplaced⟩ :=
    exists_pushAll Statement.placed_prepared hfitting hroom hcells (m := ms)
  refine ⟨s, ?_, hplaced⟩
  rw [saveRecord_eq hrowid hsizes, hall]
  rfl

end Save

section Load

variable {m : MetaOf Column} {keys body : List ColumnSql} {g : ColumnSql} {name : Bytes}
  {row : List Cell} {r : LoadedRecord}

/-- A record is loaded from a row when each of its parts is read from the columns of this part. -/
theorem toRecord_eq_ok_iff (hpk : m.pk < m.columns.length) (hkeys : keys.length = m.pk)
    (hg : g.toColumn = ⟨gen, .uint64⟩) (hcols : (keys ++ body).map ColumnSql.toColumn = m.columns)
    (hgen : ∀ col ∈ m.columns, col.name ≠ gen) :
    toRecord truncate b ⟨name, keys ++ g :: body, m.pk⟩ (some (sqliteResult f sq b row)) = .ok r ↔
      ∃ obj, readCells (sqliteResult f sq b row) 1 keys = .ok r.key ∧
        (sqliteResult f sq b row).get (m.pk + 1) g.type g.width = .ok obj ∧
        readCells (sqliteResult f sq b row) (m.pk + 2) body = .ok r.data ∧
        r.m = ⟨memName name, m.columns, m.pk⟩ ∧ r.gen = numericCast truncate obj 0 := by
  have hbody : ∀ col ∈ body, col.name ≠ gen := by
    intro col hcol
    apply hgen col.toColumn
    rw [← hcols]
    exact List.mem_map_of_mem (List.mem_append_right _ hcol)
  have hloop : MetaOf.loop ⟨name, keys ++ g :: body, m.pk⟩
      (fetchColumn truncate (sqliteResult f sq b row)) ⟨1, [], [], 0⟩ = _ :=
    loop_fetchColumn rfl hkeys (congrArg Column.name hg) (congrArg Column.type hg) hbody
  simp only [toRecord, toMem_of_columns hpk hg hcols hgen, ok_bind, hloop]
  constructor
  · intro h
    obtain ⟨_, h, hret⟩ := bind_eq_ok_iff.mp h
    obtain ⟨ks, hks, h⟩ := bind_eq_ok_iff.mp h
    obtain ⟨obj, hobj, h⟩ := bind_eq_ok_iff.mp h
    obtain ⟨ds, hds, h⟩ := bind_eq_ok_iff.mp h
    rw [← Except.ok.inj hret, ← Except.ok.inj h]
    exact ⟨obj, hks, hobj, hds, rfl, rfl⟩
  · rintro ⟨obj, hks, hobj, hds, hm, hr⟩
    cases r
    simp only at hks hds hm hr
    simp only [hks, hobj, hds, hm, hr, ok_bind, pure_eq_ok]

end Load

/-! ### Round trips -/

variable {m : MetaOf Column} {width : List (BitVec 64)} {key data : List Obj} {g : BitVec 64}

theorem fitting_uint64 : Fitting f sq b (.scalar (.uint64 g)) .uint64 where
  stored := ⟨.uint64 g, rfl, rfl, trivial, fun h => nomatch Except.ok.inj h⟩

theorem survives_uint64 : SurvivesObj f b (.scalar (.uint64 g)) ↔ g.toNat < 2 ^ 63 :=
  survivesObj_scalar

section Columns

variable {keys body : List ColumnSql} {gcol : ColumnSql} {name : Bytes} {s : Statement} {n : ℕ}
  (hkeys : keys.length = m.pk) (hg : gcol.toColumn = ⟨gen, .uint64⟩)
  (hcols : (keys ++ body).map ColumnSql.toColumn = m.columns)
  (hkey : key.length = m.pk)
  (hfitting : FittingAll f sq b (key ++ data) (m.columns.map Column.type))

include hkeys hcols hkey hfitting

/-- The key and the data are of the types of their columns. -/
theorem fittingAll_parts :
    FittingAll f sq b key (keys.map fun col => col.type) ∧
      FittingAll f sq b data (body.map fun col => col.type) := by
  have htypes : m.columns.map Column.type =
      (keys.map fun col => col.type) ++ body.map fun col => col.type := by
    rw [← hcols, List.map_map, List.map_append]
    rfl
  have hlength : (keys.map fun col => col.type).length = key.length := by
    rw [List.length_map, hkeys, hkey]
  rw [htypes] at hfitting
  have htake := List.forall₂_take key.length hfitting
  have hdrop := List.forall₂_drop key.length hfitting
  rw [List.take_left, ← hlength, List.take_left] at htake
  rw [List.drop_left, ← hlength, List.drop_left] at hdrop
  exact ⟨htake, hdrop⟩

include hg

/-- The objects that are bound are of the types of the columns of the SQL table. -/
theorem fittingAll_columns (g : BitVec 64) :
    FittingAll f sq b (key ++ .scalar (.uint64 g) :: data)
      ((keys ++ gcol :: body).map fun col => col.type) := by
  obtain ⟨hfitkey, hfitdata⟩ := fittingAll_parts hkeys hcols hkey hfitting
  have htype : gcol.type = .uint64 := congrArg Column.type hg
  rw [List.map_append, List.map_cons, htype]
  exact List.rel_append hfitkey (List.Forall₂.cons fitting_uint64 hfitdata)

omit hkeys hkey hfitting in
/-- The column for the generation has a name of its own. -/
theorem nodup_columnNames (hnames : (m.columns.map Column.name).Nodup)
    (hgen : ∀ col ∈ m.columns, col.name ≠ gen) :
    (columnNames (keys ++ gcol :: body)).Nodup := by
  have hperm : (columnNames (keys ++ gcol :: body)).Perm (gen :: m.columns.map Column.name) := by
    have hname : gcol.name = gen := congrArg Column.name hg
    rw [← hcols, List.map_map, ← hname]
    exact List.perm_middle.map _
  rw [hperm.nodup_iff, List.nodup_cons]
  refine ⟨?_, hnames⟩
  intro hmem
  obtain ⟨col, hcol, hname⟩ := List.mem_map.mp hmem
  exact hgen col hcol hname

omit hkeys hkey hfitting in
/-- Where no column of the table is left to the database, none of the SQL table is. -/
theorem forall_ne_rowid (hrowid : ∀ col ∈ m.columns, col.name ≠ Sql.token "ROWID") :
    ∀ col ∈ keys ++ gcol :: body, col.name ≠ Sql.token "ROWID" := by
  intro col hcol
  rcases List.mem_cons.mp (List.perm_middle.mem_iff.mp hcol) with rfl | hmem
  · have hname : col.name = gen := congrArg Column.name hg
    rw [hname]
    decide
  · apply hrowid col.toColumn
    rw [← hcols]
    exact List.mem_map_of_mem hmem

/-- Loading what was saved. -/
theorem loads_iff_survives (hpk : m.pk < m.columns.length)
    (hnames : (m.columns.map Column.name).Nodup) (hgen : ∀ col ∈ m.columns, col.name ≠ gen)
    (hplaced : Statement.Placed f sq b (keys ++ gcol :: body).length
      (key ++ .scalar (.uint64 g) :: data) s) :
    (∃ r, loadRecord f sq b truncate ⟨name, keys ++ gcol :: body, m.pk⟩
        (insertedRow (columnNames (keys ++ gcol :: body)) s.stmt) = .ok r ∧
      r.m = ⟨memName name, m.columns, m.pk⟩ ∧ r.key = key ∧ r.data = data ∧ r.gen = g) ↔
    (∀ obj ∈ key ++ data, SurvivesObj f b obj) ∧ g.toNat < 2 ^ 63 := by
  have hnodup := nodup_columnNames hg hcols hnames hgen
  have hrow := selectedRow_insertedRow hnodup
    (hplaced.size.trans (List.length_map (f := fun col : ColumnSql => col.name)).symm)
  obtain ⟨hfitkey, hfitdata⟩ := fittingAll_parts hkeys hcols hkey hfitting
  have htype : gcol.type = .uint64 := congrArg Column.type hg
  -- the key, the generation and the data are read from their columns
  have hreadkey := readCells_iff_survives (j := 0) hplaced hfitkey fun k hk => by
    rw [zero_add, List.getElem?_append_left hk]
  have hreadgen := get_iff_survives (j := m.pk) hplaced (fitting_uint64 (g := g)) (by
    rw [← hkey, List.getElem?_append_right (Nat.le_refl _), Nat.sub_self]
    rfl) gcol.width
  have hreaddata := readCells_iff_survives (j := m.pk + 1) hplaced hfitdata fun k _ => by
    rw [← hkey, getElem?_behind]
  rw [survives_uint64] at hreadgen
  simp only [loadRecord, hrow, toRecord_eq_ok_iff hpk hkeys hg hcols hgen, List.mem_append,
    or_imp, forall_and, ← hreadkey, ← hreaddata, ← hreadgen, htype]
  constructor
  · rintro ⟨r, ⟨obj, hks, hobj, hds, -, hgenr⟩, -, rfl, rfl, rfl⟩
    obtain ⟨x, rfl⟩ := exists_of_get_uint64 hobj
    rw [numericCast_uint64] at hgenr
    rw [hgenr]
    exact ⟨⟨hks, hds⟩, hobj⟩
  · rintro ⟨⟨hks, hds⟩, hobj⟩
    have hnumber := (numericCast_uint64 truncate g 0).symm
    exact ⟨⟨⟨memName name, m.columns, m.pk⟩, key, data, g⟩,
      ⟨_, hks, hobj, hds, rfl, hnumber⟩, rfl, rfl, rfl, rfl⟩

end Columns

/-- A record whose values are of the types of its columns persists exactly when each of its values
survives, and its generation is below 2^63. -/
theorem persists_iff (hpk : m.pk < m.columns.length) (hwidth : width.length = m.columns.length)
    (hnames : (m.columns.map Column.name).Nodup) (hgen : ∀ col ∈ m.columns, col.name ≠ gen)
    (hrowid : ∀ col ∈ m.columns, col.name ≠ Sql.token "ROWID") (hkey : key.length = m.pk)
    (hfitting : FittingAll f sq b (key ++ data) (m.columns.map Column.type)) :
    Persists f sq b truncate m width key data g ↔
      (∀ obj ∈ key ++ data, SurvivesObj f b obj) ∧ g.toNat < 2 ^ 63 := by
  obtain ⟨keys, gcol, body, hsql, hkeys, hg, hcols⟩ := exists_columns_toSql (b := b) hpk hwidth
  have hpk' : m.pk ≤ (keys ++ gcol :: body).length := by
    rw [List.length_append]
    omega
  have hfitting' := fittingAll_columns hkeys hg hcols hkey hfitting g
  have hrowid' := forall_ne_rowid hg hcols hrowid
  have hsizes : (MetaOf.toMetaSql ⟨sqlName m.name, keys ++ gcol :: body, m.pk⟩
      hpk').checkIntegrity key (.scalar (.uint64 g) :: data) := by
    refine ⟨hkey, ?_⟩
    have hlength := hfitting'.length_eq
    rw [List.length_map, List.length_append, hkey] at hlength
    show _ = (keys ++ gcol :: body).length - m.pk
    omega
  constructor
  · rintro ⟨sql, hpk'', row, r, hsql', hsave, hload⟩
    obtain rfl := Except.ok.inj (hsql.symm.trans hsql')
    obtain ⟨-, s, rfl, hplaced⟩ := placed_of_saveRecord hrowid' hsizes hfitting' hsave
    exact (loads_iff_survives hkeys hg hcols hkey hfitting hpk hnames hgen hplaced).mp
      ⟨r, hload⟩
  · intro hsurvive
    have hcells : ∀ obj ∈ key ++ .scalar (.uint64 g) :: data, ∃ c, cellOf f sq b obj = .ok c := by
      apply hfitting'.exists_cells
      intro obj hobj
      rcases List.mem_cons.mp (List.perm_middle.mem_iff.mp hobj) with rfl | hmem
      · exact survives_uint64.mpr hsurvive.2
      · exact hsurvive.1 obj hmem
    obtain ⟨s, hsave, hplaced⟩ := exists_saveRecord hrowid' hsizes hfitting' hcells
    obtain ⟨r, hload⟩ :=
      (loads_iff_survives hkeys hg hcols hkey hfitting hpk hnames hgen hplaced).mpr hsurvive
    exact ⟨_, hpk', _, r, hsql, hsave, hload⟩

end Records

/-- A person of the table `demo`, who is 42. -/
theorem persists_iff_demoMeta :
    Persists .uuids .small .debug (fun _ _ => 0) demoMeta.toMetaOf [0, 64, 0] [.size 7]
        [.scalar (.string [0x78]), .size 42] 3 ∧
      ¬ Persists .uuids .small .debug (fun _ _ => 0) demoMeta.toMetaOf [0, 64, 0] [.size 7]
        [.scalar (.string [0x78]), .size 42] 0x8000000000000000 := by
  have hfitting : FittingAll .uuids .small .debug
      [.size 7, .scalar (.string [0x78]), .size 42] (demoMeta.toMetaOf.columns.map Column.type) := by
    have hstring : Fitting .uuids .small .debug (.scalar (.string [0x78])) .string :=
      ⟨_, rfl, rfl, trivial, fun h => nomatch Except.ok.inj h⟩
    exact .cons fitting_uint64 (.cons hstring (.cons fitting_uint64 .nil))
  have hiff (g : BitVec 64) :
      Persists .uuids .small .debug (fun _ _ => 0) demoMeta.toMetaOf [0, 64, 0] [.size 7]
          [.scalar (.string [0x78]), .size 42] g ↔ _ :=
    persists_iff (by decide) rfl (by decide) (by decide) (by decide) rfl hfitting
  constructor
  · apply (hiff 3).mpr
    refine ⟨?_, by decide⟩
    intro obj hobj
    simp only [List.cons_append, List.nil_append, List.mem_cons, List.not_mem_nil, or_false] at hobj
    rcases hobj with rfl | rfl | rfl
    · exact survives_uint64.mpr (by decide)
    · have hlength : ([0x78] : Bytes).length < 2 ^ 31 := by decide
      exact survivesObj_scalar.mpr hlength
    · exact survives_uint64.mpr (by decide)
  · intro hpersists
    have hlarge : ¬ (0x8000000000000000 : BitVec 64).toNat < 2 ^ 63 := by decide
    exact hlarge ((hiff _).mp hpersists).2

end Cyng
