import Cyng.Db.Persistence
import Cyng.Db.Lifecycle

/-!
# Loading tables

`storage::loop` selects all rows of a table, makes a record of each of them, and shows the records
to a function until there are no more rows or the function has seen enough. The statement is its
own, and it is finalized at the end, unless not even the first row could be fetched because of an
error.

Records that were saved, and whose values survive, are the records that are shown.
-/

namespace Cyng

open Theory

/-- Show one after the other, until it is enough. -/
def visitWhile {σ α : Type} (visit : σ → α → Except Fault (σ × Bool)) :
    σ → List α → Except Fault σ
  | s, [] => .ok s
  | s, x :: xs => do
    let (s, more) ← visit s x
    if more then visitWhile visit s xs else return s

/-- What a statement that selects has to offer: rows, and an error behind them if there is one. -/
structure Selected where
  rows : List (List Cell)
  failed : Bool

section Loop

variable {σ : Type} (f : Formats) (sq : Sqlite) (b : Build)
  (truncate : (ty : FloatType) → BitVec (8 * ty.size) → BitVec 64) (ms : MetaOf ColumnSql)
  (visit : σ → LoadedRecord → Except Fault (σ × Bool))

/-- The loop of `storage::loop`. -/
def fetchRows (e : Engine) (failed : Bool) :
    List (List Cell) → StatementHandle → σ → Except Fault (σ × StatementHandle)
  | [], st, s => do
    let (_, st) ← st.getResult e b (if failed then .failed else .done)
    return (s, st)
  | row :: rows, st, s => do
    let (fetched, st) ← st.getResult e b .row
    if fetched then
      let r ← toRecord truncate b ms (some (sqliteResult f sq b row))
      let (s, more) ← visit s r
      if more then fetchRows e failed rows st s else return (s, st)
    else return (s, st)

/-- `storage::loop`, with what SQLite answers to the statement. -/
def storageLoop (e : Engine) (dbp : Option Handle) (answer : Prepared) (selected : Selected)
    (s : σ) : Except Fault (σ × Engine) := do
  let (_, st, e) ← StatementHandle.make.prepare e dbp answer
  let (s, st) ← fetchRows f sq b truncate ms visit e selected.failed selected.rows st s
  let (_, _, e) ← st.close e true
  return (s, e)

/-- What is shown for a row. -/
def visitRow (s : σ) (row : List Cell) : Except Fault (σ × Bool) := do
  let r ← toRecord truncate b ms (some (sqliteResult f sq b row))
  visit s r

end Loop

section Rows

variable {σ : Type} {f : Formats} {sq : Sqlite} {b : Build}
  {truncate : (ty : FloatType) → BitVec (8 * ty.size) → BitVec 64} {ms : MetaOf ColumnSql}
  {visit : σ → LoadedRecord → Except Fault (σ × Bool)} {e : Engine} {h : Handle} {failed : Bool}

/-- A statement that is ready, or that runs, is executed for the next row. -/
theorem StatementHandle.getResult_of_live {state : StatementState} {answer : Stepped}
    (hlive : e.isPrepared h = true) (hstate : state = .ready ∨ state = .running) :
    StatementHandle.getResult ⟨some h, state⟩ e b answer = .ok (match answer with
      | .row => (true, ⟨some h, .running⟩)
      | .done => (false, ⟨some h, .done⟩)
      | .failed => (false, ⟨some h, state⟩)) := by
  have hexecute (answer : Stepped) : e.step (some h) answer = .ok answer := if_pos hlive
  have hvalid : isValid ⟨some h, state⟩ = true := rfl
  rw [getResult, if_pos hstate, execute, Build.check_of hvalid, ok_bind, hexecute, ok_bind]
  cases answer <;> rfl

variable (f sq b truncate ms visit failed) in
/-- All rows are shown, or as many as are wanted; the statement has run then, unless the first row
could not be fetched. -/
theorem fetchRows_eq (hlive : e.isPrepared h = true) (rows : List (List Cell))
    {state : StatementState} (hstate : state = .ready ∨ state = .running) (s : σ) :
    ∃ last : StatementState,
      (if rows = [] ∧ failed = true then last = state else last = .running ∨ last = .done) ∧
      fetchRows f sq b truncate ms visit e failed rows ⟨some h, state⟩ s =
        (visitWhile (visitRow f sq b truncate ms visit) s rows >>= fun s =>
          .ok (s, ⟨some h, last⟩)) := by
  induction rows generalizing state s with
  | nil =>
    rw [fetchRows, StatementHandle.getResult_of_live hlive hstate]
    cases failed with
    | false => exact ⟨.done, by simp, rfl⟩
    | true => exact ⟨state, by simp, rfl⟩
  | cons row rows ih =>
    have hrunning : StatementState.running = .ready ∨ StatementState.running = .running :=
      Or.inr rfl
    -- the row is there, so that the statement runs
    rw [fetchRows, StatementHandle.getResult_of_live hlive hstate]
    simp only [ok_bind, if_true, visitWhile, visitRow]
    cases toRecord truncate b ms (some (sqliteResult f sq b row)) with
    | error fault => exact ⟨.running, by simp, rfl⟩
    | ok r =>
      simp only [ok_bind]
      cases visit s r with
      | error fault => exact ⟨.running, by simp, rfl⟩
      | ok result =>
        obtain ⟨s', more⟩ := result
        cases more with
        | false => exact ⟨.running, by simp, rfl⟩
        | true =>
          obtain ⟨last, hlast, hfetch⟩ := ih hrunning s'
          refine ⟨last, ?_, hfetch⟩
          have hran : last = .running ∨ last = .done := by
            split_ifs at hlast
            · exact Or.inl hlast
            · exact hlast
          simpa using hran

/-- The loop shows the rows. Its statement is left behind exactly when there is no first row but an
error. -/
theorem storageLoop_eq {c : Handle} (hconn : c ∈ e.conns) (hfresh : ∀ s ∈ e.stmts, s.1 < e.next)
    (parameters : ℕ) (selected : Selected) (s : σ) :
    storageLoop f sq b truncate ms visit e (some c) (.statement parameters) selected s =
      (visitWhile (visitRow f sq b truncate ms visit) s selected.rows >>= fun s =>
        .ok (s, { e with
          next := e.next + 1
          stmts := if selected.rows = [] ∧ selected.failed = true then (e.next, c) :: e.stmts
            else e.stmts })) := by
  have hprepare : StatementHandle.make.prepare e (some c) (.statement parameters) =
      .ok ((parameters, true), ⟨some e.next, .ready⟩,
        { e with next := e.next + 1, stmts := (e.next, c) :: e.stmts }) := by
    have hopen : ¬ c ∉ e.conns := not_not.mpr hconn
    have hengine : e.prepare (some c) (.statement parameters) = .ok _ := if_neg hopen
    have hinitial : StatementHandle.make.state = .initial ∨ StatementHandle.make.state = .running :=
      Or.inl rfl
    rw [StatementHandle.prepare, if_pos hinitial, hengine]
    rfl
  have hready : StatementState.ready = .ready ∨ StatementState.ready = .running := Or.inl rfl
  have hlive : Engine.isPrepared
      { e with next := e.next + 1, stmts := (e.next, c) :: e.stmts } e.next = true := by
    simp [Engine.isPrepared]
  obtain ⟨last, hlast, hfetch⟩ := fetchRows_eq f sq b truncate ms visit selected.failed hlive
    selected.rows hready s
  rw [storageLoop, hprepare, ok_bind]
  simp only [hfetch]
  cases visitWhile (visitRow f sq b truncate ms visit) s selected.rows with
  | error fault => rfl
  | ok s' =>
    simp only [ok_bind]
    split_ifs at hlast ⊢ with hfirst
    · rw [hlast]
      rfl
    · -- the handle is the only one of its number
      have hothers : ((e.next, c) :: e.stmts).filter (fun stmt => stmt.1 ≠ e.next) = e.stmts := by
        rw [List.filter_cons_of_neg (by simp)]
        apply List.filter_eq_self.mpr
        intro stmt hstmt
        exact decide_eq_true (Nat.ne_of_lt (hfresh stmt hstmt))
      have hfinalize : Engine.finalize
          { e with next := e.next + 1, stmts := (e.next, c) :: e.stmts } e.next =
            .ok { e with next := e.next + 1, stmts := e.stmts } := by
        rw [Engine.finalize, if_pos hlive]
        simp only [hothers]
      simp only [StatementHandle.close, if_pos hlast, hfinalize]
      rfl

end Rows

/-! ### Saved records -/

/-- The parts of a record. -/
structure SavedRecord where
  key : List Obj
  data : List Obj
  generation : BitVec 64

section Saved

variable {σ : Type} {f : Formats} {sq : Sqlite} {b : Build}
  {truncate : (ty : FloatType) → BitVec (8 * ty.size) → BitVec 64} {m : MetaOf Column}
  {sql : MetaOf ColumnSql} {width : List (BitVec 64)}

/-- The record with the meta data that its table gets when it is loaded. -/
def SavedRecord.loaded (m : MetaOf Column) (r : SavedRecord) : LoadedRecord :=
  ⟨⟨memName (sqlName m.name), m.columns, m.pk⟩, r.key, r.data, r.generation⟩

/-- A record that fits its table, and whose values survive. -/
structure Lasting (f : Formats) (sq : Sqlite) (b : Build) (m : MetaOf Column) (r : SavedRecord) :
    Prop where
  key_length : r.key.length = m.pk
  fitting : FittingAll f sq b (r.key ++ r.data) (m.columns.map Column.type)
  survives : ∀ obj ∈ r.key ++ r.data, SurvivesObj f b obj
  generation : r.generation.toNat < 2 ^ 63

/-- Rows that are the records are shown as the records. -/
theorem visitWhile_visitRow {visit : σ → LoadedRecord → Except Fault (σ × Bool)}
    {records : List LoadedRecord} {rows : List (List Cell)}
    (h : List.Forall₂
      (fun r row => toRecord truncate b sql (some (sqliteResult f sq b row)) = .ok r)
      records rows) (s : σ) :
    visitWhile (visitRow f sq b truncate sql visit) s rows = visitWhile visit s records := by
  induction h generalizing s with
  | nil => rfl
  | cons hrow _ ih => simp only [visitWhile, visitRow, hrow, ok_bind, ih]

variable (truncate) in
/-- A record that lasts is saved as a row that is loaded as the record. -/
theorem Lasting.exists_row {r : SavedRecord} (h : Lasting f sq b m r)
    (hpk : m.pk < m.columns.length) (hwidth : width.length = m.columns.length)
    (hnames : (m.columns.map Column.name).Nodup) (hgen : ∀ col ∈ m.columns, col.name ≠ gen)
    (hrowid : ∀ col ∈ m.columns, col.name ≠ Sql.token "ROWID")
    (hsql : toSql b m width = .ok sql) (hpk' : sql.pk ≤ sql.columns.length) :
    ∃ row, saveRecord f sq b (sql.toMetaSql hpk') r.key (.scalar (.uint64 r.generation) :: r.data) =
        .ok (some row) ∧
      loadRecord f sq b truncate sql row = .ok (r.loaded m) := by
  have hpersists : Persists f sq b truncate m width r.key r.data r.generation :=
    (persists_iff hpk hwidth hnames hgen hrowid h.key_length h.fitting).mpr
      ⟨h.survives, h.generation⟩
  obtain ⟨sql', hpk'', row, loaded, hsql', hsave, hload, hm, hkey, hdata, hg⟩ := hpersists
  obtain rfl := Except.ok.inj (hsql.symm.trans hsql')
  refine ⟨row, hsave, ?_⟩
  rw [hload, SavedRecord.loaded, ← hm, ← hkey, ← hdata, ← hg]

/-- What was saved is what is shown: the records that last, in the order of the rows, each of them
once, until the function has seen enough. No statement is left behind. -/
theorem storageLoop_saved (hpk : m.pk < m.columns.length)
    (hwidth : width.length = m.columns.length) (hnames : (m.columns.map Column.name).Nodup)
    (hgen : ∀ col ∈ m.columns, col.name ≠ gen)
    (hrowid : ∀ col ∈ m.columns, col.name ≠ Sql.token "ROWID") {records : List SavedRecord}
    (hlasting : ∀ r ∈ records, Lasting f sq b m r) :
    ∃ (sql : MetaOf ColumnSql) (hpk' : sql.pk ≤ sql.columns.length) (rows : List StoredRow),
      toSql b m width = .ok sql ∧
      List.Forall₂ (fun r row => saveRecord f sq b (sql.toMetaSql hpk') r.key
        (.scalar (.uint64 r.generation) :: r.data) = .ok (some row)) records rows ∧
      ∀ (visit : σ → LoadedRecord → Except Fault (σ × Bool)) (s : σ) (e : Engine) (c : Handle)
        (parameters : ℕ), c ∈ e.conns → (∀ s ∈ e.stmts, s.1 < e.next) →
        storageLoop f sq b truncate sql visit e (some c) (.statement parameters)
            ⟨rows.map (selectedRow (columnNames sql.columns)), false⟩ s =
          (visitWhile visit s (records.map (SavedRecord.loaded m)) >>= fun s =>
            .ok (s, { e with next := e.next + 1 })) := by
  obtain ⟨keys, gcol, body, hsql, hkeys, -⟩ := exists_columns_toSql (b := b) hpk hwidth
  have hpk' : m.pk ≤ (keys ++ gcol :: body).length := by
    rw [List.length_append]
    omega
  have hrows : ∃ rows : List StoredRow, List.Forall₂ (fun r row =>
      saveRecord f sq b (MetaOf.toMetaSql ⟨sqlName m.name, keys ++ gcol :: body, m.pk⟩ hpk') r.key
        (.scalar (.uint64 r.generation) :: r.data) = .ok (some row) ∧
      loadRecord f sq b truncate ⟨sqlName m.name, keys ++ gcol :: body, m.pk⟩ row =
        .ok (r.loaded m)) records rows := by
    induction records with
    | nil => exact ⟨[], .nil⟩
    | cons r records ih =>
      obtain ⟨hr, hrest⟩ := List.forall_mem_cons.mp hlasting
      obtain ⟨row, hrow⟩ := hr.exists_row truncate hpk hwidth hnames hgen hrowid hsql hpk'
      obtain ⟨rows, hrows⟩ := ih hrest
      exact ⟨row :: rows, .cons hrow hrows⟩
  obtain ⟨rows, hrows⟩ := hrows
  refine ⟨_, hpk', rows, hsql, hrows.imp fun _ _ h => h.1, ?_⟩
  intro visit s e c parameters hconn hfresh
  have hshown : List.Forall₂ (fun r row => toRecord truncate b
      ⟨sqlName m.name, keys ++ gcol :: body, m.pk⟩ (some (sqliteResult f sq b row)) = .ok r)
      (records.map (SavedRecord.loaded m))
      (rows.map (selectedRow (columnNames (keys ++ gcol :: body)))) := by
    rw [List.forall₂_map_left_iff, List.forall₂_map_right_iff]
    exact hrows.imp fun _ _ h => h.2
  rw [storageLoop_eq hconn hfresh, visitWhile_visitRow hshown]
  simp

end Saved

/-- Two persons. -/
def sampleRecords : List SavedRecord :=
  [⟨[.size 7], [.scalar (.string [0x78]), .size 42], 3⟩,
    ⟨[.size 8], [.scalar (.string []), .size 17], 0⟩]

theorem lasting_sampleRecords :
    ∀ r ∈ sampleRecords, Lasting .uuids .small .debug demoMeta.toMetaOf r := by
  -- a person has a number, a short name and an age
  have hlasting (id age g : BitVec 64) (name : Bytes) (hid : id.toNat < 2 ^ 63)
      (hname : name.length < 2 ^ 31) (hage : age.toNat < 2 ^ 63) (hg : g.toNat < 2 ^ 63)
      (hfitting : Fitting .uuids .small .debug (.scalar (.string name)) .string) :
      Lasting .uuids .small .debug demoMeta.toMetaOf
        ⟨[.scalar (.uint64 id)], [.scalar (.string name), .scalar (.uint64 age)], g⟩ := by
    refine ⟨rfl, .cons fitting_uint64 (.cons hfitting (.cons fitting_uint64 .nil)), ?_, hg⟩
    intro obj hobj
    simp only [List.cons_append, List.nil_append, List.mem_cons, List.not_mem_nil, or_false] at hobj
    rcases hobj with rfl | rfl | rfl
    · exact survives_uint64.mpr hid
    · exact survivesObj_scalar.mpr hname
    · exact survives_uint64.mpr hage
  intro r hr
  rcases List.mem_cons.mp hr with rfl | hr
  · exact hlasting 7 42 3 [0x78] (by decide) (by decide) (by decide) (by decide)
      ⟨_, rfl, rfl, trivial, fun h => Option.some_ne_none _ (Except.ok.inj h)⟩
  · obtain rfl := List.mem_singleton.mp hr
    exact hlasting 8 17 0 [] (by decide) (by decide) (by decide) (by decide)
      ⟨_, rfl, rfl, trivial, fun h => Option.some_ne_none _ (Except.ok.inj h)⟩

theorem storageLoop_saved_sampleRecords :
    ∃ (sql : MetaOf ColumnSql) (rows : List StoredRow),
      toSql .debug demoMeta.toMetaOf [0, 64, 0] = .ok sql ∧
      storageLoop .uuids .small .debug (fun _ _ => 0) sql
          (fun (seen : List (BitVec 64)) r => .ok (seen ++ [r.gen], false)) ⟨1, [0], []⟩ (some 0)
          (.statement 0) ⟨rows.map (selectedRow (columnNames sql.columns)), false⟩ [] =
        .ok ([3], ⟨2, [0], []⟩) := by
  obtain ⟨sql, -, rows, hsql, -, hloop⟩ :=
    @storageLoop_saved (List (BitVec 64)) .uuids .small .debug
    (fun _ _ => 0) demoMeta.toMetaOf [0, 64, 0] (by decide) rfl (by decide) (by decide) (by decide)
    sampleRecords lasting_sampleRecords
  refine ⟨sql, rows, hsql, ?_⟩
  rw [hloop _ [] ⟨1, [0], []⟩ 0 0 (by decide) (by simp)]
  rfl

end Cyng
