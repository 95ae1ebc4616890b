import Cyng.Theory.Numerals
import Cyng.Sql.Clause

/-!
# SQL builders

The builders of the four statements that work on rows, and the parts of a statement they hand
out. A builder gives its tokens away with every statement and puts its own first ones back.
Four loops write the columns and the placeholders of a statement. They agree on the columns they
take: the k-th placeholder is always the one of the k-th column that is listed.
-/

namespace Cyng

namespace Sql

/-- `details::sql_from` -/
structure SqlFrom extends Base where
  metaSql : MetaOf ColumnSql
deriving DecidableEq

/-- `details::sql_where` -/
structure SqlWhere extends Base where
  metaSql : MetaOf ColumnSql
deriving DecidableEq

/-- `details::sql_group_by` -/
structure SqlGroupBy extends Base
deriving DecidableEq

/-- `details::sql_order_by` -/
structure SqlOrderBy extends Base
deriving DecidableEq

/-- `details::sql_values` -/
structure SqlValues extends Base
deriving DecidableEq

namespace SqlWhere

variable (s : SqlWhere)

/-- `sql_where::where(std::string)` -/
def whereText (cond : Bytes) : SqlGroupBy :=
  ⟨⟨s.dialect, s.clause ++ [token "WHERE", cond]⟩⟩

/-- A column and its placeholder. -/
def assignment (d : Dialect) (col : ColumnSql) : Clause :=
  [col.name, token "=", substitutePh d col.type]

/-- `sql_where::where(meta_sql const&, pk)` -/
def whereMeta (m : MetaOf ColumnSql) : SqlGroupBy :=
  ⟨⟨s.dialect, listItems m (token "AND") (fun _ pk => pk) (assignment s.dialect)
    (s.clause ++ [token "WHERE"])⟩⟩

/-- `sql_where::where(pk)` -/
def wherePk : SqlGroupBy := s.whereMeta s.metaSql

/-- `sql_where::order_by` -/
def orderBy (cond : Bytes) : SqlOrderBy :=
  ⟨⟨s.dialect, s.clause ++ [token "ORDER", token "BY", cond]⟩⟩

end SqlWhere

namespace SqlFrom

/-- `sql_from::sql_from` -/
def make (d : Dialect) (ms : MetaOf ColumnSql) (vec : Clause) : SqlFrom :=
  ⟨⟨d, vec ++ [token "FROM"]⟩, ms⟩

/-- `sql_from::from(std::string)` -/
def fromName (s : SqlFrom) (name : Bytes) : SqlWhere :=
  ⟨⟨s.dialect, s.clause ++ [name]⟩, s.metaSql⟩

/-- `sql_from::from()` -/
def fromSelf (s : SqlFrom) : SqlWhere := s.fromName s.metaSql.name

end SqlFrom

/-! ### SELECT -/

/-- `meta::get_name(std::size_t)` -/
def getName (m : MetaOf ColumnSql) (col : UInt64) : Bytes :=
  match m.columns[col.toNat]? with
  | some c => c.name
  | none => Theory.numeral 10 col.toNat

/-- `select` -/
structure Select where
  dialect : Dialect
  clause : Clause
  metaSql : MetaOf ColumnSql
deriving DecidableEq

namespace Select

/-- `select::select` -/
def make (d : Dialect) (ms : MetaOf ColumnSql) : Select := ⟨d, [token "SELECT"], ms⟩

variable (s : Select)

/-- `select::reset_clause`: the clause that was moved away is empty. -/
def resetClause : Clause × Select := (s.clause, { s with clause := [] ++ [token "SELECT"] })

/-- Push a token, and hand the clause out. -/
def handOut (e : Clause) : SqlFrom × Select :=
  let (clause, s') := resetClause { s with clause := s.clause ++ e }
  (SqlFrom.make s.dialect s.metaSql clause, s')

/-- `select::all()`: the clause is moved away and nothing is put back. -/
def all : SqlFrom × Select :=
  (SqlFrom.make s.dialect s.metaSql (s.clause ++ [token "*"]), { s with clause := [] })

/-- The name of a column in the list of `select::all`. -/
def columnName (m : MetaOf ColumnSql) (qualified : Bool) (col : ColumnSql) : Bytes :=
  if qualified then substituteDt (m.name ++ token "." ++ col.name) s.dialect col.type
  else substituteDt col.name s.dialect col.type

/-- `select::all(meta_sql const&, bool)` -/
def allOf (m : MetaOf ColumnSql) (qualified : Bool) : SqlFrom × Select :=
  let clause := listItems m (token ",") (fun _ _ => true)
    (fun col => [s.columnName m qualified col]) s.clause
  let (clause, s') := resetClause { s with clause }
  (SqlFrom.make s.dialect s.metaSql clause, s')

/-- `select::count` -/
def count : SqlFrom × Select := s.handOut [token "COUNT(*)"]

/-- `select::sum(std::string)` -/
def sum (col : Bytes) : SqlFrom × Select := s.handOut [token "SUM(" ++ col ++ token ")"]

/-- `select::sum(meta_sql const&, std::size_t)` -/
def sumOf (m : MetaOf ColumnSql) (idx : UInt64) : SqlFrom × Select := s.sum (getName m idx)

/-- `select::avg(std::string)` -/
def avg (col : Bytes) : SqlFrom × Select := s.handOut [token "AVG(" ++ col ++ token ")"]

/-- `select::avg(meta_sql const&, std::size_t)` -/
def avgOf (m : MetaOf ColumnSql) (idx : UInt64) : SqlFrom × Select := s.avg (getName m idx)

end Select

/-! ### INSERT -/

/-- `insert` -/
structure Insert extends Base
deriving DecidableEq

namespace Insert

/-- `insert::columns`: the ROWID is set by the database. -/
def columns (d : Dialect) (m : MetaOf ColumnSql) (clause : Clause) : Clause :=
  listItems m (token ",") (fun col _ => !Base.doSkip d col.name) (fun col => [col.name])
    (clause ++ [token "("]) ++ [token ")"]

/-- `insert::insert` -/
def make (d : Dialect) (m : MetaOf ColumnSql) : Insert :=
  ⟨⟨d, columns d m [token "INSERT", token "INTO", m.name]⟩⟩

variable (s : Insert)

/-- `insert::reset_clause` -/
def resetClause (m : MetaOf ColumnSql) : Clause × Insert :=
  (s.clause, ⟨⟨s.dialect, columns s.dialect m ([] ++ [token "INSERT", token "INTO", m.name])⟩⟩)

/-- `insert::bind_values` -/
def bindValues (m : MetaOf ColumnSql) : SqlValues × Insert :=
  let clause := listItems m (token ",") (fun col _ => !Base.doSkip s.dialect col.name)
    (fun col => [substitutePh s.dialect col.type])
    (s.clause ++ [token "VALUES", token "("]) ++ [token ")"]
  let (clause, s') := resetClause ⟨⟨s.dialect, clause⟩⟩ m
  (⟨⟨s.dialect, clause⟩⟩, s')

end Insert

/-! ### UPDATE -/

/-- `update` -/
structure Update extends Base where
  metaSql : MetaOf ColumnSql
deriving DecidableEq

namespace Update

/-- `update::update` -/
def make (d : Dialect) (m : MetaOf ColumnSql) : Update := ⟨⟨d, [token "UPDATE", m.name]⟩, m⟩

variable (s : Update)

/-- `update::reset_clause` -/
def resetClause (m : MetaOf ColumnSql) : Clause × Update :=
  (s.clause, { s with clause := [] ++ [token "UPDATE", m.name] })

/-- `update::set_placeholder(meta_sql const&)` -/
def setPlaceholderMeta (ms : MetaOf ColumnSql) : SqlWhere × Update :=
  let clause := listItems ms (token ",") (fun _ pk => !pk) (SqlWhere.assignment s.dialect)
    (s.clause ++ [token "SET"])
  let (clause, s') := resetClause { s with clause } ms
  (⟨⟨s.dialect, clause⟩, ms⟩, s')

/-- `update::set_placeholder()` -/
def setPlaceholder : SqlWhere × Update := s.setPlaceholderMeta s.metaSql

/-- `meta::null_` -/
def nullColumn : ColumnSql := ⟨⟨[], .eod⟩, 0⟩

/-- `meta::body_size` -/
def bodySize (m : MetaOf ColumnSql) : UInt64 :=
  UInt64.ofNat m.columns.length - UInt64.ofNat m.pk

/-- `meta::get_body_column` -/
def getBodyColumn (m : MetaOf ColumnSql) (col : UInt64) : Except Fault ColumnSql :=
  if col < bodySize m then
    match m.columns[(col + UInt64.ofNat m.pk).toNat]? with
    | some c => .ok c
    | none => .error (.exception "std::out_of_range")
  else .ok nullColumn

/-- `meta::get_column` -/
def getColumn (m : MetaOf ColumnSql) (col : ℕ) : ColumnSql := m.columns.getD col nullColumn

/-- `update::set_placeholder(meta_sql const&, std::size_t)`: a column of the body behind the
generation, and the generation. -/
def setPlaceholderColumnMeta (b : Build) (ms : MetaOf ColumnSql) (idx : UInt64) :
    Except Fault (SqlWhere × Update) := do
  let clause := s.clause ++ [token "SET"]
  b.check "idx < ms.body_size()" (idx < bodySize ms)
  let col ← getBodyColumn ms (idx + 1)
  let clause := clause ++ SqlWhere.assignment s.dialect col
  let gen := getColumn ms ms.pk
  b.check "boost::algorithm::equals(gen.name_, \"gen\")" (gen.name = Cyng.gen)
  let clause := clause ++ token "," :: SqlWhere.assignment s.dialect gen
  let (clause, s') := resetClause { s with clause } ms
  return (⟨⟨s.dialect, clause⟩, ms⟩, s')

/-- `update::set_placeholder(std::size_t)` -/
def setPlaceholderColumn (b : Build) (col : UInt64) : Except Fault (SqlWhere × Update) :=
  s.setPlaceholderColumnMeta b s.metaSql col

end Update

/-! ### DELETE -/

/-- `remove` -/
structure Remove extends Base where
  metaSql : MetaOf ColumnSql
deriving DecidableEq

namespace Remove

/-- `remove::remove` -/
def make (d : Dialect) (m : MetaOf ColumnSql) : Remove :=
  ⟨⟨d, [token "DELETE", token "FROM", m.name]⟩, m⟩

variable (s : Remove)

/-- `remove::reset_clause`: the clause is copied. -/
def resetClause : Clause × Remove := (s.clause, s)

/-- `remove::self` -/
def self : SqlWhere × Remove :=
  let (clause, s') := s.resetClause
  (⟨⟨s.dialect, clause⟩, s.metaSql⟩, s')

/-- `remove::where(std::string)` -/
def whereText (clause : Bytes) : SqlGroupBy × Remove :=
  let (stmt, s') := s.self
  (stmt.whereText clause, s')

/-- `remove::where(pk)`: the meta data that are passed on are not used. -/
def wherePk : SqlGroupBy × Remove :=
  let (stmt, s') := s.self
  (stmt.wherePk, s')

end Remove

/-! ### Columns and placeholders -/

section Alignment

variable {d : Dialect} {m : MetaOf ColumnSql} {clause : Clause}

/-- The columns that an insert lists: all but the ROWID of SQLite. -/
def listed (d : Dialect) (m : MetaOf ColumnSql) : List ColumnSql :=
  m.columns.filter fun col => !Base.doSkip d col.name

theorem listItems_listed {item : ColumnSql → Clause} :
    listItems m (token ",") (fun col _ => !Base.doSkip d col.name) item clause =
      clause ++ separated (token ",") ((listed d m).map item) := by
  rw [listItems_eq, m.marked_filter fun col => !Base.doSkip d col.name]
  rfl

theorem columns_eq : Insert.columns d m clause =
    clause ++ [token "("] ++ separated (token ",") ((listed d m).map fun col => [col.name]) ++
      [token ")"] := by
  rw [Insert.columns, listItems_listed]

theorem bindValues_clause (s : Insert) (m : MetaOf ColumnSql) :
    (s.bindValues m).1.clause = s.clause ++ [token "VALUES", token "("] ++
      separated (token ",")
        ((listed s.dialect m).map fun col => [substitutePh s.dialect col.type]) ++
      [token ")"] := by
  simp only [Insert.bindValues, Insert.resetClause, listItems_listed]

theorem setPlaceholder_clause (s : Update) : s.setPlaceholder.1.clause =
    s.clause ++ [token "SET"] ++ separated (token ",")
      ((s.metaSql.columns.drop s.metaSql.pk).map (SqlWhere.assignment s.dialect)) := by
  simp only [Update.setPlaceholder, Update.setPlaceholderMeta, Update.resetClause]
  rw [listItems_eq, s.metaSql.marked_filter_pk.2]

theorem wherePk_clause (s : SqlWhere) : s.wherePk.clause =
    s.clause ++ [token "WHERE"] ++ separated (token "AND")
      ((s.metaSql.columns.take s.metaSql.pk).map (SqlWhere.assignment s.dialect)) := by
  simp only [SqlWhere.wherePk, SqlWhere.whereMeta]
  rw [listItems_eq, s.metaSql.marked_filter_pk.1]

/-- An insert lists the names and the placeholders of the same columns in the same order. An
update assigns to the columns of the body, and selects by those of the key. Any two items have one
separator between them, and the text has no other tokens. -/
theorem placeholders_line_up (d : Dialect) (m : MetaOf ColumnSql) :
    ((Insert.make d m).bindValues m).1.clause =
      [token "INSERT", token "INTO", m.name, token "("] ++
        separated (token ",") ((listed d m).map fun col => [col.name]) ++
        [token ")", token "VALUES", token "("] ++
        separated (token ",") ((listed d m).map fun col => [substitutePh d col.type]) ++
        [token ")"] ∧
      (Update.make d m).setPlaceholder.1.wherePk.clause =
        [token "UPDATE", m.name, token "SET"] ++
          separated (token ",") ((m.columns.drop m.pk).map fun col =>
            [col.name, token "=", substitutePh d col.type]) ++
          [token "WHERE"] ++
          separated (token "AND") ((m.columns.take m.pk).map fun col =>
            [col.name, token "=", substitutePh d col.type]) ∧
      LaidOut ((Insert.make d m).bindValues m).1.toString
        ((Insert.make d m).bindValues m).1.clause ∧
      LaidOut (Update.make d m).setPlaceholder.1.wherePk.toString
        (Update.make d m).setPlaceholder.1.wherePk.clause := by
  refine ⟨?_, ?_, laidOut_toString _, laidOut_toString _⟩
  · rw [bindValues_clause, Insert.make, columns_eq]
    simp
  · rw [wherePk_clause, setPlaceholder_clause]
    rfl

end Alignment

end Sql

end Cyng
