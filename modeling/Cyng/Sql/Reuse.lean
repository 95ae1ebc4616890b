import Cyng.Theory.Reuse
import Cyng.Sql.Builder

/-!
# One builder for many statements

A builder moves its tokens into the statement it hands out, and puts its first tokens back. An
update goes back to its own table, a delete has only given a copy away. An insert goes back to the
table the values were bound for. A select without a list of columns does not go back at all: the
next statement has no SELECT in it, and puts it back for the one after.
-/

namespace Cyng

open Theory

namespace Sql

/-- What a statement is made of, and its text. -/
def Base.written (stmt : Base) : Clause × Bytes := (stmt.clause, stmt.toString)

/-! ### The calls -/

/-- The calls of a select builder. -/
inductive SelectCall
  | all
  | allOf (m : MetaOf ColumnSql) (qualified : Bool)
  | count
  | sum (col : Bytes)
  | sumOf (m : MetaOf ColumnSql) (idx : UInt64)
  | avg (col : Bytes)
  | avgOf (m : MetaOf ColumnSql) (idx : UInt64)
deriving DecidableEq

/-- One call of a select builder. -/
def Select.perform (s : Select) : SelectCall → SqlFrom × Select
  | .all => s.all
  | .allOf m qualified => s.allOf m qualified
  | .count => s.count
  | .sum col => s.sum col
  | .sumOf m idx => s.sumOf m idx
  | .avg col => s.avg col
  | .avgOf m idx => s.avgOf m idx

def Select.step : Step Select SelectCall (Clause × Bytes) Fault := fun s call =>
  .ok ((s.perform call).2, [(s.perform call).1.written])

/-- An insert builder binds the values of a table. -/
def Insert.step : Step Insert (MetaOf ColumnSql) (Clause × Bytes) Fault := fun s m =>
  .ok ((s.bindValues m).2, [(s.bindValues m).1.written])

/-- The calls of an update builder. -/
inductive UpdateCall
  | body
  | column (col : UInt64)
deriving DecidableEq

def Update.step (b : Build) : Step Update UpdateCall (Clause × Bytes) Fault := fun s call =>
  match call with
  | .body => .ok (s.setPlaceholder.2, [s.setPlaceholder.1.written])
  | .column col => do
    let (stmt, s) ← s.setPlaceholderColumn b col
    return (s, [stmt.written])

/-- The calls of a delete builder. -/
inductive RemoveCall
  | self
  | whereText (clause : Bytes)
  | wherePk
deriving DecidableEq

def Remove.step : Step Remove RemoveCall (Clause × Bytes) Fault := fun s call =>
  match call with
  | .self => .ok (s.self.2, [s.self.1.written])
  | .whereText clause => .ok ((s.whereText clause).2, [(s.whereText clause).1.written])
  | .wherePk => .ok (s.wherePk.2, [s.wherePk.1.written])

/-! ### What a call leaves behind -/

section Calls

variable {d : Dialect} {m m' : MetaOf ColumnSql}

/-- Every other call than `all` puts the first token back. -/
theorem perform_make_iff (call : SelectCall) :
    ((Select.make d m).perform call).2 = Select.make d m ↔ call ≠ .all := by
  cases call with
  | all => simp [Select.perform, Select.all, Select.make]
  | _ => exact iff_of_true rfl (by simp)

/-- The tokens of a statement are those the builder had, and others that do not depend on
them. -/
theorem perform_clause (call : SelectCall) :
    ∃ rest, ∀ clause, ((⟨d, clause, m⟩ : Select).perform call).1.clause = clause ++ rest := by
  cases call with
  | allOf m' qualified =>
    refine ⟨separated (token ",") (((m'.marked.filter fun _ => true).map Prod.fst).map fun col =>
      [(⟨d, [], m⟩ : Select).columnName m' qualified col]) ++ [token "FROM"], fun clause => ?_⟩
    simp only [Select.perform, Select.allOf, Select.resetClause, SqlFrom.make, listItems_eq,
      List.append_assoc]
    rfl
  | _ => exact ⟨_, fun clause => List.append_assoc _ _ _⟩

/-- Without the first token there are fewer tokens. -/
theorem perform_shows (call other : SelectCall)
    (h : ((Select.make d m).perform call).2 ≠ Select.make d m) :
    (((Select.make d m).perform call).2.perform other).1.written ≠
      ((Select.make d m).perform other).1.written := by
  obtain rfl : call = .all := by
    by_contra hne
    exact h ((perform_make_iff call).mpr hne)
  obtain ⟨rest, hrest⟩ := perform_clause (d := d) (m := m) other
  intro heq
  have hclause : (((⟨d, [], m⟩ : Select).perform other).1).clause =
      ((⟨d, [token "SELECT"], m⟩ : Select).perform other).1.clause := congrArg Prod.fst heq
  rw [hrest, hrest] at hclause
  have hlength := congrArg List.length hclause
  simp at hlength

/-- The first tokens of an insert. -/
theorem insert_make_clause : (Insert.make d m).clause =
    [token "INSERT", token "INTO", m.name, token "("] ++
      ((listed d m).map (·.name)).intersperse (token ",") ++ [token ")"] := by
  have hnames : ((listed d m).map fun col => [col.name]) =
      ((listed d m).map (·.name)).map fun name => [name] := by simp
  rw [Insert.make, columns_eq, hnames, separated_singletons]
  rfl

/-- Two tables with the same name and the same listed columns, and no others, begin an insert the
same way. -/
theorem insert_make_iff : Insert.make d m' = Insert.make d m ↔
    m'.name = m.name ∧ (listed d m').map (·.name) = (listed d m).map (·.name) := by
  have hclause : Insert.make d m' = Insert.make d m ↔
      (Insert.make d m').clause = (Insert.make d m).clause := by simp [Insert.make]
  rw [hclause, insert_make_clause, insert_make_clause]
  simp [(intersperse_injective _).eq_iff]

/-- An insert goes back to the table the values were bound for. -/
theorem bindValues_make : ((Insert.make d m).bindValues m').2 = Insert.make d m' := rfl

theorem bindValues_shows (m₁ m₂ : MetaOf ColumnSql)
    (h : ((Insert.make d m).bindValues m₁).2 ≠ Insert.make d m) :
    (((Insert.make d m).bindValues m₁).2.bindValues m₂).1.written ≠
      ((Insert.make d m).bindValues m₂).1.written := by
  intro heq
  have hclause := congrArg Prod.fst heq
  simp only [Base.written, bindValues_make] at hclause h
  rw [bindValues_clause, bindValues_clause] at hclause
  have hprefix : (Insert.make d m₁).clause = (Insert.make d m).clause :=
    List.append_cancel_right (List.append_cancel_right (List.append_cancel_right hclause))
  exact h (by simpa [Insert.make] using hprefix)

theorem setPlaceholderColumn_make {b : Build} {col : UInt64} {r : SqlWhere × Update}
    (h : (Update.make d m).setPlaceholderColumn b col = .ok r) : r.2 = Update.make d m := by
  obtain ⟨_, -, h⟩ := bind_eq_ok_iff.mp h
  obtain ⟨_, -, h⟩ := bind_eq_ok_iff.mp h
  obtain ⟨_, -, h⟩ := bind_eq_ok_iff.mp h
  cases h
  rfl

end Calls

/-- A builder can be used again: an update and a delete always, an insert as long as the values are
bound for a table that begins like its own, and a select as long as nothing follows `all`. -/
theorem builders_reused_iff (b : Build) (d : Dialect) (m : MetaOf ColumnSql) :
    (∀ calls, Step.Reused Select.step (Select.make d m) calls ↔ .all ∉ calls.dropLast) ∧
      (∀ tables, Step.Reused Insert.step (Insert.make d m) tables ↔
        ∀ m' ∈ tables.dropLast, m'.name = m.name ∧
          (listed d m').map (·.name) = (listed d m).map (·.name)) ∧
      (∀ calls, Step.Reused (Update.step b) (Update.make d m) calls) ∧
      ∀ calls, Step.Reused Remove.step (Remove.make d m) calls := by
  refine ⟨fun calls => ?_, fun tables => ?_, fun calls => ?_, fun calls => ?_⟩
  -- a select builder that has lost its first token shows it, and so does an insert builder
  · have hstep (s : Select) (call : SelectCall) :
        Select.step s call = .ok ((s.perform call).2, [(s.perform call).1.written]) := rfl
    rw [Step.reused_iff_of_shows hstep perform_shows]
    simp only [perform_make_iff]
    exact ⟨fun h hall => h _ hall rfl, fun h call hcall heq => h (heq ▸ hcall)⟩
  · have hstep (s : Insert) (m : MetaOf ColumnSql) :
        Insert.step s m = .ok ((s.bindValues m).2, [(s.bindValues m).1.written]) := rfl
    rw [Step.reused_iff_of_shows hstep bindValues_shows]
    simp only [bindValues_make, insert_make_iff]
  -- the others come back to the same tokens with every call
  · refine Step.reused_of_resets fun call s' os h => ?_
    cases call with
    | body =>
      cases h
      rfl
    | column col =>
      obtain ⟨⟨stmt, s⟩, hcall, hr⟩ := bind_eq_ok_iff.mp h
      cases hr
      exact setPlaceholderColumn_make hcall
  · refine Step.reused_of_resets fun call s' os h => ?_
    cases call <;> cases h <;> rfl

/-- A count with a builder that has given away its tokens for all columns: it has no SELECT. -/
theorem not_reused_all_count :
    ¬Step.Reused Select.step (Select.make .generic ⟨token "demo", [], 0⟩) [.all, .count] := by
  intro h
  -- the second statement has two tokens, and afresh it has three
  have hlengths := congrArg
    (Except.map fun stmts : List (Clause × Bytes) => stmts.map fun stmt => stmt.1.length) h
  cases hlengths

end Sql

end Cyng
