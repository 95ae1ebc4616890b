import Cyng.Build
import Cyng.Theory.Ownership

/-!
# Handles of SQLite

A session has the handle of a connection, and its statements have handles of prepared statements.
SQLite wants each of them back: `sqlite3_close` for the one, `sqlite3_finalize` for the others.

A statement is finalized by its destructor, but only if it was executed: one that was prepared and
never ran, or whose first step failed, keeps its handle, and `prepare` on a statement that runs
overwrites it. `sqlite3_close` refuses to close a connection that has prepared statements, and the
session forgets the handle all the same. So everything is given back exactly when none of this ever
happened. Whatever happens, no handle is used after it was given back, and none is given back twice.
-/

namespace Cyng

open Theory

/-! ### SQLite -/

/-- `sqlite3*`, `sqlite3_stmt*`, by the order in which they were given out. -/
abbrev Handle := ℕ

/-- How the text of a statement is prepared. -/
inductive Prepared
  | statement (parameters : ℕ)
  /-- there is no SQL in the text -/
  | empty
  | failed
deriving DecidableEq

/-- What `sqlite3_step` returns. -/
inductive Stepped
  | row | done | failed
deriving DecidableEq

/-- The handles that SQLite has given out and not got back; a prepared statement belongs to a
connection. -/
structure Engine where
  next : Handle
  conns : List Handle
  stmts : List (Handle × Handle)

namespace Engine

variable (e : Engine)

/-- `sqlite3_open_v2`: there is a handle, even when the database cannot be opened. -/
def open_ : Handle × Engine := (e.next, { e with next := e.next + 1, conns := e.next :: e.conns })

/-- A connection with prepared statements. -/
def isBusy (c : Handle) : Bool := e.stmts.any fun s => s.2 = c

/-- `sqlite3_close` -/
def close (c : Handle) : Except Fault (Bool × Engine) :=
  if c ∉ e.conns then .error (.undefined "sqlite3_close")
  else if e.isBusy c then .ok (false, e)
  else .ok (true, { e with conns := e.conns.filter (· ≠ c) })

/-- `sqlite3_prepare_v2` and `sqlite3_bind_parameter_count`: without a connection it is misused, and
where there is no statement the pointer becomes null. -/
def prepare (dbp : Option Handle) (answer : Prepared) :
    Except Fault (Option ℕ × Option Handle × Engine) :=
  match dbp with
  | none => .ok (none, none, e)
  | some c =>
    if c ∉ e.conns then .error (.undefined "sqlite3_prepare_v2")
    else match answer with
      | .statement parameters =>
        .ok (some parameters, some e.next,
          { e with next := e.next + 1, stmts := (e.next, c) :: e.stmts })
      | .empty => .ok (some 0, none, e)
      | .failed => .ok (none, none, e)

def isPrepared (s : Handle) : Bool := e.stmts.any fun stmt => stmt.1 = s

/-- `sqlite3_step`: without a statement it is misused. -/
def step (stmt : Option Handle) (answer : Stepped) : Except Fault Stepped :=
  match stmt with
  | none => .ok .failed
  | some s => if e.isPrepared s then .ok answer else .error (.undefined "sqlite3_step")

/-- `sqlite3_clear_bindings`, which wants a statement, and `sqlite3_reset` -/
def clearBindings (stmt : Option Handle) (cleared : Bool) : Except Fault Bool :=
  match stmt with
  | none => .error (.undefined "sqlite3_clear_bindings")
  | some s => if e.isPrepared s then .ok cleared else .error (.undefined "sqlite3_clear_bindings")

/-- `sqlite3_finalize` -/
def finalize (s : Handle) : Except Fault Engine :=
  if e.isPrepared s then .ok { e with stmts := e.stmts.filter fun stmt => stmt.1 ≠ s }
  else .error (.undefined "sqlite3_finalize")

end Engine

/-! ### Statements -/

/-- `statement::state_` -/
inductive StatementState
  | initial | ready | running | done
deriving DecidableEq

/-- `statement`, as far as its handle goes. -/
structure StatementHandle where
  stmt : Option Handle
  state : StatementState
deriving DecidableEq

namespace StatementHandle

/-- `statement::statement` -/
def make : StatementHandle := ⟨none, .initial⟩

variable (st : StatementHandle) (e : Engine)

/-- `statement::is_valid` -/
def isValid : Bool := st.stmt.isSome

/-- `statement::execute()` -/
def execute (b : Build) (answer : Stepped) : Except Fault (Bool × StatementHandle) := do
  b.check "SQLite statement invalid" st.isValid
  let rc ← e.step st.stmt answer
  match rc with
  | .row => return (true, { st with state := .running })
  | .done => return (true, { st with state := .done })
  | .failed => return (false, st)

/-- `statement::prepare`: the number of parameters, and whether the statement is prepared. -/
def prepare (dbp : Option Handle) (answer : Prepared) :
    Except Fault ((ℕ × Bool) × StatementHandle × Engine) :=
  if st.state = .initial ∨ st.state = .running then do
    let (parameters, stmt, e) ← e.prepare dbp answer
    match parameters with
    | some parameters => return ((parameters, true), ⟨stmt, .ready⟩, e)
    -- the pointer is overwritten, the state is kept
    | none => return ((0, false), { st with stmt }, e)
  else return ((0, false), st, e)

/-- `statement::close`; SQLite returns what the last step returned. -/
def close (ok : Bool) : Except Fault (Bool × StatementHandle × Engine) :=
  if st.state = .running ∨ st.state = .done then
    match st.stmt with
    | some s => do
      let e ← e.finalize s
      return (ok, ⟨none, .initial⟩, e)
    | none => return (false, st, e)
  else return (false, st, e)

/-- `statement::get_result`: whether there is a row. -/
def getResult (b : Build) (answer : Stepped) : Except Fault (Bool × StatementHandle) :=
  if st.state = .ready ∨ st.state = .running then do
    let (ok, st) ← st.execute e b answer
    return (ok && st.state = .running, st)
  else return (false, st)

/-- `statement::clear` -/
def clear (cleared : Bool) : Except Fault StatementHandle := do
  let ok ← e.clearBindings st.stmt cleared
  return { st with state := if ok then .running else .initial }

end StatementHandle

/-! ### A session and its statements -/

/-- A session, with the statements that it has created and that somebody still holds. -/
structure SqlClient where
  engine : Engine
  /-- `connection::dbp_` -/
  dbp : Option Handle
  statements : List (Option StatementHandle)

/-- Calls of a session and of its statements. -/
inductive SqlCall
  | connect (opened : Bool)
  | close
  | createStatement
  | prepare (i : ℕ) (answer : Prepared)
  | execute (i : ℕ) (answer : Stepped)
  | getResult (i : ℕ) (answer : Stepped)
  | clear (i : ℕ) (cleared : Bool)
  /-- the last owner of the statement is gone -/
  | destroy (i : ℕ) (ok : Bool)

/-- What a caller gets. -/
inductive SqlResult
  | connected (ok : Bool)
  | closed (ok : Bool)
  | created (i : ℕ)
  | prepared (parameters : ℕ) (ok : Bool)
  | executed (ok : Bool)
  | fetched (row : Bool)
  | cleared
  | destroyed
deriving DecidableEq

namespace SqlClient

/-- A session that is not connected. -/
def initial : SqlClient := ⟨⟨0, [], []⟩, none, []⟩

variable (w : SqlClient)

/-- `connection::close` -/
def closeConnection : Except Fault (Bool × SqlClient) :=
  match w.dbp with
  | some c => do
    let (ok, engine) ← w.engine.close c
    return (ok, { w with engine, dbp := none })
  | none => return (false, w)

/-- `session::connect`: an open connection is closed. -/
def connect (opened : Bool) : Except Fault (Bool × SqlClient) := do
  let (_, w) ← w.closeConnection
  let (c, engine) := w.engine.open_
  return (opened, { w with engine, dbp := some c })

def statement? (i : ℕ) : Option StatementHandle := (w.statements[i]?).join

/-- A call of a statement; one that nobody holds cannot be called. -/
def onStatement (i : ℕ) (f : StatementHandle →
    Except Fault (SqlResult × Option StatementHandle × Engine)) :
    Except Fault (SqlClient × List SqlResult) :=
  match w.statement? i with
  | some st => do
    let (result, st, engine) ← f st
    return ({ w with engine, statements := w.statements.set i st }, [result])
  | none => return (w, [])

/-- One call. -/
def step (b : Build) : Step SqlClient SqlCall SqlResult Fault := fun w call =>
  match call with
  | .connect opened => do
    let (ok, w) ← w.connect opened
    return (w, [.connected ok])
  | .close => do
    let (ok, w) ← w.closeConnection
    return (w, [.closed ok])
  | .createStatement =>
    .ok ({ w with statements := w.statements ++ [some .make] }, [.created w.statements.length])
  | .prepare i answer => w.onStatement i fun st => do
    let ((parameters, ok), st, e) ← st.prepare w.engine w.dbp answer
    return (.prepared parameters ok, some st, e)
  | .execute i answer => w.onStatement i fun st => do
    let (ok, st) ← st.execute w.engine b answer
    return (.executed ok, some st, w.engine)
  | .getResult i answer => w.onStatement i fun st => do
    let (row, st) ← st.getResult w.engine b answer
    return (.fetched row, some st, w.engine)
  | .clear i cleared => w.onStatement i fun st => do
    let st ← st.clear w.engine cleared
    return (.cleared, some st, w.engine)
  | .destroy i ok => w.onStatement i fun st => do
    let (_, _, e) ← st.close w.engine ok
    return (.destroyed, none, e)

/-! ### Who has which handle -/

/-- The handle of a statement. -/
def handle (i : ℕ) : Option Handle := (w.statement? i).bind fun st => st.stmt

/-- The prepared statements, and the objects that have them. -/
def statementLedger : Ledger ℕ :=
  ⟨w.engine.next, {h | ∃ c, (h, c) ∈ w.engine.stmts}, w.handle⟩

/-- The connections, and the session. -/
def connectionLedger : Ledger Unit :=
  ⟨w.engine.next, {c | c ∈ w.engine.conns}, fun _ => w.dbp⟩

/-- A statement is given up only when it was executed, and prepared again only when it has no
handle. -/
def CarefulStatement : SqlCall → Prop
  | .prepare i _ =>
    ∀ st ∈ w.statement? i, st.state = .initial ∨ st.state = .running → st.stmt = none
  | .destroy i _ =>
    ∀ st ∈ w.statement? i, st.stmt ≠ none → st.state = .running ∨ st.state = .done
  | _ => True

instance : DecidablePred w.CarefulStatement
  | .prepare i _ => inferInstanceAs (Decidable (∀ st ∈ w.statement? i, _ → _))
  | .destroy i _ => inferInstanceAs (Decidable (∀ st ∈ w.statement? i, _ → _))
  | .connect _ | .close | .createStatement | .execute _ _ | .getResult _ _ | .clear _ _ =>
    isTrue trivial

/-- A connection is closed only when it has no prepared statements. -/
def CarefulConnection : SqlCall → Prop
  | .connect _ | .close => ∀ c ∈ w.dbp, w.engine.isBusy c = false
  | _ => True

instance : DecidablePred w.CarefulConnection
  | .connect _ | .close => inferInstanceAs (Decidable (∀ c ∈ w.dbp, _ = _))
  | .createStatement | .prepare _ _ | .execute _ _ | .getResult _ _ | .clear _ _ | .destroy _ _ =>
    isTrue trivial

end SqlClient

/-! ### What calls do to handles -/

section Effects

variable {st st' : StatementHandle} {e e' : Engine} {b : Build} {ok : Bool}
  {ok' : Bool} {dbp : Option Handle}

/-- A statement that is executed keeps its handle. -/
theorem StatementHandle.stmt_execute {answer : Stepped}
    (h : st.execute e b answer = .ok (ok, st')) : st'.stmt = st.stmt := by
  obtain ⟨_, -, h⟩ := bind_eq_ok_iff.mp h
  obtain ⟨rc, -, h⟩ := bind_eq_ok_iff.mp h
  cases rc <;> cases h <;> rfl

theorem StatementHandle.stmt_getResult {answer : Stepped}
    (h : st.getResult e b answer = .ok (ok, st')) : st'.stmt = st.stmt := by
  unfold getResult at h
  split_ifs at h
  · obtain ⟨⟨_, t⟩, hexecute, hret⟩ := bind_eq_ok_iff.mp h
    cases hret
    exact stmt_execute hexecute
  · cases h
    rfl

theorem StatementHandle.stmt_clear {cleared : Bool} (h : st.clear e cleared = .ok st') :
    st'.stmt = st.stmt := by
  obtain ⟨_, -, hret⟩ := bind_eq_ok_iff.mp h
  cases hret
  rfl

/-- A new handle, or none. -/
theorem Engine.prepare_cases {answer : Prepared} {parameters : Option ℕ} {stmt : Option Handle}
    (h : e.prepare dbp answer = .ok (parameters, stmt, e')) :
    (stmt = none ∧ e' = e) ∨
      ∃ c n, parameters = some n ∧ stmt = some e.next ∧
        e' = { e with next := e.next + 1, stmts := (e.next, c) :: e.stmts } := by
  unfold prepare at h
  split at h
  · cases h
    exact Or.inl ⟨rfl, rfl⟩
  · next c =>
    split at h
    · cases h
    split at h <;> cases h
    · exact Or.inr ⟨c, _, rfl, rfl, rfl⟩
    · exact Or.inl ⟨rfl, rfl⟩
    · exact Or.inl ⟨rfl, rfl⟩

/-- A statement that is prepared gets a new handle, or it has none afterwards. -/
theorem StatementHandle.prepare_cases {answer : Prepared} {r : ℕ × Bool}
    (h : st.prepare e dbp answer = .ok (r, st', e')) :
    (¬(st.state = .initial ∨ st.state = .running) ∧ st' = st ∧ e' = e) ∨
      (st.state = .initial ∨ st.state = .running) ∧
        ((st'.stmt = none ∧ e' = e) ∨ ∃ c, st'.stmt = some e.next ∧
          e' = { e with next := e.next + 1, stmts := (e.next, c) :: e.stmts }) := by
  unfold prepare at h
  split_ifs at h with hstate
  · refine Or.inr ⟨hstate, ?_⟩
    obtain ⟨⟨parameters, stmt, e''⟩, hprepare, hret⟩ := bind_eq_ok_iff.mp h
    rcases Engine.prepare_cases hprepare with ⟨rfl, rfl⟩ | ⟨c, n, rfl, rfl, rfl⟩
    · cases parameters <;> cases hret <;> exact Or.inl ⟨rfl, rfl⟩
    · cases hret
      exact Or.inr ⟨c, rfl, rfl⟩
  · cases h
    exact Or.inl ⟨hstate, rfl, rfl⟩

/-- A statement that is closed gives its handle back if it was executed. -/
theorem StatementHandle.close_cases (h : st.close e ok = .ok (ok', st', e')) :
    (∃ s, (st.state = .running ∨ st.state = .done) ∧ st.stmt = some s ∧
      e' = { e with stmts := e.stmts.filter fun stmt => stmt.1 ≠ s }) ∨
    ¬((st.state = .running ∨ st.state = .done) ∧ st.stmt ≠ none) ∧ e' = e := by
  unfold close at h
  split_ifs at h with hstate
  · split at h
    · next s hs =>
      obtain ⟨e'', hfinalize, hret⟩ := bind_eq_ok_iff.mp h
      unfold Engine.finalize at hfinalize
      split at hfinalize <;> cases hfinalize
      cases hret
      exact Or.inl ⟨s, hstate, hs, rfl⟩
    · next hs =>
      cases h
      exact Or.inr ⟨fun hboth => hboth.2 hs, rfl⟩
  · cases h
    exact Or.inr ⟨fun hboth => hstate hboth.1, rfl⟩

/-- A connection that is closed is gone, or it was busy. -/
theorem Engine.close_cases {c : Handle} (h : e.close c = .ok (ok, e')) :
    (e.isBusy c = true ∧ e' = e) ∨
      e.isBusy c = false ∧ e' = { e with conns := e.conns.filter (· ≠ c) } := by
  unfold close at h
  split_ifs at h with hconn hbusy
  · cases h
    exact Or.inl ⟨hbusy, rfl⟩
  · cases h
    exact Or.inr ⟨Bool.eq_false_iff.mpr hbusy, rfl⟩

end Effects

/-! ### What calls do to handles -/

namespace SqlClient

variable {w w' : SqlClient} {b : Build} {i : ℕ} {st : StatementHandle} {ok : Bool}
  {f : StatementHandle → Except Fault (SqlResult × Option StatementHandle × Engine)}
  {results : List SqlResult} {call : SqlCall}

/-- A statement that is called is replaced, and the others stay as they are. -/
theorem onStatement_cases (h : w.onStatement i f = .ok (w', results)) :
    (w.statement? i = none ∧ w' = w) ∨
      ∃ st r st' e, w.statement? i = some st ∧ f st = .ok (r, st', e) ∧
        w' = { w with engine := e, statements := w.statements.set i st' } := by
  unfold onStatement at h
  split at h
  · next st hst =>
    obtain ⟨⟨r, st', e⟩, hf, hret⟩ := bind_eq_ok_iff.mp h
    cases hret
    exact Or.inr ⟨st, r, st', e, hst, hf, rfl⟩
  · next hst =>
    cases h
    exact Or.inl ⟨hst, rfl⟩

theorem handle_set {e : Engine} {st' : Option StatementHandle} (h : w.statement? i = some st) :
    handle { w with engine := e, statements := w.statements.set i st' } =
      Function.update w.handle i (st'.bind fun st => st.stmt) := by
  have hlt : i < w.statements.length := by
    by_contra hnot
    rw [statement?, List.getElem?_eq_none (Nat.le_of_not_lt hnot)] at h
    cases h
  funext j
  by_cases hij : j = i
  · subst hij
    simp [handle, statement?, hlt]
  · simp [handle, statement?, hij, Ne.symm hij]

theorem handle_of_statement? (h : w.statement? i = some st) : w.handle i = st.stmt := by
  rw [handle, h]
  rfl

/-- A connection that is closed leaves the statements alone. -/
theorem closeConnection_cases (h : w.closeConnection = .ok (ok, w')) :
    (w.dbp = none ∧ w' = w) ∨
      ∃ c e, w.dbp = some c ∧ w' = { w with engine := e, dbp := none } ∧
        ((w.engine.isBusy c = true ∧ e = w.engine) ∨ w.engine.isBusy c = false ∧
          e = { w.engine with conns := w.engine.conns.filter (· ≠ c) }) := by
  unfold closeConnection at h
  split at h
  · next c hc =>
    obtain ⟨⟨_, e⟩, hclose, hret⟩ := bind_eq_ok_iff.mp h
    cases hret
    exact Or.inr ⟨c, e, hc, rfl, Engine.close_cases hclose⟩
  · next hnone =>
    cases h
    exact Or.inl ⟨hnone, rfl⟩

theorem statementLedger_closeConnection (h : w.closeConnection = .ok (ok, w')) :
    w'.statementLedger = w.statementLedger := by
  rcases closeConnection_cases h with ⟨-, rfl⟩ | ⟨c, e, -, rfl, ⟨-, rfl⟩ | ⟨-, rfl⟩⟩
  · rfl
  · rfl
  · rfl

theorem statementLedger_set {e : Engine} {st' : Option StatementHandle}
    (h : w.statement? i = some st) :
    statementLedger { w with engine := e, statements := w.statements.set i st' } =
      ⟨e.next, {h | ∃ c, (h, c) ∈ e.stmts},
        Function.update w.handle i (st'.bind fun st => st.stmt)⟩ :=
  congrArg (Ledger.mk e.next {h | ∃ c, (h, c) ∈ e.stmts}) (handle_set h)

/-- A call that leaves SQLite and the handle of its statement as they are. -/
theorem statementLedger_kept {st' : StatementHandle} (h : w.statement? i = some st)
    (hkeep : st'.stmt = st.stmt) :
    statementLedger { w with statements := w.statements.set i (some st') } =
      w.statementLedger := by
  have hsame : (some st').bind (fun st => st.stmt) = w.handle i :=
    hkeep.trans (handle_of_statement? h).symm
  rw [statementLedger_set (e := w.engine) h, hsame, Function.update_eq_self]
  rfl

/-- A new statement has no handle, as little as one that does not exist. -/
theorem statementLedger_create :
    statementLedger { w with statements := w.statements ++ [some .make] } = w.statementLedger := by
  have hhandle : handle { w with statements := w.statements ++ [some .make] } = w.handle := by
    funext j
    rcases Nat.lt_trichotomy j w.statements.length with hlt | rfl | hgt
    · simp [handle, statement?, List.getElem?_append_left hlt]
    · simp [handle, statement?, StatementHandle.make]
    · simp [handle, statement?, List.getElem?_append_right hgt.le,
        List.getElem?_eq_none hgt.le, Nat.sub_ne_zero_of_lt hgt]
  exact congrArg (Ledger.mk w.engine.next {h | ∃ c, (h, c) ∈ w.engine.stmts}) hhandle

/-- What holds of the statement that is called. -/
theorem forall_statement_iff {p : StatementHandle → Prop} (h : w.statement? i = some st) :
    (∀ t ∈ w.statement? i, p t) ↔ p st := by
  constructor
  · exact fun hall => hall st h
  · intro hone t ht
    obtain rfl := Option.some.inj (h.symm.trans ht)
    exact hone

theorem follows_prepare {answer : Prepared} {r : ℕ × Bool} {st' : StatementHandle} {e : Engine}
    (hst : w.statement? i = some st) (h : st.prepare w.engine w.dbp answer = .ok (r, st', e)) :
    ∃ es, statementLedger { w with engine := e, statements := w.statements.set i (some st') } =
        w.statementLedger.afterAll es ∧
      (w.statementLedger.CarefulAll es ↔ CarefulStatement w (.prepare i answer)) := by
  have hown : w.statementLedger.own i = st.stmt := handle_of_statement? hst
  rw [CarefulStatement, forall_statement_iff hst, ← hown]
  rcases StatementHandle.prepare_cases h with
    ⟨hstate, rfl, rfl⟩ | ⟨hstate, ⟨hnone, rfl⟩ | ⟨c, hsome, rfl⟩⟩
  · exact ⟨[], statementLedger_kept hst rfl, iff_of_true trivial fun h => absurd h hstate⟩
  · refine ⟨[.drop i], ?_, by simp [Ledger.Careful, hstate]⟩
    rw [statementLedger_set hst, Option.bind_some, hnone]
    rfl
  · refine ⟨[.take i], ?_, by simp [Ledger.Careful, hstate]⟩
    have hlive : {h | ∃ d, (h, d) ∈ (w.engine.next, c) :: w.engine.stmts} =
        insert w.engine.next {h | ∃ d, (h, d) ∈ w.engine.stmts} := by
      ext h
      simp [exists_or]
    rw [statementLedger_set hst, Option.bind_some, hsome, hlive]
    rfl

theorem follows_destroy {ok' : Bool} {st' : StatementHandle} {e : Engine}
    (hst : w.statement? i = some st) (h : st.close w.engine ok = .ok (ok', st', e)) :
    ∃ es, statementLedger { w with engine := e, statements := w.statements.set i none } =
        w.statementLedger.afterAll es ∧
      (w.statementLedger.CarefulAll es ↔ CarefulStatement w (.destroy i ok)) := by
  have hown : w.statementLedger.own i = st.stmt := handle_of_statement? hst
  rw [CarefulStatement, forall_statement_iff hst, ← hown]
  rcases StatementHandle.close_cases h with ⟨s, hstate, hs, rfl⟩ | ⟨hnot, rfl⟩
  · refine ⟨[.release i], ?_, iff_of_true ⟨trivial, trivial⟩ fun _ => hstate⟩
    have hlive : {h | ∃ d, (h, d) ∈ w.engine.stmts.filter fun stmt => stmt.1 ≠ s} =
        {h ∈ {h | ∃ d, (h, d) ∈ w.engine.stmts} | w.handle i ≠ some h} := by
      ext h
      have hne : w.handle i ≠ some h ↔ h ≠ s := by
        rw [handle_of_statement? hst, hs, ne_comm, ne_eq, Option.some.injEq]
      simp [hne]
    rw [statementLedger_set hst, hlive]
    rfl
  · refine ⟨[.drop i], ?_, ?_⟩
    · rw [statementLedger_set hst]
      rfl
    · rw [← hown] at hnot
      simp only [Ledger.carefulAll_cons, Ledger.carefulAll_nil, and_true, Ledger.Careful]
      tauto

/-- What a call does to the prepared statements. -/
theorem follows_statements (b : Build) :
    Ledger.Follows (step b) statementLedger CarefulStatement := by
  intro w call w' results h
  have hkept (hsame : w'.statementLedger = w.statementLedger) (hcareful : CarefulStatement w call) :
      ∃ es, w'.statementLedger = w.statementLedger.afterAll es ∧
        (w.statementLedger.CarefulAll es ↔ CarefulStatement w call) :=
    ⟨[], hsame, iff_of_true trivial hcareful⟩
  cases call with
  | connect opened =>
    obtain ⟨⟨_, w₁⟩, hconnect, hret⟩ := bind_eq_ok_iff.mp h
    obtain ⟨⟨_, w₂⟩, hclose, hopen⟩ := bind_eq_ok_iff.mp hconnect
    have hsame := statementLedger_closeConnection hclose
    cases hret
    cases hopen
    refine ⟨[.pass], ?_, iff_of_true ⟨trivial, trivial⟩ trivial⟩
    rw [← hsame]
    rfl
  | close =>
    obtain ⟨⟨_, w₁⟩, hclose, hret⟩ := bind_eq_ok_iff.mp h
    cases hret
    exact hkept (statementLedger_closeConnection hclose) trivial
  | createStatement =>
    cases h
    exact hkept statementLedger_create trivial
  | prepare i answer =>
    rcases onStatement_cases h with ⟨hnone, rfl⟩ | ⟨st, r, st', e, hst, hf, rfl⟩
    · exact hkept rfl fun st hst => nomatch hnone.symm.trans hst
    · obtain ⟨⟨_, t, e'⟩, hprepare, hret⟩ := bind_eq_ok_iff.mp hf
      cases hret
      exact follows_prepare hst hprepare
  | execute i answer =>
    rcases onStatement_cases h with ⟨-, rfl⟩ | ⟨st, r, st', e, hst, hf, rfl⟩
    · exact hkept rfl trivial
    · obtain ⟨⟨_, t⟩, hexecute, hret⟩ := bind_eq_ok_iff.mp hf
      cases hret
      exact hkept (statementLedger_kept hst (StatementHandle.stmt_execute hexecute)) trivial
  | getResult i answer =>
    rcases onStatement_cases h with ⟨-, rfl⟩ | ⟨st, r, st', e, hst, hf, rfl⟩
    · exact hkept rfl trivial
    · obtain ⟨⟨_, t⟩, hfetch, hret⟩ := bind_eq_ok_iff.mp hf
      cases hret
      exact hkept (statementLedger_kept hst (StatementHandle.stmt_getResult hfetch)) trivial
  | clear i cleared =>
    rcases onStatement_cases h with ⟨-, rfl⟩ | ⟨st, r, st', e, hst, hf, rfl⟩
    · exact hkept rfl trivial
    · obtain ⟨t, hclear, hret⟩ := bind_eq_ok_iff.mp hf
      cases hret
      exact hkept (statementLedger_kept hst (StatementHandle.stmt_clear hclear)) trivial
  | destroy i ok =>
    rcases onStatement_cases h with ⟨hnone, rfl⟩ | ⟨st, r, st', e, hst, hf, rfl⟩
    · exact hkept rfl fun st hst => nomatch hnone.symm.trans hst
    · obtain ⟨⟨_, t, e'⟩, hclose, hret⟩ := bind_eq_ok_iff.mp hf
      cases hret
      exact follows_destroy hst hclose

theorem connectionLedger_update {e : Engine} {dbp : Option Handle} :
    connectionLedger { w with engine := e, dbp } =
      ⟨e.next, {c | c ∈ e.conns}, Function.update (fun _ => w.dbp) () dbp⟩ := by
  have hdbp : (fun _ => dbp) = Function.update (fun _ : Unit => w.dbp) () dbp := by
    funext u
    simp
  exact congrArg (Ledger.mk e.next {c | c ∈ e.conns}) hdbp

/-- A connection is given back unless it is busy. -/
theorem follows_closeConnection (h : w.closeConnection = .ok (ok, w')) :
    ∃ es, w'.connectionLedger = w.connectionLedger.afterAll es ∧
      (w.connectionLedger.CarefulAll es ↔
        ∀ c ∈ w.dbp, w.engine.isBusy c = false) ∧ w'.dbp = none := by
  rcases closeConnection_cases h with ⟨hnone, rfl⟩ | ⟨c, e, hc, rfl, ⟨hbusy, rfl⟩ | ⟨hfree, rfl⟩⟩
  · refine ⟨[], rfl, iff_of_true trivial fun c hc => ?_, hnone⟩
    rw [hnone] at hc
    cases hc
  · refine ⟨[.drop ()], connectionLedger_update, ?_, rfl⟩
    apply iff_of_false
    · exact fun hcareful => nomatch hc.symm.trans hcareful.1
    · intro hall
      rw [hall c hc] at hbusy
      cases hbusy
  · refine ⟨[.release ()], ?_, ?_, rfl⟩
    · have hlive : {d | d ∈ w.engine.conns.filter (· ≠ c)} =
          {d ∈ {d | d ∈ w.engine.conns} | w.dbp ≠ some d} := by
        ext d
        have hne : w.dbp ≠ some d ↔ d ≠ c := by
          rw [hc, ne_comm, ne_eq, Option.some.injEq]
        simp [hne]
      rw [connectionLedger_update, hlive]
      rfl
    · refine iff_of_true ⟨trivial, trivial⟩ fun d hd => ?_
      obtain rfl := Option.some.inj (hc.symm.trans hd)
      exact hfree

/-- What a call does to the connections. -/
theorem follows_connections (b : Build) :
    Ledger.Follows (step b) connectionLedger CarefulConnection := by
  intro w call w' results h
  have hkept (hsame : w'.connectionLedger = w.connectionLedger)
      (hcareful : CarefulConnection w call) :
      ∃ es, w'.connectionLedger = w.connectionLedger.afterAll es ∧
        (w.connectionLedger.CarefulAll es ↔ CarefulConnection w call) :=
    ⟨[], hsame, iff_of_true trivial hcareful⟩
  cases call with
  | connect opened =>
    obtain ⟨⟨_, w₁⟩, hconnect, hret⟩ := bind_eq_ok_iff.mp h
    obtain ⟨⟨_, w₂⟩, hclose, hopen⟩ := bind_eq_ok_iff.mp hconnect
    obtain ⟨es, hview, hcareful, hnone⟩ := follows_closeConnection hclose
    cases hret
    cases hopen
    refine ⟨es ++ [.take ()], ?_, ?_⟩
    · rw [Ledger.afterAll_append, ← hview]
      have hlive : {c | c ∈ w₂.engine.next :: w₂.engine.conns} =
          insert w₂.engine.next {c | c ∈ w₂.engine.conns} := by
        ext c
        simp
      refine connectionLedger_update.trans ?_
      show Ledger.mk _ {c | c ∈ w₂.engine.next :: w₂.engine.conns} _ = _
      rw [hlive]
      rfl
    · -- the old handle is gone by then
      rw [Ledger.carefulAll_append, ← hview, hcareful]
      exact and_iff_left ⟨hnone, trivial⟩
  | close =>
    obtain ⟨⟨_, w₁⟩, hclose, hret⟩ := bind_eq_ok_iff.mp h
    cases hret
    obtain ⟨es, hview, hcareful, -⟩ := follows_closeConnection hclose
    exact ⟨es, hview, hcareful⟩
  | createStatement =>
    cases h
    exact hkept rfl trivial
  | prepare i answer =>
    rcases onStatement_cases h with ⟨-, rfl⟩ | ⟨st, r, st', e, hst, hf, rfl⟩
    · exact hkept rfl trivial
    · obtain ⟨⟨_, t, e'⟩, hprepare, hret⟩ := bind_eq_ok_iff.mp hf
      cases hret
      rcases StatementHandle.prepare_cases hprepare with
        ⟨-, -, rfl⟩ | ⟨-, ⟨-, rfl⟩ | ⟨c, -, rfl⟩⟩
      · exact hkept rfl trivial
      · exact hkept rfl trivial
      -- the number of the handle is none of a connection
      · exact ⟨[.pass], rfl, iff_of_true ⟨trivial, trivial⟩ trivial⟩
  | execute i answer | getResult i answer | clear i cleared =>
    rcases onStatement_cases h with ⟨-, rfl⟩ | ⟨st, r, st', e, hst, hf, rfl⟩
    · exact hkept rfl trivial
    · obtain ⟨_, -, hret⟩ := bind_eq_ok_iff.mp hf
      cases hret
      exact hkept rfl trivial
  | destroy i ok =>
    rcases onStatement_cases h with ⟨-, rfl⟩ | ⟨st, r, st', e, hst, hf, rfl⟩
    · exact hkept rfl trivial
    · obtain ⟨⟨_, t, e'⟩, hclose, hret⟩ := bind_eq_ok_iff.mp hf
      cases hret
      rcases StatementHandle.close_cases hclose with ⟨s, -, -, rfl⟩ | ⟨-, rfl⟩
      · exact hkept rfl trivial
      · exact hkept rfl trivial

/-! ### Calls that are possible -/

/-- Only a statement that has a handle can be cleared; in a build with the assertion, only such a
statement can be executed, and only such a statement can be asked for a row when it is ready. -/
def Valid (b : Build) (w : SqlClient) : SqlCall → Prop
  | .execute i _ =>
    ∀ st ∈ w.statement? i, b.enabled "SQLite statement invalid" = true → st.stmt ≠ none
  | .getResult i _ => ∀ st ∈ w.statement? i, st.state = .ready ∨ st.state = .running →
    b.enabled "SQLite statement invalid" = true → st.stmt ≠ none
  | .clear i _ => ∀ st ∈ w.statement? i, st.stmt ≠ none
  | _ => True

/-- The handles of the session and of its statements are not given back. -/
structure Sound (w : SqlClient) : Prop where
  statements : w.statementLedger.Sound
  connections : w.connectionLedger.Sound

theorem sound_initial : initial.Sound where
  statements := ⟨by simp [initial, statementLedger], by simp [initial, statementLedger, handle,
    statement?], by simp [initial, statementLedger, handle, statement?]⟩
  connections := ⟨by simp [initial, connectionLedger], by simp [initial, connectionLedger],
    by simp⟩

theorem Sound.step (sound : w.Sound) (h : w.step b call = .ok (w', results)) : w'.Sound where
  statements := (follows_statements b).sound sound.statements h
  connections := (follows_connections b).sound sound.connections h

/-- SQLite knows the handle of a statement. -/
theorem Sound.isPrepared (sound : w.Sound) (hst : w.statement? i = some st) {s : Handle}
    (hs : st.stmt = some s) : w.engine.isPrepared s = true := by
  obtain ⟨c, hc⟩ := sound.statements.live_of_own i s ((handle_of_statement? hst).trans hs)
  exact List.any_eq_true.mpr ⟨(s, c), hc, by simp⟩

theorem Sound.mem_conns (sound : w.Sound) {c : Handle} (hc : w.dbp = some c) :
    c ∈ w.engine.conns := sound.connections.live_of_own () c hc

end SqlClient

section Possible

variable {st : StatementHandle} {e : Engine} {b : Build}

theorem StatementHandle.execute_ok_iff (hlive : ∀ s, st.stmt = some s → e.isPrepared s = true)
    (answer : Stepped) : (∃ r, st.execute e b answer = .ok r) ↔
      (b.enabled "SQLite statement invalid" = true → st.stmt ≠ none) := by
  have hvalid : st.isValid = true ↔ st.stmt ≠ none := Option.isSome_iff_ne_none
  have hstep : ∃ rc, e.step st.stmt answer = .ok rc := by
    unfold Engine.step
    split
    · exact ⟨_, rfl⟩
    · next s hs => exact ⟨answer, if_pos (hlive s hs)⟩
  obtain ⟨rc, hrc⟩ := hstep
  constructor
  · rintro ⟨r, h⟩
    obtain ⟨_, hcheck, -⟩ := bind_eq_ok_iff.mp h
    rw [← hvalid]
    exact Build.check_eq_ok_iff.mp hcheck
  · intro h
    rw [← hvalid, ← Build.check_eq_ok_iff] at h
    rw [execute, h, ok_bind, hrc]
    cases rc <;> exact ⟨_, rfl⟩

theorem StatementHandle.getResult_ok_iff (hlive : ∀ s, st.stmt = some s → e.isPrepared s = true)
    (answer : Stepped) : (∃ r, st.getResult e b answer = .ok r) ↔
      (st.state = .ready ∨ st.state = .running →
        b.enabled "SQLite statement invalid" = true → st.stmt ≠ none) := by
  unfold getResult
  split_ifs with hstate
  · rw [imp_iff_right hstate, ← execute_ok_iff hlive answer]
    constructor
    · rintro ⟨r, h⟩
      obtain ⟨q, hq, -⟩ := bind_eq_ok_iff.mp h
      exact ⟨q, hq⟩
    · rintro ⟨q, hq⟩
      rw [hq]
      exact ⟨_, rfl⟩
  · exact iff_of_true ⟨_, rfl⟩ fun h => absurd h hstate

theorem StatementHandle.clear_ok_iff (hlive : ∀ s, st.stmt = some s → e.isPrepared s = true)
    (cleared : Bool) : (∃ r, st.clear e cleared = .ok r) ↔ st.stmt ≠ none := by
  unfold clear Engine.clearBindings
  cases hstmt : st.stmt with
  | none => exact iff_of_false (fun ⟨_, h⟩ => nomatch h) fun h => h rfl
  | some s =>
    refine iff_of_true ?_ (Option.some_ne_none s)
    simp only [if_pos (hlive s hstmt), ok_bind]
    exact ⟨_, rfl⟩

/-- The connection of a session is open, so that statements can be prepared. -/
theorem StatementHandle.exists_prepare {dbp : Option Handle}
    (hlive : ∀ c, dbp = some c → c ∈ e.conns)
    (answer : Prepared) : ∃ r, st.prepare e dbp answer = .ok r := by
  have hprepare : ∃ r, e.prepare dbp answer = .ok r := by
    cases dbp with
    | none => exact ⟨_, rfl⟩
    | some c =>
      have hopen : ¬ c ∉ e.conns := not_not.mpr (hlive c rfl)
      cases answer <;> exact ⟨_, if_neg hopen⟩
  obtain ⟨⟨parameters, stmt, e'⟩, hprepare⟩ := hprepare
  unfold prepare
  split_ifs
  · rw [hprepare, ok_bind]
    cases parameters <;> exact ⟨_, rfl⟩
  · exact ⟨_, rfl⟩

theorem StatementHandle.exists_close (hlive : ∀ s, st.stmt = some s → e.isPrepared s = true)
    (ok : Bool) : ∃ r, st.close e ok = .ok r := by
  unfold close
  split_ifs
  · cases hstmt : st.stmt with
    | none => exact ⟨_, rfl⟩
    | some s =>
      have hfinalize : e.finalize s = .ok _ := if_pos (hlive s hstmt)
      simp only [hfinalize, ok_bind]
      exact ⟨_, rfl⟩
  · exact ⟨_, rfl⟩

end Possible

namespace SqlClient

section Runs

variable {w w' : SqlClient} {b : Build} {i : ℕ} {call : SqlCall} {calls : List SqlCall}
  {results : List SqlResult}
  {f : StatementHandle → Except Fault (SqlResult × Option StatementHandle × Engine)}

theorem onStatement_ok_iff : (∃ r, w.onStatement i f = .ok r) ↔
    ∀ st ∈ w.statement? i, ∃ r, f st = .ok r := by
  unfold onStatement
  cases hst : w.statement? i with
  | none => exact iff_of_true ⟨_, rfl⟩ fun st h => nomatch h
  | some st =>
    constructor
    · rintro ⟨r, h⟩ t ht
      obtain rfl := Option.some.inj ht
      obtain ⟨q, hq, -⟩ := bind_eq_ok_iff.mp h
      exact ⟨q, hq⟩
    · intro hall
      obtain ⟨q, hq⟩ := hall st rfl
      simp only [hq, ok_bind]
      exact ⟨_, rfl⟩

/-- A call of a statement whose result is wrapped. -/
theorem exists_bind_iff {α β : Type} {x : Except Fault α} {g : α → β} :
    (∃ r, (x >>= fun a => .ok (g a)) = .ok r) ↔ ∃ a, x = .ok a := by
  constructor
  · rintro ⟨r, h⟩
    obtain ⟨a, ha, -⟩ := bind_eq_ok_iff.mp h
    exact ⟨a, ha⟩
  · rintro ⟨a, ha⟩
    exact ⟨g a, by rw [ha]; rfl⟩

theorem Sound.exists_closeConnection (sound : w.Sound) : ∃ r, w.closeConnection = .ok r := by
  unfold closeConnection
  cases hc : w.dbp with
  | none => exact ⟨_, rfl⟩
  | some c =>
    have hopen : ¬ c ∉ w.engine.conns := not_not.mpr (sound.mem_conns hc)
    have hclose : ∃ r, w.engine.close c = .ok r := by
      rw [Engine.close, if_neg hopen]
      split_ifs <;> exact ⟨_, rfl⟩
    obtain ⟨r, hr⟩ := hclose
    simp only [hr, ok_bind]
    exact ⟨_, rfl⟩

/-- The step lemma: with sound handles, no call fails but one that is not valid. -/
theorem Sound.step_ok_iff (sound : w.Sound) : (∃ r, w.step b call = .ok r) ↔ Valid b w call := by
  cases call with
  | connect opened =>
    refine iff_of_true ?_ trivial
    obtain ⟨r, hr⟩ := sound.exists_closeConnection
    exact ⟨_, by rw [SqlClient.step, connect, hr]; rfl⟩
  | close =>
    refine iff_of_true ?_ trivial
    obtain ⟨r, hr⟩ := sound.exists_closeConnection
    exact ⟨_, by rw [SqlClient.step, hr]; rfl⟩
  | createStatement => exact iff_of_true ⟨_, rfl⟩ trivial
  | prepare i answer =>
    refine iff_of_true (onStatement_ok_iff.mpr fun st hst => exists_bind_iff.mpr ?_) trivial
    exact StatementHandle.exists_prepare (fun c hc => sound.mem_conns hc) answer
  | execute i answer =>
    refine onStatement_ok_iff.trans (forall₂_congr fun st hst => exists_bind_iff.trans ?_)
    exact StatementHandle.execute_ok_iff (fun s hs => sound.isPrepared hst hs) answer
  | getResult i answer =>
    refine onStatement_ok_iff.trans (forall₂_congr fun st hst => exists_bind_iff.trans ?_)
    exact StatementHandle.getResult_ok_iff (fun s hs => sound.isPrepared hst hs) answer
  | clear i cleared =>
    refine onStatement_ok_iff.trans (forall₂_congr fun st hst => exists_bind_iff.trans ?_)
    exact StatementHandle.clear_ok_iff (fun s hs => sound.isPrepared hst hs) cleared
  | destroy i ok =>
    refine iff_of_true (onStatement_ok_iff.mpr fun st hst => exists_bind_iff.mpr ?_) trivial
    exact StatementHandle.exists_close (fun s hs => sound.isPrepared hst hs) ok

/-- No handle is used after it was given back, and none is given back twice: a run ends with a
fault exactly when a statement without a handle is cleared, or executed with assertions. -/
theorem run_ok_iff (b : Build) (calls : List SqlCall) :
    (∃ w results, Step.run (step b) initial calls = .ok (w, results)) ↔
      Step.Guarded (step b) (Valid b) initial calls := by
  have hsafe : Step.Safe (step b) Sound (Valid b) fun _ => True := by
    intro w call sound valid
    obtain ⟨⟨w', results⟩, h⟩ := sound.step_ok_iff.mpr valid
    exact ⟨w', results, h, sound.step h, fun _ _ => trivial⟩
  have hnecessary : ∀ w call w' results, w.Sound → step b w call = .ok (w', results) →
      (∀ o ∈ results, True) → Valid b w call :=
    fun w call w' results sound h _ => sound.step_ok_iff.mp ⟨_, h⟩
  rw [← hsafe.run_iff hnecessary sound_initial]
  simp

/-- When nobody has a statement any more and the session is closed, SQLite has got back all of its
handles exactly when no statement was given up before it was executed, or prepared again while it
ran, and no connection was closed while it had statements. -/
theorem nothing_leaks_iff (h : Step.run (step b) initial calls = .ok (w, results))
    (hstatements : ∀ i, w.statement? i = none) (hclosed : w.dbp = none) :
    (w.engine.conns = [] ∧ w.engine.stmts = []) ↔
      Step.Guarded (step b) (fun w call => w.CarefulStatement call ∧ w.CarefulConnection call)
        initial calls := by
  have hstatements' : w.statementLedger.Tidy ↔ w.engine.stmts = [] := by
    constructor
    · intro htidy
      -- a prepared statement would be in one of the objects
      apply List.eq_nil_iff_forall_not_mem.mpr
      rintro ⟨s, c⟩ hs
      obtain ⟨i, hi⟩ := htidy s ⟨c, hs⟩
      have hnone : w.handle i = none := by rw [handle, hstatements i]; rfl
      exact nomatch hnone.symm.trans hi
    · rintro hnil h ⟨c, hc⟩
      rw [hnil] at hc
      cases hc
  have hconnections : w.connectionLedger.Tidy ↔ w.engine.conns = [] := by
    constructor
    · intro htidy
      apply List.eq_nil_iff_forall_not_mem.mpr
      intro c hc
      obtain ⟨_, hdbp⟩ := htidy c hc
      exact nomatch hclosed.symm.trans hdbp
    · intro hnil c hc
      rw [connectionLedger, hnil] at hc
      cases hc
  have htidy : initial.statementLedger.Tidy := by
    rintro h ⟨c, hc⟩
    cases hc
  have htidy' : initial.connectionLedger.Tidy := by
    intro h hc
    cases hc
  rw [Step.guarded_and, ← (follows_statements b).tidy_iff sound_initial.statements htidy h,
    ← (follows_connections b).tidy_iff sound_initial.connections htidy' h, hstatements',
    hconnections, and_comm]

/-- A session that reads two rows, and stops before the end. -/
def readTwoRows : List SqlCall :=
  [.connect true, .createStatement, .prepare 0 (.statement 0), .getResult 0 .row,
    .getResult 0 .row, .destroy 0 true, .close]

theorem nothing_leaks_iff_readTwoRows :
    ∃ w results, Step.run (step .debug) initial readTwoRows = .ok (w, results) ∧
      w.engine.conns = [] ∧ w.engine.stmts = [] := by
  have hrun : Step.run (step .debug) initial readTwoRows = .ok (⟨⟨2, [], []⟩, none, [none]⟩,
      [.connected true, .created 0, .prepared 0 true, .fetched true, .fetched true, .destroyed,
        .closed true]) := rfl
  have hnone : ∀ i, statement? ⟨⟨2, [], []⟩, none, [none]⟩ i = none := fun i => by
    cases i <;> rfl
  exact ⟨_, _, hrun, (nothing_leaks_iff hrun hnone rfl).mpr (by decide)⟩

/-- A table that cannot be read. The statement is never finalized, so that the connection stays
open as well. -/
example : Step.run (step .debug) initial
    [.connect true, .createStatement, .prepare 0 (.statement 0), .getResult 0 .failed,
      .destroy 0 true, .close] = .ok (⟨⟨2, [0], [(1, 0)]⟩, none, [none]⟩,
    [.connected true, .created 0, .prepared 0 true, .fetched false, .destroyed,
      .closed false]) := rfl

end Runs

end SqlClient

end Cyng
