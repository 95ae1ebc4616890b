import Cyng.Store.Facade
import Cyng.Theory.Transactions
import Mathlib.Data.List.Perm.Basic

/-!
# Access to several tables at once

`store::access` locks the store for reading, looks up the mutexes of the tables it is asked for,
locks all of them with `std::lock`, and hands the tables over to a function. Creating a table
locks the store for writing. Each is a transaction: it keeps its locks to its end.

Threads that use a store in these ways never see each other's work half done, and never wait for
each other for good.
-/

namespace Cyng

open Theory

/-- A table, and what it has sent to its subscribers so far. -/
structure SharedTable (hasher : Hasher) where
  table : StoredTable hasher
  sent : List Delivery

/-- What the mutexes are for: the names in `tables_`, and the table of a name. -/
abbrev Kept (hasher : Hasher) : Mutex → Type
  | .store => List Bytes
  | .table _ => Option (SharedTable hasher)

/-- The tables of a store as threads share them. -/
def Store.cells {hasher : Hasher} (s : Store hasher) : ∀ cell, Kept hasher cell
  | .store => s.tables.map Prod.fst
  | .table name => (s.find name).map fun t => ⟨t, []⟩

/-! ### The discipline -/

/-- The mutex of the store is locked, in whatever mode. -/
def Entered (held : List (Mutex × LockMode)) : Prop := ∃ mode, (.store, mode) ∈ held

/-- A table may be read under its own mutex by who has entered the store, and written when the
mutex is locked by the writer alone. Who has the store alone needs no mutex of a table. -/
def storeDiscipline : Discipline Mutex Mutex where
  Reads held
    | .store => Entered held
    | .table name =>
      (.store, .exclusive) ∈ held ∨ Entered held ∧ ∃ mode, (.table name, mode) ∈ held
  Writes held
    | .store => (.store, .exclusive) ∈ held
    | .table name =>
      (.store, .exclusive) ∈ held ∨ Entered held ∧ (.table name, .exclusive) ∈ held
  rank
    | .store => 0
    | .table _ => 1
  reads_of_writes := by
    intro held cell h
    cases cell with
    | store => exact ⟨_, h⟩
    | table name => exact h.imp_right fun h => ⟨h.1, _, h.2⟩
  reads_append := by
    intro held cell more h
    have hentered : Entered held → Entered (more ++ held) := fun ⟨mode, hmode⟩ =>
      ⟨mode, List.mem_append_right more hmode⟩
    cases cell with
    | store => exact hentered h
    | table name =>
      rcases h with halone | ⟨hin, mode, hmode⟩
      · exact .inl (List.mem_append_right more halone)
      · exact .inr ⟨hentered hin, mode, List.mem_append_right more hmode⟩
  writes_append := by
    intro held cell more h
    cases cell with
    | store => exact List.mem_append_right more h
    | table name =>
      rcases h with halone | ⟨⟨mode, hmode⟩, htable⟩
      · exact .inl (List.mem_append_right more halone)
      · exact .inr ⟨⟨mode, List.mem_append_right more hmode⟩, List.mem_append_right more htable⟩
  excludes := by
    intro held other cell hwrites hreads hcompatible
    -- one mutex is locked by both, and by one of them alone
    have hclash : ∀ {mutex mode}, (mutex, .exclusive) ∈ held → (mutex, mode) ∈ other → False :=
      fun halone hother => nomatch (hcompatible _ halone _ hother rfl).1
    have hclash' : ∀ {mutex mode}, (mutex, mode) ∈ held → (mutex, .exclusive) ∈ other → False :=
      fun hheld halone => nomatch (hcompatible _ hheld _ halone rfl).2
    cases cell with
    | store =>
      obtain ⟨mode, hmode⟩ := hreads
      exact hclash hwrites hmode
    | table name =>
      rcases hwrites with halone | ⟨⟨mode, hmode⟩, htable⟩
      · rcases hreads with halone' | ⟨⟨mode', hmode'⟩, -⟩
        · exact hclash halone halone'
        · exact hclash halone hmode'
      · rcases hreads with halone' | ⟨-, mode', htable'⟩
        · exact hclash' hmode halone'
        · exact hclash htable htable'

/-! ### What threads ask for -/

/-- The calls of a `table const*`. -/
def TableCall.isConst : TableCall → Bool
  | .size | .lookupAt .. => true
  | _ => false

/-- What a function does with the tables it gets. It sees answers and exceptions. Which
subscribers are there at the time of a call is not up to the store. -/
inductive AccessBody (ρ : Type)
  | ret (value : ρ)
  | throw (fault : Fault)
  | call (name : Bytes) (alive : Slot → Bool) (c : TableCall)
    (rest : Except Fault Answer → AccessBody ρ)

/-- The types of the pointers: `table const*` for `access::read`, `table*` for
`access::write`. -/
def AccessBody.Typed {ρ : Type} (tbls : List (Access × Bytes)) : AccessBody ρ → Prop
  | .ret _ => True
  | .throw _ => True
  | .call name _ c rest =>
    (∃ how, (how, name) ∈ tbls ∧ (how = .write ∨ c.isConst = true)) ∧
      ∀ answer, Typed tbls (rest answer)

/-- What a thread gets from the store. -/
inductive Reply (ρ : Type)
  | returned (value : ρ)
  | created (ok : Bool)
  | tables (n : ℕ)

/-- What a thread asks the store for. A function gets no table twice. -/
inductive Request (hasher : Hasher) (ρ : Type)
  | access (tbls : List (Access × Bytes)) (distinct : (tbls.map Prod.snd).Nodup) (f : AccessBody ρ)
    (typed : f.Typed tbls)
  | createTable (m : Meta)
  | createAutoTable (m : Meta) (keys : AutoKeys hasher m)
  | size

/-- The code that threads run. -/
abbrev StoreCode (hasher : Hasher) (ρ : Type) :=
  Transaction Mutex Mutex (Kept hasher) Fault (Except Fault (Reply ρ))

section Code

variable {hasher : Hasher} {ρ : Type} (b : Build)

/-- A fault: an exception leaves the function, the others end the program. -/
def StoreCode.fault (fault : Fault) : StoreCode hasher ρ :=
  if fault.unwinds then .done (.error fault) else .halt fault

/-- What comes after a call through a pointer: exceptions can be caught. -/
def StoreCode.after (alive : Slot → Bool) (c : TableCall)
    (rest : Except Fault Answer → StoreCode hasher ρ) :
    Option (SharedTable hasher) → StoreCode hasher ρ
  | none => .halt (.undefined "null pointer")
  | some shared =>
    match shared.table.call b alive c with
    | .ok (_, answer, _) => rest (.ok answer)
    | .error fault => if fault.unwinds then rest (.error fault) else .halt fault

/-- The table as it is after a call, and what it has sent by then. -/
def SharedTable.after (alive : Slot → Bool) (c : TableCall) (shared : SharedTable hasher) :
    SharedTable hasher :=
  match shared.table.call b alive c with
  | .ok (t, _, deliveries) => ⟨t, shared.sent ++ deliveries⟩
  | .error _ => shared

/-- The call of `f`. -/
def AccessBody.code : AccessBody ρ → StoreCode hasher ρ
  | .ret value => .done (.ok (.returned value))
  | .throw fault => StoreCode.fault fault
  | .call name alive c rest =>
    let next := StoreCode.after b alive c fun answer => (rest answer).code
    if c.isConst then .read (.table name) next
    else .write (.table name) (Option.map (SharedTable.after b alive c)) next

/-- `store::access`. A lock that was made without a mutex throws when it is to be locked. -/
def Store.accessing (tbls : List (Access × Bytes)) (f : AccessBody ρ) : StoreCode hasher ρ :=
  .acquire [(.store, .shared)] <| .read .store fun (names : List Bytes) =>
    match b.check "pos != tables_.end()" (∀ tbl ∈ tbls, tbl.2 ∈ names) with
    | .error fault => StoreCode.fault fault
    | .ok () =>
      if ∀ tbl ∈ tbls, tbl.2 ∈ names then
        .acquire (tbls.map fun tbl => (.table tbl.2, tbl.1.mode)) (f.code b)
      else .done (.error (.exception "std::system_error"))

/-- `tables_.emplace` under a lock of the store, for both kinds of tables. -/
def Store.emplace (t : StoredTable hasher) : StoreCode hasher ρ :=
  .acquire [(.store, .exclusive)] <|
    .write .store (fun (names : List Bytes) =>
      if t.metaStore.name ∈ names then names else names ++ [t.metaStore.name])
    fun (names : List Bytes) =>
      if t.metaStore.name ∈ names then .done (.ok (.created false))
      else .write (.table t.metaStore.name) (fun _ => some ⟨t, []⟩) fun _ =>
        .done (.ok (.created true))

def Store.createTable (m : Meta) : StoreCode hasher ρ := Store.emplace ⟨m, .empty, .empty, none⟩

def Store.createAutoTable (m : Meta) (keys : AutoKeys hasher m) : StoreCode hasher ρ :=
  Store.emplace ⟨m, .empty, .empty, some keys⟩

/-- `store::size()` -/
def Store.sizing : StoreCode hasher ρ :=
  .acquire [(.store, .shared)] <| .read .store fun (names : List Bytes) =>
    .done (.ok (.tables names.length))

/-- The function of the store that is called. -/
def Request.code : Request hasher ρ → StoreCode hasher ρ
  | .access tbls _ f _ => Store.accessing b tbls f
  | .createTable m => Store.createTable m
  | .createAutoTable m keys => Store.createAutoTable m keys
  | .size => Store.sizing

end Code

/-! ### The discipline is kept -/

section Careful

variable {hasher : Hasher} {ρ : Type} {b : Build} {held : List (Mutex × LockMode)}
  {tbls : List (Access × Bytes)}

theorem careful_fault {fault : Fault} :
    (StoreCode.fault fault : StoreCode hasher ρ).Careful storeDiscipline held := by
  unfold StoreCode.fault
  split_ifs <;> trivial

theorem careful_after {alive : Slot → Bool} {c : TableCall}
    {rest : Except Fault Answer → StoreCode hasher ρ} {shared? : Option (SharedTable hasher)}
    (h : ∀ answer, (rest answer).Careful storeDiscipline held) :
    (StoreCode.after b alive c rest shared?).Careful storeDiscipline held := by
  cases shared? with
  | none => trivial
  | some shared =>
    simp only [StoreCode.after]
    split
    · exact h _
    · split_ifs
      · exact h _
      · trivial

/-- With the mutexes of its tables locked as the types of the pointers demand, a function may do
what it does. -/
theorem AccessBody.careful {f : AccessBody ρ} (htyped : f.Typed tbls) (hin : Entered held)
    (hheld : ∀ tbl ∈ tbls, (.table tbl.2, tbl.1.mode) ∈ held) :
    (f.code b : StoreCode hasher ρ).Careful storeDiscipline held := by
  induction f with
  | ret value => trivial
  | throw fault => exact careful_fault
  | call name alive c rest ih =>
    obtain ⟨⟨how, hmem, hhow⟩, hrest⟩ := htyped
    have hlocked : (.table name, how.mode) ∈ held := hheld _ hmem
    simp only [AccessBody.code]
    cases hconst : c.isConst with
    | true =>
      exact ⟨.inr ⟨hin, _, hlocked⟩, fun _ => careful_after fun answer => ih answer (hrest answer)⟩
    | false =>
      obtain rfl : how = .write := hhow.resolve_right (by rw [hconst]; exact Bool.false_ne_true)
      exact ⟨.inr ⟨hin, hlocked⟩, fun _ => careful_after fun answer => ih answer (hrest answer)⟩

theorem careful_accessing {f : AccessBody ρ} (distinct : (tbls.map Prod.snd).Nodup)
    (htyped : f.Typed tbls) :
    (Store.accessing b tbls f : StoreCode hasher ρ).Careful storeDiscipline [] := by
  refine ⟨fun _ _ _ h => absurd h List.not_mem_nil, List.nodup_singleton _,
    ⟨_, List.mem_singleton_self _⟩, fun names => ?_⟩
  dsimp only
  split
  · exact careful_fault
  · split_ifs
    · refine ⟨fun lock hlock lock' hlock' => ?_, ?_, f.careful htyped ?_ fun tbl htbl => ?_⟩
      -- the store comes first, the tables after it
      · obtain ⟨tbl, -, rfl⟩ := List.mem_map.mp hlock
        obtain rfl := List.mem_singleton.mp hlock'
        exact Nat.zero_lt_one
      · have hmutexes : (tbls.map fun tbl => ((.table tbl.2, tbl.1.mode) : Mutex × LockMode)).map
            Prod.fst = (tbls.map Prod.snd).map Mutex.table := by
          rw [List.map_map, List.map_map]
          rfl
        rw [hmutexes]
        exact distinct.map fun _ _ => Mutex.table.inj
      · exact ⟨_, List.mem_append_right _ (List.mem_singleton_self _)⟩
      · exact List.mem_append_left _ (List.mem_map_of_mem htbl)
    · trivial

theorem careful_emplace {t : StoredTable hasher} :
    (Store.emplace t : StoreCode hasher ρ).Careful storeDiscipline [] := by
  refine ⟨fun _ _ _ h => absurd h List.not_mem_nil, List.nodup_singleton _,
    List.mem_singleton_self _, fun names => ?_⟩
  dsimp only
  split_ifs
  · trivial
  · exact ⟨.inl (List.mem_singleton_self _), fun _ => trivial⟩

theorem Request.careful (request : Request hasher ρ) :
    (request.code b).Careful storeDiscipline [] := by
  cases request with
  | access tbls distinct f typed => exact careful_accessing distinct typed
  | createTable m => exact careful_emplace
  | createAutoTable m keys => exact careful_emplace
  | size =>
    exact ⟨fun _ _ _ h => absurd h List.not_mem_nil, List.nodup_singleton _,
      ⟨_, List.mem_singleton_self _⟩, fun _ => trivial⟩

end Careful

/-! ### One table -/

section One

variable {hasher : Hasher} {b : Build} {alive : Slot → Bool} {s : Store hasher} {how : Access}
  {name other : Bytes} {c : TableCall} {t t' : StoredTable hasher}

/-- A function that makes one call, and lets exceptions pass. -/
def AccessBody.one (name : Bytes) (alive : Slot → Bool) (c : TableCall) : AccessBody Answer :=
  .call name alive c fun
    | .ok answer => .ret answer
    | .error fault => .throw fault

theorem mem_names_iff : name ∈ s.tables.map Prod.fst ↔ (s.find name).isSome = true := by
  rw [Store.find, Option.isSome_map, List.find?_isSome, List.mem_map]
  simp only [decide_eq_true_eq]

theorem find_put_self (h : s.find name = some t) : (s.put name t').find name = some t' := by
  have hname : name ∈ s.tables.map Prod.fst := mem_names_iff.mpr (Option.isSome_of_eq_some h)
  obtain ⟨entry, hentry, rfl⟩ := List.mem_map.mp hname
  cases hfind : (s.put entry.1 t').tables.find? (fun e => e.1 = entry.1) with
  | none =>
    have hput : (entry.1, t') ∈ (s.put entry.1 t').tables :=
      List.mem_map.mpr ⟨entry, hentry, by simp⟩
    have hnot := List.find?_eq_none.mp hfind _ hput
    simp at hnot
  | some found =>
    obtain ⟨old, -, hold⟩ := List.mem_map.mp (List.mem_of_find?_eq_some hfind)
    have hkey : found.1 = entry.1 := by simpa using List.find?_some hfind
    simp only [Store.find, hfind, Option.map_some]
    split_ifs at hold with hsame
    · rw [← hold]
    · rw [hold] at hsame
      exact absurd hkey hsame

theorem find_put_of_ne (h : other ≠ name) : (s.put name t').find other = s.find other := by
  simp only [Store.find, Store.put, List.find?_map, Option.map_map]
  have hkeys : ((fun entry : Bytes × StoredTable hasher => decide (entry.1 = other)) ∘
      fun entry => if entry.1 = name then (name, t') else entry) =
        fun entry => decide (entry.1 = other) := by
    ext entry
    by_cases heq : entry.1 = name
    · simp [heq]
    · simp [heq]
  rw [hkeys]
  cases hfind : s.tables.find? (fun entry => decide (entry.1 = other)) with
  | none => rfl
  | some entry =>
    have hkey : entry.1 = other := by simpa using List.find?_some hfind
    simp [hkey, h]

/-- What the code of one call does on its own. -/
theorem alone_one (h : s.find name = some t) :
    Transaction.alone ((AccessBody.one name alive c).code b) s.cells =
      match t.call b alive c with
      | .ok (t', answer, sent) => .ok (.ok (.returned answer),
          if c.isConst then s.cells
          else Function.update s.cells (.table name) (some ⟨t', sent⟩))
      | .error fault =>
        if fault.unwinds then .ok (.error fault, s.cells) else .error fault := by
  have hcell : s.cells (.table name) = some ⟨t, []⟩ := by
    simp only [Store.cells, h, Option.map_some]
  have hself : Function.update s.cells (.table name) (some ⟨t, []⟩) = s.cells := by
    rw [← hcell, Function.update_eq_self]
  cases hconst : c.isConst with
  | true =>
    simp only [AccessBody.one, AccessBody.code, hconst, if_true, Transaction.alone, hcell,
      StoreCode.after]
    cases t.call b alive c with
    | ok r => rfl
    | error fault => cases hunwinds : fault.unwinds <;> simp [StoreCode.fault, hunwinds,
        Transaction.alone]
  | false =>
    simp only [AccessBody.one, AccessBody.code, hconst, Bool.false_eq_true, if_false,
      Transaction.alone, hcell, StoreCode.after, Option.map_some, SharedTable.after]
    cases t.call b alive c with
    | ok r => rfl
    | error fault => cases hunwinds : fault.unwinds <;> simp [StoreCode.fault, hunwinds,
        Transaction.alone, hself]

/-- Asking changes nothing. -/
theorem call_of_isConst {answer : Answer} {sent : List Delivery} (hconst : c.isConst = true)
    (h : t.call b alive c = .ok (t', answer, sent)) : t' = t := by
  cases c with
  | size =>
    cases h
    rfl
  | lookupAt column key =>
    obtain ⟨obj, -, hret⟩ := bind_eq_ok_iff.mp h
    cases hret
    rfl
  | _ => cases hconst

/-- The threads' code refines the calls of the facade: with nobody else around, an access that
makes one call ends as the call does, and leaves the tables that the call leaves. -/
theorem alone_accessing :
    let out := Store.access b how name (Store.callTable b alive c) s
    match Transaction.alone (Store.accessing b [(how, name)] (.one name alive c)) s.cells with
    | .ok (reply, cells) =>
      (reply = out.result.map Reply.returned) ∧
        ∀ other, (cells (.table other)).map SharedTable.table = out.state.find other
    | .error fault => out.result = .error fault ∧ fault.unwinds = false := by
  intro out
  have hnames : (∀ tbl ∈ [(how, name)], tbl.2 ∈ s.tables.map Prod.fst) ↔
      (s.find name).isSome = true := by
    rw [List.forall_mem_singleton, mem_names_iff]
  have hcells : ∀ other, (s.cells (.table other)).map SharedTable.table = s.find other :=
    fun other => by simp [Store.cells, Option.map_map, Function.comp_def]
  have hstore : s.cells .store = s.tables.map Prod.fst := rfl
  simp only [Store.accessing, Transaction.alone, hstore, hnames]
  cases hfind : s.find name with
  | none =>
    cases henabled : b.enabled "pos != tables_.end()" with
    | true =>
      have hout : out =
          ⟨.error (.assertion "pos != tables_.end()"), s, [.lock .store .shared]⟩ := by
        simp [out, Store.access, Thread.guarded, Store.getLock, Thread.look, hfind, Build.check,
          henabled, Fault.unwinds, bind, Except.bind]
      simp [hout, Build.check, henabled, StoreCode.fault, Fault.unwinds, Transaction.alone]
    | false =>
      have hout : out = ⟨.error (.exception "std::system_error"), s,
          [.lock .store .shared, .unlock .store .shared]⟩ := by
        simp [out, Store.access, Thread.guarded, Store.getLock, Thread.look, hfind, Store.locked,
          Thread.fail, Build.check, henabled, Fault.unwinds, bind, Except.bind, pure, Except.pure]
      simp [hout, Build.check, henabled, Transaction.alone, hcells, Except.map]
  | some t =>
    have hagrees : Agrees b alive s out name t c := agrees_access hfind rfl
    simp only [Option.isSome_some, Build.check_of, if_true, Transaction.alone, alone_one hfind]
    unfold Agrees at hagrees
    cases hcall : t.call b alive c with
    | ok r =>
      obtain ⟨t', answer, sent⟩ := r
      rw [hcall] at hagrees
      obtain ⟨hresult, hstate, -⟩ := hagrees
      refine ⟨by rw [hresult]; rfl, fun other => ?_⟩
      rw [hstate]
      rcases eq_or_ne other name with rfl | hne
      · rw [find_put_self hfind]
        split_ifs with hconst
        · rw [call_of_isConst hconst hcall]
          simp [Store.cells, hfind]
        · simp
      · rw [find_put_of_ne hne]
        split_ifs
        · exact hcells other
        · rw [Function.update_of_ne (fun heq => hne (Mutex.table.inj heq))]
          exact hcells other
    | error fault =>
      rw [hcall] at hagrees
      obtain ⟨hresult, hstate⟩ := hagrees
      cases hunwinds : fault.unwinds with
      | true =>
        simp only [hunwinds, if_true, hresult, hstate]
        exact ⟨rfl, hcells⟩
      | false =>
        simp only [hunwinds, Bool.false_eq_true, if_false]
        exact ⟨hresult, trivial⟩

end One

/-! ### Threads -/

/-- What a thread does next. -/
inductive ThreadMove (τ : Type) (hasher : Hasher) (ρ : Type)
  | ask (t : τ) (request : Request hasher ρ)
  | take (t : τ) (lock : Mutex × LockMode)
  | drop (t : τ)
  | work (t : τ)

namespace ThreadMove

variable {τ ρ : Type} {hasher : Hasher} (b : Build)

/-- The move of the thread. -/
def move : ThreadMove τ hasher ρ →
    Transaction.Move τ storeDiscipline (Kept hasher) Fault (Except Fault (Reply ρ))
  | .ask t request => .start t (request.code b) request.careful
  | .take t lock => .take t lock
  | .drop t => .drop t
  | .work t => .work t

/-- What is asked for. -/
def requests : ThreadMove τ hasher ρ → List (Request hasher ρ)
  | .ask _ request => [request]
  | _ => []

theorem started_move (operation : ThreadMove τ hasher ρ) :
    (operation.move b).started = operation.requests.map (Request.code b) := by
  cases operation <;> rfl

end ThreadMove

section Threads

variable {τ ρ : Type} {hasher : Hasher} [Fintype τ] [DecidableEq τ] {b : Build}
  {s : ∀ cell, Kept hasher cell} {operations : List (ThreadMove τ hasher ρ)}
  {w : Transaction.World τ Mutex Mutex (Kept hasher) Fault (Except Fault (Reply ρ))}
  {outs : List (StoreCode hasher ρ × Except Fault (Reply ρ))}

/-- The requests come one after the other into an order, each of them once, in which the store
serves them with nobody else around: to the same replies, and with the same tables in the end. -/
theorem access_serializable
    (h : Step.run Transaction.step (.idle s) (operations.map (ThreadMove.move b)) = .ok (w, outs))
    (hrest : w.AtRest) :
    ∃ order : List (Request hasher ρ), order.Perm (operations.flatMap ThreadMove.requests) ∧
      Step.run Transaction.serial s (order.map (Request.code b)) =
        .ok (w.cells, outs.map Prod.snd) := by
  have hperm := Transaction.ended_perm_started h hrest
  have hstarted : (operations.map (ThreadMove.move b)).flatMap Transaction.Move.started =
      (operations.flatMap ThreadMove.requests).map (Request.code b) := by
    rw [List.flatMap_map, List.map_flatMap]
    exact List.flatMap_congr fun operation _ => operation.started_move b
  rw [hstarted] at hperm
  -- an order of the codes is an order of the requests
  obtain ⟨order, heq, horder⟩ : Relation.Comp (· = List.map (Request.code b) ·) List.Perm
      (outs.map Prod.fst) (operations.flatMap ThreadMove.requests) := by
    rw [List.eq_map_comp_perm]
    exact hperm
  refine ⟨order, horder, ?_⟩
  rw [← heq]
  exact Transaction.run_eq_serial h hrest

/-- However far the threads have got with the store, all of them can come to their end, or the
program ends with a fault. -/
theorem access_never_stuck
    (h : Step.run Transaction.step (.idle s) (operations.map (ThreadMove.move b)) = .ok (w, outs)) :
    Transaction.Ends storeDiscipline w :=
  Transaction.ends_of_run h

end Threads

/-- Two threads at the store with one table: one asks for the size of the table, the other one
wants to create another one. The second has to wait for the first. -/
def sizeAndCreate : List (ThreadMove (Fin 2) .numbers Answer) :=
  [.ask 0 (.access [(.read, [116])] (by decide) (.one [116] (fun _ => true) .size)
      ⟨⟨.read, List.mem_singleton_self _, .inr rfl⟩, fun | .ok _ | .error _ => trivial⟩),
    .ask 1 (.createTable listMeta), .take 0 (.store, .shared), .work 0, .work 0,
    .take 0 (.table [116], .shared), .work 0, .work 0, .work 0, .take 1 (.store, .exclusive),
    .work 1, .work 1, .work 1, .work 1]

theorem access_serializable_sizeAndCreate : ∃ (order : List (Request .numbers Answer)) (w : _)
    (outs : List (StoreCode .numbers Answer × Except Fault (Reply Answer))),
    Step.run Transaction.step (.idle listStore.cells)
      (sizeAndCreate.map (ThreadMove.move .release)) = .ok (w, outs) ∧
    order.Perm (sizeAndCreate.flatMap ThreadMove.requests) ∧
    Step.run Transaction.serial listStore.cells (order.map (Request.code .release)) =
      .ok (w.cells, outs.map Prod.snd) := by
  have hrun : ∃ w outs, Step.run Transaction.step (.idle listStore.cells)
      (sizeAndCreate.map (ThreadMove.move .release)) = .ok (w, outs) ∧ w.AtRest := by
    refine ⟨_, _, rfl, fun t => ?_⟩
    match t with
    | 0 => rfl
    | 1 => rfl
  obtain ⟨w, outs, h, hrest⟩ := hrun
  obtain ⟨order, hperm, hserial⟩ := access_serializable h hrest
  exact ⟨order, w, outs, h, hperm, hserial⟩

/-- In the middle of it the first thread has both locks and the second one waits. -/
theorem access_never_stuck_sizeAndCreate : ∃ w outs,
    Step.run Transaction.step (.idle listStore.cells)
      ((sizeAndCreate.take 7).map (ThreadMove.move .release)) = .ok (w, outs) ∧
    Transaction.Ends storeDiscipline w := by
  have hrun : ∃ w outs, Step.run Transaction.step (.idle listStore.cells)
      ((sizeAndCreate.take 7).map (ThreadMove.move .release)) = .ok (w, outs) := ⟨_, _, rfl⟩
  obtain ⟨w, outs, h⟩ := hrun
  exact ⟨w, outs, h, access_never_stuck h⟩

end Cyng
