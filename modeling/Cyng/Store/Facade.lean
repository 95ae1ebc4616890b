import Cyng.Store.Detection
import Cyng.Store.Pub
import Cyng.Theory.Locks

/-!
# The store as a facade

A store keeps tables by name. It passes calls on to the table of a name: `access` locks the
mutex of the store, finds the mutex of the table and locks it, finds the table, and hands it
over. All but two of the calls lock the mutex of the store before that themselves.

A call is safe if it never locks a mutex it holds, gives back all locks, does nothing where
there is no table of that name, and does what the table does where there is one. Both mutexes
are given back whenever the program goes on, and a table that is there is used as it should be.
But the calls that lock the store themselves lock it twice, and no call survives a name that is
not there, because a lock without a mutex throws.
-/

namespace Cyng

open Theory ThreadStep

/-- The mutex of the store, and those of its tables. -/
inductive Mutex
  | store
  | table (name : Bytes)
deriving DecidableEq

/-- What `auto_table` adds to a table: the key of the last record, and how the next is found. -/
structure AutoKeys (hasher : Hasher) (m : Meta) where
  current : List Obj
  next : Table hasher m → List Obj → Except Fault (List Obj)

/-- A `table` or an `auto_table`, with its subscribers. -/
structure StoredTable (hasher : Hasher) where
  metaStore : Meta
  table : Table hasher metaStore
  pub : Pub
  auto : Option (AutoKeys hasher metaStore)

/-- `store`: the tables in the order of the map. -/
structure Store (hasher : Hasher) where
  tables : List (Bytes × StoredTable hasher)
  distinct : (tables.map Prod.fst).Nodup

/-- What a store asks of a table. -/
inductive TableCall
  | size
  | insert (key data : List Obj) (generation : BitVec 64) (source : Uuid)
  | insertAuto (data : List Obj) (source : Uuid)
  | merge (key data : List Obj) (generation : BitVec 64) (source : Uuid)
  | erase (key : List Obj) (source : Uuid)
  | eraseIf (pred : (m : Meta) → Record m → Bool) (source : Uuid)
  | modify (key : List Obj) (attr : BitVec 64 × Obj) (source : Uuid)
  | modifyParam (key : List Obj) (param : Bytes × Obj) (source : Uuid)
  | modifyParamMap (key : List Obj) (pm : ParamMap) (source : Uuid)
  | clear (source : Uuid)
  | connect (sp : Slot)
  | connectOnly (sp : Slot)
  | connectInsert (sp : Slot)
  | connectModify (sp : Slot)
  | connectRemove (sp : Slot)
  | connectClear (sp : Slot)
  | disconnect (sp : Slot)
  /-- `lookup(key).at(column)` -/
  | lookupAt (column : Bytes) (key : List Obj)

/-- What a call returns. -/
inductive Answer
  | flag (ok : Bool)
  | count (n : ℕ)
  | value (obj : Obj)
  | done
deriving DecidableEq

/-- False, zero, or the null object. -/
def TableCall.nothing : TableCall → Answer
  | size | eraseIf .. => .count 0
  | insert .. | insertAuto .. | merge .. | erase .. | modify .. | modifyParam ..
  | modifyParamMap .. => .flag false
  | lookupAt .. => .value (.scalar .null)
  | clear _ | connect _ | connectOnly _ | connectInsert _ | connectModify _ | connectRemove _
  | connectClear _ | disconnect _ => .done

/-- An event that was sent to a slot. -/
abbrev Delivery := Σ n : ℕ, Slot × Event n

/-- The result of a call as the caller gets it. -/
def Result.answer : Result → Except Fault Answer
  | .inserted ok | .merged ok | .modified ok | .erased ok => .ok (.flag ok)
  | .erasedIf counter => .ok (.count counter)
  | .cleared => .ok .done
  | .thrown what => .error (.exception what)

/-- `record::at(std::string)`, for the key and the data of a record. -/
def recordAt (m : Meta) (key data : List Obj) (name : Bytes) : Except Fault Obj :=
  let idx := (m.indexByName name).toNat
  if idx < m.size then
    if idx < m.keySize then
      match key[idx]? with
      | some obj => .ok obj
      | none => .error (.exception "std::out_of_range")
    else .ok (data[idx - m.keySize]?.getD (.scalar .null))
  else .ok (.scalar .null)

/-- A record that was not found has no key and no data. -/
def lookedUpAt (m : Meta) (rec? : Option (Record m)) (name : Bytes) : Except Fault Obj :=
  match rec? with
  | some record => recordAt m record.key record.body.data.toList name
  | none => recordAt m [] [] name

namespace StoredTable

variable {hasher : Hasher} (b : Build) (alive : Slot → Bool) (t : StoredTable hasher)

/-- What a change of the table returns; the other actions return nothing. -/
def answer : Action t.metaStore → Except Fault Answer
  | .call c => do
    let (_, outs) ← t.table.call b c
    match outs.getLast? with
    | some (.result r) => r.answer
    | _ => return .done
  | _ => return .done

/-- One action, with its answer and what is sent to the subscribers. -/
def act (action : Action t.metaStore) :
    Except Fault (StoredTable hasher × Answer × List Delivery) := do
  let answer ← t.answer b action
  let (w, deliveries) ← World.step b ⟨t.table, t.pub, alive⟩ action
  return ({ t with table := w.table, pub := w.pub }, answer, deliveries.map fun d => ⟨_, d⟩)

/-- `auto_table::insert`. Other tables are left alone. -/
def insertAuto (data : List Obj) (source : Uuid) :
    Except Fault (StoredTable hasher × Answer × List Delivery) :=
  match t.auto with
  | none => .ok (t, .flag false, [])
  | some keys => do
    let key ← keys.next t.table keys.current
    act b alive { t with auto := some { keys with current := key } }
      (.call (.insert key data 1 source))

/-- What the table does itself. -/
def call : TableCall → Except Fault (StoredTable hasher × Answer × List Delivery)
  | .size => .ok (t, .count t.table.size, [])
  | .insert key data generation source =>
    t.act b alive (.call (.insert key data generation source))
  | .insertAuto data source => t.insertAuto b alive data source
  | .merge key data generation source => t.act b alive (.call (.merge key data generation source))
  | .erase key source => t.act b alive (.call (.erase key source))
  | .eraseIf pred source => t.act b alive (.call (.eraseIf (pred t.metaStore) source))
  | .modify key attr source => t.act b alive (.call (.modify key attr source))
  | .modifyParam key param source => t.act b alive (.call (.modifyParam key param source))
  | .modifyParamMap key pm source =>
    t.act b alive (.call (.modifyParamMap key pm.entries source))
  | .clear source => t.act b alive (.call (.clear source))
  | .connect sp => t.act b alive (.connect sp)
  | .connectOnly sp => t.act b alive (.connectOnly sp)
  | .connectInsert sp => t.act b alive (.connectInsert sp)
  | .connectModify sp => t.act b alive (.connectModify sp)
  | .connectRemove sp => t.act b alive (.connectRemove sp)
  | .connectClear sp => t.act b alive (.connectClear sp)
  | .disconnect sp => t.act b alive (.disconnect sp)
  | .lookupAt column key => do
    let obj ← lookedUpAt t.metaStore (t.table.lookup key) column
    return (t, .value obj, [])

/-- Take the slot out of the lists. -/
def disconnected (sp : Slot) : StoredTable hasher := { t with pub := (t.pub.disconnect sp).1 }

/-- The slot was there. -/
def listensTo (sp : Slot) : Bool := (t.pub.disconnect sp).2

end StoredTable

namespace Store

variable {hasher : Hasher}

/-- `tables_.find` -/
def find (s : Store hasher) (name : Bytes) : Option (StoredTable hasher) :=
  (s.tables.find? fun entry => entry.1 = name).map Prod.snd

/-- The table of a name as it is after a call. -/
def put (s : Store hasher) (name : Bytes) (t : StoredTable hasher) : Store hasher where
  tables := s.tables.map fun entry => if entry.1 = name then (name, t) else entry
  distinct := by
    have hnames : (s.tables.map fun entry => if entry.1 = name then (name, t) else entry).map
        Prod.fst = s.tables.map Prod.fst := by
      rw [List.map_map]
      refine List.map_congr_left fun entry _ => ?_
      by_cases h : entry.1 = name
      · simp [h]
      · simp [h]
    rw [hnames]
    exact s.distinct

end Store

/-- Work on a table: the call, and what was sent on the way. -/
structure TableStep where
  name : Bytes
  call : TableCall
  sent : List Delivery

/-- A call on a store. -/
abbrev StoreThread (hasher : Hasher) (β : Type) := Thread Mutex TableStep (Store hasher) Fault β

/-- Exceptions unwind the stack. The other faults end the program. -/
def Fault.unwinds : Fault → Bool
  | .exception _ => true
  | .assertion _ | .undefined _ => false

/-- `access::read` and `access::write` -/
inductive Access
  | read | write

/-- `access::get_lock_type` -/
def Access.mode : Access → LockMode
  | read => .shared
  | write => .exclusive

/-- An exception must not leave the function. -/
def noThrow {hasher : Hasher} {β : Type} (p : StoreThread hasher β) : StoreThread hasher β :=
  fun s =>
    let out := p s
    match out.result with
    | .error (.exception _) => { out with result := .error (.undefined "std::terminate") }
    | _ => out

namespace Store

section Threads

variable {hasher : Hasher} (b : Build) (alive : Slot → Bool)

/-- `store::get_lock`: the mutex is not locked yet. -/
def getLock (name : Bytes) : StoreThread hasher (Option Mutex) := Thread.look fun s => do
  b.check "pos != tables_.end()" ((s.find name).isSome = true)
  return (s.find name).map fun _ => .table name

/-- `store::get_tbl_ptr`, with the table that the pointer points to. -/
def getTablePtr (name : Bytes) : StoreThread hasher (Option (Bytes × StoredTable hasher)) :=
  Thread.look fun s => .ok ((s.find name).map fun t => (name, t))

/-- The rest of a block in which `lock` was called on a deferred lock. -/
def locked {β : Type} (how : Access) (mutex : Option Mutex) (body : StoreThread hasher β) :
    StoreThread hasher β :=
  match mutex with
  | none => Thread.fail (.exception "std::system_error")
  | some mutex => Thread.guarded Fault.unwinds mutex how.mode body

/-- `store::access`, for one table. -/
def access {β : Type} (how : Access) (name : Bytes)
    (f : Option (Bytes × StoredTable hasher) → StoreThread hasher β) : StoreThread hasher β :=
  Thread.guarded Fault.unwinds .store .shared do
    let lock ← getLock b name
    locked how lock do
      let tbl ← getTablePtr name
      f tbl

/-- A call through the pointer. -/
def callTable (c : TableCall) : Option (Bytes × StoredTable hasher) → StoreThread hasher Answer
  | none => Thread.fail (.undefined "null pointer")
  | some (name, t) => Thread.perform fun s =>
    match t.call b alive c with
    | .ok (t', answer, sent) => (.ok answer, s.put name t', ⟨name, c, sent⟩)
    | .error fault => (.error fault, s, ⟨name, c, []⟩)

/-- What the calls have in common that lock the store themselves. -/
def forwarded (how : Access) (name : Bytes)
    (f : Option (Bytes × StoredTable hasher) → StoreThread hasher Answer) :
    StoreThread hasher Answer :=
  Thread.guarded Fault.unwinds .store .shared (access b how name f)

/-- `store::size(std::string const&)` -/
def size (name : Bytes) : StoreThread hasher Answer :=
  noThrow (forwarded b .read name (callTable b alive .size))

def insert (name : Bytes) (key data : List Obj) (generation : BitVec 64) (source : Uuid) :
    StoreThread hasher Answer :=
  forwarded b .write name (callTable b alive (.insert key data generation source))

/-- `store::insert_auto`: the cast of a null pointer is a null pointer. -/
def insertAuto (name : Bytes) (data : List Obj) (source : Uuid) : StoreThread hasher Answer :=
  forwarded b .write name fun tbl =>
    match tbl with
    | none => pure (.flag false)
    | some entry => callTable b alive (.insertAuto data source) (some entry)

def merge (name : Bytes) (key data : List Obj) (generation : BitVec 64) (source : Uuid) :
    StoreThread hasher Answer :=
  forwarded b .write name (callTable b alive (.merge key data generation source))

def erase (name : Bytes) (key : List Obj) (source : Uuid) : StoreThread hasher Answer :=
  forwarded b .write name (callTable b alive (.erase key source))

def eraseIf (name : Bytes) (pred : (m : Meta) → Record m → Bool) (source : Uuid) :
    StoreThread hasher Answer :=
  forwarded b .write name (callTable b alive (.eraseIf pred source))

def modify (name : Bytes) (key : List Obj) (attr : BitVec 64 × Obj) (source : Uuid) :
    StoreThread hasher Answer :=
  forwarded b .write name (callTable b alive (.modify key attr source))

def modifyParam (name : Bytes) (key : List Obj) (param : Bytes × Obj) (source : Uuid) :
    StoreThread hasher Answer :=
  forwarded b .write name (callTable b alive (.modifyParam key param source))

def modifyParamMap (name : Bytes) (key : List Obj) (pm : ParamMap) (source : Uuid) :
    StoreThread hasher Answer :=
  forwarded b .write name (callTable b alive (.modifyParamMap key pm source))

def clear (name : Bytes) (source : Uuid) : StoreThread hasher Answer :=
  forwarded b .write name (callTable b alive (.clear source))

def connect (name : Bytes) (sp : Slot) : StoreThread hasher Answer :=
  forwarded b .write name (callTable b alive (.connect sp))

def connectOnly (name : Bytes) (sp : Slot) : StoreThread hasher Answer :=
  forwarded b .write name (callTable b alive (.connectOnly sp))

def connectInsert (name : Bytes) (sp : Slot) : StoreThread hasher Answer :=
  forwarded b .write name (callTable b alive (.connectInsert sp))

def connectModify (name : Bytes) (sp : Slot) : StoreThread hasher Answer :=
  forwarded b .write name (callTable b alive (.connectModify sp))

def connectRemove (name : Bytes) (sp : Slot) : StoreThread hasher Answer :=
  forwarded b .write name (callTable b alive (.connectRemove sp))

def connectClear (name : Bytes) (sp : Slot) : StoreThread hasher Answer :=
  forwarded b .write name (callTable b alive (.connectClear sp))

/-- `store::disconnect(std::string, slot_ptr)` -/
def disconnect (name : Bytes) (sp : Slot) : StoreThread hasher Answer :=
  forwarded b .write name (callTable b alive (.disconnect sp))

/-- `store::get_object`: the only call by name that leaves the store to `access`. -/
def getObject (name column : Bytes) (key : List Obj) : StoreThread hasher Answer :=
  access b .read name (callTable b alive (.lookupAt column key))

/-- `tbl.second->disconnect(sp)` -/
def disconnectTable (sp : Slot) (entry : Bytes × StoredTable hasher) : StoreThread hasher Bool :=
  Thread.perform fun s =>
    (.ok (entry.2.listensTo sp), s.put entry.1 (entry.2.disconnected sp),
      ⟨entry.1, .disconnect sp, []⟩)

/-- The loop of `store::disconnect(slot_ptr)`. -/
def disconnectLoop (sp : Slot) :
    List (Bytes × StoredTable hasher) → ℕ → StoreThread hasher Answer
  | [], counter => pure (.count counter)
  | entry :: entries, counter => do
    let found ← Thread.guarded Fault.unwinds (.table entry.1) .exclusive
      (disconnectTable sp entry)
    disconnectLoop sp entries (if found then counter + 1 else counter)

/-- `store::disconnect(slot_ptr)` -/
def disconnectAll (sp : Slot) : StoreThread hasher Answer :=
  Thread.guarded Fault.unwinds .store .shared fun s => disconnectLoop sp s.tables 0 s

end Threads

end Store

/-- The calls of a store: for the table of a name, or for all tables. -/
inductive StoreCall
  | table (name : Bytes) (c : TableCall)
  | disconnectAll (sp : Slot)

/-- The function of the store that is called. -/
def StoreCall.thread {hasher : Hasher} (b : Build) (alive : Slot → Bool) :
    StoreCall → StoreThread hasher Answer
  | .table name c =>
    match c with
    | .size => Store.size b alive name
    | .insert key data generation source => Store.insert b alive name key data generation source
    | .insertAuto data source => Store.insertAuto b alive name data source
    | .merge key data generation source => Store.merge b alive name key data generation source
    | .erase key source => Store.erase b alive name key source
    | .eraseIf pred source => Store.eraseIf b alive name pred source
    | .modify key attr source => Store.modify b alive name key attr source
    | .modifyParam key param source => Store.modifyParam b alive name key param source
    | .modifyParamMap key pm source => Store.modifyParamMap b alive name key pm source
    | .clear source => Store.clear b alive name source
    | .connect sp => Store.connect b alive name sp
    | .connectOnly sp => Store.connectOnly b alive name sp
    | .connectInsert sp => Store.connectInsert b alive name sp
    | .connectModify sp => Store.connectModify b alive name sp
    | .connectRemove sp => Store.connectRemove b alive name sp
    | .connectClear sp => Store.connectClear b alive name sp
    | .disconnect sp => Store.disconnect b alive name sp
    | .lookupAt column key => Store.getObject b alive name column key
  | .disconnectAll sp => Store.disconnectAll sp

/-! ### What a safe call does -/

section Safe

variable {hasher : Hasher} (b : Build) (alive : Slot → Bool) (s : Store hasher)

/-- The call ends as the table itself does, and so does the table of the name. -/
def Agrees (out : Outcome Mutex TableStep (Store hasher) Fault Answer) (name : Bytes)
    (t : StoredTable hasher) (c : TableCall) : Prop :=
  match t.call b alive c with
  | .ok (t', answer, sent) =>
    out.result = .ok answer ∧ out.state = s.put name t' ∧ works out.steps = [⟨name, c, sent⟩]
  | .error fault => out.result = .error fault ∧ out.state = s

/-- A safe facade: no mutex is locked twice, none is kept, a name that is not there is nothing
to worry about, and a table that is there does what it is asked for. -/
structure SafeFacade (c : StoreCall) : Prop where
  careful : NeverRelocks [] (c.thread b alive s).steps
  released : holding [] (c.thread b alive s).steps = []
  absent : ∀ name call, c = .table name call → s.find name = none →
    (c.thread b alive s).result = .ok call.nothing ∧ (c.thread b alive s).state = s ∧
      works (c.thread b alive s).steps = []
  present : ∀ name call t, c = .table name call → s.find name = some t →
    Agrees b alive s (c.thread b alive s) name t call
  everywhere : ∀ sp, c = .disconnectAll sp →
    (c.thread b alive s).result =
        .ok (.count (s.tables.filter fun entry => entry.2.listensTo sp).length) ∧
      (c.thread b alive s).state.tables =
        s.tables.map (fun entry => (entry.1, entry.2.disconnected sp)) ∧
      works (c.thread b alive s).steps =
        s.tables.map fun entry => ⟨entry.1, .disconnect sp, []⟩

/-- An object is asked for in a table that exists, or no table is named. -/
def StoreCall.Served : StoreCall → Prop
  | .table name c =>
    match c with
    | .lookupAt .. => (s.find name).isSome = true
    | _ => False
  | .disconnectAll _ => True

/-! ### Names that are there, and names that are not -/

section Access

variable {b alive s} {how : Access} {name : Bytes} {t : StoredTable hasher} {c : TableCall}
  {β : Type} {f : Option (Bytes × StoredTable hasher) → StoreThread hasher β}

/-- What is under a guard counts from the state on that the guard finds. -/
theorem guarded_congr {mutex : Mutex} {mode : LockMode} {p q : StoreThread hasher β}
    (h : p s = q s) :
    Thread.guarded Fault.unwinds mutex mode p s = Thread.guarded Fault.unwinds mutex mode q s := by
  simp only [Thread.guarded, h]

/-- Both mutexes are locked around the work. -/
theorem access_of_find (h : s.find name = some t) :
    Store.access b how name f s =
      Thread.guarded Fault.unwinds .store .shared
        (Thread.guarded Fault.unwinds (.table name) how.mode (f (some (name, t)))) s := by
  have hlock : (Store.getLock b name s).result = .ok (some (.table name)) := by
    simp [Store.getLock, Thread.look, h, Build.check_of]
  have htbl : (Store.getTablePtr name s).result = .ok (some (name, t)) := by
    simp [Store.getTablePtr, Thread.look, h]
  apply guarded_congr
  rw [Thread.bind_of_ok hlock]
  -- neither of the two look-ups takes a step
  have hinner : (Store.getTablePtr name >>= f) s = f (some (name, t)) s := Thread.bind_of_ok htbl
  exact guarded_congr hinner

/-- The lock of a table that is not there cannot be locked. -/
theorem access_of_find_none (h : s.find name = none) :
    ∃ fault, (Store.access b how name f s).result = .error fault := by
  simp only [Store.access, Thread.result_guarded]
  cases hlock : (Store.getLock b name s).result with
  | error fault => exact ⟨fault, by rw [Thread.bind_of_error hlock]⟩
  | ok lock =>
    have hnone : lock = none := by
      obtain ⟨_, -, heq⟩ := bind_eq_ok_iff.mp hlock
      rw [h] at heq
      exact (Except.ok.inj heq).symm
    subst hnone
    exact ⟨.exception "std::system_error", by rw [Thread.bind_of_ok hlock]; rfl⟩

theorem agrees_guarded {mutex : Mutex} {mode : LockMode} {p : StoreThread hasher Answer}
    (h : Agrees b alive s (p s) name t c) :
    Agrees b alive s (Thread.guarded Fault.unwinds mutex mode p s) name t c := by
  unfold Agrees at h ⊢
  cases hcall : t.call b alive c with
  | error fault =>
    rw [hcall] at h
    exact h
  | ok r =>
    obtain ⟨t', answer, sent⟩ := r
    rw [hcall] at h
    exact ⟨h.1, h.2.1, Thread.works_guarded.trans h.2.2⟩

theorem agrees_callTable :
    Agrees b alive s (Store.callTable b alive c (some (name, t)) s) name t c := by
  unfold Agrees
  cases hcall : t.call b alive c with
  | error fault => simp [Store.callTable, Thread.perform, hcall]
  | ok r => simp [Store.callTable, Thread.perform, hcall, works]

/-- A pointer to a table that is there is used as it should be. -/
theorem agrees_access {f : Option (Bytes × StoredTable hasher) → StoreThread hasher Answer}
    (h : s.find name = some t)
    (hf : f (some (name, t)) = Store.callTable b alive c (some (name, t))) :
    Agrees b alive s (Store.access b how name f s) name t c := by
  rw [access_of_find h, hf]
  exact agrees_guarded (agrees_guarded agrees_callTable)

theorem agrees_forwarded {f : Option (Bytes × StoredTable hasher) → StoreThread hasher Answer}
    (h : s.find name = some t)
    (hf : f (some (name, t)) = Store.callTable b alive c (some (name, t))) :
    Agrees b alive s (Store.forwarded b how name f s) name t c :=
  agrees_guarded (agrees_access h hf)

/-- A call that returns has not thrown. -/
theorem noThrow_of_ok {p : StoreThread hasher β} {r : β} (h : (p s).result = .ok r) :
    noThrow p s = p s := by
  simp only [noThrow, h]

/-- Every call by name does to a table that is there what the table does itself. -/
theorem agrees_thread (h : s.find name = some t) :
    Agrees b alive s ((StoreCall.table name c).thread b alive s) name t c := by
  cases c with
  | size =>
    have hagrees : Agrees b alive s
        (Store.forwarded b .read name (Store.callTable b alive .size) s) name t .size :=
      agrees_forwarded h rfl
    have hthread : (StoreCall.table name .size).thread b alive s =
        Store.forwarded b .read name (Store.callTable b alive .size) s := noThrow_of_ok hagrees.1
    rw [hthread]
    exact hagrees
  | lookupAt column key => exact agrees_access h rfl
  | _ => exact agrees_forwarded h rfl

/-- No call by name gets past a name that is not there. -/
theorem thread_of_find_none (h : s.find name = none) :
    ∃ fault, ((StoreCall.table name c).thread b alive s).result = .error fault := by
  cases c with
  | size =>
    obtain ⟨fault, hfault⟩ : ∃ fault, (Store.forwarded b .read name
        (Store.callTable b alive .size) s).result = .error fault := access_of_find_none h
    simp only [StoreCall.thread, Store.size, noThrow, hfault]
    cases fault with
    | exception what => exact ⟨.undefined "std::terminate", rfl⟩
    | assertion what | undefined what => exact ⟨_, hfault⟩
  | _ => exact access_of_find_none h

end Access

/-! ### Locks -/

section Locks

variable {b alive s} {how : Access} {name : Bytes} {c : TableCall}

theorem steps_noThrow {β : Type} {p : StoreThread hasher β} :
    (noThrow p s).steps = (p s).steps := by
  simp only [noThrow]
  split <;> rfl

theorem tidy_noThrow {β : Type} {p : StoreThread hasher β} (h : p.Tidy Fault.unwinds) :
    (noThrow p).Tidy Fault.unwinds := by
  intro s held hends
  rw [steps_noThrow]
  refine h s held fun fault hfault => ?_
  -- an exception has become the end of the program
  cases fault with
  | exception what => rfl
  | assertion what | undefined what =>
    refine hends _ ?_
    simp only [noThrow, hfault]

theorem tidy_callTable {tbl : Option (Bytes × StoredTable hasher)} :
    (Store.callTable b alive c tbl).Tidy Fault.unwinds := by
  cases tbl with
  | none => exact Thread.tidy_fail
  | some entry => exact Thread.tidy_perform

theorem tidy_access {β : Type} {f : Option (Bytes × StoredTable hasher) → StoreThread hasher β}
    (hf : ∀ tbl, (f tbl).Tidy Fault.unwinds) :
    (Store.access b how name f).Tidy Fault.unwinds := by
  refine (Thread.tidy_look.bind fun lock => ?_).guarded
  cases lock with
  | none => exact Thread.tidy_fail
  | some mutex => exact (Thread.tidy_look.bind hf).guarded

theorem tidy_forwarded {f : Option (Bytes × StoredTable hasher) → StoreThread hasher Answer}
    (hf : ∀ tbl, (f tbl).Tidy Fault.unwinds) :
    (Store.forwarded b how name f).Tidy Fault.unwinds :=
  (tidy_access hf).guarded

theorem tidy_disconnectLoop {sp : Slot} {entries : List (Bytes × StoredTable hasher)}
    {counter : ℕ} : (Store.disconnectLoop sp entries counter).Tidy Fault.unwinds := by
  induction entries generalizing counter with
  | nil => exact Thread.tidy_pure
  | cons entry entries ih => exact Thread.tidy_perform.guarded.bind fun _ => ih

/-- All calls give back all locks, unless the program ends in them. -/
theorem tidy_thread {c : StoreCall} :
    (c.thread b alive : StoreThread hasher Answer).Tidy Fault.unwinds := by
  cases c with
  | disconnectAll sp =>
    refine Thread.Tidy.guarded fun s => ?_
    exact tidy_disconnectLoop s
  | table name c =>
    cases c with
    | size => exact tidy_noThrow (tidy_forwarded fun _ => tidy_callTable)
    | insertAuto data source =>
      refine tidy_forwarded fun tbl => ?_
      cases tbl with
      | none => exact Thread.tidy_pure
      | some entry => exact tidy_callTable
    | lookupAt column key => exact tidy_access fun _ => tidy_callTable
    | _ => exact tidy_forwarded fun _ => tidy_callTable

/-- Who locks the store and then calls `access` locks the store twice. -/
theorem not_careful_forwarded
    {f : Option (Bytes × StoredTable hasher) → StoreThread hasher Answer} :
    ¬NeverRelocks [] (Store.forwarded b how name f s).steps := by
  intro h
  have haccess := (Thread.neverRelocks_guarded_iff.mp h).2
  have hstore := (Thread.neverRelocks_guarded_iff.mp haccess).1
  exact hstore List.mem_cons_self

/-- `access` alone locks the store, and the table after it. -/
theorem careful_getObject {t : StoredTable hasher} {column : Bytes} {key : List Obj}
    (h : s.find name = some t) :
    NeverRelocks [] (Store.getObject b alive name column key s).steps := by
  have haccess : Store.getObject b alive name column key s = _ := access_of_find h
  rw [haccess]
  refine Thread.neverRelocks_guarded_iff.mpr ⟨List.not_mem_nil, ?_⟩
  exact Thread.neverRelocks_guarded_iff.mpr ⟨by simp, trivial, trivial⟩

end Locks

/-! ### All tables -/

section Everywhere

variable {s} {sp : Slot} {entry : Bytes × StoredTable hasher}
  {done entries : List (Bytes × StoredTable hasher)} {counter : ℕ}

/-- The table under the loop is the only one with its name. -/
theorem tables_put_of_split {t : StoredTable hasher} (h : s.tables = done ++ entry :: entries) :
    (s.put entry.1 t).tables = done ++ (entry.1, t) :: entries := by
  have hnames := s.distinct
  rw [h, List.map_append, List.map_cons, List.nodup_append] at hnames
  obtain ⟨-, hrest, hdone⟩ := hnames
  have hother : ∀ {others : List (Bytes × StoredTable hasher)},
      entry.1 ∉ others.map Prod.fst →
        (others.map fun e => if e.1 = entry.1 then (entry.1, t) else e) = others := by
    intro others hnot
    refine (List.map_congr_left fun e he => if_neg ?_).trans (List.map_id others)
    intro heq
    exact hnot (heq ▸ List.mem_map_of_mem he)
  have hfirst : entry.1 ∉ done.map Prod.fst := fun hmem =>
    hdone _ hmem _ List.mem_cons_self rfl
  calc (s.put entry.1 t).tables
      = (done ++ entry :: entries).map fun e => if e.1 = entry.1 then (entry.1, t) else e :=
        congrArg _ h
    _ = done ++ (entry.1, t) :: entries := by
        rw [List.map_append, List.map_cons, if_pos rfl, hother hfirst,
          hother (List.nodup_cons.mp hrest).1]

/-- One round of the loop. -/
theorem disconnectLoop_cons :
    Store.disconnectLoop sp (entry :: entries) counter s =
      let counter' := if entry.2.listensTo sp then counter + 1 else counter
      let out := Store.disconnectLoop sp entries counter' (s.put entry.1 (entry.2.disconnected sp))
      ⟨out.result, out.state, .lock (.table entry.1) .exclusive ::
        .work ⟨entry.1, .disconnect sp, []⟩ :: .unlock (.table entry.1) .exclusive :: out.steps⟩ :=
  Thread.bind_of_ok rfl

theorem result_disconnectLoop :
    (Store.disconnectLoop sp entries counter s).result =
      .ok (.count (counter + (entries.filter fun entry => entry.2.listensTo sp).length)) := by
  induction entries generalizing counter s with
  | nil => rfl
  | cons entry entries ih =>
    rw [disconnectLoop_cons, ih]
    cases hlistens : entry.2.listensTo sp with
    | true => simp [hlistens, Nat.add_assoc, Nat.add_comm 1]
    | false => simp [hlistens]

theorem tables_disconnectLoop (h : s.tables = done ++ entries) :
    (Store.disconnectLoop sp entries counter s).state.tables =
      done ++ entries.map fun entry => (entry.1, entry.2.disconnected sp) := by
  induction entries generalizing done counter s with
  | nil => exact h
  | cons entry entries ih =>
    have hput : (s.put entry.1 (entry.2.disconnected sp)).tables =
        (done ++ [(entry.1, entry.2.disconnected sp)]) ++ entries := by
      rw [tables_put_of_split h, List.append_assoc]
      rfl
    rw [disconnectLoop_cons, ih hput, List.append_assoc]
    rfl

theorem works_disconnectLoop :
    works (Store.disconnectLoop sp entries counter s).steps =
      entries.map fun entry => ⟨entry.1, .disconnect sp, []⟩ := by
  induction entries generalizing counter s with
  | nil => rfl
  | cons entry entries ih =>
    rw [disconnectLoop_cons]
    exact congrArg (TableStep.mk entry.1 (.disconnect sp) [] :: ·) ih

/-- Each table is unlocked before the next one is locked. -/
theorem careful_disconnectLoop :
    NeverRelocks [(.store, .shared)] (Store.disconnectLoop sp entries counter s).steps := by
  induction entries generalizing counter s with
  | nil => trivial
  | cons entry entries ih =>
    rw [disconnectLoop_cons]
    refine ⟨by simp [Fresh], trivial, trivial, ?_⟩
    show NeverRelocks (((Mutex.table entry.1, LockMode.exclusive) :: [(.store, .shared)]).erase
      (.table entry.1, .exclusive)) _
    rw [List.erase_cons_head]
    exact ih

end Everywhere

/-! ### The calls that are safe -/

/-- A record that is not there has no key: `at` throws. -/
theorem unwinds_recordAt {m : Meta} {key data : List Obj} {name : Bytes} {fault : Fault}
    (h : recordAt m key data name = .error fault) : fault.unwinds = true := by
  simp only [recordAt] at h
  split_ifs at h
  cases hkey : key[(m.indexByName name).toNat]? with
  | some obj =>
    rw [hkey] at h
    cases h
  | none =>
    rw [hkey] at h
    obtain rfl := Except.error.inj h
    rfl

variable {b alive} in
/-- To ask for an object can throw, but it does not end the program. -/
theorem unwinds_lookupAt {t : StoredTable hasher} {column : Bytes} {key : List Obj}
    {fault : Fault} (h : t.call b alive (.lookupAt column key) = .error fault) :
    fault.unwinds = true := by
  have hlooked : ∀ rec? fault', lookedUpAt t.metaStore rec? column = .error fault' →
      fault'.unwinds = true := by
    intro rec? fault' h'
    cases rec? with
    | none =>
      simp only [lookedUpAt] at h'
      exact unwinds_recordAt h'
    | some record => exact unwinds_recordAt h'
  simp only [StoredTable.call] at h
  cases hat : lookedUpAt t.metaStore (t.table.lookup key) column with
  | ok obj =>
    rw [hat] at h
    cases h
  | error fault' =>
    rw [hat] at h
    obtain rfl := Except.error.inj h
    exact hlooked _ _ hat

variable {b alive s} in
/-- Asking for an object is safe where the table exists. -/
theorem safeFacade_lookupAt {name column : Bytes} {key : List Obj} {t : StoredTable hasher}
    (h : s.find name = some t) : SafeFacade b alive s (.table name (.lookupAt column key)) := by
  have hagrees : Agrees b alive s
      ((StoreCall.table name (.lookupAt column key)).thread b alive s) name t
      (.lookupAt column key) := agrees_thread h
  -- what it returns or throws is what the table itself does
  refine ⟨careful_getObject h, tidy_thread s [] ?_, ?_, ?_, fun sp hc => by cases hc⟩
  · intro fault hfault
    unfold Agrees at hagrees
    cases hcall : t.call b alive (.lookupAt column key) with
    | ok r =>
      rw [hcall] at hagrees
      rw [hagrees.1] at hfault
      cases hfault
    | error thrown =>
      rw [hcall] at hagrees
      rw [hagrees.1] at hfault
      obtain rfl := Except.error.inj hfault
      exact unwinds_lookupAt hcall
  · intro name' call hc hnone
    cases hc
    rw [h] at hnone
    cases hnone
  · intro name' call t' hc hsome
    cases hc
    rw [h] at hsome
    cases hsome
    exact hagrees

variable {b alive s} in
/-- Disconnecting a slot from all tables is safe. -/
theorem safeFacade_disconnectAll {sp : Slot} : SafeFacade b alive s (.disconnectAll sp) := by
  have hresult : ((StoreCall.disconnectAll sp).thread b alive s).result = .ok (.count
      (0 + (s.tables.filter fun entry => entry.2.listensTo sp).length)) := result_disconnectLoop
  refine ⟨?_, tidy_thread s [] ?_, ?_, ?_, ?_⟩
  · exact Thread.neverRelocks_guarded_iff.mpr ⟨List.not_mem_nil, careful_disconnectLoop⟩
  · intro fault hfault
    rw [hresult] at hfault
    cases hfault
  · intro name call hc
    cases hc
  · intro name call t hc
    cases hc
  · intro sp' hc
    cases hc
    rw [Nat.zero_add] at hresult
    refine ⟨hresult, ?_, Thread.works_guarded.trans works_disconnectLoop⟩
    exact tables_disconnectLoop (List.nil_append s.tables).symm

/-- A call is safe exactly where it asks for an object of a table that exists, or is for all
tables. -/
theorem safeFacade_iff (c : StoreCall) : SafeFacade b alive s c ↔ c.Served s := by
  cases c with
  | disconnectAll sp => exact iff_of_true safeFacade_disconnectAll trivial
  | table name c =>
    cases c with
    -- the one call that does not lock the store a second time inside `access`
    | lookupAt column key =>
      constructor
      · intro h
        cases hfind : s.find name with
        | some t => exact congrArg Option.isSome hfind
        | none =>
          obtain ⟨fault, hfault⟩ : ∃ fault, ((StoreCall.table name
              (.lookupAt column key)).thread b alive s).result = .error fault :=
            thread_of_find_none hfind
          have hok := (h.absent name _ rfl hfind).1
          rw [hfault] at hok
          cases hok
      · intro h
        obtain ⟨t, ht⟩ := Option.isSome_iff_exists.mp h
        exact safeFacade_lookupAt ht
    | size =>
      refine iff_of_false (fun h => ?_) id
      have hcareful := h.careful
      rw [StoreCall.thread, Store.size, steps_noThrow] at hcareful
      exact not_careful_forwarded hcareful
    | _ => exact iff_of_false (fun h => not_careful_forwarded h.careful) id

end Safe

/-- A store with one table. -/
def listStore : Store .numbers where
  tables := [([116], ⟨listMeta, listTable, .empty, none⟩)]
  distinct := by decide

/-- To ask for the size of the table locks the store twice, and to ask for an object of a table
that is not there throws. -/
theorem not_safeFacade_listStore :
    ¬SafeFacade .debug (fun _ => true) listStore (.table [116] .size) ∧
      ¬SafeFacade .release (fun _ => true) listStore (.table [] (.lookupAt [98] [.size 1])) := by
  constructor
  · intro h
    have hcareful := h.careful
    rw [StoreCall.thread, Store.size, steps_noThrow] at hcareful
    exact not_careful_forwarded hcareful
  · intro h
    have hok := (h.absent [] _ rfl rfl).1
    cases hok

end Cyng
