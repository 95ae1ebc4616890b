import Cyng.Obj.Object

/-!
# Walking through an object

A walker is told about every part of an object: where a container opens and where it closes, the
keys of pairs that hold containers, and the leaves.

The calls spell a tree of reports, one report for each part of the object. There are two
exceptions. A property map closes as a parameter map, so that its brackets do not match, and of a
deque nothing is reported but that it is empty.
-/

namespace Cyng

/-- `walker_state` -/
inductive WalkerState
  | first | last | indeterminate
deriving DecidableEq

/-- `get_state`; the index counts from one. -/
def getState (index size : ℕ) : WalkerState :=
  if index = size then .last else if index = 1 then .first else .indeterminate

/-- The calls that a `dom_walker` gets. -/
inductive WalkerCall
  | visit (o : Obj) (depth : ℕ) (state : WalkerState)
  | opens (tag : TypeCode) (depth size : ℕ)
  | closes (tag : TypeCode) (depth : ℕ) (state : WalkerState) (parent : TypeCode)
  | pair (key : Key) (depth : ℕ)
  | simple (key : Key) (value : Obj) (depth : ℕ) (state : WalkerState)

/-- The type code with which a map is closed; that of a property map is another one. -/
def KeyKind.closingCode : KeyKind → TypeCode
  | index => .attrMap
  | name => .paramMap
  | code => .paramMap

/-- An attribute, a parameter or a property, with the calls for its value. -/
def traversePair (key : Key) (value : Obj) (depth : ℕ) (state : WalkerState) (parent : TypeCode)
    (calls : List WalkerCall) : List WalkerCall :=
  if value.typeCode.isContainer then
    .opens key.kind.pairCode depth 1 :: .pair key depth :: calls ++
      [.closes key.kind.pairCode depth state parent]
  else [.simple key value depth state]

mutual

/-- `traverse` -/
def traverse (depth : ℕ) (state : WalkerState) (parent : TypeCode) : Obj → List WalkerCall
  | .seq .tuple items =>
    .opens .tuple depth items.length ::
      traverseItems (depth + 1) .tuple items.length 1 items ++
        [.closes .tuple depth state parent]
  | .seq .vector items =>
    .opens .vector depth items.length ::
      traverseItems (depth + 1) .vector items.length 1 items ++
        [.closes .vector depth state parent]
  -- cast to a vector, which gives an empty one
  | .seq .deque _ => [.opens .vector depth 0, .closes .vector depth state parent]
  | .map kind entries =>
    .opens kind.mapCode depth entries.length ::
      traverseEntries (depth + 1) kind.mapCode entries.length 1 entries ++
        [.closes kind.closingCode depth state parent]
  | .pair key value =>
    traversePair key value depth state parent (traverse depth state key.kind.pairCode value)
  | o => [.visit o depth state]

/-- The elements of a sequence, from that index on. -/
def traverseItems (depth : ℕ) (parent : TypeCode) (size index : ℕ) :
    List Obj → List WalkerCall
  | [] => []
  | item :: items =>
    traverse depth (getState index size) parent item ++
      traverseItems depth parent size (index + 1) items

/-- The entries of a map, from that index on. -/
def traverseEntries (depth : ℕ) (parent : TypeCode) (size index : ℕ) :
    List (Key × Obj) → List WalkerCall
  | [] => []
  | (key, value) :: entries =>
    traversePair key value depth (getState index size) parent
        (traverse depth (getState index size) key.kind.pairCode value) ++
      traverseEntries depth parent size (index + 1) entries

end

namespace Dom

/-! ### Reports -/

/-- What a walker is told about a part of an object, as a tree. -/
inductive Report
  | visit (o : Obj) (depth : ℕ) (state : WalkerState)
  | simple (key : Key) (value : Obj) (depth : ℕ) (state : WalkerState)
  | pair (key : Key) (depth : ℕ) (state : WalkerState) (parent : TypeCode) (value : Report)
  | container (tag : TypeCode) (depth : ℕ) (state : WalkerState) (parent : TypeCode)
      (children : List Report)

/-- The state with which a report ends. -/
def Report.state : Report → WalkerState
  | visit _ _ state => state
  | simple _ _ _ state => state
  | pair _ _ state _ _ => state
  | container _ _ state _ _ => state

mutual

/-- The calls that spell a report: brackets of one type and depth around the children. -/
def Report.calls : Report → List WalkerCall
  | .visit o depth state => [.visit o depth state]
  | .simple key value depth state => [.simple key value depth state]
  | .pair key depth state parent value =>
    .opens key.kind.pairCode depth 1 :: .pair key depth :: value.calls ++
      [.closes key.kind.pairCode depth state parent]
  | .container tag depth state parent children =>
    .opens tag depth children.length :: reportsCalls children ++
      [.closes tag depth state parent]

def reportsCalls : List Report → List WalkerCall
  | [] => []
  | report :: reports => report.calls ++ reportsCalls reports

end

/-- Exactly the last one of a row is the last, and in a longer row exactly the first is the
first. -/
def Marked (states : List WalkerState) : Prop :=
  ∀ (i : ℕ) (h : i < states.length),
    (states.get ⟨i, h⟩ = .last ↔ i + 1 = states.length) ∧
      (2 ≤ states.length → (states.get ⟨i, h⟩ = .first ↔ i = 0))

/-- A report of an attribute, a parameter or a property; a leaf is reported with its key. -/
def reportsPair (key : Key) (value : Obj) (reports : Report → Prop) (report : Report) : Prop :=
  if value.typeCode.isContainer then
    ∃ depth state parent inner, report = .pair key depth state parent inner ∧ reports inner
  else ∃ depth state, report = .simple key value depth state

mutual

/-- A report of every part of an object, in the order of the parts. -/
def Reports : Obj → Report → Prop
  | .seq _ items, report =>
    ∃ tag depth state parent children, report = .container tag depth state parent children ∧
      reportsItems items children ∧ Marked (children.map Report.state)
  | .map _ entries, report =>
    ∃ tag depth state parent children, report = .container tag depth state parent children ∧
      reportsEntries entries children ∧ Marked (children.map Report.state)
  | .pair key value, report => reportsPair key value (Reports value) report
  | o, report => ∃ depth state, report = .visit o depth state

def reportsItems : List Obj → List Report → Prop
  | [], reports => reports = []
  | item :: items, reports =>
    ∃ report rest, reports = report :: rest ∧ Reports item report ∧ reportsItems items rest

def reportsEntries : List (Key × Obj) → List Report → Prop
  | [], reports => reports = []
  | (key, value) :: entries, reports =>
    ∃ report rest, reports = report :: rest ∧ reportsPair key value (Reports value) report ∧
      reportsEntries entries rest

end

/-- The calls for an object are those of a report of all of its parts. -/
def WellNested (o : Obj) : Prop :=
  ∃ report, traverse 0 .last o.typeCode o = report.calls ∧ Reports o report

mutual

/-- No property map, and no deque with elements. -/
def Walkable : Obj → Prop
  | .seq .deque items => items = []
  | .seq _ items => walkableItems items
  | .map kind entries => kind ≠ .code ∧ walkableEntries entries
  | .pair _ value => Walkable value
  | _ => True

def walkableItems : List Obj → Prop
  | [] => True
  | item :: items => Walkable item ∧ walkableItems items

def walkableEntries : List (Key × Obj) → Prop
  | [] => True
  | (_, value) :: entries => Walkable value ∧ walkableEntries entries

end

/-! ### Where the reports are complete -/

section Complete

theorem marked_getState (n : ℕ) : Marked ((List.range' 1 n).map fun i => getState i n) := by
  intro i h
  simp only [List.length_map, List.length_range'] at h ⊢
  simp only [List.get_eq_getElem, List.getElem_map, List.getElem_range', getState]
  constructor
  · split_ifs <;> simp <;> omega
  · intro hn
    split_ifs <;> simp <;> omega

/-- A pair is reported when its value is. -/
theorem exists_report_traversePair {reports : Report → Prop} {inner : Report}
    (h : reports inner) (key : Key) (value : Obj) (depth : ℕ) (state : WalkerState)
    (parent : TypeCode) :
    ∃ report : Report, report.calls = traversePair key value depth state parent inner.calls ∧
      report.state = state ∧ reportsPair key value reports report := by
  simp only [traversePair, reportsPair]
  split_ifs with hcontainer
  · exact ⟨.pair key depth state parent inner, rfl, rfl, depth, state, parent, inner, rfl, h⟩
  · exact ⟨.simple key value depth state, rfl, rfl, depth, state, rfl⟩

/-- A container is reported when its parts are. -/
theorem exists_report_container (tag : TypeCode) (depth : ℕ) (state : WalkerState)
    (parent : TypeCode) {n : ℕ} {children : List Report} {calls : List WalkerCall}
    (hcalls : reportsCalls children = calls)
    (hstates : children.map Report.state = (List.range' 1 n).map fun i => getState i n) :
    (Report.container tag depth state parent children).calls =
        .opens tag depth n :: calls ++ [.closes tag depth state parent] ∧
      Marked (children.map Report.state) := by
  have hlen : children.length = n := by
    have hlen := congrArg List.length hstates
    simpa using hlen
  refine ⟨?_, hstates ▸ marked_getState n⟩
  rw [Report.calls, hcalls, hlen]

mutual

theorem exists_report (o : Obj) (ho : Walkable o) (depth : ℕ) (state : WalkerState)
    (parent : TypeCode) :
    ∃ report, report.calls = traverse depth state parent o ∧ report.state = state ∧
      Reports o report := by
  cases o with
  | scalar v => exact ⟨.visit (.scalar v) depth state, rfl, rfl, depth, state, rfl⟩
  | prg program => exact ⟨.visit (.prg program) depth state, rfl, rfl, depth, state, rfl⟩
  | pair key value =>
    obtain ⟨inner, hcalls, -, hinner⟩ := exists_report value ho depth state key.kind.pairCode
    rw [traverse, ← hcalls]
    exact exists_report_traversePair hinner key value depth state parent
  | seq kind items =>
    cases kind with
    | tuple =>
      obtain ⟨children, hcalls, hstates, hitems⟩ :=
        exists_reports_items items ho (depth + 1) .tuple items.length 1
      obtain ⟨hreport, hmarked⟩ := exists_report_container _ depth state parent hcalls hstates
      exact ⟨_, hreport, rfl, _, _, _, _, _, rfl, hitems, hmarked⟩
    | vector =>
      obtain ⟨children, hcalls, hstates, hitems⟩ :=
        exists_reports_items items ho (depth + 1) .vector items.length 1
      obtain ⟨hreport, hmarked⟩ := exists_report_container _ depth state parent hcalls hstates
      exact ⟨_, hreport, rfl, _, _, _, _, _, rfl, hitems, hmarked⟩
    | deque =>
      -- a deque without elements is reported like a vector
      cases ho
      have hnone : ([] : List Report).map Report.state = (List.range' 1 0).map fun i =>
        getState i 0 := rfl
      obtain ⟨hreport, hmarked⟩ := exists_report_container .vector depth state parent rfl hnone
      exact ⟨_, hreport, rfl, _, _, _, _, _, rfl, rfl, hmarked⟩
  | map kind entries =>
    obtain ⟨hkind, hentries⟩ := ho
    obtain ⟨children, hcalls, hstates, hreports⟩ :=
      exists_reports_entries entries hentries (depth + 1) kind.mapCode entries.length 1
    obtain ⟨hreport, hmarked⟩ :=
      exists_report_container kind.mapCode depth state parent hcalls hstates
    refine ⟨.container kind.mapCode depth state parent children, ?_, rfl,
      _, _, _, _, _, rfl, hreports, hmarked⟩
    rw [hreport, traverse]
    cases kind with
    -- a property map is opened and not closed
    | code => exact absurd rfl hkind
    | name => rfl
    | index => rfl

theorem exists_reports_items (items : List Obj) (hitems : walkableItems items) (depth : ℕ)
    (parent : TypeCode) (size index : ℕ) :
    ∃ reports, reportsCalls reports = traverseItems depth parent size index items ∧
      reports.map Report.state = (List.range' index items.length).map (fun i => getState i size) ∧
      reportsItems items reports := by
  cases items with
  | nil => exact ⟨[], rfl, rfl, rfl⟩
  | cons item items =>
    obtain ⟨hitem, hrest⟩ := hitems
    obtain ⟨report, hcalls, hstate, hreport⟩ :=
      exists_report item hitem depth (getState index size) parent
    obtain ⟨reports, hcalls', hstates, hreports⟩ :=
      exists_reports_items items hrest depth parent size (index + 1)
    refine ⟨report :: reports, ?_, ?_, report, reports, rfl, hreport, hreports⟩
    · rw [reportsCalls, hcalls, hcalls', traverseItems]
    · rw [List.map_cons, hstate, hstates]
      rfl

theorem exists_reports_entries (entries : List (Key × Obj)) (hentries : walkableEntries entries)
    (depth : ℕ) (parent : TypeCode) (size index : ℕ) :
    ∃ reports, reportsCalls reports = traverseEntries depth parent size index entries ∧
      reports.map Report.state = (List.range' index entries.length).map (fun i => getState i size) ∧
      reportsEntries entries reports := by
  cases entries with
  | nil => exact ⟨[], rfl, rfl, rfl⟩
  | cons entry entries =>
    obtain ⟨key, value⟩ := entry
    obtain ⟨hvalue, hrest⟩ := hentries
    obtain ⟨inner, hinner, -, hreport⟩ :=
      exists_report value hvalue depth (getState index size) key.kind.pairCode
    obtain ⟨report, hcalls, hstate, hpair⟩ :=
      exists_report_traversePair hreport key value depth (getState index size) parent
    obtain ⟨reports, hcalls', hstates, hreports⟩ :=
      exists_reports_entries entries hrest depth parent size (index + 1)
    refine ⟨report :: reports, ?_, ?_, report, reports, rfl, hpair, hreports⟩
    · rw [reportsCalls, hcalls, hcalls', hinner, traverseEntries]
    · rw [List.map_cons, hstate, hstates]
      rfl

end

end Complete

/-! ### Where they are not -/

/-- The calls for a pair, where its value takes some number of calls. -/
def pairCallCount (value : Obj) (n : ℕ) : ℕ := if value.typeCode.isContainer then n + 3 else 1

mutual

/-- The number of calls that a report of every part takes. -/
def callCount : Obj → ℕ
  | .seq _ items => callCountItems items + 2
  | .map _ entries => callCountEntries entries + 2
  | .pair _ value => pairCallCount value (callCount value)
  | _ => 1

def callCountItems : List Obj → ℕ
  | [] => 0
  | item :: items => callCount item + callCountItems items

def callCountEntries : List (Key × Obj) → ℕ
  | [] => 0
  | (_, value) :: entries => pairCallCount value (callCount value) + callCountEntries entries

end

section Incomplete

theorem callCount_pos (o : Obj) : 0 < callCount o := by
  cases o with
  | pair key value =>
    rw [callCount, pairCallCount]
    split_ifs <;> omega
  | _ => simp [callCount]

theorem length_calls_pair {key : Key} {value : Obj} {reports : Report → Prop} {n : ℕ}
    {report : Report} (h : reportsPair key value reports report)
    (hn : ∀ inner, reports inner → inner.calls.length = n) :
    report.calls.length = pairCallCount value n := by
  rw [reportsPair] at h
  rw [pairCallCount]
  split_ifs at h ⊢
  · obtain ⟨depth, state, parent, inner, rfl, hinner⟩ := h
    simp [Report.calls, hn inner hinner]
  · obtain ⟨depth, state, rfl⟩ := h
    rfl

mutual

/-- A report of every part takes that number of calls. -/
theorem length_calls (o : Obj) (report : Report) (h : Reports o report) :
    report.calls.length = callCount o := by
  cases o with
  | scalar v =>
    obtain ⟨depth, state, rfl⟩ := h
    rfl
  | prg program =>
    obtain ⟨depth, state, rfl⟩ := h
    rfl
  | pair key value => exact length_calls_pair h (length_calls value)
  | seq kind items =>
    obtain ⟨tag, depth, state, parent, children, rfl, hitems, -⟩ := h
    simp [Report.calls, callCount, length_calls_items items children hitems]
  | map kind entries =>
    obtain ⟨tag, depth, state, parent, children, rfl, hentries, -⟩ := h
    simp [Report.calls, callCount, length_calls_entries entries children hentries]

theorem length_calls_items (items : List Obj) (reports : List Report)
    (h : reportsItems items reports) : (reportsCalls reports).length = callCountItems items := by
  cases items with
  | nil =>
    obtain rfl : reports = [] := h
    rfl
  | cons item items =>
    obtain ⟨report, rest, rfl, hreport, hrest⟩ := h
    rw [reportsCalls, List.length_append, length_calls item report hreport,
      length_calls_items items rest hrest, callCountItems]

theorem length_calls_entries (entries : List (Key × Obj)) (reports : List Report)
    (h : reportsEntries entries reports) :
    (reportsCalls reports).length = callCountEntries entries := by
  cases entries with
  | nil =>
    obtain rfl : reports = [] := h
    rfl
  | cons entry entries =>
    obtain ⟨key, value⟩ := entry
    obtain ⟨report, rest, rfl, hpair, hrest⟩ := h
    rw [reportsCalls, List.length_append, length_calls_pair hpair (length_calls value),
      length_calls_entries entries rest hrest, callCountEntries]

end

mutual

/-- What opens in the calls of a report closes with the same type. -/
theorem exists_closes (report : Report) {tag : TypeCode} {depth size : ℕ}
    (h : .opens tag depth size ∈ report.calls) :
    ∃ state parent, WalkerCall.closes tag depth state parent ∈ report.calls := by
  cases report with
  | visit o depth state => simp [Report.calls] at h
  | simple key value depth state => simp [Report.calls] at h
  | pair key depth state parent inner =>
    simp only [Report.calls, List.cons_append, List.mem_cons, List.mem_append,
      WalkerCall.opens.injEq, reduceCtorEq, false_or, List.not_mem_nil, or_false] at h
    rcases h with ⟨rfl, rfl, rfl⟩ | h
    · exact ⟨state, parent, by simp [Report.calls]⟩
    · obtain ⟨state', parent', hinner⟩ := exists_closes inner h
      exact ⟨state', parent', by simp [Report.calls, hinner]⟩
  | container tag depth state parent children =>
    simp only [Report.calls, List.cons_append, List.mem_cons, List.mem_append,
      WalkerCall.opens.injEq, reduceCtorEq, List.not_mem_nil, or_false] at h
    rcases h with ⟨rfl, rfl, rfl⟩ | h
    · exact ⟨state, parent, by simp [Report.calls]⟩
    · obtain ⟨state', parent', hchildren⟩ := exists_closes_reports children h
      exact ⟨state', parent', by simp [Report.calls, hchildren]⟩

theorem exists_closes_reports (reports : List Report) {tag : TypeCode} {depth size : ℕ}
    (h : .opens tag depth size ∈ reportsCalls reports) :
    ∃ state parent, WalkerCall.closes tag depth state parent ∈ reportsCalls reports := by
  cases reports with
  | nil => cases h
  | cons report reports =>
    rw [reportsCalls, List.mem_append] at h
    rcases h with h | h
    · obtain ⟨state, parent, hreport⟩ := exists_closes report h
      exact ⟨state, parent, List.mem_append_left _ hreport⟩
    · obtain ⟨state, parent, hreports⟩ := exists_closes_reports reports h
      exact ⟨state, parent, List.mem_append_right _ hreports⟩

end

/-- A closing call of a property map. -/
def closesPropMap : WalkerCall → Prop
  | .closes tag _ _ _ => tag = .propMap
  | _ => False

theorem not_closesPropMap_pair {key : Key} {value : Obj} {depth : ℕ} {state : WalkerState}
    {parent : TypeCode} {calls : List WalkerCall} (h : ∀ call ∈ calls, ¬closesPropMap call) :
    ∀ call ∈ traversePair key value depth state parent calls, ¬closesPropMap call := by
  have hkind : key.kind.pairCode ≠ .propMap := by
    cases key.kind <;> simp [KeyKind.pairCode]
  rw [traversePair]
  split_ifs
  · intro call hcall
    simp only [List.cons_append, List.mem_cons, List.mem_append, List.not_mem_nil,
      or_false] at hcall
    rcases hcall with rfl | rfl | hcall | rfl
    · exact id
    · exact id
    · exact h call hcall
    · exact hkind
  · intro call hcall
    obtain rfl := List.mem_singleton.mp hcall
    exact id

mutual

/-- No property map is closed. -/
theorem not_closesPropMap (depth : ℕ) (state : WalkerState) (parent : TypeCode) (o : Obj) :
    ∀ call ∈ traverse depth state parent o, ¬closesPropMap call := by
  cases o with
  | scalar v => simp [traverse, closesPropMap]
  | prg program => simp [traverse, closesPropMap]
  | pair key value => exact not_closesPropMap_pair (not_closesPropMap depth state _ value)
  | seq kind items =>
    have hitems : ∀ tag, ∀ call ∈ traverseItems (depth + 1) tag items.length 1 items,
        ¬closesPropMap call := fun tag =>
      not_closesPropMap_items (depth + 1) tag items.length 1 items
    intro call hcall
    cases kind <;> simp only [traverse, List.cons_append, List.mem_cons, List.mem_append,
      List.not_mem_nil, or_false] at hcall
    · rcases hcall with rfl | hcall | rfl
      · exact id
      · exact hitems _ call hcall
      · exact TypeCode.noConfusion
    · rcases hcall with rfl | hcall | rfl
      · exact id
      · exact hitems _ call hcall
      · exact TypeCode.noConfusion
    · rcases hcall with rfl | rfl
      · exact id
      · exact TypeCode.noConfusion
  | map kind entries =>
    -- the code that closes a property map is another one
    have hkind : kind.closingCode ≠ .propMap := by cases kind <;> simp [KeyKind.closingCode]
    intro call hcall
    simp only [traverse, List.cons_append, List.mem_cons, List.mem_append, List.not_mem_nil,
      or_false] at hcall
    rcases hcall with rfl | hcall | rfl
    · exact id
    · exact not_closesPropMap_entries (depth + 1) kind.mapCode entries.length 1 entries call hcall
    · exact hkind

theorem not_closesPropMap_items (depth : ℕ) (parent : TypeCode) (size index : ℕ)
    (items : List Obj) :
    ∀ call ∈ traverseItems depth parent size index items, ¬closesPropMap call := by
  cases items with
  | nil => simp [traverseItems]
  | cons item items =>
    intro call hcall
    rw [traverseItems, List.mem_append] at hcall
    rcases hcall with hcall | hcall
    · exact not_closesPropMap depth _ parent item call hcall
    · exact not_closesPropMap_items depth parent size (index + 1) items call hcall

theorem not_closesPropMap_entries (depth : ℕ) (parent : TypeCode) (size index : ℕ)
    (entries : List (Key × Obj)) :
    ∀ call ∈ traverseEntries depth parent size index entries, ¬closesPropMap call := by
  cases entries with
  | nil => simp [traverseEntries]
  | cons entry entries =>
    intro call hcall
    rw [traverseEntries, List.mem_append] at hcall
    rcases hcall with hcall | hcall
    · exact not_closesPropMap_pair (not_closesPropMap depth _ _ entry.2) call hcall
    · exact not_closesPropMap_entries depth parent size (index + 1) entries call hcall

end

theorem length_traversePair {key : Key} {value : Obj} {depth : ℕ} {state : WalkerState}
    {parent : TypeCode} {calls : List WalkerCall} :
    (traversePair key value depth state parent calls).length =
      pairCallCount value calls.length := by
  rw [traversePair, pairCallCount]
  split_ifs
  · simp
  · rfl

theorem pairCallCount_mono {value : Obj} {n n' : ℕ} (h : n ≤ n') :
    pairCallCount value n ≤ pairCallCount value n' := by
  rw [pairCallCount, pairCallCount]
  split_ifs <;> omega

mutual

/-- There are no more calls than a report of every part takes. -/
theorem length_traverse_le (depth : ℕ) (state : WalkerState) (parent : TypeCode) (o : Obj) :
    (traverse depth state parent o).length ≤ callCount o := by
  cases o with
  | scalar v => exact le_rfl
  | prg program => exact le_rfl
  | pair key value =>
    rw [traverse, length_traversePair]
    exact pairCallCount_mono (length_traverse_le depth state _ value)
  | seq kind items =>
    have hitems := length_traverseItems_le (depth + 1) kind.typeCode items.length 1 items
    cases kind
    · simpa [traverse, callCount, SeqKind.typeCode] using hitems
    · simpa [traverse, callCount, SeqKind.typeCode] using hitems
    · simp [traverse, callCount]
  | map kind entries =>
    have hentries := length_traverseEntries_le (depth + 1) kind.mapCode entries.length 1 entries
    simpa [traverse, callCount] using hentries

theorem length_traverseItems_le (depth : ℕ) (parent : TypeCode) (size index : ℕ)
    (items : List Obj) :
    (traverseItems depth parent size index items).length ≤ callCountItems items := by
  cases items with
  | nil => exact le_rfl
  | cons item items =>
    rw [traverseItems, List.length_append, callCountItems]
    exact Nat.add_le_add (length_traverse_le depth _ parent item)
      (length_traverseItems_le depth parent size (index + 1) items)

theorem length_traverseEntries_le (depth : ℕ) (parent : TypeCode) (size index : ℕ)
    (entries : List (Key × Obj)) :
    (traverseEntries depth parent size index entries).length ≤ callCountEntries entries := by
  cases entries with
  | nil => exact le_rfl
  | cons entry entries =>
    rw [traverseEntries, List.length_append, callCountEntries, length_traversePair]
    exact Nat.add_le_add (pairCallCount_mono (length_traverse_le depth _ _ entry.2))
      (length_traverseEntries_le depth parent size (index + 1) entries)

end

/-- An opening call of a property map. -/
def opensPropMap : WalkerCall → Prop
  | .opens tag _ _ => tag = .propMap
  | _ => False

theorem walkable_of_not_container {value : Obj} (h : value.typeCode.isContainer = false) :
    Walkable value := by
  cases value with
  | scalar v => trivial
  | prg program => trivial
  | pair key value => cases key <;> cases h
  | seq kind items => cases kind <;> cases h
  | map kind entries => cases kind <;> cases h

theorem walkable_of_pair {key : Key} {value : Obj} {depth : ℕ} {state : WalkerState}
    {parent : TypeCode} {calls : List WalkerCall}
    (hlen : pairCallCount value (callCount value) ≤
      (traversePair key value depth state parent calls).length)
    (hopens : ∀ call ∈ traversePair key value depth state parent calls, ¬opensPropMap call)
    (hvalue : callCount value ≤ calls.length → (∀ call ∈ calls, ¬opensPropMap call) →
      Walkable value) :
    Walkable value := by
  cases hcontainer : value.typeCode.isContainer with
  | false => exact walkable_of_not_container hcontainer
  | true =>
    rw [length_traversePair, pairCallCount, pairCallCount, if_pos hcontainer,
      if_pos hcontainer] at hlen
    refine hvalue (by omega) fun call hcall => hopens call ?_
    rw [traversePair, if_pos hcontainer]
    simp [hcall]

mutual

/-- Where a report of every part has been given and no property map opens, there is neither a
property map nor a deque with elements. -/
theorem walkable_of_complete (depth : ℕ) (state : WalkerState) (parent : TypeCode) (o : Obj)
    (hlen : callCount o ≤ (traverse depth state parent o).length)
    (hopens : ∀ call ∈ traverse depth state parent o, ¬opensPropMap call) : Walkable o := by
  cases o with
  | scalar v => trivial
  | prg program => trivial
  | pair key value =>
    have hvalue : Walkable value :=
      walkable_of_pair hlen hopens (walkable_of_complete depth state _ value)
    exact hvalue
  | seq kind items =>
    cases kind with
    | tuple =>
      simp only [traverse, callCount, List.cons_append, List.length_cons, List.length_append,
        List.length_nil] at hlen
      exact walkable_of_complete_items (depth + 1) .tuple items.length 1 items (by omega)
        fun call hcall => hopens call (by simp [traverse, hcall])
    | vector =>
      simp only [traverse, callCount, List.cons_append, List.length_cons, List.length_append,
        List.length_nil] at hlen
      exact walkable_of_complete_items (depth + 1) .vector items.length 1 items (by omega)
        fun call hcall => hopens call (by simp [traverse, hcall])
    | deque =>
      cases items with
      | nil => rfl
      | cons item items =>
        -- the elements of a deque are not walked, so their calls are missing
        have hpos := callCount_pos item
        simp only [traverse, callCount, callCountItems, List.length_cons, List.length_nil] at hlen
        omega
  | map kind entries =>
    simp only [traverse, callCount, List.cons_append, List.length_cons, List.length_append,
      List.length_nil] at hlen
    refine ⟨?_, walkable_of_complete_entries (depth + 1) kind.mapCode entries.length 1 entries
      (by omega) fun call hcall => hopens call (by simp [traverse, hcall])⟩
    -- a property map would have been opened
    rintro rfl
    exact hopens (.opens .propMap depth entries.length) List.mem_cons_self rfl

theorem walkable_of_complete_items (depth : ℕ) (parent : TypeCode) (size index : ℕ)
    (items : List Obj)
    (hlen : callCountItems items ≤ (traverseItems depth parent size index items).length)
    (hopens : ∀ call ∈ traverseItems depth parent size index items, ¬opensPropMap call) :
    walkableItems items := by
  cases items with
  | nil => trivial
  | cons item items =>
    have hitem := length_traverse_le depth (getState index size) parent item
    have hitems := length_traverseItems_le depth parent size (index + 1) items
    rw [traverseItems, List.length_append, callCountItems] at hlen
    exact ⟨walkable_of_complete depth _ parent item (by omega)
        fun call hcall => hopens call (List.mem_append_left _ hcall),
      walkable_of_complete_items depth parent size (index + 1) items (by omega)
        fun call hcall => hopens call (List.mem_append_right _ hcall)⟩

theorem walkable_of_complete_entries (depth : ℕ) (parent : TypeCode) (size index : ℕ)
    (entries : List (Key × Obj))
    (hlen : callCountEntries entries ≤ (traverseEntries depth parent size index entries).length)
    (hopens : ∀ call ∈ traverseEntries depth parent size index entries, ¬opensPropMap call) :
    walkableEntries entries := by
  cases entries with
  | nil => trivial
  | cons entry entries =>
    obtain ⟨key, value⟩ := entry
    have hpair : (traversePair key value depth (getState index size) parent
        (traverse depth (getState index size) key.kind.pairCode value)).length ≤
          pairCallCount value (callCount value) := by
      rw [length_traversePair]
      exact pairCallCount_mono (length_traverse_le depth _ _ value)
    have hentries := length_traverseEntries_le depth parent size (index + 1) entries
    rw [traverseEntries, List.length_append, callCountEntries] at hlen
    exact ⟨walkable_of_pair (by omega)
        (fun call hcall => hopens call (List.mem_append_left _ hcall))
        (walkable_of_complete depth _ _ value),
      walkable_of_complete_entries depth parent size (index + 1) entries (by omega)
        fun call hcall => hopens call (List.mem_append_right _ hcall)⟩

end

end Incomplete

/-- The stream of calls is well nested and complete exactly for objects without property maps and
without deques that have elements. -/
theorem wellNested_iff (o : Obj) : WellNested o ↔ Walkable o := by
  constructor
  · rintro ⟨report, hcalls, hreports⟩
    apply walkable_of_complete 0 .last o.typeCode o
    · rw [hcalls, length_calls o report hreports]
    · intro call hcall hopens
      -- what opens is closed with the same type, but no property map is closed
      cases call with
      | opens tag depth size =>
        obtain rfl : tag = .propMap := hopens
        rw [hcalls] at hcall
        obtain ⟨state, parent, hcloses⟩ := exists_closes report hcall
        rw [← hcalls] at hcloses
        exact not_closesPropMap 0 .last o.typeCode o _ hcloses rfl
      | _ => exact hopens
  · intro ho
    obtain ⟨report, hcalls, -, hreports⟩ := exists_report o ho 0 .last o.typeCode
    exact ⟨report, hcalls.symm, hreports⟩

/-- A property map closes as a parameter map. -/
theorem not_wellNested_propMap : ¬WellNested (.propMap []) := by
  rintro ⟨report, hcalls, hreports⟩
  have hmem : WalkerCall.opens .propMap 0 0 ∈ report.calls := by
    rw [← hcalls]
    exact List.mem_cons_self
  obtain ⟨state, parent, hcloses⟩ := exists_closes report hmem
  rw [← hcalls] at hcloses
  exact not_closesPropMap 0 .last .propMap (.propMap []) _ hcloses rfl

end Dom

end Cyng
