import Cyng.Store.Names

/-!
# Calls by column name

A name may be that of a body column, that of a key column, or unknown. For a name that is
not one of the body, a call by name should do nothing and say so.

Where the record is there, the calls for one column throw instead. The call for a map skips
what is not in the body, unless an assertion stops it, and then answers true. A search finds
nothing under an unknown name, but throws for key columns; and it asserts that the values it
compares have the type of the value it is looking for.
-/

namespace Cyng

open Theory

/-! ### Maps of parameters -/

section Attributes

variable {m : Meta}

/-- The body columns that the entries of a map stand for. -/
def columnsOf (m : Meta) (pm : List (Bytes × Obj)) : List (Fin m.bodySize × Obj) :=
  pm.filterMap fun param =>
    match m.place param.1 with
    | .body idx => some (idx, param.2)
    | _ => none

/-- The columns that the attributes of a map stand for. -/
def inRange {n : ℕ} (am : List (BitVec 64 × Obj)) : List (Fin n × Obj) :=
  am.filterMap fun attr => if h : attr.1.toNat < n then some (⟨attr.1.toNat, h⟩, attr.2) else none

theorem mem_columnsOf {pm : List (Bytes × Obj)} {attr : Fin m.bodySize × Obj} :
    attr ∈ columnsOf m pm ↔ ∃ param ∈ pm, m.place param.1 = .body attr.1 ∧ param.2 = attr.2 := by
  rw [columnsOf, List.mem_filterMap]
  refine exists_congr fun param => and_congr_right fun _ => ?_
  cases m.place param.1 <;> simp [Prod.ext_iff]

theorem mem_inRange {n : ℕ} {am : List (BitVec 64 × Obj)} {attr : Fin n × Obj} :
    attr ∈ inRange am ↔ ∃ a ∈ am, a.1.toNat = attr.1 ∧ a.2 = attr.2 := by
  rw [inRange, List.mem_filterMap]
  refine exists_congr fun a => and_congr_right fun _ => ?_
  split_ifs with h
  · simp [Prod.ext_iff, Fin.ext_iff]
  · simp only [false_iff, not_and]
    intro heq
    exact absurd (heq.trans_lt attr.1.isLt) h

/-- The name of a column is the one it is found by. -/
theorem name_of_place_eq_body {name : Bytes} {idx : Fin m.bodySize}
    (h : m.place name = .body idx) : (m.bodyColumn idx).name = name := by
  unfold Meta.place at h
  split at h
  · cases h
  next i hfind =>
    obtain ⟨hi, hname, -⟩ := List.findIdx?_eq_some_iff_getElem.mp hfind
    split_ifs at h with hkey hbody
    obtain rfl := Place.body.inj h
    have hidx : m.keySize + (i - m.keySize) = i := Nat.add_sub_cancel' (not_lt.mp hkey)
    have hcolumn : m.bodyColumn ⟨i - m.keySize, hbody⟩ = m.columns[i] := by
      simp only [Meta.bodyColumn, List.get_eq_getElem, hidx]
    rw [hcolumn]
    exact of_decide_eq_true hname

theorem attributes_eq (pm : List (Bytes × Obj)) :
    Contents.attributes (m := m) pm =
      OrderedMap.insertAll [] (pm.map fun param => (m.bodyIndexByName param.1, param.2)) := by
  rw [OrderedMap.insertAll, List.foldl_map]
  rfl

/-- The attributes of a map stand for the columns that its entries stand for. -/
theorem mem_inRange_attributes (fits : m.size < 2 ^ 64) (pm : ParamMap)
    {attr : Fin m.bodySize × Obj} :
    attr ∈ inRange (Contents.attributes (m := m) pm.entries) ↔ attr ∈ columnsOf m pm.entries := by
  have hsum : m.keySize + m.bodySize < 2 ^ 64 := keySize_add_bodySize.trans_lt fits
  rw [mem_inRange, mem_columnsOf, attributes_eq]
  constructor
  · rintro ⟨a, ha, hidx, hvalue⟩
    obtain hnil | hmem := OrderedMap.mem_insertAll ha
    · exact absurd hnil List.not_mem_nil
    · obtain ⟨param, hparam, rfl⟩ := List.mem_map.mp hmem
      refine ⟨param, hparam, (index_eq_ofNat_iff hsum).mp ?_, hvalue⟩
      rw [← bodyIndexByName_eq fits]
      exact BitVec.eq_of_toNat_eq (hidx.trans (toNat_index_body hsum attr.1).symm)
  · rintro ⟨param, hparam, hplace, hvalue⟩
    refine ⟨(m.bodyIndexByName param.1, param.2), ?_, ?_, hvalue⟩
    · refine OrderedMap.mem_insertAll_nil_of_unique (List.mem_map_of_mem hparam) ?_
      intro e he hkey
      obtain ⟨param', hparam', rfl⟩ := List.mem_map.mp he
      -- the index is that of a column, so both names are the name of this column
      have hplace' : m.place param'.1 = .body attr.1 := by
        refine (index_eq_ofNat_iff hsum).mp ?_
        have hindex : (m.place param'.1).index = (m.place param.1).index := by
          rw [← bodyIndexByName_eq fits, ← bodyIndexByName_eq fits]
          exact hkey
        rw [hindex, hplace]
        rfl
      have hname : param'.1 = param.1 :=
        (name_of_place_eq_body hplace').symm.trans (name_of_place_eq_body hplace)
      rw [List.inj_on_of_nodup_map pm.nodup hparam' hparam hname]
    · rw [bodyIndexByName_eq fits, hplace]
      exact toNat_index_body hsum attr.1

/-- Every name of the map has its index among the attributes. -/
theorem exists_mem_attributes {pm : List (Bytes × Obj)} {param : Bytes × Obj}
    (h : param ∈ pm) :
    ∃ value, (m.bodyIndexByName param.1, value) ∈ Contents.attributes (m := m) pm := by
  rw [attributes_eq]
  exact OrderedMap.exists_mem_insertAll
    (List.mem_map_of_mem (f := fun param => (m.bodyIndexByName param.1, param.2)) h)

/-- The attributes come in ascending order, each index once. -/
theorem pairwise_attributes (pm : List (Bytes × Obj)) :
    (Contents.attributes (m := m) pm).Pairwise fun a b => a.1 ≠ b.1 := by
  rw [attributes_eq]
  exact (OrderedMap.sorted_insertAll OrderedMap.sorted_nil).imp fun h => ne_of_lt h

end Attributes

/-! ### Several columns of one record -/

/-- The columns hold what was written, the others what they held before. Every change was
counted and published. -/
structure Applied {n : ℕ} (hasher : Hasher) (key : List Obj) (attrs : List (Fin n × Obj))
    (body body' : Body n) (events : List (Event n)) : Prop where
  written : ∀ attr ∈ attrs, (body'.data.get attr.1).same hasher attr.2
  untouched : ∀ idx, (∀ attr ∈ attrs, attr.1 ≠ idx) → body'.data.get idx = body.data.get idx
  counted : body'.generation = body.generation + BitVec.ofNat 64 events.length
  published : ∀ event ∈ events, ∃ attr ∈ attrs, event.attr? = some (key, attr)

section Loop

variable {hasher : Hasher} {n : ℕ} {b : Build} {key : List Obj} {source : Uuid} {body : Body n}
  {attr : BitVec 64 × Obj} {am : List (BitVec 64 × Obj)}

/-- One round. -/
theorem modifyColumn_applied (hasher : Hasher) (b : Build) (key : List Obj) (source : Uuid)
    (body : Body n) (hne : attr.1 ≠ Meta.noColumn) :
    ∃ body' events, Table.modifyColumn hasher b key source body attr = .ok (body', events) ∧
      Applied hasher key (inRange [attr]) body body' events := by
  -- a position outside the body is skipped, an equal value leaves the body as it is
  by_cases hidx : attr.1.toNat < n
  · have hrange : inRange [attr] = [((⟨attr.1.toNat, hidx⟩ : Fin n), attr.2)] := by
      simp [inRange, hidx]
    rw [hrange]
    by_cases hsame : (body.data.get ⟨attr.1.toNat, hidx⟩).same hasher attr.2
    · refine ⟨body, [], Table.modifyColumn_of_same key source (fun _ => hne) hidx hsame, ?_⟩
      exact ⟨by simpa using hsame, fun _ _ => rfl, (BitVec.add_zero _).symm, by simp⟩
    · refine ⟨_, _, Table.modifyColumn_of_not_same key source (fun _ => hne) hidx hsame, ?_⟩
      refine ⟨?_, ?_, rfl, ?_⟩
      · intro a ha
        rw [List.mem_singleton.mp ha, Body.get_assign, if_pos rfl]
        rfl
      · intro idx h
        rw [Body.get_assign, if_neg (h _ List.mem_cons_self)]
      · intro event hevent
        rw [List.mem_singleton.mp hevent]
        exact ⟨_, List.mem_cons_self, rfl⟩
  · have hrange : (inRange [attr] : List (Fin n × Obj)) = [] := by
      simp [inRange, hidx]
    rw [hrange]
    refine ⟨body, [], Table.modifyColumn_of_not_lt key source (fun _ => hne) hidx, ?_⟩
    exact ⟨by simp, fun _ _ => rfl, (BitVec.add_zero _).symm, by simp⟩

theorem Applied.congr {attrs attrs' : List (Fin n × Obj)} {body body' : Body n}
    {events : List (Event n)} (h : Applied hasher key attrs body body' events)
    (hmem : ∀ attr, attr ∈ attrs ↔ attr ∈ attrs') :
    Applied hasher key attrs' body body' events where
  written attr hattr := h.written attr ((hmem attr).mpr hattr)
  untouched idx hidx := h.untouched idx fun attr hattr => hidx attr ((hmem attr).mp hattr)
  counted := h.counted
  published event hevent := by
    obtain ⟨attr, hattr, heq⟩ := h.published event hevent
    exact ⟨attr, (hmem attr).mp hattr, heq⟩

/-- Rounds about different columns add up. -/
theorem Applied.append {attrs attrs' : List (Fin n × Obj)} {body body' body'' : Body n}
    {events events' : List (Event n)} (h : Applied hasher key attrs body body' events)
    (h' : Applied hasher key attrs' body' body'' events')
    (disjoint : ∀ attr ∈ attrs, ∀ attr' ∈ attrs', attr'.1 ≠ attr.1) :
    Applied hasher key (attrs ++ attrs') body body'' (events ++ events') := by
  refine ⟨?_, ?_, ?_, ?_⟩
  · intro attr hattr
    rcases List.mem_append.mp hattr with hattr | hattr
    · rw [h'.untouched _ (disjoint attr hattr)]
      exact h.written attr hattr
    · exact h'.written attr hattr
  · intro idx hidx
    rw [h'.untouched idx fun attr hattr => hidx attr (List.mem_append_right _ hattr),
      h.untouched idx fun attr hattr => hidx attr (List.mem_append_left _ hattr)]
  · rw [h'.counted, h.counted, BitVec.add_assoc, List.length_append, BitVec.ofNat_add]
  · intro event hevent
    rcases List.mem_append.mp hevent with hevent | hevent
    · obtain ⟨attr, hattr, heq⟩ := h.published event hevent
      exact ⟨attr, List.mem_append_left _ hattr, heq⟩
    · obtain ⟨attr, hattr, heq⟩ := h'.published event hevent
      exact ⟨attr, List.mem_append_right _ hattr, heq⟩

/-- The whole loop, for indices that are all different and pass the assertion. -/
theorem run_modifyColumn_applied (hasher : Hasher) (b : Build) (key : List Obj) (source : Uuid)
    (body : Body n) (distinct : am.Pairwise fun a b => a.1 ≠ b.1)
    (passes : ∀ attr ∈ am, attr.1 ≠ Meta.noColumn) :
    ∃ body' events, Step.run (Table.modifyColumn hasher b key source) body am =
        .ok (body', events) ∧
      Applied hasher key (inRange am) body body' events := by
  induction am generalizing body with
  | nil =>
    exact ⟨body, [], rfl, by simp [inRange], fun _ _ => rfl, (BitVec.add_zero _).symm, by simp⟩
  | cons attr am ih =>
    obtain ⟨hhead, htail⟩ := List.pairwise_cons.mp distinct
    obtain ⟨hne, hpasses⟩ := List.forall_mem_cons.mp passes
    obtain ⟨mid, out, hstep, hone⟩ := modifyColumn_applied hasher b key source body hne
    obtain ⟨body', events, hrun, hrest⟩ := ih mid htail hpasses
    refine ⟨body', out ++ events, Step.run_cons_ok hstep hrun, ?_⟩
    have hsplit : (inRange (attr :: am) : List (Fin n × Obj)) = inRange [attr] ++ inRange am :=
      List.filterMap_append (l := [attr])
    rw [hsplit]
    -- distinct columns: the later writes leave this one alone
    refine hone.append hrest fun a ha a' ha' heq => ?_
    obtain ⟨x, hx, hxidx, -⟩ := mem_inRange.mp ha
    obtain ⟨y, hy, hyidx, -⟩ := mem_inRange.mp ha'
    rw [List.mem_singleton.mp hx] at hxidx
    refine hhead y hy (BitVec.eq_of_toNat_eq ?_)
    rw [hxidx, hyidx, heq]

/-- With its assertion compiled in, the loop ends only if no index is that of no column. -/
theorem ne_noColumn_of_run {r : Body n × List (Event n)}
    (h : Step.run (Table.modifyColumn hasher .debug key source) body am = .ok r) :
    ∀ attr ∈ am, attr.1 ≠ Meta.noColumn := by
  induction am generalizing body r with
  | nil => simp
  | cons attr am ih =>
    obtain ⟨mid, out, out', hstep, hrun, -⟩ := Step.run_cons_eq_ok_iff.mp h
    refine List.forall_mem_cons.mpr ⟨?_, ih hrun⟩
    obtain ⟨_, hcheck, -⟩ := bind_eq_ok_iff.mp hstep
    exact Build.check_debug_eq_ok_iff.mp hcheck

end Loop

/-! ### Searches -/

section Search

variable {n : ℕ} {cmp : Comparator} {col : BitVec 64} {rows : List (List Obj × Body n)}

theorem compare_debug_of_type {obj : Obj} (h : obj.typeCode = cmp.type) :
    cmp.compare .debug obj = .ok (cmp.matches obj) := by
  rw [Comparator.compare, Build.check_of h]
  rfl

theorem compare_debug_of_not_type {obj : Obj} (h : obj.typeCode ≠ cmp.type) :
    cmp.compare .debug obj = .error (.assertion "is_same_type<T>(obj)") := by
  rw [Comparator.compare, Build.check, if_pos ⟨rfl, h⟩]
  rfl

theorem matches_of_not_type {obj : Obj} (h : obj.typeCode ≠ cmp.type) :
    cmp.matches obj = false := by
  simp [Comparator.matches, h]

/-- A search in a column compares up to the first match, and asserts the type each time. -/
theorem findRow_debug_iff (h : col.toNat < n) :
    (∃ row, Table.findRow .debug col cmp rows = .ok row) ↔
      ∀ row ∈ rows.takeWhile fun row => !cmp.matches (row.2.data.get ⟨col.toNat, h⟩),
        (row.2.data.get ⟨col.toNat, h⟩).typeCode = cmp.type := by
  -- the search goes on as long as the rows have the type and do not match
  induction rows with
  | nil => exact iff_of_true ⟨none, rfl⟩ (by simp)
  | cons row rows ih =>
    by_cases htype : (row.2.data.get ⟨col.toNat, h⟩).typeCode = cmp.type
    · cases hmatch : cmp.matches (row.2.data.get ⟨col.toNat, h⟩) with
      | true =>
        refine iff_of_true ⟨some row, ?_⟩ ?_
        · simp only [Table.findRow, dif_pos h, compare_debug_of_type htype, ok_bind, hmatch,
            if_true]
          rfl
        · simp [hmatch]
      | false =>
        have hskip : Table.findRow .debug col cmp (row :: rows) =
            Table.findRow .debug col cmp rows := by
          simp only [Table.findRow, dif_pos h, compare_debug_of_type htype, ok_bind, hmatch]
          rfl
        rw [hskip, ih, List.takeWhile_cons, hmatch]
        simp [htype]
    · refine iff_of_false ?_ ?_
      · rintro ⟨found, hfound⟩
        simp only [Table.findRow, dif_pos h, compare_debug_of_not_type htype, error_bind] at hfound
        cases hfound
      · intro hall
        refine htype (hall row ?_)
        rw [List.takeWhile_cons, matches_of_not_type htype]
        exact List.mem_cons_self

/-- Past the end of the body the first row ends the search. -/
theorem findRow_of_not_lt {b : Build} (h : ¬col.toNat < n) :
    Table.findRow b col cmp rows =
      if rows = [] then .ok none else .error (.exception "std::out_of_range") := by
  cases rows with
  | nil => rfl
  | cons row rows => rw [Table.findRow, dif_neg h, if_neg (List.cons_ne_nil _ _)]

end Search

/-! ### The calls -/

/-- The calls that take column names. -/
inductive ByName (m : Meta)
  | modify (key : List Obj) (param : Bytes × Obj) (source : Uuid)
  | modifyAll (key : List Obj) (pm : ParamMap) (source : Uuid)
  | compute (key : List Obj) (name : Bytes) (f : Obj → Obj) (source : Uuid)
  | findFirst (name : Bytes) (cmp : Comparator)

section Total

variable {hasher : Hasher} {m : Meta} (t : Table hasher m)

/-- The name is not that of a column of the body. -/
def NotInBody (m : Meta) (name : Bytes) : Prop := ∀ idx, m.place name ≠ .body idx

/-- The call neither throws nor violates an assertion, and it does nothing when none of its
names is in the body. -/
structure Tame (c : Call m) (names : List Bytes)
    (r : Table hasher m × List (Output m.bodySize)) : Prop where
  call : t.call .debug c = .ok r
  returns : ∀ what, Output.result (.thrown what) ∉ r.2
  idle : names ≠ [] → (∀ name ∈ names, NotInBody m name) → r = t.answer [] (.modified false)

/-- The call is tame, and the entries of a map that name columns of the body are applied. -/
def ByName.Total : ByName m → Prop
  | .modify key param source => ∃ r, Tame t (.modifyParam key param source) [param.1] r
  | .compute key name f source => ∃ r, Tame t (.computeByName key name f source) [name] r
  | .modifyAll key pm source =>
    ∃ r, Tame t (.modifyParamMap key pm.entries source) (pm.entries.map Prod.fst) r ∧
      ∀ row, t.data.find key = some row → ∃ body', r.1 = t.put key body' ∧
        Applied hasher key (columnsOf m pm.entries) row.2 body' (published r.2)
  | .findFirst name cmp =>
    ∃ found, t.findFirstByName .debug name cmp = .ok found ∧ (NotInBody m name → found = none)

/-- The record is not there, or the names lead into the body. A map may have names of key
columns besides, apart from the last one. A search may also be for a name that is unknown or
that of the last key column, or go over no rows; in the body it must not meet a value of
another type before it ends. -/
def ByName.Defined : ByName m → Prop
  | .modify key param _ => t.data.find key = none ∨ ¬NotInBody m param.1
  | .compute key name _ _ => t.data.find key = none ∨ ¬NotInBody m name
  | .modifyAll key pm _ => t.data.find key = none ∨
    (∀ param ∈ pm.entries, m.place param.1 ≠ .nowhere ∧
      ∀ idx, m.place param.1 = .key idx → idx.val + 1 ≠ m.keySize) ∧
    (pm.entries = [] ∨ ∃ param ∈ pm.entries, ¬NotInBody m param.1)
  | .findFirst name cmp =>
    match m.place name with
    | .body idx =>
      ∀ row ∈ t.data.rows.takeWhile fun row => !cmp.matches (row.2.data.get idx),
        (row.2.data.get idx).typeCode = cmp.type
    | .key idx => t.data.rows = [] ∨ idx.val + 1 = m.keySize
    | .nowhere => True

variable {t} {key : List Obj} {source : Uuid}

theorem not_notInBody_iff {name : Bytes} :
    ¬NotInBody m name ↔ ∃ idx, m.place name = .body idx := by
  simp [NotInBody]

/-- A call for one column throws where the record is there and the column is not in the body. -/
theorem change_tame_iff (fits : m.size < 2 ^ 64) {c : Call m} {name : Bytes} {f : Obj → Obj}
    (hcall : t.call .debug c = .ok (t.change key (m.bodyIndexByName name) f source)) :
    (∃ r, Tame t c [name] r) ↔ t.data.find key = none ∨ ¬NotInBody m name := by
  have hsum : m.keySize + m.bodySize < 2 ^ 64 := keySize_add_bodySize.trans_lt fits
  have hlt : (m.bodyIndexByName name).toNat < m.bodySize ↔ ¬NotInBody m name := by
    rw [bodyIndexByName_eq fits, index_lt_iff hsum, not_notInBody_iff]
  constructor
  · rintro ⟨r, hr⟩
    obtain rfl := Except.ok.inj (hcall.symm.trans hr.call)
    -- the key is there and the name is not: `at` throws on the index
    by_contra hneither
    obtain ⟨hsome, hnot⟩ := not_or.mp hneither
    obtain ⟨row, hfind⟩ := Option.ne_none_iff_exists'.mp hsome
    refine hr.returns "std::out_of_range" ?_
    simp only [Table.change, hfind, dif_neg (mt hlt.mp hnot)]
    exact result_mem_answer.mpr rfl
  · intro h
    refine ⟨_, hcall, ?_, ?_⟩
    · intro what hwhat
      cases hfind : t.data.find key with
      | none =>
        rw [change_of_find_none hfind] at hwhat
        cases result_mem_answer.mp hwhat
      | some row =>
        have hidx := hlt.mpr (h.resolve_left (by simp [hfind]))
        simp only [Table.change, hfind, dif_pos hidx] at hwhat
        split_ifs at hwhat <;> cases result_mem_answer.mp hwhat
    · intro _ hnames
      have hnone := h.resolve_right fun hnot => hnot (hnames name List.mem_cons_self)
      exact change_of_find_none hnone _ _

/-- The assertion of the loop lets all names through but unknown ones and the last key
column. -/
theorem bodyIndexByName_ne_noColumn_iff (fits : m.size < 2 ^ 64) {name : Bytes} :
    m.bodyIndexByName name ≠ Meta.noColumn ↔
      m.place name ≠ .nowhere ∧ ∀ idx, m.place name = .key idx → idx.val + 1 ≠ m.keySize := by
  have hsum : m.keySize + m.bodySize < 2 ^ 64 := keySize_add_bodySize.trans_lt fits
  rw [bodyIndexByName_eq fits, Ne, index_eq_noColumn_iff hsum]
  simp only [not_or, not_exists, not_and, ne_eq]

/-- The call for a map goes over all names where the record is there, and is answered with
true. -/
theorem modifyAll_total_iff (fits : m.size < 2 ^ 64) {pm : ParamMap} :
    ByName.Total t (.modifyAll key pm source) ↔ ByName.Defined t (.modifyAll key pm source) := by
  cases hfind : t.data.find key with
  | none =>
    refine iff_of_true ⟨t.answer [] (.modified false), ?_, ?_⟩ (Or.inl hfind)
    · refine ⟨modifyMap_of_find_none hfind _, ?_, fun _ _ => rfl⟩
      intro what hwhat
      cases result_mem_answer.mp hwhat
    · intro row hrow
      rw [hfind] at hrow
      cases hrow
  | some row =>
    constructor
    · rintro ⟨r, htame, -⟩
      refine Or.inr ⟨?_, ?_⟩
      · intro param hparam
        have hcall : t.modifyMap .debug key (Contents.attributes (m := m) pm.entries) source =
            .ok r := htame.call
        simp only [Table.modifyMap, hfind] at hcall
        obtain ⟨result, hrun, -⟩ := bind_eq_ok_iff.mp hcall
        obtain ⟨value, hvalue⟩ := exists_mem_attributes (m := m) hparam
        exact (bodyIndexByName_ne_noColumn_iff fits).mp (ne_noColumn_of_run hrun _ hvalue)
      · by_contra hneither
        obtain ⟨hnil, hnames⟩ := not_or.mp hneither
        have hidle : r = t.answer [] (.modified false) := by
          refine htame.idle (by simpa using hnil) fun name hname => ?_
          obtain ⟨param, hparam, rfl⟩ := List.mem_map.mp hname
          by_contra hbody
          exact hnames ⟨param, hparam, hbody⟩
        have htrue := modified_true_of_modifyMap hfind htame.call
        rw [hidle] at htrue
        cases result_mem_answer.mp htrue
    · intro h
      obtain ⟨hnames, hbody⟩ := Or.resolve_left h (by simp [hfind])
      have hpasses : ∀ attr ∈ Contents.attributes (m := m) pm.entries,
          attr.1 ≠ Meta.noColumn := by
        intro attr hattr
        rw [attributes_eq] at hattr
        obtain hnil | hmem := OrderedMap.mem_insertAll hattr
        · exact absurd hnil List.not_mem_nil
        · obtain ⟨param, hparam, rfl⟩ := List.mem_map.mp hmem
          exact (bodyIndexByName_ne_noColumn_iff fits).mpr (hnames param hparam)
      obtain ⟨body', events, hrun, happlied⟩ := run_modifyColumn_applied hasher .debug key
        source row.2 (pairwise_attributes pm.entries) hpasses
      refine ⟨(t.put key body').answer events (.modified true), ⟨?_, ?_, ?_⟩, ?_⟩
      · show t.modifyMap .debug key (Contents.attributes (m := m) pm.entries) source = _
        simp only [Table.modifyMap, hfind, hrun, ok_bind]
        rfl
      · intro what hwhat
        cases result_mem_answer.mp hwhat
      · intro hne hidle
        -- one of the names is in the body
        obtain hnil | ⟨param, hparam, hin⟩ := hbody
        · exact absurd (by rw [hnil]; rfl) hne
        · exact absurd (hidle _ (List.mem_map_of_mem hparam)) hin
      · intro row' hrow'
        obtain rfl : row = row' := Option.some.inj (hfind.symm.trans hrow')
        refine ⟨body', rfl, ?_⟩
        rw [published_answer]
        exact happlied.congr fun attr => mem_inRange_attributes fits pm

/-- The search. -/
theorem findFirst_total_iff (fits : m.size < 2 ^ 64) {name : Bytes} {cmp : Comparator} :
    ByName.Total t (.findFirst name cmp) ↔ ByName.Defined t (.findFirst name cmp) := by
  have hsum : m.keySize + m.bodySize < 2 ^ 64 := keySize_add_bodySize.trans_lt fits
  have hindex := bodyIndexByName_eq fits name
  have hlt := index_lt_iff hsum (p := m.place name)
  rw [← hindex] at hlt
  simp only [ByName.Total, ByName.Defined, Table.findFirstByName]
  cases hplace : m.place name with
  | body idx =>
    have hidx : (m.bodyIndexByName name).toNat < m.bodySize := hlt.mpr ⟨idx, hplace⟩
    have hfin : (⟨(m.bodyIndexByName name).toNat, hidx⟩ : Fin m.bodySize) = idx := by
      refine Fin.ext ?_
      show (m.bodyIndexByName name).toNat = idx
      rw [hindex, hplace, toNat_index_body hsum]
    have hne : m.bodyIndexByName name ≠ Meta.noColumn := by
      rw [bodyIndexByName_ne_noColumn_iff fits, hplace]
      simp
    have hrow : (∃ row, Table.findRow .debug (m.bodyIndexByName name) cmp t.data.rows = .ok row) ↔
        _ := findRow_debug_iff hidx
    rw [hfin] at hrow
    rw [if_pos hne]
    refine Iff.trans ?_ hrow
    constructor
    · rintro ⟨found, hfound, -⟩
      obtain ⟨row, hrow, -⟩ := bind_eq_ok_iff.mp hfound
      exact ⟨row, hrow⟩
    · rintro ⟨row, hrow⟩
      refine ⟨_, by rw [Table.findFirst, hrow]; rfl, fun hnot => absurd hplace (hnot idx)⟩
  | key idx =>
    have hnot : ¬(m.bodyIndexByName name).toNat < m.bodySize := by
      rw [hlt, hplace]
      simp
    -- the last column of the key has the index that stands for no column
    by_cases hlast : idx.val + 1 = m.keySize
    · have heq : m.bodyIndexByName name = Meta.noColumn := by
        rw [hindex, hplace]
        exact (index_eq_noColumn_iff hsum).mpr (Or.inr ⟨idx, rfl, hlast⟩)
      rw [if_neg (not_not.mpr heq)]
      exact iff_of_true ⟨none, rfl, fun _ => rfl⟩ (Or.inr hlast)
    · have hne : m.bodyIndexByName name ≠ Meta.noColumn := by
        rw [bodyIndexByName_ne_noColumn_iff fits, hplace]
        refine ⟨by simp, fun idx' heq => ?_⟩
        rw [← Place.key.inj heq]
        exact hlast
      rw [if_pos hne, Table.findFirst, findRow_of_not_lt hnot]
      -- the index of the other columns of the key is beyond the body, and so fails on the first row
      by_cases hrows : t.data.rows = []
      · rw [if_pos hrows]
        exact iff_of_true ⟨none, rfl, fun _ => rfl⟩ (Or.inl hrows)
      · rw [if_neg hrows]
        refine iff_of_false ?_ (not_or.mpr ⟨hrows, hlast⟩)
        rintro ⟨found, hfound, -⟩
        cases hfound
  | nowhere =>
    have heq : m.bodyIndexByName name = Meta.noColumn := by
      rw [hindex, hplace]
      rfl
    rw [if_neg (not_not.mpr heq)]
    exact iff_of_true ⟨none, rfl, fun _ => rfl⟩ trivial

/-- A call by name is total exactly where it is defined. -/
theorem total_iff_defined (fits : m.size < 2 ^ 64) (c : ByName m) : c.Total t ↔ c.Defined t := by
  cases c with
  | modify key param source => exact change_tame_iff (f := fun _ => param.2) fits rfl
  | compute key name f source => exact change_tame_iff (f := f) fits rfl
  | modifyAll key pm source => exact modifyAll_total_iff fits
  | findFirst name cmp => exact findFirst_total_iff fits

end Total

/-- The list of the record, under its name and in a map. -/
def sampleParams : ParamMap := ⟨[([98], .vector [.size 5])], by decide⟩

theorem total_listTable :
    listMeta.size < 2 ^ 64 ∧
      ByName.Total listTable (.modifyAll [.size 1] sampleParams nilUuid) := by
  refine ⟨by decide, (total_iff_defined (by decide) _).mpr (Or.inr ⟨?_, Or.inr ?_⟩)⟩
  · intro param hparam
    obtain rfl := List.mem_singleton.mp hparam
    have hplace : listMeta.place [98] = .body (0 : Fin 1) := by decide
    simp [hplace]
  · exact ⟨_, List.mem_cons_self, not_notInBody_iff.mpr ⟨(0 : Fin 1), by decide⟩⟩

/-- A name that the table does not have: the call throws. -/
theorem not_total_listTable :
    ¬ByName.Total listTable (.modify [.size 1] ([99], .size 7) nilUuid) := by
  rintro ⟨r, hr⟩
  obtain rfl := Except.ok.inj hr.call
  exact hr.returns "std::out_of_range" List.mem_cons_self

end Cyng
