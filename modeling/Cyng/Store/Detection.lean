import Cyng.Store.Replica

/-!
# Which changes are noticed

`modify`, `compute` and `merge` compare new objects with the stored ones. By value a column
changes when its new object is another one; the generation then counts up by the number of
columns that change, and each of them is published once.

The calls compare hashes, so a change goes unnoticed when the new object has the hash of the
old one, which two containers with the same elements in another order have whatever the
hashes of their leaves are. And a merge answers false when it has changed a record.
-/

namespace Cyng

open Theory

/-! ### Changes by value -/

namespace Body

variable {n : ℕ} (body : Body n) (attrs : List (Fin n × Obj))

/-- The columns whose new object differs from the stored one. -/
def changed : List (Fin n × Obj) :=
  attrs.filter fun attr => body.data.get attr.1 ≠ attr.2

/-- Set columns; the generation counts up once for each column that changes. -/
def assignAll : Body n :=
  ⟨(attrs.foldl (fun body attr => body.assign attr.1 attr.2) body).data,
    body.generation + BitVec.ofNat 64 (body.changed attrs).length⟩

variable {body attrs}

theorem changed_eq_nil_iff :
    body.changed attrs = [] ↔ ∀ attr ∈ attrs, body.data.get attr.1 = attr.2 := by
  simp [changed, List.filter_eq_nil_iff]

/-- To set columns to what they hold leaves the data as they are. -/
theorem data_foldl_assign (h : ∀ attr ∈ attrs, body.data.get attr.1 = attr.2) :
    (attrs.foldl (fun body attr => body.assign attr.1 attr.2) body).data = body.data := by
  induction attrs generalizing body with
  | nil => rfl
  | cons attr attrs ih =>
    obtain ⟨hattr, hattrs⟩ := List.forall_mem_cons.mp h
    have hset : (body.assign attr.1 attr.2).data = body.data := by
      rw [← hattr]
      exact Vector.set_getElem_self _
    have hrest : ∀ rest ∈ attrs, (body.assign attr.1 attr.2).data.get rest.1 = rest.2 := by
      rw [hset]
      exact hattrs
    rw [List.foldl_cons, ih hrest, hset]

/-- To set columns to what they hold changes nothing. -/
theorem assignAll_of_changed_eq_nil (h : body.changed attrs = []) :
    body.assignAll attrs = body := by
  have hdata := data_foldl_assign (changed_eq_nil_iff.mp h)
  have hgeneration : body.generation + BitVec.ofNat 64 (body.changed attrs).length =
      body.generation := by
    rw [h]
    exact BitVec.add_zero _
  rw [assignAll, hdata, hgeneration]

theorem changed_singleton_of_ne {attr : Fin n × Obj} (h : body.data.get attr.1 ≠ attr.2) :
    body.changed [attr] = [attr] := by
  simp [changed, h]

theorem assignAll_singleton_of_ne {attr : Fin n × Obj} (h : body.data.get attr.1 ≠ attr.2) :
    body.assignAll [attr] = body.assign attr.1 attr.2 := by
  rw [assignAll, changed_singleton_of_ne h]
  rfl

end Body

/-- What a modification is about: the key of the record, and the column with its new object. -/
def Event.attr? {n : ℕ} : Event n → Option (List Obj × Fin n × Obj)
  | .modify key attr _ _ _ => some (key, attr)
  | _ => none

/-- The calls that compare new objects with the stored ones. -/
inductive Write (m : Meta)
  | modify (attr : BitVec 64 × Obj)
  | compute (idx : BitVec 64) (f : Obj → Obj)
  | merge (data : List Obj) (generation : BitVec 64)

namespace Write

variable {m : Meta}

def call (key : List Obj) (source : Uuid) : Write m → Call m
  | .modify attr => .modify key attr source
  | .compute idx f => .compute key idx f source
  | .merge data generation => .merge key data generation source

/-- The columns of a record that are written, each with its new object. -/
def attrs (key : List Obj) (body : Body m.bodySize) : Write m → List (Fin m.bodySize × Obj)
  | .modify attr => if h : attr.1.toNat < m.bodySize then [(⟨attr.1.toNat, h⟩, attr.2)] else []
  | .compute idx f =>
    if h : idx.toNat < m.bodySize then
      [(⟨idx.toNat, h⟩, f (body.data.get ⟨idx.toNat, h⟩))]
    else []
  | .merge data _ =>
    if sizes : m.checkIntegrity key data then
      (List.finRange m.bodySize).map fun idx => (idx, (Meta.vector sizes).get idx)
    else []

/-- The hashes tell every new object from the stored one, and a merge has nothing to change. -/
def Noticed (hasher : Hasher) (key : List Obj) (body : Body m.bodySize) (w : Write m) : Prop :=
  match w with
  | .merge .. => ∀ attr ∈ w.attrs key body, body.data.get attr.1 = attr.2
  | _ => ∀ attr ∈ w.attrs key body,
    (body.data.get attr.1).same hasher attr.2 → body.data.get attr.1 = attr.2

end Write

section Detection

variable {hasher : Hasher} {m : Meta} {b : Build} {t : Table hasher m} {key : List Obj}
  {source : Uuid} {w : Write m}

/-- What a call leaves and publishes when changes are found by value. -/
structure ByValue (t : Table hasher m) (w : Write m) (key : List Obj)
    (r : Table hasher m × List (Output m.bodySize)) : Prop where
  absent : t.data.find key = none → ∀ event ∈ published r.2, event.attr? = none
  found : ∀ row, t.data.find key = some row →
    r.1 = t.put key (row.2.assignAll (w.attrs key row.2)) ∧
    (published r.2).map Event.attr? =
      (row.2.changed (w.attrs key row.2)).map fun attr => some (key, attr)
  merged : ∀ ok, Output.result (.merged ok) ∈ r.2 → (ok = true ↔
    (t.data.find key = none ∧ (r.1.data.find key).isSome) ∨
      ∃ row, t.data.find key = some row ∧ row.2.changed (w.attrs key row.2) ≠ [])

/-- The call finds changes by value. -/
def DetectsByValue (b : Build) (t : Table hasher m) (w : Write m) (key : List Obj)
    (source : Uuid) : Prop :=
  ∃ r, t.call b (w.call key source) = .ok r ∧ ByValue t w key r

theorem result_mem_answer {events : List (Event m.bodySize)} {r r' : Result} :
    Output.result r' ∈ (t.answer events r).2 ↔ r' = r := by
  simp [Table.answer]

theorem find_emplace {body : Body m.bodySize} (size : key.length = m.keySize)
    (absent : t.data.find key = none) :
    (t.emplace key body size absent).data.find key = some (key, body) :=
  KeyedRows.find_eq_some_iff.mpr
    ⟨List.mem_append_right _ List.mem_cons_self, (equalTo hasher).refl key⟩

/-- To write back what is there changes no row. -/
theorem put_self {row : List Obj × Body m.bodySize} (h : t.data.find key = some row) :
    t.put key row.2 = t := by
  have hdata : t.data.update key (fun _ => row.2) = t.data := KeyedRows.update_self h
  rw [Table.mk.injEq]
  exact hdata

/-- A call that changes nothing and publishes nothing is right when no column changes. -/
theorem byValue_answer_nil_iff {r : Result} (hr : ∀ ok, r ≠ .merged ok) :
    ByValue t w key (t.answer [] r) ↔
      ∀ row, t.data.find key = some row → row.2.changed (w.attrs key row.2) = [] := by
  constructor
  · intro h row hfind
    have hevents := (h.found row hfind).2
    rw [published_answer, List.map_nil] at hevents
    exact List.map_eq_nil_iff.mp hevents.symm
  · intro h
    refine ⟨fun _ event hevent => ?_, fun row hfind => ?_, fun ok hok => ?_⟩
    · rw [published_answer] at hevent
      exact absurd hevent List.not_mem_nil
    · rw [Body.assignAll_of_changed_eq_nil (h row hfind), put_self hfind, h row hfind,
        published_answer]
      exact ⟨rfl, rfl⟩
    · exact absurd (result_mem_answer.mp hok).symm (hr ok)

section Change

variable {idx : BitVec 64} {f : Obj → Obj} {row : List Obj × Body m.bodySize}

/-- The column of the call changes, and the hashes show it. -/
theorem byValue_change_of_not_same (hfind : t.data.find key = some row)
    (hidx : idx.toNat < m.bodySize)
    (differs : ¬(row.2.data.get ⟨idx.toNat, hidx⟩).same hasher
      (f (row.2.data.get ⟨idx.toNat, hidx⟩)))
    (hattrs : w.attrs key row.2 =
      [(⟨idx.toNat, hidx⟩, f (row.2.data.get ⟨idx.toNat, hidx⟩))]) :
    ByValue t w key (t.change key idx f source) := by
  have hne : row.2.data.get ⟨idx.toNat, hidx⟩ ≠ f (row.2.data.get ⟨idx.toNat, hidx⟩) :=
    fun h => differs (congrArg (Obj.hash hasher) h)
  simp only [Table.change, hfind, dif_pos hidx, if_neg differs]
  refine ⟨fun h => ?_, fun row' hrow' => ?_, fun ok hok => ?_⟩
  · rw [hfind] at h
    cases h
  · obtain rfl : row = row' := Option.some.inj (hfind.symm.trans hrow')
    rw [hattrs, Body.assignAll_singleton_of_ne hne, Body.changed_singleton_of_ne hne,
      published_answer]
    exact ⟨rfl, rfl⟩
  · cases result_mem_answer.mp hok

/-- Changing one column finds changes by value where the hashes tell the two objects apart. -/
theorem byValue_change_iff
    (hattrs : ∀ body, w.attrs key body = if h : idx.toNat < m.bodySize then
      [(⟨idx.toNat, h⟩, f (body.data.get ⟨idx.toNat, h⟩))] else []) :
    ByValue t w key (t.change key idx f source) ↔
      ∀ row, t.data.find key = some row → ∀ attr ∈ w.attrs key row.2,
        (row.2.data.get attr.1).same hasher attr.2 → row.2.data.get attr.1 = attr.2 := by
  -- in three of the four cases nothing is published
  have hstill : ∀ r, (∀ ok, r ≠ .merged ok) → t.change key idx f source = t.answer [] r →
      (ByValue t w key (t.change key idx f source) ↔
        ∀ row, t.data.find key = some row → row.2.changed (w.attrs key row.2) = []) :=
    fun r hr hcall => hcall ▸ byValue_answer_nil_iff hr
  cases hfind : t.data.find key with
  | none =>
    rw [hstill (.modified false) (by simp) (by rw [Table.change, hfind]), hfind]
    exact iff_of_true (by simp) (by simp)
  | some row =>
    by_cases hidx : idx.toNat < m.bodySize
    · have hrow := hattrs row.2
      rw [dif_pos hidx] at hrow
      by_cases hsame : (row.2.data.get ⟨idx.toNat, hidx⟩).same hasher
          (f (row.2.data.get ⟨idx.toNat, hidx⟩))
      · have hcall : t.change key idx f source = t.answer [] (.modified false) := by
          simp only [Table.change, hfind, dif_pos hidx, if_pos hsame]
        rw [hstill _ (by simp) hcall, hfind]
        simp [Body.changed_eq_nil_iff, hrow, hsame]
      · refine iff_of_true (byValue_change_of_not_same hfind hidx hsame hrow) ?_
        rintro row' hrow' attr hattr h
        obtain rfl : row = row' := Option.some.inj hrow'
        rw [hrow] at hattr
        rw [List.mem_singleton.mp hattr] at h
        exact absurd h hsame
    · have hcall : t.change key idx f source = t.answer [] (.thrown "std::out_of_range") := by
        simp only [Table.change, hfind, dif_neg hidx]
      rw [hstill _ (by simp) hcall, hfind]
      simp [Body.changed_eq_nil_iff, hattrs, hidx]

end Change

section Merge

variable {data : List Obj} {generation : BitVec 64}

/-- A row of a new key is inserted, and the answer says so. -/
theorem byValue_merge_of_absent (sizes : m.checkIntegrity key data)
    (hfind : t.data.find key = none) :
    ∃ r, t.merge key data generation source = .ok r ∧
      ByValue t (.merge data generation) key r := by
  refine ⟨_, Table.merge_of_find_none sizes hfind, fun _ event hevent => ?_,
    fun row hrow => ?_, fun ok hok => ?_⟩
  · rw [published_answer] at hevent
    rw [List.mem_singleton.mp hevent]
    rfl
  · rw [hfind] at hrow
    cases hrow
  · cases result_mem_answer.mp hok
    rw [answer_fst, find_emplace sizes.1 hfind]
    exact iff_of_true rfl (Or.inl ⟨hfind, rfl⟩)

/-- With a row of the same key the answer is false, whatever changes. -/
theorem byValue_merge_of_find_iff {row : List Obj × Body m.bodySize}
    (sizes : m.checkIntegrity key data) (hfind : t.data.find key = some row) :
    (∃ r, t.merge key data generation source = .ok r ∧
        ByValue t (.merge data generation) key r) ↔
      row.2.changed ((Write.merge data generation).attrs key row.2) = [] := by
  have hcall : t.merge key data generation source = _ := Table.merge_of_find sizes hfind
  constructor
  · rintro ⟨r, hr, hvalue⟩
    obtain ⟨result, -, hret⟩ := bind_eq_ok_iff.mp (hcall.symm.trans hr)
    obtain rfl := Except.ok.inj hret
    -- the answer is false, so there was nothing to change
    by_contra hne
    have htrue := (hvalue.merged false (result_mem_answer.mpr rfl)).mpr
      (Or.inr ⟨row, hfind, hne⟩)
    cases htrue
  · intro hnil
    have hsame : ∀ idx, (row.2.data.get idx).same hasher ((Meta.vector sizes).get idx) := by
      intro idx
      have hattr : (idx, (Meta.vector sizes).get idx) ∈
          (Write.merge data generation).attrs key row.2 := by
        rw [Write.attrs, dif_pos sizes]
        exact List.mem_map_of_mem (List.mem_finRange idx)
      exact congrArg (Obj.hash hasher) (Body.changed_eq_nil_iff.mp hnil _ hattr)
    refine ⟨(t.put key row.2).answer [] (.merged false), ?_, ?_, ?_, ?_⟩
    · rw [hcall, update_of_same hsame]
      rfl
    · intro hnone
      rw [hfind] at hnone
      cases hnone
    · intro row' hrow'
      obtain rfl : row = row' := Option.some.inj (hfind.symm.trans hrow')
      rw [Body.assignAll_of_changed_eq_nil hnil, hnil, published_answer]
      exact ⟨rfl, rfl⟩
    · intro ok hok
      cases result_mem_answer.mp hok
      simp [hfind, hnil]

/-- A key or a body of another size is refused, and nothing changes. -/
theorem byValue_merge_of_not_checkIntegrity (sizes : ¬m.checkIntegrity key data) :
    (∃ r, t.merge key data generation source = .ok r ∧
        ByValue t (.merge data generation) key r) ∧
      ∀ row : List Obj × Body m.bodySize,
        row.2.changed ((Write.merge data generation).attrs key row.2) = [] := by
  have hattrs : ∀ row : List Obj × Body m.bodySize,
      row.2.changed ((Write.merge data generation).attrs key row.2) = [] := by
    intro row
    rw [Write.attrs, dif_neg sizes]
    rfl
  refine ⟨⟨t.answer [] (.merged false), ?_, ?_, ?_, ?_⟩, hattrs⟩
  · simp only [Table.merge, dif_neg sizes]
  · simp
  · intro row hrow
    rw [Body.assignAll_of_changed_eq_nil (hattrs row), put_self hrow, hattrs row,
      published_answer]
    exact ⟨rfl, rfl⟩
  · intro ok hok
    cases result_mem_answer.mp hok
    simp only [answer_fst, hattrs, ne_eq, not_true, and_false, exists_false, or_false,
      Bool.false_eq_true, false_iff, not_and]
    intro hnone
    simp [hnone]

/-- A merge finds changes by value where there are none: it answers false whenever it does
not insert. -/
theorem byValue_merge_iff :
    (∃ r, t.merge key data generation source = .ok r ∧
        ByValue t (.merge data generation) key r) ↔
      ∀ row, t.data.find key = some row →
        row.2.changed ((Write.merge data generation).attrs key row.2) = [] := by
  by_cases sizes : m.checkIntegrity key data
  · cases hfind : t.data.find key with
    | none => exact iff_of_true (byValue_merge_of_absent sizes hfind) (by simp)
    | some row =>
      rw [byValue_merge_of_find_iff sizes hfind]
      exact ⟨fun h row' hrow' => by cases hrow'; exact h, fun h => h row rfl⟩
  · obtain ⟨hmerge, hattrs⟩ := byValue_merge_of_not_checkIntegrity (t := t) sizes
    exact iff_of_true hmerge fun row _ => hattrs row

end Merge

/-- `modify`, `compute` and `merge` find changes by value exactly where the hash of every new
object that differs from the stored one differs as well, and where a merge into a record has
nothing to change. -/
theorem detectsByValue_iff :
    DetectsByValue b t w key source ↔
      ∀ row, t.data.find key = some row → w.Noticed hasher key row.2 := by
  cases w with
  | modify attr =>
    have hcall : DetectsByValue b t (.modify attr) key source ↔
        ByValue t (.modify attr) key (t.change key attr.1 (fun _ => attr.2) source) := by
      simp [DetectsByValue, Write.call, Table.call, Table.modify]
    exact hcall.trans (byValue_change_iff fun _ => rfl)
  | compute idx f =>
    have hcall : DetectsByValue b t (.compute idx f) key source ↔
        ByValue t (.compute idx f) key (t.change key idx f source) := by
      simp [DetectsByValue, Write.call, Table.call, Table.compute]
    exact hcall.trans (byValue_change_iff fun _ => rfl)
  | merge data generation =>
    refine byValue_merge_iff.trans ?_
    simp only [Body.changed_eq_nil_iff]
    rfl

end Detection

/-- A table with a number for a key and a list for a body. -/
def listMeta : Meta where
  name := []
  columns := [⟨[97], .uint64⟩, ⟨[98], .vector⟩]
  pk := 1
  pk_le := by decide

/-- One record. -/
def listTable : Table .numbers listMeta :=
  ((Table.empty : Table .numbers listMeta).insert [.size 1] [.vector [.size 3, .size 4]] 1
    nilUuid).1

/-- A merge replaces the list and answers false. To turn the list around is no change. -/
theorem not_detectsByValue_listTable :
    ¬DetectsByValue .debug listTable (.merge [.vector [.size 5]] 1) [.size 1] nilUuid ∧
      ¬DetectsByValue .debug listTable (.modify (0, .vector [.size 4, .size 3])) [.size 1]
        nilUuid := by
  have hfind : listTable.data.find [.size 1] =
      some ([.size 1], ⟨#v[.vector [.size 3, .size 4]], 1⟩) := rfl
  constructor
  · rintro ⟨r, hr, h⟩
    obtain rfl := Except.ok.inj hr
    have htrue := (h.merged false (List.mem_append_right _ List.mem_cons_self)).mpr
      (Or.inr ⟨_, hfind, by decide⟩)
    cases htrue
  · rintro ⟨r, hr, h⟩
    obtain rfl := Except.ok.inj hr
    have hevents := (h.found _ hfind).2
    have hchanged : (Body.mk #v[.vector [.size 3, .size 4]] 1 : Body listMeta.bodySize).changed
        [((0 : Fin 1), .vector [.size 4, .size 3])] ≠ [] := by decide
    exact hchanged (List.map_eq_nil_iff.mp hevents.symm)

end Cyng
