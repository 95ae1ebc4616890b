import Cyng.Store.Detection

/-!
# Columns by name

A name stands for the first column that has it. The calls by name turn it into an index of
the body: for a body column this is its place, for a key column a number close to the largest
one, and for an unknown name the largest number itself, which the last key column gets as well.

The four ways to modify one column agree when they reach the column and its hash changes. The
ways that take a map answer true for every record that is there.
-/

namespace Cyng

open Theory

/-! ### What a name stands for -/

/-- Where a column is: at a position of the body, at a position of the key, or nowhere. -/
inductive Place (k n : ℕ)
  | body (idx : Fin n)
  | key (idx : Fin k)
  | nowhere
deriving DecidableEq

namespace Meta

variable (m : Meta)

/-- The place of the first column of a name. -/
def place (name : Bytes) : Place m.keySize m.bodySize :=
  match m.columns.findIdx? fun col => col.name = name with
  | none => .nowhere
  | some idx =>
    if hkey : idx < m.keySize then .key ⟨idx, hkey⟩
    else if hbody : idx - m.keySize < m.bodySize then .body ⟨idx - m.keySize, hbody⟩
    else .nowhere

/-- A column of the body. -/
def bodyColumn (idx : Fin m.bodySize) : Column :=
  m.columns.get ⟨m.keySize + idx, by
    have hidx := idx.isLt
    unfold bodySize size at hidx
    omega⟩

end Meta

/-- The index of the body that the calls by name use for a place. -/
def Place.index {k n : ℕ} : Place k n → BitVec 64
  | body idx => BitVec.ofNat 64 idx
  | key idx => BitVec.ofNat 64 idx - BitVec.ofNat 64 k
  | nowhere => Meta.noColumn

section Index

variable {m : Meta}

theorem ofNat_ne_noColumn {i : ℕ} (h : i + 1 < 2 ^ 64) : BitVec.ofNat 64 i ≠ Meta.noColumn := by
  intro heq
  have hnat := congrArg BitVec.toNat heq
  rw [BitVec.toNat_ofNat, Nat.mod_eq_of_lt (by omega), Meta.noColumn, BitVec.toNat_allOnes]
    at hnat
  omega

/-- `get_body_index_by_name` goes by the place of the name. -/
theorem bodyIndexByName_eq (fits : m.size < 2 ^ 64) (name : Bytes) :
    m.bodyIndexByName name = (m.place name).index := by
  unfold Meta.bodyIndexByName Meta.indexByName Meta.place
  cases hfind : m.columns.findIdx? fun col => col.name = name with
  | none => rfl
  | some idx =>
    have hidx : idx < m.size := (List.findIdx?_eq_some_iff_getElem.mp hfind).1
    have hne : BitVec.ofNat 64 idx ≠ Meta.noColumn := ofNat_ne_noColumn (by omega)
    dsimp only
    rw [if_pos hne]
    split_ifs with hkey hbody
    · rfl
    · show _ = BitVec.ofNat 64 (idx - m.keySize)
      refine BitVec.eq_of_toNat_eq ?_
      simp only [BitVec.toNat_sub, BitVec.toNat_ofNat]
      omega
    · unfold Meta.bodySize at hbody
      omega

theorem keySize_add_bodySize : m.keySize + m.bodySize = m.size :=
  Nat.add_sub_cancel' m.pk_le

variable {k n : ℕ}

theorem toNat_index_body (fits : k + n < 2 ^ 64) (idx : Fin n) :
    (Place.body idx : Place k n).index.toNat = idx := by
  have hidx := idx.isLt
  rw [Place.index, BitVec.toNat_ofNat, Nat.mod_eq_of_lt (by omega)]

/-- The difference wraps around. -/
theorem toNat_index_key (fits : k + n < 2 ^ 64) (idx : Fin k) :
    (Place.key idx : Place k n).index.toNat = 2 ^ 64 - (k - idx) := by
  have hidx := idx.isLt
  simp only [Place.index, BitVec.toNat_sub, BitVec.toNat_ofNat]
  omega

theorem toNat_index_nowhere : (Place.nowhere : Place k n).index.toNat = 2 ^ 64 - 1 := rfl

/-- Only columns of the body have an index of the body. -/
theorem index_lt_iff (fits : k + n < 2 ^ 64) {p : Place k n} :
    p.index.toNat < n ↔ ∃ idx, p = .body idx := by
  cases p with
  | body idx => exact iff_of_true (toNat_index_body fits idx ▸ idx.isLt) ⟨idx, rfl⟩
  | key idx =>
    have hidx := idx.isLt
    refine iff_of_false ?_ (by simp)
    rw [toNat_index_key fits]
    omega
  | nowhere =>
    refine iff_of_false ?_ (by simp)
    rw [toNat_index_nowhere]
    omega

/-- The last key column passes for a column that is not there. -/
theorem index_eq_noColumn_iff (fits : k + n < 2 ^ 64) {p : Place k n} :
    p.index = Meta.noColumn ↔ p = .nowhere ∨ ∃ idx : Fin k, p = .key idx ∧ idx + 1 = k := by
  have hmax : p.index = Meta.noColumn ↔ p.index.toNat = 2 ^ 64 - 1 := by
    rw [← BitVec.toNat_inj]
    rfl
  rw [hmax]
  cases p with
  | body idx =>
    have hidx := idx.isLt
    refine iff_of_false ?_ (by simp)
    rw [toNat_index_body fits]
    omega
  | key idx =>
    have hidx := idx.isLt
    rw [toNat_index_key fits]
    constructor
    · intro h
      exact Or.inr ⟨idx, rfl, by omega⟩
    · rintro (h | ⟨idx', h, hlast⟩)
      · cases h
      · obtain rfl := Place.key.inj h
        omega
  | nowhere => exact iff_of_true rfl (Or.inl rfl)

theorem index_eq_ofNat_iff (fits : k + n < 2 ^ 64) {p : Place k n} {idx : Fin n} :
    p.index = BitVec.ofNat 64 idx ↔ p = .body idx := by
  constructor
  · intro h
    have hnat : p.index.toNat = idx := by
      rw [h]
      exact toNat_index_body fits idx
    obtain ⟨idx', rfl⟩ := (index_lt_iff fits).mp (hnat.trans_lt idx.isLt)
    rw [toNat_index_body fits] at hnat
    rw [Fin.ext hnat]
  · rintro rfl
    rfl

end Index

/-! ### Four ways to modify a column -/

section Overloads

variable {hasher : Hasher} {m : Meta} {b : Build} {t : Table hasher m} {key : List Obj}
  {source : Uuid}

/-- The calls of `modify` that are about one column and one value. -/
def overloads (key : List Obj) (idx : Fin m.bodySize) (value : Obj) (source : Uuid) :
    List (Call m) :=
  [.modify key (BitVec.ofNat 64 idx, value) source,
    .modifyMap key [(BitVec.ofNat 64 idx, value)] source,
    .modifyParam key ((m.bodyColumn idx).name, value) source,
    .modifyParamMap key [((m.bodyColumn idx).name, value)] source]

/-- All of them leave the same table and publish the same events, and they answer true when
the new and the old value are different. -/
def OverloadsAgree (b : Build) (t : Table hasher m) (key : List Obj) (idx : Fin m.bodySize)
    (value : Obj) (source : Uuid) : Prop :=
  ∃ r, (∀ c ∈ overloads key idx value source, t.call b c = .ok r) ∧
    ∃ ok, Output.result (.modified ok) ∈ r.2 ∧
      (ok = true ↔ ∃ row, t.data.find key = some row ∧ row.2.data.get idx ≠ value)

/-- A change that is answered with true was published. -/
theorem change_of_modified_true {idx : BitVec 64} {f : Obj → Obj}
    (h : Output.result (.modified true) ∈ (t.change key idx f source).2) :
    ∃ row, ∃ hidx : idx.toNat < m.bodySize, t.data.find key = some row ∧
      ¬(row.2.data.get ⟨idx.toNat, hidx⟩).same hasher (f (row.2.data.get ⟨idx.toNat, hidx⟩)) ∧
      (published (t.change key idx f source).2).map Event.attr? =
        [some (key, ⟨idx.toNat, hidx⟩, f (row.2.data.get ⟨idx.toNat, hidx⟩))] := by
  cases hfind : t.data.find key with
  | none =>
    simp only [Table.change, hfind] at h
    cases result_mem_answer.mp h
  | some row =>
    by_cases hidx : idx.toNat < m.bodySize
    · by_cases hsame : (row.2.data.get ⟨idx.toNat, hidx⟩).same hasher
          (f (row.2.data.get ⟨idx.toNat, hidx⟩))
      · simp only [Table.change, hfind, dif_pos hidx, if_pos hsame] at h
        cases result_mem_answer.mp h
      · refine ⟨row, hidx, rfl, hsame, ?_⟩
        simp only [Table.change, hfind, dif_pos hidx, if_neg hsame, published_answer]
        rfl
    · simp only [Table.change, hfind, dif_neg hidx] at h
      cases result_mem_answer.mp h

theorem modifyMap_of_find_none (h : t.data.find key = none) (am : List (BitVec 64 × Obj)) :
    t.modifyMap b key am source = .ok (t.answer [] (.modified false)) := by
  rw [Table.modifyMap, h]

theorem change_of_find_none (h : t.data.find key = none) (idx : BitVec 64) (f : Obj → Obj) :
    t.change key idx f source = t.answer [] (.modified false) := by
  rw [Table.change, h]

/-- The map of attributes is answered with true whenever the record is there. -/
theorem modified_true_of_modifyMap {row : List Obj × Body m.bodySize}
    {am : List (BitVec 64 × Obj)} {r : Table hasher m × List (Output m.bodySize)}
    (hfind : t.data.find key = some row) (h : t.modifyMap b key am source = .ok r) :
    Output.result (.modified true) ∈ r.2 := by
  simp only [Table.modifyMap, hfind] at h
  obtain ⟨result, -, hret⟩ := bind_eq_ok_iff.mp h
  obtain rfl := Except.ok.inj hret
  exact result_mem_answer.mpr rfl

/-- One attribute, in a map or not: the same change where the hashes differ. -/
theorem modifyMap_singleton_of_not_same {row : List Obj × Body m.bodySize} {idx : BitVec 64}
    {value : Obj} (hfind : t.data.find key = some row) (hne : idx ≠ Meta.noColumn)
    (hidx : idx.toNat < m.bodySize)
    (differs : ¬(row.2.data.get ⟨idx.toNat, hidx⟩).same hasher value) :
    t.modifyMap b key [(idx, value)] source = .ok (t.change key idx (fun _ => value) source) := by
  have hstep : Table.modifyColumn hasher b key source row.2 (idx, value) =
      .ok (Table.publishAndAssign key source row.2 ⟨idx.toNat, hidx⟩ value) :=
    Table.modifyColumn_of_not_same key source (fun _ => hne) hidx differs
  simp only [Table.modifyMap, Table.change, hfind, Step.run_singleton hstep, dif_pos hidx,
    if_neg differs]
  rfl

/-- The overloads of `modify` agree exactly where the record is absent, or the new value has
another hash than the stored one and the column is the first one of its name. -/
theorem overloadsAgree_iff (fits : m.size < 2 ^ 64) (idx : Fin m.bodySize) (value : Obj) :
    OverloadsAgree b t key idx value source ↔
      ∀ row, t.data.find key = some row → ¬(row.2.data.get idx).same hasher value ∧
        m.place (m.bodyColumn idx).name = .body idx := by
  have hsum : m.keySize + m.bodySize < 2 ^ 64 := keySize_add_bodySize.trans_lt fits
  have hnat : (BitVec.ofNat 64 idx).toNat = idx := toNat_index_body hsum idx
  have hlt : (BitVec.ofNat 64 idx).toNat < m.bodySize := hnat.trans_lt idx.isLt
  have hfin : (⟨(BitVec.ofNat 64 idx).toNat, hlt⟩ : Fin m.bodySize) = idx := Fin.ext hnat
  constructor
  · rintro ⟨r, hcalls, -⟩ row hfind
    have hmodify : t.change key (BitVec.ofNat 64 idx) (fun _ => value) source = r :=
      Except.ok.inj (hcalls (.modify key (BitVec.ofNat 64 idx, value) source)
        List.mem_cons_self)
    have hparam : t.change key (m.bodyIndexByName (m.bodyColumn idx).name) (fun _ => value)
        source = r :=
      Except.ok.inj (hcalls (.modifyParam key ((m.bodyColumn idx).name, value) source)
        (by simp [overloads]))
    have hmap : t.modifyMap b key [(BitVec.ofNat 64 idx, value)] source = .ok r :=
      hcalls (.modifyMap key [(BitVec.ofNat 64 idx, value)] source) (by simp [overloads])
    -- the map is answered with true, so both changes are, and they publish the same column
    have htrue := modified_true_of_modifyMap hfind hmap
    obtain ⟨row', hidx, hfind', hdiffers, hevent⟩ :=
      change_of_modified_true (hmodify.symm ▸ htrue)
    obtain ⟨-, hidx', -, -, hevent'⟩ := change_of_modified_true (hparam.symm ▸ htrue)
    obtain rfl : row = row' := Option.some.inj (hfind.symm.trans hfind')
    rw [hmodify] at hevent
    rw [hparam, hevent] at hevent'
    have hcolumn : (BitVec.ofNat 64 idx).toNat =
        (m.bodyIndexByName (m.bodyColumn idx).name).toNat := by
      simpa using hevent'
    refine ⟨hfin ▸ hdiffers, (index_eq_ofNat_iff hsum).mp ?_⟩
    rw [← bodyIndexByName_eq fits]
    exact (BitVec.eq_of_toNat_eq hcolumn).symm
  · intro h
    cases hfind : t.data.find key with
    | none =>
      refine ⟨t.answer [] (.modified false), ?_, false, result_mem_answer.mpr rfl, by simp [hfind]⟩
      intro c hc
      simp only [overloads, List.mem_cons, List.not_mem_nil, or_false] at hc
      rcases hc with rfl | rfl | rfl | rfl
      · exact congrArg Except.ok (change_of_find_none hfind _ fun _ => value)
      · exact modifyMap_of_find_none hfind _
      · exact congrArg Except.ok (change_of_find_none hfind _ fun _ => value)
      · exact modifyMap_of_find_none hfind _
    | some row =>
      obtain ⟨hdiffers, hplace⟩ := h row hfind
      have hname : m.bodyIndexByName (m.bodyColumn idx).name = BitVec.ofNat 64 idx := by
        rw [bodyIndexByName_eq fits, hplace]
        rfl
      have hdiffers' : ¬(row.2.data.get ⟨(BitVec.ofNat 64 idx).toNat, hlt⟩).same hasher value := by
        rw [hfin]
        exact hdiffers
      have hne : BitVec.ofNat 64 idx.val ≠ Meta.noColumn := by
        have hidx := idx.isLt
        exact ofNat_ne_noColumn (by omega)
      have hmap : t.modifyMap b key [(BitVec.ofNat 64 idx, value)] source =
          .ok (t.change key (BitVec.ofNat 64 idx) (fun _ => value) source) :=
        modifyMap_singleton_of_not_same hfind hne hlt hdiffers'
      refine ⟨t.change key (BitVec.ofNat 64 idx) (fun _ => value) source, ?_, true, ?_, ?_⟩
      · intro c hc
        simp only [overloads, List.mem_cons, List.not_mem_nil, or_false] at hc
        rcases hc with rfl | rfl | rfl | rfl
        · rfl
        · exact hmap
        · simp only [Table.call, Table.modifyParam, Table.modify, hname]
        · simp only [Table.call, Table.modifyParamMap, List.foldl_cons, List.foldl_nil, hname]
          exact hmap
      · exact modified_true_of_modifyMap hfind hmap
      · exact iff_of_true rfl
          ⟨row, hfind, fun heq => hdiffers (congrArg (Obj.hash hasher) heq)⟩

/-- The list of a record is replaced by another one, under the name of its column. -/
theorem overloadsAgree_listTable :
    listMeta.size < 2 ^ 64 ∧
      OverloadsAgree .debug listTable [.size 1] (0 : Fin 1) (.vector [.size 5]) nilUuid := by
  refine ⟨by decide, (overloadsAgree_iff (by decide) _ _).mpr ?_⟩
  intro row hrow
  obtain rfl := Option.some.inj hrow
  exact ⟨by decide, by decide⟩

/-- The stored list itself: one attribute is answered with false, a map with true. -/
theorem not_overloadsAgree_listTable :
    ¬OverloadsAgree .debug listTable [.size 1] (0 : Fin 1) (.vector [.size 3, .size 4])
      nilUuid := by
  rintro ⟨r, hcalls, -⟩
  have hmodify := Except.ok.inj (hcalls _ List.mem_cons_self)
  have hmap := Except.ok.inj (hcalls _ (List.mem_cons_of_mem _ List.mem_cons_self))
  have hfalse : r.2 = [.result (.modified false)] := by
    rw [← hmodify]
    rfl
  have htrue : r.2 = [.result (.modified true)] := by
    rw [← hmap]
    rfl
  cases hfalse.symm.trans htrue

end Overloads

end Cyng
