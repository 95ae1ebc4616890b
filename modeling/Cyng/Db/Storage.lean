import Cyng.Db.Result
import Cyng.Store.Facade
import Cyng.Store.MetaSql
import Cyng.Theory.Numerals

/-!
# Loading records

A row of a result becomes a record. The cells are fetched one by one in the order of the columns
of the SQL table; those of the key go to the key, the cell of the generation is taken out, and
the others are the body. The record has the meta data of the table in memory, in which there is
no column for the generation, so that a body column is one place nearer to the key there than in
the row.
-/

namespace Cyng

open Theory

/-! ### Numbers -/

/-- The number that an integer stands for. -/
def IntType.value (ty : IntType) (v : BitVec (8 * ty.size)) : ℤ :=
  match ty with
  | .uint8 | .uint16 | .uint32 | .uint64 => v.toNat
  | .int8 | .int16 | .int32 | .int64 => v.toInt

/-- `boost::numeric_cast<std::uint64_t>`, with a default in place of the exception. -/
def castUint64 (n : ℤ) (dflt : BitVec 64) : BitVec 64 :=
  if IntType.uint64.min ≤ n ∧ n ≤ IntType.uint64.max then BitVec.ofInt 64 n else dflt

/-- `string_to_numeric<std::uint64_t>`: what a stream reads. A sign is allowed, and a number that
is too large becomes the largest one. -/
def stringToNumeric (str : Bytes) : BitVec 64 :=
  match scan 10 str with
  | none => 0
  | some (negative, n) =>
    if 2 ^ 64 ≤ n then BitVec.allOnes 64
    else if negative then -BitVec.ofNat 64 n else BitVec.ofNat 64 n

section NumericCast

-- `static_cast<std::uint64_t>` of a floating point number
variable (truncate : (ty : FloatType) → BitVec (8 * ty.size) → BitVec 64)

/-- `numeric_cast<std::uint64_t>` -/
def numericCast (obj : Obj) (dflt : BitVec 64) : BitVec 64 :=
  match obj with
  -- the limits of the type, the other way round
  | .scalar (.bool v) => if v then 0 else BitVec.allOnes 64
  | .scalar (.char v) => castUint64 v.toInt dflt
  | .scalar (.int ty v) => castUint64 (ty.value v) dflt
  | .scalar (.float ty bits) => truncate ty bits
  | .scalar (.string str) => stringToNumeric str
  | _ => dflt

@[simp] theorem numericCast_uint64 (g dflt : BitVec 64) :
    numericCast truncate (.scalar (.int .uint64 g)) dflt = g := by
  have hlt : (g.toNat : ℤ) ≤ IntType.uint64.max := by
    have h := g.isLt
    simp only [IntType.max, IntType.size]
    omega
  have hcast : castUint64 g.toNat dflt = BitVec.ofInt 64 g.toNat :=
    if_pos ⟨Int.natCast_nonneg _, hlt⟩
  show castUint64 g.toNat dflt = g
  rw [hcast, BitVec.ofInt_natCast, BitVec.ofNat_toNat, BitVec.setWidth_eq]

@[simp] theorem numericCast_null (dflt : BitVec 64) :
    numericCast truncate (.scalar .null) dflt = dflt := rfl

end NumericCast

/-! ### Records -/

namespace MetaOf

variable (m : MetaOf Column)

/-- `meta::get_index_by_name` -/
def indexByName (name : Bytes) : ℕ :=
  match m.columns.findIdx? fun col => col.name = name with
  | some idx => idx
  | none => 2 ^ 64 - 1

/-- `meta::check_integrity` -/
def checkIntegrity (key data : List Obj) : Prop :=
  key.length = m.pk ∧ data.length = m.columns.length - m.pk

end MetaOf

/-- `record`, with meta data of its own. -/
structure LoadedRecord where
  m : MetaOf Column
  key : List Obj
  data : List Obj
  gen : BitVec 64

namespace LoadedRecord

variable (r : LoadedRecord)

/-- `record::get_data` -/
def getData (idx : ℕ) : Obj := r.data[idx]?.getD (.scalar .null)

/-- `record::at(std::size_t)` -/
def atIndex (idx : ℕ) : Except Fault Obj :=
  if idx < r.m.columns.length then
    if idx < r.m.pk then
      match r.key[idx]? with
      | some obj => .ok obj
      | none => .error (.exception "std::out_of_range")
    else .ok (r.getData (idx - r.m.pk))
  else .ok (.scalar .null)

/-- `record::at(std::string)` -/
def atName (name : Bytes) : Except Fault Obj := r.atIndex (r.m.indexByName name)

end LoadedRecord

/-- A record of a table is looked into the same way. -/
theorem recordAt_eq_atName {m : Meta} (fits : m.size < 2 ^ 64) (key data : List Obj)
    (gen : BitVec 64) (name : Bytes) :
    recordAt m key data name = LoadedRecord.atName ⟨m.toMetaOf, key, data, gen⟩ name := by
  have hidx : (m.indexByName name).toNat = m.toMetaOf.indexByName name := by
    unfold Meta.indexByName MetaOf.indexByName Meta.toMetaOf
    cases hfind : m.columns.findIdx? fun col => col.name = name with
    | none => rfl
    | some idx =>
      have hlt : idx < m.size := (List.findIdx?_eq_some_iff_getElem.mp hfind).1
      simp only [BitVec.toNat_ofNat]
      omega
  simp only [recordAt, hidx]
  rfl

/-! ### Rows -/

/-- `result_interface`: a row, whose columns are counted from one. The caller names the type and
the width of a column. -/
structure ResultInterface where
  get : ℕ → TypeCode → BitVec 64 → Except Fault Obj

/-- A row of SQLite, which does not look at the width. -/
def sqliteResult (f : Formats) (sq : Sqlite) (b : Build) (row : List Cell) : ResultInterface where
  get index code _ := do
    let v ← get f sq b row index code
    return .scalar v

/-- What the loop of `to_record` works on. -/
structure Fetched where
  index : ℕ
  key : List Obj
  data : List Obj
  generation : BitVec 64

namespace Fetched

variable (s : Fetched) (obj : Obj)

def addKey : Fetched := { s with index := s.index + 1, key := s.key ++ [obj] }

def addData : Fetched := { s with index := s.index + 1, data := s.data ++ [obj] }

def setGeneration (truncate : (ty : FloatType) → BitVec (8 * ty.size) → BitVec 64) : Fetched :=
  { s with index := s.index + 1, generation := numericCast truncate obj 0 }

end Fetched

section ToRecord

variable (truncate : (ty : FloatType) → BitVec (8 * ty.size) → BitVec 64)
  (result : ResultInterface)

/-- One round of the loop of `to_record`. -/
def fetchColumn (s : Fetched) (_ : ℕ) (col : ColumnSql) (pk : Bool) : Except Fault Fetched := do
  let obj ← result.get s.index col.type col.width
  -- the null object is an object as well: what was fetched is never left out
  return if pk then s.addKey obj
    else if col.name = gen ∧ col.type = .uint64 then s.setGeneration obj truncate
    else s.addData obj

/-- `to_record` -/
def toRecord (b : Build) (ms : MetaOf ColumnSql) (result : Option ResultInterface) :
    Except Fault LoadedRecord := do
  let m ← toMem b ms
  match result with
  | none => return ⟨m, [], [], 0⟩
  | some result => do
    let s ← ms.loop (fetchColumn truncate result) ⟨1, [], [], 0⟩
    return ⟨m, s.key, s.data, s.generation⟩

/-- The objects of some columns, the first of which has the number `index`. -/
def readCells : ℕ → List ColumnSql → Except Fault (List Obj)
  | _, [] => .ok []
  | index, col :: cols => do
    let obj ← result.get index col.type col.width
    let objs ← readCells (index + 1) cols
    return obj :: objs

/-- A row with one cell for each column. A cell that is NULL is read as the null object. -/
def HasCells (sql : MetaOf ColumnSql) : Prop :=
  ∀ j col, sql.columns[j]? = some col → ∃ obj, result.get (j + 1) col.type col.width = .ok obj

end ToRecord

section Cells

variable {result : ResultInterface} {index : ℕ} {cols : List ColumnSql}

theorem exists_readCells (h : ∀ j col, cols[j]? = some col →
    ∃ obj, result.get (index + j) col.type col.width = .ok obj) :
    ∃ objs, readCells result index cols = .ok objs := by
  induction cols generalizing index with
  | nil => exact ⟨[], rfl⟩
  | cons col cols ih =>
    obtain ⟨obj, hobj⟩ : ∃ obj, result.get index col.type col.width = .ok obj := h 0 col rfl
    obtain ⟨objs, hobjs⟩ := ih fun j c hc => by
      have hnext := h (j + 1) c hc
      rwa [← Nat.add_assoc, Nat.add_right_comm] at hnext
    exact ⟨obj :: objs, by rw [readCells, hobj, ok_bind, hobjs]; rfl⟩

/-- What was read for a column is the object of its cell. -/
theorem getElem?_of_readCells {objs : List Obj} (h : readCells result index cols = .ok objs) :
    objs.length = cols.length ∧ ∀ j col, cols[j]? = some col →
      ∃ obj, objs[j]? = some obj ∧ result.get (index + j) col.type col.width = .ok obj := by
  induction cols generalizing index objs with
  | nil =>
    obtain rfl := Except.ok.inj h
    exact ⟨rfl, by simp⟩
  | cons col cols ih =>
    obtain ⟨obj, hobj, hrest⟩ := bind_eq_ok_iff.mp h
    obtain ⟨rest, hread, hcons⟩ := bind_eq_ok_iff.mp hrest
    obtain rfl := Except.ok.inj hcons
    obtain ⟨hlength, hcells⟩ := ih hread
    refine ⟨by rw [List.length_cons, hlength, List.length_cons], ?_⟩
    intro j c hc
    cases j with
    | zero =>
      obtain rfl : col = c := by simpa using hc
      exact ⟨obj, rfl, hobj⟩
    | succ j =>
      obtain ⟨obj', hobj', hget⟩ := hcells j c (by simpa using hc)
      rw [Nat.add_assoc, Nat.add_comm 1] at hget
      exact ⟨obj', by simpa using hobj', hget⟩

end Cells

/-! ### The loop -/

section Loop

variable {truncate : (ty : FloatType) → BitVec (8 * ty.size) → BitVec 64}
  {result : ResultInterface} {pk : ℕ}

theorem foldl_addKey (objs : List Obj) (s : Fetched) :
    objs.foldl Fetched.addKey s =
      { s with index := s.index + objs.length, key := s.key ++ objs } := by
  induction objs generalizing s with
  | nil => simp
  | cons obj objs ih =>
    rw [List.foldl_cons, ih]
    simp only [Fetched.addKey, List.length_cons, List.append_assoc, List.singleton_append,
      Nat.add_right_comm, Nat.add_assoc]

theorem foldl_addData (objs : List Obj) (s : Fetched) :
    objs.foldl Fetched.addData s =
      { s with index := s.index + objs.length, data := s.data ++ objs } := by
  induction objs generalizing s with
  | nil => simp
  | cons obj objs ih =>
    rw [List.foldl_cons, ih]
    simp only [Fetched.addData, List.length_cons, List.append_assoc, List.singleton_append,
      Nat.add_right_comm, Nat.add_assoc]

/-- Where every round puts its object at the same place, the loop reads the cells and puts their
objects there. -/
theorem foldlM_fetchColumn {put : Fetched → Obj → Fetched}
    (hindex : ∀ s obj, (put s obj).index = s.index + 1) {cols : List ColumnSql} {i : ℕ}
    (hvisit : ∀ s, ∀ col ∈ cols.zipIdx i, MetaOf.visit pk (fetchColumn truncate result) s col =
      (result.get s.index col.1.type col.1.width >>= fun obj => .ok (put s obj)))
    (s : Fetched) :
    (cols.zipIdx i).foldlM (MetaOf.visit pk (fetchColumn truncate result)) s =
      (readCells result s.index cols >>= fun objs => .ok (objs.foldl put s)) := by
  induction cols generalizing i s with
  | nil => rfl
  | cons col cols ih =>
    have hhead := hvisit s (col, i) List.mem_cons_self
    rw [List.zipIdx_cons, List.foldlM_cons, hhead, readCells]
    cases hget : result.get s.index col.type col.width with
    | error fault => rfl
    | ok obj =>
      have htail := ih (fun s' c hc => hvisit s' c (List.mem_cons_of_mem _ hc)) (put s obj)
      rw [ok_bind, ok_bind, htail, hindex]
      cases readCells result (s.index + 1) cols <;> rfl

/-- Every column of the key is put into the key. -/
theorem foldlM_fetchColumn_key {cols : List ColumnSql} (hkey : cols.length ≤ pk) (s : Fetched) :
    cols.zipIdx.foldlM (MetaOf.visit pk (fetchColumn truncate result)) s =
      (readCells result s.index cols >>= fun objs => .ok (objs.foldl Fetched.addKey s)) := by
  apply foldlM_fetchColumn (fun _ _ => rfl)
  intro s col hcol
  have hlt : col.2 < pk := by
    have h := (List.mem_zipIdx hcol).2.1
    omega
  simp [MetaOf.visit, fetchColumn, hlt]

/-- Every column of the body but the one for the generation is put into the data. -/
theorem foldlM_fetchColumn_body {cols : List ColumnSql} {i : ℕ} (hi : pk ≤ i)
    (hnames : ∀ col ∈ cols, col.name ≠ gen) (s : Fetched) :
    (cols.zipIdx i).foldlM (MetaOf.visit pk (fetchColumn truncate result)) s =
      (readCells result s.index cols >>= fun objs => .ok (objs.foldl Fetched.addData s)) := by
  apply foldlM_fetchColumn (fun _ _ => rfl)
  intro s col hcol
  have hge : ¬col.2 < pk := by
    have h := (List.mem_zipIdx hcol).1
    omega
  have hname : col.1.name ≠ gen := hnames col.1 (List.fst_mem_of_mem_zipIdx hcol)
  simp [MetaOf.visit, fetchColumn, hge, hname]

/-- The loop over a table whose column for the generation is the first one behind the key. -/
theorem loop_fetchColumn {ms : MetaOf ColumnSql} {key body : List ColumnSql} {g : ColumnSql}
    (hcolumns : ms.columns = key ++ g :: body) (hkey : key.length = ms.pk)
    (hname : g.name = gen) (htype : g.type = .uint64) (hbody : ∀ col ∈ body, col.name ≠ gen) :
    ms.loop (fetchColumn truncate result) ⟨1, [], [], 0⟩ = do
      let ks ← readCells result 1 key
      let obj ← result.get (ms.pk + 1) g.type g.width
      let ds ← readCells result (ms.pk + 2) body
      return ⟨ms.pk + 2 + ds.length, ks, ds, numericCast truncate obj 0⟩ := by
  have hzip : ms.columns.zipIdx = key.zipIdx ++ (g, ms.pk) :: body.zipIdx (ms.pk + 1) := by
    rw [hcolumns, List.zipIdx_append, List.zipIdx_cons, hkey, zero_add]
  rw [MetaOf.loop, hzip, List.foldlM_append, foldlM_fetchColumn_key hkey.le]
  cases hks : readCells result 1 key with
  | error fault => rfl
  | ok ks =>
    -- the cell of the generation is the one behind those of the key
    have hlength : ks.length = ms.pk := (getElem?_of_readCells hks).1.trans hkey
    have hvisit (s : Fetched) :
        MetaOf.visit ms.pk (fetchColumn truncate result) s (g, ms.pk) =
          (result.get s.index g.type g.width >>= fun obj =>
            .ok (s.setGeneration obj truncate)) := by
      simp [MetaOf.visit, fetchColumn, hname, htype]
    simp only [ok_bind, List.foldlM_cons, hvisit, foldl_addKey, hlength, List.nil_append,
      Nat.add_comm 1]
    cases result.get (ms.pk + 1) g.type g.width with
    | error fault => rfl
    | ok obj =>
      rw [ok_bind, ok_bind, ok_bind, foldlM_fetchColumn_body (Nat.le_succ _) hbody]
      simp only [Fetched.setGeneration, foldl_addData, List.nil_append]
      rfl

end Loop

/-! ### Names -/

/-- Where the names are distinct, the name of a column leads to it. -/
theorem indexByName_of_getElem? {m : MetaOf Column} (hnames : (m.columns.map Column.name).Nodup)
    {i : ℕ} {col : Column} (h : m.columns[i]? = some col) : m.indexByName col.name = i := by
  obtain ⟨hi, rfl⟩ := List.getElem?_eq_some_iff.mp h
  have hfind : m.columns.findIdx? (fun c => c.name = m.columns[i].name) = some i := by
    refine List.findIdx?_eq_some_iff_getElem.mpr ⟨hi, by simp, fun j hj => ?_⟩
    -- an earlier column has another name
    have hne := List.pairwise_iff_getElem.mp hnames j i (by simpa using hj.trans hi)
      (by simpa using hi) hj
    simpa using hne
  rw [MetaOf.indexByName, hfind]

/-- A record is looked into as if the data stood behind the key. -/
theorem atName_of_getElem? {r : LoadedRecord} (hnames : (r.m.columns.map Column.name).Nodup)
    (hkey : r.key.length = r.m.pk) {i : ℕ} {col : Column} (hcol : r.m.columns[i]? = some col)
    {obj : Obj} (hobj : (r.key ++ r.data)[i]? = some obj) : r.atName col.name = .ok obj := by
  have hi : i < r.m.columns.length := (List.getElem?_eq_some_iff.mp hcol).1
  rw [LoadedRecord.atName, indexByName_of_getElem? hnames hcol, LoadedRecord.atIndex, if_pos hi]
  by_cases hpk : i < r.m.pk
  · rw [List.getElem?_append_left (hkey ▸ hpk)] at hobj
    rw [if_pos hpk, hobj]
  · rw [List.getElem?_append_right (by omega), hkey] at hobj
    rw [if_neg hpk, LoadedRecord.getData, hobj]
    rfl

/-! ### What is loaded -/

/-- The record of a row: its meta data fit the key and the data, the generation is the value of
its cell, and the name of a column of the table leads to the object of the cell under this name. -/
structure Loads (truncate : (ty : FloatType) → BitVec (8 * ty.size) → BitVec 64)
    (result : ResultInterface) (m : MetaOf Column) (sql : MetaOf ColumnSql)
    (mem : MetaOf Column) (r : LoadedRecord) : Prop where
  m_eq : r.m = mem
  integrity : mem.checkIntegrity r.key r.data
  generation : ∀ j col obj, sql.columns[j]? = some col → col.name = gen →
    result.get (j + 1) col.type col.width = .ok obj → r.gen = numericCast truncate obj 0
  generation_value : ∀ j col (g : BitVec 64), sql.columns[j]? = some col → col.name = gen →
    result.get (j + 1) col.type col.width = .ok (.scalar (.int .uint64 g)) → r.gen = g
  selected : ∀ col ∈ m.columns, ∃ (j : ℕ) (c : ColumnSql),
    sql.columns[j]? = some c ∧ c.toColumn = col
  atName : ∀ j c, sql.columns[j]? = some c → c.name ≠ gen →
    r.atName c.name = result.get (j + 1) c.type c.width

section Loaded

variable {truncate : (ty : FloatType) → BitVec (8 * ty.size) → BitVec 64}
  {result : ResultInterface} {m : MetaOf Column} {width : List (BitVec 64)} {b : Build}

/-- The columns of the SQL table: those of the key, the generation, and those of the body. -/
theorem exists_columns_toSql (hpk : m.pk < m.columns.length)
    (hwidth : width.length = m.columns.length) :
    ∃ key g body, toSql b m width = .ok ⟨sqlName m.name, key ++ g :: body, m.pk⟩ ∧
      key.length = m.pk ∧ g.toColumn = ⟨gen, .uint64⟩ ∧
      (key ++ body).map ColumnSql.toColumn = m.columns := by
  obtain ⟨vec, hsql, hcols⟩ := toSql_eq (b := b) hpk hwidth
  obtain ⟨key, rest, rfl, hkey, hrest⟩ := List.map_eq_append_iff.mp hcols
  obtain ⟨g, body, rfl, hg, hbody⟩ := List.map_eq_cons_iff.mp hrest
  refine ⟨key, g, body, hsql, ?_, hg, ?_⟩
  · have hlength := congrArg List.length hkey
    rw [List.length_map, List.length_take] at hlength
    omega
  · rw [List.map_append, hkey, hbody, List.take_append_drop]

/-- Without columns of the user that are named like the generation, only the name of the table
may have changed. -/
theorem toMem_of_columns {key body : List ColumnSql} {g : ColumnSql} {name : Bytes}
    (hpk : m.pk < m.columns.length) (hg : g.toColumn = ⟨gen, .uint64⟩)
    (hcols : (key ++ body).map ColumnSql.toColumn = m.columns)
    (hgen : ∀ col ∈ m.columns, col.name ≠ gen) :
    toMem b ⟨name, key ++ g :: body, m.pk⟩ = .ok ⟨memName name, m.columns, m.pk⟩ := by
  have hfilter : ((key ++ g :: body).map ColumnSql.toColumn).filter (fun col => col.name ≠ gen) =
      m.columns := by
    rw [List.map_append, List.map_cons, List.filter_append, hg,
      List.filter_cons_of_neg (by simp), ← List.filter_append, ← List.map_append, hcols]
    exact List.filter_eq_self.mpr fun col hcol => by simpa using hgen col hcol
  rw [toMem_eq, hfilter, MetaOf.make, Build.check_of hpk]
  rfl

section Positions

variable {α : Type} {xs ys : List α} {x c : α}

theorem getElem?_behind (k : ℕ) : (xs ++ x :: ys)[xs.length + 1 + k]? = ys[k]? := by
  have hsub : xs.length + 1 + k - xs.length = k + 1 := by omega
  rw [List.getElem?_append_right (by omega), hsub, List.getElem?_cons_succ]

/-- A column is in front of the generation, it is the generation, or it is behind. -/
theorem of_getElem?_append_cons {j : ℕ} (h : (xs ++ x :: ys)[j]? = some c) :
    xs[j]? = some c ∨ (j = xs.length ∧ c = x) ∨ ∃ k, j = xs.length + 1 + k ∧ ys[k]? = some c := by
  rcases Nat.lt_trichotomy j xs.length with hlt | rfl | hgt
  · rw [List.getElem?_append_left hlt] at h
    exact Or.inl h
  · exact Or.inr (Or.inl ⟨rfl, by simpa using h.symm⟩)
  · obtain ⟨k, rfl⟩ : ∃ k, j = xs.length + 1 + k := Nat.exists_eq_add_of_le hgt
    rw [getElem?_behind] at h
    exact Or.inr (Or.inr ⟨k, rfl, h⟩)

end Positions

/-- A cell of the row that is not the one of the generation is the object in the same place of
the key and the data together. -/
theorem exists_getElem?_of_cell {key body : List ColumnSql} {g : ColumnSql} {ks ds : List Obj}
    (hg : g.toColumn = ⟨gen, .uint64⟩) (hks : readCells result 1 key = .ok ks)
    (hds : readCells result (key.length + 2) body = .ok ds) {j : ℕ} {c : ColumnSql}
    (hc : (key ++ g :: body)[j]? = some c) (hname : c.name ≠ gen) :
    ∃ (i : ℕ) (obj : Obj), ((key ++ body).map ColumnSql.toColumn)[i]? = some c.toColumn ∧
      (ks ++ ds)[i]? = some obj ∧ result.get (j + 1) c.type c.width = .ok obj := by
  obtain ⟨hlength, hkey⟩ := getElem?_of_readCells hks
  obtain ⟨-, hbody⟩ := getElem?_of_readCells hds
  rcases of_getElem?_append_cons hc with hfront | ⟨-, rfl⟩ | ⟨k, rfl, hbehind⟩
  · have hlt : j < key.length := (List.getElem?_eq_some_iff.mp hfront).1
    obtain ⟨obj, hobj, hget⟩ := hkey j c hfront
    refine ⟨j, obj, ?_, ?_, ?_⟩
    · rw [List.getElem?_map, List.getElem?_append_left hlt, hfront]
      rfl
    · rw [List.getElem?_append_left (hlength ▸ hlt), hobj]
    · rw [Nat.add_comm, hget]
  · exact absurd (congrArg Column.name hg) hname
  -- behind the generation, a column is one place nearer to the key than its cell
  · obtain ⟨obj, hobj, hget⟩ := hbody k c hbehind
    refine ⟨key.length + k, obj, ?_, ?_, ?_⟩
    · rw [List.getElem?_map, List.getElem?_append_right (by omega), Nat.add_sub_cancel_left,
        hbehind]
      rfl
    · rw [List.getElem?_append_right (by omega), hlength, Nat.add_sub_cancel_left, hobj]
    · have hindex : key.length + 1 + k + 1 = key.length + 2 + k := by omega
      rw [hindex, hget]

/-- Only one column has the name of the generation. -/
theorem eq_of_name_eq_gen {key body : List ColumnSql} {g : ColumnSql}
    (hcols : (key ++ body).map ColumnSql.toColumn = m.columns)
    (hgen : ∀ col ∈ m.columns, col.name ≠ gen) {j : ℕ} {c : ColumnSql}
    (hc : (key ++ g :: body)[j]? = some c) (hname : c.name = gen) : j = key.length ∧ c = g := by
  have hnot : c ∉ key ++ body := by
    intro hmem
    apply hgen c.toColumn _ hname
    rw [← hcols]
    exact List.mem_map_of_mem hmem
  rcases of_getElem?_append_cons hc with hfront | hmiddle | ⟨k, -, hbehind⟩
  · exact absurd (List.mem_append_left _ (List.mem_of_getElem? hfront)) hnot
  · exact hmiddle
  · exact absurd (List.mem_append_right _ (List.mem_of_getElem? hbehind)) hnot

/-- The row has objects for the key, for the generation, and for the body. -/
theorem HasCells.exists_reads {key body : List ColumnSql} {g : ColumnSql} {name : Bytes}
    (hcells : HasCells result ⟨name, key ++ g :: body, key.length⟩) :
    ∃ ks obj ds, readCells result 1 key = .ok ks ∧
      result.get (key.length + 1) g.type g.width = .ok obj ∧
      readCells result (key.length + 2) body = .ok ds := by
  have hks : ∃ ks, readCells result 1 key = .ok ks := by
    apply exists_readCells
    intro j col hcol
    rw [Nat.add_comm]
    apply hcells j col
    exact (List.getElem?_append_left (List.getElem?_eq_some_iff.mp hcol).1).trans hcol
  have hobj : ∃ obj, result.get (key.length + 1) g.type g.width = .ok obj := by
    apply hcells key.length g
    simp
  -- `gen` stands between key and body, so the cells of the body lie one further
  have hds : ∃ ds, readCells result (key.length + 2) body = .ok ds := by
    apply exists_readCells
    intro j col hcol
    have hindex : key.length + 2 + j = key.length + 1 + j + 1 := by omega
    rw [hindex]
    apply hcells (key.length + 1 + j) col
    exact (getElem?_behind j).trans hcol
  obtain ⟨ks, hks⟩ := hks
  obtain ⟨obj, hobj⟩ := hobj
  obtain ⟨ds, hds⟩ := hds
  exact ⟨ks, obj, ds, hks, hobj, hds⟩

/-- No column of the table is left out of the SQL table. -/
theorem exists_getElem?_toColumn {key body : List ColumnSql} {g : ColumnSql}
    (hcols : (key ++ body).map ColumnSql.toColumn = m.columns) {col : Column}
    (hcol : col ∈ m.columns) :
    ∃ (j : ℕ) (c : ColumnSql), (key ++ g :: body)[j]? = some c ∧ c.toColumn = col := by
  rw [← hcols] at hcol
  obtain ⟨c, hc, rfl⟩ := List.mem_map.mp hcol
  have hmem : c ∈ key ++ g :: body :=
    List.Sublist.mem hc ((List.sublist_cons_self g body).append_left key)
  obtain ⟨j, hj⟩ := List.mem_iff_getElem?.mp hmem
  exact ⟨j, c, hj, rfl⟩

/-- What was read makes the record of the row. -/
theorem loads_of_reads {key body : List ColumnSql} {g : ColumnSql} {name name' : Bytes}
    (hkey : key.length = m.pk) (hg : g.toColumn = ⟨gen, .uint64⟩)
    (hcols : (key ++ body).map ColumnSql.toColumn = m.columns)
    (hnames : (m.columns.map Column.name).Nodup) (hgen : ∀ col ∈ m.columns, col.name ≠ gen)
    {ks ds : List Obj} {obj : Obj} (hks : readCells result 1 key = .ok ks)
    (hobj : result.get (key.length + 1) g.type g.width = .ok obj)
    (hds : readCells result (key.length + 2) body = .ok ds) :
    Loads truncate result m ⟨name, key ++ g :: body, m.pk⟩ ⟨name', m.columns, m.pk⟩
      ⟨⟨name', m.columns, m.pk⟩, ks, ds, numericCast truncate obj 0⟩ := by
  have hkslength : ks.length = m.pk := (getElem?_of_readCells hks).1.trans hkey
  have hdslength : ds.length = m.columns.length - m.pk := by
    have hlength := congrArg List.length hcols
    rw [List.length_map, List.length_append] at hlength
    rw [(getElem?_of_readCells hds).1]
    omega
  -- no other column is called `gen`, so the cell read for it is this one
  have hgenerated : ∀ (j : ℕ) (col : ColumnSql) (obj' : Obj),
      (key ++ g :: body)[j]? = some col → col.name = gen →
        result.get (j + 1) col.type col.width = .ok obj' → obj = obj' := by
    intro j col obj' hcol hname hget
    obtain ⟨rfl, rfl⟩ := eq_of_name_eq_gen hcols hgen hcol hname
    exact Except.ok.inj (hobj.symm.trans hget)
  exact
    { m_eq := rfl
      integrity := ⟨hkslength, hdslength⟩
      generation := by
        intro j col obj' hcol hname hget
        rw [hgenerated j col obj' hcol hname hget]
      generation_value := by
        intro j col v hcol hname hget
        show numericCast truncate obj 0 = v
        rw [hgenerated j col _ hcol hname hget]
        exact numericCast_uint64 truncate v 0
      selected := fun col hcol => exists_getElem?_toColumn hcols hcol
      atName := by
        intro j c hc hname
        obtain ⟨i, cell, hcol, hcell, hget⟩ := exists_getElem?_of_cell hg hks hds hc hname
        rw [hcols] at hcol
        rw [hget]
        exact atName_of_getElem?
          (r := ⟨⟨name', m.columns, m.pk⟩, ks, ds, numericCast truncate obj 0⟩) hnames hkslength
          hcol hcell }

/-- A row that has a cell for each column of the SQL table is loaded: the place of the generation
cancels out. -/
theorem toRecord_loads (truncate : (ty : FloatType) → BitVec (8 * ty.size) → BitVec 64)
    (b : Build) (hpk : m.pk < m.columns.length) (hwidth : width.length = m.columns.length)
    (hnames : (m.columns.map Column.name).Nodup) (hgen : ∀ col ∈ m.columns, col.name ≠ gen) :
    ∃ sql mem, toSql b m width = .ok sql ∧ toMem b sql = .ok mem ∧
      ∀ result, HasCells result sql →
        ∃ r, toRecord truncate b sql (some result) = .ok r ∧ Loads truncate result m sql mem r := by
  obtain ⟨key, g, body, hsql, hkey, hg, hcols⟩ := exists_columns_toSql (b := b) hpk hwidth
  have hmem : toMem b ⟨sqlName m.name, key ++ g :: body, m.pk⟩ =
      .ok ⟨memName (sqlName m.name), m.columns, m.pk⟩ := toMem_of_columns hpk hg hcols hgen
  refine ⟨_, _, hsql, hmem, fun result hcells => ?_⟩
  rw [← hkey] at hcells
  obtain ⟨ks, obj, ds, hks, hobj, hds⟩ := hcells.exists_reads
  have hbody : ∀ col ∈ body, col.name ≠ gen := by
    intro col hcol
    apply hgen col.toColumn
    rw [← hcols]
    exact List.mem_map_of_mem (List.mem_append_right _ hcol)
  refine ⟨_, ?_, loads_of_reads hkey hg hcols hnames hgen hks hobj hds⟩
  have hloop : MetaOf.loop ⟨sqlName m.name, key ++ g :: body, m.pk⟩
      (fetchColumn truncate result) ⟨1, [], [], 0⟩ = _ :=
    loop_fetchColumn rfl hkey (congrArg Column.name hg) (congrArg Column.type hg) hbody
  rw [hkey] at hobj hds
  simp only [hks, hobj, hds, ok_bind, pure_eq_ok] at hloop
  simp only [toRecord, hmem, ok_bind, hloop, pure_eq_ok]

/-- A row of the table `demo`, without a name. -/
def demoRow : ResultInterface :=
  sqliteResult .uuids .small .debug [.integer 7, .integer 3, .null, .integer 42]

theorem toRecord_loads_demoRow :
    ∃ sql mem, toSql .debug demoMeta.toMetaOf [0, 64, 0] = .ok sql ∧ toMem .debug sql = .ok mem ∧
      ∃ r, toRecord (fun _ _ => 0) .debug sql (some demoRow) = .ok r ∧
        Loads (fun _ _ => 0) demoRow demoMeta.toMetaOf sql mem r ∧
        r.gen = 3 ∧ r.atName (utf8 ['n', 'a', 'm', 'e']) = .ok (.scalar .null) := by
  have hwidth : ([0, 64, 0] : List (BitVec 64)).length = demoMeta.toMetaOf.columns.length := rfl
  obtain ⟨sql, mem, hsql, hmem, hload⟩ := toRecord_loads (fun _ _ => 0) .debug
    (m := demoMeta.toMetaOf) (by decide) hwidth (by decide) (by decide)
  have hcells : HasCells demoRow sql := by
    obtain rfl := Except.ok.inj hsql
    intro j col hcol
    match j with
    | 0 | 1 | 2 | 3 =>
      obtain rfl := Option.some.inj hcol
      exact ⟨_, rfl⟩
    | j + 4 => cases hcol
  obtain ⟨r, hr, hloads⟩ := hload demoRow hcells
  refine ⟨sql, mem, hsql, hmem, r, hr, hloads, ?_, ?_⟩
  · obtain rfl := Except.ok.inj hsql
    exact hloads.generation_value 1 _ 3 rfl rfl rfl
  · obtain rfl := Except.ok.inj hsql
    exact hloads.atName 2 _ rfl (by decide)

end Loaded

end Cyng
