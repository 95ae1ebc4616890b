import Cyng.Store.Table
import Cyng.Io.Utf8

/-!
# Meta data of SQL tables

The meta data of a table in memory become those of an SQL table by a column for the
generation, placed behind the key, and a name with a `T` in front and its first letter in
upper case. The way back drops every column with the name of the generation, and takes the
first letter to lower case.

So a column of the user with this name is lost, and a name comes back when it is not empty
and does not begin with an upper case letter.
-/

namespace Cyng

/-- `meta<COLUMN>` as its constructor makes it; the secondary keys are always empty. -/
structure MetaOf (κ : Type) where
  name : Bytes
  columns : List κ
  pk : ℕ
deriving DecidableEq

namespace MetaOf

variable {κ σ : Type}

/-- The constructor of `meta`. -/
def make (b : Build) (name : Bytes) (columns : List κ) (pk : ℕ) :
    Except Fault (MetaOf κ) := do
  b.check "key size exceeded" (pk < columns.length)
  return ⟨name, columns, pk⟩

/-- One round of `meta::loop`: a column is counted in the key or in the body, wherever it
belongs. -/
def visit (pk : ℕ) (cb : σ → ℕ → κ → Bool → Except Fault σ) (s : σ) (col : κ × ℕ) :
    Except Fault σ :=
  cb s (if col.2 < pk then col.2 else col.2 - pk) col.1 (decide (col.2 < pk))

/-- `meta::loop` -/
def loop (m : MetaOf κ) (cb : σ → ℕ → κ → Bool → Except Fault σ) (s : σ) : Except Fault σ :=
  m.columns.zipIdx.foldlM (visit m.pk cb) s

end MetaOf

/-- The meta data of a table in memory. -/
def Meta.toMetaOf (m : Meta) : MetaOf Column := ⟨m.name, m.columns, m.pk⟩

/-! ### Names of tables -/

/-- `std::toupper`, in the "C" locale -/
def toUpper (c : UInt8) : UInt8 := if 0x61 ≤ c ∧ c ≤ 0x7A then c - 0x20 else c

/-- `std::tolower`, in the "C" locale -/
def toLower (c : UInt8) : UInt8 := if 0x41 ≤ c ∧ c ≤ 0x5A then c + 0x20 else c

/-- The name of the SQL table. -/
def sqlName (name : Bytes) : Bytes :=
  0x54 :: match name with
    | [] => []
    | c :: cs => toUpper c :: cs

/-- The name of the table in memory: a `T` goes if something follows it. -/
def memName : Bytes → Bytes
  | 0x54 :: c :: cs => toLower c :: cs
  | name => name

theorem toLower_toUpper_iff (c : UInt8) : toLower (toUpper c) = c ↔ ¬(0x41 ≤ c ∧ c ≤ 0x5A) := by
  unfold toLower toUpper
  constructor
  · intro h hupper
    have hlower : ¬(0x61 ≤ c ∧ c ≤ 0x7A) := by grind
    rw [if_neg hlower, if_pos hupper] at h
    grind
  · intro hupper
    split_ifs <;> grind

/-- Names that come back: those that begin with something else than an upper case letter. -/
def Restorable (name : Bytes) : Prop := ∃ c cs, name = c :: cs ∧ ¬(0x41 ≤ c ∧ c ≤ 0x5A)

theorem memName_sqlName_iff (name : Bytes) : memName (sqlName name) = name ↔ Restorable name := by
  cases name with
  | nil => simp [memName, sqlName, Restorable]
  | cons c cs =>
    have hname : memName (sqlName (c :: cs)) = toLower (toUpper c) :: cs := rfl
    rw [hname, List.cons.injEq, toLower_toUpper_iff]
    simp [Restorable]

/-! ### Columns -/

/-- The name of the column for the generation. -/
def gen : Bytes := utf8 ['g', 'e', 'n']

/-- `std::vector::at` -/
def widthAt (width : List (BitVec 64)) (idx : ℕ) : Except Fault (BitVec 64) :=
  match width[idx]? with
  | some w => .ok w
  | none => .error (.exception "std::out_of_range")

/-- What the loop of `to_sql` works on. -/
structure SqlColumns where
  vec : List ColumnSql
  gen : Bool
  widthIdx : ℕ

/-- One round of the loop of `to_sql`. -/
def addColumn (width : List (BitVec 64)) (s : SqlColumns) (_ : ℕ) (col : Column) (pk : Bool) :
    Except Fault SqlColumns :=
  if !pk && !s.gen then do
    let w ← widthAt width s.widthIdx
    return ⟨s.vec ++ [⟨⟨Cyng.gen, .uint64⟩, 0⟩, ⟨col, w⟩], true, s.widthIdx + 1⟩
  else if s.widthIdx < width.length then do
    let w ← widthAt width s.widthIdx
    return { s with vec := s.vec ++ [⟨col, w⟩], widthIdx := s.widthIdx + 1 }
  else .ok { s with vec := s.vec ++ [⟨col, 0⟩] }

/-- `to_sql` -/
def toSql (b : Build) (m : MetaOf Column) (width : List (BitVec 64)) :
    Except Fault (MetaOf ColumnSql) := do
  b.check "m.size() == width.size()" (m.columns.length = width.length)
  let s ← m.loop (addColumn width) ⟨[], false, 0⟩
  MetaOf.make b (sqlName m.name) s.vec m.pk

/-- One round of the loop of `to_mem`. -/
def keepColumn (vec : List Column) (_ : ℕ) (col : ColumnSql) (_ : Bool) :
    Except Fault (List Column) :=
  .ok (if col.name = gen then vec else vec ++ [col.toColumn])

/-- `to_mem` -/
def toMem (b : Build) (m : MetaOf ColumnSql) : Except Fault (MetaOf Column) := do
  let vec ← m.loop keepColumn []
  MetaOf.make b (memName m.name) vec m.pk

section Loops

variable {width : List (BitVec 64)} {pk : ℕ}

/-- The columns of the key, and those behind the generation, are taken over one by one. -/
theorem foldlM_addColumn (width : List (BitVec 64)) (pk : ℕ) (cols : List Column) (i : ℕ)
    (s : SqlColumns) (plain : s.gen = true ∨ i + cols.length ≤ pk) :
    ∃ vec widthIdx, (cols.zipIdx i).foldlM (MetaOf.visit pk (addColumn width)) s =
        .ok ⟨s.vec ++ vec, s.gen, widthIdx⟩ ∧
      vec.map ColumnSql.toColumn = cols ∧
      (s.widthIdx + cols.length ≤ width.length → widthIdx = s.widthIdx + cols.length) := by
  induction cols generalizing i s with
  | nil => exact ⟨[], s.widthIdx, by simp [pure, Except.pure], rfl, fun _ => rfl⟩
  | cons col cols ih =>
    -- the generation is not put in front of this column
    have hplain : (!decide (i < pk) && !s.gen) = false := by
      rcases plain with hgen | hkey
      · simp [hgen]
      · have hi : i < pk := by
          rw [List.length_cons] at hkey
          omega
        simp [hi]
    have hstep : ∃ w mid, MetaOf.visit pk (addColumn width) s (col, i) =
          .ok ⟨s.vec ++ [⟨col, w⟩], s.gen, mid⟩ ∧
        (s.widthIdx < width.length → mid = s.widthIdx + 1) := by
      rw [MetaOf.visit, addColumn, hplain, if_neg Bool.false_ne_true]
      by_cases hwidth : s.widthIdx < width.length
      · refine ⟨width[s.widthIdx], s.widthIdx + 1, ?_, fun _ => rfl⟩
        rw [if_pos hwidth, widthAt, List.getElem?_eq_getElem hwidth]
        rfl
      · refine ⟨0, s.widthIdx, ?_, fun h => absurd h hwidth⟩
        rw [if_neg hwidth]
    obtain ⟨w, mid, hvisit, hmid⟩ := hstep
    have hrest : s.gen = true ∨ i + 1 + cols.length ≤ pk := by
      rw [List.length_cons] at plain
      exact plain.imp id fun h => by omega
    obtain ⟨vec, widthIdx, hfold, hcols, hidx⟩ :=
      ih (i + 1) ⟨s.vec ++ [⟨col, w⟩], s.gen, mid⟩ hrest
    refine ⟨⟨col, w⟩ :: vec, widthIdx, ?_, ?_, ?_⟩
    · rw [List.zipIdx_cons, List.foldlM_cons, hvisit, ok_bind, hfold, List.append_assoc,
        List.singleton_append]
    · rw [List.map_cons, hcols]
    · intro h
      rw [List.length_cons] at h ⊢
      have hm : mid = s.widthIdx + 1 := hmid (by omega)
      have hidx' := hidx (by simp only [hm]; omega)
      simp only [hm] at hidx'
      omega

/-- The generation goes in front of the first column of the body. -/
theorem loop_addColumn {m : MetaOf Column} (hpk : m.pk < m.columns.length)
    (hwidth : width.length = m.columns.length) :
    ∃ s, m.loop (addColumn width) ⟨[], false, 0⟩ = .ok s ∧
      s.vec.map ColumnSql.toColumn =
        m.columns.take m.pk ++ ⟨gen, .uint64⟩ :: m.columns.drop m.pk := by
  have hlength : (m.columns.take m.pk).length = m.pk := by
    rw [List.length_take]
    omega
  obtain ⟨key, widthIdx, hkey, hkeycols, hidx⟩ :=
    foldlM_addColumn width m.pk (m.columns.take m.pk) 0 ⟨[], false, 0⟩ (Or.inr (by omega))
  -- every column of the key has taken one of the widths
  have hat : widthIdx = m.pk := by
    have h := hidx (by simp only; omega)
    simp only at h
    omega
  have hw : widthIdx < width.length := by omega
  obtain ⟨body, last, hbody, hbodycols, -⟩ :=
    foldlM_addColumn width m.pk (m.columns.drop (m.pk + 1)) (m.pk + 1)
      ⟨key ++ [⟨⟨gen, .uint64⟩, 0⟩, ⟨m.columns[m.pk], width[widthIdx]⟩], true, widthIdx + 1⟩
      (Or.inl rfl)
  have hfirst : MetaOf.visit m.pk (addColumn width) ⟨key, false, widthIdx⟩
      (m.columns[m.pk], m.pk) =
        .ok ⟨key ++ [⟨⟨gen, .uint64⟩, 0⟩, ⟨m.columns[m.pk], width[widthIdx]⟩], true,
          widthIdx + 1⟩ := by
    have hnot : decide (m.pk < m.pk) = false := by simp
    simp only [MetaOf.visit, addColumn, hnot, widthAt, List.getElem?_eq_getElem hw]
    rfl
  have hsplit : m.columns.zipIdx = (m.columns.take m.pk).zipIdx ++
      (m.columns[m.pk], m.pk) :: (m.columns.drop (m.pk + 1)).zipIdx (m.pk + 1) := by
    conv_lhs => rw [← List.take_append_drop m.pk m.columns, List.drop_eq_getElem_cons hpk]
    rw [List.zipIdx_append, hlength, List.zipIdx_cons, zero_add]
  refine ⟨⟨key ++ [⟨⟨gen, .uint64⟩, 0⟩, ⟨m.columns[m.pk], width[widthIdx]⟩] ++ body, true,
    last⟩, ?_, ?_⟩
  · rw [MetaOf.loop, hsplit, List.foldlM_append, hkey]
    simp only [List.nil_append, ok_bind, List.foldlM_cons, hfirst]
    exact hbody
  · simp only [List.map_append, List.map_cons, hkeycols, hbodycols,
      List.drop_eq_getElem_cons hpk]
    simp

/-- Whatever has the name of the generation goes. -/
theorem foldlM_keepColumn {cols : List ColumnSql} {i : ℕ} {vec : List Column} :
    (cols.zipIdx i).foldlM (MetaOf.visit pk keepColumn) vec =
      .ok (vec ++ (cols.map ColumnSql.toColumn).filter fun col => col.name ≠ gen) := by
  induction cols generalizing i vec with
  | nil => simp [pure, Except.pure]
  | cons col cols ih =>
    have hvisit : MetaOf.visit pk keepColumn vec (col, i) =
        .ok (if col.name = gen then vec else vec ++ [col.toColumn]) := rfl
    rw [List.zipIdx_cons, List.foldlM_cons, hvisit, ok_bind, ih]
    by_cases hgen : col.name = gen <;> simp [hgen]

end Loops

/-! ### There and back -/

section RoundTrip

variable {b : Build} {width : List (BitVec 64)}

theorem toSql_eq {m : MetaOf Column} (hpk : m.pk < m.columns.length)
    (hwidth : width.length = m.columns.length) :
    ∃ vec, toSql b m width = .ok ⟨sqlName m.name, vec, m.pk⟩ ∧
      vec.map ColumnSql.toColumn =
        m.columns.take m.pk ++ ⟨gen, .uint64⟩ :: m.columns.drop m.pk := by
  obtain ⟨s, hloop, hcols⟩ := loop_addColumn hpk hwidth
  have hlength : m.pk < s.vec.length := by
    have h := congrArg List.length hcols
    simp only [List.length_map, List.length_append, List.length_cons, List.length_take,
      List.length_drop] at h
    omega
  refine ⟨s.vec, ?_, hcols⟩
  rw [toSql, Build.check_of hwidth.symm, ok_bind, hloop, ok_bind, MetaOf.make,
    Build.check_of hlength]
  rfl

theorem toMem_eq (sql : MetaOf ColumnSql) :
    toMem b sql = MetaOf.make b (memName sql.name)
      ((sql.columns.map ColumnSql.toColumn).filter fun col => col.name ≠ gen) sql.pk := by
  rw [toMem, MetaOf.loop, foldlM_keepColumn, ok_bind, List.nil_append]

/-- The meta data come back as they were. -/
def ComesBack (b : Build) (m : MetaOf Column) (width : List (BitVec 64)) : Prop :=
  ∃ sql, toSql b m width = .ok sql ∧ toMem b sql = .ok m

/-- Meta data come back exactly when the name of the table begins with something else than an
upper case letter, and no column has the name of the generation. -/
theorem comesBack_iff {m : Meta} (hpk : m.pk < m.columns.length)
    (hwidth : width.length = m.columns.length) :
    ComesBack b m.toMetaOf width ↔ Restorable m.name ∧ ∀ col ∈ m.columns, col.name ≠ gen := by
  obtain ⟨vec, hsql, hcols⟩ := toSql_eq (m := m.toMetaOf) (b := b) hpk hwidth
  -- on the way back `gen` is dropped by its name, with any column of the user's of that name
  have hfilter : ((vec.map ColumnSql.toColumn).filter fun col => col.name ≠ gen) =
      m.columns.filter fun col => col.name ≠ gen := by
    rw [hcols]
    show List.filter _ (m.columns.take m.pk ++ _ :: m.columns.drop m.pk) = _
    rw [List.filter_append, List.filter_cons_of_neg (by simp), ← List.filter_append,
      List.take_append_drop]
  have hmem : toMem b ⟨sqlName m.name, vec, m.pk⟩ = MetaOf.make b (memName (sqlName m.name))
      (m.columns.filter fun col => col.name ≠ gen) m.pk := by
    rw [toMem_eq, hfilter]
  rw [← memName_sqlName_iff]
  constructor
  · rintro ⟨sql, hthere, hback⟩
    obtain rfl := Except.ok.inj (hsql.symm.trans hthere)
    obtain ⟨_, -, hmake⟩ := bind_eq_ok_iff.mp (hmem.symm.trans hback)
    obtain ⟨hname, hcolumns, -⟩ := MetaOf.mk.inj (Except.ok.inj hmake)
    exact ⟨hname, by simpa using List.filter_eq_self.mp hcolumns⟩
  · rintro ⟨hname, hnames⟩
    have hall : (m.columns.filter fun col => col.name ≠ gen) = m.columns :=
      List.filter_eq_self.mpr fun col hcol => by simpa using hnames col hcol
    refine ⟨_, hsql, hmem.trans ?_⟩
    rw [hall, hname, MetaOf.make, Build.check_of hpk]
    rfl

end RoundTrip

/-- A table `demo` with a key and two columns. -/
def demoMeta : Meta where
  name := utf8 ['d', 'e', 'm', 'o']
  columns := [⟨utf8 ['i', 'd'], .uint64⟩, ⟨utf8 ['n', 'a', 'm', 'e'], .string⟩,
    ⟨utf8 ['a', 'g', 'e'], .uint64⟩]
  pk := 1
  pk_le := by decide

theorem comesBack_demoMeta :
    (demoMeta.pk < demoMeta.columns.length ∧ [0, 64, 0].length = demoMeta.columns.length) ∧
      ComesBack .debug demoMeta.toMetaOf [0, 64, 0] := by
  refine ⟨by decide, (comesBack_iff (by decide) rfl).mpr ⟨⟨_, _, rfl, by decide⟩, ?_⟩⟩
  decide

/-- The same table with a column for a generation of its own. -/
def genMeta : Meta where
  name := demoMeta.name
  columns := demoMeta.columns ++ [⟨gen, .uint32⟩]
  pk := 1
  pk_le := by decide

/-- The column is lost. -/
theorem not_comesBack_genMeta : ¬ComesBack .debug genMeta.toMetaOf [0, 64, 0, 0] := by
  rintro ⟨sql, hthere, hback⟩
  obtain rfl := Except.ok.inj hthere
  have hlength := congrArg (fun m => m.columns.length) (Except.ok.inj hback)
  cases hlength

end Cyng
