import Cyng.Store.MetaSql

/-!
# SQL clauses

An SQL statement is put together from tokens, which are joined to a text at the end. Lists of
columns and of placeholders are built by loops over the meta data of a table; each loop leaves
out some of the columns and puts a separator in front of every item but the first. Such a loop
writes the items of the columns that are left, with the separator between any two of them.
-/

namespace Cyng

namespace MetaOf

variable {κ σ : Type}

/-- `meta::loop` with a callback that cannot fail and does not look at the index. -/
def forEach (m : MetaOf κ) (cb : σ → κ → Bool → σ) (s : σ) : σ :=
  m.columns.zipIdx.foldl (fun s col => cb s col.1 (decide (col.2 < m.pk))) s

theorem loop_eq_forEach {m : MetaOf κ} {cb : σ → κ → Bool → σ} {s : σ} :
    m.loop (fun s _ col pk => .ok (cb s col pk)) s = .ok (m.forEach cb s) := by
  unfold loop forEach
  generalize m.columns.zipIdx = cols
  induction cols generalizing s with
  | nil => rfl
  | cons col cols ih => exact ih

/-- The columns, each with a mark on those of the key. -/
def marked (m : MetaOf κ) : List (κ × Bool) :=
  m.columns.zipIdx.map fun col => (col.1, decide (col.2 < m.pk))

theorem forEach_eq_foldl {m : MetaOf κ} {cb : σ → κ → Bool → σ} {s : σ} :
    m.forEach cb s = m.marked.foldl (fun s col => cb s col.1 col.2) s := by
  rw [forEach, marked, List.foldl_map]

theorem filter_zipIdx_lt (cols : List κ) (pk k : ℕ) :
    ((cols.zipIdx k).filter fun col => decide (col.2 < pk)).map Prod.fst = cols.take (pk - k) ∧
      ((cols.zipIdx k).filter fun col => !decide (col.2 < pk)).map Prod.fst =
        cols.drop (pk - k) := by
  induction cols generalizing k with
  | nil => simp
  | cons col cols ih =>
    obtain ⟨hkey, hbody⟩ := ih (k + 1)
    rw [List.zipIdx_cons]
    by_cases hk : k < pk
    · have hsub : pk - k = pk - (k + 1) + 1 := by omega
      rw [List.filter_cons_of_pos (by simpa using hk), List.filter_cons_of_neg (by simpa using hk),
        List.map_cons, hkey, hbody, hsub]
      exact ⟨rfl, rfl⟩
    · have hsub : pk - k = 0 := by omega
      have hsub' : pk - (k + 1) = 0 := by omega
      rw [List.filter_cons_of_neg (by simpa using hk), List.filter_cons_of_pos (by simpa using hk),
        List.map_cons, hkey, hbody, hsub, hsub']
      exact ⟨rfl, rfl⟩

/-- The columns of the key come first. -/
theorem marked_filter_pk (m : MetaOf κ) :
    ((m.marked.filter fun col => col.2).map Prod.fst) = m.columns.take m.pk ∧
      ((m.marked.filter fun col => !col.2).map Prod.fst) = m.columns.drop m.pk := by
  have hsplit := filter_zipIdx_lt m.columns m.pk 0
  rw [Nat.sub_zero] at hsplit
  simpa [marked, List.filter_map, Function.comp_def] using hsplit

theorem marked_filter (m : MetaOf κ) (keep : κ → Bool) :
    ((m.marked.filter fun col => keep col.1).map Prod.fst) = m.columns.filter keep := by
  conv_rhs => rw [← List.zipIdx_map_fst 0 m.columns, List.filter_map]
  simp [marked, List.filter_map, Function.comp_def]

end MetaOf

namespace Sql

/-- `dialect` -/
inductive Dialect
  | generic | mysql | sqlite | oracle | access | sqlserver | postgresql
deriving DecidableEq, Repr

/-- `clause_t` -/
abbrev Clause := List Bytes

/-- A token of the language. -/
def token (word : String) : Bytes := utf8 word.toList

/-- `details::base` -/
structure Base where
  dialect : Dialect
  clause : Clause
deriving DecidableEq

namespace Base

/-- `base::is_between_brackets` -/
def isBetweenBrackets (s e : Bytes) : Bool :=
  e = token ")" && s.getLast? = some 0x29

/-- One round of the loop of `base::to_string`, after the first token. -/
def layOut (s e : Bytes) : Bytes :=
  if e ≠ token "," ∧ e ≠ token "(" ∧ ¬isBetweenBrackets s e then s ++ 0x20 :: e else s ++ e

/-- `base::to_string` -/
def toString (stmt : Base) : Bytes :=
  match stmt.clause with
  | [] => []
  | e :: es => es.foldl layOut e

/-- `base::do_skip` -/
def doSkip (d : Dialect) (name : Bytes) : Bool := d = .sqlite && name = token "ROWID"

end Base

/-- `details::substitute_ph` -/
def substitutePh (d : Dialect) (code : TypeCode) : Bytes :=
  if d = .sqlite ∧ code = .timePoint then token "julianday(?)" else token "?"

/-- `details::substitute_dt` -/
def substituteDt (name : Bytes) (d : Dialect) (code : TypeCode) : Bytes :=
  if d = .sqlite ∧ code = .timePoint then token "datetime(" ++ name ++ token ")" else name

/-! ### The text -/

/-- A text of these tokens in this order, with at most a blank before each. -/
def LaidOut (text : Bytes) (clause : Clause) : Prop :=
  ∃ gaps : List Bytes, gaps.length = clause.length ∧ (∀ gap ∈ gaps, gap = [] ∨ gap = [0x20]) ∧
    text = (List.zipWith (· ++ ·) gaps clause).flatten

theorem LaidOut.snoc {text : Bytes} {clause : Clause} {gap : Bytes} (h : LaidOut text clause)
    (hgap : gap = [] ∨ gap = [0x20]) (e : Bytes) :
    LaidOut (text ++ (gap ++ e)) (clause ++ [e]) := by
  obtain ⟨gaps, hlen, hgaps, rfl⟩ := h
  refine ⟨gaps ++ [gap], by simp [hlen], ?_, ?_⟩
  · simpa [or_imp, forall_and] using ⟨hgaps, hgap⟩
  · rw [List.zipWith_append hlen]
    simp

theorem LaidOut.layOut {text e : Bytes} {clause : Clause} (h : LaidOut text clause) :
    LaidOut (Base.layOut text e) (clause ++ [e]) := by
  unfold Base.layOut
  split_ifs
  · exact h.snoc (Or.inr rfl) e
  · exact h.snoc (Or.inl rfl) e

theorem LaidOut.foldl {es : List Bytes} {text : Bytes} {clause : Clause} (h : LaidOut text clause) :
    LaidOut (es.foldl Base.layOut text) (clause ++ es) := by
  induction es generalizing text clause with
  | nil => simpa using h
  | cons e es ih => simpa using ih h.layOut

/-- The text of a statement has nothing but its tokens in it. -/
theorem laidOut_toString (stmt : Base) : LaidOut stmt.toString stmt.clause := by
  obtain ⟨d, _ | ⟨e, es⟩⟩ := stmt
  · exact ⟨[], rfl, nofun, rfl⟩
  · have hfirst : LaidOut e [e] := ⟨[[]], rfl, by simp, by simp⟩
    exact hfirst.foldl

/-! ### Lists of columns -/

/-- What the loops over the columns work on: whether there was an item already, and the clause. -/
abbrev Items := Bool × Clause

/-- A loop over the columns that leaves some of them out and puts a separator in front of every
item but the first. -/
def listItems (m : MetaOf ColumnSql) (sep : Bytes) (keep : ColumnSql → Bool → Bool)
    (item : ColumnSql → Clause) (clause : Clause) : Clause :=
  (m.forEach (fun (s : Items) col pk =>
    if keep col pk then (true, (if s.1 then s.2 ++ [sep] else s.2) ++ item col) else s)
    (false, clause)).2

/-- The items with the separator between any two of them. -/
def separated (sep : Bytes) (items : List Clause) : Clause := [sep].intercalate items

section Loops

variable {sep : Bytes} {κ : Type} {keep : κ → Bool} {item : κ → Clause} {clause : Clause}

theorem separated_cons (x : Clause) (xs : List Clause) :
    separated sep (x :: xs) = x ++ xs.flatMap fun y => sep :: y := by
  induction xs generalizing x with
  | nil => simp [separated, List.intercalate]
  | cons y ys ih =>
    have htail := ih y
    simp only [separated, List.intercalate] at htail ⊢
    rw [List.intersperse_cons_cons, List.flatten_cons, List.flatten_cons, htail, List.flatMap_cons]
    rfl

theorem separated_singletons (xs : List Bytes) :
    separated sep (xs.map fun x => [x]) = xs.intersperse sep := by
  induction xs with
  | nil => rfl
  | cons x xs ih =>
    cases xs with
    | nil => rfl
    | cons y ys =>
      rw [List.intersperse_cons_cons, ← ih]
      simp [separated_cons]

/-- The items can be read off a separated list, whatever they are. -/
theorem intersperse_injective (sep : Bytes) :
    Function.Injective (List.intersperse sep) := by
  intro xs
  induction xs with
  | nil =>
    intro ys h
    rcases ys with _ | ⟨y, _ | ⟨y', ys⟩⟩ <;> simp at h ⊢
  | cons x xs ih =>
    intro ys h
    rcases xs with _ | ⟨x', xs⟩ <;> rcases ys with _ | ⟨y, _ | ⟨y', ys⟩⟩ <;> simp at h
    · rw [h]
    · obtain ⟨rfl, htail⟩ := h
      rw [ih htail]

/-- One round of the loops. -/
def addItem (sep : Bytes) (keep : κ → Bool) (item : κ → Clause) (s : Items) (x : κ) : Items :=
  if keep x then (true, (if s.1 then s.2 ++ [sep] else s.2) ++ item x) else s

theorem foldl_addItem_started (xs : List κ) :
    xs.foldl (addItem sep keep item) (true, clause) =
      (true, clause ++ (xs.filter keep).flatMap fun x => sep :: item x) := by
  induction xs generalizing clause with
  | nil => simp
  | cons x xs ih =>
    rw [List.foldl_cons]
    by_cases hx : keep x
    · have hstep : addItem sep keep item (true, clause) x =
          (true, clause ++ [sep] ++ item x) := by simp [addItem, hx]
      rw [hstep, ih, List.filter_cons_of_pos hx, List.flatMap_cons]
      simp
    · have hstep : addItem sep keep item (true, clause) x = (true, clause) := by simp [addItem, hx]
      rw [hstep, ih, List.filter_cons_of_neg hx]

/-- The first item that is kept comes without a separator, and every other one with one. -/
theorem foldl_addItem (xs : List κ) :
    (xs.foldl (addItem sep keep item) (false, clause)).2 =
      clause ++ separated sep ((xs.filter keep).map item) := by
  induction xs with
  | nil => simp [separated]
  | cons x xs ih =>
    rw [List.foldl_cons]
    by_cases hx : keep x
    -- from the first item on, every other one has a separator in front
    · have hstep : addItem sep keep item (false, clause) x = (true, clause ++ item x) := by
        simp [addItem, hx]
      rw [hstep, foldl_addItem_started, List.filter_cons_of_pos hx, List.map_cons, separated_cons,
        List.flatMap_map, List.append_assoc]
    · have hstep : addItem sep keep item (false, clause) x = (false, clause) := by
        simp [addItem, hx]
      rw [hstep, ih, List.filter_cons_of_neg hx]

end Loops

section Columns

variable {m : MetaOf ColumnSql} {sep : Bytes} {clause : Clause}

theorem listItems_eq {keep : ColumnSql → Bool → Bool} {item : ColumnSql → Clause} :
    listItems m sep keep item clause =
      clause ++ separated sep
        (((m.marked.filter fun col => keep col.1 col.2).map Prod.fst).map item) := by
  rw [listItems, MetaOf.forEach_eq_foldl, List.map_map]
  exact foldl_addItem m.marked

end Columns

end Sql

end Cyng
