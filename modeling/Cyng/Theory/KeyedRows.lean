import Mathlib.Data.List.Basic
import Mathlib.Data.Setoid.Basic
import Mathlib.Data.Set.Card
import Mathlib.Logic.Function.Basic

/-!
# Rows under a key equality

A hash table compares keys by the equality its user supplies, an equivalence that
may be coarser than equality of the keys. It never holds two rows with equivalent
keys, and every access goes through the one row, if any, whose key is equivalent.

Read with plain equality of keys the same rows are a finite map. `toMap` is that
reading. An operation agrees with the operation on the map as long as no row of
another key passes for the key it is given (`Discerns`).
-/

namespace Theory

universe u v

variable {κ : Type u} {ν : Type v} {s : Setoid κ}

/-- Rows with keys that are pairwise different for the key equality. -/
structure KeyedRows (s : Setoid κ) (ν : Type v) where
  rows : List (κ × ν)
  distinct : rows.Pairwise fun a b => ¬s.r b.1 a.1

namespace KeyedRows

/-- The table without rows. -/
def empty : KeyedRows s ν := ⟨[], List.Pairwise.nil⟩

section Operations

variable [DecidableRel s.r]

/-- The row whose key is equivalent. -/
def find (t : KeyedRows s ν) (k : κ) : Option (κ × ν) :=
  t.rows.find? fun r => s.r k r.1

theorem find_eq_none_iff {t : KeyedRows s ν} {k : κ} :
    t.find k = none ↔ ∀ r ∈ t.rows, ¬s.r k r.1 := by
  simp [find, List.find?_eq_none]

/-- Add a row for a key that has none. -/
def emplace (t : KeyedRows s ν) (k : κ) (x : ν) (absent : t.find k = none) : KeyedRows s ν where
  rows := t.rows ++ [(k, x)]
  distinct := by
    refine List.pairwise_append.mpr ⟨t.distinct, List.pairwise_singleton _ _, ?_⟩
    intro r hr r' hr'
    obtain rfl := List.mem_singleton.mp hr'
    exact find_eq_none_iff.mp absent r hr

/-- Change the value of the row whose key is equivalent. -/
def update (t : KeyedRows s ν) (k : κ) (f : ν → ν) : KeyedRows s ν where
  rows := t.rows.map fun r => if s.r k r.1 then (r.1, f r.2) else r
  distinct := by
    refine List.pairwise_map.mpr (t.distinct.imp fun {a b} hab => ?_)
    split_ifs <;> exact hab

/-- Keep the rows that satisfy a predicate. -/
def filter (t : KeyedRows s ν) (p : κ × ν → Bool) : KeyedRows s ν :=
  ⟨t.rows.filter p, t.distinct.filter p⟩

/-- Remove the row whose key is equivalent. -/
def erase (t : KeyedRows s ν) (k : κ) : KeyedRows s ν :=
  t.filter fun r => ¬s.r k r.1

end Operations

/-! ### Rows as a finite map -/

section ToMap

theorem eq_of_rel {t : KeyedRows s ν} {r r' : κ × ν} (hr : r ∈ t.rows) (hr' : r' ∈ t.rows)
    (h : s.r r.1 r'.1) : r = r' := by
  by_contra hne
  have hsymm : Std.Symm fun a b : κ × ν => ¬s.r b.1 a.1 :=
    ⟨fun a b hab hba => hab (s.symm hba)⟩
  exact t.distinct.forall hr' hr (Ne.symm hne) h

theorem find_eq_some_iff [DecidableRel s.r] {t : KeyedRows s ν} {k : κ} {r : κ × ν} :
    t.find k = some r ↔ r ∈ t.rows ∧ s.r k r.1 := by
  constructor
  · intro h
    exact ⟨List.mem_of_find?_eq_some h, by simpa using List.find?_some h⟩
  · rintro ⟨hr, hk⟩
    cases hfind : t.find k with
    | none => exact absurd hk (find_eq_none_iff.mp hfind r hr)
    | some r' =>
      have hk' : s.r k r'.1 := by simpa using List.find?_some hfind
      rw [eq_of_rel (List.mem_of_find?_eq_some hfind) hr (s.trans (s.symm hk') hk)]

/-- To write back what is there changes no row. -/
theorem update_self [DecidableRel s.r] {t : KeyedRows s ν} {k : κ} {r : κ × ν}
    (h : t.find k = some r) : (t.update k fun _ => r.2) = t := by
  obtain ⟨hr, hrel⟩ := find_eq_some_iff.mp h
  have hrows : (t.rows.map fun q => if s.r k q.1 then (q.1, r.2) else q) = t.rows := by
    have hid : ∀ q ∈ t.rows, (if s.r k q.1 then (q.1, r.2) else q) = q := by
      intro q hq
      split_ifs with hc
      · rw [eq_of_rel hq hr (s.trans (s.symm hc) hrel)]
      · rfl
    exact (List.map_congr_left hid).trans (List.map_id' _)
  rw [KeyedRows.mk.injEq]
  exact hrows

variable [DecidableEq κ]

/-- The rows read with plain equality of keys. -/
def toMap (t : KeyedRows s ν) (k : κ) : Option ν :=
  (t.rows.find? fun r => r.1 = k).map Prod.snd

/-- A key is mapped to the value of the one row that has this key. -/
theorem toMap_eq_some_iff {t : KeyedRows s ν} {k : κ} {x : ν} :
    t.toMap k = some x ↔ (k, x) ∈ t.rows := by
  constructor
  · intro h
    obtain ⟨⟨k', x'⟩, hfind, rfl⟩ := Option.map_eq_some_iff.mp h
    have hk : k' = k := by simpa using List.find?_some hfind
    subst hk
    exact List.mem_of_find?_eq_some hfind
  · intro h
    cases hfind : t.rows.find? fun r => r.1 = k with
    | none => simpa using List.find?_eq_none.mp hfind (k, x) h
    | some r =>
      have hk : r.1 = k := by simpa using List.find?_some hfind
      have hrel : s.r r.1 k := hk ▸ s.refl k
      have heq : r = (k, x) := eq_of_rel (List.mem_of_find?_eq_some hfind) h hrel
      simp [toMap, hfind, heq]

theorem toMap_eq_none_iff {t : KeyedRows s ν} {k : κ} :
    t.toMap k = none ↔ ∀ r ∈ t.rows, r.1 ≠ k := by
  simp [toMap, List.find?_eq_none]

theorem foldl_update_of_distinct (rows : List (κ × ν)) (m : κ → Option ν)
    (distinct : rows.Pairwise fun a b : κ × ν => ¬s.r b.1 a.1) :
    rows.foldl (fun (m : κ → Option ν) r => Function.update m r.1 (some r.2)) m =
      fun k => ((rows.find? fun r => r.1 = k).map Prod.snd).or (m k) := by
  induction rows generalizing m with
  | nil => rfl
  | cons r rows ih =>
    obtain ⟨hhead, htail⟩ := List.pairwise_cons.mp distinct
    funext k
    rw [List.foldl_cons, ih _ htail]
    by_cases hk : r.1 = k
    · -- the rows behind have other keys
      have hnone : rows.find? (fun r => r.1 = k) = none := by
        refine List.find?_eq_none.mpr fun r' hr' heq => hhead r' hr' ?_
        rw [hk, of_decide_eq_true heq]
      subst hk
      simp [hnone]
    · simp [hk, Function.update_of_ne (Ne.symm hk)]

/-- The map is what adding the rows one after the other gives. -/
theorem foldl_update_rows (t : KeyedRows s ν) :
    t.rows.foldl (fun (m : κ → Option ν) r => Function.update m r.1 (some r.2)) (fun _ => none) =
      t.toMap := by
  rw [foldl_update_of_distinct t.rows _ t.distinct]
  funext k
  exact Option.or_none

@[simp] theorem toMap_empty : (empty : KeyedRows s ν).toMap = fun _ => none := rfl

/-- Dropping rows drops the keys whose rows go. -/
theorem toMap_filter (t : KeyedRows s ν) (p : κ × ν → Bool) :
    (t.filter p).toMap = fun k => (t.toMap k).filter fun x => p (k, x) := by
  funext k
  refine Option.ext fun x => ?_
  rw [toMap_eq_some_iff, Option.filter_eq_some_iff, toMap_eq_some_iff]
  exact List.mem_filter

variable [DecidableRel s.r]

theorem toMap_of_find {t : KeyedRows s ν} {k : κ} {r : κ × ν} (h : t.find k = some r) :
    t.toMap r.1 = some r.2 :=
  toMap_eq_some_iff.mpr (find_eq_some_iff.mp h).1

/-- A new row adds its key. -/
theorem toMap_emplace {t : KeyedRows s ν} {k : κ} {x : ν} (absent : t.find k = none) :
    (t.emplace k x absent).toMap = Function.update t.toMap k (some x) := by
  funext k'
  refine Option.ext fun x' => ?_
  rw [toMap_eq_some_iff]
  by_cases hk : k' = k
  · subst hk
    have hmem : (k', x') ∉ t.rows := fun h => find_eq_none_iff.mp absent _ h (s.refl _)
    simp [emplace, hmem, eq_comm]
  · simp [emplace, hk, toMap_eq_some_iff]

/-- Changing the row found under a key changes the value of the key of this row. -/
theorem toMap_update {t : KeyedRows s ν} {k : κ} {f : ν → ν} {r : κ × ν}
    (h : t.find k = some r) :
    (t.update k f).toMap = Function.update t.toMap r.1 (some (f r.2)) := by
  obtain ⟨hr, hrel⟩ := find_eq_some_iff.mp h
  funext k'
  refine Option.ext fun x' => ?_
  rw [toMap_eq_some_iff]
  have hmem : (k', x') ∈ (t.update k f).rows ↔
      ∃ q ∈ t.rows, (if s.r k q.1 then (q.1, f q.2) else q) = (k', x') := List.mem_map
  rw [hmem]
  -- no other row is related to the key, since no two rows are
  by_cases hk : k' = r.1
  · subst hk
    simp only [Function.update_self, Option.some.injEq]
    constructor
    · rintro ⟨q, hq, hx⟩
      have hkey : q.1 = r.1 := by
        split_ifs at hx with hc
        · exact (Prod.mk.inj hx).1
        · rw [hx]
      obtain rfl := eq_of_rel hq hr (hkey ▸ s.refl _)
      rw [if_pos hrel] at hx
      exact (Prod.mk.inj hx).2
    · rintro rfl
      exact ⟨r, hr, if_pos hrel⟩
  · rw [Function.update_of_ne hk, toMap_eq_some_iff]
    constructor
    · rintro ⟨q, hq, hx⟩
      split_ifs at hx with hc
      · obtain rfl := eq_of_rel hq hr (s.trans (s.symm hc) hrel)
        exact absurd (Prod.mk.inj hx).1.symm hk
      · exact hx ▸ hq
    · intro hq
      refine ⟨(k', x'), hq, if_neg fun hc => ?_⟩
      exact hk (congrArg Prod.fst (eq_of_rel hq hr (s.trans (s.symm hc) hrel)))

/-- Removing the row found under a key removes the key of this row. -/
theorem toMap_erase {t : KeyedRows s ν} {k : κ} {r : κ × ν} (h : t.find k = some r) :
    (t.erase k).toMap = Function.update t.toMap r.1 none := by
  obtain ⟨hr, hrel⟩ := find_eq_some_iff.mp h
  funext k'
  rw [erase, toMap_filter]
  by_cases hk : k' = r.1
  · subst hk
    simp [toMap_of_find h, hrel]
  · rw [Function.update_of_ne hk]
    cases hmap : t.toMap k' with
    | none => simp [hmap]
    | some x =>
      have hne : ¬s.r k k' := fun hc =>
        hk (congrArg Prod.fst (eq_of_rel (toMap_eq_some_iff.mp hmap) hr (s.trans (s.symm hc) hrel)))
      simp [hmap, hne]

end ToMap

/-! ### Keys that are told apart -/

/-- No row of another key passes for this key. -/
def Discerns (t : KeyedRows s ν) (k : κ) : Prop :=
  ∀ r ∈ t.rows, s.r k r.1 → r.1 = k

section Discerns

variable [DecidableEq κ] [DecidableRel s.r]

instance (t : KeyedRows s ν) (k : κ) : Decidable (t.Discerns k) :=
  inferInstanceAs (Decidable (∀ r ∈ t.rows, _))

/-- Such a key is found exactly where the map has it. -/
theorem find_eq_of_discerns {t : KeyedRows s ν} {k : κ} (h : t.Discerns k) :
    t.find k = (t.toMap k).map (k, ·) := by
  cases hmap : t.toMap k with
  | some x => exact find_eq_some_iff.mpr ⟨toMap_eq_some_iff.mp hmap, s.refl _⟩
  | none =>
    refine find_eq_none_iff.mpr fun r hr hrel => ?_
    exact toMap_eq_none_iff.mp hmap r hr (h r hr hrel)

end Discerns

end KeyedRows

end Theory
