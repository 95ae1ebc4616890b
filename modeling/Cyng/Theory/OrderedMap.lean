import Mathlib.Order.Lattice
import Mathlib.Data.List.Basic

/-!
# Maps as ordered lists of entries

A finite map over linearly ordered keys is the list of its entries in strictly
ascending order of the keys. Insertion never overwrites: an entry whose key is
there already leaves the map as it is.
-/

namespace Theory.OrderedMap

universe u v

variable {κ : Type u} {ν : Type v} [LinearOrder κ]

/-- The keys ascend strictly, so no key occurs twice. -/
def Sorted (m : List (κ × ν)) : Prop :=
  m.Pairwise fun a b => a.1 < b.1

instance (m : List (κ × ν)) : Decidable (Sorted m) :=
  inferInstanceAs (Decidable (m.Pairwise fun a b => a.1 < b.1))

/-- Insert an entry unless its key is there already. -/
def insert (k : κ) (x : ν) : List (κ × ν) → List (κ × ν)
  | [] => [(k, x)]
  | (k', x') :: m =>
    if k < k' then (k, x) :: (k', x') :: m
    else if k = k' then (k', x') :: m
    else (k', x') :: insert k x m

/-- Insert the entries of a list one after the other, the last one first. -/
def ofEntries : List (κ × ν) → List (κ × ν)
  | [] => []
  | e :: es => insert e.1 e.2 (ofEntries es)

section Basics

variable {k : κ} {x : ν} {m : List (κ × ν)}

theorem sorted_nil : Sorted ([] : List (κ × ν)) := List.Pairwise.nil

theorem sorted_cons {e : κ × ν} : Sorted (e :: m) ↔ (∀ a ∈ m, e.1 < a.1) ∧ Sorted m :=
  List.pairwise_cons

/-- The order is one of the keys. -/
theorem sorted_iff_keys : Sorted m ↔ (m.map Prod.fst).Pairwise (· < ·) :=
  List.pairwise_map.symm

theorem mem_insert {a : κ × ν} (h : a ∈ insert k x m) : a = (k, x) ∨ a ∈ m := by
  induction m with
  | nil => simpa [insert] using h
  | cons e m ih =>
    obtain ⟨k', x'⟩ := e
    rw [insert] at h
    split_ifs at h with hlt heq
    · simpa using h
    · exact Or.inr h
    · rcases List.mem_cons.mp h with rfl | h
      · exact Or.inr List.mem_cons_self
      · exact (ih h).imp id (List.mem_cons_of_mem _)

/-- Insertion keeps the order. -/
theorem sorted_insert (h : Sorted m) : Sorted (insert k x m) := by
  induction m with
  | nil => simp [insert, Sorted]
  | cons e m ih =>
    obtain ⟨k', x'⟩ := e
    obtain ⟨hhead, htail⟩ := sorted_cons.mp h
    rw [insert]
    split_ifs with hlt heq
    · refine sorted_cons.mpr ⟨?_, h⟩
      intro a ha
      rcases List.mem_cons.mp ha with rfl | ha
      · exact hlt
      · exact lt_trans hlt (hhead a ha)
    · exact h
    · refine sorted_cons.mpr ⟨?_, ih htail⟩
      intro a ha
      rcases mem_insert ha with rfl | ha
      · exact lt_of_le_of_ne (not_lt.mp hlt) (Ne.symm heq)
      · exact hhead a ha

/-- Entries stay. -/
theorem mem_insert_of_mem {a : κ × ν} (h : a ∈ m) : a ∈ insert k x m := by
  induction m with
  | nil => exact absurd h List.not_mem_nil
  | cons e m ih =>
    obtain ⟨k', x'⟩ := e
    rw [insert]
    split_ifs
    · exact List.mem_cons_of_mem _ h
    · exact h
    · rcases List.mem_cons.mp h with rfl | h
      · exact List.mem_cons_self
      · exact List.mem_cons_of_mem _ (ih h)

/-- The key is there afterwards, with the new value or with an old one. -/
theorem exists_mem_insert : ∃ y, (k, y) ∈ insert k x m := by
  induction m with
  | nil => exact ⟨x, List.mem_cons_self⟩
  | cons e m ih =>
    obtain ⟨k', x'⟩ := e
    rw [insert]
    split_ifs with hlt heq
    · exact ⟨x, List.mem_cons_self⟩
    · exact ⟨x', by rw [heq]; exact List.mem_cons_self⟩
    · obtain ⟨y, hy⟩ := ih
      exact ⟨y, List.mem_cons_of_mem _ hy⟩

/-- An entry below all others goes to the front. -/
theorem insert_of_forall_lt (h : ∀ a ∈ m, k < a.1) : insert k x m = (k, x) :: m := by
  cases m with
  | nil => rfl
  | cons e m => rw [insert, if_pos (h e List.mem_cons_self)]

end Basics

section OfEntries

variable {es : List (κ × ν)}

/-- Building a map from its own entries gives it back. -/
theorem ofEntries_of_sorted (h : Sorted es) : ofEntries es = es := by
  induction es with
  | nil => rfl
  | cons e es ih =>
    obtain ⟨hhead, htail⟩ := sorted_cons.mp h
    rw [ofEntries, ih htail, insert_of_forall_lt hhead]

end OfEntries

/-- Insert the entries of a list one after the other, the first one first. -/
def insertAll (m : List (κ × ν)) (es : List (κ × ν)) : List (κ × ν) :=
  es.foldl (fun m e => insert e.1 e.2 m) m

section InsertAll

variable {m es : List (κ × ν)} {a : κ × ν}

theorem sorted_insertAll (h : Sorted m) : Sorted (insertAll m es) := by
  induction es generalizing m with
  | nil => exact h
  | cons e es ih => exact ih (sorted_insert h)

theorem mem_insertAll (h : a ∈ insertAll m es) : a ∈ m ∨ a ∈ es := by
  induction es generalizing m with
  | nil => exact Or.inl h
  | cons e es ih =>
    rcases ih h with hm | hes
    · rcases mem_insert hm with rfl | hm
      · exact Or.inr List.mem_cons_self
      · exact Or.inl hm
    · exact Or.inr (List.mem_cons_of_mem _ hes)

theorem mem_insertAll_of_mem (h : a ∈ m) : a ∈ insertAll m es := by
  induction es generalizing m with
  | nil => exact h
  | cons e es ih => exact ih (mem_insert_of_mem h)

theorem exists_mem_insertAll (h : a ∈ es) : ∃ y, (a.1, y) ∈ insertAll m es := by
  induction es generalizing m with
  | nil => exact absurd h List.not_mem_nil
  | cons e es ih =>
    rcases List.mem_cons.mp h with rfl | h
    · obtain ⟨y, hy⟩ := exists_mem_insert (k := a.1) (x := a.2) (m := m)
      have hstays : (a.1, y) ∈ insertAll (insert a.1 a.2 m) es := mem_insertAll_of_mem hy
      exact ⟨y, hstays⟩
    · exact ih h

/-- An entry that shares its key with no other entry is not lost. -/
theorem mem_insertAll_nil_of_unique (h : a ∈ es) (unique : ∀ e ∈ es, e.1 = a.1 → e = a) :
    a ∈ insertAll [] es := by
  obtain ⟨y, hy⟩ := exists_mem_insertAll (m := []) h
  rcases mem_insertAll hy with hnil | hes
  · exact absurd hnil List.not_mem_nil
  · exact unique _ hes rfl ▸ hy

end InsertAll

/-! ### Single entries -/

/-- The value of a key. -/
def find (k : κ) : List (κ × ν) → Option ν
  | [] => none
  | (k', x) :: m => if k = k' then some x else find k m

/-- Remove the entry of a key. -/
def erase (k : κ) : List (κ × ν) → List (κ × ν)
  | [] => []
  | (k', x) :: m => if k = k' then m else (k', x) :: erase k m

/-- Give a key a value, whether it is there or not. -/
def put (k : κ) (x : ν) : List (κ × ν) → List (κ × ν)
  | [] => [(k, x)]
  | (k', x') :: m =>
    if k < k' then (k, x) :: (k', x') :: m
    else if k = k' then (k, x) :: m
    else (k', x') :: put k x m

section Single

variable {k k' : κ} {x : ν} {m m' : List (κ × ν)}

theorem find_cons_self : find k ((k, x) :: m) = some x := if_pos rfl

theorem find_cons_ne (h : k ≠ k') : find k ((k', x) :: m) = find k m := if_neg h

theorem mem_of_find (h : find k m = some x) : (k, x) ∈ m := by
  induction m with
  | nil => cases h
  | cons e m ih =>
    obtain ⟨k', x'⟩ := e
    by_cases hk : k = k'
    · subst hk
      rw [find_cons_self] at h
      cases h
      exact List.mem_cons_self
    · rw [find_cons_ne hk] at h
      exact List.mem_cons_of_mem _ (ih h)

theorem find_of_mem (hm : Sorted m) (h : (k, x) ∈ m) : find k m = some x := by
  induction m with
  | nil => exact absurd h List.not_mem_nil
  | cons e m ih =>
    obtain ⟨k', x'⟩ := e
    obtain ⟨hhead, htail⟩ := sorted_cons.mp hm
    rcases List.mem_cons.mp h with heq | hmem
    · cases heq
      exact find_cons_self
    · rw [find_cons_ne (ne_of_gt (hhead _ hmem))]
      exact ih htail hmem

/-- A key below all others of a map is not in it. -/
theorem find_of_forall_lt (h : ∀ a ∈ m, k < a.1) : find k m = none := by
  cases hfind : find k m with
  | none => rfl
  | some x => exact absurd (h _ (mem_of_find hfind)) (lt_irrefl k)

/-- A map is what its keys are mapped to. -/
theorem ext_find (hm : Sorted m) (hm' : Sorted m') (h : ∀ k, find k m = find k m') : m = m' := by
  have hmem : ∀ a, a ∈ m ↔ a ∈ m' := by
    intro a
    constructor
    · intro ha
      exact mem_of_find ((h a.1).symm.trans (find_of_mem hm ha))
    · intro ha
      exact mem_of_find ((h a.1).trans (find_of_mem hm' ha))
  have hnodup : ∀ {m : List (κ × ν)}, Sorted m → m.Nodup := fun hm =>
    hm.imp fun hlt heq => absurd (congrArg Prod.fst heq) (ne_of_lt hlt)
  have hperm : m.Perm m' := (List.perm_ext_iff_of_nodup (hnodup hm) (hnodup hm')).mpr hmem
  exact hperm.eq_of_pairwise (fun a b _ _ hab hba => absurd (lt_trans hab hba) (lt_irrefl a.1))
    hm hm'

theorem find_put_self : find k (put k x m) = some x := by
  induction m with
  | nil => exact find_cons_self
  | cons e m ih =>
    obtain ⟨k', x'⟩ := e
    rw [put]
    split_ifs with hlt heq
    · exact find_cons_self
    · exact find_cons_self
    · rw [find_cons_ne heq, ih]

theorem find_put_ne (h : k' ≠ k) : find k' (put k x m) = find k' m := by
  induction m with
  | nil => exact find_cons_ne h
  | cons e m ih =>
    obtain ⟨k'', x'⟩ := e
    rw [put]
    split_ifs with hlt heq
    · exact find_cons_ne h
    · rw [find_cons_ne h, find_cons_ne (heq ▸ h)]
    · rw [find, find, ih]

theorem mem_put {a : κ × ν} (h : a ∈ put k x m) : a = (k, x) ∨ a ∈ m := by
  induction m with
  | nil => simpa [put] using h
  | cons e m ih =>
    obtain ⟨k', x'⟩ := e
    rw [put] at h
    split_ifs at h with hlt heq
    · simpa using h
    · rcases List.mem_cons.mp h with rfl | h
      · exact Or.inl rfl
      · exact Or.inr (List.mem_cons_of_mem _ h)
    · rcases List.mem_cons.mp h with rfl | h
      · exact Or.inr List.mem_cons_self
      · exact (ih h).imp id (List.mem_cons_of_mem _)

theorem sorted_put (h : Sorted m) : Sorted (put k x m) := by
  induction m with
  | nil => simp [put, Sorted]
  | cons e m ih =>
    obtain ⟨k', x'⟩ := e
    obtain ⟨hhead, htail⟩ := sorted_cons.mp h
    rw [put]
    split_ifs with hlt heq
    · refine sorted_cons.mpr ⟨?_, h⟩
      intro a ha
      rcases List.mem_cons.mp ha with rfl | ha
      · exact hlt
      · exact lt_trans hlt (hhead a ha)
    · exact sorted_cons.mpr ⟨fun a ha => heq ▸ hhead a ha, htail⟩
    · refine sorted_cons.mpr ⟨?_, ih htail⟩
      intro a ha
      rcases mem_put ha with rfl | ha
      · exact lt_of_le_of_ne (not_lt.mp hlt) (Ne.symm heq)
      · exact hhead a ha

/-- To give a key the value that it has changes nothing. -/
theorem put_of_find (hm : Sorted m) (h : find k m = some x) : put k x m = m := by
  apply ext_find (sorted_put hm) hm
  intro k'
  by_cases hk : k' = k
  · rw [hk, find_put_self, h]
  · exact find_put_ne hk

/-- Insertion is an update where the key is not there. -/
theorem insert_of_find_none (h : find k m = none) : insert k x m = put k x m := by
  induction m with
  | nil => rfl
  | cons e m ih =>
    obtain ⟨k', x'⟩ := e
    by_cases hk : k = k'
    · rw [hk, find_cons_self] at h
      cases h
    · rw [find_cons_ne hk] at h
      rw [insert, put, if_neg hk, if_neg hk, ih h]

/-- Insertion does nothing where the key is there. -/
theorem insert_of_find_some {y : ν} (hm : Sorted m) (h : find k m = some y) :
    insert k x m = m := by
  induction m with
  | nil => cases h
  | cons e m ih =>
    obtain ⟨k', x'⟩ := e
    obtain ⟨hhead, htail⟩ := sorted_cons.mp hm
    by_cases hk : k = k'
    · rw [insert, if_neg (hk ▸ lt_irrefl k), if_pos hk]
    · rw [find_cons_ne hk] at h
      have hlt : ¬k < k' := not_lt.mpr (hhead _ (mem_of_find h)).le
      rw [insert, if_neg hlt, if_neg hk, ih htail h]

theorem mem_of_mem_erase {a : κ × ν} (h : a ∈ erase k m) : a ∈ m := by
  induction m with
  | nil => exact h
  | cons e m ih =>
    obtain ⟨k', x'⟩ := e
    rw [erase] at h
    split_ifs at h with heq
    · exact List.mem_cons_of_mem _ h
    · rcases List.mem_cons.mp h with rfl | h
      · exact List.mem_cons_self
      · exact List.mem_cons_of_mem _ (ih h)

theorem sorted_erase (h : Sorted m) : Sorted (erase k m) := by
  induction m with
  | nil => exact h
  | cons e m ih =>
    obtain ⟨k', x'⟩ := e
    obtain ⟨hhead, htail⟩ := sorted_cons.mp h
    rw [erase]
    split_ifs with heq
    · exact htail
    · exact sorted_cons.mpr ⟨fun a ha => hhead a (mem_of_mem_erase ha), ih htail⟩

theorem find_erase_self (h : Sorted m) : find k (erase k m) = none := by
  induction m with
  | nil => rfl
  | cons e m ih =>
    obtain ⟨k', x'⟩ := e
    obtain ⟨hhead, htail⟩ := sorted_cons.mp h
    rw [erase]
    split_ifs with heq
    · subst heq
      exact find_of_forall_lt hhead
    · rw [find_cons_ne heq, ih htail]

theorem find_erase_ne (h : k' ≠ k) : find k' (erase k m) = find k' m := by
  induction m with
  | nil => rfl
  | cons e m ih =>
    obtain ⟨k'', x'⟩ := e
    rw [erase]
    split_ifs with heq
    · exact (find_cons_ne (heq ▸ h)).symm
    · rw [find, find, ih]

end Single

end Theory.OrderedMap
