import Mathlib.Data.List.Dedup

/-!
# Texts under names

Texts are kept under names, one after the other, and a name that is used again loses the text it
had. What is kept, each name once and in the order of the last uses, is everything that was ever
written exactly when no name was used twice; an empty text would not be missed.
-/

namespace Theory

variable {κ α : Type} [DecidableEq κ]

/-- The text that was kept last under a name. -/
def kept : List (κ × List α) → κ → Option (List α)
  | [], _ => none
  | (name, text) :: rest, k => (kept rest k).or (if name = k then some text else none)

variable {name k : κ} {text : List α} {texts rest : List (κ × List α)}

theorem kept_append_singleton :
    kept (texts ++ [(name, text)]) k = if name = k then some text else kept texts k := by
  induction texts with
  | nil => simp [kept]
  | cons head texts ih =>
    rw [List.cons_append, kept, ih, kept]
    by_cases h : name = k
    · simp [h]
    · simp [h]

theorem kept_eq_none_iff : kept texts k = none ↔ k ∉ texts.map Prod.fst := by
  induction texts with
  | nil => simp [kept]
  | cons head texts ih =>
    rw [kept, Option.or_eq_none_iff, ih, List.map_cons, List.mem_cons, not_or, and_comm]
    simp [eq_comm]

/-- A name that is used again keeps what comes later. -/
theorem kept_cons_of_mem (h : k ∈ rest.map Prod.fst) :
    kept ((name, text) :: rest) k = kept rest k := by
  rw [kept]
  cases hkept : kept rest k with
  | none => exact absurd h (kept_eq_none_iff.mp hkept)
  | some found => rfl

theorem kept_cons_self (h : name ∉ rest.map Prod.fst) :
    kept ((name, text) :: rest) name = some text := by
  rw [kept, kept_eq_none_iff.mpr h, if_pos rfl]
  rfl

/-- All that is kept, each name once. -/
def keptAll (texts : List (κ × List α)) : List α :=
  ((texts.map Prod.fst).dedup.map fun k => (kept texts k).getD []).flatten

theorem keptAll_cons_of_mem (h : name ∈ rest.map Prod.fst) :
    keptAll ((name, text) :: rest) = keptAll rest := by
  have hnames : (((name, text) :: rest).map Prod.fst).dedup = (rest.map Prod.fst).dedup := by
    rw [List.map_cons, List.dedup_cons_of_mem h]
  rw [keptAll, hnames, keptAll]
  congr 1
  apply List.map_congr_left
  intro k hk
  rw [kept_cons_of_mem (List.mem_dedup.mp hk)]

theorem keptAll_cons_of_notMem (h : name ∉ rest.map Prod.fst) :
    keptAll ((name, text) :: rest) = text ++ keptAll rest := by
  have hnames : (((name, text) :: rest).map Prod.fst).dedup =
      name :: (rest.map Prod.fst).dedup := by
    rw [List.map_cons, List.dedup_cons_of_notMem h]
  rw [keptAll, hnames, List.map_cons, List.flatten_cons, kept_cons_self h, keptAll]
  congr 2
  apply List.map_congr_left
  intro k hk
  rw [kept_cons_of_mem (List.mem_dedup.mp hk)]

theorem length_keptAll_le (texts : List (κ × List α)) :
    (keptAll texts).length ≤ (texts.map Prod.snd).flatten.length := by
  induction texts with
  | nil => exact Nat.le_refl _
  | cons head rest ih =>
    obtain ⟨name, text⟩ := head
    have hlength : (((name, text) :: rest).map Prod.snd).flatten.length =
        text.length + (rest.map Prod.snd).flatten.length := by simp
    rw [hlength]
    by_cases h : name ∈ rest.map Prod.fst
    · rw [keptAll_cons_of_mem h]
      omega
    · rw [keptAll_cons_of_notMem h, List.length_append]
      omega

/-- Everything is kept exactly when no name was used twice. -/
theorem keptAll_eq_iff (hne : ∀ t ∈ texts, t.2 ≠ []) :
    keptAll texts = (texts.map Prod.snd).flatten ↔ (texts.map Prod.fst).Nodup := by
  induction texts with
  | nil => simp [keptAll]
  | cons head rest ih =>
    obtain ⟨name, text⟩ := head
    obtain ⟨htext, hrest⟩ := List.forall_mem_cons.mp hne
    rw [List.map_cons, List.map_cons, List.flatten_cons, List.nodup_cons]
    by_cases h : name ∈ rest.map Prod.fst
    · -- the text is lost, and it was not empty
      rw [keptAll_cons_of_mem h]
      apply iff_of_false
      · intro heq
        have hlength := length_keptAll_le rest
        have hpos := List.length_pos_iff.mpr htext
        rw [heq, List.length_append] at hlength
        omega
      · exact fun hall => hall.1 h
    · rw [keptAll_cons_of_notMem h, List.append_cancel_left_eq, ih hrest]
      exact (and_iff_right h).symm

end Theory
