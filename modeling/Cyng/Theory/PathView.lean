import Mathlib.Data.List.Infix
import Mathlib.Logic.Basic
import Mathlib.Tactic.SplitIfs

/-!
# Trees as seen along paths

A tree of maps with leaves, given by what stands at each path from the root. Grafting puts a
tree in the place of whatever stands at a path, with maps on the way there; pruning takes away
what stands at a path.
-/

namespace Theory.PathView

/-- What stands at a path. -/
inductive Node (lf : Type*)
  | map
  | leaf (x : lf)

/-- A tree: what stands at each path, if anything. -/
abbrev View (κ lf : Type*) := List κ → Option (Node lf)

section Below

variable {κ lf : Type*} {t t' : View κ lf} {k : κ} {p : List κ}

/-- The tree below a path. -/
def View.below (t : View κ lf) (p : List κ) : View κ lf := fun q => t (p ++ q)

/-- A leaf stands on the way to a path. -/
def View.Blocked (t : View κ lf) (p : List κ) : Prop :=
  ∃ q, q <+: p ∧ q ≠ p ∧ ∃ x, t q = some (.leaf x)

/-- A tree is its root and the trees one level down. -/
theorem ext_below (hroot : t [] = t' []) (h : ∀ k, t.below [k] = t'.below [k]) : t = t' := by
  funext q
  cases q with
  | nil => exact hroot
  | cons k q => exact congrFun (h k) q

theorem not_blocked_nil : ¬t.Blocked [] := fun ⟨_, hq, hne, _⟩ => hne (List.prefix_nil.mp hq)

theorem blocked_cons (h : t [] = some .map) : t.Blocked (k :: p) ↔ (t.below [k]).Blocked p := by
  constructor
  · rintro ⟨q, hq, hne, x, hx⟩
    cases q with
    | nil =>
      rw [h] at hx
      cases hx
    | cons k' q =>
      obtain ⟨rfl, hqp⟩ := List.cons_prefix_cons.mp hq
      exact ⟨q, hqp, fun heq => hne (heq ▸ rfl), x, hx⟩
  · rintro ⟨q, hq, hne, x, hx⟩
    exact ⟨k :: q, List.cons_prefix_cons.mpr ⟨rfl, hq⟩, fun heq => hne (List.cons.inj heq).2, x, hx⟩

/-- Paths that part from each other stay apart. -/
theorem incomparable_append {q r : List κ} (h : ¬p <+: q) (h' : ¬q <+: p) :
    ¬p <+: q ++ r ∧ ¬q ++ r <+: p := by
  constructor
  · intro hback
    rcases List.prefix_or_prefix_of_prefix hback (List.prefix_append q r) with hp | hp
    · exact h hp
    · exact h' hp
  · intro hback
    exact h' ((List.prefix_append q r).trans hback)

/-- A leaf blocks every way further down. -/
theorem blocked_of_leaf {x : lf} (h : t [] = some (.leaf x)) (hp : p ≠ []) : t.Blocked p :=
  ⟨[], List.nil_prefix, hp.symm, x, h⟩

end Below

variable {κ lf : Type*} [DecidableEq κ]

/-- A tree in the place of what stands at a path. -/
def View.graft (t : View κ lf) (p : List κ) (sub : View κ lf) : View κ lf := fun q =>
  if p <+: q then sub (q.drop p.length) else if q <+: p then some .map else t q

/-- Nothing in the place of what stands at a path. -/
def View.prune (t : View κ lf) (p : List κ) : View κ lf := fun q =>
  if p <+: q then none else t q

section Laws

variable {t t' sub sub' : View κ lf} {p p' q : List κ} {k k' : κ}

/-- What is grafted is found below the path. -/
theorem below_graft : (t.graft p sub).below p = sub := by
  funext q
  rw [View.below, View.graft, if_pos (List.prefix_append p q), List.drop_left]

/-- Elsewhere nothing changes. -/
theorem graft_of_incomparable (h : ¬p <+: q) (h' : ¬q <+: p) : t.graft p sub q = t q := by
  rw [View.graft, if_neg h, if_neg h']

theorem prune_self : t.prune p p = none := if_pos List.prefix_rfl

/-- Only what the path does not lead through or to survives a graft. -/
theorem graft_congr (h : ∀ q, ¬q <+: p → t q = t' q) : t.graft p sub = t'.graft p sub := by
  funext q
  simp only [View.graft]
  split_ifs with hq hback
  · rfl
  · rfl
  · exact h q hback

/-- Grafts at paths that part from each other commute. -/
theorem graft_comm (h : ¬p <+: p') (h' : ¬p' <+: p) :
    (t.graft p sub).graft p' sub' = (t.graft p' sub').graft p sub := by
  funext q
  by_cases hq : p <+: q
  · -- the other path neither leads to `q` nor starts there
    have hq' : ¬p' <+: q := fun hq' => (List.prefix_or_prefix_of_prefix hq hq').elim h h'
    have hback : ¬q <+: p' := fun hback => h (hq.trans hback)
    rw [graft_of_incomparable hq' hback]
    simp only [View.graft, if_pos hq]
  · by_cases hq' : p' <+: q
    · have hback : ¬q <+: p := fun hback => h' (hq'.trans hback)
      rw [graft_of_incomparable hq hback]
      simp only [View.graft, if_pos hq']
    · simp only [View.graft, if_neg hq, if_neg hq']
      split_ifs <;> rfl

/-- A graft does not stand in the way to a path that parts from it. -/
theorem blocked_graft_iff (h : ¬p <+: p') (h' : ¬t.Blocked p) :
    (t.graft p sub).Blocked p' ↔ t.Blocked p' := by
  have hcase : ∀ q, q <+: p' → ¬p <+: q := fun q hq hpq => h (hpq.trans hq)
  constructor
  · rintro ⟨q, hq, hne, x, hx⟩
    refine ⟨q, hq, hne, x, ?_⟩
    rw [View.graft, if_neg (hcase q hq)] at hx
    split_ifs at hx with hback
    · cases hx
    · exact hx
  · rintro ⟨q, hq, hne, x, hx⟩
    refine ⟨q, hq, hne, x, ?_⟩
    rw [View.graft, if_neg (hcase q hq)]
    split_ifs with hback
    · exact absurd ⟨q, hback, fun heq => hcase q hq (heq ▸ List.prefix_rfl), x, hx⟩ h'
    · exact hx

/-! One level down -/

theorem graft_singleton_below_ne (h : k' ≠ k) :
    (t.graft [k] sub).below [k'] = t.below [k'] := by
  funext q
  simp [View.below, View.graft, List.cons_prefix_cons, h, h.symm]

theorem graft_cons : t.graft (k :: p) sub = t.graft [k] ((t.below [k]).graft p sub) := by
  funext q
  cases q with
  | nil => simp [View.graft]
  | cons k' q =>
    by_cases hk : k = k'
    · subst hk
      simp [View.graft, View.below, List.cons_prefix_cons]
    · simp [View.graft, List.cons_prefix_cons, hk, Ne.symm hk]

theorem prune_singleton_below_ne (h : k' ≠ k) : (t.prune [k]).below [k'] = t.below [k'] := by
  funext q
  simp [View.below, View.prune, List.cons_prefix_cons, h.symm]

theorem prune_cons (h : t [] = some .map) :
    t.prune (k :: p) = t.graft [k] ((t.below [k]).prune p) := by
  funext q
  cases q with
  | nil => simp [View.graft, View.prune, h]
  | cons k' q =>
    by_cases hk : k = k'
    · subst hk
      simp [View.graft, View.prune, View.below, List.cons_prefix_cons]
    · simp [View.graft, View.prune, List.cons_prefix_cons, hk, Ne.symm hk]

end Laws

end Theory.PathView
