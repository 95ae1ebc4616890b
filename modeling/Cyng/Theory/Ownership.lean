import Cyng.Theory.Machine
import Mathlib.Logic.Function.Basic
import Mathlib.Data.Set.Insert

/-!
# Handles and their owners

A library gives out handles, and takes each of them back once. A program keeps handles in places
of its own, one handle in a place. What it does to them is one of four things: it puts a new handle
into a place, it empties a place without giving the handle back, it gives the handle of a place
back, or the library gives a handle to somebody else.

A new handle that overwrites another one, and a place that is emptied, lose the handle: no place
has it any more, so that nobody can ever give it back. So a program has given back all the handles
that it has no place for exactly when it has never lost one, and this can be read off its steps.
-/

namespace Theory

variable {ι : Type}

/-- The handles that are not given back, and the places where some of them are. -/
structure Ledger (ι : Type) where
  /-- the number of the next handle -/
  next : ℕ
  live : Set ℕ
  own : ι → Option ℕ

/-- What is done to a handle. -/
inductive Effect (ι : Type)
  | take (i : ι)
  | drop (i : ι)
  | release (i : ι)
  /-- somebody else gets a handle -/
  | pass

namespace Ledger

variable {l : Ledger ι} {i j : ι} {h : ℕ} {e : Effect ι} {es : List (Effect ι)}

/-- The places have handles that are not given back, each of them its own, and new handles are
different from all of them. -/
structure Sound (l : Ledger ι) : Prop where
  lt_next : ∀ h ∈ l.live, h < l.next
  live_of_own : ∀ i h, l.own i = some h → h ∈ l.live
  unique : ∀ i j h, l.own i = some h → l.own j = some h → i = j

/-- Each handle that is not given back is in a place. -/
def Tidy (l : Ledger ι) : Prop := ∀ h ∈ l.live, ∃ i, l.own i = some h

/-- No place has the handle. -/
def Lost (l : Ledger ι) (h : ℕ) : Prop := h ∈ l.live ∧ ∀ i, l.own i ≠ some h

theorem tidy_iff : l.Tidy ↔ ∀ h, ¬ l.Lost h := by
  constructor
  · intro htidy h hlost
    obtain ⟨i, hi⟩ := htidy h hlost.1
    exact hlost.2 i hi
  · intro hall h hlive
    by_contra hnone
    exact hall h ⟨hlive, fun i hi => hnone ⟨i, hi⟩⟩

variable [DecidableEq ι]

/-- The ledger after one thing was done. -/
def after (l : Ledger ι) : Effect ι → Ledger ι
  | .take i => ⟨l.next + 1, insert l.next l.live, Function.update l.own i (some l.next)⟩
  | .drop i => { l with own := Function.update l.own i none }
  | .release i =>
    { l with live := {h ∈ l.live | l.own i ≠ some h}, own := Function.update l.own i none }
  | .pass => { l with next := l.next + 1 }

/-- No handle gets lost. -/
def Careful (l : Ledger ι) : Effect ι → Prop
  | .take i | .drop i => l.own i = none
  | .release _ | .pass => True

/-- Things that are done one after the other. -/
def afterAll (l : Ledger ι) (es : List (Effect ι)) : Ledger ι := es.foldl after l

def CarefulAll (l : Ledger ι) : List (Effect ι) → Prop
  | [] => True
  | e :: es => l.Careful e ∧ CarefulAll (l.after e) es

@[simp] theorem carefulAll_nil : l.CarefulAll [] := trivial

@[simp] theorem carefulAll_cons :
    l.CarefulAll (e :: es) ↔ l.Careful e ∧ (l.after e).CarefulAll es := Iff.rfl

theorem afterAll_append {es' : List (Effect ι)} :
    l.afterAll (es ++ es') = (l.afterAll es).afterAll es' := List.foldl_append

theorem carefulAll_append {es' : List (Effect ι)} :
    l.CarefulAll (es ++ es') ↔ l.CarefulAll es ∧ (l.afterAll es).CarefulAll es' := by
  induction es generalizing l with
  | nil => exact (and_iff_right trivial).symm
  | cons e es ih => rw [List.cons_append, carefulAll_cons, ih, carefulAll_cons, and_assoc]; rfl

theorem update_eq_some_iff {own : ι → Option ℕ} {v : Option ℕ} :
    Function.update own i v j = some h ↔ (j = i ∧ v = some h) ∨ (j ≠ i ∧ own j = some h) := by
  by_cases hij : j = i
  · subst hij
    simp
  · simp [hij]

/-- What is done to handles keeps the ledger sound. -/
theorem Sound.after (sound : l.Sound) (e : Effect ι) : (l.after e).Sound := by
  obtain ⟨lt_next, live_of_own, unique⟩ := sound
  have hnew (i : ι) : l.own i ≠ some l.next := fun hi =>
    Nat.lt_irrefl _ (lt_next _ (live_of_own i _ hi))
  cases e with
  | take i =>
    refine ⟨?_, ?_, ?_⟩
    · rintro h (rfl | hlive)
      · exact Nat.lt_succ_self _
      · exact Nat.lt_succ_of_lt (lt_next h hlive)
    · intro j h hj
      rcases update_eq_some_iff.mp hj with ⟨-, heq⟩ | ⟨-, hj⟩
      · exact Or.inl (Option.some.inj heq).symm
      · exact Or.inr (live_of_own j h hj)
    · intro j k h hj hk
      rcases update_eq_some_iff.mp hj with ⟨rfl, heq⟩ | ⟨-, hold⟩
      · rcases update_eq_some_iff.mp hk with ⟨rfl, -⟩ | ⟨-, hold'⟩
        · rfl
        -- the new handle is in no other place
        · exact absurd (hold'.trans heq.symm) (hnew k)
      · rcases update_eq_some_iff.mp hk with ⟨rfl, heq⟩ | ⟨-, hold'⟩
        · exact absurd (hold.trans heq.symm) (hnew j)
        · exact unique j k h hold hold'
  | drop i =>
    refine ⟨lt_next, ?_, ?_⟩
    · intro j h hj
      rcases update_eq_some_iff.mp hj with ⟨-, heq⟩ | ⟨-, hj⟩
      · cases heq
      · exact live_of_own j h hj
    · intro j k h hj hk
      rcases update_eq_some_iff.mp hj with ⟨-, heq⟩ | ⟨-, hj⟩
      · cases heq
      rcases update_eq_some_iff.mp hk with ⟨-, heq⟩ | ⟨-, hk⟩
      · cases heq
      exact unique j k h hj hk
  | release i =>
    refine ⟨fun h hlive => lt_next h hlive.1, ?_, ?_⟩
    · intro j h hj
      rcases update_eq_some_iff.mp hj with ⟨-, heq⟩ | ⟨hne, hj⟩
      · cases heq
      · exact ⟨live_of_own j h hj, fun hi => hne (unique j i h hj hi)⟩
    · intro j k h hj hk
      rcases update_eq_some_iff.mp hj with ⟨-, heq⟩ | ⟨-, hj⟩
      · cases heq
      rcases update_eq_some_iff.mp hk with ⟨-, heq⟩ | ⟨-, hk⟩
      · cases heq
      exact unique j k h hj hk
  | pass =>
    exact ⟨fun h hlive => Nat.lt_succ_of_lt (lt_next h hlive), live_of_own, unique⟩

/-- Who is careful loses nothing. -/
theorem Tidy.after (tidy : l.Tidy) (careful : l.Careful e) : (l.after e).Tidy := by
  -- a place that a handle is found in is not emptied
  have hkept {i : ι} (hi : l.own i = none) (v : Option ℕ) {h : ℕ} (hlive : h ∈ l.live) :
      ∃ j, Function.update l.own i v j = some h := by
    obtain ⟨j, hj⟩ := tidy h hlive
    have hne : j ≠ i := by
      rintro rfl
      rw [hi] at hj
      cases hj
    exact ⟨j, update_eq_some_iff.mpr (Or.inr ⟨hne, hj⟩)⟩
  cases e with
  | take i =>
    rintro h (rfl | hlive)
    · exact ⟨i, update_eq_some_iff.mpr (Or.inl ⟨rfl, rfl⟩)⟩
    · exact hkept careful _ hlive
  | drop i => exact fun h hlive => hkept careful _ hlive
  | release i =>
    rintro h ⟨hlive, hne⟩
    obtain ⟨j, hj⟩ := tidy h hlive
    have hji : j ≠ i := by
      rintro rfl
      exact hne hj
    exact ⟨j, update_eq_some_iff.mpr (Or.inr ⟨hji, hj⟩)⟩
  | pass => exact tidy

/-- Who is not loses a handle. -/
theorem Sound.exists_lost (sound : l.Sound) (careless : ¬ l.Careful e) :
    ∃ h, (l.after e).Lost h := by
  have hlost {i : ι} {h : ℕ} (hi : l.own i = some h) {v : Option ℕ} (hv : v ≠ some h) (j : ι) :
      Function.update l.own i v j ≠ some h := by
    intro hj
    rcases update_eq_some_iff.mp hj with ⟨-, heq⟩ | ⟨hne, hj⟩
    · exact hv heq
    · exact hne (sound.unique j i h hj hi)
  cases e with
  | take i =>
    obtain ⟨h, hi⟩ := Option.ne_none_iff_exists'.mp careless
    have hlive := sound.live_of_own i h hi
    refine ⟨h, Or.inr hlive, hlost hi ?_⟩
    intro heq
    exact Nat.ne_of_gt (sound.lt_next h hlive) (Option.some.inj heq)
  | drop i =>
    obtain ⟨h, hi⟩ := Option.ne_none_iff_exists'.mp careless
    exact ⟨h, sound.live_of_own i h hi, hlost hi (Option.some_ne_none h).symm⟩
  | release i => exact absurd trivial careless
  | pass => exact absurd trivial careless

/-- What is lost stays lost. -/
theorem Sound.lost_after (sound : l.Sound) (lost : l.Lost h) (e : Effect ι) :
    (l.after e).Lost h := by
  obtain ⟨hlive, hnone⟩ := lost
  have hkept {i : ι} {v : Option ℕ} (hv : v ≠ some h) (j : ι) :
      Function.update l.own i v j ≠ some h := by
    intro hj
    rcases update_eq_some_iff.mp hj with ⟨-, heq⟩ | ⟨-, hj⟩
    · exact hv heq
    · exact hnone j hj
  cases e with
  | take i =>
    refine ⟨Or.inr hlive, hkept fun heq => ?_⟩
    exact Nat.ne_of_gt (sound.lt_next h hlive) (Option.some.inj heq)
  | drop i => exact ⟨hlive, hkept (Option.some_ne_none h).symm⟩
  | release i => exact ⟨⟨hlive, hnone i⟩, hkept (Option.some_ne_none h).symm⟩
  | pass => exact ⟨hlive, hnone⟩

/-! ### Several things, and runs -/

theorem Sound.afterAll (sound : l.Sound) : (l.afterAll es).Sound := by
  induction es generalizing l with
  | nil => exact sound
  | cons e es ih => exact ih (sound.after e)

theorem Tidy.afterAll (tidy : l.Tidy) (careful : l.CarefulAll es) : (l.afterAll es).Tidy := by
  induction es generalizing l with
  | nil => exact tidy
  | cons e es ih => exact ih (tidy.after careful.1) careful.2

theorem Sound.lost_afterAll (sound : l.Sound) (lost : l.Lost h) : (l.afterAll es).Lost h := by
  induction es generalizing l with
  | nil => exact lost
  | cons e es ih => exact ih (sound.after e) (sound.lost_after lost e)

theorem Sound.exists_lost_afterAll (sound : l.Sound) (careless : ¬ l.CarefulAll es) :
    ∃ h, (l.afterAll es).Lost h := by
  induction es generalizing l with
  | nil => exact absurd trivial careless
  | cons e es ih =>
    by_cases hcareful : l.Careful e
    · exact ih (sound.after e) fun hrest => careless ⟨hcareful, hrest⟩
    · obtain ⟨h, hlost⟩ := sound.exists_lost hcareful
      exact ⟨h, (sound.after e).lost_afterAll hlost⟩

section Runs

variable {σ κ ο ε : Type} {step : Step σ κ ο ε} {view : σ → Ledger ι} {careful : σ → κ → Prop}
  {s s' : σ} {call : κ} {calls : List κ} {os : List ο}

/-- Each call of a program does some things to handles, and it is careful when they are. -/
def Follows (step : Step σ κ ο ε) (view : σ → Ledger ι) (careful : σ → κ → Prop) : Prop :=
  ∀ s call s' os, step s call = .ok (s', os) →
    ∃ es, view s' = (view s).afterAll es ∧ ((view s).CarefulAll es ↔ careful s call)

theorem Follows.sound (follows : Follows step view careful) (sound : (view s).Sound)
    (h : step s call = .ok (s', os)) : (view s').Sound := by
  obtain ⟨es, hview, -⟩ := follows s call s' os h
  rw [hview]
  exact sound.afterAll

/-- A handle that is lost is lost at the end. -/
theorem Follows.lost (follows : Follows step view careful) (sound : (view s).Sound)
    (lost : (view s).Lost h) (hrun : Step.run step s calls = .ok (s', os)) :
    (view s').Lost h := by
  have hstep : ∀ s call t out, (view s).Sound ∧ (view s).Lost h → True →
      step s call = .ok (t, out) → (view t).Sound ∧ (view t).Lost h := by
    intro s call t out hboth _ hcall
    refine ⟨follows.sound hboth.1 hcall, ?_⟩
    obtain ⟨es, hview, -⟩ := follows s call t out hcall
    rw [hview]
    exact hboth.1.lost_afterAll hboth.2
  have hguard : Step.Guarded step (fun _ _ => True) s calls :=
    Step.guarded_of_forall fun _ _ => trivial
  exact (Step.run_preserves hstep ⟨sound, lost⟩ hguard hrun).2

/-- A run leaves nothing lost exactly when each of its calls is careful. -/
theorem Follows.tidy_iff (follows : Follows step view careful) (sound : (view s).Sound)
    (tidy : (view s).Tidy) (h : Step.run step s calls = .ok (s', os)) :
    (view s').Tidy ↔ Step.Guarded step careful s calls := by
  induction calls generalizing s os with
  | nil =>
    obtain ⟨rfl, -⟩ : s = s' ∧ os = [] := by simpa [eq_comm] using h
    exact iff_of_true tidy trivial
  | cons call calls ih =>
    obtain ⟨t, out, out', hstep, hrest, -⟩ := Step.run_cons_eq_ok_iff.mp h
    obtain ⟨es, hview, hcareful⟩ := follows s call t out hstep
    have hsound := follows.sound sound hstep
    rw [Step.guarded_cons_of_ok hstep, ← hcareful]
    by_cases hes : (view s).CarefulAll es
    · have htidy : (view t).Tidy := hview ▸ tidy.afterAll hes
      rw [ih hsound htidy hrest]
      exact (and_iff_right hes).symm
    · -- what the call has lost nobody finds again
      obtain ⟨h, hlost⟩ := sound.exists_lost_afterAll hes
      have hend := follows.lost hsound (hview ▸ hlost) hrest
      exact iff_of_false (fun hall => Ledger.tidy_iff.mp hall h hend) (fun hall => hes hall.1)

end Runs

end Ledger

end Theory
