import Cyng.Obj.Object
import Cyng.Theory.Numerals

/-!
# Rewriting an object

`transform` walks down an object and asks a callback about every node that is not a pair: to keep
it, to replace it or to remove it. It goes on below the nodes that are kept. One variant tells the
callback the depth of a node, the other one the names on the way to it.

What comes out is the object without the nodes that are removed, with one exception. A pair whose
value is to be removed stays as it is, when the pair itself is an element of something.
-/

namespace Cyng

open Theory

namespace Dom

/-- `action` -/
inductive Action
  | none | replace | remove
deriving DecidableEq

/-- The key as a part of a path. -/
def keyName : Key → Bytes
  | .index i => numeral 10 i.toNat
  | .name n => n
  | .code c => hexBytes c.val

/-- What a variant of `transform` tells about a node: how it changes from a sequence to an
element, from a map to a value, and from a pair to its value. -/
structure Position (γ : Type) where
  item : γ → γ
  entry : Key → γ → γ
  pair : Key → γ → γ

/-- The depth of a node. -/
def depthPosition : Position ℕ where
  item depth := depth + 1
  entry _ depth := depth + 1
  pair _ depth := depth

/-- The names on the way to a node. -/
def pathPosition : Position (List Bytes) where
  item path := path
  entry key path := path ++ [keyName key]
  pair key path := path ++ [keyName key]

section Transform

variable {γ : Type} (pos : Position γ) (f : Obj → γ → Obj × Action)

/-- What a call of `transform` leaves: the request to remove the object, the object, and the
calls of the callback. -/
structure Outcome (γ : Type) where
  erase : Bool
  obj : Obj
  calls : List (Obj × γ)

/-- Ask the callback about a node, and go on below the node if it is kept. -/
def askAbout (o : Obj) (here : γ) (below : Obj × List (Obj × γ)) : Outcome γ :=
  match f o here with
  | (_, .remove) => ⟨true, o, [(o, here)]⟩
  | (r, .replace) => ⟨false, r, [(o, here)]⟩
  | (_, .none) => ⟨false, below.1, (o, here) :: below.2⟩

mutual

/-- `transform` of an object -/
def transform (here : γ) : Obj → Outcome γ
  | .seq kind items =>
    let r := transformItems (pos.item here) items
    askAbout f (.seq kind items) here (.seq kind r.1, r.2)
  | .map kind entries =>
    let r := transformEntries here entries
    askAbout f (.map kind entries) here (.map kind r.1, r.2)
  -- the request to remove the value is not looked at
  | .pair key value =>
    let r := transform (pos.pair key here) value
    ⟨false, .pair key r.obj, r.calls⟩
  | o => askAbout f o here (o, [])

/-- `transform` of the elements of a sequence -/
def transformItems (here : γ) : List Obj → List Obj × List (Obj × γ)
  | [] => ([], [])
  | item :: items =>
    let r := transform here item
    let rest := transformItems here items
    (if r.erase then rest.1 else r.obj :: rest.1, r.calls ++ rest.2)

/-- `transform` of the entries of a map -/
def transformEntries (here : γ) : List (Key × Obj) → List (Key × Obj) × List (Obj × γ)
  | [] => ([], [])
  | (key, value) :: entries =>
    let r := transform (pos.entry key here) value
    let rest := transformEntries here entries
    (if r.erase then rest.1 else (key, r.obj) :: rest.1, r.calls ++ rest.2)

end

/-! ### The reference -/

mutual

/-- The nodes that the callback is asked about, in order. -/
def visited (here : γ) : Obj → List (Obj × γ)
  | .seq kind items =>
    (.seq kind items, here) ::
      if (f (.seq kind items) here).2 = .none then visitedItems (pos.item here) items else []
  | .map kind entries =>
    (.map kind entries, here) ::
      if (f (.map kind entries) here).2 = .none then visitedEntries here entries else []
  | .pair key value => visited (pos.pair key here) value
  | o => [(o, here)]

def visitedItems (here : γ) : List Obj → List (Obj × γ)
  | [] => []
  | item :: items => visited here item ++ visitedItems here items

def visitedEntries (here : γ) : List (Key × Obj) → List (Obj × γ)
  | [] => []
  | (key, value) :: entries => visited (pos.entry key here) value ++ visitedEntries here entries

end

/-- What a callback makes of a node, where the node is kept with other contents. -/
def answered (o : Obj) (here : γ) (kept : Obj) : Option Obj :=
  match f o here with
  | (_, .remove) => none
  | (r, .replace) => some r
  | (_, .none) => some kept

mutual

/-- The object as the callback wants it: nothing if it is removed. -/
def rewritten (here : γ) : Obj → Option Obj
  | .seq kind items =>
    answered f (.seq kind items) here (.seq kind (rewrittenItems (pos.item here) items))
  | .map kind entries =>
    answered f (.map kind entries) here (.map kind (rewrittenEntries here entries))
  -- without its value the pair is absent
  | .pair key value => (rewritten (pos.pair key here) value).map (.pair key)
  | o => answered f o here o

def rewrittenItems (here : γ) : List Obj → List Obj
  | [] => []
  | item :: items => (rewritten here item).toList ++ rewrittenItems here items

def rewrittenEntries (here : γ) : List (Key × Obj) → List (Key × Obj)
  | [] => []
  | (key, value) :: entries =>
    ((rewritten (pos.entry key here) value).map (Prod.mk key)).toList ++
      rewrittenEntries here entries

end

/-- The callback removes the object, or the value of the pair. -/
def Removes (here : γ) : Obj → Prop
  | .pair key value => Removes (pos.pair key here) value
  | o => (f o here).2 = .remove

/-- `is_of_type<TC_ATTR>`, `is_of_type<TC_PARAM>` or `is_of_type<TC_PROP>` -/
def isPair : Obj → Bool
  | .pair _ _ => true
  | _ => false

mutual

/-- Of no pair that is an element of a visited container the value is removed. -/
def KeepsPairs (here : γ) : Obj → Prop
  | .seq kind items =>
    (f (.seq kind items) here).2 = .none → keepsPairsItems (pos.item here) items
  | .map kind entries => (f (.map kind entries) here).2 = .none → keepsPairsEntries here entries
  | .pair key value => KeepsPairs (pos.pair key here) value
  | _ => True

def keepsPairsItems (here : γ) : List Obj → Prop
  | [] => True
  | item :: items =>
    (isPair item → ¬Removes pos f here item) ∧ KeepsPairs here item ∧ keepsPairsItems here items

def keepsPairsEntries (here : γ) : List (Key × Obj) → Prop
  | [] => True
  | (key, value) :: entries =>
    (isPair value → ¬Removes pos f (pos.entry key here) value) ∧
      KeepsPairs (pos.entry key here) value ∧ keepsPairsEntries here entries

end

/-! ### Calls -/

variable {pos f}

theorem calls_askAbout (o : Obj) (here : γ) (below : Obj × List (Obj × γ)) :
    (askAbout f o here below).calls =
      (o, here) :: if (f o here).2 = .none then below.2 else [] := by
  rw [askAbout]
  split <;> simp [*]

mutual

/-- The callback is asked about the nodes that are to be visited, and about each of them once. -/
theorem calls_transform (here : γ) (o : Obj) :
    (transform pos f here o).calls = visited pos f here o := by
  cases o with
  | scalar v =>
    rw [transform, calls_askAbout, ite_self, visited] <;> simp
  | prg program =>
    rw [transform, calls_askAbout, ite_self, visited] <;> simp
  | pair key value => exact calls_transform (pos.pair key here) value
  | seq kind items =>
    rw [transform, calls_askAbout, visited, ← calls_transformItems]
  | map kind entries =>
    rw [transform, calls_askAbout, visited, ← calls_transformEntries]

theorem calls_transformItems (here : γ) (items : List Obj) :
    (transformItems pos f here items).2 = visitedItems pos f here items := by
  cases items with
  | nil => rfl
  | cons item items =>
    rw [transformItems, visitedItems, calls_transform, calls_transformItems]

theorem calls_transformEntries (here : γ) (entries : List (Key × Obj)) :
    (transformEntries pos f here entries).2 = visitedEntries pos f here entries := by
  cases entries with
  | nil => rfl
  | cons entry entries =>
    obtain ⟨key, value⟩ := entry
    rw [transformEntries, visitedEntries, calls_transform, calls_transformEntries]

end

/-! ### Results -/

theorem erase_askAbout (o : Obj) (here : γ) (below : Obj × List (Obj × γ)) :
    (askAbout f o here below).erase = true ↔ (f o here).2 = .remove := by
  rw [askAbout]
  split <;> simp [*]

/-- The request to remove an object is passed up, but not from the value of a pair. -/
theorem erase_transform (here : γ) (o : Obj) :
    (transform pos f here o).erase = true ↔ isPair o = false ∧ Removes pos f here o := by
  cases o with
  | pair key value => simp [transform, isPair]
  | scalar v => simp [transform, isPair, Removes, erase_askAbout]
  | prg program => simp [transform, isPair, Removes, erase_askAbout]
  | seq kind items => simp [transform, isPair, Removes, erase_askAbout]
  | map kind entries => simp [transform, isPair, Removes, erase_askAbout]

theorem answered_eq_none_iff {o kept : Obj} {here : γ} :
    answered f o here kept = none ↔ (f o here).2 = .remove := by
  rw [answered]
  split <;> simp [*]

theorem rewritten_eq_none_iff (here : γ) (o : Obj) :
    rewritten pos f here o = none ↔ Removes pos f here o := by
  cases o with
  | pair key value =>
    rw [rewritten, Option.map_eq_none_iff]
    exact rewritten_eq_none_iff (pos.pair key here) value
  | scalar v => simp [rewritten, Removes, answered_eq_none_iff]
  | prg program => simp [rewritten, Removes, answered_eq_none_iff]
  | seq kind items => simp [rewritten, Removes, answered_eq_none_iff]
  | map kind entries => simp [rewritten, Removes, answered_eq_none_iff]

/-- A node is rewritten as its contents are, where these count. -/
theorem obj_askAbout_iff {o : Obj} {here : γ} {below : Obj × List (Obj × γ)} {kept : Obj} :
    (askAbout f o here below).obj = (answered f o here kept).getD o ↔
      ((f o here).2 = .none → below.1 = kept) := by
  rw [askAbout, answered]
  split <;> simp [*]

/-- An element of a container is in the result as the reference has it, and so are the elements
after it. -/
theorem append_eq_iff {α : Type} {erase : Bool} {x : α} {r : Option α} {rest rest' : List α}
    (herase : erase = true → r = none) (hlen : rest'.length ≤ rest.length) :
    (if erase then rest else x :: rest) = r.toList ++ rest' ↔
      (erase = false → r = some x) ∧ rest = rest' := by
  cases erase with
  | true => simp [herase rfl]
  | false =>
    cases r with
    | none =>
      have hne : x :: rest ≠ rest' := by
        rintro rfl
        simp at hlen
      simp [hne]
    | some y =>
      simp [eq_comm]

theorem length_transformItems (here : γ) (items : List Obj) :
    (rewrittenItems pos f here items).length ≤ (transformItems pos f here items).1.length := by
  induction items with
  | nil => exact le_rfl
  | cons item items ih =>
    rw [rewrittenItems, transformItems, List.length_append]
    cases herase : (transform pos f here item).erase with
    | true =>
      have hnone := (rewritten_eq_none_iff here item).mpr ((erase_transform here item).mp herase).2
      simpa [hnone] using ih
    | false =>
      have hone : (rewritten pos f here item).toList.length ≤ 1 := Option.length_toList_le
      simp only [Bool.false_eq_true, if_false, List.length_cons]
      omega

theorem length_transformEntries (here : γ) (entries : List (Key × Obj)) :
    (rewrittenEntries pos f here entries).length ≤
      (transformEntries pos f here entries).1.length := by
  induction entries with
  | nil => exact le_rfl
  | cons entry entries ih =>
    obtain ⟨key, value⟩ := entry
    rw [rewrittenEntries, transformEntries, List.length_append]
    cases herase : (transform pos f (pos.entry key here) value).erase with
    | true =>
      have hnone := (rewritten_eq_none_iff (pos.entry key here) value).mpr
        ((erase_transform (pos.entry key here) value).mp herase).2
      simpa [hnone] using ih
    | false =>
      have hone :
          ((rewritten pos f (pos.entry key here) value).map (Prod.mk key)).toList.length ≤ 1 :=
        Option.length_toList_le
      simp only [Bool.false_eq_true, if_false, List.length_cons]
      omega

theorem obj_of_erase (here : γ) (o : Obj) (h : (transform pos f here o).erase = true) :
    (transform pos f here o).obj = o := by
  have hask : ∀ below, (askAbout f o here below).erase = true →
      (askAbout f o here below).obj = o := by
    intro below hbelow
    rw [askAbout] at hbelow ⊢
    split at hbelow <;> simp_all
  cases o with
  | pair key value => cases h
  | scalar v => exact hask _ h
  | prg program => exact hask _ h
  | seq kind items => exact hask _ h
  | map kind entries => exact hask _ h

/-- An element that is not erased is as the reference has it when it is rewritten like that and is
no pair without its value. -/
theorem kept_iff (here : γ) (o : Obj) :
    ((transform pos f here o).erase = false →
        rewritten pos f here o = some (transform pos f here o).obj) ↔
      (isPair o → ¬Removes pos f here o) ∧
        (transform pos f here o).obj = (rewritten pos f here o).getD o := by
  have herase : (transform pos f here o).erase = true ↔ _ := erase_transform here o
  have hobj : (transform pos f here o).erase = true → _ := obj_of_erase here o
  rw [← rewritten_eq_none_iff] at herase ⊢
  -- the reference takes the element out, or has another one in its place
  cases hr : rewritten pos f here o with
  | none =>
    rw [hr] at herase
    cases h : (transform pos f here o).erase with
    | true =>
      -- a pair that is erased
      have hpair := (herase.mp h).1
      simp [hpair, hobj h]
    | false =>
      -- the reference removes it and the transformation does not: only a pair is
      have hpair : isPair o = true := by
        cases hpair : isPair o with
        | true => rfl
        | false => exact absurd (herase.mpr ⟨hpair, rfl⟩) (by simp [h])
      simp [hpair]
  | some y =>
    have h : (transform pos f here o).erase = false := by
      cases h : (transform pos f here o).erase with
      | true =>
        have hnone := (herase.mp h).2
        rw [hr] at hnone
        cases hnone
      | false => rfl
    simp only [h, reduceCtorEq, not_false_eq_true, implies_true, true_and, true_implies,
      Option.some.injEq, Option.getD_some]
    exact eq_comm

/-- An element of a list that is erased or kept, next to the reference. -/
theorem item_iff {α : Type} (here : γ) (o : Obj) (g : Obj → α) (hg : Function.Injective g)
    {rest rest' : List α} (hlen : rest'.length ≤ rest.length) :
    (if (transform pos f here o).erase then rest else g (transform pos f here o).obj :: rest) =
        ((rewritten pos f here o).map g).toList ++ rest' ↔
      (isPair o → ¬Removes pos f here o) ∧
        (transform pos f here o).obj = (rewritten pos f here o).getD o ∧ rest = rest' := by
  have hnone : (transform pos f here o).erase = true →
      (rewritten pos f here o).map g = none := by
    intro h
    rw [Option.map_eq_none_iff, rewritten_eq_none_iff]
    exact ((erase_transform here o).mp h).2
  have hsome : ∀ x, (rewritten pos f here o).map g = some (g x) ↔
      rewritten pos f here o = some x := fun x => by
    cases rewritten pos f here o <;> simp [hg.eq_iff]
  rw [append_eq_iff hnone hlen, hsome, kept_iff, and_assoc]

mutual

/-- Everything else is as the reference has it. -/
theorem obj_transform_iff (here : γ) (o : Obj) :
    (transform pos f here o).obj = (rewritten pos f here o).getD o ↔ KeepsPairs pos f here o := by
  cases o with
  | scalar v =>
    rw [transform, rewritten, obj_askAbout_iff] <;> simp [KeepsPairs]
  | prg program =>
    rw [transform, rewritten, obj_askAbout_iff] <;> simp [KeepsPairs]
  | pair key value =>
    have hvalue := obj_transform_iff (pos.pair key here) value
    rw [transform, rewritten, KeepsPairs, ← hvalue]
    cases rewritten pos f (pos.pair key here) value <;> simp
  | seq kind items =>
    rw [transform, rewritten, obj_askAbout_iff, KeepsPairs, ← transformItems_iff]
    simp
  | map kind entries =>
    rw [transform, rewritten, obj_askAbout_iff, KeepsPairs, ← transformEntries_iff]
    simp

theorem transformItems_iff (here : γ) (items : List Obj) :
    (transformItems pos f here items).1 = rewrittenItems pos f here items ↔
      keepsPairsItems pos f here items := by
  cases items with
  | nil => simp [transformItems, rewrittenItems, keepsPairsItems]
  | cons item items =>
    have hlen : (rewrittenItems pos f here items).length ≤ _ := length_transformItems here items
    have hitem : (if (transform pos f here item).erase then (transformItems pos f here items).1
        else id (transform pos f here item).obj :: (transformItems pos f here items).1) = _ ↔ _ :=
      item_iff here item id Function.injective_id hlen
    rw [Option.map_id, id] at hitem
    rw [transformItems, rewrittenItems, keepsPairsItems, ← obj_transform_iff here item,
      ← transformItems_iff here items]
    exact hitem

theorem transformEntries_iff (here : γ) (entries : List (Key × Obj)) :
    (transformEntries pos f here entries).1 = rewrittenEntries pos f here entries ↔
      keepsPairsEntries pos f here entries := by
  cases entries with
  | nil => simp [transformEntries, rewrittenEntries, keepsPairsEntries]
  | cons entry entries =>
    obtain ⟨key, value⟩ := entry
    rw [transformEntries, rewrittenEntries, keepsPairsEntries, ← obj_transform_iff _ value,
      ← transformEntries_iff here entries]
    exact item_iff (pos.entry key here) value (Prod.mk key) (Prod.mk_right_injective key)
      (length_transformEntries here entries)

end

end Transform

/-- `transform` of an object, with the depth of a node and its type -/
def transformObject (f : Obj → ℕ → TypeCode → Obj × Action) (o : Obj) : Obj × List (Obj × ℕ) :=
  let r := transform depthPosition (fun o depth => f o depth o.typeCode) 0 o
  (r.obj, r.calls)

/-- `transform` of a parameter map, with the names on the way to a node -/
def transformParamMap (f : Obj → List Bytes → Obj × Action) (pm : List (Key × Obj)) :
    List (Key × Obj) × List (Obj × List Bytes) :=
  transformEntries pathPosition f [] pm

/-- The object is rewritten as the callback says, with one call for each node that is visited. -/
def RewritesObject (f : Obj → ℕ → TypeCode → Obj × Action) (o : Obj) : Prop :=
  let g := fun o depth => f o depth o.typeCode
  transformObject f o =
    ((rewritten depthPosition g 0 o).getD o, visited depthPosition g 0 o)

/-- The parameter map is rewritten as the callback says, with one call for each node that is
visited. -/
def RewritesParamMap (f : Obj → List Bytes → Obj × Action) (pm : List (Key × Obj)) : Prop :=
  transformParamMap f pm =
    (rewrittenEntries pathPosition f [] pm, visitedEntries pathPosition f [] pm)

/-- Both variants of `transform` rewrite as the callback says, exactly when it does not remove the
value of a pair that is an element of something. -/
theorem rewrites_iff (f : Obj → ℕ → TypeCode → Obj × Action) (o : Obj)
    (g : Obj → List Bytes → Obj × Action) (pm : List (Key × Obj)) :
    (RewritesObject f o ↔ KeepsPairs depthPosition (fun o depth => f o depth o.typeCode) 0 o) ∧
      (RewritesParamMap g pm ↔ keepsPairsEntries pathPosition g [] pm) := by
  constructor
  · rw [RewritesObject, transformObject, Prod.mk.injEq, ← obj_transform_iff]
    exact and_iff_left (calls_transform 0 o)
  · rw [RewritesParamMap, transformParamMap, Prod.ext_iff, ← transformEntries_iff]
    exact and_iff_left (calls_transformEntries [] pm)

/-- A callback that removes all leaves. -/
def removeLeaves (o : Obj) (_ : ℕ) (_ : TypeCode) : Obj × Action :=
  match o with
  | .scalar _ => (o, .remove)
  | _ => (o, .none)

/-- The parameter stays in the tuple, although its value is to be removed. -/
theorem not_rewritesObject_param :
    ¬RewritesObject removeLeaves (.tuple [.param [0x61] (.scalar (.bool true))]) := by
  intro h
  have hobj := congrArg Prod.fst h
  simp [transformObject, transform, transformItems, rewritten, rewrittenItems, askAbout, answered,
    removeLeaves, Obj.tuple, Obj.param] at hobj

end Dom

end Cyng
