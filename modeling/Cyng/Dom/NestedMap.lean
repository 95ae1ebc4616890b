import Cyng.Obj.Object
import Cyng.Theory.PathView

/-!
# Parameter maps in parameter maps

A parameter map whose values may be parameter maps again is a tree, and a list of names is a
path in it. Everything that is not a parameter map is a leaf of that tree, other containers
included.
-/

namespace Cyng

open Theory

namespace Dom

open PathView

/-- The entries of a map. -/
abbrev Entries := List (Key × Obj)

/-- `object_cast<param_map_t>` -/
def asParamMap : Obj → Option Entries
  | .map .name entries => some entries
  | _ => none

/-- The object that a path of names leads to. -/
def entry : List Bytes → Obj → Option Obj
  | [], o => some o
  | n :: path, o =>
    (asParamMap o).bind fun entries => (OrderedMap.find (.name n) entries).bind (entry path)

/-- What stands at a path of names: a parameter map or a leaf. -/
def view : Obj → View Bytes Obj
  | o, [] => some (match asParamMap o with | some _ => .map | none => .leaf o)
  | o, n :: path =>
    (asParamMap o).bind fun entries =>
      (OrderedMap.find (.name n) entries).bind fun value => view value path

/-- What stands at a path of names in a parameter map. -/
def viewEntries (pm : Entries) : View Bytes Obj := view (.map .name pm)

mutual

/-- The parameter maps that names lead to are in order, and all their keys are names. -/
def Ordered : Obj → Prop
  | .map .name entries => OrderedMap.Sorted entries ∧ orderedEntries entries
  | _ => True

def orderedEntries : Entries → Prop
  | [] => True
  | (key, value) :: entries => key.kind = .name ∧ Ordered value ∧ orderedEntries entries

end

/-- `param_map_t`, with maps in maps down to any depth. -/
structure NestedMap where
  entries : Entries
  ordered : Ordered (.map .name entries)

section View

variable {o value : Obj} {pm entries : Entries} {n : Bytes}

theorem asParamMap_eq_some_iff : asParamMap o = some entries ↔ o = .map .name entries := by
  constructor
  · intro h
    unfold asParamMap at h
    split at h
    · cases h
      rfl
    · cases h
  · rintro rfl
    rfl

theorem view_root_of_map (h : asParamMap o = some entries) : view o [] = some .map := by
  rw [view, h]

theorem view_root_of_leaf (h : asParamMap o = none) : view o [] = some (.leaf o) := by
  rw [view, h]

@[simp] theorem viewEntries_nil : viewEntries pm [] = some .map := view_root_of_map rfl

theorem below_viewEntries_of_find (h : OrderedMap.find (.name n) pm = some value) :
    (viewEntries pm).below [n] = view value := by
  funext q
  rw [View.below, List.singleton_append, viewEntries, view]
  simp [asParamMap, h]

theorem below_viewEntries_of_absent (h : OrderedMap.find (.name n) pm = none) :
    (viewEntries pm).below [n] = fun _ => none := by
  funext q
  rw [View.below, List.singleton_append, viewEntries, view]
  simp [asParamMap, h]

theorem below_viewEntries_congr {pm' : Entries} {n' : Bytes}
    (h : OrderedMap.find (.name n) pm = OrderedMap.find (.name n') pm') :
    (viewEntries pm).below [n] = (viewEntries pm').below [n'] := by
  cases hfind : OrderedMap.find (.name n) pm with
  | none =>
    rw [below_viewEntries_of_absent hfind, below_viewEntries_of_absent (h ▸ hfind)]
  | some value =>
    rw [below_viewEntries_of_find hfind, below_viewEntries_of_find (h ▸ hfind)]

/-- To give a name a value is to graft the value. -/
theorem viewEntries_put :
    viewEntries (OrderedMap.put (.name n) value pm) = (viewEntries pm).graft [n] (view value) := by
  apply ext_below
  · rw [viewEntries_nil]
    rfl
  · intro n'
    by_cases hn : n' = n
    · subst hn
      rw [below_graft, below_viewEntries_of_find OrderedMap.find_put_self]
    · have hkey : Key.name n' ≠ .name n := fun h => hn (Key.name.inj h)
      rw [graft_singleton_below_ne hn, below_viewEntries_congr (OrderedMap.find_put_ne hkey)]

/-- To erase a name is to prune it. -/
theorem viewEntries_erase (h : OrderedMap.Sorted pm) :
    viewEntries (OrderedMap.erase (.name n) pm) = (viewEntries pm).prune [n] := by
  apply ext_below
  · simp [View.prune]
  · intro n'
    by_cases hn : n' = n
    · subst hn
      rw [below_viewEntries_of_absent (OrderedMap.find_erase_self h)]
      funext q
      simp [View.below, View.prune]
    · have hkey : Key.name n' ≠ .name n := fun h => hn (Key.name.inj h)
      rw [prune_singleton_below_ne hn, below_viewEntries_congr (OrderedMap.find_erase_ne hkey)]

end View

/-! ### Order -/

section Order

variable {o value : Obj} {pm entries : Entries} {n : Bytes}

theorem orderedEntries_iff :
    orderedEntries pm ↔ ∀ e ∈ pm, e.1.kind = .name ∧ Ordered e.2 := by
  induction pm with
  | nil => simp [orderedEntries]
  | cons e pm ih => simp [orderedEntries, ih, and_assoc]

theorem ordered_map_iff :
    Ordered (.map .name pm) ↔
      OrderedMap.Sorted pm ∧ ∀ e ∈ pm, e.1.kind = .name ∧ Ordered e.2 := by
  rw [Ordered, orderedEntries_iff]

theorem ordered_of_leaf (h : asParamMap o = none) : Ordered o := by
  unfold asParamMap at h
  unfold Ordered
  split
  · cases h
  · trivial

theorem Ordered.of_find (h : Ordered (.map .name pm)) {key : Key}
    (hfind : OrderedMap.find key pm = some value) : Ordered value :=
  ((ordered_map_iff.mp h).2 _ (OrderedMap.mem_of_find hfind)).2

theorem Ordered.put (h : Ordered (.map .name pm)) (hvalue : Ordered value) :
    Ordered (.map .name (OrderedMap.put (.name n) value pm)) := by
  obtain ⟨hsorted, hentries⟩ := ordered_map_iff.mp h
  refine ordered_map_iff.mpr ⟨OrderedMap.sorted_put hsorted, ?_⟩
  intro e he
  rcases OrderedMap.mem_put he with rfl | he
  · exact ⟨rfl, hvalue⟩
  · exact hentries e he

theorem Ordered.erase (h : Ordered (.map .name pm)) :
    Ordered (.map .name (OrderedMap.erase (.name n) pm)) := by
  obtain ⟨hsorted, hentries⟩ := ordered_map_iff.mp h
  exact ordered_map_iff.mpr ⟨OrderedMap.sorted_erase hsorted,
    fun e he => hentries e (OrderedMap.mem_of_mem_erase he)⟩

theorem ordered_nil : Ordered (.map .name []) :=
  ordered_map_iff.mpr ⟨OrderedMap.sorted_nil, fun _ he => absurd he List.not_mem_nil⟩

mutual

/-- An object that exists is in order. -/
theorem ordered_of_wellFormed (o : Obj) (h : o.WellFormed) : Ordered o := by
  cases o with
  | map kind entries =>
    rw [Obj.WellFormed] at h
    cases kind with
    | name =>
      rw [Ordered]
      exact ⟨h.2.1, orderedEntries_of_wellFormed entries h.2.2⟩
    | index => exact ordered_of_leaf rfl
    | code => exact ordered_of_leaf rfl
  | scalar v => exact ordered_of_leaf rfl
  | pair key value => exact ordered_of_leaf rfl
  | seq kind items => exact ordered_of_leaf rfl
  | prg program => exact ordered_of_leaf rfl

theorem orderedEntries_of_wellFormed (entries : Entries) (h : entriesWellFormed .name entries) :
    orderedEntries entries := by
  cases entries with
  | nil => trivial
  | cons e entries =>
    rw [entriesWellFormed] at h
    exact ⟨h.1, ordered_of_wellFormed e.2 h.2.2.1, orderedEntries_of_wellFormed entries h.2.2.2⟩

end

/-- The keys of a parameter map are names. -/
theorem Ordered.exists_name (h : Ordered (.map .name pm)) {key : Key}
    (hfind : OrderedMap.find key pm = some value) : ∃ n, key = .name n := by
  have hkind : key.kind = .name :=
    ((ordered_map_iff.mp h).2 _ (OrderedMap.mem_of_find hfind)).1
  cases key with
  | name n => exact ⟨n, rfl⟩
  | index i => cases hkind
  | code c => cases hkind

/-- Maps that look the same below every name have the same keys. -/
theorem find_of_view (h : Ordered (.map .name pm))
    (hview : viewEntries pm = viewEntries entries) {key : Key}
    (hfind : OrderedMap.find key pm = some value) :
    ∃ value', OrderedMap.find key entries = some value' ∧ view value = view value' := by
  obtain ⟨n, rfl⟩ := h.exists_name hfind
  have hbelow : (viewEntries pm).below [n] = (viewEntries entries).below [n] := by rw [hview]
  rw [below_viewEntries_of_find hfind] at hbelow
  cases hfind' : OrderedMap.find (.name n) entries with
  | none =>
    rw [below_viewEntries_of_absent hfind'] at hbelow
    have hroot := congrFun hbelow []
    rw [view] at hroot
    cases hroot
  | some value' =>
    rw [below_viewEntries_of_find hfind'] at hbelow
    exact ⟨value', rfl, hbelow⟩

theorem sizeOf_lt_of_find {key : Key} (h : OrderedMap.find key pm = some value) :
    sizeOf value < sizeOf (Obj.map .name pm) := by
  have hmem := List.sizeOf_lt_of_mem (OrderedMap.mem_of_find h)
  simp only [Prod.mk.sizeOf_spec, Obj.map.sizeOf_spec] at hmem ⊢
  omega

/-- Maps with equal values wherever these look the same are equal if they look the same. -/
theorem ext_entries (h : Ordered (.map .name pm)) (h' : Ordered (.map .name entries))
    (hview : viewEntries pm = viewEntries entries)
    (ih : ∀ key value value', OrderedMap.find key pm = some value →
      OrderedMap.find key entries = some value' → view value = view value' → value = value') :
    pm = entries := by
  apply OrderedMap.ext_find (ordered_map_iff.mp h).1 (ordered_map_iff.mp h').1
  intro key
  cases hfind : OrderedMap.find key pm with
  | none =>
    cases hfind' : OrderedMap.find key entries with
    | none => rfl
    | some value' =>
      obtain ⟨value, hvalue, -⟩ := find_of_view h' hview.symm hfind'
      rw [hfind] at hvalue
      cases hvalue
  | some value =>
    obtain ⟨value', hfind', hvalue⟩ := find_of_view h hview hfind
    rw [hfind', ih key value value' hfind hfind' hvalue]

/-- A tree is what stands at its paths. -/
theorem ext_view (o o' : Obj) (h : Ordered o) (h' : Ordered o') (hview : view o = view o') :
    o = o' := by
  have hroot := congrFun hview []
  cases hmap : asParamMap o with
  | none =>
    rw [view_root_of_leaf hmap] at hroot
    cases hmap' : asParamMap o' with
    | none =>
      rw [view_root_of_leaf hmap'] at hroot
      cases hroot
      rfl
    | some entries' =>
      rw [view_root_of_map hmap'] at hroot
      cases hroot
  | some entries =>
    rw [view_root_of_map hmap] at hroot
    cases hmap' : asParamMap o' with
    | none =>
      rw [view_root_of_leaf hmap'] at hroot
      cases hroot
    | some entries' =>
      have ho := asParamMap_eq_some_iff.mp hmap
      have ho' := asParamMap_eq_some_iff.mp hmap'
      rw [ho, ho'] at hview
      have hentries : entries = entries' := by
        apply ext_entries (ho ▸ h) (ho' ▸ h') hview
        intro key value value' hfind hfind' hvalue
        -- the induction is on the tree: the values below are smaller
        have hlt : sizeOf value < sizeOf o := ho ▸ sizeOf_lt_of_find hfind
        exact ext_view value value' ((ho ▸ h).of_find hfind) ((ho' ▸ h').of_find hfind') hvalue
      rw [ho, ho', hentries]
termination_by sizeOf o

end Order

/-! ### Entries -/

section Entry

variable {o o' value : Obj} {pm : Entries} {q path : List Bytes}

theorem view_of_entry (h : entry q o = some value) : view o q = view value [] := by
  induction q generalizing o with
  | nil =>
    cases h
    rfl
  | cons n q ih =>
    obtain ⟨entries, hmap, hrest⟩ := Option.bind_eq_some_iff.mp h
    obtain ⟨sub, hsub, hq⟩ := Option.bind_eq_some_iff.mp hrest
    rw [← ih hq, view, hmap, Option.bind_some, hsub, Option.bind_some]

theorem view_of_no_entry (h : entry q o = none) : view o q = none := by
  induction q generalizing o with
  | nil => cases h
  | cons n q ih =>
    rw [entry] at h
    rw [view]
    cases hmap : asParamMap o with
    | none => rfl
    | some entries =>
      rw [hmap, Option.bind_some] at h
      rw [Option.bind_some]
      cases hsub : OrderedMap.find (.name n) entries with
      | none => rfl
      | some sub =>
        rw [hsub, Option.bind_some] at h
        exact ih h

/-- A path that goes on leads on from where its first part leads to. -/
theorem entry_append : entry (q ++ path) o = (entry q o).bind (entry path) := by
  induction q generalizing o with
  | nil => rfl
  | cons n q ih =>
    simp only [List.cons_append, entry, Option.bind_assoc]
    congr 1
    funext entries
    congr 1
    funext sub
    exact ih

theorem below_view (h : entry q o = some value) : (view o).below q = view value := by
  funext r
  rw [View.below]
  cases hr : entry r value with
  | none =>
    have hnone : entry (q ++ r) o = none := by rw [entry_append, h, Option.bind_some, hr]
    rw [view_of_no_entry hr, view_of_no_entry hnone]
  | some sub =>
    have hsome : entry (q ++ r) o = some sub := by rw [entry_append, h, Option.bind_some, hr]
    rw [view_of_entry hr, view_of_entry hsome]

theorem below_view_of_no_entry (h : entry q o = none) : (view o).below q = fun _ => none := by
  funext r
  rw [View.below]
  apply view_of_no_entry
  rw [entry_append, h, Option.bind_none]

theorem Ordered.of_entry (ho : Ordered o) (h : entry q o = some value) : Ordered value := by
  induction q generalizing o with
  | nil =>
    cases h
    exact ho
  | cons n q ih =>
    obtain ⟨entries, hmap, hrest⟩ := Option.bind_eq_some_iff.mp h
    obtain ⟨sub, hsub, hq⟩ := Option.bind_eq_some_iff.mp hrest
    obtain rfl := asParamMap_eq_some_iff.mp hmap
    exact ih (ho.of_find hsub) hq

/-- Trees that look the same below a path have the same entry there. -/
theorem entry_eq_of_view (ho : Ordered o) (ho' : Ordered o')
    (h : (view o).below q = (view o').below path) : entry q o = entry path o' := by
  cases hq : entry q o with
  | none =>
    cases hpath : entry path o' with
    | none => rfl
    | some value =>
      rw [below_view_of_no_entry hq, below_view hpath] at h
      have hroot := congrFun h []
      rw [view] at hroot
      cases hroot
  | some value =>
    cases hpath : entry path o' with
    | none =>
      rw [below_view hq, below_view_of_no_entry hpath] at h
      have hroot := congrFun h []
      rw [view] at hroot
      cases hroot
    | some value' =>
      rw [below_view hq, below_view hpath] at h
      rw [ext_view value value' (ho.of_entry hq) (ho'.of_entry hpath) h]

theorem view_eq_none_iff : view o q = none ↔ entry q o = none := by
  constructor
  · intro h
    cases hq : entry q o with
    | none => rfl
    | some value =>
      rw [view_of_entry hq, view] at h
      cases h
  · exact view_of_no_entry

/-- A parameter map stands where a map is. -/
theorem exists_entry_of_map (h : view o q = some .map) :
    ∃ entries, entry q o = some (.map .name entries) := by
  cases hq : entry q o with
  | none =>
    rw [view_of_no_entry hq] at h
    cases h
  | some value =>
    rw [view_of_entry hq] at h
    cases hmap : asParamMap value with
    | none =>
      rw [view_root_of_leaf hmap] at h
      cases h
    | some entries => exact ⟨entries, congrArg some (asParamMap_eq_some_iff.mp hmap)⟩

/-- Only parameter maps stand on the way to an entry. -/
theorem view_on_the_way (h : entry path o = some value) (hq : q <+: path) (hne : q ≠ path) :
    view o q = some .map := by
  obtain ⟨r, rfl⟩ := hq
  rw [entry_append] at h
  obtain ⟨sub, hsub, hr⟩ := Option.bind_eq_some_iff.mp h
  rw [view_of_entry hsub]
  cases hmap : asParamMap sub with
  | none =>
    cases r with
    | nil => exact absurd (List.append_nil q).symm hne
    | cons n r =>
      rw [entry, hmap] at hr
      cases hr
  | some entries => exact view_root_of_map hmap

/-- A leaf is an entry that is no parameter map. -/
theorem exists_leaf_iff :
    (∃ x, view o q = some (.leaf x)) ↔
      ∃ value, entry q o = some value ∧ asParamMap value = none := by
  constructor
  · rintro ⟨x, hx⟩
    cases hq : entry q o with
    | none =>
      rw [view_of_no_entry hq] at hx
      cases hx
    | some value =>
      refine ⟨value, rfl, ?_⟩
      rw [view_of_entry hq] at hx
      cases hmap : asParamMap value with
      | none => rfl
      | some entries =>
        rw [view_root_of_map hmap] at hx
        cases hx
  · rintro ⟨value, hq, hmap⟩
    exact ⟨value, by rw [view_of_entry hq, view_root_of_leaf hmap]⟩

end Entry

end Dom

end Cyng
