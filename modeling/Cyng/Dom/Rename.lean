import Cyng.Dom.Merge

/-!
# Renaming

`rename` takes the entry at a path out of the map, and then puts it under its own name into the
map at another path, where missing maps are created.

When the entry cannot be placed there it is lost: it has been taken out already. This happens
when the other path is empty, when something that is not a parameter map is in the way, and when
the name is taken.
-/

namespace Cyng

open Theory

namespace Dom

open PathView

/-- `insert`, from the names that are left of the path on. -/
def insert (param : Key × Obj) : List Bytes → Entries → Entries
  | [], pm => OrderedMap.insert param.1 param.2 pm
  | n :: path, pm =>
    match OrderedMap.find (.name n) pm with
    | some sub =>
      match asParamMap sub with
      | some entries => OrderedMap.put (.name n) (.map .name (insert param path entries)) pm
      -- name already assigned
      | none => pm
    | none => OrderedMap.insert (.name n) (.map .name (insert param path [])) pm

/-- `extract`: the parameter that was found, and the map without it. -/
def extract : List Bytes → Entries → Option ((Key × Obj) × Entries)
  | [], _ => none
  | n :: path, pm =>
    match OrderedMap.find (.name n) pm with
    | some sub =>
      if path = [] then some ((.name n, sub), OrderedMap.erase (.name n) pm)
      else
        match asParamMap sub with
        | some entries =>
          (extract path entries).map fun r =>
            (r.1, OrderedMap.put (.name n) (.map .name r.2) pm)
        | none => none
    | none => none

/-- `rename` -/
def rename (pm : Entries) (path rep : List Bytes) : Entries :=
  match extract path pm with
  | some (param, pm) => if rep = [] then pm else insert param rep pm
  | none => pm

/-! ### Taking out -/

section Extract

variable {pm entries : Entries} {n : Bytes} {path : List Bytes} {sub : Obj}

theorem entry_cons :
    entry (n :: path) (.map .name pm) = (OrderedMap.find (.name n) pm).bind (entry path) := rfl

theorem entry_of_leaf (h : asParamMap sub = none) (hpath : path ≠ []) : entry path sub = none := by
  cases path with
  | nil => exact absurd rfl hpath
  | cons n path => rw [entry, h, Option.bind_none]

/-- Where no entry is, nothing is taken out. -/
theorem extract_of_no_entry (h : entry (n :: path) (.map .name pm) = none) :
    extract (n :: path) pm = none := by
  induction path generalizing pm n with
  | nil =>
    cases hfind : OrderedMap.find (.name n) pm with
    | none => simp [extract, hfind]
    | some sub =>
      rw [entry_cons, hfind] at h
      cases h
  | cons n' path ih =>
    rw [extract]
    cases hfind : OrderedMap.find (.name n) pm with
    | none => rfl
    | some sub =>
      simp only [reduceCtorEq, if_false]
      cases hsub : asParamMap sub with
      | none => rfl
      | some entries =>
        obtain rfl := asParamMap_eq_some_iff.mp hsub
        rw [entry_cons, hfind] at h
        simp only [ih h]
        rfl

/-- The entry at a path is taken out, under its own name. -/
theorem extract_of_entry (hpm : Ordered (.map .name pm))
    (h : entry (n :: path) (.map .name pm) = some sub) :
    ∃ pm', extract (n :: path) pm =
        some ((.name ((n :: path).getLast (List.cons_ne_nil n path)), sub), pm') ∧
      Ordered (.map .name pm') ∧ viewEntries pm' = (viewEntries pm).prune (n :: path) := by
  induction path generalizing pm n with
  | nil =>
    have hfind : OrderedMap.find (.name n) pm = some sub := by
      rw [entry_cons] at h
      cases hfind : OrderedMap.find (.name n) pm with
      | none =>
        rw [hfind] at h
        cases h
      | some sub' =>
        rw [hfind] at h
        exact h
    refine ⟨OrderedMap.erase (.name n) pm, ?_, hpm.erase,
      viewEntries_erase (ordered_map_iff.mp hpm).1⟩
    simp [extract, hfind]
  | cons n' path ih =>
    obtain ⟨next, hfind, hrest⟩ := Option.bind_eq_some_iff.mp (entry_cons ▸ h)
    cases hnext : asParamMap next with
    | none =>
      rw [entry_of_leaf hnext (List.cons_ne_nil n' path)] at hrest
      cases hrest
    | some entries =>
      -- the map below is taken out, changed and put back
      obtain rfl := asParamMap_eq_some_iff.mp hnext
      obtain ⟨entries', hentries, hordered, hview⟩ := ih (hpm.of_find hfind) hrest
      refine ⟨OrderedMap.put (.name n) (.map .name entries') pm, ?_, hpm.put hordered, ?_⟩
      · rw [extract, hfind]
        simp only [reduceCtorEq, if_false, hnext, hentries]
        rfl
      · rw [viewEntries_put, prune_cons viewEntries_nil, below_viewEntries_of_find hfind]
        exact congrArg _ hview

end Extract

/-! ### Putting in -/

section Insert

variable {pm entries : Entries} {n : Bytes} {path : List Bytes} {value sub : Obj}

/-- Where something is in the way or the name is taken, nothing is put in. -/
theorem insert_of_occupied (hpm : Ordered (.map .name pm))
    (h : (viewEntries pm).Blocked (path ++ [n]) ∨ entry (path ++ [n]) (.map .name pm) ≠ none) :
    insert (.name n, value) path pm = pm := by
  -- the maps on the way are rebuilt as they were
  induction path generalizing pm with
  | nil =>
    rw [List.nil_append, blocked_cons viewEntries_nil, entry_cons] at h
    cases hfind : OrderedMap.find (.name n) pm with
    | none =>
      rw [hfind] at h
      exact absurd rfl (h.resolve_left not_blocked_nil)
    | some sub => exact OrderedMap.insert_of_find_some (ordered_map_iff.mp hpm).1 hfind
  | cons n' path ih =>
    rw [List.cons_append, blocked_cons viewEntries_nil, entry_cons] at h
    cases hfind : OrderedMap.find (.name n') pm with
    | none =>
      rw [below_viewEntries_of_absent hfind, hfind] at h
      rcases h with ⟨q, -, -, x, hx⟩ | h
      · cases hx
      · exact absurd rfl h
    | some sub =>
      rw [below_viewEntries_of_find hfind, hfind] at h
      rw [insert, hfind]
      cases hsub : asParamMap sub with
      | none => simp only [hsub]
      | some entries =>
        obtain rfl := asParamMap_eq_some_iff.mp hsub
        simp only [hsub, ih (hpm.of_find hfind) h]
        exact OrderedMap.put_of_find (ordered_map_iff.mp hpm).1 hfind

/-- Everywhere else the value is grafted. -/
theorem insert_of_free (hpm : Ordered (.map .name pm)) (hvalue : Ordered value)
    (h : ¬(viewEntries pm).Blocked (path ++ [n]))
    (hfree : entry (path ++ [n]) (.map .name pm) = none) :
    Ordered (.map .name (insert (.name n, value) path pm)) ∧
      viewEntries (insert (.name n, value) path pm) =
        (viewEntries pm).graft (path ++ [n]) (view value) := by
  induction path generalizing pm with
  | nil =>
    have hfind : OrderedMap.find (.name n) pm = none := by
      cases hfind : OrderedMap.find (.name n) pm with
      | none => rfl
      | some sub =>
        rw [List.nil_append, entry_cons, hfind] at hfree
        cases hfree
    rw [insert, OrderedMap.insert_of_find_none hfind]
    exact ⟨hpm.put hvalue, viewEntries_put⟩
  | cons n' path ih =>
    rw [List.cons_append, blocked_cons viewEntries_nil] at h
    rw [List.cons_append, entry_cons] at hfree
    rw [List.cons_append, graft_cons, insert]
    cases hfind : OrderedMap.find (.name n') pm with
    | none =>
      -- the maps that are missing are created
      have hempty : ¬(viewEntries []).Blocked (path ++ [n]) := by
        rintro ⟨q, -, -, x, hx⟩
        cases q with
        | nil => cases hx
        | cons n'' q => cases hx
      have habsent : entry (path ++ [n]) (.map .name []) = none := by
        cases path <;> rfl
      obtain ⟨hordered, hview⟩ := ih ordered_nil hempty habsent
      simp only [OrderedMap.insert_of_find_none hfind, below_viewEntries_of_absent hfind]
      refine ⟨hpm.put hordered, ?_⟩
      rw [viewEntries_put]
      congr 1
      refine hview.trans (graft_congr fun q hq => ?_)
      cases q with
      | nil => exact absurd List.nil_prefix hq
      | cons n'' q => rfl
    | some sub =>
      rw [below_viewEntries_of_find hfind] at h ⊢
      rw [hfind] at hfree
      cases hsub : asParamMap sub with
      | none =>
        have hne : path ++ [n] ≠ [] :=
          List.append_ne_nil_of_right_ne_nil path (List.cons_ne_nil n [])
        exact absurd (blocked_of_leaf (view_root_of_leaf hsub) hne) h
      | some entries =>
        obtain rfl := asParamMap_eq_some_iff.mp hsub
        obtain ⟨hordered, hview⟩ := ih (hpm.of_find hfind) h hfree
        simp only [hsub]
        refine ⟨hpm.put hordered, ?_⟩
        rw [viewEntries_put]
        exact congrArg _ hview

end Insert

/-! ### Moving an entry -/

/-- A path names an entry of the map. -/
def NestedMap.Names (m : NestedMap) (path : List Bytes) : Prop :=
  path ≠ [] ∧ m.entry path ≠ none

/-- Where the entry at a path is to appear: in the map at another path, under its own name. -/
def target (path rep : List Bytes) : List Bytes := rep ++ [path.getLastD []]

/-- With the entry at a path gone, another path leads through parameter maps or to nothing, and
the name is free there. -/
structure NestedMap.Placeable (m : NestedMap) (path rep : List Bytes) : Prop where
  somewhere : rep ≠ []
  through : ∀ q, q <+: rep → ¬path <+: q → ∀ o, m.entry q = some o → o.typeCode = .paramMap
  free : ¬path <+: target path rep → m.entry (target path rep) = none

/-- The entry at a path is in the map at another path now, and everything else is where it was. -/
structure Moved (m : NestedMap) (path rep : List Bytes) (m' : NestedMap) : Prop where
  there : m'.entry (target path rep) = m.entry path
  created : ∀ q, q <+: rep → ∃ entries, m'.entry q = some (.map .name entries)
  left : ∀ q, q <+: path → q ≠ path → ∃ entries, m'.entry q = some (.map .name entries)
  gone : ∀ q, path <+: q → ¬target path rep <+: q → ¬q <+: target path rep → m'.entry q = none
  elsewhere : ∀ q, ¬path <+: q → ¬q <+: path → ¬target path rep <+: q → ¬q <+: target path rep →
    m'.entry q = m.entry q

/-- No entry is lost. -/
structure MovesWithoutLoss (m : NestedMap) (path rep : List Bytes) (m' : NestedMap) : Prop where
  unnamed : ¬m.Names path → m' = m
  moved : m.Names path → m.Placeable path rep → Moved m path rep m'
  kept : m.Names path → ¬m.Placeable path rep → m' = m

section Rename

variable {m m' : NestedMap} {path rep : List Bytes} {value : Obj}

theorem viewEntries_eq_none_iff {q : List Bytes} :
    viewEntries m.entries q = none ↔ m.entry q = none :=
  view_eq_none_iff

theorem prune_eq_some_iff {t : View Bytes Obj} {q : List Bytes} {x : Node Obj} :
    t.prune path q = some x ↔ ¬path <+: q ∧ t q = some x := by
  rw [View.prune]
  split_ifs with h <;> simp [h]

/-- The entry can be placed in the map from which it has been taken out. -/
theorem placeable_iff (hview : viewEntries m'.entries = (viewEntries m.entries).prune path) :
    m.Placeable path rep ↔ rep ≠ [] ∧ ¬(viewEntries m'.entries).Blocked (target path rep) ∧
      m'.entry (target path rep) = none := by
  have hblocked : (viewEntries m'.entries).Blocked (target path rep) ↔
      ∃ q, q <+: rep ∧ ¬path <+: q ∧ ∃ o, m.entry q = some o ∧ o.typeCode ≠ .paramMap := by
    -- the path to the target leads through the prefixes of the replacement
    have hstep : ∀ q, (q <+: target path rep ∧ q ≠ target path rep) ↔ q <+: rep := by
      intro q
      rw [target, List.prefix_concat_iff]
      constructor
      · rintro ⟨h, hne⟩
        exact h.resolve_left hne
      · intro h
        refine ⟨Or.inr h, ?_⟩
        rintro rfl
        have hlen := h.length_le
        simp at hlen
    -- a leaf is left over if it is not below what has been taken out
    have hleaf : ∀ q, (∃ x, viewEntries m'.entries q = some (.leaf x)) ↔
        ¬path <+: q ∧ ∃ o, m.entry q = some o ∧ o.typeCode ≠ .paramMap := by
      intro q
      simp only [hview, prune_eq_some_iff, exists_and_left]
      rw [viewEntries, exists_leaf_iff]
      simp only [asParamMap_eq_none_iff]
      rfl
    simp only [View.Blocked, hleaf, ← and_assoc, hstep]
  have hfree : m'.entry (target path rep) = none ↔
      (¬path <+: target path rep → m.entry (target path rep) = none) := by
    rw [← viewEntries_eq_none_iff, ← viewEntries_eq_none_iff, hview, View.prune]
    split_ifs with h <;> simp [h]
  rw [hblocked, hfree]
  constructor
  · intro h
    refine ⟨h.somewhere, ?_, h.free⟩
    rintro ⟨q, hq, hpath, o, ho, hne⟩
    exact hne (h.through q hq hpath o ho)
  · rintro ⟨hrep, hthrough, hfree⟩
    refine ⟨hrep, fun q hq hpath o ho => ?_, hfree⟩
    by_contra hne
    exact hthrough ⟨q, hq, hpath, o, ho, hne⟩

/-- How `rename` ends. -/
theorem rename_cases (m : NestedMap) (path rep : List Bytes) :
    (¬m.Names path ∧ rename m.entries path rep = m.entries) ∨
    m.Names path ∧ ∃ m' : NestedMap, viewEntries m'.entries = (viewEntries m.entries).prune path ∧
      ((¬m.Placeable path rep ∧ rename m.entries path rep = m'.entries) ∨
        m.Placeable path rep ∧ ∃ value, m.entry path = some value ∧ ∃ r : NestedMap,
          rename m.entries path rep = r.entries ∧
          viewEntries r.entries =
            (viewEntries m'.entries).graft (target path rep) (view value)) := by
  cases path with
  | nil => exact Or.inl ⟨fun h => h.1 rfl, rfl⟩
  | cons n path =>
    cases hentry : m.entry (n :: path) with
    | none =>
      -- nothing has been taken out, so nothing changes
      refine Or.inl ⟨fun h => h.2 hentry, ?_⟩
      rw [rename, extract_of_no_entry hentry]
    | some value =>
      obtain ⟨pm', hextract, hordered, hview⟩ := extract_of_entry m.ordered hentry
      have hnames : m.Names (n :: path) := ⟨List.cons_ne_nil n path, by rw [hentry]; simp⟩
      obtain ⟨m', rfl⟩ : ∃ m' : NestedMap, m'.entries = pm' := ⟨⟨pm', hordered⟩, rfl⟩
      have hplaceable : m.Placeable (n :: path) rep ↔ rep ≠ [] ∧
          ¬(viewEntries m'.entries).Blocked (target (n :: path) rep) ∧
            m'.entry (target (n :: path) rep) = none := placeable_iff hview
      refine Or.inr ⟨hnames, m', hview, ?_⟩
      have hlast : (n :: path).getLast (List.cons_ne_nil n path) = (n :: path).getLastD [] := by
        rw [List.getLastD_eq_getLast?, List.getLast?_eq_some_getLast (List.cons_ne_nil n path)]
        rfl
      rw [hlast] at hextract
      have hvalue : Ordered value := m.ordered.of_entry hentry
      by_cases h : m.Placeable (n :: path) rep
      · obtain ⟨hrep, hblocked, hfree⟩ := hplaceable.mp h
        obtain ⟨hinsert, hgraft⟩ := insert_of_free hordered hvalue hblocked hfree
        refine Or.inr ⟨h, value, rfl, ⟨_, hinsert⟩, ?_, hgraft⟩
        rw [rename, hextract]
        simp only [if_neg hrep]
      · -- the entry has been taken out and is not placed anywhere
        refine Or.inl ⟨h, ?_⟩
        rw [rename, hextract]
        by_cases hrep : rep = []
        · simp only [if_pos hrep]
        · simp only [if_neg hrep]
          apply insert_of_occupied hordered
          by_contra hcon
          rw [not_or, not_not] at hcon
          exact h (hplaceable.mpr ⟨hrep, hcon.1, hcon.2⟩)

/-- The operation keeps the order. -/
theorem ordered_rename (m : NestedMap) (path rep : List Bytes) :
    Ordered (.map .name (rename m.entries path rep)) := by
  rcases rename_cases m path rep with ⟨-, h⟩ | ⟨-, m', -, ⟨-, h⟩ | ⟨-, value, -, r, h, -⟩⟩
  · rw [h]
    exact m.ordered
  · rw [h]
    exact m'.ordered
  · rw [h]
    exact r.ordered

/-- `rename`, on maps in maps -/
def NestedMap.rename (m : NestedMap) (path rep : List Bytes) : NestedMap :=
  ⟨Dom.rename m.entries path rep, ordered_rename m path rep⟩

/-- The entry has been taken out and grafted. -/
theorem moved_of_graft (hentry : m.entry path = some value) (h : m.Placeable path rep)
    (hview : viewEntries m'.entries =
      ((viewEntries m.entries).prune path).graft (target path rep) (view value)) :
    Moved m path rep m' := by
  have hshort : ∀ q, q <+: rep → q <+: target path rep ∧ ¬target path rep <+: q := by
    intro q hq
    refine ⟨hq.trans (List.prefix_append rep _), fun hback => ?_⟩
    have hlen := (hback.trans hq).length_le
    simp [target] at hlen
  refine ⟨?_, fun q hq => ?_, fun q hq hne => ?_, fun q hpath htarget htarget' => ?_,
    fun q hpath hpath' htarget htarget' => ?_⟩
  · rw [hentry]
    have hbelow : (viewEntries m'.entries).below (target path rep) = (view value).below [] := by
      rw [hview, below_graft]
      rfl
    exact entry_eq_of_view m'.ordered (m.ordered.of_entry hentry) hbelow
  · apply exists_entry_of_map
    obtain ⟨hto, hfrom⟩ := hshort q hq
    have hroot := congrFun hview q
    rw [View.graft, if_neg hfrom, if_pos hto] at hroot
    exact hroot
  · apply exists_entry_of_map
    have hpath : ¬path <+: q := fun hback => hne (hq.eq_of_length_le hback.length_le)
    -- an entry above the path cannot be the target, because its name is not free
    have hfrom : ¬target path rep <+: q := by
      intro hback
      have hnot : ¬path <+: target path rep := fun hon => hpath (hon.trans hback)
      have hproper : target path rep ≠ path := by
        intro heq
        rw [heq] at hnot
        exact hnot List.prefix_rfl
      have hmap := view_on_the_way hentry (hback.trans hq) hproper
      have hnone := view_of_no_entry (h.free hnot)
      rw [hnone] at hmap
      cases hmap
    have hroot := congrFun hview q
    rw [View.graft, if_neg hfrom] at hroot
    split_ifs at hroot with hto
    · exact hroot
    · rw [View.prune, if_neg hpath] at hroot
      exact hroot.trans (view_on_the_way hentry hq hne)
  · rw [← viewEntries_eq_none_iff, hview, graft_of_incomparable htarget htarget', View.prune,
      if_pos hpath]
  · apply entry_eq_of_view m'.ordered m.ordered
    funext r
    obtain ⟨hr, hr'⟩ := incomparable_append (r := r) htarget htarget'
    obtain ⟨hrpath, -⟩ := incomparable_append (r := r) hpath hpath'
    have hroot := congrFun hview (q ++ r)
    rw [graft_of_incomparable hr hr', View.prune, if_neg hrpath] at hroot
    exact hroot

theorem NestedMap.eq_of_entries (h : m.entries = m'.entries) : m = m' := by
  cases m
  cases m'
  cases h
  rfl

/-- `rename` loses nothing unless it takes out an entry that cannot be placed. -/
theorem movesWithoutLoss_iff (m : NestedMap) (path rep : List Bytes) :
    MovesWithoutLoss m path rep (m.rename path rep) ↔
      (m.Names path → m.Placeable path rep) := by
  rcases rename_cases m path rep with ⟨hnames, hsame⟩ | ⟨hnames, m', hview, hcase⟩
  · constructor
    · exact fun _ h => absurd h hnames
    · intro _
      exact ⟨fun _ => NestedMap.eq_of_entries hsame, fun h => absurd h hnames,
        fun h => absurd h hnames⟩
  · rcases hcase with ⟨hplace, hgone⟩ | ⟨hplace, value, hentry, r, hr, hgraft⟩
    · have heq : m.rename path rep = m' := NestedMap.eq_of_entries hgone
      constructor
      · intro h
        -- the entry is not there any more
        have hsame : m' = m := heq ▸ h.kept hnames hplace
        have hnone : viewEntries m'.entries path = none := by rw [hview, prune_self]
        rw [hsame, viewEntries_eq_none_iff] at hnone
        exact absurd hnone hnames.2
      · intro h
        exact absurd (h hnames) hplace
    · have heq : m.rename path rep = r := NestedMap.eq_of_entries hr
      constructor
      · exact fun _ _ => hplace
      · intro _
        refine ⟨fun h => absurd hnames h, fun _ _ => ?_, fun _ h => absurd hplace h⟩
        apply moved_of_graft hentry hplace
        rw [heq, hgraft, hview]

/-- A map with the same name on two levels. -/
def takenName : NestedMap where
  entries := [(.name [0x61], .scalar .null),
    (.name [0x62], .paramMap [(.name [0x61], .scalar (.bool true))])]
  ordered := by
    simp [Ordered, orderedEntries, Obj.paramMap, Key.kind]
    decide

/-- The name is taken, and the entry is lost. -/
theorem not_movesWithoutLoss_takenName :
    ¬MovesWithoutLoss takenName [[0x61]] [[0x62]] (takenName.rename [[0x61]] [[0x62]]) := by
  intro h
  have hnames : takenName.Names [[0x61]] := ⟨by decide, by decide⟩
  have hplace : ¬takenName.Placeable [[0x61]] [[0x62]] := by
    intro hplace
    have hfree := hplace.free (by decide)
    revert hfree
    decide
  have hsame := congrArg NestedMap.entries (h.kept hnames hplace)
  revert hsame
  decide

end Rename

end Dom

end Cyng
