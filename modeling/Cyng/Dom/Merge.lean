import Cyng.Dom.NestedMap

/-!
# Merging a value into a parameter map

`merge` walks down a path of names, one map after the other, and creates the maps that are
missing. It gives up where something other than a parameter map is in the way.

What comes out is the graft of the value, and a tree with something in the way stays as it is.
So what a merge does to one path is not seen from any other, and merges commute.
-/

namespace Cyng

open Theory

namespace Dom

open PathView

/-- The loop of `merge`; the map that the pointer points to is updated in place. -/
def merge (b : Build) (val : Obj) : List Bytes → Entries → Except Fault Entries
  | [], pm => .ok pm
  | [n], pm => .ok (OrderedMap.put (.name n) val pm)
  | n :: n' :: il, pm =>
    match OrderedMap.find (.name n) pm with
    | some sub => do
      b.check "is_of_type<TC_PARAM_MAP>(pos->second)" (sub.typeCode = .paramMap)
      match asParamMap sub with
      | some entries => do
        let entries ← merge b val (n' :: il) entries
        return OrderedMap.put (.name n) (.map .name entries) pm
      -- wrong data type
      | none => return pm
    | none => do
      let entries ← merge b val (n' :: il) []
      return OrderedMap.put (.name n) (.map .name entries) pm

section Merge

variable {val sub : Obj} {pm entries : Entries} {n n' : Bytes} {il : List Bytes}

theorem merge_of_map (h : OrderedMap.find (.name n) pm = some sub)
    (hsub : asParamMap sub = some entries) :
    merge .release val (n :: n' :: il) pm = (merge .release val (n' :: il) entries).map
      fun entries => OrderedMap.put (.name n) (.map .name entries) pm := by
  rw [merge, h]
  simp only [Build.check_release, ok_bind, hsub]
  rfl

theorem merge_of_leaf (h : OrderedMap.find (.name n) pm = some sub)
    (hsub : asParamMap sub = none) : merge .release val (n :: n' :: il) pm = .ok pm := by
  rw [merge, h]
  simp only [Build.check_release, ok_bind, hsub]
  rfl

theorem merge_of_absent (h : OrderedMap.find (.name n) pm = none) :
    merge .release val (n :: n' :: il) pm = (merge .release val (n' :: il) []).map
      fun entries => OrderedMap.put (.name n) (.map .name entries) pm := by
  rw [merge, h]
  rfl

/-- Where something is in the way, nothing changes. -/
theorem merge_of_blocked (hpm : Ordered (.map .name pm)) (h : (viewEntries pm).Blocked (n :: il)) :
    merge .release val (n :: il) pm = .ok pm := by
  induction il generalizing pm n with
  | nil =>
    rw [blocked_cons viewEntries_nil] at h
    exact absurd h not_blocked_nil
  | cons n' il ih =>
    rw [blocked_cons viewEntries_nil] at h
    cases hfind : OrderedMap.find (.name n) pm with
    | none =>
      rw [below_viewEntries_of_absent hfind] at h
      obtain ⟨q, -, -, x, hx⟩ := h
      cases hx
    | some sub =>
      rw [below_viewEntries_of_find hfind] at h
      cases hsub : asParamMap sub with
      | none => exact merge_of_leaf hfind hsub
      | some entries =>
        obtain rfl := asParamMap_eq_some_iff.mp hsub
        rw [merge_of_map hfind hsub, ih (hpm.of_find hfind) h]
        exact congrArg Except.ok (OrderedMap.put_of_find (ordered_map_iff.mp hpm).1 hfind)

/-- Where nothing is in the way, the value is grafted. -/
theorem merge_of_not_blocked (hpm : Ordered (.map .name pm)) (hval : Ordered val)
    (h : ¬(viewEntries pm).Blocked (n :: il)) :
    ∃ pm', merge .release val (n :: il) pm = .ok pm' ∧ Ordered (.map .name pm') ∧
      viewEntries pm' = (viewEntries pm).graft (n :: il) (view val) := by
  induction il generalizing pm n with
  | nil =>
    exact ⟨_, rfl, hpm.put hval, viewEntries_put⟩
  | cons n' il ih =>
    rw [blocked_cons viewEntries_nil] at h
    rw [graft_cons]
    cases hfind : OrderedMap.find (.name n) pm with
    | none =>
      -- the maps that are missing are created
      have hempty : ¬(viewEntries []).Blocked (n' :: il) := by
        rw [blocked_cons viewEntries_nil, below_viewEntries_of_absent rfl]
        rintro ⟨q, -, -, x, hx⟩
        cases hx
      obtain ⟨entries, hentries, hordered, hview⟩ := ih ordered_nil hempty
      refine ⟨OrderedMap.put (.name n) (.map .name entries) pm, ?_, hpm.put hordered, ?_⟩
      · rw [merge_of_absent hfind, hentries]
        rfl
      · rw [viewEntries_put, below_viewEntries_of_absent hfind]
        congr 1
        refine hview.trans (graft_congr fun q hq => ?_)
        cases q with
        | nil => exact absurd List.nil_prefix hq
        | cons n'' q => rfl
    | some sub =>
      rw [below_viewEntries_of_find hfind] at h ⊢
      cases hsub : asParamMap sub with
      | none => exact absurd (blocked_of_leaf (view_root_of_leaf hsub) (List.cons_ne_nil _ _)) h
      | some entries =>
        obtain rfl := asParamMap_eq_some_iff.mp hsub
        obtain ⟨entries', hentries, hordered, hview⟩ := ih (hpm.of_find hfind) h
        refine ⟨OrderedMap.put (.name n) (.map .name entries') pm, ?_, hpm.put hordered, ?_⟩
        · rw [merge_of_map hfind hsub, hentries]
          rfl
        · rw [viewEntries_put]
          exact congrArg _ hview

end Merge

/-! ### Path updates -/

/-- The object at a path of names in a parameter map. -/
def NestedMap.entry (m : NestedMap) (path : List Bytes) : Option Obj :=
  Dom.entry path (.map .name m.entries)

/-- A part of the path leads to something that is not a parameter map. -/
def NestedMap.Blocked (m : NestedMap) (path : List Bytes) : Prop :=
  ∃ q, q <+: path ∧ q ≠ path ∧ ∃ o, m.entry q = some o ∧ o.typeCode ≠ .paramMap

/-- One map is the other one with a value at a path. -/
structure Updated (m : NestedMap) (path : List Bytes) (val : Obj) (m' : NestedMap) : Prop where
  there : m'.entry path = some val
  above : ∀ q, q <+: path → q ≠ path → ∃ entries, m'.entry q = some (.map .name entries)
  elsewhere : ∀ q, ¬path <+: q → ¬q <+: path → m'.entry q = m.entry q

section Updates

variable {m m' : NestedMap} {path : List Bytes} {val : Obj}

theorem asParamMap_eq_none_iff {o : Obj} : asParamMap o = none ↔ o.typeCode ≠ .paramMap := by
  cases o with
  | map kind entries => cases kind <;> simp [asParamMap, Obj.typeCode, KeyKind.mapCode]
  | scalar v =>
    have hv := v.isContainer_typeCode
    simp only [asParamMap, Obj.typeCode, true_iff]
    rintro heq
    rw [heq] at hv
    cases hv
  | pair key value => cases key <;> simp [asParamMap, Obj.typeCode, Key.kind, KeyKind.pairCode]
  | seq kind items => cases kind <;> simp [asParamMap, Obj.typeCode, SeqKind.typeCode]
  | prg program => simp [asParamMap, Obj.typeCode]

theorem blocked_iff : m.Blocked path ↔ (viewEntries m.entries).Blocked path := by
  simp only [NestedMap.Blocked, View.Blocked, viewEntries, exists_leaf_iff, asParamMap_eq_none_iff]
  rfl

/-- To graft a value is to update a path. -/
theorem updated_of_graft (hval : Ordered val)
    (h : viewEntries m'.entries = (viewEntries m.entries).graft path (view val)) :
    Updated m path val m' := by
  refine ⟨?_, fun q hq hne => ?_, fun q hq hq' => ?_⟩
  · have hbelow : (viewEntries m'.entries).below path = (view val).below [] := by
      rw [h, below_graft]
      rfl
    exact entry_eq_of_view m'.ordered hval hbelow
  · apply exists_entry_of_map
    have hnot : ¬path <+: q := fun hback => hne (hq.eq_of_length_le hback.length_le)
    have hroot := congrFun h q
    rw [View.graft, if_neg hnot, if_pos hq] at hroot
    exact hroot
  · apply entry_eq_of_view m'.ordered m.ordered
    funext r
    obtain ⟨hr, hr'⟩ := incomparable_append (r := r) hq hq'
    have hroot := congrFun h (q ++ r)
    rw [graft_of_incomparable hr hr'] at hroot
    exact hroot

/-- A merge updates the path, unless something is in the way; then it changes nothing. Merges at
paths that part from each other commute. -/
theorem merge_updates (m : NestedMap) (n : Bytes) (il : List Bytes) (val : Object) :
    (m.Blocked (n :: il) → merge .release val.tree (n :: il) m.entries = .ok m.entries) ∧
    (¬m.Blocked (n :: il) → ∃ m' : NestedMap,
      merge .release val.tree (n :: il) m.entries = .ok m'.entries ∧
        Updated m (n :: il) val.tree m') ∧
    ∀ (n' : Bytes) (il' : List Bytes) (val' : Object),
      ¬n :: il <+: n' :: il' → ¬n' :: il' <+: n :: il →
      ¬m.Blocked (n :: il) → ¬m.Blocked (n' :: il') →
      ∃ pm, (merge .release val.tree (n :: il) m.entries).bind
          (merge .release val'.tree (n' :: il')) = .ok pm ∧
        (merge .release val'.tree (n' :: il') m.entries).bind
          (merge .release val.tree (n :: il)) = .ok pm := by
  have hval := ordered_of_wellFormed val.tree val.wellFormed
  refine ⟨fun h => ?_, fun h => ?_, fun n' il' val' hpart hpart' h h' => ?_⟩
  · exact merge_of_blocked m.ordered (blocked_iff.mp h)
  · obtain ⟨pm, hmerge, hordered, hview⟩ :=
      merge_of_not_blocked m.ordered hval (mt blocked_iff.mpr h)
    exact ⟨⟨pm, hordered⟩, hmerge, updated_of_graft hval hview⟩
  · have hval' := ordered_of_wellFormed val'.tree val'.wellFormed
    rw [blocked_iff] at h h'
    obtain ⟨pm, hmerge, hordered, hview⟩ := merge_of_not_blocked m.ordered hval h
    obtain ⟨pm', hmerge', hordered', hview'⟩ := merge_of_not_blocked m.ordered hval' h'
    have hfree : ¬(viewEntries pm).Blocked (n' :: il') := by
      rw [hview, blocked_graft_iff hpart h]
      exact h'
    have hfree' : ¬(viewEntries pm').Blocked (n :: il) := by
      rw [hview', blocked_graft_iff hpart' h']
      exact h
    obtain ⟨r, hr, hrordered, hrview⟩ := merge_of_not_blocked hordered hval' hfree
    obtain ⟨r', hr', hrordered', hrview'⟩ := merge_of_not_blocked hordered' hval hfree'
    -- both orders end in the same tree
    have hsame : viewEntries r = viewEntries r' := by
      rw [hrview, hrview', hview, hview', graft_comm hpart hpart']
    obtain rfl : r = r' := by
      have hmap := ext_view (.map .name r) (.map .name r') hrordered hrordered' hsame
      exact (Obj.map.inj hmap).2
    rw [hmerge, hmerge']
    exact ⟨r, hr, hr'⟩

end Updates

end Dom

end Cyng
