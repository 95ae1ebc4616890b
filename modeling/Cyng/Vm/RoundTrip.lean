import Cyng.Vm.Transport

/-!
# The binary round trip

One trip through writer, parser and machine gives the mirror image of a tree. It is the
tree itself exactly when the tree is its own mirror image. The mirror image of the mirror
image is the tree, so two trips are the identity.
-/

namespace Cyng

open Theory

section Involution

variable {f g : Scalar → Scalar}

theorem mirrorItems_eq_map (items : List Obj) :
    mirrorItems f items = items.map (Obj.mirror f) := by
  induction items with
  | nil => rfl
  | cons item items ih => rw [mirrorItems, ih, List.map_cons]

mutual

/-- Two mirrors compose, and sequences are back in their order. -/
theorem Obj.mirror_mirror (hfg : ∀ v, g (f v) = v) (o : Obj) : (o.mirror f).mirror g = o := by
  match o with
  | .scalar v => rw [Obj.mirror, Obj.mirror, hfg]
  | .pair key value => rw [Obj.mirror, Obj.mirror, Obj.mirror_mirror hfg value]
  | .map kind entries => rw [Obj.mirror, Obj.mirror, mirrorEntries_mirrorEntries hfg entries]
  | .seq kind items =>
    rw [Obj.mirror, Obj.mirror, mirrorItems_eq_map, List.map_reverse, ← mirrorItems_eq_map,
      List.reverse_reverse, mirrorItems_mirrorItems hfg items]
  | .prg program => rw [Obj.mirror, Obj.mirror, List.reverse_reverse]

theorem mirrorItems_mirrorItems (hfg : ∀ v, g (f v) = v) (items : List Obj) :
    mirrorItems g (mirrorItems f items) = items := by
  match items with
  | [] => rfl
  | item :: items =>
    rw [mirrorItems, mirrorItems, Obj.mirror_mirror hfg item, mirrorItems_mirrorItems hfg items]

theorem mirrorEntries_mirrorEntries (hfg : ∀ v, g (f v) = v) (entries : List (Key × Obj)) :
    mirrorEntries g (mirrorEntries f entries) = entries := by
  match entries with
  | [] => rfl
  | (key, value) :: entries =>
    rw [mirrorEntries, mirrorEntries, Obj.mirror_mirror hfg value,
      mirrorEntries_mirrorEntries hfg entries]

end

end Involution

section Preservation

theorem itemsWellFormed_iff {items : List Obj} :
    itemsWellFormed items ↔ ∀ o ∈ items, o.WellFormed := by
  induction items with
  | nil => simp [itemsWellFormed]
  | cons item items ih => simp [itemsWellFormed, ih]

theorem itemsLeaves_iff {p : Scalar → Prop} {items : List Obj} :
    itemsLeaves p items ↔ ∀ o ∈ items, o.Leaves p := by
  induction items with
  | nil => simp [itemsLeaves]
  | cons item items ih => simp [itemsLeaves, ih]

/-- The tree with every sequence reversed, at all levels. -/
def Obj.reversed (o : Obj) : Obj := o.mirror id

mutual

theorem Obj.wellFormed_reversed (o : Obj) (h : o.WellFormed) : (o.mirror id).WellFormed := by
  match o with
  | .scalar v => exact h
  | .pair key value => exact ⟨h.1, Obj.wellFormed_reversed value h.2⟩
  | .map kind entries =>
    obtain ⟨hlen, hsorted, hentries⟩ := h
    exact ⟨by simpa using hlen, (sorted_mirrorEntries id).mpr hsorted,
      entriesWellFormed_reversed kind entries hentries⟩
  | .seq kind items =>
    obtain ⟨hlen, hitems⟩ := h
    refine ⟨by simpa using hlen, itemsWellFormed_iff.mpr ?_⟩
    simpa [itemsWellFormed_iff] using itemsWellFormed_reversed items hitems
  | .prg program =>
    obtain ⟨hlen, hbufs⟩ := h
    exact ⟨by simpa using hlen, by simpa using hbufs⟩

theorem itemsWellFormed_reversed (items : List Obj) (h : itemsWellFormed items) :
    itemsWellFormed (mirrorItems id items) := by
  match items with
  | [] => trivial
  | item :: items =>
    exact ⟨Obj.wellFormed_reversed item h.1, itemsWellFormed_reversed items h.2⟩

theorem entriesWellFormed_reversed (kind : KeyKind) (entries : List (Key × Obj))
    (h : entriesWellFormed kind entries) : entriesWellFormed kind (mirrorEntries id entries) := by
  match entries with
  | [] => trivial
  | (key, value) :: entries =>
    obtain ⟨hkind, hkey, hvalue, hrest⟩ := h
    exact ⟨hkind, hkey, Obj.wellFormed_reversed value hvalue,
      entriesWellFormed_reversed kind entries hrest⟩

end

mutual

theorem Obj.leaves_reversed {p : Scalar → Prop} (o : Obj) (h : o.Leaves p) :
    (o.mirror id).Leaves p := by
  match o with
  | .scalar v => exact h
  | .pair key value => exact Obj.leaves_reversed value h
  | .map kind entries => exact entriesLeaves_reversed entries h
  | .seq kind items =>
    refine itemsLeaves_iff.mpr ?_
    simpa [itemsLeaves_iff] using itemsLeaves_reversed items h
  | .prg program => trivial

theorem itemsLeaves_reversed {p : Scalar → Prop} (items : List Obj) (h : itemsLeaves p items) :
    itemsLeaves p (mirrorItems id items) := by
  match items with
  | [] => trivial
  | item :: items => exact ⟨Obj.leaves_reversed item h.1, itemsLeaves_reversed items h.2⟩

theorem entriesLeaves_reversed {p : Scalar → Prop} (entries : List (Key × Obj))
    (h : entriesLeaves p entries) : entriesLeaves p (mirrorEntries id entries) := by
  match entries with
  | [] => trivial
  | (_, value) :: entries =>
    exact ⟨Obj.leaves_reversed value h.1, entriesLeaves_reversed entries h.2⟩

end

end Preservation

namespace Vm

section Trips

variable (b : Build) (env : VmEnv) (ip : IpText)

/-- A new parser reads the bytes of a tree, and the machine executes what it emits: from
any stack, this pushes one object, with no other effect. -/
def Trip (s : Stack) (o r : Obj) : Prop :=
  ∃ p : Parser, (receive b env ip).run (Parser.initial, s) (serializeBinary ip o).bytes =
    .ok ((p, s.push r), [])

/-- The leaves of trees that are meant to travel: no op codes, no colors, addresses or
error codes. -/
def Portable : Scalar → Prop
  | .null | .bool _ | .char _ | .int _ _ | .string _ | .buffer _ | .timePoint _
  | .duration _ _ | .uuid _ | .mac48 _ | .mac64 _ | .obis _ | .obisPath _ | .version _
  | .revision _ | .digest _ _ | .aesKey _ _ => True
  | _ => False

theorem carried_of_portable {v : Scalar} (h : Portable v) :
    Carried b ip Scalar.received v := by
  cases v
  case errorCode => exact absurd h id
  case op => exact absurd h id
  case raw => exact absurd h id
  case color16 => exact absurd h id
  all_goals exact ⟨deserialize_payload b ip trivial, by simp [Scalar.received]⟩

/-- Leaves that survive the codec and are no op codes. -/
def Travels (v : Scalar) : Prop := v.Survives b ∧ ∀ code, v ≠ .op code

theorem carried_of_travels {v : Scalar} (h : Travels b v) : Carried b ip id v := by
  obtain ⟨hdecodable, hreceived⟩ := (Scalar.survives_iff b).mp h.1
  refine ⟨?_, h.2⟩
  rw [deserialize_payload b ip hdecodable, hreceived]
  rfl

mutual

theorem Leaves.imp {p q : Scalar → Prop} (hpq : ∀ v, p v → q v) (o : Obj) (h : o.Leaves p) :
    o.Leaves q := by
  match o with
  | .scalar v => exact hpq v h
  | .pair _ value => exact Leaves.imp hpq value h
  | .map _ entries => exact entriesLeaves_imp hpq entries h
  | .seq _ items => exact itemsLeaves_imp hpq items h
  | .prg _ => trivial

theorem itemsLeaves_imp {p q : Scalar → Prop} (hpq : ∀ v, p v → q v) (items : List Obj)
    (h : itemsLeaves p items) : itemsLeaves q items := by
  match items with
  | [] => trivial
  | item :: items => exact ⟨Leaves.imp hpq item h.1, itemsLeaves_imp hpq items h.2⟩

theorem entriesLeaves_imp {p q : Scalar → Prop} (hpq : ∀ v, p v → q v)
    (entries : List (Key × Obj)) (h : entriesLeaves p entries) : entriesLeaves q entries := by
  match entries with
  | [] => trivial
  | (_, value) :: entries => exact ⟨Leaves.imp hpq value h.1, entriesLeaves_imp hpq entries h.2⟩

end

/-- A trip succeeds where the assertions let it pass, and brings the mirror image. -/
theorem trip_mirror {o : Obj} {s : Stack} (hwf : o.WellFormed) (hleaf : o.Leaves Portable)
    (hpass : Passes b s o) : Trip b env ip s o (o.mirror Scalar.received) := by
  obtain ⟨p, -, hrun⟩ := delivers_obj o s hwf
    (Leaves.imp (fun _ => carried_of_portable b ip) o hleaf) hpass Parser.initial ⟨rfl, rfl⟩
  exact ⟨p, hrun⟩

/-- The object that arrives is the one that was sent exactly when it is its own mirror
image (all sequences reversed and the bytes of all words of a `mac64` swapped), and it
does not start, on an empty stack, with an attribute map without entries. -/
theorem trip_self_iff (o : Object) (s : Stack) (hleaf : o.tree.Leaves Portable) :
    Trip b env ip s o.tree o.tree ↔
      o.tree.mirror Scalar.received = o.tree ∧
        (b.enabled attrMapText = true → s.items = [] → startsWithEmptyAttrMap o.tree = false) := by
  constructor
  · rintro ⟨p, hrun⟩
    have hpass : Passes b s o.tree := by
      intro hb hs
      by_contra hstart
      have hfails : Fails b env ip (serializeBinary ip o.tree).bytes s :=
        fails_obj o.tree s hb hs (by simpa using hstart)
      obtain ⟨e, he⟩ := hfails Parser.initial ⟨rfl, rfl⟩
      rw [hrun] at he
      cases he
    obtain ⟨p', hrun'⟩ := trip_mirror b env ip o.wellFormed hleaf hpass
    rw [hrun'] at hrun
    simp only [Except.ok.injEq, Prod.mk.injEq, Stack.push, Stack.mk.injEq,
      List.append_cancel_left_eq, List.cons.injEq, and_true] at hrun
    exact ⟨hrun.2, hpass⟩
  · rintro ⟨hmirror, hpass⟩
    simpa [hmirror] using trip_mirror b env ip o.wellFormed hleaf hpass

/-- A machine that is connected to nothing. -/
def bare : VmEnv where
  hasher := ⟨fun _ => 0, fun _ => 0⟩
  channel := none
  now := 0
  pid := 0
  tid := 0
  call _ _ := none
  functions := 5

/-- Two different leaves in a vector. -/
def twoLeaves : Object where
  tree := .vector [.scalar .null, .scalar (.bool true)]
  wellFormed := by
    simp [Obj.vector, Obj.WellFormed, itemsWellFormed, Scalar.Fits, objectMaxCount, maxSize]

theorem trip_self_iff_twoLeaves :
    Trip .debug bare .tagged ⟨[], 0⟩ twoLeaves.tree twoLeaves.tree ↔
      twoLeaves.tree.mirror Scalar.received = twoLeaves.tree ∧
        (Build.debug.enabled attrMapText = true → ([] : List Obj) = [] →
          startsWithEmptyAttrMap twoLeaves.tree = false) :=
  trip_self_iff .debug bare .tagged twoLeaves ⟨[], 0⟩ ⟨trivial, trivial, trivial⟩

/-- The two leaves arrive in the other order. -/
theorem twoLeaves_swapped :
    ¬∀ (b : Build) (env : VmEnv) (ip : IpText) (o : Object) (s : Stack),
      o.tree.Leaves Portable → Trip b env ip s o.tree o.tree := by
  intro h
  have hleaf : twoLeaves.tree.Leaves Portable := ⟨trivial, trivial, trivial⟩
  obtain ⟨p, hself⟩ := h .release bare .tagged twoLeaves ⟨[], 0⟩ hleaf
  obtain ⟨p', hmirror⟩ := trip_mirror .release bare .tagged (s := ⟨[], 0⟩)
    twoLeaves.wellFormed hleaf fun hb => by cases hb
  rw [hself] at hmirror
  simp [Stack.push, twoLeaves, Obj.vector, Obj.mirror, mirrorItems, Scalar.received] at hmirror

/-- Two trips are the identity: each of them reverses every sequence at every level and
leaves keys, values and leaves alone. -/
theorem trip_reversed (o : Object) (hleaf : o.tree.Leaves (Travels b))
    (hb : b.enabled attrMapText = false) :
    ∀ s s', Trip b env ip s o.tree o.tree.reversed ∧ Trip b env ip s' o.tree.reversed o.tree := by
  intro s s'
  have hcarried (r : Obj) (h : r.Leaves (Travels b)) : r.Leaves (Carried b ip id) :=
    Leaves.imp (fun _ => carried_of_travels b ip) r h
  have hpass (t : Stack) (r : Obj) : Passes b t r := fun h => by simp [hb] at h
  obtain ⟨p, -, hrun⟩ := delivers_obj o.tree s o.wellFormed (hcarried _ hleaf) (hpass s _)
    Parser.initial ⟨rfl, rfl⟩
  obtain ⟨p', -, hrun'⟩ := delivers_obj o.tree.reversed s'
    (Obj.wellFormed_reversed o.tree o.wellFormed)
    (hcarried _ (Obj.leaves_reversed o.tree hleaf)) (hpass s' _) Parser.initial ⟨rfl, rfl⟩
  rw [Obj.reversed, Obj.mirror_mirror (fun _ => rfl)] at hrun'
  exact ⟨⟨p, hrun⟩, ⟨p', hrun'⟩⟩

theorem trip_reversed_twoLeaves :
    Trip .release bare .tagged ⟨[], 0⟩ twoLeaves.tree twoLeaves.tree.reversed ∧
      Trip .release bare .tagged ⟨[], 7⟩ twoLeaves.tree.reversed twoLeaves.tree :=
  trip_reversed .release bare .tagged twoLeaves
    ⟨⟨trivial, by simp⟩, ⟨trivial, by simp⟩, trivial⟩ rfl ⟨[], 0⟩ ⟨[], 7⟩

end Trips

end Vm

end Cyng
