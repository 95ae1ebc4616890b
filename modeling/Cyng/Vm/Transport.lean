import Cyng.Vm.Machine

/-!
# Transport of object trees

The writer turns an object tree into leaves and build instructions, the parser cuts the
bytes into objects again, and the machine executes them. Every container takes its
elements from the top of the stack, the last one first. So what arrives is the tree with
every tuple, vector, deque and program reversed; pairs and maps keep their keys and values.

The statements are about the bytes of a tree on any stack, so that those of its subtrees
can be used one after the other.
-/

namespace Cyng

open Theory

section Mirror

variable (f : Scalar → Scalar)

mutual

/-- The tree with every sequence reversed, at all levels, and every leaf changed. -/
def Obj.mirror : Obj → Obj
  | .scalar v => .scalar (f v)
  | .pair key value => .pair key value.mirror
  | .map kind entries => .map kind (mirrorEntries entries)
  | .seq kind items => .seq kind (mirrorItems items).reverse
  | .prg program => .prg program.reverse

/-- The elements of a sequence, in their order. -/
def mirrorItems : List Obj → List Obj
  | [] => []
  | item :: items => item.mirror :: mirrorItems items

/-- The entries of a map, in their order. -/
def mirrorEntries : List (Key × Obj) → List (Key × Obj)
  | [] => []
  | (key, value) :: entries => (key, value.mirror) :: mirrorEntries entries

end

@[simp] theorem length_mirrorItems (items : List Obj) :
    (mirrorItems f items).length = items.length := by
  induction items with
  | nil => rfl
  | cons item items ih => simp [mirrorItems, ih]

@[simp] theorem length_mirrorEntries (entries : List (Key × Obj)) :
    (mirrorEntries f entries).length = entries.length := by
  induction entries with
  | nil => rfl
  | cons e entries ih => simp [mirrorEntries, ih]

@[simp] theorem map_fst_mirrorEntries (entries : List (Key × Obj)) :
    (mirrorEntries f entries).map Prod.fst = entries.map Prod.fst := by
  induction entries with
  | nil => rfl
  | cons e entries ih => simp [mirrorEntries, ih]

theorem sorted_iff_map_fst {ν : Type} {m : List (Key × ν)} :
    OrderedMap.Sorted m ↔ (m.map Prod.fst).Pairwise (· < ·) :=
  List.pairwise_map.symm

theorem sorted_mirrorEntries {entries : List (Key × Obj)} :
    OrderedMap.Sorted (mirrorEntries f entries) ↔ OrderedMap.Sorted entries := by
  rw [sorted_iff_map_fst, sorted_iff_map_fst, map_fst_mirrorEntries]

theorem kind_mirrorEntries {kind : KeyKind} {entries : List (Key × Obj)}
    (h : entriesWellFormed kind entries) : ∀ e ∈ mirrorEntries f entries, e.1.kind = kind := by
  induction entries with
  | nil => simp [mirrorEntries]
  | cons e entries ih =>
    obtain ⟨hkind, -, -, hrest⟩ := h
    rw [mirrorEntries]
    intro e' he'
    rcases List.mem_cons.mp he' with rfl | he'
    · exact hkind
    · exact ih hrest e' he'

end Mirror

namespace Vm

section Delivers

variable (b : Build) (env : VmEnv) (ip : IpText)

/-- Reading the bytes on an idle parser takes the stack to another one, without an effect,
and leaves the parser idle. -/
def Delivers (bs : Bytes) (s s' : Stack) : Prop :=
  ∀ p : Parser, p.Idle → ∃ p' : Parser, p'.Idle ∧
    (receive b env ip).run (p, s) bs = .ok ((p', s'), [])

variable {b env ip}

theorem Delivers.nil {s : Stack} : Delivers b env ip [] s s :=
  fun p hp => ⟨p, hp, rfl⟩

/-- Deliveries compose. -/
theorem Delivers.append {xs ys : Bytes} {s t u : Stack} (h : Delivers b env ip xs s t)
    (h' : Delivers b env ip ys t u) : Delivers b env ip (xs ++ ys) s u := by
  intro p hp
  obtain ⟨p', hp', hrun⟩ := h p hp
  obtain ⟨p'', hp'', hrun'⟩ := h' p' hp'
  exact ⟨p'', hp'', Step.run_append_ok hrun hrun'⟩

/-- The machine does not see how much room is made for a value. -/
theorem run_onEvent_of_silent {s : Stack} {events : List (ParserEvent Scalar)}
    (hevents : Parser.deliveries events = []) : (onEvent b env).run s events = .ok (s, []) := by
  induction events with
  | nil => rfl
  | cons e events ih =>
    cases e with
    | reserve field n =>
      have hstep : onEvent b env s (.reserve field n) = .ok (s, []) := rfl
      simpa using Step.run_cons_ok hstep (ih hevents)
    | deliver t payload v => simp [Parser.deliveries] at hevents

/-- The machine sees the delivered objects only. -/
theorem run_onEvent {s s' : Stack} {effects : List VmEffect}
    {events : List (ParserEvent Scalar)} {t : BitVec 16} {payload : Bytes} {v : Scalar}
    (hevents : Parser.deliveries events = [(t, payload, v)])
    (hexec : exec b env s (.scalar v) = .ok (s', effects)) :
    (onEvent b env).run s events = .ok (s', effects) := by
  induction events with
  | nil => simp [Parser.deliveries] at hevents
  | cons e events ih =>
    cases e with
    | reserve field n =>
      have hstep : onEvent b env s (.reserve field n) = .ok (s, []) := rfl
      simpa using Step.run_cons_ok hstep (ih hevents)
    | deliver t' payload' v' =>
      simp only [Parser.deliveries, List.cons.injEq, Prod.mk.injEq] at hevents
      obtain ⟨⟨rfl, rfl, rfl⟩, hrest⟩ := hevents
      have hstep : onEvent b env s (.deliver t' payload' v') = .ok (s', effects) := hexec
      simpa using Step.run_cons_ok hstep (run_onEvent_of_silent hrest)

/-- A leaf is delivered as what its decoder makes of it, and executed. -/
theorem delivers_leaf {v w : Scalar} {s s' : Stack} (hfits : v.Fits)
    (hdecode : deserialize b ip (v.payload ip) v.typeCode.code = .ok w)
    (hexec : exec b env s (.scalar w) = .ok (s', [])) :
    Delivers b env ip (v.write ip).bytes s s' := by
  intro p hp
  have hlen : (v.payload ip).length ≤ maxSize :=
    (Scalar.length_payload ip v).trans_le (Scalar.announced_le_maxSize ip hfits)
  obtain ⟨p', events, hrun, hp', hevents⟩ := Parser.run_frame b
    (fun type buffer => deserialize b ip buffer type) hp hlen hdecode
  rw [Scalar.length_payload] at hrun
  exact ⟨p', hp', Step.run_pipe_ok hrun (run_onEvent hevents hexec)⟩

end Delivers

section Trees

variable (b : Build) (env : VmEnv) (ip : IpText) (f : Scalar → Scalar)

/-- The leaf arrives as another leaf, one that the machine pushes. -/
def Carried (v : Scalar) : Prop :=
  deserialize b ip (v.payload ip) v.typeCode.code = .ok (f v) ∧ ∀ code, f v ≠ .op code

/-- The text of the assertions of `stack::make_attr_map`. -/
def attrMapText : String := "not enough parameters (attr_map)"

/-- The first thing that is built is an attribute map without entries. -/
def startsWithEmptyAttrMap : Obj → Bool
  | .scalar _ => false
  | .pair _ value => startsWithEmptyAttrMap value
  | .map kind [] => kind = .index
  | .map _ ((_, value) :: _) => startsWithEmptyAttrMap value
  | .seq _ [] => false
  | .seq _ (item :: _) => startsWithEmptyAttrMap item
  | .prg _ => false

/-- The assertion that `make_attr_map` shares with nobody lets the tree through. -/
def Passes (s : Stack) (o : Obj) : Prop :=
  b.enabled attrMapText = true → s.items = [] → startsWithEmptyAttrMap o = false

variable {b env ip f}

theorem delivers_op {code : BitVec 16} {s s' : Stack} (h : execOp b env code s = .ok (s', [])) :
    Delivers b env ip ((Scalar.op code).write ip).bytes s s' :=
  delivers_leaf trivial (deserialize_payload b ip (v := .op code) trivial) h

theorem delivers_buffer {buf : Bytes} {s : Stack} (h : buf.length ≤ maxSize) :
    Delivers b env ip ((Scalar.buffer buf).write ip).bytes s (s.push (.scalar (.buffer buf))) :=
  delivers_leaf (v := .buffer buf) h (deserialize_payload b ip (v := .buffer buf) trivial) rfl

theorem delivers_key {key : Key} {s : Stack} (h : key.Fits) :
    Delivers b env ip (key.toScalar.write ip).bytes s (s.push (.scalar key.toScalar)) := by
  cases key with
  | index i => exact delivers_leaf trivial (deserialize_payload b ip (v := .uint64 i) trivial) rfl
  | name n => exact delivers_leaf (v := .string n) h (deserialize_payload b ip trivial) rfl
  | code c => exact delivers_leaf trivial (deserialize_payload b ip (v := .obis c) trivial) rfl

theorem delivers_carried {v : Scalar} {s : Stack} (hfits : v.Fits) (h : Carried b ip f v) :
    Delivers b env ip (v.write ip).bytes s (s.push (.scalar (f v))) := by
  obtain ⟨hdecode, hop⟩ := h
  refine delivers_leaf hfits hdecode ?_
  cases hv : f v with
  | op code => exact absurd hv (hop code)
  | _ => rfl

/-- The count and the instruction at the end of a container. -/
theorem delivers_make {n : ℕ} {code : BitVec 16} {s s' : Stack}
    (h : execOp b env code (s.push (.size n)) = .ok (s', [])) :
    Delivers b env ip (writeMake ip n code).bytes s s' :=
  Delivers.append
    (delivers_leaf trivial
      (deserialize_payload b ip (v := .uint64 (BitVec.ofNat 64 n)) trivial) rfl)
    (delivers_op h)

/-- Key and instruction make a pair of a value. -/
theorem delivers_pair {key : Key} {value value' : Obj} {s : Stack}
    (hvalue : Delivers b env ip (serializeBinary ip value).bytes s (s.push value'))
    (hkey : key.Fits) :
    Delivers b env ip (serializeBinary ip (.pair key value)).bytes s
      (s.push (.pair key value')) := by
  refine (hvalue.append (delivers_key hkey)).append (delivers_op ?_)
  cases key with
  | index i => exact congrArg silent (Stack.makePair_push b (.index i) _ s value')
  | name n => exact congrArg silent (Stack.makePair_push b (.name n) _ s value')
  | code c => exact congrArg silent (Stack.makePair_push b (.code c) _ s value')

/-- Count and instruction at the end of a map. -/
theorem delivers_map (b : Build) (env : VmEnv) (ip : IpText) (s : Stack) {kind : KeyKind}
    {entries : List (Key × Obj)} (hkind : ∀ e ∈ entries, e.1.kind = kind)
    (hsorted : OrderedMap.Sorted entries) (hlen : entries.length ≤ objectMaxCount)
    (hbase : b.enabled attrMapText = true → s.items = [] → (kind = .index → entries ≠ [])) :
    Delivers b env ip (writeMake ip entries.length kind.makeMap).bytes
      (s.pushAll (entries.map fun e => .pair e.1 e.2)) (s.push (.map kind entries)) := by
  have hmax : objectMaxCount < 2 ^ 64 := by decide
  have hmake (text : String) (least : ℕ)
      (hleast : b.enabled text = true → least ≤ s.items.length + entries.length) :=
    Stack.makeMap_pushAll b hkind hsorted (by omega) hleast
  refine delivers_make ?_
  cases kind with
  | index =>
    refine congrArg silent (hmake _ 1 fun hb => ?_)
    by_cases hs : s.items = []
    · have := List.length_pos_iff.mpr (hbase hb hs rfl)
      omega
    · have := List.length_pos_iff.mpr hs
      omega
  | name => exact congrArg silent (hmake _ 0 fun _ => Nat.zero_le _)
  | code => exact congrArg silent (hmake _ 0 fun _ => Nat.zero_le _)

/-- Count and instruction at the end of a sequence. -/
theorem delivers_seq (b : Build) (env : VmEnv) (ip : IpText) (kind : SeqKind)
    (items : List Obj) (s : Stack) (hlen : items.length ≤ objectMaxCount) :
    Delivers b env ip (writeMake ip items.length kind.make).bytes
      (s.pushAll items) (s.push (.seq kind items.reverse)) := by
  have hmax : objectMaxCount < 2 ^ 64 := by decide
  refine delivers_make ?_
  cases kind with
  | tuple => exact congrArg silent (Stack.makeSeq_pushAll b (by omega))
  | vector => exact congrArg silent (Stack.makeVector_pushAll b hlen)
  | deque => exact congrArg silent (Stack.makeSeq_pushAll b (by omega))

theorem delivers_buffers {program : List Bytes} {s : Stack}
    (h : ∀ buf ∈ program, buf.length ≤ maxSize) :
    Delivers b env ip (writeBuffers ip program).bytes s
      (s.pushAll (program.map fun buf => .scalar (.buffer buf))) := by
  induction program generalizing s with
  | nil =>
    rw [List.map_nil, Stack.pushAll_nil]
    exact Delivers.nil
  | cons buf program ih =>
    rw [List.map_cons, Stack.pushAll_cons]
    exact Delivers.append (delivers_buffer (h buf List.mem_cons_self))
      (ih fun buf' hbuf' => h buf' (List.mem_cons_of_mem buf hbuf'))

theorem passes_push {s : Stack} {o o' : Obj} : Passes b (s.push o) o' := by
  intro _ hs
  simp at hs

mutual

/-- The bytes of a tree leave its mirror image on the stack, and nothing else happens. -/
theorem delivers_obj (o : Obj) (s : Stack) (hwf : o.WellFormed)
    (hleaf : o.Leaves (Carried b ip f)) (hbase : Passes b s o) :
    Delivers b env ip (serializeBinary ip o).bytes s (s.push (o.mirror f)) := by
  match o with
  | .scalar v => exact delivers_carried hwf hleaf
  | .pair key value =>
    exact delivers_pair (delivers_obj value s hwf.2 hleaf hbase) hwf.1
  | .map kind entries =>
    obtain ⟨hlen, hsorted, hentries⟩ := hwf
    -- the entries come first, then the op code that makes the map of them
    have hpairs := delivers_pairs kind entries s hentries hleaf (by
      intro e he hb hs
      cases entries with
      | nil => simp at he
      | cons e' entries =>
        obtain rfl : e' = e := by simpa using he
        exact hbase hb hs)
    have hmap := delivers_map b env ip s
      (kind_mirrorEntries f hentries) ((sorted_mirrorEntries f).mpr hsorted)
      (by simpa using hlen) (by
        rintro hb hs rfl
        cases entries with
        | nil => exact absurd (hbase hb hs) (by simp [startsWithEmptyAttrMap])
        | cons e entries => simp [mirrorEntries])
    rw [length_mirrorEntries] at hmap
    exact hpairs.append hmap
  | .seq kind items =>
    obtain ⟨hlen, hitems⟩ := hwf
    have hall := delivers_items items s hitems hleaf (by
      intro o ho hb hs
      cases items with
      | nil => simp at ho
      | cons o' items =>
        obtain rfl : o' = o := by simpa using ho
        exact hbase hb hs)
    have hseq := delivers_seq b env ip kind (mirrorItems f items) s (by simpa using hlen)
    rw [length_mirrorItems] at hseq
    exact hall.append hseq
  | .prg program =>
    have hmax : objectMaxCount < 2 ^ 64 := by decide
    obtain ⟨hlen, hbufs⟩ := hwf
    exact (delivers_buffers hbufs).append
      (delivers_make (congrArg silent (Stack.makePrg_pushAll b (by omega))))

theorem delivers_items (items : List Obj) (s : Stack) (hwf : itemsWellFormed items)
    (hleaf : itemsLeaves (Carried b ip f) items) (hbase : ∀ o ∈ items.head?, Passes b s o) :
    Delivers b env ip (writeItems ip items).bytes s (s.pushAll (mirrorItems f items)) := by
  match items with
  | [] =>
    rw [mirrorItems, Stack.pushAll_nil]
    exact Delivers.nil
  | item :: items =>
    have hitem := delivers_obj item s hwf.1 hleaf.1 (hbase item rfl)
    have hitems := delivers_items items (s.push (item.mirror f)) hwf.2 hleaf.2
      fun _ _ => passes_push
    rw [mirrorItems, Stack.pushAll_cons]
    exact hitem.append hitems

theorem delivers_pairs (kind : KeyKind) (entries : List (Key × Obj)) (s : Stack)
    (hwf : entriesWellFormed kind entries) (hleaf : entriesLeaves (Carried b ip f) entries)
    (hbase : ∀ e ∈ entries.head?, Passes b s e.2) :
    Delivers b env ip (writePairs ip entries).bytes s
      (s.pushAll ((mirrorEntries f entries).map fun e => .pair e.1 e.2)) := by
  match entries with
  | [] =>
    rw [mirrorEntries, List.map_nil, Stack.pushAll_nil]
    exact Delivers.nil
  | (key, value) :: entries =>
    obtain ⟨-, hkey, hvalue, hrest⟩ := hwf
    have hhead := delivers_obj value s hvalue hleaf.1 (hbase (key, value) rfl)
    have hentries := delivers_pairs kind entries (s.push (.pair key (value.mirror f))) hrest
      hleaf.2 fun _ _ => passes_push
    rw [mirrorEntries, List.map_cons, Stack.pushAll_cons]
    exact (delivers_pair hhead hkey).append hentries

end

end Trees

section Refusal

variable {b : Build} {env : VmEnv} {ip : IpText}

variable (b env ip) in
/-- Reading the bytes on an idle parser ends in a fault. -/
def Fails (bs : Bytes) (s : Stack) : Prop :=
  ∀ p : Parser, p.Idle → ∃ e, (receive b env ip).run (p, s) bs = .error e

theorem Fails.append {xs : Bytes} {s : Stack} (h : Fails b env ip xs s) (ys : Bytes) :
    Fails b env ip (xs ++ ys) s := by
  intro p hp
  obtain ⟨e, he⟩ := h p hp
  exact ⟨e, Step.run_append_of_error he⟩

theorem Delivers.fails {xs ys : Bytes} {s t : Stack} (h : Delivers b env ip xs s t)
    (h' : Fails b env ip ys t) : Fails b env ip (xs ++ ys) s := by
  intro p hp
  obtain ⟨p', hp', hrun⟩ := h p hp
  obtain ⟨e, he⟩ := h' p' hp'
  exact ⟨e, Step.run_append_ok_error hrun he⟩

theorem run_onEvent_error {s : Stack} {e : Fault} {events : List (ParserEvent Scalar)}
    {t : BitVec 16} {payload : Bytes} {v : Scalar}
    (hevents : Parser.deliveries events = [(t, payload, v)])
    (hexec : exec b env s (.scalar v) = .error e) :
    (onEvent b env).run s events = .error e := by
  induction events with
  | nil => simp [Parser.deliveries] at hevents
  | cons event events ih =>
    cases event with
    | reserve field n =>
      have hstep : onEvent b env s (.reserve field n) = .ok (s, []) := rfl
      rw [Step.run_cons_of_ok hstep, ih hevents]
    | deliver t' payload' v' =>
      simp only [Parser.deliveries, List.cons.injEq, Prod.mk.injEq] at hevents
      obtain ⟨⟨rfl, rfl, rfl⟩, -⟩ := hevents
      exact Step.run_cons_of_error hexec

theorem fails_op {code : BitVec 16} {s : Stack} {e : Fault}
    (h : execOp b env code s = .error e) :
    Fails b env ip ((Scalar.op code).write ip).bytes s := by
  intro p hp
  have hdecode := deserialize_payload b ip (v := .op code) trivial
  have hlen : ((Scalar.op code).payload ip).length ≤ maxSize :=
    (Scalar.length_payload ip _).trans_le (Scalar.announced_le_maxSize ip trivial)
  obtain ⟨p', events, hrun, -, hevents⟩ := Parser.run_frame b
    (fun type buffer => deserialize b ip buffer type) hp hlen hdecode
  rw [Scalar.length_payload] at hrun
  exact ⟨e, Step.run_pipe_of_error hrun (run_onEvent_error hevents h)⟩

/-- An attribute map without entries asks for an object below its count. -/
theorem makeAttrMap_alone {s : Stack} (hb : b.enabled attrMapText = true) (hs : s.items = []) :
    (s.push (.size 0)).makeAttrMap b = .error (.assertion attrMapText) := by
  have hcheck : b.check attrMapText (1 < (s.push (.size 0)).items.length) =
      .error (.assertion attrMapText) := by
    simp [Build.check, hb, hs]
  rw [Stack.makeAttrMap, Stack.makeMap, Stack.takeCount, ← attrMapText, hcheck]
  rfl

/-- A tree that starts with such a map is refused on an empty stack. -/
theorem fails_obj (o : Obj) (s : Stack) (hb : b.enabled attrMapText = true) (hs : s.items = [])
    (h : startsWithEmptyAttrMap o = true) : Fails b env ip (serializeBinary ip o).bytes s := by
  match o with
  | .scalar v => simp [startsWithEmptyAttrMap] at h
  | .pair key value => exact ((fails_obj value s hb hs h).append _).append _
  | .map kind [] =>
    obtain rfl : kind = .index := by simpa [startsWithEmptyAttrMap] using h
    have hbytes : (serializeBinary ip (.map .index [])).bytes =
        ((Scalar.uint64 0).write ip).bytes ++ ((Scalar.op Op.makeAttrMap).write ip).bytes := rfl
    have hcount : Delivers b env ip ((Scalar.uint64 0).write ip).bytes s (s.push (.size 0)) :=
      delivers_leaf trivial (deserialize_payload b ip (v := .uint64 0) trivial) rfl
    have hmake : execOp b env Op.makeAttrMap (s.push (.size 0)) =
        .error (.assertion attrMapText) := congrArg silent (makeAttrMap_alone hb hs)
    rw [hbytes]
    exact hcount.fails (fails_op hmake)
  | .map _ ((_, value) :: _) =>
    exact ((((fails_obj value s hb hs h).append _).append _).append _).append _
  | .seq _ [] => simp [startsWithEmptyAttrMap] at h
  | .seq _ (item :: _) => exact ((fails_obj item s hb hs h).append _).append _
  | .prg program => simp [startsWithEmptyAttrMap] at h

end Refusal

end Vm

end Cyng
