import Cyng.Xml.Reader

/-!
# Reading back XML documents

A document is read back if the reader meets each node in the place it is made for. The writer names
a container in a tuple after the tuple, and no reader knows that name; a container in a vector is
an element, and of these `read` only knows tuples. Parameters are read by `read`, but right below
the root only those of a container get there, and in a tuple further inside nothing else does. Of
the scalars only 64 bit integers without a sign are cut off.
-/

namespace Cyng

open Theory

namespace Xml

/-- Truth values, integers, strings without a zero, addresses, UUIDs and versions. -/
def IsLeaf : Scalar → Prop
  | .bool _ | .int _ _ | .version _ | .mac48 _ | .mac64 _ | .uuid _ => True
  | .string str => 0 ∉ str
  | _ => False

mutual

/-- What the value of a parameter can be. -/
def IsValue : Obj → Prop
  | .scalar v => IsLeaf v
  | .seq .vector items | .seq .tuple items => AllItems items
  | _ => False

/-- A vector or a tuple holds values and parameters. -/
def AllItems : List Obj → Prop
  | [] => True
  | item :: items => IsItem item ∧ AllItems items

def IsItem : Obj → Prop
  | .scalar v => IsLeaf v
  | .seq .vector items | .seq .tuple items => AllItems items
  | .pair (.name _) value => IsValue value
  | _ => False

end

/-- The object of a document: a vector or a tuple. -/
def IsRoot : Obj → Prop
  | .seq .vector items | .seq .tuple items => AllItems items
  | _ => False

section Survival

variable (b : Build)

/-- The name of a parameter is a C string, and there must be one. -/
def NameSurvives (n : Bytes) : Prop :=
  0 ∉ n ∧ (b.enabled "parameter without a name" = true → n ≠ [])

/-- Of all scalars only 64 bit integers without a sign are lost. -/
def LeafSurvives (v : Scalar) : Prop := v.typeCode ≠ .uint64

mutual

/-- What `read_root` reads as it was. -/
def Survives : Obj → Prop
  | .seq .vector items => AllBelow true items
  | .seq .tuple items => AllBelow false items
  | _ => False

/-- The items of what `read_root` reads. -/
def AllBelow (inVector : Bool) : List Obj → Prop
  | [] => True
  | item :: items => SurvivesBelow inVector item ∧ AllBelow inVector items

/-- Scalars, parameters of containers, and in a vector tuples. -/
def SurvivesBelow (inVector : Bool) : Obj → Prop
  | .scalar v => LeafSurvives v
  | .seq .tuple items => inVector = true ∧ AllInside items
  | .pair (.name n) value => NameSurvives b n ∧ Survives value
  | _ => False

/-- The items of a tuple in a vector. -/
def AllInside : List Obj → Prop
  | [] => True
  | item :: items => SurvivesInside item ∧ AllInside items

/-- Nothing but parameters. -/
def SurvivesInside : Obj → Prop
  | .pair (.name n) value => NameSurvives b n ∧ SurvivesAsValue value
  | _ => False

def SurvivesAsValue : Obj → Prop
  | .scalar v => LeafSurvives v
  | .seq .vector items => AllBelow true items
  | .seq .tuple items => AllBelow false items
  | _ => False

end

end Survival

/-! ### Names and scalars -/

section Scalars

variable (b : Build) (t : Texts)

theorem cString_eq_iff {str : Bytes} : cString str = str ↔ 0 ∉ str := by
  rw [cString, List.takeWhile_eq_self_iff]
  constructor
  · intro h hmem
    simpa using h 0 hmem
  · intro h c hc
    simpa using fun hzero : c = 0 => h (hzero ▸ hc)

/-- A parameter comes out if its name and its value do. -/
theorem pairFactory_eq_ok_iff {x : Except Fault Obj} {n : Bytes} {value : Obj} :
    (do let v ← x; pairFactory b (cString n) v) = .ok (.pair (.name n) value) ↔
      NameSurvives b n ∧ x = .ok value := by
  rw [bind_eq_ok_iff]
  constructor
  · rintro ⟨v, rfl, hpair⟩
    obtain ⟨_, hcheck, hparam⟩ := bind_eq_ok_iff.mp hpair
    obtain ⟨hkey, rfl⟩ := Obj.pair.inj (Except.ok.inj hparam)
    have hname : cString n = n := Key.name.inj hkey
    rw [hname] at hcheck
    exact ⟨⟨cString_eq_iff.mp hname, Build.check_eq_ok_iff.mp hcheck⟩, rfl⟩
  · rintro ⟨⟨hzero, hempty⟩, rfl⟩
    refine ⟨value, rfl, ?_⟩
    rw [pairFactory, cString_eq_iff.mpr hzero, Build.check_eq_ok_iff.mpr hempty]
    rfl

variable {v : Scalar}

/-- The types whose names `is_set` knows. -/
def isSetCode : TypeCode → Bool
  | .tuple | .vector | .attrMap | .attr | .paramMap | .param => true
  | _ => false

theorem isSet_intrinsicName (code : TypeCode) :
    isSet (lit code.intrinsicName) = isSetCode code := by
  cases code <;> rfl

/-- No scalar is taken for a container. -/
theorem isSet_of_isLeaf (h : IsLeaf v) : isSet (lit v.typeCode.intrinsicName) = false := by
  rw [isSet_intrinsicName]
  cases v with
  | int ty v => cases ty <;> rfl
  | bool | version | mac48 | mac64 | uuid | string => rfl
  | _ => cases h

/-- A number of at most 64 bits is read, whatever its type. -/
theorem stoull_numeral_toNat (ty : IntType) (x : BitVec (8 * ty.size)) :
    stoull 10 (numeral 10 x.toNat) = .ok (BitVec.ofNat 64 x.toNat) :=
  stoull_of_scan (scan_numeral (by decide) (by decide) _) (toNat_lt_two_pow ty x)

theorem produceUnsigned_numeral (ty : IntType) (x : BitVec (8 * ty.size)) :
    produceUnsigned ty (numeral 10 x.toNat) = .ok (.int ty x) := by
  rw [produceUnsigned, stoul, stoull_numeral_toNat, ok_bind, setWidth_ofNat_toNat (bits_le ty),
    pure_eq_ok]

theorem produceSigned_signedNumeral (ty : IntType) (hle : 8 * ty.size ≤ 32)
    (x : BitVec (8 * ty.size)) :
    produceSigned ty (signedNumeral 10 x.toInt) = .ok (.int ty x) := by
  rw [produceSigned, stoi_signedNumeral, if_pos (fitsInt_of_le x hle), ok_bind,
    setWidth_ofInt_of_le hle, pure_eq_ok]

/-- Integers are read as they were, but for the widest ones without a sign: their lower half is
made an object of a type half as wide. -/
theorem produceScalar_int (ty : IntType) (x : BitVec (8 * ty.size)) :
    produceScalar b t (lit ty.typeCode.intrinsicName) (intText ty x) =
      if ty = .uint64 then .ok (.int .uint32 (BitVec.setWidth 32 x)) else .ok (.int ty x) := by
  cases ty with
  | uint8 => exact produceUnsigned_numeral .uint8 x
  | uint16 => exact produceUnsigned_numeral .uint16 x
  | uint32 => exact produceUnsigned_numeral .uint32 x
  -- the reader parses a `u64` at full width and stores it in 32 bits
  | uint64 =>
    have hself : BitVec.ofNat 64 x.toNat = x :=
      (BitVec.ofNat_toNat 64 x).trans (BitVec.setWidth_eq x)
    have hread := stoull_numeral_toNat .uint64 x
    rw [hself] at hread
    show (do let v ← stoull 10 (numeral 10 x.toNat); return Scalar.int .uint32 (v.setWidth 32)) = _
    rw [hread]
    rfl
  | int8 => exact produceSigned_signedNumeral .int8 (by decide) x
  | int16 => exact produceSigned_signedNumeral .int16 (by decide) x
  | int32 => exact produceSigned_signedNumeral .int32 (by decide) x
  | int64 =>
    have hself : BitVec.ofInt 64 x.toInt = x := BitVec.ofInt_toInt
    have hread : stoll 10 (signedNumeral 10 x.toInt) = .ok (BitVec.ofInt 64 x.toInt) :=
      stoSigned_toInt x
    rw [hself] at hread
    show (do let v ← stoll 10 (signedNumeral 10 x.toInt); return Scalar.int .int64 v) = _
    rw [hread]
    rfl

/-- A scalar is written as a text with its type, and the text is read as a scalar. -/
theorem writeScalar_of_isLeaf (h : IsLeaf v) :
    ∃ value v', writeScalar b t v = .ok (typed v.typeCode value) ∧
      produceScalar b t (lit v.typeCode.intrinsicName) value = .ok v' ∧
      (v' = v ↔ LeafSurvives v) := by
  cases v with
  | bool v =>
    have hread : produceScalar b t (lit TypeCode.bool.intrinsicName)
        (lit (if v then "true" else "false")) = .ok (.bool v) := by
      cases v <;> rfl
    exact ⟨_, .bool v, rfl, hread, iff_of_true rfl nofun⟩
  | int ty x =>
    have hint := produceScalar_int b t ty x
    by_cases hty : ty = .uint64
    · subst hty
      rw [if_pos rfl] at hint
      -- the reader has no case for this type
      exact ⟨intText .uint64 x, _, rfl, hint, iff_of_false nofun fun hcode => hcode rfl⟩
    · rw [if_neg hty] at hint
      refine ⟨intText ty x, .int ty x, rfl, hint, iff_of_true rfl fun hcode => hty ?_⟩
      cases ty with
      | uint64 => rfl
      | _ => cases hcode
  | version full =>
    refine ⟨versionToString full, .version full, rfl, ?_, iff_of_true rfl nofun⟩
    have hread : produceScalar b t (lit TypeCode.version.intrinsicName) (versionToString full) =
        (do let full ← toVersion (versionToString full); return .version full) := rfl
    rw [toVersion_versionToString] at hread
    exact hread
  | mac48 address =>
    refine ⟨mac48ToString address, .mac48 address, rfl, ?_, iff_of_true rfl nofun⟩
    have hread : produceScalar b t (lit TypeCode.mac48.intrinsicName) (mac48ToString address) =
        (do let address ← toMac48 b (mac48ToString address); return .mac48 address) := rfl
    rw [toMac48_mac48ToString] at hread
    exact hread
  | mac64 address =>
    refine ⟨mac64ToString address, .mac64 address, rfl, ?_, iff_of_true rfl nofun⟩
    have hread : produceScalar b t (lit TypeCode.mac64.intrinsicName) (mac64ToString address) =
        (do let address ← toMac64 b (mac64ToString address); return .mac64 address) := rfl
    rw [toMac64_mac64ToString] at hread
    exact hread
  | uuid tag =>
    refine ⟨uuidToPlain tag, .uuid tag, rfl, ?_, iff_of_true rfl nofun⟩
    have hread : produceScalar b t (lit TypeCode.uuid.intrinsicName) (uuidToPlain tag) =
        (do let tag ← t.stringGenerator (uuidToPlain tag); return .uuid tag) := rfl
    rw [t.stringGenerator_uuidToPlain] at hread
    exact hread
  | string str =>
    have hread : produceScalar b t (lit TypeCode.string.intrinsicName) (cString str) =
        .ok (.string (cString str)) := rfl
    rw [cString_eq_iff.mpr h] at hread
    refine ⟨cString str, .string str, rfl, ?_, iff_of_true rfl nofun⟩
    rw [cString_eq_iff.mpr h]
    exact hread
  | _ => cases h

end Scalars

/-! ### Nodes -/

section Nodes

variable (b : Build) (t : Texts)

/-- What the value of a parameter is made from. -/
def paramValue (type : Bytes) (children : List Node) : Except Fault Obj :=
  if isSet type then
    if type = lit "vec" then do
      let items ← readRootItems b t children
      return .vector items
    else if type = lit "tpl" then do
      let items ← readRootItems b t children
      return .tuple items
    else .error (.undefined "read and read_root call each other")
  else produceObject b t type (childValue children)

variable {name : Bytes} {attributes : List (Bytes × Bytes)} {children : List Node}

theorem read_param :
    read b t (.element (lit "param") attributes children) = (do
      let value ← paramValue b t (attributeOf attributes (lit "type")) children
      pairFactory b (attributeOf attributes (lit "name")) value) := by
  have helement : lit "param" ≠ lit "element" := by decide
  have hvec : lit "param" ≠ lit "vec" := by decide
  have htpl : lit "param" ≠ lit "tpl" := by decide
  rw [read, if_neg helement, if_neg hvec, if_neg htpl, if_pos rfl, paramValue]
  split_ifs with hset htype htype'
  · cases readRootItems b t children <;> rfl
  · cases readRootItems b t children <;> rfl
  · rfl
  · rfl

/-- A vector or a tuple of the document is read like the value of a parameter. -/
theorem readRoot_of_container {code : TypeCode} (hcode : code = .vector ∨ code = .tuple)
    (h : attributeOf attributes (lit "type") = lit code.intrinsicName) :
    readRoot b t (.element name attributes children) =
      paramValue b t (lit code.intrinsicName) children := by
  rw [readRoot, h]
  rcases hcode with rfl | rfl <;> rfl

/-- One round of the loops of `read_root`. -/
def readRootItem (node : Node) : Except Fault Obj :=
  if isSet node.typeText then read b t node else produceObject b t node.typeText node.valueText

variable {item : Obj} {items : List Obj} {node : Node} {nodes : List Node}

theorem bind_cons_eq_ok_iff {α ε : Type} {x : Except ε α} {xs : Except ε (List α)} {a : α}
    {as : List α} : (do let a ← x; let as ← xs; return a :: as) = .ok (a :: as) ↔
      x = .ok a ∧ xs = .ok as := by
  cases x with
  | error e => simp
  | ok a' => cases xs <;> simp

theorem readRootItems_cons_iff :
    readRootItems b t (node :: nodes) = .ok (item :: items) ↔
      readRootItem b t node = .ok item ∧ readRootItems b t nodes = .ok items :=
  bind_cons_eq_ok_iff

theorem readItems_cons_iff :
    readItems b t (node :: nodes) = .ok (item :: items) ↔
      read b t node = .ok item ∧ readItems b t nodes = .ok items :=
  bind_cons_eq_ok_iff

end Nodes

/-! ### Values and parameters -/

section Values

variable (b : Build) (t : Texts) (addresses : Addresses)

/-- How a value is written, and when it is read as it was: as the value of a parameter, and, if it
is a tuple, as an element. -/
structure WritesValue (path : List ℕ) (o : Obj) (content : Content) : Prop where
  write : write b t addresses path o = .ok content
  type : ∃ rest, content.attributes = (lit "type", lit o.typeCode.intrinsicName) :: rest
  value : paramValue b t (lit o.typeCode.intrinsicName) content.children = .ok o ↔
    SurvivesAsValue b o
  tuple : ∀ items, o = .seq .tuple items →
    (readItems b t content.children = .ok items ↔ AllInside b items)

variable {b t addresses} {path : List ℕ} {o : Obj} {content : Content}

/-- The type of a node is the type of the value in it. -/
theorem WritesValue.typeText (hw : WritesValue b t addresses path o content)
    {attributes : List (Bytes × Bytes)} (h : attributes.lookup (lit "type") = none) :
    attributeOf (attributes ++ content.attributes) (lit "type") =
      lit o.typeCode.intrinsicName := by
  obtain ⟨rest, hrest⟩ := hw.type
  rw [attributeOf, List.lookup_append, h, hrest]
  rfl

theorem produceObject_ne_pair {type value : Bytes} {key : Key} :
    produceObject b t type value ≠ .ok (.pair key o) := by
  intro h
  obtain ⟨v, -, hv⟩ := bind_eq_ok_iff.mp h
  cases hv

/-- A parameter inside of an element. -/
theorem read_param_iff {n : Bytes} (hw : WritesValue b t addresses path o content) :
    read b t (content.inside (lit "param") [(lit "name", cString n)]) = .ok (.pair (.name n) o) ↔
      NameSurvives b n ∧ SurvivesAsValue b o := by
  have htype : attributeOf ([(lit "name", cString n)] ++ content.attributes) (lit "type") =
      lit o.typeCode.intrinsicName := hw.typeText rfl
  have hname : attributeOf ([(lit "name", cString n)] ++ content.attributes) (lit "name") =
      cString n := rfl
  rw [Content.inside, read_param, htype, hname, pairFactory_eq_ok_iff, hw.value]

/-- A parameter below the root: a scalar loses its name. -/
theorem readRootItem_param_iff {n : Bytes} (hw : WritesValue b t addresses path o content)
    (ho : IsValue o) :
    readRootItem b t (content.inside (lit "param") [(lit "name", cString n)]) =
        .ok (.pair (.name n) o) ↔ NameSurvives b n ∧ Survives b o := by
  have htype : (content.inside (lit "param") [(lit "name", cString n)]).typeText =
      lit o.typeCode.intrinsicName := hw.typeText rfl
  rw [readRootItem, htype]
  match o, ho with
  | .scalar v, hv =>
    have hset : isSet (lit (Obj.scalar v).typeCode.intrinsicName) = false := isSet_of_isLeaf hv
    rw [if_neg (by simp [hset])]
    exact iff_of_false produceObject_ne_pair And.right
  | .seq .vector items, _ =>
    have hset : isSet (lit (Obj.seq .vector items).typeCode.intrinsicName) = true :=
      isSet_intrinsicName .vector
    rw [if_pos hset, read_param_iff hw]
    exact Iff.rfl
  | .seq .tuple items, _ =>
    have hset : isSet (lit (Obj.seq .tuple items).typeCode.intrinsicName) = true :=
      isSet_intrinsicName .tuple
    rw [if_pos hset, read_param_iff hw]
    exact Iff.rfl

/-- A scalar below the root. -/
theorem readRootItem_scalar_iff {v : Scalar}
    (hw : WritesValue b t addresses path (.scalar v) content) (hv : IsLeaf v) :
    readRootItem b t (content.inside (lit "value") []) = .ok (.scalar v) ↔ LeafSurvives v := by
  have htype : (content.inside (lit "value") []).typeText = lit v.typeCode.intrinsicName :=
    hw.typeText rfl
  have hset : isSet (lit v.typeCode.intrinsicName) = false := isSet_of_isLeaf hv
  have hvalue := hw.value
  simp only [paramValue, Obj.typeCode, hset] at hvalue
  rw [readRootItem, htype, hset]
  exact hvalue

/-- A node by an unknown name is null. -/
theorem read_unknown {name : Bytes} {attributes : List (Bytes × Bytes)} {children : List Node}
    (helement : name ≠ lit "element") (hvec : name ≠ lit "vec") (hparam : name ≠ lit "param") :
    read b t (.element name attributes children) = .ok (.scalar .null) := by
  rw [read, if_neg helement, if_neg hvec, if_neg hparam, ite_self]

/-- The name of a scalar says nothing to the readers of elements. -/
theorem read_value : read b t (content.inside (lit "value") []) = .ok (.scalar .null) :=
  read_unknown (by decide) (by decide) (by decide)

/-- Nor does the name of a container in a tuple. -/
theorem read_tupleHead {address index : ℕ} :
    read b t (content.inside (tupleHead address index).1 (tupleHead address index).2) =
      .ok (.scalar .null) := by
  have hhead : ∀ {s : String} {c : UInt8}, (lit s).head? = some c → c ≠ 0x74 →
      (tupleHead address index).1 ≠ lit s := by
    intro s c hs hc heq
    have hfirst : (lit s).head? = some 0x74 := heq ▸ rfl
    exact hc (Option.some.inj (hs.symm.trans hfirst))
  exact read_unknown (hhead rfl (by decide)) (hhead rfl (by decide)) (hhead rfl (by decide))

/-- Of the containers in a vector the tuples are read. -/
theorem read_elementHead {index : ℕ} (hw : WritesValue b t addresses path o content) :
    read b t (content.inside (elementHead index).1 (elementHead index).2) =
      if lit o.typeCode.intrinsicName = lit "tpl" then (do
        let items ← readItems b t content.children
        return .tuple items)
      else .ok (.scalar .null) := by
  have htype : attributeOf ((elementHead index).2 ++ content.attributes) (lit "type") =
      lit o.typeCode.intrinsicName := hw.typeText rfl
  rw [Content.inside, read, htype]
  exact if_pos rfl

/-- Everything but containers and parameters is put into a node by the name `value`. -/
theorem place_scalar {v : Scalar} (h : IsLeaf v) {name : Bytes}
    {attributes : List (Bytes × Bytes)} :
    place name attributes (Obj.scalar v).typeCode content = [content.inside (lit "value") []] := by
  cases v with
  | int ty v => cases ty <;> rfl
  | bool | version | mac48 | mac64 | uuid | string => rfl
  | _ => cases h

/-- A value in a vector below the root. -/
theorem readRootItem_element (index : ℕ) (hw : WritesValue b t addresses path o content)
    (ho : IsValue o) :
    ∃ node, place (elementHead index).1 (elementHead index).2 o.typeCode content = [node] ∧
      (readRootItem b t node = .ok o ↔ SurvivesBelow b true o) := by
  have htype : (content.inside (elementHead index).1 (elementHead index).2).typeText =
      lit o.typeCode.intrinsicName := hw.typeText rfl
  match o, ho with
  | .scalar v, hv =>
    exact ⟨content.inside (lit "value") [], place_scalar hv, readRootItem_scalar_iff hw hv⟩
  | .seq .vector items, _ =>
    refine ⟨content.inside (elementHead index).1 (elementHead index).2, rfl, ?_⟩
    have hset : isSet (lit (Obj.seq .vector items).typeCode.intrinsicName) = true :=
      isSet_intrinsicName .vector
    have hname : lit (Obj.seq .vector items).typeCode.intrinsicName ≠ lit "tpl" := by
      show lit "vec" ≠ lit "tpl"
      decide
    -- a vector below the root is read as a tuple
    rw [readRootItem, htype, if_pos hset, read_elementHead hw, if_neg hname]
    exact iff_of_false nofun id
  | .seq .tuple items, _ =>
    refine ⟨content.inside (elementHead index).1 (elementHead index).2, rfl, ?_⟩
    have hset : isSet (lit (Obj.seq .tuple items).typeCode.intrinsicName) = true :=
      isSet_intrinsicName .tuple
    have hname : lit (Obj.seq .tuple items).typeCode.intrinsicName = lit "tpl" := rfl
    rw [readRootItem, htype, if_pos hset, read_elementHead hw, if_pos hname]
    have hitems : SurvivesBelow b true (.seq .tuple items) ↔ AllInside b items :=
      and_iff_right rfl
    rw [hitems, ← hw.tuple items rfl]
    cases readItems b t content.children with
    | error fault => exact iff_of_false nofun nofun
    | ok read => simp [Obj.tuple]

/-- A value in a tuple: below the root scalars are read, and further inside nothing. -/
theorem readRootItem_tupleHead (address index : ℕ)
    (hw : WritesValue b t addresses path o content) (ho : IsValue o) :
    ∃ node, place (tupleHead address index).1 (tupleHead address index).2 o.typeCode content =
        [node] ∧
      (readRootItem b t node = .ok o ↔ SurvivesBelow b false o) ∧
      (read b t node = .ok o ↔ SurvivesInside b o) := by
  have htype : (content.inside (tupleHead address index).1 (tupleHead address index).2).typeText =
      lit o.typeCode.intrinsicName := hw.typeText rfl
  match o, ho with
  | .scalar v, hv =>
    refine ⟨content.inside (lit "value") [], place_scalar hv, readRootItem_scalar_iff hw hv, ?_⟩
    -- further inside, the name of the element decides, and a scalar has none of the names
    rw [read_value]
    refine iff_of_false (fun heq => ?_) id
    cases heq
    exact hv
  | .seq .vector items, _ =>
    refine ⟨content.inside (tupleHead address index).1 (tupleHead address index).2, rfl, ?_, ?_⟩
    · have hset : isSet (lit (Obj.seq .vector items).typeCode.intrinsicName) = true :=
        isSet_intrinsicName .vector
      rw [readRootItem, htype, if_pos hset, read_tupleHead]
      exact iff_of_false nofun id
    · rw [read_tupleHead]
      exact iff_of_false nofun id
  | .seq .tuple items, _ =>
    refine ⟨content.inside (tupleHead address index).1 (tupleHead address index).2, rfl, ?_, ?_⟩
    · have hset : isSet (lit (Obj.seq .tuple items).typeCode.intrinsicName) = true :=
        isSet_intrinsicName .tuple
      rw [readRootItem, htype, if_pos hset, read_tupleHead]
      refine iff_of_false nofun fun hfalse => ?_
      cases hfalse.1
    · rw [read_tupleHead]
      exact iff_of_false nofun id

end Values

/-! ### Whole documents -/

section Documents

variable (b : Build) (t : Texts) (addresses : Addresses)

section Steps

variable {b t addresses} {path : List ℕ} {index : ℕ} {item value : Obj} {items : List Obj}
  {content : Content} {node : Node} {nodes : List Node} {n : Bytes}
  {head : ℕ → Bytes × List (Bytes × Bytes)}

/-- One round of the loop that writes items. -/
theorem writeItems_cons (hitem : write b t addresses (index :: path) item = .ok content)
    (hplace : place (head index).1 (head index).2 item.typeCode content = [node])
    (hitems : writeItems b t addresses head path (index + 1) items = .ok nodes) :
    writeItems b t addresses head path index (item :: items) = .ok (node :: nodes) := by
  rw [writeItems, hitem, ok_bind, hitems, ok_bind, hplace]
  rfl

/-- A parameter is the node of its value with a name. -/
theorem write_param (hw : WritesValue b t addresses (0 :: path) value content) :
    write b t addresses path (.pair (.name n) value) =
      .ok ⟨[], [content.inside (lit "param") [(lit "name", cString n)]]⟩ := by
  rw [write, hw.write]
  rfl

/-- A scalar is the value of a parameter if it survives. -/
theorem writesValue_scalar {v : Scalar} (hv : IsLeaf v) :
    ∃ content, WritesValue b t addresses path (.scalar v) content := by
  obtain ⟨text, v', hwrite, hread, hiff⟩ := writeScalar_of_isLeaf b t hv
  have hset : isSet (lit (Obj.scalar v).typeCode.intrinsicName) = false := isSet_of_isLeaf hv
  have hvalue : paramValue b t (lit (Obj.scalar v).typeCode.intrinsicName)
      (typed v.typeCode text).children = .ok (.scalar v') := by
    rw [paramValue, hset]
    show (do let v ← produceScalar b t (lit v.typeCode.intrinsicName) text; return Obj.scalar v) = _
    rw [hread]
    rfl
  refine ⟨typed v.typeCode text, ⟨hwrite, ⟨[], rfl⟩, ?_, ?_⟩⟩
  · rw [hvalue]
    constructor
    · intro heq
      exact hiff.mp (Obj.scalar.inj (Except.ok.inj heq))
    · intro h
      rw [hiff.mpr h]
  · intro items heq
    cases heq

section Containers

variable (b t addresses)

/-- How the items of a vector are written, and when they are read as they were. -/
structure WritesElements (path : List ℕ) (index : ℕ) (items : List Obj) (nodes : List Node) :
    Prop where
  write : writeItems b t addresses elementHead path index items = .ok nodes
  root : readRootItems b t nodes = .ok items ↔ AllBelow b true items

/-- The same for the items of a tuple, which are read in two ways. -/
structure WritesTuple (address : ℕ) (path : List ℕ) (index : ℕ) (items : List Obj)
    (nodes : List Node) : Prop where
  write : writeItems b t addresses (tupleHead address) path index items = .ok nodes
  root : readRootItems b t nodes = .ok items ↔ AllBelow b false items
  inside : readItems b t nodes = .ok items ↔ AllInside b items

end Containers

variable {address : ℕ}

/-- One more value in a vector. -/
theorem WritesElements.cons (hw : WritesValue b t addresses (index :: path) item content)
    (hitem : IsValue item) (hs : WritesElements b t addresses path (index + 1) items nodes) :
    ∃ nodes', WritesElements b t addresses path index (item :: items) nodes' := by
  obtain ⟨node, hplace, hread⟩ := readRootItem_element index hw hitem
  refine ⟨node :: nodes, writeItems_cons hw.write hplace hs.write, ?_⟩
  rw [readRootItems_cons_iff, hread, hs.root]
  exact Iff.rfl

/-- One more parameter in a vector. -/
theorem WritesElements.cons_param
    (hw : WritesValue b t addresses (0 :: index :: path) value content) (hvalue : IsValue value)
    (hs : WritesElements b t addresses path (index + 1) items nodes) :
    ∃ nodes', WritesElements b t addresses path index (.pair (.name n) value :: items) nodes' := by
  refine ⟨_, writeItems_cons (write_param hw) rfl hs.write, ?_⟩
  rw [readRootItems_cons_iff, readRootItem_param_iff hw hvalue, hs.root]
  exact Iff.rfl

/-- One more value in a tuple. -/
theorem WritesTuple.cons (hw : WritesValue b t addresses (index :: path) item content)
    (hitem : IsValue item) (hs : WritesTuple b t addresses address path (index + 1) items nodes) :
    ∃ nodes', WritesTuple b t addresses address path index (item :: items) nodes' := by
  obtain ⟨node, hplace, hroot, hinside⟩ :=
    readRootItem_tupleHead address index hw hitem
  refine ⟨node :: nodes, writeItems_cons hw.write hplace hs.write, ?_, ?_⟩
  · rw [readRootItems_cons_iff, hroot, hs.root]
    exact Iff.rfl
  · rw [readItems_cons_iff, hinside, hs.inside]
    exact Iff.rfl

/-- One more parameter in a tuple. -/
theorem WritesTuple.cons_param
    (hw : WritesValue b t addresses (0 :: index :: path) value content) (hvalue : IsValue value)
    (hs : WritesTuple b t addresses address path (index + 1) items nodes) :
    ∃ nodes', WritesTuple b t addresses address path index (.pair (.name n) value :: items)
      nodes' := by
  refine ⟨_, writeItems_cons (write_param hw) rfl hs.write, ?_, ?_⟩
  · rw [readRootItems_cons_iff, readRootItem_param_iff hw hvalue, hs.root]
    exact Iff.rfl
  · rw [readItems_cons_iff, read_param_iff hw, hs.inside]
    exact Iff.rfl

/-- A vector is read if its items are. -/
theorem WritesElements.vector (hs : WritesElements b t addresses path 0 items nodes) :
    ∃ content, WritesValue b t addresses path (.seq .vector items) content := by
  refine ⟨⟨sizedAttributes .vector items.length, nodes⟩, ⟨?_, ⟨_, rfl⟩, ?_, nofun⟩⟩
  · rw [Xml.write, hs.write]
    rfl
  · have hvalue : paramValue b t (lit TypeCode.vector.intrinsicName) nodes =
        (do let items ← readRootItems b t nodes; return .vector items) := rfl
    have hsurvives : SurvivesAsValue b (.seq .vector items) ↔ AllBelow b true items := Iff.rfl
    show paramValue b t (lit TypeCode.vector.intrinsicName) nodes = _ ↔ _
    rw [hvalue, hsurvives, ← hs.root]
    cases readRootItems b t nodes with
    | error fault => exact iff_of_false nofun nofun
    | ok read => simp [Obj.vector]

/-- A tuple is read if its items are. -/
theorem WritesTuple.tuple (hs : WritesTuple b t addresses (addresses path) path 0 items nodes) :
    ∃ content, WritesValue b t addresses path (.seq .tuple items) content := by
  refine ⟨⟨sizedAttributes .tuple items.length, nodes⟩, ⟨?_, ⟨_, rfl⟩, ?_, ?_⟩⟩
  · rw [Xml.write, hs.write]
    rfl
  · have hvalue : paramValue b t (lit TypeCode.tuple.intrinsicName) nodes =
        (do let items ← readRootItems b t nodes; return .tuple items) := rfl
    have hsurvives : SurvivesAsValue b (.seq .tuple items) ↔ AllBelow b false items := Iff.rfl
    show paramValue b t (lit TypeCode.tuple.intrinsicName) nodes = _ ↔ _
    rw [hvalue, hsurvives, ← hs.root]
    cases readRootItems b t nodes with
    | error fault => exact iff_of_false nofun nofun
    | ok read => simp [Obj.tuple]
  · intro items' heq
    cases heq
    exact hs.inside

end Steps

mutual

/-- All values are written, and what is read of them is known. -/
theorem exists_writesValue (o : Obj) (h : IsValue o) (path : List ℕ) :
    ∃ content, WritesValue b t addresses path o content := by
  match o, h with
  | .scalar v, hv => exact writesValue_scalar hv
  | .seq .vector items, hitems =>
    obtain ⟨nodes, hs⟩ := exists_writesElements items hitems path 0
    exact hs.vector
  | .seq .tuple items, hitems =>
    obtain ⟨nodes, hs⟩ := exists_writesTuple items hitems (addresses path) path 0
    exact hs.tuple

/-- The items of a vector, one after the other. -/
theorem exists_writesElements (items : List Obj) (h : AllItems items) (path : List ℕ)
    (index : ℕ) : ∃ nodes, WritesElements b t addresses path index items nodes := by
  match items, h with
  | [], _ => exact ⟨[], rfl, iff_of_true rfl trivial⟩
  | .pair (.name n) value :: items, ⟨hvalue, hrest⟩ =>
    obtain ⟨nodes, hs⟩ := exists_writesElements items hrest path (index + 1)
    obtain ⟨content, hw⟩ := exists_writesValue value hvalue (0 :: index :: path)
    exact hs.cons_param hw hvalue
  | .scalar v :: items, ⟨hitem, hrest⟩ =>
    obtain ⟨nodes, hs⟩ := exists_writesElements items hrest path (index + 1)
    obtain ⟨content, hw⟩ := exists_writesValue (.scalar v) hitem (index :: path)
    exact hs.cons hw hitem
  | .seq .vector inner :: items, ⟨hitem, hrest⟩ =>
    obtain ⟨nodes, hs⟩ := exists_writesElements items hrest path (index + 1)
    obtain ⟨content, hw⟩ := exists_writesValue (.seq .vector inner) hitem (index :: path)
    exact hs.cons hw hitem
  | .seq .tuple inner :: items, ⟨hitem, hrest⟩ =>
    obtain ⟨nodes, hs⟩ := exists_writesElements items hrest path (index + 1)
    obtain ⟨content, hw⟩ := exists_writesValue (.seq .tuple inner) hitem (index :: path)
    exact hs.cons hw hitem

/-- The items of a tuple, one after the other. -/
theorem exists_writesTuple (items : List Obj) (h : AllItems items) (address : ℕ)
    (path : List ℕ) (index : ℕ) :
    ∃ nodes, WritesTuple b t addresses address path index items nodes := by
  match items, h with
  | [], _ => exact ⟨[], rfl, iff_of_true rfl trivial, iff_of_true rfl trivial⟩
  | .pair (.name n) value :: items, ⟨hvalue, hrest⟩ =>
    obtain ⟨nodes, hs⟩ := exists_writesTuple items hrest address path (index + 1)
    obtain ⟨content, hw⟩ := exists_writesValue value hvalue (0 :: index :: path)
    exact hs.cons_param hw hvalue
  | .scalar v :: items, ⟨hitem, hrest⟩ =>
    obtain ⟨nodes, hs⟩ := exists_writesTuple items hrest address path (index + 1)
    obtain ⟨content, hw⟩ := exists_writesValue (.scalar v) hitem (index :: path)
    exact hs.cons hw hitem
  | .seq .vector inner :: items, ⟨hitem, hrest⟩ =>
    obtain ⟨nodes, hs⟩ := exists_writesTuple items hrest address path (index + 1)
    obtain ⟨content, hw⟩ := exists_writesValue (.seq .vector inner) hitem (index :: path)
    exact hs.cons hw hitem
  | .seq .tuple inner :: items, ⟨hitem, hrest⟩ =>
    obtain ⟨nodes, hs⟩ := exists_writesTuple items hrest address path (index + 1)
    obtain ⟨content, hw⟩ := exists_writesValue (.seq .tuple inner) hitem (index :: path)
    exact hs.cons hw hitem

end

/-- The document that is written for an object is read as the object. -/
def Restores (rootName : Bytes) (o : Obj) : Prop :=
  (do let node ← serializeXml b t addresses rootName o; readRoot b t node) = .ok o

/-- A vector or a tuple comes back from its document exactly where every node in it meets the
reader it is made for. -/
theorem restores_iff (rootName : Bytes) {o : Obj} (h : IsRoot o) :
    Restores b t addresses rootName o ↔ Survives b o := by
  have hroot : ∀ content, WritesValue b t addresses [] o content →
      (o.typeCode = .vector ∨ o.typeCode = .tuple) →
      (Restores b t addresses rootName o ↔ SurvivesAsValue b o) := by
    intro content hw hcode
    have htype : attributeOf ([(lit "xmlns:xsi", lit "w3.org/2001/XMLSchema-instance")] ++
        content.attributes) (lit "type") = lit o.typeCode.intrinsicName := hw.typeText rfl
    have hnode : serializeXml b t addresses rootName o = .ok (content.inside rootName
        [(lit "xmlns:xsi", lit "w3.org/2001/XMLSchema-instance")]) := by
      rw [serializeXml, hw.write]
      rfl
    rw [Restores, hnode, ok_bind, Content.inside, readRoot_of_container b t hcode htype, hw.value]
  match o, h with
  | .seq .vector items, hitems =>
    obtain ⟨content, hw⟩ := exists_writesValue b t addresses (.seq .vector items) hitems []
    exact hroot content hw (Or.inl rfl)
  | .seq .tuple items, hitems =>
    obtain ⟨content, hw⟩ := exists_writesValue b t addresses (.seq .tuple items) hitems []
    exact hroot content hw (Or.inr rfl)

end Documents

/-- UUIDs read by leaving out the dashes, for runs without the other texts. -/
def Texts.uuids : Texts where
  stringGenerator := Formats.uuids.stringGenerator
  stringGenerator_uuidToPlain := Formats.uuids.stringGenerator_uuidToString
  write _ := []
  read _ _ := .ok .null

/-- A vector with a tuple of parameters, as in configuration files. -/
def sampleConfig : Obj :=
  .vector [.tuple [.param [0x61] (.scalar (.version 0x00020001)), .param [0x62]
    (.vector [.scalar (.int .uint8 7)])]]

theorem restores_sampleConfig :
    IsRoot sampleConfig ∧ Restores .debug .uuids (fun _ => 0) (lit "root") sampleConfig := by
  have hroot : IsRoot sampleConfig :=
    ⟨⟨trivial, ⟨trivial, trivial⟩, trivial⟩, trivial⟩
  refine ⟨hroot, (restores_iff .debug .uuids (fun _ => 0) (lit "root") hroot).mpr ?_⟩
  have hname : ∀ c : UInt8, c ≠ 0 → NameSurvives .debug [c] := by
    intro c hc
    refine ⟨?_, fun _ => List.cons_ne_nil _ _⟩
    rw [List.mem_singleton]
    exact hc.symm
  exact ⟨⟨rfl, ⟨hname _ (by decide), nofun⟩, ⟨hname _ (by decide), ⟨nofun, trivial⟩⟩, trivial⟩,
    trivial⟩

/-- A wide integer comes back as a narrow one, and a vector in a vector as null. -/
theorem not_restores_uint64 :
    ¬Restores .debug .uuids (fun _ => 0) (lit "root") (.vector [.size 5]) ∧
      ¬Restores .debug .uuids (fun _ => 0) (lit "root") (.vector [.vector []]) := by
  constructor
  · intro h
    have hread : (do
        let node ← serializeXml .debug .uuids (fun _ => 0) (lit "root") (.vector [.size 5])
        readRoot .debug .uuids node) = .ok (.vector [.scalar (.int .uint32 5)]) := rfl
    have hsame := hread.symm.trans h
    injection hsame with hvector
    injection hvector with _ hitems
    injection hitems with hitem
    injection hitem with hscalar
    injection hscalar with htype
    cases htype
  · intro h
    have hread : (do
        let node ← serializeXml .debug .uuids (fun _ => 0) (lit "root") (.vector [.vector []])
        readRoot .debug .uuids node) = .ok (.vector [.scalar .null]) := rfl
    have hsame := hread.symm.trans h
    injection hsame with hvector
    injection hvector with _ hitems
    injection hitems with hitem
    cases hitem

end Xml

end Cyng
