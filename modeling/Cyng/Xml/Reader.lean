import Cyng.Xml.Serializer

/-!
# The XML reader

`read_root` looks at the type of a node: a vector or a tuple is made from the children of the node,
anything else goes to `read`. `read` looks at the name of a node first, and knows elements, vectors
and parameters. Scalars are made from their text by the name of their type.
-/

namespace Cyng

open Theory

namespace Xml

/-- `is_set` -/
def isSet (type : Bytes) : Bool :=
  type = lit "tpl" || type = lit "vec" || type = lit "set" || type = lit "amap" ||
    type = lit "attr" || type = lit "pmap" || type = lit "param"

/-- The type that a node names; a text names none. -/
def Node.typeText : Node → Bytes
  | .pcdata _ => []
  | .element _ attributes _ => attributeOf attributes (lit "type")

/-- The text in a node. -/
def Node.valueText : Node → Bytes
  | .pcdata _ => []
  | .element _ _ children => childValue children

section Read

variable (b : Build) (t : Texts)

/-- The cases of unsigned integers: the text is an `unsigned long`, and cut off. -/
def produceUnsigned (ty : IntType) (value : Bytes) : Except Fault Scalar := do
  let v ← stoul 10 value
  return .int ty (v.setWidth (8 * ty.size))

/-- The cases of integers of at most 32 bits with a sign: the text is an `int`, and cut off. -/
def produceSigned (ty : IntType) (value : Bytes) : Except Fault Scalar := do
  let v ← stoi 10 value
  return .int ty (v.setWidth (8 * ty.size))

/-- The cases of `produce_object`. -/
def produceScalar (type value : Bytes) : Except Fault Scalar :=
  if type = lit "null" then .ok .null
  else if type = lit "bool" then .ok (.bool (value = lit "true"))
  else if type = lit "char" then .ok (.string value)
  else if type = lit "f" then t.read .float value
  else if type = lit "d" then t.read .double value
  else if type = lit "ld" then t.read .float80 value
  else if type = lit "s" then .ok (.string value)
  else if type = lit "u8" then produceUnsigned .uint8 value
  else if type = lit "u16" then produceUnsigned .uint16 value
  else if type = lit "u32" then produceUnsigned .uint32 value
  -- 64 bits are read, and 32 of them are kept
  else if type = lit "u64" then do
    let v ← stoull 10 value
    return .int .uint32 (v.setWidth 32)
  else if type = lit "i8" then produceSigned .int8 value
  else if type = lit "i16" then produceSigned .int16 value
  else if type = lit "i32" then produceSigned .int32 value
  else if type = lit "i64" then do
    let v ← stoll 10 value
    return .int .int64 v
  else if type = lit "chrono:tp" then t.read .timePoint value
  else if type = lit "v" then do
    let full ← toVersion value
    return .version full
  else if type = lit "rev" then do
    let full ← toRevision value
    return .revision full
  else if type = lit "log:severity" then t.read .severity value
  else if type = lit "binary" then .ok (.string (lit "ToDo"))
  else if type = lit "mac48" then do
    let address ← toMac48 b value
    return .mac48 address
  else if type = lit "mac64" then do
    let address ← toMac64 b value
    return .mac64 address
  else if type = lit "uuid" then do
    let tag ← t.stringGenerator value
    return .uuid tag
  else if type = lit "fs:path" then .ok (.fsPath value)
  else if type = lit "ip:address" then t.read .ipAddress value
  else if type = lit "eod" then .ok .eod
  else .ok .null

/-- `produce_object` -/
def produceObject (type value : Bytes) : Except Fault Obj := do
  let v ← produceScalar b t type value
  return .scalar v

/-- `pair_factory(std::string const&, object)` -/
def pairFactory (name : Bytes) (value : Obj) : Except Fault Obj := do
  b.check "parameter without a name" (name ≠ [])
  return .param name value

mutual

/-- `read`. For a parameter of a type that is neither a vector nor a tuple, but one that `is_set`
knows, `read` and `read_root` call each other without end. -/
def read : Node → Except Fault Obj
  | .pcdata _ => .ok (.scalar .null)
  | .element name attributes children =>
    let type := attributeOf attributes (lit "type")
    if name = lit "element" then
      if type = lit "tpl" then do
        let items ← readItems children
        return .tuple items
      else .ok (.scalar .null)
    else if name = lit "vec" then do
      let items ← readItems children
      return .vector items
    else if name = lit "tpl" then .ok (.scalar .null)
    else if name = lit "param" then
      if isSet type then
        if type = lit "vec" then do
          let items ← readRootItems children
          pairFactory b (attributeOf attributes (lit "name")) (.vector items)
        else if type = lit "tpl" then do
          let items ← readRootItems children
          pairFactory b (attributeOf attributes (lit "name")) (.tuple items)
        else .error (.undefined "read and read_root call each other")
      else do
        let value ← produceObject b t type (childValue children)
        pairFactory b (attributeOf attributes (lit "name")) value
    else .ok (.scalar .null)

/-- The loops of `read`. -/
def readItems : List Node → Except Fault (List Obj)
  | [] => .ok []
  | node :: nodes => do
    let item ← read node
    let items ← readItems nodes
    return item :: items

/-- The loops of `read_root`. -/
def readRootItems : List Node → Except Fault (List Obj)
  | [] => .ok []
  | node :: nodes => do
    let item ← (if isSet node.typeText then read node
      else produceObject b t node.typeText node.valueText)
    let items ← readRootItems nodes
    return item :: items

end

/-- `read_root` -/
def readRoot : Node → Except Fault Obj
  | .pcdata value => read b t (.pcdata value)
  | .element name attributes children =>
    let type := attributeOf attributes (lit "type")
    if type = lit "vec" then do
      let items ← readRootItems b t children
      return .vector items
    else if type = lit "tpl" then do
      let items ← readRootItems b t children
      return .tuple items
    else read b t (.element name attributes children)

end Read

end Xml

end Cyng
