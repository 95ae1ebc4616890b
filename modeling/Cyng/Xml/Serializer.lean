import Cyng.Db.Restore

/-!
# The XML serializer

Objects as XML. A scalar is a text with the name of its type as an attribute. The children of a
vector or a tuple are nodes for the items, and a parameter is a node with a name in place of its
value. What kind of node an item becomes depends on where it stands: a container in a vector is an
`element`, a container in a tuple gets the name of the tuple, and everything else is a `value`.
-/

namespace Cyng

open Theory

/-- `traits::names` -/
def TypeCode.intrinsicName : TypeCode → String
  | null => "null"
  | bool => "bool"
  | char => "char"
  | float => "f"
  | double => "d"
  | float80 => "ld"
  | uint8 => "u8"
  | uint16 => "u16"
  | uint32 => "u32"
  | uint64 => "u64"
  | int8 => "i8"
  | int16 => "i16"
  | int32 => "i32"
  | int64 => "i64"
  | string => "s"
  | fsPath => "fs:path"
  | timePoint => "chrono:tp"
  | nanoSecond => "chrono:ns"
  | microSecond => "chrono:us"
  | milliSecond => "chrono:ms"
  | second => "chrono:sec"
  | minute => "chrono:min"
  | hour => "chrono:h"
  | buffer => "binary"
  | version => "v"
  | revision => "r"
  | op => "op"
  | severity => "severity"
  | mac48 => "mac48"
  | mac64 => "mac64"
  | pid => "pid"
  | obis => "obis"
  | obisPath => "obis:path"
  | edis => "edis"
  | color8 => "color:8"
  | color16 => "color:16"
  | digestMd5 => "crypto:MD5"
  | digestSha1 => "crypto:SHA1"
  | digestSha256 => "crypto:SHA256"
  | digestSha512 => "crypto:SHA512"
  | aes128 => "crypto::AES128"
  | aes192 => "crypto::AES192"
  | aes256 => "crypto::AES256"
  | object => "obj"
  | raw => "raw"
  | tuple => "tpl"
  | vector => "vec"
  | deque => "deque"
  | attrMap => "amap"
  | attr => "attr"
  | paramMap => "pmap"
  | param => "param"
  | propMap => "omap"
  | prop => "prop"
  | prg => "prg"
  | ec => "ec"
  | uuid => "uuid"
  | ipAddress => "ip:address"
  | ipTcpEndpoint => "ip:tcp:ep"
  | ipUdpEndpoint => "ip:udp:ep"
  | ipIcmpEndpoint => "ip:icmp:ep"
  | eod => "eod"

namespace Xml

/-- A string literal. -/
def lit (s : String) : Bytes := utf8 s.toList

/-- `c_str()` -/
def cString (str : Bytes) : Bytes := str.takeWhile (· ≠ 0)

/-- `pugi::xml_node`, with names, attributes and texts as they were set. -/
inductive Node
  | pcdata (value : Bytes)
  | element (name : Bytes) (attributes : List (Bytes × Bytes)) (children : List Node)

/-- `attribute(name).as_string()`: the first one of that name. -/
def attributeOf (attributes : List (Bytes × Bytes)) (name : Bytes) : Bytes :=
  (attributes.lookup name).getD []

/-- `child_value()`: the first text. -/
def childValue : List Node → Bytes
  | [] => []
  | .pcdata value :: _ => value
  | .element .. :: nodes => childValue nodes

/-- What is appended to a node. -/
structure Content where
  attributes : List (Bytes × Bytes)
  children : List Node

/-- A new node with attributes of its own. -/
def Content.inside (content : Content) (name : Bytes) (attributes : List (Bytes × Bytes)) : Node :=
  .element name (attributes ++ content.attributes) content.children

/-- A text and its type. -/
def typed (code : TypeCode) (value : Bytes) : Content :=
  ⟨[(lit "type", lit code.intrinsicName)], [.pcdata value]⟩

/-- What this library leaves to others: UUIDs are read back from their usual text, and floating
point numbers, times, paths and addresses are written and read by functions not looked at. -/
structure Texts where
  stringGenerator : Bytes → Except Fault Uuid
  stringGenerator_uuidToPlain : ∀ tag, stringGenerator (uuidToPlain tag) = .ok tag
  write : Scalar → Bytes
  read : TypeCode → Bytes → Except Fault Scalar

/-- `std::to_string`, for the integer types. -/
def intText (ty : IntType) (v : BitVec (8 * ty.size)) : Bytes :=
  match ty with
  | .uint8 | .uint16 | .uint32 | .uint64 => numeral 10 v.toNat
  | .int8 | .int16 | .int32 | .int64 => signedNumeral 10 v.toInt

/-- `operator<<(std::ostream&, pid const&)` -/
def pidToString (id : BitVec 32) : Bytes :=
  List.replicate (6 - (numeral 10 id.toNat).length) 0x30 ++ numeral 10 id.toNat

/-- A node with a number. -/
def channel {w : ℕ} (name : String) (value : BitVec w) : Node :=
  .element (lit name) [] [.pcdata (numeral 10 value.toNat)]

/-- `serializer<color<T>, XML>::write`: the opacity is the green channel. -/
def colorContent {w : ℕ} (code : TypeCode) (color : Color w) : Content where
  attributes := [(lit "type", lit code.intrinsicName)]
  children :=
    [channel "red" color.red, channel "green" color.green, channel "blue" color.blue,
      channel "opacity" color.green]

section Write

variable (b : Build) (t : Texts)

/-- The default case of `serialize<XML>::write`. -/
def unknown : Except Fault Content := do
  b.check "unknown data type to serialize" False
  return ⟨[], []⟩

/-- `serialize<XML>::write`, for scalars. -/
def writeScalar (v : Scalar) : Except Fault Content :=
  match v with
  | .null => .ok ⟨[(lit "xsi:nil", [])], []⟩
  | .eod => .ok ⟨[(lit "type", lit TypeCode.eod.intrinsicName)], []⟩
  | .bool v => .ok (typed .bool (lit (if v then "true" else "false")))
  -- characters are written as small integers
  | .char v => .ok (typed .int8 (signedNumeral 10 v.toInt))
  | .float .float _ => .ok (typed .float (t.write v))
  | .float .double _ => .ok (typed .double (t.write v))
  | .int ty v => .ok (typed ty.typeCode (intText ty v))
  | .string str => .ok (typed .string (cString str))
  | .fsPath _ => .ok (typed .fsPath (t.write v))
  | .timePoint _ => .ok (typed .timePoint (t.write v))
  | .duration unit ticks => .ok (typed unit.typeCode (signedNumeral 10 ticks.toInt))
  | .buffer buf => .ok (typed .buffer (bufferToString buf))
  | .version full => .ok (typed .version (versionToString full))
  | .revision full => .ok (typed .revision (revisionToString full))
  | .mac48 address => .ok (typed .mac48 (mac48ToString address))
  | .mac64 address => .ok (typed .mac64 (mac64ToString address))
  | .pid id => .ok (typed .pid (pidToString id))
  | .obis code => .ok (typed .obis (obisToString code))
  | .obisPath path => .ok (typed .obisPath (obisPathToString path))
  | .edis code => .ok (typed .edis (edisToString code))
  | .color8 color => .ok (colorContent .color8 color)
  | .color16 color => .ok (colorContent .color16 color)
  | .digest .sha1 digest => .ok (typed .digestSha1 (hexBytes digest.val))
  | .digest .sha256 digest => .ok (typed .digestSha256 (hexBytes digest.val))
  | .digest .sha512 digest => .ok (typed .digestSha512 (hexBytes digest.val))
  | .aesKey ty key => .ok (typed ty.typeCode (hexBytes key.val))
  | .uuid tag => .ok (typed .uuid (uuidToPlain tag))
  | .ipAddress _ => .ok (typed .ipAddress (t.write v))
  | .endpoint protocol address port =>
    .ok ⟨[(lit "type", lit protocol.typeCode.intrinsicName)],
      [.element (lit "address") [] [.pcdata (t.write (.ipAddress address))],
        channel "port" port]⟩
  | .float .float80 _ | .op _ | .severity _ | .digest .md5 _ | .raw .. | .errorCode _ => unknown b

/-- The types that are put into a node of their own. -/
def isNested : TypeCode → Bool
  | .tuple | .vector | .deque | .attrMap | .paramMap => true
  | _ => false

/-- The `switch` over an item of a vector or a tuple. A parameter brings its own node. -/
def place (name : Bytes) (attributes : List (Bytes × Bytes)) (code : TypeCode)
    (content : Content) : List Node :=
  if isNested code then [content.inside name attributes]
  else if code = .param then content.children
  else [content.inside (lit "value") []]

/-- The attributes of a container. -/
def sizedAttributes (code : TypeCode) (size : ℕ) : List (Bytes × Bytes) :=
  [(lit "type", lit code.intrinsicName), (lit "size", numeral 10 size)]

/-- The node of a container in a vector, by its index. -/
def elementHead (index : ℕ) : Bytes × List (Bytes × Bytes) :=
  (lit "element", [(lit "index", numeral 10 index)])

/-- The node of a container in a tuple, which is named after the address of the tuple. -/
def tupleHead (address : ℕ) (_ : ℕ) : Bytes × List (Bytes × Bytes) :=
  (lit TypeCode.tuple.intrinsicName ++ 0x5F :: numeral 16 address, [])

/-- The hashes of the addresses at which the tuples lie; a tuple is found by the indices that lead
to it, the last one first. -/
abbrev Addresses := List ℕ → ℕ

variable (addresses : Addresses)

mutual

/-- `serialize<XML>::write` -/
def write (path : List ℕ) : Obj → Except Fault Content
  | .scalar v => writeScalar b t v
  | .pair (.name n) value => do
    let content ← write (0 :: path) value
    return ⟨[], [content.inside (lit TypeCode.param.intrinsicName) [(lit "name", cString n)]]⟩
  | .pair (.index i) value => do
    let content ← write (0 :: path) value
    return ⟨[], [content.inside (numeral 10 i.toNat)
      [(lit "type", lit TypeCode.attr.intrinsicName)]]⟩
  | .map .name entries | .map .index entries => do
    let children ← writeEntries path 0 entries
    return ⟨[], children⟩
  | .seq .vector items => do
    let children ← writeItems elementHead path 0 items
    return ⟨sizedAttributes .vector items.length, children⟩
  | .seq .tuple items => do
    let children ← writeItems (tupleHead (addresses path)) path 0 items
    return ⟨sizedAttributes .tuple items.length, children⟩
  | .seq .deque _ => .ok ⟨[], []⟩
  | .pair (.code _) _ | .map .code _ | .prg _ => unknown b

/-- The loop over the items of a vector or a tuple. -/
def writeItems (head : ℕ → Bytes × List (Bytes × Bytes)) (path : List ℕ) (index : ℕ) :
    List Obj → Except Fault (List Node)
  | [] => .ok []
  | item :: items => do
    let content ← write (index :: path) item
    let nodes ← writeItems head path (index + 1) items
    return place (head index).1 (head index).2 item.typeCode content ++ nodes

/-- The loop over the entries of a map: each is written as a pair. -/
def writeEntries (path : List ℕ) (index : ℕ) : List (Key × Obj) → Except Fault (List Node)
  | [] => .ok []
  | (key, value) :: entries => do
    let content ← write (index :: path) value
    let nodes ← writeEntries path (index + 1) entries
    match key with
    | .name n =>
      return content.inside (lit TypeCode.param.intrinsicName) [(lit "name", cString n)] :: nodes
    | .index i =>
      return content.inside (numeral 10 i.toNat)
        [(lit "type", lit TypeCode.attr.intrinsicName)] :: nodes
    | .code _ => return nodes

end

/-- `serialize_xml`: the root of the document. -/
def serializeXml (rootName : Bytes) (o : Obj) : Except Fault Node := do
  let content ← write b t addresses [] o
  return content.inside rootName [(lit "xmlns:xsi", lit "w3.org/2001/XMLSchema-instance")]

end Write

end Xml

end Cyng
