import Cyng.Obj.Object
import Cyng.Theory.ByteOrder

/-!
# The binary writer

A leaf is written as type code, length and value. A container is not written at all:
its parts are, followed by an instruction that makes the virtual machine put them
together again. Every writer reports how many bytes it has written.
-/

namespace Cyng

open Theory

/-- What a writer does: the bytes it appends to the stream and the size it returns. -/
@[ext]
structure Written where
  bytes : Bytes
  size : ℕ

namespace Written

/-- Bytes that are counted as they are written. -/
def of (bytes : Bytes) : Written := ⟨bytes, bytes.length⟩

instance : Append Written := ⟨fun a b => ⟨a.bytes ++ b.bytes, a.size + b.size⟩⟩

@[simp] theorem bytes_of (bs : Bytes) : (of bs).bytes = bs := rfl
@[simp] theorem size_of (bs : Bytes) : (of bs).size = bs.length := rfl
@[simp] theorem bytes_append (a b : Written) : (a ++ b).bytes = a.bytes ++ b.bytes := rfl
@[simp] theorem size_append (a b : Written) : (a ++ b).size = a.size + b.size := rfl

end Written

/-- `to_buffer(n)`: the bytes of a number in network byte order. -/
def toBuffer (n : ℕ) (v : BitVec (8 * n)) : Bytes :=
  toBE n v.toNat

@[simp] theorem length_toBuffer (n : ℕ) (v : BitVec (8 * n)) : (toBuffer n v).length = n :=
  length_toBE n v.toNat

/-- `write_binary(os, v)`. -/
def writeBinary (n : ℕ) (v : BitVec (8 * n)) : Written :=
  .of (toBuffer n v)

/-- The memory of a 16 bit word on a little endian host, `write_binary(os, array)`. -/
def writeWord (w : BitVec 16) : Written :=
  .of (toLE 2 w.toNat)

/-- `serialize_length`. -/
def serializeLength (size : ℕ) : Written :=
  if size < 0x7e then writeBinary 1 (BitVec.ofNat 8 size)
  else if size < 0xFFFF then writeBinary 1 0x7e ++ writeBinary 2 (BitVec.ofNat 16 size)
  else writeBinary 1 0x7f ++ writeBinary 8 (BitVec.ofNat 64 size)

/-- `serialize_type_tag`. -/
def serializeTypeTag (t : TypeCode) : Written :=
  writeBinary 2 t.code

namespace Scalar

variable (ip : IpText)

/-- The length that the serializer of the type announces. -/
def announced : Scalar → ℕ
  | null | eod => 0
  | bool _ | char _ => 1
  | float ty _ => ty.size
  | int ty _ => ty.size
  | string str => str.length
  | fsPath path => path.length
  | timePoint _ => 8
  | duration _ _ => 8
  | buffer buf => buf.length
  | version _ => 4
  | revision _ => 8
  | op _ => 2
  | severity _ => 1
  | mac48 _ => 6
  | mac64 _ => 8
  | pid _ => 8
  | obis _ => 6
  | obisPath path => path.length * 6
  | edis _ => 3
  | color8 _ => 4
  | color16 _ => 8
  | digest ty _ => ty.size
  | aesKey ty _ => ty.bytes
  | raw literal _ => literal.length + 2
  | errorCode ec => 4 + ec.category.length
  | uuid _ => 16
  | ipAddress address => (ip.toString address).length
  | endpoint _ address _ => (ip.toString address).length + 2

/-- What the serializer of the type writes after the length. -/
def value : Scalar → Written
  | null | eod => .of []
  | bool v => writeBinary 1 (if v then 1 else 0)
  | char v => writeBinary 1 v
  | float ty bits => writeBinary ty.size bits
  | int ty v => writeBinary ty.size v
  | string str => .of str
  | fsPath path => .of path
  | timePoint ticks => writeBinary 8 ticks
  | duration _ ticks => writeBinary 8 ticks
  | buffer buf => .of buf
  | version full => writeBinary 4 full
  | revision full => writeBinary 8 full
  | op code => writeBinary 2 code
  | severity level => writeBinary 1 level
  | mac48 address => .of address.val
  | mac64 address => writeWord address.word1 ++ writeWord address.word2 ++
      writeWord address.word3 ++ writeWord address.word4
  | pid id => writeBinary 8 (id.signExtend 64)
  | obis code => .of code.val
  | obisPath path => .of (path.flatMap Subtype.val)
  | edis code => .of code.val
  | color8 color => writeBinary 1 color.red ++ writeBinary 1 color.green ++
      writeBinary 1 color.blue ++ writeBinary 1 color.opacity
  | color16 color => writeBinary 2 color.red ++ writeBinary 2 color.green ++
      writeBinary 2 color.blue ++ writeBinary 2 color.opacity
  | digest _ d => .of d.val
  | aesKey _ key => .of key.val
  | raw literal code => writeBinary 2 code ++ .of literal
  | errorCode ec => writeBinary 4 ec.value ++ .of ec.category
  | uuid tag => .of tag.val
  | ipAddress address => .of (ip.toString address)
  | endpoint _ address port => writeBinary 2 port ++ .of (ip.toString address)

/-- The bytes after the length field. -/
abbrev payload (v : Scalar) : Bytes := (v.value ip).bytes

/-- `serializer<T, BINARY>::write` of a leaf type. -/
def write (v : Scalar) : Written :=
  serializeTypeTag v.typeCode ++ serializeLength (v.announced ip) ++ v.value ip

@[simp] theorem length_writeWord (w : BitVec 16) : (writeWord w).bytes.length = 2 := by
  simp [writeWord]

theorem length_flatMap_octets {n : ℕ} (path : List (Octets n)) :
    (path.flatMap Subtype.val).length = path.length * n := by
  induction path with
  | nil => simp
  | cons o path ih =>
    rw [List.flatMap_cons, List.length_append, ih, o.property, List.length_cons]
    ring

/-- Every serializer announces as many bytes as it writes. -/
theorem length_payload (v : Scalar) : (v.payload ip).length = v.announced ip := by
  cases v
  case obisPath path => exact length_flatMap_octets path
  all_goals simp [payload, value, announced, writeBinary]
  case mac48 a => exact a.property
  case obis c => exact c.property
  case edis c => exact c.property
  case digest ty d => exact d.property
  case aesKey ty k => exact k.property
  case raw => omega
  case uuid t => exact t.property
  case endpoint => omega

/-- Every serializer counts the value bytes it writes. -/
theorem size_value (v : Scalar) : (v.value ip).size = (v.payload ip).length := by
  cases v <;> simp [payload, value, writeBinary, writeWord]

/-- A leaf that exists announces a length that a buffer can have. -/
theorem announced_le_maxSize {v : Scalar} (h : v.Fits) : v.announced ip ≤ maxSize := by
  cases v <;> simp only [Fits, stringMaxSize, maxSize] at h <;>
    simp only [announced, maxSize] <;> try omega
  case float ty bits => cases ty <;> simp [FloatType.size]
  case int ty v => cases ty <;> simp [IntType.size]
  case digest ty d => cases ty <;> simp [DigestType.size]
  case aesKey ty k => cases ty <;> simp [AesType.bytes]
  case ipAddress a => have := ip.length_toString a; omega
  case endpoint p a port => have := ip.length_toString a; omega

end Scalar

/-! ### Containers -/

/-- The instruction that builds a pair. -/
def KeyKind.makePair : KeyKind → BitVec 16
  | index => Op.makeAttr
  | name => Op.makeParam
  | code => Op.makeProp

/-- The instruction that builds a map. -/
def KeyKind.makeMap : KeyKind → BitVec 16
  | index => Op.makeAttrMap
  | name => Op.makeParamMap
  | code => Op.makePropMap

/-- The instruction that builds a sequence. -/
def SeqKind.make : SeqKind → BitVec 16
  | tuple => Op.makeTuple
  | vector => Op.makeVector
  | deque => Op.makeDeque

section Serialize

variable (ip : IpText)

/-- The end of every container: the element count as an object, and the instruction. -/
def writeMake (count : ℕ) (code : BitVec 16) : Written :=
  (Scalar.uint64 (BitVec.ofNat 64 count)).write ip ++ (Scalar.op code).write ip

/-- The elements of a program. -/
def writeBuffers : List Bytes → Written
  | [] => .of []
  | buf :: program => (Scalar.buffer buf).write ip ++ writeBuffers program

mutual

/-- `serialize_binary`: the serializer that the type code of the object selects. -/
def serializeBinary : Obj → Written
  | .scalar v => v.write ip
  | .pair key value =>
    serializeBinary value ++ key.toScalar.write ip ++ (Scalar.op key.kind.makePair).write ip
  | .map kind entries => writePairs entries ++ writeMake ip entries.length kind.makeMap
  | .seq kind items => writeItems items ++ writeMake ip items.length kind.make
  | .prg program => writeBuffers ip program ++ writeMake ip program.length Op.makePrg

/-- The elements of a map, each one as a pair. -/
def writePairs : List (Key × Obj) → Written
  | [] => .of []
  | (key, value) :: entries =>
    (serializeBinary value ++ key.toScalar.write ip ++
      (Scalar.op key.kind.makePair).write ip) ++ writePairs entries

/-- The elements of a tuple, a vector or a deque. -/
def writeItems : List Obj → Written
  | [] => .of []
  | item :: items => serializeBinary item ++ writeItems items

end

end Serialize

end Cyng
