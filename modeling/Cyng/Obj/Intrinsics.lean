import Cyng.Build
import Cyng.Obj.TypeCode

/-!
# Intrinsic values

The leaf types of the type system. Every value that is an array of bytes in the
source is one of a fixed number of octets here, and every machine integer is a bit
vector of the width of its type, signed or not.
-/

namespace Cyng

/-- `std::array<std::uint8_t, n>`. -/
abbrev Octets (n : ℕ) := { bytes : Bytes // bytes.length = n }

/-- The array of zeros. -/
def Octets.zero (n : ℕ) : Octets n :=
  ⟨List.replicate n 0, List.length_replicate⟩

/-- The first octets of a buffer, or the array of zeros where the buffer is shorter. -/
def Octets.ofBuffer (n : ℕ) (buffer : Bytes) : Octets n :=
  if h : n ≤ buffer.length then ⟨buffer.take n, by simp [h]⟩ else Octets.zero n

@[simp] theorem Octets.ofBuffer_val {n : ℕ} (o : Octets n) : Octets.ofBuffer n o.val = o := by
  have h : o.val.take n = o.val := List.take_of_length_le o.property.le
  simp [Octets.ofBuffer, o.property, h]

/-- `cyng::mac64`: four 16 bit words. -/
@[ext]
structure Mac64 where
  word1 : BitVec 16
  word2 : BitVec 16
  word3 : BitVec 16
  word4 : BitVec 16
deriving DecidableEq, Repr

/-- `cyng::color<T>`: four channels. -/
structure Color (w : ℕ) where
  red : BitVec w
  green : BitVec w
  blue : BitVec w
  opacity : BitVec w
deriving DecidableEq, Repr

/-- `cyng::obis`: six value groups. -/
abbrev Obis := Octets 6

/-- `boost::system::error_code`: a value and the category it belongs to, by name. -/
structure ErrorCode where
  value : BitVec 32
  category : Bytes
deriving DecidableEq, Repr

namespace ErrorCode

/-- `generic_category().name()`. -/
def generic : Bytes := [0x67, 0x65, 0x6e, 0x65, 0x72, 0x69, 0x63]

/-- `system_category().name()`. -/
def system : Bytes := [0x73, 0x79, 0x73, 0x74, 0x65, 0x6d]

/-- The default error code: no error of the system category. -/
def success : ErrorCode := ⟨0, system⟩

end ErrorCode

/-! ### Op codes

`enum class op`: the codes that the virtual machine executes. Any other 16 bit value is
an op code as well, one the machine does not know.
-/

namespace Op

def esba : BitVec 16 := 0xF9
def reba : BitVec 16 := 0xFA
def pull : BitVec 16 := 0xFB
def frm : BitVec 16 := 0xFC
def invoke : BitVec 16 := 0x100
def invokeR : BitVec 16 := 0x101
def forward : BitVec 16 := 0x102
def resolve : BitVec 16 := 0x103
def ident : BitVec 16 := 0x104
def now : BitVec 16 := 0x105
def pid : BitVec 16 := 0x106
def tid : BitVec 16 := 0x107
def makeAttr : BitVec 16 := 0x108
def makeParam : BitVec 16 := 0x109
def makeProp : BitVec 16 := 0x10A
def makeAttrMap : BitVec 16 := 0x10B
def makeParamMap : BitVec 16 := 0x10C
def makePropMap : BitVec 16 := 0x10D
def makeTuple : BitVec 16 := 0x10E
def makeVector : BitVec 16 := 0x10F
def makeDeque : BitVec 16 := 0x110
def makePrg : BitVec 16 := 0x111
def split : BitVec 16 := 0x112
def tidy : BitVec 16 := 0x116
def assertType : BitVec 16 := 0x117
def assertValue : BitVec 16 := 0x118
def halt : BitVec 16 := 0xFFFD
def noop : BitVec 16 := 0xFFFE

end Op

/-- `boost::asio::ip::address`. -/
inductive Address
  | v4 (bytes : Octets 4)
  | v6 (bytes : Octets 16) (scope : BitVec 32)
deriving DecidableEq

/-- The textual form of IP addresses, `to_string` and `make_address` of the address
library: reading gives back the printed address, and a printed address is short. -/
structure IpText where
  toString : Address → Bytes
  makeAddress : Bytes → Except Fault Address
  makeAddress_toString : ∀ a, makeAddress (toString a) = .ok a
  length_toString : ∀ a, (toString a).length ≤ 64

/-- A text form that tags the bytes of an address, for runs that print no address. -/
def IpText.tagged : IpText where
  toString
    | .v4 bytes => 4 :: bytes.val
    | .v6 bytes scope => 6 :: (Theory.toBE 4 scope.toNat ++ bytes.val)
  makeAddress
    | 4 :: text =>
      if h : text.length = 4 then .ok (.v4 ⟨text, h⟩) else .error (.exception "make_address")
    | 6 :: text =>
      if h : (text.drop 4).length = 16 then
        .ok (.v6 ⟨text.drop 4, h⟩ (BitVec.ofNat 32 (Theory.ofBE (text.take 4))))
      else .error (.exception "make_address")
    | _ => .error (.exception "make_address")
  makeAddress_toString
    | .v4 bytes => by simp [bytes.property]
    | .v6 bytes scope => by
      have hscope := Theory.ofNat_ofBE_toBE (n := 4) scope
      have htake : (Theory.toBE 4 scope.toNat ++ bytes.val).take 4 = Theory.toBE 4 scope.toNat :=
        List.take_left' (Theory.length_toBE 4 _)
      have hdrop : (Theory.toBE 4 scope.toNat ++ bytes.val).drop 4 = bytes.val :=
        List.drop_left' (Theory.length_toBE 4 _)
      simp only [hdrop, bytes.property, htake]
      exact congrArg (fun x => Except.ok (Address.v6 bytes x)) hscope
  length_toString
    | .v4 bytes => by simp [bytes.property]
    | .v6 bytes scope => by simp [bytes.property]

/-- A value of one of the directly serialised types. -/
inductive Scalar
  | null
  | eod
  | bool (v : Bool)
  | char (v : BitVec 8)
  | float (ty : FloatType) (bits : BitVec (8 * ty.size))
  | int (ty : IntType) (v : BitVec (8 * ty.size))
  | string (str : Bytes)
  | fsPath (path : Bytes)
  | timePoint (ticks : BitVec 64)
  | duration (unit : DurationUnit) (ticks : BitVec 64)
  | buffer (buf : Bytes)
  | version (full : BitVec 32)
  | revision (full : BitVec 64)
  | op (code : BitVec 16)
  | severity (level : BitVec 8)
  | mac48 (address : Octets 6)
  | mac64 (address : Mac64)
  | pid (id : BitVec 32)
  | obis (code : Obis)
  | obisPath (path : List Obis)
  | edis (code : Octets 3)
  | color8 (color : Color 8)
  | color16 (color : Color 16)
  | digest (ty : DigestType) (digest : Octets ty.size)
  | aesKey (ty : AesType) (key : Octets ty.bytes)
  | raw (literal : Bytes) (code : BitVec 16)
  | errorCode (ec : ErrorCode)
  | uuid (tag : Octets 16)
  | ipAddress (address : Address)
  | endpoint (protocol : Protocol) (address : Address) (port : BitVec 16)
deriving DecidableEq

namespace Scalar

/-- `object::tag()` of a leaf. -/
def typeCode : Scalar → TypeCode
  | null => .null
  | eod => .eod
  | bool _ => .bool
  | char _ => .char
  | float ty _ => ty.typeCode
  | int ty _ => ty.typeCode
  | string _ => .string
  | fsPath _ => .fsPath
  | timePoint _ => .timePoint
  | duration unit _ => unit.typeCode
  | buffer _ => .buffer
  | version _ => .version
  | revision _ => .revision
  | op _ => .op
  | severity _ => .severity
  | mac48 _ => .mac48
  | mac64 _ => .mac64
  | pid _ => .pid
  | obis _ => .obis
  | obisPath _ => .obisPath
  | edis _ => .edis
  | color8 _ => .color8
  | color16 _ => .color16
  | digest ty _ => ty.typeCode
  | aesKey ty _ => ty.typeCode
  | raw _ _ => .raw
  | errorCode _ => .ec
  | uuid _ => .uuid
  | ipAddress _ => .ipAddress
  | endpoint protocol _ _ => protocol.typeCode

/-- `std::uint64_t`, which is `std::size_t` as well. -/
abbrev uint64 (v : BitVec 64) : Scalar := int .uint64 v

end Scalar

end Cyng
