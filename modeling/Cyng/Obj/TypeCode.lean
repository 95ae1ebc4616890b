import Mathlib.Data.BitVec

/-!
# Type codes

The type system of the library is a tuple of types; the position of a type in the
tuple is its type code, and the code is what travels on the wire. Families of types
that differ only in their width or their unit are listed in types of their own.
-/

namespace Cyng

/-- `enum type_code`, in the order of `traits::tag_t`. -/
inductive TypeCode
  | null | bool | char | float | double | float80
  | uint8 | uint16 | uint32 | uint64 | int8 | int16 | int32 | int64
  | string | fsPath
  | timePoint | nanoSecond | microSecond | milliSecond | second | minute | hour
  | buffer | version | revision | op | severity | mac48 | mac64 | pid
  | obis | obisPath | edis | color8 | color16
  | digestMd5 | digestSha1 | digestSha256 | digestSha512
  | aes128 | aes192 | aes256
  | object | raw
  | tuple | vector | deque
  | attrMap | attr | paramMap | param | propMap | prop
  | prg | ec | uuid
  | ipAddress | ipTcpEndpoint | ipUdpEndpoint | ipIcmpEndpoint
  | eod
deriving DecidableEq, Repr

namespace TypeCode

/-- `traits::tag_t`. -/
def tagTuple : List TypeCode :=
  [null, bool, char, float, double, float80,
    uint8, uint16, uint32, uint64, int8, int16, int32, int64,
    string, fsPath,
    timePoint, nanoSecond, microSecond, milliSecond, second, minute, hour,
    buffer, version, revision, op, severity, mac48, mac64, pid,
    obis, obisPath, edis, color8, color16,
    digestMd5, digestSha1, digestSha256, digestSha512,
    aes128, aes192, aes256,
    object, raw,
    tuple, vector, deque,
    attrMap, attr, paramMap, param, propMap, prop,
    prg, ec, uuid,
    ipAddress, ipTcpEndpoint, ipUdpEndpoint, ipIcmpEndpoint,
    eod]

/-- The position of a type in the tuple. -/
def code (t : TypeCode) : BitVec 16 :=
  BitVec.ofNat 16 (tagTuple.idxOf t)

/-- The type at a position of the tuple. -/
def ofCode (c : BitVec 16) : Option TypeCode :=
  tagTuple[c.toNat]?

/-- Every type is found again under its code. -/
@[simp] theorem ofCode_code (t : TypeCode) : ofCode t.code = some t := by
  cases t <;> rfl

end TypeCode

/-- `is_container` -/
def TypeCode.isContainer : TypeCode → Bool
  | tuple | vector | deque | attrMap | attr | paramMap | param | propMap | prop | prg => true
  | _ => false

/-- The fixed-width integer types. -/
inductive IntType
  | uint8 | uint16 | uint32 | uint64 | int8 | int16 | int32 | int64
deriving DecidableEq, Repr

namespace IntType

/-- `sizeof(T)`. -/
def size : IntType → ℕ
  | uint8 | int8 => 1
  | uint16 | int16 => 2
  | uint32 | int32 => 4
  | uint64 | int64 => 8

def typeCode : IntType → TypeCode
  | uint8 => .uint8
  | uint16 => .uint16
  | uint32 => .uint32
  | uint64 => .uint64
  | int8 => .int8
  | int16 => .int16
  | int32 => .int32
  | int64 => .int64

end IntType

/-- The floating point types; their values are carried as bit patterns. -/
inductive FloatType
  | float | double | float80
deriving DecidableEq, Repr

namespace FloatType

/-- `sizeof(T)`; the extended type is stored in 16 bytes. -/
def size : FloatType → ℕ
  | float => 4
  | double => 8
  | float80 => 16

def typeCode : FloatType → TypeCode
  | float => .float
  | double => .double
  | float80 => .float80

end FloatType

/-- The tick periods of the `std::chrono::duration` types. -/
inductive DurationUnit
  | nanoSecond | microSecond | milliSecond | second | minute | hour
deriving DecidableEq, Repr

def DurationUnit.typeCode : DurationUnit → TypeCode
  | nanoSecond => .nanoSecond
  | microSecond => .microSecond
  | milliSecond => .milliSecond
  | second => .second
  | minute => .minute
  | hour => .hour

/-- The instances of `crypto::digest<N>`. -/
inductive DigestType
  | md5 | sha1 | sha256 | sha512
deriving DecidableEq, Repr

namespace DigestType

/-- `digest<N>::size()`. -/
def size : DigestType → ℕ
  | md5 => 16
  | sha1 => 20
  | sha256 => 32
  | sha512 => 64

def typeCode : DigestType → TypeCode
  | md5 => .digestMd5
  | sha1 => .digestSha1
  | sha256 => .digestSha256
  | sha512 => .digestSha512

end DigestType

/-- The instances of `crypto::aes_key<N>`. -/
inductive AesType
  | aes128 | aes192 | aes256
deriving DecidableEq, Repr

namespace AesType

/-- `aes_key<N>::bytes()`. -/
def bytes : AesType → ℕ
  | aes128 => 16
  | aes192 => 24
  | aes256 => 32

def typeCode : AesType → TypeCode
  | aes128 => .aes128
  | aes192 => .aes192
  | aes256 => .aes256

end AesType

/-- The protocols of `boost::asio::ip::basic_endpoint`. -/
inductive Protocol
  | tcp | udp | icmp
deriving DecidableEq, Repr

def Protocol.typeCode : Protocol → TypeCode
  | tcp => .ipTcpEndpoint
  | udp => .ipUdpEndpoint
  | icmp => .ipIcmpEndpoint

end Cyng
