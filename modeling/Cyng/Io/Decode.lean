import Cyng.Io.Binary

/-!
# The binary decoders

`parser::deserialize` selects a decoder by the type code that came with the payload.
The decoders differ in what they do with a payload of the wrong size: some assert it,
some fall back to a default value, some throw, and some read past its end.
-/

namespace Cyng

open Theory

/-- `to_numeric<T>(buffer)`: the leading bytes in network byte order. -/
def toNumeric (n : ℕ) (buffer : Bytes) : BitVec (8 * n) :=
  BitVec.ofNat (8 * n) (ofBE (buffer.take n))

/-- `buffer.size() - offset`, in `std::size_t`. -/
def sizeMinus (buffer : Bytes) (offset : ℕ) : BitVec 64 :=
  BitVec.ofNat 64 buffer.length - BitVec.ofNat 64 offset

/-- `to_numeric<T>(buffer, offset)`. -/
def toNumericAt (b : Build) (n : ℕ) (buffer : Bytes) (offset : ℕ) :
    Except Fault (BitVec (8 * n)) := do
  b.check "sizeof(T) <= buffer.size() - offset" (n ≤ (sizeMinus buffer offset).toNat)
  if offset + min n buffer.length ≤ buffer.length then
    .ok (toNumeric n (buffer.drop offset))
  else .error (.undefined "to_numeric reads past the end")

/-- `buffer.at(i)`. -/
def byteAt (buffer : Bytes) (i : ℕ) : Except Fault UInt8 :=
  match buffer[i]? with
  | some c => .ok c
  | none => .error (.exception "std::out_of_range")

/-- `make_string(buffer, offset)`. -/
def makeString (buffer : Bytes) (offset : ℕ) : Except Fault Bytes :=
  if offset ≤ buffer.length then .ok (buffer.drop offset)
  else .error (.undefined "make_string starts past the end")

/-- `make_obis(buffer, offset)`. -/
def makeObis (buffer : Bytes) (offset : ℕ) : Except Fault Obis :=
  if 6 ≤ buffer.length + offset then do
    let a ← byteAt buffer offset
    let b ← byteAt buffer (offset + 1)
    let c ← byteAt buffer (offset + 2)
    let d ← byteAt buffer (offset + 3)
    let e ← byteAt buffer (offset + 4)
    let f ← byteAt buffer (offset + 5)
    .ok ⟨[a, b, c, d, e, f], rfl⟩
  else .ok (Octets.zero 6)

/-- `make_obis_path`. -/
def makeObisPath (b : Build) (buffer : Bytes) : Except Fault (List Obis) := do
  b.check "(buffer.size() % obis::size()) == 0" (buffer.length % 6 = 0)
  (List.range (buffer.length / 6)).mapM fun idx => makeObis buffer (idx * 6)

/-- `make_mac64`: the constructor puts the first byte of each pair on top. -/
def makeMac64 (buffer : Bytes) : Mac64 :=
  if 8 ≤ buffer.length then
    ⟨toNumeric 2 buffer, toNumeric 2 (buffer.drop 2), toNumeric 2 (buffer.drop 4),
      toNumeric 2 (buffer.drop 6)⟩
  else ⟨0, 0, 0, 0⟩

/-- `make_pid`. -/
def makePid (buffer : Bytes) : BitVec 32 :=
  if 8 ≤ buffer.length then (toNumeric 8 buffer).setWidth 32 else 0

/-- `make_color8`. -/
def makeColor8 (buffer : Bytes) : Color 8 :=
  if 4 ≤ buffer.length then
    ⟨toNumeric 1 buffer, toNumeric 1 (buffer.drop 1), toNumeric 1 (buffer.drop 2),
      toNumeric 1 (buffer.drop 3)⟩
  else ⟨0, 0, 0, 0⟩

/-- `make_color16`. -/
def makeColor16 (b : Build) (buffer : Bytes) : Except Fault (Color 16) :=
  if 8 ≤ buffer.length then do
    let red := toNumeric 2 buffer
    -- the offsets are multiples of `sizeof(16)`, the size of an `int`
    let green ← toNumericAt b 2 buffer 4
    let blue ← toNumericAt b 2 buffer (4 * 2)
    let opacity ← toNumericAt b 2 buffer (4 * 3)
    .ok ⟨red, green, blue, opacity⟩
  else .ok ⟨0, 0, 0, 0⟩

/-- `make_uuid`: the nil uuid unless the size fits exactly. -/
def makeUuid (buffer : Bytes) : Octets 16 :=
  if h : buffer.length = 16 then ⟨buffer, h⟩ else Octets.zero 16

/-- `make_ec`: a category that is neither the generic nor the system one is lost. -/
def makeEc (buffer : Bytes) : Except Fault ErrorCode := do
  let code := toNumeric 4 buffer
  let category ← makeString buffer 4
  if category = ErrorCode.generic then .ok ⟨code, ErrorCode.generic⟩
  else if category = ErrorCode.system then .ok ⟨code, ErrorCode.system⟩
  else .ok ErrorCode.success

/-- `make_raw`. -/
def makeRaw (buffer : Bytes) : Except Fault Scalar := do
  let code := toNumeric 2 buffer
  let lit ← makeString buffer 2
  .ok (.raw lit code)

/-- `make_op`. -/
def makeOp (b : Build) (buffer : Bytes) : Except Fault (BitVec 16) := do
  b.check "buffer.size() == 2" (buffer.length = 2)
  .ok (toNumeric 2 buffer)

/-- `make_severity`. -/
def makeSeverity (b : Build) (buffer : Bytes) : Except Fault (BitVec 8) := do
  b.check "buffer.size() == 1" (buffer.length = 1)
  .ok (toNumeric 1 buffer)

/-- `make_endpoint`. -/
def makeEndpoint (ip : IpText) (protocol : Protocol) (buffer : Bytes) : Except Fault Scalar := do
  let port := toNumeric 2 buffer
  let text ← makeString buffer 2
  let address ← ip.makeAddress text
  .ok (.endpoint protocol address port)

section Deserialize

variable (b : Build) (ip : IpText) (buffer : Bytes)

/-- The size assertion that stands before a decoder. -/
def sized (text : String) (n : ℕ) (v : Scalar) : Except Fault Scalar := do
  b.check text (buffer.length = n)
  .ok v

/-- `deserialize_numeric`, for the integers. -/
def deserializeInt (ty : IntType) : Except Fault Scalar :=
  sized b buffer "buffer_.size() == sizeof(T)" ty.size (.int ty (toNumeric ty.size buffer))

/-- `deserialize_numeric`, for the floating point types. -/
def deserializeFloat (ty : FloatType) : Except Fault Scalar :=
  sized b buffer "buffer_.size() == sizeof(T)" ty.size (.float ty (toNumeric ty.size buffer))

/-- `make_duration`. -/
def makeDuration (unit : DurationUnit) : Scalar :=
  .duration unit (toNumeric 8 buffer)

/-- `make_digest`. -/
def makeDigest (text : String) (ty : DigestType) : Except Fault Scalar :=
  sized b buffer text ty.size (.digest ty (Octets.ofBuffer ty.size buffer))

/-- `make_aes_key`. -/
def makeAesKey (text : String) (ty : AesType) : Except Fault Scalar :=
  sized b buffer text ty.bytes (.aesKey ty (Octets.ofBuffer ty.bytes buffer))

/-- The payload of a type that is not decoded is handed on as a buffer. -/
def rawBuffer (text : String) : Except Fault Scalar := do
  b.check text False
  .ok (.buffer buffer)

/-- `parser::deserialize`. -/
def deserialize (type : BitVec 16) : Except Fault Scalar :=
  match TypeCode.ofCode type with
  | some .null => sized b buffer "buffer_.empty()" 0 .null
  | some .bool => do
    b.check "buffer_.size() == 1" (buffer.length = 1)
    let c ← byteAt buffer 0
    .ok (.bool (c == 1))
  | some .char => do
    b.check "buffer_.size() == 1" (buffer.length = 1)
    let c ← byteAt buffer 0
    .ok (.char c.toBitVec)
  | some .float => deserializeFloat b buffer .float
  | some .double => deserializeFloat b buffer .double
  | some .float80 => deserializeFloat b buffer .float80
  | some .uint8 => deserializeInt b buffer .uint8
  | some .uint16 => deserializeInt b buffer .uint16
  | some .uint32 => deserializeInt b buffer .uint32
  | some .uint64 => deserializeInt b buffer .uint64
  | some .int8 => deserializeInt b buffer .int8
  | some .int16 => deserializeInt b buffer .int16
  | some .int32 => deserializeInt b buffer .int32
  | some .int64 => deserializeInt b buffer .int64
  | some .string => .ok (.string buffer)
  | some .fsPath => .ok (.fsPath buffer)
  | some .timePoint => .ok (.timePoint (toNumeric 8 buffer))
  | some .nanoSecond => .ok (makeDuration buffer .nanoSecond)
  | some .microSecond => .ok (makeDuration buffer .microSecond)
  | some .milliSecond => .ok (makeDuration buffer .milliSecond)
  | some .second => .ok (makeDuration buffer .second)
  | some .minute => .ok (makeDuration buffer .minute)
  | some .hour => .ok (makeDuration buffer .hour)
  | some .buffer => .ok (.buffer buffer)
  | some .version => .ok (.version (toNumeric 4 buffer))
  | some .revision => .ok (.revision (toNumeric 8 buffer))
  | some .op => do .ok (.op (← makeOp b buffer))
  | some .severity => do .ok (.severity (← makeSeverity b buffer))
  | some .mac48 =>
    sized b buffer "buffer_.size() == mac48::size()" 6 (.mac48 (Octets.ofBuffer 6 buffer))
  | some .mac64 => sized b buffer "buffer_.size() == mac64::size()" 8 (.mac64 (makeMac64 buffer))
  | some .pid => .ok (.pid (makePid buffer))
  | some .obis => do
    b.check "buffer_.size() == obis::size()" (buffer.length = 6)
    .ok (.obis (← makeObis buffer 0))
  | some .obisPath => do
    b.check "(buffer_.size() % obis::size()) == 0" (buffer.length % 6 = 0)
    .ok (.obisPath (← makeObisPath b buffer))
  | some .edis =>
    sized b buffer "buffer_.size() == edis::size()" 3 (.edis (Octets.ofBuffer 3 buffer))
  | some .color8 =>
    sized b buffer "buffer_.size() == sizeof(color_8::rgb_type)" 4 (.color8 (makeColor8 buffer))
  | some .color16 => do
    b.check "buffer_.size() == sizeof(color_16::rgb_type)" (buffer.length = 8)
    .ok (.color16 (← makeColor16 b buffer))
  | some .digestMd5 => makeDigest b buffer "buffer_.size() == crypto::digest_md5::size()" .md5
  | some .digestSha1 => makeDigest b buffer "buffer_.size() == crypto::digest_sha1::size()" .sha1
  | some .digestSha256 =>
    makeDigest b buffer "buffer_.size() == crypto::digest_sha256::size()" .sha256
  | some .digestSha512 =>
    makeDigest b buffer "buffer_.size() == crypto::digest_sha512::size()" .sha512
  | some .aes128 => makeAesKey b buffer "buffer_.size() == crypto::aes_128_key::bytes()" .aes128
  | some .aes192 => makeAesKey b buffer "buffer_.size() == crypto::aes_192_key::bytes()" .aes192
  | some .aes256 => makeAesKey b buffer "buffer_.size() == crypto::aes_256_key::bytes()" .aes256
  | some .raw => do
    b.check "buffer_.size() > sizeof(std::uint16_t)" (2 < buffer.length)
    makeRaw buffer
  | some .tuple | some .vector | some .deque | some .prg
  | some .attrMap | some .attr | some .paramMap | some .param =>
    rawBuffer b buffer "wrong serialization sequence"
  | some .ec => do .ok (.errorCode (← makeEc buffer))
  | some .uuid => .ok (.uuid (makeUuid buffer))
  | some .ipAddress => do .ok (.ipAddress (← ip.makeAddress buffer))
  | some .ipTcpEndpoint => makeEndpoint ip .tcp buffer
  | some .ipUdpEndpoint => makeEndpoint ip .udp buffer
  | some .ipIcmpEndpoint => makeEndpoint ip .icmp buffer
  | some .eod => sized b buffer "buffer_.empty()" 0 .eod
  | some .object | some .propMap | some .prop | none =>
    rawBuffer b buffer "unknown data type"

end Deserialize

end Cyng
