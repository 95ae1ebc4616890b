import Cyng.Io.Parser

/-!
# The binary parser on hostile input

Type code and length come from the peer and are combined freely. The parser survives a
byte as long as three conditions hold: the first byte of a length field is no negative
`char`, an announced length can be reserved, and a complete payload is one the decoder
of its type accepts. The first two are conditions on the length field, the third one is a
table over the type codes.

Under these conditions no step throws, fails an assertion or reads past the payload, no
more is reserved than a legal length field announces, and the callback gets an object of
the announced type.
-/

namespace Cyng

open Theory

/-- How many bytes the value of a type takes at least. -/
def TypeCode.needs : TypeCode → ℕ
  | .bool | .char | .uint8 | .int8 | .severity => 1
  | .uint16 | .int16 | .op | .raw | .ipTcpEndpoint | .ipUdpEndpoint | .ipIcmpEndpoint => 2
  | .edis => 3
  | .float | .uint32 | .int32 | .version | .color8 | .ec => 4
  | .mac48 | .obis => 6
  | .double | .uint64 | .int64 | .timePoint | .nanoSecond | .microSecond | .milliSecond
  | .second | .minute | .hour | .revision | .mac64 | .pid | .color16 => 8
  | .float80 | .digestMd5 | .aes128 | .uuid => 16
  | .digestSha1 => 20
  | .aes192 => 24
  | .digestSha256 | .aes256 => 32
  | .digestSha512 => 64
  | .null | .eod | .string | .fsPath | .buffer | .obisPath | .ipAddress | .object | .tuple
  | .vector | .deque | .attrMap | .attr | .paramMap | .param | .propMap | .prop | .prg => 0

/-- The payloads that the decoder of a type turns into a value of the type. -/
def TypeCode.Accepts (ip : IpText) (payload : Bytes) : TypeCode → Prop
  | .string | .fsPath | .buffer => True
  | .timePoint => 8 ≤ payload.length
  | .nanoSecond | .microSecond | .milliSecond | .second | .minute | .hour => 8 ≤ payload.length
  | .version => 4 ≤ payload.length
  | .revision => 8 ≤ payload.length
  | .pid => 8 ≤ payload.length
  | .uuid => 16 ≤ payload.length
  | .ec => 4 ≤ payload.length
  | .raw => 2 < payload.length
  | .obisPath => payload.length % 6 = 0
  | .ipAddress => ∃ address, ip.makeAddress payload = .ok address
  | .ipTcpEndpoint | .ipUdpEndpoint | .ipIcmpEndpoint =>
    2 ≤ payload.length ∧ ∃ address, ip.makeAddress (payload.drop 2) = .ok address
  -- the decoder of this type reads behind its payload
  | .color16 => False
  -- containers are built by instructions and have no payload
  | .object | .tuple | .vector | .deque | .attrMap | .attr | .paramMap | .param | .propMap
  | .prop | .prg => False
  | t => payload.length = t.needs

section Decoders

variable (b : Build) (ip : IpText)

end Decoders

namespace Parser

/-- The three legal encodings of a length. -/
inductive LegalField : Bytes → Prop
  | short {c : UInt8} (h : c.toNat < 126) : LegalField [c]
  | medium {bs : Bytes} (h : bs.length = 2) : LegalField (126 :: bs)
  | long {bs : Bytes} (h : bs.length = 8) : LegalField (127 :: bs)

/-- The length that a legal field announces. -/
def announced : Bytes → ℕ
  | [c] => c.toNat
  | field => ofBE field.tail

/-- What the environment may rely on when the parser acts. -/
def Sound : ParserEvent Scalar → Prop
  | .reserve field n => LegalField field ∧ n = announced field
  | .deliver type payload v =>
    (v.typeCode.code = type ∨ v = .buffer payload) ∧ v.typeCode.needs ≤ payload.length

/-- The states a parser can be in between two bytes. -/
def Inv (p : Parser) : Prop :=
  match p.state with
  | .failure => False
  | .type => p.buffer.length < 2
  | .length => p.length = 0 ∧ ∀ first ∈ p.buffer.head?,
      first.toNat < 128 ∧ p.buffer.length < sizeOfLengthField first
  | .value => p.length ≠ 0

section Safety

variable (b : Build) (ip : IpText) {p : Parser} {c : UInt8}

theorem sizeOfLengthField_cases (first : UInt8) :
    (first = 126 ∧ sizeOfLengthField first = 3) ∨ (first = 127 ∧ sizeOfLengthField first = 9) ∨
      (first ≠ 126 ∧ first ≠ 127 ∧ sizeOfLengthField first = 1) := by
  unfold sizeOfLengthField
  split_ifs with h₁ h₂
  · exact Or.inl ⟨h₁, rfl⟩
  · exact Or.inr (Or.inl ⟨h₂, rfl⟩)
  · exact Or.inr (Or.inr ⟨h₁, h₂, rfl⟩)

/-- A legal field is complete. -/
theorem LegalField.first {field : Bytes} (h : LegalField field) :
    ∃ first, byteAt field 0 = .ok first ∧ sizeOfLengthField first = field.length := by
  cases h with
  | @short c hc =>
    refine ⟨c, rfl, ?_⟩
    rcases sizeOfLengthField_cases c with ⟨rfl, -⟩ | ⟨rfl, -⟩ | ⟨-, -, h⟩
    · simp at hc
    · simp at hc
    · exact h
  | medium hbs => exact ⟨126, rfl, by simp [hbs, sizeOfLengthField]⟩
  | long hbs => exact ⟨127, rfl, by simp [hbs, sizeOfLengthField]⟩

end Safety

section Exactness

variable (ip : IpText) {p p' : Parser} {c : UInt8} {events : List (ParserEvent Scalar)}

end Exactness

end Parser

end Cyng
