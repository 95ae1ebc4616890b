import Cyng.Io.Utf8
import Cyng.Obj.Object
import Cyng.Theory.Numerals

/-!
# The JSON serializer

Objects as JSON text. Strings are escaped code point by code point; names of parameters are
written as they are. An empty container is written as `null`.
-/

namespace Cyng

open Theory

namespace Json

/-- A number in decimal. -/
def decimal (n : ℤ) : List Char :=
  if n < 0 then '-' :: Nat.toDigits 10 n.natAbs else Nat.toDigits 10 n.natAbs

/-- The value of an integer of one of the types. -/
def intValue (ty : IntType) (v : BitVec (8 * ty.size)) : ℤ :=
  match ty with
  | .uint8 | .uint16 | .uint32 | .uint64 => v.toNat
  | .int8 | .int16 | .int32 | .int64 => v.toInt

/-- What a stream in hexadecimal mode writes with a width of four and zeros to fill it. -/
def hex (c : ℕ) : List Char :=
  List.replicate (4 - (Nat.toDigits 16 c).length) '0' ++ Nat.toDigits 16 c

theorem mem_hex {c : ℕ} {x : Char} (h : x ∈ hex c) : ∃ d < 16, x = Nat.digitChar d := by
  rcases List.mem_append.mp h with h | h
  · exact ⟨0, by decide, List.eq_of_mem_replicate h⟩
  · exact mem_toDigits (by decide) h

/-- One code point of a string. -/
def escape (c : ℕ) : List Char :=
  match c with
  | 7 => ['\\', 'a']
  | 8 => ['\\', 'b']
  | 12 => ['\\', 'f']
  | 10 => ['\\', 'n']
  | 13 => ['\\', 'r']
  | 9 => ['\\', 't']
  | 11 => ['\\', 'v']
  | 92 => ['\\', '\\']
  | 39 => ['\\', '\'']
  | 34 => ['\\', '"']
  | c => if 30 < c ∧ c < 127 then [Char.ofNat c] else '\\' :: 'u' :: hex c

/-- Attributes and parameters inside of something else stand in braces. -/
def braces (o : Obj) (text : Bytes) : Bytes :=
  if o.typeCode = .attr ∨ o.typeCode = .param then utf8 ['{'] ++ text ++ utf8 ['}'] else text

/-- The name of a parameter. -/
def nameOf : Key → Bytes
  | .name n => n
  | _ => []

section Write

variable (b : Build) (other : Obj → Bytes)

/-- `serializer<std::string, JSON>::write` -/
def writeString (str : Bytes) : Except Fault Bytes := do
  let cps ← U8ToU32.codePoints b str
  return utf8 ('"' :: cps.flatMap escape ++ ['"'])

mutual

/-- `serialize<JSON>::write`, where the text of objects of all other types is given. -/
def write : Obj → Except Fault Bytes
  | .scalar .null => .ok (utf8 "null".toList)
  | .scalar (.bool v) => .ok (utf8 (if v then "true".toList else "false".toList))
  | .scalar (.int ty v) => .ok (utf8 (decimal (intValue ty v)))
  | .scalar (.string str) => writeString b str
  | .pair (.name n) value => do
    let text ← write value
    return utf8 ['"'] ++ n ++ utf8 ['"', ':', ' '] ++ braces value text
  | .seq .vector items =>
    if items = [] then .ok (utf8 "null".toList)
    else do
      let text ← writeItems true false items
      return utf8 ['['] ++ text ++ utf8 [']']
  | .seq .tuple items =>
    if items = [] then .ok (utf8 "null".toList)
    else do
      let text ← writeItems false false items
      return utf8 ['{'] ++ text ++ utf8 ['}']
  | .map .name entries =>
    if entries = [] then .ok (utf8 "null".toList)
    else do
      let text ← writeEntries false entries
      return utf8 ['{'] ++ text ++ utf8 ['}']
  | o => .ok (other o)

/-- The loop over the elements of a sequence; a flag says that there was one before. -/
def writeItems (wrap init : Bool) : List Obj → Except Fault Bytes
  | [] => .ok []
  | item :: items => do
    let text ← write item
    let texts ← writeItems wrap true items
    return (if init then utf8 [',', ' '] else []) ++ (if wrap then braces item text else text) ++
      texts

/-- The loop over the parameters of a map. -/
def writeEntries (flag : Bool) : List (Key × Obj) → Except Fault Bytes
  | [] => .ok []
  | (key, value) :: entries => do
    let text ← write value
    let texts ← writeEntries true entries
    return (if flag then utf8 [','] else []) ++ utf8 ['"'] ++ nameOf key ++ utf8 ['"', ':'] ++
      text ++ texts

end

/-- `to_json` -/
def toJson (o : Obj) : Except Fault Bytes := write b other o

end Write

end Json

end Cyng
