import Cyng.Io.Binary
import Cyng.Theory.Sink

/-!
# What the binary writers return

The writers of the binary format on a stream. Each of them returns a size, which is put together
from sizes of types, lengths of texts and what other writers return, and not from the stream. The
size is the number of bytes that the writer appends, so that `convert_binary` reads back from its
stream all of the object and nothing else.

Sizes are natural numbers here; no stream holds more bytes than `std::size_t` can count.
-/

namespace Cyng

open Theory Theory.Sink

namespace Stream

/-! ### Parts of a value -/

/-- `write_binary` of a number. -/
def writeBinary (n : ℕ) (v : BitVec (8 * n)) : Sink UInt8 ℕ := do
  let buffer := toBuffer n v
  put buffer
  return buffer.length

/-- `write_binary` of an array of elements of one size. -/
def writeArray (count size : ℕ) (memory : Bytes) : Sink UInt8 ℕ := do
  put (memory.take (count * size))
  return count * size

/-- `serialize_type_tag` -/
def serializeTypeTag (t : TypeCode) : Sink UInt8 PUnit := do
  let _ ← writeBinary 2 t.code
  return ⟨⟩

/-- `serialize_length` -/
def serializeLength (size : ℕ) : Sink UInt8 ℕ :=
  if size < 0x7e then do
    let _ ← writeBinary 1 (BitVec.ofNat 8 size)
    return 1
  else if size < 0xFFFF then do
    let _ ← writeBinary 1 0x7e
    let _ ← writeBinary 2 (BitVec.ofNat 16 size)
    return 1 + 2
  else do
    let _ ← writeBinary 1 0x7f
    let _ ← writeBinary 8 (BitVec.ofNat 64 size)
    return 1 + 8

/-! ### Leaves -/

/-- Type, length and value: the announced length and what is returned for the value are given by
each type on its own. -/
def typeLengthValue (t : TypeCode) (length : ℕ) (value : Sink UInt8 ℕ) : Sink UInt8 ℕ := do
  serializeTypeTag t
  let ll ← serializeLength length
  let size ← value
  return size + 2 + ll

/-- The serializer of a type that has none of its own. -/
def writeGeneric (t : TypeCode) (n : ℕ) (v : BitVec (8 * n)) : Sink UInt8 ℕ :=
  typeLengthValue t n (writeBinary n v)

/-- Types without data. -/
def writeEmpty (t : TypeCode) : Sink UInt8 ℕ := do
  serializeTypeTag t
  let ll ← serializeLength 0
  return 2 + ll

/-- Types that are written as a text. -/
def writeText (t : TypeCode) (str : Bytes) : Sink UInt8 ℕ :=
  typeLengthValue t str.length do
    put str
    return str.length

/-- Types that return the size of the value rather than what `write_binary` returns. -/
def writeSized (t : TypeCode) (n : ℕ) (value : Sink UInt8 PUnit) : Sink UInt8 ℕ :=
  typeLengthValue t n do
    value
    return n

/-- `write_binary` with the result left unused. -/
def discard (p : Sink UInt8 ℕ) : Sink UInt8 PUnit := do
  let _ ← p
  return ⟨⟩

/-- The four channels of a color of channels with `n` bytes. -/
def writeColor (t : TypeCode) (n : ℕ) (red green blue opacity : BitVec (8 * n)) :
    Sink UInt8 ℕ := do
  serializeTypeTag t
  let ll ← serializeLength (4 * n)
  let size := 2 + ll
  let r ← writeBinary n red
  let g ← writeBinary n green
  let b ← writeBinary n blue
  let o ← writeBinary n opacity
  return size + r + g + b + o

/-- `serializer<obis_path_t, BINARY>::write` -/
def writeObisPath (path : List Obis) : Sink UInt8 ℕ := do
  serializeTypeTag .obisPath
  let ll ← serializeLength (path.length * 6)
  sumLoop (fun o : Obis => writeArray 6 1 o.val) (2 + ll) path

section Serialize

variable (ip : IpText)

/-- The specialisations of `serializer<T, BINARY>::write` for leaves. -/
def writeScalar : Scalar → Sink UInt8 ℕ
  | .null => writeEmpty .null
  | .eod => writeEmpty .eod
  | .bool v => writeGeneric .bool 1 (if v then 1 else 0)
  | .char v => writeGeneric .char 1 v
  | .float ty bits => writeGeneric ty.typeCode ty.size bits
  | .int ty v => writeGeneric ty.typeCode ty.size v
  | .string str => writeText .string str
  | .fsPath path => writeText .fsPath path
  | .timePoint ticks => writeSized .timePoint 8 (discard (writeBinary 8 ticks))
  | .duration unit ticks => writeGeneric unit.typeCode 8 ticks
  | .buffer buf => writeText .buffer buf
  | .version full => writeGeneric .version 4 full
  | .revision full => writeGeneric .revision 8 full
  | .op code => writeGeneric .op 2 code
  | .severity level => writeGeneric .severity 1 level
  | .mac48 address => writeSized .mac48 6 (discard (writeArray 6 1 address.val))
  | .mac64 address => writeSized .mac64 8 (discard (writeArray 4 2
      (toLE 2 address.word1.toNat ++ toLE 2 address.word2.toNat ++
        toLE 2 address.word3.toNat ++ toLE 2 address.word4.toNat)))
  | .pid id => writeSized .pid 8 (discard (writeBinary 8 (id.signExtend 64)))
  | .obis code => writeSized .obis 6 (discard (writeArray 6 1 code.val))
  | .obisPath path => writeObisPath path
  | .edis code => writeSized .edis 3 (discard (writeArray 3 1 code.val))
  | .color8 color => writeColor .color8 1 color.red color.green color.blue color.opacity
  | .color16 color => writeColor .color16 2 color.red color.green color.blue color.opacity
  | .digest ty digest => typeLengthValue ty.typeCode ty.size (writeArray ty.size 1 digest.val)
  | .aesKey ty key => typeLengthValue ty.typeCode ty.bytes (writeArray ty.bytes 1 key.val)
  | .raw literal code => typeLengthValue .raw (literal.length + 2) do
      let _ ← writeBinary 2 code
      put literal
      return literal.length + 2
  | .errorCode ec => typeLengthValue .ec (4 + ec.category.length) do
      let _ ← writeBinary 4 ec.value
      put ec.category
      return 4 + ec.category.length
  | .uuid tag => writeSized .uuid 16 (put (tag.val.take 16))
  | .ipAddress address => writeText .ipAddress (ip.toString address)
  | .endpoint protocol address port =>
    typeLengthValue protocol.typeCode ((ip.toString address).length + 2) do
      let _ ← writeBinary 2 port
      put (ip.toString address)
      return (ip.toString address).length + 2

/-! ### Containers -/

/-- The end of a pair: the key as an object and the instruction, added to the size of the value. -/
def writeKey (key : Key) (size : ℕ) : Sink UInt8 ℕ := do
  let n ← writeScalar ip key.toScalar
  let m ← writeScalar ip (.op key.kind.makePair)
  return size + n + m

/-- The end of a container: the element count as an object and the instruction. -/
def writeMake (size count : ℕ) (code : BitVec 16) : Sink UInt8 ℕ := do
  let n ← writeScalar ip (.uint64 (BitVec.ofNat 64 count))
  let m ← writeScalar ip (.op code)
  return size + n + m

mutual

/-- `serialize<BINARY>::write` -/
def serializeBinary : Obj → Sink UInt8 ℕ
  | .scalar v => writeScalar ip v
  | .pair key value => do
    let size ← serializeBinary value
    writeKey ip key size
  | .map kind entries => do
    let size ← writePairs 0 entries
    writeMake ip size entries.length kind.makeMap
  | .seq kind items => do
    let size ← writeItems 0 items
    writeMake ip size items.length kind.make
  | .prg program => do
    let size ← sumLoop (fun buf : Bytes => writeScalar ip (.buffer buf)) 0 program
    writeMake ip size program.length Op.makePrg

/-- The loop over the elements of a map. -/
def writePairs (size : ℕ) : List (Key × Obj) → Sink UInt8 ℕ
  | [] => return size
  | (key, value) :: entries => do
    let n ← serializeBinary value
    let m ← writeKey ip key n
    writePairs (size + m) entries

/-- The loop over the elements of a sequence. -/
def writeItems (size : ℕ) : List Obj → Sink UInt8 ℕ
  | [] => return size
  | item :: items => do
    let n ← serializeBinary item
    writeItems (size + n) items

end

/-- `std::istream::read` into a buffer that has its size: what the stream does not have stays
zero. -/
def readInto (size : ℕ) (stream : Bytes) : Bytes :=
  stream.take size ++ List.replicate (size - stream.length) 0

/-- `convert_binary` -/
def convertBinary (o : Obj) : Bytes :=
  let (size, stream) := (serializeBinary ip o).run []
  readInto size stream

end Serialize

/-! ### Counting -/

theorem counts_writeBinary (n : ℕ) (v : BitVec (8 * n)) :
    Counts (writeBinary n v) (Cyng.writeBinary n v).bytes := by
  have hrun : Emits (writeBinary n v) (toBuffer n v).length (toBuffer n v ++ []) :=
    (emits_put _).bind (emits_pure _)
  rwa [List.append_nil] at hrun

/-- An array is written as it is if its memory has the size of its elements. -/
theorem counts_writeArray {count size : ℕ} {memory : Bytes} (h : memory.length = count * size) :
    Counts (writeArray count size memory) memory := by
  have hrun : Emits (writeArray count size memory) (count * size)
      (memory.take (count * size) ++ []) := (emits_put _).bind (emits_pure _)
  rw [List.append_nil, List.take_of_length_le h.le, ← h] at hrun
  exact hrun

theorem emits_serializeTypeTag (t : TypeCode) :
    Emits (serializeTypeTag t) ⟨⟩ (Cyng.serializeTypeTag t).bytes :=
  (counts_writeBinary 2 t.code).bind_pure

/-- What `serialize_length` returns is the length of the length field. -/
theorem counts_serializeLength (size : ℕ) :
    Counts (serializeLength size) (Cyng.serializeLength size).bytes := by
  unfold serializeLength Cyng.serializeLength
  split
  · exact (counts_writeBinary 1 _).bind_pure
  · split
    · exact (counts_writeBinary 1 _).bind (counts_writeBinary 2 _).bind_pure
    · exact (counts_writeBinary 1 _).bind (counts_writeBinary 8 _).bind_pure

/-- The type and the length in front of a value. -/
def header (t : TypeCode) (length : ℕ) : Bytes :=
  (Cyng.serializeTypeTag t).bytes ++ (Cyng.serializeLength length).bytes

theorem length_header (t : TypeCode) (length : ℕ) :
    (header t length).length = 2 + (Cyng.serializeLength length).bytes.length := by
  have htag : (Cyng.serializeTypeTag t).bytes.length = 2 := length_toBuffer 2 t.code
  rw [header, List.length_append, htag]

/-- What follows the type and the length knows how long the length field is. -/
theorem emits_header {α : Type} {t : TypeCode} {length : ℕ} {rest : ℕ → Sink UInt8 α} {r : α}
    {bytes : Bytes} (h : Emits (rest (Cyng.serializeLength length).bytes.length) r bytes) :
    Emits (do serializeTypeTag t; let ll ← serializeLength length; rest ll) r
      (header t length ++ bytes) := by
  rw [header, List.append_assoc]
  exact (emits_serializeTypeTag t).bind ((counts_serializeLength length).bind h)

/-- A writer counts if it counts its value. -/
theorem counts_typeLengthValue {t : TypeCode} {length : ℕ} {value : Sink UInt8 ℕ}
    {bytes : Bytes} (h : Counts value bytes) :
    Counts (typeLengthValue t length value) (header t length ++ bytes) := by
  have hrun : Emits (typeLengthValue t length value)
      (bytes.length + 2 + (Cyng.serializeLength length).bytes.length)
      (header t length ++ bytes) := emits_header h.bind_pure
  refine hrun.congr ?_ rfl
  rw [List.length_append, length_header]
  omega

theorem counts_writeSized {t : TypeCode} {n : ℕ} {value : Sink UInt8 PUnit} {bytes : Bytes}
    (h : Emits value ⟨⟩ bytes) (hn : bytes.length = n) :
    Counts (writeSized t n value) (header t n ++ bytes) := by
  apply counts_typeLengthValue
  rw [Counts, hn]
  exact h.bind_pure

theorem emits_discard {p : Sink UInt8 ℕ} {bytes : Bytes} (h : Counts p bytes) :
    Emits (discard p) ⟨⟩ bytes := h.bind_pure

theorem counts_writeEmpty (t : TypeCode) : Counts (writeEmpty t) (header t 0) := by
  have hrun : Emits (writeEmpty t) (2 + (Cyng.serializeLength 0).bytes.length)
      (header t 0 ++ []) := emits_header (emits_pure _)
  rwa [List.append_nil, ← length_header] at hrun

theorem counts_writeText (t : TypeCode) (str : Bytes) :
    Counts (writeText t str) (header t str.length ++ str) := by
  apply counts_typeLengthValue
  exact (emits_put str).bind_pure

/-- A number with a text behind it. -/
theorem counts_numberText {n : ℕ} (v : BitVec (8 * n)) (str : Bytes) {size : ℕ}
    (hsize : size = n + str.length) :
    Counts (do let _ ← writeBinary n v; put str; return size)
      ((Cyng.writeBinary n v).bytes ++ str) := by
  have hn : (Cyng.writeBinary n v).bytes.length = n := length_toBuffer n v
  rw [Counts, List.length_append, hn, ← hsize]
  exact (counts_writeBinary n v).bind (emits_put str).bind_pure

theorem counts_writeColor (t : TypeCode) (n : ℕ) (red green blue opacity : BitVec (8 * n)) :
    Counts (writeColor t n red green blue opacity) (header t (4 * n) ++
      (Cyng.writeBinary n red ++ Cyng.writeBinary n green ++ Cyng.writeBinary n blue ++
        Cyng.writeBinary n opacity).bytes) := by
  have hn (v : BitVec (8 * n)) : (Cyng.writeBinary n v).bytes.length = n := length_toBuffer n v
  have hrun : Emits (writeColor t n red green blue opacity)
      (2 + (Cyng.serializeLength (4 * n)).bytes.length + n + n + n + n) (header t (4 * n) ++
        ((Cyng.writeBinary n red).bytes ++ ((Cyng.writeBinary n green).bytes ++
          ((Cyng.writeBinary n blue).bytes ++ (Cyng.writeBinary n opacity).bytes)))) := by
    have hchannel (v : BitVec (8 * n)) :
        Emits (writeBinary n v) n (Cyng.writeBinary n v).bytes :=
      (counts_writeBinary n v).congr (hn v) rfl
    exact emits_header ((hchannel red).bind ((hchannel green).bind
      ((hchannel blue).bind (hchannel opacity).bind_pure)))
  refine hrun.congr ?_ ?_
  · simp only [List.length_append, length_header, Written.bytes_append, hn]
    omega
  · simp only [Written.bytes_append, List.append_assoc]

theorem counts_writeObisPath (path : List Obis) :
    Counts (writeObisPath path)
      (header .obisPath (path.length * 6) ++ path.flatMap Subtype.val) := by
  have hcode (o : Obis) : Counts (writeArray 6 1 o.val) o.val := counts_writeArray o.property
  have hrun : Emits (writeObisPath path) _ _ := emits_header (counts_sumLoop hcode _ path)
  refine hrun.congr ?_ rfl
  rw [List.length_append, length_header]

section Serialize

variable (ip : IpText)

/-- Every leaf counts what it writes. -/
theorem counts_writeScalar (v : Scalar) : Counts (writeScalar ip v) (v.write ip).bytes := by
  -- most leaves have a fixed width
  have hgeneric (t : TypeCode) (n : ℕ) (v : BitVec (8 * n)) :
      Counts (writeGeneric t n v) (header t n ++ (Cyng.writeBinary n v).bytes) :=
    counts_typeLengthValue (counts_writeBinary n v)
  cases v with
  | null => exact (counts_writeEmpty .null).congr rfl (List.append_nil _).symm
  | eod => exact counts_writeEmpty .eod
  | bool v => exact hgeneric _ _ _
  | char v => exact hgeneric _ _ _
  | float ty bits => exact hgeneric _ _ _
  | int ty v => exact hgeneric _ _ _
  | string str => exact counts_writeText _ _
  | fsPath path => exact counts_writeText _ _
  | timePoint ticks => exact counts_writeSized (emits_discard (counts_writeBinary 8 _)) rfl
  | duration unit ticks => exact hgeneric _ _ _
  | buffer buf => exact counts_writeText _ _
  | version full => exact hgeneric _ _ _
  | revision full => exact hgeneric _ _ _
  | op code => exact hgeneric _ _ _
  | severity level => exact hgeneric _ _ _
  | mac48 address =>
    exact counts_writeSized (emits_discard (counts_writeArray address.property)) address.property
  | mac64 address => exact counts_writeSized (emits_discard (counts_writeArray rfl)) rfl
  | pid id => exact counts_writeSized (emits_discard (counts_writeBinary 8 _)) rfl
  | obis code =>
    exact counts_writeSized (emits_discard (counts_writeArray code.property)) code.property
  | obisPath path => exact counts_writeObisPath path
  | edis code =>
    exact counts_writeSized (emits_discard (counts_writeArray code.property)) code.property
  | color8 color => exact counts_writeColor _ 1 _ _ _ _
  | color16 color => exact counts_writeColor _ 2 _ _ _ _
  | digest ty digest =>
    have hsize : digest.val.length = ty.size * 1 := digest.property.trans (Nat.mul_one _).symm
    exact counts_typeLengthValue (counts_writeArray hsize)
  | aesKey ty key =>
    have hsize : key.val.length = ty.bytes * 1 := key.property.trans (Nat.mul_one _).symm
    exact counts_typeLengthValue (counts_writeArray hsize)
  | raw literal code =>
    exact counts_typeLengthValue (counts_numberText (n := 2) code literal (Nat.add_comm _ _))
  | errorCode ec => exact counts_typeLengthValue (counts_numberText (n := 4) ec.value _ rfl)
  | uuid tag =>
    have htag : tag.val.take 16 = tag.val := List.take_of_length_le tag.property.le
    have hput : Emits (put (tag.val.take 16)) ⟨⟩ tag.val := (emits_put _).congr rfl htag
    exact counts_writeSized hput tag.property
  | ipAddress address => exact counts_writeText _ _
  | endpoint protocol address port =>
    exact counts_typeLengthValue (counts_numberText (n := 2) port _ (Nat.add_comm _ _))

/-- Sizes of three parts that are added up count their texts one after the other. -/
theorem counts_three {p q : Sink UInt8 ℕ} {size : ℕ} {front bs bs' : Bytes}
    (hsize : size = front.length) (h : Counts p bs) (h' : Counts q bs') :
    Emits (do let n ← p; let m ← q; return size + n + m) (front ++ bs ++ bs').length
      (bs ++ bs') := by
  rw [List.length_append, List.length_append, ← hsize]
  exact h.bind h'.bind_pure

theorem emits_writeKey (key : Key) {size : ℕ} {front : Bytes} (h : size = front.length) :
    Emits (writeKey ip key size) (front ++ (key.toScalar.write ip).bytes ++
        ((Scalar.op key.kind.makePair).write ip).bytes).length
      ((key.toScalar.write ip).bytes ++ ((Scalar.op key.kind.makePair).write ip).bytes) :=
  counts_three h (counts_writeScalar ip _) (counts_writeScalar ip _)

theorem emits_writeMake (count : ℕ) (code : BitVec 16) {size : ℕ} {front : Bytes}
    (h : size = front.length) :
    Emits (writeMake ip size count code) (front ++ (Cyng.writeMake ip count code).bytes).length
      (Cyng.writeMake ip count code).bytes := by
  rw [Cyng.writeMake, Written.bytes_append, ← List.append_assoc]
  exact counts_three h (counts_writeScalar ip _) (counts_writeScalar ip _)

theorem bytes_writeBuffers (program : List Bytes) :
    (Cyng.writeBuffers ip program).bytes =
      program.flatMap fun buf => ((Scalar.buffer buf).write ip).bytes := by
  induction program with
  | nil => rfl
  | cons buf program ih =>
    rw [Cyng.writeBuffers, Written.bytes_append, ih, List.flatMap_cons]

mutual

/-- Every object tree is counted as it is written. -/
theorem counts_serializeBinary : (o : Obj) →
    Counts (serializeBinary ip o) (Cyng.serializeBinary ip o).bytes
  | .scalar v => counts_writeScalar ip v
  | .pair key value => by
    have hvalue := counts_serializeBinary value
    have hrun := hvalue.bind (emits_writeKey ip key rfl)
    rw [Cyng.serializeBinary, Written.bytes_append, Written.bytes_append]
    rw [← List.append_assoc] at hrun
    exact hrun
  | .map kind entries => by
    have hentries := counts_writePairs 0 entries
    rw [Nat.zero_add] at hentries
    exact hentries.bind (emits_writeMake ip entries.length kind.makeMap rfl)
  | .seq kind items => by
    have hitems := counts_writeItems 0 items
    rw [Nat.zero_add] at hitems
    exact hitems.bind (emits_writeMake ip items.length kind.make rfl)
  | .prg program => by
    have hloop := counts_sumLoop (fun buf : Bytes => counts_writeScalar ip (.buffer buf)) 0 program
    rw [← bytes_writeBuffers, Nat.zero_add] at hloop
    exact hloop.bind (emits_writeMake ip program.length Op.makePrg rfl)

/-- The loop over pairs goes on from the size of what was written before. -/
theorem counts_writePairs (size : ℕ) : (entries : List (Key × Obj)) →
    Emits (writePairs ip size entries) (size + (Cyng.writePairs ip entries).bytes.length)
      (Cyng.writePairs ip entries).bytes
  | [] => emits_pure size
  | (key, value) :: entries => by
    have hvalue := counts_serializeBinary value
    have hkey := emits_writeKey ip key (rfl : (Cyng.serializeBinary ip value).bytes.length = _)
    have hrest := hkey.bind (q := fun m => writePairs ip (size + m) entries)
      (counts_writePairs _ entries)
    have hrun : Emits (writePairs ip size ((key, value) :: entries)) _ _ := hvalue.bind hrest
    refine hrun.congr ?_ ?_
    · simp only [Cyng.writePairs, Written.bytes_append, List.length_append, Nat.add_assoc]
    · simp only [Cyng.writePairs, Written.bytes_append, List.append_assoc]

theorem counts_writeItems (size : ℕ) : (items : List Obj) →
    Emits (writeItems ip size items) (size + (Cyng.writeItems ip items).bytes.length)
      (Cyng.writeItems ip items).bytes
  | [] => emits_pure size
  | item :: items => by
    have hrun : Emits (writeItems ip size (item :: items)) _ _ :=
      (counts_serializeBinary item).bind (counts_writeItems _ items)
    refine hrun.congr ?_ rfl
    rw [Cyng.writeItems, Written.bytes_append, List.length_append, Nat.add_assoc]

end

/-- Nothing is left in the stream, and nothing is missing. -/
theorem readInto_length (stream : Bytes) : readInto stream.length stream = stream := by
  rw [readInto, List.take_length, Nat.sub_self, List.replicate_zero, List.append_nil]

/-- What is returned for an object is the number of bytes that are appended, wherever the stream
is, so that the buffer of `convert_binary` holds the bytes of the object. -/
theorem serializeBinary_counts (o : Obj) :
    (∀ os : Bytes, ∃ written, (serializeBinary ip o).run os = (written.length, os ++ written) ∧
        convertBinary ip o = written) ∧
      convertBinary ip o = (Cyng.serializeBinary ip o).bytes := by
  have hrun := counts_serializeBinary ip o
  have hconvert : convertBinary ip o = (Cyng.serializeBinary ip o).bytes := by
    rw [convertBinary, hrun []]
    exact readInto_length _
  exact ⟨fun os => ⟨_, hrun os, hconvert⟩, hconvert⟩

end Serialize

end Stream

end Cyng
