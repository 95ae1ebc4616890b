import Cyng.Db.Statement
import Cyng.Io.Utf8
import Cyng.Parse.Identifiers

/-!
# Restored objects

Objects that are stored as plain text are made again from the text and the code of their type, by
`restore` or, if the text is kept in a `raw`, by `construct_object`. The writer and the two readers
are tables of their own, and they do not agree everywhere. Unsigned integers are written in
hexadecimal and constructed from decimal. 64 bit integers are restored by way of `int`. No revision
is read, and the quotes around a path are not taken off by one of the readers.
-/

namespace Cyng

open Theory

/-! ### Plain text -/

/-- A UUID, with dashes behind the octets 4, 6, 8 and 10. -/
def uuidToPlain (tag : Uuid) : Bytes := dashed [8, 4, 4, 4] (hexBytes tag.val)

/-- What this library leaves to others: UUIDs are read back from their usual text, and floating
point numbers, times, addresses and the like are written and read by functions not looked at. -/
structure PlainFormats where
  stringGenerator : Bytes → Except Fault Uuid
  stringGenerator_uuidToPlain : ∀ tag, stringGenerator (uuidToPlain tag) = .ok tag
  write : Scalar → Bytes
  restore : TypeCode → Bytes → Except Fault Scalar
  construct : TypeCode → Bytes → Except Fault Scalar

/-- The width of an unsigned number; the smallest ones are not filled up. -/
def plainWidth : IntType → ℕ
  | .uint16 => 4
  | .uint32 => 8
  | .uint64 => 16
  | _ => 0

/-- The serializers of integers. -/
def intToPlain (ty : IntType) (v : BitVec (8 * ty.size)) : Bytes :=
  match ty with
  | .uint8 | .uint16 | .uint32 | .uint64 => hexPad (plainWidth ty) v.toNat
  | .int8 | .int16 | .int32 | .int64 => signedNumeral 10 v.toInt

/-- A double quote. -/
def quoteChar : UInt8 := 0x22

/-- `std::quoted` -/
def quotedText (str : Bytes) : Bytes :=
  quoteChar :: str.flatMap (fun c => if c = quoteChar ∨ c = 0x5C then [0x5C, c] else [c]) ++
    [quoteChar]

/-- `to_plain` -/
def toPlain (f : PlainFormats) : Scalar → Bytes
  | .null => utf8 "null".toList
  | .eod => utf8 "eod".toList
  | .bool v => utf8 (if v then "true".toList else "false".toList)
  | .int ty v => intToPlain ty v
  | .string str => str
  | .fsPath path => quotedText path
  | .buffer buf => bufferToString buf
  | .version full => versionToString full
  | .revision full => revisionToString full
  | .mac48 address => mac48ToString address
  | .mac64 address => mac64ToString address
  | .obis code => obisToString code
  | .obisPath path => obisPathToString path
  | .edis code => edisToString code
  | .digest _ digest => hexBytes digest.val
  | .aesKey _ key => hexBytes key.val
  | .uuid tag => uuidToPlain tag
  | v => f.write v

/-! ### Restoring -/

/-- The cases of unsigned integers. -/
def restoreUnsigned (ty : IntType) (val : Bytes) : Except Fault Scalar :=
  if val = [] then .ok (.int ty 0)
  else do
    let v ← stoull 16 val
    return .int ty (v.setWidth (8 * ty.size))

/-- The cases of integers with a sign. -/
def restoreSigned (ty : IntType) (val : Bytes) : Except Fault Scalar :=
  if val = [] then .ok (.int ty 0)
  else do
    let v ← stoi 10 val
    return .int ty (v.signExtend (8 * ty.size))

section Read

variable (b : Build) (f : PlainFormats)

/-- `restore` -/
def restore (val : Bytes) (code : BitVec 16) : Except Fault Scalar :=
  match TypeCode.ofCode code with
  | some .bool => .ok (.bool (utf8 "true".toList = val))
  | some .uint8 => restoreUnsigned .uint8 val
  | some .uint16 => restoreUnsigned .uint16 val
  | some .uint32 => restoreUnsigned .uint32 val
  | some .uint64 => restoreUnsigned .uint64 val
  | some .int8 => restoreSigned .int8 val
  | some .int16 => restoreSigned .int16 val
  | some .int32 => restoreSigned .int32 val
  | some .int64 => restoreSigned .int64 val
  | some .fsPath => .ok (.fsPath val)
  | some .version => do
    let full ← toVersion val
    return .version full
  | some .revision => do
    let full ← toRevision val
    return .revision full
  | some .buffer => do
    b.check "invalid hex string" (val.length % 2 = 0)
    let buf ← hexToBuffer b val
    return .buffer buf
  | some .mac48 => do
    let address ← toMac48 b val
    return .mac48 address
  | some .mac64 => do
    let address ← toMac64 b val
    return .mac64 address
  | some .uuid =>
    match f.stringGenerator val with
    | .ok tag => .ok (.uuid tag)
    | .error _ => .ok (.string val)
  | some .float => f.restore .float val
  | some .double => f.restore .double val
  | some .float80 => f.restore .float80 val
  | some .microSecond => f.restore .microSecond val
  | some .milliSecond => f.restore .milliSecond val
  | some .second => f.restore .second val
  | some .minute => f.restore .minute val
  | some .hour => f.restore .hour val
  | some .severity => f.restore .severity val
  | some .ipAddress => f.restore .ipAddress val
  -- anything else is kept as it is
  | _ => .ok (.string val)

/-- `to_fs_path`: all quotes are taken out. -/
def toFsPath (str : Bytes) : Bytes := str.filter (· ≠ quoteChar)

/-- The cases of integers, where the base is not named. -/
def constructInt (ty : IntType) (literal : Bytes) : Except Fault Scalar :=
  .ok (.int ty (toNumericText ty 10 literal))

def constructDigest (ty : DigestType) (literal : Bytes) : Except Fault Scalar := do
  let digest ← toDigest b ty.size literal
  return .digest ty digest

def constructAesKey (ty : AesType) (literal : Bytes) : Except Fault Scalar := do
  let key ← toAesKey b ty.bytes literal
  return .aesKey ty key

/-- `construct_object` -/
def constructObject (literal : Bytes) (code : BitVec 16) : Except Fault Scalar :=
  match TypeCode.ofCode code with
  | some .bool => .ok (.bool (literal = utf8 "true".toList))
  | some .uint8 => constructInt .uint8 literal
  | some .uint16 => constructInt .uint16 literal
  | some .uint32 => constructInt .uint32 literal
  | some .uint64 => constructInt .uint64 literal
  | some .int8 => constructInt .int8 literal
  | some .int16 => constructInt .int16 literal
  | some .int32 => constructInt .int32 literal
  | some .int64 => constructInt .int64 literal
  | some .string => .ok (.string literal)
  | some .fsPath => .ok (.fsPath (toFsPath literal))
  | some .buffer => do
    let buf ← hexToBuffer b literal
    return .buffer buf
  | some .version => do
    let full ← toVersion literal
    return .version full
  | some .revision => do
    let full ← toRevision literal
    return .revision full
  | some .mac48 => do
    let address ← toMac48 b literal
    return .mac48 address
  | some .mac64 => do
    let address ← toMac64 b literal
    return .mac64 address
  | some .obis => do
    let code ← toObis b literal
    return .obis code
  | some .obisPath => do
    let path ← toObisPath b literal
    return .obisPath path
  | some .edis => .ok (.edis (toEdis literal))
  | some .digestMd5 => constructDigest b .md5 literal
  | some .digestSha1 => constructDigest b .sha1 literal
  | some .digestSha256 => constructDigest b .sha256 literal
  | some .digestSha512 => constructDigest b .sha512 literal
  | some .aes128 => constructAesKey b .aes128 literal
  | some .aes192 => constructAesKey b .aes192 literal
  | some .aes256 => constructAesKey b .aes256 literal
  | some .raw => .ok (.raw literal code)
  | some .uuid =>
    match f.stringGenerator literal with
    | .ok tag => .ok (.uuid tag)
    | .error _ => .ok (.uuid nilUuid)
  | some .eod => .ok .eod
  | some .float => f.construct .float literal
  | some .double => f.construct .double literal
  | some .float80 => f.construct .float80 literal
  | some .timePoint => f.construct .timePoint literal
  | some .nanoSecond => f.construct .nanoSecond literal
  | some .microSecond => f.construct .microSecond literal
  | some .milliSecond => f.construct .milliSecond literal
  | some .second => f.construct .second literal
  | some .minute => f.construct .minute literal
  | some .hour => f.construct .hour literal
  | some .op => f.construct .op literal
  | some .pid => f.construct .pid literal
  | some .color8 => f.construct .color8 literal
  | some .color16 => f.construct .color16 literal
  | some .ipAddress => f.construct .ipAddress literal
  | some .ipTcpEndpoint => f.construct .ipTcpEndpoint literal
  | some .ipUdpEndpoint => f.construct .ipUdpEndpoint literal
  | some .ipIcmpEndpoint => f.construct .ipIcmpEndpoint literal
  -- no literal, or nothing that can be made
  | _ => .ok .null

end Read

/-! ### Integers -/

section Unsigned

variable (ty : IntType) (v : BitVec (8 * ty.size))

theorem bits_le (ty : IntType) : 8 * ty.size ≤ 64 := by cases ty <;> decide

theorem toNat_lt_two_pow : v.toNat < 2 ^ 64 :=
  Nat.lt_of_lt_of_le v.isLt (Nat.pow_le_pow_right (by decide) (bits_le ty))

/-- Unsigned integers are restored. -/
theorem restoreUnsigned_hexPad (w : ℕ) :
    restoreUnsigned ty (hexPad w v.toNat) = .ok (.int ty v) := by
  have hscan : stoull 16 (hexPad w v.toNat) = .ok (BitVec.ofNat 64 v.toNat) :=
    stoull_of_scan (scan_hexPad w v.toNat) (toNat_lt_two_pow ty v)
  rw [restoreUnsigned, if_neg (hexPad_ne_nil w v.toNat), hscan, ok_bind,
    setWidth_ofNat_toNat (bits_le ty)]
  rfl

/-- The types whose text is hexadecimal. -/
def IntType.IsUnsigned : IntType → Prop
  | .uint8 | .uint16 | .uint32 | .uint64 => True
  | _ => False

theorem stringPolicy_of_isUnsigned {ty : IntType} (h : ty.IsUnsigned) (str : Bytes) :
    stringPolicy ty 10 str = stoull 10 str := by
  cases ty <;> first | rfl | cases h

/-- Hexadecimal text is constructed as it was written if one digit below ten is enough. -/
theorem toNumericText_hexPad {ty : IntType} (h : ty.IsUnsigned) (v : BitVec (8 * ty.size)) (w : ℕ) :
    toNumericText ty 10 (hexPad w v.toNat) = v ↔ v.toNat < 10 := by
  rcases scan_ten_hexPad w v.toNat with ⟨hscan, hle⟩ | ⟨m, hscan, hm, hiff⟩
  · have hzero : toNumericText ty 10 (hexPad w v.toNat) = 0 := by
      simp [toNumericText, stringPolicy_of_isUnsigned h, stoull, hscan]
    rw [hzero]
    constructor
    · rintro rfl
      simp at hle
    · intro hlt
      exact absurd hle (Nat.not_le.mpr hlt)
  · have hstoull := stoull_of_scan hscan (Nat.lt_of_le_of_lt hm (toNat_lt_two_pow ty v))
    have hvalue : toNumericText ty 10 (hexPad w v.toNat) = BitVec.ofNat (8 * ty.size) m := by
      simp only [toNumericText, stringPolicy_of_isUnsigned h, hstoull]
      exact BitVec.setWidth_ofNat_of_le (bits_le ty) m
    rw [hvalue, ← hiff, ← BitVec.toNat_inj, BitVec.toNat_ofNat,
      Nat.mod_eq_of_lt (Nat.lt_of_le_of_lt hm v.isLt)]

end Unsigned

section Signed

variable {ty : IntType} (v : BitVec (8 * ty.size))

/-- The value is one of an `int`. -/
def FitsInt (n : ℤ) : Prop := -2 ^ 31 ≤ n ∧ n < 2 ^ 31

instance (n : ℤ) : Decidable (FitsInt n) := inferInstanceAs (Decidable (_ ∧ _))

theorem stoi_signedNumeral (n : ℤ) :
    stoi 10 (signedNumeral 10 n) =
      if FitsInt n then .ok (BitVec.ofInt 32 n) else .error (.exception "std::out_of_range") :=
  stoSigned_signedNumeral 32 n

theorem signedNumeral_ne_nil (n : ℤ) : signedNumeral 10 n ≠ [] := by
  rw [signedNumeral]
  split
  · exact List.cons_ne_nil _ _
  · exact numeral_ne_nil

theorem toInt_ofInt_of_fitsInt {n : ℤ} (h : FitsInt n) : (BitVec.ofInt 32 n).toInt = n :=
  BitVec.toInt_ofInt_eq_self (by decide) h.1 h.2

/-- Integers with a sign are restored if they are values of an `int`. -/
theorem restoreSigned_signedNumeral :
    restoreSigned ty (signedNumeral 10 v.toInt) = .ok (.int ty v) ↔ FitsInt v.toInt := by
  rw [restoreSigned, if_neg (signedNumeral_ne_nil v.toInt), stoi_signedNumeral]
  by_cases hfits : FitsInt v.toInt
  · rw [if_pos hfits, ok_bind, BitVec.signExtend, toInt_ofInt_of_fitsInt hfits,
      BitVec.ofInt_toInt]
    exact iff_of_true rfl hfits
  · rw [if_neg hfits, error_bind]
    exact iff_of_false (fun heq => by cases heq) hfits

/-- A narrow type has only values of the wider ones. -/
theorem toInt_bounds {k : ℕ} (h : 8 * ty.size ≤ k) :
    -2 ^ (k - 1) ≤ v.toInt ∧ v.toInt < 2 ^ (k - 1) := by
  have hlow := BitVec.le_toInt v
  have hhigh := BitVec.toInt_lt (x := v)
  have hpow : (2 : ℤ) ^ (8 * ty.size - 1) ≤ 2 ^ (k - 1) :=
    pow_le_pow_right₀ (by decide) (Nat.sub_le_sub_right h 1)
  exact ⟨by linarith, by linarith⟩

theorem fitsInt_of_le (h : 8 * ty.size ≤ 32) : FitsInt v.toInt := toInt_bounds v h

/-- A value that is made wider is found again in the lower bits. -/
theorem setWidth_ofInt_of_le {w k : ℕ} (h : w ≤ k) (x : BitVec w) :
    (BitVec.ofInt k x.toInt).setWidth w = x := by
  have hext : BitVec.ofInt k x.toInt = x.signExtend k := rfl
  rw [hext]
  ext i hi
  have hi' : i < k := Nat.lt_of_lt_of_le hi h
  rw [BitVec.getElem_setWidth, BitVec.getLsbD_signExtend, decide_eq_true hi', if_pos hi,
    Bool.true_and, BitVec.getLsbD_eq_getElem hi]

theorem setWidth_ofInt_toInt : (BitVec.ofInt 64 v.toInt).setWidth (8 * ty.size) = v :=
  setWidth_ofInt_of_le (bits_le ty) v

theorem stoSigned_toInt :
    stoSigned 64 10 (signedNumeral 10 v.toInt) = .ok (BitVec.ofInt 64 v.toInt) := by
  rw [stoSigned_signedNumeral, if_pos (toInt_bounds v (bits_le ty))]

theorem stringPolicy_signedNumeral (h : ¬ty.IsUnsigned) :
    stringPolicy ty 10 (signedNumeral 10 v.toInt) = .ok (BitVec.ofInt 64 v.toInt) := by
  -- the small types go by way of an `int`
  have hsmall (hle : 8 * ty.size ≤ 32) :
      (do let r ← stoi 10 (signedNumeral 10 v.toInt); return r.signExtend 64) =
        (.ok (BitVec.ofInt 64 v.toInt) : Except Fault (BitVec 64)) := by
    have hfits := fitsInt_of_le v hle
    rw [stoi_signedNumeral, if_pos hfits, ok_bind, BitVec.signExtend,
      toInt_ofInt_of_fitsInt hfits, pure_eq_ok]
  cases ty with
  | int8 => exact hsmall (by decide)
  | int16 => exact hsmall (by decide)
  | int32 => exact stoSigned_toInt v
  | int64 => exact stoSigned_toInt v
  | uint8 | uint16 | uint32 | uint64 => exact absurd trivial h

/-- All integers with a sign are constructed. -/
theorem toNumericText_signedNumeral (h : ¬ty.IsUnsigned) :
    toNumericText ty 10 (signedNumeral 10 v.toInt) = v := by
  rw [toNumericText, stringPolicy_signedNumeral v h]
  exact setWidth_ofInt_toInt v

end Signed

/-! ### Both readers -/

/-- The types in question. -/
def Scalar.IsPlain : Scalar → Prop
  | .bool _ | .int _ _ | .buffer _ | .version _ | .revision _ | .mac48 _ | .mac64 _ | .uuid _
  | .fsPath _ => True
  | _ => False

/-- Both readers make the value again from its text. -/
structure Restored (b : Build) (f : PlainFormats) (v : Scalar) : Prop where
  restore : restore b f (toPlain f v) v.typeCode.code = .ok v
  construct : constructObject b f (toPlain f v) v.typeCode.code = .ok v

/-- The integers that both readers make again. -/
def IntSurvives (ty : IntType) (v : BitVec (8 * ty.size)) : Prop :=
  match ty with
  | .uint8 | .uint16 | .uint32 | .uint64 => v.toNat < 10
  | .int8 | .int16 | .int32 => True
  | .int64 => FitsInt v.toInt

/-- The values that both readers make again. -/
def Scalar.SurvivesText : Scalar → Prop
  | .int ty v => IntSurvives ty v
  | .revision full => full = 0
  | .fsPath _ => False
  | _ => True

section Readers

variable (b : Build) (f : PlainFormats)

section Integers

variable (ty : IntType) (v : BitVec (8 * ty.size))

theorem restore_unsigned (h : ty.IsUnsigned) (val : Bytes) :
    restore b f val ty.typeCode.code = restoreUnsigned ty val := by
  cases ty <;> first | rfl | cases h

theorem restore_signed (h : ¬ty.IsUnsigned) (val : Bytes) :
    restore b f val ty.typeCode.code = restoreSigned ty val := by
  cases ty <;> first | rfl | exact absurd trivial h

theorem constructObject_int (literal : Bytes) :
    constructObject b f literal ty.typeCode.code = constructInt ty literal := by
  cases ty <;> rfl

theorem restored_unsigned_iff {ty : IntType} (h : ty.IsUnsigned) (v : BitVec (8 * ty.size)) :
    Restored b f (.int ty v) ↔ v.toNat < 10 := by
  have htext : toPlain f (.int ty v) = hexPad (plainWidth ty) v.toNat := by
    cases ty <;> first | rfl | cases h
  have hcode : (Scalar.int ty v).typeCode = ty.typeCode := rfl
  constructor
  · intro hrestored
    have hconstruct := hrestored.construct
    rw [htext, hcode, constructObject_int, constructInt] at hconstruct
    injection hconstruct with heq
    injection heq with _ hvalue
    exact (toNumericText_hexPad h v _).mp hvalue
  · intro hlt
    refine ⟨?_, ?_⟩
    · rw [htext, hcode, restore_unsigned b f ty h, restoreUnsigned_hexPad]
    · rw [htext, hcode, constructObject_int, constructInt, (toNumericText_hexPad h v _).mpr hlt]

theorem restored_signed_iff {ty : IntType} (h : ¬ty.IsUnsigned) (v : BitVec (8 * ty.size)) :
    Restored b f (.int ty v) ↔ FitsInt v.toInt := by
  have htext : toPlain f (.int ty v) = signedNumeral 10 v.toInt := by
    cases ty <;> first | rfl | exact absurd trivial h
  have hcode : (Scalar.int ty v).typeCode = ty.typeCode := rfl
  constructor
  · intro hrestored
    have hrestore := hrestored.restore
    rw [htext, hcode, restore_signed b f ty h] at hrestore
    exact (restoreSigned_signedNumeral v).mp hrestore
  · intro hfits
    refine ⟨?_, ?_⟩
    · rw [htext, hcode, restore_signed b f ty h]
      exact (restoreSigned_signedNumeral v).mpr hfits
    · rw [htext, hcode, constructObject_int, constructInt, toNumericText_signedNumeral v h]

theorem restored_int_iff : Restored b f (.int ty v) ↔ IntSurvives ty v := by
  have hunsigned (h : ty.IsUnsigned) := restored_unsigned_iff b f h v
  have hsigned (h : ¬ty.IsUnsigned) := restored_signed_iff b f h v
  have hnarrow (h : ¬ty.IsUnsigned) (hle : 8 * ty.size ≤ 32) : Restored b f (.int ty v) ↔ True :=
    (hsigned h).trans (iff_true_intro (fitsInt_of_le v hle))
  cases ty with
  | uint8 | uint16 | uint32 | uint64 => exact hunsigned trivial
  | int8 | int16 | int32 => exact hnarrow not_false (by decide)
  | int64 => exact hsigned not_false

end Integers

theorem restored_bool (v : Bool) : Restored b f (.bool v) := by
  cases v with
  | false => exact ⟨rfl, rfl⟩
  | true => exact ⟨rfl, rfl⟩

theorem restored_buffer (buf : Bytes) : Restored b f (.buffer buf) := by
  refine ⟨?_, ?_⟩
  · simp [restore, toPlain, bufferToString, Scalar.typeCode, Build.check_of,
      hexToBuffer_hexBytes]
  · simp [constructObject, toPlain, bufferToString, Scalar.typeCode, hexToBuffer_hexBytes]

theorem restored_version (full : BitVec 32) : Restored b f (.version full) := by
  refine ⟨?_, ?_⟩
  · simp [restore, toPlain, Scalar.typeCode, toVersion_versionToString]
  · simp [constructObject, toPlain, Scalar.typeCode, toVersion_versionToString]

theorem restored_mac48 (address : Octets 6) : Restored b f (.mac48 address) := by
  refine ⟨?_, ?_⟩
  · simp [restore, toPlain, Scalar.typeCode, toMac48_mac48ToString]
  · simp [constructObject, toPlain, Scalar.typeCode, toMac48_mac48ToString]

theorem restored_mac64 (address : Mac64) : Restored b f (.mac64 address) := by
  refine ⟨?_, ?_⟩
  · simp [restore, toPlain, Scalar.typeCode, toMac64_mac64ToString]
  · simp [constructObject, toPlain, Scalar.typeCode, toMac64_mac64ToString]

theorem restored_uuid (tag : Uuid) : Restored b f (.uuid tag) := by
  have htag := f.stringGenerator_uuidToPlain tag
  refine ⟨?_, ?_⟩
  · simp [restore, toPlain, Scalar.typeCode, htag]
  · simp [constructObject, toPlain, Scalar.typeCode, htag]

theorem restored_revision_iff (full : BitVec 64) : Restored b f (.revision full) ↔ full = 0 := by
  have hread : restore b f (toPlain f (.revision full)) TypeCode.revision.code =
      .ok (.revision 0) := by
    simp [restore, toPlain, toRevision_revisionToString]
  have hconstruct : constructObject b f (toPlain f (.revision full)) TypeCode.revision.code =
      .ok (.revision 0) := by
    simp [constructObject, toPlain, toRevision_revisionToString]
  constructor
  · intro h
    have hfull := hread.symm.trans h.restore
    injection hfull with heq
    injection heq with hzero
    exact hzero.symm
  · rintro rfl
    exact ⟨hread, hconstruct⟩

theorem length_le_length_escaped (path : Bytes) : path.length ≤
    (path.flatMap fun c => if c = quoteChar ∨ c = 0x5C then [0x5C, c] else [c]).length := by
  induction path with
  | nil => exact Nat.le_refl 0
  | cons c path ih =>
    rw [List.flatMap_cons, List.length_append, List.length_cons]
    split
    · rw [List.length_cons, List.length_singleton]
      omega
    · rw [List.length_singleton]
      omega

theorem length_le_length_quotedText (path : Bytes) :
    path.length < (quotedText path).length := by
  have hinner := length_le_length_escaped path
  rw [quotedText, List.length_append, List.length_cons, List.length_singleton]
  omega

/-- The quotes make the restored path longer than the one that was written. -/
theorem not_restored_fsPath (path : Bytes) : ¬Restored b f (.fsPath path) := by
  intro h
  have hread : restore b f (toPlain f (.fsPath path)) TypeCode.fsPath.code =
      .ok (.fsPath (quotedText path)) := rfl
  have hpath : (.ok (.fsPath (quotedText path)) : Except Fault Scalar) = .ok (.fsPath path) :=
    hread.symm.trans h.restore
  injection hpath with heq
  injection heq with hquoted
  exact absurd (congrArg List.length hquoted) (length_le_length_quotedText path).ne'

/-- Objects are made again from their text, but for unsigned integers of more than one decimal
digit, wide integers outside of an `int`, revisions other than zero, and paths. -/
theorem restored_iff {v : Scalar} (h : v.IsPlain) : Restored b f v ↔ v.SurvivesText := by
  cases v with
  | bool v => exact iff_of_true (restored_bool b f v) trivial
  | int ty v => exact restored_int_iff b f ty v
  | buffer buf => exact iff_of_true (restored_buffer b f buf) trivial
  | version full => exact iff_of_true (restored_version b f full) trivial
  | revision full => exact restored_revision_iff b f full
  | mac48 address => exact iff_of_true (restored_mac48 b f address) trivial
  | mac64 address => exact iff_of_true (restored_mac64 b f address) trivial
  | uuid tag => exact iff_of_true (restored_uuid b f tag) trivial
  | fsPath path => exact iff_of_false (not_restored_fsPath b f path) not_false
  | _ => cases h

end Readers

/-- UUIDs read by leaving out the dashes, for runs without the other types. -/
def PlainFormats.uuids : PlainFormats where
  stringGenerator := Formats.uuids.stringGenerator
  stringGenerator_uuidToPlain := Formats.uuids.stringGenerator_uuidToString
  write _ := []
  restore _ _ := .ok .null
  construct _ _ := .ok .null

/-- A version is made again. -/
theorem restored_version_one : Restored .debug .uuids (.version 0x00020001) := by
  have hplain : (Scalar.version 0x00020001).IsPlain := trivial
  exact (restored_iff .debug .uuids hplain).mpr trivial

/-- The text of the octet 16 is `10`, which is read as ten. -/
theorem not_restored_uint8 : ¬Restored .debug .uuids (.int .uint8 0x10) := by
  intro h
  have hread : constructObject .debug .uuids (toPlain .uuids (.int .uint8 0x10))
      TypeCode.uint8.code = .ok (.int .uint8 0x0A) := rfl
  have hsame := hread.symm.trans h.construct
  injection hsame with heq
  exact absurd heq (by decide)

end Cyng
