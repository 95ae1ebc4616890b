import Cyng.Db.Statement

/-!
# Rows of results

A column is read as the type that the caller names; nothing in the database says which type was
bound. A value comes back as it was bound where the reader undoes what the binder did. It does
not for 64 bit integers with a sign, which come back without one, for unsigned integers with the
top bit set, nanoseconds that need more than 32 bits, empty buffers, and texts and buffers
whose length does not fit an `int`. With assertions, the code of all ones and short addresses
fail as well.
-/

namespace Cyng

open Theory

/-! ### Conversions -/

namespace IntType

/-- The least value of a type. -/
def min (ty : IntType) : ℤ :=
  match ty with
  | .uint8 | .uint16 | .uint32 | .uint64 => 0
  | .int8 | .int16 | .int32 | .int64 => -2 ^ (8 * ty.size - 1)

/-- The greatest value of a type. -/
def max (ty : IntType) : ℤ :=
  match ty with
  | .uint8 | .uint16 | .uint32 | .uint64 => 2 ^ (8 * ty.size) - 1
  | .int8 | .int16 | .int32 | .int64 => 2 ^ (8 * ty.size - 1) - 1

/-- `boost::numeric::converter`, with zero in place of the exception. -/
def convert (ty : IntType) (n : ℤ) : BitVec (8 * ty.size) :=
  if ty.min ≤ n ∧ n ≤ ty.max then BitVec.ofInt _ n else 0

end IntType

/-- `make_obis(std::uint64_t)`: the lower six bytes. -/
def makeObisOfUint64 (n : BitVec 64) : Obis :=
  ⟨(toBE 8 n.toNat).drop 2, by simp⟩

/-- `to_uuid` -/
def toUuid (f : Formats) (str : Bytes) : Uuid :=
  match f.stringGenerator str with
  | .ok tag => tag
  | .error _ => nilUuid

/-- The default address. -/
def Address.unspecified : Address := .v4 (Octets.zero 4)

/-- `to_ip_address` -/
def toIpAddress (f : Formats) (str : Bytes) : Address :=
  match f.ip.makeAddress str with
  | .ok address => address
  | .error _ => .unspecified

section Read

variable (f : Formats) (sq : Sqlite) (b : Build)

/-- A reader of texts; NULL has none. -/
def withText (c : Cell) (onNull : Scalar) (read : Bytes → Except Fault Scalar) :
    Except Fault Scalar :=
  match sq.columnText c with
  | some str => read str
  | none => .ok onNull

/-- A reader of integers that an `int` holds. -/
def getInt (c : Cell) (ty : IntType) : Scalar := .int ty (ty.convert (sq.columnInt c).toInt)

def getDigest (c : Cell) (ty : DigestType) (text : String) : Except Fault Scalar :=
  withText sq c .null fun str => do
    b.check text (str.length = ty.size * 2)
    let digest ← toDigest b ty.size str
    return .digest ty digest

def getAesKey (c : Cell) (ty : AesType) (text : String) : Except Fault Scalar :=
  withText sq c .null fun str => do
    b.check text (str.length = ty.bytes * 8 / 4)
    let key ← toAesKey b ty.bytes str
    return .aesKey ty key

/-- The instances of `get_value`, under the code of their type. -/
def getValue (c : Cell) : TypeCode → Except Fault Scalar
  | .bool => .ok (.bool (sq.columnInt c = 1))
  | .int8 => .ok (getInt sq c .int8)
  | .uint8 => .ok (getInt sq c .uint8)
  | .int16 => .ok (getInt sq c .int16)
  | .uint16 => .ok (getInt sq c .uint16)
  | .int32 => .ok (getInt sq c .int32)
  | .uint32 => .ok (getInt sq c .uint32)
  -- makes an object of the unsigned type
  | .int64 => .ok (.int .uint64 (sq.columnInt64 c))
  | .uint64 => .ok (.int .uint64 (IntType.uint64.convert (sq.columnInt64 c).toInt))
  | .float => .ok (.float .float (f.ofDouble .float (sq.columnDouble c)))
  | .double => .ok (.float .double (f.ofDouble .double (sq.columnDouble c)))
  | .float80 => .ok (.float .float80 (f.ofDouble .float80 (sq.columnDouble c)))
  | .string => withText sq c .null fun str => .ok (.string str)
  | .timePoint => withText sq c .null fun str => .ok (.timePoint (f.getTime str))
  | .nanoSecond => .ok (.duration .nanoSecond (sq.columnInt64 c))
  | .microSecond => .ok (.duration .microSecond (sq.columnInt64 c))
  | .milliSecond => .ok (.duration .milliSecond (sq.columnInt64 c))
  | .second => .ok (.duration .second (sq.columnInt64 c))
  | .minute => .ok (.duration .minute (sq.columnInt64 c))
  | .hour => .ok (.duration .hour (sq.columnInt64 c))
  | .version => .ok (.version (IntType.uint32.convert (sq.columnInt c).toInt))
  | .revision =>
    if (sq.columnInt64 c).toInt < 0 then .error (.exception "bad_numeric_cast")
    else .ok (.revision (sq.columnInt64 c))
  | .buffer =>
    let blob := sq.columnBlob c
    .ok (if 0 < blob.length then .buffer blob else .null)
  | .mac48 => withText sq c .null fun str => do
    b.check "invalid MAC48 format" (str.length = 17)
    let address ← toMac48 b str
    return .mac48 address
  | .mac64 => withText sq c .null fun str => do
    b.check "invalid MAC64 format" (str.length = 19)
    let address ← toMac64 b str
    return .mac64 address
  | .obis => .ok (.obis (makeObisOfUint64 (sq.columnInt64 c)))
  | .digestMd5 => withText sq c .null fun str => do
    b.check "invalid MD5 format" (str.length = 32)
    b.check "ToDo: implement" False
    return .null
  | .digestSha1 => getDigest sq b c .sha1 "invalid SHA1 format"
  | .digestSha256 => getDigest sq b c .sha256 "invalid SHA256 format"
  | .digestSha512 => getDigest sq b c .sha512 "invalid SHA512 format"
  | .aes128 => getAesKey sq b c .aes128 "invalid AESkey128 format"
  | .aes192 => getAesKey sq b c .aes192 "invalid AESkey192 format"
  | .aes256 => getAesKey sq b c .aes256 "invalid AESkey256 format"
  | .uuid => withText sq c .null fun str =>
    .ok (.uuid (if str.length ≠ 36 then nilUuid else toUuid f str))
  | .fsPath => withText sq c .null fun str => do
    b.check "str.size() < 1024" (str.length < 1024)
    return .fsPath str
  | .ipAddress => withText sq c (.ipAddress .unspecified) fun str => do
    b.check "str.size() > 6" (6 < str.length)
    return .ipAddress (toIpAddress f str)
  | .ipTcpEndpoint => withText sq c (.endpoint .tcp .unspecified 0) fun str => do
    b.check "str.size() > 6" (6 < str.length)
    b.check "ToDo: implement" False
    return .endpoint .tcp .unspecified 0
  -- attribute and parameter maps are not parsed yet, the other types have no reader
  | _ => .ok .null

/-- An exception that the result catches. -/
def recover : Except Fault Scalar → Except Fault Scalar
  | .error (.exception _) => .ok .null
  | r => r

/-- `sqlite_result::get`: columns are counted from one. -/
def get (row : List Cell) (index : ℕ) (code : TypeCode) : Except Fault Scalar := do
  b.check "index out of range" (index ≠ 0)
  match index with
  | 0 => .error (.undefined "sqlite3_column")
  | i + 1 =>
    match row[i]? with
    | none => .error (.undefined "sqlite3_column")
    | some c => recover (getValue f sq b c code)

/-! ### Round trips -/

/-- The values in question: those that are both bound and read under their type. -/
def Stored : Scalar → Prop
  | .bool _ | .int _ _ | .string _ | .duration _ _ | .buffer _ | .mac48 _ | .mac64 _ | .obis _
  | .aesKey _ _ | .uuid _ | .ipAddress _ => True
  | .digest ty _ => ty ≠ .md5
  | .fsPath path => path.length < 1024
  | _ => False

/-- Binding does not fail, and any column that holds what was bound reads as the value. -/
def RoundTrips (s : Statement) (v : Scalar) (columnSize : BitVec 64) : Prop :=
  match s.bind f sq b s.bindCounter (.scalar v) columnSize with
  | .error _ => False
  | .ok (false, _) => True
  | .ok (true, s') => ∀ (row : List Cell) (i : ℕ) c,
    s'.stmt[s.bindCounter - 1]? = some (some c) → row[i]? = some c →
      get f sq b row (i + 1) v.typeCode = .ok v

/-- The values that come back. -/
def Survives : Scalar → Prop
  | .int .int64 _ => False
  | .int .uint32 v => v.toNat < 2 ^ 31
  | .int .uint64 v => v.toNat < 2 ^ 63
  | .duration .nanoSecond ticks => -2 ^ 31 ≤ ticks.toInt ∧ ticks.toInt < 2 ^ 31
  | .string str => str.length < 2 ^ 31
  | .buffer buf => buf ≠ [] ∧ buf.length < 2 ^ 31
  | .obis code => b.enabled "r < 0xFFFFFFFFFFFF" = true → code.val ≠ List.replicate 6 0xFF
  | .ipAddress address => b.enabled "str.size() > 6" = true → 6 < (f.ip.toString address).length
  | _ => True

/-- What a value is bound to reads as the value. -/
def Reads (v : Scalar) : Prop :=
  ∃ c, bindValue f sq b v = .ok (some c) ∧ recover (getValue f sq b c v.typeCode) = .ok v

end Read

section RoundTrip

variable {f : Formats} {sq : Sqlite} {b : Build} {s : Statement} {v : Scalar}
  {columnSize : BitVec 64}

theorem get_of_column {row : List Cell} {i : ℕ} {c : Cell} {code : TypeCode}
    (h : row[i]? = some c) :
    get f sq b row (i + 1) code = recover (getValue f sq b c code) := by
  simp [get, Build.check_of, h]

/-- NULL is not one of the values in question. -/
theorem bind_of_stored (stored : Stored v) :
    s.bind f sq b s.bindCounter (.scalar v) columnSize =
      (bindValue f sq b v >>= fun c => .ok ((s.hold (.scalar v)).put s.bindCounter c)) := by
  have hobj : Obj.scalar v ≠ .scalar .null := by
    intro h
    rw [Obj.scalar.inj h] at stored
    exact stored
  have hcell : cellOf f sq b (.scalar v) = bindValue f sq b v := by
    unfold cellOf
    split
    · next h => exact absurd h hobj
    · next h => rw [Obj.scalar.inj h]
    · next h => exact absurd rfl (h v)
  rw [Statement.bind_of_ne_null _ hobj, hcell]

/-- Whether a value comes back is decided by its binder and its reader. -/
theorem roundTrips_iff_reads (stored : Stored v)
    (taken : ∀ s', s.bind f sq b s.bindCounter (.scalar v) columnSize ≠ .ok (false, s')) :
    RoundTrips f sq b s v columnSize ↔ Reads f sq b v := by
  unfold RoundTrips
  rw [bind_of_stored stored] at taken ⊢
  cases hbind : bindValue f sq b v with
  | error e => simp [Reads, hbind]
  | ok c =>
    simp only [hbind, ok_bind] at taken ⊢
    cases c with
    | none => exact absurd rfl (taken _)
    | some c =>
      cases hput : Sqlite.put s.stmt s.bindCounter c with
      | none => exact absurd (by simp [Statement.put, hput]) (taken (s.hold (.scalar v)))
      | some stmt =>
        obtain ⟨⟨hlow, hhigh⟩, rfl⟩ := Sqlite.put_eq_some_iff.mp hput
        -- the cell is put into the slot from which it is read
        have hslot : s.bindCounter - 1 < s.stmt.length := by omega
        simp only [Statement.put, Statement.hold_stmt, Option.bind_some, hput, Int.toNat_natCast,
          List.getElem?_set_self hslot]
        constructor
        · intro hall
          have hread := hall [c] 0 c rfl rfl
          rw [get_of_column rfl] at hread
          exact ⟨c, hbind, hread⟩
        · rintro ⟨c', hbind', hread⟩ row i c'' hcell' hrow
          obtain rfl : c = c'' := by simpa using hcell'
          obtain rfl : c = c' := Option.some.inj (Except.ok.inj (hbind.symm.trans hbind'))
          rw [get_of_column hrow, hread]

/-! ### Integers -/

theorem columnInt_bindInt (n : BitVec 32) : sq.columnInt (Sqlite.bindInt n) = n := by
  change (n.signExtend 64).setWidth 32 = n
  apply BitVec.eq_of_getLsbD_eq
  intro i hi
  have hwide : i < 64 := by omega
  simp only [BitVec.getLsbD_setWidth, BitVec.getLsbD_signExtend, hi, hwide, decide_true,
    Bool.true_and, if_true]

theorem convert_of_mem {ty : IntType} {n : ℤ} (hmin : ty.min ≤ n) (hmax : n ≤ ty.max) :
    ty.convert n = BitVec.ofInt _ n := if_pos ⟨hmin, hmax⟩

/-- The values of a signed type are in its range. -/
theorem convert_toInt {ty : IntType} (hmin : ty.min = -2 ^ (8 * ty.size - 1))
    (hmax : ty.max = 2 ^ (8 * ty.size - 1) - 1) (v : BitVec (8 * ty.size)) :
    ty.convert v.toInt = v := by
  have hlow := BitVec.le_toInt v
  have hhigh : v.toInt < 2 ^ (8 * ty.size - 1) := BitVec.toInt_lt
  rw [convert_of_mem (hmin ▸ hlow) (hmax ▸ Int.le_sub_one_of_lt hhigh), BitVec.ofInt_toInt]

/-- The values of an unsigned type are in its range. -/
theorem convert_toNat {ty : IntType} (hmin : ty.min = 0) (hmax : ty.max = 2 ^ (8 * ty.size) - 1)
    (v : BitVec (8 * ty.size)) : ty.convert v.toNat = v := by
  have hhigh : (v.toNat : ℤ) < 2 ^ (8 * ty.size) := by exact_mod_cast v.isLt
  rw [convert_of_mem (hmin ▸ Int.natCast_nonneg _) (hmax ▸ Int.le_sub_one_of_lt hhigh),
    BitVec.ofInt_natCast, BitVec.ofNat_toNat, BitVec.setWidth_eq]

/-- A negative number is not in the range of an unsigned type. -/
theorem convert_of_neg {ty : IntType} {n : ℤ} (hmin : ty.min = 0) (h : n < 0) :
    ty.convert n = 0 := by
  have hnot : ¬ (ty.min ≤ n ∧ n ≤ ty.max) := by
    rw [hmin]
    omega
  exact if_neg hnot

/-- Half of an unsigned type is in the range of the signed type of the same width. -/
theorem convert_toInt_eq_iff {ty : IntType} (hmin : ty.min = 0)
    (hmax : ty.max = 2 ^ (8 * ty.size) - 1) (v : BitVec (8 * ty.size)) :
    ty.convert v.toInt = v ↔ 2 * v.toNat < 2 ^ (8 * ty.size) := by
  have hint := BitVec.toInt_eq_toNat_cond v
  constructor
  · intro h
    by_contra hnot
    rw [if_neg hnot] at hint
    have hlt : (v.toNat : ℤ) < 2 ^ (8 * ty.size) := by exact_mod_cast v.isLt
    have hneg : v.toInt < 0 := by
      rw [hint]
      push_cast
      omega
    rw [convert_of_neg hmin hneg] at h
    rw [← h] at hnot
    exact hnot (by simp)
  · intro h
    rw [if_pos h] at hint
    rw [hint]
    exact convert_toNat hmin hmax v

section Ints

variable {ty : IntType}

theorem getInt_signed (hsize : 8 * ty.size ≤ 32) (hmin : ty.min = -2 ^ (8 * ty.size - 1))
    (hmax : ty.max = 2 ^ (8 * ty.size - 1) - 1) (v : BitVec (8 * ty.size)) :
    getInt sq (Sqlite.bindInt (v.signExtend 32)) ty = .int ty v := by
  rw [getInt, columnInt_bindInt, BitVec.toInt_signExtend_of_le hsize, convert_toInt hmin hmax]

theorem getInt_unsigned (hsize : 8 * ty.size < 32) (hmin : ty.min = 0)
    (hmax : ty.max = 2 ^ (8 * ty.size) - 1) (v : BitVec (8 * ty.size)) :
    getInt sq (Sqlite.bindInt (v.setWidth 32)) ty = .int ty v := by
  have hpow : 2 * 2 ^ (8 * ty.size) ≤ 2 ^ 32 := by
    rw [← pow_succ']
    exact Nat.pow_le_pow_right (by decide) hsize
  have hlt := v.isLt
  have hwide : (v.setWidth 32).toNat = v.toNat := by
    rw [BitVec.toNat_setWidth, Nat.mod_eq_of_lt (by omega)]
  have hint : (v.setWidth 32).toInt = v.toNat := by
    rw [BitVec.toInt_eq_toNat_of_lt (by omega), hwide]
  rw [getInt, columnInt_bindInt, hint, convert_toNat hmin hmax]

end Ints

theorem reads_of_bind {c : Cell} (h : bindValue f sq b v = .ok (some c)) :
    Reads f sq b v ↔ recover (getValue f sq b c v.typeCode) = .ok v := by
  constructor
  · rintro ⟨c', hbind, hread⟩
    obtain rfl : c = c' := Option.some.inj (Except.ok.inj (h.symm.trans hbind))
    exact hread
  · exact fun hread => ⟨c, h, hread⟩

theorem reads_int {ty : IntType} {v : BitVec (8 * ty.size)} :
    Reads f sq b (.int ty v) ↔ Survives f b (.int ty v) := by
  cases ty with
  | int8 =>
    have hget : getInt sq (Sqlite.bindInt (v.signExtend 32)) .int8 = .int .int8 v :=
      getInt_signed (by decide) rfl rfl v
    exact iff_of_true ⟨_, rfl, congrArg Except.ok hget⟩ trivial
  | int16 =>
    have hget : getInt sq (Sqlite.bindInt (v.signExtend 32)) .int16 = .int .int16 v :=
      getInt_signed (by decide) rfl rfl v
    exact iff_of_true ⟨_, rfl, congrArg Except.ok hget⟩ trivial
  | int32 =>
    have hget : getInt sq (Sqlite.bindInt (v.signExtend 32)) .int32 = .int .int32 v :=
      getInt_signed (by decide) rfl rfl v
    exact iff_of_true ⟨_, rfl, congrArg Except.ok hget⟩ trivial
  | uint8 =>
    have hget : getInt sq (Sqlite.bindInt (v.setWidth 32)) .uint8 = .int .uint8 v :=
      getInt_unsigned (by decide) rfl rfl v
    exact iff_of_true ⟨_, rfl, congrArg Except.ok hget⟩ trivial
  | uint16 =>
    have hget : getInt sq (Sqlite.bindInt (v.setWidth 32)) .uint16 = .int .uint16 v :=
      getInt_unsigned (by decide) rfl rfl v
    exact iff_of_true ⟨_, rfl, congrArg Except.ok hget⟩ trivial
  | uint32 =>
    -- bound as a negative number from the half of the range on
    have hcolumn : sq.columnInt (Sqlite.bindInt (v.setWidth 32)) = v :=
      (columnInt_bindInt _).trans (BitVec.setWidth_eq v)
    have hrange : IntType.uint32.convert v.toInt = v ↔ 2 * v.toNat < 2 ^ 32 :=
      convert_toInt_eq_iff rfl rfl v
    have hread : recover (getValue f sq b (Sqlite.bindInt (v.setWidth 32)) .uint32) =
        .ok (.int .uint32 (IntType.uint32.convert v.toInt)) := by
      change Except.ok (getInt sq _ .uint32) = _
      rw [getInt, hcolumn]
      rfl
    have hhalf : Survives f b (.int .uint32 v) ↔ 2 * v.toNat < 2 ^ 32 := by
      change v.toNat < 2 ^ 31 ↔ _
      omega
    rw [reads_of_bind rfl, hhalf, ← hrange]
    refine (Eq.congr_left hread).trans ?_
    simp
  | int64 =>
    rw [reads_of_bind rfl]
    -- there is no case for this type when the column is read
    exact iff_of_false (fun h => by cases Except.ok.inj h) id
  | uint64 =>
    have hrange : IntType.uint64.convert v.toInt = v ↔ 2 * v.toNat < 2 ^ 64 :=
      convert_toInt_eq_iff rfl rfl v
    have hhalf : Survives f b (.int .uint64 v) ↔ 2 * v.toNat < 2 ^ 64 := by
      change v.toNat < 2 ^ 63 ↔ _
      omega
    rw [reads_of_bind rfl, hhalf, ← hrange]
    change Except.ok (Scalar.int .uint64 (IntType.uint64.convert v.toInt)) = _ ↔ _
    simp

theorem reads_bool {v : Bool} : Reads f sq b (.bool v) := by
  refine ⟨_, rfl, ?_⟩
  change Except.ok (Scalar.bool (sq.columnInt (Sqlite.bindInt (if v then 1 else 0)) = 1)) = _
  rw [columnInt_bindInt]
  cases v <;> rfl

/-- Nanoseconds are bound as an `int`, all other durations as they are. -/
theorem reads_duration {unit : DurationUnit} {ticks : BitVec 64} :
    Reads f sq b (.duration unit ticks) ↔ Survives f b (.duration unit ticks) := by
  cases unit with
  | microSecond | milliSecond | second | minute | hour => exact iff_of_true ⟨_, rfl, rfl⟩ trivial
  | nanoSecond =>
    have hwide : ((ticks.setWidth 32).signExtend 64).toInt = Int.bmod ticks.toNat (2 ^ 32) := by
      rw [BitVec.toInt_signExtend_of_le (by decide), BitVec.toInt_setWidth]
    have hint : ticks.toInt = Int.bmod ticks.toNat (2 ^ 64) := BitVec.toInt_eq_toNat_bmod ticks
    have hsame : (ticks.setWidth 32).signExtend 64 = ticks ↔
        Int.bmod ticks.toNat (2 ^ 32) = Int.bmod ticks.toNat (2 ^ 64) := by
      rw [← hwide, ← hint, BitVec.toInt_inj]
    rw [reads_of_bind rfl]
    change Except.ok (Scalar.duration .nanoSecond ((ticks.setWidth 32).signExtend 64)) =
      .ok (Scalar.duration .nanoSecond ticks) ↔ -2 ^ 31 ≤ ticks.toInt ∧ ticks.toInt < 2 ^ 31
    rw [Except.ok.injEq, Scalar.duration.injEq, hsame, hint]
    have hlt := ticks.isLt
    simp only [true_and, Int.bmod_def]
    omega

/-! ### Texts -/

theorem bindString_of_taken {str : Bytes} (h : str.length < 2 ^ 31)
    (taken : bindString sq str ≠ .ok none) : bindString sq str = .ok (some (.text str)) := by
  unfold bindString at taken ⊢
  rw [Sqlite.bindText_of_lt h] at taken ⊢
  split_ifs at taken ⊢ with hle
  · rfl
  · exact absurd rfl taken

/-- A text that its reader takes for the value. -/
theorem reads_text {str : Bytes} (hbind : bindValue f sq b v = bindString sq str)
    (hlt : str.length < 2 ^ 31) (taken : bindValue f sq b v ≠ .ok none)
    (hread : recover (getValue f sq b (.text str) v.typeCode) = .ok v) : Reads f sq b v := by
  rw [hbind] at taken
  exact ⟨_, hbind.trans (bindString_of_taken hlt taken), hread⟩

theorem reads_string {str : Bytes} (taken : bindValue f sq b (.string str) ≠ .ok none) :
    Reads f sq b (.string str) ↔ Survives f b (.string str) := by
  constructor
  · rintro ⟨c, hbind, hread⟩
    obtain ⟨text, rfl, hlt⟩ := Sqlite.length_of_bindText (Except.ok.inj hbind)
    obtain rfl : text = str := Scalar.string.inj (Except.ok.inj hread)
    exact hlt
  · exact fun hlt => reads_text rfl hlt taken rfl

theorem reads_buffer {buf : Bytes} (taken : bindValue f sq b (.buffer buf) ≠ .ok none) :
    Reads f sq b (.buffer buf) ↔ Survives f b (.buffer buf) := by
  have hread (blob : Bytes) : recover (getValue f sq b (.blob blob) .buffer) =
      .ok (if 0 < blob.length then .buffer blob else .null) := rfl
  constructor
  · rintro ⟨c, hbind, hget⟩
    obtain ⟨blob, rfl, hlt⟩ := Sqlite.length_of_bindBlob hbind
    have hvalue := Except.ok.inj ((hread blob).symm.trans hget)
    split_ifs at hvalue with hpos
    obtain rfl : blob = buf := Scalar.buffer.inj hvalue
    exact ⟨List.length_pos_iff.mp hpos, hlt⟩
  · rintro ⟨hne, hlt⟩
    have hbind : bindValue f sq b (.buffer buf) =
        .ok (if buf.length ≤ sq.maxLength then some (.blob buf) else none) :=
      Sqlite.bindBlob_of_lt hlt
    rw [hbind] at taken
    split_ifs at hbind taken with hle
    · refine ⟨_, hbind, (hread buf).trans ?_⟩
      rw [if_pos (List.length_pos_iff.mpr hne)]
    · exact absurd rfl taken

theorem reads_mac48 {address : Octets 6}
    (taken : bindValue f sq b (.mac48 address) ≠ .ok none) : Reads f sq b (.mac48 address) := by
  have hlength := length_mac48ToString address
  refine reads_text rfl (by omega) taken ?_
  simp [Scalar.typeCode, getValue, withText, Sqlite.columnText, Build.check_of, hlength,
    toMac48_mac48ToString, recover]

theorem reads_mac64 {address : Mac64} (taken : bindValue f sq b (.mac64 address) ≠ .ok none) :
    Reads f sq b (.mac64 address) := by
  have hlength := length_mac64ToString address
  refine reads_text rfl (by omega) taken ?_
  simp [Scalar.typeCode, getValue, withText, Sqlite.columnText, Build.check_of, hlength,
    toMac64_mac64ToString, recover]

theorem reads_digest {ty : DigestType} {digest : Octets ty.size} (hty : ty ≠ .md5)
    (taken : bindValue f sq b (.digest ty digest) ≠ .ok none) :
    Reads f sq b (.digest ty digest) := by
  have hlength : (hexBytes digest.val).length = ty.size * 2 := by
    rw [length_hexBytes, digest.property, Nat.mul_comm]
  have hread (text : String) : getDigest sq b (.text (hexBytes digest.val)) ty text =
      .ok (.digest ty digest) := by
    simp [getDigest, withText, Sqlite.columnText, Build.check_of, hlength, toDigest_hexBytes]
  cases ty with
  | md5 => exact absurd rfl hty
  | sha1 | sha256 | sha512 =>
    refine reads_text rfl (by rw [hlength]; decide) taken ?_
    exact congrArg recover (hread _)

theorem reads_aesKey {ty : AesType} {key : Octets ty.bytes}
    (taken : bindValue f sq b (.aesKey ty key) ≠ .ok none) : Reads f sq b (.aesKey ty key) := by
  have hlength : (hexBytes key.val).length = ty.bytes * 8 / 4 := by
    rw [length_hexBytes, key.property]
    omega
  have hread (text : String) : getAesKey sq b (.text (hexBytes key.val)) ty text =
      .ok (.aesKey ty key) := by
    simp [getAesKey, withText, Sqlite.columnText, Build.check_of, hlength, toAesKey_hexBytes]
  cases ty with
  | aes128 | aes192 | aes256 =>
    refine reads_text rfl (by rw [hlength]; decide) taken ?_
    exact congrArg recover (hread _)

theorem reads_uuid {tag : Uuid} (taken : bindValue f sq b (.uuid tag) ≠ .ok none) :
    Reads f sq b (.uuid tag) := by
  have hlength := f.length_uuidToString tag
  refine reads_text rfl (by omega) taken ?_
  simp [Scalar.typeCode, getValue, withText, Sqlite.columnText, hlength, toUuid,
    f.stringGenerator_uuidToString, recover]

theorem reads_fsPath {path : Bytes} (hlength : path.length < 1024)
    (taken : bindValue f sq b (.fsPath path) ≠ .ok none) : Reads f sq b (.fsPath path) := by
  refine reads_text rfl (by omega) taken ?_
  simp [Scalar.typeCode, getValue, withText, Sqlite.columnText, Build.check_of, hlength, recover]

/-- An address comes back unless its text is short and the assertion is compiled in. -/
theorem reads_ipAddress {address : Address}
    (taken : bindValue f sq b (.ipAddress address) ≠ .ok none) :
    Reads f sq b (.ipAddress address) ↔ Survives f b (.ipAddress address) := by
  have hlength := f.ip.length_toString address
  have hbind : bindValue f sq b (.ipAddress address) =
      .ok (some (.text (f.ip.toString address))) := bindString_of_taken (by omega) taken
  rw [reads_of_bind hbind]
  have hread : getValue f sq b (.text (f.ip.toString address)) .ipAddress =
      (b.check "str.size() > 6" (6 < (f.ip.toString address).length) >>= fun _ =>
        .ok (.ipAddress address)) := by
    simp [getValue, withText, Sqlite.columnText, toIpAddress, f.ip.makeAddress_toString]
  change recover (getValue f sq b _ .ipAddress) = _ ↔ _
  rw [hread, Survives, ← Build.check_eq_ok_iff]
  unfold Build.check
  split_ifs <;> simp [recover]

/-! ### Codes -/

/-- The number of a code. -/
theorem toNat_toUint64 (code : Obis) : (BitVec.ofNat 64 (ofBE code.val)).toNat = ofBE code.val := by
  have hlt := ofBE_lt code.val
  rw [code.property] at hlt
  rw [BitVec.toNat_ofNat]
  omega

theorem toBE_six (code : Obis) : toBE 6 (ofBE code.val) = code.val := by
  have h := toBE_ofBE code.val
  rwa [code.property] at h

/-- The six lower bytes are the value groups. -/
theorem makeObisOfUint64_toUint64 (code : Obis) :
    makeObisOfUint64 (BitVec.ofNat 64 (ofBE code.val)) = code := by
  apply Subtype.ext
  have hdrop (n : ℕ) : (toBE 8 n).drop 2 = toBE 6 n := rfl
  calc (makeObisOfUint64 (BitVec.ofNat 64 (ofBE code.val))).val
      = (toBE 8 (BitVec.ofNat 64 (ofBE code.val)).toNat).drop 2 := rfl
    _ = toBE 6 (ofBE code.val) := by rw [toNat_toUint64 code, hdrop]
    _ = code.val := toBE_six code

/-- Only the code of all ones is as large as the assertion says. -/
theorem toUint64_lt_iff (code : Obis) :
    ofBE code.val < 0xFFFFFFFFFFFF ↔ code.val ≠ List.replicate 6 0xFF := by
  have hlt := ofBE_lt code.val
  rw [code.property] at hlt
  constructor
  · intro h hall
    rw [hall] at h
    exact absurd h (by decide)
  · intro hne
    by_contra hge
    have htop : ofBE code.val = 0xFFFFFFFFFFFF := by omega
    apply hne
    rw [← toBE_six code, htop]
    decide

theorem reads_obis {code : Obis} :
    Reads f sq b (.obis code) ↔ Survives f b (.obis code) := by
  have hbind : bindValue f sq b (.obis code) =
      (b.check "r < 0xFFFFFFFFFFFF" (ofBE code.val < 0xFFFFFFFFFFFF) >>= fun _ =>
        .ok (some (.integer (BitVec.ofNat 64 (ofBE code.val))))) := by
    simp only [bindValue, Obis.toUint64, toNat_toUint64]
    cases b.check "r < 0xFFFFFFFFFFFF" (ofBE code.val < 0xFFFFFFFFFFFF) <;> rfl
  have hread : recover (getValue f sq b (.integer (BitVec.ofNat 64 (ofBE code.val))) .obis) =
      .ok (.obis code) := congrArg (Except.ok ∘ Scalar.obis) (makeObisOfUint64_toUint64 code)
  rw [Survives, ← toUint64_lt_iff, ← Build.check_eq_ok_iff]
  constructor
  · rintro ⟨c, hbound, -⟩
    rw [hbind] at hbound
    obtain ⟨_, hcheck, -⟩ := bind_eq_ok_iff.mp hbound
    exact hcheck
  · intro hcheck
    rw [hcheck] at hbind
    exact ⟨_, hbind, hread⟩

/-! ### All values -/

/-- For a value that both sides know, its reader undoes its binder exactly if it survives. -/
theorem reads_iff_survives (stored : Stored v) (taken : bindValue f sq b v ≠ .ok none) :
    Reads f sq b v ↔ Survives f b v := by
  cases v with
  | bool v => exact iff_of_true reads_bool trivial
  | int ty v => exact reads_int
  | string str => exact reads_string taken
  | duration unit ticks => exact reads_duration
  | buffer buf => exact reads_buffer taken
  | mac48 address => exact iff_of_true (reads_mac48 taken) trivial
  | mac64 address => exact iff_of_true (reads_mac64 taken) trivial
  | obis code => exact reads_obis
  | digest ty digest => exact iff_of_true (reads_digest stored taken) trivial
  | aesKey ty key => exact iff_of_true (reads_aesKey taken) trivial
  | uuid tag => exact iff_of_true (reads_uuid taken) trivial
  | fsPath path => exact iff_of_true (reads_fsPath stored taken) trivial
  | ipAddress address => exact reads_ipAddress taken
  | null | eod | char | float | timePoint | version | revision | op | severity | pid | obisPath
  | edis | color8 | color16 | raw | errorCode | endpoint => exact stored.elim

/-- A value that SQLite does not refuse comes back from its column, without a failing
assertion, exactly if it survives. -/
theorem column_round_trip (stored : Stored v)
    (taken : ∀ s', s.bind f sq b s.bindCounter (.scalar v) columnSize ≠ .ok (false, s')) :
    RoundTrips f sq b s v columnSize ↔ Survives f b v := by
  have hvalue : bindValue f sq b v ≠ .ok none := by
    intro hnone
    apply taken (s.hold (.scalar v))
    rw [bind_of_stored stored, hnone]
    rfl
  exact (roundTrips_iff_reads stored taken).trans (reads_iff_survives stored hvalue)

/-- The address 00:0c:29:cc:e3:d4. -/
def sampleMac : Scalar := .mac48 ⟨[0x00, 0x0C, 0x29, 0xCC, 0xE3, 0xD4], rfl⟩

theorem column_round_trip_sampleMac :
    RoundTrips .uuids .small .debug (.prepared 1) sampleMac 0 :=
  (column_round_trip (v := sampleMac) trivial fun _ h =>
    Bool.noConfusion (Prod.mk.inj (Except.ok.inj h)).1).mpr trivial

/-- A signed number comes back as an unsigned one, a duration of 2^32 nanoseconds as none, and
an empty buffer as NULL. -/
theorem not_column_round_trip :
    ¬ RoundTrips .uuids .small .release (.prepared 1) (.int .int64 (5 : BitVec 64)) 0 ∧
      ¬ RoundTrips .uuids .small .release (.prepared 1)
          (.duration .nanoSecond (0x100000000 : BitVec 64)) 0 ∧
      ¬ RoundTrips .uuids .small .release (.prepared 1) (.buffer []) 0 := by
  refine ⟨fun h => ?_, fun h => ?_, fun h => ?_⟩
  · have hread := Except.ok.inj (h [.integer 5] 0 (.integer 5) rfl rfl)
    exact absurd hread (by decide)
  · have hread := Except.ok.inj (h [.integer 0] 0 (.integer 0) rfl rfl)
    exact absurd hread (by decide)
  · have hread := Except.ok.inj (h [.blob []] 0 (.blob []) rfl rfl)
    exact absurd hread (by decide)

end RoundTrip

end Cyng
