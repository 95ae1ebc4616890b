import Cyng.Build
import Mathlib.Data.BitVec

/-!
# SQLite

What the library sees of SQLite: the placeholders of a prepared statement, the values bound to
them, and the columns of a row of results. A value is kept in one of five storage classes and
comes back as it was bound. Bytes are handed over with a signed 32 bit length, and a value
that is longer than the configured limit is refused.
-/

namespace Cyng

/-- A value as SQLite keeps it. -/
inductive Cell
  | null
  | integer (v : BitVec 64)
  | real (bits : BitVec 64)
  | text (bytes : Bytes)
  | blob (bytes : Bytes)
deriving DecidableEq

/-- The length limit, and the conversions between storage classes. -/
structure Sqlite where
  maxLength : ℕ
  maxLength_lt : maxLength < 2 ^ 31
  /-- a text, a blob or a real number as an integer -/
  toInteger : Cell → BitVec 64
  /-- a value that is not a real number as one -/
  toReal : Cell → BitVec 64
  /-- a number as text -/
  toText : Cell → Bytes

/-- `static_cast<int>(size)` -/
def toInt (size : ℕ) : BitVec 32 := BitVec.ofNat 32 size

namespace Sqlite

/-- What a placeholder is bound to; one that has no value reads as NULL. -/
abbrev Bindings := List (Option Cell)

/-- A value for the placeholder of that number, counted from one. Other numbers are refused. -/
def put (stmt : Bindings) (index : ℤ) (c : Cell) : Option Bindings :=
  if 1 ≤ index ∧ index ≤ stmt.length then some (stmt.set (index.toNat - 1) (some c)) else none

/-- `sqlite3_bind_int` -/
def bindInt (n : BitVec 32) : Cell := .integer (n.signExtend 64)

variable (sq : Sqlite)

/-- `sqlite3_bind_text`: a text of that many bytes, or one that ends with the first zero byte
where the length is negative. -/
def bindText (bytes : Bytes) (n : BitVec 32) : Option Cell :=
  let text := if n.msb then bytes.takeWhile (· ≠ 0) else bytes.take n.toNat
  if text.length ≤ sq.maxLength then some (.text text) else none

/-- `sqlite3_bind_blob`: a negative length has no meaning. -/
def bindBlob (bytes : Bytes) (n : BitVec 32) : Except Fault (Option Cell) :=
  if n.msb then .error (.undefined "sqlite3_bind_blob")
  else
    let blob := bytes.take n.toNat
    .ok (if blob.length ≤ sq.maxLength then some (.blob blob) else none)

/-- `sqlite3_column_int64` -/
def columnInt64 : Cell → BitVec 64
  | .null => 0
  | .integer v => v
  | c => sq.toInteger c

/-- `sqlite3_column_int`: the low 32 bits. -/
def columnInt (c : Cell) : BitVec 32 := (sq.columnInt64 c).setWidth 32

/-- `sqlite3_column_double` -/
def columnDouble : Cell → BitVec 64
  | .null => 0
  | .real bits => bits
  | c => sq.toReal c

/-- `sqlite3_column_text` and `sqlite3_column_bytes`: there is no text for NULL. -/
def columnText : Cell → Option Bytes
  | .null => none
  | .text bytes | .blob bytes => some bytes
  | c => some (sq.toText c)

/-- `sqlite3_column_blob` and `sqlite3_column_bytes` -/
def columnBlob (c : Cell) : Bytes := (sq.columnText c).getD []

/-- A limit of some thousand bytes, and a database that stores no reals. -/
def small : Sqlite where
  maxLength := 10000
  maxLength_lt := by decide
  toInteger _ := 0
  toReal _ := 0
  toText _ := []

section Lengths

variable {sq} {bytes : Bytes} {c : Cell} {stmt stmt' : Bindings} {index : ℤ}

theorem put_eq_some_iff :
    put stmt index c = some stmt' ↔
      (1 ≤ index ∧ index ≤ stmt.length) ∧ stmt.set (index.toNat - 1) (some c) = stmt' := by
  unfold put
  split_ifs with h
  · simp [h]
  · simp [h]

theorem toInt_of_lt {size : ℕ} (h : size < 2 ^ 31) :
    (toInt size).msb = false ∧ (toInt size).toNat = size := by
  have hsize : (toInt size).toNat = size := by
    rw [toInt, BitVec.toNat_ofNat]
    omega
  refine ⟨?_, hsize⟩
  rw [BitVec.msb_eq_false_iff_two_mul_lt, hsize]
  omega

/-- A text whose length is not negative as an `int` is bound as a whole. -/
theorem bindText_of_lt (h : bytes.length < 2 ^ 31) :
    sq.bindText bytes (toInt bytes.length) =
      if bytes.length ≤ sq.maxLength then some (.text bytes) else none := by
  obtain ⟨hmsb, hsize⟩ := toInt_of_lt h
  simp [bindText, hmsb, hsize]

/-- No text comes out longer than the limit. -/
theorem length_of_bindText {n : BitVec 32} (h : sq.bindText bytes n = some c) :
    ∃ text, c = .text text ∧ text.length < 2 ^ 31 := by
  simp only [bindText] at h
  generalize (if n.msb then bytes.takeWhile (· ≠ 0) else bytes.take n.toNat) = text at h
  split_ifs at h with hle
  exact ⟨text, (Option.some.inj h).symm, hle.trans_lt sq.maxLength_lt⟩

theorem bindBlob_of_lt (h : bytes.length < 2 ^ 31) :
    sq.bindBlob bytes (toInt bytes.length) =
      .ok (if bytes.length ≤ sq.maxLength then some (.blob bytes) else none) := by
  obtain ⟨hmsb, hsize⟩ := toInt_of_lt h
  simp [bindBlob, hmsb, hsize]

theorem length_of_bindBlob {n : BitVec 32} (h : sq.bindBlob bytes n = .ok (some c)) :
    ∃ blob, c = .blob blob ∧ blob.length < 2 ^ 31 := by
  unfold bindBlob at h
  split_ifs at h with hmsb
  have hcell := Except.ok.inj h
  split_ifs at hcell with hle
  exact ⟨_, (Option.some.inj hcell).symm, hle.trans_lt sq.maxLength_lt⟩

end Lengths

end Sqlite

end Cyng
