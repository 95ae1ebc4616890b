import Cyng.Parse.Hex
import Cyng.Theory.Numerals

/-!
# Numbers as text

The conversions of the standard library take the number at the start of a text. They fail where
there is none and where it does not fit; `long` has 64 bits. `to_numeric` makes these failures a
zero, and takes the lower bits of what does not fit a narrow type.

A version is read back from its text. A revision is not: it is written with dots, and read with
colons between its parts.
-/

namespace Cyng

open Theory

/-! ### Conversions of the standard library -/

/-- `std::stoull`, and `std::stoul` where `long` has 64 bits. -/
def stoull (base : ℕ) (str : Bytes) : Except Fault (BitVec 64) :=
  match scan base str with
  | none => .error (.exception "std::invalid_argument")
  | some (negative, n) =>
    if n < 2 ^ 64 then .ok (if negative then -BitVec.ofNat 64 n else BitVec.ofNat 64 n)
    else .error (.exception "std::out_of_range")

/-- The conversions to an integer with a sign. -/
def stoSigned (w base : ℕ) (str : Bytes) : Except Fault (BitVec w) :=
  match scan base str with
  | none => .error (.exception "std::invalid_argument")
  | some (negative, n) =>
    let v : ℤ := if negative then -n else n
    if -2 ^ (w - 1) ≤ v ∧ v < 2 ^ (w - 1) then .ok (BitVec.ofInt w v)
    else .error (.exception "std::out_of_range")

def stoul (base : ℕ) (str : Bytes) : Except Fault (BitVec 64) := stoull base str
def stoi (base : ℕ) (str : Bytes) : Except Fault (BitVec 32) := stoSigned 32 base str
def stol (base : ℕ) (str : Bytes) : Except Fault (BitVec 64) := stoSigned 64 base str
def stoll (base : ℕ) (str : Bytes) : Except Fault (BitVec 64) := stoSigned 64 base str

/-- The conversion that `string_policy` names for a type, before the cast. -/
def stringPolicy (ty : IntType) (base : ℕ) (str : Bytes) : Except Fault (BitVec 64) :=
  match ty with
  | .uint8 | .uint16 | .uint32 => stoul base str
  | .uint64 => stoull base str
  | .int8 | .int16 => do
    let v ← stoi base str
    return v.signExtend 64
  | .int32 => stol base str
  | .int64 => stoll base str

/-- `to_numeric` -/
def toNumericText (ty : IntType) (base : ℕ) (str : Bytes) : BitVec (8 * ty.size) :=
  match stringPolicy ty base str with
  | .ok v => v.setWidth (8 * ty.size)
  | .error _ => 0

section Conversions

variable {base n : ℕ} {str : Bytes}

theorem stoull_of_scan (h : scan base str = some (false, n)) (hn : n < 2 ^ 64) :
    stoull base str = .ok (BitVec.ofNat 64 n) := by
  rw [stoull, h]
  exact if_pos hn

theorem stoSigned_signedNumeral (w : ℕ) (n : ℤ) :
    stoSigned w 10 (signedNumeral 10 n) =
      if -2 ^ (w - 1) ≤ n ∧ n < 2 ^ (w - 1) then .ok (BitVec.ofInt w n)
      else .error (.exception "std::out_of_range") := by
  have hsign : (if n < 0 then -(n.natAbs : ℤ) else n.natAbs) = n := by
    split <;> omega
  rw [stoSigned, scan_signedNumeral (by decide) (by decide)]
  simp only [decide_eq_true_eq, hsign]

end Conversions

/-! ### Versions and revisions -/

/-- The separator of the parts. -/
def dot : UInt8 := 0x2E

/-- `version::major` -/
def versionMajor (full : BitVec 32) : BitVec 16 := full.setWidth 16

/-- `version::minor` -/
def versionMinor (full : BitVec 32) : BitVec 16 := (full >>> 16).setWidth 16

/-- `version(std::uint16_t, std::uint16_t)`: the first part is the lower one. -/
def makeVersion (maj min : BitVec 16) : BitVec 32 := min ++ maj

/-- `revision::major` -/
def revisionMajor (full : BitVec 64) : BitVec 32 := full.setWidth 32

/-- `revision::minor` -/
def revisionMinor (full : BitVec 64) : BitVec 32 := (full >>> 32).setWidth 32

/-- `operator<<(std::ostream&, version const&)` -/
def versionToString (full : BitVec 32) : Bytes :=
  numeral 10 (versionMajor full).toNat ++ dot :: numeral 10 (versionMinor full).toNat

/-- `operator<<(std::ostream&, revision const&)` -/
def revisionToString (full : BitVec 64) : Bytes :=
  versionToString (revisionMajor full) ++ dot :: versionToString (revisionMinor full)

/-- `to_version` -/
def toVersion (str : Bytes) : Except Fault (BitVec 32) :=
  match str.splitOn dot with
  | [maj, min] => do
    let maj ← stoul 10 maj
    let min ← stoul 10 min
    return makeVersion (maj.setWidth 16) (min.setWidth 16)
  | _ => .ok 0

/-- `to_revision`, which looks for colons. -/
def toRevision (str : Bytes) : Except Fault (BitVec 64) :=
  match str.splitOn colon with
  | [a, b, c, d] => do
    let a ← stoul 10 a
    let b ← stoul 10 b
    let c ← stoul 10 c
    let d ← stoul 10 d
    return makeVersion (c.setWidth 16) (d.setWidth 16) ++
      makeVersion (a.setWidth 16) (b.setWidth 16)
  | _ => .ok 0

section Versions

variable (full : BitVec 32) (rev : BitVec 64)

/-- A version is its two parts. -/
theorem makeVersion_parts : makeVersion (versionMajor full) (versionMinor full) = full := by
  ext i hi
  rw [makeVersion, BitVec.getElem_append]
  split
  · simp [versionMajor, BitVec.getLsbD_eq_getElem hi]
  · case isFalse hhigh =>
    have hsum : 16 + (i - 16) = i := by omega
    simp [versionMinor, hsum, BitVec.getLsbD_eq_getElem hi]

theorem notMem_numeral {mark : UInt8} (hmark : 16 ≤ digitValue mark) (n : ℕ) :
    mark ∉ numeral 10 n :=
  ((digits_numeral (by decide) (by decide)).mono (by decide)).notMem hmark

theorem stoul_numeral (part : BitVec 16) :
    stoul 10 (numeral 10 part.toNat) = .ok (BitVec.ofNat 64 part.toNat) :=
  stoull_of_scan (scan_numeral (by decide) (by decide) _) (part.isLt.trans (by decide))

theorem setWidth_ofNat_toNat {w : ℕ} (hw : w ≤ 64) (part : BitVec w) :
    (BitVec.ofNat 64 part.toNat).setWidth w = part := by
  rw [BitVec.setWidth_ofNat_of_le hw, BitVec.ofNat_toNat, BitVec.setWidth_eq]

theorem toVersion_versionToString : toVersion (versionToString full) = .ok full := by
  have hsplit : (versionToString full).splitOn dot =
      [numeral 10 (versionMajor full).toNat, numeral 10 (versionMinor full).toNat] := by
    have hparts : versionToString full = [dot].intercalate
        [numeral 10 (versionMajor full).toNat, numeral 10 (versionMinor full).toNat] := by
      simp [versionToString, List.intercalate_cons_cons]
    rw [hparts]
    apply List.splitOn_intercalate
    · intro part hpart
      rcases List.mem_pair.mp hpart with rfl | rfl
      · exact notMem_numeral (by decide) _
      · exact notMem_numeral (by decide) _
    · exact List.cons_ne_nil _ _
  rw [toVersion, hsplit]
  simp only [stoul_numeral, ok_bind, setWidth_ofNat_toNat (show 16 ≤ 64 by decide),
    makeVersion_parts, pure_eq_ok]

/-- No revision is read, whatever is written. -/
theorem toRevision_revisionToString : toRevision (revisionToString rev) = .ok 0 := by
  have hnumeral (n : ℕ) : colon ∉ numeral 10 n := notMem_numeral (by decide) n
  have hnot : colon ∉ revisionToString rev := by
    have hdot : colon ≠ dot := by decide
    simp [revisionToString, versionToString, hnumeral, hdot]
  have hsplit : (revisionToString rev).splitOn colon = [revisionToString rev] := by
    have hone : ([colon].intercalate [revisionToString rev]).splitOn colon =
        [revisionToString rev] :=
      List.splitOn_intercalate colon (by simpa using hnot) (List.cons_ne_nil _ _)
    simpa using hone
  rw [toRevision, hsplit]

end Versions

end Cyng
