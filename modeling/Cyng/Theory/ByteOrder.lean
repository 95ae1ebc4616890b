import Mathlib.Data.List.Basic
import Mathlib.Data.BitVec
import Mathlib.Tactic.Ring

/-!
# Numbers as byte strings

A number is written as a byte string of a fixed width, least significant byte first
(`toLE`) or most significant byte first (`toBE`), and read back by the positional
value of its bytes. Reading is exact up to the width and writing is exact on byte
strings of that width.
-/

namespace Theory

/-- The `n` least significant bytes of a number, least significant byte first. -/
def toLE : ℕ → ℕ → List UInt8
  | 0, _ => []
  | n + 1, v => UInt8.ofNat v :: toLE n (v / 256)

/-- The number a byte string denotes, least significant byte first. -/
def ofLE : List UInt8 → ℕ
  | [] => 0
  | b :: bs => b.toNat + 256 * ofLE bs

/-- The `n` least significant bytes of a number, most significant byte first. -/
def toBE (n v : ℕ) : List UInt8 :=
  (toLE n v).reverse

/-- The number a byte string denotes, most significant byte first. -/
def ofBE (bs : List UInt8) : ℕ :=
  ofLE bs.reverse

@[simp] theorem length_toLE (n v : ℕ) : (toLE n v).length = n := by
  induction n generalizing v with
  | zero => rfl
  | succ n ih => simp [toLE, ih]

@[simp] theorem length_toBE (n v : ℕ) : (toBE n v).length = n := by
  simp [toBE]

theorem ofLE_lt (bs : List UInt8) : ofLE bs < 256 ^ bs.length := by
  induction bs with
  | nil => simp [ofLE]
  | cons b bs ih =>
    have hb : b.toNat < 256 := b.toNat_lt
    rw [ofLE, List.length_cons, pow_succ]
    omega

theorem ofBE_lt (bs : List UInt8) : ofBE bs < 256 ^ bs.length := by
  simpa [ofBE] using ofLE_lt bs.reverse

/-- Reading back what was written gives the number modulo the width. -/
theorem ofLE_toLE (n v : ℕ) : ofLE (toLE n v) = v % 256 ^ n := by
  induction n generalizing v with
  | zero => simp [toLE, ofLE, Nat.mod_one]
  | succ n ih =>
    have hlow : (UInt8.ofNat v).toNat = v % 256 := by simp
    rw [toLE, ofLE, ih, hlow, pow_succ, Nat.mul_comm (256 ^ n) 256, Nat.mod_mul]

/-- Writing the number a byte string denotes gives the byte string. -/
theorem toLE_ofLE (bs : List UInt8) : toLE bs.length (ofLE bs) = bs := by
  induction bs with
  | nil => rfl
  | cons b bs ih =>
    have hb : b.toNat < 256 := b.toNat_lt
    have hdiv : (b.toNat + 256 * ofLE bs) / 256 = ofLE bs := by omega
    have hmod : UInt8.ofNat (b.toNat + 256 * ofLE bs) = b := by
      apply UInt8.toNat_inj.mp
      rw [UInt8.toNat_ofNat']
      omega
    rw [List.length_cons, ofLE, toLE, hdiv, ih, hmod]

theorem ofBE_toBE (n v : ℕ) : ofBE (toBE n v) = v % 256 ^ n := by
  simp [ofBE, toBE, ofLE_toLE]

theorem toBE_ofBE (bs : List UInt8) : toBE bs.length (ofBE bs) = bs := by
  have h := toLE_ofLE bs.reverse
  rw [List.length_reverse] at h
  rw [toBE, ofBE, h, List.reverse_reverse]

/-- A bit vector of `8 * n` bits survives the trip through its bytes. -/
theorem ofNat_ofBE_toBE {n : ℕ} (v : BitVec (8 * n)) :
    BitVec.ofNat (8 * n) (ofBE (toBE n v.toNat)) = v := by
  have hpow : (256 : ℕ) ^ n = 2 ^ (8 * n) := by
    rw [pow_mul]
    norm_num
  rw [ofBE_toBE, hpow]
  apply BitVec.eq_of_toNat_eq
  simp

end Theory
