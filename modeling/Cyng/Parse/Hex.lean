import Cyng.Theory.Hex
import Cyng.Obj.Intrinsics

/-!
# Addresses, digests and keys as text

Values that are arrays of octets are written in hexadecimal: addresses with a colon between
the octets or words, digests and keys without. Reading takes two digits for an octet and four
for a word; whatever is not a digit counts as zero.
-/

namespace Cyng

open Theory

/-- `hex_to_u8(char)` -/
def hexToU8 (c : UInt8) : UInt8 :=
  if 0x61 ≤ c ∧ c ≤ 0x66 then c - 0x61 + 10
  else if 0x41 ≤ c ∧ c ≤ 0x46 then c - 0x41 + 10
  else if 0x30 ≤ c ∧ c ≤ 0x39 then c - 0x30
  else 0

/-- The test of `is_hex` for one character. -/
def IsHexChar (c : UInt8) : Prop :=
  (0x61 ≤ c.toNat ∧ c.toNat ≤ 0x66) ∨ (0x41 ≤ c.toNat ∧ c.toNat ≤ 0x46) ∨
    (0x30 ≤ c.toNat ∧ c.toNat ≤ 0x39)

instance (c : UInt8) : Decidable (IsHexChar c) := inferInstanceAs (Decidable (_ ∨ _))

/-- `is_hex` -/
def IsHex (s : Bytes) : Prop := ∀ c ∈ s, IsHexChar c

instance (s : Bytes) : Decidable (IsHex s) := List.decidableBAll IsHexChar s

/-- `hex_to_u8(char, char)`, on a machine that stores the low byte first. -/
def hexToU8Le (c1 c2 : UInt8) : UInt8 := (hexToU8 c1 <<< 4) + hexToU8 c2

/-- `hex_to_u8(std::string)` -/
def hexToU8Text (b : Build) (s : Bytes) : Except Fault UInt8 := do
  b.check "!s.empty()" (s ≠ [])
  match s with
  | [] => return 0
  | [c] => do
    b.check "is_hex(s)" (IsHex s)
    return hexToU8Le c 0
  | c1 :: c2 :: _ => do
    b.check "is_hex(s)" (IsHex s)
    return hexToU8Le c1 c2

/-- `hex_to_u16(char, char, char, char)` -/
def hexToU16Le (c1 c2 c3 c4 : UInt8) : BitVec 16 :=
  BitVec.ofNat 16 (((hexToU8Le c1 c2).toNat <<< 8) + (hexToU8Le c3 c4).toNat)

/-- `hex_to_u16(std::string)` -/
def hexToU16Text (b : Build) (s : Bytes) : Except Fault (BitVec 16) := do
  b.check "is_hex(s)" (IsHex s)
  match s with
  | [c1, c2, c3, c4] => return hexToU16Le c1 c2 c3 c4
  | _ => return 0

/-- The loop of `hex_to_buffer`. -/
def hexPairs : Bytes → Bytes
  | c1 :: c2 :: str => hexToU8Le c1 c2 :: hexPairs str
  | _ => []

/-- `hex_to_buffer` -/
def hexToBuffer (b : Build) (str : Bytes) : Except Fault Bytes := do
  b.check "invalid hex string" (str.length % 2 = 0)
  return if str.length % 2 ≠ 0 then [] else hexPairs str

/-- A colon. -/
def colon : UInt8 := 0x3A

/-- `operator<<(std::ostream&, mac48 const&)` -/
def mac48ToString (address : Octets 6) : Bytes :=
  [colon].intercalate (address.val.map fun c => hexPad 2 c.toNat)

/-- `mac64::get_words` -/
def Mac64.words (address : Mac64) : List (BitVec 16) :=
  [address.word1, address.word2, address.word3, address.word4]

/-- `operator<<(std::ostream&, mac64 const&)` -/
def mac64ToString (address : Mac64) : Bytes :=
  [colon].intercalate (address.words.map fun word => hexPad 4 word.toNat)

/-- `to_mac48` -/
def toMac48 (b : Build) (str : Bytes) : Except Fault (Octets 6) := do
  let parts := str.splitOn colon
  if parts.length = 6 then
    let address ← parts.mapM (hexToU8Text b)
    return Octets.ofBuffer 6 address
  else return Octets.zero 6

/-- `to_mac64` -/
def toMac64 (b : Build) (str : Bytes) : Except Fault Mac64 := do
  let parts := str.splitOn colon
  if parts.length = 4 then
    match ← parts.mapM (hexToU16Text b) with
    | [a, b, c, d] => return ⟨a, b, c, d⟩
    | _ => return ⟨0, 0, 0, 0⟩
  else return ⟨0, 0, 0, 0⟩

/-- `to_digest<N>` -/
def toDigest (b : Build) (n : ℕ) (str : Bytes) : Except Fault (Octets n) := do
  b.check "invalid SHA digest format" (str.length = n * 2)
  let buffer ← hexToBuffer b str
  return Octets.ofBuffer n buffer

/-- `to_aes_key<N>`, for a key of `n` bytes. -/
def toAesKey (b : Build) (n : ℕ) (str : Bytes) : Except Fault (Octets n) := do
  b.check "invalid AES key format" (str.length = n * 8 / 4)
  let buffer ← hexToBuffer b str
  return Octets.ofBuffer n buffer

/-! ### Digits -/

theorem hexToU8_hexDigit {n : ℕ} (h : n < 16) : hexToU8 (hexDigit n) = UInt8.ofNat n := by
  revert n
  decide

theorem isHexChar_hexDigit {n : ℕ} (h : n < 16) : IsHexChar (hexDigit n) := by
  revert n
  decide

/-- A colon is no digit. -/
theorem colon_notMem {s : Bytes} (h : IsHex s) : colon ∉ s := fun hmem =>
  absurd (h colon hmem) (by decide)

/-- Two digits make the byte they were written for. -/
theorem hexToU8Le_hexDigit (b : UInt8) :
    hexToU8Le (hexDigit (b.toNat / 16)) (hexDigit (b.toNat % 16)) = b := by
  have hb : b.toNat < 256 := b.toNat_lt
  rw [hexToU8Le, hexToU8_hexDigit (by omega), hexToU8_hexDigit (by omega)]
  apply UInt8.toNat_inj.mp
  have hhigh : (UInt8.ofNat (b.toNat / 16)).toNat = b.toNat / 16 :=
    UInt8.toNat_ofNat_of_lt' (show b.toNat / 16 < 256 by omega)
  have hlow : (UInt8.ofNat (b.toNat % 16)).toNat = b.toNat % 16 :=
    UInt8.toNat_ofNat_of_lt' (show b.toNat % 16 < 256 by omega)
  rw [UInt8.toNat_add, UInt8.toNat_shiftLeft, hhigh, hlow]
  simp only [UInt8.reduceToNat, Nat.reduceMod, Nat.shiftLeft_eq, Nat.reducePow]
  omega

section Texts

variable {b : Build}

theorem isHex_hexPad_two (c : UInt8) : IsHex (hexPad 2 c.toNat) := by
  have hc : c.toNat < 256 := c.toNat_lt
  have hhigh : IsHexChar (hexDigit (c.toNat / 16)) := isHexChar_hexDigit (by omega)
  have hlow : IsHexChar (hexDigit (c.toNat % 16)) := isHexChar_hexDigit (by omega)
  rw [hexPad_two]
  exact List.forall_mem_cons.mpr ⟨hhigh, List.forall_mem_singleton.mpr hlow⟩

theorem hexToU8Text_hexPad (c : UInt8) : hexToU8Text b (hexPad 2 c.toNat) = .ok c := by
  have hhex := isHex_hexPad_two c
  rw [hexPad_two] at hhex ⊢
  simp [hexToU8Text, Build.check_of, hhex, hexToU8Le_hexDigit]

theorem hexPairs_hexBytes (bytes : Bytes) : hexPairs (hexBytes bytes) = bytes := by
  induction bytes with
  | nil => rfl
  | cons c bytes ih =>
    rw [hexBytes, List.flatMap_cons, hexPad_two, ← hexBytes]
    simp only [List.cons_append, List.nil_append, hexPairs]
    rw [ih, hexToU8Le_hexDigit]

theorem hexToBuffer_hexBytes (bytes : Bytes) : hexToBuffer b (hexBytes bytes) = .ok bytes := by
  simp [hexToBuffer, Build.check_of, hexPairs_hexBytes]

/-- A digest is read back from its text. -/
theorem toDigest_hexBytes {n : ℕ} (digest : Octets n) :
    toDigest b n (hexBytes digest.val) = .ok digest := by
  have hsize : (hexBytes digest.val).length = n * 2 := by
    rw [length_hexBytes, digest.property, Nat.mul_comm]
  simp [toDigest, Build.check_of, hsize, hexToBuffer_hexBytes]

/-- A key is read back from its text. -/
theorem toAesKey_hexBytes {n : ℕ} (key : Octets n) :
    toAesKey b n (hexBytes key.val) = .ok key := by
  have hsize : (hexBytes key.val).length = n * 8 / 4 := by
    rw [length_hexBytes, key.property]
    omega
  simp [toAesKey, Build.check_of, hsize, hexToBuffer_hexBytes]

/-- Every part is read back where each one is. -/
theorem mapM_map_of_ok {α β γ ε : Type} {f : β → Except ε γ} {g : α → β} {h : α → γ}
    (hf : ∀ a, f (g a) = .ok (h a)) (as : List α) : (as.map g).mapM f = .ok (as.map h) := by
  induction as with
  | nil => rfl
  | cons a as ih => simp [List.mapM_cons, hf, ih]

theorem splitOn_mac48ToString (address : Octets 6) :
    (mac48ToString address).splitOn colon = address.val.map fun c => hexPad 2 c.toNat := by
  apply List.splitOn_intercalate
  · intro part hpart
    obtain ⟨c, -, rfl⟩ := List.mem_map.mp hpart
    exact colon_notMem (isHex_hexPad_two c)
  · intro hnil
    have hlen := congrArg List.length hnil
    rw [List.length_map, address.property] at hlen
    cases hlen

/-- An address is read back from its text. -/
theorem toMac48_mac48ToString (address : Octets 6) :
    toMac48 b (mac48ToString address) = .ok address := by
  have hparts : (address.val.map fun c => hexPad 2 c.toNat).mapM (hexToU8Text b) =
      .ok (address.val.map id) := mapM_map_of_ok hexToU8Text_hexPad address.val
  rw [List.map_id] at hparts
  simp [toMac48, splitOn_mac48ToString, address.property, hparts]

theorem length_mac48ToString (address : Octets 6) : (mac48ToString address).length = 17 := by
  have hne : (address.val.map fun c => hexPad 2 c.toNat) ≠ [] := by
    intro hnil
    have hlen := congrArg List.length hnil
    rw [List.length_map, address.property] at hlen
    cases hlen
  have hparts : ∀ part ∈ address.val.map fun c => hexPad 2 c.toNat, part.length = 2 := by
    intro part hpart
    obtain ⟨c, -, rfl⟩ := List.mem_map.mp hpart
    exact length_hexPad_two c
  have hlen := length_intercalate colon hparts hne
  rw [List.length_map, address.property] at hlen
  exact Nat.succ.inj hlen

section Words

variable (word : BitVec 16)

/-- The two bytes of a word. -/
theorem hexPad_word : hexPad 4 word.toNat =
    hexPad 2 (UInt8.ofNat (word.toNat / 256)).toNat ++
      hexPad 2 (UInt8.ofNat (word.toNat % 256)).toNat :=
  hexPad_four word.isLt

theorem isHex_hexPad_word : IsHex (hexPad 4 word.toNat) := by
  rw [hexPad_word]
  intro c hc
  rcases List.mem_append.mp hc with hc | hc
  · exact isHex_hexPad_two _ c hc
  · exact isHex_hexPad_two _ c hc

theorem length_hexPad_word : (hexPad 4 word.toNat).length = 4 := by
  rw [hexPad_word, List.length_append, length_hexPad_two, length_hexPad_two]

theorem hexToU16Text_hexPad : hexToU16Text b (hexPad 4 word.toNat) = .ok word := by
  have hhex := isHex_hexPad_word word
  have hword : word.toNat < 65536 := word.isLt
  have hhigh : (UInt8.ofNat (word.toNat / 256)).toNat = word.toNat / 256 :=
    UInt8.toNat_ofNat_of_lt' (show word.toNat / 256 < 256 by omega)
  have hlow : (UInt8.ofNat (word.toNat % 256)).toNat = word.toNat % 256 :=
    UInt8.toNat_ofNat_of_lt' (show word.toNat % 256 < 256 by omega)
  have hsum : (word.toNat / 256) <<< 8 + word.toNat % 256 = word.toNat := by
    rw [Nat.shiftLeft_eq]
    omega
  unfold hexToU16Text
  rw [Build.check_of hhex, hexPad_word, hexPad_two, hexPad_two]
  apply congrArg Except.ok
  rw [hexToU16Le, hexToU8Le_hexDigit, hexToU8Le_hexDigit, hhigh, hlow, hsum,
    BitVec.ofNat_toNat, BitVec.setWidth_eq]

end Words

theorem splitOn_mac64ToString (address : Mac64) :
    (mac64ToString address).splitOn colon =
      address.words.map fun word => hexPad 4 word.toNat := by
  apply List.splitOn_intercalate
  · intro part hpart
    obtain ⟨word, -, rfl⟩ := List.mem_map.mp hpart
    exact colon_notMem (isHex_hexPad_word word)
  · exact List.cons_ne_nil _ _

theorem toMac64_mac64ToString (address : Mac64) :
    toMac64 b (mac64ToString address) = .ok address := by
  have hparts : (address.words.map fun word => hexPad 4 word.toNat).mapM (hexToU16Text b) =
      .ok (address.words.map id) := mapM_map_of_ok hexToU16Text_hexPad address.words
  rw [List.map_id] at hparts
  have hlen : (address.words.map fun word => hexPad 4 word.toNat).length = 4 :=
    List.length_map _
  simp only [toMac64, splitOn_mac64ToString, hlen, if_true, hparts, ok_bind]
  rfl

theorem length_mac64ToString (address : Mac64) : (mac64ToString address).length = 19 := by
  have hparts : ∀ part ∈ address.words.map fun word => hexPad 4 word.toNat,
      part.length = 4 := by
    intro part hpart
    obtain ⟨word, -, rfl⟩ := List.mem_map.mp hpart
    exact length_hexPad_word word
  have hlen := length_intercalate colon hparts (List.cons_ne_nil _ _)
  exact Nat.succ.inj hlen

end Texts

end Cyng
