import Cyng.Theory.Machine
import Cyng.Build

/-!
# UTF-8

Input is decoded byte by byte. The number of bytes of a glyph is read off the upper half of
its first byte; the lead bytes 0xD0 to 0xDF have no case of their own there and count as a
glyph of one byte. Characters U+0400 to U+07FF, which start with these bytes, are therefore
not decoded. All other characters are.
-/

namespace Cyng

open Theory

/-- The UTF-8 text of some characters. -/
def utf8 (cs : List Char) : Bytes := cs.flatMap String.utf8EncodeChar

@[simp] theorem utf8_nil : utf8 [] = [] := rfl

@[simp] theorem utf8_cons (c : Char) (cs : List Char) :
    utf8 (c :: cs) = String.utf8EncodeChar c ++ utf8 cs := rfl

@[simp] theorem utf8_append (cs cs' : List Char) : utf8 (cs ++ cs') = utf8 cs ++ utf8 cs' :=
  List.flatMap_append

/-- Different texts have different bytes. -/
theorem utf8_injective : Function.Injective utf8 := by
  intro cs cs' h
  have hencode : cs.utf8Encode = cs'.utf8Encode := congrArg List.toByteArray h
  have hdecode := congrArg ByteArray.utf8Decode? hencode
  simpa using hdecode

/-- `utf8_byte_count` -/
def utf8ByteCount (c : UInt8) : ℕ :=
  match c.toNat &&& 0xF0 with
  | 0 => 0
  | 0xC0 => 2
  | 0xE0 => 3
  | 0xF0 => 4
  | _ => 1

/-- `u8_to_u32`: the bytes of the glyph that were read so far, which are those of `char_` up
to `pos_`, and the number of bytes it has; 0 between two glyphs. -/
structure U8ToU32 where
  char : List UInt8
  size : ℕ
deriving DecidableEq, Repr

namespace U8ToU32

def initial : U8ToU32 := ⟨[], 0⟩

/-- `u8_to_u32::masks_` -/
def masks : List ℕ := [0x7F, 0x7FF, 0xFFFF, 0x1FFFFF]

/-- Build the code point of a complete glyph. -/
def glyph (char : List UInt8) : ℕ :=
  let value := char.tail.foldl (fun value c => (value <<< 6) + (c.toNat &&& 0x3F))
    (char.headD 0).toNat
  value &&& masks.getD (char.length - 1) 0

/-- `u8_to_u32::put`, with the callback of `sanitizer::put`. A `char` above 0x7F is negative,
which the comparison with an unsigned constant takes for a large number. -/
def put : Step U8ToU32 UInt8 ℕ Fault := fun s c =>
  if 0x7F < c.toNat ∨ s.size ≠ 0 then
    let size := if s.size = 0 then utf8ByteCount c else s.size
    let char := if s.size = 0 then [] else s.char
    if char.length < 4 then
      let char := char ++ [c]
      if char.length = size then .ok (initial, [glyph char])
      else .ok (⟨char, size⟩, [])
    else .error (.undefined "char_[pos_]")
  else .ok (s, [c.toNat])

/-! ### Characters that are decoded -/

/-- Characters outside the block whose lead bytes are mistaken. -/
def Decodes (c : Char) : Prop := c.toNat < 0x400 ∨ 0x800 ≤ c.toNat

instance (c : Char) : Decidable (Decodes c) := inferInstanceAs (Decidable (_ ∨ _))

theorem and_masks (n : ℕ) :
    n &&& 0x3F = n % 64 ∧ n &&& 0x7FF = n % 2048 ∧ n &&& 0xFFFF = n % 65536 ∧
      n &&& 0x1FFFFF = n % 2097152 :=
  ⟨Nat.and_two_pow_sub_one_eq_mod n 6, Nat.and_two_pow_sub_one_eq_mod n 11,
    Nat.and_two_pow_sub_one_eq_mod n 16, Nat.and_two_pow_sub_one_eq_mod n 21⟩

/-- The upper half of a lead byte names the size of the glyph. -/
theorem utf8ByteCount_lead :
    (∀ a < 16, utf8ByteCount (UInt8.ofNat (a + 0xC0)) = 2) ∧
      (∀ a < 16, utf8ByteCount (UInt8.ofNat (a + 0xE0)) = 3) ∧
      ∀ a < 8, utf8ByteCount (UInt8.ofNat (a + 0xF0)) = 4 := by
  decide

/-- The first byte of a glyph of several bytes. -/
theorem put_lead {c : UInt8} (h : 0x7F < c.toNat) (hsize : utf8ByteCount c ≠ 1) :
    put initial c = .ok (⟨[c], utf8ByteCount c⟩, []) := by
  simp [put, initial, h, Ne.symm hsize]

/-- A byte in the middle of a glyph. -/
theorem put_middle {char : List UInt8} {size : ℕ} {c : UInt8} (h : char.length + 1 < size)
    (hsize : size ≤ 4) : put ⟨char, size⟩ c = .ok (⟨char ++ [c], size⟩, []) := by
  have h0 : size ≠ 0 := by omega
  have hpos : char.length < 4 := by omega
  have hne : char.length + 1 ≠ size := by omega
  simp [put, h0, hpos, hne]

/-- The last byte of a glyph. -/
theorem put_last {char : List UInt8} {size : ℕ} {c : UInt8} (h : char.length + 1 = size)
    (hsize : size ≤ 4) : put ⟨char, size⟩ c = .ok (initial, [glyph (char ++ [c])]) := by
  have h0 : size ≠ 0 := by omega
  have hpos : char.length < 4 := by omega
  simp [put, h0, hpos, h]

section Glyphs

variable {a b c d : UInt8}

theorem glyph_two : glyph [a, b] = (a.toNat * 64 + b.toNat % 64) % 2048 := by
  simp [glyph, masks, and_masks, Nat.shiftLeft_eq]

theorem glyph_three :
    glyph [a, b, c] = ((a.toNat * 64 + b.toNat % 64) * 64 + c.toNat % 64) % 65536 := by
  simp [glyph, masks, and_masks, Nat.shiftLeft_eq]

theorem glyph_four : glyph [a, b, c, d] =
    (((a.toNat * 64 + b.toNat % 64) * 64 + c.toNat % 64) * 64 + d.toNat % 64) % 2097152 := by
  simp [glyph, masks, and_masks, Nat.shiftLeft_eq]

end Glyphs

theorem toNat_ofNat {a : ℕ} (h : a < 256) : (UInt8.ofNat a).toNat = a :=
  UInt8.toNat_ofNat_of_lt' h

theorem toNat_lt (c : Char) : c.toNat < 0x110000 := by
  rcases c.valid with h | h <;> have : c.toNat = c.val.toNat := rfl <;> omega

/-- A byte that can begin a glyph; all others continue one. -/
def IsLead (c : UInt8) : Prop := c.toNat &&& 0xC0 ≠ 0x80

instance (c : UInt8) : Decidable (IsLead c) := inferInstanceAs (Decidable (_ ≠ _))

theorem isLead_of_lt {a : ℕ} (h : a < 128) : IsLead (UInt8.ofNat a) := by
  revert a
  decide

theorem isLead_add {a : ℕ} (h : a < 64) : IsLead (UInt8.ofNat (a + 0xC0)) := by
  revert a
  decide

section Machine

variable {f : Step U8ToU32 UInt8 ℕ Fault}
  (hf : ∀ s c, s.size ≠ 0 ∨ IsLead c → f s c = put s c)

include hf

/-- A character is decoded from its own bytes, with or without a look at the bytes that begin
a glyph. -/
theorem run_char {c : Char} (h : Decodes c) :
    Step.run f initial (String.utf8EncodeChar c) = .ok (initial, [c.toNat]) := by
  obtain ⟨htwo, hthree, hfour⟩ := utf8ByteCount_lead
  have hmax := toNat_lt c
  change c.toNat < 0x400 ∨ 0x800 ≤ c.toNat at h
  have hv : c.val.toNat = c.toNat := rfl
  unfold String.utf8EncodeChar
  simp only [hv]
  generalize c.toNat = v at *
  have htail (a : ℕ) : (UInt8.ofNat (a % 64 + 0x80)).toNat = a % 64 + 0x80 :=
    toNat_ofNat (by omega)
  have hfirst {c : UInt8} (hlead : IsLead c) : f initial c = put initial c := hf _ _ (Or.inr hlead)
  have hmiddle {char : List UInt8} {size : ℕ} {c : UInt8} (h : char.length + 1 < size)
      (hsize : size ≤ 4) : f ⟨char, size⟩ c = .ok (⟨char ++ [c], size⟩, []) :=
    (hf _ _ (Or.inl (Nat.ne_of_gt (Nat.zero_lt_of_lt h)))).trans (put_middle h hsize)
  have hlast {char : List UInt8} {size : ℕ} {c : UInt8} (h : char.length + 1 = size)
      (hsize : size ≤ 4) : f ⟨char, size⟩ c = .ok (initial, [glyph (char ++ [c])]) :=
    (hf _ _ (Or.inl (by simp [← h]))).trans (put_last h hsize)
  -- one case for each number of bytes; the glyph of the bytes is the character again
  split_ifs with h1 h2 h3
  · have hb : (UInt8.ofNat v).toNat = v := toNat_ofNat (by omega)
    refine Step.run_singleton ((hfirst (isLead_of_lt (by omega))).trans ?_)
    simp only [put, hb, initial]
    rw [if_neg (by omega)]
  · have hlead := htwo (v / 64 % 32) (by omega)
    have hb : (UInt8.ofNat (v / 64 % 32 + 0xC0)).toNat = v / 64 % 32 + 0xC0 :=
      toNat_ofNat (by omega)
    have hglyph : ((v / 64 % 32 + 0xC0) * 64 + (v % 64 + 0x80) % 64) % 2048 = v := by omega
    refine Step.run_cons_ok ((hfirst (isLead_add (by omega))).trans
      (put_lead (by omega) (by rw [hlead]; decide))) ?_
    rw [hlead]
    refine Step.run_singleton ((hlast rfl (by simp)).trans ?_)
    rw [List.singleton_append, glyph_two, hb, htail, hglyph]
  · have hlead := hthree (v / 4096 % 16) (by omega)
    have hb : (UInt8.ofNat (v / 4096 % 16 + 0xE0)).toNat = v / 4096 % 16 + 0xE0 :=
      toNat_ofNat (by omega)
    have hglyph : (((v / 4096 % 16 + 0xE0) * 64 + (v / 64 % 64 + 0x80) % 64) * 64 +
        (v % 64 + 0x80) % 64) % 65536 = v := by omega
    have hbyte : v / 4096 % 16 + 0xE0 = v / 4096 % 16 + 32 + 0xC0 := by omega
    refine Step.run_cons_ok ((hfirst (by rw [hbyte]; exact isLead_add (by omega))).trans
      (put_lead (by omega) (by rw [hlead]; decide))) ?_
    rw [hlead]
    refine Step.run_cons_ok (hmiddle (by simp) (by simp)) ?_
    refine Step.run_singleton ((hlast rfl (by simp)).trans ?_)
    rw [List.singleton_append, List.cons_append, List.singleton_append, glyph_three, hb, htail,
      htail, hglyph]
  · have hlead := hfour (v / 262144 % 8) (by omega)
    have hb : (UInt8.ofNat (v / 262144 % 8 + 0xF0)).toNat = v / 262144 % 8 + 0xF0 :=
      toNat_ofNat (by omega)
    have hglyph : ((((v / 262144 % 8 + 0xF0) * 64 + (v / 4096 % 64 + 0x80) % 64) * 64 +
        (v / 64 % 64 + 0x80) % 64) * 64 + (v % 64 + 0x80) % 64) % 2097152 = v := by omega
    have hbyte : v / 262144 % 8 + 0xF0 = v / 262144 % 8 + 48 + 0xC0 := by omega
    refine Step.run_cons_ok ((hfirst (by rw [hbyte]; exact isLead_add (by omega))).trans
      (put_lead (by omega) (by rw [hlead]; decide))) ?_
    rw [hlead]
    refine Step.run_cons_ok (hmiddle (by simp) (by simp)) ?_
    refine Step.run_cons_ok (hmiddle (by simp) (by simp)) ?_
    refine Step.run_singleton ((hlast rfl (by simp)).trans ?_)
    simp only [List.cons_append, List.nil_append]
    rw [glyph_four, hb, htail, htail, htail, hglyph]

/-- Text of such characters is decoded to their code points. -/
theorem run_utf8 {cs : List Char} (h : ∀ c ∈ cs, Decodes c) :
    Step.run f initial (utf8 cs) = .ok (initial, cs.map Char.toNat) := by
  induction cs with
  | nil => rfl
  | cons c cs ih =>
    have htail := ih fun x hx => h x (List.mem_cons_of_mem _ hx)
    exact Step.run_append_ok (run_char hf (h c List.mem_cons_self)) htail

end Machine

theorem run_put_utf8 {cs : List Char} (h : ∀ c ∈ cs, Decodes c) :
    Step.run put initial (utf8 cs) = .ok (initial, cs.map Char.toNat) :=
  run_utf8 (fun _ _ _ => rfl) h

/-! ### The iterator -/

/-- `u8_to_u32_iterator::dereference`: one byte of the loop. A glyph must not begin with a byte
that continues one. -/
def dereference (b : Build) : Step U8ToU32 UInt8 ℕ Fault := fun s c =>
  if s.size = 0 then do
    b.check "(*pos_ & 0xC0) != 0x80" (IsLead c)
    put s c
  else put s c

/-- The code points from the beginning of a string to its end. The loop reads on beyond the end
where the last glyph is not complete. -/
def codePoints (b : Build) (str : Bytes) : Except Fault (List ℕ) :=
  match Step.run (dereference b) initial str with
  | .error e => .error e
  | .ok (s, cps) => if s = initial then .ok cps else .error (.undefined "*pos_")

/-- What becomes of a character: both bytes of one that is not decoded count as a glyph. -/
def decoded (c : Char) : List ℕ :=
  if Decodes c then [c.toNat] else [c.toNat / 64 + 0x40, c.toNat % 64]

section Iterator

variable {b : Build}

theorem dereference_eq_put {s : U8ToU32} {c : UInt8} (h : s.size ≠ 0 ∨ IsLead c) :
    dereference b s c = put s c := by
  unfold dereference
  split_ifs with hsize
  · rw [Build.check_of (h.resolve_left (not_not_intro hsize))]
    rfl
  · rfl

/-- The assertion is the only difference. -/
theorem put_of_dereference {s : U8ToU32} {c : UInt8} {r : U8ToU32 × List ℕ}
    (h : dereference b s c = .ok r) : put s c = .ok r := by
  unfold dereference at h
  split_ifs at h with hsize
  · obtain ⟨_, -, hput⟩ := bind_eq_ok_iff.mp h
    exact hput
  · exact h

/-- The lead bytes without a case of their own, and the bytes that continue a glyph. -/
theorem utf8ByteCount_other :
    (∀ a < 16, utf8ByteCount (UInt8.ofNat (a + 0xD0)) = 1) ∧
      ∀ a < 64, utf8ByteCount (UInt8.ofNat (a + 0x80)) = 1 := by
  decide

theorem put_other {c : UInt8} (h : 0x7F < c.toNat) (hsize : utf8ByteCount c = 1) :
    put initial c = .ok (initial, [c.toNat % 128]) := by
  have hmask : c.toNat &&& 0x7F = c.toNat % 128 := Nat.and_two_pow_sub_one_eq_mod _ 7
  simp [put, initial, h, hsize, glyph, masks, hmask]

theorem run_put_char (c : Char) :
    Step.run put initial (String.utf8EncodeChar c) = .ok (initial, decoded c) := by
  by_cases hdecodes : Decodes c
  · rw [run_char (fun _ _ _ => rfl) hdecodes, decoded, if_pos hdecodes]
  · obtain ⟨hother, htail⟩ := utf8ByteCount_other
    have hv : c.val.toNat = c.toNat := rfl
    simp only [decoded, hdecodes, if_false]
    simp only [Decodes, not_or, not_lt, not_le] at hdecodes
    unfold String.utf8EncodeChar
    simp only [hv]
    generalize c.toNat = v at *
    rw [if_neg (by omega), if_pos (by omega)]
    -- neither of the two bytes is taken for the beginning of a glyph, and each gives a code point
    have hlead : v / 64 % 32 + 0xC0 = v / 64 - 16 + 0xD0 := by omega
    have hb : (UInt8.ofNat (v / 64 - 16 + 0xD0)).toNat = v / 64 - 16 + 0xD0 :=
      toNat_ofNat (by omega)
    have hb' : (UInt8.ofNat (v % 64 + 0x80)).toNat = v % 64 + 0x80 := toNat_ofNat (by omega)
    have hcp : (v / 64 - 16 + 0xD0) % 128 = v / 64 + 0x40 := by omega
    have hcp' : (v % 64 + 0x80) % 128 = v % 64 := by omega
    have hfirst := put_other (by omega) (hother (v / 64 - 16) (by omega))
    have hsecond := put_other (by omega) (htail (v % 64) (by omega))
    rw [hb, hcp] at hfirst
    rw [hb', hcp'] at hsecond
    rw [hlead]
    exact Step.run_cons_ok hfirst (Step.run_singleton hsecond)

/-- What becomes of a text. -/
theorem run_put_text (cs : List Char) :
    Step.run put initial (utf8 cs) = .ok (initial, cs.flatMap decoded) := by
  induction cs with
  | nil => rfl
  | cons c cs ih => exact Step.run_append_ok (run_put_char c) ih

/-- Where the assertion holds throughout, the iterator gives nothing else. -/
theorem run_put_of_dereference {str : Bytes} {s : U8ToU32} {r : U8ToU32 × List ℕ}
    (h : Step.run (dereference b) s str = .ok r) : Step.run put s str = .ok r := by
  induction str generalizing s r with
  | nil => exact h
  | cons c str ih =>
    obtain ⟨s', os, os', hhead, htail, hout⟩ := Step.run_cons_eq_ok_iff.mp h
    exact Step.run_cons_eq_ok_iff.mpr ⟨s', os, os', put_of_dereference hhead, ih htail, hout⟩

/-- The code points of a text. -/
theorem codePoints_utf8 {cs : List Char} {cps : List ℕ} (h : codePoints b (utf8 cs) = .ok cps) :
    cps = cs.flatMap decoded := by
  unfold codePoints at h
  split at h
  case h_1 => cases h
  case h_2 s cps' hok =>
    cases (run_put_text cs).symm.trans (run_put_of_dereference hok)
    exact (Except.ok.inj h).symm

theorem codePoints_of_decodes {cs : List Char} (h : ∀ c ∈ cs, Decodes c) :
    codePoints b (utf8 cs) = .ok (cs.map Char.toNat) := by
  simp [codePoints, run_utf8 (fun _ _ => dereference_eq_put) h]

end Iterator

end U8ToU32

end Cyng
