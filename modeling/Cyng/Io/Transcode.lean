import Cyng.Io.Utf8

/-!
# UTF-8 in both directions

Bytes arrive one by one, in chunks of any size, and each byte either completes a character or
does not. On text without the characters U+0400 to U+07FF the code point of a character comes
with its last byte and with no other one; any of these characters spoils the text. The way back,
from code points to bytes, works for all characters.
-/

namespace Cyng

open Theory

/-- `utf8_char_size` -/
def utf8CharSize (c : ℕ) : ℕ :=
  if c < 0x80 then 1
  else if c < 0x800 then 2
  else if c < 0x10000 then 3
  else if c < 0x200000 then 4
  else if c < 0x4000000 then 5
  else if c ≤ 0x7FFFFFFF then 6
  else 0

/-- `utf8_prefix` -/
def utf8Prefix (size : ℕ) : ℕ :=
  match size with
  | 2 => 0xC0
  | 3 => 0xE0
  | 4 => 0xF0
  | _ => 0

namespace U32ToU8

/-- `u32_to_u8::put`: the four bytes of `char_`, which the loop fills from behind, and how many
of them count. -/
def put (b : Build) (c : ℕ) : Except Fault (Bytes × ℕ) := do
  let size := utf8CharSize c
  b.check "size < 5" (size < 5)
  let (char, c) := [4, 3, 2].foldl
    (fun (s : Bytes × ℕ) pos =>
      if pos ≤ size then (UInt8.ofNat (s.2 &&& 0x3F ||| 0x80) :: s.1, s.2 >>> 6)
      else (0 :: s.1, s.2))
    ([], c)
  return (UInt8.ofNat (c ||| utf8Prefix size) :: char, size)

/-- What a caller takes from the result. -/
def emit (b : Build) : Step Unit ℕ UInt8 Fault := fun _ c => do
  let (char, size) ← put b c
  return ((), char.take size)

/-- The marks of the bytes do not touch the bits of the code point. -/
theorem or_marks :
    (∀ a < 64, a ||| 0x80 = a + 0x80) ∧ (∀ a < 32, a ||| 0xC0 = a + 0xC0) ∧
      (∀ a < 16, a ||| 0xE0 = a + 0xE0) ∧ ∀ a < 8, a ||| 0xF0 = a + 0xF0 := by
  decide

variable {b : Build}

theorem emit_char (c : Char) : emit b () c.toNat = .ok ((), String.utf8EncodeChar c) := by
  obtain ⟨htail, htwo, hthree, hfour⟩ := or_marks
  have hmax := U8ToU32.toNat_lt c
  have hv : c.val.toNat = c.toNat := rfl
  unfold String.utf8EncodeChar
  simp only [hv]
  generalize c.toNat = v at *
  have hlow (a : ℕ) : (a &&& 0x3F) ||| 0x80 = a % 64 + 0x80 := by
    rw [(U8ToU32.and_masks a).1]
    exact htail _ (Nat.mod_lt _ (by decide))
  have hshift (a : ℕ) : a >>> 6 = a / 64 := Nat.shiftRight_eq_div_pow a 6
  -- one case for each number of bytes
  split_ifs with h1 h2 h3
  · have hsize : utf8CharSize v = 1 := if_pos (by omega)
    simp [emit, put, hsize, utf8Prefix, Build.check_of]
  · have hsize : utf8CharSize v = 2 := by
      unfold utf8CharSize
      rw [if_neg (by omega), if_pos (by omega)]
    have hlead : v / 64 ||| 0xC0 = v / 64 % 32 + 0xC0 := by
      rw [Nat.mod_eq_of_lt (by omega)]
      exact htwo _ (by omega)
    simp [emit, put, hsize, utf8Prefix, Build.check_of, hlow, hshift, hlead]
  · have hsize : utf8CharSize v = 3 := by
      unfold utf8CharSize
      rw [if_neg (by omega), if_neg (by omega), if_pos (by omega)]
    have hlead : v / 64 / 64 ||| 0xE0 = v / 4096 % 16 + 0xE0 := by
      rw [Nat.div_div_eq_div_mul, Nat.mod_eq_of_lt (by omega)]
      exact hthree _ (by omega)
    simp [emit, put, hsize, utf8Prefix, Build.check_of, hlow, hshift, hlead]
  · have hsize : utf8CharSize v = 4 := by
      unfold utf8CharSize
      rw [if_neg (by omega), if_neg (by omega), if_neg (by omega), if_pos (by omega)]
    have hmiddle : v / 64 / 64 = v / 4096 := Nat.div_div_eq_div_mul ..
    have hlead : v / 4096 / 64 ||| 0xF0 = v / 262144 % 8 + 0xF0 := by
      rw [Nat.div_div_eq_div_mul, Nat.mod_eq_of_lt (by omega)]
      exact hfour _ (by omega)
    simp [emit, put, hsize, utf8Prefix, Build.check_of, hlow, hshift, hmiddle, hlead]

/-- Code points are mapped back to the text they come from. -/
theorem run_emit (cs : List Char) :
    Step.run (emit b) () (cs.map Char.toNat) = .ok ((), utf8 cs) := by
  induction cs with
  | nil => rfl
  | cons c cs ih => exact Step.run_cons_ok (emit_char c) ih

end U32ToU8

namespace U8ToU32

/-! ### Byte by byte -/

/-- What the bytes of a character should deliver: its code point, with the last one. -/
def delivery (c : Char) : List (List ℕ) :=
  List.replicate ((String.utf8EncodeChar c).length - 1) [] ++ [[c.toNat]]

/-- Whatever the chunks, every character is delivered with its last byte. -/
def Delivered (cs : List Char) : Prop :=
  ∀ chunks : List Bytes, chunks.flatten = utf8 cs →
    Step.run (Step.runChunks (Step.each put)) initial chunks = .ok (initial, cs.flatMap delivery)

theorem flatten_delivery (cs : List Char) :
    (cs.flatMap delivery).flatten = cs.map Char.toNat := by
  induction cs with
  | nil => rfl
  | cons c cs ih => simp [delivery, ih]

/-- Between two glyphs again means that one was completed. -/
theorem put_initial {s : U8ToU32} {c : UInt8} {os : List ℕ} (h : put s c = .ok (initial, os)) :
    ∃ cp, os = [cp] := by
  simp only [put] at h
  generalize (if s.size = 0 then utf8ByteCount c else s.size) = size at h
  generalize (if s.size = 0 then [] else s.char) = char at h
  split_ifs at h with hglyph hpos hlast
  · obtain ⟨-, rfl⟩ := Prod.mk.inj (Except.ok.inj h)
    exact ⟨_, rfl⟩
  · have hchar := congrArg U8ToU32.char (Prod.mk.inj (Except.ok.inj h)).1
    simp [initial] at hchar
  · obtain ⟨-, rfl⟩ := Prod.mk.inj (Except.ok.inj h)
    exact ⟨_, rfl⟩

theorem run_each_char {c : Char} (h : Decodes c) :
    Step.run (Step.each put) initial (String.utf8EncodeChar c) = .ok (initial, delivery c) := by
  have hrun : Step.run put initial (String.utf8EncodeChar c) = .ok (initial, [c.toNat]) :=
    run_char (fun _ _ _ => rfl) h
  have hne : String.utf8EncodeChar c ≠ [] := String.utf8EncodeChar_ne_nil
  obtain ⟨front, last, hbytes⟩ : ∃ front last, String.utf8EncodeChar c = front ++ [last] :=
    ⟨_, _, (List.dropLast_append_getLast hne).symm⟩
  rw [delivery]
  rw [hbytes] at hrun ⊢
  obtain ⟨s, os, os', hfront, hlast, hout⟩ := Step.run_append_eq_ok_iff.mp hrun
  rw [Step.run_singleton_eq] at hlast
  obtain ⟨cp, rfl⟩ := put_initial hlast
  -- all there is comes with the last byte
  obtain ⟨rfl, rfl⟩ : os = [] ∧ c.toNat = cp := by
    cases os with
    | nil => simpa using hout
    | cons x os => simp at hout
  have hmoves : Step.Moves put initial front s := hfront
  rw [List.length_append, List.length_singleton, Nat.add_sub_cancel]
  exact Step.run_append_ok hmoves.run_each (Step.run_singleton (Step.each_of_ok hlast))

theorem delivered_of_decodes {cs : List Char} (h : ∀ c ∈ cs, Decodes c) : Delivered cs := by
  intro chunks hchunks
  apply Step.run_runChunks_of_flatten
  rw [hchunks]
  clear hchunks
  induction cs with
  | nil => rfl
  | cons c cs ih =>
    have htail := ih fun x hx => h x (List.mem_cons_of_mem _ hx)
    exact Step.run_append_ok (run_each_char (h c List.mem_cons_self)) htail

/-! ### Text that is spoiled -/

theorem length_decoded_pos (c : Char) : 1 ≤ (decoded c).length := by
  unfold decoded
  split_ifs <;> simp

theorem length_flatMap_decoded (cs : List Char) : cs.length ≤ (cs.flatMap decoded).length := by
  induction cs with
  | nil => simp
  | cons c cs ih =>
    have hc := length_decoded_pos c
    rw [List.flatMap_cons, List.length_append, List.length_cons]
    omega

/-- As many code points as characters is only possible where all of them are decoded. -/
theorem decodes_of_length {cs : List Char} (h : (cs.flatMap decoded).length = cs.length) :
    ∀ c ∈ cs, Decodes c := by
  induction cs with
  | nil => simp
  | cons c cs ih =>
    have hc := length_decoded_pos c
    have hcs := length_flatMap_decoded cs
    rw [List.flatMap_cons, List.length_append, List.length_cons] at h
    refine List.forall_mem_cons.mpr ⟨?_, ih (by omega)⟩
    by_contra hspoiled
    have htwo : (decoded c).length = 2 := by simp [decoded, hspoiled]
    omega

/-- Bytes are decoded as the iterator decodes them, less its assertion. -/
theorem codePoints_of_run {str : Bytes} {cps : List ℕ}
    (h : Step.run put initial str = .ok (initial, cps)) :
    codePoints .release str = .ok cps := by
  have hsame : dereference .release = put := by
    funext s c
    unfold dereference
    split_ifs <;> rfl
  simp [codePoints, hsame, h]

theorem decodes_of_delivered {cs : List Char} (h : Delivered cs) : ∀ c ∈ cs, Decodes c := by
  have hone : [utf8 cs].flatten = utf8 cs := List.flatten_singleton
  have hchunk := Step.run_runChunks_eq_ok_iff.mp (h [utf8 cs] hone)
  rw [hone] at hchunk
  have hrun := Step.run_of_run_each hchunk
  rw [flatten_delivery] at hrun
  have hdecoded : cs.map Char.toNat = cs.flatMap decoded :=
    codePoints_utf8 (codePoints_of_run hrun)
  apply decodes_of_length
  rw [← hdecoded, List.length_map]

/-- A text makes the round trip exactly if all of its characters are decoded. -/
theorem stream_decoding {b : Build} {cs : List Char} :
    (Delivered cs ∧ Step.run (U32ToU8.emit b) () (cs.map Char.toNat) = .ok ((), utf8 cs)) ↔
      ∀ c ∈ cs, Decodes c :=
  ⟨fun h => decodes_of_delivered h.1, fun h => ⟨delivered_of_decodes h, U32ToU8.run_emit cs⟩⟩

/-- The letter U+0410, whose first byte is 0xD0. -/
theorem not_delivered : ¬ Delivered [Char.ofNat 0x410] := fun h =>
  absurd (decodes_of_delivered h _ List.mem_cons_self) (by decide)

end U8ToU32

end Cyng
