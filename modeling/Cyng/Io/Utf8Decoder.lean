import Cyng.Io.Utf8

/-!
# The members of the UTF-8 decoder

The decoder keeps the bytes of a glyph in an array of four, with a position and a size beside
it, and none of its accesses is checked. Here they are: an access beyond the end of the array
or of the table of masks is a fault. Whatever bytes arrive, no access is one, since a glyph
has at most four bytes and its position stays below its size. The decoder of the glyphs read
so far is what remains when the bytes beyond the position are forgotten.
-/

namespace Cyng

open Theory

namespace U8ToU32

/-- `u8_to_u32` with all its members. -/
structure DecoderState where
  char : Vector UInt8 4
  pos : ℕ
  size : ℕ
  value : UInt32
deriving DecidableEq

namespace DecoderState

/-- `u8_to_u32::u8_to_u32` -/
def initial : DecoderState := ⟨Vector.replicate 4 0, 0, 0, 0⟩

/-- `u8_to_u32::masks_` -/
def masks : Vector UInt32 4 := #v[0x7F, 0x7FF, 0xFFFF, 0x1FFFFF]

/-- `char_[idx]` -/
def charAt (s : DecoderState) (idx : ℕ) : Except Fault UInt8 :=
  if h : idx < 4 then .ok s.char[idx] else .error (.undefined "char_[idx]")

/-- `char_[idx] = c` -/
def setChar (s : DecoderState) (idx : ℕ) (c : UInt8) : Except Fault DecoderState :=
  if h : idx < 4 then .ok { s with char := s.char.set idx c }
  else .error (.undefined "char_[pos_]")

/-- `masks_[idx]` -/
def maskAt (idx : ℕ) : Except Fault UInt32 :=
  if h : idx < 4 then .ok masks[idx] else .error (.undefined "masks_[size_ - 1]")

/-- One round of the loop over the bytes that continue a glyph. -/
def extend (s : DecoderState) (value : UInt32) (idx : ℕ) : Except Fault UInt32 := do
  let c ← s.charAt idx
  pure ((value <<< 6) + (c.toUInt32 &&& 0x3F))

/-- Build the value of a complete glyph: the loop, and the bits that do not belong to it
masked out. -/
def build (s : DecoderState) : Except Fault UInt32 := do
  let c ← s.charAt 0
  let value ← (List.range' 1 (s.size - 1)).foldlM s.extend c.toUInt32
  let mask ← maskAt (s.size - 1)
  pure (value &&& mask)

/-- The `char` as the first half of the result: its sign is extended. -/
def extended (c : UInt8) : UInt32 := c.toInt8.toInt32.toUInt32

/-- `u8_to_u32::put` -/
def put (s : DecoderState) (c : UInt8) : Except Fault (DecoderState × UInt32 × Bool) :=
  if 0x7F < c.toNat ∨ s.size ≠ 0 then do
    let s := if s.size = 0 then { s with pos := 0, size := utf8ByteCount c } else s
    let s ← s.setChar s.pos c
    let s := { s with pos := s.pos + 1 }
    if s.pos = s.size then
      let value ← s.build
      pure ({ s with value, size := 0 }, value, true)
    else pure (s, extended c, false)
  else pure ({ s with value := c.toUInt32 }, c.toUInt32, true)

/-- `sanitizer::put`: the callback gets the values of complete glyphs. -/
def sanitize : Step DecoderState UInt8 UInt32 Fault := fun s c => do
  let (s, value, complete) ← s.put c
  pure (s, if complete then [value] else [])

/-! ### The invariant -/

/-- A glyph is pending: its bytes stop short of its size, which the array can hold. -/
structure Pending (s : DecoderState) : Prop where
  pos_lt : s.pos < s.size
  size_le : s.size ≤ 4

/-- Between two glyphs, or with one pending. -/
def Sound (s : DecoderState) : Prop := s.size ≠ 0 → s.Pending

theorem sound_of_size {s : DecoderState} (h : s.size = 0) : s.Sound := fun h' => absurd h h'

theorem sound_initial : initial.Sound := sound_of_size rfl

theorem Pending.sound {s : DecoderState} (h : s.Pending) : s.Sound := fun _ => h

/-- The glyph read so far. -/
def read (s : DecoderState) : U8ToU32 :=
  if s.size = 0 then U8ToU32.initial else ⟨s.char.toList.take s.pos, s.size⟩

section Accesses

variable {s : DecoderState} {idx : ℕ} {c : UInt8}

theorem charAt_of_lt (h : idx < 4) : s.charAt idx = .ok s.char[idx] := by
  simp [charAt, h]

theorem setChar_of_lt (h : idx < 4) :
    s.setChar idx c = .ok { s with char := s.char.set idx c } := by
  simp [setChar, h]

theorem maskAt_of_lt (h : idx < 4) : maskAt idx = .ok masks[idx] := by
  simp [maskAt, h]

theorem extend_of_lt {value : UInt32} (h : idx < 4) :
    s.extend value idx = .ok ((value <<< 6) + (s.char[idx].toUInt32 &&& 0x3F)) := by
  simp [extend, charAt_of_lt h]

/-- The byte that is stored comes after those that were. -/
theorem take_set {char : Vector UInt8 4} (h : idx < 4) :
    (char.set idx c).toList.take (idx + 1) = char.toList.take idx ++ [c] := by
  have hlen : idx < (char.set idx c).toList.length := by simpa using h
  rw [List.take_succ_eq_append_getElem hlen]
  simp [Vector.toList_set, List.take_set_of_le]

end Accesses

/-! ### The value of a glyph -/

/-- A shift by six bits makes room for six more. -/
theorem toNat_extend {value : UInt32} {c : UInt8} :
    ((value <<< 6) + (c.toUInt32 &&& 0x3F)).toNat =
      ((value.toNat <<< 6) + (c.toNat &&& 0x3F)) % 2 ^ 32 := by
  simp [UInt32.toNat_add, UInt32.toNat_shiftLeft]

/-- Both tables of masks keep the same number of bits, and none is lost before. -/
theorem and_mask {idx : ℕ} (h : idx < 4) {value : UInt32} {n : ℕ}
    (hvalue : value.toNat = n % 2 ^ 32) :
    (value &&& masks[idx]).toNat = n &&& U8ToU32.masks.getD idx 0 := by
  obtain ⟨k, hk, hmask, hmask'⟩ : ∃ k ≤ 32, masks[idx].toNat = 2 ^ k - 1 ∧
      U8ToU32.masks.getD idx 0 = 2 ^ k - 1 := by
    rcases idx with _ | _ | _ | _ | idx
    · exact ⟨7, by decide, rfl, rfl⟩
    · exact ⟨11, by decide, rfl, rfl⟩
    · exact ⟨16, by decide, rfl, rfl⟩
    · exact ⟨21, by decide, rfl, rfl⟩
    · omega
  rw [UInt32.toNat_and, hmask, hmask', hvalue, Nat.and_two_pow_sub_one_eq_mod,
    Nat.and_two_pow_sub_one_eq_mod, Nat.mod_mod_of_dvd n (pow_dvd_pow 2 hk)]

/-- One more byte of a glyph. -/
abbrev glyphStep (value : ℕ) (c : UInt8) : ℕ := (value <<< 6) + (c.toNat &&& 0x3F)

theorem glyphStep_mod (value : ℕ) (c : UInt8) :
    glyphStep (value % 2 ^ 32) c % 2 ^ 32 = glyphStep value c % 2 ^ 32 := by
  simp [glyphStep, Nat.shiftLeft_eq, Nat.add_mod, Nat.mul_mod]

/-- The loop over the bytes that continue a glyph. -/
theorem foldlM_extend {s : DecoderState} {n : ℕ} (h : n < 4) :
    ∃ value : UInt32,
      (List.range' 1 n).foldlM s.extend s.char[0].toUInt32 = .ok value ∧
      value.toNat = (s.char.toList.tail.take n).foldl glyphStep s.char[0].toNat % 2 ^ 32 := by
  induction n with
  | zero =>
    have hbyte := UInt8.toNat_lt s.char[0]
    refine ⟨s.char[0].toUInt32, rfl, ?_⟩
    rw [List.take_zero, List.foldl_nil, Nat.mod_eq_of_lt (by omega)]
    exact UInt8.toNat_toUInt32 _
  | succ n ih =>
    obtain ⟨value, hfold, hvalue⟩ := ih (by omega)
    have hn : 1 + n < 4 := by omega
    have hlen : n < s.char.toList.tail.length := by simp; omega
    refine ⟨(value <<< 6) + (s.char[1 + n].toUInt32 &&& 0x3F), ?_, ?_⟩
    · rw [List.range'_1_concat, List.foldlM_append, hfold]
      simp [extend_of_lt hn, bind, Except.bind, pure, Except.pure]
    · rw [toNat_extend, hvalue, List.take_succ_eq_append_getElem hlen, List.foldl_append]
      have hlast : s.char.toList.tail[n] = s.char[1 + n] := by simp [Nat.add_comm]
      rw [hlast]
      exact glyphStep_mod _ _

/-- What is built is the glyph of the bytes up to the size. -/
theorem build_eq {s : DecoderState} (h0 : s.size ≠ 0) (h : s.size ≤ 4) :
    ∃ value : UInt32, s.build = .ok value ∧
      value.toNat = glyph (s.char.toList.take s.size) := by
  have hidx : s.size - 1 < 4 := by omega
  obtain ⟨value, hfold, hvalue⟩ := foldlM_extend (s := s) hidx
  refine ⟨value &&& masks[s.size - 1], ?_, ?_⟩
  · simp [build, charAt_of_lt, maskAt_of_lt hidx, hfold, bind, Except.bind, pure, Except.pure]
  · obtain ⟨n, hn⟩ := Nat.exists_eq_succ_of_ne_zero h0
    have htail : (s.char.toList.take (n + 1)).tail = s.char.toList.tail.take n := by
      rw [← List.drop_one, List.drop_take, List.drop_one, Nat.add_sub_cancel]
    have hhead : (s.char.toList.take (n + 1)).headD 0 = s.char[0] := by
      rw [List.headD_eq_getD]
      simp
    have hlen : (s.char.toList.take (n + 1)).length = n + 1 := by simp; omega
    rw [and_mask hidx hvalue, hn, Nat.succ_eq_add_one, glyph, htail, hhead, hlen]
    rfl

/-! ### One byte -/

section Steps

variable {s : DecoderState} {c : UInt8}

/-- A byte between two glyphs that is a glyph of its own. -/
theorem sanitize_ascii (h : c.toNat ≤ 0x7F) (hsize : s.size = 0) :
    sanitize s c = .ok ({ s with value := c.toUInt32 }, [c.toUInt32]) := by
  have hput : put s c = .ok ({ s with value := c.toUInt32 }, c.toUInt32, true) := by
    unfold put
    rw [if_neg (by omega)]
    rfl
  simp [sanitize, hput, bind, Except.bind, pure, Except.pure]

/-- A byte that begins a glyph is read like one that continues it. -/
theorem sanitize_begin (h : 0x7F < c.toNat) (hsize : s.size = 0) (hcount : utf8ByteCount c ≠ 0) :
    sanitize s c = sanitize { s with pos := 0, size := utf8ByteCount c } c := by
  simp [sanitize, put, h, hsize, hcount]

/-- A byte in the middle of a glyph. -/
theorem sanitize_middle (h : s.pos + 1 < s.size) (hsize : s.size ≤ 4) :
    ∃ char : Vector UInt8 4, sanitize s c = .ok ({ s with char, pos := s.pos + 1 }, []) ∧
      char.toList.take (s.pos + 1) = s.char.toList.take s.pos ++ [c] := by
  have h0 : s.size ≠ 0 := by omega
  have hpos : s.pos < 4 := by omega
  have hne : s.pos + 1 ≠ s.size := by omega
  have hput : put s c = .ok ({ s with char := s.char.set s.pos c, pos := s.pos + 1 },
      extended c, false) := by
    simp [put, h0, setChar_of_lt hpos, hne, bind, Except.bind, pure, Except.pure]
  refine ⟨s.char.set s.pos c, ?_, take_set hpos⟩
  simp [sanitize, hput, bind, Except.bind, pure, Except.pure]

/-- The last byte of a glyph. -/
theorem sanitize_last (h : s.pos + 1 = s.size) (hsize : s.size ≤ 4) :
    ∃ (char : Vector UInt8 4) (value : UInt32),
      sanitize s c = .ok ({ s with char, pos := s.pos + 1, size := 0, value }, [value]) ∧
      value.toNat = glyph (s.char.toList.take s.pos ++ [c]) := by
  have h0 : s.size ≠ 0 := by omega
  have hpos : s.pos < 4 := by omega
  obtain ⟨value, hbuild, hvalue⟩ := build_eq
    (s := { s with char := s.char.set s.pos c, pos := s.size }) h0 hsize
  have hput : put s c = .ok ({ s with
      char := s.char.set s.pos c, pos := s.pos + 1, size := 0, value }, value, true) := by
    simp [put, h0, setChar_of_lt hpos, h, hbuild, bind, Except.bind, pure, Except.pure]
  refine ⟨s.char.set s.pos c, value, ?_, ?_⟩
  · simp [sanitize, hput, bind, Except.bind, pure, Except.pure]
  · rw [hvalue, ← take_set hpos, h]

/-- How many bytes at most it takes until the next code point. -/
def left (s : DecoderState) : ℕ := if s.size = 0 then 4 else s.size - s.pos

/-- What becomes of one byte: nothing goes wrong, a code point comes nearer or is there, and the
glyphs that are read are those of the bytes alone. -/
def Reads (s : DecoderState) (c : UInt8) : Prop :=
  ∃ (s' : DecoderState) (cps : List UInt32), sanitize s c = .ok (s', cps) ∧ s'.Sound ∧
    (cps = [] → s'.left < s.left) ∧
    U8ToU32.put s.read c = .ok (s'.read, cps.map UInt32.toNat)

theorem Pending.size_ne_zero (h : s.Pending) : s.size ≠ 0 := Nat.ne_zero_of_lt h.pos_lt

theorem Pending.reads (h : s.Pending) : s.Reads c := by
  have h0 := h.size_ne_zero
  have hread : s.read = ⟨s.char.toList.take s.pos, s.size⟩ := by simp [read, h0]
  have hlen : (s.char.toList.take s.pos).length = s.pos := by
    have := h.pos_lt
    have := h.size_le
    simp
    omega
  rcases Nat.lt_or_eq_of_le (Nat.succ_le_of_lt h.pos_lt) with hlt | heq
  · obtain ⟨char, hput, htake⟩ := sanitize_middle (c := c) hlt h.size_le
    refine ⟨_, _, hput, fun _ => ⟨hlt, h.size_le⟩, fun _ => ?_, ?_⟩
    · simp only [left, h0, if_false]
      omega
    · rw [hread, U8ToU32.put_middle (by rw [hlen]; exact hlt) h.size_le]
      simp [read, h0, htake]
  · obtain ⟨char, value, hput, hvalue⟩ := sanitize_last (c := c) heq h.size_le
    refine ⟨_, _, hput, sound_of_size rfl, by simp, ?_⟩
    rw [hread, U8ToU32.put_last (by rw [hlen]; exact heq) h.size_le]
    simp [read, hvalue]

/-- The size of a glyph, where the first byte is not one of its own. -/
theorem utf8ByteCount_bounds (h : 0x7F < c.toNat) : 0 < utf8ByteCount c ∧ utf8ByteCount c ≤ 4 := by
  have hall : ∀ a < 128, 0 < utf8ByteCount (UInt8.ofNat (a + 0x80)) ∧
      utf8ByteCount (UInt8.ofNat (a + 0x80)) ≤ 4 := by
    decide
  have hc : UInt8.ofNat (c.toNat - 0x80 + 0x80) = c := by
    rw [Nat.sub_add_cancel h, UInt8.ofNat_toNat]
  have hlt := c.toNat_lt
  have hbounds := hall (c.toNat - 0x80) (by omega)
  rwa [hc] at hbounds

theorem Sound.reads (h : s.Sound) : s.Reads c := by
  by_cases hsize : s.size = 0
  · have hread : s.read = U8ToU32.initial := by simp [read, hsize]
    by_cases hc : 0x7F < c.toNat
    -- the first byte of a glyph is stored at the beginning of the array
    · obtain ⟨hpos, hle⟩ := utf8ByteCount_bounds hc
      have h0 := Nat.ne_of_gt hpos
      have hpending : Pending { s with pos := 0, size := utf8ByteCount c } := ⟨hpos, hle⟩
      obtain ⟨s', cps, hput, hsound, hleft, habs⟩ := hpending.reads (c := c)
      have hfirst : left { s with pos := 0, size := utf8ByteCount c } ≤ s.left := by
        simpa [left, h0, hsize] using hle
      refine ⟨s', cps, (sanitize_begin hc hsize h0).trans hput, hsound,
        fun hnil => (hleft hnil).trans_le hfirst, ?_⟩
      rw [hread, ← habs]
      simp [read, h0, U8ToU32.put, U8ToU32.initial, hc]
    · refine ⟨_, _, sanitize_ascii (by omega) hsize, sound_of_size hsize, by simp,
        ?_⟩
      rw [hread]
      simp [read, hsize, U8ToU32.put, U8ToU32.initial, hc]
  · exact (h hsize).reads

end Steps

/-! ### Whatever bytes arrive -/

theorem glyph_lt (char : List UInt8) : glyph char < 0x200000 := by
  have hmask : ∀ i, U8ToU32.masks.getD i 0 < 0x200000 := by
    rintro (_ | _ | _ | _ | i) <;> simp [U8ToU32.masks]
  exact Nat.lt_of_le_of_lt Nat.and_le_right (hmask _)

/-- The value of a code point has at most 21 bits. -/
theorem put_bounded {t t' : U8ToU32} {c : UInt8} {cps : List ℕ}
    (h : U8ToU32.put t c = .ok (t', cps)) : ∀ cp ∈ cps, cp < 0x200000 := by
  have hbyte := c.toNat_lt
  simp only [U8ToU32.put] at h
  by_cases hc : 0x7F < c.toNat ∨ t.size ≠ 0
  · rw [if_pos hc] at h
    generalize (if t.size = 0 then utf8ByteCount c else t.size) = size at h
    generalize (if t.size = 0 then [] else t.char) = char at h
    split at h
    · split at h
      · cases h
        simpa using glyph_lt _
      · cases h
        simp
    · cases h
  · rw [if_neg hc] at h
    cases h
    simp
    omega

/-- Every step succeeds and stays sound. -/
theorem safe_sanitize :
    Step.Safe sanitize Sound (fun _ _ => True) (fun cp => cp.toNat < 0x200000) := by
  intro s c hs _
  obtain ⟨s', cps, hput, hsound, -, habs⟩ := hs.reads (c := c)
  refine ⟨s', cps, hput, hsound, fun cp hcp => ?_⟩
  exact put_bounded habs cp.toNat (List.mem_map_of_mem hcp)

/-- The decoder with its members reads what the decoder of glyphs reads. -/
theorem simulates_sanitize :
    Step.Simulates sanitize U8ToU32.put (fun s t => s.Sound ∧ t = s.read) (fun _ _ => True)
      (List.map UInt32.toNat) := by
  rintro s t c ⟨hs, rfl⟩ -
  obtain ⟨s', cps, hput, hsound, -, habs⟩ := hs.reads (c := c)
  exact ⟨s', s'.read, cps, hput, habs, hsound, rfl⟩

/-- Whatever bytes arrive in a sound state, the decoder takes them and stays sound. -/
theorem Sound.run {s : DecoderState} (hs : s.Sound) (bytes : Bytes) :
    ∃ s' cps, Step.run sanitize s bytes = .ok (s', cps) ∧ s'.Sound ∧
      ∀ cp ∈ cps, cp.toNat < 0x200000 :=
  safe_sanitize.run hs (Step.guarded_of_forall fun _ _ => trivial)

theorem run_sanitize (bytes : Bytes) :
    ∃ s cps, Step.run sanitize initial bytes = .ok (s, cps) ∧
      Step.run U8ToU32.put U8ToU32.initial bytes = .ok (s.read, cps.map UInt32.toNat) := by
  have hguard : Step.Guarded sanitize (fun _ _ => True) initial bytes :=
    Step.guarded_of_forall fun _ _ => trivial
  obtain ⟨s, t, cps, hrun, hspec, -, rfl⟩ := simulates_sanitize.run rfl (fun _ _ => List.map_append)
    ⟨sound_initial, rfl⟩ hguard
  exact ⟨s, cps, hrun, hspec⟩

/-- A silent step comes closer to a code point. -/
theorem left_lt {s s' : DecoderState} {c : UInt8} (hs : s.Sound) (h : sanitize s c = .ok (s', [])) :
    s'.Sound ∧ s'.left < s.left := by
  obtain ⟨t, cps, hput, hsound, hleft, -⟩ := hs.reads (c := c)
  cases h.symm.trans hput
  exact ⟨hsound, hleft rfl⟩

theorem Sound.left_bounds {s : DecoderState} (hs : s.Sound) : 0 < s.left ∧ s.left ≤ 4 := by
  unfold left
  split_ifs with hsize
  · decide
  · have := (hs hsize).pos_lt
    have := (hs hsize).size_le
    omega

/-- Four bytes never pass without a code point. -/
theorem emits_within_four {s s' : DecoderState} {next : Bytes} {cps : List UInt32} (hs : s.Sound)
    (hnext : next.length = 4) (h : Step.run sanitize s next = .ok (s', cps)) : cps ≠ [] := by
  rintro rfl
  have hsilent : Step.Moves sanitize s next s' := h
  have hlen : next.length + s'.left ≤ s.left :=
    hsilent.length_le (fun _ _ _ => left_lt) hs
  obtain ⟨t, cps, hrun, hsound, -⟩ := hs.run next
  cases h.symm.trans hrun
  have hbefore := hs.left_bounds.2
  have hafter := hsound.left_bounds.1
  omega

/-- The decoder is safe on arbitrary bytes. -/
theorem sanitize_safe (bytes : Bytes) :
    ∃ s cps, Step.run sanitize initial bytes = .ok (s, cps) ∧
      (s.size ≠ 0 → s.pos < s.size ∧ s.size ≤ 4) ∧
      (∀ cp ∈ cps, cp.toNat < 0x200000) ∧
      ∀ next : Bytes, next.length = 4 →
        ∃ s' cps', Step.run sanitize s next = .ok (s', cps') ∧ cps' ≠ [] := by
  obtain ⟨s, cps, hrun, hsound, hbounded⟩ := sound_initial.run bytes
  refine ⟨s, cps, hrun, fun hsize => ⟨(hsound hsize).pos_lt, (hsound hsize).size_le⟩, hbounded,
    fun next hnext => ?_⟩
  obtain ⟨s', cps', hrun', -, -⟩ := hsound.run next
  exact ⟨s', cps', hrun', emits_within_four hsound hnext hrun'⟩

end DecoderState

end U8ToU32

end Cyng
