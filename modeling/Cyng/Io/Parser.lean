import Cyng.Io.ScalarCodec
import Cyng.Theory.Machine

/-!
# The binary parser

An automaton over bytes: two bytes of type code, a length field of one, three or nine
bytes, and as many bytes of payload as the field says. One buffer serves for all three
parts. The decoder of payloads is a parameter here, so what is proved about framing
does not depend on what the payloads mean.

The main result is that the automaton cuts the concatenated output of the writers back
into the frames they wrote, in whatever chunks the bytes arrive.
-/

namespace Cyng

open Theory

/-- `parser::state`. -/
inductive ParserState
  | failure | type | length | value
deriving DecidableEq, Repr

/-- The parser between two bytes. -/
structure Parser where
  state : ParserState
  buffer : Bytes
  type : BitVec 16
  length : BitVec 64
deriving DecidableEq, Repr

/-- What a step of the parser does besides changing the parser. -/
inductive ParserEvent (α : Type)
  /-- the buffer is told to hold as many bytes as the length field announces -/
  | reserve (field : Bytes) (n : ℕ)
  /-- the callback is called with a decoded payload -/
  | deliver (type : BitVec 16) (payload : Bytes) (obj : α)
deriving DecidableEq

namespace Parser

/-- The parser as it is constructed. -/
def initial : Parser := ⟨.type, [], 0, 0⟩

/-- Ready for the next frame. -/
def Idle (p : Parser) : Prop := p.state = .type ∧ p.buffer = []

/-- `size_of_length_field`. -/
def sizeOfLengthField (c : UInt8) : ℕ :=
  if c = 126 then 3 else if c = 127 then 9 else 1

section Steps

variable {α : Type} (b : Build) (decode : BitVec 16 → Bytes → Except Fault α)

/-- `parser::type`. -/
def typeStep (p : Parser) (c : UInt8) : Except Fault (Parser × List (ParserEvent α)) :=
  let buffer := p.buffer ++ [c]
  if buffer.length = 2 then
    .ok ({ state := .length, buffer := [], type := toNumeric 2 buffer, length := 0 }, [])
  else .ok ({ p with buffer := buffer }, [])

/-- The length that the bytes of the length field stand for. -/
def lengthOf (buffer : Bytes) : ℕ → Except Fault (BitVec 64)
  -- the length is a signed `char` that is converted to an unsigned 64 bit number
  | 1 => do .ok ((← byteAt buffer 0).toBitVec.signExtend 64)
  | 3 => do .ok ((← toNumericAt b 2 buffer 1).setWidth 64)
  | length => do
    b.check "length == 9" (length = 9)
    toNumericAt b 8 buffer 1

/-- `buffer_.reserve(n)`. -/
def reserve (n : ℕ) : Except Fault Unit :=
  if n ≤ maxSize then .ok () else .error (.exception "std::length_error")

/-- `parser::set_length`. -/
def setLength (p : Parser) (length : ℕ) : Except Fault (Parser × List (ParserEvent α)) := do
  let n ← lengthOf b p.buffer length
  reserve n.toNat
  .ok ({ p with buffer := [], length := n }, [.reserve p.buffer n.toNat])

/-- `parser::length`. -/
def lengthStep (p : Parser) (c : UInt8) : Except Fault (Parser × List (ParserEvent α)) := do
  let buffer := p.buffer ++ [c]
  b.check "!buffer_.empty()" (buffer ≠ [])
  let first ← byteAt buffer 0
  let length := sizeOfLengthField first
  if length = buffer.length then
    let (p, reserved) ← setLength b { p with buffer := buffer } length
    if p.length = 0 then
      let obj ← decode p.type p.buffer
      .ok ({ p with state := .type }, reserved ++ [.deliver p.type p.buffer obj])
    else .ok ({ p with state := .value }, reserved)
  else .ok ({ p with buffer := buffer }, [])

/-- `parser::value`. -/
def valueStep (p : Parser) (c : UInt8) : Except Fault (Parser × List (ParserEvent α)) := do
  let buffer := p.buffer ++ [c]
  let length := p.length - 1
  if length = 0 then
    let obj ← decode p.type buffer
    .ok ({ p with state := .type, buffer := [], length := length },
      [.deliver p.type buffer obj])
  else .ok ({ p with buffer := buffer, length := length }, [])

/-- `parser::put`. -/
def put : Step Parser UInt8 (ParserEvent α) Fault := fun p c =>
  match p.state with
  | .failure => do
    b.check "state_ != state::FAILURE" False
    .ok (p, [])
  | .type => typeStep p c
  | .length => lengthStep b decode p c
  | .value => valueStep decode p c

/-- `parser::read`, for one chunk. -/
def read : Step Parser Bytes (ParserEvent α) Fault := Step.runChunks (put b decode)

end Steps

/-- The calls of the callback among the events. -/
def deliveries {α : Type} : List (ParserEvent α) → List (BitVec 16 × Bytes × α)
  | [] => []
  | .reserve _ _ :: events => deliveries events
  | .deliver type payload obj :: events => (type, payload, obj) :: deliveries events

@[simp] theorem deliveries_append {α : Type} (xs ys : List (ParserEvent α)) :
    deliveries (xs ++ ys) = deliveries xs ++ deliveries ys := by
  induction xs with
  | nil => rfl
  | cons e xs ih => cases e <;> simp [deliveries, ih]

section Frames

variable {α : Type} (b : Build) (decode : BitVec 16 → Bytes → Except Fault α)
variable {p : Parser}

/-- Two bytes make up the type code. -/
theorem run_type (hp : p.Idle) (t : BitVec 16) :
    (put b decode).run p (writeBinary 2 t).bytes = .ok (⟨.length, [], t, 0⟩, []) := by
  obtain ⟨hstate, hbuffer⟩ := hp
  have hsplit : (writeBinary 2 t).bytes = [UInt8.ofNat (t.toNat / 256), UInt8.ofNat t.toNat] := rfl
  have hread : toNumeric 2 (writeBinary 2 t).bytes = t := toNumeric_toBuffer (n := 2) t
  rw [hsplit] at hread ⊢
  simp [Step.run, put, typeStep, hstate, hbuffer, hread]

/-- The byte that completes the length field leads to the payload, or where there is none
to the next frame. -/
theorem lengthStep_complete {acc : Bytes} {c first : UInt8} {t : BitVec 16} {n : BitVec 64}
    (hfirst : byteAt (acc ++ [c]) 0 = .ok first)
    (hsize : sizeOfLengthField first = (acc ++ [c]).length)
    (hlength : lengthOf b (acc ++ [c]) (acc ++ [c]).length = .ok n) (hn : n.toNat ≤ maxSize) :
    lengthStep b decode ⟨.length, acc, t, 0⟩ c =
      if n = 0 then do
        let obj ← decode t []
        .ok (⟨.type, [], t, n⟩, [.reserve (acc ++ [c]) n.toNat, .deliver t [] obj])
      else .ok (⟨.value, [], t, n⟩, [.reserve (acc ++ [c]) n.toNat]) := by
  have hset : setLength (α := α) b ⟨.length, acc ++ [c], t, 0⟩ (acc ++ [c]).length =
      .ok (⟨.length, [], t, n⟩, [.reserve (acc ++ [c]) n.toNat]) := by
    rw [setLength, hlength, ok_bind, reserve, if_pos hn, ok_bind]
  rw [lengthStep, Build.check_of (by simp), ok_bind, hfirst, ok_bind, hsize, if_pos rfl, hset]
  rfl

/-- Before that the field is only collected. -/
theorem lengthStep_wait {acc : Bytes} {c first : UInt8} {t : BitVec 16}
    (hfirst : byteAt (acc ++ [c]) 0 = .ok first)
    (hsize : sizeOfLengthField first ≠ (acc ++ [c]).length) :
    lengthStep b decode ⟨.length, acc, t, 0⟩ c = .ok (⟨.length, acc ++ [c], t, 0⟩, []) := by
  rw [lengthStep, Build.check_of (by simp), ok_bind, hfirst, ok_bind, if_neg hsize]

/-- An incomplete length field is collected byte by byte. -/
theorem run_wait {first : UInt8} {t : BitVec 16} (acc rest : Bytes)
    (h : acc.length + rest.length + 1 < sizeOfLengthField first) :
    (put b decode).run ⟨.length, first :: acc, t, 0⟩ rest =
      .ok (⟨.length, first :: (acc ++ rest), t, 0⟩, []) := by
  induction rest generalizing acc with
  | nil => simp
  | cons c rest ih =>
    have hstep : put b decode ⟨.length, first :: acc, t, 0⟩ c =
        .ok (⟨.length, first :: (acc ++ [c]), t, 0⟩, []) := by
      refine lengthStep_wait b decode (show byteAt (first :: acc ++ [c]) 0 = .ok first from rfl) ?_
      simp only [List.length_cons, List.length_append, List.length_nil] at h ⊢
      omega
    have hrest := ih (acc ++ [c]) (by simp at h ⊢; omega)
    simpa using Step.run_cons_ok hstep hrest

/-- A field of more than one byte is read up to its last byte. -/
theorem run_field {first : UInt8} {mid : Bytes} {t : BitVec 16}
    (hsize : sizeOfLengthField first = mid.length + 2) :
    (put b decode).run ⟨.length, [], t, 0⟩ (first :: mid) =
      .ok (⟨.length, first :: mid, t, 0⟩, []) := by
  have hstep : put b decode ⟨.length, [], t, 0⟩ first = .ok (⟨.length, [first], t, 0⟩, []) :=
    lengthStep_wait b decode (show byteAt ([] ++ [first]) 0 = .ok first from rfl)
      (by simp [hsize])
  simpa using Step.run_cons_ok hstep (run_wait b decode [] mid (by simp; omega))

/-- What the parser has become, and what has happened, when the length field is read. -/
def afterLength (t : BitVec 16) (field : Bytes) (n : BitVec 64) (obj : α) :
    Parser × List (ParserEvent α) :=
  if n = 0 then (⟨.type, [], t, n⟩, [.reserve field n.toNat, .deliver t [] obj])
  else (⟨.value, [], t, n⟩, [.reserve field n.toNat])

theorem afterLength_zero {t : BitVec 16} {field : Bytes} {obj : α} :
    afterLength t field 0 obj = (⟨.type, [], t, 0⟩, [.reserve field 0, .deliver t [] obj]) :=
  rfl

theorem afterLength_of_ne {t : BitVec 16} {field : Bytes} {n : BitVec 64} {obj : α} (h : n ≠ 0) :
    afterLength t field n obj = (⟨.value, [], t, n⟩, [.reserve field n.toNat]) :=
  if_neg h

theorem ofNat_eq_zero_iff {n : ℕ} (h : n < 2 ^ 64) : BitVec.ofNat 64 n = 0 ↔ n = 0 := by
  constructor
  · intro hn
    have hnat : n % 2 ^ 64 = 0 := congrArg BitVec.toNat hn
    omega
  · rintro rfl
    rfl

theorem lengthStep_afterLength {acc : Bytes} {c first : UInt8} {t : BitVec 16} {n : BitVec 64}
    {obj : α} (hfirst : byteAt (acc ++ [c]) 0 = .ok first)
    (hsize : sizeOfLengthField first = (acc ++ [c]).length)
    (hlength : lengthOf b (acc ++ [c]) (acc ++ [c]).length = .ok n) (hn : n.toNat ≤ maxSize)
    (hdecode : n = 0 → decode t [] = .ok obj) :
    lengthStep b decode ⟨.length, acc, t, 0⟩ c = .ok (afterLength t (acc ++ [c]) n obj) := by
  rw [lengthStep_complete b decode hfirst hsize hlength hn, afterLength]
  split
  · next h => rw [hdecode h, ok_bind]
  · rfl

/-- A length field of more than one byte. -/
theorem run_wide {c : UInt8} {w : ℕ} {t : BitVec 16} {n : BitVec 64} {obj : α}
    (v : BitVec (8 * w)) (hw : 0 < w) (hsize : sizeOfLengthField c = w + 1)
    (hlength : lengthOf b (c :: toBuffer w v) (w + 1) = .ok n) (hn : n.toNat ≤ maxSize)
    (hdecode : n = 0 → decode t [] = .ok obj) :
    (put b decode).run ⟨.length, [], t, 0⟩ (c :: toBuffer w v) =
      .ok (afterLength t (c :: toBuffer w v) n obj) := by
  have hlen := length_toBuffer w v
  obtain hnil | ⟨mid, last, hsplit⟩ := List.eq_nil_or_concat (toBuffer w v)
  · simp [hnil] at hlen
    omega
  rw [List.concat_eq_append] at hsplit
  rw [hsplit] at hlen hlength ⊢
  have hmid : mid.length + 1 = w := by simpa using hlen
  have hwait : (put b decode).run ⟨.length, [], t, 0⟩ (c :: mid) =
      .ok (⟨.length, c :: mid, t, 0⟩, []) := run_field b decode (by omega)
  have hstep : put b decode ⟨.length, c :: mid, t, 0⟩ last =
      .ok (afterLength t (c :: mid ++ [last]) n obj) :=
    lengthStep_afterLength b decode (show byteAt (c :: mid ++ [last]) 0 = .ok c from rfl)
      (by simp [hsize, hmid])
      (by simpa [hmid] using hlength) hn hdecode
  rw [← List.cons_append, Step.run_append_ok hwait (Step.run_singleton hstep)]
  rfl

/-- A number that follows the first byte of the buffer. -/
theorem toNumericAt_one {w : ℕ} (c : UInt8) (v : BitVec (8 * w)) (hw : w < 2 ^ 63) :
    toNumericAt b w (c :: toBuffer w v) 1 = .ok v := by
  have hrest : sizeMinus (c :: toBuffer w v) 1 = BitVec.ofNat 64 w := by
    rw [sizeMinus, List.length_cons, length_toBuffer, BitVec.ofNat_add]
    simp
  have hcheck : w ≤ (sizeMinus (c :: toBuffer w v) 1).toNat := by
    rw [hrest, BitVec.toNat_ofNat, Nat.mod_eq_of_lt (by omega)]
  rw [toNumericAt, Build.check_of hcheck, ok_bind, if_pos (by simp; omega)]
  simp

theorem sizeOfLengthField_ofNat {n : ℕ} (h : n < 0x7e) : sizeOfLengthField (UInt8.ofNat n) = 1 := by
  have hne : ∀ k : UInt8, k.toNat ≠ n → UInt8.ofNat n ≠ k := by
    rintro k hk rfl
    exact hk (by rw [UInt8.toNat_ofNat']; omega)
  rw [sizeOfLengthField, if_neg (hne 126 (by simp; omega)), if_neg (hne 127 (by simp; omega))]

/-- A length below 128 has no sign. -/
theorem signExtend_ofNat {n : ℕ} (h : n < 0x7e) :
    (UInt8.ofNat n).toBitVec.signExtend 64 = BitVec.ofNat 64 n := by
  have hnat : (UInt8.ofNat n).toBitVec.toNat = n := by
    rw [UInt8.toNat_toBitVec, UInt8.toNat_ofNat']
    omega
  have hmsb : (UInt8.ofNat n).toBitVec.msb = false := by
    rw [BitVec.msb_eq_decide, hnat]
    simp
    omega
  rw [BitVec.signExtend_eq_setWidth_of_msb_false hmsb]
  apply BitVec.eq_of_toNat_eq
  rw [BitVec.toNat_setWidth, hnat, BitVec.toNat_ofNat]

/-- The three encodings of a length are read back. -/
theorem run_serializeLength {n : ℕ} {t : BitVec 16} {obj : α} (hn : n ≤ maxSize)
    (hdecode : n = 0 → decode t [] = .ok obj) :
    (put b decode).run ⟨.length, [], t, 0⟩ (serializeLength n).bytes =
      .ok (afterLength t (serializeLength n).bytes (BitVec.ofNat 64 n) obj) := by
  have hmax : maxSize < 2 ^ 64 := by decide
  have hnat : (BitVec.ofNat 64 n).toNat = n := Nat.mod_eq_of_lt (by omega)
  have hzero : BitVec.ofNat 64 n = 0 → decode t [] = .ok obj := fun h =>
    hdecode ((ofNat_eq_zero_iff (by omega)).mp h)
  unfold serializeLength
  -- one byte, or a mark and two bytes, or a mark and eight bytes
  split_ifs with hshort hmedium
  · have hfield : (writeBinary 1 (BitVec.ofNat 8 n)).bytes = [UInt8.ofNat n] := by
      simp [writeBinary, toBuffer, toBE, toLE, Nat.mod_eq_of_lt (show n < 256 by omega)]
    rw [hfield]
    refine Step.run_singleton (lengthStep_afterLength b decode
      (show byteAt ([] ++ [UInt8.ofNat n]) 0 = .ok (UInt8.ofNat n) from rfl)
      (sizeOfLengthField_ofNat hshort) ?_ (by omega) hzero)
    rw [List.nil_append, List.length_singleton, lengthOf, byteAt, List.getElem?_cons_zero, ok_bind,
      signExtend_ofNat hshort]
  · have hlength : lengthOf b (0x7e :: toBuffer 2 (BitVec.ofNat 16 n)) (2 + 1) =
        .ok (BitVec.ofNat 64 n) := by
      have hwidth : (BitVec.ofNat 16 n).setWidth 64 = BitVec.ofNat 64 n := by
        apply BitVec.eq_of_toNat_eq
        rw [BitVec.toNat_setWidth, BitVec.toNat_ofNat, hnat]
        omega
      rw [lengthOf, toNumericAt_one b (w := 2) _ _ (by decide), ok_bind, hwidth]
    exact run_wide b decode (w := 2) (BitVec.ofNat 16 n) (by decide) rfl hlength (by omega) hzero
  · have hlength : lengthOf b (0x7f :: toBuffer 8 (BitVec.ofNat 64 n)) (8 + 1) =
        .ok (BitVec.ofNat 64 n) := by
      simp only [lengthOf]
      rw [Build.check_of trivial, ok_bind, toNumericAt_one b (w := 8) _ _ (by decide)]
    exact run_wide b decode (w := 8) (BitVec.ofNat 64 n) (by decide) rfl hlength (by omega) hzero

/-- The payload is collected and delivered with its last byte. -/
theorem run_value {t : BitVec 16} {obj : α} (acc rest : Bytes) (hrest : rest ≠ [])
    (hlen : rest.length < 2 ^ 64) (hdecode : decode t (acc ++ rest) = .ok obj) :
    (put b decode).run ⟨.value, acc, t, BitVec.ofNat 64 rest.length⟩ rest =
      .ok (⟨.type, [], t, 0⟩, [.deliver t (acc ++ rest) obj]) := by
  -- what is collected grows by the bytes that have been read
  induction rest generalizing acc with
  | nil => exact absurd rfl hrest
  | cons c rest ih =>
    have hpred : BitVec.ofNat 64 (c :: rest).length - 1 = BitVec.ofNat 64 rest.length := by
      rw [List.length_cons, BitVec.ofNat_add]
      simp
    rcases rest with _ | ⟨d, rest⟩
    · refine Step.run_singleton ?_
      simp only [put, valueStep, hpred]
      simp [hdecode]
    · have hne : BitVec.ofNat 64 (d :: rest).length ≠ 0 := by
        rw [List.length_cons] at hlen
        rw [Ne, ofNat_eq_zero_iff (by omega)]
        simp
      have hstep : put b decode ⟨.value, acc, t, BitVec.ofNat 64 (c :: d :: rest).length⟩ c =
          .ok (⟨.value, acc ++ [c], t, BitVec.ofNat 64 (d :: rest).length⟩, []) := by
        simp only [put, valueStep, hpred, if_neg hne]
      have htail := ih (acc ++ [c]) (by simp) (by simp at hlen ⊢; omega) (by simpa using hdecode)
      simpa using Step.run_cons_ok hstep htail

/-- One frame: type code, length and payload are delivered once, and the parser is ready
for the next frame. -/
theorem run_frame {t : BitVec 16} {payload : Bytes} {obj : α} (hp : p.Idle)
    (hlen : payload.length ≤ maxSize) (hdecode : decode t payload = .ok obj) :
    ∃ p' events, (put b decode).run p ((writeBinary 2 t).bytes ++
        (serializeLength payload.length).bytes ++ payload) = .ok (p', events) ∧
      p'.Idle ∧ deliveries events = [(t, payload, obj)] := by
  have hmax : maxSize < 2 ^ 64 := by decide
  have htype := run_type b decode hp t
  have hfield := run_serializeLength b decode hlen fun h => by
    rwa [List.length_eq_zero_iff.mp h] at hdecode
  rcases payload with _ | ⟨c, payload⟩
  · have hrun := Step.run_append_ok htype (hfield.trans (congrArg Except.ok afterLength_zero))
    rw [List.append_nil]
    exact ⟨_, _, hrun, ⟨rfl, rfl⟩, rfl⟩
  · have hne : BitVec.ofNat 64 (c :: payload).length ≠ 0 := by
      rw [Ne, ofNat_eq_zero_iff (by omega)]
      simp
    rw [afterLength_of_ne hne] at hfield
    have hvalue := run_value b decode [] (c :: payload) (by simp) (by omega) hdecode
    exact ⟨_, _, Step.run_append_ok (Step.run_append_ok htype hfield) hvalue, ⟨rfl, rfl⟩, rfl⟩

/-- A payload that cannot be decoded stops the parser at its last byte. -/
theorem run_value_error {t : BitVec 16} {e : Fault} (acc rest : Bytes) (hrest : rest ≠ [])
    (hlen : rest.length < 2 ^ 64) (hdecode : decode t (acc ++ rest) = .error e) :
    (put b decode).run ⟨.value, acc, t, BitVec.ofNat 64 rest.length⟩ rest = .error e := by
  induction rest generalizing acc with
  | nil => exact absurd rfl hrest
  | cons c rest ih =>
    have hpred : BitVec.ofNat 64 (c :: rest).length - 1 = BitVec.ofNat 64 rest.length := by
      rw [List.length_cons, BitVec.ofNat_add]
      simp
    rcases rest with _ | ⟨d, rest⟩
    · refine Step.run_cons_of_error ?_
      simp only [put, valueStep, hpred]
      simp [hdecode]
    · have hne : BitVec.ofNat 64 (d :: rest).length ≠ 0 := by
        rw [List.length_cons] at hlen
        rw [Ne, ofNat_eq_zero_iff (by omega)]
        simp
      have hstep : put b decode ⟨.value, acc, t, BitVec.ofNat 64 (c :: d :: rest).length⟩ c =
          .ok (⟨.value, acc ++ [c], t, BitVec.ofNat 64 (d :: rest).length⟩, []) := by
        simp only [put, valueStep, hpred, if_neg hne]
      have htail := ih (acc ++ [c]) (by simp) (by simp at hlen ⊢; omega) (by simpa using hdecode)
      rw [Step.run_cons_of_ok hstep, htail]

/-- So does the frame of such a payload. -/
theorem run_frame_error [Nonempty α] {t : BitVec 16} {payload : Bytes} {e : Fault} (hp : p.Idle)
    (hne : payload ≠ []) (hlen : payload.length ≤ maxSize) (hdecode : decode t payload = .error e) :
    (put b decode).run p ((writeBinary 2 t).bytes ++
        (serializeLength payload.length).bytes ++ payload) = .error e := by
  have hmax : maxSize < 2 ^ 64 := by decide
  have hpos := List.length_pos_of_ne_nil hne
  have htype := run_type b decode hp t
  obtain ⟨obj⟩ := ‹Nonempty α›
  have hnezero : BitVec.ofNat 64 payload.length ≠ 0 := by
    rw [Ne, ofNat_eq_zero_iff (by omega)]
    omega
  have hfield := @run_serializeLength α b decode _ t obj hlen fun h => absurd h (Nat.ne_of_gt hpos)
  rw [afterLength_of_ne hnezero] at hfield
  exact Step.run_append_ok_error (Step.run_append_ok htype hfield)
    (run_value_error b decode [] payload hne (by omega) hdecode)

/-- A sequence of frames is delivered frame by frame, in order. -/
theorem run_frames {frames : List (BitVec 16 × Bytes)}
    (obj : BitVec 16 × Bytes → α) (hp : p.Idle)
    (hlen : ∀ f ∈ frames, f.2.length ≤ maxSize)
    (hdecode : ∀ f ∈ frames, decode f.1 f.2 = .ok (obj f)) :
    ∃ p' events, (put b decode).run p (frames.flatMap fun f => (writeBinary 2 f.1).bytes ++
        (serializeLength f.2.length).bytes ++ f.2) = .ok (p', events) ∧
      p'.Idle ∧ deliveries events = frames.map fun f => (f.1, f.2, obj f) := by
  induction frames generalizing p with
  | nil => exact ⟨p, [], rfl, hp, rfl⟩
  | cons f frames ih =>
    obtain ⟨p', head, hhead, hp', hone⟩ := run_frame b decode hp
      (hlen f List.mem_cons_self) (hdecode f List.mem_cons_self)
    obtain ⟨p'', tail, htail, hp'', hmany⟩ := ih hp'
      (fun g hg => hlen g (List.mem_cons_of_mem f hg))
      (fun g hg => hdecode g (List.mem_cons_of_mem f hg))
    refine ⟨p'', head ++ tail, Step.run_append_ok hhead htail, hp'', ?_⟩
    rw [deliveries_append, hone, hmany]
    rfl

end Frames

/-- Framing: whatever leaves are written one after the other, and in whatever chunks the
bytes arrive, the callback is called once for each leaf, in order, with its type code and
its payload, and the parser ends ready for the next frame. -/
theorem read_writes {α : Type} (b : Build) (ip : IpText) (decode : BitVec 16 → Bytes → α)
    (vs : List { v : Scalar // v.Fits }) (chunks : List Bytes)
    (hchunks : chunks.flatten = vs.flatMap fun v => (v.val.write ip).bytes) :
    ∃ p events, (read b fun type buffer => .ok (decode type buffer)).run initial chunks =
        .ok (p, events) ∧
      p.state = .type ∧ p.buffer = [] ∧
      deliveries events = vs.map fun v =>
        (v.val.typeCode.code, v.val.payload ip,
          decode v.val.typeCode.code (v.val.payload ip)) := by
  let frame (v : { v : Scalar // v.Fits }) := (v.val.typeCode.code, v.val.payload ip)
  -- what a scalar writes is one frame: type code, length field, payload
  have hwrite (v : { v : Scalar // v.Fits }) : (v.val.write ip).bytes =
      (writeBinary 2 (frame v).1).bytes ++ (serializeLength (frame v).2.length).bytes ++
        (frame v).2 := by
    rw [Scalar.length_payload]
    rfl
  have hlen : ∀ f ∈ vs.map frame, f.2.length ≤ maxSize := by
    simp only [List.mem_map, forall_exists_index, and_imp]
    rintro f v - rfl
    exact (Scalar.length_payload ip v).trans_le (Scalar.announced_le_maxSize ip v.property)
  obtain ⟨p, events, hrun, hidle, hevents⟩ := run_frames b
    (fun type buffer => .ok (decode type buffer)) (fun f => decode f.1 f.2)
    (show initial.Idle from ⟨rfl, rfl⟩) hlen fun _ _ => rfl
  -- how the bytes are cut into chunks does not matter
  refine ⟨p, events, Step.run_runChunks_of_flatten ?_, hidle.1, hidle.2, ?_⟩
  · rw [hchunks, ← hrun, List.flatMap_map]
    simp only [hwrite]
  · rw [hevents, List.map_map]
    rfl

/-- A bool, an empty string and a string in four chunks that respect no border. -/
theorem read_writes_four :
    ∃ p events, (read .debug fun type buffer => .ok (type, buffer)).run initial
        [[0, 1, 1], [1, 0, 14], [0, 0, 14, 2, 0x68], [0x69]] = .ok (p, events) ∧
      p.state = .type ∧ p.buffer = [] ∧
      deliveries events =
        [(1, [1], 1, [1]), (14, [], 14, []), (14, [0x68, 0x69], 14, [0x68, 0x69])] :=
  read_writes .debug .tagged (fun type buffer => (type, buffer))
    [⟨.bool true, trivial⟩, ⟨.string [], Nat.zero_le _⟩,
      ⟨.string [0x68, 0x69], by simp [Scalar.Fits, stringMaxSize]⟩] _ (by decide)

end Parser

end Cyng
