import Cyng.Json.Library
import Cyng.Json.Parser

/-!
# JSON in pieces

A text may be fed to the parser in pieces. Decoder, tokenizer and parser keep what they know about
an unfinished character, symbol or value between two calls. The detection of a byte order mark does
not: the bytes it holds back are variables of one call, and they are gone at its end. So the pieces
are read like the whole text if no cut follows the first or the second byte of what looks like a
mark.
-/

namespace Cyng

open Theory

namespace Json

namespace Reader

/-- A byte order mark. -/
def mark : Bytes := [0xEF, 0xBB, 0xBF]

/-- These bytes are kept by a call, since they may be the beginning of a byte order mark. -/
def HeldBack (counter : ℕ) (bytes : Bytes) : Prop :=
  counter = 0 ∧ bytes.head? = some 0xEF ∧ bytes.length < 3

instance (counter : ℕ) (bytes : Bytes) : Decidable (HeldBack counter bytes) :=
  inferInstanceAs (Decidable (_ ∧ _))

/-- The bytes that one call hands on to the decoder. -/
def handedOn (counter : ℕ) (bytes : Bytes) : Bytes :=
  if HeldBack counter bytes then []
  else if counter = 0 ∧ bytes.take 3 = mark then bytes.drop 3
  else bytes

/-- The bytes that calls with one piece after the other hand on. -/
def handedInPieces (counter : ℕ) : List Bytes → Bytes
  | [] => []
  | piece :: pieces => handedOn counter piece ++ handedInPieces (counter + piece.length) pieces

/-- Nothing follows a piece that is kept. Empty pieces in front do not count. -/
def Uncut (counter : ℕ) : List Bytes → Prop
  | [] => True
  | piece :: pieces =>
    (HeldBack counter piece → pieces.flatten = []) ∧ (piece = [] → Uncut counter pieces)

section Bytes

variable {counter : ℕ} {piece rest : Bytes}

theorem handedOn_of_plain (h : Plain counter piece) : handedOn counter piece = piece := by
  have hheld : ¬HeldBack counter piece := by
    rintro ⟨hcounter, hhead, -⟩
    exact h.elim (· hcounter) (· hhead)
  have hmark : ¬(counter = 0 ∧ piece.take 3 = mark) := by
    rintro ⟨hcounter, htake⟩
    refine h.elim (· hcounter) fun hhead => hhead ?_
    cases piece with
    | nil => cases htake
    | cons c piece =>
      rw [List.take_succ_cons, mark] at htake
      rw [List.head?_cons, (List.cons.inj htake).1]
  rw [handedOn, if_neg hheld, if_neg hmark]

@[simp] theorem handedOn_nil (counter : ℕ) : handedOn counter [] = [] := by
  apply handedOn_of_plain
  right
  rintro ⟨⟩

theorem uncut_of_ne_zero (h : counter ≠ 0) (pieces : List Bytes) : Uncut counter pieces := by
  induction pieces with
  | nil => trivial
  | cons piece pieces ih => exact ⟨fun hheld => absurd hheld.1 h, fun _ => ih⟩

theorem handedInPieces_of_ne_zero (h : counter ≠ 0) (pieces : List Bytes) :
    handedInPieces counter pieces = pieces.flatten := by
  induction pieces generalizing counter with
  | nil => rfl
  | cons piece pieces ih =>
    rw [handedInPieces, handedOn_of_plain (Or.inl h), ih (by omega), List.flatten_cons]

/-- The first bytes are handed on in the same way whatever follows, unless they are kept. -/
theorem handedOn_append_iff (hne : piece ≠ []) :
    handedOn 0 piece ++ rest = handedOn 0 (piece ++ rest) ↔ (HeldBack 0 piece → rest = []) := by
  by_cases hheld : HeldBack 0 piece
  · obtain ⟨-, hhead, hlength⟩ := id hheld
    have hfirst : (piece ++ rest).head? = some 0xEF := by
      rw [List.head?_append, hhead, Option.some_or]
    have hpos : 0 < piece.length := List.length_pos_of_ne_nil hne
    rw [handedOn, if_pos hheld, List.nil_append]
    constructor
    · intro heq _
      -- the whole text loses one byte less, or one more, than the piece
      have hlen := congrArg List.length heq
      by_contra hrest
      have hrestpos : 0 < rest.length := List.length_pos_of_ne_nil hrest
      unfold handedOn at hlen
      split_ifs at hlen with hshort hmark
      · exact absurd hlen (Nat.ne_of_gt hrestpos)
      · have hthree : 3 ≤ (piece ++ rest).length := by
          have htake := congrArg List.length hmark.2
          rw [List.length_take, show mark.length = 3 from rfl] at htake
          omega
        rw [List.length_drop, List.length_append] at hlen
        rw [List.length_append] at hthree
        omega
      · rw [List.length_append] at hlen
        omega
    · intro h
      rw [h hheld, List.append_nil, handedOn, if_pos hheld]
  · refine iff_of_true ?_ (fun h => absurd h hheld)
    by_cases hhead : piece.head? = some 0xEF
    · have hlength : 3 ≤ piece.length := by
        by_contra hshort
        exact hheld ⟨rfl, hhead, by omega⟩
      have hwhole : ¬HeldBack 0 (piece ++ rest) := by
        rintro ⟨-, -, hshort⟩
        rw [List.length_append] at hshort
        omega
      have htake : (piece ++ rest).take 3 = piece.take 3 := List.take_append_of_le_length hlength
      have hdrop : (piece ++ rest).drop 3 = piece.drop 3 ++ rest :=
        List.drop_append_of_le_length hlength
      rw [handedOn, handedOn, if_neg hheld, if_neg hwhole, htake, hdrop]
      split_ifs
      · rfl
      · rfl
    · have hplain : Plain 0 (piece ++ rest) := by
        refine Or.inr fun hwhole => hhead ?_
        rw [← hwhole, List.head?_append_of_ne_nil _ hne]
      rw [handedOn_of_plain (Or.inr hhead), handedOn_of_plain hplain]

/-- The decoder gets the same bytes in pieces exactly where no piece is kept. -/
theorem handedInPieces_eq_iff (counter : ℕ) (pieces : List Bytes) :
    handedInPieces counter pieces = handedOn counter pieces.flatten ↔ Uncut counter pieces := by
  induction pieces with
  | nil => exact iff_of_true (handedOn_nil counter).symm trivial
  | cons piece pieces ih =>
    rcases Nat.eq_zero_or_pos counter with rfl | hcounter
    · cases piece with
      | nil =>
        have hheld : ¬HeldBack 0 [] := by
          rintro ⟨-, hhead, -⟩
          cases hhead
        rw [handedInPieces, handedOn_nil, List.nil_append, List.flatten_cons, List.nil_append,
          Uncut]
        refine ih.trans ⟨fun h => ⟨fun hkept => absurd hkept hheld, fun _ => h⟩, fun h => h.2 rfl⟩
      | cons c piece =>
        have hpos : 0 + (c :: piece).length ≠ 0 := by simp
        rw [handedInPieces, handedInPieces_of_ne_zero hpos, List.flatten_cons, Uncut,
          handedOn_append_iff (List.cons_ne_nil c piece)]
        exact ⟨fun h => ⟨h, fun hnil => absurd hnil (List.cons_ne_nil c piece)⟩, fun h => h.1⟩
    · have hne : counter ≠ 0 := Nat.ne_of_gt hcounter
      rw [handedInPieces_of_ne_zero hne, handedOn_of_plain (Or.inl hne)]
      exact iff_of_true rfl (uncut_of_ne_zero hne _)

end Bytes

/-! ### Calls -/

section Calls

variable (b : Build) (lib : Library)

/-- The detection of a byte order mark in one call. -/
theorem run_bom_put (counter : ℕ) (bytes : Bytes) :
    ∃ trailer, Step.run Bom.put (.start counter) bytes =
      .ok (⟨counter + bytes.length, HeldBack counter bytes, trailer⟩, handedOn counter bytes) := by
  by_cases hplain : Plain counter bytes
  · have hheld : ¬HeldBack counter bytes := by
      rintro ⟨hcounter, hhead, -⟩
      exact hplain.elim (· hcounter) (· hhead)
    refine ⟨[0, 0, 0], ?_⟩
    rw [handedOn_of_plain hplain, decide_eq_false hheld]
    exact run_bom hplain
  · obtain ⟨rfl, hhead⟩ : counter = 0 ∧ bytes.head? = some 0xEF := by
      simpa [Plain, not_or] using hplain
    cases bytes with
    | nil => cases hhead
    | cons c bytes =>
      obtain rfl : c = 0xEF := Option.some.inj hhead
      cases bytes with
      | nil => exact ⟨[0xEF, 0, 0], rfl⟩
      | cons d bytes =>
        cases bytes with
        | nil => exact ⟨[0xEF, d, 0], rfl⟩
        | cons e rest =>
          refine ⟨[0xEF, d, e], ?_⟩
          -- three bytes are compared with the mark, and the rest is plain
          have hthird : Bom.put ⟨2, true, [0xEF, d, 0]⟩ e =
              .ok (⟨3, false, [0xEF, d, e]⟩,
                if [0xEF, d, e] = mark then [] else [0xEF, d, e]) := rfl
          have hrest : Step.run Bom.put ⟨3, false, [0xEF, d, e]⟩ rest =
              .ok (⟨3 + rest.length, false, [0xEF, d, e]⟩, rest) := run_bom (Or.inl (by decide))
          have hrun : Step.run Bom.put (.start 0) (0xEF :: d :: e :: rest) =
              .ok (⟨3 + rest.length, false, [0xEF, d, e]⟩,
                [] ++ ([] ++ ((if [0xEF, d, e] = mark then [] else [0xEF, d, e]) ++ rest))) :=
            Step.run_cons_ok rfl (Step.run_cons_ok rfl (Step.run_cons_ok hthird hrest))
          have hheld : ¬HeldBack 0 (0xEF :: d :: e :: rest) := by
            rintro ⟨-, -, hlength⟩
            simp only [List.length_cons] at hlength
            omega
          have hcounter : 3 + rest.length = 0 + (0xEF :: d :: e :: rest).length := by
            simp only [List.length_cons]
            omega
          have htake : (0xEF :: d :: e :: rest).take 3 = [0xEF, d, e] := rfl
          rw [hrun, hcounter, decide_eq_false hheld, handedOn, if_neg hheld, htake]
          split_ifs with hmark hmark' hmark'
          · rfl
          · exact absurd ⟨rfl, hmark⟩ hmark'
          · exact absurd hmark'.2 hmark
          · rfl

/-- The state behind the detection of a byte order mark. -/
def inner (r : Reader) : (U8ToU32 × Tokenizer) × Parser := ((r.sanitizer, r.tokenizer), r.parser)

/-- The reader after some bytes, with what became of the state behind the detection. -/
def resume (counter : ℕ) :
    Except Fault (((U8ToU32 × Tokenizer) × Parser) × List Obj) → Except Fault (Reader × List Obj)
  | .error e => .error e
  | .ok (((sanitizer, tokenizer), parser), os) => .ok (⟨counter, sanitizer, tokenizer, parser⟩, os)

theorem read_eq (r : Reader) (chunk : Bytes) :
    read b lib r chunk = resume (r.counter + chunk.length)
      (Step.run (put b lib) r.inner (handedOn r.counter chunk)) := by
  obtain ⟨trailer, hbom⟩ := run_bom_put r.counter chunk
  cases hput : Step.run (put b lib) r.inner (handedOn r.counter chunk) with
  | error e =>
    have hrun : Step.run (Step.pipe Bom.put (put b lib))
        (.start r.counter, (r.sanitizer, r.tokenizer), r.parser) chunk = .error e :=
      Step.run_pipe_of_error hbom hput
    simp only [read, hrun, resume]
  | ok result =>
    obtain ⟨⟨⟨sanitizer, tokenizer⟩, parser⟩, os⟩ := result
    have hrun : Step.run (Step.pipe Bom.put (put b lib))
        (.start r.counter, (r.sanitizer, r.tokenizer), r.parser) chunk =
          .ok ((⟨r.counter + chunk.length, HeldBack r.counter chunk, trailer⟩,
            (sanitizer, tokenizer), parser), os) := Step.run_pipe_ok hbom hput
    simp only [read, hrun, resume]

/-- Calls with one piece after the other. -/
theorem run_read (r : Reader) (pieces : List Bytes) :
    Step.run (read b lib) r pieces = resume (r.counter + pieces.flatten.length)
      (Step.run (put b lib) r.inner (handedInPieces r.counter pieces)) := by
  -- the induction is on the pieces; a fault in one of them is the fault of all
  induction pieces generalizing r with
  | nil => rfl
  | cons piece pieces ih =>
    rw [handedInPieces, List.flatten_cons, List.length_append, ← Nat.add_assoc]
    cases hput : Step.run (put b lib) r.inner (handedOn r.counter piece) with
    | error e =>
      have hread : read b lib r piece = .error e := by rw [read_eq, hput, resume]
      rw [Step.run_cons_of_error hread, Step.run_append_of_error hput, resume]
    | ok result =>
      obtain ⟨⟨⟨sanitizer, tokenizer⟩, parser⟩, os⟩ := result
      have hread : read b lib r piece =
          .ok (⟨r.counter + piece.length, sanitizer, tokenizer, parser⟩, os) := by
        rw [read_eq, hput, resume]
      have htail := ih ⟨r.counter + piece.length, sanitizer, tokenizer, parser⟩
      rw [Step.run_cons_of_ok hread, htail]
      cases hrest : Step.run (put b lib) ((sanitizer, tokenizer), parser)
          (handedInPieces (r.counter + piece.length) pieces) with
      | error e => rw [Step.run_append_ok_error hput hrest]; simp only [inner, hrest, resume]
      | ok result =>
        obtain ⟨⟨⟨sanitizer', tokenizer'⟩, parser'⟩, os'⟩ := result
        rw [Step.run_append_ok hput hrest]
        simp only [inner, hrest, resume]

/-- `parser::read` with its counter of lines. -/
def readLines : Step (Reader × ℕ) Bytes Obj Fault := fun s chunk =>
  match read b lib s.1 chunk with
  | .error e => .error e
  | .ok (r, os) => .ok ((r, s.2 + chunk.count 0x0A), os)

theorem run_readLines (r : Reader) (line : ℕ) (pieces : List Bytes) :
    Step.run (readLines b lib) (r, line) pieces =
      match Step.run (read b lib) r pieces with
      | .error e => .error e
      | .ok (r', os) => .ok ((r', line + pieces.flatten.count 0x0A), os) := by
  induction pieces generalizing r line with
  | nil => rfl
  | cons piece pieces ih =>
    cases hread : read b lib r piece with
    | error e =>
      have hstep : readLines b lib (r, line) piece = .error e := by simp [readLines, hread]
      rw [Step.run_cons_of_error hread, Step.run_cons_of_error hstep]
    | ok result =>
      obtain ⟨r', os⟩ := result
      have hstep : readLines b lib (r, line) piece =
          .ok ((r', line + piece.count 0x0A), os) := by simp [readLines, hread]
      rw [Step.run_cons_of_ok hread, Step.run_cons_of_ok hstep, ih]
      cases Step.run (read b lib) r' pieces with
      | error e => rfl
      | ok result => simp only [List.flatten_cons, List.count_append, Nat.add_assoc]

/-- Where no piece is kept, the calls end like one call on the whole text: with the same results
for the callback and in the same state, or with the same fault. The decoder gets the same bytes
nowhere else. -/
theorem read_pieces (r : Reader) (line : ℕ) (pieces : List Bytes) :
    (Uncut r.counter pieces → Step.run (readLines b lib) (r, line) pieces =
        readLines b lib (r, line) pieces.flatten) ∧
      (handedInPieces r.counter pieces = handedOn r.counter pieces.flatten ↔
        Uncut r.counter pieces) := by
  refine ⟨fun h => ?_, handedInPieces_eq_iff r.counter pieces⟩
  have hbytes := (handedInPieces_eq_iff r.counter pieces).mpr h
  rw [run_readLines, run_read, hbytes, ← read_eq]
  rfl

end Calls

/-- A text with a byte order mark in two pieces, of which the first one is long enough. -/
theorem read_pieces_sample :
    Step.run (readLines .debug .sample) (initial, 0) [mark ++ [0x5B], [0x31, 0x5D]] =
      readLines .debug .sample (initial, 0) (mark ++ [0x5B, 0x31, 0x5D]) :=
  (read_pieces .debug .sample initial 0 [mark ++ [0x5B], [0x31, 0x5D]]).1
    ⟨fun h => absurd h (by decide), fun h => absurd h (by decide)⟩

/-- Cut inside of the mark, the same text ends with an assertion: the rest of the mark counts as a
literal in front of the array. -/
theorem not_read_pieces :
    Step.run (read .debug .sample) initial [mark ++ [0x5B, 0x31, 0x5D]] =
        .ok (⟨6, .initial, .initial, .initial⟩, [.vector [.scalar (.int .int64 1)]]) ∧
      Step.run (read .debug .sample) initial [[0xEF], [0xBB, 0xBF, 0x5B, 0x31, 0x5D]] =
        .error (.assertion "stack_.size() == 1") := by
  decide +kernel

-- The lost bytes may leave no trace: a literal that is no text becomes the text of the exception.
example : ¬Uncut 0 [[0xEF], [0xBB, 0xBF, 0xED, 0xA0, 0x80, 0x20]] ∧
    Step.run (read .debug .sample) initial [[0xEF], [0xBB, 0xBF, 0xED, 0xA0, 0x80, 0x20]] =
      read .debug .sample initial (mark ++ [0xED, 0xA0, 0x80, 0x20]) := by
  refine ⟨fun h => ?_, by decide +kernel⟩
  exact absurd (h.1 (by decide)) (by decide)

end Reader

end Json

end Cyng
