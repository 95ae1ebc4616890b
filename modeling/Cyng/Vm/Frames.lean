import Cyng.Vm.Invoke

/-!
# Frames

`ESBA` opens a frame: it pushes the base pointer and lets it point to the slot where the old
one is saved. `REBA` drops the frame with all its values, `PULL` drops the slot only, so that
the values stay.

A program whose instructions take their operands from their own frame is described by what it
does to the values of this frame, whatever lies below. A frame that is closed by `PULL` is
transparent then, and so is one that is closed by `REBA`, but for an assertion: it demands that
the saved base pointer is above the current one, where below is what `ESBA` leaves.
-/

namespace Cyng

open Theory

namespace Vm

/-! ### Programs -/

/-- The instructions that work on the values of a frame. -/
inductive Instr
  | push (o : Obj) (value : ∀ code, o ≠ .op code)
  | makePair (kind : KeyKind)
  | makeMap (kind : KeyKind)
  | makeSeq (kind : SeqKind)
  | makePrg
  | split
  | frm

/-- How a frame is closed. -/
inductive Close
  | reba | pull

/-- Programs in which every frame that is opened is closed. -/
inductive Prog
  | done
  | instr (i : Instr) (rest : Prog)
  | frame (body : Prog) (close : Close) (rest : Prog)

def Instr.code : Instr → Obj
  | push o _ => o
  | makePair kind => .op kind.makePair
  | makeMap kind => .op kind.makeMap
  | makeSeq kind => .op kind.make
  | makePrg => .op Op.makePrg
  | split => .op Op.split
  | frm => .op Op.frm

def Close.code : Close → Obj
  | reba => .op Op.reba
  | pull => .op Op.pull

/-- The program as the machine gets it. -/
def Prog.code : Prog → List Obj
  | done => []
  | instr i rest => i.code :: rest.code
  | frame body close rest => .op Op.esba :: body.code ++ close.code :: rest.code

/-! ### What programs do to a frame

The values of a frame are listed from the top down.
-/

/-- The number that a container is built from. -/
def count (f : List Obj) : ℕ := ((f.head?.bind Stack.asSize).getD 0).toNat

/-- How many values an instruction takes. -/
def Instr.need : Instr → List Obj → ℕ
  | push .., _ | frm, _ => 0
  | split, _ => 1
  | makePair _, _ => 2
  | makeMap _, f | makeSeq _, f | makePrg, f => 1 + count f

/-- What an instruction makes of the values of its frame, if they have the types it needs. -/
def Instr.apply : Instr → List Obj → Option (List Obj)
  | push o _, f => some (o :: f)
  | makePair kind, key :: value :: f =>
    (Stack.asKey kind key).map fun key => .pair key value :: f
  | makeMap kind, n :: f =>
    (Stack.asSize n).bind fun n =>
      ((f.take n.toNat).mapM (Stack.asPair kind)).map fun entries =>
        .map kind (OrderedMap.ofEntries entries.reverse) :: f.drop n.toNat
  | makeSeq kind, n :: f =>
    (Stack.asSize n).map fun n => .seq kind (f.take n.toNat) :: f.drop n.toNat
  | makePrg, n :: f =>
    (Stack.asSize n).bind fun n =>
      ((f.take n.toNat).mapM Stack.asBuffer).map fun bufs => .prg bufs :: f.drop n.toNat
  | split, .seq _ items :: f => some (.size items.length :: items.reverse ++ f)
  | frm, f => some (.size f.length :: f)
  | _, _ => none

/-- What a closed frame leaves to the one around it. -/
def Close.apply (close : Close) (r f : List Obj) : List Obj :=
  match close with
  | reba => f
  | pull => r ++ f

/-- What a program makes of the values of its frame. -/
def Prog.eval : Prog → List Obj → Option (List Obj)
  | done, f => some f
  | instr i rest, f => (i.apply f).bind rest.eval
  | frame body close rest, f => (body.eval []).bind fun r => rest.eval (close.apply r f)

/-- With so many objects below the frame, no instruction reaches below it, and the stack never
holds more objects than it can. -/
def Prog.Within : Prog → ℕ → List Obj → Prop
  | done, _, _ => True
  | instr i rest, n, f => i.need f ≤ f.length ∧
    ∀ f', i.apply f = some f' → n + f'.length ≤ objectMaxCount ∧ rest.Within n f'
  | frame body close rest, n, f => n + f.length + 1 ≤ objectMaxCount ∧
    body.Within (n + f.length + 1) [] ∧
    ∀ r, body.eval [] = some r → rest.Within n (close.apply r f)

/-- No frame inside the program is closed by `REBA`. -/
def Prog.NoReba : Prog → Prop
  | done => True
  | instr _ rest => rest.NoReba
  | frame body close rest => body.NoReba ∧ close = .pull ∧ rest.NoReba

/-! ### Stacks with a frame on top -/

/-- A stack whose frame holds the given values, above the given objects. -/
def framed (base : List Obj) (bp : BitVec 64) (f : List Obj) : Stack := ⟨base ++ f.reverse, bp⟩

section Framed

variable {base : List Obj} {bp : BitVec 64} {f : List Obj}

theorem framed_cons (o : Obj) : framed base bp (o :: f) = (framed base bp f).push o := by
  simp [framed, Stack.push]

theorem framed_append (xs : List Obj) :
    framed base bp (xs ++ f) = (framed base bp f).pushAll xs.reverse := by
  simp [framed, Stack.pushAll]

theorem length_framed : (framed base bp f).items.length = base.length + f.length := by
  simp [framed]

end Framed

section Pops

variable {T : Type} {cast : Obj → Option T} {o : Obj}

theorem topValue_debug_of_none (h : cast o = none) (default : T) (s : Stack) :
    ∃ e, Stack.topValue .debug cast default (s.push o) = .error e := by
  refine ⟨.assertion "wrong type", ?_⟩
  rw [Stack.topValue, Stack.top_push, ok_bind, h]
  rfl

theorem popValue_debug_of_none (h : cast o = none) (default : T) (s : Stack) :
    ∃ e, Stack.popValue .debug cast default (s.push o) = .error e := by
  obtain ⟨e, he⟩ := topValue_debug_of_none h default s
  exact ⟨e, by rw [Stack.popValue, he, error_bind]⟩

/-- The elements of a container are taken, when all of them have the type. -/
theorem popMany_of_mapM {step : Stack → Except Fault (T × Stack)}
    (hsome : ∀ o x (s : Stack), cast o = some x → step (s.push o) = .ok (x, s))
    {xs : List Obj} {ys : List T} (h : xs.mapM cast = some ys) (s : Stack) :
    Stack.popMany step xs.length (s.pushAll xs.reverse) = .ok (ys, s) := by
  induction xs generalizing ys with
  | nil =>
    obtain rfl : [] = ys := by simpa using h
    simp [Stack.popMany]
  | cons o xs ih =>
    rw [List.mapM_cons] at h
    obtain ⟨x, hx, h⟩ := Option.bind_eq_some_iff.mp h
    obtain ⟨zs, hzs, h⟩ := Option.bind_eq_some_iff.mp h
    obtain rfl := Option.some.inj h
    rw [List.reverse_cons, Stack.pushAll_concat, List.length_cons, Stack.popMany,
      hsome o x _ hx, ok_bind]
    simp only [ih hzs, ok_bind]

theorem popMany_debug_of_mapM_none {step : Stack → Except Fault (T × Stack)}
    (hsome : ∀ o x (s : Stack), cast o = some x → step (s.push o) = .ok (x, s))
    (hnone : ∀ o (s : Stack), cast o = none → ∃ e, step (s.push o) = .error e)
    {xs : List Obj} (h : xs.mapM cast = none) (s : Stack) :
    ∃ e, Stack.popMany step xs.length (s.pushAll xs.reverse) = .error e := by
  induction xs with
  | nil => simp at h
  | cons o xs ih =>
    rw [List.reverse_cons, Stack.pushAll_concat, List.length_cons, Stack.popMany]
    -- pushed in reverse, the head of the list lies on top
    cases hcast : cast o with
    | none =>
      obtain ⟨e, he⟩ := hnone o (s.pushAll xs.reverse) hcast
      exact ⟨e, by rw [he, error_bind]⟩
    | some x =>
      have hxs : xs.mapM cast = none := by
        rw [List.mapM_cons, hcast] at h
        cases hmap : xs.mapM cast with
        | none => rfl
        | some ys =>
          rw [hmap] at h
          cases h
      obtain ⟨e, he⟩ := ih hxs
      refine ⟨e, ?_⟩
      rw [hsome o x _ hcast, ok_bind]
      simp only [he, error_bind]

end Pops

/-! ### Single instructions -/

section Instructions

variable {b : Build} {env : VmEnv} {base : List Obj} {bp : BitVec 64} {f : List Obj} {o : Obj}

theorem asSize_eq_some {n : BitVec 64} (h : Stack.asSize o = some n) :
    o = .scalar (.uint64 n) := by
  unfold Stack.asSize at h
  split at h
  · rw [Option.some.inj h]
  · cases h

theorem asKey_eq_some {kind : KeyKind} {key : Key} (h : Stack.asKey kind o = some key) :
    o = .scalar key.toScalar ∧ key.kind = kind := by
  cases kind with
  | index =>
    obtain ⟨i, hi, rfl⟩ := Option.map_eq_some_iff.mp h
    exact ⟨asSize_eq_some hi, rfl⟩
  | name =>
    obtain ⟨n, hn, rfl⟩ := Option.map_eq_some_iff.mp h
    unfold Stack.asString at hn
    split at hn
    · rw [Option.some.inj hn]
      exact ⟨rfl, rfl⟩
    · cases hn
  | code =>
    obtain ⟨c, hc, rfl⟩ := Option.map_eq_some_iff.mp h
    unfold Stack.asObis at hc
    split at hc
    · rw [Option.some.inj hc]
      exact ⟨rfl, rfl⟩
    · cases hc

theorem asBuffer_eq_some {buf : Bytes} (h : Stack.asBuffer o = some buf) :
    o = .scalar (.buffer buf) := by
  unfold Stack.asBuffer at h
  split at h
  · rw [Option.some.inj h]
  · cases h

theorem typeCode_ne_buffer (h : Stack.asBuffer o = none) : o.typeCode ≠ .buffer := by
  cases o with
  | scalar v =>
    cases v with
    | buffer buf => cases h
    | float ty _ | int ty _ | digest ty _ | aesKey ty _ => cases ty <;> nofun
    | duration unit _ => cases unit <;> nofun
    | endpoint protocol _ _ => cases protocol <;> nofun
    | _ => nofun
  | pair key _ => cases key <;> nofun
  | map kind _ | seq kind _ => cases kind <;> nofun
  | prg _ => nofun

/-- The count of a container, and what is below it. -/
theorem takeCount_framed {text : String} {least : ℕ} {n : BitVec 64}
    (hn : n.toNat ≤ base.length + f.length) (hleast : least ≤ base.length + f.length) :
    Stack.takeCount b text least (framed base bp (.scalar (.uint64 n) :: f)) =
      .ok (n, framed base bp f) := by
  have hsize : Obj.scalar (.uint64 n) = .size n.toNat := by simp
  rw [framed_cons, hsize, Stack.takeCount_push b text least n.isLt
    (hn.trans_eq length_framed.symm) fun _ => hleast.trans_eq length_framed.symm]
  simp

theorem takeCount_debug_of_none (h : Stack.asSize o = none) (text : String) (least : ℕ)
    (s : Stack) : ∃ e, Stack.takeCount .debug text least (s.push o) = .error e := by
  obtain ⟨e, he⟩ := topValue_debug_of_none h 0 s
  rw [Stack.takeCount]
  cases Build.debug.check text (least < (s.push o).items.length) with
  | error e' => exact ⟨e', rfl⟩
  | ok _ => exact ⟨e, by rw [ok_bind, he, error_bind]⟩

/-- What starts with a count fails without one. -/
theorem counted_debug_of_none {α : Type} (h : Stack.asSize o = none) (text : String) (least : ℕ)
    (s : Stack) (rest : BitVec 64 × Stack → Except Fault α) :
    ∃ e, (Stack.takeCount .debug text least (s.push o) >>= rest) = .error e := by
  obtain ⟨e, he⟩ := takeCount_debug_of_none h text least s
  exact ⟨e, by rw [he, error_bind]⟩

/-- The uppermost values of a frame. -/
theorem framed_split (base : List Obj) (bp : BitVec 64) {k : ℕ} (hk : k ≤ f.length) :
    framed base bp f = (framed base bp (f.drop k)).pushAll (f.take k).reverse ∧
      (f.take k).length = k := by
  refine ⟨?_, List.length_take_of_le hk⟩
  rw [← framed_append, List.take_append_drop]

section Pops

variable {T : Type} {cast : Obj → Option T} {k : ℕ} {step : Stack → Except Fault (T × Stack)}
  (hsome : ∀ o x (s : Stack), cast o = some x → step (s.push o) = .ok (x, s))
include hsome

theorem popMany_framed (hk : k ≤ f.length) {xs : List T} (h : (f.take k).mapM cast = some xs) :
    Stack.popMany step k (framed base bp f) = .ok (xs, framed base bp (f.drop k)) := by
  obtain ⟨hsplit, hlen⟩ := framed_split base bp hk
  have hpop := popMany_of_mapM hsome h (framed base bp (f.drop k))
  rwa [hlen, ← hsplit] at hpop

theorem popMany_framed_debug (base : List Obj) (bp : BitVec 64) (hk : k ≤ f.length)
    (h : (f.take k).mapM cast = none)
    (hnone : ∀ o (s : Stack), cast o = none → ∃ e, step (s.push o) = .error e) :
    ∃ e, Stack.popMany step k (framed base bp f) = .error e := by
  obtain ⟨hsplit, hlen⟩ := framed_split base bp hk
  have hpop := popMany_debug_of_mapM_none hsome hnone h (framed base bp (f.drop k))
  rwa [hlen, ← hsplit] at hpop

end Pops

theorem moveTop_push (o x : Obj) (s : Stack) (h : some o = some x) :
    Stack.moveTop b (s.push o) = .ok (x, s) := by
  rw [Stack.moveTop, Stack.top_push, ok_bind, Stack.pop_push, ok_bind, Option.some.inj h]

theorem moveBuffer_push (o : Obj) (buf : Bytes) (s : Stack) (h : Stack.asBuffer o = some buf) :
    Stack.moveBuffer b (s.push o) = .ok (buf, s) := by
  obtain rfl := asBuffer_eq_some h
  rw [Stack.moveBuffer, Stack.top_push, ok_bind, Build.check_of (by rfl), ok_bind, Stack.pop_push]
  rfl

theorem moveBuffer_debug_of_none (o : Obj) (s : Stack) (h : Stack.asBuffer o = none) :
    ∃ e, Stack.moveBuffer .debug (s.push o) = .error e := by
  refine ⟨.assertion "not a buffer (prg)", ?_⟩
  rw [Stack.moveBuffer, Stack.top_push, ok_bind, Build.check,
    if_pos ⟨rfl, typeCode_ne_buffer h⟩]
  rfl

theorem mapM_some (xs : List Obj) : xs.mapM (fun o => some o) = some xs := by
  induction xs with
  | nil => rfl
  | cons o xs ih => simp [List.mapM_cons, ih]

theorem foldl_push (items : List Obj) (s : Stack) : items.foldl Stack.push s = s.pushAll items := by
  induction items generalizing s with
  | nil => simp
  | cons o items ih => rw [List.foldl_cons, ih, Stack.pushAll_cons]

/-! What each instruction does when its operands are in the frame. -/

theorem makePair_framed {kind : KeyKind} {text : String} {o value : Obj} {key : Key}
    (h : Stack.asKey kind o = some key) :
    Stack.makePair b kind text (framed base bp (o :: value :: f)) =
      .ok (framed base bp (.pair key value :: f)) := by
  obtain ⟨rfl, rfl⟩ := asKey_eq_some h
  rw [framed_cons, framed_cons, framed_cons]
  exact Stack.makePair_push b key text _ value

theorem makePair_framed_debug {kind : KeyKind} {text : String} {o value : Obj}
    (h : Stack.asKey kind o = none) :
    ∃ e, Stack.makePair .debug kind text (framed base bp (o :: value :: f)) = .error e := by
  obtain ⟨e, he⟩ := popValue_debug_of_none h (Stack.defaultKey kind) (framed base bp (value :: f))
  rw [framed_cons, Stack.makePair]
  cases Build.debug.check text (1 < ((framed base bp (value :: f)).push o).items.length) with
  | error e' => exact ⟨e', rfl⟩
  | ok _ => exact ⟨e, by rw [ok_bind, he, error_bind]⟩

theorem popPair_push {kind : KeyKind} (o : Obj) (e : Key × Obj) (s : Stack)
    (h : Stack.asPair kind o = some e) :
    Stack.popValue b (Stack.asPair kind) (Stack.defaultPair kind) (s.push o) = .ok (e, s) :=
  Stack.popValue_push b s o h _

theorem makeMap_framed {kind : KeyKind} {text : String} {least : ℕ} {n : BitVec 64}
    {entries : List (Key × Obj)} (hn : n.toNat ≤ f.length) (hleast : least ≤ base.length)
    (h : (f.take n.toNat).mapM (Stack.asPair kind) = some entries) :
    Stack.makeMap b kind text least (framed base bp (.scalar (.uint64 n) :: f)) =
      .ok (framed base bp
        (.map kind (OrderedMap.ofEntries entries.reverse) :: f.drop n.toNat)) := by
  rw [Stack.makeMap, takeCount_framed (Nat.le_add_left_of_le hn) (Nat.le_add_right_of_le hleast),
    ok_bind]
  simp only [popMany_framed popPair_push hn h, ok_bind, framed_cons]

theorem makeMap_framed_debug {kind : KeyKind} {text : String} {least : ℕ} {n : BitVec 64}
    (hn : n.toNat ≤ f.length) (hleast : least ≤ base.length)
    (h : (f.take n.toNat).mapM (Stack.asPair kind) = none) :
    ∃ e, Stack.makeMap .debug kind text least (framed base bp (.scalar (.uint64 n) :: f)) =
      .error e := by
  obtain ⟨e, he⟩ := popMany_framed_debug popPair_push base bp hn h
    fun o s ho => popValue_debug_of_none ho _ s
  refine ⟨e, ?_⟩
  rw [Stack.makeMap, takeCount_framed (Nat.le_add_left_of_le hn) (Nat.le_add_right_of_le hleast),
    ok_bind]
  simp only [he, error_bind]

theorem makeSeq_framed {kind : SeqKind} {text : String} {n : BitVec 64} (hn : n.toNat ≤ f.length) :
    Stack.makeSeq b kind text (framed base bp (.scalar (.uint64 n) :: f)) =
      .ok (framed base bp (.seq kind (f.take n.toNat) :: f.drop n.toNat)) := by
  rw [Stack.makeSeq, takeCount_framed (Nat.le_add_left_of_le hn) (Nat.zero_le _), ok_bind]
  simp only [popMany_framed moveTop_push hn (mapM_some _), ok_bind, framed_cons]

theorem makeVector_framed {n : BitVec 64} (hn : n.toNat ≤ f.length)
    (hfits : f.length ≤ objectMaxCount) :
    Stack.makeVector b (framed base bp (.scalar (.uint64 n) :: f)) =
      .ok (framed base bp (.seq .vector (f.take n.toNat) :: f.drop n.toNat)) := by
  rw [Stack.makeVector, takeCount_framed (Nat.le_add_left_of_le hn) (Nat.zero_le _), ok_bind]
  simp only [if_pos (hn.trans hfits), popMany_framed moveTop_push hn (mapM_some _), ok_bind,
    framed_cons]

theorem makePrg_framed {n : BitVec 64} {bufs : List Bytes} (hn : n.toNat ≤ f.length)
    (h : (f.take n.toNat).mapM Stack.asBuffer = some bufs) :
    Stack.makePrg b (framed base bp (.scalar (.uint64 n) :: f)) =
      .ok (framed base bp (.prg bufs :: f.drop n.toNat)) := by
  rw [Stack.makePrg, takeCount_framed (Nat.le_add_left_of_le hn) (Nat.zero_le _), ok_bind]
  simp only [popMany_framed moveBuffer_push hn h, ok_bind, framed_cons]

theorem makePrg_framed_debug {n : BitVec 64} (hn : n.toNat ≤ f.length)
    (h : (f.take n.toNat).mapM Stack.asBuffer = none) :
    ∃ e, Stack.makePrg .debug (framed base bp (.scalar (.uint64 n) :: f)) = .error e := by
  obtain ⟨e, he⟩ := popMany_framed_debug moveBuffer_push base bp hn h
    moveBuffer_debug_of_none
  refine ⟨e, ?_⟩
  rw [Stack.makePrg, takeCount_framed (Nat.le_add_left_of_le hn) (Nat.zero_le _), ok_bind]
  simp only [he, error_bind]

theorem disassemble_framed {kind : SeqKind} {items : List Obj} :
    Stack.disassemble b kind (framed base bp (.seq kind items :: f)) =
      .ok (framed base bp (.size items.length :: (items.reverse ++ f))) := by
  have hseq : Stack.asSeq kind (.seq kind items) = some items := if_pos rfl
  rw [framed_cons, Stack.disassemble, Stack.topValue_push b _ _ hseq, ok_bind, Stack.pop_push,
    ok_bind, foldl_push, framed_cons, framed_append, List.reverse_reverse]

theorem split_framed {kind : SeqKind} {items : List Obj} :
    (framed base bp (.seq kind items :: f)).split b =
      .ok (framed base bp (.size items.length :: (items.reverse ++ f))) := by
  have hpos : (framed base bp (.seq kind items :: f)).items ≠ [] := by
    simp [framed]
  have htop : (framed base bp (.seq kind items :: f)).top b = .ok (.seq kind items) := by
    rw [framed_cons]
    exact Stack.top_push b _ _
  rw [Stack.split, Build.check_of hpos, ok_bind, htop, ok_bind]
  cases kind <;> exact disassemble_framed

theorem split_debug_of_not_seq {o : Obj} (h : ∀ kind items, o ≠ .seq kind items) (s : Stack) :
    ∃ e, (s.push o).split .debug = .error e := by
  have hseq : ∀ kind, Stack.asSeq kind o = none := by
    intro kind
    cases o with
    | seq kind' items => exact absurd rfl (h kind' items)
    | _ => rfl
  have hdisassemble : ∀ kind, ∃ e, Stack.disassemble .debug kind (s.push o) = .error e := by
    intro kind
    obtain ⟨e, he⟩ := topValue_debug_of_none (hseq kind) [] s
    exact ⟨e, by rw [Stack.disassemble, he, error_bind]⟩
  rw [Stack.split, Build.check_of (by simp), ok_bind, Stack.top_push, ok_bind]
  split
  · exact hdisassemble .tuple
  · exact hdisassemble .vector
  · exact hdisassemble .deque
  · exact ⟨_, rfl⟩

theorem frm_framed (hbp : bp.toNat + 1 = base.length) :
    (framed base bp f).frm b = .ok (framed base bp (.size f.length :: f)) := by
  have hlt : (framed base bp f).bp.toNat < (framed base bp f).items.length := by
    rw [length_framed]
    exact Nat.lt_of_lt_of_le (Nat.lt_of_succ_le hbp.le) (Nat.le_add_right _ _)
  have hsize : (framed base bp f).size - bp - 1 = BitVec.ofNat 64 f.length := by
    refine BitVec.eq_of_toNat_eq ?_
    have hbpLt := bp.isLt
    have hone : (1 : BitVec 64).toNat = 1 := rfl
    simp only [Stack.size, length_framed, ← hbp, BitVec.toNat_sub, BitVec.toNat_ofNat, hone]
    omega
  rw [Stack.frm, Build.check_of hlt, ok_bind, framed_cons]
  exact congrArg (fun n => Except.ok ((framed base bp f).push (.scalar (.uint64 n)))) hsize

/-- The values that are counted are in the frame, below the count. -/
theorem le_length_of_need {n : BitVec 64} (h : 1 + n.toNat ≤ f.length + 1) :
    n.toNat ≤ f.length := by
  omega

/-- An instruction whose operands are in the frame, with the types it needs. -/
theorem exec_of_apply {i : Instr} {f' : List Obj} (hneed : i.need f ≤ f.length)
    (hbp : bp.toNat + 1 = base.length) (hfits : f.length ≤ objectMaxCount)
    (h : i.apply f = some f') :
    exec b env (framed base bp f) i.code = .ok (framed base bp f', []) := by
  -- the attribute map asks for one object more, and the base pointer is that object
  have hbase : 1 ≤ base.length := by omega
  cases i with
  | push o value =>
    obtain rfl := Option.some.inj h
    rw [framed_cons]
    exact exec_of_ne_op value
  | makePair kind =>
    match f, hneed, h with
    | o :: value :: f, _, h =>
      obtain ⟨key, hkey, rfl⟩ := Option.map_eq_some_iff.mp h
      cases kind <;> exact congrArg silent (makePair_framed hkey)
  | makeMap kind =>
    match f, hneed, h with
    | o :: f, hneed, h =>
      obtain ⟨n, hn, h⟩ := Option.bind_eq_some_iff.mp h
      obtain ⟨entries, hentries, rfl⟩ := Option.map_eq_some_iff.mp h
      obtain rfl := asSize_eq_some hn
      have hlen : n.toNat ≤ f.length := le_length_of_need hneed
      cases kind
      · exact congrArg silent (makeMap_framed hlen hbase hentries)
      · exact congrArg silent (makeMap_framed hlen (Nat.zero_le _) hentries)
      · exact congrArg silent (makeMap_framed hlen (Nat.zero_le _) hentries)
  | makeSeq kind =>
    match f, hneed, h with
    | o :: f, hneed, h =>
      obtain ⟨n, hn, rfl⟩ := Option.map_eq_some_iff.mp h
      obtain rfl := asSize_eq_some hn
      have hlen : n.toNat ≤ f.length := le_length_of_need hneed
      cases kind
      · exact congrArg silent (makeSeq_framed hlen)
      · exact congrArg silent (makeVector_framed hlen (Nat.le_of_succ_le hfits))
      · exact congrArg silent (makeSeq_framed hlen)
  | makePrg =>
    match f, hneed, h with
    | o :: f, hneed, h =>
      obtain ⟨n, hn, h⟩ := Option.bind_eq_some_iff.mp h
      obtain ⟨bufs, hbufs, rfl⟩ := Option.map_eq_some_iff.mp h
      obtain rfl := asSize_eq_some hn
      have hlen : n.toNat ≤ f.length := le_length_of_need hneed
      exact congrArg silent (makePrg_framed hlen hbufs)
  | split =>
    match f, h with
    | .seq kind items :: f, h =>
      obtain rfl := Option.some.inj h
      exact congrArg silent split_framed
  | frm =>
    obtain rfl := Option.some.inj h
    exact congrArg silent (frm_framed hbp)

theorem silent_error {x : Except Fault Stack} (h : ∃ e, x = .error e) :
    ∃ e, silent x = .error e := by
  obtain ⟨e, rfl⟩ := h
  exact ⟨e, rfl⟩

theorem exists_one_of_need {n : ℕ} (hpos : 0 < n) (h : n ≤ f.length) : ∃ o f', f = o :: f' :=
  List.exists_cons_of_length_pos (Nat.lt_of_lt_of_le hpos h)

theorem exists_two_of_need (h : 2 ≤ f.length) : ∃ o value f', f = o :: value :: f' := by
  obtain ⟨o, rest, rfl⟩ := exists_one_of_need Nat.zero_lt_two h
  obtain ⟨value, f', rfl⟩ := exists_one_of_need Nat.one_pos (Nat.le_of_succ_le_succ h)
  exact ⟨o, value, f', rfl⟩

theorem exists_count_of_need {i : Instr} (hi : ∀ g, i.need g = 1 + count g)
    (h : i.need f ≤ f.length) : ∃ o f', f = o :: f' := by
  rw [hi] at h
  exact exists_one_of_need (Nat.lt_add_right _ Nat.one_pos) h

/-- An instruction whose operands are in the frame, but not of the types it needs. -/
theorem exec_debug_of_apply_none (env : VmEnv) {i : Instr} (hneed : i.need f ≤ f.length)
    (hbp : bp.toNat + 1 = base.length) (h : i.apply f = none) :
    ∃ e, exec .debug env (framed base bp f) i.code = .error e := by
  have hbase : 1 ≤ base.length := by omega
  cases i with
  | push o value => cases h
  | makePair kind =>
    obtain ⟨o, value, f, rfl⟩ := exists_two_of_need hneed
    have hkey := Option.map_eq_none_iff.mp h
    cases kind <;> exact silent_error (makePair_framed_debug hkey)
  | makeMap kind =>
    obtain ⟨o, f, rfl⟩ := exists_count_of_need (fun _ => rfl) hneed
    cases hn : Stack.asSize o with
    | none =>
      rw [framed_cons]
      cases kind <;> exact silent_error (counted_debug_of_none hn _ _ _ _)
    | some n =>
      obtain rfl := asSize_eq_some hn
      have hlen : n.toNat ≤ f.length := le_length_of_need hneed
      have hentries : (f.take n.toNat).mapM (Stack.asPair kind) = none :=
        Option.map_eq_none_iff.mp h
      cases kind
      · exact silent_error (makeMap_framed_debug hlen hbase hentries)
      · exact silent_error (makeMap_framed_debug hlen (Nat.zero_le _) hentries)
      · exact silent_error (makeMap_framed_debug hlen (Nat.zero_le _) hentries)
  | makeSeq kind =>
    -- a sequence takes objects of any type, so it is the count that has another one
    obtain ⟨o, f, rfl⟩ := exists_count_of_need (fun _ => rfl) hneed
    have hn := Option.map_eq_none_iff.mp h
    rw [framed_cons]
    cases kind <;> exact silent_error (counted_debug_of_none hn _ _ _ _)
  | makePrg =>
    obtain ⟨o, f, rfl⟩ := exists_count_of_need (fun _ => rfl) hneed
    cases hn : Stack.asSize o with
    | none =>
      rw [framed_cons]
      exact silent_error (counted_debug_of_none hn _ _ _ _)
    | some n =>
      obtain rfl := asSize_eq_some hn
      have hlen : n.toNat ≤ f.length := le_length_of_need hneed
      exact silent_error (makePrg_framed_debug hlen (Option.map_eq_none_iff.mp h))
  | split =>
    obtain ⟨o, f, rfl⟩ := exists_one_of_need Nat.one_pos hneed
    have hseq : ∀ kind items, o ≠ .seq kind items := by
      rintro kind items rfl
      cases h
    rw [framed_cons]
    exact silent_error (split_debug_of_not_seq hseq _)
  | frm => cases h

end Instructions

/-! ### Opening and closing a frame -/

section Closing

variable {b : Build} {env : VmEnv} {items : List Obj} {bp : BitVec 64} {r : List Obj}

/-- The stack of an open frame: the slot is on top of what was there before. -/
def opened (items : List Obj) (bp : BitVec 64) (r : List Obj) : Stack :=
  framed (items ++ [.scalar (.uint64 bp)]) (BitVec.ofNat 64 items.length) r

theorem exec_esba (items : List Obj) (bp : BitVec 64) :
    exec b env ⟨items, bp⟩ (.op Op.esba) = .ok (opened items bp [], []) := by
  simp only [opened, framed, List.reverse_nil, List.append_nil]
  rfl

theorem toNat_ofNat_length (h : items.length + 1 ≤ objectMaxCount) :
    (BitVec.ofNat 64 items.length).toNat = items.length := by
  have hmax : objectMaxCount < 2 ^ 64 := by decide
  exact Nat.mod_eq_of_lt (by omega)

theorem savedBp_opened (h : items.length + 1 ≤ objectMaxCount) :
    (opened items bp r).savedBp b = .ok bp := by
  have hat : (opened items bp r).bp.toNat = items.length := toNat_ofNat_length h
  have hlt : (opened items bp r).bp.toNat < (opened items bp r).items.length := by
    rw [hat]
    simp only [opened, length_framed, List.length_append, List.length_singleton]
    omega
  have hslot : (opened items bp r).items[items.length]? = some (.scalar (.uint64 bp)) := by
    simp [opened, framed]
  rw [Stack.savedBp, Build.check_of hlt, ok_bind, hat, hslot]
  rfl

/-- `PULL` takes the slot out of the stack. -/
theorem exec_pull (h : items.length + 1 ≤ objectMaxCount) :
    exec b env (opened items bp r) Close.pull.code = .ok (⟨items ++ r.reverse, bp⟩, []) := by
  have hat : (opened items bp r).bp.toNat = items.length := toNat_ofNat_length h
  have hlt : (opened items bp r).bp.toNat < (opened items bp r).items.length := by
    rw [hat]
    simp only [opened, length_framed, List.length_append, List.length_singleton]
    omega
  have hpull : (opened items bp r).pull b = .ok ⟨items ++ r.reverse, bp⟩ := by
    rw [Stack.pull, savedBp_opened h, ok_bind, Build.check_of hlt, ok_bind, if_pos hlt, hat]
    simp [opened, framed, List.eraseIdx_append_of_length_le]
  exact congrArg silent hpull

/-- `REBA` goes back to the old size, after its assertions. -/
theorem exec_reba (h : items.length + 1 ≤ objectMaxCount) :
    exec b env (opened items bp r) Close.reba.code =
      (do b.check "bp < bp_" ((opened items bp r).bp < bp)
          b.check "s_.size() > bp_" (bp.toNat < (opened items bp r).items.length)
          .ok (⟨items, bp⟩, [])) := by
  have hat : (opened items bp r).bp.toNat = items.length := toNat_ofNat_length h
  have hitems : ((opened items bp r).items.take items.length).rightpad items.length
      (.scalar .null) = items := by
    simp [opened, framed, List.rightpad]
  have hexec : exec b env (opened items bp r) Close.reba.code =
      silent ((opened items bp r).reba b) := rfl
  rw [hexec, Stack.reba, savedBp_opened h, ok_bind, hat, hitems]
  cases b.check "bp < bp_" ((opened items bp r).bp < bp) with
  | error e => rfl
  | ok _ =>
    simp only [ok_bind]
    cases b.check "s_.size() > bp_" (bp.toNat < (opened items bp r).items.length) <;> rfl

theorem exec_reba_release (h : items.length + 1 ≤ objectMaxCount) :
    exec .release env (opened items bp r) Close.reba.code = .ok (⟨items, bp⟩, []) := by
  rw [exec_reba h]
  rfl

/-- The assertion about the base pointers wants the saved one to be the larger one. -/
theorem exec_reba_debug_iff (env : VmEnv) (bp : BitVec 64) (r : List Obj)
    (h : items.length + 1 ≤ objectMaxCount) :
    (exec .debug env (opened items bp r) Close.reba.code = .ok (⟨items, bp⟩, []) ↔
        items.length < bp.toNat ∧ bp.toNat < items.length + 1 + r.length) ∧
      (¬items.length < bp.toNat →
        ∃ e, exec .debug env (opened items bp r) Close.reba.code = .error e) := by
  have hat : (opened items bp r).bp.toNat = items.length := toNat_ofNat_length h
  have hlen : (opened items bp r).items.length = items.length + 1 + r.length := by
    simp [opened, length_framed]
  have hlt : (opened items bp r).bp < bp ↔ items.length < bp.toNat := by
    rw [BitVec.lt_def, hat]
  rw [exec_reba h]
  refine ⟨?_, ?_⟩
  · constructor
    · -- the two assertions of `reba` are the two bounds
      intro hok
      obtain ⟨_, hfirst, hok⟩ := bind_eq_ok_iff.mp hok
      obtain ⟨_, hsecond, -⟩ := bind_eq_ok_iff.mp hok
      exact ⟨hlt.mp (Build.check_debug_eq_ok_iff.mp hfirst),
        hlen ▸ Build.check_debug_eq_ok_iff.mp hsecond⟩
    · rintro ⟨hfirst, hsecond⟩
      rw [Build.check_of (hlt.mpr hfirst), ok_bind, Build.check_of (hlen ▸ hsecond), ok_bind]
  · intro hnot
    refine ⟨.assertion "bp < bp_", ?_⟩
    rw [Build.check, if_pos ⟨rfl, mt hlt.mp hnot⟩, error_bind]

end Closing

/-! ### Programs in a frame -/

section Programs

variable {b : Build} {env : VmEnv} {p : Prog} {base : List Obj} {bp : BitVec 64} {f f' : List Obj}

/-- The frame of a program that is run inside another one. -/
theorem opened_framed (base : List Obj) (bp : BitVec 64) (f r : List Obj) :
    opened (base ++ f.reverse) bp r =
      framed (base ++ f.reverse ++ [.scalar (.uint64 bp)])
        (BitVec.ofNat 64 (base ++ f.reverse).length) r := rfl

/-- A program stays within the capacity of the stack. -/
theorem Prog.Within.length_le {n : ℕ} (hfits : n + f.length ≤ objectMaxCount)
    (hw : p.Within n f) (h : p.eval f = some f') : n + f'.length ≤ objectMaxCount := by
  induction p generalizing n f f' with
  | done => exact Option.some.inj h ▸ hfits
  | instr i rest ih =>
    obtain ⟨f₁, happly, heval⟩ := Option.bind_eq_some_iff.mp h
    obtain ⟨hlen, hrest⟩ := hw.2 f₁ happly
    exact ih hlen hrest heval
  | frame body close rest ihBody ihRest =>
    obtain ⟨hopen, hbody, hrest⟩ := hw
    obtain ⟨r, hr, heval⟩ := Option.bind_eq_some_iff.mp h
    have hlen := ihBody (by simpa using hopen) hbody hr
    refine ihRest ?_ (hrest r hr) heval
    cases close with
    | reba => exact hfits
    | pull =>
      simp only [Close.apply, List.length_append]
      omega

/-- A program does to the values of its frame what it evaluates to, and leaves what is below
alone. The induction is on the program; every frame inside sees the whole stack as what is
below. -/
theorem moves_of_eval (hbp : bp.toNat + 1 = base.length)
    (hfits : base.length + f.length ≤ objectMaxCount) (hw : p.Within base.length f)
    (h : p.eval f = some f') (hreba : b = .release ∨ p.NoReba) :
    Step.Moves (exec b env) (framed base bp f) p.code (framed base bp f') := by
  induction p generalizing base bp f f' with
  | done =>
    obtain rfl := Option.some.inj h
    exact Step.Moves.nil
  | instr i rest ih =>
    obtain ⟨f₁, happly, heval⟩ := Option.bind_eq_some_iff.mp h
    obtain ⟨hlen, hrest⟩ := hw.2 f₁ happly
    exact Step.Moves.cons (exec_of_apply hw.1 hbp (by omega) happly)
      (ih hbp hlen hrest heval hreba)
  | frame body close rest ihBody ihRest =>
    obtain ⟨hopen, hbody, hrest⟩ := hw
    obtain ⟨r, hr, heval⟩ := Option.bind_eq_some_iff.mp h
    have hlength : (base ++ f.reverse).length = base.length + f.length := by simp
    have hopen' : (base ++ f.reverse).length + 1 ≤ objectMaxCount := by omega
    have hslot : (base ++ f.reverse ++ [Obj.scalar (.uint64 bp)]).length =
        base.length + f.length + 1 := by
      rw [List.length_append, hlength, List.length_singleton]
    have hbp' : (BitVec.ofNat 64 (base ++ f.reverse).length).toNat + 1 =
        (base ++ f.reverse ++ [Obj.scalar (.uint64 bp)]).length := by
      rw [toNat_ofNat_length hopen', hslot, hlength]
    -- the frame inside has all that is below it as its base, and the old base pointer on top
    have hin : Step.Moves (exec b env) (opened (base ++ f.reverse) bp []) body.code
        (opened (base ++ f.reverse) bp r) := by
      refine ihBody hbp' (by rw [hslot]; simpa using hopen) (by rw [hslot]; exact hbody) hr ?_
      exact hreba.imp id fun h => h.1
    -- the base pointer comes back either way; the values stay with PULL only
    have hclose : exec b env (opened (base ++ f.reverse) bp r) close.code =
        .ok (framed base bp (close.apply r f), []) := by
      cases close with
      | reba =>
        obtain rfl := hreba.resolve_right fun h => nomatch h.2.1
        exact exec_reba_release hopen'
      | pull =>
        rw [exec_pull hopen']
        simp [framed, Close.apply]
    have hfits' : base.length + (close.apply r f).length ≤ objectMaxCount := by
      have hlen := hbody.length_le (by simpa using hopen) hr
      cases close with
      | reba => exact hfits
      | pull =>
        simp only [Close.apply, List.length_append]
        omega
    have hout := ihRest hbp hfits' (hrest r hr) heval (hreba.imp id fun h => h.2.2)
    rw [Prog.code, List.cons_append]
    exact Step.Moves.cons (exec_esba _ bp) (hin.append (Step.Moves.cons hclose hout))

/-- With all assertions compiled in, anything else ends in a fault. -/
theorem run_debug_error (hbp : bp.toNat + 1 = base.length)
    (hfits : base.length + f.length ≤ objectMaxCount) (hw : p.Within base.length f)
    (h : p.eval f = none ∨ ¬p.NoReba) :
    ∃ e, Step.run (exec .debug env) (framed base bp f) p.code = .error e := by
  induction p generalizing base bp f with
  | done => exact absurd h (by simp [Prog.eval, Prog.NoReba])
  | instr i rest ih =>
    cases happly : i.apply f with
    | none =>
      obtain ⟨e, he⟩ := exec_debug_of_apply_none env hw.1 hbp happly
      exact ⟨e, Step.run_cons_of_error he⟩
    | some f₁ =>
      obtain ⟨hlen, hrest⟩ := hw.2 f₁ happly
      have heval : Prog.eval (.instr i rest) f = rest.eval f₁ := by
        rw [Prog.eval, happly]
        rfl
      obtain ⟨e, he⟩ := ih hbp hlen hrest (heval ▸ h)
      refine ⟨e, ?_⟩
      rw [Prog.code, Step.run_cons_silent (exec_of_apply hw.1 hbp (by omega) happly), he]
  | frame body close rest ihBody ihRest =>
    obtain ⟨hopen, hbody, hrest⟩ := hw
    have hlength : (base ++ f.reverse).length = base.length + f.length := by simp
    have hopen' : (base ++ f.reverse).length + 1 ≤ objectMaxCount := by omega
    have hslot : (base ++ f.reverse ++ [Obj.scalar (.uint64 bp)]).length =
        base.length + f.length + 1 := by
      rw [List.length_append, hlength, List.length_singleton]
    have hbp' : (BitVec.ofNat 64 (base ++ f.reverse).length).toNat + 1 =
        (base ++ f.reverse ++ [Obj.scalar (.uint64 bp)]).length := by
      rw [toNat_ofNat_length hopen', hslot, hlength]
    have hesba : exec .debug env (framed base bp f) (.op Op.esba) =
        .ok (opened (base ++ f.reverse) bp [], []) := exec_esba _ bp
    have hstart := opened_framed base bp f []
    rw [Prog.code, List.cons_append, Step.run_cons_silent hesba]
    have hcapacity : (base ++ f.reverse ++ [Obj.scalar (.uint64 bp)]).length +
        ([] : List Obj).length ≤ objectMaxCount := by
      rw [hslot]
      simpa using hopen
    by_cases hgood : (∃ r, body.eval [] = some r) ∧ body.NoReba
    · obtain ⟨⟨r, hr⟩, hnoReba⟩ := hgood
      have hin : Step.Moves (exec .debug env) (opened (base ++ f.reverse) bp []) body.code
          (opened (base ++ f.reverse) bp r) :=
        moves_of_eval hbp' hcapacity (by rw [hslot]; exact hbody) hr (Or.inr hnoReba)
      rw [hin.run_append]
      cases close with
      | reba =>
        -- the frame inside has a smaller base pointer saved
        obtain ⟨e, he⟩ := (exec_reba_debug_iff env bp r hopen').2 (by omega)
        exact ⟨e, Step.run_cons_of_error he⟩
      | pull =>
        have hpull : exec .debug env (opened (base ++ f.reverse) bp r) Close.pull.code =
            .ok (framed base bp (r ++ f), []) := by
          rw [exec_pull hopen']
          simp [framed]
        have heval : Prog.eval (.frame body .pull rest) f = rest.eval (r ++ f) := by
          rw [Prog.eval, hr]
          rfl
        have hbad : rest.eval (r ++ f) = none ∨ ¬rest.NoReba := by
          rw [heval] at h
          exact h.imp id fun hnot hrestNo => hnot ⟨hnoReba, rfl, hrestNo⟩
        have hfits' : base.length + (r ++ f).length ≤ objectMaxCount := by
          have hlen := hbody.length_le (by simpa using hopen) hr
          rw [List.length_append]
          omega
        obtain ⟨e, he⟩ := ihRest hbp hfits' (hrest r hr) hbad
        exact ⟨e, by rw [Step.run_cons_silent hpull, he]⟩
    · have hbad : body.eval [] = none ∨ ¬body.NoReba := by
        by_contra hneither
        obtain ⟨hsome, hnoReba⟩ := not_or.mp hneither
        exact hgood ⟨Option.ne_none_iff_exists'.mp hsome, not_not.mp hnoReba⟩
      obtain ⟨e, he⟩ := ihBody hbp' hcapacity (by rw [hslot]; exact hbody) hbad
      exact ⟨e, Step.run_append_of_error he⟩

end Programs

/-! ### Transparent frames -/

section Transparency

variable {b : Build} {env : VmEnv} {p : Prog} {close : Close} {s : Stack} {r : List Obj}

/-- What is left of a stack, when a frame with the given values is closed. -/
def Close.result (close : Close) (s : Stack) (r : List Obj) : Stack :=
  match close with
  | reba => s
  | pull => ⟨s.items ++ r, s.bp⟩

/-- No assertion fails while a program runs in a frame of its own, and the stack below is as
before when the frame is closed. -/
def Transparent (b : Build) (env : VmEnv) (p : Prog) (close : Close) (s : Stack) : Prop :=
  ∃ r, Step.Moves (exec b env) s (.op Op.esba :: p.code)
      ⟨s.items ++ .scalar (.uint64 s.bp) :: r, s.size⟩ ∧
    Step.Moves (exec b env) s (.op Op.esba :: p.code ++ [close.code]) (close.result s r)

theorem opened_eq (s : Stack) (r : List Obj) :
    opened s.items s.bp r = ⟨s.items ++ .scalar (.uint64 s.bp) :: r.reverse, s.size⟩ := by
  simp [opened, framed, Stack.size]

/-- A program that is run in a frame of its own. -/
theorem moves_opened (env : VmEnv) (hfits : s.items.length + 1 ≤ objectMaxCount)
    (hw : p.Within (s.items.length + 1) []) (h : p.eval [] = some r)
    (hreba : b = .release ∨ p.NoReba) :
    Step.Moves (exec b env) s (.op Op.esba :: p.code) (opened s.items s.bp r) := by
  have hlength : (s.items ++ [Obj.scalar (.uint64 s.bp)]).length = s.items.length + 1 := by simp
  have hbody : Step.Moves (exec b env) (opened s.items s.bp []) p.code
      (opened s.items s.bp r) := by
    refine moves_of_eval ?_ ?_ ?_ h hreba
    · rw [toNat_ofNat_length hfits, hlength]
    · rw [hlength]
      exact hfits
    · rw [hlength]
      exact hw
  exact Step.Moves.cons (exec_esba s.items s.bp) hbody

theorem run_opened_debug_error (env : VmEnv)
    (hfits : s.items.length + 1 ≤ objectMaxCount)
    (hw : p.Within (s.items.length + 1) []) (h : p.eval [] = none ∨ ¬p.NoReba) :
    ∃ e, Step.run (exec .debug env) s (.op Op.esba :: p.code) = .error e := by
  have hlength : (s.items ++ [Obj.scalar (.uint64 s.bp)]).length = s.items.length + 1 := by simp
  have hbody : ∃ e, Step.run (exec .debug env) (opened s.items s.bp []) p.code = .error e := by
    refine run_debug_error ?_ ?_ ?_ h
    · rw [toNat_ofNat_length hfits, hlength]
    · rw [hlength]
      exact hfits
    · rw [hlength]
      exact hw
  obtain ⟨e, he⟩ := hbody
  exact ⟨e, by rw [Step.run_cons_silent (exec_esba s.items s.bp), he]⟩

/-- Without assertions every frame is transparent whose instructions have the operands they
need. -/
theorem transparent_release (hfits : s.items.length + 1 ≤ objectMaxCount)
    (hw : p.Within (s.items.length + 1) []) (h : p.eval [] = some r) :
    Transparent .release env p close s := by
  have hbody := moves_opened env hfits hw h (Or.inl rfl)
  refine ⟨r.reverse, opened_eq s r ▸ hbody, hbody.append (Step.Moves.single ?_)⟩
  cases close with
  | reba => exact exec_reba_release hfits
  | pull => exact exec_pull hfits

/-- With assertions a frame is transparent exactly when all instructions in it have the operands
they need, no frame inside is closed by `REBA`, and the one around is closed by `PULL`, unless
the base pointer was already above it. -/
theorem transparent_debug_iff (hfits : s.items.length + 1 ≤ objectMaxCount)
    (hw : p.Within (s.items.length + 1) []) :
    Transparent .debug env p close s ↔
      ∃ r, p.eval [] = some r ∧ p.NoReba ∧
        (close = .reba → s.items.length < s.bp.toNat ∧
          s.bp.toNat < s.items.length + 1 + r.length) := by
  constructor
  · rintro ⟨xs, hrun, hclosed⟩
    by_cases hgood : (∃ r, p.eval [] = some r) ∧ p.NoReba
    · obtain ⟨⟨r, hr⟩, hnoReba⟩ := hgood
      refine ⟨r, hr, hnoReba, ?_⟩
      rintro rfl
      have hbody : Step.Moves (exec .debug env) s _ _ :=
        moves_opened env hfits hw hr (Or.inr hnoReba)
      have hreba : exec .debug env (opened s.items s.bp r) Close.reba.code = .ok (s, []) := by
        have hlast := hbody.run_append.symm.trans hclosed
        rwa [Step.run_singleton_eq] at hlast
      exact (exec_reba_debug_iff env s.bp r hfits).1.mp hreba
    · have hbad : p.eval [] = none ∨ ¬p.NoReba := by
        by_contra hneither
        obtain ⟨hsome, hnoReba⟩ := not_or.mp hneither
        exact hgood ⟨Option.ne_none_iff_exists'.mp hsome, not_not.mp hnoReba⟩
      -- an assertion fails inside, so the frame does not come to its end
      obtain ⟨e, he⟩ := run_opened_debug_error env hfits hw hbad
      exact nomatch he.symm.trans hrun
  · rintro ⟨r, hr, hnoReba, hreba⟩
    have hbody : Step.Moves (exec .debug env) s _ _ := moves_opened env hfits hw hr (Or.inr hnoReba)
    refine ⟨r.reverse, opened_eq s r ▸ hbody, hbody.append (Step.Moves.single ?_)⟩
    cases close with
    | reba => exact (exec_reba_debug_iff env s.bp r hfits).1.mpr (hreba rfl)
    | pull => exact exec_pull hfits

/-- A tuple that is built from what a frame inside has left. -/
def demoProg : Prog :=
  .frame (.instr (.push (.scalar (.bool true)) nofun)
    (.instr (.push (.size 7) nofun) .done)) .pull
    (.instr .frm (.instr (.makeSeq .tuple) .done))

theorem within_demoProg : demoProg.Within 3 [] := by
  refine ⟨by decide, ⟨by decide, ?_⟩, ?_⟩
  · rintro _ ⟨⟩
    refine ⟨by decide, by decide, ?_⟩
    rintro _ ⟨⟩
    exact ⟨by decide, trivial⟩
  · rintro _ ⟨⟩
    refine ⟨by decide, ?_⟩
    rintro _ ⟨⟩
    refine ⟨by decide, by decide, ?_⟩
    rintro _ ⟨⟩
    exact ⟨by decide, trivial⟩

theorem transparent_debug_demo :
    Transparent .debug bare demoProg .pull ⟨[.size 1, .size 2], 0⟩ :=
  (transparent_debug_iff (by decide) within_demoProg).mpr
    ⟨_, rfl, ⟨⟨trivial, rfl, trivial⟩, nofun⟩⟩

/-- The empty frame at the bottom of the stack cannot be closed by `REBA`. -/
theorem not_transparent_debug_done :
    Prog.done.Within 1 [] ∧ ¬Transparent .debug bare .done .reba ⟨[], 0⟩ := by
  refine ⟨trivial, ?_⟩
  rintro ⟨r, -, hclosed⟩
  cases hclosed

end Transparency

end Vm

end Cyng
