import Cyng.Theory.ByteOrder

/-!
# Faults and builds

The library guards its steps with `BOOST_ASSERT`, lets exceptions of the standard
library pass, and in places reads past the end of a container. A call of the model
therefore ends with a value or with one of these three faults. Which assertions are
compiled in is a parameter: a debug build keeps all of them, a release build none.
-/

namespace Cyng

/-- A string of bytes: `std::string`, `buffer_t` and what a stream carries. -/
abbrev Bytes := List UInt8

/-- How a call can fail. -/
inductive Fault
  /-- a `BOOST_ASSERT` that is compiled in does not hold -/
  | assertion (text : String)
  /-- an exception leaves the call -/
  | exception (what : String)
  /-- the language gives the call no meaning -/
  | undefined (what : String)
deriving DecidableEq, Repr

/-- Which assertions are compiled in, by their message or condition text. -/
structure Build where
  enabled : String → Bool

namespace Build

/-- Every assertion is compiled in. -/
def debug : Build := ⟨fun _ => true⟩

/-- Every assertion is compiled out. -/
def release : Build := ⟨fun _ => false⟩

/-- `BOOST_ASSERT_MSG(cond, text)`. -/
def check (b : Build) (text : String) (cond : Prop) [Decidable cond] : Except Fault Unit :=
  if b.enabled text = true ∧ ¬cond then .error (.assertion text) else .ok ()

variable {b : Build} {text : String} {cond : Prop} [Decidable cond]

theorem check_of (h : cond) : b.check text cond = .ok () := by
  simp [check, h]

theorem check_eq_ok_iff : b.check text cond = .ok () ↔ (b.enabled text = true → cond) := by
  unfold check
  split <;> simp_all

@[simp] theorem check_release : release.check text cond = .ok () := rfl

theorem check_debug_eq_ok_iff : debug.check text cond = .ok () ↔ cond := by
  simp [check_eq_ok_iff, debug]

end Build

/-- `std::vector<char>::max_size()`: what `reserve` grants at most. -/
def maxSize : ℕ := 2 ^ 63 - 1

section Results

variable {α β ε : Type}

theorem bind_eq_ok_iff {x : Except ε α} {f : α → Except ε β} {r : β} :
    (x >>= f) = .ok r ↔ ∃ a, x = .ok a ∧ f a = .ok r := by
  cases x with
  | error e => simp [bind, Except.bind]
  | ok a => simp [bind, Except.bind]

@[simp] theorem ok_bind (a : α) (f : α → Except ε β) : (Except.ok a >>= f) = f a := rfl

@[simp] theorem error_bind (e : ε) (f : α → Except ε β) :
    ((Except.error e : Except ε α) >>= f) = .error e := rfl

/-- A call that only wraps the value of another one fails as that one does. -/
theorem eq_error_of_bind_ok {x : Except ε α} {f : α → β} {e : ε}
    (h : (x >>= fun a => .ok (f a)) = .error e) : x = .error e := by
  cases x with
  | error e' => exact congrArg Except.error (Except.error.inj h)
  | ok a => cases h

@[simp] theorem pure_eq_ok (a : α) : (pure a : Except ε α) = .ok a := rfl

end Results

end Cyng
