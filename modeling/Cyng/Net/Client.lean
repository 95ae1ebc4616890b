import Cyng.Obj.Intrinsics
import Cyng.Theory.Machine

/-!
# The TCP client

A buffer that is sent goes into a queue, and the write of the front of the queue is started when
no other one is running, which is to say when the queue was empty. The front stays in the queue
until its write has completed, since the operation does not own the bytes.

A reset closes the socket and clears the queue. An operation that was started before completes
nevertheless, with or without an error, and its handler meets the queue of later times. So a reset
is harmless as long as no write is outstanding.

The calls and handlers run on the strand of the channel, each one is a step, and the completion
handlers run in any order. The client outlives them.
-/

namespace Cyng

open Theory

namespace Net

/-! ### The client -/

/-- `client` -/
structure Client where
  /-- `channel_` exists and is open -/
  isOpen : Bool
  /-- `socket_` is open -/
  socket : Bool
  snd : List Bytes
  /-- the buffers of writes that were started and have not completed -/
  writing : List Bytes
  /-- the number of reads that were started and have not completed -/
  reading : ℕ

/-- What the client asks of its surroundings. -/
inductive ClientEffect
  | asyncWrite (buffer : Bytes)
  | asyncRead
  /-- `cb_connect_` -/
  | onConnect
  /-- dispatch to `on_receive` -/
  | onReceive (data : Bytes)
  /-- dispatch to `on_disconnect` -/
  | onDisconnect (ec : ErrorCode)

/-- What happens on the strand of the channel. -/
inductive ClientEvent
  /-- the resolver hands over a connected socket -/
  | connected
  | send (msg : Bytes)
  /-- one of the outstanding writes completes -/
  | handleWrite (i : ℕ) (ec : Option ErrorCode)
  /-- an outstanding read completes -/
  | handleRead (result : Except ErrorCode Bytes)
  /-- somebody stops the channel -/
  | close
  /-- `client::stop` -/
  | stop

namespace Client

/-- A client that was never connected. -/
def initial : Client where
  isOpen := true
  socket := false
  snd := []
  writing := []
  reading := 0

variable (b : Build) (c : Client)

/-- `client::do_write` -/
def doWrite : Except Fault (Client × List ClientEffect) :=
  if c.isOpen then
    match c.snd with
    | [] => .error (.undefined "front of an empty deque")
    | msg :: _ => .ok ({ c with writing := c.writing ++ [msg] }, [.asyncWrite msg])
  else .ok (c, [])

/-- `client::send`; a closed channel drops the message before. -/
def send (msg : Bytes) : Except Fault (Client × List ClientEffect) :=
  if c.isOpen then
    if c.snd = [] then doWrite { c with snd := [msg] }
    else .ok ({ c with snd := c.snd ++ [msg] }, [])
  else .ok (c, [])

/-- `client::reset` -/
def reset : Client := { c with socket := false, snd := [] }

/-- `client::handle_write` -/
def handleWrite : Option ErrorCode → Except Fault (Client × List ClientEffect)
  | none => do
    b.check "!snd_.empty()" (c.snd ≠ [])
    match c.snd with
    | [] => .error (.undefined "pop_front of an empty deque")
    | _ :: snd => if snd = [] then .ok ({ c with snd }, []) else doWrite { c with snd }
  | some ec => .ok (c.reset, [.onDisconnect ec])

/-- `client::handle_read` -/
def handleRead : Except ErrorCode Bytes → Client × List ClientEffect
  | .ok data => ({ c with reading := c.reading + 1 }, [.onReceive data, .asyncRead])
  | .error ec => (c.reset, [.onDisconnect ec])

/-- The client as a machine. -/
def step : Step Client ClientEvent ClientEffect Fault := fun c event =>
  match event with
  | .connected =>
    .ok ({ c with socket := true, reading := c.reading + 1 }, [.onConnect, .asyncRead])
  | .send msg => c.send msg
  | .handleWrite i ec =>
    if i < c.writing.length then handleWrite b { c with writing := c.writing.eraseIdx i } ec
    else .ok (c, [])
  | .handleRead result =>
    if 0 < c.reading then .ok (handleRead { c with reading := c.reading - 1 } result)
    else .ok (c, [])
  | .close => .ok ({ c with isOpen := false }, [])
  | .stop => .ok (c.reset, [])

/-! ### The queue -/

/-- No write is outstanding, or the one of the front of the queue. -/
def Sound : Prop := c.writing = [] ∨ ∃ msg rest, c.writing = [msg] ∧ c.snd = msg :: rest

/-- A read error or a stop comes while no write is outstanding. -/
def Calm (c : Client) : ClientEvent → Prop
  | .handleRead (.error _) | .stop => c.writing = []
  | _ => True

instance instDecidableCalm (c : Client) : (event : ClientEvent) → Decidable (Calm c event)
  | .handleRead (.error _) => inferInstanceAs (Decidable (c.writing = []))
  | .stop => inferInstanceAs (Decidable (c.writing = []))
  | .handleRead (.ok _) | .connected | .send _ | .handleWrite _ _ | .close => isTrue trivial

/-- The buffers that were handed over for writing. -/
def handed (effects : List ClientEffect) : List Bytes :=
  effects.filterMap fun
    | .asyncWrite buffer => some buffer
    | _ => none

@[simp] theorem handed_append (xs ys : List ClientEffect) :
    handed (xs ++ ys) = handed xs ++ handed ys :=
  List.filterMap_append

/-- The buffers that were given to `send`. -/
def sent : List ClientEvent → List Bytes
  | [] => []
  | .send msg :: events => msg :: sent events
  | _ :: events => sent events

variable {b c}

theorem doWrite_cons {msg : Bytes} {rest : List Bytes} (h : c.snd = msg :: rest) :
    c.doWrite = .ok (if c.isOpen then
      ({ c with writing := c.writing ++ [msg] }, [.asyncWrite msg]) else (c, [])) := by
  simp only [doWrite, h]
  split_ifs <;> rfl

/-- The write of the front is started when no other one is outstanding. -/
theorem doWrite_sound {msg : Bytes} {rest : List Bytes} (hsnd : c.snd = msg :: rest)
    (hwriting : c.writing = []) :
    ∃ c' effects, c.doWrite = .ok (c', effects) ∧ c'.Sound ∧ ∀ effect ∈ effects, True := by
  cases hopen : c.isOpen with
  | true =>
    have hwrite : c.doWrite =
        .ok ({ c with writing := c.writing ++ [msg] }, [.asyncWrite msg]) := by
      rw [doWrite_cons hsnd, if_pos hopen]
    exact ⟨_, _, hwrite, Or.inr ⟨msg, rest, by simp [hwriting], hsnd⟩, by simp⟩
  | false =>
    have hwrite : c.doWrite = .ok (c, []) := by
      rw [doWrite_cons hsnd, hopen]
      rfl
    exact ⟨_, _, hwrite, Or.inl hwriting, by simp⟩

/-- From a sound state, every calm step succeeds and leads to a sound state. -/
theorem safe : Step.Safe (step b) Sound Calm fun _ => True := by
  intro c event hsound hcalm
  cases event with
  | connected => exact ⟨_, _, rfl, hsound, by simp⟩
  | send msg =>
    simp only [step, send]
    split_ifs with hopen hempty
    · -- the queue was empty, so no write is under way
      have hwriting : c.writing = [] := by
        rcases hsound with hnone | ⟨front, rest, -, hsnd⟩
        · exact hnone
        · rw [hempty] at hsnd
          cases hsnd
      exact doWrite_sound (c := { c with snd := [msg] }) rfl hwriting
    · refine ⟨_, _, rfl, hsound.imp_right ?_, by simp⟩
      rintro ⟨front, rest, hwriting, hsnd⟩
      exact ⟨front, rest ++ [msg], hwriting, by simp [hsnd]⟩
    · exact ⟨_, _, rfl, hsound, by simp⟩
  | handleWrite i ec =>
    simp only [step]
    split_ifs with hi
    · rcases hsound with hnone | ⟨front, rest, hwriting, hsnd⟩
      · rw [hnone] at hi
        cases hi
      -- there was one write under way, and it is done
      have hdone : c.writing.eraseIdx i = [] := by
        rw [hwriting] at hi ⊢
        obtain rfl : i = 0 := Nat.lt_one_iff.mp hi
        rfl
      cases ec with
      | some ec => exact ⟨_, _, rfl, Or.inl hdone, by simp⟩
      | none =>
        have hne : c.snd ≠ [] := by simp [hsnd]
        simp only [handleWrite]
        rw [Build.check_of hne, ok_bind, hsnd]
        simp only
        split_ifs with hrest
        · exact ⟨_, _, rfl, Or.inl hdone, by simp⟩
        · obtain ⟨next, rest', rfl⟩ := List.exists_cons_of_ne_nil hrest
          exact doWrite_sound
            (c := { c with snd := next :: rest', writing := c.writing.eraseIdx i }) rfl hdone
    · exact ⟨_, _, rfl, hsound, by simp⟩
  | handleRead result =>
    simp only [step]
    split_ifs
    · cases result with
      | ok data => exact ⟨_, _, rfl, hsound, by simp⟩
      | error ec => exact ⟨_, _, rfl, Or.inl hcalm, by simp⟩
    · exact ⟨_, _, rfl, hsound, by simp⟩
  | close => exact ⟨_, _, rfl, hsound, by simp⟩
  | stop => exact ⟨_, _, rfl, Or.inl hcalm, by simp⟩

end Client

end Net

end Cyng
