import Cyng.Obj.Intrinsics
import Cyng.Theory.Machine
import Mathlib.Algebra.Ring.Parity
import Mathlib.Data.List.Perm.Basic

/-!
# The TCP server

A start opens the acceptor, binds it, listens and starts an accept. The handler of an accept
hands the socket to the callback and starts the next accept, so one start gives one loop. The
loop ends with the first error, whatever the error is.

The slots of the server run on the strand of its channel, the handlers of the accepts do not.
Each of them is a step here. The stop slot closes the acceptor and the task is deleted after
it; an accept that is outstanding completes with an error then, but one that has completed with a
socket before still has its handler to come, and this handler works on the server.
-/

namespace Cyng

open Theory

namespace Net

/-- `boost::asio::error::already_open` -/
def alreadyOpen : ErrorCode := ⟨1, [0x61, 0x73, 0x69, 0x6f, 0x2e, 0x6d, 0x69, 0x73, 0x63]⟩

/-- `boost::asio::error::operation_aborted` -/
def operationAborted : ErrorCode := ⟨125, ErrorCode.system⟩

/-- `boost::asio::error::bad_descriptor` -/
def badDescriptor : ErrorCode := ⟨9, ErrorCode.system⟩

/-- A handler on the strand of the channel. -/
inductive ServerHandler
  | start
  /-- dispatch to `cb_listen` -/
  | listen (ec : Option ErrorCode)
  /-- `task::stop`: the stop slot, and the end of the task -/
  | stop
deriving DecidableEq

/-- `server` and its channel; `S` is the type of the sockets. -/
structure Server (S : Type) where
  /-- `channel_` is open -/
  isOpen : Bool
  /-- the server was not deleted -/
  alive : Bool
  strand : List ServerHandler
  /-- `acceptor_` is open -/
  acceptor : Bool
  /-- the number of accepts that were started and have not completed -/
  accepting : ℕ
  /-- the accepts that have completed and whose handler did not run -/
  completed : List (Except ErrorCode S)
  /-- `session_counter_` -/
  sessionCounter : BitVec 64

/-- Calls of the proxy, and what happens on the strand and in the operating system. -/
inductive ServerEvent (S : Type)
  /-- `server_proxy::start` -/
  | start
  /-- `server_proxy::stop`, or somebody else stops the channel -/
  | stop
  /-- the next handler of the strand runs, with the results of `open`, `bind` and `listen` -/
  | run (opening bind listen : Option ErrorCode)
  /-- an outstanding accept completes -/
  | complete (result : Except ErrorCode S)
  /-- the handler of an accept runs -/
  | handle (i : ℕ)

/-- The callbacks of the server. -/
inductive ServerEffect (S : Type)
  /-- `cb_listen` -/
  | onListen (ec : Option ErrorCode)
  /-- `cb_accept_` -/
  | onAccept (socket : S)

namespace Server

variable {S : Type}

/-- A server that was never started. -/
def initial : Server S where
  isOpen := true
  alive := true
  strand := []
  acceptor := false
  accepting := 0
  completed := []
  sessionCounter := 0

section Operations

variable (s : Server S)

/-- `channel::dispatch` -/
def post (handler : ServerHandler) : Server S :=
  { s with strand := if s.isOpen then s.strand ++ [handler] else s.strand }

/-- `acceptor_.cancel` and `acceptor_.close` -/
def close : Server S :=
  { s with
    acceptor := false
    accepting := 0
    completed := s.completed ++ List.replicate s.accepting (.error operationAborted) }

/-- `server::do_accept` -/
def doAccept : Server S :=
  if s.acceptor then { s with accepting := s.accepting + 1 }
  else { s with completed := s.completed ++ [.error badDescriptor] }

/-- `server::start`; an acceptor that is open cannot be opened. -/
def start (opening bind listen : Option ErrorCode) : Server S :=
  -- the error code of the first call that fails
  match (if s.acceptor then some alreadyOpen else opening) <|> bind <|> listen with
  | none => ({ s with acceptor := true }.post (.listen none)).doAccept
  -- an acceptor that was open before is closed as well
  | some ec => (s.post (.listen (some ec))).close

/-- `server::stop`, and the server is deleted. -/
def stop : Server S := { s.close with alive := false }

/-- The next handler of the strand -/
def run (opening bind listen : Option ErrorCode) : Server S × List (ServerEffect S) :=
  match s.strand with
  | [] => (s, [])
  | .start :: strand =>
    (if s.isOpen then { s with strand }.start opening bind listen else { s with strand }, [])
  | .listen ec :: strand => ({ s with strand }, if s.isOpen then [.onListen ec] else [])
  | .stop :: strand => ({ s with strand }.stop, [])

/-- The handler of an accept. -/
def handle (i : ℕ) : Except Fault (Server S × List (ServerEffect S)) :=
  match s.completed[i]? with
  | none => .ok (s, [])
  -- after an error no other accept is started, and the server is not looked at
  | some (.error _) => .ok ({ s with completed := s.completed.eraseIdx i }, [])
  | some (.ok socket) =>
    if s.alive then
      .ok ({ s with
        completed := s.completed.eraseIdx i
        sessionCounter := s.sessionCounter + 1 }.doAccept, [.onAccept socket])
    else .error (.undefined "member of a deleted server")

end Operations

/-- The server as a machine. -/
def step : Step (Server S) (ServerEvent S) (ServerEffect S) Fault := fun s event =>
  match event with
  | .start => .ok (s.post .start, [])
  | .stop =>
    .ok (if s.isOpen then { s with isOpen := false, strand := s.strand ++ [.stop] } else s, [])
  | .run opening bind listen => .ok (s.run opening bind listen)
  | .complete result =>
    if 0 < s.accepting then
      .ok ({ s with accepting := s.accepting - 1, completed := s.completed ++ [result] }, [])
    else .ok (s, [])
  | .handle i => s.handle i

/-- The connections that were accepted and not yet handed over. -/
def sockets (s : Server S) : List S := s.completed.filterMap Except.toOption

/-- The server is stopped while no connection waits for its handler. -/
def Calm (s : Server S) : ServerEvent S → Prop
  | .run .. => s.strand.head? = some .stop → s.sockets = []
  | _ => True

/-- An accept completes when one is outstanding. -/
def Possible (s : Server S) : ServerEvent S → Prop
  | .complete _ => 0 < s.accepting
  | _ => True

/-- Neither a start nor a stop runs. -/
def Steady (s : Server S) : ServerEvent S → Prop
  | .run .. => s.strand.head? ≠ some .start ∧ s.strand.head? ≠ some .stop
  | _ => True

/-- The acceptor is open and nothing will ever be accepted. -/
def Deaf (s : Server S) : Prop := s.acceptor = true ∧ s.accepting = 0 ∧ s.sockets = []

instance instDecidableCalm (s : Server S) : (event : ServerEvent S) → Decidable (Calm s event)
  | .run .. => inferInstanceAs (Decidable (s.strand.head? = some .stop → s.sockets = []))
  | .start | .stop | .complete _ | .handle _ => isTrue trivial

instance instDecidablePossible (s : Server S) :
    (event : ServerEvent S) → Decidable (Possible s event)
  | .complete _ => inferInstanceAs (Decidable (0 < s.accepting))
  | .start | .stop | .run .. | .handle _ => isTrue trivial

instance instDecidableSteady (s : Server S) : (event : ServerEvent S) → Decidable (Steady s event)
  | .run .. => inferInstanceAs
      (Decidable (s.strand.head? ≠ some .start ∧ s.strand.head? ≠ some .stop))
  | .start | .stop | .complete _ | .handle _ => isTrue trivial

/-! ### Operations -/

section Operations

variable {s s' : Server S} {event : ServerEvent S} {effects : List (ServerEffect S)}

@[simp] theorem sockets_close : s.close.sockets = s.sockets := by
  have hnone : (List.replicate s.accepting (Except.error operationAborted)).filterMap
      (Except.toOption (α := S)) = [] := by
    rw [List.filterMap_eq_nil_iff]
    intro result hmem
    rw [List.eq_of_mem_replicate hmem]
    rfl
  simp [sockets, close, hnone]

@[simp] theorem sockets_doAccept : s.doAccept.sockets = s.sockets := by
  rw [doAccept]
  split
  · rfl
  · simp [sockets, Except.toOption]

@[simp] theorem sessionCounter_doAccept : s.doAccept.sessionCounter = s.sessionCounter := by
  rw [doAccept]
  split
  · rfl
  · rfl

@[simp] theorem alive_doAccept : s.doAccept.alive = s.alive := by
  rw [doAccept]
  split
  · rfl
  · rfl

/-- A start opens a closed acceptor, or leaves it closed. -/
theorem start_cases (s : Server S) (opening bind listen : Option ErrorCode) :
    (s.acceptor = false ∧ s.start opening bind listen =
      { s.post (.listen none) with acceptor := true, accepting := s.accepting + 1 }) ∨
    ∃ ec, s.start opening bind listen = (s.post (.listen (some ec))).close := by
  rw [start]
  split
  · next hnone =>
    left
    cases hopen : s.acceptor with
    | true => simp [hopen] at hnone
    | false => exact ⟨rfl, rfl⟩
  · next ec _ => exact Or.inr ⟨ec, rfl⟩

theorem alive_start (opening bind listen : Option ErrorCode) :
    (s.start opening bind listen).alive = s.alive := by
  rcases start_cases s opening bind listen with ⟨-, hstart⟩ | ⟨ec, hstart⟩
  · rw [hstart]
    rfl
  · rw [hstart]
    rfl

theorem mem_post {handler handler' : ServerHandler} (h : handler' ∈ (s.post handler).strand) :
    handler' ∈ s.strand ∨ handler' = handler := by
  rw [post] at h
  split_ifs at h with hopen
  · simpa using h
  · exact Or.inl h

/-- What a step does. -/
inductive Stepped (s : Server S) : ServerEvent S → Server S → List (ServerEffect S) → Prop
  | start : Stepped s .start (s.post .start) []
  | stop : Stepped s .stop { s with isOpen := false, strand := s.strand ++ [.stop] } []
  | stopped : Stepped s .stop s []
  | starts {opening bind listen : Option ErrorCode} {strand : List ServerHandler}
    (hstrand : s.strand = .start :: strand) (hopen : s.isOpen = true) :
    Stepped s (.run opening bind listen) ({ s with strand }.start opening bind listen) []
  | stops {opening bind listen : Option ErrorCode} {strand : List ServerHandler}
    (hstrand : s.strand = .stop :: strand) :
    Stepped s (.run opening bind listen) { s with strand }.stop []
  | passes {opening bind listen : Option ErrorCode} {effects : List (ServerEffect S)}
    (heffects : ∀ effect ∈ effects, ∃ ec, effect = .onListen ec) :
    Stepped s (.run opening bind listen) { s with strand := s.strand.tail } effects
  | completes {result : Except ErrorCode S} (hone : 0 < s.accepting) :
    Stepped s (.complete result)
      { s with accepting := s.accepting - 1, completed := s.completed ++ [result] } []
  | ignored {result : Except ErrorCode S} (hnone : s.accepting = 0) :
    Stepped s (.complete result) s []
  | missing {i : ℕ} : Stepped s (.handle i) s []
  | failed {i : ℕ} {ec : ErrorCode} (hget : s.completed[i]? = some (.error ec)) :
    Stepped s (.handle i) { s with completed := s.completed.eraseIdx i } []
  | accepted {i : ℕ} {socket : S} (hget : s.completed[i]? = some (.ok socket))
    (halive : s.alive = true) :
    Stepped s (.handle i) { s with
      completed := s.completed.eraseIdx i
      sessionCounter := s.sessionCounter + 1 }.doAccept [.onAccept socket]

theorem stepped_run (s : Server S) (opening bind listen : Option ErrorCode) :
    Stepped s (.run opening bind listen) (s.run opening bind listen).1
      (s.run opening bind listen).2 := by
  rw [run]
  split
  · next hnil =>
    have htail : { s with strand := s.strand.tail } = s := by
      rw [hnil, List.tail_nil, ← hnil]
    have hpasses : Stepped s (.run opening bind listen) { s with strand := s.strand.tail } [] :=
      .passes (by simp)
    rwa [htail] at hpasses
  · next strand hstrand =>
    by_cases hopen : s.isOpen
    · rw [if_pos hopen]
      exact .starts hstrand hopen
    · have htail : s.strand.tail = strand := by rw [hstrand]; rfl
      rw [if_neg hopen, ← htail]
      exact .passes (by simp)
  · next ec strand hstrand =>
    have htail : s.strand.tail = strand := by rw [hstrand]; rfl
    rw [← htail]
    apply Stepped.passes
    split
    · simp
    · simp
  · next strand hstrand => exact .stops hstrand

theorem stepped_of_step (h : step s event = .ok (s', effects)) : Stepped s event s' effects := by
  cases event with
  | start =>
    obtain ⟨rfl, rfl⟩ := Prod.mk.inj (Except.ok.inj h)
    exact .start
  | stop =>
    obtain ⟨rfl, rfl⟩ := Prod.mk.inj (Except.ok.inj h)
    split
    · exact .stop
    · exact .stopped
  | run opening bind listen =>
    obtain rfl : (s.run opening bind listen).1 = s' := congrArg Prod.fst (Except.ok.inj h)
    obtain rfl : (s.run opening bind listen).2 = effects := congrArg Prod.snd (Except.ok.inj h)
    exact stepped_run s opening bind listen
  | complete result =>
    rw [step] at h
    split_ifs at h with hone
    · obtain ⟨rfl, rfl⟩ := Prod.mk.inj (Except.ok.inj h)
      exact .completes hone
    · obtain ⟨rfl, rfl⟩ := Prod.mk.inj (Except.ok.inj h)
      exact .ignored (Nat.eq_zero_of_not_pos hone)
  | handle i =>
    rw [step, handle] at h
    split at h
    · obtain ⟨rfl, rfl⟩ := Prod.mk.inj (Except.ok.inj h)
      exact .missing
    · next ec hget =>
      obtain ⟨rfl, rfl⟩ := Prod.mk.inj (Except.ok.inj h)
      exact .failed hget
    · next socket hget =>
      split_ifs at h with halive
      obtain ⟨rfl, rfl⟩ := Prod.mk.inj (Except.ok.inj h)
      exact .accepted hget halive

/-- The socket of a handler that runs is taken out. -/
theorem sockets_perm {i : ℕ} {result : Except ErrorCode S} (h : s.completed[i]? = some result) :
    s.sockets.Perm (result.toOption.toList ++
      { s with completed := s.completed.eraseIdx i }.sockets) := by
  obtain ⟨hi, hget⟩ := List.getElem?_eq_some_iff.mp h
  have hperm := (List.getElem_cons_eraseIdx_perm hi).symm.filterMap
    (Except.toOption (ε := ErrorCode))
  rw [hget, List.filterMap_cons] at hperm
  cases result with
  | error ec => exact hperm
  | ok socket => exact hperm

end Operations

/-! ### A server that is deleted -/

/-- A deleted server is closed for good. -/
structure Sound (s : Server S) : Prop where
  accepting : s.acceptor = false → s.accepting = 0
  stop : .stop ∈ s.strand → s.isOpen = false
  isOpen : s.alive = false → s.isOpen = false
  acceptor : s.alive = false → s.acceptor = false

section Soundness

variable {b : Build} {s s' : Server S} {event : ServerEvent S} {events : List (ServerEvent S)}
  {effects : List (ServerEffect S)}

theorem sound_initial : Sound (initial : Server S) where
  accepting _ := rfl
  stop h := by cases h
  isOpen h := by cases h
  acceptor h := by cases h

theorem Sound.close (h : Sound s) : Sound s.close where
  accepting _ := rfl
  stop := h.stop
  isOpen := h.isOpen
  acceptor _ := rfl

theorem Sound.post (h : Sound s) {handler : ServerHandler} (hstop : handler ≠ .stop) :
    Sound (s.post handler) where
  accepting := h.accepting
  stop hmem := (mem_post hmem).elim h.stop fun heq => absurd heq.symm hstop
  isOpen := h.isOpen
  acceptor := h.acceptor

/-- Handlers leave the strand. -/
theorem Sound.of_subset (h : Sound s) {strand : List ServerHandler}
    (hsub : ∀ handler ∈ strand, handler ∈ s.strand) : Sound { s with strand } where
  accepting := h.accepting
  stop hmem := h.stop (hsub _ hmem)
  isOpen := h.isOpen
  acceptor := h.acceptor

/-- A server whose channel is open is there. -/
theorem Sound.alive_of_isOpen (h : Sound s) (hopen : s.isOpen = true) : s.alive = true := by
  cases halive : s.alive with
  | true => rfl
  | false => rw [h.isOpen halive] at hopen; cases hopen

theorem Sound.start (h : Sound s) (halive : s.alive = true)
    (opening bind listen : Option ErrorCode) : Sound (s.start opening bind listen) := by
  rcases start_cases s opening bind listen with ⟨-, hstart⟩ | ⟨ec, hstart⟩
  · have hpost : Sound (s.post (.listen none)) := h.post (by simp)
    rw [hstart]
    exact ⟨by simp, hpost.stop, hpost.isOpen, fun hdead => by
      rw [show s.alive = false from hdead] at halive
      cases halive⟩
  · rw [hstart]
    exact (h.post (by simp)).close

theorem Sound.doAccept (h : Sound s) : Sound s.doAccept := by
  rw [Server.doAccept]
  split
  · next hacceptor =>
    exact ⟨fun hclosed => absurd (hclosed.symm.trans hacceptor) (by simp), h.stop, h.isOpen,
      h.acceptor⟩
  · exact ⟨h.accepting, h.stop, h.isOpen, h.acceptor⟩

theorem Sound.step (h : Sound s) (hstep : step s event = .ok (s', effects)) : Sound s' := by
  cases stepped_of_step hstep with
  | start => exact h.post (by simp)
  | stop => exact ⟨h.accepting, fun _ => rfl, fun _ => rfl, h.acceptor⟩
  | stopped | ignored | missing => exact h
  | starts hstrand hopen =>
    have hrest := h.of_subset fun handler hmem => hstrand ▸ List.mem_cons_of_mem _ hmem
    exact hrest.start (h.alive_of_isOpen hopen) _ _ _
  | stops hstrand =>
    -- a stop waits on the strand when the channel is closed already
    have hclosed : s.isOpen = false := h.stop (by simp [hstrand])
    exact ⟨fun _ => rfl, fun _ => hclosed, fun _ => hclosed, fun _ => rfl⟩
  | passes => exact h.of_subset fun handler hmem => List.mem_of_mem_tail hmem
  | completes =>
    exact ⟨fun hclosed => by simp [h.accepting hclosed], h.stop, h.isOpen, h.acceptor⟩
  | failed => exact ⟨h.accepting, h.stop, h.isOpen, h.acceptor⟩
  | accepted => exact Sound.doAccept ⟨h.accepting, h.stop, h.isOpen, h.acceptor⟩

/-- The stops of the server leave no connection without its server. -/
def Secure (s : Server S) : Prop := Sound s ∧ (s.alive = false → s.sockets = [])

/-- A handler has nothing to hand over when no connection waits. -/
theorem getElem?_ne_ok {i : ℕ} {socket : S} (h : s.sockets = []) :
    s.completed[i]? ≠ some (.ok socket) := by
  intro hget
  have hperm := sockets_perm hget
  rw [h] at hperm
  exact absurd hperm.length_eq (by simp [Except.toOption])

/-- A connection that waits has its handler. -/
theorem exists_getElem?_of_mem {socket : S} (h : socket ∈ s.sockets) :
    ∃ i : ℕ, s.completed[i]? = some (.ok socket) := by
  obtain ⟨result, hmem, hsocket⟩ := List.mem_filterMap.mp h
  cases result with
  | error ec => cases hsocket
  | ok socket' =>
    obtain rfl : socket' = socket := Option.some.inj hsocket
    exact List.mem_iff_getElem?.mp hmem

/-- A deleted server gets no connections. -/
theorem sockets_of_dead (h : Secure s) (hstep : step s event = .ok (s', effects))
    (hdead : s.alive = false) : s'.sockets = [] := by
  have hnone : s.sockets = [] := h.2 hdead
  -- neither a start nor an accept is left that could bring one
  have hclosed : s.isOpen = false := h.1.isOpen hdead
  have haccepting : s.accepting = 0 := h.1.accepting (h.1.acceptor hdead)
  cases stepped_of_step hstep with
  | start | stop | stopped | passes | ignored | missing => exact hnone
  | starts hstrand hopen => exact absurd (hclosed.symm.trans hopen) (by simp)
  | stops hstrand => exact sockets_close.trans hnone
  | completes hone => exact absurd haccepting hone.ne'
  | failed hget =>
    have hperm := sockets_perm hget
    rw [hnone] at hperm
    exact hperm.nil_eq.symm
  | accepted hget => exact absurd hget (getElem?_ne_ok hnone)

/-- Only a stop deletes the server. -/
theorem alive_step (h : step s event = .ok (s', effects)) (halive : s.alive = true) :
    s'.alive = true ∨
      ∃ opening bind listen, event = .run opening bind listen ∧
        s.strand.head? = some .stop ∧ s'.sockets = s.sockets := by
  cases stepped_of_step h with
  | start | stop | stopped | passes | completes | ignored | missing | failed => exact Or.inl halive
  | starts hstrand => exact Or.inl ((alive_start _ _ _).trans halive)
  | stops hstrand => exact Or.inr ⟨_, _, _, rfl, by rw [hstrand]; rfl, sockets_close⟩
  | accepted hget => exact Or.inl (alive_doAccept.trans halive)

/-- A handler of an accept fails when it has a connection and no server. -/
theorem exists_handle_iff {i : ℕ} :
    (∃ r, step s (.handle i) = .ok r) ↔
      (s.alive = false → ∀ socket, s.completed[i]? ≠ some (.ok socket)) := by
  rw [step, handle]
  split
  · next hget => simp [hget]
  · next ec hget => simp [hget]
  · next socket hget =>
    cases halive : s.alive with
    | true => simp
    | false => simp [hget]

/-- A calm step does not fail, and is secure. -/
theorem safe_secure : Step.Safe (step (S := S)) Secure Calm fun _ => True := by
  intro s event h hcalm
  have hok : ∃ s' effects, step s event = .ok (s', effects) := by
    cases event with
    | start | stop | run => exact ⟨_, _, rfl⟩
    | complete result =>
      rw [step]
      split
      · exact ⟨_, _, rfl⟩
      · exact ⟨_, _, rfl⟩
    | handle i =>
      obtain ⟨r, hr⟩ := exists_handle_iff.mpr fun hdead _ => getElem?_ne_ok (i := i) (h.2 hdead)
      exact ⟨r.1, r.2, hr⟩
  obtain ⟨s', effects, hstep⟩ := hok
  -- what is left is that a deleted server leaves no connections
  refine ⟨s', effects, hstep, ⟨h.1.step hstep, fun hdead => ?_⟩, fun _ _ => trivial⟩
  cases halive : s.alive with
  | false => exact sockets_of_dead h hstep halive
  | true =>
    rcases alive_step hstep halive with halive' | ⟨opening, bind, listen, rfl, hhead, hsockets⟩
    · rw [halive'] at hdead
      cases hdead
    · rw [hsockets]
      exact hcalm hhead

/-- **The stops of a run are calm exactly when at no point of it the handler of an accept would
work on a deleted server.** -/
theorem calm_iff {events : List (ServerEvent S)} :
    Step.Guarded step Calm initial events ↔
      ∀ before, before <+: events → ∀ i,
        ∃ r, Step.run step (initial : Server S) (before ++ [.handle i]) = .ok r := by
  suffices hgeneral : ∀ s : Server S, Secure s → (Step.Guarded step Calm s events ↔
      ∀ before, before <+: events → ∀ i, ∃ r, Step.run step s (before ++ [.handle i]) = .ok r) from
    hgeneral initial ⟨sound_initial, fun _ => rfl⟩
  intro s hs
  constructor
  -- a handler is calm itself, so the prefix with the handler is a calm run
  · rintro hcalm before ⟨after, rfl⟩ i
    have hguard : Step.Guarded step Calm s (before ++ [.handle i]) :=
      Step.guarded_append.mpr
        ⟨(Step.guarded_append.mp hcalm).1, fun _ _ _ => ⟨trivial, fun _ _ _ => trivial⟩⟩
    obtain ⟨s', effects, hrun, -⟩ := safe_secure.run hs hguard
    exact ⟨_, hrun⟩
  · intro hhandlers
    induction events generalizing s with
    | nil => exact trivial
    | cons event events ih =>
      have hcalm : Calm s event := by
        cases event with
        | start | stop | complete | handle => exact trivial
        | run opening bind listen =>
          intro hhead
          -- a connection that waits has a handler, which comes after the stop here
          by_contra hne
          obtain ⟨socket, hmem⟩ := List.exists_mem_of_ne_nil _ hne
          obtain ⟨i, hget⟩ := exists_getElem?_of_mem hmem
          obtain ⟨strand, hstrand⟩ := List.head?_eq_some_iff.mp hhead
          have hstep : step s (.run opening bind listen) = .ok ({ s with strand }.stop, []) := by
            rw [step, run, hstrand]
          obtain ⟨r, hr⟩ := hhandlers [.run opening bind listen] (by simp) i
          rw [List.singleton_append, Step.run_cons_silent hstep, Step.run_singleton_eq] at hr
          have hstill : { s with strand }.stop.completed[i]? = some (.ok socket) :=
            (List.getElem?_append_left (List.getElem?_eq_some_iff.mp hget).1).trans hget
          exact exists_handle_iff.mp ⟨r, hr⟩ rfl socket hstill
      refine ⟨hcalm, fun s' effects hstep => ?_⟩
      obtain ⟨s₁, effects₁, hstep₁, hs₁, -⟩ := safe_secure s event hs hcalm
      obtain rfl : s₁ = s' := congrArg Prod.fst (Except.ok.inj (hstep₁.symm.trans hstep))
      apply ih s₁ hs₁
      intro before hbefore i
      obtain ⟨r, hr⟩ := hhandlers (event :: before) (List.cons_prefix_cons.mpr ⟨rfl, hbefore⟩) i
      obtain ⟨t, out, out', ht, hrest, -⟩ := Step.run_cons_eq_ok_iff.mp hr
      obtain rfl : s₁ = t := congrArg Prod.fst (Except.ok.inj (hstep.symm.trans ht))
      exact ⟨_, hrest⟩

example : Step.run step (initial : Server ℕ) [.start, .run none none none, .complete (.ok 7),
    .stop, .run none none none, .run none none none, .handle 0] =
    .error (.undefined "member of a deleted server") := rfl

end Soundness

/-! ### Connections -/

/-- The connections that the operating system accepts. -/
def connections (events : List (ServerEvent S)) : List S :=
  events.filterMap fun
    | .complete result => result.toOption
    | _ => none

/-- The number of accepts that fail. -/
def failures (events : List (ServerEvent S)) : ℕ :=
  events.countP fun
    | .complete (.error _) => true
    | _ => false

/-- The connections that the callback gets. -/
def handed (effects : List (ServerEffect S)) : List S :=
  effects.filterMap fun
    | .onAccept socket => some socket
    | .onListen _ => none

section Connections

variable {s s' s₁ : Server S} {event : ServerEvent S} {events : List (ServerEvent S)}
  {effects : List (ServerEffect S)}

theorem connections_cons (event : ServerEvent S) (events : List (ServerEvent S)) :
    connections (event :: events) = connections [event] ++ connections events :=
  show connections ([event] ++ events) = _ from List.filterMap_append

theorem failures_cons (event : ServerEvent S) (events : List (ServerEvent S)) :
    failures (event :: events) = failures [event] + failures events :=
  show failures ([event] ++ events) = _ from List.countP_append

theorem handed_append (effects effects' : List (ServerEffect S)) :
    handed (effects ++ effects') = handed effects ++ handed effects' := List.filterMap_append

theorem handed_of_listens (h : ∀ effect ∈ effects, ∃ ec, effect = .onListen ec) :
    handed effects = [] := by
  rw [handed, List.filterMap_eq_nil_iff]
  intro effect hmem
  obtain ⟨ec, rfl⟩ := h effect hmem
  rfl

/-- A start leaves the connections alone. -/
theorem sockets_start (opening bind listen : Option ErrorCode) :
    (s.start opening bind listen).sockets = s.sockets ∧
      (s.start opening bind listen).sessionCounter = s.sessionCounter := by
  rcases start_cases s opening bind listen with ⟨-, hstart⟩ | ⟨ec, hstart⟩
  · rw [hstart]
    exact ⟨rfl, rfl⟩
  · rw [hstart]
    exact ⟨sockets_close, rfl⟩

/-- Over a step no connection is lost, and none is there twice. -/
structure Hands (s s' : Server S) (arrived : List S) (effects : List (ServerEffect S)) : Prop where
  sockets : (arrived ++ s.sockets).Perm (handed effects ++ s'.sockets)
  counter : s'.sessionCounter = s.sessionCounter + BitVec.ofNat 64 (handed effects).length

theorem Hands.of_sockets_eq (hsockets : s'.sockets = s.sockets)
    (hcounter : s'.sessionCounter = s.sessionCounter) : Hands s s' [] [] where
  sockets := List.Perm.of_eq hsockets.symm
  counter := hcounter.trans (BitVec.add_zero _).symm

theorem Hands.trans {arrived arrived' : List S} {effects effects' : List (ServerEffect S)}
    (h : Hands s s₁ arrived effects) (h' : Hands s₁ s' arrived' effects') :
    Hands s s' (arrived ++ arrived') (effects ++ effects') where
  sockets := by
    rw [handed_append]
    calc (arrived ++ arrived' ++ s.sockets).Perm (arrived' ++ (arrived ++ s.sockets)) := by
          rw [← List.append_assoc]
          exact List.perm_append_comm.append_right _
      _ |>.Perm (arrived' ++ (handed effects ++ s₁.sockets)) := h.sockets.append_left _
      _ |>.Perm (handed effects ++ (arrived' ++ s₁.sockets)) := by
          rw [← List.append_assoc, ← List.append_assoc]
          exact List.perm_append_comm.append_right _
      _ |>.Perm (handed effects ++ handed effects' ++ s'.sockets) := by
          rw [List.append_assoc]
          exact h'.sockets.append_left _
  counter := by
    rw [h'.counter, h.counter, handed_append, List.length_append, BitVec.ofNat_add,
      BitVec.add_assoc]

/-- A step hands over one of the connections that wait, or lets one more wait. -/
theorem hands_step (hpossible : s.Possible event) (h : step s event = .ok (s', effects)) :
    Hands s s' (connections [event]) effects := by
  cases stepped_of_step h with
  | start | stop | stopped | missing => exact Hands.of_sockets_eq rfl rfl
  | starts hstrand =>
    obtain ⟨hsockets, hcounter⟩ := sockets_start (s := { s with strand := _ }) _ _ _
    exact Hands.of_sockets_eq hsockets hcounter
  | stops => exact Hands.of_sockets_eq sockets_close rfl
  | passes heffects =>
    have hnone : handed effects = [] := handed_of_listens heffects
    refine ⟨?_, ?_⟩
    · rw [hnone]
      exact List.Perm.refl _
    · rw [hnone]
      exact (BitVec.add_zero _).symm
  | @completes result =>
    refine ⟨?_, (BitVec.add_zero _).symm⟩
    have happend : ({ s with
        accepting := s.accepting - 1
        completed := s.completed ++ [result] } : Server S).sockets =
        s.sockets ++ connections [.complete result] := List.filterMap_append
    rw [happend]
    exact List.perm_append_comm
  | ignored hnone => exact absurd hpossible (Nat.not_lt.mpr hnone.le)
  | failed hget => exact ⟨sockets_perm hget, (BitVec.add_zero _).symm⟩
  | accepted hget =>
    refine ⟨?_, ?_⟩
    · rw [sockets_doAccept]
      exact sockets_perm hget
    · rw [sessionCounter_doAccept]
      rfl

theorem hands_run (hpossible : Step.Guarded step Possible s events)
    (h : Step.run step s events = .ok (s', effects)) : Hands s s' (connections events) effects := by
  induction events generalizing s effects with
  | nil =>
    obtain ⟨rfl, rfl⟩ := Prod.mk.inj (Except.ok.inj h)
    exact Hands.of_sockets_eq rfl rfl
  | cons event events ih =>
    obtain ⟨s₁, os, os', hstep, hrun, hos⟩ := Step.run_cons_eq_ok_iff.mp h
    obtain ⟨hfirst, hrest⟩ := (Step.guarded_cons_of_ok hstep).mp hpossible
    rw [connections_cons, show effects = os ++ os' from hos]
    exact (hands_step hfirst hstep).trans (ih hrest hrun)

/-- **Every connection that is accepted is handed over once or waits for its handler, and the
session counter counts those that were handed over.** -/
theorem handed_once (hpossible : Step.Guarded step Possible initial events)
    (h : Step.run step (initial : Server S) events = .ok (s', effects)) :
    (connections events).Perm (handed effects ++ s'.sockets) ∧
      s'.sessionCounter = BitVec.ofNat 64 (handed effects).length := by
  have hhands := hands_run hpossible h
  have hnone : (initial : Server S).sockets = [] := rfl
  refine ⟨?_, ?_⟩
  · simpa [hnone] using hhands.sockets
  · rw [hhands.counter]
    exact BitVec.zero_add _

/-- A server that is started, two connections, one of which is handed over. -/
def sampleConnections : List (ServerEvent ℕ) :=
  [.start, .run none none none, .run none none none, .complete (.ok 7), .handle 0,
    .complete (.ok 8)]

theorem handed_once_sampleConnections :
    ∃ s' effects, Step.run step (initial : Server ℕ) sampleConnections = .ok (s', effects) ∧
      (connections sampleConnections).Perm (handed effects ++ s'.sockets) ∧
      s'.sessionCounter = BitVec.ofNat 64 (handed effects).length :=
  ⟨_, _, rfl, handed_once (by decide) rfl⟩

end Connections

/-! ### Loops -/

section Loops

variable {s s' s₁ : Server S} {event : ServerEvent S} {events before after : List (ServerEvent S)}
  {effects effects₁ effects₂ : List (ServerEffect S)}

/-- While the acceptor stays open, an accept is started for each connection that is handed
over. -/
theorem accepting_step (hacceptor : s.acceptor = true) (hpossible : s.Possible event)
    (hsteady : s.Steady event) (h : step s event = .ok (s', effects)) :
    s'.acceptor = true ∧ s'.accepting + (connections [event]).length + failures [event] =
      s.accepting + (handed effects).length := by
  cases stepped_of_step h with
  | start | stop | stopped | missing | failed => exact ⟨hacceptor, rfl⟩
  | starts hstrand => exact absurd (by rw [hstrand]; rfl) hsteady.1
  | stops hstrand => exact absurd (by rw [hstrand]; rfl) hsteady.2
  | passes heffects =>
    rw [handed_of_listens heffects]
    exact ⟨hacceptor, rfl⟩
  | @completes result hone =>
    refine ⟨hacceptor, ?_⟩
    -- either way the accept is one of those that were outstanding
    cases result with
    | error ec => exact Nat.sub_add_cancel hone
    | ok socket => exact Nat.sub_add_cancel hone
  | ignored hnone => exact absurd hpossible (Nat.not_lt.mpr hnone.le)
  | accepted =>
    rw [doAccept, if_pos hacceptor]
    exact ⟨hacceptor, rfl⟩

/-- A loop is an accept or a connection that waits; only a failure ends one. -/
theorem loops_run (hacceptor : s.acceptor = true)
    (hguard : Step.Guarded step (fun s event => Possible s event ∧ Steady s event) s events)
    (h : Step.run step s events = .ok (s', effects)) :
    s'.acceptor = true ∧ s'.accepting + s'.sockets.length + failures events =
      s.accepting + s.sockets.length := by
  induction events generalizing s effects with
  | nil =>
    obtain ⟨rfl, -⟩ := Prod.mk.inj (Except.ok.inj h)
    exact ⟨hacceptor, rfl⟩
  | cons event events ih =>
    obtain ⟨s₁, os, os', hstep, hrun, -⟩ := Step.run_cons_eq_ok_iff.mp h
    obtain ⟨⟨hpossible, hsteady⟩, hrest⟩ := (Step.guarded_cons_of_ok hstep).mp hguard
    obtain ⟨hacceptor₁, hfirst⟩ := accepting_step hacceptor hpossible hsteady hstep
    obtain ⟨hacceptor', hlater⟩ := ih hacceptor₁ hrest hrun
    -- the loops whose connection waits, before and after the step
    have hlength := (hands_step hpossible hstep).sockets.length_eq
    rw [List.length_append, List.length_append] at hlength
    rw [failures_cons]
    exact ⟨hacceptor', by omega⟩

theorem sound_run (hs : Sound s) (h : Step.run step s events = .ok (s', effects)) : Sound s' := by
  induction events generalizing s effects with
  | nil =>
    obtain ⟨rfl, -⟩ := Prod.mk.inj (Except.ok.inj h)
    exact hs
  | cons event events ih =>
    obtain ⟨s₁, os, os', hstep, hrun, -⟩ := Step.run_cons_eq_ok_iff.mp h
    exact ih (hs.step hstep) hrun

/-- A start adds a loop to those that are left. -/
theorem loops_of_opens {opening bind listen : Option ErrorCode} (hs : Sound s)
    (hclosed : s.acceptor = false)
    (h : step s (.run opening bind listen) = .ok (s', effects)) (hacceptor : s'.acceptor = true) :
    s'.accepting + s'.sockets.length = 1 + s.sockets.length := by
  have haccepting : s.accepting = 0 := hs.accepting hclosed
  cases stepped_of_step h with
  | @starts _ _ _ strand =>
    rcases start_cases { s with strand } opening bind listen with ⟨-, hstart⟩ | ⟨ec, hstart⟩
    · rw [hstart]
      exact congrArg (· + 1 + s.sockets.length) haccepting
    · rw [hstart] at hacceptor
      cases hacceptor
  | stops => cases hacceptor
  | passes => exact absurd (hclosed.symm.trans hacceptor) (by simp)

/-- **From a start on, as long as neither a start nor a stop runs, the acceptor stays open, and
it is deaf exactly when as many accepts have failed as there are loops: the one of the start, and
one for each connection that waited for its handler already.** -/
theorem deaf_iff {opening bind listen : Option ErrorCode}
    (hbefore : Step.run step (initial : Server S) before = .ok (s, effects))
    (hclosed : s.acceptor = false)
    (hopens : step s (.run opening bind listen) = .ok (s₁, effects₁))
    (hacceptor : s₁.acceptor = true)
    (hguard : Step.Guarded step (fun s event => Possible s event ∧ Steady s event) s₁ after)
    (hafter : Step.run step s₁ after = .ok (s', effects₂)) :
    s'.acceptor = true ∧ (s'.Deaf ↔ failures after = 1 + s.sockets.length) := by
  obtain ⟨hacceptor', hloops⟩ := loops_run hacceptor hguard hafter
  have hstart := loops_of_opens (sound_run sound_initial hbefore) hclosed hopens hacceptor
  refine ⟨hacceptor', ?_⟩
  constructor
  · rintro ⟨-, haccepting, hsockets⟩
    rw [haccepting, hsockets, List.length_nil] at hloops
    omega
  · intro hfailures
    exact ⟨hacceptor', by omega, List.eq_nil_of_length_eq_zero (by omega)⟩

/-- The first accept fails, for want of descriptors, say. -/
def sampleFailure : List (ServerEvent ℕ) := [.complete (.error ⟨24, ErrorCode.system⟩)]

theorem deaf_iff_sampleFailure :
    ∃ s s₁ s' : Server ℕ, ∃ effects,
      Step.run step initial [.start, .start] = .ok (s, []) ∧
      step s (.run none none none) = .ok (s₁, []) ∧
      Step.run step s₁ sampleFailure = .ok (s', effects) ∧
      s'.acceptor = true ∧ (s'.Deaf ↔ failures sampleFailure = 1 + s.sockets.length) :=
  ⟨_, _, _, _, rfl, rfl, rfl,
    deaf_iff (show Step.run step initial [.start, .start] = .ok _ from rfl) rfl
      (show step _ (.run none none none) = .ok _ from rfl) rfl (by decide)
      (show Step.run step _ sampleFailure = .ok _ from rfl)⟩

end Loops

/-! ### Starts -/

/-- Nobody stops the server, and the operating system opens, binds and listens. -/
def Granted : ServerEvent S → Prop
  | .stop => False
  | .run opening bind listen => opening = none ∧ bind = none ∧ listen = none
  | _ => True

/-- The number of calls of `server_proxy::start` -/
def starts (events : List (ServerEvent S)) : ℕ :=
  events.countP fun
    | .start => true
    | _ => false

/-- What `cb_listen` is told. -/
def reports (effects : List (ServerEffect S)) : List (Option ErrorCode) :=
  effects.filterMap fun
    | .onListen ec => some ec
    | .onAccept _ => none

/-- What `cb_listen` is yet to be told. -/
def listens (strand : List ServerHandler) : List (Option ErrorCode) :=
  strand.filterMap fun
    | .listen ec => some ec
    | _ => none

/-- Success and failure in turn -/
def answers (n : ℕ) : List (Option ErrorCode) :=
  (List.range n).map fun k => if Even k then none else some alreadyOpen

/-- The state after so many starts have run. -/
structure Toggled (s : Server S) (started ran : ℕ) (reported : List (Option ErrorCode)) : Prop where
  isOpen : s.isOpen = true
  stop : .stop ∉ s.strand
  started : started = ran + s.strand.count .start
  acceptor : s.acceptor = true ↔ Odd ran
  reported : reported ++ listens s.strand = answers ran

section Starts

variable {s s' : Server S} {event : ServerEvent S} {events : List (ServerEvent S)}
  {effects : List (ServerEffect S)} {started ran : ℕ} {reported : List (Option ErrorCode)}

theorem starts_cons (event : ServerEvent S) (events : List (ServerEvent S)) :
    starts (event :: events) = starts [event] + starts events :=
  show starts ([event] ++ events) = _ from List.countP_append

theorem toggled_initial : Toggled (initial : Server S) 0 0 [] where
  isOpen := rfl
  stop := List.not_mem_nil
  started := rfl
  acceptor := by simp [initial]
  reported := rfl

/-- A start opens a closed acceptor, and closes an open one. -/
theorem start_granted (hopen : s.isOpen = true) :
    (s.start none none none).isOpen = true ∧
      (s.start none none none).acceptor = !s.acceptor ∧
      (s.start none none none).strand =
        s.strand ++ [.listen (if s.acceptor then some alreadyOpen else none)] := by
  rw [start]
  cases hacceptor : s.acceptor with
  | true =>
    refine ⟨hopen, rfl, ?_⟩
    exact if_pos hopen
  | false =>
    refine ⟨hopen, rfl, ?_⟩
    exact if_pos hopen

/-- Only what is on the strand and whether the acceptor is open matter. -/
theorem Toggled.congr (h : Toggled s started ran reported) (hopen : s'.isOpen = s.isOpen)
    (hstrand : s'.strand = s.strand) (hacceptor : s'.acceptor = s.acceptor) :
    Toggled s' started ran reported where
  isOpen := hopen.trans h.isOpen
  stop := hstrand ▸ h.stop
  started := by rw [hstrand]; exact h.started
  acceptor := by rw [hacceptor]; exact h.acceptor
  reported := by rw [hstrand]; exact h.reported

theorem listens_append (strand strand' : List ServerHandler) :
    listens (strand ++ strand') = listens strand ++ listens strand' := List.filterMap_append

theorem answers_succ (n : ℕ) :
    answers (n + 1) = answers n ++ [if Even n then none else some alreadyOpen] := by
  simp [answers, List.range_succ]

/-- A handler of the strand that starts the server adds one to the starts. -/
theorem Toggled.start {strand : List ServerHandler} (h : Toggled s started ran reported)
    (hstrand : s.strand = .start :: strand) :
    Toggled ({ s with strand }.start none none none) started (ran + 1) reported := by
  obtain ⟨hopen, hacceptor, hposted⟩ := start_granted (s := { s with strand }) h.isOpen
  have hstop := h.stop
  have hstarted := h.started
  have hreported := h.reported
  rw [hstrand] at hstop hstarted hreported
  refine ⟨hopen, ?_, ?_, ?_, ?_⟩
  · rw [hposted]
    simpa using hstop
  · rw [hposted, List.count_append, List.count_singleton]
    rw [List.count_cons_self] at hstarted
    simp only [beq_iff_eq, reduceCtorEq, if_false]
    omega
  · rw [hacceptor, Nat.odd_add_one, ← h.acceptor]
    simp
  · -- the acceptor is open when the number of starts so far is odd
    have hanswer : (if s.acceptor then some alreadyOpen else none) =
        if Even ran then none else some alreadyOpen := by
      by_cases hodd : Odd ran
      · rw [if_pos (h.acceptor.mpr hodd), if_neg (Nat.not_even_iff_odd.mpr hodd)]
      · rw [if_neg (h.acceptor.not.mpr hodd), if_pos (Nat.not_odd_iff_even.mp hodd)]
    rw [hposted, listens_append, answers_succ, ← hanswer, ← List.append_assoc]
    exact congrArg (· ++ _) hreported

theorem Toggled.run (h : Toggled s started ran reported) :
    ∃ ran', Toggled (s.run none none none).1 started ran'
      (reported ++ reports (s.run none none none).2) := by
  have hnone : reported ++ reports ([] : List (ServerEffect S)) = reported :=
    List.append_nil reported
  rw [Server.run]
  split
  · exact ⟨ran, hnone.symm ▸ h⟩
  · next strand hstrand =>
    rw [if_pos h.isOpen]
    exact ⟨ran + 1, hnone.symm ▸ h.start hstrand⟩
  · next ec strand hstrand =>
    have hstop := h.stop
    have hstarted := h.started
    have hreported := h.reported
    rw [hstrand] at hstop hstarted hreported
    rw [if_pos h.isOpen]
    refine ⟨ran, h.isOpen, ?_, ?_, h.acceptor, ?_⟩
    · exact fun hmem => hstop (List.mem_cons_of_mem _ hmem)
    · rwa [List.count_cons_of_ne (by simp)] at hstarted
    · -- the report goes from the strand to the callback
      exact (List.append_assoc _ _ _).trans hreported
  · next strand hstrand => exact absurd (by simp [hstrand]) h.stop

theorem Toggled.step (h : Toggled s started ran reported) (hgranted : Granted event)
    (hstep : step s event = .ok (s', effects)) :
    ∃ ran', Toggled s' (started + starts [event]) ran' (reported ++ reports effects) := by
  have hnone : reported ++ reports ([] : List (ServerEffect S)) = reported :=
    List.append_nil reported
  -- the strand is looked at more closely than the rest
  by_cases hrun : ∃ opening bind listen, event = .run opening bind listen
  · obtain ⟨opening, bind, listen, rfl⟩ := hrun
    obtain ⟨rfl, rfl, rfl⟩ := hgranted
    obtain rfl : (s.run none none none).1 = s' := congrArg Prod.fst (Except.ok.inj hstep)
    obtain rfl : (s.run none none none).2 = effects := congrArg Prod.snd (Except.ok.inj hstep)
    exact h.run
  · cases stepped_of_step hstep with
    | start =>
      have hposted : (s.post .start).strand = s.strand ++ [.start] := if_pos h.isOpen
      refine ⟨ran, h.isOpen, ?_, ?_, h.acceptor, ?_⟩
      · rw [hposted]
        simpa using h.stop
      · rw [hposted, List.count_append, h.started]
        rfl
      · rw [hposted, listens_append, show listens [.start] = [] from rfl, List.append_nil, hnone]
        exact h.reported
    | stop | stopped => exact absurd hgranted id
    | starts | stops | passes => exact absurd ⟨_, _, _, rfl⟩ hrun
    | ignored | missing => exact ⟨ran, hnone.symm ▸ h⟩
    | completes | failed => exact ⟨ran, hnone.symm ▸ h.congr rfl rfl rfl⟩
    | accepted =>
      refine ⟨ran, hnone.symm ▸ h.congr ?_ ?_ ?_⟩
      · rw [doAccept]; split <;> rfl
      · rw [doAccept]; split <;> rfl
      · rw [doAccept]; split <;> rfl

theorem Toggled.run_all (h : Toggled s started ran reported) (hgranted : ∀ e ∈ events, Granted e)
    (hrun : Step.run Server.step s events = .ok (s', effects)) :
    ∃ ran', Toggled s' (started + starts events) ran' (reported ++ reports effects) := by
  induction events generalizing s started ran reported effects with
  | nil =>
    obtain ⟨rfl, rfl⟩ := Prod.mk.inj (Except.ok.inj hrun)
    exact ⟨ran, (List.append_nil reported).symm ▸ h⟩
  | cons event events ih =>
    obtain ⟨s₁, os, os', hstep, hrest, hos⟩ := Step.run_cons_eq_ok_iff.mp hrun
    obtain ⟨hfirst, hlater⟩ := List.forall_mem_cons.mp hgranted
    obtain ⟨ran₁, h₁⟩ := h.step hfirst hstep
    obtain ⟨ran', h'⟩ := ih h₁ hlater hrest
    refine ⟨ran', ?_⟩
    rw [starts_cons, ← Nat.add_assoc, show effects = os ++ os' from hos]
    have happend : reported ++ reports (os ++ os') = reported ++ reports os ++ reports os' := by
      rw [List.append_assoc]
      exact congrArg _ List.filterMap_append
    rw [happend]
    exact h'

/-- **When nobody stops the server and the operating system grants everything, the acceptor is
open after an odd number of starts only, and every other start is told that it is open already.** -/
theorem open_iff_odd (hgranted : ∀ e ∈ events, Granted e)
    (hrun : Step.run step (initial : Server S) events = .ok (s', effects))
    (hstrand : s'.strand = []) :
    (s'.acceptor = true ↔ Odd (starts events)) ∧ reports effects = answers (starts events) := by
  obtain ⟨ran, h⟩ := toggled_initial.run_all hgranted hrun
  have hstarted := h.started
  have hreported := h.reported
  rw [hstrand] at hstarted hreported
  have hran : starts events = ran := by simpa using hstarted
  refine ⟨?_, ?_⟩
  · rw [hran]
    exact h.acceptor
  · rw [hran]
    simpa [listens] using hreported

/-- A server that is started twice is closed again. -/
def sampleStarts : List (ServerEvent ℕ) :=
  [.start, .start, .run none none none, .run none none none, .run none none none,
    .run none none none]

theorem open_iff_odd_sampleStarts :
    ∃ s' effects, Step.run step (initial : Server ℕ) sampleStarts = .ok (s', effects) ∧
      (s'.acceptor = true ↔ Odd (starts sampleStarts)) ∧
      reports effects = answers (starts sampleStarts) :=
  ⟨_, _, rfl, open_iff_odd (by simp [sampleStarts, Granted])
    (show Step.run step initial sampleStarts = .ok _ from rfl) rfl⟩

end Starts

end Server

end Net

end Cyng
