import Cyng.Obj.Object
import Cyng.Theory.Machine

/-!
# Session pools

A pool keeps connected sessions ready. `start` sets the size and fills the pool, a timer
exchanges one session or fills the pool up again, and who takes a session gets the oldest one
while a new one is connected. A connect may fail at any time.

The pool never holds more sessions than its size says, as long as `start` finds room for the
sessions it adds: it adds as many as the new size, whatever is in the pool already.
-/

namespace Cyng

open Theory

/-- `connection_type` -/
inductive ConnectionType
  | none | mysql | odbc | pqxx | sqlite
deriving DecidableEq

/-- `is_installed`: the only connector that is not commented out. -/
def ConnectionType.isInstalled (ctype : ConnectionType) : Bool := ctype = sqlite

/-- A connected session, by the number of its connect. -/
abbrev Session := ℕ

/-- How connects end, one after the other. -/
abbrev Connects := ℕ → ParamMap → Bool

/-- `session_pool`, with the sessions that are in use. -/
structure SessionPool where
  ctype : ConnectionType
  pool : List Session
  poolSize : BitVec 64
  /-- `life_time_` in seconds -/
  lifeTime : ℤ
  config : ParamMap
  /-- when the pending wait of the timer is over -/
  timer : Option ℤ
  /-- how often a connect was tried -/
  tried : ℕ
  /-- what `get_session` has handed out; no session where it was not connected -/
  lent : List (Option Session)

/-- What is done to a pool. -/
inductive PoolOp
  | start (poolSize : BitVec 64) (lifeTime : ℤ) (config : ParamMap)
  | getSession
  /-- the i-th session in use is given up -/
  | release (i : ℕ)
  | onTimer (aborted : Bool)
  | stop

/-- What the caller gets. -/
inductive PoolResult
  | started (complete : Bool)
  | session (s : Option Session)
deriving DecidableEq

namespace SessionPool

/-- A pool as it is constructed. -/
def initial (ctype : ConnectionType) : SessionPool where
  ctype := ctype
  pool := []
  poolSize := if ctype = .sqlite then 1 else 5
  lifeTime := 120
  config := ⟨[], List.nodup_nil⟩
  timer := none
  tried := 0
  lent := []

/-- `pool_.size()` -/
def size (p : SessionPool) : BitVec 64 := BitVec.ofNat 64 p.pool.length

section Operations

variable (connects : Connects) (b : Build) (p : SessionPool)

/-- `session_pool::add_session` -/
def addSession : SessionPool :=
  if p.ctype.isInstalled && connects p.tried p.config then
    { p with pool := p.pool ++ [p.tried], tried := p.tried + 1 }
  else { p with tried := p.tried + 1 }

/-- So many sessions are added, if they can be connected. -/
def addSessions : ℕ → SessionPool → SessionPool
  | 0, p => p
  | n + 1, p => addSessions n (addSession connects p)

/-- `session_pool::start_timer` -/
def startTimer : SessionPool := { p with timer := some p.lifeTime }

/-- What `start` does to a pool that gets a new size. It looks at the life time so far. -/
def fill (poolSize : BitVec 64) (lifeTime : ℤ) (config : ParamMap) :
    SessionPool × List PoolResult :=
  if p.lifeTime < 5 then ({ p with poolSize }, [.started false])
  else
    let q := addSessions connects poolSize.toNat { p with poolSize, lifeTime, config }
    (if q.poolSize > 1 then q.startTimer else q, [.started (q.size = q.poolSize)])

/-- `session_pool::start` -/
def start (poolSize : BitVec 64) (lifeTime : ℤ) (config : ParamMap) :
    Except Fault (SessionPool × List PoolResult) :=
  if poolSize < 1 then .ok (p, [.started false])
  else do
    b.check "pool_size == 1" (p.ctype = .sqlite → poolSize = 1)
    .ok (p.fill connects poolSize lifeTime config)

/-- A session for the caller of `get_session`. -/
def lend (s : Option Session) : SessionPool × List PoolResult :=
  ({ p with lent := p.lent ++ [s] }, [.session s])

/-- `session_pool::get_session` -/
def getSession : SessionPool × List PoolResult :=
  match p.pool with
  | [] => p.lend none
  | front :: _ =>
    if p.poolSize = 1 then p.lend (some front)
    else
      let p := addSession connects p
      { p with pool := p.pool.tail }.lend p.pool.head?

/-- The destructor of a session in use. -/
def release (i : ℕ) : SessionPool × List PoolResult := ({ p with lent := p.lent.eraseIdx i }, [])

/-- `session_pool::on_timer` -/
def onTimer (aborted : Bool) : Except Fault (SessionPool × List PoolResult) := do
  if aborted then .ok (p, [])
  else
    b.check "internal error" (p.size ≤ p.poolSize)
    if p.size = p.poolSize then
      let p := addSession connects p
      if p.pool = [] then .error (.undefined "begin of an empty list")
      else .ok ({ p with pool := p.pool.tail }.startTimer, [])
    else .ok ((addSessions connects (p.poolSize - p.size).toNat p).startTimer, [])

/-- `session_pool::stop` -/
def stop : SessionPool × List PoolResult := ({ p with timer := none, pool := [] }, [])

/-- One call, or one tick of the timer. -/
def step : Step SessionPool PoolOp PoolResult Fault := fun p op =>
  match op with
  | .start poolSize lifeTime config => p.start connects b poolSize lifeTime config
  | .getSession => .ok (p.getSession connects)
  | .release i => .ok (p.release i)
  | .onTimer aborted => p.onTimer connects b aborted
  | .stop => .ok p.stop

end Operations

/-! ### Capacity -/

/-- There are no more sessions in the pool than its size says, and the refill count is what is
missing. -/
structure WithinCapacity (p : SessionPool) : Prop where
  length_le : p.pool.length ≤ p.poolSize.toNat
  refill : p.pool.length + (p.poolSize - p.size).toNat = p.poolSize.toNat

/-- How many of the next connects succeed. -/
def successes (connects : Connects) (ctype : ConnectionType) (config : ParamMap) (first n : ℕ) :
    ℕ :=
  (List.range' first n).countP fun i => ctype.isInstalled && connects i config

/-- Where `start` changes the pool, it finds room for the sessions that it adds. -/
def Room (connects : Connects) (b : Build) (p : SessionPool) : PoolOp → Prop
  | .start poolSize _ config =>
    poolSize ≠ 0 → (p.ctype = .sqlite → b.enabled "pool_size == 1" → poolSize = 1) →
      p.pool.length + (if p.lifeTime < 5 then 0
        else successes connects p.ctype config p.tried poolSize.toNat) ≤ poolSize.toNat
  | _ => True

section Capacity

variable {connects : Connects} {b : Build} {p p' : SessionPool} {n : ℕ}

theorem withinCapacity_iff : p.WithinCapacity ↔ p.pool.length ≤ p.poolSize.toNat := by
  constructor
  · exact fun h => h.length_le
  · intro h
    have hlt := p.poolSize.isLt
    refine ⟨h, ?_⟩
    have hsize : p.size.toNat = p.pool.length := by
      rw [size, BitVec.toNat_ofNat]
      omega
    rw [BitVec.toNat_sub, hsize]
    omega

theorem withinCapacity_initial (ctype : ConnectionType) : (initial ctype).WithinCapacity :=
  withinCapacity_iff.mpr (Nat.zero_le _)

/-! Only the sessions change when some are added. -/

theorem poolSize_addSession : (addSession connects p).poolSize = p.poolSize := by
  unfold addSession
  split_ifs <;> rfl

theorem length_addSession :
    (addSession connects p).pool.length =
      p.pool.length + successes connects p.ctype p.config p.tried 1 := by
  unfold addSession
  split_ifs with h <;> simp [successes, h]

theorem successes_le (connects : Connects) (ctype : ConnectionType) (config : ParamMap)
    (first n : ℕ) :
    successes connects ctype config first n ≤ n := by
  have hle := List.countP_le_length (l := List.range' first n)
    (p := fun i => ctype.isInstalled && connects i config)
  rwa [List.length_range'] at hle

theorem successes_add (ctype : ConnectionType) (config : ParamMap) (first m n : ℕ) :
    successes connects ctype config first (m + n) =
      successes connects ctype config first m +
        successes connects ctype config (first + m) n := by
  rw [successes, successes, successes, ← List.countP_append, List.range'_append_1]

theorem addSessions_fields (connects : Connects) (n : ℕ) (p : SessionPool) :
    (addSessions connects n p).poolSize = p.poolSize ∧
      (addSessions connects n p).pool.length =
        p.pool.length + successes connects p.ctype p.config p.tried n := by
  induction n generalizing p with
  | zero => exact ⟨rfl, rfl⟩
  | succ n ih =>
    obtain ⟨hsize, hlength⟩ := ih (addSession connects p)
    have hfields : (addSession connects p).ctype = p.ctype ∧
        (addSession connects p).config = p.config ∧
        (addSession connects p).tried = p.tried + 1 := by
      unfold addSession
      split_ifs <;> exact ⟨rfl, rfl, rfl⟩
    obtain ⟨hctype, hconfig, htried⟩ := hfields
    refine ⟨hsize.trans poolSize_addSession, ?_⟩
    rw [addSessions, hlength, length_addSession, hctype, hconfig, htried, Nat.add_comm n 1,
      successes_add, Nat.add_assoc]

/-! What each call does to the capacity. -/

theorem withinCapacity_getSession (connects : Connects) (h : p.WithinCapacity) :
    (getSession connects p).1.WithinCapacity := by
  have hle := h.length_le
  unfold getSession
  split
  · exact withinCapacity_iff.mpr hle
  · rename_i front rest hpool
    split_ifs
    · exact withinCapacity_iff.mpr hle
    · -- one session is added, if at all, and one is taken
      refine withinCapacity_iff.mpr ?_
      have hone := successes_le connects p.ctype p.config p.tried 1
      simp only [lend, List.length_tail, length_addSession, poolSize_addSession]
      omega

theorem withinCapacity_onTimer {aborted : Bool} {os : List PoolResult} (h : p.WithinCapacity)
    (hok : p.onTimer connects b aborted = .ok (p', os)) : p'.WithinCapacity := by
  have hle := h.length_le
  rw [onTimer] at hok
  cases aborted with
  | true =>
    cases hok
    exact h
  | false =>
    rw [if_neg Bool.false_ne_true] at hok
    obtain ⟨_, -, hok⟩ := bind_eq_ok_iff.mp hok
    dsimp only at hok
    split_ifs at hok with hsize hempty
    · -- the pool is full, so that what is added is taken away
      cases hok
      refine withinCapacity_iff.mpr ?_
      have hone := successes_le connects p.ctype p.config p.tried 1
      simp only [startTimer, List.length_tail, length_addSession, poolSize_addSession]
      omega
    · cases hok
      refine withinCapacity_iff.mpr ?_
      obtain ⟨hpoolSize, hlength⟩ :=
        addSessions_fields connects (p.poolSize - p.size).toNat p
      have hmost := successes_le connects p.ctype p.config p.tried
        (p.poolSize - p.size).toNat
      have hrefill := h.refill
      simp only [startTimer, hpoolSize, hlength]
      omega

/-- A `start` keeps the capacity exactly when it finds room. -/
theorem withinCapacity_start_iff {poolSize : BitVec 64} {lifeTime : ℤ} {config : ParamMap}
    (h : p.WithinCapacity) :
    (∀ p' os, p.start connects b poolSize lifeTime config = .ok (p', os) → p'.WithinCapacity) ↔
      Room connects b p (.start poolSize lifeTime config) := by
  by_cases hzero : poolSize = 0
  · subst hzero
    refine iff_of_true ?_ fun hne => absurd rfl hne
    intro p' os hok
    cases hok
    exact h
  have hpos : ¬poolSize < 1 := by
    rw [BitVec.lt_def]
    have hne : poolSize.toNat ≠ 0 := fun h0 => hzero (BitVec.eq_of_toNat_eq h0)
    exact fun hlt => hne (Nat.lt_one_iff.mp hlt)
  -- what fill adds decides, also where the assertion does not let it happen
  have hfill : (p.fill connects poolSize lifeTime config).1.WithinCapacity ↔
      p.pool.length + (if p.lifeTime < 5 then 0
        else successes connects p.ctype config p.tried poolSize.toNat) ≤ poolSize.toNat := by
    rw [withinCapacity_iff, fill]
    split_ifs with hlife
    · exact Iff.rfl
    · have hfields := addSessions_fields connects poolSize.toNat
        { p with poolSize, lifeTime, config }
      obtain ⟨hpoolSize, hlength⟩ := hfields
      dsimp only
      split_ifs <;> simp only [startTimer, hpoolSize, hlength]
  constructor
  · intro hkeeps _ hassert
    have hcheck : b.check "pool_size == 1" (p.ctype = .sqlite → poolSize = 1) = .ok () :=
      Build.check_eq_ok_iff.mpr fun henabled hctype => hassert hctype henabled
    refine hfill.mp (hkeeps _ (p.fill connects poolSize lifeTime config).2 ?_)
    rw [start, if_neg hpos, hcheck, ok_bind]
  · intro hroom p' os hok
    rw [start, if_neg hpos] at hok
    obtain ⟨_, hcheck, hok⟩ := bind_eq_ok_iff.mp hok
    have hresult : p.fill connects poolSize lifeTime config = (p', os) := Except.ok.inj hok
    have hassert := Build.check_eq_ok_iff.mp hcheck
    have hwithin := hfill.mpr (hroom hzero fun hctype henabled => hassert henabled hctype)
    rwa [hresult] at hwithin

theorem step_keeps_iff {op : PoolOp} (h : p.WithinCapacity) :
    (∀ p' os, step connects b p op = .ok (p', os) → p'.WithinCapacity) ↔
      Room connects b p op := by
  cases op with
  | start poolSize lifeTime config => exact withinCapacity_start_iff h
  | getSession =>
    refine iff_of_true ?_ trivial
    intro p' os hok
    have hresult : getSession connects p = (p', os) := Except.ok.inj hok
    have hwithin := withinCapacity_getSession connects h
    rwa [hresult] at hwithin
  | release i =>
    refine iff_of_true ?_ trivial
    intro p' os hok
    cases hok
    exact withinCapacity_iff.mpr h.length_le
  | onTimer aborted => exact iff_of_true (fun p' os hok => withinCapacity_onTimer h hok) trivial
  | stop =>
    refine iff_of_true ?_ trivial
    intro p' os hok
    cases hok
    exact withinCapacity_iff.mpr (Nat.zero_le _)

/-- Throughout a run there are no more sessions in the pool than its size says, exactly when
every `start` of the run finds room for what it adds. -/
theorem always_withinCapacity_iff (ctype : ConnectionType) (ops : List PoolOp) :
    Step.Always (step connects b) WithinCapacity (initial ctype) ops ↔
      Step.Guarded (step connects b) (Room connects b) (initial ctype) ops :=
  Step.always_iff_guarded (fun _ _ => step_keeps_iff) (withinCapacity_initial ctype)

/-- There is room in an empty pool: a first `start`, or one after `stop`. -/
theorem room_of_empty {poolSize : BitVec 64} {lifeTime : ℤ} {config : ParamMap}
    (h : p.pool = []) : Room connects b p (.start poolSize lifeTime config) := by
  intro _ _
  rw [h, List.length_nil, Nat.zero_add]
  split_ifs
  · exact Nat.zero_le _
  · exact successes_le _ _ _ _ _

end Capacity

/-- A second `start` puts a second session into a pool of the size one. -/
theorem not_always_withinCapacity :
    ¬Step.Always (step (fun _ _ => true) .debug) WithinCapacity (initial .sqlite)
      [.start 1 120 ⟨[], List.nodup_nil⟩, .start 1 120 ⟨[], List.nodup_nil⟩] := by
  intro h
  have hlength := (h _ List.prefix_rfl _ _ rfl).length_le
  revert hlength
  decide

end SessionPool

end Cyng
