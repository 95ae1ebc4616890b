import Cyng.Db.Sqlite
import Cyng.Parse.Hex
import Cyng.Store.Table

/-!
# Prepared statements

Objects are bound to the placeholders of a statement one after the other; a counter names the
placeholder that is next. Keys and records are pushed object by object, with the width of the
column that the counter points to.

Every object goes to the placeholder of the counter, but NULL goes to the placeholder whose
number is the width of the column. And a key that is pushed on its own is counted twice. Where
no NULL is bound under a width other than its position and no key is pushed on its own, the
objects since the last `clear` stand in the placeholders in order.
-/

namespace Cyng

open Theory

/-! ### Meta data with widths -/

/-- `meta_sql`: the key columns come first. -/
structure MetaSql where
  name : Bytes
  columns : List ColumnSql
  pk : ℕ
  pk_le : pk ≤ columns.length

namespace MetaSql

variable (m : MetaSql)

/-- `meta::null_`: column not found. -/
def nullColumn : ColumnSql := ⟨⟨[], .eod⟩, 0⟩

def size : ℕ := m.columns.length
def keySize : ℕ := m.pk
def bodySize : ℕ := m.size - m.keySize

/-- `meta::get_column` -/
def getColumn (col : ℕ) : ColumnSql := m.columns.getD col nullColumn

/-- `meta::check_key_integrity` -/
def checkKeyIntegrity (key : List Obj) : Prop := key.length = m.keySize

/-- `meta::check_integrity` -/
def checkIntegrity (key data : List Obj) : Prop :=
  m.checkKeyIntegrity key ∧ data.length = m.bodySize

instance (key : List Obj) : Decidable (m.checkKeyIntegrity key) :=
  inferInstanceAs (Decidable (_ = _))

instance (key data : List Obj) : Decidable (m.checkIntegrity key data) :=
  inferInstanceAs (Decidable (_ ∧ _))

end MetaSql

/-! ### Values -/

/-- Texts and numbers that other libraries make: addresses, UUIDs, end points, time stamps and
floating point numbers. Addresses and UUIDs are read back as they were written. -/
structure Formats where
  ip : IpText
  uuidToString : Uuid → Bytes
  stringGenerator : Bytes → Except Fault Uuid
  stringGenerator_uuidToString : ∀ tag, stringGenerator (uuidToString tag) = .ok tag
  length_uuidToString : ∀ tag, (uuidToString tag).length = 36
  endpointToString : Address → BitVec 16 → Bytes
  putTime : BitVec 64 → Bytes
  getTime : Bytes → BitVec 64
  toDouble : (ty : FloatType) → BitVec (8 * ty.size) → BitVec 64
  ofDouble : (ty : FloatType) → BitVec 64 → BitVec (8 * ty.size)

/-- A text with a dash after each of these numbers of characters. -/
def dashed : List ℕ → Bytes → Bytes
  | [], str => str
  | k :: ks, str => str.take k ++ 0x2D :: dashed ks (str.drop k)

theorem length_dashed (ks : List ℕ) (str : Bytes) :
    (dashed ks str).length = str.length + ks.length := by
  induction ks generalizing str with
  | nil => rfl
  | cons k ks ih =>
    have hparts := congrArg List.length (List.take_append_drop k str)
    rw [List.length_append] at hparts
    rw [dashed, List.length_append, List.length_cons, ih, List.length_cons]
    omega

/-- Without its dashes the text is the one it was made from. -/
theorem filter_dashed {str : Bytes} (h : IsHex str) (ks : List ℕ) :
    (dashed ks str).filter (· ≠ 0x2D) = str := by
  have hfilter {s : Bytes} (hs : IsHex s) : s.filter (· ≠ 0x2D) = s :=
    List.filter_eq_self.mpr fun c hc => by
      by_contra hdash
      have hc' := hs c hc
      rw [show c = 0x2D by simpa using hdash] at hc'
      exact absurd hc' (by decide)
  induction ks generalizing str with
  | nil => exact hfilter h
  | cons k ks ih =>
    have htake : IsHex (str.take k) := fun c hc => h c (List.mem_of_mem_take hc)
    have hdrop : IsHex (str.drop k) := fun c hc => h c (List.mem_of_mem_drop hc)
    rw [dashed, List.filter_append, hfilter htake, List.filter_cons_of_neg (by decide), ih hdrop,
      List.take_append_drop]

theorem isHex_hexBytes (bytes : Bytes) : IsHex (hexBytes bytes) := by
  intro c hc
  obtain ⟨byte, -, hmem⟩ := List.mem_flatMap.mp hc
  exact isHex_hexPad_two byte c hmem

/-- UUIDs in groups of 8, 4, 4, 4 and 12 digits; for runs without addresses, end points, time
stamps and floating point numbers. -/
def Formats.uuids : Formats where
  ip := .tagged
  uuidToString tag := dashed [8, 4, 4, 4] (hexBytes tag.val)
  stringGenerator str :=
    let bytes := hexPairs (str.filter (· ≠ 0x2D))
    if h : bytes.length = 16 then .ok ⟨bytes, h⟩ else .error (.exception "string_generator")
  stringGenerator_uuidToString tag := by
    have hbytes : hexPairs ((dashed [8, 4, 4, 4] (hexBytes tag.val)).filter (· ≠ 0x2D)) =
        tag.val := by
      rw [filter_dashed (isHex_hexBytes tag.val), hexPairs_hexBytes]
    simp only [hbytes, tag.property, dite_true]
  length_uuidToString tag := by
    rw [length_dashed, length_hexBytes, tag.property]
    rfl
  endpointToString _ _ := []
  putTime _ := []
  getTime _ := 0
  toDouble _ _ := 0
  ofDouble _ _ := 0

/-- `obis::to_uint64`: the value groups as one number, the first one on top. -/
def Obis.toUint64 (b : Build) (code : Obis) : Except Fault (BitVec 64) := do
  let r := BitVec.ofNat 64 (ofBE code.val)
  b.check "r < 0xFFFFFFFFFFFF" (r.toNat < 0xFFFFFFFFFFFF)
  return r

/-- The value of a small integer as an `int`. -/
def IntType.toInt (ty : IntType) (v : BitVec (8 * ty.size)) : BitVec 32 :=
  match ty with
  | .uint8 | .uint16 | .uint32 | .uint64 => v.setWidth 32
  | .int8 | .int16 | .int32 | .int64 => v.signExtend 32

section Bind

variable (f : Formats) (sq : Sqlite) (b : Build)

/-- A text is bound with its own length. -/
def bindString (str : Bytes) : Except Fault (Option Cell) :=
  .ok (sq.bindText str (toInt str.length))

/-- The overloads of `bind_value`, and the cases of `statement::bind` that have one. -/
def bindValue : Scalar → Except Fault (Option Cell)
  | .bool v => .ok (some (Sqlite.bindInt (if v then 1 else 0)))
  | .int .int64 v => .ok (some (.integer v))
  | .int .uint64 v => .ok (some (.integer v))
  | .int ty v => .ok (some (Sqlite.bindInt (ty.toInt v)))
  | .float ty bits => .ok (some (.real (f.toDouble ty bits)))
  | .string str => bindString sq str
  | .timePoint ticks => do
    let str := f.putTime ticks
    b.check "invalid time format" (str.length = 19)
    bindString sq str
  -- names the template, which binds an `int`
  | .duration .nanoSecond ticks => .ok (some (Sqlite.bindInt (ticks.setWidth 32)))
  | .duration _ ticks => .ok (some (.integer ticks))
  | .buffer buf => sq.bindBlob buf (toInt buf.length)
  | .mac48 address => bindString sq (mac48ToString address)
  | .mac64 address => bindString sq (mac64ToString address)
  | .obis code => do
    let val ← Obis.toUint64 b code
    return some (.integer val)
  | .digest _ digest => bindString sq (hexBytes digest.val)
  | .aesKey _ key => bindString sq (hexBytes key.val)
  | .uuid tag => bindString sq (f.uuidToString tag)
  | .fsPath path => bindString sq path
  | .ipAddress address => bindString sq (f.ip.toString address)
  | .endpoint .tcp address port => bindString sq (f.endpointToString address port)
  | _ => do
    b.check "data type not implemented" False
    return none

/-- The value a placeholder gets for an object. -/
def cellOf : Obj → Except Fault (Option Cell)
  | .scalar .null => .ok (some .null)
  | .scalar v => bindValue f sq b v
  | _ => do
    b.check "data type not implemented" False
    return none

end Bind

/-! ### The statement -/

/-- `statement`, once it is prepared and as long as no row is fetched. -/
structure Statement where
  stmt : Sqlite.Bindings
  bindCounter : ℕ
  staticData : List Obj

/-- Calls that bind. -/
inductive Operation
  | push (obj : Obj) (columnSize : BitVec 64)
  | pushKey (key : List Obj) (m : MetaSql)
  | bind (key data : List Obj) (m : MetaSql)
  | clear

namespace Statement

/-- A statement with that many placeholders, after `prepare`. -/
def prepared (n : ℕ) : Statement := ⟨List.replicate n none, 1, []⟩

/-- Strings and buffers are kept as long as they are bound. -/
def hold (s : Statement) (obj : Obj) : Statement :=
  match obj with
  | .scalar (.string _) | .scalar (.buffer _) => { s with staticData := s.staticData ++ [obj] }
  | _ => s

@[simp] theorem hold_stmt (s : Statement) (obj : Obj) : (s.hold obj).stmt = s.stmt := by
  unfold hold
  split <;> rfl

@[simp] theorem hold_bindCounter (s : Statement) (obj : Obj) :
    (s.hold obj).bindCounter = s.bindCounter := by
  unfold hold
  split <;> rfl

/-- Bind a value to the placeholder of that number. -/
def put (s : Statement) (index : ℤ) (c : Option Cell) : Bool × Statement :=
  match c.bind (Sqlite.put s.stmt index) with
  | some stmt => (true, { s with stmt })
  | none => (false, s)

section Calls

variable (f : Formats) (sq : Sqlite) (b : Build) (s : Statement)

/-- `statement::bind(int, object&, std::size_t)`. The index is not used. -/
def bind (_index : ℕ) (obj : Obj) (columnSize : BitVec 64) : Except Fault (Bool × Statement) :=
  match obj with
  | .scalar .null => .ok (s.put (columnSize.setWidth 32).toInt (some .null))
  | obj => do
    let c ← cellOf f sq b obj
    return (s.hold obj).put s.bindCounter c

/-- `statement::push(object, std::size_t)` -/
def push (obj : Obj) (columnSize : BitVec 64) : Except Fault Statement := do
  b.check "invalid column index" (s.bindCounter ≠ 0)
  let (ok, s) ← s.bind f sq b s.bindCounter obj columnSize
  return if ok then { s with bindCounter := s.bindCounter + 1 } else s

/-- The loops of `bind`: push each object with the width of the column that is next. -/
def pushAll (m : MetaSql) (objs : List Obj) : Except Fault Statement :=
  objs.foldlM (fun s v => s.push f sq b v (m.getColumn (s.bindCounter - 1)).width) s

/-- `statement::bind(key_t const&, meta_sql const&)` -/
def bindKey (key : List Obj) (m : MetaSql) : Except Fault (Bool × Statement) :=
  if m.checkKeyIntegrity key then do
    let s ← s.pushAll f sq b m key
    return (true, s)
  else .ok (false, s)

/-- `statement::push(key_t const&, meta_sql const&)` -/
def pushKey (key : List Obj) (m : MetaSql) : Except Fault Statement := do
  let (ok, s) ← s.bindKey f sq b key m
  return if ok then { s with bindCounter := s.bindCounter + key.length } else s

/-- `statement::bind(key_t const&, data_t const&, meta_sql const&)` -/
def bindRecord (key data : List Obj) (m : MetaSql) : Except Fault (Bool × Statement) := do
  b.check "invalid table structure" (key.length + data.length = m.size)
  b.check "wrong state" (s.bindCounter = 1)
  if m.checkIntegrity key data then
    let (_, s) ← s.bindKey f sq b key m
    let s ← s.pushAll f sq b m data
    return (true, s)
  else return (false, s)

/-- `statement::clear` -/
def clear : Statement := prepared s.stmt.length

/-- One call. -/
def step : Step Statement Operation Unit Fault := fun s op =>
  match op with
  | .push obj columnSize => do
    let s ← s.push f sq b obj columnSize
    return (s, [])
  | .pushKey key m => do
    let s ← s.pushKey f sq b key m
    return (s, [])
  | .bind key data m => do
    let (_, s) ← s.bindRecord f sq b key data m
    return (s, [])
  | .clear => .ok (s.clear, [])

end Calls

/-! ### Positions -/

/-- The objects that were pushed since the last `clear`. -/
def note (pushed : List Obj) : Operation → List Obj
  | .push obj _ => pushed ++ [obj]
  | .pushKey key _ => pushed ++ key
  | .bind key data _ => pushed ++ (key ++ data)
  | .clear => []

section Positions

variable (f : Formats) (sq : Sqlite) (b : Build)

/-- There is a placeholder left, SQLite takes the value, and NULL comes with the number of the
placeholder for its width. -/
structure Accepts (n counter : ℕ) (obj : Obj) (columnSize : BitVec 64) : Prop where
  room : counter ≤ n
  taken : ∃ c, cellOf f sq b obj = .ok (some c)
  null : obj = .scalar .null → (columnSize.setWidth 32).toInt = counter

/-- Objects are accepted at their places, and keys come with their records only. -/
def Positional (s : Statement) : Operation → Prop
  | .push obj columnSize => Accepts f sq b s.stmt.length s.bindCounter obj columnSize
  | .pushKey key _ => key = []
  | .bind key data m => m.checkIntegrity key data ∧
    ∀ (i : ℕ) obj, (key ++ data)[i]? = some obj →
      Accepts f sq b s.stmt.length (s.bindCounter + i) obj
        (m.getColumn (s.bindCounter + i - 1)).width
  | .clear => True

/-- The objects stand in the placeholders in order, and nothing else does. -/
structure Placed (n : ℕ) (pushed : List Obj) (s : Statement) : Prop where
  size : s.stmt.length = n
  counter : s.bindCounter = 1 + pushed.length
  bound : ∀ (k : ℕ) obj, pushed[k]? = some obj →
    ∃ c, cellOf f sq b obj = .ok (some c) ∧ s.stmt[k]? = some (some c)
  free : ∀ k, pushed.length ≤ k → k < n → s.stmt[k]? = some none

variable {f sq b} {n : ℕ} {pushed : List Obj} {s s' : Statement} {obj : Obj}
  {columnSize : BitVec 64}

theorem placed_prepared : Placed f sq b n [] (prepared n) where
  size := List.length_replicate
  counter := rfl
  bound k obj h := by simp at h
  free k _ hk := by simp [prepared, hk]

theorem bind_of_ne_null (index : ℕ) (hobj : obj ≠ .scalar .null) :
    s.bind f sq b index obj columnSize =
      (cellOf f sq b obj >>= fun c => .ok ((s.hold obj).put s.bindCounter c)) := by
  unfold bind
  split
  · exact absurd rfl hobj
  · rfl

/-- An object that is accepted goes to the placeholder of the counter. -/
theorem bind_of_accepts (index : ℕ) (hpos : 1 ≤ s.bindCounter)
    (accepts : Accepts f sq b s.stmt.length s.bindCounter obj columnSize) :
    ∃ c, cellOf f sq b obj = .ok (some c) ∧
      s.bind f sq b index obj columnSize = .ok (true,
        { s.hold obj with stmt := s.stmt.set (s.bindCounter - 1) (some c) }) := by
  obtain ⟨room, ⟨c, hc⟩, hnull⟩ := accepts
  refine ⟨c, hc, ?_⟩
  have hput : Sqlite.put s.stmt s.bindCounter c = some (s.stmt.set (s.bindCounter - 1) (some c)) :=
    Sqlite.put_eq_some_iff.mpr ⟨⟨by exact_mod_cast hpos, by exact_mod_cast room⟩, rfl⟩
  by_cases hobj : obj = .scalar .null
  · subst hobj
    obtain rfl : Cell.null = c := Option.some.inj (Except.ok.inj hc)
    simp [bind, put, hnull rfl, hput, hold]
  · rw [bind_of_ne_null index hobj, hc]
    simp [put, hput]

theorem placed_push (placed : Placed f sq b n pushed s)
    (accepts : Accepts f sq b s.stmt.length s.bindCounter obj columnSize)
    (h : s.push f sq b obj columnSize = .ok s') : Placed f sq b n (pushed ++ [obj]) s' := by
  obtain ⟨size, counter, bound, free⟩ := placed
  obtain ⟨c, hc, hbind⟩ := bind_of_accepts s.bindCounter (by omega) accepts
  obtain ⟨_, -, hpush⟩ := bind_eq_ok_iff.mp h
  rw [hbind] at hpush
  obtain rfl := Except.ok.inj hpush
  have hroom : pushed.length < n := by
    have := accepts.room
    omega
  have hslot : s.bindCounter - 1 = pushed.length := by omega
  refine ⟨?_, ?_, ?_, ?_⟩
  · simp [size]
  · simp only [if_true, hold_bindCounter, counter, List.length_append, List.length_singleton]
    omega
  · intro k obj' hk
    rw [hslot]
    -- the parameters before are kept, the next one is new
    rcases Nat.lt_or_ge k pushed.length with hlt | hge
    · rw [List.getElem?_append_left hlt] at hk
      obtain ⟨c', hc', hstmt⟩ := bound k obj' hk
      exact ⟨c', hc', by simp [List.getElem?_set_ne (Nat.ne_of_gt hlt), hstmt]⟩
    · obtain rfl : k = pushed.length := by
        have := (List.getElem?_eq_some_iff.mp hk).1
        rw [List.length_append, List.length_singleton] at this
        omega
      obtain rfl : obj = obj' := by simpa using hk
      exact ⟨c, hc, by simp [size, hroom]⟩
  · intro k hle hk
    rw [List.length_append, List.length_singleton] at hle
    rw [hslot]
    have hne : pushed.length ≠ k := by omega
    simp [List.getElem?_set_ne hne, free k (by omega) hk]

theorem placed_pushAll {m : MetaSql} {objs : List Obj} (placed : Placed f sq b n pushed s)
    (accepts : ∀ (i : ℕ) obj, objs[i]? = some obj →
      Accepts f sq b s.stmt.length (s.bindCounter + i) obj
        (m.getColumn (s.bindCounter + i - 1)).width)
    (h : s.pushAll f sq b m objs = .ok s') : Placed f sq b n (pushed ++ objs) s' := by
  induction objs generalizing pushed s with
  | nil =>
    obtain rfl : s = s' := Except.ok.inj h
    rwa [List.append_nil]
  | cons obj objs ih =>
    obtain ⟨t, hpush, hrest⟩ := bind_eq_ok_iff.mp h
    have ht : Placed f sq b n (pushed ++ [obj]) t := placed_push placed (accepts 0 obj rfl) hpush
    have hsize : t.stmt.length = s.stmt.length := ht.size.trans placed.size.symm
    have hcounter : t.bindCounter = s.bindCounter + 1 := by
      rw [ht.counter, placed.counter, List.length_append, List.length_singleton, Nat.add_assoc]
    have htail := ih ht (fun i obj' hi => by
      have hstep := accepts (i + 1) obj' hi
      rwa [hsize, hcounter, Nat.add_assoc, Nat.add_comm 1 i]) hrest
    rwa [List.append_assoc] at htail

/-- The step lemma: a positional call leaves the objects in order. -/
theorem placed_step {op : Operation} {os : List Unit} (placed : Placed f sq b n pushed s)
    (positional : Positional f sq b s op) (h : s.step f sq b op = .ok (s', os)) :
    Placed f sq b n (note pushed op) s' := by
  cases op with
  | push obj columnSize =>
    obtain ⟨t, hpush, hret⟩ := bind_eq_ok_iff.mp h
    obtain ⟨rfl, -⟩ := Prod.mk.inj (Except.ok.inj hret)
    exact placed_push placed positional hpush
  | pushKey key m =>
    obtain rfl : key = [] := positional
    obtain ⟨t, hpush, hret⟩ := bind_eq_ok_iff.mp h
    obtain ⟨rfl, -⟩ := Prod.mk.inj (Except.ok.inj hret)
    -- nothing is pushed, and nothing is counted twice
    have hsame : t = s := by
      unfold pushKey bindKey at hpush
      split_ifs at hpush
      · exact (Except.ok.inj hpush).symm
      · exact (Except.ok.inj hpush).symm
    rw [hsame, note, List.append_nil]
    exact placed
  | bind key data m =>
    obtain ⟨sizes, accepts⟩ := positional
    obtain ⟨⟨ok, t⟩, hrecord, hret⟩ := bind_eq_ok_iff.mp h
    obtain ⟨rfl, -⟩ := Prod.mk.inj (Except.ok.inj hret)
    obtain ⟨_, -, hrest⟩ := bind_eq_ok_iff.mp hrecord
    obtain ⟨_, -, hrest⟩ := bind_eq_ok_iff.mp hrest
    rw [if_pos sizes] at hrest
    obtain ⟨⟨_, u⟩, hkey, hrest⟩ := bind_eq_ok_iff.mp hrest
    obtain ⟨v, hdata, hret⟩ := bind_eq_ok_iff.mp hrest
    obtain ⟨-, rfl⟩ := Prod.mk.inj (Except.ok.inj hret)
    rw [bindKey, if_pos sizes.1] at hkey
    obtain ⟨w, hall, hret⟩ := bind_eq_ok_iff.mp hkey
    obtain ⟨-, rfl⟩ := Prod.mk.inj (Except.ok.inj hret)
    have hu : Placed f sq b n (pushed ++ key) w := by
      refine placed_pushAll placed (fun i obj hi => accepts i obj ?_) hall
      rw [List.getElem?_append_left (List.getElem?_eq_some_iff.mp hi).1]
      exact hi
    have hsize : w.stmt.length = s.stmt.length := hu.size.trans placed.size.symm
    have hcounter : w.bindCounter = s.bindCounter + key.length := by
      rw [hu.counter, placed.counter, List.length_append, Nat.add_assoc]
    rw [note, ← List.append_assoc]
    refine placed_pushAll hu (fun i obj hi => ?_) hdata
    have hplace := accepts (key.length + i) obj (by
      rw [List.getElem?_append_right (Nat.le_add_right _ _), Nat.add_sub_cancel_left]
      exact hi)
    rwa [hsize, hcounter, Nat.add_assoc]
  | clear =>
    obtain ⟨rfl, -⟩ := Prod.mk.inj (Except.ok.inj h)
    rw [note, clear, placed.size]
    exact placed_prepared

/-- The objects that were pushed since the last `clear` stand in the first placeholders, in
order, and the counter names the next one. -/
theorem positional_binding {ops : List Operation} {os : List Unit}
    (positional : Step.Guarded (step f sq b) (Positional f sq b) (prepared n) ops)
    (h : Step.run (step f sq b) (prepared n) ops = .ok (s', os)) :
    Placed f sq b n (ops.foldl note []) s' := by
  have hstep : ∀ s pushed op s' os, Placed f sq b n pushed s → Positional f sq b s op →
      step f sq b s op = .ok (s', os) → Placed f sq b n (note pushed op) s' :=
    fun _ _ _ _ _ => placed_step
  exact Step.run_history hstep placed_prepared positional h

end Positions

/-- A table with a key and one more column. -/
def sampleMeta : MetaSql where
  name := []
  columns := [⟨⟨[0x61], .uint64⟩, 0⟩, ⟨⟨[0x62], .string⟩, 16⟩]
  pk := 1
  pk_le := by decide

/-- A record with NULL in the second column, which has the width 2 here. -/
def sampleOperations : List Operation :=
  [.bind [.size 7] [.scalar (.string [0x78])] sampleMeta, .clear, .push (.size 1) 0,
    .push (.scalar .null) 2]

theorem positional_sampleOperations :
    Step.Guarded (step .uuids .small .debug) (Positional .uuids .small .debug) (prepared 2)
      sampleOperations := by
  refine (Step.guarded_cons_of_ok rfl).mpr ⟨⟨by decide, ?_⟩, ?_⟩
  · intro i obj hi
    match i with
    | 0 =>
      obtain rfl : Obj.size 7 = obj := Option.some.inj hi
      exact ⟨by decide, ⟨_, rfl⟩, by simp⟩
    | 1 =>
      obtain rfl : Obj.scalar (.string [0x78]) = obj := Option.some.inj hi
      exact ⟨by decide, ⟨_, rfl⟩, by simp⟩
    | i + 2 => cases hi
  refine (Step.guarded_cons_of_ok rfl).mpr ⟨trivial, ?_⟩
  refine (Step.guarded_cons_of_ok rfl).mpr ⟨⟨by decide, ⟨_, rfl⟩, by simp⟩, ?_⟩
  exact (Step.guarded_cons_of_ok rfl).mpr ⟨⟨by decide, ⟨_, rfl⟩, fun _ => rfl⟩, trivial⟩

theorem positional_binding_sampleOperations :
    ∃ s' os, Step.run (step .uuids .small .debug) (prepared 2) sampleOperations =
        .ok (s', os) ∧
      Placed .uuids .small .debug 2 [.size 1, .scalar .null] s' :=
  ⟨_, _, rfl, positional_binding positional_sampleOperations rfl⟩

/-- A NULL whose column has no width is refused and not counted, so that the next object takes
its place; and a key of one column is counted as two. -/
theorem not_positional_binding :
    (¬ ∀ s' os, Step.run (step .uuids .small .debug) (prepared 2)
          [.push (.scalar .null) 0, .push (.size 1) 0] = .ok (s', os) →
        Placed .uuids .small .debug 2 [.scalar .null, .size 1] s') ∧
      ¬ ∀ s' os, Step.run (step .uuids .small .debug) (prepared 2)
          [.pushKey [.size 7] sampleMeta] = .ok (s', os) →
        Placed .uuids .small .debug 2 [.size 7] s' := by
  constructor
  · intro hall
    have hcounter := (hall _ _ rfl).counter
    exact absurd hcounter (by decide)
  · intro hall
    have hcounter := (hall _ _ rfl).counter
    exact absurd hcounter (by decide)

end Statement

end Cyng
