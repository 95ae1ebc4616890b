import Cyng.Obj.Hash

/-!
# The stack of the virtual machine

The stack is a deque of objects whose back is the top, and a base pointer that marks the
start of the current frame. The instructions that build an object take its parts from the
top; the parts of a container stand below their count.
-/

namespace Cyng

open Theory

/-- `stack`: the objects from bottom to top, and the base pointer. -/
@[ext]
structure Stack where
  items : List Obj
  bp : BitVec 64

namespace Stack

/-- `s_.size()`. -/
def size (s : Stack) : BitVec 64 := BitVec.ofNat 64 s.items.length

/-- `stack::push`. -/
def push (s : Stack) (o : Obj) : Stack := { s with items := s.items ++ [o] }

/-! ### Casts

`object_cast<T>` of the types that the stack takes from its top.
-/

def asSize : Obj → Option (BitVec 64)
  | .scalar (.int .uint64 v) => some v
  | _ => none

def asString : Obj → Option Bytes
  | .scalar (.string str) => some str
  | _ => none

def asObis : Obj → Option Obis
  | .scalar (.obis code) => some code
  | _ => none

def asUuid : Obj → Option (Octets 16)
  | .scalar (.uuid tag) => some tag
  | _ => none

def asBuffer : Obj → Option Bytes
  | .scalar (.buffer buf) => some buf
  | _ => none

/-- `attr_t`, `param_t` or `prop_t`. -/
def asPair (kind : KeyKind) : Obj → Option (Key × Obj)
  | .pair key value => if key.kind = kind then some (key, value) else none
  | _ => none

/-- `tuple_t`, `vector_t` or `deque_t`. -/
def asSeq (kind : SeqKind) : Obj → Option (List Obj)
  | .seq kind' items => if kind' = kind then some items else none
  | _ => none

/-- The key type of a kind of pairs. -/
def asKey : KeyKind → Obj → Option Key
  | .index, o => (asSize o).map .index
  | .name, o => (asString o).map .name
  | .code, o => (asObis o).map .code

/-- The default value of a key type. -/
def defaultKey : KeyKind → Key
  | .index => .index 0
  | .name => .name []
  | .code => .code (Octets.zero 6)

/-- The default value of a kind of pairs. -/
def defaultPair (kind : KeyKind) : Key × Obj := (defaultKey kind, .scalar .null)

section Access

variable (b : Build)

/-- `stack::top`. -/
def top (s : Stack) : Except Fault Obj := do
  b.check "!s_.empty()" (s.items ≠ [])
  match s.items.getLast? with
  | some o => .ok o
  | none => .error (.undefined "back of an empty deque")

/-- `stack::pop`. -/
def pop (s : Stack) : Except Fault Stack := do
  b.check "!s_.empty()" (s.items ≠ [])
  if s.items = [] then .error (.undefined "pop_back of an empty deque")
  else .ok { s with items := s.items.dropLast }

/-- `stack::remove`. -/
def remove (s : Stack) : Except Fault (Obj × Stack) :=
  match s.items.getLast? with
  | some o => do .ok (o, ← s.pop b)
  | none => .error (.undefined "back of an empty deque")

/-- `stack::top_value`: the default value stands in for a top of another type. -/
def topValue {T : Type} (cast : Obj → Option T) (default : T) (s : Stack) : Except Fault T := do
  let o ← s.top b
  b.check "wrong type" ((cast o).isSome = true)
  .ok ((cast o).getD default)

/-- `stack::pop_value`. -/
def popValue {T : Type} (cast : Obj → Option T) (default : T) (s : Stack) :
    Except Fault (T × Stack) := do
  let v ← topValue b cast default s
  .ok (v, ← s.pop b)

end Access

section AccessLemmas

variable (b : Build) (s : Stack) (o : Obj)

@[simp] theorem items_push : (s.push o).items = s.items ++ [o] := rfl

@[simp] theorem bp_push : (s.push o).bp = s.bp := rfl

theorem top_push : (s.push o).top b = .ok o := by
  simp [top, Build.check_of]

theorem pop_push : (s.push o).pop b = .ok s := by
  simp [pop, push, Build.check_of]

theorem remove_push : (s.push o).remove b = .ok (o, s) := by
  simp only [remove, items_push, List.getLast?_concat, pop_push, ok_bind]

variable {T : Type} {cast : Obj → Option T} {x : T}

theorem topValue_push (h : cast o = some x) (default : T) :
    topValue b cast default (s.push o) = .ok x := by
  rw [topValue, top_push, ok_bind, h, Build.check_of (by simp), ok_bind, Option.getD_some]

theorem popValue_push (h : cast o = some x) (default : T) :
    popValue b cast default (s.push o) = .ok (x, s) := by
  rw [popValue, topValue_push b s o h, ok_bind, pop_push, ok_bind]

end AccessLemmas

section Build

variable (b : Build)

/-- `stack::make_attr`, `stack::make_param` and `stack::make_prop`. -/
def makePair (kind : KeyKind) (text : String) (s : Stack) : Except Fault Stack := do
  b.check text (1 < s.items.length)
  let (key, s) ← popValue b (asKey kind) (defaultKey kind) s
  let (value, s) ← s.remove b
  .ok (s.push (.pair key value))

def makeAttr : Stack → Except Fault Stack := makePair b .index "not enough parameters (attr)"
def makeParam : Stack → Except Fault Stack := makePair b .name "not enough parameters (param)"
def makeProp : Stack → Except Fault Stack := makePair b .code "not enough parameters (prop)"

/-- The loop of a container: as many elements as the count says, top first. -/
def popMany {T : Type} (step : Stack → Except Fault (T × Stack)) :
    ℕ → Stack → Except Fault (List T × Stack)
  | 0, s => .ok ([], s)
  | n + 1, s => do
    let (x, s) ← step s
    let (xs, s) ← popMany step n s
    .ok (x :: xs, s)

/-- The element count of a container; there must be enough elements below it. The number
of objects that the first assertion asks for is given. -/
def takeCount (text : String) (least : ℕ) (s : Stack) : Except Fault (BitVec 64 × Stack) := do
  b.check text (least < s.items.length)
  let size ← topValue b asSize 0 s
  b.check text (size.toNat < s.items.length)
  .ok (size, ← s.pop b)

/-- `stack::make_attr_map`, `stack::make_param_map` and `stack::make_prop_map`. -/
def makeMap (kind : KeyKind) (text : String) (least : ℕ) (s : Stack) : Except Fault Stack := do
  let (size, s) ← takeCount b text least s
  let (entries, s) ← popMany (popValue b (asPair kind) (defaultPair kind)) size.toNat s
  -- `insert` keeps the entry that is there, and the elements come top first
  .ok (s.push (.map kind (OrderedMap.ofEntries entries.reverse)))

-- the attribute map asks for one object more than its siblings
def makeAttrMap : Stack → Except Fault Stack :=
  makeMap b .index "not enough parameters (attr_map)" 1
def makeParamMap : Stack → Except Fault Stack :=
  makeMap b .name "not enough parameters (param_map)" 0
def makePropMap : Stack → Except Fault Stack :=
  makeMap b .code "not enough parameters (prop_map)" 0

/-- `std::move(top())` followed by `pop()`. -/
def moveTop (s : Stack) : Except Fault (Obj × Stack) := do
  let o ← s.top b
  .ok (o, ← s.pop b)

/-- `stack::make_tuple` and `stack::make_deque`. -/
def makeSeq (kind : SeqKind) (text : String) (s : Stack) : Except Fault Stack := do
  let (size, s) ← takeCount b text 0 s
  let (items, s) ← popMany (moveTop b) size.toNat s
  .ok (s.push (.seq kind items))

def makeTuple : Stack → Except Fault Stack := makeSeq b .tuple "not enough parameters (tuple)"
def makeDeque : Stack → Except Fault Stack := makeSeq b .deque "not enough parameters (deque)"

/-- `stack::make_vector`: like its siblings, after a `reserve`. -/
def makeVector (s : Stack) : Except Fault Stack := do
  let (size, s) ← takeCount b "not enough parameters (vector)" 0 s
  if size.toNat ≤ objectMaxCount then
    let (items, s) ← popMany (moveTop b) size.toNat s
    .ok (s.push (.seq .vector items))
  else .error (.exception "std::length_error")

/-- One element of a program. -/
def moveBuffer (s : Stack) : Except Fault (Bytes × Stack) := do
  let o ← s.top b
  b.check "not a buffer (prg)" (o.typeCode = .buffer)
  .ok ((asBuffer o).getD [], ← s.pop b)

/-- `stack::make_prg`. -/
def makePrg (s : Stack) : Except Fault Stack := do
  let (size, s) ← takeCount b "not enough parameters (prg)" 0 s
  let (bufs, s) ← popMany (moveBuffer b) size.toNat s
  .ok (s.push (.prg bufs))

/-- Push many objects, the first one first. -/
def pushAll (s : Stack) (os : List Obj) : Stack := { s with items := s.items ++ os }

@[simp] theorem pushAll_nil (s : Stack) : s.pushAll [] = s := by
  simp [pushAll]

theorem pushAll_concat (s : Stack) (os : List Obj) (o : Obj) :
    s.pushAll (os ++ [o]) = (s.pushAll os).push o := by
  simp [pushAll, push]

theorem pushAll_cons (s : Stack) (o : Obj) (os : List Obj) :
    s.pushAll (o :: os) = (s.push o).pushAll os := by
  simp [pushAll, push]

/-- The elements come off in reversed order. -/
theorem popMany_pushAll {T : Type} (step : Stack → Except Fault (T × Stack)) (f : T → Obj)
    (xs : List T) (s : Stack) (hstep : ∀ x ∈ xs, ∀ s, step (s.push (f x)) = .ok (x, s)) :
    popMany step xs.length (s.pushAll (xs.map f)) = .ok (xs.reverse, s) := by
  induction xs using List.reverseRecOn with
  | nil => simp [popMany]
  | append_singleton xs x ih =>
    have hlast := hstep x (by simp) (s.pushAll (xs.map f))
    have hrest := ih fun y hy => hstep y (by simp [hy])
    rw [List.map_append, List.map_singleton, pushAll_concat, List.length_append,
      List.length_singleton, popMany, hlast, ok_bind]
    simp only [hrest, ok_bind, List.reverse_append, List.reverse_singleton,
      List.singleton_append]

theorem makePair_push (key : Key) (text : String) (s : Stack) (value : Obj) :
    makePair b key.kind text ((s.push value).push (.scalar key.toScalar)) =
      .ok (s.push (.pair key value)) := by
  have hkey : asKey key.kind (.scalar key.toScalar) = some key := by
    cases key <;> rfl
  rw [makePair, Build.check_of (by simp), ok_bind, popValue_push b _ _ hkey, ok_bind]
  simp only [remove_push, ok_bind]

/-- The count of a container is taken when the elements stand below it. -/
theorem takeCount_push (text : String) (least : ℕ) {n : ℕ} {s : Stack} (hn : n < 2 ^ 64)
    (hsize : n ≤ s.items.length)
    (hleast : b.enabled text = true → least ≤ s.items.length) :
    takeCount b text least (s.push (.size n)) = .ok (BitVec.ofNat 64 n, s) := by
  have hnat : (BitVec.ofNat 64 n).toNat = n := Nat.mod_eq_of_lt hn
  have hfirst : b.check text (least < (s.push (.size n)).items.length) = .ok () := by
    refine Build.check_eq_ok_iff.mpr fun hb => ?_
    have := hleast hb
    simp only [items_push, List.length_append, List.length_singleton]
    omega
  rw [takeCount, hfirst, ok_bind, topValue_push b s _ (x := BitVec.ofNat 64 n) rfl, ok_bind, hnat,
    Build.check_of (by simp; omega), ok_bind, pop_push, ok_bind]

theorem makeMap_pushAll {kind : KeyKind} {text : String} {least : ℕ} {s : Stack}
    {entries : List (Key × Obj)} (hkind : ∀ e ∈ entries, e.1.kind = kind)
    (hsorted : OrderedMap.Sorted entries) (hlen : entries.length < 2 ^ 64)
    (hleast : b.enabled text = true → least ≤ s.items.length + entries.length) :
    makeMap b kind text least
        ((s.pushAll (entries.map fun e => .pair e.1 e.2)).push (.size entries.length)) =
      .ok (s.push (.map kind entries)) := by
  have hnat : (BitVec.ofNat 64 entries.length).toNat = entries.length := Nat.mod_eq_of_lt hlen
  have htake := takeCount_push b text least
    (s := s.pushAll (entries.map fun e => .pair e.1 e.2)) hlen (by simp [pushAll])
    (by simpa [pushAll] using hleast)
  have hpop := popMany_pushAll (popValue b (asPair kind) (defaultPair kind))
    (fun e => .pair e.1 e.2) entries s
    fun e he t => popValue_push b t (.pair e.1 e.2) (by simp [asPair, hkind e he]) _
  rw [makeMap, htake, ok_bind]
  simp only [hnat, hpop, ok_bind, List.reverse_reverse, OrderedMap.ofEntries_of_sorted hsorted]

theorem popMany_moveTop (items : List Obj) (s : Stack) :
    popMany (moveTop b) items.length (s.pushAll items) = .ok (items.reverse, s) := by
  simpa using popMany_pushAll (moveTop b) id items s fun o _ t => by
    rw [moveTop, id, top_push, ok_bind, pop_push, ok_bind]

theorem makeSeq_pushAll {kind : SeqKind} {text : String} {s : Stack} {items : List Obj}
    (hlen : items.length < 2 ^ 64) :
    makeSeq b kind text ((s.pushAll items).push (.size items.length)) =
      .ok (s.push (.seq kind items.reverse)) := by
  have hnat : (BitVec.ofNat 64 items.length).toNat = items.length := Nat.mod_eq_of_lt hlen
  have htake := takeCount_push b text 0 (s := s.pushAll items) hlen
    (by simp [pushAll]) fun _ => Nat.zero_le _
  have hpop := popMany_moveTop b items s
  rw [makeSeq, htake, ok_bind]
  simp only [hnat, hpop, ok_bind]

theorem makeVector_pushAll {s : Stack} {items : List Obj} (hlen : items.length ≤ objectMaxCount) :
    makeVector b ((s.pushAll items).push (.size items.length)) =
      .ok (s.push (.seq .vector items.reverse)) := by
  have hmax : objectMaxCount < 2 ^ 64 := by decide
  have hnat : (BitVec.ofNat 64 items.length).toNat = items.length := Nat.mod_eq_of_lt (by omega)
  have htake := takeCount_push b "not enough parameters (vector)" 0
    (s := s.pushAll items) (n := items.length) (by omega) (by simp [pushAll])
    fun _ => Nat.zero_le _
  have hpop := popMany_moveTop b items s
  rw [makeVector, htake, ok_bind]
  simp only [hnat, if_pos hlen, hpop, ok_bind]

theorem makePrg_pushAll {s : Stack} {bufs : List Bytes} (hlen : bufs.length < 2 ^ 64) :
    makePrg b ((s.pushAll (bufs.map fun buf => .scalar (.buffer buf))).push (.size bufs.length)) =
      .ok (s.push (.prg bufs.reverse)) := by
  have hnat : (BitVec.ofNat 64 bufs.length).toNat = bufs.length := Nat.mod_eq_of_lt hlen
  have htake := takeCount_push b "not enough parameters (prg)" 0
    (s := s.pushAll (bufs.map fun buf => .scalar (.buffer buf))) hlen (by simp [pushAll])
    fun _ => Nat.zero_le _
  have hpop := popMany_pushAll (moveBuffer b) (fun buf => .scalar (.buffer buf)) bufs s
    fun buf _ t => by
      have hcode : (Obj.scalar (.buffer buf)).typeCode = .buffer := rfl
      rw [moveBuffer, top_push, ok_bind, Build.check_of hcode, ok_bind, pop_push]
      rfl
  rw [makePrg, htake, ok_bind]
  simp only [hnat, hpop, ok_bind]

end Build

section Frames

variable (b : Build)

/-- `stack::esba`. -/
def esba (s : Stack) : Stack :=
  { s.push (.scalar (.uint64 s.bp)) with bp := s.size }

/-- `stack::saved_bp`. -/
def savedBp (s : Stack) : Except Fault (BitVec 64) := do
  b.check "bp_ < s_.size()" (s.bp.toNat < s.items.length)
  match s.items[s.bp.toNat]? with
  | some o => .ok ((asSize o).getD 0)
  | none => .error (.exception "std::out_of_range")

/-- `stack::reba`. -/
def reba (s : Stack) : Except Fault Stack := do
  let bp' ← s.savedBp b
  b.check "bp < bp_" (s.bp < bp')
  b.check "s_.size() > bp_" (bp'.toNat < s.items.length)
  -- `resize` fills up with null objects where the stack is shorter
  .ok ⟨(s.items.take s.bp.toNat).rightpad s.bp.toNat (.scalar .null), bp'⟩

/-- `stack::pull`. -/
def pull (s : Stack) : Except Fault Stack := do
  let bp' ← s.savedBp b
  b.check "s_.size() > bp" (s.bp.toNat < s.items.length)
  if s.bp.toNat < s.items.length then .ok ⟨s.items.eraseIdx s.bp.toNat, bp'⟩
  else .error (.undefined "erase behind the end of a deque")

/-- `stack::frm`. -/
def frm (s : Stack) : Except Fault Stack := do
  b.check "invalid frame" (s.bp.toNat < s.items.length)
  .ok (s.push (.scalar (.uint64 (s.size - s.bp - 1))))

end Frames

section Elements

variable (b : Build)

/-- `stack::disassemble`. -/
def disassemble (kind : SeqKind) (s : Stack) : Except Fault Stack := do
  let c ← topValue b (asSeq kind) [] s
  let s ← s.pop b
  .ok ((c.foldl push s).push (.size c.length))

/-- `stack::split`. -/
def split (s : Stack) : Except Fault Stack := do
  b.check "not enough parameters (split)" (s.items ≠ [])
  let o ← s.top b
  match o.typeCode with
  | .tuple => disassemble b .tuple s
  | .vector => disassemble b .vector s
  | .deque => disassemble b .deque s
  | _ => do
    b.check "not a container class (explode)" False
    .ok s

/-- `stack::swap`. -/
def swap (s : Stack) : Except Fault Stack := do
  b.check "not enough parameters (swap)" (1 < s.items.length)
  match s.items.reverse with
  | last :: beforeLast :: rest =>
    .ok { s with items := (beforeLast :: last :: rest).reverse }
  | _ => .error (.undefined "swap of missing elements")

/-- `stack::assert_type`. No leaf type of the model is a type code, so the top is never
one. -/
def assertType (s : Stack) : Except Fault Stack := do
  b.check "not enough parameters (assert_type)" (1 < s.items.length)
  let (tag, s) ← popValue b (fun _ => none) TypeCode.null s
  if b.enabled "ASSERT_TYPE" then
    let o ← s.top .release
    b.check "ASSERT_TYPE" (o.typeCode = tag)
    .ok s
  else .ok s

/-- `stack::assert_value`. -/
def assertValue (hasher : Hasher) (s : Stack) : Except Fault Stack := do
  b.check "not enough parameters (assert_value)" (1 < s.items.length)
  let (o, s) ← s.remove b
  if b.enabled "ASSERT_VALUE" then
    let o' ← s.top .release
    b.check "ASSERT_VALUE" (o.hash hasher = o'.hash hasher)
    .ok s
  else .ok s

end Elements

section Calls

variable (b : Build)

/-- `stack::invoke`: the name and the arguments of a call, in the order they were
pushed. -/
def invoke (s : Stack) : Except Fault ((Bytes × List Obj) × Stack) := do
  b.check "not enough parameters (invoke)" (1 < s.items.length)
  let (name, s) ← popValue b asString [] s
  let s ← makeTuple b s
  let (tpl, s) ← popValue b (asSeq .tuple) [] s
  .ok ((name, tpl.reverse), s)

/-- `stack::invoke_r`. -/
def invokeR (s : Stack) : Except Fault ((BitVec 64 × List Obj) × Stack) := do
  b.check "not enough parameters (invoke)" (1 < s.items.length)
  let id ← topValue b asSize 0 s
  b.check "method not found" (id ≠ BitVec.allOnes 64)
  let s ← s.pop b
  let s ← makeTuple b s
  let tpl ← topValue b (asSeq .tuple) [] s
  let s ← s.pop b
  .ok ((id, tpl.reverse), s)

/-- `stack::forward`. -/
def forward (s : Stack) : Except Fault (Octets 16 × Stack) := do
  let tag ← topValue b asUuid (Octets.zero 16) s
  b.check "forward tag is nil" (tag ≠ Octets.zero 16)
  .ok (tag, ← s.pop b)

end Calls

end Stack

end Cyng
