import Cyng.Obj.Intrinsics
import Cyng.Theory.OrderedMap
import Mathlib.Order.Lex
import Mathlib.Data.List.Lex

/-!
# Objects

An object is a leaf, a pair of a key and an object, an ordered map of such pairs, a
sequence of objects, or a program, which is a sequence of buffers. Pairs and maps
come in three kinds, one for each key type; sequences come in three kinds as well.

The C++ values behind an object have limits of their own: no string is longer than
a string can be, and the entries of a `std::map` ascend. `Object` is an object tree
together with these facts.
-/

namespace Cyng

open Theory

/-- The key types of `attr_t`, `param_t` and `prop_t`. -/
inductive KeyKind
  | index | name | code
deriving DecidableEq, Repr

/-- A key of an attribute, a parameter or a property. -/
inductive Key
  | index (i : BitVec 64)
  | name (n : Bytes)
  | code (c : Obis)
deriving DecidableEq

namespace Key

def kind : Key → KeyKind
  | index _ => .index
  | name _ => .name
  | code _ => .code

/-- The key as an object of its own. -/
def toScalar : Key → Scalar
  | index i => .uint64 i
  | name n => .string n
  | code c => .obis c

/-- Keys compare by number, or byte by byte. -/
def rank : Key → List ℕ
  | index i => [0, i.toNat]
  | name n => 1 :: n.map UInt8.toNat
  | code c => 2 :: c.val.map UInt8.toNat

private theorem map_toNat_injective : Function.Injective (List.map UInt8.toNat) :=
  List.map_injective_iff.mpr fun _ _ h => UInt8.toNat_inj.mp h

theorem rank_injective : Function.Injective rank := by
  intro a b h
  cases a <;> cases b <;> simp [rank] at h
  case index.index i j => rw [BitVec.eq_of_toNat_eq h]
  case name.name n m => rw [map_toNat_injective h]
  case code.code c d => rw [Subtype.ext (map_toNat_injective h)]

instance : LinearOrder Key := LinearOrder.lift' rank rank_injective

end Key

/-- The sequence types. -/
inductive SeqKind
  | tuple | vector | deque
deriving DecidableEq, Repr

/-- The value part of an `object`. -/
inductive Obj
  | scalar (v : Scalar)
  | pair (key : Key) (value : Obj)
  | map (kind : KeyKind) (entries : List (Key × Obj))
  | seq (kind : SeqKind) (items : List Obj)
  | prg (program : List Bytes)

namespace Obj

def attr (i : BitVec 64) (value : Obj) : Obj := pair (.index i) value
def param (n : Bytes) (value : Obj) : Obj := pair (.name n) value
def prop (c : Obis) (value : Obj) : Obj := pair (.code c) value
def attrMap (entries : List (Key × Obj)) : Obj := map .index entries
def paramMap (entries : List (Key × Obj)) : Obj := map .name entries
def propMap (entries : List (Key × Obj)) : Obj := map .code entries
def tuple (items : List Obj) : Obj := seq .tuple items
def vector (items : List Obj) : Obj := seq .vector items
def deque (items : List Obj) : Obj := seq .deque items

/-- `make_object(op)`. -/
abbrev op (code : BitVec 16) : Obj := scalar (.op code)

/-- `make_object<std::size_t>(n)`. -/
abbrev size (n : ℕ) : Obj := scalar (.uint64 (BitVec.ofNat 64 n))

end Obj

/-- `attr_t`, `param_t` and `prop_t` as types. -/
def KeyKind.pairCode : KeyKind → TypeCode
  | index => .attr
  | name => .param
  | code => .prop

/-- `attr_map_t`, `param_map_t` and `prop_map_t` as types. -/
def KeyKind.mapCode : KeyKind → TypeCode
  | index => .attrMap
  | name => .paramMap
  | code => .propMap

def SeqKind.typeCode : SeqKind → TypeCode
  | tuple => .tuple
  | vector => .vector
  | deque => .deque

/-- `object::tag()`. -/
def Obj.typeCode : Obj → TypeCode
  | scalar v => v.typeCode
  | pair key _ => key.kind.pairCode
  | map kind _ => kind.mapCode
  | seq kind _ => kind.typeCode
  | prg _ => .prg

/-- No leaf is a container. -/
theorem Scalar.isContainer_typeCode (v : Scalar) : v.typeCode.isContainer = false := by
  cases v with
  | float ty bits => cases ty <;> rfl
  | int ty v => cases ty <;> rfl
  | duration unit ticks => cases unit <;> rfl
  | digest ty digest => cases ty <;> rfl
  | aesKey ty key => cases ty <;> rfl
  | endpoint protocol address port => cases protocol <;> rfl
  | _ => rfl

/-! ### Equality -/

mutual

/-- Equality of objects: same type, same content, same order at every level. -/
def Obj.decEq : (a b : Obj) → Decidable (a = b)
  | .scalar v, .scalar w => decidable_of_iff (v = w) (by simp)
  | .pair k a, .pair l b =>
    have := Obj.decEq a b
    decidable_of_iff (k = l ∧ a = b) (by simp)
  | .map k as, .map l bs =>
    have := entriesDecEq as bs
    decidable_of_iff (k = l ∧ as = bs) (by simp)
  | .seq k as, .seq l bs =>
    have := itemsDecEq as bs
    decidable_of_iff (k = l ∧ as = bs) (by simp)
  | .prg p, .prg q => decidable_of_iff (p = q) (by simp)
  | .scalar _, .pair .. | .scalar _, .map .. | .scalar _, .seq .. | .scalar _, .prg _
  | .pair .., .scalar _ | .pair .., .map .. | .pair .., .seq .. | .pair .., .prg _
  | .map .., .scalar _ | .map .., .pair .. | .map .., .seq .. | .map .., .prg _
  | .seq .., .scalar _ | .seq .., .pair .. | .seq .., .map .. | .seq .., .prg _
  | .prg _, .scalar _ | .prg _, .pair .. | .prg _, .map .. | .prg _, .seq .. =>
    isFalse (by simp)

def itemsDecEq : (as bs : List Obj) → Decidable (as = bs)
  | [], [] => isTrue rfl
  | a :: as, b :: bs =>
    have := Obj.decEq a b
    have := itemsDecEq as bs
    decidable_of_iff (a = b ∧ as = bs) (by simp)
  | [], _ :: _ | _ :: _, [] => isFalse (by simp)

def entriesDecEq : (as bs : List (Key × Obj)) → Decidable (as = bs)
  | [], [] => isTrue rfl
  | (k, a) :: as, (l, b) :: bs =>
    have := Obj.decEq a b
    have := entriesDecEq as bs
    decidable_of_iff (k = l ∧ a = b ∧ as = bs) (by simp [and_assoc])
  | [], _ :: _ | _ :: _, [] => isFalse (by simp)

end

instance : DecidableEq Obj := Obj.decEq

/-! ### Values that exist -/

/-- `std::string::max_size()`. -/
def stringMaxSize : ℕ := 2 ^ 62 - 1

/-- `std::vector<object>::max_size()`; an object is two pointers. -/
def objectMaxCount : ℕ := maxSize / 16

/-- The variable-length leaves stay within the limits of their containers. -/
def Scalar.Fits : Scalar → Prop
  | string str => str.length ≤ stringMaxSize
  | fsPath path => path.length ≤ stringMaxSize
  | buffer buf => buf.length ≤ maxSize
  | obisPath path => path.length ≤ maxSize / 6
  | raw literal _ => literal.length ≤ stringMaxSize
  | errorCode ec => ec.category.length ≤ stringMaxSize
  | _ => True

def Key.Fits : Key → Prop
  | name n => n.length ≤ stringMaxSize
  | _ => True

mutual

/-- The value can exist: sizes are within their limits, and the entries of a map have
keys of its kind in ascending order. -/
def Obj.WellFormed : Obj → Prop
  | .scalar v => v.Fits
  | .pair key value => key.Fits ∧ value.WellFormed
  | .map kind entries =>
    entries.length ≤ objectMaxCount ∧ OrderedMap.Sorted entries ∧
      entriesWellFormed kind entries
  | .seq _ items => items.length ≤ objectMaxCount ∧ itemsWellFormed items
  | .prg program => program.length ≤ objectMaxCount ∧ ∀ buf ∈ program, buf.length ≤ maxSize

def itemsWellFormed : List Obj → Prop
  | [] => True
  | item :: items => item.WellFormed ∧ itemsWellFormed items

def entriesWellFormed (kind : KeyKind) : List (Key × Obj) → Prop
  | [] => True
  | (key, value) :: entries =>
    key.kind = kind ∧ key.Fits ∧ value.WellFormed ∧ entriesWellFormed kind entries

end

/-- An object tree that can exist. -/
structure Object where
  tree : Obj
  wellFormed : tree.WellFormed

/-- `param_map_t`: every name occurs once. -/
structure ParamMap where
  entries : List (Bytes × Obj)
  nodup : (entries.map Prod.fst).Nodup

/-! ### Leaves -/

mutual

/-- Every leaf of the tree satisfies a predicate; a program has no leaves. -/
def Obj.Leaves (p : Scalar → Prop) : Obj → Prop
  | .scalar v => p v
  | .pair _ value => value.Leaves p
  | .map _ entries => entriesLeaves p entries
  | .seq _ items => itemsLeaves p items
  | .prg _ => True

def itemsLeaves (p : Scalar → Prop) : List Obj → Prop
  | [] => True
  | item :: items => item.Leaves p ∧ itemsLeaves p items

def entriesLeaves (p : Scalar → Prop) : List (Key × Obj) → Prop
  | [] => True
  | (_, value) :: entries => value.Leaves p ∧ entriesLeaves p entries

end

end Cyng
