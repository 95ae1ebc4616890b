import Cyng.Obj.Object

/-!
# Hash values of objects

An object answers with the hash of its value. The containers combine the hashes of their
elements by exclusive or of the hashes shifted by one bit, so neither the order of the
elements nor a pair of equal elements shows in the result. The hashes of leaves come
from `std::hash` and are a parameter.
-/

namespace Cyng

/-- `std::hash` of the types that are not containers of objects. -/
structure Hasher where
  scalar : Scalar → BitVec 64
  prg : List Bytes → BitVec 64

/-- `std::hash` is the identity on integers; all other values get one hash here. -/
def Hasher.numbers : Hasher where
  scalar
    | .int .uint64 v => v
    | _ => 0
  prg _ := 0

/-- One step of the loop that all containers share: `h ^= hash << 1`. -/
def combine (acc hash : BitVec 64) : BitVec 64 :=
  acc ^^^ (hash <<< 1)

section Hash

variable (hasher : Hasher)

mutual

/-- `object::hash()`. -/
def Obj.hash : Obj → BitVec 64
  | .scalar v => hasher.scalar v
  | .pair key value => combine (combine 0 (hasher.scalar key.toScalar)) value.hash
  | .map _ entries => hashEntries 0 entries
  | .seq _ items => hashItems 0 items
  | .prg program => hasher.prg program

/-- The loop of `std::hash<tuple_t>`, `std::hash<vector_t>` and `std::hash<deque_t>`. -/
def hashItems (acc : BitVec 64) : List Obj → BitVec 64
  | [] => acc
  | item :: items => hashItems (combine acc item.hash) items

/-- The loop of `std::hash<attr_map_t>`, `std::hash<param_map_t>` and
`std::hash<prop_map_t>`. -/
def hashEntries (acc : BitVec 64) : List (Key × Obj) → BitVec 64
  | [] => acc
  | (key, value) :: entries =>
    hashEntries (combine acc (combine (combine 0 (hasher.scalar key.toScalar)) value.hash))
      entries

end

/-- The order of the elements does not show in their hash. -/
theorem hashItems_perm {items items' : List Obj} (h : items.Perm items') (acc : BitVec 64) :
    hashItems hasher acc items = hashItems hasher acc items' := by
  induction h generalizing acc with
  | nil => rfl
  | cons item _ ih => exact ih _
  | swap item item' items =>
    simp only [hashItems, combine]
    rw [BitVec.xor_assoc, BitVec.xor_comm (item'.hash hasher <<< 1), ← BitVec.xor_assoc]
  | trans _ _ ih ih' => rw [ih, ih']

end Hash

end Cyng
