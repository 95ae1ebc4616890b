import Cyng.Obj.Object

/-!
# Finding by index, name or code

`find` answers one step of a path, and a `reader` goes on from the answer with the next step. A
step is an index, a name or an OBIS code.

What a step selects is given by rules. A step that does not apply to an object selects the object
itself, so that a path goes on from a leaf without an end.
-/

namespace Cyng

open Theory

namespace Dom

/-- The test of `search` for one element. -/
def matchesKey : Key → Obj → Bool
  | .index idx, .pair (.index i) _ => i = idx
  | .index idx, .scalar (.int .uint32 v) => v = idx.setWidth _
  | .index idx, .scalar (.int .uint64 v) => v = idx.setWidth _
  | .name name, .pair (.name n) _ => n = name
  | .name name, .scalar (.string str) => str = name
  | .code code, .pair (.code c) _ => c = code
  | .code code, .scalar (.obis c) => c = code
  | _, _ => false

/-- `search` -/
def search (items : List Obj) (k : Key) : Option Obj := items.find? (matchesKey k)

/-- `extract`: the value of a pair, or the search index or name -/
def extractValue : Obj → Obj
  | .pair _ value => value
  | o => o

/-- `make_object()` -/
def nullObject : Obj := .scalar .null

/-- What is left when the search ends without a result: the element at an index. -/
def atPosition (items : List Obj) : Key → Obj
  | .index idx => items[idx.toNat]?.getD nullObject
  | _ => nullObject

/-- `find` in a tuple, a vector or a deque. -/
def findInSeq (items : List Obj) (k : Key) : Obj :=
  match search items k with
  | some o => extractValue o
  | none => atPosition items k

/-- `find` -/
def find : Obj → Key → Obj
  | .seq _ items, k => findInSeq items k
  | .map kind entries, k =>
    if kind = k.kind then (OrderedMap.find k entries).getD nullObject else .map kind entries
  | .pair key value, k =>
    if key.kind = k.kind then if key = k then value else nullObject else .pair key value
  | o, _ => o

/-- `reader` -/
structure Reader where
  container : Obj

/-- `reader::operator[]` -/
def Reader.at (r : Reader) (k : Key) : Reader := ⟨find r.container k⟩

/-- `reader::get` -/
def Reader.get (r : Reader) : Obj := r.container

section Find

variable {k : Key} {o r : Obj} {items : List Obj} {kind : SeqKind}

end Find

end Dom

end Cyng
