import Cyng.Vm.Stack
import Cyng.Io.Parser

/-!
# The virtual machine

An object that is no op code is pushed, an op code is executed. The machine talks to the
rest of the system through its channel, through other channels of the mesh, and through
the functions it was given; what it asks of them is an effect of the step.
-/

namespace Cyng

open Theory

/-- A channel that the machine is connected to. -/
structure Channel where
  tag : Octets 16
  /-- `channel::lookup` of a slot name -/
  lookup : Bytes → BitVec 64

/-- What the machine finds around it. -/
structure VmEnv where
  hasher : Hasher
  /-- the channel, as long as it is alive -/
  channel : Option Channel
  now : BitVec 64
  pid : BitVec 32
  tid : BitVec 64
  /-- the result of the function with the given number; void functions have none -/
  call : ℕ → List Obj → Option Obj
  /-- how many functions there are -/
  functions : ℕ

/-- What the machine asks of its surroundings. -/
inductive VmEffect
  /-- `channel->dispatch(slot, msg)` on its own channel -/
  | dispatch (slot : Bytes) (msg : List Obj)
  /-- the same on another channel of the mesh -/
  | forward (tag : Octets 16) (slot : Bytes) (msg : List Obj)
  /-- a direct call of a function -/
  | call (function : ℕ) (msg : List Obj)

namespace Vm

variable (b : Build) (env : VmEnv)

/-- `get_channel_tag`. -/
def channelTag : Octets 16 :=
  match env.channel with
  | some channel => channel.tag
  | none => Octets.zero 16

/-- `vm::invoke`. -/
def invoke (s : Stack) : Except Fault (Stack × List VmEffect) := do
  let ((slot, msg), s) ← s.invoke b
  match env.channel with
  | some _ => .ok (s, [.dispatch slot msg])
  | none => .ok (s, [])

/-- `invoke_r_helper::call`: the function with the number `idx`, or the first one where
there is none. -/
def callFunction (idx : ℕ) (msg : List Obj) (s : Stack) : Stack × List VmEffect :=
  if 0 < idx ∧ idx < env.functions then
    match env.call idx msg with
    | some result => (s.push result, [.call idx msg])
    | none => (s, [.call idx msg])
  else
    match env.call 0 msg with
    | some result => (s.push result, [.call 0 msg])
    -- only the first function turns a missing result into a null object
    | none => (s.push (.scalar .null), [.call 0 msg])

/-- `vm::invoke_r`. -/
def invokeR (s : Stack) : Except Fault (Stack × List VmEffect) := do
  let ((id, msg), s) ← s.invokeR b
  .ok (callFunction env id.toNat msg s)

/-- `vm_base::forward`. -/
def forward (s : Stack) : Except Fault (Stack × List VmEffect) := do
  let (tag, s) ← s.forward b
  let ((slot, msg), s) ← s.invoke b
  if channelTag env = tag then
    match env.channel with
    | some _ => .ok (s, [.dispatch slot msg])
    | none => .ok (s, [])
  else .ok (s, [.forward tag slot msg])

/-- `vm_base::resolve`. -/
def resolve (s : Stack) : Except Fault (Stack × List VmEffect) := do
  let (name, s) ← s.popValue b Stack.asString []
  match env.channel with
  | some channel => .ok (s.push (.scalar (.uint64 (channel.lookup name))), [])
  | none => .ok (s, [])

/-- An instruction that changes the stack only. -/
def silent (s : Except Fault Stack) : Except Fault (Stack × List VmEffect) := do
  .ok (← s, [])

/-- `vm_base::exec(op)`. -/
def execOp (code : BitVec 16) (s : Stack) : Except Fault (Stack × List VmEffect) :=
  if code = Op.noop ∨ code = Op.tidy ∨ code = Op.halt then .ok (s, [])
  else if code = Op.now then .ok (s.push (.scalar (.timePoint env.now)), [])
  else if code = Op.pid then .ok (s.push (.scalar (.pid env.pid)), [])
  else if code = Op.tid then .ok (s.push (.scalar (.uint64 env.tid)), [])
  else if code = Op.ident then .ok (s.push (.scalar (.uuid (channelTag env))), [])
  else if code = Op.invoke then invoke b env s
  else if code = Op.invokeR then invokeR b env s
  else if code = Op.forward then forward b env s
  else if code = Op.resolve then resolve b env s
  else if code = Op.makeAttr then silent (s.makeAttr b)
  else if code = Op.makeParam then silent (s.makeParam b)
  else if code = Op.makeProp then silent (s.makeProp b)
  else if code = Op.makeAttrMap then silent (s.makeAttrMap b)
  else if code = Op.makeParamMap then silent (s.makeParamMap b)
  else if code = Op.makePropMap then silent (s.makePropMap b)
  else if code = Op.makeTuple then silent (s.makeTuple b)
  else if code = Op.makeVector then silent (s.makeVector b)
  else if code = Op.makeDeque then silent (s.makeDeque b)
  else if code = Op.makePrg then silent (s.makePrg b)
  else if code = Op.split then silent (s.split b)
  else if code = Op.assertType then silent (s.assertType b)
  else if code = Op.assertValue then silent (s.assertValue b env.hasher)
  else if code = Op.esba then .ok (s.esba, [])
  else if code = Op.reba then silent (s.reba b)
  else if code = Op.pull then silent (s.pull b)
  else if code = Op.frm then silent (s.frm b)
  else do
    b.check "unknown op code" False
    .ok (s, [])

/-- `vm_base::exec(object)`. -/
def exec : Step Stack Obj VmEffect Fault := fun s o =>
  match o with
  | .scalar (.op code) => execOp b env code s
  | o => .ok (s.push o, [])

/-- The callback of a parser that feeds the machine. -/
def onEvent : Step Stack (ParserEvent Scalar) VmEffect Fault := fun s event =>
  match event with
  | .reserve _ _ => .ok (s, [])
  | .deliver _ _ v => exec b env s (.scalar v)

/-- A binary parser whose callback hands every object to the machine. -/
def receive (ip : IpText) : Step (Parser × Stack) UInt8 VmEffect Fault :=
  Step.pipe (Parser.put b fun type buffer => deserialize b ip buffer type) (onEvent b env)

end Vm

end Cyng
