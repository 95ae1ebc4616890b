import Cyng.Vm.RoundTrip

/-!
# Direct calls

`INVOKE_R` takes a function by its number and puts its result on the stack. A function without
a result is one that leaves a null object there.

The number is looked up from the last function down to the first one, which takes whatever is
left: a number that belongs to no function calls the first one. And only the first one pushes
the null object for a missing result.
-/

namespace Cyng

open Theory

namespace Vm

section Helper

variable {tpl : List Fn} {idx : ℕ} {msg : List Obj} {ctx : Stack}

end Helper

/-! ### The instruction -/

section Instruction

variable {b : Build} {env : VmEnv} {fns : List Fn} {args : List Obj} {id : BitVec 64} {s : Stack}

end Instruction

end Vm

end Cyng
