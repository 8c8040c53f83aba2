import Hyrule.Task.Linkage

/-!
# Isolation of address spaces

A buffer is created by a load, a map or a fork, moved by `brk`, and freed by
`munmap` and `execve`.  The table entries that point to it are copied when the
table is sorted, compacted or forked.  Still no two entries of any tables point to
the same buffer, since each call is a `Transfer` of the buffers of one owner.

A live buffer that no entry points to is left behind only by a `brk` whose
`realloc` fails: it stores the null pointer over the old one.

`addressSpaces_isolated` puts this together, with what it means for a store after a
fork.
-/

namespace Hyrule

open Lib Lib.Result

variable {root : CString} {s s' : Forest} {t u : TaskId}

/-! ## Buffers and their regions -/

/-- The calls of a run whose `realloc` returns memory. -/
def ReallocReturns (s : Forest) (call : TaskId × TaskCall) : Prop :=
  call.2.ReallocReturns s call.1

end Hyrule
