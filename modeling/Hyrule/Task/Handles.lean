import Hyrule.Task.Linkage
import Hyrule.Task.Segments

/-!
# The handles of a loaded program

`vma_stack` and `vma_heap` point into an array that every registration sorts.
`program_init` looks the stack up before it registers the heap.  A heap below the
stack moves the stack up by one slot, and `vma_stack` is left behind.  The heap
lies above the stack only if a segment does.
-/

namespace Hyrule

open Lib Lib.Result

end Hyrule
