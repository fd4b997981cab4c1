import PrometheusKernel.Lib.ByteMem
import PrometheusKernel.Lib.Word

/-!
# The machine and its page allocator

Every allocator of the kernel works on one physical memory and takes its pages from the allocator
below it. `Machine A` is that memory together with the state `A` of the page allocator, so that a
client is written once and runs both on the buddy allocator of `Buddy.Model` and on any other
source of pages.
-/

namespace PrometheusKernel

open ByteMem

/-- Physical memory and the state of the page allocator below the client. -/
structure Machine (A : Type) where
  /-- Physical memory, identity mapped. -/
  mem : Mem
  /-- The globals of the page allocator. -/
  pages : A

/-- `BUDDY_PAGE_SIZE`, `FRAME_SIZE`, `PAGE_SIZE`. -/
def pageSize : ℕ := 4096

end PrometheusKernel
