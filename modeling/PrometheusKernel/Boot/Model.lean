import PrometheusKernel.Pmm.Model

/-!
# From the boot loader to the memory map: model of `boot.asm` and `kernel/core/main.c`

The boot loader leaves a magic number in `eax` and the address of the Multiboot2 information block in `ebx`.
`_start` stores both and passes them on to `kernel_main`, which walks over the tags (`type` at offset 0, `size`
at 4; a memory-map tag has `entry_size` at 8 and its entries from 16 on) and calls `pmm_init` on the entries.

The walk is `while (1)`: `tagLoop` has a bound on its iterations, and is `none` where they do not suffice. What
`kernel_main` does before and after is left out.
-/

namespace PrometheusKernel.Boot

open ByteMem Pmm

/-- `MULTIBOOT2_MAGIC`. -/
def multiboot2Magic : ℕ := 0x36d76289

/-- `t->type`. -/
def tagType (m : Mem) (t : ℕ) : ℕ := load 4 m t

/-- `t->size`. -/
def tagSize (m : Mem) (t : ℕ) : ℕ := load 4 m (t + 4)

/-- `mt->entry_size`. -/
def tagEntrySize (m : Mem) (t : ℕ) : ℕ := load 4 m (t + 8)

/-- `sizeof(multiboot_tag_mmap_t)`. -/
def mmapTagSize : ℕ := 16

/-- The locals `mm` and `mm_size` of `kernel_main`. -/
structure MemoryMap where
  /-- `mm`. -/
  mm : ℕ
  /-- `mm_size`. -/
  mmSize : ℕ
deriving DecidableEq

/-- `_start`: the arguments of `kernel_main`, or `boot_error`. -/
def start (eax ebx : ℕ) : Option (ℕ × ℕ) := if eax = multiboot2Magic then some (eax, ebx) else none

/-- The loop body on the tag `t`: a memory-map tag is noted. -/
def visitTag (m : Mem) (t : ℕ) (acc : MemoryMap) : MemoryMap :=
  if tagType m t = 6 then ⟨Word.add 64 t mmapTagSize, Word.sub 32 (tagSize m t) mmapTagSize⟩ else acc

/-- `tags + ((t->size + 7) & ~7)`; the mask is taken in 32 bits. -/
def nextTag (m : Mem) (t : ℕ) : ℕ := Word.add 64 t (Word.add 32 (tagSize m t) 7 &&& (2 ^ 32 - 1 - 7))

/-- The tag loop of `kernel_main`. -/
def tagLoop (m : Mem) : ℕ → ℕ → MemoryMap → Option MemoryMap
  | 0, _, _ => none
  | fuel + 1, tags, acc =>
      if tagType m tags = 0 then some acc else tagLoop m fuel (nextTag m tags) (visitTag m tags acc)

/-- `kernel_main` up to the call of `pmm_init`. -/
def kernelMain (s : Pmm.State) (fuel multibootMagic multibootInfo : ℕ) : Option Pmm.State :=
  if multibootMagic = multiboot2Magic then
    match tagLoop s.mem fuel multibootInfo ⟨0, 0⟩ with
    | none => none
    | some acc => if acc.mm ≠ 0 ∧ acc.mmSize ≠ 0 then some (pmmInit s acc.mm acc.mmSize) else some s
  else some s

end PrometheusKernel.Boot
