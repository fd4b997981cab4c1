import PrometheusKernel.Buddy.Model

/-!
# The physical memory manager: model of `kernel/mm/pmm.c`

`pmm_init` scans the multiboot memory map, an array of 24-byte entries in memory (`addr` at offset
0, `len` at 8, `type` at 16), and gives the first largest entry of type 1 to `buddy_init`. The
other functions hand single pages of the buddy allocator on.

The static data of `pmm.c` is kept beside that of `buddy.c`. The diagnostics are left out.
-/

namespace PrometheusKernel.Pmm

open ByteMem Buddy

/-- The static data of `pmm.c` and of the buddy allocator below it. -/
structure PmmGlobals where
  /-- The static data of `buddy.c`. -/
  buddy : BuddyGlobals
  /-- `g_pmm_total`. -/
  total : ℕ
  /-- `g_pmm_free`. -/
  free : ℕ
  /-- `g_buddy_initialized`. -/
  buddyInitialized : Bool

/-- A machine whose pages come from the physical memory manager. -/
abbrev State := Machine PmmGlobals

/-- Memory and the part of the state that `buddy.c` owns. -/
def State.toBuddy (s : State) : Buddy.State := ⟨s.mem, s.pages.buddy⟩

/-- The state after a call of `buddy.c`. -/
def State.setBuddy (s : State) (b : Buddy.State) : State := ⟨b.mem, { s.pages with buddy := b.pages }⟩

/-- What was put in for `buddy.c` is read back. -/
@[simp] theorem State.toBuddy_setBuddy (s : State) (b : Buddy.State) :
    (s.setBuddy b).toBuddy = b := rfl

/-- Memory is that of `buddy.c`. -/
@[simp] theorem State.mem_setBuddy (s : State) (b : Buddy.State) : (s.setBuddy b).mem = b.mem := rfl

/-- The flag of `pmm.c` is not touched by `buddy.c`. -/
@[simp] theorem State.buddyInitialized_setBuddy (s : State) (b : Buddy.State) :
    (s.setBuddy b).pages.buddyInitialized = s.pages.buddyInitialized := rfl

/-- The static data before `pmm_init`. -/
def initial (m : Mem) : State := ⟨m, BuddyGlobals.zero, 0, 0, false⟩

/-- `multiboot_mmap_entry_t`, without its padding. -/
structure MmapEntry where
  /-- `addr`. -/
  addr : ℕ
  /-- `len`. -/
  len : ℕ
  /-- `type`; 1 is usable memory. -/
  type : ℕ
  deriving DecidableEq, Repr

/-- `sizeof(multiboot_mmap_entry_t)`. -/
def entrySize : ℕ := 24

/-- The entry at address `p`. -/
def entryAt (m : Mem) (p : ℕ) : MmapEntry := ⟨load 8 m p, load 8 m (p + 8), load 4 m (p + 16)⟩

/-- The locals of `pmm_init` and `g_pmm_total` while the map is scanned. -/
structure Scan where
  /-- `g_pmm_total`. -/
  total : ℕ
  /-- `memory_start`. -/
  memoryStart : ℕ
  /-- `memory_size`. -/
  memorySize : ℕ

/-- The body of the scan loop. -/
def scanEntry (acc : Scan) (e : MmapEntry) : Scan :=
  let acc := { acc with total := Word.add 64 acc.total e.len }
  if e.type = 1 ∧ e.len > acc.memorySize then
    { acc with memoryStart := e.addr, memorySize := e.len }
  else acc

/-- The scan loop. Every iteration moves `p` towards `end`, so as many iterations as there are bytes
are enough. -/
def scanLoop (m : Mem) (endp : ℕ) : ℕ → ℕ → Scan → Scan
  | 0, _, acc => acc
  | fuel + 1, p, acc =>
      if p < endp then scanLoop m endp fuel (Word.add 64 p entrySize) (scanEntry acc (entryAt m p))
      else acc

/-- `pmm_init`. -/
def pmmInit (s : State) (mmap mmapSize : ℕ) : State :=
  let endp := Word.add 64 mmap mmapSize
  let acc := scanLoop s.mem endp mmapSize mmap ⟨0, 0, 0⟩
  let s : State := { s with pages := { s.pages with total := acc.total, free := 0 } }
  if acc.memorySize > 0 then
    let s := s.setBuddy (buddyInit s.mem acc.memoryStart acc.memorySize)
    { s with pages := { s.pages with buddyInitialized := true, free := acc.memorySize } }
  else s

/-- `pmm_alloc_frame`. -/
def pmmAllocFrame (s : State) : ℕ × State :=
  if !s.pages.buddyInitialized then (0, s)
  else
    let res := buddyAllocPages s.toBuddy 0 0
    let frame := res.1
    let s := s.setBuddy res.2
    if frame = 0 then (0, s)
    else if s.pages.free ≥ pageSize then
      (frame, { s with pages := { s.pages with free := Word.sub 64 s.pages.free pageSize } })
    else (frame, s)

/-- `pmm_free_frame`. -/
def pmmFreeFrame (s : State) (frame : ℕ) : Option State :=
  if !s.pages.buddyInitialized then some s
  else if frame = 0 then some s
  else
    match buddyFreePages s.toBuddy frame 0 with
    | none => none
    | some b =>
        let s := s.setBuddy b
        some { s with pages := { s.pages with free := Word.add 64 s.pages.free pageSize } }

/-- `pmm_get_total_memory`. -/
def pmmGetTotalMemory (s : State) : ℕ := s.pages.total

/-- `pmm_get_free_memory`. -/
def pmmGetFreeMemory (s : State) : ℕ :=
  if s.pages.buddyInitialized then Word.mul 64 (buddyGetFreePages s.pages.buddy) pageSize
  else s.pages.free

end PrometheusKernel.Pmm
