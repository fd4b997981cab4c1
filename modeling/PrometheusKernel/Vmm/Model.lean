import PrometheusKernel.Machine

/-!
# Page tables: model of `kernel/mm/vmm.c`

Tables are pages of 512 entries of 8 bytes in physical memory. `pmm_alloc_frame`, the only function
of another file that is called, is the parameter `allocFrame`.

`vmm_map_page` calls `get_or_alloc` three times and returns as soon as one call fails. The three
calls are `ptFor`, whose result is the page table or null. `vmm_init` and
`vmm_switch_address_space` do nothing and are left out.
-/

namespace PrometheusKernel.Vmm

open ByteMem

/-- `VMM_FLAG_PRESENT`. -/
def flagPresent : ℕ := 0x001

/-- `VMM_FLAG_WRITABLE`. -/
def flagWritable : ℕ := 0x002

/-- The address bits of an entry. -/
def frameMask : ℕ := 0x000FFFFFFFFFF000

/-- `PT_ENTRIES`. -/
def ptEntries : ℕ := 512

/-- `ADDR_PML4_INDEX`. -/
def pml4Index (x : ℕ) : ℕ := (x >>> 39) &&& 0x1FF

/-- `ADDR_PDPT_INDEX`. -/
def pdptIndex (x : ℕ) : ℕ := (x >>> 30) &&& 0x1FF

/-- `ADDR_PD_INDEX`. -/
def pdIndex (x : ℕ) : ℕ := (x >>> 21) &&& 0x1FF

/-- `ADDR_PT_INDEX`. -/
def ptIndex (x : ℕ) : ℕ := (x >>> 12) &&& 0x1FF

/-- The address of `table[index]`. -/
def slot (table index : ℕ) : ℕ := table + 8 * index

/-- `table[index]`. -/
def readEntry (m : Mem) (table index : ℕ) : ℕ := load 8 m (slot table index)

section functions

variable {A : Type}

/-- `table[index] = e`. -/
def writeEntry (s : Machine A) (table index e : ℕ) : Machine A :=
  { s with mem := store 8 s.mem (slot table index) e }

/-- The loop that sets all entries of a new table to 0. -/
def clearTable (s : Machine A) (table : ℕ) : Machine A :=
  { s with mem := fill (8 * ptEntries) s.mem table 0 }

variable (allocFrame : Machine A → ℕ × Machine A)

/-- `get_or_alloc`. -/
def getOrAlloc (s : Machine A) (table index : ℕ) : ℕ × Machine A :=
  let e := readEntry s.mem table index
  if e &&& flagPresent = 0 then
    let res := allocFrame s
    let frame := res.1
    if frame = 0 then (0, res.2)
    else
      let s := clearTable res.2 frame
      let s := writeEntry s table index (frame ||| flagPresent ||| flagWritable)
      (readEntry s.mem table index &&& frameMask, s)
  else (e &&& frameMask, s)

/-- `vmm_create_address_space`. -/
def vmmCreateAddressSpace (s : Machine A) : ℕ × Machine A :=
  let res := allocFrame s
  let frame := res.1
  if frame = 0 then (0, res.2) else (frame, clearTable res.2 frame)

/-- The page table for `virt` as `vmm_map_page` obtains it, or null. -/
def ptFor (s : Machine A) (pml4 virt : ℕ) : ℕ × Machine A :=
  let (pdpt, s) := getOrAlloc allocFrame s pml4 (pml4Index virt)
  if pdpt = 0 then (0, s)
  else
    let (pd, s) := getOrAlloc allocFrame s pdpt (pdptIndex virt)
    if pd = 0 then (0, s)
    else getOrAlloc allocFrame s pd (pdIndex virt)

/-- `vmm_map_page`. -/
def vmmMapPage (s : Machine A) (pml4 virt phys flags : ℕ) : Machine A :=
  let (pt, s) := ptFor allocFrame s pml4 virt
  if pt = 0 then s
  else
    writeEntry s pt (ptIndex virt) ((phys &&& frameMask) ||| (flags &&& 0xFFF) ||| flagPresent)

/-- `vmm_unmap_page`. -/
def vmmUnmapPage (s : Machine A) (pml4 virt : ℕ) : Machine A :=
  let e := readEntry s.mem pml4 (pml4Index virt)
  if e &&& flagPresent = 0 then s
  else
    let pdpt := e &&& frameMask
    let e := readEntry s.mem pdpt (pdptIndex virt)
    if e &&& flagPresent = 0 then s
    else
      let pd := e &&& frameMask
      let e := readEntry s.mem pd (pdIndex virt)
      if e &&& flagPresent = 0 then s
      else
        let pt := e &&& frameMask
        writeEntry s pt (ptIndex virt) 0

/-- `vmm_get_physical_address`. -/
def vmmGetPhysicalAddress (m : Mem) (pml4 virt : ℕ) : ℕ :=
  let e := readEntry m pml4 (pml4Index virt)
  if e &&& flagPresent = 0 then 0
  else
    let pdpt := e &&& frameMask
    let e := readEntry m pdpt (pdptIndex virt)
    if e &&& flagPresent = 0 then 0
    else
      let pd := e &&& frameMask
      let e := readEntry m pd (pdIndex virt)
      if e &&& flagPresent = 0 then 0
      else
        let pt := e &&& frameMask
        let e := readEntry m pt (ptIndex virt)
        if e &&& flagPresent = 0 then 0
        else (e &&& frameMask) ||| (virt &&& 0xFFF)

end functions

end PrometheusKernel.Vmm
