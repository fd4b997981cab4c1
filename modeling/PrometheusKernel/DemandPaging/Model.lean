import PrometheusKernel.Vmm.Model
import PrometheusKernel.Lib.LinkedList

/-!
# Demand paging: model of `kernel/mm/demand_paging.c`

`address_spaces` is an array of slots, each with a page table and a list of regions. A region is an
object of `vm_region_cache`, so the regions are a function from addresses to records. Page tables and
data pages live in the physical memory of `Machine`.

What other files provide is a parameter: `slabAlloc` and `slabFree` are `slab_alloc` and `slab_free`
on `vm_region_cache`, `allocPage` is `buddy_alloc_pages(0, BUDDY_ZONE_MOVABLE)`, `freePage` is
`buddy_free_pages(addr, 0)` and `allocFrame` is `pmm_alloc_frame`. A loop over a region list is
`LinkedList.search` or `LinkedList.searchPrev`; `none` is a call that does not return. Locks and
messages are left out: `DemandPaging.Faults` and `DemandPaging.Teardown` are about the locks.
-/

namespace PrometheusKernel.DemandPaging

open ByteMem LinkedList Vmm

/-- `vm_region_t`, without its lock; `stop` is the field `end`. -/
structure Region where
  start : ℕ
  stop : ℕ
  flags : ℕ
  next : ℕ
deriving DecidableEq

/-- `vm_address_space_t`, without its lock. -/
structure AddressSpace where
  pml4 : ℕ
  regions : ℕ

/-- The machine, `address_spaces`, `address_space_count` and the region structures. -/
structure State (A : Type) where
  machine : Machine A
  addressSpaces : ℕ → AddressSpace
  addressSpaceCount : ℕ
  regions : ℕ → Region

/-- `MAX_ADDRESS_SPACES`. -/
def maxAddressSpaces : ℕ := 256

/-- `VM_FLAG_DEMAND_PAGED`. -/
def vmFlagDemandPaged : ℕ := 0x01

/-- `VM_FLAG_ZERO_FILL`. -/
def vmFlagZeroFill : ℕ := 0x02

/-- `VMM_FLAG_USER`. -/
def flagUser : ℕ := 0x004

/-- `~(BUDDY_PAGE_SIZE - 1)`, as a 64-bit word. -/
def pageMask : ℕ := 0xFFFFFFFFFFFFF000

/-- The direct map that the zero-fill loop writes through. -/
def directMap : ℕ := 0xFFFF800000000000

/-- `aligned_start`, `aligned_addr`. -/
def alignDown (addr : ℕ) : ℕ := addr &&& pageMask

/-- `aligned_end`. -/
def alignedEnd (start size : ℕ) : ℕ :=
  alignDown (Word.sub 64 (Word.add 64 (Word.add 64 start size) pageSize) 1)

/-- The test of the loop in `demand_paging_register_region`. -/
def Region.overlaps (r : Region) (alignedStart alignedEnd : ℕ) : Bool :=
  (alignedStart ≥ r.start && alignedStart < r.stop) ||
    (alignedEnd > r.start && alignedEnd ≤ r.stop) ||
    (alignedStart ≤ r.start && alignedEnd ≥ r.stop)

/-- The test of the loop in `demand_paging_find_region`. -/
def Region.contains (r : Region) (virtAddr : ℕ) : Bool := virtAddr ≥ r.start && virtAddr < r.stop

variable {A : Type}

/-- `region->next`. -/
def State.next (s : State A) (r : ℕ) : ℕ := (s.regions r).next

/-- `demand_paging_init`; `vm_region_cache` is the parameter of the functions below. -/
def demandPagingInit (s : State A) : State A :=
  { s with
    addressSpaces := fun i => if i < maxAddressSpaces then ⟨0, 0⟩ else s.addressSpaces i
    addressSpaceCount := 0 }

/-- `demand_paging_get_address_space`: the index of the slot, a new one if there is none. -/
def demandPagingGetAddressSpace (s : State A) (pml4 : ℕ) : Option ℕ × State A :=
  match (List.range s.addressSpaceCount).find? fun i => (s.addressSpaces i).pml4 = pml4 with
  | some i => (some i, s)
  | none =>
      if s.addressSpaceCount < maxAddressSpaces then
        (some s.addressSpaceCount,
          { s with
            addressSpaces := Function.update s.addressSpaces s.addressSpaceCount ⟨pml4, 0⟩
            addressSpaceCount := s.addressSpaceCount + 1 })
      else (none, s)

/-- `demand_paging_find_region`. -/
def demandPagingFindRegion (s : State A) (pml4 virtAddr : ℕ) : Option (ℕ × State A) :=
  match demandPagingGetAddressSpace s pml4 with
  | (none, s) => some (0, s)
  | (some as, s) => do
      let region ← search s.next (fun r => (s.regions r).contains virtAddr) walkBound
        (s.addressSpaces as).regions
      some (region, s)

/-- The loop of `demand_paging_register_region`: the first region that overlaps, or null. -/
def overlapping (s : State A) (as alignedStart alignedEnd : ℕ) : Option ℕ :=
  search s.next (fun r => (s.regions r).overlaps alignedStart alignedEnd) walkBound
    (s.addressSpaces as).regions

/-- A new region at the head of the list of the slot. -/
def linkRegion (s : State A) (as region alignedStart alignedEnd flags : ℕ) : State A :=
  { s with
    regions := Function.update s.regions region
      ⟨alignedStart, alignedEnd, flags, (s.addressSpaces as).regions⟩
    addressSpaces := Function.update s.addressSpaces as
      { s.addressSpaces as with regions := region } }

/-- The region is taken out of the list of the slot; `prev` is the one before it. -/
def unlinkRegion (s : State A) (as prev current : ℕ) : State A :=
  if prev ≠ 0 then
    { s with regions := Function.update s.regions prev { s.regions prev with next := s.next current } }
  else
    { s with
      addressSpaces := Function.update s.addressSpaces as
        { s.addressSpaces as with regions := s.next current } }

/-- The addresses that the loop of `demand_paging_unregister_region` visits. -/
def pagesOf (r : Region) : List ℕ :=
  (List.range ((r.stop - r.start + (pageSize - 1)) / pageSize)).map fun i => r.start + i * pageSize

section

variable (slabAlloc : Machine A → ℕ × Machine A) (slabFree : ℕ → Machine A → Machine A)
  (allocPage : Machine A → ℕ × Machine A) (freePage : ℕ → Machine A → Machine A)
  (allocFrame : Machine A → ℕ × Machine A)

/-- `demand_paging_register_region`. -/
def demandPagingRegisterRegion (s : State A) (pml4 start size flags : ℕ) : Option (ℤ × State A) :=
  if pml4 = 0 ∨ size = 0 then some (-1, s)
  else
    match demandPagingGetAddressSpace s pml4 with
    | (none, s) => some (-1, s)
    | (some as, s) => do
        let existing ← overlapping s as (alignDown start) (alignedEnd start size)
        if existing ≠ 0 then some (-1, s)
        else
          let (region, machine) := slabAlloc s.machine
          let s := { s with machine := machine }
          if region = 0 then some (-1, s)
          else some (0, linkRegion s as region (alignDown start) (alignedEnd start size) flags)

/-- The zero-fill loop of `demand_paging_handle_fault`. -/
def zeroFill (m : Machine A) (physAddr : ℕ) : Machine A :=
  { m with mem := fill pageSize m.mem (directMap + physAddr) 0 }

/-- The part of `demand_paging_handle_fault` that runs with `page_fault_lock` held: the second check, the
allocation and the mapping. -/
def lockedFault (s : State A) (pml4 alignedAddr region : ℕ) : ℤ × State A :=
  let existingPhys := vmmGetPhysicalAddress s.machine.mem pml4 alignedAddr
  let (physAddr, machine) := allocPage s.machine
  if existingPhys ≠ 0 then (0, s)
  else if physAddr = 0 then (-1, { s with machine := machine })
  else
    let machine := if (s.regions region).flags &&& vmFlagZeroFill ≠ 0 then zeroFill machine physAddr
      else machine
    (0, { s with machine := vmmMapPage allocFrame machine pml4 alignedAddr physAddr
                  (flagPresent ||| flagWritable ||| flagUser) })

/-- `demand_paging_handle_fault`. -/
def demandPagingHandleFault (s : State A) (pml4 virtAddr : ℕ) : Option (ℤ × State A) := do
  let alignedAddr := alignDown virtAddr
  let (region, s) ← demandPagingFindRegion s pml4 alignedAddr
  if region = 0 then some (-1, s)
  else if (s.regions region).flags &&& vmFlagDemandPaged = 0 then some (-1, s)
  else if vmmGetPhysicalAddress s.machine.mem pml4 alignedAddr ≠ 0 then some (0, s)
  else some (lockedFault allocPage allocFrame s pml4 alignedAddr region)

/-- One iteration of the loop of `demand_paging_unregister_region`. -/
def unmapPage (pml4 : ℕ) (m : Machine A) (addr : ℕ) : Machine A :=
  let physAddr := vmmGetPhysicalAddress m.mem pml4 addr
  if physAddr ≠ 0 then freePage physAddr (vmmUnmapPage m pml4 addr) else m

/-- `demand_paging_unregister_region`. -/
def demandPagingUnregisterRegion (s : State A) (pml4 start : ℕ) : Option (State A) :=
  match demandPagingGetAddressSpace s pml4 with
  | (none, s) => some s
  | (some as, s) => do
      let (prev, current) ← searchPrev s.next (fun r => (s.regions r).start = alignDown start) walkBound 0
        (s.addressSpaces as).regions
      if current ≠ 0 then
        let region := s.regions current
        let s := unlinkRegion s as prev current
        let machine := (pagesOf region).foldl (unmapPage freePage pml4) s.machine
        some { s with machine := slabFree current machine }
      else some s

end

end PrometheusKernel.DemandPaging
