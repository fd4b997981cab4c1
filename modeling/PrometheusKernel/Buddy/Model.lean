import PrometheusKernel.Machine
import PrometheusKernel.Lib.LinkedList

/-!
# The buddy allocator: model of `kernel/mm/buddy.c`

The functions of `buddy.c`, statement by statement, over `Machine BuddyGlobals`: the free lists are
threaded through the first 16 bytes of the free pages (`next` at offset 0, `prev` at offset 8), the
list heads, counters and the allocation bitmap are the file's static data.

Addresses and counters are 64-bit words and wrap as in C (`Word.add`, `Word.sub`, `Word.mul`).
Spinlocks do not appear, since each function holds the zone lock over its whole body; nor do the
`kprintf` diagnostics and the zone fields that no function reads (`base_address`,
`allocation_map`, `map_size`).

Loops: the loops over orders recurse on the number of remaining orders, the layout loop of
`buddy_init` on the number of remaining pages. The search for the buddy block follows `next`
pointers found in memory; it is `LinkedList.search`, whose `none` is a walk that never ends, so
`buddyFreePages` returns an `Option`.
-/

namespace PrometheusKernel.Buddy

open ByteMem LinkedList

/-- `BUDDY_MAX_ORDER`. -/
def maxOrder : ℕ := 10

/-- `sizeof(g_allocation_bitmap)`. -/
def bitmapSize : ℕ := 1024 * 1024

/-- `buddy_zone_type_t`. -/
inductive ZoneType
  | unmovable
  | reclaimable
  | movable
  deriving DecidableEq, Repr

/-- The zone an enumeration value stands for; `none` from `BUDDY_ZONE_COUNT` on. -/
def ZoneType.ofNat? : ℕ → Option ZoneType
  | 0 => some .unmovable
  | 1 => some .reclaimable
  | 2 => some .movable
  | _ => none

/-- `buddy_zone_t`. -/
structure BuddyZone where
  /-- `free_lists`: the head of the free list of each order. -/
  freeLists : ℕ → ℕ
  /-- `free_counts`. -/
  freeCounts : ℕ → ℕ
  /-- `total_pages`. -/
  totalPages : ℕ
  /-- `free_pages`. -/
  freePages : ℕ

/-- The static data of `buddy.c`. -/
structure BuddyGlobals where
  /-- `g_zones`. -/
  zones : ZoneType → BuddyZone
  /-- `g_memory_start`. -/
  memoryStart : ℕ
  /-- `g_memory_size`. -/
  memorySize : ℕ
  /-- `g_allocation_bitmap`. -/
  allocationBitmap : ℕ → UInt8

/-- A zone without blocks, as after the first loop of `buddy_init`. -/
def emptyZone : BuddyZone where
  freeLists _ := 0
  freeCounts _ := 0
  totalPages := 0
  freePages := 0

/-- The static data before `buddy_init`. -/
def BuddyGlobals.zero : BuddyGlobals where
  zones _ := emptyZone
  memoryStart := 0
  memorySize := 0
  allocationBitmap _ := 0

/-- A machine whose pages come from the buddy allocator. -/
abbrev State := Machine BuddyGlobals

/-! ### Page arithmetic and the bitmap -/

/-- `pages_to_bytes`. -/
def pagesToBytes (pages : ℕ) : ℕ := Word.mul 64 pages pageSize

/-- `bytes_to_pages`. -/
def bytesToPages (bytes : ℕ) : ℕ := Word.sub 64 (Word.add 64 bytes pageSize) 1 / pageSize

/-- `addr_to_page_index`. -/
def addrToPageIndex (g : BuddyGlobals) (addr : ℕ) : ℕ := Word.sub 64 addr g.memoryStart / pageSize

/-- `page_index_to_addr`. -/
def pageIndexToAddr (g : BuddyGlobals) (index : ℕ) : ℕ :=
  Word.add 64 g.memoryStart (Word.mul 64 index pageSize)

/-- `set_allocation_bit`. -/
def setAllocationBit (bitmap : ℕ → UInt8) (pageIndex : ℕ) : ℕ → UInt8 :=
  let byteIndex := pageIndex / 8
  let bitIndex := pageIndex % 8
  if byteIndex < bitmapSize then
    Function.update bitmap byteIndex (bitmap byteIndex ||| (1 <<< UInt8.ofNat bitIndex))
  else bitmap

/-- `clear_allocation_bit`. -/
def clearAllocationBit (bitmap : ℕ → UInt8) (pageIndex : ℕ) : ℕ → UInt8 :=
  let byteIndex := pageIndex / 8
  let bitIndex := pageIndex % 8
  if byteIndex < bitmapSize then
    Function.update bitmap byteIndex (bitmap byteIndex &&& ~~~(1 <<< UInt8.ofNat bitIndex))
  else bitmap

/-- `test_allocation_bit`. -/
def testAllocationBit (bitmap : ℕ → UInt8) (pageIndex : ℕ) : Bool :=
  let byteIndex := pageIndex / 8
  let bitIndex := pageIndex % 8
  if byteIndex < bitmapSize then
    ((bitmap byteIndex >>> UInt8.ofNat bitIndex) &&& 1) != 0
  else false

/-- `get_buddy_address`. -/
def getBuddyAddress (g : BuddyGlobals) (addr order : ℕ) : ℕ :=
  pageIndexToAddr g (addrToPageIndex g addr ^^^ (1 <<< order))

/-! ### Free lists -/

/-- `block->next`. -/
def blockNext (m : Mem) (block : ℕ) : ℕ := load 8 m block

/-- `block->prev`. -/
def blockPrev (m : Mem) (block : ℕ) : ℕ := load 8 m (block + 8)

/-- `list_add`: the memory and the new value of `*head`. -/
def listAdd (m : Mem) (head block : ℕ) : Mem × ℕ :=
  let m := store 8 m block head
  let m := store 8 m (block + 8) 0
  let m := if head ≠ 0 then store 8 m (head + 8) block else m
  (m, block)

/-- `list_remove`: the memory and the new value of `*head`. -/
def listRemove (m : Mem) (head block : ℕ) : Mem × ℕ :=
  let (m, head) :=
    if blockPrev m block ≠ 0 then (store 8 m (blockPrev m block) (blockNext m block), head)
    else (m, blockNext m block)
  let m :=
    if blockNext m block ≠ 0 then store 8 m (blockNext m block + 8) (blockPrev m block) else m
  let m := store 8 m block 0
  let m := store 8 m (block + 8) 0
  (m, head)

/-- Replace the zone `z`. -/
def setZone (s : State) (z : ZoneType) (zone : BuddyZone) : State :=
  { s with pages := { s.pages with zones := Function.update s.pages.zones z zone } }

/-- `list_add(&zone->free_lists[order], block); zone->free_counts[order]++;`. -/
def addFree (s : State) (z : ZoneType) (order block : ℕ) : State :=
  let zone := s.pages.zones z
  let added := listAdd s.mem (zone.freeLists order) block
  setZone { s with mem := added.1 } z
    { zone with
      freeLists := Function.update zone.freeLists order added.2
      freeCounts := Function.update zone.freeCounts order (Word.add 64 (zone.freeCounts order) 1) }

/-- `list_remove(&zone->free_lists[order], block); zone->free_counts[order]--;`. -/
def removeFree (s : State) (z : ZoneType) (order block : ℕ) : State :=
  let zone := s.pages.zones z
  let removed := listRemove s.mem (zone.freeLists order) block
  setZone { s with mem := removed.1 } z
    { zone with
      freeLists := Function.update zone.freeLists order removed.2
      freeCounts := Function.update zone.freeCounts order (Word.sub 64 (zone.freeCounts order) 1) }

/-! ### `buddy_init` -/

/-- The inner loop of `buddy_init`: the order of the next block, counted down from `order`. -/
def initOrder (g : BuddyGlobals) (currentAddr remainingPages : ℕ) : ℕ → ℕ
  | 0 => 0
  | k + 1 =>
      let orderPages := 1 <<< (k + 1)
      if orderPages > remainingPages ∨ (addrToPageIndex g currentAddr &&& (orderPages - 1)) ≠ 0 then
        initOrder g currentAddr remainingPages k
      else k + 1

/-- The outer loop of `buddy_init`. Every iteration uses up at least one page, so as many
iterations as there are pages are enough. -/
def initLoop : ℕ → State → ℕ → ℕ → State
  | 0, s, _, _ => s
  | fuel + 1, s, currentAddr, remainingPages =>
      if remainingPages > 0 then
        let order := initOrder s.pages currentAddr remainingPages maxOrder
        let orderPages := 1 <<< order
        initLoop fuel (addFree s .unmovable order currentAddr)
          (Word.add 64 currentAddr (pagesToBytes orderPages))
          (Word.sub 64 remainingPages orderPages)
      else s

/-- The state in which the layout loop of `buddy_init` starts. -/
def initStart (m : Mem) (memoryStart memorySize : ℕ) : State where
  mem := m
  pages :=
    { zones := Function.update (fun _ => emptyZone) .unmovable
        { emptyZone with
          totalPages := bytesToPages memorySize
          freePages := bytesToPages memorySize }
      memoryStart := memoryStart
      memorySize := memorySize
      allocationBitmap := fun _ => 0 }

/-- `buddy_init`. -/
def buddyInit (m : Mem) (memoryStart memorySize : ℕ) : State :=
  let totalPages := bytesToPages memorySize
  initLoop totalPages (initStart m memoryStart memorySize) memoryStart totalPages

/-! ### `buddy_alloc_pages` -/

/-- The first order from `order` on whose free list is not empty, or `maxOrder + 1`; the first
argument counts the orders left. -/
def findOrder (zone : BuddyZone) : ℕ → ℕ → ℕ
  | 0, order => order
  | left + 1, order => if zone.freeLists order = 0 then findOrder zone left (order + 1) else order

/-- The split loop: from order `order + d` down to `order`, the upper half goes to the free list. -/
def splitLoop (z : ZoneType) (block order : ℕ) : ℕ → State → State
  | 0, s => s
  | d + 1, s =>
      splitLoop z block order d
        (addFree s z (order + d) (Word.add 64 block (pagesToBytes (1 <<< (order + d)))))

/-- `buddy_alloc_pages` once the zone is known. -/
def allocFromZone (s : State) (order : ℕ) (z : ZoneType) : ℕ × State :=
  let currentOrder := findOrder (s.pages.zones z) (maxOrder + 1 - order) order
  if currentOrder > maxOrder then (0, s)
  else
    let block := (s.pages.zones z).freeLists currentOrder
    let s := removeFree s z currentOrder block
    let s := splitLoop z block order (currentOrder - order) s
    let pageIndex := addrToPageIndex s.pages block
    let s : State :=
      { s with pages := { s.pages with
          allocationBitmap := setAllocationBit s.pages.allocationBitmap pageIndex } }
    let zone := s.pages.zones z
    (block, setZone s z { zone with freePages := Word.sub 64 zone.freePages (1 <<< order) })

/-- `buddy_alloc_pages`. -/
def buddyAllocPages (s : State) (order zoneType : ℕ) : ℕ × State :=
  if order > maxOrder then (0, s)
  else allocFromZone s order ((ZoneType.ofNat? zoneType).getD .unmovable)

/-! ### `buddy_free_pages` -/

/-- `address < g_memory_start || address >= g_memory_start + g_memory_size`. -/
def outOfRange (g : BuddyGlobals) (address : ℕ) : Bool :=
  address < g.memoryStart || address ≥ Word.add 64 g.memoryStart g.memorySize

/-- The coalescing loop of `buddy_free_pages`; the first argument counts the orders left. -/
def mergeLoop : ℕ → State → ℕ → ℕ → Option (State × ℕ × ℕ)
  | 0, s, currentAddr, currentOrder => some (s, currentAddr, currentOrder)
  | left + 1, s, currentAddr, currentOrder =>
      let buddyAddr := getBuddyAddress s.pages currentAddr currentOrder
      if outOfRange s.pages buddyAddr then some (s, currentAddr, currentOrder)
      else if testAllocationBit s.pages.allocationBitmap (addrToPageIndex s.pages buddyAddr) then
        some (s, currentAddr, currentOrder)
      else
        match search (blockNext s.mem) (fun current => current = buddyAddr) walkBound
            ((s.pages.zones .unmovable).freeLists currentOrder) with
        | none => none
        | some 0 => some (s, currentAddr, currentOrder)
        | some (buddyBlock + 1) =>
            mergeLoop left (removeFree s .unmovable currentOrder (buddyBlock + 1))
              (if currentAddr > buddyAddr then buddyAddr else currentAddr) (currentOrder + 1)

/-- `buddy_free_pages`; `none` if the walk of a free list does not end. -/
def buddyFreePages (s : State) (address order : ℕ) : Option State :=
  if order > maxOrder then some s
  else if address = 0 then some s
  else if outOfRange s.pages address then some s
  else if address % pageSize ≠ 0 then some s
  else
    let pageIndex := addrToPageIndex s.pages address
    let s : State :=
      { s with pages := { s.pages with
          allocationBitmap := clearAllocationBit s.pages.allocationBitmap pageIndex } }
    match mergeLoop (maxOrder - order) s address order with
    | none => none
    | some (s, currentAddr, currentOrder) =>
        let s := addFree s .unmovable currentOrder currentAddr
        let zone := s.pages.zones .unmovable
        some (setZone s .unmovable
          { zone with freePages := Word.add 64 zone.freePages (1 <<< order) })

/-! ### Statistics -/

/-- The sum of a counter over the three zones. -/
def sumZones (g : BuddyGlobals) (count : BuddyZone → ℕ) : ℕ :=
  [ZoneType.unmovable, .reclaimable, .movable].foldl
    (fun acc z => Word.add 64 acc (count (g.zones z))) 0

/-- `buddy_get_free_pages`. -/
def buddyGetFreePages (g : BuddyGlobals) : ℕ := sumZones g BuddyZone.freePages

/-- `buddy_get_total_pages`. -/
def buddyGetTotalPages (g : BuddyGlobals) : ℕ := sumZones g BuddyZone.totalPages

/-- `buddy_get_order_stats`: the new value of `*free_count`, if it is written. -/
def buddyGetOrderStats (g : BuddyGlobals) (order : ℕ) : Option ℕ :=
  if order > maxOrder then none else some (sumZones g fun zone => zone.freeCounts order)

/-! ### Allocation with GFP flags -/

/-- `GFP_ZERO`. -/
def gfpZero : ℕ := 0x04

/-- `GFP_RECLAIMABLE`. -/
def gfpReclaimable : ℕ := 0x10

/-- `GFP_MOVABLE`. -/
def gfpMovable : ℕ := 0x20

/-- The zone `buddy_alloc_pages_flags` selects, as an enumeration value. -/
def zoneOfFlags (flags : ℕ) : ℕ :=
  if flags &&& gfpMovable ≠ 0 then 2
  else if flags &&& gfpReclaimable ≠ 0 then 1
  else 0

/-- `buddy_alloc_pages_flags`. -/
def buddyAllocPagesFlags (s : State) (order flags : ℕ) : ℕ × State :=
  let res := buddyAllocPages s order (zoneOfFlags flags)
  let addr := res.1
  let s := res.2
  if addr = 0 then (0, s)
  else if flags &&& gfpZero ≠ 0 then
    (addr, { s with mem := fill (Word.mul 64 (1 <<< order) pageSize) s.mem addr 0 })
  else (addr, s)

end PrometheusKernel.Buddy
