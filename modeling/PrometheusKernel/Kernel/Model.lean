import PrometheusKernel.Pmm.Model
import PrometheusKernel.Pool.Model
import PrometheusKernel.Slab.Caches
import PrometheusKernel.DemandPaging.Model

/-!
# The allocators of the kernel on one another

The models of the single files leave the functions of the files below as parameters. Here the parameters are what
the kernel links in: `slab.c` and `pool.c` call `buddy_alloc_pages` and `buddy_free_pages` of the one buddy
allocator, `demand_paging.c` takes its regions from `vm_region_cache`, its pages from `BUDDY_ZONE_MOVABLE` and its
page tables from `pmm_alloc_frame`. `Globals` is the static data of all of them.

`boot` is the part of `kernel_main` that sets them up: `pmm_init` with a memory map, `slab_init` and
`demand_paging_init`. What else runs in the kernel appears as page allocations, and as releases and writes of what
it holds. A call that does not return has no outcome.

The static data is apart from memory, and so are the `slab_cache_t` structures: each is in a page that
`slab_cache_create` has taken and that nobody else holds.
-/

namespace PrometheusKernel.Kernel

open ByteMem Buddy Interleaving

/-! ### Static data -/

/-- The static data of `pmm.c` and `buddy.c`, and the caches of `slab.c`. -/
structure Globals where
  pmm : Pmm.PmmGlobals
  /-- The `slab_cache_t` at each address, with its `next`. -/
  cacheAt : ℕ → Slab.Cache
  next : ℕ → ℕ
  /-- `g_cache_list`. -/
  cacheList : ℕ

/-- Memory and what `pmm.c` owns. -/
def toPmm (m : Machine Globals) : Pmm.State := ⟨m.mem, m.pages.pmm⟩

def setPmm (m : Machine Globals) (p : Pmm.State) : Machine Globals := ⟨p.mem, { m.pages with pmm := p.pages }⟩

/-- Memory and what `buddy.c` owns. -/
def toBuddy (m : Machine Globals) : Buddy.State := (toPmm m).toBuddy

def setBuddy (m : Machine Globals) (b : Buddy.State) : Machine Globals := setPmm m ((toPmm m).setBuddy b)

/-- The caches of `slab.c` on the buddy allocator. -/
def toCaches (m : Machine Globals) : Slab.Caches BuddyGlobals :=
  ⟨toBuddy m, m.pages.cacheAt, m.pages.next, m.pages.cacheList⟩

def setCaches (m : Machine Globals) (c : Slab.Caches BuddyGlobals) : Machine Globals :=
  let m' := setBuddy m c.machine
  ⟨m'.mem, { m'.pages with cacheAt := c.cacheAt, next := c.next, cacheList := c.cacheList }⟩

/-- One cache on the buddy allocator. -/
def toCache (m : Machine Globals) (cache : ℕ) : Slab.State BuddyGlobals := ⟨toBuddy m, m.pages.cacheAt cache⟩

def setCache (m : Machine Globals) (cache : ℕ) (s : Slab.State BuddyGlobals) : Machine Globals :=
  let m' := setBuddy m s.toMachine
  ⟨m'.mem, { m'.pages with cacheAt := Function.update m.pages.cacheAt cache s.cache }⟩

/-! ### The functions as linked -/

/-- `buddy_alloc_pages(order, zone_type)`. -/
def allocPages (zoneType order : ℕ) (b : Buddy.State) : ℕ × Buddy.State := buddyAllocPages b order zoneType

/-- `buddy_free_pages(address, order)`, where it returns. -/
def freePages (address order : ℕ) (b : Buddy.State) : Buddy.State := (buddyFreePages b address order).getD b

/-- `slab_cache_create`. -/
def slabCacheCreate (m : Machine Globals) (name size align : ℕ) : Option (ℕ × Machine Globals) :=
  (Slab.cacheCreate (allocPages 0 0) (toCaches m) name size align).map fun res => (res.1, setCaches m res.2)

/-- `slab_cache_destroy`. -/
def slabCacheDestroy (m : Machine Globals) (cache : ℕ) : Option (Machine Globals) :=
  (Slab.slabCacheDestroy freePages (toCaches m) cache).map (setCaches m)

/-- `slab_alloc`. -/
def slabAlloc (m : Machine Globals) (cache : ℕ) : Option (ℕ × Machine Globals) :=
  if cache = 0 then some (0, m)
  else (Slab.slabAlloc (allocPages 1 0) (toCache m cache)).map fun res => (res.1, setCache m cache res.2)

/-- `slab_free`. -/
def slabFree (m : Machine Globals) (cache object : ℕ) : Option (Machine Globals) :=
  if cache = 0 then some m else (Slab.slabFree (allocPages 0 0) (toCache m cache) object).map (setCache m cache)

/-- `pool_create`: the machine, and the pool if there is one. -/
def poolCreate (m : Machine Globals) (name objectSize initialCount : ℕ) :
    Option (Option Pool.MemoryPool × Machine Globals) :=
  (Pool.poolCreate (allocPages 1) (allocPages 0) freePages (toBuddy m) name objectSize initialCount).map fun res =>
    match res with
    | .error b => (none, setBuddy m b)
    | .ok s => (some s.pool, setBuddy m s.toMachine)

/-- The machine, the tables of `demand_paging.c`, and what the clients hold. -/
structure State where
  paging : DemandPaging.State Globals
  /-- `vm_region_cache`. -/
  vmRegionCache : ℕ
  /-- The blocks that clients hold, with their orders. -/
  held : List (ℕ × ℕ)
  /-- The caches that exist. -/
  created : List ℕ
  /-- The objects of each cache that clients hold. -/
  live : ℕ → List ℕ
  /-- How many calls of `slab_alloc`, `pool_create`, `demand_paging_register_region` and
  `demand_paging_handle_fault` were served. -/
  served : ℕ

def State.machine (s : State) : Machine Globals := s.paging.machine

def State.setMachine (s : State) (m : Machine Globals) : State := { s with paging := { s.paging with machine := m } }

/-- `demand_paging_register_region`, on `vm_region_cache`. -/
def registerRegion (s : State) (pml4 start size flags : ℕ) : Option (ℤ × DemandPaging.State Globals) :=
  DemandPaging.demandPagingRegisterRegion (fun m => (slabAlloc m s.vmRegionCache).getD (0, m)) s.paging pml4 start size
    flags

/-- `demand_paging_unregister_region`. -/
def unregisterRegion (s : State) (pml4 start : ℕ) : Option (DemandPaging.State Globals) :=
  DemandPaging.demandPagingUnregisterRegion (fun region m => (slabFree m s.vmRegionCache region).getD m)
    (fun frame m => setBuddy m (freePages frame 0 (toBuddy m))) s.paging pml4 start

/-- `demand_paging_handle_fault`. -/
def handleFault (s : State) (pml4 virtAddr : ℕ) : Option (ℤ × DemandPaging.State Globals) :=
  DemandPaging.demandPagingHandleFault
    (fun m => ((allocPages 2 0 (toBuddy m)).1, setBuddy m (allocPages 2 0 (toBuddy m)).2))
    (fun m => ((Pmm.pmmAllocFrame (toPmm m)).1, setPmm m (Pmm.pmmAllocFrame (toPmm m)).2)) s.paging pml4 virtAddr

/-! ### Boot and runs -/

/-- `pmm_init`, `slab_init` and `demand_paging_init`; the name and the size of `vm_region_t` are those of the call in
`demand_paging_init`. -/
def boot (mem : Mem) (mmap mmapSize vmRegionName : ℕ) : Option State :=
  let pmm := Pmm.pmmInit (Pmm.initial mem) mmap mmapSize
  let m : Machine Globals := ⟨pmm.mem, pmm.pages, fun _ => Slab.newCache 0 0, fun _ => 0, 0⟩
  let paging : DemandPaging.State Globals :=
    DemandPaging.demandPagingInit ⟨m, fun _ => ⟨0, 0⟩, 0, fun _ => ⟨0, 0, 0, 0⟩⟩
  (slabCacheCreate m vmRegionName 32 8).map fun res =>
    { paging := { paging with machine := res.2 }
      vmRegionCache := res.1
      held := []
      created := if res.1 = 0 then [] else [res.1]
      live := fun _ => []
      served := 0 }

/-- A call, or a byte written. -/
inductive Call
  | allocPages (order zoneType : ℕ)
  | allocPagesFlags (order flags : ℕ)
  | allocFrame
  | freePages (address order : ℕ)
  | freeFrame (frame : ℕ)
  | write (addr : ℕ) (byte : UInt8)
  | cacheCreate (name size align : ℕ)
  | cacheDestroy (cache : ℕ)
  | slabAlloc (cache : ℕ)
  | slabFree (cache object : ℕ)
  | poolCreate (name objectSize initialCount : ℕ)
  | registerRegion (pml4 start size flags : ℕ)
  | unregisterRegion (pml4 start : ℕ)
  | handleFault (pml4 virtAddr : ℕ)

/-- Clients free and write the blocks that they hold, name caches that exist, and free the objects that they hold. -/
def Valid (s : State) : Call → Prop
  | .freePages address order => (address, order) ∈ s.held
  | .freeFrame frame => (frame, 0) ∈ s.held
  | .write addr _ => ∃ q ∈ s.held, q.1 ≤ addr ∧ addr < q.1 + 2 ^ q.2 * pageSize
  | .cacheDestroy cache => cache ∈ s.created ∧ cache ≠ s.vmRegionCache
  | .slabAlloc cache => cache = 0 ∨ cache ∈ s.created
  | .slabFree cache object => (cache = 0 ∨ cache ∈ s.created) ∧ (object = 0 ∨ object ∈ s.live cache)
  | _ => True

/-- Whether a block is held. -/
def State.decideHeld (s : State) (block : ℕ × ℕ) : Decidable (block ∈ s.held) :=
  decidable_of_iff (∃ b ∈ s.held, b = block) exists_eq_right

instance (s : State) (call : Call) : Decidable (Valid s call) := by
  cases call with
  | freePages address order => exact s.decideHeld (address, order)
  | freeFrame frame => exact s.decideHeld (frame, 0)
  | _ => unfold Valid; infer_instance

/-- One call. -/
def step (s : State) : Call → Option State
  | .allocPages order zoneType =>
      let res := buddyAllocPages (toBuddy s.machine) order zoneType
      some { s.setMachine (setBuddy s.machine res.2) with held := gain s.held res.1 order }
  | .allocPagesFlags order flags =>
      let res := buddyAllocPagesFlags (toBuddy s.machine) order flags
      some { s.setMachine (setBuddy s.machine res.2) with held := gain s.held res.1 order }
  | .allocFrame =>
      let res := Pmm.pmmAllocFrame (toPmm s.machine)
      some { s.setMachine (setPmm s.machine res.2) with held := gain s.held res.1 0 }
  | .freePages address order => (buddyFreePages (toBuddy s.machine) address order).map fun b =>
      { s.setMachine (setBuddy s.machine b) with held := s.held.erase (address, order) }
  | .freeFrame frame => (Pmm.pmmFreeFrame (toPmm s.machine) frame).map fun p =>
      { s.setMachine (setPmm s.machine p) with held := s.held.erase (frame, 0) }
  | .write addr byte => some (s.setMachine { s.machine with mem := Function.update s.machine.mem addr byte })
  | .cacheCreate name size align => (slabCacheCreate s.machine name size align).map fun res =>
      if res.1 = 0 then s.setMachine res.2
      else { s.setMachine res.2 with
        created := res.1 :: s.created, live := Function.update s.live res.1 [] }
  | .cacheDestroy cache => (slabCacheDestroy s.machine cache).map fun m =>
      { s.setMachine m with created := s.created.erase cache }
  | .slabAlloc cache => (slabAlloc s.machine cache).map fun res =>
      if res.1 = 0 then s.setMachine res.2
      else { s.setMachine res.2 with
        live := Function.update s.live cache (res.1 :: s.live cache), served := s.served + 1 }
  | .slabFree cache object => (slabFree s.machine cache object).map fun m =>
      { s.setMachine m with live := Function.update s.live cache ((s.live cache).erase object) }
  | .poolCreate name objectSize initialCount => (poolCreate s.machine name objectSize initialCount).map fun res =>
      { s.setMachine res.2 with served := if res.1.isSome then s.served + 1 else s.served }
  | .registerRegion pml4 start size flags =>
      (registerRegion s pml4 start size flags).map fun (res : ℤ × DemandPaging.State Globals) =>
      { s with paging := res.2, served := if res.1 = 0 then s.served + 1 else s.served }
  | .unregisterRegion pml4 start => (unregisterRegion s pml4 start).map fun paging => { s with paging := paging }
  | .handleFault pml4 virtAddr => (handleFault s pml4 virtAddr).map fun (res : ℤ × DemandPaging.State Globals) =>
      { s with paging := res.2, served := if res.1 = 0 then s.served + 1 else s.served }

end PrometheusKernel.Kernel
