import PrometheusKernel.Lib.LockOrder

/-!
# Lock skeletons of the memory subsystems: model of `kernel/mm`

What each function of `kernel/mm` does with spinlocks: it takes them, gives them back, and initialises those of the
structures that it sets up, which may be recycled memory. A definition follows the body of the source function from
top to bottom: a `branch` is a test of data, with the early returns first, and a call is the skeleton of the called
function. `kprintf` and `DEBUG_PRINT` take no locks, and neither do the functions of `vmm.c` themselves.

A lock is named by the structure that it is in: zones by their index, address spaces by their slot, the others by
their address. A function that makes a structure has the address that it gets as an argument.
-/

namespace PrometheusKernel.Locks

open LockOrder

/-- The spinlocks. -/
inductive Lock
  /-- `g_zones[z].lock`. -/
  | zone (z : ℕ)
  /-- `g_cache_list_lock`. -/
  | cacheList
  /-- `cache->lock` of a slab cache. -/
  | slabCache (cache : ℕ)
  /-- `cow_global_lock`. -/
  | cowGlobal
  /-- `ref->lock` of a `page_ref_t`. -/
  | pageRef (ref : ℕ)
  /-- `g_page_cache.lock`. -/
  | pageCache
  /-- `global_lock` of `demand_paging.c`. -/
  | demandPaging
  /-- `as->lock`. -/
  | addressSpace (as : ℕ)
  /-- `region->page_fault_lock`. -/
  | pageFault (region : ℕ)
  /-- `pool->lock`. -/
  | pool (pool : ℕ)
deriving DecidableEq

open Skeleton Lock

/-- One piece of code after the other. -/
def inTurn : List (Skeleton Lock) → Skeleton Lock
  | [] => skip
  | s :: rest => seq s (inTurn rest)

/-! ### `buddy.c` -/

/-- `buddy_init`. -/
def buddyInit : Skeleton Lock :=
  seq (loop skip) <|
  seq (inTurn ((List.range 3).map fun z => seq (init (zone z)) (loop skip))) (loop skip)

/-- `buddy_alloc_pages`, with the zone after its test. -/
def buddyAllocPages (z : ℕ) : Skeleton Lock :=
  branch skip <|
  seq (acquire (zone z)) <|
  branch (release (zone z)) (release (zone z))

/-- `buddy_free_pages`. -/
def buddyFreePages : Skeleton Lock :=
  branch skip <| branch skip <| branch skip <| branch skip <|
  seq (acquire (zone 0)) <|
  seq (loop skip) (release (zone 0))

/-- The loop of `buddy_get_free_pages`, `buddy_get_total_pages` and `buddy_get_order_stats` over the zones. -/
def eachZone : Skeleton Lock :=
  seq (seq (acquire (zone 0)) (release (zone 0))) <|
  seq (seq (acquire (zone 1)) (release (zone 1))) (seq (acquire (zone 2)) (release (zone 2)))

/-- `buddy_get_free_pages`. -/
def buddyGetFreePages : Skeleton Lock := eachZone

/-- `buddy_get_total_pages`. -/
def buddyGetTotalPages : Skeleton Lock := eachZone

/-- `buddy_get_order_stats`. -/
def buddyGetOrderStats : Skeleton Lock := branch skip eachZone

/-- `buddy_dump_stats`. -/
def buddyDumpStats : Skeleton Lock :=
  seq buddyGetTotalPages <| seq buddyGetFreePages <| seq (loop buddyGetOrderStats) eachZone

/-- `buddy_dump_zone`. -/
def buddyDumpZone (z : ℕ) : Skeleton Lock :=
  branch skip <| seq (acquire (zone z)) <| seq (loop (loop skip)) (release (zone z))

/-- `buddy_alloc_pages_flags`: the zone of the flags. -/
def buddyAllocPagesFlags : Skeleton Lock :=
  branch (buddyAllocPages 2) (branch (buddyAllocPages 1) (buddyAllocPages 0))

/-! ### `pmm.c` and `vmm.c` -/

/-- `pmm_init`. -/
def pmmInit : Skeleton Lock := seq (loop skip) (branch buddyInit skip)

/-- `pmm_alloc_frame`. -/
def pmmAllocFrame : Skeleton Lock := branch skip (buddyAllocPages 0)

/-- `pmm_free_frame`. -/
def pmmFreeFrame : Skeleton Lock := branch skip (branch skip buddyFreePages)

/-- `pmm_get_free_memory`. -/
def pmmGetFreeMemory : Skeleton Lock := branch buddyGetFreePages skip

/-- `get_or_alloc`. -/
def getOrAlloc : Skeleton Lock := branch skip pmmAllocFrame

/-- `vmm_create_address_space`. -/
def vmmCreateAddressSpace : Skeleton Lock := pmmAllocFrame

/-- `vmm_map_page`. -/
def vmmMapPage : Skeleton Lock :=
  seq getOrAlloc <| branch skip <| seq getOrAlloc <| branch skip getOrAlloc

/-! ### `slab.c` -/

/-- `slab_init`. -/
def slabInit : Skeleton Lock := init cacheList

/-- `slab_cache_create`, with the page that it takes for the cache. -/
def slabCacheCreate (cache : ℕ) : Skeleton Lock :=
  branch skip <| branch skip <| branch skip <|
  seq (buddyAllocPages 0) <|
  branch (seq buddyGetFreePages buddyGetTotalPages) <|
  seq (init (slabCache cache)) <|
  seq (loop skip) (seq (acquire cacheList) (release cacheList))

/-- `slab_cache_destroy`. -/
def slabCacheDestroy (cache : ℕ) : Skeleton Lock :=
  branch skip <|
  seq (seq (acquire cacheList) (seq (loop skip) (release cacheList))) <|
  seq (seq (acquire (slabCache cache)) <|
    seq (loop buddyFreePages) <| seq (loop buddyFreePages) <| seq (loop buddyFreePages) <|
    seq (loop (branch skip buddyFreePages)) (release (slabCache cache))) <|
  buddyFreePages

/-- `slab_create`. -/
def slabCreate : Skeleton Lock := buddyAllocPages 1

/-- `slab_alloc`. -/
def slabAlloc (cache : ℕ) : Skeleton Lock :=
  branch skip <| branch skip <|
  seq (acquire (slabCache cache)) <|
  seq (branch skip (branch skip slabCreate)) (release (slabCache cache))

/-- `slab_free`. -/
def slabFree (cache : ℕ) : Skeleton Lock :=
  branch skip <| branch skip <|
  seq (branch skip (branch skip (buddyAllocPages 0))) <|
  branch skip <|
  seq (acquire (slabCache cache)) (seq (loop skip) (release (slabCache cache)))

/-- `slab_cpu_cache_refill`. -/
def slabCpuCacheRefill (cache : ℕ) : Skeleton Lock :=
  seq (branch skip (buddyAllocPages 0)) <|
  branch skip <|
  seq (acquire (slabCache cache)) <|
  seq (loop (branch skip (branch skip slabCreate))) (release (slabCache cache))

/-- `slab_cpu_cache_drain`. -/
def slabCpuCacheDrain (cache : ℕ) : Skeleton Lock :=
  branch skip <| seq (acquire (slabCache cache)) <| seq (loop (loop skip)) (release (slabCache cache))

/-- `slab_get_stats`. -/
def slabGetStats (cache : ℕ) : Skeleton Lock :=
  branch skip <| seq (acquire (slabCache cache)) (release (slabCache cache))

/-! ### `heap.c` -/

/-- `heap_init`, with the pages of the caches for the size classes. -/
def heapInit (caches : List ℕ) : Skeleton Lock := branch skip (inTurn (caches.map slabCacheCreate))

/-- `kmalloc`, with the cache that it tries. -/
def kmalloc (cache : ℕ) : Skeleton Lock := branch skip (seq (branch skip (slabAlloc cache)) (loop skip))

/-- `kcalloc`. -/
def kcalloc (cache : ℕ) : Skeleton Lock := branch skip (seq (kmalloc cache) (loop skip))

/-- `kfree`, with the cache of the header. -/
def kfree (cache : ℕ) : Skeleton Lock :=
  branch skip <| branch skip <|
  branch (branch skip (branch skip (slabFree cache))) skip

/-- `krealloc`. -/
def krealloc (cache old : ℕ) : Skeleton Lock :=
  branch (kmalloc cache) <| branch (kfree old) <| branch skip <| branch skip <|
  seq (kmalloc cache) <| branch skip (seq (loop skip) (kfree old))

/-- `kmalloc_flags`. -/
def kmallocFlags (cache : ℕ) : Skeleton Lock := seq (kmalloc cache) (branch skip (loop skip))

/-- `kcalloc_flags`. -/
def kcallocFlags (cache : ℕ) : Skeleton Lock := kcalloc cache

/-! ### `cow.c` -/

/-- `cow_init`. -/
def cowInit : Skeleton Lock := seq (loop skip) (init cowGlobal)

/-- `cow_get_ref`, with the page that it takes for a new entry. -/
def cowGetRef (ref : ℕ) : Skeleton Lock :=
  seq (acquire cowGlobal) <|
  seq (loop skip) <|
  branch (release cowGlobal) <|
  seq (buddyAllocPages 0) <|
  branch (release cowGlobal) (seq (init (pageRef ref)) (release cowGlobal))

/-- `cow_mark_page`, with the entry that `cow_get_ref` gives. -/
def cowMarkPage (ref : ℕ) : Skeleton Lock :=
  branch skip <| branch skip <| branch skip <|
  seq (cowGetRef ref) <|
  branch skip (seq (acquire (pageRef ref)) (release (pageRef ref)))

/-- `cow_handle_fault`. -/
def cowHandleFault (ref : ℕ) : Skeleton Lock :=
  branch skip <| branch skip <| branch skip <|
  seq (cowGetRef ref) <|
  branch skip <|
  seq (acquire (pageRef ref)) <|
  branch (release (pageRef ref)) <|
  seq (release (pageRef ref)) <|
  seq (buddyAllocPages 0) <|
  branch (seq (acquire (pageRef ref)) (release (pageRef ref))) (loop skip)

/-- `cow_increment_ref`. -/
def cowIncrementRef (ref : ℕ) : Skeleton Lock :=
  seq (cowGetRef ref) <| branch skip (seq (acquire (pageRef ref)) (release (pageRef ref)))

/-- `cow_decrement_ref`. -/
def cowDecrementRef (ref : ℕ) : Skeleton Lock :=
  seq (acquire cowGlobal) <|
  seq (loop skip) <|
  branch (release cowGlobal) <|
  seq (seq (acquire (pageRef ref)) (release (pageRef ref))) <|
  branch (seq (release cowGlobal) (seq buddyFreePages buddyFreePages)) (release cowGlobal)

/-- `cow_get_ref_count`. -/
def cowGetRefCount (ref : ℕ) : Skeleton Lock :=
  seq (acquire cowGlobal) <|
  seq (loop skip) <|
  branch (seq (seq (acquire (pageRef ref)) (release (pageRef ref))) (release cowGlobal)) (release cowGlobal)

/-! ### `page_cache.c` -/

/-- `page_cache_init`. -/
def pageCacheInit : Skeleton Lock := seq (init pageCache) (buddyAllocPages 0)

/-- `page_cache_lookup`. -/
def pageCacheLookup : Skeleton Lock :=
  branch skip <|
  seq (acquire pageCache) <|
  seq (loop skip) (branch (release pageCache) (release pageCache))

/-- `page_cache_evict_lru`. -/
def pageCacheEvictLru : Skeleton Lock :=
  branch skip <|
  seq (acquire pageCache) <|
  branch (release pageCache) <|
  seq (loop skip) (seq buddyFreePages (seq buddyFreePages (release pageCache)))

/-- `page_cache_insert`: it gives the lock back around `page_cache_evict_lru`. -/
def pageCacheInsert : Skeleton Lock :=
  branch skip <|
  seq (acquire pageCache) <|
  seq (loop skip) <|
  branch (release pageCache) <|
  seq (branch skip (seq (seq (release pageCache) pageCacheEvictLru) (acquire pageCache))) <|
  seq (buddyAllocPages 0) (branch (release pageCache) (release pageCache))

/-- `page_cache_remove`. -/
def pageCacheRemove : Skeleton Lock :=
  branch skip <|
  seq (acquire pageCache) <|
  seq (loop skip) (branch (seq buddyFreePages (release pageCache)) (release pageCache))

/-- `page_cache_get_stats`. -/
def pageCacheGetStats : Skeleton Lock := branch skip (seq (acquire pageCache) (release pageCache))

/-! ### `demand_paging.c` -/

/-- `MAX_ADDRESS_SPACES`. -/
def maxAddressSpaces : ℕ := 256

/-- `demand_paging_init`, with the page of `vm_region_cache`. -/
def demandPagingInit (regionCache : ℕ) : Skeleton Lock :=
  seq (init demandPaging) <|
  seq (inTurn ((List.range maxAddressSpaces).map fun as => init (addressSpace as))) (slabCacheCreate regionCache)

/-- `demand_paging_get_address_space`. -/
def demandPagingGetAddressSpace : Skeleton Lock :=
  seq (acquire demandPaging) <|
  seq (loop skip) <|
  branch (release demandPaging) (branch (release demandPaging) (release demandPaging))

/-- `demand_paging_find_region`, with the slot of the address space. -/
def demandPagingFindRegion (as : ℕ) : Skeleton Lock :=
  seq demandPagingGetAddressSpace <|
  branch skip <|
  seq (acquire (addressSpace as)) <|
  seq (loop skip) (branch (release (addressSpace as)) (release (addressSpace as)))

/-- `demand_paging_register_region`; `regionCache` is `vm_region_cache`, and `region` what `slab_alloc` gives. -/
def demandPagingRegisterRegion (as regionCache region : ℕ) : Skeleton Lock :=
  branch skip <|
  seq demandPagingGetAddressSpace <|
  branch skip <|
  seq (acquire (addressSpace as)) <|
  seq (loop skip) <|
  branch (release (addressSpace as)) <|
  seq (slabAlloc regionCache) <|
  branch (release (addressSpace as)) (seq (init (pageFault region)) (release (addressSpace as)))

/-- `demand_paging_handle_fault`, with the region of the address. -/
def demandPagingHandleFault (as region : ℕ) : Skeleton Lock :=
  seq (demandPagingFindRegion as) <|
  branch skip <| branch skip <| branch skip <|
  seq (acquire (pageFault region)) <|
  branch (release (pageFault region)) <|
  seq (buddyAllocPages 2) <|
  branch (release (pageFault region)) <|
  seq (branch skip (loop skip)) (seq vmmMapPage (release (pageFault region)))

/-- `demand_paging_unregister_region`. -/
def demandPagingUnregisterRegion (as regionCache : ℕ) : Skeleton Lock :=
  seq demandPagingGetAddressSpace <|
  branch skip <|
  seq (acquire (addressSpace as)) <|
  seq (loop skip) <|
  branch (seq (loop (branch skip buddyFreePages)) (seq (slabFree regionCache) (release (addressSpace as))))
    (release (addressSpace as))

/-! ### `pool.c` -/

/-- `pool_grow`. -/
def poolGrow : Skeleton Lock := branch skip (seq (buddyAllocPages 1) (branch skip (loop skip)))

/-- `pool_create`, with the page that it takes for the pool. -/
def poolCreate (p : ℕ) : Skeleton Lock :=
  branch skip <|
  seq (buddyAllocPages 0) <|
  branch skip <|
  seq (init (pool p)) <|
  seq poolGrow (branch buddyFreePages skip)

/-- `pool_alloc`. -/
def poolAlloc (p : ℕ) : Skeleton Lock :=
  branch skip <|
  seq (acquire (pool p)) <|
  branch (seq poolGrow (branch (release (pool p)) (release (pool p)))) (release (pool p))

/-- `pool_free`. -/
def poolFree (p : ℕ) : Skeleton Lock := branch skip (seq (acquire (pool p)) (release (pool p)))

/-- `pool_destroy`. -/
def poolDestroy (p : ℕ) : Skeleton Lock :=
  branch skip <|
  seq (seq (acquire (pool p)) (seq (loop (seq (loop skip) buddyFreePages)) (release (pool p)))) buddyFreePages

/-- `pool_get_utilization`. -/
def poolGetUtilization (p : ℕ) : Skeleton Lock := branch skip (seq (acquire (pool p)) (release (pool p)))

/-! ### Calls -/

/-- The skeletons of the calls, with the locks that their data lead them to. -/
inductive Call : Skeleton Lock → Prop
  | buddyInit : Call Locks.buddyInit
  | buddyAllocPages (z : ℕ) : Call (Locks.buddyAllocPages z)
  | buddyAllocPagesFlags : Call Locks.buddyAllocPagesFlags
  | buddyFreePages : Call Locks.buddyFreePages
  | buddyGetFreePages : Call Locks.buddyGetFreePages
  | buddyGetTotalPages : Call Locks.buddyGetTotalPages
  | buddyGetOrderStats : Call Locks.buddyGetOrderStats
  | buddyDumpStats : Call Locks.buddyDumpStats
  | buddyDumpZone (z : ℕ) : Call (Locks.buddyDumpZone z)
  | pmmInit : Call Locks.pmmInit
  | pmmAllocFrame : Call Locks.pmmAllocFrame
  | pmmFreeFrame : Call Locks.pmmFreeFrame
  | pmmGetFreeMemory : Call Locks.pmmGetFreeMemory
  | vmmCreateAddressSpace : Call Locks.vmmCreateAddressSpace
  | vmmMapPage : Call Locks.vmmMapPage
  | slabInit : Call Locks.slabInit
  | slabCacheCreate (cache : ℕ) : Call (Locks.slabCacheCreate cache)
  | slabCacheDestroy (cache : ℕ) : Call (Locks.slabCacheDestroy cache)
  | slabAlloc (cache : ℕ) : Call (Locks.slabAlloc cache)
  | slabFree (cache : ℕ) : Call (Locks.slabFree cache)
  | slabCpuCacheRefill (cache : ℕ) : Call (Locks.slabCpuCacheRefill cache)
  | slabCpuCacheDrain (cache : ℕ) : Call (Locks.slabCpuCacheDrain cache)
  | slabGetStats (cache : ℕ) : Call (Locks.slabGetStats cache)
  | heapInit (caches : List ℕ) : Call (Locks.heapInit caches)
  | kmalloc (cache : ℕ) : Call (Locks.kmalloc cache)
  | kcalloc (cache : ℕ) : Call (Locks.kcalloc cache)
  | krealloc (cache old : ℕ) : Call (Locks.krealloc cache old)
  | kfree (cache : ℕ) : Call (Locks.kfree cache)
  | kmallocFlags (cache : ℕ) : Call (Locks.kmallocFlags cache)
  | kcallocFlags (cache : ℕ) : Call (Locks.kcallocFlags cache)
  | cowInit : Call Locks.cowInit
  | cowGetRef (ref : ℕ) : Call (Locks.cowGetRef ref)
  | cowMarkPage (ref : ℕ) : Call (Locks.cowMarkPage ref)
  | cowHandleFault (ref : ℕ) : Call (Locks.cowHandleFault ref)
  | cowIncrementRef (ref : ℕ) : Call (Locks.cowIncrementRef ref)
  | cowDecrementRef (ref : ℕ) : Call (Locks.cowDecrementRef ref)
  | cowGetRefCount (ref : ℕ) : Call (Locks.cowGetRefCount ref)
  | pageCacheInit : Call Locks.pageCacheInit
  | pageCacheLookup : Call Locks.pageCacheLookup
  | pageCacheInsert : Call Locks.pageCacheInsert
  | pageCacheEvictLru : Call Locks.pageCacheEvictLru
  | pageCacheRemove : Call Locks.pageCacheRemove
  | pageCacheGetStats : Call Locks.pageCacheGetStats
  | demandPagingInit (regionCache : ℕ) : Call (Locks.demandPagingInit regionCache)
  | demandPagingGetAddressSpace : Call Locks.demandPagingGetAddressSpace
  | demandPagingFindRegion (as : ℕ) : Call (Locks.demandPagingFindRegion as)
  | demandPagingRegisterRegion (as regionCache region : ℕ) :
      Call (Locks.demandPagingRegisterRegion as regionCache region)
  | demandPagingHandleFault (as region : ℕ) : Call (Locks.demandPagingHandleFault as region)
  | demandPagingUnregisterRegion (as regionCache : ℕ) : Call (Locks.demandPagingUnregisterRegion as regionCache)
  | poolCreate (p : ℕ) : Call (Locks.poolCreate p)
  | poolAlloc (p : ℕ) : Call (Locks.poolAlloc p)
  | poolFree (p : ℕ) : Call (Locks.poolFree p)
  | poolDestroy (p : ℕ) : Call (Locks.poolDestroy p)
  | poolGetUtilization (p : ℕ) : Call (Locks.poolGetUtilization p)

/-- The skeletons of lists of calls. -/
inductive Program : Skeleton Lock → Prop
  | done : Program skip
  | call {s rest : Skeleton Lock} (hcall : Call s) (hrest : Program rest) : Program (seq s rest)

end PrometheusKernel.Locks
