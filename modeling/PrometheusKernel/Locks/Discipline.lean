import PrometheusKernel.Locks.Model

/-!
# The memory subsystems do not deadlock

Every function of `kernel/mm` takes its locks in one order (`rank`): the locks of the tables and structures first,
then those of slab caches and reference entries, then those of the zones; and it gives back on every path what it
took. `page_cache_insert` is the one that has to give its lock back on the way, since `page_cache_evict_lru` takes
it as well.

`calls_complete` follows with the rules of `LockOrder`: however the calls of several CPUs are interleaved, as long as
no lock is initialised while a CPU is in its critical section, each critical section has one CPU at a time, and the
CPUs can always be run to the end of their calls. `region_lock_lost` is a run in which a lock is: the region of a
fault that is being handled is unregistered, and its memory is the region of the next registration.
-/

namespace PrometheusKernel.Locks

open LockOrder Skeleton Interleaving

/-- The order in which locks are taken. -/
def rank : Lock → ℕ
  | .zone _ => 2
  | .slabCache _ => 1
  | .pageRef _ => 1
  | .pageFault _ => 1
  | _ => 0

/-! ### One lemma for each function -/

section functions

variable {z cache old ref as region regionCache p r : ℕ}

/-- A critical section that takes no other lock. -/
theorem balanced_locked {l : Lock} (hr : r ≤ rank l) : Balanced rank r (seq (.acquire l) (.release l)) :=
  Balanced.locked Leaves.release hr

/-- A loop over data. -/
theorem balanced_loop : Balanced rank r (loop (skip : Skeleton Lock)) := Balanced.skip.loop

/-- Balanced pieces of code in turn are balanced. -/
theorem inTurn_balanced {l : List (Skeleton Lock)} (h : ∀ s ∈ l, Balanced rank r s) : Balanced rank r (inTurn l) := by
  induction l with
  | nil => exact Balanced.skip
  | cons s l ih => exact (h s List.mem_cons_self).seq (ih fun t ht => h t (List.mem_cons_of_mem s ht))

/-- `buddy_init` initialises the locks of the zones. -/
theorem buddyInit_balanced : Balanced rank 2 buddyInit := by
  refine balanced_loop.seq ((inTurn_balanced fun s hs => ?_).seq balanced_loop)
  obtain ⟨z, -, rfl⟩ := List.mem_map.mp hs
  exact (Balanced.init (show 2 ≤ rank (.zone z) from le_rfl)).seq balanced_loop

/-- `pmm_init` initialises what `buddy_init` does. -/
theorem pmmInit_balanced : Balanced rank 2 pmmInit := balanced_loop.seq (buddyInit_balanced.branch Balanced.skip)

/-- `buddy_alloc_pages` takes the lock of its zone on each path. -/
theorem buddyAllocPages_balanced : Balanced rank 2 (buddyAllocPages z) :=
  Balanced.skip.branch (Balanced.locked (Leaves.branch Leaves.release Leaves.release) le_rfl)

/-- `buddy_free_pages` takes the lock of the first zone. -/
theorem buddyFreePages_balanced : Balanced rank 2 buddyFreePages := by
  have hlocked : Balanced rank 2 (seq (.acquire (.zone 0)) (seq (loop skip) (.release (.zone 0)))) :=
    Balanced.locked (Leaves.after (balanced_loop (r := 3)) (by decide) Leaves.release) le_rfl
  exact Balanced.skip.branch (Balanced.skip.branch (Balanced.skip.branch (Balanced.skip.branch hlocked)))

/-- The locks of the zones are taken in turn, and not together. -/
theorem eachZone_balanced : Balanced rank 2 eachZone := by
  have hzone : ∀ z, Balanced rank 2 (seq (.acquire (.zone z)) (.release (.zone z))) := fun z =>
    balanced_locked (show 2 ≤ rank (.zone z) from le_rfl)
  exact (hzone 0).seq ((hzone 1).seq (hzone 2))

/-- `buddy_get_order_stats` takes the locks of the zones in turn. -/
theorem buddyGetOrderStats_balanced : Balanced rank 2 buddyGetOrderStats := Balanced.skip.branch eachZone_balanced

/-- `buddy_dump_stats` takes the locks of the zones in turn. -/
theorem buddyDumpStats_balanced : Balanced rank 2 buddyDumpStats :=
  eachZone_balanced.seq (eachZone_balanced.seq (buddyGetOrderStats_balanced.loop.seq eachZone_balanced))

/-- `buddy_dump_zone` takes the lock of its zone. -/
theorem buddyDumpZone_balanced : Balanced rank 2 (buddyDumpZone z) :=
  Balanced.skip.branch (Balanced.locked
    (Leaves.after (balanced_loop (r := 3)).loop (by show 2 < 3; omega) Leaves.release) le_rfl)

/-- `buddy_alloc_pages_flags` takes the lock of one zone. -/
theorem buddyAllocPagesFlags_balanced : Balanced rank 2 buddyAllocPagesFlags :=
  buddyAllocPages_balanced.branch (buddyAllocPages_balanced.branch buddyAllocPages_balanced)

/-- `pmm_alloc_frame` takes the lock of the first zone. -/
theorem pmmAllocFrame_balanced : Balanced rank 2 pmmAllocFrame := Balanced.skip.branch buddyAllocPages_balanced

/-- `pmm_free_frame` takes the lock of the first zone. -/
theorem pmmFreeFrame_balanced : Balanced rank 2 pmmFreeFrame :=
  Balanced.skip.branch (Balanced.skip.branch buddyFreePages_balanced)

/-- `pmm_get_free_memory` takes the locks of the zones in turn. -/
theorem pmmGetFreeMemory_balanced : Balanced rank 2 pmmGetFreeMemory := eachZone_balanced.branch Balanced.skip

/-- `get_or_alloc` takes no lock but for a frame. -/
theorem getOrAlloc_balanced : Balanced rank 2 getOrAlloc := Balanced.skip.branch pmmAllocFrame_balanced

/-- `vmm_map_page` takes no lock but for its frames. -/
theorem vmmMapPage_balanced : Balanced rank 2 vmmMapPage :=
  getOrAlloc_balanced.seq
    (Balanced.skip.branch (getOrAlloc_balanced.seq (Balanced.skip.branch getOrAlloc_balanced)))

/-- `slab_cache_create` takes its page before the lock of the list. -/
theorem slabCacheCreate_balanced : Balanced rank 0 (slabCacheCreate cache) := by
  have hpage : Balanced rank 0 (buddyAllocPages 0) := buddyAllocPages_balanced.mono (Nat.zero_le 2)
  have hfull : Balanced rank 0 (seq buddyGetFreePages buddyGetTotalPages) :=
    (eachZone_balanced.seq eachZone_balanced).mono (Nat.zero_le 2)
  have hnew : Balanced rank 0 (seq (.init (.slabCache cache))
      (seq (loop skip) (seq (.acquire .cacheList) (.release .cacheList)))) :=
    (Balanced.init (Nat.zero_le _)).seq (balanced_loop.seq (balanced_locked le_rfl))
  exact Balanced.skip.branch (Balanced.skip.branch (Balanced.skip.branch (hpage.seq (hfull.branch hnew))))

/-- `slab_cache_destroy` gives pages back with the lock of the cache. -/
theorem slabCacheDestroy_balanced : Balanced rank 0 (slabCacheDestroy cache) := by
  have hfree : Leaves rank (.slabCache cache) (seq (loop (branch skip buddyFreePages)) (.release (.slabCache cache))) :=
    Leaves.after (Balanced.skip.branch buddyFreePages_balanced).loop (by show 1 < 2; omega) Leaves.release
  have hlist : Leaves rank (.slabCache cache) (seq (loop buddyFreePages) (seq (loop buddyFreePages)
      (seq (loop buddyFreePages) (seq (loop (branch skip buddyFreePages)) (.release (.slabCache cache)))))) :=
    Leaves.after buddyFreePages_balanced.loop (by show 1 < 2; omega) <|
      Leaves.after buddyFreePages_balanced.loop (by show 1 < 2; omega) <|
      Leaves.after buddyFreePages_balanced.loop (by show 1 < 2; omega) hfree
  have hunlink : Balanced rank 0 (seq (.acquire .cacheList) (seq (loop skip) (.release .cacheList))) :=
    Balanced.locked (Leaves.after (balanced_loop (r := 1)) (by decide) Leaves.release) le_rfl
  exact Balanced.skip.branch (hunlink.seq
    ((Balanced.locked hlist (Nat.zero_le _)).seq (buddyFreePages_balanced.mono (Nat.zero_le 2))))

/-- `slab_create` takes no lock but for its page. -/
theorem slabCreate_balanced : Balanced rank 2 slabCreate := buddyAllocPages_balanced

/-- `slab_alloc` takes a page with the lock of the cache. -/
theorem slabAlloc_balanced : Balanced rank 1 (slabAlloc cache) :=
  Balanced.skip.branch (Balanced.skip.branch (Balanced.locked
    (Leaves.after (Balanced.skip.branch (Balanced.skip.branch slabCreate_balanced)) (by show 1 < 2; omega)
      Leaves.release) le_rfl))

/-- `slab_free` takes its page before the lock of the cache. -/
theorem slabFree_balanced : Balanced rank 1 (slabFree cache) := by
  have harray : Balanced rank 1 (branch skip (branch skip (buddyAllocPages 0))) :=
    Balanced.skip.branch (Balanced.skip.branch (buddyAllocPages_balanced.mono (by omega)))
  have hslow : Balanced rank 1 (seq (.acquire (.slabCache cache)) (seq (loop skip) (.release (.slabCache cache)))) :=
    Balanced.locked (Leaves.after (balanced_loop (r := 2)) (by show 1 < 2; omega) Leaves.release) le_rfl
  exact Balanced.skip.branch (Balanced.skip.branch (harray.seq (Balanced.skip.branch hslow)))

/-- `slab_cpu_cache_refill` takes pages with the lock of the cache. -/
theorem slabCpuCacheRefill_balanced : Balanced rank 1 (slabCpuCacheRefill cache) := by
  have harray : Balanced rank 1 (branch skip (buddyAllocPages 0)) :=
    Balanced.skip.branch (buddyAllocPages_balanced.mono (by omega))
  have hbatch : Leaves rank (.slabCache cache)
      (seq (loop (branch skip (branch skip slabCreate))) (.release (.slabCache cache))) :=
    Leaves.after (Balanced.skip.branch (Balanced.skip.branch slabCreate_balanced)).loop (by show 1 < 2; omega)
      Leaves.release
  exact harray.seq (Balanced.skip.branch (Balanced.locked hbatch le_rfl))

/-- `slab_cpu_cache_drain` takes the lock of the cache. -/
theorem slabCpuCacheDrain_balanced : Balanced rank 1 (slabCpuCacheDrain cache) :=
  Balanced.skip.branch (Balanced.locked
    (Leaves.after (balanced_loop (r := 2)).loop (by show 1 < 2; omega) Leaves.release) le_rfl)

/-- `slab_get_stats` takes the lock of the cache. -/
theorem slabGetStats_balanced : Balanced rank 1 (slabGetStats cache) := Balanced.skip.branch (balanced_locked le_rfl)

/-- `heap_init` creates caches, and has no lock of its own. -/
theorem heapInit_balanced {caches : List ℕ} : Balanced rank 0 (heapInit caches) := by
  refine Balanced.skip.branch (inTurn_balanced fun s hs => ?_)
  obtain ⟨cache, -, rfl⟩ := List.mem_map.mp hs
  exact slabCacheCreate_balanced

/-- `kmalloc` takes no lock but in `slab_alloc`. -/
theorem kmalloc_balanced : Balanced rank 1 (kmalloc cache) :=
  Balanced.skip.branch ((Balanced.skip.branch slabAlloc_balanced).seq balanced_loop)

/-- `kcalloc` takes no lock but in `kmalloc`. -/
theorem kcalloc_balanced : Balanced rank 1 (kcalloc cache) :=
  Balanced.skip.branch (kmalloc_balanced.seq balanced_loop)

/-- `kfree` takes no lock but in `slab_free`. -/
theorem kfree_balanced : Balanced rank 1 (kfree cache) :=
  Balanced.skip.branch (Balanced.skip.branch
    ((Balanced.skip.branch (Balanced.skip.branch slabFree_balanced)).branch Balanced.skip))

/-- `krealloc` allocates and releases in turn. -/
theorem krealloc_balanced : Balanced rank 1 (krealloc cache old) :=
  kmalloc_balanced.branch (kfree_balanced.branch (Balanced.skip.branch (Balanced.skip.branch
    (kmalloc_balanced.seq (Balanced.skip.branch (balanced_loop.seq kfree_balanced))))))

/-- `kmalloc_flags` takes no lock but in `kmalloc`. -/
theorem kmallocFlags_balanced : Balanced rank 1 (kmallocFlags cache) :=
  kmalloc_balanced.seq (Balanced.skip.branch balanced_loop)

/-- `cow_get_ref` takes a page with the lock of the table. -/
theorem cowGetRef_balanced : Balanced rank 0 (cowGetRef ref) := by
  have hentry : Leaves rank .cowGlobal (seq (.init (.pageRef ref)) (.release .cowGlobal)) :=
    Leaves.after (Balanced.init (show 1 ≤ rank (.pageRef ref) from le_rfl)) (by decide) Leaves.release
  have hnew : Leaves rank .cowGlobal
      (seq (buddyAllocPages 0) (branch (.release .cowGlobal) (seq (.init (.pageRef ref)) (.release .cowGlobal)))) :=
    Leaves.after buddyAllocPages_balanced (by decide) (Leaves.branch Leaves.release hentry)
  exact Balanced.locked
    (Leaves.after (balanced_loop (r := 1)) (by decide) (Leaves.branch Leaves.release hnew)) le_rfl

/-- `cow_mark_page` takes the lock of the entry after that of the table. -/
theorem cowMarkPage_balanced : Balanced rank 0 (cowMarkPage ref) :=
  Balanced.skip.branch (Balanced.skip.branch (Balanced.skip.branch
    (cowGetRef_balanced.seq (Balanced.skip.branch (balanced_locked (Nat.zero_le _))))))

/-- `cow_handle_fault` gives the lock of the entry back before it takes a page. -/
theorem cowHandleFault_balanced : Balanced rank 0 (cowHandleFault ref) := by
  have hpage : Balanced rank 1 (buddyAllocPages 0) := buddyAllocPages_balanced.mono (by omega)
  have hcopy : Balanced rank 1 (seq (buddyAllocPages 0)
      (branch (seq (.acquire (.pageRef ref)) (.release (.pageRef ref))) (loop skip))) :=
    hpage.seq ((balanced_locked (show 1 ≤ rank (.pageRef ref) from le_rfl)).branch balanced_loop)
  have hcount : Leaves rank (.pageRef ref) (branch (.release (.pageRef ref)) (seq (.release (.pageRef ref))
      (seq (buddyAllocPages 0) (branch (seq (.acquire (.pageRef ref)) (.release (.pageRef ref))) (loop skip))))) :=
    Leaves.branch Leaves.release (Leaves.then Leaves.release hcopy le_rfl)
  exact Balanced.skip.branch (Balanced.skip.branch (Balanced.skip.branch
    (cowGetRef_balanced.seq (Balanced.skip.branch (Balanced.locked hcount (Nat.zero_le _))))))

/-- `cow_increment_ref` takes the lock of the entry after that of the table. -/
theorem cowIncrementRef_balanced : Balanced rank 0 (cowIncrementRef ref) :=
  cowGetRef_balanced.seq (Balanced.skip.branch (balanced_locked (Nat.zero_le _)))

/-- `cow_decrement_ref` takes the lock of the entry with that of the table. -/
theorem cowDecrementRef_balanced : Balanced rank 0 (cowDecrementRef ref) := by
  have hfree : Balanced rank 0 (seq buddyFreePages buddyFreePages) :=
    (buddyFreePages_balanced.seq buddyFreePages_balanced).mono (Nat.zero_le 2)
  have hcount : Balanced rank 1 (seq (.acquire (.pageRef ref)) (.release (.pageRef ref))) := balanced_locked le_rfl
  have hzero : Leaves rank .cowGlobal
      (branch (seq (.release .cowGlobal) (seq buddyFreePages buddyFreePages)) (.release .cowGlobal)) :=
    Leaves.branch (Leaves.then Leaves.release hfree le_rfl) Leaves.release
  exact Balanced.locked (Leaves.after (balanced_loop (r := 1)) (by decide)
    (Leaves.branch Leaves.release (Leaves.after hcount (by decide) hzero))) le_rfl

/-- `cow_get_ref_count` takes the lock of the entry with that of the table. -/
theorem cowGetRefCount_balanced : Balanced rank 0 (cowGetRefCount ref) := by
  have hcount : Balanced rank 1 (seq (.acquire (.pageRef ref)) (.release (.pageRef ref))) := balanced_locked le_rfl
  exact Balanced.locked (Leaves.after (balanced_loop (r := 1)) (by decide)
    (Leaves.branch (Leaves.after hcount (by decide) Leaves.release) Leaves.release)) le_rfl

/-- `page_cache_lookup` gives the lock back on both paths. -/
theorem pageCacheLookup_balanced : Balanced rank 0 pageCacheLookup :=
  Balanced.skip.branch (Balanced.locked (Leaves.after (balanced_loop (r := 1)) (by decide)
    (Leaves.branch Leaves.release Leaves.release)) le_rfl)

/-- The critical section of `page_cache_evict_lru`. -/
theorem pageCacheEvictLru_balanced : Balanced rank 0 pageCacheEvictLru := by
  have hfree : Leaves rank .pageCache (seq buddyFreePages (seq buddyFreePages (.release .pageCache))) :=
    Leaves.after buddyFreePages_balanced (by decide)
      (Leaves.after buddyFreePages_balanced (by decide) Leaves.release)
  exact Balanced.skip.branch (Balanced.locked
    (Leaves.branch Leaves.release (Leaves.after (balanced_loop (r := 1)) (by decide) hfree)) le_rfl)

/-- `page_cache_insert` gives the lock back around the eviction, and on every path. -/
theorem pageCacheInsert_balanced : Balanced rank 0 pageCacheInsert := by
  have hadd : Leaves rank .pageCache
      (seq (buddyAllocPages 0) (branch (.release .pageCache) (.release .pageCache))) :=
    Leaves.after buddyAllocPages_balanced (by decide) (Leaves.branch Leaves.release Leaves.release)
  -- the eviction runs without the lock
  have hevict : Leaves rank .pageCache (seq (.release .pageCache) pageCacheEvictLru) :=
    Leaves.then Leaves.release pageCacheEvictLru_balanced le_rfl
  exact Balanced.skip.branch (Balanced.locked (Leaves.after (balanced_loop (r := 1)) (by decide)
    (Leaves.branch Leaves.release (Leaves.reenter hevict hadd))) le_rfl)

/-- `page_cache_remove` frees the entry with the lock. -/
theorem pageCacheRemove_balanced : Balanced rank 0 pageCacheRemove :=
  Balanced.skip.branch (Balanced.locked (Leaves.after (balanced_loop (r := 1)) (by decide)
    (Leaves.branch (Leaves.after buddyFreePages_balanced (by decide) Leaves.release) Leaves.release)) le_rfl)

/-- `demand_paging_init` initialises its locks, and creates a cache. -/
theorem demandPagingInit_balanced : Balanced rank 0 (demandPagingInit regionCache) := by
  refine (Balanced.init (Nat.zero_le _)).seq ((inTurn_balanced fun s hs => ?_).seq slabCacheCreate_balanced)
  obtain ⟨as, -, rfl⟩ := List.mem_map.mp hs
  exact Balanced.init (Nat.zero_le _)

/-- `demand_paging_get_address_space` gives the lock back on every path. -/
theorem demandPagingGetAddressSpace_balanced : Balanced rank 0 demandPagingGetAddressSpace :=
  Balanced.locked (Leaves.after (balanced_loop (r := 1)) (by decide)
    (Leaves.branch Leaves.release (Leaves.branch Leaves.release Leaves.release))) le_rfl

/-- `demand_paging_find_region` takes the lock of the slot after the global one. -/
theorem demandPagingFindRegion_balanced : Balanced rank 0 (demandPagingFindRegion as) :=
  demandPagingGetAddressSpace_balanced.seq (Balanced.skip.branch (Balanced.locked
    (Leaves.after (balanced_loop (r := 1)) (by show 0 < 1; omega)
      (Leaves.branch Leaves.release Leaves.release)) le_rfl))

/-- `demand_paging_register_region` takes a region with the lock of the slot. -/
theorem demandPagingRegisterRegion_balanced :
    Balanced rank 0 (demandPagingRegisterRegion as regionCache region) := by
  have hnew : Leaves rank (.addressSpace as) (seq (.init (.pageFault region)) (.release (.addressSpace as))) :=
    Leaves.after (Balanced.init (show 1 ≤ rank (.pageFault region) from le_rfl)) (by show 0 < 1; omega) Leaves.release
  have hadd : Leaves rank (.addressSpace as) (seq (slabAlloc regionCache)
      (branch (.release (.addressSpace as)) (seq (.init (.pageFault region)) (.release (.addressSpace as))))) :=
    Leaves.after slabAlloc_balanced (by show 0 < 1; omega) (Leaves.branch Leaves.release hnew)
  exact Balanced.skip.branch (demandPagingGetAddressSpace_balanced.seq (Balanced.skip.branch (Balanced.locked
    (Leaves.after (balanced_loop (r := 1)) (by show 0 < 1; omega) (Leaves.branch Leaves.release hadd)) le_rfl)))

/-- `demand_paging_handle_fault` takes pages with the lock of the region. -/
theorem demandPagingHandleFault_balanced : Balanced rank 0 (demandPagingHandleFault as region) := by
  have hmap : Leaves rank (.pageFault region)
      (seq (branch skip (loop skip)) (seq vmmMapPage (.release (.pageFault region)))) :=
    Leaves.after (Balanced.skip.branch (balanced_loop (r := 2))) (by show 1 < 2; omega)
      (Leaves.after vmmMapPage_balanced (by show 1 < 2; omega) Leaves.release)
  have hpage : Leaves rank (.pageFault region) (seq (buddyAllocPages 2) (branch (.release (.pageFault region))
      (seq (branch skip (loop skip)) (seq vmmMapPage (.release (.pageFault region)))))) :=
    Leaves.after buddyAllocPages_balanced (by show 1 < 2; omega) (Leaves.branch Leaves.release hmap)
  exact demandPagingFindRegion_balanced.seq (Balanced.skip.branch (Balanced.skip.branch (Balanced.skip.branch
    (Balanced.locked (Leaves.branch Leaves.release hpage) (Nat.zero_le _)))))

/-- `demand_paging_unregister_region` gives pages back with the lock of the slot. -/
theorem demandPagingUnregisterRegion_balanced : Balanced rank 0 (demandPagingUnregisterRegion as regionCache) := by
  have hfree : Leaves rank (.addressSpace as)
      (seq (loop (branch skip buddyFreePages)) (seq (slabFree regionCache) (.release (.addressSpace as)))) :=
    Leaves.after (Balanced.skip.branch buddyFreePages_balanced).loop (by show 0 < 2; omega)
      (Leaves.after slabFree_balanced (by show 0 < 1; omega) Leaves.release)
  exact demandPagingGetAddressSpace_balanced.seq (Balanced.skip.branch (Balanced.locked
    (Leaves.after (balanced_loop (r := 1)) (by show 0 < 1; omega) (Leaves.branch hfree Leaves.release)) le_rfl))

/-- `pool_grow` takes no lock but for its block. -/
theorem poolGrow_balanced : Balanced rank 2 poolGrow :=
  Balanced.skip.branch (buddyAllocPages_balanced.seq (Balanced.skip.branch balanced_loop))

/-- `pool_create` initialises the lock of the pool. -/
theorem poolCreate_balanced : Balanced rank 0 (poolCreate p) := by
  have hpage : Balanced rank 0 (buddyAllocPages 0) := buddyAllocPages_balanced.mono (Nat.zero_le 2)
  have hgrow : Balanced rank 0 (seq poolGrow (branch buddyFreePages skip)) :=
    (poolGrow_balanced.seq (buddyFreePages_balanced.branch Balanced.skip)).mono (Nat.zero_le 2)
  exact Balanced.skip.branch (hpage.seq (Balanced.skip.branch ((Balanced.init (Nat.zero_le _)).seq hgrow)))

/-- `pool_alloc` grows the pool with its lock. -/
theorem poolAlloc_balanced : Balanced rank 0 (poolAlloc p) :=
  Balanced.skip.branch (Balanced.locked (Leaves.branch
    (Leaves.after poolGrow_balanced (by show 0 < 2; omega) (Leaves.branch Leaves.release Leaves.release))
    Leaves.release) le_rfl)

/-- `pool_destroy` gives the blocks back with the lock of the pool. -/
theorem poolDestroy_balanced : Balanced rank 0 (poolDestroy p) := by
  have hregions : Leaves rank (.pool p) (seq (loop (seq (loop skip) buddyFreePages)) (.release (.pool p))) :=
    Leaves.after (balanced_loop.seq buddyFreePages_balanced).loop (by show 0 < 2; omega) Leaves.release
  exact Balanced.skip.branch ((Balanced.locked hregions le_rfl).seq (buddyFreePages_balanced.mono (Nat.zero_le 2)))

end functions

/-- Every call keeps the order and gives back what it takes. -/
theorem Call.balanced {s : Skeleton Lock} (h : Call s) : Balanced rank 0 s := by
  cases h with
  | buddyInit => exact buddyInit_balanced.mono (Nat.zero_le 2)
  | buddyAllocPages z => exact buddyAllocPages_balanced.mono (Nat.zero_le 2)
  | buddyAllocPagesFlags => exact buddyAllocPagesFlags_balanced.mono (Nat.zero_le 2)
  | buddyFreePages => exact buddyFreePages_balanced.mono (Nat.zero_le 2)
  | buddyGetFreePages => exact eachZone_balanced.mono (Nat.zero_le 2)
  | buddyGetTotalPages => exact eachZone_balanced.mono (Nat.zero_le 2)
  | buddyGetOrderStats => exact buddyGetOrderStats_balanced.mono (Nat.zero_le 2)
  | buddyDumpStats => exact buddyDumpStats_balanced.mono (Nat.zero_le 2)
  | buddyDumpZone z => exact buddyDumpZone_balanced.mono (Nat.zero_le 2)
  | pmmInit => exact pmmInit_balanced.mono (Nat.zero_le 2)
  | pmmAllocFrame => exact pmmAllocFrame_balanced.mono (Nat.zero_le 2)
  | pmmFreeFrame => exact pmmFreeFrame_balanced.mono (Nat.zero_le 2)
  | pmmGetFreeMemory => exact pmmGetFreeMemory_balanced.mono (Nat.zero_le 2)
  | vmmCreateAddressSpace => exact pmmAllocFrame_balanced.mono (Nat.zero_le 2)
  | vmmMapPage => exact vmmMapPage_balanced.mono (Nat.zero_le 2)
  | slabInit => exact Balanced.init le_rfl
  | slabCacheCreate cache => exact slabCacheCreate_balanced
  | slabCacheDestroy cache => exact slabCacheDestroy_balanced
  | slabAlloc cache => exact slabAlloc_balanced.mono (Nat.zero_le 1)
  | slabFree cache => exact slabFree_balanced.mono (Nat.zero_le 1)
  | slabCpuCacheRefill cache => exact slabCpuCacheRefill_balanced.mono (Nat.zero_le 1)
  | slabCpuCacheDrain cache => exact slabCpuCacheDrain_balanced.mono (Nat.zero_le 1)
  | slabGetStats cache => exact slabGetStats_balanced.mono (Nat.zero_le 1)
  | heapInit caches => exact heapInit_balanced
  | kmalloc cache => exact kmalloc_balanced.mono (Nat.zero_le 1)
  | kcalloc cache => exact kcalloc_balanced.mono (Nat.zero_le 1)
  | krealloc cache old => exact krealloc_balanced.mono (Nat.zero_le 1)
  | kfree cache => exact kfree_balanced.mono (Nat.zero_le 1)
  | kmallocFlags cache => exact kmallocFlags_balanced.mono (Nat.zero_le 1)
  | kcallocFlags cache => exact kcalloc_balanced.mono (Nat.zero_le 1)
  | cowInit => exact balanced_loop.seq (Balanced.init (Nat.zero_le _))
  | cowGetRef ref => exact cowGetRef_balanced
  | cowMarkPage ref => exact cowMarkPage_balanced
  | cowHandleFault ref => exact cowHandleFault_balanced
  | cowIncrementRef ref => exact cowIncrementRef_balanced
  | cowDecrementRef ref => exact cowDecrementRef_balanced
  | cowGetRefCount ref => exact cowGetRefCount_balanced
  | pageCacheInit => exact (Balanced.init (Nat.zero_le _)).seq (buddyAllocPages_balanced.mono (Nat.zero_le 2))
  | pageCacheLookup => exact pageCacheLookup_balanced
  | pageCacheInsert => exact pageCacheInsert_balanced
  | pageCacheEvictLru => exact pageCacheEvictLru_balanced
  | pageCacheRemove => exact pageCacheRemove_balanced
  | pageCacheGetStats => exact Balanced.skip.branch (balanced_locked le_rfl)
  | demandPagingInit regionCache => exact demandPagingInit_balanced
  | demandPagingGetAddressSpace => exact demandPagingGetAddressSpace_balanced
  | demandPagingFindRegion as => exact demandPagingFindRegion_balanced
  | demandPagingRegisterRegion as regionCache region => exact demandPagingRegisterRegion_balanced
  | demandPagingHandleFault as region => exact demandPagingHandleFault_balanced
  | demandPagingUnregisterRegion as regionCache => exact demandPagingUnregisterRegion_balanced
  | poolCreate p => exact poolCreate_balanced
  | poolAlloc p => exact poolAlloc_balanced
  | poolFree p => exact Balanced.skip.branch (balanced_locked le_rfl)
  | poolDestroy p => exact poolDestroy_balanced
  | poolGetUtilization p => exact Balanced.skip.branch (balanced_locked le_rfl)

/-- Every list of calls is balanced. -/
theorem Program.balanced {s : Skeleton Lock} (h : Program s) : Balanced rank 0 s := by
  induction h with
  | done => exact Balanced.skip
  | call hcall _ ih => exact hcall.balanced.seq ih

/-! ### Any number of CPUs -/

/-- In every state that calls of several CPUs reach in a run in which no lock is initialised while it is taken, at most
one CPU is in the critical section of a lock, a lock is taken exactly while one is, a state in which no CPU can go on,
or only by initialising a lock that is taken, has all calls returned and all locks free, and some schedule leads
there. -/
theorem calls_complete (n : ℕ) (calls : Fin n → Skeleton Lock) (hcalls : ∀ i, Program (calls i))
    (ops : Fin n → List (Event Lock)) (hops : ∀ i, (calls i).Trace (ops i)) (is : List (Fin n))
    (hclear : Guarded step Clear ⟨fun _ => false, ops⟩ is) (s : State (Fin n) Lock)
    (hexec : exec step ⟨fun _ => false, ops⟩ is = some s) :
    (∀ l i j, inSection l (s.rest i) = true → inSection l (s.rest j) = true → i = j) ∧
      (∀ l, s.locked l = true ↔ ∃ i, inSection l (s.rest i) = true) ∧
      ((∀ i, Clear s i → step s i = none) → Finished s) ∧
      ∃ js s', Guarded step Clear s js ∧ exec step s js = some s' ∧ Finished s' := by
  have horderly : ∀ i, Orderly rank [] (ops i) [] := fun i =>
    (hops i).orderly ((hcalls i).balanced [] fun k hk => absurd hk List.not_mem_nil)
  obtain ⟨held, h⟩ := (Held.start horderly).exec hclear hexec
  refine ⟨fun l => (h.exclusive l).1, fun l => (h.exclusive l).2, fun hstuck => ?_, h.completes⟩
  have hdone : ∀ i, s.rest i = [] := by
    intro i
    by_contra hi
    obtain ⟨j, s', hstep, hj⟩ := h.progress hi
    rw [hstuck j hj] at hstep
    exact absurd hstep.symm (Option.some_ne_none s')
  refine ⟨hdone, fun l => ?_⟩
  obtain ⟨js, s', hguard, hjs, hfin⟩ := h.completes
  cases js with
  | nil =>
      obtain rfl : s = s' := Option.some.inj hjs
      exact hfin.2 l
  | cons j js =>
      obtain ⟨s₁, hstep, -⟩ := exec_cons hjs
      rw [hstuck j hguard.1] at hstep
      exact absurd hstep.symm (Option.some_ne_none s₁)

/-- What `demand_paging_register_region` does when it adds a region, on the slow path of `slab_alloc`. -/
def registerOps (as regionCache region : ℕ) : List (Event Lock) :=
  [.acquire .demandPaging, .release .demandPaging, .acquire (.addressSpace as), .acquire (.slabCache regionCache),
    .release (.slabCache regionCache), .init (.pageFault region), .release (.addressSpace as)]

/-- What `demand_paging_handle_fault` does when there is no free page. -/
def faultOps (as region : ℕ) : List (Event Lock) :=
  [.acquire .demandPaging, .release .demandPaging, .acquire (.addressSpace as), .release (.addressSpace as),
    .acquire (.pageFault region), .acquire (.zone 2), .release (.zone 2), .release (.pageFault region)]

/-- A path through `demand_paging_get_address_space`. -/
theorem trace_getAddressSpace : Trace demandPagingGetAddressSpace [.acquire .demandPaging, .release .demandPaging] :=
  (Trace.acquire _).seq (Trace.done.seq (Trace.left (Trace.release _)))

/-- A path through `demand_paging_register_region`. -/
theorem trace_registerOps (as regionCache region : ℕ) :
    Trace (demandPagingRegisterRegion as regionCache region) (registerOps as regionCache region) := by
  have hslab : Trace (slabAlloc regionCache) [.acquire (.slabCache regionCache), .release (.slabCache regionCache)] :=
    Trace.right (Trace.right ((Trace.acquire _).seq ((Trace.left Trace.skip).seq (Trace.release _))))
  exact Trace.right (trace_getAddressSpace.seq (Trace.right ((Trace.acquire _).seq (Trace.done.seq
    (Trace.right (hslab.seq (Trace.right ((Trace.init _).seq (Trace.release _)))))))))

/-- A path through `demand_paging_handle_fault`. -/
theorem trace_faultOps (as region : ℕ) : Trace (demandPagingHandleFault as region) (faultOps as region) := by
  have hfind : Trace (demandPagingFindRegion as)
      [.acquire .demandPaging, .release .demandPaging, .acquire (.addressSpace as), .release (.addressSpace as)] :=
    trace_getAddressSpace.seq (Trace.right ((Trace.acquire _).seq (Trace.done.seq (Trace.left (Trace.release _)))))
  have hpage : Trace (buddyAllocPages 2) [.acquire (.zone 2), .release (.zone 2)] :=
    Trace.right ((Trace.acquire _).seq (Trace.left (Trace.release _)))
  exact hfind.seq (Trace.right (Trace.right (Trace.right ((Trace.acquire _).seq (Trace.right (hpage.seq
    (Trace.left (Trace.release _))))))))

/-- One CPU registers a region, and the others handle faults in it. -/
def regionCalls : Fin 3 → Skeleton Lock
  | 0 => seq (demandPagingRegisterRegion 0 0x1000 0x2000) skip
  | _ => seq (demandPagingHandleFault 0 0x2000) skip

@[inherit_doc regionCalls]
def regionOps : Fin 3 → List (Event Lock)
  | 0 => registerOps 0 0x1000 0x2000
  | _ => faultOps 0 0x2000

/-- Both CPUs run calls of the kernel. -/
theorem program_regionCalls : ∀ i, Program (regionCalls i)
  | 0 => Program.call (Call.demandPagingRegisterRegion 0 0x1000 0x2000) Program.done
  | 1 | 2 => Program.call (Call.demandPagingHandleFault 0 0x2000) Program.done

/-- The operations are those of the calls. -/
theorem trace_regionOps : ∀ i, (regionCalls i).Trace (regionOps i)
  | 0 => (trace_registerOps 0 0x1000 0x2000).seq Trace.skip
  | 1 | 2 => (trace_faultOps 0 0x2000).seq Trace.skip

/-- When the region has been registered, two CPUs handle faults in it; one of them waits for the other. -/
theorem calls_complete_region :
    ∃ s, exec step ⟨fun _ => false, regionOps⟩ [0, 0, 0, 0, 0, 0, 0, 1, 1, 1, 1, 1, 2, 2, 2, 2] = some s ∧
      step s 2 = none ∧ ∃ js s', Guarded step Clear s js ∧ exec step s js = some s' ∧ Finished s' := by
  have hclear : Guarded step Clear ⟨fun _ => false, regionOps⟩ [0, 0, 0, 0, 0, 0, 0, 1, 1, 1, 1, 1, 2, 2, 2, 2] :=
    guarded_of_guardedBy (t := isClear) (fun _ _ => clear_of_isClear) (by decide)
  exact ⟨_, rfl, rfl, (calls_complete 3 regionCalls program_regionCalls regionOps trace_regionOps _ hclear _ rfl).2.2.2⟩

/-- A CPU handles a fault in a region, while its memory becomes the region of another registration. Then a fault in
the new region is handled at the same time. -/
theorem region_lock_lost : ∃ s,
    exec step ⟨fun _ => false, regionOps⟩ [1, 1, 1, 1, 1, 0, 0, 0, 0, 0, 0, 0, 2, 2, 2, 2, 2] = some s ∧
      inSection (.pageFault 0x2000) (s.rest 1) = true ∧ inSection (.pageFault 0x2000) (s.rest 2) = true :=
  ⟨_, rfl, rfl, rfl⟩

end PrometheusKernel.Locks
