import PrometheusKernel.Kernel.Model
import PrometheusKernel.Pmm.Safety

/-!
# Slabs, pools and demand paging get no memory

`buddy_init` puts all pages into `BUDDY_ZONE_UNMOVABLE`, `buddy_free_pages` returns every block to it, and an
allocation from another zone does not fall back on it. So the other two zones stay empty in every run, whatever is
allocated, freed or written (`Drained`). `slab_create` and `pool_grow` ask for `BUDDY_ZONE_RECLAIMABLE` and
`demand_paging_handle_fault` for `BUDDY_ZONE_MOVABLE`.

`never_served` is what this means for the kernel as it is linked: no cache ever has a slab, `slab_alloc` and
`pool_create` return null, no region is ever registered and no fault is ever handled.
-/

namespace PrometheusKernel.Kernel

open ByteMem LinkedList Buddy Interleaving

/-! ### The empty zones -/

/-- The free lists of the zones other than `BUDDY_ZONE_UNMOVABLE` are empty. -/
def Drained (g : BuddyGlobals) : Prop := ∀ z, z ≠ .unmovable → ∀ k, (g.zones z).freeLists k = 0

/-- The step changed `BUDDY_ZONE_UNMOVABLE` only. -/
def KeepsOthers (g g' : BuddyGlobals) : Prop := ∀ z, z ≠ .unmovable → g'.zones z = g.zones z

/-- A step that does nothing. -/
theorem KeepsOthers.refl (g : BuddyGlobals) : KeepsOthers g g := fun _ _ => rfl

/-- Steps one after the other. -/
theorem KeepsOthers.trans {g g' g'' : BuddyGlobals} (h : KeepsOthers g g') (h' : KeepsOthers g' g'') :
    KeepsOthers g g'' := fun z hz => (h' z hz).trans (h z hz)

/-- Zones that nobody touches stay empty. -/
theorem Drained.keep {g g' : BuddyGlobals} (h : Drained g) (hkeep : KeepsOthers g g') : Drained g' := by
  intro z hz k
  rw [hkeep z hz]
  exact h z hz k

section zones

variable {b b' : Buddy.State}

/-- A change of `BUDDY_ZONE_UNMOVABLE` is one of that zone. -/
theorem keepsOthers_setZone (b : Buddy.State) (zone : BuddyZone) :
    KeepsOthers b.pages (setZone b .unmovable zone).pages := fun _ hz => Function.update_of_ne hz _ _

/-- A block put on a list of `BUDDY_ZONE_UNMOVABLE`. -/
theorem keepsOthers_addFree (b : Buddy.State) (order block : ℕ) :
    KeepsOthers b.pages (addFree b .unmovable order block).pages := fun _ hz => Function.update_of_ne hz _ _

/-- A block taken from a list of `BUDDY_ZONE_UNMOVABLE`. -/
theorem keepsOthers_removeFree (b : Buddy.State) (order block : ℕ) :
    KeepsOthers b.pages (removeFree b .unmovable order block).pages := fun _ hz => Function.update_of_ne hz _ _

/-- The halves of a split go to the zone of the block. -/
theorem keepsOthers_splitLoop (block order d : ℕ) (b : Buddy.State) :
    KeepsOthers b.pages (splitLoop .unmovable block order d b).pages := by
  induction d generalizing b with
  | zero => exact KeepsOthers.refl _
  | succ d ih => exact (keepsOthers_addFree b _ _).trans (ih _)

/-- Buddies are merged in `BUDDY_ZONE_UNMOVABLE`. -/
theorem keepsOthers_mergeLoop {left a order a' order' : ℕ} (h : mergeLoop left b a order = some (b', a', order')) :
    KeepsOthers b.pages b'.pages := by
  induction left generalizing b a order with
  | zero =>
      obtain ⟨rfl, -⟩ := Prod.mk.inj (Option.some.inj h)
      exact KeepsOthers.refl _
  | succ left ih =>
      unfold mergeLoop at h
      dsimp only at h
      by_cases hrange : outOfRange b.pages (getBuddyAddress b.pages a order) = true
      · rw [if_pos hrange] at h
        obtain ⟨rfl, -⟩ := Prod.mk.inj (Option.some.inj h)
        exact KeepsOthers.refl _
      rw [if_neg hrange] at h
      by_cases hbit : testAllocationBit b.pages.allocationBitmap
          (addrToPageIndex b.pages (getBuddyAddress b.pages a order)) = true
      · rw [if_pos hbit] at h
        obtain ⟨rfl, -⟩ := Prod.mk.inj (Option.some.inj h)
        exact KeepsOthers.refl _
      rw [if_neg hbit] at h
      split at h
      · exact absurd h.symm (Option.some_ne_none _)
      · obtain ⟨rfl, -⟩ := Prod.mk.inj (Option.some.inj h)
        exact KeepsOthers.refl _
      · exact (keepsOthers_removeFree b _ _).trans (ih h)

/-- `buddy_init` puts all blocks into `BUDDY_ZONE_UNMOVABLE`. -/
theorem keepsOthers_initLoop (fuel : ℕ) (b : Buddy.State) (a remaining : ℕ) :
    KeepsOthers b.pages (initLoop fuel b a remaining).pages := by
  induction fuel generalizing b a remaining with
  | zero => exact KeepsOthers.refl _
  | succ fuel ih =>
      unfold initLoop
      split_ifs
      · exact (keepsOthers_addFree b _ _).trans (ih _ _ _)
      · exact KeepsOthers.refl _

/-- After `buddy_init` the other zones are empty. -/
theorem drained_buddyInit (m : Mem) (memoryStart memorySize : ℕ) :
    Drained (buddyInit m memoryStart memorySize).pages := by
  refine Drained.keep (g := (initStart m memoryStart memorySize).pages) (fun z hz k => ?_)
    (keepsOthers_initLoop _ _ _ _)
  unfold initStart
  dsimp only
  rw [Function.update_of_ne hz]
  rfl

/-- An allocation leaves the empty zones empty. -/
theorem Drained.alloc (h : Drained b.pages) (order zoneType : ℕ) :
    Drained (buddyAllocPages b order zoneType).2.pages := by
  unfold buddyAllocPages
  split_ifs with horder
  · exact h
  by_cases hz : (ZoneType.ofNat? zoneType).getD .unmovable = .unmovable
  · rw [hz]
    unfold allocFromZone
    dsimp only
    split_ifs
    · exact h
    · refine h.keep ?_
      exact ((keepsOthers_removeFree b _ _).trans (keepsOthers_splitLoop _ _ _ _)).trans (keepsOthers_setZone _ _)
  · rw [allocFromZone_empty (h _ hz) (not_lt.mp horder)]
    exact h

/-- `buddy_alloc_pages_flags` fills no zone. -/
theorem Drained.allocFlags (h : Drained b.pages) (order flags : ℕ) :
    Drained (buddyAllocPagesFlags b order flags).2.pages := by
  have halloc := h.alloc order (zoneOfFlags flags)
  unfold buddyAllocPagesFlags
  dsimp only
  split_ifs <;> exact halloc

/-- `buddy_free_pages` fills `BUDDY_ZONE_UNMOVABLE` only. -/
theorem Drained.free (h : Drained b.pages) {address order : ℕ} (hfree : buddyFreePages b address order = some b') :
    Drained b'.pages := by
  unfold buddyFreePages at hfree
  dsimp only at hfree
  split_ifs at hfree
  all_goals try exact Option.some.inj hfree ▸ h
  split at hfree
  · exact absurd hfree.symm (Option.some_ne_none _)
  · rename_i hmerge
    obtain rfl := Option.some.inj hfree
    refine h.keep ?_
    exact ((keepsOthers_mergeLoop hmerge).trans (keepsOthers_addFree _ _ _)).trans (keepsOthers_setZone _ _)

/-- A release by a client fills `BUDDY_ZONE_UNMOVABLE` only. -/
theorem Drained.freePages (h : Drained b.pages) (address order : ℕ) : Drained (freePages address order b).pages := by
  unfold Kernel.freePages
  cases hfree : buddyFreePages b address order with
  | none => exact h
  | some b' => exact h.free hfree

/-- A request for one of them fails without an effect. -/
theorem Drained.null (h : Drained b.pages) {zoneType : ℕ} (hzone : zoneType = 1 ∨ zoneType = 2) (order : ℕ) :
    allocPages zoneType order b = (0, b) := by
  unfold Kernel.allocPages buddyAllocPages
  split_ifs with horder
  · rfl
  · refine allocFromZone_empty (h _ ?_) (not_lt.mp horder)
    rcases hzone with rfl | rfl <;> decide

/-- `pmm_free_frame` gives a frame back to the unmovable zone. -/
theorem Drained.freeFrame {p p' : Pmm.State} (h : Drained p.pages.buddy) {frame : ℕ}
    (hfree : Pmm.pmmFreeFrame p frame = some p') : Drained p'.pages.buddy := by
  unfold Pmm.pmmFreeFrame at hfree
  split_ifs at hfree
  · exact Option.some.inj hfree ▸ h
  · exact Option.some.inj hfree ▸ h
  · cases hcall : buddyFreePages p.toBuddy frame 0 with
    | none => simp [hcall] at hfree
    | some b =>
        rw [hcall] at hfree
        rw [← Option.some.inj hfree]
        exact Drained.free (b := p.toBuddy) h hcall

/-- `pmm_alloc_frame` fills no zone. -/
theorem Drained.allocFrame {p : Pmm.State} (h : Drained p.pages.buddy) :
    Drained (Pmm.pmmAllocFrame p).2.pages.buddy := by
  have halloc := Drained.alloc (b := p.toBuddy) h 0 0
  unfold Pmm.pmmAllocFrame
  dsimp only
  split_ifs
  · exact h
  · exact halloc
  · exact halloc
  · exact halloc

/-- The other static data of `pmm.c` has no zones. -/
theorem drained_setBuddy (p : Pmm.State) (h : Drained b.pages) (free : ℕ) :
    Drained ({ p.setBuddy b with pages := { (p.setBuddy b).pages with
      buddyInitialized := true, free := free } } : Pmm.State).pages.buddy := h

/-- After `pmm_init` the other zones are empty. -/
theorem drained_pmmInit (m : Mem) (mmap mmapSize : ℕ) :
    Drained (Pmm.pmmInit (Pmm.initial m) mmap mmapSize).pages.buddy := by
  unfold Pmm.pmmInit
  dsimp only
  split_ifs
  · exact drained_setBuddy _ (drained_buddyInit _ _ _) _
  · exact fun _ _ _ => rfl

end zones

/-! ### Slabs and pools -/

section slabs

variable {m : Machine Globals} {cache : ℕ}

/-- The cache has no slab, and its CPU cache no object. -/
structure Empty (c : Slab.Cache) : Prop where
  available : c.available = 0
  full : c.slabsFull = 0
  part : c.slabsPartial = 0
  free : c.slabsFree = 0

/-- A new cache has no slabs and no objects at hand. -/
theorem empty_newCache (size align : ℕ) : Empty (Slab.newCache size align) := ⟨rfl, rfl, rfl, rfl⟩

/-- The buddy allocator of `m`. -/
abbrev buddyOf (m : Machine Globals) : BuddyGlobals := m.pages.pmm.buddy

/-- A search of an empty list finds nothing. -/
theorem search_null (nx : ℕ → ℕ) (p : ℕ → Bool) : search nx p walkBound 0 = some 0 :=
  search_walkBound (l := []) (show IsList nx [] 0 from rfl) (fun _ ha => absurd ha List.not_mem_nil) p

/-- `slab_alloc` on an empty cache finds no slab and gets none. -/
theorem slabAlloc_starved (h : Drained (buddyOf m)) (hc : Empty (m.pages.cacheAt cache)) :
    slabAlloc m cache = some (0, m) := by
  have hnull : allocPages 1 0 (toBuddy m) = (0, toBuddy m) := Drained.null (b := toBuddy m) h (Or.inl rfl) 0
  have hcreate : Slab.slabCreate (allocPages 1 0) (toCache m cache) = some (0, toCache m cache) := by
    unfold Slab.slabCreate toCache
    dsimp only
    rw [hnull, if_pos rfl]
  have hslow : Slab.slabAllocSlow (allocPages 1 0) (toCache m cache) = some (0, toCache m cache) := by
    unfold Slab.slabAllocSlow
    rw [hcreate]
    simp [toCache, hc.part, hc.free]
  unfold slabAlloc
  by_cases h0 : cache = 0
  · rw [if_pos h0]
  · rw [if_neg h0]
    unfold Slab.slabAlloc
    rw [hslow]
    simp [toCache, hc.available, setCache, setBuddy, setPmm, toPmm, toBuddy, Pmm.State.toBuddy, Pmm.State.setBuddy]

/-- `slab_free` of a null pointer. -/
theorem slabFree_null : slabFree m cache 0 = some m := by
  unfold slabFree
  split_ifs
  · rfl
  · simp [Slab.slabFree, toCache, setCache, setBuddy, setPmm, toPmm, toBuddy, Pmm.State.toBuddy, Pmm.State.setBuddy]

/-- `slab_cache_create` makes an empty cache, or none. -/
theorem slabCacheCreate_starved (h : Drained (buddyOf m)) {name size align : ℕ} {res : ℕ × Machine Globals}
    (hcall : slabCacheCreate m name size align = some res) :
    Drained (buddyOf res.2) ∧ (res.1 = 0 → res.2.pages.cacheAt = m.pages.cacheAt) ∧
      (res.1 ≠ 0 → res.2.pages.cacheAt = Function.update m.pages.cacheAt res.1 (Slab.newCache size align)) := by
  obtain ⟨res', hcreate, rfl⟩ := Option.map_eq_some_iff.mp hcall
  have halloc : Drained (allocPages 0 0 (toBuddy m)).2.pages := Drained.alloc (b := toBuddy m) h 0 0
  unfold Slab.cacheCreate at hcreate
  cases hnew : Slab.slabCacheCreate (allocPages 0 0) (toCaches m).machine name size align with
  | none =>
      rw [hnew] at hcreate
      exact absurd hcreate.symm (Option.some_ne_none _)
  | some r =>
      obtain ⟨c, b⟩ := r
      rw [hnew] at hcreate
      have hb : Drained b.pages := by
        unfold Slab.slabCacheCreate at hnew
        dsimp only at hnew
        split_ifs at hnew
        all_goals
          obtain ⟨-, rfl⟩ := Prod.mk.inj (Option.some.inj hnew)
          first | exact h | exact halloc
      cases c with
      | none =>
          obtain rfl := Option.some.inj hcreate
          exact ⟨hb, fun _ => rfl, fun h0 => absurd rfl h0⟩
      | some c =>
          obtain ⟨rfl, -⟩ := Slab.created hnew
          obtain rfl := Option.some.inj hcreate
          refine ⟨hb, fun h0 => ?_, fun _ => rfl⟩
          -- a cache is only made in a page
          exfalso
          have h0' : (allocPages 0 0 (toCaches m).machine).1 = 0 := h0
          unfold Slab.slabCacheCreate at hnew
          dsimp only at hnew
          rw [if_pos h0'] at hnew
          split_ifs at hnew <;> simp at hnew

/-- A list without slabs gives nothing back. -/
theorem freeSlabs_null {n : ℕ} (hn : 0 < n) (b : Buddy.State) : Slab.freeSlabs freePages n 0 b = some b := by
  obtain ⟨n, rfl⟩ := Nat.exists_eq_succ_of_ne_zero hn.ne'
  exact if_pos rfl

/-- `slab_cache_destroy` of an empty cache. -/
theorem slabCacheDestroy_starved (h : Drained (buddyOf m)) (hc : Empty (m.pages.cacheAt cache)) {m' : Machine Globals}
    (hcall : slabCacheDestroy m cache = some m') : Drained (buddyOf m') ∧ m'.pages.cacheAt = m.pages.cacheAt := by
  obtain ⟨s', hdestroy, rfl⟩ := Option.map_eq_some_iff.mp hcall
  have hnone : ∀ b : Buddy.State, Slab.freeSlabs freePages walkBound 0 b = some b :=
    freeSlabs_null (Nat.two_pow_pos 64)
  unfold Slab.slabCacheDestroy at hdestroy
  split_ifs at hdestroy with h0
  · obtain rfl := Option.some.inj hdestroy
    exact ⟨h, rfl⟩
  obtain ⟨s₁, hunlink, hrest⟩ := Option.bind_eq_some_iff.mp hdestroy
  have hsame : s₁.machine = toBuddy m ∧ s₁.cacheAt = m.pages.cacheAt := by
    unfold Slab.unlinkCache at hunlink
    split at hunlink
    · exact absurd hunlink.symm (Option.some_ne_none _)
    · split_ifs at hunlink
      all_goals
        obtain rfl := Option.some.inj hunlink
        exact ⟨rfl, rfl⟩
  obtain ⟨hmachine, hcaches⟩ := hsame
  simp only [hcaches, hc.full, hc.part, hc.free, hnone, Option.bind_eq_bind, Option.bind_some] at hrest
  obtain rfl := Option.some.inj hrest
  refine ⟨?_, rfl⟩
  have hdrained : Drained s₁.machine.pages := hmachine ▸ h
  show Drained (freePages cache 0 _).pages
  split_ifs
  · exact (hdrained.freePages _ _).freePages _ _
  · exact hdrained.freePages _ _

/-- `pool_create` gives its page back, since `pool_grow` gets no block. -/
theorem poolCreate_starved (h : Drained (buddyOf m)) {name objectSize initialCount : ℕ}
    {res : Option Pool.MemoryPool × Machine Globals} (hcall : poolCreate m name objectSize initialCount = some res) :
    res.1 = none ∧ Drained (buddyOf res.2) ∧ res.2.pages.cacheAt = m.pages.cacheAt := by
  obtain ⟨r, hcreate, rfl⟩ := Option.map_eq_some_iff.mp hcall
  have halloc : Drained (allocPages 0 0 (toBuddy m)).2.pages := Drained.alloc (b := toBuddy m) h 0 0
  obtain ⟨b, rfl, hb⟩ : ∃ b, r = .error b ∧ Drained b.pages := by
    unfold Pool.poolCreate at hcreate
    split_ifs at hcreate with harg
    · exact ⟨_, (Option.some.inj hcreate).symm, h⟩
    dsimp only at hcreate
    split_ifs at hcreate with hpage
    · exact ⟨_, (Option.some.inj hcreate).symm, halloc⟩
    have hgrow : ∀ page pool, Pool.poolGrow (allocPages 1)
        (⟨(allocPages 0 0 (toBuddy m)).2, page, pool⟩ : Pool.State BuddyGlobals) initialCount
          = some (-1, ⟨(allocPages 0 0 (toBuddy m)).2, page, pool⟩) := by
      intro page pool
      unfold Pool.poolGrow
      rw [if_neg fun hcount => harg (Or.inr (Or.inr hcount))]
      simp only [halloc.null (Or.inl rfl), if_pos]
    rw [hgrow] at hcreate
    exact ⟨_, (Option.some.inj hcreate).symm, halloc.freePages _ _⟩
  exact ⟨rfl, hb, rfl⟩

end slabs

/-! ### Demand paging -/

section paging

variable {p : DemandPaging.State Globals} {pml4 : ℕ}

/-- No slot has a region. -/
def NoRegions (p : DemandPaging.State Globals) : Prop :=
  ∀ i < p.addressSpaceCount, (p.addressSpaces i).regions = 0

/-- A slot may be added, without regions. -/
theorem getAddressSpace_starved (h : NoRegions p) (pml4 : ℕ) :
    (DemandPaging.demandPagingGetAddressSpace p pml4).2.machine = p.machine ∧
      NoRegions (DemandPaging.demandPagingGetAddressSpace p pml4).2 ∧
      ∀ i, (DemandPaging.demandPagingGetAddressSpace p pml4).1 = some i →
        ((DemandPaging.demandPagingGetAddressSpace p pml4).2.addressSpaces i).regions = 0 := by
  unfold DemandPaging.demandPagingGetAddressSpace
  cases hfind : (List.range p.addressSpaceCount).find? fun i => (p.addressSpaces i).pml4 = pml4 with
  | some i =>
      refine ⟨rfl, h, fun j hj => ?_⟩
      obtain rfl := Option.some.inj hj
      exact h i (List.mem_range.mp (List.mem_of_find?_eq_some hfind))
  | none =>
      dsimp only
      split_ifs
      · refine ⟨rfl, fun i hi => ?_, fun j hj => ?_⟩
        · dsimp only at hi ⊢
          by_cases hlast : i = p.addressSpaceCount
          · rw [hlast, Function.update_self]
          · rw [Function.update_of_ne hlast]
            exact h i (by omega)
        · obtain rfl := Option.some.inj hj
          dsimp only
          rw [Function.update_self]
      · exact ⟨rfl, h, fun j hj => False.elim (by simp at hj)⟩

/-- No region is found. -/
theorem findRegion_starved (h : NoRegions p) (pml4 virtAddr : ℕ) :
    ∃ p', DemandPaging.demandPagingFindRegion p pml4 virtAddr = some (0, p') ∧ p'.machine = p.machine ∧
      NoRegions p' := by
  obtain ⟨hmachine, hregions, hslot⟩ := getAddressSpace_starved h pml4
  unfold DemandPaging.demandPagingFindRegion
  rcases hget : DemandPaging.demandPagingGetAddressSpace p pml4 with ⟨as, p'⟩
  rw [hget] at hmachine hregions hslot
  cases as with
  | none => exact ⟨p', rfl, hmachine, hregions⟩
  | some as =>
      refine ⟨p', ?_, hmachine, hregions⟩
      dsimp only
      rw [hslot as rfl, search_null]
      rfl

variable {s : State}

/-- `demand_paging_register_region` gets no region from `vm_region_cache`. -/
theorem registerRegion_starved (hp : NoRegions s.paging)
    (halloc : slabAlloc s.paging.machine s.vmRegionCache = some (0, s.paging.machine)) (pml4 start size flags : ℕ) :
    ∃ p', registerRegion s pml4 start size flags = some (-1, p') ∧ p'.machine = s.paging.machine ∧ NoRegions p' := by
  obtain ⟨hmachine, hregions, hslot⟩ := getAddressSpace_starved hp pml4
  unfold registerRegion DemandPaging.demandPagingRegisterRegion
  by_cases harg : pml4 = 0 ∨ size = 0
  · rw [if_pos harg]
    exact ⟨_, rfl, rfl, hp⟩
  rw [if_neg harg]
  rcases hget : DemandPaging.demandPagingGetAddressSpace s.paging pml4 with ⟨as, p'⟩
  rw [hget] at hmachine hregions hslot
  dsimp only at hmachine hslot
  cases as with
  | none => exact ⟨p', rfl, hmachine, hregions⟩
  | some as =>
      refine ⟨{ p' with machine := s.paging.machine }, ?_, rfl, hregions⟩
      unfold DemandPaging.overlapping
      dsimp only
      rw [hslot as rfl, search_null, hmachine, halloc]
      rfl

/-- Without regions there is nothing to remove. -/
theorem unregisterRegion_starved (hp : NoRegions s.paging) (pml4 start : ℕ) :
    ∃ p', unregisterRegion s pml4 start = some p' ∧ p'.machine = s.paging.machine ∧ NoRegions p' := by
  obtain ⟨hmachine, hregions, hslot⟩ := getAddressSpace_starved hp pml4
  unfold unregisterRegion DemandPaging.demandPagingUnregisterRegion
  rcases hget : DemandPaging.demandPagingGetAddressSpace s.paging pml4 with ⟨as, p'⟩
  rw [hget] at hmachine hregions hslot
  cases as with
  | none => exact ⟨p', rfl, hmachine, hregions⟩
  | some as =>
      have hsearch : ∀ (nx : ℕ → ℕ) (t : ℕ → Bool), searchPrev nx t walkBound 0 0 = some (0, 0) := fun nx t =>
        searchPrev_none (l := []) (show IsList nx [] 0 from rfl) (fun _ hb => absurd hb List.not_mem_nil)
          (Nat.two_pow_pos 64)
      refine ⟨p', ?_, hmachine, hregions⟩
      dsimp only
      rw [hslot as rfl, hsearch]
      rfl

/-- `demand_paging_handle_fault` finds no region. -/
theorem handleFault_starved (hp : NoRegions s.paging) (pml4 virtAddr : ℕ) :
    ∃ p', handleFault s pml4 virtAddr = some (-1, p') ∧ p'.machine = s.paging.machine ∧ NoRegions p' := by
  obtain ⟨p', hfind, hmachine, hregions⟩ := findRegion_starved hp pml4 (DemandPaging.alignDown virtAddr)
  refine ⟨p', ?_, hmachine, hregions⟩
  unfold handleFault DemandPaging.demandPagingHandleFault
  dsimp only
  rw [hfind]
  rfl

end paging

/-! ### Runs of the kernel -/

/-- Nothing was ever served. -/
structure Starved (s : State) : Prop where
  drained : Drained (buddyOf s.machine)
  caches : ∀ c ∈ s.created, Empty (s.machine.pages.cacheAt c)
  live : ∀ c, s.live c = []
  region : s.vmRegionCache = 0 ∨ s.vmRegionCache ∈ s.created
  regions : NoRegions s.paging
  served : s.served = 0

/-- A step on the machine that leaves the caches alone. -/
theorem Starved.setMachine {s : State} (h : Starved s) {m : Machine Globals} (hm : Drained (buddyOf m))
    (hcaches : m.pages.cacheAt = s.machine.pages.cacheAt) : Starved (s.setMachine m) :=
  ⟨hm, fun c hc => by
    show Empty (m.pages.cacheAt c)
    rw [hcaches]
    exact h.caches c hc, h.live, h.region, h.regions, h.served⟩

/-- The blocks that clients hold do not matter. -/
theorem Starved.setHeld {s : State} (h : Starved s) (held : List (ℕ × ℕ)) : Starved { s with held := held } :=
  ⟨h.drained, h.caches, h.live, h.region, h.regions, h.served⟩

/-- A step on the tables of demand paging. -/
theorem Starved.setPaging {s : State} (h : Starved s) {p : DemandPaging.State Globals}
    (hm : p.machine = s.paging.machine) (hp : NoRegions p) : Starved { s with paging := p } := by
  refine ⟨?_, fun c hc => ?_, h.live, h.region, hp, h.served⟩
  · show Drained (buddyOf p.machine)
    rw [hm]
    exact h.drained
  · show Empty (p.machine.pages.cacheAt c)
    rw [hm]
    exact h.caches c hc

/-- One call. -/
theorem Starved.step {s s' : State} (h : Starved s) {call : Call} (hv : Valid s call)
    (hstep : Kernel.step s call = some s') : Starved s' := by
  have hempty : ∀ c, c = 0 ∨ c ∈ s.created → slabAlloc s.machine c = some (0, s.machine) := by
    rintro c (rfl | hc)
    · exact if_pos rfl
    · exact slabAlloc_starved h.drained (h.caches c hc)
  cases call with
  | allocPages order zoneType =>
      obtain rfl := Option.some.inj hstep
      have hkeep := h.setMachine (m := setBuddy s.machine (buddyAllocPages (toBuddy s.machine) order zoneType).2)
        (Drained.alloc (b := toBuddy s.machine) h.drained order zoneType) rfl
      exact hkeep.setHeld _
  | allocPagesFlags order flags =>
      obtain rfl := Option.some.inj hstep
      have hkeep := h.setMachine (m := setBuddy s.machine (buddyAllocPagesFlags (toBuddy s.machine) order flags).2)
        (Drained.allocFlags (b := toBuddy s.machine) h.drained order flags) rfl
      exact hkeep.setHeld _
  | allocFrame =>
      obtain rfl := Option.some.inj hstep
      have hkeep := h.setMachine (m := setPmm s.machine (Pmm.pmmAllocFrame (toPmm s.machine)).2)
        (Drained.allocFrame (p := toPmm s.machine) h.drained) rfl
      exact hkeep.setHeld _
  | freePages address order =>
      obtain ⟨b, hfree, rfl⟩ := Option.map_eq_some_iff.mp hstep
      have hkeep := h.setMachine (m := setBuddy s.machine b)
        (Drained.free (b := toBuddy s.machine) h.drained hfree) rfl
      exact hkeep.setHeld _
  | freeFrame frame =>
      obtain ⟨p, hfree, rfl⟩ := Option.map_eq_some_iff.mp hstep
      have hkeep := h.setMachine (m := setPmm s.machine p)
        (Drained.freeFrame (p := toPmm s.machine) h.drained hfree) rfl
      exact hkeep.setHeld _
  | write addr byte =>
      obtain rfl := Option.some.inj hstep
      exact h.setMachine h.drained rfl
  | cacheCreate name size align =>
      obtain ⟨res, hcall, rfl⟩ := Option.map_eq_some_iff.mp hstep
      obtain ⟨hdrained, hnull, hnew⟩ := slabCacheCreate_starved h.drained hcall
      by_cases h0 : res.1 = 0
      · rw [if_pos h0]
        exact h.setMachine hdrained (hnull h0)
      · rw [if_neg h0]
        refine ⟨hdrained, fun c hc => ?_, fun c => ?_, h.region.imp_right (List.mem_cons_of_mem _), h.regions, h.served⟩
        · show Empty (res.2.pages.cacheAt c)
          rw [hnew h0]
          by_cases hcr : c = res.1
          · rw [hcr, Function.update_self]
            exact empty_newCache size align
          · rw [Function.update_of_ne hcr]
            exact h.caches c ((List.mem_cons.mp hc).resolve_left hcr)
        · show Function.update s.live res.1 [] c = []
          by_cases hcr : c = res.1
          · rw [hcr, Function.update_self]
          · rw [Function.update_of_ne hcr, h.live]
  | cacheDestroy cache =>
      obtain ⟨m, hcall, rfl⟩ := Option.map_eq_some_iff.mp hstep
      obtain ⟨hin, hne⟩ := hv
      obtain ⟨hdrained, hcaches⟩ := slabCacheDestroy_starved h.drained (h.caches cache hin) hcall
      have hkeep := h.setMachine hdrained hcaches
      exact ⟨hkeep.drained, fun c hc => hkeep.caches c (List.mem_of_mem_erase hc), hkeep.live,
        hkeep.region.imp_right fun hr => (List.mem_erase_of_ne (Ne.symm hne)).mpr hr, hkeep.regions, hkeep.served⟩
  | slabAlloc cache =>
      obtain ⟨res, hcall, rfl⟩ := Option.map_eq_some_iff.mp hstep
      rw [hempty cache hv] at hcall
      obtain rfl := Option.some.inj hcall
      rw [if_pos rfl]
      exact h.setMachine h.drained rfl
  | slabFree cache object =>
      obtain ⟨m, hcall, rfl⟩ := Option.map_eq_some_iff.mp hstep
      obtain rfl : object = 0 := hv.2.resolve_right fun hin => by
        rw [h.live] at hin
        exact absurd hin List.not_mem_nil
      rw [slabFree_null] at hcall
      obtain rfl := Option.some.inj hcall
      have hkeep := h.setMachine h.drained (m := s.machine) rfl
      refine ⟨hkeep.drained, hkeep.caches, fun c => ?_, hkeep.region, hkeep.regions, hkeep.served⟩
      show Function.update s.live cache ((s.live cache).erase 0) c = []
      by_cases hc : c = cache
      · rw [hc, Function.update_self, h.live]
        rfl
      · rw [Function.update_of_ne hc, h.live]
  | poolCreate name objectSize initialCount =>
      obtain ⟨res, hcall, rfl⟩ := Option.map_eq_some_iff.mp hstep
      obtain ⟨hnone, hdrained, hcaches⟩ := poolCreate_starved h.drained hcall
      rw [hnone]
      exact h.setMachine hdrained hcaches
  | registerRegion pml4 start size flags =>
      obtain ⟨p', hcall, hmachine, hregions⟩ :=
        registerRegion_starved h.regions (hempty _ h.region) pml4 start size flags
      obtain ⟨res, hcall', rfl⟩ := Option.map_eq_some_iff.mp hstep
      rw [hcall] at hcall'
      obtain rfl := Option.some.inj hcall'
      exact h.setPaging hmachine hregions
  | unregisterRegion pml4 start =>
      obtain ⟨p', hcall, hmachine, hregions⟩ := unregisterRegion_starved h.regions pml4 start
      obtain ⟨res, hcall', rfl⟩ := Option.map_eq_some_iff.mp hstep
      rw [hcall] at hcall'
      obtain rfl := Option.some.inj hcall'
      exact h.setPaging hmachine hregions
  | handleFault pml4 virtAddr =>
      obtain ⟨p', hcall, hmachine, hregions⟩ := handleFault_starved h.regions pml4 virtAddr
      obtain ⟨res, hcall', rfl⟩ := Option.map_eq_some_iff.mp hstep
      rw [hcall] at hcall'
      obtain rfl := Option.some.inj hcall'
      exact h.setPaging hmachine hregions

/-- The kernel is starved from the start. -/
theorem starved_boot {mem : Mem} {mmap mmapSize vmRegionName : ℕ} {s : State}
    (hboot : boot mem mmap mmapSize vmRegionName = some s) : Starved s := by
  obtain ⟨res, hcall, rfl⟩ := Option.map_eq_some_iff.mp hboot
  obtain ⟨hdrained, -, hnew⟩ := slabCacheCreate_starved (drained_pmmInit mem mmap mmapSize) hcall
  refine ⟨hdrained, fun c hc => ?_, fun _ => rfl, ?_, fun i hi => absurd hi (Nat.not_lt_zero i), rfl⟩
  · dsimp only at hc
    split_ifs at hc with h0
    · exact absurd hc List.not_mem_nil
    · obtain rfl := List.mem_singleton.mp hc
      show Empty (res.2.pages.cacheAt res.1)
      rw [hnew h0, Function.update_self]
      exact empty_newCache 32 8
  · dsimp only
    by_cases h0 : res.1 = 0
    · exact Or.inl h0
    · rw [if_neg h0]
      exact Or.inr List.mem_cons_self

/-- In every run of the kernel, on every memory map and whatever its clients allocate, and free and write of what they
hold, `slab_alloc`, `pool_create`, `demand_paging_register_region` and `demand_paging_handle_fault` never serve a
request, and no request for `BUDDY_ZONE_RECLAIMABLE` or `BUDDY_ZONE_MOVABLE` is served by the page allocator. -/
theorem never_served (mem : Mem) (mmap mmapSize vmRegionName : ℕ) (calls : List Call) (s₀ s : State)
    (hboot : boot mem mmap mmapSize vmRegionName = some s₀) (hv : Guarded step Valid s₀ calls)
    (hexec : exec step s₀ calls = some s) :
    s.served = 0 ∧ ∀ zoneType, zoneType = 1 ∨ zoneType = 2 → ∀ order,
      (buddyAllocPages (toBuddy s.machine) order zoneType).1 = 0 := by
  have h : Starved s := invariant (fun _ _ _ h hvalid hstep => h.step hvalid hstep) (starved_boot hboot) hv hexec
  exact ⟨h.served, fun zoneType hzone order => congrArg Prod.fst
    (Drained.null (b := toBuddy s.machine) h.drained hzone order)⟩

/-- Two pages are taken and one is written to, a cache is created, objects, a pool, a region and a fault are asked for,
and a page is given back. -/
def sampleCalls (s : State) : List Call :=
  [.allocPages 0 0, .allocFrame, .write 0x3008 7, .cacheCreate 2 64 8, .slabAlloc s.vmRegionCache, .slabAlloc 0x4000,
    .poolCreate 3 32 4, .registerRegion 0x2000 0x400000 0x1000 7, .handleFault 0x2000 0x400000, .freeFrame 0x3000]

/-- The kernel on eight pages at `0x1000`. -/
theorem never_served_eight_pages : ∃ s₀ s,
    boot (Pmm.oneEntry 0x1000 0x8000) 0x800 24 1 = some s₀ ∧ exec step s₀ (sampleCalls s₀) = some s ∧
      s.served = 0 ∧ ∀ zoneType, zoneType = 1 ∨ zoneType = 2 → ∀ order,
        (buddyAllocPages (toBuddy s.machine) order zoneType).1 = 0 := by
  have hrun : ((boot (Pmm.oneEntry 0x1000 0x8000) 0x800 24 1).bind fun s₀ =>
      (exec step s₀ (sampleCalls s₀)).map fun _ => guardedBy step (fun s c => decide (Valid s c)) s₀ (sampleCalls s₀))
        = some true := by decide +kernel
  obtain ⟨s₀, hboot, hrest⟩ := Option.bind_eq_some_iff.mp hrun
  obtain ⟨s, hexec, htest⟩ := Option.map_eq_some_iff.mp hrest
  exact ⟨s₀, s, hboot, hexec, never_served _ _ _ _ _ _ _ hboot
    (guarded_of_guardedBy (fun _ _ h => of_decide_eq_true h) htest) hexec⟩

end PrometheusKernel.Kernel
