import PrometheusKernel.Buddy.Run

/-!
# The buddy allocator partitions its region

The regions of this module are page-aligned, do not start at address 0 and end below the physical
address width of the page tables (`Usable`). On such a region every block that is not held is free
(`Usable.run`), and the state after any valid run is described by the held blocks alone:

* `partition_of_run` — free lists and held blocks partition the pages of the region, the counters
  count the lists, and client writes leave the lists alone;
* `history_independent` — the free blocks and the counters depend only on which blocks are held.
-/

namespace PrometheusKernel.Buddy

open ByteMem LinkedList BuddySystem

/-- A page-aligned region above address 0 and below the physical address width. -/
structure Usable (memoryStart memorySize : ℕ) : Prop where
  pos : 0 < memoryStart
  aligned : memoryStart % pageSize = 0
  below : memoryStart + memorySize ≤ 2 ^ 52

namespace Usable

variable {memoryStart memorySize : ℕ}

/-- The range of physical addresses that a usable region is. -/
def region (h : Usable memoryStart memorySize) : Region where
  start := memoryStart
  size := memorySize
  size_lt := by
    have := h.below
    omega
  fits := by
    have := h.below
    omega

/-- `buddy_free_pages` takes the blocks of a usable region back. -/
theorem accepts (h : Usable memoryStart memorySize) : Accepts h.region := by
  refine ⟨h.aligned, ?_⟩
  change memoryStart + memorySize < 2 ^ 64
  have := h.below
  omega

/-- A usable region loses no block. -/
theorem lostBlocks_eq (h : Usable memoryStart memorySize) : lostBlocks h.region = ∅ :=
  lostBlocks_of_pos h.pos

/-- Every valid run on a usable region returns; its used blocks are the held ones. -/
theorem run (h : Usable memoryStart memorySize) {m : Mem} {ops : List Op}
    (hv : ValidRun (boot m memoryStart memorySize) ops) :
    ∃ c lists S, exec (boot m memoryStart memorySize) ops = some c ∧ Inv h.region c lists S ∧
      ∀ b, b ∈ S.used ↔ (h.region.addr b.1, b.2) ∈ c.live := by
  obtain ⟨lists₀, S₀, hinv₀, hexact₀, -⟩ := inv_boot m h.region
  obtain ⟨c, lists, S, hexec, hinv, hexact⟩ := exec_inv hinv₀ hv
  refine ⟨c, lists, S, hexec, hinv, fun b => ⟨fun hb => ?_, fun hb => ?_⟩⟩
  · rcases hexact (fun _ => h.accepts) hexact₀ b hb with hlive | hlost
    · exact hlive
    · rw [h.lostBlocks_eq] at hlost
      exact absurd hlost (Finset.notMem_empty _)
  · obtain ⟨i, hi, hused, -⟩ := hinv.live _ hb
    have hi' : b.1 = i := h.region.addr_injective hi
    rw [← hi'] at hused
    exact hused

end Usable

/-! ### The partition -/

/-- `l` is the list of the nodes of the free list `free_lists[order]` of the zone `z`. -/
def FreeList (s : State) (z : ZoneType) (order : ℕ) (l : List ℕ) : Prop :=
  IsDList (blockNext s.mem) (blockPrev s.mem) 0 l ((s.pages.zones z).freeLists order)

/-- All blocks of the free lists, as `(address, order)` pairs. -/
def freeBlocks (free : ℕ → List ℕ) : List (ℕ × ℕ) :=
  (List.range (maxOrder + 1)).flatMap fun k => (free k).map fun a => (a, k)

/-- The free lists `free` and the held blocks of `c` partition the `total` pages from `memoryStart`
on, and the counters of the zones agree with the lists. -/
structure Partition (memoryStart total : ℕ) (c : Run) (free : ℕ → List ℕ) : Prop where
  /-- The free lists of the unmovable zone, as they are in memory. -/
  lists : ∀ k ≤ maxOrder, FreeList c.state .unmovable k (free k)
  /-- The other zones have no block and no page. -/
  others : ∀ z, z ≠ .unmovable → c.state.pages.zones z = emptyZone
  /-- A block of order `k` starts at an index divisible by `2 ^ k`. -/
  aligned : ∀ b ∈ freeBlocks free ++ c.live,
    ∃ i, b.1 = memoryStart + i * pageSize ∧ b.2 ≤ maxOrder ∧ 2 ^ b.2 ∣ i ∧ i + 2 ^ b.2 ≤ total
  /-- Each page lies in exactly one block. -/
  cover : ∀ p, (freeBlocks free ++ c.live).countP (fun b => InBlock b (memoryStart + p * pageSize))
    = if p < total then 1 else 0
  /-- `total_pages`. -/
  totalPages : (c.state.pages.zones .unmovable).totalPages = total
  /-- `free_counts[k]` is the length of `free_lists[k]`. -/
  counts : ∀ k ≤ maxOrder, (c.state.pages.zones .unmovable).freeCounts k = (free k).length
  /-- `free_pages`. -/
  freePages : (c.state.pages.zones .unmovable).freePages
    = ∑ k ∈ Finset.range (maxOrder + 1), (c.state.pages.zones .unmovable).freeCounts k * 2 ^ k

section partition

variable {r : Region} {c : Run} {lists : ℕ → List ℕ} {S : BuddySystem r.pages maxOrder}

/-- A page lies in a block exactly if its index does. -/
theorem inBlock_addr_iff {b : Block} {p : ℕ} :
    InBlock (r.addr b.1, b.2) (r.addr p) ↔ ind b p = 1 := by
  rw [ind_eq_one_iff]
  unfold InBlock Region.addr pageSize
  simp only
  omega

/-- Counting the blocks of a list that contain a page. -/
theorem countP_eq_coverage {l : List (ℕ × ℕ)} {F : Finset Block} (hl : l.Nodup)
    (hmem : ∀ b, b ∈ l ↔ ∃ c ∈ F, (r.addr c.1, c.2) = b) (p : ℕ) :
    l.countP (fun b => InBlock b (r.addr p)) = coverage F p := by
  have hinj : Function.Injective fun c : Block => (r.addr c.1, c.2) := by
    intro x y hxy
    obtain ⟨h1, h2⟩ := Prod.mk.inj hxy
    exact Prod.ext (r.addr_injective h1) h2
  have himage : l.toFinset = F.image fun c : Block => (r.addr c.1, c.2) := by
    ext b
    rw [List.mem_toFinset, hmem b, Finset.mem_image]
  have hind : ∀ c : Block, ind c p = if InBlock (r.addr c.1, c.2) (r.addr p) then 1 else 0 := by
    intro c
    split_ifs with h
    · exact inBlock_addr_iff.mp h
    · unfold ind
      rw [if_neg fun h' => h (inBlock_addr_iff.mpr (ind_eq_one_iff.mpr h'))]
  calc l.countP (fun b => InBlock b (r.addr p))
      = ∑ b ∈ l.toFinset, if InBlock b (r.addr p) then 1 else 0 := by
        rw [← Finset.card_filter, List.countP_eq_length_filter,
          ← List.toFinset_card_of_nodup (hl.filter _), List.toFinset_filter]
        simp only [decide_eq_true_eq]
    _ = ∑ c ∈ F, if InBlock (r.addr c.1, c.2) (r.addr p) then 1 else 0 := by
        rw [himage, Finset.sum_image fun x _ y _ h => hinj h]
    _ = coverage F p := Finset.sum_congr rfl fun c _ => (hind c).symm

/-- The free blocks are those on the lists. -/
theorem mem_freeBlocks {free : ℕ → List ℕ} {b : ℕ × ℕ} :
    b ∈ freeBlocks free ↔ b.2 ≤ maxOrder ∧ b.1 ∈ free b.2 := by
  obtain ⟨a, k⟩ := b
  simp only [freeBlocks, List.mem_flatMap, List.mem_range, List.mem_map, Prod.mk.injEq]
  constructor
  · rintro ⟨j, hj, x, hx, rfl, rfl⟩
    exact ⟨by omega, hx⟩
  · rintro ⟨hk, ha⟩
    exact ⟨k, by omega, a, ha, rfl, rfl⟩

/-- Lists without repetitions give free blocks without repetitions. -/
theorem nodup_freeBlocks {free : ℕ → List ℕ} (h : ∀ k ≤ maxOrder, (free k).Nodup) :
    (freeBlocks free).Nodup := by
  unfold freeBlocks
  rw [List.nodup_flatMap]
  refine ⟨fun k hk => ?_, ?_⟩
  · have hk' : k ≤ maxOrder := by
      have := List.mem_range.mp hk
      omega
    exact (h k hk').map fun x y hxy => (Prod.mk.inj hxy).1
  · refine List.nodup_range.imp fun hne b hb hb' => ?_
    obtain ⟨x, -, rfl⟩ := List.mem_map.mp hb
    obtain ⟨y, -, hy⟩ := List.mem_map.mp hb'
    exact hne (Prod.mk.inj hy).2.symm

/-- The blocks on the lists are the free blocks of the abstract system. -/
theorem Rep.mem_freeBlocks_iff {lost : ℕ → ℕ} (h : Rep r lost lists S c.state) (b : ℕ × ℕ) :
    b ∈ freeBlocks (fun k => (lists k).map r.addr) ↔ ∃ f ∈ S.free, (r.addr f.1, f.2) = b := by
  rw [mem_freeBlocks]
  constructor
  · rintro ⟨hk, hb⟩
    obtain ⟨i, hi, hib⟩ := List.mem_map.mp hb
    exact ⟨(i, b.2), (h.mem_lists _ hk i).mp hi, Prod.ext hib rfl⟩
  · rintro ⟨f, hf, rfl⟩
    have hk := S.free_order f hf
    exact ⟨hk, List.mem_map.mpr ⟨f.1, (h.mem_lists _ hk f.1).mpr hf, rfl⟩⟩

/-- The free units, counted list by list. -/
theorem Rep.size_free {lost : ℕ → ℕ} {s : State} (h : Rep r lost lists S s) :
    size S.free = ∑ k ∈ Finset.range (maxOrder + 1), (lists k).length * 2 ^ k := by
  have hmaps : ∀ b ∈ S.free, b.2 ∈ Finset.range (maxOrder + 1) := by
    intro b hb
    have := S.free_order b hb
    exact Finset.mem_range.mpr (by omega)
  unfold size
  rw [← Finset.sum_fiberwise_of_maps_to hmaps]
  refine Finset.sum_congr rfl fun k hk => ?_
  have hk' : k ≤ maxOrder := by
    have := Finset.mem_range.mp hk
    omega
  have hfiber : S.free.filter (fun b => b.2 = k) = (lists k).toFinset.image fun i => (i, k) := by
    ext b
    obtain ⟨i, j⟩ := b
    simp only [Finset.mem_filter, Finset.mem_image, List.mem_toFinset, Prod.mk.injEq]
    constructor
    · rintro ⟨hb, rfl⟩
      exact ⟨i, (h.mem_lists j hk' i).mpr hb, rfl, rfl⟩
    · rintro ⟨x, hx, rfl, rfl⟩
      exact ⟨(h.mem_lists k hk' x).mp hx, rfl⟩
  have hcard : (S.free.filter (fun b => b.2 = k)).card = (lists k).length := by
    rw [hfiber, Finset.card_image_of_injective _ fun x y hxy => (Prod.mk.inj hxy).1,
      List.toFinset_card_of_nodup (h.nodup hk')]
  calc ∑ b ∈ S.free with b.2 = k, 2 ^ b.2 = ∑ _b ∈ S.free with _b.2 = k, 2 ^ k :=
        Finset.sum_congr rfl fun b hb => by rw [(Finset.mem_filter.mp hb).2]
    _ = (lists k).length * 2 ^ k := by rw [Finset.sum_const, hcard, smul_eq_mul]

/-- The invariant of a run whose used blocks are the held ones gives a partition. -/
theorem Inv.partition (h : Inv r c lists S) (hpos : 0 < r.start)
    (hused : ∀ b, b ∈ S.used ↔ (r.addr b.1, b.2) ∈ c.live) :
    Partition r.start r.pages c (fun k => (lists k).map r.addr) := by
  have hlost : ∀ k, lostCount r k = 0 := by
    intro k
    rw [lostCount, if_neg (by omega)]
  have hcounts : ∀ k ≤ maxOrder,
      (c.state.pages.zones .unmovable).freeCounts k = (lists k).length := by
    intro k hk
    rw [h.rep.counts k hk, hlost k, add_zero]
  have hlive : ∀ b, b ∈ c.live ↔ ∃ u ∈ S.used, (r.addr u.1, u.2) = b := by
    intro b
    constructor
    · intro hb
      obtain ⟨i, hi, hu, -⟩ := h.live b hb
      exact ⟨(i, b.2), hu, Prod.ext hi.symm rfl⟩
    · rintro ⟨u, hu, rfl⟩
      exact (hused u).mp hu
  refine ⟨h.rep.list, h.rep.others, ?_, ?_, h.totalPages, ?_, ?_⟩
  · intro b hb
    rcases List.mem_append.mp hb with hb | hb
    · obtain ⟨f, hf, rfl⟩ := (h.rep.mem_freeBlocks_iff b).mp hb
      exact ⟨f.1, rfl, S.free_order f hf, S.free_aligned f hf, S.end_le (Or.inl hf)⟩
    · obtain ⟨u, hu, rfl⟩ := (hlive b).mp hb
      exact ⟨u.1, rfl, S.used_order u hu, S.used_aligned u hu, S.end_le (Or.inr hu)⟩
  · intro p
    have hnodup := nodup_freeBlocks
      fun k hk => (h.rep.list k hk).isList.nodup
    have h1 := countP_eq_coverage hnodup h.rep.mem_freeBlocks_iff p
    have h2 := countP_eq_coverage h.nodup hlive p
    rw [List.countP_append]
    exact (congrArg₂ (· + ·) h1 h2).trans (S.cover p)
  · intro k hk
    rw [hcounts k hk, List.length_map]
  · have hsize : size (lostBlocks r) = 0 := by
      rw [lostBlocks_of_pos hpos]
      rfl
    rw [h.freePages, hsize, add_zero, h.rep.size_free]
    refine Finset.sum_congr rfl fun k hk => ?_
    rw [hcounts k (by have := Finset.mem_range.mp hk; omega)]

end partition

/-! ### Client writes -/

/-- `w` differs from the memory of `c` only inside held blocks. -/
def ClientWrite (c : Run) (w : Mem) : Prop :=
  ∀ x, (∀ b ∈ c.live, ¬ InBlock b x) → w x = c.state.mem x

section clients

variable {r : Region} {c : Run} {lists : ℕ → List ℕ} {S : BuddySystem r.pages maxOrder}

/-- Memory holds one free list for each zone and order. -/
theorem FreeList.unique {s : State} {z : ZoneType} {k : ℕ} {l l' : List ℕ}
    (h : FreeList s z k l) (h' : FreeList s z k l') : l = l' :=
  h.isList.unique h'.isList

/-- Two states that represent the same lists have the same free lists. -/
theorem Rep.freeList_iff {lost : ℕ → ℕ} {s s' : State} (h : Rep r lost lists S s)
    (h' : Rep r lost lists S s') (z : ZoneType) {k : ℕ} (hk : k ≤ maxOrder) (l : List ℕ) :
    FreeList s z k l ↔ FreeList s' z k l := by
  by_cases hz : z = .unmovable
  · subst hz
    constructor
    · intro hl
      rw [hl.unique (h.list k hk)]
      exact h'.list k hk
    · intro hl
      rw [hl.unique (h'.list k hk)]
      exact h.list k hk
  · unfold FreeList
    rw [h.others z hz, h'.others z hz]
    simp only [emptyZone]
    cases l with
    | nil => exact iff_of_true rfl rfl
    | cons a l =>
        constructor <;> rintro ⟨ha, hne, -⟩ <;> exact absurd ha.symm hne

/-- Client writes change no free list. -/
theorem Inv.freeList_write (h : Inv r c lists S) {w : Mem} (hw : ClientWrite c w) (z : ZoneType)
    {k : ℕ} (hk : k ≤ maxOrder) (l : List ℕ) :
    FreeList { c.state with mem := w } z k l ↔ FreeList c.state z k l :=
  (h.write hw).rep.freeList_iff h.rep z hk l

/-- The zero fill of `buddy_alloc_pages_flags` changes no free list. -/
theorem Inv.freeList_flags (h : Inv r c lists S) {order : ℕ} (horder : order ≤ maxOrder)
    (flags : ℕ) (z : ZoneType) {k : ℕ} (hk : k ≤ maxOrder) (l : List ℕ) :
    FreeList (buddyAllocPagesFlags c.state order flags).2 z k l ↔
      FreeList (buddyAllocPages c.state order (zoneOfFlags flags)).2 z k l := by
  obtain ⟨w, hw, heq⟩ := buddyAllocPagesFlags_eq c.state horder flags
  rw [heq]
  rcases h.alloc order (zoneOfFlags flags) with hfail | ⟨i, lists', S', hres, -, -, -, -, hinv⟩
  · have hmem : w = c.state.mem := by
      funext x
      rw [hw x (Or.inl (by rw [hfail])), hfail]
    rw [hfail, hmem]
  · refine hinv.freeList_write (fun x hx => hw x (Or.inr ?_)) z hk l
    rw [hres]
    exact hx _ List.mem_cons_self

end clients

/-! ### Whole runs -/

/-- The number of pages of a usable region. -/
theorem Usable.pages_eq {memoryStart memorySize : ℕ} (h : Usable memoryStart memorySize) :
    h.region.pages = (memorySize + 4095) / 4096 := by
  have hlt : memorySize + 4095 < 2 ^ 64 := by
    have := h.below
    omega
  exact bytesToPages_of_le hlt

/-- After every valid run on a usable region the free lists and the held blocks partition the
pages, the counters count the lists, and neither a client write nor the zero fill changes a list. -/
theorem partition_of_run {memoryStart memorySize : ℕ} (h : Usable memoryStart memorySize) (m : Mem)
    (ops : List Op) (hv : ValidRun (boot m memoryStart memorySize) ops) :
    ∃ c free, exec (boot m memoryStart memorySize) ops = some c ∧
      Partition memoryStart ((memorySize + 4095) / 4096) c free ∧
      (∀ w, ClientWrite c w → ∀ z, ∀ k ≤ maxOrder, ∀ l,
        FreeList { c.state with mem := w } z k l ↔ FreeList c.state z k l) ∧
      ∀ order ≤ maxOrder, ∀ flags z, ∀ k ≤ maxOrder, ∀ l,
        FreeList (buddyAllocPagesFlags c.state order flags).2 z k l ↔
          FreeList (buddyAllocPages c.state order (zoneOfFlags flags)).2 z k l := by
  obtain ⟨c, lists, S, hexec, hinv, hused⟩ := h.run hv
  refine ⟨c, fun k => (lists k).map h.region.addr, hexec, ?_,
    fun w hw z k hk l => hinv.freeList_write hw z hk l,
    fun order horder flags z k hk l => hinv.freeList_flags horder flags z hk l⟩
  rw [← h.pages_eq]
  exact hinv.partition h.pos hused

/-- Three pages; a block of two pages and a zeroed page are allocated, the first is written and
freed. -/
theorem partition_of_run_three_pages :
    ∃ c free, exec (boot (fun _ => 0) 0x1000 0x3000)
        [.alloc 1 0, .allocFlags 0 gfpZero, .write 0x1010 7, .free 0x1000 1] = some c ∧
      Partition 0x1000 3 c free := by
  obtain ⟨c, free, hexec, hpart, -⟩ := partition_of_run
    (show Usable 0x1000 0x3000 from ⟨by norm_num, rfl, by norm_num⟩) (fun _ => 0)
    [.alloc 1 0, .allocFlags 0 gfpZero, .write 0x1010 7, .free 0x1000 1] (by decide +kernel)
  exact ⟨c, free, hexec, hpart⟩

/-! ### Statistics -/

/-- The sum over the zones is what the unmovable one counts, when the others are empty. -/
theorem sumZones_eq {g : BuddyGlobals} {count : BuddyZone → ℕ} (hothers : ∀ z, z ≠ .unmovable → g.zones z = emptyZone)
    (hempty : count emptyZone = 0) (hlt : count (g.zones .unmovable) < 2 ^ 64) :
    sumZones g count = count (g.zones .unmovable) := by
  unfold sumZones
  simp only [List.foldl_cons, List.foldl_nil]
  rw [hothers .reclaimable nofun, hothers .movable nofun, hempty]
  unfold Word.add
  omega

/-- The free and the lost blocks fit into the region. -/
theorem Inv.size_le {r : Region} {c : Run} {lists : ℕ → List ℕ} {S : BuddySystem r.pages maxOrder}
    (h : Inv r c lists S) : size S.free + size (lostBlocks r) ≤ r.pages := by
  have hsplit := S.size_free_add_size_used
  have hlost : size (lostBlocks r) ≤ size S.used := Finset.sum_le_sum_of_subset h.lost
  omega

/-- `buddy_get_free_pages` counts the pages in the lists, and those of the lost block. -/
theorem Inv.freePages_eq {r : Region} {c : Run} {lists : ℕ → List ℕ} {S : BuddySystem r.pages maxOrder}
    (h : Inv r c lists S) : buddyGetFreePages c.state.pages = size S.free + size (lostBlocks r) := by
  have hle := h.size_le
  have hlt := r.pages_lt
  rw [buddyGetFreePages, sumZones_eq h.rep.others rfl (by rw [h.freePages]; omega), h.freePages]

/-- After every valid run on a usable region `buddy_get_total_pages` is the number of its pages, and
`buddy_get_free_pages` and `buddy_get_order_stats` count the pages and the blocks in the free lists. -/
theorem statistics_of_run {memoryStart memorySize : ℕ} (h : Usable memoryStart memorySize) {m : Mem} {ops : List Op}
    (hv : ValidRun (boot m memoryStart memorySize) ops) :
    ∃ (c : Run) (free : ℕ → List ℕ), exec (boot m memoryStart memorySize) ops = some c ∧
      (∀ k ≤ maxOrder, FreeList c.state .unmovable k (free k)) ∧
      buddyGetTotalPages c.state.pages = (memorySize + 4095) / 4096 ∧
      buddyGetFreePages c.state.pages = ∑ k ∈ Finset.range (maxOrder + 1), (free k).length * 2 ^ k ∧
      ∀ k ≤ maxOrder, buddyGetOrderStats c.state.pages k = some (free k).length := by
  obtain ⟨c, lists, S, hexec, hinv, hused⟩ := h.run hv
  have hpart := hinv.partition h.pos hused
  have hle := hinv.size_le
  have hlt := h.region.pages_lt
  have hlost : size (lostBlocks h.region) = 0 := by
    rw [h.lostBlocks_eq]
    rfl
  have hfree : size S.free = ∑ k ∈ Finset.range (maxOrder + 1), (lists k).length * 2 ^ k := hinv.rep.size_free
  refine ⟨c, fun k => (lists k).map h.region.addr, hexec, hpart.lists, ?_, ?_, fun k hk => ?_⟩
  · rw [buddyGetTotalPages, sumZones_eq hinv.rep.others rfl (by rw [hinv.totalPages]; omega), hinv.totalPages,
      h.pages_eq]
  · rw [hinv.freePages_eq, hlost, Nat.add_zero, hfree]
    simp only [List.length_map]
  · have hterm : (lists k).length ≤ size S.free := by
      rw [hfree]
      exact (Nat.le_mul_of_pos_right _ (Nat.two_pow_pos k)).trans
        (Finset.single_le_sum (f := fun k => (lists k).length * 2 ^ k) (fun _ _ => Nat.zero_le _)
          (Finset.mem_range.mpr (by omega)))
    have hcount := hpart.counts k hk
    rw [buddyGetOrderStats, if_neg (by omega), sumZones_eq hinv.rep.others rfl
      (by rw [hcount, List.length_map]; omega), hcount]

/-! ### Histories -/

/-- The zones of `c` and `c'` hold the same blocks per order and have the same counters. -/
structure SameFree (c c' : Run) : Prop where
  /-- The free lists hold the same set of blocks. -/
  lists : ∀ z, ∀ k ≤ maxOrder, ∃ l l', FreeList c.state z k l ∧ FreeList c'.state z k l' ∧
    ∀ a, a ∈ l ↔ a ∈ l'
  /-- `free_counts`. -/
  counts : ∀ z, ∀ k ≤ maxOrder,
    (c.state.pages.zones z).freeCounts k = (c'.state.pages.zones z).freeCounts k
  /-- `free_pages`. -/
  freePages : ∀ z, (c.state.pages.zones z).freePages = (c'.state.pages.zones z).freePages

/-- Two configurations with the same used blocks are represented by the same free blocks. -/
theorem Inv.sameFree {r : Region} {c c' : Run} {lists lists' : ℕ → List ℕ}
    {S S' : BuddySystem r.pages maxOrder} (h : Inv r c lists S) (h' : Inv r c' lists' S')
    (hused : S.used = S'.used) : SameFree c c' := by
  have hfree : S.free = S'.free := S.free_eq_of_coverage_eq S' fun p => by rw [hused]
  have hmem : ∀ k ≤ maxOrder, ∀ i, i ∈ lists k ↔ i ∈ lists' k := by
    intro k hk i
    rw [h.rep.mem_lists k hk i, h'.rep.mem_lists k hk i, hfree]
  have hzone : ∀ z, z ≠ .unmovable → c.state.pages.zones z = c'.state.pages.zones z := by
    intro z hz
    rw [h.rep.others z hz, h'.rep.others z hz]
  refine ⟨fun z k hk => ?_, fun z k hk => ?_, fun z => ?_⟩
  · by_cases hz : z = .unmovable
    · subst hz
      refine ⟨_, _, h.rep.list k hk, h'.rep.list k hk, fun a => ?_⟩
      simp only [List.mem_map, hmem k hk]
    · refine ⟨[], [], ?_, ?_, fun a => Iff.rfl⟩
      · unfold FreeList
        rw [h.rep.others z hz]
        rfl
      · unfold FreeList
        rw [h'.rep.others z hz]
        rfl
  · by_cases hz : z = .unmovable
    · subst hz
      have hperm : (lists k).Perm (lists' k) :=
        (List.perm_ext_iff_of_nodup (h.rep.nodup hk) (h'.rep.nodup hk)).mpr (hmem k hk)
      rw [h.rep.counts k hk, h'.rep.counts k hk, hperm.length_eq]
    · rw [hzone z hz]
  · by_cases hz : z = .unmovable
    · subst hz
      rw [h.freePages, h'.freePages, hfree]
    · rw [hzone z hz]

/-- States with the same blocks held have the same used blocks. -/
theorem Usable.used_eq {memoryStart memorySize : ℕ} (h : Usable memoryStart memorySize)
    {S S' : BuddySystem h.region.pages maxOrder} {c c' : Run}
    (hused : ∀ b, b ∈ S.used ↔ (h.region.addr b.1, b.2) ∈ c.live)
    (hused' : ∀ b, b ∈ S'.used ↔ (h.region.addr b.1, b.2) ∈ c'.live)
    (hlive : ∀ b, b ∈ c.live ↔ b ∈ c'.live) : S.used = S'.used := by
  ext b
  rw [hused b, hused' b, hlive]

/-- Two runs one after the other. -/
theorem exec_append (c : Run) (ops ops' : List Op) :
    exec c (ops ++ ops') = (exec c ops).bind fun c' => exec c' ops' := by
  induction ops generalizing c with
  | nil => rfl
  | cons op ops ih =>
      rw [List.cons_append, exec, exec]
      cases step c op with
      | none => rfl
      | some c' => exact ih c'

/-- Valid runs can be put one after the other. -/
theorem ValidRun.append {c c' : Run} {ops ops' : List Op} (hv : ValidRun c ops)
    (he : exec c ops = some c') (hv' : ValidRun c' ops') : ValidRun c (ops ++ ops') := by
  induction ops generalizing c with
  | nil =>
      obtain rfl := Option.some.inj he
      exact hv'
  | cons op ops ih =>
      obtain ⟨h1, h2⟩ := hv
      refine ⟨h1, ?_⟩
      unfold exec at he
      cases hstep : step c op with
      | none => trivial
      | some d =>
          rw [hstep] at h2 he
          exact ih h2 he

/-- Free the blocks of a list, in its order. -/
def freeAll (l : List (ℕ × ℕ)) : List Op := l.map fun b => .free b.1 b.2

/-- Freeing all held blocks, in any order, is valid and leaves nothing held. -/
theorem freeAll_spec {c : Run} {l : List (ℕ × ℕ)} (hl : l.Perm c.live) :
    ValidRun c (freeAll l) ∧ ∀ c', exec c (freeAll l) = some c' → c'.live = [] := by
  induction l generalizing c with
  | nil =>
      refine ⟨trivial, fun c' he => ?_⟩
      obtain rfl := Option.some.inj he
      exact hl.nil_eq.symm
  | cons b l ih =>
      have hmem : b ∈ c.live := hl.subset List.mem_cons_self
      have hstep : ∀ d, step c (.free b.1 b.2) = some d → l.Perm d.live := by
        intro d hd
        unfold step at hd
        simp only at hd
        split at hd
        · exact absurd hd (by simp)
        · obtain rfl := Option.some.inj hd
          have := hl.erase b
          rwa [List.erase_cons_head] at this
      refine ⟨⟨hmem, ?_⟩, fun c' he => ?_⟩
      · cases hs : step c (.free b.1 b.2) with
        | none => trivial
        | some d => exact (ih (hstep d hs)).1
      · unfold freeAll exec at he
        simp only [List.map_cons] at he
        cases hs : step c (.free b.1 b.2) with
        | none =>
            rw [hs] at he
            exact absurd he (by simp)
        | some d =>
            rw [hs] at he
            exact (ih (hstep d hs)).2 c' he

/-- Two valid runs on a usable region that hold the same blocks have the same free blocks and the
same counters; freeing all held blocks, in any order, brings back those of `buddy_init`. -/
theorem history_independent {memoryStart memorySize : ℕ} (h : Usable memoryStart memorySize)
    (m m' : Mem) (ops ops' : List Op) (c c' : Run)
    (hv : ValidRun (boot m memoryStart memorySize) ops)
    (hv' : ValidRun (boot m' memoryStart memorySize) ops')
    (he : exec (boot m memoryStart memorySize) ops = some c)
    (he' : exec (boot m' memoryStart memorySize) ops' = some c') :
    ((∀ b, b ∈ c.live ↔ b ∈ c'.live) → SameFree c c') ∧
      ∀ l, l.Perm c.live → ∃ c₀, exec c (freeAll l) = some c₀ ∧ c₀.live = [] ∧
        SameFree c₀ (boot m memoryStart memorySize) := by
  obtain ⟨d, lists, S, hd, hinv, hused⟩ := h.run hv
  obtain rfl : d = c := Option.some.inj (hd.symm.trans he)
  obtain ⟨d', lists', S', hd', hinv', hused'⟩ := h.run hv'
  obtain rfl : d' = c' := Option.some.inj (hd'.symm.trans he')
  refine ⟨fun hlive => hinv.sameFree hinv' (h.used_eq hused hused' hlive), fun l hl => ?_⟩
  obtain ⟨hvalid, hempty⟩ := freeAll_spec hl
  obtain ⟨c₀, lists₀, S₀, hc₀, hinv₀, hused₀⟩ := h.run (hv.append he hvalid)
  rw [exec_append, he] at hc₀
  have hnil := hempty c₀ hc₀
  obtain ⟨b₀, listsb, Sb, hb₀, hinvb, husedb⟩ := h.run (show ValidRun (boot m memoryStart memorySize) [] from trivial)
  obtain rfl := Option.some.inj hb₀
  refine ⟨c₀, hc₀, hnil, hinv₀.sameFree hinvb (h.used_eq hused₀ husedb fun b => ?_)⟩
  rw [hnil]
  rfl

/-- Two runs that hold the same page after different histories. -/
theorem history_independent_three_pages : ∃ c c',
    exec (boot (fun _ => 0) 0x1000 0x3000) [.alloc 0 0] = some c ∧
    exec (boot (fun _ => 0) 0x1000 0x3000) [.alloc 1 0, .alloc 0 0, .free 0x1000 1] = some c' ∧
    SameFree c c' := by
  have hu : Usable 0x1000 0x3000 := ⟨by norm_num, rfl, by norm_num⟩
  have hv : ValidRun (boot (fun _ => 0) 0x1000 0x3000) [.alloc 0 0] := by decide +kernel
  have hv' : ValidRun (boot (fun _ => 0) 0x1000 0x3000)
      [.alloc 1 0, .alloc 0 0, .free 0x1000 1] := by decide +kernel
  obtain ⟨c, -, -, he, -⟩ := hu.run hv
  obtain ⟨c', -, -, he', -⟩ := hu.run hv'
  have hlive : (exec (boot (fun _ => 0) 0x1000 0x3000) [.alloc 0 0]).map Run.live
      = (exec (boot (fun _ => 0) 0x1000 0x3000) [.alloc 1 0, .alloc 0 0, .free 0x1000 1]).map
        Run.live := by decide +kernel
  rw [he, he'] at hlive
  refine ⟨c, c', he, he', ?_⟩
  apply (history_independent hu _ _ _ _ c c' hv hv' he he').1
  intro b
  rw [Option.some.inj hlive]

end PrometheusKernel.Buddy
