import PrometheusKernel.Buddy.Partition

/-!
# When an allocation succeeds

`FreeRun memoryStart lo total c k` is what a client may hope for: a naturally aligned run of
`2 ^ k` pages from page `lo` on that belong to no held block. The unmovable zone is complete for it
on a usable region (`alloc_unmovable_iff`).

`buddy_init` seeds the unmovable zone only and `buddy_free_pages` returns every block to it, so the
other two zones never have a block; `zone_served_iff` says exactly which requests are served, on any
region. A region at address 0 never gives out its first block (`lostPages`).
-/

namespace PrometheusKernel.Buddy

open ByteMem LinkedList BuddySystem

/-- A naturally aligned run of `2 ^ k` pages, from page `lo` on, that belong to no held block. -/
def FreeRun (memoryStart lo total : ℕ) (c : Run) (k : ℕ) : Prop :=
  ∃ i, lo ≤ i ∧ 2 ^ k ∣ i ∧ i + 2 ^ k ≤ total ∧
    ∀ p, i ≤ p → p < i + 2 ^ k → ∀ b ∈ c.live, ¬ InBlock b (memoryStart + p * pageSize)

/-- The pages of the block that a region at address 0 loses. -/
def lostPages (r : Region) : ℕ := if r.start = 0 ∧ 0 < r.pages then 2 ^ topOrder r.pages else 0

section complete

variable {r : Region} {c : Run} {lists : ℕ → List ℕ} {S : BuddySystem r.pages maxOrder}

/-- The unmovable zone serves an order exactly when an aligned run of unused pages exists. -/
theorem Rep.allocFromZone_ne_zero_iff {lost : ℕ → ℕ} {s : State} (h : Rep r lost lists S s) (hlost : ∀ k, lost k ≤ 1)
    {k : ℕ} (hk : k ≤ maxOrder) :
    (allocFromZone s k .unmovable).1 ≠ 0 ↔
      ∃ i, 2 ^ k ∣ i ∧ i + 2 ^ k ≤ r.pages ∧ ∀ p, ind (i, k) p = 1 → coverage S.used p = 0 := by
  rcases h.alloc hlost hk with ⟨hempty, hfail⟩ | ⟨i, lists', S', hres, ha⟩
  · refine ⟨fun hne => absurd (by rw [hfail]) hne, ?_⟩
    rintro ⟨i, hal, hend, hrun⟩
    obtain ⟨b, hb, hbk, -⟩ := S.exists_free_of_run hk hal hend hrun
    have hbo := S.free_order b hb
    have hmem := (h.mem_lists b.2 hbo b.1).mpr hb
    rw [hempty b.2 hbk hbo] at hmem
    exact absurd hmem List.not_mem_nil
  · have hmem : (i, k) ∈ S'.used := by
      rw [ha.used]
      exact Finset.mem_insert_self _ _
    refine ⟨fun _ => ⟨i, S'.used_aligned _ hmem, S'.end_le (Or.inr hmem), fun p hp => ?_⟩, fun _ => ?_⟩
    · have hle := S'.coverage_le p
      rw [ha.used, coverage_insert ha.fresh, hp] at hle
      omega
    · rw [hres]
      exact ha.addr_ne_zero

/-- A page is unused when no held block contains it and it is not lost. -/
theorem Inv.coverage_used_eq_zero_iff (h : Inv r c lists S) (he : Exact r c S) {p : ℕ} :
    coverage S.used p = 0 ↔
      (∀ b ∈ c.live, ¬ InBlock b (r.start + p * pageSize)) ∧ lostPages r ≤ p := by
  have hlostPages : lostPages r ≤ p ↔ ∀ b ∈ lostBlocks r, ind b p ≠ 1 := by
    unfold lostPages lostBlocks
    split_ifs with hc
    · simp only [Finset.mem_singleton, forall_eq]
      rw [Ne, ind_eq_one_iff]
      simp only
      omega
    · simp
  rw [hlostPages]
  constructor
  · intro hz
    refine ⟨fun b hb hin => ?_, fun b hb hp => ?_⟩
    · obtain ⟨i, hi, hused, -⟩ := h.live b hb
      have hin' : InBlock (r.addr i, b.2) (r.addr p) := by
        rw [← hi]
        exact hin
      have hp := (inBlock_addr_iff (b := (i, b.2))).mp hin'
      have := ind_le_coverage hused p
      omega
    · have := ind_le_coverage (h.lost hb) p
      omega
  · rintro ⟨hlive, hlost⟩
    by_contra hpos
    obtain ⟨b, hb, hbp⟩ := exists_of_coverage_pos (Nat.pos_of_ne_zero hpos)
    rcases he b hb with hl | hl
    · exact hlive _ hl (inBlock_addr_iff.mpr hbp)
    · exact hlost b hl hbp

/-- The unmovable zone serves an order exactly when there is a free run outside the lost block. -/
theorem Inv.allocFromZone_iff_freeRun (h : Inv r c lists S) (he : Exact r c S) {k : ℕ}
    (hk : k ≤ maxOrder) :
    (allocFromZone c.state k .unmovable).1 ≠ 0 ↔ FreeRun r.start (lostPages r) r.pages c k := by
  have hpos := Nat.two_pow_pos k
  rw [h.rep.allocFromZone_ne_zero_iff (lostCount_le r) hk]
  constructor
  · rintro ⟨i, hal, hend, hrun⟩
    have hpage : ∀ p, i ≤ p → p < i + 2 ^ k →
        (∀ b ∈ c.live, ¬ InBlock b (r.start + p * pageSize)) ∧ lostPages r ≤ p := by
      intro p h1 h2
      exact (h.coverage_used_eq_zero_iff he).mp (hrun p (ind_eq_one_iff.mpr ⟨h1, h2⟩))
    exact ⟨i, (hpage i le_rfl (by omega)).2, hal, hend, fun p h1 h2 => (hpage p h1 h2).1⟩
  · rintro ⟨i, hlo, hal, hend, hrun⟩
    refine ⟨i, hal, hend, fun p hp => ?_⟩
    obtain ⟨h1, h2⟩ := ind_eq_one_iff.mp hp
    exact (h.coverage_used_eq_zero_iff he).mpr ⟨hrun p h1 h2, by simp only at h1; omega⟩

/-- Which requests are served: those for the unmovable zone for which there is a free run. -/
theorem Inv.buddyAllocPages_iff (h : Inv r c lists S) (he : Exact r c S) (k zoneType : ℕ) :
    (buddyAllocPages c.state k zoneType).1 ≠ 0 ↔
      k ≤ maxOrder ∧ (zoneType = 0 ∨ 2 < zoneType) ∧ FreeRun r.start (lostPages r) r.pages c k := by
  have hzone : (ZoneType.ofNat? zoneType).getD .unmovable = .unmovable ↔
      zoneType = 0 ∨ 2 < zoneType := by
    match zoneType with
    | 0 => simp [ZoneType.ofNat?]
    | 1 => simp [ZoneType.ofNat?]
    | 2 => simp [ZoneType.ofNat?]
    | n + 3 => simp [ZoneType.ofNat?]
  unfold buddyAllocPages
  by_cases hk : k ≤ maxOrder
  · rw [if_neg (by omega), ← hzone]
    by_cases hz : (ZoneType.ofNat? zoneType).getD .unmovable = .unmovable
    · rw [hz, h.allocFromZone_iff_freeRun he hk]
      simp [hk]
    · rw [allocFromZone_empty (fun j => by rw [h.rep.others _ hz]; rfl) hk]
      simp [hz]
  · rw [if_pos (by omega)]
    simp [hk]

/-- The flags change the zone that is asked, and not the address. -/
theorem buddyAllocPagesFlags_fst (s : State) (order flags : ℕ) :
    (buddyAllocPagesFlags s order flags).1 = (buddyAllocPages s order (zoneOfFlags flags)).1 := by
  unfold buddyAllocPagesFlags
  simp only
  split_ifs with h1 h2
  · exact h1.symm
  · rfl
  · rfl

/-- The flags name one of the three zones. -/
theorem zoneOfFlags_le (flags : ℕ) : zoneOfFlags flags ≤ 2 := by
  unfold zoneOfFlags
  split_ifs <;> omega

end complete

/-! ### The unmovable zone -/

/-- In every state reachable on a usable region, an allocation from the unmovable zone succeeds if
and only if an aligned free run of the requested size exists. -/
theorem alloc_unmovable_iff {memoryStart memorySize : ℕ} (h : Usable memoryStart memorySize)
    (m : Mem) (ops : List Op) (hv : ValidRun (boot m memoryStart memorySize) ops) :
    ∃ c, exec (boot m memoryStart memorySize) ops = some c ∧ ∀ k ≤ maxOrder,
      ((buddyAllocPages c.state k 0).1 ≠ 0 ↔
        FreeRun memoryStart 0 (c.state.pages.zones .unmovable).totalPages c k) := by
  obtain ⟨c, lists, S, hexec, hinv, hused⟩ := h.run hv
  refine ⟨c, hexec, fun k hk => ?_⟩
  have hexact : Exact h.region c S := fun b hb => Or.inl ((hused b).mp hb)
  have hlost : lostPages h.region = 0 := by
    unfold lostPages
    have hpos : 0 < h.region.start := h.pos
    rw [if_neg (by omega)]
  rw [hinv.buddyAllocPages_iff hexact, hinv.totalPages, hlost]
  simp only [hk, true_or, true_and]
  exact Iff.rfl

/-- With one page of three held, the allocator still serves two pages at once. -/
theorem alloc_unmovable_three_pages : ∃ c,
    exec (boot (fun _ => 0) 0x1000 0x3000) [.alloc 0 0] = some c ∧
      (buddyAllocPages c.state 1 0).1 ≠ 0 := by
  obtain ⟨c, hexec, hiff⟩ := alloc_unmovable_iff
    (show Usable 0x1000 0x3000 from ⟨by norm_num, rfl, by norm_num⟩) (fun _ => 0) [.alloc 0 0] (by decide +kernel)
  have hc : (exec (boot (fun _ => 0) 0x1000 0x3000) [.alloc 0 0]).map
      (fun c => (c.live, (c.state.pages.zones .unmovable).totalPages)) = some ([(0x3000, 0)], 3) := by
    decide +kernel
  rw [hexec] at hc
  obtain ⟨hlive, htotal⟩ := Prod.mk.inj (Option.some.inj hc)
  refine ⟨c, hexec, (hiff 1 (by decide)).mpr ⟨0, le_rfl, by norm_num, by rw [htotal]; norm_num, ?_⟩⟩
  intro p h1 h2 b hb
  rw [hlive] at hb
  obtain rfl := List.mem_singleton.mp hb
  unfold InBlock pageSize
  simp only
  omega

/-! ### All zones -/

/-- On any region, in every run that frees only where the region takes blocks back: a request for
a zone is served whenever a free run exists if and only if it is for the unmovable zone, of an order
the allocator has, and there is a free run outside the lost block, or there is no free run at all. -/
theorem zone_served_iff (r : Region) (m : Mem) (ops : List Op)
    (hv : ValidRun (boot m r.start r.size) ops)
    (hfree : (∃ a k, Op.free a k ∈ ops) → Accepts r) :
    ∃ c, exec (boot m r.start r.size) ops = some c ∧
      (∀ k zoneType,
        (FreeRun r.start 0 r.pages c k → (buddyAllocPages c.state k zoneType).1 ≠ 0) ↔
          (k ≤ maxOrder ∧ (zoneType = 0 ∨ 2 < zoneType) ∧
            FreeRun r.start (lostPages r) r.pages c k) ∨ ¬ FreeRun r.start 0 r.pages c k) ∧
      ∀ k flags,
        (FreeRun r.start 0 r.pages c k → (buddyAllocPagesFlags c.state k flags).1 ≠ 0) ↔
          (k ≤ maxOrder ∧ (flags &&& gfpMovable = 0 ∧ flags &&& gfpReclaimable = 0) ∧
            FreeRun r.start (lostPages r) r.pages c k) ∨ ¬ FreeRun r.start 0 r.pages c k := by
  obtain ⟨lists₀, S₀, hinv₀, hexact₀, -⟩ := inv_boot m r
  obtain ⟨c, lists, S, hexec, hinv, hex⟩ := exec_inv hinv₀ hv
  have hexact := hex hfree hexact₀
  refine ⟨c, hexec, fun k zoneType => ?_, fun k flags => ?_⟩
  · rw [← hinv.buddyAllocPages_iff hexact]
    exact imp_iff_or_not
  · have hflags : flags &&& gfpMovable = 0 ∧ flags &&& gfpReclaimable = 0 ↔
        zoneOfFlags flags = 0 ∨ 2 < zoneOfFlags flags := by
      have hle := zoneOfFlags_le flags
      unfold zoneOfFlags at hle ⊢
      split_ifs with h1 h2
      · simp [h1]
      · simp [h2]
      · simp only [ne_eq, not_not] at h1 h2
        simp [h1, h2]
    rw [hflags, buddyAllocPagesFlags_fst, ← hinv.buddyAllocPages_iff hexact]
    exact imp_iff_or_not

/-- A region of one page serves the unmovable zone and no other. -/
theorem zone_served_one_page : ∃ c,
    exec (boot (fun _ => 0) 0x1000 0x1000) [.alloc 0 0, .free 0x1000 0] = some c ∧
      ((FreeRun 0x1000 0 1 c 0 → (buddyAllocPages c.state 0 1).1 ≠ 0) ↔
        ¬ FreeRun 0x1000 0 1 c 0) := by
  obtain ⟨c, hexec, hiff, -⟩ := zone_served_iff ⟨0x1000, 0x1000, by norm_num, by norm_num⟩
    (fun _ => 0) [.alloc 0 0, .free 0x1000 0] (by decide +kernel) fun _ => by
      unfold Accepts pageSize
      norm_num
  refine ⟨c, hexec, (hiff 0 1).trans ?_⟩
  simp only [one_ne_zero, Nat.not_ofNat_lt_one, or_self, false_and, and_false, false_or]
  exact Iff.rfl

/-- Right after `buddy_init` on one page the page is free, yet neither `BUDDY_ZONE_RECLAIMABLE` nor
`BUDDY_ZONE_MOVABLE` is served. -/
theorem zone_not_served : FreeRun 0x1000 0 1 (boot (fun _ => 0) 0x1000 0x1000) 0 ∧
    (buddyAllocPages (boot (fun _ => 0) 0x1000 0x1000).state 0 1).1 = 0 ∧
    (buddyAllocPages (boot (fun _ => 0) 0x1000 0x1000).state 0 2).1 = 0 ∧
    (buddyAllocPagesFlags (boot (fun _ => 0) 0x1000 0x1000).state 0 gfpMovable).1 = 0 := by
  refine ⟨⟨0, le_rfl, by norm_num, by norm_num, fun p _ _ b hb => ?_⟩, ?_, ?_, ?_⟩
  · exact absurd hb List.not_mem_nil
  · decide +kernel
  · decide +kernel
  · decide +kernel

end PrometheusKernel.Buddy
