import PrometheusKernel.Buddy.Partition

/-!
# What the allocation bitmap decides

`buddy_free_pages` looks at the bitmap before it looks for the buddy in the free list. A bit is set only for the
first page of a block that is in use, and such a block is in no free list, so the search would find nothing
either: without the check the function does the same (`buddyFreePagesUnchecked_eq`). It does not matter how much of
the region the bitmap covers, since a bit that does not exist is a bit that is clear.
-/

namespace PrometheusKernel.Buddy

open ByteMem LinkedList BuddySystem

/-- `mergeLoop` without the check of `test_allocation_bit`. -/
def mergeLoopUnchecked : ℕ → State → ℕ → ℕ → Option (State × ℕ × ℕ)
  | 0, s, currentAddr, currentOrder => some (s, currentAddr, currentOrder)
  | left + 1, s, currentAddr, currentOrder =>
      let buddyAddr := getBuddyAddress s.pages currentAddr currentOrder
      if outOfRange s.pages buddyAddr then some (s, currentAddr, currentOrder)
      else
        match search (blockNext s.mem) (fun current => current = buddyAddr) walkBound
            ((s.pages.zones .unmovable).freeLists currentOrder) with
        | none => none
        | some 0 => some (s, currentAddr, currentOrder)
        | some (buddyBlock + 1) =>
            mergeLoopUnchecked left (removeFree s .unmovable currentOrder (buddyBlock + 1))
              (if currentAddr > buddyAddr then buddyAddr else currentAddr) (currentOrder + 1)

/-- `buddy_free_pages` without the check of `test_allocation_bit`. -/
def buddyFreePagesUnchecked (s : State) (address order : ℕ) : Option State :=
  if order > maxOrder then some s
  else if address = 0 then some s
  else if outOfRange s.pages address then some s
  else if address % pageSize ≠ 0 then some s
  else
    let pageIndex := addrToPageIndex s.pages address
    let s : State :=
      { s with pages := { s.pages with
          allocationBitmap := clearAllocationBit s.pages.allocationBitmap pageIndex } }
    match mergeLoopUnchecked (maxOrder - order) s address order with
    | none => none
    | some (s, currentAddr, currentOrder) =>
        let s := addFree s .unmovable currentOrder currentAddr
        let zone := s.pages.zones .unmovable
        some (setZone s .unmovable
          { zone with freePages := Word.add 64 zone.freePages (1 <<< order) })

section unchecked

variable {r : Region} {lost : ℕ → ℕ} {lists : ℕ → List ℕ} {n : ℕ} {S : BuddySystem n maxOrder} {s : State}

/-- A block with its bit set is in no free list. -/
theorem Rep.notMem_of_bit (h : Rep r lost lists S s) (hbits : BitsOk s.pages.allocationBitmap S.used) {c a : ℕ}
    (hc : c ≤ maxOrder) (hbit : testAllocationBit s.pages.allocationBitmap (addrToPageIndex s.pages a) = true) :
    a ∉ (lists c).map r.addr := by
  intro hmem
  obtain ⟨j, hj, rfl⟩ := List.mem_map.mp hmem
  rw [h.addrToPageIndex_addr (h.lt_pages hc hj)] at hbit
  obtain ⟨k, hk⟩ := hbits j hbit
  have hzero := S.not_meet ((h.mem_lists c hc j).mp hj) hk (ind_self (j, c))
  rw [ind_self (j, k)] at hzero
  exact one_ne_zero hzero

/-- Taking a free block off its list leaves a representation in which it is in use. -/
theorem Rep.takeFree (h : Rep r lost lists S s) (hlost : ∀ k, lost k ≤ 1) {j c : ℕ} (hf : (j, c) ∈ S.free) :
    Rep r lost (Function.update lists c ((lists c).erase j)) (S.take (j, c) hf)
      (Buddy.removeFree s .unmovable c (r.addr j)) :=
  h.removeFree hf hlost h.le_pages (show (S.take (j, c) hf).free = _ from rfl)

/-- The two loops take the same turns, from any block on. -/
theorem mergeLoopUnchecked_eq (hlost : ∀ k, lost k ≤ 1) {left c : ℕ} (hleft : c + left = maxOrder) (a : ℕ)
    (h : Rep r lost lists S s) (hbits : BitsOk s.pages.allocationBitmap S.used) :
    mergeLoopUnchecked left s a c = mergeLoop left s a c := by
  induction left generalizing s S lists a c with
  | zero => rfl
  | succ left ih =>
      have hc : c ≤ maxOrder := by omega
      unfold mergeLoopUnchecked mergeLoop
      dsimp only
      by_cases hrange : outOfRange s.pages (getBuddyAddress s.pages a c) = true
      · rw [if_pos hrange, if_pos hrange]
      rw [if_neg hrange, if_neg hrange]
      by_cases hbit : testAllocationBit s.pages.allocationBitmap
          (addrToPageIndex s.pages (getBuddyAddress s.pages a c)) = true
      · -- the bit stops the checked loop, and the search stops the other one
        rcases h.search_buddy hc (getBuddyAddress s.pages a c) with ⟨-, hsearch⟩ | ⟨hin, -⟩
        · rw [if_pos hbit, hsearch]
        · exact absurd hin (h.notMem_of_bit hbits hc hbit)
      rw [if_neg hbit]
      rcases h.search_buddy hc (getBuddyAddress s.pages a c) with ⟨-, hsearch⟩ | ⟨hin, hsearch⟩
      · rw [hsearch]
      · obtain ⟨j, hj, hjb⟩ := List.mem_map.mp hin
        have hf : (j, c) ∈ S.free := (h.mem_lists c hc j).mp hj
        obtain ⟨b, hb⟩ : ∃ b, getBuddyAddress s.pages a c = b + 1 :=
          ⟨getBuddyAddress s.pages a c - 1, by have := h.addr_ne_zero hf; omega⟩
        rw [hsearch, hb]
        dsimp only
        have htaken := h.takeFree hlost hf
        rw [hjb, hb] at htaken
        refine ih (by omega) _ htaken fun p hp => ?_
        obtain ⟨k, hk⟩ := hbits p hp
        exact ⟨k, Finset.mem_insert_of_mem hk⟩

/-- `buddy_free_pages` is the same function without the check, for every address and order. -/
theorem Rep.buddyFreePagesUnchecked_eq (h : Rep r lost lists S s) (hlost : ∀ k, lost k ≤ 1)
    (hbits : BitsOk s.pages.allocationBitmap S.used) (address order : ℕ) :
    buddyFreePagesUnchecked s address order = buddyFreePages s address order := by
  unfold buddyFreePagesUnchecked buddyFreePages
  split_ifs with h1 h2 h3 h4
  · rfl
  · rfl
  · rfl
  · rfl
  · set s₀ : State := { s with pages := { s.pages with
      allocationBitmap := clearAllocationBit s.pages.allocationBitmap (addrToPageIndex s.pages address) } }
    have h₀ : Rep r lost lists S s₀ := h.congr rfl rfl rfl (fun _ _ => rfl) rfl rfl
    have hbits₀ : BitsOk s₀.pages.allocationBitmap S.used := fun p hp => hbits p (testAllocationBit_clear hp).2
    have hloop :
        mergeLoopUnchecked (maxOrder - order) s₀ address order = mergeLoop (maxOrder - order) s₀ address order :=
      mergeLoopUnchecked_eq hlost (by omega) address h₀ hbits₀
    dsimp only
    generalize mergeLoopUnchecked (maxOrder - order) s₀ address order = loop at hloop
    subst hloop
    cases mergeLoop (maxOrder - order) s₀ address order with
    | none => rfl
    | some res => rfl

end unchecked

/-- In every reachable state a bit is set only for the first page of a live block, and freeing with and without
the check of the bitmap gives the same state. -/
theorem bitmap_never_decides {memoryStart memorySize : ℕ} (h : Usable memoryStart memorySize) (m : Mem)
    (ops : List Op) (hv : ValidRun (boot m memoryStart memorySize) ops) :
    ∃ c, exec (boot m memoryStart memorySize) ops = some c ∧
      (∀ p, testAllocationBit c.state.pages.allocationBitmap p = true →
        ∃ k, (memoryStart + p * pageSize, k) ∈ c.live) ∧
      ∀ address order, buddyFreePagesUnchecked c.state address order = buddyFreePages c.state address order := by
  obtain ⟨lists₀, S₀, hinv₀, hexact₀, -⟩ := inv_boot m h.region
  obtain ⟨c, lists, S, hexec, hinv, hexact⟩ := exec_inv hinv₀ hv
  refine ⟨c, hexec, fun p hp => ?_, hinv.rep.buddyFreePagesUnchecked_eq (lostCount_le _) hinv.bits⟩
  obtain ⟨k, hk⟩ := hinv.bits p hp
  rcases hexact (fun _ => h.accepts) hexact₀ (p, k) hk with hlive | hlost
  · exact ⟨k, hlive⟩
  · rw [lostBlocks_of_pos h.pos] at hlost
    exact absurd hlost (Finset.notMem_empty _)

/-- A page is taken beside its buddy: the bit of the buddy is clear, the bit of the page is set. -/
theorem bitmap_never_decides_two_pages : ∃ c,
    exec (boot (fun _ => 0) 0x1000 0x2000) [.alloc 0 0] = some c ∧
      (∀ p, testAllocationBit c.state.pages.allocationBitmap p = true →
        ∃ k, (0x1000 + p * pageSize, k) ∈ c.live) ∧
      ∀ address order, buddyFreePagesUnchecked c.state address order = buddyFreePages c.state address order :=
  bitmap_never_decides (show Usable 0x1000 0x2000 from ⟨by norm_num, rfl, by norm_num⟩) (fun _ => 0) [.alloc 0 0]
    (by decide +kernel)

end PrometheusKernel.Buddy
