import PrometheusKernel.Pmm.Safety
import PrometheusKernel.Pmm.Source

/-!
# Allocating until memory is exhausted

Right after `pmm_init`, page frames are taken one after the other until `pmm_alloc_frame` fails. The counter that
`buddy_get_free_pages` reads goes down by one with each frame, and it starts at the number of pages of the region.
So the reported number is the number of frames that can be had, unless the region starts at address 0: its first
block is lost to the null pointer, but counted (`free_count_truthful_iff`). One page at address 0 is reported and
never handed out (`page_reported_not_served`).
-/

namespace PrometheusKernel.Pmm

open ByteMem Buddy BuddySystem

/-- The state after `n` calls of `pmm_alloc_frame` in a row. -/
def afterAllocs (s : State) (n : ℕ) : State := (fun s => (pmmAllocFrame s).2)^[n] s

/-- `buddy_get_free_pages()`. -/
def freeCount (s : State) : ℕ := buddyGetFreePages s.pages.buddy

/-- The number of free pages that is reported is the number of frames that can be had in a row, and it goes down
by one with each of them. -/
structure Truthful (s : State) : Prop where
  /-- As many calls succeed. -/
  served : ∀ k < freeCount s, (pmmAllocFrame (afterAllocs s k)).1 ≠ 0
  /-- The next one fails. -/
  exhausted : (pmmAllocFrame (afterAllocs s (freeCount s))).1 = 0
  /-- The counter after `k` successes. -/
  counts : ∀ k ≤ freeCount s, freeCount (afterAllocs s k) = freeCount s - k
  /-- `pmm_get_free_memory()` is the same number of pages, in bytes. -/
  memory : ∀ k ≤ freeCount s, pmmGetFreeMemory (afterAllocs s k) / pageSize = freeCount s - k

/-- No call. -/
@[simp] theorem afterAllocs_zero (s : State) : afterAllocs s 0 = s := rfl

/-- The last call comes after the others. -/
theorem afterAllocs_succ (s : State) (n : ℕ) : afterAllocs s (n + 1) = (pmmAllocFrame (afterAllocs s n)).2 :=
  Function.iterate_succ_apply' _ n s

section drain

variable {r : Region}

/-- The allocator is set up on the region `r`, and `n` of its pages are in the free lists. -/
def Remaining (r : Region) (s : State) (n : ℕ) : Prop :=
  s.pages.buddyInitialized = true ∧
    ∃ live lists S, Buddy.Inv r ⟨s.toBuddy, live⟩ lists S ∧ size S.free = n

/-- The counter is the number of pages in the lists, and the pages of the lost block. -/
theorem Remaining.freeCount_eq {s : State} {n : ℕ} (h : Remaining r s n) :
    freeCount s = n + size (lostBlocks r) := by
  obtain ⟨-, live, lists, S, hinv, rfl⟩ := h
  exact hinv.freePages_eq

/-- What is left and what is lost fit into the region. -/
theorem Remaining.le_pages {s : State} {n : ℕ} (h : Remaining r s n) : n + size (lostBlocks r) ≤ r.pages := by
  obtain ⟨-, live, lists, S, hinv, rfl⟩ := h
  exact hinv.size_le

/-- `pmm_get_free_memory` agrees with the count of `buddy.c`. -/
theorem Remaining.memory_eq {s : State} {n : ℕ} (h : Remaining r s n) :
    pmmGetFreeMemory s / pageSize = freeCount s := by
  have hle := h.le_pages
  have hlt := r.pages_lt
  unfold pmmGetFreeMemory
  rw [if_pos h.1]
  change Word.mul 64 (freeCount s) pageSize / pageSize = freeCount s
  rw [h.freeCount_eq, Word.mul_eq (by unfold pageSize; omega), Nat.mul_div_cancel _ (by decide)]

/-- With no page in the lists the call fails. -/
theorem Remaining.alloc_zero {s : State} (h : Remaining r s 0) : (pmmAllocFrame s).1 = 0 := by
  obtain ⟨hinit, live, lists, S, hinv, hsize⟩ := h
  obtain ⟨free, heq⟩ := pmmAllocFrame_eq hinit
  rw [heq]
  change (buddyAllocPages s.toBuddy 0 0).1 = 0
  rcases hinv.alloc 0 0 with hfail | ⟨i, lists', S', -, -, hfresh, hused, -, -⟩
  · rw [hfail]
  · -- a block handed out would be a page more in use than there are pages
    have h1 := S.size_free_add_size_used
    have h2 := S'.size_free_add_size_used
    have h3 : size (insert (i, 0) S.used) = 2 ^ 0 + size S.used := Finset.sum_insert hfresh
    rw [hused] at h2
    omega

/-- With a page in the lists the call returns a frame, and one page less is left. -/
theorem Remaining.alloc_succ {s : State} {n : ℕ} (h : Remaining r s (n + 1)) :
    (pmmAllocFrame s).1 ≠ 0 ∧ Remaining r (pmmAllocFrame s).2 n := by
  obtain ⟨hinit, live, lists, S, hinv, hsize⟩ := h
  obtain ⟨free, heq⟩ := pmmAllocFrame_eq hinit
  rw [heq]
  have hserved : (buddyAllocPages s.toBuddy 0 0).1 ≠ 0 := by
    obtain ⟨b, hb, hpos⟩ : ∃ b ∈ S.free, 0 < 2 ^ b.2 := by
      have hne : size S.free ≠ 0 := by
        rw [hsize]
        exact Nat.succ_ne_zero n
      obtain ⟨b, hb, hne⟩ := Finset.exists_ne_zero_of_sum_ne_zero hne
      exact ⟨b, hb, Nat.pos_of_ne_zero hne⟩
    apply (hinv.rep.allocFromZone_ne_zero_iff (lostCount_le r) (Nat.zero_le _)).mpr
    have hend := S.end_le (Or.inl hb)
    refine ⟨b.1, one_dvd _, by omega, fun p hp => ?_⟩
    obtain rfl : p = b.1 := by
      rw [ind_eq_one_iff] at hp
      simp only [pow_zero] at hp
      omega
    have hcov := S.coverage_le b.1
    have hself := ind_le_coverage hb b.1
    rw [ind_self b] at hself
    omega
  refine ⟨hserved, ?_⟩
  rcases hinv.alloc 0 0 with hfail | ⟨i, lists', S', hres, h0, hfresh, hused, -, hinv'⟩
  · exact absurd (by rw [hfail]) hserved
  · refine ⟨hinit, _, lists', S', hinv', ?_⟩
    have h1 := S.size_free_add_size_used
    have h2 := S'.size_free_add_size_used
    have h3 : size (insert (i, 0) S.used) = 2 ^ 0 + size S.used := Finset.sum_insert hfresh
    rw [hused] at h2
    omega

/-- After `k` calls, `k` pages less are left. -/
theorem Remaining.afterAllocs {s : State} {n : ℕ} (h : Remaining r s n) {k : ℕ} (hk : k ≤ n) :
    Remaining r (afterAllocs s k) (n - k) := by
  induction k with
  | zero => exact h
  | succ k ih =>
      have hleft : Remaining r (Pmm.afterAllocs s k) ((n - (k + 1)) + 1) := by
        rw [show n - (k + 1) + 1 = n - k by omega]
        exact ih (by omega)
      rw [afterAllocs_succ]
      exact hleft.alloc_succ.2

/-- With `n` pages in the lists, `n` calls succeed and the next one fails. -/
theorem Remaining.served {s : State} {n : ℕ} (h : Remaining r s n) :
    (∀ k < n, (pmmAllocFrame (Pmm.afterAllocs s k)).1 ≠ 0) ∧ (pmmAllocFrame (Pmm.afterAllocs s n)).1 = 0 := by
  constructor
  · intro k hk
    have hleft : Remaining r (Pmm.afterAllocs s k) ((n - (k + 1)) + 1) := by
      rw [show n - (k + 1) + 1 = n - k by omega]
      exact h.afterAllocs hk.le
    exact hleft.alloc_succ.1
  · have hleft := h.afterAllocs le_rfl
    rw [Nat.sub_self] at hleft
    exact hleft.alloc_zero

/-- The report is truthful exactly when no block is lost. -/
theorem Remaining.truthful_iff {s : State} {n : ℕ} (h : Remaining r s n) :
    Truthful s ↔ size (lostBlocks r) = 0 := by
  have hcount := h.freeCount_eq
  obtain ⟨hserved, hfails⟩ := h.served
  constructor
  · intro ht
    by_contra hlost
    exact ht.served n (by omega) hfails
  · intro hlost
    rw [hlost, add_zero] at hcount
    have hafter : ∀ k ≤ freeCount s, freeCount (Pmm.afterAllocs s k) = freeCount s - k := by
      intro k hk
      rw [(h.afterAllocs (hcount ▸ hk)).freeCount_eq, hlost, hcount, add_zero]
    refine ⟨hcount ▸ hserved, hcount ▸ hfails, hafter, fun k hk => ?_⟩
    rw [(h.afterAllocs (hcount ▸ hk)).memory_eq, hafter k hk]

end drain

/-- Before `pmm_init` has found usable memory nothing is reported and nothing is served. -/
theorem truthful_of_not_initialized {s : State} (hinit : s.pages.buddyInitialized = false)
    (hbuddy : s.pages.buddy = BuddyGlobals.zero) (hfree : s.pages.free = 0) : Truthful s := by
  have hcount : freeCount s = 0 := by
    unfold freeCount
    rw [hbuddy]
    decide
  have halloc : (pmmAllocFrame s).1 = 0 := by
    unfold pmmAllocFrame
    rw [hinit]
    rfl
  refine ⟨fun k hk => ?_, ?_, fun k hk => ?_, fun k hk => ?_⟩
  · exact absurd hk (hcount ▸ Nat.not_lt_zero k)
  · rw [hcount]
    exact halloc
  · rw [hcount] at hk
    obtain rfl := Nat.le_zero.mp hk
    rfl
  · rw [hcount] at hk
    obtain rfl := Nat.le_zero.mp hk
    unfold pmmGetFreeMemory
    rw [afterAllocs_zero, if_neg (by rw [hinit]; exact Bool.false_ne_true), hfree, hcount, Nat.zero_div]

/-! ### From `pmm_init` on -/

/-- The state right after `pmm_init` on the `n` entries at `mmap`. -/
def initialised (m : Mem) (mmap n : ℕ) : State := pmmInit (initial m) mmap (n * entrySize)

/-- Nothing is lost exactly if the region does not start at 0 or has no page. -/
theorem size_lostBlocks (r : Region) : size (lostBlocks r) = 0 ↔ r.start ≠ 0 ∨ r.pages = 0 := by
  unfold lostBlocks
  split_ifs with hc
  · have hsize : size {(0, topOrder r.pages)} = 2 ^ topOrder r.pages := Finset.sum_singleton _ _
    have hpos := Nat.two_pow_pos (topOrder r.pages)
    rw [hsize]
    omega
  · have hsize : size (∅ : Finset Block) = 0 := Finset.sum_empty
    rw [hsize]
    omega

/-- A region has no page if it is empty, or if rounding its length up to pages wraps. -/
theorem pages_eq_zero_iff (r : Region) : r.pages = 0 ↔ r.size = 0 ∨ 2 ^ 64 - pageSize < r.size := by
  have hlt := r.size_lt
  unfold Region.pages pageSize
  rw [bytesToPages_eq]
  omega

/-- Right after `pmm_init` the reported number of free pages is the number of frames that can be had exactly when
the chosen entry does not start at address 0, or has no page. -/
theorem free_count_truthful_iff (map : MemoryMap) (m : Mem) (p : ℕ) (h : map.At m p) :
    Truthful (initialised m p map.entries.length) ↔
      map.region.start ≠ 0 ∨ map.region.size = 0 ∨ 2 ^ 64 - pageSize < map.region.size := by
  rw [← pages_eq_zero_iff, ← size_lostBlocks]
  obtain ⟨lists, S, hinv, -, -⟩ := inv_boot m map.region
  rw [← boot_eq h] at hinv
  by_cases hsize : 0 < map.region.size
  · have hinit : (initialised m p map.entries.length).pages.buddyInitialized = true := by
      unfold initialised pmmInit
      dsimp only [initial]
      rw [scanLoop_map h]
      exact (congrArg (fun s : State => s.pages.buddyInitialized) (if_pos hsize)).trans rfl
    exact Remaining.truthful_iff ⟨hinit, [], lists, S, hinv, rfl⟩
  · obtain ⟨h1, h2⟩ : (scan map.entries).memoryStart = 0 ∧ ¬ (scan map.entries).memorySize > 0 :=
      ⟨(scan_spec map.entries).elim And.left fun ⟨e, _, _, hpos, _, heq⟩ => absurd (hpos.trans_eq heq.symm) hsize,
        hsize⟩
    have hpages : map.region.pages = 0 := (pages_eq_zero_iff _).mpr (Or.inl (Nat.le_zero.mp (not_lt.mp hsize)))
    refine iff_of_true ?_ ((size_lostBlocks _).mpr (Or.inr hpages))
    have hstate : initialised m p map.entries.length = ⟨m, BuddyGlobals.zero, (scan map.entries).total, 0, false⟩ := by
      unfold initialised pmmInit
      dsimp only [initial]
      rw [scanLoop_map h, if_neg h2]
    rw [hstate]
    exact truthful_of_not_initialized rfl rfl rfl

/-- Two pages at `0x1000`. -/
theorem free_count_truthful_two_pages :
    Truthful (initialised (oneEntry 0x1000 0x2000) 0x800 1) ↔ 0x1000 ≠ 0 ∨ 0x2000 = 0 ∨ 2 ^ 64 - pageSize < 0x2000 :=
  free_count_truthful_iff (singleMap 0x1000 0x2000 (by norm_num) (by norm_num)) (oneEntry 0x1000 0x2000) 0x800
    ⟨by decide +kernel, by decide, by decide⟩

/-- One usable page at address 0 is reported as free, and the first call fails. -/
theorem page_reported_not_served :
    ¬ ∀ (map : MemoryMap) (m : Mem) (p : ℕ), map.At m p → (∃ e ∈ map.entries, e.type = 1 ∧ 0 < e.len) →
      Truthful (initialised m p map.entries.length) := by
  intro h
  have ht := h (singleMap 0 0x1000 (by norm_num) (by norm_num)) (oneEntry 0 0x1000) 0x800
    ⟨by decide +kernel, by decide, by decide⟩ ⟨_, List.mem_singleton_self _, rfl, by norm_num⟩
  have hcount : freeCount (initialised (oneEntry 0 0x1000) 0x800 1) = 1 := by decide +kernel
  have hfails : (pmmAllocFrame (initialised (oneEntry 0 0x1000) 0x800 1)).1 = 0 := by decide +kernel
  exact ht.served 0 (hcount ▸ one_pos) hfails

end PrometheusKernel.Pmm
