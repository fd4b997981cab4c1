import PrometheusKernel.Buddy.Completeness

/-!
# Which blocks the allocator can hand out

On any region, whatever the run, the blocks handed out are naturally aligned, end within the pages
that `buddy_init` laid out and avoid the block that a region at address 0 loses (`Inv.live_block`).
Conversely every such block is handed out in some run: allocating one order until it fails leaves
no aligned block of that order unused (`exhaust`). `returned_iff` puts both together, so that a
claim about all blocks of all runs becomes one about the region.
-/

namespace PrometheusKernel.Buddy

open ByteMem LinkedList BuddySystem

variable {r : Region} {c : Run} {lists : ℕ → List ℕ} {S : BuddySystem r.pages maxOrder}

/-- A block that is held is an aligned run of pages of the region. -/
theorem Inv.live_block (h : Inv r c lists S) {b : ℕ × ℕ} (hb : b ∈ c.live) :
    ∃ i, b.1 = r.addr i ∧ b.2 ≤ maxOrder ∧ 2 ^ b.2 ∣ i ∧ i + 2 ^ b.2 ≤ r.pages ∧
      lostPages r ≤ i := by
  obtain ⟨i, hi, hused, h0⟩ := h.live b hb
  refine ⟨i, hi, S.used_order (i, b.2) hused, S.used_aligned (i, b.2) hused,
    S.end_le (Or.inr hused), ?_⟩
  unfold lostPages
  split_ifs with hc
  · by_contra hlt
    have hlost : (0, topOrder r.pages) ∈ S.used := by
      apply h.lost
      rw [lostBlocks, if_pos hc]
      exact Finset.mem_singleton_self _
    have hmeet := S.used_eq_of_meet hused hlost (ind_self (i, b.2))
      (ind_eq_one_iff.mpr ⟨Nat.zero_le _, by simp only; omega⟩)
    have hi0 : i = 0 := (Prod.mk.inj hmeet).1
    apply h0
    rw [hi, hi0]
    exact Region.addr_eq_zero_iff.mpr ⟨hc.1, rfl⟩
  · exact Nat.zero_le _

/-- Allocations are always valid. -/
theorem validRun_allocs (c : Run) (N k : ℕ) : ValidRun c (List.replicate N (.alloc k 0)) := by
  induction N generalizing c with
  | zero => trivial
  | succ N ih => exact ⟨trivial, ih _⟩

/-- Allocating order `k` over and over ends in a state that serves the order no more. -/
theorem exhaust (h : Inv r c lists S) (he : Exact r c S) {k : ℕ} (hlive : ∀ b ∈ c.live, b.2 = k) :
    ∃ N c' lists' S', exec c (List.replicate N (.alloc k 0)) = some c' ∧ Inv r c' lists' S' ∧
      Exact r c' S' ∧ (∀ b ∈ c'.live, b.2 = k) ∧ (buddyAllocPages c'.state k 0).1 = 0 := by
  -- the free pages decrease with each allocation
  induction hn : size S.free using Nat.strong_induction_on generalizing c lists S with
  | _ n ih =>
      rcases h.alloc k 0 with hfail | ⟨i, lists', S', hres, h0, hfresh, hused, -, hinv⟩
      · exact ⟨0, c, lists, S, rfl, h, he, hlive, by rw [hfail]⟩
      · have hlt : size S'.free < n := by
          have h1 := S.size_free_add_size_used
          have h2 := S'.size_free_add_size_used
          have h3 : size (insert (i, k) S.used) = 2 ^ k + size S.used := Finset.sum_insert hfresh
          have hpos := Nat.two_pow_pos k
          rw [hused] at h2
          omega
        have hlive' : ∀ b ∈ (r.addr i, k) :: c.live, b.2 = k := by
          intro b hb
          rcases List.mem_cons.mp hb with rfl | hb
          · rfl
          · exact hlive b hb
        obtain ⟨N, c₂, lists₂, S₂, hexec, hrest⟩ :=
          ih _ hlt hinv (exact_insert he hused rfl) hlive' rfl
        refine ⟨N + 1, c₂, lists₂, S₂, ?_, hrest⟩
        rw [List.replicate_succ, exec]
        simp only [step, hres, gain_of_ne h0]
        exact hexec

/-- The blocks that some valid run on the region hands out. -/
theorem returned_iff (r : Region) (m : Mem) (i k : ℕ) :
    (∃ ops c, ValidRun (boot m r.start r.size) ops ∧ exec (boot m r.start r.size) ops = some c ∧
        (r.addr i, k) ∈ c.live) ↔
      k ≤ maxOrder ∧ 2 ^ k ∣ i ∧ i + 2 ^ k ≤ r.pages ∧ lostPages r ≤ i := by
  obtain ⟨lists₀, S₀, hinv₀, hexact₀, -⟩ := inv_boot m r
  constructor
  · rintro ⟨ops, c, hv, hexec, hmem⟩
    obtain ⟨d, lists, S, hd, hinv, -⟩ := exec_inv hinv₀ hv
    obtain rfl : d = c := Option.some.inj (hd.symm.trans hexec)
    obtain ⟨j, hj, hrest⟩ := hinv.live_block hmem
    rw [r.addr_injective hj]
    exact hrest
  · rintro ⟨hk, hal, hend, hlost⟩
    obtain ⟨N, c, lists, S, hexec, hinv, hexact, hlive, hfail⟩ :=
      exhaust hinv₀ hexact₀ (k := k) fun b hb => absurd hb List.not_mem_nil
    refine ⟨_, c, validRun_allocs _ N k, hexec, ?_⟩
    -- the order is exhausted, so the block is not free as a whole
    have hnot : ¬ FreeRun r.start (lostPages r) r.pages c k := by
      intro hrun
      exact (hinv.buddyAllocPages_iff hexact k 0).mpr ⟨hk, Or.inl rfl, hrun⟩ hfail
    have hpage : ∃ p, ind (i, k) p = 1 ∧ ∃ b ∈ c.live, InBlock b (r.start + p * pageSize) := by
      by_contra hcon
      apply hnot
      refine ⟨i, hlost, hal, hend, fun p h1 h2 b hb hin => hcon ⟨p, ?_, b, hb, hin⟩⟩
      exact ind_eq_one_iff.mpr ⟨h1, h2⟩
    obtain ⟨p, hp, b, hb, hin⟩ := hpage
    obtain ⟨j, hj, -, hjal, -⟩ := hinv.live_block hb
    have hbk := hlive b hb
    have hb' : b = (r.addr j, k) := Prod.ext hj hbk
    rw [hb'] at hin hb
    rw [hbk] at hjal
    have hjp := (inBlock_addr_iff (b := (j, k))).mp hin
    rw [eq_of_meet hal hjal hp hjp]
    exact hb

/-- Every run of valid operations on the region returns, and it hands out such blocks only. -/
theorem run_blocks (r : Region) (m : Mem) {ops : List Op}
    (hv : ValidRun (boot m r.start r.size) ops) :
    ∃ c, exec (boot m r.start r.size) ops = some c ∧ ∀ b ∈ c.live, ∃ i, b.1 = r.addr i ∧
      b.2 ≤ maxOrder ∧ 2 ^ b.2 ∣ i ∧ i + 2 ^ b.2 ≤ r.pages ∧ lostPages r ≤ i := by
  obtain ⟨lists₀, S₀, hinv₀, -, -⟩ := inv_boot m r
  obtain ⟨c, lists, S, hexec, hinv, -⟩ := exec_inv hinv₀ hv
  exact ⟨c, hexec, fun b hb => hinv.live_block hb⟩

end PrometheusKernel.Buddy
