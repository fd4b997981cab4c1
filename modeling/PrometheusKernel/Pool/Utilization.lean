import PrometheusKernel.Pool.Model

/-!
# The utilisation of a pool

`pool_get_utilization` takes 100 times the number of live objects in 32 bits. Up to 42949672 live objects that is
the percentage; beyond, the product wraps and the result is too small (`utilization_iff`). A pool of 42949673
objects, all of them in use, reports 0 (`full_pool_reports_zero`).
-/

namespace PrometheusKernel.Pool

/-- The objects of the pool that are in use. -/
def liveObjects (p : MemoryPool) : ℕ := p.totalObjects - p.freeObjects

/-- The percentage of the objects that are in use, rounded down. -/
def percentInUse (p : MemoryPool) : ℕ := 100 * liveObjects p / p.totalObjects

section percentage

variable {p : MemoryPool}

/-- No more objects are live than there are. -/
theorem liveObjects_le (p : MemoryPool) : liveObjects p ≤ p.totalObjects := Nat.sub_le _ _

/-- At most all objects are in use. -/
theorem percentInUse_le (p : MemoryPool) : percentInUse p ≤ 100 := by
  unfold percentInUse
  apply Nat.div_le_of_le_mul
  rw [mul_comm]
  exact Nat.mul_le_mul_right 100 (liveObjects_le p)

/-- With fewer live objects the percentage does not go up. -/
theorem percentInUse_mono {q : MemoryPool} (htotal : q.totalObjects = p.totalObjects)
    (hlive : liveObjects q ≤ liveObjects p) : percentInUse q ≤ percentInUse p := by
  unfold percentInUse
  rw [htotal]
  exact Nat.div_le_div_right (Nat.mul_le_mul_left 100 hlive)

/-- What the code computes: the product is reduced to 32 bits before the division. -/
theorem poolGetUtilization_eq (hpos : 0 < p.totalObjects) (htotal : p.totalObjects < 2 ^ 32)
    (hfree : p.freeObjects ≤ p.totalObjects) :
    poolGetUtilization p = 100 * liveObjects p % 2 ^ 32 / p.totalObjects := by
  unfold poolGetUtilization liveObjects
  rw [if_neg hpos.ne']
  dsimp only
  rw [Word.sub_eq hfree htotal, Word.mul, mul_comm]

/-- A product that wraps loses more than one total, so the quotient is smaller. -/
theorem poolGetUtilization_lt (hpos : 0 < p.totalObjects) (htotal : p.totalObjects < 2 ^ 32)
    (hfree : p.freeObjects ≤ p.totalObjects) (hwrap : 2 ^ 32 ≤ 100 * liveObjects p) :
    poolGetUtilization p < percentInUse p := by
  have hmod : 100 * liveObjects p % 2 ^ 32 + p.totalObjects ≤ 100 * liveObjects p := by
    have hsplit := Nat.mod_add_div (100 * liveObjects p) (2 ^ 32)
    have hquot : 2 ^ 32 * 1 ≤ 2 ^ 32 * (100 * liveObjects p / 2 ^ 32) :=
      Nat.mul_le_mul_left _ ((Nat.one_le_div_iff (Nat.two_pow_pos 32)).mpr hwrap)
    omega
  rw [poolGetUtilization_eq hpos htotal hfree]
  calc 100 * liveObjects p % 2 ^ 32 / p.totalObjects
      < 100 * liveObjects p % 2 ^ 32 / p.totalObjects + 1 := Nat.lt_succ_self _
    _ = (100 * liveObjects p % 2 ^ 32 + p.totalObjects) / p.totalObjects := (Nat.add_div_right _ hpos).symm
    _ ≤ percentInUse p := Nat.div_le_div_right hmod

/-- The result is the percentage exactly when 100 times the live objects fit into 32 bits. -/
theorem poolGetUtilization_eq_iff (hpos : 0 < p.totalObjects) (htotal : p.totalObjects < 2 ^ 32)
    (hfree : p.freeObjects ≤ p.totalObjects) :
    poolGetUtilization p = percentInUse p ↔ 100 * liveObjects p < 2 ^ 32 := by
  constructor
  · intro heq
    by_contra hwrap
    exact (poolGetUtilization_lt hpos htotal hfree (not_lt.mp hwrap)).ne heq
  · intro hfits
    rw [poolGetUtilization_eq hpos htotal hfree, Nat.mod_eq_of_lt hfits]
    rfl

end percentage

/-- The utilisation is the percentage of the objects in use, at most 100, and never less for more live objects,
exactly when 100 times the live objects fit into 32 bits. -/
theorem utilization_iff (p : MemoryPool) (hpos : 0 < p.totalObjects) (htotal : p.totalObjects < 2 ^ 32)
    (hfree : p.freeObjects ≤ p.totalObjects) :
    (poolGetUtilization p = percentInUse p ∧ poolGetUtilization p ≤ 100 ∧
      ∀ q : MemoryPool, q.totalObjects = p.totalObjects → q.freeObjects ≤ q.totalObjects →
        liveObjects q ≤ liveObjects p → poolGetUtilization q ≤ poolGetUtilization p) ↔
      100 * liveObjects p < 2 ^ 32 := by
  constructor
  · rintro ⟨heq, -, -⟩
    exact (poolGetUtilization_eq_iff hpos htotal hfree).mp heq
  · intro hfits
    have heq := (poolGetUtilization_eq_iff hpos htotal hfree).mpr hfits
    refine ⟨heq, heq ▸ percentInUse_le p, fun q hq hqfree hlive => ?_⟩
    have hqfits : 100 * liveObjects q < 2 ^ 32 := lt_of_le_of_lt (Nat.mul_le_mul_left 100 hlive) hfits
    rw [heq, (poolGetUtilization_eq_iff (hq ▸ hpos) (hq ▸ htotal) hqfree).mpr hqfits]
    exact percentInUse_mono hq hlive

/-- A pool of `total` objects of 8 bytes, `free` of them free. -/
def countsOf (total free : ℕ) : MemoryPool := ⟨8, 0, 1, total, free, 0, 0⟩

/-- The largest number of live objects for which the product fits. -/
theorem utilization_sample :
    (poolGetUtilization (countsOf 42949672 0) = percentInUse (countsOf 42949672 0) ∧
      poolGetUtilization (countsOf 42949672 0) ≤ 100 ∧
      ∀ q : MemoryPool, q.totalObjects = (countsOf 42949672 0).totalObjects → q.freeObjects ≤ q.totalObjects →
        liveObjects q ≤ liveObjects (countsOf 42949672 0) →
          poolGetUtilization q ≤ poolGetUtilization (countsOf 42949672 0)) ↔
      100 * liveObjects (countsOf 42949672 0) < 2 ^ 32 :=
  utilization_iff (countsOf 42949672 0) (by decide) (by decide) (by decide)

/-- One more, and the full pool is reported as empty. -/
theorem full_pool_reports_zero :
    ¬ ∀ p : MemoryPool, 0 < p.totalObjects → p.totalObjects < 2 ^ 32 → p.freeObjects ≤ p.totalObjects →
      poolGetUtilization p = percentInUse p := by
  intro h
  have heq := h (countsOf 42949673 0) (by decide) (by decide) (by decide)
  exact absurd heq (by decide)

end PrometheusKernel.Pool
