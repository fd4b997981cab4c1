import PrometheusKernel.Vmm.Model
import PrometheusKernel.Ownership

/-!
# The bits of a page table entry

An entry is a machine word: the frame in bits 12 to 51, flags below. The lemmas say which bits the
masks of `vmm.c` select, and what the entries that the code builds decode to.
-/

namespace PrometheusKernel.Vmm

/-! ### Masks -/

/-- The mask of the frame has bits 12 to 51. -/
theorem testBit_frameMask (i : ℕ) : frameMask.testBit i = decide (12 ≤ i ∧ i < 52) := by
  have h : frameMask = (2 ^ 40 - 1) <<< 12 := by decide
  rw [h, Nat.testBit_shiftLeft, Nat.testBit_two_pow_sub_one]
  by_cases h1 : 12 ≤ i
  · have h2 : i - 12 < 40 ↔ i < 52 := by omega
    simp [h1, h2]
  · simp [h1]

/-- The mask of the flags has bits 0 to 11. -/
theorem testBit_lowMask (i : ℕ) : (0xFFF : ℕ).testBit i = decide (i < 12) := by
  have h : (0xFFF : ℕ) = 2 ^ 12 - 1 := by decide
  rw [h, Nat.testBit_two_pow_sub_one]

/-- `VMM_FLAG_PRESENT` is bit 0. -/
theorem testBit_flagPresent (i : ℕ) : flagPresent.testBit i = decide (0 = i) := by
  have h : flagPresent = 2 ^ 0 := by decide
  rw [h, Nat.testBit_two_pow]

/-- `VMM_FLAG_WRITABLE` is bit 1. -/
theorem testBit_flagWritable (i : ℕ) : flagWritable.testBit i = decide (1 = i) := by
  have h : flagWritable = 2 ^ 1 := by decide
  rw [h, Nat.testBit_two_pow]

/-- A mask of one bit tests it. -/
theorem and_two_pow_eq_zero_iff (e k : ℕ) : e &&& 2 ^ k = 0 ↔ e.testBit k = false := by
  constructor
  · intro h
    have hbit := congrArg (fun n : ℕ => n.testBit k) h
    simpa [Nat.testBit_and, Nat.testBit_two_pow] using hbit
  · intro h
    apply Nat.eq_of_testBit_eq
    intro i
    rw [Nat.testBit_and, Nat.testBit_two_pow, Nat.zero_testBit]
    by_cases hi : k = i
    · rw [← hi, h, Bool.false_and]
    · simp [hi]

/-- An entry is absent exactly if bit 0 is clear. -/
theorem and_flagPresent_eq_zero_iff (e : ℕ) : e &&& flagPresent = 0 ↔ e.testBit 0 = false :=
  and_two_pow_eq_zero_iff e 0

/-- An entry is read-only exactly if bit 1 is clear. -/
theorem and_flagWritable_eq_zero_iff (e : ℕ) : e &&& flagWritable = 0 ↔ e.testBit 1 = false :=
  and_two_pow_eq_zero_iff e 1

/-! ### Frames in entries -/

/-- The address of a frame only has the bits of a frame. -/
theorem IsFrame.testBit {f : ℕ} (h : IsFrame f) {i : ℕ} (hi : f.testBit i = true) :
    12 ≤ i ∧ i < 52 := by
  constructor
  · by_contra hlt
    have hmod : f % 2 ^ 12 = 0 := h.aligned
    have hbit : (f % 2 ^ 12).testBit i = f.testBit i := by
      rw [Nat.testBit_mod_two_pow, decide_eq_true (by omega), Bool.true_and]
    rw [hmod, hi] at hbit
    simp at hbit
  · by_contra hge
    have hlt : f < 2 ^ i := lt_of_lt_of_le h.lt (Nat.pow_le_pow_right (by norm_num) (by omega))
    rw [Nat.testBit_lt_two_pow hlt] at hi
    exact absurd hi (by simp)

/-- An entry that holds a frame and flags in the low bits decodes to the frame. -/
theorem IsFrame.or_and_frameMask {f g : ℕ} (h : IsFrame f) (hg : ∀ i, g.testBit i = true → i < 12) :
    (f ||| g) &&& frameMask = f := by
  apply Nat.eq_of_testBit_eq
  intro i
  rw [Nat.testBit_and, Nat.testBit_or, testBit_frameMask]
  cases hf : f.testBit i with
  | true =>
      have := IsFrame.testBit h hf
      simp [this]
  | false =>
      cases hgi : g.testBit i with
      | true =>
          have := hg i hgi
          simp
          omega
      | false => simp

/-- The entry that `get_or_alloc` writes. -/
theorem tableEntry_spec {f : ℕ} (h : IsFrame f) :
    (f ||| flagPresent ||| flagWritable) &&& frameMask = f ∧
      (f ||| flagPresent ||| flagWritable) &&& flagPresent ≠ 0 ∧
      f ||| flagPresent ||| flagWritable < 2 ^ 64 := by
  refine ⟨?_, ?_, ?_⟩
  · rw [Nat.or_assoc]
    refine IsFrame.or_and_frameMask h fun i hi => ?_
    rw [Nat.testBit_or, testBit_flagPresent, testBit_flagWritable] at hi
    simp only [Bool.or_eq_true, decide_eq_true_eq] at hi
    omega
  · rw [Ne, and_flagPresent_eq_zero_iff, Nat.testBit_or, Nat.testBit_or, testBit_flagPresent]
    simp
  · have hf : f < 2 ^ 64 := lt_of_lt_of_le h.lt (by norm_num)
    exact Nat.or_lt_two_pow (Nat.or_lt_two_pow hf (by decide)) (by decide)

/-- A frame fills its field of an entry. -/
theorem and_frameMask_of_isFrame {f : ℕ} (h : IsFrame f) : f &&& frameMask = f := by
  have hor := IsFrame.or_and_frameMask h (g := 0) fun i hi => by simp at hi
  rw [Nat.or_zero] at hor
  exact hor

/-- The frame of an entry is a physical address. -/
theorem and_frameMask_lt (x : ℕ) : x &&& frameMask < 2 ^ 52 :=
  lt_of_le_of_lt Nat.and_le_right (by decide)

/-- The entry that `vmm_map_page` writes. -/
theorem mapEntry_spec (phys flags : ℕ) :
    ((phys &&& frameMask) ||| (flags &&& 0xFFF) ||| flagPresent) &&& frameMask = phys &&& frameMask ∧
      ((phys &&& frameMask) ||| (flags &&& 0xFFF) ||| flagPresent) &&& 0xFFF
        = (flags &&& 0xFFF) ||| flagPresent ∧
      ((phys &&& frameMask) ||| (flags &&& 0xFFF) ||| flagPresent) &&& flagPresent ≠ 0 ∧
      (phys &&& frameMask) ||| (flags &&& 0xFFF) ||| flagPresent < 2 ^ 64 := by
  refine ⟨?_, ?_, ?_, ?_⟩
  · apply Nat.eq_of_testBit_eq
    intro i
    simp only [Nat.testBit_and, Nat.testBit_or, testBit_frameMask, testBit_lowMask,
      testBit_flagPresent]
    by_cases h : 12 ≤ i
    · have h1 : ¬ i < 12 := by omega
      have h2 : ¬ 0 = i := by omega
      simp [h1, h2]
    · simp [h]
  · apply Nat.eq_of_testBit_eq
    intro i
    simp only [Nat.testBit_and, Nat.testBit_or, testBit_frameMask, testBit_lowMask,
      testBit_flagPresent]
    by_cases h : i < 12
    · have h1 : ¬ 12 ≤ i := by omega
      simp [h, h1]
    · have h2 : ¬ 0 = i := by omega
      simp [h, h2]
  · rw [Ne, and_flagPresent_eq_zero_iff, Nat.testBit_or, testBit_flagPresent]
    simp
  · have h1 : phys &&& frameMask < 2 ^ 64 := lt_of_lt_of_le (and_frameMask_lt phys) (by norm_num)
    have h2 : flags &&& 0xFFF < 2 ^ 64 := lt_of_le_of_lt Nat.and_le_right (by norm_num)
    exact Nat.or_lt_two_pow (Nat.or_lt_two_pow h1 h2) (by decide)

/-! ### Virtual addresses -/

/-- The virtual page number: bits 12 to 47. -/
def vpn (virt : ℕ) : ℕ := virt / 2 ^ 12 % 2 ^ 36

/-- The table indices of a virtual address above the last level. -/
def tablePath (virt : ℕ) : List ℕ := [pml4Index virt, pdptIndex virt, pdIndex virt]

/-- The index of a level, as a number. -/
theorem index_eq (x k : ℕ) : (x >>> k) &&& 0x1FF = x / 2 ^ k % 512 := by
  rw [Nat.shiftRight_eq_div_pow]
  exact Nat.and_two_pow_sub_one_eq_mod _ 9

/-- An index is one of a table. -/
theorem index_lt (x k : ℕ) : (x >>> k) &&& 0x1FF < ptEntries := by
  rw [index_eq]
  exact Nat.mod_lt _ (by norm_num)

/-- Two addresses use the same slot of the same table exactly when they are in the same page. -/
theorem tablePath_eq_iff (v w : ℕ) :
    tablePath v = tablePath w ∧ ptIndex v = ptIndex w ↔ vpn v = vpn w := by
  unfold tablePath pml4Index pdptIndex pdIndex ptIndex vpn
  simp only [index_eq, List.cons.injEq, and_true]
  omega

end PrometheusKernel.Vmm
