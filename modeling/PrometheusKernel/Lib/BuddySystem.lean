import Mathlib.Tactic
import Mathlib.Algebra.Order.BigOperators.Group.Finset
import Mathlib.Algebra.BigOperators.Group.Finset.Basic

/-!
# The binary buddy system

A *block* `(i, k)` stands for the `2 ^ k` consecutive units from `i` on; it is *aligned* when
`2 ^ k ∣ i`. A `BuddySystem n M` is a set of free and a set of used blocks of order at most `M`
that together cover each unit below `n` exactly once, and of which no two buddies below the top
order are both free. The invariant is carried by the structure, so every value of it is a legal
configuration.

Four moves change a configuration: `take` (a free block becomes used), `split` (a used block gives
its upper half back), `merge` (a used block swallows its free buddy) and `give` (a used block
becomes free, once its buddy is not). An allocation is a `take` followed by `split`s, a release is
`merge`s followed by a `give`; every intermediate configuration is legal too.

Two consequences are proved for every configuration, without looking at how it arose:

* `exists_free_of_run` — an aligned run of units none of which is used lies inside one free block;
* `free_eq_of_coverage_eq` — the free blocks are determined by the used units.
-/

namespace BuddySystem

/-- A block: first unit and order. -/
abbrev Block := ℕ × ℕ

/-- `1` if the block contains the unit `p`, else `0`. -/
def ind (b : Block) (p : ℕ) : ℕ := if b.1 ≤ p ∧ p < b.1 + 2 ^ b.2 then 1 else 0

/-- How many blocks of `S` contain the unit `p`. -/
def coverage (S : Finset Block) (p : ℕ) : ℕ := ∑ b ∈ S, ind b p

/-- The other half of the block of order `k + 1` that `(i, k)` is a half of. -/
def buddy (i k : ℕ) : ℕ := i ^^^ 2 ^ k

/-! ### Blocks -/

/-- The indicator of a block, spelled out. -/
theorem ind_eq_one_iff {b : Block} {p : ℕ} : ind b p = 1 ↔ b.1 ≤ p ∧ p < b.1 + 2 ^ b.2 := by
  unfold ind
  split_ifs with h <;> simp [h]

/-- A block covers its own index. -/
theorem ind_self (b : Block) : ind b b.1 = 1 :=
  ind_eq_one_iff.mpr ⟨le_rfl, by have := Nat.two_pow_pos b.2; omega⟩

/-- The two halves of a block cover what it covers. -/
theorem ind_split (i k p : ℕ) : ind (i, k + 1) p = ind (i, k) p + ind (i + 2 ^ k, k) p := by
  have hpow : 2 ^ (k + 1) = 2 ^ k + 2 ^ k := by rw [pow_succ]; omega
  simp only [ind, hpow]
  split_ifs <;> omega

/-- Two aligned blocks that meet are nested. -/
theorem nested_of_meet {i j k l p : ℕ} (hi : 2 ^ k ∣ i) (hj : 2 ^ l ∣ j) (hkl : k ≤ l)
    (hip : ind (i, k) p = 1) (hjp : ind (j, l) p = 1) : j ≤ i ∧ i + 2 ^ k ≤ j + 2 ^ l := by
  obtain ⟨a, rfl⟩ := hi
  obtain ⟨b, rfl⟩ := hj
  obtain ⟨d, rfl⟩ := Nat.exists_eq_add_of_le hkl
  have h1 := ind_eq_one_iff.mp hip
  have h2 := ind_eq_one_iff.mp hjp
  simp only [pow_add] at h1 h2 ⊢
  have hpos := Nat.two_pow_pos k
  -- both bounds are compared as multiples of `2 ^ k`
  have hlo : 2 ^ d * b ≤ a := by
    by_contra hlt
    have hle : a + 1 ≤ 2 ^ d * b := by omega
    have hmul := Nat.mul_le_mul_left (2 ^ k) hle
    have e1 : 2 ^ k * (a + 1) = 2 ^ k * a + 2 ^ k := by ring
    have e2 : 2 ^ k * (2 ^ d * b) = 2 ^ k * 2 ^ d * b := by ring
    omega
  have hhi : a + 1 ≤ 2 ^ d * b + 2 ^ d := by
    by_contra hlt
    have hle : 2 ^ d * b + 2 ^ d ≤ a := by omega
    have hmul := Nat.mul_le_mul_left (2 ^ k) hle
    have e1 : 2 ^ k * (2 ^ d * b + 2 ^ d) = 2 ^ k * 2 ^ d * b + 2 ^ k * 2 ^ d := by ring
    omega
  constructor
  · have hmul := Nat.mul_le_mul_left (2 ^ k) hlo
    have e2 : 2 ^ k * (2 ^ d * b) = 2 ^ k * 2 ^ d * b := by ring
    omega
  · have hmul := Nat.mul_le_mul_left (2 ^ k) hhi
    have e1 : 2 ^ k * (a + 1) = 2 ^ k * a + 2 ^ k := by ring
    have e2 : 2 ^ k * (2 ^ d * b + 2 ^ d) = 2 ^ k * 2 ^ d * b + 2 ^ k * 2 ^ d := by ring
    omega

/-- Aligned blocks of one order that meet are the same. -/
theorem eq_of_meet {i j k p : ℕ} (hi : 2 ^ k ∣ i) (hj : 2 ^ k ∣ j) (hip : ind (i, k) p = 1)
    (hjp : ind (j, k) p = 1) : i = j := by
  have h1 := nested_of_meet hi hj le_rfl hip hjp
  have h2 := nested_of_meet hj hi le_rfl hjp hip
  omega

/-! ### Buddies -/

/-- The partner of an even number is the next one. -/
theorem xor_one_of_even {q : ℕ} (h : q % 2 = 0) : q ^^^ 1 = q + 1 := by
  obtain ⟨r, rfl⟩ : ∃ r, q = 2 * r := ⟨q / 2, by omega⟩
  apply Nat.eq_of_testBit_eq
  intro i
  rw [Nat.testBit_xor]
  cases i with
  | zero => simp
  | succ i =>
      have h1 : (2 * r + 1) / 2 = r := by omega
      simp [Nat.testBit_succ, h1]

/-- The partner of an odd number is the one before. -/
theorem xor_one_of_odd {q : ℕ} (h : q % 2 = 1) : q ^^^ 1 = q - 1 := by
  have heven : (q - 1) % 2 = 0 := by omega
  have hq : q = (q - 1) ^^^ 1 := by rw [xor_one_of_even heven]; omega
  rw [hq, Nat.xor_assoc, Nat.xor_self, Nat.xor_zero]
  omega

/-- The buddy of the `q`-th block of an order is the block with the number `q ^^^ 1`. -/
theorem buddy_mul (q k : ℕ) : buddy (2 ^ k * q) k = 2 ^ k * (q ^^^ 1) := by
  have h := Nat.shiftLeft_xor_distrib (a := q) (b := 1) (i := k)
  simp only [Nat.shiftLeft_eq, one_mul] at h
  rw [buddy, mul_comm (2 ^ k) q, ← h, mul_comm]

/-- The buddy of an aligned block is its upper or its lower neighbour. -/
theorem buddy_cases {i k : ℕ} (hi : 2 ^ k ∣ i) :
    (2 ^ (k + 1) ∣ i ∧ buddy i k = i + 2 ^ k) ∨
      (2 ^ (k + 1) ∣ i - 2 ^ k ∧ 2 ^ k ≤ i ∧ buddy i k = i - 2 ^ k) := by
  obtain ⟨q, rfl⟩ := hi
  rw [buddy_mul]
  rcases Nat.mod_two_eq_zero_or_one q with h | h
  · refine Or.inl ⟨?_, by rw [xor_one_of_even h]; ring⟩
    rw [pow_succ]
    exact Nat.mul_dvd_mul_left _ (Nat.dvd_of_mod_eq_zero h)
  · have hq : 1 ≤ q := by omega
    have hsub : 2 ^ k * q - 2 ^ k = 2 ^ k * (q - 1) := by rw [Nat.mul_sub, mul_one]
    refine Or.inr ⟨?_, Nat.le_mul_of_pos_right _ hq, by rw [xor_one_of_odd h, hsub]⟩
    rw [hsub, pow_succ]
    exact Nat.mul_dvd_mul_left _ (Nat.dvd_of_mod_eq_zero (by omega))

/-- A block is the buddy of its buddy. -/
theorem buddy_buddy (i k : ℕ) : buddy (buddy i k) k = i := by
  rw [buddy, buddy, Nat.xor_assoc, Nat.xor_self, Nat.xor_zero]

/-- No block is its own buddy. -/
theorem buddy_ne (i k : ℕ) : buddy i k ≠ i := by
  intro h
  have h1 : (i ^^^ 2 ^ k) ^^^ i = i ^^^ i := by rw [show i ^^^ 2 ^ k = i from h]
  rw [Nat.xor_self, Nat.xor_comm i, Nat.xor_assoc, Nat.xor_self, Nat.xor_zero] at h1
  exact (Nat.two_pow_pos k).ne' h1

/-- The lower one of two buddies is aligned to the next order. -/
theorem min_buddy_aligned {i k : ℕ} (hi : 2 ^ k ∣ i) : 2 ^ (k + 1) ∣ min i (buddy i k) := by
  rcases buddy_cases hi with ⟨h1, h2⟩ | ⟨h1, h2, h3⟩
  · rw [h2, min_eq_left (by omega)]
    exact h1
  · rw [h3, min_eq_right (by omega)]
    exact h1

/-- The merged block covers what the two buddies cover. -/
theorem ind_merge {i k : ℕ} (hi : 2 ^ k ∣ i) (p : ℕ) :
    ind (min i (buddy i k), k + 1) p = ind (i, k) p + ind (buddy i k, k) p := by
  rcases buddy_cases hi with ⟨-, h2⟩ | ⟨-, h2, h3⟩
  · rw [h2, min_eq_left (by omega), ind_split]
  · rw [h3, min_eq_right (by omega), ind_split, Nat.sub_add_cancel h2, add_comm]

/-! ### Coverage -/

/-- A new block adds its own indices to the coverage. -/
theorem coverage_insert {S : Finset Block} {b : Block} (hb : b ∉ S) (p : ℕ) :
    coverage (insert b S) p = ind b p + coverage S p := Finset.sum_insert hb

/-- A block that is taken out takes its own indices out of the coverage. -/
theorem coverage_erase {S : Finset Block} {b : Block} (hb : b ∈ S) (p : ℕ) :
    ind b p + coverage (S.erase b) p = coverage S p :=
  Finset.add_sum_erase S (fun c => ind c p) hb

/-- A block of the set counts in the coverage. -/
theorem ind_le_coverage {S : Finset Block} {b : Block} (hb : b ∈ S) (p : ℕ) :
    ind b p ≤ coverage S p := by
  have h := coverage_erase hb p
  omega

/-- A covered index lies in some block of the set. -/
theorem exists_of_coverage_pos {S : Finset Block} {p : ℕ} (h : 0 < coverage S p) :
    ∃ b ∈ S, ind b p = 1 := by
  obtain ⟨b, hb, hpos⟩ := Finset.exists_ne_zero_of_sum_ne_zero h.ne'
  refine ⟨b, hb, ?_⟩
  unfold ind at hpos ⊢
  split_ifs at hpos ⊢ <;> simp_all

/-- Blocks of a set that meet in an index covered once are the same. -/
theorem eq_of_coverage_le_one {S : Finset Block} {b c : Block} {p : ℕ} (h : coverage S p ≤ 1)
    (hb : b ∈ S) (hc : c ∈ S) (hbp : ind b p = 1) (hcp : ind c p = 1) : b = c := by
  by_contra hne
  have h1 := coverage_erase hb p
  have h2 := ind_le_coverage (Finset.mem_erase.mpr ⟨Ne.symm hne, hc⟩) p
  omega

end BuddySystem

open BuddySystem

/-- A legal configuration of the buddy system on `n` units with top order `M`. -/
structure BuddySystem (n M : ℕ) where
  /-- The free blocks. -/
  free : Finset Block
  /-- The used blocks. -/
  used : Finset Block
  /-- No block exceeds the top order. -/
  free_order : ∀ b ∈ free, b.2 ≤ M
  /-- No block exceeds the top order. -/
  used_order : ∀ b ∈ used, b.2 ≤ M
  /-- Free blocks are naturally aligned. -/
  free_aligned : ∀ b ∈ free, 2 ^ b.2 ∣ b.1
  /-- Used blocks are naturally aligned. -/
  used_aligned : ∀ b ∈ used, 2 ^ b.2 ∣ b.1
  /-- The blocks cover each unit below `n` once and no other unit. -/
  cover : ∀ p, coverage free p + coverage used p = if p < n then 1 else 0
  /-- Two buddies below the top order are never both free. -/
  no_buddies : ∀ i k, k < M → (i, k) ∈ free → (buddy i k, k) ∉ free

namespace BuddySystem

variable {n M : ℕ} (S : BuddySystem n M)

/-! ### What a configuration says about its blocks -/

/-- No index is covered twice. -/
theorem coverage_le (p : ℕ) : coverage S.free p + coverage S.used p ≤ 1 := by
  rw [S.cover]
  split_ifs <;> omega

/-- The blocks of a system end by `n`, index by index. -/
theorem lt_of_ind {b : Block} (hb : b ∈ S.free ∨ b ∈ S.used) {p : ℕ} (hp : ind b p = 1) :
    p < n := by
  by_contra hge
  have hc := S.cover p
  rw [if_neg hge] at hc
  rcases hb with hb | hb
  · have := ind_le_coverage hb p
    omega
  · have := ind_le_coverage hb p
    omega

/-- The blocks of a system end by `n`. -/
theorem end_le {b : Block} (hb : b ∈ S.free ∨ b ∈ S.used) : b.1 + 2 ^ b.2 ≤ n := by
  have hpos := Nat.two_pow_pos b.2
  have h := S.lt_of_ind hb (p := b.1 + 2 ^ b.2 - 1) (ind_eq_one_iff.mpr ⟨by omega, by omega⟩)
  omega

/-- A free block and a used block do not meet. -/
theorem not_meet {b c : Block} (hb : b ∈ S.free) (hc : c ∈ S.used) {p : ℕ}
    (hbp : ind b p = 1) : ind c p = 0 := by
  have h := S.coverage_le p
  have h1 := ind_le_coverage hb p
  have h2 := ind_le_coverage hc p
  omega

/-- No block is both free and used. -/
theorem not_used_of_free {b : Block} (hb : b ∈ S.free) : b ∉ S.used := by
  intro hc
  have h := S.not_meet hb hc (ind_self b)
  rw [ind_self] at h
  omega

/-- Free blocks that meet are the same. -/
theorem free_eq_of_meet {b c : Block} (hb : b ∈ S.free) (hc : c ∈ S.free) {p : ℕ}
    (hbp : ind b p = 1) (hcp : ind c p = 1) : b = c := by
  have h := S.coverage_le p
  exact eq_of_coverage_le_one (by omega) hb hc hbp hcp

/-- Used blocks that meet are the same. -/
theorem used_eq_of_meet {b c : Block} (hb : b ∈ S.used) (hc : c ∈ S.used) {p : ℕ}
    (hbp : ind b p = 1) (hcp : ind c p = 1) : b = c := by
  have h := S.coverage_le p
  exact eq_of_coverage_le_one (by omega) hb hc hbp hcp

/-- Every unit that is not used lies in a free block. -/
theorem exists_free {p : ℕ} (hp : p < n) (hu : coverage S.used p = 0) :
    ∃ b ∈ S.free, ind b p = 1 := by
  have h := S.cover p
  rw [if_pos hp] at h
  exact exists_of_coverage_pos (by omega)

/-! ### The four moves -/

/-- A free block becomes used. -/
def take (b : Block) (hb : b ∈ S.free) : BuddySystem n M where
  free := S.free.erase b
  used := insert b S.used
  free_order c hc := S.free_order c (Finset.mem_of_mem_erase hc)
  used_order c hc := by
    rcases Finset.mem_insert.mp hc with rfl | hc
    · exact S.free_order _ hb
    · exact S.used_order c hc
  free_aligned c hc := S.free_aligned c (Finset.mem_of_mem_erase hc)
  used_aligned c hc := by
    rcases Finset.mem_insert.mp hc with rfl | hc
    · exact S.free_aligned _ hb
    · exact S.used_aligned c hc
  cover p := by
    rw [coverage_insert (S.not_used_of_free hb), ← S.cover p, ← coverage_erase hb p]
    omega
  no_buddies i k hk hi hbud :=
    S.no_buddies i k hk (Finset.mem_of_mem_erase hi) (Finset.mem_of_mem_erase hbud)

/-- A used block keeps its lower half; the upper half becomes free. -/
def split (i k : ℕ) (hb : (i, k + 1) ∈ S.used) : BuddySystem n M where
  free := insert (i + 2 ^ k, k) S.free
  used := insert (i, k) (S.used.erase (i, k + 1))
  free_order c hc := by
    rcases Finset.mem_insert.mp hc with rfl | hc
    · exact le_trans (Nat.le_succ k) (S.used_order _ hb)
    · exact S.free_order c hc
  used_order c hc := by
    rcases Finset.mem_insert.mp hc with rfl | hc
    · exact le_trans (Nat.le_succ k) (S.used_order _ hb)
    · exact S.used_order c (Finset.mem_of_mem_erase hc)
  free_aligned c hc := by
    rcases Finset.mem_insert.mp hc with rfl | hc
    · exact Nat.dvd_add (dvd_trans (pow_dvd_pow 2 (Nat.le_succ k)) (S.used_aligned _ hb)) dvd_rfl
    · exact S.free_aligned c hc
  used_aligned c hc := by
    rcases Finset.mem_insert.mp hc with rfl | hc
    · exact dvd_trans (pow_dvd_pow 2 (Nat.le_succ k)) (S.used_aligned _ hb)
    · exact S.used_aligned c (Finset.mem_of_mem_erase hc)
  cover p := by
    have hup : ind (i, k + 1) (i + 2 ^ k) = 1 := by
      rw [ind_eq_one_iff, pow_succ]
      have := Nat.two_pow_pos k
      simp only
      omega
    have hfree : (i + 2 ^ k, k) ∉ S.free := by
      intro hf
      have h := S.not_meet hf hb (ind_self _)
      simp only [hup] at h
      omega
    have hused : (i, k) ∉ S.used.erase (i, k + 1) := by
      intro hu
      have hu' := Finset.mem_of_mem_erase hu
      have h := S.used_eq_of_meet hu' hb (ind_self _) (ind_self (i, k + 1))
      simp at h
    rw [coverage_insert hfree, coverage_insert hused, ← S.cover p, ← coverage_erase hb p,
      ind_split]
    omega
  no_buddies j l hl hj hbud := by
    -- the buddy of the returned half is the half that stays used
    have hlow : (i, k) ∉ S.free := fun hf => by
      have h := S.not_meet hf hb (ind_self _)
      rw [show (i, k).1 = (i, k + 1).1 from rfl, ind_self] at h
      omega
    have hal : 2 ^ (k + 1) ∣ i := S.used_aligned _ hb
    have hbuddy : buddy (i + 2 ^ k) k = i := by
      have h : buddy i k = i + 2 ^ k := by
        rcases buddy_cases (dvd_trans (pow_dvd_pow 2 (Nat.le_succ k)) hal) with ⟨-, h⟩ | ⟨h1, h2, -⟩
        · exact h
        · have hd : 2 ^ (k + 1) ∣ 2 ^ k := by
            have hsub := Nat.dvd_sub hal h1
            rwa [Nat.sub_sub_self h2] at hsub
          have hle := Nat.le_of_dvd (Nat.two_pow_pos k) hd
          have hpos := Nat.two_pow_pos k
          rw [pow_succ] at hle
          omega
      rw [← h, buddy_buddy]
    rcases Finset.mem_insert.mp hj with hj' | hj' <;>
      rcases Finset.mem_insert.mp hbud with hb' | hb'
    · obtain ⟨rfl, rfl⟩ := Prod.mk.inj hj'
      exact buddy_ne _ _ (Prod.mk.inj hb').1
    · obtain ⟨rfl, rfl⟩ := Prod.mk.inj hj'
      rw [hbuddy] at hb'
      exact hlow hb'
    · obtain ⟨hbj, rfl⟩ := Prod.mk.inj hb'
      have : j = i := by rw [← buddy_buddy j l, hbj, hbuddy]
      exact hlow (this ▸ hj')
    · exact S.no_buddies j l hl hj' hb'

/-- A used block below the top order swallows its free buddy. -/
def merge (i k : ℕ) (hk : k < M) (hb : (i, k) ∈ S.used) (hf : (buddy i k, k) ∈ S.free) :
    BuddySystem n M where
  free := S.free.erase (buddy i k, k)
  used := insert (min i (buddy i k), k + 1) (S.used.erase (i, k))
  free_order c hc := S.free_order c (Finset.mem_of_mem_erase hc)
  used_order c hc := by
    rcases Finset.mem_insert.mp hc with rfl | hc
    · exact hk
    · exact S.used_order c (Finset.mem_of_mem_erase hc)
  free_aligned c hc := S.free_aligned c (Finset.mem_of_mem_erase hc)
  used_aligned c hc := by
    rcases Finset.mem_insert.mp hc with rfl | hc
    · exact min_buddy_aligned (S.used_aligned _ hb)
    · exact S.used_aligned c (Finset.mem_of_mem_erase hc)
  cover p := by
    have hal : 2 ^ k ∣ i := S.used_aligned _ hb
    have hnot : (min i (buddy i k), k + 1) ∉ S.used.erase (i, k) := by
      intro hu
      have hu' := Finset.mem_of_mem_erase hu
      have h := S.not_meet hf hu' (ind_self _)
      have hm := ind_merge hal (buddy i k)
      have hs := ind_self (buddy i k, k)
      simp only at hs h
      omega
    rw [coverage_insert hnot, ind_merge hal, ← S.cover p, ← coverage_erase hb p,
      ← coverage_erase hf p]
    omega
  no_buddies j l hl hj hbud :=
    S.no_buddies j l hl (Finset.mem_of_mem_erase hj) (Finset.mem_of_mem_erase hbud)

/-- A used block whose buddy is not free becomes free. -/
def give (i k : ℕ) (hb : (i, k) ∈ S.used) (hbud : k < M → (buddy i k, k) ∉ S.free) :
    BuddySystem n M where
  free := insert (i, k) S.free
  used := S.used.erase (i, k)
  free_order c hc := by
    rcases Finset.mem_insert.mp hc with rfl | hc
    · exact S.used_order _ hb
    · exact S.free_order c hc
  used_order c hc := S.used_order c (Finset.mem_of_mem_erase hc)
  free_aligned c hc := by
    rcases Finset.mem_insert.mp hc with rfl | hc
    · exact S.used_aligned _ hb
    · exact S.free_aligned c hc
  used_aligned c hc := S.used_aligned c (Finset.mem_of_mem_erase hc)
  cover p := by
    have hnot : (i, k) ∉ S.free := fun hf => S.not_used_of_free hf hb
    rw [coverage_insert hnot, ← S.cover p, ← coverage_erase hb p]
    omega
  no_buddies j l hl hj hbud' := by
    rcases Finset.mem_insert.mp hj with hj' | hj' <;>
      rcases Finset.mem_insert.mp hbud' with hb' | hb'
    · obtain ⟨rfl, rfl⟩ := Prod.mk.inj hj'
      exact buddy_ne _ _ (Prod.mk.inj hb').1
    · obtain ⟨rfl, rfl⟩ := Prod.mk.inj hj'
      exact hbud hl hb'
    · obtain ⟨hbj, rfl⟩ := Prod.mk.inj hb'
      have : j = buddy i l := by rw [← hbj, buddy_buddy]
      exact hbud hl (this ▸ hj')
    · exact S.no_buddies j l hl hj' hb'

/-! ### Laying out an initial configuration -/

/-- The configuration on no units. -/
def empty (M : ℕ) : BuddySystem 0 M where
  free := ∅
  used := ∅
  free_order := by simp
  used_order := by simp
  free_aligned := by simp
  used_aligned := by simp
  cover := by simp [coverage]
  no_buddies := by simp

/-- What lies below the end of a block lies below it or in it. -/
theorem ind_end_of_lt {i k p : ℕ} : ind (i, k) p + (if p < i then 1 else 0)
    = if p < i + 2 ^ k then 1 else 0 := by
  have := Nat.two_pow_pos k
  simp only [ind]
  split_ifs <;> omega

/-- No free block starts at the end of the system. -/
theorem end_not_free (k : ℕ) : (n, k) ∉ S.free := by
  intro h
  have := S.end_le (Or.inl h)
  have := Nat.two_pow_pos k
  simp only at *
  omega

/-- No used block starts at the end of the system. -/
theorem end_not_used (k : ℕ) : (n, k) ∉ S.used := by
  intro h
  have := S.end_le (Or.inr h)
  have := Nat.two_pow_pos k
  simp only at *
  omega

/-- Add a free block after the last unit. -/
def extend (k : ℕ) (hk : k ≤ M) (hal : 2 ^ k ∣ n) (hno : k < M → ∀ i, (i, k) ∉ S.free) :
    BuddySystem (n + 2 ^ k) M where
  free := insert (n, k) S.free
  used := S.used
  free_order c hc := by
    rcases Finset.mem_insert.mp hc with rfl | hc
    · exact hk
    · exact S.free_order c hc
  used_order := S.used_order
  free_aligned c hc := by
    rcases Finset.mem_insert.mp hc with rfl | hc
    · exact hal
    · exact S.free_aligned c hc
  used_aligned := S.used_aligned
  cover p := by
    have h := S.cover p
    rw [coverage_insert (S.end_not_free k), ← ind_end_of_lt, ← h]
    omega
  no_buddies i l hl hi hbud := by
    rcases Finset.mem_insert.mp hi with hi' | hi' <;>
      rcases Finset.mem_insert.mp hbud with hb' | hb'
    · obtain ⟨rfl, rfl⟩ := Prod.mk.inj hi'
      exact buddy_ne _ _ (Prod.mk.inj hb').1
    · obtain ⟨rfl, rfl⟩ := Prod.mk.inj hi'
      exact hno hl _ hb'
    · obtain ⟨-, rfl⟩ := Prod.mk.inj hb'
      exact hno hl _ hi'
    · exact S.no_buddies i l hl hi' hb'

/-- Add a used block after the last unit. -/
def extendUsed (k : ℕ) (hk : k ≤ M) (hal : 2 ^ k ∣ n) : BuddySystem (n + 2 ^ k) M where
  free := S.free
  used := insert (n, k) S.used
  free_order := S.free_order
  used_order c hc := by
    rcases Finset.mem_insert.mp hc with rfl | hc
    · exact hk
    · exact S.used_order c hc
  free_aligned := S.free_aligned
  used_aligned c hc := by
    rcases Finset.mem_insert.mp hc with rfl | hc
    · exact hal
    · exact S.used_aligned c hc
  cover p := by
    have h := S.cover p
    rw [coverage_insert (S.end_not_used k), ← ind_end_of_lt, ← h]
    omega
  no_buddies := S.no_buddies

/-! ### Completeness and uniqueness -/

/-- An aligned run of units none of which is used lies inside one free block. The two halves of a
run each lie in a free block; were both of these no larger than a half, they would be two free
buddies. -/
theorem exists_free_of_run {i k : ℕ} (hk : k ≤ M) (hal : 2 ^ k ∣ i) (hend : i + 2 ^ k ≤ n)
    (hu : ∀ p, ind (i, k) p = 1 → coverage S.used p = 0) :
    ∃ b ∈ S.free, k ≤ b.2 ∧ b.1 ≤ i ∧ i + 2 ^ k ≤ b.1 + 2 ^ b.2 := by
  induction k generalizing i with
  | zero =>
      obtain ⟨b, hb, hbi⟩ := S.exists_free (p := i) (by omega) (hu i (ind_self (i, 0)))
      obtain ⟨h1, h2⟩ := nested_of_meet hal (S.free_aligned b hb) (Nat.zero_le _)
        (ind_self (i, 0)) hbi
      exact ⟨b, hb, Nat.zero_le _, h1, h2⟩
  | succ k ih =>
      have hpow : 2 ^ (k + 1) = 2 ^ k + 2 ^ k := by rw [pow_succ]; omega
      have hpos := Nat.two_pow_pos k
      have hal' : 2 ^ k ∣ i := dvd_trans (pow_dvd_pow 2 (Nat.le_succ k)) hal
      have hlow : ∀ p, ind (i, k) p = 1 → ind (i, k + 1) p = 1 := by
        intro p hp
        have := ind_eq_one_iff.mp hp
        exact ind_eq_one_iff.mpr ⟨this.1, by simp only at *; omega⟩
      have hhigh : ∀ p, ind (i + 2 ^ k, k) p = 1 → ind (i, k + 1) p = 1 := by
        intro p hp
        have := ind_eq_one_iff.mp hp
        exact ind_eq_one_iff.mpr ⟨by simp only at *; omega, by simp only at *; omega⟩
      obtain ⟨b, hb, hbk, hb1, hb2⟩ := ih (by omega) hal' (by omega) fun p hp => hu p (hlow p hp)
      obtain ⟨c, hc, hck, hc1, hc2⟩ := ih (by omega) (Nat.dvd_add hal' dvd_rfl) (by omega)
        fun p hp => hu p (hhigh p hp)
      -- a free block of order above `k` that meets the run contains it
      have hlarge : ∀ d ∈ S.free, k + 1 ≤ d.2 → (∃ p, ind (i, k + 1) p = 1 ∧ ind d p = 1) →
          ∃ b ∈ S.free, k + 1 ≤ b.2 ∧ b.1 ≤ i ∧ i + 2 ^ (k + 1) ≤ b.1 + 2 ^ b.2 := by
        rintro d hd hdk ⟨p, hp, hdp⟩
        obtain ⟨h1, h2⟩ := nested_of_meet hal (S.free_aligned d hd) hdk hp hdp
        exact ⟨d, hd, hdk, h1, h2⟩
      rcases Nat.lt_or_ge k b.2 with hbig | hbsmall
      · exact hlarge b hb hbig ⟨i, ind_self (i, k + 1), ind_eq_one_iff.mpr ⟨hb1, by omega⟩⟩
      rcases Nat.lt_or_ge k c.2 with hbig | hcsmall
      · exact hlarge c hc hbig ⟨i + 2 ^ k, hhigh _ (ind_self (i + 2 ^ k, k)),
          ind_eq_one_iff.mpr ⟨hc1, by omega⟩⟩
      -- both blocks are halves of the run, so they are buddies
      obtain ⟨b1, b2⟩ := b
      obtain ⟨c1, c2⟩ := c
      obtain rfl : b2 = k := le_antisymm hbsmall hbk
      obtain rfl : c2 = b2 := le_antisymm hcsmall hck
      obtain rfl : b1 = i := by simp only at *; omega
      obtain rfl : c1 = b1 + 2 ^ c2 := by simp only at *; omega
      have hbuddy : buddy b1 c2 = b1 + 2 ^ c2 := by
        rcases buddy_cases hal' with ⟨-, h⟩ | ⟨h1, h2, -⟩
        · exact h
        · have hd := Nat.dvd_sub hal h1
          rw [Nat.sub_sub_self h2] at hd
          have hle := Nat.le_of_dvd hpos hd
          omega
      exact absurd (hbuddy ▸ hc) (S.no_buddies b1 c2 (by omega) hb)

/-- With the same units used, the free blocks of one system are free in the other. -/
theorem free_subset_of_coverage_eq (T : BuddySystem n M)
    (h : ∀ p, coverage S.used p = coverage T.used p) : S.free ⊆ T.free := by
  intro b hb
  have hpos := Nat.two_pow_pos b.2
  have hfreeS : ∀ p, ind b p = 1 → coverage T.used p = 0 := by
    intro p hp
    have h1 := ind_le_coverage hb p
    have h2 := S.coverage_le p
    have h3 := h p
    omega
  obtain ⟨c, hc, hbc, hc1, hc2⟩ := T.exists_free_of_run (S.free_order b hb) (S.free_aligned b hb)
    (S.end_le (Or.inl hb)) hfreeS
  have hfreeT : ∀ p, ind c p = 1 → coverage S.used p = 0 := by
    intro p hp
    have h1 := ind_le_coverage hc p
    have h2 := T.coverage_le p
    have h3 := h p
    omega
  obtain ⟨d, hd, hcd, hd1, hd2⟩ := S.exists_free_of_run (T.free_order c hc) (T.free_aligned c hc)
    (T.end_le (Or.inl hc)) hfreeT
  have hdb : d = b := S.free_eq_of_meet hd hb
    (ind_eq_one_iff.mpr ⟨hd1.trans hc1, by omega⟩) (ind_self b)
  subst hdb
  have hord : c.2 = d.2 := le_antisymm hcd hbc
  have hc : c = d := Prod.ext (by omega) hord
  rwa [← hc]

/-- The free blocks are determined by the used units. -/
theorem free_eq_of_coverage_eq (T : BuddySystem n M)
    (h : ∀ p, coverage S.used p = coverage T.used p) : S.free = T.free :=
  Finset.Subset.antisymm (S.free_subset_of_coverage_eq T h)
    (T.free_subset_of_coverage_eq S fun p => (h p).symm)

/-! ### Sizes -/

/-- The number of units in a set of blocks. -/
def size (B : Finset Block) : ℕ := ∑ b ∈ B, 2 ^ b.2

/-- A block of order `k` covers `2 ^ k` units. -/
theorem sum_ind {b : Block} (h : b.1 + 2 ^ b.2 ≤ n) : ∑ p ∈ Finset.range n, ind b p = 2 ^ b.2 := by
  have hfilter : (Finset.range n).filter (fun p => b.1 ≤ p ∧ p < b.1 + 2 ^ b.2)
      = Finset.Ico b.1 (b.1 + 2 ^ b.2) := by
    ext p
    simp only [Finset.mem_filter, Finset.mem_range, Finset.mem_Ico]
    omega
  simp only [ind]
  rw [← Finset.sum_filter, hfilter]
  simp

/-- Free and used units add up. -/
theorem size_free_add_size_used : size S.free + size S.used = n := by
  have hsum : ∀ B : Finset Block, (∀ b ∈ B, b.1 + 2 ^ b.2 ≤ n) →
      ∑ p ∈ Finset.range n, coverage B p = size B := by
    intro B hB
    simp only [coverage, size]
    rw [Finset.sum_comm]
    exact Finset.sum_congr rfl fun b hb => sum_ind (hB b hb)
  rw [← hsum S.free fun b hb => S.end_le (Or.inl hb),
    ← hsum S.used fun b hb => S.end_le (Or.inr hb), ← Finset.sum_add_distrib]
  have hone : ∀ p ∈ Finset.range n, coverage S.free p + coverage S.used p = 1 := by
    intro p hp
    rw [S.cover p, if_pos (Finset.mem_range.mp hp)]
  rw [Finset.sum_congr rfl hone]
  simp

end BuddySystem
