import PrometheusKernel.Buddy.Steps
import Mathlib.Data.Nat.Log

/-!
# `buddy_init` lays out a buddy system

The layout loop takes, at each address, the largest block that is aligned and fits. Since it starts
at page 0, alignment never decides: whenever `2 ^ j` pages remain, `2 ^ j` divides the index
reached (`Fits`). Hence every block but those of the top order is larger than what remains behind
it (`Greedy`), so no two blocks of an order below the top one are laid out, and in particular no
two buddies.

A region that starts at address 0 loses its first block: its address is the null pointer, so
linking it leaves the list empty. The block then belongs to the used blocks for good
(`buddyInit_rep_zero`).
-/

namespace PrometheusKernel.Buddy

open ByteMem LinkedList BuddySystem

/-- Where `2 ^ j` pages remain, the index reached is a multiple of `2 ^ j`. -/
def Fits (cur rem : ℕ) : Prop := ∀ j ≤ maxOrder, 2 ^ j ≤ rem → 2 ^ j ∣ cur

/-- Every block below the top order is larger than what remains behind it. -/
def Greedy (free : Finset Block) (rem : ℕ) : Prop := ∀ b ∈ free, b.2 < maxOrder → rem < 2 ^ b.2

/-- The largest order up to the top one of which `n` units contain a block. -/
def topOrder (n : ℕ) : ℕ := min maxOrder (Nat.log 2 n)

/-- No block is larger than the largest order. -/
theorem topOrder_le (n : ℕ) : topOrder n ≤ maxOrder := min_le_left _ _

/-- The block of the top order fits into what is left. -/
theorem two_pow_topOrder_le {n : ℕ} (hn : 0 < n) : 2 ^ topOrder n ≤ n :=
  le_trans (Nat.pow_le_pow_right (by norm_num) (min_le_right _ _)) (Nat.pow_log_le_self 2 hn.ne')

/-- Where the top order is not the largest one, twice its block would not fit. -/
theorem lt_two_pow_topOrder {n : ℕ} (h : topOrder n < maxOrder) : n < 2 ^ (topOrder n + 1) := by
  have hlog : topOrder n = Nat.log 2 n := by
    unfold topOrder at h ⊢
    omega
  rw [hlog]
  exact Nat.lt_pow_succ_log_self (by norm_num) n

/-- The inner loop finds the largest order that fits. -/
theorem initOrder_eq {g : BuddyGlobals} {a cur rem : ℕ} (hidx : addrToPageIndex g a = cur)
    (hfits : Fits cur rem) (hrem : 0 < rem) :
    initOrder g a rem maxOrder = topOrder rem := by
  have hspec : ∀ K ≤ maxOrder, initOrder g a rem K = min K (Nat.log 2 rem) := by
    intro K hK
    induction K with
    | zero => simp [initOrder]
    | succ K ih =>
        unfold initOrder
        simp only
        rw [hidx, Nat.one_shiftLeft, Nat.and_two_pow_sub_one_eq_mod]
        by_cases hle : 2 ^ (K + 1) ≤ rem
        · have hdvd := hfits (K + 1) hK hle
          have hmod : cur % 2 ^ (K + 1) = 0 := Nat.mod_eq_zero_of_dvd hdvd
          simp only [gt_iff_lt, not_lt.mpr hle, hmod, ne_eq, not_true, or_self, if_false]
          have hlog : K + 1 ≤ Nat.log 2 rem := Nat.le_log_of_pow_le (by norm_num) hle
          omega
        · simp only [gt_iff_lt, not_le.mp hle, true_or, if_true]
          rw [ih (by omega)]
          have hlog : Nat.log 2 rem < K + 1 := Nat.log_lt_of_lt_pow hrem.ne' (not_le.mp hle)
          omega
  exact hspec maxOrder le_rfl

section step

variable {cur rem : ℕ}

/-- The next block starts aligned to what is left behind it. -/
theorem Fits.step (h : Fits cur rem) (hrem : 0 < rem) :
    Fits (cur + 2 ^ topOrder rem) (rem - 2 ^ topOrder rem) := by
  intro j hj hle
  have hpos := Nat.two_pow_pos j
  have hpos' := Nat.two_pow_pos (topOrder rem)
  have hk := two_pow_topOrder_le hrem
  have hjk : j ≤ topOrder rem := by
    by_contra hgt
    have hlt := lt_two_pow_topOrder (n := rem) (by omega)
    have hpow : 2 ^ (topOrder rem + 1) ≤ 2 ^ j := Nat.pow_le_pow_right (by norm_num) (by omega)
    omega
  exact Nat.dvd_add (h j hj (by omega)) (pow_dvd_pow 2 hjk)

/-- The next block is a greedy choice. -/
theorem Greedy.step {free : Finset Block} (h : Greedy free rem) (i : ℕ) :
    Greedy (insert (i, topOrder rem) free) (rem - 2 ^ topOrder rem) := by
  intro b hb hlt
  rcases Finset.mem_insert.mp hb with rfl | hb
  · have := lt_two_pow_topOrder hlt
    rw [pow_succ] at this
    have hpos := Nat.two_pow_pos (topOrder rem)
    simp only
    omega
  · have := h b hb hlt
    exact lt_of_le_of_lt (Nat.sub_le _ _) this

end step

variable {r : Region} {lost : ℕ → ℕ}

/-- The layout loop from page `cur` on, in a region whose page `cur` is not at address 0. -/
theorem initLoop_spec (hlost : ∀ k, lost k ≤ 1) {fuel cur a rem : ℕ} {lists : ℕ → List ℕ}
    {S : BuddySystem cur maxOrder} {s : State} (h : Rep r lost lists S s)
    (hrem : cur + rem = r.pages) (hfuel : rem ≤ fuel) (hcur : r.start = 0 → 0 < rem → 0 < cur)
    (ha : cur < r.pages → a = r.addr cur) (hfits : Fits cur rem) (hgreedy : Greedy S.free rem) :
    ∃ (lists' : ℕ → List ℕ) (S' : BuddySystem r.pages maxOrder),
      Rep r lost lists' S' (initLoop fuel s a rem) ∧ S'.used = S.used ∧ S.free ⊆ S'.free ∧
      (initLoop fuel s a rem).pages.allocationBitmap = s.pages.allocationBitmap ∧
      ((initLoop fuel s a rem).pages.zones .unmovable).freePages
        = (s.pages.zones .unmovable).freePages ∧
      ((initLoop fuel s a rem).pages.zones .unmovable).totalPages
        = (s.pages.zones .unmovable).totalPages ∧
      ∀ x, (∀ b ∈ S'.free, OffNode x (r.addr b.1)) → (initLoop fuel s a rem).mem x = s.mem x := by
  induction fuel generalizing cur a rem lists s with
  | zero =>
      obtain rfl : cur = r.pages := by omega
      exact ⟨lists, S, h, rfl, Finset.Subset.refl _, rfl, rfl, rfl, fun _ _ => rfl⟩
  | succ fuel ih =>
      by_cases hpos : rem > 0
      · have hlt : cur < r.pages := by omega
        have hk := two_pow_topOrder_le hpos
        have hp := r.pages_lt
        obtain rfl := ha hlt
        have horder := initOrder_eq (h.addrToPageIndex_addr hlt) hfits hpos
        have h0 : r.addr cur ≠ 0 := by
          rw [ne_eq, Region.addr_eq_zero_iff]
          rintro ⟨h1, h2⟩
          exact absurd (hcur h1 hpos) (by omega)
        have hnew : ∀ b ∈ S.free, b.1 ≠ cur := by
          intro b hb heq
          have := S.lt_of_ind (Or.inl hb) (ind_self b)
          omega
        have hno : topOrder rem < maxOrder → ∀ i, (i, topOrder rem) ∉ S.free := by
          intro hlt' i hi
          have := hgreedy _ hi hlt'
          simp only at this
          omega
        have hal : 2 ^ topOrder rem ∣ cur := hfits _ (topOrder_le _) hk
        set S₁ := S.extend (topOrder rem) (topOrder_le _) hal hno with hS₁
        have hrep := h.addFree (topOrder_le _) hlt h0 hnew hlost
          (show cur + 2 ^ topOrder rem ≤ r.pages by omega) (show S₁.free = _ from rfl)
        obtain ⟨lists', S', h1, h2, h3, h4, h5, h6, h7⟩ :=
          ih (a := Word.add 64 (r.addr cur) (pagesToBytes (1 <<< topOrder rem)))
            hrep (show cur + 2 ^ topOrder rem + (rem - 2 ^ topOrder rem) = r.pages by omega)
            (by have := Nat.two_pow_pos (topOrder rem); omega)
            (fun _ _ => by have := Nat.two_pow_pos (topOrder rem); omega)
            (fun hlt' => by rw [Nat.one_shiftLeft, Rep.add_pagesToBytes hlt'])
            (hfits.step hpos) (hgreedy.step cur)
        have hunfold : initLoop (fuel + 1) s (r.addr cur) rem
            = initLoop fuel (addFree s .unmovable (topOrder rem) (r.addr cur))
              (Word.add 64 (r.addr cur) (pagesToBytes (1 <<< topOrder rem)))
              (rem - 2 ^ topOrder rem) := by
          rw [initLoop, if_pos hpos, horder]
          simp only
          rw [Nat.one_shiftLeft, Word.sub_eq hk (by omega)]
        have hsub : S.free ⊆ S'.free := (Finset.subset_insert _ _).trans h3
        rw [hunfold]
        refine ⟨lists', S', h1, h2, hsub, h4, ?_, ?_, fun x hx => ?_⟩
        · rw [h5, addFree_zone]
        · rw [h6, addFree_zone]
        · rw [h7 x hx, addFree_mem]
          refine listAdd_apply (hx (cur, topOrder rem) (h3 (Finset.mem_insert_self _ _))) fun hne => ?_
          obtain ⟨i, hi, hia⟩ := List.mem_map.mp (h.head_mem (topOrder_le _) hne)
          rw [← hia]
          exact hx (i, topOrder rem) (hsub ((h.mem_lists _ (topOrder_le _) i).mp hi))
      · obtain rfl : cur = r.pages := by omega
        have hunfold : initLoop (fuel + 1) s a rem = s := by
          unfold initLoop
          rw [if_neg hpos]
        rw [hunfold]
        exact ⟨lists, S, h, rfl, Finset.Subset.refl _, rfl, rfl, rfl, fun _ _ => rfl⟩

/-- The start state of the layout loop represents the empty configuration. -/
theorem rep_initStart (m : Mem) (r : Region) :
    Rep r (fun _ => 0) (fun _ => []) (BuddySystem.empty maxOrder)
      (initStart m r.start r.size) where
  le_pages := Nat.zero_le _
  memoryStart := rfl
  memorySize := rfl
  list k hk := by simp [initStart, emptyZone, IsDList]
  mem_lists k hk i := by simp [BuddySystem.empty]
  counts k hk := by simp [initStart, emptyZone]
  others z hz := by simp [initStart, hz]

/-- What `buddy_init` leaves behind. -/
structure Initialised (r : Region) (lost : ℕ → ℕ) (m : Mem) (s : State) (lists : ℕ → List ℕ)
    (S : BuddySystem r.pages maxOrder) : Prop where
  rep : Rep r lost lists S s
  bitmap : s.pages.allocationBitmap = fun _ => 0
  freePages : (s.pages.zones .unmovable).freePages = r.pages
  totalPages : (s.pages.zones .unmovable).totalPages = r.pages
  mem : ∀ x, (∀ b ∈ S.free ∪ S.used, OffNode x (r.addr b.1)) → s.mem x = m x

/-- `buddy_init` on a region that has no page at address 0: all pages are free. -/
theorem buddyInit_rep (m : Mem) (hstart : r.start = 0 → r.pages = 0) :
    ∃ lists S, S.used = ∅ ∧
      Initialised r (fun _ => 0) m (buddyInit m r.start r.size) lists S := by
  have hrep := rep_initStart m r
  have hfits : Fits 0 r.pages := fun j _ _ => dvd_zero _
  have hgreedy : Greedy (BuddySystem.empty maxOrder).free r.pages := by
    intro b hb
    simp [BuddySystem.empty] at hb
  obtain ⟨lists, S, h1, h2, h3, h4, h5, h6, h7⟩ := initLoop_spec (a := r.start)
    (fun _ => Nat.zero_le _) hrep (show 0 + r.pages = r.pages from Nat.zero_add _) le_rfl
    (fun h0 hpos => absurd (hstart h0) (by omega))
    (fun _ => by simp [Region.addr]) hfits hgreedy
  refine ⟨lists, S, h2, h1, h4, h5, h6, fun x hx => h7 x fun b hb => hx b ?_⟩
  exact Finset.mem_union_left _ hb

/-- `buddy_init` on a region that starts at address 0: the first block is lost. -/
theorem buddyInit_rep_zero (m : Mem) (hstart : r.start = 0) (hpages : 0 < r.pages) :
    ∃ lists S, S.used = {(0, topOrder r.pages)} ∧
      Initialised r (fun k => if k = topOrder r.pages then 1 else 0) m
        (buddyInit m r.start r.size) lists S := by
  set k := topOrder r.pages with hk
  set lost : ℕ → ℕ := fun j => if j = k then 1 else 0 with hlost
  have hle : k ≤ maxOrder := topOrder_le _
  have hpow : 2 ^ k ≤ r.pages := two_pow_topOrder_le hpages
  have hp := r.pages_lt
  have hpos := Nat.two_pow_pos k
  set s₀ := initStart m r.start r.size with hs₀
  have hrep₀ := rep_initStart m r
  have hidx : addrToPageIndex s₀.pages r.start = 0 := by
    have := hrep₀.addrToPageIndex_addr hpages
    simpa [Region.addr] using this
  have horder := initOrder_eq hidx (fun j _ _ => dvd_zero _) hpages
  -- linking the null pointer leaves every list empty
  set S₁ := (BuddySystem.empty maxOrder).extendUsed k hle (dvd_zero _) with hS₁
  have hzero : (s₀.pages.zones .unmovable).freeLists = fun _ => 0 := by
    simp [hs₀, initStart, emptyZone]
  have hheads : ((addFree s₀ .unmovable k 0).pages.zones .unmovable).freeLists = fun _ => 0 := by
    rw [addFree_zone]
    simp only [hzero]
    funext j
    by_cases hj : j = k <;> simp [hj]
  have hrep₁ : Rep r lost (fun _ => []) S₁ (addFree s₀ .unmovable k 0) := by
    refine ⟨by omega, hrep₀.memoryStart, hrep₀.memorySize, ?_, ?_, ?_, ?_⟩
    · intro j hj
      simp [hheads, IsDList]
    · intro j hj i
      simp [hS₁, BuddySystem.extendUsed, BuddySystem.empty]
    · intro j hj
      rw [addFree_zone]
      have hc : (s₀.pages.zones .unmovable).freeCounts = fun _ => 0 := by
        simp [hs₀, initStart, emptyZone]
      simp only [hc, hlost]
      by_cases hjk : j = k
      · simp [hjk, Word.add]
      · simp [hjk]
    · intro z hz
      rw [addFree_zone_of_ne s₀ hz]
      exact hrep₀.others z hz
  have hfits : Fits (0 + 2 ^ k) (r.pages - 2 ^ k) :=
    Fits.step (fun j _ _ => dvd_zero _) hpages
  have hgreedy : Greedy S₁.free (r.pages - 2 ^ k) := by
    intro b hb
    simp [hS₁, BuddySystem.extendUsed, BuddySystem.empty] at hb
  obtain ⟨lists, S, h1, h2, h3, h4, h5, h6, h7⟩ := initLoop_spec
    (a := Word.add 64 r.start (pagesToBytes (1 <<< k)))
    (fun j => by simp only [hlost]; split_ifs <;> omega) hrep₁
    (show 0 + 2 ^ k + (r.pages - 2 ^ k) = r.pages by omega)
    (show r.pages - 2 ^ k ≤ r.pages - 1 by omega) (fun _ _ => by omega)
    (fun hlt => by
      have h := Rep.add_pagesToBytes (r := r) (i := 0) (j := 2 ^ k) hlt
      rw [Nat.one_shiftLeft, ← h]
      simp [Region.addr]) hfits hgreedy
  have hunfold : buddyInit m r.start r.size
      = initLoop (r.pages - 1) (addFree s₀ .unmovable k 0)
        (Word.add 64 r.start (pagesToBytes (1 <<< k))) (r.pages - 2 ^ k) := by
    have hfuel : bytesToPages r.size = (r.pages - 1) + 1 := by
      change r.pages = _
      omega
    have hfuel' : bytesToPages r.size = r.pages := rfl
    unfold buddyInit
    simp only
    rw [hfuel, initLoop, ← hs₀, Nat.sub_add_cancel hpages, if_pos hpages, horder, ← hk]
    simp only
    rw [Nat.one_shiftLeft, Word.sub_eq hpow (by omega), hstart]
  rw [hunfold]
  have hused : S.used = {(0, k)} := by
    rw [h2]
    rfl
  refine ⟨lists, S, hused, h1, h4, ?_, ?_, fun x hx => ?_⟩
  · rw [h5, addFree_zone]
    rfl
  · rw [h6, addFree_zone]
    rfl
  · rw [h7 x fun b hb => hx b (Finset.mem_union_left _ hb), addFree_mem]
    refine listAdd_apply ?_ fun hne => absurd (by rw [hzero]) hne
    have := hx (0, k) (by rw [hused]; simp)
    simpa [Region.addr, hstart] using this

end PrometheusKernel.Buddy
