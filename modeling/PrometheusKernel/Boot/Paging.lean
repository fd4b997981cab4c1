import PrometheusKernel.Vmm.Tables

/-!
# The page tables of the boot code: model of `setup_paging` in `boot.asm`

`setup_paging` clears three tables and fills in one entry of the first for each of the two windows on the first GiB, one
of the second, and all of the third, which are pages of 2 MiB. `access` is what the processor does with them.

`access_setupPaging`: through these tables exactly the addresses with index 0 or 510 in the first table and 0 in the
second are mapped, and each of them to its offset in the first GiB.
-/

namespace PrometheusKernel.Boot

open ByteMem Vmm

/-- `PRESENT_RW_PS`. -/
def presentRwPs : ℕ := 0x83

/-- The bit of an entry that maps a large page. -/
def flagPageSize : ℕ := 0x80

/-- `.map_loop` of `setup_paging`, `n` times. -/
def mapLoop (m : Mem) (pd n : ℕ) : Mem :=
  (List.range n).foldl (fun m rbx => store 8 m (pd + 8 * rbx) ((rbx <<< 21) ||| presentRwPs)) m

/-- `setup_paging`. -/
def setupPaging (m : Mem) (pml4 pdpt pd : ℕ) : Mem :=
  let m := fill (512 * 8) m pml4 0
  let m := fill (512 * 8) m pdpt 0
  let m := fill (512 * 8) m pd 0
  let m := store 8 m pml4 (pdpt ||| 3)
  let m := store 8 m pdpt (pd ||| 3)
  let m := mapLoop m pd 512
  store 8 m (pml4 + 8 * 510) (pdpt ||| 3)

/-- The physical address of `virt` for the processor whose `cr3` is the table given; none is a page fault. A walk ends
early at an entry that maps a large page. -/
def access (m : Mem) (cr3 virt : ℕ) : Option ℕ :=
  let e := readEntry m cr3 (pml4Index virt)
  if e &&& flagPresent = 0 then none
  else
    let e := readEntry m (e &&& frameMask) (pdptIndex virt)
    if e &&& flagPresent = 0 then none
    else if e &&& flagPageSize ≠ 0 then some ((e &&& 0x000FFFFFC0000000) + virt % 2 ^ 30)
    else
      let e := readEntry m (e &&& frameMask) (pdIndex virt)
      if e &&& flagPresent = 0 then none
      else if e &&& flagPageSize ≠ 0 then some ((e &&& 0x000FFFFFFFE00000) + virt % 2 ^ 21)
      else
        let e := readEntry m (e &&& frameMask) (ptIndex virt)
        if e &&& flagPresent = 0 then none else some ((e &&& frameMask) + virt % 2 ^ 12)

section setup

variable {m : Mem} {pml4 pdpt pd : ℕ}

/-- What the loop has written after `n` rounds. -/
theorem readEntry_mapLoop (hpd : IsFrame pd) {n : ℕ} (hn : n ≤ ptEntries) {t j : ℕ} (ht : IsFrame t)
    (hj : j < ptEntries) :
    readEntry (mapLoop m pd n) t j = if t = pd ∧ j < n then (j <<< 21) ||| presentRwPs else readEntry m t j := by
  induction n with
  | zero =>
      rw [if_neg fun hc => absurd hc.2 (Nat.not_lt_zero j)]
      rfl
  | succ n ih =>
      have hstep : mapLoop m pd (n + 1) = store 8 (mapLoop m pd n) (slot pd n) ((n <<< 21) ||| presentRwPs) := by
        unfold mapLoop
        rw [List.range_succ, List.foldl_append]
        rfl
      have hlt : (n <<< 21) ||| presentRwPs < 2 ^ 64 := by
        refine Nat.or_lt_two_pow ?_ (by decide)
        rw [Nat.shiftLeft_eq]
        unfold ptEntries at hn
        omega
      rw [hstep]
      by_cases hhere : t = pd ∧ j = n
      · obtain ⟨rfl, rfl⟩ := hhere
        rw [readEntry_store_same hlt, if_pos ⟨rfl, Nat.lt_succ_self j⟩]
      · have hne : t ≠ pd ∨ j ≠ n := by
          by_contra hcon
          push Not at hcon
          exact hhere hcon
        rw [readEntry_store_of_ne hpd ht hn hj hne, ih (Nat.le_of_succ_le hn)]
        refine if_congr ⟨fun h => ⟨h.1, Nat.lt_succ_of_lt h.2⟩, fun h => ⟨h.1, ?_⟩⟩ rfl rfl
        exact lt_of_le_of_ne (Nat.le_of_lt_succ h.2) fun heq => hhere ⟨h.1, heq⟩

/-- A filled table has the entry 0, and the others are as they were. -/
theorem readEntry_fill {t u j : ℕ} (ht : IsFrame t) (hu : IsFrame u) (hj : j < ptEntries) :
    readEntry (fill (512 * 8) m t 0) u j = if u = t then 0 else readEntry m u j := by
  have hfill : ∀ x, fill (512 * 8) m t 0 x = if InPage t x then 0 else m x := fun x => fill_apply _ m t 0 x
  by_cases h : u = t
  · subst h
    rw [if_pos rfl]
    refine readEntry_clear hj fun x hx => ?_
    rw [hfill, if_pos hx]
  · rw [if_neg h]
    refine readEntry_congr hj fun x hx => ?_
    rw [hfill, if_neg fun hx' => h (hu.eq_of_inPage ht hx hx')]

/-- The entries of the three tables. -/
theorem readEntry_setupPaging (hpml4 : IsFrame pml4) (hpdpt : IsFrame pdpt) (hpd : IsFrame pd) (h1 : pml4 ≠ pdpt)
    (h2 : pml4 ≠ pd) (h3 : pdpt ≠ pd) {j : ℕ} (hj : j < ptEntries) :
    readEntry (setupPaging m pml4 pdpt pd) pml4 j = (if j = 0 ∨ j = 510 then pdpt ||| 3 else 0) ∧
      readEntry (setupPaging m pml4 pdpt pd) pdpt j = (if j = 0 then pd ||| 3 else 0) ∧
      readEntry (setupPaging m pml4 pdpt pd) pd j = (j <<< 21) ||| presentRwPs := by
  have hlink : ∀ {f}, IsFrame f → f ||| 3 < 2 ^ 64 := by
    intro f hf
    exact Nat.or_lt_two_pow (lt_of_lt_of_le hf.lt (by norm_num)) (by norm_num)
  -- the writes, the last first
  have hread : ∀ {t}, IsFrame t → readEntry (setupPaging m pml4 pdpt pd) t j =
      if t = pml4 ∧ j = 510 then pdpt ||| 3
      else if t = pd then (j <<< 21) ||| presentRwPs
      else if t = pdpt ∧ j = 0 then pd ||| 3
      else if t = pml4 ∧ j = 0 then pdpt ||| 3
      else if t = pd then 0 else if t = pdpt then 0 else if t = pml4 then 0 else readEntry m t j := by
    intro t ht
    have hentry : ∀ {m : Mem} {u i e : ℕ}, IsFrame u → i < ptEntries → e < 2 ^ 64 →
        readEntry (store 8 m (slot u i) e) t j = if t = u ∧ j = i then e else readEntry m t j := by
      intro m u i e hu hi he
      by_cases hc : t = u ∧ j = i
      · obtain ⟨rfl, rfl⟩ := hc
        rw [if_pos ⟨rfl, rfl⟩, readEntry_store_same he]
      · rw [if_neg hc, readEntry_store_of_ne hu ht hi hj]
        by_contra hcon
        push Not at hcon
        exact hc hcon
    have hzero : ∀ t : ℕ, slot t 0 = t := fun t => rfl
    unfold setupPaging
    dsimp only
    refine (hentry (i := 510) hpml4 (by decide) (hlink hpdpt)).trans ?_
    refine if_congr Iff.rfl rfl ((readEntry_mapLoop hpd (le_refl ptEntries) ht hj).trans ?_)
    refine if_congr (and_iff_left hj) rfl ?_
    refine ((hentry (i := 0) hpdpt (by decide) (hlink hpd)).trans (if_congr Iff.rfl rfl ?_))
    refine ((hentry (i := 0) hpml4 (by decide) (hlink hpdpt)).trans (if_congr Iff.rfl rfl ?_))
    rw [readEntry_fill hpd ht hj, readEntry_fill hpdpt ht hj, readEntry_fill hpml4 ht hj]
  refine ⟨?_, ?_, ?_⟩
  · rw [hread hpml4]
    simp only [h1, h2, true_and, false_and, if_false, if_true]
    by_cases h510 : j = 510
    · rw [if_pos h510, if_pos (Or.inr h510)]
    · rw [if_neg h510]
      exact if_congr (or_iff_left h510).symm rfl rfl
  · rw [hread hpdpt]
    simp only [h1.symm, h3, true_and, false_and, if_false, if_true]
  · rw [hread hpd]
    simp only [h2.symm, false_and, if_false, if_true]

/-- The pages of the third table. -/
theorem largePage_spec : ∀ i < ptEntries, ((i <<< 21) ||| presentRwPs) &&& flagPresent ≠ 0 ∧
    ((i <<< 21) ||| presentRwPs) &&& flagPageSize ≠ 0 ∧
    ((i <<< 21) ||| presentRwPs) &&& 0x000FFFFFFFE00000 = i * 2 ^ 21 := by
  decide +kernel

/-- Through the tables of `setup_paging` the first GiB is mapped twice, and nothing else. -/
theorem access_setupPaging (hpml4 : IsFrame pml4) (hpdpt : IsFrame pdpt) (hpd : IsFrame pd) (h1 : pml4 ≠ pdpt)
    (h2 : pml4 ≠ pd) (h3 : pdpt ≠ pd) (v : ℕ) :
    access (setupPaging m pml4 pdpt pd) pml4 v
      = if (pml4Index v = 0 ∨ pml4Index v = 510) ∧ pdptIndex v = 0 then some (v % 2 ^ 30) else none := by
  have hfirst : readEntry (setupPaging m pml4 pdpt pd) pml4 (pml4Index v)
      = if pml4Index v = 0 ∨ pml4Index v = 510 then pdpt ||| 3 else 0 :=
    (readEntry_setupPaging hpml4 hpdpt hpd h1 h2 h3 (index_lt v 39)).1
  have hsecond : readEntry (setupPaging m pml4 pdpt pd) pdpt (pdptIndex v) = if pdptIndex v = 0 then pd ||| 3 else 0 :=
    (readEntry_setupPaging hpml4 hpdpt hpd h1 h2 h3 (index_lt v 30)).2.1
  have hthird : readEntry (setupPaging m pml4 pdpt pd) pd (pdIndex v) = (pdIndex v <<< 21) ||| presentRwPs :=
    (readEntry_setupPaging hpml4 hpdpt hpd h1 h2 h3 (index_lt v 21)).2.2
  obtain ⟨hpresent, hsize, haddr⟩ := largePage_spec (pdIndex v) (index_lt v 21)
  -- an entry that links a table
  have hlink : ∀ {f}, IsFrame f → (f ||| 3) &&& flagPresent ≠ 0 ∧ (f ||| 3) &&& flagPageSize = 0 ∧
      (f ||| 3) &&& frameMask = f := by
    intro f hf
    have hor : f ||| 3 = f ||| flagPresent ||| flagWritable := by
      rw [Nat.or_assoc]
      rfl
    obtain ⟨hframe, hpres, -⟩ := tableEntry_spec hf
    rw [hor]
    refine ⟨hpres, (and_two_pow_eq_zero_iff _ 7).mpr ?_, hframe⟩
    rw [Nat.testBit_or, Nat.testBit_or, testBit_flagPresent, testBit_flagWritable]
    cases hbit : f.testBit 7 with
    | false => rfl
    | true => exact absurd (IsFrame.testBit hf hbit).1 (by norm_num)
  obtain ⟨hp1, -, hf1⟩ := hlink hpdpt
  obtain ⟨hp2, hs2, hf2⟩ := hlink hpd
  have hoffset : pdIndex v * 2 ^ 21 + v % 2 ^ 21 = v % 2 ^ 30 := by
    have hindex : pdIndex v = v / 2 ^ 21 % 512 := index_eq v 21
    omega
  unfold access
  dsimp only
  rw [hfirst]
  by_cases hc1 : pml4Index v = 0 ∨ pml4Index v = 510
  · rw [if_pos hc1, if_neg hp1, hf1, hsecond]
    by_cases hc2 : pdptIndex v = 0
    · rw [if_pos hc2, if_neg hp2, if_neg (not_not.mpr hs2), hf2, hthird, if_neg hpresent, if_pos hsize, haddr,
        hoffset, if_pos ⟨hc1, hc2⟩]
    · rw [if_neg hc2, Nat.zero_and, if_pos rfl, if_neg fun h => hc2 h.2]
  · rw [if_neg hc1, Nat.zero_and, if_pos rfl, if_neg fun h => hc1 h.1]

end setup

end PrometheusKernel.Boot
