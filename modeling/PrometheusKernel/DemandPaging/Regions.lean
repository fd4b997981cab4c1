import PrometheusKernel.DemandPaging.Model
import PrometheusKernel.Lib.Interleaving
import PrometheusKernel.PageStack

/-!
# Regions never overlap

The overlap test of `demand_paging_register_region` is complete: two ranges that pass it have no address in
common, whatever their ends are, because a range whose end wrapped past `2 ^ 64` to or below its start
contains no address (`disjoint_of_not_overlaps`). It is exact on ranges that did not wrap
(`overlaps_iff`).

`Inv s L` says that the list of slot `i` is `L i`, that slots and lists are apart and that the regions of
one list have no address in common. Every call keeps it, so it holds in every run
(`regions_disjoint`).
-/

namespace PrometheusKernel.DemandPaging

open LinkedList Interleaving

/-! ### Page arithmetic -/

/-- `align_down` rounds down to a page. -/
theorem alignDown_eq (x : ℕ) : alignDown x = x % 2 ^ 64 / 4096 * 4096 :=
  Word.and_high_mask (show 12 ≤ 64 by norm_num) x

/-- What `align_down` returns is a page. -/
theorem alignDown_mod (x : ℕ) : alignDown x % 4096 = 0 := by
  rw [alignDown_eq]
  exact Nat.mul_mod_left _ _

/-- The rounded end of a range that does not wrap. -/
theorem alignedEnd_eq {start size : ℕ} (h : start + size + 4095 < 2 ^ 64) :
    alignedEnd start size = (start + size + 4095) / 4096 * 4096 := by
  unfold alignedEnd Word.add Word.sub pageSize
  rw [alignDown_eq]
  omega

/-! ### The overlap test -/

/-- Ranges that pass the test have no address in common. -/
theorem disjoint_of_not_overlaps {r q : Region} (h : r.overlaps q.start q.stop = false) (v : ℕ) :
    ¬ (q.contains v = true ∧ r.contains v = true) := by
  simp only [Region.overlaps, Region.contains, Bool.or_eq_false_iff, Bool.and_eq_false_iff, Bool.and_eq_true,
    decide_eq_false_iff_not, decide_eq_true_eq] at h ⊢
  omega

/-- The test is exact on ranges of whole pages that are not empty. -/
theorem overlaps_iff {r : Region} {a e : ℕ} (hr : r.start < r.stop) (ha : a < e) (hstart : r.start % 4096 = 0)
    (he : e % 4096 = 0) (ha' : a % 4096 = 0) :
    r.overlaps a e = true ↔ ∃ v, (a ≤ v ∧ v < e) ∧ r.contains v = true := by
  simp only [Region.overlaps, Region.contains, Bool.or_eq_true, Bool.and_eq_true, decide_eq_true_eq]
  constructor
  · rintro ((h | h) | h)
    · exact ⟨a, by omega, by omega⟩
    · exact ⟨e - 4096, by omega, by omega⟩
    · exact ⟨r.start, by omega, by omega⟩
  · rintro ⟨v, h₁, h₂⟩
    omega

/-! ### The invariant -/

variable {A : Type} {slabAlloc : Machine A → ℕ × Machine A} {slabFree : ℕ → Machine A → Machine A}
  {allocPage : Machine A → ℕ × Machine A} {freePage : ℕ → Machine A → Machine A}
  {allocFrame : Machine A → ℕ × Machine A} {s s' : State A} {L : ℕ → List ℕ}

/-- No address is in both regions. -/
def State.Apart (s : State A) (r q : ℕ) : Prop :=
  ∀ v, ¬ ((s.regions r).contains v = true ∧ (s.regions q).contains v = true)

/-- The slots, and the list `L i` of each; a slot that is not in use has none. -/
structure Inv (s : State A) (L : ℕ → List ℕ) : Prop where
  count : s.addressSpaceCount ≤ maxAddressSpaces
  distinct : ∀ i < s.addressSpaceCount, ∀ j < s.addressSpaceCount,
    (s.addressSpaces i).pml4 = (s.addressSpaces j).pml4 → i = j
  list : ∀ i < s.addressSpaceCount, IsList s.next (L i) (s.addressSpaces i).regions
  unused : ∀ i, s.addressSpaceCount ≤ i → L i = []
  null : ∀ i < s.addressSpaceCount, (s.addressSpaces i).pml4 = 0 → L i = []
  apart : ∀ i j, i ≠ j → ∀ r ∈ L i, r ∉ L j
  lt : ∀ i, ∀ r ∈ L i, r < 2 ^ 64
  aligned : ∀ i, ∀ r ∈ L i, (s.regions r).start % 4096 = 0 ∧ (s.regions r).stop % 4096 = 0
  disjoint : ∀ i, (L i).Pairwise s.Apart

/-- The region is on the list of the page table. -/
def Registered (s : State A) (pml4 r : ℕ) : Prop :=
  ∃ i < s.addressSpaceCount, (s.addressSpaces i).pml4 = pml4 ∧
    ∃ l, IsList s.next l (s.addressSpaces i).regions ∧ r ∈ l

/-- The regions registered for a page table are those on its list. -/
theorem Inv.registered_iff (h : Inv s L) {i pml4 : ℕ} (hi : i < s.addressSpaceCount)
    (hpml4 : (s.addressSpaces i).pml4 = pml4) (r : ℕ) : Registered s pml4 r ↔ r ∈ L i := by
  constructor
  · rintro ⟨j, hj, hpml4', l, hl, hr⟩
    obtain rfl := h.distinct j hj i hi (hpml4'.trans hpml4.symm)
    rwa [(h.list j hj).unique hl]
  · exact fun hr => ⟨i, hi, hpml4, L i, h.list i hi, hr⟩

/-- The regions do not depend on the memory of the machine. -/
theorem Inv.machine (h : Inv s L) (m : Machine A) : Inv { s with machine := m } L :=
  ⟨h.count, h.distinct, h.list, h.unused, h.null, h.apart, h.lt, h.aligned, h.disjoint⟩

/-- A search of a list of regions ends. -/
theorem Inv.search (h : Inv s L) {i : ℕ} (hi : i < s.addressSpaceCount) (p : ℕ → Bool) :
    search s.next p walkBound (s.addressSpaces i).regions = some (((L i).find? p).getD 0) :=
  search_walkBound (h.list i hi) (h.lt i) p

/-! ### Slots -/

/-- The state with one more slot in use. -/
def addSpace (s : State A) (pml4 : ℕ) : State A :=
  { s with
    addressSpaces := Function.update s.addressSpaces s.addressSpaceCount ⟨pml4, 0⟩
    addressSpaceCount := s.addressSpaceCount + 1 }

/-- A new slot has no regions. -/
theorem Inv.addSpace (h : Inv s L) {pml4 : ℕ} (hroom : s.addressSpaceCount < maxAddressSpaces)
    (hnone : ∀ i < s.addressSpaceCount, (s.addressSpaces i).pml4 ≠ pml4) :
    Inv (DemandPaging.addSpace s pml4) L := by
  have hold : ∀ i < s.addressSpaceCount, (DemandPaging.addSpace s pml4).addressSpaces i = s.addressSpaces i :=
    fun i hi => Function.update_of_ne hi.ne _ _
  have hnew : (DemandPaging.addSpace s pml4).addressSpaces s.addressSpaceCount = ⟨pml4, 0⟩ :=
    Function.update_self _ _ _
  refine ⟨hroom, fun i hi j hj heq => ?_, fun i hi => ?_, fun i hi => h.unused i (Nat.le_of_succ_le hi),
    fun i hi h0 => ?_, h.apart, h.lt, h.aligned, h.disjoint⟩
  · rcases Nat.lt_succ_iff_lt_or_eq.mp hi with hi' | rfl <;>
      rcases Nat.lt_succ_iff_lt_or_eq.mp hj with hj' | rfl
    · rw [hold i hi', hold j hj'] at heq
      exact h.distinct i hi' j hj' heq
    · rw [hold i hi', hnew] at heq
      exact absurd heq (hnone i hi')
    · rw [hnew, hold j hj'] at heq
      exact absurd heq.symm (hnone j hj')
    · rfl
  · rcases Nat.lt_succ_iff_lt_or_eq.mp hi with hi' | rfl
    · rw [hold i hi']
      exact h.list i hi'
    · rw [hnew, h.unused _ le_rfl]
      rfl
  · rcases Nat.lt_succ_iff_lt_or_eq.mp hi with hi' | rfl
    · rw [hold i hi'] at h0
      exact h.null i hi' h0
    · exact h.unused _ le_rfl

/-- The page table has a slot, or there is room for one. -/
def HasSlot (s : State A) (pml4 : ℕ) : Prop :=
  (∃ i < s.addressSpaceCount, (s.addressSpaces i).pml4 = pml4) ∨ s.addressSpaceCount < maxAddressSpaces

/-- `demand_paging_get_address_space` returns the slot of the page table, or there is neither one nor room. -/
theorem Inv.getAddressSpace (h : Inv s L) (pml4 : ℕ) :
    (∃ i s', demandPagingGetAddressSpace s pml4 = (some i, s') ∧ Inv s' L ∧ i < s'.addressSpaceCount ∧
      (s'.addressSpaces i).pml4 = pml4 ∧ s'.machine = s.machine ∧ s'.regions = s.regions ∧
      HasSlot s pml4 ∧ ∀ r, Registered s pml4 r ↔ r ∈ L i) ∨
    (demandPagingGetAddressSpace s pml4 = (none, s) ∧ ¬ HasSlot s pml4 ∧ ∀ r, ¬ Registered s pml4 r) := by
  unfold demandPagingGetAddressSpace
  cases hfind : (List.range s.addressSpaceCount).find? fun i => decide ((s.addressSpaces i).pml4 = pml4) with
  | some i =>
      have hi : i < s.addressSpaceCount := List.mem_range.mp (List.mem_of_find?_eq_some hfind)
      have hpml4 : (s.addressSpaces i).pml4 = pml4 := by simpa using List.find?_some hfind
      exact Or.inl ⟨i, s, rfl, h, hi, hpml4, rfl, rfl, Or.inl ⟨i, hi, hpml4⟩, h.registered_iff hi hpml4⟩
  | none =>
      have hnone : ∀ i < s.addressSpaceCount, (s.addressSpaces i).pml4 ≠ pml4 := by
        intro i hi
        simpa using List.find?_eq_none.mp hfind i (List.mem_range.mpr hi)
      have hreg : ∀ r, ¬ Registered s pml4 r := by
        rintro r ⟨i, hi, hpml4, -⟩
        exact hnone i hi hpml4
      dsimp only
      split_ifs with hroom
      · refine Or.inl ⟨_, DemandPaging.addSpace s pml4, rfl, h.addSpace hroom hnone, Nat.lt_succ_self _, ?_, rfl, rfl,
          Or.inr hroom, fun r => ?_⟩
        · show (Function.update s.addressSpaces s.addressSpaceCount ⟨pml4, 0⟩ s.addressSpaceCount).pml4 = pml4
          rw [Function.update_self]
        · rw [h.unused _ le_rfl]
          exact ⟨fun hr => absurd hr (hreg r), fun hr => absurd hr List.not_mem_nil⟩
      · refine Or.inr ⟨rfl, ?_, hreg⟩
        rintro (⟨i, hi, hpml4⟩ | hroom')
        · exact hnone i hi hpml4
        · exact hroom hroom'

/-- A region is on the list of a slot in use. -/
theorem Inv.registered_iff_mem (h : Inv s L) {p q : ℕ} :
    Registered s p q ↔ ∃ i < s.addressSpaceCount, (s.addressSpaces i).pml4 = p ∧ q ∈ L i := by
  constructor
  · intro hreg
    obtain ⟨i, hi, hpml4, -⟩ := id hreg
    exact ⟨i, hi, hpml4, (h.registered_iff hi hpml4 q).mp hreg⟩
  · rintro ⟨i, hi, hpml4, hq⟩
    exact (h.registered_iff hi hpml4 q).mpr hq

/-- The slot is there, or it is taken, or there is no room for it. -/
theorem getAddressSpace_cases (s : State A) (pml4 : ℕ) :
    (∃ i < s.addressSpaceCount, (s.addressSpaces i).pml4 = pml4 ∧
      demandPagingGetAddressSpace s pml4 = (some i, s)) ∨
    (∀ i < s.addressSpaceCount, (s.addressSpaces i).pml4 ≠ pml4) ∧
      (s.addressSpaceCount < maxAddressSpaces ∧
        demandPagingGetAddressSpace s pml4 = (some s.addressSpaceCount, addSpace s pml4) ∨
      ¬ s.addressSpaceCount < maxAddressSpaces ∧ demandPagingGetAddressSpace s pml4 = (none, s)) := by
  unfold demandPagingGetAddressSpace
  cases hfind : (List.range s.addressSpaceCount).find? fun i => decide ((s.addressSpaces i).pml4 = pml4) with
  | some i =>
      exact Or.inl ⟨i, List.mem_range.mp (List.mem_of_find?_eq_some hfind), by simpa using List.find?_some hfind, rfl⟩
  | none =>
      refine Or.inr ⟨fun i hi => by simpa using List.find?_eq_none.mp hfind i (List.mem_range.mpr hi), ?_⟩
      by_cases hroom : s.addressSpaceCount < maxAddressSpaces
      · exact Or.inl ⟨hroom, by dsimp only; rw [if_pos hroom]; rfl⟩
      · exact Or.inr ⟨hroom, by dsimp only; rw [if_neg hroom]⟩

/-- A look-up of the slot registers nothing. -/
theorem Inv.registered_get (h : Inv s L) (pml4 : ℕ) (p q : ℕ) :
    Registered (demandPagingGetAddressSpace s pml4).2 p q ↔ Registered s p q := by
  rcases getAddressSpace_cases s pml4 with ⟨i, -, -, hget⟩ | ⟨hnone, ⟨hroom, hget⟩ | ⟨-, hget⟩⟩
  · rw [hget]
  · rw [hget]
    have hinv := h.addSpace hroom hnone
    rw [hinv.registered_iff_mem, h.registered_iff_mem]
    have hold : ∀ i < s.addressSpaceCount, (DemandPaging.addSpace s pml4).addressSpaces i = s.addressSpaces i :=
      fun i hi => Function.update_of_ne hi.ne _ _
    constructor
    · rintro ⟨i, hi, hpml4, hq⟩
      have hlt : i < s.addressSpaceCount := by
        by_contra hge
        rw [h.unused i (not_lt.mp hge)] at hq
        exact List.not_mem_nil hq
      rw [hold i hlt] at hpml4
      exact ⟨i, hlt, hpml4, hq⟩
    · rintro ⟨i, hi, hpml4, hq⟩
      exact ⟨i, Nat.lt_succ_of_lt hi, by rw [hold i hi]; exact hpml4, hq⟩
  · rw [hget]

/-! ### The calls -/

/-- `demand_paging_find_region` returns the region that contains the address, or null. -/
theorem Inv.findRegion (h : Inv s L) (pml4 virtAddr : ℕ) :
    ∃ r s', demandPagingFindRegion s pml4 virtAddr = some (r, s') ∧ Inv s' L ∧ s'.machine = s.machine ∧
      s'.regions = s.regions ∧
      (r = 0 ∧ (∀ q, Registered s pml4 q → (s.regions q).contains virtAddr = false) ∨
        r ≠ 0 ∧ Registered s pml4 r ∧ (s.regions r).contains virtAddr = true) := by
  unfold demandPagingFindRegion
  rcases h.getAddressSpace pml4 with
    ⟨i, s', hget, hinv, hi, -, hmachine, hregions, -, hreg⟩ | ⟨hget, -, hreg⟩
  · rw [hget]
    dsimp only
    rw [hinv.search hi]
    refine ⟨_, s', rfl, hinv, hmachine, hregions, ?_⟩
    rw [hregions]
    cases hfind : (L i).find? fun r => (s.regions r).contains virtAddr with
    | none =>
        refine Or.inl ⟨rfl, fun q hq => ?_⟩
        simpa using List.find?_eq_none.mp hfind q ((hreg q).mp hq)
    | some r =>
        have hr := List.mem_of_find?_eq_some hfind
        refine Or.inr ⟨(hinv.list i hi).ne_zero hr, (hreg r).mpr hr, ?_⟩
        exact List.find?_some (p := fun r => (s.regions r).contains virtAddr) hfind
  · rw [hget]
    exact ⟨0, s, rfl, h, rfl, rfl, Or.inl ⟨rfl, fun q hq => absurd hq (hreg q)⟩⟩

/-- The handler changes only the machine once it has found its region. -/
theorem lockedFault_snd (pml4 alignedAddr region : ℕ) :
    ∃ m, (lockedFault allocPage allocFrame s pml4 alignedAddr region).2 = { s with machine := m } := by
  unfold lockedFault
  dsimp only
  split_ifs
  · exact ⟨s.machine, rfl⟩
  · exact ⟨_, rfl⟩
  · exact ⟨_, rfl⟩
  · exact ⟨_, rfl⟩

/-- `demand_paging_handle_fault` leaves the regions alone. -/
theorem Inv.handleFault (h : Inv s L) (pml4 virtAddr : ℕ) :
    ∃ i s', demandPagingHandleFault allocPage allocFrame s pml4 virtAddr = some (i, s') ∧ Inv s' L ∧
      s'.regions = s.regions := by
  obtain ⟨r, s₁, hfind, hinv, -, hregions, -⟩ := h.findRegion pml4 (alignDown virtAddr)
  unfold demandPagingHandleFault
  simp only [hfind, Option.bind_eq_bind, Option.bind_some]
  split_ifs
  · exact ⟨-1, s₁, rfl, hinv, hregions⟩
  · exact ⟨-1, s₁, rfl, hinv, hregions⟩
  · exact ⟨0, s₁, rfl, hinv, hregions⟩
  · obtain ⟨m, hm⟩ := @lockedFault_snd A allocPage allocFrame s₁ pml4 (alignDown virtAddr) r
    refine ⟨(lockedFault allocPage allocFrame s₁ pml4 (alignDown virtAddr) r).1,
      (lockedFault allocPage allocFrame s₁ pml4 (alignDown virtAddr) r).2, rfl, ?_⟩
    rw [hm]
    exact ⟨hinv.machine m, hregions⟩

/-! ### Linking and unlinking -/

section Link

variable {i r a e flags : ℕ}

/-- The other regions stay as they are. -/
theorem linkRegion_of_ne {q : ℕ} (hq : q ≠ r) : (linkRegion s i r a e flags).regions q = s.regions q :=
  Function.update_of_ne hq _ _

/-- The new region, in front of the others. -/
theorem linkRegion_self : (linkRegion s i r a e flags).regions r = ⟨a, e, flags, (s.addressSpaces i).regions⟩ :=
  Function.update_self _ _ _

/-- The page tables of the slots stay. -/
theorem linkRegion_pml4 (j : ℕ) :
    ((linkRegion s i r a e flags).addressSpaces j).pml4 = (s.addressSpaces j).pml4 := by
  by_cases hj : j = i
  · subst hj
    simp [linkRegion]
  · simp [linkRegion, Function.update_of_ne hj]

/-- A region that passed the test becomes the first of its list. -/
theorem Inv.link (h : Inv s L) (hi : i < s.addressSpaceCount) (hi0 : (s.addressSpaces i).pml4 ≠ 0) (hr : r ≠ 0)
    (hlt : r < 2 ^ 64) (hnew : ∀ j, r ∉ L j) (ha : a % 4096 = 0) (he : e % 4096 = 0)
    (hpass : ∀ q ∈ L i, (s.regions q).overlaps a e = false) :
    Inv (linkRegion s i r a e flags) (Function.update L i (r :: L i)) := by
  have hold : ∀ {j q}, q ∈ L j → (linkRegion s i r a e flags).regions q = s.regions q := by
    intro j q hq
    exact linkRegion_of_ne fun heq => hnew j (heq ▸ hq)
  have hlist : ∀ j < s.addressSpaceCount,
      IsList (linkRegion s i r a e flags).next (L j) (s.addressSpaces j).regions := by
    intro j hj
    exact (h.list j hj).congr fun q hq => congrArg Region.next (hold hq)
  have hapart : ∀ j, (L j).Pairwise (linkRegion s i r a e flags).Apart := by
    intro j
    refine (h.disjoint j).imp_of_mem fun hq hq' hqq v => ?_
    rw [hold hq, hold hq']
    exact hqq v
  have hmem : ∀ {j q}, q ∈ Function.update L i (r :: L i) j → q = r ∧ j = i ∨ q ∈ L j := by
    intro j q hq
    by_cases hj : j = i
    · subst hj
      rw [Function.update_self] at hq
      exact (List.mem_cons.mp hq).imp_left fun h => ⟨h, rfl⟩
    · rw [Function.update_of_ne hj] at hq
      exact Or.inr hq
  constructor
  case count => exact h.count
  case distinct =>
    intro j hj k hk heq
    rw [linkRegion_pml4, linkRegion_pml4] at heq
    exact h.distinct j hj k hk heq
  case list =>
    intro j hj
    by_cases hji : j = i
    · subst hji
      have hhead : ((linkRegion s j r a e flags).addressSpaces j).regions = r := by simp [linkRegion]
      have hnext : (linkRegion s j r a e flags).next r = (s.addressSpaces j).regions := by
        simp [State.next, linkRegion_self]
      rw [Function.update_self, hhead]
      refine ⟨rfl, hr, ?_⟩
      rw [hnext]
      exact hlist j hj
    · have hhead : (linkRegion s i r a e flags).addressSpaces j = s.addressSpaces j :=
        Function.update_of_ne hji _ _
      rw [Function.update_of_ne hji, hhead]
      exact hlist j hj
  case unused =>
    intro j hj
    have hji : j ≠ i := by
      rintro rfl
      exact absurd hi (not_lt.mpr hj)
    rw [Function.update_of_ne hji]
    exact h.unused j hj
  case null =>
    intro j hj h0
    rw [linkRegion_pml4] at h0
    have hji : j ≠ i := by
      rintro rfl
      exact hi0 h0
    rw [Function.update_of_ne hji]
    exact h.null j hj h0
  case apart =>
    intro j k hjk q hq hq'
    rcases hmem hq with ⟨rfl, rfl⟩ | hq₁ <;> rcases hmem hq' with ⟨hqr, hk⟩ | hq₂
    · exact hjk hk.symm
    · exact hnew k hq₂
    · exact hnew j (hqr ▸ hq₁)
    · exact h.apart j k hjk q hq₁ hq₂
  case lt =>
    intro j q hq
    rcases hmem hq with ⟨rfl, -⟩ | hq'
    · exact hlt
    · exact h.lt j q hq'
  case aligned =>
    intro j q hq
    rcases hmem hq with ⟨rfl, -⟩ | hq'
    · rw [linkRegion_self]
      exact ⟨ha, he⟩
    · rw [hold hq']
      exact h.aligned j q hq'
  case disjoint =>
    intro j
    by_cases hji : j = i
    · subst hji
      rw [Function.update_self]
      refine List.pairwise_cons.mpr ⟨fun q hq v => ?_, hapart j⟩
      rw [linkRegion_self, hold hq]
      exact disjoint_of_not_overlaps (hpass q hq) v
    · rw [Function.update_of_ne hji]
      exact hapart j

end Link

section Unlink

variable {i prev c : ℕ}

/-- The page tables of the slots stay. -/
theorem unlinkRegion_pml4 (j : ℕ) :
    ((unlinkRegion s i prev c).addressSpaces j).pml4 = (s.addressSpaces j).pml4 := by
  unfold unlinkRegion
  split_ifs
  · rfl
  · by_cases hj : j = i
    · subst hj
      simp
    · simp [Function.update_of_ne hj]

/-- Unlinking changes no region but for its successor. -/
theorem unlinkRegion_range (q : ℕ) :
    ((unlinkRegion s i prev c).regions q).start = (s.regions q).start ∧
      ((unlinkRegion s i prev c).regions q).stop = (s.regions q).stop := by
  unfold unlinkRegion
  split_ifs
  · by_cases hq : q = prev
    · subst hq
      simp
    · simp [Function.update_of_ne hq]
  · exact ⟨rfl, rfl⟩

/-- The flags of the regions stay. -/
theorem unlinkRegion_flags (q : ℕ) : ((unlinkRegion s i prev c).regions q).flags = (s.regions q).flags := by
  unfold unlinkRegion
  split_ifs
  · by_cases hq : q = prev
    · subst hq
      simp
    · simp [Function.update_of_ne hq]
  · rfl

/-- The ranges of the regions stay. -/
theorem unlinkRegion_contains (q v : ℕ) :
    ((unlinkRegion s i prev c).regions q).contains v = (s.regions q).contains v := by
  obtain ⟨hstart, hstop⟩ := @unlinkRegion_range A s i prev c q
  unfold Region.contains
  rw [hstart, hstop]

/-- The links around the region that is taken out. -/
theorem unlinkRegion_next {l₁ : List ℕ} (q : ℕ) (hq : q ≠ 0) :
    (unlinkRegion s i (l₁.getLastD 0) c).next q = if q = l₁.getLastD 0 then s.next c else s.next q := by
  unfold unlinkRegion
  split_ifs with hprev hql hql
  · simp [State.next, hql]
  · simp [State.next, Function.update_of_ne hql]
  · exact absurd (hql.trans (not_ne_iff.mp hprev)) hq
  · rfl

/-- A list without null has no last element exactly if it is empty. -/
theorem getLastD_eq_zero_iff {l : List ℕ} (hzero : ∀ b ∈ l, b ≠ 0) : l.getLastD 0 = 0 ↔ l = [] := by
  rcases List.eq_nil_or_concat l with rfl | ⟨l', b, rfl⟩
  · simp
  · rw [List.concat_eq_append, List.getLastD_concat]
    simpa using hzero b (by simp)

/-- The region leaves its list. -/
theorem Inv.unlink (h : Inv s L) (hi : i < s.addressSpaceCount) {l₁ l₂ : List ℕ} (hL : L i = l₁ ++ c :: l₂) :
    Inv (unlinkRegion s i (l₁.getLastD 0) c) (Function.update L i (l₁ ++ l₂)) := by
  have hcount : (unlinkRegion s i (l₁.getLastD 0) c).addressSpaceCount = s.addressSpaceCount := by
    unfold unlinkRegion
    split_ifs <;> rfl
  have hlisti := h.list i hi
  rw [hL] at hlisti
  have hzero : ∀ b ∈ l₁, b ≠ 0 := fun b hb => hlisti.ne_zero (List.mem_append_left _ hb)
  have hsub : (l₁ ++ l₂).Sublist (L i) := by
    rw [hL]
    exact (List.sublist_cons_self c l₂).append_left l₁
  have hmem : ∀ {j q}, q ∈ Function.update L i (l₁ ++ l₂) j → q ∈ L j := by
    intro j q hq
    by_cases hj : j = i
    · subst hj
      rw [Function.update_self] at hq
      exact hsub.subset hq
    · rwa [Function.update_of_ne hj] at hq
  constructor
  case count => exact hcount ▸ h.count
  case distinct =>
    intro j hj k hk heq
    rw [hcount] at hj hk
    rw [unlinkRegion_pml4, unlinkRegion_pml4] at heq
    exact h.distinct j hj k hk heq
  case list =>
    intro j hj
    rw [hcount] at hj
    by_cases hji : j = i
    · subst hji
      have hhead : ((unlinkRegion s j (l₁.getLastD 0) c).addressSpaces j).regions =
          if l₁ = [] then s.next c else (s.addressSpaces j).regions := by
        unfold unlinkRegion
        by_cases hnil : l₁ = []
        · simp [hnil]
        · rw [if_pos (mt (getLastD_eq_zero_iff hzero).mp hnil), if_neg hnil]
      rw [Function.update_self, hhead]
      refine hlisti.remove fun b hb => unlinkRegion_next b ?_
      exact (h.list j hi).ne_zero (hsub.subset hb)
    · have hspace : (unlinkRegion s i (l₁.getLastD 0) c).addressSpaces j = s.addressSpaces j := by
        unfold unlinkRegion
        split_ifs
        · rfl
        · exact Function.update_of_ne hji _ _
      rw [Function.update_of_ne hji, hspace]
      refine (h.list j hj).congr fun q hq => ?_
      have hne : q ≠ l₁.getLastD 0 := by
        rintro rfl
        -- the node before `c` is on the list of slot `i`, or it is null
        rcases List.eq_nil_or_concat l₁ with rfl | ⟨l, b, rfl⟩
        · exact (h.list j hj).ne_zero hq rfl
        · rw [List.concat_eq_append, List.getLastD_concat] at hq
          exact h.apart j i hji b hq (by simp [hL])
      rw [unlinkRegion_next q ((h.list j hj).ne_zero hq), if_neg hne]
  case unused =>
    intro j hj
    rw [hcount] at hj
    have hji : j ≠ i := by
      rintro rfl
      exact absurd hi (not_lt.mpr hj)
    rw [Function.update_of_ne hji]
    exact h.unused j hj
  case null =>
    intro j hj h0
    rw [hcount] at hj
    rw [unlinkRegion_pml4] at h0
    have hnil := h.null j hj h0
    exact List.eq_nil_iff_forall_not_mem.mpr fun q hq => by simpa [hnil] using hmem hq
  case apart => exact fun j k hjk q hq hq' => h.apart j k hjk q (hmem hq) (hmem hq')
  case lt => exact fun j q hq => h.lt j q (hmem hq)
  case aligned =>
    intro j q hq
    obtain ⟨hstart, hstop⟩ := @unlinkRegion_range A s i (l₁.getLastD 0) c q
    rw [hstart, hstop]
    exact h.aligned j q (hmem hq)
  case disjoint =>
    intro j
    have hold : (L j).Pairwise (unlinkRegion s i (l₁.getLastD 0) c).Apart := by
      refine (h.disjoint j).imp fun hqq v => ?_
      rw [unlinkRegion_contains, unlinkRegion_contains]
      exact hqq v
    by_cases hji : j = i
    · subst hji
      rw [Function.update_self]
      exact hold.sublist hsub
    · rw [Function.update_of_ne hji]
      exact hold

end Unlink

/-! ### Registering and unregistering -/

/-- The same regions, on the same lists. -/
structure Keeps (s s' : State A) : Prop where
  registered : ∀ p q, Registered s' p q ↔ Registered s p q
  regions : s'.regions = s.regions

/-- The region `r` was taken out of its list. -/
structure Unregisters (s s' : State A) (pml4 start r : ℕ) : Prop where
  found : Registered s pml4 r
  start_eq : (s.regions r).start = alignDown start
  registered : ∀ p q, Registered s' p q ↔ Registered s p q ∧ q ≠ r
  range : ∀ q, (s'.regions q).start = (s.regions q).start ∧ (s'.regions q).stop = (s.regions q).stop
  flags : ∀ q, (s'.regions q).flags = (s.regions q).flags

/-- A region that was taken out of its list is on no other. -/
theorem Inv.registered_unlink (h : Inv s L) {i r : ℕ} {l₁ l₂ : List ℕ} (hL : L i = l₁ ++ r :: l₂)
    (hi : i < s.addressSpaceCount) (p q : ℕ) :
    Registered (unlinkRegion s i (l₁.getLastD 0) r) p q ↔ Registered s p q ∧ q ≠ r := by
  have hcount : (unlinkRegion s i (l₁.getLastD 0) r).addressSpaceCount = s.addressSpaceCount := by
    unfold unlinkRegion
    split_ifs <;> rfl
  have hnodup := (h.list i hi).nodup
  rw [hL] at hnodup
  have hmid : ∀ q, q ∈ l₁ ++ l₂ ↔ q ∈ l₁ ++ r :: l₂ ∧ q ≠ r := by
    intro q
    have hnot : r ∉ l₁ ++ l₂ := (List.nodup_cons.mp (List.perm_middle.nodup_iff.mp hnodup)).1
    rw [List.perm_middle.mem_iff, List.mem_cons]
    exact ⟨fun hq => ⟨Or.inr hq, fun heq => hnot (heq ▸ hq)⟩, fun hq => hq.1.resolve_left hq.2⟩
  rw [(h.unlink hi hL).registered_iff_mem, h.registered_iff_mem, hcount]
  constructor
  · rintro ⟨j, hj, hpml4, hq⟩
    rw [unlinkRegion_pml4] at hpml4
    by_cases hji : j = i
    · subst hji
      rw [Function.update_self, hmid, ← hL] at hq
      exact ⟨⟨j, hj, hpml4, hq.1⟩, hq.2⟩
    · rw [Function.update_of_ne hji] at hq
      refine ⟨⟨j, hj, hpml4, hq⟩, fun heq => h.apart j i hji q hq ?_⟩
      rw [heq, hL]
      exact List.mem_append_right _ List.mem_cons_self
  · rintro ⟨⟨j, hj, hpml4, hq⟩, hne⟩
    refine ⟨j, hj, by rw [unlinkRegion_pml4]; exact hpml4, ?_⟩
    by_cases hji : j = i
    · subst hji
      rw [Function.update_self, hmid, ← hL]
      exact ⟨hq, hne⟩
    · rw [Function.update_of_ne hji]
      exact hq

/-- The search of `demand_paging_unregister_region` in one list. -/
theorem Inv.searchStart (h : Inv s L) {i : ℕ} (hi : i < s.addressSpaceCount) (a : ℕ) :
    (∃ l₁ c l₂, L i = l₁ ++ c :: l₂ ∧ (s.regions c).start = a ∧ c ≠ 0 ∧
      searchPrev s.next (fun r => (s.regions r).start = a) walkBound 0 (s.addressSpaces i).regions
        = some (l₁.getLastD 0, c)) ∨
    (∀ c ∈ L i, (s.regions c).start ≠ a) ∧ ∃ p,
      searchPrev s.next (fun r => (s.regions r).start = a) walkBound 0 (s.addressSpaces i).regions = some (p, 0) := by
  have hlen : (L i).length < walkBound := (h.list i hi).length_lt (h.lt i) (Nat.two_pow_pos 64)
  by_cases hfound : ∃ c ∈ L i, (s.regions c).start = a
  · left
    obtain ⟨c, hc, hstart⟩ := hfound
    have hsome : ((L i).find? fun r => decide ((s.regions r).start = a)).isSome := by
      rw [List.find?_isSome]
      exact ⟨c, hc, by simpa using hstart⟩
    obtain ⟨c', hc'⟩ := Option.isSome_iff_exists.mp hsome
    obtain ⟨hp, l₁, l₂, hL, hl₁⟩ := List.find?_eq_some_iff_append.mp hc'
    have hlist := h.list i hi
    rw [hL] at hlist hlen
    exact ⟨l₁, c', l₂, hL, by simpa using hp, hlist.ne_zero (by simp),
      searchPrev_found hlist (fun b hb => by simpa using hl₁ b hb) hp hlen⟩
  · right
    push Not at hfound
    exact ⟨hfound, _, searchPrev_none (h.list i hi) (fun b hb => by simpa using hfound b hb) hlen⟩

/-- `demand_paging_unregister_region` takes at most one region out of one list. -/
theorem Inv.unregister (h : Inv s L) (pml4 start : ℕ) :
    ∃ s' L', demandPagingUnregisterRegion slabFree freePage s pml4 start = some s' ∧ Inv s' L' ∧
      (∀ j, ∀ q ∈ L' j, q ∈ L j ∧ (s'.regions q).start = (s.regions q).start ∧
        (s'.regions q).stop = (s.regions q).stop) ∧
      (Keeps s s' ∧ s'.machine = s.machine ∧ (∀ q, Registered s pml4 q → (s.regions q).start ≠ alignDown start) ∨
        ∃ r, Unregisters s s' pml4 start r ∧ s'.machine =
          slabFree r ((pagesOf (s.regions r)).foldl (unmapPage freePage pml4) s.machine)) := by
  unfold demandPagingUnregisterRegion
  have hkeep := h.registered_get pml4
  rcases h.getAddressSpace pml4 with ⟨i, s₁, hget, hinv, hi, -, hmachine, hregions, -, hreg⟩ | ⟨hget, -, hreg⟩
  · rw [hget] at hkeep ⊢
    dsimp only
    rcases hinv.searchStart hi (alignDown start) with ⟨l₁, c, l₂, hL, hc, hc0, hsearch⟩ | ⟨hfound, p, hsearch⟩
    · rw [hsearch]
      simp only [Option.bind_eq_bind, Option.bind_some, if_pos hc0]
      have hrange : ∀ q, ((unlinkRegion s₁ i (l₁.getLastD 0) c).regions q).start = (s.regions q).start ∧
          ((unlinkRegion s₁ i (l₁.getLastD 0) c).regions q).stop = (s.regions q).stop := by
        intro q
        rw [← hregions]
        exact unlinkRegion_range q
      refine ⟨_, _, rfl, (hinv.unlink hi hL).machine _, fun j q hq => ⟨?_, hrange q⟩, Or.inr ⟨c, ?_, ?_⟩⟩
      · by_cases hj : j = i
        · subst hj
          rw [Function.update_self] at hq
          rw [hL]
          exact ((List.sublist_cons_self c l₂).append_left l₁).subset hq
        · rwa [Function.update_of_ne hj] at hq
      · refine ⟨(hreg c).mpr (by rw [hL]; exact List.mem_append_right _ List.mem_cons_self), ?_, fun p q => ?_, hrange,
          fun q => ?_⟩
        · rw [← hregions]
          exact hc
        · rw [← hkeep p q]
          exact hinv.registered_unlink hL hi p q
        · rw [← hregions]
          exact unlinkRegion_flags q
      · rw [← hregions, ← hmachine]
        unfold unlinkRegion
        split_ifs <;> rfl
    · rw [hsearch]
      refine ⟨s₁, L, rfl, hinv, fun j q hq => ⟨hq, ?_, ?_⟩, Or.inl ⟨⟨hkeep, hregions⟩, hmachine, fun q hq => ?_⟩⟩
      · rw [hregions]
      · rw [hregions]
      · rw [← hregions]
        exact hfound q ((hreg q).mp hq)
  · rw [hget]
    exact ⟨s, L, rfl, h, fun j q hq => ⟨hq, rfl, rfl⟩,
      Or.inl ⟨⟨fun _ _ => Iff.rfl, rfl⟩, rfl, fun q hq => absurd hq (hreg q)⟩⟩

/-- The structure that a registration gets, if it asks for one, is on no list. -/
def FreshRegion (slabAlloc : Machine A → ℕ × Machine A) (s : State A) (pml4 start size : ℕ) : Prop :=
  pml4 ≠ 0 → size ≠ 0 → ∀ i s', demandPagingGetAddressSpace s pml4 = (some i, s') →
    overlapping s' i (alignDown start) (alignedEnd start size) = some 0 →
    (slabAlloc s'.machine).1 < 2 ^ 64 ∧ ∀ p r, Registered s' p r → r ≠ (slabAlloc s'.machine).1

/-- The overlap test refuses the range. -/
def RefusedForOverlap (s : State A) (pml4 start size : ℕ) : Prop :=
  pml4 ≠ 0 ∧ size ≠ 0 ∧ ∃ i s' r, demandPagingGetAddressSpace s pml4 = (some i, s') ∧
    overlapping s' i (alignDown start) (alignedEnd start size) = some r ∧ r ≠ 0

/-- The search for an overlap finds one if there is one. -/
theorem Inv.overlapping (h : Inv s L) {i : ℕ} (hi : i < s.addressSpaceCount) (a e : ℕ) :
    ∃ r, DemandPaging.overlapping s i a e = some r ∧
      (r = 0 ∧ (∀ q ∈ L i, (s.regions q).overlaps a e = false) ∨
        r ≠ 0 ∧ r ∈ L i ∧ (s.regions r).overlaps a e = true) := by
  unfold DemandPaging.overlapping
  rw [h.search hi]
  refine ⟨_, rfl, ?_⟩
  cases hfind : (L i).find? fun r => (s.regions r).overlaps a e with
  | none =>
      refine Or.inl ⟨rfl, fun q hq => ?_⟩
      simpa using List.find?_eq_none.mp hfind q hq
  | some r =>
      have hr := List.mem_of_find?_eq_some hfind
      exact Or.inr ⟨(h.list i hi).ne_zero hr, hr, by simpa using List.find?_some hfind⟩

/-- A registration that succeeded. -/
structure Registers (s s' : State A) (pml4 start size flags r : ℕ) : Prop where
  pml4_ne : pml4 ≠ 0
  size_ne : size ≠ 0
  ne_zero : r ≠ 0
  fresh : ∀ p, ¬ Registered s p r
  registered : ∀ p q, Registered s' p q ↔ Registered s p q ∨ p = pml4 ∧ q = r
  regions : ∀ q, q ≠ r → s'.regions q = s.regions q
  start_eq : (s'.regions r).start = alignDown start
  stop_eq : (s'.regions r).stop = alignedEnd start size
  flags_eq : (s'.regions r).flags = flags
  passed : ∀ q, Registered s pml4 q → (s.regions q).overlaps (alignDown start) (alignedEnd start size) = false

/-- The linked region is registered, and with it what was. -/
theorem Inv.registered_link (h : Inv s L) {i r a e flags pml4 : ℕ}
    (h' : Inv (linkRegion s i r a e flags) (Function.update L i (r :: L i))) (hi : i < s.addressSpaceCount)
    (hslot : (s.addressSpaces i).pml4 = pml4) (p q : ℕ) :
    Registered (linkRegion s i r a e flags) p q ↔ Registered s p q ∨ p = pml4 ∧ q = r := by
  rw [h'.registered_iff_mem, h.registered_iff_mem]
  constructor
  · rintro ⟨j, hj, hpml4, hq⟩
    rw [linkRegion_pml4] at hpml4
    by_cases hji : j = i
    · subst hji
      rw [Function.update_self] at hq
      rcases List.mem_cons.mp hq with heq | hq
      · exact Or.inr ⟨hpml4.symm.trans hslot, heq⟩
      · exact Or.inl ⟨j, hj, hpml4, hq⟩
    · rw [Function.update_of_ne hji] at hq
      exact Or.inl ⟨j, hj, hpml4, hq⟩
  · rintro (⟨j, hj, hpml4, hq⟩ | ⟨rfl, rfl⟩)
    · refine ⟨j, hj, by rw [linkRegion_pml4]; exact hpml4, ?_⟩
      by_cases hji : j = i
      · subst hji
        rw [Function.update_self]
        exact List.mem_cons_of_mem _ hq
      · rw [Function.update_of_ne hji]
        exact hq
    · refine ⟨i, hi, by rw [linkRegion_pml4]; exact hslot, ?_⟩
      rw [Function.update_self]
      exact List.mem_cons_self

/-- What a registration does, by its three ways out. -/
theorem Inv.register (h : Inv s L) {pml4 start size : ℕ} (flags : ℕ)
    (hfresh : FreshRegion slabAlloc s pml4 start size) :
    ∃ code s' L', demandPagingRegisterRegion slabAlloc s pml4 start size flags = some (code, s') ∧ Inv s' L' ∧
      (code = 0 ∧ size ≠ 0 ∨ code = -1) ∧
      (∀ j, ∀ q ∈ L' j, q ∈ L j ∧ s'.regions q = s.regions q ∨
        code = 0 ∧ (s'.regions q).start = alignDown start ∧ (s'.regions q).stop = alignedEnd start size) ∧
      (code = -1 ∧ Keeps s s' ∨ code = 0 ∧ Registers s s' pml4 start size flags (slabAlloc s.machine).1) := by
  unfold demandPagingRegisterRegion
  by_cases hbad : pml4 = 0 ∨ size = 0
  · rw [if_pos hbad]
    exact ⟨-1, s, L, rfl, h, Or.inr rfl, fun j q hq => Or.inl ⟨hq, rfl⟩, Or.inl ⟨rfl, fun _ _ => Iff.rfl, rfl⟩⟩
  · rw [if_neg hbad]
    obtain ⟨hpml4, hsize⟩ := not_or.mp hbad
    have hkeep := h.registered_get pml4
    rcases h.getAddressSpace pml4 with ⟨i, s₁, hget, hinv, hi, hslot, hmachine, hregions, -, hreg⟩ | ⟨hget, -, -⟩
    · rw [hget] at hkeep ⊢
      dsimp only
      obtain ⟨r, hover, hr⟩ := hinv.overlapping hi (alignDown start) (alignedEnd start size)
      rw [hover]
      simp only [Option.bind_eq_bind, Option.bind_some]
      rcases hr with ⟨rfl, hpass⟩ | ⟨hr0, -, -⟩
      · rw [if_neg (by simp)]
        obtain ⟨hlt, hnew⟩ := hfresh hpml4 hsize i s₁ hget hover
        by_cases hnull : (slabAlloc s₁.machine).1 = 0
        · rw [if_pos hnull]
          refine ⟨-1, _, L, rfl, hinv.machine _, Or.inr rfl, fun j q hq => Or.inl ⟨hq, ?_⟩,
            Or.inl ⟨rfl, hkeep, hregions⟩⟩
          rw [← hregions]
        · rw [if_neg hnull]
          have hnot : ∀ j, (slabAlloc s₁.machine).1 ∉ L j := by
            intro j hmem
            have hj : j < s₁.addressSpaceCount := by
              by_contra hj
              rw [hinv.unused j (not_lt.mp hj)] at hmem
              exact List.not_mem_nil hmem
            exact hnew _ _ ((hinv.registered_iff hj rfl _).mpr hmem) rfl
          have hlink : Inv (linkRegion { s₁ with machine := (slabAlloc s₁.machine).2 } i (slabAlloc s₁.machine).1
              (alignDown start) (alignedEnd start size) flags) _ :=
            (hinv.machine (slabAlloc s₁.machine).2).link hi (hslot.trans_ne hpml4) hnull hlt hnot (alignDown_mod _)
              (alignDown_mod _) hpass
          refine ⟨0, _, _, rfl, hlink, Or.inl ⟨rfl, hsize⟩, fun j q hq => ?_, Or.inr ⟨rfl, ?_⟩⟩
          · by_cases hq' : q = (slabAlloc s₁.machine).1
            · subst hq'
              rw [linkRegion_self]
              exact Or.inr ⟨rfl, rfl, rfl⟩
            · rw [linkRegion_of_ne hq']
              refine Or.inl ⟨?_, by rw [hregions]⟩
              by_cases hj : j = i
              · subst hj
                rw [Function.update_self] at hq
                exact (List.mem_cons.mp hq).resolve_left hq'
              · rwa [Function.update_of_ne hj] at hq
          · rw [← hmachine]
            refine ⟨hpml4, hsize, hnull, fun p hp => hnew p _ ((hkeep p _).mpr hp) rfl, fun p q => ?_, fun q hq => ?_,
              ?_, ?_, ?_, fun q hq => ?_⟩
            · rw [← hkeep p q]
              exact (hinv.machine _).registered_link hlink hi hslot p q
            · rw [linkRegion_of_ne hq]
              exact congrFun hregions q
            · rw [linkRegion_self]
            · rw [linkRegion_self]
            · rw [linkRegion_self]
            · rw [← hregions]
              exact hpass q ((hreg q).mp hq)
      · rw [if_pos hr0]
        refine ⟨-1, s₁, L, rfl, hinv, Or.inr rfl, fun j q hq => Or.inl ⟨hq, ?_⟩, Or.inl ⟨rfl, hkeep, hregions⟩⟩
        rw [hregions]
    · rw [hget]
      exact ⟨-1, s, L, rfl, h, Or.inr rfl, fun j q hq => Or.inl ⟨hq, rfl⟩, Or.inl ⟨rfl, fun _ _ => Iff.rfl, rfl⟩⟩

/-- A registration succeeds if the overlap test does not refuse it and there are a slot and a structure. -/
theorem Inv.register_eq_zero_iff (h : Inv s L) (pml4 start size flags : ℕ) :
    (∃ s', demandPagingRegisterRegion slabAlloc s pml4 start size flags = some (0, s')) ↔
      pml4 ≠ 0 ∧ size ≠ 0 ∧ HasSlot s pml4 ∧ ¬ RefusedForOverlap s pml4 start size ∧
        (slabAlloc s.machine).1 ≠ 0 := by
  unfold demandPagingRegisterRegion
  by_cases hbad : pml4 = 0 ∨ size = 0
  · rw [if_pos hbad]
    constructor
    · rintro ⟨s', hs'⟩
      simp at hs'
    · rintro ⟨hpml4, hsize, -⟩
      exact absurd hbad (not_or.mpr ⟨hpml4, hsize⟩)
  rw [if_neg hbad]
  obtain ⟨hpml4, hsize⟩ := not_or.mp hbad
  rcases h.getAddressSpace pml4 with ⟨i, s₁, hget, hinv, hi, -, hmachine, -, hslot, -⟩ | ⟨hget, hslot, -⟩
  · obtain ⟨r, hover, -⟩ := hinv.overlapping hi (alignDown start) (alignedEnd start size)
    have hrefused : RefusedForOverlap s pml4 start size ↔ r ≠ 0 := by
      constructor
      · rintro ⟨-, -, i', s', r', hget', hover', hr'⟩
        obtain ⟨hi', rfl⟩ := Prod.mk.inj (hget.symm.trans hget')
        obtain rfl := Option.some.inj hi'
        obtain rfl := Option.some.inj (hover.symm.trans hover')
        exact hr'
      · exact fun hr => ⟨hpml4, hsize, i, s₁, r, hget, hover, hr⟩
    rw [hget]
    dsimp only
    rw [hover, hrefused, ← hmachine]
    simp only [Option.bind_eq_bind, Option.bind_some, hpml4, hsize, hslot, ne_eq, not_false_eq_true, true_and,
      not_not]
    by_cases hr : r = 0
    · by_cases hnull : (slabAlloc s₁.machine).1 = 0
      · simp [hr, hnull]
      · simp [hr, hnull]
    · simp [hr]
  · rw [hget]
    constructor
    · rintro ⟨s', hs'⟩
      simp at hs'
    · rintro ⟨-, -, hslot', -⟩
      exact absurd hslot' hslot

/-! ### Runs -/

/-- A call. -/
inductive Op
  | register (pml4 start size flags : ℕ)
  | unregister (pml4 start : ℕ)
  | findRegion (pml4 virtAddr : ℕ)
  | handleFault (pml4 virtAddr : ℕ)
deriving DecidableEq

/-- The kernel, and the ranges `(start, size)` whose registration has succeeded so far. -/
structure Run (A : Type) where
  state : State A
  accepted : List (ℕ × ℕ)

section

variable (slabAlloc : Machine A → ℕ × Machine A) (slabFree : ℕ → Machine A → Machine A)
  (allocPage : Machine A → ℕ × Machine A) (freePage : ℕ → Machine A → Machine A)
  (allocFrame : Machine A → ℕ × Machine A)

/-- One call; `none` is a call that does not return. -/
def step (c : Run A) : Op → Option (Run A)
  | .register pml4 start size flags =>
      (demandPagingRegisterRegion slabAlloc c.state pml4 start size flags).map fun res =>
        ⟨res.2, if res.1 = 0 then (start, size) :: c.accepted else c.accepted⟩
  | .unregister pml4 start =>
      (demandPagingUnregisterRegion slabFree freePage c.state pml4 start).map fun s => ⟨s, c.accepted⟩
  | .findRegion pml4 virtAddr =>
      (demandPagingFindRegion c.state pml4 virtAddr).map fun res => ⟨res.2, c.accepted⟩
  | .handleFault pml4 virtAddr =>
      (demandPagingHandleFault allocPage allocFrame c.state pml4 virtAddr).map fun res => ⟨res.2, c.accepted⟩

/-- The kernel after `demand_paging_init`. -/
def boot (s : State A) : Run A := ⟨demandPagingInit s, []⟩

/-- `slab_alloc` does not hand out a region that is on a list. -/
def Fresh (c : Run A) : Op → Prop
  | .register pml4 start size _ => FreshRegion slabAlloc c.state pml4 start size
  | _ => True

end

/-- The range, rounded up to whole pages, ends at or above `2 ^ 64`. -/
def Wraps (start size : ℕ) : Prop := 2 ^ 64 ≤ start + size + 4095

/-- A page of the range is a page of a registered region. -/
def SharesPage (s : State A) (pml4 start size : ℕ) : Prop :=
  ∃ r x y, Registered s pml4 r ∧ (start ≤ x ∧ x < start + size) ∧ (s.regions r).contains y = true ∧
    x / 4096 = y / 4096

/-- The lists, whose regions are not empty as long as no registered range wrapped. -/
def RunInv (c : Run A) : Prop :=
  ∃ L, Inv c.state L ∧ ((∀ p ∈ c.accepted, ¬ Wraps p.1 p.2) →
    ∀ j, ∀ q ∈ L j, (c.state.regions q).start < (c.state.regions q).stop)

/-- Without regions there is nothing to keep. -/
theorem runInv_boot (s : State A) : RunInv (boot s) := by
  refine ⟨fun _ => [], ?_, fun _ j q hq => absurd hq List.not_mem_nil⟩
  constructor
  case count => exact Nat.zero_le _
  case distinct => exact fun i hi => absurd hi (Nat.not_lt_zero i)
  case list => exact fun i hi => absurd hi (Nat.not_lt_zero i)
  case unused => exact fun _ _ => rfl
  case null => exact fun _ _ _ => rfl
  case apart => exact fun _ _ _ q hq => absurd hq List.not_mem_nil
  case lt => exact fun _ q hq => absurd hq List.not_mem_nil
  case aligned => exact fun _ q hq => absurd hq List.not_mem_nil
  case disjoint => exact fun _ => List.Pairwise.nil

/-- A range that does not wrap has a page. -/
theorem alignDown_lt_alignedEnd {start size : ℕ} (hsize : size ≠ 0) (h : ¬ Wraps start size) :
    alignDown start < alignedEnd start size := by
  unfold Wraps at h
  rw [alignedEnd_eq (not_le.mp h), alignDown_eq]
  omega

/-- Every call returns and keeps the lists. -/
theorem runInv_step (c : Run A) (op : Op) (h : RunInv c) (hfresh : Fresh slabAlloc c op) :
    ∃ c', step slabAlloc slabFree allocPage freePage allocFrame c op = some c' ∧ RunInv c' := by
  obtain ⟨L, hinv, hsize⟩ := h
  cases op with
  | register pml4 start size flags =>
      obtain ⟨code, s', L', hcall, hinv', hcode, hmem, -⟩ := hinv.register flags hfresh
      refine ⟨_, by rw [step, hcall]; rfl, L', hinv', fun hwraps j q hq => ?_⟩
      rcases hmem j q hq with ⟨hq', heq⟩ | ⟨h0, hstart, hstop⟩
      · show (s'.regions q).start < (s'.regions q).stop
        rw [heq]
        refine hsize (fun p hp => hwraps p ?_) j q hq'
        dsimp only
        split_ifs
        · exact List.mem_cons_of_mem _ hp
        · exact hp
      · show (s'.regions q).start < (s'.regions q).stop
        rw [hstart, hstop]
        have hsize0 : size ≠ 0 := by
          rcases hcode with ⟨-, hs⟩ | h1
          · exact hs
          · simp [h0] at h1
        exact alignDown_lt_alignedEnd hsize0 (hwraps (start, size) (by simp [h0]))
  | unregister pml4 start =>
      obtain ⟨s', L', hcall, hinv', hmem, -⟩ :=
        @Inv.unregister A slabFree freePage c.state L hinv pml4 start
      refine ⟨_, by rw [step, hcall]; rfl, L', hinv', fun hwraps j q hq => ?_⟩
      obtain ⟨hq', hstart, hstop⟩ := hmem j q hq
      show (s'.regions q).start < (s'.regions q).stop
      rw [hstart, hstop]
      exact hsize hwraps j q hq'
  | findRegion pml4 virtAddr =>
      obtain ⟨r, s', hcall, hinv', -, hregions, -⟩ := hinv.findRegion pml4 virtAddr
      refine ⟨_, by rw [step, hcall]; rfl, L, hinv', fun hwraps j q hq => ?_⟩
      show (s'.regions q).start < (s'.regions q).stop
      rw [hregions]
      exact hsize hwraps j q hq
  | handleFault pml4 virtAddr =>
      obtain ⟨i, s', hcall, hinv', hregions⟩ :=
        @Inv.handleFault A allocPage allocFrame c.state L hinv pml4 virtAddr
      refine ⟨_, by rw [step, hcall]; rfl, L, hinv', fun hwraps j q hq => ?_⟩
      show (s'.regions q).start < (s'.regions q).stop
      rw [hregions]
      exact hsize hwraps j q hq

/-- Two pages are one page, on the rounded range. -/
theorem exists_page_iff {r : Region} {start size : ℕ} (h : ¬ Wraps start size) :
    (∃ v, (alignDown start ≤ v ∧ v < alignedEnd start size) ∧ r.contains v = true) ∧ size ≠ 0 ↔
      ∃ x y, (start ≤ x ∧ x < start + size) ∧ r.contains y = true ∧ x / 4096 = y / 4096 := by
  unfold Wraps at h
  rw [alignedEnd_eq (not_le.mp h), alignDown_eq]
  constructor
  · rintro ⟨⟨v, hv, hcontains⟩, hsize⟩
    by_cases hlow : v < start
    · exact ⟨start, v, by omega, hcontains, by omega⟩
    · by_cases hhigh : v < start + size
      · exact ⟨v, v, by omega, hcontains, rfl⟩
      · exact ⟨start + size - 1, v, by omega, hcontains, by omega⟩
  · rintro ⟨x, y, hx, hcontains, hpage⟩
    exact ⟨⟨y, by omega, hcontains⟩, by omega⟩

/-- On ranges that do not wrap the test refuses exactly the ranges that share a page. -/
theorem Inv.refused_iff (h : Inv s L) (hpos : ∀ j, ∀ q ∈ L j, (s.regions q).start < (s.regions q).stop)
    {pml4 start size : ℕ} (hwraps : ¬ Wraps start size) :
    RefusedForOverlap s pml4 start size ↔ SharesPage s pml4 start size := by
  rcases h.getAddressSpace pml4 with ⟨i, s₁, hget, hinv, hi, hslot, -, hregions, -, hreg⟩ | ⟨hget, -, hreg⟩
  · obtain ⟨r, hover, hr⟩ := hinv.overlapping hi (alignDown start) (alignedEnd start size)
    rw [hregions] at hr
    have hexact : ∀ q ∈ L i, size ≠ 0 →
        ((s.regions q).overlaps (alignDown start) (alignedEnd start size) = true ↔
          ∃ v, (alignDown start ≤ v ∧ v < alignedEnd start size) ∧ (s.regions q).contains v = true) := by
      intro q hq hsize
      exact overlaps_iff (hpos i q hq) (alignDown_lt_alignedEnd hsize hwraps) (h.aligned i q hq).1
        (alignDown_mod _) (alignDown_mod _)
    constructor
    · rintro ⟨-, hsize, i', s', r', hget', hover', hr'⟩
      obtain ⟨hi', rfl⟩ := Prod.mk.inj (hget.symm.trans hget')
      obtain rfl := Option.some.inj hi'
      obtain rfl := Option.some.inj (hover.symm.trans hover')
      rcases hr with ⟨rfl, -⟩ | ⟨-, hmem, hoverlaps⟩
      · exact absurd rfl hr'
      · obtain ⟨x, y, hx, hy, hpage⟩ := (exists_page_iff hwraps).mp ⟨(hexact r hmem hsize).mp hoverlaps, hsize⟩
        exact ⟨r, x, y, (hreg r).mpr hmem, hx, hy, hpage⟩
    · rintro ⟨q, x, y, hq, hx, hy, hpage⟩
      have hmem := (hreg q).mp hq
      obtain ⟨hv, hsize⟩ := (exists_page_iff hwraps).mpr ⟨x, y, hx, hy, hpage⟩
      have hpml4 : pml4 ≠ 0 := by
        intro h0
        rw [hinv.null i hi (hslot.trans h0)] at hmem
        exact List.not_mem_nil hmem
      refine ⟨hpml4, hsize, i, s₁, r, hget, hover, ?_⟩
      rcases hr with ⟨-, hpass⟩ | ⟨hr0, -⟩
      · exact absurd ((hexact q hmem hsize).mpr hv) (by simp [hpass q hmem])
      · exact hr0
  · constructor
    · rintro ⟨-, -, i, s', r, hget', -⟩
      rw [hget] at hget'
      simp at hget'
    · rintro ⟨q, -, -, hq, -⟩
      exact absurd hq (hreg q)

/-- A region is on the list of the slot of its page table. -/
theorem Inv.registered_slot (h : Inv s L) {pml4 r : ℕ} (hr : Registered s pml4 r) :
    ∃ i < s.addressSpaceCount, (s.addressSpaces i).pml4 = pml4 ∧ r ∈ L i := by
  obtain ⟨i, hi, hpml4, -⟩ := id hr
  exact ⟨i, hi, hpml4, (h.registered_iff hi hpml4 r).mp hr⟩

/-- An address of two regions of one page table is an address of one region. -/
theorem Inv.eq_of_contains (h : Inv s L) {pml4 v r q : ℕ} (hr : Registered s pml4 r)
    (hq : Registered s pml4 q) (hrv : (s.regions r).contains v = true) (hqv : (s.regions q).contains v = true) :
    r = q := by
  obtain ⟨i, hi, hpml4, hri⟩ := h.registered_slot hr
  have hqi := (h.registered_iff hi hpml4 q).mp hq
  by_contra hne
  have : Std.Symm s.Apart := ⟨fun x y hxy v hv => hxy v hv.symm⟩
  exact (h.disjoint i).forall hri hqi hne v ⟨hrv, hqv⟩

/-- The look-up finds the region of an address, and changes nothing where there is one. -/
theorem Inv.findRegion_of_registered (h : Inv s L) {pml4 v r : ℕ} (hr : Registered s pml4 r)
    (hv : (s.regions r).contains v = true) : demandPagingFindRegion s pml4 v = some (r, s) := by
  have hslot : ∃ i, demandPagingGetAddressSpace s pml4 = (some i, s) ∧ i < s.addressSpaceCount ∧
      (s.addressSpaces i).pml4 = pml4 := by
    unfold demandPagingGetAddressSpace
    cases hfind : (List.range s.addressSpaceCount).find? fun i => decide ((s.addressSpaces i).pml4 = pml4) with
    | some i =>
        exact ⟨i, rfl, List.mem_range.mp (List.mem_of_find?_eq_some hfind), by simpa using List.find?_some hfind⟩
    | none =>
        obtain ⟨i, hi, hpml4, -⟩ := hr
        have hne := List.find?_eq_none.mp hfind i (List.mem_range.mpr hi)
        simp [hpml4] at hne
  obtain ⟨i, hget, hi, hpml4⟩ := hslot
  unfold demandPagingFindRegion
  rw [hget]
  dsimp only
  rw [h.search hi]
  cases hfind : (L i).find? fun q => (s.regions q).contains v with
  | none =>
      have hne := List.find?_eq_none.mp hfind r ((h.registered_iff hi hpml4 r).mp hr)
      exact absurd hv hne
  | some q =>
      have hq := (h.registered_iff hi hpml4 q).mpr (List.mem_of_find?_eq_some hfind)
      have hqv : (s.regions q).contains v = true := List.find?_some (p := fun q => (s.regions q).contains v) hfind
      rw [h.eq_of_contains hr hq hv hqv]
      rfl

/-- In every run: one slot for each page table, at most one region for each address, regions of whole pages, and
`demand_paging_find_region` finds the region. While no registered range wrapped, a registration that does not
wrap is refused for overlap exactly when it shares a page with a region. -/
theorem regions_disjoint (s₀ : State A) (ops : List Op)
    (h : Guarded (step slabAlloc slabFree allocPage freePage allocFrame) (Fresh slabAlloc) (boot s₀) ops) :
    ∃ c, exec (step slabAlloc slabFree allocPage freePage allocFrame) (boot s₀) ops = some c ∧
      (∀ i < c.state.addressSpaceCount, ∀ j < c.state.addressSpaceCount,
        (c.state.addressSpaces i).pml4 = (c.state.addressSpaces j).pml4 → i = j) ∧
      (∀ pml4 v r q, Registered c.state pml4 r → Registered c.state pml4 q →
        (c.state.regions r).contains v = true → (c.state.regions q).contains v = true → r = q) ∧
      (∀ pml4 r, Registered c.state pml4 r →
        (c.state.regions r).start % 4096 = 0 ∧ (c.state.regions r).stop % 4096 = 0) ∧
      (∀ pml4 v, ∃ r s', demandPagingFindRegion c.state pml4 v = some (r, s') ∧
        (r = 0 ∧ (∀ q, Registered c.state pml4 q → (c.state.regions q).contains v = false) ∨
          r ≠ 0 ∧ Registered c.state pml4 r ∧ (c.state.regions r).contains v = true)) ∧
      (∀ pml4 start size flags,
        (∃ s', demandPagingRegisterRegion slabAlloc c.state pml4 start size flags = some (0, s')) ↔
          pml4 ≠ 0 ∧ size ≠ 0 ∧ HasSlot c.state pml4 ∧ ¬ RefusedForOverlap c.state pml4 start size ∧
            (slabAlloc c.state.machine).1 ≠ 0) ∧
      ((∀ p ∈ c.accepted, ¬ Wraps p.1 p.2) → ∀ pml4 start size, ¬ Wraps start size →
        (RefusedForOverlap c.state pml4 start size ↔ SharesPage c.state pml4 start size)) := by
  obtain ⟨c, hexec, L, hinv, hpos⟩ := exec_total runInv_step (runInv_boot s₀) h
  refine ⟨c, hexec, hinv.distinct, ?_, ?_, ?_, ?_, ?_⟩
  · exact fun pml4 v r q hr hq hrv hqv => hinv.eq_of_contains hr hq hrv hqv
  · intro pml4 r hr
    obtain ⟨i, -, -, hri⟩ := hinv.registered_slot hr
    exact hinv.aligned i r hri
  · intro pml4 v
    obtain ⟨r, s', hcall, -, -, -, hres⟩ := hinv.findRegion pml4 v
    exact ⟨r, s', hcall, hres⟩
  · exact fun pml4 start size flags => hinv.register_eq_zero_iff pml4 start size flags
  · exact fun hwraps pml4 start size hw => hinv.refused_iff (hpos hwraps) hw

/-! ### A run on a stack of free pages -/

/-- `Fresh` as a test: the head of every list in use leads past the new structure. -/
def freshTest (slabAlloc : Machine A → ℕ × Machine A) (c : Run A) : Op → Bool
  | .register pml4 _ _ _ =>
      let s := (demandPagingGetAddressSpace c.state pml4).2
      decide ((slabAlloc s.machine).1 < 2 ^ 64) && (List.range s.addressSpaceCount).all fun i =>
        decide (search s.next (fun r => r = (slabAlloc s.machine).1) 64 (s.addressSpaces i).regions = some 0)
  | _ => true

/-- The test of a call is sound. -/
theorem fresh_of_freshTest (c : Run A) (op : Op) (h : freshTest slabAlloc c op = true) :
    Fresh slabAlloc c op := by
  cases op with
  | register pml4 start size flags =>
      intro _ _ i s' hget _
      simp only [freshTest, hget, Bool.and_eq_true, decide_eq_true_eq, List.all_eq_true, List.mem_range] at h
      refine ⟨h.1, ?_⟩
      rintro p r ⟨j, hj, -, l, hl, hr⟩ rfl
      have hne := eq_false_of_search hl (h.2 j hj) _ hr
      simp at hne
  | unregister _ _ => trivial
  | findRegion _ _ => trivial
  | handleFault _ _ => trivial

/-- Empty memory and free pages from `0x100000` on. -/
def freePages : State (List ℕ) :=
  { machine := ⟨fun _ => 0, [0x100000, 0x101000, 0x102000, 0x103000, 0x104000, 0x105000, 0x106000]⟩
    addressSpaces := fun _ => ⟨0, 0⟩
    addressSpaceCount := 0
    regions := fun _ => ⟨0, 0, 0, 0⟩ }

/-- Two page tables, a refused range, a removal from the middle of a list, a range up to the last page but one and a
fault. -/
def sampleRun : List Op :=
  [.register 0x1000 0x400000 0x2000 1, .register 0x1000 0x402000 0x1000 1, .register 0x2000 0x400800 1 3,
    .register 0x1000 0x403000 0x800 0, .register 0x1000 0x400fff 2 1, .findRegion 0x1000 0x402abc,
    .unregister 0x1000 0x402010, .register 0x1000 0x402000 0x1001 1, .register 0x2000 0xFFFFFFFFFFFFD000 0x2000 1,
    .handleFault 0x1000 0x401234]

/-- The run keeps the regions apart. -/
theorem regions_disjoint_sample :
    ∃ c, exec (step popFree pushFree popFree pushFree popFree) (boot freePages) sampleRun = some c ∧
      (∀ i < c.state.addressSpaceCount, ∀ j < c.state.addressSpaceCount,
        (c.state.addressSpaces i).pml4 = (c.state.addressSpaces j).pml4 → i = j) ∧
      (∀ pml4 v r q, Registered c.state pml4 r → Registered c.state pml4 q →
        (c.state.regions r).contains v = true → (c.state.regions q).contains v = true → r = q) ∧
      (∀ pml4 r, Registered c.state pml4 r →
        (c.state.regions r).start % 4096 = 0 ∧ (c.state.regions r).stop % 4096 = 0) ∧
      (∀ pml4 v, ∃ r s', demandPagingFindRegion c.state pml4 v = some (r, s') ∧
        (r = 0 ∧ (∀ q, Registered c.state pml4 q → (c.state.regions q).contains v = false) ∨
          r ≠ 0 ∧ Registered c.state pml4 r ∧ (c.state.regions r).contains v = true)) ∧
      (∀ pml4 start size flags,
        (∃ s', demandPagingRegisterRegion popFree c.state pml4 start size flags = some (0, s')) ↔
          pml4 ≠ 0 ∧ size ≠ 0 ∧ HasSlot c.state pml4 ∧ ¬ RefusedForOverlap c.state pml4 start size ∧
            (popFree c.state.machine).1 ≠ 0) ∧
      ∀ pml4 start size, ¬ Wraps start size →
        (RefusedForOverlap c.state pml4 start size ↔ SharesPage c.state pml4 start size) := by
  have hguard : Guarded (step popFree pushFree popFree pushFree popFree) (Fresh popFree) (boot freePages) sampleRun :=
    guarded_of_guardedBy fresh_of_freshTest (by decide +kernel)
  have haccepted : (exec (step popFree pushFree popFree pushFree popFree) (boot freePages) sampleRun).map
      (fun c => c.accepted.all fun p => decide (p.1 + p.2 + 4095 < 2 ^ 64)) = some true := by decide +kernel
  obtain ⟨c, hexec, hslots, hdisjoint, haligned, hfind, hregister, hoverlap⟩ :=
    regions_disjoint freePages sampleRun hguard
  rw [hexec, Option.map_some, Option.some.injEq, List.all_eq_true] at haccepted
  refine ⟨c, hexec, hslots, hdisjoint, haligned, hfind, hregister, hoverlap fun p hp => ?_⟩
  exact Nat.not_le.mpr (of_decide_eq_true (haccepted p hp))

end PrometheusKernel.DemandPaging
