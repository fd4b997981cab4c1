import PrometheusKernel.DemandPaging.Handling
import PrometheusKernel.Boot.Paging

/-!
# Zero-filled pages

`demand_paging_handle_fault` writes zeros at `0xFFFF800000000000 + phys_addr`, where it expects all physical memory
to be mapped. The tables of the boot code map nothing there: the index of these addresses in the first table is 256,
and only 0 and 510 have entries (`access_zeroedAddresses`). None of the 4096 addresses is mapped, the page that the
fault installs has the bytes that the allocator left in it, and no fault delivers zeros (`zeros_not_delivered`).
-/

namespace PrometheusKernel.DemandPaging

open ByteMem LinkedList Vmm TableTree

variable {A : Type} {P : Ownership A} {allocPage allocFrame : Machine A → ℕ × Machine A} {s s' : State A}
  {pml4 v : ℕ} {roots F T : Set ℕ}

/-! ### The addresses of the loop -/

/-- The addresses that the zero-fill loop writes, for the page at `physAddr`. -/
def zeroedAddresses (physAddr : ℕ) : List ℕ := (List.range pageSize).map fun i => directMap + physAddr + i

/-- The bytes after the zero-fill of a page. -/
theorem zeroFill_mem (m : Machine A) (physAddr x : ℕ) :
    (zeroFill m physAddr).mem x = if x ∈ zeroedAddresses physAddr then 0 else m.mem x := by
  have hmem : x ∈ zeroedAddresses physAddr ↔ directMap + physAddr ≤ x ∧ x < directMap + physAddr + pageSize := by
    unfold zeroedAddresses
    rw [List.mem_map]
    constructor
    · rintro ⟨i, hi, rfl⟩
      exact ⟨Nat.le_add_right _ _, Nat.add_lt_add_left (List.mem_range.mp hi) _⟩
    · rintro ⟨h1, h2⟩
      refine ⟨x - (directMap + physAddr), List.mem_range.mpr ?_, Nat.add_sub_cancel' h1⟩
      omega
  unfold zeroFill
  dsimp only
  rw [fill_apply]
  exact if_congr hmem.symm rfl rfl

/-- The addresses that a fault writes before it maps the page at `physAddr`, by the flags of the region. -/
def writtenAddresses (flags physAddr : ℕ) : List ℕ :=
  if flags &&& vmFlagZeroFill ≠ 0 then zeroedAddresses physAddr else []

/-- The bytes after the page at hand has been prepared. -/
theorem pageAtHand_mem (m : Machine A) (flags x : ℕ) : (pageAtHand allocPage m flags).mem x
    = if x ∈ writtenAddresses flags (allocPage m).1 then 0 else (allocPage m).2.mem x := by
  unfold pageAtHand writtenAddresses
  by_cases hfill : flags &&& vmFlagZeroFill ≠ 0
  · rw [if_pos hfill, if_pos hfill, zeroFill_mem]
  · rw [if_neg hfill, if_neg hfill, if_neg List.not_mem_nil]

/-- The tables of the boot code map none of them. -/
theorem access_zeroedAddresses {m : Mem} {cr3 pdpt pd physAddr : ℕ} (h1 : IsFrame cr3) (h2 : IsFrame pdpt)
    (h3 : IsFrame pd) (h12 : cr3 ≠ pdpt) (h13 : cr3 ≠ pd) (h23 : pdpt ≠ pd) (hframe : IsFrame physAddr)
    (hlow : physAddr < 2 ^ 30) :
    ∀ a ∈ zeroedAddresses physAddr, Boot.access (Boot.setupPaging m cr3 pdpt pd) cr3 a = none := by
  intro a ha
  obtain ⟨i, hi, rfl⟩ := List.mem_map.mp ha
  rw [List.mem_range] at hi
  have haligned := hframe.aligned
  have hindex : pml4Index (directMap + physAddr + i) = 256 := by
    refine (index_eq _ 39).trans ?_
    unfold directMap
    unfold pageSize at hi haligned
    omega
  rw [Boot.access_setupPaging h1 h2 h3 h12 h13 h23, hindex]
  exact if_neg fun hc => absurd hc.1 (by decide)

/-! ### The page that is installed -/

/-- `vmm_map_page` on a page that is not mapped: if it is mapped afterwards, then to the frame given, and data frames
have kept their contents. -/
theorem mapPage_installs {m : Machine A} (hframe : P.Allocator allocFrame) (howns : P.Owns m F)
    (ht : Tables m.mem roots T) (hsub : T ⊆ F) (hroot : pml4 ∈ roots) {phys f fl flags : ℕ} (hphys : IsFrame phys)
    (hnone : translate m.mem pml4 v = none)
    (hsome : translate (vmmMapPage allocFrame m pml4 v phys flags).mem pml4 v = some (f, fl)) :
    f = phys ∧ ∀ u ∈ F, u ∉ T → ∀ x, InPage u x → (vmmMapPage allocFrame m pml4 v phys flags).mem x = m.mem x := by
  obtain ⟨F', T', hg, hpt⟩ := ptFor_spec hframe howns ht hsub hroot v
  rw [vmmMapPage_eq] at hsome ⊢
  by_cases h0 : (ptFor allocFrame m pml4 v).1 = 0
  · rw [if_pos h0, hg.translate_eq pml4 hroot v, hnone] at hsome
    exact absurd hsome nofun
  · rw [if_neg h0] at hsome ⊢
    obtain ⟨e1, -, e3, e4⟩ := mapEntry_spec phys flags
    have hentry := (hg.tables.translate_leafWrite hroot (hpt h0) e4 hroot v).symm.trans hsome
    rw [if_pos ⟨rfl, rfl⟩] at hentry
    unfold decode at hentry
    rw [if_neg e3, e1, and_frameMask_of_isFrame hphys] at hentry
    refine ⟨(Prod.mk.inj (Option.some.inj hentry)).1.symm, fun u hu huT x hx => ?_⟩
    have hptT := hg.tables.mem_of_pageTable hroot (hpt h0)
    have hne : ¬ InPage (ptFor allocFrame m pml4 v).1 x := by
      intro hx'
      obtain rfl := (P.isFrame howns u hu).eq_of_inPage (hg.tables.isFrame _ hptT) hx hx'
      exact huT (hg.fresh _ hptT hu)
    exact (store_slot_apply (ptIndex_lt v) hne).trans (hg.mem u hu huT x hx)

/-- What a region with these flags is for, of a call that installs the frame `f` while the processor uses the tables
`cr3` in the memory `boot`: it writes to mapped addresses, the page is zero, and data frames are as they were. -/
structure DeliversZeros (boot : Mem) (cr3 : ℕ) (F T : Set ℕ) (flags : ℕ) (s s' : State A) (f : ℕ) : Prop where
  mapped : ∀ a ∈ writtenAddresses flags f, Boot.access boot cr3 a ≠ none
  zero : ∀ x, InPage f x → s'.machine.mem x = 0
  kept : ∀ u ∈ F, u ∉ T → ∀ x, InPage u x → s'.machine.mem x = s.machine.mem x

/-- A fault that installs a page: the page is the one that was allocated, with what the allocator and the writes of the
fault have left in it. -/
theorem handleFault_installs (hpage : P.Allocator allocPage) (hframe : P.Allocator allocFrame)
    (hphysical : P.Physical) (howns : P.Owns s.machine F) (ht : Tables s.machine.mem roots T) (hsub : T ⊆ F)
    (hroot : pml4 ∈ roots) {r : ℕ} {s₁ : State A} (hfind : demandPagingFindRegion s pml4 (alignDown v) = some (r, s₁))
    (hcall : demandPagingHandleFault allocPage allocFrame s pml4 v = some (0, s'))
    (hnone : translate s.machine.mem pml4 (alignDown v) = none) {f fl : ℕ}
    (hsome : translate s'.machine.mem pml4 (alignDown v) = some (f, fl)) :
    f = (allocPage s.machine).1 ∧ IsFrame f ∧
      ∀ x, InPage f x → s'.machine.mem x = (pageAtHand allocPage s.machine (s.regions r).flags).mem x := by
  obtain ⟨r', s₁', hfind', hout⟩ := handleFault_outcome hcall
  obtain ⟨rfl, rfl⟩ := Prod.mk.inj (Option.some.inj (hfind.symm.trans hfind'))
  obtain ⟨hmachine, hregions⟩ := findRegion_keeps hfind
  have hunmapped : vmmGetPhysicalAddress s₁.machine.mem pml4 (alignDown v) = 0 := by
    rw [hmachine, vmmGetPhysicalAddress_eq, hnone]
  cases hout with
  | mapped _ _ h => exact absurd hunmapped h
  | map _ _ _ h0 =>
      rw [hmachine] at h0
      have hafter : (mapAtHand allocPage allocFrame s₁ pml4 (alignDown v) r).machine
          = vmmMapPage allocFrame (pageAtHand allocPage s.machine (s.regions r).flags) pml4 (alignDown v)
            (allocPage s.machine).1 (flagPresent ||| flagWritable ||| flagUser) := by
        rw [← hmachine, ← hregions]
        rfl
      obtain ⟨hnew, hkeep⟩ := pageAtHand_spec hpage hphysical howns h0 (s.regions r).flags
      have htables : ∀ t ∈ T, ∀ x, InPage t x →
          (pageAtHand allocPage s.machine (s.regions r).flags).mem x = s.machine.mem x :=
        fun t htT => hkeep t (hsub htT)
      have hphys : IsFrame (allocPage s.machine).1 := P.isFrame (hpage.owns howns h0) _ (Set.mem_insert _ _)
      rw [hafter] at hsome ⊢
      obtain ⟨rfl, hdata⟩ := mapPage_installs hframe hnew (ht.congr htables) (hsub.trans (Set.subset_insert _ _)) hroot
        hphys ((ht.translate_congr htables hroot _).trans hnone) hsome
      exact ⟨rfl, hphys, hdata _ (Set.mem_insert _ _) fun hin => hpage.fresh howns h0 (hsub hin)⟩

/-- In every state, with the tables of the boot code: a fault that installs a page of the first GiB in a zero-fill
region does not deliver zeros. It writes to no mapped address, and the page is as the allocator left it. -/
theorem zeros_not_delivered (hpage : P.Allocator allocPage) (hframe : P.Allocator allocFrame) (hphysical : P.Physical)
    (howns : P.Owns s.machine F) (ht : Tables s.machine.mem roots T) (hsub : T ⊆ F) (hroot : pml4 ∈ roots)
    (hlow : (allocPage s.machine).1 < 2 ^ 30) {r : ℕ} {s₁ : State A}
    (hfind : demandPagingFindRegion s pml4 (alignDown v) = some (r, s₁))
    (hfill : (s.regions r).flags &&& vmFlagZeroFill ≠ 0)
    (hcall : demandPagingHandleFault allocPage allocFrame s pml4 v = some (0, s'))
    (hnone : translate s.machine.mem pml4 (alignDown v) = none) {f fl : ℕ}
    (hsome : translate s'.machine.mem pml4 (alignDown v) = some (f, fl)) {boot : Mem} {cr3 pdpt pd : ℕ}
    (h1 : IsFrame cr3) (h2 : IsFrame pdpt) (h3 : IsFrame pd) (h12 : cr3 ≠ pdpt) (h13 : cr3 ≠ pd) (h23 : pdpt ≠ pd) :
    ¬ DeliversZeros (Boot.setupPaging boot cr3 pdpt pd) cr3 F T (s.regions r).flags s s' f ∧
      (∀ a ∈ writtenAddresses (s.regions r).flags f, Boot.access (Boot.setupPaging boot cr3 pdpt pd) cr3 a = none) ∧
      ∀ x, InPage f x → s'.machine.mem x = (allocPage s.machine).2.mem x := by
  obtain ⟨rfl, hf, hbytes⟩ :=
    handleFault_installs hpage hframe hphysical howns ht hsub hroot hfind hcall hnone hsome
  have hfault : ∀ a ∈ writtenAddresses (s.regions r).flags (allocPage s.machine).1,
      Boot.access (Boot.setupPaging boot cr3 pdpt pd) cr3 a = none := by
    unfold writtenAddresses
    rw [if_pos hfill]
    exact access_zeroedAddresses h1 h2 h3 h12 h13 h23 hf hlow
  refine ⟨fun hzero => ?_, hfault, fun x hx => (hbytes x hx).trans ?_⟩
  · have hfirst : directMap + (allocPage s.machine).1 + 0 ∈ writtenAddresses (s.regions r).flags
      (allocPage s.machine).1 := by
      unfold writtenAddresses
      rw [if_pos hfill]
      exact List.mem_map.mpr ⟨0, List.mem_range.mpr (by decide), rfl⟩
    exact hzero.mapped _ hfirst (hfault _ hfirst)
  · -- the zeros have gone elsewhere
    have hlt : x < 2 ^ 52 := by
      unfold InPage pageSize at hx
      omega
    unfold pageAtHand
    rw [if_pos hfill]
    exact zeroFill_apply _ _ hlt

/-! ### A zero-fill region and a page with a stale byte -/

/-- `neighbours`, with zero-fill regions and a stale byte in the next free page. -/
def staleNeighbours : State (List ℕ) :=
  { neighbours with
    machine := ⟨Function.update neighbours.machine.mem 0x4010 0xAA, neighbours.machine.pages⟩
    regions := fun r => { neighbours.regions r with flags := 3 } }

/-- The tables and the page at hand are apart. -/
theorem ready_staleNeighbours : stack.Owns staleNeighbours.machine (Set.insert 0x3000 (Set.insert 0x2000 {0x1000})) ∧
    Tables staleNeighbours.machine.mem {0x1000} (Set.insert 0x3000 (Set.insert 0x2000 {0x1000})) := by
  refine ⟨ready_neighbours.owns, ready_neighbours.tables.congr fun t ht x hx => Function.update_of_ne ?_ _ _⟩
  have hframe := ready_neighbours.tables.isFrame t ht
  have hstale : IsFrame 0x4000 := ⟨by decide, by decide, by decide⟩
  rintro rfl
  obtain rfl := hframe.eq_of_inPage hstale hx ⟨by decide, by decide⟩
  rcases ht with h | h | h
  all_goals exact absurd h (by decide)

/-- A fault of the first region installs the page with the stale byte. -/
theorem staleNeighbours_fault : ∃ s',
    demandPagingHandleFault popFree popFree staleNeighbours 0x1000 0x400123 = some (0, s') ∧
    translate s'.machine.mem 0x1000 (alignDown 0x400123) = some (0x4000, 7) := by
  have hfill : ∀ (n : ℕ) (m : Mem) (a : ℕ), fill n m a 0 = fun x => if a ≤ x ∧ x < a + n then 0 else m x :=
    fun n m a => funext fun x => fill_apply n m a 0 x
  have hrun : (demandPagingHandleFault popFree popFree staleNeighbours 0x1000 0x400123).map (fun res =>
      (res.1, translate res.2.machine.mem 0x1000 (alignDown 0x400123))) = some (0, some (0x4000, 7)) := by
    delta demandPagingHandleFault lockedFault zeroFill vmmMapPage ptFor getOrAlloc
    simp only [clearTable_eq, hfill]
    decide +kernel
  obtain ⟨⟨code, s'⟩, hcall, hres⟩ := Option.map_eq_some_iff.mp hrun
  obtain ⟨rfl, htranslate⟩ := Prod.mk.inj hres
  exact ⟨s', hcall, htranslate⟩

/-- The fault is in the first region. -/
theorem staleNeighbours_find :
    ∃ s₁, demandPagingFindRegion staleNeighbours 0x1000 (alignDown 0x400123) = some (0x100, s₁) := by
  have hr : (demandPagingFindRegion staleNeighbours 0x1000 (alignDown 0x400123)).map Prod.fst = some 0x100 := by
    decide +kernel
  obtain ⟨⟨r, s₁⟩, hfind, rfl⟩ := Option.map_eq_some_iff.mp hr
  exact ⟨s₁, hfind⟩

/-- The page with the stale byte is mapped as it is. -/
theorem zeros_not_delivered_sample : ∃ s',
    demandPagingHandleFault popFree popFree staleNeighbours 0x1000 0x400123 = some (0, s') ∧
      ¬ DeliversZeros (Boot.setupPaging (fun _ => 0) 0x100000 0x101000 0x102000) 0x100000
        (Set.insert 0x3000 (Set.insert 0x2000 {0x1000})) (Set.insert 0x3000 (Set.insert 0x2000 {0x1000})) 3
        staleNeighbours s' 0x4000 ∧
      (∀ a ∈ writtenAddresses 3 0x4000,
        Boot.access (Boot.setupPaging (fun _ => 0) 0x100000 0x101000 0x102000) 0x100000 a = none) ∧
      ∀ x, InPage 0x4000 x → s'.machine.mem x = (popFree staleNeighbours.machine).2.mem x := by
  obtain ⟨s', hcall, hsome⟩ := staleNeighbours_fault
  obtain ⟨s₁, hfind⟩ := staleNeighbours_find
  exact ⟨s', hcall, zeros_not_delivered popFree_allocator popFree_allocator stack_physical ready_staleNeighbours.1
    ready_staleNeighbours.2 subset_rfl rfl (by decide) hfind (by decide) hcall (by decide +kernel) hsome
    ⟨by decide, by decide, by decide⟩ ⟨by decide, by decide, by decide⟩ ⟨by decide, by decide, by decide⟩ (by decide)
    (by decide) (by decide)⟩

/-- The user reads a stale byte. -/
theorem stale_byte_delivered :
    ¬ ∀ (P : Ownership (List ℕ)) (allocPage allocFrame : Machine (List ℕ) → ℕ × Machine (List ℕ))
      (s s' s₁ : State (List ℕ)) (roots F T : Set ℕ) (pml4 v r f fl : ℕ) (boot : Mem) (cr3 pdpt pd : ℕ),
        P.Allocator allocPage → P.Allocator allocFrame → P.Physical → P.Owns s.machine F →
        Tables s.machine.mem roots T → T ⊆ F → pml4 ∈ roots → (allocPage s.machine).1 < 2 ^ 30 →
        demandPagingFindRegion s pml4 (alignDown v) = some (r, s₁) → (s.regions r).flags &&& vmFlagZeroFill ≠ 0 →
        demandPagingHandleFault allocPage allocFrame s pml4 v = some (0, s') →
        translate s.machine.mem pml4 (alignDown v) = none →
        translate s'.machine.mem pml4 (alignDown v) = some (f, fl) → IsFrame cr3 → IsFrame pdpt → IsFrame pd →
        cr3 ≠ pdpt → cr3 ≠ pd → pdpt ≠ pd →
        DeliversZeros (Boot.setupPaging boot cr3 pdpt pd) cr3 F T (s.regions r).flags s s' f := by
  intro hclaim
  obtain ⟨s', hcall, hsome⟩ := staleNeighbours_fault
  obtain ⟨s₁, hfind⟩ := staleNeighbours_find
  have hnone : translate staleNeighbours.machine.mem 0x1000 (alignDown 0x400123) = none := by decide +kernel
  have hzeros := hclaim stack popFree popFree staleNeighbours s' s₁ {0x1000} _ _ 0x1000 0x400123 0x100 0x4000 7
    (fun _ => 0) 0x100000 0x101000 0x102000 popFree_allocator popFree_allocator stack_physical ready_staleNeighbours.1
    ready_staleNeighbours.2 subset_rfl rfl (by decide) hfind (by decide) hcall hnone hsome
    ⟨by decide, by decide, by decide⟩ ⟨by decide, by decide, by decide⟩ ⟨by decide, by decide, by decide⟩ (by decide)
    (by decide) (by decide)
  obtain ⟨-, -, hbytes⟩ := handleFault_installs popFree_allocator popFree_allocator stack_physical
    ready_staleNeighbours.1 ready_staleNeighbours.2 subset_rfl rfl hfind hcall hnone hsome
  have hstale : s'.machine.mem 0x4010 = 0xAA :=
    (hbytes 0x4010 ⟨by decide, by decide⟩).trans ((zeroFill_apply _ _ (by norm_num)).trans (by decide))
  exact absurd (hstale.symm.trans (hzeros.zero 0x4010 ⟨by decide, by decide⟩)) (by decide)

end PrometheusKernel.DemandPaging
