import PrometheusKernel.DemandPaging.FaultRuns
import PrometheusKernel.Vmm.Frames

/-!
# A fault that is reported as handled

`vmm_map_page` has no return value. `demand_paging_handle_fault` returns 0 after it, also when it ran out of frames for
page tables: the page is then not mapped, and the frame that was taken for it is lost (`handled_iff`, `frame_lost`).

`FaultOutcome` says once what a call can do; the frames it takes are those of the record beside the allocator.
-/

namespace PrometheusKernel.DemandPaging

open ByteMem LinkedList Vmm TableTree

variable {A : Type} {P : Ownership A} {allocPage allocFrame : Machine A → ℕ × Machine A} {s s' : State A}
  {pml4 v : ℕ} {roots F T : Set ℕ}

/-! ### What a call can do -/

/-- The page at hand is mapped at `v`, or `vmm_map_page` has run out of frames. -/
def mapAtHand (allocPage allocFrame : Machine A → ℕ × Machine A) (s : State A) (pml4 v r : ℕ) : State A :=
  { s with
    machine := vmmMapPage allocFrame (pageAtHand allocPage s.machine (s.regions r).flags) pml4 v
      (allocPage s.machine).1 (flagPresent ||| flagWritable ||| flagUser) }

/-- The ways out of `demand_paging_handle_fault` on the page at `v`, once the region `r` was looked up. -/
inductive FaultOutcome (allocPage allocFrame : Machine A → ℕ × Machine A) (s : State A) (pml4 v r : ℕ) :
    ℤ → State A → Prop
  /-- There is no region for demand paging. -/
  | refused (h : r = 0 ∨ (s.regions r).flags &&& vmFlagDemandPaged = 0) :
      FaultOutcome allocPage allocFrame s pml4 v r (-1) s
  /-- The page is mapped already. -/
  | mapped (hr : r ≠ 0) (hflag : (s.regions r).flags &&& vmFlagDemandPaged ≠ 0)
      (h : vmmGetPhysicalAddress s.machine.mem pml4 v ≠ 0) : FaultOutcome allocPage allocFrame s pml4 v r 0 s
  /-- There is no page to map. -/
  | noPage (hr : r ≠ 0) (hflag : (s.regions r).flags &&& vmFlagDemandPaged ≠ 0)
      (h : vmmGetPhysicalAddress s.machine.mem pml4 v = 0) (h0 : (allocPage s.machine).1 = 0) :
      FaultOutcome allocPage allocFrame s pml4 v r (-1) { s with machine := (allocPage s.machine).2 }
  /-- `vmm_map_page` is called. -/
  | map (hr : r ≠ 0) (hflag : (s.regions r).flags &&& vmFlagDemandPaged ≠ 0)
      (h : vmmGetPhysicalAddress s.machine.mem pml4 v = 0) (h0 : (allocPage s.machine).1 ≠ 0) :
      FaultOutcome allocPage allocFrame s pml4 v r 0 (mapAtHand allocPage allocFrame s pml4 v r)

/-- Every call that returns takes one of the ways out. -/
theorem handleFault_outcome {code : ℤ}
    (hcall : demandPagingHandleFault allocPage allocFrame s pml4 v = some (code, s')) :
    ∃ r s₁, demandPagingFindRegion s pml4 (alignDown v) = some (r, s₁) ∧
      FaultOutcome allocPage allocFrame s₁ pml4 (alignDown v) r code s' := by
  unfold demandPagingHandleFault at hcall
  obtain ⟨⟨r, s₁⟩, hfind, hrest⟩ := Option.bind_eq_some_iff.mp hcall
  refine ⟨r, s₁, hfind, ?_⟩
  dsimp only at hrest
  by_cases hr : r = 0
  · rw [if_pos hr] at hrest
    obtain ⟨rfl, rfl⟩ := Prod.mk.inj (Option.some.inj hrest)
    exact .refused (Or.inl hr)
  rw [if_neg hr] at hrest
  by_cases hflag : (s₁.regions r).flags &&& vmFlagDemandPaged = 0
  · rw [if_pos hflag] at hrest
    obtain ⟨rfl, rfl⟩ := Prod.mk.inj (Option.some.inj hrest)
    exact .refused (Or.inr hflag)
  rw [if_neg hflag] at hrest
  by_cases hmapped : vmmGetPhysicalAddress s₁.machine.mem pml4 (alignDown v) = 0
  · rw [if_neg (not_not.mpr hmapped)] at hrest
    unfold lockedFault at hrest
    dsimp only at hrest
    rw [if_neg (not_not.mpr hmapped)] at hrest
    by_cases h0 : (allocPage s₁.machine).1 = 0
    · rw [if_pos h0] at hrest
      obtain ⟨rfl, rfl⟩ := Prod.mk.inj (Option.some.inj hrest)
      exact .noPage hr hflag hmapped h0
    · rw [if_neg h0] at hrest
      obtain ⟨rfl, rfl⟩ := Prod.mk.inj (Option.some.inj hrest)
      exact .map hr hflag hmapped h0
  · rw [if_pos hmapped] at hrest
    obtain ⟨rfl, rfl⟩ := Prod.mk.inj (Option.some.inj hrest)
    exact .mapped hr hflag hmapped

/-- A call whose region is found for demand paging and whose page is not mapped goes on to map it. -/
theorem handleFault_map {r : ℕ} {s₁ : State A} (hfind : demandPagingFindRegion s pml4 (alignDown v) = some (r, s₁))
    (hr : r ≠ 0) (hflag : (s₁.regions r).flags &&& vmFlagDemandPaged ≠ 0)
    (hunmapped : vmmGetPhysicalAddress s₁.machine.mem pml4 (alignDown v) = 0) (h0 : (allocPage s₁.machine).1 ≠ 0) :
    demandPagingHandleFault allocPage allocFrame s pml4 v
      = some (0, mapAtHand allocPage allocFrame s₁ pml4 (alignDown v) r) := by
  unfold demandPagingHandleFault lockedFault
  simp only [hfind, Option.bind_eq_bind, Option.bind_some]
  rw [if_neg hr, if_neg hflag, if_neg (not_not.mpr hunmapped), if_neg (not_not.mpr hunmapped), if_neg h0]
  rfl

/-! ### Calls whose frames are recorded -/

/-- The state with an empty record beside the allocator. -/
def State.recorded (s : State A) : State (Ledger A) :=
  ⟨Ledger.start s.machine, s.addressSpaces, s.addressSpaceCount, s.regions⟩

/-- The record plays no part in the look-up. -/
theorem findRegion_recorded (s : State A) (pml4 v : ℕ) : demandPagingFindRegion s.recorded pml4 v
    = (demandPagingFindRegion s pml4 v).map fun res => (res.1, res.2.recorded) := by
  have hget : demandPagingGetAddressSpace s.recorded pml4
      = ((demandPagingGetAddressSpace s pml4).1, (demandPagingGetAddressSpace s pml4).2.recorded) := by
    have hfind : (List.range s.recorded.addressSpaceCount).find?
          (fun i => decide ((s.recorded.addressSpaces i).pml4 = pml4))
        = (List.range s.addressSpaceCount).find? fun i => decide ((s.addressSpaces i).pml4 = pml4) := rfl
    unfold demandPagingGetAddressSpace
    rw [hfind]
    cases (List.range s.addressSpaceCount).find? fun i => decide ((s.addressSpaces i).pml4 = pml4) with
    | some i => rfl
    | none =>
        show (if s.addressSpaceCount < maxAddressSpaces then _ else _) = _
        by_cases hroom : s.addressSpaceCount < maxAddressSpaces
        · rw [if_pos hroom, if_pos hroom]
          rfl
        · rw [if_neg hroom, if_neg hroom]
  unfold demandPagingFindRegion
  rw [hget]
  rcases demandPagingGetAddressSpace s pml4 with ⟨o, s₁⟩
  cases o with
  | none => rfl
  | some i =>
      dsimp only
      show (do
        let region ← search s₁.next (fun r => (s₁.regions r).contains v) walkBound (s₁.addressSpaces i).regions
        some (region, s₁.recorded)) = _
      cases search s₁.next (fun r => (s₁.regions r).contains v) walkBound (s₁.addressSpaces i).regions with
      | none => rfl
      | some r => rfl

/-- A call that returns 0 has mapped the page, and every frame that a call has taken is mapped there or installed as a
page table. -/
def Handled (allocPage allocFrame : Machine A → ℕ × Machine A) (s : State A) (pml4 v : ℕ) : Prop :=
  ∀ code s', demandPagingHandleFault (Ledger.alloc allocPage) (Ledger.alloc allocFrame) s.recorded pml4 v
      = some (code, s') →
    (code = 0 → vmmGetPhysicalAddress s'.machine.mem pml4 (alignDown v) ≠ 0) ∧
      ∀ f ∈ s'.machine.pages.taken, vmmGetPhysicalAddress s'.machine.mem pml4 (alignDown v) = f ∨
        Installed s'.machine.mem pml4 f

/-- A call that has a page to map gets a frame for each page table that is missing. -/
def GetsTables (allocPage allocFrame : Machine A → ℕ × Machine A) (s : State A) (pml4 v : ℕ) : Prop :=
  ∀ r s₁, demandPagingFindRegion s pml4 (alignDown v) = some (r, s₁) → r ≠ 0 →
    (s.regions r).flags &&& vmFlagDemandPaged ≠ 0 → vmmGetPhysicalAddress s.machine.mem pml4 (alignDown v) = 0 →
    (allocPage s.machine).1 ≠ 0 →
    FramesFor allocFrame (pageAtHand allocPage s.machine (s.regions r).flags) pml4 (tablePath (alignDown v))

/-- The zeros below the ledger. -/
theorem plain_zeroFill (m : Machine (Ledger A)) (a : ℕ) :
    Ledger.plain (zeroFill m a) = zeroFill (Ledger.plain m) a := by
  simp only [zeroFill, Ledger.plain]

/-- The page at hand below the ledger. -/
theorem pageAtHand_recorded (m : Machine A) (flags : ℕ) :
    Ledger.plain (pageAtHand (Ledger.alloc allocPage) (Ledger.start m) flags) = pageAtHand allocPage m flags := by
  unfold pageAtHand
  by_cases hfill : flags &&& vmFlagZeroFill ≠ 0
  · rw [if_pos hfill, if_pos hfill, plain_zeroFill]
    rfl
  · rw [if_neg hfill, if_neg hfill]
    rfl

/-- The page at hand is taken. -/
theorem pageAtHand_taken (m : Machine A) (flags : ℕ) (h0 : (allocPage m).1 ≠ 0) :
    (pageAtHand (Ledger.alloc allocPage) (Ledger.start m) flags).pages.taken = [(allocPage m).1] := by
  have htaken : (Ledger.alloc allocPage (Ledger.start m)).2.pages.taken = [(allocPage m).1] := if_neg h0
  unfold pageAtHand
  by_cases hfill : flags &&& vmFlagZeroFill ≠ 0
  · rw [if_pos hfill]
    exact htaken
  · rw [if_neg hfill]
    exact htaken

/-- Page-aligned addresses have no offset. -/
theorem alignDown_and (v : ℕ) : alignDown v &&& 0xFFF = 0 := by
  have hmod : alignDown v &&& (2 ^ 12 - 1) = alignDown v % 2 ^ 12 := Nat.and_two_pow_sub_one_eq_mod _ 12
  exact hmod.trans (alignDown_mod v)

/-- `vmm_map_page` with a frame for the page at hand, in the machine `m` that it is called in: with the page table the
page is mapped, without it no translation changes, and the frames that it takes become tables. -/
theorem mapPage_taken {P : Ownership (Ledger A)} {m : Machine (Ledger A)}
    (hframe : P.Allocator (Ledger.alloc allocFrame)) (howns : P.Owns m F) (ht : Tables m.mem roots T) (hsub : T ⊆ F)
    (hroot : pml4 ∈ roots) (v : ℕ) {phys : ℕ} (hphys : IsFrame phys) (flags : ℕ) :
    (FramesFor (Ledger.alloc allocFrame) m pml4 (tablePath v) →
      ∃ fl, translate (vmmMapPage (Ledger.alloc allocFrame) m pml4 v phys flags).mem pml4 v = some (phys, fl)) ∧
    (¬ FramesFor (Ledger.alloc allocFrame) m pml4 (tablePath v) →
      translate (vmmMapPage (Ledger.alloc allocFrame) m pml4 v phys flags).mem pml4 v = translate m.mem pml4 v) ∧
    ∀ f ∈ (vmmMapPage (Ledger.alloc allocFrame) m pml4 v phys flags).pages.taken, f ∈ m.pages.taken ∨
      Installed (vmmMapPage (Ledger.alloc allocFrame) m pml4 v phys flags).mem pml4 f := by
  obtain ⟨F', T', hg, hpt⟩ := ptFor_spec hframe howns ht hsub hroot v
  have htaken := ptFor_taken hframe howns ht hsub hroot v
  rw [← ptFor_ne_zero_iff hframe howns ht hsub hroot v, vmmMapPage_eq]
  by_cases h0 : (ptFor (Ledger.alloc allocFrame) m pml4 v).1 = 0
  · rw [if_pos h0]
    exact ⟨fun hne => absurd h0 hne, fun _ => hg.translate_eq pml4 hroot v, htaken⟩
  · rw [if_neg h0]
    obtain ⟨e1, e2, e3, e4⟩ := mapEntry_spec phys flags
    refine ⟨fun _ => ⟨(flags &&& 0xFFF) ||| flagPresent, ?_⟩, fun hne => absurd h0 hne, fun f hf => ?_⟩
    · refine (hg.tables.translate_leafWrite hroot (hpt h0) e4 hroot v).trans ?_
      rw [if_pos ⟨rfl, rfl⟩]
      unfold decode
      rw [if_neg e3, e1, e2, and_frameMask_of_isFrame hphys]
    · refine (htaken f hf).imp_right fun hinst => ?_
      obtain ⟨p, hp, hlen, hw⟩ := hinst
      exact ⟨p, hp, hlen, (hg.tables.walk_leafWrite hroot (hpt h0) _ hroot hlen).trans hw⟩

/-- In every state: a fault is handled exactly if it gets the page tables that are missing, or fails before it needs
them. -/
theorem handled_iff (hpage : P.Allocator allocPage) (hframe : P.Allocator allocFrame) (hphysical : P.Physical)
    (howns : P.Owns s.machine F) (ht : Tables s.machine.mem roots T) (hsub : T ⊆ F) (hroot : pml4 ∈ roots) (v : ℕ) :
    Handled allocPage allocFrame s pml4 v ↔ GetsTables allocPage allocFrame s pml4 v := by
  have howns' : (P.recorded F).Owns (Ledger.start s.machine) F := P.owns_start howns
  have hsub' : T ⊆ Set.insert (allocPage s.machine).1 F := hsub.trans (Set.subset_insert _ _)
  -- the page at hand, mapped or not
  have hmap : ∀ flags, (allocPage s.machine).1 ≠ 0 → ∃ m,
      vmmMapPage (Ledger.alloc allocFrame) (pageAtHand (Ledger.alloc allocPage) (Ledger.start s.machine) flags) pml4
          (alignDown v) (allocPage s.machine).1 (flagPresent ||| flagWritable ||| flagUser) = m ∧
      (FramesFor allocFrame (pageAtHand allocPage s.machine flags) pml4 (tablePath (alignDown v)) →
        vmmGetPhysicalAddress m.mem pml4 (alignDown v) = (allocPage s.machine).1) ∧
      (¬ FramesFor allocFrame (pageAtHand allocPage s.machine flags) pml4 (tablePath (alignDown v)) →
        vmmGetPhysicalAddress m.mem pml4 (alignDown v) = vmmGetPhysicalAddress s.machine.mem pml4 (alignDown v)) ∧
      ∀ f ∈ m.pages.taken, f = (allocPage s.machine).1 ∨ Installed m.mem pml4 f := by
    intro flags h0
    obtain ⟨hnew, hkeep⟩ := pageAtHand_spec (hpage.recorded (G := F)) hphysical.recorded howns' h0 flags
    have htables : ∀ t ∈ T, ∀ x, InPage t x →
        (pageAtHand (Ledger.alloc allocPage) (Ledger.start s.machine) flags).mem x = s.machine.mem x :=
      fun t htT => hkeep t (hsub htT)
    have hphys : IsFrame (allocPage s.machine).1 := P.isFrame (hpage.owns howns h0) _ (Set.mem_insert _ _)
    obtain ⟨hyes, hno, htaken⟩ := mapPage_taken (hframe.recorded (G := F)) hnew (ht.congr htables) hsub' hroot
      (alignDown v) hphys (flagPresent ||| flagWritable ||| flagUser)
    rw [framesFor_ledger, pageAtHand_recorded] at hyes hno
    refine ⟨_, rfl, fun hframes => ?_, fun hframes => ?_, fun f hf => ?_⟩
    · obtain ⟨fl, htranslate⟩ := hyes hframes
      rw [vmmGetPhysicalAddress_eq, htranslate]
      show (allocPage s.machine).1 ||| (alignDown v &&& 0xFFF) = (allocPage s.machine).1
      rw [alignDown_and, Nat.or_zero]
    · rw [vmmGetPhysicalAddress_eq, vmmGetPhysicalAddress_eq, hno hframes, ht.translate_congr htables hroot]
    · refine (htaken f hf).imp_left fun hold => ?_
      rw [pageAtHand_taken _ _ h0] at hold
      exact List.mem_singleton.mp hold
  constructor
  · intro hhandled r s₁ hfind hr hflag hunmapped h0
    obtain ⟨hmachine, hregions⟩ := findRegion_keeps hfind
    obtain ⟨m, hm, -, hno, -⟩ := hmap (s.regions r).flags h0
    have hcall : demandPagingHandleFault (Ledger.alloc allocPage) (Ledger.alloc allocFrame) s.recorded pml4 v
        = some (0, mapAtHand (Ledger.alloc allocPage) (Ledger.alloc allocFrame) s₁.recorded pml4 (alignDown v) r) := by
      apply handleFault_map
      · rw [findRegion_recorded, hfind]
        rfl
      · exact hr
      · show (s₁.regions r).flags &&& vmFlagDemandPaged ≠ 0
        rw [hregions]
        exact hflag
      · show vmmGetPhysicalAddress s₁.machine.mem pml4 (alignDown v) = 0
        rw [hmachine]
        exact hunmapped
      · show (allocPage s₁.machine).1 ≠ 0
        rw [hmachine]
        exact h0
    have hafter : (mapAtHand (Ledger.alloc allocPage) (Ledger.alloc allocFrame) s₁.recorded pml4
        (alignDown v) r).machine = m := by
      rw [← hm, ← hmachine, ← hregions]
      rfl
    have hmapped := (hhandled 0 _ hcall).1 rfl
    rw [hafter] at hmapped
    by_contra hframes
    exact hmapped ((hno hframes).trans hunmapped)
  · intro hgets code s' hcall
    obtain ⟨r, s₁, hfind, hout⟩ := handleFault_outcome hcall
    rw [findRegion_recorded] at hfind
    obtain ⟨⟨q, s₂⟩, hfind', heq⟩ := Option.map_eq_some_iff.mp hfind
    obtain ⟨rfl, rfl⟩ := Prod.mk.inj heq
    obtain ⟨hmachine, hregions⟩ := findRegion_keeps hfind'
    have hempty : s₂.recorded.machine.pages.taken = [] := rfl
    cases hout with
    | refused h =>
        exact ⟨fun hcode => absurd hcode (by decide), fun f hf => absurd (hempty ▸ hf) List.not_mem_nil⟩
    | mapped hr hflag h =>
        exact ⟨fun _ => h, fun f hf => absurd (hempty ▸ hf) List.not_mem_nil⟩
    | noPage hr hflag h h0 =>
        have htaken : (Ledger.alloc allocPage s₂.recorded.machine).2.pages.taken = [] := if_pos h0
        exact ⟨fun hcode => absurd hcode (by decide), fun f hf => absurd (htaken ▸ hf) List.not_mem_nil⟩
    | map hr hflag h h0 =>
        have h0' : (allocPage s.machine).1 ≠ 0 := by
          rw [← hmachine]
          exact h0
        have hunmapped : vmmGetPhysicalAddress s.machine.mem pml4 (alignDown v) = 0 := by
          rw [← hmachine]
          exact h
        obtain ⟨m, hm, hyes, -, htaken⟩ := hmap (s.regions q).flags h0'
        have hafter : (mapAtHand (Ledger.alloc allocPage) (Ledger.alloc allocFrame) s₂.recorded pml4 (alignDown v)
            q).machine = m := by
          rw [← hm, ← hmachine, ← hregions]
          rfl
        have hphys := hyes (hgets q s₂ hfind' hr (by rw [← hregions]; exact hflag) hunmapped h0')
        rw [hafter]
        refine ⟨fun _ => ?_, fun f hf => ?_⟩
        · rw [hphys]
          exact h0'
        · rcases htaken f hf with rfl | hinst
          · exact Or.inl hphys
          · exact Or.inr hinst

/-- A fault in one of two regions is handled. -/
theorem handled_neighbours : Handled popFree popFree neighbours 0x1000 0x400123 := by
  have hroot : (0x1000 : ℕ) ∈ ({0x1000} : Set ℕ) := rfl
  refine (handled_iff (P := stack) popFree_allocator popFree_allocator stack_physical ready_neighbours.owns
    ready_neighbours.tables ready_neighbours.subset hroot 0x400123).mpr ?_
  intro r s₁ hfind _ _ _ _
  have hr : (demandPagingFindRegion neighbours 0x1000 (alignDown 0x400123)).map Prod.fst = some 0x100 := by
    decide +kernel
  rw [hfind] at hr
  obtain rfl : r = 0x100 := Option.some.inj hr
  decide +kernel

/-- `neighbours` with one free page. -/
def lastPage : State (List ℕ) := { neighbours with machine := ⟨neighbours.machine.mem, [0x4000]⟩ }

/-- A fault without a frame for a table loses its page. -/
theorem frame_lost :
    ¬ ∀ (P : Ownership (List ℕ)) (allocPage allocFrame : Machine (List ℕ) → ℕ × Machine (List ℕ))
      (s : State (List ℕ)) (roots F T : Set ℕ) (pml4 v : ℕ), P.Allocator allocPage → P.Allocator allocFrame →
        P.Physical → P.Owns s.machine F → Tables s.machine.mem roots T → T ⊆ F → pml4 ∈ roots →
        Handled allocPage allocFrame s pml4 v := by
  intro hall
  obtain ⟨hF, -, hpages⟩ := ready_neighbours.owns
  have howns : stack.Owns lastPage.machine (Set.insert 0x3000 (Set.insert 0x2000 {0x1000})) := by
    refine ⟨hF, by decide, fun f hf => hpages f ?_⟩
    obtain rfl : f = 0x4000 := List.mem_singleton.mp hf
    exact List.mem_cons_self
  have hhandled := hall stack popFree popFree lastPage {0x1000} _ _ 0x1000 0x400123 popFree_allocator popFree_allocator
    stack_physical howns ready_neighbours.tables ready_neighbours.subset rfl
  have hrun : (demandPagingHandleFault (Ledger.alloc popFree) (Ledger.alloc popFree) lastPage.recorded 0x1000
      0x400123).map (fun res => (res.1, vmmGetPhysicalAddress res.2.machine.mem 0x1000 (alignDown 0x400123)))
      = some (0, 0) := by
    decide +kernel
  obtain ⟨⟨code, s'⟩, hcall, hres⟩ := Option.map_eq_some_iff.mp hrun
  obtain ⟨hcode, hphys⟩ := Prod.mk.inj hres
  exact (hhandled code s' hcall).1 hcode hphys

end PrometheusKernel.DemandPaging
