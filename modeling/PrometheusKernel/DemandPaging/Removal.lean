import PrometheusKernel.DemandPaging.Isolation

/-!
# What a removal takes down

`demand_paging_unregister_region` takes one region out of its list, and its loop passes over the pages of the region.
Where the regions end below `2 ^ 47` these pages have different numbers, and where the pages were mapped by faults each
frame backs one page. The frames that come back are then those behind the mapped pages of the region, each of them once
(`freed_unmapPages`), and everything else is as it was (`removal_takes_down`).

The calls run on a machine with a record beside the allocator, which nothing reads.
-/

namespace PrometheusKernel.DemandPaging

open ByteMem LinkedList Vmm TableTree Interleaving

variable {A : Type}

/-! ### Calls on the record -/

section recorded

variable {P : Set ℕ → Ownership A} {slabAlloc : Machine A → ℕ × Machine A} {slabFree : ℕ → Machine A → Machine A}
  {m : Machine A} {roots F T : Set ℕ}

/-- The record does not disturb the cache of region structures. -/
theorem RegionCache.ledger (h : RegionCache P slabAlloc slabFree) :
    RegionCache (fun R => (P R).ledger) (Ledger.alloc slabAlloc) fun r => Ledger.act (slabFree r) where
  fail hs h0 := h.fail hs h0
  fresh hs h0 := h.fresh hs h0
  owns hs h0 := h.owns hs h0
  alloc_mem hs f hf x hx := h.alloc_mem hs f hf x hx
  free hs r hr := h.free hs r hr
  free_mem hs r hr f hf x hx := h.free_mem hs r hr f hf x hx

/-- Page tables without mappings, below a ledger. -/
theorem Unmapped.ledger (h : Unmapped (P ∅) m roots F T) : Unmapped (P ∅).ledger (Ledger.start m) roots F T :=
  ⟨h.owns, h.tables, h.subset, h.unmapped⟩

/-- One call, with the frames that `buddy_alloc_pages` and `pmm_alloc_frame` hand out and those that
`buddy_free_pages` gets written down. -/
def recordedStep (slabAlloc : Machine A → ℕ × Machine A) (slabFree : ℕ → Machine A → Machine A)
    (allocPage : Machine A → ℕ × Machine A) (buddyFreePages : ℕ → ℕ → Machine A → Machine A)
    (allocFrame : Machine A → ℕ × Machine A) : Run (Ledger A) → Op → Option (Run (Ledger A)) :=
  step (Ledger.alloc slabAlloc) (fun r => Ledger.act (slabFree r)) (Ledger.alloc allocPage)
    (fun f => Ledger.free buddyFreePages f 0) (Ledger.alloc allocFrame)

end recorded

/-! ### The frames that come back -/

section freed

variable {P : Ownership (Ledger A)} {buddyFreePages : ℕ → ℕ → Machine A → Machine A} {s : Cow.State (Ledger A)}
  {g : Cow.Ghost} {roots : Set ℕ} {pml4 v : ℕ}

/-- One iteration of the loop gives back the frame behind the page, if there is one. -/
theorem freed_unmapPage (h : Backed P s roots g) (hr : pml4 ∈ roots) (hv : v % 4096 = 0) :
    (unmapPage (fun f => Ledger.free buddyFreePages f 0) pml4 s.toMachine v).pages.freed
      = (Cow.frameAt s.mem pml4 v).toList.map (fun f => (f, 0)) ++ s.pages.freed := by
  have hpages : (vmmUnmapPage s.toMachine pml4 v).pages = s.pages := by
    rw [vmmUnmapPage_eq]
    cases pageTable s.mem pml4 v with
    | none => rfl
    | some pt => rfl
  unfold Cow.frameAt
  cases ht : translate s.mem pml4 v with
  | none =>
      rw [unmapPage_of_none ht]
      rfl
  | some e =>
      obtain ⟨f, fl⟩ := e
      have hf : f ≠ 0 := (h.footing.isFrame (h.footing.dF (h.data pml4 hr v f fl ht))).ne_zero
      rw [unmapPage_of_some ht hv hf]
      show (f, 0) :: (vmmUnmapPage s.toMachine pml4 v).pages.freed = (f, 0) :: s.pages.freed
      rw [hpages]

/-- The loop gives back the frames behind the pages of the list, the first page's frame first. -/
theorem freed_unmapPages (hfree : P.Freer fun f => Ledger.free buddyFreePages f 0) (hr : pml4 ∈ roots) {l : List ℕ}
    (hl : ∀ v ∈ l, v % 4096 = 0) (hapart : l.Pairwise fun v w => vpn v ≠ vpn w) :
    ∀ {s : Cow.State (Ledger A)} {g : Cow.Ghost}, Backed P s roots g → Sole s.mem roots →
      (l.foldl (unmapPage (fun f => Ledger.free buddyFreePages f 0) pml4) s.toMachine).pages.freed
        = ((l.filterMap (Cow.frameAt s.mem pml4)).map fun f => (f, 0)).reverse ++ s.pages.freed := by
  induction l with
  | nil => exact fun _ _ => rfl
  | cons a l ih =>
      intro s g h hsole
      obtain ⟨hne, hrest⟩ := List.pairwise_cons.mp hapart
      have ha := hl a List.mem_cons_self
      obtain ⟨m, g', hm, h', -, htrans⟩ := h.unmapPage hfree hr ha (hsole pml4 hr a)
      have hsole' : Sole m.mem roots := by
        refine hsole.of_mapped fun r hr' w e ht => ?_
        rw [htrans r hr' w] at ht
        split_ifs at ht
        exact ht
      -- the pages of the rest are still mapped to the same frames
      have hsame : l.filterMap (Cow.frameAt m.mem pml4) = l.filterMap (Cow.frameAt s.mem pml4) := by
        refine List.filterMap_congr fun w hw => ?_
        unfold Cow.frameAt
        rw [htrans pml4 hr w, if_neg]
        exact fun hc => hne w hw hc.2.symm
      have hstep := @freed_unmapPage A P buddyFreePages s g roots pml4 a h hr ha
      rw [hm] at hstep
      have htail := ih (fun v hv => hl v (List.mem_cons_of_mem _ hv)) hrest h' hsole'
      rw [List.foldl_cons, hm]
      refine htail.trans ?_
      show ((l.filterMap (Cow.frameAt m.mem pml4)).map fun f => (f, 0)).reverse ++ m.pages.freed = _
      rw [hsame, hstep]
      cases hf : Cow.frameAt s.mem pml4 a with
      | none =>
          rw [List.filterMap_cons_none hf]
          rfl
      | some f =>
          rw [List.filterMap_cons_some hf, List.map_cons, List.reverse_cons, List.append_assoc]
          rfl

end freed

/-! ### The pages of a low region -/

/-- The pages of a region below `2 ^ 48` have different numbers. -/
theorem pagesOf_pairwise {q : Region} (hstart : q.start % 4096 = 0) (hstop : q.stop ≤ 2 ^ 48) :
    (pagesOf q).Pairwise fun v w => vpn v ≠ vpn w := by
  have hnum : ∀ v ∈ pagesOf q, vpn v = v / 4096 := by
    intro v hv
    have hc := (mem_pagesOf hv).1
    simp only [Region.contains, Bool.and_eq_true, decide_eq_true_eq] at hc
    unfold vpn
    rw [show (2 : ℕ) ^ 12 = 4096 by norm_num]
    exact Nat.mod_eq_of_lt (by omega)
  have hnodup : (pagesOf q).Nodup := by
    refine List.Nodup.map (fun i j hij => ?_) List.nodup_range
    unfold pageSize at hij
    omega
  refine List.Pairwise.imp_of_mem (fun {v w} hv hw hne heq => hne ?_) hnodup
  obtain ⟨-, i, rfl⟩ := mem_pagesOf hv
  obtain ⟨-, j, rfl⟩ := mem_pagesOf hw
  rw [hnum _ hv, hnum _ hw] at heq
  omega

/-- A frame is behind one of the pages that the loop visits exactly if an address of the region is mapped to it. -/
theorem mem_framesOf {m : Mem} {pml4 f : ℕ} {q : Region} (hstart : q.start % 4096 = 0) :
    f ∈ (pagesOf q).filterMap (Cow.frameAt m pml4) ↔
      ∃ v fl, q.contains v = true ∧ translate m pml4 v = some (f, fl) := by
  rw [List.mem_filterMap]
  constructor
  · rintro ⟨v, hv, hf⟩
    obtain ⟨⟨f', fl⟩, ht, rfl⟩ := Option.map_eq_some_iff.mp hf
    exact ⟨v, fl, (mem_pagesOf hv).1, ht⟩
  · rintro ⟨w, fl, hw, ht⟩
    obtain ⟨v, hv, hdiv⟩ := exists_mem_pagesOf hstart hw
    refine ⟨v, hv, ?_⟩
    unfold Cow.frameAt
    rw [← translate_eq_of_vpn _ _ (vpn_eq_of_div hdiv), ht]
    rfl

/-- No frame is behind two of the pages. -/
theorem framesOf_nodup {m : Mem} {pml4 : ℕ} {roots : Set ℕ} {l : List ℕ} (hsole : Sole m roots) (hr : pml4 ∈ roots)
    (hapart : l.Pairwise fun v w => vpn v ≠ vpn w) : (l.filterMap (Cow.frameAt m pml4)).Nodup := by
  refine List.pairwise_filterMap.mpr (hapart.imp fun {v w} hne f hf f' hf' heq => hne ?_)
  obtain ⟨⟨f₁, fl⟩, ht, rfl⟩ := Option.map_eq_some_iff.mp hf
  obtain ⟨⟨f₂, fl'⟩, ht', rfl⟩ := Option.map_eq_some_iff.mp hf'
  obtain rfl : f₁ = f₂ := heq
  exact (hsole pml4 hr v f₁ fl ht pml4 hr w fl' ht').2.symm

/-! ### Runs whose regions are low -/

section runs

variable {P : Set ℕ → Ownership A} {slabAlloc : Machine A → ℕ × Machine A} {slabFree : ℕ → Machine A → Machine A}
  {allocPage : Machine A → ℕ × Machine A} {freePage : ℕ → Machine A → Machine A}
  {allocFrame : Machine A → ℕ × Machine A} {roots F T : Set ℕ}

/-- A registration that succeeds ends at or below `2 ^ 47`. -/
def EndsLow (slabAlloc : Machine A → ℕ × Machine A) (c : Run A) : Op → Prop
  | .register pml4 start size flags =>
      (∃ s', demandPagingRegisterRegion slabAlloc c.state pml4 start size flags = some (0, s')) → start + size ≤ 2 ^ 47
  | _ => True

/-- The registered regions are not empty and lie below `2 ^ 47`. -/
def Low (c : Run A) : Prop :=
  ∀ p r, Registered c.state p r → (c.state.regions r).start < (c.state.regions r).stop ∧
    (c.state.regions r).stop ≤ 2 ^ 47

/-- The end of a low range is low. -/
theorem alignedEnd_low {start size : ℕ} (h : start + size ≤ 2 ^ 47) : alignedEnd start size ≤ 2 ^ 47 := by
  rw [alignedEnd_eq (by omega)]
  omega

/-- Calls that move no region leave low regions low. -/
theorem Low.of_range {c c' : Run A} (h : Low c) (hreg : ∀ p r, Registered c'.state p r → Registered c.state p r)
    (hrange : ∀ r, (c'.state.regions r).start = (c.state.regions r).start ∧
      (c'.state.regions r).stop = (c.state.regions r).stop) : Low c' := by
  intro p r hr
  rw [(hrange r).1, (hrange r).2]
  exact h p r (hreg p r hr)

/-- A call that keeps the regions keeps them low. -/
theorem Low.of_keeps {c c' : Run A} (h : Low c) (hkeeps : Keeps c.state c'.state) : Low c' := by
  refine h.of_range (fun p r => (hkeeps.registered p r).mp) fun r => ?_
  rw [hkeeps.regions]
  exact ⟨rfl, rfl⟩

/-- Low regions of one page table start at different addresses. -/
theorem Low.eq_of_start {c : Run A} {L : ℕ → List ℕ} (h : Low c) (hinv : Inv c.state L) {pml4 q r : ℕ}
    (hq : Registered c.state pml4 q) (hr : Registered c.state pml4 r)
    (hstart : (c.state.regions q).start = (c.state.regions r).start) : q = r := by
  have hmem : ∀ p, Registered c.state pml4 p → (c.state.regions p).contains (c.state.regions p).start = true := by
    intro p hp
    simp only [Region.contains, Bool.and_eq_true, decide_eq_true_eq]
    exact ⟨le_refl _, (h pml4 p hp).1⟩
  refine hinv.eq_of_contains hq hr (hmem q hq) ?_
  rw [hstart]
  exact hmem r hr

/-- Every call on low addresses keeps the regions low. -/
theorem low_step (hslab : RegionCache P slabAlloc slabFree) (hpage : ∀ R, (P R).Allocator allocPage)
    (hframe : ∀ R, (P R).Allocator allocFrame) (hfree : ∀ R, (P R).Freer freePage) (hphysical : ∀ R, (P R).Physical)
    (c : Run A) (op : Op) (h : Isolated P roots c ∧ Low c) (hop : InSpaces roots c op ∧ EndsLow slabAlloc c op) :
    ∃ c', step slabAlloc slabFree allocPage freePage allocFrame c op = some c' ∧ Isolated P roots c' ∧ Low c' := by
  obtain ⟨hiso, hlow⟩ := h
  obtain ⟨c', hstep, hiso'⟩ := isolated_step hslab hpage hframe hfree hphysical c op hiso hop.1
  refine ⟨c', hstep, hiso', ?_⟩
  cases op with
  | register pml4 start size flags =>
      obtain ⟨L, g, R, hsound, -⟩ := hiso
      obtain ⟨code, s', L', R', hcall, -, -, hres⟩ := hsound.register hslab pml4 start size flags
      rw [step, hcall, Option.map_some] at hstep
      obtain rfl := Option.some.inj hstep
      rcases hres with ⟨-, hkeeps⟩ | ⟨rfl, hregs⟩
      · exact hlow.of_keeps hkeeps
      · have hend : start + size ≤ 2 ^ 47 := hop.2 ⟨s', hcall⟩
        have hwraps : ¬ Wraps start size := by
          unfold Wraps
          omega
        intro p r hr
        by_cases hnew : r = (slabAlloc c.state.machine).1
        · subst hnew
          show (s'.regions _).start < (s'.regions _).stop ∧ (s'.regions _).stop ≤ 2 ^ 47
          rw [hregs.start_eq, hregs.stop_eq]
          exact ⟨alignDown_lt_alignedEnd hregs.size_ne hwraps, alignedEnd_low hend⟩
        · show (s'.regions r).start < (s'.regions r).stop ∧ (s'.regions r).stop ≤ 2 ^ 47
          rw [hregs.regions r hnew]
          rcases (hregs.registered p r).mp hr with hold | hcon
          · exact hlow p r hold
          · exact absurd hcon.2 hnew
  | unregister pml4 start =>
      obtain ⟨c'', hstep', -, hres⟩ :=
        @Isolated.unregister A P slabAlloc slabFree allocPage freePage allocFrame roots c hslab hfree hiso pml4 hop.1
          start
      obtain rfl := Option.some.inj (hstep.symm.trans hstep')
      rcases hres with ⟨hkeeps, -⟩ | ⟨r, hunregs, -⟩
      · exact hlow.of_keeps hkeeps
      · exact hlow.of_range (fun p q hq => ((hunregs.registered p q).mp hq).1) hunregs.range
  | findRegion pml4 v =>
      obtain ⟨L, g, R, hsound, -⟩ := hiso
      obtain ⟨r, s', hcall, -, hkeeps, -⟩ := hsound.findRegion pml4 v
      rw [step, hcall, Option.map_some] at hstep
      obtain rfl := Option.some.inj hstep
      exact hlow.of_keeps hkeeps
  | handleFault pml4 v =>
      obtain ⟨c'', hstep', -, hkeeps, -⟩ :=
        @Isolated.handleFault A P slabAlloc slabFree allocPage freePage allocFrame roots c hpage hframe hphysical hiso
          pml4 hop.1 v
      obtain rfl := Option.some.inj (hstep.symm.trans hstep')
      exact hlow.of_keeps hkeeps

end runs

/-! ### What the removal takes down -/

section removal

variable {P : Set ℕ → Ownership A} {slabAlloc : Machine A → ℕ × Machine A} {slabFree : ℕ → Machine A → Machine A}
  {allocPage : Machine A → ℕ × Machine A} {buddyFreePages : ℕ → ℕ → Machine A → Machine A}
  {allocFrame : Machine A → ℕ × Machine A} {roots F T : Set ℕ}

/-- The region `r`, its pages and the frames behind them are gone, and nothing else has changed. -/
structure TakesDown (roots : Set ℕ) (c c' : Run (Ledger A)) (pml4 r : ℕ) : Prop where
  registered : ∀ p q, Registered c'.state p q ↔ Registered c.state p q ∧ q ≠ r
  range : ∀ q, (c'.state.regions q).start = (c.state.regions q).start ∧
    (c'.state.regions q).stop = (c.state.regions q).stop
  flags : ∀ q, (c'.state.regions q).flags = (c.state.regions q).flags
  unmapped : ∀ v, (c.state.regions r).contains v = true → translate c'.state.machine.mem pml4 v = none
  freed : ∃ frames : List ℕ, frames.Nodup ∧
    c'.state.machine.pages.freed = frames.map (fun f => (f, 0)) ++ c.state.machine.pages.freed ∧
    ∀ f, f ∈ frames ↔ ∃ v fl, (c.state.regions r).contains v = true ∧
      translate c.state.machine.mem pml4 v = some (f, fl)
  others : ∀ p ∈ roots, ∀ w, (p = pml4 → ∀ v, (c.state.regions r).contains v = true → vpn w ≠ vpn v) →
    translate c'.state.machine.mem p w = translate c.state.machine.mem p w

/-- In every run on address spaces that are empty at first, whose regions lie below `2 ^ 47`: the removal of a region
takes it down with its pages and the frames behind them. -/
theorem removal_takes_down (hslab : RegionCache P slabAlloc slabFree) (hpage : ∀ R, (P R).Allocator allocPage)
    (hframe : ∀ R, (P R).Allocator allocFrame) (hfree : ∀ R, (P R).Freer fun f => buddyFreePages f 0)
    (hphysical : ∀ R, (P R).Physical) {s₀ : State A} (hempty : Unmapped (P ∅) s₀.machine roots F T) {ops : List Op}
    (h : Guarded (recordedStep slabAlloc slabFree allocPage buddyFreePages allocFrame)
      (fun c op => InSpaces roots c op ∧ EndsLow (Ledger.alloc slabAlloc) c op) (boot s₀.recorded) ops) :
    ∃ c, exec (recordedStep slabAlloc slabFree allocPage buddyFreePages allocFrame) (boot s₀.recorded) ops = some c ∧
      ∀ pml4 ∈ roots, ∀ r start, Registered c.state pml4 r → (c.state.regions r).start = alignDown start →
        ∃ c', recordedStep slabAlloc slabFree allocPage buddyFreePages allocFrame c (.unregister pml4 start) = some c' ∧
          TakesDown roots c c' pml4 r := by
  have hslab' := hslab.ledger
  have hfree' : ∀ R, (P R).ledger.Freer fun f => Ledger.free buddyFreePages f 0 := fun R => (hfree R).ledger
  have hempty' : Unmapped ((fun R => (P R).ledger) ∅) s₀.recorded.machine roots F T := hempty.ledger
  have hlow₀ : Low (boot s₀.recorded) := by
    rintro p r ⟨i, hi, -⟩
    exact absurd hi (Nat.not_lt_zero i)
  obtain ⟨c, hexec, hiso, hlow⟩ := exec_total
    (low_step hslab' (fun R => (hpage R).ledger) (fun R => (hframe R).ledger) hfree'
      fun R => Ownership.Physical.ledger (hphysical R))
    ⟨isolated_boot hempty', hlow₀⟩ h
  refine ⟨c, hexec, fun pml4 hroot r start hr hstart => ?_⟩
  obtain ⟨L, g, R, hsound, hsole⟩ := hiso
  obtain ⟨s', L', g', R', hcall, -, hres⟩ :=
    hsound.unregister hslab' hfree' hroot start fun _ _ _ v _ => hsole pml4 hroot v
  obtain ⟨s'', -, hcall', -, -, hmachine⟩ :=
    @Inv.unregister (Ledger A) (fun r => Ledger.act (slabFree r)) (fun f => Ledger.free buddyFreePages f 0) c.state L
      hsound.regions pml4 start
  obtain rfl := Option.some.inj (hcall.symm.trans hcall')
  refine ⟨⟨s', c.accepted⟩, by rw [recordedStep, step, hcall, Option.map_some], ?_⟩
  rcases hres with ⟨-, -, hnone⟩ | ⟨q, hunregs, hun⟩
  · exact absurd hstart (hnone r hr)
  -- the region that starts there is `r`
  obtain rfl := hlow.eq_of_start hsound.regions hunregs.found hr (hunregs.start_eq.trans hstart.symm)
  have haligned : (c.state.regions q).start % 4096 = 0 := by
    rw [hstart]
    exact alignDown_mod start
  have hpages : ∀ v ∈ pagesOf (c.state.regions q), v % 4096 = 0 := by
    intro v hv
    obtain ⟨-, i, rfl⟩ := mem_pagesOf hv
    omega
  have hapart : (pagesOf (c.state.regions q)).Pairwise fun v w => vpn v ≠ vpn w :=
    pagesOf_pairwise haligned ((hlow pml4 q hr).2.trans (by norm_num))
  have hafter : s'.machine = Ledger.act (slabFree q) ((pagesOf (c.state.regions q)).foldl
      (unmapPage (fun f => Ledger.free buddyFreePages f 0) pml4) c.state.machine) := by
    rcases hmachine with ⟨-, -, hnone⟩ | ⟨q', hunregs', hm⟩
    · exact absurd hstart (hnone q hr)
    · obtain rfl := hlow.eq_of_start hsound.regions hunregs'.found hr (hunregs'.start_eq.trans hstart.symm)
      exact hm
  have hfreed := freed_unmapPages (hfree' R) hroot hpages hapart hsound.backed hsole
  refine ⟨hunregs.registered, hunregs.range, hunregs.flags, fun v hv => ?_, ?_, fun p hp w hw => ?_⟩
  · obtain ⟨v', hv', hdiv⟩ := exists_mem_pagesOf haligned hv
    exact hun.gone v' hv' v (vpn_eq_of_div hdiv)
  · refine ⟨((pagesOf (c.state.regions q)).filterMap (Cow.frameAt c.state.machine.mem pml4)).reverse, ?_, ?_,
      fun f => ?_⟩
    · exact List.nodup_reverse.mpr (framesOf_nodup hsole hroot hapart)
    · rw [List.map_reverse, ← hfreed, hafter]
      rfl
    · rw [List.mem_reverse]
      exact mem_framesOf haligned
  · refine hun.other p hp w ?_
    rintro ⟨rfl, v, hv, hvpn⟩
    exact hw rfl v (mem_pagesOf hv).1 hvpn

end removal

/-! ### Two regions of one address space -/

/-- Two regions, of which three pages are touched; one of the regions is removed at an address on its first page. -/
def removalRun : List Op :=
  [.register 0x1000 0x400000 0x3000 3, .register 0x1000 0x404000 0x1000 1, .handleFault 0x1000 0x400123,
    .handleFault 0x1000 0x402000]

/-- A region with mapped pages is removed. -/
theorem removal_takes_down_sample : ∃ c, exec (recordedStep popFree pushFree popFree (fun f _ => pushFree f) popFree)
      (boot freePages.recorded) removalRun = some c ∧
    ∀ pml4 ∈ ({0x1000} : Set ℕ), ∀ r start, Registered c.state pml4 r → (c.state.regions r).start = alignDown start →
      ∃ c', recordedStep popFree pushFree popFree (fun f _ => pushFree f) popFree c (.unregister pml4 start) = some c' ∧
        TakesDown {0x1000} c c' pml4 r :=
  removal_takes_down stackBeside_regionCache stackBeside_allocator stackBeside_allocator stackBeside_freer
    stackBeside_physical unmapped_freePages (guarded_of_mem (fun a ha _ => by
      simp only [removalRun, List.mem_cons, List.not_mem_nil, or_false] at ha
      rcases ha with rfl | rfl | rfl | rfl
      · exact ⟨rfl, fun _ => by norm_num⟩
      · exact ⟨rfl, fun _ => by norm_num⟩
      · exact ⟨rfl, trivial⟩
      · exact ⟨rfl, trivial⟩) _)

end PrometheusKernel.DemandPaging
