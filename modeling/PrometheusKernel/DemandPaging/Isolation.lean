import PrometheusKernel.DemandPaging.Calls

/-!
# Regions that are apart

Registrations keep regions apart as sets of 64-bit addresses. A page table is indexed with bits 12 to 47, so two regions
of one address space are isolated from each other if no page of one agrees with a page of the other in these bits
(`regions_isolated`). Regions whose distance is a multiple of `2 ^ 48` share their pages (`pages_shared`).

The invariant `Isolated` does not speak of distances: no frame backs two pages, in whatever regions they are.
-/

namespace PrometheusKernel.DemandPaging

open ByteMem LinkedList Vmm TableTree Interleaving

/-! ### Runs -/

/-- Address spaces that map nothing. -/
structure Unmapped {A : Type} (P : Ownership A) (m : Machine A) (roots F T : Set ℕ) : Prop where
  owns : P.Owns m F
  tables : Tables m.mem roots T
  subset : T ⊆ F
  unmapped : ∀ r ∈ roots, ∀ v, translate m.mem r v = none

/-- Calls on the address spaces `roots`. -/
def InSpaces {A : Type} (roots : Set ℕ) (_ : Run A) (op : Op) : Prop := op.table ∈ roots

variable {A : Type} {P : Set ℕ → Ownership A} {slabAlloc : Machine A → ℕ × Machine A}
  {slabFree : ℕ → Machine A → Machine A} {allocPage : Machine A → ℕ × Machine A}
  {freePage : ℕ → Machine A → Machine A} {allocFrame : Machine A → ℕ × Machine A} {roots F T : Set ℕ} {c : Run A}

/-- Frames and regions are in order, and no frame backs two pages. -/
def Isolated (P : Set ℕ → Ownership A) (roots : Set ℕ) (c : Run A) : Prop :=
  ∃ L g R, Sound P (fun _ => 0) roots c.state L g R ∧ Sole c.state.machine.mem roots

/-- Without regions there is nothing to isolate. -/
theorem isolated_boot {s₀ : State A} (h : Unmapped (P ∅) s₀.machine roots F T) : Isolated P roots (boot s₀) := by
  obtain ⟨L, hinv, -⟩ := runInv_boot s₀
  have hfoot : Cow.Footing (P ∅) ⟨s₀.machine, fun _ => 0⟩ roots ⟨F, T, ∅, ∅, fun _ => [], fun _ => 0⟩ :=
    ⟨h.owns, h.tables, Cow.refs_init _, h.subset, Set.empty_subset _, Set.empty_subset _, fun _ _ hr => hr,
      fun _ hd => absurd hd (Set.notMem_empty _), fun _ hd => absurd hd (Set.notMem_empty _)⟩
  refine ⟨L, _, ∅, ⟨hinv, ⟨hfoot, fun r hr w f fl ht => ?_⟩, fun p r hr => ?_⟩, fun r hr v f fl ht => ?_⟩
  · exact absurd ((h.unmapped r hr w).symm.trans ht) nofun
  · obtain ⟨i, hi, -⟩ := hr
    exact absurd hi (Nat.not_lt_zero i)
  · exact absurd ((h.unmapped r hr v).symm.trans ht) nofun

section calls

variable (hslab : RegionCache P slabAlloc slabFree) (hpage : ∀ R, (P R).Allocator allocPage)
  (hframe : ∀ R, (P R).Allocator allocFrame) (hfree : ∀ R, (P R).Freer freePage) (hphysical : ∀ R, (P R).Physical)

include hpage hframe hphysical in
/-- A fault, and what it leaves alone. -/
theorem Isolated.handleFault (h : Isolated P roots c) {pml4 : ℕ} (hroot : pml4 ∈ roots) (v : ℕ) :
    ∃ c', step slabAlloc slabFree allocPage freePage allocFrame c (.handleFault pml4 v) = some c' ∧
      Isolated P roots c' ∧ Keeps c.state c'.state ∧ ∀ r ∈ roots, ∀ w, ¬ (r = pml4 ∧ vpn w = vpn (alignDown v)) →
        translate c'.state.machine.mem r w = translate c.state.machine.mem r w := by
  obtain ⟨L, g, R, hsound, hsole⟩ := h
  obtain ⟨code, s', g', hcall, hsound', hkeeps, htrans⟩ := hsound.handleFault hpage hframe hphysical hroot v
  refine ⟨⟨s', c.accepted⟩, by rw [step, hcall, Option.map_some], ⟨L, g', R, hsound', ?_⟩, hkeeps, fun r hr w hc => ?_⟩
  · rcases htrans with hsame | ⟨f, hf, hmaps⟩
    · exact hsole.same hsame
    · refine hsole.maps hmaps fun r hr w fl' ht => hf ?_
      exact hsound.backed.footing.dF (hsound.backed.data r hr w f fl' ht)
  · rcases htrans with hsame | ⟨f, -, hmaps⟩
    · exact hsame r hr w
    · exact (hmaps r hr w).trans (if_neg hc)

include hslab hfree in
/-- A removal, and what it leaves alone. -/
theorem Isolated.unregister (h : Isolated P roots c) {pml4 : ℕ} (hroot : pml4 ∈ roots) (start : ℕ) :
    ∃ c', step slabAlloc slabFree allocPage freePage allocFrame c (.unregister pml4 start) = some c' ∧
      Isolated P roots c' ∧ (Keeps c.state c'.state ∧ c'.state.machine = c.state.machine ∨
        ∃ r, Unregisters c.state c'.state pml4 start r ∧
          UnmapsPages roots pml4 (pagesOf (c.state.regions r)) c.state.machine.mem c'.state.machine.mem) := by
  obtain ⟨L, g, R, hsound, hsole⟩ := h
  obtain ⟨s', L', g', R', hcall, hsound', hres⟩ :=
    hsound.unregister hslab hfree hroot start fun _ _ _ v _ => hsole pml4 hroot v
  refine ⟨⟨s', c.accepted⟩, by rw [step, hcall, Option.map_some], ⟨L', g', R', hsound', ?_⟩, ?_⟩
  · rcases hres with ⟨-, hmachine, -⟩ | ⟨r, -, hun⟩
    · show Sole s'.machine.mem roots
      rw [hmachine]
      exact hsole
    · exact hsole.unmaps hun
  · rcases hres with ⟨hkeeps, hmachine, -⟩ | hun
    · exact Or.inl ⟨hkeeps, hmachine⟩
    · exact Or.inr hun

include hslab hpage hframe hfree hphysical in
/-- Every call keeps the regions isolated. -/
theorem isolated_step (c : Run A) (op : Op) (h : Isolated P roots c) (hop : InSpaces roots c op) :
    ∃ c', step slabAlloc slabFree allocPage freePage allocFrame c op = some c' ∧ Isolated P roots c' := by
  cases op with
  | register pml4 start size flags =>
      obtain ⟨L, g, R, hsound, hsole⟩ := h
      obtain ⟨code, s', L', R', hcall, hsound', hsame, -⟩ := hsound.register hslab pml4 start size flags
      refine ⟨⟨s', if code = 0 then (start, size) :: c.accepted else c.accepted⟩, ?_, L', g, R', hsound',
        hsole.same hsame⟩
      rw [step, hcall, Option.map_some]
  | unregister pml4 start =>
      obtain ⟨c', hstep, hc', -⟩ :=
        @Isolated.unregister A P slabAlloc slabFree allocPage freePage allocFrame roots c hslab hfree h pml4 hop start
      exact ⟨c', hstep, hc'⟩
  | findRegion pml4 v =>
      obtain ⟨L, g, R, hsound, hsole⟩ := h
      obtain ⟨r, s', hcall, hsound', -, hmachine⟩ := hsound.findRegion pml4 v
      refine ⟨⟨s', c.accepted⟩, by rw [step, hcall, Option.map_some], L, g, R, hsound', ?_⟩
      show Sole s'.machine.mem roots
      rw [hmachine]
      exact hsole
  | handleFault pml4 v =>
      obtain ⟨c', hstep, hc', -⟩ :=
        @Isolated.handleFault A P slabAlloc slabFree allocPage freePage allocFrame roots c hpage hframe hphysical h pml4
          hop v
      exact ⟨c', hstep, hc'⟩

end calls

/-! ### Two regions -/

/-- No page of one region has the number of a page of the other. -/
def PagesApart (r q : Region) : Prop := ∀ v w, r.contains v = true → q.contains w = true → vpn v ≠ vpn w

/-- The pages of the region translate as before. -/
def KeepsPages (q : Region) (pml4 : ℕ) (m m' : Mem) : Prop :=
  ∀ w, q.contains w = true → vmmGetPhysicalAddress m' pml4 w = vmmGetPhysicalAddress m pml4 w

/-- A fault in the region `r` and the removal of `r` leave the pages of `q` alone, and no frame backs pages of both. -/
structure IsolatedFrom (slabAlloc : Machine A → ℕ × Machine A) (slabFree : ℕ → Machine A → Machine A)
    (allocPage : Machine A → ℕ × Machine A) (freePage : ℕ → Machine A → Machine A)
    (allocFrame : Machine A → ℕ × Machine A) (c : Run A) (pml4 r q : ℕ) : Prop where
  fault : ∀ v, (c.state.regions r).contains (alignDown v) = true →
    ∃ c', step slabAlloc slabFree allocPage freePage allocFrame c (.handleFault pml4 v) = some c' ∧
      KeepsPages (c.state.regions q) pml4 c.state.machine.mem c'.state.machine.mem
  removal : ∀ start,
    ∃ c', step slabAlloc slabFree allocPage freePage allocFrame c (.unregister pml4 start) = some c' ∧
      (¬ Registered c'.state pml4 r → KeepsPages (c.state.regions q) pml4 c.state.machine.mem c'.state.machine.mem)
  frames : ∀ v w f fl fl', (c.state.regions r).contains v = true → (c.state.regions q).contains w = true →
    translate c.state.machine.mem pml4 v = some (f, fl) → translate c.state.machine.mem pml4 w ≠ some (f, fl')

/-- Translations that stay keep the pages of a region. -/
theorem keepsPages_of_translate {q : Region} {pml4 : ℕ} {m m' : Mem}
    (h : ∀ w, q.contains w = true → translate m' pml4 w = translate m pml4 w) : KeepsPages q pml4 m m' := by
  intro w hw
  rw [vmmGetPhysicalAddress_eq, vmmGetPhysicalAddress_eq, h w hw]

/-- In every run on address spaces that are empty at first: two regions whose pages have different numbers are isolated
from each other. -/
theorem regions_isolated (hslab : RegionCache P slabAlloc slabFree) (hpage : ∀ R, (P R).Allocator allocPage)
    (hframe : ∀ R, (P R).Allocator allocFrame) (hfree : ∀ R, (P R).Freer freePage)
    (hphysical : ∀ R, (P R).Physical) {s₀ : State A} (hempty : Unmapped (P ∅) s₀.machine roots F T) {ops : List Op}
    (h : Guarded (step slabAlloc slabFree allocPage freePage allocFrame) (InSpaces roots) (boot s₀) ops) :
    ∃ c, exec (step slabAlloc slabFree allocPage freePage allocFrame) (boot s₀) ops = some c ∧
      ∀ pml4 ∈ roots, ∀ r q, Registered c.state pml4 r → Registered c.state pml4 q →
        PagesApart (c.state.regions r) (c.state.regions q) →
        IsolatedFrom slabAlloc slabFree allocPage freePage allocFrame c pml4 r q := by
  obtain ⟨c, hexec, hiso⟩ := exec_total (isolated_step hslab hpage hframe hfree hphysical) (isolated_boot hempty) h
  refine ⟨c, hexec, fun pml4 hroot r q hr hq hapart => ⟨fun v hv => ?_, fun start => ?_, ?_⟩⟩
  · obtain ⟨c', hstep, -, -, hsame⟩ := hiso.handleFault hpage hframe hphysical hroot v
    refine ⟨c', hstep, keepsPages_of_translate fun w hw => hsame pml4 hroot w ?_⟩
    rintro ⟨-, hvpn⟩
    exact hapart _ w hv hw hvpn.symm
  · obtain ⟨c', hstep, -, hres⟩ := hiso.unregister hslab hfree hroot start
    refine ⟨c', hstep, fun hgone => keepsPages_of_translate fun w hw => ?_⟩
    rcases hres with ⟨hkeeps, -⟩ | ⟨r', hunregs, hun⟩
    · exact absurd ((hkeeps.registered pml4 r).mpr hr) hgone
    · -- the region that was removed is `r`
      obtain rfl : r = r' := by
        by_contra hne
        exact hgone ((hunregs.registered pml4 r).mpr ⟨hr, hne⟩)
      refine hun.other pml4 hroot w ?_
      rintro ⟨-, v, hv, hvpn⟩
      exact hapart v w (mem_pagesOf hv).1 hw hvpn.symm
  · intro v w f fl fl' hv hw ht ht'
    obtain ⟨L, g, R, -, hsole⟩ := hiso
    obtain ⟨-, hvpn⟩ := hsole pml4 hroot v f fl ht pml4 hroot w fl' ht'
    exact hapart v w hv hw hvpn.symm

/-! ### Two regions of one address space -/

/-- `freePages` with the address space `0x1000`. -/
theorem unmapped_freePages : Unmapped (stackBeside ∅) freePages.machine {0x1000} {0x1000} {0x1000} := by
  have hframe : IsFrame 0x1000 := ⟨by decide, by decide, by decide⟩
  obtain ⟨htables, hnone⟩ := tables_root (m := fun _ => 0) hframe fun _ _ => rfl
  refine ⟨⟨⟨?_, by decide, ?_⟩, fun r hr => absurd hr (Set.notMem_empty r)⟩, htables, subset_rfl, ?_⟩
  · rintro f rfl
    exact hframe
  · intro f hf
    have hcases : f = 0x100000 ∨ f = 0x101000 ∨ f = 0x102000 ∨ f = 0x103000 ∨ f = 0x104000 ∨ f = 0x105000 ∨
        f = 0x106000 := by simpa [freePages] using hf
    rcases hcases with rfl | rfl | rfl | rfl | rfl | rfl | rfl
    all_goals exact ⟨⟨by decide, by decide, by decide⟩, fun hcon => absurd hcon (by decide)⟩
  · rintro r rfl v
    exact hnone v

/-- Two regions and a fault in the first one. -/
theorem regions_isolated_sample : ∃ c, exec (step popFree pushFree popFree pushFree popFree) (boot freePages)
      [.register 0x1000 0x400000 0x2000 1, .register 0x1000 0x402000 0x1000 3, .handleFault 0x1000 0x400123] = some c ∧
    ∀ pml4 ∈ ({0x1000} : Set ℕ), ∀ r q, Registered c.state pml4 r → Registered c.state pml4 q →
      PagesApart (c.state.regions r) (c.state.regions q) →
      IsolatedFrom popFree pushFree popFree pushFree popFree c pml4 r q :=
  regions_isolated stackBeside_regionCache stackBeside_allocator stackBeside_allocator stackBeside_freer
    stackBeside_physical unmapped_freePages (guarded_of_mem (fun a ha _ => by
      simp only [List.mem_cons, List.not_mem_nil, or_false] at ha
      rcases ha with rfl | rfl | rfl <;> rfl) _)

/-- Two regions whose distance is `2 ^ 48`. -/
def farApart : List Op := [.register 0x1000 0x400000 0x1000 1, .register 0x1000 0x1000000400000 0x1000 1]

/-- Two regions that agree in bits 47 to 12 share their pages. -/
theorem pages_shared :
    ¬ ∀ (P : Set ℕ → Ownership (List ℕ)) (slabAlloc : Machine (List ℕ) → ℕ × Machine (List ℕ))
      (slabFree : ℕ → Machine (List ℕ) → Machine (List ℕ)) (allocPage : Machine (List ℕ) → ℕ × Machine (List ℕ))
      (freePage : ℕ → Machine (List ℕ) → Machine (List ℕ)) (allocFrame : Machine (List ℕ) → ℕ × Machine (List ℕ))
      (roots F T : Set ℕ) (s₀ : State (List ℕ)) (ops : List Op) (c : Run (List ℕ)), RegionCache P slabAlloc slabFree →
        (∀ R, (P R).Allocator allocPage) → (∀ R, (P R).Allocator allocFrame) → (∀ R, (P R).Freer freePage) →
        (∀ R, (P R).Physical) → Unmapped (P ∅) s₀.machine roots F T →
        Guarded (step slabAlloc slabFree allocPage freePage allocFrame) (InSpaces roots) (boot s₀) ops →
        exec (step slabAlloc slabFree allocPage freePage allocFrame) (boot s₀) ops = some c →
        ∀ pml4 ∈ roots, ∀ r q, r ≠ q → Registered c.state pml4 r → Registered c.state pml4 q →
          IsolatedFrom slabAlloc slabFree allocPage freePage allocFrame c pml4 r q := by
  intro hclaim
  have hrun : (exec (step popFree pushFree popFree pushFree popFree) (boot freePages) farApart).map (fun c =>
      (decide (c.state.addressSpaceCount = 1 ∧ (c.state.addressSpaces 0).pml4 = 0x1000 ∧
        (c.state.addressSpaces 0).regions = 0x101000), c.state.regions 0x100000, c.state.regions 0x101000,
        vmmGetPhysicalAddress c.state.machine.mem 0x1000 0x1000000400000))
      = some (true, ⟨0x400000, 0x401000, 1, 0⟩, ⟨0x1000000400000, 0x1000000401000, 1, 0x100000⟩, 0) := by
    decide +kernel
  have hfault : (exec (step popFree pushFree popFree pushFree popFree) (boot freePages)
      (farApart ++ [.handleFault 0x1000 0x400000])).map (fun c =>
        vmmGetPhysicalAddress c.state.machine.mem 0x1000 0x1000000400000) = some 0x102000 := by
    delta step demandPagingHandleFault lockedFault vmmMapPage ptFor getOrAlloc
    simp only [clearTable_eq]
    decide +kernel
  obtain ⟨c, hexec, hvals⟩ := Option.map_eq_some_iff.mp hrun
  obtain ⟨hslots, hfirst, hsecond, hbefore⟩ := by simpa only [Prod.mk.injEq] using hvals
  obtain ⟨hcount, hpml4, hhead⟩ := of_decide_eq_true hslots
  have hlist : IsList c.state.next [0x101000, 0x100000] (c.state.addressSpaces 0).regions := by
    rw [hhead]
    refine ⟨rfl, by decide, ?_⟩
    show IsList c.state.next [0x100000] (c.state.regions 0x101000).next
    rw [hsecond]
    refine ⟨rfl, by decide, ?_⟩
    show (c.state.regions 0x100000).next = 0
    rw [hfirst]
  have hreg : ∀ r ∈ [0x101000, 0x100000], Registered c.state 0x1000 r :=
    fun r hr => ⟨0, by omega, hpml4, [0x101000, 0x100000], hlist, hr⟩
  have hiso := hclaim stackBeside popFree pushFree popFree pushFree popFree {0x1000} {0x1000} {0x1000} freePages
    farApart c stackBeside_regionCache stackBeside_allocator stackBeside_allocator stackBeside_freer
    stackBeside_physical unmapped_freePages (guarded_of_mem (fun a ha _ => by
      simp only [farApart, List.mem_cons, List.not_mem_nil, or_false] at ha
      rcases ha with rfl | rfl <;> rfl) _) hexec 0x1000 rfl 0x100000 0x101000 (by decide) (hreg _ (by decide))
    (hreg _ (by decide))
  obtain ⟨c', hstep, hkeeps⟩ := hiso.fault 0x400000 (by rw [hfirst]; decide)
  have hexec' : exec (step popFree pushFree popFree pushFree popFree) (boot freePages)
      (farApart ++ [.handleFault 0x1000 0x400000]) = some c' := (exec_concat hexec).trans hstep
  rw [hexec', Option.map_some] at hfault
  have hafter := hkeeps 0x1000000400000 (by rw [hsecond]; decide)
  rw [hbefore, Option.some.inj hfault] at hafter
  exact absurd hafter (by decide)

end PrometheusKernel.DemandPaging
