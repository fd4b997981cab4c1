import PrometheusKernel.DemandPaging.Handling
import PrometheusKernel.DemandPaging.Isolation
import PrometheusKernel.FreeRecord

/-!
# Demand-paged frames that are shared

A demand-paged frame is shared by mapping it a second time and marking both pages copy-on-write: `cow.c` then counts
the pages that map it. `demand_paging_unregister_region` does not ask for that count. It gives back every frame that it
unmaps, also one that another address space still maps (`shared_frame_freed`). A removal of a region each of whose
frames backs one page is sound: in a run with such removals only, no frame that was given back and not handed out since
is mapped (`freed_unmapped`).
-/

namespace PrometheusKernel.DemandPaging.Sharing

open ByteMem LinkedList Vmm TableTree Interleaving

/-! ### Calls -/

/-- The state of demand paging and `cow_hash_table`. -/
structure Config (A : Type) where
  state : State (FreeRecord A)
  hashTable : ℕ → ℕ

/-- Calls on any address spaces. -/
inductive Op
  | register (pml4 start size flags : ℕ)
  | handleFault (pml4 virtAddr : ℕ)
  /-- The frame behind the page of `virtAddr` in `src` is mapped at `virt` in `dst`, and both pages are marked. -/
  | share (src virtAddr dst virt flags : ℕ)
  | cowFault (pml4 virtAddr : ℕ)
  | unregister (pml4 start : ℕ)

variable {A : Type}

/-- The part that `cow.c` works on. -/
def Config.cow (c : Config A) : Cow.State (FreeRecord A) := { toMachine := c.state.machine, hashTable := c.hashTable }

/-- What `cow.c` leaves. -/
def Config.setCow (c : Config A) (s : Cow.State (FreeRecord A)) : Config A :=
  ⟨{ c.state with machine := s.toMachine }, s.hashTable⟩

section steps

variable (slabAlloc : Machine (FreeRecord A) → ℕ × Machine (FreeRecord A))
  (slabFree : ℕ → Machine (FreeRecord A) → Machine (FreeRecord A)) (allocPage allocRef : Machine A → ℕ × Machine A)
  (freePage : ℕ → Machine A → Machine A) (allocFrame : Machine A → ℕ × Machine A)

/-- `vmm_map_page` of the frame behind a page, and `cow_mark_page` on both pages. -/
def share (c : Config A) (src virtAddr dst virt flags : ℕ) : Option (Config A) :=
  let phys := vmmGetPhysicalAddress c.state.machine.mem src (alignDown virtAddr)
  if phys = 0 then some c
  else do
    let machine := vmmMapPage (FreeRecord.alloc allocFrame) c.state.machine dst virt phys flags
    let (_, s) ← Cow.cowMarkPage (FreeRecord.alloc allocRef) { c.cow with toMachine := machine } src virtAddr
    let (_, s) ← Cow.cowMarkPage (FreeRecord.alloc allocRef) s dst virt
    some (c.setCow s)

/-- One call; `none` is one that does not return. -/
def step (c : Config A) : Op → Option (Config A)
  | .register pml4 start size flags =>
      (demandPagingRegisterRegion slabAlloc c.state pml4 start size flags).map fun res => { c with state := res.2 }
  | .handleFault pml4 virtAddr =>
      (demandPagingHandleFault (FreeRecord.alloc allocPage) (FreeRecord.alloc allocFrame) c.state pml4 virtAddr).map
        fun res => { c with state := res.2 }
  | .share src virtAddr dst virt flags => share allocRef allocFrame c src virtAddr dst virt flags
  | .cowFault pml4 virtAddr =>
      (Cow.cowHandleFault (FreeRecord.alloc allocRef) c.cow pml4 virtAddr).map fun res => c.setCow res.2
  | .unregister pml4 start =>
      (demandPagingUnregisterRegion slabFree (FreeRecord.free freePage) c.state pml4 start).map fun s =>
        { c with state := s }

end steps

/-- Calls on the address spaces `roots`. -/
def InSpaces (roots : Set ℕ) (_ : Config A) : Op → Prop
  | .register _ _ _ _ => True
  | .handleFault pml4 _ => pml4 ∈ roots
  | .share src _ dst _ _ => src ∈ roots ∧ dst ∈ roots
  | .cowFault pml4 _ => pml4 ∈ roots
  | .unregister pml4 _ => pml4 ∈ roots

/-- No frame that is mapped in a region backs another page when the region is removed. -/
def Unshared (roots : Set ℕ) (c : Config A) : Op → Prop
  | .unregister pml4 start => ∀ r, Registered c.state pml4 r → (c.state.regions r).start = alignDown start →
      ∀ v ∈ pagesOf (c.state.regions r), Alone c.state.machine.mem roots pml4 v
  | _ => True

/-- After `demand_paging_init` and `cow_init`. -/
def start (s : State A) : Config A :=
  ⟨demandPagingInit ⟨FreeRecord.start s.machine, s.addressSpaces, s.addressSpaceCount, s.regions⟩, fun _ => 0⟩

/-- No frame that was given back and not handed out since is mapped. -/
def FreedUnmapped (roots : Set ℕ) (c : Config A) : Prop :=
  ∀ f ∈ c.state.machine.pages.freed, ∀ r ∈ roots, ∀ w fl, translate c.state.machine.mem r w ≠ some (f, fl)

/-! ### What each call preserves -/

section invariant

variable {P : Set ℕ → Ownership A} {slabAlloc : Machine (FreeRecord A) → ℕ × Machine (FreeRecord A)}
  {slabFree : ℕ → Machine (FreeRecord A) → Machine (FreeRecord A)} {allocPage allocRef : Machine A → ℕ × Machine A}
  {freePage : ℕ → Machine A → Machine A} {allocFrame : Machine A → ℕ × Machine A} {roots F T : Set ℕ} {c : Config A}

/-- Frames, reference entries and regions are in order, and no frame of the record is held. -/
def Inv (P : Set ℕ → Ownership A) (roots : Set ℕ) (c : Config A) : Prop :=
  ∃ L g R, Sound (fun R => (P R).freeRecord) c.hashTable roots c.state L g R

/-- Mapped frames are held. -/
theorem Inv.freedUnmapped (h : Inv P roots c) : FreedUnmapped roots c := by
  obtain ⟨L, g, R, hsound⟩ := h
  intro f hf r hr w fl ht
  have hD := hsound.backed.data r hr w f fl ht
  exact hsound.backed.footing.owns.2 f hf (hsound.backed.footing.dF hD)

/-- A call of `cow.c` that keeps the frames in order. -/
theorem setCow_sound {L : ℕ → List ℕ} {g g' : Cow.Ghost} {R : Set ℕ}
    (h : Sound (fun R => (P R).freeRecord) c.hashTable roots c.state L g R) {s : Cow.State (FreeRecord A)}
    (hback : Backed (P R).freeRecord s roots g') : Inv P roots (c.setCow s) :=
  ⟨L, g', R, h.regions.machine s.toMachine, hback, h.handed⟩

/-- The invariant holds at the start. -/
theorem inv_start {s₀ : State A} (h : Unmapped (P ∅) s₀.machine roots F T) : Inv P roots (start s₀) := by
  let s₁ : State (FreeRecord A) :=
    ⟨FreeRecord.start s₀.machine, s₀.addressSpaces, s₀.addressSpaceCount, s₀.regions⟩
  have hempty : Unmapped ((fun R => (P R).freeRecord) ∅) s₁.machine roots F T :=
    ⟨⟨h.owns, fun f hf => absurd hf List.not_mem_nil⟩, h.tables, h.subset, h.unmapped⟩
  have hboot : Isolated (fun R => (P R).freeRecord) roots (boot s₁) := isolated_boot hempty
  obtain ⟨L, g, R, hsound, -⟩ := hboot
  exact ⟨L, g, R, hsound⟩

section calls

variable {Q : Ownership (FreeRecord A)} {alloc : Machine (FreeRecord A) → ℕ × Machine (FreeRecord A)}
  {s : Cow.State (FreeRecord A)} {g : Cow.Ghost} {pml4 : ℕ}

/-- `vmm_map_page` of a data frame. -/
theorem mapData (h : Backed Q s roots g) (halloc : Q.Allocator alloc) (hroot : pml4 ∈ roots) {f : ℕ} (hf : f ∈ g.D)
    (virt flags : ℕ) :
    ∃ g', Backed Q { s with toMachine := vmmMapPage alloc s.toMachine pml4 virt f flags } roots g' := by
  obtain ⟨hfail, hok⟩ := h.footing.mapPage halloc hroot virt f flags
  by_cases hpt : (ptFor alloc s.toMachine pml4 virt).1 = 0
  · obtain ⟨g', hs', -⟩ := hfail hpt
    exact ⟨g', h.unchanged hs'⟩
  · obtain ⟨g', hs', hD, -⟩ := hok hpt
    rw [and_frameMask_of_isFrame (h.footing.isFrame (h.footing.dF hf))] at hs'
    exact ⟨g', h.remapped hs' hD.ge (hD ▸ hf)⟩

/-- `cow_mark_page` does not change what a page is mapped to. -/
theorem markPage (h : Backed Q s roots g) (halloc : Q.Allocator alloc) (hroot : pml4 ∈ roots) (v : ℕ) :
    ∃ res g', Cow.cowMarkPage alloc s pml4 v = some res ∧ Backed Q res.2 roots g' := by
  rcases Cow.cowMarkPage_spec h.footing halloc hroot v with
    ⟨s', g', hcall, hs', -⟩ | ⟨f, fl, s', g', fl', ht, hcall, -, hs', hD, -⟩
  · exact ⟨(-1, s'), g', hcall, h.unchanged hs'⟩
  · exact ⟨(0, s'), g', hcall, h.remapped hs' hD.ge (hD ▸ h.data pml4 hroot v f fl ht)⟩

/-- `cow_handle_fault` keeps the frame of the page or maps a new one. -/
theorem cowFault (h : Backed Q s roots g) (halloc : Q.Allocator alloc) (hroot : pml4 ∈ roots) (v : ℕ) :
    ∃ res g', Cow.cowHandleFault alloc s pml4 v = some res ∧ Backed Q res.2 roots g' := by
  cases ht : translate s.mem pml4 v with
  | none => exact ⟨(-1, s), g, Cow.cowHandleFault_of_unmapped h.footing hroot ht, h⟩
  | some e =>
      obtain ⟨f, fl⟩ := e
      have hf := h.data pml4 hroot v f fl ht
      have hcall := Cow.cowHandleFault_spec h.footing halloc hroot ht
      generalize Cow.cowHandleFault alloc s pml4 v = call at hcall
      cases hcall with
      | fails s' g' unchanged => exact ⟨(-1, s'), g', rfl, h.unchanged unchanged⟩
      | upgrades s' g' fl' _ _ _ remapped D_eq => exact ⟨(0, s'), g', rfl, h.remapped remapped D_eq.ge (D_eq ▸ hf)⟩
      | copies s' g' f' fl' _ _ _ remapped _ D_eq =>
          refine ⟨(0, s'), g', rfl, h.remapped remapped ?_ ?_⟩
          · rw [D_eq]
            exact Set.subset_insert f' g.D
          · rw [D_eq]
            exact Set.mem_insert f' g.D

end calls

/-- Sharing a page keeps the invariant. -/
theorem Inv.share (h : Inv P roots c) (href : ∀ R, (P R).Allocator allocRef) (hframe : ∀ R, (P R).Allocator allocFrame)
    {src dst : ℕ} (hsrc : src ∈ roots) (hdst : dst ∈ roots) (virtAddr virt flags : ℕ) :
    ∃ c', Sharing.share allocRef allocFrame c src virtAddr dst virt flags = some c' ∧ Inv P roots c' := by
  obtain ⟨L, g, R, hsound⟩ := h
  have hback : Backed (P R).freeRecord c.cow roots g := hsound.backed
  have halloc := (href R).freeRecord
  unfold Sharing.share
  dsimp only
  by_cases h0 : vmmGetPhysicalAddress c.state.machine.mem src (alignDown virtAddr) = 0
  · rw [if_pos h0]
    exact ⟨c, rfl, L, g, R, hsound⟩
  rw [if_neg h0]
  -- the frame behind the page is a data frame
  obtain ⟨f, hphys, hf⟩ :
      ∃ f, vmmGetPhysicalAddress c.state.machine.mem src (alignDown virtAddr) = f ∧ f ∈ g.D := by
    rw [vmmGetPhysicalAddress_eq] at h0 ⊢
    cases ht : translate c.state.machine.mem src (alignDown virtAddr) with
    | none =>
        rw [ht] at h0
        exact absurd rfl h0
    | some e =>
        obtain ⟨f, fl⟩ := e
        refine ⟨f, ?_, hback.data src hsrc _ f fl ht⟩
        show f ||| (alignDown virtAddr &&& 0xFFF) = f
        rw [alignDown_and, Nat.or_zero]
  rw [hphys]
  obtain ⟨g₁, h₁⟩ := mapData hback (hframe R).freeRecord hdst hf virt flags
  obtain ⟨⟨code₂, s₂⟩, g₂, hcall₂, h₂⟩ := markPage h₁ halloc hsrc virtAddr
  obtain ⟨⟨code₃, s₃⟩, g₃, hcall₃, h₃⟩ := markPage h₂ halloc hdst virt
  refine ⟨c.setCow s₃, ?_, setCow_sound hsound h₃⟩
  have hmark₂ : Cow.cowMarkPage (FreeRecord.alloc allocRef)
      { c.cow with toMachine := vmmMapPage (FreeRecord.alloc allocFrame) c.state.machine dst virt f flags } src virtAddr
        = some (code₂, s₂) := hcall₂
  simp only [hmark₂, hcall₃, Option.bind_eq_bind, Option.bind_some]

/-- A call that does not remove a shared frame. -/
theorem inv_step (hslab : RegionCache (fun R => (P R).freeRecord) slabAlloc slabFree)
    (hpage : ∀ R, (P R).Allocator allocPage) (href : ∀ R, (P R).Allocator allocRef)
    (hframe : ∀ R, (P R).Allocator allocFrame) (hfree : ∀ R, (P R).Freer freePage) (hphysical : ∀ R, (P R).Physical)
    (c : Config A) (op : Op) (h : Inv P roots c) (hop : InSpaces roots c op ∧ Unshared roots c op) :
    ∃ c', step slabAlloc slabFree allocPage allocRef freePage allocFrame c op = some c' ∧ Inv P roots c' := by
  cases op with
  | register pml4 start size flags =>
      obtain ⟨L, g, R, hsound⟩ := h
      obtain ⟨code, s', L', R', hcall, hsound', -⟩ := hsound.register hslab pml4 start size flags
      exact ⟨{ c with state := s' }, by rw [step, hcall, Option.map_some], L', g, R', hsound'⟩
  | handleFault pml4 v =>
      obtain ⟨L, g, R, hsound⟩ := h
      obtain ⟨code, s', g', hcall, hsound', -⟩ := hsound.handleFault (fun R => (hpage R).freeRecord)
        (fun R => (hframe R).freeRecord) (fun R => Ownership.Physical.freeRecord (hphysical R)) hop.1 v
      exact ⟨{ c with state := s' }, by rw [step, hcall, Option.map_some], L, g', R, hsound'⟩
  | share src v dst virt flags => exact h.share href hframe hop.1.1 hop.1.2 v virt flags
  | cowFault pml4 v =>
      obtain ⟨L, g, R, hsound⟩ := h
      obtain ⟨res, g', hcall, hback⟩ := cowFault (s := c.cow) hsound.backed (href R).freeRecord hop.1 v
      exact ⟨c.setCow res.2, by rw [step, hcall, Option.map_some], setCow_sound hsound hback⟩
  | unregister pml4 start =>
      obtain ⟨L, g, R, hsound⟩ := h
      obtain ⟨s', L', g', R', hcall, hsound', -⟩ :=
        hsound.unregister hslab (fun R => (hfree R).freeRecord) hop.1 start hop.2
      exact ⟨{ c with state := s' }, by rw [step, hcall, Option.map_some], L', g', R', hsound'⟩

/-- A page that a fault has mapped is backed by a frame of its own. -/
theorem Inv.alone_of_fault (hpage : ∀ R, (P R).Allocator allocPage) (hframe : ∀ R, (P R).Allocator allocFrame)
    (hphysical : ∀ R, (P R).Physical) (h : Inv P roots c) {pml4 v : ℕ} (hroot : pml4 ∈ roots) {c' : Config A}
    (hstep : step slabAlloc slabFree allocPage allocRef freePage allocFrame c (.handleFault pml4 v) = some c')
    (hbefore : translate c.state.machine.mem pml4 (alignDown v) = none) :
    Alone c'.state.machine.mem roots pml4 (alignDown v) := by
  obtain ⟨L, g, R, hsound⟩ := h
  obtain ⟨code, s', g', hcall, -, -, htrans⟩ := hsound.handleFault (fun R => (hpage R).freeRecord)
    (fun R => (hframe R).freeRecord) (fun R => Ownership.Physical.freeRecord (hphysical R)) hroot v
  rw [step, hcall, Option.map_some, Option.some.injEq] at hstep
  subst hstep
  intro f fl ht r hr w fl' ht'
  dsimp only at ht ht'
  rcases htrans with hsame | ⟨f', hfresh, hmaps⟩
  · rw [hsame pml4 hroot, hbefore] at ht
    exact absurd ht (Option.some_ne_none _).symm
  · rw [hmaps pml4 hroot, if_pos ⟨rfl, rfl⟩] at ht
    rw [hmaps r hr] at ht'
    by_cases hpage : r = pml4 ∧ vpn w = vpn (alignDown v)
    · exact hpage
    · -- the new frame backed no page
      rw [if_neg hpage] at ht'
      obtain ⟨rfl, -⟩ := Prod.mk.inj (Option.some.inj ht)
      exact absurd (hsound.backed.footing.dF (hsound.backed.data r hr w f' fl' ht')) hfresh

/-- In every run on address spaces that are empty at first, in which no removed region maps a frame that backs another
page: no frame that was given back and not handed out since is mapped. -/
theorem freed_unmapped (hslab : RegionCache (fun R => (P R).freeRecord) slabAlloc slabFree)
    (hpage : ∀ R, (P R).Allocator allocPage) (href : ∀ R, (P R).Allocator allocRef)
    (hframe : ∀ R, (P R).Allocator allocFrame) (hfree : ∀ R, (P R).Freer freePage) (hphysical : ∀ R, (P R).Physical)
    {s₀ : State A} (hempty : Unmapped (P ∅) s₀.machine roots F T) {ops : List Op}
    (hg : Guarded (step slabAlloc slabFree allocPage allocRef freePage allocFrame)
      (fun c op => InSpaces roots c op ∧ Unshared roots c op) (start s₀) ops) :
    ∃ c, exec (step slabAlloc slabFree allocPage allocRef freePage allocFrame) (start s₀) ops = some c ∧
      FreedUnmapped roots c := by
  obtain ⟨c, hexec, h⟩ := exec_total (inv_step hslab hpage href hframe hfree hphysical) (inv_start hempty) hg
  exact ⟨c, hexec, h.freedUnmapped⟩

end invariant

/-! ### Two address spaces -/

/-- Two address spaces that map nothing, and a stack of free pages. -/
def twoSpaces : State (List ℕ) :=
  { freePages with
    machine := ⟨fun _ => 0, [0x100000, 0x101000, 0x102000, 0x103000, 0x104000, 0x105000, 0x106000, 0x107000, 0x108000,
      0x109000, 0x10A000, 0x10B000]⟩ }

/-- The two page tables. -/
def spaces : Set ℕ := {0x1000, 0x2000}

/-- Both page tables are empty. -/
theorem unmapped_twoSpaces : Unmapped (stackBeside ∅) twoSpaces.machine spaces spaces spaces := by
  have hframe : ∀ r ∈ spaces, IsFrame r := by
    rintro r (rfl | rfl)
    · exact ⟨by decide, by decide, by decide⟩
    · exact ⟨by decide, by decide, by decide⟩
  obtain ⟨htables, hnone⟩ := tables_roots (m := fun _ => 0) hframe fun _ _ _ _ => rfl
  have hpages : ∀ f ∈ twoSpaces.machine.pages, f % 4096 = 0 ∧ 0x100000 ≤ f ∧ f < 0x200000 := by decide
  refine ⟨⟨⟨hframe, by decide, fun f hf => ?_⟩, fun r hr => absurd hr (Set.notMem_empty r)⟩, htables, subset_rfl, hnone⟩
  obtain ⟨haligned, hlo, hhi⟩ := hpages f hf
  refine ⟨⟨by omega, haligned, by omega⟩, ?_⟩
  rintro (rfl | rfl)
  · exact absurd hlo (by decide)
  · exact absurd hlo (by decide)

/-- Region structures and pages from one stack, with a record. -/
theorem stackBeside_freeRecord :
    RegionCache (fun R => (stackBeside R).freeRecord) (FreeRecord.alloc popFree) (FreeRecord.free pushFree) where
  fail hs h0 := ⟨stackBeside_regionCache.fail hs.1 h0, fun a ha => hs.2 a (FreeRecord.freed_alloc ha).1⟩
  fresh hs h0 := stackBeside_regionCache.fresh hs.1 h0
  owns hs h0 := ⟨stackBeside_regionCache.owns hs.1 h0, fun a ha => hs.2 a (FreeRecord.freed_alloc ha).1⟩
  alloc_mem hs f hf x hx := stackBeside_regionCache.alloc_mem hs.1 f hf x hx
  free := by
    intro R s F hs r hr
    refine ⟨stackBeside_regionCache.free hs.1 r hr, fun a ha => ?_⟩
    rcases List.mem_cons.mp ha with rfl | ha
    · exact (hs.1.2 a hr).2.1
    · exact hs.2 a ha
  free_mem hs r hr f hf x hx := stackBeside_regionCache.free_mem hs.1 r hr f hf x hx

/-- The calls on the stack. -/
def stackStep : Config (List ℕ) → Op → Option (Config (List ℕ)) :=
  step (FreeRecord.alloc popFree) (FreeRecord.free pushFree) popFree popFree pushFree popFree

/-- Two regions, and a page of the first is touched and shared. -/
def sharedRun : List Op :=
  [.register 0x1000 0x400000 0x1000 1, .register 0x1000 0x402000 0x1000 1, .handleFault 0x1000 0x400123,
    .share 0x1000 0x400000 0x2000 0x400000 7]

/-- The run uses the two page tables. -/
theorem inSpaces_sharedRun : ∀ op ∈ sharedRun, ∀ c : Config (List ℕ), InSpaces spaces c op := by
  have hspaces : 0x1000 ∈ spaces ∧ 0x2000 ∈ spaces := ⟨Or.inl rfl, Or.inr rfl⟩
  intro op hop c
  simp only [sharedRun, List.mem_cons, List.not_mem_nil, or_false] at hop
  rcases hop with rfl | rfl | rfl | rfl
  · trivial
  · trivial
  · exact hspaces.1
  · exact hspaces

/-- The run removes no region whose frames are shared. -/
theorem guarded_sharedRun :
    Guarded stackStep (fun c op => InSpaces spaces c op ∧ Unshared spaces c op) (start twoSpaces)
    sharedRun :=
  guarded_of_mem (fun op hop c => ⟨inSpaces_sharedRun op hop c, by
    simp only [sharedRun, List.mem_cons, List.not_mem_nil, or_false] at hop
    rcases hop with rfl | rfl | rfl | rfl <;> trivial⟩) _

/-- The page of the other region is touched as well. -/
def touchedRun : List Op := sharedRun ++ [.handleFault 0x1000 0x402123]

/-- The other region is removed, and the frame of its page is given back. -/
theorem freed_unmapped_sample :
    ∃ c, Interleaving.exec stackStep (start twoSpaces) (touchedRun ++ [.unregister 0x1000 0x402000]) = some c ∧
      FreedUnmapped spaces c := by
  obtain ⟨c₁, hexec₁, hinv⟩ := exec_total (inv_step stackBeside_freeRecord stackBeside_allocator stackBeside_allocator
    stackBeside_allocator stackBeside_freer stackBeside_physical) (inv_start unmapped_twoSpaces) guarded_sharedRun
  have hbefore : (Interleaving.exec stackStep (start twoSpaces) sharedRun).map (fun c =>
      Vmm.translate c.state.machine.mem 0x1000 0x402000) = some none := by
    delta stackStep step share demandPagingHandleFault lockedFault vmmMapPage ptFor getOrAlloc
    simp only [clearTable_eq]
    decide +kernel
  have hrun : (Interleaving.exec stackStep (start twoSpaces) touchedRun).map (fun c =>
      (decide (c.state.addressSpaceCount = 1 ∧ (c.state.addressSpaces 0).regions = 0x101000),
        c.state.regions 0x100000, c.state.regions 0x101000, Vmm.translate c.state.machine.mem 0x1000 0x402000))
      = some (true, ⟨0x400000, 0x401000, 1, 0⟩, ⟨0x402000, 0x403000, 1, 0x100000⟩, some (0x10A000, 7)) := by
    delta stackStep step share demandPagingHandleFault lockedFault vmmMapPage ptFor getOrAlloc
    simp only [clearTable_eq]
    decide +kernel
  obtain ⟨c, hexec, hvals⟩ := Option.map_eq_some_iff.mp hrun
  obtain ⟨hslots, hfirst, hsecond, -⟩ := by simpa only [Prod.mk.injEq] using hvals
  obtain ⟨hcount, hhead⟩ := of_decide_eq_true hslots
  have hlist : IsList c.state.next [0x101000, 0x100000] (c.state.addressSpaces 0).regions := by
    rw [hhead]
    refine ⟨rfl, by decide, ?_⟩
    show IsList c.state.next [0x100000] (c.state.regions 0x101000).next
    rw [hsecond]
    refine ⟨rfl, by decide, ?_⟩
    show (c.state.regions 0x100000).next = 0
    rw [hfirst]
  -- the page was mapped by the fault, so its frame backs no other one
  have halone : Alone c.state.machine.mem spaces 0x1000 (alignDown 0x402123) := by
    have hexec' : Interleaving.exec stackStep (start twoSpaces) sharedRun = some c₁ := hexec₁
    rw [hexec', Option.map_some, Option.some.injEq] at hbefore
    exact hinv.alone_of_fault stackBeside_allocator stackBeside_allocator stackBeside_physical (Or.inl rfl)
      ((exec_concat hexec₁).symm.trans hexec) hbefore
  have hunshared : Unshared spaces c (.unregister 0x1000 0x402000) := by
    rintro r ⟨i, hi, -, l, hl, hr⟩ hstart v hv
    obtain rfl : i = 0 := by omega
    rw [hl.unique hlist] at hr
    obtain rfl | hr := List.mem_cons.mp hr
    · rw [hsecond] at hv
      obtain rfl : v = 0x402000 := List.mem_singleton.mp hv
      exact halone
    · rw [List.mem_singleton.mp hr, hfirst] at hstart
      exact absurd hstart (by decide)
  exact freed_unmapped stackBeside_freeRecord stackBeside_allocator stackBeside_allocator stackBeside_allocator
    stackBeside_freer stackBeside_physical unmapped_twoSpaces (guarded_concat.mpr
      ⟨guarded_concat.mpr ⟨guarded_sharedRun, fun _ _ => ⟨Or.inl rfl, trivial⟩⟩, fun c' hexec' => by
        obtain rfl := Option.some.inj (hexec.symm.trans hexec')
        exact ⟨Or.inl rfl, hunshared⟩⟩)

/-- Removing a region frees a frame that is shared. -/
theorem shared_frame_freed :
    ¬ ∀ (P : Set ℕ → Ownership (List ℕ))
      (slabAlloc : Machine (FreeRecord (List ℕ)) → ℕ × Machine (FreeRecord (List ℕ)))
      (slabFree : ℕ → Machine (FreeRecord (List ℕ)) → Machine (FreeRecord (List ℕ)))
      (allocPage allocRef : Machine (List ℕ) → ℕ × Machine (List ℕ))
      (freePage : ℕ → Machine (List ℕ) → Machine (List ℕ)) (allocFrame : Machine (List ℕ) → ℕ × Machine (List ℕ))
      (roots F T : Set ℕ) (s₀ : State (List ℕ)) (ops : List Op) (c : Config (List ℕ)),
      RegionCache (fun R => (P R).freeRecord) slabAlloc slabFree → (∀ R, (P R).Allocator allocPage) →
        (∀ R, (P R).Allocator allocRef) → (∀ R, (P R).Allocator allocFrame) → (∀ R, (P R).Freer freePage) →
        (∀ R, (P R).Physical) → Unmapped (P ∅) s₀.machine roots F T →
        Guarded (step slabAlloc slabFree allocPage allocRef freePage allocFrame) (InSpaces roots) (start s₀) ops →
        Interleaving.exec (step slabAlloc slabFree allocPage allocRef freePage allocFrame) (start s₀) ops = some c →
        FreedUnmapped roots c := by
  intro hclaim
  have hrun : (Interleaving.exec stackStep (start twoSpaces) (sharedRun ++ [.unregister 0x1000 0x400000])).map (fun c =>
      (c.state.machine.pages.freed, Vmm.translate c.state.machine.mem 0x2000 0x400000))
        = some ([0x100000, 0x102000], some (0x102000, 0x205)) := by
    delta stackStep step share demandPagingHandleFault lockedFault vmmMapPage ptFor getOrAlloc
    simp only [clearTable_eq]
    decide +kernel
  obtain ⟨c, hexec, hvals⟩ := Option.map_eq_some_iff.mp hrun
  obtain ⟨hfreed, htrans⟩ := Prod.mk.inj hvals
  have hguard : Guarded stackStep (InSpaces spaces) (start twoSpaces) (sharedRun ++ [.unregister 0x1000 0x400000]) :=
    guarded_concat.mpr ⟨guarded_of_mem inSpaces_sharedRun _, fun _ _ => Or.inl rfl⟩
  have hunmapped := hclaim stackBeside (FreeRecord.alloc popFree) (FreeRecord.free pushFree) popFree popFree pushFree
    popFree spaces spaces spaces twoSpaces _ c stackBeside_freeRecord stackBeside_allocator stackBeside_allocator
    stackBeside_allocator stackBeside_freer stackBeside_physical unmapped_twoSpaces hguard hexec
  refine hunmapped 0x102000 ?_ 0x2000 (Or.inr rfl) 0x400000 0x205 htrans
  rw [hfreed]
  decide

end PrometheusKernel.DemandPaging.Sharing
