import PrometheusKernel.DemandPaging.Isolation

/-!
# Faults beside removals

`demand_paging_find_region` gives `as->lock` back before it returns a pointer into the list of regions, and nothing
keeps the region from being removed while `demand_paging_handle_fault` goes on with that pointer: it then reads the
flags of a structure that is back in `vm_region_cache`, takes a lock in it, and maps a page of a region that is gone
(`region_used_after_free`). If no removal takes a region that a fault has looked up, neither happens, in any order of
the steps (`faults_stay_registered`).

A step is a section with a lock held, or the first check of a fault, which is made without one.
-/

namespace PrometheusKernel.DemandPaging.Teardown

open ByteMem LinkedList Vmm TableTree Interleaving

/-! ### The steps -/

/-- Where a CPU is in `demand_paging_handle_fault`, with `aligned_addr` and `region`. -/
inductive Fault
  | idle
  /-- The region was looked up, and `as->lock` is given back. -/
  | found (addr region : ℕ)
  /-- The first check is made, and `page_fault_lock` is to be taken. -/
  | checked (addr region : ℕ)
deriving DecidableEq

/-- `aligned_addr` and `region` of a call that goes on. -/
def Fault.call : Fault → Option (ℕ × ℕ)
  | .idle => none
  | .found addr region => some (addr, region)
  | .checked addr region => some (addr, region)

/-- The shared state, the CPUs, and what became of the region structures. -/
structure Config (A : Type) (n : ℕ) where
  state : State A
  cpu : Fin n → Fault
  /-- The structures that are back in `vm_region_cache`. -/
  freed : List ℕ
  /-- The structures that a fault has read or locked while they were there. -/
  stale : List ℕ

/-- An atomic step on one page table. -/
inductive Action (n : ℕ)
  | register (start size flags : ℕ)
  /-- A CPU takes a fault and looks the region up. -/
  | find (i : Fin n) (virtAddr : ℕ)
  /-- A CPU reads `region->flags` and makes the first check. -/
  | check (i : Fin n)
  /-- A CPU goes through the section with `page_fault_lock` held, and returns. -/
  | locked (i : Fin n)
  | unregister (start : ℕ)

variable {A : Type} {n : ℕ}

/-- `current` at the end of the search of `demand_paging_unregister_region`: the structure that it gives back. -/
def removedRegion (s : State A) (pml4 start : ℕ) : ℕ :=
  match demandPagingGetAddressSpace s pml4 with
  | (none, _) => 0
  | (some as, s) =>
      ((searchPrev s.next (fun r => (s.regions r).start = alignDown start) walkBound 0
        (s.addressSpaces as).regions).map Prod.snd).getD 0

/-- The record of stale structures after a fault has used `region`. -/
def Config.use (c : Config A n) (region : ℕ) : List ℕ := if region ∈ c.freed then region :: c.stale else c.stale

section steps

variable (slabAlloc : Machine A → ℕ × Machine A) (slabFree : ℕ → Machine A → Machine A)
  (allocPage : Machine A → ℕ × Machine A) (freePage : ℕ → Machine A → Machine A)
  (allocFrame : Machine A → ℕ × Machine A) (pml4 : ℕ)

/-- One step; `none` is a step that the CPU cannot take now, or a call that does not return. -/
def step (c : Config A n) : Action n → Option (Config A n)
  | .register start size flags =>
      (demandPagingRegisterRegion slabAlloc c.state pml4 start size flags).map fun res =>
        { c with
          state := res.2
          freed := if res.1 = (0 : ℤ) then c.freed.filter (· ≠ (slabAlloc c.state.machine).1) else c.freed }
  | .find i virtAddr =>
      if c.cpu i = .idle then
        (demandPagingFindRegion c.state pml4 (alignDown virtAddr)).map fun res =>
          { c with
            state := res.2
            cpu := Function.update c.cpu i (if res.1 = 0 then .idle else .found (alignDown virtAddr) res.1) }
      else none
  | .check i =>
      match c.cpu i with
      | .found addr region =>
          let returns := (c.state.regions region).flags &&& vmFlagDemandPaged = 0 ∨
            vmmGetPhysicalAddress c.state.machine.mem pml4 addr ≠ 0
          some { c with
            cpu := Function.update c.cpu i (if returns then .idle else .checked addr region)
            stale := c.use region }
      | _ => none
  | .locked i =>
      match c.cpu i with
      | .checked addr region =>
          some { c with
            state := (lockedFault allocPage allocFrame c.state pml4 addr region).2
            cpu := Function.update c.cpu i .idle
            stale := c.use region }
      | _ => none
  | .unregister start =>
      let removed := removedRegion c.state pml4 start
      (demandPagingUnregisterRegion slabFree freePage c.state pml4 start).map fun s =>
        { c with state := s, freed := if removed = 0 then c.freed else removed :: c.freed }

/-- No removal takes a region that a fault has looked up and still uses. -/
def Unheld (c : Config A n) : Action n → Prop
  | .unregister start => ∀ i, ∀ call ∈ (c.cpu i).call, (c.state.regions call.2).start ≠ alignDown start
  | _ => True

end steps

/-- After `demand_paging_init`. -/
def start (s : State A) : Config A n := ⟨demandPagingInit s, fun _ => .idle, [], []⟩

/-- The page of `v` lies in a region that is registered. -/
def InRegion (s : State A) (pml4 v : ℕ) : Prop :=
  ∃ r w, Registered s pml4 r ∧ (s.regions r).contains w = true ∧ vpn w = vpn v

/-- When all calls have returned, each mapped page lies in a region; and no fault has used a structure that was back in
the cache. -/
structure Contained (pml4 : ℕ) (c : Config A n) : Prop where
  mapped : (∀ i, c.cpu i = .idle) → ∀ v, translate c.state.machine.mem pml4 v ≠ none → InRegion c.state pml4 v
  fresh : c.stale = []

/-! ### The invariant -/

section invariant

variable {P : Set ℕ → Ownership A} {slabAlloc : Machine A → ℕ × Machine A} {slabFree : ℕ → Machine A → Machine A}
  {allocPage : Machine A → ℕ × Machine A} {freePage : ℕ → Machine A → Machine A}
  {allocFrame : Machine A → ℕ × Machine A} {pml4 : ℕ} {roots F T : Set ℕ} {s s' : State A} {c c' : Config A n}

/-- Frames and regions are in order and no frame backs two pages, each mapped page lies in a region, the regions that
the faults use are registered, and what is back in the cache is not. -/
structure Inv (P : Set ℕ → Ownership A) (roots : Set ℕ) (pml4 : ℕ) (c : Config A n) : Prop where
  sound : ∃ L g R, Sound P (fun _ => 0) roots c.state L g R ∧ Sole c.state.machine.mem roots
  mapped : ∀ v, translate c.state.machine.mem pml4 v ≠ none → InRegion c.state pml4 v
  used : ∀ i, ∀ call ∈ (c.cpu i).call, Registered c.state pml4 call.2 ∧
    (c.state.regions call.2).contains call.1 = true
  freed : ∀ r ∈ c.freed, ¬ Registered c.state pml4 r
  fresh : c.stale = []

/-- In a state with the invariant the faults are in registered regions. -/
theorem Inv.contained (h : Inv P roots pml4 c) : Contained pml4 c := ⟨fun _ => h.mapped, h.fresh⟩

/-- The structure that a removal gives back is not registered any more. -/
theorem removedRegion_unregistered {L : ℕ → List ℕ} (h : DemandPaging.Inv s L) {start : ℕ}
    (hcall : demandPagingUnregisterRegion slabFree freePage s pml4 start = some s')
    (h0 : removedRegion s pml4 start ≠ 0) : ¬ Registered s' pml4 (removedRegion s pml4 start) := by
  unfold removedRegion at h0 ⊢
  unfold demandPagingUnregisterRegion at hcall
  rcases h.getAddressSpace pml4 with ⟨i, s₁, hget, hinv, hi, -⟩ | ⟨hget, -⟩
  · rw [hget] at hcall h0 ⊢
    dsimp only at hcall h0 ⊢
    rcases hinv.searchStart hi (alignDown start) with ⟨l₁, r, l₂, hL, -, hr0, hsearch⟩ | ⟨-, p, hsearch⟩
    · rw [hsearch] at hcall ⊢
      simp only [Option.bind_eq_bind, Option.bind_some, if_pos hr0, Option.some.injEq] at hcall
      obtain rfl := hcall
      intro hreg
      exact ((hinv.registered_unlink hL hi pml4 r).mp hreg).2 rfl
    · rw [hsearch] at h0
      exact absurd rfl h0
  · rw [hget] at h0
    exact absurd rfl h0

/-- The regions are where they were. -/
theorem InRegion.of_keeps {v : ℕ} (h : InRegion s pml4 v) (hkeeps : Keeps s s') : InRegion s' pml4 v := by
  obtain ⟨r, w, hr, hw, hvpn⟩ := h
  refine ⟨r, w, (hkeeps.registered pml4 r).mpr hr, ?_, hvpn⟩
  rw [hkeeps.regions]
  exact hw

/-- The invariant holds at the start. -/
theorem inv_start (h : Unmapped (P ∅) s.machine roots F T) (hroot : pml4 ∈ roots) :
    Inv P roots pml4 (start s : Config A n) := by
  refine ⟨isolated_boot h, fun v hv => absurd (h.unmapped pml4 hroot v) hv, fun i call hcall => ?_, fun r hr => ?_, rfl⟩
  · exact absurd hcall (Option.not_mem_none call)
  · exact absurd hr List.not_mem_nil

/-- Steps that leave the regions alone: the faults go on with regions that are still registered. -/
theorem Inv.faultStep (h : Inv P roots pml4 c) (hkeeps : Keeps c.state c'.state) (hfreed : c'.freed = c.freed)
    (hsound : ∃ L g R, Sound P (fun _ => 0) roots c'.state L g R ∧ Sole c'.state.machine.mem roots)
    (hmapped : ∀ v, translate c'.state.machine.mem pml4 v ≠ none → InRegion c.state pml4 v) {i : Fin n} {f : Fault}
    (hcpu : c'.cpu = Function.update c.cpu i f)
    (hf : ∀ call ∈ f.call, Registered c.state pml4 call.2 ∧ (c.state.regions call.2).contains call.1 = true)
    (hstale : c'.stale = []) : Inv P roots pml4 c' := by
  refine ⟨hsound, fun v hv => (hmapped v hv).of_keeps hkeeps, ?_, fun r hr hreg => ?_, hstale⟩
  · rw [hcpu, hkeeps.regions]
    have hused : ∀ call, Registered c.state pml4 call → Registered c'.state pml4 call :=
      fun call => (hkeeps.registered pml4 call).mpr
    refine forall_update (P := fun _ (q : Fault) => ∀ call ∈ q.call, Registered c'.state pml4 call.2 ∧
      (c.state.regions call.2).contains call.1 = true) (fun call hcall => ?_) fun j _ call hcall => ?_
    · exact ⟨hused _ (hf call hcall).1, (hf call hcall).2⟩
    · exact ⟨hused _ (h.used j call hcall).1, (h.used j call hcall).2⟩
  · rw [hfreed] at hr
    exact h.freed r hr ((hkeeps.registered pml4 r).mp hreg)

/-- A fault does not use a structure that is back in the cache. -/
theorem Inv.use (h : Inv P roots pml4 c) {i : Fin n} {call : ℕ × ℕ} (hcall : call ∈ (c.cpu i).call) :
    c.use call.2 = [] := by
  have hreg := (h.used i call hcall).1
  unfold Config.use
  rw [if_neg fun hin => h.freed call.2 hin hreg]
  exact h.fresh

/-! ### What each step preserves -/

/-- A look-up keeps the invariant. -/
theorem Inv.find (h : Inv P roots pml4 c) (i : Fin n) (v : ℕ) {r : ℕ}
    (hcall : demandPagingFindRegion c.state pml4 (alignDown v) = some (r, s')) :
    Inv P roots pml4 { c with
      state := s'
      cpu := Function.update c.cpu i (if r = 0 then .idle else .found (alignDown v) r) } := by
  obtain ⟨L, g, R, hsound, hsole⟩ := h.sound
  obtain ⟨r₁, s₁, hfind, hsound', hkeeps, hmachine⟩ := hsound.findRegion pml4 (alignDown v)
  obtain ⟨rfl, rfl⟩ := Prod.mk.inj (Option.some.inj (hfind.symm.trans hcall))
  obtain ⟨r₂, s₂, hfind₂, -, -, -, hres⟩ := hsound.regions.findRegion pml4 (alignDown v)
  obtain ⟨rfl, rfl⟩ := Prod.mk.inj (Option.some.inj (hfind₂.symm.trans hcall))
  refine h.faultStep hkeeps rfl ⟨L, g, R, hsound', ?_⟩ ?_ rfl ?_ h.fresh
  · show Sole s₂.machine.mem roots
    rw [hmachine]
    exact hsole
  · intro w hw
    apply h.mapped w
    rwa [← hmachine]
  · rcases hres with ⟨h0, -⟩ | ⟨h0, hreg, hcontains⟩
    · rw [if_pos h0]
      exact fun call hcon => absurd hcon (Option.not_mem_none call)
    · rw [if_neg h0]
      intro call hmem
      obtain rfl := Option.some.inj hmem
      exact ⟨hreg, hcontains⟩

/-- The check of the flags keeps the invariant. -/
theorem Inv.check (h : Inv P roots pml4 c) {i : Fin n} {addr r : ℕ} (hi : c.cpu i = .found addr r) (returns : Prop)
    [Decidable returns] : Inv P roots pml4 { c with
      cpu := Function.update c.cpu i (if returns then .idle else .checked addr r)
      stale := c.use r } := by
  have hmem : (addr, r) ∈ (c.cpu i).call := by
    rw [hi]
    rfl
  refine h.faultStep ⟨fun _ _ => Iff.rfl, rfl⟩ rfl h.sound h.mapped rfl (fun call hcall => ?_) (h.use hmem)
  by_cases hr : returns
  · rw [if_pos hr] at hcall
    exact absurd hcall (Option.not_mem_none call)
  · rw [if_neg hr] at hcall
    obtain rfl := Option.some.inj hcall
    exact h.used i (addr, r) hmem

/-- The page is mapped into a region that is registered. -/
theorem Inv.locked (h : Inv P roots pml4 c) (hpage : ∀ R, (P R).Allocator allocPage)
    (hframe : ∀ R, (P R).Allocator allocFrame) (hphysical : ∀ R, (P R).Physical) (hroot : pml4 ∈ roots) {i : Fin n}
    {addr r : ℕ} (hi : c.cpu i = .checked addr r) : Inv P roots pml4 { c with
      state := (lockedFault allocPage allocFrame c.state pml4 addr r).2
      cpu := Function.update c.cpu i .idle
      stale := c.use r } := by
  have hmem : (addr, r) ∈ (c.cpu i).call := by
    rw [hi]
    rfl
  obtain ⟨hreg, hcontains⟩ := h.used i (addr, r) hmem
  obtain ⟨L, g, R, hsound, hsole⟩ := h.sound
  obtain ⟨s', g', hlocked, hsound', hkeeps, htrans⟩ :=
    hsound.lockedFault hpage hframe hphysical hroot addr r
  rw [hlocked]
  refine h.faultStep hkeeps rfl ⟨L, g', R, hsound', ?_⟩ (fun v hv => ?_) rfl
    (fun call hcon => absurd hcon (Option.not_mem_none call)) (h.use hmem)
  · rcases htrans with hsame | ⟨f, hf, hmaps⟩
    · exact hsole.same hsame
    · refine hsole.maps hmaps fun q hq w fl' ht => hf ?_
      exact hsound.backed.footing.dF (hsound.backed.data q hq w f fl' ht)
  · rcases htrans with hsame | ⟨f, -, hmaps⟩
    · exact h.mapped v ((hsame pml4 hroot v) ▸ hv)
    · by_cases hvpn : vpn v = vpn addr
      · exact ⟨r, addr, hreg, hcontains, hvpn.symm⟩
      · apply h.mapped v
        have hother := hmaps pml4 hroot v
        rw [if_neg fun hcon => hvpn hcon.2] at hother
        rwa [← hother]

/-- A registration keeps the invariant. -/
theorem Inv.register (h : Inv P roots pml4 c) (hslab : RegionCache P slabAlloc slabFree) (hroot : pml4 ∈ roots)
    {start size flags : ℕ} {code : ℤ} (hcall : demandPagingRegisterRegion slabAlloc c.state pml4 start size flags
      = some (code, s')) :
    Inv P roots pml4 { c with
      state := s'
      freed := if code = (0 : ℤ) then c.freed.filter (· ≠ (slabAlloc c.state.machine).1) else c.freed } := by
  obtain ⟨L, g, R, hsound, hsole⟩ := h.sound
  obtain ⟨code', s₁, L', R', hcall', hsound', hsame, hres⟩ := hsound.register hslab pml4 start size flags
  obtain ⟨rfl, rfl⟩ := Prod.mk.inj (Option.some.inj (hcall'.symm.trans hcall))
  have hmapped : ∀ v, translate s₁.machine.mem pml4 v ≠ none → InRegion c.state pml4 v := by
    intro v hv
    apply h.mapped v
    rwa [← hsame pml4 hroot v]
  have hsound'' : ∃ L g R, Sound P (fun _ => 0) roots s₁ L g R ∧ Sole s₁.machine.mem roots :=
    ⟨L', g, R', hsound', hsole.same hsame⟩
  rcases hres with ⟨rfl, hkeeps⟩ | ⟨rfl, hregs⟩
  · refine ⟨hsound'', fun v hv => (hmapped v hv).of_keeps hkeeps, fun i call hmem => ?_, fun r hr hreg => ?_, h.fresh⟩
    · obtain ⟨hreg, hcontains⟩ := h.used i call hmem
      exact ⟨(hkeeps.registered pml4 call.2).mpr hreg, hkeeps.regions ▸ hcontains⟩
    · exact h.freed r hr ((hkeeps.registered pml4 r).mp hreg)
  · -- the new region is none of those that are registered already
    have hold : ∀ r, Registered c.state pml4 r → Registered s₁ pml4 r ∧ s₁.regions r = c.state.regions r := by
      intro r hr
      refine ⟨(hregs.registered pml4 r).mpr (Or.inl hr), hregs.regions r ?_⟩
      rintro rfl
      exact hregs.fresh pml4 hr
    refine ⟨hsound'', fun v hv => ?_, fun i call hmem => ?_, fun r hr hreg => ?_, h.fresh⟩
    · obtain ⟨r, w, hr, hw, hvpn⟩ := hmapped v hv
      obtain ⟨hreg, heq⟩ := hold r hr
      exact ⟨r, w, hreg, heq ▸ hw, hvpn⟩
    · obtain ⟨hreg, hcontains⟩ := h.used i call hmem
      obtain ⟨hreg', heq⟩ := hold call.2 hreg
      exact ⟨hreg', heq ▸ hcontains⟩
    · rw [if_pos rfl, List.mem_filter] at hr
      rcases (hregs.registered pml4 r).mp hreg with hreg | ⟨-, hnew⟩
      · exact h.freed r hr.1 hreg
      · exact of_decide_eq_true hr.2 hnew

/-- A removal keeps the invariant, if no fault is in the region. -/
theorem Inv.unregister (h : Inv P roots pml4 c) (hslab : RegionCache P slabAlloc slabFree)
    (hfree : ∀ R, (P R).Freer freePage) (hroot : pml4 ∈ roots) {start : ℕ} (hheld : Unheld c (.unregister start))
    (hcall : demandPagingUnregisterRegion slabFree freePage c.state pml4 start = some s') :
    Inv P roots pml4 { c with
      state := s'
      freed := if removedRegion c.state pml4 start = 0 then c.freed
        else removedRegion c.state pml4 start :: c.freed } := by
  obtain ⟨L, g, R, hsound, hsole⟩ := h.sound
  obtain ⟨s₁, L', g', R', hcall', hsound', hres⟩ :=
    hsound.unregister hslab hfree hroot start fun _ _ _ v _ => hsole pml4 hroot v
  obtain rfl := Option.some.inj (hcall'.symm.trans hcall)
  have hfreed : ∀ r ∈ (if removedRegion c.state pml4 start = 0 then c.freed
      else removedRegion c.state pml4 start :: c.freed), (Registered s₁ pml4 r → Registered c.state pml4 r) →
      ¬ Registered s₁ pml4 r := by
    intro r hr hback hreg
    by_cases h0 : removedRegion c.state pml4 start = 0
    · rw [if_pos h0] at hr
      exact h.freed r hr (hback hreg)
    · rw [if_neg h0] at hr
      obtain rfl | hr := List.mem_cons.mp hr
      · exact removedRegion_unregistered hsound.regions hcall h0 hreg
      · exact h.freed r hr (hback hreg)
  rcases hres with ⟨hkeeps, hmachine, -⟩ | ⟨r, hunregs, hun⟩
  · refine ⟨⟨L', g', R', hsound', ?_⟩, fun v hv => ?_, fun i call hmem => ?_, fun r hr => ?_, h.fresh⟩
    · show Sole s₁.machine.mem roots
      rw [hmachine]
      exact hsole
    · refine (h.mapped v ?_).of_keeps hkeeps
      rwa [← hmachine]
    · obtain ⟨hreg, hcontains⟩ := h.used i call hmem
      exact ⟨(hkeeps.registered pml4 call.2).mpr hreg, hkeeps.regions ▸ hcontains⟩
    · exact hfreed r hr (hkeeps.registered pml4 r).mp
  · have hcontains : ∀ q v, (s₁.regions q).contains v = (c.state.regions q).contains v := by
      intro q v
      unfold Region.contains
      rw [(hunregs.range q).1, (hunregs.range q).2]
    refine ⟨⟨L', g', R', hsound', hsole.unmaps hun⟩, fun v hv => ?_, fun i call hmem => ?_, fun q hq => ?_, h.fresh⟩
    · -- a page of `r` is not mapped any more
      have hother : ∀ v' ∈ pagesOf (c.state.regions r), vpn v ≠ vpn v' :=
        fun v' hv' hvpn => hv (hun.gone v' hv' v hvpn)
      have hbefore : translate c.state.machine.mem pml4 v ≠ none := by
        rw [← hun.other pml4 hroot v fun hcon => hother _ hcon.2.choose_spec.1 hcon.2.choose_spec.2]
        exact hv
      obtain ⟨q, w, hq, hw, hvpn⟩ := h.mapped v hbefore
      refine ⟨q, w, (hunregs.registered pml4 q).mpr ⟨hq, ?_⟩, (hcontains q w).trans hw, hvpn⟩
      rintro rfl
      have haligned : (c.state.regions q).start % 4096 = 0 := by
        rw [hunregs.start_eq]
        exact alignDown_mod start
      obtain ⟨v', hv', hdiv⟩ := exists_mem_pagesOf haligned hw
      exact hother v' hv' (hvpn.symm.trans (vpn_eq_of_div hdiv))
    · obtain ⟨hreg, hin⟩ := h.used i call hmem
      refine ⟨(hunregs.registered pml4 call.2).mpr ⟨hreg, ?_⟩, (hcontains _ _).trans hin⟩
      intro heq
      apply hheld i call hmem
      rw [heq]
      exact hunregs.start_eq
    · exact hfreed q hq fun hreg => ((hunregs.registered pml4 q).mp hreg).1

/-- A step that takes no region away from a fault. -/
theorem inv_step (hslab : RegionCache P slabAlloc slabFree) (hpage : ∀ R, (P R).Allocator allocPage)
    (hframe : ∀ R, (P R).Allocator allocFrame) (hfree : ∀ R, (P R).Freer freePage) (hphysical : ∀ R, (P R).Physical)
    (hroot : pml4 ∈ roots) (c : Config A n) (a : Action n) (c' : Config A n) (h : Inv P roots pml4 c)
    (ha : Unheld c a) (hstep : step slabAlloc slabFree allocPage freePage allocFrame pml4 c a = some c') :
    Inv P roots pml4 c' := by
  cases a with
  | register start size flags =>
      dsimp only [step] at hstep
      obtain ⟨⟨code, s'⟩, hcall, rfl⟩ := Option.map_eq_some_iff.mp hstep
      exact h.register hslab hroot hcall
  | find i v =>
      dsimp only [step] at hstep
      by_cases hi : c.cpu i = .idle
      · rw [if_pos hi] at hstep
        obtain ⟨⟨r, s'⟩, hcall, rfl⟩ := Option.map_eq_some_iff.mp hstep
        exact h.find i v hcall
      · rw [if_neg hi] at hstep
        exact absurd hstep nofun
  | check i =>
      dsimp only [step] at hstep
      cases hi : c.cpu i with
      | idle =>
          rw [hi] at hstep
          exact absurd hstep nofun
      | found addr r =>
          rw [hi] at hstep
          obtain rfl := Option.some.inj hstep
          exact h.check hi _
      | checked addr r =>
          rw [hi] at hstep
          exact absurd hstep nofun
  | locked i =>
      dsimp only [step] at hstep
      cases hi : c.cpu i with
      | idle =>
          rw [hi] at hstep
          exact absurd hstep nofun
      | found addr r =>
          rw [hi] at hstep
          exact absurd hstep nofun
      | checked addr r =>
          rw [hi] at hstep
          obtain rfl := Option.some.inj hstep
          exact h.locked hpage hframe hphysical hroot hi
  | unregister start =>
      dsimp only [step] at hstep
      obtain ⟨s', hcall, rfl⟩ := Option.map_eq_some_iff.mp hstep
      exact h.unregister hslab hfree hroot ha hcall

/-- In every interleaving of registrations, faults and removals on one page table that maps nothing at first: if no
removal takes a region that a fault has looked up and still uses, every mapped page lies in a registered region once
all calls have returned, and no fault has used a structure that was back in the cache. -/
theorem faults_stay_registered (hslab : RegionCache P slabAlloc slabFree) (hpage : ∀ R, (P R).Allocator allocPage)
    (hframe : ∀ R, (P R).Allocator allocFrame) (hfree : ∀ R, (P R).Freer freePage) (hphysical : ∀ R, (P R).Physical)
    (hroot : pml4 ∈ roots) {s₀ : State A} (hempty : Unmapped (P ∅) s₀.machine roots F T) {as : List (Action n)}
    (hguard : Guarded (step slabAlloc slabFree allocPage freePage allocFrame pml4) Unheld (start s₀) as)
    (hexec : Interleaving.exec (step slabAlloc slabFree allocPage freePage allocFrame pml4) (start s₀) as = some c) :
    Contained pml4 c :=
  (invariant (inv_step hslab hpage hframe hfree hphysical hroot) (inv_start hempty hroot) hguard hexec).contained

/-! ### A fault by itself -/

/-- A fault whose steps nothing interrupts is `demand_paging_handle_fault`. -/
theorem fault_uninterrupted {i : Fin n} (hi : c.cpu i = .idle) {v : ℕ} {code : ℤ}
    (hcall : demandPagingHandleFault allocPage allocFrame c.state pml4 v = some (code, s')) :
    ∃ as c', (∀ a ∈ as, a = .find i v ∨ a = .check i ∨ a = .locked i) ∧ c'.state = s' ∧ c'.cpu = c.cpu ∧
      Interleaving.exec (step slabAlloc slabFree allocPage freePage allocFrame pml4) c as = some c' := by
  have hidle : ∀ f, Function.update (Function.update c.cpu i f) i .idle = c.cpu := by
    intro f
    rw [Function.update_idem, ← hi, Function.update_eq_self]
  unfold demandPagingHandleFault at hcall
  obtain ⟨⟨r, s₁⟩, hfind, hrest⟩ := Option.bind_eq_some_iff.mp hcall
  dsimp only at hrest
  -- the configuration after the look-up
  let c₁ : Config A n := { c with
    state := s₁
    cpu := Function.update c.cpu i (if r = 0 then .idle else .found (alignDown v) r) }
  have hstep₁ : step slabAlloc slabFree allocPage freePage allocFrame pml4 c (.find i v) = some c₁ := by
    dsimp only [step]
    rw [if_pos hi, hfind]
    rfl
  by_cases hr : r = 0
  · rw [if_pos hr] at hrest
    obtain ⟨-, rfl⟩ := Prod.mk.inj (Option.some.inj hrest)
    refine ⟨[.find i v], c₁, by simp, rfl, ?_, by simp [Interleaving.exec, hstep₁]⟩
    show Function.update c.cpu i _ = c.cpu
    rw [if_pos hr, ← hi, Function.update_eq_self]
  rw [if_neg hr] at hrest
  have hcpu₁ : c₁.cpu i = .found (alignDown v) r := by
    show Function.update c.cpu i _ i = _
    rw [Function.update_self, if_neg hr]
  have hsecond : ∀ f, Function.update c₁.cpu i f = Function.update c.cpu i f := fun f => Function.update_idem _ _ _
  let returns : Prop := (s₁.regions r).flags &&& vmFlagDemandPaged = 0 ∨
    vmmGetPhysicalAddress s₁.machine.mem pml4 (alignDown v) ≠ 0
  -- and after the first check
  let c₂ : Config A n := { c₁ with
    cpu := Function.update c₁.cpu i (if returns then .idle else .checked (alignDown v) r)
    stale := c₁.use r }
  have hstep₂ : step slabAlloc slabFree allocPage freePage allocFrame pml4 c₁ (.check i) = some c₂ := by
    dsimp only [step]
    rw [hcpu₁]
  by_cases hret : returns
  · have hs' : s' = s₁ := by
      by_cases hflag : (s₁.regions r).flags &&& vmFlagDemandPaged = 0
      · rw [if_pos hflag] at hrest
        exact (Prod.mk.inj (Option.some.inj hrest)).2.symm
      · rw [if_neg hflag, if_pos (hret.resolve_left hflag)] at hrest
        exact (Prod.mk.inj (Option.some.inj hrest)).2.symm
    refine ⟨[.find i v, .check i], c₂, by simp, hs'.symm, ?_, by simp [Interleaving.exec, hstep₁, hstep₂]⟩
    show Function.update c₁.cpu i _ = c.cpu
    rw [if_pos hret, hsecond, ← hi, Function.update_eq_self]
  · obtain ⟨hflag, hmapped⟩ := not_or.mp hret
    rw [if_neg hflag, if_neg hmapped] at hrest
    have hcpu₂ : c₂.cpu i = .checked (alignDown v) r := by
      show Function.update c₁.cpu i _ i = _
      rw [Function.update_self, if_neg hret]
    -- and after the section with the lock
    let c₃ : Config A n := { c₂ with
      state := (lockedFault allocPage allocFrame s₁ pml4 (alignDown v) r).2
      cpu := Function.update c₂.cpu i .idle
      stale := c₂.use r }
    have hstep₃ : step slabAlloc slabFree allocPage freePage allocFrame pml4 c₂ (.locked i) = some c₃ := by
      dsimp only [step]
      rw [hcpu₂]
    refine ⟨[.find i v, .check i, .locked i], c₃, by simp, congrArg Prod.snd (Option.some.inj hrest), ?_,
      by simp [Interleaving.exec, hstep₁, hstep₂, hstep₃]⟩
    show Function.update (Function.update c₁.cpu i _) i .idle = c.cpu
    rw [Function.update_idem, hsecond, ← hi, Function.update_eq_self]

end invariant

/-! ### Runs on one CPU -/

/-- `Unheld` as a test. -/
def unheldTest (c : Config A n) : Action n → Bool
  | .unregister start => (List.finRange n).all fun i =>
      (c.cpu i).call.all fun call => (c.state.regions call.2).start ≠ alignDown start
  | _ => true

/-- The test of a step is sound. -/
theorem unheld_of_test (c : Config A n) (a : Action n) (h : unheldTest c a = true) : Unheld c a := by
  cases a with
  | unregister start =>
      intro i call hcall
      have hi := List.all_eq_true.mp h i (List.mem_finRange i)
      rw [Option.mem_def.mp hcall] at hi
      exact of_decide_eq_true hi
  | register start size flags => trivial
  | find i v => trivial
  | check i => trivial
  | locked i => trivial

/-- Another region is removed while a fault goes on. -/
def besideRemoval : List (Action 1) :=
  [.register 0x400000 0x1000 1, .register 0x402000 0x1000 1, .find 0 0x400123, .unregister 0x402000, .check 0,
    .locked 0]

/-- A fault in one region beside the removal of another. -/
theorem faults_stay_registered_sample : ∃ c : Config (List ℕ) 1,
    Interleaving.exec (step popFree pushFree popFree pushFree popFree 0x1000) (start freePages) besideRemoval = some c ∧
      Contained 0x1000 c := by
  have hsome : (Interleaving.exec (step popFree pushFree popFree pushFree popFree 0x1000)
      (start freePages : Config (List ℕ) 1) besideRemoval).isSome = true := by
    decide +kernel
  obtain ⟨c, hexec⟩ := Option.isSome_iff_exists.mp hsome
  exact ⟨c, hexec, faults_stay_registered stackBeside_regionCache stackBeside_allocator stackBeside_allocator
    stackBeside_freer stackBeside_physical (Set.mem_singleton 0x1000) unmapped_freePages
    (guarded_of_guardedBy unheld_of_test (by decide +kernel)) hexec⟩

/-- The region is removed between the look-up of a fault and its first check. -/
def overtaken : List (Action 1) :=
  [.register 0x400000 0x1000 1, .find 0 0x400123, .unregister 0x400000, .check 0, .locked 0]

/-- A fault goes on in a region that has been freed. -/
theorem region_used_after_free :
    ¬ ∀ (n : ℕ) (P : Set ℕ → Ownership (List ℕ)) (slabAlloc : Machine (List ℕ) → ℕ × Machine (List ℕ))
      (slabFree : ℕ → Machine (List ℕ) → Machine (List ℕ)) (allocPage : Machine (List ℕ) → ℕ × Machine (List ℕ))
      (freePage : ℕ → Machine (List ℕ) → Machine (List ℕ)) (allocFrame : Machine (List ℕ) → ℕ × Machine (List ℕ))
      (pml4 : ℕ) (roots F T : Set ℕ) (s₀ : State (List ℕ)) (as : List (Action n)) (c : Config (List ℕ) n),
      RegionCache P slabAlloc slabFree → (∀ R, (P R).Allocator allocPage) → (∀ R, (P R).Allocator allocFrame) →
        (∀ R, (P R).Freer freePage) → (∀ R, (P R).Physical) → pml4 ∈ roots → Unmapped (P ∅) s₀.machine roots F T →
        Interleaving.exec (step slabAlloc slabFree allocPage freePage allocFrame pml4) (start s₀) as = some c →
        Contained pml4 c := by
  intro hclaim
  have hstale : (Interleaving.exec (step popFree pushFree popFree pushFree popFree 0x1000)
      (start freePages : Config (List ℕ) 1) overtaken).map (·.stale) = some [0x100000, 0x100000] := by
    decide +kernel
  obtain ⟨c, hexec, hc⟩ := Option.map_eq_some_iff.mp hstale
  have hcontained := hclaim 1 stackBeside popFree pushFree popFree pushFree popFree 0x1000 {0x1000} {0x1000} {0x1000}
    freePages overtaken c stackBeside_regionCache stackBeside_allocator stackBeside_allocator stackBeside_freer
    stackBeside_physical rfl unmapped_freePages hexec
  rw [hcontained.fresh] at hc
  exact absurd hc (by decide)

end PrometheusKernel.DemandPaging.Teardown
