import PrometheusKernel.DemandPaging.Regions

/-!
# What a registration covers, and what failing calls leave

* `failing_calls`: a look-up, a fault or a removal that finds nothing leaves `address_spaces` and the lists as
  they were exactly if the page table has a slot already or the table is full. Otherwise it takes a slot, which
  is never given back.
* `registration_covers`: the range of a registration that succeeded is found, and refused to others, as long as
  its end, rounded up to whole pages, stays below `2 ^ 64`. A range that reaches the last page is rounded to one
  that ends at 0, and nothing in it is found.
-/

namespace PrometheusKernel.DemandPaging

open ByteMem LinkedList Interleaving Vmm

variable {A : Type} {slabAlloc : Machine A → ℕ × Machine A} {slabFree : ℕ → Machine A → Machine A}
  {allocPage : Machine A → ℕ × Machine A} {freePage : ℕ → Machine A → Machine A}
  {allocFrame : Machine A → ℕ × Machine A} {s s' : State A} {L : ℕ → List ℕ} {pml4 v start size : ℕ}

/-! ### Failing calls -/

/-- `address_spaces`, `address_space_count` and the lists are the same. -/
structure SameSpaces (s s' : State A) : Prop where
  addressSpaces : s'.addressSpaces = s.addressSpaces
  count : s'.addressSpaceCount = s.addressSpaceCount
  regions : s'.regions = s.regions

/-- The page table has a slot, or there is none left. -/
def Known (s : State A) (pml4 : ℕ) : Prop :=
  (∃ i < s.addressSpaceCount, (s.addressSpaces i).pml4 = pml4) ∨ s.addressSpaceCount = maxAddressSpaces

/-- The page table of a call. -/
def Op.table : Op → ℕ
  | .register pml4 _ _ _ => pml4
  | .unregister pml4 _ => pml4
  | .findRegion pml4 _ => pml4
  | .handleFault pml4 _ => pml4

/-- The call fails without a call of the page allocator: a look-up returns null, a fault returns -1 whatever the
allocators do, and a removal finds no region. -/
def Fails (s : State A) : Op → Prop
  | .register _ _ _ _ => False
  | .unregister pml4 start => ∀ q, Registered s pml4 q → (s.regions q).start ≠ alignDown start
  | .findRegion pml4 v => ∃ s', demandPagingFindRegion s pml4 v = some (0, s')
  | .handleFault pml4 v => ∀ allocPage allocFrame, ∃ s', demandPagingHandleFault allocPage allocFrame s pml4 v
      = some (-1, s')

/-- Looking for a slot changes nothing where there is one. -/
theorem getAddressSpace_of_known (hknown : Known s pml4) :
    (demandPagingGetAddressSpace s pml4).2 = s := by
  rcases getAddressSpace_cases s pml4 with ⟨i, -, -, hget⟩ | ⟨hnone, ⟨hroom, -⟩ | ⟨-, hget⟩⟩
  · rw [hget]
  · rcases hknown with ⟨i, hi, hpml4⟩ | hfull
    · exact absurd hpml4 (hnone i hi)
    · exact absurd hfull hroom.ne
  · rw [hget]

/-- It takes a slot where there is none. -/
theorem sameSpaces_get_iff (h : Inv s L) :
    SameSpaces s (demandPagingGetAddressSpace s pml4).2 ↔ Known s pml4 := by
  constructor
  · intro hsame
    rcases getAddressSpace_cases s pml4 with ⟨i, hi, hpml4, -⟩ | ⟨-, ⟨-, hget⟩ | ⟨hfull, -⟩⟩
    · exact Or.inl ⟨i, hi, hpml4⟩
    · have hcount := hsame.count
      rw [hget] at hcount
      exact absurd hcount (Nat.succ_ne_self _)
    · exact Or.inr (le_antisymm h.count (not_lt.mp hfull))
  · intro hknown
    rw [getAddressSpace_of_known hknown]
    exact ⟨rfl, rfl, rfl⟩

/-- A look-up changes the slots only. -/
theorem findRegion_snd {r : ℕ} (hcall : demandPagingFindRegion s pml4 v = some (r, s')) :
    s' = (demandPagingGetAddressSpace s pml4).2 := by
  unfold demandPagingFindRegion at hcall
  rcases getAddressSpace_cases s pml4 with ⟨i, -, -, hget⟩ | ⟨-, ⟨-, hget⟩ | ⟨-, hget⟩⟩
  all_goals
    rw [hget] at hcall ⊢
    dsimp only at hcall ⊢
  · obtain ⟨region, -, hres⟩ := Option.bind_eq_some_iff.mp hcall
    exact (Prod.mk.inj (Option.some.inj hres)).2.symm
  · obtain ⟨region, -, hres⟩ := Option.bind_eq_some_iff.mp hcall
    exact (Prod.mk.inj (Option.some.inj hres)).2.symm
  · exact (Prod.mk.inj (Option.some.inj hcall)).2.symm

/-- A failing call does what the look-up of its slot does. -/
theorem Inv.step_fails (h : Inv s L) {c : Run A} (hc : c.state = s) {op : Op} (hfails : Fails s op) :
    step slabAlloc slabFree allocPage freePage allocFrame c op
      = some ⟨(demandPagingGetAddressSpace s op.table).2, c.accepted⟩ := by
  subst hc
  cases op with
  | register pml4 start size flags => exact absurd hfails id
  | findRegion pml4 v =>
      obtain ⟨s', hcall⟩ := hfails
      rw [step, hcall, Option.map_some, findRegion_snd hcall]
      rfl
  | handleFault pml4 v =>
      obtain ⟨r, s₁, hfind, -, -, -, -⟩ := h.findRegion pml4 (alignDown v)
      have hfst := findRegion_snd hfind
      obtain ⟨s', hcall⟩ := hfails (fun m => (1, m)) allocFrame
      rw [step]
      unfold demandPagingHandleFault at hcall ⊢
      simp only [hfind, Option.bind_eq_bind, Option.bind_some] at hcall ⊢
      have hearly : r = 0 ∨ (s₁.regions r).flags &&& vmFlagDemandPaged = 0 := by
        by_contra hcon
        obtain ⟨h1, h2⟩ := not_or.mp hcon
        rw [if_neg h1, if_neg h2] at hcall
        by_cases hmapped : vmmGetPhysicalAddress s₁.machine.mem pml4 (alignDown v) ≠ 0
        · rw [if_pos hmapped] at hcall
          exact absurd (Prod.mk.inj (Option.some.inj hcall)).1 (by norm_num)
        · -- a page at hand is mapped, and the call returns 0
          rw [if_neg hmapped] at hcall
          unfold lockedFault at hcall
          dsimp only at hcall
          rw [if_neg hmapped, if_neg one_ne_zero] at hcall
          exact absurd (Prod.mk.inj (Option.some.inj hcall)).1 (by norm_num)
      have hout : (if r = 0 then some ((-1 : ℤ), s₁)
          else if (s₁.regions r).flags &&& vmFlagDemandPaged = 0 then some (-1, s₁)
          else if vmmGetPhysicalAddress s₁.machine.mem pml4 (alignDown v) ≠ 0 then some (0, s₁)
          else some (lockedFault allocPage allocFrame s₁ pml4 (alignDown v) r)) = some (-1, s₁) := by
        by_cases hr : r = 0
        · rw [if_pos hr]
        · rw [if_neg hr, if_pos (hearly.resolve_left hr)]
      rw [hout, hfst]
      rfl
  | unregister pml4 start =>
      rw [step]
      unfold demandPagingUnregisterRegion
      rcases h.getAddressSpace pml4 with ⟨i, s₁, hget, hinv, hi, -, -, hregions, -, hreg⟩ | ⟨hget, -, -⟩
      · have hlen : (L i).length < walkBound := (hinv.list i hi).length_lt (hinv.lt i) (Nat.two_pow_pos 64)
        have hother : ∀ b ∈ L i, decide ((s₁.regions b).start = alignDown start) = false := by
          intro b hb
          rw [hregions]
          exact decide_eq_false (hfails b ((hreg b).mpr hb))
        rw [hget]
        dsimp only
        rw [searchPrev_none (hinv.list i hi) hother hlen]
        exact congrArg (fun s => some (Run.mk s c.accepted)) (congrArg Prod.snd hget).symm
      · rw [hget]
        exact congrArg (fun s => some (Run.mk s c.accepted)) (congrArg Prod.snd hget).symm

/-- In every run: a failing call leaves `address_spaces` and the lists as they were exactly if its page table is
known or there is no slot left, and no sequence of such calls changes anything. -/
theorem failing_calls (s₀ : State A) (ops : List Op)
    (h : Guarded (step slabAlloc slabFree allocPage freePage allocFrame) (Fresh slabAlloc) (boot s₀) ops) :
    ∃ c, exec (step slabAlloc slabFree allocPage freePage allocFrame) (boot s₀) ops = some c ∧
      (∀ op, Fails c.state op → ∃ c', step slabAlloc slabFree allocPage freePage allocFrame c op = some c' ∧
        (SameSpaces c.state c'.state ↔ Known c.state op.table)) ∧
      ∀ calls, Guarded (step slabAlloc slabFree allocPage freePage allocFrame)
          (fun c op => Fails c.state op ∧ Known c.state op.table) c calls →
        exec (step slabAlloc slabFree allocPage freePage allocFrame) c calls = some c := by
  obtain ⟨c, hexec, L, hinv, -⟩ := exec_total runInv_step (runInv_boot s₀) h
  refine ⟨c, hexec, fun op hfails => ⟨_, hinv.step_fails rfl hfails, sameSpaces_get_iff hinv⟩, fun calls hcalls => ?_⟩
  obtain ⟨c', hexec', rfl⟩ := exec_total (I := fun c' => c' = c) (fun c₁ op heq hok => by
    subst heq
    refine ⟨_, hinv.step_fails rfl hok.1, ?_⟩
    rw [getAddressSpace_of_known hok.2]) rfl hcalls
  exact hexec'

/-- The calls that fail after a run. -/
theorem failing_calls_sample :
    ∃ c, exec (step popFree pushFree popFree pushFree popFree) (boot freePages) sampleRun = some c ∧
      (∀ op, Fails c.state op → ∃ c', step popFree pushFree popFree pushFree popFree c op = some c' ∧
        (SameSpaces c.state c'.state ↔ Known c.state op.table)) ∧
      ∀ calls, Guarded (step popFree pushFree popFree pushFree popFree)
          (fun c op => Fails c.state op ∧ Known c.state op.table) c calls →
        exec (step popFree pushFree popFree pushFree popFree) c calls = some c :=
  failing_calls freePages sampleRun (guarded_of_guardedBy fresh_of_freshTest (by decide +kernel))

/-- A look-up in a page table without regions takes a slot. -/
theorem failed_lookup_takes_slot :
    ¬ ∀ (s₀ : State (List ℕ)) (ops : List Op) (c : Run (List ℕ)),
      Guarded (step popFree pushFree popFree pushFree popFree) (Fresh popFree) (boot s₀) ops →
      exec (step popFree pushFree popFree pushFree popFree) (boot s₀) ops = some c →
      ∀ op, Fails c.state op →
        ∃ c', step popFree pushFree popFree pushFree popFree c op = some c' ∧ SameSpaces c.state c'.state := by
  intro hclaim
  obtain ⟨c', hstep, hsame⟩ := hclaim freePages [] (boot freePages) trivial rfl (.findRegion 0x1000 0) ⟨_, rfl⟩
  have hcount : c'.state.addressSpaceCount = 1 := by
    obtain rfl := Option.some.inj hstep
    rfl
  exact absurd (hcount.symm.trans hsame.count) (by decide)

/-! ### Registrations -/

/-- A range that reaches the last page ends at 0. -/
theorem alignedEnd_of_wraps (hend : start + size ≤ 2 ^ 64) (hwraps : Wraps start size) :
    alignedEnd start size = 0 := by
  unfold Wraps at hwraps
  unfold alignedEnd Word.add Word.sub pageSize
  rw [alignDown_eq]
  omega

/-- The rounded range holds the range. -/
theorem alignDown_le_lt_alignedEnd (hwraps : ¬ Wraps start size) (hv : start ≤ v ∧ v < start + size) :
    alignDown start ≤ v ∧ v < alignedEnd start size := by
  unfold Wraps at hwraps
  rw [alignedEnd_eq (not_le.mp hwraps), alignDown_eq]
  omega

/-- A range that a registered region overlaps is refused. -/
theorem Inv.register_refused (h : Inv s L) {q : ℕ} (hq : Registered s pml4 q)
    (hover : (s.regions q).overlaps (alignDown start) (alignedEnd start size) = true) (flags : ℕ) :
    ∃ s', demandPagingRegisterRegion slabAlloc s pml4 start size flags = some (-1, s') := by
  have hfresh : FreshRegion slabAlloc s pml4 start size := by
    intro _ _ i s₁ hget hpass
    rcases h.getAddressSpace pml4 with ⟨i', s', hget', hinv, hi, -, -, hregions, -, hreg⟩ | ⟨hget', -, hreg⟩
    · obtain ⟨hsome, rfl⟩ := Prod.mk.inj (hget.symm.trans hget')
      obtain rfl := Option.some.inj hsome
      obtain ⟨r, hr, hcases⟩ := hinv.overlapping hi (alignDown start) (alignedEnd start size)
      obtain rfl := Option.some.inj (hpass.symm.trans hr)
      rcases hcases with ⟨-, hnone⟩ | ⟨hne, -⟩
      · have hclear := hnone q ((hreg q).mp hq)
        rw [hregions, hover] at hclear
        exact absurd hclear (by decide)
      · exact absurd rfl hne
    · exact absurd hq (hreg q)
  obtain ⟨code, s', L', hcall, -, -, -, hres⟩ := h.register flags hfresh
  rcases hres with ⟨rfl, -⟩ | ⟨-, hregs⟩
  · exact ⟨s', hcall⟩
  · have hclear := hregs.passed q hq
    rw [hover] at hclear
    exact absurd hclear (by decide)

section

variable (slabAlloc : Machine A → ℕ × Machine A) (slabFree : ℕ → Machine A → Machine A)
  (allocPage : Machine A → ℕ × Machine A) (freePage : ℕ → Machine A → Machine A)
  (allocFrame : Machine A → ℕ × Machine A)

/-- The call leaves the region `r` on its list. -/
def Spares (pml4 r : ℕ) (c : Run A) (op : Op) : Prop :=
  ∀ c', step slabAlloc slabFree allocPage freePage allocFrame c op = some c' → Registered c'.state pml4 r

/-- The two ranges have a page in common. -/
def PageInCommon (start size start' size' : ℕ) : Prop :=
  ∃ x y, (start ≤ x ∧ x < start + size) ∧ (start' ≤ y ∧ y < start' + size') ∧ x / 4096 = y / 4096

end

/-- No call moves a region that is registered before and after it. -/
theorem Inv.step_range {c : Run A} (h : Inv c.state L) {op : Op} (hfresh : Fresh slabAlloc c op) :
    ∃ c' L', step slabAlloc slabFree allocPage freePage allocFrame c op = some c' ∧ Inv c'.state L' ∧
      ∀ p q, Registered c.state p q → (c'.state.regions q).start = (c.state.regions q).start ∧
        (c'.state.regions q).stop = (c.state.regions q).stop := by
  cases op with
  | register pml4 start size flags =>
      obtain ⟨code, s', L', hcall, hinv', -, -, hres⟩ := h.register flags hfresh
      refine ⟨_, L', by rw [step, hcall]; rfl, hinv', fun p q hq => ?_⟩
      rcases hres with ⟨-, hkeeps⟩ | ⟨-, hregs⟩
      · exact ⟨congrArg Region.start (congrFun hkeeps.regions q), congrArg Region.stop (congrFun hkeeps.regions q)⟩
      · have hne : q ≠ (slabAlloc c.state.machine).1 := by
          rintro rfl
          exact hregs.fresh p hq
        exact ⟨congrArg Region.start (hregs.regions q hne), congrArg Region.stop (hregs.regions q hne)⟩
  | unregister pml4 start =>
      obtain ⟨s', L', hcall, hinv', -, hres⟩ := @Inv.unregister A slabFree freePage c.state L h pml4 start
      refine ⟨_, L', by rw [step, hcall]; rfl, hinv', fun p q hq => ?_⟩
      rcases hres with ⟨hkeeps, -, -⟩ | ⟨r, hunregs, -⟩
      · exact ⟨congrArg Region.start (congrFun hkeeps.regions q), congrArg Region.stop (congrFun hkeeps.regions q)⟩
      · exact hunregs.range q
  | findRegion pml4 v =>
      obtain ⟨r, s', hcall, hinv', -, hregions, -⟩ := h.findRegion pml4 v
      refine ⟨_, L, by rw [step, hcall]; rfl, hinv', fun p q hq => ?_⟩
      exact ⟨congrArg Region.start (congrFun hregions q), congrArg Region.stop (congrFun hregions q)⟩
  | handleFault pml4 v =>
      obtain ⟨i, s', hcall, hinv', hregions⟩ := @Inv.handleFault A allocPage allocFrame c.state L h pml4 v
      refine ⟨_, L, by rw [step, hcall]; rfl, hinv', fun p q hq => ?_⟩
      exact ⟨congrArg Region.start (congrFun hregions q), congrArg Region.stop (congrFun hregions q)⟩

/-- The region of a registration, and its place. -/
def Placed (pml4 start size r : ℕ) (c : Run A) : Prop :=
  ∃ L, Inv c.state L ∧ Registered c.state pml4 r ∧ (c.state.regions r).start = alignDown start ∧
    (c.state.regions r).stop = alignedEnd start size

/-- A step that spares a region leaves it in place. -/
theorem placed_step {r : ℕ} (c : Run A) (op : Op) (h : Placed pml4 start size r c)
    (hok : Fresh slabAlloc c op ∧ Spares slabAlloc slabFree allocPage freePage allocFrame pml4 r c op) :
    ∃ c', step slabAlloc slabFree allocPage freePage allocFrame c op = some c' ∧ Placed pml4 start size r c' := by
  obtain ⟨L, hinv, hreg, hstart, hstop⟩ := h
  obtain ⟨c', L', hstep, hinv', hrange⟩ :=
    @Inv.step_range A slabAlloc slabFree allocPage freePage allocFrame L c hinv op hok.1
  obtain ⟨hstart', hstop'⟩ := hrange pml4 r hreg
  exact ⟨c', hstep, L', hinv', hok.2 c' hstep, hstart'.trans hstart, hstop'.trans hstop⟩

/-- In a placed region that did not wrap every address is found, and every range with a page of it is refused. -/
theorem Placed.covers {r : ℕ} {c : Run A} (h : Placed pml4 start size r c) (hsize : 0 < size)
    (hwraps : ¬ Wraps start size) :
    (∀ v, start ≤ v ∧ v < start + size → demandPagingFindRegion c.state pml4 v = some (r, c.state)) ∧
      ∀ start' size' flags, 0 < size' → start' + size' ≤ 2 ^ 64 → PageInCommon start' size' start size →
        (¬ Wraps start' size' ∨ PageInCommon start' 1 start size) →
        ∃ s', demandPagingRegisterRegion slabAlloc c.state pml4 start' size' flags = some (-1, s') := by
  obtain ⟨L, hinv, hreg, hstart, hstop⟩ := h
  have hcontains : ∀ v, start ≤ v ∧ v < start + size → (c.state.regions r).contains v = true := by
    intro v hv
    obtain ⟨h1, h2⟩ := alignDown_le_lt_alignedEnd hwraps hv
    simp only [Region.contains, hstart, hstop, Bool.and_eq_true, decide_eq_true_eq]
    exact ⟨h1, h2⟩
  refine ⟨fun v hv => hinv.findRegion_of_registered hreg (hcontains v hv), ?_⟩
  intro start' size' flags hsize' hend' hcommon hcase
  refine hinv.register_refused hreg ?_ flags
  by_cases hfirst : PageInCommon start' 1 start size
  · -- the first page of the new range is a page of the region
    obtain ⟨x, y, hx, hy, hpage⟩ := hfirst
    have hin : alignDown start ≤ alignDown start' ∧ alignDown start' < alignedEnd start size := by
      unfold Wraps at hwraps
      rw [alignedEnd_eq (not_le.mp hwraps), alignDown_eq, alignDown_eq]
      omega
    simp only [Region.overlaps, hstart, hstop, Bool.or_eq_true, Bool.and_eq_true, decide_eq_true_eq]
    exact Or.inl (Or.inl hin)
  · have hwraps' := hcase.resolve_right hfirst
    obtain ⟨x, y, hx, hy, hpage⟩ := hcommon
    obtain ⟨hv, -⟩ := (exists_page_iff hwraps').mpr ⟨x, y, hx, hcontains y hy, hpage⟩
    have hpos : (c.state.regions r).start < (c.state.regions r).stop := by
      rw [hstart, hstop]
      exact alignDown_lt_alignedEnd hsize.ne' hwraps
    have haligned : (c.state.regions r).start % 4096 = 0 := by
      rw [hstart]
      exact alignDown_mod start
    exact (overlaps_iff hpos (alignDown_lt_alignedEnd hsize'.ne' hwraps') haligned (alignDown_mod _)
      (alignDown_mod _)).mpr hv

/-- In every run: the range of a registration that succeeded is found exactly if it does not reach the last page.
Then it is found as long as the region is registered, and so long a range that has a page of it is refused,
unless that range reaches the last page and starts outside. -/
theorem registration_covers (s₀ : State A) (ops : List Op)
    (h : Guarded (step slabAlloc slabFree allocPage freePage allocFrame) (Fresh slabAlloc) (boot s₀) ops) :
    ∃ c, exec (step slabAlloc slabFree allocPage freePage allocFrame) (boot s₀) ops = some c ∧
      ∀ pml4 start size flags s₁, 0 < size → start + size ≤ 2 ^ 64 →
        FreshRegion slabAlloc c.state pml4 start size →
        demandPagingRegisterRegion slabAlloc c.state pml4 start size flags = some (0, s₁) →
        ((∀ v, start ≤ v ∧ v < start + size →
            ∃ s', demandPagingFindRegion s₁ pml4 v = some ((slabAlloc c.state.machine).1, s')) ↔
          ¬ Wraps start size) ∧
        (¬ Wraps start size → ∀ later,
          Guarded (step slabAlloc slabFree allocPage freePage allocFrame) (fun c' op => Fresh slabAlloc c' op ∧
            Spares slabAlloc slabFree allocPage freePage allocFrame pml4 (slabAlloc c.state.machine).1 c' op)
            ⟨s₁, (start, size) :: c.accepted⟩ later →
          ∃ c', exec (step slabAlloc slabFree allocPage freePage allocFrame) ⟨s₁, (start, size) :: c.accepted⟩ later
              = some c' ∧
            (∀ v, start ≤ v ∧ v < start + size →
              demandPagingFindRegion c'.state pml4 v = some ((slabAlloc c.state.machine).1, c'.state)) ∧
            ∀ start' size' flags', 0 < size' → start' + size' ≤ 2 ^ 64 → PageInCommon start' size' start size →
              (¬ Wraps start' size' ∨ PageInCommon start' 1 start size) →
              ∃ s', demandPagingRegisterRegion slabAlloc c'.state pml4 start' size' flags' = some (-1, s')) := by
  obtain ⟨c, hexec, L, hinv, -⟩ := exec_total runInv_step (runInv_boot s₀) h
  refine ⟨c, hexec, fun pml4 start size flags s₁ hsize hend hfresh hcall => ?_⟩
  obtain ⟨code, s', L', hcall', hinv', -, -, hres⟩ := hinv.register flags hfresh
  obtain ⟨rfl, rfl⟩ := Prod.mk.inj (Option.some.inj (hcall.symm.trans hcall'))
  rcases hres with ⟨hcode, -⟩ | ⟨-, hregs⟩
  · exact absurd hcode (by decide)
  have hplaced : Placed pml4 start size (slabAlloc c.state.machine).1 (Run.mk s₁ ((start, size) :: c.accepted)) :=
    ⟨L', hinv', (hregs.registered _ _).mpr (Or.inr ⟨rfl, rfl⟩), hregs.start_eq, hregs.stop_eq⟩
  refine ⟨⟨fun hfound hwraps => ?_, fun hwraps v hv => ?_⟩, fun hwraps later hlater => ?_⟩
  · -- the region is empty: its end is 0
    obtain ⟨s', hfind⟩ := hfound start ⟨le_rfl, Nat.lt_add_of_pos_right hsize⟩
    obtain ⟨r, s'', hfind', -, -, -, hr⟩ := hinv'.findRegion pml4 start
    obtain ⟨rfl, -⟩ := Prod.mk.inj (Option.some.inj (hfind'.symm.trans hfind))
    rcases hr with ⟨hzero, -⟩ | ⟨-, -, hcontains⟩
    · exact absurd hzero hregs.ne_zero
    · simp [Region.contains, hregs.stop_eq, alignedEnd_of_wraps hend hwraps] at hcontains
  · obtain ⟨hfound, -⟩ := @Placed.covers A slabAlloc pml4 start size _ _ hplaced hsize hwraps
    exact ⟨s₁, hfound v hv⟩
  · obtain ⟨c', hexec', hplaced'⟩ := exec_total placed_step hplaced hlater
    exact ⟨c', hexec', hplaced'.covers hsize hwraps⟩

/-- A region of two pages. -/
theorem registration_covers_sample :
    ∃ c s₁, exec (step popFree pushFree popFree pushFree popFree) (boot freePages) [.findRegion 0x2000 0x402abc]
        = some c ∧
      demandPagingRegisterRegion popFree c.state 0x1000 0x400000 0x1800 1 = some (0, s₁) ∧
      (∀ v, 0x400000 ≤ v ∧ v < 0x400000 + 0x1800 → demandPagingFindRegion s₁ 0x1000 v = some (0x100000, s₁)) ∧
      ∃ s', demandPagingRegisterRegion popFree s₁ 0x1000 0x3FFFFF 2 3 = some (-1, s') := by
  obtain ⟨c, hexec, hcovers⟩ := registration_covers freePages [.findRegion 0x2000 0x402abc]
    (guarded_of_guardedBy fresh_of_freshTest (by decide +kernel) :
      Guarded (step popFree pushFree popFree pushFree popFree) (Fresh popFree) (boot freePages) _)
  obtain rfl := Option.some.inj hexec
  have hfresh : Fresh popFree _ (.register 0x1000 0x400000 0x1800 1) :=
    fresh_of_freshTest (⟨addSpace (boot freePages).state 0x2000, []⟩ : Run (List ℕ)) _ (by decide +kernel)
  obtain ⟨-, hlater⟩ := hcovers 0x1000 0x400000 0x1800 1 _ (by norm_num) (by norm_num) hfresh rfl
  obtain ⟨c', hexec', hfind, hrefuse⟩ := hlater (by unfold Wraps; norm_num) [] trivial
  obtain rfl := Option.some.inj hexec'
  exact ⟨_, _, hexec, rfl, hfind, hrefuse 0x3FFFFF 2 3 (by norm_num) (by norm_num)
    ⟨0x400000, 0x400000, by norm_num, by norm_num, rfl⟩ (Or.inl (by unfold Wraps; norm_num))⟩

/-- Nothing is found in a region on the last page. -/
theorem last_page_not_found :
    ¬ ∀ (s₀ : State (List ℕ)) (ops : List Op) (c : Run (List ℕ)),
      Guarded (step popFree pushFree popFree pushFree popFree) (Fresh popFree) (boot s₀) ops →
      exec (step popFree pushFree popFree pushFree popFree) (boot s₀) ops = some c →
      ∀ pml4 start size flags s₁, 0 < size → start + size ≤ 2 ^ 64 → FreshRegion popFree c.state pml4 start size →
        demandPagingRegisterRegion popFree c.state pml4 start size flags = some (0, s₁) →
        ∀ v, start ≤ v ∧ v < start + size →
          ∃ s', demandPagingFindRegion s₁ pml4 v = some ((popFree c.state.machine).1, s') := by
  intro hclaim
  have hfresh : Fresh popFree (boot freePages) (.register 0x1000 0xFFFFFFFFFFFFF000 0x1000 1) :=
    fresh_of_freshTest _ _ (by decide +kernel)
  obtain ⟨s', hfind⟩ := hclaim freePages [] (boot freePages) trivial rfl 0x1000 0xFFFFFFFFFFFFF000 0x1000 1 _
    (by norm_num) (by norm_num) hfresh rfl 0xFFFFFFFFFFFFF000 (by norm_num)
  have hfst : Option.map Prod.fst _ = some 0x100000 := congrArg (Option.map Prod.fst) hfind
  exact absurd hfst (by decide +kernel)

end PrometheusKernel.DemandPaging
