import PrometheusKernel.DemandPaging.Regions
import PrometheusKernel.Lib.TwoSections

/-!
# Region calls on several CPUs

`demand_paging_register_region`, `demand_paging_unregister_region` and `demand_paging_find_region` take `global_lock`
to find the slot of the page table, give it back, and take the lock of the slot for their work. The slot is neither
moved nor reused, so what a call has found in the first section it would find again in the second (`stable`): the calls
are linearizable, each at one of its own sections. The sections of page faults, which change nothing but the machine,
run in between.

With that the lists of `DemandPaging.Regions` keep their invariant in every interleaving (`calls_linearizable`).
-/

namespace PrometheusKernel.DemandPaging.Linearizable

open LinkedList Interleaving TwoSections

/-! ### The sections -/

/-- A call with its arguments. -/
inductive Call
  | register (pml4 start size flags : ℕ)
  | unregister (pml4 start : ℕ)
  | findRegion (pml4 virtAddr : ℕ)
deriving DecidableEq

/-- What a call returns. -/
inductive Result
  | code (code : ℤ)
  | void
  | region (region : ℕ)
deriving DecidableEq

/-- The arguments of a section of `demand_paging_handle_fault` with `page_fault_lock` held. -/
structure FaultSection where
  pml4 : ℕ
  alignedAddr : ℕ
  region : ℕ
deriving DecidableEq

/-- The page table of a call. -/
def Call.pml4 : Call → ℕ
  | .register pml4 _ _ _ => pml4
  | .unregister pml4 _ => pml4
  | .findRegion pml4 _ => pml4

/-- The arguments are not refused. -/
def Call.Valid : Call → Prop
  | .register pml4 _ size _ => ¬ (pml4 = 0 ∨ size = 0)
  | .unregister _ _ => True
  | .findRegion _ _ => True

/-- What a call returns that is refused for its arguments or has no slot. -/
def Call.refused : Call → Result
  | .register _ _ _ _ => .code (-1)
  | .unregister _ _ => .void
  | .findRegion _ _ => .region 0

variable {A : Type}

/-- The test of the arguments, and the section with `global_lock` held. -/
def lookUpSlot (s : State A) : Call → Option ℕ × State A
  | .register pml4 _ size _ =>
      if pml4 = 0 ∨ size = 0 then (none, s) else demandPagingGetAddressSpace s pml4
  | .unregister pml4 _ => demandPagingGetAddressSpace s pml4
  | .findRegion pml4 _ => demandPagingGetAddressSpace s pml4

section sections

variable (slabAlloc : Machine A → ℕ × Machine A) (slabFree : ℕ → Machine A → Machine A)
  (allocPage : Machine A → ℕ × Machine A) (freePage : ℕ → Machine A → Machine A)
  (allocFrame : Machine A → ℕ × Machine A)

/-- `demand_paging_register_region` with the lock of the slot held. -/
def registerSection (s : State A) (as start size flags : ℕ) : Option (ℤ × State A) := do
  let existing ← overlapping s as (alignDown start) (alignedEnd start size)
  if existing ≠ 0 then some (-1, s)
  else
    let (region, machine) := slabAlloc s.machine
    let s := { s with machine := machine }
    if region = 0 then some (-1, s)
    else some (0, linkRegion s as region (alignDown start) (alignedEnd start size) flags)

/-- `demand_paging_unregister_region` with the lock of the slot held. -/
def unregisterSection (s : State A) (as pml4 start : ℕ) : Option (State A) := do
  let (prev, current) ← searchPrev s.next (fun r => (s.regions r).start = alignDown start) walkBound 0
    (s.addressSpaces as).regions
  if current ≠ 0 then
    let region := s.regions current
    let s := unlinkRegion s as prev current
    let machine := (pagesOf region).foldl (unmapPage freePage pml4) s.machine
    some { s with machine := slabFree current machine }
  else some s

/-- `demand_paging_find_region` with the lock of the slot held. -/
def findSection (s : State A) (as virtAddr : ℕ) : Option (ℕ × State A) := do
  let region ← search s.next (fun r => (s.regions r).contains virtAddr) walkBound (s.addressSpaces as).regions
  some (region, s)

/-- A call with the lock of its slot held. -/
def lockedSection (s : State A) (as : ℕ) : Call → Option (Result × State A)
  | .register _ start size flags =>
      (registerSection slabAlloc s as start size flags).map fun res => (.code res.1, res.2)
  | .unregister pml4 start => (unregisterSection slabFree freePage s as pml4 start).map fun s => (.void, s)
  | .findRegion _ virtAddr => (findSection s as virtAddr).map fun res => (.region res.1, res.2)

/-- The sections of the calls, beside page faults. -/
def sections : Sections (State A) Call ℕ Result FaultSection where
  first := fun call s => lookUpSlot s call
  second := fun call as s => lockedSection slabAlloc slabFree freePage s as call
  refused := Call.refused
  env := fun f s => (lockedFault allocPage allocFrame s f.pml4 f.alignedAddr f.region).2

/-- A call as a whole. -/
def wholeCall (s : State A) : Call → Option (Result × State A)
  | .register pml4 start size flags =>
      (demandPagingRegisterRegion slabAlloc s pml4 start size flags).map fun res => (.code res.1, res.2)
  | .unregister pml4 start =>
      (demandPagingUnregisterRegion slabFree freePage s pml4 start).map fun s => (.void, s)
  | .findRegion pml4 virtAddr => (demandPagingFindRegion s pml4 virtAddr).map fun res => (.region res.1, res.2)

end sections

variable {slabAlloc : Machine A → ℕ × Machine A} {slabFree : ℕ → Machine A → Machine A}
  {allocPage : Machine A → ℕ × Machine A} {freePage : ℕ → Machine A → Machine A}
  {allocFrame : Machine A → ℕ × Machine A} {s s' : State A} {call d : Call} {i : ℕ}

/-! ### The slot of a page table -/

/-- `i` is the slot that `demand_paging_get_address_space` finds. -/
def IsSlot (s : State A) (pml4 i : ℕ) : Prop :=
  i < s.addressSpaceCount ∧ (s.addressSpaces i).pml4 = pml4 ∧ ∀ j < i, (s.addressSpaces j).pml4 ≠ pml4

/-- The same slots are in use, for the same page tables. -/
structure SameSlots (s s' : State A) : Prop where
  count : s'.addressSpaceCount = s.addressSpaceCount
  pml4 : ∀ i, (s'.addressSpaces i).pml4 = (s.addressSpaces i).pml4

/-- A slot stays where it is. -/
theorem IsSlot.of_sameSlots {pml4 : ℕ} (h : IsSlot s pml4 i) (hsame : SameSlots s s') : IsSlot s' pml4 i := by
  obtain ⟨hi, hpml4, hfirst⟩ := h
  refine ⟨hsame.count ▸ hi, (hsame.pml4 i).trans hpml4, fun j hj => ?_⟩
  rw [hsame.pml4 j]
  exact hfirst j hj

/-- A new address space does not move the slots. -/
theorem IsSlot.addSpace {pml4 : ℕ} (h : IsSlot s pml4 i) (p : ℕ) : IsSlot (addSpace s p) pml4 i := by
  obtain ⟨hi, hpml4, hfirst⟩ := h
  have hold : ∀ j < s.addressSpaceCount, (DemandPaging.addSpace s p).addressSpaces j = s.addressSpaces j :=
    fun j hj => Function.update_of_ne hj.ne _ _
  refine ⟨Nat.lt_succ_of_lt hi, ?_, fun j hj => ?_⟩
  · rw [hold i hi]
    exact hpml4
  · rw [hold j (hj.trans hi)]
    exact hfirst j hj

/-- The slot is found, and nothing changes. -/
theorem IsSlot.get {pml4 : ℕ} (h : IsSlot s pml4 i) : demandPagingGetAddressSpace s pml4 = (some i, s) := by
  obtain ⟨hi, hpml4, hfirst⟩ := h
  have hfind : ((List.range s.addressSpaceCount).find? fun i => decide ((s.addressSpaces i).pml4 = pml4)) = some i := by
    rw [List.find?_range_eq_some]
    exact ⟨by simpa using hpml4, List.mem_range.mpr hi, fun j hj => by simpa using hfirst j hj⟩
  unfold demandPagingGetAddressSpace
  rw [hfind]

/-- What is found is the slot from then on. -/
theorem isSlot_of_get {pml4 : ℕ} (h : demandPagingGetAddressSpace s pml4 = (some i, s')) : IsSlot s' pml4 i := by
  unfold demandPagingGetAddressSpace at h
  cases hfind : (List.range s.addressSpaceCount).find? fun i => decide ((s.addressSpaces i).pml4 = pml4) with
  | some k =>
      rw [hfind] at h
      obtain ⟨hk, rfl⟩ := Prod.mk.inj h
      obtain rfl := Option.some.inj hk
      obtain ⟨hpml4, hmem, hfirst⟩ := List.find?_range_eq_some.mp hfind
      exact ⟨List.mem_range.mp hmem, by simpa using hpml4, fun j hj => by simpa using hfirst j hj⟩
  | none =>
      rw [hfind] at h
      dsimp only at h
      split_ifs at h with hroom
      · obtain ⟨hk, rfl⟩ := Prod.mk.inj h
        obtain rfl := Option.some.inj hk
        refine ⟨Nat.lt_succ_self _, ?_, fun j hj => ?_⟩
        · show (Function.update s.addressSpaces s.addressSpaceCount ⟨pml4, 0⟩ s.addressSpaceCount).pml4 = pml4
          rw [Function.update_self]
        · show (Function.update s.addressSpaces s.addressSpaceCount ⟨pml4, 0⟩ j).pml4 ≠ pml4
          rw [Function.update_of_ne hj.ne]
          simpa using List.find?_eq_none.mp hfind j (List.mem_range.mpr hj)
      · simp at h

/-- A valid call looks its slot up. -/
theorem lookUpSlot_of_valid (h : call.Valid) (s : State A) :
    lookUpSlot s call = demandPagingGetAddressSpace s call.pml4 := by
  cases call with
  | register pml4 start size flags => exact if_neg h
  | unregister pml4 start => rfl
  | findRegion pml4 virtAddr => rfl

/-- A call that is not valid looks nothing up. -/
theorem lookUpSlot_of_not_valid (h : ¬ call.Valid) (s : State A) : lookUpSlot s call = (none, s) := by
  cases call with
  | register pml4 start size flags => exact if_pos (not_not.mp h)
  | unregister pml4 start => exact absurd trivial h
  | findRegion pml4 virtAddr => exact absurd trivial h

/-- What a call finds is the slot of its page table, from then on. -/
theorem isSlot_of_lookUpSlot (h : lookUpSlot s call = (some i, s')) : call.Valid ∧ IsSlot s' call.pml4 i := by
  by_cases hvalid : call.Valid
  · rw [lookUpSlot_of_valid hvalid] at h
    exact ⟨hvalid, isSlot_of_get h⟩
  · rw [lookUpSlot_of_not_valid hvalid] at h
    simp at h

/-- The look-up leaves the state alone, or adds a slot. -/
theorem lookUpSlot_cases (s : State A) (call : Call) :
    (∃ k, lookUpSlot s call = (k, s)) ∨
      call.Valid ∧ (∀ i < s.addressSpaceCount, (s.addressSpaces i).pml4 ≠ call.pml4) ∧
        s.addressSpaceCount < maxAddressSpaces ∧
        lookUpSlot s call = (some s.addressSpaceCount, addSpace s call.pml4) := by
  by_cases hvalid : call.Valid
  · rw [lookUpSlot_of_valid hvalid]
    rcases getAddressSpace_cases s call.pml4 with ⟨i, -, -, hget⟩ | ⟨hnone, ⟨hroom, hget⟩ | ⟨-, hget⟩⟩
    · exact Or.inl ⟨some i, hget⟩
    · exact Or.inr ⟨hvalid, hnone, hroom, hget⟩
    · exact Or.inl ⟨none, hget⟩
  · exact Or.inl ⟨none, lookUpSlot_of_not_valid hvalid s⟩

/-! ### The sections keep the slots -/

/-- The slots are apart from the machine. -/
theorem SameSlots.machine (s : State A) (m : Machine A) : SameSlots s { s with machine := m } := ⟨rfl, fun _ => rfl⟩

/-- With the lock of a slot held the list of the slot changes, and the machine. -/
theorem sameSlots_lockedSection {as : ℕ} {r : Result}
    (h : lockedSection slabAlloc slabFree freePage s as call = some (r, s')) : SameSlots s s' := by
  cases call with
  | register pml4 start size flags =>
      simp only [lockedSection, registerSection, Option.map_eq_some_iff, Option.bind_eq_bind,
        Option.bind_eq_some_iff] at h
      obtain ⟨res, ⟨existing, -, hres⟩, h⟩ := h
      split_ifs at hres
      · obtain rfl := Option.some.inj hres
        obtain ⟨-, rfl⟩ := Prod.mk.inj h
        exact ⟨rfl, fun _ => rfl⟩
      · obtain rfl := Option.some.inj hres
        obtain ⟨-, rfl⟩ := Prod.mk.inj h
        exact SameSlots.machine s _
      · obtain rfl := Option.some.inj hres
        obtain ⟨-, rfl⟩ := Prod.mk.inj h
        exact ⟨rfl, fun j => linkRegion_pml4 j⟩
  | unregister pml4 start =>
      simp only [lockedSection, unregisterSection, Option.map_eq_some_iff, Option.bind_eq_bind,
        Option.bind_eq_some_iff] at h
      obtain ⟨t, ⟨⟨prev, current⟩, -, ht⟩, h⟩ := h
      obtain ⟨-, rfl⟩ := Prod.mk.inj h
      dsimp only at ht
      split_ifs at ht
      · obtain rfl := Option.some.inj ht
        refine ⟨?_, fun j => unlinkRegion_pml4 j⟩
        show (unlinkRegion s as prev current).addressSpaceCount = s.addressSpaceCount
        unfold unlinkRegion
        split_ifs <;> rfl
      · obtain rfl := Option.some.inj ht
        exact ⟨rfl, fun _ => rfl⟩
  | findRegion pml4 virtAddr =>
      simp only [lockedSection, findSection, Option.map_eq_some_iff, Option.bind_eq_bind,
        Option.bind_eq_some_iff] at h
      obtain ⟨res, ⟨region, -, hres⟩, h⟩ := h
      obtain rfl := Option.some.inj hres
      obtain ⟨-, rfl⟩ := Prod.mk.inj h
      exact ⟨rfl, fun _ => rfl⟩

/-- The section of a fault changes no slot. -/
theorem sameSlots_lockedFault (pml4 alignedAddr region : ℕ) :
    SameSlots s (lockedFault allocPage allocFrame s pml4 alignedAddr region).2 := by
  obtain ⟨m, hm⟩ := @lockedFault_snd A allocPage allocFrame s pml4 alignedAddr region
  rw [hm]
  exact SameSlots.machine s m

/-! ### The calls -/

/-- The two sections together are the function of the source. -/
theorem whole_eq (call : Call) (s : State A) :
    (sections slabAlloc slabFree allocPage freePage allocFrame).whole call s
      = wholeCall slabAlloc slabFree freePage s call := by
  cases call with
  | register pml4 start size flags =>
      unfold wholeCall
      dsimp only
      unfold demandPagingRegisterRegion
      by_cases h : pml4 = 0 ∨ size = 0
      · have hfirst : lookUpSlot s (.register pml4 start size flags) = (none, s) := if_pos h
        rw [if_pos h, Sections.whole_of_none hfirst]
        rfl
      · rw [if_neg h]
        rcases getAddressSpace_cases s pml4 with ⟨i, -, -, hget⟩ | ⟨-, ⟨-, hget⟩ | ⟨-, hget⟩⟩
        · rw [Sections.whole_of_some ((if_neg h).trans hget), hget]
          rfl
        · rw [Sections.whole_of_some ((if_neg h).trans hget), hget]
          rfl
        · rw [Sections.whole_of_none ((if_neg h).trans hget), hget]
          rfl
  | unregister pml4 start =>
      unfold wholeCall
      dsimp only
      unfold demandPagingUnregisterRegion
      rcases getAddressSpace_cases s pml4 with ⟨i, -, -, hget⟩ | ⟨-, ⟨-, hget⟩ | ⟨-, hget⟩⟩
      · rw [Sections.whole_of_some hget, hget]
        rfl
      · rw [Sections.whole_of_some hget, hget]
        rfl
      · rw [Sections.whole_of_none hget, hget]
        rfl
  | findRegion pml4 virtAddr =>
      unfold wholeCall
      dsimp only
      unfold demandPagingFindRegion
      rcases getAddressSpace_cases s pml4 with ⟨i, -, -, hget⟩ | ⟨-, ⟨-, hget⟩ | ⟨-, hget⟩⟩
      · rw [Sections.whole_of_some hget, hget]
        rfl
      · rw [Sections.whole_of_some hget, hget]
        rfl
      · rw [Sections.whole_of_none hget, hget]
        rfl

/-- The first section finds the slot of the page table. -/
theorem finds_iff : (sections slabAlloc slabFree allocPage freePage allocFrame).Finds call i s ↔
    call.Valid ∧ IsSlot s call.pml4 i := by
  constructor
  · exact fun h => isSlot_of_lookUpSlot h
  · rintro ⟨hvalid, hslot⟩
    exact (lookUpSlot_of_valid hvalid s).trans hslot.get

/-- A slot that was found stays the slot of the page table. -/
theorem stable : Stable (sections slabAlloc slabFree allocPage freePage allocFrame) := by
  constructor
  case refused =>
    intro call s s' h
    rcases lookUpSlot_cases s call with ⟨k, hk⟩ | ⟨-, -, -, hk⟩
    · exact (Prod.mk.inj (h.symm.trans hk)).2
    · have hcontra := (Prod.mk.inj (h.symm.trans hk)).1
      simp at hcontra
  case found => exact fun call i s s' h => finds_iff.mpr (isSlot_of_lookUpSlot h)
  case first =>
    intro call i d s h
    obtain ⟨hvalid, hslot⟩ := finds_iff.mp h
    refine finds_iff.mpr ⟨hvalid, ?_⟩
    show IsSlot (lookUpSlot s d).2 call.pml4 i
    rcases lookUpSlot_cases s d with ⟨k, hk⟩ | ⟨-, -, -, hk⟩
    · rw [hk]
      exact hslot
    · rw [hk]
      exact hslot.addSpace d.pml4
  case second =>
    intro call i d j s r s' h _ hsecond
    obtain ⟨hvalid, hslot⟩ := finds_iff.mp h
    exact finds_iff.mpr ⟨hvalid, hslot.of_sameSlots (sameSlots_lockedSection hsecond)⟩
  case env =>
    intro call i e s h
    obtain ⟨hvalid, hslot⟩ := finds_iff.mp h
    exact finds_iff.mpr ⟨hvalid, hslot.of_sameSlots (sameSlots_lockedFault e.pml4 e.alignedAddr e.region)⟩

/-! ### Runs -/

section runs

variable {n : ℕ}

/-- The shared state and the CPUs. -/
abbrev Kernel (A : Type) (n : ℕ) := Config (State A) Call ℕ Result (Fin n)

/-- `slab_alloc` does not hand out a region that is on a list. -/
def Fresh (slabAlloc : Machine A → ℕ × Machine A) (c : Kernel A n) : Action Call FaultSection (Fin n) → Prop
  | .second i => ∀ pml4 start size flags as, c.cpu i = some (.register pml4 start size flags, as) →
      FreshRegion slabAlloc c.state pml4 start size
  | _ => True

/-- A call as a whole returns, and keeps the lists. -/
theorem Inv.wholeCall {L : ℕ → List ℕ} (h : DemandPaging.Inv s L)
    (hfresh : ∀ pml4 start size flags, call = .register pml4 start size flags →
      FreshRegion slabAlloc s pml4 start size) :
    ∃ r s' L', Linearizable.wholeCall slabAlloc slabFree freePage s call = some (r, s') ∧ DemandPaging.Inv s' L' := by
  cases call with
  | register pml4 start size flags =>
      obtain ⟨code, s', L', hcall, hinv, -⟩ := h.register flags (hfresh pml4 start size flags rfl)
      refine ⟨.code code, s', L', ?_, hinv⟩
      unfold Linearizable.wholeCall
      dsimp only
      rw [hcall]
      rfl
  | unregister pml4 start =>
      obtain ⟨s', L', hcall, hinv, -⟩ := @Inv.unregister A slabFree freePage s L h pml4 start
      refine ⟨.void, s', L', ?_, hinv⟩
      unfold Linearizable.wholeCall
      dsimp only
      rw [hcall]
      rfl
  | findRegion pml4 virtAddr =>
      obtain ⟨r, s', hcall, hinv, -⟩ := h.findRegion pml4 virtAddr
      refine ⟨.region r, s', L, ?_, hinv⟩
      unfold Linearizable.wholeCall
      dsimp only
      rw [hcall]
      rfl

/-- Calls between their sections have found their slots, and the lists are in order. -/
def RunInv (P : Sections (State A) Call ℕ Result FaultSection) (c : Kernel A n) : Prop :=
  Settled P c ∧ ∃ L, DemandPaging.Inv c.state L

variable {c c' : Kernel A n} {a : Action Call FaultSection (Fin n)}

/-- A call between its sections goes on to its end. -/
theorem RunInv.second (h : RunInv (sections slabAlloc slabFree allocPage freePage allocFrame) c) {i : Fin n} {as : ℕ}
    (hcpu : c.cpu i = some (call, as)) (hfresh : Fresh slabAlloc c (.second i)) :
    ∃ r s' L, lockedSection slabAlloc slabFree freePage c.state as call = some (r, s') ∧ DemandPaging.Inv s' L := by
  obtain ⟨hsettled, L, hinv⟩ := h
  obtain ⟨r, s', L', hcall, hinv'⟩ := @Inv.wholeCall A slabAlloc slabFree freePage c.state call L hinv
    fun pml4 start size flags heq => hfresh pml4 start size flags as (heq ▸ hcpu)
  refine ⟨r, s', L', ?_, hinv'⟩
  rw [← @whole_eq A slabAlloc slabFree allocPage freePage allocFrame,
    Sections.whole_of_some (hsettled i call as hcpu)] at hcall
  exact hcall

/-- Every section keeps the lists. -/
theorem runInv_step (c : Kernel A n) (a : Action Call FaultSection (Fin n)) (c' : Kernel A n)
    (h : RunInv (sections slabAlloc slabFree allocPage freePage allocFrame) c) (hfresh : Fresh slabAlloc c a)
    (hstep : TwoSections.step (sections slabAlloc slabFree allocPage freePage allocFrame) c a = some c') :
    RunInv (sections slabAlloc slabFree allocPage freePage allocFrame) c' := by
  refine ⟨(atomicStep_of_step stable h.1 hstep).1, ?_⟩
  obtain ⟨hsettled, L, hinv⟩ := id h
  cases a with
  | first i call =>
      cases hcpu : c.cpu i with
      | some found => simp [TwoSections.step, hcpu] at hstep
      | none =>
          have hstate : c'.state = (lookUpSlot c.state call).2 := by
            obtain ⟨⟨k, s⟩, hfirst⟩ : ∃ res, lookUpSlot c.state call = res := ⟨_, rfl⟩
            cases k <;> simp only [TwoSections.step, hcpu, sections, hfirst, Option.some.injEq] at hstep <;>
              rw [← hstep, hfirst]
          rcases lookUpSlot_cases c.state call with ⟨k, hk⟩ | ⟨-, hnone, hroom, hk⟩
          · rw [hstate, hk]
            exact ⟨L, hinv⟩
          · rw [hstate, hk]
            exact ⟨L, hinv.addSpace hroom hnone⟩
  | second i =>
      cases hcpu : c.cpu i with
      | none => simp [TwoSections.step, hcpu] at hstep
      | some found =>
          obtain ⟨call, as⟩ := found
          obtain ⟨r, s', L', hsection, hinv'⟩ := h.second hcpu hfresh
          simp only [TwoSections.step, hcpu, sections, hsection, Option.map_some, Option.some.injEq] at hstep
          subst hstep
          exact ⟨L', hinv'⟩
  | env f =>
      simp only [TwoSections.step, sections, Option.some.injEq] at hstep
      subst hstep
      obtain ⟨m, hm⟩ := @lockedFault_snd A allocPage allocFrame c.state f.pml4 f.alignedAddr f.region
      refine ⟨L, ?_⟩
      rw [hm]
      exact hinv.machine m

/-- `Fresh` as a test. -/
def freshTest (slabAlloc : Machine A → ℕ × Machine A) (c : Kernel A n) : Action Call FaultSection (Fin n) → Bool
  | .second i =>
      match c.cpu i with
      | some (.register pml4 start size flags, _) =>
          DemandPaging.freshTest slabAlloc ⟨c.state, []⟩ (.register pml4 start size flags)
      | _ => true
  | _ => true

/-- The test of a step is sound. -/
theorem fresh_of_freshTest (c : Kernel A n) (a : Action Call FaultSection (Fin n))
    (h : freshTest slabAlloc c a = true) : Fresh slabAlloc c a := by
  cases a with
  | first i call => trivial
  | second i =>
      intro pml4 start size flags as hcpu
      simp only [freshTest, hcpu] at h
      exact DemandPaging.fresh_of_freshTest ⟨c.state, []⟩ (.register pml4 start size flags) h
  | env f => trivial

end runs

end PrometheusKernel.DemandPaging.Linearizable
