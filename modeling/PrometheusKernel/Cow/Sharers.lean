import PrometheusKernel.Cow.Refinement
import PrometheusKernel.Cow.RefCounts
import PrometheusKernel.Cow.FailedCalls
import PrometheusKernel.Lib.Interleaving

/-!
# Counts and copy-on-write page table entries

Runs of `vmm_map_page`, `cow_mark_page` and `cow_handle_fault` over any address spaces. `cowPtes c f` is the set of
page table entries that are present, have `COW_FLAG_MASK` and name the frame `f`; an entry is named by its
address space and its virtual page, as page tables have one parent each.

The count of a frame is the number of these entries, and the frame is in the reference table while there
are any (`counts_cowPtes`), as long as no call drifts:

* `cow_mark_page` counts an entry again that is copy-on-write already;
* the last sharer's `cow_handle_fault` leaves the reference entry in the table, with count 0
  (`last_sharer_kept`);
* `vmm_map_page` replaces a copy-on-write entry, or makes one, without counting.

The library's `CopyOnWrite.Exact` is the invariant, and its moves are the calls.
-/

namespace PrometheusKernel.Cow.Sharers

open ByteMem LinkedList Vmm Interleaving CopyOnWrite

/-! ### Runs -/

/-- The calls. -/
inductive Op
  /-- `vmm_create_address_space()`. -/
  | create
  /-- A fresh frame is mapped: `buddy_alloc_pages(0, ..)`, then `vmm_map_page`. -/
  | mapFresh (pml4 virt flags : ℕ)
  /-- `vmm_map_page(pml4, virt, phys, flags)` of a frame that may be mapped elsewhere. -/
  | mapFrame (pml4 virt phys flags : ℕ)
  /-- `cow_mark_page(pml4, virt)`. -/
  | mark (pml4 virt : ℕ)
  /-- `cow_handle_fault(pml4, virt)`. -/
  | fault (pml4 virt : ℕ)

/-- The machine and its address spaces. -/
structure Config (A : Type) where
  /-- The machine. -/
  state : State A
  /-- The address spaces. -/
  roots : List ℕ

/-- The present page table entries with `COW_FLAG_MASK` for the frame `f`. -/
def cowPtes {A : Type} (c : Config A) (f : ℕ) : Set (ℕ × ℕ) :=
  {n | n.1 ∈ c.roots ∧ ∃ fl, space c.state.mem n.1 n.2 = some (f, fl) ∧ isCow fl = true}

section steps

variable {A : Type} (allocFrame allocPage : Machine A → ℕ × Machine A)

/-- One call; `none` is a call that does not return. -/
def step (c : Config A) : Op → Option (Config A)
  | .create =>
      let res := vmmCreateAddressSpace allocFrame c.state.toMachine
      some ⟨{ c.state with toMachine := res.2 }, if res.1 = 0 then c.roots else res.1 :: c.roots⟩
  | .mapFresh pml4 virt flags =>
      let res := allocPage c.state.toMachine
      if res.1 = 0 then some { c with state := { c.state with toMachine := res.2 } }
      else
        some { c with state := { c.state with
          toMachine := vmmMapPage allocFrame res.2 pml4 virt res.1 flags } }
  | .mapFrame pml4 virt phys flags =>
      some { c with state := { c.state with
        toMachine := vmmMapPage allocFrame c.state.toMachine pml4 virt phys flags } }
  | .mark pml4 virt =>
      (cowMarkPage allocPage c.state pml4 virt).map fun res : ℤ × State A => { c with state := res.2 }
  | .fault pml4 virt =>
      (cowHandleFault allocPage c.state pml4 virt).map fun res : ℤ × State A => { c with state := res.2 }

/-- A run starts after `cow_init`. -/
def start (s : Machine A) (roots : List ℕ) : Config A := ⟨cowInit s, roots⟩

end steps

section guards

variable {A : Type} (c : Config A)

/-- The calls are on address spaces that exist. -/
def Called : Op → Prop
  | .create => True
  | .mapFresh pml4 _ _ => pml4 ∈ c.roots
  | .mapFrame pml4 _ _ _ => pml4 ∈ c.roots
  | .mark pml4 _ => pml4 ∈ c.roots
  | .fault pml4 _ => pml4 ∈ c.roots

/-- The mapping of `virt` is not copy-on-write. -/
def Private (pml4 virt : ℕ) : Prop :=
  ∀ f fl, translate c.state.mem pml4 virt = some (f, fl) → isCow fl = false

/-- No call drifts: copy-on-write entries are not mapped over and not marked again, a frame has fewer than `2 ^ 32`
of them, and one that is written to is not the last of its frame. -/
def Undrifting : Op → Prop
  | .create => True
  | .mapFresh pml4 virt flags => isCow flags = false ∧ Private c pml4 virt
  | .mapFrame pml4 virt _ flags => isCow flags = false ∧ Private c pml4 virt
  | .mark pml4 virt => Private c pml4 virt ∧
      ∀ f fl, translate c.state.mem pml4 virt = some (f, fl) → (cowPtes c f).ncard + 1 < 2 ^ 32
  | .fault pml4 virt => ∀ f fl, translate c.state.mem pml4 virt = some (f, fl) → isCow fl = true →
      ∃ n ∈ cowPtes c f, n ≠ name pml4 virt

/-- The guard of the run. -/
def Proper (op : Op) : Prop := Called c op ∧ Undrifting c op

/-- The reference table counts the copy-on-write entries. -/
structure CountsPtes : Prop where
  entry_iff : ∀ f, (∃ ref, ref ≠ 0 ∧ findRef c.state f = some ref) ↔ (cowPtes c f).Nonempty
  count_eq : ∀ physAddr, cowGetRefCount c.state physAddr = some (cowPtes c (frameOf physAddr)).ncard

end guards

/-! ### The invariant -/

/-- Frame of a mapping, and whether it is copy-on-write. -/
def cowOf (e : ℕ × ℕ) : ℕ × Bool := (e.1, isCow e.2)

section inv

variable {A : Type} {P : Ownership A} {allocFrame allocPage : Machine A → ℕ × Machine A} {c : Config A} {g : Ghost}

/-- The sharers of a frame are those of the abstract mapping. -/
theorem cowPtes_eq (c : Config A) (f : ℕ) : cowPtes c f = shared (mappingBy cowOf c.state.mem c.roots) f := by
  ext n
  unfold cowPtes shared mappingBy
  simp only [Set.mem_ofPred_eq]
  by_cases hr : n.1 ∈ c.roots
  · rw [if_pos hr, Option.map_eq_some_iff]
    constructor
    · rintro ⟨-, fl, hs, hcow⟩
      exact ⟨(f, fl), hs, by rw [cowOf, hcow]⟩
    · rintro ⟨⟨f', fl⟩, hs, he⟩
      obtain ⟨rfl, hcow⟩ := Prod.mk.inj he
      exact ⟨hr, fl, hs, hcow⟩
  · rw [if_neg hr]
    exact iff_of_false (fun h => hr h.1) nofun

/-- A frame has finitely many sharers. -/
theorem finite_cowPtes (c : Config A) (f : ℕ) : (cowPtes c f).Finite := by
  refine Set.Finite.subset ((List.finite_toSet c.roots).prod (Set.finite_Iio (2 ^ 36))) ?_
  rintro n ⟨hr, fl, hs, -⟩
  refine ⟨hr, ?_⟩
  unfold space at hs
  split_ifs at hs with hn
  exact hn

/-- The counts of the reference table are those of the mappings, and no entry has count 0. -/
structure Inv (P : Ownership A) (c : Config A) (g : Ghost) : Prop where
  footing : Footing P c.state {r | r ∈ c.roots} g
  exact : Exact (mappingBy cowOf c.state.mem c.roots) g.cnt
  entry_iff : ∀ f, g.HasEntry c.state.mem f ↔ g.cnt f ≠ 0

/-- In a state with the invariant every count is the number of sharers. -/
theorem Inv.countsPtes (h : Inv P c g) : CountsPtes c where
  entry_iff f := by
    rw [← h.footing.hasEntry_iff, h.entry_iff, cowPtes_eq]
    exact (h.exact.nonempty_iff f).symm
  count_eq physAddr := by
    rw [h.footing.getRefCount, cowPtes_eq, h.exact.count_eq]

/-- What the tables say about a page, by name. -/
theorem mappingBy_of_translate {r v f fl : ℕ} (hr : r ∈ c.roots) (ht : translate c.state.mem r v = some (f, fl)) :
    mappingBy cowOf c.state.mem c.roots (name r v) = some (f, isCow fl) := by
  rw [mappingBy_name hr, ht]
  rfl

/-- A private page shares nothing. -/
theorem Private.not_shared {r v : ℕ} (hp : Private c r v) (hr : r ∈ c.roots) (f : ℕ) :
    mappingBy cowOf c.state.mem c.roots (name r v) ≠ some (f, true) := by
  rw [mappingBy_name hr]
  intro h
  obtain ⟨⟨f', fl⟩, ht, he⟩ := Option.map_eq_some_iff.mp h
  have hcow : isCow fl = true := (Prod.mk.inj he).2
  rw [hp f' fl ht] at hcow
  exact absurd hcow nofun

/-- Nothing that a client sees has changed. -/
theorem Inv.unchanged (h : Inv P c g) {s' : State A} {g' : Ghost}
    (hs : Unchanged P {r | r ∈ c.roots} c.state g s' g') (hentry : g'.HasEntry s'.mem = g.HasEntry c.state.mem) :
    Inv P { c with state := s' } g' := by
  refine ⟨hs.footing, ?_, fun f => ?_⟩
  · show Exact (mappingBy cowOf s'.mem c.roots) g'.cnt
    rw [mappingBy_congr hs.translate_eq, hs.cnt_eq]
    exact h.exact
  · rw [hentry, hs.cnt_eq]
    exact h.entry_iff f

/-- A mapping that is not copy-on-write takes the place of one that is not. -/
theorem Inv.attach (h : Inv P c g) {r v f fl : ℕ} {s' : State A} {g' : Ghost} (hr : r ∈ c.roots)
    (hp : Private c r v) (hs : Remapped P {r | r ∈ c.roots} c.state g r v f fl s' g') (hfl : isCow fl = false)
    (hcnt : g'.cnt = g.cnt) (hentry : g'.HasEntry s'.mem = g.HasEntry c.state.mem) :
    Inv P { c with state := s' } g' := by
  refine ⟨hs.footing, ?_, fun x => ?_⟩
  · show Exact (mappingBy cowOf s'.mem c.roots) g'.cnt
    rw [mappingBy_update hr hs.translate_eq, hcnt, cowOf, hfl]
    exact h.exact.attach (hp.not_shared hr) f
  · rw [hentry, hcnt]
    exact h.entry_iff x

/-- `vmm_map_page` of a frame. -/
theorem Inv.mapPage (h : Inv P c g) (hframe : P.Allocator allocFrame) {pml4 virt flags : ℕ} (hr : pml4 ∈ c.roots)
    (hflags : isCow flags = false) (hp : Private c pml4 virt) (phys : ℕ) :
    ∃ g', Inv P { c with state := { c.state with
      toMachine := vmmMapPage allocFrame c.state.toMachine pml4 virt phys flags } } g' := by
  obtain ⟨hfail, hok⟩ := h.footing.mapPage hframe hr virt phys flags
  by_cases hpt : (ptFor allocFrame c.state.toMachine pml4 virt).1 = 0
  · obtain ⟨g', h', hentry⟩ := hfail hpt
    exact ⟨g', h.unchanged h' hentry⟩
  · obtain ⟨g', h', -, hcnt, hentry⟩ := hok hpt
    refine ⟨g', h.attach hr hp h' ?_ hcnt hentry⟩
    unfold isCow at hflags ⊢
    rw [Nat.testBit_or, testBit_low (by norm_num), hflags]
    decide

/-! ### The calls -/

/-- `vmm_create_address_space` keeps the counts right. -/
theorem Inv.create (h : Inv P c g) (hframe : P.Allocator allocFrame) :
    ∃ c' g', step allocFrame allocPage c .create = some c' ∧ Inv P c' g' := by
  rcases h.footing.create hframe with ⟨s', hcall, h', hentry⟩ | ⟨f, s', g', hcall, h0, hc⟩
  · refine ⟨{ c with state := { c.state with toMachine := s' } }, g, ?_, h.unchanged h' hentry⟩
    simp only [step, hcall, if_true]
  · refine ⟨⟨{ c.state with toMachine := s' }, f :: c.roots⟩, g', ?_, hc.footing, ?_, fun x => ?_⟩
    · simp only [step, hcall, h0, if_false]
    · show Exact (mappingBy cowOf s'.mem (f :: c.roots)) g'.cnt
      rw [mappingBy_cons hc.fresh hc.empty hc.translate_eq, hc.cnt_eq]
      exact h.exact
    · rw [hc.entries, hc.cnt_eq]
      exact h.entry_iff x

/-- A new private page keeps the counts right. -/
theorem Inv.mapFresh (h : Inv P c g) (hframe : P.Allocator allocFrame) (hpage : P.Allocator allocPage)
    {pml4 virt flags : ℕ} (hr : pml4 ∈ c.roots) (hflags : isCow flags = false) (hp : Private c pml4 virt) :
    ∃ c' g', step allocFrame allocPage c (.mapFresh pml4 virt flags) = some c' ∧ Inv P c' g' := by
  by_cases h0 : (allocPage c.state.toMachine).1 = 0
  · refine ⟨{ c with state := { c.state with toMachine := (allocPage c.state.toMachine).2 } }, g, ?_,
      h.unchanged ((h.footing.allocFail hpage h0).unchanged h.footing rfl) ?_⟩
    · simp only [step, if_pos h0]
    · exact h.footing.hasEntry_congr rfl fun ref href => hpage.mem h.footing.owns ref (h.footing.rF href)
  · obtain ⟨-, -, hfoot, hkeep⟩ := h.footing.allocData hpage h0
    have htr : ∀ r ∈ c.roots, ∀ w,
        translate (allocPage c.state.toMachine).2.mem r w = translate c.state.mem r w := fun r hr w =>
      h.footing.tables.translate_congr (fun t ht => hkeep t (h.footing.tF ht)) hr w
    have h₁ := h.unchanged ⟨hfoot, Set.subset_insert _ _, rfl, fun d hd => hkeep d (h.footing.dF hd), htr⟩
      (h.footing.hasEntry_congr rfl fun ref href => hkeep ref (h.footing.rF href))
    have hp₁ : Private { c with state := { c.state with toMachine := (allocPage c.state.toMachine).2 } } pml4 virt :=
      fun f fl ht => hp f fl ((htr pml4 hr virt).symm.trans ht)
    obtain ⟨g', h'⟩ := h₁.mapPage hframe hr hflags hp₁ (allocPage c.state.toMachine).1
    refine ⟨_, g', ?_, h'⟩
    simp only [step, if_neg h0]

/-- `cow_mark_page` counts the new sharer. -/
theorem Inv.mark (h : Inv P c g) (hpage : P.Allocator allocPage) {pml4 virt : ℕ} (hr : pml4 ∈ c.roots)
    (hp : Private c pml4 virt) (hfew : ∀ f fl, translate c.state.mem pml4 virt = some (f, fl) →
      (cowPtes c f).ncard + 1 < 2 ^ 32) :
    ∃ c' g', step allocFrame allocPage c (.mark pml4 virt) = some c' ∧ Inv P c' g' := by
  rcases cowMarkPage_spec h.footing hpage hr virt with
    ⟨s', g', hcall, h', hentry⟩ | ⟨f, fl, s', g', fl', ht, hcall, ⟨-, hcow⟩, h', -, hcounted⟩
  · refine ⟨{ c with state := s' }, g', ?_, h.unchanged h' hentry⟩
    rw [step, hcall, Option.map_some]
  · have hlt := hfew f fl ht
    rw [cowPtes_eq, h.exact.count_eq] at hlt
    have hcnt := hcounted.cnt_eq
    rw [Word.add_eq hlt] at hcnt
    refine ⟨{ c with state := s' }, g', ?_, h'.footing, ?_, fun x => ?_⟩
    · rw [step, hcall, Option.map_some]
    · show Exact (mappingBy cowOf s'.mem c.roots) g'.cnt
      rw [mappingBy_update hr h'.translate_eq, hcnt, cowOf, hcow]
      exact h.exact.share (hp.not_shared hr) f
    · show g'.HasEntry s'.mem x ↔ g'.cnt x ≠ 0
      rw [hcounted.entries x, h.entry_iff x, hcnt]
      by_cases hx : x = f
      · rw [hx, Function.update_self]
        exact iff_of_true (Or.inr rfl) (g.cnt f).succ_ne_zero
      · rw [Function.update_of_ne hx]
        exact or_iff_left hx

/-- A frame with another copy-on-write entry counts at least 2. -/
theorem Inv.two_le_cnt (h : Inv P c g) {r v f fl : ℕ} (hr : r ∈ c.roots)
    (ht : translate c.state.mem r v = some (f, fl)) (hcow : isCow fl = true)
    (hother : ∃ n ∈ cowPtes c f, n ≠ name r v) : 2 ≤ g.cnt f := by
  obtain ⟨n, hn, hne⟩ := hother
  rw [cowPtes_eq] at hn
  have hself : name r v ∈ shared (mappingBy cowOf c.state.mem c.roots) f := by
    show mappingBy cowOf c.state.mem c.roots (name r v) = some (f, true)
    rw [mappingBy_of_translate hr ht, hcow]
  rw [← h.exact.count_eq f, ← Set.ncard_pair hne]
  apply Set.ncard_le_ncard _ (h.exact.finite f)
  rintro x (rfl | rfl)
  · exact hn
  · exact hself

/-- `cow_handle_fault` counts one sharer less. -/
theorem Inv.fault (h : Inv P c g) (hpage : P.Allocator allocPage) {pml4 virt : ℕ} (hr : pml4 ∈ c.roots)
    (hother : ∀ f fl, translate c.state.mem pml4 virt = some (f, fl) → isCow fl = true →
      ∃ n ∈ cowPtes c f, n ≠ name pml4 virt) :
    ∃ c' g', step allocFrame allocPage c (.fault pml4 virt) = some c' ∧ Inv P c' g' := by
  cases ht : translate c.state.mem pml4 virt with
  | none =>
      refine ⟨c, g, ?_, h⟩
      rw [step, cowHandleFault_of_unmapped h.footing hr ht, Option.map_some]
  | some e =>
      obtain ⟨f, fl⟩ := e
      have hspec := cowHandleFault_spec h.footing hpage hr ht
      generalize hcall : cowHandleFault allocPage c.state pml4 virt = out at hspec
      cases hspec with
      | fails s' g' h' hentries =>
          refine ⟨{ c with state := s' }, g', ?_, h.unchanged h' ?_⟩
          · rw [step, hcall, Option.map_some]
          rcases hentries with hentry | ⟨hcow, hcounted⟩
          · exact hentry
          · -- the frame is in the table already
            have hmem : g.HasEntry c.state.mem f := by
              have htwo := h.two_le_cnt hr ht hcow (hother f fl ht hcow)
              exact (h.entry_iff f).mpr (Nat.ne_of_gt (lt_of_lt_of_le Nat.two_pos htwo))
            funext x
            apply propext
            rw [hcounted.entries x]
            refine or_iff_left_of_imp ?_
            rintro rfl
            exact hmem
      | upgrades s' g' fl' hcow h1 =>
          have htwo := h.two_le_cnt hr ht hcow (hother f fl ht hcow)
          rw [h1] at htwo
          exact absurd htwo (by norm_num)
      | copies s' g' f' fl' hcow h1 hflags h' hfresh hD hcounted _ =>
          have htwo := h.two_le_cnt hr ht hcow (hother f fl ht hcow)
          have hcnt := hcounted.cnt_eq
          rw [Word.sub_eq (Nat.one_le_of_lt htwo) (h.footing.refs.cnt_lt f)] at hcnt
          have hmap : mappingBy cowOf c.state.mem c.roots (name pml4 virt) = some (f, true) := by
            rw [mappingBy_of_translate hr ht, hcow]
          refine ⟨{ c with state := s' }, g', ?_, h'.footing, ?_, fun x => ?_⟩
          · rw [step, hcall, Option.map_some]
          · show Exact (mappingBy cowOf s'.mem c.roots) g'.cnt
            rw [mappingBy_update hr h'.translate_eq, hcnt, cowOf, hflags.2]
            exact h.exact.leave hmap f'
          · show g'.HasEntry s'.mem x ↔ g'.cnt x ≠ 0
            rw [hcounted.entries x, h.entry_iff x, hcnt]
            by_cases hx : x = f
            · rw [hx, Function.update_self]
              exact iff_of_true (Or.inr rfl) (Nat.sub_ne_zero_of_lt htwo)
            · rw [Function.update_of_ne hx]
              exact or_iff_left hx

/-- One call. -/
theorem Inv.step (h : Inv P c g) (hframe : P.Allocator allocFrame) (hpage : P.Allocator allocPage) {op : Op}
    (hop : Proper c op) : ∃ c' g', Sharers.step allocFrame allocPage c op = some c' ∧ Inv P c' g' := by
  obtain ⟨hcalled, hdrift⟩ := hop
  cases op with
  | create => exact h.create hframe
  | mapFresh pml4 virt flags => exact h.mapFresh hframe hpage hcalled hdrift.1 hdrift.2
  | mapFrame pml4 virt phys flags =>
      obtain ⟨g', h'⟩ := h.mapPage hframe hcalled hdrift.1 hdrift.2 phys
      exact ⟨_, g', rfl, h'⟩
  | mark pml4 virt => exact h.mark hpage hcalled hdrift.1 hdrift.2
  | fault pml4 virt => exact h.fault hpage hcalled hdrift

/-- A run. -/
theorem Inv.exec (h : Inv P c g) (hframe : P.Allocator allocFrame) (hpage : P.Allocator allocPage) {ops : List Op}
    (hg : Guarded (Sharers.step allocFrame allocPage) Proper c ops) :
    ∃ c', Interleaving.exec (Sharers.step allocFrame allocPage) c ops = some c' ∧ ∃ g', Inv P c' g' := by
  refine @exec_total _ _ (Sharers.step allocFrame allocPage) Proper (fun c => ∃ g, Inv P c g) ?_ c ops ⟨g, h⟩ hg
  rintro c op ⟨g, h⟩ hop
  obtain ⟨c', g', hstep, h'⟩ := h.step hframe hpage hop
  exact ⟨c', hstep, g', h'⟩

/-- The start of a run: no page is copy-on-write. -/
theorem inv_start {s : Machine A} {roots : List ℕ} {F T : Set ℕ} (howns : P.Owns s F)
    (htables : Tables s.mem {r | r ∈ roots} T) (hT : T ⊆ F)
    (hprivate : ∀ r ∈ roots, ∀ v f fl, translate s.mem r v = some (f, fl) → isCow fl = false) :
    Inv P (start s roots) ⟨F, T, ∅, ∅, fun _ => [], fun _ => 0⟩ := by
  have hnone : ∀ f, shared (mappingBy cowOf s.mem roots) f = ∅ := by
    intro f
    apply Set.eq_empty_of_forall_notMem
    intro n hn
    obtain ⟨v, e, hr, ht, he⟩ := exists_of_mappingBy hn
    have hcow := (Prod.mk.inj he).2
    rw [hprivate n.1 hr v e.1 e.2 ht] at hcow
    exact absurd hcow nofun
  refine ⟨⟨howns, htables, refs_init s.mem, hT, Set.empty_subset F, Set.empty_subset F,
    fun _ _ => Set.notMem_empty _, fun _ h => absurd h (Set.notMem_empty _), fun _ h => absurd h (Set.notMem_empty _)⟩,
    ⟨fun f => ?_, fun f => ?_⟩, fun f => ?_⟩
  · show (shared (mappingBy cowOf s.mem roots) f).Finite
    rw [hnone f]
    exact Set.finite_empty
  · show (shared (mappingBy cowOf s.mem roots) f).ncard = 0
    rw [hnone f]
    exact Set.ncard_empty _
  · exact iff_of_false (fun ⟨_, hr, _⟩ => List.not_mem_nil hr) (fun h => h rfl)

end inv

/-- In every run without a drifting call, the reference table has an entry for a frame exactly when a copy-on-write
page table entry names it, and the count is the number of these entries; the page allocators may fail. -/
theorem counts_cowPtes {A : Type} (P : Ownership A) (allocFrame allocPage : Machine A → ℕ × Machine A)
    (hframe : P.Allocator allocFrame) (hpage : P.Allocator allocPage) (s : Machine A) (roots : List ℕ) (F T : Set ℕ)
    (howns : P.Owns s F) (htables : Tables s.mem {r | r ∈ roots} T) (hT : T ⊆ F)
    (hprivate : ∀ r ∈ roots, ∀ v f fl, translate s.mem r v = some (f, fl) → isCow fl = false) (ops : List Op)
    (hg : Guarded (step allocFrame allocPage) Proper (start s roots) ops) :
    ∃ c, Interleaving.exec (step allocFrame allocPage) (start s roots) ops = some c ∧ CountsPtes c := by
  obtain ⟨c, hexec, g, h⟩ := (inv_start howns htables hT hprivate).exec hframe hpage hg
  exact ⟨c, hexec, h.countsPtes⟩

/-! ### One page -/

/-- A writable page is mapped and two pages are free. -/
def onePage : Config (List ℕ) := start ⟨onePageMem 0x5003, [0x6000, 0x7000]⟩ [0x1000]

/-- The tables and the pages at hand are apart. -/
theorem owns_onePage : stack.Owns onePage.state.toMachine onePageTables := by
  refine ⟨isFrame_onePageTables, by decide, fun f hf => ?_⟩
  obtain rfl | rfl : f = 0x6000 ∨ f = 0x7000 := by simpa [onePage, start, cowInit] using hf
  · refine ⟨⟨by decide, by decide, by decide⟩, ?_⟩
    rintro (h | h | h | h) <;> exact absurd h (by decide)
  · refine ⟨⟨by decide, by decide, by decide⟩, ?_⟩
    rintro (h | h | h | h) <;> exact absurd h (by decide)

/-- The tables of the page. -/
theorem tables_onePage : Tables onePage.state.mem {r | r ∈ [0x1000]} onePageTables := by
  have hset : {r | r ∈ [0x1000]} = ({0x1000} : Set ℕ) := by
    ext r
    exact List.mem_singleton
  rw [hset]
  exact (@onePage_spec 0x5003 (by norm_num)).1

/-- No page is shared at the start. -/
theorem private_onePage :
    ∀ r ∈ [0x1000], ∀ v f fl, Vmm.translate onePage.state.mem r v = some (f, fl) → isCow fl = false := by
  intro r hr v f fl ht
  obtain rfl := List.mem_singleton.mp hr
  have hdec : decode 0x5003 = some (0x5000, 3) := by decide
  have htrans := (@onePage_spec 0x5003 (by norm_num)).2 v
  rw [hdec] at htrans
  rw [show Vmm.translate onePage.state.mem 0x1000 v = _ from htrans] at ht
  split_ifs at ht
  obtain ⟨-, rfl⟩ := Prod.mk.inj (Option.some.inj ht)
  decide

/-- The page is shared with a second mapping, and the first one is written to. -/
def sharing : List Op :=
  [.mark 0x1000 0x400000, .mapFrame 0x1000 0x401000 0x5000 5, .mark 0x1000 0x401000, .fault 0x1000 0x400000]

/-- A page that is shared and copied. -/
theorem counts_cowPtes_sample :
    ∃ c, Interleaving.exec (step popFree popFree) onePage sharing = some c ∧ CountsPtes c := by
  refine counts_cowPtes stack popFree popFree popFree_allocator popFree_allocator _ [0x1000] onePageTables onePageTables
    owns_onePage tables_onePage subset_rfl private_onePage sharing ?_
  have hinv := inv_start owns_onePage tables_onePage subset_rfl private_onePage
  have hfirst : Proper onePage (.mark 0x1000 0x400000) := by
    refine ⟨List.mem_cons_self, private_onePage 0x1000 List.mem_cons_self 0x400000, fun f fl _ => ?_⟩
    have hcount : (0 : ℕ) = (cowPtes onePage f).ncard := by
      rw [cowPtes_eq]
      exact (hinv.exact.count_eq f).symm
    rw [← hcount]
    decide
  refine ⟨hfirst, fun c₁ h₁ => ?_⟩
  obtain ⟨c', g₁, h', hinv₁⟩ := hinv.step popFree_allocator popFree_allocator hfirst
  obtain rfl : c' = c₁ := Option.some.inj (h'.symm.trans h₁)
  have hexec₁ : Interleaving.exec (step popFree popFree) onePage [.mark 0x1000 0x400000] = some c' :=
    (@exec_concat _ _ _ onePage onePage [] _ rfl).trans h₁
  have hsecond : Proper c' (.mapFrame 0x1000 0x401000 0x5000 5) := by
    have hvals : (Interleaving.exec (step popFree popFree) onePage [.mark 0x1000 0x400000]).map (fun c =>
        (c.roots, Vmm.translate c.state.mem 0x1000 0x401000)) = some ([0x1000], none) := by decide +kernel
    rw [hexec₁, Option.map_some, Option.some.injEq, Prod.mk.injEq] at hvals
    refine ⟨?_, by decide, fun f fl ht => ?_⟩
    · show 0x1000 ∈ c'.roots
      rw [hvals.1]
      exact List.mem_cons_self
    · rw [hvals.2] at ht
      exact absurd ht nofun
  refine ⟨hsecond, fun c₂ h₂ => ?_⟩
  obtain ⟨c'', g₂, h'', hinv₂⟩ := hinv₁.step popFree_allocator popFree_allocator hsecond
  obtain rfl : c'' = c₂ := Option.some.inj (h''.symm.trans h₂)
  have hexec₂ : Interleaving.exec (step popFree popFree) onePage
      [.mark 0x1000 0x400000, .mapFrame 0x1000 0x401000 0x5000 5] = some c'' := (exec_concat hexec₁).trans h₂
  refine ⟨?_, fun c₃ h₃ => ⟨?_, fun _ _ => trivial⟩⟩
  · have hvals : (Interleaving.exec (step popFree popFree) onePage
        [.mark 0x1000 0x400000, .mapFrame 0x1000 0x401000 0x5000 5]).map (fun c =>
          (c.roots, Vmm.translate c.state.mem 0x1000 0x401000, cowGetRefCount c.state 0x5000))
        = some ([0x1000], some (0x5000, 5), some 1) := by decide +kernel
    rw [hexec₂, Option.map_some, Option.some.injEq, Prod.mk.injEq, Prod.mk.injEq] at hvals
    have hcount := hinv₂.countsPtes.count_eq 0x5000
    rw [hvals.2.2, Option.some.injEq, show frameOf 0x5000 = 0x5000 by decide] at hcount
    refine ⟨?_, fun f fl ht => ?_, fun f fl ht => ?_⟩
    · show 0x1000 ∈ c''.roots
      rw [hvals.1]
      exact List.mem_cons_self
    · rw [hvals.2.1] at ht
      obtain ⟨-, rfl⟩ := Prod.mk.inj (Option.some.inj ht)
      decide
    · rw [hvals.2.1] at ht
      obtain ⟨rfl, -⟩ := Prod.mk.inj (Option.some.inj ht)
      rw [← hcount]
      decide
  · have hexec₃ := (exec_concat hexec₂).trans h₃
    have hvals : (Interleaving.exec (step popFree popFree) onePage
        [.mark 0x1000 0x400000, .mapFrame 0x1000 0x401000 0x5000 5, .mark 0x1000 0x401000]).map (fun c =>
          (c.roots, Vmm.translate c.state.mem 0x1000 0x400000, Vmm.translate c.state.mem 0x1000 0x401000))
        = some ([0x1000], some (0x5000, 0x201), some (0x5000, 0x205)) := by decide +kernel
    rw [show Interleaving.exec (step popFree popFree) onePage
        [.mark 0x1000 0x400000, .mapFrame 0x1000 0x401000 0x5000 5, .mark 0x1000 0x401000] = some c₃ from hexec₃,
      Option.map_some, Option.some.injEq, Prod.mk.injEq, Prod.mk.injEq] at hvals
    have hroot : 0x1000 ∈ c₃.roots := by
      rw [hvals.1]
      exact List.mem_cons_self
    refine ⟨hroot, fun f fl ht _ => ⟨name 0x1000 0x401000, ⟨hroot, 0x205, ?_, by decide⟩, by decide⟩⟩
    rw [hvals.2.1] at ht
    obtain ⟨rfl, -⟩ := Prod.mk.inj (Option.some.inj ht)
    show space c₃.state.mem 0x1000 (vpn 0x401000) = some (0x5000, 0x205)
    rw [space_vpn]
    exact hvals.2.2

/-- The call does what it is called for: there are pages for everything. -/
def Succeeds (allocFrame allocPage : Machine (List ℕ) → ℕ × Machine (List ℕ)) (c : Config (List ℕ)) : Op → Prop
  | .create => (vmmCreateAddressSpace allocFrame c.state.toMachine).1 ≠ 0
  | .mapFresh pml4 virt _ => (allocPage c.state.toMachine).1 ≠ 0 ∧
      (ptFor allocFrame (allocPage c.state.toMachine).2 pml4 virt).1 ≠ 0
  | .mapFrame pml4 virt _ _ => (ptFor allocFrame c.state.toMachine pml4 virt).1 ≠ 0
  | .mark pml4 virt => (cowMarkPage allocPage c.state pml4 virt).map Prod.fst = some 0
  | .fault pml4 virt => (cowHandleFault allocPage c.state pml4 virt).map Prod.fst = some 0

/-- A page is marked once and written to: its entry stays in the table, with count 0. -/
theorem last_sharer_kept :
    ¬ ∀ (P : Ownership (List ℕ)) (allocFrame allocPage : Machine (List ℕ) → ℕ × Machine (List ℕ)),
        P.Allocator allocFrame → P.Allocator allocPage →
      ∀ (s : Machine (List ℕ)) (roots : List ℕ) (F T : Set ℕ), P.Owns s F → Tables s.mem {r | r ∈ roots} T → T ⊆ F →
        (∀ r ∈ roots, ∀ v f fl, translate s.mem r v = some (f, fl) → isCow fl = false) → ∀ ops : List Op,
          Guarded (step allocFrame allocPage) (fun c op => Called c op ∧ Succeeds allocFrame allocPage c op)
            (start s roots) ops →
          ∃ c, Interleaving.exec (step allocFrame allocPage) (start s roots) ops = some c ∧ CountsPtes c := by
  intro hclaim
  have hmark : (cowMarkPage popFree onePage.state 0x1000 0x400000).map Prod.fst = some 0 := by decide +kernel
  have hguard : Guarded (step popFree popFree) (fun c op => Called c op ∧ Succeeds popFree popFree c op) onePage
      [.mark 0x1000 0x400000, .fault 0x1000 0x400000] := by
    refine ⟨⟨List.mem_cons_self, hmark⟩, fun c₁ h₁ => ⟨?_, fun _ _ => trivial⟩⟩
    have hvals : (step popFree popFree onePage (.mark 0x1000 0x400000)).map (fun c =>
        (c.roots, (cowHandleFault popFree c.state 0x1000 0x400000).map Prod.fst)) = some ([0x1000], some 0) := by
      decide +kernel
    rw [h₁, Option.map_some, Option.some.injEq, Prod.mk.injEq] at hvals
    refine ⟨?_, hvals.2⟩
    show 0x1000 ∈ c₁.roots
    rw [hvals.1]
    exact List.mem_cons_self
  obtain ⟨c, hexec, hcounts⟩ := hclaim stack popFree popFree popFree_allocator popFree_allocator _ [0x1000]
    onePageTables onePageTables owns_onePage tables_onePage subset_rfl private_onePage _ hguard
  have hvals : (Interleaving.exec (step popFree popFree) onePage [.mark 0x1000 0x400000, .fault 0x1000 0x400000]).map
      (fun c => (findRef c.state 0x5000, cowGetRefCount c.state 0x5000)) = some (some 0x6000, some 0) := by
    decide +kernel
  rw [show Interleaving.exec (step popFree popFree) onePage [.mark 0x1000 0x400000, .fault 0x1000 0x400000] = some c
    from hexec, Option.map_some, Option.some.injEq, Prod.mk.injEq] at hvals
  -- there is an entry, so some page table entry is copy-on-write, but none is counted
  obtain ⟨n, hn⟩ := (hcounts.entry_iff 0x5000).mp ⟨0x6000, by decide, hvals.1⟩
  have hcount := hcounts.count_eq 0x5000
  rw [hvals.2, Option.some.injEq, show frameOf 0x5000 = 0x5000 by decide] at hcount
  have hempty := (Set.ncard_eq_zero (finite_cowPtes c 0x5000)).mp hcount.symm
  rw [hempty] at hn
  exact hn

end PrometheusKernel.Cow.Sharers
