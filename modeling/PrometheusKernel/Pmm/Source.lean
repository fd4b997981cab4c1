import PrometheusKernel.Pmm.Model
import PrometheusKernel.Buddy.Partition
import PrometheusKernel.Ownership

/-!
# The physical memory manager follows the ownership discipline

`source h` is the discipline of frames taken from the buddy allocator on a usable region: the held
frames are among the live single pages. `pmm_alloc_frame` and `buddy_alloc_pages(0, …)` on the
unmovable zone are allocators of it (`pmmAllocFrame_allocator`, `buddyFrame_allocator`), so whatever
is proved of a client against `Ownership` holds of the client on top of `pmm.c` and `buddy.c`.
-/

namespace PrometheusKernel.Pmm

open ByteMem Buddy BuddySystem

variable {memoryStart memorySize : ℕ}

/-- The frames `F` are live single pages of the buddy allocator. -/
def OwnsPages (h : Usable memoryStart memorySize) (b : Buddy.State) (F : Set ℕ) : Prop :=
  ∃ live lists S, Buddy.Inv h.region ⟨b, live⟩ lists S ∧ ∀ f ∈ F, (f, 0) ∈ live

/-- The pages that are owned are frames. -/
theorem OwnsPages.isFrame {h : Usable memoryStart memorySize} {b : Buddy.State} {F : Set ℕ}
    (ho : OwnsPages h b F) {f : ℕ} (hf : f ∈ F) : IsFrame f := by
  obtain ⟨live, lists, S, hinv, hF⟩ := ho
  obtain ⟨i, hi, hused, h0⟩ := hinv.live _ (hF f hf)
  simp only at hi h0
  have hlt : i < h.region.pages := S.lt_of_ind (Or.inr hused) (ind_self _)
  refine ⟨h0, ?_, ?_⟩
  · rw [hi]
    unfold Region.addr
    rw [Nat.add_mul_mod_self_right]
    exact h.aligned
  · rw [hi]
    exact lt_of_lt_of_le (Region.addr_lt_end hlt) h.below

/-- Writes into the pages owned leave the allocator as it is. -/
theorem OwnsPages.write {h : Usable memoryStart memorySize} {b : Buddy.State} {F : Set ℕ}
    (ho : OwnsPages h b F) {w : Mem} (hw : ∀ x, (∀ f ∈ F, ¬ InPage f x) → w x = b.mem x) :
    OwnsPages h { b with mem := w } F := by
  obtain ⟨live, lists, S, hinv, hF⟩ := ho
  refine ⟨live, lists, S, hinv.write fun x hx => hw x fun f hf hin => ?_, hF⟩
  apply hx _ (hF f hf)
  unfold InBlock
  unfold InPage at hin
  simpa using hin

/-- The allocator only depends on physical memory. -/
theorem OwnsPages.congr {h : Usable memoryStart memorySize} {b : Buddy.State} {F : Set ℕ}
    (ho : OwnsPages h b F) {w : Mem} (hw : ∀ x < 2 ^ 52, w x = b.mem x) :
    OwnsPages h { b with mem := w } F := by
  obtain ⟨live, lists, S, hinv, hF⟩ := ho
  refine ⟨live, lists, S, ⟨hinv.rep.congr_mem fun x hx => hw x ?_, hinv.bits, hinv.nodup, hinv.live, hinv.lost,
    hinv.totalPages, hinv.freePages⟩, hF⟩
  -- the links of the free blocks lie in the region
  obtain ⟨p, hp, hnode⟩ := hx
  have hlt : h.region.addr p.1 < memoryStart + memorySize :=
    Region.addr_lt_end (S.lt_of_ind (Or.inl hp) (ind_self p))
  have haligned : h.region.addr p.1 % 4096 = 0 := by
    show (memoryStart + p.1 * 4096) % 4096 = 0
    rw [Nat.add_mul_mod_self_right]
    exact h.aligned
  have hbelow := h.below
  unfold OffNode at hnode
  omega

/-- What one call of `buddy_alloc_pages(0, BUDDY_ZONE_UNMOVABLE)` does to held frames. -/
theorem OwnsPages.alloc {h : Usable memoryStart memorySize} {b : Buddy.State} {F : Set ℕ}
    (ho : OwnsPages h b F) :
    ((buddyAllocPages b 0 0).1 = 0 → OwnsPages h (buddyAllocPages b 0 0).2 F) ∧
      ((buddyAllocPages b 0 0).1 ≠ 0 → (buddyAllocPages b 0 0).1 ∉ F ∧
        OwnsPages h (buddyAllocPages b 0 0).2 (Set.insert (buddyAllocPages b 0 0).1 F)) ∧
      ∀ f ∈ F, ∀ x, InPage f x → (buddyAllocPages b 0 0).2.mem x = b.mem x := by
  obtain ⟨live, lists, S, hinv, hF⟩ := ho
  rcases hinv.alloc 0 0 with hfail | ⟨i, lists', S', hres, h0, hfresh, hused, hmem, hinv'⟩
  · simp only at hfail
    rw [hfail]
    exact ⟨fun _ => ⟨live, lists, S, hinv, hF⟩, fun hne => absurd rfl hne, fun _ _ _ _ => rfl⟩
  · simp only at hres hmem hinv'
    refine ⟨fun hz => absurd (hres.symm.trans hz) h0, fun _ => ⟨?_, ?_⟩, fun f hf x hx => ?_⟩
    · intro hmemF
      obtain ⟨j, hj, hjused, -⟩ := hinv.live _ (hF _ hmemF)
      simp only at hj
      rw [hres] at hj
      rw [h.region.addr_injective hj] at hfresh
      exact hfresh hjused
    · refine ⟨_, lists', S', hinv', ?_⟩
      rintro f (hf | hf)
      · rw [hf, hres]
        exact List.mem_cons_self
      · exact List.mem_cons_of_mem _ (hF f hf)
    · -- a byte of a used page lies in no free page
      obtain ⟨j, hj, hjused, -⟩ := hinv.live _ (hF f hf)
      simp only at hj
      apply hmem
      intro p hp hcov
      by_contra hcon
      have hpj : p = j := by
        unfold InPage at hx
        rw [hj] at hx
        unfold Region.addr pageSize at hx hcon
        omega
      have hpos := ind_le_coverage hjused p
      rw [hpj, ind_self (j, 0), ← hpj, hcov] at hpos
      exact absurd hpos (by norm_num)

/-- The discipline of frames taken from the buddy allocator. -/
def source (h : Usable memoryStart memorySize) : Ownership PmmGlobals where
  Owns s F := s.pages.buddyInitialized = true ∧ OwnsPages h (State.toBuddy s) F
  isFrame ho _ hf := ho.2.isFrame hf
  write ho _ hw := ⟨ho.1, ho.2.write hw⟩

/-- Writes above physical memory do not matter to it. -/
theorem source_physical (h : Usable memoryStart memorySize) : (source h).Physical :=
  fun ho _ hw => ⟨ho.1, ho.2.congr hw⟩

/-- `buddy_alloc_pages(0, BUDDY_ZONE_UNMOVABLE)`, called beside `pmm.c`. -/
def buddyFrame (s : State) : ℕ × State :=
  let res := buddyAllocPages s.toBuddy 0 0
  (res.1, s.setBuddy res.2)

/-- The frame is that of `buddy_alloc_pages`. -/
@[simp] theorem buddyFrame_fst (s : State) : (buddyFrame s).1 = (buddyAllocPages s.toBuddy 0 0).1 :=
  rfl

/-- What is left is what `buddy_alloc_pages` leaves. -/
@[simp] theorem buddyFrame_snd (s : State) :
    (buddyFrame s).2 = s.setBuddy (buddyAllocPages s.toBuddy 0 0).2 := rfl

/-- `buddy_alloc_pages(0, 0)` follows the discipline of frames. -/
theorem buddyFrame_allocator (h : Usable memoryStart memorySize) :
    (source h).Allocator buddyFrame where
  fail {s F} ho hz := by
    refine ⟨ho.1, ?_⟩
    rw [buddyFrame_snd, State.toBuddy_setBuddy]
    exact ho.2.alloc.1 hz
  fresh ho hne := (ho.2.alloc.2.1 hne).1
  owns {s F} ho hne := by
    refine ⟨ho.1, ?_⟩
    rw [buddyFrame_snd, State.toBuddy_setBuddy]
    exact (ho.2.alloc.2.1 hne).2
  mem {s F} ho f hf x hx := by
    rw [buddyFrame_snd, State.mem_setBuddy]
    exact ho.2.alloc.2.2 f hf x hx

/-- `buddy_free_pages(f, 0)`. -/
def buddyRelease (f : ℕ) (s : State) : State :=
  match buddyFreePages s.toBuddy f 0 with
  | none => s
  | some b => s.setBuddy b

/-- What one call of `buddy_free_pages(f, 0)` does to held frames. -/
theorem OwnsPages.free {h : Usable memoryStart memorySize} {b : Buddy.State} {F : Set ℕ}
    (ho : OwnsPages h b F) {f : ℕ} (hf : f ∈ F) :
    ∃ b', buddyFreePages b f 0 = some b' ∧ OwnsPages h b' (F \ {f}) ∧
      ∀ u ∈ F, u ≠ f → ∀ x, InPage u x → b'.mem x = b.mem x := by
  obtain ⟨live, lists, S, hinv, hF⟩ := ho
  obtain ⟨i, hi, hused, h0⟩ := hinv.live _ (hF f hf)
  simp only at hi hused h0
  obtain ⟨b', lists', S', hres, hrel⟩ := hinv.rep.free (lostCount_le _) h.accepts.1 h.accepts.2 hinv.bits hused
    (hi ▸ h0)
  have hvalid : Buddy.Run.Valid ⟨b, live⟩ (.free f 0) := hF f hf
  obtain ⟨c', lists'', S'', hstep, hinv', -⟩ := hinv.step hvalid
  rw [← hi] at hres
  obtain rfl : c' = ⟨b', live.erase (f, 0)⟩ := by
    simp only [Buddy.step, hres] at hstep
    exact (Option.some.inj hstep).symm
  refine ⟨b', hres, ⟨_, lists'', S'', hinv', fun u hu => ?_⟩, fun u hu hne x hx => ?_⟩
  · exact (List.mem_erase_of_ne fun heq => hu.2 (Prod.mk.inj heq).1).mpr (hF u hu.1)
  · -- a byte of a page that stays in use
    obtain ⟨j, hj, hjused, -⟩ := hinv.live _ (hF u hu)
    simp only at hj hjused
    have hji : (j, 0) ≠ (i, 0) := fun heq => hne (hj.trans ((congrArg _ (Prod.mk.inj heq).1).trans hi.symm))
    apply hrel.mem
    intro p hp hcov
    by_contra hcon
    have hpj : p = j := by
      unfold InPage at hx
      rw [hj] at hx
      unfold Region.addr pageSize at hx hcon
      omega
    have hpos := ind_le_coverage (Finset.mem_erase.mpr ⟨hji, hjused⟩) p
    rw [hpj, ind_self (j, 0), ← hpj, hcov] at hpos
    exact absurd hpos (by norm_num)

/-- `buddy_free_pages(_, 0)` follows the discipline of frames. -/
theorem buddyRelease_freer (h : Usable memoryStart memorySize) : (source h).Freer buddyRelease where
  owns {s F} ho f hf := by
    obtain ⟨b', hres, howns, -⟩ := ho.2.free hf
    unfold buddyRelease
    rw [hres]
    refine ⟨ho.1, ?_⟩
    dsimp only
    rw [State.toBuddy_setBuddy]
    exact howns
  mem {s F} ho f hf u hu hne x hx := by
    obtain ⟨b', hres, -, hmem⟩ := ho.2.free hf
    unfold buddyRelease
    rw [hres]
    dsimp only
    rw [State.mem_setBuddy]
    exact hmem u hu hne x hx

/-- `pmm_alloc_frame` is the same call, with a counter kept beside it. -/
theorem pmmAllocFrame_eq {s : State} (h : s.pages.buddyInitialized = true) :
    ∃ free, pmmAllocFrame s = ((buddyFrame s).1,
      { (buddyFrame s).2 with pages := { (buddyFrame s).2.pages with free := free } }) := by
  unfold pmmAllocFrame buddyFrame
  rcases buddyAllocPages s.toBuddy 0 0 with ⟨frame, b⟩
  simp only [h, Bool.not_true, Bool.false_eq_true, if_false]
  split_ifs with h1 h2
  · exact ⟨s.pages.free, by rw [h1]; rfl⟩
  · exact ⟨_, rfl⟩
  · exact ⟨s.pages.free, rfl⟩

/-- The counter plays no role in the discipline. -/
theorem owns_setFree {h : Usable memoryStart memorySize} {s : State} {F : Set ℕ}
    (ho : (source h).Owns s F) (free : ℕ) :
    (source h).Owns { s with pages := { s.pages with free := free } } F := ho

/-- `pmm_alloc_frame` follows the discipline of frames. -/
theorem pmmAllocFrame_allocator (h : Usable memoryStart memorySize) :
    (source h).Allocator pmmAllocFrame where
  fail {s F} ho hz := by
    obtain ⟨free, heq⟩ := pmmAllocFrame_eq ho.1
    rw [heq] at hz ⊢
    exact owns_setFree ((buddyFrame_allocator h).fail ho hz) free
  fresh {s F} ho hne := by
    obtain ⟨free, heq⟩ := pmmAllocFrame_eq ho.1
    rw [heq] at hne ⊢
    exact (buddyFrame_allocator h).fresh ho hne
  owns {s F} ho hne := by
    obtain ⟨free, heq⟩ := pmmAllocFrame_eq ho.1
    rw [heq] at hne ⊢
    exact owns_setFree ((buddyFrame_allocator h).owns ho hne) free
  mem {s F} ho f hf x hx := by
    obtain ⟨free, heq⟩ := pmmAllocFrame_eq ho.1
    rw [heq]
    exact (buddyFrame_allocator h).mem ho f hf x hx

/-- The state after `buddy_init` on a usable region, with nothing held yet. -/
def booted (m : Mem) (memoryStart memorySize : ℕ) : State :=
  State.setBuddy ⟨m, BuddyGlobals.zero, memorySize, memorySize, true⟩
    (buddyInit m memoryStart memorySize)

/-- After `buddy_init` nobody owns a page. -/
theorem owns_booted (h : Usable memoryStart memorySize) (m : Mem) :
    (source h).Owns (booted m memoryStart memorySize) ∅ := by
  obtain ⟨lists, S, hinv, -, -⟩ := inv_boot m h.region
  refine ⟨rfl, ?_⟩
  unfold booted
  rw [State.toBuddy_setBuddy]
  exact ⟨[], lists, S, hinv, fun f hf => absurd hf (Set.notMem_empty f)⟩

end PrometheusKernel.Pmm
