import PrometheusKernel.Cow.RefCounts
import PrometheusKernel.PageStack

/-!
# Failed calls of `cow.c` are not seen

When `cow_mark_page` or `cow_handle_fault` returns -1, no page table entry, no count and no mapped page has
changed (`failed_call_unseen`). Three things a failing call does have no effect that shows: an entry that
`cow_get_ref` made has count 0, which is what a frame without an entry counts; `cow_handle_fault` takes one
from the count before it asks for a page and adds one when there is none, which is the count it was also
where it was 0; and the page of a new entry was not in use.

Nothing is asked of the arguments or of the shape of the page tables: the tables that walks pass through and
the frames they lead to may be shared, may be tables or entries themselves, and need only be allocated.
-/

namespace PrometheusKernel.Cow

open ByteMem LinkedList Vmm TableTree

section failed

variable {A : Type} {P : Ownership A} {alloc : Machine A → ℕ × Machine A} {s s' : State A} {roots : Set ℕ}
  {g : Ghost} {pml4 virtAddr : ℕ}

/-- Held frames and counts are as they were. -/
structure Unseen (P : Ownership A) (roots : Set ℕ) (s : State A) (g : Ghost) (s' : State A) (g' : Ghost) : Prop where
  footing : Footing P s' roots g'
  cnt_eq : g'.cnt = g.cnt
  held_mem : ∀ u ∈ g.F, ∀ x, InPage u x → s'.mem x = s.mem x

/-- `cow_get_ref` changes nothing that a client sees. -/
theorem Found.unseen {f ref : ℕ} {g' : Ghost} (h : Found P roots s g f ref s' g') : Unseen P roots s g s' g' :=
  ⟨h.kept.footing, h.cnt_eq, h.held_mem⟩

/-- A call that does nothing. -/
theorem Unseen.refl (h : Footing P s roots g) : Unseen P roots s g s g := ⟨h, rfl, fun _ _ _ _ => rfl⟩

/-- `cow_mark_page` fails before it writes. -/
theorem cowMarkPage_failed (h : Footing P s roots g) (halloc : P.Allocator alloc)
    (hcall : cowMarkPage alloc s pml4 virtAddr = some (-1, s')) : ∃ g', Unseen P roots s g s' g' := by
  have hstay : some ((-1 : ℤ), s) = some (-1, s') → ∃ g', Unseen P roots s g s' g' := by
    intro heq
    obtain rfl : s = s' := (Prod.mk.inj (Option.some.inj heq)).2
    exact ⟨g, .refl h⟩
  obtain ⟨ref, s₁, g₁, hget, hfound⟩ :=
    h.getRef halloc (load 8 s.mem (cowGetPte s.mem pml4 virtAddr) &&& frameMask)
  unfold cowMarkPage at hcall
  by_cases hnull : pml4 = 0
  · rw [if_pos hnull] at hcall
    exact hstay hcall
  rw [if_neg hnull] at hcall
  by_cases hpte : cowGetPte s.mem pml4 virtAddr = 0
  · simp only [if_pos hpte] at hcall
    exact hstay hcall
  by_cases hpres : load 8 s.mem (cowGetPte s.mem pml4 virtAddr) &&& flagPresent = 0
  · simp only [if_neg hpte, if_pos hpres] at hcall
    exact hstay hcall
  simp only [if_neg hpte, if_neg hpres, hget] at hcall
  cases ref with
  | zero =>
      obtain rfl : s₁ = s' := (Prod.mk.inj (Option.some.inj hcall)).2
      exact ⟨g₁, hfound.unseen⟩
  | succ k => exact absurd (Prod.mk.inj (Option.some.inj hcall)).1 (by decide)

/-- `cow_handle_fault` fails before it writes to an entry of a table, and with the count restored. -/
theorem cowHandleFault_failed (h : Footing P s roots g) (halloc : P.Allocator alloc)
    (hcall : cowHandleFault alloc s pml4 virtAddr = some (-1, s')) : ∃ g', Unseen P roots s g s' g' := by
  have hstay : some ((-1 : ℤ), s) = some (-1, s') → ∃ g', Unseen P roots s g s' g' := by
    intro heq
    obtain rfl : s = s' := (Prod.mk.inj (Option.some.inj heq)).2
    exact ⟨g, .refl h⟩
  set entry := load 8 s.mem (cowGetPte s.mem pml4 virtAddr) with hentry
  obtain ⟨ref, s₁, g₁, hget, hfound⟩ := h.getRef halloc (entry &&& frameMask)
  unfold cowHandleFault at hcall
  by_cases hpte : cowGetPte s.mem pml4 virtAddr = 0
  · simp only [if_pos hpte] at hcall
    exact hstay hcall
  by_cases hpres : entry &&& flagPresent = 0
  · simp only [if_neg hpte, ← hentry, if_pos hpres] at hcall
    exact hstay hcall
  by_cases hcow : entry &&& cowFlagMask = 0
  · simp only [if_neg hpte, ← hentry, if_neg hpres, if_pos hcow] at hcall
    exact hstay hcall
  simp only [if_neg hpte, ← hentry, if_neg hpres, if_neg hcow, hget] at hcall
  cases ref with
  | zero =>
      obtain rfl : s₁ = s' := (Prod.mk.inj (Option.some.inj hcall)).2
      exact ⟨g₁, hfound.unseen⟩
  | succ k =>
      have hk : k + 1 ≠ 0 := k.succ_ne_zero
      simp only [hfound.refCount_eq hk] at hcall
      split_ifs at hcall with h1 h0
      · exact absurd (Prod.mk.inj (Option.some.inj hcall)).1 (by decide)
      · obtain ⟨hkept, -, hheld⟩ := hfound.restored halloc hk rfl h0 (Prod.mk.inj (Option.some.inj hcall)).2.symm
        exact ⟨g₁, hkept.footing, hfound.cnt_eq, hheld⟩
      · exact absurd (Prod.mk.inj (Option.some.inj hcall)).1 (by decide)

/-- Walks through held tables are as they were. -/
theorem pageTable_of_held {m m' : Mem} {F : Set ℕ} (hm : ∀ u ∈ F, ∀ x, InPage u x → m' x = m x)
    (htables : ∀ t, Reached (child m) roots 3 t → t ∈ F) {r : ℕ} (hr : r ∈ roots) (v : ℕ) :
    pageTable m' r v = pageTable m r v := by
  apply walk_eq_of_agree (d := 3) _ (tablePath_length v).le
  intro q hq t ht i
  exact child_congr (hm t (htables t ⟨r, hr, q, hq.le, ht⟩)) i

end failed

/-- If `cow_mark_page` or `cow_handle_fault` returns -1, every page table entry of every address space, every
count and the contents of every mapped frame are as before the call, for every state whose tables and mapped
frames are allocated and every behaviour of the page allocator. -/
theorem failed_call_unseen {A : Type} (P : Ownership A) (alloc : Machine A → ℕ × Machine A) (halloc : P.Allocator alloc)
    (s s' : State A) (F R roots : Set ℕ) (chains : ℕ → List ℕ) (cnt : ℕ → ℕ) (howns : P.Owns s.toMachine F)
    (hrefs : Refs s.mem s.hashTable R chains cnt) (hR : R ⊆ F)
    (htables : ∀ t, Reached (child s.mem) roots 3 t → t ∈ F)
    (hmapped : ∀ r ∈ roots, ∀ v f fl, translate s.mem r v = some (f, fl) → f ∈ F) (pml4 virtAddr : ℕ)
    (hcall : cowMarkPage alloc s pml4 virtAddr = some (-1, s') ∨ cowHandleFault alloc s pml4 virtAddr = some (-1, s')) :
    (∀ r ∈ roots, ∀ v, cowGetPte s'.mem r v = cowGetPte s.mem r v ∧
        (cowGetPte s.mem r v ≠ 0 → load 8 s'.mem (cowGetPte s.mem r v) = load 8 s.mem (cowGetPte s.mem r v))) ∧
      (∀ physAddr, cowGetRefCount s' physAddr = cowGetRefCount s physAddr) ∧
      ∀ r ∈ roots, ∀ v f fl, translate s.mem r v = some (f, fl) → ∀ x, InPage f x → s'.mem x = s.mem x := by
  have hfoot : Footing P s ∅ ⟨F, ∅, R, ∅, chains, cnt⟩ :=
    ⟨howns, ⟨fun r hr => absurd hr (Set.notMem_empty r), fun t ht => absurd ht.choose_spec.1 (Set.notMem_empty _),
      fun t ht => absurd ht (Set.notMem_empty t)⟩, hrefs, Set.empty_subset F, hR, Set.empty_subset F,
      fun t ht => absurd ht (Set.notMem_empty t), fun d hd => absurd hd (Set.notMem_empty d),
      fun d hd => absurd hd (Set.notMem_empty d)⟩
  obtain ⟨g', hfoot', hcnt, hmem⟩ : ∃ g', Unseen P ∅ s ⟨F, ∅, R, ∅, chains, cnt⟩ s' g' := by
    rcases hcall with hcall | hcall
    · exact cowMarkPage_failed hfoot halloc hcall
    · exact cowHandleFault_failed hfoot halloc hcall
  refine ⟨fun r hr v => ?_, fun physAddr => ?_, fun r hr v f fl ht => hmem f (hmapped r hr v f fl ht)⟩
  · have hpt : pageTable s'.mem r v = pageTable s.mem r v := pageTable_of_held hmem htables hr v
    rw [cowGetPte_eq, cowGetPte_eq, hpt]
    refine ⟨rfl, fun hne => ?_⟩
    cases hc : pageTable s.mem r v with
    | none =>
        rw [hc] at hne
        exact absurd rfl hne
    | some pt =>
        have hptF : pt ∈ F := htables pt ⟨r, hr, tablePath v, (tablePath_length v).le, hc⟩
        exact readEntry_congr (ptIndex_lt v) (hmem pt hptF)
  · rw [hfoot'.getRefCount, hfoot.getRefCount, hcnt]

/-! ### One page in one address space -/

/-- The memory of an address space with four tables and one entry, that of `0x400000`. -/
def onePageMem (entry : ℕ) : Mem :=
  store 8 (hang (hang (hang (fun _ => 0) 0x1000 0 0x2000) 0x2000 0 0x3000) 0x3000 2 0x4000) (slot 0x4000 0) entry

/-- Its tables. -/
def onePageTables : Set ℕ := {0x4000, 0x3000, 0x2000, 0x1000}

/-- The tables are frames. -/
theorem isFrame_onePageTables : ∀ t ∈ onePageTables, IsFrame t := by
  rintro t (rfl | rfl | rfl | rfl) <;> exact ⟨by decide, by decide, by decide⟩

/-- Only the page of `0x400000` is mapped, as the entry says. -/
theorem onePage_spec {entry : ℕ} (he : entry < 2 ^ 64) :
    Tables (onePageMem entry) {0x1000} onePageTables ∧
      ∀ v, translate (onePageMem entry) 0x1000 v = if vpn v = 0x400 then decode entry else none := by
  have hf₁ : IsFrame 0x1000 := isFrame_onePageTables _ (by unfold onePageTables; simp)
  have hf₂ : IsFrame 0x2000 := isFrame_onePageTables _ (by unfold onePageTables; simp)
  have hf₃ : IsFrame 0x3000 := isFrame_onePageTables _ (by unfold onePageTables; simp)
  have hf₄ : IsFrame 0x4000 := isFrame_onePageTables _ (by unfold onePageTables; simp)
  have hroot : (0x1000 : ℕ) ∈ ({0x1000} : Set ℕ) := rfl
  have hzero : ∀ f, IsFrame f → f ≠ 0x1000 → f ≠ 0x2000 → ∀ x, InPage f x →
      hang (hang (fun _ => 0) 0x1000 0 0x2000) 0x2000 0 0x3000 x = 0 := by
    intro f hf h1 h2 x hx
    refine (store_slot_apply (by decide) fun hx' => h2 (hf.eq_of_inPage hf₂ hx hx')).trans ?_
    exact store_slot_apply (by decide) fun hx' => h1 (hf.eq_of_inPage hf₁ hx hx')
  obtain ⟨ht₀, hnone₀⟩ := tables_root (m := fun _ => 0) hf₁ fun _ _ => rfl
  obtain ⟨ht₁, hwalk₁, -, hsame₁⟩ := ht₀.hang (i := 0) hroot (p := []) (by decide) rfl (by decide)
    (child_clear (fun _ _ => rfl) _) hf₂ (by decide) fun _ _ => rfl
  obtain ⟨ht₂, hwalk₂, -, hsame₂⟩ := ht₁.hang (i := 0) hroot (by decide) hwalk₁ (by decide)
    (child_clear (fun x hx => hang_apply_new hf₁ (by decide) hf₂ (by decide) (fun _ _ => rfl) hx) _) hf₃
    (by rintro (h | h) <;> exact absurd h (by decide))
    fun x hx => store_slot_apply (by decide) fun hx' => absurd (hf₃.eq_of_inPage hf₁ hx hx') (by decide)
  obtain ⟨ht₃, hwalk₃, -, hsame₃⟩ := ht₂.hang (i := 2) hroot (by decide) hwalk₂ (by decide)
    (child_clear (hzero _ hf₃ (by decide) (by decide)) _) hf₄
    (by rintro (h | h | h) <;> exact absurd h (by decide)) (hzero _ hf₄ (by decide) (by decide))
  have hidx : ptIndex 0x400000 = 0 := by decide
  have hpt : pageTable (hang (hang (hang (fun _ => 0) 0x1000 0 0x2000) 0x2000 0 0x3000) 0x3000 2 0x4000) 0x1000
      0x400000 = some 0x4000 := hwalk₃
  refine ⟨?_, fun v => ?_⟩
  · have hleaf := ht₃.leafWrite hroot hpt entry
    rw [hidx] at hleaf
    exact hleaf
  · have hleaf := ht₃.translate_leafWrite hroot hpt he hroot v
    rw [hidx] at hleaf
    have hvpn : vpn 0x400000 = 0x400 := by decide
    refine hleaf.trans ?_
    rw [hvpn, hsame₃ _ hroot v, hsame₂ _ hroot v, hsame₁ _ hroot v, hnone₀ v]
    simp

/-- The page is copy-on-write and there is no page for a reference entry. -/
def outOfPages : State (List ℕ) := ⟨⟨onePageMem 0x5205, []⟩, fun _ => 0⟩

/-- A fault that finds no page for the copy fails, unseen. -/
theorem failed_call_unseen_sample :
    ∃ s', cowHandleFault popFree outOfPages 0x1000 0x400000 = some (-1, s') ∧
      (∀ r ∈ ({0x1000} : Set ℕ), ∀ v, cowGetPte s'.mem r v = cowGetPte outOfPages.mem r v ∧
        (cowGetPte outOfPages.mem r v ≠ 0 →
          load 8 s'.mem (cowGetPte outOfPages.mem r v) = load 8 outOfPages.mem (cowGetPte outOfPages.mem r v))) ∧
      (∀ physAddr, cowGetRefCount s' physAddr = cowGetRefCount outOfPages physAddr) ∧
      ∀ r ∈ ({0x1000} : Set ℕ), ∀ v f fl, translate outOfPages.mem r v = some (f, fl) →
        ∀ x, InPage f x → s'.mem x = outOfPages.mem x := by
  have hcode : (cowHandleFault popFree outOfPages 0x1000 0x400000).map Prod.fst = some (-1) := by decide +kernel
  obtain ⟨⟨code, s'⟩, hcall, hcode⟩ := Option.map_eq_some_iff.mp hcode
  obtain rfl : code = -1 := hcode
  obtain ⟨htables, htrans⟩ := @onePage_spec 0x5205 (by norm_num)
  have hframe : ∀ f ∈ Set.insert 0x5000 onePageTables, IsFrame f := by
    rintro f (rfl | hf)
    · exact ⟨by decide, by decide, by decide⟩
    · exact isFrame_onePageTables f hf
  refine ⟨s', hcall, failed_call_unseen stack popFree popFree_allocator outOfPages s'
    (Set.insert 0x5000 onePageTables) ∅ {0x1000} (fun _ => []) (fun _ => 0)
    ⟨hframe, List.nodup_nil, fun f hf => absurd hf List.not_mem_nil⟩ (refs_init _) (Set.empty_subset _)
    (fun t ht => Or.inr (htables.reached t ht)) ?_ 0x1000 0x400000 (Or.inr hcall)⟩
  rintro r rfl v f fl ht
  have hdec : decode 0x5205 = some (0x5000, 0x205) := by decide
  rw [show outOfPages.mem = onePageMem 0x5205 from rfl, htrans v, hdec] at ht
  split_ifs at ht
  obtain ⟨rfl, -⟩ := Prod.mk.inj (Option.some.inj ht)
  exact Or.inl rfl

end PrometheusKernel.Cow
