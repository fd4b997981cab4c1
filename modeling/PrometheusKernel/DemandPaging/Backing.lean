import PrometheusKernel.DemandPaging.Faults
import PrometheusKernel.Cow.Refinement

/-!
# Frames behind pages

`Backed` says that every mapped frame is one of the data frames that the clients hold. The reference table of `cow.c`
stands beside them, empty where nothing is shared. A fault maps a frame that was not held (`Backed.mapPage`), and the
loop of `demand_paging_unregister_region` unmaps the pages of a list and gives back the frames behind them
(`Backed.unmapPages`). That leaves `Backed` true only where each of these frames backs one page (`Alone`).
-/

namespace PrometheusKernel.DemandPaging

open ByteMem LinkedList Vmm TableTree

variable {A : Type} {P : Ownership A} {allocPage allocFrame : Machine A → ℕ × Machine A}
  {freePage : ℕ → Machine A → Machine A} {s s' : Cow.State A} {g g' : Cow.Ghost} {roots : Set ℕ} {pml4 v : ℕ}

/-- Every mapped frame is a data frame. -/
structure Backed (P : Ownership A) (s : Cow.State A) (roots : Set ℕ) (g : Cow.Ghost) : Prop where
  footing : Cow.Footing P s roots g
  data : ∀ r ∈ roots, ∀ w f fl, translate s.mem r w = some (f, fl) → f ∈ g.D

/-! ### Faults -/

/-- A call that changes no translation keeps the pages backed. -/
theorem Backed.unchanged (h : Backed P s roots g) (hs : Cow.Unchanged P roots s g s' g') : Backed P s' roots g' := by
  refine ⟨hs.footing, fun r hr w f fl ht => hs.D_subset (h.data r hr w f fl ?_)⟩
  rw [← hs.translate_eq r hr w]
  exact ht

/-- A page that is mapped to another held frame keeps the pages backed. -/
theorem Backed.remapped (h : Backed P s roots g) {f fl : ℕ} (hs : Cow.Remapped P roots s g pml4 v f fl s' g')
    (hD : g.D ⊆ g'.D) (hf : f ∈ g'.D) : Backed P s' roots g' := by
  refine ⟨hs.footing, fun r hr w f' fl' ht => ?_⟩
  rw [hs.translate_eq r hr w] at ht
  by_cases hc : r = pml4 ∧ vpn w = vpn v
  · rw [if_pos hc] at ht
    obtain ⟨rfl, -⟩ := Prod.mk.inj (Option.some.inj ht)
    exact hf
  · rw [if_neg hc] at ht
    exact hD (h.data r hr w f' fl' ht)

/-- An allocation fails. -/
theorem Backed.allocFail (h : Backed P s roots g) (hpage : P.Allocator allocPage)
    (h0 : (allocPage s.toMachine).1 = 0) : Backed P { s with toMachine := (allocPage s.toMachine).2 } roots g ∧
      ∀ r ∈ roots, ∀ w, translate (allocPage s.toMachine).2.mem r w = translate s.mem r w := by
  have hkept := (h.footing.allocFail hpage h0).unchanged h.footing rfl
  exact ⟨h.unchanged hkept, hkept.translate_eq⟩

/-- The machine `m` is that of `s` below the physical address width. -/
theorem Footing.setMachine (h : Cow.Footing P s roots g) (hphysical : P.Physical) {m : Machine A}
    (hpages : m.pages = s.pages) (hmem : ∀ x < 2 ^ 52, m.mem x = s.mem x) :
    Cow.Footing P { s with toMachine := m } roots g := by
  obtain ⟨w, a⟩ := m
  obtain rfl : a = s.pages := hpages
  exact (h.physical hphysical hmem).1

/-- The page at hand is one more data frame. -/
theorem Backed.pageAtHand (h : Backed P s roots g) (hpage : P.Allocator allocPage) (hphysical : P.Physical)
    (h0 : (allocPage s.toMachine).1 ≠ 0) (flags : ℕ) :
    (allocPage s.toMachine).1 ∉ g.F ∧ IsFrame (allocPage s.toMachine).1 ∧
      Cow.Unchanged P roots s g { s with toMachine := DemandPaging.pageAtHand allocPage s.toMachine flags }
        { g with
          F := Set.insert (allocPage s.toMachine).1 g.F
          D := Set.insert (allocPage s.toMachine).1 g.D } := by
  obtain ⟨hfresh, hframe, hfoot, hkeep⟩ := h.footing.allocData hpage h0
  have hframes : ∀ f ∈ g.F, ∀ x, InPage f x → (DemandPaging.pageAtHand allocPage s.toMachine flags).mem x = s.mem x :=
    (pageAtHand_spec hpage hphysical h.footing.owns h0 flags).2
  have hfoot' : Cow.Footing P { s with toMachine := DemandPaging.pageAtHand allocPage s.toMachine flags } roots
      { g with
        F := Set.insert (allocPage s.toMachine).1 g.F
        D := Set.insert (allocPage s.toMachine).1 g.D } := by
    unfold DemandPaging.pageAtHand
    by_cases hfill : flags &&& vmFlagZeroFill ≠ 0
    · rw [if_pos hfill]
      exact Footing.setMachine hfoot hphysical (by simp only [zeroFill]) fun x hx => zeroFill_apply _ _ hx
    · rw [if_neg hfill]
      exact hfoot
  exact ⟨hfresh, hframe, hfoot', Set.subset_insert _ _, rfl, fun d hd => hframes d (h.footing.dF hd), fun r hr w =>
    h.footing.tables.translate_congr (fun t ht => hframes t (h.footing.tF ht)) hr w⟩

/-- `vmm_map_page` of the page at hand: the page at `v` is mapped to a frame that was not held, or no page is. -/
theorem Backed.mapPage (h : Backed P s roots g) (hpage : P.Allocator allocPage) (hframe : P.Allocator allocFrame)
    (hphysical : P.Physical) (hr : pml4 ∈ roots) (h0 : (allocPage s.toMachine).1 ≠ 0) (flags v fl : ℕ) :
    ∃ m g', vmmMapPage allocFrame (DemandPaging.pageAtHand allocPage s.toMachine flags) pml4 v (allocPage s.toMachine).1
        fl = m ∧ Backed P { s with toMachine := m } roots g' ∧ (allocPage s.toMachine).1 ∉ g.F ∧
      ((∀ r ∈ roots, ∀ w, translate m.mem r w = translate s.mem r w) ∨
        ∀ r ∈ roots, ∀ w, translate m.mem r w = if r = pml4 ∧ vpn w = vpn v
          then some ((allocPage s.toMachine).1, (fl &&& 0xFFF) ||| flagPresent) else translate s.mem r w) := by
  obtain ⟨hfresh, hisFrame, hs⟩ := h.pageAtHand hpage hphysical h0 flags
  have hback := h.unchanged hs
  obtain ⟨hfail, hok⟩ := hs.footing.mapPage hframe hr v (allocPage s.toMachine).1 fl
  by_cases hpt : (ptFor allocFrame (DemandPaging.pageAtHand allocPage s.toMachine flags) pml4 v).1 = 0
  · obtain ⟨g', hg', -⟩ := hfail hpt
    exact ⟨_, g', rfl, hback.unchanged hg', hfresh,
      Or.inl fun r hr w => (hg'.translate_eq r hr w).trans (hs.translate_eq r hr w)⟩
  · obtain ⟨g', hg', hD, -⟩ := hok hpt
    rw [and_frameMask_of_isFrame hisFrame] at hg'
    refine ⟨_, g', rfl, hback.remapped hg' hD.ge (hD ▸ Set.mem_insert _ _), hfresh, Or.inr fun r hr w => ?_⟩
    exact (hg'.translate_eq r hr w).trans (if_congr Iff.rfl rfl (hs.translate_eq r hr w))

/-! ### Removing pages -/

/-- The frame behind the page of `v` backs no other page. -/
def Alone (m : Mem) (roots : Set ℕ) (pml4 v : ℕ) : Prop :=
  ∀ f fl, translate m pml4 v = some (f, fl) → ∀ r ∈ roots, ∀ w fl', translate m r w = some (f, fl') →
    r = pml4 ∧ vpn w = vpn v

/-- `vmm_unmap_page` changes one translation. -/
theorem Backed.vmmUnmapPage (h : Backed P s roots g) (hr : pml4 ∈ roots) (v : ℕ) :
    Cow.Footing P { s with toMachine := Vmm.vmmUnmapPage s.toMachine pml4 v } roots g ∧
      ∀ r ∈ roots, ∀ w, translate (Vmm.vmmUnmapPage s.toMachine pml4 v).mem r w
        = if r = pml4 ∧ vpn w = vpn v then none else translate s.mem r w := by
  rw [vmmUnmapPage_eq]
  cases hpt : pageTable s.mem pml4 v with
  | none =>
      refine ⟨h.footing, fun r hr' w => ?_⟩
      split_ifs with hc
      · obtain ⟨rfl, hv⟩ := hc
        show translate s.mem r w = none
        rw [translate_eq_of_vpn _ _ hv, Vmm.translate, hpt]
        rfl
      · rfl
  | some pt =>
      refine ⟨(h.footing.leafWrite hr hpt 0).1, fun r hr' w => ?_⟩
      have hzero : decode 0 = none := by decide
      refine (h.footing.tables.translate_leafWrite hr hpt (by norm_num) hr' w).trans ?_
      rw [hzero]

/-- A page that is not mapped is passed over. -/
theorem unmapPage_of_none {m : Machine A} (ht : translate m.mem pml4 v = none) :
    unmapPage freePage pml4 m v = m := by
  have hphys : vmmGetPhysicalAddress m.mem pml4 v = 0 := by
    rw [vmmGetPhysicalAddress_eq, ht]
  unfold unmapPage
  exact if_neg (not_not.mpr hphys)

/-- A page that is mapped is unmapped, and its frame is given back. -/
theorem unmapPage_of_some {m : Machine A} {f fl : ℕ} (ht : translate m.mem pml4 v = some (f, fl)) (hv : v % 4096 = 0)
    (hf : f ≠ 0) : unmapPage freePage pml4 m v = freePage f (Vmm.vmmUnmapPage m pml4 v) := by
  have hoffset : v &&& 0xFFF = 0 := (Nat.and_two_pow_sub_one_eq_mod v 12).trans hv
  have hphys : vmmGetPhysicalAddress m.mem pml4 v = f := by
    rw [vmmGetPhysicalAddress_eq, ht]
    show f ||| (v &&& 0xFFF) = f
    rw [hoffset, Nat.or_zero]
  unfold unmapPage
  dsimp only
  rw [hphys]
  exact if_pos hf

/-- One iteration of the loop. -/
theorem Backed.unmapPage (h : Backed P s roots g) (hfree : P.Freer freePage) (hr : pml4 ∈ roots) (hv : v % 4096 = 0)
    (halone : Alone s.mem roots pml4 v) :
    ∃ m g', DemandPaging.unmapPage freePage pml4 s.toMachine v = m ∧ Backed P { s with toMachine := m } roots g' ∧
      g'.D ⊆ g.D ∧ ∀ r ∈ roots, ∀ w, translate m.mem r w
        = if r = pml4 ∧ vpn w = vpn v then none else translate s.mem r w := by
  obtain ⟨hfoot, htrans⟩ := h.vmmUnmapPage hr v
  cases ht : translate s.mem pml4 v with
  | none =>
      refine ⟨s.toMachine, g, unmapPage_of_none ht, h, subset_rfl, fun r hr' w => ?_⟩
      split_ifs with hc
      · obtain ⟨rfl, hvw⟩ := hc
        exact (translate_eq_of_vpn _ _ hvw).trans ht
      · rfl
  | some e =>
      obtain ⟨f, fl⟩ := e
      have hfD := h.data pml4 hr v f fl ht
      have hf0 : f ≠ 0 := (h.footing.isFrame (h.footing.dF hfD)).ne_zero
      obtain ⟨hfoot', hkeep⟩ := hfoot.freeData hfree hfD
      have hsame : ∀ r ∈ roots, ∀ w, translate (freePage f (Vmm.vmmUnmapPage s.toMachine pml4 v)).mem r w
          = if r = pml4 ∧ vpn w = vpn v then none else translate s.mem r w :=
        fun r hr' w => (hfoot.tables.translate_congr hkeep hr' w).trans (htrans r hr' w)
      refine ⟨_, _, unmapPage_of_some ht hv hf0, ⟨hfoot', fun r hr' w f' fl' ht' => ?_⟩, Set.sdiff_subset, hsame⟩
      have hold := (hsame r hr' w).symm.trans ht'
      by_cases hc : r = pml4 ∧ vpn w = vpn v
      · rw [if_pos hc] at hold
        exact absurd hold nofun
      · rw [if_neg hc] at hold
        refine ⟨h.data r hr' w f' fl' hold, ?_⟩
        rintro rfl
        exact hc (halone f' fl ht r hr' w fl' hold)

/-- The loop unmaps the pages of the list and no others. -/
theorem Backed.unmapPages (hfree : P.Freer freePage) (hr : pml4 ∈ roots) {l : List ℕ} (hl : ∀ v ∈ l, v % 4096 = 0) :
    ∀ {s : Cow.State A} {g : Cow.Ghost}, Backed P s roots g → (∀ v ∈ l, Alone s.mem roots pml4 v) →
    ∃ m g', l.foldl (DemandPaging.unmapPage freePage pml4) s.toMachine = m ∧
      Backed P { s with toMachine := m } roots g' ∧ g'.D ⊆ g.D ∧
      (∀ r ∈ roots, ∀ w, (r = pml4 ∧ ∃ v ∈ l, vpn w = vpn v) → translate m.mem r w = none) ∧
      ∀ r ∈ roots, ∀ w, ¬ (r = pml4 ∧ ∃ v ∈ l, vpn w = vpn v) → translate m.mem r w = translate s.mem r w := by
  induction l with
  | nil =>
      intro s g h _
      refine ⟨_, g, rfl, h, subset_rfl, fun r _ w hc => ?_, fun _ _ _ _ => rfl⟩
      obtain ⟨-, v, hv, -⟩ := hc
      exact absurd hv List.not_mem_nil
  | cons a l ih =>
      intro s g h halone
      obtain ⟨m, g₁, hm, h₁, hD₁, htrans₁⟩ :=
        h.unmapPage hfree hr (hl a List.mem_cons_self) (halone a List.mem_cons_self)
      -- what is still mapped was mapped before
      have hold : ∀ r ∈ roots, ∀ w f fl, translate m.mem r w = some (f, fl) → translate s.mem r w = some (f, fl) := by
        intro r hr' w f fl ht
        rw [htrans₁ r hr' w] at ht
        by_cases hc : r = pml4 ∧ vpn w = vpn a
        · rw [if_pos hc] at ht
          exact absurd ht nofun
        · rwa [if_neg hc] at ht
      have halone₁ : ∀ v ∈ l, Alone m.mem roots pml4 v := by
        intro v hv f fl ht r hr' w fl' ht'
        exact halone v (List.mem_cons_of_mem _ hv) f fl (hold pml4 hr v f fl ht) r hr' w fl' (hold r hr' w f fl' ht')
      obtain ⟨m', g₂, hm', h₂, hD₂, hnone, hsame⟩ := ih (fun v hv => hl v (List.mem_cons_of_mem _ hv)) h₁ halone₁
      refine ⟨m', g₂, ?_, h₂, hD₂.trans hD₁, fun r hr' w hc => ?_, fun r hr' w hc => ?_⟩
      · rw [List.foldl_cons, hm]
        exact hm'
      · by_cases hin : r = pml4 ∧ ∃ v ∈ l, vpn w = vpn v
        · exact hnone r hr' w hin
        · obtain ⟨rfl, v, hv, hvw⟩ := hc
          rcases List.mem_cons.mp hv with rfl | hv
          · rw [hsame r hr' w hin]
            exact (htrans₁ r hr' w).trans (if_pos ⟨rfl, hvw⟩)
          · exact absurd ⟨rfl, v, hv, hvw⟩ hin
      · have hin : ¬ (r = pml4 ∧ ∃ v ∈ l, vpn w = vpn v) := by
          rintro ⟨rfl, v, hv, hvw⟩
          exact hc ⟨rfl, v, List.mem_cons_of_mem _ hv, hvw⟩
        have ha : ¬ (r = pml4 ∧ vpn w = vpn a) := by
          rintro ⟨rfl, hvw⟩
          exact hc ⟨rfl, a, List.mem_cons_self, hvw⟩
        rw [hsame r hr' w hin]
        exact (htrans₁ r hr' w).trans (if_neg ha)

end PrometheusKernel.DemandPaging
