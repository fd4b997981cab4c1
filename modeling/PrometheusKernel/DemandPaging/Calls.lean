import PrometheusKernel.DemandPaging.Backing
import PrometheusKernel.DemandPaging.Handling
import PrometheusKernel.DemandPaging.Lookups

/-!
# Calls on regions whose pages are backed

`Sound` puts the lists of regions, the frames behind the pages and the region structures side by side. The structures
come from `vm_region_cache`, which takes its slabs from the page allocator that the pages come from: `RegionCache` says
that it hands out structures it has not handed out, and leaves the frames of others alone. Each call keeps `Sound`, and
its lemma says which translations it changes.
-/

namespace PrometheusKernel.DemandPaging

open ByteMem LinkedList Vmm TableTree

/-- `slab_alloc` and `slab_free` on `vm_region_cache`, where `P R` is the discipline of the clients of the page
allocator while the structures `R` are handed out. -/
structure RegionCache {A : Type} (P : Set ℕ → Ownership A) (slabAlloc : Machine A → ℕ × Machine A)
    (slabFree : ℕ → Machine A → Machine A) : Prop where
  fail : ∀ {R s F}, (P R).Owns s F → (slabAlloc s).1 = 0 → (P R).Owns (slabAlloc s).2 F
  fresh : ∀ {R s F}, (P R).Owns s F → (slabAlloc s).1 ≠ 0 → (slabAlloc s).1 ∉ R ∧ (slabAlloc s).1 < 2 ^ 64
  owns : ∀ {R s F}, (P R).Owns s F → (slabAlloc s).1 ≠ 0 → (P (Set.insert (slabAlloc s).1 R)).Owns (slabAlloc s).2 F
  alloc_mem : ∀ {R s F}, (P R).Owns s F → ∀ f ∈ F, ∀ x, InPage f x → (slabAlloc s).2.mem x = s.mem x
  free : ∀ {R s F}, (P R).Owns s F → ∀ r ∈ R, (P (R \ {r})).Owns (slabFree r s) F
  free_mem : ∀ {R s F}, (P R).Owns s F → ∀ r ∈ R, ∀ f ∈ F, ∀ x, InPage f x → (slabFree r s).mem x = s.mem x

variable {A : Type} {P : Set ℕ → Ownership A} {slabAlloc : Machine A → ℕ × Machine A}
  {slabFree : ℕ → Machine A → Machine A} {allocPage : Machine A → ℕ × Machine A}
  {freePage : ℕ → Machine A → Machine A} {allocFrame : Machine A → ℕ × Machine A} {t : ℕ → ℕ} {roots : Set ℕ}
  {s s' : State A} {L : ℕ → List ℕ} {g : Cow.Ghost} {R : Set ℕ} {pml4 : ℕ}

/-- The lists of regions, the frames behind the pages and the structures that are handed out; `t` is the hash table of
`cow.c`. -/
structure Sound (P : Set ℕ → Ownership A) (t : ℕ → ℕ) (roots : Set ℕ) (s : State A) (L : ℕ → List ℕ) (g : Cow.Ghost)
    (R : Set ℕ) : Prop where
  regions : Inv s L
  backed : Backed (P R) ⟨s.machine, t⟩ roots g
  handed : ∀ p r, Registered s p r → r ∈ R

/-- The same translations in all address spaces. -/
def SameTranslations (roots : Set ℕ) (m m' : Mem) : Prop := ∀ r ∈ roots, ∀ w, translate m' r w = translate m r w

/-- The discipline changes, and the held frames keep their contents. -/
theorem Backed.transfer {P Q : Ownership A} {s : Cow.State A} (h : Backed P s roots g) {m : Machine A}
    (howns : Q.Owns m g.F) (hmem : ∀ f ∈ g.F, ∀ x, InPage f x → m.mem x = s.mem x) :
    Backed Q { s with toMachine := m } roots g ∧ SameTranslations roots s.mem m.mem := by
  have htables : ∀ t ∈ g.T, ∀ x, InPage t x → m.mem x = s.mem x := fun t ht => hmem t (h.footing.tF ht)
  have hsame : SameTranslations roots s.mem m.mem := fun r hr w => h.footing.tables.translate_congr htables hr w
  refine ⟨⟨⟨howns, h.footing.tables.congr htables, h.footing.refs.congr fun ref href => hmem ref (h.footing.rF href),
    h.footing.tF, h.footing.rF, h.footing.dF, h.footing.tr, h.footing.td, h.footing.rd⟩, fun r hr w f fl ht => ?_⟩,
    hsame⟩
  exact h.data r hr w f fl ((hsame r hr w).symm.trans ht)

/-! ### Look-ups and registrations -/

/-- `demand_paging_find_region` returns and changes no region. -/
theorem Sound.findRegion (h : Sound P t roots s L g R) (pml4 v : ℕ) :
    ∃ r s', demandPagingFindRegion s pml4 v = some (r, s') ∧ Sound P t roots s' L g R ∧ Keeps s s' ∧
      s'.machine = s.machine := by
  obtain ⟨r, s', hcall, hinv, hmachine, hregions, -⟩ := h.regions.findRegion pml4 v
  have hreg : ∀ p q, Registered s' p q ↔ Registered s p q := by
    rw [findRegion_snd hcall]
    exact h.regions.registered_get pml4
  refine ⟨r, s', hcall, ⟨hinv, ?_, fun p q hq => h.handed p q ((hreg p q).mp hq)⟩, ⟨hreg, hregions⟩, hmachine⟩
  rw [hmachine]
  exact h.backed

/-- No region is null. -/
theorem Inv.ne_zero (h : Inv s L) {r : ℕ} (hr : Registered s pml4 r) : r ≠ 0 := by
  obtain ⟨i, hi, -, hrL⟩ := h.registered_slot hr
  exact (h.list i hi).ne_zero hrL

/-- A structure that the cache hands out is on no list. -/
theorem Sound.freshRegion (h : Sound P t roots s L g R) (hslab : RegionCache P slabAlloc slabFree) (start size : ℕ) :
    FreshRegion slabAlloc s pml4 start size := by
  intro _ _ i s₁ hget _
  have hmachine : s₁.machine = s.machine := by
    rcases getAddressSpace_cases s pml4 with ⟨j, -, -, heq⟩ | ⟨-, ⟨-, heq⟩ | ⟨-, heq⟩⟩
    all_goals
      obtain ⟨-, rfl⟩ := Prod.mk.inj (hget.symm.trans heq)
      rfl
  have hreg := h.regions.registered_get pml4
  rw [hget] at hreg
  rw [hmachine]
  by_cases h0 : (slabAlloc s.machine).1 = 0
  · rw [h0]
    exact ⟨Nat.two_pow_pos 64, fun p r hr => h.regions.ne_zero ((hreg p r).mp hr)⟩
  · obtain ⟨hnot, hlt⟩ := hslab.fresh h.backed.footing.owns h0
    refine ⟨hlt, fun p r hr heq => hnot ?_⟩
    exact heq ▸ h.handed p r ((hreg p r).mp hr)

/-- A registration asks the cache for a structure, or does not touch the machine. -/
theorem register_machine {start size flags : ℕ} {code : ℤ}
    (hcall : demandPagingRegisterRegion slabAlloc s pml4 start size flags = some (code, s')) :
    s'.machine = s.machine ∧ code = -1 ∨ s'.machine = (slabAlloc s.machine).2 ∧
      (code = 0 ↔ (slabAlloc s.machine).1 ≠ 0) := by
  have hget : (demandPagingGetAddressSpace s pml4).2.machine = s.machine := by
    rcases getAddressSpace_cases s pml4 with ⟨i, -, -, hget⟩ | ⟨-, ⟨-, hget⟩ | ⟨-, hget⟩⟩
    · rw [hget]
    · rw [hget]
      rfl
    · rw [hget]
  unfold demandPagingRegisterRegion at hcall
  by_cases hbad : pml4 = 0 ∨ size = 0
  · rw [if_pos hbad] at hcall
    obtain ⟨rfl, rfl⟩ := Prod.mk.inj (Option.some.inj hcall)
    exact Or.inl ⟨rfl, rfl⟩
  rw [if_neg hbad] at hcall
  rcases hslot : demandPagingGetAddressSpace s pml4 with ⟨o, s₁⟩
  rw [hslot] at hcall hget
  cases o with
  | none =>
      obtain ⟨rfl, rfl⟩ := Prod.mk.inj (Option.some.inj hcall)
      exact Or.inl ⟨hget, rfl⟩
  | some i =>
      obtain ⟨existing, -, hrest⟩ := Option.bind_eq_some_iff.mp hcall
      have hmachine : s₁.machine = s.machine := hget
      dsimp only at hrest
      rw [hmachine] at hrest
      split_ifs at hrest with hexists hnull
      · obtain ⟨rfl, rfl⟩ := Prod.mk.inj (Option.some.inj hrest)
        exact Or.inl ⟨hmachine, rfl⟩
      · obtain ⟨rfl, rfl⟩ := Prod.mk.inj (Option.some.inj hrest)
        exact Or.inr ⟨rfl, iff_of_false (by decide) fun hne => hne hnull⟩
      · obtain ⟨rfl, rfl⟩ := Prod.mk.inj (Option.some.inj hrest)
        exact Or.inr ⟨rfl, iff_of_true rfl hnull⟩

/-- `demand_paging_register_region` returns and keeps the invariant. -/
theorem Sound.register (h : Sound P t roots s L g R) (hslab : RegionCache P slabAlloc slabFree)
    (pml4 start size flags : ℕ) :
    ∃ code s' L' R', demandPagingRegisterRegion slabAlloc s pml4 start size flags = some (code, s') ∧
      Sound P t roots s' L' g R' ∧ SameTranslations roots s.machine.mem s'.machine.mem ∧
      (code = -1 ∧ Keeps s s' ∨ code = 0 ∧ Registers s s' pml4 start size flags (slabAlloc s.machine).1) := by
  have howns : (P R).Owns s.machine g.F := h.backed.footing.owns
  obtain ⟨code, s', L', hcall, hinv, -, -, hres⟩ := h.regions.register flags (h.freshRegion hslab start size)
  rcases register_machine hcall with ⟨hmachine, hcode⟩ | ⟨hmachine, hcode⟩
  · -- no structure was asked for
    have hkeeps := hres.resolve_right fun hcon => absurd (hcode.symm.trans hcon.1) (by decide)
    refine ⟨code, s', L', R, hcall, ⟨hinv, ?_, fun p q hq => h.handed p q ((hkeeps.2.registered p q).mp hq)⟩, ?_,
      Or.inl hkeeps⟩
    · rw [hmachine]
      exact h.backed
    · rw [hmachine]
      exact fun _ _ _ => rfl
  by_cases h0 : (slabAlloc s.machine).1 = 0
  · have hkeeps := hres.resolve_right fun hcon => hcode.mp hcon.1 h0
    obtain ⟨hback, hsame⟩ := h.backed.transfer (hslab.fail howns h0) (hslab.alloc_mem howns)
    refine ⟨code, s', L', R, hcall, ⟨hinv, ?_, fun p q hq => h.handed p q ((hkeeps.2.registered p q).mp hq)⟩, ?_,
      Or.inl hkeeps⟩
    · rw [hmachine]
      exact hback
    · rw [hmachine]
      exact hsame
  · have hregs := hres.resolve_left fun hcon => absurd ((hcode.mpr h0).symm.trans hcon.1) (by decide)
    obtain ⟨hback, hsame⟩ := h.backed.transfer (hslab.owns howns h0) (hslab.alloc_mem howns)
    refine ⟨code, s', L', Set.insert (slabAlloc s.machine).1 R, hcall, ⟨hinv, ?_, fun p q hq => ?_⟩, ?_, Or.inr hregs⟩
    · rw [hmachine]
      exact hback
    · rcases (hregs.2.registered p q).mp hq with hq | ⟨-, rfl⟩
      · exact Set.mem_insert_of_mem _ (h.handed p q hq)
      · exact Set.mem_insert _ _
    · rw [hmachine]
      exact hsame

/-! ### Faults -/

/-- A page is mapped in the address space `pml4` at `v`, and nothing else has changed. -/
def MapsPage (roots : Set ℕ) (pml4 v f fl : ℕ) (m m' : Mem) : Prop :=
  ∀ r ∈ roots, ∀ w, translate m' r w = if r = pml4 ∧ vpn w = vpn v then some (f, fl) else translate m r w

/-- The part with the lock maps a page to a frame that was not held, or changes no translation. -/
theorem Sound.lockedFault (h : Sound P t roots s L g R) (hpage : ∀ R, (P R).Allocator allocPage)
    (hframe : ∀ R, (P R).Allocator allocFrame) (hphysical : ∀ R, (P R).Physical) (hroot : pml4 ∈ roots) (v r : ℕ) :
    ∃ s' g', (DemandPaging.lockedFault allocPage allocFrame s pml4 v r).2 = s' ∧ Sound P t roots s' L g' R ∧
      Keeps s s' ∧ (SameTranslations roots s.machine.mem s'.machine.mem ∨
        ∃ f ∉ g.F, MapsPage roots pml4 v f 7 s.machine.mem s'.machine.mem) := by
  have hinv : ∀ m, Inv { s with machine := m } L := fun m => h.regions.machine m
  by_cases hmapped : vmmGetPhysicalAddress s.machine.mem pml4 v = 0
  · by_cases h0 : (allocPage s.machine).1 = 0
    · obtain ⟨hback, htrans⟩ := h.backed.allocFail (hpage R) h0
      refine ⟨{ s with machine := (allocPage s.machine).2 }, g, ?_, ⟨hinv _, hback, h.handed⟩,
        ⟨fun _ _ => Iff.rfl, rfl⟩, Or.inl htrans⟩
      unfold DemandPaging.lockedFault
      dsimp only
      rw [if_neg (not_not.mpr hmapped), if_pos h0]
    · obtain ⟨m, g', hm, hback, hfresh, htrans⟩ := h.backed.mapPage (hpage R) (hframe R) (hphysical R) hroot h0
        (s.regions r).flags v (flagPresent ||| flagWritable ||| flagUser)
      refine ⟨{ s with machine := m }, g', ?_, ⟨hinv m, hback, h.handed⟩, ⟨fun _ _ => Iff.rfl, rfl⟩, ?_⟩
      · rw [← hm]
        unfold DemandPaging.lockedFault
        dsimp only
        rw [if_neg (not_not.mpr hmapped), if_neg h0]
        rfl
      · rcases htrans with hnone | hnew
        · exact Or.inl hnone
        · exact Or.inr ⟨_, hfresh, hnew⟩
  · refine ⟨s, g, ?_, h, ⟨fun _ _ => Iff.rfl, rfl⟩, Or.inl fun _ _ _ => rfl⟩
    unfold DemandPaging.lockedFault
    exact congrArg Prod.snd (if_pos hmapped)

/-- A fault maps a page to a frame that was not held, or changes no translation. -/
theorem Sound.handleFault (h : Sound P t roots s L g R) (hpage : ∀ R, (P R).Allocator allocPage)
    (hframe : ∀ R, (P R).Allocator allocFrame) (hphysical : ∀ R, (P R).Physical) (hroot : pml4 ∈ roots) (v : ℕ) :
    ∃ code s' g', demandPagingHandleFault allocPage allocFrame s pml4 v = some (code, s') ∧
      Sound P t roots s' L g' R ∧ Keeps s s' ∧ (SameTranslations roots s.machine.mem s'.machine.mem ∨
        ∃ f ∉ g.F, MapsPage roots pml4 (alignDown v) f 7 s.machine.mem s'.machine.mem) := by
  obtain ⟨r, s₁, hfind, hsound, hkeeps, hmachine⟩ := h.findRegion pml4 (alignDown v)
  have hsame : SameTranslations roots s.machine.mem s₁.machine.mem := by
    rw [hmachine]
    exact fun _ _ _ => rfl
  unfold demandPagingHandleFault
  simp only [hfind, Option.bind_eq_bind, Option.bind_some]
  split_ifs
  · exact ⟨_, _, g, rfl, hsound, hkeeps, Or.inl hsame⟩
  · exact ⟨_, _, g, rfl, hsound, hkeeps, Or.inl hsame⟩
  · exact ⟨_, _, g, rfl, hsound, hkeeps, Or.inl hsame⟩
  · obtain ⟨s', g', hlocked, hsound', hkeeps', htrans⟩ :=
      hsound.lockedFault hpage hframe hphysical hroot (alignDown v) r
    rw [hmachine] at htrans
    refine ⟨_, s', g', congrArg some (Prod.ext rfl hlocked), hsound', ?_, htrans⟩
    exact ⟨fun p q => (hkeeps'.registered p q).trans (hkeeps.registered p q), hkeeps'.regions.trans hkeeps.regions⟩

/-! ### Removals -/

/-- The pages of a region lie in it. -/
theorem mem_pagesOf {q : Region} {v : ℕ} (hv : v ∈ pagesOf q) : q.contains v = true ∧ ∃ i, v = q.start + i * 4096 := by
  unfold pagesOf pageSize at hv
  obtain ⟨i, hi, rfl⟩ := List.mem_map.mp hv
  rw [List.mem_range] at hi
  refine ⟨?_, i, rfl⟩
  simp only [Region.contains, Bool.and_eq_true, decide_eq_true_eq]
  omega

/-- Every address of a region is on one of the pages that the loop visits. -/
theorem exists_mem_pagesOf {q : Region} {w : ℕ} (hstart : q.start % 4096 = 0) (hw : q.contains w = true) :
    ∃ v ∈ pagesOf q, w / 4096 = v / 4096 := by
  simp only [Region.contains, Bool.and_eq_true, decide_eq_true_eq] at hw
  refine ⟨q.start + (w - q.start) / 4096 * 4096, ?_, by omega⟩
  unfold pagesOf pageSize
  refine List.mem_map.mpr ⟨(w - q.start) / 4096, ?_, rfl⟩
  rw [List.mem_range]
  omega

/-- Addresses in one page have one page number. -/
theorem vpn_eq_of_div {w v : ℕ} (h : w / 4096 = v / 4096) : vpn w = vpn v := by
  unfold vpn
  rw [show (2 : ℕ) ^ 12 = 4096 by norm_num, h]

/-- The pages of the list are unmapped in the address space `pml4`, and nothing else has changed. -/
structure UnmapsPages (roots : Set ℕ) (pml4 : ℕ) (l : List ℕ) (m m' : Mem) : Prop where
  gone : ∀ v ∈ l, ∀ w, vpn w = vpn v → translate m' pml4 w = none
  other : ∀ r ∈ roots, ∀ w, ¬ (r = pml4 ∧ ∃ v ∈ l, vpn w = vpn v) → translate m' r w = translate m r w

/-- A removal of a region whose frames back no other page. -/
theorem Sound.unregister (h : Sound P t roots s L g R) (hslab : RegionCache P slabAlloc slabFree)
    (hfree : ∀ R, (P R).Freer freePage) (hroot : pml4 ∈ roots) (start : ℕ)
    (halone : ∀ r, Registered s pml4 r → (s.regions r).start = alignDown start → ∀ v ∈ pagesOf (s.regions r),
      Alone s.machine.mem roots pml4 v) :
    ∃ s' L' g' R', demandPagingUnregisterRegion slabFree freePage s pml4 start = some s' ∧
      Sound P t roots s' L' g' R' ∧ (Keeps s s' ∧ s'.machine = s.machine ∧
          (∀ q, Registered s pml4 q → (s.regions q).start ≠ alignDown start) ∨
        ∃ r, Unregisters s s' pml4 start r ∧
          UnmapsPages roots pml4 (pagesOf (s.regions r)) s.machine.mem s'.machine.mem) := by
  obtain ⟨s', L', hcall, hinv, -, hres⟩ := @Inv.unregister A slabFree freePage s L h.regions pml4 start
  rcases hres with ⟨hkeeps, hmachine, hnone⟩ | ⟨r, hunregs, hmachine⟩
  · refine ⟨s', L', g, R, hcall, ⟨hinv, ?_, fun p q hq => h.handed p q ((hkeeps.registered p q).mp hq)⟩,
      Or.inl ⟨hkeeps, hmachine, hnone⟩⟩
    rw [hmachine]
    exact h.backed
  · have haligned : (s.regions r).start % 4096 = 0 := by
      rw [hunregs.start_eq]
      exact alignDown_mod start
    have hpages : ∀ v ∈ pagesOf (s.regions r), v % 4096 = 0 := by
      intro v hv
      obtain ⟨-, i, rfl⟩ := mem_pagesOf hv
      omega
    obtain ⟨m, g', hm, hback, -, hgone, hother⟩ := Backed.unmapPages (hfree R) hroot hpages h.backed
      (halone r hunregs.found hunregs.start_eq)
    have hrR : r ∈ R := h.handed pml4 r hunregs.found
    have howns : (P R).Owns m g'.F := hback.footing.owns
    obtain ⟨hback', hsame⟩ := hback.transfer (hslab.free howns r hrR) (hslab.free_mem howns r hrR)
    have hafter : s'.machine = slabFree r m := by
      rw [hmachine, ← hm]
    refine ⟨s', L', g', R \ {r}, hcall, ⟨hinv, ?_, fun p q hq => ?_⟩, Or.inr ⟨r, hunregs, ?_, ?_⟩⟩
    · rw [hafter]
      exact hback'
    · obtain ⟨hold, hne⟩ := (hunregs.registered p q).mp hq
      exact ⟨h.handed p q hold, hne⟩
    · intro v hv w hvw
      rw [hafter]
      exact (hsame pml4 hroot w).trans (hgone pml4 hroot w ⟨rfl, v, hv, hvw⟩)
    · intro q hq w hc
      rw [hafter]
      exact (hsame q hq w).trans (hother q hq w hc)

/-! ### One page for each frame -/

/-- No frame backs two pages. -/
def Sole (m : Mem) (roots : Set ℕ) : Prop := ∀ r ∈ roots, ∀ v, Alone m roots r v

/-- Where every mapping was there before, no frame gets a second page. -/
theorem Sole.of_mapped {m m' : Mem} (h : Sole m roots)
    (hold : ∀ r ∈ roots, ∀ w e, translate m' r w = some e → translate m r w = some e) : Sole m' roots :=
  fun r hr v f fl ht q hq w fl' ht' => h r hr v f fl (hold r hr v _ ht) q hq w fl' (hold q hq w _ ht')

/-- Frames mapped once stay so when no translation changes. -/
theorem Sole.same {m m' : Mem} (h : Sole m roots) (hsame : SameTranslations roots m m') : Sole m' roots :=
  h.of_mapped fun r hr w _ ht => (hsame r hr w).symm.trans ht

/-- Frames mapped once stay so when pages are unmapped. -/
theorem Sole.unmaps {m m' : Mem} {l : List ℕ} (h : Sole m roots) (hun : UnmapsPages roots pml4 l m m') :
    Sole m' roots := by
  refine h.of_mapped fun r hr w e ht => ?_
  by_cases hc : r = pml4 ∧ ∃ v ∈ l, vpn w = vpn v
  · obtain ⟨rfl, v, hv, hvw⟩ := hc
    exact absurd ((hun.gone v hv w hvw).symm.trans ht) nofun
  · exact (hun.other r hr w hc).symm.trans ht

/-- A frame that backed no page backs one. -/
theorem Sole.maps {m m' : Mem} {v f fl : ℕ} (h : Sole m roots) (hmaps : MapsPage roots pml4 v f fl m m')
    (hnew : ∀ r ∈ roots, ∀ w fl', translate m r w ≠ some (f, fl')) : Sole m' roots := by
  intro r hr w f₁ fl₁ ht q hq w' fl₂ ht'
  rw [hmaps r hr w] at ht
  rw [hmaps q hq w'] at ht'
  by_cases hc : r = pml4 ∧ vpn w = vpn v
  · rw [if_pos hc] at ht
    obtain ⟨rfl, -⟩ := Prod.mk.inj (Option.some.inj ht)
    by_cases hc' : q = pml4 ∧ vpn w' = vpn v
    · exact ⟨hc'.1.trans hc.1.symm, hc'.2.trans hc.2.symm⟩
    · rw [if_neg hc'] at ht'
      exact absurd ht' (hnew q hq w' fl₂)
  · rw [if_neg hc] at ht
    by_cases hc' : q = pml4 ∧ vpn w' = vpn v
    · rw [if_pos hc'] at ht'
      obtain ⟨rfl, -⟩ := Prod.mk.inj (Option.some.inj ht')
      exact absurd ht (hnew r hr w fl₁)
    · rw [if_neg hc'] at ht'
      exact h r hr w f₁ fl₁ ht q hq w' fl₂ ht'

/-! ### A stack of free pages -/

/-- Pages, tables and region structures from one stack of free pages, while the structures `R` are handed out. -/
def stackBeside (R : Set ℕ) : Ownership (List ℕ) where
  Owns s F := stack.Owns s F ∧ ∀ r ∈ R, IsFrame r ∧ r ∉ F ∧ r ∉ s.pages
  isFrame h := h.1.1
  write h _ _ := h

/-- The stack does not read memory. -/
theorem stackBeside_physical (R : Set ℕ) : (stackBeside R).Physical := fun h _ _ => h

/-- The pages of a stack are fresh. -/
theorem stackBeside_allocator (R : Set ℕ) : (stackBeside R).Allocator popFree where
  fail {s F} h h0 := by
    refine ⟨popFree_allocator.fail h.1 h0, fun r hr => ?_⟩
    obtain ⟨hframe, hnot, hpages⟩ := h.2 r hr
    refine ⟨hframe, hnot, fun hin => ?_⟩
    obtain ⟨mem, pages⟩ := s
    cases pages with
    | nil => exact absurd hin List.not_mem_nil
    | cons a l => exact hpages (List.mem_cons_of_mem a hin)
  fresh h h0 := popFree_allocator.fresh h.1 h0
  owns {s F} h h0 := by
    refine ⟨popFree_allocator.owns h.1 h0, fun r hr => ?_⟩
    obtain ⟨hframe, hnot, hpages⟩ := h.2 r hr
    obtain ⟨mem, pages⟩ := s
    cases pages with
    | nil => exact absurd rfl h0
    | cons a l =>
        refine ⟨hframe, ?_, fun hin => hpages (List.mem_cons_of_mem a hin)⟩
        rintro (rfl | hin)
        · exact hpages List.mem_cons_self
        · exact hnot hin
  mem h f hf x hx := popFree_allocator.mem h.1 f hf x hx

/-- A page that is pushed is not held any more. -/
theorem stackBeside_freer (R : Set ℕ) : (stackBeside R).Freer pushFree where
  owns {s F} h a ha := by
    refine ⟨pushFree_freer.owns h.1 a ha, fun r hr => ?_⟩
    obtain ⟨hframe, hrF, hrpages⟩ := h.2 r hr
    refine ⟨hframe, fun hin => hrF hin.1, fun hin => ?_⟩
    rcases List.mem_cons.mp hin with rfl | hin
    · exact hrF ha
    · exact hrpages hin
  mem _ _ _ _ _ _ _ _ := rfl

/-- The pages of a stack serve as regions. -/
theorem stackBeside_regionCache : RegionCache stackBeside popFree pushFree where
  fail h h0 := (stackBeside_allocator _).fail h h0
  fresh {R s F} h h0 := by
    obtain ⟨⟨-, -, hpages⟩, hR⟩ := h
    obtain ⟨mem, pages⟩ := s
    cases pages with
    | nil => exact absurd rfl h0
    | cons a l =>
        refine ⟨fun hin => (hR a hin).2.2 List.mem_cons_self, ?_⟩
        exact lt_of_lt_of_le (hpages a List.mem_cons_self).1.lt (by norm_num)
  owns {R s F} h h0 := by
    obtain ⟨⟨hF, hnodup, hpages⟩, hR⟩ := h
    obtain ⟨mem, pages⟩ := s
    cases pages with
    | nil => exact absurd rfl h0
    | cons a l =>
        obtain ⟨hal, hl⟩ := List.nodup_cons.mp hnodup
        refine ⟨⟨hF, hl, fun f hf => hpages f (List.mem_cons_of_mem a hf)⟩, ?_⟩
        rintro r (rfl | hr)
        · exact ⟨(hpages r List.mem_cons_self).1, (hpages r List.mem_cons_self).2, hal⟩
        · obtain ⟨hframe, hrF, hrpages⟩ := hR r hr
          exact ⟨hframe, hrF, fun hin => hrpages (List.mem_cons_of_mem a hin)⟩
  alloc_mem h f hf x hx := (stackBeside_allocator _).mem h f hf x hx
  free {R s F} h r hr := by
    obtain ⟨⟨hF, hnodup, hpages⟩, hR⟩ := h
    obtain ⟨hframe, hrF, hrpages⟩ := hR r hr
    refine ⟨⟨hF, List.nodup_cons.mpr ⟨hrpages, hnodup⟩, fun f hf => ?_⟩, fun q hq => ?_⟩
    · rcases List.mem_cons.mp hf with rfl | hf
      · exact ⟨hframe, hrF⟩
      · exact hpages f hf
    · obtain ⟨hqframe, hqF, hqpages⟩ := hR q hq.1
      refine ⟨hqframe, hqF, fun hin => ?_⟩
      rcases List.mem_cons.mp hin with rfl | hin
      · exact hq.2 rfl
      · exact hqpages hin
  free_mem _ _ _ _ _ _ _ := rfl

end PrometheusKernel.DemandPaging
