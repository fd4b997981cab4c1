import PrometheusKernel.Slab.Layout
import PrometheusKernel.Slab.Conservation

/-!
# The alignment of slab objects

The first object of a slab is 32 bytes behind the start of a page, moved by a colour offset that is a multiple
of every power of two up to 32 that divides the size of an object. So the objects of a cache are aligned to
`align` in every run when `align` is at most 32, and when it is larger the first object that the cache hands
out is not (`objects_aligned_of_le`).
-/

namespace PrometheusKernel.Slab

open ByteMem LinkedList Interleaving

variable {A : Type} {P : Ownership A} {F : Set ℕ} {allocReclaimable allocUnmovable : Machine A → ℕ × Machine A}
  {M M' : Machine A} {name size align : ℕ} {c : Cache}

/-- The geometry of a cache whose objects hold a link and fit into a page. -/
theorem Shape.geometry (h : Shape size align c) (hwide : 8 ≤ c.objectSize) (hle : c.objectSize ≤ 4064) :
    Geometry c.objectsPerSlab c.objectSize := by
  obtain ⟨hcount, -⟩ := h.slack_of_le hle
  have hmul : 4064 / c.objectSize * c.objectSize ≤ 4064 := Nat.div_mul_le_self _ _
  refine ⟨?_, hwide, ?_⟩
  · rw [hcount]
    exact Nat.div_pos hle h.pos
  · rw [hcount]
    omega

/-- In every run the objects stay at multiples of a power of two that divides 32 and their size. -/
theorem aligned_run (hR : P.Allocator allocReclaimable) (hU : P.Allocator allocUnmovable) (hM : P.Owns M F)
    (hgeo : Geometry (newCache size align).objectsPerSlab (newCache size align).objectSize) {d : ℕ} (h32 : d ∣ 32)
    (hd : d ∣ (newCache size align).objectSize) {ops : List Op} {r : Run A}
    (hv : Guarded (step allocReclaimable allocUnmovable) Valid (fresh M size align) ops)
    (hexec : exec (step allocReclaimable allocUnmovable) (fresh M size align) ops = some r) :
    ∃ g, Inv P F (newCache size align).objectsPerSlab (newCache size align).objectSize r g ∧ g.Aligned d := by
  refine invariant (I := fun r => ∃ g, Inv P F (newCache size align).objectsPerSlab
    (newCache size align).objectSize r g ∧ g.Aligned d) (fun r op r' hr hvalid hstep => ?_)
    ⟨_, inv_fresh hM hgeo, fun a ha => absurd ha List.not_mem_nil⟩ hv hexec
  obtain ⟨g, h, hg⟩ := hr
  rcases h.step hR hU hvalid with ⟨hnone, -⟩ | ⟨r₁, g₁, hr₁, h₁, hkeep, -⟩
  · rw [hnone] at hstep
    exact absurd hstep nofun
  · obtain rfl := Option.some.inj (hr₁.symm.trans hstep)
    exact ⟨g₁, h₁, hkeep d h32 hd hg⟩

/-- The last object is the first of the free list. -/
theorem freeList_threadObjects {a base z n i : ℕ} {m : Mem} (hend : base + (i + n) * z < 2 ^ 64) :
    freeList (threadObjects a base z (n + 1) i m) a = base + (i + n) * z := by
  induction n generalizing i m with
  | zero =>
      unfold threadObjects threadObjects freeList setFreeList
      rw [load_store_of_lt (by norm_num; omega)]
      rfl
  | succ n ih =>
      have hidx : i + (n + 1) = i + 1 + n := by omega
      rw [hidx] at hend ⊢
      rw [threadObjects]
      exact ih hend

/-- An object that is taken is the first one of the free list. -/
theorem slabTake_fst {s s' : State A} {a o : ℕ} (h : slabTake s a = some (o, s')) (ho : o ≠ 0) :
    o = freeList s.mem a := by
  have hfst : o = (slabAllocFromSlab s.mem a).1 := by
    unfold slabTake at h
    dsimp only at h
    split_ifs at h
    · cases hmove : slabMoveToList (slabAllocFromSlab s.mem a).2 s.cache.slabsPartial s.cache.slabsFull a with
      | none =>
          rw [hmove] at h
          exact absurd h nofun
      | some res =>
          rw [hmove] at h
          exact (Prod.mk.inj (Option.some.inj h)).1.symm
    · exact (Prod.mk.inj (Option.some.inj h)).1.symm
  unfold slabAllocFromSlab at hfst
  split_ifs at hfst
  · exact absurd hfst ho
  · exact hfst

/-- The first object that a new cache hands out is the last of its first slab, which has no colour. -/
theorem slabAlloc_fresh (hshape : Shape size align (newCache size align)) {o : ℕ} {s' : State A}
    (hcall : slabAlloc allocReclaimable (fresh M size align).state = some (o, s')) (ho : o ≠ 0)
    (hpage : (allocReclaimable M).1 + 4096 ≤ 2 ^ 64) :
    (allocReclaimable M).1 ≠ 0 ∧ o = (allocReclaimable M).1 + slabHeaderSize
      + ((newCache size align).objectsPerSlab - 1) * (newCache size align).objectSize := by
  obtain ⟨a, ha⟩ : ∃ a, (allocReclaimable M).1 = a := ⟨_, rfl⟩
  rw [ha] at hpage ⊢
  have hslow : ∃ s₁, slabAllocSlow allocReclaimable (fresh M size align).state = some (o, s₁) := by
    unfold slabAlloc at hcall
    rw [if_neg (show ¬ (fresh M size align).state.cache.available > 0 from Nat.lt_irrefl 0)] at hcall
    cases hslow : slabAllocSlow allocReclaimable (fresh M size align).state with
    | none =>
        rw [hslow] at hcall
        exact absurd hcall nofun
    | some res =>
        rw [hslow] at hcall
        exact ⟨res.2, congrArg some (Prod.ext (Prod.mk.inj (Option.some.inj hcall)).1 rfl)⟩
  obtain ⟨s₁, hslow⟩ := hslow
  unfold slabAllocSlow at hslow
  rw [if_neg (show ¬ (fresh M size align).state.cache.slabsPartial ≠ 0 from not_not.mpr rfl)] at hslow
  dsimp only at hslow
  rw [if_neg (show ¬ (fresh M size align).state.cache.slabsFree ≠ 0 from not_not.mpr rfl)] at hslow
  cases hcreate : slabCreate allocReclaimable (fresh M size align).state with
  | none =>
      rw [hcreate] at hslow
      exact absurd hslow (Option.some_ne_none _).symm
  | some res =>
      obtain ⟨slab, s₂⟩ := res
      rw [hcreate] at hslow
      dsimp only at hslow
      by_cases hslab : slab = 0
      · rw [if_neg (not_not.mpr hslab)] at hslow
        exact absurd (Prod.mk.inj (Option.some.inj hslow)).1.symm ho
      rw [if_pos hslab] at hslow
      obtain ⟨hpageEq, h0, -, m, hmem⟩ := slabCreate_mem hcreate hslab
      obtain rfl : slab = a := hpageEq.trans ha
      have ho' := slabTake_fst hslow ho
      refine ⟨hslab, ?_⟩
      have hcolor : colorOffset (fresh M size align).state.cache = 0 := by
        unfold colorOffset
        rw [show Word.mul 32 (fresh M size align).state.cache.colorNext cacheLineSize = 0 from rfl, Nat.zero_mod]
      have hfree : freeList (pushPartial s₂ slab).mem slab = freeList s₂.mem slab := by
        unfold pushPartial freeList setNext
        exact load_store_disjoint (by omega)
      have hcount : 1 ≤ (newCache size align).objectsPerSlab := by
        rw [hshape.count]
        exact le_max_left _ _
      have hend : slab + slabHeaderSize + ((newCache size align).objectsPerSlab - 1) * (newCache size align).objectSize
          < 2 ^ 64 := by
        unfold slabHeaderSize
        rcases le_or_gt (newCache size align).objectSize 4064 with hle | hlt
        · have hfits := hshape.fits hle h0
          have hpos := hshape.pos
          have hsub := Nat.succ_mul ((newCache size align).objectsPerSlab - 1) (newCache size align).objectSize
          rw [Nat.succ_eq_add_one, Nat.sub_add_cancel hcount] at hsub
          have hroom : colorOffset (newCache size align)
              + (newCache size align).objectsPerSlab * (newCache size align).objectSize ≤ 4064 := hfits
          omega
        · rw [(hshape.slack_of_lt hlt).1]
          omega
      rw [ho', hfree, hmem, hcolor, Nat.add_zero]
      have hlast := @freeList_threadObjects slab (slab + slabHeaderSize) (newCache size align).objectSize
        ((newCache size align).objectsPerSlab - 1) 0
        (setFreeList (setObjects m slab (slab + slabHeaderSize)) slab 0) (by rw [Nat.zero_add]; exact hend)
      rw [Nat.sub_add_cancel hcount, Nat.zero_add] at hlast
      exact hlast

/-- A power of two that is not one of 1, 2, 4, 8, 16 and 32 does not divide 32. -/
theorem dvd_thirtyTwo_iff (k : ℕ) : 2 ^ k ∣ 32 ↔ 2 ^ k ≤ 32 := by
  refine ⟨fun h => Nat.le_of_dvd (by norm_num) h, fun h => ?_⟩
  exact pow_dvd_pow 2 ((Nat.pow_le_pow_iff_right (by norm_num)).mp (show 2 ^ k ≤ 2 ^ 5 from h))

/-- Up to 32 the alignment is honoured in every run; above 32 the first object is misaligned. -/
theorem objects_aligned_of_le (P : Ownership A) (hR : P.Allocator allocReclaimable)
    (hU : P.Allocator allocUnmovable) {k : ℕ} (hk : 2 ^ k ≤ 2048)
    (h : slabCacheCreate allocUnmovable M' name size (2 ^ k) = some (some c, M)) (hM : P.Owns M F) :
    (2 ^ k ≤ 32 → k = 0 ∨ (8 ≤ c.objectSize ∧ c.objectSize ≤ 4064) → ∀ ops r,
      Guarded (step allocReclaimable allocUnmovable) Valid (fresh M size (2 ^ k)) ops →
      exec (step allocReclaimable allocUnmovable) (fresh M size (2 ^ k)) ops = some r →
      ∀ o s', slabAlloc allocReclaimable r.state = some (o, s') → 2 ^ k ∣ o) ∧
    (32 < 2 ^ k → ∀ o s', slabAlloc allocReclaimable (fresh M size (2 ^ k)).state = some (o, s') → o ≠ 0 →
      ¬ 2 ^ k ∣ o) := by
  obtain ⟨rfl, hsize, hpage, hpos⟩ := created h
  have hshape : Shape size (2 ^ k) (newCache size (2 ^ k)) := ⟨rfl, rfl, hpos, show 0 < 8 by norm_num⟩
  have hk64 : k < 64 := by
    by_contra hge
    have hpow : 2 ^ 64 ≤ 2 ^ k := Nat.pow_le_pow_right (by norm_num) (not_lt.mp hge)
    omega
  have hd : 2 ^ k ∣ (newCache size (2 ^ k)).objectSize := by
    rw [newCache_objectSize (Nat.two_pow_pos k).ne', alignUp_two_pow hk64 hsize hpage]
    exact Dvd.intro_left _ rfl
  constructor
  · intro hle hfits ops r hv hexec o s' hcall
    rcases hfits with rfl | ⟨hwide, hle'⟩
    · rw [pow_zero]
      exact one_dvd o
    have h32 := (dvd_thirtyTwo_iff k).mpr hle
    obtain ⟨g, hinv, hg⟩ := aligned_run hR hU hM (hshape.geometry hwide hle') h32 hd hv hexec
    rcases hinv.rep.alloc hR with ⟨hnone, -⟩ | ⟨s₁, hcall', -, -⟩ | ⟨o₁, s₁, g₁, hcall', -, h₁, hlive, -, -, hkeep, -⟩
    · rw [hnone] at hcall
      exact absurd hcall nofun
    · obtain ⟨rfl, -⟩ := Prod.mk.inj (Option.some.inj (hcall'.symm.trans hcall))
      exact dvd_zero _
    · obtain ⟨rfl, -⟩ := Prod.mk.inj (Option.some.inj (hcall'.symm.trans hcall))
      have ho : o₁ ∈ g₁.live := by
        rw [hlive]
        exact List.mem_cons_self
      obtain ⟨a, ha, hoa⟩ := h₁.toCore.live_object ho
      obtain ⟨i, -, rfl⟩ := mem_objectsFrom.mp hoa
      exact Nat.dvd_add (hkeep _ h32 hd hg a ha) (Dvd.dvd.mul_left hd i)
  · intro hlt o s' hcall ho hdvd
    have hframe : (allocReclaimable M).1 ≠ 0 → IsFrame (allocReclaimable M).1 := fun h0 =>
      P.isFrame (hR.owns hM h0) _ (Set.mem_insert _ _)
    have hbound : (allocReclaimable M).1 + 4096 ≤ 2 ^ 64 := by
      by_cases h0 : (allocReclaimable M).1 = 0
      · rw [h0]
        norm_num
      · have := (hframe h0).lt
        omega
    obtain ⟨h0, rfl⟩ := slabAlloc_fresh hshape hcall ho hbound
    have hk12 : 2 ^ k ∣ 4096 := by
      have hle : k ≤ 11 := (Nat.pow_le_pow_iff_right (by norm_num)).mp (show 2 ^ k ≤ 2 ^ 11 from hk)
      exact pow_dvd_pow 2 (show k ≤ 12 by omega)
    have hpage : 2 ^ k ∣ (allocReclaimable M).1 :=
      hk12.trans (Nat.dvd_of_mod_eq_zero (hframe h0).aligned)
    have h32 : 2 ^ k ∣ slabHeaderSize := by
      have hobject := Dvd.dvd.mul_left hd ((newCache size (2 ^ k)).objectsPerSlab - 1)
      exact (Nat.dvd_add_right hpage).mp ((Nat.dvd_add_left hobject).mp hdvd)
    exact absurd ((dvd_thirtyTwo_iff k).mp h32) (not_le.mpr hlt)

/-- A page for the cache, then objects of 100 bytes at multiples of 16. -/
theorem objects_aligned_hundred :
    (2 ^ 4 ≤ 32 → 4 = 0 ∨ (8 ≤ (newCache 100 (2 ^ 4)).objectSize ∧ (newCache 100 (2 ^ 4)).objectSize ≤ 4064) →
      ∀ ops r, Guarded (step Pmm.buddyFrame Pmm.buddyFrame) Valid
          (fresh (Pmm.buddyFrame (Pmm.booted (fun _ => 0) 0x1000 0x8000)).2 100 (2 ^ 4)) ops →
        exec (step Pmm.buddyFrame Pmm.buddyFrame)
          (fresh (Pmm.buddyFrame (Pmm.booted (fun _ => 0) 0x1000 0x8000)).2 100 (2 ^ 4)) ops = some r →
        ∀ o s', slabAlloc Pmm.buddyFrame r.state = some (o, s') → 2 ^ 4 ∣ o) ∧
      (32 < 2 ^ 4 → ∀ o s', slabAlloc Pmm.buddyFrame
          (fresh (Pmm.buddyFrame (Pmm.booted (fun _ => 0) 0x1000 0x8000)).2 100 (2 ^ 4)).state = some (o, s') →
        o ≠ 0 → ¬ 2 ^ 4 ∣ o) := by
  have hu : Buddy.Usable 0x1000 0x8000 := ⟨by norm_num, rfl, by norm_num⟩
  have halloc : (Pmm.buddyFrame (Pmm.booted (fun _ => 0) 0x1000 0x8000)).1 ≠ 0 := by decide +kernel
  have hA := Pmm.buddyFrame_allocator hu
  exact objects_aligned_of_le (Pmm.source hu) hA hA (by norm_num)
    (slabCacheCreate_eq (show (1 : ℕ) ≠ 0 from one_ne_zero) (by norm_num) (by norm_num) (by decide) halloc)
    (hA.owns (Pmm.owns_booted hu _) halloc)

/-- Objects of 64 bytes for which a cache line is asked are 32 bytes off. -/
theorem cache_line_object_misaligned :
    ¬ ∀ (size k : ℕ) (c : Cache) (M : Pmm.State), size ≤ 4096 → 2 ^ k ≤ 2048 →
      slabCacheCreate Pmm.buddyFrame (Pmm.booted (fun _ => 0) 0x1000 0x8000) 1 size (2 ^ k) = some (some c, M) →
      ∀ ops r, Guarded (step Pmm.buddyFrame Pmm.buddyFrame) Valid (fresh M size (2 ^ k)) ops →
        exec (step Pmm.buddyFrame Pmm.buddyFrame) (fresh M size (2 ^ k)) ops = some r →
        ∀ o s', slabAlloc Pmm.buddyFrame r.state = some (o, s') → 2 ^ k ∣ o := by
  intro h
  have halloc : (Pmm.buddyFrame (Pmm.booted (fun _ => 0) 0x1000 0x8000)).1 ≠ 0 := by decide +kernel
  have hobject : (slabAlloc Pmm.buddyFrame
      (fresh (Pmm.buddyFrame (Pmm.booted (fun _ => 0) 0x1000 0x8000)).2 64 (2 ^ 6)).state).map Prod.fst
        = some 0x2fa0 := by
    decide +kernel
  obtain ⟨⟨o, s'⟩, hcall, ho⟩ := Option.map_eq_some_iff.mp hobject
  have hdvd := h 64 6 _ _ (by norm_num) (by norm_num)
    (slabCacheCreate_eq one_ne_zero (by norm_num) (by norm_num) (by decide) halloc) [] _ trivial rfl o s' hcall
  rw [show o = 0x2fa0 from ho] at hdvd
  exact absurd hdvd (by decide)

end PrometheusKernel.Slab
