import PrometheusKernel.Slab.Steps

/-!
# What `slab_alloc` and `slab_free` do

`Rep.alloc` and `Rep.free` describe the two calls on the lists of the cache: an object comes to the live
ones, or leaves them, and every slab stays on the list that its free objects call for.
-/

namespace PrometheusKernel.Slab

open ByteMem LinkedList

variable {A : Type} {P : Ownership A} {F : Set ℕ} {n size : ℕ} {s s' : State A} {g : Ghost} {a o : ℕ}
  {allocReclaimable allocUnmovable : Machine A → ℕ × Machine A}

/-- The counters are the same. -/
def SameCounts (s s' : State A) : Prop :=
  s'.cache.totalAllocations = s.cache.totalAllocations ∧ s'.cache.totalFrees = s.cache.totalFrees

/-- No object is null. -/
theorem Core.object_ne_zero (h : Core P F n size s g) (ho : o ∈ g.objects n size) : o ≠ 0 := by
  obtain ⟨a, ha, hoa⟩ := mem_objects.mp ho
  have := (h.slab a ha).bounds hoa
  omega

/-- Only the counters of the cache change. -/
theorem Core.count (h : Core P F n size s g) {c : Cache} (hhead : ∀ r, c.head r = s.cache.head r)
    (h1 : c.objectSize = s.cache.objectSize) (h2 : c.objectsPerSlab = s.cache.objectsPerSlab)
    (h3 : c.limit = s.cache.limit) (h4 : c.cpuObjects = s.cache.cpuObjects)
    (h5 : c.available = s.cache.available) : Core P F n size { s with cache := c } g := by
  refine ⟨h.geometry, h1.trans h.objectSize, h2.trans h.objectsPerSlab, h3.trans h.limit, ?_, fun r => ?_, h.nodup,
    h.fresh, h.slab, h.perm, ?_, ?_, ?_, h5.trans h.available, h.bounded⟩
  · have hset : frames F c g = frames F s.cache g := by
      unfold frames
      rw [h4]
    rw [hset]
    exact h.owns
  · dsimp only
    rw [hhead r]
    exact h.lists r
  all_goals
    dsimp only
    rw [h4]
  · exact h.array
  · exact h.stack
  · exact h.stackSome

/-- The count of allocations is no part of the lists. -/
theorem Rep.countAllocation (h : Rep P F n size s g) : Rep P F n size (countAllocation s) g :=
  ⟨h.toCore.count (fun r => by cases r <;> rfl) rfl rfl rfl rfl rfl, h.full, h.part, h.free⟩

/-- The count of releases is no part of the lists. -/
theorem Rep.countFree (h : Rep P F n size s g) : Rep P F n size (countFree s) g :=
  ⟨h.toCore.count (fun r => by cases r <;> rfl) rfl rfl rfl rfl rfl, h.full, h.part, h.free⟩

/-! ### `slab_alloc` -/

/-- A slab that changes its list keeps its alignment. -/
theorem Ghost.Aligned.move {d : ℕ} {p q : Place} (h : g.Aligned d) (hpq : p ≠ q) (ha : a ∈ g.slabsAt p) :
    (g.move p q a).Aligned d := fun b hb => h b ((perm_move hpq ha).subset hb)

/-- A new slab with an aligned base. -/
theorem Ghost.Aligned.add {d base : ℕ} {fr : List ℕ} (h : g.Aligned d) (ha : a ∉ g.slabs) (hbase : d ∣ base) :
    (g.add a base fr).Aligned d := by
  intro b hb
  show d ∣ Function.update g.base a base b
  rcases List.mem_cons.mp ((perm_add g a base fr).subset hb) with rfl | hb'
  · rwa [Function.update_self]
  · have hne : b ≠ a := fun heq => ha (heq ▸ hb')
    rw [Function.update_of_ne hne]
    exact h b hb'

/-- The free objects that a slab on the list has. -/
def Place.Fits (n : ℕ) : Place → List ℕ → Prop
  | .full, fr => fr = []
  | .part, fr => fr ≠ []
  | .free, fr => fr.length = n

/-- Every slab is on the list for its free objects. -/
theorem Rep.fits (h : Rep P F n size s g) : ∀ p, ∀ b ∈ g.slabsAt p, p.Fits n (g.freeOf b)
  | .full => h.full
  | .part => h.part
  | .free => h.free

/-- Slabs on the lists for their free objects make a cache between calls. -/
theorem Core.rep (h : Core P F n size s g) (hfits : ∀ p, ∀ b ∈ g.slabsAt p, p.Fits n (g.freeOf b)) :
    Rep P F n size s g := ⟨h, hfits .full, hfits .part, hfits .free⟩

/-- What holds of the slabs on each list holds when one of them has other free objects, -/
theorem Core.forall_stay (h : Core P F n size s g) {Q : Place → List ℕ → Prop} {p : Place} {fr : List ℕ}
    (ha : a ∈ g.slabsAt p) (hall : ∀ r, ∀ b ∈ g.slabsAt r, b ≠ a → Q r (g.freeOf b)) (hnew : Q p fr) :
    ∀ r, ∀ b ∈ g.slabsAt r, Q r (Function.update g.freeOf a fr b) := by
  intro r b hb
  by_cases hba : b = a
  · subst hba
    obtain rfl : p = r := by_contra fun hne => h.disjoint hne ha hb
    rw [Function.update_self]
    exact hnew
  · rw [Function.update_of_ne hba]
    exact hall r b hb hba

/-- and when it goes to the list `q` with them. -/
theorem Core.forall_move (h : Core P F n size s g) {Q : Place → List ℕ → Prop} {p q : Place} {fr : List ℕ}
    (hpq : p ≠ q) (ha : a ∈ g.slabsAt p) (hall : ∀ r, ∀ b ∈ g.slabsAt r, b ≠ a → Q r (g.freeOf b)) (hnew : Q q fr) :
    ∀ r, ∀ b ∈ (g.move p q a).slabsAt r, Q r (Function.update g.freeOf a fr b) := by
  intro r b hb
  have hrest : b ≠ a → b ∈ g.slabsAt r → Q r (Function.update g.freeOf a fr b) := by
    intro hne hin
    rw [Function.update_of_ne hne]
    exact hall r b hin hne
  unfold Ghost.move at hb
  dsimp only at hb
  split_ifs at hb with hrp hrq
  · subst hrp
    exact hrest (fun heq => (h.lists r).nodup.not_mem_erase (heq ▸ hb)) (List.mem_of_mem_erase hb)
  · subst hrq
    rcases List.mem_cons.mp hb with rfl | hb
    · rw [Function.update_self]
      exact hnew
    · exact hrest (fun heq => h.disjoint hpq ha (heq ▸ hb)) hb
  · exact hrest (fun heq => h.disjoint (Ne.symm hrp) ha (heq ▸ hb)) hb

/-- The first slab of the partial list gives its first free object, and is full if that was the last. -/
theorem Rep.take (h : Rep P F n size s g) (ha : a ∈ g.slabsAt .part) :
    ∃ o s' g', slabTake s a = some (o, s') ∧ o ≠ 0 ∧ Rep P F n size s' g' ∧ g'.live = o :: g.live ∧
      SameCounts s s' ∧ (∀ d, g.Aligned d → g'.Aligned d) ∧ (g.UsedBut n a → g'.Used n) := by
  have has := mem_slabs ha
  obtain ⟨o, fr, hfr⟩ := List.exists_cons_of_ne_nil (h.part a ha)
  have ho : o ∈ g.objects n size :=
    mem_objects.mpr ⟨a, has, (h.slab a has).sub o (by rw [hfr]; exact List.mem_cons_self)⟩
  obtain ⟨m', hcall, htotal, hused, hcore⟩ := h.toCore.take has hfr
  set g₁ : Ghost := { g with freeOf := Function.update g.freeOf a fr, live := o :: g.live }
  have hlen := (h.slab a has).used
  rw [hfr, List.length_cons] at hlen
  unfold slabTake
  dsimp only
  rw [hcall]
  dsimp only
  rw [htotal]
  by_cases hlast : inUse m' a = n
  · -- the slab goes to the full list
    have hnil : fr = [] := List.length_eq_zero_iff.mp (by omega)
    rw [if_pos hlast]
    obtain ⟨fromList, m'', hmove, hdone⟩ := hcore.move (p := .part) (q := .full) (by decide) ha
    have hmove' : slabMoveToList m' s.cache.slabsPartial s.cache.slabsFull a = some (fromList, a, m'') := hmove
    rw [hmove']
    refine ⟨o, _, g₁.move .part .full a, rfl, h.toCore.object_ne_zero ho, Core.rep ?_ ?_, rfl, ⟨rfl, rfl⟩,
      fun d hd => hd.move (by decide) ha, fun hused b hb => ?_⟩
    · exact hdone _ (fun r => by cases r <;> rfl) rfl rfl rfl rfl rfl
    · exact h.toCore.forall_move (by decide) ha (fun r b hb _ => h.fits r b hb) hnil
    · exact h.toCore.forall_move (Q := fun r fr => r = .part → fr.length < n) (by decide) ha
        (fun r b hb hne hr => hused b (hr ▸ hb) hne) (fun hr => absurd hr (by decide)) .part b hb rfl
  · rw [if_neg hlast]
    refine ⟨o, _, g₁, rfl, h.toCore.object_ne_zero ho, hcore.rep ?_, rfl, ⟨rfl, rfl⟩, fun d hd => hd,
      fun hused b hb => ?_⟩
    · have hne : fr ≠ [] := by
        rintro rfl
        exact hlast (by simpa using hused)
      exact h.toCore.forall_stay ha (fun r b hb _ => h.fits r b hb) hne
    · exact h.toCore.forall_stay (Q := fun r fr => r = .part → fr.length < n) ha
        (fun r b hb hne hr => hused b (hr ▸ hb) hne) (fun _ => by omega) .part b hb rfl

/-- The head of a list is null, or its first slab. -/
theorem Core.head_cases (h : Core P F n size s g) (p : Place) :
    (s.cache.head p = 0 ∧ g.slabsAt p = []) ∨ (s.cache.head p ≠ 0 ∧ s.cache.head p ∈ g.slabsAt p) := by
  have hlist := h.lists p
  cases hl : g.slabsAt p with
  | nil =>
      rw [hl] at hlist
      exact Or.inl ⟨hlist, rfl⟩
  | cons b l =>
      rw [hl] at hlist
      refine Or.inr ⟨?_, ?_⟩
      · rw [hlist.1]
        exact hlist.2.1
      · rw [hlist.1]
        exact List.mem_cons_self

/-- A slab of the free list becomes the first of the partial list. -/
theorem Rep.reuse (h : Rep P F n size s g) (hne : s.cache.slabsFree ≠ 0) :
    ∃ g', Rep P F n size (pushPartial { s with cache := { s.cache with
        slabsFree := slabNext s.mem s.cache.slabsFree } } s.cache.slabsFree) g' ∧
      s.cache.slabsFree ∈ g'.slabsAt .part ∧ g'.live = g.live ∧ (∀ d, g.Aligned d → g'.Aligned d) ∧
      (g.Used n → g'.UsedBut n s.cache.slabsFree) := by
  obtain ⟨a, ha⟩ : ∃ a, s.cache.slabsFree = a := ⟨_, rfl⟩
  rw [ha] at hne ⊢
  have hmem : a ∈ g.slabsAt .free := by
    rcases h.toCore.head_cases .free with ⟨h0, -⟩ | ⟨-, hin⟩
    · exact absurd (ha.symm.trans h0) hne
    · rw [← ha]
      exact hin
  obtain ⟨fromList, m', hmove, hdone⟩ := h.toCore.move (p := .free) (q := .part) (by decide) hmem
  have hcall : slabMoveToList s.mem a s.cache.slabsPartial a
      = some (slabNext s.mem a, a, setNext s.mem a s.cache.slabsPartial) := by
    unfold slabMoveToList
    rw [if_pos rfl]
  have hmove' : slabMoveToList s.mem a s.cache.slabsPartial a = some (fromList, a, m') := ha ▸ hmove
  rw [hcall, Option.some.injEq, Prod.mk.injEq, Prod.mk.injEq] at hmove'
  obtain ⟨rfl, -, rfl⟩ := hmove'
  refine ⟨g.move .free .part a, Core.rep ?_ ?_, List.mem_cons_self, rfl, fun d hd => hd.move (by decide) hmem,
    fun hused b hb hne => ?_⟩
  · exact hdone _ (fun r => by cases r <;> rfl) rfl rfl rfl rfl rfl
  · have hne' : g.freeOf a ≠ [] := by
      have hlen := h.free a hmem
      have hpos := h.geometry.pos
      exact List.ne_nil_of_length_pos (by omega)
    have hmoved := h.toCore.forall_move (Q := Place.Fits n) (q := .part) (by decide) hmem
      (fun r b hb _ => h.fits r b hb) hne'
    rw [Function.update_eq_self] at hmoved
    exact hmoved
  · exact hused b ((List.mem_cons.mp (show b ∈ a :: g.slabsAt .part from hb)).resolve_left hne)

/-- A new slab has `n` free objects. -/
theorem Rep.add {base : ℕ} (h : Rep P F n size s g) (ha : a ∉ g.slabs)
    (hcore : Core P F n size s' (g.add a base (threaded base size n 0 []))) :
    Rep P F n size s' (g.add a base (threaded base size n 0 [])) := by
  have hkeep : ∀ b, b ≠ a → (g.add a base (threaded base size n 0 [])).freeOf b = g.freeOf b :=
    fun b hb => Function.update_of_ne hb _ _
  have hne : ∀ {p b}, b ∈ g.slabsAt p → b ≠ a := fun hb heq => ha (heq ▸ mem_slabs hb)
  refine ⟨hcore, fun b hb => ?_, fun b hb => ?_, fun b hb => ?_⟩
  · have hb' : b ∈ g.slabsAt .full := hb
    exact (hkeep b (hne hb')).trans (h.full b hb')
  · rcases List.mem_cons.mp (show b ∈ a :: g.slabsAt .part from hb) with rfl | hb
    · have hself : (g.add b base (threaded base size n 0 [])).freeOf b = threaded base size n 0 [] :=
        Function.update_self _ _ _
      have hlen := (threaded_objects base size n).length_eq
      have hpos := h.geometry.pos
      rw [length_objectsFrom] at hlen
      rw [hself]
      intro hnil
      rw [hnil, List.length_nil] at hlen
      omega
    · rw [hkeep b (hne hb)]
      exact h.part b hb
  · have hb' : b ∈ g.slabsAt .free := hb
    rw [hkeep b (hne hb')]
    exact h.free b hb'

/-- A new slab is the only one that may have no object in use. -/
theorem Ghost.Used.add {base : ℕ} {fr : List ℕ} (h : g.Used n) : (g.add a base fr).UsedBut n a := by
  intro b hb hne
  have hkeep : (g.add a base fr).freeOf b = g.freeOf b := Function.update_of_ne hne _ _
  rw [hkeep]
  exact h b ((List.mem_cons.mp (show b ∈ a :: g.slabsAt .part from hb)).resolve_left hne)

/-- `slab_create` counts no allocation and no release. -/
theorem create_counts (h : slabCreate allocReclaimable s = some (a, s')) : SameCounts s s' := by
  unfold slabCreate at h
  dsimp only at h
  split_ifs at h
  all_goals
    obtain ⟨-, rfl⟩ := Prod.mk.inj (Option.some.inj h)
    exact ⟨rfl, rfl⟩

/-- The slow path of `slab_alloc`. -/
theorem Rep.allocSlow (h : Rep P F n size s g) (hA : P.Allocator allocReclaimable) :
    (slabAllocSlow allocReclaimable s = none ∧ 32 + n * size = 4096) ∨
      (∃ s', slabAllocSlow allocReclaimable s = some (0, s') ∧ Rep P F n size s' g ∧ SameCounts s s') ∨
      ∃ o s' g', slabAllocSlow allocReclaimable s = some (o, s') ∧ o ≠ 0 ∧ Rep P F n size s' g' ∧
        g'.live = o :: g.live ∧ SameCounts s s' ∧ (∀ d, d ∣ 32 → d ∣ size → g.Aligned d → g'.Aligned d) ∧
        (g.Used n → g'.Used n) := by
  unfold slabAllocSlow
  dsimp only
  by_cases hpart : s.cache.slabsPartial ≠ 0
  · rw [if_pos hpart]
    have hmem : s.cache.slabsPartial ∈ g.slabsAt .part :=
      ((h.toCore.head_cases .part).resolve_left fun hcon => hpart hcon.1).2
    obtain ⟨o, s', g', hcall, ho, h', hlive, hcounts, hd, hu⟩ := h.take hmem
    exact Or.inr (Or.inr ⟨o, s', g', hcall, ho, h', hlive, hcounts, fun d _ _ => hd d,
      fun hused => hu fun b hb _ => hused b hb⟩)
  rw [if_neg hpart]
  by_cases hfree : s.cache.slabsFree ≠ 0
  · rw [if_pos hfree]
    obtain ⟨g₁, h₁, hmem, hlive, hd₁, hu₁⟩ := h.reuse hfree
    obtain ⟨o, s', g', hcall, ho, h', hlive', hcounts, hd, hu⟩ := h₁.take hmem
    exact Or.inr (Or.inr ⟨o, s', g', hcall, ho, h', hlive ▸ hlive', hcounts, fun d _ _ hg => hd d (hd₁ d hg),
      fun hused => hu (hu₁ hused)⟩)
  rw [if_neg hfree]
  rcases h.toCore.create hA with ⟨hnone, hexact⟩ | ⟨s₁, hcall, hcore⟩ |
      ⟨a, base, s₁, hcall, ha0, hnew, hcore, hbase⟩
  · rw [hnone]
    exact Or.inl ⟨rfl, hexact⟩
  · right; left
    have hcounts : SameCounts s s₁ := create_counts hcall
    rw [hcall]
    exact ⟨s₁, rfl, ⟨hcore, h.full, h.part, h.free⟩, hcounts⟩
  · right; right
    have hcounts : SameCounts s s₁ := create_counts hcall
    rw [hcall]
    dsimp only
    rw [if_pos ha0]
    have h₁ := h.add hnew hcore
    obtain ⟨o, s', g', htake, ho, h', hlive', hcounts', hd, hu⟩ := h₁.take (a := a) List.mem_cons_self
    exact ⟨o, s', g', htake, ho, h', hlive', ⟨hcounts'.1.trans hcounts.1, hcounts'.2.trans hcounts.2⟩,
      fun d h32 hsize hg => hd d (hg.add hnew (hbase d h32 hsize)), fun hused => hu hused.add⟩

/-- `slab_alloc` divides by zero, or returns null, or hands out an object. -/
theorem Rep.alloc (h : Rep P F n size s g) (hA : P.Allocator allocReclaimable) :
    (slabAlloc allocReclaimable s = none ∧ 32 + n * size = 4096) ∨
      (∃ s', slabAlloc allocReclaimable s = some (0, s') ∧ Rep P F n size s' g ∧ SameCounts s s') ∨
      ∃ o s' g', slabAlloc allocReclaimable s = some (o, s') ∧ o ≠ 0 ∧ Rep P F n size s' g' ∧
        g'.live = o :: g.live ∧ s'.cache.totalAllocations = Word.add 64 s.cache.totalAllocations 1 ∧
        s'.cache.totalFrees = s.cache.totalFrees ∧ (∀ d, d ∣ 32 → d ∣ size → g.Aligned d → g'.Aligned d) ∧
        (g.Used n → g'.Used n) := by
  unfold slabAlloc
  dsimp only
  by_cases havail : s.cache.available > 0
  · -- the CPU cache
    rw [if_pos havail]
    right; right
    have hlen := h.available
    obtain ⟨o, l, hcpu⟩ : ∃ o l, g.cpu = o :: l := by
      cases hc : g.cpu with
      | nil =>
          rw [hc, List.length_nil] at hlen
          omega
      | cons o l => exact ⟨o, l, rfl⟩
    rw [hcpu, List.length_cons] at hlen
    have hstack := h.stack
    rw [hcpu] at hstack
    have ho : o ∈ g.objects n size :=
      h.perm.subset (List.mem_append_left _ (List.mem_append_right _ (by rw [hcpu]; exact List.mem_cons_self)))
    have hload : load 8 s.mem (s.cache.cpuObjects + 8 * (s.cache.available - 1)) = o := by
      rw [hlen, Nat.add_sub_cancel]
      exact hstack.1
    rw [hload]
    refine ⟨o, _, { g with cpu := l, live := o :: g.live }, rfl, h.toCore.object_ne_zero ho, Rep.countAllocation
      ⟨⟨h.geometry, h.objectSize, h.objectsPerSlab, h.limit, h.owns, fun r => ?_, h.nodup, h.fresh, h.slab, ?_,
        h.array, hstack.2, fun _ => ?_, ?_, ?_⟩, h.full, h.part, h.free⟩, rfl, rfl, rfl, fun d _ _ hd => hd, id⟩
    · have hlist := h.lists r
      cases r <;> exact hlist
    · refine (List.perm_iff_count.mpr fun x => ?_).trans h.perm
      rw [hcpu]
      show (o :: g.live ++ l ++ g.freed).count x = _
      simp only [List.count_append, List.count_cons, List.cons_append]
      omega
    · exact h.stackSome (by rw [hcpu]; exact List.cons_ne_nil _ _)
    · show s.cache.available - 1 = l.length
      omega
    · have hbound := h.bounded
      rw [hcpu, List.length_cons] at hbound
      show l.length ≤ slabCpuCacheSize
      omega
  rw [if_neg havail]
  rcases h.allocSlow hA with ⟨hnone, hexact⟩ | ⟨s', hcall, h', hcounts⟩ |
      ⟨o, s', g', hcall, ho, h', hlive, hcounts, hd, hu⟩
  · rw [hnone]
    exact Or.inl ⟨rfl, hexact⟩
  · rw [hcall]
    dsimp only
    rw [if_neg (not_not.mpr rfl)]
    exact Or.inr (Or.inl ⟨s', rfl, h', hcounts⟩)
  · rw [hcall]
    dsimp only
    rw [if_pos ho]
    refine Or.inr (Or.inr ⟨o, _, g', rfl, ho, h'.countAllocation, hlive, ?_, hcounts.2, hd, hu⟩)
    show Word.add 64 s'.cache.totalAllocations 1 = _
    rw [hcounts.1]

/-! ### `slab_free` -/

/-- The slab of a live object is on the full or on the partial list. -/
theorem Rep.slab_of_live (h : Rep P F n size s g) (ho : o ∈ g.live) :
    ∃ a, (a ∈ g.slabsAt .full ∨ a ∈ g.slabsAt .part) ∧ o ∈ objectsFrom n size (g.base a) := by
  obtain ⟨a, ha, hoa⟩ := h.toCore.live_object ho
  refine ⟨a, ?_, hoa⟩
  have hnot : o ∉ g.freeOf a := fun hf => h.toCore.live_not_freed ho (mem_freed.mpr ⟨a, ha, hf⟩)
  have hlen := (h.slab a ha).length_lt hoa hnot
  unfold Ghost.slabs at ha
  rcases List.mem_append.mp ha with ha | ha
  · exact List.mem_append.mp ha
  · have := h.free a ha
    omega

/-- `slab_find_for_object` finds the slab of a live object. -/
theorem Rep.find (h : Rep P F n size s g) (ha : a ∈ g.slabsAt .full ∨ a ∈ g.slabsAt .part)
    (ho : o ∈ objectsFrom n size (g.base a)) : slabFindForObject s.mem s.cache o = some a := by
  have has : a ∈ g.slabs := ha.elim mem_slabs mem_slabs
  have hbo := (h.slab a has).bounds ho
  have hwide := h.geometry.wide
  have hlt : ∀ p, ∀ b ∈ g.slabsAt p, b < 2 ^ 64 := fun p b hb => by
    have := (h.toCore.isFrame (mem_slabs hb)).lt
    omega
  have hin : decide (o ≥ a ∧ o < a + pageSize) = true := by
    unfold pageSize
    rw [decide_eq_true_eq]
    omega
  -- no other page holds the object
  have honly : ∀ b ∈ g.slabs, decide (o ≥ b ∧ o < b + pageSize) = true → b = a := by
    intro b hb hdec
    unfold pageSize at hdec
    rw [decide_eq_true_eq] at hdec
    by_contra hne
    have := h.toCore.apart hb has hne
    omega
  have hsome : ∀ p, a ∈ g.slabsAt p →
      (g.slabsAt p).find? (fun b => decide (o ≥ b ∧ o < b + pageSize)) = some a := by
    intro p hap
    cases hf : (g.slabsAt p).find? (fun b => decide (o ≥ b ∧ o < b + pageSize)) with
    | none => exact absurd hin (by simpa using List.find?_eq_none.mp hf a hap)
    | some b =>
        have hdec := List.find?_some (p := fun b => decide (o ≥ b ∧ o < b + pageSize)) hf
        rw [honly b (mem_slabs (List.mem_of_find?_eq_some hf)) hdec]
  obtain ⟨k, hk⟩ : ∃ k, a = k + 1 := ⟨a - 1, by have := (h.toCore.isFrame has).ne_zero; omega⟩
  have hlistFull : IsList (slabNext s.mem) (g.slabsAt .full) s.cache.slabsFull := h.lists .full
  have hlistPart : IsList (slabNext s.mem) (g.slabsAt .part) s.cache.slabsPartial := h.lists .part
  unfold slabFindForObject
  dsimp only
  rw [search_walkBound hlistFull (hlt .full)]
  by_cases hfull : a ∈ g.slabsAt .full
  · rw [hsome .full hfull, Option.getD_some, hk]
  · have hnone : (g.slabsAt .full).find? (fun b => decide (o ≥ b ∧ o < b + pageSize)) = none := by
      rw [List.find?_eq_none]
      intro b hb hdec
      exact hfull (honly b (mem_slabs hb) hdec ▸ hb)
    rw [hnone, Option.getD_none]
    dsimp only
    rw [search_walkBound hlistPart (hlt .part), hsome .part (ha.resolve_left hfull), Option.getD_some]

/-- The slow path of `slab_free`. -/
theorem Rep.freeSlow (h : Rep P F n size s g) (ho : o ∈ g.live) :
    ∃ s' g', slabFreeSlow s o = some s' ∧ Rep P F n size s' g' ∧ g'.live = g.live.erase o ∧
      s'.cache.totalAllocations = s.cache.totalAllocations ∧
      s'.cache.totalFrees = Word.add 64 s.cache.totalFrees 1 ∧ (∀ d, g.Aligned d → g'.Aligned d) ∧
      (g.Used n → (g'.Used n ↔ n ≠ 1)) := by
  obtain ⟨a, hplace, hoa⟩ := h.slab_of_live ho
  have has : a ∈ g.slabs := hplace.elim mem_slabs mem_slabs
  have hslab := h.slab a has
  obtain ⟨k, hk⟩ : ∃ k, a = k + 1 := ⟨a - 1, by have := (h.toCore.isFrame has).ne_zero; omega⟩
  obtain ⟨hrep, hcore⟩ := h.toCore.give has hoa ho
  have hused := hrep.used
  rw [List.length_cons] at hused
  set m' := slabFreeToSlab s.mem a o with hm'
  set g₁ : Ghost := { g with freeOf := Function.update g.freeOf a (o :: g.freeOf a), live := g.live.erase o }
  have hlen : (o :: g.freeOf a).length = (g.freeOf a).length + 1 := List.length_cons
  unfold slabFreeSlow
  rw [h.find hplace hoa, hk]
  dsimp only
  rw [← hk, ← hm', hslab.total]
  by_cases hwas : inUse s.mem a = n
  · -- the slab was full
    have hnil : g.freeOf a = [] := by
      have := hslab.used
      exact List.length_eq_zero_iff.mp (by omega)
    have hfull : a ∈ g.slabsAt .full := hplace.resolve_right fun hpart => h.part a hpart hnil
    rw [if_pos hwas]
    obtain ⟨fromList, m'', hmove, hdone⟩ := hcore.move (p := .full) (q := .part) (by decide) hfull
    have hmove' : slabMoveToList m' s.cache.slabsFull s.cache.slabsPartial a = some (fromList, a, m'') := hmove
    rw [hmove']
    refine ⟨_, g₁.move .full .part a, rfl, Rep.countFree (Core.rep ?_ ?_), rfl, rfl, rfl,
      fun d hd => hd.move (by decide) hfull, fun hused' => ⟨fun hall => ?_, fun hn => ?_⟩⟩
    · exact hdone _ (fun r => by cases r <;> rfl) rfl rfl rfl rfl rfl
    · exact h.toCore.forall_move (by decide) hfull (fun r b hb _ => h.fits r b hb) (List.cons_ne_nil o _)
    · -- its only free object is `o`
      have hone : (Function.update g.freeOf a (o :: g.freeOf a) a).length < n := hall a List.mem_cons_self
      rw [Function.update_self, hnil, List.length_singleton] at hone
      exact hone.ne'
    · have hpos := h.geometry.pos
      rw [hnil, List.length_nil] at hlen
      exact fun b hb => h.toCore.forall_move (Q := fun r fr => r = .part → fr.length < n) (by decide) hfull
        (fun r b hb _ hr => hused' b (hr ▸ hb)) (fun _ => by rw [hnil, hlen]; omega) .part b hb rfl
  rw [if_neg hwas]
  have hpart : a ∈ g.slabsAt .part := by
    refine hplace.resolve_left fun hfull => hwas ?_
    have := hslab.used
    rw [h.full a hfull, List.length_nil] at this
    exact this
  have htwo : g.Used n → n ≠ 1 := by
    intro hused'
    have hlt := hused' a hpart
    have hpos := List.length_pos_of_ne_nil (h.part a hpart)
    omega
  by_cases hlast : inUse m' a = 0
  · -- its last object in use came back
    rw [if_pos hlast]
    obtain ⟨fromList, m'', hmove, hdone⟩ := hcore.move (p := .part) (q := .free) (by decide) hpart
    have hmove' : slabMoveToList m' s.cache.slabsPartial s.cache.slabsFree a = some (fromList, a, m'') := hmove
    rw [hmove']
    refine ⟨_, g₁.move .part .free a, rfl, Rep.countFree (Core.rep ?_ ?_), rfl, rfl, rfl,
      fun d hd => hd.move (by decide) hpart, fun hused' => ⟨fun _ => htwo hused', fun _ b hb => ?_⟩⟩
    · exact hdone _ (fun r => by cases r <;> rfl) rfl rfl rfl rfl rfl
    · have hall : (o :: g.freeOf a).length = n := by omega
      exact h.toCore.forall_move (by decide) hpart (fun r b hb _ => h.fits r b hb) hall
    · exact h.toCore.forall_move (Q := fun r fr => r = .part → fr.length < n) (by decide) hpart
        (fun r b hb _ hr => hused' b (hr ▸ hb)) (fun hr => absurd hr (by decide)) .part b hb rfl
  · rw [if_neg hlast]
    refine ⟨_, g₁, rfl, Rep.countFree (hcore.rep ?_), rfl, rfl, rfl, fun d hd => hd,
      fun hused' => ⟨fun _ => htwo hused', fun _ b hb => ?_⟩⟩
    · exact h.toCore.forall_stay hpart (fun r b hb _ => h.fits r b hb) (List.cons_ne_nil o _)
    · exact h.toCore.forall_stay (Q := fun r fr => r = .part → fr.length < n) hpart
        (fun r b hb _ hr => hused' b (hr ▸ hb)) (fun _ => by omega) .part b hb rfl

/-- The call takes the path without the lock: the CPU cache has room, and has an array or gets one. -/
def Fast (allocUnmovable : Machine A → ℕ × Machine A) (s : State A) : Prop :=
  s.cache.available < s.cache.limit ∧ (s.cache.cpuObjects = 0 → (allocUnmovable s.toMachine).1 ≠ 0)

/-- There is an array exactly if there was one or a page was to be had. -/
theorem cpuObjects_ensureCpuArray (allocUnmovable : Machine A → ℕ × Machine A) (s : State A) :
    (ensureCpuArray allocUnmovable s).cache.cpuObjects ≠ 0 ↔
      (s.cache.cpuObjects = 0 → (allocUnmovable s.toMachine).1 ≠ 0) := by
  unfold ensureCpuArray
  by_cases h0 : s.cache.cpuObjects = 0
  · rw [if_pos h0]
    exact ⟨fun h _ => h, fun h => h h0⟩
  · rw [if_neg h0]
    exact ⟨fun _ hcon => absurd hcon h0, fun _ => h0⟩

/-- The CPU cache has its array, or the page allocator failed. -/
theorem Rep.cpuArray (h : Rep P F n size s g) (hA : P.Allocator allocUnmovable) :
    Rep P F n size (ensureCpuArray allocUnmovable s) g ∧ SameCounts s (ensureCpuArray allocUnmovable s) := by
  unfold ensureCpuArray
  by_cases h0 : s.cache.cpuObjects = 0
  swap
  · rw [if_neg h0]
    exact ⟨h, rfl, rfl⟩
  rw [if_pos h0]
  dsimp only
  refine ⟨?_, rfl, rfl⟩
  have hcpu : g.cpu = [] := by
    by_contra hne
    exact h.stackSome hne h0
  obtain ⟨r, hr⟩ : ∃ r, (allocUnmovable s.toMachine).1 = r := ⟨_, rfl⟩
  rw [hr]
  have hpage : ∀ b ∈ g.slabs, ∀ x, b ≤ x → x < b + 4096 → (allocUnmovable s.toMachine).2.mem x = s.mem x :=
    fun b hb x h1 h2 => hA.mem h.owns b (Or.inr (Or.inl hb)) x ⟨h1, h2⟩
  have howns : P.Owns (allocUnmovable s.toMachine).2
      (frames F { s.cache with cpuObjects := r } g) ∧ r ∉ g.slabs := by
    by_cases hr0 : r = 0
    · have hset : frames F { s.cache with cpuObjects := r } g = frames F s.cache g := by
        unfold frames
        rw [hr0, h0]
      rw [hset]
      refine ⟨hA.fail h.owns (hr.trans hr0), fun hin => ?_⟩
      exact (h.toCore.isFrame hin).ne_zero hr0
    · have hset : frames F { s.cache with cpuObjects := r } g = Set.insert r (frames F s.cache g) := by
        ext f
        show _ ↔ f = r ∨ _
        unfold frames
        simp only [Set.mem_ofPred_eq, h0]
        constructor
        · rintro (hf | hf | ⟨hf, -⟩)
          · exact Or.inr (Or.inl hf)
          · exact Or.inr (Or.inr (Or.inl hf))
          · exact Or.inl hf
        · rintro (hf | hf | hf | ⟨hf, hne⟩)
          · exact Or.inr (Or.inr ⟨hf, hf ▸ hr0⟩)
          · exact Or.inl hf
          · exact Or.inr (Or.inl hf)
          · exact absurd hf hne
      have hr' : (allocUnmovable s.toMachine).1 ≠ 0 := by
        rw [hr]
        exact hr0
      rw [hset, ← hr]
      exact ⟨hA.owns h.owns hr', fun hin => hA.fresh h.owns hr' (Or.inr (Or.inl hin))⟩
  refine ⟨⟨h.geometry, h.objectSize, h.objectsPerSlab, h.limit, howns.1, fun p => ?_, h.nodup, h.fresh,
    fun b hb => ?_, h.perm, howns.2, ?_, fun hne => absurd hcpu hne, h.available, h.bounded⟩, h.full, h.part, h.free⟩
  · have hlist : IsList (slabNext (allocUnmovable s.toMachine).2.mem) (g.slabsAt p) (s.cache.head p) :=
      (h.lists p).congr fun b hb => load_congr fun x hx =>
        hpage b (mem_slabs hb) x hx.1 (by have := hx.2; omega)
    cases p <;> exact hlist
  · have hwide := h.geometry.wide
    refine (h.slab b hb).congr (fun x h1 h2 => hpage b hb x (by omega) (by omega)) fun o ho x h1 h2 => ?_
    have hbo := (h.slab b hb).bounds ((h.slab b hb).sub o ho)
    exact hpage b hb x (by omega) (by omega)
  · rw [hcpu]
    trivial

/-- A live object goes onto the stack of the CPU cache. -/
theorem Rep.push (h : Rep P F n size s g) (ho : o ∈ g.live) (harr : s.cache.cpuObjects ≠ 0)
    (hroom : s.cache.available < s.cache.limit) :
    Rep P F n size { s with
        mem := store 8 s.mem (s.cache.cpuObjects + 8 * s.cache.available) o
        cache := { s.cache with available := s.cache.available + 1 } }
      { g with cpu := o :: g.cpu, live := g.live.erase o } := by
  have hlen := h.available
  have hlimit := h.limit
  unfold slabCpuCacheSize at hlimit
  set arr := s.cache.cpuObjects with harr'
  have hframe : ∀ x, x < arr + 8 * g.cpu.length ∨ arr + 8 * g.cpu.length + 8 ≤ x →
      store 8 s.mem (arr + 8 * s.cache.available) o x = s.mem x := by
    intro x hx
    rw [hlen]
    exact store_apply_of_lt_or_le hx
  have hpage : ∀ b ∈ g.slabs, ∀ x, b ≤ x → x < b + 4096 →
      store 8 s.mem (arr + 8 * s.cache.available) o x = s.mem x := by
    intro b hb x h1 h2
    have := h.toCore.array_apart hb harr
    exact hframe x (by omega)
  have ho64 : o < 2 ^ 64 := by
    obtain ⟨a, ha, hoa⟩ := h.toCore.live_object ho
    have h1 := (h.slab a ha).bounds hoa
    have h2 := (h.toCore.isFrame ha).lt
    omega
  refine ⟨⟨h.geometry, h.objectSize, h.objectsPerSlab, h.limit, ?_, fun p => ?_, h.nodup, h.fresh, fun b hb => ?_,
    ?_, h.array, ⟨?_, ?_⟩, fun _ => harr, ?_, ?_⟩, h.full, h.part, h.free⟩
  · refine P.write h.owns _ fun x hx => hframe x ?_
    have hin := hx arr (Or.inr (Or.inr ⟨rfl, harr⟩))
    unfold InPage pageSize at hin
    omega
  · have hlist : IsList (slabNext (store 8 s.mem (arr + 8 * s.cache.available) o)) (g.slabsAt p)
        (s.cache.head p) :=
      (h.lists p).congr fun b hb => load_congr fun x hx =>
        hpage b (mem_slabs hb) x hx.1 (by have := hx.2; omega)
    cases p <;> exact hlist
  · have hwide := h.geometry.wide
    refine (h.slab b hb).congr (fun x h1 h2 => hpage b hb x (by omega) (by omega)) fun o ho x h1 h2 => ?_
    have hbo := (h.slab b hb).bounds ((h.slab b hb).sub o ho)
    exact hpage b hb x (by omega) (by omega)
  · refine (List.perm_iff_count.mpr fun x => ?_).trans h.perm
    have hcount := (List.perm_cons_erase ho).count_eq x
    rw [List.count_cons] at hcount
    show (g.live.erase o ++ o :: g.cpu ++ g.freed).count x = _
    rw [List.count_append, List.count_append, List.count_append, List.count_append, List.count_cons]
    omega
  · dsimp only
    rw [hlen, load_store_of_lt (by norm_num; omega)]
  · exact h.stack.congr fun x _ h2 => hframe x (by omega)
  · show s.cache.available + 1 = (o :: g.cpu).length
    rw [hlen, List.length_cons]
  · show (o :: g.cpu).length ≤ 16
    rw [List.length_cons]
    omega

/-- `slab_free` takes a live object back. -/
theorem Rep.free_live (h : Rep P F n size s g) (hA : P.Allocator allocUnmovable) (ho : o ∈ g.live) :
    ∃ s' g', slabFree allocUnmovable s o = some s' ∧ Rep P F n size s' g' ∧ g'.live = g.live.erase o ∧
      s'.cache.totalAllocations = s.cache.totalAllocations ∧
      s'.cache.totalFrees = Word.add 64 s.cache.totalFrees 1 ∧ (∀ d, g.Aligned d → g'.Aligned d) ∧
      (g.Used n → (g'.Used n ↔ n ≠ 1 ∨ Fast allocUnmovable s)) := by
  have ho0 : o ≠ 0 := h.toCore.object_ne_zero (mem_objects.mpr (h.toCore.live_object ho))
  unfold slabFree
  rw [if_neg ho0]
  by_cases hroom : s.cache.available < s.cache.limit
  · rw [if_pos hroom]
    obtain ⟨h₁, hcounts⟩ := h.cpuArray hA
    have hroom₁ : (ensureCpuArray allocUnmovable s).cache.available
        < (ensureCpuArray allocUnmovable s).cache.limit := by
      rw [h₁.available, h₁.limit, ← h.available, ← h.limit]
      exact hroom
    have hfast := cpuObjects_ensureCpuArray allocUnmovable s
    dsimp only
    set s₁ := ensureCpuArray allocUnmovable s with hs₁
    by_cases harr : s₁.cache.cpuObjects ≠ 0
    · rw [if_pos harr]
      refine ⟨_, _, rfl, (h₁.push ho harr hroom₁).countFree, rfl, hcounts.1, ?_, fun d hd => hd, fun hused => ?_⟩
      · show Word.add 64 s₁.cache.totalFrees 1 = _
        rw [hcounts.2]
      · exact ⟨fun _ => Or.inr ⟨hroom, hfast.mp harr⟩, fun _ => hused⟩
    · rw [if_neg harr]
      obtain ⟨s', g', hcall, h', hlive, h1, h2, hd, hu⟩ := h₁.freeSlow ho
      refine ⟨s', g', hcall, h', hlive, h1.trans hcounts.1, by rw [h2, hcounts.2], hd, fun hused => ?_⟩
      rw [hu hused]
      exact (or_iff_left fun hcon : Fast allocUnmovable s => harr (hfast.mpr hcon.2)).symm
  · rw [if_neg hroom]
    obtain ⟨s', g', hcall, h', hlive, h1, h2, hd, hu⟩ := h.freeSlow ho
    refine ⟨s', g', hcall, h', hlive, h1, h2, hd, fun hused => ?_⟩
    rw [hu hused]
    exact (or_iff_left fun hcon : Fast allocUnmovable s => hroom hcon.1).symm

end PrometheusKernel.Slab
