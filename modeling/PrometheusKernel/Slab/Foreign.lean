import PrometheusKernel.Slab.Classes

/-!
# Pointers that no slab holds

Under the lock `slab_free` looks for the slab of the object, and a pointer into no slab changes nothing. Without
the lock, when the CPU cache has room and an array, any pointer goes onto the stack, and `slab_alloc` hands it
out. So a foreign pointer is without effect exactly on the first path, and in every run that frees only objects
that are held, and foreign pointers on that path, `slab_alloc` hands out objects of the cache's own slabs
(`foreign_rejected`).
-/

namespace PrometheusKernel.Slab

open ByteMem LinkedList Interleaving

variable {A : Type} {P : Ownership A} {F : Set ℕ} {n size align : ℕ} {g : Ghost}

/-! ### Objects and foreign pointers -/

/-- `o` is an object of a slab of the cache. -/
def ObjectOf (s : State (Ledger A)) (o : ℕ) : Prop :=
  ∃ a, IsSlab s a ∧ ∃ i < s.cache.objectsPerSlab, o = objectAt s.mem s.cache a i

/-- `obj` is not null and in no slab of the cache. -/
def Foreign (s : State (Ledger A)) (obj : ℕ) : Prop := obj ≠ 0 ∧ ∀ a, IsSlab s a → ¬ InPage a obj

/-- The cache with its counters is the same, and so are its slabs and the stack of the CPU cache. -/
structure Untouched (s s' : State (Ledger A)) : Prop where
  cache : s'.cache = s.cache
  slabs : ∀ a, IsSlab s' a ↔ IsSlab s a
  mem : ∀ a, IsSlab s a → ∀ x, InPage a x → s'.mem x = s.mem x
  stack : ∀ i < s.cache.available,
    load 8 s'.mem (s.cache.cpuObjects + 8 * i) = load 8 s.mem (s.cache.cpuObjects + 8 * i)

/-- What the clients may do when any pointer may be freed. -/
def AnyPointer (c : Run (Ledger A)) : Op → Prop
  | .free _ => True
  | op => Valid c op

/-- A pointer that is freed is null, or an object that a client holds, or foreign and given back under the
lock. -/
def Rejected (allocUnmovable : Machine (Ledger A) → ℕ × Machine (Ledger A)) (c : Run (Ledger A)) : Op → Prop
  | .free obj => obj = 0 ∨ obj ∈ c.live ∨ Foreign c.state obj ∧ ¬ Fast allocUnmovable c.state
  | op => Valid c op

section calls

variable {s s' : State (Ledger A)} {c : Run (Ledger A)}
  {allocReclaimable allocUnmovable : Machine (Ledger A) → ℕ × Machine (Ledger A)}

/-- `slab_find_for_object` finds no slab for a foreign pointer. -/
theorem Core.find_foreign (h : Core (P.recorded F) F n size s g) {obj : ℕ} (hobj : Foreign s obj) :
    slabFindForObject s.mem s.cache obj = some 0 := by
  have hlt : ∀ p, ∀ b ∈ g.slabsAt p, b < 2 ^ 64 := fun p b hb => by
    have := (h.isFrame (mem_slabs hb)).lt
    omega
  have hnone : ∀ p, (g.slabsAt p).find? (fun b => decide (obj ≥ b ∧ obj < b + pageSize)) = none := by
    intro p
    rw [List.find?_eq_none]
    intro b hb hdec
    exact hobj.2 b (h.isSlab_iff.mpr (mem_slabs hb)) (of_decide_eq_true hdec)
  have hfull : IsList (slabNext s.mem) (g.slabsAt .full) s.cache.slabsFull := h.lists .full
  have hpart : IsList (slabNext s.mem) (g.slabsAt .part) s.cache.slabsPartial := h.lists .part
  unfold slabFindForObject
  dsimp only
  rw [search_walkBound hfull (hlt .full), hnone .full, Option.getD_none]
  dsimp only
  rw [search_walkBound hpart (hlt .part), hnone .part, Option.getD_none]

/-- A foreign pointer is found on no list, and changes nothing. -/
theorem Core.freeSlow_foreign (h : Core (P.recorded F) F n size s g) {obj : ℕ} (hobj : Foreign s obj) :
    slabFreeSlow s obj = some s := by
  unfold slabFreeSlow
  rw [h.find_foreign hobj]

/-- A call that finds no page for the array of the CPU cache changes nothing else. -/
theorem Rep.untouched_cpuArray (h : Rep (P.recorded F) F n size s g) (hU : (P.recorded F).Allocator allocUnmovable)
    (h0 : s.cache.cpuObjects = 0) (hfail : (allocUnmovable s.toMachine).1 = 0) :
    Untouched s (ensureCpuArray allocUnmovable s) := by
  obtain ⟨h', -⟩ := h.cpuArray hU
  have hempty : s.cache.available = 0 := by
    rw [h.available, List.length_eq_zero_iff]
    by_contra hne
    exact h.stackSome hne h0
  have hslabs : ∀ a, IsSlab (ensureCpuArray allocUnmovable s) a ↔ IsSlab s a := by
    intro a
    rw [h'.toCore.isSlab_iff, h.toCore.isSlab_iff]
  have heq : ensureCpuArray allocUnmovable s = { s with toMachine := (allocUnmovable s.toMachine).2 } := by
    unfold ensureCpuArray
    rw [if_pos h0]
    dsimp only
    rw [hfail, ← h0]
  rw [heq] at hslabs ⊢
  refine ⟨rfl, hslabs, fun a ha x hx => ?_, fun i hi => ?_⟩
  · exact hU.mem h.owns a (Or.inr (Or.inl (h.toCore.isSlab_iff.mp ha))) x hx
  · rw [hempty] at hi
    exact absurd hi (Nat.not_lt_zero i)

/-- A foreign pointer is without effect exactly under the lock. -/
theorem Rep.free_foreign (h : Rep (P.recorded F) F n size s g) (hU : (P.recorded F).Allocator allocUnmovable)
    {obj : ℕ} (hobj : Foreign s obj) :
    ∃ s', slabFree allocUnmovable s obj = some s' ∧ (Untouched s s' ↔ ¬ Fast allocUnmovable s) ∧
      (¬ Fast allocUnmovable s → Rep (P.recorded F) F n size s' g) := by
  have hself : Untouched s s := ⟨rfl, fun _ => Iff.rfl, fun _ _ _ _ => rfl, fun _ _ => rfl⟩
  unfold slabFree
  rw [if_neg hobj.1]
  by_cases hroom : s.cache.available < s.cache.limit
  swap
  · rw [if_neg hroom]
    have hslow : ¬ Fast allocUnmovable s := fun hfast => hroom hfast.1
    exact ⟨s, h.toCore.freeSlow_foreign hobj, iff_of_true hself hslow, fun _ => h⟩
  rw [if_pos hroom]
  dsimp only
  have harray := cpuObjects_ensureCpuArray allocUnmovable s
  by_cases hfast : s.cache.cpuObjects = 0 → (allocUnmovable s.toMachine).1 ≠ 0
  · -- the pointer goes onto the stack
    rw [if_pos (harray.mpr hfast)]
    refine ⟨_, rfl, iff_of_false (fun huntouched => ?_) (not_not_intro ⟨hroom, hfast⟩),
      fun hslow => absurd ⟨hroom, hfast⟩ hslow⟩
    have hcount := congrArg Cache.available huntouched.cache
    have hsame : (ensureCpuArray allocUnmovable s).cache.available = s.cache.available := by
      rw [(h.cpuArray hU).1.available, h.available]
    have hsucc : (ensureCpuArray allocUnmovable s).cache.available + 1 = s.cache.available := hcount
    omega
  · rw [if_neg fun harr => hfast (harray.mp harr)]
    obtain ⟨h0, hfail⟩ := Classical.not_imp.mp hfast
    have huntouched := h.untouched_cpuArray hU h0 (not_not.mp hfail)
    have hforeign : Foreign (ensureCpuArray allocUnmovable s) obj :=
      ⟨hobj.1, fun a ha => hobj.2 a ((huntouched.slabs a).mp ha)⟩
    have h' := (h.cpuArray hU).1
    exact ⟨_, h'.toCore.freeSlow_foreign hforeign, iff_of_true huntouched fun hcon => hfast hcon.2, fun _ => h'⟩

/-- What `slab_alloc` hands out is an object of a slab. -/
theorem Rep.alloc_object (h : Rep (P.recorded F) F n size s g) (hR : (P.recorded F).Allocator allocReclaimable)
    {o : ℕ} (hcall : slabAlloc allocReclaimable s = some (o, s')) (ho : o ≠ 0) : ObjectOf s' o := by
  rcases h.alloc hR with ⟨hnone, -⟩ | ⟨s₁, hcall', -⟩ | ⟨o₁, s₁, g₁, hcall', -, h₁, hlive, -⟩
  · rw [hnone] at hcall
    exact absurd hcall nofun
  · rw [hcall', Option.some.injEq, Prod.mk.injEq] at hcall
    exact absurd hcall.1.symm ho
  · rw [hcall', Option.some.injEq, Prod.mk.injEq] at hcall
    obtain ⟨rfl, rfl⟩ := hcall
    obtain ⟨a, ha, hoa⟩ := h₁.toCore.live_object (o := o₁) (by rw [hlive]; exact List.mem_cons_self)
    obtain ⟨i, hi, heq⟩ := mem_objectsFrom.mp hoa
    refine ⟨a, h₁.toCore.isSlab_iff.mpr ha, i, by rw [h₁.objectsPerSlab]; exact hi, ?_⟩
    unfold objectAt
    rw [(h₁.slab a ha).objects, h₁.objectSize]
    exact heq

/-- A pointer that is rejected, or an operation of the clients, keeps the invariant. -/
theorem Inv.step_rejected (h : Inv (P.recorded F) F n size c g) (hR : (P.recorded F).Allocator allocReclaimable)
    (hU : (P.recorded F).Allocator allocUnmovable) {op : Op} (hok : Rejected allocUnmovable c op)
    {c' : Run (Ledger A)} (hstep : Slab.step allocReclaimable allocUnmovable c op = some c') :
    ∃ g', Inv (P.recorded F) F n size c' g' := by
  have hvalid : Valid c op → ∃ g', Inv (P.recorded F) F n size c' g' := by
    intro hv
    rcases h.step hR hU hv with ⟨hnone, -⟩ | ⟨c₁, g₁, hc₁, h₁, -⟩
    · rw [hnone] at hstep
      exact absurd hstep nofun
    · obtain rfl := Option.some.inj (hc₁.symm.trans hstep)
      exact ⟨g₁, h₁⟩
  cases op with
  | alloc => exact hvalid hok
  | write addr byte => exact hvalid hok
  | free obj =>
      have hkeep : obj ∉ c.live → ∀ s', slabFree allocUnmovable c.state obj = some s' → s'.cache = c.state.cache →
          Rep (P.recorded F) F n size s' g → ∃ g', Inv (P.recorded F) F n size c' g' := by
        intro hnot s' hcall hcache h'
        unfold Slab.step at hstep
        dsimp only at hstep
        rw [hcall, Option.map_some, Option.some.injEq, List.erase_of_not_mem hnot] at hstep
        obtain rfl := hstep
        refine ⟨g, h', h.live, ?_⟩
        dsimp only
        rw [hcache]
        exact h.counts
      rcases hok with rfl | ho | ⟨hobj, hslow⟩
      · refine hkeep (fun hin => ?_) c.state ?_ rfl h.rep
        · rw [← h.live] at hin
          exact h.rep.toCore.object_ne_zero (mem_objects.mpr (h.rep.toCore.live_object hin)) rfl
        · unfold slabFree
          rw [if_pos rfl]
      · exact hvalid ho
      · obtain ⟨s', hcall, huntouched, h'⟩ := h.rep.free_foreign hU hobj
        refine hkeep (fun hin => ?_) s' hcall (huntouched.mpr hslow).cache (h' hslow)
        rw [← h.live] at hin
        obtain ⟨a, ha, hoa⟩ := h.rep.toCore.live_object hin
        obtain ⟨h1, h2⟩ := (h.rep.slab a ha).bounds hoa
        have hwide := h.rep.geometry.wide
        exact hobj.2 a (h.rep.toCore.isSlab_iff.mpr ha) ⟨by omega, by unfold pageSize; omega⟩

end calls

/-! ### Runs -/

variable {allocReclaimable allocUnmovable : Machine A → ℕ × Machine A} {M : Machine A}

/-- In every run that frees only null, objects that are held, and foreign pointers under the lock: `slab_alloc`
hands out objects of the cache's own slabs, and a foreign pointer changes nothing exactly if it comes back under
the lock. -/
theorem foreign_rejected (P : Ownership A) (hR : P.Allocator allocReclaimable) (hU : P.Allocator allocUnmovable)
    (hM : P.Owns M F) (size align : ℕ) (hwide : 8 ≤ (newCache size align).objectSize)
    (hpage : slabHeaderSize + (newCache size align).objectSize ≤ pageSize) (ops : List Op)
    (hv : Guarded (step (Ledger.alloc allocReclaimable) (Ledger.alloc allocUnmovable))
      (Rejected (Ledger.alloc allocUnmovable)) (fresh (Ledger.start M) size align) ops) (c : Run (Ledger A))
    (hexec : exec (step (Ledger.alloc allocReclaimable) (Ledger.alloc allocUnmovable))
      (fresh (Ledger.start M) size align) ops = some c) :
    (∀ o s', slabAlloc (Ledger.alloc allocReclaimable) c.state = some (o, s') → o ≠ 0 → ObjectOf s' o) ∧
      ∀ obj, Foreign c.state obj → ∃ s', slabFree (Ledger.alloc allocUnmovable) c.state obj = some s' ∧
        (Untouched c.state s' ↔ ¬ Fast (Ledger.alloc allocUnmovable) c.state) := by
  have hgeo := geometry_newCache hwide hpage
  obtain ⟨g, h⟩ := invariant (I := fun c => ∃ g, Inv (P.recorded F) F (newCache size align).objectsPerSlab
    (newCache size align).objectSize c g) (fun c op c' ⟨g, h⟩ hok hstep =>
      h.step_rejected hR.recorded hU.recorded hok hstep) ⟨_, inv_fresh (P.owns_start hM) hgeo⟩ hv hexec
  refine ⟨fun o s' hcall ho => h.rep.alloc_object hR.recorded hcall ho, fun obj hobj => ?_⟩
  obtain ⟨s', hcall, hiff, -⟩ := h.rep.free_foreign hU.recorded hobj
  exact ⟨s', hcall, hiff⟩

/-- A foreign pointer goes onto the stack of a new cache, and the next call of `slab_alloc` hands it out. -/
theorem foreign_handed_out :
    (¬ ∀ (ops : List Op) (c : Run (Ledger Pmm.PmmGlobals)),
      Guarded (step (Ledger.alloc Pmm.buddyFrame) (Ledger.alloc Pmm.buddyFrame)) AnyPointer sixtyFour ops →
      exec (step (Ledger.alloc Pmm.buddyFrame) (Ledger.alloc Pmm.buddyFrame)) sixtyFour ops = some c →
      ∀ obj, Foreign c.state obj →
        ∃ s', slabFree (Ledger.alloc Pmm.buddyFrame) c.state obj = some s' ∧ Untouched c.state s') ∧
    ¬ ∀ (ops : List Op) (c : Run (Ledger Pmm.PmmGlobals)),
      Guarded (step (Ledger.alloc Pmm.buddyFrame) (Ledger.alloc Pmm.buddyFrame)) AnyPointer sixtyFour ops →
      exec (step (Ledger.alloc Pmm.buddyFrame) (Ledger.alloc Pmm.buddyFrame)) sixtyFour ops = some c →
      ∀ o s', slabAlloc (Ledger.alloc Pmm.buddyFrame) c.state = some (o, s') → o ≠ 0 → ObjectOf s' o := by
  constructor
  · intro hall
    have hfree : (slabFree (Ledger.alloc Pmm.buddyFrame) sixtyFour.state 0xbeef).map
        (fun s => s.cache.totalFrees) = some 1 := by
      decide +kernel
    obtain ⟨s', hcall, huntouched⟩ := hall [] sixtyFour trivial rfl 0xbeef
      ⟨by norm_num, fun a ha => absurd ha.1 List.not_mem_nil⟩
    rw [hcall, Option.map_some, Option.some.injEq, huntouched.cache] at hfree
    exact absurd hfree (by decide)
  · intro hall
    have hend : ((exec (step (Ledger.alloc Pmm.buddyFrame) (Ledger.alloc Pmm.buddyFrame)) sixtyFour
        [.free 0xbeef]).bind fun c => slabAlloc (Ledger.alloc Pmm.buddyFrame) c.state).map (fun res =>
          (res.1, res.2.pages.taken, res.2.cache.cpuObjects)) = some (0xbeef, [0x1000], 0x1000) := by
      decide +kernel
    obtain ⟨⟨o, s'⟩, hboth, hres⟩ := Option.map_eq_some_iff.mp hend
    obtain ⟨c, hexec, hcall⟩ := Option.bind_eq_some_iff.mp hboth
    obtain ⟨rfl, htaken, harray⟩ : o = 0xbeef ∧ s'.pages.taken = [0x1000] ∧ s'.cache.cpuObjects = 0x1000 := by
      simpa only [Prod.mk.injEq] using hres
    obtain ⟨a, ⟨hin, hne⟩, -⟩ := hall [.free 0xbeef] c ⟨trivial, fun _ _ => trivial⟩ hexec 0xbeef s' hcall
      (by norm_num)
    rw [htaken, List.mem_singleton] at hin
    exact hne (hin.trans harray.symm)

/-- The page allocator has one page: it is the slab, and a foreign pointer comes back under the lock. -/
theorem foreign_rejected_onlyPage :
    ∃ c, exec (step (Ledger.alloc Pmm.buddyFrame) (Ledger.alloc Pmm.buddyFrame))
        (fresh (Ledger.start onlyPage) 64 8) [.alloc, .free 0xbeef] = some c ∧
      (∀ o s', slabAlloc (Ledger.alloc Pmm.buddyFrame) c.state = some (o, s') → o ≠ 0 → ObjectOf s' o) ∧
      ∀ obj, Foreign c.state obj → ∃ s', slabFree (Ledger.alloc Pmm.buddyFrame) c.state obj = some s' ∧
        (Untouched c.state s' ↔ ¬ Fast (Ledger.alloc Pmm.buddyFrame) c.state) := by
  have hu : Buddy.Usable 0x1000 0x1000 := ⟨by norm_num, rfl, by norm_num⟩
  have hfirst : (step (Ledger.alloc Pmm.buddyFrame) (Ledger.alloc Pmm.buddyFrame)
      (fresh (Ledger.start onlyPage) 64 8) .alloc).map (fun c => (c.state.pages.taken,
        c.state.cache.cpuObjects, (Ledger.alloc Pmm.buddyFrame c.state.toMachine).1)) = some ([0x1000], 0, 0) := by
    decide +kernel
  have hend : (exec (step (Ledger.alloc Pmm.buddyFrame) (Ledger.alloc Pmm.buddyFrame))
      (fresh (Ledger.start onlyPage) 64 8) [.alloc, .free 0xbeef]).isSome := by
    decide +kernel
  obtain ⟨c, hexec⟩ := Option.isSome_iff_exists.mp hend
  refine ⟨c, hexec, foreign_rejected (Pmm.source hu) (Pmm.buddyFrame_allocator hu) (Pmm.buddyFrame_allocator hu)
    (Pmm.owns_booted hu _) 64 8 (by decide) (by decide) [.alloc, .free 0xbeef]
    ⟨trivial, fun c₁ hc₁ => ⟨Or.inr (Or.inr ?_), fun _ _ => trivial⟩⟩ c hexec⟩
  have hc₁' : step (Ledger.alloc Pmm.buddyFrame) (Ledger.alloc Pmm.buddyFrame)
      (fresh (Ledger.start onlyPage) 64 8) .alloc = some c₁ := hc₁
  rw [hc₁', Option.map_some, Option.some.injEq] at hfirst
  obtain ⟨htaken, harray, hnone⟩ : c₁.state.pages.taken = [0x1000] ∧ c₁.state.cache.cpuObjects = 0 ∧
      (Ledger.alloc Pmm.buddyFrame c₁.state.toMachine).1 = 0 := by
    simpa only [Prod.mk.injEq] using hfirst
  refine ⟨⟨by norm_num, fun a ha hpage => ?_⟩, fun hfast => hfast.2 harray hnone⟩
  have hin := ha.1
  rw [htaken, List.mem_singleton] at hin
  rw [hin] at hpage
  exact absurd hpage (by decide)

end PrometheusKernel.Slab
