import PrometheusKernel.Slab.Alignment

/-!
# The three lists of a cache classify its slabs

`Classified` says that each slab is on the list that its count of objects in use calls for, and on no other.

A slab goes from the full list to the partial one when an object comes back under the lock, and there from the
partial list to the free one when the count becomes zero: one call does not do both. So the lists classify the
slabs in every run in which no object comes back under the lock to a slab of one object, and one such call
leaves an unused slab on the partial list (`slabs_classified`).
-/

namespace PrometheusKernel.Slab

open ByteMem LinkedList Interleaving

variable {A : Type} {P : Ownership A} {F : Set ℕ} {allocReclaimable allocUnmovable : Machine A → ℕ × Machine A}
  {M : Machine A} {n size align : ℕ} {g : Ghost}

/-- The list that a slab of `n` objects is for, when `used` of them are in use. -/
def Place.Takes (n used : ℕ) : Place → Prop
  | .full => used = n
  | .part => 0 < used ∧ used < n
  | .free => used = 0

/-- `l` are the lists of the cache, and they classify its slabs. -/
structure Classified (n : ℕ) (s : State (Ledger A)) (l : Place → List ℕ) : Prop where
  lists : ∀ p, IsList (slabNext s.mem) (l p) (s.cache.head p)
  slabs : ∀ p, ∀ a ∈ l p, IsSlab s a
  classes : ∀ a, IsSlab s a → ∀ p, a ∈ l p ↔ p.Takes n (inUse s.mem a)

/-- No count is for two lists. -/
theorem Place.Takes.unique {p q : Place} {used : ℕ} (hn : 0 < n) (hp : p.Takes n used) (hq : q.Takes n used) :
    p = q := by
  cases p <;> cases q <;> first | rfl | (unfold Place.Takes at hp hq; omega)

/-! ### The pages of a cache -/

section pages

variable {s : State (Ledger A)}

/-- A slab is on the list of `p` exactly if its count is for `p`, or it is unused and on the partial list. -/
theorem Rep.takes (h : Rep (P.recorded F) F n size s g) (hused : g.Used n) {p : Place} {a : ℕ}
    (ha : a ∈ g.slabsAt p) : p.Takes n (inUse s.mem a) := by
  have hcount := (h.slab a (mem_slabs ha)).used
  cases p with
  | full =>
      rw [h.full a ha, List.length_nil, Nat.add_zero] at hcount
      exact hcount
  | part =>
      have hlt := hused a ha
      have hpos := List.length_pos_of_ne_nil (h.part a ha)
      constructor <;> omega
  | free =>
      rw [h.free a ha] at hcount
      show inUse s.mem a = 0
      omega

/-- The lists classify the slabs exactly if no slab of the partial list is unused. -/
theorem Rep.classified_iff (h : Rep (P.recorded F) F n size s g) : (∃ l, Classified n s l) ↔ g.Used n := by
  constructor
  · rintro ⟨l, hl⟩ a ha
    have hpart : l .part = g.slabsAt .part := (hl.lists .part).unique (h.lists .part)
    obtain ⟨hpos, -⟩ := (hl.classes a (hl.slabs .part a (hpart ▸ ha)) .part).mp (hpart ▸ ha)
    have hcount := (h.slab a (mem_slabs ha)).used
    omega
  · intro hused
    refine ⟨g.slabsAt, h.lists, fun p a ha => h.toCore.isSlab_iff.mpr (mem_slabs ha), fun a ha p => ?_⟩
    refine ⟨fun hin => h.takes hused hin, fun htakes => ?_⟩
    obtain ⟨q, hq, -⟩ := (Ghost.mem_slabs_iff h.nodup).mp (h.toCore.isSlab_iff.mp ha)
    obtain rfl := htakes.unique h.geometry.pos (h.takes hused hq)
    exact hq

end pages

/-! ### Runs -/

/-- In a run without the bad call every slab of the partial list has an object in use. -/
theorem used_run (hR : P.Allocator allocReclaimable) (hU : P.Allocator allocUnmovable) (hM : P.Owns M F)
    (hgeo : Geometry (newCache size align).objectsPerSlab (newCache size align).objectSize) {ops : List Op}
    {r : Run A}
    (hv : Guarded (step allocReclaimable allocUnmovable)
      (fun c op => Valid c op ∧ SeenUnused allocUnmovable (newCache size align).objectsPerSlab c op)
      (fresh M size align) ops)
    (hexec : exec (step allocReclaimable allocUnmovable) (fresh M size align) ops = some r) :
    ∃ g, Inv P F (newCache size align).objectsPerSlab (newCache size align).objectSize r g ∧
      g.Used (newCache size align).objectsPerSlab := by
  refine invariant (I := fun r => ∃ g, Inv P F (newCache size align).objectsPerSlab
    (newCache size align).objectSize r g ∧ g.Used (newCache size align).objectsPerSlab)
    (fun r op r' hr hok hstep => ?_) ⟨_, inv_fresh hM hgeo, fun a ha => absurd ha List.not_mem_nil⟩ hv hexec
  obtain ⟨g, h, hused⟩ := hr
  rcases h.step hR hU hok.1 with ⟨hnone, -⟩ | ⟨r₁, g₁, hr₁, h₁, -, hkeep⟩
  · rw [hnone] at hstep
    exact absurd hstep nofun
  · obtain rfl := Option.some.inj (hr₁.symm.trans hstep)
    exact ⟨g₁, h₁, (hkeep hused).mpr hok.2⟩

/-- A live object comes back. -/
theorem Inv.free_classified {allocReclaimable allocUnmovable : Machine (Ledger A) → ℕ × Machine (Ledger A)}
    {c : Run (Ledger A)} (h : Inv (P.recorded F) F n size c g) (hU : (P.recorded F).Allocator allocUnmovable)
    (hused : g.Used n) {obj : ℕ} (ho : obj ∈ c.live) :
    ∃ c', Slab.step allocReclaimable allocUnmovable c (.free obj) = some c' ∧
      ((∃ l, Classified n c'.state l) ↔ SeenUnused allocUnmovable n c (.free obj)) := by
  obtain ⟨c', g', hstep, h', -, hkeep⟩ := h.free hU ho
  refine ⟨c', hstep, ?_⟩
  rw [h'.rep.classified_iff]
  exact hkeep hused

/-- The lists classify the slabs in every run in which no object comes back under the lock to a slab of one
object. After such a run a call of `slab_free` with a live object leaves them classified exactly if it is not
that call. -/
theorem slabs_classified (P : Ownership A) (hR : P.Allocator allocReclaimable) (hU : P.Allocator allocUnmovable)
    (hM : P.Owns M F) (size align : ℕ) (hwide : 8 ≤ (newCache size align).objectSize)
    (hpage : slabHeaderSize + (newCache size align).objectSize ≤ pageSize) (ops : List Op)
    (hv : Guarded (step (Ledger.alloc allocReclaimable) (Ledger.alloc allocUnmovable))
      (fun c op => Valid c op ∧ SeenUnused (Ledger.alloc allocUnmovable) (newCache size align).objectsPerSlab c op)
      (fresh (Ledger.start M) size align) ops) (c : Run (Ledger A))
    (hexec : exec (step (Ledger.alloc allocReclaimable) (Ledger.alloc allocUnmovable))
      (fresh (Ledger.start M) size align) ops = some c) :
    (∃ l, Classified (newCache size align).objectsPerSlab c.state l) ∧
      ∀ obj ∈ c.live, ∃ c',
        step (Ledger.alloc allocReclaimable) (Ledger.alloc allocUnmovable) c (.free obj) = some c' ∧
        ((∃ l, Classified (newCache size align).objectsPerSlab c'.state l) ↔
          SeenUnused (Ledger.alloc allocUnmovable) (newCache size align).objectsPerSlab c (.free obj)) := by
  have hgeo := geometry_newCache hwide hpage
  obtain ⟨g, h, hused⟩ := used_run (hR.recorded (G := F)) hU.recorded (P.owns_start hM) hgeo hv hexec
  exact ⟨h.rep.classified_iff.mpr hused, fun obj ho => h.free_classified hU.recorded hused ho⟩

/-- Two objects of 64 bytes are taken and one is given back; the other one stays with its client. -/
theorem slabs_classified_buddy :
    ∃ c, exec (step (Ledger.alloc Pmm.buddyFrame) (Ledger.alloc Pmm.buddyFrame)) sixtyFour
        [.alloc, .alloc, .free 0x1fa0] = some c ∧ c.live = [0x1f60] ∧
      (∃ l, Classified (newCache 64 8).objectsPerSlab c.state l) ∧
      ∀ obj ∈ c.live, ∃ c',
        step (Ledger.alloc Pmm.buddyFrame) (Ledger.alloc Pmm.buddyFrame) c (.free obj) = some c' ∧
        ((∃ l, Classified (newCache 64 8).objectsPerSlab c'.state l) ↔
          SeenUnused (Ledger.alloc Pmm.buddyFrame) (newCache 64 8).objectsPerSlab c (.free obj)) := by
  have hu : Buddy.Usable 0x1000 0x8000 := ⟨by norm_num, rfl, by norm_num⟩
  obtain ⟨c, hexec, hlive⟩ : ∃ c, exec (step (Ledger.alloc Pmm.buddyFrame) (Ledger.alloc Pmm.buddyFrame)) sixtyFour
      [.alloc, .alloc, .free 0x1fa0] = some c ∧ c.live = [0x1f60] :=
    Option.map_eq_some_iff.mp (show (exec (step (Ledger.alloc Pmm.buddyFrame) (Ledger.alloc Pmm.buddyFrame)) sixtyFour
      [.alloc, .alloc, .free 0x1fa0]).map Run.live = some [0x1f60] by decide +kernel)
  refine ⟨c, hexec, hlive, slabs_classified (Pmm.source hu) (Pmm.buddyFrame_allocator hu)
    (Pmm.buddyFrame_allocator hu) (Pmm.owns_booted hu _) 64 8 (by decide) (by decide) [.alloc, .alloc, .free 0x1fa0]
    (guarded_of_guardedBy (t := fun (c : Run (Ledger Pmm.PmmGlobals)) op => decide (Valid c op))
      (fun r op h => ⟨of_decide_eq_true h, ?_⟩) (by decide +kernel)) c hexec⟩
  cases op with
  | free obj => exact Or.inl (by decide)
  | alloc | write => trivial

/-! ### A cache of one-object slabs -/

/-- The page allocator has one page. -/
def onlyPage : Machine Pmm.PmmGlobals := Pmm.booted (fun _ => 0) 0x1000 0x1000

/-- A slab of one object takes the only page. When the object comes back there is no page for the array of the
CPU cache, and the slab goes from the full list to the partial one, unused. -/
theorem unused_on_partial :
    ¬ ∀ (ops : List Op) (c : Run (Ledger Pmm.PmmGlobals)),
      Guarded (step (Ledger.alloc Pmm.buddyFrame) (Ledger.alloc Pmm.buddyFrame)) Valid
        (fresh (Ledger.start onlyPage) 4000 8) ops →
      exec (step (Ledger.alloc Pmm.buddyFrame) (Ledger.alloc Pmm.buddyFrame))
        (fresh (Ledger.start onlyPage) 4000 8) ops = some c →
      ∃ l, Classified (newCache 4000 8).objectsPerSlab c.state l := by
  intro hall
  have hlive : (step (Ledger.alloc Pmm.buddyFrame) (Ledger.alloc Pmm.buddyFrame)
      (fresh (Ledger.start onlyPage) 4000 8) .alloc).map Run.live = some [0x1020] := by
    decide +kernel
  have hend : (exec (step (Ledger.alloc Pmm.buddyFrame) (Ledger.alloc Pmm.buddyFrame))
      (fresh (Ledger.start onlyPage) 4000 8) [.alloc, .free 0x1020]).map (fun c =>
        (c.state.cache.slabsPartial, inUse c.state.mem c.state.cache.slabsPartial)) = some (0x1000, 0) := by
    decide +kernel
  have hguard : Guarded (step (Ledger.alloc Pmm.buddyFrame) (Ledger.alloc Pmm.buddyFrame)) Valid
      (fresh (Ledger.start onlyPage) 4000 8) [.alloc, .free 0x1020] := by
    refine ⟨trivial, fun c₁ hc₁ => ⟨?_, fun _ _ => trivial⟩⟩
    rw [hc₁, Option.map_some] at hlive
    show 0x1020 ∈ c₁.live
    rw [Option.some.inj hlive]
    exact List.mem_cons_self
  cases hexec : exec (step (Ledger.alloc Pmm.buddyFrame) (Ledger.alloc Pmm.buddyFrame))
      (fresh (Ledger.start onlyPage) 4000 8) [.alloc, .free 0x1020] with
  | none =>
      rw [hexec] at hend
      exact absurd hend nofun
  | some c =>
      rw [hexec, Option.map_some, Option.some.injEq, Prod.mk.injEq] at hend
      obtain ⟨hhead, hused⟩ := hend
      obtain ⟨l, hl⟩ := hall [.alloc, .free 0x1020] c hguard hexec
      have hmem : c.state.cache.slabsPartial ∈ l .part := by
        refine (hl.lists .part).head_mem ?_
        show c.state.cache.slabsPartial ≠ 0
        rw [hhead]
        norm_num
      have htakes := (hl.classes _ (hl.slabs .part _ hmem) .part).mp hmem
      rw [hused] at htakes
      exact absurd htakes.1 (lt_irrefl 0)

end PrometheusKernel.Slab
