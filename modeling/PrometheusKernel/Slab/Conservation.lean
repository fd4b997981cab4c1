import PrometheusKernel.Slab.Calls
import PrometheusKernel.Pmm.Source
import PrometheusKernel.Ledger
import PrometheusKernel.Lib.Interleaving

/-!
# Slab objects are conserved

A run is any list of calls to `slab_alloc` and `slab_free` on one cache; clients free objects that they hold
and write only into them. The pages of the cache are recorded as they are taken: all but the array of the CPU
cache are slabs (`IsSlab`). In every state of a run each slab is on exactly one list, and each object of each
slab is in exactly one place (`objects_conserved`). The page allocators may fail at any call.
-/

namespace PrometheusKernel.Slab

open ByteMem LinkedList Interleaving

/-! ### Runs -/

/-- A cache and its clients. -/
structure Run (A : Type) where
  state : State A
  /-- The objects that clients hold. -/
  live : List ℕ

/-- A call, or a byte written by a client. -/
inductive Op
  | alloc
  | free (obj : ℕ)
  | write (addr : ℕ) (byte : UInt8)

variable {A : Type} (allocReclaimable allocUnmovable : Machine A → ℕ × Machine A)

/-- What the clients may do. -/
def Valid (c : Run A) : Op → Prop
  | .alloc => True
  | .free obj => obj ∈ c.live
  | .write addr _ => ∃ o ∈ c.live, o ≤ addr ∧ addr < o + c.state.cache.objectSize

instance (c : Run A) (op : Op) : Decidable (Valid c op) := by
  cases op <;> unfold Valid <;> infer_instance

/-- One operation; `none` is a call that does not return. -/
def step (c : Run A) : Op → Option (Run A)
  | .alloc => (slabAlloc allocReclaimable c.state).map fun res =>
      ⟨res.2, if res.1 = 0 then c.live else res.1 :: c.live⟩
  | .free obj => (slabFree allocUnmovable c.state obj).map fun s => ⟨s, c.live.erase obj⟩
  | .write addr byte =>
      some { c with state := { c.state with mem := Function.update c.state.mem addr byte } }

/-- The cache after `slab_cache_create`. -/
def fresh (M : Machine A) (size align : ℕ) : Run A := ⟨⟨M, newCache size align⟩, []⟩

/-! ### The invariant -/

/-- The lists of the cache, with the objects that clients hold, and the counters. -/
structure Inv (P : Ownership A) (F : Set ℕ) (n size : ℕ) (c : Run A) (g : Ghost) : Prop where
  rep : Rep P F n size c.state g
  live : g.live = c.live
  counts : (c.state.cache.totalFrees + c.live.length) % 2 ^ 64 = c.state.cache.totalAllocations

variable {allocReclaimable allocUnmovable} {P : Ownership A} {F : Set ℕ} {n size : ℕ} {c c' : Run A}
  {g : Ghost} {s : State A}

/-- A byte of a live object is written. -/
theorem Rep.write (h : Rep P F n size s g) {o addr : ℕ} (ho : o ∈ g.live) (h1 : o ≤ addr)
    (h2 : addr < o + size) (byte : UInt8) :
    Rep P F n size { s with mem := Function.update s.mem addr byte } g := by
  obtain ⟨a, ha, hoa⟩ := h.toCore.live_object ho
  have hbo := (h.slab a ha).bounds hoa
  have hframe : ∀ x, x ≠ addr → Function.update s.mem addr byte x = s.mem x :=
    fun x hx => Function.update_of_ne hx _ _
  have hwide := h.geometry.wide
  refine ⟨⟨h.geometry, h.objectSize, h.objectsPerSlab, h.limit, ?_, fun p => ?_, h.nodup, h.fresh, fun b hb => ?_,
    h.perm, h.array, ?_, h.stackSome, h.available, h.bounded⟩, h.full, h.part, h.free⟩
  · refine P.write h.owns _ fun x hx => hframe x ?_
    rintro rfl
    refine hx a (Or.inr (Or.inl ha)) ⟨by omega, ?_⟩
    unfold pageSize
    omega
  · refine (h.lists p).congr fun b hb => load_congr fun x hx => hframe x ?_
    obtain ⟨hx1, hx2⟩ := hx
    by_cases hba : b = a
    · omega
    · have := h.toCore.apart (mem_slabs hb) ha hba
      omega
  · refine (h.slab b hb).congr (fun x hx1 hx2 => hframe x ?_) fun o' ho' x hx1 hx2 => hframe x ?_
    · by_cases hba : b = a
      · omega
      · have := h.toCore.apart hb ha hba
        omega
    · have hsub := (h.slab b hb).sub o' ho'
      have hbo' := (h.slab b hb).bounds hsub
      by_cases hba : b = a
      · subst hba
        have hne : o ≠ o' := fun heq => h.toCore.live_not_freed ho (mem_freed.mpr ⟨b, hb, heq ▸ ho'⟩)
        have := object_apart hoa hsub hne
        omega
      · have := h.toCore.apart hb ha hba
        omega
  · refine h.stack.congr fun x hx1 hx2 => hframe x ?_
    obtain ⟨h0, hx3⟩ := h.toCore.stack_bytes hx1 hx2
    have := h.toCore.array_apart ha h0
    omega

/-- `slab_alloc` keeps the invariant, or divides by zero where the objects fill the page. -/
theorem Inv.alloc (h : Inv P F n size c g) (hR : P.Allocator allocReclaimable) :
    (step allocReclaimable allocUnmovable c .alloc = none ∧ 32 + n * size = 4096) ∨
      ∃ c' g', step allocReclaimable allocUnmovable c .alloc = some c' ∧ Inv P F n size c' g' ∧
        (∀ d, d ∣ 32 → d ∣ size → g.Aligned d → g'.Aligned d) ∧ (g.Used n → g'.Used n) := by
  have hcounts := h.counts
  unfold step
  dsimp only
  rcases h.rep.alloc hR with ⟨hnone, hexact⟩ | ⟨s', hcall, h', hsame⟩ |
      ⟨o, s', g', hcall, ho, h', hlive, h1, h2, hd, hu⟩
  · rw [hnone]
    exact Or.inl ⟨rfl, hexact⟩
  · rw [hcall]
    refine Or.inr ⟨_, g, rfl, ⟨h', ?_, ?_⟩, fun d _ _ hg => hg, id⟩
    · exact h.live
    · dsimp only
      rw [if_pos rfl, hsame.1, hsame.2]
      exact hcounts
  · rw [hcall]
    refine Or.inr ⟨_, g', rfl, ⟨h', ?_, ?_⟩, hd, hu⟩
    · dsimp only
      rw [if_neg ho, hlive, h.live]
    · dsimp only
      rw [if_neg ho, h1, h2, List.length_cons, ← hcounts]
      unfold Word.add
      omega

/-- `slab_free` of a live object keeps the invariant. -/
theorem Inv.free (h : Inv P F n size c g) (hU : P.Allocator allocUnmovable) {obj : ℕ} (ho : obj ∈ c.live) :
    ∃ c' g', step allocReclaimable allocUnmovable c (.free obj) = some c' ∧ Inv P F n size c' g' ∧
      (∀ d, g.Aligned d → g'.Aligned d) ∧ (g.Used n → (g'.Used n ↔ n ≠ 1 ∨ Fast allocUnmovable c.state)) := by
  have hcounts := h.counts
  have ho' : obj ∈ g.live := by
    rw [h.live]
    exact ho
  obtain ⟨s', g', hcall, h', hlive, h1, h2, hd, hu⟩ := h.rep.free_live hU ho'
  unfold step
  dsimp only
  rw [hcall]
  refine ⟨_, g', rfl, ⟨h', ?_, ?_⟩, hd, hu⟩
  · rw [hlive, h.live]
  · have hlen := List.length_erase_of_mem ho
    have hpos := List.length_pos_of_mem ho
    dsimp only
    rw [h1, h2, ← hcounts, hlen]
    unfold Word.add
    omega

/-- A slab with one object comes back on a path that sees that it is unused. -/
def SeenUnused (allocUnmovable : Machine A → ℕ × Machine A) (n : ℕ) (c : Run A) : Op → Prop
  | .free _ => n ≠ 1 ∨ Fast allocUnmovable c.state
  | _ => True

/-- Every operation keeps the invariant; only a division by zero does not return. -/
theorem Inv.step (h : Inv P F n size c g) (hR : P.Allocator allocReclaimable)
    (hU : P.Allocator allocUnmovable) {op : Op} (hv : Valid c op) :
    (step allocReclaimable allocUnmovable c op = none ∧ 32 + n * size = 4096) ∨
      ∃ c' g', step allocReclaimable allocUnmovable c op = some c' ∧ Inv P F n size c' g' ∧
        (∀ d, d ∣ 32 → d ∣ size → g.Aligned d → g'.Aligned d) ∧
        (g.Used n → (g'.Used n ↔ SeenUnused allocUnmovable n c op)) := by
  cases op with
  | alloc =>
      rcases h.alloc hR with hnone | ⟨c', g', hstep, h', hd, hu⟩
      · exact Or.inl hnone
      · exact Or.inr ⟨c', g', hstep, h', hd, fun hused => iff_of_true (hu hused) trivial⟩
  | free obj =>
      obtain ⟨c', g', hstep, h', hd, hu⟩ := h.free hU hv
      exact Or.inr ⟨c', g', hstep, h', fun d _ _ => hd d, hu⟩
  | write addr byte =>
      obtain ⟨o, ho, h1, h2⟩ := hv
      rw [h.rep.objectSize] at h2
      rw [← h.live] at ho
      exact Or.inr ⟨_, g, rfl, ⟨h.rep.write ho h1 h2 byte, h.live, h.counts⟩, fun d _ _ hg => hg,
        fun hused => iff_of_true hused trivial⟩

/-- A cache whose objects hold a link and fit into a page. -/
theorem geometry_newCache {align : ℕ} (hwide : 8 ≤ (newCache size align).objectSize)
    (hpage : slabHeaderSize + (newCache size align).objectSize ≤ pageSize) :
    Geometry (newCache size align).objectsPerSlab (newCache size align).objectSize := by
  obtain ⟨z, hz⟩ : ∃ z, (newCache size align).objectSize = z := ⟨_, rfl⟩
  rw [hz] at hwide hpage
  unfold slabHeaderSize pageSize at hpage
  have hcount : (newCache size align).objectsPerSlab = 4064 / z := by
    have hpos : (pageSize - slabHeaderSize) / (newCache size align).objectSize ≠ 0 := by
      rw [hz]
      unfold pageSize slabHeaderSize
      exact (Nat.div_pos (by omega) (by omega)).ne'
    have heq : (newCache size align).objectsPerSlab
        = (pageSize - slabHeaderSize) / (newCache size align).objectSize := if_neg hpos
    rw [heq, hz]
    rfl
  have hmul : 4064 / z * z ≤ 4064 := Nat.div_mul_le_self _ _
  refine ⟨?_, hz ▸ hwide, ?_⟩
  · rw [hcount]
    exact Nat.div_pos (by omega) (by omega)
  · rw [hcount, hz]
    omega

/-- A new cache has no slabs. -/
theorem inv_fresh {M : Machine A} {size align : ℕ} (hM : P.Owns M F)
    (hgeo : Geometry (newCache size align).objectsPerSlab (newCache size align).objectSize) :
    Inv P F (newCache size align).objectsPerSlab (newCache size align).objectSize (fresh M size align)
      ⟨fun _ => [], fun _ => 0, fun _ => [], [], []⟩ := by
  have hframes : frames F (newCache size align) ⟨fun _ => [], fun _ => 0, fun _ => [], [], []⟩ = F := by
    ext f
    unfold frames Ghost.slabs
    simp only [List.append_nil, List.not_mem_nil, false_or, Set.mem_ofPred_eq]
    refine ⟨fun hf => hf.resolve_right ?_, Or.inl⟩
    rintro ⟨hf, hne⟩
    exact hne hf
  refine ⟨⟨⟨hgeo, rfl, rfl, rfl, ?_, fun p => ?_, List.nodup_nil, fun a ha => absurd ha List.not_mem_nil,
    fun a ha => absurd ha List.not_mem_nil, List.Perm.refl _, List.not_mem_nil, trivial, fun hne => absurd rfl hne,
    rfl, Nat.zero_le _⟩, fun a ha => absurd ha List.not_mem_nil, fun a ha => absurd ha List.not_mem_nil,
    fun a ha => absurd ha List.not_mem_nil⟩, rfl, rfl⟩
  · show P.Owns M (frames F (newCache size align) _)
    rw [hframes]
    exact hM
  · cases p <;> rfl

/-! ### Conservation -/

/-- The pages of a cache but for the array of its CPU cache. -/
def IsSlab (s : State (Ledger A)) (a : ℕ) : Prop := a ∈ s.pages.taken ∧ a ≠ s.cache.cpuObjects

/-- Every slab is on one list, every object is in exactly one place, and what the cache says about its slabs is
true. -/
structure Conserved (n size : ℕ) (s : State (Ledger A)) (g : Ghost) : Prop where
  /-- The three lists of the cache. -/
  lists : ∀ p, IsList (slabNext s.mem) (g.slabsAt p) (s.cache.head p)
  /-- A slab is on exactly one of them, and nothing else is on them. -/
  onelist : ∀ a, IsSlab s a ↔ ∃! p, a ∈ g.slabsAt p
  /-- No slab is on the lists twice. -/
  nodup : g.slabs.Nodup
  /-- The free list and the objects of each slab. -/
  freelist : ∀ a ∈ g.slabs, IsList (link s.mem) (g.freeOf a) (freeList s.mem a)
  base : ∀ a ∈ g.slabs, slabObjects s.mem a = g.base a
  own : ∀ a ∈ g.slabs, ∀ o ∈ g.freeOf a, o ∈ objectsFrom n size (g.base a)
  /-- The array of the CPU cache. -/
  stack : StackRep s.mem s.cache.cpuObjects g.cpu
  available : s.cache.available = g.cpu.length
  /-- Live, in the CPU cache, or free: one of them. -/
  somewhere : ∀ o, o ∈ g.objects n size ↔ o ∈ g.live ++ g.cpu ++ g.freed
  once : (g.live ++ g.cpu ++ g.freed).Nodup
  distinct : (g.objects n size).Nodup
  inUse : ∀ a ∈ g.slabs, inUse s.mem a = n - (g.freeOf a).length
  part : ∀ a ∈ g.slabsAt .part, g.freeOf a ≠ []
  limit : s.cache.available ≤ s.cache.limit
  counts : Word.sub 64 s.cache.totalAllocations s.cache.totalFrees = g.live.length

/-- The slabs of the three lists are the pages that were taken, but for the array. -/
theorem Core.isSlab_iff {s : State (Ledger A)} (h : Core (P.recorded F) F n size s g) {a : ℕ} :
    IsSlab s a ↔ a ∈ g.slabs := by
  obtain ⟨-, hframes, -, hnot⟩ := h.owns
  have hset : ∀ f, (f ∈ F ∨ f ∈ g.slabs ∨ f = s.cache.cpuObjects ∧ f ≠ 0) ↔ (f ∈ F ∨ f ∈ s.pages.taken) :=
    fun f => Set.ext_iff.mp hframes f
  constructor
  · rintro ⟨htaken, harr⟩
    rcases (hset a).mpr (Or.inr htaken) with hF | hslab | ⟨heq, -⟩
    · exact absurd hF (hnot a htaken)
    · exact hslab
    · exact absurd heq harr
  · intro ha
    refine ⟨((hset a).mp (Or.inr (Or.inl ha))).resolve_left (h.fresh a ha), ?_⟩
    rintro rfl
    exact h.array ha

/-- Without repetitions, what is on some list is on one list. -/
theorem Ghost.mem_slabs_iff (hnodup : g.slabs.Nodup) {a : ℕ} : a ∈ g.slabs ↔ ∃! p, a ∈ g.slabsAt p := by
  constructor
  · intro ha
    obtain ⟨hcons, -, hdisj⟩ := List.nodup_append.mp hnodup
    obtain ⟨-, -, hdisj'⟩ := List.nodup_append.mp hcons
    have hunique : ∀ p q, a ∈ g.slabsAt p → a ∈ g.slabsAt q → p = q := by
      intro p q hp hq
      cases p <;> cases q <;> first
        | rfl
        | exact absurd rfl (hdisj' a hp a hq)
        | exact absurd rfl (hdisj' a hq a hp)
        | exact absurd rfl (hdisj a (List.mem_append_left _ hp) a hq)
        | exact absurd rfl (hdisj a (List.mem_append_right _ hp) a hq)
        | exact absurd rfl (hdisj a (List.mem_append_left _ hq) a hp)
        | exact absurd rfl (hdisj a (List.mem_append_right _ hq) a hp)
    obtain ⟨p, hp⟩ : ∃ p, a ∈ g.slabsAt p := by
      rcases List.mem_append.mp ha with ha | ha
      · rcases List.mem_append.mp ha with ha | ha
        · exact ⟨.full, ha⟩
        · exact ⟨.part, ha⟩
      · exact ⟨.free, ha⟩
    exact ⟨p, hp, fun q hq => hunique q p hq hp⟩
  · rintro ⟨p, hp, -⟩
    exact mem_slabs hp

/-- What the invariant says about the lists and the counters. -/
theorem Inv.conserved {c : Run (Ledger A)} (h : Inv (P.recorded F) F n size c g) : Conserved n size c.state g := by
  have hrep := h.rep
  have hcore := hrep.toCore
  have hlive : g.live.length < 2 ^ 64 := by
    refine length_lt_of_nodup ?_ ?_ ?_ (Nat.two_pow_pos 64)
    · exact (List.nodup_append.mp (List.nodup_append.mp hcore.nodup_places).1).1
    · exact fun o ho => hcore.object_ne_zero (mem_objects.mpr (hcore.live_object ho))
    · intro o ho
      obtain ⟨a, ha, hoa⟩ := hcore.live_object ho
      have h1 := (hrep.slab a ha).bounds hoa
      have h2 := (hcore.isFrame ha).lt
      omega
  refine ⟨hrep.lists, fun a => hcore.isSlab_iff.trans (Ghost.mem_slabs_iff hrep.nodup), hrep.nodup,
    fun a ha => (hrep.slab a ha).links, fun a ha => (hrep.slab a ha).objects, fun a ha => (hrep.slab a ha).sub,
    hrep.stack, hrep.available, fun o => hrep.perm.mem_iff.symm, hcore.nodup_places, hcore.nodup_objects,
    fun a ha => ?_, hrep.part, ?_, ?_⟩
  · have := (hrep.slab a ha).used
    omega
  · rw [hrep.available, hrep.limit]
    exact hrep.bounded
  · have hcounts := h.counts
    rw [← h.live] at hcounts
    unfold Word.sub
    omega

/-- For every cache whose objects can hold a link and fit into a page, every run of calls, and every behaviour
of the page allocators: each slab is on one list, the objects are conserved, and no live object is handed out.
The run returns unless the objects fill the page exactly, where `slab_create` divides by zero. -/
theorem objects_conserved (P : Ownership A) {allocReclaimable allocUnmovable : Machine A → ℕ × Machine A}
    (hR : P.Allocator allocReclaimable) (hU : P.Allocator allocUnmovable) {M : Machine A} {F : Set ℕ}
    (hM : P.Owns M F) (size align : ℕ) (hwide : 8 ≤ (newCache size align).objectSize)
    (hpage : slabHeaderSize + (newCache size align).objectSize ≤ pageSize) (ops : List Op)
    (hv : Guarded (step (Ledger.alloc allocReclaimable) (Ledger.alloc allocUnmovable)) Valid
      (fresh (Ledger.start M) size align) ops) :
    (∀ c, exec (step (Ledger.alloc allocReclaimable) (Ledger.alloc allocUnmovable))
        (fresh (Ledger.start M) size align) ops = some c →
      ∃ g, g.live = c.live ∧
        Conserved (newCache size align).objectsPerSlab (newCache size align).objectSize c.state g ∧
        ∀ o s', slabAlloc (Ledger.alloc allocReclaimable) c.state = some (o, s') → o ≠ 0 → o ∉ c.live) ∧
      (slabHeaderSize + (newCache size align).objectsPerSlab * (newCache size align).objectSize ≠ pageSize →
        ∃ c, exec (step (Ledger.alloc allocReclaimable) (Ledger.alloc allocUnmovable))
          (fresh (Ledger.start M) size align) ops = some c) := by
  have hR' := hR.recorded (G := F)
  have hU' := hU.recorded (G := F)
  have hfresh := inv_fresh (P.owns_start hM) (geometry_newCache hwide hpage)
  obtain ⟨n, hn⟩ : ∃ n, (newCache size align).objectsPerSlab = n := ⟨_, rfl⟩
  obtain ⟨z, hz⟩ : ∃ z, (newCache size align).objectSize = z := ⟨_, rfl⟩
  rw [hn, hz] at hfresh ⊢
  constructor
  · intro c hexec
    obtain ⟨g, h⟩ := invariant (I := fun c => ∃ g, Inv (P.recorded F) F n z c g) (fun c op c' ⟨g, h⟩ hvalid hstep => by
      rcases h.step hR' hU' hvalid with ⟨hnone, -⟩ | ⟨c₁, g₁, hc₁, h₁, -⟩
      · rw [hnone] at hstep
        exact absurd hstep nofun
      · obtain rfl := Option.some.inj (hc₁.symm.trans hstep)
        exact ⟨g₁, h₁⟩) ⟨_, hfresh⟩ hv hexec
    refine ⟨g, h.live, h.conserved, fun o s' hcall ho hmem => ?_⟩
    rcases h.rep.alloc hR' with ⟨hnone, -⟩ | ⟨s₁, hcall', -, -⟩ | ⟨o₁, s₁, g₁, hcall', -, h₁, hlive, -⟩
    · rw [hnone] at hcall
      exact absurd hcall nofun
    · rw [hcall', Option.some.injEq, Prod.mk.injEq] at hcall
      exact ho hcall.1.symm
    · rw [hcall', Option.some.injEq, Prod.mk.injEq] at hcall
      have hnodup := (List.nodup_append.mp (List.nodup_append.mp h₁.toCore.nodup_places).1).1
      rw [hlive, hcall.1, h.live] at hnodup
      exact (List.nodup_cons.mp hnodup).1 hmem
  · intro hne
    obtain ⟨c, hexec, -⟩ := exec_total (I := fun c => ∃ g, Inv (P.recorded F) F n z c g) (fun c op ⟨g, h⟩ hvalid => by
      rcases h.step hR' hU' hvalid with ⟨-, hexact⟩ | ⟨c₁, g₁, hc₁, h₁, -⟩
      · exact absurd hexact hne
      · exact ⟨c₁, hc₁, g₁, h₁⟩) ⟨_, hfresh⟩ hv
    exact ⟨c, hexec⟩

/-- A cache for objects of 64 bytes, on the real page allocator with eight pages. -/
def sixtyFour : Run (Ledger Pmm.PmmGlobals) := fresh (Ledger.start (Pmm.booted (fun _ => 0) 0x1000 0x8000)) 64 8

/-- Two objects are taken, one of them is written to, and the other one is given back. -/
theorem objects_conserved_buddy :
    (∀ c, exec (step (Ledger.alloc Pmm.buddyFrame) (Ledger.alloc Pmm.buddyFrame)) sixtyFour
        [.alloc, .alloc, .write 0x1f60 7, .free 0x1fa0] = some c →
      ∃ g, g.live = c.live ∧ Conserved (newCache 64 8).objectsPerSlab (newCache 64 8).objectSize c.state g ∧
        ∀ o s', slabAlloc (Ledger.alloc Pmm.buddyFrame) c.state = some (o, s') → o ≠ 0 → o ∉ c.live) ∧
      (slabHeaderSize + (newCache 64 8).objectsPerSlab * (newCache 64 8).objectSize ≠ pageSize →
        ∃ c, exec (step (Ledger.alloc Pmm.buddyFrame) (Ledger.alloc Pmm.buddyFrame)) sixtyFour
          [.alloc, .alloc, .write 0x1f60 7, .free 0x1fa0] = some c) := by
  have hu : Buddy.Usable 0x1000 0x8000 := ⟨by norm_num, rfl, by norm_num⟩
  exact objects_conserved (Pmm.source hu) (Pmm.buddyFrame_allocator hu) (Pmm.buddyFrame_allocator hu)
    (Pmm.owns_booted hu _) 64 8 (by decide) (by decide) _
    (guarded_of_guardedBy (t := fun (c : Run (Ledger Pmm.PmmGlobals)) op => decide (Valid c op))
      (fun _ _ h => of_decide_eq_true h) (by decide +kernel))

end PrometheusKernel.Slab
