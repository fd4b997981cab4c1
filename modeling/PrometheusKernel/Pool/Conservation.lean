import PrometheusKernel.Pool.Steps
import PrometheusKernel.Lib.Interleaving

/-!
# Pool objects are conserved

A run is any list of calls to `pool_alloc` and `pool_free` on one pool; clients free objects that they hold, or
null, and write only into their objects. The page allocator may fail at any call. In every state of a run in which
growing adds objects each object is live or on the free list, once, and the counters say so
(`pool_objects_conserved`).

A growth that adds no object is the subject of `Pool.Sizes`.
-/

namespace PrometheusKernel.Pool

open ByteMem LinkedList Buddy Slab Interleaving

/-! ### Runs -/

/-- A pool and its clients. -/
structure Run (A : Type) where
  state : State A
  /-- The objects that clients hold. -/
  live : List ℕ

/-- A call, or a byte written by a client. -/
inductive Op
  | alloc
  | free (object : ℕ)
  | write (addr : ℕ) (byte : UInt8)

variable {A : Type} (allocPages : ℕ → Machine A → ℕ × Machine A)

/-- What the clients may do. -/
def Valid (c : Run A) : Op → Prop
  | .alloc => True
  | .free object => object = 0 ∨ object ∈ c.live
  | .write addr _ => ∃ o ∈ c.live, o ≤ addr ∧ addr < o + c.state.pool.objectSize

/-- One operation; `none` is a call that does not return. -/
def step (c : Run A) : Op → Option (Run A)
  | .alloc => (poolAlloc allocPages c.state).map fun res : ℕ × State A =>
      ⟨res.2, if res.1 = 0 then c.live else res.1 :: c.live⟩
  | .free object => some ⟨poolFree c.state object, c.live.erase object⟩
  | .write addr byte =>
      some { c with state := { c.state with mem := Function.update c.state.mem addr byte } }

/-- The pool as `pool_create` returns it. -/
def opened (s : State A) : Run A := ⟨s, []⟩

/-- A growth of this pool has objects. -/
def GrowsBySome (c : Run A) : Prop :=
  0 < objectsInRegion (orderFor c.state.pool.growCount c.state.pool.objectSize) c.state.pool.objectSize

/-- After a growth the pool has fewer than `2 ^ 32` objects. -/
def RoomToCount (c : Run A) : Prop :=
  c.state.pool.totalObjects
    + objectsInRegion (orderFor c.state.pool.growCount c.state.pool.objectSize) c.state.pool.objectSize < 2 ^ 32

instance (c : Run A) : Decidable (GrowsBySome c) :=
  inferInstanceAs (Decidable (0 < objectsInRegion (orderFor c.state.pool.growCount c.state.pool.objectSize)
    c.state.pool.objectSize))

instance (c : Run A) : Decidable (RoomToCount c) :=
  inferInstanceAs (Decidable (c.state.pool.totalObjects + objectsInRegion
    (orderFor c.state.pool.growCount c.state.pool.objectSize) c.state.pool.objectSize < 2 ^ 32))

/-- Where `pool_alloc` grows the pool, it adds an object. -/
def AddsObjects (c : Run A) : Op → Prop
  | .alloc => ∀ s, c.state.pool.freeList = 0 → poolGrow allocPages c.state c.state.pool.growCount = some (0, s) →
      GrowsBySome c
  | _ => True

/-- Where `pool_alloc` grows the pool, fewer than `2 ^ 32` objects come of it. -/
def StaysSmall (c : Run A) : Op → Prop
  | .alloc => ∀ s, c.state.pool.freeList = 0 → poolGrow allocPages c.state c.state.pool.growCount = some (0, s) →
      RoomToCount c
  | _ => True

/-! ### The invariant -/

/-- The lists of the pool, with the objects that clients hold. -/
structure Inv (P : Holding A) (B : Set (ℕ × ℕ)) (c : Run A) (g : Ghost) : Prop where
  rep : Rep P B c.state g
  live : g.live = c.live

/-- The counters have not wrapped. -/
def Few (c : Run A) (g : Ghost) : Prop := (objects c.state.pool.objectSize g.regions).length < 2 ^ 32

variable {allocPages} {P : Holding A} {B : Set (ℕ × ℕ)} {c : Run A} {g : Ghost} {s : State A} {M : Machine A}

/-- The objects of the regions are those of the pool before. -/
theorem SamePool.size_eq {s' : State A} (h : SamePool s s') (regions : List (ℕ × ℕ)) :
    objects s'.pool.objectSize regions = objects s.pool.objectSize regions := by
  rw [h.objectSize]

/-- A growth leaves as few objects as there is room to count. -/
theorem Inv.few_grown (h : Inv P B c g) {b : ℕ × ℕ} {s' : State A}
    (hb : b.2 = orderFor c.state.pool.growCount c.state.pool.objectSize) (hsame : SamePool c.state s')
    (hfew : Few c g) (hroom : RoomToCount c) :
    (objects s'.pool.objectSize (b :: g.regions)).length < 2 ^ 32 := by
  unfold Few at hfew
  unfold RoomToCount at hroom
  have htotal := h.rep.total
  rw [Nat.mod_eq_of_lt hfew] at htotal
  rw [hsame.size_eq, length_objects_cons, hb, ← htotal]
  exact hroom

/-- A growth that adds objects leaves some to take. -/
theorem grown_ne_nil {size : ℕ} {b : ℕ × ℕ} (h : 0 < objectsInRegion b.2 size) : (g.grown size b).free ≠ [] := by
  have hlen : (g.grown size b).free.length = objectsInRegion b.2 size + g.free.length := length_threaded _ _ _ _ _
  intro hnil
  rw [hnil, List.length_nil] at hlen
  omega

/-- What a call of `pool_alloc` gives the clients. -/
theorem Inv.alloc (h : Inv P B c g) (hR : P.Allocator allocPages) (hadds : AddsObjects allocPages c .alloc) :
    ∃ c' g', step allocPages c .alloc = some c' ∧ Inv P B c' g' ∧ SamePool c.state c'.state ∧
      (StaysSmall allocPages c .alloc → Few c g → Few c' g') := by
  have pop : ∀ s₁ g₁, Rep P B s₁ g₁ → g₁.live = c.live → SamePool c.state s₁ → g₁.free ≠ [] →
      (StaysSmall allocPages c .alloc → Few c g → (objects s₁.pool.objectSize g₁.regions).length < 2 ^ 32) →
      poolAlloc allocPages c.state = some (popChunk s₁) →
      ∃ c' g', step allocPages c .alloc = some c' ∧ Inv P B c' g' ∧ SamePool c.state c'.state ∧
        (StaysSmall allocPages c .alloc → Few c g → Few c' g') := by
    intro s₁ g₁ hrep hlive hsame hfree hfew hcall
    obtain ⟨o, l, hol⟩ := List.exists_cons_of_ne_nil hfree
    obtain ⟨ho, hsame', hrep'⟩ := hrep.pop hol
    have ho0 : o ≠ 0 := hrep.object_ne_zero (hrep.free_object (hol ▸ List.mem_cons_self))
    refine ⟨⟨(popChunk s₁).2, o :: c.live⟩, { g₁ with free := l, live := o :: g₁.live }, ?_, ⟨hrep', ?_⟩,
      hsame.trans hsame', fun hsmall hf => ?_⟩
    · simp only [step, hcall, Option.map_some, ho, if_neg ho0]
    · exact congrArg (o :: ·) hlive
    · unfold Few
      rw [hsame'.size_eq]
      exact hfew hsmall hf
  rcases h.rep.alloc hR with ⟨M, hcall, hrep⟩ | ⟨hfree, hcall⟩ | ⟨s', b, h0, hgrow, hcall, hb, hsame, hrep⟩
  · refine ⟨⟨{ c.state with toMachine := M }, c.live⟩, g, ?_, ⟨hrep, h.live⟩, ⟨rfl, rfl, rfl⟩, fun _ hf => hf⟩
    simp only [step, hcall, Option.map_some, if_true]
  · exact pop c.state g h.rep h.live (SamePool.refl _) hfree (fun _ hf => hf) hcall
  · refine pop s' _ hrep h.live hsame (grown_ne_nil ?_) (fun hsmall hf => ?_) hcall
    · rw [hb]
      exact hadds s' h0 hgrow
    · exact h.few_grown hb hsame hf (hsmall s' h0 hgrow)

/-- Every operation returns and keeps the invariant. -/
theorem Inv.step (h : Inv P B c g) (hR : P.Allocator allocPages) {op : Op} (hv : Valid c op)
    (hadds : AddsObjects allocPages c op) :
    ∃ c' g', step allocPages c op = some c' ∧ Inv P B c' g' ∧ SamePool c.state c'.state ∧
      (StaysSmall allocPages c op → Few c g → Few c' g') := by
  cases op with
  | alloc => exact h.alloc hR hadds
  | free object =>
      rcases Decidable.em (object = 0) with rfl | hne
      · have herase : c.live.erase 0 = c.live := by
          apply List.erase_of_not_mem
          intro hin
          rw [← h.live] at hin
          exact h.rep.object_ne_zero (h.rep.live_object hin) rfl
        refine ⟨c, g, ?_, h, SamePool.refl _, fun _ hf => hf⟩
        simp only [Pool.step, poolFree, if_true, herase]
      · have hin : object ∈ g.live := h.live ▸ hv.resolve_left hne
        obtain ⟨hsame, hrep⟩ := h.rep.push hin
        refine ⟨_, _, rfl, ⟨hrep, ?_⟩, hsame, fun _ hf => ?_⟩
        · show g.live.erase object = c.live.erase object
          rw [h.live]
        · show (objects (poolFree c.state object).pool.objectSize g.regions).length < 2 ^ 32
          rw [hsame.size_eq]
          exact hf
  | write addr byte =>
      obtain ⟨o, ho, h1, h2⟩ := hv
      rw [← h.live] at ho
      exact ⟨_, g, rfl, ⟨h.rep.write ho h1 h2 byte, h.live⟩, ⟨rfl, rfl, rfl⟩, fun _ hf => hf⟩

/-- Every run in which growing adds objects returns, and keeps the invariant. -/
theorem Inv.exec (h : Inv P B c g) (hR : P.Allocator allocPages) {ops : List Op}
    (hg : Guarded (Pool.step allocPages) (fun c op => Valid c op ∧ AddsObjects allocPages c op) c ops) :
    ∃ c', Interleaving.exec (Pool.step allocPages) c ops = some c' ∧
      ∃ g', Inv P B c' g' ∧ SamePool c.state c'.state := by
  refine exec_total (I := fun d => ∃ g', Inv P B d g' ∧ SamePool c.state d.state) ?_ ⟨g, h, SamePool.refl _⟩ hg
  rintro d op ⟨g', h', hsame⟩ ⟨hv, hadds⟩
  obtain ⟨d', g'', hstep, h'', hsame', -⟩ := h'.step hR hv hadds
  exact ⟨d', hstep, g'', h'', hsame.trans hsame'⟩

/-- As long as it stays small the counters do not wrap. -/
theorem Inv.exec_few (h : Inv P B c g) (hR : P.Allocator allocPages) (hfew : Few c g) {ops : List Op}
    (hg : Guarded (Pool.step allocPages)
      (fun c op => Valid c op ∧ AddsObjects allocPages c op ∧ StaysSmall allocPages c op) c ops) :
    ∃ c', Interleaving.exec (Pool.step allocPages) c ops = some c' ∧
      ∃ g', Inv P B c' g' ∧ Few c' g' ∧ SamePool c.state c'.state := by
  refine exec_total (I := fun d => ∃ g', Inv P B d g' ∧ Few d g' ∧ SamePool c.state d.state) ?_
    ⟨g, h, hfew, SamePool.refl _⟩ hg
  rintro d op ⟨g', h', hf, hsame⟩ ⟨hv, hadds, hsmall⟩
  obtain ⟨d', g'', hstep, h'', hsame', hf'⟩ := h'.step hR hv hadds
  exact ⟨d', hstep, g'', h'', hf' hsmall hf, hsame.trans hsame'⟩

/-! ### Creation -/

/-- `align_up` to 8 is at least what is rounded, unless it wraps to 0. -/
theorem alignUp_eight (z : ℕ) : alignUp z 8 = (z + 7) % 2 ^ 64 / 8 * 8 := by
  have hsub : Word.sub 64 (Word.add 64 z 8) 1 = (z + 7) % 2 ^ 64 := by
    unfold Word.sub Word.add
    omega
  have hmask : 2 ^ 64 - 1 - Word.sub 64 8 1 = 2 ^ 64 - 2 ^ 3 := by
    rw [Word.sub_eq (by norm_num) (by norm_num)]
    norm_num
  unfold alignUp Slab.alignUp
  rw [hsub, hmask, Word.and_high_mask (by norm_num), Nat.mod_mod]
  norm_num

/-- The object size of a new pool. -/
theorem newPool_objectSize (size count : ℕ) :
    (newPool size count).objectSize = (max size 8 + 7) % 2 ^ 64 / 8 * 8 := by
  have hmax : (if size < minObjectSize then minObjectSize else size) = max size 8 := by
    unfold minObjectSize
    split_ifs with hlt
    · exact (max_eq_right hlt.le).symm
    · exact (max_eq_left (not_lt.mp hlt)).symm
  unfold newPool
  dsimp only
  rw [hmax, alignUp_eight]

/-- An object size is at least 8, and at least what was asked for, unless rounding up wraps. -/
theorem newPool_objectSize_cases {size : ℕ} (hsize : size < 2 ^ 64) (count : ℕ) :
    ((newPool size count).objectSize = 0 ↔ 2 ^ 64 - 8 < size) ∧
      (size ≤ 2 ^ 64 - 8 →
        minObjectSize ≤ (newPool size count).objectSize ∧ size ≤ (newPool size count).objectSize) := by
  rw [newPool_objectSize]
  unfold minObjectSize
  constructor
  · omega
  · intro hle
    omega

section creation

variable {allocReclaimable allocUnmovable : ℕ → Machine A → ℕ × Machine A} {size count : ℕ}

/-- A pool without regions. -/
theorem rep_new (hU : P.Allocator allocUnmovable) (hM : P.Holds M B) (hpage : (allocUnmovable 0 M).1 ≠ 0)
    (hwide : minObjectSize ≤ (newPool size count).objectSize) :
    Rep P B ⟨(allocUnmovable 0 M).2, (allocUnmovable 0 M).1, newPool size count⟩ ⟨[], [], []⟩ := by
  refine ⟨hwide, fun b hb => absurd hb List.not_mem_nil, ?_, List.nodup_singleton _, ?_, rfl, rfl, List.Perm.refl _,
    rfl, rfl⟩
  · have hset : blocks B (allocUnmovable 0 M).1 [] = Set.insert ((allocUnmovable 0 M).1, 0) B := by
      ext b
      show (b ∈ B ∨ b ∈ [((allocUnmovable 0 M).1, 0)]) ↔ (b = ((allocUnmovable 0 M).1, 0) ∨ b ∈ B)
      rw [List.mem_singleton]
      exact or_comm
    show P.Holds (allocUnmovable 0 M).2 (blocks B (allocUnmovable 0 M).1 [])
    rw [hset]
    exact hU.holds hM 0 hpage
  · intro b hb
    rw [List.mem_singleton.mp hb]
    exact hU.fresh hM 0 hpage

/-- `pool_create` returns null, or divides by the object size 0, or returns a pool with one region. -/
theorem create_cases (hR : P.Allocator allocReclaimable) (hU : P.Allocator allocUnmovable) (hM : P.Holds M B)
    (freePages : ℕ → ℕ → Machine A → Machine A) (name : ℕ) (hsize : size < 2 ^ 64) (count : ℕ) :
    (∃ M', poolCreate allocReclaimable allocUnmovable freePages M name size count = some (.error M')) ∨
      (poolCreate allocReclaimable allocUnmovable freePages M name size count = none ∧ 2 ^ 64 - 8 < size) ∨
      ∃ s b, poolCreate allocReclaimable allocUnmovable freePages M name size count = some (.ok s) ∧
        size ≤ 2 ^ 64 - 8 ∧ b.2 = orderFor count (newPool size count).objectSize ∧
        s.pool.objectSize = (newPool size count).objectSize ∧ s.pool.growCount = (newPool size count).growCount ∧
        Rep P B s (Ghost.grown ⟨[], [], []⟩ (newPool size count).objectSize b) := by
  obtain ⟨hzero, hwide⟩ := newPool_objectSize_cases hsize count
  unfold poolCreate
  dsimp only
  split_ifs with hargs hpage
  · exact Or.inl ⟨M, rfl⟩
  · exact Or.inl ⟨_, rfl⟩
  · rcases Nat.lt_or_ge (2 ^ 64 - 8) size with hlarge | hle
    · -- the object size has wrapped to 0
      unfold poolGrow
      dsimp only
      rw [hzero.mpr hlarge]
      split_ifs with hcount hregion hne
      · exact Or.inl ⟨_, rfl⟩
      · exact Or.inl ⟨_, rfl⟩
      · exact Or.inr (Or.inl ⟨rfl, hlarge⟩)
      · exact absurd rfl hne
    · rcases (rep_new hU hM hpage (hwide hle).1).grow hR count with ⟨M', hcall, -⟩ | ⟨s', b, hcall, hb, hsame, hrep⟩
      · rw [hcall]
        exact Or.inl ⟨_, rfl⟩
      · rw [hcall]
        exact Or.inr (Or.inr ⟨s', b, rfl, hle, hb, hsame.objectSize, hsame.growCount, hrep⟩)

end creation

/-- A region of a new pool and its free list. -/
theorem grown_nil_length (size : ℕ) (b : ℕ × ℕ) :
    (Ghost.grown ⟨[], [], []⟩ size b).free.length = objectsInRegion b.2 size := by
  unfold Ghost.grown
  dsimp only
  rw [length_threaded, List.length_nil, Nat.add_zero]

/-- A region has few objects. -/
theorem objectsInRegion_lt {k : ℕ} (hk : k ≤ maxOrder) {size : ℕ} (hsize : 0 < size) :
    objectsInRegion k size < 2 ^ 22 := by
  have hroom := objectsInRegion_mul_le hk size
  have hpow : 2 ^ k ≤ 2 ^ 10 := Nat.pow_le_pow_right (by norm_num) hk
  have hmul : objectsInRegion k size * 1 ≤ objectsInRegion k size * size := Nat.mul_le_mul_left _ hsize
  unfold regionHeaderSize pageSize at hroom
  omega

/-- The objects of a new pool. -/
theorem total_created {size : ℕ} {b : ℕ × ℕ} (h : Rep P B s (Ghost.grown ⟨[], [], []⟩ size b))
    (hsize : s.pool.objectSize = size) : s.pool.totalObjects = objectsInRegion b.2 size := by
  have hwide := h.wide
  unfold minObjectSize at hwide
  have hlt := objectsInRegion_lt (h.orders b List.mem_cons_self) (show 0 < s.pool.objectSize by omega)
  rw [h.total]
  show (objects s.pool.objectSize (b :: [])).length % 2 ^ 32 = _
  rw [length_objects_cons, ← hsize]
  show (0 + objectsInRegion b.2 s.pool.objectSize) % 2 ^ 32 = _
  omega

/-- A new pool has few objects. -/
theorem few_created {size : ℕ} {b : ℕ × ℕ} (h : Rep P B s (Ghost.grown ⟨[], [], []⟩ size b))
    (hsize : s.pool.objectSize = size) : Few (opened s) (Ghost.grown ⟨[], [], []⟩ size b) := by
  have hwide := h.wide
  unfold minObjectSize at hwide
  have hlt := objectsInRegion_lt (h.orders b List.mem_cons_self) (show 0 < s.pool.objectSize by omega)
  show (objects s.pool.objectSize (b :: [])).length < 2 ^ 32
  rw [length_objects_cons]
  show 0 + objectsInRegion b.2 s.pool.objectSize < 2 ^ 32
  omega

/-! ### Conservation -/

/-- Every object is in one place, where it belongs, and what the pool says about its objects is true. `B` is what
others hold of the page allocator. -/
structure Conserved (P : Holding A) (B : Set (ℕ × ℕ)) (width : ℕ) (c : Run A) (g : Ghost) : Prop where
  /-- The regions of the pool. -/
  regions : IsList (regionNext c.state.mem) (g.regions.map Prod.fst) c.state.pool.regions
  /-- Each region has the order with which it was taken. -/
  held : P.Holds c.state.toMachine (blocks B c.state.page g.regions)
  /-- Objects lie behind the header of their region and inside its block. -/
  within : ∀ o ∈ c.live ++ g.free, ∃ b ∈ g.regions, b.1 + regionHeaderSize ≤ o ∧
    o + c.state.pool.objectSize ≤ blockEnd b
  /-- Different objects do not overlap, and have the width that was asked for. -/
  apart : ∀ o ∈ c.live ++ g.free, ∀ o' ∈ c.live ++ g.free, o ≠ o' →
    o + c.state.pool.objectSize ≤ o' ∨ o' + c.state.pool.objectSize ≤ o
  width : width ≤ c.state.pool.objectSize
  /-- The free list ends, and holds each free object once. -/
  freeList : IsList (chunkNext c.state.mem) g.free c.state.pool.freeList
  once : (c.live ++ g.free).Nodup
  /-- Live or free: the objects of the regions. -/
  somewhere : (c.live ++ g.free).Perm (objects c.state.pool.objectSize g.regions)
  freeObjects : c.state.pool.freeObjects = g.free.length
  totalObjects : c.live.length + g.free.length = c.state.pool.totalObjects

/-- What the invariant says about the regions, the free list and the counters. -/
theorem Inv.conserved (h : Inv P B c g) (hfew : Few c g) {width : ℕ} (hwidth : width ≤ c.state.pool.objectSize) :
    Conserved P B width c g := by
  have hrep := h.rep
  have hperm := hrep.perm
  have hnodup := hrep.nodup_places
  rw [h.live] at hperm hnodup
  have hlen := hperm.length_eq
  rw [List.length_append] at hlen
  unfold Few at hfew
  refine ⟨hrep.chain, hrep.holds, fun o ho => ?_, fun o ho o' ho' hne => ?_, hwidth, hrep.list, hnodup, hperm, ?_, ?_⟩
  · obtain ⟨b, hb, hob⟩ := mem_objects.mp (hperm.subset ho)
    exact ⟨b, hb, hrep.within hb hob⟩
  · exact hrep.objects_apart (hperm.subset ho) (hperm.subset ho') hne
  · rw [hrep.count, Nat.mod_eq_of_lt (by omega)]
  · rw [hrep.total, Nat.mod_eq_of_lt hfew, hlen]

/-- `pool_alloc` returns no live object. -/
theorem Inv.alloc_fresh (h : Inv P B c g) (hR : P.Allocator allocPages) {o : ℕ} {s' : State A}
    (hcall : poolAlloc allocPages c.state = some (o, s')) (ho : o ≠ 0) : o ∉ c.live := by
  have pop : ∀ s₁ g₁, Rep P B s₁ g₁ → g₁.live = c.live → popChunk s₁ = (o, s') → o ∉ c.live := by
    intro s₁ g₁ hrep hlive hpop hin
    have hhead : s₁.pool.freeList = o := congrArg Prod.fst hpop
    have hmem : o ∈ g₁.free := hhead ▸ hrep.list.head_mem (hhead ▸ ho)
    exact hrep.live_ne_free (hlive ▸ hin) hmem rfl
  rcases h.rep.alloc hR with ⟨M, hcall', -⟩ | ⟨-, hcall'⟩ | ⟨s₁, b, -, -, hcall', -, -, hrep⟩
  · rw [hcall', Option.some.injEq, Prod.mk.injEq] at hcall
    exact absurd hcall.1.symm ho
  · exact pop c.state g h.rep h.live (Option.some.inj (hcall'.symm.trans hcall))
  · exact pop s₁ _ hrep h.live (Option.some.inj (hcall'.symm.trans hcall))

/-- For every pool that `pool_create` returns, every run of calls, and every behaviour of the page allocators: as
long as a growth adds objects and leaves fewer than `2 ^ 32` of them, every call returns, the objects are
conserved, and no live object is handed out. -/
theorem pool_objects_conserved (P : Holding A) {allocReclaimable allocUnmovable : ℕ → Machine A → ℕ × Machine A}
    (hR : P.Allocator allocReclaimable) (hU : P.Allocator allocUnmovable) (freePages : ℕ → ℕ → Machine A → Machine A)
    {M : Machine A} {B : Set (ℕ × ℕ)} (hM : P.Holds M B) {name size count : ℕ} (hsize : size < 2 ^ 64) {s : State A}
    (hcreate : poolCreate allocReclaimable allocUnmovable freePages M name size count = some (.ok s)) (ops : List Op)
    (hg : Guarded (step allocReclaimable)
      (fun c op => Valid c op ∧ AddsObjects allocReclaimable c op ∧ StaysSmall allocReclaimable c op)
      (opened s) ops) :
    ∃ c, exec (step allocReclaimable) (opened s) ops = some c ∧ (∃ g, Conserved P B size c g) ∧
      ∀ o s', poolAlloc allocReclaimable c.state = some (o, s') → o ≠ 0 → o ∉ c.live := by
  obtain ⟨-, hwide⟩ := newPool_objectSize_cases hsize count
  rcases create_cases hR hU hM freePages name hsize count with
    ⟨M', hcall⟩ | ⟨hcall, -⟩ | ⟨s', b, hcall, hle, hb, hobj, hgrow, hrep⟩
  · rw [hcall] at hcreate
    exact absurd hcreate (by simp)
  · rw [hcall] at hcreate
    exact absurd hcreate nofun
  · obtain rfl : s' = s := by
      rw [hcall, Option.some.injEq, Except.ok.injEq] at hcreate
      exact hcreate
    have hinv : Inv P B (opened s') _ := ⟨hrep, rfl⟩
    obtain ⟨c, hexec, g, h, hfew, hsame⟩ := hinv.exec_few hR (few_created hrep hobj) hg
    refine ⟨c, hexec, ⟨g, h.conserved hfew ?_⟩, fun o s'' hcall' ho => h.alloc_fresh hR hcall' ho⟩
    rw [hsame.objectSize]
    show size ≤ s'.pool.objectSize
    rw [hobj]
    exact (hwide hle).2

/-! ### A pool on two pages -/

/-- Empty memory, its first free page at `0x1000`. -/
def emptyMachine : Machine ℕ := ⟨fun _ => 0, 0x1000⟩

/-- `pool_create` with blocks cut off one after the other. -/
def bumpCreate (size count : ℕ) : Option (Except (Machine ℕ) (State ℕ)) :=
  poolCreate bumpAlloc bumpAlloc bumpFree emptyMachine 1 size count

/-- The pool that it returns, at `0x1000` with `n` objects in a region of order `k` at `0x2000`. -/
def bumpPool (size count k n : ℕ) : State ℕ :=
  fillRegion ⟨⟨fun _ => 0, blockEnd (0x2000, k)⟩, 0x1000, newPool size count⟩ 0x2000 n

/-- A block that fits is cut off. -/
theorem bumpAlloc_eq {k page : ℕ} (hfits : blockEnd (page, k) ≤ 2 ^ 64) (m : Mem) :
    bumpAlloc k ⟨m, page⟩ = (page, ⟨m, blockEnd (page, k)⟩) := if_pos hfits

/-- A creation in which both calls of the page allocator succeed. -/
theorem poolCreate_eq {allocReclaimable allocUnmovable : ℕ → Machine A → ℕ × Machine A}
    (freePages : ℕ → ℕ → Machine A → Machine A) {M₁ M₂ : Machine A} {name size count page region k n z : ℕ}
    (hargs : name ≠ 0 ∧ size ≠ 0 ∧ count ≠ 0) (hz : (newPool size count).objectSize = z) (hz0 : z ≠ 0)
    (hk : orderFor count z = k) (hn : objectsInRegion k z = n) (hpage : allocUnmovable 0 M = (page, M₁))
    (hpage0 : page ≠ 0) (hregion : allocReclaimable k M₁ = (region, M₂)) (hregion0 : region ≠ 0) :
    poolCreate allocReclaimable allocUnmovable freePages M name size count
      = some (.ok (fillRegion ⟨M₂, page, newPool size count⟩ region n)) := by
  have hgrow : poolGrow allocReclaimable ⟨M₁, page, newPool size count⟩ count
      = some (0, fillRegion ⟨M₂, page, newPool size count⟩ region n) := by
    unfold poolGrow
    dsimp only
    rw [if_neg hargs.2.2, hz, hk, hregion, if_neg hregion0, if_neg hz0, hn]
  unfold poolCreate
  dsimp only
  rw [if_neg (by omega), hpage, if_neg hpage0, hgrow]
  rfl

/-- A creation that succeeds. -/
theorem bumpCreate_eq {size count k n z : ℕ} (hsize : size ≠ 0) (hcount : count ≠ 0)
    (hz : (newPool size count).objectSize = z) (hz0 : z ≠ 0) (hk : orderFor count z = k)
    (hn : objectsInRegion k z = n) : bumpCreate size count = some (.ok (bumpPool size count k n)) := by
  have hpow : 2 ^ k ≤ 2 ^ 10 := Nat.pow_le_pow_right (by norm_num) (hk ▸ orderFor_le count z)
  exact poolCreate_eq bumpFree ⟨one_ne_zero, hsize, hcount⟩ hz hz0 hk hn (bumpAlloc_eq (by decide) _) (by norm_num)
    (bumpAlloc_eq (by show 0x2000 + 2 ^ k * 4096 ≤ 2 ^ 64; omega) _) (by norm_num)

/-- Three objects of 1024 bytes. -/
theorem create_sample : bumpCreate 1024 2 = some (.ok (bumpPool 1024 2 0 3)) :=
  bumpCreate_eq (by norm_num) (by norm_num) (z := 1024) (by decide +kernel) (by norm_num) (by decide +kernel)
    (by decide +kernel)

/-- The guard of a run, as a test. -/
def properTest (c : Run ℕ) : Op → Bool
  | .alloc => decide (GrowsBySome c ∧ RoomToCount c)
  | .free object => decide (object ∈ c.live)
  | .write addr _ => decide (∃ o ∈ c.live, o ≤ addr ∧ addr < o + c.state.pool.objectSize)

/-- The test of the guard is sound. -/
theorem proper_of_test (c : Run ℕ) (op : Op) (h : properTest c op = true) :
    Valid c op ∧ AddsObjects bumpAlloc c op ∧ StaysSmall bumpAlloc c op := by
  cases op with
  | alloc =>
      obtain ⟨hsome, hroom⟩ := of_decide_eq_true h
      exact ⟨trivial, fun _ _ _ => hsome, fun _ _ _ => hroom⟩
  | free object => exact ⟨Or.inr (of_decide_eq_true h), trivial, trivial⟩
  | write addr byte =>
      have h' : decide (∃ o ∈ c.live, o ≤ addr ∧ addr < o + c.state.pool.objectSize) = true := h
      have hin := of_decide_eq_true h'
      exact ⟨hin, trivial, trivial⟩

/-- Four objects are taken, the last from a second region; one is written and given back. -/
theorem pool_objects_conserved_sample :
    ∃ c, exec (step bumpAlloc) (opened (bumpPool 1024 2 0 3))
      [.alloc, .alloc, .alloc, .alloc, .write 0x2810 7, .free 0x2810]
        = some c ∧ (∃ g, Conserved bump ∅ 1024 c g) ∧
      ∀ o s', poolAlloc bumpAlloc c.state = some (o, s') → o ≠ 0 → o ∉ c.live :=
  pool_objects_conserved bump bumpAlloc_allocator bumpAlloc_allocator bumpFree
    (bump_start (m := emptyMachine) (by decide) (by decide)) (by norm_num) create_sample _
    (guarded_of_guardedBy proper_of_test (by decide +kernel))

end PrometheusKernel.Pool
