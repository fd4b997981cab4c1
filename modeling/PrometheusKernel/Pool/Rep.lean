import PrometheusKernel.Pool.Model
import PrometheusKernel.Slab.Steps

/-!
# The objects behind a pool

`Ghost` names what the pointers of a pool lead to: its regions with their orders, the free list, and the objects
that clients hold. `Rep` ties it to memory: the regions are blocks that the pool holds, next to the blocks `B` of
others, and each of their objects is live or on the free list. The two counters are the lengths modulo `2 ^ 32`.

`Rep.grow`, `Rep.pop`, `Rep.push` and `Rep.write` are the moves. `pool_alloc` is a pop, or a growth and a pop
(`Rep.alloc`); a growth that adds no object leaves the list empty, and the pop reads address 0.
-/

namespace PrometheusKernel.Pool

open ByteMem LinkedList Buddy Slab

/-! ### Regions -/

section regions

variable {k size o o' : ℕ} {b : ℕ × ℕ}

/-- The objects of a region of order `b.2` at `b.1`. -/
def objectsOf (size : ℕ) (b : ℕ × ℕ) : List ℕ :=
  objectsFrom (objectsInRegion b.2 size) size (b.1 + regionHeaderSize)

/-- The objects of all regions. -/
def objects (size : ℕ) (regions : List (ℕ × ℕ)) : List ℕ := regions.flatMap (objectsOf size)

/-- The objects of a pool are those of its regions. -/
theorem mem_objects {regions : List (ℕ × ℕ)} : o ∈ objects size regions ↔ ∃ b ∈ regions, o ∈ objectsOf size b := by
  unfold objects
  exact List.mem_flatMap

/-- The loop for the order goes up by one a turn. -/
theorem growOrder_le (pages n order : ℕ) : growOrder pages n order ≤ order + n := by
  induction n generalizing order with
  | zero => exact le_rfl
  | succ n ih =>
      unfold growOrder
      split_ifs with hlt
      · exact (ih (order + 1)).trans (by omega)
      · exact Nat.le_add_right order _

/-- The order is one of the buddy allocator. -/
theorem orderFor_le (count size : ℕ) : orderFor count size ≤ maxOrder := by
  have h := growOrder_le (pagesNeeded count size) maxOrder 0
  rwa [Nat.zero_add] at h

/-- Nothing wraps in the size of a region. -/
theorem objectsInRegion_eq (hk : k ≤ maxOrder) (size : ℕ) :
    objectsInRegion k size = (2 ^ k * pageSize - regionHeaderSize) / size := by
  have hpow : 2 ^ k ≤ 2 ^ 10 := Nat.pow_le_pow_right (by norm_num) hk
  have hpos : 0 < 2 ^ k := Nat.two_pow_pos k
  have hdiv : (2 ^ k * 4096 - 16) / size ≤ 2 ^ k * 4096 - 16 := Nat.div_le_self _ _
  unfold objectsInRegion pageSize regionHeaderSize
  rw [Nat.one_shiftLeft, Word.mul_eq (by omega), Word.sub_eq (by omega) (by omega), Nat.mod_eq_of_lt (by omega)]

/-- The objects of a region lie behind its header and inside its block. -/
theorem objectsInRegion_mul_le (hk : k ≤ maxOrder) (size : ℕ) :
    regionHeaderSize + objectsInRegion k size * size ≤ 2 ^ k * pageSize := by
  have hmul : (2 ^ k * pageSize - regionHeaderSize) / size * size ≤ 2 ^ k * pageSize - regionHeaderSize :=
    Nat.div_mul_le_self _ _
  have hpos : 0 < 2 ^ k := Nat.two_pow_pos k
  rw [objectsInRegion_eq hk]
  unfold regionHeaderSize pageSize at hmul ⊢
  omega

/-- The objects of a region lie behind its header and inside its block. -/
theorem object_within (hk : b.2 ≤ maxOrder) (ho : o ∈ objectsOf size b) :
    b.1 + regionHeaderSize ≤ o ∧ o + size ≤ blockEnd b := by
  have hroom := objectsInRegion_mul_le hk size
  have hbounds := object_bounds ho
  unfold blockEnd
  exact ⟨hbounds.1, by omega⟩

end regions

/-! ### Memory -/

/-- What the pointers of a pool lead to. -/
structure Ghost where
  /-- The regions, the latest first, with their orders. -/
  regions : List (ℕ × ℕ)
  /-- The free list. -/
  free : List ℕ
  /-- The objects that clients hold. -/
  live : List ℕ

/-- The blocks of a pool at `page`, next to the blocks `B` that others hold. -/
def blocks (B : Set (ℕ × ℕ)) (page : ℕ) (regions : List (ℕ × ℕ)) : Set (ℕ × ℕ) :=
  { b | b ∈ B ∨ b ∈ (page, 0) :: regions }

variable {A : Type}

/-- Memory holds the regions and the free list of `g`. -/
structure Rep (P : Holding A) (B : Set (ℕ × ℕ)) (s : State A) (g : Ghost) : Prop where
  wide : minObjectSize ≤ s.pool.objectSize
  orders : ∀ b ∈ g.regions, b.2 ≤ maxOrder
  holds : P.Holds s.toMachine (blocks B s.page g.regions)
  nodup : ((s.page, 0) :: g.regions).Nodup
  fresh : ∀ b ∈ (s.page, 0) :: g.regions, b ∉ B
  chain : IsList (regionNext s.mem) (g.regions.map Prod.fst) s.pool.regions
  list : IsList (chunkNext s.mem) g.free s.pool.freeList
  perm : (g.live ++ g.free).Perm (objects s.pool.objectSize g.regions)
  total : s.pool.totalObjects = (objects s.pool.objectSize g.regions).length % 2 ^ 32
  count : s.pool.freeObjects = g.free.length % 2 ^ 32

/-- The calls of a pool leave these alone. -/
structure SamePool (s s' : State A) : Prop where
  page : s'.page = s.page
  objectSize : s'.pool.objectSize = s.pool.objectSize
  growCount : s'.pool.growCount = s.pool.growCount

/-- A call that does nothing. -/
theorem SamePool.refl (s : State A) : SamePool s s := ⟨rfl, rfl, rfl⟩

/-- Calls one after the other. -/
theorem SamePool.trans {s s' s'' : State A} (h : SamePool s s') (h' : SamePool s' s'') : SamePool s s'' :=
  ⟨h'.page.trans h.page, h'.objectSize.trans h.objectSize, h'.growCount.trans h.growCount⟩

section facts

variable {P : Holding A} {B : Set (ℕ × ℕ)} {s : State A} {g : Ghost} {b c : ℕ × ℕ} {o o' : ℕ}

/-- A region is one of the blocks of the pool. -/
theorem Rep.mem_blocks (hb : b ∈ g.regions) : b ∈ blocks B s.page g.regions := Or.inr (List.mem_cons_of_mem _ hb)

/-- Different regions do not overlap. -/
theorem Rep.apart (h : Rep P B s g) (hb : b ∈ g.regions) (hc : c ∈ g.regions) (hne : b ≠ c) :
    blockEnd b ≤ c.1 ∨ blockEnd c ≤ b.1 :=
  P.apart h.holds b (Rep.mem_blocks hb) c (Rep.mem_blocks hc) hne

/-- The objects of a region of the pool lie behind its header and inside its block. -/
theorem Rep.within (h : Rep P B s g) (hb : b ∈ g.regions) (ho : o ∈ objectsOf s.pool.objectSize b) :
    b.1 + regionHeaderSize ≤ o ∧ o + s.pool.objectSize ≤ blockEnd b :=
  object_within (h.orders b hb) ho

/-- Different objects do not overlap. -/
theorem Rep.objects_apart (h : Rep P B s g) (ho : o ∈ objects s.pool.objectSize g.regions)
    (ho' : o' ∈ objects s.pool.objectSize g.regions) (hne : o ≠ o') :
    o + s.pool.objectSize ≤ o' ∨ o' + s.pool.objectSize ≤ o := by
  obtain ⟨b, hb, hob⟩ := mem_objects.mp ho
  obtain ⟨c, hc, hoc⟩ := mem_objects.mp ho'
  by_cases hbc : b = c
  · subst hbc
    exact object_apart hob hoc hne
  · have h1 := h.within hb hob
    have h2 := h.within hc hoc
    rcases h.apart hb hc hbc with hle | hle
    · omega
    · omega

/-- The objects are different. -/
theorem Rep.nodup_objects (h : Rep P B s g) : (objects s.pool.objectSize g.regions).Nodup := by
  have hwide := h.wide
  unfold minObjectSize at hwide
  refine List.nodup_flatMap.mpr ⟨fun b _ => nodup_objectsFrom (by omega), ?_⟩
  refine (List.nodup_cons.mp h.nodup).2.imp_of_mem ?_
  intro b c hb hc hne o hob hoc
  have h1 := h.within hb hob
  have h2 := h.within hc hoc
  rcases h.apart hb hc hne with hle | hle
  · omega
  · omega

/-- A live object is an object of the pool. -/
theorem Rep.live_object (h : Rep P B s g) (ho : o ∈ g.live) : o ∈ objects s.pool.objectSize g.regions :=
  h.perm.subset (List.mem_append_left _ ho)

/-- A free object is an object of the pool. -/
theorem Rep.free_object (h : Rep P B s g) (ho : o ∈ g.free) : o ∈ objects s.pool.objectSize g.regions :=
  h.perm.subset (List.mem_append_right _ ho)

/-- Every object is in one place only. -/
theorem Rep.nodup_places (h : Rep P B s g) : (g.live ++ g.free).Nodup := h.perm.nodup_iff.mpr h.nodup_objects

/-- No object is both live and free. -/
theorem Rep.live_ne_free (h : Rep P B s g) (ho : o ∈ g.live) (ho' : o' ∈ g.free) : o ≠ o' :=
  (List.nodup_append.mp h.nodup_places).2.2 o ho o' ho'

/-- No object is null. -/
theorem Rep.object_ne_zero (h : Rep P B s g) (ho : o ∈ objects s.pool.objectSize g.regions) : o ≠ 0 := by
  obtain ⟨b, hb, hob⟩ := mem_objects.mp ho
  have hbounds := h.within hb hob
  unfold regionHeaderSize at hbounds
  omega

/-- The address of an object is a word. -/
theorem Rep.object_lt (h : Rep P B s g) (ho : o ∈ objects s.pool.objectSize g.regions) : o < 2 ^ 64 := by
  obtain ⟨b, hb, hob⟩ := mem_objects.mp ho
  have hbounds := h.within hb hob
  have hend := P.end_le h.holds b (Rep.mem_blocks hb)
  have hwide := h.wide
  unfold minObjectSize at hwide
  omega

/-- The head of the free list is a word. -/
theorem Rep.freeList_lt (h : Rep P B s g) : s.pool.freeList < 2 ^ 64 := by
  by_cases h0 : s.pool.freeList = 0
  · rw [h0]
    norm_num
  · exact h.object_lt (h.free_object (h.list.head_mem h0))

/-- A header and an object have no byte in common. -/
theorem Rep.header_apart (h : Rep P B s g) (hb : b ∈ g.regions) (ho : o ∈ objects s.pool.objectSize g.regions) :
    b.1 + regionHeaderSize ≤ o ∨ o + s.pool.objectSize ≤ b.1 := by
  obtain ⟨c, hc, hoc⟩ := mem_objects.mp ho
  have hbounds := h.within hc hoc
  have hlt := lt_blockEnd b
  by_cases hbc : b = c
  · subst hbc
    exact Or.inl hbounds.1
  · have hpos : 0 < 2 ^ b.2 := Nat.two_pow_pos b.2
    unfold regionHeaderSize at hbounds ⊢
    rcases h.apart hb hc hbc with hle | hle
    · unfold blockEnd pageSize at hle
      omega
    · omega

/-- The bytes of an object lie in a block of the pool. -/
theorem Rep.inBlock_object (h : Rep P B s g) (ho : o ∈ objects s.pool.objectSize g.regions) {x : ℕ} (h1 : o ≤ x)
    (h2 : x < o + s.pool.objectSize) : ∃ b ∈ blocks B s.page g.regions, InBlock b x := by
  obtain ⟨b, hb, hob⟩ := mem_objects.mp ho
  have hbounds := h.within hb hob
  refine ⟨b, Rep.mem_blocks hb, ?_, ?_⟩
  · omega
  · exact lt_of_lt_of_le h2 hbounds.2

/-- A call of the page allocator, which leaves the held blocks alone. -/
theorem Rep.same (h : Rep P B s g) {M : Machine A} (hholds : P.Holds M (blocks B s.page g.regions))
    (hmem : ∀ b ∈ blocks B s.page g.regions, ∀ x, InBlock b x → M.mem x = s.mem x) :
    Rep P B { s with toMachine := M } g := by
  refine ⟨h.wide, h.orders, hholds, h.nodup, h.fresh, ?_, ?_, h.perm, h.total, h.count⟩
  · refine h.chain.congr fun a ha => load_congr fun x hx => ?_
    obtain ⟨b, hb, rfl⟩ := List.mem_map.mp ha
    have hpos : 0 < 2 ^ b.2 := Nat.two_pow_pos b.2
    obtain ⟨hx1, hx2⟩ := hx
    refine hmem b (Rep.mem_blocks hb) x ⟨by omega, ?_⟩
    unfold pageSize
    omega
  · refine h.list.congr fun o ho => load_congr fun x hx => ?_
    have hwide := h.wide
    unfold minObjectSize at hwide
    obtain ⟨b, hb, hin⟩ := h.inBlock_object (h.free_object ho) hx.1 (hx.2.trans_le (by omega))
    exact hmem b hb x hin

end facts

end PrometheusKernel.Pool
