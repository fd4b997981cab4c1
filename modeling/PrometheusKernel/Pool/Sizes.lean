import PrometheusKernel.Pool.Conservation

/-!
# How many objects a growth adds

`pool_grow` counts the pages for the objects, but not the header of the region, and its search for an order stops
at 10. So the objects asked for may not fit into the block, by one.

* A pool starts with the objects that were asked for unless they leave less than 16 bytes of the block free or do
  not fit into 4 MiB (`starts_full_iff`). With 64 objects of 64 bytes, one is missing (`one_object_short`).
* A pool that grows by a single object of the size of a block gets none, and `pool_alloc` pops the empty list.
  Otherwise `pool_alloc` is safe (`never_pops_empty`). Objects of a page, one at a time, reach it
  (`pops_empty_list`). Object sizes above `2 ^ 64 - 8` are rounded up to 0, and `pool_grow` divides by it.
-/

namespace PrometheusKernel.Pool

open ByteMem LinkedList Buddy Slab Interleaving

/-! ### The order of a region -/

section order

variable {count size : ℕ}

/-- The loop stops at the first order with enough pages, or at the last order. -/
theorem growOrder_spec (pages n order : ℕ) :
    (growOrder pages n order = order + n ∨ pages ≤ 2 ^ growOrder pages n order) ∧
      ∀ j, order ≤ j → j < growOrder pages n order → 2 ^ j < pages := by
  induction n generalizing order with
  | zero =>
      refine ⟨Or.inl rfl, fun j h1 h2 => ?_⟩
      exact absurd h2 (not_lt.mpr h1)
  | succ n ih =>
      unfold growOrder
      rw [Nat.one_shiftLeft]
      split_ifs with hlt
      · obtain ⟨hstop, hbelow⟩ := ih (order + 1)
        refine ⟨hstop.imp_left fun heq => by omega, fun j h1 h2 => ?_⟩
        rcases Nat.eq_or_lt_of_le h1 with rfl | h1
        · exact hlt
        · exact hbelow j h1 h2
      · refine ⟨Or.inr (not_lt.mp hlt), fun j h1 h2 => ?_⟩
        exact absurd h2 (not_lt.mpr h1)

/-- The pages for the objects, where the size does not wrap; the count is cut to 32 bits. -/
theorem pagesNeeded_eq (h : count * size < 2 ^ 63) :
    pagesNeeded count size = (count * size + 4095) / 4096 % 2 ^ 32 := by
  unfold pagesNeeded pageSize
  dsimp only
  rw [Word.mul_eq (by omega), Word.add_eq (by omega), Word.sub_eq (by omega) (by omega)]
  rfl

/-- The order that `pool_grow` takes is 10, or its block has the pages that were counted. -/
theorem orderFor_top (h : count * size < 2 ^ 63) :
    orderFor count size = 10 ∨ (count * size + 4095) / 4096 % 2 ^ 32 ≤ 2 ^ orderFor count size := by
  rw [← pagesNeeded_eq h]
  have hspec := (growOrder_spec (pagesNeeded count size) maxOrder 0).1
  rwa [Nat.zero_add] at hspec

/-- Smaller blocks have fewer pages than were counted. -/
theorem lt_of_lt_orderFor (h : count * size < 2 ^ 63) {j : ℕ} (hj : j < orderFor count size) :
    2 ^ j < (count * size + 4095) / 4096 % 2 ^ 32 := by
  rw [← pagesNeeded_eq h]
  exact (growOrder_spec (pagesNeeded count size) maxOrder 0).2 j (Nat.zero_le j) hj

/-- A region has `n` objects exactly if they fit behind its header. -/
theorem le_objectsInRegion_iff {k n : ℕ} (hk : k ≤ 10) (hsize : 0 < size) (hn : 0 < n) :
    n ≤ objectsInRegion k size ↔ n * size + 16 ≤ 4096 * 2 ^ k := by
  have hpos : 0 < 2 ^ k := Nat.two_pow_pos k
  have hmul : 0 < n * size := Nat.mul_pos hn hsize
  rw [objectsInRegion_eq hk, Nat.le_div_iff_mul_le hsize]
  unfold pageSize regionHeaderSize
  omega

/-- The block that `pool_grow` takes for `count` objects has room for all of them. -/
theorem count_le_iff (hcount : 0 < count) (hsize : 0 < size) (h : count * size < 2 ^ 63) :
    count ≤ objectsInRegion (orderFor count size) size ↔
      count * size + 16 ≤ 2 ^ 22 ∧ ∀ k ≤ 10, 4096 * 2 ^ k < count * size + 16 → 4096 * 2 ^ k < count * size := by
  obtain ⟨k, hk⟩ : ∃ k, orderFor count size = k := ⟨_, rfl⟩
  have hle : k ≤ 10 := hk ▸ orderFor_le count size
  have htop := orderFor_top h
  have hbelow : ∀ j < k, _ := fun j hj => lt_of_lt_orderFor h (hk ▸ hj)
  rw [le_objectsInRegion_iff (hk ▸ hle) hsize hcount]
  rw [hk] at htop ⊢
  have hpow : 2 ^ k ≤ 2 ^ 10 := Nat.pow_le_pow_right (by norm_num) hle
  constructor
  · intro hfits
    refine ⟨by omega, fun j _ hj => ?_⟩
    have hlt : j < k := by
      by_contra hcon
      have hmono : 2 ^ k ≤ 2 ^ j := Nat.pow_le_pow_right (by norm_num) (not_lt.mp hcon)
      omega
    have hpages := hbelow j hlt
    omega
  · rintro ⟨hmax, hroom⟩
    by_contra hcon
    have hlt := hroom k hle (by omega)
    rcases htop with rfl | hpages
    · omega
    · omega

/-- The least block that holds a header and an object is not too small for the pages that are counted. -/
def RoomForOne (size count : ℕ) : Prop :=
  size + 16 ≤ 2 ^ 22 ∧ ∀ j < 10, 4096 * 2 ^ j < size + 16 → 2 ^ j < (count * size + 4095) / 4096 % 2 ^ 32

instance : Decidable (RoomForOne size count) :=
  inferInstanceAs (Decidable (size + 16 ≤ 2 ^ 22 ∧ ∀ j < 10, 4096 * 2 ^ j < size + 16 →
    2 ^ j < (count * size + 4095) / 4096 % 2 ^ 32))

/-- A growth adds an object. -/
theorem roomForOne_iff (hcount : count < 2 ^ 32) (hsize : 0 < size) :
    0 < objectsInRegion (orderFor count size) size ↔ RoomForOne size count := by
  obtain ⟨k, hk⟩ : ∃ k, orderFor count size = k := ⟨_, rfl⟩
  have hle : k ≤ 10 := hk ▸ orderFor_le count size
  have hpow : 2 ^ k ≤ 2 ^ 10 := Nat.pow_le_pow_right (by norm_num) hle
  have hone := le_objectsInRegion_iff hle hsize one_pos
  rw [one_mul, Nat.one_le_iff_ne_zero, ← Nat.pos_iff_ne_zero] at hone
  have hmul : size ≤ 2 ^ 22 → count * size < 2 ^ 63 := by
    intro hmax
    have hprod : count * size ≤ 2 ^ 32 * 2 ^ 22 := Nat.mul_le_mul hcount.le hmax
    omega
  rw [hk, hone]
  unfold RoomForOne
  constructor
  · intro hfits
    have h := hmul (by omega)
    refine ⟨by omega, fun j _ hj => lt_of_lt_orderFor h ?_⟩
    rw [hk]
    by_contra hcon
    have hmono : 2 ^ k ≤ 2 ^ j := Nat.pow_le_pow_right (by norm_num) (not_lt.mp hcon)
    omega
  · rintro ⟨hmax, hroom⟩
    have htop := orderFor_top (hmul (by omega))
    rw [hk] at htop
    by_contra hcon
    rcases htop with rfl | hpages
    · omega
    · rcases Nat.eq_or_lt_of_le hle with rfl | hlt
      · omega
      · exact absurd (hroom k hlt (by omega)) (not_lt.mpr hpages)

end order

/-! ### A new pool -/

variable {A : Type} {allocPages : ℕ → Machine A → ℕ × Machine A} {P : Holding A} {B : Set (ℕ × ℕ)} {s : State A}
  {g : Ghost} {M : Machine A}

/-- The pool holds `count` objects, and hands them out without growing. -/
def StartsFull (allocPages : ℕ → Machine A → ℕ × Machine A) (count : ℕ) (s : State A) : Prop :=
  count ≤ s.pool.totalObjects ∧
    ∃ c, exec (step allocPages) (opened s) (List.replicate count .alloc) = some c ∧ c.live.length = count ∧
      c.state.toMachine = s.toMachine ∧ c.state.pool.totalObjects = s.pool.totalObjects

/-- Calls of `pool_alloc` while the free list lasts. -/
theorem Rep.pops (h : Rep P B s g) {n : ℕ} (hn : n ≤ g.free.length) (live : List ℕ) :
    ∃ c, exec (step allocPages) ⟨s, live⟩ (List.replicate n .alloc) = some c ∧ c.live.length = live.length + n ∧
      c.state.toMachine = s.toMachine ∧ c.state.pool.totalObjects = s.pool.totalObjects := by
  induction n generalizing s g live with
  | zero => exact ⟨_, rfl, rfl, rfl, rfl⟩
  | succ n ih =>
      obtain ⟨o, l, hol⟩ : ∃ o l, g.free = o :: l :=
        List.exists_cons_of_ne_nil (List.length_pos_iff.mp (Nat.lt_of_lt_of_le (Nat.succ_pos n) hn))
      rw [hol, List.length_cons] at hn
      have hne : s.pool.freeList ≠ 0 := by
        intro h0
        rw [h.free_eq_nil_iff.mpr h0] at hol
        exact List.cons_ne_nil o l hol.symm
      obtain ⟨ho, -, hrep⟩ := h.pop hol
      have ho0 := h.object_ne_zero (h.free_object (hol ▸ List.mem_cons_self))
      have hstep : step allocPages ⟨s, live⟩ .alloc = some ⟨(popChunk s).2, o :: live⟩ := by
        simp only [step, poolAlloc, if_neg hne, Option.map_some, ho, if_neg ho0]
      obtain ⟨c, hexec, hlen, hmachine, htotal⟩ := @ih _ _ hrep (Nat.le_of_succ_le_succ hn) (o :: live)
      refine ⟨c, ?_, ?_, hmachine.trans (s.setFree_toMachine _ _), htotal.trans (s.setFree_totalObjects _ _)⟩
      · unfold Interleaving.exec at hexec ⊢
        rw [List.replicate_succ, List.foldlM_cons, hstep]
        exact hexec
      · rw [hlen, List.length_cons]
        omega

/-- For every size and count, and every behaviour of the page allocators: the pool that `pool_create` returns holds
the objects that were asked for, and hands them out without growing, exactly when they fit into 4 MiB with the header
of the region and no block of `2 ^ k` pages holds the objects but not the header too. -/
theorem starts_full_iff (P : Holding A) {allocReclaimable allocUnmovable : ℕ → Machine A → ℕ × Machine A}
    (hR : P.Allocator allocReclaimable) (hU : P.Allocator allocUnmovable) (freePages : ℕ → ℕ → Machine A → Machine A)
    {M : Machine A} {B : Set (ℕ × ℕ)} (hM : P.Holds M B) {name size count : ℕ} (hsize : size < 2 ^ 64)
    (hcount : 0 < count) {s : State A}
    (hcreate : poolCreate allocReclaimable allocUnmovable freePages M name size count = some (.ok s)) :
    StartsFull allocReclaimable count s ↔
      count * ((max size 8 + 7) / 8 * 8) + 16 ≤ 2 ^ 22 ∧
        ¬ ∃ k ≤ 10, count * ((max size 8 + 7) / 8 * 8) ≤ 4096 * 2 ^ k ∧
          4096 * 2 ^ k < count * ((max size 8 + 7) / 8 * 8) + 16 := by
  rcases create_cases hR hU hM freePages name hsize count with
    ⟨M', hcall⟩ | ⟨hcall, -⟩ | ⟨s', b, hcall, hle, hb, hobj, hgrow, hrep⟩
  · rw [hcall] at hcreate
    exact absurd hcreate (by simp)
  · rw [hcall] at hcreate
    exact absurd hcreate nofun
  obtain rfl : s' = s := by
    rw [hcall, Option.some.injEq, Except.ok.injEq] at hcreate
    exact hcreate
  obtain ⟨z, hz⟩ : ∃ z, (newPool size count).objectSize = z := ⟨_, rfl⟩
  have hz' : (max size 8 + 7) / 8 * 8 = z := by
    rw [← hz, newPool_objectSize, Nat.mod_eq_of_lt (by omega)]
  rw [hz] at hb hobj hrep
  rw [hz']
  have hwide := hrep.wide
  unfold minObjectSize at hwide
  have hz0 : 0 < z := by omega
  have htotal := total_created hrep hobj
  rw [hb] at htotal
  have hstart : StartsFull allocReclaimable count s' ↔ count ≤ objectsInRegion (orderFor count z) z := by
    unfold StartsFull
    rw [htotal]
    refine and_iff_left_of_imp fun hfits => ?_
    have hfree := grown_nil_length z b
    rw [hb] at hfree
    obtain ⟨c, hexec, hlen, hmachine, hsame⟩ := hrep.pops (hfree ▸ hfits) []
    refine ⟨c, hexec, ?_, hmachine, hsame.trans htotal⟩
    rw [hlen, List.length_nil, Nat.zero_add]
  have hneg : (¬ ∃ k ≤ 10, count * z ≤ 4096 * 2 ^ k ∧ 4096 * 2 ^ k < count * z + 16) ↔
      ∀ k ≤ 10, 4096 * 2 ^ k < count * z + 16 → 4096 * 2 ^ k < count * z := by
    constructor
    · intro hnot k hk hlt
      exact not_le.mp fun hcon => hnot ⟨k, hk, hcon, hlt⟩
    · rintro hall ⟨k, hk, hle, hlt⟩
      exact absurd (hall k hk hlt) (not_lt.mpr hle)
  rw [hstart, hneg]
  rcases Nat.lt_or_ge (count * z) (2 ^ 63) with hsmall | hlarge
  · exact count_le_iff hcount hz0 hsmall
  · -- so many bytes fit into no block
    refine iff_of_false (fun hfits => ?_) fun hcon => ?_
    · rw [le_objectsInRegion_iff (orderFor_le count z) hz0 hcount] at hfits
      have hpow : 2 ^ orderFor count z ≤ 2 ^ 10 := Nat.pow_le_pow_right (by norm_num) (orderFor_le count z)
      omega
    · omega

/-- Three objects of 1024 bytes for two that were asked for. -/
theorem starts_full_sample :
    StartsFull bumpAlloc 2 (bumpPool 1024 2 0 3) ↔
      2 * ((max 1024 8 + 7) / 8 * 8) + 16 ≤ 2 ^ 22 ∧
        ¬ ∃ k ≤ 10, 2 * ((max 1024 8 + 7) / 8 * 8) ≤ 4096 * 2 ^ k ∧
          4096 * 2 ^ k < 2 * ((max 1024 8 + 7) / 8 * 8) + 16 :=
  starts_full_iff bump bumpAlloc_allocator bumpAlloc_allocator bumpFree
    (bump_start (m := emptyMachine) (by decide) (by decide))
    (by norm_num) (by norm_num) create_sample

/-- 64 objects of 64 bytes fill a page, and the header of the region takes the room of one. -/
theorem one_object_short :
    ¬ ∀ (size count : ℕ) (s : State ℕ), 1 ≤ size → 1 ≤ count → bumpCreate size count = some (.ok s) →
      StartsFull bumpAlloc count s := by
  intro h
  have hcreate : bumpCreate 64 64 = some (.ok (bumpPool 64 64 0 63)) :=
    bumpCreate_eq (by norm_num) (by norm_num) (z := 64) (by decide +kernel) (by norm_num) (by decide +kernel)
      (by decide +kernel)
  have hfull := h 64 64 _ (by norm_num) (by norm_num) hcreate
  have htotal : (bumpPool 64 64 0 63).pool.totalObjects = 63 := rfl
  have hle := hfull.1
  rw [htotal] at hle
  exact absurd hle (by norm_num)

/-! ### Popping -/

/-- `pool_alloc` returns null and leaves the pool, or it takes a chunk off a list that is not empty, with a count that
is not 0. -/
def PopsSafely (allocPages : ℕ → Machine A → ℕ × Machine A) (s : State A) : Prop :=
  (∃ s', poolAlloc allocPages s = some (0, s') ∧ s'.pool = s.pool) ∨
    ∃ s₁, (s₁ = s ∨ poolGrow allocPages s s.pool.growCount = some (0, s₁)) ∧ s₁.pool.freeList ≠ 0 ∧
      0 < s₁.pool.freeObjects ∧ poolAlloc allocPages s = some (popChunk s₁)

/-- A list that is not empty has a count that is not 0. -/
theorem Rep.count_pos (h : Rep P B s g) (hfree : g.free ≠ [])
    (hfew : (objects s.pool.objectSize g.regions).length < 2 ^ 32) : 0 < s.pool.freeObjects := by
  have hlen := h.perm.length_eq
  have hpos := List.length_pos_iff.mpr hfree
  rw [List.length_append] at hlen
  rw [h.count, Nat.mod_eq_of_lt (by omega)]
  exact hpos

/-- Where growing adds objects `pool_alloc` does not pop from an empty list. -/
theorem Inv.popsSafely {c : Run A} (h : Inv P B c g) (hfew : Few c g) (hR : P.Allocator allocPages)
    (hsome : GrowsBySome c) (hsmall : StaysSmall allocPages c .alloc) : PopsSafely allocPages c.state := by
  rcases h.rep.alloc hR with ⟨M, hcall, -⟩ | ⟨hfree, hcall⟩ | ⟨s', b, h0, hgrow, hcall, hb, hsame, hrep⟩
  · exact Or.inl ⟨_, hcall, rfl⟩
  · refine Or.inr ⟨c.state, Or.inl rfl, fun hz => hfree (h.rep.free_eq_nil_iff.mpr hz), ?_, hcall⟩
    exact h.rep.count_pos hfree hfew
  · have hfree : (g.grown c.state.pool.objectSize b).free ≠ [] := by
      apply grown_ne_nil
      rw [hb]
      exact hsome
    refine Or.inr ⟨s', Or.inr hgrow, fun hz => hfree (hrep.free_eq_nil_iff.mpr hz), ?_, hcall⟩
    exact hrep.count_pos hfree (h.few_grown hb hsame hfew (hsmall s' h0 hgrow))

/-- For every size and count, every run of calls and every behaviour of the page allocators: if the object size is not
rounded up to 0 and there is room for an object in each growth, `pool_create` returns, every call returns, and as long
as the pool has fewer than `2 ^ 32` objects `pool_alloc` never pops an empty list. -/
theorem never_pops_empty (P : Holding A) {allocReclaimable allocUnmovable : ℕ → Machine A → ℕ × Machine A}
    (hR : P.Allocator allocReclaimable) (hU : P.Allocator allocUnmovable) (freePages : ℕ → ℕ → Machine A → Machine A)
    {M : Machine A} {B : Set (ℕ × ℕ)} (hM : P.Holds M B) {name size count : ℕ} (hsize : size ≤ 2 ^ 64 - 8)
    (hcount : count < 2 ^ 32) (hroom : RoomForOne ((max size 8 + 7) / 8 * 8) (max (count / 2) 1)) :
    ∃ r, poolCreate allocReclaimable allocUnmovable freePages M name size count = some r ∧
      ∀ s, r = .ok s → ∀ ops, Guarded (step allocReclaimable)
          (fun c op => Valid c op ∧ StaysSmall allocReclaimable c op) (opened s) ops →
        ∃ c, exec (step allocReclaimable) (opened s) ops = some c ∧
          (StaysSmall allocReclaimable c .alloc → PopsSafely allocReclaimable c.state) := by
  have h64 : size < 2 ^ 64 := by omega
  rcases create_cases hR hU hM freePages name h64 count with
    ⟨M', hcall⟩ | ⟨hcall, hlarge⟩ | ⟨s, b, hcall, hle, hb, hobj, hgrow, hrep⟩
  · exact ⟨_, hcall, fun s hs => absurd hs (by simp)⟩
  · exact absurd hsize (not_le.mpr hlarge)
  refine ⟨_, hcall, fun s' hs' ops hg => ?_⟩
  obtain rfl : s = s' := Except.ok.inj hs'
  obtain ⟨z, hz⟩ : ∃ z, (max size 8 + 7) / 8 * 8 = z := ⟨_, rfl⟩
  obtain ⟨n, hn⟩ : ∃ n, max (count / 2) 1 = n := ⟨_, rfl⟩
  have hz' : s.pool.objectSize = z := by
    rw [hobj, newPool_objectSize, Nat.mod_eq_of_lt (by omega)]
    exact hz
  have hn' : s.pool.growCount = n := by
    rw [hgrow, ← hn]
    unfold newPool
    dsimp only
    split_ifs with h0
    · rw [h0]
      rfl
    · exact (max_eq_left (Nat.pos_of_ne_zero h0)).symm
  have hwide := hrep.wide
  unfold minObjectSize at hwide
  rw [hz, hn] at hroom
  have hsome := (roomForOne_iff (by omega) (by omega)).mpr hroom
  -- the growth is the same in every state of the run
  have grows : ∀ c : Run A, SamePool s c.state → GrowsBySome c := by
    intro c hsame
    unfold GrowsBySome
    rw [hsame.objectSize, hsame.growCount, hz', hn']
    exact hsome
  have hinv : Inv P B (opened s) _ := ⟨hrep, rfl⟩
  obtain ⟨c, hexec, g, h, hfew, hsame⟩ := exec_total
    (I := fun d => ∃ g', Inv P B d g' ∧ Few d g' ∧ SamePool s d.state)
    (fun d op ⟨g', h', hf, hsame⟩ ⟨hv, hsmall⟩ => by
      have hadds : AddsObjects allocReclaimable d op := by
        cases op with
        | alloc => exact fun _ _ _ => grows d hsame
        | free object => trivial
        | write addr byte => trivial
      obtain ⟨d', g'', hstep, h'', hsame', hf'⟩ := h'.step hR hv hadds
      exact ⟨d', hstep, g'', h'', hf' hsmall hf, hsame.trans hsame'⟩)
    ⟨_, hinv, few_created hrep hobj, SamePool.refl s⟩ hg
  exact ⟨c, hexec, fun hsmall => h.popsSafely hfew hR (grows c hsame) hsmall⟩

/-- Objects of 1024 bytes: a growth after three of them. -/
theorem never_pops_empty_sample :
    ∃ r, poolCreate bumpAlloc bumpAlloc bumpFree emptyMachine 1 1024 2 = some r ∧
      ∀ s, r = .ok s → ∀ ops, Guarded (step bumpAlloc) (fun c op => Valid c op ∧ StaysSmall bumpAlloc c op)
          (opened s) ops →
        ∃ c, exec (step bumpAlloc) (opened s) ops = some c ∧
          (StaysSmall bumpAlloc c .alloc → PopsSafely bumpAlloc c.state) :=
  never_pops_empty bump bumpAlloc_allocator bumpAlloc_allocator bumpFree
    (bump_start (m := emptyMachine) (by decide) (by decide))
    (by norm_num) (by norm_num) (by decide +kernel)

/-- A pool of objects of a page, one at a time: a region has no room for one, and the first `pool_alloc` takes the
chunk at address 0 off the empty list. -/
theorem pops_empty_list :
    ¬ ∀ (size count : ℕ), 1 ≤ size → 1 ≤ count →
      ∃ r, bumpCreate size count = some r ∧ ∀ s, r = .ok s → PopsSafely bumpAlloc s := by
  intro h
  obtain ⟨r, hr, hsafe⟩ := h 4096 1 (by norm_num) (by norm_num)
  have hcreate : bumpCreate 4096 1 = some (.ok (bumpPool 4096 1 0 0)) :=
    bumpCreate_eq (by norm_num) (by norm_num) (z := 4096) (by decide +kernel) (by norm_num) (by decide +kernel)
      (by decide +kernel)
  have hhead : (bumpPool 4096 1 0 0).pool.freeList = 0 := rfl
  have hgrown : (poolGrow bumpAlloc (bumpPool 4096 1 0 0) 1).map (fun res => res.2.pool.freeList) = some 0 := by
    decide +kernel
  have hpopped : (poolAlloc bumpAlloc (bumpPool 4096 1 0 0)).map (fun res => res.2.pool.freeObjects)
      = some (2 ^ 32 - 1) := by
    decide +kernel
  rcases hsafe _ (Option.some.inj (hr.symm.trans hcreate)) with ⟨s', hcall, hsame⟩ | ⟨s₁, hs₁, hne, -, -⟩
  · rw [hcall, Option.map_some, hsame, Option.some.injEq] at hpopped
    have hzero : (bumpPool 4096 1 0 0).pool.freeObjects = 0 := rfl
    rw [hzero] at hpopped
    exact absurd hpopped (by norm_num)
  · rcases hs₁ with rfl | hcall
    · exact hne hhead
    · have hcount : (bumpPool 4096 1 0 0).pool.growCount = 1 := rfl
      rw [hcount] at hcall
      rw [hcall, Option.map_some, Option.some.injEq] at hgrown
      exact hne hgrown

end PrometheusKernel.Pool
