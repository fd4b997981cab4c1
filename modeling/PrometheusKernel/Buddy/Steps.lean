import PrometheusKernel.Buddy.Rep

/-!
# What `buddy_alloc_pages` and `buddy_free_pages` do

The loops of the two functions as sequences of moves of the represented configuration. Both keep
one block in hand: it is a used block of the configuration, and `U` is the set of the other used
blocks, which neither loop changes.

* `splitLoop_spec`: the split loop keeps the lower half in hand and frees the upper halves.
* `mergeLoop_spec`: the merge loop swallows free buddies; when it stops, the buddy of the block in
  hand is not free. Whatever stops it (range check, bitmap, search), the reason is the same.
* `Rep.alloc`, `Rep.free`: the two functions on the unmovable zone.

`Frame r n U s s'` is what no step changes: the bitmap, the page counters, and every byte outside
the pages that `U` leaves uncovered, that is, the contents of the used blocks and everything
outside the region.
-/

namespace PrometheusKernel.Buddy

open ByteMem LinkedList BuddySystem

/-! ### The bitmap -/

/-- The test of a bit in a byte. -/
theorem testByte_eq (b : UInt8) {q : ℕ} (hq : q < 8) :
    (((b >>> UInt8.ofNat q) &&& 1) != 0) = b.toNat.testBit q := by
  have h : ((b >>> UInt8.ofNat q) &&& 1).toNat = 1 &&& (b.toNat >>> q) := by
    rw [UInt8.toNat_and, UInt8.toNat_shiftRight, UInt8.toNat_ofNat', Nat.and_comm,
      show q % 2 ^ 8 % 8 = q by omega]
    rfl
  unfold Nat.testBit
  rw [← h]
  by_cases h0 : b >>> UInt8.ofNat q &&& 1 = 0
  · simp [h0]
  · have hne : (b >>> UInt8.ofNat q &&& 1).toNat ≠ 0 :=
      fun e => h0 (UInt8.toNat_inj.mp (by simpa using e))
    rw [bne_iff_ne.mpr h0, bne_iff_ne.mpr hne]

/-- The bits of a byte after one of them is set. -/
theorem testBit_orByte (b : UInt8) {j q : ℕ} (hj : j < 8) (hq : q < 8) :
    (b ||| (1 <<< UInt8.ofNat j)).toNat.testBit q = (b.toNat.testBit q || decide (j = q)) := by
  rw [UInt8.toNat_or, Nat.testBit_or, UInt8.toNat_shiftLeft, UInt8.toNat_ofNat',
    show j % 2 ^ 8 % 8 = j by omega, Nat.testBit_mod_two_pow]
  simp only [UInt8.toNat_one, Nat.one_shiftLeft, Nat.testBit_two_pow, hq, decide_true,
    Bool.true_and]

/-- The bits of a byte after one of them is cleared. -/
theorem testBit_andNotByte (b : UInt8) {j q : ℕ} (hj : j < 8) (hq : q < 8) :
    (b &&& ~~~(1 <<< UInt8.ofNat j)).toNat.testBit q = (b.toNat.testBit q && !decide (j = q)) := by
  have hlt : 1 <<< j % 2 ^ 8 < 2 ^ 8 := Nat.mod_lt _ (by norm_num)
  have hbit := Nat.testBit_two_pow_sub_succ hlt q
  rw [UInt8.toNat_and, Nat.testBit_and, UInt8.toNat_not, UInt8.toNat_shiftLeft,
    UInt8.toNat_ofNat', show j % 2 ^ 8 % 8 = j by omega, UInt8.toNat_one, UInt8.size,
    Nat.sub_sub, Nat.add_comm 1, hbit, Nat.testBit_mod_two_pow]
  simp only [Nat.one_shiftLeft, Nat.testBit_two_pow, hq, decide_true, Bool.true_and]

/-- A bit that is set after `set_allocation_bit` was set before, or is the one. -/
theorem testAllocationBit_set {bm : ℕ → UInt8} {i p : ℕ}
    (h : testAllocationBit (setAllocationBit bm i) p = true) :
    p = i ∨ testAllocationBit bm p = true := by
  unfold testAllocationBit setAllocationBit at h
  unfold testAllocationBit
  by_cases hp : p / 8 < bitmapSize
  · simp only [hp, if_true] at h ⊢
    by_cases hi : i / 8 < bitmapSize
    · simp only [hi, if_true] at h
      by_cases hpi : p / 8 = i / 8
      · rw [hpi, Function.update_self, testByte_eq _ (Nat.mod_lt _ (by norm_num)),
          testBit_orByte _ (Nat.mod_lt _ (by norm_num)) (Nat.mod_lt _ (by norm_num)),
          Bool.or_eq_true, decide_eq_true_eq] at h
        rcases h with h | h
        · rw [hpi, testByte_eq _ (Nat.mod_lt _ (by norm_num))]
          exact Or.inr h
        · exact Or.inl (by omega)
      · rw [Function.update_of_ne hpi] at h
        exact Or.inr h
    · simp only [hi, if_false] at h
      exact Or.inr h
  · simp only [hp, if_false] at h
    exact absurd h (by simp)

/-- A bit that is set after `clear_allocation_bit` was set before, and is not the one. -/
theorem testAllocationBit_clear {bm : ℕ → UInt8} {i p : ℕ}
    (h : testAllocationBit (clearAllocationBit bm i) p = true) :
    p ≠ i ∧ testAllocationBit bm p = true := by
  unfold testAllocationBit clearAllocationBit at h
  unfold testAllocationBit
  by_cases hp : p / 8 < bitmapSize
  · simp only [hp, if_true] at h ⊢
    by_cases hi : i / 8 < bitmapSize
    · simp only [hi, if_true] at h
      by_cases hpi : p / 8 = i / 8
      · rw [hpi, Function.update_self, testByte_eq _ (Nat.mod_lt _ (by norm_num)),
          testBit_andNotByte _ (Nat.mod_lt _ (by norm_num)) (Nat.mod_lt _ (by norm_num)),
          Bool.and_eq_true, Bool.not_eq_true', decide_eq_false_iff_not] at h
        rw [hpi, testByte_eq _ (Nat.mod_lt _ (by norm_num))]
        exact ⟨fun e => h.2 (by rw [e]), h.1⟩
      · rw [Function.update_of_ne hpi] at h
        exact ⟨fun e => hpi (by rw [e]), h⟩
    · simp only [hi, if_false] at h
      exact ⟨fun e => hi (e ▸ hp), h⟩
  · simp only [hp, if_false] at h
    exact absurd h (by simp)

/-- A set bit marks the first page of a used block. -/
def BitsOk (bitmap : ℕ → UInt8) (U : Finset Block) : Prop :=
  ∀ p, testAllocationBit bitmap p = true → ∃ k, (p, k) ∈ U

/-- A page that is taken may have its bit set. -/
theorem BitsOk.set {bm : ℕ → UInt8} {U : Finset Block} (h : BitsOk bm U) (i k : ℕ) :
    BitsOk (setAllocationBit bm i) (insert (i, k) U) := by
  intro p hp
  rcases testAllocationBit_set hp with rfl | hp'
  · exact ⟨k, Finset.mem_insert_self _ _⟩
  · obtain ⟨l, hl⟩ := h p hp'
    exact ⟨l, Finset.mem_insert_of_mem hl⟩

/-- A page whose bit is cleared may be given back. -/
theorem BitsOk.clear {bm : ℕ → UInt8} {U : Finset Block} (h : BitsOk bm U) (i k : ℕ) :
    BitsOk (clearAllocationBit bm i) (U.erase (i, k)) := by
  intro p hp
  obtain ⟨hne, hp'⟩ := testAllocationBit_clear hp
  obtain ⟨l, hl⟩ := h p hp'
  exact ⟨l, Finset.mem_erase.mpr ⟨fun e => hne (Prod.mk.inj e).1, hl⟩⟩

/-! ### What no step changes -/

/-- The address `x` lies in no page below `n` that `U` leaves uncovered. -/
def Outside (r : Region) (n : ℕ) (U : Finset Block) (x : ℕ) : Prop :=
  ∀ p < n, coverage U p = 0 → x < r.addr p ∨ r.addr p + pageSize ≤ x

/-- The steps of an allocation or release with the used blocks `U` left alone. -/
structure Frame (r : Region) (n : ℕ) (U : Finset Block) (s s' : State) : Prop where
  bitmap : s'.pages.allocationBitmap = s.pages.allocationBitmap
  freePages : (s'.pages.zones .unmovable).freePages = (s.pages.zones .unmovable).freePages
  totalPages : (s'.pages.zones .unmovable).totalPages = (s.pages.zones .unmovable).totalPages
  mem : ∀ x, Outside r n U x → s'.mem x = s.mem x

/-- A step that does nothing. -/
theorem Frame.refl (r : Region) (n : ℕ) (U : Finset Block) (s : State) : Frame r n U s s :=
  ⟨rfl, rfl, rfl, fun _ _ => rfl⟩

/-- Steps one after the other. -/
theorem Frame.trans {r : Region} {n : ℕ} {U : Finset Block} {s₁ s₂ s₃ : State}
    (h₁ : Frame r n U s₁ s₂) (h₂ : Frame r n U s₂ s₃) : Frame r n U s₁ s₃ :=
  ⟨h₂.bitmap.trans h₁.bitmap, h₂.freePages.trans h₁.freePages,
    h₂.totalPages.trans h₁.totalPages, fun x hx => (h₂.mem x hx).trans (h₁.mem x hx)⟩

/-- `x` is not a byte of the node at `a`. -/
def OffNode (x a : ℕ) : Prop := x < a ∨ a + 16 ≤ x

/-- `list_add` writes into the new block and the old head only. -/
theorem listAdd_apply {m : Mem} {head block x : ℕ} (hb : OffNode x block)
    (hh : head ≠ 0 → OffNode x head) : (listAdd m head block).1 x = m x := by
  unfold OffNode at hb hh
  unfold listAdd
  have hbase : store 8 (store 8 m block head) (block + 8) 0 x = m x := by
    rw [store_apply_of_notMem (by simp only [Set.mem_Ico]; omega),
      store_apply_of_notMem (by simp only [Set.mem_Ico]; omega)]
  by_cases h0 : head = 0
  · simp only [h0, ne_eq, not_true, if_false] at hbase ⊢
    exact hbase
  · have := hh h0
    simp only [ne_eq, h0, not_false_eq_true, if_true]
    rw [store_apply_of_notMem (by simp only [Set.mem_Ico]; omega), hbase]

/-- `list_remove` writes into the block and its neighbours only. -/
theorem listRemove_apply {m : Mem} {head block x : ℕ} (hb : OffNode x block)
    (hp : blockPrev m block ≠ 0 → OffNode x (blockPrev m block) ∧ Sep (blockPrev m block) block)
    (hn : blockNext m block ≠ 0 → OffNode x (blockNext m block)) :
    (listRemove m head block).1 x = m x := by
  set m₁ := if blockPrev m block ≠ 0 then
    store 8 m (blockPrev m block) (blockNext m block) else m with hm₁
  have hx₁ : m₁ x = m x := by
    rw [hm₁]
    split_ifs with h0
    · have := (hp h0).1
      unfold OffNode at this
      exact store_apply_of_notMem (by simp only [Set.mem_Ico]; omega)
    · rfl
  have hn₁ : blockNext m₁ block = blockNext m block := by
    rw [hm₁]
    split_ifs with h0
    · have := (hp h0).2
      unfold Sep at this
      exact load_store_disjoint (by omega)
    · rfl
  have hmem : (listRemove m head block).1
      = store 8 (store 8 (if blockNext m₁ block ≠ 0 then
          store 8 m₁ (blockNext m₁ block + 8) (blockPrev m₁ block) else m₁) block 0)
          (block + 8) 0 := by
    simp only [listRemove, hm₁]
    split_ifs <;> rfl
  unfold OffNode at hb
  rw [hmem, store_apply_of_notMem (by simp only [Set.mem_Ico]; omega),
    store_apply_of_notMem (by simp only [Set.mem_Ico]; omega), hn₁]
  split_ifs with h0
  · have := hn h0
    unfold OffNode at this
    rw [store_apply_of_notMem (by simp only [Set.mem_Ico]; omega), hx₁]
  · exact hx₁

namespace Rep

variable {r : Region} {lost : ℕ → ℕ} {lists : ℕ → List ℕ} {n : ℕ} {S : BuddySystem n maxOrder}
  {s : State} {U : Finset Block}

/-- A byte outside the blocks that may change is in no node of theirs. -/
theorem offNode_of_outside {x i : ℕ} (hx : Outside r n U x) (hi : i < n) (hc : coverage U i = 0) :
    OffNode x (r.addr i) := by
  have := hx i hi hc
  unfold OffNode
  unfold pageSize at this
  omega

/-- A page of a free block is not covered by any used block. -/
theorem coverage_of_free (hU : U ⊆ S.used) {i k : ℕ} (hb : (i, k) ∈ S.free) :
    i < n ∧ coverage U i = 0 := by
  refine ⟨S.lt_of_ind (Or.inl hb) (ind_self (i, k)), ?_⟩
  by_contra hpos
  obtain ⟨c, hc, hci⟩ := exists_of_coverage_pos (Nat.pos_of_ne_zero hpos)
  have := S.not_meet hb (hU hc) (ind_self (i, k))
  simp only at this hci
  omega

/-- A byte outside the blocks that may change is in no node of a free list. -/
theorem offNode_of_mem (h : Rep r lost lists S s) (hU : U ⊆ S.used) {x k a : ℕ}
    (hx : Outside r n U x) (hk : k ≤ maxOrder) (ha : a ∈ (lists k).map r.addr) :
    OffNode x a := by
  obtain ⟨i, hi, rfl⟩ := List.mem_map.mp ha
  obtain ⟨hlt, hc⟩ := coverage_of_free hU ((h.mem_lists k hk i).mp hi)
  exact offNode_of_outside hx hlt hc

/-- A new free block is written into itself and into free blocks. -/
theorem frame_addFree (h : Rep r lost lists S s) (hU : U ⊆ S.used) {i k : ℕ} (hk : k ≤ maxOrder)
    (hi : i < n) (hc : coverage U i = 0) :
    Frame r n U s (Buddy.addFree s .unmovable k (r.addr i)) := by
  refine ⟨rfl, by rw [addFree_zone], by rw [addFree_zone], fun x hx => ?_⟩
  rw [addFree_mem]
  exact listAdd_apply (offNode_of_outside hx hi hc)
    fun h0 => h.offNode_of_mem hU hx hk (h.head_mem hk h0)

/-- A removal from a list is written into free blocks only. -/
theorem frame_removeFree (h : Rep r lost lists S s) (hU : U ⊆ S.used) {i k : ℕ}
    (hb : (i, k) ∈ S.free) : Frame r n U s (Buddy.removeFree s .unmovable k (r.addr i)) := by
  have hk : k ≤ maxOrder := S.free_order _ hb
  obtain ⟨l₁, l₂, hsplit⟩ := List.append_of_mem ((h.mem_lists k hk i).mpr hb)
  have hl := h.list k hk
  have hnode : ∀ a ∈ (lists k).map r.addr, ∃ j, j < r.pages ∧ a = r.addr j :=
    fun a ha => h.node hk ha
  have hoff : ∀ x, Outside r n U x → ∀ a ∈ (lists k).map r.addr, OffNode x a :=
    fun x hx a ha => h.offNode_of_mem hU hx hk ha
  rw [hsplit, List.map_append, List.map_cons] at hl hnode hoff
  have hmem : ∀ a ∈ l₁.map r.addr ++ l₂.map r.addr,
      a ∈ l₁.map r.addr ++ r.addr i :: l₂.map r.addr := by
    intro a ha
    rcases List.mem_append.mp ha with h' | h' <;> simp [h']
  refine ⟨rfl, by rw [removeFree_zone], by rw [removeFree_zone], fun x hx => ?_⟩
  rw [removeFree_mem]
  refine listRemove_apply (hoff x hx _ (by simp)) (fun h0 => ?_) fun h0 => ?_
  · have hp := hl.pv_mem h0
    exact ⟨hoff x hx _ (hmem _ hp), node_sep r _ _ (hnode _ (hmem _ hp)) (hnode _ (by simp))
      (hl.isList.ne_of_mem_rest hp)⟩
  · exact hoff x hx _ (hmem _ (hl.nx_mem h0))

/-! ### Allocation -/

/-- The page index of the address of a page. -/
theorem addrToPageIndex_addr (h : Rep r lost lists S s) {i : ℕ} (hi : i < r.pages) :
    addrToPageIndex s.pages (r.addr i) = i := by
  have hlt := Region.addr_lt hi
  unfold addrToPageIndex
  rw [h.memoryStart, Word.sub_eq (by unfold Region.addr; omega) hlt]
  unfold Region.addr pageSize
  omega

/-- The address of a later page. -/
theorem add_pagesToBytes {i j : ℕ} (hij : i + j < r.pages) :
    Word.add 64 (r.addr i) (pagesToBytes j) = r.addr (i + j) := by
  have hlt := Region.addr_lt hij
  have hj : j * pageSize < 2 ^ 64 := by
    have hp := r.pages_lt
    unfold pageSize
    omega
  have hsum : r.addr i + j * pageSize = r.addr (i + j) := by
    unfold Region.addr
    ring
  unfold pagesToBytes
  rw [Word.mul_eq hj, Word.add_eq (by omega), hsum]

/-- The search for a non-empty list stops at the first one, or past the last order. -/
theorem findOrder_spec (zone : BuddyZone) (left order : ℕ) :
    order ≤ findOrder zone left order ∧ findOrder zone left order ≤ order + left ∧
      (∀ k, order ≤ k → k < findOrder zone left order → zone.freeLists k = 0) ∧
      (findOrder zone left order < order + left →
        zone.freeLists (findOrder zone left order) ≠ 0) := by
  induction left generalizing order with
  | zero =>
      refine ⟨le_rfl, le_rfl, fun k h1 h2 => ?_, fun h => ?_⟩
      · exact absurd h2 (by rw [findOrder]; omega)
      · exact absurd h (by rw [findOrder]; omega)
  | succ left ih =>
      unfold findOrder
      by_cases h0 : zone.freeLists order = 0
      · rw [if_pos h0]
        obtain ⟨h1, h2, h3, h4⟩ := ih (order + 1)
        refine ⟨by omega, by omega, fun k hk hlt => ?_, fun h => h4 (by omega)⟩
        rcases Nat.eq_or_lt_of_le hk with rfl | hk'
        · exact h0
        · exact h3 k hk' hlt
      · rw [if_neg h0]
        exact ⟨le_rfl, by omega, fun k h1 h2 => absurd h2 (by omega), fun _ => h0⟩

/-- The split loop returns the upper halves and keeps the lowest part in hand. -/
theorem splitLoop_spec (hlost : ∀ k, lost k ≤ 1) {i order d : ℕ} (h : Rep r lost lists S s)
    (hU : S.used = insert (i, order + d) U) (hi : (i, order + d) ∉ U) :
    ∃ (lists' : ℕ → List ℕ) (S' : BuddySystem n maxOrder),
      S'.used = insert (i, order) U ∧ (i, order) ∉ U ∧
      Rep r lost lists' S' (splitLoop .unmovable (r.addr i) order d s) ∧
      Frame r n U s (splitLoop .unmovable (r.addr i) order d s) := by
  induction d generalizing s S lists with
  | zero => exact ⟨lists, S, hU, hi, h, Frame.refl r n U s⟩
  | succ d ih =>
      have hmem : (i, order + d + 1) ∈ S.used := by
        rw [hU]
        exact Finset.mem_insert_self _ _
      have hsub : U ⊆ S.used := by
        rw [hU]
        exact Finset.subset_insert _ _
      have hk : order + d ≤ maxOrder := le_trans (Nat.le_succ _) (S.used_order _ hmem)
      have hend := S.end_le (Or.inr hmem)
      have hpow : 2 ^ (order + d + 1) = 2 ^ (order + d) + 2 ^ (order + d) := by
        rw [pow_succ]; omega
      have hpos := Nat.two_pow_pos (order + d)
      have hn := h.le_pages
      simp only at hend
      -- the upper half is covered by the block in hand, so by no free block and nothing in `U`
      have hup : ind (i, order + d + 1) (i + 2 ^ (order + d)) = 1 :=
        ind_eq_one_iff.mpr ⟨by simp only; omega, by simp only; omega⟩
      have hnew : ∀ b ∈ S.free, b.1 ≠ i + 2 ^ (order + d) := by
        intro b hb heq
        have hz := S.not_meet hb hmem (ind_self b)
        rw [heq] at hz
        omega
      have hcov : coverage U (i + 2 ^ (order + d)) = 0 := by
        have h1 := S.coverage_le (i + 2 ^ (order + d))
        rw [hU, coverage_insert hi, show order + (d + 1) = order + d + 1 from rfl, hup] at h1
        omega
      have haddr : r.addr (i + 2 ^ (order + d)) ≠ 0 := by
        rw [ne_eq, Region.addr_eq_zero_iff]
        omega
      have hstep := h.addFree hk (by omega) haddr hnew hlost hn
        (show (S.split i (order + d) hmem).free = _ from rfl)
      have hframe := h.frame_addFree hsub hk (by omega) hcov
      have hused : (S.split i (order + d) hmem).used = insert (i, order + d) U := by
        have : S.used.erase (i, order + d + 1) = U := by
          rw [hU]
          exact Finset.erase_insert hi
        rw [← this]
        rfl
      have hnotin : (i, order + d) ∉ U := by
        intro hmem'
        have := S.used_eq_of_meet (hsub hmem') hmem (ind_self _) (ind_self (i, order + d + 1))
        simp at this
      obtain ⟨lists', S', h1, h2, h3, h4⟩ := ih hstep hused hnotin
      have hblock : Word.add 64 (r.addr i) (pagesToBytes (1 <<< (order + d)))
          = r.addr (i + 2 ^ (order + d)) := by
        rw [Nat.one_shiftLeft, add_pagesToBytes (by omega)]
      refine ⟨lists', S', h1, h2, ?_, ?_⟩
      · rw [splitLoop, hblock]
        exact h3
      · rw [splitLoop, hblock]
        exact hframe.trans h4

/-- What an allocation of order `order` that succeeds at page `i` has done. -/
structure Allocated (r : Region) (lost : ℕ → ℕ) (S : BuddySystem n maxOrder) (s s' : State)
    (i order : ℕ) (lists' : ℕ → List ℕ) (S' : BuddySystem n maxOrder) : Prop where
  addr_ne_zero : r.addr i ≠ 0
  fresh : (i, order) ∉ S.used
  used : S'.used = insert (i, order) S.used
  rep : Rep r lost lists' S' s'
  bitmap : s'.pages.allocationBitmap = setAllocationBit s.pages.allocationBitmap i
  freePages : (s'.pages.zones .unmovable).freePages
    = Word.sub 64 (s.pages.zones .unmovable).freePages (2 ^ order)
  totalPages : (s'.pages.zones .unmovable).totalPages = (s.pages.zones .unmovable).totalPages
  mem : ∀ x, Outside r n S.used x → s'.mem x = s.mem x

/-- Fields outside the free lists can change freely. -/
theorem congr (h : Rep r lost lists S s) {s' : State} (hmem : s'.mem = s.mem)
    (hstart : s'.pages.memoryStart = s.pages.memoryStart)
    (hsize : s'.pages.memorySize = s.pages.memorySize)
    (hothers : ∀ z, z ≠ .unmovable → s'.pages.zones z = s.pages.zones z)
    (hlists : (s'.pages.zones .unmovable).freeLists = (s.pages.zones .unmovable).freeLists)
    (hcounts : (s'.pages.zones .unmovable).freeCounts = (s.pages.zones .unmovable).freeCounts) :
    Rep r lost lists S s' :=
  ⟨h.le_pages, hstart ▸ h.memoryStart, hsize ▸ h.memorySize,
    fun k hk => by rw [hmem, hlists]; exact h.list k hk, h.mem_lists,
    fun k hk => by rw [hcounts]; exact h.counts k hk,
    fun z hz => by rw [hothers z hz]; exact h.others z hz⟩

/-- `buddy_alloc_pages` on the unmovable zone: it fails, changing nothing, when all lists from the
requested order on are empty, and otherwise hands out a block of exactly that order. -/
theorem alloc (h : Rep r lost lists S s) (hlost : ∀ k, lost k ≤ 1) {order : ℕ}
    (horder : order ≤ maxOrder) :
    ((∀ k, order ≤ k → k ≤ maxOrder → lists k = []) ∧
        allocFromZone s order .unmovable = (0, s)) ∨
      ∃ i lists' S', (allocFromZone s order .unmovable).1 = r.addr i ∧
        Allocated r lost S s (allocFromZone s order .unmovable).2 i order lists' S' := by
  obtain ⟨hlo, hhi, hempty, hfound⟩ :=
    findOrder_spec (s.pages.zones .unmovable) (maxOrder + 1 - order) order
  set c := findOrder (s.pages.zones .unmovable) (maxOrder + 1 - order) order with hc
  by_cases hcmax : c > maxOrder
  · refine Or.inl ⟨fun k h1 h2 => ?_, ?_⟩
    · exact (h.head_eq_zero_iff h2).mp (hempty k h1 (by omega))
    · unfold allocFromZone
      rw [← hc, if_pos hcmax]
  · have hck : c ≤ maxOrder := by omega
    have hhead := hfound (by omega)
    obtain ⟨i, hi, hiaddr⟩ := List.mem_map.mp (h.head_mem hck hhead)
    have hfree : (i, c) ∈ S.free := (h.mem_lists c hck i).mp hi
    obtain ⟨d, hd⟩ := Nat.exists_eq_add_of_le hlo
    have hnot : (i, c) ∉ S.used := S.not_used_of_free hfree
    rw [hd] at hfree hnot
    have h1 := h.removeFree hfree hlost h.le_pages (show (S.take (i, order + d) hfree).free = _ from rfl)
    have hf1 := h.frame_removeFree (U := S.used) (Finset.Subset.refl _) hfree
    obtain ⟨lists', S', hused, hfresh, h2, hf2⟩ := splitLoop_spec hlost h1 rfl hnot
    have hframe := hf1.trans hf2
    have hlt : i < r.pages := h.lt_pages hck hi
    have hindex := h2.addrToPageIndex_addr hlt
    set s₂ := splitLoop .unmovable (r.addr i) order d
      (Buddy.removeFree s .unmovable (order + d) (r.addr i)) with hs₂
    have hres : allocFromZone s order .unmovable = (r.addr i,
        setZone { s₂ with pages := { s₂.pages with
            allocationBitmap := setAllocationBit s₂.pages.allocationBitmap i } } .unmovable
          { s₂.pages.zones .unmovable with
            freePages := Word.sub 64 (s₂.pages.zones .unmovable).freePages (2 ^ order) }) := by
      unfold allocFromZone
      rw [← hc, if_neg hcmax]
      simp only [← hiaddr]
      rw [hd, Nat.add_sub_cancel_left, ← hs₂, hindex, Nat.one_shiftLeft]
    refine Or.inr ⟨i, lists', S', by rw [hres], ?_⟩
    rw [hres]
    refine ⟨h.addr_ne_zero hfree, hfresh, hused, ?_, ?_, ?_, ?_, ?_⟩
    · refine h2.congr rfl rfl rfl (fun z hz => ?_) ?_ ?_
      · simp [setZone, hz]
      · simp [setZone]
      · simp [setZone]
    · simp [setZone, hframe.bitmap]
    · simp [setZone, hframe.freePages]
    · simp [setZone, hframe.totalPages]
    · exact hframe.mem

/-! ### Release -/

section merge

variable {i c : ℕ}

/-- The buddy of a used block does not start behind the region. -/
theorem buddy_le (hb : (i, c) ∈ S.used) : buddy i c ≤ n := by
  have hend := S.end_le (Or.inr hb)
  have hal : 2 ^ c ∣ i := S.used_aligned _ hb
  simp only at hend
  rcases buddy_cases hal with ⟨-, h'⟩ | ⟨-, -, h'⟩ <;> omega

/-- `get_buddy_address` computes the buddy. -/
theorem getBuddyAddress_eq (h : Rep r lost lists S s) (hb : (i, c) ∈ S.used) :
    getBuddyAddress s.pages (r.addr i) c = Word.add 64 r.start (buddy i c * pageSize) := by
  have hlt : i < r.pages := lt_of_lt_of_le (S.lt_of_ind (Or.inr hb) (ind_self _)) h.le_pages
  have hle := buddy_le hb
  have hpages := r.pages_lt
  have hn := h.le_pages
  unfold getBuddyAddress pageIndexToAddr
  rw [h.addrToPageIndex_addr hlt, Nat.one_shiftLeft, h.memoryStart]
  change Word.add 64 r.start (Word.mul 64 (buddy i c) pageSize) = _
  rw [Word.mul_eq (by unfold pageSize; omega)]

/-- An address that passes the range check did not wrap. -/
theorem getBuddyAddress_of_inRange (h : Rep r lost lists S s) (hend : r.start + r.size < 2 ^ 64)
    (hb : (i, c) ∈ S.used)
    (hin : outOfRange s.pages (getBuddyAddress s.pages (r.addr i) c) = false) :
    getBuddyAddress s.pages (r.addr i) c = r.addr (buddy i c) := by
  have hle := buddy_le hb
  have hpages := r.pages_lt
  have hn := h.le_pages
  have hlt : buddy i c * pageSize < 2 ^ 64 := by unfold pageSize; omega
  unfold outOfRange at hin
  rw [h.getBuddyAddress_eq hb] at hin ⊢
  rw [h.memoryStart, h.memorySize, Word.add_eq hend] at hin
  simp only [Bool.or_eq_false_iff, decide_eq_false_iff_not, not_lt, ge_iff_le, not_le] at hin
  have hcase : r.start + buddy i c * pageSize < 2 ^ 64 := by
    by_contra hge
    have hwrap : Word.add 64 r.start (buddy i c * pageSize)
        = r.start + buddy i c * pageSize - 2 ^ 64 := by
      unfold Word.add
      omega
    omega
  exact Word.add_eq hcase

/-- The address of a free buddy passes the range check. -/
theorem inRange_of_free (h : Rep r lost lists S s) (hend : r.start + r.size < 2 ^ 64)
    (hb : (i, c) ∈ S.used) (hf : (buddy i c, c) ∈ S.free) :
    outOfRange s.pages (getBuddyAddress s.pages (r.addr i) c) = false := by
  have hlt : buddy i c < r.pages := lt_of_lt_of_le (S.lt_of_ind (Or.inl hf) (ind_self _)) h.le_pages
  have hsize := mul_lt_of_lt_bytesToPages r.size_lt hlt
  unfold outOfRange
  rw [h.getBuddyAddress_eq hb, h.memoryStart, h.memorySize, Word.add_eq hend,
    Word.add_eq (by omega)]
  simp only [Bool.or_eq_false_iff, decide_eq_false_iff_not, not_lt, ge_iff_le, not_le]
  omega

/-- The search of the free list finds the buddy exactly when it is free. -/
theorem search_buddy (h : Rep r lost lists S s) (hc : c ≤ maxOrder) (a : ℕ) :
    (a ∉ (lists c).map r.addr ∧
        search (blockNext s.mem) (fun current => current = a) walkBound
          ((s.pages.zones .unmovable).freeLists c) = some 0) ∨
      (a ∈ (lists c).map r.addr ∧
        search (blockNext s.mem) (fun current => current = a) walkBound
          ((s.pages.zones .unmovable).freeLists c) = some a) := by
  have hlt : ∀ b ∈ (lists c).map r.addr, b < 2 ^ 64 := by
    intro b hb
    obtain ⟨j, hj, rfl⟩ := h.node hc hb
    exact Region.addr_lt hj
  have hsearch := search_walkBound (h.list c hc).isList hlt (fun current => current = a)
  cases hfind : ((lists c).map r.addr).find? (fun current => current = a) with
  | none =>
      rw [hfind] at hsearch
      refine Or.inl ⟨fun hmem => ?_, hsearch⟩
      have := List.find?_eq_none.mp hfind a hmem
      simp at this
  | some b =>
      obtain rfl : b = a := by simpa using List.find?_some hfind
      rw [hfind] at hsearch
      exact Or.inr ⟨List.mem_of_find?_eq_some hfind, hsearch⟩

/-- What the merge loop has done when it stops with the block `(i', c')` in hand. -/
structure Merged (r : Region) (lost : ℕ → ℕ) (n : ℕ) (U : Finset Block) (s s' : State)
    (i' c' : ℕ) (lists' : ℕ → List ℕ) (S' : BuddySystem n maxOrder) : Prop where
  used : S'.used = insert (i', c') U
  notMem : (i', c') ∉ U
  addr_ne_zero : r.addr i' ≠ 0
  buddy_not_free : c' < maxOrder → (buddy i' c', c') ∉ S'.free
  rep : Rep r lost lists' S' s'
  frame : Frame r n U s s'

/-- The merge loop stops with a block in hand whose buddy is not free. -/
theorem mergeLoop_spec (hlost : ∀ k, lost k ≤ 1) (hend : r.start + r.size < 2 ^ 64)
    {left : ℕ} (hleft : c + left = maxOrder) (h : Rep r lost lists S s)
    (hU : S.used = insert (i, c) U) (hi : (i, c) ∉ U) (h0 : r.addr i ≠ 0)
    (hbits : BitsOk s.pages.allocationBitmap U) :
    ∃ s' i' c' lists' S', mergeLoop left s (r.addr i) c = some (s', r.addr i', c') ∧
      Merged r lost n U s s' i' c' lists' S' := by
  induction left generalizing s S lists i c with
  | zero =>
      exact ⟨s, i, c, lists, S, rfl, hU, hi, h0, fun hlt => absurd hlt (by omega), h,
        Frame.refl r n U s⟩
  | succ left ih =>
      have hmem : (i, c) ∈ S.used := by
        rw [hU]
        exact Finset.mem_insert_self _ _
      have hsub : U ⊆ S.used := by
        rw [hU]
        exact Finset.subset_insert _ _
      have hcmax : c < maxOrder := by omega
      have hstop : (buddy i c, c) ∉ S.free → Merged r lost n U s s i c lists S := fun hnot =>
        ⟨hU, hi, h0, fun _ => hnot, h, Frame.refl r n U s⟩
      unfold mergeLoop
      -- first exit: the range check
      by_cases hrange : outOfRange s.pages (getBuddyAddress s.pages (r.addr i) c) = true
      · refine ⟨s, i, c, lists, S, by simp only [hrange, if_true], hstop fun hf => ?_⟩
        rw [h.inRange_of_free hend hmem hf] at hrange
        exact Bool.false_ne_true hrange
      rw [Bool.not_eq_true] at hrange
      have haddr := h.getBuddyAddress_of_inRange hend hmem hrange
      rw [haddr] at hrange ⊢
      simp only [hrange, if_false, Bool.false_eq_true]
      -- second exit: the bitmap
      by_cases hbit : testAllocationBit s.pages.allocationBitmap
          (addrToPageIndex s.pages (r.addr (buddy i c))) = true
      · refine ⟨s, i, c, lists, S, by rw [if_pos hbit], hstop fun hf => ?_⟩
        have hlt : buddy i c < r.pages :=
          lt_of_lt_of_le (S.lt_of_ind (Or.inl hf) (ind_self _)) h.le_pages
        rw [h.addrToPageIndex_addr hlt] at hbit
        obtain ⟨k, hk⟩ := hbits _ hbit
        have hz := S.not_meet hf (hsub hk) (ind_self (buddy i c, c))
        have hs := ind_self (buddy i c, k)
        simp only at hz hs
        omega
      rw [if_neg hbit]
      -- third exit: the buddy is not on the list
      rcases h.search_buddy hcmax.le (r.addr (buddy i c)) with ⟨hnot, hsearch⟩ | ⟨hin, hsearch⟩
      · refine ⟨s, i, c, lists, S, by rw [hsearch], hstop fun hf => hnot ?_⟩
        exact List.mem_map.mpr ⟨_, (h.mem_lists c hcmax.le _).mpr hf, rfl⟩
      -- otherwise the buddy is free and is swallowed
      obtain ⟨j, hj, hjb⟩ := List.mem_map.mp hin
      obtain rfl := r.addr_injective hjb
      have hf : (buddy i c, c) ∈ S.free := (h.mem_lists c hcmax.le _).mp hj
      have hb0 := h.addr_ne_zero hf
      have hused : (S.merge i c hcmax hmem hf).used = insert (min i (buddy i c), c + 1) U := by
        have herase : S.used.erase (i, c) = U := by
          rw [hU]
          exact Finset.erase_insert hi
        rw [← herase]
        rfl
      have hnotU : (min i (buddy i c), c + 1) ∉ U := by
        intro hmem'
        have hz := S.not_meet hf (hsub hmem') (ind_self (buddy i c, c))
        have hal : 2 ^ c ∣ i := S.used_aligned _ hmem
        have hm := ind_merge hal (buddy i c)
        have hs := ind_self (buddy i c, c)
        simp only at hz hs
        omega
      have haddr0 : r.addr (min i (buddy i c)) ≠ 0 := by
        rcases min_choice i (buddy i c) with e | e <;> rw [e]
        · exact h0
        · exact hb0
      have h1 := h.removeFree hf hlost h.le_pages (show (S.merge i c hcmax hmem hf).free = _ from rfl)
      obtain ⟨s', i', c', lists', S', hres, hmerged⟩ :=
        ih (by omega) h1 hused hnotU haddr0 (by rw [removeFree_bitmap]; exact hbits)
      refine ⟨s', i', c', lists', S', ?_, ⟨hmerged.used, hmerged.notMem, hmerged.addr_ne_zero,
        hmerged.buddy_not_free, hmerged.rep,
        (h.frame_removeFree hsub hf).trans hmerged.frame⟩⟩
      have hmin : (if r.addr i > r.addr (buddy i c) then r.addr (buddy i c) else r.addr i)
          = r.addr (min i (buddy i c)) := by
        unfold Region.addr pageSize
        split_ifs with hgt
        · rw [min_eq_right (by omega)]
        · rw [min_eq_left (by omega)]
      obtain ⟨b, hbs⟩ : ∃ b, r.addr (buddy i c) = b + 1 := ⟨r.addr (buddy i c) - 1, by omega⟩
      rw [hsearch, hbs]
      simp only
      rw [← hbs, hmin]
      exact hres

end merge

/-- What a release of the block `(i, order)` has done. -/
structure Released (r : Region) (lost : ℕ → ℕ) (S : BuddySystem n maxOrder) (s s' : State)
    (i order : ℕ) (lists' : ℕ → List ℕ) (S' : BuddySystem n maxOrder) : Prop where
  used : S'.used = S.used.erase (i, order)
  rep : Rep r lost lists' S' s'
  bits : BitsOk s'.pages.allocationBitmap S'.used
  freePages : (s'.pages.zones .unmovable).freePages
    = Word.add 64 (s.pages.zones .unmovable).freePages (2 ^ order)
  totalPages : (s'.pages.zones .unmovable).totalPages = (s.pages.zones .unmovable).totalPages
  mem : ∀ x, Outside r n (S.used.erase (i, order)) x → s'.mem x = s.mem x

/-- `buddy_free_pages` of a used block of a page-aligned region. -/
theorem free (h : Rep r lost lists S s) (hlost : ∀ k, lost k ≤ 1) (hal : r.start % pageSize = 0)
    (hend : r.start + r.size < 2 ^ 64) (hbits : BitsOk s.pages.allocationBitmap S.used)
    {i order : ℕ} (hb : (i, order) ∈ S.used) (h0 : r.addr i ≠ 0) :
    ∃ s' lists' S', buddyFreePages s (r.addr i) order = some s' ∧
      Released r lost S s s' i order lists' S' := by
  have hlt : i < r.pages := lt_of_lt_of_le (S.lt_of_ind (Or.inr hb) (ind_self _)) h.le_pages
  have horder : order ≤ maxOrder := S.used_order _ hb
  have hin : outOfRange s.pages (r.addr i) = false := by
    have hle := Region.addr_lt_end hlt
    unfold outOfRange
    rw [h.memoryStart, h.memorySize, Word.add_eq hend]
    simp only [Bool.or_eq_false_iff, decide_eq_false_iff_not, not_lt, ge_iff_le, not_le]
    exact ⟨Nat.le_add_right _ _, hle⟩
  have hpage : r.addr i % pageSize = 0 := by
    unfold Region.addr
    rw [Nat.add_mul_mod_self_right]
    exact hal
  set s₀ : State := { s with pages := { s.pages with
    allocationBitmap := clearAllocationBit s.pages.allocationBitmap i } } with hs₀
  have h' : Rep r lost lists S s₀ := h.congr rfl rfl rfl (fun _ _ => rfl) rfl rfl
  have hins : S.used = insert (i, order) (S.used.erase (i, order)) := (Finset.insert_erase hb).symm
  obtain ⟨s₁, i', c', lists₁, S₁, hres, hm⟩ := mergeLoop_spec hlost hend
    (Nat.add_sub_cancel' horder) h' hins (Finset.notMem_erase _ _) h0 (hbits.clear i order)
  have hmem' : (i', c') ∈ S₁.used := by
    rw [hm.used]
    exact Finset.mem_insert_self _ _
  have hc' : c' ≤ maxOrder := S₁.used_order _ hmem'
  have hi' : i' < n := S₁.lt_of_ind (Or.inr hmem') (ind_self _)
  have hsub : S.used.erase (i, order) ⊆ S₁.used := by
    rw [hm.used]
    exact Finset.subset_insert _ _
  have hnew : ∀ b ∈ S₁.free, b.1 ≠ i' := by
    intro b hbf heq
    have hz := S₁.not_meet hbf hmem' (ind_self b)
    have hs := ind_self (i', c')
    simp only at hs
    rw [heq] at hz
    omega
  have hcov : coverage (S.used.erase (i, order)) i' = 0 := by
    have h1 := S₁.coverage_le i'
    have hs := ind_self (i', c')
    simp only at hs
    rw [hm.used, coverage_insert hm.notMem, hs] at h1
    omega
  have hused : (S₁.give i' c' hmem' hm.buddy_not_free).used = S.used.erase (i, order) := by
    have : S₁.used.erase (i', c') = S.used.erase (i, order) := by
      rw [hm.used]
      exact Finset.erase_insert hm.notMem
    exact this
  have hrep := hm.rep.addFree hc'
    (lt_of_lt_of_le hi' h.le_pages) hm.addr_ne_zero hnew hlost h.le_pages
    (show (S₁.give i' c' hmem' hm.buddy_not_free).free = _ from rfl)
  have hframe := hm.frame.trans (hm.rep.frame_addFree hsub hc' hi' hcov)
  set s₂ := Buddy.addFree s₁ .unmovable c' (r.addr i') with hs₂
  refine ⟨setZone s₂ .unmovable { s₂.pages.zones .unmovable with
      freePages := Word.add 64 (s₂.pages.zones .unmovable).freePages (2 ^ order) },
    Function.update lists₁ c' (i' :: lists₁ c'), S₁.give i' c' hmem' hm.buddy_not_free, ?_, hused, ?_, ?_, ?_, ?_, ?_⟩
  · unfold buddyFreePages
    rw [if_neg (by omega), if_neg h0, hin, if_neg (by simp), if_neg (by simp [hpage]),
      h.addrToPageIndex_addr hlt]
    simp only [← hs₀, hres, ← hs₂, Nat.one_shiftLeft]
  · refine hrep.congr rfl rfl rfl (fun z hz => ?_) ?_ ?_
    · simp [setZone, hz]
    · simp [setZone]
    · simp [setZone]
  · rw [hused]
    have hbm : s₂.pages.allocationBitmap = clearAllocationBit s.pages.allocationBitmap i :=
      hframe.bitmap
    simp only [setZone, hbm]
    exact hbits.clear i order
  · simp [setZone, hframe.freePages, hs₀]
  · simp [setZone, hframe.totalPages, hs₀]
  · exact hframe.mem

/-- In a region that is not page-aligned or that ends at `2 ^ 64`, `buddy_free_pages` rejects every
address. -/
theorem free_rejected (h : Rep r lost lists S s)
    (hrej : r.start % pageSize ≠ 0 ∨ r.start + r.size = 2 ^ 64) (i order : ℕ) :
    buddyFreePages s (r.addr i) order = some s := by
  unfold buddyFreePages
  split_ifs with h1 h2 h3 h4
  · rfl
  · rfl
  · rfl
  · rfl
  · exfalso
    rcases hrej with hrej | hrej
    · rw [not_not] at h4
      unfold Region.addr at h4
      rw [Nat.add_mul_mod_self_right] at h4
      exact hrej h4
    · apply h3
      unfold outOfRange
      rw [h.memoryStart, h.memorySize]
      unfold Word.add
      rw [hrej]
      simp

end Rep

end PrometheusKernel.Buddy
