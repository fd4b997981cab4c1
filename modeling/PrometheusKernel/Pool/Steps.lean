import PrometheusKernel.Pool.Rep

/-!
# The moves of a pool

`pool_grow` adds a region and puts its objects in front of the free list (`Rep.grow`), the end of `pool_alloc`
takes the first object off the list (`Rep.pop`), `pool_free` puts one back (`Rep.push`), and clients write into
the objects they hold (`Rep.write`). Each keeps `Rep`. `Rep.alloc` says what a call of `pool_alloc` is made of.
-/

namespace PrometheusKernel.Pool

open ByteMem LinkedList Buddy Slab

variable {A : Type} {P : Holding A} {B : Set (ℕ × ℕ)} {s : State A} {g : Ghost} {o : ℕ}

/-! ### Growing -/

/-- The loop of `pool_grow` puts the objects in front of the list and writes nothing else. -/
theorem threadChunks_spec {start size n i head : ℕ} {m : Mem} {l : List ℕ} (hsize : 8 ≤ size) (hstart : 0 < start)
    (hend : start + (i + n) * size ≤ 2 ^ 64) (hl : IsList (chunkNext m) l head) (hhead : head < 2 ^ 64)
    (hapart : ∀ a ∈ l, a + 8 ≤ start + i * size ∨ start + (i + n) * size ≤ a) :
    IsList (chunkNext (threadChunks start size n i head m).2) (threaded start size n i l)
        (threadChunks start size n i head m).1 ∧
      ∀ x, x < start + i * size ∨ start + (i + n) * size ≤ x → (threadChunks start size n i head m).2 x = m x := by
  induction n generalizing i head m l with
  | zero => exact ⟨hl, fun x _ => rfl⟩
  | succ n ih =>
      have hstep : (i + 1) * size = i * size + size := Nat.succ_mul i size
      have hidx : i + (n + 1) = i + 1 + n := by omega
      rw [hidx] at hend hapart ⊢
      have hlast : (i + 1) * size ≤ (i + 1 + n) * size := Nat.mul_le_mul_right size (by omega)
      set chunk := start + i * size with hchunk
      have hframe : ∀ x, x < chunk ∨ chunk + 8 ≤ x → setChunkNext m chunk head x = m x :=
        fun x hx => store_apply_of_lt_or_le hx
      have hnext : chunkNext (setChunkNext m chunk head) chunk = head := by
        unfold chunkNext setChunkNext
        exact load_store_of_lt (by norm_num; exact hhead)
      have hl' : IsList (chunkNext (setChunkNext m chunk head)) (chunk :: l) chunk := by
        refine ⟨rfl, by omega, ?_⟩
        rw [hnext]
        refine hl.congr fun a ha => load_congr fun x hx => hframe x ?_
        obtain ⟨hx1, hx2⟩ := hx
        rcases hapart a ha with hle | hle
        · exact Or.inl (by omega)
        · exact Or.inr (by omega)
      have hapart' : ∀ a ∈ chunk :: l, a + 8 ≤ start + (i + 1) * size ∨ start + (i + 1 + n) * size ≤ a := by
        intro a ha
        rcases List.mem_cons.mp ha with rfl | ha
        · exact Or.inl (by omega)
        · exact (hapart a ha).imp_left fun hle => by omega
      obtain ⟨hlist, hmem⟩ := ih hend hl' (by omega) hapart'
      refine ⟨hlist, fun x hx => ?_⟩
      show (threadChunks start size n (i + 1) chunk (setChunkNext m chunk head)).2 x = m x
      rw [hmem x (hx.imp_left fun hlt => by omega)]
      apply hframe
      rcases hx with hlt | hle
      · exact Or.inl hlt
      · exact Or.inr (by omega)

/-- The free list grows by the new objects. -/
theorem length_threaded (base size n i : ℕ) (l : List ℕ) : (threaded base size n i l).length = n + l.length := by
  rw [(threaded_perm base size).length_eq, List.length_append, List.length_map, List.length_range']

/-- The regions and the free list with one more region. -/
def Ghost.grown (g : Ghost) (size : ℕ) (b : ℕ × ℕ) : Ghost :=
  { g with
    regions := b :: g.regions
    free := threaded (b.1 + regionHeaderSize) size (objectsInRegion b.2 size) 0 g.free }

/-- After a growth every object is live or free. -/
theorem Ghost.grown_perm {size : ℕ} (b : ℕ × ℕ) (h : (g.live ++ g.free).Perm (objects size g.regions)) :
    ((g.grown size b).live ++ (g.grown size b).free).Perm (objects size (g.grown size b).regions) := by
  have hnew : (g.grown size b).free.Perm (objectsOf size b ++ g.free) := by
    unfold objectsOf objectsFrom
    rw [List.range_eq_range']
    exact threaded_perm _ size
  calc (g.live ++ (g.grown size b).free).Perm (g.live ++ (objectsOf size b ++ g.free)) := hnew.append_left g.live
    _ = (g.live ++ objectsOf size b) ++ g.free := (List.append_assoc _ _ _).symm
    List.Perm _ ((objectsOf size b ++ g.live) ++ g.free) := List.perm_append_comm.append_right g.free
    _ = objectsOf size b ++ (g.live ++ g.free) := List.append_assoc _ _ _
    List.Perm _ (objectsOf size b ++ objects size g.regions) := h.append_left _

/-- The number of objects grows by those of the new region. -/
theorem length_objects_cons (size : ℕ) (b : ℕ × ℕ) (regions : List (ℕ × ℕ)) :
    (objects size (b :: regions)).length = (objects size regions).length + objectsInRegion b.2 size := by
  unfold objects objectsOf
  rw [List.flatMap_cons, List.length_append, length_objectsFrom, Nat.add_comm]

/-- A 32-bit counter that counts modulo `2 ^ 32`. -/
theorem add_mod_count (x n : ℕ) : Word.add 32 (x % 2 ^ 32) n = (x + n) % 2 ^ 32 := Nat.mod_add_mod x (2 ^ 32) n

/-- The head of the list of regions is a word. -/
theorem Rep.regions_lt (h : Rep P B s g) : s.pool.regions < 2 ^ 64 := by
  by_cases h0 : s.pool.regions = 0
  · rw [h0]
    norm_num
  · obtain ⟨b, hb, heq⟩ := List.mem_map.mp (h.chain.head_mem h0)
    rw [← heq]
    exact (lt_blockEnd b).trans_le (P.end_le h.holds b (Rep.mem_blocks hb))

/-- A new region is a new block of the pool. -/
theorem blocks_cons (B : Set (ℕ × ℕ)) (page : ℕ) (b : ℕ × ℕ) (regions : List (ℕ × ℕ)) :
    blocks B page (b :: regions) = Set.insert b (blocks B page regions) := by
  ext c
  show (c ∈ B ∨ c ∈ (page, 0) :: b :: regions) ↔ (c = b ∨ c ∈ B ∨ c ∈ (page, 0) :: regions)
  simp only [List.mem_cons]
  constructor
  · rintro (hc | hc | hc | hc)
    · exact Or.inr (Or.inl hc)
    · exact Or.inr (Or.inr (Or.inl hc))
    · exact Or.inl hc
    · exact Or.inr (Or.inr (Or.inr hc))
  · rintro (hc | hc | hc | hc)
    · exact Or.inr (Or.inr (Or.inl hc))
    · exact Or.inl hc
    · exact Or.inr (Or.inl hc)
    · exact Or.inr (Or.inr (Or.inr hc))

/-- The header links the other regions, the objects are in front of the list, and nothing else is written. -/
theorem fillRegion_spec {M : Machine A} {n : ℕ} {b : ℕ × ℕ} {l : List ℕ} (hsize : 8 ≤ s.pool.objectSize)
    (hroom : regionHeaderSize + n * s.pool.objectSize ≤ 2 ^ b.2 * pageSize) (hend : blockEnd b ≤ 2 ^ 64)
    (hregions : s.pool.regions < 2 ^ 64) (hhead : s.pool.freeList < 2 ^ 64)
    (hl : IsList (chunkNext M.mem) l s.pool.freeList) (hapart : ∀ o ∈ l, o + 8 ≤ b.1 ∨ blockEnd b ≤ o) :
    IsList (chunkNext (fillRegion { s with toMachine := M } b.1 n).mem)
        (threaded (b.1 + regionHeaderSize) s.pool.objectSize n 0 l)
        (fillRegion { s with toMachine := M } b.1 n).pool.freeList ∧
      regionNext (fillRegion { s with toMachine := M } b.1 n).mem b.1 = s.pool.regions ∧
      ∀ x, x < b.1 ∨ blockEnd b ≤ x → (fillRegion { s with toMachine := M } b.1 n).mem x = M.mem x := by
  unfold fillRegion
  unfold blockEnd at hend hapart ⊢
  unfold regionHeaderSize at hroom ⊢
  dsimp only
  set w := setRegionNext (setRegionBase M.mem b.1 b.1) b.1 s.pool.regions with hw
  have hheader : ∀ x, x < b.1 ∨ b.1 + 16 ≤ x → w x = M.mem x := by
    intro x hx
    rw [hw]
    unfold setRegionNext setRegionBase
    rw [store_apply_of_lt_or_le (by omega), store_apply_of_lt_or_le (by omega)]
  have hl' : IsList (chunkNext w) l s.pool.freeList := by
    refine hl.congr fun o ho => load_congr fun x hx => hheader x ?_
    obtain ⟨hx1, hx2⟩ := hx
    rcases hapart o ho with hle | hle
    · exact Or.inl (by omega)
    · exact Or.inr (by omega)
  have hzero : b.1 + 16 + (0 + n) * s.pool.objectSize = b.1 + 16 + n * s.pool.objectSize := by rw [Nat.zero_add]
  obtain ⟨hlinks, hrest⟩ := @threadChunks_spec (b.1 + 16) s.pool.objectSize n 0 s.pool.freeList w l hsize (by omega)
    (by omega) hl' hhead fun o ho => by
      rw [hzero]
      exact (hapart o ho).imp (fun hle => by omega) fun hle => by omega
  rw [hzero, Nat.zero_mul, Nat.add_zero] at hrest
  refine ⟨hlinks, ?_, fun x hx => ?_⟩
  · have hsame : regionNext (threadChunks (b.1 + 16) s.pool.objectSize n 0 s.pool.freeList w).2 b.1
        = regionNext w b.1 := load_congr fun x hx => hrest x (Or.inl hx.2)
    rw [hsame, hw]
    unfold regionNext setRegionNext
    exact load_store_of_lt (by norm_num; omega)
  · refine (hrest x ?_).trans (hheader x ?_)
    · omega
    · omega

/-- A new region, whose header and objects have been written. -/
theorem Rep.addRegion (h : Rep P B s g) {M : Machine A} {b : ℕ × ℕ} (hk : b.2 ≤ maxOrder)
    (hnew : b ∉ blocks B s.page g.regions) (hholds : P.Holds M (Set.insert b (blocks B s.page g.regions)))
    (hmem : ∀ c ∈ blocks B s.page g.regions, ∀ x, InBlock c x → M.mem x = s.mem x) {n : ℕ}
    (hn : objectsInRegion b.2 s.pool.objectSize = n) :
    Rep P B (fillRegion { s with toMachine := M } b.1 n) (g.grown s.pool.objectSize b) := by
  have hb : b ∈ Set.insert b (blocks B s.page g.regions) := Or.inl rfl
  have hwide := h.wide
  have hapart : ∀ c ∈ blocks B s.page g.regions, blockEnd c ≤ b.1 ∨ blockEnd b ≤ c.1 := fun c hc =>
    P.apart hholds c (Or.inr hc) b hb fun heq => hnew (heq ▸ hc)
  unfold minObjectSize at hwide
  have hfree : IsList (chunkNext M.mem) g.free s.pool.freeList := by
    refine h.list.congr fun o ho => load_congr fun x hx => ?_
    obtain ⟨c, hc, hin⟩ := h.inBlock_object (h.free_object ho) hx.1 (hx.2.trans_le (by omega))
    exact hmem c hc x hin
  have hfreeApart : ∀ o ∈ g.free, o + 8 ≤ b.1 ∨ blockEnd b ≤ o := by
    intro o ho
    obtain ⟨c, hc, hoc⟩ := mem_objects.mp (h.free_object ho)
    have hin := h.within hc hoc
    rcases hapart c (Rep.mem_blocks hc) with hle | hle
    · exact Or.inl (by omega)
    · exact Or.inr (by omega)
  have hroom := objectsInRegion_mul_le hk s.pool.objectSize
  have hperm := Ghost.grown_perm b h.perm
  unfold Ghost.grown at hperm ⊢
  rw [hn] at hroom hperm ⊢
  obtain ⟨hlinks, hnext, hrest⟩ := fillRegion_spec hwide hroom (P.end_le hholds b hb) h.regions_lt h.freeList_lt hfree
    hfreeApart
  -- the other blocks keep their contents
  have hkept : ∀ c ∈ blocks B s.page g.regions, ∀ x, InBlock c x →
      (fillRegion { s with toMachine := M } b.1 n).mem x = s.mem x := by
    intro c hc x hx
    obtain ⟨hx1, hx2⟩ := hx
    rw [hrest x, hmem c hc x ⟨hx1, hx2⟩]
    rcases hapart c hc with hle | hle
    · exact Or.inl (lt_of_lt_of_le hx2 hle)
    · exact Or.inr (hle.trans hx1)
  refine ⟨h.wide, ?_, ?_, ?_, ?_, ?_, hlinks, hperm, ?_, ?_⟩
  · intro c hc
    rcases List.mem_cons.mp hc with rfl | hc
    · exact hk
    · exact h.orders c hc
  · show P.Holds _ (blocks B s.page (b :: g.regions))
    rw [blocks_cons]
    refine P.write_state hholds rfl fun x hx => hrest x ?_
    have hnot := hx b hb
    unfold InBlock at hnot
    unfold blockEnd
    omega
  · show ((s.page, 0) :: b :: g.regions).Nodup
    obtain ⟨hpage, hregions⟩ := List.nodup_cons.mp h.nodup
    refine List.nodup_cons.mpr ⟨fun hin => ?_, List.nodup_cons.mpr ⟨fun hin => hnew (Rep.mem_blocks hin), hregions⟩⟩
    rcases List.mem_cons.mp hin with heq | hin
    · exact hnew (Or.inr (heq ▸ List.mem_cons_self))
    · exact hpage hin
  · intro c hc hcB
    rcases List.mem_cons.mp hc with rfl | hc
    · exact h.fresh _ List.mem_cons_self hcB
    · rcases List.mem_cons.mp hc with rfl | hc
      · exact hnew (Or.inl hcB)
      · exact h.fresh c (List.mem_cons_of_mem _ hc) hcB
  · refine ⟨rfl, P.ne_zero hholds b hb, ?_⟩
    rw [hnext]
    refine h.chain.congr fun a ha => load_congr fun x hx => ?_
    obtain ⟨c, hc, rfl⟩ := List.mem_map.mp ha
    have hpos : 0 < 2 ^ c.2 := Nat.two_pow_pos c.2
    obtain ⟨hx1, hx2⟩ := hx
    refine hkept c (Rep.mem_blocks hc) x ⟨by omega, ?_⟩
    unfold pageSize
    omega
  · show Word.add 32 s.pool.totalObjects n = (objects s.pool.objectSize (b :: g.regions)).length % 2 ^ 32
    rw [h.total, add_mod_count, length_objects_cons, hn]
  · show Word.add 32 s.pool.freeObjects n = (threaded _ _ n 0 g.free).length % 2 ^ 32
    rw [h.count, add_mod_count, length_threaded, Nat.add_comm]

/-- `pool_grow` fails and leaves the pool, or adds a region; only a count of 0 fails without asking for pages. -/
theorem Rep.grow (h : Rep P B s g) {alloc : ℕ → Machine A → ℕ × Machine A} (hR : P.Allocator alloc) (count : ℕ) :
    (∃ M, poolGrow alloc s count = some (-1, { s with toMachine := M }) ∧ Rep P B { s with toMachine := M } g) ∨
      ∃ s' b, poolGrow alloc s count = some (0, s') ∧ b.2 = orderFor count s.pool.objectSize ∧ SamePool s s' ∧
        Rep P B s' (g.grown s.pool.objectSize b) := by
  have hwide := h.wide
  unfold minObjectSize at hwide
  obtain ⟨k, hk⟩ : ∃ k, orderFor count s.pool.objectSize = k := ⟨_, rfl⟩
  have hle : k ≤ maxOrder := hk ▸ orderFor_le count s.pool.objectSize
  obtain ⟨n, hn⟩ : ∃ n, objectsInRegion k s.pool.objectSize = n := ⟨_, rfl⟩
  unfold poolGrow
  dsimp only
  rw [hk, hn]
  split_ifs with hcount hnull hzero
  · exact Or.inl ⟨s.toMachine, rfl, h⟩
  · exact Or.inl ⟨_, rfl, h.same (hR.fail h.holds k hnull) (hR.mem h.holds k)⟩
  · omega
  · have hrep := @Rep.addRegion _ _ _ _ _ h (alloc k s.toMachine).2 ((alloc k s.toMachine).1, k) hle
      (hR.fresh h.holds k hnull) (hR.holds h.holds k hnull) (hR.mem h.holds k) n hn
    exact Or.inr ⟨_, ((alloc k s.toMachine).1, k), rfl, rfl, ⟨rfl, rfl, rfl⟩, hrep⟩

/-! ### Taking and giving back -/

/-- The first object of the free list goes to a client. -/
theorem Rep.pop (h : Rep P B s g) {l : List ℕ} (hfree : g.free = o :: l) :
    (popChunk s).1 = o ∧ SamePool s (popChunk s).2 ∧
      Rep P B (popChunk s).2 { g with free := l, live := o :: g.live } := by
  have hlist := h.list
  have hcount := h.count
  rw [hfree] at hlist hcount
  obtain ⟨hhead, -, hrest⟩ := hlist
  obtain ⟨c, hc⟩ : ∃ c, Word.sub 32 s.pool.freeObjects 1 = c := ⟨_, rfl⟩
  unfold popChunk
  rw [hc]
  refine ⟨hhead, ⟨rfl, rfl, rfl⟩, h.wide, h.orders, h.holds, h.nodup, h.fresh, h.chain, ?_, ?_, h.total, ?_⟩
  · show IsList (chunkNext s.mem) l (chunkNext s.mem s.pool.freeList)
    rw [hhead]
    exact hrest
  · have hperm := h.perm
    rw [hfree] at hperm
    exact List.perm_middle.symm.trans hperm
  · show c = l.length % 2 ^ 32
    rw [← hc, hcount, List.length_cons]
    unfold Word.sub
    omega

/-- A live object goes back to the free list. -/
theorem Rep.push (h : Rep P B s g) (ho : o ∈ g.live) :
    SamePool s (poolFree s o) ∧ Rep P B (poolFree s o) { g with free := o :: g.free, live := g.live.erase o } := by
  have hobj := h.live_object ho
  have ho0 := h.object_ne_zero hobj
  have hwide := h.wide
  unfold minObjectSize at hwide
  have hframe : ∀ x, x < o ∨ o + 8 ≤ x → setChunkNext s.mem o s.pool.freeList x = s.mem x :=
    fun x hx => store_apply_of_lt_or_le hx
  obtain ⟨c, hc⟩ : ∃ c, Word.add 32 s.pool.freeObjects 1 = c := ⟨_, rfl⟩
  unfold poolFree
  rw [if_neg ho0, hc]
  refine ⟨⟨rfl, rfl, rfl⟩, h.wide, h.orders, ?_, h.nodup, h.fresh, ?_, ⟨rfl, ho0, ?_⟩, ?_, h.total, ?_⟩
  · refine P.write_state h.holds rfl fun x hx => hframe x ?_
    by_contra hcon
    obtain ⟨b, hb, hin⟩ := @Rep.inBlock_object A P B s g o h hobj x (by omega) (by omega)
    exact hx b hb hin
  · refine h.chain.congr fun a ha => load_congr fun x hx => hframe x ?_
    obtain ⟨b, hb, rfl⟩ := List.mem_map.mp ha
    obtain ⟨hx1, hx2⟩ := hx
    rcases h.header_apart hb hobj with hle | hle
    · unfold regionHeaderSize at hle
      exact Or.inl (by omega)
    · exact Or.inr (by omega)
  · have hnext : chunkNext (setChunkNext s.mem o s.pool.freeList) o = s.pool.freeList := by
      unfold chunkNext setChunkNext
      exact load_store_of_lt (by norm_num; exact h.freeList_lt)
    show IsList (chunkNext (setChunkNext s.mem o s.pool.freeList)) g.free
      (chunkNext (setChunkNext s.mem o s.pool.freeList) o)
    rw [hnext]
    refine h.list.congr fun o' ho' => load_congr fun x hx => hframe x ?_
    obtain ⟨hx1, hx2⟩ := hx
    rcases h.objects_apart hobj (h.free_object ho') (h.live_ne_free ho ho') with hle | hle
    · exact Or.inr (by omega)
    · exact Or.inl (by omega)
  · have hlive : g.live.Perm (o :: g.live.erase o) := List.perm_cons_erase ho
    exact (List.perm_middle.trans (hlive.symm.append_right g.free)).trans h.perm
  · show c = (o :: g.free).length % 2 ^ 32
    rw [← hc, h.count, add_mod_count, List.length_cons]

/-- A byte of a live object is written. -/
theorem Rep.write (h : Rep P B s g) (ho : o ∈ g.live) {x : ℕ} (h1 : o ≤ x) (h2 : x < o + s.pool.objectSize)
    (byte : UInt8) : Rep P B { s with mem := Function.update s.mem x byte } g := by
  have hobj := h.live_object ho
  have hwide := h.wide
  unfold minObjectSize at hwide
  have hframe : ∀ y, y ≠ x → Function.update s.mem x byte y = s.mem y := fun y hy => Function.update_of_ne hy _ _
  refine ⟨h.wide, h.orders, ?_, h.nodup, h.fresh, ?_, ?_, h.perm, h.total, h.count⟩
  · refine P.write h.holds _ fun y hy => hframe y ?_
    rintro rfl
    obtain ⟨b, hb, hin⟩ := h.inBlock_object hobj h1 h2
    exact hy b hb hin
  · refine h.chain.congr fun a ha => load_congr fun y hy => hframe y ?_
    obtain ⟨b, hb, rfl⟩ := List.mem_map.mp ha
    obtain ⟨hy1, hy2⟩ := hy
    have hapart := h.header_apart hb hobj
    unfold regionHeaderSize at hapart
    omega
  · refine h.list.congr fun o' ho' => load_congr fun y hy => hframe y ?_
    obtain ⟨hy1, hy2⟩ := hy
    have hapart := h.objects_apart hobj (h.free_object ho') (h.live_ne_free ho ho')
    omega

/-! ### The calls -/

/-- The free list is empty exactly when its head is null. -/
theorem Rep.free_eq_nil_iff (h : Rep P B s g) : g.free = [] ↔ s.pool.freeList = 0 := by
  have hlist := h.list
  constructor
  · intro hnil
    rw [hnil] at hlist
    exact hlist
  · intro h0
    cases hfree : g.free with
    | nil => rfl
    | cons o l =>
        rw [hfree] at hlist
        exact absurd (hlist.1.symm.trans h0) hlist.2.1

/-- `pool_alloc` returns null and leaves the pool, or it takes a chunk off the list, of the pool as it is or of
the pool after a growth. -/
theorem Rep.alloc (h : Rep P B s g) {alloc : ℕ → Machine A → ℕ × Machine A} (hR : P.Allocator alloc) :
    (∃ M, poolAlloc alloc s = some (0, { s with toMachine := M }) ∧ Rep P B { s with toMachine := M } g) ∨
      (g.free ≠ [] ∧ poolAlloc alloc s = some (popChunk s)) ∨
      ∃ s' b, s.pool.freeList = 0 ∧ poolGrow alloc s s.pool.growCount = some (0, s') ∧
        poolAlloc alloc s = some (popChunk s') ∧ b.2 = orderFor s.pool.growCount s.pool.objectSize ∧
        SamePool s s' ∧ Rep P B s' (g.grown s.pool.objectSize b) := by
  unfold poolAlloc
  by_cases h0 : s.pool.freeList = 0
  · rw [if_pos h0]
    rcases h.grow hR s.pool.growCount with ⟨M, hcall, hrep⟩ | ⟨s', b, hcall, hb, hsame, hrep⟩
    · rw [hcall]
      exact Or.inl ⟨M, rfl, hrep⟩
    · rw [hcall]
      exact Or.inr (Or.inr ⟨s', b, h0, rfl, rfl, hb, hsame, hrep⟩)
  · rw [if_neg h0]
    exact Or.inr (Or.inl ⟨fun hnil => h0 (h.free_eq_nil_iff.mp hnil), rfl⟩)

end PrometheusKernel.Pool
