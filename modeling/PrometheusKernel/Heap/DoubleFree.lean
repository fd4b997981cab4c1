import PrometheusKernel.Heap.SlabRanges

/-!
# Pointers that are freed twice

`kfree` recognises a double free by the magic number of the header, but does not clear it: after the first
`kfree` the header is as before until the memory is used again. The second call is harmless where the header is
rejected all the same, and where the block is still in the list, because there it is free and has no free
neighbour (`double_free_harmless`). A block that was merged keeps its stale links, and a second `kfree` merges
along them (`double_free_relinks`).
-/

namespace PrometheusKernel.Heap

open ByteMem LinkedList Tiling Interleaving

variable {A : Type} {P : Objects A} {slabAlloc : ℕ → Machine A → ℕ × Machine A}
  {slabFree : ℕ → ℕ → Machine A → Machine A} {start e p : ℕ} {s : State A} {c : Run A} {bs : List Block}
  {K : ℕ → Option ℕ} {O : Set (ℕ × ℕ)}

/-- The checks of `kfree` fail: the magic number, the cache index, the cache, the flags. -/
def Rejected (s : State A) (p : ℕ) : Prop :=
  let header := p - allocHeaderSize
  p = 0 ∨ headerMagic s.mem header ≠ allocMagic ∨
    headerFlags s.mem header &&& allocFromSlab ≠ 0 ∧
      (headerCacheIndex s.mem header ≥ 8 ∨ s.caches (headerCacheIndex s.mem header) = 0) ∨
    headerFlags s.mem header &&& allocFromSlab = 0 ∧ headerFlags s.mem header &&& allocFromHeap = 0

/-- The block at `b` is marked free and has no free neighbour. -/
structure Settled (m : Mem) (b : ℕ) : Prop where
  free : blockFree m b = 1
  next : blockNext m b = 0 ∨ blockFree m (blockNext m b) = 0
  prev : blockPrev m b = 0 ∨ blockFree m (blockPrev m b) = 0 ∨ blockNext m (blockPrev m b) = 0 ∨
    blockFree m (blockNext m (blockPrev m b)) = 0

/-- The block at `b` is in the list. -/
def Listed (s : State A) (b : ℕ) : Prop :=
  ∃ as, IsDList (blockNext s.mem) (blockPrev s.mem) 0 as s.heapHead ∧ b ∈ as

/-- A second `kfree` of `p` has nothing to do. -/
def Detected (s : State A) (p : ℕ) : Prop :=
  Rejected s p ∨ headerFlags s.mem (p - allocHeaderSize) &&& allocFromSlab = 0 ∧
    (Listed s (p - allocHeaderSize - blockHeaderSize) ∨ Settled s.mem (p - allocHeaderSize - blockHeaderSize))

/-- The block list, the slab caches and the live allocations are in `s'` as they are in `c`. -/
structure Undisturbed (c : Run A) (s' : State A) : Prop where
  blocks : ∀ as, IsDList (blockNext c.state.mem) (blockPrev c.state.mem) 0 as c.state.heapHead →
    IsDList (blockNext s'.mem) (blockPrev s'.mem) 0 as s'.heapHead ∧
      ∀ a ∈ as, blockSize s'.mem a = blockSize c.state.mem a ∧ blockFree s'.mem a = blockFree c.state.mem a
  caches : s'.pages = c.state.pages ∧ s'.caches = c.state.caches ∧
    ∀ x, x < c.state.heapStart ∨ c.state.heapStart + c.state.heapSize ≤ x → s'.mem x = c.state.mem x
  contents : ∀ q ∈ c.live, ∀ x, q.1 ≤ x → x < q.1 + q.2 → s'.mem x = c.state.mem x

/-- A call that does nothing disturbs nothing. -/
theorem Undisturbed.refl (c : Run A) : Undisturbed c c.state :=
  ⟨fun _ hl => ⟨hl, fun _ _ => ⟨rfl, rfl⟩⟩, ⟨rfl, rfl, fun _ _ => rfl⟩, fun _ _ _ _ _ => rfl⟩

/-! ### One call -/

/-- A pointer that the checks reject changes nothing. -/
theorem kfree_of_rejected (h : Rejected s p) : kfree slabFree s p = s := by
  unfold kfree
  dsimp only
  by_cases hp : p = 0
  · rw [if_pos hp]
  rw [if_neg hp]
  by_cases hmagic : headerMagic s.mem (p - allocHeaderSize) ≠ allocMagic
  · rw [if_pos hmagic]
  rw [if_neg hmagic]
  rcases h with h | h | ⟨hslab, hcache⟩ | ⟨hslab, hheap⟩
  · exact absurd h hp
  · exact absurd h hmagic
  · rw [if_pos hslab]
    by_cases hindex : headerCacheIndex s.mem (p - allocHeaderSize) ≥ 8
    · rw [if_pos hindex]
    · rw [if_neg hindex, if_pos (hcache.resolve_left hindex)]
  · rw [if_neg (not_not.mpr hslab), if_neg (not_not.mpr hheap)]

/-- `coalesce` on a block without free neighbours. -/
theorem coalesce_of_settled {m : Mem} {b : ℕ} (h : Settled m b) : coalesce m b = m := by
  have hnext : mergeNext m b = m := if_neg fun hcon => h.next.elim hcon.1 hcon.2
  unfold coalesce
  dsimp only
  rw [hnext]
  split_ifs with hprev
  · have hmerge := (h.prev.resolve_left hprev.1).resolve_left hprev.2
    exact if_neg fun hcon => hmerge.elim hcon.1 hcon.2
  · rfl

/-- A block that is free already, without free neighbours, stays as it is. -/
theorem kfree_of_settled (hslab : headerFlags s.mem (p - allocHeaderSize) &&& allocFromSlab = 0)
    (h : Settled s.mem (p - allocHeaderSize - blockHeaderSize)) : kfree slabFree s p = s := by
  have hfree : setFree s.mem (p - allocHeaderSize - blockHeaderSize) 1 = s.mem := by
    have hstore := store_load 4 s.mem (p - allocHeaderSize - blockHeaderSize + 8)
    rw [show load 4 s.mem (p - allocHeaderSize - blockHeaderSize + 8) = 1 from h.free] at hstore
    exact hstore
  unfold kfree
  dsimp only
  rw [hfree, coalesce_of_settled h, if_neg (not_not.mpr hslab)]
  split_ifs <;> rfl

/-- A free block of the list has no free neighbour. -/
theorem Layout.settled {m : Mem} {head : ℕ} {b : Block} (h : Layout start e m head bs) (hb : b ∈ bs)
    (hfree : b.free = true) : Settled m b.addr := by
  have hrep := h.rep
  obtain ⟨xs, ys, rfl⟩ := List.append_of_mem hb
  obtain ⟨-, hby, hmeet⟩ := h.coalesced.of_append
  refine ⟨?_, ?_, ?_⟩
  · rw [hrep.free b hb, hfree]
    rfl
  · rw [hrep.next_eq]
    cases ys with
    | nil => exact Or.inl rfl
    | cons d ys =>
        right
        have hd : d ∈ xs ++ b :: d :: ys := by simp
        have hused : d.free = false := by
          have hpair := (List.isChain_cons_cons.mp hby).1
          rw [hfree] at hpair
          simpa using hpair
        show blockFree m d.addr = 0
        rw [hrep.free d hd, hused]
        rfl
  · rw [hrep.prev_eq]
    rcases List.eq_nil_or_concat' xs with rfl | ⟨xs', d, rfl⟩
    · exact Or.inl rfl
    · right
      left
      have hd : d ∈ xs' ++ [d] ++ b :: ys := by simp
      have hused : d.free = false := by
        have hpair := hmeet d (by simp) b rfl
        rw [hfree] at hpair
        simpa using hpair
      have hlast : (0 :: (xs' ++ [d]).map Block.addr).getLast (by simp) = d.addr := by simp
      rw [hlast, hrep.free d hd, hused]
      rfl

/-- In a reachable state a pointer that is not held and whose second release has nothing to do. -/
theorem Inv.kfree_of_detected (h : Inv P start e c bs K O) (hp : p ∉ c.live.map Prod.fst)
    (hdet : Detected c.state p) : Heap.kfree slabFree c.state p = c.state := by
  rcases hdet with hrej | ⟨hslab, hlisted | hsettled⟩
  · exact kfree_of_rejected hrej
  · by_cases hp44 : p < 44
    · -- there is no block at 0
      obtain ⟨as, hlinks, hmem⟩ := hlisted
      have hzero : p - allocHeaderSize - blockHeaderSize = 0 := by
        unfold allocHeaderSize blockHeaderSize
        omega
      exact absurd hzero (hlinks.isList.ne_zero hmem)
    obtain ⟨as, hlinks, hmem⟩ := hlisted
    obtain rfl : as = bs.map Block.addr := hlinks.isList.unique h.layout.rep.links.isList
    obtain ⟨b, hb, haddr⟩ := List.mem_map.mp hmem
    have hfree : b.free = true := by
      by_contra hcon
      have hheld := (h.used b hb (by simpa using hcon)).2
      have hpb : b.addr + 44 = p := by
        unfold allocHeaderSize blockHeaderSize at haddr
        omega
      exact hp (hpb ▸ hheld)
    exact kfree_of_settled hslab (haddr ▸ h.layout.settled hb hfree)
  · exact kfree_of_settled hslab hsettled

/-! ### Runs -/

/-- A pointer that is not held is released, and `kfree` has nothing to do. -/
def FreedAgain (c : Run A) : Op → Prop
  | .free p => p ∉ c.live.map Prod.fst ∧ Detected c.state p
  | _ => False

/-- Releases that have nothing to do may stand in a run. -/
theorem Inv.step_freedAgain (h : Inv P start e c bs K O) {op : Op} (hagain : FreedAgain c op) :
    Heap.step slabAlloc slabFree c op = some c := by
  cases op with
  | free p =>
      obtain ⟨hp, hdet⟩ := hagain
      show some (⟨Heap.kfree slabFree c.state p, drop p c.live⟩ : Run A) = some c
      rw [h.kfree_of_detected hp hdet, drop_of_not_mem hp]
  | enableSlab => exact absurd hagain id
  | malloc size => exact absurd hagain id
  | calloc num size => exact absurd hagain id
  | realloc ptr size => exact absurd hagain id
  | write addr byte => exact absurd hagain id

/-- In every run, also one that releases pointers twice where that has nothing to do, the release of a pointer
that is not held disturbs nothing if it has nothing to do. -/
theorem double_free_harmless (P : Objects A) {slabAlloc : ℕ → Machine A → ℕ × Machine A}
    {slabFree : ℕ → ℕ → Machine A → Machine A} {slabCacheCreate : ℕ → ℕ → Machine A → ℕ × Machine A}
    (hP : P.Working slabAlloc slabFree) (s : Machine A) (hs : P.Owns s (fun _ => none) ∅) (slabInitialized : Bool)
    (hC : slabInitialized = true → P.Creates slabCacheCreate) (start size : ℕ) (h0 : 0 < start)
    (hend : start + size ≤ 2 ^ 64) (hsize : 48 ≤ size) (hlt : size ≤ 2 ^ 63)
    (hregion : ∀ x, start ≤ x → x < start + size → x ∈ P.outside) (ops : List Op)
    (hg : Guarded (step slabAlloc slabFree) (fun c op => Valid c op ∧ Fits c op ∨ FreedAgain c op)
      (boot slabCacheCreate s slabInitialized start size) ops) :
    ∃ c, exec (step slabAlloc slabFree) (boot slabCacheCreate s slabInitialized start size) ops = some c ∧
      ∀ p, p ∉ c.live.map Prod.fst → Detected c.state p → Undisturbed c (kfree slabFree c.state p) := by
  have hstep : ∀ (c : Run A) op, (∃ bs K O, Inv P start (start + size) c bs K O) →
      Valid c op ∧ Fits c op ∨ FreedAgain c op → ∃ c', step slabAlloc slabFree c op = some c' ∧
        ∃ bs K O, Inv P start (start + size) c' bs K O := by
    rintro c op ⟨bs, K, O, h⟩ (⟨hvalid, hfits⟩ | hagain)
    · obtain ⟨c', bs', O', hc', h', -⟩ := h.step hP hend (by omega) hvalid hfits
      exact ⟨c', hc', bs', K, O', h'⟩
    · exact ⟨c, h.step_freedAgain hagain, bs, K, O, h⟩
  obtain ⟨K, hboot⟩ := inv_boot hs h0 hsize hend hregion hC
  obtain ⟨c, hexec, bs, K, O, h⟩ := exec_total hstep ⟨_, K, _, hboot⟩ hg
  refine ⟨c, hexec, fun p hp hdet => ?_⟩
  rw [h.kfree_of_detected hp hdet]
  exact Undisturbed.refl c

/-- What the clients may do, as a test; no request goes to a slab cache. -/
def proper (c : Run Unit) : Op → Bool
  | .malloc size => decide (Valid c (.malloc size)) && decide (cacheFor c.state size = 0)
  | .free p => decide (Valid c (.free p))
  | .write addr byte => decide (Valid c (.write addr byte))
  | _ => false

/-- `FreedAgain` as a test, for the block at the start of the heap. -/
def again (c : Run Unit) : Op → Bool
  | .free p => p ∉ c.live.map Prod.fst ∧ headerFlags c.state.mem (p - 12) &&& allocFromSlab = 0 ∧
      blockFree c.state.mem (p - 44) = 1 ∧ blockFree c.state.mem (blockNext c.state.mem (p - 44)) = 0 ∧
      blockPrev c.state.mem (p - 44) = 0
  | _ => false

/-- The test of a call is sound. -/
theorem valid_of_proper (c : Run Unit) (op : Op) (h : proper c op = true) : Valid c op ∧ Fits c op := by
  cases op with
  | malloc size =>
      obtain ⟨hvalid, hcache⟩ := Bool.and_eq_true_iff.mp h
      exact ⟨of_decide_eq_true hvalid, fun hne => absurd (of_decide_eq_true hcache) hne⟩
  | free p => exact ⟨of_decide_eq_true h, trivial⟩
  | write addr byte => exact ⟨of_decide_eq_true h, trivial⟩
  | enableSlab => exact absurd h nofun
  | calloc num size => exact absurd h nofun
  | realloc ptr size => exact absurd h nofun

/-- The test of a double free is sound. -/
theorem freedAgain_of_again (c : Run Unit) (op : Op) (h : again c op = true) : FreedAgain c op := by
  cases op with
  | free p =>
      obtain ⟨hp, hslab, hfree, hnext, hprev⟩ := of_decide_eq_true h
      exact ⟨hp, Or.inr ⟨hslab, Or.inr ⟨hfree, Or.inr hnext, Or.inl hprev⟩⟩⟩
  | malloc size => exact absurd h nofun
  | enableSlab => exact absurd h nofun
  | calloc num size => exact absurd h nofun
  | realloc ptr size => exact absurd h nofun
  | write addr byte => exact absurd h nofun

/-- On the heap of `kernel_main` the first of three allocations is released twice, and another one is written to. -/
theorem double_free_harmless_kernel :
    ∃ c, exec (step (fun _ s => (0, s)) fun _ _ s => s)
        (boot (fun _ _ s => (0, s)) ⟨fun _ => 0, ()⟩ false 0x80000000 0x1000000)
        [.malloc 100, .malloc 50, .malloc 20, .free 0x8000002c, .write 0x800000bc 7, .free 0x8000002c] = some c ∧
      ∀ p, p ∉ c.live.map Prod.fst → Detected c.state p →
        Undisturbed c (kfree (fun _ _ s => s) c.state p) := by
  have htest : guardedBy (step (fun _ s => (0, s)) fun _ _ s => s) (fun c op => proper c op || again c op)
      (boot (fun _ _ s => (0, s)) ⟨fun _ => 0, ()⟩ false 0x80000000 0x1000000)
      [.malloc 100, .malloc 50, .malloc 20, .free 0x8000002c, .write 0x800000bc 7, .free 0x8000002c] = true := by
    decide +kernel
  exact double_free_harmless (Objects.none Unit) (Objects.working_none _ _) _ ⟨fun _ => rfl, rfl⟩ false
    nofun _ _ (by norm_num) (by norm_num) (by norm_num) (by norm_num) (fun x _ _ => Set.mem_univ x) _
    (guarded_of_guardedBy (fun c op hop => (Bool.or_eq_true_iff.mp hop).imp (valid_of_proper c op)
      (freedAgain_of_again c op)) htest)

/-- Of four allocations the first three are released, and become one block; releasing the second one again
makes `prev` of the fourth lead to it. -/
theorem double_free_relinks : ¬ ∀ (start size : ℕ) (ops ops' : List Op) (c c' : Run Unit) (p : ℕ),
    Guarded (step (fun _ s => (0, s)) fun _ _ s => s) (fun c op => Valid c op ∧ Fits c op)
      (boot (fun _ _ s => (0, s)) ⟨fun _ => 0, ()⟩ false start size) (ops ++ ops') →
    exec (step (fun _ s => (0, s)) fun _ _ s => s) (boot (fun _ _ s => (0, s)) ⟨fun _ => 0, ()⟩ false start size)
      ops = some c → exec (step (fun _ s => (0, s)) fun _ _ s => s) c ops' = some c' →
    p ∈ c.live.map Prod.fst → p ∉ c'.live.map Prod.fst → Undisturbed c' (kfree (fun _ _ s => s) c'.state p) := by
  intro h
  have hrun : ((exec (step (fun _ s => (0, s)) fun _ _ s => s)
      (boot (fun _ _ s => (0, s)) ⟨fun _ => 0, ()⟩ false 0x80000000 0x1000000)
      [.malloc 4, .malloc 4, .malloc 4, .malloc 4]).bind fun c =>
        (exec (step (fun _ s => (0, s)) fun _ _ s => s) c
          [.free 0x8000002c, .free 0x8000005c, .free 0x8000008c]).map fun c' =>
          (c.live, c'.live, [c'.state.heapHead, blockPrev c'.state.mem 0x80000000, blockNext c'.state.mem 0x80000000,
            blockPrev c'.state.mem 0x80000090, blockNext c'.state.mem 0x80000090,
            blockPrev c'.state.mem 0x800000c0, blockNext c'.state.mem 0x800000c0,
            blockPrev (kfree (fun _ _ s => s) c'.state 0x8000005c).mem 0x80000090]))
      = some ([(0x800000bc, 4), (0x8000008c, 4), (0x8000005c, 4), (0x8000002c, 4)], [(0x800000bc, 4)],
          [0x80000000, 0, 0x80000090, 0x80000000, 0x800000c0, 0x80000090, 0, 0x80000030]) := by
    decide +kernel
  obtain ⟨c, hc, hrest⟩ := Option.bind_eq_some_iff.mp hrun
  obtain ⟨c', hc', hval⟩ := Option.map_eq_some_iff.mp hrest
  simp only [Prod.mk.injEq, List.cons.injEq, and_true] at hval
  obtain ⟨hlive, hlive', hhead, hpv, hnx, hpv₁, hnx₁, hpv₂, hnx₂, hbroken⟩ := hval
  have htest : guardedBy (step (fun _ s => (0, s)) fun _ _ s => s) proper
      (boot (fun _ _ s => (0, s)) ⟨fun _ => 0, ()⟩ false 0x80000000 0x1000000)
      ([.malloc 4, .malloc 4, .malloc 4, .malloc 4] ++ [.free 0x8000002c, .free 0x8000005c, .free 0x8000008c])
        = true := by
    decide +kernel
  have hmem : 0x8000005c ∈ c.live.map Prod.fst := by
    rw [hlive]
    decide
  have hmem' : 0x8000005c ∉ c'.live.map Prod.fst := by
    rw [hlive']
    decide
  have hund := h 0x80000000 0x1000000 _ _ c c' 0x8000005c (guarded_of_guardedBy valid_of_proper htest) hc hc'
    hmem hmem'
  -- the first block, the fourth allocation, and the rest of the heap
  have hlinks : IsDList (blockNext c'.state.mem) (blockPrev c'.state.mem) 0 [0x80000000, 0x80000090, 0x800000c0]
      c'.state.heapHead := by
    refine ⟨hhead, by norm_num, hpv, hnx, by norm_num, hpv₁, hnx₁, by norm_num, hpv₂, hnx₂⟩
  obtain ⟨⟨-, -, -, -, -, hpv₁', -⟩, -⟩ := hund.blocks _ hlinks
  rw [hbroken] at hpv₁'
  exact absurd hpv₁' (by norm_num)

end PrometheusKernel.Heap
