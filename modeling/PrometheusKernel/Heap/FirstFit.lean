import PrometheusKernel.Heap.Realloc
import PrometheusKernel.Lib.FirstFit

/-!
# The heap is a first-fit allocator

What a client sees of a heap without slab caches is a set of ranges: those of the blocks that hold its allocations
(`ranges`). `Traced` runs write down what each call asks of the allocator and what it gets, and these events are a
run of `FirstFit` on the ranges (`refines_first_fit`): every request is served at the lowest address at which it
fits, it takes no more than it needs unless less than a header and 16 bytes would remain, and it fails only if it
fits nowhere. The block list with its splits and merges is not visible in the answers.
-/

namespace PrometheusKernel.Heap

open ByteMem LinkedList Tiling Interleaving FirstFit

/-! ### What clients see -/

/-- The block in which the allocation at `p` lies. -/
def blockOf (p : ℕ) : ℕ := p - allocHeaderSize - blockHeaderSize

/-- The bytes of a block that `size` bytes and their header need. -/
def room (size : ℕ) : ℕ := (allocHeaderSize + size + 15) / 16 * 16

/-- The ranges of the blocks that hold the allocations. -/
def ranges (m : Mem) (live : List (ℕ × ℕ)) : Set (ℕ × ℕ) :=
  { u | ∃ q ∈ live, u = (blockOf q.1, blockHeaderSize + blockSize m (blockOf q.1)) }

section runs

variable {A : Type}

/-- A request for `size` bytes that was answered with `r`. -/
def asked (size r : ℕ) : List Event :=
  if size = 0 then [] else [.alloc (room size) (if r = 0 then none else some (blockOf r))]

/-- What the operation, which returned `r`, asked for and gave back. -/
def eventsOf (s : State A) (r : ℕ) : Op → List Event
  | .malloc size => asked size r
  | .calloc num size => if num * size < 2 ^ 64 then asked (num * size) r else []
  | .realloc ptr size =>
      if ptr = 0 then asked size r
      else if size = 0 then [.free (blockOf ptr)]
      else if size ≤ headerSize s.mem (ptr - allocHeaderSize) then []
      else asked size r ++ if r = 0 then [] else [.free (blockOf ptr)]
  | .free ptr => if ptr = 0 then [] else [.free (blockOf ptr)]
  | _ => []

/-- A run that writes the events down. -/
structure Traced (A : Type) extends Run A where
  events : List Event

variable (slabAlloc : ℕ → Machine A → ℕ × Machine A) (slabFree : ℕ → ℕ → Machine A → Machine A)

/-- One operation. -/
def tracedStep (c : Traced A) (op : Op) : Option (Traced A) :=
  (step slabAlloc slabFree c.toRun op).map fun c' =>
    ⟨c', c.events ++ eventsOf c.state (returned slabAlloc slabFree c.toRun op) op⟩

end runs

/-! ### The calls -/

section calls

variable {A : Type} {start e size p n : ℕ} {s s' : State A} {live : List (ℕ × ℕ)} {bs : List Block}
  {K : ℕ → Option ℕ} {O : Set (ℕ × ℕ)} {b : Block} {m : Mem}

/-- The block below a pointer to its contents. -/
theorem blockOf_add (a : ℕ) : blockOf (a + 44) = a := by
  unfold blockOf allocHeaderSize blockHeaderSize
  omega

/-- The ranges are those of the used blocks. -/
theorem Inv.ranges_eq (h : Inv (Objects.none A) start e ⟨s, live⟩ bs K O) :
    ranges s.mem live = usedRanges blockHeaderSize bs := by
  ext u
  constructor
  · rintro ⟨q, hq, rfl⟩
    obtain ⟨b, hb, hbf, hqb, -⟩ := h.held_block hq
    refine ⟨b, hb, hbf, ?_⟩
    rw [hqb, blockOf_add, h.layout.rep.size b hb]
  · rintro ⟨b, hb, hbf, rfl⟩
    obtain ⟨q, hq, hqb⟩ := List.mem_map.mp (h.used b hb hbf).2
    refine ⟨q, hq, ?_⟩
    rw [hqb, blockOf_add, h.layout.rep.size b hb]

/-- The memory after the block at `a` was taken. -/
def takeBlock (m : Mem) (a size : ℕ) : Mem :=
  fillHeader (setFree (splitBlock m a (room size)) a 0) (a + blockHeaderSize) size allocFromHeap slabCacheNone

/-- The loop of `kmalloc` takes the first free block that is large enough. -/
theorem kmallocHeap_eq (h : Layout start e s.mem s.heapHead bs) (he : e ≤ 2 ^ 64) (hsize : size + 28 ≤ 2 ^ 64) :
    kmallocHeap s size = match bs.find? (fun b => b.free && decide (room size ≤ b.size)) with
      | none => some (0, s)
      | some b => some (b.addr + 44, { s with mem := takeBlock s.mem b.addr size }) := by
  have htotal : align16 (Word.add 64 allocHeaderSize size) = room size := by
    unfold room allocHeaderSize
    rw [Word.add_eq (by omega), align16_eq (by omega)]
  have hlt : ∀ a ∈ bs.map Block.addr, a < 2 ^ 64 := by
    intro a ha
    obtain ⟨b, hb, rfl⟩ := List.mem_map.mp ha
    have := (h.tiles.mem_le hb).2
    unfold blockHeaderSize at this
    omega
  have hfind : (bs.map Block.addr).find? (fun b => blockFree s.mem b ≠ 0 ∧ blockSize s.mem b ≥ room size)
      = (bs.find? fun b => b.free && decide (room size ≤ b.size)).map Block.addr := by
    rw [List.find?_map]
    congr 1
    refine List.find?_congr fun b hb => ?_
    simp only [Function.comp_apply, h.rep.free b hb, h.rep.size b hb]
    cases b.free <;> simp
  unfold kmallocHeap
  dsimp only
  rw [htotal, search_walkBound h.rep.links.isList hlt, hfind]
  cases hb : bs.find? fun b => b.free && decide (room size ≤ b.size) with
  | none => rfl
  | some b =>
      have hb0 := h.rep.addr_ne_zero (List.mem_of_find?_eq_some hb)
      obtain ⟨a, ha⟩ : ∃ a, b.addr = a + 1 := ⟨b.addr - 1, by omega⟩
      simp only [Option.map_some, Option.getD_some, ha]
      rfl

/-- The block is split if a header and 16 bytes remain. -/
theorem blockSize_takeBlock (h : Layout start e m n bs) (he : e ≤ 2 ^ 64) (hspan : e ≤ start + 2 ^ 63) (hb : b ∈ bs)
    (hroom : room size ≤ b.size) :
    blockSize (takeBlock m b.addr size) b.addr = if room size + 48 ≤ b.size then room size else b.size := by
  have hsize := h.rep.size b hb
  have hend := h.tiles.mem_le hb
  unfold blockHeaderSize at hend
  have hfields : blockSize (takeBlock m b.addr size) b.addr = blockSize (splitBlock m b.addr (room size)) b.addr := by
    refine load_congr ?_
    rintro x ⟨h1, h2⟩
    unfold takeBlock
    rw [fillHeader_apply (by unfold blockHeaderSize; omega)]
    exact store_apply_of_lt_or_le (by omega)
  rw [hfields]
  split_ifs with hsplit
  · obtain ⟨xs, ys, rfl⟩ := List.append_of_mem hb
    obtain ⟨hcb, hc64⟩ := next_bound h.rep h.tiles he
    exact (splitBlock_fields (by omega) (by omega) rfl (by rw [hsize]; exact hcb) hc64).1
  · rw [splitBlock_of_lt (by omega) (by omega), hsize]

/-- The heap part of `kmalloc` is one event. -/
theorem Inv.kmallocHeap_step (h : Inv (Objects.none A) start e ⟨s, live⟩ bs K O) (he : e ≤ 2 ^ 64)
    (hspan : e ≤ start + 2 ^ 63) (hsize : size + 28 ≤ 2 ^ 64) :
    ∃ n s' bs', Heap.kmallocHeap s size = some (n, s') ∧ n ∉ live.map Prod.fst ∧ (n = 0 → s' = s) ∧
      Inv (Objects.none A) start e ⟨s', afterMalloc size n live⟩ bs' K O ∧
      FirstFit.Step start e blockHeaderSize 48 (ranges s.mem live)
        (.alloc (room size) (if n = 0 then none else some (blockOf n))) (ranges s'.mem (afterMalloc size n live)) := by
  obtain ⟨n, s', bs', hcall, hnew, hinv, -, hnull, -⟩ := h.kmallocHeap he hspan hsize
  have hpos : 0 < blockHeaderSize := by unfold blockHeaderSize; norm_num
  have heq := kmallocHeap_eq h.layout he hsize
  have hzero : (0 : ℕ) ∉ live.map Prod.fst := fun hmem => h.ne_zero hmem rfl
  refine ⟨n, s', bs', hcall, ?_, hnull, hinv, ?_⟩
  · by_cases hn : n = 0
    · exact hn ▸ hzero
    · exact hnew hn
  cases hfind : bs.find? fun b => b.free && decide (room size ≤ b.size) with
  | none =>
      rw [hfind, hcall] at heq
      obtain ⟨rfl, rfl⟩ := Prod.mk.inj (Option.some.inj heq)
      have hafter : afterMalloc size 0 live = live := if_pos rfl
      rw [if_pos rfl, hafter, h.ranges_eq]
      exact .full fun x => not_vacant_of_find h.layout.tiles h.layout.coalesced hpos hfind
  | some b =>
      rw [hfind, hcall] at heq
      obtain ⟨rfl, rfl⟩ := Prod.mk.inj (Option.some.inj heq)
      have hb := List.mem_of_find?_eq_some hfind
      obtain ⟨hbf, hroom⟩ : b.free = true ∧ room size ≤ b.size := by simpa using List.find?_some hfind
      have hafter : afterMalloc size (b.addr + 44) live = (b.addr + 44, size) :: live := if_neg (by omega)
      rw [hafter] at hinv ⊢
      rw [if_neg (by omega), blockOf_add]
      -- the blocks of the other allocations stay
      have hkeep : ∀ q ∈ live,
          blockSize (takeBlock s.mem b.addr size) (blockOf q.1) = blockSize s.mem (blockOf q.1) := by
        intro q hq
        obtain ⟨d, hd, hdf, hqd, -⟩ := h.held_block hq
        rcases kmallocHeap_spec h.layout he hspan hsize with hfail | ⟨m', b', bs₁, hcall', hlayout, hkeeps, -⟩
        · rw [hcall] at hfail
          exact absurd (Prod.mk.inj (Option.some.inj hfail)).1 (by omega)
        · rw [hcall] at hcall'
          obtain ⟨-, hstate⟩ := Prod.mk.inj (Option.some.inj hcall')
          have hm' : takeBlock s.mem b.addr size = m' := congrArg (fun s : State A => s.mem) hstate
          rw [hqd, blockOf_add, hm', hlayout.rep.size d (hkeeps.mem d hd hdf), h.layout.rep.size d hd]
      have hranges : ranges (takeBlock s.mem b.addr size) ((b.addr + 44, size) :: live) =
          Set.insert (b.addr, blockHeaderSize + if room size + 48 ≤ b.size then room size else b.size)
            (ranges s.mem live) := by
        rw [← blockSize_takeBlock h.layout he hspan hb hroom]
        ext u
        constructor
        · rintro ⟨q, hq, rfl⟩
          rcases List.mem_cons.mp hq with rfl | hq
          · exact Or.inl (by rw [blockOf_add])
          · exact Or.inr ⟨q, hq, by rw [hkeep q hq]⟩
        · rintro (rfl | ⟨q, hq, rfl⟩)
          · exact ⟨_, List.mem_cons_self, by rw [blockOf_add]⟩
          · exact ⟨q, List.mem_cons_of_mem _ hq, by rw [hkeep q hq]⟩
      rw [hranges, h.ranges_eq]
      exact .take (isLeast_of_find h.layout.tiles h.layout.coalesced hpos hfind)
        (granted_of_split h.layout.tiles h.layout.coalesced hpos hb hbf)

/-- `kmalloc` is a request of the abstract allocator. -/
theorem Inv.kmalloc_steps (slabAlloc : ℕ → Machine A → ℕ × Machine A)
    (h : Inv (Objects.none A) start e ⟨s, live⟩ bs K O) (he : e ≤ 2 ^ 64) (hspan : e ≤ start + 2 ^ 63)
    (hsize : size + 28 ≤ 2 ^ 64) :
    ∃ n s' bs', Heap.kmalloc slabAlloc s size = some (n, s') ∧ n ∉ live.map Prod.fst ∧ (n = 0 → s' = s) ∧
      Inv (Objects.none A) start e ⟨s', afterMalloc size n live⟩ bs' K O ∧
      Steps start e blockHeaderSize 48 (ranges s.mem live) (asked size n)
        (ranges s'.mem (afterMalloc size n live)) := by
  rw [h.kmalloc_eq]
  unfold asked
  by_cases h0 : size = 0
  · have hafter : afterMalloc size 0 live = live := if_pos rfl
    refine ⟨0, s, bs, by rw [if_pos h0], fun hmem => h.ne_zero hmem rfl, fun _ => rfl, by rw [hafter]; exact h, ?_⟩
    rw [if_pos h0, hafter]
    exact .nil
  · rw [if_neg h0]
    obtain ⟨n, s', bs', hcall, hnew, hnull, hinv, hstep⟩ := h.kmallocHeap_step he hspan hsize
    exact ⟨n, s', bs', hcall, hnew, hnull, hinv, by rw [if_neg h0]; exact hstep.single⟩

/-- Writes into the bytes of an allocation do not change the ranges. -/
theorem Inv.ranges_write (h : Inv (Objects.none A) start e ⟨s, live⟩ bs K O) {q : ℕ × ℕ} (hq : q ∈ live)
    (hm : ∀ x, x < q.1 ∨ q.1 + q.2 ≤ x → m x = s.mem x) : ranges m live = ranges s.mem live :=
  (h.write hq hm).ranges_eq.trans h.ranges_eq.symm

/-- `kcalloc` is a request of the abstract allocator. -/
theorem Inv.kcalloc_steps (slabAlloc : ℕ → Machine A → ℕ × Machine A)
    (h : Inv (Objects.none A) start e ⟨s, live⟩ bs K O) (he : e ≤ 2 ^ 64) (hspan : e ≤ start + 2 ^ 63) {num : ℕ}
    (hsize : Word.mul 64 num size + 28 ≤ 2 ^ 64) :
    ∃ n s' bs', Heap.kcalloc slabAlloc s num size = some (n, s') ∧
      Inv (Objects.none A) start e ⟨s', afterMalloc (num * size) n live⟩ bs' K O ∧
      Steps start e blockHeaderSize 48 (ranges s.mem live) (if num * size < 2 ^ 64 then asked (num * size) n else [])
        (ranges s'.mem (afterMalloc (num * size) n live)) := by
  by_cases hprod : num * size < 2 ^ 64
  · have hmul : Word.mul 64 num size = num * size := Nat.mod_eq_of_lt hprod
    rw [hmul] at hsize
    obtain ⟨n, s', bs', hcall, -, -, hinv, hsteps⟩ := h.kmalloc_steps slabAlloc he hspan hsize
    rw [kcalloc_of_lt hprod, hcall, Option.map_some]
    simp only [if_pos hprod]
    by_cases hn : n = 0
    · rw [if_pos hn]
      exact ⟨0, s', bs', rfl, hn ▸ hinv, hn ▸ hsteps⟩
    · have hafter : afterMalloc (num * size) n live = (n, num * size) :: live := if_neg hn
      have hfill : ∀ x, x < n ∨ n + num * size ≤ x → fill (num * size) s'.mem n 0 x = s'.mem x := by
        intro x hx
        rw [fill_apply, if_neg (by omega)]
      rw [hafter] at hinv hsteps
      rw [if_neg hn]
      refine ⟨n, _, bs', rfl, ?_, ?_⟩
      · rw [hafter]
        exact hinv.write List.mem_cons_self hfill
      · rw [hafter, hinv.ranges_write List.mem_cons_self hfill]
        exact hsteps
  · have hafter : afterMalloc (num * size) 0 live = live := if_pos rfl
    rw [kcalloc_of_le (not_lt.mp hprod)]
    simp only [if_neg hprod]
    exact ⟨0, s, bs, rfl, by rw [hafter]; exact h, by rw [hafter]; exact .nil⟩

/-- `kfree` of a pointer that is held is one event. -/
theorem Inv.kfree_step (slabFree : ℕ → ℕ → Machine A → Machine A)
    (h : Inv (Objects.none A) start e ⟨s, live⟩ bs K O) (he : e ≤ 2 ^ 64) (hp : p ∈ live.map Prod.fst) :
    ∃ bs', Inv (Objects.none A) start e ⟨Heap.kfree slabFree s p, drop p live⟩ bs' K O ∧
      FirstFit.Step start e blockHeaderSize 48 (ranges s.mem live) (.free (blockOf p))
        (ranges (Heap.kfree slabFree s p).mem (drop p live)) := by
  obtain ⟨q, hq, rfl⟩ := List.mem_map.mp hp
  obtain ⟨b, hb, hbf, hqb, halloc⟩ := h.held_block hq
  rw [hqb, blockOf_add]
  obtain ⟨bs', hinv, -⟩ : ∃ bs', Inv (Objects.none A) start e
      ⟨Heap.kfree slabFree s (b.addr + 44), drop (b.addr + 44) live⟩ bs' K O ∧ _ := h.kfree_block he hb halloc
  obtain ⟨m', bs₁, hcall, hlayout, -, hout, -⟩ : ∃ m' bs₁,
      Heap.kfree slabFree s (b.addr + 44) = { s with mem := m' } ∧ _ := kfree_spec h.layout he hb halloc
  refine ⟨bs', hinv, ?_⟩
  rw [hcall]
  have hkeep : ∀ r ∈ live, r.1 ≠ b.addr + 44 →
      blockOf r.1 ≠ b.addr ∧ blockSize m' (blockOf r.1) = blockSize s.mem (blockOf r.1) := by
    intro r hr hne
    obtain ⟨d, hd, hdf, hrd, -⟩ := h.held_block hr
    have hdb : d.addr ≠ b.addr := fun heq => hne (by rw [hrd, heq])
    rw [hrd, blockOf_add]
    exact ⟨hdb, by rw [hlayout.rep.size d (hout d hd hdf hdb), h.layout.rep.size d hd]⟩
  have hranges : ranges m' (drop (b.addr + 44) live) =
      ranges s.mem live \ {(b.addr, blockHeaderSize + blockSize s.mem b.addr)} := by
    ext u
    constructor
    · rintro ⟨r, hr, rfl⟩
      obtain ⟨hr, hne⟩ := mem_drop.mp hr
      obtain ⟨haddr, hsame⟩ := hkeep r hr hne
      exact ⟨⟨r, hr, by rw [hsame]⟩, fun heq => haddr (Prod.mk.inj heq).1⟩
    · rintro ⟨⟨r, hr, rfl⟩, hu⟩
      have hne : r.1 ≠ b.addr + 44 := by
        intro heq
        rw [heq, blockOf_add] at hu
        exact hu rfl
      exact ⟨r, mem_drop.mpr ⟨hr, hne⟩, by rw [(hkeep r hr hne).2]⟩
  rw [hranges]
  exact .release ⟨q, hq, by rw [hqb, blockOf_add]⟩

/-- A held allocation in a new place. -/
theorem Inv.krealloc_steps (slabAlloc : ℕ → Machine A → ℕ × Machine A) (slabFree : ℕ → ℕ → Machine A → Machine A)
    (h : Inv (Objects.none A) start e ⟨s, live⟩ bs K O) (he : e ≤ 2 ^ 64) (hspan : e ≤ start + 2 ^ 63)
    (hsize : size + 28 ≤ 2 ^ 64) (hp : p = 0 ∨ p ∈ live.map Prod.fst) :
    ∃ n s' bs', Heap.krealloc slabAlloc slabFree s p size = some (n, s') ∧
      Inv (Objects.none A) start e ⟨s', afterRealloc p size n live⟩ bs' K O ∧
      Steps start e blockHeaderSize 48 (ranges s.mem live) (eventsOf s n (.realloc p size))
        (ranges s'.mem (afterRealloc p size n live)) := by
  have hzero : (0 : ℕ) ∉ live.map Prod.fst := fun hmem => h.ne_zero hmem rfl
  unfold Heap.krealloc eventsOf
  dsimp only
  by_cases hp0 : p = 0
  · -- a null pointer: `kmalloc`
    subst hp0
    obtain ⟨n, s', bs', hcall, -, -, hinv, hsteps⟩ := h.kmalloc_steps slabAlloc he hspan hsize
    have hlive : afterRealloc 0 size n live = afterMalloc size n live := by
      unfold afterRealloc afterMalloc
      rw [drop_of_not_mem hzero]
      split_ifs <;> first | rfl | contradiction
    simp only [if_pos]
    exact ⟨n, s', bs', hcall, hlive ▸ hinv, hlive ▸ hsteps⟩
  have hmem := hp.resolve_left hp0
  simp only [if_neg hp0]
  by_cases h0 : size = 0
  · have hlive : afterRealloc p size 0 live = drop p live := by
      unfold afterRealloc
      rw [if_neg (not_not.mpr rfl), if_pos h0]
    obtain ⟨bs', hinv, hstep⟩ := h.kfree_step slabFree he hmem
    simp only [if_pos h0]
    exact ⟨0, _, bs', rfl, hlive ▸ hinv, hlive ▸ hstep.single⟩
  obtain ⟨hmagic, hresize⟩ := h.header hmem
  simp only [if_neg h0, hmagic, ne_eq, not_true_eq_false, if_false]
  by_cases hfit : size ≤ headerSize s.mem (p - allocHeaderSize)
  · have hlive : afterRealloc p size p live = (p, size) :: drop p live := if_pos hp0
    have hinv := h.resize (hresize size hfit)
    simp only [if_pos hfit]
    refine ⟨p, s, bs, rfl, hlive ▸ hinv, ?_⟩
    rw [hlive, hinv.ranges_eq, ← h.ranges_eq]
    exact .nil
  simp only [if_neg hfit]
  obtain ⟨n, s₁, bs₁, hcall, hnew, hnull, hinv, hsteps⟩ := h.kmalloc_steps slabAlloc he hspan hsize
  rw [hcall]
  dsimp only
  by_cases hn : n = 0
  · have hlive : afterRealloc p size 0 live = live := by
      unfold afterRealloc
      rw [if_neg (not_not.mpr rfl), if_neg h0]
    have hafter : afterMalloc size 0 live = live := if_pos rfl
    subst hn
    rw [hafter] at hinv hsteps
    refine ⟨0, s₁, bs₁, rfl, hlive.symm ▸ hinv, ?_⟩
    rw [if_pos rfl, List.append_nil, hlive]
    exact hsteps
  have hafter : afterMalloc size n live = (n, size) :: live := if_neg hn
  have hnp : n ≠ p := fun heq => hnew (heq ▸ hmem)
  have hlive : afterRealloc p size n live = drop p ((n, size) :: live) := by
    unfold afterRealloc drop
    rw [if_pos hn, List.filter_cons_of_pos (by simpa using hnp)]
  rw [hafter] at hinv hsteps
  -- the copy goes into the new allocation, and then the old one is released
  have hout : ∀ x, x < n ∨ n + size ≤ x →
      copyBytes (headerSize s.mem (p - allocHeaderSize)) s₁.mem n p x = s₁.mem x := fun x hx =>
    copyBytes_apply_of_lt_or_le (by omega)
  have hcopy := hinv.write (q := (n, size)) List.mem_cons_self hout
  obtain ⟨bs', hinv', hstep⟩ := hcopy.kfree_step slabFree he (List.mem_cons_of_mem _ hmem)
  rw [hinv.ranges_write List.mem_cons_self hout] at hstep
  simp only [if_neg hn]
  refine ⟨n, _, bs', rfl, hlive ▸ hinv', ?_⟩
  rw [hlive, if_neg hn]
  exact hsteps.append hstep.single

/-- One operation. -/
theorem Inv.step_events (slabAlloc : ℕ → Machine A → ℕ × Machine A) (slabFree : ℕ → ℕ → Machine A → Machine A)
    {c : Run A} (h : Inv (Objects.none A) start e c bs K O) (he : e ≤ 2 ^ 64) (hspan : e ≤ start + 2 ^ 63) {op : Op}
    (hv : Valid c op) :
    ∃ c' bs', Heap.step slabAlloc slabFree c op = some c' ∧ Inv (Objects.none A) start e c' bs' K O ∧
      Steps start e blockHeaderSize 48 (ranges c.state.mem c.live)
        (eventsOf c.state (returned slabAlloc slabFree c op) op) (ranges c'.state.mem c'.live) := by
  obtain ⟨s, live⟩ := c
  cases op with
  | enableSlab => exact ⟨_, bs, rfl, ⟨h.region, h.owns, h.caches, h.layout, h.held, h.used, h.nodup⟩, .nil⟩
  | malloc size =>
      obtain ⟨n, s', bs', hcall, -, -, hinv, hsteps⟩ := h.kmalloc_steps slabAlloc he hspan hv
      refine ⟨⟨s', afterMalloc size n live⟩, bs', by simp [Heap.step, hcall], hinv, ?_⟩
      simpa [eventsOf, returned, hcall] using hsteps
  | calloc num size =>
      obtain ⟨n, s', bs', hcall, hinv, hsteps⟩ := h.kcalloc_steps slabAlloc he hspan hv
      refine ⟨⟨s', afterMalloc (num * size) n live⟩, bs', by simp [Heap.step, hcall], hinv, ?_⟩
      simpa [eventsOf, returned, hcall] using hsteps
  | realloc ptr size =>
      obtain ⟨n, s', bs', hcall, hinv, hsteps⟩ := h.krealloc_steps slabAlloc slabFree he hspan hv.1 hv.2
      have hret : returned slabAlloc slabFree ⟨s, live⟩ (.realloc ptr size) = n := by simp [returned, hcall]
      exact ⟨⟨s', afterRealloc ptr size n live⟩, bs', by simp [Heap.step, hcall], hinv, by rw [hret]; exact hsteps⟩
  | free ptr =>
      by_cases hmem : ptr ∈ live.map Prod.fst
      · obtain ⟨bs', hinv, hstep⟩ := h.kfree_step slabFree he hmem
        refine ⟨_, bs', rfl, hinv, ?_⟩
        have hevents : eventsOf s 0 (.free ptr) = [.free (blockOf ptr)] := if_neg (h.ne_zero hmem)
        show Steps _ _ _ _ _ (eventsOf s 0 (.free ptr)) _
        rw [hevents]
        exact hstep.single
      · have h0 : ptr = 0 := hv.resolve_right hmem
        have hcall : Heap.kfree slabFree s ptr = s := if_pos h0
        refine ⟨⟨s, live⟩, bs, ?_, h, ?_⟩
        · simp [Heap.step, hcall, drop_of_not_mem hmem]
        · have hevents : eventsOf s 0 (.free ptr) = [] := if_pos h0
          show Steps _ _ _ _ _ (eventsOf s 0 (.free ptr)) _
          rw [hevents]
          exact .nil
  | write addr byte =>
      obtain ⟨q, hq, h1, h2⟩ := hv
      have hm : ∀ x, x < q.1 ∨ q.1 + q.2 ≤ x → Function.update s.mem addr byte x = s.mem x :=
        fun x hx => Function.update_of_ne (by omega) _ _
      refine ⟨_, bs, rfl, h.write hq hm, ?_⟩
      show Steps _ _ _ _ _ _ (ranges (Function.update s.mem addr byte) live)
      rw [h.ranges_write hq hm]
      exact .nil

end calls

/-- In every run of the heap without slab caches, the requests, their answers and the releases are a run of the
first-fit allocator on the ranges of the allocations, which starts with the whole heap vacant. -/
theorem refines_first_fit {A : Type} (slabAlloc : ℕ → Machine A → ℕ × Machine A)
    (slabFree : ℕ → ℕ → Machine A → Machine A) (slabCacheCreate : ℕ → ℕ → Machine A → ℕ × Machine A)
    (s : Machine A) (start size : ℕ) (h0 : 0 < start) (hend : start + size ≤ 2 ^ 64) (hsize : 48 ≤ size)
    (hle : size ≤ 2 ^ 63) (ops : List Op)
    (hv : Guarded (tracedStep slabAlloc slabFree) (fun c op => Valid c.toRun op)
      ⟨boot slabCacheCreate s false start size, []⟩ ops) :
    ∃ c, exec (tracedStep slabAlloc slabFree) ⟨boot slabCacheCreate s false start size, []⟩ ops = some c ∧
      Steps start (start + size) blockHeaderSize 48 ∅ c.events (ranges c.state.mem c.live) := by
  have hstep : ∀ (c : Traced A) op,
      (∃ bs K O, Inv (Objects.none A) start (start + size) c.toRun bs K O ∧
        Steps start (start + size) blockHeaderSize 48 ∅ c.events (ranges c.state.mem c.live)) → Valid c.toRun op →
      ∃ c', tracedStep slabAlloc slabFree c op = some c' ∧
        ∃ bs K O, Inv (Objects.none A) start (start + size) c'.toRun bs K O ∧
          Steps start (start + size) blockHeaderSize 48 ∅ c'.events (ranges c'.state.mem c'.live) := by
    rintro c op ⟨bs, K, O, h, hsteps⟩ hvalid
    obtain ⟨c', bs', hcall, h', hsteps'⟩ := h.step_events slabAlloc slabFree hend (by omega) hvalid
    exact ⟨_, by rw [tracedStep, hcall]; rfl, bs', K, O, h', hsteps.append hsteps'⟩
  obtain ⟨K, hboot⟩ := inv_boot (P := Objects.none A) (s := s)
    ⟨fun _ => rfl, rfl⟩ h0 hsize hend (fun x _ _ => Set.mem_univ x)
    (show false = true → (Objects.none A).Creates slabCacheCreate by simp)
  have hempty : ranges (boot slabCacheCreate s false start size).state.mem [] = ∅ := by
    ext u
    exact ⟨fun ⟨q, hq, _⟩ => absurd hq List.not_mem_nil, fun hu => absurd hu (Set.notMem_empty u)⟩
  have hnil : Steps start (start + size) blockHeaderSize 48 ∅ []
      (ranges (boot slabCacheCreate s false start size).state.mem []) := by
    rw [hempty]
    exact .nil
  obtain ⟨c, hexec, -, -, -, -, hsteps⟩ := exec_total hstep ⟨_, K, _, hboot, hnil⟩ hv
  exact ⟨c, hexec, hsteps⟩

/-- On the heap of `kernel_main` two allocations are made, the first one is written, moved and the second one released,
and a third one takes the lowest place that is vacant. -/
theorem refines_first_fit_kernel :
    ∃ c, exec (tracedStep (fun _ s => (0, s)) fun _ _ s => s)
        ⟨boot (fun _ _ s => (0, s)) ⟨fun _ => 0, ()⟩ false 0x80000000 0x1000000, []⟩
        [.malloc 100, .malloc 50, .write 0x8000002c 7, .realloc 0x8000002c 200, .free 0x800000bc, .malloc 20]
          = some c ∧
      Steps 0x80000000 (0x80000000 + 0x1000000) blockHeaderSize 48 ∅ c.events (ranges c.state.mem c.live) :=
  refines_first_fit _ _ _ _ _ _ (by norm_num) (by norm_num) (by norm_num) (by norm_num) _
    (guarded_of_guardedBy (t := fun (c : Traced Unit) op => decide (Valid c.toRun op))
      (fun _ _ h => of_decide_eq_true h) (by decide +kernel))

end PrometheusKernel.Heap
