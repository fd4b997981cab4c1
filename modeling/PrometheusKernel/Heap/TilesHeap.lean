import PrometheusKernel.Heap.Run

/-!
# The block list of a heap without slab caches

`kernel_main` calls `heap_init` before `heap_enable_slab`, so that the slab caches of the heap are never
created: every allocation is a block of the heap. `blocks_tile_heap` reads off what the invariant of
`Heap.Run` then says about the memory.
-/

namespace PrometheusKernel.Heap

open ByteMem LinkedList Tiling Interleaving

variable {A : Type} {start e size : ℕ} {c : Run A} {bs : List Block} {K : ℕ → Option ℕ} {O : Set (ℕ × ℕ)}

/-- The blocks with addresses `as` tile the heap, and the live allocations lie between their headers. -/
structure TilesHeap (start size : ℕ) (m : Mem) (head : ℕ) (live : List (ℕ × ℕ)) (as : List ℕ) : Prop where
  /-- `next` visits the blocks from `g_heap_head` on, and `prev` is its inverse. -/
  links : IsDList (blockNext m) (blockPrev m) 0 as head
  first : as.head? = some start
  increasing : as.Pairwise (· < ·)
  contiguous : as.IsChain fun a b => b = a + blockHeaderSize + blockSize m a
  last : ∀ a ∈ as.getLast?, a + blockHeaderSize + blockSize m a = start + size
  coalesced : as.IsChain fun a b => ¬ (blockFree m a ≠ 0 ∧ blockFree m b ≠ 0)
  disjoint : live.Pairwise fun p q => p.1 + p.2 ≤ q.1 ∨ q.1 + q.2 ≤ p.1
  inside : ∀ p ∈ live, start ≤ p.1 ∧ p.1 + p.2 ≤ start + size
  apart : ∀ p ∈ live, ∀ a ∈ as, p.1 + p.2 ≤ a ∨ a + blockHeaderSize ≤ p.1
  /-- Without allocations the heap is the block that `heap_init` made. -/
  initial : live = [] → as = [start] ∧ blockSize m start = size - blockHeaderSize ∧ blockFree m start = 1

/-- The addresses of a tiling, in terms of the sizes in memory. -/
theorem contiguous_of_tiles {m : Mem} (ht : Tiles blockHeaderSize start bs e)
    (hsize : ∀ b ∈ bs, blockSize m b.addr = b.size) :
    ((bs.map Block.addr).IsChain fun a b => b = a + blockHeaderSize + blockSize m a) ∧
      ∀ a ∈ (bs.map Block.addr).getLast?, a + blockHeaderSize + blockSize m a = e := by
  induction bs generalizing start with
  | nil => exact ⟨List.IsChain.nil, fun a ha => absurd ha (by simp)⟩
  | cons b bs ih =>
      obtain ⟨rfl, hrest⟩ := ht
      have hb := hsize b List.mem_cons_self
      obtain ⟨h1, h2⟩ := ih hrest fun c hc => hsize c (List.mem_cons_of_mem _ hc)
      rw [List.map_cons]
      cases bs with
      | nil =>
          refine ⟨List.isChain_singleton _, fun a ha => ?_⟩
          obtain rfl : b.addr = a := by simpa using ha
          rw [hb]
          exact hrest
      | cons c bs =>
          refine ⟨?_, ?_⟩
          · rw [List.map_cons, List.isChain_cons_cons]
            refine ⟨?_, h1⟩
            rw [hb]
            exact hrest.1
          · intro a ha
            rw [List.map_cons, List.getLast?_cons_cons] at ha
            exact h2 a ha

/-- Without caches every allocation is a block. -/
theorem Inv.held_block (h : Inv (Objects.none A) start e c bs K O) {q : ℕ × ℕ} (hq : q ∈ c.live) :
    HeldBlock c.state.mem bs q := by
  refine (h.held q hq).resolve_right ?_
  rintro ⟨a, i, -, -, ho, -⟩
  rw [h.owns.2] at ho
  exact ho

/-- Without slab caches `kmalloc` is its heap part. -/
theorem Inv.kmalloc_eq {slabAlloc : ℕ → Machine A → ℕ × Machine A} {s : State A} {live : List (ℕ × ℕ)}
    (h : Inv (Objects.none A) start e ⟨s, live⟩ bs K O) :
    Heap.kmalloc slabAlloc s size = if size = 0 then some (0, s) else Heap.kmallocHeap s size := by
  have hcache : cacheFor s size = 0 := by
    by_contra hcon
    obtain ⟨i, -, hi⟩ := cacheFor_eq hcon
    have hK := h.caches i (hi ▸ hcon)
    rw [h.owns.1] at hK
    exact absurd hK nofun
  unfold Heap.kmalloc
  rw [hcache, if_pos rfl]

/-- The blocks of a state with the invariant tile the heap. -/
theorem Inv.tilesHeap (h : Inv (Objects.none A) start (start + size) c bs K O) (hsize : 0 < size) :
    TilesHeap start size c.state.mem c.state.heapHead c.live (bs.map Block.addr) := by
  have hrep := h.layout.rep
  have ht := h.layout.tiles
  obtain ⟨b₀, bs₀, rfl⟩ : ∃ b₀ bs₀, bs = b₀ :: bs₀ := by
    cases bs with
    | nil => exact absurd (show start = start + size from ht) (by omega)
    | cons b bs => exact ⟨b, bs, rfl⟩
  obtain ⟨hcont, hlast⟩ := contiguous_of_tiles ht hrep.size
  refine ⟨hrep.links, ?_, ?_, hcont, hlast, ?_, ?_, ?_, ?_, ?_⟩
  · rw [List.map_cons, List.head?_cons, ht.1]
  · rw [List.pairwise_map]
    refine ht.pairwise.imp fun hxy => ?_
    unfold blockHeaderSize at hxy
    omega
  · rw [List.isChain_map]
    refine List.IsChain.imp_of_mem_imp ?_ h.layout.coalesced
    rintro x y hx hy hxy ⟨hfx, hfy⟩
    rw [hrep.free x hx] at hfx
    rw [hrep.free y hy] at hfy
    exact hxy ⟨by simpa using hfx, by simpa using hfy⟩
  · have hne : c.live.Pairwise fun p q => p.1 ≠ q.1 := List.pairwise_map.mp h.nodup
    refine hne.imp_of_mem fun {p q} hp hq hpq => ?_
    have := Inv.apart (s := c.state) h hp hq hpq
    omega
  · intro p hp
    obtain ⟨x, hx, -, hpx, hallocx⟩ := h.held_block hp
    have := ht.mem_le hx
    have := hallocx.le
    unfold blockHeaderSize at *
    omega
  · intro p hp a ha
    obtain ⟨x, hx, -, hpx, hallocx⟩ := h.held_block hp
    obtain ⟨y, hy, rfl⟩ := List.mem_map.mp ha
    have := hallocx.le
    by_cases hxy : x = y
    · subst hxy
      unfold blockHeaderSize
      omega
    · have := ht.apart hx hy hxy
      unfold blockHeaderSize at *
      omega
  · intro hnil
    have hfree : ∀ b ∈ b₀ :: bs₀, b.free = true := by
      intro b hb
      by_contra hbf
      have := (h.used b hb (by simpa using hbf)).2
      rw [hnil] at this
      exact absurd this (by simp)
    have hlen := h.layout.coalesced.single hfree
    obtain rfl : bs₀ = [] := List.length_eq_zero_iff.mp (by simpa using hlen)
    obtain ⟨rfl, hend⟩ := ht
    refine ⟨rfl, ?_, ?_⟩
    · have hend' : b₀.addr + 32 + b₀.size = b₀.addr + size := hend
      rw [hrep.size b₀ List.mem_cons_self]
      unfold blockHeaderSize
      omega
    · rw [hrep.free b₀ List.mem_cons_self, hfree b₀ List.mem_cons_self]
      rfl

/-- Without caches no request goes to one. -/
theorem Inv.fits_none (h : Inv (Objects.none A) start e c bs K O) (op : Op) : Fits c op := by
  have hroomy : ∀ n, Roomy c.state n := by
    intro n hcache
    obtain ⟨i, -, hi⟩ := cacheFor_eq hcache
    have hK := h.caches i (hi ▸ hcache)
    rw [h.owns.1] at hK
    exact absurd hK nofun
  cases op with
  | malloc n => exact hroomy n
  | calloc k n => exact hroomy (k * n)
  | realloc q n => exact Or.inr (hroomy n)
  | enableSlab => trivial
  | free q => trivial
  | write a v => trivial

/-- In every run of the heap without slab caches, from `heap_init` on, the blocks tile the heap. -/
theorem blocks_tile_heap (slabAlloc : ℕ → Machine A → ℕ × Machine A)
    (slabFree : ℕ → ℕ → Machine A → Machine A)
    (slabCacheCreate : ℕ → ℕ → Machine A → ℕ × Machine A) (s : Machine A) (start size : ℕ)
    (h0 : 0 < start) (hend : start + size ≤ 2 ^ 64) (hsize : 48 ≤ size) (hlt : size ≤ 2 ^ 32)
    (ops : List Op)
    (hv : Guarded (step slabAlloc slabFree) Valid (boot slabCacheCreate s false start size) ops) :
    ∃ c as, exec (step slabAlloc slabFree) (boot slabCacheCreate s false start size) ops = some c ∧
      TilesHeap start size c.state.mem c.state.heapHead c.live as := by
  have hP := Objects.working_none (A := A) slabAlloc slabFree
  have hstep : ∀ (c : Run A) op, (∃ bs K O, Inv (Objects.none A) start (start + size) c bs K O) →
      Valid c op → ∃ c', step slabAlloc slabFree c op = some c' ∧
        ∃ bs K O, Inv (Objects.none A) start (start + size) c' bs K O := by
    rintro c op ⟨bs, K, O, h⟩ hvalid
    obtain ⟨c', bs', O', hc', h', -⟩ := h.step hP hend (by omega) hvalid (h.fits_none op)
    exact ⟨c', hc', bs', K, O', h'⟩
  obtain ⟨K, hboot⟩ := inv_boot (P := Objects.none A) (s := s)
    ⟨fun _ => rfl, rfl⟩ h0 hsize hend (fun x _ _ => Set.mem_univ x)
    (show false = true → (Objects.none A).Creates slabCacheCreate by simp)
  obtain ⟨c, hexec, bs, K, O, h⟩ := exec_total hstep ⟨_, K, _, hboot⟩ hv
  exact ⟨c, _, hexec, h.tilesHeap (by omega)⟩

/-- The heap of `kernel_main`, an allocation of 100 bytes, and its release. -/
theorem blocks_tile_heap_kernel :
    ∃ c as, exec (step (fun _ s => (0, s)) fun _ _ s => s)
        (boot (fun _ _ s => (0, s)) ⟨fun _ => 0, ()⟩ false 0x80000000 0x1000000)
        [.malloc 100, .enableSlab, .free 0x8000002c] = some c ∧
      TilesHeap 0x80000000 0x1000000 c.state.mem c.state.heapHead c.live as := by
  refine blocks_tile_heap _ _ _ _ _ _ (by norm_num) (by norm_num) (by norm_num) (by norm_num) _
    ⟨(show 100 + 28 ≤ 2 ^ 64 by norm_num), fun c hc => ⟨trivial, fun c' hc' => ⟨Or.inr ?_, fun _ _ => trivial⟩⟩⟩
  have hlive : (step (fun _ s => (0, s)) (fun _ _ s => s)
      (boot (fun _ _ s => (0, s)) ⟨fun _ => 0, ()⟩ false 0x80000000 0x1000000) (.malloc 100)).map Run.live
        = some [(0x8000002c, 100)] := by
    decide +kernel
  rw [hc, Option.map_some] at hlive
  obtain rfl := Option.some.inj hc'
  show 0x8000002c ∈ c.live.map Prod.fst
  rw [Option.some.inj hlive]
  exact List.mem_cons_self

end PrometheusKernel.Heap
