import PrometheusKernel.Heap.SlabRanges

/-!
# The alignment of heap pointers

`align16` rounds the size of a block, so blocks start at multiples of 16 when the heap does. A pointer is the
32 bytes of the block header and the 12 bytes of the allocation header behind that, and 44 is 12 modulo 16:
no pointer into the heap is a multiple of 16 (`heap_pointers_misaligned`), nor of 8.
-/

namespace PrometheusKernel.Heap

open ByteMem LinkedList Tiling Interleaving

variable {A : Type} {P : Objects A} {start e : ℕ} {c : Run A} {bs : List Block} {K : ℕ → Option ℕ}
  {O : Set (ℕ × ℕ)}

/-- Every block starts at a multiple of 16. -/
def OnGrid (bs : List Block) : Prop := ∀ b ∈ bs, b.addr % 16 = 0

/-- Blocks at multiples of 16 from blocks on the grid are on it. -/
theorem OnGrid.of_grid {bs' : List Block} (h : OnGrid bs) (hgrid : Grid bs bs') : OnGrid bs' := by
  intro c hc
  obtain ⟨d, hd, hcd⟩ := hgrid c hc
  rw [hcd]
  exact h d hd

/-- An allocation whose header says that it is from the heap. -/
def FromHeap (m : Mem) (q : ℕ × ℕ) : Prop := headerFlags m (q.1 - allocHeaderSize) = allocFromHeap

/-- An allocation from the heap is a block. -/
theorem Inv.block_of_fromHeap (h : Inv P start e c bs K O) {q : ℕ × ℕ} (hq : q ∈ c.live)
    (hheap : FromHeap c.state.mem q) : HeldBlock c.state.mem bs q := by
  apply (h.held q hq).resolve_right
  rintro ⟨a, i, -, -, -, hqa, hal⟩
  unfold FromHeap allocHeaderSize at hheap
  rw [hqa, Nat.add_sub_cancel, hal.flags] at hheap
  exact absurd hheap (by decide)

/-- In every run every pointer into the heap is 12 modulo 16. -/
theorem heap_pointers_misaligned (P : Objects A) {slabAlloc : ℕ → Machine A → ℕ × Machine A}
    {slabFree : ℕ → ℕ → Machine A → Machine A} {slabCacheCreate : ℕ → ℕ → Machine A → ℕ × Machine A}
    (hP : P.Working slabAlloc slabFree) (s : Machine A) (hs : P.Owns s (fun _ => none) ∅) (slabInitialized : Bool)
    (hC : slabInitialized = true → P.Creates slabCacheCreate) (start size : ℕ) (h16 : start % 16 = 0)
    (h0 : 0 < start) (hend : start + size ≤ 2 ^ 64) (hsize : 48 ≤ size) (hlt : size ≤ 2 ^ 63)
    (hregion : ∀ x, start ≤ x → x < start + size → x ∈ P.outside) (ops : List Op)
    (hg : Guarded (step slabAlloc slabFree) (fun c op => Valid c op ∧ Fits c op)
      (boot slabCacheCreate s slabInitialized start size) ops) :
    ∃ c, exec (step slabAlloc slabFree) (boot slabCacheCreate s slabInitialized start size) ops = some c ∧
      ∀ q ∈ c.live, FromHeap c.state.mem q → q.1 % 16 = 12 := by
  have hstep : ∀ (c : Run A) op, (∃ bs K O, Inv P start (start + size) c bs K O ∧ OnGrid bs) →
      Valid c op ∧ Fits c op → ∃ c', step slabAlloc slabFree c op = some c' ∧
        ∃ bs K O, Inv P start (start + size) c' bs K O ∧ OnGrid bs := by
    rintro c op ⟨bs, K, O, h, hgrid⟩ ⟨hvalid, hfits⟩
    obtain ⟨c', bs', O', hc', h', hmoved⟩ := h.step hP hend (by omega) hvalid hfits
    exact ⟨c', hc', bs', K, O', h', hgrid.of_grid hmoved⟩
  obtain ⟨K, hboot⟩ := inv_boot hs h0 hsize hend hregion hC
  have hfirst : OnGrid [⟨start, size - 32, true⟩] := by
    intro b hb
    obtain rfl := List.mem_singleton.mp hb
    exact h16
  obtain ⟨c, hexec, bs, K, O, h, hgrid⟩ := exec_total hstep ⟨_, K, _, hboot, hfirst⟩ hg
  refine ⟨c, hexec, fun q hq hheap => ?_⟩
  obtain ⟨b, hb, -, hqb, -⟩ := h.block_of_fromHeap hq hheap
  have haddr := hgrid b hb
  omega

/-- The heap of `kernel_main` after an allocation of 100 bytes. -/
theorem heap_pointers_misaligned_kernel :
    ∃ c, exec (step (fun _ s => (0, s)) fun _ _ s => s)
        (boot (fun _ _ s => (0, s)) ⟨fun _ => 0, ()⟩ false 0x80000000 0x1000000) [.malloc 100] = some c ∧
      ∀ q ∈ c.live, FromHeap c.state.mem q → q.1 % 16 = 12 := by
  refine heap_pointers_misaligned (Objects.none Unit) (Objects.working_none _ _) _ ⟨fun _ => rfl, rfl⟩ false
    nofun _ _ rfl (by norm_num) (by norm_num) (by norm_num) (by norm_num) (fun x _ _ => Set.mem_univ x) _
    ⟨⟨?_, fun hcache => absurd rfl hcache⟩, fun _ _ => trivial⟩
  show 100 + 28 ≤ 2 ^ 64
  norm_num

/-- The first pointer of that heap is `0x8000002c`. -/
theorem first_pointer_misaligned : ¬ ∀ (start size : ℕ) (ops : List Op) (c : Run Unit), start % 16 = 0 →
    Guarded (step (fun _ s => (0, s)) fun _ _ s => s) Valid
      (boot (fun _ _ s => (0, s)) ⟨fun _ => 0, ()⟩ false start size) ops →
    exec (step (fun _ s => (0, s)) fun _ _ s => s) (boot (fun _ _ s => (0, s)) ⟨fun _ => 0, ()⟩ false start size)
      ops = some c → ∀ q ∈ c.live, FromHeap c.state.mem q → q.1 % 16 = 0 := by
  intro h
  have hrun : ((exec (step (fun _ s => (0, s)) fun _ _ s => s)
      (boot (fun _ _ s => (0, s)) ⟨fun _ => 0, ()⟩ false 0x80000000 0x1000000) [.malloc 100]).map fun c =>
        (c.live, headerFlags c.state.mem 0x80000020)) = some ([(0x8000002c, 100)], allocFromHeap) := by
    decide +kernel
  obtain ⟨c, hc, hval⟩ := Option.map_eq_some_iff.mp hrun
  obtain ⟨hlive, hflags⟩ := Prod.mk.inj hval
  have hvalid : 100 + 28 ≤ 2 ^ 64 := by norm_num
  have hmod := h 0x80000000 0x1000000 [.malloc 100] c rfl ⟨hvalid, fun _ _ => trivial⟩ hc (0x8000002c, 100)
    (by rw [hlive]; exact List.mem_cons_self) hflags
  exact absurd hmod (by decide)

end PrometheusKernel.Heap
