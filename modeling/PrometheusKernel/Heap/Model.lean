import PrometheusKernel.Machine
import PrometheusKernel.Lib.LinkedList

/-!
# The kernel heap: model of `kernel/mm/heap.c`

A block of the heap is a `block_header_t` of 32 bytes (`size` at offset 0, `free` at 8, `next` at 16,
`prev` at 24) followed by `size` bytes. An allocation puts an `alloc_header_t` of 12 bytes (`magic` at
offset 0, `size` at 4, `flags` at 8, `slab_cache_index` at 10, `padding` at 11) in front of the bytes of
the user. The functions of `slab.c` are parameters; `A` is the state behind them.

`kmalloc` is the slab attempt (`kmallocSlab`) and, where that gives nothing, the first-fit loop
(`kmallocHeap`), which is `LinkedList.search`; `none` is a walk that does not end. Diagnostics are left
out, and `find_slab_cache`, which nothing calls.
-/

namespace PrometheusKernel.Heap

open ByteMem LinkedList

/-! ### Headers -/

/-- `sizeof(block_header_t)`. -/
def blockHeaderSize : ℕ := 32

/-- `b->size`. -/
def blockSize (m : Mem) (b : ℕ) : ℕ := load 8 m b

/-- `b->free`. -/
def blockFree (m : Mem) (b : ℕ) : ℕ := load 4 m (b + 8)

/-- `b->next`. -/
def blockNext (m : Mem) (b : ℕ) : ℕ := load 8 m (b + 16)

/-- `b->prev`. -/
def blockPrev (m : Mem) (b : ℕ) : ℕ := load 8 m (b + 24)

/-- `b->size = v`. -/
def setSize (m : Mem) (b v : ℕ) : Mem := store 8 m b v

/-- `b->free = v`. -/
def setFree (m : Mem) (b v : ℕ) : Mem := store 4 m (b + 8) v

/-- `b->next = v`. -/
def setNext (m : Mem) (b v : ℕ) : Mem := store 8 m (b + 16) v

/-- `b->prev = v`. -/
def setPrev (m : Mem) (b v : ℕ) : Mem := store 8 m (b + 24) v

/-- `sizeof(alloc_header_t)`. -/
def allocHeaderSize : ℕ := 12

/-- `ALLOC_MAGIC`. -/
def allocMagic : ℕ := 0xDEADBEEF

/-- `ALLOC_FROM_SLAB`. -/
def allocFromSlab : ℕ := 0x01

/-- `ALLOC_FROM_HEAP`. -/
def allocFromHeap : ℕ := 0x02

/-- `SLAB_CACHE_NONE`. -/
def slabCacheNone : ℕ := 0xFF

/-- `header->magic`. -/
def headerMagic (m : Mem) (header : ℕ) : ℕ := load 4 m header

/-- `header->size`. -/
def headerSize (m : Mem) (header : ℕ) : ℕ := load 4 m (header + 4)

/-- `header->flags`. -/
def headerFlags (m : Mem) (header : ℕ) : ℕ := load 2 m (header + 8)

/-- `header->slab_cache_index`. -/
def headerCacheIndex (m : Mem) (header : ℕ) : ℕ := load 1 m (header + 10)

/-- The five writes that fill an allocation header. -/
def fillHeader (m : Mem) (header size flags cacheIndex : ℕ) : Mem :=
  let m := store 4 m header allocMagic
  let m := store 4 m (header + 4) size
  let m := store 2 m (header + 8) flags
  let m := store 1 m (header + 10) cacheIndex
  store 1 m (header + 11) 0

/-! ### State -/

/-- Memory, the slab allocator and the globals of `heap.c`. -/
structure State (A : Type) extends Machine A where
  /-- `g_heap_start`. -/
  heapStart : ℕ
  /-- `g_heap_size`. -/
  heapSize : ℕ
  /-- `g_heap_head`. -/
  heapHead : ℕ
  /-- `g_slab_initialized`. -/
  slabInitialized : Bool
  /-- `g_cache_16`, ..., `g_cache_2048`, by their `SLAB_CACHE_*` index; 0 is null. -/
  caches : ℕ → ℕ

/-- `align16`. -/
def align16 (n : ℕ) : ℕ := Word.add 64 n 15 &&& (2 ^ 64 - 1 - 15)

section functions

variable {A : Type}

/-- The state before `heap_init`: static storage is zero. -/
def unset (s : Machine A) (slabInitialized : Bool) : State A :=
  ⟨s, 0, 0, 0, slabInitialized, fun _ => 0⟩

/-- `heap_enable_slab`. -/
def heapEnableSlab (s : State A) : State A := { s with slabInitialized := true }

/-- `object_size` of the cache with index `i`. -/
def classSize (i : ℕ) : ℕ := 16 * 2 ^ i

/-- The caches that `heap_init` creates, from index `i` on. -/
def createCaches (slabCacheCreate : ℕ → ℕ → Machine A → ℕ × Machine A) : ℕ → ℕ → State A → State A
  | 0, _, s => s
  | n + 1, i, s =>
      let res := slabCacheCreate (classSize i) 16 s.toMachine
      createCaches slabCacheCreate n (i + 1)
        { s with toMachine := res.2, caches := Function.update s.caches i res.1 }

/-- `heap_init`. -/
def heapInit (slabCacheCreate : ℕ → ℕ → Machine A → ℕ × Machine A) (s : State A) (start size : ℕ) :
    State A :=
  let m := setSize s.mem start (Word.sub 64 size blockHeaderSize)
  let m := setFree m start 1
  let m := setNext m start 0
  let m := setPrev m start 0
  let s := { s with mem := m, heapStart := start, heapSize := size, heapHead := start }
  if s.slabInitialized then createCaches slabCacheCreate 8 0 s else s

/-- `split_block`. -/
def splitBlock (m : Mem) (b size : ℕ) : Mem :=
  if blockSize m b ≥ Word.add 64 (Word.add 64 size blockHeaderSize) 16 then
    let n := b + blockHeaderSize + size
    let m := setSize m n (Word.sub 64 (Word.sub 64 (blockSize m b) size) blockHeaderSize)
    let m := setFree m n 1
    let m := setNext m n (blockNext m b)
    let m := setPrev m n b
    let m := if blockNext m n ≠ 0 then setPrev m (blockNext m n) n else m
    let m := setNext m b n
    setSize m b size
  else m

/-- The merge of `b` with the block behind it, if that is free. -/
def mergeNext (m : Mem) (b : ℕ) : Mem :=
  if blockNext m b ≠ 0 ∧ blockFree m (blockNext m b) ≠ 0 then
    let m := setSize m b (Word.add 64 (blockSize m b)
      (Word.add 64 blockHeaderSize (blockSize m (blockNext m b))))
    let m := setNext m b (blockNext m (blockNext m b))
    if blockNext m b ≠ 0 then setPrev m (blockNext m b) b else m
  else m

/-- `coalesce`. -/
def coalesce (m : Mem) (b : ℕ) : Mem :=
  let m := mergeNext m b
  if blockPrev m b ≠ 0 ∧ blockFree m (blockPrev m b) ≠ 0 then mergeNext m (blockPrev m b) else m

/-- The index of the size class that `kmalloc` chooses. -/
def sizeClass (size : ℕ) : Option ℕ :=
  if size ≤ 16 then some 0
  else if size ≤ 32 then some 1
  else if size ≤ 64 then some 2
  else if size ≤ 128 then some 3
  else if size ≤ 256 then some 4
  else if size ≤ 512 then some 5
  else if size ≤ 1024 then some 6
  else if size ≤ 2048 then some 7
  else none

/-- The heap part of `kmalloc`. -/
def kmallocHeap (s : State A) (size : ℕ) : Option (ℕ × State A) :=
  let totalSize := align16 (Word.add 64 allocHeaderSize size)
  match search (blockNext s.mem)
      (fun b => blockFree s.mem b ≠ 0 ∧ blockSize s.mem b ≥ totalSize) walkBound s.heapHead with
  | none => none
  | some 0 => some (0, s)
  | some (b + 1) =>
      let m := splitBlock s.mem (b + 1) totalSize
      let m := setFree m (b + 1) 0
      let header := b + 1 + blockHeaderSize
      let m := fillHeader m header size allocFromHeap slabCacheNone
      some (header + allocHeaderSize, { s with mem := m })

/-- The cache that `kmalloc` tries, or null. -/
def cacheFor (s : State A) (size : ℕ) : ℕ :=
  if s.slabInitialized ∧ size < 4096 then
    match sizeClass size with
    | none => 0
    | some i => s.caches i
  else 0

variable (slabAlloc : ℕ → Machine A → ℕ × Machine A) (slabFree : ℕ → ℕ → Machine A → Machine A)

/-- The slab part of `kmalloc`: the pointer for the user, or null. -/
def kmallocSlab (s : State A) (cache size : ℕ) : ℕ × State A :=
  let res := slabAlloc cache s.toMachine
  let s : State A := { s with toMachine := res.2 }
  if res.1 = 0 then (0, s)
  else
    let m := fillHeader s.mem res.1 size allocFromSlab ((sizeClass size).getD slabCacheNone)
    (res.1 + allocHeaderSize, { s with mem := m })

/-- `kmalloc`. -/
def kmalloc (s : State A) (size : ℕ) : Option (ℕ × State A) :=
  if size = 0 then some (0, s)
  else
    let cache := cacheFor s size
    if cache = 0 then kmallocHeap s size
    else
      let res := kmallocSlab slabAlloc s cache size
      if res.1 = 0 then kmallocHeap res.2 size else some res

/-- `kcalloc`. -/
def kcalloc (s : State A) (num size : ℕ) : Option (ℕ × State A) :=
  let total := if num ≠ 0 ∧ size ≠ 0 then Word.mul 64 num size else 0
  if num ≠ 0 ∧ size ≠ 0 ∧ total / num ≠ size then some (0, s)
  else
    match kmalloc slabAlloc s total with
    | none => none
    | some (p, s) => if p = 0 then some (0, s) else some (p, { s with mem := fill total s.mem p 0 })

/-- `kfree`. -/
def kfree (s : State A) (ptr : ℕ) : State A :=
  if ptr = 0 then s
  else
    let header := ptr - allocHeaderSize
    if headerMagic s.mem header ≠ allocMagic then s
    else if headerFlags s.mem header &&& allocFromSlab ≠ 0 then
      let cacheIndex := headerCacheIndex s.mem header
      if cacheIndex ≥ 8 then s
      else if s.caches cacheIndex = 0 then s
      else { s with toMachine := slabFree (s.caches cacheIndex) header s.toMachine }
    else if headerFlags s.mem header &&& allocFromHeap ≠ 0 then
      let b := header - blockHeaderSize
      { s with mem := coalesce (setFree s.mem b 1) b }
    else s

/-- `krealloc`. -/
def krealloc (s : State A) (ptr size : ℕ) : Option (ℕ × State A) :=
  if ptr = 0 then kmalloc slabAlloc s size
  else if size = 0 then some (0, kfree slabFree s ptr)
  else
    let header := ptr - allocHeaderSize
    if headerMagic s.mem header ≠ allocMagic then some (0, s)
    else
      let oldSize := headerSize s.mem header
      if size ≤ oldSize then some (ptr, s)
      else
        match kmalloc slabAlloc s size with
        | none => none
        | some (n, s) =>
            if n = 0 then some (0, s)
            else
              let s : State A := { s with mem := copyBytes oldSize s.mem n ptr }
              some (n, kfree slabFree s ptr)

/-- `GFP_ZERO`. -/
def gfpZero : ℕ := 0x04

/-- `kmalloc_flags`. -/
def kmallocFlags (s : State A) (size flags : ℕ) : Option (ℕ × State A) :=
  match kmalloc slabAlloc s size with
  | none => none
  | some (p, s) =>
      if p ≠ 0 ∧ flags &&& gfpZero ≠ 0 then some (p, { s with mem := fill size s.mem p 0 }) else some (p, s)

/-- `kcalloc_flags`. -/
def kcallocFlags (s : State A) (num size _flags : ℕ) : Option (ℕ × State A) := kcalloc slabAlloc s num size

end functions

end PrometheusKernel.Heap
