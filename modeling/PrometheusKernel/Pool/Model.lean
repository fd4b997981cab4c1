import PrometheusKernel.Blocks
import PrometheusKernel.Slab.Model

/-!
# Object pools: model of `kernel/mm/pool.c`

A pool takes blocks of pages from the page allocator and cuts them into objects of one size. A block begins with
a `pool_region_t` of 16 bytes (`base` at offset 0, `next` at 8), and the objects follow it. A free object holds
the link to the next free object in its first 8 bytes. The `memory_pool_t` is a record, in a page of its own that
nothing else writes; its name is left out. `buddy_alloc_pages(order, zone)` is a parameter for each of the two
zones, and so is `buddy_free_pages(address, order)`.

`none` is a call that does not return: the division by zero in `pool_grow` when the object size is 0, or a walk
that does not end.
-/

namespace PrometheusKernel.Pool

open ByteMem LinkedList Buddy

/-! ### Chunks, regions and pools -/

/-- `MIN_OBJECT_SIZE`, `sizeof(pool_chunk_t)`. -/
def minObjectSize : ℕ := 8

/-- `sizeof(pool_region_t)`. -/
def regionHeaderSize : ℕ := 16

/-- `chunk->next`. -/
def chunkNext (m : Mem) (chunk : ℕ) : ℕ := load 8 m chunk

/-- `chunk->next = v`. -/
def setChunkNext (m : Mem) (chunk v : ℕ) : Mem := store 8 m chunk v

/-- `region->next`. -/
def regionNext (m : Mem) (region : ℕ) : ℕ := load 8 m (region + 8)

/-- `region->next = v`. -/
def setRegionNext (m : Mem) (region v : ℕ) : Mem := store 8 m (region + 8) v

/-- `region->base = v`. -/
def setRegionBase (m : Mem) (region v : ℕ) : Mem := store 8 m region v

/-- `memory_pool_t`. -/
structure MemoryPool where
  /-- `object_size`. -/
  objectSize : ℕ
  /-- `initial_count`. -/
  initialCount : ℕ
  /-- `grow_count`. -/
  growCount : ℕ
  /-- `total_objects`. -/
  totalObjects : ℕ
  /-- `free_objects`. -/
  freeObjects : ℕ
  /-- `free_list`. -/
  freeList : ℕ
  /-- `regions`. -/
  regions : ℕ
deriving DecidableEq

/-- `align_up`, which is the same in `pool.c` and in `slab.c`. -/
def alignUp (size alignment : ℕ) : ℕ := Slab.alignUp size alignment

/-- The metadata that `pool_create` fills in. -/
def newPool (objectSize initialCount : ℕ) : MemoryPool :=
  { objectSize := alignUp (if objectSize < minObjectSize then minObjectSize else objectSize) 8
    initialCount := initialCount
    growCount := if initialCount / 2 = 0 then 1 else initialCount / 2
    totalObjects := 0, freeObjects := 0, freeList := 0, regions := 0 }

/-- Memory, the page allocator and one pool. -/
structure State (A : Type) extends Machine A where
  /-- The page of the pool, its address as clients know it. -/
  page : ℕ
  pool : MemoryPool

/-! ### Growing -/

/-- The number of pages that `pool_grow` asks for. -/
def pagesNeeded (count objectSize : ℕ) : ℕ :=
  let totalSize := Word.mul 64 count objectSize
  Word.sub 64 (Word.add 64 totalSize pageSize) 1 / pageSize % 2 ^ 32

/-- The loop of `pool_grow` over the orders from `order` on, with `n` of them left. -/
def growOrder (pagesNeeded : ℕ) : ℕ → ℕ → ℕ
  | 0, order => order
  | n + 1, order => if 1 <<< order < pagesNeeded then growOrder pagesNeeded n (order + 1) else order

/-- The order that `pool_grow` asks for. -/
def orderFor (count objectSize : ℕ) : ℕ := growOrder (pagesNeeded count objectSize) maxOrder 0

/-- `objects_in_region`. -/
def objectsInRegion (order objectSize : ℕ) : ℕ :=
  Word.sub 64 (Word.mul 32 (1 <<< order) pageSize) regionHeaderSize / objectSize % 2 ^ 32

/-- The loop that puts `n` objects, from index `i` on, in front of the list at `freeList`. -/
def threadChunks (objectsStart objectSize : ℕ) : ℕ → ℕ → ℕ → Mem → ℕ × Mem
  | 0, _, freeList, m => (freeList, m)
  | n + 1, i, freeList, m =>
      let chunk := objectsStart + i * objectSize
      threadChunks objectsStart objectSize n (i + 1) chunk (setChunkNext m chunk freeList)

variable {A : Type}

/-- The part of `pool_grow` that links the block at `region` in and adds `objects` objects to the free list. -/
def fillRegion (s : State A) (region objects : ℕ) : State A :=
  let p := s.pool
  let m := setRegionBase s.mem region region
  let m := setRegionNext m region p.regions
  let list := threadChunks (region + regionHeaderSize) p.objectSize objects 0 p.freeList m
  { s with
    mem := list.2
    pool := { p with
      regions := region
      freeList := list.1
      totalObjects := Word.add 32 p.totalObjects objects
      freeObjects := Word.add 32 p.freeObjects objects } }

/-- Filling a region does not touch the page allocator. -/
@[simp] theorem fillRegion_pages (s : State A) (region objects : ℕ) : (fillRegion s region objects).pages = s.pages :=
  rfl

/-- `pool->free_list = freeList; pool->free_objects = freeObjects`. -/
def State.setFree (s : State A) (freeList freeObjects : ℕ) : State A :=
  { s with pool := { s.pool with freeList := freeList, freeObjects := freeObjects } }

section setFree

variable (s : State A) (freeList freeObjects : ℕ)

/-- The free list is apart from the machine. -/
@[simp] theorem State.setFree_toMachine : (s.setFree freeList freeObjects).toMachine = s.toMachine := rfl

/-- The pool stays in its page. -/
@[simp] theorem State.setFree_page : (s.setFree freeList freeObjects).page = s.page := rfl

/-- The object size stays. -/
@[simp] theorem State.setFree_objectSize :
    (s.setFree freeList freeObjects).pool.objectSize = s.pool.objectSize := rfl

/-- The growth stays. -/
@[simp] theorem State.setFree_growCount :
    (s.setFree freeList freeObjects).pool.growCount = s.pool.growCount := rfl

/-- The number of objects stays. -/
@[simp] theorem State.setFree_totalObjects :
    (s.setFree freeList freeObjects).pool.totalObjects = s.pool.totalObjects := rfl

end setFree

/-- The end of `pool_alloc`: the first chunk of the free list is taken off. -/
def popChunk (s : State A) : ℕ × State A :=
  let chunk := s.pool.freeList
  (chunk, s.setFree (chunkNext s.mem chunk) (Word.sub 32 s.pool.freeObjects 1))

/-- Taking an object does not touch the page allocator. -/
@[simp] theorem popChunk_pages (s : State A) : (popChunk s).2.pages = s.pages :=
  congrArg Machine.pages (s.setFree_toMachine _ _)

section functions

variable (allocReclaimable allocUnmovable : ℕ → Machine A → ℕ × Machine A)
  (freePages : ℕ → ℕ → Machine A → Machine A)

/-- `pool_grow`. -/
def poolGrow (s : State A) (count : ℕ) : Option (ℤ × State A) :=
  if count = 0 then some (-1, s)
  else
    let order := orderFor count s.pool.objectSize
    let res := allocReclaimable order s.toMachine
    let s : State A := { s with toMachine := res.2 }
    if res.1 = 0 then some (-1, s)
    else if s.pool.objectSize = 0 then none
    else some (0, fillRegion s res.1 (objectsInRegion order s.pool.objectSize))

/-- `pool_create`: the machine when it returns null, and the pool otherwise. -/
def poolCreate (M : Machine A) (name objectSize initialCount : ℕ) : Option (Except (Machine A) (State A)) :=
  if name = 0 ∨ objectSize = 0 ∨ initialCount = 0 then some (.error M)
  else
    let res := allocUnmovable 0 M
    if res.1 = 0 then some (.error res.2)
    else
      match poolGrow allocReclaimable ⟨res.2, res.1, newPool objectSize initialCount⟩ initialCount with
      | none => none
      | some (r, s) => if r < 0 then some (.error (freePages s.page 0 s.toMachine)) else some (.ok s)

/-- `pool_alloc`. -/
def poolAlloc (s : State A) : Option (ℕ × State A) :=
  if s.pool.freeList = 0 then
    match poolGrow allocReclaimable s s.pool.growCount with
    | none => none
    | some (r, s) => if r < 0 then some (0, s) else some (popChunk s)
  else some (popChunk s)

/-- `pool_free`. -/
def poolFree (s : State A) (object : ℕ) : State A :=
  if object = 0 then s
  else
    let m := setChunkNext s.mem object s.pool.freeList
    State.setFree { s with mem := m } object (Word.add 32 s.pool.freeObjects 1)

/-- Giving an object back does not touch the page allocator. -/
@[simp] theorem poolFree_pages (s : State A) (object : ℕ) : (poolFree s object).pages = s.pages := by
  unfold poolFree
  split_ifs
  · rfl
  · dsimp only
    rw [State.setFree_toMachine]

/-- The order that `pool_destroy` reads off the address of a region. -/
def guessOrder (addr : ℕ) : ℕ :=
  (List.range (maxOrder + 1)).foldl
    (fun order o => if addr &&& (Word.sub 64 (Word.mul 64 (1 <<< o) pageSize) 1) = 0 then o else order) 0

/-- The loop of `pool_destroy` over the regions. -/
def freeRegions : ℕ → ℕ → Machine A → Option (Machine A)
  | 0, _, _ => none
  | n + 1, region, M =>
      if region = 0 then some M
      else
        let next := regionNext M.mem region
        freeRegions n next (freePages region (guessOrder region) M)

/-- `pool_destroy`. -/
def poolDestroy (s : State A) : Option (Machine A) :=
  match freeRegions freePages walkBound s.pool.regions s.toMachine with
  | none => none
  | some M => some (freePages s.page 0 M)

end functions

/-- `pool_get_utilization`. -/
def poolGetUtilization (p : MemoryPool) : ℕ :=
  if p.totalObjects = 0 then 0
  else
    let usedObjects := Word.sub 32 p.totalObjects p.freeObjects
    Word.mul 32 usedObjects 100 / p.totalObjects

end PrometheusKernel.Pool
