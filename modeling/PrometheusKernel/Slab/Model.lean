import PrometheusKernel.Machine
import PrometheusKernel.Lib.LinkedList

/-!
# The slab allocator: model of `kernel/mm/slab.c`

A slab is a page: a `slab_t` of 32 bytes (`next` at offset 0, `free_list` at 8, `in_use` at 16,
`total_objects` at 20, `objects` at 24), and behind it the objects. A free object holds the link to the next
free object in its first 8 bytes. The `slab_cache_t` is a record; of its CPU caches only the first is used
(`cpu_id` is 0), its array is a page of pointers. `buddy_alloc_pages(0, zone)` is a parameter for each of the
two zones.

`none` is a call that does not return: a walk that does not end, or the division by zero in `slab_create`
when the objects fill the page exactly.
-/

namespace PrometheusKernel.Slab

open ByteMem LinkedList

/-! ### Slabs -/

/-- `sizeof(slab_t)`. -/
def slabHeaderSize : ℕ := 32

/-- `CACHE_LINE_SIZE`. -/
def cacheLineSize : ℕ := 64

/-- `SLAB_CPU_CACHE_SIZE`. -/
def slabCpuCacheSize : ℕ := 16

/-- `slab->next`. -/
def slabNext (m : Mem) (slab : ℕ) : ℕ := load 8 m slab

/-- `slab->free_list`. -/
def freeList (m : Mem) (slab : ℕ) : ℕ := load 8 m (slab + 8)

/-- `slab->in_use`. -/
def inUse (m : Mem) (slab : ℕ) : ℕ := load 4 m (slab + 16)

/-- `slab->total_objects`. -/
def totalObjects (m : Mem) (slab : ℕ) : ℕ := load 4 m (slab + 20)

/-- `slab->objects`. -/
def slabObjects (m : Mem) (slab : ℕ) : ℕ := load 8 m (slab + 24)

/-- `*(void **)obj`. -/
def link (m : Mem) (obj : ℕ) : ℕ := load 8 m obj

/-- `slab->next = v`. -/
def setNext (m : Mem) (slab v : ℕ) : Mem := store 8 m slab v

/-- `slab->free_list = v`. -/
def setFreeList (m : Mem) (slab v : ℕ) : Mem := store 8 m (slab + 8) v

/-- `slab->in_use = v`. -/
def setInUse (m : Mem) (slab v : ℕ) : Mem := store 4 m (slab + 16) v

/-- `slab->total_objects = v`. -/
def setTotalObjects (m : Mem) (slab v : ℕ) : Mem := store 4 m (slab + 20) v

/-- `slab->objects = v`. -/
def setObjects (m : Mem) (slab v : ℕ) : Mem := store 8 m (slab + 24) v

/-- `*(void **)obj = v`. -/
def setLink (m : Mem) (obj v : ℕ) : Mem := store 8 m obj v

/-! ### Caches -/

/-- `slab_cache_t`, with the first of its CPU caches. -/
structure Cache where
  /-- `object_size`. -/
  objectSize : ℕ
  /-- `objects_per_slab`. -/
  objectsPerSlab : ℕ
  /-- `color_next`. -/
  colorNext : ℕ
  /-- `slabs_full`. -/
  slabsFull : ℕ
  /-- `slabs_partial`. -/
  slabsPartial : ℕ
  /-- `slabs_free`. -/
  slabsFree : ℕ
  /-- `total_allocations`. -/
  totalAllocations : ℕ
  /-- `total_frees`. -/
  totalFrees : ℕ
  /-- `cache_hits`. -/
  cacheHits : ℕ
  /-- `cpu_caches[0].objects`. -/
  cpuObjects : ℕ
  /-- `cpu_caches[0].available`. -/
  available : ℕ
  /-- `cpu_caches[0].limit`. -/
  limit : ℕ
deriving DecidableEq

/-- `align_up`. -/
def alignUp (size alignment : ℕ) : ℕ :=
  Word.sub 64 (Word.add 64 size alignment) 1 &&& (2 ^ 64 - 1 - Word.sub 64 alignment 1)

/-- The cache that `slab_cache_create` fills in. -/
def newCache (size align : ℕ) : Cache :=
  let align := if align = 0 then 8 else align
  let objectSize := alignUp size align
  let objectsPerSlab := (pageSize - slabHeaderSize) / objectSize
  { objectSize := objectSize
    objectsPerSlab := if objectsPerSlab = 0 then 1 else objectsPerSlab
    colorNext := 0, slabsFull := 0, slabsPartial := 0, slabsFree := 0
    totalAllocations := 0, totalFrees := 0, cacheHits := 0
    cpuObjects := 0, available := 0, limit := slabCpuCacheSize }

/-- Memory, the page allocator and one cache. -/
structure State (A : Type) extends Machine A where
  cache : Cache

/-! ### Lists of objects and of slabs -/

/-- The loop of `slab_create` that puts `n` objects, from index `i` on, on the free list. -/
def threadObjects (slab objects size : ℕ) : ℕ → ℕ → Mem → Mem
  | 0, _, m => m
  | n + 1, i, m =>
      let obj := objects + i * size
      let m := setLink m obj (freeList m slab)
      threadObjects slab objects size n (i + 1) (setFreeList m slab obj)

/-- `slab_alloc_from_slab`. -/
def slabAllocFromSlab (m : Mem) (slab : ℕ) : ℕ × Mem :=
  if slab = 0 ∨ freeList m slab = 0 then (0, m)
  else
    let obj := freeList m slab
    let m := setFreeList m slab (link m obj)
    (obj, setInUse m slab (Word.add 32 (inUse m slab) 1))

/-- `slab_free_to_slab`. -/
def slabFreeToSlab (m : Mem) (slab obj : ℕ) : Mem :=
  let m := setLink m obj (freeList m slab)
  let m := setFreeList m slab obj
  setInUse m slab (Word.sub 32 (inUse m slab) 1)

/-- `slab_move_to_list`: the two list heads afterwards, and memory. -/
def slabMoveToList (m : Mem) (fromList toList slab : ℕ) : Option (ℕ × ℕ × Mem) :=
  if fromList = slab then some (slabNext m slab, slab, setNext m slab toList)
  else
    match search (slabNext m) (fun cur => slabNext m cur = slab) walkBound fromList with
    | none => none
    | some 0 => some (fromList, slab, setNext m slab toList)
    | some (cur + 1) =>
        let m := setNext m (cur + 1) (slabNext m slab)
        some (fromList, slab, setNext m slab toList)

/-- `slab_find_for_object`. -/
def slabFindForObject (m : Mem) (cache : Cache) (obj : ℕ) : Option ℕ :=
  let holds := fun slab => decide (obj ≥ slab ∧ obj < slab + pageSize)
  match search (slabNext m) holds walkBound cache.slabsFull with
  | none => none
  | some 0 => search (slabNext m) holds walkBound cache.slabsPartial
  | some (slab + 1) => some (slab + 1)

section functions

variable {A : Type} (allocReclaimable allocUnmovable : Machine A → ℕ × Machine A)

/-- `slab_create`. -/
def slabCreate (s : State A) : Option (ℕ × State A) :=
  let res := allocReclaimable s.toMachine
  let s : State A := { s with toMachine := res.2 }
  let slab := res.1
  if slab = 0 then some (0, s)
  else
    let c := s.cache
    let m := setNext s.mem slab 0
    let m := setInUse m slab 0
    let m := setTotalObjects m slab c.objectsPerSlab
    let slack := Word.sub 64 (pageSize - slabHeaderSize) (Word.mul 64 c.objectsPerSlab c.objectSize)
    if slack = 0 then none
    else
      let colorOffset := Word.mul 32 c.colorNext cacheLineSize % slack
      let objects := slab + slabHeaderSize + colorOffset
      let m := setObjects m slab objects
      let m := setFreeList m slab 0
      let m := threadObjects slab objects c.objectSize c.objectsPerSlab 0 m
      some (slab, { s with mem := m, cache := { c with colorNext := (c.colorNext + 1) % 8 } })

/-- What the branches of `slab_alloc` do with the first slab of the partial list. -/
def slabTake (s : State A) (slab : ℕ) : Option (ℕ × State A) :=
  let res := slabAllocFromSlab s.mem slab
  let m := res.2
  if inUse m slab = totalObjects m slab then
    match slabMoveToList m s.cache.slabsPartial s.cache.slabsFull slab with
    | none => none
    | some (slabsPartial, slabsFull, m) =>
        some (res.1, { s with mem := m, cache := { s.cache with
          slabsPartial := slabsPartial, slabsFull := slabsFull } })
  else some (res.1, { s with mem := m })

/-- A slab becomes the first of the partial list. -/
def pushPartial (s : State A) (slab : ℕ) : State A :=
  { s with mem := setNext s.mem slab s.cache.slabsPartial
           cache := { s.cache with slabsPartial := slab } }

/-- The part of `slab_alloc` under the lock, up to the count of the allocation. -/
def slabAllocSlow (s : State A) : Option (ℕ × State A) :=
  let slab := s.cache.slabsPartial
  if slab ≠ 0 then slabTake s slab
  else
    let slab := s.cache.slabsFree
    if slab ≠ 0 then
      let s : State A := { s with cache := { s.cache with slabsFree := slabNext s.mem slab } }
      slabTake (pushPartial s slab) slab
    else
      match slabCreate allocReclaimable s with
      | none => none
      | some (slab, s) => if slab ≠ 0 then slabTake (pushPartial s slab) slab else some (0, s)

/-- `cache->total_allocations++`. -/
def countAllocation (s : State A) : State A :=
  { s with cache := { s.cache with totalAllocations := Word.add 64 s.cache.totalAllocations 1 } }

/-- `cache->total_frees++`. -/
def countFree (s : State A) : State A :=
  { s with cache := { s.cache with totalFrees := Word.add 64 s.cache.totalFrees 1 } }

/-- `slab_alloc`. -/
def slabAlloc (s : State A) : Option (ℕ × State A) :=
  let c := s.cache
  if c.available > 0 then
    let obj := load 8 s.mem (c.cpuObjects + 8 * (c.available - 1))
    let s : State A := { s with cache := { c with
      available := c.available - 1, cacheHits := Word.add 64 c.cacheHits 1 } }
    some (obj, countAllocation s)
  else
    match slabAllocSlow allocReclaimable s with
    | none => none
    | some (obj, s) => some (obj, if obj ≠ 0 then countAllocation s else s)

/-- The part of `slab_free` under the lock. -/
def slabFreeSlow (s : State A) (obj : ℕ) : Option (State A) :=
  match slabFindForObject s.mem s.cache obj with
  | none => none
  | some 0 => some s
  | some (slab + 1) =>
      let slab := slab + 1
      let wasFull := inUse s.mem slab = totalObjects s.mem slab
      let m := slabFreeToSlab s.mem slab obj
      if wasFull then
        match slabMoveToList m s.cache.slabsFull s.cache.slabsPartial slab with
        | none => none
        | some (slabsFull, slabsPartial, m) => some (countFree { s with mem := m, cache := { s.cache with
            slabsFull := slabsFull, slabsPartial := slabsPartial } })
      else if inUse m slab = 0 then
        match slabMoveToList m s.cache.slabsPartial s.cache.slabsFree slab with
        | none => none
        | some (slabsPartial, slabsFree, m) => some (countFree { s with mem := m, cache := { s.cache with
            slabsPartial := slabsPartial, slabsFree := slabsFree } })
      else some (countFree { s with mem := m })

/-- The CPU cache gets its array. -/
def ensureCpuArray (s : State A) : State A :=
  if s.cache.cpuObjects = 0 then
    let res := allocUnmovable s.toMachine
    { s with toMachine := res.2, cache := { s.cache with cpuObjects := res.1 } }
  else s

/-- `slab_free`. -/
def slabFree (s : State A) (obj : ℕ) : Option (State A) :=
  if obj = 0 then some s
  else if s.cache.available < s.cache.limit then
    let s := ensureCpuArray allocUnmovable s
    if s.cache.cpuObjects ≠ 0 then
      let m := store 8 s.mem (s.cache.cpuObjects + 8 * s.cache.available) obj
      some (countFree { s with mem := m, cache := { s.cache with available := s.cache.available + 1 } })
    else slabFreeSlow s obj
  else slabFreeSlow s obj

end functions

end PrometheusKernel.Slab
