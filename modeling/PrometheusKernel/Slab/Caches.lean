import PrometheusKernel.Slab.Classes

/-!
# Several caches: model of `slab_cache_create` and `slab_cache_destroy`

The caches are a function from addresses to records, like the single cache of `Slab.Model`; `next` is
`cache->next` and `cacheList` is `g_cache_list`. `buddy_free_pages(addr, order)` is a parameter.

A `World` is the caches with what clients know of them: which caches exist, the objects that are held, and the
pages that calls on a cache have taken. A call on one cache is a step of `Slab.Conservation` on that cache. The
others hold their pages meanwhile, which is the discipline `mine`: so every cache keeps the invariant of its own
run (`WorldInv`).
-/

namespace PrometheusKernel.Slab

open ByteMem LinkedList Interleaving

/-! ### The model -/

/-- The machine, the `slab_cache_t` at each address with its `next`, and `g_cache_list`. -/
structure Caches (A : Type) where
  machine : Machine A
  cacheAt : ℕ → Cache
  next : ℕ → ℕ
  cacheList : ℕ

/-- `slab_init`. -/
def slabInit {A : Type} (s : Caches A) : Caches A := { s with cacheList := 0 }

section model

variable {A : Type} (allocReclaimable allocUnmovable : Machine A → ℕ × Machine A)
  (freePages : ℕ → ℕ → Machine A → Machine A)

/-- `slab_cache_create`: the address of the cache, or null. -/
def cacheCreate (s : Caches A) (name size align : ℕ) : Option (ℕ × Caches A) :=
  match slabCacheCreate allocUnmovable s.machine name size align with
  | none => none
  | some (none, machine) => some (0, { s with machine := machine })
  | some (some c, machine) =>
      let cache := (allocUnmovable s.machine).1
      some (cache, {
        machine := machine
        cacheAt := Function.update s.cacheAt cache c
        next := Function.update s.next cache s.cacheList
        cacheList := cache })

/-- The loop of `slab_cache_destroy` over `g_cache_list`. -/
def unlinkCache (s : Caches A) (cache : ℕ) : Option (Caches A) :=
  match searchPrev s.next (fun a => a = cache) walkBound 0 s.cacheList with
  | none => none
  | some (prev, current) =>
      if current = 0 then some s
      else if prev = 0 then some { s with cacheList := s.next cache }
      else some { s with next := Function.update s.next prev (s.next cache) }

/-- A loop of `slab_cache_destroy` over a list of slabs. -/
def freeSlabs : ℕ → ℕ → Machine A → Option (Machine A)
  | 0, _, _ => none
  | n + 1, slab, m =>
      if slab = 0 then some m
      else
        let next := slabNext m.mem slab
        freeSlabs n next (freePages slab 0 m)

/-- `slab_cache_destroy`. -/
def slabCacheDestroy (s : Caches A) (cache : ℕ) : Option (Caches A) :=
  if cache = 0 then some s
  else do
    let s ← unlinkCache s cache
    let c := s.cacheAt cache
    let m ← freeSlabs freePages walkBound c.slabsFull s.machine
    let m ← freeSlabs freePages walkBound c.slabsPartial m
    let m ← freeSlabs freePages walkBound c.slabsFree m
    let m := if c.cpuObjects ≠ 0 then freePages c.cpuObjects 0 m else m
    some { s with machine := freePages cache 0 m }

end model

/-! ### Runs on several caches -/

/-- The caches and what their clients know. -/
structure World (A : Type) where
  caches : Caches A
  /-- The caches that exist, the latest first. -/
  created : List ℕ
  /-- The objects of a cache that clients hold. -/
  live : ℕ → List ℕ
  /-- The pages that calls on a cache have taken, without its own. -/
  obtained : ℕ → List ℕ

/-- A cache is created or destroyed, or there is a call on it. -/
inductive CacheOp
  | create (name size align : ℕ)
  | on (cache : ℕ) (op : Op)
  | destroy (cache : ℕ)

namespace World

variable {A : Type}

/-- No cache exists. -/
def boot (s : Caches A) : World A := ⟨slabInit s, [], fun _ => [], fun _ => []⟩

/-- The caches with an empty record. -/
def recorded (w : World A) : Caches (Ledger A) where
  machine := Ledger.start w.caches.machine
  cacheAt := w.caches.cacheAt
  next := w.caches.next
  cacheList := w.caches.cacheList

/-- One cache, with a record of the pages that it has taken. -/
def run (w : World A) (c : ℕ) : Run (Ledger A) :=
  ⟨⟨⟨w.caches.machine.mem, ⟨w.caches.machine.pages, w.obtained c, []⟩⟩, w.caches.cacheAt c⟩, w.live c⟩

/-- After a call on the cache `c`. -/
def back (w : World A) (c : ℕ) (r : Run (Ledger A)) : World A where
  caches := { w.caches with
    machine := Ledger.plain r.state.toMachine
    cacheAt := Function.update w.caches.cacheAt c r.state.cache }
  created := w.created
  live := Function.update w.live c r.live
  obtained := Function.update w.obtained c r.state.pages.taken

/-- After the creation of the cache `c`. -/
def add (w : World A) (s : Caches A) (c : ℕ) : World A where
  caches := s
  created := c :: w.created
  live := Function.update w.live c []
  obtained := Function.update w.obtained c []

/-- All pages that were obtained for a cache: its own first. -/
def pagesOf (w : World A) (c : ℕ) : List ℕ := c :: w.obtained c

/-- The frames that are held, next to `F`. -/
def held (F : Set ℕ) (w : World A) : Set ℕ := { f | f ∈ F ∨ ∃ c ∈ w.created, f ∈ w.pagesOf c }

/-- The frames that are held, but for the slabs and the array of `c`. -/
def others (F : Set ℕ) (w : World A) (c : ℕ) : Set ℕ :=
  { f | f ∈ F ∨ f ∈ w.created ∨ ∃ d ∈ w.created, d ≠ c ∧ f ∈ w.obtained d }

end World

section steps

variable {A : Type} (allocReclaimable allocUnmovable : Machine A → ℕ × Machine A)
  (freePages : ℕ → ℕ → Machine A → Machine A)

/-- What the clients may do. -/
def ValidCall (w : World A) : CacheOp → Prop
  | .create _ _ _ => True
  | .on c op => c ∈ w.created ∧ Valid (w.run c) op
  | .destroy c => c ∈ w.created

/-- The objects of a new cache hold a link and fit into a page. -/
def Sized : CacheOp → Prop
  | .create _ size align =>
      8 ≤ (newCache size align).objectSize ∧ slabHeaderSize + (newCache size align).objectSize ≤ pageSize
  | _ => True

/-- One call; `none` is a call that does not return. -/
def cacheStep (w : World A) : CacheOp → Option (World A)
  | .create name size align => (cacheCreate allocUnmovable w.caches name size align).map fun res =>
      if res.1 = 0 then { w with caches := res.2 } else w.add res.2 res.1
  | .on c op => (step (Ledger.alloc allocReclaimable) (Ledger.alloc allocUnmovable) (w.run c) op).map (w.back c)
  | .destroy c => (slabCacheDestroy freePages w.caches c).map fun s =>
      { w with caches := s, created := w.created.erase c }

end steps

end PrometheusKernel.Slab
