import PrometheusKernel.Heap.Model

/-!
# Holding slab objects

What `heap.c` relies on in `slab.c`. `Objects A` is a discipline on machines: `Owns s K O` says that in
`s` the caches `K` exist, with the sizes of their objects, and that the clients hold the objects `O`. Held
objects are exclusive ranges outside the memory that is not the slab allocator's, and what the clients
write into them the slab allocator does not notice. `Working` and `Creates` say that the functions follow
the discipline.
-/

namespace PrometheusKernel.Heap

open ByteMem

/-- The byte `x` lies in one of the objects, which are given by cache and address. -/
def InObject (K : ℕ → Option ℕ) (O : Set (ℕ × ℕ)) (x : ℕ) : Prop :=
  ∃ o ∈ O, ∃ z, K o.1 = some z ∧ o.2 ≤ x ∧ x < o.2 + z

/-- A discipline of holding slab objects. -/
structure Objects (A : Type) where
  /-- The caches are `K`, and the clients hold `O`. -/
  Owns : Machine A → (ℕ → Option ℕ) → Set (ℕ × ℕ) → Prop
  /-- The bytes that are not the slab allocator's. -/
  outside : Set ℕ
  /-- A held object is an object of a cache. -/
  object : ∀ {s K O}, Owns s K O → ∀ o ∈ O, o.2 ≠ 0 ∧ ∃ z, K o.1 = some z ∧
    ∀ x, o.2 ≤ x → x < o.2 + z → x ∉ outside
  /-- Objects are exclusive. -/
  disjoint : ∀ {s K O}, Owns s K O → ∀ o ∈ O, ∀ o' ∈ O, o ≠ o' → ∀ z z', K o.1 = some z →
    K o'.1 = some z' → o.2 + z ≤ o'.2 ∨ o'.2 + z' ≤ o.2
  /-- Writes outside and into held objects go unnoticed. -/
  write : ∀ {s K O}, Owns s K O → ∀ w : Mem, (∀ x, x ∉ outside → ¬ InObject K O x → w x = s.mem x) →
    Owns { s with mem := w } K O

variable {A : Type}

/-- The bytes of the clients are the same in `m'` as in `m`. -/
def Objects.Same (P : Objects A) (K : ℕ → Option ℕ) (O : Set (ℕ × ℕ)) (m m' : Mem) : Prop :=
  ∀ x, x ∈ P.outside ∨ InObject K O x → m' x = m x

/-- `slab_alloc` and `slab_free` follow the discipline. -/
structure Objects.Working (P : Objects A) (slabAlloc : ℕ → Machine A → ℕ × Machine A)
    (slabFree : ℕ → ℕ → Machine A → Machine A) : Prop where
  /-- `slab_alloc` returns null or an object that was not held. -/
  alloc : ∀ {s K O}, P.Owns s K O → ∀ {cache z}, K cache = some z →
    P.Same K O s.mem (slabAlloc cache s).2.mem ∧
      ((slabAlloc cache s).1 = 0 → P.Owns (slabAlloc cache s).2 K O) ∧
      ((slabAlloc cache s).1 ≠ 0 → (cache, (slabAlloc cache s).1) ∉ O ∧
        P.Owns (slabAlloc cache s).2 K (Set.insert (cache, (slabAlloc cache s).1) O))
  /-- `slab_free` takes a held object back. -/
  free : ∀ {s K O}, P.Owns s K O → ∀ {cache a}, (cache, a) ∈ O →
    P.Same K (O \ {(cache, a)}) s.mem (slabFree cache a s).mem ∧
      P.Owns (slabFree cache a s) K (O \ {(cache, a)})

/-- `slab_cache_create` returns null or a new cache. -/
def Objects.Creates (P : Objects A) (slabCacheCreate : ℕ → ℕ → Machine A → ℕ × Machine A) : Prop :=
  ∀ {s K O}, P.Owns s K O → ∀ {size}, 0 < size → size % 16 = 0 →
    P.Same K O s.mem (slabCacheCreate size 16 s).2.mem ∧
      ((slabCacheCreate size 16 s).1 = 0 → P.Owns (slabCacheCreate size 16 s).2 K O) ∧
      ((slabCacheCreate size 16 s).1 ≠ 0 → K (slabCacheCreate size 16 s).1 = none ∧
        P.Owns (slabCacheCreate size 16 s).2
          (Function.update K (slabCacheCreate size 16 s).1 (some size)) O)

/-- The discipline without caches, which any functions follow. -/
def Objects.none (A : Type) : Objects A where
  Owns _ K O := (∀ c, K c = Option.none) ∧ O = ∅
  outside := Set.univ
  object h o ho := absurd ho (by rw [h.2]; exact Set.notMem_empty o)
  disjoint h o ho := absurd ho (by rw [h.2]; exact Set.notMem_empty o)
  write h _ _ := h

/-- Without caches there is nothing that could work wrongly. -/
theorem Objects.working_none (slabAlloc : ℕ → Machine A → ℕ × Machine A)
    (slabFree : ℕ → ℕ → Machine A → Machine A) : (Objects.none A).Working slabAlloc slabFree where
  alloc h _ _ hK := absurd hK (by rw [h.1]; exact nofun)
  free h _ _ ho := absurd ho (by rw [h.2]; exact Set.notMem_empty _)

end PrometheusKernel.Heap
