import PrometheusKernel.PageCache.Calls
import PrometheusKernel.PageStack
import PrometheusKernel.Lib.BoundedMap
import PrometheusKernel.Lib.Interleaving

/-!
# The page cache is a bounded map in insertion order

The calls of one CPU, one after the other, on any page allocator that keeps its promise (`Fresh`); it may
fail at any call. `specStep` is what the calls are for, on a `BoundedMap`.

The cache does not always serve that map. Half of its bucket array is in the page behind the one that
`page_cache_init` asked for, and when an entry gets that page, the slots and the entry overwrite each
other (`key_lost`). As long as the allocator hands that page to no entry and leaves it alone (`Spares`),
every run is a run of the specification (`page_cache_refines_map`).
-/

namespace PrometheusKernel.PageCache

open ByteMem LinkedList Interleaving

/-! ### Runs -/

/-- A call. -/
inductive Op
  | insert (fileId offset physAddr : ℕ)
  | lookup (fileId offset : ℕ)
  | remove (fileId offset : ℕ)
  | evict
deriving DecidableEq

/-- The arguments of an insertion are of 64 bits. -/
def Op.IsWord : Op → Prop
  | .insert fileId offset physAddr => IsWords fileId offset physAddr
  | _ => True

/-- What a call returns. -/
inductive Ret
  | code (i : ℤ)
  | page (addr : ℕ)
  | void
deriving DecidableEq

/-- The cache and what its calls have returned so far, newest first. -/
structure Run (A : Type) where
  cache : State A
  returned : List Ret

variable {A : Type} (alloc : Machine A → ℕ × Machine A) (free : ℕ → Machine A → Machine A)

/-- One call; `none` is a call that does not return. -/
def step (c : Run A) : Op → Option (Run A)
  | .insert fileId offset physAddr =>
      (pageCacheInsert alloc free c.cache fileId offset physAddr).map fun res =>
        ⟨res.2, .code res.1 :: c.returned⟩
  | .lookup fileId offset =>
      (pageCacheLookup c.cache fileId offset).map fun res => ⟨res.2, .page res.1 :: c.returned⟩
  | .remove fileId offset =>
      (pageCacheRemove free c.cache fileId offset).map fun s => ⟨s, .void :: c.returned⟩
  | .evict => (pageCacheEvictLru free c.cache).map fun s => ⟨s, .void :: c.returned⟩

/-- The cache after `page_cache_init`. -/
def boot (s : State A) (maxPages : ℕ) : Run A := ⟨pageCacheInit alloc s maxPages, []⟩

/-- `ok` holds of every call of the page allocator that a call of the cache makes. -/
def AllocatorCalls (ok : State A → ℕ → Machine A → Prop) (c : Run A) : Op → Prop
  | .insert fileId offset physAddr => InsertCalls alloc free ok c.cache fileId offset physAddr
  | .lookup _ _ => True
  | .remove fileId offset => RemoveFrees free ok c.cache fileId offset
  | .evict => EvictFrees free ok c.cache

/-- The allocator keeps its promise. -/
def Fresh : Run A → Op → Prop := AllocatorCalls alloc free Promised

/-- The page behind that of the bucket array is given to no entry, and nobody but the cache writes to it. -/
def Spares : Run A → Op → Prop := AllocatorCalls alloc free SparesBehind

variable {alloc free} in
/-- An allocator that keeps its promise and spares the page behind the table is harmless. -/
theorem Fresh.harmless {c : Run A} {op : Op} (h : Fresh alloc free c op) (h' : Spares alloc free c op) :
    AllocatorCalls alloc free Harmless c op := by
  cases op with
  | insert fileId offset physAddr => exact InsertCalls.and h h'
  | lookup fileId offset => trivial
  | remove fileId offset => exact RemoveFrees.and h h'
  | evict => exact EvictFrees.and h h'

/-- The key is that of a linked entry. -/
def Cached (s : State A) (k : ℕ × ℕ) : Prop :=
  ∃ lru, IsList s.lruNext lru s.lruHead ∧ k ∈ lru.map s.key

/-! ### What the calls are for -/

/-- A call on the map; `ok` says whether there is memory for a new entry. -/
def specStep (maxPages : ℕ) (m : List ((ℕ × ℕ) × ℕ)) (op : Op) (ok : Bool) :
    Ret × List ((ℕ × ℕ) × ℕ) :=
  match op with
  | .insert fileId offset physAddr =>
      if physAddr = 0 then (.code (-1), m)
      else (.code (if (BoundedMap.find m (fileId, offset)).isSome ∨ ok then 0 else -1),
        BoundedMap.insert maxPages ok (fileId, offset) physAddr m)
  | .lookup fileId offset => (.page ((BoundedMap.find m (fileId, offset)).getD 0), m)
  | .remove fileId offset => (.void, BoundedMap.erase m (fileId, offset))
  | .evict => (.void, BoundedMap.evict m)

/-- A run of the specification from the empty map: the map, and what the calls returned. -/
def specRun (maxPages : ℕ) (ops : List (Op × Bool)) : List ((ℕ × ℕ) × ℕ) × List Ret :=
  ops.foldl (fun mr op =>
    ((specStep maxPages mr.1 op.1 op.2).2, (specStep maxPages mr.1 op.1 op.2).1 :: mr.2)) ([], [])

/-- The map that the entries stand for. -/
def State.contents (s : State A) (lru : List ℕ) : List ((ℕ × ℕ) × ℕ) :=
  lru.map fun a => (s.key a, s.get .physicalAddress a)

variable {alloc free} {s s' : State A} {lru : List ℕ} {maxPages : ℕ}

/-- The map depends on the bodies of the entries. -/
theorem contents_eq_of_body (h : ∀ a ∈ lru, s'.body a = s.body a) : s'.contents lru = s.contents lru := by
  refine List.map_congr_left fun a ha => ?_
  have hbody := h a ha
  exact Prod.ext (congrArg (fun x => x.1) hbody) (congrArg (fun x => x.2.1) hbody)

/-- The keys of the map are those of the entries. -/
theorem keys_contents (s : State A) (lru : List ℕ) : (s.contents lru).map Prod.fst = lru.map s.key := by
  simp [State.contents, Function.comp_def]

/-- The map finds what the list of entries finds. -/
theorem find_contents (s : State A) (lru : List ℕ) (k : ℕ × ℕ) :
    BoundedMap.find (s.contents lru) k =
      (lru.find? fun a => s.key a = k).map fun a => s.get .physicalAddress a := by
  have hpred : ((fun e : (ℕ × ℕ) × ℕ => decide (e.1 = k)) ∘ fun a => (s.key a, s.get .physicalAddress a)) =
      fun a => decide (s.key a = k) := funext fun a => by rw [Function.comp_apply]
  have hval : (Prod.snd ∘ fun a => (s.key a, s.get .physicalAddress a)) = fun a => s.get .physicalAddress a :=
    funext fun a => by rw [Function.comp_apply]
  unfold BoundedMap.find State.contents
  rw [List.find?_map, Option.map_map, hpred, hval]

/-! ### The specification keeps its bounds -/

/-- A map of the cache: bounded, and no key is mapped to null. -/
structure SpecInv (maxPages : ℕ) (m : List ((ℕ × ℕ) × ℕ)) : Prop where
  valid : BoundedMap.Valid maxPages m
  ne_zero : ∀ e ∈ m, e.2 ≠ 0

/-- A pair of the new map was there, or it is inserted by this call and its key was not there. -/
theorem mem_specStep {m : List ((ℕ × ℕ) × ℕ)} {op : Op} {ok : Bool} {k : ℕ × ℕ} {v : ℕ}
    (h : (k, v) ∈ (specStep maxPages m op ok).2) :
    (k, v) ∈ m ∨ op = .insert k.1 k.2 v ∧ v ≠ 0 ∧ k ∉ m.map Prod.fst := by
  cases op with
  | insert fileId offset physAddr =>
      unfold specStep at h
      dsimp only at h
      by_cases h0 : physAddr = 0
      · rw [if_pos h0] at h
        exact Or.inl h
      · rw [if_neg h0] at h
        rcases BoundedMap.mem_insert h with hmem | ⟨he, hnot⟩
        · exact Or.inl hmem
        · obtain ⟨rfl, rfl⟩ := Prod.mk.inj he
          exact Or.inr ⟨rfl, h0, hnot⟩
  | lookup fileId offset => exact Or.inl h
  | remove fileId offset => exact Or.inl (BoundedMap.mem_erase h)
  | evict => exact Or.inl (BoundedMap.mem_evict h)

/-- A call of the specification keeps its bounds. -/
theorem SpecInv.step {m : List ((ℕ × ℕ) × ℕ)} (h : SpecInv maxPages m) (hpos : 1 ≤ maxPages) (op : Op)
    (ok : Bool) : SpecInv maxPages (specStep maxPages m op ok).2 := by
  constructor
  · cases op with
    | insert fileId offset physAddr =>
        unfold specStep
        dsimp only
        by_cases h0 : physAddr = 0
        · rw [if_pos h0]
          exact h.valid
        · rw [if_neg h0]
          exact h.valid.insert hpos ok _ _
    | lookup fileId offset => exact h.valid
    | remove fileId offset => exact h.valid.erase _
    | evict => exact h.valid.evict
  · rintro ⟨k, v⟩ he
    rcases mem_specStep he with hmem | ⟨-, hv, -⟩
    · exact h.ne_zero _ hmem
    · exact hv

/-! ### Every call is a call of the specification -/

/-- The invariant: the lists stand for a map of the specification. -/
structure Inv (maxPages : ℕ) (s : State A) (lru : List ℕ) : Prop where
  rep : Rep s lru
  max : s.maxPages = maxPages
  spec : SpecInv maxPages (s.contents lru)

/-- Making room in the cache is making room in the map. -/
theorem contents_room (s : State A) (lru : List ℕ) (maxPages : ℕ) :
    s.contents (room maxPages lru) = BoundedMap.makeRoom maxPages (s.contents lru) := by
  have hlen : (s.contents lru).length = lru.length := List.length_map _
  unfold room BoundedMap.makeRoom BoundedMap.evict
  rw [hlen]
  split_ifs
  · exact List.map_dropLast
  · rfl

/-- The specification of an insertion that changes nothing. -/
theorem specStep_insert_found {m : List ((ℕ × ℕ) × ℕ)} {fileId offset physAddr : ℕ} (h0 : physAddr ≠ 0)
    (hfind : (BoundedMap.find m (fileId, offset)).isSome) (ok : Bool) :
    specStep maxPages m (.insert fileId offset physAddr) ok = (.code 0, m) := by
  simp [specStep, BoundedMap.insert, h0, hfind]

/-- The specification of an insertion of a new key. -/
theorem specStep_insert_new {m : List ((ℕ × ℕ) × ℕ)} {fileId offset physAddr : ℕ} (h0 : physAddr ≠ 0)
    (hfind : BoundedMap.find m (fileId, offset) = none) (ok : Bool) :
    specStep maxPages m (.insert fileId offset physAddr) ok =
      if ok then (.code 0, ((fileId, offset), physAddr) :: BoundedMap.makeRoom maxPages m)
      else (.code (-1), BoundedMap.makeRoom maxPages m) := by
  cases ok <;> simp [specStep, BoundedMap.insert, h0, hfind]

/-- The contents after a new entry is put in front. -/
theorem Adds.contents {a : ℕ} {k : ℕ × ℕ} {physAddr : ℕ} (h : Adds s s' a k physAddr lru) :
    s'.contents (a :: lru) = (k, physAddr) :: s.contents lru := by
  have hrest : s'.contents lru = s.contents lru := contents_eq_of_body h.others
  have hnew := h.new
  simp only [State.body, Prod.mk.injEq] at hnew
  rw [← hrest]
  simp [State.contents, hnew]

/-- An insertion does what the specification says, for some outcome of its allocation. -/
theorem Inserted.spec {k : ℕ × ℕ} {physAddr : ℕ} {i : ℤ} {lru' : List ℕ}
    (h : Inserted s lru k physAddr i s' lru') (hrep : Rep s lru) (hpos : 1 ≤ s.maxPages) :
    s'.maxPages = s.maxPages ∧ ∃ ok, specStep s.maxPages (s.contents lru) (.insert k.1 k.2 physAddr) ok =
      (.code i, s'.contents lru') := by
  cases h with
  | refused h =>
      refine ⟨rfl, false, ?_⟩
      by_cases h0 : physAddr = 0
      · simp [specStep, h0]
      · obtain rfl := hrep.missing (h.resolve_right h0)
        have hroom : BoundedMap.makeRoom s.maxPages (s.contents []) = s.contents [] :=
          if_neg (not_le.mpr hpos)
        rw [specStep_insert_new h0 rfl, hroom]
        rfl
  | found h0 h =>
      refine ⟨rfl, false, specStep_insert_found h0 ?_ _⟩
      rw [Option.isSome_iff_ne_none, ne_eq, BoundedMap.find_eq_none_iff, keys_contents, not_not]
      exact h
  | failed h0 h hkeeps =>
      rw [← keys_contents, ← BoundedMap.find_eq_none_iff] at h
      refine ⟨hkeeps.maxPages, false, ?_⟩
      rw [specStep_insert_new h0 h, contents_eq_of_body hkeeps.body, contents_room]
      rfl
  | added h0 h hkeeps hnew hadds =>
      rw [← keys_contents, ← BoundedMap.find_eq_none_iff] at h
      refine ⟨hadds.maxPages.trans hkeeps.maxPages, true, ?_⟩
      rw [specStep_insert_new h0 h, hadds.contents, contents_eq_of_body hkeeps.body, contents_room]
      rfl

/-- A lookup does what the specification says. -/
theorem Rep.lookup (h : Rep s lru) (fileId offset : ℕ) :
    ∃ s', pageCacheLookup s fileId offset =
        some ((BoundedMap.find (s.contents lru) (fileId, offset)).getD 0, s') ∧ Rep s' lru ∧
      s'.maxPages = s.maxPages ∧ s'.hashTable = s.hashTable ∧ s'.contents lru = s.contents lru := by
  rw [find_contents]
  cases hfind : lru.find? fun a => decide (s.key a = (fileId, offset)) with
  | none =>
      obtain ⟨s', hcall, hrep, hkeeps, -⟩ := h.lookup_miss hfind
      exact ⟨s', hcall, hrep, hkeeps.maxPages, hkeeps.hashTable, contents_eq_of_body hkeeps.body⟩
  | some e =>
      obtain ⟨s', hcall, hrep, htouch, -⟩ := h.lookup_hit hfind
      refine ⟨s', hcall, hrep, htouch.maxPages, htouch.hashTable, List.map_congr_left fun a ha => ?_⟩
      exact Prod.ext (htouch.key ha) (htouch.physicalAddress ha)

/-- A removal does what the specification says. -/
theorem Rep.remove (h : Rep s lru) {fileId offset : ℕ} (hok : RemoveFrees free Harmless s fileId offset) :
    ∃ s' lru', pageCacheRemove free s fileId offset = some s' ∧ Rep s' lru' ∧ Keeps s s' lru' ∧
      lru'.Sublist lru ∧ s'.contents lru' = BoundedMap.erase (s.contents lru) (fileId, offset) := by
  unfold BoundedMap.erase
  cases hfind : lru.find? fun a => decide (s.key a = (fileId, offset)) with
  | none =>
      have hnone : ∀ a ∈ lru, s.key a ≠ (fileId, offset) := key_ne_of_find hfind
      refine ⟨s, lru, h.remove_miss free hnone, h, Keeps.refl s lru, List.Sublist.refl lru,
        (List.eraseP_of_forall_not fun e he => ?_).symm⟩
      obtain ⟨a, ha, rfl⟩ := List.mem_map.mp he
      simpa using hnone a ha
  | some e =>
      obtain ⟨hkey, l₁, l₂, rfl, hl₁⟩ := List.find?_eq_some_iff_append.mp hfind
      have hkey' : s.key e = (fileId, offset) := by simpa using hkey
      have hl₁' : ∀ b ∈ l₁, s.key b ≠ (fileId, offset) := fun b hb => by simpa using hl₁ b hb
      obtain ⟨s', hcall, hrep, hkeeps⟩ := h.remove_hit hl₁' hkey' hok
      have hsub : (l₁ ++ l₂).Sublist (l₁ ++ e :: l₂) :=
        (List.Sublist.refl l₁).append (List.sublist_cons_self e l₂)
      refine ⟨s', l₁ ++ l₂, hcall, hrep, hkeeps, hsub, ?_⟩
      rw [contents_eq_of_body hkeeps.body]
      unfold State.contents
      rw [List.map_append, List.map_append, List.map_cons, List.eraseP_append_right,
        List.eraseP_cons_of_pos (by simpa using hkey')]
      intro x hx
      obtain ⟨b, hb, rfl⟩ := List.mem_map.mp hx
      simpa using hl₁' b hb

/-- One call: it returns, keeps the invariant, and is a call of the specification. -/
theorem Inv.step {c : Run A} (h : Inv maxPages c.cache lru) (hpos : 1 ≤ maxPages) {op : Op} (hword : op.IsWord)
    (hok : AllocatorCalls alloc free Harmless c op) :
    ∃ c' lru' ok, PageCache.step alloc free c op = some c' ∧ Inv maxPages c'.cache lru' ∧
      c'.cache.contents lru' = (specStep maxPages (c.cache.contents lru) op ok).2 ∧
      c'.returned = (specStep maxPages (c.cache.contents lru) op ok).1 :: c.returned := by
  have hmax := h.max
  -- the bounds come from the specification
  have hinv : ∀ {s' : State A} {lru' : List ℕ} (ok : Bool), Rep s' lru' → s'.maxPages = c.cache.maxPages →
      s'.contents lru' = (specStep maxPages (c.cache.contents lru) op ok).2 → Inv maxPages s' lru' := by
    intro s' lru' ok hrep hmax' heq
    refine ⟨hrep, hmax'.trans hmax, ?_⟩
    rw [heq]
    exact h.spec.step hpos op ok
  cases op with
  | insert fileId offset physAddr =>
      obtain ⟨i, s', lru', hcall, hrep, hcases⟩ := h.rep.insert_cases hword hok
      obtain ⟨hmax', ok, hspec⟩ := hcases.spec h.rep (hmax ▸ hpos)
      rw [hmax] at hspec
      refine ⟨⟨s', .code i :: c.returned⟩, lru', ok, ?_, hinv ok hrep hmax' ?_, ?_, ?_⟩
      · simp [PageCache.step, hcall]
      all_goals rw [hspec]
  | lookup fileId offset =>
      obtain ⟨s', hcall, hrep, hmax', -, heq⟩ := h.rep.lookup fileId offset
      refine ⟨⟨s', _⟩, lru, true, ?_, hinv true hrep hmax' heq, heq, rfl⟩
      simp only [PageCache.step, hcall, Option.map_some]
      rfl
  | remove fileId offset =>
      obtain ⟨s', lru', hcall, hrep, hkeeps, -, heq⟩ := h.rep.remove hok
      refine ⟨⟨s', _⟩, lru', true, ?_, hinv true hrep hkeeps.maxPages heq, heq, rfl⟩
      simp only [PageCache.step, hcall, Option.map_some]
      rfl
  | evict =>
      obtain ⟨s', hcall, hrep, hkeeps⟩ := h.rep.evict hok
      have heq : s'.contents lru.dropLast = BoundedMap.evict (c.cache.contents lru) := by
        rw [contents_eq_of_body hkeeps.body]
        exact List.map_dropLast
      refine ⟨⟨s', _⟩, lru.dropLast, true, ?_, hinv true hrep hkeeps.maxPages heq, heq, rfl⟩
      simp only [PageCache.step, hcall, Option.map_some]
      rfl

/-- The array is as long as two pages. -/
theorem tableBytes : Word.mul 64 defaultHashSize pointerSize = 2 * pageSize := by decide

/-- Memory after `memset` of the bucket array. -/
def cleared (mem : Mem) (t : ℕ) : Mem := fun x => if t ≤ x ∧ x < t + 2 * pageSize then 0 else mem x

/-- What `page_cache_init` does with the page that it gets. -/
theorem pageCacheInit_eq {s : State A} (h0 : (alloc s.toMachine).1 ≠ 0) (maxPages : ℕ) :
    pageCacheInit alloc s maxPages =
      { mem := cleared (alloc s.toMachine).2.mem (alloc s.toMachine).1, pages := (alloc s.toMachine).2.pages
        hashTable := (alloc s.toMachine).1, lruHead := 0, lruTail := 0, totalPages := 0, maxPages := maxPages
        cacheHits := 0, cacheMisses := 0, counter := s.counter } := by
  have hfill : fill (Word.mul 64 defaultHashSize pointerSize) (alloc s.toMachine).2.mem (alloc s.toMachine).1 0 =
      cleared (alloc s.toMachine).2.mem (alloc s.toMachine).1 := by
    rw [tableBytes]
    exact funext fun x => fill_apply _ _ _ _ x
  unfold pageCacheInit
  dsimp only
  rw [if_neg h0]
  simp only [State.setMachine, hfill]

/-- Without a page there is no bucket array, and every call returns at once. -/
theorem pageCacheInit_fail {s : State A} (h0 : (alloc s.toMachine).1 = 0) (maxPages : ℕ) :
    pageCacheInit alloc s maxPages =
      { mem := (alloc s.toMachine).2.mem, pages := (alloc s.toMachine).2.pages
        hashTable := 0, lruHead := 0, lruTail := 0, totalPages := 0, maxPages := maxPages
        cacheHits := 0, cacheMisses := 0, counter := s.counter } := by
  unfold pageCacheInit
  dsimp only
  rw [if_pos h0]
  rfl

/-- `page_cache_init` makes an empty cache, if what it gets for the bucket array is a page. -/
theorem rep_init (s : State A) (maxPages : ℕ) (haligned : (alloc s.toMachine).1 % pageSize = 0) :
    Rep (pageCacheInit alloc s maxPages) [] := by
  have hnone : ∀ t, ∀ a ∈ ([] : List ℕ), IsEntry t a := fun t a ha => absurd ha List.not_mem_nil
  by_cases h0 : (alloc s.toMachine).1 = 0
  · rw [pageCacheInit_fail h0]
    exact ⟨rfl, hnone 0, rfl, rfl, fun h => absurd rfl h, fun _ => rfl, rfl⟩
  · rw [pageCacheInit_eq h0]
    refine ⟨haligned, hnone _, rfl, rfl, fun _ b hb => ?_, fun _ => rfl, rfl⟩
    refine load_zero_of_zero fun x h1 h2 => if_pos ?_
    unfold pointerSize at h1 h2
    unfold defaultHashSize at hb
    unfold pageSize
    dsimp only at h1 h2
    omega

/-- The bound is the one that `page_cache_init` was given. -/
theorem maxPages_init (s : State A) (maxPages : ℕ) : (pageCacheInit alloc s maxPages).maxPages = maxPages := by
  by_cases h0 : (alloc s.toMachine).1 = 0
  · rw [pageCacheInit_fail h0]
  · rw [pageCacheInit_eq h0]

/-- The cache is empty after `page_cache_init`. -/
theorem inv_boot (s : State A) (maxPages : ℕ) (haligned : (alloc s.toMachine).1 % pageSize = 0) :
    Inv maxPages (boot alloc s maxPages).cache [] :=
  ⟨rep_init s maxPages haligned, maxPages_init s maxPages, BoundedMap.valid_nil maxPages,
    fun _ he => absurd he List.not_mem_nil⟩

/-! ### Runs refine the specification -/

/-- The keys that are cached are those of the entries. -/
theorem Rep.cached_iff (h : Rep s lru) (k : ℕ × ℕ) : Cached s k ↔ k ∈ lru.map s.key := by
  constructor
  · rintro ⟨l, hl, hk⟩
    rwa [h.list.isList.unique hl]
  · exact fun hk => ⟨lru, h.list.isList, hk⟩

/-- The page `v` was stored for `k` by the first insertion since `k` was last absent. -/
def StoredBy (alloc : Machine A → ℕ × Machine A) (free : ℕ → Machine A → Machine A) (c₀ : Run A) (ops : List Op)
    (k : ℕ × ℕ) (v : ℕ) : Prop :=
  ∃ as bs, ops = as ++ Op.insert k.1 k.2 v :: bs ∧
    (∃ c, exec (step alloc free) c₀ as = some c ∧ ¬ Cached c.cache k) ∧
    ∀ cs, cs <+: bs → ∃ c, exec (step alloc free) c₀ (as ++ Op.insert k.1 k.2 v :: cs) = some c ∧
      Cached c.cache k

/-- A key that is still cached after one more call keeps its insertion. -/
theorem StoredBy.concat {c₀ c : Run A} {ops : List Op} {op : Op} {k : ℕ × ℕ} {v : ℕ}
    (h : StoredBy alloc free c₀ ops k v) (hexec : exec (step alloc free) c₀ (ops ++ [op]) = some c)
    (hc : Cached c.cache k) : StoredBy alloc free c₀ (ops ++ [op]) k v := by
  obtain ⟨as, bs, rfl, habsent, hpresent⟩ := h
  refine ⟨as, bs ++ [op], by simp, habsent, fun cs hcs => ?_⟩
  rcases List.prefix_concat_iff.mp hcs with rfl | hpre
  · refine ⟨c, ?_, hc⟩
    rw [← hexec]
    simp
  · exact hpresent cs hpre

/-- A key that the last call inserted. -/
theorem storedBy_new {c₀ c c' : Run A} {ops : List Op} {k : ℕ × ℕ} {v : ℕ}
    (hexec : exec (step alloc free) c₀ ops = some c) (habsent : ¬ Cached c.cache k)
    (hexec' : exec (step alloc free) c₀ (ops ++ [.insert k.1 k.2 v]) = some c') (hc : Cached c'.cache k) :
    StoredBy alloc free c₀ (ops ++ [.insert k.1 k.2 v]) k v := by
  refine ⟨ops, [], rfl, ⟨c, hexec, habsent⟩, fun cs hcs => ?_⟩
  rw [List.prefix_nil.mp hcs]
  exact ⟨c', hexec', hc⟩

/-- A run of the specification with one call more. -/
theorem specRun_concat (maxPages : ℕ) (ops : List (Op × Bool)) (op : Op) (ok : Bool) :
    specRun maxPages (ops ++ [(op, ok)]) =
      ((specStep maxPages (specRun maxPages ops).1 op ok).2,
        (specStep maxPages (specRun maxPages ops).1 op ok).1 :: (specRun maxPages ops).2) := by
  unfold specRun
  rw [List.foldl_append]
  rfl

/-- Every run returns and is a run of the specification; every cached page was stored by the first
insertion since its key was last absent. -/
theorem run_refines (s₀ : State A) (haligned : (alloc s₀.toMachine).1 % pageSize = 0) (hpos : 1 ≤ maxPages)
    (ops : List Op) (hrun : Guarded (step alloc free)
      (fun c op => op.IsWord ∧ Fresh alloc free c op ∧ Spares alloc free c op) (boot alloc s₀ maxPages) ops) :
    ∃ c lru oks, exec (step alloc free) (boot alloc s₀ maxPages) ops = some c ∧
      Inv maxPages c.cache lru ∧ oks.length = ops.length ∧
      specRun maxPages (ops.zip oks) = (c.cache.contents lru, c.returned) ∧
      ∀ k v, (k, v) ∈ c.cache.contents lru → StoredBy alloc free (boot alloc s₀ maxPages) ops k v := by
  induction ops using List.reverseRecOn with
  | nil =>
      exact ⟨_, [], [], rfl, inv_boot s₀ maxPages haligned, rfl, rfl, fun k v h => absurd h List.not_mem_nil⟩
  | append_singleton ops op ih =>
      obtain ⟨hguard, hlast⟩ := guarded_concat.mp hrun
      obtain ⟨c, lru, oks, hexec, hinv, hlen, hspec, hstored⟩ := ih hguard
      obtain ⟨hword, hfresh, hspares⟩ := hlast c hexec
      obtain ⟨c', lru', ok, hstep, hinv', hcontents, hreturned⟩ := hinv.step hpos hword (hfresh.harmless hspares)
      have hexec' : exec (step alloc free) (boot alloc s₀ maxPages) (ops ++ [op]) = some c' :=
        (exec_concat hexec).trans hstep
      refine ⟨c', lru', oks ++ [ok], hexec', hinv', by simp [hlen], ?_, fun k v hkv => ?_⟩
      · rw [List.zip_append hlen.symm, List.zip_cons_cons, List.zip_nil_left, specRun_concat, hspec,
          hcontents, hreturned]
      · have hc : Cached c'.cache k := by
          rw [hinv'.rep.cached_iff, ← keys_contents]
          exact List.mem_map.mpr ⟨(k, v), hkv, rfl⟩
        rw [hcontents] at hkv
        rcases mem_specStep hkv with hold | ⟨rfl, -, hnew⟩
        · exact (hstored k v hold).concat hexec' hc
        · refine storedBy_new hexec ?_ hexec' hc
          rwa [hinv.rep.cached_iff, ← keys_contents]

/-- The entry is on the chain of the bucket. -/
def OnChain (s : State A) (b a : ℕ) : Prop := ∃ chain, IsList s.hashNext chain (s.slot b) ∧ a ∈ chain

/-- The chain of a bucket holds the entries that belong to it. -/
theorem Rep.onChain_iff (h : Rep s lru) (htable : s.hashTable ≠ 0) {b : ℕ} (hb : b < defaultHashSize)
    (a : ℕ) : OnChain s b a ↔ a ∈ lru ∧ s.bucket a = b := by
  have hmem : a ∈ lru.filter (fun a => s.bucket a = b) ↔ a ∈ lru ∧ s.bucket a = b := by simp
  rw [← hmem]
  constructor
  · rintro ⟨chain, hchain, ha⟩
    rwa [(h.chains htable b hb).unique hchain]
  · exact fun ha => ⟨_, h.chains htable b hb, ha⟩

/-- What a lookup returns, in any state of a run. -/
theorem Inv.lookup (h : Inv maxPages s lru) (k : ℕ × ℕ) :
    ∃ v s', pageCacheLookup s k.1 k.2 = some (v, s') ∧
      (Cached s k → (k, v) ∈ s.contents lru) ∧ (¬ Cached s k → v = 0) := by
  obtain ⟨s', hcall, -⟩ := h.rep.lookup k.1 k.2
  refine ⟨_, s', hcall, fun hc => ?_, fun hc => ?_⟩
  · rw [h.rep.cached_iff, ← keys_contents] at hc
    cases hfind : BoundedMap.find (s.contents lru) k with
    | none => exact absurd hc (BoundedMap.find_eq_none_iff.mp hfind)
    | some v => exact (BoundedMap.find_eq_some_iff h.spec.valid.nodup).mp hfind
  · rw [h.rep.cached_iff, ← keys_contents] at hc
    show (BoundedMap.find (s.contents lru) k).getD 0 = 0
    rw [BoundedMap.find_eq_none_iff.mpr hc]
    rfl

/-- The cache in `c` is the bounded map that the calls `ops` have made of the empty one, newest entry first: the
LRU list is well formed, the chains hold exactly its entries, each in the bucket of its key, no key occurs twice, and
the counter is the number of entries; the entries and all results are those of the specification; and a lookup returns
what the first insertion since the key was last absent has stored. -/
structure Serves (alloc : Machine A → ℕ × Machine A) (free : ℕ → Machine A → Machine A) (c₀ : Run A) (maxPages : ℕ)
    (ops : List Op) (c : Run A) (lru : List ℕ) : Prop where
  list : IsDList c.cache.lruNext c.cache.lruPrev 0 lru c.cache.lruHead
  tail : c.cache.lruTail = lru.getLastD 0
  chains : c.cache.hashTable ≠ 0 → ∀ b < defaultHashSize, ∀ a,
    OnChain c.cache b a ↔ a ∈ lru ∧ c.cache.bucket a = b
  nodup : (lru.map c.cache.key).Nodup
  total : c.cache.totalPages = lru.length
  bounded : c.cache.totalPages ≤ maxPages
  spec : ∃ oks, oks.length = ops.length ∧ specRun maxPages (ops.zip oks) = (c.cache.contents lru, c.returned)
  lookup : ∀ k : ℕ × ℕ, ∃ v s', pageCacheLookup c.cache k.1 k.2 = some (v, s') ∧
    (Cached c.cache k → StoredBy alloc free c₀ ops k v) ∧ (¬ Cached c.cache k → v = 0)

/-- In every run in which the page behind the block of the bucket array is spared, the page cache is a bounded map
in insertion order. -/
theorem page_cache_refines_map (s₀ : State A) (haligned : (alloc s₀.toMachine).1 % pageSize = 0)
    (hpos : 1 ≤ maxPages) (ops : List Op) (hrun : Guarded (step alloc free)
      (fun c op => op.IsWord ∧ Fresh alloc free c op ∧ Spares alloc free c op) (boot alloc s₀ maxPages) ops) :
    ∃ c lru, exec (step alloc free) (boot alloc s₀ maxPages) ops = some c ∧
      Serves alloc free (boot alloc s₀ maxPages) maxPages ops c lru := by
  obtain ⟨c, lru, oks, hexec, hinv, hlen, hspec, hstored⟩ := run_refines s₀ haligned hpos ops hrun
  have hrep := hinv.rep
  have hnodup := hinv.spec.valid.nodup
  have hle := hinv.spec.valid.length_le
  rw [keys_contents] at hnodup
  rw [State.contents, List.length_map] at hle
  refine ⟨c, lru, hexec, hrep.list, hrep.tail, fun htable b hb a => hrep.onChain_iff htable hb a, hnodup, hrep.total,
    hrep.total ▸ hle, ⟨oks, hlen, hspec⟩, fun k => ?_⟩
  obtain ⟨v, s', hcall, hcached, habsent⟩ := hinv.lookup k
  exact ⟨v, s', hcall, fun hc => hstored k v (hcached hc), habsent⟩

/-! ### On a stack of free pages -/

/-- A cache that was never initialised, in memory that is zero, over the free pages `pages`. -/
def onPages (pages : List ℕ) : State (List ℕ) :=
  { mem := fun _ => 0, pages := pages, hashTable := 0, lruHead := 0, lruTail := 0, totalPages := 0, maxPages := 0
    cacheHits := 0, cacheMisses := 0, counter := 0 }

/-- There `page_cache_init` only takes a page and sets the globals. -/
theorem pageCacheInit_onPages {t : ℕ} (ht : t ≠ 0) (pages : List ℕ) (maxPages : ℕ) :
    pageCacheInit popFree (onPages (t :: pages)) maxPages =
      { onPages pages with hashTable := t, maxPages := maxPages } := by
  have hcleared : cleared (fun _ => 0) t = fun _ => 0 := funext fun x => ite_self 0
  have hpop : (popFree (onPages (t :: pages)).toMachine).1 ≠ 0 := ht
  rw [pageCacheInit_eq hpop]
  simp only [popFree, onPages, hcleared]

/-- A new page is null, or it is aligned and neither the table's nor that of a linked entry. -/
def pageTest (s : State A) (a : ℕ) : Bool :=
  decide (a = 0) || decide (a % pageSize = 0 ∧ a < 2 ^ 64 ∧ a ≠ s.hashTable) &&
    decide (search s.lruNext (fun b => b = a) 64 s.lruHead = some 0)

/-- The test of a page is sound. -/
theorem promised_of_pageTest {a : ℕ} {m : Machine A} (hm : m.mem = s.mem) (h : pageTest s a = true) :
    Promised s a m := by
  refine ⟨fun ha => ?_, fun x _ => congrFun hm x, fun _ _ x _ => congrFun hm x⟩
  simp only [pageTest, Bool.or_eq_true, Bool.and_eq_true, decide_eq_true_eq] at h
  obtain ⟨⟨haligned, hlt, hne⟩, hsearch⟩ := h.resolve_left ha
  refine ⟨haligned, hlt, hne, fun ⟨lru, hlru, hmem⟩ => ?_⟩
  have hfalse := eq_false_of_search hlru hsearch a hmem
  exact absurd rfl (of_decide_eq_false hfalse)

/-- A page that is put back on the stack keeps its bytes. -/
theorem promised_pushFree (s : State (List ℕ)) (a : ℕ) : Promised s 0 (pushFree a s.toMachine) :=
  ⟨fun h => absurd rfl h, fun _ _ => rfl, fun _ _ _ _ => rfl⟩

/-- Pushing a page on the stack writes nothing. -/
theorem sparesBehind_pushFree (s : State (List ℕ)) (a : ℕ) : SparesBehind s 0 (pushFree a s.toMachine) :=
  ⟨(Nat.add_pos_right s.hashTable (by decide)).ne, fun _ _ => rfl⟩

/-- Popping a page off the stack writes nothing. -/
theorem popFree_mem (m : Machine (List ℕ)) : (popFree m).2.mem = m.mem := by
  unfold popFree
  split <;> rfl

/-- A test of the page that an insertion gets for its entry. -/
def insertTest (t : State (List ℕ) → ℕ → Bool) (c : Run (List ℕ)) : Op → Bool
  | .insert _ _ _ => match makeRoom pushFree c.cache with
    | none => true
    | some s => t s (popFree s.toMachine).1
  | _ => true

/-- What holds of every page that is put back, and of the page for a new entry. -/
theorem allocatorCalls_of_insertTest {ok : State (List ℕ) → ℕ → Machine (List ℕ) → Prop}
    {t : State (List ℕ) → ℕ → Bool} (hfree : ∀ s a, ok s 0 (pushFree a s.toMachine))
    (hpop : ∀ s, t s (popFree s.toMachine).1 = true → AddAllocates popFree ok s) {c : Run (List ℕ)} {op : Op}
    (h : insertTest t c op = true) : AllocatorCalls popFree pushFree ok c op := by
  have hevict : ∀ s, EvictFrees pushFree ok s := fun s victim s₁ _ _ =>
    ⟨hfree s₁ _, hfree (s₁.setMachine (pushFree (s₁.get .physicalAddress victim) s₁.toMachine)) victim⟩
  cases op with
  | insert fileId offset physAddr =>
      refine fun _ _ _ => ⟨fun _ => hevict c.cache, fun s₁ hroom => hpop s₁ ?_⟩
      simpa only [insertTest, hroom] using h
  | lookup fileId offset => trivial
  | remove fileId offset => exact fun entry s₁ _ _ => hfree s₁ entry
  | evict => exact hevict c.cache

/-- The test of the allocator is sound. -/
theorem fresh_of_test {c : Run (List ℕ)} {op : Op} (h : insertTest pageTest c op = true) :
    Fresh popFree pushFree c op :=
  allocatorCalls_of_insertTest promised_pushFree (fun _ hs => promised_of_pageTest (popFree_mem _) hs) h

/-- A test of the page behind that of the bucket array. -/
def behindTest (s : State A) (a : ℕ) : Bool := decide (a ≠ s.hashTable + pageSize)

/-- The test of the allocator is sound. -/
theorem spares_of_test {c : Run (List ℕ)} {op : Op} (h : insertTest behindTest c op = true) :
    Spares popFree pushFree c op :=
  allocatorCalls_of_insertTest sparesBehind_pushFree
    (fun s hs => ⟨of_decide_eq_true hs, fun x _ => congrFun (popFree_mem s.toMachine) x⟩) h

instance (fileId offset physAddr : ℕ) : Decidable (IsWords fileId offset physAddr) :=
  decidable_of_iff (fileId < 2 ^ 64 ∧ offset < 2 ^ 64 ∧ physAddr < 2 ^ 64)
    ⟨fun h => ⟨h.1, h.2.1, h.2.2⟩, fun h => ⟨h.fileId_lt, h.offset_lt, h.physAddr_lt⟩⟩

instance (op : Op) : Decidable op.IsWord :=
  match op with
  | .insert fileId offset physAddr => inferInstanceAs (Decidable (IsWords fileId offset physAddr))
  | .lookup _ _ => isTrue trivial
  | .remove _ _ => isTrue trivial
  | .evict => isTrue trivial

/-- The guards of a run as one test. -/
def runTest (c : Run (List ℕ)) (op : Op) : Bool :=
  decide op.IsWord && (insertTest pageTest c op && insertTest behindTest c op)

/-- The test of a call is sound. -/
theorem guards_of_runTest (c : Run (List ℕ)) (op : Op) (h : runTest c op = true) :
    op.IsWord ∧ Fresh popFree pushFree c op ∧ Spares popFree pushFree c op := by
  simp only [runTest, Bool.and_eq_true, decide_eq_true_eq] at h
  exact ⟨h.1, fresh_of_test h.2.1, spares_of_test h.2.2⟩

/-- Two keys of one bucket, an eviction, a removal and an insertion after it. -/
def sampleRun : List Op :=
  [.insert 1 0 0x10000, .insert 0 4096 0x11000, .lookup 1 0, .insert 5 0 0x12000, .insert 0 4096 0x13000,
    .remove 0 4096, .insert 1 0 0x14000, .evict, .lookup 1 0]

/-- The page behind that of the bucket array is not on the stack. -/
def sparedPages : State (List ℕ) := onPages [0x1000, 0x3000, 0x4000, 0x5000]

/-- The run is one of the specification. -/
theorem page_cache_refines_map_sample :
    (popFree sparedPages.toMachine).1 % pageSize = 0 ∧ 1 ≤ 2 ∧
      ∃ c lru, exec (step popFree pushFree) (boot popFree sparedPages 2) sampleRun = some c ∧
        Serves popFree pushFree (boot popFree sparedPages 2) 2 sampleRun c lru := by
  refine ⟨by decide, by decide, page_cache_refines_map sparedPages (by decide) (by decide) sampleRun ?_⟩
  refine guarded_of_guardedBy guards_of_runTest ?_
  unfold boot sparedPages
  rw [pageCacheInit_onPages (by decide)]
  decide +kernel

/-- The entry of the second key is where the slot of the first one lies. -/
def overrunRun : List Op := [.insert 0 0 0x10000, .insert 512 0 0x11000, .lookup 0 0]

/-- On three pages in a row the first entry gets the page behind that of the bucket array. The insertion of the second
key writes its slot, and so the file of the first entry: the first key is not found any more. -/
theorem key_lost :
    ¬ ∀ (maxPages : ℕ) (ops : List Op), 1 ≤ maxPages →
      Guarded (step popFree pushFree) (fun c op => op.IsWord ∧ Fresh popFree pushFree c op)
        (boot popFree (onPages [0x1000, 0x2000, 0x3000]) maxPages) ops →
      ∃ c lru, exec (step popFree pushFree) (boot popFree (onPages [0x1000, 0x2000, 0x3000]) maxPages) ops = some c ∧
        Serves popFree pushFree (boot popFree (onPages [0x1000, 0x2000, 0x3000]) maxPages) maxPages ops c lru := by
  intro hclaim
  unfold boot at hclaim
  simp only [pageCacheInit_onPages (show 0x1000 ≠ 0 by decide)] at hclaim
  obtain ⟨c, lru, hexec, hserves⟩ := hclaim 2 overrunRun (by decide)
    (guarded_of_guardedBy (t := fun c op => decide op.IsWord && insertTest pageTest c op)
      (fun c op h => ⟨of_decide_eq_true (Bool.and_eq_true_iff.mp h).1, fresh_of_test (Bool.and_eq_true_iff.mp h).2⟩)
      (by decide +kernel))
  have hreturned : (exec (step popFree pushFree)
      ⟨{ onPages [0x2000, 0x3000] with hashTable := 0x1000, maxPages := 2 }, []⟩ overrunRun).map Run.returned =
      some [.page 0, .code 0, .code 0] := by decide +kernel
  rw [hexec, Option.map_some, Option.some.injEq] at hreturned
  obtain ⟨oks, hlen, hspec⟩ := hserves.spec
  obtain ⟨o₁, o₂, o₃, rfl⟩ := List.length_eq_three.mp hlen
  -- no outcome of the two allocations makes the specification return that
  have hnever : ∀ o₁ o₂ o₃, (specRun 2 (overrunRun.zip [o₁, o₂, o₃])).2 ≠ [.page 0, .code 0, .code 0] := by decide
  have hret : (specRun 2 (overrunRun.zip [o₁, o₂, o₃])).2 = c.returned := congrArg Prod.snd hspec
  exact hnever o₁ o₂ o₃ (hret.trans hreturned)

end PrometheusKernel.PageCache
