import PrometheusKernel.PageCache.Refinement

/-!
# Insertions on several CPUs

Each section that runs while `g_page_cache.lock` is held is one step. `page_cache_insert` on a cache that
is not full is one step; on a full cache it is three: it looks for the key and finds the cache full, it
calls `page_cache_evict_lru`, and it adds the entry. Between these it does not hold the lock and does
not look again, so another insertion may come in between. `two_entries` is such a run: one key gets two
entries and the cache holds more pages than it may.

`Orderly` is the condition on the first section of an insertion under which this does not happen, and
`one_entry_per_key` the result: then in every interleaving every key has at most one entry and
`total_pages` stays within `max_pages`, as long as the page behind that of the bucket array is spared in every section
(`SparesHalf`).
-/

namespace PrometheusKernel.PageCache

open LinkedList Interleaving

/-! ### The steps -/

/-- Where a CPU is in `page_cache_insert`, on its way through a full cache. -/
inductive Phase
  | idle
  /-- The cache was full; the lock is released. -/
  | evicting (fileId offset physAddr : ℕ)
  /-- An entry was evicted; the lock is to be taken again. -/
  | adding (fileId offset physAddr : ℕ)

/-- The key of an insertion in progress. -/
def Phase.key : Phase → Option (ℕ × ℕ)
  | .idle => none
  | .evicting fileId offset _ => some (fileId, offset)
  | .adding fileId offset _ => some (fileId, offset)

def Phase.isPending : Phase → Bool
  | .idle => false
  | _ => true

def Phase.isEvicting : Phase → Bool
  | .evicting _ _ _ => true
  | _ => false

def Phase.isAdding : Phase → Bool
  | .adding _ _ _ => true
  | _ => false

/-- The arguments of an insertion in progress are of 64 bits. -/
def Phase.IsWord : Phase → Prop
  | .idle => True
  | .evicting fileId offset physAddr => IsWords fileId offset physAddr
  | .adding fileId offset physAddr => IsWords fileId offset physAddr

/-- The cache and the CPUs. -/
structure Config (A : Type) (n : ℕ) where
  cache : State A
  cpu : Fin n → Phase

/-- A step of one CPU. -/
inductive Action (n : ℕ)
  /-- The first section of `page_cache_insert`. -/
  | insert (i : Fin n) (fileId offset physAddr : ℕ)
  /-- Its call of `page_cache_evict_lru`. -/
  | evict (i : Fin n)
  /-- Its last section. -/
  | add (i : Fin n)
  | lookup (i : Fin n) (fileId offset : ℕ)
  | remove (i : Fin n) (fileId offset : ℕ)
  | evictLru (i : Fin n)

/-- The arguments of an insertion are of 64 bits. -/
def Action.IsWord {n : ℕ} : Action n → Prop
  | .insert _ fileId offset physAddr => IsWords fileId offset physAddr
  | _ => True

variable {A : Type} {n : ℕ} (alloc : Machine A → ℕ × Machine A) (free : ℕ → Machine A → Machine A)

/-- The first section of `page_cache_insert`. -/
def insertSection (c : Config A n) (i : Fin n) (fileId offset physAddr : ℕ) : Option (Config A n) :=
  if c.cache.hashTable = 0 ∨ physAddr = 0 then some c
  else do
    let existing ← findEntry c.cache fileId offset
    if existing ≠ 0 then some c
    else if c.cache.maxPages ≤ c.cache.totalPages then
      some { c with cpu := Function.update c.cpu i (.evicting fileId offset physAddr) }
    else some { c with cache := (addEntry alloc c.cache fileId offset physAddr).2 }

/-- One step; a CPU that is elsewhere does nothing, and `none` is a section that does not end. -/
def act (c : Config A n) : Action n → Option (Config A n)
  | .insert i fileId offset physAddr => match c.cpu i with
    | .idle => insertSection alloc c i fileId offset physAddr
    | _ => some c
  | .evict i => match c.cpu i with
    | .evicting fileId offset physAddr => (pageCacheEvictLru free c.cache).map fun s =>
        { cache := s, cpu := Function.update c.cpu i (.adding fileId offset physAddr) }
    | _ => some c
  | .add i => match c.cpu i with
    | .adding fileId offset physAddr => some
        { cache := (addEntry alloc c.cache fileId offset physAddr).2, cpu := Function.update c.cpu i .idle }
    | _ => some c
  | .lookup i fileId offset => match c.cpu i with
    | .idle => (pageCacheLookup c.cache fileId offset).map fun res => { c with cache := res.2 }
    | _ => some c
  | .remove i fileId offset => match c.cpu i with
    | .idle => (pageCacheRemove free c.cache fileId offset).map fun s => { c with cache := s }
    | _ => some c
  | .evictLru i => match c.cpu i with
    | .idle => (pageCacheEvictLru free c.cache).map fun s => { c with cache := s }
    | _ => some c

/-- All CPUs idle on the cache after `page_cache_init`. -/
def start (s : State A) (maxPages : ℕ) : Config A n := ⟨pageCacheInit alloc s maxPages, fun _ => .idle⟩

/-- `ok` holds of every call of the page allocator that a section makes. -/
def SectionCalls (ok : State A → ℕ → Machine A → Prop) (c : Config A n) : Action n → Prop
  | .insert i fileId offset physAddr => c.cpu i = .idle →
      c.cache.hashTable ≠ 0 → physAddr ≠ 0 → findEntry c.cache fileId offset = some 0 →
        c.cache.totalPages < c.cache.maxPages → AddAllocates alloc ok c.cache
  | .evict i => (c.cpu i).isEvicting = true → EvictFrees free ok c.cache
  | .add i => (c.cpu i).isAdding = true → AddAllocates alloc ok c.cache
  | .lookup _ _ _ => True
  | .remove i fileId offset => c.cpu i = .idle → RemoveFrees free ok c.cache fileId offset
  | .evictLru i => c.cpu i = .idle → EvictFrees free ok c.cache

/-- The allocator keeps its promise. -/
def GetsFresh : Config A n → Action n → Prop := SectionCalls alloc free Promised

/-- The page behind that of the bucket array is given to no entry, and nobody but the cache writes to it. -/
def SparesHalf : Config A n → Action n → Prop := SectionCalls alloc free SparesBehind

variable {alloc free} in
/-- An allocator that keeps its promise and spares the page behind the table is harmless. -/
theorem GetsFresh.harmless {c : Config A n} {a : Action n} (h : GetsFresh alloc free c a)
    (h' : SparesHalf alloc free c a) : SectionCalls alloc free Harmless c a := by
  cases a with
  | insert i fileId offset physAddr =>
      exact fun hi htable hphys hfind hroom => ⟨h hi htable hphys hfind hroom, h' hi htable hphys hfind hroom⟩
  | evict i => exact fun hi => (h hi).and (h' hi)
  | add i => exact fun hi => ⟨h hi, h' hi⟩
  | lookup i fileId offset => trivial
  | remove i fileId offset => exact fun hi => (h hi).and (h' hi)
  | evictLru i => exact fun hi => (h hi).and (h' hi)

/-- The number of insertions in progress, and of those that have evicted. -/
def Config.pending (c : Config A n) : ℕ := population Phase.isPending c.cpu

@[inherit_doc Config.pending]
def Config.adders (c : Config A n) : ℕ := population Phase.isAdding c.cpu

/-- The first section of an insertion returns at once, or its key is that of no insertion in progress and
there is room: for the insertions that have evicted if it adds its entry now, and for all insertions in
progress if it goes on. -/
def Orderly (c : Config A n) : Action n → Prop
  | .insert _ fileId offset physAddr =>
      c.cache.hashTable ≠ 0 → physAddr ≠ 0 → findEntry c.cache fileId offset = some 0 →
        (∀ j, (c.cpu j).key ≠ some (fileId, offset)) ∧
        if c.cache.maxPages ≤ c.cache.totalPages then c.pending < c.cache.maxPages
        else c.cache.totalPages + c.adders < c.cache.maxPages
  | _ => True

/-- No key has two entries and the cache is within its bound. -/
def Sound (s : State A) : Prop :=
  ∃ lru, IsList s.lruNext lru s.lruHead ∧ (lru.map s.key).Nodup ∧ s.totalPages ≤ s.maxPages

/-! ### The sections are the calls -/

variable {alloc free} {c c' : Config A n} {s s' : State A} {lru : List ℕ} {maxPages : ℕ} {i : Fin n}

/-- A CPU that is idle has no second and third section to run. -/
theorem exec_idle (hi : c.cpu i = .idle) : exec (act alloc free) c [.evict i, .add i] = some c := by
  simp [exec, act, hi]

/-- The three steps of an insertion, taken without a break, are `page_cache_insert`. -/
theorem exec_insert (hi : c.cpu i = .idle) (fileId offset physAddr : ℕ) :
    exec (act alloc free) c [.insert i fileId offset physAddr, .evict i, .add i] =
      (pageCacheInsert alloc free c.cache fileId offset physAddr).map fun res => { c with cache := res.2 } := by
  have hfirst : exec (act alloc free) c [.insert i fileId offset physAddr, .evict i, .add i] =
      (insertSection alloc c i fileId offset physAddr).bind
        fun c' => exec (act alloc free) c' [.evict i, .add i] := by
    simp [exec, act, hi]
  rw [hfirst]
  unfold insertSection pageCacheInsert makeRoom
  by_cases hrefused : c.cache.hashTable = 0 ∨ physAddr = 0
  · rw [if_pos hrefused, if_pos hrefused, Option.bind_some, exec_idle hi]
    rfl
  rw [if_neg hrefused, if_neg hrefused]
  cases hfind : findEntry c.cache fileId offset with
  | none => rfl
  | some e =>
      by_cases he : e = 0
      · subst he
        by_cases hfull : c.cache.maxPages ≤ c.cache.totalPages
        · -- the CPU goes through both phases and is idle again
          simp only [exec, hfull, if_true, ne_eq, not_true_eq_false, if_false, Option.bind_eq_bind, Option.bind_some,
            List.foldlM_cons, List.foldlM_nil, act, Function.update_self]
          cases hevict : pageCacheEvictLru free c.cache with
          | none => rfl
          | some s =>
              simp [← hi]
        · simp only [hfull, if_false, ne_eq, not_true_eq_false, Option.bind_eq_bind, Option.bind_some]
          rw [exec_idle (c := { c with cache := (addEntry alloc c.cache fileId offset physAddr).2 }) hi]
          rfl
      · simp only [he, ne_eq, not_false_eq_true, if_true, Option.bind_eq_bind, Option.bind_some]
        rw [exec_idle hi]
        rfl

/-! ### The invariant -/

/-- Every key has at most one entry or insertion in progress, and there is room for what will be added. -/
structure Safe (maxPages : ℕ) (c : Config A n) (lru : List ℕ) : Prop where
  rep : Rep c.cache lru
  max : c.cache.maxPages = maxPages
  table : ∀ i, (c.cpu i).key ≠ none → c.cache.hashTable ≠ 0
  words : ∀ i, (c.cpu i).IsWord
  nodup : (lru.map c.cache.key).Nodup
  distinct : ∀ i j, i ≠ j → (c.cpu i).key ≠ none → (c.cpu i).key ≠ (c.cpu j).key
  absent : ∀ i k, (c.cpu i).key = some k → k ∉ lru.map c.cache.key
  room : lru.length + c.adders ≤ maxPages
  pending : c.pending ≤ maxPages

/-- The invariant says what is to be shown. -/
theorem Safe.sound (h : Safe maxPages c lru) : Sound c.cache := by
  refine ⟨lru, h.rep.list.isList, h.nodup, ?_⟩
  rw [h.rep.total, h.max]
  exact (Nat.le_add_right _ _).trans h.room

/-- Entries are unlinked or accessed. -/
theorem Safe.shrink {lru' : List ℕ} (h : Safe maxPages c lru) (hrep : Rep s' lru')
    (hmax : s'.maxPages = c.cache.maxPages) (htable : s'.hashTable = c.cache.hashTable)
    (hkeys : (lru'.map s'.key).Sublist (lru.map c.cache.key)) : Safe maxPages { c with cache := s' } lru' := by
  have hlen := hkeys.length_le
  rw [List.length_map, List.length_map] at hlen
  refine ⟨hrep, hmax.trans h.max, fun i hi => ?_, h.words, h.nodup.sublist hkeys, h.distinct, fun i k hk hmem => ?_, ?_,
    h.pending⟩
  · rw [htable]
    exact h.table i hi
  · exact h.absent i k hk (hkeys.subset hmem)
  · exact (Nat.add_le_add_right hlen _).trans h.room

/-- Fewer entries have fewer keys. -/
theorem keys_sublist {lru' : List ℕ} (hsub : lru'.Sublist lru) (hkeeps : Keeps s s' lru') :
    (lru'.map s'.key).Sublist (lru.map s.key) := by
  have heq : lru'.map s'.key = lru'.map s.key :=
    List.map_congr_left fun a ha => key_eq_of_body (hkeeps.body a ha)
  rw [heq]
  exact hsub.map _

/-- An entry is added for a key that has neither an entry nor an insertion in progress. -/
theorem Safe.push {a : ℕ} {k : ℕ × ℕ} {physAddr : ℕ} (h : Safe maxPages c lru) (hrep : Rep s' (a :: lru))
    (hadds : Adds c.cache s' a k physAddr lru) (hk : k ∉ lru.map c.cache.key) (hnone : ∀ j, (c.cpu j).key ≠ some k)
    (hroom : lru.length + c.adders < maxPages) : Safe maxPages { c with cache := s' } (a :: lru) := by
  have hkeys : (a :: lru).map s'.key = k :: lru.map c.cache.key := by
    rw [List.map_cons]
    congr 1
    · exact congrArg Prod.fst hadds.new
    · exact List.map_congr_left fun b hb => key_eq_of_body (hadds.others b hb)
  refine ⟨hrep, hadds.maxPages.trans h.max, fun i hi => ?_, h.words, ?_, h.distinct, fun i k' hk' hmem => ?_, ?_,
    h.pending⟩
  · rw [hadds.hashTable]
    exact h.table i hi
  · rw [hkeys]
    exact List.nodup_cons.mpr ⟨hk, h.nodup⟩
  · rw [hkeys] at hmem
    rcases List.mem_cons.mp hmem with rfl | hmem'
    · exact hnone i hk'
    · exact h.absent i k' hk' hmem'
  · show lru.length + 1 + c.adders ≤ maxPages
    omega

/-- A CPU goes on: it keeps its key, gives it up, or takes one that is nowhere. -/
theorem Safe.move (h : Safe maxPages c lru) (p : Phase) (hword : p.IsWord)
    (hkey : ∀ k, p.key = some k → (c.cpu i).key = some k ∨
      c.cache.hashTable ≠ 0 ∧ (∀ j, (c.cpu j).key ≠ some k) ∧ k ∉ lru.map c.cache.key)
    (hroom : lru.length + population Phase.isAdding (Function.update c.cpu i p) ≤ maxPages)
    (hpending : population Phase.isPending (Function.update c.cpu i p) ≤ maxPages) :
    Safe maxPages { c with cpu := Function.update c.cpu i p } lru := by
  have hother : ∀ j, j ≠ i → Function.update c.cpu i p j = c.cpu j := fun j hj => Function.update_of_ne hj _ _
  -- no other CPU has the key that `i` has now
  have hfresh : ∀ j, j ≠ i → ∀ k, p.key = some k → (c.cpu j).key ≠ some k := by
    intro j hj k hk
    rcases hkey k hk with hsame | ⟨-, hnone, -⟩
    · rw [← hsame]
      exact (h.distinct i j hj.symm (by rw [hsame]; simp)).symm
    · exact hnone j
  refine ⟨h.rep, h.max, fun j hj => ?_, fun j => ?_, h.nodup, fun j j' hjj hj => ?_, fun j k hk => ?_, hroom,
    hpending⟩
  · by_cases hji : j = i
    · subst hji
      simp only [Function.update_self] at hj
      obtain ⟨k, hk⟩ := Option.ne_none_iff_exists'.mp hj
      rcases hkey k hk with hsame | ⟨htable, -, -⟩
      · exact h.table j (by rw [hsame]; simp)
      · exact htable
    · simp only [hother j hji] at hj
      exact h.table j hj
  · dsimp only
    by_cases hji : j = i
    · subst hji
      rw [Function.update_self]
      exact hword
    · rw [hother j hji]
      exact h.words j
  · dsimp only at hj ⊢
    by_cases hji : j = i
    · subst hji
      rw [Function.update_self] at hj ⊢
      obtain ⟨k, hk⟩ := Option.ne_none_iff_exists'.mp hj
      rw [hother j' hjj.symm, hk]
      exact (hfresh j' hjj.symm k hk).symm
    · rw [hother j hji] at hj ⊢
      by_cases hji' : j' = i
      · subst hji'
        rw [Function.update_self]
        obtain ⟨k, hk⟩ := Option.ne_none_iff_exists'.mp hj
        rw [hk]
        exact fun hp => hfresh j hji k hp.symm hk
      · rw [hother j' hji']
        exact h.distinct j j' hjj hj
  · dsimp only at hk
    by_cases hji : j = i
    · subst hji
      rw [Function.update_self] at hk
      rcases hkey k hk with hsame | ⟨-, -, hnot⟩
      · exact h.absent j k hsame
      · exact hnot
    · rw [hother j hji] at hk
      exact h.absent j k hk

/-! ### The sections keep the invariant -/

/-- The new entry of a section that adds one, or nothing if there is no memory for it. -/
theorem Safe.addEntry (h : Safe maxPages c lru) (htable : c.cache.hashTable ≠ 0) {fileId offset physAddr : ℕ}
    (hw : IsWords fileId offset physAddr) (hok : AddAllocates alloc Harmless c.cache)
    (hk : (fileId, offset) ∉ lru.map c.cache.key) (hnone : ∀ j, (c.cpu j).key ≠ some (fileId, offset))
    (hroom : lru.length + c.adders < maxPages) :
    ∃ lru', Safe maxPages { c with cache := (PageCache.addEntry alloc c.cache fileId offset physAddr).2 } lru' := by
  rcases h.rep.addEntry htable hw hok with ⟨s', hcall, hrep, hkeeps⟩ | ⟨s', a, hcall, -, hrep, hadds⟩
  · rw [hcall]
    exact ⟨lru, h.shrink hrep hkeeps.maxPages hkeeps.hashTable (keys_sublist (List.Sublist.refl lru) hkeeps)⟩
  · rw [hcall]
    exact ⟨_, h.push hrep hadds hk hnone hroom⟩

/-- The first section of an insertion keeps the invariant. -/
theorem Safe.insertSection (h : Safe maxPages c lru) {fileId offset physAddr : ℕ} (hi : c.cpu i = .idle)
    (hw : IsWords fileId offset physAddr)
    (hok : SectionCalls alloc free Harmless c (.insert i fileId offset physAddr))
    (horder : Orderly c (.insert i fileId offset physAddr)) :
    ∃ c' lru', PageCache.insertSection alloc c i fileId offset physAddr = some c' ∧ Safe maxPages c' lru' := by
  unfold PageCache.insertSection
  by_cases hrefused : c.cache.hashTable = 0 ∨ physAddr = 0
  · rw [if_pos hrefused]
    exact ⟨c, lru, rfl, h⟩
  rw [if_neg hrefused]
  obtain ⟨htable, hphys⟩ := not_or.mp hrefused
  rw [h.rep.findEntry_eq htable]
  cases hfind : lru.find? fun a => decide (c.cache.key a = (fileId, offset)) with
  | some e =>
      have he0 : e ≠ 0 := h.rep.ne_zero (List.mem_of_find?_eq_some hfind)
      exact ⟨c, lru, by simp [he0], h⟩
  | none =>
      have hnot : (fileId, offset) ∉ lru.map c.cache.key := notMem_keys_of_find hfind
      have hzero : findEntry c.cache fileId offset = some 0 := h.rep.findEntry_miss htable hfind
      obtain ⟨hnone, hspace⟩ := horder htable hphys hzero
      by_cases hfull : c.cache.maxPages ≤ c.cache.totalPages
      · rw [if_pos hfull, h.max] at hspace
        refine ⟨_, lru, by simp [hfull], h.move (i := i) (.evicting fileId offset physAddr) hw ?_ ?_ ?_⟩
        · intro k hk
          obtain rfl : (fileId, offset) = k := Option.some.inj hk
          exact Or.inr ⟨htable, hnone, hnot⟩
        · have hcount := population_update Phase.isAdding c.cpu i (.evicting fileId offset physAddr)
          have hroom := h.room
          simp only [hi, Phase.isAdding, Bool.false_eq_true, if_false, Nat.add_zero] at hcount
          rw [hcount]
          exact hroom
        · have hcount := population_update Phase.isPending c.cpu i (.evicting fileId offset physAddr)
          simp only [hi, Phase.isPending, Bool.false_eq_true, if_false, if_true, Nat.add_zero] at hcount
          rw [hcount]
          exact hspace
      · rw [if_neg hfull, h.max, h.rep.total] at hspace
        obtain ⟨lru', hsafe⟩ := h.addEntry htable hw (hok hi htable hphys hzero (not_le.mp hfull)) hnot hnone hspace
        exact ⟨_, lru', by simp [hfull], hsafe⟩

/-- The section of the eviction keeps the invariant. -/
theorem Safe.evict (h : Safe maxPages c lru) {fileId offset physAddr : ℕ}
    (hi : c.cpu i = .evicting fileId offset physAddr) (hok : EvictFrees free Harmless c.cache) :
    ∃ c' lru', act alloc free c (.evict i) = some c' ∧ Safe maxPages c' lru' := by
  have hword := h.words i
  rw [hi] at hword
  obtain ⟨s', hcall, hrep, hkeeps⟩ := h.rep.evict hok
  have hshrunk := h.shrink hrep hkeeps.maxPages hkeeps.hashTable
    (keys_sublist (List.dropLast_sublist lru) hkeeps)
  refine ⟨⟨s', Function.update c.cpu i (.adding fileId offset physAddr)⟩, lru.dropLast, ?_,
    hshrunk.move (i := i) (.adding fileId offset physAddr) hword ?_ ?_ ?_⟩
  · simp [act, hi, hcall]
  · intro k hk
    refine Or.inl ?_
    rw [hi]
    exact hk
  · have hcount := population_update Phase.isAdding c.cpu i (.adding fileId offset physAddr)
    simp only [hi, Phase.isAdding, Bool.false_eq_true, if_false, if_true, Nat.add_zero] at hcount
    dsimp only
    rw [hcount, List.length_dropLast]
    have hroom : lru.length + population Phase.isAdding c.cpu ≤ maxPages := h.room
    -- with nothing to evict there is room because this CPU is counted among those in progress
    have hlt : population Phase.isAdding c.cpu < population Phase.isPending c.cpu := by
      refine population_lt Phase.isPending c.cpu (fun l hl => ?_) (i := i) (by rw [hi]; rfl) (by rw [hi]; rfl)
      cases l with
      | adding _ _ _ => rfl
      | _ => exact absurd hl (by simp [Phase.isAdding])
    have hpending : population Phase.isPending c.cpu ≤ maxPages := h.pending
    omega
  · have hcount := population_update Phase.isPending c.cpu i (.adding fileId offset physAddr)
    simp only [hi, Phase.isPending, if_true] at hcount
    have hpending : population Phase.isPending c.cpu ≤ maxPages := h.pending
    dsimp only
    omega

/-- The last section of an insertion keeps the invariant. -/
theorem Safe.add (h : Safe maxPages c lru) {fileId offset physAddr : ℕ}
    (hi : c.cpu i = .adding fileId offset physAddr) (hok : AddAllocates alloc Harmless c.cache) :
    ∃ c' lru', act alloc free c (.add i) = some c' ∧ Safe maxPages c' lru' := by
  have hword := h.words i
  rw [hi] at hword
  have hkey : (c.cpu i).key = some (fileId, offset) := by rw [hi]; rfl
  have hcount := population_update Phase.isAdding c.cpu i .idle
  have hcount' := population_update Phase.isPending c.cpu i .idle
  simp only [hi, Phase.isAdding, Phase.isPending, Bool.false_eq_true, if_false, if_true, Nat.add_zero]
    at hcount hcount'
  have hroom : lru.length + population Phase.isAdding c.cpu ≤ maxPages := h.room
  have hpending : population Phase.isPending c.cpu ≤ maxPages := h.pending
  have hidle := h.move (i := i) .idle trivial (fun k hk => absurd hk (by simp [Phase.key])) (by omega) (by omega)
  have hspace : lru.length + population Phase.isAdding (Function.update c.cpu i .idle) < maxPages := by omega
  have hnone : ∀ j, (Function.update c.cpu i Phase.idle j).key ≠ some (fileId, offset) := by
    intro j
    by_cases hj : j = i
    · subst hj
      rw [Function.update_self]
      simp [Phase.key]
    · rw [Function.update_of_ne hj, ← hkey]
      exact (h.distinct i j (Ne.symm hj) (by rw [hkey]; simp)).symm
  obtain ⟨lru', hsafe⟩ := hidle.addEntry (h.table i (by rw [hkey]; simp)) hword hok
    (h.absent i _ hkey) hnone hspace
  exact ⟨_, lru', by simp [act, hi], hsafe⟩

/-- One step of any CPU. -/
theorem Safe.act (h : Safe maxPages c lru) {a : Action n} (hword : a.IsWord)
    (hok : SectionCalls alloc free Harmless c a) (horder : Orderly c a) :
    ∃ c' lru', PageCache.act alloc free c a = some c' ∧ Safe maxPages c' lru' := by
  cases a with
  | insert i fileId offset physAddr =>
      cases hi : c.cpu i with
      | idle =>
          obtain ⟨c', lru', hcall, hsafe⟩ := h.insertSection hi hword hok horder
          exact ⟨c', lru', by simp [PageCache.act, hi, hcall], hsafe⟩
      | _ => exact ⟨c, lru, by simp [PageCache.act, hi], h⟩
  | evict i =>
      cases hi : c.cpu i with
      | evicting fileId offset physAddr => exact h.evict hi (hok (by rw [hi]; rfl))
      | _ => exact ⟨c, lru, by simp [PageCache.act, hi], h⟩
  | add i =>
      cases hi : c.cpu i with
      | adding fileId offset physAddr => exact h.add hi (hok (by rw [hi]; rfl))
      | _ => exact ⟨c, lru, by simp [PageCache.act, hi], h⟩
  | lookup i fileId offset =>
      cases hi : c.cpu i with
      | idle =>
          obtain ⟨s', hcall, hrep, hmax, htable, hcontents⟩ := h.rep.lookup fileId offset
          have hkeys : lru.map s'.key = lru.map c.cache.key := by
            rw [← keys_contents, hcontents, keys_contents]
          refine ⟨_, lru, by simp [PageCache.act, hi, hcall], h.shrink hrep hmax htable ?_⟩
          rw [hkeys]
      | _ => exact ⟨c, lru, by simp [PageCache.act, hi], h⟩
  | remove i fileId offset =>
      cases hi : c.cpu i with
      | idle =>
          obtain ⟨s', lru', hcall, hrep, hkeeps, hsub, -⟩ := h.rep.remove (hok hi)
          exact ⟨_, lru', by simp [PageCache.act, hi, hcall],
            h.shrink hrep hkeeps.maxPages hkeeps.hashTable (keys_sublist hsub hkeeps)⟩
      | _ => exact ⟨c, lru, by simp [PageCache.act, hi], h⟩
  | evictLru i =>
      cases hi : c.cpu i with
      | idle =>
          obtain ⟨s', hcall, hrep, hkeeps⟩ := h.rep.evict (hok hi)
          exact ⟨_, lru.dropLast, by simp [PageCache.act, hi, hcall],
            h.shrink hrep hkeeps.maxPages hkeeps.hashTable
              (keys_sublist (List.dropLast_sublist lru) hkeeps)⟩
      | _ => exact ⟨c, lru, by simp [PageCache.act, hi], h⟩

/-! ### Runs -/

/-- The invariant holds after `page_cache_init`. -/
theorem safe_start (s : State A) (haligned : (alloc s.toMachine).1 % pageSize = 0) (maxPages : ℕ) :
    Safe maxPages (start alloc s maxPages : Config A n) [] := by
  have hadders : (start alloc s maxPages : Config A n).adders = 0 := population_eq_zero _ _ fun _ => rfl
  have hpending : (start alloc s maxPages : Config A n).pending = 0 := population_eq_zero _ _ fun _ => rfl
  refine ⟨rep_init s maxPages haligned, maxPages_init s maxPages, fun i hi => absurd rfl hi, fun _ => trivial,
    List.nodup_nil, fun i j _ hi => absurd rfl hi, fun i k hk => absurd hk (by simp [start, Phase.key]), ?_, ?_⟩
  · rw [hadders]
    exact Nat.zero_le _
  · rw [hpending]
    exact Nat.zero_le _

/-- In every interleaving in which the insertions are orderly and the page behind that of the bucket array is spared, no
key gets two entries and the cache stays within its bound. -/
theorem one_entry_per_key (s₀ : State A) (haligned : (alloc s₀.toMachine).1 % pageSize = 0) (maxPages : ℕ)
    (as : List (Action n)) (hrun : Guarded (act alloc free)
      (fun c a => (a.IsWord ∧ GetsFresh alloc free c a ∧ SparesHalf alloc free c a) ∧ Orderly c a)
      (start alloc s₀ maxPages) as) :
    ∃ c, exec (act alloc free) (start alloc s₀ maxPages) as = some c ∧ Sound c.cache := by
  have htotal := exec_total (I := fun c : Config A n => ∃ lru, Safe maxPages c lru) (fun c a hc hok => ?_)
    ⟨[], safe_start s₀ haligned maxPages⟩ hrun
  · obtain ⟨c, hexec, lru, hsafe⟩ := htotal
    exact ⟨c, hexec, hsafe.sound⟩
  · obtain ⟨lru, hsafe⟩ := hc
    obtain ⟨⟨hword, hfresh, hspares⟩, horder⟩ := hok
    obtain ⟨c', lru', hact, hsafe'⟩ := hsafe.act hword (hfresh.harmless hspares) horder
    exact ⟨c', hact, lru', hsafe'⟩

/-- A test of the page that a section gets for its entry. -/
def sectionTest (t : State (List ℕ) → ℕ → Bool) (c : Config (List ℕ) n) : Action n → Bool
  | .insert _ _ _ _ | .add _ => t c.cache (popFree c.cache.toMachine).1
  | _ => true

/-- As `allocatorCalls_of_insertTest`. -/
theorem sectionCalls_of_test {ok : State (List ℕ) → ℕ → Machine (List ℕ) → Prop} {t : State (List ℕ) → ℕ → Bool}
    (hfree : ∀ s a, ok s 0 (pushFree a s.toMachine))
    (hpop : ∀ s, t s (popFree s.toMachine).1 = true → AddAllocates popFree ok s) {c : Config (List ℕ) n}
    {a : Action n} (h : sectionTest t c a = true) : SectionCalls popFree pushFree ok c a := by
  have hevict : ∀ s, EvictFrees pushFree ok s := fun s victim s₁ _ _ =>
    ⟨hfree s₁ _, hfree (s₁.setMachine (pushFree (s₁.get .physicalAddress victim) s₁.toMachine)) victim⟩
  cases a with
  | insert i fileId offset physAddr => exact fun _ _ _ _ _ => hpop c.cache h
  | evict i => exact fun _ => hevict c.cache
  | add i => exact fun _ => hpop c.cache h
  | lookup i fileId offset => trivial
  | remove i fileId offset => exact fun _ entry s₁ _ _ => hfree s₁ entry
  | evictLru i => exact fun _ => hevict c.cache

/-- The test of the allocator is sound. -/
theorem getsFresh_of_test {c : Config (List ℕ) n} {a : Action n} (h : sectionTest pageTest c a = true) :
    GetsFresh popFree pushFree c a :=
  sectionCalls_of_test promised_pushFree (fun _ hs => promised_of_pageTest (popFree_mem _) hs) h

/-- The test of the allocator is sound. -/
theorem sparesHalf_of_test {c : Config (List ℕ) n} {a : Action n} (h : sectionTest behindTest c a = true) :
    SparesHalf popFree pushFree c a :=
  sectionCalls_of_test sparesBehind_pushFree
    (fun s hs => ⟨of_decide_eq_true hs, fun x _ => congrFun (popFree_mem s.toMachine) x⟩) h

instance (a : Action n) : Decidable a.IsWord :=
  match a with
  | .insert _ fileId offset physAddr => inferInstanceAs (Decidable (IsWords fileId offset physAddr))
  | .evict _ => isTrue trivial
  | .add _ => isTrue trivial
  | .lookup _ _ _ => isTrue trivial
  | .remove _ _ _ => isTrue trivial
  | .evictLru _ => isTrue trivial

/-- The guards but `Orderly` as one test. -/
def scheduleTest (c : Config (List ℕ) n) (a : Action n) : Bool :=
  decide a.IsWord && (sectionTest pageTest c a && sectionTest behindTest c a)

/-- The test of a section is sound. -/
theorem guards_of_scheduleTest (c : Config (List ℕ) n) (a : Action n) (h : scheduleTest c a = true) :
    a.IsWord ∧ GetsFresh popFree pushFree c a ∧ SparesHalf popFree pushFree c a := by
  simp only [scheduleTest, Bool.and_eq_true, decide_eq_true_eq] at h
  exact ⟨h.1, getsFresh_of_test h.2.1, sparesHalf_of_test h.2.2⟩

/-- `Orderly` as a test. -/
def orderlyTest {A : Type} (c : Config A n) : Action n → Bool
  | .insert _ fileId offset _ => decide (∀ j, (c.cpu j).key ≠ some (fileId, offset)) &&
      decide (if c.cache.maxPages ≤ c.cache.totalPages then c.pending < c.cache.maxPages
        else c.cache.totalPages + c.adders < c.cache.maxPages)
  | _ => true

/-- The test of a section is sound. -/
theorem orderly_of_orderlyTest {A : Type} (c : Config A n) (a : Action n) (h : orderlyTest c a = true) :
    Orderly c a := by
  cases a with
  | insert _ fileId offset physAddr =>
      simp only [orderlyTest, Bool.and_eq_true, decide_eq_true_eq] at h
      exact fun _ _ _ => h
  | _ => trivial

/-- Two CPUs insert different keys into a full cache at the same time. -/
def orderlySchedule : List (Action 2) :=
  [.insert 0 1 0 0x10000, .insert 0 2 0 0x11000, .insert 0 3 0 0x12000, .insert 1 4 0 0x13000, .evict 0,
    .evict 1, .add 1, .add 0]

/-- Two CPUs whose insertions keep out of each other's way. -/
theorem one_entry_per_key_two_cpus :
    (popFree sparedPages.toMachine).1 % pageSize = 0 ∧
      ∃ c, exec (act popFree pushFree) (start popFree sparedPages 2) orderlySchedule = some c ∧ Sound c.cache := by
  refine ⟨by decide, one_entry_per_key sparedPages (by decide) 2 orderlySchedule ?_⟩
  refine guarded_of_guardedBy (t := fun c a => scheduleTest c a && orderlyTest c a)
    (fun c a h => ⟨guards_of_scheduleTest c a (Bool.and_eq_true_iff.mp h).1,
      orderly_of_orderlyTest c a (Bool.and_eq_true_iff.mp h).2⟩) ?_
  unfold start sparedPages
  rw [pageCacheInit_onPages (by decide)]
  decide +kernel

/-- Two CPUs insert the same key into a full cache of one page at the same time. -/
def racingSchedule : List (Action 2) :=
  [.insert 0 1 0 0x10000, .insert 0 2 0 0x11000, .insert 1 2 0 0x12000, .evict 0, .evict 1, .add 0, .add 1]

/-- The key has two entries afterwards, and the cache holds two pages where one is allowed; the page behind that of the
bucket array plays no role in it. -/
theorem two_entries :
    ¬ ∀ (maxPages : ℕ) (as : List (Action 2)), 1 ≤ maxPages →
      Guarded (act popFree pushFree)
        (fun c a => a.IsWord ∧ GetsFresh popFree pushFree c a ∧ SparesHalf popFree pushFree c a)
        (start popFree sparedPages maxPages) as →
      ∀ c, exec (act popFree pushFree) (start popFree sparedPages maxPages) as = some c → Sound c.cache := by
  intro hall
  unfold start sparedPages at hall
  simp only [pageCacheInit_onPages (show 0x1000 ≠ 0 by decide)] at hall
  have hfinal : (exec (act popFree pushFree)
      ⟨{ onPages [0x3000, 0x4000, 0x5000] with hashTable := 0x1000, maxPages := 1 }, fun _ => .idle⟩
      racingSchedule).map
      (fun c => (c.cache.lruHead, c.cache.lruNext 0x10000, c.cache.lruNext 0x3000, c.cache.key 0x10000,
        c.cache.key 0x3000)) = some (0x10000, 0x3000, 0, (2, 0), (2, 0)) := by decide +kernel
  obtain ⟨c, hexec, hvals⟩ := Option.map_eq_some_iff.mp hfinal
  simp only [Prod.mk.injEq] at hvals
  obtain ⟨hhead, hnext, hlast, hkey, hkey'⟩ := hvals
  have hlist : IsList c.cache.lruNext [0x10000, 0x3000] c.cache.lruHead :=
    ⟨hhead, by decide, hnext, by decide, hlast⟩
  obtain ⟨lru, hlru, hnodup, -⟩ := hall 1 racingSchedule le_rfl
    (guarded_of_guardedBy guards_of_scheduleTest (by decide +kernel)) c hexec
  rw [← hlist.unique hlru] at hnodup
  simp [hkey, hkey'] at hnodup

end PrometheusKernel.PageCache
