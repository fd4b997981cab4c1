import PrometheusKernel.PageCache.Refinement

/-!
# Which entry is evicted

`page_cache_evict_lru` takes the tail of the LRU list. A lookup that hits sets the time of its entry
but leaves the entry where it is on the list, so the list is in order of insertion and not in order
of access. `looked_up_entry_evicted` is a run that evicts the most recently used entry.

The list is in order of access as long as every lookup that hits finds the head of the list and the
64-bit clock has not wrapped (`InOrder`); then every eviction takes the entry whose last access is the
oldest (`evicts_oldest`).
-/

namespace PrometheusKernel.PageCache

open LinkedList Interleaving

variable {A : Type} {alloc : Machine A → ℕ × Machine A} {free : ℕ → Machine A → Machine A} {s s' : State A}
  {lru : List ℕ} {a : ℕ}

/-- An entry that an insertion or an eviction has thrown out was accessed before all others. -/
def EvictsOldest (c : Run A) (op : Op) (c' : Run A) : Prop :=
  match op with
  | .insert _ _ _ | .evict => ∀ lru, IsList c.cache.lruNext lru c.cache.lruHead →
      ∀ a ∈ lru, ¬ Cached c'.cache (c.cache.key a) →
        ∀ b ∈ lru, c.cache.get .lastAccess a ≤ c.cache.get .lastAccess b
  | _ => True

/-- A lookup misses or finds the head of the LRU list, and the clock does not wrap. -/
def InOrder (c : Run A) : Op → Prop
  | .lookup fileId offset => c.cache.counter + 1 < 2 ^ 64 ∧ (c.cache.hashTable ≠ 0 →
      findEntry c.cache fileId offset = some 0 ∨ findEntry c.cache fileId offset = some c.cache.lruHead)
  | .insert _ _ _ => c.cache.counter + 1 < 2 ^ 64
  | _ => True

/-! ### The list is in order of access -/

/-- The entries are in order of access, newest first, and no access is in the future. -/
structure Recent (s : State A) (lru : List ℕ) : Prop where
  sorted : lru.Pairwise fun a b => s.get .lastAccess b ≤ s.get .lastAccess a
  past : ∀ a ∈ lru, s.get .lastAccess a ≤ s.counter

/-- A call that keeps the entries keeps their times. -/
theorem Keeps.lastAccess (h : Keeps s s' lru) (ha : a ∈ lru) : s'.get .lastAccess a = s.get .lastAccess a :=
  congrArg (fun x => x.2.2) (h.body a ha)

/-- Entries are unlinked. -/
theorem Recent.keeps {lru' : List ℕ} (h : Recent s lru) (hkeeps : Keeps s s' lru') (hsub : lru'.Sublist lru) :
    Recent s' lru' := by
  constructor
  · refine (h.sorted.sublist hsub).imp_of_mem fun {b c} hb hc hbc => ?_
    rw [hkeeps.lastAccess hb, hkeeps.lastAccess hc]
    exact hbc
  · intro a ha
    rw [hkeeps.lastAccess ha, hkeeps.counter]
    exact h.past a (hsub.subset ha)

/-- A new entry, accessed now, is put in front. -/
theorem Recent.adds {k : ℕ × ℕ} {physAddr : ℕ} (h : Recent s lru) (hadds : Adds s s' a k physAddr lru)
    (hclock : s.counter + 1 < 2 ^ 64) : Recent s' (a :: lru) := by
  have hnew : s'.get .lastAccess a = s.counter :=
    (congrArg (fun x => x.2.2) hadds.new).trans (Nat.mod_eq_of_lt ((Nat.lt_succ_self _).trans hclock))
  have hold : ∀ b ∈ lru, s'.get .lastAccess b = s.get .lastAccess b := fun b hb =>
    congrArg (fun x => x.2.2) (hadds.others b hb)
  have hcounter : s'.counter = s.counter + 1 := by rw [hadds.counter, Word.add_eq hclock]
  constructor
  · refine List.pairwise_cons.mpr ⟨fun b hb => ?_, h.sorted.imp_of_mem fun {b c} hb hc hbc => ?_⟩
    · rw [hnew, hold b hb]
      exact h.past b hb
    · rw [hold b hb, hold c hc]
      exact hbc
  · intro b hb
    rw [hcounter]
    rcases List.mem_cons.mp hb with rfl | hb'
    · rw [hnew]
      exact Nat.le_succ _
    · rw [hold b hb']
      exact (h.past b hb').trans (Nat.le_succ _)

/-- The head of the list is accessed. -/
theorem Recent.touches (h : Recent s (a :: lru)) (hnodup : (a :: lru).Nodup) (htouch : Touches s s' a (a :: lru))
    (hclock : s.counter + 1 < 2 ^ 64) : Recent s' (a :: lru) := by
  have ha : a ∉ lru := (List.nodup_cons.mp hnodup).1
  have hadds : Adds s s' a (s.key a) (s.get .physicalAddress a) lru :=
    ⟨htouch.now, fun b hb => htouch.others b (List.mem_cons_of_mem a hb) fun e => ha (e ▸ hb), htouch.hashTable,
      htouch.maxPages, htouch.counter⟩
  have hrest : Recent s lru :=
    ⟨(List.pairwise_cons.mp h.sorted).2, fun b hb => h.past b (List.mem_cons_of_mem a hb)⟩
  exact hrest.adds hadds hclock

/-! ### One call -/

/-- In a list in order of access, what is not among the entries before the last is the oldest. -/
theorem Recent.oldest (h : Recent s lru) (ha : a ∈ lru) (hlast : a ∉ lru.dropLast) :
    ∀ b ∈ lru, s.get .lastAccess a ≤ s.get .lastAccess b := by
  rcases List.eq_nil_or_concat lru with rfl | ⟨l, c, rfl⟩
  · exact absurd ha List.not_mem_nil
  rw [List.concat_eq_append] at *
  rw [List.dropLast_concat] at hlast
  obtain rfl : a = c := by simpa [hlast] using ha
  intro b hb
  rcases List.mem_append.mp hb with hb' | hb'
  · exact (List.pairwise_append.mp h.sorted).2.2 b hb' a (by simp)
  · rw [List.mem_singleton.mp hb']

/-- An entry that is left is still cached. -/
theorem Rep.cached_of_mem {lru' : List ℕ} (h : Rep s' lru') (ha : a ∈ lru') (hkey : s'.key a = s.key a) :
    Cached s' (s.key a) := by
  rw [h.cached_iff, ← hkey]
  exact List.mem_map_of_mem ha

/-- The entries that are left after room was made are cached, so one that is not is the oldest. -/
theorem Recent.evictsOldest {lru' : List ℕ} (h : Recent s lru) (hrep : Rep s lru) (hrep' : Rep s' lru')
    (hleft : ∀ a ∈ lru.dropLast, a ∈ lru' ∧ s'.key a = s.key a) :
    ∀ l, IsList s.lruNext l s.lruHead → ∀ a ∈ l, ¬ Cached s' (s.key a) →
      ∀ b ∈ l, s.get .lastAccess a ≤ s.get .lastAccess b := by
  intro l hl a ha hgone
  obtain rfl := hrep.list.isList.unique hl
  refine h.oldest ha fun hmem => hgone ?_
  obtain ⟨ha', hkey⟩ := hleft a hmem
  exact hrep'.cached_of_mem ha' hkey

/-- An insertion, in any of the ways in which it ends. -/
theorem Recent.inserted {k : ℕ × ℕ} {physAddr : ℕ} {i : ℤ} {lru' : List ℕ} (h : Recent s lru)
    (hins : Inserted s lru k physAddr i s' lru') (hclock : s.counter + 1 < 2 ^ 64) :
    Recent s' lru' ∧ ∀ a ∈ lru.dropLast, a ∈ lru' ∧ s'.key a = s.key a := by
  cases hins with
  | refused _ => exact ⟨h, fun a ha => ⟨List.mem_of_mem_dropLast ha, rfl⟩⟩
  | found _ _ => exact ⟨h, fun a ha => ⟨List.mem_of_mem_dropLast ha, rfl⟩⟩
  | failed _ _ hkeeps =>
      exact ⟨h.keeps hkeeps (room_sublist _ _),
        fun a ha => ⟨mem_room ha, key_eq_of_body (hkeeps.body a (mem_room ha))⟩⟩
  | added _ _ hkeeps hnew hadds =>
      refine ⟨(h.keeps hkeeps (room_sublist _ _)).adds hadds (by rwa [hkeeps.counter]), fun a ha => ?_⟩
      have hmem : a ∈ room s.maxPages lru := mem_room ha
      refine ⟨List.mem_cons_of_mem _ hmem, ?_⟩
      rw [key_eq_of_body (hadds.others a hmem), key_eq_of_body (hkeeps.body a hmem)]

/-- A lookup that misses or finds the head of the list. -/
theorem Recent.lookup (h : Recent s lru) (hrep : Rep s lru) {fileId offset : ℕ}
    (hclock : s.counter + 1 < 2 ^ 64)
    (hhead : s.hashTable ≠ 0 → findEntry s fileId offset = some 0 ∨ findEntry s fileId offset = some s.lruHead) :
    ∃ v s', pageCacheLookup s fileId offset = some (v, s') ∧ Rep s' lru ∧ Recent s' lru := by
  cases hfind : lru.find? fun a => decide (s.key a = (fileId, offset)) with
  | none =>
      obtain ⟨s', hcall, hrep', hkeeps, -⟩ := hrep.lookup_miss hfind
      exact ⟨0, s', hcall, hrep', h.keeps hkeeps (List.Sublist.refl lru)⟩
  | some e =>
      have hmem := List.mem_of_find?_eq_some hfind
      have htable : s.hashTable ≠ 0 := fun h0 => by simp [hrep.missing h0] at hmem
      have hfound : findEntry s fileId offset = some e := hrep.findEntry_hit htable hfind
      obtain rfl : e = s.lruHead := by
        rcases hhead htable with h0 | h0
        · exact absurd (Option.some.inj (hfound.symm.trans h0)) (hrep.ne_zero hmem)
        · exact Option.some.inj (hfound.symm.trans h0)
      obtain ⟨s', hcall, hrep', htouch, -⟩ := hrep.lookup_hit hfind
      refine ⟨_, s', hcall, hrep', ?_⟩
      cases lru with
      | nil => exact absurd hmem List.not_mem_nil
      | cons b l =>
          obtain rfl : s.lruHead = b := hrep.list.1
          exact h.touches hrep.nodup htouch hclock

/-- One call in order: it returns, keeps the order, and evicts the oldest entry if it evicts one. -/
theorem Recent.step {c : Run A} (hrep : Rep c.cache lru) (h : Recent c.cache lru) {op : Op}
    (hword : op.IsWord) (hok : AllocatorCalls alloc free Harmless c op) (horder : InOrder c op) :
    ∃ c' lru', PageCache.step alloc free c op = some c' ∧ Rep c'.cache lru' ∧ Recent c'.cache lru' ∧
      EvictsOldest c op c' := by
  cases op with
  | insert fileId offset physAddr =>
      obtain ⟨i, s', lru', hcall, hrep', hins⟩ := hrep.insert_cases hword hok
      obtain ⟨hrecent, hleft⟩ := h.inserted hins horder
      refine ⟨⟨s', .code i :: c.returned⟩, lru', ?_, hrep', hrecent, ?_⟩
      · simp [PageCache.step, hcall]
      · exact h.evictsOldest hrep hrep' hleft
  | lookup fileId offset =>
      obtain ⟨v, s', hcall, hrep', hrecent⟩ := h.lookup hrep horder.1 horder.2
      refine ⟨⟨s', .page v :: c.returned⟩, lru, ?_, hrep', hrecent, trivial⟩
      simp [PageCache.step, hcall]
  | remove fileId offset =>
      obtain ⟨s', lru', hcall, hrep', hkeeps, hsub, -⟩ := hrep.remove hok
      refine ⟨⟨s', .void :: c.returned⟩, lru', ?_, hrep', h.keeps hkeeps hsub, trivial⟩
      simp [PageCache.step, hcall]
  | evict =>
      obtain ⟨s', hcall, hrep', hkeeps⟩ := hrep.evict hok
      refine ⟨⟨s', .void :: c.returned⟩, lru.dropLast, ?_, hrep',
        h.keeps hkeeps (List.dropLast_sublist lru), ?_⟩
      · simp [PageCache.step, hcall]
      · exact h.evictsOldest hrep hrep' fun a ha => ⟨ha, key_eq_of_body (hkeeps.body a ha)⟩

/-! ### Runs -/

/-- In a run in which every lookup that hits finds the head of the LRU list, the clock does not wrap, and the page
behind that of the bucket array is spared, every eviction takes the entry with the oldest last access. -/
theorem evicts_oldest (s₀ : State A) (haligned : (alloc s₀.toMachine).1 % pageSize = 0) (maxPages : ℕ) (ops : List Op)
    (op : Op) (hrun : Guarded (step alloc free)
      (fun c op => (op.IsWord ∧ Fresh alloc free c op ∧ Spares alloc free c op) ∧ InOrder c op)
      (boot alloc s₀ maxPages) (ops ++ [op])) :
    ∃ c c', exec (step alloc free) (boot alloc s₀ maxPages) ops = some c ∧
      step alloc free c op = some c' ∧ EvictsOldest c op c' := by
  obtain ⟨hops, hlast⟩ := guarded_concat.mp hrun
  have hboot : ∃ lru, Rep (boot alloc s₀ maxPages).cache lru ∧ Recent (boot alloc s₀ maxPages).cache lru :=
    ⟨[], rep_init s₀ maxPages haligned, List.Pairwise.nil, fun a ha => absurd ha List.not_mem_nil⟩
  have htotal := exec_total (I := fun c : Run A => ∃ lru, Rep c.cache lru ∧ Recent c.cache lru)
    (fun c op hc hok => ?_) hboot hops
  · obtain ⟨c, hexec, lru, hrep, hrecent⟩ := htotal
    obtain ⟨⟨hword, hfresh, hspares⟩, horder⟩ := hlast c hexec
    obtain ⟨c', -, hstep, -, -, hold⟩ := hrecent.step hrep hword (hfresh.harmless hspares) horder
    exact ⟨c, c', hexec, hstep, hold⟩
  · obtain ⟨lru, hrep, hrecent⟩ := hc
    obtain ⟨⟨hword, hfresh, hspares⟩, horder⟩ := hok
    obtain ⟨c', lru', hstep, hrep', hrecent', -⟩ := hrecent.step hrep hword (hfresh.harmless hspares) horder
    exact ⟨c', hstep, lru', hrep', hrecent'⟩

/-- `InOrder` as a test. -/
def inOrderTest (c : Run A) : Op → Bool
  | .lookup fileId offset => decide (c.cache.counter + 1 < 2 ^ 64) &&
      (decide (findEntry c.cache fileId offset = some 0) ||
        decide (findEntry c.cache fileId offset = some c.cache.lruHead))
  | .insert _ _ _ => decide (c.cache.counter + 1 < 2 ^ 64)
  | _ => true

/-- The test of a call is sound. -/
theorem inOrder_of_inOrderTest (c : Run A) (op : Op) (h : inOrderTest c op = true) : InOrder c op := by
  cases op with
  | insert _ _ _ =>
      simp only [inOrderTest, decide_eq_true_eq] at h
      exact h
  | lookup fileId offset =>
      simp only [inOrderTest, Bool.and_eq_true, Bool.or_eq_true, decide_eq_true_eq] at h
      exact ⟨h.1, fun _ => h.2⟩
  | remove _ _ => trivial
  | evict => trivial

/-- Two insertions, a lookup of the newer entry and a lookup that misses, then an insertion that evicts. -/
def orderedRun : List Op :=
  [.insert 1 0 0x10000, .insert 2 0 0x11000, .lookup 2 0, .lookup 7 0]

/-- The entry with the oldest access is evicted. -/
theorem evicts_oldest_ordered :
    (popFree sparedPages.toMachine).1 % pageSize = 0 ∧
      ∃ c c', exec (step popFree pushFree) (boot popFree sparedPages 2) orderedRun = some c ∧
        step popFree pushFree c (.insert 3 0 0x12000) = some c' ∧ EvictsOldest c (.insert 3 0 0x12000) c' := by
  refine ⟨by decide, evicts_oldest sparedPages (by decide) 2 orderedRun (.insert 3 0 0x12000) ?_⟩
  refine guarded_of_guardedBy (t := fun c op => runTest c op && inOrderTest c op)
    (fun c op h => ⟨guards_of_runTest c op (Bool.and_eq_true_iff.mp h).1,
      inOrder_of_inOrderTest c op (Bool.and_eq_true_iff.mp h).2⟩) ?_
  unfold boot sparedPages
  rw [pageCacheInit_onPages (by decide)]
  decide +kernel

/-- A cache of two pages: the first entry is looked up after the second one was inserted. -/
def lookedUpRun : List Op := [.insert 1 0 0x10000, .insert 2 0 0x11000, .lookup 1 0]

/-- The entry that was looked up last is the one that is evicted, also when the page behind that of the bucket array is
spared. -/
theorem looked_up_entry_evicted :
    ¬ ∀ (maxPages : ℕ) (ops : List Op) (op : Op),
      Guarded (step popFree pushFree)
        (fun c op => op.IsWord ∧ Fresh popFree pushFree c op ∧ Spares popFree pushFree c op)
        (boot popFree sparedPages maxPages) (ops ++ [op]) →
      ∃ c c', exec (step popFree pushFree) (boot popFree sparedPages maxPages) ops = some c ∧
        step popFree pushFree c op = some c' ∧ EvictsOldest c op c' := by
  intro hall
  unfold boot sparedPages at hall
  simp only [pageCacheInit_onPages (show 0x1000 ≠ 0 by decide)] at hall
  obtain ⟨c, c', hexec, hstep, hold⟩ := hall 2 lookedUpRun .evict
    (guarded_of_guardedBy guards_of_runTest (by decide +kernel))
  -- the two entries before the eviction, newest first, and the one after it
  have hbefore : (exec (step popFree pushFree)
      ⟨{ onPages [0x3000, 0x4000, 0x5000] with hashTable := 0x1000, maxPages := 2 }, []⟩ lookedUpRun).map
      (fun c => (c.cache.lruHead, c.cache.lruNext 0x4000, c.cache.lruNext 0x3000, c.cache.key 0x3000,
        c.cache.get .lastAccess 0x3000, c.cache.get .lastAccess 0x4000)) =
      some (0x4000, 0x3000, 0, (1, 0), 2, 1) := by decide +kernel
  have hafter : (exec (step popFree pushFree)
      ⟨{ onPages [0x3000, 0x4000, 0x5000] with hashTable := 0x1000, maxPages := 2 }, []⟩
      (lookedUpRun ++ [.evict])).map (fun c => (c.cache.lruHead, c.cache.lruNext 0x4000, c.cache.key 0x4000)) =
      some (0x4000, 0, (2, 0)) := by decide +kernel
  rw [hexec, Option.map_some, Option.some.injEq] at hbefore
  rw [exec_concat hexec, hstep, Option.map_some, Option.some.injEq] at hafter
  simp only [Prod.mk.injEq] at hbefore hafter
  obtain ⟨hhead, hnext, hlast, hkey, htime, htime'⟩ := hbefore
  obtain ⟨hhead', hnext', hkey'⟩ := hafter
  have hlist : IsList c.cache.lruNext [0x4000, 0x3000] c.cache.lruHead :=
    ⟨hhead, by decide, hnext, by decide, hlast⟩
  have hlist' : IsList c'.cache.lruNext [0x4000] c'.cache.lruHead := ⟨hhead', by decide, hnext'⟩
  have hgone : ¬ Cached c'.cache (c.cache.key 0x3000) := by
    rintro ⟨l, hl, hk⟩
    rw [← hlist'.unique hl, hkey] at hk
    simp [hkey'] at hk
  have hle := hold _ hlist 0x3000 (by simp) hgone 0x4000 (by simp)
  rw [htime, htime'] at hle
  exact absurd hle (by decide)

end PrometheusKernel.PageCache
