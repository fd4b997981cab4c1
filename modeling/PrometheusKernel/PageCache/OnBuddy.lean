import PrometheusKernel.PageCache.Refinement
import PrometheusKernel.Buddy.Held

/-!
# The page cache on the buddy allocator

Pages come from `buddy.c` here, for the bucket array, the entries and what they cache, and other clients of the
allocator take, write and give back blocks of the same memory between the calls of the cache. A page is handed over to
the cache when it is inserted under a new key, and comes back when its key is removed.

`Inv` says who holds what: the live blocks of the allocator are those of the other clients, the page of the
bucket array, and two pages for each entry. So an eviction gives two pages back, and the allocation after
it cannot fail: an insertion that fails has changed nothing (`failed_insert_unchanged`).

This needs a region that ends below `2 ^ 64`; otherwise `buddy_free_pages` turns every page away and the victim of a
full cache is lost. It also needs that the page behind that of the bucket array, where the second half of the array
lies, is behind the region or stays with a client that leaves it alone (`Spared`, `LeavesBehind`). `victim_lost` has a
run for each of the two.
-/

namespace PrometheusKernel.PageCache.OnBuddy

open ByteMem LinkedList Interleaving

/-! ### Single pages -/

/-- `buddy_alloc_pages(0, BUDDY_ZONE_UNMOVABLE)`. -/
def allocPage (b : Buddy.State) : ℕ × Buddy.State := Buddy.buddyAllocPages b 0 0

/-- `buddy_free_pages(a, 0)`; it returns whenever the page is live. -/
def freePage (a : ℕ) (b : Buddy.State) : Buddy.State := (Buddy.buddyFreePages b a 0).getD b

section pages

variable {r : Buddy.Region} {b : Buddy.State} {live : List (ℕ × ℕ)} {a x : ℕ}

/-- A page of a page-aligned region. -/
theorem page_aligned (hacc : Buddy.Accepts r) (h : Buddy.Holds r b live) {l : ℕ × ℕ} (hl : l ∈ live) :
    l.1 ≠ 0 ∧ l.1 % pageSize = 0 ∧ l.1 < 2 ^ 64 := by
  obtain ⟨h0, i, hi, haddr⟩ := h.block hl
  refine ⟨h0, ?_, haddr ▸ r.addr_lt hi⟩
  rw [haddr, Buddy.Region.addr, Nat.add_mul_mod_self_right]
  exact hacc.1

/-- A page that is given back is not held, and then there is one to take. -/
theorem freePage_spec (h : Buddy.Holds r b ((a, 0) :: live)) (hacc : Buddy.Accepts r) :
    Buddy.Holds r (freePage a b) live ∧ (∀ x, Buddy.Taken r live x → (freePage a b).mem x = b.mem x) ∧
      (allocPage (freePage a b)).1 ≠ 0 := by
  obtain ⟨b', hcall, hlive, hmem, hne⟩ := h.free hacc
  unfold freePage
  rw [hcall]
  exact ⟨hlive, hmem, hne⟩

/-- A block of order 0 is a page. -/
theorem inBlock_iff_inPage : Buddy.InBlock (a, 0) x ↔ InPage a x := by
  unfold Buddy.InBlock InPage
  rw [pow_zero, one_mul]

end pages

/-! ### Runs -/

/-- A call. -/
inductive Op
  /-- What the other clients of the allocator do. -/
  | client (op : Buddy.Op)
  | insert (fileId offset physAddr : ℕ)
  | lookup (fileId offset : ℕ)
  | remove (fileId offset : ℕ)
  | evict

/-- The cache with its allocator, and who else holds blocks. -/
structure Config where
  cache : State Buddy.BuddyGlobals
  /-- The blocks that the other clients hold. -/
  outside : List (ℕ × ℕ)

/-- One call; `none` is a call that does not return. -/
def step (c : Config) : Op → Option Config
  | .client op =>
      (Buddy.step ⟨c.cache.toMachine, c.outside⟩ op).map fun b => ⟨c.cache.setMachine b.state, b.live⟩
  | .insert fileId offset physAddr =>
      (pageCacheInsert allocPage freePage c.cache fileId offset physAddr).map fun res : ℤ × State Buddy.BuddyGlobals =>
        ⟨res.2, if res.1 = 0 ∧ findEntry c.cache fileId offset = some 0 then c.outside.erase (physAddr, 0)
          else c.outside⟩
  | .lookup fileId offset => (pageCacheLookup c.cache fileId offset).map fun res => ⟨res.2, c.outside⟩
  | .remove fileId offset =>
      (pageCacheRemove freePage c.cache fileId offset).map fun s =>
        ⟨s, if c.cache.hashTable = 0 then c.outside
          else match findEntry c.cache fileId offset with
            | some (e + 1) => (c.cache.get .physicalAddress (e + 1), 0) :: c.outside
            | _ => c.outside⟩
  | .evict => (pageCacheEvictLru freePage c.cache).map fun s => ⟨s, c.outside⟩

/-- Clients use blocks that they hold; what is inserted is a page that they hold, under a key of two 64-bit words. -/
def Handed (c : Config) : Op → Prop
  | .client op => Buddy.Run.Valid ⟨c.cache.toMachine, c.outside⟩ op
  | .insert fileId offset physAddr =>
      fileId < 2 ^ 64 ∧ offset < 2 ^ 64 ∧ (physAddr = 0 ∨ (physAddr, 0) ∈ c.outside)
  | _ => True

/-- The byte is in the page behind that of the bucket array. -/
def Behind (s : State Buddy.BuddyGlobals) (x : ℕ) : Prop := s.hashTable ≠ 0 ∧ InPage (s.hashTable + pageSize) x

/-- That page is behind the region or in the blocks of other clients. -/
def Spared (r : Buddy.Region) (c : Config) : Prop := ∀ x, Behind c.cache x → Buddy.Taken r c.outside x

/-- The clients neither write to that page, nor give it back, nor hand it over to the cache. -/
def LeavesBehind (c : Config) : Op → Prop
  | .client op => ∀ x, Behind c.cache x → op.Avoids x
  | .insert _ _ physAddr => ∀ x, Behind c.cache x → ¬ Buddy.InBlock (physAddr, 0) x
  | _ => True

/-- The cache after `page_cache_init`, on an allocator in use; `s` is what the globals of the cache were before. -/
def start (c : Buddy.Run) (s : State Buddy.BuddyGlobals) (maxPages : ℕ) : Config :=
  ⟨pageCacheInit allocPage (s.setMachine c.state) maxPages, c.live⟩

/-! ### Who holds what -/

/-- The page of the bucket array. -/
def table (s : State Buddy.BuddyGlobals) : List (ℕ × ℕ) := if s.hashTable = 0 then [] else [(s.hashTable, 0)]

/-- The pages of the entries: the entry and what it caches. -/
def entryPages (s : State Buddy.BuddyGlobals) (lru : List ℕ) : List (ℕ × ℕ) :=
  lru.flatMap fun a => [(a, 0), (s.get .physicalAddress a, 0)]

/-- The blocks of the cache. -/
def own (s : State Buddy.BuddyGlobals) (lru : List ℕ) : List (ℕ × ℕ) := table s ++ entryPages s lru

/-- The entries are `lru`, and the live blocks are those of the clients and of the cache. -/
structure Inv (r : Buddy.Region) (c : Config) (lru : List ℕ) : Prop where
  rep : Rep c.cache lru
  holds : Buddy.Holds r c.cache.toMachine (c.outside ++ own c.cache lru)
  spared : Spared r c

section inv

variable {r : Buddy.Region} {c : Config} {lru : List ℕ} {s s' : State Buddy.BuddyGlobals} {out live : List (ℕ × ℕ)}

/-- The blocks of the cache are its table, its entries and their pages. -/
theorem own_congr (htable : s'.hashTable = s.hashTable)
    (hphys : ∀ a ∈ lru, s'.get .physicalAddress a = s.get .physicalAddress a) : own s' lru = own s lru := by
  have hentries : entryPages s' lru = entryPages s lru := by
    unfold entryPages
    refine List.flatMap_congr fun a ha => ?_
    rw [hphys a ha]
  unfold own table
  rw [htable, hentries]

/-- A call that keeps the entries keeps the blocks. -/
theorem own_of_keeps (h : Keeps s s' lru) : own s' lru = own s lru :=
  own_congr h.hashTable fun a ha => physicalAddress_of_body (h.body a ha)

/-- The table is a block of the cache. -/
theorem table_mem (h0 : s.hashTable ≠ 0) : (s.hashTable, 0) ∈ own s lru := by
  unfold own table
  rw [if_neg h0]
  exact List.mem_append_left _ List.mem_cons_self

/-- An entry is a block of the cache. -/
theorem entry_mem {a : ℕ} (ha : a ∈ lru) : (a, 0) ∈ own s lru :=
  List.mem_append_right _ (List.mem_flatMap.mpr ⟨a, ha, List.mem_cons_self⟩)

/-- The two pages of an entry in front. -/
theorem perm_own (out : List (ℕ × ℕ)) (s : State Buddy.BuddyGlobals) (l₁ l₂ : List ℕ) (a : ℕ) :
    (out ++ own s (l₁ ++ a :: l₂)).Perm
      ((s.get .physicalAddress a, 0) :: (a, 0) :: (out ++ own s (l₁ ++ l₂))) := by
  have hcount : ∀ x, List.count x (out ++ own s (l₁ ++ a :: l₂))
      = List.count x ((s.get .physicalAddress a, 0) :: (a, 0) :: (out ++ own s (l₁ ++ l₂))) := by
    intro x
    unfold own entryPages
    simp only [List.flatMap_append, List.flatMap_cons, List.count_append, List.count_cons, List.count_nil]
    omega
  exact List.perm_iff_count.mpr hcount

/-- Where the cache writes, the allocator has nothing. -/
theorem taken_of_footprint {t : ℕ} (htable : (t, 0) ∈ live)
    (hbehind : ∀ x, InPage (t + pageSize) x → Buddy.Taken r live x)
    (hentry : ∀ a ∈ lru, (a, 0) ∈ live) : ∀ x, Footprint t lru x → Buddy.Taken r live x := by
  rintro x (hx | hx | ⟨a, ha, hx⟩)
  · exact Or.inr ⟨_, htable, inBlock_iff_inPage.mpr hx⟩
  · exact hbehind x hx
  · exact Or.inr ⟨_, hentry a ha, inBlock_iff_inPage.mpr hx⟩

/-- As `taken_of_footprint`, when the page behind that of the bucket array is spared. -/
theorem taken_of_spared (htable : s.hashTable ≠ 0) (hspared : ∀ x, Behind s x → Buddy.Taken r out x) :
    ∀ x, Footprint s.hashTable lru x → Buddy.Taken r (out ++ own s lru) x :=
  taken_of_footprint (List.mem_append_right _ (table_mem htable))
    (fun x hx => (hspared x ⟨htable, hx⟩).mono (List.subset_append_left _ _))
    fun _ ha => List.mem_append_right _ (entry_mem ha)

/-- The bytes of the cache are in blocks that are held. -/
theorem Inv.footprint (h : Inv r c lru) (htable : c.cache.hashTable ≠ 0) :
    ∀ x, Footprint c.cache.hashTable lru x → Buddy.Taken r (c.outside ++ own c.cache lru) x :=
  taken_of_spared htable h.spared

/-- The page behind the bucket array only depends on where the array is. -/
theorem behind_congr (h : s'.hashTable = s.hashTable) (x : ℕ) : Behind s' x ↔ Behind s x := by
  unfold Behind
  rw [h]

/-- What the cache writes goes unnoticed. -/
theorem holds_of_writes (h : Buddy.Holds r s.toMachine live) (hw : Writes s s' lru)
    (hfoot : ∀ x, Footprint s.hashTable lru x → Buddy.Taken r live x) : Buddy.Holds r s'.toMachine live := by
  have hsame : s'.toMachine = ⟨s'.mem, s.pages⟩ := by rw [← hw.pages]
  rw [hsame]
  exact h.write fun x hx => hw.mem x fun hfx => hx (hfoot x hfx)

/-! ### The calls -/

/-- A call of another client keeps the invariant. -/
theorem Inv.client (h : Inv r c lru) {op : Buddy.Op} (hv : Buddy.Run.Valid ⟨c.cache.toMachine, c.outside⟩ op)
    (hleaves : LeavesBehind c (.client op)) : ∃ c', step c (.client op) = some c' ∧ Inv r c' lru := by
  obtain ⟨b, hstep, hholds, hmem⟩ := h.holds.step hv
  have hspared : Spared r ⟨c.cache.setMachine b.state, b.live⟩ := fun x hx =>
    Buddy.Taken.step (c := ⟨c.cache.toMachine, c.outside⟩) (h.spared x hx) hstep (hleaves x hx)
  have hcall : step c (.client op) = some ⟨c.cache.setMachine b.state, b.live⟩ := by
    rw [step, hstep, Option.map_some]
  by_cases htable : c.cache.hashTable = 0
  · obtain rfl := h.rep.missing htable
    have hown : own (c.cache.setMachine b.state) [] = own c.cache [] :=
      own_congr rfl fun a ha => absurd ha List.not_mem_nil
    refine ⟨_, hcall, h.rep.setMachine_missing htable b.state, ?_, hspared⟩
    rw [hown]
    exact hholds
  · -- the operation avoids the bytes of the cache
    have hown : ∀ l ∈ own c.cache lru, ∀ x, Buddy.InBlock l x → op.Avoids x := fun l hl x hx => h.holds.avoids hv hl hx
    have havoids : ∀ x, Footprint c.cache.hashTable lru x → op.Avoids x := by
      rintro x (hx | hx | ⟨a, ha, hx⟩)
      · exact hown _ (table_mem htable) x (inBlock_iff_inPage.mpr hx)
      · exact hleaves x ⟨htable, hx⟩
      · exact hown _ (entry_mem ha) x (inBlock_iff_inPage.mpr hx)
    have hsame : ∀ x, Footprint c.cache.hashTable lru x → b.state.mem x = c.cache.mem x := fun x hx =>
      hmem x (h.footprint htable x hx) (havoids x hx)
    refine ⟨_, hcall, h.rep.setMachine hsame, ?_, hspared⟩
    rw [own_of_keeps (keeps_setMachine hsame)]
    exact hholds

/-- The cache writes to its own, and the entries keep their pages. -/
theorem Inv.writes (h : Inv r c lru) (htable : c.cache.hashTable ≠ 0) (hrep : Rep s' lru) (hw : Writes c.cache s' lru)
    (htable' : s'.hashTable = c.cache.hashTable)
    (hphys : ∀ a ∈ lru, s'.get .physicalAddress a = c.cache.get .physicalAddress a) : Inv r ⟨s', c.outside⟩ lru := by
  refine ⟨hrep, ?_, fun x hx => h.spared x ((behind_congr htable' x).mp hx)⟩
  rw [own_congr htable' hphys]
  exact holds_of_writes h.holds hw (h.footprint htable)

/-- A lookup keeps the invariant. -/
theorem Inv.lookup (h : Inv r c lru) (fileId offset : ℕ) :
    ∃ c', step c (.lookup fileId offset) = some c' ∧ Inv r c' lru := by
  by_cases htable : c.cache.hashTable = 0
  · refine ⟨c, ?_, h⟩
    rw [step, pageCacheLookup, if_pos htable, Option.map_some]
  cases hfind : lru.find? fun a => decide (c.cache.key a = (fileId, offset)) with
  | none =>
      obtain ⟨s', hcall, hrep, hkeeps, hw⟩ := h.rep.lookup_miss hfind
      refine ⟨⟨s', c.outside⟩, ?_, h.writes htable hrep hw hkeeps.hashTable fun a ha =>
        physicalAddress_of_body (hkeeps.body a ha)⟩
      rw [step, hcall, Option.map_some]
  | some e =>
      obtain ⟨s', hcall, hrep, htouch, hw⟩ := h.rep.lookup_hit hfind
      refine ⟨⟨s', c.outside⟩, ?_, h.writes htable hrep hw htouch.hashTable fun a ha => htouch.physicalAddress ha⟩
      rw [step, hcall, Option.map_some]

/-- Blocks of other clients are left out of the cache, and the entries that stay keep their bytes. -/
theorem Inv.released {m : Buddy.State} (h : Spared r c) (htable : s.hashTable = c.cache.hashTable)
    (h0 : c.cache.hashTable ≠ 0) (hrep : Rep s lru) (hout : c.outside ⊆ out)
    (hholds : Buddy.Holds r m (out ++ own s lru))
    (hmem : ∀ x, Buddy.Taken r (out ++ own s lru) x → m.mem x = s.mem x) :
    Inv r ⟨s.setMachine m, out⟩ lru ∧ Keeps s (s.setMachine m) lru := by
  have hspared : ∀ x, Behind s x → Buddy.Taken r out x := fun x hx => (h x ((behind_congr htable x).mp hx)).mono hout
  have hsame : ∀ x, Footprint s.hashTable lru x → m.mem x = s.mem x := fun x hx =>
    hmem x (taken_of_spared (htable ▸ h0) hspared x hx)
  have hkeeps := keeps_setMachine hsame
  refine ⟨⟨hrep.setMachine hsame, ?_, hspared⟩, hkeeps⟩
  rw [own_of_keeps hkeeps]
  exact hholds

/-- An eviction gives back both pages of the last entry. -/
theorem Inv.evict (h : Inv r c lru) (hacc : Buddy.Accepts r) :
    ∃ s', pageCacheEvictLru freePage c.cache = some s' ∧ Inv r ⟨s', c.outside⟩ lru.dropLast ∧
      s'.hashTable = c.cache.hashTable ∧ (s' = c.cache ∨ (allocPage s'.toMachine).1 ≠ 0) := by
  rcases List.eq_nil_or_concat lru with rfl | ⟨l, a, rfl⟩
  · exact ⟨c.cache, h.rep.evict_nil freePage, h, rfl, Or.inl rfl⟩
  rw [List.concat_eq_append] at h ⊢
  have ha0 : a ≠ 0 := h.rep.ne_zero (by simp)
  have htable : c.cache.hashTable ≠ 0 := fun h0 => by simpa using h.rep.missing h0
  obtain ⟨s₁, hun, hrep₁, hkeeps₁, hwrites⟩ := h.rep.unlinkVictim_concat
  have hholds₁ := holds_of_writes h.holds hwrites (h.footprint htable)
  have hperm := perm_own c.outside c.cache l [] a
  have hphys : s₁.get .physicalAddress a = c.cache.get .physicalAddress a :=
    physicalAddress_of_body (hkeeps₁.body a (by simp))
  have hrest : own s₁ l = own c.cache l := own_of_keeps (hkeeps₁.sublist (List.subset_append_left l [a]))
  rw [List.append_nil, ← hphys, ← hrest] at hperm
  obtain ⟨hholds₂, hmem₂, -⟩ := freePage_spec (hholds₁.perm hperm) hacc
  obtain ⟨hholds₃, hmem₃, hne⟩ := freePage_spec hholds₂ hacc
  have hbytes : ∀ x, Buddy.Taken r (c.outside ++ own s₁ l) x →
      (freePage a (freePage (s₁.get .physicalAddress a) s₁.toMachine)).mem x = s₁.mem x := fun x hx =>
    (hmem₃ x hx).trans (hmem₂ x (hx.mono (List.subset_cons_self _ _)))
  obtain ⟨hinv, -⟩ := Inv.released h.spared hkeeps₁.hashTable htable hrep₁ (List.Subset.refl _) hholds₃ hbytes
  rw [List.dropLast_concat]
  exact ⟨_, evict_eq hun ha0, hinv, hkeeps₁.hashTable, Or.inr hne⟩

/-- A removal gives back the page of the entry; the cached page goes to the clients. -/
theorem Inv.remove (h : Inv r c lru) (hacc : Buddy.Accepts r) (fileId offset : ℕ) :
    ∃ c' lru', step c (.remove fileId offset) = some c' ∧ Inv r c' lru' := by
  by_cases htable : c.cache.hashTable = 0
  · obtain rfl := h.rep.missing htable
    refine ⟨c, [], ?_, h⟩
    rw [step, h.rep.remove_miss freePage fun a ha => absurd ha List.not_mem_nil, Option.map_some, if_pos htable]
  cases hfind : lru.find? fun a => decide (c.cache.key a = (fileId, offset)) with
  | none =>
      refine ⟨c, lru, ?_, h⟩
      rw [step, h.rep.remove_miss freePage (key_ne_of_find hfind), Option.map_some, if_neg htable,
        h.rep.findEntry_miss htable hfind]
  | some e =>
      have he0 : e ≠ 0 := h.rep.ne_zero (List.mem_of_find?_eq_some hfind)
      obtain ⟨hkey, l₁, l₂, rfl, hl₁⟩ := List.find?_eq_some_iff_append.mp hfind
      have hkey' : c.cache.key e = (fileId, offset) := by simpa using hkey
      have hl₁' : ∀ b ∈ l₁, c.cache.key b ≠ (fileId, offset) := fun b hb => by simpa using hl₁ b hb
      obtain ⟨s₁, hun, hrep₁, hkeeps₁, hwrites⟩ := h.rep.unlinkKey_hit hl₁' hkey'
      have hholds₁ := holds_of_writes h.holds hwrites (h.footprint htable)
      have hperm := (perm_own c.outside c.cache l₁ l₂ e).trans (List.Perm.swap _ _ _)
      have hrest : own s₁ (l₁ ++ l₂) = own c.cache (l₁ ++ l₂) :=
        own_of_keeps (hkeeps₁.sublist fun b hb => mem_rest hb)
      rw [← hrest] at hperm
      obtain ⟨hholds₂, hmem₂, -⟩ := freePage_spec (hholds₁.perm hperm) hacc
      have hgained : c.outside ⊆ (c.cache.get .physicalAddress e, 0) :: c.outside := List.subset_cons_self _ _
      obtain ⟨hinv, -⟩ := Inv.released h.spared hkeeps₁.hashTable htable hrep₁ hgained hholds₂ hmem₂
      refine ⟨_, l₁ ++ l₂, ?_, hinv⟩
      obtain ⟨k, rfl⟩ : ∃ k, e = k + 1 := ⟨e - 1, (Nat.succ_pred_eq_of_ne_zero he0).symm⟩
      rw [step, remove_eq hun he0, Option.map_some, if_neg htable, h.rep.findEntry_hit htable hfind]

/-- A full cache with entries makes room for an allocation; any other is left alone. -/
theorem Inv.makeRoom (h : Inv r c lru) (hacc : Buddy.Accepts r) :
    ∃ s₁ lru₁, PageCache.makeRoom freePage c.cache = some s₁ ∧ Inv r ⟨s₁, c.outside⟩ lru₁ ∧
      s₁.hashTable = c.cache.hashTable ∧ (s₁ = c.cache ∨ (allocPage s₁.toMachine).1 ≠ 0) := by
  unfold PageCache.makeRoom
  by_cases hfull : c.cache.maxPages ≤ c.cache.totalPages
  · obtain ⟨s₁, hcall, hinv, htable, hroom⟩ := h.evict hacc
    rw [if_pos hfull]
    exact ⟨s₁, _, hcall, hinv, htable, hroom⟩
  · rw [if_neg hfull]
    exact ⟨c.cache, lru, rfl, h, rfl, Or.inl rfl⟩

/-- The state after a new entry is put into the page that the allocator hands out. -/
def inserted (s : State Buddy.BuddyGlobals) (fileId offset physAddr : ℕ) : State Buddy.BuddyGlobals :=
  linkNew (s.setMachine (allocPage s.toMachine).2) (allocPage s.toMachine).1 fileId offset physAddr

/-- The ways in which an insertion ends: it fails and changes nothing, or the key is cached and it changes
nothing, or the page is cached in a new entry. -/
theorem Inv.insert_cases (h : Inv r c lru) (hacc : Buddy.Accepts r) (fileId offset physAddr : ℕ) :
    pageCacheInsert allocPage freePage c.cache fileId offset physAddr = some (-1, c.cache) ∨
      (pageCacheInsert allocPage freePage c.cache fileId offset physAddr = some (0, c.cache) ∧
        findEntry c.cache fileId offset ≠ some 0) ∨
      ∃ s₁ lru₁, physAddr ≠ 0 ∧ findEntry c.cache fileId offset = some 0 ∧ Inv r ⟨s₁, c.outside⟩ lru₁ ∧
        s₁.hashTable = c.cache.hashTable ∧ s₁.hashTable ≠ 0 ∧ (allocPage s₁.toMachine).1 ≠ 0 ∧
        pageCacheInsert allocPage freePage c.cache fileId offset physAddr =
          some (0, inserted s₁ fileId offset physAddr) := by
  by_cases hrefused : c.cache.hashTable = 0 ∨ physAddr = 0
  · refine Or.inl ?_
    unfold pageCacheInsert
    rw [if_pos hrefused]
  obtain ⟨htable, hphys⟩ := not_or.mp hrefused
  cases hfind : lru.find? fun a => decide (c.cache.key a = (fileId, offset)) with
  | some e =>
      have he0 : e ≠ 0 := h.rep.ne_zero (List.mem_of_find?_eq_some hfind)
      have hfound : findEntry c.cache fileId offset = some e := h.rep.findEntry_hit htable hfind
      refine Or.inr (Or.inl ⟨?_, ?_⟩)
      · unfold pageCacheInsert
        rw [if_neg hrefused, hfound]
        simp only [Option.bind_eq_bind, Option.bind_some, ne_eq, he0, not_false_eq_true, if_true]
      · rw [hfound]
        exact fun heq => he0 (Option.some.inj heq)
  | none =>
      have hfound : findEntry c.cache fileId offset = some 0 := h.rep.findEntry_miss htable hfind
      obtain ⟨s₁, lru₁, hroom, hinv, htable₁, hpage⟩ := h.makeRoom hacc
      have hcall : pageCacheInsert allocPage freePage c.cache fileId offset physAddr
          = some (addEntry allocPage s₁ fileId offset physAddr) := by
        unfold pageCacheInsert
        rw [if_neg hrefused, hfound]
        simp only [Option.bind_eq_bind, Option.bind_some, ne_eq, not_true_eq_false, if_false, hroom]
      rcases hinv.holds.alloc 0 0 with hfail | ⟨ha0, -, -⟩
      · -- no page: nothing has been evicted
        have hnone : allocPage s₁.toMachine = (0, s₁.toMachine) := hfail
        have h0 : (allocPage s₁.toMachine).1 = 0 := congrArg Prod.fst hnone
        have hsame : s₁ = c.cache := hpage.resolve_right fun hne => hne h0
        refine Or.inl ?_
        rw [hcall, addEntry_fail h0, hnone, hsame]
        rfl
      · refine Or.inr (Or.inr ⟨s₁, lru₁, hphys, hfound, hinv, htable₁, ?_, ha0, ?_⟩)
        · rwa [htable₁]
        · rw [hcall, addEntry_eq rfl ha0]
          rfl

/-- The new entry, and the page that is handed over. -/
theorem Inv.inserted (h : Inv r c lru) (hacc : Buddy.Accepts r) (htable : c.cache.hashTable ≠ 0)
    (ha0 : (allocPage c.cache.toMachine).1 ≠ 0) {fileId offset physAddr : ℕ} (hfile : fileId < 2 ^ 64)
    (hoffset : offset < 2 ^ 64) (hpage : (physAddr, 0) ∈ c.outside)
    (hclear : ∀ x, Behind c.cache x → ¬ Buddy.InBlock (physAddr, 0) x) :
    Inv r ⟨OnBuddy.inserted c.cache fileId offset physAddr, c.outside.erase (physAddr, 0)⟩
      ((allocPage c.cache.toMachine).1 :: lru) := by
  obtain ⟨a, ha⟩ : ∃ a, a = (allocPage c.cache.toMachine).1 := ⟨_, rfl⟩
  obtain ⟨m, hm⟩ : ∃ m, m = (allocPage c.cache.toMachine).2 := ⟨_, rfl⟩
  unfold OnBuddy.inserted
  obtain ⟨hholds, hmem⟩ : Buddy.Holds r m ((a, 0) :: (c.outside ++ own c.cache lru)) ∧
      ∀ x, Buddy.Taken r (c.outside ++ own c.cache lru) x → m.mem x = c.cache.mem x := by
    rw [ha, hm]
    exact (h.holds.alloc 0 0).elim (fun hfail => absurd (congrArg Prod.fst hfail) ha0) And.right
  rw [← ha, ← hm]
  rw [← ha] at ha0
  -- the new page is not one that the cache uses
  have hnot : ∀ x, Footprint c.cache.hashTable lru x → x ≠ a := by
    rintro x hx rfl
    exact hholds.not_taken (Buddy.inBlock_self (x, 0)) (h.footprint htable x hx)
  have hself : ∀ b, InPage b b := fun b => ⟨le_rfl, Nat.lt_add_of_pos_right (by decide)⟩
  obtain ⟨-, haligned, hlt⟩ := page_aligned hacc hholds List.mem_cons_self
  have hentry : IsEntry c.cache.hashTable a := ⟨haligned, hlt, fun heq => hnot _ (Or.inl (hself _)) heq.symm,
    fun heq => hnot _ (Or.inr (Or.inl (hself _))) heq.symm⟩
  have hfresh : a ∉ lru := fun hin => hnot a (Or.inr (Or.inr ⟨a, hin, hself a⟩)) rfl
  have hphys : physAddr < 2 ^ 64 := (page_aligned hacc h.holds (List.mem_append_left _ hpage)).2.2
  have hsame : ∀ x, Footprint c.cache.hashTable lru x → m.mem x = c.cache.mem x := fun x hx =>
    hmem x (h.footprint htable x hx)
  have hkeeps := keeps_setMachine hsame
  obtain ⟨hrep', hadds, hwrites⟩ := (h.rep.setMachine hsame).linkNew htable hentry ha0 hfresh ⟨hfile, hoffset, hphys⟩
  obtain ⟨s', hs'⟩ : ∃ s', s' = linkNew (c.cache.setMachine m) a fileId offset physAddr := ⟨_, rfl⟩
  rw [← hs'] at hrep' hadds hwrites ⊢
  have hholds' : Buddy.Holds r s'.toMachine ((a, 0) :: (c.outside ++ own c.cache lru)) :=
    holds_of_writes hholds hwrites (taken_of_footprint
      (List.mem_cons_of_mem _ (List.mem_append_right _ (table_mem htable)))
      (fun x hx => (h.footprint htable x (Or.inr (Or.inl hx))).mono (List.subset_cons_self _ _))
      fun b hb => (List.mem_cons.mp hb).elim (fun heq => heq ▸ List.mem_cons_self)
        fun hb' => List.mem_cons_of_mem _ (List.mem_append_right _ (entry_mem hb')))
  have hbehind := behind_congr (s := c.cache) hadds.hashTable
  refine ⟨hrep', hholds'.perm ?_, fun x hx =>
    Buddy.Taken.erase (h.spared x ((hbehind x).mp hx)) (hclear x ((hbehind x).mp hx))⟩
  · -- the page is the cache's now
    have hown : own s' lru = own c.cache lru := own_congr hadds.hashTable fun b hb =>
      physicalAddress_of_body ((hadds.others b hb).trans (hkeeps.body b hb))
    have hself : s'.get .physicalAddress a = physAddr := congrArg (fun x => x.2.1) hadds.new
    have hentry := perm_own (c.outside.erase (physAddr, 0)) s' [] lru a
    rw [hself, List.nil_append, List.nil_append, hown] at hentry
    exact ((((List.perm_cons_erase hpage).append_right _).cons _).trans (List.Perm.swap _ _ _)).trans hentry.symm

/-- An insertion keeps the invariant. -/
theorem Inv.insert (h : Inv r c lru) (hacc : Buddy.Accepts r) {fileId offset physAddr : ℕ}
    (hop : Handed c (.insert fileId offset physAddr)) (hclear : LeavesBehind c (.insert fileId offset physAddr)) :
    ∃ c' lru', step c (.insert fileId offset physAddr) = some c' ∧ Inv r c' lru' := by
  obtain ⟨hfile, hoffset, hpage⟩ := hop
  rcases h.insert_cases hacc fileId offset physAddr with
    hcall | ⟨hcall, hfound⟩ | ⟨s₁, lru₁, hphys, hfound, hinv, htable, htable₁, ha0, hcall⟩
  · refine ⟨c, lru, ?_, h⟩
    rw [step, hcall, Option.map_some, if_neg fun hc => absurd (show (-1 : ℤ) = 0 from hc.1) (by decide)]
  · refine ⟨c, lru, ?_, h⟩
    rw [step, hcall, Option.map_some, if_neg fun hc => hfound hc.2]
  · have hclear₁ : ∀ x, Behind s₁ x → ¬ Buddy.InBlock (physAddr, 0) x := fun x hx =>
      hclear x ((behind_congr htable x).mp hx)
    refine ⟨_, _, ?_, hinv.inserted hacc htable₁ ha0 hfile hoffset (hpage.resolve_left hphys) hclear₁⟩
    rw [step, hcall, Option.map_some, if_pos ⟨rfl, hfound⟩]

/-- One call. -/
theorem Inv.step (h : Inv r c lru) (hacc : Buddy.Accepts r) {op : Op} (hop : Handed c op) (hclear : LeavesBehind c op) :
    ∃ c' lru', OnBuddy.step c op = some c' ∧ Inv r c' lru' := by
  cases op with
  | client op =>
      obtain ⟨c', hstep, hinv⟩ := h.client hop hclear
      exact ⟨c', lru, hstep, hinv⟩
  | insert fileId offset physAddr => exact h.insert hacc hop hclear
  | lookup fileId offset =>
      obtain ⟨c', hstep, hinv⟩ := h.lookup fileId offset
      exact ⟨c', lru, hstep, hinv⟩
  | remove fileId offset => exact h.remove hacc fileId offset
  | evict =>
      obtain ⟨s', hcall, hinv, -⟩ := h.evict hacc
      refine ⟨⟨s', c.outside⟩, lru.dropLast, ?_, hinv⟩
      rw [OnBuddy.step, hcall, Option.map_some]

/-- `page_cache_init` takes a page for the bucket array, if there is one. -/
theorem inv_start {c : Buddy.Run} (h : Buddy.Holds r c.state c.live) (hacc : Buddy.Accepts r)
    (s : State Buddy.BuddyGlobals) (maxPages : ℕ) (hspared : Spared r (start c s maxPages)) :
    Inv r (start c s maxPages) [] := by
  rcases h.alloc 0 0 with hfail | ⟨h0, hholds, -⟩
  · have hnone : allocPage (s.setMachine c.state).toMachine = (0, c.state) := hfail
    have h0 : (allocPage (s.setMachine c.state).toMachine).1 = 0 := congrArg Prod.fst hnone
    have hrep : Rep (pageCacheInit allocPage (s.setMachine c.state) maxPages) [] := rep_init _ _ (by rw [h0]; rfl)
    refine ⟨hrep, ?_, hspared⟩
    unfold start
    rw [pageCacheInit_fail h0, hnone]
    dsimp only [own, table, entryPages]
    rw [if_pos rfl, List.flatMap_nil, List.append_nil, List.append_nil]
    exact h
  · obtain ⟨t, ht⟩ : ∃ t, t = (allocPage (s.setMachine c.state).toMachine).1 := ⟨_, rfl⟩
    obtain ⟨m, hm⟩ : ∃ m, m = (allocPage (s.setMachine c.state).toMachine).2 := ⟨_, rfl⟩
    have h0' : (allocPage (s.setMachine c.state).toMachine).1 ≠ 0 := h0
    have hholds' : Buddy.Holds r m ((t, 0) :: c.live) := by
      rw [ht, hm]
      exact hholds
    have hrep : Rep (pageCacheInit allocPage (s.setMachine c.state) maxPages) [] :=
      rep_init _ _ (ht ▸ (page_aligned hacc hholds' List.mem_cons_self).2.1)
    refine ⟨hrep, ?_, hspared⟩
    unfold start at hspared ⊢
    rw [pageCacheInit_eq h0', ← ht, ← hm] at hspared ⊢
    dsimp only [own, table, entryPages]
    rw [← ht] at h0'
    rw [if_neg h0', List.flatMap_nil, List.append_nil]
    -- both pages that are cleared are the array's
    have hcomm : ([(t, 0)] ++ c.live).Perm (c.live ++ [(t, 0)]) := List.perm_append_comm
    refine Buddy.Holds.perm (hholds'.write (w := cleared m.mem t) fun x hx => if_neg fun hin => hx ?_) hcomm
    rcases Nat.lt_or_ge x (t + pageSize) with hlt | hge
    · exact Or.inr ⟨_, List.mem_cons_self, inBlock_iff_inPage.mpr ⟨hin.1, hlt⟩⟩
    · refine (hspared x ⟨h0', hge, ?_⟩).mono (List.subset_cons_self _ _)
      dsimp only
      omega

end inv

/-- In every run on a page-aligned region that ends below `2 ^ 64`, in which the page behind that of the bucket array is
spared, an insertion that returns -1 changes nothing. -/
theorem failed_insert_unchanged (r : Buddy.Region) (haligned : r.start % pageSize = 0)
    (hend : r.start + r.size < 2 ^ 64) (m : Mem) (before : List Buddy.Op)
    (hbefore : Buddy.ValidRun (Buddy.boot m r.start r.size) before) (s₀ : State Buddy.BuddyGlobals) (maxPages : ℕ) :
    ∃ c₀, Buddy.exec (Buddy.boot m r.start r.size) before = some c₀ ∧ (Spared r (start c₀ s₀ maxPages) →
      ∀ ops, Guarded step (fun c op => Handed c op ∧ LeavesBehind c op) (start c₀ s₀ maxPages) ops →
        ∃ c, exec step (start c₀ s₀ maxPages) ops = some c ∧ ∀ fileId offset physAddr, ∃ code s',
          pageCacheInsert allocPage freePage c.cache fileId offset physAddr = some (code, s') ∧
            (code = -1 → s' = c.cache)) := by
  have hacc : Buddy.Accepts r := ⟨haligned, hend⟩
  obtain ⟨lists₀, S₀, hinv₀, -⟩ := Buddy.inv_boot m r
  obtain ⟨c₀, lists, S, hexec₀, hinv, -⟩ := Buddy.exec_inv hinv₀ hbefore
  refine ⟨c₀, hexec₀, fun hspared ops hg => ?_⟩
  have htotal := exec_total (I := fun c => ∃ lru, Inv r c lru) (fun c op hc hop => ?_)
    ⟨[], inv_start ⟨lists, S, hinv⟩ hacc s₀ maxPages hspared⟩ hg
  · obtain ⟨c, hexec, lru, h⟩ := htotal
    refine ⟨c, hexec, fun fileId offset physAddr => ?_⟩
    rcases h.insert_cases hacc fileId offset physAddr with hcall | ⟨hcall, -⟩ | ⟨s₁, lru₁, -, -, -, -, -, -, hcall⟩
    · exact ⟨-1, c.cache, hcall, fun _ => rfl⟩
    · exact ⟨0, c.cache, hcall, fun hcode => absurd hcode (by decide)⟩
    · exact ⟨0, _, hcall, fun hcode => absurd hcode (by decide)⟩
  · obtain ⟨lru, h⟩ := hc
    obtain ⟨c', lru', hstep, h'⟩ := h.step hacc hop.1 hop.2
    exact ⟨c', hstep, lru', h'⟩

/-! ### Full caches -/

instance (c : Config) (op : Op) : Decidable (Handed c op) :=
  match op with
  | .client op => inferInstanceAs (Decidable (Buddy.Run.Valid ⟨c.cache.toMachine, c.outside⟩ op))
  | .insert fileId offset physAddr =>
      inferInstanceAs (Decidable (fileId < 2 ^ 64 ∧ offset < 2 ^ 64 ∧ (physAddr = 0 ∨ (physAddr, 0) ∈ c.outside)))
  | .lookup _ _ => isTrue trivial
  | .remove _ _ => isTrue trivial
  | .evict => isTrue trivial

/-- A block that does not meet the page behind that of the bucket array. -/
def clearTest (s : State Buddy.BuddyGlobals) (b : ℕ × ℕ) : Bool :=
  decide (b.1 + 2 ^ b.2 * pageSize ≤ s.hashTable + pageSize ∨ s.hashTable + 2 * pageSize ≤ b.1)

/-- The test of a block is sound. -/
theorem not_inBlock_of_clearTest {s : State Buddy.BuddyGlobals} {b : ℕ × ℕ} (h : clearTest s b = true) {x : ℕ}
    (hx : Behind s x) : ¬ Buddy.InBlock b x := by
  have hapart : b.1 + 2 ^ b.2 * pageSize ≤ s.hashTable + pageSize ∨ s.hashTable + 2 * pageSize ≤ b.1 :=
    of_decide_eq_true h
  obtain ⟨-, h1, h2⟩ := hx
  unfold Buddy.InBlock
  omega

/-- `LeavesBehind` as a test. -/
def leavesTest (c : Config) : Op → Bool
  | .client (.free address order) => clearTest c.cache (address, order)
  | .client (.write y _) => decide (¬ InPage (c.cache.hashTable + pageSize) y)
  | .insert _ _ physAddr => clearTest c.cache (physAddr, 0)
  | _ => true

/-- The test of a call is sound. -/
theorem leavesBehind_of_test (c : Config) (op : Op) (h : leavesTest c op = true) : LeavesBehind c op := by
  cases op with
  | client op =>
      cases op with
      | alloc order zoneType => exact fun _ _ => trivial
      | allocFlags order flags => exact fun _ _ => trivial
      | free address order => exact fun x hx => not_inBlock_of_clearTest h hx
      | write y byte =>
          rintro x hx rfl
          exact of_decide_eq_true h hx.2
  | insert fileId offset physAddr => exact fun x hx => not_inBlock_of_clearTest h hx
  | lookup fileId offset => trivial
  | remove fileId offset => trivial
  | evict => trivial

/-- A cache that was never initialised. -/
def unused : State Buddy.BuddyGlobals :=
  { mem := fun _ => 0, pages := Buddy.BuddyGlobals.zero, hashTable := 0, lruHead := 0, lruTail := 0, totalPages := 0
    maxPages := 0, cacheHits := 0, cacheMisses := 0, counter := 0 }

/-- `start` on it, when there is a page for the bucket array. -/
def started (c : Buddy.Run) (maxPages : ℕ) : Config :=
  ⟨{ mem := cleared (allocPage c.state).2.mem (allocPage c.state).1, pages := (allocPage c.state).2.pages
     hashTable := (allocPage c.state).1, lruHead := 0, lruTail := 0, totalPages := 0, maxPages := maxPages
     cacheHits := 0, cacheMisses := 0, counter := 0 }, c.live⟩

/-- The cache after a `page_cache_init` that has got a page. -/
theorem start_unused {c : Buddy.Run} (h0 : (allocPage c.state).1 ≠ 0) (maxPages : ℕ) :
    start c unused maxPages = started c maxPages := by
  unfold start
  rw [pageCacheInit_eq (s := unused.setMachine c.state) h0]
  rfl

/-- The bucket array is in the last page of the region. -/
theorem spared_of_end {r : Buddy.Region} {c : Buddy.Run} {maxPages : ℕ}
    (h : r.start + r.pages * pageSize ≤ (allocPage c.state).1 + pageSize) : Spared r (started c maxPages) :=
  fun _ hx => Or.inl (h.trans hx.2.1)

/-- A client holds the page behind that of the bucket array. -/
theorem spared_of_held {r : Buddy.Region} {c : Buddy.Run} {maxPages : ℕ}
    (h : ((allocPage c.state).1 + pageSize, 0) ∈ c.live) : Spared r (started c maxPages) :=
  fun _ hx => Or.inr ⟨_, h, inBlock_iff_inPage.mpr hx.2⟩

/-- Five pages, all in use; the cache is full at one entry, which is replaced. -/
def fullRun : List Op :=
  [.client (.alloc 0 0), .client (.alloc 0 0), .client (.alloc 0 0), .client (.write 0x3000 7), .insert 1 0 0x1000,
    .insert 2 0 0x2000, .lookup 2 0]

/-- The five pages. -/
def fivePages : Buddy.Region := ⟨0x1000, 0x5000, by norm_num, by norm_num⟩

/-- A full cache on an allocator without a free page. -/
theorem failed_insert_unchanged_sample :
    ∃ c₀, Buddy.exec (Buddy.boot (fun _ => 0) 0x1000 0x5000) [] = some c₀ ∧
      ∃ c, exec step (start c₀ unused 1) fullRun = some c ∧ ∀ fileId offset physAddr, ∃ code s',
        pageCacheInsert allocPage freePage c.cache fileId offset physAddr = some (code, s') ∧
          (code = -1 → s' = c.cache) := by
  obtain ⟨c₀, hexec₀, hruns⟩ :=
    failed_insert_unchanged fivePages (by decide) (by decide) (fun _ => 0) [] trivial unused 1
  obtain rfl : Buddy.boot (fun _ => 0) 0x1000 0x5000 = c₀ := Option.some.inj hexec₀
  have htable : (allocPage (Buddy.boot (fun _ => 0) 0x1000 0x5000).state).1 = 0x5000 := by decide +kernel
  rw [start_unused (by rw [htable]; decide)] at hruns
  refine ⟨_, rfl, ?_⟩
  rw [start_unused (by rw [htable]; decide)]
  refine hruns (spared_of_end (by rw [htable]; decide)) fullRun ?_
  exact guarded_of_guardedBy (t := fun c op => decide (Handed c op) && leavesTest c op)
    (fun c op h => ⟨of_decide_eq_true (Bool.and_eq_true_iff.mp h).1,
      leavesBehind_of_test c op (Bool.and_eq_true_iff.mp h).2⟩) (by decide +kernel)

/-- In every run from `c₀` that meets the guard, an insertion that returns -1 keeps the number of entries. -/
def FailuresKeepTotal (ok : Config → Op → Prop) (c₀ : Config) : Prop :=
  ∀ ops, Guarded step ok c₀ ops → ∀ c, exec step c₀ ops = some c → ∀ fileId offset physAddr s',
    pageCacheInsert allocPage freePage c.cache fileId offset physAddr = some (-1, s') →
      s'.totalPages = c.cache.totalPages

/-- What an insertion after a run returns, and the number of entries before and after it. -/
def insertAfter (c₀ : Config) (ops : List Op) (fileId offset physAddr : ℕ) : Option (ℤ × ℕ × ℕ) :=
  (exec step c₀ ops).bind fun c => (pageCacheInsert allocPage freePage c.cache fileId offset physAddr).map
    fun res : ℤ × State Buddy.BuddyGlobals => (res.1, c.cache.totalPages, res.2.totalPages)

/-- A failed insertion that changes the count. -/
theorem not_failuresKeepTotal {ok : Config → Op → Prop} {c₀ : Config} {ops : List Op} (hg : Guarded step ok c₀ ops)
    {fileId offset physAddr n n' : ℕ} (h : insertAfter c₀ ops fileId offset physAddr = some (-1, n, n'))
    (hne : n' ≠ n) : ¬ FailuresKeepTotal ok c₀ := by
  intro hkeep
  obtain ⟨c, hexec, hcall⟩ := Option.bind_eq_some_iff.mp h
  obtain ⟨⟨code, s'⟩, hcall, hres⟩ := Option.map_eq_some_iff.mp hcall
  rw [Prod.mk.injEq, Prod.mk.injEq] at hres
  obtain ⟨hcode, hbefore, hafter⟩ := hres
  dsimp only at hcode hafter
  rw [hcode] at hcall
  have hsame := hkeep ops hg c hexec fileId offset physAddr s' hcall
  rw [hbefore, hafter] at hsame
  exact hne hsame

/-- Seven pages at the end of the address space, all in use. -/
def lastRun : List Op :=
  [.client (.alloc 0 0), .client (.alloc 0 0), .client (.alloc 0 0), .insert 1 0 (2 ^ 64 - 0x3000)]

/-- Two pages. The client that holds the one behind the bucket array writes an entry into it that is not at the start of
a page, and the slot of its key. -/
def writtenRun : List Op :=
  [.client (.alloc 0 0), .client (.write 0x2000 0x08), .client (.write 0x2001 0x21), .client (.write 0x2109 0x02),
    .client (.write 0x2140 0x08), .client (.write 0x2141 0x21), .remove 512 0]

/-- In a region that ends at `2 ^ 64` no page is taken back: the victim is gone, and its page with it. In any other
region it is the client's writes behind the bucket array that make a victim of what is none. -/
theorem victim_lost :
    (¬ ∀ r : Buddy.Region, 0 < r.start → r.start % pageSize = 0 → ∀ (m : Mem) (before : List Buddy.Op),
        Buddy.ValidRun (Buddy.boot m r.start r.size) before →
        ∀ c₀, Buddy.exec (Buddy.boot m r.start r.size) before = some c₀ →
        ∀ (s₀ : State Buddy.BuddyGlobals) (maxPages : ℕ), Spared r (start c₀ s₀ maxPages) →
          FailuresKeepTotal (fun c op => Handed c op ∧ LeavesBehind c op) (start c₀ s₀ maxPages)) ∧
      ¬ ∀ r : Buddy.Region, 0 < r.start → r.start % pageSize = 0 → r.start + r.size < 2 ^ 64 →
        ∀ (m : Mem) (before : List Buddy.Op), Buddy.ValidRun (Buddy.boot m r.start r.size) before →
        ∀ c₀, Buddy.exec (Buddy.boot m r.start r.size) before = some c₀ →
        ∀ (s₀ : State Buddy.BuddyGlobals) (maxPages : ℕ), FailuresKeepTotal Handed (start c₀ s₀ maxPages) := by
  constructor
  · intro hclaim
    have hpages : (Buddy.exec (Buddy.boot (fun _ => 0) (2 ^ 64 - 0x7000) 0x7000) [.alloc 0 0, .alloc 0 0]).map
        (fun c => (c.live, (allocPage c.state).1)) =
        some ([(2 ^ 64 - 0x3000, 0), (2 ^ 64 - 0x1000, 0)], 2 ^ 64 - 0x2000) := by decide +kernel
    have hrun : (Buddy.exec (Buddy.boot (fun _ => 0) (2 ^ 64 - 0x7000) 0x7000) [.alloc 0 0, .alloc 0 0]).map
        (fun c => (guardedBy step (fun c op => decide (Handed c op) && leavesTest c op) (started c 1) lastRun,
          insertAfter (started c 1) lastRun 2 0 (2 ^ 64 - 0x7000))) = some (true, some (-1, 1, 0)) := by decide +kernel
    obtain ⟨c₀, hexec, hc⟩ := Option.map_eq_some_iff.mp hpages
    rw [hexec, Option.map_some, Option.some.injEq] at hrun
    obtain ⟨hlive, htable⟩ := Prod.mk.inj hc
    obtain ⟨hguard, hinsert⟩ := Prod.mk.inj hrun
    have h0 : (allocPage c₀.state).1 ≠ 0 := by
      rw [htable]
      decide
    have hkeep := hclaim ⟨2 ^ 64 - 0x7000, 0x7000, by norm_num, by norm_num⟩ (by norm_num) (by decide) (fun _ => 0)
      [.alloc 0 0, .alloc 0 0] ⟨trivial, trivial, trivial⟩ c₀ hexec unused 1
    rw [start_unused h0] at hkeep
    refine not_failuresKeepTotal ?_ hinsert (by decide) (hkeep (spared_of_held ?_))
    · exact guarded_of_guardedBy (fun c op h => ⟨of_decide_eq_true (Bool.and_eq_true_iff.mp h).1,
        leavesBehind_of_test c op (Bool.and_eq_true_iff.mp h).2⟩) hguard
    · rw [hlive, htable]
      decide
  · intro hclaim
    have h0 : (allocPage (Buddy.boot (fun _ => 0) 0x1000 0x2000).state).1 ≠ 0 := by decide +kernel
    have hkeep := hclaim ⟨0x1000, 0x2000, by norm_num, by norm_num⟩ (by norm_num) (by decide) (by norm_num) (fun _ => 0)
      [] trivial _ rfl unused 1
    rw [start_unused h0] at hkeep
    exact not_failuresKeepTotal (guarded_of_guardedBy (fun c op h => of_decide_eq_true h)
      (by decide +kernel : guardedBy step (fun c op => decide (Handed c op)) _ writtenRun = true))
      (by decide +kernel : insertAfter _ writtenRun 1 0 0x2000 = some (-1, 2 ^ 64 - 1, 2 ^ 64 - 2)) (by decide) hkeep

end PrometheusKernel.PageCache.OnBuddy
