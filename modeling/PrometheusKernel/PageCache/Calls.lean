import PrometheusKernel.PageCache.Lists

/-!
# What the calls of the page cache do

One lemma for each lock-protected section of `page_cache.c`, in terms of the entries `lru` of
`Rep s lru`: a lookup finds the entry with the key, an eviction drops the last entry, a removal takes
out the entry with the key, an insertion puts a new entry in front.

Between its writes a section calls the page allocator, which works on the same memory. `Promised` is
what an allocator promises of one call; `SparesBehind` is what `page_cache.c` needs besides, because
half of its bucket array is in a page that it never asked for.
-/

namespace PrometheusKernel.PageCache

open ByteMem LinkedList

variable {A : Type} {alloc : Machine A → ℕ × Machine A} {free : ℕ → Machine A → Machine A} {s s₁ s' : State A}
  {m : Machine A} {lru l l' l₁ l₂ : List ℕ} {f : Field} {a b : ℕ}

/-! ### States that differ little -/

/-- What the links do not concern: key, page and time of the last access. -/
def State.body (s : State A) (a : ℕ) : (ℕ × ℕ) × ℕ × ℕ :=
  (s.key a, s.get .physicalAddress a, s.get .lastAccess a)

/-- The entries `l` are as they were but for their links. -/
structure Keeps (s s' : State A) (l : List ℕ) : Prop where
  body : ∀ a ∈ l, s'.body a = s.body a
  hashTable : s'.hashTable = s.hashTable
  maxPages : s'.maxPages = s.maxPages
  counter : s'.counter = s.counter

/-- Nothing outside the bucket array and the entries `l` is written. -/
structure Writes (s s' : State A) (l : List ℕ) : Prop where
  mem : ∀ x, ¬ Footprint s.hashTable l x → s'.mem x = s.mem x
  pages : s'.pages = s.pages

/-- A call that does nothing. -/
theorem Keeps.refl (s : State A) (l : List ℕ) : Keeps s s l := ⟨fun _ _ => rfl, rfl, rfl, rfl⟩

/-- Fewer entries are kept too. -/
theorem Keeps.sublist (h : Keeps s s' l) (hsub : l' ⊆ l) : Keeps s s' l' :=
  ⟨fun a ha => h.body a (hsub ha), h.hashTable, h.maxPages, h.counter⟩

/-- Calls one after the other. -/
theorem Keeps.trans (h : Keeps s s₁ l) (h' : Keeps s₁ s' l) : Keeps s s' l :=
  ⟨fun a ha => (h'.body a ha).trans (h.body a ha), h'.hashTable.trans h.hashTable, h'.maxPages.trans h.maxPages,
    h'.counter.trans h.counter⟩

/-- The key is a part of the body. -/
theorem key_eq_of_body (h : s'.body a = s.body b) : s'.key a = s.key b := congrArg Prod.fst h

/-- The page is a part of the body. -/
theorem physicalAddress_of_body (h : s'.body a = s.body b) :
    s'.get .physicalAddress a = s.get .physicalAddress b := congrArg (fun x => x.2.1) h

/-- The time of the last access is no part of the key. -/
theorem key_congr (h : ∀ f, f ≠ .lastAccess → s'.get f a = s.get f a) : s'.key a = s.key a :=
  Prod.ext (h .fileId (by decide)) (h .offset (by decide))

/-- The links are no part of the body. -/
theorem body_congr (h : ∀ f ∉ [Field.hashNext, .lruNext, .lruPrev], s'.get f a = s.get f a) : s'.body a = s.body a :=
  Prod.ext (Prod.ext (h .fileId (by decide)) (h .offset (by decide)))
    (Prod.ext (h .physicalAddress (by decide)) (h .lastAccess (by decide)))

/-- A state with the same lists; the time of the last access plays no role in them. -/
theorem Rep.congr (h : Rep s lru) (hget : ∀ f, f ≠ .lastAccess → ∀ a ∈ lru, s'.get f a = s.get f a)
    (hslot : ∀ b < defaultHashSize, s'.slot b = s.slot b) (htable : s'.hashTable = s.hashTable)
    (hhead : s'.lruHead = s.lruHead) (htail : s'.lruTail = s.lruTail) (htotal : s'.totalPages = s.totalPages) :
    Rep s' lru := by
  have hbucket : ∀ a ∈ lru, s'.bucket a = s.bucket a := fun a ha =>
    bucket_eq_of_key (key_congr fun f hf => hget f hf a ha)
  refine ⟨htable ▸ h.aligned, fun a ha => htable ▸ h.entry a ha, ?_, htail.trans h.tail, fun h0 b hb => ?_,
    fun h0 => h.missing (htable ▸ h0), htotal.trans h.total⟩
  · rw [hhead]
    exact h.list.congr (fun a ha => hget _ (by decide) a ha) fun a ha => hget _ (by decide) a ha
  · have hfilter : lru.filter (fun a => s'.bucket a = b) = lru.filter fun a => s.bucket a = b :=
      List.filter_congr fun a ha => by rw [hbucket a ha]
    rw [hfilter, hslot b hb]
    exact (h.chains (htable ▸ h0) b hb).congr fun a ha => hget _ (by decide) a (List.mem_of_mem_filter ha)

/-- The same bytes in the bucket array and the entries. -/
theorem Rep.setMachine (h : Rep s lru) (hm : ∀ x, Footprint s.hashTable lru x → m.mem x = s.mem x) :
    Rep (s.setMachine m) lru :=
  h.congr (fun f _ a ha => get_congr fun x hx => hm x (Or.inr (Or.inr ⟨a, ha, hx⟩)))
    (fun b hb => slot_congr rfl hb fun x hx => hm x (by
      rcases hx with hx | hx | ⟨c, hc, -⟩
      · exact Or.inl hx
      · exact Or.inr (Or.inl hx)
      · exact absurd hc List.not_mem_nil)) rfl rfl rfl rfl

/-- Without a bucket array there are no entries, whatever is in memory. -/
theorem Rep.setMachine_missing (h : Rep s lru) (h0 : s.hashTable = 0) (m : Machine A) : Rep (s.setMachine m) lru := by
  obtain rfl := h.missing h0
  exact ⟨h.aligned, fun a ha => absurd ha List.not_mem_nil, h.list, h.tail, fun hne => absurd h0 hne, fun _ => rfl,
    h.total⟩

/-- An allocator that leaves the bytes of the cache alone keeps the entries. -/
theorem keeps_setMachine (hm : ∀ x, Footprint s.hashTable lru x → m.mem x = s.mem x) :
    Keeps s (s.setMachine m) lru := by
  refine ⟨fun a ha => body_congr fun f _ => ?_, rfl, rfl, rfl⟩
  exact get_congr fun x hx => hm x (Or.inr (Or.inr ⟨a, ha, hx⟩))

/-! ### What the allocator does meanwhile -/

/-- The entry is on the LRU list. -/
def Linked (s : State A) (a : ℕ) : Prop := ∃ lru, IsList s.lruNext lru s.lruHead ∧ a ∈ lru

/-- What the allocator promises of a call in the state `s` that returns `a`, or nothing, and leaves the machine
`m`: the page is neither that of the bucket array nor that of a linked entry, and their bytes are not written. -/
structure Promised (s : State A) (a : ℕ) (m : Machine A) : Prop where
  page : a ≠ 0 → a % pageSize = 0 ∧ a < 2 ^ 64 ∧ a ≠ s.hashTable ∧ ¬ Linked s a
  table : ∀ x, InPage s.hashTable x → m.mem x = s.mem x
  entries : ∀ e, Linked s e → ∀ x, InPage e x → m.mem x = s.mem x

/-- The page behind that of the bucket array is not handed out, and its bytes are not written. -/
structure SparesBehind (s : State A) (a : ℕ) (m : Machine A) : Prop where
  page : a ≠ s.hashTable + pageSize
  bytes : ∀ x, InPage (s.hashTable + pageSize) x → m.mem x = s.mem x

/-- Both. -/
def Harmless (s : State A) (a : ℕ) (m : Machine A) : Prop := Promised s a m ∧ SparesBehind s a m

/-- The entries that are linked are those on the LRU list. -/
theorem Rep.linked_iff (h : Rep s lru) : Linked s a ↔ a ∈ lru := by
  constructor
  · rintro ⟨l, hl, ha⟩
    rwa [h.list.isList.unique hl]
  · exact fun ha => ⟨lru, h.list.isList, ha⟩

/-- A harmless call of the allocator leaves the bytes of the cache alone. -/
theorem Rep.footprint (h : Rep s lru) (hm : Harmless s a m) : ∀ x, Footprint s.hashTable lru x → m.mem x = s.mem x := by
  rintro x (hx | hx | ⟨e, he, hx⟩)
  · exact hm.1.table x hx
  · exact hm.2.bytes x hx
  · exact hm.1.entries e (h.linked_iff.mpr he) x hx

/-- The new page may hold an entry. -/
theorem Rep.isEntry (h : Rep s lru) (hm : Harmless s a m) (ha : a ≠ 0) : IsEntry s.hashTable a ∧ a ∉ lru := by
  obtain ⟨haligned, hlt, hne, hnew⟩ := hm.1.page ha
  exact ⟨⟨haligned, hlt, hne, hm.2.page⟩, fun hin => hnew (h.linked_iff.mpr hin)⟩

/-- `ok` holds of the two calls of `buddy_free_pages` in `page_cache_evict_lru`. -/
def EvictFrees (free : ℕ → Machine A → Machine A) (ok : State A → ℕ → Machine A → Prop) (s : State A) : Prop :=
  ∀ victim s₁, unlinkVictim s = some (victim, s₁) → victim ≠ 0 →
    ok s₁ 0 (free (s₁.get .physicalAddress victim) s₁.toMachine) ∧
      ok (s₁.setMachine (free (s₁.get .physicalAddress victim) s₁.toMachine)) 0
        (free victim (free (s₁.get .physicalAddress victim) s₁.toMachine))

/-- `ok` holds of the call of `buddy_free_pages` in `page_cache_remove`. -/
def RemoveFrees (free : ℕ → Machine A → Machine A) (ok : State A → ℕ → Machine A → Prop) (s : State A)
    (fileId offset : ℕ) : Prop :=
  ∀ entry s₁, unlinkKey s fileId offset = some (entry, s₁) → entry ≠ 0 → ok s₁ 0 (free entry s₁.toMachine)

/-- `ok` holds of the call of `buddy_alloc_pages` for a new entry. -/
def AddAllocates (alloc : Machine A → ℕ × Machine A) (ok : State A → ℕ → Machine A → Prop) (s : State A) : Prop :=
  ok s (alloc s.toMachine).1 (alloc s.toMachine).2

/-- `ok` holds of the calls of the allocator in `page_cache_insert`. -/
def InsertCalls (alloc : Machine A → ℕ × Machine A) (free : ℕ → Machine A → Machine A)
    (ok : State A → ℕ → Machine A → Prop) (s : State A) (fileId offset physAddr : ℕ) : Prop :=
  s.hashTable ≠ 0 → physAddr ≠ 0 → findEntry s fileId offset = some 0 →
    (s.maxPages ≤ s.totalPages → EvictFrees free ok s) ∧
      ∀ s₁, makeRoom free s = some s₁ → AddAllocates alloc ok s₁

section calls

variable {ok ok' : State A → ℕ → Machine A → Prop}

/-- Two conditions on the calls of an eviction. -/
theorem EvictFrees.and (h : EvictFrees free ok s) (h' : EvictFrees free ok' s) :
    EvictFrees free (fun s a m => ok s a m ∧ ok' s a m) s := by
  intro victim s₁ hcall h0
  obtain ⟨h1, h2⟩ := h victim s₁ hcall h0
  obtain ⟨h1', h2'⟩ := h' victim s₁ hcall h0
  exact ⟨⟨h1, h1'⟩, h2, h2'⟩

/-- Two conditions on the call of a removal. -/
theorem RemoveFrees.and {fileId offset : ℕ} (h : RemoveFrees free ok s fileId offset)
    (h' : RemoveFrees free ok' s fileId offset) :
    RemoveFrees free (fun s a m => ok s a m ∧ ok' s a m) s fileId offset :=
  fun entry s₁ hcall h0 => ⟨h entry s₁ hcall h0, h' entry s₁ hcall h0⟩

/-- Two conditions on the calls of an insertion. -/
theorem InsertCalls.and {fileId offset physAddr : ℕ} (h : InsertCalls alloc free ok s fileId offset physAddr)
    (h' : InsertCalls alloc free ok' s fileId offset physAddr) :
    InsertCalls alloc free (fun s a m => ok s a m ∧ ok' s a m) s fileId offset physAddr := by
  intro htable hphys hfind
  obtain ⟨hevict, hadd⟩ := h htable hphys hfind
  obtain ⟨hevict', hadd'⟩ := h' htable hphys hfind
  exact ⟨fun hfull => (hevict hfull).and (hevict' hfull), fun s₁ hroom => ⟨hadd s₁ hroom, hadd' s₁ hroom⟩⟩

end calls

/-! ### Lookup -/

/-- The entry `e` is accessed now; nothing else about the entries `l` changes. -/
structure Touches (s s' : State A) (e : ℕ) (l : List ℕ) : Prop where
  now : s'.body e = (s.key e, s.get .physicalAddress e, s.counter % 2 ^ 64)
  others : ∀ a ∈ l, a ≠ e → s'.body a = s.body a
  hashTable : s'.hashTable = s.hashTable
  maxPages : s'.maxPages = s.maxPages
  counter : s'.counter = Word.add 64 s.counter 1

/-- An access changes no key. -/
theorem Touches.key (h : Touches s s' a l) (hb : b ∈ l) : s'.key b = s.key b := by
  by_cases hba : b = a
  · rw [hba]
    exact congrArg Prod.fst h.now
  · exact key_eq_of_body (h.others b hb hba)

/-- An access changes no page. -/
theorem Touches.physicalAddress (h : Touches s s' a l) (hb : b ∈ l) :
    s'.get .physicalAddress b = s.get .physicalAddress b := by
  by_cases hba : b = a
  · rw [hba]
    exact congrArg (fun x => x.2.1) h.now
  · exact physicalAddress_of_body (h.others b hb hba)

/-- A lookup of a key that no entry has. -/
theorem Rep.lookup_miss (h : Rep s lru) {fileId offset : ℕ}
    (hfind : (lru.find? fun a => s.key a = (fileId, offset)) = none) :
    ∃ s', pageCacheLookup s fileId offset = some (0, s') ∧ Rep s' lru ∧ Keeps s s' lru ∧ Writes s s' lru := by
  unfold pageCacheLookup
  by_cases htable : s.hashTable = 0
  · rw [if_pos htable]
    exact ⟨s, rfl, h, Keeps.refl s lru, fun _ _ => rfl, rfl⟩
  · rw [if_neg htable, h.findEntry_miss htable hfind]
    exact ⟨_, rfl, h.congr (fun _ _ _ _ => rfl) (fun _ _ => rfl) rfl rfl rfl rfl, ⟨fun _ _ => rfl, rfl, rfl, rfl⟩,
      fun _ _ => rfl, rfl⟩

/-- The state after a hit of `page_cache_lookup`. -/
def touched (s : State A) (e : ℕ) : State A :=
  { (getTimestamp s).2.set .lastAccess e s.counter with cacheHits := Word.add 64 s.cacheHits 1 }

/-- A hit writes the time of the access. -/
theorem touched_get (s : State A) (e a : ℕ) : (touched s e).get f a = (s.set .lastAccess e s.counter).get f a := rfl

/-- A lookup that hits returns the page of the entry and sets its time; the LRU list stays as it is. -/
theorem Rep.lookup_hit (h : Rep s lru) {fileId offset e : ℕ}
    (hfind : (lru.find? fun a => s.key a = (fileId, offset)) = some e) :
    ∃ s', pageCacheLookup s fileId offset = some (s.get .physicalAddress e, s') ∧ Rep s' lru ∧
      Touches s s' e lru ∧ Writes s s' lru := by
  have hmem := List.mem_of_find?_eq_some hfind
  have he0 : e ≠ 0 := h.ne_zero hmem
  have htable : s.hashTable ≠ 0 := fun h0 => by simp [h.missing h0] at hmem
  have hfound : findEntry s fileId offset = some e := h.findEntry_hit htable hfind
  have he := h.entry e hmem
  -- the only field written is `lastAccess`
  have hget : ∀ f b, b % pageSize = 0 → (touched s e).get f b =
      if b = e ∧ f = .lastAccess then s.counter % 2 ^ 64 else s.get f b := fun f b hb => by
    rw [touched_get, get_set he.aligned hb]
    rfl
  have hother : ∀ f, f ≠ .lastAccess → ∀ b, b % pageSize = 0 → (touched s e).get f b = s.get f b := fun f hf b hb =>
    (hget f b hb).trans (if_neg fun h => hf h.2)
  refine ⟨touched s e, ?_, h.congr (fun f hf b hb => hother f hf b (h.entry b hb).aligned)
    (fun b hb => slot_set h.aligned he hb) rfl rfl rfl rfl, ⟨?_, fun b hb hbe => ?_, rfl, rfl, rfl⟩, fun x hx => ?_,
    rfl⟩
  · have hphys := hother .physicalAddress (by decide) e he.aligned
    unfold pageCacheLookup
    rw [if_neg htable, hfound]
    simp only [Option.bind_eq_bind, Option.bind_some, ne_eq, he0, not_false_eq_true, if_true]
    rw [← hphys]
    rfl
  · refine Prod.ext (key_congr fun f hf => hother f hf e he.aligned) (Prod.ext ?_ ?_)
    · exact hother .physicalAddress (by decide) e he.aligned
    · exact (hget .lastAccess e he.aligned).trans (if_pos ⟨rfl, rfl⟩)
  · have hsame : ∀ f, (touched s e).get f b = s.get f b := fun f =>
      (hget f b (h.entry b hb).aligned).trans (if_neg fun h => hbe h.1)
    exact body_congr fun f _ => hsame f
  · exact set_mem (not_inPage_of_footprint hx hmem)

/-! ### Unlinking -/

/-- `total_pages` is written. -/
def State.setTotal (s : State A) (n : ℕ) : State A := { s with totalPages := n }

/-- The entries beside one of them. -/
theorem Rep.entry_rest (h : Rep s (l₁ ++ a :: l₂)) : ∀ b ∈ l₁ ++ l₂, IsEntry s.hashTable b := fun b hb =>
  h.entry b (mem_rest hb)

/-- An entry is out of both structures. -/
theorem Rep.removed (h : Rep s (l₁ ++ a :: l₂)) (hkey : ∀ b ∈ l₁ ++ l₂, s'.key b = s.key b)
    (htable' : s'.hashTable = s.hashTable)
    (hlist : IsDList s'.lruNext s'.lruPrev 0 (l₁ ++ l₂) s'.lruHead)
    (htail : s'.lruTail = (l₁ ++ l₂).getLastD 0)
    (hchain : IsList s'.hashNext ((l₁ ++ l₂).filter fun b => s.bucket b = s.bucket a) (s'.slot (s.bucket a)))
    (hslots : ∀ b < defaultHashSize, b ≠ s.bucket a → s'.slot b = s.slot b)
    (hnext : ∀ c ∈ l₁ ++ l₂, s.bucket c ≠ s.bucket a → s'.hashNext c = s.hashNext c)
    {n : ℕ} (hn : n = Word.sub 64 s.totalPages 1) : Rep (s'.setTotal n) (l₁ ++ l₂) := by
  have htable : s.hashTable ≠ 0 := fun h0 => by simpa using h.missing h0
  refine ⟨htable' ▸ h.aligned, fun b hb => htable' ▸ h.entry_rest b hb, hlist, htail, fun _ b hb => ?_,
    fun h0 => absurd (htable'.symm.trans h0) htable, ?_⟩
  · show IsList s'.hashNext ((l₁ ++ l₂).filter fun c => s'.bucket c = b) (s'.slot b)
    have hfilter : (l₁ ++ l₂).filter (fun c => s'.bucket c = b) = (l₁ ++ l₂).filter fun c => s.bucket c = b :=
      List.filter_congr fun c hc => by rw [bucket_eq_of_key (hkey c hc)]
    rw [hfilter]
    by_cases hba : b = s.bucket a
    · rw [hba]
      exact hchain
    · have hold := h.chains htable b hb
      rw [List.filter_append, List.filter_cons_of_neg (by simpa using Ne.symm hba),
        ← List.filter_append] at hold
      rw [hslots b hb hba]
      refine hold.congr fun c hc => hnext c (List.mem_of_mem_filter hc) ?_
      have hcb : s.bucket c = b := by simpa using (List.mem_filter.mp hc).2
      rw [hcb]
      exact hba
  · show n = _
    have hlen := h.length_lt
    rw [hn, h.total, Word.sub_eq (by simp; omega) hlen]
    simp

/-- The chain of an entry, split at the entry. -/
theorem Rep.chain_split (h : Rep s (l₁ ++ a :: l₂)) (htable : s.hashTable ≠ 0) :
    IsList s.hashNext ((l₁.filter fun b => s.bucket b = s.bucket a) ++
      a :: l₂.filter fun b => s.bucket b = s.bucket a) (s.slot (s.bucket a)) := by
  have hchain := h.chains htable (s.bucket a) (bucket_lt s a)
  rwa [List.filter_append, List.filter_cons_of_pos (by simp)] at hchain

/-- The loop over a chain stops at the entry, if that is the first one it accepts. -/
theorem searchPrev_chain {nx : ℕ → ℕ} {p : ℕ → Bool} {h : ℕ} (hchain : IsList nx (l₁ ++ a :: l₂) h)
    (hlt : ∀ b ∈ l₁ ++ a :: l₂, b < 2 ^ 64) (hl₁ : ∀ b ∈ l₁, p b = false) (ha : p a = true) :
    searchPrev nx p walkBound 0 h = some (l₁.getLastD 0, a) :=
  searchPrev_found hchain hl₁ ha (hchain.length_lt hlt (Nat.two_pow_pos 64))

/-- The entries of a chain. -/
theorem Rep.chain_entry (h : Rep s (l₁ ++ a :: l₂)) {p : ℕ → Bool} :
    ∀ b ∈ l₁.filter p ++ a :: l₂.filter p, IsEntry s.hashTable b := fun b hb => h.entry b (by
  simp only [List.mem_append, List.mem_cons, List.mem_filter] at hb ⊢
  tauto)

/-- More entries have more bytes. -/
theorem Footprint.mono {t x : ℕ} (h : Footprint t l x) (hsub : l ⊆ l') : Footprint t l' x := by
  rcases h with h | h | ⟨a, ha, hx⟩
  · exact Or.inl h
  · exact Or.inr (Or.inl h)
  · exact Or.inr (Or.inr ⟨a, hsub ha, hx⟩)

/-- Links are written twice. -/
theorem Relinks.trans {fs fs' : List Field} (h : Relinks s s₁ fs l) (h' : Relinks s₁ s' fs' l') (hsub : l' ⊆ l) :
    Relinks s s' (fs ++ fs') l := by
  have ht := h.hashTable
  refine ⟨fun x hx => ?_, fun f hf b hb => ?_, h'.others.trans h.others⟩
  · rw [h'.mem x fun hx' => hx (by rw [← ht]; exact hx'.mono hsub), h.mem x hx]
  · rw [h'.get f (fun hin => hf (List.mem_append_right _ hin)) b (ht ▸ hb),
      h.get f (fun hin => hf (List.mem_append_left _ hin)) b hb]

/-- The count is apart from the entries. -/
theorem Keeps.setTotal (h : Keeps s s' l) (n : ℕ) : Keeps s (s'.setTotal n) l :=
  ⟨h.body, h.hashTable, h.maxPages, h.counter⟩

/-- The count is apart from memory. -/
theorem Writes.setTotal (h : Writes s s' l) (n : ℕ) : Writes s (s'.setTotal n) l := ⟨h.mem, h.pages⟩

/-- Links are written into the entries. -/
theorem Relinks.writes {fs : List Field} (h : Relinks s s' fs l) : Writes s s' l :=
  ⟨h.mem, congrArg (fun o => o.1) h.others⟩

/-- What is left of two unlinkings. -/
theorem Relinks.keeps {fs : List Field} (h : Relinks s s' fs l) (hfs : fs ⊆ [.hashNext, .lruNext, .lruPrev])
    (hl : ∀ a ∈ l', IsEntry s.hashTable a) : Keeps s s' l' :=
  ⟨fun a ha => body_congr fun f hf => h.get f (fun hin => hf (hfs hin)) a (hl a ha), h.hashTable,
    congrArg (fun o => o.2.2.2.1) h.others, congrArg (fun o => o.2.2.2.2) h.others⟩

/-- Links are no part of the keys. -/
theorem Relinks.key {fs : List Field} (h : Relinks s s' fs l) (hfs : fs ⊆ [.hashNext, .lruNext, .lruPrev])
    (ha : IsEntry s.hashTable a) : s'.key a = s.key a :=
  have hl : ∀ b ∈ [a], IsEntry s.hashTable b := fun _ hb => List.mem_singleton.mp hb ▸ ha
  key_eq_of_body ((h.keeps hfs hl).body a List.mem_cons_self)

/-- The entry is out of its chain; nothing else in any chain is changed. -/
structure Unchained (s s' : State A) (a : ℕ) (l₁ l₂ : List ℕ) : Prop where
  chain : IsList s'.hashNext ((l₁ ++ l₂).filter fun b => s.bucket b = s.bucket a) (s'.slot (s.bucket a))
  slots : ∀ b < defaultHashSize, b ≠ s.bucket a → s'.slot b = s.slot b
  next : ∀ c, IsEntry s.hashTable c → s.bucket c ≠ s.bucket a → s'.hashNext c = s.hashNext c

/-- `hashUnlink_spec` for the chain of an entry, in a state with the same chains. -/
theorem Rep.unchained (h : Rep s (l₁ ++ a :: l₂)) (htable : s₁.hashTable = s.hashTable)
    (hchain : IsList s₁.hashNext ((l₁.filter fun b => s.bucket b = s.bucket a) ++
      a :: l₂.filter fun b => s.bucket b = s.bucket a) (s₁.slot (s.bucket a)))
    (hslots : ∀ b < defaultHashSize, s₁.slot b = s.slot b)
    (hnext : ∀ c, IsEntry s.hashTable c → s₁.hashNext c = s.hashNext c)
    (hs' : s' = hashUnlink s₁ (s.bucket a) ((l₁.filter fun b => s.bucket b = s.bucket a).getLastD 0) a) :
    Unchained s s' a l₁ l₂ ∧ Relinks s₁ s' [.hashNext] (l₁ ++ a :: l₂) ∧ s'.lruHead = s₁.lruHead ∧
      s'.lruTail = s₁.lruTail := by
  have he : ∀ b ∈ (l₁.filter fun b => s.bucket b = s.bucket a) ++
      a :: l₂.filter fun b => s.bucket b = s.bucket a, IsEntry s₁.hashTable b := fun b hb =>
    htable ▸ h.chain_entry b hb
  obtain ⟨hrel, hhead, htail, hslots', hnext', hlist⟩ := hashUnlink_spec
    (fun b hb => he b (List.mem_append_left _ hb)) (htable ▸ h.aligned) (bucket_lt s a) hchain
    (fun b hb => he b (mem_rest hb))
  rw [← hs'] at hrel hhead htail hslots' hnext' hlist
  refine ⟨⟨?_, fun b hb hne => (hslots' b hb hne).trans (hslots b hb), fun c hc hne => ?_⟩, ?_, hhead, htail⟩
  · rw [List.filter_append]
    exact hlist
  · rw [hnext' c (htable ▸ hc) fun hmem => hne (by simpa using (List.mem_filter.mp hmem).2), hnext c hc]
  · refine ⟨fun x hx => hrel.mem x fun hx' => hx (hx'.mono fun b hb => ?_), hrel.get, hrel.others⟩
    exact List.mem_append_left _ (List.mem_of_mem_filter hb)

/-- The two unlinkings in the order of `page_cache_evict_lru`, and the chain before the second one. -/
theorem Rep.lruRemove_hashUnlink (h : Rep s (l₁ ++ a :: l₂)) (htable : s.hashTable ≠ 0) (hs₁ : s₁ = lruRemove s a)
    (hs' : s' = hashUnlink s₁ (s.bucket a) ((l₁.filter fun b => s.bucket b = s.bucket a).getLastD 0) a) :
    IsList s₁.hashNext ((l₁.filter fun b => s.bucket b = s.bucket a) ++
        a :: l₂.filter fun b => s.bucket b = s.bucket a) (s₁.slot (s.bucket a)) ∧
      Rep (s'.setTotal (Word.sub 64 s'.totalPages 1)) (l₁ ++ l₂) ∧
      Relinks s s' [.lruNext, .lruPrev, .hashNext] (l₁ ++ a :: l₂) := by
  obtain ⟨hrel, hslots, hlist, htail⟩ := lruRemove_spec h.entry h.aligned h.list h.tail
  rw [← hs₁] at hrel hslots hlist htail
  have hnext : ∀ c, IsEntry s.hashTable c → s₁.hashNext c = s.hashNext c := fun c hc => hrel.get _ (by decide) c hc
  have hchain : IsList s₁.hashNext ((l₁.filter fun b => s.bucket b = s.bucket a) ++
      a :: l₂.filter fun b => s.bucket b = s.bucket a) (s₁.slot (s.bucket a)) := by
    rw [hslots _ (bucket_lt s a)]
    exact (h.chain_split htable).congr fun c hc => hnext c (h.chain_entry c hc)
  obtain ⟨hun, hrel', hhead', htail'⟩ := h.unchained hrel.hashTable hchain hslots hnext hs'
  have hboth : Relinks s s' [.lruNext, .lruPrev, .hashNext] (l₁ ++ a :: l₂) := hrel.trans hrel' (List.Subset.refl _)
  have hlru : ∀ f, f ≠ .hashNext → ∀ b ∈ l₁ ++ l₂, s'.get f b = s₁.get f b := fun f hf b hb =>
    hrel'.get f (by simpa using hf) b (hrel.hashTable ▸ h.entry_rest b hb)
  have hlist' : IsDList s'.lruNext s'.lruPrev 0 (l₁ ++ l₂) s'.lruHead := by
    rw [hhead']
    exact hlist.congr (fun b hb => hlru _ (by decide) b hb) fun b hb => hlru _ (by decide) b hb
  have hkeys : ∀ b ∈ l₁ ++ l₂, s'.key b = s.key b := fun b hb => hboth.key (by decide) (h.entry_rest b hb)
  refine ⟨hchain, h.removed hkeys hboth.hashTable hlist' (htail'.trans htail) hun.chain hun.slots
    (fun c hc => hun.next c (h.entry_rest c hc)) ?_, hboth⟩
  rw [hboth.totalPages]

/-- The two unlinkings in the order of `page_cache_remove`. -/
theorem Rep.hashUnlink_lruRemove (h : Rep s (l₁ ++ a :: l₂)) (htable : s.hashTable ≠ 0)
    (hs' : s' = lruRemove (hashUnlink s (s.bucket a)
      ((l₁.filter fun b => s.bucket b = s.bucket a).getLastD 0) a) a) :
    Rep (s'.setTotal (Word.sub 64 s'.totalPages 1)) (l₁ ++ l₂) ∧
      Relinks s s' [.hashNext, .lruNext, .lruPrev] (l₁ ++ a :: l₂) := by
  obtain ⟨s₁, hs₁⟩ : ∃ s₁, s₁ = hashUnlink s (s.bucket a)
    ((l₁.filter fun b => s.bucket b = s.bucket a).getLastD 0) a := ⟨_, rfl⟩
  rw [← hs₁] at hs'
  obtain ⟨hun, hrel, hhead, htail⟩ := h.unchained rfl (h.chain_split htable) (fun _ _ => rfl) (fun _ _ => rfl) hs₁
  have hlru : ∀ f, f ≠ .hashNext → ∀ b ∈ l₁ ++ a :: l₂, s₁.get f b = s.get f b := fun f hf b hb =>
    hrel.get f (by simpa using hf) b (h.entry b hb)
  have hlist : IsDList s₁.lruNext s₁.lruPrev 0 (l₁ ++ a :: l₂) s₁.lruHead := by
    rw [hhead]
    exact h.list.congr (fun b hb => hlru _ (by decide) b hb) fun b hb => hlru _ (by decide) b hb
  obtain ⟨hrel', hslots, hlist', htail'⟩ := lruRemove_spec (fun b hb => hrel.hashTable ▸ h.entry b hb)
    (hrel.hashTable ▸ h.aligned) hlist (htail.trans h.tail)
  rw [← hs'] at hrel' hslots hlist' htail'
  have hboth := hrel.trans hrel' (List.Subset.refl _)
  have hentry := h.entry_rest
  have hnext : ∀ c, IsEntry s.hashTable c → s'.hashNext c = s₁.hashNext c := fun c hc =>
    hrel'.get _ (by decide) c (hrel.hashTable ▸ hc)
  refine ⟨h.removed (fun b hb => hboth.key (by decide) (hentry b hb)) hboth.hashTable hlist' htail' ?_
    (fun b hb hne => (hslots b hb).trans (hun.slots b hb hne))
    (fun c hc hne => (hnext c (hentry c hc)).trans (hun.next c (hentry c hc) hne)) ?_, hboth⟩
  · rw [hslots _ (bucket_lt s a)]
    exact hun.chain.congr fun b hb => hnext b (hentry b (List.mem_of_mem_filter hb))
  · rw [hboth.totalPages]

/-! ### Eviction and removal -/

/-- Without entries there is nothing to evict. -/
theorem Rep.unlinkVictim_nil (h : Rep s []) : unlinkVictim s = some (0, s) := by
  unfold unlinkVictim
  by_cases htable : s.hashTable = 0
  · rw [if_pos htable]
  · have htail : s.lruTail = 0 := h.tail
    rw [if_neg htable, if_pos htail]

/-- An eviction from an empty cache does nothing. -/
theorem Rep.evict_nil (h : Rep s []) (free : ℕ → Machine A → Machine A) : pageCacheEvictLru free s = some s := by
  unfold pageCacheEvictLru
  rw [h.unlinkVictim_nil]
  rfl

/-- The last entry is taken out of both structures. -/
theorem Rep.unlinkVictim_concat (h : Rep s (lru ++ [a])) :
    ∃ s', unlinkVictim s = some (a, s') ∧ Rep s' lru ∧ Keeps s s' (lru ++ [a]) ∧ Writes s s' (lru ++ [a]) := by
  have htable : s.hashTable ≠ 0 := fun h0 => by simpa using h.missing h0
  have htail : s.lruTail = a := by rw [h.tail, List.getLastD_concat]
  have ha0 : a ≠ 0 := h.ne_zero (by simp)
  obtain ⟨s₁, hs₁⟩ : ∃ s₁, s₁ = lruRemove s a := ⟨_, rfl⟩
  obtain ⟨s₂, hs₂⟩ : ∃ s₂, s₂ = hashUnlink s₁ (s.bucket a)
    ((lru.filter fun b => s.bucket b = s.bucket a).getLastD 0) a := ⟨_, rfl⟩
  obtain ⟨hchain, hrep, hrel⟩ := h.lruRemove_hashUnlink htable hs₁ hs₂
  obtain ⟨hrel₁, -⟩ := lruRemove_spec h.entry h.aligned h.list h.tail
  rw [← hs₁] at hrel₁
  have hkey : s₁.key a = s.key a := hrel₁.key (by decide) (h.entry a (by simp))
  have hhash : hashFunction (s₁.get .fileId a) (s₁.get .offset a) = s.bucket a := bucket_eq_of_key hkey
  have hfirst : ∀ b ∈ lru.filter (fun b => s.bucket b = s.bucket a), decide (b = a) = false := fun b hb =>
    decide_eq_false (h.list.isList.ne_of_mem_rest (by simpa using List.mem_of_mem_filter hb))
  have hsearch := searchPrev_chain (p := fun b => decide (b = a)) hchain (fun b hb => (h.chain_entry b hb).lt) hfirst
    (decide_eq_true rfl)
  rw [List.append_nil] at hrep
  refine ⟨s₂.setTotal (Word.sub 64 s₂.totalPages 1), ?_, hrep, (hrel.keeps (by decide) h.entry).setTotal _,
    hrel.writes.setTotal _⟩
  unfold unlinkVictim
  rw [if_neg htable, htail, if_neg ha0]
  dsimp only
  rw [← hs₁, hhash, hsearch]
  simp only [Option.bind_eq_bind, Option.bind_some, ne_eq, ha0, not_false_eq_true, if_true, ← hs₂]
  rfl

/-- The end of an eviction that has a victim. -/
theorem evict_eq (hcall : unlinkVictim s = some (a, s₁)) (ha : a ≠ 0) : pageCacheEvictLru free s =
    some (s₁.setMachine (free a (free (s₁.get .physicalAddress a) s₁.toMachine))) := by
  unfold pageCacheEvictLru
  rw [hcall]
  exact if_neg ha

/-- The end of a removal that has found its entry. -/
theorem remove_eq {fileId offset : ℕ} (hcall : unlinkKey s fileId offset = some (a, s₁)) (ha : a ≠ 0) :
    pageCacheRemove free s fileId offset = some (s₁.setMachine (free a s₁.toMachine)) := by
  unfold pageCacheRemove
  rw [hcall]
  exact if_neg ha

/-- `page_cache_evict_lru` drops the last entry and frees its page and its record. -/
theorem Rep.evict (h : Rep s lru) (hok : EvictFrees free Harmless s) :
    ∃ s', pageCacheEvictLru free s = some s' ∧ Rep s' lru.dropLast ∧ Keeps s s' lru.dropLast := by
  rcases List.eq_nil_or_concat lru with rfl | ⟨l, a, rfl⟩
  · exact ⟨s, h.evict_nil free, h, Keeps.refl s _⟩
  · rw [List.concat_eq_append] at h ⊢
    have ha0 : a ≠ 0 := h.ne_zero (by simp)
    obtain ⟨s₁, hcall, hrep, hkeeps, -⟩ := h.unlinkVictim_concat
    obtain ⟨hphys, hvictim⟩ := hok a s₁ hcall ha0
    obtain ⟨m₁, hm₁⟩ : ∃ m₁, m₁ = free (s₁.get .physicalAddress a) s₁.toMachine := ⟨_, rfl⟩
    rw [← hm₁] at hphys hvictim
    have hrep₁ := hrep.setMachine (hrep.footprint hphys)
    have hrep₂ := hrep₁.setMachine (hrep₁.footprint hvictim)
    have hkeeps₁ := (keeps_setMachine (hrep.footprint hphys)).trans (keeps_setMachine (hrep₁.footprint hvictim))
    rw [evict_eq hcall ha0, List.dropLast_concat, ← hm₁]
    exact ⟨(s₁.setMachine m₁).setMachine (free a m₁), rfl, hrep₂,
      (hkeeps.sublist (List.subset_append_left l [a])).trans hkeeps₁⟩

/-- The key is not cached. -/
theorem Rep.unlinkKey_miss (h : Rep s lru) {fileId offset : ℕ}
    (hnone : ∀ a ∈ lru, s.key a ≠ (fileId, offset)) : unlinkKey s fileId offset = some (0, s) := by
  unfold unlinkKey
  by_cases htable : s.hashTable = 0
  · rw [if_pos htable]
  · have hchain := h.chains htable _ (hashFunction_lt fileId offset)
    have hlt := hchain.length_lt (fun b hb => h.lt (List.mem_of_mem_filter hb)) (Nat.two_pow_pos 64)
    have hsearch : searchPrev s.hashNext (fun a => s.key a = (fileId, offset)) walkBound 0
        (s.slot (hashFunction fileId offset)) = some (_, 0) :=
      searchPrev_none hchain (fun b hb => decide_eq_false (hnone b (List.mem_of_mem_filter hb))) hlt
    rw [if_neg htable]
    dsimp only
    rw [hsearch]
    rfl

/-- The first entry with the key is taken out of both structures. -/
theorem Rep.unlinkKey_hit (h : Rep s (l₁ ++ a :: l₂)) {fileId offset : ℕ}
    (hl₁ : ∀ b ∈ l₁, s.key b ≠ (fileId, offset)) (ha : s.key a = (fileId, offset)) :
    ∃ s', unlinkKey s fileId offset = some (a, s') ∧ Rep s' (l₁ ++ l₂) ∧ Keeps s s' (l₁ ++ a :: l₂) ∧
      Writes s s' (l₁ ++ a :: l₂) := by
  have htable : s.hashTable ≠ 0 := fun h0 => by simpa using h.missing h0
  have ha0 : a ≠ 0 := h.ne_zero (by simp)
  have hbucket : s.bucket a = hashFunction fileId offset := by
    unfold State.bucket
    rw [ha]
  have hsearch := searchPrev_chain (p := fun b => s.key b = (fileId, offset)) (h.chain_split htable)
    (fun b hb => (h.chain_entry b hb).lt)
    (fun b hb => decide_eq_false (hl₁ b (List.mem_of_mem_filter hb))) (decide_eq_true ha)
  obtain ⟨s₁, hs₁⟩ : ∃ s₁, s₁ = lruRemove (hashUnlink s (s.bucket a)
    ((l₁.filter fun b => s.bucket b = s.bucket a).getLastD 0) a) a := ⟨_, rfl⟩
  obtain ⟨hrep, hrel⟩ := h.hashUnlink_lruRemove htable hs₁
  refine ⟨s₁.setTotal (Word.sub 64 s₁.totalPages 1), ?_, hrep, (hrel.keeps (by decide) h.entry).setTotal _,
    hrel.writes.setTotal _⟩
  unfold unlinkKey
  rw [if_neg htable]
  dsimp only
  rw [← hbucket, hsearch]
  simp only [Option.bind_eq_bind, Option.bind_some, ne_eq, ha0, not_false_eq_true, if_true, ← hs₁]
  rfl

/-- `page_cache_remove` of a key that no entry has. -/
theorem Rep.remove_miss (h : Rep s lru) (free : ℕ → Machine A → Machine A) {fileId offset : ℕ}
    (hnone : ∀ a ∈ lru, s.key a ≠ (fileId, offset)) :
    pageCacheRemove free s fileId offset = some s := by
  unfold pageCacheRemove
  rw [h.unlinkKey_miss hnone]
  rfl

/-- `page_cache_remove` takes out the first entry with the key and frees its record. -/
theorem Rep.remove_hit (h : Rep s (l₁ ++ a :: l₂)) {fileId offset : ℕ}
    (hl₁ : ∀ b ∈ l₁, s.key b ≠ (fileId, offset)) (ha : s.key a = (fileId, offset))
    (hok : RemoveFrees free Harmless s fileId offset) :
    ∃ s', pageCacheRemove free s fileId offset = some s' ∧ Rep s' (l₁ ++ l₂) ∧ Keeps s s' (l₁ ++ l₂) := by
  have ha0 : a ≠ 0 := h.ne_zero (by simp)
  obtain ⟨s₁, hcall, hrep, hkeeps, -⟩ := h.unlinkKey_hit hl₁ ha
  have hm := hrep.footprint (hok a s₁ hcall ha0)
  exact ⟨s₁.setMachine (free a s₁.toMachine), remove_eq hcall ha0, hrep.setMachine hm,
    (hkeeps.sublist fun b hb => mem_rest hb).trans (keeps_setMachine hm)⟩

/-! ### Insertion -/

/-- What `page_cache_insert` writes into a new entry. -/
def newField (fileId offset physAddr now : ℕ) : Field → ℕ
  | .fileId => fileId
  | .offset => offset
  | .physicalAddress => physAddr
  | .lastAccess => now
  | _ => 0

/-- Arguments of 64 bits. -/
structure IsWords (fileId offset physAddr : ℕ) : Prop where
  fileId_lt : fileId < 2 ^ 64
  offset_lt : offset < 2 ^ 64
  physAddr_lt : physAddr < 2 ^ 64

section insertion

variable {fileId offset physAddr : ℕ}

/-- The fields after a new entry has been filled in. -/
theorem fillEntry_get (ha : a % pageSize = 0) (hb : b % pageSize = 0) (hw : IsWords fileId offset physAddr) :
    (fillEntry s a fileId offset physAddr).get f b =
      if b = a then newField fileId offset physAddr (s.counter % 2 ^ 64) f else s.get f b := by
  obtain ⟨s₁, hs₁⟩ : ∃ s₁, s₁ = ((s.set .fileId a fileId).set .offset a offset).set .physicalAddress a physAddr :=
    ⟨_, rfl⟩
  have hget₁ : ∀ g, s₁.get g b = if b = a ∧ g = .physicalAddress then physAddr
      else if b = a ∧ g = .offset then offset else if b = a ∧ g = .fileId then fileId else s.get g b := fun g => by
    rw [hs₁, get_set_of_lt (f := .physicalAddress) ha hb rfl hw.physAddr_lt,
      get_set_of_lt (f := .offset) ha hb rfl hw.offset_lt, get_set_of_lt (f := .fileId) ha hb rfl hw.fileId_lt]
  have hclock : ∀ g, (getTimestamp s₁).2.get g b = s₁.get g b := fun _ => rfl
  have hcall : fillEntry s a fileId offset physAddr =
      (((((getTimestamp s₁).2.set .lastAccess a s.counter).set .flags a 0).set .hashNext a 0).set .lruNext a 0).set
        .lruPrev a 0 := by
    rw [hs₁]
    rfl
  rw [hcall, get_set_of_lt (f := .lruPrev) ha hb rfl (Nat.two_pow_pos 64),
    get_set_of_lt (f := .lruNext) ha hb rfl (Nat.two_pow_pos 64),
    get_set_of_lt (f := .hashNext) ha hb rfl (Nat.two_pow_pos 64), get_set (f := .flags) ha hb,
    get_set (f := .lastAccess) ha hb, hclock, hget₁]
  by_cases hba : b = a
  · cases f <;> simp [hba, newField, Field.size]
  · simp [hba]

/-- A new entry is written into its page. -/
theorem fillEntry_mem {x : ℕ} (hx : ¬ InPage a x) : (fillEntry s a fileId offset physAddr).mem x = s.mem x := by
  unfold fillEntry getTimestamp
  dsimp only
  rw [set_mem hx, set_mem hx, set_mem hx, set_mem hx, set_mem hx]
  exact (set_mem hx).trans ((set_mem hx).trans (set_mem hx))

/-- The end of `page_cache_insert`, once there is a page for the entry. -/
def linkNew (s : State A) (entry fileId offset physAddr : ℕ) : State A :=
  let hash := hashFunction fileId offset
  let s := fillEntry s entry fileId offset physAddr
  let s := s.set .hashNext entry (s.slot hash)
  let s := s.setSlot hash entry
  let s := lruAddToHead s entry
  { s with totalPages := Word.add 64 s.totalPages 1 }

/-- Without a page for the record nothing is added. -/
theorem addEntry_fail (h : (alloc s.toMachine).1 = 0) (fileId offset physAddr : ℕ) :
    addEntry alloc s fileId offset physAddr = (-1, s.setMachine (alloc s.toMachine).2) := by
  unfold addEntry
  dsimp only
  rw [if_pos h]

/-- The end of an insertion that has got a page. -/
theorem addEntry_eq (ha : (alloc s.toMachine).1 = a) (ha0 : a ≠ 0) (fileId offset physAddr : ℕ) :
    addEntry alloc s fileId offset physAddr =
      (0, linkNew (s.setMachine (alloc s.toMachine).2) a fileId offset physAddr) := by
  unfold addEntry
  dsimp only
  rw [ha, if_neg ha0]
  rfl

/-- The state before `lru_add_to_head`: the new entry is filled in and linked into its chain. -/
def chained (s : State A) (entry fileId offset physAddr : ℕ) : State A :=
  let s := fillEntry s entry fileId offset physAddr
  let s := s.set .hashNext entry (s.slot (hashFunction fileId offset))
  s.setSlot (hashFunction fileId offset) entry

/-- A new entry is chained, and then put at the head of the LRU list. -/
theorem linkNew_eq (s : State A) (a fileId offset physAddr : ℕ) : linkNew s a fileId offset physAddr =
    (lruAddToHead (chained s a fileId offset physAddr) a).setTotal
      (Word.add 64 (lruAddToHead (chained s a fileId offset physAddr) a).totalPages 1) := rfl

section chained

variable (ht : s.hashTable % pageSize = 0) (ha : IsEntry s.hashTable a)

include ht ha

/-- A new entry is beside the bucket array. -/
theorem fillEntry_slot (hb : b < defaultHashSize) : (fillEntry s a fileId offset physAddr).slot b = s.slot b :=
  slot_congr rfl hb fun _ hx => fillEntry_mem (ha.not_inPage ht hx)

/-- The fields after a new entry has been chained. -/
theorem chained_get (hw : IsWords fileId offset physAddr) (hb : IsEntry s.hashTable b) :
    (chained s a fileId offset physAddr).get f b =
      if b = a ∧ f = .hashNext then s.slot (hashFunction fileId offset)
      else if b = a then newField fileId offset physAddr (s.counter % 2 ^ 64) f else s.get f b := by
  unfold chained
  dsimp only
  rw [get_setSlot (s := (fillEntry s a fileId offset physAddr).set .hashNext a _) ht hb (hashFunction_lt _ _),
    get_set_of_lt (f := .hashNext) ha.aligned hb.aligned rfl (slot_lt _ _), fillEntry_slot ht ha (hashFunction_lt _ _),
    fillEntry_get ha.aligned hb.aligned hw]

/-- The bucket array after a new entry has been chained. -/
theorem chained_slot (hb : b < defaultHashSize) : (chained s a fileId offset physAddr).slot b =
    if b = hashFunction fileId offset then a else s.slot b := by
  unfold chained
  dsimp only
  rw [slot_setSlot ha.lt, slot_set (s := fillEntry s a fileId offset physAddr) ht ha hb, fillEntry_slot ht ha hb]

omit ht ha in
/-- A new entry is written into its page and the bucket array. -/
theorem chained_mem {x : ℕ} (hx : ¬ Footprint s.hashTable (a :: l) x) :
    (chained s a fileId offset physAddr).mem x = s.mem x := by
  have hxa := not_inPage_of_footprint hx List.mem_cons_self
  unfold chained
  dsimp only
  rw [setSlot_mem (s := (fillEntry s a fileId offset physAddr).set .hashNext a _) (l := a :: l) (hashFunction_lt _ _)
    hx, set_mem hxa, fillEntry_mem hxa]

end chained

/-- A new entry is at the head of both structures. -/
theorem Rep.cons (h : Rep s lru) (htable : s.hashTable ≠ 0) (ha0 : a ≠ 0) (ha : IsEntry s.hashTable a)
    (hfresh : a ∉ lru) (htable' : s'.hashTable = s.hashTable)
    (hlist : IsDList s'.lruNext s'.lruPrev 0 (a :: lru) s'.lruHead) (htail : s'.lruTail = (a :: lru).getLastD 0)
    (hkeys : ∀ b ∈ lru, s'.key b = s.key b) (hnext : s'.hashNext a = s.slot (s'.bucket a))
    (hnexts : ∀ b ∈ lru, s'.hashNext b = s.hashNext b)
    (hslots : ∀ b < defaultHashSize, s'.slot b = if b = s'.bucket a then a else s.slot b)
    {n : ℕ} (hn : n = Word.add 64 s.totalPages 1) : Rep (s'.setTotal n) (a :: lru) := by
  have hrest : ∀ b < defaultHashSize,
      IsList s'.hashNext (lru.filter fun c => s'.bucket c = b) (s.slot b) := by
    intro b hb
    have hfilter : lru.filter (fun c => s'.bucket c = b) = lru.filter fun c => s.bucket c = b := by
      refine List.filter_congr fun c hc => ?_
      rw [bucket_eq_of_key (hkeys c hc)]
    rw [hfilter]
    exact (h.chains htable b hb).congr fun c hc => hnexts c (List.mem_of_mem_filter hc)
  have hentry : ∀ b ∈ a :: lru, IsEntry s'.hashTable b := fun b hb => by
    rw [htable']
    rcases List.mem_cons.mp hb with rfl | hb'
    · exact ha
    · exact h.entry b hb'
  refine ⟨htable' ▸ h.aligned, hentry, hlist, htail, fun _ b hb => ?_,
    fun h0 => absurd (htable'.symm.trans h0) htable, ?_⟩
  · show IsList s'.hashNext ((a :: lru).filter fun c => s'.bucket c = b) (s'.slot b)
    rw [hslots b hb]
    by_cases hba : b = s'.bucket a
    · rw [if_pos hba, List.filter_cons_of_pos (by simpa using hba.symm)]
      refine ⟨rfl, ha0, ?_⟩
      rw [hnext, ← hba]
      exact hrest b hb
    · rw [if_neg hba, List.filter_cons_of_neg (by simpa using Ne.symm hba)]
      exact hrest b hb
  · have hlen : (a :: lru).length < 2 ^ 64 :=
      length_lt_of_nodup (List.nodup_cons.mpr ⟨hfresh, h.nodup⟩)
        (fun b hb => (List.mem_cons.mp hb).elim (fun e => e ▸ ha0) h.ne_zero)
        (fun b hb => (hentry b hb).lt) (Nat.two_pow_pos 64)
    show n = (a :: lru).length
    rw [hn, h.total]
    exact Word.add_eq hlen

/-- The new entry has the key and the page, and is accessed now; the entries `l` are as they were. -/
structure Adds (s s' : State A) (a : ℕ) (k : ℕ × ℕ) (physAddr : ℕ) (l : List ℕ) : Prop where
  new : s'.body a = (k, physAddr, s.counter % 2 ^ 64)
  others : ∀ b ∈ l, s'.body b = s.body b
  hashTable : s'.hashTable = s.hashTable
  maxPages : s'.maxPages = s.maxPages
  counter : s'.counter = Word.add 64 s.counter 1

/-- The count is apart from the entries. -/
theorem Adds.setTotal {k : ℕ × ℕ} (h : Adds s s' a k physAddr l) (n : ℕ) : Adds s (s'.setTotal n) a k physAddr l :=
  ⟨h.new, h.others, h.hashTable, h.maxPages, h.counter⟩

/-- A new entry, in a page that no entry uses, is put in front. -/
theorem Rep.linkNew (h : Rep s lru) (htable : s.hashTable ≠ 0) (ha : IsEntry s.hashTable a) (ha0 : a ≠ 0)
    (hfresh : a ∉ lru) (hw : IsWords fileId offset physAddr) :
    Rep (PageCache.linkNew s a fileId offset physAddr) (a :: lru) ∧
      Adds s (PageCache.linkNew s a fileId offset physAddr) a (fileId, offset) physAddr lru ∧
      Writes s (PageCache.linkNew s a fileId offset physAddr) (a :: lru) := by
  have hne : ∀ b ∈ lru, b ≠ a := fun b hb e => hfresh (e ▸ hb)
  obtain ⟨s₁, hs₁⟩ : ∃ s₁, s₁ = chained s a fileId offset physAddr := ⟨_, rfl⟩
  have hget : ∀ f b, IsEntry s.hashTable b → s₁.get f b =
      if b = a ∧ f = .hashNext then s.slot (hashFunction fileId offset)
      else if b = a then newField fileId offset physAddr (s.counter % 2 ^ 64) f else s.get f b := fun f b hb =>
    hs₁ ▸ chained_get h.aligned ha hw hb
  have hold : ∀ f, ∀ b ∈ lru, s₁.get f b = s.get f b := fun f b hb => by
    rw [hget f b (h.entry b hb), if_neg fun e => hne b hb e.1, if_neg (hne b hb)]
  have hself : ∀ f, f ≠ .hashNext →
      s₁.get f a = newField fileId offset physAddr (s.counter % 2 ^ 64) f := fun f hf => by
    rw [hget f a ha, if_neg fun e => hf e.2, if_pos rfl]
  have hslot : ∀ b < defaultHashSize, s₁.slot b = if b = hashFunction fileId offset then a else s.slot b := fun b hb =>
    hs₁ ▸ chained_slot h.aligned ha hb
  have hsame : s₁.hashTable = s.hashTable := hs₁ ▸ rfl
  have hhead : s₁.lruHead = s.lruHead := hs₁ ▸ rfl
  have htail : s₁.lruTail = s.lruTail := hs₁ ▸ rfl
  have hlist : IsDList s₁.lruNext s₁.lruPrev 0 lru s₁.lruHead := by
    rw [hhead]
    exact h.list.congr (fun b hb => hold _ b hb) fun b hb => hold _ b hb
  have hentry : ∀ b ∈ a :: lru, IsEntry s₁.hashTable b := fun b hb => by
    rw [hsame]
    rcases List.mem_cons.mp hb with rfl | hb'
    · exact ha
    · exact h.entry b hb'
  obtain ⟨hrel, hslots, hlist', htail'⟩ := lruAddToHead_spec hentry (hsame ▸ h.aligned) hlist (htail.trans h.tail)
    hfresh ha0
  obtain ⟨s₂, hs₂⟩ : ∃ s₂, s₂ = lruAddToHead s₁ a := ⟨_, rfl⟩
  rw [← hs₂] at hrel hslots hlist' htail'
  have hget₂ : ∀ f ∉ [Field.lruNext, .lruPrev], ∀ b ∈ a :: lru, s₂.get f b = s₁.get f b := fun f hf b hb =>
    hrel.get f hf b (hentry b hb)
  have hbody : s₂.body a = ((fileId, offset), physAddr, s.counter % 2 ^ 64) := by
    have hfield : ∀ f ∉ [Field.hashNext, .lruNext, .lruPrev],
        s₂.get f a = newField fileId offset physAddr (s.counter % 2 ^ 64) f := fun f hf =>
      (hget₂ f (fun e => hf (List.mem_cons_of_mem _ e)) a List.mem_cons_self).trans
        (hself f fun e => hf (e ▸ List.mem_cons_self))
    exact Prod.ext (Prod.ext (hfield .fileId (by decide)) (hfield .offset (by decide)))
      (Prod.ext (hfield .physicalAddress (by decide)) (hfield .lastAccess (by decide)))
  have hbodies : ∀ b ∈ lru, s₂.body b = s.body b := fun b hb => body_congr fun f hf =>
    (hget₂ f (fun e => hf (List.mem_cons_of_mem _ e)) b (List.mem_cons_of_mem a hb)).trans (hold f b hb)
  have hbucket : s₂.bucket a = hashFunction fileId offset := by
    have hkey : s₂.key a = (fileId, offset) := congrArg Prod.fst hbody
    unfold State.bucket
    rw [hkey]
  have htotal : s₂.totalPages = s.totalPages := hrel.totalPages.trans (hs₁ ▸ rfl)
  have hadds : Adds s s₂ a (fileId, offset) physAddr lru :=
    ⟨hbody, hbodies, hrel.hashTable.trans hsame, (congrArg (fun o => o.2.2.2.1) hrel.others).trans (hs₁ ▸ rfl),
      (congrArg (fun o => o.2.2.2.2) hrel.others).trans (hs₁ ▸ rfl)⟩
  have hwrites : Writes s s₂ (a :: lru) := by
    refine ⟨fun x hx => ?_, (congrArg (fun o => o.1) hrel.others).trans (hs₁ ▸ rfl)⟩
    rw [hrel.mem x (hsame ▸ hx), hs₁]
    exact chained_mem hx
  rw [linkNew_eq, ← hs₁, ← hs₂]
  refine ⟨h.cons htable ha0 ha hfresh hadds.hashTable hlist' htail' (fun b hb => key_eq_of_body (hbodies b hb)) ?_
    (fun b hb => ?_) (fun b hb => ?_) (by rw [htotal]), hadds.setTotal _, hwrites.setTotal _⟩
  · refine (hget₂ _ (by decide) a List.mem_cons_self).trans ((hget _ a ha).trans ?_)
    rw [if_pos ⟨rfl, rfl⟩, hbucket]
  · exact (hget₂ _ (by decide) b (List.mem_cons_of_mem a hb)).trans (hold _ b hb)
  · rw [hslots b hb, hslot b hb, hbucket]

end insertion

/-- The entries that are left when a full cache has made room. -/
def room (maxPages : ℕ) (lru : List ℕ) : List ℕ := if maxPages ≤ lru.length then lru.dropLast else lru

/-- Making room drops entries only. -/
theorem room_sublist (maxPages : ℕ) (lru : List ℕ) : (room maxPages lru).Sublist lru := by
  unfold room
  split_ifs
  · exact List.dropLast_sublist lru
  · exact List.Sublist.refl lru

/-- At most the last entry goes. -/
theorem mem_room {maxPages : ℕ} (ha : a ∈ lru.dropLast) : a ∈ room maxPages lru := by
  unfold room
  split_ifs
  · exact ha
  · exact List.mem_of_mem_dropLast ha

/-- Making room returns, and drops the last entry where the cache is full. -/
theorem Rep.makeRoom (h : Rep s lru) (hok : s.maxPages ≤ s.totalPages → EvictFrees free Harmless s) :
    ∃ s', makeRoom free s = some s' ∧ Rep s' (room s.maxPages lru) ∧ Keeps s s' (room s.maxPages lru) := by
  unfold PageCache.makeRoom room
  by_cases hfull : s.maxPages ≤ s.totalPages
  · rw [if_pos hfull, if_pos (h.total ▸ hfull)]
    exact h.evict (hok hfull)
  · rw [if_neg hfull, if_neg (h.total ▸ hfull)]
    exact ⟨s, rfl, h, Keeps.refl s _⟩

/-- An allocation for a new entry, and the entry if there is a page for it. -/
theorem Rep.addEntry (h : Rep s lru) (htable : s.hashTable ≠ 0) {fileId offset physAddr : ℕ}
    (hw : IsWords fileId offset physAddr) (hok : AddAllocates alloc Harmless s) :
    (∃ s', PageCache.addEntry alloc s fileId offset physAddr = (-1, s') ∧ Rep s' lru ∧ Keeps s s' lru) ∨
      ∃ s' a, PageCache.addEntry alloc s fileId offset physAddr = (0, s') ∧ a ∉ lru ∧ Rep s' (a :: lru) ∧
        Adds s s' a (fileId, offset) physAddr lru := by
  have hm := h.footprint hok
  have hrep := h.setMachine hm
  have hkeeps := keeps_setMachine hm
  by_cases ha0 : (alloc s.toMachine).1 = 0
  · exact Or.inl ⟨_, addEntry_fail ha0 fileId offset physAddr, hrep, hkeeps⟩
  · obtain ⟨ha, hnew⟩ := h.isEntry hok ha0
    obtain ⟨hrep', hadds, -⟩ := hrep.linkNew htable ha ha0 hnew hw
    refine Or.inr ⟨_, _, addEntry_eq rfl ha0 fileId offset physAddr, hnew, hrep', hadds.new, fun b hb => ?_,
      hadds.hashTable, hadds.maxPages, hadds.counter⟩
    exact (hadds.others b hb).trans (hkeeps.body b hb)

/-- The ways in which `page_cache_insert` ends, with what it returns and the state it leaves. -/
inductive Inserted (s : State A) (lru : List ℕ) (k : ℕ × ℕ) (physAddr : ℕ) : ℤ → State A → List ℕ → Prop
  /-- No table, or no page. -/
  | refused (h : s.hashTable = 0 ∨ physAddr = 0) : Inserted s lru k physAddr (-1) s lru
  /-- The key is cached. -/
  | found (h0 : physAddr ≠ 0) (h : k ∈ lru.map s.key) : Inserted s lru k physAddr 0 s lru
  /-- There is no memory for the entry. -/
  | failed {s' : State A} (h0 : physAddr ≠ 0) (h : k ∉ lru.map s.key)
      (hkeeps : Keeps s s' (room s.maxPages lru)) : Inserted s lru k physAddr (-1) s' (room s.maxPages lru)
  /-- The entry is added. -/
  | added {s₁ s' : State A} {a : ℕ} (h0 : physAddr ≠ 0) (h : k ∉ lru.map s.key)
      (hkeeps : Keeps s s₁ (room s.maxPages lru)) (hnew : a ∉ room s.maxPages lru)
      (hadds : Adds s₁ s' a k physAddr (room s.maxPages lru)) :
      Inserted s lru k physAddr 0 s' (a :: room s.maxPages lru)

/-- `page_cache_insert` ends in one of these ways, if the allocator does no harm. -/
theorem Rep.insert_cases (h : Rep s lru) {fileId offset physAddr : ℕ} (hw : IsWords fileId offset physAddr)
    (hok : InsertCalls alloc free Harmless s fileId offset physAddr) :
    ∃ i s' lru', pageCacheInsert alloc free s fileId offset physAddr = some (i, s') ∧ Rep s' lru' ∧
      Inserted s lru (fileId, offset) physAddr i s' lru' := by
  unfold pageCacheInsert
  by_cases hrefused : s.hashTable = 0 ∨ physAddr = 0
  · rw [if_pos hrefused]
    exact ⟨-1, s, lru, rfl, h, .refused hrefused⟩
  rw [if_neg hrefused]
  obtain ⟨htable, hphys⟩ := not_or.mp hrefused
  rw [h.findEntry_eq htable]
  cases hfind : lru.find? fun a => decide (s.key a = (fileId, offset)) with
  | some e =>
      have hmem := List.mem_of_find?_eq_some hfind
      have he0 : e ≠ 0 := h.ne_zero hmem
      have hkey : s.key e = (fileId, offset) := by
        have hfound := List.find?_some hfind
        exact of_decide_eq_true hfound
      refine ⟨0, s, lru, by simp [he0], h, .found hphys ?_⟩
      exact List.mem_map.mpr ⟨e, hmem, hkey⟩
  | none =>
      have hnot : (fileId, offset) ∉ lru.map s.key := notMem_keys_of_find hfind
      obtain ⟨hevict, hadd⟩ := hok htable hphys (h.findEntry_miss htable hfind)
      obtain ⟨s₁, hroom, hrep, hkeeps⟩ := h.makeRoom hevict
      have htable₁ : s₁.hashTable ≠ 0 := by rwa [hkeeps.hashTable]
      rcases hrep.addEntry htable₁ hw (hadd s₁ hroom) with
        ⟨s', hcall, hrep', hkeeps'⟩ | ⟨s', a, hcall, hnew, hrep', hadds⟩
      · refine ⟨-1, s', _, ?_, hrep', .failed hphys hnot (hkeeps.trans hkeeps')⟩
        simp [hroom, hcall]
      · refine ⟨0, s', _, ?_, hrep', .added hphys hnot hkeeps hnew hadds⟩
        simp [hroom, hcall]

end PrometheusKernel.PageCache
