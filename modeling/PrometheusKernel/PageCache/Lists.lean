import PrometheusKernel.PageCache.Model
import PrometheusKernel.Ownership

/-!
# The two structures of the page cache

`Rep s lru` says that the state `s` holds the entries `lru`, newest first. The LRU list is exactly
`lru`; the chain of a bucket is the sublist of `lru` of the entries that hash to it, in the same
order, because both structures are linked at their heads. Each operation then has one lemma that says
what it does to `lru`.

All of it is in memory, so `Rep` also says that no entry is in one of the two pages of the bucket
array (`IsEntry`). Nothing in `page_cache.c` makes that so for the second of them.
-/

namespace PrometheusKernel.PageCache

open ByteMem LinkedList

variable {A : Type} {s s' : State A} {lru l l₁ l₂ : List ℕ} {f g : Field} {t a b c v x : ℕ}

/-- The page at `a` may hold an entry: it is none of the two pages of the bucket array at `t`. -/
structure IsEntry (t a : ℕ) : Prop where
  aligned : a % pageSize = 0
  lt : a < 2 ^ 64
  ne_table : a ≠ t
  ne_behind : a ≠ t + pageSize

/-- The state holds the entries `lru`, newest first. -/
structure Rep (s : State A) (lru : List ℕ) : Prop where
  aligned : s.hashTable % pageSize = 0
  entry : ∀ a ∈ lru, IsEntry s.hashTable a
  list : IsDList s.lruNext s.lruPrev 0 lru s.lruHead
  tail : s.lruTail = lru.getLastD 0
  chains : s.hashTable ≠ 0 → ∀ b < defaultHashSize,
    IsList s.hashNext (lru.filter fun a => s.bucket a = b) (s.slot b)
  missing : s.hashTable = 0 → lru = []
  total : s.totalPages = lru.length

/-- A bucket is one of the array. -/
theorem hashFunction_lt (fileId offset : ℕ) : hashFunction fileId offset < defaultHashSize := by
  have h : hashFunction fileId offset ≤ hashSizeMask := Nat.and_le_right
  unfold hashSizeMask defaultHashSize at *
  omega

/-- The bucket of an entry is one of the array. -/
theorem bucket_lt (s : State A) (a : ℕ) : s.bucket a < defaultHashSize := hashFunction_lt _ _

/-- The bucket only depends on the key. -/
theorem bucket_eq_of_key (h : s'.key a = s.key b) : s'.bucket a = s.bucket b := by
  unfold State.bucket
  rw [h]

/-- No entry is on the LRU list twice. -/
theorem Rep.nodup (h : Rep s lru) : lru.Nodup := h.list.isList.nodup

/-- No entry is null. -/
theorem Rep.ne_zero (h : Rep s lru) (ha : a ∈ lru) : a ≠ 0 := h.list.isList.ne_zero ha

/-- The address of an entry is a word. -/
theorem Rep.lt (h : Rep s lru) (ha : a ∈ lru) : a < 2 ^ 64 := (h.entry a ha).lt

/-- The number of entries is a word. -/
theorem Rep.length_lt (h : Rep s lru) : lru.length < 2 ^ 64 :=
  h.list.isList.length_lt (fun _ ha => h.lt ha) (Nat.two_pow_pos 64)

/-! ### Fields and slots in memory -/

/-- The globals that have nothing to do with the LRU list. -/
def State.others (s : State A) : A × ℕ × ℕ × ℕ × ℕ := (s.pages, s.hashTable, s.totalPages, s.maxPages, s.counter)

/-- The array is one of the other variables. -/
theorem hashTable_of_others (h : s'.others = s.others) : s'.hashTable = s.hashTable := congrArg (fun o => o.2.1) h

section globals

variable (s : State A) (f : Field) (a b v : ℕ)

/-- A field of an entry is apart from the head. -/
@[simp] theorem set_lruHead : (s.set f a v).lruHead = s.lruHead := rfl

/-- A field of an entry is apart from the tail. -/
@[simp] theorem set_lruTail : (s.set f a v).lruTail = s.lruTail := rfl

/-- A field of an entry is apart from the pointer to the array. -/
@[simp] theorem set_hashTable : (s.set f a v).hashTable = s.hashTable := rfl

/-- A field of an entry is apart from the variables. -/
@[simp] theorem set_others : (s.set f a v).others = s.others := rfl

/-- A slot is apart from the head. -/
@[simp] theorem setSlot_lruHead : (s.setSlot b v).lruHead = s.lruHead := rfl

/-- A slot is apart from the tail. -/
@[simp] theorem setSlot_lruTail : (s.setSlot b v).lruTail = s.lruTail := rfl

/-- A slot is apart from the variables. -/
@[simp] theorem setSlot_others : (s.setSlot b v).others = s.others := rfl

end globals

/-- The structure has 64 bytes. -/
theorem Field.pos_add_size_le (f : Field) : f.pos + f.size ≤ 64 := by
  cases f <;> decide

/-- The fields of an entry do not overlap. -/
theorem Field.apart (h : f ≠ g) : f.pos + f.size ≤ g.pos ∨ g.pos + g.size ≤ f.pos := by
  cases f <;> cases g <;> first | exact absurd rfl h | decide

/-- Different pages do not overlap. -/
theorem apart_of_ne (ha : a % pageSize = 0) (hb : b % pageSize = 0) (hne : a ≠ b) :
    a + 4096 ≤ b ∨ b + 4096 ≤ a := by
  unfold pageSize at ha hb
  omega

/-- A field is read after a field was written. -/
theorem get_set (ha : a % pageSize = 0) (hb : b % pageSize = 0) :
    (s.set f a v).get g b = if b = a ∧ g = f then v % 256 ^ f.size else s.get g b := by
  unfold State.set State.get
  have hf := f.pos_add_size_le
  have hg := g.pos_add_size_le
  by_cases hba : b = a
  · by_cases hgf : g = f
    · rw [if_pos ⟨hba, hgf⟩, hba, hgf, load_store_same]
    · rw [if_neg fun h => hgf h.2, hba]
      refine load_store_disjoint ?_
      have := Field.apart hgf
      omega
  · rw [if_neg fun h => hba h.1]
    refine load_store_disjoint ?_
    have := apart_of_ne ha hb (Ne.symm hba)
    omega

/-- A link or a number of 64 bits is written. -/
theorem get_set_of_lt (ha : a % pageSize = 0) (hb : b % pageSize = 0) (hf : f.size = 8) (hv : v < 2 ^ 64) :
    (s.set f a v).get g b = if b = a ∧ g = f then v else s.get g b := by
  rw [get_set ha hb, hf, Nat.mod_eq_of_lt (show v < 256 ^ 8 from hv)]

/-- A field is written into the page of its entry. -/
theorem set_mem (hx : ¬ InPage a x) : (s.set f a v).mem x = s.mem x := by
  refine store_apply_of_lt_or_le ?_
  have hf := f.pos_add_size_le
  unfold InPage pageSize at hx
  omega

/-- A link is a word. -/
theorem lruNext_lt (s : State A) (a : ℕ) : s.lruNext a < 2 ^ 64 := load_eight_lt _ _

/-- A link is a word. -/
theorem lruPrev_lt (s : State A) (a : ℕ) : s.lruPrev a < 2 ^ 64 := load_eight_lt _ _

/-- A link is a word. -/
theorem hashNext_lt (s : State A) (a : ℕ) : s.hashNext a < 2 ^ 64 := load_eight_lt _ _

/-- A slot is a word. -/
theorem slot_lt (s : State A) (b : ℕ) : s.slot b < 2 ^ 64 := load_eight_lt _ _

/-- An entry is no part of the bucket array. -/
theorem slot_set (ht : s.hashTable % pageSize = 0) (ha : IsEntry s.hashTable a) (hb : b < defaultHashSize) :
    (s.set f a v).slot b = s.slot b := by
  have hf := f.pos_add_size_le
  have h1 := apart_of_ne ht ha.aligned ha.ne_table.symm
  have h2 := ha.ne_behind
  have h3 := ha.aligned
  refine load_store_disjoint ?_
  unfold pageSize at ht h2 h3
  unfold pointerSize
  unfold defaultHashSize at hb
  rw [set_hashTable]
  omega

/-- Writing a slot changes no entry. -/
theorem get_setSlot (ht : s.hashTable % pageSize = 0) (ha : IsEntry s.hashTable a) (hb : b < defaultHashSize) :
    (s.setSlot b v).get f a = s.get f a := by
  have hf := f.pos_add_size_le
  have h1 := apart_of_ne ht ha.aligned ha.ne_table.symm
  have h2 := ha.ne_behind
  have h3 := ha.aligned
  refine load_store_disjoint ?_
  unfold pageSize at ht h2 h3
  unfold pointerSize
  unfold defaultHashSize at hb
  omega

/-- The slots after one is written. -/
theorem slot_setSlot (hv : v < 2 ^ 64) : (s.setSlot b v).slot c = if c = b then v else s.slot c := by
  unfold State.setSlot State.slot pointerSize
  by_cases hcb : c = b
  · rw [if_pos hcb, hcb]
    exact load_store_of_lt hv
  · rw [if_neg hcb]
    refine load_store_disjoint ?_
    dsimp only
    omega

/-- The bytes of the cache: the two pages of the bucket array at `t`, and the pages of the entries. -/
def Footprint (t : ℕ) (l : List ℕ) (x : ℕ) : Prop :=
  InPage t x ∨ InPage (t + pageSize) x ∨ ∃ a ∈ l, InPage a x

/-- A slot is written into the bucket array. -/
theorem setSlot_mem (hb : b < defaultHashSize) (hx : ¬ Footprint s.hashTable l x) :
    (s.setSlot b v).mem x = s.mem x := by
  refine store_apply_of_lt_or_le ?_
  unfold Footprint InPage pageSize at hx
  unfold pointerSize
  unfold defaultHashSize at hb
  have h1 : ¬ (s.hashTable ≤ x ∧ x < s.hashTable + 4096) := fun h => hx (Or.inl h)
  have h2 : ¬ (s.hashTable + 4096 ≤ x ∧ x < s.hashTable + 4096 + 4096) := fun h => hx (Or.inr (Or.inl h))
  omega

/-- What is read of an entry only depends on its page. -/
theorem get_congr (h : ∀ x, InPage a x → s'.mem x = s.mem x) : s'.get f a = s.get f a := by
  refine load_congr fun x hx => h x ?_
  have hf := f.pos_add_size_le
  obtain ⟨h1, h2⟩ := hx
  unfold InPage pageSize
  omega

/-- What is read of the bucket array only depends on its two pages. -/
theorem slot_congr (ht : s'.hashTable = s.hashTable) (hb : b < defaultHashSize)
    (h : ∀ x, Footprint s.hashTable [] x → s'.mem x = s.mem x) : s'.slot b = s.slot b := by
  unfold State.slot
  rw [ht]
  refine load_congr fun x hx => h x ?_
  obtain ⟨h1, h2⟩ := hx
  unfold pointerSize at h1 h2
  unfold defaultHashSize at hb
  unfold Footprint InPage pageSize
  rcases Nat.lt_or_ge x (s.hashTable + 4096) with hlt | hge
  · exact Or.inl ⟨by omega, hlt⟩
  · exact Or.inr (Or.inl ⟨hge, by omega⟩)

/-! ### The search for a key -/

/-- The entry with the key, or null. -/
theorem Rep.findEntry_eq (h : Rep s lru) (htable : s.hashTable ≠ 0) (fileId offset : ℕ) :
    findEntry s fileId offset =
      some ((lru.find? fun a => s.key a = (fileId, offset)).getD 0) := by
  unfold findEntry
  have hchain := h.chains htable _ (hashFunction_lt fileId offset)
  rw [search_walkBound hchain fun a ha => h.lt (List.mem_of_mem_filter ha)]
  -- an entry with the key is in the bucket of the key
  have hiff : ∀ a,
      (decide (s.bucket a = hashFunction fileId offset) = true ∧ decide (s.key a = (fileId, offset)) = true) ↔
      s.key a = (fileId, offset) := by
    intro a
    rw [decide_eq_true_iff, decide_eq_true_iff, and_iff_right_iff_imp]
    intro hkey
    unfold State.bucket
    rw [hkey]
  rw [List.find?_filter]
  simp only [hiff]

/-- No entry has a key that is searched in vain. -/
theorem key_ne_of_find {k : ℕ × ℕ} (hfind : (lru.find? fun a => s.key a = k) = none) : ∀ a ∈ lru, s.key a ≠ k :=
  fun a ha => of_decide_eq_false (Bool.eq_false_of_not_eq_true (List.find?_eq_none.mp hfind a ha))

/-- As `key_ne_of_find`, of the list of the keys. -/
theorem notMem_keys_of_find {k : ℕ × ℕ} (hfind : (lru.find? fun a => s.key a = k) = none) : k ∉ lru.map s.key := by
  intro hk
  obtain ⟨e, he, hkey⟩ := List.mem_map.mp hk
  exact key_ne_of_find hfind e he hkey

/-- The search of a key that an entry has. -/
theorem Rep.findEntry_hit (h : Rep s lru) (htable : s.hashTable ≠ 0) {fileId offset e : ℕ}
    (hfind : (lru.find? fun a => s.key a = (fileId, offset)) = some e) : findEntry s fileId offset = some e := by
  rw [h.findEntry_eq htable, hfind, Option.getD_some]

/-- The search of a key that no entry has. -/
theorem Rep.findEntry_miss (h : Rep s lru) (htable : s.hashTable ≠ 0) {fileId offset : ℕ}
    (hfind : (lru.find? fun a => s.key a = (fileId, offset)) = none) : findEntry s fileId offset = some 0 := by
  rw [h.findEntry_eq htable, hfind, Option.getD_none]

/-! ### What the linking functions leave alone -/

/-- Of the entries, memory differs in the given fields only, and beside them only in the bucket array. -/
structure Relinks (s s' : State A) (links : List Field) (l : List ℕ) : Prop where
  mem : ∀ x, ¬ Footprint s.hashTable l x → s'.mem x = s.mem x
  get : ∀ f ∉ links, ∀ b, IsEntry s.hashTable b → s'.get f b = s.get f b
  others : s'.others = s.others

/-- Relinking does not move the array. -/
theorem Relinks.hashTable {links : List Field} (h : Relinks s s' links l) : s'.hashTable = s.hashTable :=
  hashTable_of_others h.others

/-- Relinking counts nothing. -/
theorem Relinks.totalPages {links : List Field} (h : Relinks s s' links l) : s'.totalPages = s.totalPages :=
  congrArg (fun o => o.2.2.1) h.others

/-- An entry is apart from the bucket array. -/
theorem IsEntry.not_inPage (ha : IsEntry t a) (ht : t % pageSize = 0) (hx : Footprint t [] x) : ¬ InPage a x := by
  obtain ⟨haligned, -, hne, hne'⟩ := ha
  unfold InPage
  unfold Footprint InPage at hx
  unfold pageSize at *
  rcases hx with h | h | ⟨b, hb, -⟩
  · omega
  · omega
  · exact absurd hb List.not_mem_nil

/-- A byte that is none of the cache is in no page of an entry. -/
theorem not_inPage_of_footprint (hx : ¬ Footprint t l x) (ha : a ∈ l) : ¬ InPage a x :=
  fun h => hx (Or.inr (Or.inr ⟨a, ha, h⟩))

/-! ### The LRU list -/

/-- The ends of the LRU list are written. -/
def State.setHead (s : State A) (v : ℕ) : State A := { s with lruHead := v }

@[inherit_doc State.setHead]
def State.setTail (s : State A) (v : ℕ) : State A := { s with lruTail := v }

section ends

variable (s : State A) (f : Field) (a v : ℕ)

/-- The head is apart from the entries. -/
@[simp] theorem setHead_get : (s.setHead v).get f a = s.get f a := rfl

/-- The head is apart from the other variables. -/
@[simp] theorem setHead_others : (s.setHead v).others = s.others := rfl

/-- The head is apart from memory. -/
@[simp] theorem setHead_mem : (s.setHead v).mem = s.mem := rfl

/-- The tail is apart from the entries. -/
@[simp] theorem setTail_get : (s.setTail v).get f a = s.get f a := rfl

/-- The tail is apart from the other variables. -/
@[simp] theorem setTail_others : (s.setTail v).others = s.others := rfl

/-- The tail is apart from memory. -/
@[simp] theorem setTail_mem : (s.setTail v).mem = s.mem := rfl

/-- The tail is apart from the head. -/
@[simp] theorem setTail_lruHead : (s.setTail v).lruHead = s.lruHead := rfl

end ends

/-- The state after the first half of `lru_remove`. -/
def bridged (s : State A) (a : ℕ) : State A :=
  if s.lruPrev a ≠ 0 then s.set .lruNext (s.lruPrev a) (s.lruNext a) else s.setHead (s.lruNext a)

/-- The state before `lru_remove` clears the links of the entry itself. -/
def detached (s : State A) (a : ℕ) : State A :=
  if s.lruNext a ≠ 0 then (bridged s a).set .lruPrev (s.lruNext a) (s.lruPrev a)
  else (bridged s a).setTail (s.lruPrev a)

/-- The first half of `lru_remove` changes no other variable. -/
theorem bridged_others : (bridged s a).others = s.others := by
  unfold bridged
  by_cases hp0 : s.lruPrev a = 0
  · rw [if_neg (not_not.mpr hp0), setHead_others]
  · rw [if_pos hp0, set_others]

/-- The unlinking of `lru_remove` changes no other variable. -/
theorem detached_others : (detached s a).others = s.others := by
  unfold detached
  by_cases hn0 : s.lruNext a = 0
  · rw [if_neg (not_not.mpr hn0), setTail_others, bridged_others]
  · rw [if_pos hn0, set_others, bridged_others]

/-- The head after the first half of `lru_remove`. -/
theorem bridged_lruHead : (bridged s a).lruHead = if s.lruPrev a ≠ 0 then s.lruHead else s.lruNext a := by
  unfold bridged
  by_cases hp0 : s.lruPrev a = 0
  · rw [if_neg (not_not.mpr hp0), if_neg (not_not.mpr hp0)]
    rfl
  · rw [if_pos hp0, if_pos hp0, set_lruHead]

/-- The head after the unlinking of `lru_remove`. -/
theorem detached_lruHead : (detached s a).lruHead = if s.lruPrev a ≠ 0 then s.lruHead else s.lruNext a := by
  rw [← bridged_lruHead]
  unfold detached
  by_cases hn0 : s.lruNext a = 0
  · rw [if_neg (not_not.mpr hn0), setTail_lruHead]
  · rw [if_pos hn0, set_lruHead]

/-- The first half of `lru_remove` does not change the tail. -/
theorem bridged_lruTail : (bridged s a).lruTail = s.lruTail := by
  unfold bridged
  by_cases hp0 : s.lruPrev a = 0
  · rw [if_neg (not_not.mpr hp0)]
    rfl
  · rw [if_pos hp0, set_lruTail]

/-- The tail after the unlinking of `lru_remove`. -/
theorem detached_lruTail : (detached s a).lruTail = if s.lruNext a ≠ 0 then s.lruTail else s.lruPrev a := by
  unfold detached
  by_cases hn0 : s.lruNext a = 0
  · rw [if_neg (not_not.mpr hn0), if_neg (not_not.mpr hn0)]
    rfl
  · rw [if_pos hn0, if_pos hn0, set_lruTail, bridged_lruTail]

/-- The first half of `lru_remove` writes into the entry before. -/
theorem bridged_mem (hxp : s.lruPrev a ≠ 0 → ¬ InPage (s.lruPrev a) x) : (bridged s a).mem x = s.mem x := by
  unfold bridged
  by_cases hp0 : s.lruPrev a = 0
  · rw [if_neg (not_not.mpr hp0), setHead_mem]
  · rw [if_pos hp0, set_mem (hxp hp0)]

/-- The unlinking of `lru_remove` writes into the two neighbours. -/
theorem detached_mem (hxp : s.lruPrev a ≠ 0 → ¬ InPage (s.lruPrev a) x)
    (hxn : s.lruNext a ≠ 0 → ¬ InPage (s.lruNext a) x) : (detached s a).mem x = s.mem x := by
  rw [← bridged_mem hxp]
  unfold detached
  by_cases hn0 : s.lruNext a = 0
  · rw [if_neg (not_not.mpr hn0), setTail_mem]
  · rw [if_pos hn0, set_mem (hxn hn0)]

/-- The fields after the first half of `lru_remove`. -/
theorem bridged_get (hp : s.lruPrev a % pageSize = 0) (hb : b % pageSize = 0) : (bridged s a).get g b =
    if s.lruPrev a ≠ 0 ∧ b = s.lruPrev a ∧ g = .lruNext then s.lruNext a else s.get g b := by
  unfold bridged
  by_cases hp0 : s.lruPrev a = 0
  · rw [if_neg (not_not.mpr hp0), if_neg fun h => h.1 hp0, setHead_get]
  · rw [if_pos hp0, get_set_of_lt (f := .lruNext) hp hb rfl (lruNext_lt s a)]
    simp only [ne_eq, hp0, not_false_eq_true, true_and]

/-- The fields after the unlinking of `lru_remove`. -/
theorem detached_get (hp : s.lruPrev a % pageSize = 0) (hn : s.lruNext a % pageSize = 0) (hb : b % pageSize = 0) :
    (detached s a).get g b =
      if s.lruNext a ≠ 0 ∧ b = s.lruNext a ∧ g = .lruPrev then s.lruPrev a
      else if s.lruPrev a ≠ 0 ∧ b = s.lruPrev a ∧ g = .lruNext then s.lruNext a else s.get g b := by
  rw [← bridged_get hp hb]
  unfold detached
  by_cases hn0 : s.lruNext a = 0
  · rw [if_neg (not_not.mpr hn0), if_neg fun h => h.1 hn0, setTail_get]
  · rw [if_pos hn0, get_set_of_lt (f := .lruPrev) hn hb rfl (lruPrev_lt s a)]
    simp only [ne_eq, hn0, not_false_eq_true, true_and]

section lruRemove

variable (ha : a % pageSize = 0) (hp : s.lruPrev a % pageSize = 0) (hpa : s.lruPrev a ≠ a)

include ha hp hpa

/-- The first half does not write to the entry itself. -/
theorem bridged_get_self : (bridged s a).get g a = s.get g a :=
  (bridged_get hp ha).trans (if_neg fun h => hpa h.2.1.symm)

/-- `lru_remove` unlinks the entry and clears its links. -/
theorem lruRemove_eq : lruRemove s a = ((detached s a).set .lruNext a 0).set .lruPrev a 0 := by
  have hnext : (bridged s a).lruNext a = s.lruNext a := bridged_get_self ha hp hpa
  have hprev : (bridged s a).lruPrev a = s.lruPrev a := bridged_get_self ha hp hpa
  unfold detached
  rw [← hnext, ← hprev]
  rfl

/-- What `lru_remove` leaves in the entries. -/
theorem lruRemove_get (hn : s.lruNext a % pageSize = 0) (hb : b % pageSize = 0) :
    (lruRemove s a).get g b =
      if b = a ∧ (g = .lruNext ∨ g = .lruPrev) then 0
      else if s.lruNext a ≠ 0 ∧ b = s.lruNext a ∧ g = .lruPrev then s.lruPrev a
      else if s.lruPrev a ≠ 0 ∧ b = s.lruPrev a ∧ g = .lruNext then s.lruNext a
      else s.get g b := by
  rw [lruRemove_eq ha hp hpa, get_set_of_lt (f := .lruPrev) ha hb rfl (Nat.two_pow_pos 64),
    get_set_of_lt (f := .lruNext) ha hb rfl (Nat.two_pow_pos 64), detached_get hp hn hb]
  by_cases hba : b = a
  · by_cases hgn : g = .lruNext
    · simp [hba, hgn]
    · by_cases hgp : g = .lruPrev <;> simp [hba, hgn, hgp]
  · simp [hba]

/-- The head after `lru_remove`. -/
theorem lruRemove_lruHead : (lruRemove s a).lruHead = if s.lruPrev a ≠ 0 then s.lruHead else s.lruNext a := by
  rw [lruRemove_eq ha hp hpa, set_lruHead, set_lruHead, detached_lruHead]

/-- The tail after `lru_remove`. -/
theorem lruRemove_lruTail : (lruRemove s a).lruTail = if s.lruNext a ≠ 0 then s.lruTail else s.lruPrev a := by
  rw [lruRemove_eq ha hp hpa, set_lruTail, set_lruTail, detached_lruTail]

/-- `lru_remove` writes to the entry and its neighbours. -/
theorem lruRemove_mem (hxa : ¬ InPage a x) (hxp : s.lruPrev a ≠ 0 → ¬ InPage (s.lruPrev a) x)
    (hxn : s.lruNext a ≠ 0 → ¬ InPage (s.lruNext a) x) : (lruRemove s a).mem x = s.mem x := by
  rw [lruRemove_eq ha hp hpa, set_mem hxa, set_mem hxa, detached_mem hxp hxn]

end lruRemove

/-- A neighbour on the LRU list, null or not, is at the start of a page. -/
theorem neighbour_aligned {n : ℕ} (hl : ∀ b ∈ l, IsEntry t b) (h : n ≠ 0 → n ∈ l) : n % pageSize = 0 := by
  by_cases hn : n = 0
  · rw [hn]
    rfl
  · exact (hl n (h hn)).aligned

/-- The entries around an entry are on the list. -/
theorem mem_rest (hb : b ∈ l₁ ++ l₂) : b ∈ l₁ ++ a :: l₂ := by
  simp only [List.mem_append, List.mem_cons] at hb ⊢
  tauto

/-- `lru_remove` takes the entry out of the LRU list and changes nothing but LRU links. -/
theorem lruRemove_spec (he : ∀ b ∈ l₁ ++ a :: l₂, IsEntry s.hashTable b) (ht : s.hashTable % pageSize = 0)
    (hl : IsDList s.lruNext s.lruPrev 0 (l₁ ++ a :: l₂) s.lruHead) (htail : s.lruTail = (l₁ ++ a :: l₂).getLastD 0) :
    Relinks s (lruRemove s a) [.lruNext, .lruPrev] (l₁ ++ a :: l₂) ∧
      (∀ b < defaultHashSize, (lruRemove s a).slot b = s.slot b) ∧
      IsDList (lruRemove s a).lruNext (lruRemove s a).lruPrev 0 (l₁ ++ l₂) (lruRemove s a).lruHead ∧
      (lruRemove s a).lruTail = (l₁ ++ l₂).getLastD 0 := by
  have hsub : ∀ b ∈ l₁ ++ l₂, b ∈ l₁ ++ a :: l₂ := fun b hb => mem_rest hb
  have hne : ∀ b ∈ l₁ ++ l₂, b ≠ a := fun b hb => hl.isList.ne_of_mem_rest hb
  have hne0 : ∀ b ∈ l₁ ++ l₂, b ≠ 0 := fun b hb => hl.isList.ne_zero (hsub b hb)
  have hmem : a ∈ l₁ ++ a :: l₂ := List.mem_append_right _ List.mem_cons_self
  have ha := (he a hmem).aligned
  have hpmem : s.lruPrev a ≠ 0 → s.lruPrev a ∈ l₁ ++ a :: l₂ := fun h0 => hsub _ (hl.pv_mem h0)
  have hnmem : s.lruNext a ≠ 0 → s.lruNext a ∈ l₁ ++ a :: l₂ := fun h0 => hsub _ (hl.nx_mem h0)
  have hp := neighbour_aligned he hpmem
  have hn := neighbour_aligned he hnmem
  have hmem' : ∀ x, (∀ b ∈ l₁ ++ a :: l₂, ¬ InPage b x) → (lruRemove s a).mem x = s.mem x := fun x hx =>
    lruRemove_mem ha hp hl.pv_ne (hx a hmem) (fun h0 => hx _ (hpmem h0)) fun h0 => hx _ (hnmem h0)
  refine ⟨⟨fun x hx => hmem' x fun b hb => not_inPage_of_footprint hx hb, fun f hf b hb => ?_, ?_⟩, fun b hb => ?_, ?_,
    ?_⟩
  · have hfn : f ≠ .lruNext := fun h => hf (by simp [h])
    have hfp : f ≠ .lruPrev := fun h => hf (by simp [h])
    rw [lruRemove_get ha hp hl.pv_ne hn hb.aligned]
    simp only [hfn, hfp, or_self, and_false, if_false]
  · rw [lruRemove_eq ha hp hl.pv_ne, set_others, set_others, detached_others]
  · refine slot_congr ?_ hb fun x hx => hmem' x fun b hb => (he b hb).not_inPage ht hx
    rw [lruRemove_eq ha hp hl.pv_ne, set_hashTable, set_hashTable]
    exact hashTable_of_others detached_others
  · have hhead : (lruRemove s a).lruHead = if l₁ = [] then s.lruNext a else s.lruHead := by
      rw [lruRemove_lruHead ha hp hl.pv_ne]
      simp only [ne_eq, hl.pv_eq_zero_iff, ite_not]
    rw [hhead]
    refine hl.remove hl.isList.nodup (fun h => hl.isList.ne_zero h rfl) (fun b hb => ?_) fun b hb => ?_
    · have hz : b = s.lruPrev a → s.lruPrev a ≠ 0 := fun e => e ▸ hne0 b hb
      have hget : (lruRemove s a).lruNext b = _ := lruRemove_get ha hp hl.pv_ne hn (he b (hsub b hb)).aligned
      rw [hget]
      simp only [hne b hb, false_and, if_false, reduceCtorEq, and_false, and_true, and_iff_right_of_imp hz]
      rfl
    · have hz : b = s.lruNext a → s.lruNext a ≠ 0 := fun e => e ▸ hne0 b hb
      have hget : (lruRemove s a).lruPrev b = _ := lruRemove_get ha hp hl.pv_ne hn (he b (hsub b hb)).aligned
      rw [hget]
      simp only [hne b hb, false_and, if_false, reduceCtorEq, and_false, and_true, and_iff_right_of_imp hz]
      rfl
  · rw [lruRemove_lruTail ha hp hl.pv_ne, getLastD_remove l₁ l₂ a, ← htail, ← List.getLast_eq_getLastD (by simp),
      ← hl.pv_eq]
    simp only [ne_eq, hl.nx_eq_zero_iff, ite_not]

/-- The state before `lru_add_to_head` sets the ends of the list. -/
def attached (s : State A) (a : ℕ) : State A :=
  let s₁ := (s.set .lruNext a s.lruHead).set .lruPrev a 0
  if s.lruHead ≠ 0 then s₁.set .lruPrev s.lruHead a else s₁

/-- The links of a new entry change no variable. -/
theorem attached_others : (attached s a).others = s.others := by
  unfold attached
  by_cases h0 : s.lruHead = 0
  · rw [if_neg (not_not.mpr h0), set_others, set_others]
  · rw [if_pos h0, set_others, set_others, set_others]

/-- The links of a new entry do not change the tail. -/
theorem attached_lruTail : (attached s a).lruTail = s.lruTail := by
  unfold attached
  by_cases h0 : s.lruHead = 0
  · rw [if_neg (not_not.mpr h0), set_lruTail, set_lruTail]
  · rw [if_pos h0, set_lruTail, set_lruTail, set_lruTail]

/-- The links of a new entry are written into it and the old head. -/
theorem attached_mem (hxa : ¬ InPage a x) (hxh : s.lruHead ≠ 0 → ¬ InPage s.lruHead x) :
    (attached s a).mem x = s.mem x := by
  unfold attached
  by_cases h0 : s.lruHead = 0
  · rw [if_neg (not_not.mpr h0), set_mem hxa, set_mem hxa]
  · rw [if_pos h0, set_mem (hxh h0), set_mem hxa, set_mem hxa]

/-- The fields after a new entry has got its links. -/
theorem attached_get (ha : a % pageSize = 0) (halt : a < 2 ^ 64) (hh : s.lruHead % pageSize = 0)
    (hhlt : s.lruHead < 2 ^ 64) (hb : b % pageSize = 0) :
    (attached s a).get g b =
      if s.lruHead ≠ 0 ∧ b = s.lruHead ∧ g = .lruPrev then a
      else if b = a ∧ g = .lruPrev then 0
      else if b = a ∧ g = .lruNext then s.lruHead else s.get g b := by
  unfold attached
  by_cases h0 : s.lruHead = 0
  · rw [if_neg (not_not.mpr h0), if_neg fun h => h.1 h0,
      get_set_of_lt (f := .lruPrev) ha hb rfl (Nat.two_pow_pos 64), get_set_of_lt (f := .lruNext) ha hb rfl hhlt]
  · rw [if_pos h0, get_set_of_lt (f := .lruPrev) hh hb rfl halt,
      get_set_of_lt (f := .lruPrev) ha hb rfl (Nat.two_pow_pos 64), get_set_of_lt (f := .lruNext) ha hb rfl hhlt]
    simp only [ne_eq, h0, not_false_eq_true, true_and]

/-- `lru_add_to_head` links the entry and sets the head, and the tail of an empty list. -/
theorem lruAddToHead_eq : lruAddToHead s a =
    if s.lruTail = 0 then ((attached s a).setHead a).setTail a else (attached s a).setHead a := by
  rw [← attached_lruTail (s := s) (a := a)]
  rfl

/-- The fields after `lru_add_to_head`. -/
theorem lruAddToHead_get : (lruAddToHead s a).get g b = (attached s a).get g b := by
  rw [lruAddToHead_eq]
  by_cases h0 : s.lruTail = 0
  · rw [if_pos h0, setTail_get, setHead_get]
  · rw [if_neg h0, setHead_get]

/-- `lru_add_to_head` writes the links. -/
theorem lruAddToHead_mem : (lruAddToHead s a).mem = (attached s a).mem := by
  rw [lruAddToHead_eq]
  by_cases h0 : s.lruTail = 0
  · rw [if_pos h0, setTail_mem, setHead_mem]
  · rw [if_neg h0, setHead_mem]

/-- `lru_add_to_head` changes no other variable. -/
theorem lruAddToHead_others : (lruAddToHead s a).others = s.others := by
  rw [← attached_others (s := s) (a := a), lruAddToHead_eq]
  by_cases h0 : s.lruTail = 0
  · rw [if_pos h0, setTail_others, setHead_others]
  · rw [if_neg h0, setHead_others]

/-- The new entry is the head. -/
theorem lruAddToHead_lruHead : (lruAddToHead s a).lruHead = a := by
  rw [lruAddToHead_eq]
  by_cases h0 : s.lruTail = 0
  · rw [if_pos h0]
    rfl
  · rw [if_neg h0]
    rfl

/-- The new entry is the tail of an empty list. -/
theorem lruAddToHead_lruTail : (lruAddToHead s a).lruTail = if s.lruTail = 0 then a else s.lruTail := by
  rw [lruAddToHead_eq]
  by_cases h0 : s.lruTail = 0
  · rw [if_pos h0, if_pos h0]
    rfl
  · rw [if_neg h0, if_neg h0, ← attached_lruTail (s := s) (a := a)]
    rfl

/-- `lru_add_to_head` links a new entry in front and changes nothing but LRU links. -/
theorem lruAddToHead_spec (he : ∀ b ∈ a :: lru, IsEntry s.hashTable b) (ht : s.hashTable % pageSize = 0)
    (hl : IsDList s.lruNext s.lruPrev 0 lru s.lruHead) (htail : s.lruTail = lru.getLastD 0) (hnew : a ∉ lru)
    (ha0 : a ≠ 0) :
    Relinks s (lruAddToHead s a) [.lruNext, .lruPrev] (a :: lru) ∧
      (∀ b < defaultHashSize, (lruAddToHead s a).slot b = s.slot b) ∧
      IsDList (lruAddToHead s a).lruNext (lruAddToHead s a).lruPrev 0 (a :: lru) (lruAddToHead s a).lruHead ∧
      (lruAddToHead s a).lruTail = (a :: lru).getLastD 0 := by
  have hmem : s.lruHead ≠ 0 → s.lruHead ∈ a :: lru := fun h0 => by
    cases lru with
    | nil => exact absurd hl h0
    | cons c l => exact hl.1 ▸ List.mem_cons_of_mem a List.mem_cons_self
  have ha := (he a List.mem_cons_self).aligned
  have halt := (he a List.mem_cons_self).lt
  have hhead := neighbour_aligned he hmem
  have hne : ∀ b ∈ lru, b ≠ a := fun b hb e => hnew (e ▸ hb)
  have hha : s.lruHead ≠ a := by
    intro e
    cases lru with
    | nil => exact ha0 (e ▸ hl)
    | cons c l => exact hne c List.mem_cons_self (hl.1 ▸ e)
  have hlt : s.lruHead < 2 ^ 64 := by
    by_cases h0 : s.lruHead = 0
    · rw [h0]
      exact Nat.two_pow_pos 64
    · exact (he _ (hmem h0)).lt
  have hmem' : ∀ x, (∀ b ∈ a :: lru, ¬ InPage b x) → (lruAddToHead s a).mem x = s.mem x := fun x hx => by
    rw [lruAddToHead_mem]
    exact attached_mem (hx a List.mem_cons_self) fun h0 => hx _ (hmem h0)
  have hget : ∀ g b, b % pageSize = 0 → (lruAddToHead s a).get g b =
      if s.lruHead ≠ 0 ∧ b = s.lruHead ∧ g = .lruPrev then a
      else if b = a ∧ g = .lruPrev then 0
      else if b = a ∧ g = .lruNext then s.lruHead else s.get g b := fun g b hb => by
    rw [lruAddToHead_get]
    exact attached_get ha halt hhead hlt hb
  have hcons : ∀ b ∈ lru, b % pageSize = 0 := fun b hb => (he b (List.mem_cons_of_mem a hb)).aligned
  refine ⟨⟨fun x hx => hmem' x fun b hb => not_inPage_of_footprint hx hb, fun f hf b hb => ?_, lruAddToHead_others⟩,
    fun b hb => ?_, ?_, ?_⟩
  · have hfn : f ≠ .lruNext := fun h => hf (by simp [h])
    have hfp : f ≠ .lruPrev := fun h => hf (by simp [h])
    rw [hget f b hb.aligned]
    simp only [hfn, hfp, and_false, if_false]
  · exact slot_congr (hashTable_of_others lruAddToHead_others) hb fun x hx =>
      hmem' x fun b hb => (he b hb).not_inPage ht hx
  · rw [lruAddToHead_lruHead]
    refine hl.push ha0 ?_ ?_ (fun h0 => ?_) (fun b hb => ?_) fun b hb hbh => ?_
    · refine (hget _ a ha).trans ?_
      simp
    · refine (hget _ a ha).trans ?_
      simp [hha.symm]
    · refine (hget _ _ hhead).trans ?_
      simp [h0]
    · refine (hget _ b (hcons b hb)).trans ?_
      simp [hne b hb, State.lruNext]
    · refine (hget _ b (hcons b hb)).trans ?_
      simp [hne b hb, hbh, State.lruPrev]
  · rw [lruAddToHead_lruTail, List.getLastD_cons, htail]
    rcases List.eq_nil_or_concat lru with rfl | ⟨l, c, rfl⟩
    · rfl
    · have hc : c ≠ 0 := hl.isList.ne_zero (by simp)
      rw [List.concat_eq_append, List.getLastD_concat, List.getLastD_concat, if_neg hc]

/-! ### The chains -/

/-- The entry is taken out of its chain and nothing but a slot or a chain link changes. -/
theorem hashUnlink_spec {hash : ℕ} (he : ∀ b ∈ l₁, IsEntry s.hashTable b) (ht : s.hashTable % pageSize = 0)
    (hhash : hash < defaultHashSize) (hl : IsList s.hashNext (l₁ ++ a :: l₂) (s.slot hash))
    (he' : ∀ b ∈ l₁ ++ l₂, IsEntry s.hashTable b) :
    Relinks s (hashUnlink s hash (l₁.getLastD 0) a) [.hashNext] l₁ ∧
      (hashUnlink s hash (l₁.getLastD 0) a).lruHead = s.lruHead ∧
      (hashUnlink s hash (l₁.getLastD 0) a).lruTail = s.lruTail ∧
      (∀ h < defaultHashSize, h ≠ hash → (hashUnlink s hash (l₁.getLastD 0) a).slot h = s.slot h) ∧
      (∀ b, IsEntry s.hashTable b → b ∉ l₁ → (hashUnlink s hash (l₁.getLastD 0) a).hashNext b = s.hashNext b) ∧
      IsList (hashUnlink s hash (l₁.getLastD 0) a).hashNext (l₁ ++ l₂)
        ((hashUnlink s hash (l₁.getLastD 0) a).slot hash) := by
  rcases List.eq_nil_or_concat l₁ with rfl | ⟨l, c, rfl⟩
  · have hcall : hashUnlink s hash (List.getLastD [] 0) a = s.setSlot hash (s.hashNext a) := rfl
    rw [hcall]
    have hget : ∀ f b, IsEntry s.hashTable b → (s.setSlot hash (s.hashNext a)).get f b = s.get f b :=
      fun f b hb => get_setSlot ht hb hhash
    refine ⟨⟨fun x hx => setSlot_mem hhash hx, fun f _ => hget f, setSlot_others ..⟩, rfl, rfl, fun h _ hne => ?_,
      fun b hb _ => hget _ b hb, ?_⟩
    · rw [slot_setSlot (hashNext_lt s a), if_neg hne]
    · rw [slot_setSlot (hashNext_lt s a), if_pos rfl]
      exact hl.2.2.congr fun b hb => hget _ b (he' b hb)
  · rw [List.concat_eq_append] at he hl he' ⊢
    have hcmem : c ∈ l ++ [c] := List.mem_append_right l (List.mem_singleton_self c)
    have hc0 : c ≠ 0 := hl.ne_zero (List.mem_append_left _ hcmem)
    have hcall : hashUnlink s hash ((l ++ [c]).getLastD 0) a = s.set .hashNext c (s.hashNext a) := by
      rw [List.getLastD_concat]
      exact if_neg hc0
    rw [hcall]
    have hget : ∀ f b, IsEntry s.hashTable b → (s.set .hashNext c (s.hashNext a)).get f b =
        if b = c ∧ f = .hashNext then s.hashNext a else s.get f b := fun f b hb =>
      get_set_of_lt (he c hcmem).aligned hb.aligned rfl (hashNext_lt s a)
    have hslot : ∀ h < defaultHashSize, (s.set .hashNext c (s.hashNext a)).slot h = s.slot h := fun h hh =>
      slot_set ht (he c hcmem) hh
    refine ⟨⟨fun x hx => set_mem (not_inPage_of_footprint hx hcmem), fun f hf b hb => ?_, set_others ..⟩, rfl, rfl,
      fun h hh _ => hslot h hh, fun b hb hnot => ?_, ?_⟩
    · rw [hget f b hb, if_neg fun h => hf (by simp [h.2])]
    · refine (hget _ b hb).trans (if_neg fun h => hnot ?_)
      rw [h.1]
      exact hcmem
    · rw [hslot hash hhash]
      have hremove : IsList (s.set .hashNext c (s.hashNext a)).hashNext (l ++ [c] ++ l₂)
          (if l ++ [c] = [] then s.hashNext a else s.slot hash) := hl.remove fun b hb => by
        rw [List.getLastD_concat]
        refine (hget _ b (he' b hb)).trans ?_
        simp only [and_true]
        rfl
      rwa [if_neg (by simp)] at hremove

end PrometheusKernel.PageCache
