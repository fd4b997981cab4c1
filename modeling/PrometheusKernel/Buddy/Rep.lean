import PrometheusKernel.Buddy.Lists
import PrometheusKernel.Lib.BuddySystem

/-!
# The allocator represents a buddy system

`Rep r lost lists S s` says that the state `s` of `buddy.c`, managing the region `r`, represents
the configuration `S : BuddySystem n maxOrder`: the free list of order `k`, read from memory, visits
the pages `lists k`, these are the first pages of the free blocks of order `k`, and the counter is
the length of the list. `lost k` counts blocks that the counter includes and the list does not;
it is zero unless the region starts at address 0, whose first block is a null pointer.

The region is any address range that does not wrap; it need not be page-aligned. `n` is the part
of the region laid out so far, and the number of its pages once `buddy_init` is done.

Each primitive step on the lists (`addFree`, `removeFree`) represents the move that the abstract
configuration makes (`Rep.addFree`, `Rep.removeFree`).
-/

namespace PrometheusKernel.Buddy

open ByteMem LinkedList BuddySystem

/-! ### Regions -/

/-- A range of physical addresses that does not wrap. -/
structure Region where
  /-- First address. -/
  start : ℕ
  /-- Length in bytes. -/
  size : ℕ
  /-- The length is a machine word. -/
  size_lt : size < 2 ^ 64
  /-- The range ends at `2 ^ 64` at the latest. -/
  fits : start + size ≤ 2 ^ 64

namespace Region

variable (r : Region)

/-- The number of pages `buddy_init` lays out. -/
def pages : ℕ := bytesToPages r.size

/-- The address of page `i`. -/
def addr (i : ℕ) : ℕ := r.start + i * pageSize

end Region

/-- `bytes_to_pages` rounds up, where the sum does not wrap. -/
theorem bytesToPages_eq (b : ℕ) :
    bytesToPages b = (b + 4095) % 2 ^ 64 / 4096 := by
  unfold bytesToPages Word.sub Word.add pageSize
  norm_num
  omega

/-- Every page starts inside the region. -/
theorem mul_lt_of_lt_bytesToPages {b i : ℕ} (hb : b < 2 ^ 64) (hi : i < bytesToPages b) :
    i * pageSize < b := by
  rw [bytesToPages_eq] at hi
  unfold pageSize
  omega

/-- Rounding up, where the rounding does not wrap. -/
theorem bytesToPages_of_le {b : ℕ} (hb : b + 4095 < 2 ^ 64) :
    bytesToPages b = (b + 4095) / 4096 := by
  rw [bytesToPages_eq, Nat.mod_eq_of_lt hb]

namespace Region

variable {r : Region}

/-- A region has fewer than `2 ^ 52` pages. -/
theorem pages_lt (r : Region) : r.pages < 2 ^ 52 := by
  unfold pages
  rw [bytesToPages_eq]
  omega

/-- Every page starts before the end of the region. -/
theorem addr_lt_end {i : ℕ} (hi : i < r.pages) : r.addr i < r.start + r.size := by
  have := mul_lt_of_lt_bytesToPages r.size_lt hi
  unfold addr
  omega

/-- The address of a page is a word. -/
theorem addr_lt {i : ℕ} (hi : i < r.pages) : r.addr i < 2 ^ 64 :=
  lt_of_lt_of_le (addr_lt_end hi) r.fits

/-- Different pages have different addresses. -/
theorem addr_injective (r : Region) : Function.Injective r.addr := by
  intro i j h
  unfold addr pageSize at h
  omega

/-- The nodes in different pages do not overlap. -/
theorem sep_addr {i j : ℕ} (h : i ≠ j) : Sep (r.addr i) (r.addr j) := by
  unfold Sep addr pageSize
  omega

/-- Only the first page of a region at 0 is null. -/
theorem addr_eq_zero_iff {i : ℕ} : r.addr i = 0 ↔ r.start = 0 ∧ i = 0 := by
  unfold addr pageSize
  omega

end Region

/-! ### The representation -/

/-- `s` represents the configuration `S` of the first `n` pages of the region `r`. -/
structure Rep (r : Region) (lost : ℕ → ℕ) (lists : ℕ → List ℕ) {n : ℕ}
    (S : BuddySystem n maxOrder) (s : State) : Prop where
  /-- Only pages of the region are laid out. -/
  le_pages : n ≤ r.pages
  /-- `g_memory_start`. -/
  memoryStart : s.pages.memoryStart = r.start
  /-- `g_memory_size`. -/
  memorySize : s.pages.memorySize = r.size
  /-- The free lists of the unmovable zone, as they are in memory. -/
  list : ∀ k ≤ maxOrder, IsDList (blockNext s.mem) (blockPrev s.mem) 0 ((lists k).map r.addr)
    ((s.pages.zones .unmovable).freeLists k)
  /-- The lists hold the free blocks. -/
  mem_lists : ∀ k ≤ maxOrder, ∀ i, i ∈ lists k ↔ (i, k) ∈ S.free
  /-- `free_counts`. -/
  counts : ∀ k ≤ maxOrder, (s.pages.zones .unmovable).freeCounts k = (lists k).length + lost k
  /-- The other two zones are empty. -/
  others : ∀ z, z ≠ .unmovable → s.pages.zones z = emptyZone

section frame

/-- The region stays where it is. -/
@[simp] theorem addFree_memoryStart (s : State) (z : ZoneType) (k b : ℕ) :
    (addFree s z k b).pages.memoryStart = s.pages.memoryStart := rfl

/-- The region keeps its size. -/
@[simp] theorem addFree_memorySize (s : State) (z : ZoneType) (k b : ℕ) :
    (addFree s z k b).pages.memorySize = s.pages.memorySize := rfl

/-- The bitmap is not touched. -/
@[simp] theorem addFree_bitmap (s : State) (z : ZoneType) (k b : ℕ) :
    (addFree s z k b).pages.allocationBitmap = s.pages.allocationBitmap := rfl

/-- The region stays where it is. -/
@[simp] theorem removeFree_memoryStart (s : State) (z : ZoneType) (k b : ℕ) :
    (removeFree s z k b).pages.memoryStart = s.pages.memoryStart := rfl

/-- The region keeps its size. -/
@[simp] theorem removeFree_memorySize (s : State) (z : ZoneType) (k b : ℕ) :
    (removeFree s z k b).pages.memorySize = s.pages.memorySize := rfl

/-- The bitmap is not touched. -/
@[simp] theorem removeFree_bitmap (s : State) (z : ZoneType) (k b : ℕ) :
    (removeFree s z k b).pages.allocationBitmap = s.pages.allocationBitmap := rfl

/-- Memory changes by `list_add`. -/
theorem addFree_mem (s : State) (z : ZoneType) (k b : ℕ) :
    (addFree s z k b).mem = (listAdd s.mem ((s.pages.zones z).freeLists k) b).1 := by
  simp only [addFree, setZone]

/-- Memory changes by `list_remove`. -/
theorem removeFree_mem (s : State) (z : ZoneType) (k b : ℕ) :
    (removeFree s z k b).mem = (listRemove s.mem ((s.pages.zones z).freeLists k) b).1 := by
  simp only [removeFree, setZone]

/-- A new free block in the data of its zone. -/
theorem addFree_zone (s : State) (z : ZoneType) (k b : ℕ) :
    (addFree s z k b).pages.zones z =
      { s.pages.zones z with
        freeLists := Function.update (s.pages.zones z).freeLists k b
        freeCounts := Function.update (s.pages.zones z).freeCounts k
          (Word.add 64 ((s.pages.zones z).freeCounts k) 1) } := by
  simp [addFree, setZone, listAdd]

/-- A free block that is taken, in the data of its zone. -/
theorem removeFree_zone (s : State) (z : ZoneType) (k b : ℕ) :
    (removeFree s z k b).pages.zones z =
      { s.pages.zones z with
        freeLists := Function.update (s.pages.zones z).freeLists k
          (listRemove s.mem ((s.pages.zones z).freeLists k) b).2
        freeCounts := Function.update (s.pages.zones z).freeCounts k
          (Word.sub 64 ((s.pages.zones z).freeCounts k) 1) } := by
  simp [removeFree, setZone]

/-- The other zones stay as they are. -/
theorem addFree_zone_of_ne (s : State) {z z' : ZoneType} (h : z' ≠ z) (k b : ℕ) :
    (addFree s z k b).pages.zones z' = s.pages.zones z' := by
  simp [addFree, setZone, h]

/-- The other zones stay as they are. -/
theorem removeFree_zone_of_ne (s : State) {z z' : ZoneType} (h : z' ≠ z) (k b : ℕ) :
    (removeFree s z k b).pages.zones z' = s.pages.zones z' := by
  simp [removeFree, setZone, h]

end frame

namespace Rep

variable {r : Region} {lost : ℕ → ℕ} {lists : ℕ → List ℕ} {n : ℕ} {S : BuddySystem n maxOrder}
  {s : State}

/-- The listed blocks lie in the region. -/
theorem lt_pages (h : Rep r lost lists S s) {k i : ℕ} (hk : k ≤ maxOrder) (hi : i ∈ lists k) :
    i < r.pages := by
  have hfree := (h.mem_lists k hk i).mp hi
  exact lt_of_lt_of_le (S.lt_of_ind (Or.inl hfree) (ind_self _)) h.le_pages

/-- List nodes are first pages of the region. -/
theorem node (h : Rep r lost lists S s) {k a : ℕ} (hk : k ≤ maxOrder)
    (ha : a ∈ (lists k).map r.addr) : ∃ i, i < r.pages ∧ a = r.addr i := by
  obtain ⟨i, hi, rfl⟩ := List.mem_map.mp ha
  exact ⟨i, h.lt_pages hk hi, rfl⟩

/-- The nodes of different blocks do not overlap. -/
theorem node_sep (r : Region) (a b : ℕ) (ha : ∃ i, i < r.pages ∧ a = r.addr i)
    (hb : ∃ i, i < r.pages ∧ b = r.addr i) (hab : a ≠ b) : Sep a b := by
  obtain ⟨i, -, rfl⟩ := ha
  obtain ⟨j, -, rfl⟩ := hb
  exact Region.sep_addr fun e => hab (by rw [e])

/-- A list is empty exactly if its head is null. -/
theorem head_eq_zero_iff (h : Rep r lost lists S s) {k : ℕ} (hk : k ≤ maxOrder) :
    (s.pages.zones .unmovable).freeLists k = 0 ↔ lists k = [] := by
  rw [← (h.list k hk).eq_nil_iff, List.map_eq_nil_iff]

/-- The head of a list that is not empty is on it. -/
theorem head_mem (h : Rep r lost lists S s) {k : ℕ} (hk : k ≤ maxOrder)
    (h0 : (s.pages.zones .unmovable).freeLists k ≠ 0) :
    (s.pages.zones .unmovable).freeLists k ∈ (lists k).map r.addr := by
  have hl := h.list k hk
  cases hlk : (lists k).map r.addr with
  | nil =>
      rw [hlk] at hl
      exact absurd hl h0
  | cons a l =>
      rw [hlk] at hl
      exact hl.1 ▸ List.mem_cons_self

/-- No block is on a list twice. -/
theorem nodup (h : Rep r lost lists S s) {k : ℕ} (hk : k ≤ maxOrder) : (lists k).Nodup :=
  (h.list k hk).isList.nodup.of_map _

/-- A list has at most as many blocks as a region can have pages. -/
theorem length_le (h : Rep r lost lists S s) {k : ℕ} (hk : k ≤ maxOrder) :
    (lists k).length ≤ 2 ^ 52 := by
  have hsub : (lists k).toFinset ⊆ Finset.range r.pages := by
    intro i hi
    exact Finset.mem_range.mpr (h.lt_pages hk (List.mem_toFinset.mp hi))
  have hcard := Finset.card_le_card hsub
  rw [List.toFinset_card_of_nodup (h.nodup hk), Finset.card_range] at hcard
  exact hcard.trans r.pages_lt.le

/-- Lists of different orders have no node in common. -/
theorem lists_disjoint (h : Rep r lost lists S s) {k l a : ℕ} (hk : k ≤ maxOrder)
    (hl : l ≤ maxOrder) (hkl : k ≠ l) (ha : a ∈ (lists k).map r.addr) :
    a ∉ (lists l).map r.addr := by
  intro ha'
  obtain ⟨i, hi, rfl⟩ := List.mem_map.mp ha
  obtain ⟨j, hj, hij⟩ := List.mem_map.mp ha'
  obtain rfl := r.addr_injective hij
  have h1 := (h.mem_lists k hk j).mp hi
  have h2 := (h.mem_lists l hl j).mp hj
  have heq := S.free_eq_of_meet h1 h2 (ind_self (j, k)) (ind_self (j, l))
  exact hkl (Prod.mk.inj heq).2

/-- The address of a free block is a pointer. -/
theorem addr_ne_zero (h : Rep r lost lists S s) {i k : ℕ} (hb : (i, k) ∈ S.free) :
    r.addr i ≠ 0 := by
  have hk := S.free_order _ hb
  exact (h.list k hk).isList.ne_zero
    (List.mem_map.mpr ⟨i, (h.mem_lists k hk i).mpr hb, rfl⟩)

/-- Linking a block into the list of its order represents adding it to the free blocks. -/
theorem addFree (h : Rep r lost lists S s) {i k n' : ℕ} (hk : k ≤ maxOrder) (hi : i < r.pages)
    (h0 : r.addr i ≠ 0) (hnew : ∀ b ∈ S.free, b.1 ≠ i) (hlost : ∀ k, lost k ≤ 1)
    (hn' : n' ≤ r.pages) {S' : BuddySystem n' maxOrder} (hS' : S'.free = insert (i, k) S.free) :
    Rep r lost (Function.update lists k (i :: lists k)) S'
      (Buddy.addFree s .unmovable k (r.addr i)) := by
  have hnotin : ∀ l ≤ maxOrder, r.addr i ∉ (lists l).map r.addr := by
    intro l hl hmem
    obtain ⟨j, hj, hji⟩ := List.mem_map.mp hmem
    exact hnew _ ((h.mem_lists l hl j).mp hj) (r.addr_injective hji)
  have hnode : ∃ j, j < r.pages ∧ r.addr i = r.addr j := ⟨i, hi, rfl⟩
  have hhead : (s.pages.zones .unmovable).freeLists k ≠ 0 →
      ∃ j, j < r.pages ∧ (s.pages.zones .unmovable).freeLists k = r.addr j :=
    fun hne => h.node hk (h.head_mem hk hne)
  have hheadlt : (s.pages.zones .unmovable).freeLists k < 2 ^ 64 := by
    by_cases hne : (s.pages.zones .unmovable).freeLists k = 0
    · rw [hne]
      exact Nat.two_pow_pos 64
    · obtain ⟨j, hj, hj'⟩ := hhead hne
      rw [hj']
      exact Region.addr_lt hj
  refine ⟨hn', by simpa using h.memoryStart, by simpa using h.memorySize, ?_, ?_, ?_, ?_⟩
  · intro l hl
    rw [addFree_mem, addFree_zone]
    by_cases hlk : l = k
    · subst hlk
      simp only [Function.update_self, List.map_cons]
      exact isDList_listAdd (node_sep r) (h.list l hl) (fun a ha => h.node hl ha) hnode h0
        (Region.addr_lt hi) hheadlt (hnotin l hl)
    · simp only [Function.update_of_ne hlk]
      refine isDList_listAdd_other (node_sep r) (h.list l hl) (fun a ha => h.node hl ha) hnode
        hhead (hnotin l hl) fun hmem => ?_
      have hne := (h.list l hl).isList.ne_zero hmem
      exact h.lists_disjoint hk hl (Ne.symm hlk) (h.head_mem hk hne) hmem
  · intro l hl j
    rw [hS', Finset.mem_insert, Prod.mk.injEq]
    by_cases hlk : l = k
    · subst hlk
      rw [Function.update_self, List.mem_cons, h.mem_lists l hl j]
      simp
    · rw [Function.update_of_ne hlk, h.mem_lists l hl j]
      simp [hlk]
  · intro l hl
    rw [addFree_zone]
    by_cases hlk : l = k
    · subst hlk
      have hlen := h.length_le hl
      have hl1 := hlost l
      simp only [Function.update_self, List.length_cons]
      rw [h.counts l hl, Word.add_eq (by omega)]
      omega
    · simp only [Function.update_of_ne hlk]
      exact h.counts l hl
  · intro z hz
    rw [addFree_zone_of_ne s hz]
    exact h.others z hz

/-- Unlinking a free block represents removing it from the free blocks. -/
theorem removeFree (h : Rep r lost lists S s) {i k n' : ℕ} (hb : (i, k) ∈ S.free)
    (hlost : ∀ k, lost k ≤ 1) (hn' : n' ≤ r.pages) {S' : BuddySystem n' maxOrder}
    (hS' : S'.free = S.free.erase (i, k)) :
    Rep r lost (Function.update lists k ((lists k).erase i)) S'
      (Buddy.removeFree s .unmovable k (r.addr i)) := by
  have hk : k ≤ maxOrder := S.free_order _ hb
  have hik : i ∈ lists k := (h.mem_lists k hk i).mpr hb
  obtain ⟨l₁, l₂, hsplit, herase⟩ : ∃ l₁ l₂, lists k = l₁ ++ i :: l₂ ∧
      (lists k).erase i = l₁ ++ l₂ := by
    obtain ⟨l₁, l₂, -, h1, h2⟩ := List.exists_erase_eq hik
    exact ⟨l₁, l₂, h1, h2⟩
  have hlist := h.list k hk
  have hnode : ∀ a ∈ (lists k).map r.addr, ∃ j, j < r.pages ∧ a = r.addr j :=
    fun a ha => h.node hk ha
  rw [hsplit, List.map_append, List.map_cons] at hlist hnode
  refine ⟨hn', by simpa using h.memoryStart, by simpa using h.memorySize, ?_, ?_, ?_, ?_⟩
  · intro l hl
    rw [removeFree_mem, removeFree_zone]
    by_cases hlk : l = k
    · subst hlk
      simp only [Function.update_self, herase, List.map_append]
      exact isDList_listRemove (node_sep r) hlist hnode
    · simp only [Function.update_of_ne hlk]
      refine isDList_listRemove_other (node_sep r) hlist hnode (h.list l hl)
        (fun a ha => h.node hl ha) fun a ha hmem => ?_
      have hmem' : a ∈ (lists k).map r.addr := by
        rw [hsplit, List.map_append, List.map_cons]
        exact hmem
      exact h.lists_disjoint hl hk hlk ha hmem'
  · intro l hl j
    rw [hS', Finset.mem_erase, ne_eq, Prod.mk.injEq]
    by_cases hlk : l = k
    · subst hlk
      rw [Function.update_self, (h.nodup hl).mem_erase_iff, h.mem_lists l hl j]
      simp
    · rw [Function.update_of_ne hlk, h.mem_lists l hl j]
      simp [hlk]
  · intro l hl
    rw [removeFree_zone]
    by_cases hlk : l = k
    · subst hlk
      have hlen := h.length_le hl
      have hpos : 0 < (lists l).length := List.length_pos_of_mem hik
      have hl1 := hlost l
      simp only [Function.update_self]
      rw [h.counts l hl, Word.sub_eq (by omega) (by omega), List.length_erase_of_mem hik]
      omega
    · simp only [Function.update_of_ne hlk]
      exact h.counts l hl
  · intro z hz
    rw [removeFree_zone_of_ne s hz]
    exact h.others z hz

end Rep

end PrometheusKernel.Buddy
