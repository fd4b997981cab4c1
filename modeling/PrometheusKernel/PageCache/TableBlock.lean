import PrometheusKernel.PageCache.OnBuddy

/-!
# The bucket array and the block it lies in

`page_cache_init` works out how many pages its bucket array needs and then asks for a block of order 0. The array has
1024 slots of 8 bytes, two pages; `memset` clears both. This module is about the bytes: `initTable` is the part of
`page_cache_init` that touches memory, and `slotAddr` the address that `hash_table[hash]` has in the other functions.

A slot lies in the block exactly when its index is below 512 (`slot_inside_iff`), so half of the array, and half of what
`memset` clears, is in the page behind the block, whoever holds that (`table_overruns`, `neighbour_cleared`).
`pageCacheInit_eq_initTable` connects this with `PageCache.Model`.
-/

namespace PrometheusKernel.PageCache

open ByteMem

/-- `page_cache_init`, the bucket array: its address, and the allocator with memory. -/
def initTable (b : Buddy.State) : ℕ × Buddy.State :=
  let (hashTableAddr, b) := OnBuddy.allocPage b
  if hashTableAddr = 0 then (0, b)
  else (hashTableAddr, { b with mem := fill (Word.mul 64 defaultHashSize pointerSize) b.mem hashTableAddr 0 })

/-- `&hash_table[hash_function(file_id, offset)]`. -/
def slotAddr (hashTable fileId offset : ℕ) : ℕ := hashTable + hashFunction fileId offset * pointerSize

/-- The slot for a key lies in the block of the bucket array. -/
def SlotInside (hashTable fileId offset : ℕ) : Prop :=
  ∀ x, slotAddr hashTable fileId offset ≤ x → x < slotAddr hashTable fileId offset + pointerSize →
    Buddy.InBlock (hashTable, 0) x

/-- After the block is obtained, `page_cache_init` writes into it only, and all slots lie in it. -/
structure StaysInside (b : Buddy.State) : Prop where
  writes : ∀ x, ¬ Buddy.InBlock ((initTable b).1, 0) x → (initTable b).2.mem x = (OnBuddy.allocPage b).2.mem x
  slots : ∀ fileId < 2 ^ 64, ∀ offset < 2 ^ 64, SlotInside (initTable b).1 fileId offset

section table

variable {b : Buddy.State}

/-- The table is the page that the allocator hands out. -/
theorem initTable_fst (b : Buddy.State) : (initTable b).1 = (OnBuddy.allocPage b).1 := by
  unfold initTable
  dsimp only
  split_ifs with h0
  · exact h0.symm
  · rfl

/-- `memset` clears two pages and nothing else. -/
theorem initTable_mem (h0 : (OnBuddy.allocPage b).1 ≠ 0) (x : ℕ) :
    (initTable b).2.mem x = if (initTable b).1 ≤ x ∧ x < (initTable b).1 + 2 * pageSize then 0
      else (OnBuddy.allocPage b).2.mem x := by
  rw [initTable_fst]
  unfold initTable
  rw [tableBytes]
  simp only [if_neg h0, fill_apply]

/-- The second half of the array is behind the block. -/
theorem slot_inside_iff (hashTable fileId offset : ℕ) :
    SlotInside hashTable fileId offset ↔ hashFunction fileId offset < 512 := by
  unfold SlotInside Buddy.InBlock slotAddr pointerSize pageSize
  constructor
  · intro h
    have hlast := (h (hashTable + hashFunction fileId offset * 8 + 7) (Nat.le_add_right _ _) (by omega)).2
    dsimp only at hlast
    omega
  · intro h x h1 h2
    dsimp only
    omega

/-- In every state in which `page_cache_init` obtains its block, it clears the page behind the block as well, the slots
from 512 on lie in that page, and so the array does not stay inside. -/
theorem table_overruns (b : Buddy.State) (h0 : (OnBuddy.allocPage b).1 ≠ 0) :
    ¬ StaysInside b ∧
      (∀ x, (initTable b).1 + pageSize ≤ x → x < (initTable b).1 + 2 * pageSize → (initTable b).2.mem x = 0) ∧
      ∀ fileId offset, SlotInside (initTable b).1 fileId offset ↔ hashFunction fileId offset < 512 := by
  refine ⟨fun h => ?_, fun x h1 h2 => ?_, slot_inside_iff _⟩
  · have hinside := (slot_inside_iff _ 2 0).mp (h.slots 2 (by norm_num) 0 (by norm_num))
    exact absurd hinside (by decide)
  · rw [initTable_mem h0, if_pos ⟨(Nat.le_add_right _ _).trans h1, h2⟩]

/-- The bucket array and the machine after `page_cache_init`, and the address of a slot in the other functions. -/
theorem pageCacheInit_eq_initTable (s : State Buddy.BuddyGlobals) (maxPages : ℕ) :
    (pageCacheInit OnBuddy.allocPage s maxPages).hashTable = (initTable s.toMachine).1 ∧
      (pageCacheInit OnBuddy.allocPage s maxPages).toMachine = (initTable s.toMachine).2 ∧
      ∀ fileId offset, (pageCacheInit OnBuddy.allocPage s maxPages).slot (hashFunction fileId offset) =
        load pointerSize (initTable s.toMachine).2.mem (slotAddr (initTable s.toMachine).1 fileId offset) := by
  obtain ⟨htable, hmachine⟩ : (pageCacheInit OnBuddy.allocPage s maxPages).hashTable = (initTable s.toMachine).1 ∧
      (pageCacheInit OnBuddy.allocPage s maxPages).toMachine = (initTable s.toMachine).2 := by
    unfold initTable pageCacheInit State.setMachine
    dsimp only
    split_ifs
    · exact ⟨rfl, rfl⟩
    · exact ⟨rfl, rfl⟩
  refine ⟨htable, hmachine, fun fileId offset => ?_⟩
  rw [← htable, ← hmachine]
  rfl

end table

/-- The table of a small region. -/
theorem table_overruns_sample :
    (OnBuddy.allocPage (Buddy.boot (fun _ => 0) 0x1000 0x3000).state).1 ≠ 0 ∧
      ¬ StaysInside (Buddy.boot (fun _ => 0) 0x1000 0x3000).state := by
  have h0 : (OnBuddy.allocPage (Buddy.boot (fun _ => 0) 0x1000 0x3000).state).1 ≠ 0 := by decide +kernel
  exact ⟨h0, (table_overruns _ h0).1⟩

/-- Of three pages a client holds the last and has written to it; the bucket array gets the one before it. -/
theorem neighbour_cleared :
    ¬ ∀ (m : Mem) (memoryStart memorySize : ℕ) (ops : List Buddy.Op),
        Buddy.ValidRun (Buddy.boot m memoryStart memorySize) ops → ∀ c,
        Buddy.exec (Buddy.boot m memoryStart memorySize) ops = some c → (OnBuddy.allocPage c.state).1 ≠ 0 →
        StaysInside c.state ∧ ∀ l ∈ c.live, ∀ x, Buddy.InBlock l x → (initTable c.state).2.mem x = c.state.mem x := by
  intro hclaim
  have hvalid : Buddy.ValidRun (Buddy.boot (fun _ => 0) 0x1000 0x3000) [.alloc 0 0, .alloc 0 0, .write 0x3000 7] := by
    decide +kernel
  have hvals : (Buddy.exec (Buddy.boot (fun _ => 0) 0x1000 0x3000) [.alloc 0 0, .alloc 0 0, .write 0x3000 7]).map
      (fun c => (c.live, c.state.mem 0x3000, (OnBuddy.allocPage c.state).1))
      = some ([(0x1000, 0), (0x3000, 0)], 7, 0x2000) := by decide +kernel
  obtain ⟨c, hexec, hc⟩ := Option.map_eq_some_iff.mp hvals
  rw [Prod.mk.injEq, Prod.mk.injEq] at hc
  obtain ⟨hlive, hbyte, htable⟩ := hc
  have h0 : (OnBuddy.allocPage c.state).1 ≠ 0 := by
    rw [htable]
    decide
  obtain ⟨-, hkept⟩ := hclaim _ _ _ _ hvalid c hexec h0
  have hmem : (0x3000, 0) ∈ c.live := by
    rw [hlive]
    exact List.mem_cons_of_mem _ List.mem_cons_self
  have hsame := hkept _ hmem 0x3000 ⟨le_rfl, by decide⟩
  rw [initTable_mem h0, initTable_fst, htable, hbyte, if_pos ⟨by decide, by decide⟩] at hsame
  exact absurd hsame (by decide)

end PrometheusKernel.PageCache
