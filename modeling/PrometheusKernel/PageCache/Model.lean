import PrometheusKernel.Machine
import PrometheusKernel.Lib.LinkedList

/-!
# The page cache

`src/kernel/mm/page_cache.c`. The cache maps a key `(file_id, offset)` to the physical page that
holds that part of the file. Its entries are on two structures at once: on the chain of their hash
bucket and on the LRU list.

The bucket array and the entries lie in physical memory. An entry is a `page_cache_entry_t` at the
start of a page of its own; the bucket array has 1024 slots of 8 bytes, two pages, behind the one
page that `page_cache_init` gets for it. Pages come from any allocator on the same memory: `alloc` is
`buddy_alloc_pages(0, BUDDY_ZONE_UNMOVABLE)` and `free` is `buddy_free_pages(addr, 0)`.

A loop over a chain is `LinkedList.search` or `LinkedList.searchPrev`; `none` is a call that does not
return. The lock is left to `PageCache.Concurrent`.
-/

namespace PrometheusKernel.PageCache

open ByteMem LinkedList

/-- The fields of `page_cache_entry_t`. -/
inductive Field
  | fileId
  | offset
  | physicalAddress
  | lastAccess
  | flags
  | hashNext
  | lruNext
  | lruPrev
deriving DecidableEq

/-- Where a field is in the structure. -/
def Field.pos : Field → ℕ
  | .fileId => 0
  | .offset => 8
  | .physicalAddress => 16
  | .lastAccess => 24
  | .flags => 32
  | .hashNext => 40
  | .lruNext => 48
  | .lruPrev => 56

/-- How many bytes it has: `flags` is a `uint32_t`. -/
def Field.size : Field → ℕ
  | .flags => 4
  | _ => 8

/-- `page_cache_t`, the memory and pages below it, and the clock of `get_timestamp`. -/
structure State (A : Type) extends Machine A where
  /-- The pointer to the bucket array, null when there was no page for it. -/
  hashTable : ℕ
  lruHead : ℕ
  lruTail : ℕ
  totalPages : ℕ
  maxPages : ℕ
  cacheHits : ℕ
  cacheMisses : ℕ
  counter : ℕ

/-- `DEFAULT_HASH_SIZE`. -/
def defaultHashSize : ℕ := 1024

/-- `HASH_SIZE_MASK`. -/
def hashSizeMask : ℕ := defaultHashSize - 1

/-- `sizeof(page_cache_entry_t *)`. -/
def pointerSize : ℕ := 8

/-- `hash_function`. -/
def hashFunction (fileId offset : ℕ) : ℕ :=
  Word.mul 64 (fileId ^^^ (offset >>> 12)) 2654435761 &&& hashSizeMask

variable {A : Type}

/-- A field of the entry at `a` is read. -/
def State.get (s : State A) (f : Field) (a : ℕ) : ℕ := load f.size s.mem (a + f.pos)

/-- A field of the entry at `a` is written. -/
def State.set (s : State A) (f : Field) (a v : ℕ) : State A :=
  { s with mem := store f.size s.mem (a + f.pos) v }

/-- `hash_table[b]` is read. -/
def State.slot (s : State A) (b : ℕ) : ℕ := load pointerSize s.mem (s.hashTable + b * pointerSize)

/-- `hash_table[b]` is written. -/
def State.setSlot (s : State A) (b v : ℕ) : State A :=
  { s with mem := store pointerSize s.mem (s.hashTable + b * pointerSize) v }

/-- The machine after a call of the allocator. -/
def State.setMachine (s : State A) (m : Machine A) : State A := { s with toMachine := m }

/-- The readers of the three links. -/
def State.hashNext (s : State A) (a : ℕ) : ℕ := s.get .hashNext a

@[inherit_doc State.hashNext]
def State.lruNext (s : State A) (a : ℕ) : ℕ := s.get .lruNext a

@[inherit_doc State.hashNext]
def State.lruPrev (s : State A) (a : ℕ) : ℕ := s.get .lruPrev a

/-- What the entry at an address is found by, and the bucket it belongs to. -/
def State.key (s : State A) (a : ℕ) : ℕ × ℕ := (s.get .fileId a, s.get .offset a)

@[inherit_doc State.key]
def State.bucket (s : State A) (a : ℕ) : ℕ := hashFunction (s.key a).1 (s.key a).2

section

variable (alloc : Machine A → ℕ × Machine A) (free : ℕ → Machine A → Machine A)

/-- `page_cache_init`; how far the clock has run is left as it is. -/
def pageCacheInit (s : State A) (maxPages : ℕ) : State A :=
  let s := { s with maxPages := maxPages, totalPages := 0, cacheHits := 0, cacheMisses := 0,
                    lruHead := 0, lruTail := 0 }
  let (hashTableAddr, m) := alloc s.toMachine
  let s := s.setMachine m
  if hashTableAddr = 0 then { s with hashTable := 0 }
  else { s with hashTable := hashTableAddr,
                mem := fill (Word.mul 64 defaultHashSize pointerSize) s.mem hashTableAddr 0 }

/-- `get_timestamp`. -/
def getTimestamp (s : State A) : ℕ × State A :=
  (s.counter, { s with counter := Word.add 64 s.counter 1 })

/-- The loops of `page_cache_lookup` and `page_cache_insert` that look for a key in its chain. -/
def findEntry (s : State A) (fileId offset : ℕ) : Option ℕ :=
  search s.hashNext (fun a => s.key a = (fileId, offset)) walkBound
    (s.slot (hashFunction fileId offset))

/-- `page_cache_lookup`. -/
def pageCacheLookup (s : State A) (fileId offset : ℕ) : Option (ℕ × State A) :=
  if s.hashTable = 0 then some (0, s)
  else do
    let entry ← findEntry s fileId offset
    if entry ≠ 0 then
      let (now, s) := getTimestamp s
      let s := s.set .lastAccess entry now
      let s := { s with cacheHits := Word.add 64 s.cacheHits 1 }
      some (s.get .physicalAddress entry, s)
    else
      some (0, { s with cacheMisses := Word.add 64 s.cacheMisses 1 })

/-- `lru_add_to_head`. -/
def lruAddToHead (s : State A) (entry : ℕ) : State A :=
  let s := s.set .lruNext entry s.lruHead
  let s := s.set .lruPrev entry 0
  let s := if s.lruHead ≠ 0 then s.set .lruPrev s.lruHead entry else s
  let s := { s with lruHead := entry }
  if s.lruTail = 0 then { s with lruTail := entry } else s

/-- `lru_remove`. -/
def lruRemove (s : State A) (entry : ℕ) : State A :=
  let s :=
    if s.lruPrev entry ≠ 0 then s.set .lruNext (s.lruPrev entry) (s.lruNext entry)
    else { s with lruHead := s.lruNext entry }
  let s :=
    if s.lruNext entry ≠ 0 then s.set .lruPrev (s.lruNext entry) (s.lruPrev entry)
    else { s with lruTail := s.lruPrev entry }
  let s := s.set .lruNext entry 0
  s.set .lruPrev entry 0

/-- What the unlinking loops do when they stop at `entry`, `prev` being the node before it. -/
def hashUnlink (s : State A) (hash prev entry : ℕ) : State A :=
  if prev = 0 then s.setSlot hash (s.hashNext entry)
  else s.set .hashNext prev (s.hashNext entry)

/-- `page_cache_evict_lru` up to its two calls of the allocator, and the victim, or null when there is
nothing to evict. -/
def unlinkVictim (s : State A) : Option (ℕ × State A) :=
  if s.hashTable = 0 then some (0, s)
  else if s.lruTail = 0 then some (0, s)
  else do
    let victim := s.lruTail
    let s := lruRemove s victim
    let hash := hashFunction (s.get .fileId victim) (s.get .offset victim)
    let (prev, entry) ← searchPrev s.hashNext (fun a => a = victim) walkBound 0 (s.slot hash)
    let s := if entry ≠ 0 then hashUnlink s hash prev entry else s
    some (victim, { s with totalPages := Word.sub 64 s.totalPages 1 })

/-- `page_cache_evict_lru`. -/
def pageCacheEvictLru (s : State A) : Option (State A) := do
  let (victim, s) ← unlinkVictim s
  if victim = 0 then some s
  else
    let s := s.setMachine (free (s.get .physicalAddress victim) s.toMachine)
    some (s.setMachine (free victim s.toMachine))

/-- A new entry is filled in. -/
def fillEntry (s : State A) (entry fileId offset physAddr : ℕ) : State A :=
  let s := s.set .fileId entry fileId
  let s := s.set .offset entry offset
  let s := s.set .physicalAddress entry physAddr
  let (now, s) := getTimestamp s
  let s := s.set .lastAccess entry now
  let s := s.set .flags entry 0
  let s := s.set .hashNext entry 0
  let s := s.set .lruNext entry 0
  s.set .lruPrev entry 0

/-- The end of `page_cache_insert`: a new entry is allocated and linked at the heads of its chain and
of the LRU list. -/
def addEntry (s : State A) (fileId offset physAddr : ℕ) : ℤ × State A :=
  let (entry, m) := alloc s.toMachine
  let s := s.setMachine m
  if entry = 0 then (-1, s)
  else
    let hash := hashFunction fileId offset
    let s := fillEntry s entry fileId offset physAddr
    let s := s.set .hashNext entry (s.slot hash)
    let s := s.setSlot hash entry
    let s := lruAddToHead s entry
    (0, { s with totalPages := Word.add 64 s.totalPages 1 })

/-- The eviction in `page_cache_insert`. -/
def makeRoom (s : State A) : Option (State A) :=
  if s.maxPages ≤ s.totalPages then pageCacheEvictLru free s else some s

/-- `page_cache_insert`. -/
def pageCacheInsert (s : State A) (fileId offset physAddr : ℕ) : Option (ℤ × State A) :=
  if s.hashTable = 0 ∨ physAddr = 0 then some (-1, s)
  else do
    let existing ← findEntry s fileId offset
    if existing ≠ 0 then some (0, s)
    else
      let s ← makeRoom free s
      some (addEntry alloc s fileId offset physAddr)

/-- `page_cache_remove` up to its call of the allocator, and the entry, or null when the key is not
cached. -/
def unlinkKey (s : State A) (fileId offset : ℕ) : Option (ℕ × State A) :=
  if s.hashTable = 0 then some (0, s)
  else do
    let hash := hashFunction fileId offset
    let (prev, entry) ← searchPrev s.hashNext (fun a => s.key a = (fileId, offset)) walkBound 0
      (s.slot hash)
    if entry ≠ 0 then
      let s := hashUnlink s hash prev entry
      let s := lruRemove s entry
      some (entry, { s with totalPages := Word.sub 64 s.totalPages 1 })
    else some (0, s)

/-- `page_cache_remove`; the physical page stays with the caller. -/
def pageCacheRemove (s : State A) (fileId offset : ℕ) : Option (State A) := do
  let (entry, s) ← unlinkKey s fileId offset
  if entry = 0 then some s
  else some (s.setMachine (free entry s.toMachine))

end

end PrometheusKernel.PageCache
