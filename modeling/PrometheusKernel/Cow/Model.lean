import PrometheusKernel.Vmm.Model
import PrometheusKernel.Lib.LinkedList

/-!
# Copy-on-write: model of `kernel/mm/cow.c`

Reference entries (`page_ref_t`) are pages of their own: `physical_address` at offset 0, `ref_count`
(32 bits) at 8, the lock at 12 and `next` at 16. `cow_hash_table` holds the heads of the chains.
`buddy_alloc_pages(0, BUDDY_ZONE_UNMOVABLE)` is the parameter `allocPage`, `buddy_free_pages` the
parameter `free` of `cow_decrement_ref`.

The functions run to completion here, so the locks have no effect; their interleaving is the
subject of `Cow.Concurrent`. TLB flushes and diagnostics are left out. A walk of a chain is
`LinkedList.search`, and `none` is a walk that does not end.
-/

namespace PrometheusKernel.Cow

open ByteMem LinkedList Vmm

/-- `COW_FLAG_MASK`. -/
def cowFlagMask : ℕ := 0x200

/-- `COW_HASH_SIZE`. -/
def cowHashSize : ℕ := 1024

/-- Memory, the page allocator and `cow_hash_table`. -/
structure State (A : Type) extends Machine A where
  /-- `cow_hash_table`. -/
  hashTable : ℕ → ℕ

/-- The complement of a mask in 64 bits. -/
def complement (mask : ℕ) : ℕ := 2 ^ 64 - 1 - mask

/-- `cow_hash`. -/
def cowHash (physAddr : ℕ) : ℕ :=
  ((physAddr &&& complement 0xFFF) >>> 12) &&& (cowHashSize - 1)

/-- `cow_get_pte`. -/
def cowGetPte (m : Mem) (pml4 virtAddr : ℕ) : ℕ :=
  let pml4Entry := readEntry m pml4 ((virtAddr >>> 39) &&& 0x1FF)
  if pml4Entry &&& flagPresent = 0 then 0
  else
    let pdpt := pml4Entry &&& frameMask
    let pdptEntry := readEntry m pdpt ((virtAddr >>> 30) &&& 0x1FF)
    if pdptEntry &&& flagPresent = 0 then 0
    else
      let pd := pdptEntry &&& frameMask
      let pdEntry := readEntry m pd ((virtAddr >>> 21) &&& 0x1FF)
      if pdEntry &&& flagPresent = 0 then 0
      else
        let pt := pdEntry &&& frameMask
        slot pt ((virtAddr >>> 12) &&& 0x1FF)

/-! ### Reference entries -/

/-- `ref->physical_address`. -/
def refPhysicalAddress (m : Mem) (ref : ℕ) : ℕ := load 8 m ref

/-- `ref->ref_count`. -/
def refCount (m : Mem) (ref : ℕ) : ℕ := load 4 m (ref + 8)

/-- `ref->next`. -/
def refNext (m : Mem) (ref : ℕ) : ℕ := load 8 m (ref + 16)

section functions

variable {A : Type}

/-- `ref->ref_count = count`. -/
def setRefCount (s : State A) (ref count : ℕ) : State A :=
  { s with mem := store 4 s.mem (ref + 8) count }

/-- `cow_init`. -/
def cowInit (s : Machine A) : State A := ⟨s, fun _ => 0⟩

variable (allocPage : Machine A → ℕ × Machine A)

/-- The entry for `phys_addr` in its chain, or null. -/
def findRef (s : State A) (physAddr : ℕ) : Option ℕ :=
  search (refNext s.mem) (fun ref => refPhysicalAddress s.mem ref = physAddr) walkBound
    (s.hashTable (cowHash physAddr))

/-- `cow_get_ref`. -/
def cowGetRef (s : State A) (physAddr : ℕ) : Option (ℕ × State A) :=
  let physAddr := physAddr &&& complement 0xFFF
  let hash := cowHash physAddr
  match findRef s physAddr with
  | none => none
  | some (ref + 1) => some (ref + 1, s)
  | some 0 =>
      let res := allocPage s.toMachine
      let ref := res.1
      let s : State A := { s with toMachine := res.2 }
      if ref = 0 then some (0, s)
      else
        let m := store 8 s.mem ref physAddr
        let m := store 4 m (ref + 8) 0
        let m := store 4 m (ref + 12) 0
        let m := store 8 m (ref + 16) (s.hashTable hash)
        some (ref, { s with mem := m, hashTable := Function.update s.hashTable hash ref })

/-- `cow_mark_page`: the return value and the state. -/
def cowMarkPage (s : State A) (pml4 virtAddr : ℕ) : Option (ℤ × State A) :=
  if pml4 = 0 then some (-1, s)
  else
    let pte := cowGetPte s.mem pml4 virtAddr
    if pte = 0 then some (-1, s)
    else
      let entry := load 8 s.mem pte
      if entry &&& flagPresent = 0 then some (-1, s)
      else
        match cowGetRef allocPage s (entry &&& frameMask) with
        | none => none
        | some (0, s) => some (-1, s)
        | some (ref + 1, s) =>
            let s := setRefCount s (ref + 1) (Word.add 32 (refCount s.mem (ref + 1)) 1)
            let entry := entry &&& complement flagWritable
            let entry := entry ||| cowFlagMask
            some (0, { s with mem := store 8 s.mem pte entry })

/-- `cow_handle_fault`: the return value and the state. -/
def cowHandleFault (s : State A) (pml4 virtAddr : ℕ) : Option (ℤ × State A) :=
  let pte := cowGetPte s.mem pml4 virtAddr
  if pte = 0 then some (-1, s)
  else
    let entry := load 8 s.mem pte
    if entry &&& flagPresent = 0 then some (-1, s)
    else if entry &&& cowFlagMask = 0 then some (-1, s)
    else
      let oldPhys := entry &&& frameMask
      match cowGetRef allocPage s oldPhys with
      | none => none
      | some (0, s) => some (-1, s)
      | some (ref + 1, s) =>
          let count := refCount s.mem (ref + 1)
          let s := setRefCount s (ref + 1) (Word.sub 32 count 1)
          if count = 1 then
            let entry := entry ||| flagWritable
            let entry := entry &&& complement cowFlagMask
            some (0, { s with mem := store 8 s.mem pte entry })
          else
            let res := allocPage s.toMachine
            let newPhys := res.1
            let s : State A := { s with toMachine := res.2 }
            if newPhys = 0 then
              some (-1, setRefCount s (ref + 1) (Word.add 32 (refCount s.mem (ref + 1)) 1))
            else
              let s : State A := { s with mem := copyBytes pageSize s.mem newPhys oldPhys }
              let entry := (newPhys &&& frameMask) ||| (entry &&& 0xFFF)
              let entry := entry ||| flagWritable
              let entry := entry &&& complement cowFlagMask
              some (0, { s with mem := store 8 s.mem pte entry })

/-- `cow_increment_ref`. -/
def cowIncrementRef (s : State A) (physAddr : ℕ) : Option (State A) :=
  match cowGetRef allocPage s physAddr with
  | none => none
  | some (0, s) => some s
  | some (ref + 1, s) =>
      some (setRefCount s (ref + 1) (Word.add 32 (refCount s.mem (ref + 1)) 1))

/-- `cow_decrement_ref`. -/
def cowDecrementRef (free : ℕ → ℕ → Machine A → Machine A) (s : State A) (physAddr : ℕ) :
    Option (State A) :=
  let physAddr := physAddr &&& complement 0xFFF
  let hash := cowHash physAddr
  match searchPrev (refNext s.mem) (fun ref => refPhysicalAddress s.mem ref = physAddr) walkBound 0
      (s.hashTable hash) with
  | none => none
  | some (_, 0) => some s
  | some (prev, ref + 1) =>
      let count := Word.sub 32 (refCount s.mem (ref + 1)) 1
      let s := setRefCount s (ref + 1) count
      if count = 0 then
        let next := refNext s.mem (ref + 1)
        let s : State A :=
          if prev ≠ 0 then { s with mem := store 8 s.mem (prev + 16) next }
          else { s with hashTable := Function.update s.hashTable hash next }
        some { s with toMachine := free (ref + 1) 0 (free physAddr 0 s.toMachine) }
      else some s

/-- `cow_get_ref_count`. -/
def cowGetRefCount (s : State A) (physAddr : ℕ) : Option ℕ :=
  (findRef s (physAddr &&& complement 0xFFF)).map fun ref =>
    if ref = 0 then 0 else refCount s.mem ref

end functions

end PrometheusKernel.Cow
