import PrometheusKernel.DemandPaging.Regions
import PrometheusKernel.Vmm.Refinement

/-!
# Concurrent page faults: the steps

`demand_paging_handle_fault` on several CPUs and one page table. Each of the following is an atomic step of one CPU,
and the CPUs take their steps in any order: the look-up of the region, each read of a table entry by
`vmm_get_physical_address` and `get_or_alloc`, each write of an entry by `get_or_alloc` and `vmm_map_page`, each
allocation, and taking and giving back `page_fault_lock`. A page that is filled and a table that is cleared are not
reachable yet, so that filling and clearing belong to the allocation.

`Knows` says what a CPU may rely on in each phase, and `Evolves` what the steps of the others leave of it
(`Knows.mono`). Only one step can break it: `get_or_alloc` writing into a slot that is not empty any more.
-/

namespace PrometheusKernel.DemandPaging

open ByteMem LinkedList Vmm TableTree Interleaving

/-! ### The steps -/

/-- A call: `aligned_addr` and `region`. -/
structure Call where
  addr : ℕ
  region : ℕ
deriving DecidableEq

/-- Where a CPU is in `vmm_map_page`, with its local variables; `level` tables lie above `table`. -/
inductive Stage
  /-- `get_or_alloc` is about to read the entry of `table`. -/
  | lookup (level table : ℕ)
  /-- The entry is not present: a frame is to be allocated. -/
  | extend (level table : ℕ)
  /-- The entry is to be written. -/
  | link (level table frame : ℕ)
  /-- The entry is to be read again. -/
  | reread (level table : ℕ)
  /-- The entry of the page is to be written into the page table. -/
  | write (table : ℕ)
deriving DecidableEq

/-- Where a CPU is in `demand_paging_handle_fault`, with its local variables. -/
inductive Phase
  | idle
  /-- `vmm_get_physical_address`, in the first check or, with the lock, in the second. -/
  | check (call : Call) (locked : Bool) (level table : ℕ)
  /-- The lock is to be taken. -/
  | acquire (call : Call)
  /-- The page is not mapped: `buddy_alloc_pages` is to be called. -/
  | allocate (call : Call)
  /-- In `vmm_map_page`. -/
  | mapping (call : Call) (phys : ℕ) (stage : Stage)
  /-- The lock is to be given back. -/
  | release (call : Call) (code : ℤ)
deriving DecidableEq

/-- The shared state, the CPUs, and what has happened so far. -/
structure Config (A : Type) (n : ℕ) where
  state : State A
  /-- The CPU that holds the `page_fault_lock` of a region. -/
  holder : ℕ → Option (Fin n)
  /-- The CPUs. -/
  cpu : Fin n → Phase
  /-- `aligned_addr` of the calls that have begun. -/
  faulted : List ℕ
  /-- The pages from `buddy_alloc_pages`, with `aligned_addr` of the call. -/
  taken : List (ℕ × ℕ)
  /-- The pages that `vmm_map_page` has mapped, with `aligned_addr` of the call. -/
  mapped : List (ℕ × ℕ)
  /-- `aligned_addr` and the return value of the calls that have returned. -/
  returned : List (ℕ × ℤ)

/-- An atomic step. -/
inductive FaultAction (n : ℕ)
  /-- A CPU takes a fault and looks the region up. -/
  | fault (i : Fin n) (virtAddr : ℕ)
  /-- A CPU takes its next step. -/
  | advance (i : Fin n)

variable {A : Type} {n : ℕ}

/-- The index of the entry for `virt` in a table with `level` tables above it. -/
def levelIndex (virt : ℕ) : ℕ → ℕ
  | 0 => pml4Index virt
  | 1 => pdptIndex virt
  | 2 => pdIndex virt
  | _ => ptIndex virt

/-- Physical memory. -/
def Config.mem (c : Config A n) : Mem := c.state.machine.mem

/-- CPU `i` goes on with `p`. -/
def Config.goOn (c : Config A n) (i : Fin n) (p : Phase) : Config A n :=
  { c with cpu := Function.update c.cpu i p }

/-- CPU `i` goes on with `p`, and the machine is `m` then. -/
def Config.setMachine (c : Config A n) (m : Machine A) (i : Fin n) (p : Phase) : Config A n :=
  { c with state := { c.state with machine := m }, cpu := Function.update c.cpu i p }

/-- The call of CPU `i` returns. -/
def Config.leave (c : Config A n) (i : Fin n) (addr : ℕ) (code : ℤ) : Config A n :=
  { c with cpu := Function.update c.cpu i .idle, returned := (addr, code) :: c.returned }

/-- After `get_or_alloc` on the table with `level` tables above it: null ends `vmm_map_page`. -/
def afterTable (call : Call) (phys level table : ℕ) : Phase :=
  if table = 0 then .release call 0
  else if level < 2 then .mapping call phys (.lookup (level + 1) table)
  else .mapping call phys (.write table)

section steps

variable (allocPage allocFrame : Machine A → ℕ × Machine A) (pml4 : ℕ)

/-- The beginning of `demand_paging_handle_fault`. -/
def fault (c : Config A n) (i : Fin n) (virtAddr : ℕ) : Option (Config A n) := do
  let alignedAddr := alignDown virtAddr
  let (region, s) ← demandPagingFindRegion c.state pml4 alignedAddr
  let c := { c with state := s, faulted := alignedAddr :: c.faulted }
  if region = 0 then some (c.leave i alignedAddr (-1))
  else if (s.regions region).flags &&& vmFlagDemandPaged = 0 then some (c.leave i alignedAddr (-1))
  else some (c.goOn i (.check ⟨alignedAddr, region⟩ false 0 pml4))

/-- One step of `vmm_map_page`. -/
def mapStep (c : Config A n) (i : Fin n) (call : Call) (phys : ℕ) : Stage → Config A n
  | .lookup level table =>
      let e := readEntry c.mem table (levelIndex call.addr level)
      if e &&& flagPresent = 0 then c.goOn i (.mapping call phys (.extend level table))
      else c.goOn i (afterTable call phys level (e &&& frameMask))
  | .extend level table =>
      let res := allocFrame c.state.machine
      let frame := res.1
      if frame = 0 then c.setMachine res.2 i (.release call 0)
      else c.setMachine (clearTable res.2 frame) i (.mapping call phys (.link level table frame))
  | .link level table frame =>
      c.setMachine (writeEntry c.state.machine table (levelIndex call.addr level)
        (frame ||| flagPresent ||| flagWritable)) i (.mapping call phys (.reread level table))
  | .reread level table =>
      let e := readEntry c.mem table (levelIndex call.addr level)
      c.goOn i (afterTable call phys level (e &&& frameMask))
  | .write table =>
      let flags := flagPresent ||| flagWritable ||| flagUser
      let c := c.setMachine (writeEntry c.state.machine table (ptIndex call.addr)
        ((phys &&& frameMask) ||| (flags &&& 0xFFF) ||| flagPresent)) i (.release call 0)
      { c with mapped := (call.addr, phys) :: c.mapped }

/-- One step of `vmm_get_physical_address`, and the branch on its result. -/
def checkStep (c : Config A n) (i : Fin n) (call : Call) (locked : Bool) (level table : ℕ) : Config A n :=
  let e := readEntry c.mem table (levelIndex call.addr level)
  if e &&& flagPresent ≠ 0 ∧ level < 3 then c.goOn i (.check call locked (level + 1) (e &&& frameMask))
  else
    let existingPhys := if e &&& flagPresent = 0 then 0 else (e &&& frameMask) ||| (call.addr &&& 0xFFF)
    if locked then c.goOn i (if existingPhys ≠ 0 then .release call 0 else .allocate call)
    else if existingPhys ≠ 0 then c.leave i call.addr 0
    else c.goOn i (.acquire call)

/-- The allocation of the page. -/
def allocateStep (c : Config A n) (i : Fin n) (call : Call) : Config A n :=
  let res := allocPage c.state.machine
  let physAddr := res.1
  if physAddr = 0 then c.setMachine res.2 i (.release call (-1))
  else
    let machine := if (c.state.regions call.region).flags &&& vmFlagZeroFill ≠ 0 then zeroFill res.2 physAddr
      else res.2
    let c := c.setMachine machine i (.mapping call physAddr (.lookup 0 pml4))
    { c with taken := (call.addr, physAddr) :: c.taken }

/-- The next step of a CPU; a CPU that waits for a lock has none. -/
def advance (c : Config A n) (i : Fin n) : Option (Config A n) :=
  match c.cpu i with
  | .idle => none
  | .check call locked level table => some (checkStep c i call locked level table)
  | .acquire call =>
      if c.holder call.region = none then
        some { c.goOn i (.check call true 0 pml4) with holder := Function.update c.holder call.region (some i) }
      else none
  | .allocate call => some (allocateStep allocPage pml4 c i call)
  | .mapping call phys stage => some (mapStep allocFrame c i call phys stage)
  | .release call code =>
      some { c.leave i call.addr code with holder := Function.update c.holder call.region none }

/-- One atomic step. -/
def faultStep (c : Config A n) : FaultAction n → Option (Config A n)
  | .fault i virtAddr => if c.cpu i = .idle then fault pml4 c i virtAddr else none
  | .advance i => advance allocPage allocFrame pml4 c i

end steps

section fields

variable {allocPage allocFrame : Machine A → ℕ × Machine A} {pml4 : ℕ} (c : Config A n) (i : Fin n) (call : Call)

/-- A CPU that goes on maps nothing. -/
@[simp] theorem goOn_mapped (p : Phase) : (c.goOn i p).mapped = c.mapped := rfl

/-- A step of the machine maps nothing. -/
@[simp] theorem setMachine_mapped (m : Machine A) (p : Phase) : (c.setMachine m i p).mapped = c.mapped := rfl

/-- A call that returns maps nothing. -/
@[simp] theorem leave_mapped (addr : ℕ) (code : ℤ) : (c.leave i addr code).mapped = c.mapped := rfl

/-- A step of the walk maps nothing. -/
theorem checkStep_mapped (locked : Bool) (level table : ℕ) :
    (checkStep c i call locked level table).mapped = c.mapped := by
  unfold checkStep
  dsimp only
  split_ifs <;> simp

/-- The allocation of a page maps nothing. -/
theorem allocateStep_mapped : (allocateStep allocPage pml4 c i call).mapped = c.mapped := by
  unfold allocateStep
  dsimp only
  split_ifs <;> simp

/-- A step of `vmm_map_page` keeps what has been mapped. -/
theorem mapStep_mapped (phys : ℕ) (stage : Stage) : ∀ e ∈ c.mapped,
    e ∈ (mapStep allocFrame c i call phys stage).mapped := by
  intro e he
  cases stage with
  | lookup level table =>
      unfold mapStep
      dsimp only
      split_ifs <;> simpa using he
  | extend level table =>
      unfold mapStep
      dsimp only
      split_ifs <;> simpa using he
  | link level table frame => exact he
  | reread level table => exact he
  | write table => exact List.mem_cons_of_mem _ he

/-- The start of a call maps nothing. -/
theorem fault_mapped {c c' : Config A n} {virtAddr : ℕ} (h : fault pml4 c i virtAddr = some c') :
    c'.mapped = c.mapped := by
  unfold fault at h
  dsimp only at h
  obtain ⟨⟨r, s'⟩, -, h⟩ := Option.bind_eq_some_iff.mp h
  dsimp only at h
  split_ifs at h
  all_goals
    rw [← Option.some.inj h]
    rfl

/-- The look-up leaves the machine and the regions alone. -/
theorem findRegion_keeps {s s' : State A} {v r : ℕ} (h : demandPagingFindRegion s pml4 v = some (r, s')) :
    s'.machine = s.machine ∧ s'.regions = s.regions := by
  have hget : (demandPagingGetAddressSpace s pml4).2.machine = s.machine ∧
      (demandPagingGetAddressSpace s pml4).2.regions = s.regions := by
    rcases getAddressSpace_cases s pml4 with ⟨i, -, -, hget⟩ | ⟨-, ⟨-, hget⟩ | ⟨-, hget⟩⟩
    all_goals
      rw [hget]
      exact ⟨rfl, rfl⟩
  unfold demandPagingFindRegion at h
  rcases hslot : demandPagingGetAddressSpace s pml4 with ⟨o, s₁⟩
  rw [hslot] at h hget
  cases o with
  | none =>
      obtain ⟨-, rfl⟩ := Prod.mk.inj (Option.some.inj h)
      exact hget
  | some i =>
      obtain ⟨q, -, hres⟩ := Option.bind_eq_some_iff.mp h
      obtain ⟨-, rfl⟩ := Prod.mk.inj (Option.some.inj hres)
      exact hget

end fields

/-- No call has begun. -/
def quiet (s : State A) (n : ℕ) : Config A n := ⟨s, fun _ => none, fun _ => .idle, [], [], [], []⟩

/-! ### The page at hand -/

section pageAtHand

variable {P : Ownership A} {allocPage : Machine A → ℕ × Machine A} {F : Set ℕ}

/-- The page that was allocated, filled with zeros if the flags of the region ask for it. -/
def pageAtHand (allocPage : Machine A → ℕ × Machine A) (m : Machine A) (flags : ℕ) : Machine A :=
  if flags &&& vmFlagZeroFill ≠ 0 then zeroFill (allocPage m).2 (allocPage m).1 else (allocPage m).2

/-- The zeros go to the direct map, above physical memory. -/
theorem zeroFill_apply (m : Machine A) (physAddr : ℕ) {x : ℕ} (hx : x < 2 ^ 52) :
    (zeroFill m physAddr).mem x = m.mem x := by
  unfold zeroFill
  dsimp only
  rw [fill_apply, if_neg]
  unfold directMap
  omega

/-- The page is held, and the other frames have kept their contents. -/
theorem pageAtHand_spec (hpage : P.Allocator allocPage) (hphysical : P.Physical) {m : Machine A} (howns : P.Owns m F)
    (h0 : (allocPage m).1 ≠ 0) (flags : ℕ) :
    P.Owns (pageAtHand allocPage m flags) (Set.insert (allocPage m).1 F) ∧
      ∀ u ∈ F, ∀ x, InPage u x → (pageAtHand allocPage m flags).mem x = m.mem x := by
  have hnew := hpage.owns howns h0
  unfold pageAtHand
  by_cases hfill : flags &&& vmFlagZeroFill ≠ 0
  · rw [if_pos hfill]
    refine ⟨hphysical.write_state hnew (by simp only [zeroFill]) fun x hx => zeroFill_apply _ _ hx, fun u hu x hx => ?_⟩
    have hlt : x < 2 ^ 52 := by
      have hframe := P.isFrame howns u hu
      have hlt := hframe.lt
      have haligned := hframe.aligned
      unfold InPage pageSize at hx
      unfold pageSize at haligned
      omega
    exact (zeroFill_apply _ _ hlt).trans (hpage.mem howns u hu x hx)
  · rw [if_neg hfill]
    exact ⟨hnew, fun u hu x hx => hpage.mem howns u hu x hx⟩

end pageAtHand

/-! ### The way to a page -/

/-- `table` has `level` tables above it on the way to the page of `v`. -/
structure AtTable (m : Mem) (pml4 v level table : ℕ) : Prop where
  le : level ≤ 3
  way : walk (child m) pml4 ((tablePath v).take level) = some table

section way

variable {m m' : Mem} {pml4 v level table : ℕ} {T : Set ℕ}

/-- The index of a level is one of a table. -/
theorem levelIndex_lt (v level : ℕ) : levelIndex v level < ptEntries := by
  unfold levelIndex
  split
  · exact index_lt v 39
  · exact index_lt v 30
  · exact index_lt v 21
  · exact index_lt v 12

/-- The path of an address, one level further. -/
theorem take_succ_tablePath (hlevel : level < 3) :
    (tablePath v).take (level + 1) = (tablePath v).take level ++ [levelIndex v level] := by
  obtain rfl | rfl | rfl : level = 0 ∨ level = 1 ∨ level = 2 := by omega
  · rfl
  · rfl
  · rfl

/-- The walk begins at the root. -/
theorem AtTable.root : AtTable m pml4 v 0 pml4 := ⟨Nat.zero_le 3, rfl⟩

/-- The walk is at a table. -/
theorem AtTable.mem (h : AtTable m pml4 v level table) (ht : Tables m {pml4} T) : table ∈ T :=
  ht.mem_of_walk (Set.mem_singleton pml4) ((List.length_take_le _ _).trans h.le) h.way

/-- The table below a table on the way. -/
theorem AtTable.below (h : AtTable m pml4 v level table) (hlevel : level < 3) :
    walk (child m) pml4 ((tablePath v).take (level + 1)) = child m table (levelIndex v level) := by
  rw [take_succ_tablePath hlevel]
  exact walk_concat_of_eq h.way _

/-- The walk goes down to a present entry. -/
theorem AtTable.next (h : AtTable m pml4 v level table) (hlevel : level < 3)
    (he : readEntry m table (levelIndex v level) &&& flagPresent ≠ 0) :
    AtTable m pml4 v (level + 1) (readEntry m table (levelIndex v level) &&& frameMask) := by
  refine ⟨hlevel, (h.below hlevel).trans ?_⟩
  unfold child
  exact if_pos ⟨levelIndex_lt v level, he⟩

/-- The walk ends at the last table of the address. -/
theorem AtTable.isPageTable (h : AtTable m pml4 v 3 table) : pageTable m pml4 v = some table := h.way

/-- The entry of a table on the way leads to the next one. -/
theorem AtTable.entry (h : AtTable m pml4 v level table) (hlevel : level < 3) {t : ℕ}
    (ht : AtTable m pml4 v (level + 1) t) : readEntry m table (levelIndex v level) &&& frameMask = t := by
  have hchild := (h.below hlevel).symm.trans ht.way
  unfold child at hchild
  split_ifs at hchild
  exact Option.some.inj hchild

/-- A missing table leaves the page unmapped. -/
theorem translate_of_walk (h : walk (child m) pml4 ((tablePath v).take (level + 1)) = none) :
    translate m pml4 v = none := by
  have hnone : pageTable m pml4 v = none := by
    unfold Vmm.pageTable
    rw [← List.take_append_drop (level + 1) (tablePath v), walk_append, h]
    rfl
  unfold Vmm.translate
  rw [hnone]
  rfl

/-- A read of an entry that is not present tells that the page is not mapped. -/
theorem AtTable.absent (h : AtTable m pml4 v level table)
    (he : readEntry m table (levelIndex v level) &&& flagPresent = 0) : translate m pml4 v = none := by
  rcases h.le.lt_or_eq with hlevel | rfl
  · refine translate_of_walk ((h.below hlevel).trans ?_)
    unfold child
    exact if_neg fun hcon => hcon.2 he
  · unfold Vmm.translate
    rw [h.isPageTable, Option.bind_some]
    exact if_pos he

/-- A read of the entry in the page table tells what the page is mapped to. -/
theorem AtTable.present (h : AtTable m pml4 v 3 table)
    (he : readEntry m table (levelIndex v 3) &&& flagPresent ≠ 0) :
    ∃ flags, translate m pml4 v = some (readEntry m table (levelIndex v 3) &&& frameMask, flags) := by
  refine ⟨readEntry m table (levelIndex v 3) &&& 0xFFF, ?_⟩
  unfold Vmm.translate
  rw [h.isPageTable, Option.bind_some]
  exact if_neg he

/-- Tables that are added leave the walk where it is. -/
theorem AtTable.mono (h : AtTable m pml4 v level table)
    (hwalk : ∀ p : List ℕ, p.length ≤ 3 → ∀ t, walk (child m) pml4 p = some t →
      walk (child m') pml4 p = some t) : AtTable m' pml4 v level table :=
  ⟨h.le, hwalk _ ((List.length_take_le _ _).trans h.le) _ h.way⟩

end way

/-! ### What a CPU knows -/

/-- A page with this number has been mapped. -/
def Config.Mapped (c : Config A n) (v : ℕ) : Prop := ∃ e ∈ c.mapped, vpn e.1 = vpn v

/-- `aligned_addr` of the call that a CPU is in. -/
def Phase.addr : Phase → Option ℕ
  | .idle => none
  | .check call _ _ _ => some call.addr
  | .acquire call => some call.addr
  | .allocate call => some call.addr
  | .mapping call _ _ => some call.addr
  | .release call _ => some call.addr

/-- The page that a CPU has allocated and not mapped yet. -/
def Phase.page : Phase → Option (ℕ × ℕ)
  | .mapping call phys _ => some (call.addr, phys)
  | _ => none

/-- The cleared table that a CPU is about to link. -/
def Phase.frame : Phase → Option ℕ
  | .mapping _ _ (.link _ _ frame) => some frame
  | _ => none

section knows

variable (Q : Set Call) (pml4 : ℕ) (c : Config A n) (F T : Set ℕ) (i : Fin n)

/-- A cleared frame that no other CPU can reach. -/
structure Private (m : Mem) (F T : Set ℕ) (frame : ℕ) : Prop where
  held : frame ∈ F
  not_table : frame ∉ T
  zero : ∀ x, InPage frame x → m x = 0

/-- What a CPU knows in `vmm_map_page`. -/
def Stage.Knows (m : Mem) (v : ℕ) : Stage → Prop
  | .lookup level table => level < 3 ∧ AtTable m pml4 v level table
  | .extend level table => level < 3 ∧ AtTable m pml4 v level table
  | .link level table frame => level < 3 ∧ AtTable m pml4 v level table ∧ Private m F T frame
  | .reread level table => level < 3 ∧ AtTable m pml4 v level table ∧ ∃ t, AtTable m pml4 v (level + 1) t
  | .write table => AtTable m pml4 v 3 table

/-- The call is one of `Q` and has begun. -/
def Begun (call : Call) : Prop := call ∈ Q ∧ call.addr ∈ c.faulted

/-- CPU `i` is in the call and has the lock. -/
def Locked (call : Call) : Prop := Begun Q c call ∧ c.holder call.region = some i

/-- What CPU `i` knows in a phase. From the second check on a page that was not mapped stays so. -/
def Knows : Phase → Prop
  | .idle => True
  | .check call locked level table =>
      Begun Q c call ∧ AtTable c.mem pml4 call.addr level table ∧
        (locked = true → c.holder call.region = some i)
  | .acquire call => Begun Q c call
  | .allocate call => Locked Q c i call ∧ translate c.mem pml4 call.addr = none
  | .mapping call phys stage =>
      Locked Q c i call ∧ translate c.mem pml4 call.addr = none ∧ (call.addr, phys) ∈ c.taken ∧
        stage.Knows pml4 F T c.mem call.addr
  | .release call code => Locked Q c i call ∧ code = 0 ∧ c.Mapped call.addr

/-- What a step of another CPU leaves of the knowledge of CPU `i`. -/
structure Evolves (c' : Config A n) (F' T' : Set ℕ) : Prop where
  walk : ∀ p : List ℕ, p.length ≤ 3 → ∀ t, walk (child c.mem) pml4 p = some t →
    walk (child c'.mem) pml4 p = some t
  unmapped : ∀ call, Locked Q c i call → translate c.mem pml4 call.addr = none →
    translate c'.mem pml4 call.addr = none
  holder : ∀ r, c.holder r = some i → c'.holder r = some i
  faulted : ∀ v ∈ c.faulted, v ∈ c'.faulted
  taken : ∀ e ∈ c.taken, e ∈ c'.taken
  mapped : ∀ e ∈ c.mapped, e ∈ c'.mapped
  cleared : ∀ frame, (c.cpu i).frame = some frame → Private c.mem F T frame → Private c'.mem F' T' frame

end knows

section mono

variable {Q : Set Call} {pml4 : ℕ} {c c' : Config A n} {F T F' T' : Set ℕ} {i : Fin n}

/-- A call that has begun is under way until it returns. -/
theorem Evolves.begun (h : Evolves Q pml4 c F T i c' F' T') {call : Call} (hb : Begun Q c call) : Begun Q c' call :=
  ⟨hb.1, h.faulted _ hb.2⟩

/-- A lock is held until its CPU gives it back. -/
theorem Evolves.locked (h : Evolves Q pml4 c F T i c' F' T') {call : Call} (hl : Locked Q c i call) :
    Locked Q c' i call :=
  ⟨h.begun hl.1, h.holder _ hl.2⟩

/-- What is mapped stays mapped. -/
theorem Evolves.isMapped (h : Evolves Q pml4 c F T i c' F' T') {v : ℕ} (hv : c.Mapped v) : c'.Mapped v := by
  obtain ⟨e, he, hvpn⟩ := hv
  exact ⟨e, h.mapped e he, hvpn⟩

/-- The steps of the other CPUs leave the knowledge of a CPU true. -/
theorem Knows.mono (hk : Knows Q pml4 c F T i (c.cpu i)) (h : Evolves Q pml4 c F T i c' F' T') :
    Knows Q pml4 c' F' T' i (c.cpu i) := by
  have hcleared := h.cleared
  cases hi : c.cpu i with
  | idle => trivial
  | check call locked level table =>
      rw [hi] at hk
      obtain ⟨hb, hat, hl⟩ := hk
      exact ⟨h.begun hb, hat.mono h.walk, fun hlocked => h.holder _ (hl hlocked)⟩
  | acquire call =>
      rw [hi] at hk
      exact h.begun hk
  | allocate call =>
      rw [hi] at hk
      exact ⟨h.locked hk.1, h.unmapped call hk.1 hk.2⟩
  | mapping call phys stage =>
      rw [hi] at hk hcleared
      obtain ⟨hl, hnone, htaken, hstage⟩ := hk
      refine ⟨h.locked hl, h.unmapped call hl hnone, h.taken _ htaken, ?_⟩
      cases stage with
      | lookup level table => exact ⟨hstage.1, hstage.2.mono h.walk⟩
      | extend level table => exact ⟨hstage.1, hstage.2.mono h.walk⟩
      | link level table frame =>
          obtain ⟨hlevel, hat, hprivate⟩ := hstage
          exact ⟨hlevel, hat.mono h.walk, hcleared frame rfl hprivate⟩
      | reread level table =>
          obtain ⟨hlevel, hat, t, ht⟩ := hstage
          exact ⟨hlevel, hat.mono h.walk, t, ht.mono h.walk⟩
      | write table => exact AtTable.mono hstage h.walk
  | release call code =>
      rw [hi] at hk
      exact ⟨h.locked hk.1, hk.2.1, h.isMapped hk.2.2⟩

end mono

/-! ### The invariant -/

/-- Each page that was taken is mapped or about to be mapped by the call that took it, and no page was taken twice. -/
structure FaultInv (P : Ownership A) (Q : Set Call) (s : State A) (pml4 : ℕ) (c : Config A n) (F T : Set ℕ) :
    Prop where
  state : c.state = { s with machine := c.state.machine }
  owns : P.Owns c.state.machine F
  tables : Tables c.mem {pml4} T
  subset : T ⊆ F
  knows : ∀ i, Knows Q pml4 c F T i (c.cpu i)
  frames : ∀ i j frame, (c.cpu i).frame = some frame → (c.cpu j).frame = some frame → i = j
  settled : ∀ e ∈ c.taken, e ∈ c.mapped ∨ ∃ i, (c.cpu i).page = some e
  taken : ∀ e ∈ c.mapped, e ∈ c.taken
  kept : ∀ e ∈ c.mapped, translate c.mem pml4 e.1 = some (e.2, 7)
  only : ∀ call ∈ Q, translate c.mem pml4 call.addr ≠ none → c.Mapped call.addr
  held : ∀ e ∈ c.taken, e.2 ∈ F
  begun : ∀ e ∈ c.taken, e.1 ∈ c.faulted
  calls : ∀ v ∈ c.faulted, ∃ call ∈ Q, call.addr = v
  frames_nodup : (c.taken.map Prod.snd).Nodup
  pages_nodup : (c.taken.map fun e => vpn e.1).Nodup
  mapped_nodup : (c.mapped.map fun e => vpn e.1).Nodup
  returned : ∀ e ∈ c.returned, e.2 = 0 ∧ c.Mapped e.1
  active : ∀ v ∈ c.faulted, (∃ code, (v, code) ∈ c.returned) ∨ ∃ i, (c.cpu i).addr = some v

end PrometheusKernel.DemandPaging
