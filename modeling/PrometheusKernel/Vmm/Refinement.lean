import PrometheusKernel.Vmm.Tables
import PrometheusKernel.Cow.Model
import PrometheusKernel.Pmm.Source

/-!
# Page tables refine a map

An address space is, abstractly, a partial map from virtual page numbers to a frame and twelve flag
bits (`AddressSpace`). `spaces c` reads the address spaces of a run off memory. In every state that
a run of `vmm.c` reaches (`run_inv`), the operations change these maps as they should:

* `vmm_map_page` sets one entry, or changes nothing when it runs out of frames;
* `vmm_unmap_page` erases one entry, and the lookup reads one;
* `cow_get_pte` finds the slot that these functions use.

`page_tables_refine_map` collects this.
-/

namespace PrometheusKernel.Vmm

open ByteMem TableTree

/-! ### The walkers -/

/-- One level of a walker. -/
theorem child_eq (m : Mem) (t : ℕ) {i : ℕ} (hi : i < ptEntries) :
    child m t i = if readEntry m t i &&& flagPresent = 0 then none
      else some (readEntry m t i &&& frameMask) := by
  unfold child
  by_cases h : readEntry m t i &&& flagPresent = 0
  · rw [if_neg fun hc => hc.2 h, if_pos h]
  · rw [if_pos ⟨hi, h⟩, if_neg h]

/-- The page table that the three upper levels of a walker lead to. -/
theorem pageTable_eq (m : Mem) (pml4 virt : ℕ) :
    pageTable m pml4 virt =
      (child m pml4 (pml4Index virt)).bind fun pdpt =>
        (child m pdpt (pdptIndex virt)).bind fun pd => child m pd (pdIndex virt) := by
  unfold pageTable tablePath
  simp only [walk]
  congr 1
  funext pdpt
  congr 1
  funext pd
  cases child m pd (pdIndex virt) <;> rfl

/-- The three upper levels of a walker: it returns `d` at the first entry that is not present, and
goes on with the page table otherwise. -/
theorem walker_eq {β : Type} (m : Mem) (pml4 virt : ℕ) (d : β) (k : ℕ → β) :
    (let e := readEntry m pml4 (pml4Index virt)
      if e &&& flagPresent = 0 then d
      else
        let pdpt := e &&& frameMask
        let e := readEntry m pdpt (pdptIndex virt)
        if e &&& flagPresent = 0 then d
        else
          let pd := e &&& frameMask
          let e := readEntry m pd (pdIndex virt)
          if e &&& flagPresent = 0 then d else k (e &&& frameMask))
      = match pageTable m pml4 virt with
        | none => d
        | some pt => k pt := by
  dsimp only
  have h39 : pml4Index virt < ptEntries := index_lt virt 39
  have h30 : pdptIndex virt < ptEntries := index_lt virt 30
  have h21 : pdIndex virt < ptEntries := index_lt virt 21
  rw [pageTable_eq, child_eq m pml4 h39]
  by_cases h1 : readEntry m pml4 (pml4Index virt) &&& flagPresent = 0
  · rw [if_pos h1, if_pos h1, Option.bind_none]
  rw [if_neg h1, if_neg h1, Option.bind_some, child_eq m _ h30]
  by_cases h2 : readEntry m (readEntry m pml4 (pml4Index virt) &&& frameMask) (pdptIndex virt)
      &&& flagPresent = 0
  · rw [if_pos h2, if_pos h2, Option.bind_none]
  rw [if_neg h2, if_neg h2, Option.bind_some, child_eq m _ h21]
  split_ifs with h3
  · rfl
  · rfl

/-- `cow_get_pte` returns the slot of the last level, or null where a table is missing. -/
theorem cowGetPte_eq (m : Mem) (pml4 virt : ℕ) :
    Cow.cowGetPte m pml4 virt = match pageTable m pml4 virt with
      | none => 0
      | some pt => slot pt (ptIndex virt) :=
  walker_eq m pml4 virt 0 fun pt => slot pt (ptIndex virt)

/-- `vmm_unmap_page` by the last table of the address. -/
theorem vmmUnmapPage_eq {A : Type} (s : Machine A) (pml4 virt : ℕ) :
    vmmUnmapPage s pml4 virt = match pageTable s.mem pml4 virt with
      | none => s
      | some pt => writeEntry s pt (ptIndex virt) 0 :=
  walker_eq s.mem pml4 virt s fun pt => writeEntry s pt (ptIndex virt) 0

/-- `vmm_get_physical_address` by what the tables say. -/
theorem vmmGetPhysicalAddress_eq (m : Mem) (pml4 virt : ℕ) :
    vmmGetPhysicalAddress m pml4 virt = match translate m pml4 virt with
      | none => 0
      | some (frame, _) => frame ||| (virt &&& 0xFFF) := by
  have hwalk := walker_eq m pml4 virt 0 fun pt =>
    if readEntry m pt (ptIndex virt) &&& flagPresent = 0 then 0
    else (readEntry m pt (ptIndex virt) &&& frameMask) ||| (virt &&& 0xFFF)
  refine hwalk.trans ?_
  unfold translate
  cases pageTable m pml4 virt with
  | none => rfl
  | some pt =>
      simp only [Option.bind_some, decode]
      split_ifs with h
      · rfl
      · rfl

/-! ### Address spaces -/

/-- Virtual page number to frame and flags. -/
abbrev AddressSpace := ℕ → Option (ℕ × ℕ)

/-- The address space of `pml4`, as it is in memory. -/
def space (m : Mem) (pml4 : ℕ) : AddressSpace :=
  fun n => if n < 2 ^ 36 then translate m pml4 (n * pageSize) else none

/-- Page numbers have 36 bits. -/
theorem vpn_lt (v : ℕ) : vpn v < 2 ^ 36 := Nat.mod_lt _ (by norm_num)

/-- Every number of 36 bits is a page number. -/
theorem vpn_mul_pageSize {n : ℕ} (hn : n < 2 ^ 36) : vpn (n * pageSize) = n := by
  unfold vpn pageSize
  omega

/-- Addresses in one page are translated alike. -/
theorem translate_eq_of_vpn (m : Mem) (pml4 : ℕ) {v w : ℕ} (h : vpn v = vpn w) :
    translate m pml4 v = translate m pml4 w := by
  obtain ⟨h1, h2⟩ := (tablePath_eq_iff v w).mpr h
  unfold translate pageTable
  rw [h1, h2]

/-- The map of an address space, by page number. -/
theorem space_vpn (m : Mem) (pml4 v : ℕ) : space m pml4 (vpn v) = translate m pml4 v := by
  unfold space
  rw [if_pos (vpn_lt v)]
  exact translate_eq_of_vpn m pml4 (vpn_mul_pageSize (vpn_lt v))

/-- The map of an address space only depends on the translations. -/
theorem space_congr {m m' : Mem} {pml4 : ℕ} (h : ∀ v, translate m' pml4 v = translate m pml4 v) :
    space m' pml4 = space m pml4 := by
  funext n
  unfold space
  rw [h]

/-- One page of the map. -/
theorem space_congr_at {m m' : Mem} {pml4 n : ℕ}
    (h : n < 2 ^ 36 → translate m' pml4 (n * pageSize) = translate m pml4 (n * pageSize)) :
    space m' pml4 n = space m pml4 n := by
  unfold space
  split_ifs with hn
  · exact h hn
  · rfl

/-- An update of the translations of one page is an update of the map. -/
theorem space_update {m m' : Mem} {pml4 v : ℕ} {o : Option (ℕ × ℕ)}
    (h : ∀ w, translate m' pml4 w = if vpn w = vpn v then o else translate m pml4 w) :
    space m' pml4 = Function.update (space m pml4) (vpn v) o := by
  funext n
  unfold space
  by_cases hn : n < 2 ^ 36
  · rw [if_pos hn, h, vpn_mul_pageSize hn]
    by_cases hv : n = vpn v
    · rw [if_pos hv, hv, Function.update_self]
    · rw [if_neg hv, Function.update_of_ne hv, if_pos hn]
  · have hv : n ≠ vpn v := fun e => hn (e ▸ vpn_lt v)
    rw [if_neg hn, Function.update_of_ne hv, if_neg hn]

/-! ### Runs -/

/-- A call that changes the tables. -/
inductive Op
  /-- `vmm_create_address_space()`. -/
  | create
  /-- `vmm_map_page(pml4, virt, phys, flags)`. -/
  | map (pml4 virt phys flags : ℕ)
  /-- `vmm_unmap_page(pml4, virt)`. -/
  | unmap (pml4 virt : ℕ)

/-- The machine and the address spaces created so far. -/
structure Run (A : Type) where
  /-- Memory and the page allocator. -/
  state : Machine A
  /-- The address spaces, by their `pml4`. -/
  roots : List ℕ

variable {A : Type} (alloc : Machine A → ℕ × Machine A)

/-- Only address spaces that were created are used. -/
def Run.Valid (c : Run A) : Op → Prop
  | .create => True
  | .map pml4 _ _ _ => pml4 ∈ c.roots
  | .unmap pml4 _ => pml4 ∈ c.roots

instance (c : Run A) (op : Op) : Decidable (c.Valid op) :=
  match op with
  | .create => isTrue trivial
  | .map pml4 _ _ _ => inferInstanceAs (Decidable (pml4 ∈ c.roots))
  | .unmap pml4 _ => inferInstanceAs (Decidable (pml4 ∈ c.roots))

/-- One call. -/
def step (c : Run A) : Op → Run A
  | .create =>
      let res := vmmCreateAddressSpace alloc c.state
      ⟨res.2, if res.1 = 0 then c.roots else res.1 :: c.roots⟩
  | .map pml4 virt phys flags => ⟨vmmMapPage alloc c.state pml4 virt phys flags, c.roots⟩
  | .unmap pml4 virt => ⟨vmmUnmapPage c.state pml4 virt, c.roots⟩

/-- Every call of the list is valid when its turn comes. -/
def ValidRun : Run A → List Op → Prop
  | _, [] => True
  | c, op :: ops => c.Valid op ∧ ValidRun (step alloc c op) ops

instance decidableValidRun : (c : Run A) → (ops : List Op) → Decidable (ValidRun alloc c ops)
  | _, [] => isTrue trivial
  | c, op :: ops => @instDecidableAnd _ _ _ (decidableValidRun (step alloc c op) ops)

/-- A list of calls. -/
def exec (c : Run A) (ops : List Op) : Run A := ops.foldl (step alloc) c

/-- The address spaces of a run; a root that was not created maps nothing. -/
def spaces (c : Run A) : ℕ → AddressSpace :=
  fun r => if r ∈ c.roots then space c.state.mem r else fun _ => none

/-- The invariant of every run: the tables are an unshared forest in held frames. -/
structure Inv (P : Ownership A) (c : Run A) (F T : Set ℕ) : Prop where
  owns : P.Owns c.state F
  tables : Tables c.state.mem {r | r ∈ c.roots} T
  subset : T ⊆ F

/-! ### What each call does -/

section calls

variable {P : Ownership A} {c : Run A} {F T : Set ℕ}

/-- The map of an address space that exists. -/
theorem spaces_of_mem {r : ℕ} (hr : r ∈ c.roots) : spaces c r = space c.state.mem r := if_pos hr

/-- An address space that does not exist has an empty map. -/
theorem spaces_of_notMem {r : ℕ} (hr : r ∉ c.roots) : spaces c r = fun _ => none := if_neg hr

/-- The maps only depend on the translations. -/
theorem spaces_congr {s' : Machine A}
    (h : ∀ r ∈ c.roots, ∀ v, translate s'.mem r v = translate c.state.mem r v) :
    spaces ⟨s', c.roots⟩ = spaces c := by
  funext r
  by_cases hr : r ∈ c.roots
  · rw [spaces_of_mem hr, spaces_of_mem (c := ⟨s', c.roots⟩) hr, space_congr (h r hr)]
  · rw [spaces_of_notMem hr, spaces_of_notMem (c := ⟨s', c.roots⟩) hr]

/-- A change of one translation is a change of one map. -/
theorem spaces_update {s' : Machine A} {pml4 virt : ℕ} {o : Option (ℕ × ℕ)} (hp : pml4 ∈ c.roots)
    (h : ∀ r ∈ c.roots, ∀ v, translate s'.mem r v
      = if r = pml4 ∧ vpn v = vpn virt then o else translate c.state.mem r v) :
    spaces ⟨s', c.roots⟩ = Function.update (spaces c) pml4
      (Function.update (spaces c pml4) (vpn virt) o) := by
  funext r
  by_cases hrp : r = pml4
  · subst hrp
    rw [Function.update_self, spaces_of_mem hp, spaces_of_mem (c := ⟨s', c.roots⟩) hp]
    refine space_update fun w => ?_
    rw [h r hp w]
    simp only [true_and]
  · rw [Function.update_of_ne hrp]
    by_cases hr : r ∈ c.roots
    · rw [spaces_of_mem hr, spaces_of_mem (c := ⟨s', c.roots⟩) hr]
      refine space_congr fun w => ?_
      rw [h r hr w, if_neg fun hc => hrp hc.1]
    · rw [spaces_of_notMem hr, spaces_of_notMem (c := ⟨s', c.roots⟩) hr]

/-- A write to an entry of a page table. -/
theorem inv_leafWrite {s : Machine A} {F' T' : Set ℕ}
    (hg : Grown P {r | r ∈ c.roots} c.state F T s F' T') {pml4 virt pt e : ℕ}
    (hp : pml4 ∈ c.roots) (hpt : pageTable s.mem pml4 virt = some pt) (he : e < 2 ^ 64) :
    Inv P ⟨writeEntry s pt (ptIndex virt) e, c.roots⟩ F' T' ∧
      ∀ r ∈ c.roots, ∀ v, translate (writeEntry s pt (ptIndex virt) e).mem r v
        = if r = pml4 ∧ vpn v = vpn virt then decode e else translate c.state.mem r v := by
  have hptT := hg.tables.mem_of_pageTable hp hpt
  refine ⟨⟨?_, hg.tables.leafWrite hp hpt e, hg.subset⟩, fun r hr v => ?_⟩
  · refine P.write_state hg.owns rfl fun x hx => ?_
    exact store_slot_apply (ptIndex_lt virt) (hx pt (hg.subset hptT))
  · refine (hg.tables.translate_leafWrite hp hpt he hr v).trans ?_
    rw [hg.translate_eq r hr v]

/-- `vmm_map_page` by the last table of the address. -/
theorem vmmMapPage_eq (s : Machine A) (pml4 virt phys flags : ℕ) :
    vmmMapPage alloc s pml4 virt phys flags
      = if (ptFor alloc s pml4 virt).1 = 0 then (ptFor alloc s pml4 virt).2
        else writeEntry (ptFor alloc s pml4 virt).2 (ptFor alloc s pml4 virt).1 (ptIndex virt)
          ((phys &&& frameMask) ||| (flags &&& 0xFFF) ||| flagPresent) := rfl

variable {alloc}

/-- `vmm_map_page` keeps the invariant and updates the map, unless a table is missing. -/
theorem Inv.map (h : Inv P c F T) (halloc : P.Allocator alloc) {pml4 : ℕ} (hp : pml4 ∈ c.roots)
    (virt phys flags : ℕ) :
    (∃ F' T', Inv P (step alloc c (.map pml4 virt phys flags)) F' T') ∧
      ((ptFor alloc c.state pml4 virt).1 = 0 →
        spaces (step alloc c (.map pml4 virt phys flags)) = spaces c) ∧
      ((ptFor alloc c.state pml4 virt).1 ≠ 0 →
        spaces (step alloc c (.map pml4 virt phys flags))
          = Function.update (spaces c) pml4 (Function.update (spaces c pml4) (vpn virt)
              (some (phys &&& frameMask, (flags &&& 0xFFF) ||| flagPresent)))) := by
  obtain ⟨F', T', hg, hpt⟩ := ptFor_spec halloc h.owns h.tables h.subset hp virt
  simp only [step, vmmMapPage_eq]
  by_cases h0 : (ptFor alloc c.state pml4 virt).1 = 0
  · rw [if_pos h0]
    exact ⟨⟨F', T', hg.owns, hg.tables, hg.subset⟩, fun _ => spaces_congr hg.translate_eq,
      fun hne => absurd h0 hne⟩
  · rw [if_neg h0]
    obtain ⟨e1, e2, e3, e4⟩ := mapEntry_spec phys flags
    obtain ⟨hinv, htr⟩ := inv_leafWrite hg hp (hpt h0) e4
    refine ⟨⟨F', T', hinv⟩, fun hz => absurd hz h0, fun _ => spaces_update hp fun r hr v => ?_⟩
    rw [htr r hr v]
    unfold decode
    rw [if_neg e3, e1, e2]

/-- `vmm_unmap_page` keeps the invariant and updates the map. -/
theorem Inv.unmap (h : Inv P c F T) {pml4 : ℕ} (hp : pml4 ∈ c.roots) (virt : ℕ) :
    (∃ F' T', Inv P (step alloc c (.unmap pml4 virt)) F' T') ∧
      spaces (step alloc c (.unmap pml4 virt))
        = Function.update (spaces c) pml4 (Function.update (spaces c pml4) (vpn virt) none) := by
  simp only [step, vmmUnmapPage_eq]
  cases hpt : pageTable c.state.mem pml4 virt with
  | none =>
      refine ⟨⟨F, T, h⟩, spaces_update hp fun r hr v => ?_⟩
      split_ifs with hc
      · obtain ⟨rfl, hv⟩ := hc
        rw [translate_eq_of_vpn _ _ hv, translate, hpt]
        rfl
      · rfl
  | some pt =>
      obtain ⟨hinv, htr⟩ := inv_leafWrite (Grown.refl h.owns h.tables h.subset) hp hpt
        (e := 0) (by norm_num)
      refine ⟨⟨F, T, hinv⟩, spaces_update hp fun r hr v => ?_⟩
      have hdec : decode 0 = none := by decide
      rw [htr r hr v, hdec]

/-- A new address space is empty, and the others stay as they are. -/
theorem Inv.create (h : Inv P c F T) (halloc : P.Allocator alloc) :
    (∃ F' T', Inv P (step alloc c .create) F' T') ∧ spaces (step alloc c .create) = spaces c ∧
      ((vmmCreateAddressSpace alloc c.state).1 ≠ 0 →
        (vmmCreateAddressSpace alloc c.state).1 ∉ c.roots) := by
  by_cases h0 : (alloc c.state).1 = 0
  · have heq : vmmCreateAddressSpace alloc c.state = (0, (alloc c.state).2) := by
      unfold vmmCreateAddressSpace
      simp only [h0, if_true]
    have hg := Grown.of_fail halloc h.owns h.tables h.subset h0
    simp only [step, heq, if_true]
    exact ⟨⟨F, T, hg.owns, hg.tables, hg.subset⟩, spaces_congr hg.translate_eq,
      fun hne => absurd rfl hne⟩
  · have heq : vmmCreateAddressSpace alloc c.state
        = ((alloc c.state).1, clearTable (alloc c.state).2 (alloc c.state).1) := by
      unfold vmmCreateAddressSpace
      simp only [h0, if_false]
    obtain ⟨s', hs', howns, htables, hfF, hkeep, hnone⟩ :=
      addSpace_spec halloc h.owns h.tables h.subset h0
    rw [hs'] at heq
    set f := (alloc c.state).1 with hf
    have hroot : f ∉ c.roots := fun hmem =>
      hfF (h.subset (h.tables.mem_of_walk (p := []) hmem (Nat.zero_le 3) (walk_nil f)))
    have hset : {r | r ∈ f :: c.roots} = Set.insert f {r | r ∈ c.roots} := by
      ext r
      exact List.mem_cons
    have hstep : step alloc c .create = ⟨s', f :: c.roots⟩ := by
      simp only [step, heq, h0, if_false]
    rw [hstep, heq]
    refine ⟨⟨Set.insert f F, Set.insert f T, howns, ?_, Set.insert_subset_insert h.subset⟩, ?_,
      fun _ => hroot⟩
    · rw [hset]
      exact htables
    · funext r
      by_cases hrf : r = f
      · -- a new address space translates nothing
        subst hrf
        rw [spaces_of_notMem hroot, spaces_of_mem (c := ⟨s', f :: c.roots⟩) List.mem_cons_self]
        funext n
        unfold space
        rw [hnone, ite_self]
      · by_cases hr : r ∈ c.roots
        · rw [spaces_of_mem hr, spaces_of_mem (c := ⟨s', f :: c.roots⟩) (List.mem_cons_of_mem _ hr)]
          exact space_congr (h.tables.translate_congr (fun t ht => hkeep t (h.subset ht)) hr)
        · have hr' : r ∉ f :: c.roots := fun hmem => (List.mem_cons.mp hmem).elim hrf hr
          rw [spaces_of_notMem hr, spaces_of_notMem (c := ⟨s', f :: c.roots⟩) hr']

end calls

/-! ### Whole runs -/

/-- One valid call keeps the invariant. -/
theorem Inv.step {P : Ownership A} {alloc : Machine A → ℕ × Machine A} {c : Run A} {F T : Set ℕ}
    (h : Inv P c F T) (halloc : P.Allocator alloc) {op : Op} (hv : c.Valid op) :
    ∃ F' T', Inv P (Vmm.step alloc c op) F' T' := by
  cases op with
  | create => exact (h.create halloc).1
  | map pml4 virt phys flags => exact (h.map halloc hv virt phys flags).1
  | unmap pml4 virt => exact (h.unmap hv virt).1

/-- Every valid run keeps the invariant. -/
theorem run_inv {P : Ownership A} {alloc : Machine A → ℕ × Machine A} {c : Run A} {F T : Set ℕ}
    (h : Inv P c F T) (halloc : P.Allocator alloc) {ops : List Op} (hv : ValidRun alloc c ops) :
    ∃ F' T', Inv P (exec alloc c ops) F' T' := by
  induction ops generalizing c F T with
  | nil => exact ⟨F, T, h⟩
  | cons op ops ih =>
      obtain ⟨F₁, T₁, h₁⟩ := h.step halloc hv.1
      exact ih h₁ hv.2

/-- Without address spaces there is nothing to keep. -/
theorem inv_nil {P : Ownership A} {s : Machine A} {F : Set ℕ} (h : P.Owns s F) :
    Inv P ⟨s, []⟩ F ∅ := by
  refine ⟨h, ⟨?_, ?_, ?_⟩, Set.empty_subset F⟩
  · rintro r hr
    exact absurd hr List.not_mem_nil
  · rintro t ⟨r, hr, -⟩
    exact absurd hr List.not_mem_nil
  · rintro t ht
    exact absurd ht (Set.notMem_empty t)

/-- In the state of `c`, every function of `vmm.c` acts on the address spaces as on maps, and
`cow_get_pte` finds the slot that it uses. -/
structure RefinesMap (alloc : Machine A → ℕ × Machine A) (c : Run A) : Prop where
  /-- A new address space is empty and new, and leaves the others alone. -/
  create : spaces (step alloc c .create) = spaces c ∧
    ((vmmCreateAddressSpace alloc c.state).1 ≠ 0 →
      (vmmCreateAddressSpace alloc c.state).1 ∉ c.roots)
  /-- `vmm_map_page` with all tables at hand sets one entry. -/
  map : ∀ pml4 ∈ c.roots, ∀ virt phys flags, (ptFor alloc c.state pml4 virt).1 ≠ 0 →
    spaces (step alloc c (.map pml4 virt phys flags))
      = Function.update (spaces c) pml4 (Function.update (spaces c pml4) (vpn virt)
          (some (phys &&& frameMask, (flags &&& 0xFFF) ||| flagPresent)))
  /-- `vmm_map_page` that runs out of frames changes no translation. -/
  map_fail : ∀ pml4 ∈ c.roots, ∀ virt phys flags, (ptFor alloc c.state pml4 virt).1 = 0 →
    spaces (step alloc c (.map pml4 virt phys flags)) = spaces c
  /-- `vmm_unmap_page` erases one entry. -/
  unmap : ∀ pml4 ∈ c.roots, ∀ virt, spaces (step alloc c (.unmap pml4 virt))
    = Function.update (spaces c) pml4 (Function.update (spaces c pml4) (vpn virt) none)
  /-- `vmm_get_physical_address` reads one entry. -/
  lookup : ∀ pml4 ∈ c.roots, ∀ virt, vmmGetPhysicalAddress c.state.mem pml4 virt
    = match spaces c pml4 (vpn virt) with
      | none => 0
      | some (frame, _) => frame ||| (virt &&& 0xFFF)
  /-- The slot that `cow_get_pte` finds holds the entry, -/
  pte_lookup : ∀ pml4 ∈ c.roots, ∀ virt, spaces c pml4 (vpn virt)
    = if Cow.cowGetPte c.state.mem pml4 virt = 0 then none
      else decode (load 8 c.state.mem (Cow.cowGetPte c.state.mem pml4 virt))
  /-- is the only one that `vmm_unmap_page` writes, -/
  pte_unmap : ∀ pml4 ∈ c.roots, ∀ virt, vmmUnmapPage c.state pml4 virt
    = if Cow.cowGetPte c.state.mem pml4 virt = 0 then c.state
      else { c.state with mem := store 8 c.state.mem (Cow.cowGetPte c.state.mem pml4 virt) 0 }
  /-- and the one that `vmm_map_page` writes once it has the tables. -/
  pte_map : ∀ pml4 ∈ c.roots, ∀ virt phys flags, (ptFor alloc c.state pml4 virt).1 ≠ 0 →
    Cow.cowGetPte (ptFor alloc c.state pml4 virt).2.mem pml4 virt ≠ 0 ∧
    vmmMapPage alloc c.state pml4 virt phys flags
      = { (ptFor alloc c.state pml4 virt).2 with
          mem := store 8 (ptFor alloc c.state pml4 virt).2.mem
            (Cow.cowGetPte (ptFor alloc c.state pml4 virt).2.mem pml4 virt)
            ((phys &&& frameMask) ||| (flags &&& 0xFFF) ||| flagPresent) }

/-- No slot is null. -/
theorem slot_ne_zero {pt i : ℕ} (h : pt ≠ 0) : slot pt i ≠ 0 := by
  unfold slot
  omega

/-- In every state that a valid run of `vmm.c` reaches, page tables refine a map. -/
theorem page_tables_refine_map (P : Ownership A) (alloc : Machine A → ℕ × Machine A)
    (halloc : P.Allocator alloc) (s : Machine A) (F : Set ℕ) (howns : P.Owns s F) (ops : List Op)
    (hv : ValidRun alloc ⟨s, []⟩ ops) : RefinesMap alloc (exec alloc ⟨s, []⟩ ops) := by
  obtain ⟨F', T', h⟩ := run_inv (inv_nil howns) halloc hv
  set c := exec alloc ⟨s, []⟩ ops with hc
  refine ⟨(h.create halloc).2, fun pml4 hp virt phys flags => (h.map halloc hp virt phys flags).2.2,
    fun pml4 hp virt phys flags => (h.map halloc hp virt phys flags).2.1,
    fun pml4 hp virt => (h.unmap hp virt).2, ?_, ?_, ?_, ?_⟩
  · intro pml4 hp virt
    rw [vmmGetPhysicalAddress_eq, spaces_of_mem hp, space_vpn]
  · intro pml4 hp virt
    rw [spaces_of_mem hp, space_vpn, cowGetPte_eq]
    unfold translate
    cases hpt : pageTable c.state.mem pml4 virt with
    | none => rfl
    | some pt =>
        simp only [Option.bind_some]
        rw [if_neg (slot_ne_zero (h.tables.ne_zero_of_pageTable hp hpt))]
        rfl
  · intro pml4 hp virt
    rw [vmmUnmapPage_eq, cowGetPte_eq]
    cases hpt : pageTable c.state.mem pml4 virt with
    | none => rfl
    | some pt =>
        simp only
        rw [if_neg (slot_ne_zero (h.tables.ne_zero_of_pageTable hp hpt))]
        rfl
  · intro pml4 hp virt phys flags h0
    obtain ⟨F₁, T₁, hg, hpt⟩ := ptFor_spec halloc h.owns h.tables h.subset hp virt
    rw [vmmMapPage_eq, if_neg h0, cowGetPte_eq, hpt h0]
    exact ⟨slot_ne_zero h0, rfl⟩

/-- On the real allocator with eight pages: an address space at `0x1000` in which a page is mapped
and unmapped. -/
theorem page_tables_refine_map_pmm :
    RefinesMap Pmm.pmmAllocFrame (exec Pmm.pmmAllocFrame
      ⟨Pmm.booted (fun _ => 0) 0x1000 0x8000, []⟩
      [.create, .map 0x1000 0x400000 0x9000 7, .unmap 0x1000 0x400000]) := by
  have hu : Buddy.Usable 0x1000 0x8000 := ⟨by norm_num, rfl, by norm_num⟩
  refine page_tables_refine_map (Pmm.source hu) _ (Pmm.pmmAllocFrame_allocator hu) _ ∅
    (Pmm.owns_booted hu _) _ ?_
  decide +kernel

end PrometheusKernel.Vmm
