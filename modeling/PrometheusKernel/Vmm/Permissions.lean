import PrometheusKernel.Vmm.Frames
import PrometheusKernel.Vmm.Refinement
import PrometheusKernel.DemandPaging.FaultRuns

/-!
# Effective permissions

The processor allows an access from user mode only if the entries of all four levels have `VMM_FLAG_USER`, and a write
only if they all have `VMM_FLAG_WRITABLE` (`Permits`). `get_or_alloc` gives every entry above the page tables
`VMM_FLAG_WRITABLE` and never `VMM_FLAG_USER`, whatever the mapping that needs it asks for (`Upper`).

So writes are allowed exactly where the latest `vmm_map_page` asked for them, and no page is ever reachable from user
mode: the permissions of a page are the requested ones exactly if user access was not requested (`as_requested_iff`).
-/

namespace PrometheusKernel.Vmm

open ByteMem TableTree
open DemandPaging (flagUser freePages)

/-! ### What the processor allows -/

/-- The entries on the path are present and have the bit `flag`. -/
def Allows (m : Mem) (flag : ℕ) : ℕ → List ℕ → Prop
  | _, [] => True
  | t, i :: p => readEntry m t i &&& flagPresent ≠ 0 ∧ readEntry m t i &&& flag ≠ 0 ∧
      Allows m flag (readEntry m t i &&& frameMask) p

instance decidableAllows (m : Mem) (flag : ℕ) : (t : ℕ) → (p : List ℕ) → Decidable (Allows m flag t p)
  | _, [] => isTrue trivial
  | t, i :: p =>
      have := decidableAllows m flag (readEntry m t i &&& frameMask) p
      inferInstanceAs (Decidable (readEntry m t i &&& flagPresent ≠ 0 ∧ readEntry m t i &&& flag ≠ 0 ∧
        Allows m flag (readEntry m t i &&& frameMask) p))

/-- An access that needs the bit `flag` to the page of `virt` is allowed. -/
def Permits (m : Mem) (flag pml4 virt : ℕ) : Prop := Allows m flag pml4 (tablePath virt ++ [ptIndex virt])

instance (m : Mem) (flag pml4 virt : ℕ) : Decidable (Permits m flag pml4 virt) :=
  inferInstanceAs (Decidable (Allows m flag pml4 (tablePath virt ++ [ptIndex virt])))

/-- User access and writes are allowed exactly if the flags ask for them. -/
def AsRequested (m : Mem) (pml4 virt flags : ℕ) : Prop :=
  (Permits m flagUser pml4 virt ↔ flags &&& flagUser ≠ 0) ∧
    (Permits m flagWritable pml4 virt ↔ flags &&& flagWritable ≠ 0)

/-- The present entries above the page tables are writable and not for user mode. -/
def Upper (m : Mem) (roots : Set ℕ) : Prop :=
  ∀ r ∈ roots, ∀ p : List ℕ, p.length < 3 → ∀ t, walk (child m) r p = some t → ∀ i < ptEntries,
    readEntry m t i &&& flagPresent ≠ 0 → readEntry m t i &&& flagWritable ≠ 0 ∧ readEntry m t i &&& flagUser = 0

/-- An entry is for the kernel only exactly if bit 2 is clear. -/
theorem and_flagUser_eq_zero_iff (e : ℕ) : e &&& flagUser = 0 ↔ e.testBit 2 = false :=
  and_two_pow_eq_zero_iff e 2

/-- The bits of an entry that `get_or_alloc` writes. -/
theorem tableEntry_bits {f : ℕ} (h : IsFrame f) :
    (f ||| flagPresent ||| flagWritable) &&& flagWritable ≠ 0 ∧
      (f ||| flagPresent ||| flagWritable) &&& flagUser = 0 := by
  rw [Ne, and_flagWritable_eq_zero_iff, and_flagUser_eq_zero_iff]
  simp only [Nat.testBit_or, testBit_flagPresent, testBit_flagWritable]
  refine ⟨by simp, ?_⟩
  cases hbit : f.testBit 2 with
  | false => rfl
  | true => exact absurd (IsFrame.testBit h hbit).1 (by norm_num)

/-- The twelve low bits of an entry have its write flag. -/
theorem lowMask_writable (e : ℕ) : (e &&& 0xFFF) &&& flagWritable ≠ 0 ↔ e &&& flagWritable ≠ 0 := by
  rw [Ne, Ne, and_flagWritable_eq_zero_iff, and_flagWritable_eq_zero_iff, Nat.testBit_and, testBit_lowMask]
  simp

/-- The flags that `vmm_map_page` writes have the write flag that was asked for. -/
theorem mapFlags_writable (flags : ℕ) :
    ((flags &&& 0xFFF) ||| flagPresent) &&& flagWritable ≠ 0 ↔ flags &&& flagWritable ≠ 0 := by
  rw [Ne, Ne, and_flagWritable_eq_zero_iff, and_flagWritable_eq_zero_iff, Nat.testBit_or, Nat.testBit_and,
    testBit_lowMask, testBit_flagPresent]
  simp

section walks

variable {m m' : Mem} {roots T : Set ℕ} {flag r t u v : ℕ}

/-- A child is the frame of a present entry. -/
theorem readEntry_of_child {i : ℕ} (h : child m t i = some u) :
    i < ptEntries ∧ readEntry m t i &&& flagPresent ≠ 0 ∧ readEntry m t i &&& frameMask = u := by
  unfold child at h
  split_ifs at h with hc
  exact ⟨hc.1, hc.2, Option.some.inj h⟩

/-- A path can be cut at a table. -/
theorem allows_append {p : List ℕ} (q : List ℕ) (hw : walk (child m) t p = some u) :
    Allows m flag t (p ++ q) ↔ Allows m flag t p ∧ Allows m flag u q := by
  induction p generalizing t with
  | nil =>
      obtain rfl : t = u := Option.some.inj hw
      exact (and_iff_right trivial).symm
  | cons i p ih =>
      obtain ⟨t', hchild, hrest⟩ := Option.bind_eq_some_iff.mp hw
      obtain ⟨-, -, rfl⟩ := readEntry_of_child hchild
      rw [List.cons_append, Allows, Allows, ih hrest, and_assoc, and_assoc]

/-- Writes are allowed as far as the page tables. -/
theorem Upper.allows (h : Upper m roots) (hr : r ∈ roots) (p : List ℕ) :
    ∀ {q : List ℕ} {t u}, walk (child m) r q = some t → (q ++ p).length ≤ 3 → walk (child m) t p = some u →
      Allows m flagWritable t p := by
  induction p with
  | nil => exact fun _ _ _ => trivial
  | cons i p ih =>
      intro q t u hq hlen hw
      obtain ⟨t', hchild, hrest⟩ := Option.bind_eq_some_iff.mp hw
      obtain ⟨hi, hpresent, rfl⟩ := readEntry_of_child hchild
      have hshort : q.length < 3 := by
        rw [List.length_append, List.length_cons] at hlen
        omega
      refine ⟨hpresent, (h r hr q hshort t hq i hi hpresent).1, ih ((walk_concat_of_eq hq i).trans hchild) ?_ hrest⟩
      rwa [List.append_assoc]

/-- No page is reachable from user mode. -/
theorem Upper.not_user (h : Upper m roots) (hr : r ∈ roots) (v : ℕ) : ¬ Permits m flagUser r v := by
  rintro ⟨hpresent, huser, -⟩
  exact huser (h r hr [] (by decide) r rfl _ (index_lt v 39) hpresent).2

/-- Writes to a mapped page are allowed if its entry in the page table allows them. -/
theorem Upper.writable_iff (h : Upper m roots) (hr : r ∈ roots) {f fl : ℕ} (ht : translate m r v = some (f, fl)) :
    Permits m flagWritable r v ↔ fl &&& flagWritable ≠ 0 := by
  obtain ⟨pt, hpt, hdecode⟩ := Option.bind_eq_some_iff.mp ht
  unfold decode at hdecode
  split_ifs at hdecode with hpresent
  obtain ⟨-, rfl⟩ := Prod.mk.inj (Option.some.inj hdecode)
  have hway : Allows m flagWritable r (tablePath v) := h.allows (q := []) hr (tablePath v) rfl le_rfl hpt
  unfold Permits
  rw [allows_append _ hpt, and_iff_right hway, lowMask_writable]
  exact ⟨fun hlast => hlast.2.1, fun hlast => ⟨hpresent, hlast, trivial⟩⟩

/-- The permissions of a mapped page against those that were asked for. -/
theorem Upper.asRequested_iff (h : Upper m roots) (hr : r ∈ roots) {f flags : ℕ}
    (ht : translate m r v = some (f, (flags &&& 0xFFF) ||| flagPresent)) :
    AsRequested m r v flags ↔ flags &&& flagUser = 0 := by
  have hwrite : Permits m flagWritable r v ↔ flags &&& flagWritable ≠ 0 :=
    (h.writable_iff hr ht).trans (mapFlags_writable flags)
  constructor
  · intro hreq
    by_contra huser
    exact h.not_user hr v (hreq.1.mpr huser)
  · intro hkernel
    exact ⟨iff_of_false (h.not_user hr v) (not_not.mpr hkernel), hwrite⟩

/-! ### What keeps the upper levels -/

/-- The flags of the upper levels only depend on the tables. -/
theorem Upper.congr (h : Upper m roots) (ht : Tables m roots T) (hm : ∀ t ∈ T, ∀ x, InPage t x → m' x = m x) :
    Upper m' roots := by
  intro r hr p hp t hw i hi
  rw [ht.walk_congr hm hr hp.le] at hw
  rw [readEntry_congr hi (hm t (ht.mem_of_walk hr hp.le hw))]
  exact h r hr p hp t hw i hi

/-- A write to a page table is no write above the page tables. -/
theorem Upper.leafWrite (h : Upper m roots) (ht : Tables m roots T) (hr : r ∈ roots) {pt : ℕ}
    (hpt : pageTable m r v = some pt) (e : ℕ) : Upper (store 8 m (slot pt (ptIndex v)) e) roots := by
  intro r' hr' p hp t hw i hi
  rw [ht.walk_leafWrite hr hpt e hr' hp.le] at hw
  have hne : t ≠ pt := by
    rintro rfl
    obtain ⟨-, hpath⟩ := ht.forest r' hr' r hr p (tablePath v) hp.le le_rfl t hw hpt
    rw [hpath, tablePath_length] at hp
    exact absurd hp (lt_irrefl _)
  have hframe := ht.isFrame t (ht.mem_of_walk hr' hp.le hw)
  have hread : readEntry (store 8 m (slot pt (ptIndex v)) e) t i = readEntry m t i :=
    readEntry_store_of_ne (ht.isFrame pt (ht.mem_of_pageTable hr hpt)) hframe (ptIndex_lt v) hi (Or.inl hne)
  rw [hread]
  exact h r' hr' p hp t hw i hi

/-- The entry for a new table is writable and not for user mode, and the new table has no entries. -/
theorem Upper.hang (h : Upper m roots) (ht : Tables m roots T) (hr : r ∈ roots) {p : List ℕ} (hp : p.length < 3)
    (hw : walk (child m) r p = some t) {i f : ℕ} (hi : i < ptEntries) (hempty : child m t i = none) (hf : IsFrame f)
    (hnew : f ∉ T) (hzero : ∀ x, InPage f x → m x = 0) : Upper (Vmm.hang m t i f) roots := by
  have htT : t ∈ T := ht.mem_of_walk hr hp.le hw
  have hframe := ht.isFrame t htT
  have hft : f ≠ t := fun heq => hnew (heq ▸ htT)
  intro r' hr' q hq u hu j hj hpresent
  obtain ⟨h1, h2⟩ := ht.walk_hang hr hp hw hi hempty hf hnew hzero hr' hq.le
  by_cases hc : r' = r ∧ q = p ++ [i]
  · obtain rfl := Option.some.inj ((h1 hc).symm.trans hu)
    have hread : readEntry (Vmm.hang m t i f) f j = 0 :=
      readEntry_clear hj fun x hx => hang_apply_new hframe hi hf hft hzero hx
    rw [hread] at hpresent
    exact absurd (Nat.zero_and _) hpresent
  · rw [h2 hc] at hu
    by_cases hslot : u = t ∧ j = i
    · obtain ⟨rfl, rfl⟩ := hslot
      have hread : readEntry (Vmm.hang m u j f) u j = f ||| flagPresent ||| flagWritable :=
        readEntry_store_same (tableEntry_spec hf).2.2
      rw [hread]
      exact tableEntry_bits hf
    · have hne : u ≠ t ∨ j ≠ i := by
        by_contra hcon
        push Not at hcon
        exact hslot hcon
      rw [readEntry_hang_of_ne hframe hi (ht.isFrame u (ht.mem_of_walk hr' hq.le hu)) hj hne] at hpresent ⊢
      exact h r' hr' q hq u hu j hj hpresent

end walks

/-! ### Calls -/

section calls

variable {A : Type} {P : Ownership A} {alloc : Machine A → ℕ × Machine A} {roots : Set ℕ} {s : Machine A}
  {F T : Set ℕ} {r v : ℕ}

/-- `get_or_alloc` sets the flags of a new entry of an upper level. -/
theorem Upper.getOrAlloc (h : Upper s.mem roots) (halloc : P.Allocator alloc) (howns : P.Owns s F)
    (ht : Tables s.mem roots T) (hsub : T ⊆ F) (hr : r ∈ roots) {q : List ℕ} (hq : q.length < 3) {t i : ℕ}
    (hw : walk (child s.mem) r q = some t) (hi : i < ptEntries) : Upper (Vmm.getOrAlloc alloc s t i).2.mem roots := by
  by_cases hpresent : readEntry s.mem t i &&& flagPresent = 0
  · by_cases h0 : (alloc s).1 = 0
    · rw [getOrAlloc_of_fail hpresent h0]
      exact h.congr ht fun t htT => halloc.mem howns t (hsub htT)
    · rw [getOrAlloc_of_absent halloc howns hi hpresent h0]
      have hclear : ∀ u ∈ T, ∀ x, InPage u x → (clearTable (alloc s).2 (alloc s).1).mem x = s.mem x :=
        fun u hu x hx => clear_apply_of_held halloc howns h0 (hsub hu) hx
      have hempty : child (clearTable (alloc s).2 (alloc s).1).mem t i = none := by
        rw [child_congr (hclear t (ht.mem_of_walk hr hq.le hw))]
        exact if_neg fun hc => hc.2 hpresent
      refine (h.congr ht hclear).hang (ht.congr hclear) hr hq ((ht.walk_congr hclear hr hq.le).trans hw) hi hempty
        (newTable_isFrame halloc howns h0) (fun hmem => halloc.fresh howns h0 (hsub hmem)) fun x hx => ?_
      rw [clearTable_apply, if_pos hx]
  · rw [getOrAlloc_of_present hpresent]
    exact h

/-- `vmm_map_page` keeps the flags of the upper levels. -/
theorem Upper.mapPage (h : Upper s.mem roots) (halloc : P.Allocator alloc) (howns : P.Owns s F)
    (ht : Tables s.mem roots T) (hsub : T ⊆ F) (hr : r ∈ roots) (phys flags : ℕ) :
    Upper (vmmMapPage alloc s r v phys flags).mem roots := by
  have hway : Upper (ptFor alloc s r v).2.mem roots :=
    ptFor_rule (Q := fun m => Upper m.mem roots) halloc hr
      (fun howns ht hsub hq hw hi h => h.getOrAlloc halloc howns ht hsub hr hq hw hi) howns ht hsub v h
  obtain ⟨F', T', hg, hpt⟩ := ptFor_spec halloc howns ht hsub hr v
  rw [vmmMapPage_eq]
  by_cases h0 : (ptFor alloc s r v).1 = 0
  · rw [if_pos h0]
    exact hway
  · rw [if_neg h0]
    exact hway.leafWrite hg.tables hr (hpt h0) _

/-- `vmm_unmap_page` keeps the flags of the upper levels. -/
theorem Upper.unmapPage (h : Upper s.mem roots) (ht : Tables s.mem roots T) (hr : r ∈ roots) :
    Upper (vmmUnmapPage s r v).mem roots := by
  rw [vmmUnmapPage_eq]
  cases hpt : pageTable s.mem r v with
  | none => exact h
  | some pt => exact h.leafWrite ht hr hpt 0

/-- A new address space has no entries. -/
theorem Upper.create (h : Upper s.mem roots) (halloc : P.Allocator alloc) (howns : P.Owns s F)
    (ht : Tables s.mem roots T) (hsub : T ⊆ F) (h0 : (alloc s).1 ≠ 0) :
    Upper (clearTable (alloc s).2 (alloc s).1).mem (Set.insert (alloc s).1 roots) := by
  have hzero : ∀ x, InPage (alloc s).1 x → (clearTable (alloc s).2 (alloc s).1).mem x = 0 := by
    intro x hx
    rw [clearTable_apply, if_pos hx]
  have hkeep : ∀ u ∈ T, ∀ x, InPage u x → (clearTable (alloc s).2 (alloc s).1).mem x = s.mem x :=
    fun u hu x hx => clear_apply_of_held halloc howns h0 (hsub hu) hx
  -- what follows is about any memory in which the new table is empty and the others are as they were
  generalize (clearTable (alloc s).2 (alloc s).1).mem = m at hzero hkeep ⊢
  have hold : Upper m roots := h.congr ht hkeep
  rintro r (rfl | hr) p hp t hw i hi hpresent
  · obtain ⟨-, rfl⟩ := walk_of_empty (child_clear hzero) hw
    rw [readEntry_clear hi hzero] at hpresent
    exact absurd (Nat.zero_and _) hpresent
  · exact hold r hr p hp t hw i hi hpresent

end calls

/-! ### Runs -/

/-- The flags of the latest `vmm_map_page` of each page that is mapped, one call later. -/
def requestedStep (req : ℕ → ℕ → Option ℕ) : Op → ℕ → ℕ → Option ℕ
  | .create => req
  | .map pml4 virt _ flags => Function.update req pml4 (Function.update (req pml4) (vpn virt) (some flags))
  | .unmap pml4 virt => Function.update req pml4 (Function.update (req pml4) (vpn virt) none)

/-- The flags of the latest `vmm_map_page` of each page of each address space. -/
def requested (ops : List Op) : ℕ → ℕ → Option ℕ := ops.foldl requestedStep fun _ _ => none

section runs

variable {A : Type} (alloc : Machine A → ℕ × Machine A)

/-- `vmm_map_page` gets every frame that it asks for. -/
def GetsFrames (c : Run A) : Op → Prop
  | .map pml4 virt _ _ => FramesFor alloc c.state pml4 (tablePath virt)
  | _ => True

instance (c : Run A) (op : Op) : Decidable (GetsFrames alloc c op) :=
  match op with
  | .create => isTrue trivial
  | .map pml4 virt _ _ => inferInstanceAs (Decidable (FramesFor alloc c.state pml4 (tablePath virt)))
  | .unmap _ _ => isTrue trivial

/-- There are enough frames for the run. -/
def EnoughFrames : Run A → List Op → Prop
  | _, [] => True
  | c, op :: ops => GetsFrames alloc c op ∧ EnoughFrames (step alloc c op) ops

instance decidableEnoughFrames : (c : Run A) → (ops : List Op) → Decidable (EnoughFrames alloc c ops)
  | _, [] => isTrue trivial
  | c, op :: ops => @instDecidableAnd _ _ _ (decidableEnoughFrames (step alloc c op) ops)

variable {alloc}

/-- The mapped pages have the flags that were asked for, and the entries above them are in order. -/
structure Granted (c : Run A) (req : ℕ → ℕ → Option ℕ) : Prop where
  upper : Upper c.state.mem {r | r ∈ c.roots}
  flags : ∀ r n, (spaces c r n).map Prod.snd = (req r n).map fun flags => (flags &&& 0xFFF) ||| flagPresent

/-- One entry changes, and the request for it. -/
theorem map_update {S : ℕ → AddressSpace} {req : ℕ → ℕ → Option ℕ} {g : ℕ → ℕ} {o : Option (ℕ × ℕ)} {q : Option ℕ}
    (h : ∀ r n, (S r n).map Prod.snd = (req r n).map g) (hnew : o.map Prod.snd = q.map g) (p k r n : ℕ) :
    (Function.update S p (Function.update (S p) k o) r n).map Prod.snd
      = (Function.update req p (Function.update (req p) k q) r n).map g := by
  by_cases hr : r = p
  · subst hr
    rw [Function.update_self, Function.update_self]
    by_cases hn : n = k
    · subst hn
      rw [Function.update_self, Function.update_self, hnew]
    · rw [Function.update_of_ne hn, Function.update_of_ne hn, h]
  · rw [Function.update_of_ne hr, Function.update_of_ne hr, h]

/-- One call grants what was asked for. -/
theorem Granted.step {P : Ownership A} {c : Run A} {F T : Set ℕ} {req : ℕ → ℕ → Option ℕ} (h : Granted c req)
    (hinv : Inv P c F T) (halloc : P.Allocator alloc) {op : Op} (hv : c.Valid op) (hframes : GetsFrames alloc c op) :
    Granted (Vmm.step alloc c op) (requestedStep req op) := by
  cases op with
  | create =>
      obtain ⟨-, hspaces, -⟩ := hinv.create halloc
      refine ⟨?_, fun r n => ?_⟩
      · by_cases h0 : (alloc c.state).1 = 0
        · have hcreate : vmmCreateAddressSpace alloc c.state = (0, (alloc c.state).2) := if_pos h0
          simp only [Vmm.step, hcreate, if_true]
          exact h.upper.congr hinv.tables fun t ht => halloc.mem hinv.owns t (hinv.subset ht)
        · have hcreate : vmmCreateAddressSpace alloc c.state
              = ((alloc c.state).1, clearTable (alloc c.state).2 (alloc c.state).1) := if_neg h0
          have hroots : {r | r ∈ (alloc c.state).1 :: c.roots} = Set.insert (alloc c.state).1 {r | r ∈ c.roots} := by
            ext r
            exact List.mem_cons
          simp only [Vmm.step, hcreate, h0, if_false]
          rw [hroots]
          exact h.upper.create halloc hinv.owns hinv.tables hinv.subset h0
      · rw [hspaces]
        exact h.flags r n
  | map pml4 virt phys flags =>
      obtain ⟨-, -, hspaces⟩ := hinv.map halloc hv virt phys flags
      have hpt := (ptFor_ne_zero_iff halloc hinv.owns hinv.tables hinv.subset hv virt).mpr hframes
      refine ⟨h.upper.mapPage halloc hinv.owns hinv.tables hinv.subset hv phys flags, fun r n => ?_⟩
      rw [hspaces hpt]
      exact map_update h.flags rfl pml4 (vpn virt) r n
  | unmap pml4 virt =>
      obtain ⟨-, hspaces⟩ := hinv.unmap hv virt
      refine ⟨h.upper.unmapPage hinv.tables hv, fun r n => ?_⟩
      rw [hspaces]
      exact map_update h.flags rfl pml4 (vpn virt) r n

/-- A run grants what was asked for last. -/
theorem Granted.exec {P : Ownership A} (halloc : P.Allocator alloc) {ops : List Op} :
    ∀ {c : Run A} {F T : Set ℕ} {req}, Granted c req → Inv P c F T → ValidRun alloc c ops → EnoughFrames alloc c ops →
      Granted (Vmm.exec alloc c ops) (ops.foldl requestedStep req) := by
  induction ops with
  | nil => exact fun h _ _ _ => h
  | cons op ops ih =>
      intro c F T req h hinv hv hframes
      obtain ⟨F', T', hinv'⟩ := hinv.step halloc hv.1
      exact ih (h.step hinv halloc hv.1 hframes.1) hinv' hv.2 hframes.2

/-- In every run with enough frames: a page is mapped exactly if its latest request is a `vmm_map_page`, and it has the
permissions of that request exactly if these leave out user access. -/
theorem as_requested_iff (P : Ownership A) (alloc : Machine A → ℕ × Machine A) (halloc : P.Allocator alloc)
    (s : Machine A) (F : Set ℕ) (howns : P.Owns s F) (ops : List Op) (hv : ValidRun alloc ⟨s, []⟩ ops)
    (hframes : EnoughFrames alloc ⟨s, []⟩ ops) :
    ∀ pml4 ∈ (exec alloc ⟨s, []⟩ ops).roots, ∀ virt,
      (translate (exec alloc ⟨s, []⟩ ops).state.mem pml4 virt = none ↔ requested ops pml4 (vpn virt) = none) ∧
      ∀ flags, requested ops pml4 (vpn virt) = some flags →
        (AsRequested (exec alloc ⟨s, []⟩ ops).state.mem pml4 virt flags ↔ flags &&& flagUser = 0) := by
  have hnil : Granted (⟨s, []⟩ : Run A) fun _ _ => none :=
    ⟨fun r hr => absurd hr List.not_mem_nil, fun r n => by rw [spaces_of_notMem List.not_mem_nil]; rfl⟩
  obtain ⟨hupper, hflags⟩ := Granted.exec halloc hnil (inv_nil howns) hv hframes
  intro pml4 hr virt
  have hpage := hflags pml4 (vpn virt)
  rw [spaces_of_mem hr, space_vpn] at hpage
  refine ⟨?_, fun flags hreq => ?_⟩
  · rw [← Option.map_eq_none_iff (f := Prod.snd), hpage, Option.map_eq_none_iff]
    rfl
  · have hsome : requested ops pml4 (vpn virt) = some flags := hreq
    unfold requested at hsome
    rw [hsome] at hpage
    obtain ⟨⟨f, fl⟩, ht, rfl⟩ := Option.map_eq_some_iff.mp hpage
    exact hupper.asRequested_iff hr ht

end runs

/-! ### A page for the kernel, a page for user mode -/

/-- A stack with three free pages has enough of them for a call. -/
theorem framesFor_popFree (p : List ℕ) : ∀ {s : Machine (List ℕ)} {t : ℕ}, p.length ≤ s.pages.length →
    (∀ a ∈ s.pages, a ≠ 0) → FramesFor popFree s t p := by
  induction p with
  | nil => exact fun _ _ => trivial
  | cons i p ih =>
      rintro ⟨m, pages⟩ t hlen hne
      rw [FramesFor]
      cases pages with
      | nil => exact absurd hlen (by simp)
      | cons a l =>
          have hshort : p.length ≤ l.length := Nat.le_of_succ_le_succ hlen
          split_ifs with habsent
          · exact ⟨hne a List.mem_cons_self, ih hshort fun b hb => hne b (List.mem_cons_of_mem a hb)⟩
          · exact ih (hshort.trans (Nat.le_succ _)) hne

/-- At the start nothing is held. -/
theorem owns_freePages : stack.Owns freePages.machine ∅ := by
  refine ⟨fun f hf => absurd hf (Set.notMem_empty f), by decide, fun f hf => ⟨?_, Set.notMem_empty f⟩⟩
  have hcases : f = 0x100000 ∨ f = 0x101000 ∨ f = 0x102000 ∨ f = 0x103000 ∨ f = 0x104000 ∨ f = 0x105000 ∨
      f = 0x106000 := by simpa [freePages] using hf
  rcases hcases with rfl | rfl | rfl | rfl | rfl | rfl | rfl
  all_goals exact ⟨by decide, by decide, by decide⟩

/-- A page of a new address space, mapped with the flags, and another one unmapped. -/
def onePage (flags : ℕ) : List Op :=
  [.create, .map 0x100000 0x400000 0x9000 flags, .unmap 0x100000 0x401000]

/-- The run has one page table. -/
theorem onePage_roots (flags : ℕ) : (exec popFree ⟨freePages.machine, []⟩ (onePage flags)).roots = [0x100000] := rfl

/-- The run uses a page table that it has created. -/
theorem onePage_valid (flags : ℕ) : ValidRun popFree ⟨freePages.machine, []⟩ (onePage flags) :=
  ⟨trivial, List.mem_singleton.mpr rfl, List.mem_singleton.mpr rfl, trivial⟩

/-- The run gets its frames. -/
theorem onePage_frames (flags : ℕ) : EnoughFrames popFree ⟨freePages.machine, []⟩ (onePage flags) := by
  have hpages : (step popFree ⟨freePages.machine, []⟩ .create).state.pages
      = [0x101000, 0x102000, 0x103000, 0x104000, 0x105000, 0x106000] := rfl
  unfold onePage EnoughFrames
  refine ⟨trivial, ?_⟩
  generalize step popFree ⟨freePages.machine, []⟩ .create = c at hpages ⊢
  refine ⟨framesFor_popFree (tablePath 0x400000) ?_ ?_, trivial, trivial⟩
  · rw [tablePath_length, hpages]
    decide
  · rw [hpages]
    decide

/-- A page that is mapped as writable. -/
theorem as_requested_iff_sample :
    (translate (exec popFree ⟨freePages.machine, []⟩ (onePage 3)).state.mem 0x100000 0x400000 = none ↔
      requested (onePage 3) 0x100000 (vpn 0x400000) = none) ∧
    (AsRequested (exec popFree ⟨freePages.machine, []⟩ (onePage 3)).state.mem 0x100000 0x400000 3 ↔
      3 &&& flagUser = 0) := by
  have hroot : 0x100000 ∈ (exec popFree ⟨freePages.machine, []⟩ (onePage 3)).roots := by
    rw [onePage_roots]
    exact List.mem_singleton_self _
  obtain ⟨hmapped, hflags⟩ := as_requested_iff stack popFree popFree_allocator _ ∅ owns_freePages _ (onePage_valid 3)
    (onePage_frames 3) 0x100000 hroot 0x400000
  exact ⟨hmapped, hflags 3 (by decide +kernel)⟩

/-- The flags are those that `demand_paging_handle_fault` passes. -/
theorem user_access_not_granted :
    ¬ ∀ (P : Ownership (List ℕ)) (alloc : Machine (List ℕ) → ℕ × Machine (List ℕ)), P.Allocator alloc →
      ∀ (s : Machine (List ℕ)) (F : Set ℕ), P.Owns s F → ∀ ops : List Op, ValidRun alloc ⟨s, []⟩ ops →
        EnoughFrames alloc ⟨s, []⟩ ops → ∀ pml4 ∈ (exec alloc ⟨s, []⟩ ops).roots, ∀ virt flags,
          requested ops pml4 (vpn virt) = some flags →
            AsRequested (exec alloc ⟨s, []⟩ ops).state.mem pml4 virt flags := by
  intro hclaim
  have hroot : 0x100000 ∈ (exec popFree ⟨freePages.machine, []⟩ (onePage 7)).roots := by
    rw [onePage_roots]
    exact List.mem_singleton_self _
  have hreq := hclaim stack popFree popFree_allocator _ ∅ owns_freePages _ (onePage_valid 7) (onePage_frames 7) 0x100000
    hroot 0x400000 7 (by decide +kernel)
  have hnil : Granted (⟨freePages.machine, []⟩ : Run (List ℕ)) fun _ _ => none :=
    ⟨fun r hr => absurd hr List.not_mem_nil, fun r n => by rw [spaces_of_notMem List.not_mem_nil]; rfl⟩
  obtain ⟨hupper, -⟩ :=
    Granted.exec popFree_allocator hnil (inv_nil owns_freePages) (onePage_valid 7) (onePage_frames 7)
  exact hupper.not_user hroot 0x400000 (hreq.1.mpr (by decide))

end PrometheusKernel.Vmm
