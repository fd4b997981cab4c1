import PrometheusKernel.Cow.Refs
import PrometheusKernel.Vmm.Refinement

/-!
# What the functions of `cow.c` do

* `Footing.getRef`: `cow_get_ref` returns null or the entry of the frame and changes no count.
* `cowMarkPage_spec`: `cow_mark_page` counts one more and makes the entry read-only and
  copy-on-write.
* `cowHandleFault_spec`: `cow_handle_fault` leaves an entry that is not copy-on-write alone, upgrades
  it in place at count 1, and otherwise copies the page to a fresh frame, one count less.

Each also says which frames have an entry in the reference table afterwards.

All are stated on the page table entry and the counts; what they mean for reads is in
`Cow.Refinement`.
-/

namespace PrometheusKernel.Cow

open ByteMem LinkedList Vmm TableTree

variable {A : Type} {P : Ownership A} {alloc : Machine A → ℕ × Machine A} {s : State A}
  {roots : Set ℕ} {g : Ghost}

/-! ### `cow_get_ref` -/

/-- Memory with a new reference entry. -/
def newRef (m : Mem) (ref physAddr next : ℕ) : Mem :=
  store 8 (store 4 (store 4 (store 8 m ref physAddr) (ref + 8) 0) (ref + 12) 0) (ref + 16) next

/-- A new entry of the table is written into its page. -/
theorem newRef_apply {m : Mem} {ref physAddr next x : ℕ} (hx : ¬ InPage ref x) :
    newRef m ref physAddr next x = m x := by
  unfold InPage pageSize at hx
  unfold newRef
  rw [store_apply_of_notMem, store_apply_of_notMem, store_apply_of_notMem, store_apply_of_notMem]
  · rintro ⟨h1, h2⟩
    omega
  · rintro ⟨h1, h2⟩
    omega
  · rintro ⟨h1, h2⟩
    omega
  · rintro ⟨h1, h2⟩
    omega

/-- The fields of a new entry. -/
theorem newRef_fields {m : Mem} {ref physAddr next : ℕ} (hp : physAddr < 2 ^ 64)
    (hn : next < 2 ^ 64) :
    refPhysicalAddress (newRef m ref physAddr next) ref = physAddr ∧
      refCount (newRef m ref physAddr next) ref = 0 ∧
      refNext (newRef m ref physAddr next) ref = next := by
  unfold refPhysicalAddress refCount refNext newRef
  refine ⟨?_, ?_, ?_⟩
  · rw [load_store_disjoint (by omega), load_store_disjoint (by omega),
      load_store_disjoint (by omega), load_store_of_lt (by norm_num; exact hp)]
  · rw [load_store_disjoint (by omega), load_store_disjoint (by omega),
      load_store_of_lt (by norm_num)]
  · rw [load_store_of_lt (by norm_num; exact hn)]

/-- A bucket head is a machine word. -/
theorem Footing.hashTable_lt (h : Footing P s roots g) (k : ℕ) : s.hashTable k < 2 ^ 64 := by
  have hl := h.refs.list k
  cases hc : g.chains k with
  | nil =>
      rw [hc] at hl
      rw [show s.hashTable k = 0 from hl]
      norm_num
  | cons a l =>
      rw [hc] at hl
      rw [hl.1]
      have ha : a ∈ g.chains k := hc ▸ List.mem_cons_self
      exact lt_of_lt_of_le (h.ref_isFrame a (h.refs.mem k a ha)).lt (by norm_num)

/-- `cow_get_ref` for the frame `f` has led from `s` to `s'` and returns `ref`. -/
structure Found (P : Ownership A) (roots : Set ℕ) (s : State A) (g : Ghost) (f ref : ℕ) (s' : State A)
    (g' : Ghost) : Prop where
  kept : Kept P roots s g s' g'
  cnt_eq : g'.cnt = g.cnt
  held : g.F ⊆ g'.F
  held_mem : ∀ u ∈ g.F, ∀ x, InPage u x → s'.mem x = s.mem x
  mem : ref ≠ 0 → ref ∈ g'.chains (cowHash f)
  phys : ref ≠ 0 → refPhysicalAddress s'.mem ref = f
  entries : ∀ x, g'.HasEntry s'.mem x ↔ g.HasEntry s.mem x ∨ ref ≠ 0 ∧ x = f

/-- A new entry is allocated and linked. -/
theorem Footing.addRef (h : Footing P s roots g) (halloc : P.Allocator alloc)
    (h0 : (alloc s.toMachine).1 ≠ 0) {f : ℕ} (hf : f < 2 ^ 64)
    (hnone : ∀ ref ∈ g.chains (cowHash f), refPhysicalAddress s.mem ref ≠ f) :
    ∃ g', Found P roots s g f (alloc s.toMachine).1
        { toMachine := { (alloc s.toMachine).2 with
            mem := newRef (alloc s.toMachine).2.mem (alloc s.toMachine).1 f
              (s.hashTable (cowHash f)) }
          hashTable := Function.update s.hashTable (cowHash f) (alloc s.toMachine).1 } g' := by
  set ref := (alloc s.toMachine).1 with href
  set m' := newRef (alloc s.toMachine).2.mem ref f (s.hashTable (cowHash f)) with hm'
  have hfresh : ref ∉ g.F := halloc.fresh h.owns h0
  have howns := halloc.owns h.owns h0
  have hrefF : IsFrame ref := P.isFrame howns _ (Set.mem_insert _ _)
  have hkeep : ∀ f ∈ g.F, ∀ x, InPage f x → m' x = s.mem x := by
    intro f hf x hx
    have hne : ¬ InPage ref x := fun hx' =>
      hfresh (hrefF.eq_of_inPage (h.isFrame hf) hx' hx ▸ hf)
    rw [hm', newRef_apply hne]
    exact halloc.mem h.owns f hf x hx
  obtain ⟨hphys, hcount, hnext⟩ := @newRef_fields (alloc s.toMachine).2.mem ref f _ hf
    (h.hashTable_lt (cowHash f))
  refine ⟨{ g with F := Set.insert ref g.F, R := Set.insert ref g.R,
                   chains := Function.update g.chains (cowHash f) (ref :: g.chains (cowHash f)) },
    ⟨⟨?_, ?_, ?_, h.tF.trans (Set.subset_insert _ _), Set.insert_subset_insert h.rF,
      h.dF.trans (Set.subset_insert _ _), ?_, h.td, ?_⟩, rfl, rfl, fun t ht => hkeep t (h.tF ht),
      fun d hd => hkeep d (h.dF hd)⟩, rfl, Set.subset_insert _ _, hkeep, fun _ => ?_, fun _ => hphys,
      fun x => ?_⟩
  · refine P.write_state howns rfl fun x hx => ?_
    exact newRef_apply (hx ref (Set.mem_insert _ _))
  · exact h.tables.congr fun t ht => hkeep t (h.tF ht)
  · exact h.refs.add hrefF (fun r hr => hkeep r (h.rF hr)) hnone hphys hcount hnext
  · rintro t ht (hr | hr)
    · exact hfresh (hr ▸ h.tF ht)
    · exact h.tr t ht hr
  · rintro d hd (hr | hr)
    · exact hfresh (hr ▸ h.dF hd)
    · exact h.rd d hd hr
  · simp only [Function.update_self]
    exact List.mem_cons_self
  · have hold : ∀ r ∈ g.chains (cowHash x), refPhysicalAddress m' r = refPhysicalAddress s.mem r :=
      fun r hr => (refFields_congr (hkeep r (h.rF (h.refs.mem _ r hr)))).1
    show (∃ r ∈ Function.update g.chains (cowHash f) (ref :: g.chains (cowHash f)) (cowHash x),
      refPhysicalAddress m' r = x) ↔ _
    by_cases hx : cowHash x = cowHash f
    · rw [← hx, Function.update_self]
      constructor
      · rintro ⟨r, hr, hrx⟩
        rcases List.mem_cons.mp hr with rfl | hr
        · exact Or.inr ⟨h0, hrx.symm.trans hphys⟩
        · exact Or.inl ⟨r, hr, (hold r hr).symm.trans hrx⟩
      · rintro (⟨r, hr, hrx⟩ | ⟨-, rfl⟩)
        · exact ⟨r, List.mem_cons_of_mem _ hr, (hold r hr).trans hrx⟩
        · exact ⟨ref, List.mem_cons_self, hphys⟩
    · rw [Function.update_of_ne hx]
      constructor
      · rintro ⟨r, hr, hrx⟩
        exact Or.inl ⟨r, hr, (hold r hr).symm.trans hrx⟩
      · rintro (⟨r, hr, hrx⟩ | ⟨-, rfl⟩)
        · exact ⟨r, hr, (hold r hr).trans hrx⟩
        · exact absurd rfl hx

/-- `cow_get_ref`: null if no entry can be made, else the entry; no count changes. -/
theorem Footing.getRef (h : Footing P s roots g) (halloc : P.Allocator alloc) (physAddr : ℕ) :
    ∃ ref s' g', cowGetRef alloc s physAddr = some (ref, s') ∧
      Found P roots s g (frameOf physAddr) ref s' g' := by
  have hmask : physAddr &&& complement 0xFFF = frameOf physAddr := rfl
  rcases h.refs.findRef h.ref_isFrame (frameOf physAddr) with
    ⟨hfind, hnone⟩ | ⟨ref, hmem, hphys, h0, hfind⟩
  · by_cases h0 : (alloc s.toMachine).1 = 0
    · have hkept := h.allocFail halloc h0
      have hheld : ∀ u ∈ g.F, ∀ x, InPage u x → (alloc s.toMachine).2.mem x = s.mem x :=
        fun u hu => halloc.mem h.owns u hu
      refine ⟨0, { s with toMachine := (alloc s.toMachine).2 }, g, ?_, hkept, rfl, subset_rfl, hheld,
        fun hne => absurd rfl hne, fun hne => absurd rfl hne, fun x => ?_⟩
      · unfold cowGetRef
        simp only [hmask, hfind, h0, if_true]
      · have heq := h.hasEntry_congr rfl fun ref href => hheld ref (h.rF href)
        rw [heq]
        exact (or_iff_left fun hx => hx.1 rfl).symm
    · obtain ⟨g', hfound⟩ := h.addRef halloc h0 (frameOf_lt physAddr) hnone
      refine ⟨_, _, g', ?_, hfound⟩
      unfold cowGetRef
      simp only [hmask, hfind, h0, if_false]
      rfl
  · refine ⟨ref, s, g, ?_, ⟨h, rfl, rfl, fun _ _ _ _ => rfl, fun _ _ _ _ => rfl⟩, rfl, subset_rfl,
      fun _ _ _ _ => rfl, fun _ => hmem, fun _ => hphys, fun x => ?_⟩
    · obtain ⟨k, rfl⟩ : ∃ k, ref = k + 1 := ⟨ref - 1, by omega⟩
      unfold cowGetRef
      simp only [hmask, hfind]
    · refine (or_iff_left_of_imp ?_).symm
      rintro ⟨-, rfl⟩
      exact ⟨ref, hmem, hphys⟩

/-! ### Entries -/

/-- A copy-on-write entry, by its flags. -/
def isCow (flags : ℕ) : Bool := flags.testBit 9

/-- A writable entry, by its flags. -/
def isWritable (flags : ℕ) : Bool := flags.testBit 1

/-- The frame and the flags of a present entry. -/
theorem decode_eq_some {e f fl : ℕ} (h : decode e = some (f, fl)) :
    e &&& flagPresent ≠ 0 ∧ e &&& frameMask = f ∧ e &&& 0xFFF = fl := by
  unfold decode at h
  split_ifs at h with hp
  obtain ⟨h1, h2⟩ := Prod.mk.inj (Option.some.inj h)
  exact ⟨hp, h1, h2⟩

/-- A word with bit 0 is a present entry. -/
theorem decode_of_testBit {e : ℕ} (h : e.testBit 0 = true) :
    decode e = some (e &&& frameMask, e &&& 0xFFF) := by
  unfold decode
  rw [if_neg]
  rw [and_flagPresent_eq_zero_iff, h]
  simp

/-- The flags are the low bits. -/
theorem testBit_low {e i : ℕ} (hi : i < 12) : (e &&& 0xFFF).testBit i = e.testBit i := by
  rw [Nat.testBit_and, testBit_lowMask, decide_eq_true hi, Bool.and_true]

section entries

variable {e : ℕ}

/-- The entry that `cow_mark_page` writes. -/
theorem decode_mark (hp : e.testBit 0 = true) :
    ∃ fl, decode ((e &&& complement flagWritable) ||| cowFlagMask) = some (e &&& frameMask, fl) ∧
      isWritable fl = false ∧ isCow fl = true := by
  have hbit : ∀ i, ((e &&& complement flagWritable) ||| cowFlagMask).testBit i
      = ((e.testBit i && (decide (i < 64) && !decide (1 = i))) || decide (9 = i)) := by
    intro i
    rw [Nat.testBit_or, Nat.testBit_and, testBit_complement (by decide), testBit_flagWritable,
      testBit_cowFlagMask]
  have hframe : ((e &&& complement flagWritable) ||| cowFlagMask) &&& frameMask = e &&& frameMask := by
    apply Nat.eq_of_testBit_eq
    intro i
    rw [Nat.testBit_and, hbit, Nat.testBit_and, testBit_frameMask]
    by_cases hi : 12 ≤ i ∧ i < 52
    · have h1 : i < 64 := by omega
      have h2 : ¬ 1 = i := by omega
      have h3 : ¬ 9 = i := by omega
      simp [h1, h2, h3]
    · simp [hi]
  refine ⟨((e &&& complement flagWritable) ||| cowFlagMask) &&& 0xFFF, ?_, ?_, ?_⟩
  · rw [decode_of_testBit (by rw [hbit, hp]; decide), hframe]
  · unfold isWritable
    rw [testBit_low (by norm_num), hbit]
    simp
  · unfold isCow
    rw [testBit_low (by norm_num), hbit]
    simp

/-- The entry that `cow_handle_fault` writes without a copy. -/
theorem decode_upgrade (hp : e.testBit 0 = true) :
    ∃ fl, decode ((e ||| flagWritable) &&& complement cowFlagMask) = some (e &&& frameMask, fl) ∧
      isWritable fl = true ∧ isCow fl = false := by
  have hbit : ∀ i, ((e ||| flagWritable) &&& complement cowFlagMask).testBit i
      = ((e.testBit i || decide (1 = i)) && (decide (i < 64) && !decide (9 = i))) := by
    intro i
    rw [Nat.testBit_and, Nat.testBit_or, testBit_complement (by decide), testBit_flagWritable,
      testBit_cowFlagMask]
  have hframe : ((e ||| flagWritable) &&& complement cowFlagMask) &&& frameMask = e &&& frameMask := by
    apply Nat.eq_of_testBit_eq
    intro i
    rw [Nat.testBit_and, hbit, Nat.testBit_and, testBit_frameMask]
    by_cases hi : 12 ≤ i ∧ i < 52
    · have h1 : i < 64 := by omega
      have h2 : ¬ 1 = i := by omega
      have h3 : ¬ 9 = i := by omega
      simp [h1, h2, h3]
    · simp [hi]
  refine ⟨((e ||| flagWritable) &&& complement cowFlagMask) &&& 0xFFF, ?_, ?_, ?_⟩
  · rw [decode_of_testBit (by rw [hbit, hp]; decide), hframe]
  · unfold isWritable
    rw [testBit_low (by norm_num), hbit]
    simp
  · unfold isCow
    rw [testBit_low (by norm_num), hbit]
    simp

/-- The entry that `cow_handle_fault` writes after a copy. -/
theorem decode_copy (hp : e.testBit 0 = true) {f : ℕ} (hf : IsFrame f) :
    ∃ fl, decode (((f &&& frameMask) ||| (e &&& 0xFFF) ||| flagWritable)
        &&& complement cowFlagMask) = some (f, fl) ∧ isWritable fl = true ∧ isCow fl = false := by
  have hbit : ∀ i, (((f &&& frameMask) ||| (e &&& 0xFFF) ||| flagWritable)
      &&& complement cowFlagMask).testBit i
      = ((((f.testBit i && decide (12 ≤ i ∧ i < 52)) || (e.testBit i && decide (i < 12)))
        || decide (1 = i)) && (decide (i < 64) && !decide (9 = i))) := by
    intro i
    rw [Nat.testBit_and, Nat.testBit_or, Nat.testBit_or, Nat.testBit_and, Nat.testBit_and,
      testBit_frameMask, testBit_lowMask, testBit_complement (by decide), testBit_flagWritable,
      testBit_cowFlagMask]
  have hframe : (((f &&& frameMask) ||| (e &&& 0xFFF) ||| flagWritable)
      &&& complement cowFlagMask) &&& frameMask = f := by
    apply Nat.eq_of_testBit_eq
    intro i
    rw [Nat.testBit_and, hbit, testBit_frameMask]
    by_cases hi : 12 ≤ i ∧ i < 52
    · have h1 : i < 64 := by omega
      have h2 : ¬ 1 = i := by omega
      have h3 : ¬ 9 = i := by omega
      have h4 : ¬ i < 12 := by omega
      simp [hi, h1, h2, h3, h4]
    · have hfi : f.testBit i = false := by
        by_contra hne
        exact hi (IsFrame.testBit hf (by simpa using hne))
      simp [hi, hfi]
  refine ⟨(((f &&& frameMask) ||| (e &&& 0xFFF) ||| flagWritable) &&& complement cowFlagMask)
    &&& 0xFFF, ?_, ?_, ?_⟩
  · rw [decode_of_testBit (by rw [hbit, hp]; simp), hframe]
  · unfold isWritable
    rw [testBit_low (by norm_num), hbit]
    simp
  · unfold isCow
    rw [testBit_low (by norm_num), hbit]
    simp

end entries

/-- The union of words is a word. -/
theorem or_lt_of_lt {a b : ℕ} (ha : a < 2 ^ 64) (hb : b < 2 ^ 64) : a ||| b < 2 ^ 64 :=
  Nat.or_lt_two_pow ha hb

/-! ### The entry of a mapping -/

/-- The page table and the entry behind a translation. -/
theorem exists_entry {m : Mem} {r v f fl : ℕ} (ht : translate m r v = some (f, fl)) :
    ∃ pt, pageTable m r v = some pt ∧
      decode (readEntry m pt (ptIndex v)) = some (f, fl) := by
  unfold Vmm.translate at ht
  cases hpt : pageTable m r v with
  | none =>
      rw [hpt] at ht
      exact absurd ht (by simp)
  | some pt =>
      rw [hpt] at ht
      exact ⟨pt, rfl, ht⟩

/-- A complement is a word. -/
theorem complement_lt (mask : ℕ) : complement mask < 2 ^ 64 := by
  unfold complement
  omega

/-- The bytes of a page. -/
def page (m : Mem) (f : ℕ) : ℕ → UInt8 := fun off => if off < pageSize then m (f + off) else 0

/-- The bytes of a page only depend on the page. -/
theorem page_congr {m m' : Mem} {f : ℕ} (h : ∀ x, InPage f x → m' x = m x) :
    page m' f = page m f := by
  funext off
  unfold page
  split_ifs with hoff
  · exact h _ ⟨Nat.le_add_right _ _, Nat.add_lt_add_left hoff f⟩
  · rfl

/-- From `s` to `s'` nothing that a client sees has changed, and no count. -/
structure Unchanged (P : Ownership A) (roots : Set ℕ) (s : State A) (g : Ghost) (s' : State A)
    (g' : Ghost) : Prop where
  footing : Footing P s' roots g'
  D_subset : g.D ⊆ g'.D
  cnt_eq : g'.cnt = g.cnt
  data_mem : ∀ d ∈ g.D, ∀ x, InPage d x → s'.mem x = s.mem x
  translate_eq : ∀ r ∈ roots, ∀ w, translate s'.mem r w = translate s.mem r w

/-- From `s` to `s'` the mapping of `v` in the address space `r` has become `(f, fl)`, and nothing
else that a client sees has changed. -/
structure Remapped (P : Ownership A) (roots : Set ℕ) (s : State A) (g : Ghost) (r v f fl : ℕ)
    (s' : State A) (g' : Ghost) : Prop where
  footing : Footing P s' roots g'
  data_mem : ∀ d ∈ g.D, ∀ x, InPage d x → s'.mem x = s.mem x
  translate_eq : ∀ r' ∈ roots, ∀ w, translate s'.mem r' w
    = if r' = r ∧ vpn w = vpn v then some (f, fl) else translate s.mem r' w

section kept

variable {s₁ s₂ : State A} {g₁ g₂ : Ghost}

/-- A call that does nothing. -/
theorem Kept.refl (h : Footing P s roots g) : Kept P roots s g s g :=
  ⟨h, rfl, rfl, fun _ _ _ _ => rfl, fun _ _ _ _ => rfl⟩

/-- A call that changes no count leaves everything as it was. -/
theorem Kept.unchanged (h : Footing P s roots g) (h₁ : Kept P roots s g s₁ g₁)
    (hcnt : g₁.cnt = g.cnt) : Unchanged P roots s g s₁ g₁ :=
  ⟨h₁.footing, h₁.D_eq.ge, hcnt, h₁.data_mem, fun _ hr w => h.tables.translate_congr h₁.tables_mem hr w⟩

/-- Calls one after the other. -/
theorem Kept.trans (h₁ : Kept P roots s g s₁ g₁) (h₂ : Kept P roots s₁ g₁ s₂ g₂) :
    Kept P roots s g s₂ g₂ where
  footing := h₂.footing
  T_eq := h₂.T_eq.trans h₁.T_eq
  D_eq := h₂.D_eq.trans h₁.D_eq
  tables_mem t ht x hx := by
    rw [h₂.tables_mem t (h₁.T_eq ▸ ht) x hx, h₁.tables_mem t ht x hx]
  data_mem d hd x hx := by
    rw [h₂.data_mem d (h₁.D_eq ▸ hd) x hx, h₁.data_mem d hd x hx]

/-- A page table entry is written in a state that has kept the tables. -/
theorem Footing.remap (h : Footing P s roots g) (h₁ : Footing P s₁ roots g₁)
    (htables : ∀ t ∈ g.T, ∀ x, InPage t x → s₁.mem x = s.mem x)
    (hdata : ∀ d ∈ g.D, ∀ x, InPage d x → s₁.mem x = s.mem x) (hD : g.D ⊆ g₁.D) {r v pt : ℕ}
    (hr : r ∈ roots) (hpt : pageTable s.mem r v = some pt) {e f fl : ℕ} (he : e < 2 ^ 64)
    (hdec : decode e = some (f, fl)) :
    Remapped P roots s g r v f fl
        { s₁ with mem := store 8 s₁.mem (slot pt (ptIndex v)) e } g₁ ∧
      (∀ d ∈ g₁.D, ∀ x, InPage d x → store 8 s₁.mem (slot pt (ptIndex v)) e x = s₁.mem x) ∧
      g₁.HasEntry (store 8 s₁.mem (slot pt (ptIndex v)) e) = g₁.HasEntry s₁.mem := by
  have hpt₁ : pageTable s₁.mem r v = some pt := by
    rw [h.tables.pageTable_congr htables hr v, hpt]
  obtain ⟨hfoot, hkeep⟩ := h₁.leafWrite hr hpt₁ e
  have hkeepD : ∀ d ∈ g₁.D, ∀ x, InPage d x → store 8 s₁.mem (slot pt (ptIndex v)) e x = s₁.mem x :=
    fun d hd => hkeep d (h₁.dF hd) (h₁.td d hd)
  refine ⟨⟨hfoot, fun d hd x hx => ?_, fun r' hr' w => ?_⟩, hkeepD, ?_⟩
  · exact (hkeepD d (hD hd) x hx).trans (hdata d hd x hx)
  · refine (h₁.tables.translate_leafWrite hr hpt₁ he hr' w).trans ?_
    rw [hdec, h.tables.translate_congr htables hr' w]
  · exact h₁.hasEntry_congr rfl fun ref href => hkeep ref (h₁.rF href) fun ht => h₁.tr ref ht href

end kept

/-- The slot that `cow_get_pte` returns for a mapping, and what it holds. -/
theorem Footing.pte (h : Footing P s roots g) {r v f fl : ℕ} (hr : r ∈ roots)
    (ht : translate s.mem r v = some (f, fl)) :
    ∃ pt, pageTable s.mem r v = some pt ∧ cowGetPte s.mem r v = slot pt (ptIndex v) ∧
      slot pt (ptIndex v) ≠ 0 ∧ decode (load 8 s.mem (slot pt (ptIndex v))) = some (f, fl) := by
  obtain ⟨pt, hpt, hdec⟩ := exists_entry ht
  refine ⟨pt, hpt, ?_, slot_ne_zero (h.tables.ne_zero_of_pageTable hr hpt), hdec⟩
  rw [cowGetPte_eq, hpt]

/-- Where nothing is mapped, `cow_get_pte` returns null or a slot that is not present. -/
theorem Footing.pte_of_unmapped (h : Footing P s roots g) {r v : ℕ} (hr : r ∈ roots)
    (ht : translate s.mem r v = none) :
    cowGetPte s.mem r v = 0 ∨
      cowGetPte s.mem r v ≠ 0 ∧ load 8 s.mem (cowGetPte s.mem r v) &&& flagPresent = 0 := by
  rw [cowGetPte_eq]
  unfold Vmm.translate at ht
  cases hpt : pageTable s.mem r v with
  | none => exact Or.inl rfl
  | some pt =>
      rw [hpt, Option.bind_some] at ht
      refine Or.inr ⟨slot_ne_zero (h.tables.ne_zero_of_pageTable hr hpt), ?_⟩
      unfold decode at ht
      split_ifs at ht with hp
      exact hp

/-- A present entry has bit 0. -/
theorem testBit_zero_of_decode {e f fl : ℕ} (h : decode e = some (f, fl)) : e.testBit 0 = true := by
  have hp := (decode_eq_some h).1
  rw [ne_eq, and_flagPresent_eq_zero_iff] at hp
  simpa using hp

/-- The flag of copy-on-write, in the entry. -/
theorem isCow_iff_of_decode {e f fl : ℕ} (h : decode e = some (f, fl)) :
    isCow fl = true ↔ e &&& cowFlagMask ≠ 0 := by
  obtain ⟨-, -, rfl⟩ := decode_eq_some h
  unfold isCow
  rw [testBit_low (by norm_num), ne_eq, and_cowFlagMask_eq_zero_iff, Bool.not_eq_false]

/-! ### Counts -/

/-- From `s` to `s'` the count of `f` has become `n`, and `f` has an entry. -/
structure Counted (s : State A) (g : Ghost) (f n : ℕ) (s' : State A) (g' : Ghost) : Prop where
  cnt_eq : g'.cnt = Function.update g.cnt f n
  entries : ∀ x, g'.HasEntry s'.mem x ↔ g.HasEntry s.mem x ∨ x = f

/-- An entry that was found keeps its count. -/
theorem Found.mono {f ref : ℕ} {s' : State A} {g' : Ghost} (h : Found P roots s g f ref s' g') (h0 : ref ≠ 0) :
    Counted s g f (g.cnt f) s' g' := by
  refine ⟨?_, fun x => ?_⟩
  · rw [h.cnt_eq, Function.update_eq_self]
  · rw [h.entries x]
    exact or_congr_right (and_iff_right h0)

/-- The count does not depend on other memory. -/
theorem Counted.congr_mem {f n : ℕ} {s' s'' : State A} {g' : Ghost} (h : Counted s g f n s' g')
    {g'' : Ghost} (hcnt : g''.cnt = g'.cnt) (hm : g''.HasEntry s''.mem = g'.HasEntry s'.mem) :
    Counted s g f n s'' g'' := by
  refine ⟨hcnt.trans h.cnt_eq, fun x => ?_⟩
  rw [hm]
  exact h.entries x

/-- The count behind an entry that has been found. -/
theorem Found.refCount_eq {f ref : ℕ} {s' : State A} {g' : Ghost} (h : Found P roots s g f ref s' g')
    (h0 : ref ≠ 0) : refCount s'.mem ref = g.cnt f := by
  rw [h.kept.footing.refs.count _ _ (h.mem h0), h.phys h0, h.cnt_eq]

/-- The count of an entry that has been found is set. -/
theorem Found.setCount {f ref : ℕ} {s' : State A} {g' : Ghost} (h : Found P roots s g f ref s' g')
    (h0 : ref ≠ 0) {n : ℕ} (hn : n < 2 ^ 32) :
    Kept P roots s g (setRefCount s' ref n) { g' with cnt := Function.update g.cnt f n } ∧
      Counted s g f n (setRefCount s' ref n) { g' with cnt := Function.update g.cnt f n } := by
  have hset := h.kept.footing.setCount (h.mem h0) (h.phys h0) hn
  rw [h.cnt_eq] at hset
  refine ⟨h.kept.trans hset, rfl, fun x => ?_⟩
  have hkeep : Ghost.HasEntry { g' with cnt := Function.update g.cnt f n } (setRefCount s' ref n).mem
      = g'.HasEntry s'.mem := by
    refine Ghost.hasEntry_congr rfl fun k ref' href' => ?_
    exact h.kept.footing.refs.phys_setCount h.kept.footing.ref_isFrame (h.mem h0) href'
  rw [hkeep, h.entries x]
  exact or_congr_right (and_iff_right h0)

/-! ### `cow_mark_page` -/

/-- `cow_mark_page`: it fails and changes nothing, or the page is mapped, is counted once more and gets
a read-only copy-on-write entry. -/
theorem cowMarkPage_spec (h : Footing P s roots g) (halloc : P.Allocator alloc) {r : ℕ} (hr : r ∈ roots)
    (v : ℕ) :
    (∃ s' g', cowMarkPage alloc s r v = some (-1, s') ∧ Unchanged P roots s g s' g' ∧
        g'.HasEntry s'.mem = g.HasEntry s.mem) ∨
      ∃ f fl s' g' fl', translate s.mem r v = some (f, fl) ∧ cowMarkPage alloc s r v = some (0, s') ∧
        (isWritable fl' = false ∧ isCow fl' = true) ∧ Remapped P roots s g r v f fl' s' g' ∧
        g'.D = g.D ∧ Counted s g f (Word.add 32 (g.cnt f) 1) s' g' := by
  have hr0 : r ≠ 0 := (h.isFrame (h.tF (h.tables.mem_of_walk (p := []) hr (Nat.zero_le 3)
    (walk_nil r)))).ne_zero
  cases ht : translate s.mem r v with
  | none =>
      refine Or.inl ⟨s, g, ?_, (Kept.refl h).unchanged h rfl, rfl⟩
      unfold cowMarkPage
      rcases h.pte_of_unmapped hr ht with h0 | ⟨hslot, hpres⟩
      · simp only [if_neg hr0, if_pos h0]
      · simp only [if_neg hr0, if_neg hslot, if_pos hpres]
  | some e =>
      obtain ⟨f, fl⟩ := e
      obtain ⟨pt, hpt, hpte, hslot, hdec⟩ := h.pte hr ht
      obtain ⟨hpres, hframe, -⟩ := decode_eq_some hdec
      have hf : frameOf f = f := by
        rw [← hframe]
        exact frameOf_and_frameMask _
      obtain ⟨ref, s₁, g₁, hget, hfound⟩ := h.getRef halloc f
      rw [hf] at hfound
      cases ref with
      | zero =>
          refine Or.inl ⟨s₁, g₁, ?_, hfound.kept.unchanged h hfound.cnt_eq, ?_⟩
          · unfold cowMarkPage
            simp only [if_neg hr0, hpte, if_neg hslot, if_neg hpres, hframe, hget]
          · funext x
            apply propext
            rw [hfound.entries x]
            exact or_iff_left fun hx => hx.1 rfl
      | succ k =>
          have h0 : k + 1 ≠ 0 := k.succ_ne_zero
          obtain ⟨hall, hcounted⟩ := hfound.setCount h0 (Word.add_lt 32 (g.cnt f) 1)
          obtain ⟨fl', hdec', hflags⟩ := decode_mark (testBit_zero_of_decode hdec)
          rw [hframe] at hdec'
          have he : (load 8 s.mem (slot pt (ptIndex v)) &&& complement flagWritable) ||| cowFlagMask
              < 2 ^ 64 :=
            or_lt_of_lt (Nat.and_lt_two_pow _ (complement_lt _)) (by decide)
          obtain ⟨hremap, -, hentry⟩ := h.remap hall.footing hall.tables_mem hall.data_mem hall.D_eq.ge hr
            hpt he hdec'
          refine Or.inr ⟨f, fl, _, _, fl', rfl, ?_, hflags, hremap, hall.D_eq,
            hcounted.congr_mem rfl hentry⟩
          unfold cowMarkPage
          simp only [if_neg hr0, hpte, if_neg hslot, if_neg hpres, hframe, hget, hfound.refCount_eq h0]

/-! ### `cow_handle_fault` -/

/-- The entry that an earlier lookup found is still there after an allocation. -/
theorem ref_allocated (h : Footing P s roots g) (halloc : P.Allocator alloc) {k ref : ℕ}
    (hmem : ref ∈ g.chains k) :
    refPhysicalAddress (alloc s.toMachine).2.mem ref = refPhysicalAddress s.mem ref :=
  (refFields_congr fun x hx => halloc.mem h.owns ref (h.rF (h.refs.mem _ _ hmem)) x hx).1

/-- A store of the word that is there in another memory. -/
theorem store_load_apply {w a x : ℕ} {m m' : Mem} (h : x ∉ Set.Ico a (a + w) → m' x = m x) :
    store w m' a (load w m a) x = m x := by
  by_cases hx : x ∈ Set.Ico a (a + w)
  · obtain ⟨h1, h2⟩ := hx
    obtain ⟨i, rfl⟩ := Nat.exists_eq_add_of_le h1
    have hi : i < w := by omega
    have hself : store w m a (load w m a) (a + i) = m (a + i) := congrFun (store_load w m a) (a + i)
    rw [store_apply_add hi] at hself ⊢
    exact hself
  · rw [store_apply_of_notMem hx, h hx]

/-- Without a page for the copy the count is restored. -/
theorem Found.restored {f ref : ℕ} {s₁ : State A} {g₁ : Ghost} (hfound : Found P roots s g f ref s₁ g₁)
    (halloc : P.Allocator alloc) (h0 : ref ≠ 0) {s₂ : State A}
    (hs₂ : s₂ = setRefCount s₁ ref (Word.sub 32 (g.cnt f) 1)) (hfail : (alloc s₂.toMachine).1 = 0)
    {s' : State A} (hs' : s' = setRefCount { s₂ with toMachine := (alloc s₂.toMachine).2 } ref
      (Word.add 32 (refCount (alloc s₂.toMachine).2.mem ref) 1)) :
    Kept P roots s g s' g₁ ∧ Counted s g f (g.cnt f) s' g₁ ∧
      ∀ u ∈ g.F, ∀ x, InPage u x → s'.mem x = s.mem x := by
  have hlt : g.cnt f < 2 ^ 32 := by
    rw [← hfound.cnt_eq]
    exact hfound.kept.footing.refs.cnt_lt f
  obtain ⟨hall, -⟩ := hfound.setCount h0 (Word.sub_lt 32 (g.cnt f) 1)
  rw [← hs₂] at hall
  set g₂ : Ghost := { g₁ with cnt := Function.update g.cnt f (Word.sub 32 (g.cnt f) 1) } with hg₂
  have hmem₂ : ref ∈ g₂.chains (cowHash f) := hfound.mem h0
  have hphys₂ : refPhysicalAddress s₂.mem ref = f := by
    rw [hs₂]
    exact (load_store_disjoint (Or.inl le_rfl)).trans (hfound.phys h0)
  have hkept := hall.footing.allocFail halloc hfail
  have hphys₃ := (ref_allocated hall.footing halloc hmem₂).trans hphys₂
  have hcount₃ : refCount (alloc s₂.toMachine).2.mem ref = Word.sub 32 (g.cnt f) 1 := by
    rw [hkept.footing.refs.count _ _ hmem₂, hphys₃]
    exact Function.update_self f _ g.cnt
  rw [hcount₃, Word.add_sub_one (w := 32) (by norm_num) hlt] at hs'
  have hset := hkept.footing.setCount hmem₂ hphys₃ hlt
  have hcnt : Function.update g₂.cnt f (g.cnt f) = g₁.cnt := by
    rw [hfound.cnt_eq]
    exact (Function.update_idem _ _ _).trans (Function.update_eq_self f g.cnt)
  rw [hcnt, ← hs'] at hset
  have hentries : g₁.HasEntry s'.mem = g₁.HasEntry s₁.mem := by
    refine Ghost.hasEntry_congr rfl fun k ref' href' => ?_
    have hstep₁ : refPhysicalAddress s₂.mem ref' = refPhysicalAddress s₁.mem ref' := by
      rw [hs₂]
      exact hfound.kept.footing.refs.phys_setCount hfound.kept.footing.ref_isFrame (hfound.mem h0) href'
    have hstep₂ : refPhysicalAddress (alloc s₂.toMachine).2.mem ref' = refPhysicalAddress s₂.mem ref' :=
      ref_allocated (g := g₂) hall.footing halloc href'
    rw [hs', ← hstep₁, ← hstep₂]
    exact hkept.footing.refs.phys_setCount hkept.footing.ref_isFrame hmem₂ href'
  refine ⟨hall.trans (hkept.trans hset), (hfound.mono h0).congr_mem rfl hentries, fun u hu x hx => ?_⟩
  -- the count is written twice, the second time with what it was
  rw [hs', ← hfound.refCount_eq h0, ← hfound.held_mem u hu x hx]
  refine store_load_apply fun hnot => ?_
  have hmem₂ : (alloc s₂.toMachine).2.mem x = s₂.mem x :=
    halloc.mem hall.footing.owns u (hfound.held hu) x hx
  refine hmem₂.trans ?_
  rw [hs₂]
  exact store_apply_of_notMem hnot

/-- The page that `cow_handle_fault` allocates and copies to, with the memory `w` after the copy. -/
theorem copy_spec (h : Footing P s roots g) (halloc : P.Allocator alloc)
    (h0 : (alloc s.toMachine).1 ≠ 0) (f : ℕ) :
    ∃ w, copyBytes pageSize (alloc s.toMachine).2.mem (alloc s.toMachine).1 f = w ∧
      (alloc s.toMachine).1 ∉ g.F ∧ IsFrame (alloc s.toMachine).1 ∧
      Footing P { s with toMachine := { (alloc s.toMachine).2 with mem := w } } roots
        { g with F := Set.insert (alloc s.toMachine).1 g.F,
                 D := Set.insert (alloc s.toMachine).1 g.D } ∧
      (∀ u ∈ g.F, ∀ x, InPage u x → w x = s.mem x) ∧
      (f ∈ g.F → page w (alloc s.toMachine).1 = page s.mem f) := by
  obtain ⟨hfresh, hframe, hfoot, hkeep⟩ := h.allocData halloc h0
  set f' := (alloc s.toMachine).1 with hf'
  set m := (alloc s.toMachine).2.mem with hm
  have hout : ∀ x, ¬ InPage f' x → copyBytes pageSize m f' f x = m x := by
    intro x hx
    apply copyBytes_apply_of_lt_or_le
    unfold InPage at hx
    omega
  refine ⟨_, rfl, hfresh, hframe, ?_, fun u hu x hx => ?_, fun hfF => ?_⟩
  · exact (hfoot.dataWrite (Set.mem_insert _ _) hout).1
  · rw [hout x fun hx' => hfresh (hframe.eq_of_inPage (h.isFrame hu) hx' hx ▸ hu)]
    exact hkeep u hu x hx
  · have hdisj : f' + pageSize ≤ f ∨ f + pageSize ≤ f' :=
      hframe.apart (h.isFrame hfF) fun e => hfresh (e ▸ hfF)
    funext off
    unfold page
    split_ifs with hoff
    · rw [copyBytes_apply hdisj, if_pos ⟨Nat.le_add_right _ _, Nat.add_lt_add_left hoff f'⟩,
        Nat.add_sub_cancel_left]
      exact hkeep f hfF _ ⟨Nat.le_add_right _ _, Nat.add_lt_add_left hoff f⟩
    · rfl

/-- A fault on a page that is not mapped is not handled. -/
theorem cowHandleFault_of_unmapped (h : Footing P s roots g) {r v : ℕ} (hr : r ∈ roots)
    (ht : translate s.mem r v = none) : cowHandleFault alloc s r v = some (-1, s) := by
  unfold cowHandleFault
  rcases h.pte_of_unmapped hr ht with h0 | ⟨hslot, hpres⟩
  · simp only [if_pos h0]
  · simp only [if_neg hslot, if_pos hpres]

/-- The ways out of `cow_handle_fault` with the mapping `(f, fl)`. -/
inductive FaultOutcome (P : Ownership A) (roots : Set ℕ) (s : State A) (g : Ghost) (r v f fl : ℕ) :
    Option (ℤ × State A) → Prop
  /-- The mapping is not copy-on-write, or there is no page: nothing that a client sees changes. -/
  | fails (s' : State A) (g' : Ghost) (unchanged : Unchanged P roots s g s' g')
      (entries : g'.HasEntry s'.mem = g.HasEntry s.mem ∨ isCow fl = true ∧ Counted s g f (g.cnt f) s' g') :
      FaultOutcome P roots s g r v f fl (some (-1, s'))
  /-- At count 1 the entry is made writable. -/
  | upgrades (s' : State A) (g' : Ghost) (fl' : ℕ) (cow : isCow fl = true) (one : g.cnt f = 1)
      (flags : isWritable fl' = true ∧ isCow fl' = false)
      (remapped : Remapped P roots s g r v f fl' s' g') (D_eq : g'.D = g.D) (counted : Counted s g f 0 s' g') :
      FaultOutcome P roots s g r v f fl (some (0, s'))
  /-- At another count a copy of the page is mapped. -/
  | copies (s' : State A) (g' : Ghost) (f' fl' : ℕ) (cow : isCow fl = true) (ne_one : g.cnt f ≠ 1)
      (flags : isWritable fl' = true ∧ isCow fl' = false)
      (remapped : Remapped P roots s g r v f' fl' s' g') (fresh : f' ∉ g.F) (D_eq : g'.D = Set.insert f' g.D)
      (counted : Counted s g f (Word.sub 32 (g.cnt f) 1) s' g')
      (page_eq : f ∈ g.D → page s'.mem f' = page s.mem f) :
      FaultOutcome P roots s g r v f fl (some (0, s'))

/-- `cow_handle_fault` on a mapping. -/
theorem cowHandleFault_spec (h : Footing P s roots g) (halloc : P.Allocator alloc) {r v f fl : ℕ}
    (hr : r ∈ roots) (ht : translate s.mem r v = some (f, fl)) :
    FaultOutcome P roots s g r v f fl (cowHandleFault alloc s r v) := by
  obtain ⟨pt, hpt, hpte, hslot, hdec⟩ := h.pte hr ht
  obtain ⟨hpres, hframe, -⟩ := decode_eq_some hdec
  have hcowIff := isCow_iff_of_decode hdec
  have hf : frameOf f = f := by
    rw [← hframe]
    exact frameOf_and_frameMask _
  by_cases hcow : load 8 s.mem (slot pt (ptIndex v)) &&& cowFlagMask = 0
  · have hcall : cowHandleFault alloc s r v = some (-1, s) := by
      unfold cowHandleFault
      simp only [hpte, if_neg hslot, if_neg hpres, if_pos hcow]
    rw [hcall]
    exact .fails s g ((Kept.refl h).unchanged h rfl) (Or.inl rfl)
  have hflag : isCow fl = true := hcowIff.mpr hcow
  obtain ⟨ref, s₁, g₁, hget, hfound⟩ := h.getRef halloc f
  rw [hf] at hfound
  cases ref with
  | zero =>
      have hcall : cowHandleFault alloc s r v = some (-1, s₁) := by
        unfold cowHandleFault
        simp only [hpte, if_neg hslot, if_neg hpres, if_neg hcow, hframe, hget]
      rw [hcall]
      refine .fails s₁ g₁ (hfound.kept.unchanged h hfound.cnt_eq) (Or.inl ?_)
      funext x
      apply propext
      rw [hfound.entries x]
      exact or_iff_left fun hx => hx.1 rfl
  | succ k =>
      have hk : k + 1 ≠ 0 := k.succ_ne_zero
      have hcount := hfound.refCount_eq hk
      have hbit := testBit_zero_of_decode hdec
      obtain ⟨hall, hcounted⟩ := hfound.setCount hk (Word.sub_lt 32 (g.cnt f) 1)
      set s₂ := setRefCount s₁ (k + 1) (Word.sub 32 (g.cnt f) 1) with hs₂
      set g₂ : Ghost := { g₁ with cnt := Function.update g.cnt f (Word.sub 32 (g.cnt f) 1) } with hg₂
      by_cases h1 : g.cnt f = 1
      · -- the last reference: upgrade in place
        obtain ⟨fl', hdec', hflags⟩ := decode_upgrade hbit
        rw [hframe] at hdec'
        obtain ⟨hremap, -, hentry⟩ := h.remap hall.footing hall.tables_mem hall.data_mem hall.D_eq.ge hr hpt
          (Nat.and_lt_two_pow _ (complement_lt _)) hdec'
        have hcall : cowHandleFault alloc s r v = some (0, { s₂ with
            mem := store 8 s₂.mem (slot pt (ptIndex v))
              ((load 8 s.mem (slot pt (ptIndex v)) ||| flagWritable) &&& complement cowFlagMask) }) := by
          unfold cowHandleFault
          simp only [hpte, if_neg hslot, if_neg hpres, if_neg hcow, hframe, hget, hcount, if_pos h1]
          rfl
        rw [hcall]
        have hzero : Word.sub 32 (g.cnt f) 1 = 0 := by
          rw [h1]
          rfl
        rw [hzero] at hcounted
        exact .upgrades _ g₂ fl' hflag h1 hflags hremap hall.D_eq (hcounted.congr_mem (by rw [hg₂, hzero]) hentry)
      by_cases h0 : (alloc s₂.toMachine).1 = 0
      · -- no page for the copy
        obtain ⟨hkept, hcounted', -⟩ := hfound.restored halloc hk hs₂ h0 rfl
        have hcall : cowHandleFault alloc s r v
            = some (-1, setRefCount { s₂ with toMachine := (alloc s₂.toMachine).2 } (k + 1)
                (Word.add 32 (refCount (alloc s₂.toMachine).2.mem (k + 1)) 1)) := by
          unfold cowHandleFault
          simp only [hpte, if_neg hslot, if_neg hpres, if_neg hcow, hframe, hget, hcount, if_neg h1, ← hs₂, h0,
            if_true]
        rw [hcall]
        exact .fails _ g₁ (hkept.unchanged h hfound.cnt_eq) (Or.inr ⟨hflag, hcounted'⟩)
      · -- the page is copied
        obtain ⟨m, hm, hfresh, hisFrame, hfoot, hkeep, hpage⟩ := copy_spec hall.footing halloc h0 f
        set f' := (alloc s₂.toMachine).1 with hf'
        obtain ⟨fl', hdec', hflags⟩ := decode_copy hbit hisFrame
        have htables : ∀ t ∈ g.T, ∀ x, InPage t x → m x = s.mem x := fun t ht x hx => by
          rw [hkeep t (hall.footing.tF (hall.T_eq ▸ ht)) x hx]
          exact hall.tables_mem t ht x hx
        have hdata : ∀ d ∈ g.D, ∀ x, InPage d x → m x = s.mem x := fun d hd x hx => by
          rw [hkeep d (hall.footing.dF (hall.D_eq ▸ hd)) x hx]
          exact hall.data_mem d hd x hx
        obtain ⟨hremap, hkeep', hentry⟩ := h.remap hfoot htables hdata
          (hall.D_eq.ge.trans (Set.subset_insert _ _)) hr hpt (Nat.and_lt_two_pow _ (complement_lt _)) hdec'
        have hentry₂ : Ghost.HasEntry { g₂ with F := Set.insert f' g₂.F, D := Set.insert f' g₂.D } m
            = g₂.HasEntry s₂.mem :=
          hall.footing.hasEntry_congr rfl fun ref href => hkeep ref (hall.footing.rF href)
        have hcall : cowHandleFault alloc s r v = some (0, { s₂ with toMachine := { (alloc s₂.toMachine).2 with
            mem := store 8 m (slot pt (ptIndex v))
              (((f' &&& frameMask) ||| (load 8 s.mem (slot pt (ptIndex v)) &&& 0xFFF) ||| flagWritable)
                &&& complement cowFlagMask) } }) := by
          unfold cowHandleFault
          simp only [hpte, if_neg hslot, if_neg hpres, if_neg hcow, hframe, hget, hcount, if_neg h1, ← hs₂, ← hf',
            if_neg h0, hm]
        rw [hcall]
        refine .copies _ _ f' fl' hflag h1 hflags hremap (fun hF => hfresh (hfound.held hF)) ?_
          (hcounted.congr_mem rfl (hentry.trans hentry₂)) fun hfD => ?_
        · rw [← hall.D_eq]
        · refine (page_congr (hkeep' f' (Set.mem_insert _ _))).trans ((hpage ?_).trans ?_)
          · exact hall.footing.dF (hall.D_eq ▸ hfD)
          · exact page_congr (hall.data_mem f hfD)

end PrometheusKernel.Cow
