import PrometheusKernel.Vmm.Entries
import PrometheusKernel.Lib.TableTree

/-!
# Page tables in memory

The tables of a set of address spaces form a forest of depth 3 below their roots (`Tables`); the
entries of the tables at depth 3 are the translations (`translate`). The lemmas say what the two
kinds of writes of `vmm.c` do:

* a leaf write (`Tables.leafWrite`) changes one translation of one address space;
* `get_or_alloc` may hang a new empty table into an empty slot, which changes no translation
  (`getOrAlloc_spec`, and `ptFor_spec` for the three calls of `vmm_map_page`).
-/

namespace PrometheusKernel.Vmm

open ByteMem TableTree

/-! ### Readers -/

/-- The table that `table[index]` points to. -/
def child (m : Mem) (table index : ℕ) : Option ℕ :=
  if index < ptEntries ∧ readEntry m table index &&& flagPresent ≠ 0 then
    some (readEntry m table index &&& frameMask)
  else none

/-- Frame and flags of an entry of a page table. -/
def decode (e : ℕ) : Option (ℕ × ℕ) :=
  if e &&& flagPresent = 0 then none else some (e &&& frameMask, e &&& 0xFFF)

/-- The page table for `virt`. -/
def pageTable (m : Mem) (pml4 virt : ℕ) : Option ℕ := walk (child m) pml4 (tablePath virt)

/-- What `virt` translates to in the address space of `pml4`. -/
def translate (m : Mem) (pml4 virt : ℕ) : Option (ℕ × ℕ) :=
  (pageTable m pml4 virt).bind fun pt => decode (readEntry m pt (ptIndex virt))

/-- The last index is one of a table. -/
theorem ptIndex_lt (v : ℕ) : ptIndex v < ptEntries := index_lt v 12

/-- There are three levels above the last one. -/
theorem tablePath_length (v : ℕ) : (tablePath v).length = 3 := rfl

/-! ### Entries and pages -/

/-- A slot lies in the page of its table. -/
theorem inPage_slot {t i x : ℕ} (hi : i < ptEntries) (h1 : slot t i ≤ x) (h2 : x < slot t i + 8) :
    InPage t x := by
  unfold slot ptEntries at *
  unfold InPage pageSize
  omega

/-- An entry only depends on the page of its table. -/
theorem readEntry_congr {m m' : Mem} {t i : ℕ} (hi : i < ptEntries)
    (h : ∀ x, InPage t x → m' x = m x) : readEntry m' t i = readEntry m t i :=
  load_congr fun x hx => h x (inPage_slot hi hx.1 hx.2)

/-- The children of a table only depend on its page. -/
theorem child_congr {m m' : Mem} {t : ℕ} (h : ∀ x, InPage t x → m' x = m x) (i : ℕ) :
    child m' t i = child m t i := by
  unfold child
  by_cases hi : i < ptEntries
  · rw [readEntry_congr hi h]
  · simp [hi]

/-- An entry that is written is read back. -/
theorem readEntry_store_same {m : Mem} {t i e : ℕ} (he : e < 2 ^ 64) :
    readEntry (store 8 m (slot t i) e) t i = e :=
  load_store_of_lt (by norm_num; exact he)

/-- The other entries stay. -/
theorem readEntry_store_of_ne {m : Mem} {t u i j e : ℕ} (ht : IsFrame t) (hu : IsFrame u)
    (hi : i < ptEntries) (hj : j < ptEntries) (hne : u ≠ t ∨ j ≠ i) :
    readEntry (store 8 m (slot t i) e) u j = readEntry m u j := by
  have h1 := ht.aligned
  have h2 := hu.aligned
  unfold pageSize at h1 h2
  apply load_store_disjoint
  unfold slot
  unfold ptEntries at hi hj
  omega

/-- Writing an entry changes the page of its table only. -/
theorem store_slot_apply {m : Mem} {t i e x : ℕ} (hi : i < ptEntries) (hx : ¬ InPage t x) :
    store 8 m (slot t i) e x = m x :=
  store_apply_of_notMem fun h => hx (inPage_slot hi h.1 h.2)

/-! ### The forest of tables -/

/-- The tables of the address spaces `roots` are unshared and lie in the frames `T`. -/
structure Tables (m : Mem) (roots T : Set ℕ) : Prop where
  forest : Forest (child m) roots 3
  reached : ∀ t, Reached (child m) roots 3 t → t ∈ T
  isFrame : ∀ t ∈ T, IsFrame t

section tables

variable {m m' : Mem} {roots T : Set ℕ}

/-- The nodes of the trees are tables. -/
theorem Tables.mem_of_walk (h : Tables m roots T) {r : ℕ} (hr : r ∈ roots) {p : List ℕ}
    (hp : p.length ≤ 3) {t : ℕ} (ht : walk (child m) r p = some t) : t ∈ T :=
  h.reached t ⟨r, hr, p, hp, ht⟩

/-- The last table of an address is a table. -/
theorem Tables.mem_of_pageTable (h : Tables m roots T) {r v pt : ℕ} (hr : r ∈ roots)
    (ht : pageTable m r v = some pt) : pt ∈ T :=
  h.mem_of_walk hr (tablePath_length v).le ht

/-- No table is at 0. -/
theorem Tables.ne_zero_of_pageTable (h : Tables m roots T) {r v pt : ℕ} (hr : r ∈ roots)
    (ht : pageTable m r v = some pt) : pt ≠ 0 :=
  (h.isFrame pt (h.mem_of_pageTable hr ht)).ne_zero

/-- Memory with the same walks has the same forest. -/
theorem Tables.congr_walk (h : Tables m roots T)
    (hw : ∀ r ∈ roots, ∀ p : List ℕ, p.length ≤ 3 → walk (child m') r p = walk (child m) r p) :
    Tables m' roots T := by
  refine ⟨h.forest.congr hw, ?_, h.isFrame⟩
  rintro t ⟨r, hr, p, hp, ht⟩
  rw [hw r hr p hp] at ht
  exact h.mem_of_walk hr hp ht

/-- Walks read the tables only. -/
theorem Tables.walk_congr (h : Tables m roots T) (hm : ∀ t ∈ T, ∀ x, InPage t x → m' x = m x)
    {r : ℕ} (hr : r ∈ roots) {p : List ℕ} (hp : p.length ≤ 3) :
    walk (child m') r p = walk (child m) r p := by
  apply walk_eq_of_agree (d := 3) _ hp
  intro q hq t ht i
  exact child_congr (hm t (h.mem_of_walk hr hq.le ht)) i

/-- The trees only depend on the pages of the tables. -/
theorem Tables.congr (h : Tables m roots T) (hm : ∀ t ∈ T, ∀ x, InPage t x → m' x = m x) :
    Tables m' roots T :=
  h.congr_walk fun _ hr _ hp => h.walk_congr hm hr hp

/-- The last table of an address only depends on the pages of the tables. -/
theorem Tables.pageTable_congr (h : Tables m roots T)
    (hm : ∀ t ∈ T, ∀ x, InPage t x → m' x = m x) {r : ℕ} (hr : r ∈ roots) (v : ℕ) :
    pageTable m' r v = pageTable m r v :=
  h.walk_congr hm hr (tablePath_length v).le

/-- The translations only depend on the pages of the tables. -/
theorem Tables.translate_congr (h : Tables m roots T)
    (hm : ∀ t ∈ T, ∀ x, InPage t x → m' x = m x) {r : ℕ} (hr : r ∈ roots) (v : ℕ) :
    translate m' r v = translate m r v := by
  unfold translate
  rw [h.pageTable_congr hm hr v]
  cases hpt : pageTable m r v with
  | none => rfl
  | some pt =>
      have hread := readEntry_congr (ptIndex_lt v) (hm pt (h.mem_of_pageTable hr hpt))
      simp only [Option.bind_some, hread]

/-! ### Leaf writes -/

/-- Writing an entry of a page table changes no walk. -/
theorem Tables.walk_leafWrite (h : Tables m roots T) {r v pt : ℕ} (hr : r ∈ roots)
    (hpt : pageTable m r v = some pt) (e : ℕ) {r' : ℕ} (hr' : r' ∈ roots) {p : List ℕ}
    (hp : p.length ≤ 3) :
    walk (child (store 8 m (slot pt (ptIndex v)) e)) r' p = walk (child m) r' p := by
  apply walk_eq_of_agree (d := 3) _ hp
  intro q hq t ht i
  -- a table above the last level is not the page table written to
  have hne : t ≠ pt := by
    rintro rfl
    obtain ⟨-, hpath⟩ := h.forest r' hr' r hr q (tablePath v) hq.le le_rfl t ht hpt
    rw [hpath, tablePath_length] at hq
    exact absurd hq (lt_irrefl _)
  have hft := h.isFrame t (h.mem_of_walk hr' hq.le ht)
  have hfpt := h.isFrame pt (h.mem_of_pageTable hr hpt)
  unfold child
  by_cases hi : i < ptEntries
  · rw [readEntry_store_of_ne hfpt hft (ptIndex_lt v) hi (Or.inl hne)]
  · simp [hi]

/-- Writing an entry of a last table keeps the trees. -/
theorem Tables.leafWrite (h : Tables m roots T) {r v pt : ℕ} (hr : r ∈ roots)
    (hpt : pageTable m r v = some pt) (e : ℕ) :
    Tables (store 8 m (slot pt (ptIndex v)) e) roots T :=
  h.congr_walk fun _ hr' _ hp => h.walk_leafWrite hr hpt e hr' hp

/-- Writing an entry of a last table keeps the last tables of all addresses. -/
theorem Tables.pageTable_leafWrite (h : Tables m roots T) {r v pt : ℕ} (hr : r ∈ roots)
    (hpt : pageTable m r v = some pt) (e : ℕ) {r' : ℕ} (hr' : r' ∈ roots) (w : ℕ) :
    pageTable (store 8 m (slot pt (ptIndex v)) e) r' w = pageTable m r' w :=
  h.walk_leafWrite hr hpt e hr' (tablePath_length w).le

/-- The entry for `w` in the address space `r'` after a write to the entry for `v` in `r`. -/
theorem Tables.readEntry_leafWrite (h : Tables m roots T) {r v pt : ℕ} (hr : r ∈ roots)
    (hpt : pageTable m r v = some pt) {e : ℕ} (he : e < 2 ^ 64) {r' w pt' : ℕ} (hr' : r' ∈ roots)
    (hpt' : pageTable m r' w = some pt') :
    readEntry (store 8 m (slot pt (ptIndex v)) e) pt' (ptIndex w)
      = if r' = r ∧ vpn w = vpn v then e else readEntry m pt' (ptIndex w) := by
  have hfpt := h.isFrame pt (h.mem_of_pageTable hr hpt)
  have hfpt' := h.isFrame pt' (h.mem_of_pageTable hr' hpt')
  split_ifs with hc
  · obtain ⟨rfl, hv⟩ := hc
    obtain ⟨hpath, hidx⟩ := (tablePath_eq_iff w v).mpr hv
    unfold pageTable at hpt hpt'
    rw [hpath, hpt] at hpt'
    obtain rfl := Option.some.inj hpt'
    rw [hidx, readEntry_store_same he]
  · apply readEntry_store_of_ne hfpt hfpt' (ptIndex_lt v) (ptIndex_lt w)
    by_contra hcon
    push Not at hcon
    obtain ⟨rfl, hidx⟩ := hcon
    obtain ⟨hrr, hpath⟩ := h.forest r' hr' r hr (tablePath w) (tablePath v) le_rfl le_rfl pt' hpt' hpt
    exact hc ⟨hrr, (tablePath_eq_iff w v).mp ⟨hpath, hidx⟩⟩

/-- A leaf write changes exactly one translation. -/
theorem Tables.translate_leafWrite (h : Tables m roots T) {r v pt : ℕ} (hr : r ∈ roots)
    (hpt : pageTable m r v = some pt) {e : ℕ} (he : e < 2 ^ 64) {r' : ℕ} (hr' : r' ∈ roots) (w : ℕ) :
    translate (store 8 m (slot pt (ptIndex v)) e) r' w
      = if r' = r ∧ vpn w = vpn v then decode e else translate m r' w := by
  unfold translate
  rw [h.pageTable_leafWrite hr hpt e hr' w]
  cases hpt' : pageTable m r' w with
  | none =>
      have hc : ¬ (r' = r ∧ vpn w = vpn v) := by
        rintro ⟨rfl, hv⟩
        unfold pageTable at hpt hpt'
        rw [((tablePath_eq_iff w v).mpr hv).1, hpt] at hpt'
        exact absurd hpt' (by simp)
      rw [Option.bind_none, Option.bind_none, if_neg hc]
  | some pt' =>
      simp only [Option.bind_some]
      rw [h.readEntry_leafWrite hr hpt he hr' hpt']
      split_ifs <;> rfl

end tables

/-! ### New tables -/

/-- A cleared table has no entry. -/
theorem readEntry_clear {m : Mem} {f j : ℕ} (hj : j < ptEntries)
    (h : ∀ x, InPage f x → m x = 0) : readEntry m f j = 0 :=
  load_zero_of_zero fun x h1 h2 => h x (inPage_slot hj h1 h2)

/-- A page of zeros has no children. -/
theorem child_clear {m : Mem} {f : ℕ} (h : ∀ x, InPage f x → m x = 0) (j : ℕ) :
    child m f j = none := by
  unfold child
  rw [if_neg]
  rintro ⟨hj, hp⟩
  rw [readEntry_clear hj h] at hp
  exact hp (Nat.zero_and _)

section hang

variable {m : Mem} {roots T : Set ℕ} {t i f : ℕ}

/-- The memory in which `get_or_alloc` has written the frame `f` into `t[i]`. -/
def hang (m : Mem) (t i f : ℕ) : Mem := store 8 m (slot t i) (f ||| flagPresent ||| flagWritable)

/-- A new table is the child at its index. -/
theorem child_hang (hf : IsFrame f) (hi : i < ptEntries) : child (hang m t i f) t i = some f := by
  obtain ⟨h1, h2, h3⟩ := tableEntry_spec hf
  have hread : readEntry (hang m t i f) t i = f ||| flagPresent ||| flagWritable := readEntry_store_same h3
  unfold child
  rw [hread, if_pos ⟨hi, h2⟩, h1]

/-- The other entries stay. -/
theorem readEntry_hang_of_ne (ht : IsFrame t) (hi : i < ptEntries) {u j : ℕ} (hu : IsFrame u) (hj : j < ptEntries)
    (hne : u ≠ t ∨ j ≠ i) : readEntry (hang m t i f) u j = readEntry m u j :=
  readEntry_store_of_ne ht hu hi hj hne

/-- The other entries of the tables are as they were. -/
theorem child_hang_of_ne (ht : IsFrame t) (hi : i < ptEntries) {u j : ℕ} (hu : IsFrame u) (hne : u ≠ t ∨ j ≠ i) :
    child (hang m t i f) u j = child m u j := by
  unfold child
  by_cases hj : j < ptEntries
  · rw [readEntry_hang_of_ne ht hi hu hj hne]
  · simp [hj]

/-- A new table is empty. -/
theorem hang_apply_new (ht : IsFrame t) (hi : i < ptEntries) (hf : IsFrame f) (hne : f ≠ t)
    (hzero : ∀ x, InPage f x → m x = 0) {x : ℕ} (hx : InPage f x) : hang m t i f x = 0 :=
  (store_slot_apply hi fun hx' => hne (hf.eq_of_inPage ht hx hx')).trans (hzero x hx)

/-- Hanging a cleared table into an empty slot makes one walk longer. -/
theorem Tables.walk_hang (h : Tables m roots T) {r : ℕ} (hr : r ∈ roots) {p : List ℕ} (hp : p.length < 3)
    (hw : walk (child m) r p = some t) (hi : i < ptEntries) (hempty : child m t i = none) (hf : IsFrame f)
    (hnew : f ∉ T) (hzero : ∀ x, InPage f x → m x = 0) {r' : ℕ} (hr' : r' ∈ roots) {q : List ℕ} (hq : q.length ≤ 3) :
    (r' = r ∧ q = p ++ [i] → walk (child (Vmm.hang m t i f)) r' q = some f) ∧
      (¬ (r' = r ∧ q = p ++ [i]) → walk (child (Vmm.hang m t i f)) r' q = walk (child m) r' q) := by
  have htT : t ∈ T := h.mem_of_walk hr hp.le hw
  have ht := h.isFrame t htT
  have hft : f ≠ t := fun heq => hnew (heq ▸ htT)
  have hnone : ∀ j, child (Vmm.hang m t i f) f j = none :=
    child_clear fun x hx => hang_apply_new ht hi hf hft hzero hx
  exact h.forest.walk_insert hr hw hp hempty (child_hang hf hi) hnone
    (fun u hu j hne => child_hang_of_ne ht hi (h.isFrame u (h.reached u hu)) hne) hr' hq

/-- It changes no translation. -/
theorem Tables.hang (h : Tables m roots T) {r : ℕ} (hr : r ∈ roots) {p : List ℕ} (hp : p.length < 3)
    (hw : walk (child m) r p = some t) (hi : i < ptEntries) (hempty : child m t i = none) (hf : IsFrame f)
    (hnew : f ∉ T) (hzero : ∀ x, InPage f x → m x = 0) :
    Tables (Vmm.hang m t i f) roots (Set.insert f T) ∧ walk (child (Vmm.hang m t i f)) r (p ++ [i]) = some f ∧
      (∀ r' ∈ roots, ∀ q : List ℕ, q.length ≤ 3 → ∀ u, walk (child m) r' q = some u →
        walk (child (Vmm.hang m t i f)) r' q = some u) ∧
      ∀ r' ∈ roots, ∀ v, translate (Vmm.hang m t i f) r' v = translate m r' v := by
  have htT : t ∈ T := h.mem_of_walk hr hp.le hw
  have ht := h.isFrame t htT
  have hft : f ≠ t := fun heq => hnew (heq ▸ htT)
  have hwalk : ∀ r' ∈ roots, ∀ q : List ℕ, q.length ≤ 3 →
      (r' = r ∧ q = p ++ [i] → walk (child (Vmm.hang m t i f)) r' q = some f) ∧
        (¬ (r' = r ∧ q = p ++ [i]) → walk (child (Vmm.hang m t i f)) r' q = walk (child m) r' q) :=
    fun r' hr' q hq => h.walk_hang hr hp hw hi hempty hf hnew hzero hr' hq
  have hplen : (p ++ [i]).length ≤ 3 := by
    rw [List.length_append, List.length_singleton]
    exact hp
  have hold : walk (child m) r (p ++ [i]) = none := by rw [walk_concat_of_eq hw, hempty]
  refine ⟨⟨h.forest.insert (fun hreached => hnew (h.reached f hreached)) hwalk, ?_, ?_⟩,
    (hwalk r hr _ hplen).1 ⟨rfl, rfl⟩, ?_, ?_⟩
  · rintro u ⟨r', hr', q, hq, hu⟩
    obtain ⟨h1, h2⟩ := hwalk r' hr' q hq
    by_cases hc : r' = r ∧ q = p ++ [i]
    · rw [h1 hc] at hu
      exact Or.inl (Option.some.inj hu).symm
    · rw [h2 hc] at hu
      exact Or.inr (h.mem_of_walk hr' hq hu)
  · rintro u (rfl | hu)
    · exact hf
    · exact h.isFrame u hu
  · intro r' hr' q hq u hu
    rw [(hwalk r' hr' q hq).2, hu]
    rintro ⟨rfl, rfl⟩
    rw [hold] at hu
    exact absurd hu (by simp)
  · intro r' hr' v
    obtain ⟨h1, h2⟩ := hwalk r' hr' (tablePath v) le_rfl
    unfold translate pageTable
    by_cases hc : r' = r ∧ tablePath v = p ++ [i]
    · -- the new page table translates nothing, and there was none
      have hread : readEntry (Vmm.hang m t i f) f (ptIndex v) = 0 :=
        readEntry_clear (ptIndex_lt v) fun x hx => hang_apply_new ht hi hf hft hzero hx
      have hdec : decode 0 = none := by decide
      rw [h1 hc, hc.1, hc.2, hold, Option.bind_some, hread, hdec, Option.bind_none]
    · rw [h2 hc]
      cases hpt : walk (child m) r' (tablePath v) with
      | none => rw [Option.bind_none, Option.bind_none]
      | some pt =>
          have hne : pt ≠ t := by
            rintro rfl
            obtain ⟨-, hpath⟩ := h.forest r' hr' r hr _ p le_rfl hp.le pt hpt hw
            rw [← hpath, tablePath_length] at hp
            exact absurd hp (lt_irrefl _)
          rw [Option.bind_some, Option.bind_some, readEntry_hang_of_ne ht hi
            (h.isFrame pt (h.mem_of_walk hr' le_rfl hpt)) (ptIndex_lt v) (Or.inl hne)]

/-- The tables of empty address spaces. -/
theorem tables_roots (hf : ∀ r ∈ roots, IsFrame r) (hzero : ∀ r ∈ roots, ∀ x, InPage r x → m x = 0) :
    Tables m roots roots ∧ ∀ r ∈ roots, ∀ v, translate m r v = none := by
  have hempty : ∀ r ∈ roots, ∀ j, child m r j = none := fun r hr => child_clear (hzero r hr)
  refine ⟨⟨?_, ?_, hf⟩, fun r hr v => ?_⟩
  · intro r hr r' hr' p p' _ _ t hw hw'
    obtain ⟨rfl, rfl⟩ := walk_of_empty (hempty r hr) hw
    obtain ⟨rfl, rfl⟩ := walk_of_empty (hempty r' hr') hw'
    exact ⟨rfl, rfl⟩
  · rintro t ⟨r, hr, p, -, hw⟩
    obtain ⟨-, rfl⟩ := walk_of_empty (hempty r hr) hw
    exact hr
  · unfold translate pageTable
    cases hw : walk (child m) r (tablePath v) with
    | none => rfl
    | some pt =>
        have hnil := (walk_of_empty (hempty r hr) hw).1
        exact absurd (hnil ▸ tablePath_length v) (by simp)

/-- The tables of one empty address space. -/
theorem tables_root (hf : IsFrame f) (hzero : ∀ x, InPage f x → m x = 0) :
    Tables m {f} {f} ∧ ∀ v, translate m f v = none := by
  have hroot : ∀ r ∈ ({f} : Set ℕ), IsFrame r ∧ ∀ x, InPage r x → m x = 0 := by
    rintro r rfl
    exact ⟨hf, hzero⟩
  obtain ⟨htables, hnone⟩ := tables_roots (fun r hr => (hroot r hr).1) fun r hr => (hroot r hr).2
  exact ⟨htables, hnone f rfl⟩

end hang

section alloc

variable {A : Type} {P : Ownership A} {alloc : Machine A → ℕ × Machine A} {roots : Set ℕ}
  {s : Machine A} {F T : Set ℕ}

/-- The tables `T` among the held frames `F` have grown to `T'` and `F'`: every new frame is a
table, no walk that existed and no translation has changed, and the other held frames have kept
their contents. -/
structure Grown (P : Ownership A) (roots : Set ℕ) (s : Machine A) (F T : Set ℕ) (s' : Machine A)
    (F' T' : Set ℕ) : Prop where
  owns : P.Owns s' F'
  tables : Tables s'.mem roots T'
  subset : T' ⊆ F'
  grow : T ⊆ T'
  frames : F' ⊆ F ∪ T'
  keep : F ⊆ F'
  fresh : ∀ t ∈ T', t ∈ F → t ∈ T
  walk_eq : ∀ r ∈ roots, ∀ p : List ℕ, p.length ≤ 3 → ∀ t, walk (child s.mem) r p = some t →
    walk (child s'.mem) r p = some t
  translate_eq : ∀ r ∈ roots, ∀ v, translate s'.mem r v = translate s.mem r v
  mem : ∀ f ∈ F, f ∉ T → ∀ x, InPage f x → s'.mem x = s.mem x

/-- A call that adds no table. -/
theorem Grown.refl (howns : P.Owns s F) (ht : Tables s.mem roots T) (hsub : T ⊆ F) :
    Grown P roots s F T s F T :=
  ⟨howns, ht, hsub, subset_rfl, fun _ hf => Or.inl hf, subset_rfl, fun _ ht _ => ht,
    fun _ _ _ _ _ h => h, fun _ _ _ => rfl, fun _ _ _ _ _ => rfl⟩

/-- Calls one after the other. -/
theorem Grown.trans {s₁ s₂ : Machine A} {F₁ T₁ F₂ T₂ : Set ℕ} (h₁ : Grown P roots s F T s₁ F₁ T₁)
    (h₂ : Grown P roots s₁ F₁ T₁ s₂ F₂ T₂) : Grown P roots s F T s₂ F₂ T₂ where
  owns := h₂.owns
  tables := h₂.tables
  subset := h₂.subset
  grow := h₁.grow.trans h₂.grow
  frames := by
    intro f hf
    rcases h₂.frames hf with hf | hf
    · rcases h₁.frames hf with hf | hf
      · exact Or.inl hf
      · exact Or.inr (h₂.grow hf)
    · exact Or.inr hf
  keep := h₁.keep.trans h₂.keep
  fresh t ht hF := h₁.fresh t (h₂.fresh t ht (h₁.keep hF)) hF
  walk_eq r hr p hp t ht := h₂.walk_eq r hr p hp t (h₁.walk_eq r hr p hp t ht)
  translate_eq r hr v := (h₂.translate_eq r hr v).trans (h₁.translate_eq r hr v)
  mem f hf hT x hx := by
    have hT₁ : f ∉ T₁ := fun h => hT (h₁.fresh f h hf)
    rw [h₂.mem f (h₁.keep hf) hT₁ x hx, h₁.mem f hf hT x hx]

/-- An allocation that fails changes no table. -/
theorem Grown.of_fail (halloc : P.Allocator alloc) (howns : P.Owns s F) (ht : Tables s.mem roots T)
    (hsub : T ⊆ F) (hfail : (alloc s).1 = 0) : Grown P roots s F T (alloc s).2 F T := by
  have hm : ∀ t ∈ T, ∀ x, InPage t x → (alloc s).2.mem x = s.mem x :=
    fun t ht x hx => halloc.mem howns t (hsub ht) x hx
  refine ⟨halloc.fail howns hfail, ht.congr hm, hsub, subset_rfl, fun _ hf => Or.inl hf, subset_rfl,
    fun _ ht _ => ht, fun r hr p hp t hw => ?_, fun r hr v => ht.translate_congr hm hr v,
    fun f hf _ x hx => halloc.mem howns f hf x hx⟩
  rw [ht.walk_congr hm hr hp]
  exact hw

/-- The bytes after a page has been cleared. -/
theorem clearTable_apply (s : Machine A) (f x : ℕ) :
    (clearTable s f).mem x = if InPage f x then 0 else s.mem x := by
  have hsize : 8 * ptEntries = pageSize := by decide
  simp only [clearTable, hsize, fill_apply]
  rfl

/-- A cleared table, in one step. -/
theorem clearTable_eq (s : Machine A) (f : ℕ) :
    clearTable s f = { s with mem := fun x => if InPage f x then 0 else s.mem x } := by
  have hsize : 8 * ptEntries = pageSize := by decide
  simp only [clearTable, hsize, Machine.mk.injEq, and_true]
  funext x
  rw [fill_apply]
  rfl

section newTable

variable {t i : ℕ} (halloc : P.Allocator alloc) (howns : P.Owns s F) (h0 : (alloc s).1 ≠ 0)
  (hsub : T ⊆ F) (htT : t ∈ T) (hi : i < ptEntries)

/-- The state in which `get_or_alloc` has hung a new table into `t[i]`. -/
def newTable (alloc : Machine A → ℕ × Machine A) (s : Machine A) (t i : ℕ) : Machine A :=
  writeEntry (clearTable (alloc s).2 (alloc s).1) t i
    ((alloc s).1 ||| flagPresent ||| flagWritable)

include halloc howns h0 in
/-- A new table is a frame. -/
theorem newTable_isFrame : IsFrame (alloc s).1 :=
  P.isFrame (halloc.owns howns h0) _ (Set.mem_insert _ _)

include halloc howns h0 in
/-- Clearing the new frame changes no held frame. -/
theorem clear_apply_of_held {u x : ℕ} (hu : u ∈ F) (hx : InPage u x) :
    (clearTable (alloc s).2 (alloc s).1).mem x = s.mem x := by
  have hne : ¬ InPage (alloc s).1 x := by
    intro hx'
    have heq := (newTable_isFrame halloc howns h0).eq_of_inPage (P.isFrame howns u hu) hx' hx
    exact halloc.fresh howns h0 (heq ▸ hu)
  rw [clearTable_apply, if_neg hne]
  exact halloc.mem howns u hu x hx

include halloc howns h0 hsub htT hi in
/-- A new table changes its parent, and no other page that is held. -/
theorem newTable_apply_of_held {u x : ℕ} (hu : u ∈ F) (hut : u ≠ t) (hx : InPage u x) :
    (newTable alloc s t i).mem x = s.mem x := by
  have hne : ¬ InPage t x := fun hx' =>
    hut ((P.isFrame howns u hu).eq_of_inPage (P.isFrame howns t (hsub htT)) hx hx')
  have hstore : (newTable alloc s t i).mem x = (clearTable (alloc s).2 (alloc s).1).mem x :=
    store_slot_apply hi hne
  rw [hstore]
  exact clear_apply_of_held halloc howns h0 hu hx

include halloc howns h0 hsub htT hi in
/-- A new table is held. -/
theorem owns_newTable : P.Owns (newTable alloc s t i) (Set.insert (alloc s).1 F) := by
  refine P.write_state (halloc.owns howns h0) (by simp only [newTable, writeEntry, clearTable])
    fun x hx => ?_
  have hf : ¬ InPage (alloc s).1 x := hx _ (Set.mem_insert _ _)
  have ht : ¬ InPage t x := hx _ (Set.mem_insert_of_mem _ (hsub htT))
  have hstore : (newTable alloc s t i).mem x = (clearTable (alloc s).2 (alloc s).1).mem x :=
    store_slot_apply hi ht
  rw [hstore, clearTable_apply, if_neg hf]

include halloc howns h0 hsub hi in
/-- A new table in an empty slot. -/
theorem grown_newTable (ht : Tables s.mem roots T) {r : ℕ} (hr : r ∈ roots) {p : List ℕ}
    (hp : p.length < 3) (hw : walk (child s.mem) r p = some t) (hempty : child s.mem t i = none) :
    Grown P roots s F T (newTable alloc s t i) (Set.insert (alloc s).1 F)
        (Set.insert (alloc s).1 T) ∧
      walk (child (newTable alloc s t i).mem) r (p ++ [i]) = some (alloc s).1 := by
  have htT : t ∈ T := ht.mem_of_walk hr hp.le hw
  have hfresh := halloc.fresh howns h0
  -- the allocation and the clearing leave the tables alone
  have hclear : ∀ u ∈ T, ∀ x, InPage u x → (clearTable (alloc s).2 (alloc s).1).mem x = s.mem x :=
    fun u hu x hx => clear_apply_of_held halloc howns h0 (hsub hu) hx
  have hwalk : ∀ r' ∈ roots, ∀ q : List ℕ, q.length ≤ 3 →
      walk (child (clearTable (alloc s).2 (alloc s).1).mem) r' q = walk (child s.mem) r' q :=
    fun r' hr' q hq => ht.walk_congr hclear hr' hq
  obtain ⟨htables, hslot, hkeep, htrans⟩ := (ht.congr hclear).hang hr hp ((hwalk r hr p hp.le).trans hw) hi
    ((child_congr (hclear t htT) i).trans hempty) (newTable_isFrame halloc howns h0) (fun hmem => hfresh (hsub hmem))
    fun x hx => by rw [clearTable_apply, if_pos hx]
  refine ⟨⟨owns_newTable halloc howns h0 hsub htT hi, htables, Set.insert_subset_insert hsub,
    Set.subset_insert _ _, ?_, Set.subset_insert _ _, ?_, ?_, ?_, ?_⟩, hslot⟩
  · rintro f (rfl | hf)
    · exact Or.inr (Set.mem_insert _ _)
    · exact Or.inl hf
  · rintro u (rfl | hu) hF
    · exact absurd hF hfresh
    · exact hu
  · intro r' hr' q hq u hu
    exact hkeep r' hr' q hq u ((hwalk r' hr' q hq).trans hu)
  · intro r' hr' v
    exact (htrans r' hr' v).trans (ht.translate_congr hclear hr' v)
  · intro f hf hfT x hx
    have hft : f ≠ t := fun e => hfT (e ▸ htT)
    exact newTable_apply_of_held halloc howns h0 hsub htT hi hf hft hx

end newTable

/-- `get_or_alloc` finds a present entry. -/
theorem getOrAlloc_of_present {t i : ℕ} (hpres : readEntry s.mem t i &&& flagPresent ≠ 0) :
    getOrAlloc alloc s t i = (readEntry s.mem t i &&& frameMask, s) := by
  unfold getOrAlloc
  simp only [hpres, if_false]

/-- `get_or_alloc` fails without a frame. -/
theorem getOrAlloc_of_fail {t i : ℕ} (habsent : readEntry s.mem t i &&& flagPresent = 0) (h0 : (alloc s).1 = 0) :
    getOrAlloc alloc s t i = (0, (alloc s).2) := by
  unfold getOrAlloc
  simp only [habsent, h0, if_true]

/-- `get_or_alloc` adds a table. -/
theorem getOrAlloc_of_absent (halloc : P.Allocator alloc) (howns : P.Owns s F) {t i : ℕ} (hi : i < ptEntries)
    (habsent : readEntry s.mem t i &&& flagPresent = 0) (h0 : (alloc s).1 ≠ 0) :
    getOrAlloc alloc s t i = ((alloc s).1, newTable alloc s t i) := by
  have hslot : child (newTable alloc s t i).mem t i = some (alloc s).1 :=
    child_hang (newTable_isFrame halloc howns h0) hi
  have hfst : readEntry (newTable alloc s t i).mem t i &&& frameMask = (alloc s).1 := by
    unfold child at hslot
    split_ifs at hslot
    exact Option.some.inj hslot
  unfold getOrAlloc
  simp only [habsent, h0, if_true, if_false]
  exact Prod.ext hfst rfl

/-- `get_or_alloc` on a table of the forest above the last level. -/
theorem getOrAlloc_spec (halloc : P.Allocator alloc) (howns : P.Owns s F)
    (ht : Tables s.mem roots T) (hsub : T ⊆ F) {r : ℕ} (hr : r ∈ roots) {p : List ℕ}
    (hp : p.length < 3) {t : ℕ} (hw : walk (child s.mem) r p = some t) {i : ℕ}
    (hi : i < ptEntries) :
    ∃ F' T', Grown P roots s F T (getOrAlloc alloc s t i).2 F' T' ∧
      ((getOrAlloc alloc s t i).1 ≠ 0 →
        walk (child (getOrAlloc alloc s t i).2.mem) r (p ++ [i])
          = some (getOrAlloc alloc s t i).1) := by
  by_cases hpres : readEntry s.mem t i &&& flagPresent = 0
  · have hempty : child s.mem t i = none := by
      unfold child
      rw [if_neg fun h => h.2 hpres]
    by_cases h0 : (alloc s).1 = 0
    · rw [getOrAlloc_of_fail hpres h0]
      exact ⟨F, T, Grown.of_fail halloc howns ht hsub h0, fun h => absurd rfl h⟩
    · obtain ⟨hgrown, hwalk⟩ := grown_newTable halloc howns h0 hsub hi ht hr hp hw hempty
      rw [getOrAlloc_of_absent halloc howns hi hpres h0]
      exact ⟨_, _, hgrown, fun _ => hwalk⟩
  · rw [getOrAlloc_of_present hpres]
    refine ⟨F, T, Grown.refl howns ht hsub, fun _ => ?_⟩
    rw [walk_concat_of_eq hw]
    unfold child
    rw [if_pos ⟨hi, hpres⟩]

/-- The three calls of `get_or_alloc` in `vmm_map_page`. -/
theorem ptFor_spec (halloc : P.Allocator alloc) (howns : P.Owns s F)
    (ht : Tables s.mem roots T) (hsub : T ⊆ F) {r : ℕ} (hr : r ∈ roots) (v : ℕ) :
    ∃ F' T', Grown P roots s F T (ptFor alloc s r v).2 F' T' ∧
      ((ptFor alloc s r v).1 ≠ 0 →
        pageTable (ptFor alloc s r v).2.mem r v = some (ptFor alloc s r v).1) := by
  obtain ⟨F₁, T₁, hg₁, hw₁⟩ := getOrAlloc_spec halloc howns ht hsub hr (p := []) (by decide) rfl
    (index_lt v 39)
  rcases h₁ : getOrAlloc alloc s r (pml4Index v) with ⟨pdpt, s₁⟩
  change getOrAlloc alloc s r (((v >>> 39) &&& 0x1FF)) = _ at h₁
  rw [h₁] at hg₁ hw₁
  by_cases hpdpt : pdpt = 0
  · have heq : ptFor alloc s r v = (0, s₁) := by
      unfold ptFor pml4Index
      simp only [h₁, hpdpt, if_true]
    rw [heq]
    exact ⟨F₁, T₁, hg₁, fun h => absurd rfl h⟩
  obtain ⟨F₂, T₂, hg₂, hw₂⟩ := getOrAlloc_spec halloc hg₁.owns hg₁.tables hg₁.subset hr
    (by simp) (hw₁ hpdpt) (index_lt v 30)
  rcases h₂ : getOrAlloc alloc s₁ pdpt (pdptIndex v) with ⟨pd, s₂⟩
  change getOrAlloc alloc s₁ pdpt (((v >>> 30) &&& 0x1FF)) = _ at h₂
  rw [h₂] at hg₂ hw₂
  by_cases hpd : pd = 0
  · have heq : ptFor alloc s r v = (0, s₂) := by
      unfold ptFor pml4Index pdptIndex
      simp only [h₁, hpdpt, h₂, hpd, if_true, if_false]
    rw [heq]
    exact ⟨F₂, T₂, hg₁.trans hg₂, fun h => absurd rfl h⟩
  obtain ⟨F₃, T₃, hg₃, hw₃⟩ := getOrAlloc_spec halloc hg₂.owns hg₂.tables hg₂.subset hr
    (by simp) (hw₂ hpd) (index_lt v 21)
  have heq : ptFor alloc s r v = getOrAlloc alloc s₂ pd ((v >>> 21) &&& 0x1FF) := by
    unfold ptFor pml4Index pdptIndex pdIndex
    simp only [h₁, hpdpt, h₂, hpd, if_false]
  rw [heq]
  exact ⟨F₃, T₃, (hg₁.trans hg₂).trans hg₃, hw₃⟩

/-- `vmm_create_address_space` with a frame at hand, with the state `s'` after it: a new root whose
address space is empty. -/
theorem addSpace_spec (halloc : P.Allocator alloc) (howns : P.Owns s F) (ht : Tables s.mem roots T)
    (hsub : T ⊆ F) (h0 : (alloc s).1 ≠ 0) :
    ∃ s', clearTable (alloc s).2 (alloc s).1 = s' ∧ P.Owns s' (Set.insert (alloc s).1 F) ∧
      Tables s'.mem (Set.insert (alloc s).1 roots) (Set.insert (alloc s).1 T) ∧ (alloc s).1 ∉ F ∧
      (∀ u ∈ F, ∀ x, InPage u x → s'.mem x = s.mem x) ∧
      ∀ v, translate s'.mem (alloc s).1 v = none := by
  have hfresh := halloc.fresh howns h0
  have hkeep : ∀ u ∈ F, ∀ x, InPage u x → (clearTable (alloc s).2 (alloc s).1).mem x = s.mem x :=
    fun u hu x hx => clear_apply_of_held halloc howns h0 hu hx
  have hzero : ∀ x, InPage (alloc s).1 x → (clearTable (alloc s).2 (alloc s).1).mem x = 0 :=
    fun x hx => by rw [clearTable_apply, if_pos hx]
  have hempty := child_clear hzero
  have htables := ht.congr fun t ht => hkeep t (hsub ht)
  have hnot : ¬ Reached (child (clearTable (alloc s).2 (alloc s).1).mem) roots 3 (alloc s).1 :=
    fun hr => hfresh (hsub (htables.reached _ hr))
  refine ⟨_, rfl, ?_, ⟨htables.forest.addRoot hnot hempty, ?_, ?_⟩, hfresh, hkeep, fun v => ?_⟩
  · refine P.write_state (halloc.owns howns h0) (by simp only [clearTable]) fun x hx => ?_
    rw [clearTable_apply, if_neg (hx _ (Set.mem_insert _ _))]
  · rintro t ⟨r, hr, p, hp, hw⟩
    rcases hr with rfl | hr
    · exact Or.inl (walk_of_empty hempty hw).2
    · exact Or.inr (htables.mem_of_walk hr hp hw)
  · rintro t (rfl | ht')
    · exact P.isFrame (halloc.owns howns h0) _ (Set.mem_insert _ _)
    · exact ht.isFrame t ht'
  · unfold translate pageTable
    cases hw : walk (child (clearTable (alloc s).2 (alloc s).1).mem) (alloc s).1 (tablePath v) with
    | none => rfl
    | some pt =>
        have hnil := (walk_of_empty hempty hw).1
        exact absurd (hnil ▸ tablePath_length v) (by simp)

end alloc

end PrometheusKernel.Vmm
