import PrometheusKernel.Cow.Steps
import PrometheusKernel.Lib.CopyOnWrite
import PrometheusKernel.PageStack

/-!
# Copy-on-write refines private copies

Runs of address spaces that map fresh pages, share them and write to them. A mapping is named by its
address space and its virtual page (`name`). The code keeps one frame for many mappings; the
abstract side (`Private`) has one page for each mapping, copied at the moment of sharing, and
knows neither frames nor faults.

`Inv` relates the two. Its core is `CopyOnWrite.Isolated`, for mappings with the writable bit off as
the shared ones: a writable mapping is the only mapping of its frame, and no count is below the
number of read-only mappings of its frame. `reads_eq_private` is the result.
-/

namespace PrometheusKernel.Cow

open ByteMem LinkedList Vmm TableTree CopyOnWrite

/-! ### Runs -/

/-- A mapping: its address space and its virtual page number. -/
def name (pml4 virt : ℕ) : ℕ × ℕ := (pml4, vpn virt)

/-- What the clients of `cow.c` do. -/
inductive Op
  /-- `vmm_create_address_space()`. -/
  | create
  /-- Map a fresh frame: `buddy_alloc_pages(0, BUDDY_ZONE_UNMOVABLE)`, then `vmm_map_page`. -/
  | map (pml4 virt flags : ℕ)
  /-- Share the frame at `src`: `vmm_map_page` into each of `dsts` (address space, address, flags),
  then `cow_mark_page` on each of `marks`. -/
  | share (src : ℕ × ℕ) (dsts : List (ℕ × ℕ × ℕ)) (marks : List (ℕ × ℕ))
  /-- `cow_handle_fault(pml4, virt)`. -/
  | fault (pml4 virt : ℕ)
  /-- The byte at `virt` is written. -/
  | write (pml4 virt : ℕ) (b : UInt8)

/-- The machine and the history that the conditions on runs speak of. -/
structure Run (A : Type) where
  /-- The machine. -/
  state : State A
  /-- The address spaces. -/
  roots : List ℕ
  /-- The mappings made so far. -/
  names : List (ℕ × ℕ)
  /-- How often `cow_mark_page` was called, for each frame. -/
  marked : ℕ → ℕ

/-- The frame that `virt` is mapped to. -/
def frameAt (m : Mem) (pml4 virt : ℕ) : Option ℕ := (translate m pml4 virt).map Prod.fst

section runs

variable {A : Type} (allocFrame allocPage : Machine A → ℕ × Machine A)

/-- `vmm_map_page` of one frame into several mappings. -/
def mapAll (phys : ℕ) (s : State A) (dsts : List (ℕ × ℕ × ℕ)) : State A :=
  dsts.foldl (fun s d =>
    { s with toMachine := vmmMapPage allocFrame s.toMachine d.1 d.2.1 phys d.2.2 }) s

/-- `cow_mark_page` on several mappings; `none` unless every call returns 0. -/
def markAll : State A → List (ℕ × ℕ) → Option (State A)
  | s, [] => some s
  | s, (pml4, virt) :: marks =>
      match cowMarkPage allocPage s pml4 virt with
      | none => none
      | some (result, s) => if result = 0 then markAll s marks else none

/-- The names of the targets of a `share`. -/
def targets (dsts : List (ℕ × ℕ × ℕ)) : List (ℕ × ℕ) := dsts.map fun d => name d.1 d.2.1

/-- One step; `none` is a call that does not return. -/
def step (c : Run A) : Op → Option (Run A)
  | .create =>
      let res := vmmCreateAddressSpace allocFrame c.state.toMachine
      some { c with state := { c.state with toMachine := res.2 }
                    roots := if res.1 = 0 then c.roots else res.1 :: c.roots }
  | .map pml4 virt flags =>
      let res := allocPage c.state.toMachine
      if res.1 = 0 then some { c with state := { c.state with toMachine := res.2 } }
      else
        some { c with state := { c.state with
                        toMachine := vmmMapPage allocFrame res.2 pml4 virt res.1 flags }
                      names := name pml4 virt :: c.names }
  | .share src dsts marks =>
      match frameAt c.state.mem src.1 src.2 with
      | none => none
      | some phys =>
          match markAll allocPage (mapAll allocFrame phys c.state dsts) marks with
          | none => none
          | some s =>
              some { c with state := s
                            names := targets dsts ++ c.names
                            marked := Function.update c.marked phys
                              (c.marked phys + marks.length) }
  | .fault pml4 virt =>
      (cowHandleFault allocPage c.state pml4 virt).map fun res => { c with state := res.2 }
  | .write pml4 virt b =>
      (frameAt c.state.mem pml4 virt).map fun phys =>
        { c with state := { c.state with
            mem := Function.update c.state.mem (phys + virt % pageSize) b } }

/-- A frame is shared as `cow.c` asks for: the frame is mapped at `src` and, after the calls of
`vmm_map_page`, at all targets; `cow_mark_page` is called on all its mappings and on nothing else,
always with success, and fewer than `2 ^ 32` times for the frame in the whole run. -/
structure Run.Sharing (c : Run A) (src : ℕ × ℕ) (dsts : List (ℕ × ℕ × ℕ)) (marks : List (ℕ × ℕ))
    (phys : ℕ) : Prop where
  src_root : src.1 ∈ c.roots
  source : frameAt c.state.mem src.1 src.2 = some phys
  dst_root : ∀ d ∈ dsts, d.1 ∈ c.roots
  dst_mapped : ∀ d ∈ dsts,
    frameAt (mapAll allocFrame phys c.state dsts).mem d.1 d.2.1 = some phys
  mark_root : ∀ m ∈ marks, m.1 ∈ c.roots
  mark_mapped : ∀ m ∈ marks,
    frameAt (mapAll allocFrame phys c.state dsts).mem m.1 m.2 = some phys
  covered : ∀ n ∈ targets dsts ++ c.names,
    (space (mapAll allocFrame phys c.state dsts).mem n.1 n.2).map Prod.fst = some phys →
      n ∈ marks.map fun m => name m.1 m.2
  success : (markAll allocPage (mapAll allocFrame phys c.state dsts) marks).isSome
  bounded : c.marked phys + marks.length < 2 ^ 32

/-- The steps that a run may take. -/
def Run.Valid (c : Run A) : Op → Prop
  | .create => True
  | .map pml4 _ flags => pml4 ∈ c.roots ∧ isWritable flags = true
  | .share src dsts marks => ∃ phys, c.Sharing allocFrame allocPage src dsts marks phys
  | .fault pml4 _ => pml4 ∈ c.roots
  | .write pml4 virt _ =>
      pml4 ∈ c.roots ∧ ∃ e, translate c.state.mem pml4 virt = some e ∧ isWritable e.2 = true

/-- Every step of the list is valid when its turn comes. -/
def ValidRun : Run A → List Op → Prop
  | _, [] => True
  | c, op :: ops => c.Valid allocFrame allocPage op ∧
      ∀ c', step allocFrame allocPage c op = some c' → ValidRun c' ops

/-- A list of steps. -/
def exec (c : Run A) (ops : List Op) : Option (Run A) := ops.foldlM (step allocFrame allocPage) c

/-- A run starts after `cow_init`, without address spaces. -/
def start (s : Machine A) : Run A := ⟨cowInit s, [], [], fun _ => 0⟩

/-- A read through a mapping. -/
def read (c : Run A) (pml4 virt : ℕ) : Option UInt8 :=
  (frameAt c.state.mem pml4 virt).map fun phys => c.state.mem (phys + virt % pageSize)

/-! ### Private copies -/

/-- One page for each mapping. -/
abbrev Private := ℕ × ℕ → Option (ℕ → UInt8)

/-- The step on private copies: a fresh page has the contents that the frame comes with, sharing
copies the page of `src`, a fault does nothing, and a write goes to the page of its mapping. The
machine only decides whether a fresh page can be mapped. -/
def privateStep (c : Run A) (p : Private) : Op → Private
  | .create => p
  | .map pml4 virt _ =>
      let res := allocPage c.state.toMachine
      if res.1 = 0 ∨ (ptFor allocFrame res.2 pml4 virt).1 = 0 then p
      else Function.update p (name pml4 virt) (some (page res.2.mem res.1))
  | .share src dsts _ => fun n => if n ∈ targets dsts then p (name src.1 src.2) else p n
  | .fault _ _ => p
  | .write pml4 virt b =>
      Function.update p (name pml4 virt)
        ((p (name pml4 virt)).map fun q => Function.update q (virt % pageSize) b)

/-- The private copies along a run. -/
def privates : Run A → Private → List Op → Private
  | _, p, [] => p
  | c, p, op :: ops =>
      match step allocFrame allocPage c op with
      | none => p
      | some c' => privates c' (privateStep allocFrame allocPage c p op) ops

end runs

/-! ### Mappings by name -/

/-- Frame of a mapping, and whether it is read-only. -/
def entryOf (e : ℕ × ℕ) : ℕ × Bool := (e.1, !isWritable e.2)

/-- The mappings in memory, by name. -/
def mapping (m : Mem) (roots : List ℕ) (n : ℕ × ℕ) : Option (ℕ × Bool) :=
  if n.1 ∈ roots then (space m n.1 n.2).map entryOf else none

/-- The mappings in memory, by name, as far as `view` shows them. -/
def mappingBy {B : Type} (view : ℕ × ℕ → B) (m : Mem) (roots : List ℕ) (n : ℕ × ℕ) : Option B :=
  if n.1 ∈ roots then (space m n.1 n.2).map view else none

section mapping

variable {B : Type} {view : ℕ × ℕ → B} {m m' : Mem} {roots : List ℕ}

/-- The mapping under a name is what the tables say. -/
theorem mappingBy_name {r : ℕ} (hr : r ∈ roots) (v : ℕ) :
    mappingBy view m roots (name r v) = (translate m r v).map view := by
  unfold mappingBy name
  rw [if_pos hr, space_vpn]

/-- Every mapping is the mapping of some address. -/
theorem exists_of_mappingBy {n : ℕ × ℕ} {b : B} (h : mappingBy view m roots n = some b) :
    ∃ v e, n.1 ∈ roots ∧ translate m n.1 v = some e ∧ view e = b := by
  unfold mappingBy at h
  split_ifs at h with hr
  unfold space at h
  split_ifs at h with hn
  · obtain ⟨e, ht, he⟩ := Option.map_eq_some_iff.mp h
    exact ⟨n.2 * pageSize, e, hr, ht, he⟩
  · exact absurd h (by simp)

/-- The mappings only depend on what the tables say. -/
theorem mappingBy_congr (h : ∀ r ∈ roots, ∀ v, translate m' r v = translate m r v) :
    mappingBy view m' roots = mappingBy view m roots := by
  funext n
  unfold mappingBy
  split_ifs with hr
  · rw [space_congr (h n.1 hr)]
  · rfl

/-- A change of one page is a change of one mapping. -/
theorem mappingBy_update {r v : ℕ} {e : ℕ × ℕ} (hr : r ∈ roots)
    (h : ∀ r' ∈ roots, ∀ w, translate m' r' w
      = if r' = r ∧ vpn w = vpn v then some e else translate m r' w) :
    mappingBy view m' roots = Function.update (mappingBy view m roots) (name r v) (some (view e)) := by
  funext n
  by_cases hn : n = name r v
  · rw [hn, Function.update_self, mappingBy_name hr, h r hr v, if_pos ⟨rfl, rfl⟩]
    rfl
  · rw [Function.update_of_ne hn]
    unfold mappingBy
    split_ifs with hr'
    · rw [space_congr_at fun hlt => ?_]
      rw [h n.1 hr', if_neg]
      rintro ⟨h1, h2⟩
      rw [vpn_mul_pageSize hlt] at h2
      exact hn (Prod.ext h1 h2)
    · rfl

/-- A new address space without mappings. -/
theorem mappingBy_cons {f : ℕ} (hf : f ∉ roots) (hempty : ∀ v, translate m' f v = none)
    (h : ∀ r ∈ roots, ∀ v, translate m' r v = translate m r v) :
    mappingBy view m' (f :: roots) = mappingBy view m roots := by
  funext n
  unfold mappingBy
  by_cases hn : n.1 = f
  · rw [if_pos (hn ▸ List.mem_cons_self), if_neg (hn ▸ hf), hn]
    unfold space
    rw [hempty, ite_self, Option.map_none]
  · by_cases hr : n.1 ∈ roots
    · rw [if_pos (List.mem_cons_of_mem _ hr), if_pos hr, space_congr (h n.1 hr)]
    · rw [if_neg fun hmem => (List.mem_cons.mp hmem).elim hn hr, if_neg hr]

/-- The mappings with their flags. -/
theorem mapping_eq : mapping m roots = mappingBy entryOf m roots := rfl

/-- The mapping under a name is what the tables say. -/
theorem mapping_name {r : ℕ} (hr : r ∈ roots) (v : ℕ) :
    mapping m roots (name r v) = (translate m r v).map entryOf := mappingBy_name hr v

/-- The mappings only depend on what the tables say. -/
theorem mapping_congr (h : ∀ r ∈ roots, ∀ v, translate m' r v = translate m r v) :
    mapping m' roots = mapping m roots := mappingBy_congr h

/-- One mapping, by the addresses it is the mapping of. -/
theorem mapping_congr_at {n : ℕ × ℕ}
    (h : n.1 ∈ roots → ∀ w, name n.1 w = n → translate m' n.1 w = translate m n.1 w) :
    mapping m' roots n = mapping m roots n := by
  unfold mapping
  split_ifs with hr
  · rw [space_congr_at fun hn => ?_]
    apply h hr
    unfold name
    rw [vpn_mul_pageSize hn]
  · rfl

end mapping

/-! ### `vmm_create_address_space` beside reference entries and data -/

/-- From `s` to `s'` the address space `f` has been created, and nothing else that a client sees has changed. -/
structure Created {A : Type} (P : Ownership A) (roots : List ℕ) (s : State A) (g : Ghost) (f : ℕ) (s' : State A)
    (g' : Ghost) : Prop where
  footing : Footing P s' {r | r ∈ f :: roots} g'
  fresh : f ∉ roots
  D_eq : g'.D = g.D
  cnt_eq : g'.cnt = g.cnt
  data_mem : ∀ d ∈ g.D, ∀ x, InPage d x → s'.mem x = s.mem x
  translate_eq : ∀ r ∈ roots, ∀ v, translate s'.mem r v = translate s.mem r v
  empty : ∀ v, translate s'.mem f v = none
  entries : g'.HasEntry s'.mem = g.HasEntry s.mem

/-- `vmm_create_address_space` returns null or a new address space without mappings. -/
theorem Footing.create {A : Type} {P : Ownership A} {allocFrame : Machine A → ℕ × Machine A} {s : State A}
    {roots : List ℕ} {g : Ghost} (h : Footing P s {r | r ∈ roots} g) (halloc : P.Allocator allocFrame) :
    (∃ s', vmmCreateAddressSpace allocFrame s.toMachine = (0, s') ∧
        Unchanged P {r | r ∈ roots} s g { s with toMachine := s' } g ∧ g.HasEntry s'.mem = g.HasEntry s.mem) ∨
      ∃ f s' g', vmmCreateAddressSpace allocFrame s.toMachine = (f, s') ∧ f ≠ 0 ∧
        Created P roots s g f { s with toMachine := s' } g' := by
  by_cases h0 : (allocFrame s.toMachine).1 = 0
  · refine Or.inl ⟨(allocFrame s.toMachine).2, ?_, (h.allocFail halloc h0).unchanged h rfl,
      h.hasEntry_congr rfl fun ref href => halloc.mem h.owns ref (h.rF href)⟩
    unfold vmmCreateAddressSpace
    simp only [h0, if_true]
  · obtain ⟨s', hs', howns, htables, hfresh, hkeep, hnone⟩ := addSpace_spec halloc h.owns h.tables h.tF h0
    set f := (allocFrame s.toMachine).1 with hf
    have hroot : f ∉ roots := fun hmem =>
      hfresh (h.tF (h.tables.mem_of_walk (p := []) hmem (Nat.zero_le 3) (walk_nil f)))
    have hset : {r | r ∈ f :: roots} = Set.insert f {r | r ∈ roots} := by
      ext r
      exact List.mem_cons
    refine Or.inr ⟨f, s', { g with F := Set.insert f g.F, T := Set.insert f g.T }, ?_, h0, ?_, hroot, rfl, rfl,
      fun d hd => hkeep d (h.dF hd),
      fun r hr v => h.tables.translate_congr (fun t ht => hkeep t (h.tF ht)) hr v, hnone,
      h.hasEntry_congr rfl fun ref href => hkeep ref (h.rF href)⟩
    · unfold vmmCreateAddressSpace
      simp only [← hf, h0, if_false, hs']
    · refine ⟨howns, ?_, h.refs.congr fun ref href => hkeep ref (h.rF href), Set.insert_subset_insert h.tF,
        h.rF.trans (Set.subset_insert _ _), h.dF.trans (Set.subset_insert _ _), ?_, ?_, h.rd⟩
      · show Tables s'.mem {r | r ∈ f :: roots} (Set.insert f g.T)
        rw [hset]
        exact htables
      · rintro t (rfl | ht) hr
        · exact hfresh (h.rF hr)
        · exact h.tr t ht hr
      · rintro d hd (rfl | ht)
        · exact hfresh (h.dF hd)
        · exact h.td d hd ht

/-! ### `vmm_map_page` beside reference entries and data -/

section mapPage

variable {A : Type} {P : Ownership A} {allocFrame allocPage : Machine A → ℕ × Machine A} {s : State A}
  {roots : Set ℕ} {g : Ghost}

/-- New tables leave reference entries and data alone. -/
theorem Footing.grown (h : Footing P s roots g) {s' : Machine A} {F' T' : Set ℕ}
    (hg : Grown P roots s.toMachine g.F g.T s' F' T') :
    Unchanged P roots s g { s with toMachine := s' } { g with F := F', T := T' } ∧
      Ghost.HasEntry { g with F := F', T := T' } s'.mem = g.HasEntry s.mem := by
  have hR : ∀ f ∈ g.R, f ∉ g.T := fun f hf hT => h.tr f hT hf
  have hkeep : ∀ ref ∈ g.R, ∀ x, InPage ref x → s'.mem x = s.mem x := fun ref href =>
    hg.mem ref (h.rF href) (hR ref href)
  refine ⟨⟨⟨hg.owns, hg.tables, h.refs.congr hkeep, hg.subset, h.rF.trans hg.keep, h.dF.trans hg.keep, ?_, ?_,
    h.rd⟩, subset_rfl, rfl, fun d hd => hg.mem d (h.dF hd) (h.td d hd), hg.translate_eq⟩,
    h.hasEntry_congr rfl hkeep⟩
  · exact fun t ht hr => hR t hr (hg.fresh t ht (h.rF hr))
  · exact fun d hd ht => h.td d hd (hg.fresh d ht (h.dF hd))

/-- `vmm_map_page` of a frame changes nothing, or the mapping it is called for. -/
theorem Footing.mapPage (h : Footing P s roots g) (halloc : P.Allocator allocFrame) {r : ℕ}
    (hr : r ∈ roots) (v phys flags : ℕ) :
    ((ptFor allocFrame s.toMachine r v).1 = 0 →
      ∃ g', Unchanged P roots s g
          { s with toMachine := vmmMapPage allocFrame s.toMachine r v phys flags } g' ∧
        g'.HasEntry (vmmMapPage allocFrame s.toMachine r v phys flags).mem = g.HasEntry s.mem) ∧
    ((ptFor allocFrame s.toMachine r v).1 ≠ 0 →
      ∃ g', Remapped P roots s g r v (phys &&& frameMask) ((flags &&& 0xFFF) ||| flagPresent)
          { s with toMachine := vmmMapPage allocFrame s.toMachine r v phys flags } g' ∧
        g'.D = g.D ∧ g'.cnt = g.cnt ∧
        g'.HasEntry (vmmMapPage allocFrame s.toMachine r v phys flags).mem = g.HasEntry s.mem) := by
  obtain ⟨F', T', hg, hpt⟩ := ptFor_spec halloc h.owns h.tables h.tF hr v
  obtain ⟨hgrown, hentry⟩ := h.grown hg
  rw [vmmMapPage_eq]
  constructor
  · intro h0
    rw [if_pos h0]
    exact ⟨_, hgrown, hentry⟩
  · intro h0
    rw [if_neg h0]
    obtain ⟨e1, e2, e3, e4⟩ := mapEntry_spec phys flags
    obtain ⟨hfoot, hkeep⟩ := hgrown.footing.leafWrite hr (hpt h0)
      ((phys &&& frameMask) ||| (flags &&& 0xFFF) ||| flagPresent)
    have hkeepD : ∀ d ∈ g.D, ∀ x, InPage d x → store 8 (ptFor allocFrame s.toMachine r v).2.mem
        (slot (ptFor allocFrame s.toMachine r v).1 (ptIndex v))
        ((phys &&& frameMask) ||| (flags &&& 0xFFF) ||| flagPresent) x
          = (ptFor allocFrame s.toMachine r v).2.mem x :=
      fun d hd => hkeep d (hgrown.footing.dF hd) (hgrown.footing.td d hd)
    refine ⟨_, ⟨hfoot, fun d hd x hx => ?_, fun r' hr' w => ?_⟩, rfl, rfl, ?_⟩
    · exact (hkeepD d hd x hx).trans (hgrown.data_mem d hd x hx)
    · refine (hg.tables.translate_leafWrite hr (hpt h0) e4 hr' w).trans ?_
      unfold decode
      rw [if_neg e3, e1, e2, hg.translate_eq r' hr' w]
    · rw [← hentry]
      exact hgrown.footing.hasEntry_congr rfl fun ref href =>
        hkeep ref (hgrown.footing.rF href) fun ht => hgrown.footing.tr ref ht href

/-- The calls of `vmm_map_page` of a `share` change nothing but the mappings of the targets. -/
theorem Footing.mapAll (h : Footing P s roots g) (halloc : P.Allocator allocFrame) (phys : ℕ)
    {dsts : List (ℕ × ℕ × ℕ)} (hroot : ∀ d ∈ dsts, d.1 ∈ roots) :
    ∃ g', Footing P (Cow.mapAll allocFrame phys s dsts) roots g' ∧ g.D ⊆ g'.D ∧ g'.cnt = g.cnt ∧
      (∀ d ∈ g.D, ∀ x, InPage d x → (Cow.mapAll allocFrame phys s dsts).mem x = s.mem x) ∧
      ∀ r ∈ roots, ∀ w, name r w ∉ targets dsts →
        translate (Cow.mapAll allocFrame phys s dsts).mem r w = translate s.mem r w := by
  induction dsts generalizing s g with
  | nil => exact ⟨g, h, subset_rfl, rfl, fun _ _ _ _ => rfl, fun _ _ _ _ => rfl⟩
  | cons d dsts ih =>
      have hr : d.1 ∈ roots := hroot d List.mem_cons_self
      set s₁ : State A :=
        { s with toMachine := vmmMapPage allocFrame s.toMachine d.1 d.2.1 phys d.2.2 } with hs₁
      have hone : ∃ g₁, Footing P s₁ roots g₁ ∧ g.D ⊆ g₁.D ∧ g₁.cnt = g.cnt ∧
          (∀ d ∈ g.D, ∀ x, InPage d x → s₁.mem x = s.mem x) ∧
          ∀ r ∈ roots, ∀ w, name r w ≠ name d.1 d.2.1 →
            translate s₁.mem r w = translate s.mem r w := by
        obtain ⟨hfail, hok⟩ := h.mapPage halloc hr d.2.1 phys d.2.2
        by_cases h0 : (ptFor allocFrame s.toMachine d.1 d.2.1).1 = 0
        · obtain ⟨g₁, h₁, -⟩ := hfail h0
          exact ⟨g₁, h₁.footing, h₁.D_subset, h₁.cnt_eq, h₁.data_mem, fun r hr w _ =>
            h₁.translate_eq r hr w⟩
        · obtain ⟨g₁, h₁, hD, hcnt, -⟩ := hok h0
          refine ⟨g₁, h₁.footing, hD.ge, hcnt, h₁.data_mem, fun r hr w hne => ?_⟩
          rw [h₁.translate_eq r hr w, if_neg]
          rintro ⟨e1, e2⟩
          exact hne (Prod.ext e1 e2)
      obtain ⟨g₁, h₁, hD₁, hcnt₁, hdata₁, htr₁⟩ := hone
      obtain ⟨g', h', hD', hcnt', hdata', htr'⟩ :=
        ih h₁ fun d' hd' => hroot d' (List.mem_cons_of_mem _ hd')
      refine ⟨g', h', hD₁.trans hD', hcnt'.trans hcnt₁, fun f hf x hx => ?_, fun r hr w hw => ?_⟩
      · exact (hdata' f (hD₁ hf) x hx).trans (hdata₁ f hf x hx)
      · have hne : name r w ≠ name d.1 d.2.1 := fun e => hw (List.mem_cons.mpr (Or.inl e))
        have hnot : name r w ∉ targets dsts := fun hin => hw (List.mem_cons_of_mem _ hin)
        exact (htr' r hr w hnot).trans (htr₁ r hr w hne)

/-- The calls of `cow_mark_page` of a `share`, all with success: the mappings become read-only and
are counted. -/
theorem Footing.markAll (h : Footing P s roots g) (halloc : P.Allocator allocPage) {phys : ℕ}
    (hphys : phys ∈ g.D) {marks : List (ℕ × ℕ)} (hroot : ∀ m ∈ marks, m.1 ∈ roots)
    (hmapped : ∀ m ∈ marks, frameAt s.mem m.1 m.2 = some phys)
    (hcnt : g.cnt phys + marks.length < 2 ^ 32) {s' : State A}
    (hs' : Cow.markAll allocPage s marks = some s') :
    ∃ g', Footing P s' roots g' ∧ g'.D = g.D ∧
      g'.cnt = Function.update g.cnt phys (g.cnt phys + marks.length) ∧
      (∀ d ∈ g.D, ∀ x, InPage d x → s'.mem x = s.mem x) ∧
      (∀ r ∈ roots, ∀ w, name r w ∉ marks.map (fun m => name m.1 m.2) →
        translate s'.mem r w = translate s.mem r w) ∧
      ∀ r ∈ roots, ∀ w, name r w ∈ marks.map (fun m => name m.1 m.2) →
        ∃ fl, translate s'.mem r w = some (phys, fl) ∧ isWritable fl = false := by
  induction marks generalizing s g with
  | nil =>
      obtain rfl : s = s' := Option.some.inj hs'
      refine ⟨g, h, rfl, ?_, fun _ _ _ _ => rfl, fun _ _ _ _ => rfl, fun r hr w hw => ?_⟩
      · rw [List.length_nil, Nat.add_zero, Function.update_eq_self]
      · exact absurd hw List.not_mem_nil
  | cons m marks ih =>
      obtain ⟨r₀, v₀⟩ := m
      have hr₀ : r₀ ∈ roots := hroot _ List.mem_cons_self
      obtain ⟨⟨f, fl₀⟩, ht₀, hf⟩ := Option.map_eq_some_iff.mp (hmapped _ List.mem_cons_self)
      obtain rfl : f = phys := hf
      rw [List.length_cons] at hcnt
      rcases cowMarkPage_spec h halloc hr₀ v₀ with
        ⟨s₁, g₁, heq, -⟩ | ⟨f', fl', s₁, g₁, fl₁, ht', heq, ⟨hw₁, -⟩, h₁, hD₁, ⟨hcnt₁, -⟩⟩
      · simp only [Cow.markAll, heq] at hs'
        exact absurd hs' (by simp)
      obtain rfl : f = f' := (Prod.mk.inj (Option.some.inj (ht₀.symm.trans ht'))).1
      simp only [Cow.markAll, heq, if_true] at hs'
      have hframe : ∀ r ∈ roots, ∀ w, frameAt s.mem r w = some f → frameAt s₁.mem r w = some f := by
        intro r hr w hfr
        unfold frameAt
        rw [h₁.translate_eq r hr w]
        split_ifs
        · rfl
        · exact hfr
      rw [Word.add_eq (by omega)] at hcnt₁
      have hcf : g₁.cnt f = g.cnt f + 1 := by rw [hcnt₁, Function.update_self]
      obtain ⟨g', h', hD', hcnt', hdata', hsame', hmark'⟩ := ih h₁.footing (hD₁ ▸ hphys)
        (fun m hm => hroot m (List.mem_cons_of_mem _ hm))
        (fun m hm => hframe m.1 (hroot m (List.mem_cons_of_mem _ hm)) m.2
          (hmapped m (List.mem_cons_of_mem _ hm))) (by omega) hs'
      refine ⟨g', h', hD'.trans hD₁, ?_, fun d hd x hx => ?_, fun r hr w hw => ?_, fun r hr w hw => ?_⟩
      · rw [hcnt', hcf, hcnt₁, Function.update_idem, List.length_cons]
        congr 1
        omega
      · exact (hdata' d (hD₁ ▸ hd) x hx).trans (h₁.data_mem d hd x hx)
      · have hne : name r w ≠ name r₀ v₀ := fun e => hw (List.mem_cons.mpr (Or.inl e))
        have hnot : name r w ∉ marks.map fun m => name m.1 m.2 :=
          fun hin => hw (List.mem_cons_of_mem _ hin)
        rw [hsame' r hr w hnot, h₁.translate_eq r hr w, if_neg]
        rintro ⟨e1, e2⟩
        exact hne (Prod.ext e1 e2)
      · by_cases hin : name r w ∈ marks.map fun m => name m.1 m.2
        · exact hmark' r hr w hin
        · -- marked first and not again
          have hhead : name r w = name r₀ v₀ := (List.mem_cons.mp hw).resolve_right hin
          obtain ⟨e1, e2⟩ := Prod.mk.inj hhead
          refine ⟨fl₁, ?_, hw₁⟩
          rw [hsame' r hr w hin, h₁.translate_eq r hr w, if_pos ⟨e1, e2⟩]

end mapPage

/-! ### The invariant -/

section inv

variable {A : Type} {P : Ownership A} {allocFrame allocPage : Machine A → ℕ × Machine A} {c : Run A}
  {g : Ghost} {p : Private}

/-- The machine holds the private copies `p`. -/
structure Inv (P : Ownership A) (c : Run A) (g : Ghost) (p : Private) : Prop where
  footing : Footing P c.state {r | r ∈ c.roots} g
  /-- Mapped frames hold data. -/
  data : ∀ n f b, mapping c.state.mem c.roots n = some (f, b) → f ∈ g.D
  /-- The history knows all mappings. -/
  named : ∀ n, mapping c.state.mem c.roots n ≠ none → n ∈ c.names
  isolated : ∃ support, Isolated (mapping c.state.mem c.roots) g.cnt support
  /-- Counts of mapped frames are counts of calls. -/
  bounded : ∀ n f b, mapping c.state.mem c.roots n = some (f, b) → g.cnt f ≤ c.marked f
  unused : ∀ f, f ∉ g.D → g.cnt f = 0
  view_eq : view (mapping c.state.mem c.roots) (page c.state.mem) = p

/-- Reads see the page of their own mapping. -/
theorem Inv.read_eq (h : Inv P c g p) {pml4 : ℕ} (hr : pml4 ∈ c.roots) (virt : ℕ) :
    read c pml4 virt = (p (name pml4 virt)).map fun q => q (virt % pageSize) := by
  have hlt : virt % pageSize < pageSize := Nat.mod_lt _ (by decide)
  rw [← h.view_eq]
  unfold read frameAt view
  rw [mapping_name hr]
  cases translate c.state.mem pml4 virt with
  | none => rfl
  | some e => simp only [Option.map_some, entryOf, page, if_pos hlt]

/-- Nothing that a client sees has changed. -/
theorem Inv.unchanged (h : Inv P c g p) {s' : State A} {g' : Ghost}
    (hs : Unchanged P {r | r ∈ c.roots} c.state g s' g') : Inv P { c with state := s' } g' p := by
  have hmap : mapping s'.mem c.roots = mapping c.state.mem c.roots := mapping_congr hs.translate_eq
  refine ⟨hs.footing, ?_, ?_, ?_, ?_, ?_, ?_⟩
  · intro n f b hn
    exact hs.D_subset (h.data n f b (hmap ▸ hn))
  · intro n hn
    exact h.named n (hmap ▸ hn)
  · show ∃ support, Isolated (mapping s'.mem c.roots) g'.cnt support
    rw [hmap, hs.cnt_eq]
    exact h.isolated
  · intro n f b hn
    rw [hs.cnt_eq]
    exact h.bounded n f b (hmap ▸ hn)
  · intro f hf
    rw [hs.cnt_eq]
    exact h.unused f fun hin => hf (hs.D_subset hin)
  · show view (mapping s'.mem c.roots) (page s'.mem) = p
    rw [hmap, ← h.view_eq]
    exact view_congr fun n f b hn => page_congr (hs.data_mem f (h.data n f b hn))

/-- Names may be added. -/
theorem Inv.more_names (h : Inv P c g p) (n : ℕ × ℕ) : Inv P { c with names := n :: c.names } g p :=
  ⟨h.footing, h.data, fun n' hn' => List.mem_cons_of_mem _ (h.named n' hn'), h.isolated, h.bounded,
    h.unused, h.view_eq⟩

/-- An address space is created. -/
theorem Inv.create (h : Inv P c g p) (hframe : P.Allocator allocFrame) :
    ∃ c' g', step allocFrame allocPage c .create = some c' ∧ Inv P c' g' p := by
  rcases h.footing.create hframe with ⟨s', hcall, h', -⟩ | ⟨f, s', g', hcall, h0, hc⟩
  · refine ⟨{ c with state := { c.state with toMachine := s' } }, g, ?_, h.unchanged h'⟩
    simp only [step, hcall, if_true]
  · have hmap : mapping s'.mem (f :: c.roots) = mapping c.state.mem c.roots :=
      mappingBy_cons hc.fresh hc.empty hc.translate_eq
    refine ⟨{ c with state := { c.state with toMachine := s' }, roots := f :: c.roots }, g', ?_,
      ⟨hc.footing, ?_, ?_, ?_, ?_, ?_, ?_⟩⟩
    · simp only [step, hcall, h0, if_false]
    · intro n f b hn
      rw [hc.D_eq]
      exact h.data n f b (hmap ▸ hn)
    · intro n hn
      exact h.named n (hmap ▸ hn)
    · show ∃ support, Isolated (mapping s'.mem (f :: c.roots)) g'.cnt support
      rw [hmap, hc.cnt_eq]
      exact h.isolated
    · intro n f b hn
      rw [hc.cnt_eq]
      exact h.bounded n f b (hmap ▸ hn)
    · intro d hd
      rw [hc.cnt_eq]
      exact h.unused d (hc.D_eq ▸ hd)
    · show view (mapping s'.mem (f :: c.roots)) (page s'.mem) = p
      rw [hmap, ← h.view_eq]
      exact view_congr fun n d b hn => page_congr (hc.data_mem d (h.data n d b hn))

/-- A mapping gets a frame of its own. -/
theorem Inv.own (h : Inv P c g p) {r v f fl : ℕ} {s' : State A} {g' : Ghost} (hr : r ∈ c.roots)
    (hs : Remapped P {r | r ∈ c.roots} c.state g r v f fl s' g') (hw : isWritable fl = true)
    (hf : f ∈ g'.D) (hD : g.D ⊆ g'.D) {names : List (ℕ × ℕ)} (hnames : c.names ⊆ names)
    (hname : name r v ∈ names)
    (hiso : ∃ support, Isolated
      (Function.update (mapping c.state.mem c.roots) (name r v) (some (f, false))) g'.cnt support)
    (hbound : g'.cnt f ≤ c.marked f)
    (hbound' : ∀ n d b, n ≠ name r v → mapping c.state.mem c.roots n = some (d, b) →
      g'.cnt d ≤ c.marked d)
    (hunused : ∀ d, d ∉ g'.D → g'.cnt d = 0) :
    Inv P { c with state := s', names := names } g'
      (Function.update p (name r v) (some (page s'.mem f))) := by
  have hentry : entryOf (f, fl) = (f, false) := by
    unfold entryOf
    rw [hw, Bool.not_true]
  have hmap : mapping s'.mem c.roots
      = Function.update (mapping c.state.mem c.roots) (name r v) (some (f, false)) := by
    rw [mapping_eq, mappingBy_update hr hs.translate_eq, hentry]
    rfl
  have hcases : ∀ n d b, mapping s'.mem c.roots n = some (d, b) →
      (n = name r v ∧ d = f) ∨ (n ≠ name r v ∧ mapping c.state.mem c.roots n = some (d, b)) := by
    intro n d b hn
    rw [hmap] at hn
    by_cases hc : n = name r v
    · rw [hc, Function.update_self] at hn
      exact Or.inl ⟨hc, (Prod.mk.inj (Option.some.inj hn)).1.symm⟩
    · rw [Function.update_of_ne hc] at hn
      exact Or.inr ⟨hc, hn⟩
  refine ⟨hs.footing, ?_, ?_, ?_, ?_, hunused, ?_⟩
  · intro n d b hn
    rcases hcases n d b hn with ⟨-, rfl⟩ | ⟨-, hn⟩
    · exact hf
    · exact hD (h.data n d b hn)
  · intro n hn
    obtain ⟨⟨d, b⟩, hdb⟩ := Option.ne_none_iff_exists'.mp hn
    rcases hcases n d b hdb with ⟨rfl, -⟩ | ⟨-, hn⟩
    · exact hname
    · exact hnames (h.named n (by rw [hn]; simp))
  · show ∃ support, Isolated (mapping s'.mem c.roots) g'.cnt support
    rw [hmap]
    exact hiso
  · intro n d b hn
    rcases hcases n d b hn with ⟨-, rfl⟩ | ⟨hne, hn⟩
    · exact hbound
    · exact hbound' n d b hne hn
  · show view (mapping s'.mem c.roots) (page s'.mem) = _
    have hold : view (mapping c.state.mem c.roots) (page s'.mem) = p := by
      rw [← h.view_eq]
      exact view_congr fun n d b hn => page_congr (hs.data_mem d (h.data n d b hn))
    rw [hmap, view_update, hold]

/-- A fresh page is mapped. -/
theorem Inv.map (h : Inv P c g p) (hframe : P.Allocator allocFrame) (hpage : P.Allocator allocPage)
    {pml4 virt flags : ℕ} (hr : pml4 ∈ c.roots) (hw : isWritable flags = true) :
    ∃ c' g', step allocFrame allocPage c (.map pml4 virt flags) = some c' ∧
      Inv P c' g' (privateStep allocFrame allocPage c p (.map pml4 virt flags)) := by
  by_cases h0 : (allocPage c.state.toMachine).1 = 0
  · have hfail := (h.footing.allocFail hpage h0).unchanged h.footing rfl
    refine ⟨{ c with state := { c.state with toMachine := (allocPage c.state.toMachine).2 } }, g, ?_, ?_⟩
    · simp only [step, if_pos h0]
    · simp only [privateStep, h0, true_or, if_true]
      exact h.unchanged hfail
  obtain ⟨hfresh, hisFrame, hfoot, hkeep⟩ := h.footing.allocData hpage h0
  rcases hres : allocPage c.state.toMachine with ⟨f, s₁⟩
  rw [hres] at h0 hfresh hisFrame hfoot hkeep
  dsimp only at h0 hfresh hisFrame hfoot hkeep
  set g₁ : Ghost := { g with F := Set.insert f g.F, D := Set.insert f g.D } with hg₁
  have hfD : f ∉ g.D := fun hd => hfresh (h.footing.dF hd)
  have htr : ∀ r ∈ c.roots, ∀ w, translate s₁.mem r w = translate c.state.mem r w := fun r hr w =>
    h.footing.tables.translate_congr (fun t ht => hkeep t (h.footing.tF ht)) hr w
  have hinv₁ : Inv P { c with state := { c.state with toMachine := s₁ } } g₁ p :=
    h.unchanged ⟨hfoot, Set.subset_insert _ _, rfl, fun d hd => hkeep d (h.footing.dF hd), htr⟩
  obtain ⟨hfail, hok⟩ := hinv₁.footing.mapPage hframe hr virt f flags
  refine ⟨{ c with state := { c.state with toMachine := vmmMapPage allocFrame s₁ pml4 virt f flags }
                   names := name pml4 virt :: c.names }, ?_⟩
  have hstep : step allocFrame allocPage c (.map pml4 virt flags)
      = some { c with state := { c.state with toMachine := vmmMapPage allocFrame s₁ pml4 virt f flags }
                      names := name pml4 virt :: c.names } := by
    simp only [step, hres, if_neg h0]
  by_cases hpt : (ptFor allocFrame s₁ pml4 virt).1 = 0
  · obtain ⟨g', h', -⟩ := hfail hpt
    refine ⟨g', hstep, ?_⟩
    simp only [privateStep, hres, hpt, or_true, if_true]
    exact (hinv₁.unchanged h').more_names _
  · obtain ⟨g', h', hD', hcnt', -⟩ := hok hpt
    rw [and_frameMask_of_isFrame hisFrame] at h'
    refine ⟨g', hstep, ?_⟩
    have hpage' : page (vmmMapPage allocFrame s₁ pml4 virt f flags).mem f = page s₁.mem f :=
      page_congr (h'.data_mem f (Set.mem_insert _ _))
    simp only [privateStep, hres, hpt, h0, or_self, if_false]
    rw [← hpage']
    have hzero : g.cnt f = 0 := h.unused f hfD
    obtain ⟨support, hiso⟩ := hinv₁.isolated
    have hnot : ∀ n b, mapping s₁.mem c.roots n ≠ some (f, b) := by
      intro n b hn
      rw [mapping_congr htr] at hn
      exact hfD (h.data n f b hn)
    refine hinv₁.own hr h' ?_ (hD' ▸ Set.mem_insert _ _) hD'.ge (List.subset_cons_self _ _)
      List.mem_cons_self ?_ ?_ ?_ ?_
    · unfold isWritable at hw ⊢
      rw [Nat.testBit_or, testBit_low (by norm_num), hw, Bool.true_or]
    · rw [hcnt']
      exact ⟨_, hiso.attach _ hnot⟩
    · rw [hcnt']
      exact hzero.le.trans (Nat.zero_le _)
    · intro n d b _ hn
      rw [hcnt']
      exact hinv₁.bounded n d b hn
    · intro d hd
      rw [hcnt']
      exact hinv₁.unused d (hD' ▸ hd)

/-- A mapping by its name. -/
theorem mapping_of_translate {r v f fl : ℕ} (hr : r ∈ c.roots)
    (ht : translate c.state.mem r v = some (f, fl)) :
    mapping c.state.mem c.roots (name r v) = some (f, !isWritable fl) := by
  rw [mapping_name hr, ht]
  rfl

/-- `cow_handle_fault` returns and changes no page. -/
theorem Inv.fault (h : Inv P c g p) (hpage : P.Allocator allocPage) {pml4 : ℕ} (virt : ℕ)
    (hr : pml4 ∈ c.roots) :
    ∃ c' g', step allocFrame allocPage c (.fault pml4 virt) = some c' ∧ Inv P c' g' p := by
  obtain ⟨support, hiso⟩ := h.isolated
  cases ht : translate c.state.mem pml4 virt with
  | none =>
      have heq : cowHandleFault allocPage c.state pml4 virt = some (-1, c.state) :=
        cowHandleFault_of_unmapped h.footing hr ht
      exact ⟨c, g, by simp only [step, heq, Option.map_some], h⟩
  | some e =>
  obtain ⟨f, fl⟩ := e
  have hmap := mapping_of_translate hr ht
  have hname := h.named (name pml4 virt) (by rw [hmap]; simp)
  have hf : f ∈ g.D := h.data _ f _ hmap
  have hspec := cowHandleFault_spec h.footing hpage hr ht
  generalize heq : cowHandleFault allocPage c.state pml4 virt = out at hspec
  cases hspec with
  | fails s' g' h' _ => exact ⟨_, g', by simp only [step, heq, Option.map_some], h.unchanged h'⟩
  | upgrades s' g' fl' _ h1 hflags h' hD' hcounted =>
    -- the last reference
    have hcnt' := hcounted.cnt_eq
    have hw := hflags.1
    have hpagef : page s'.mem f = page c.state.mem f := page_congr (h'.data_mem f hf)
    have hp : Function.update p (name pml4 virt) (some (page s'.mem f)) = p := by
      rw [hpagef, ← h.view_eq]
      exact Function.update_eq_self_iff.mpr (by simp only [view, hmap, Option.map_some])
    refine ⟨{ c with state := s' }, g', by simp only [step, heq, Option.map_some], ?_⟩
    rw [← hp]
    refine h.own hr h' hw (hD' ▸ hf) hD'.ge (List.Subset.refl _) hname ⟨support, ?_⟩ ?_ ?_ ?_
    · refine hiso.leave hmap (hiso.last hmap h1) ?_ ?_
      · rw [h1]
        exact Nat.zero_le _
      · exact fun d hd => by rw [hcnt', Function.update_of_ne hd]
    · rw [hcnt', Function.update_self]
      exact Nat.zero_le _
    · intro n d b _ hn
      rw [hcnt']
      by_cases hd : d = f
      · rw [hd, Function.update_self]
        exact Nat.zero_le _
      · rw [Function.update_of_ne hd]
        exact h.bounded n d b hn
    · intro d hd
      have hne : d ≠ f := fun e => hd (hD' ▸ e ▸ hf)
      rw [hcnt', Function.update_of_ne hne]
      exact h.unused d (hD' ▸ hd)
  | copies s' g' f' fl' _ h1 hflags h' hfresh' hD' hcounted hpage' =>
    -- a copy
    have hcnt' := hcounted.cnt_eq
    have hw := hflags.1
    have hfresh : f' ∉ g.D := fun hd => hfresh' (h.footing.dF hd)
    have hpage' := hpage' hf
    have hne : f' ≠ f := fun e => hfresh (e ▸ hf)
    have hp : Function.update p (name pml4 virt) (some (page s'.mem f')) = p := by
      rw [hpage', ← h.view_eq]
      exact Function.update_eq_self_iff.mpr (by simp only [view, hmap, Option.map_some])
    refine ⟨{ c with state := s' }, g', by simp only [step, heq, Option.map_some], ?_⟩
    rw [← hp]
    refine h.own hr h' hw (hD' ▸ Set.mem_insert _ _) (hD' ▸ Set.subset_insert _ _)
      (List.Subset.refl _) hname ⟨support, ?_⟩ ?_ ?_ ?_
    · refine hiso.leave hmap (fun n b _ hn => hfresh (h.data n f' b hn)) ?_ ?_
      · rw [hcnt', Function.update_self]
        exact Word.sub_one_le_sub (h.footing.refs.cnt_lt f)
      · exact fun d hd => by rw [hcnt', Function.update_of_ne hd]
    · rw [hcnt', Function.update_of_ne hne, h.unused f' hfresh]
      exact Nat.zero_le _
    · intro n d b hn' hn
      rw [hcnt']
      by_cases hd : d = f
      · -- with another mapping of `f` its count is not 0
        subst hd
        have hpos : 1 ≤ g.cnt d := by
          cases b with
          | true => exact hiso.one_le_count hn
          | false => exact absurd (hiso.sole n _ d _ hn hmap).symm hn'
        rw [Function.update_self, Word.sub_eq hpos (h.footing.refs.cnt_lt d)]
        exact (Nat.sub_le _ _).trans (h.bounded n d b hn)
      · rw [Function.update_of_ne hd]
        exact h.bounded n d b hn
    · intro d hd
      have hdD : d ∉ g.D := fun hin => hd (hD' ▸ Set.mem_insert_of_mem _ hin)
      have hdf : d ≠ f := fun e => hdD (e ▸ hf)
      rw [hcnt', Function.update_of_ne hdf]
      exact h.unused d hdD

/-- A byte is written through a writable mapping. -/
theorem Inv.write (h : Inv P c g p) {pml4 virt : ℕ} (b : UInt8) (hr : pml4 ∈ c.roots) {e : ℕ × ℕ}
    (ht : translate c.state.mem pml4 virt = some e) (hw : isWritable e.2 = true) :
    ∃ c' g', step allocFrame allocPage c (.write pml4 virt b) = some c' ∧
      Inv P c' g' (privateStep allocFrame allocPage c p (.write pml4 virt b)) := by
  obtain ⟨f, fl⟩ := e
  have hmap : mapping c.state.mem c.roots (name pml4 virt) = some (f, false) := by
    rw [mapping_of_translate hr ht, show isWritable fl = true from hw]
    rfl
  have hf : f ∈ g.D := h.data _ f _ hmap
  have hlt : virt % pageSize < pageSize := Nat.mod_lt _ (by decide)
  set w : Mem := Function.update c.state.mem (f + virt % pageSize) b with hwdef
  have hout : ∀ x, ¬ InPage f x → w x = c.state.mem x := by
    intro x hx
    apply Function.update_of_ne
    rintro rfl
    exact hx ⟨Nat.le_add_right _ _, Nat.add_lt_add_left hlt f⟩
  obtain ⟨hfoot, htables⟩ := h.footing.dataWrite hf hout
  have hmap' : mapping w c.roots = mapping c.state.mem c.roots :=
    mapping_congr fun r hr v => h.footing.tables.translate_congr htables hr v
  obtain ⟨support, hiso⟩ := h.isolated
  refine ⟨{ c with state := { c.state with mem := w } }, g, ?_, hfoot, ?_, ?_, ?_, ?_, h.unused, ?_⟩
  · simp only [step, frameAt, ht, Option.map_some, hwdef]
  · intro n d b hn
    exact h.data n d b (hmap' ▸ hn)
  · intro n hn
    exact h.named n (hmap' ▸ hn)
  · show ∃ support, Isolated (mapping w c.roots) g.cnt support
    rw [hmap']
    exact ⟨support, hiso⟩
  · intro n d b hn
    exact h.bounded n d b (hmap' ▸ hn)
  · show view (mapping w c.roots) (page w) = _
    have hother : ∀ d, d ∈ g.D → d ≠ f → page w d = page c.state.mem d := by
      intro d hd hne
      refine page_congr fun x hx => hout x fun hx' => hne ?_
      exact h.footing.eq_of_inPage (h.footing.dF hd) (h.footing.dF hf) hx hx'
    have hself : page w f = Function.update (page c.state.mem f) (virt % pageSize) b := by
      funext off
      by_cases hoff : off = virt % pageSize
      · rw [hoff, Function.update_self, page, if_pos hlt, hwdef, Function.update_self]
      · rw [Function.update_of_ne hoff, page, page, hwdef, Function.update_of_ne]
        omega
    have hp : p (name pml4 virt) = some (page c.state.mem f) := by
      rw [← h.view_eq]
      simp only [view, hmap, Option.map_some]
    simp only [privateStep, hp, Option.map_some]
    rw [hmap', ← hself, ← h.view_eq]
    exact hiso.view_write hmap fun n d b hn hne => hother d (h.data n d b hn) hne

/-- What the sharing of the frame `f` leaves in memory, for the mappings `ms` that are marked and `ts` that are new. -/
structure Shared (c : Run A) (f : ℕ) (ms ts : List (ℕ × ℕ)) (m : Mem) : Prop where
  marked : ∀ n ∈ ms, mapping m c.roots n = some (f, true)
  other : ∀ n, n ∉ ms → mapping m c.roots n = mapping c.state.mem c.roots n
  /-- Every mapping of the frame is marked, the new ones among them. -/
  target : ∀ n ∈ ts, n ∈ ms
  named : ∀ n b, mapping c.state.mem c.roots n = some (f, b) → n ∈ ms
  source : ∀ n ∈ ms, n ∉ ts → ∃ b, mapping c.state.mem c.roots n = some (f, b)

/-- `cow_mark_page` on every mapping of a frame that has been mapped at the targets. -/
theorem Inv.shared (h : Inv P c g p) (hframe : P.Allocator allocFrame) (hpage : P.Allocator allocPage)
    {src : ℕ × ℕ} {dsts : List (ℕ × ℕ × ℕ)} {marks : List (ℕ × ℕ)} {f : ℕ} (hfD : f ∈ g.D)
    (hcnt : g.cnt f ≤ c.marked f) (hv : c.Sharing allocFrame allocPage src dsts marks f) :
    ∃ s' g', Cow.markAll allocPage (Cow.mapAll allocFrame f c.state dsts) marks = some s' ∧
      Footing P s' { r | r ∈ c.roots } g' ∧ g.D ⊆ g'.D ∧ g'.cnt = Function.update g.cnt f (g.cnt f + marks.length) ∧
      (∀ d ∈ g.D, page s'.mem d = page c.state.mem d) ∧
      Shared c f (marks.map fun m => name m.1 m.2) (targets dsts) s'.mem := by
  have hbounded := hv.bounded
  obtain ⟨g₁, h₁, hD₁, hcnt₁, hdata₁, htr₁⟩ :=
    h.footing.mapAll hframe f hv.dst_root
  set s₁ := Cow.mapAll allocFrame f c.state dsts with hs₁
  obtain ⟨s', hs'⟩ := Option.isSome_iff_exists.mp hv.success
  obtain ⟨g', h', hD', hcnt', hdata', hsame', hmark'⟩ := h₁.markAll hpage (hD₁ hfD) hv.mark_root
    hv.mark_mapped (by rw [hcnt₁]; omega) hs'
  set ms := marks.map fun m => name m.1 m.2 with hms
  have hold : ∀ n, n ∉ targets dsts → mapping s₁.mem c.roots n = mapping c.state.mem c.roots n :=
    fun n hn => mapping_congr_at fun hr w hw => htr₁ n.1 hr w (hw ▸ hn)
  have hcovered : ∀ n b, n ∈ targets dsts ++ c.names → mapping s₁.mem c.roots n = some (f, b) →
      n ∈ ms := by
    intro n b hn hmap
    refine hv.covered n hn ?_
    unfold mapping at hmap
    split_ifs at hmap
    obtain ⟨e, he, heq⟩ := Option.map_eq_some_iff.mp hmap
    rw [he, Option.map_some]
    exact congrArg some (congrArg Prod.fst heq)
  have htarget : ∀ n ∈ targets dsts, n ∈ ms := by
    intro n hn
    obtain ⟨d, hd, rfl⟩ := List.mem_map.mp hn
    obtain ⟨e, he, hef⟩ := Option.map_eq_some_iff.mp (hv.dst_mapped d hd)
    refine hcovered _ (!isWritable e.2) (List.mem_append_left _ hn) ?_
    rw [mapping_name (hv.dst_root d hd), he, ← hef]
    rfl
  refine ⟨s', g', hs', h', ?_, ?_, fun d hd => page_congr fun x hx => (hdata' d (hD₁ hd) x hx).trans (hdata₁ d hd x hx),
    fun n hn => ?_, fun n hn => ?_, htarget, fun n b hmap => ?_, fun n hn htar => ?_⟩
  · rw [hD']
    exact hD₁
  · rw [hcnt', hcnt₁]
  · obtain ⟨m, hm, rfl⟩ := List.mem_map.mp hn
    obtain ⟨fl', ht', hw'⟩ := hmark' m.1 (hv.mark_root m hm) m.2 hn
    rw [mapping_name (hv.mark_root m hm), ht', Option.map_some, entryOf, hw']
    rfl
  · rw [← hold n fun hin => hn (htarget n hin)]
    exact mapping_congr_at fun hr w hw => hsame' n.1 hr w (hw ▸ hn)
  · by_cases hin : n ∈ targets dsts
    · exact htarget n hin
    · refine hcovered n b (List.mem_append_right _ (h.named n (by rw [hmap]; simp))) ?_
      rw [hold n hin, hmap]
  · obtain ⟨m, hm, rfl⟩ := List.mem_map.mp hn
    obtain ⟨e, he, hef⟩ := Option.map_eq_some_iff.mp (hv.mark_mapped m hm)
    refine ⟨!isWritable e.2, ?_⟩
    rw [← hold _ htar, mapping_name (hv.mark_root m hm), he, ← hef]
    rfl

/-- A frame is shared: every target has a copy of the page. -/
theorem Inv.share (h : Inv P c g p) (hframe : P.Allocator allocFrame) (hpage : P.Allocator allocPage)
    {src : ℕ × ℕ} {dsts : List (ℕ × ℕ × ℕ)} {marks : List (ℕ × ℕ)} {phys : ℕ}
    (hv : c.Sharing allocFrame allocPage src dsts marks phys) :
    ∃ c' g', step allocFrame allocPage c (.share src dsts marks) = some c' ∧
      Inv P c' g' (privateStep allocFrame allocPage c p (.share src dsts marks)) := by
  obtain ⟨⟨f, fl⟩, ht, hf⟩ := Option.map_eq_some_iff.mp hv.source
  obtain rfl : f = phys := hf
  have hsrc := mapping_of_translate hv.src_root ht
  have hfD : f ∈ g.D := h.data _ f _ hsrc
  have hcnt := h.bounded _ f _ hsrc
  obtain ⟨s', g', hs', h', hD, hcnt', hdata, hshared⟩ := h.shared hframe hpage hfD hcnt hv
  set ms := marks.map fun m => name m.1 m.2 with hms
  obtain ⟨support, hiso⟩ := h.isolated
  refine ⟨{ c with state := s', names := targets dsts ++ c.names,
                   marked := Function.update c.marked f (c.marked f + marks.length) }, g', ?_,
    h', ?_, ?_, ⟨ms.toFinset ∪ support, hiso.share hshared.marked hshared.other ?_ ?_ ?_⟩, ?_, ?_, ?_⟩
  · simp only [step, hv.source, hs']
  · intro n d b hn
    by_cases hin : n ∈ ms
    · rw [hshared.marked n hin] at hn
      obtain ⟨rfl, -⟩ := Prod.mk.inj (Option.some.inj hn)
      exact hD hfD
    · exact hD (h.data n d b (hshared.other n hin ▸ hn))
  · intro n hn
    by_cases hin : n ∈ targets dsts
    · exact List.mem_append_left _ hin
    · refine List.mem_append_right _ (h.named n ?_)
      by_cases hmem : n ∈ ms
      · obtain ⟨b, hb⟩ := hshared.source n hmem hin
        rw [hb]
        simp
      · rw [← hshared.other n hmem]
        exact hn
  · exact fun n b hn hmap => hn (hshared.named n b hmap)
  · rw [hcnt', Function.update_self, hms, List.length_map]
    exact Nat.le_add_left _ _
  · exact fun d hd => by rw [hcnt', Function.update_of_ne hd]
  · intro n d b hn
    show g'.cnt d ≤ Function.update c.marked f (c.marked f + marks.length) d
    rw [hcnt']
    by_cases hd : d = f
    · rw [hd, Function.update_self, Function.update_self]
      exact Nat.add_le_add_right hcnt _
    · rw [Function.update_of_ne hd, Function.update_of_ne hd]
      have hin : n ∉ ms := by
        intro hin
        rw [hshared.marked n hin] at hn
        exact hd (Prod.mk.inj (Option.some.inj hn)).1.symm
      exact h.bounded n d b (hshared.other n hin ▸ hn)
  · intro d hd
    have hdD : d ∉ g.D := fun hin => hd (hD hin)
    have hdf : d ≠ f := fun e => hdD (e ▸ hfD)
    rw [hcnt', Function.update_of_ne hdf]
    exact h.unused d hdD
  · have hpage_of : ∀ n b, mapping c.state.mem c.roots n = some (f, b) →
        p n = some (page c.state.mem f) := by
      intro n b hn
      rw [← h.view_eq]
      simp only [view, hn, Option.map_some]
    funext n
    simp only [privateStep]
    by_cases hin : n ∈ ms
    · have hview : view (mapping s'.mem c.roots) (page s'.mem) n = some (page c.state.mem f) := by
        simp only [view, hshared.marked n hin, Option.map_some, hdata f hfD]
      rw [hview]
      split_ifs with htar
      · rw [hpage_of _ _ hsrc]
      · -- a mapping that had the frame before
        obtain ⟨b, hb⟩ := hshared.source n hin htar
        rw [hpage_of n b hb]
    · rw [if_neg fun htar => hin (hshared.target n htar), ← h.view_eq]
      unfold view
      rw [hshared.other n hin]
      cases hmap : mapping c.state.mem c.roots n with
      | none => rfl
      | some e =>
          simp only [Option.map_some]
          rw [hdata e.1 (h.data n e.1 e.2 hmap)]

/-! ### Whole runs -/

/-- One valid step returns and is the step on private copies. -/
theorem Inv.step (h : Inv P c g p) (hframe : P.Allocator allocFrame) (hpage : P.Allocator allocPage)
    {op : Op} (hv : c.Valid allocFrame allocPage op) :
    ∃ c' g', Cow.step allocFrame allocPage c op = some c' ∧
      Inv P c' g' (privateStep allocFrame allocPage c p op) := by
  cases op with
  | create => exact h.create hframe
  | map pml4 virt flags => exact h.map hframe hpage hv.1 hv.2
  | share src dsts marks =>
      obtain ⟨phys, hv⟩ := hv
      exact h.share hframe hpage hv
  | fault pml4 virt => exact h.fault hpage virt hv
  | write pml4 virt b =>
      obtain ⟨hr, e, ht, hw⟩ := hv
      exact h.write b hr ht hw

/-- Every valid run returns and is a run on private copies. -/
theorem run_inv (h : Inv P c g p) (hframe : P.Allocator allocFrame) (hpage : P.Allocator allocPage)
    {ops : List Op} (hv : ValidRun allocFrame allocPage c ops) :
    ∃ c' g', exec allocFrame allocPage c ops = some c' ∧
      Inv P c' g' (privates allocFrame allocPage c p ops) := by
  induction ops generalizing c g p with
  | nil => exact ⟨c, g, rfl, h⟩
  | cons op ops ih =>
      obtain ⟨c₁, g₁, hstep, h₁⟩ := h.step hframe hpage hv.1
      obtain ⟨c', g', hexec, h'⟩ := ih h₁ (hv.2 c₁ hstep)
      refine ⟨c', g', ?_, ?_⟩
      · unfold exec
        rw [List.foldlM_cons, hstep]
        exact hexec
      · simp only [privates, hstep]
        exact h'

/-- The start of a run. -/
theorem inv_start {s : Machine A} {F : Set ℕ} (howns : P.Owns s F) :
    ∃ g, Inv P (start s) g fun _ => none := by
  have hmap : mapping s.mem [] = fun _ => none := by
    funext n
    unfold mapping
    rw [if_neg List.not_mem_nil]
  have hnone : ∀ n, mapping (start s).state.mem (start s).roots n = none := fun n => congrFun hmap n
  have hfoot : Footing P (cowInit s) {r | r ∈ ([] : List ℕ)}
      ⟨F, ∅, ∅, ∅, fun _ => [], fun _ => 0⟩ :=
    ⟨howns, (inv_nil howns).tables, refs_init s.mem, Set.empty_subset F, Set.empty_subset F,
      Set.empty_subset F, fun _ h => absurd h (Set.notMem_empty _),
      fun _ h => absurd h (Set.notMem_empty _), fun _ h => absurd h (Set.notMem_empty _)⟩
  refine ⟨_, hfoot, ?_, ?_, ⟨∅, ?_, ?_, ?_⟩, ?_, fun _ _ => rfl, ?_⟩
  · intro n f b hn
    rw [hnone n] at hn
    exact absurd hn (by simp)
  · exact fun n hn => absurd (hnone n) hn
  · exact fun n hn => absurd (hnone n) hn
  · intro n n' f b hn
    rw [hnone n] at hn
    exact absurd hn (by simp)
  · exact fun f => (Finset.card_le_card (Finset.filter_subset _ _)).trans (Nat.zero_le _)
  · intro n f b hn
    rw [hnone n] at hn
    exact absurd hn (by simp)
  · funext n
    simp only [view, hnone n, Option.map_none]

end inv

/-- In every valid run, a read through a mapping returns what it would return if each mapping had
received its own copy of the page at the moment of sharing. -/
theorem reads_eq_private {A : Type} (P : Ownership A)
    (allocFrame allocPage : Machine A → ℕ × Machine A) (hframe : P.Allocator allocFrame)
    (hpage : P.Allocator allocPage) (s : Machine A) (F : Set ℕ) (howns : P.Owns s F) (ops : List Op)
    (hv : ValidRun allocFrame allocPage (start s) ops) :
    ∃ c, exec allocFrame allocPage (start s) ops = some c ∧
      ∀ pml4 ∈ c.roots, ∀ virt, read c pml4 virt
        = (privates allocFrame allocPage (start s) (fun _ => none) ops (name pml4 virt)).map
            fun q => q (virt % pageSize) := by
  obtain ⟨g, h⟩ := inv_start howns
  obtain ⟨c, g', hexec, h'⟩ := run_inv h hframe hpage hv
  exact ⟨c, hexec, fun pml4 hr virt => h'.read_eq hr virt⟩

/-! ### A run on a stack of free pages -/

/-- A fault that is handled leaves the mapping writable. -/
theorem Inv.writable_of_fault {A : Type} {P : Ownership A} {allocPage : Machine A → ℕ × Machine A} {c : Run A}
    {g : Ghost} {p : Private} {s' : State A} {r v : ℕ} {e : ℕ × ℕ} (h : Inv P c g p)
    (hpage : P.Allocator allocPage) (hr : r ∈ c.roots) (ht : translate c.state.mem r v = some e)
    (hcall : cowHandleFault allocPage c.state r v = some (0, s')) :
    ∃ e', translate s'.mem r v = some e' ∧ isWritable e'.2 = true := by
  have hout := cowHandleFault_spec h.footing hpage (show r ∈ {r | r ∈ c.roots} from hr)
    (show translate c.state.mem r v = some (e.1, e.2) from ht)
  rw [hcall] at hout
  cases hout with
  | upgrades _ _ fl' _ _ flags remapped _ _ =>
      exact ⟨_, (remapped.translate_eq r hr v).trans (if_pos ⟨rfl, rfl⟩), flags.1⟩
  | copies _ _ f' fl' _ _ flags remapped _ _ _ _ =>
      exact ⟨_, (remapped.translate_eq r hr v).trans (if_pos ⟨rfl, rfl⟩), flags.1⟩

/-- A valid step in front of a valid run. -/
theorem validRun_cons {A : Type} {f p : Machine A → ℕ × Machine A} {c c' : Run A} {op : Op} {ops : List Op}
    (hv : c.Valid f p op) (h : step f p c op = some c') (hrest : ValidRun f p c' ops) :
    ValidRun f p c (op :: ops) :=
  ⟨hv, fun _ h₁ => Option.some.inj (h ▸ h₁) ▸ hrest⟩

/-- A run goes on after its first step. -/
theorem exec_cons {A : Type} {f p : Machine A → ℕ × Machine A} {c c' : Run A} {op : Op} {ops : List Op}
    (h : step f p c op = some c') : exec f p c (op :: ops) = exec f p c' ops := by
  unfold exec
  rw [List.foldlM_cons, h]
  rfl

/-- `vmm_map_page` once its table is there. -/
theorem vmmMapPage_of_ptFor {A : Type} {f : Machine A → ℕ × Machine A} {s s' : Machine A} {r v phys flags pt : ℕ}
    (h : ptFor f s r v = (pt, s')) (hpt : pt ≠ 0) : vmmMapPage f s r v phys flags =
      writeEntry s' pt (ptIndex v) ((phys &&& frameMask) ||| (flags &&& 0xFFF) ||| flagPresent) := by
  unfold vmmMapPage
  rw [h]
  exact if_neg hpt

/-- A new table on the stack of free pages, in a page of zeros. -/
theorem getOrAlloc_popFree {m : Mem} {l : List ℕ} {a t i x e : ℕ} (hzero : ∀ y, InPage a y → m y = 0)
    (hslot : slot t i = x) (he : a ||| flagPresent ||| flagWritable = e)
    (hframe : e % 256 ^ 8 &&& frameMask = a) (h0 : a ≠ 0) (hnone : readEntry m t i &&& flagPresent = 0) :
    getOrAlloc popFree ⟨m, a :: l⟩ t i = (a, ⟨store 8 m x e, l⟩) := by
  have hclear : fill (8 * ptEntries) m a 0 = m := fill_of_eq fun y h1 h2 => hzero y ⟨h1, h2⟩
  have hread : readEntry (store 8 m x e) t i &&& frameMask = a := by
    unfold readEntry
    rw [hslot, load_store_same]
    exact hframe
  unfold getOrAlloc
  simp only [hnone, if_true, popFree, if_neg h0, clearTable, hclear, writeEntry, he, hslot, hread]

/-- Eight pages of zeros. -/
def sampleMachine : Machine (List ℕ) :=
  ⟨fun _ => 0, [0x1000, 0x2000, 0x3000, 0x4000, 0x5000, 0x6000, 0x7000, 0x8000]⟩

/-- An address space without mappings. -/
def createdRun : Run (List ℕ) :=
  ⟨⟨⟨fun _ => 0, [0x2000, 0x3000, 0x4000, 0x5000, 0x6000, 0x7000, 0x8000]⟩, fun _ => 0⟩, [0x1000], [], fun _ => 0⟩

/-- The first call of the run. -/
theorem step_create : step popFree popFree (start sampleMachine) .create = some createdRun := by
  have hclear : fill (8 * ptEntries) (fun _ => 0) 0x1000 0 = fun _ => 0 := fill_of_eq fun _ _ _ => rfl
  simp [step, vmmCreateAddressSpace, start, cowInit, popFree, clearTable, hclear, sampleMachine, createdRun]

/-- The page at `0x2000` is mapped at `0x400000`, through three new tables. -/
def mappedRun : Run (List ℕ) :=
  { state := { mem := store 8 (store 8 (store 8 (store 8 (fun _ => 0) 0x1000 0x3003) 0x3000 0x4003) 0x4010 0x5003)
                  0x5000 0x2007
               pages := [0x6000, 0x7000, 0x8000], hashTable := fun _ => 0 }
    roots := [0x1000], names := [name 0x1000 0x400000], marked := fun _ => 0 }

/-- The page holds a 9. -/
def writtenRun : Run (List ℕ) :=
  { mappedRun with state := { mappedRun.state with mem := Function.update mappedRun.state.mem 0x2003 9 } }

/-- What is 0 beside a stored word is 0 after the store. -/
theorem store_eq_zero {m : Mem} {a x v : ℕ} (hx : a + 8 ≤ x) (h0 : m x = 0) : store 8 m a v x = 0 :=
  (store_apply_of_lt_or_le (Or.inr hx)).trans h0

/-- Each of the three levels gets a table. -/
theorem ptFor_popFree :
    ptFor popFree ⟨fun _ => 0, [0x3000, 0x4000, 0x5000, 0x6000, 0x7000, 0x8000]⟩ 0x1000 0x400000 =
      (0x5000, ⟨store 8 (store 8 (store 8 (fun _ => 0) 0x1000 0x3003) 0x3000 0x4003) 0x4010 0x5003,
        [0x6000, 0x7000, 0x8000]⟩) := by
  have hpdpt := getOrAlloc_popFree (m := fun _ => 0) (l := [0x4000, 0x5000, 0x6000, 0x7000, 0x8000]) (a := 0x3000)
    (t := 0x1000) (i := pml4Index 0x400000) (x := 0x1000) (e := 0x3003) (fun _ _ => rfl) (by decide) (by decide)
    (by decide) (by decide) (by decide +kernel)
  have hpd := getOrAlloc_popFree (m := store 8 (fun _ => 0) 0x1000 0x3003) (l := [0x5000, 0x6000, 0x7000, 0x8000])
    (a := 0x4000) (t := 0x3000) (i := pdptIndex 0x400000) (x := 0x3000) (e := 0x4003)
    (fun _ hy => store_eq_zero (le_trans (by decide) hy.1) rfl) (by decide) (by decide) (by decide) (by decide)
    (by decide +kernel)
  have hpt := getOrAlloc_popFree (m := store 8 (store 8 (fun _ => 0) 0x1000 0x3003) 0x3000 0x4003)
    (l := [0x6000, 0x7000, 0x8000]) (a := 0x5000) (t := 0x4000) (i := pdIndex 0x400000) (x := 0x4010)
    (e := 0x5003)
    (fun _ hy => store_eq_zero (le_trans (by decide) hy.1) (store_eq_zero (le_trans (by decide) hy.1) rfl))
    (by decide) (by decide) (by decide) (by decide) (by decide +kernel)
  unfold ptFor
  rw [hpdpt]
  dsimp only
  rw [if_neg (by decide), hpd]
  dsimp only
  rw [if_neg (by decide), hpt]

/-- The second call of the run. -/
theorem step_map : step popFree popFree createdRun (.map 0x1000 0x400000 7) = some mappedRun := by
  have hslot : slot 0x5000 (ptIndex 0x400000) = 0x5000 := by decide
  have hentry : (0x2000 &&& frameMask) ||| (7 &&& 0xFFF) ||| flagPresent = 0x2007 := by decide
  have hmap : vmmMapPage popFree ⟨fun _ => 0, [0x3000, 0x4000, 0x5000, 0x6000, 0x7000, 0x8000]⟩ 0x1000 0x400000 0x2000 7
      = mappedRun.state.toMachine := by
    rw [vmmMapPage_of_ptFor ptFor_popFree (by decide), writeEntry, hslot, hentry]
    rfl
  have hpop : popFree createdRun.state.toMachine =
      (0x2000, ⟨fun _ => 0, [0x3000, 0x4000, 0x5000, 0x6000, 0x7000, 0x8000]⟩) := rfl
  unfold step
  dsimp only
  rw [hpop]
  dsimp only
  rw [if_neg (by decide), hmap]
  rfl

/-- The third call of the run. -/
theorem step_write : step popFree popFree mappedRun (.write 0x1000 0x400003 9) = some writtenRun := by
  have hframe : frameAt mappedRun.state.mem 0x1000 0x400003 = some 0x2000 := by decide +kernel
  simp only [step, hframe, Option.map_some]
  rfl

/-- The page gets its second mapping, and `cow_mark_page` is called on both. -/
def shareOp : Op := .share (0x1000, 0x400000) [(0x1000, 0x401000, 7)] [(0x1000, 0x400000), (0x1000, 0x401000)]

/-- A page is written, shared with a second mapping, copied at a fault on the first one, and written there again. -/
def sharedOps : List Op :=
  [.create, .map 0x1000 0x400000 7, .write 0x1000 0x400003 9,
    shareOp, .fault 0x1000 0x400000, .write 0x1000 0x400003 5]

/-- The state in which the page is shared, with what the last two steps need. -/
theorem step_shared : ∃ c, step popFree popFree writtenRun shareOp = some c ∧ c.roots = [0x1000] ∧
    (translate c.state.mem 0x1000 0x400000).isSome = true ∧
    (cowHandleFault popFree c.state 0x1000 0x400000).map Prod.fst = some 0 := by
  obtain ⟨c, hc, hroots⟩ := Option.map_eq_some_iff.mp
    (show (step popFree popFree writtenRun shareOp).map Run.roots = some [0x1000] by decide +kernel)
  have hmapped : (step popFree popFree writtenRun shareOp).map
      (fun c => (translate c.state.mem 0x1000 0x400000).isSome) = some true := by decide +kernel
  have hreturns : (step popFree popFree writtenRun shareOp).map
      (fun c => (cowHandleFault popFree c.state 0x1000 0x400000).map Prod.fst) = some (some 0) := by decide +kernel
  rw [hc] at hmapped hreturns
  exact ⟨c, hc, hroots, Option.some.inj hmapped, Option.some.inj hreturns⟩

/-- When a `share` returns, its calls of `cow_mark_page` have succeeded. -/
theorem markAll_isSome_of_share {A : Type} {f p : Machine A → ℕ × Machine A} {c c' : Run A} {src : ℕ × ℕ}
    {dsts : List (ℕ × ℕ × ℕ)} {marks : List (ℕ × ℕ)} {phys : ℕ} (hsource : frameAt c.state.mem src.1 src.2 = some phys)
    (h : step f p c (.share src dsts marks) = some c') : (markAll p (mapAll f phys c.state dsts) marks).isSome := by
  simp only [step, hsource] at h
  cases hmarks : markAll p (mapAll f phys c.state dsts) marks with
  | none => simp [hmarks] at h
  | some s => rfl

/-- The page of the sample run may be shared with a second mapping. -/
theorem sharing_written : writtenRun.Sharing popFree popFree (0x1000, 0x400000) [(0x1000, 0x401000, 7)]
    [(0x1000, 0x400000), (0x1000, 0x401000)] 0x2000 where
  src_root := by decide
  source := by decide +kernel
  dst_root := by decide
  dst_mapped := by decide +kernel
  mark_root := by decide
  mark_mapped := by decide +kernel
  covered := by decide +kernel
  success := markAll_isSome_of_share (by decide +kernel) step_shared.choose_spec.1
  bounded := by decide

/-- Two mappings of one page: it is written, shared, copied at a fault on the first mapping, and written there again. -/
theorem reads_eq_private_shared : ∃ c,
    exec popFree popFree (start sampleMachine) sharedOps = some c ∧
    ∀ pml4 ∈ c.roots, ∀ virt, read c pml4 virt
        = (privates popFree popFree (start sampleMachine) (fun _ => none) sharedOps (name pml4 virt)).map
            fun q => q (virt % pageSize) := by
  have howns : stack.Owns sampleMachine ∅ :=
    ⟨fun f hf => absurd hf (Set.notMem_empty f), by decide, fun f hf =>
      ⟨⟨by revert f; decide, by revert f; decide, by revert f; decide⟩, Set.notMem_empty f⟩⟩
  refine reads_eq_private stack popFree popFree popFree_allocator popFree_allocator sampleMachine ∅ howns sharedOps ?_
  obtain ⟨c₁, hshare, hroots, hmapped, hreturns⟩ := step_shared
  obtain ⟨e, he⟩ := Option.isSome_iff_exists.mp hmapped
  obtain ⟨⟨r, s₂⟩, hfault, rfl⟩ := Option.map_eq_some_iff.mp hreturns
  have hr : 0x1000 ∈ c₁.roots := hroots ▸ List.mem_singleton_self 0x1000
  have hwritable : ∃ e, translate mappedRun.state.mem 0x1000 0x400003 = some e ∧ isWritable e.2 = true :=
    ⟨(0x2000, 7), by decide +kernel, by decide⟩
  -- before the fault every step is known
  have hbefore : ∀ ops, ValidRun popFree popFree c₁ ops → ValidRun popFree popFree (start sampleMachine)
      (.create :: .map 0x1000 0x400000 7 :: .write 0x1000 0x400003 9 ::
        shareOp :: ops) :=
    fun ops hops => validRun_cons trivial step_create <|
    validRun_cons ⟨List.mem_singleton_self 0x1000, by decide⟩ step_map <|
    validRun_cons ⟨List.mem_singleton_self 0x1000, hwritable⟩ step_write <|
    validRun_cons ⟨0x2000, sharing_written⟩ hshare hops
  refine hbefore _ ⟨hr, fun c₂ h₂ => ⟨?_, fun _ _ => trivial⟩⟩
  -- the fault makes the mapping writable
  obtain ⟨g, hstart⟩ := inv_start howns
  obtain ⟨c, g₁, hexec, hinv⟩ := run_inv hstart popFree_allocator popFree_allocator (hbefore [] trivial)
  rw [exec_cons step_create, exec_cons step_map, exec_cons step_write, exec_cons hshare] at hexec
  obtain rfl : c₁ = c := Option.some.inj hexec
  obtain ⟨e', ht, hw⟩ := hinv.writable_of_fault popFree_allocator hr he hfault
  have hc₂ : c₂ = { c₁ with state := s₂ } := by
    have h : step popFree popFree c₁ (.fault 0x1000 0x400000) = some { c₁ with state := s₂ } := by
      simp only [step, hfault, Option.map_some]
    exact Option.some.inj (h₂.symm.trans h)
  rw [hc₂]
  exact ⟨hr, e', ht, hw⟩

end PrometheusKernel.Cow
