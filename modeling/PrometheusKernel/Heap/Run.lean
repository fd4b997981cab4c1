import PrometheusKernel.Heap.Calls
import PrometheusKernel.Heap.Objects
import PrometheusKernel.Lib.Interleaving

/-!
# Runs of the heap

A run is any list of calls; the clients pass pointers that they hold, and write only into their ranges.
The slab functions follow a discipline `P : Objects A`; a heap without slab caches is the case
`Objects.none`.

The invariant (`Inv`) is that the blocks tile the heap, that the used blocks are exactly those of the live
allocations that did not come from a slab cache, and that every other live allocation lies in a slab object
that the heap holds. It needs that a slab object has room for the header of an allocation (`Fits`), which
`kmalloc` does not check.
-/

namespace PrometheusKernel.Heap

open ByteMem LinkedList Tiling Interleaving

/-! ### Runs -/

/-- The kernel and its clients. -/
structure Run (A : Type) where
  state : State A
  /-- The allocations that clients hold: pointer and size. -/
  live : List (ℕ × ℕ)

/-- A call, or a byte written by a client. -/
inductive Op
  | enableSlab
  | malloc (size : ℕ)
  | calloc (num size : ℕ)
  | realloc (ptr size : ℕ)
  | free (ptr : ℕ)
  | write (addr : ℕ) (byte : UInt8)

/-- The allocations other than the one at `p`. -/
def drop (p : ℕ) (live : List (ℕ × ℕ)) : List (ℕ × ℕ) := live.filter fun q => q.1 ≠ p

/-- The allocations after `kmalloc` returned `r`. -/
def afterMalloc (size r : ℕ) (live : List (ℕ × ℕ)) : List (ℕ × ℕ) :=
  if r = 0 then live else (r, size) :: live

/-- The allocations after `krealloc` returned `r`. -/
def afterRealloc (p size r : ℕ) (live : List (ℕ × ℕ)) : List (ℕ × ℕ) :=
  if r ≠ 0 then (r, size) :: drop p live else if size = 0 then drop p live else live

section run

variable {A : Type}

/-- What the clients may do. Byte counts are at most `2 ^ 64 - 28`. -/
def Valid (c : Run A) : Op → Prop
  | .enableSlab => True
  | .malloc size => size + 28 ≤ 2 ^ 64
  | .calloc num size => Word.mul 64 num size + 28 ≤ 2 ^ 64
  | .realloc ptr size => size + 28 ≤ 2 ^ 64 ∧ (ptr = 0 ∨ ptr ∈ c.live.map Prod.fst)
  | .free ptr => ptr = 0 ∨ ptr ∈ c.live.map Prod.fst
  | .write addr _ => ∃ q ∈ c.live, q.1 ≤ addr ∧ addr < q.1 + q.2

instance (c : Run A) (op : Op) : Decidable (Valid c op) := by
  cases op <;> unfold Valid <;> infer_instance

/-- If `kmalloc` goes to a slab cache for `size` bytes, its objects have room for the header as well. -/
def Roomy (s : State A) (size : ℕ) : Prop :=
  cacheFor s size ≠ 0 → ∀ i, sizeClass size = some i → allocHeaderSize + size ≤ classSize i

/-- The requests of the operation are roomy. -/
def Fits (c : Run A) : Op → Prop
  | .malloc size => Roomy c.state size
  | .calloc num size => Roomy c.state (num * size)
  | .realloc ptr size =>
      ptr ≠ 0 ∧ size ≤ headerSize c.state.mem (ptr - allocHeaderSize) ∨ Roomy c.state size
  | _ => True

variable (slabAlloc : ℕ → Machine A → ℕ × Machine A) (slabFree : ℕ → ℕ → Machine A → Machine A)

/-- One operation; `none` is a call that does not return. -/
def step (c : Run A) : Op → Option (Run A)
  | .enableSlab => some { c with state := heapEnableSlab c.state }
  | .malloc size => (kmalloc slabAlloc c.state size).map fun res =>
      ⟨res.2, afterMalloc size res.1 c.live⟩
  | .calloc num size => (kcalloc slabAlloc c.state num size).map fun res =>
      ⟨res.2, afterMalloc (num * size) res.1 c.live⟩
  | .realloc ptr size => (krealloc slabAlloc slabFree c.state ptr size).map fun res =>
      ⟨res.2, afterRealloc ptr size res.1 c.live⟩
  | .free ptr => some ⟨kfree slabFree c.state ptr, drop ptr c.live⟩
  | .write addr byte =>
      some { c with state := { c.state with mem := Function.update c.state.mem addr byte } }

/-- `heap_init`, before or after `heap_enable_slab`. -/
def boot (slabCacheCreate : ℕ → ℕ → Machine A → ℕ × Machine A) (s : Machine A) (slabInitialized : Bool)
    (start size : ℕ) : Run A :=
  ⟨heapInit slabCacheCreate (unset s slabInitialized) start size, []⟩

/-! ### The invariant -/

/-- A used block is the allocation `q`. -/
def HeldBlock (m : Mem) (bs : List Block) (q : ℕ × ℕ) : Prop :=
  ∃ b ∈ bs, b.free = false ∧ q.1 = b.addr + 44 ∧ Allocated m b q.2

/-- The object at `a` of the cache with index `i` holds an allocation of `n` bytes. -/
structure SlabAllocated (m : Mem) (a i n : ℕ) : Prop where
  magic : headerMagic m a = allocMagic
  flags : headerFlags m a = allocFromSlab
  index : headerCacheIndex m a = i
  room : 12 + headerSize m a ≤ classSize i
  le : 12 + n ≤ classSize i

/-- A held slab object is the allocation `q`. -/
def HeldObject (s : State A) (O : Set (ℕ × ℕ)) (q : ℕ × ℕ) : Prop :=
  ∃ a i, i < 8 ∧ s.caches i ≠ 0 ∧ (s.caches i, a) ∈ O ∧ q.1 = a + 12 ∧ SlabAllocated s.mem a i q.2

/-- The blocks `bs` tile the heap, and every live allocation is a block or a slab object. -/
structure Inv (P : Objects A) (start e : ℕ) (c : Run A) (bs : List Block) (K : ℕ → Option ℕ)
    (O : Set (ℕ × ℕ)) : Prop where
  region : ∀ x, start ≤ x → x < e → x ∈ P.outside
  owns : P.Owns c.state.toMachine K O
  caches : ∀ i, c.state.caches i ≠ 0 → K (c.state.caches i) = some (classSize i)
  layout : Layout start e c.state.mem c.state.heapHead bs
  held : ∀ q ∈ c.live, HeldBlock c.state.mem bs q ∨ HeldObject c.state O q
  used : ∀ b ∈ bs, b.free = false → 12 ≤ b.size ∧ b.addr + 44 ∈ c.live.map Prod.fst
  nodup : (c.live.map Prod.fst).Nodup

variable {slabAlloc slabFree} {P : Objects A} {start e : ℕ} {c : Run A} {bs : List Block}
  {K : ℕ → Option ℕ} {O : Set (ℕ × ℕ)} {s : State A} {live : List (ℕ × ℕ)} {size p : ℕ}

/-- What is held after a release. -/
theorem mem_drop {q : ℕ × ℕ} : q ∈ drop p live ↔ q ∈ live ∧ q.1 ≠ p := by
  unfold drop
  rw [List.mem_filter, decide_eq_true_eq]

/-- A release of what is not held drops nothing. -/
theorem drop_of_not_mem (h : p ∉ live.map Prod.fst) : drop p live = live := by
  refine List.filter_eq_self.mpr fun q hq => ?_
  rw [decide_eq_true_eq]
  rintro rfl
  exact h (List.mem_map_of_mem hq)

/-- A release keeps the pointers different. -/
theorem nodup_drop (h : (live.map Prod.fst).Nodup) : ((drop p live).map Prod.fst).Nodup :=
  h.sublist (List.filter_sublist.map Prod.fst)

/-- The header of a slab allocation only depends on its 12 bytes. -/
theorem SlabAllocated.congr {m m' : Mem} {a i n : ℕ} (h : SlabAllocated m a i n)
    (hm : ∀ x, a ≤ x → x < a + 12 → m' x = m x) : SlabAllocated m' a i n := by
  obtain ⟨h1, h2, h3, h4⟩ := header_fields_congr (a := a) (m := m) hm
  exact ⟨h1 ▸ h.magic, h2 ▸ h.flags, h4 ▸ h.index, h3 ▸ h.room, h.le⟩

/-- The range of a held object, which is the slab allocator's. -/
theorem Inv.object (h : Inv P start e ⟨s, live⟩ bs K O) {i a : ℕ} (hi : s.caches i ≠ 0)
    (ho : (s.caches i, a) ∈ O) {x : ℕ} (h1 : a ≤ x) (h2 : x < a + classSize i) :
    x ∉ P.outside ∧ InObject K O x := by
  have hK := h.caches i hi
  obtain ⟨-, z, hz, hx⟩ := P.object h.owns _ ho
  obtain rfl : classSize i = z := Option.some.inj (hK.symm.trans hz)
  exact ⟨hx x h1 h2, _, ho, _, hz, h1, h2⟩

/-- Every allocation has its header in front of it. -/
theorem Inv.ptr_ge (h : Inv P start e ⟨s, live⟩ bs K O) {q : ℕ × ℕ} (hq : q ∈ live) : 12 ≤ q.1 := by
  rcases h.held q hq with ⟨b, -, -, hb, -⟩ | ⟨a, i, -, -, -, ha, -⟩
  · omega
  · omega

/-- Null is not held. -/
theorem Inv.ne_zero (h : Inv P start e ⟨s, live⟩ bs K O) (hp : p ∈ live.map Prod.fst) : p ≠ 0 := by
  obtain ⟨q, hq, rfl⟩ := List.mem_map.mp hp
  have := h.ptr_ge hq
  omega

/-- A block and a slab object do not overlap. -/
theorem Inv.block_object (h : Inv P start e ⟨s, live⟩ bs K O) {b : Block} (hb : b ∈ bs) {i a : ℕ}
    (hi : s.caches i ≠ 0) (ho : (s.caches i, a) ∈ O) (hbs : 12 ≤ b.size) (hz : 12 ≤ classSize i) :
    b.addr + 32 + b.size ≤ a ∨ a + classSize i ≤ b.addr + 32 := by
  have hend := h.layout.tiles.mem_le hb
  unfold blockHeaderSize at hend
  by_contra hcon
  have hin := (h.object hi ho (x := max (b.addr + 32) a) (by omega) (by omega)).1
  exact hin (h.region _ (by omega) (by omega))

/-- Different allocations, with their headers, do not overlap. -/
theorem Inv.apart (h : Inv P start e ⟨s, live⟩ bs K O) {q r : ℕ × ℕ} (hq : q ∈ live) (hr : r ∈ live)
    (hne : q.1 ≠ r.1) : q.1 + q.2 + 12 ≤ r.1 ∨ r.1 + r.2 + 12 ≤ q.1 := by
  rcases h.held q hq with ⟨b, hb, -, hqb, hbal⟩ | ⟨a, i, -, hi, ho, hqa, hoal⟩
  · have hble := hbal.le
    rcases h.held r hr with ⟨d, hd, -, hrd, hdal⟩ | ⟨a', i', -, hi', ho', hra, hoal'⟩
    · have := h.layout.tiles.apart hb hd fun heq => hne (by rw [hqb, hrd, heq])
      have := hdal.le
      unfold blockHeaderSize at *
      omega
    · have := hoal'.le
      have := h.block_object hb hi' ho' (by omega) (by omega)
      omega
  · have hole := hoal.le
    rcases h.held r hr with ⟨d, hd, -, hrd, hdal⟩ | ⟨a', i', -, hi', ho', hra, hoal'⟩
    · have := hdal.le
      have := h.block_object hd hi ho (by omega) (by omega)
      omega
    · have := hoal'.le
      have hoo : ((s.caches i, a) : ℕ × ℕ) ≠ (s.caches i', a') := by
        intro heq
        rw [Prod.mk.injEq] at heq
        exact hne (by rw [hqa, hra, heq.2])
      have hdis := P.disjoint h.owns _ ho _ ho' hoo _ _ (h.caches i hi) (h.caches i' hi')
      dsimp only at hdis
      omega

/-- Memory may change where it is neither a header nor the slab allocator's. -/
theorem Inv.of_mem (h : Inv P start e ⟨s, live⟩ bs K O) {m' : Mem}
    (hheader : ∀ x, InHeader bs x → m' x = s.mem x)
    (hlive : ∀ q ∈ live, ∀ x, q.1 ≤ x + 12 → x < q.1 → m' x = s.mem x)
    (hslab : ∀ x, x ∉ P.outside → ¬ InObject K O x → m' x = s.mem x) :
    Inv P start e ⟨{ s with mem := m' }, live⟩ bs K O := by
  refine ⟨h.region, P.write h.owns m' hslab, h.caches,
    ⟨h.layout.tiles, h.layout.rep.congr hheader, h.layout.coalesced⟩, ?_, h.used, h.nodup⟩
  intro q hq
  rcases h.held q hq with ⟨b, hb, hbf, hqb, hbal⟩ | ⟨a, i, hi, hi0, ho, hqa, hoal⟩
  · exact Or.inl ⟨b, hb, hbf, hqb, hbal.congr fun x h1 h2 => hlive q hq x (by omega) (by omega)⟩
  · exact Or.inr ⟨a, i, hi, hi0, ho, hqa, hoal.congr fun x h1 h2 => hlive q hq x (by omega) (by omega)⟩

/-- Writes into the data of one allocation keep the invariant. -/
theorem Inv.write (h : Inv P start e ⟨s, live⟩ bs K O) {q : ℕ × ℕ} (hq : q ∈ live) {m' : Mem}
    (hm : ∀ x, x < q.1 ∨ q.1 + q.2 ≤ x → m' x = s.mem x) :
    Inv P start e ⟨{ s with mem := m' }, live⟩ bs K O := by
  have hlive : ∀ r ∈ live, ∀ x, r.1 ≤ x + 12 → x < r.1 → m' x = s.mem x := by
    intro r hr x h1 h2
    apply hm
    by_cases hqr : q.1 = r.1
    · omega
    · have := h.apart hq hr hqr
      omega
  rcases h.held q hq with ⟨b, hb, -, hqb, hbal⟩ | ⟨a, i, -, hi, ho, hqa, hoal⟩
  · have hend := h.layout.tiles.mem_le hb
    have hble := hbal.le
    unfold blockHeaderSize at hend
    refine h.of_mem (fun x hx => hm x ?_) hlive fun x hx _ => hm x ?_
    · by_contra hcon
      exact not_inHeader h.layout.tiles hb (x := x) (by omega) (by omega) hx
    · by_contra hcon
      exact hx (h.region x (by omega) (by omega))
  · have hole := hoal.le
    refine h.of_mem (fun x hx => hm x ?_) hlive fun x _ hx => hm x ?_
    · by_contra hcon
      have hin := (h.object hi ho (x := x) (by omega) (by omega)).1
      have hx' : ¬ (x < start ∨ e ≤ x) := fun hout => not_inHeader_of_outside h.layout.tiles hout hx
      exact hin (h.region x (by omega) (by omega))
    · by_contra hcon
      exact hx (h.object hi ho (x := x) (by omega) (by omega)).2

/-! ### The slab part of `kmalloc` -/

/-- Headers of allocations and blocks are bytes of the clients. -/
theorem Inv.header_client (h : Inv P start e ⟨s, live⟩ bs K O) {q : ℕ × ℕ} (hq : q ∈ live) {x : ℕ}
    (h1 : q.1 ≤ x + 12) (h2 : x < q.1) : x ∈ P.outside ∨ InObject K O x := by
  rcases h.held q hq with ⟨b, hb, -, hqb, hbal⟩ | ⟨a, i, -, hi, ho, hqa, hoal⟩
  · have hend := h.layout.tiles.mem_le hb
    have hble := hbal.le
    unfold blockHeaderSize at hend
    exact Or.inl (h.region x (by omega) (by omega))
  · have hole := hoal.le
    exact Or.inr (h.object hi ho (by omega) (by omega)).2

/-- The headers of the blocks are memory that no slab holds. -/
theorem Inv.block_client (h : Inv P start e ⟨s, live⟩ bs K O) {x : ℕ} (hx : InHeader bs x) :
    x ∈ P.outside := by
  have hx' : ¬ (x < start ∨ e ≤ x) := fun hout => not_inHeader_of_outside h.layout.tiles hout hx
  exact h.region x (by omega) (by omega)

/-- A slab call that keeps the bytes of the clients and may have handed out objects. -/
theorem Inv.same (h : Inv P start e ⟨s, live⟩ bs K O) {s' : Machine A} (hsame : P.Same K O s.mem s'.mem)
    {O' : Set (ℕ × ℕ)} (hsub : O ⊆ O') (howns : P.Owns s' K O') :
    Inv P start e ⟨{ s with toMachine := s' }, live⟩ bs K O' := by
  refine ⟨h.region, howns, h.caches, ⟨h.layout.tiles, h.layout.rep.congr fun x hx =>
    hsame x (Or.inl (h.block_client hx)), h.layout.coalesced⟩, ?_, h.used, h.nodup⟩
  intro q hq
  rcases h.held q hq with ⟨b, hb, hbf, hqb, hbal⟩ | ⟨a, i, hi, hi0, ho, hqa, hoal⟩
  · exact Or.inl ⟨b, hb, hbf, hqb, hbal.congr fun x h1 h2 =>
      hsame x (h.header_client hq (by omega) (by omega))⟩
  · exact Or.inr ⟨a, i, hi, hi0, hsub ho, hqa, hoal.congr fun x h1 h2 =>
      hsame x (h.header_client hq (by omega) (by omega))⟩

/-- There are eight size classes, and a size fits into its class. -/
theorem sizeClass_lt {i : ℕ} (h : sizeClass size = some i) : i < 8 ∧ size ≤ classSize i := by
  unfold sizeClass at h
  unfold classSize
  split_ifs at h
  all_goals
    obtain rfl := Option.some.inj h
    omega

/-- The cache that `kmalloc` tries is the one of the size class. -/
theorem cacheFor_eq (h : cacheFor s size ≠ 0) :
    ∃ i, sizeClass size = some i ∧ cacheFor s size = s.caches i := by
  unfold cacheFor at h ⊢
  split_ifs at h ⊢ with hcond
  · cases hi : sizeClass size with
    | none =>
        rw [hi] at h
        exact absurd rfl h
    | some i => exact ⟨i, rfl, rfl⟩
  · exact absurd rfl h

/-- The slab part of `kmalloc` fails, or adds an allocation in a new object. -/
theorem Inv.kmallocSlab (h : Inv P start e ⟨s, live⟩ bs K O) (hP : P.Working slabAlloc slabFree)
    (hcache : cacheFor s size ≠ 0) (hroom : Roomy s size) {n : ℕ} {s' : State A}
    (hcall : kmallocSlab slabAlloc s (cacheFor s size) size = (n, s')) :
    (n = 0 ∧ Inv P start e ⟨s', live⟩ bs K O) ∨
      n ≠ 0 ∧ n ∉ live.map Prod.fst ∧ ∃ O', Inv P start e ⟨s', (n, size) :: live⟩ bs K O' := by
  obtain ⟨i, hclass, hi⟩ := cacheFor_eq hcache
  have hfit := hroom hcache i hclass
  have hi0 : s.caches i ≠ 0 := hi ▸ hcache
  obtain ⟨hi8, -⟩ := sizeClass_lt hclass
  obtain ⟨hsame, hnull, hobj⟩ := hP.alloc h.owns (h.caches i hi0)
  unfold Heap.kmallocSlab at hcall
  rw [hi, hclass, Option.getD_some] at hcall
  dsimp only at hcall
  set a := (slabAlloc (s.caches i) s.toMachine).1 with ha
  set s₁ := (slabAlloc (s.caches i) s.toMachine).2 with hs₁
  by_cases ha0 : a = 0
  · rw [if_pos ha0, Prod.mk.injEq] at hcall
    obtain ⟨rfl, rfl⟩ := hcall
    exact Or.inl ⟨rfl, h.same hsame subset_rfl (hnull ha0)⟩
  right
  rw [if_neg ha0, Prod.mk.injEq] at hcall
  obtain ⟨rfl, rfl⟩ := hcall
  obtain ⟨hnew, howns⟩ := hobj ha0
  have hmem : (s.caches i, a) ∈ Set.insert (s.caches i, a) O := Set.mem_insert _ _
  have h₁ := h.same hsame (Set.subset_insert _ _) howns
  -- the new object holds no bytes of the clients
  have hfresh : ∀ x, a ≤ x → x < a + classSize i → ¬ (x ∈ P.outside ∨ InObject K O x) := by
    rintro x hx1 hx2 (hout | ⟨o, ho, z, hz, h1, h2⟩)
    · exact (h₁.object hi0 hmem hx1 hx2).1 hout
    · have hdis := P.disjoint howns _ (Set.mem_insert_of_mem _ ho) _ hmem (fun heq => hnew (heq ▸ ho)) z _ hz
        (h.caches i hi0)
      dsimp only at hdis
      omega
  unfold allocHeaderSize at hfit ⊢
  have hptr : a + 12 ∉ live.map Prod.fst := by
    intro hin
    obtain ⟨q, hq, hqa⟩ := List.mem_map.mp hin
    exact hfresh a le_rfl (by omega) (h.header_client hq (by omega) (by omega))
  have hheader : ∀ x, x ∈ P.outside ∨ InObject K O x →
      fillHeader s₁.mem a size allocFromSlab i x = s₁.mem x := by
    intro x hx
    apply fillHeader_apply
    by_contra hcon
    exact hfresh x (by omega) (by omega) hx
  have h₂ := h₁.of_mem
    (fun x hx => hheader x (Or.inl (h.block_client hx)))
    (fun q hq x hx1 hx2 => hheader x (h.header_client hq hx1 hx2)) (by
      intro x hx1 hx2
      apply fillHeader_apply
      by_contra hcon
      exact hx2 (h₁.object hi0 hmem (by omega) (by omega)).2)
  obtain ⟨hmagic, hsize, hflags, hindex⟩ := fillHeader_fields (m := s₁.mem) (a := a)
    (i := i) size allocFromSlab (by decide) (by omega)
  have hmod := Nat.mod_le size (2 ^ 32)
  refine ⟨by omega, hptr, _, h₂.region, h₂.owns, h₂.caches, h₂.layout, ?_, ?_, ?_⟩
  · intro q hq
    rcases List.mem_cons.mp hq with rfl | hq
    · refine Or.inr ⟨a, i, hi8, hi0, hmem, rfl, hmagic, hflags, hindex, ?_, hfit⟩
      show 12 + headerSize _ a ≤ classSize i
      rw [hsize]
      omega
    · exact h₂.held q hq
  · exact fun b hb hbf => ⟨(h₂.used b hb hbf).1, List.mem_cons_of_mem _ (h₂.used b hb hbf).2⟩
  · rw [List.map_cons]
    exact List.nodup_cons.mpr ⟨hptr, h.nodup⟩

/-! ### The calls -/

/-- The header and the bytes of the allocation `q` are the same in `m'` as in `m`, up to the size that the
header gives. -/
def SameAt (m m' : Mem) (q : ℕ × ℕ) : Prop :=
  ∀ x, q.1 ≤ x + 12 → x < q.1 + max q.2 (headerSize m (q.1 - allocHeaderSize)) → m' x = m x

/-- The bytes of an allocation in a block are in the block. -/
theorem HeldBlock.sameAt {m m' : Mem} {b : Block} {q : ℕ × ℕ} (hqb : q.1 = b.addr + 44)
    (halloc : Allocated m b q.2) (hm : ∀ x, b.addr + 32 ≤ x → x < b.addr + 32 + b.size → m' x = m x) :
    SameAt m m' q := by
  intro x h1 h2
  have hheader : q.1 - allocHeaderSize = b.addr + 32 := by
    unfold allocHeaderSize
    omega
  have hroom := halloc.room
  have hle := halloc.le
  rw [hheader] at h2
  exact hm x (by omega) (by omega)

/-- The bytes of an allocation in a slab object are in the object. -/
theorem HeldObject.sameAt {m m' : Mem} {a i : ℕ} {q : ℕ × ℕ} (hqa : q.1 = a + 12)
    (halloc : SlabAllocated m a i q.2) (hm : ∀ x, a ≤ x → x < a + classSize i → m' x = m x) :
    SameAt m m' q := by
  intro x h1 h2
  have hheader : q.1 - allocHeaderSize = a := by
    unfold allocHeaderSize
    omega
  have hroom := halloc.room
  have hle := halloc.le
  rw [hheader] at h2
  exact hm x (by omega) (by omega)

/-- What keeps the used blocks other than the one at `a`, and the memory outside the heap, keeps the
allocations other than the one in that block. -/
theorem Inv.sameAt (h : Inv P start e ⟨s, live⟩ bs K O) {m' : Mem} {a : ℕ}
    (hbytes : ∀ d ∈ bs, d.free = false → d.addr ≠ a →
      ∀ x, d.addr + 32 ≤ x → x < d.addr + 32 + d.size → m' x = s.mem x)
    (houtside : ∀ x, x < start ∨ e ≤ x → m' x = s.mem x) {q : ℕ × ℕ} (hq : q ∈ live)
    (hne : q.1 ≠ a + 44) : SameAt s.mem m' q := by
  rcases h.held q hq with ⟨d, hd, hdf, hqd, hdal⟩ | ⟨a', i, -, hi, ho, hqa, hoal⟩
  · exact HeldBlock.sameAt hqd hdal (hbytes d hd hdf (by omega))
  · refine HeldObject.sameAt hqa hoal fun x h1 h2 => houtside x ?_
    by_contra hcon
    exact (h.object hi ho h1 h2).1 (h.region x (by omega) (by omega))

/-- The heap part of `kmalloc` fails without an effect, or adds an allocation. -/
theorem Inv.kmallocHeap (h : Inv P start e ⟨s, live⟩ bs K O) (he : e ≤ 2 ^ 64)
    (hspan : e ≤ start + 2 ^ 63) (hsize : size + 28 ≤ 2 ^ 64) :
    ∃ n s' bs', kmallocHeap s size = some (n, s') ∧ (n ≠ 0 → n ∉ live.map Prod.fst) ∧
      Inv P start e ⟨s', afterMalloc size n live⟩ bs' K O ∧ Grid bs bs' ∧ (n = 0 → s' = s) ∧
      (n ≠ 0 → headerSize s'.mem (n - allocHeaderSize) = size % 2 ^ 32) ∧
      ∀ q ∈ live, SameAt s.mem s'.mem q := by
  unfold afterMalloc
  rcases kmallocHeap_spec h.layout he hspan hsize with hfail |
    ⟨m', b, bs', hcall, hlayout, hkeeps, hb, hbf, hused, hfresh, halloc, hheader, hgrid⟩
  · exact ⟨0, s, bs, hfail, fun h0 => absurd rfl h0, by rw [if_pos rfl]; exact h, Grid.refl bs, fun _ => rfl,
      fun h0 => absurd rfl h0, fun q _ x _ _ => rfl⟩
  have hbend := hlayout.tiles.mem_le hb
  have hble := halloc.le
  unfold blockHeaderSize at hbend
  have hnew : b.addr + 44 ∉ live.map Prod.fst := by
    intro hmem
    obtain ⟨q, hq, hqb⟩ := List.mem_map.mp hmem
    rcases h.held q hq with ⟨d, hd, hdf, hqd, -⟩ | ⟨a, i, -, hi, ho, hqa, hoal⟩
    · exact hfresh d hd hdf (by omega)
    · have hole := hoal.le
      exact (h.object hi ho (x := a) le_rfl (by omega)).1 (h.region a (by omega) (by omega))
  refine ⟨b.addr + 44, _, bs', hcall, fun _ => hnew, ?_, hgrid, fun hzero => absurd hzero (by omega),
    fun _ => hheader, fun q hq => ?_⟩
  on_goal 2 =>
    exact h.sameAt (a := b.addr) (fun d hd hdf _ => hkeeps.bytes d hd hdf) hkeeps.outside hq
      fun heq => hnew (List.mem_map.mpr ⟨q, hq, heq⟩)
  rw [if_neg (by omega)]
  refine ⟨h.region, P.write h.owns m' fun x hx _ => hkeeps.outside x ?_, h.caches, hlayout, ?_, ?_, ?_⟩
  · by_contra hcon
    exact hx (h.region x (by omega) (by omega))
  · intro q hq
    rcases List.mem_cons.mp hq with rfl | hq
    · exact Or.inl ⟨b, hb, hbf, rfl, halloc⟩
    rcases h.held q hq with ⟨d, hd, hdf, hqd, hdal⟩ | ⟨a, i, hi8, hi, ho, hqa, hoal⟩
    · have hdle := hdal.le
      exact Or.inl ⟨d, hkeeps.mem d hd hdf, hdf, hqd,
        hdal.congr fun x h1 h2 => hkeeps.bytes d hd hdf x h1 (by omega)⟩
    · have hole := hoal.le
      refine Or.inr ⟨a, i, hi8, hi, ho, hqa, hoal.congr fun x h1 h2 => hkeeps.outside x ?_⟩
      by_contra hcon
      exact (h.object hi ho (x := x) h1 (by omega)).1 (h.region x (by omega) (by omega))
  · intro d hd hdf
    rw [List.map_cons, List.mem_cons]
    rcases hused d hd hdf with rfl | hd'
    · exact ⟨by omega, Or.inl rfl⟩
    · exact ⟨(h.used d hd' hdf).1, Or.inr (h.used d hd' hdf).2⟩
  · rw [List.map_cons]
    exact List.nodup_cons.mpr ⟨hnew, h.nodup⟩

/-- `kmalloc` returns null, or adds an allocation. -/
theorem Inv.kmalloc (h : Inv P start e ⟨s, live⟩ bs K O) (hP : P.Working slabAlloc slabFree)
    (he : e ≤ 2 ^ 64) (hspan : e ≤ start + 2 ^ 63) (hsize : size + 28 ≤ 2 ^ 64) (hroom : Roomy s size) :
    ∃ n s' bs' O', kmalloc slabAlloc s size = some (n, s') ∧ (n ≠ 0 → n ∉ live.map Prod.fst) ∧
      Inv P start e ⟨s', afterMalloc size n live⟩ bs' K O' ∧ Grid bs bs' := by
  unfold Heap.kmalloc
  dsimp only
  by_cases h0 : size = 0
  · refine ⟨0, s, bs, O, by rw [if_pos h0], fun hn => absurd rfl hn, ?_, Grid.refl bs⟩
    unfold afterMalloc
    rw [if_pos rfl]
    exact h
  rw [if_neg h0]
  by_cases hcache : cacheFor s size = 0
  · rw [if_pos hcache]
    obtain ⟨n, s', bs', hcall, hn, hinv, hgrid, -⟩ := h.kmallocHeap he hspan hsize
    exact ⟨n, s', bs', O, hcall, hn, hinv, hgrid⟩
  rw [if_neg hcache]
  obtain ⟨⟨n, s₁⟩, hres⟩ : ∃ r, Heap.kmallocSlab slabAlloc s (cacheFor s size) size = r := ⟨_, rfl⟩
  rw [hres]
  rcases h.kmallocSlab hP hcache hroom hres with ⟨rfl, h₁⟩ | ⟨hn, hnew, O', h₁⟩
  · rw [if_pos rfl]
    obtain ⟨n, s', bs', hcall, hn, hinv, hgrid, -⟩ := h₁.kmallocHeap he hspan hsize
    exact ⟨n, s', bs', O, hcall, hn, hinv, hgrid⟩
  · rw [if_neg hn]
    refine ⟨n, s₁, bs, O', rfl, fun _ => hnew, ?_, Grid.refl bs⟩
    unfold afterMalloc
    rw [if_neg hn]
    exact h₁

/-- `kfree` of an allocation in a block. -/
theorem Inv.kfree_block (h : Inv P start e ⟨s, live⟩ bs K O) (he : e ≤ 2 ^ 64) {b : Block} {n : ℕ}
    (hb : b ∈ bs) (halloc : Allocated s.mem b n) :
    ∃ bs', Inv P start e ⟨kfree slabFree s (b.addr + 44), drop (b.addr + 44) live⟩ bs' K O ∧ Grid bs bs' ∧
      ∀ q ∈ live, q.1 ≠ b.addr + 44 → SameAt s.mem (kfree slabFree s (b.addr + 44)).mem q := by
  obtain ⟨m', bs', hcall, hlayout, hin, hout, hbytes, houtside, hgrid⟩ :=
    kfree_spec h.layout he hb halloc
  rw [hcall]
  refine ⟨bs', ?_, hgrid, fun q hq hne => h.sameAt (fun d hd _ => hbytes d hd) houtside hq hne⟩
  refine ⟨h.region, P.write h.owns m' fun x hx _ => houtside x ?_, h.caches, hlayout, ?_, ?_,
    nodup_drop h.nodup⟩
  · by_contra hcon
    exact hx (h.region x (by omega) (by omega))
  · intro q hq
    obtain ⟨hq, hne⟩ := mem_drop.mp hq
    rcases h.held q hq with ⟨d, hd, hdf, hqd, hdal⟩ | ⟨a, i, hi8, hi, ho, hqa, hoal⟩
    · have hne' : d.addr ≠ b.addr := by omega
      have hdle := hdal.le
      exact Or.inl ⟨d, hout d hd hdf hne', hdf, hqd,
        hdal.congr fun x h1 h2 => hbytes d hd hne' x h1 (by omega)⟩
    · have hole := hoal.le
      refine Or.inr ⟨a, i, hi8, hi, ho, hqa, hoal.congr fun x h1 h2 => houtside x ?_⟩
      by_contra hcon
      exact (h.object hi ho (x := x) h1 (by omega)).1 (h.region x (by omega) (by omega))
  · intro d hd hdf
    obtain ⟨hd', hne⟩ := hin d hd hdf
    obtain ⟨hsize, hmem⟩ := h.used d hd' hdf
    obtain ⟨q, hq, heq⟩ := List.mem_map.mp hmem
    refine ⟨hsize, List.mem_map.mpr ⟨q, mem_drop.mpr ⟨hq, ?_⟩, heq⟩⟩
    omega

/-- `kfree` of an allocation in a slab object. -/
theorem Inv.kfree_object (h : Inv P start e ⟨s, live⟩ bs K O) (hP : P.Working slabAlloc slabFree)
    {a i n : ℕ} (hi8 : i < 8) (hi : s.caches i ≠ 0) (ho : (s.caches i, a) ∈ O)
    (halloc : SlabAllocated s.mem a i n) :
    Inv P start e ⟨kfree slabFree s (a + 12), drop (a + 12) live⟩ bs K (O \ {(s.caches i, a)}) := by
  have hcall : kfree slabFree s (a + 12)
      = { s with toMachine := slabFree (s.caches i) a s.toMachine } := by
    have h1 : a + 12 - 12 = a := by omega
    unfold Heap.kfree allocHeaderSize
    rw [if_neg (by omega)]
    dsimp only
    rw [h1, halloc.magic, halloc.flags, halloc.index, if_neg (by simp), if_pos (by decide),
      if_neg (by omega), if_neg hi]
  obtain ⟨hsame, howns⟩ := hP.free h.owns ho
  have hole := halloc.le
  rw [hcall]
  refine ⟨h.region, howns, h.caches, ⟨h.layout.tiles, h.layout.rep.congr fun x hx =>
    hsame x (Or.inl (h.block_client hx)), h.layout.coalesced⟩, ?_, ?_, nodup_drop h.nodup⟩
  · intro q hq
    obtain ⟨hq, hne⟩ := mem_drop.mp hq
    rcases h.held q hq with ⟨b, hb, hbf, hqb, hbal⟩ | ⟨a', j, hj8, hj, ho', hqa, hoal⟩
    · have hend := h.layout.tiles.mem_le hb
      have hble := hbal.le
      unfold blockHeaderSize at hend
      exact Or.inl ⟨b, hb, hbf, hqb, hbal.congr fun x h1 h2 =>
        hsame x (Or.inl (h.region x (by omega) (by omega)))⟩
    · have hole' := hoal.le
      have hmem : (s.caches j, a') ∈ O \ {(s.caches i, a)} := by
        refine ⟨ho', fun heq => hne ?_⟩
        rw [Set.mem_singleton_iff, Prod.mk.injEq] at heq
        rw [hqa, heq.2]
      refine Or.inr ⟨a', j, hj8, hj, hmem, hqa, hoal.congr fun x h1 h2 => hsame x (Or.inr ?_)⟩
      exact ⟨_, hmem, _, h.caches j hj, h1, (show x < a' + classSize j by omega)⟩
  · intro b hb hbf
    obtain ⟨hsize, hmem⟩ := h.used b hb hbf
    obtain ⟨q, hq, heq⟩ := List.mem_map.mp hmem
    refine ⟨hsize, List.mem_map.mpr ⟨q, mem_drop.mpr ⟨hq, ?_⟩, heq⟩⟩
    have := h.block_object hb hi ho hsize (by omega)
    omega

/-- `kfree` of a pointer that is held drops its allocation. -/
theorem Inv.kfree (h : Inv P start e ⟨s, live⟩ bs K O) (hP : P.Working slabAlloc slabFree)
    (he : e ≤ 2 ^ 64) (hp : p ∈ live.map Prod.fst) :
    ∃ bs' O', Inv P start e ⟨kfree slabFree s p, drop p live⟩ bs' K O' ∧ Grid bs bs' := by
  obtain ⟨q, hq, rfl⟩ := List.mem_map.mp hp
  rcases h.held q hq with ⟨b, hb, -, hqb, hbal⟩ | ⟨a, i, hi8, hi, ho, hqa, hoal⟩
  · rw [hqb]
    obtain ⟨bs', hinv, hgrid, -⟩ := h.kfree_block he hb hbal
    exact ⟨bs', O, hinv, hgrid⟩
  · rw [hqa]
    exact ⟨bs, _, h.kfree_object hP hi8 hi ho hoal, Grid.refl bs⟩

/-- A product that passes the check of `kcalloc` did not wrap. -/
theorem calloc_total {num : ℕ} (hover : ¬ (num ≠ 0 ∧ size ≠ 0 ∧
      (if num ≠ 0 ∧ size ≠ 0 then Word.mul 64 num size else 0) / num ≠ size)) :
    (if num ≠ 0 ∧ size ≠ 0 then Word.mul 64 num size else 0) = num * size := by
  by_cases hne : num ≠ 0 ∧ size ≠ 0
  · rw [if_pos hne] at hover ⊢
    have hdiv : Word.mul 64 num size / num = size := by
      by_contra hcon
      exact hover ⟨hne.1, hne.2, hcon⟩
    apply le_antisymm (Nat.mod_le _ _)
    calc num * size = Word.mul 64 num size / num * num := by rw [hdiv, Nat.mul_comm]
      _ ≤ Word.mul 64 num size := Nat.div_mul_le_self _ _
  · rw [if_neg hne]
    rw [not_and_or, not_not, not_not] at hne
    rcases hne with rfl | rfl
    · rw [Nat.zero_mul]
    · rw [Nat.mul_zero]

/-- A product that does not fit 64 bits is found by the division. -/
theorem kcalloc_of_le (h : 2 ^ 64 ≤ num * size) :
    kcalloc slabAlloc s num size = some (0, s) := by
  unfold kcalloc
  dsimp only
  rw [if_pos]
  by_contra hover
  have htotal := calloc_total hover
  have hwrap : Word.mul 64 num size < 2 ^ 64 := Nat.mod_lt _ (Nat.two_pow_pos 64)
  split_ifs at htotal
  · omega
  · omega

/-- A product that fits goes to `kmalloc`. -/
theorem kcalloc_of_lt (h : num * size < 2 ^ 64) : kcalloc slabAlloc s num size
    = (kmalloc slabAlloc s (num * size)).map fun r =>
        if r.1 = 0 then (0, r.2) else (r.1, { r.2 with mem := fill (num * size) r.2.mem r.1 0 }) := by
  have hmul : Word.mul 64 num size = num * size := Nat.mod_eq_of_lt h
  have hover : ¬ (num ≠ 0 ∧ size ≠ 0 ∧
      (if num ≠ 0 ∧ size ≠ 0 then Word.mul 64 num size else 0) / num ≠ size) := by
    rintro ⟨hn, hs, hne⟩
    rw [if_pos ⟨hn, hs⟩, hmul, Nat.mul_div_cancel_left size (Nat.pos_of_ne_zero hn)] at hne
    exact hne rfl
  have htotal := calloc_total hover
  unfold kcalloc
  dsimp only
  rw [if_neg hover, htotal]
  cases hcall : kmalloc slabAlloc s (num * size) with
  | none => rfl
  | some r =>
      rw [Option.map_some]
      dsimp only
      split_ifs <;> rfl

/-- `kcalloc` keeps the invariant. -/
theorem Inv.kcalloc (h : Inv P start e ⟨s, live⟩ bs K O) (hP : P.Working slabAlloc slabFree)
    (he : e ≤ 2 ^ 64) (hspan : e ≤ start + 2 ^ 63) {num : ℕ}
    (hsize : Word.mul 64 num size + 28 ≤ 2 ^ 64) (hroom : Roomy s (num * size)) :
    ∃ n s' bs' O', kcalloc slabAlloc s num size = some (n, s') ∧
      Inv P start e ⟨s', afterMalloc (num * size) n live⟩ bs' K O' ∧ Grid bs bs' := by
  unfold Heap.kcalloc
  dsimp only
  set total := if num ≠ 0 ∧ size ≠ 0 then Word.mul 64 num size else 0 with htotal
  by_cases hover : num ≠ 0 ∧ size ≠ 0 ∧ total / num ≠ size
  · rw [if_pos hover]
    refine ⟨0, s, bs, O, rfl, ?_, Grid.refl bs⟩
    unfold afterMalloc
    rw [if_pos rfl]
    exact h
  rw [if_neg hover]
  have hprod : total = num * size := calloc_total hover
  have hbound : total + 28 ≤ 2 ^ 64 := by
    rw [htotal]
    split_ifs
    · exact hsize
    · norm_num
  rw [← hprod] at hroom ⊢
  obtain ⟨n, s', bs', O', hcall, -, hinv, hgrid⟩ := h.kmalloc hP he hspan hbound hroom
  rw [hcall]
  dsimp only
  by_cases hn : n = 0
  · rw [if_pos hn]
    exact ⟨0, s', bs', O', rfl, hn ▸ hinv, hgrid⟩
  · rw [if_neg hn]
    refine ⟨n, _, bs', O', rfl, ?_, hgrid⟩
    unfold afterMalloc at hinv ⊢
    rw [if_neg hn] at hinv ⊢
    refine hinv.write List.mem_cons_self fun x hx => ?_
    rw [fill_apply, if_neg (by dsimp only at hx; omega)]

/-- In place: the same block or object gets a new size. -/
theorem Inv.resize (h : Inv P start e ⟨s, live⟩ bs K O)
    (hq : HeldBlock s.mem bs (p, size) ∨ HeldObject s O (p, size)) :
    Inv P start e ⟨s, (p, size) :: drop p live⟩ bs K O := by
  refine ⟨h.region, h.owns, h.caches, h.layout, ?_, ?_, ?_⟩
  · intro q hq'
    rcases List.mem_cons.mp hq' with rfl | hq'
    · exact hq
    · exact h.held q (mem_drop.mp hq').1
  · intro d hd hdf
    obtain ⟨hsize, hmem⟩ := h.used d hd hdf
    refine ⟨hsize, ?_⟩
    rw [List.map_cons, List.mem_cons]
    by_cases hdp : d.addr + 44 = p
    · exact Or.inl hdp
    · obtain ⟨q, hq, heq⟩ := List.mem_map.mp hmem
      exact Or.inr (List.mem_map.mpr ⟨q, mem_drop.mpr ⟨hq, heq ▸ hdp⟩, heq⟩)
  · rw [List.map_cons]
    refine List.nodup_cons.mpr ⟨fun hin => ?_, nodup_drop h.nodup⟩
    obtain ⟨q, hq, heq⟩ := List.mem_map.mp hin
    exact (mem_drop.mp hq).2 heq

/-- A pointer that is held passes the check of the magic number, and the size in its header bounds what
the block or the object can hold. -/
theorem Inv.header (h : Inv P start e ⟨s, live⟩ bs K O) (hp : p ∈ live.map Prod.fst) :
    headerMagic s.mem (p - allocHeaderSize) = allocMagic ∧
      ∀ n ≤ headerSize s.mem (p - allocHeaderSize), HeldBlock s.mem bs (p, n) ∨ HeldObject s O (p, n) := by
  obtain ⟨q, hq, rfl⟩ := List.mem_map.mp hp
  unfold allocHeaderSize
  rcases h.held q hq with ⟨b, hb, hbf, hqb, hbal⟩ | ⟨a, i, hi8, hi, ho, hqa, hoal⟩
  · have hroom : 12 + headerSize s.mem (b.addr + 32) ≤ b.size := hbal.room
    have hsub : q.1 - 12 = b.addr + 32 := by omega
    rw [hsub]
    refine ⟨hbal.magic, fun n hn => Or.inl ⟨b, hb, hbf, hqb, hbal.magic, hbal.flags, hbal.room, ?_⟩⟩
    dsimp only
    omega
  · have hroom : 12 + headerSize s.mem a ≤ classSize i := hoal.room
    have hsub : q.1 - 12 = a := by omega
    rw [hsub]
    refine ⟨hoal.magic, fun n hn => Or.inr ⟨a, i, hi8, hi, ho, hqa, hoal.magic, hoal.flags, hoal.index,
      hoal.room, ?_⟩⟩
    dsimp only
    omega

/-- `krealloc` keeps the invariant. -/
theorem Inv.krealloc (h : Inv P start e ⟨s, live⟩ bs K O) (hP : P.Working slabAlloc slabFree)
    (he : e ≤ 2 ^ 64) (hspan : e ≤ start + 2 ^ 63) (hsize : size + 28 ≤ 2 ^ 64)
    (hp : p = 0 ∨ p ∈ live.map Prod.fst)
    (hfits : p ≠ 0 ∧ size ≤ headerSize s.mem (p - allocHeaderSize) ∨ Roomy s size) :
    ∃ r s' bs' O', krealloc slabAlloc slabFree s p size = some (r, s') ∧
      Inv P start e ⟨s', afterRealloc p size r live⟩ bs' K O' ∧ Grid bs bs' := by
  unfold Heap.krealloc
  dsimp only
  by_cases hp0 : p = 0
  · -- a null pointer: `kmalloc`
    have hdrop : drop p live = live := drop_of_not_mem fun hmem => h.ne_zero hmem hp0
    have hroom := hfits.resolve_left fun hcon => hcon.1 hp0
    obtain ⟨n, s', bs', O', hcall, -, hinv, hgrid⟩ := h.kmalloc hP he hspan hsize hroom
    refine ⟨n, s', bs', O', by rw [if_pos hp0, hcall], ?_, hgrid⟩
    unfold afterRealloc
    unfold afterMalloc at hinv
    rw [hdrop, ite_self]
    by_cases hn : n = 0
    · rw [if_neg (not_not.mpr hn)]
      rwa [if_pos hn] at hinv
    · rw [if_pos hn]
      rwa [if_neg hn] at hinv
  rw [if_neg hp0]
  have hmem := hp.resolve_left hp0
  by_cases hs0 : size = 0
  · obtain ⟨bs', O', hinv, hgrid⟩ := h.kfree hP he hmem
    rw [if_pos hs0]
    refine ⟨0, _, bs', O', rfl, ?_, hgrid⟩
    unfold afterRealloc
    rw [if_neg (not_not.mpr rfl), if_pos hs0]
    exact hinv
  obtain ⟨hmagic, hresize⟩ := h.header hmem
  rw [if_neg hs0, hmagic, if_neg (not_not.mpr rfl)]
  by_cases hfit : size ≤ headerSize s.mem (p - allocHeaderSize)
  · rw [if_pos hfit]
    refine ⟨p, s, bs, O, rfl, ?_, Grid.refl bs⟩
    unfold afterRealloc
    rw [if_pos hp0]
    exact h.resize (hresize size hfit)
  rw [if_neg hfit]
  have hroom := hfits.resolve_left fun hcon => hfit hcon.2
  obtain ⟨n, s', bs', O', hcall, hnew, hinv, hgrid⟩ := h.kmalloc hP he hspan hsize hroom
  rw [hcall]
  dsimp only
  unfold afterMalloc at hinv
  by_cases hn : n = 0
  · rw [if_pos hn]
    rw [if_pos hn] at hinv
    refine ⟨0, s', bs', O', rfl, ?_, hgrid⟩
    unfold afterRealloc
    rw [if_neg (not_not.mpr rfl), if_neg hs0]
    exact hinv
  · -- the copy stays inside the new allocation
    rw [if_neg hn]
    rw [if_neg hn] at hinv
    have houtside : ∀ x, x < n ∨ n + size ≤ x →
        copyBytes (headerSize s.mem (p - allocHeaderSize)) s'.mem n p x = s'.mem x := fun x hx =>
      copyBytes_apply_of_lt_or_le (by omega)
    have hcopy := hinv.write (q := (n, size)) List.mem_cons_self houtside
    obtain ⟨bs'', O'', hfree, hgrid'⟩ := hcopy.kfree hP he (List.mem_cons_of_mem _ hmem)
    refine ⟨n, _, bs'', O'', rfl, ?_, hgrid.trans hgrid'⟩
    have hnp : n ≠ p := fun heq => hnew hn (heq ▸ hmem)
    have hdrop : drop p ((n, size) :: live) = (n, size) :: drop p live := by
      unfold drop
      rw [List.filter_cons_of_pos (by simpa using hnp)]
    unfold afterRealloc
    rw [if_pos hn, ← hdrop]
    exact hfree

/-- Every operation that the clients may do, with room for its header, returns and keeps the invariant. -/
theorem Inv.step (h : Inv P start e c bs K O) (hP : P.Working slabAlloc slabFree) (he : e ≤ 2 ^ 64)
    (hspan : e ≤ start + 2 ^ 63) {op : Op} (hv : Valid c op) (hf : Fits c op) :
    ∃ c' bs' O', step slabAlloc slabFree c op = some c' ∧ Inv P start e c' bs' K O' ∧ Grid bs bs' := by
  obtain ⟨s, live⟩ := c
  cases op with
  | enableSlab =>
      exact ⟨_, bs, O, rfl, ⟨h.region, h.owns, h.caches, h.layout, h.held, h.used, h.nodup⟩, Grid.refl bs⟩
  | malloc size =>
      obtain ⟨n, s', bs', O', hcall, -, hinv, hgrid⟩ := h.kmalloc hP he hspan hv hf
      refine ⟨_, bs', O', ?_, hinv, hgrid⟩
      simp [Heap.step, hcall]
  | calloc num size =>
      obtain ⟨n, s', bs', O', hcall, hinv, hgrid⟩ := h.kcalloc hP he hspan hv hf
      refine ⟨_, bs', O', ?_, hinv, hgrid⟩
      simp [Heap.step, hcall]
  | realloc ptr size =>
      obtain ⟨r, s', bs', O', hcall, hinv, hgrid⟩ := h.krealloc hP he hspan hv.1 hv.2 hf
      refine ⟨_, bs', O', ?_, hinv, hgrid⟩
      simp [Heap.step, hcall]
  | free ptr =>
      by_cases hp : ptr ∈ live.map Prod.fst
      · obtain ⟨bs', O', hinv, hgrid⟩ := h.kfree hP he hp
        exact ⟨_, bs', O', rfl, hinv, hgrid⟩
      · refine ⟨⟨s, live⟩, bs, O, ?_, h, Grid.refl bs⟩
        unfold Heap.step Heap.kfree
        dsimp only
        rw [if_pos (hv.resolve_right hp), drop_of_not_mem hp]
  | write addr byte =>
      obtain ⟨q, hq, h1, h2⟩ := hv
      exact ⟨_, bs, O, rfl, h.write hq fun x hx => Function.update_of_ne (by omega) _ _, Grid.refl bs⟩

/-! ### The heap after `heap_init` -/

/-- The header that `heap_init` writes. -/
theorem heapInit_fields {m : Mem} {a v : ℕ} (hv : v < 2 ^ 64) :
    blockSize (setPrev (setNext (setFree (setSize m a v) a 1) a 0) a 0) a = v ∧
      blockFree (setPrev (setNext (setFree (setSize m a v) a 1) a 0) a 0) a = 1 ∧
      blockNext (setPrev (setNext (setFree (setSize m a v) a 1) a 0) a 0) a = 0 ∧
      blockPrev (setPrev (setNext (setFree (setSize m a v) a 1) a 0) a 0) a = 0 ∧
      ∀ x, x < a ∨ a + 32 ≤ x → setPrev (setNext (setFree (setSize m a v) a 1) a 0) a 0 x = m x := by
  unfold setPrev setNext setFree setSize blockSize blockFree blockNext blockPrev
  refine ⟨?_, ?_, ?_, ?_, fun x hx => ?_⟩
  on_goal 5 => simp (disch := omega) only [store_apply_of_lt_or_le]
  all_goals simp (disch := omega) only [load_store_disjoint, load_store_of_lt]

/-- The caches are created one by one. -/
theorem Inv.createCaches {slabCacheCreate : ℕ → ℕ → Machine A → ℕ × Machine A}
    (hC : P.Creates slabCacheCreate) {n i : ℕ} (h : Inv P start e ⟨s, []⟩ bs K O) :
    ∃ K', Inv P start e ⟨createCaches slabCacheCreate n i s, []⟩ bs K' O := by
  induction n generalizing i s K with
  | zero => exact ⟨K, h⟩
  | succ n ih =>
      have hpos : 0 < classSize i := Nat.mul_pos (by norm_num) (Nat.two_pow_pos i)
      obtain ⟨hsame, hnull, hnew⟩ := hC h.owns hpos (Nat.mul_mod_right 16 _)
      unfold Heap.createCaches
      dsimp only
      set r := slabCacheCreate (classSize i) 16 s.toMachine with hr
      have hlayout : Layout start e r.2.mem s.heapHead bs := ⟨h.layout.tiles, h.layout.rep.congr fun x hx =>
        hsame x (Or.inl (h.block_client hx)), h.layout.coalesced⟩
      by_cases hr0 : r.1 = 0
      · refine ih (K := K) ⟨h.region, hnull hr0, ?_, hlayout, ?_, h.used, h.nodup⟩
        · intro j
          dsimp only
          by_cases hj : j = i
          · subst hj
            rw [Function.update_self, hr0]
            exact fun hne => absurd rfl hne
          · rw [Function.update_of_ne hj]
            exact h.caches j
        · exact fun q hq => absurd hq List.not_mem_nil
      · obtain ⟨hfresh, howns⟩ := hnew hr0
        refine ih (K := Function.update K r.1 (some (classSize i))) ⟨h.region, howns, ?_, hlayout, ?_, h.used,
          h.nodup⟩
        · intro j
          dsimp only
          by_cases hj : j = i
          · subst hj
            intro _
            rw [Function.update_self, Function.update_self]
          · intro hj0
            rw [Function.update_of_ne hj] at hj0 ⊢
            have hne : s.caches j ≠ r.1 := by
              intro heq
              have := h.caches j hj0
              rw [heq, hfresh] at this
              exact absurd this nofun
            rw [Function.update_of_ne hne]
            exact h.caches j hj0
        · exact fun q hq => absurd hq List.not_mem_nil

/-- `heap_init` makes one free block. -/
theorem inv_boot {slabCacheCreate : ℕ → ℕ → Machine A → ℕ × Machine A} {s : Machine A}
    {slabInitialized : Bool} (hs : P.Owns s (fun _ => none) ∅) (h0 : 0 < start) (hsize : 48 ≤ size)
    (hend : start + size ≤ 2 ^ 64) (hregion : ∀ x, start ≤ x → x < start + size → x ∈ P.outside)
    (hC : slabInitialized = true → P.Creates slabCacheCreate) :
    ∃ K, Inv P start (start + size) (boot slabCacheCreate s slabInitialized start size)
      [⟨start, size - 32, true⟩] K ∅ := by
  have hsub : Word.sub 64 size blockHeaderSize = size - 32 := by
    unfold blockHeaderSize
    rw [Word.sub_eq (by omega) (by omega)]
  obtain ⟨h1, h2, h3, h4, h5⟩ := heapInit_fields (m := s.mem) (a := start) (v := size - 32) (by omega)
  set m := setPrev (setNext (setFree (setSize s.mem start (size - 32)) start 1) start 0) start 0 with hm
  have hinv : Inv P start (start + size)
      ⟨⟨{ s with mem := m }, start, size, start, slabInitialized, fun _ => 0⟩, []⟩
      [⟨start, size - 32, true⟩] (fun _ => none) ∅ := by
    refine ⟨hregion, P.write hs m fun x hx _ => h5 x ?_, fun i hi => absurd rfl hi,
      ⟨⟨rfl, ?_⟩, ⟨⟨rfl, ?_, h4, h3⟩, ?_, ?_⟩, List.isChain_singleton _⟩, ?_, ?_, List.nodup_nil⟩
    · by_contra hcon
      exact hx (hregion x (by omega) (by omega))
    · show start + 32 + (size - 32) = start + size
      omega
    · show start ≠ 0
      omega
    · intro b hb
      obtain rfl := List.mem_singleton.mp hb
      exact h1
    · intro b hb
      obtain rfl := List.mem_singleton.mp hb
      exact h2
    · exact fun q hq => absurd hq List.not_mem_nil
    · intro b hb hbf
      obtain rfl := List.mem_singleton.mp hb
      exact absurd hbf (by simp)
  unfold boot heapInit unset
  rw [hsub]
  dsimp only
  rw [← hm]
  by_cases hslab : slabInitialized = true
  · rw [if_pos hslab]
    exact hinv.createCaches (hC hslab)
  · rw [if_neg hslab]
    exact ⟨_, hinv⟩

end run

end PrometheusKernel.Heap
