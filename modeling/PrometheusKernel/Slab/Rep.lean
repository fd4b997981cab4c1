import PrometheusKernel.Slab.Model
import PrometheusKernel.Ownership

/-!
# The lists behind a slab cache

`Ghost` names what the pointers of a cache lead to: the slabs of its three lists, the free list of each
slab, the stack of the CPU cache, and the objects that clients hold. `Core` ties it to memory. Its `perm`
says that every object of every slab is in exactly one place; nothing in it says on which of the three lists
a slab is, so that it also holds between the two halves of a call. `Rep` adds that.
-/

namespace PrometheusKernel.Slab

open ByteMem LinkedList

/-- The three lists of a cache. -/
inductive Place
  | full
  | part
  | free
deriving DecidableEq

/-- The head of a list. -/
def Cache.head (c : Cache) : Place → ℕ
  | .full => c.slabsFull
  | .part => c.slabsPartial
  | .free => c.slabsFree

/-- What the pointers of a cache lead to. -/
structure Ghost where
  /-- The slabs of the three lists. -/
  slabsAt : Place → List ℕ
  /-- The first object of a slab. -/
  base : ℕ → ℕ
  /-- The free list of a slab. -/
  freeOf : ℕ → List ℕ
  /-- The stack of the CPU cache, its top first. -/
  cpu : List ℕ
  /-- The objects that clients hold. -/
  live : List ℕ

/-- All slabs. -/
def Ghost.slabs (g : Ghost) : List ℕ := g.slabsAt .full ++ g.slabsAt .part ++ g.slabsAt .free

/-- The `n` objects from `base` on. -/
def objectsFrom (n size base : ℕ) : List ℕ := (List.range n).map fun i => base + i * size

/-- All objects. -/
def Ghost.objects (g : Ghost) (n size : ℕ) : List ℕ := g.slabs.flatMap fun a => objectsFrom n size (g.base a)

/-- The objects on free lists. -/
def Ghost.freed (g : Ghost) : List ℕ := g.slabs.flatMap g.freeOf

/-- The first object of every slab is at a multiple of `d`. -/
def Ghost.Aligned (d : ℕ) (g : Ghost) : Prop := ∀ a ∈ g.slabs, d ∣ g.base a

/-- Every slab of the partial list has an object in use, but perhaps `a`. -/
def Ghost.UsedBut (n a : ℕ) (g : Ghost) : Prop := ∀ b ∈ g.slabsAt .part, b ≠ a → (g.freeOf b).length < n

/-- Every slab of the partial list has an object in use. -/
def Ghost.Used (n : ℕ) (g : Ghost) : Prop := ∀ b ∈ g.slabsAt .part, (g.freeOf b).length < n

/-- The slab `a` in memory. -/
structure SlabRep (m : Mem) (n size base : ℕ) (free : List ℕ) (a : ℕ) : Prop where
  total : totalObjects m a = n
  used : inUse m a + free.length = n
  objects : slabObjects m a = base
  links : IsList (link m) free (freeList m a)
  sub : ∀ o ∈ free, o ∈ objectsFrom n size base
  lower : a + 32 ≤ base
  upper : base + n * size ≤ a + 4096

/-- The stack in the array at `arr`. -/
def StackRep (m : Mem) (arr : ℕ) : List ℕ → Prop
  | [] => True
  | o :: l => load 8 m (arr + 8 * l.length) = o ∧ StackRep m arr l

variable {A : Type}

/-- The frames of a cache, next to the frames `F` that others hold. -/
def frames (F : Set ℕ) (c : Cache) (g : Ghost) : Set ℕ :=
  { f | f ∈ F ∨ f ∈ g.slabs ∨ f = c.cpuObjects ∧ f ≠ 0 }

/-- A slab has room for `n` objects in its page, and an object has room for a link. -/
structure Geometry (n size : ℕ) : Prop where
  pos : 0 < n
  wide : 8 ≤ size
  fits : 32 + n * size ≤ 4096

/-- Memory holds the lists of `g`. -/
structure Core (P : Ownership A) (F : Set ℕ) (n size : ℕ) (s : State A) (g : Ghost) : Prop where
  geometry : Geometry n size
  objectSize : s.cache.objectSize = size
  objectsPerSlab : s.cache.objectsPerSlab = n
  limit : s.cache.limit = slabCpuCacheSize
  owns : P.Owns s.toMachine (frames F s.cache g)
  lists : ∀ p, IsList (slabNext s.mem) (g.slabsAt p) (s.cache.head p)
  nodup : g.slabs.Nodup
  fresh : ∀ a ∈ g.slabs, a ∉ F
  slab : ∀ a ∈ g.slabs, SlabRep s.mem n size (g.base a) (g.freeOf a) a
  perm : (g.live ++ g.cpu ++ g.freed).Perm (g.objects n size)
  array : s.cache.cpuObjects ∉ g.slabs
  stack : StackRep s.mem s.cache.cpuObjects g.cpu
  stackSome : g.cpu ≠ [] → s.cache.cpuObjects ≠ 0
  available : s.cache.available = g.cpu.length
  bounded : g.cpu.length ≤ slabCpuCacheSize

/-- Each slab is on the list that its free objects call for. -/
structure Rep (P : Ownership A) (F : Set ℕ) (n size : ℕ) (s : State A) (g : Ghost) : Prop
    extends Core P F n size s g where
  full : ∀ a ∈ g.slabsAt .full, g.freeOf a = []
  part : ∀ a ∈ g.slabsAt .part, g.freeOf a ≠ []
  free : ∀ a ∈ g.slabsAt .free, (g.freeOf a).length = n

/-! ### Objects -/

section objects

variable {n size base base' o o' a : ℕ}

/-- The objects from a base on. -/
theorem mem_objectsFrom : o ∈ objectsFrom n size base ↔ ∃ i < n, o = base + i * size := by
  unfold objectsFrom
  rw [List.mem_map]
  constructor
  · rintro ⟨i, hi, rfl⟩
    exact ⟨i, List.mem_range.mp hi, rfl⟩
  · rintro ⟨i, hi, rfl⟩
    exact ⟨i, List.mem_range.mpr hi, rfl⟩

/-- An object lies in the range of the objects. -/
theorem object_bounds (ho : o ∈ objectsFrom n size base) : base ≤ o ∧ o + size ≤ base + n * size := by
  obtain ⟨i, hi, rfl⟩ := mem_objectsFrom.mp ho
  refine ⟨Nat.le_add_right _ _, ?_⟩
  have hmul : (i + 1) * size ≤ n * size := Nat.mul_le_mul_right size hi
  rw [Nat.add_mul, Nat.one_mul] at hmul
  omega

/-- Objects of one slab do not overlap. -/
theorem object_apart (ho : o ∈ objectsFrom n size base) (ho' : o' ∈ objectsFrom n size base) (hne : o ≠ o') :
    o + size ≤ o' ∨ o' + size ≤ o := by
  obtain ⟨i, -, rfl⟩ := mem_objectsFrom.mp ho
  obtain ⟨j, -, rfl⟩ := mem_objectsFrom.mp ho'
  rcases Nat.lt_trichotomy i j with hij | rfl | hij
  · have hmul : (i + 1) * size ≤ j * size := Nat.mul_le_mul_right size hij
    rw [Nat.add_mul, Nat.one_mul] at hmul
    omega
  · exact absurd rfl hne
  · have hmul : (j + 1) * size ≤ i * size := Nat.mul_le_mul_right size hij
    rw [Nat.add_mul, Nat.one_mul] at hmul
    omega

/-- The objects are different. -/
theorem nodup_objectsFrom (hsize : 0 < size) : (objectsFrom n size base).Nodup := by
  refine List.Nodup.map (fun i j hij => ?_) List.nodup_range
  exact Nat.eq_of_mul_eq_mul_right hsize (by omega)

/-- There are `n` of them. -/
theorem length_objectsFrom : (objectsFrom n size base).length = n := by
  unfold objectsFrom
  rw [List.length_map, List.length_range]

end objects

/-! ### One slab -/

section slab

variable {m m' : Mem} {n size base a : ℕ} {free : List ℕ}

/-- A slab depends on its header, but for `next`, and on the links of its free objects. -/
theorem SlabRep.congr (h : SlabRep m n size base free a) (hheader : ∀ x, a + 8 ≤ x → x < a + 32 → m' x = m x)
    (hfree : ∀ o ∈ free, ∀ x, o ≤ x → x < o + 8 → m' x = m x) : SlabRep m' n size base free a := by
  have htotal : totalObjects m' a = totalObjects m a :=
    load_congr fun x hx => hheader x (by have := hx.1; omega) (by have := hx.2; omega)
  have hused : inUse m' a = inUse m a :=
    load_congr fun x hx => hheader x (by have := hx.1; omega) (by have := hx.2; omega)
  have hobjects : slabObjects m' a = slabObjects m a :=
    load_congr fun x hx => hheader x (by have := hx.1; omega) (by have := hx.2; omega)
  have hlist : freeList m' a = freeList m a :=
    load_congr fun x hx => hheader x (by have := hx.1; omega) (by have := hx.2; omega)
  refine ⟨htotal ▸ h.total, hused ▸ h.used, hobjects ▸ h.objects, ?_, h.sub, h.lower, h.upper⟩
  rw [hlist]
  exact h.links.congr fun o ho => load_congr fun x hx => hfree o ho x hx.1 hx.2

/-- The free objects lie behind the header. -/
theorem SlabRep.bounds (h : SlabRep m n size base free a) {o : ℕ} (ho : o ∈ objectsFrom n size base) :
    a + 32 ≤ o ∧ o + size ≤ a + 4096 := by
  have h1 := object_bounds ho
  have h2 := h.lower
  have h3 := h.upper
  omega

/-- No object is free twice. -/
theorem SlabRep.nodup (h : SlabRep m n size base free a) : free.Nodup := h.links.nodup

/-- An object that is not free leaves room on the free list. -/
theorem SlabRep.length_lt (h : SlabRep m n size base free a) {o : ℕ} (ho : o ∈ objectsFrom n size base)
    (hnot : o ∉ free) : free.length < n := by
  have hsub : o :: free ⊆ objectsFrom n size base := by
    intro x hx
    rcases List.mem_cons.mp hx with rfl | hx
    · exact ho
    · exact h.sub x hx
  have hle := ((List.nodup_cons.mpr ⟨hnot, h.nodup⟩).subperm hsub).length_le
  rw [List.length_cons, length_objectsFrom] at hle
  omega

/-- `slab_alloc_from_slab` takes the first free object. -/
theorem SlabRep.take {o : ℕ} (h : SlabRep m n size base (o :: free) a) (ha : a ≠ 0)
    (hn : n < 2 ^ 32) :
    ∃ m', slabAllocFromSlab m a = (o, m') ∧ SlabRep m' n size base free a ∧
      ∀ x, x < a + 8 ∨ a + 20 ≤ x → m' x = m x := by
  obtain ⟨hhead, ho0, hrest⟩ := h.links
  have hused := h.used
  rw [List.length_cons] at hused
  have hlt : inUse m a < 2 ^ 32 := load_four_lt m (a + 16)
  have hadd : Word.add 32 (inUse m a) 1 = inUse m a + 1 := Word.add_eq (by omega)
  have hfirst : ∃ v, link m o = v ∧ v < 2 ^ 64 := ⟨_, rfl, load_eight_lt m o⟩
  obtain ⟨v, hv, hv64⟩ := hfirst
  have hsame : inUse (setFreeList m a v) a = inUse m a := by
    unfold inUse setFreeList
    rw [load_store_disjoint (by omega)]
  have hcall : slabAllocFromSlab m a = (o, setInUse (setFreeList m a v) a (inUse m a + 1)) := by
    unfold slabAllocFromSlab
    rw [hhead, if_neg (by omega)]
    dsimp only
    rw [hv, hsame, hadd]
  have hframe : ∀ x, x < a + 8 ∨ a + 20 ≤ x →
      setInUse (setFreeList m a v) a (inUse m a + 1) x = m x := by
    intro x hx
    unfold setInUse setFreeList
    simp (disch := omega) only [store_apply_of_lt_or_le]
  refine ⟨_, hcall, ?_, hframe⟩
  have hbounds : ∀ x ∈ free, a + 32 ≤ x := fun x hx => (h.bounds (h.sub x (List.mem_cons_of_mem _ hx))).1
  refine ⟨?_, ?_, ?_, ?_, fun x hx => h.sub x (List.mem_cons_of_mem _ hx), h.lower, h.upper⟩
  · rw [← h.total]
    exact load_congr fun x hx => hframe x (by have := hx.1; omega)
  · have hnew : inUse (setInUse (setFreeList m a v) a (inUse m a + 1)) a = inUse m a + 1 := by
      unfold inUse setInUse
      rw [load_store_of_lt]
      unfold inUse at hused
      omega
    rw [hnew]
    omega
  · rw [← h.objects]
    exact load_congr fun x hx => hframe x (by have := hx.1; omega)
  · have hlist : freeList (setInUse (setFreeList m a v) a (inUse m a + 1)) a = v := by
      unfold freeList setInUse setFreeList
      rw [load_store_disjoint (by omega), load_store_of_lt (by norm_num; omega)]
    rw [hlist]
    rw [hv] at hrest
    refine hrest.congr fun x hx => load_congr fun y hy => hframe y ?_
    have h1 := hbounds x hx
    have h2 := hy.1
    omega

/-- `slab_free_to_slab` puts an object in front of the free list. -/
theorem SlabRep.give (h : SlabRep m n size base free a) {o : ℕ} (ho : o ∈ objectsFrom n size base)
    (hnot : o ∉ free) (hsize : 8 ≤ size) (ha : a + 4096 ≤ 2 ^ 64) :
    SlabRep (slabFreeToSlab m a o) n size base (o :: free) a ∧
      ∀ x, x < a + 8 ∨ a + 20 ≤ x → x < o ∨ o + 8 ≤ x → slabFreeToSlab m a o x = m x := by
  have hbo := h.bounds ho
  have hlen := h.length_lt ho hnot
  have hused := h.used
  have hlt : inUse m a < 2 ^ 32 := load_four_lt m (a + 16)
  have hsub : Word.sub 32 (inUse m a) 1 = inUse m a - 1 := Word.sub_eq (by omega) hlt
  obtain ⟨v, hv, hv64⟩ : ∃ v, freeList m a = v ∧ v < 2 ^ 64 := ⟨_, rfl, load_eight_lt m (a + 8)⟩
  have hsame : inUse (setFreeList (setLink m o v) a o) a = inUse m a := by
    unfold inUse setFreeList setLink
    simp (disch := omega) only [load_store_disjoint]
  have heq : slabFreeToSlab m a o = setInUse (setFreeList (setLink m o v) a o) a (inUse m a - 1) := by
    unfold slabFreeToSlab
    dsimp only
    rw [hv, hsame, hsub]
  have hframe : ∀ x, x < a + 8 ∨ a + 20 ≤ x → x < o ∨ o + 8 ≤ x → slabFreeToSlab m a o x = m x := by
    intro x hx hx'
    rw [heq]
    unfold setInUse setFreeList setLink
    simp (disch := omega) only [store_apply_of_lt_or_le]
  refine ⟨⟨?_, ?_, ?_, ⟨?_, by omega, ?_⟩, ?_, h.lower, h.upper⟩, hframe⟩
  · rw [← h.total]
    refine load_congr fun x hx => hframe x ?_ ?_
    · have := hx.1
      omega
    · have := hx.2
      omega
  · have hnew : inUse (slabFreeToSlab m a o) a = inUse m a - 1 := by
      rw [heq]
      show load 4 (store 4 _ (a + 16) (inUse m a - 1)) (a + 16) = inUse m a - 1
      rw [load_store_of_lt]
      norm_num
      omega
    rw [hnew, List.length_cons]
    omega
  · rw [← h.objects]
    refine load_congr fun x hx => hframe x ?_ ?_
    · have := hx.1
      omega
    · have := hx.2
      omega
  · rw [heq]
    unfold freeList setInUse setFreeList
    rw [load_store_disjoint (by omega), load_store_of_lt (by norm_num; omega)]
  · have hlink : link (slabFreeToSlab m a o) o = v := by
      rw [heq]
      unfold link setInUse setFreeList setLink
      simp (disch := omega) only [load_store_disjoint, load_store_of_lt]
    have hlinks := h.links
    rw [hv] at hlinks
    rw [hlink]
    refine hlinks.congr fun x hx => load_congr fun y hy => hframe y ?_ ?_
    · have h1 := (h.bounds (h.sub x hx)).1
      have h2 := hy.1
      omega
    · have h1 := object_apart (h.sub x hx) ho fun heq => hnot (heq ▸ hx)
      have h2 := hy.1
      have h3 := hy.2
      omega
  · intro x hx
    rcases List.mem_cons.mp hx with rfl | hx
    · exact ho
    · exact h.sub x hx

end slab

/-! ### The stack -/

/-- The stack only depends on the bytes of its elements. -/
theorem StackRep.congr {m m' : Mem} {arr : ℕ} {l : List ℕ} (h : StackRep m arr l)
    (hm : ∀ x, arr ≤ x → x < arr + 8 * l.length → m' x = m x) : StackRep m' arr l := by
  induction l with
  | nil => trivial
  | cons o l ih =>
      rw [List.length_cons] at hm
      refine ⟨?_, ih h.2 fun x h1 h2 => hm x h1 (by omega)⟩
      rw [← h.1]
      exact load_congr fun x hx => hm x (by have := hx.1; omega) (by have := hx.2; omega)

end PrometheusKernel.Slab
