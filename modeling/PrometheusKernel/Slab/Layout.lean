import PrometheusKernel.Slab.Steps

/-!
# The layout of a slab

`slab_cache_create` rounds the size of an object up to `align` and divides the 4064 bytes behind the slab
header by it; `slab_create` moves the first object by a colour offset, modulo what the division left over.

* Nothing is left over when the rounded size divides 4064, and then `slab_create` divides by zero
  (`slack_ne_zero_iff`). The sizes 16 and 32 of `kmalloc` are among them.
* The objects stay inside the page and apart when the rounded size is at most 4064 and not below the size and
  the 8 bytes of a link (`objects_fit_iff`). One object is put on a slab even if it has no room there, and an
  `align` that is no power of two can round down.
-/

namespace PrometheusKernel.Slab

open ByteMem LinkedList

/-! ### Creating a cache -/

section create

variable {A : Type}

/-- `slab_cache_create`: null or the cache, in a record of its own; `none` is the division by an object size
of 0. -/
def slabCacheCreate (allocUnmovable : Machine A → ℕ × Machine A) (s : Machine A) (name size align : ℕ) :
    Option (Option Cache × Machine A) :=
  if name = 0 then some (none, s)
  else if size = 0 then some (none, s)
  else if size > pageSize then some (none, s)
  else
    let res := allocUnmovable s
    if res.1 = 0 then some (none, res.2)
    else if (newCache size align).objectSize = 0 then none
    else some (some (newCache size align), res.2)

variable {allocUnmovable allocReclaimable : Machine A → ℕ × Machine A} {M M' : Machine A}
  {name size align : ℕ} {c : Cache}

/-- What `slab_cache_create` has checked. -/
theorem created (h : slabCacheCreate allocUnmovable M name size align = some (some c, M')) :
    c = newCache size align ∧ 0 < size ∧ size ≤ 4096 ∧ 0 < c.objectSize := by
  unfold slabCacheCreate at h
  dsimp only at h
  split_ifs at h with h1 h2 h3 h4 h5
  · simp at h
  · simp at h
  · simp at h
  · simp at h
  · obtain ⟨hc, -⟩ := Prod.mk.inj (Option.some.inj h)
    obtain rfl := Option.some.inj hc
    exact ⟨rfl, Nat.pos_of_ne_zero h2, not_lt.mp h3, Nat.pos_of_ne_zero h5⟩

/-- A creation that succeeds. -/
theorem slabCacheCreate_eq (hname : name ≠ 0) (hsize : 0 < size) (hpage : size ≤ 4096)
    (hobject : (newCache size align).objectSize ≠ 0) (halloc : (allocUnmovable M).1 ≠ 0) :
    slabCacheCreate allocUnmovable M name size align = some (some (newCache size align), (allocUnmovable M).2) := by
  unfold slabCacheCreate pageSize
  dsimp only
  rw [if_neg hname, if_neg hsize.ne', if_neg (not_lt.mpr hpage), if_neg halloc, if_neg hobject]

/-! ### Object sizes -/

/-- `align_up` with a power of two rounds up. -/
theorem alignUp_two_pow {k : ℕ} (hk : k < 64) (hsize : 0 < size) (hpage : size ≤ 4096) :
    alignUp size (2 ^ k) = (size + 2 ^ k - 1) / 2 ^ k * 2 ^ k := by
  have hpos : 0 < 2 ^ k := Nat.two_pow_pos k
  have hpow : 2 ^ k ≤ 2 ^ 63 := Nat.pow_le_pow_right (by norm_num) (by omega)
  unfold alignUp
  rw [Word.add_eq (by omega), Word.sub_eq (by omega) (by omega), Word.sub_eq (by omega) (by omega),
    show 2 ^ 64 - 1 - (2 ^ k - 1) = 2 ^ 64 - 2 ^ k by omega, Word.and_high_mask hk.le,
    Nat.mod_eq_of_lt (by omega)]

/-- The object size is rounded up to the alignment. -/
theorem newCache_objectSize (halign : align ≠ 0) : (newCache size align).objectSize = alignUp size align := by
  unfold newCache
  rw [if_neg halign]

/-- As many objects as fit behind the header, but at least one. -/
theorem newCache_objectsPerSlab (size align : ℕ) :
    (newCache size align).objectsPerSlab = max 1 (4064 / (newCache size align).objectSize) := by
  have hmax : ∀ q : ℕ, (if q = 0 then 1 else q) = max 1 q := by
    intro q
    split_ifs with hq
    · rw [hq]
      rfl
    · exact (max_eq_right (Nat.pos_of_ne_zero hq)).symm
  exact hmax _

/-- The object size is a word. -/
theorem objectSize_lt (size align : ℕ) : (newCache size align).objectSize < 2 ^ 64 :=
  lt_of_le_of_lt Nat.and_le_left (Word.sub_lt 64 _ 1)

/-! ### Slack and colour -/

/-- The modulus in `slab_create`. -/
def slack (c : Cache) : ℕ := Word.sub 64 (pageSize - slabHeaderSize) (Word.mul 64 c.objectsPerSlab c.objectSize)

/-- `color_offset`. -/
def colorOffset (c : Cache) : ℕ := Word.mul 32 c.colorNext cacheLineSize % slack c

/-- A cache of one size and alignment, with any colour. -/
structure Shape (size align : ℕ) (c : Cache) : Prop where
  objectSize : c.objectSize = (newCache size align).objectSize
  objectsPerSlab : c.objectsPerSlab = (newCache size align).objectsPerSlab
  pos : 0 < c.objectSize
  color : c.colorNext < 8

/-- The number of objects in a slab of the cache. -/
theorem Shape.count (h : Shape size align c) : c.objectsPerSlab = max 1 (4064 / c.objectSize) := by
  rw [h.objectsPerSlab, h.objectSize]
  exact newCache_objectsPerSlab size align

/-- Objects that fit leave less than one object over. -/
theorem Shape.slack_of_le (h : Shape size align c) (hle : c.objectSize ≤ 4064) :
    c.objectsPerSlab = 4064 / c.objectSize ∧ slack c = 4064 % c.objectSize := by
  have hcount : c.objectsPerSlab = 4064 / c.objectSize := by
    rw [h.count]
    exact max_eq_right (Nat.div_pos hle h.pos)
  have hmul : 4064 / c.objectSize * c.objectSize ≤ 4064 := Nat.div_mul_le_self _ _
  have hmod := Nat.div_add_mod' 4064 c.objectSize
  refine ⟨hcount, ?_⟩
  unfold slack pageSize slabHeaderSize
  rw [hcount, Word.mul_eq (by omega), Word.sub_eq (by omega) (by norm_num)]
  omega

/-- One object that does not fit leaves a huge modulus. -/
theorem Shape.slack_of_lt (h : Shape size align c) (hlt : 4064 < c.objectSize) :
    c.objectsPerSlab = 1 ∧ slack c = 2 ^ 64 + 4064 - c.objectSize := by
  have hcount : c.objectsPerSlab = 1 := by
    rw [h.count, Nat.div_eq_of_lt hlt]
    rfl
  have h64 : c.objectSize < 2 ^ 64 := by
    rw [h.objectSize]
    exact objectSize_lt size align
  refine ⟨hcount, ?_⟩
  unfold slack pageSize slabHeaderSize
  rw [hcount, Word.mul_eq (by omega), one_mul, Word.sub_eq_of_lt h64 (by omega)]

/-- Nothing is left in the page exactly if the object size divides 4064. -/
theorem Shape.slack_eq_zero_iff (h : Shape size align c) : slack c = 0 ↔ c.objectSize ∣ 4064 := by
  rcases le_or_gt c.objectSize 4064 with hle | hlt
  · rw [(h.slack_of_le hle).2]
    exact (Nat.dvd_iff_mod_eq_zero).symm
  · have h64 : c.objectSize < 2 ^ 64 := by
      rw [h.objectSize]
      exact objectSize_lt size align
    rw [(h.slack_of_lt hlt).2]
    constructor
    · intro h0
      omega
    · intro hdvd
      exact absurd (Nat.le_of_dvd (by norm_num) hdvd) (not_le.mpr hlt)

/-- What `slab_create` does once it has a page. -/
theorem slabCreate_eq (s : State A) (hpage : (allocReclaimable s.toMachine).1 ≠ 0) :
    slabCreate allocReclaimable s =
      if slack s.cache = 0 then none
      else
        let a := (allocReclaimable s.toMachine).1
        let base := a + slabHeaderSize + colorOffset s.cache
        some (a, { s with
          mem := threadObjects a base s.cache.objectSize s.cache.objectsPerSlab 0
            (setFreeList (setObjects (setTotalObjects (setInUse (setNext
              (allocReclaimable s.toMachine).2.mem a 0) a 0) a s.cache.objectsPerSlab) a base) a 0)
          pages := (allocReclaimable s.toMachine).2.pages
          cache := { s.cache with colorNext := (s.cache.colorNext + 1) % 8 } }) := by
  unfold slabCreate
  dsimp only
  rw [if_neg hpage]
  rfl

/-- A cache that was created has its shape, whatever its colour. -/
theorem shape (h : slabCacheCreate allocUnmovable M name size align = some (some c, M')) {color : ℕ}
    (hcolor : color < 8) : Shape size align { c with colorNext := color } := by
  obtain ⟨rfl, -, -, hpos⟩ := created h
  exact ⟨rfl, rfl, hpos, hcolor⟩

/-- `slab_create` divides by zero exactly when the rounded size of an object divides the 4064 bytes behind the
header: for the sizes 1, 2, 4, 8, 16, 32, 127, 254, 508, 1016, 2032 and 4064. -/
theorem slack_ne_zero_iff {k color : ℕ} (hk : k < 64) (hcolor : color < 8)
    (h : slabCacheCreate allocUnmovable M name size (2 ^ k) = some (some c, M')) :
    (slack { c with colorNext := color } ≠ 0 ↔ ¬ (size + 2 ^ k - 1) / 2 ^ k * 2 ^ k ∣ 4064) ∧
      ∀ s : State A, s.cache = { c with colorNext := color } → (allocReclaimable s.toMachine).1 ≠ 0 →
        (slabCreate allocReclaimable s ≠ none ↔ ¬ (size + 2 ^ k - 1) / 2 ^ k * 2 ^ k ∣ 4064) := by
  have hshape := shape h hcolor
  obtain ⟨-, hsize, hpage, -⟩ := created h
  have hobject : ({ c with colorNext := color } : Cache).objectSize = (size + 2 ^ k - 1) / 2 ^ k * 2 ^ k := by
    rw [hshape.objectSize, newCache_objectSize (Nat.two_pow_pos k).ne', alignUp_two_pow hk hsize hpage]
  have hslack : slack { c with colorNext := color } ≠ 0 ↔ ¬ (size + 2 ^ k - 1) / 2 ^ k * 2 ^ k ∣ 4064 := by
    rw [← hobject]
    exact not_congr hshape.slack_eq_zero_iff
  refine ⟨hslack, fun s hs halloc => ?_⟩
  rw [← hslack, slabCreate_eq s halloc, hs]
  by_cases h0 : slack { c with colorNext := color } = 0
  · simp [h0]
  · simp [h0]

/-- A source of pages that always returns the page `0x1000`. -/
def onePage (m : Machine Unit) : ℕ × Machine Unit := (0x1000, m)

/-- Empty memory. -/
def noMemory : Machine Unit := ⟨fun _ => 0, ()⟩

/-- Objects of 100 bytes at multiples of 16. -/
theorem slack_ne_zero_hundred :
    slabCacheCreate onePage noMemory 1 100 (2 ^ 4) = some (some (newCache 100 (2 ^ 4)), noMemory) ∧
      (slack { newCache 100 (2 ^ 4) with colorNext := 3 } ≠ 0 ↔ ¬ (100 + 2 ^ 4 - 1) / 2 ^ 4 * 2 ^ 4 ∣ 4064) ∧
      ∀ s : State Unit, s.cache = { newCache 100 (2 ^ 4) with colorNext := 3 } →
        (onePage s.toMachine).1 ≠ 0 →
          (slabCreate onePage s ≠ none ↔ ¬ (100 + 2 ^ 4 - 1) / 2 ^ 4 * 2 ^ 4 ∣ 4064) :=
  ⟨rfl, slack_ne_zero_iff (by norm_num) (by norm_num)
    (show slabCacheCreate onePage noMemory 1 100 (2 ^ 4) = some (some (newCache 100 (2 ^ 4)), noMemory) from rfl)⟩

/-- The cache of the colouring test: 127 objects of 32 bytes leave nothing over. -/
theorem slack_eq_zero_of_color_test :
    ¬ ∀ (size k color : ℕ) (c : Cache) (M' : Machine Unit), k < 64 → color < 8 →
      slabCacheCreate onePage noMemory 1 size (2 ^ k) = some (some c, M') →
        slack { c with colorNext := color } ≠ 0 := by
  intro h
  exact h 32 3 0 (newCache 32 (2 ^ 3)) noMemory (by norm_num) (by norm_num) rfl (by decide)

/-! ### The objects of a new slab -/

/-- The address of the object with index `i`. -/
def objectAt (m : Mem) (c : Cache) (slab i : ℕ) : ℕ := slabObjects m slab + i * c.objectSize

/-- The objects, as ranges of `width` bytes, lie behind the header of the page and apart, and the free list holds
each of them once. -/
structure SlabFits (m : Mem) (c : Cache) (width slab : ℕ) : Prop where
  within : ∀ i < c.objectsPerSlab, slab + 32 ≤ objectAt m c slab i ∧ objectAt m c slab i + width ≤ slab + 4096
  apart : ∀ i < c.objectsPerSlab, ∀ j < c.objectsPerSlab, i < j →
    objectAt m c slab i + width ≤ objectAt m c slab j
  listed : ∃ l, IsList (link m) l (freeList m slab) ∧
    l.Perm ((List.range c.objectsPerSlab).map (objectAt m c slab))

/-- The loop writes the free list and the objects. -/
theorem threadObjects_of_lt {a base size k i x : ℕ} {m : Mem} (hx : x < a + 8 ∨ a + 16 ≤ x) (hbase : x < base) :
    threadObjects a base size k i m x = m x := by
  induction k generalizing i m with
  | zero => rfl
  | succ k ih =>
      have hobj : base ≤ base + i * size := Nat.le_add_right _ _
      unfold threadObjects
      dsimp only
      rw [ih]
      unfold setFreeList setLink
      simp (disch := omega) only [store_apply_of_lt_or_le]

/-- One object is threaded without regard to its size. -/
theorem threadObjects_one (a base size : ℕ) (m : Mem) :
    threadObjects a base size 1 0 m = threadObjects a base 8 1 0 m := by
  simp [threadObjects]

variable {s s' : State A} {a : ℕ}

/-- What `slab_create` has written where the slab is. -/
theorem slabCreate_mem (hcreate : slabCreate allocReclaimable s = some (a, s')) (ha : a ≠ 0) :
    a = (allocReclaimable s.toMachine).1 ∧ slack s.cache ≠ 0 ∧
      s'.cache = { s.cache with colorNext := (s.cache.colorNext + 1) % 8 } ∧ ∃ m,
        s'.mem = threadObjects a (a + slabHeaderSize + colorOffset s.cache) s.cache.objectSize
          s.cache.objectsPerSlab 0 (setFreeList (setObjects m a (a + slabHeaderSize + colorOffset s.cache)) a 0) := by
  have halloc : (allocReclaimable s.toMachine).1 ≠ 0 := by
    intro h0
    unfold slabCreate at hcreate
    dsimp only at hcreate
    rw [if_pos h0] at hcreate
    exact ha (Prod.mk.inj (Option.some.inj hcreate)).1.symm
  rw [slabCreate_eq s halloc] at hcreate
  split_ifs at hcreate with h0
  obtain ⟨rfl, rfl⟩ := Prod.mk.inj (Option.some.inj hcreate)
  exact ⟨rfl, h0, rfl, _, rfl⟩

/-- The colour moves the objects by seven cache lines at most. -/
theorem colorOffset_le (hcolor : c.colorNext < 8) : colorOffset c ≤ 448 := by
  unfold colorOffset cacheLineSize
  rw [Word.mul_eq (by omega)]
  exact (Nat.mod_le _ _).trans (by omega)

/-- `slab->objects` of a new slab. -/
theorem slabObjects_create (hcreate : slabCreate allocReclaimable s = some (a, s')) (ha : a ≠ 0)
    (hpage : a + 4096 ≤ 2 ^ 64) (hcolor : s.cache.colorNext < 8) :
    slabObjects s'.mem a = a + slabHeaderSize + colorOffset s.cache := by
  obtain ⟨-, -, -, m, hmem⟩ := slabCreate_mem hcreate ha
  have hcol := colorOffset_le hcolor
  have hkeep : slabObjects s'.mem a =
      slabObjects (setFreeList (setObjects m a (a + slabHeaderSize + colorOffset s.cache)) a 0) a := by
    rw [hmem]
    refine load_congr fun x hx => threadObjects_of_lt (Or.inr ?_) ?_
    · have := hx.1
      omega
    · have := hx.2
      unfold slabHeaderSize
      omega
  rw [hkeep]
  unfold slabObjects setFreeList setObjects slabHeaderSize
  rw [load_store_disjoint (by omega), load_store_of_lt (by norm_num; omega)]

/-- The free list of a new slab, when its objects can hold a link. -/
theorem listed_create (hcreate : slabCreate allocReclaimable s = some (a, s')) (ha : a ≠ 0)
    (hpage : a + 4096 ≤ 2 ^ 64) (hcolor : s.cache.colorNext < 8)
    (hwide : s.cache.objectsPerSlab = 1 ∨
      8 ≤ s.cache.objectSize ∧ colorOffset s.cache + s.cache.objectsPerSlab * s.cache.objectSize ≤ 4064) :
    ∃ l, IsList (link s'.mem) l (freeList s'.mem a) ∧
      l.Perm ((List.range s.cache.objectsPerSlab).map (objectAt s'.mem s.cache a)) := by
  obtain ⟨-, -, -, m, hmem⟩ := slabCreate_mem hcreate ha
  have hobjects := slabObjects_create hcreate ha hpage hcolor
  have hcol := colorOffset_le hcolor
  obtain ⟨base, hbase⟩ : ∃ base, a + slabHeaderSize + colorOffset s.cache = base := ⟨_, rfl⟩
  rw [hbase] at hmem hobjects
  unfold slabHeaderSize at hbase
  have hnil : IsList (link (setFreeList (setObjects m a base) a 0)) []
      (freeList (setFreeList (setObjects m a base) a 0) a) := by
    show freeList (setFreeList (setObjects m a base) a 0) a = 0
    unfold freeList setFreeList
    rw [load_store_of_lt (by norm_num)]
  have hbehind : a + 32 ≤ base := by omega
  unfold objectAt
  rw [hobjects, hmem]
  rcases hwide with hone | ⟨hsize, hfits⟩
  · rw [hone, threadObjects_one]
    have hend : base + (0 + 1) * 8 ≤ 2 ^ 64 := by omega
    obtain ⟨hlist, -⟩ := threadObjects_spec (le_refl 8) hbehind hend hnil fun o ho => absurd ho List.not_mem_nil
    exact ⟨_, hlist, by simp [threaded]⟩
  · have hend : base + (0 + s.cache.objectsPerSlab) * s.cache.objectSize ≤ 2 ^ 64 := by
      rw [Nat.zero_add]
      omega
    obtain ⟨hlist, -⟩ := threadObjects_spec hsize hbehind hend hnil fun o ho => absurd ho List.not_mem_nil
    exact ⟨_, hlist, threaded_objects base s.cache.objectSize s.cache.objectsPerSlab⟩

/-- The colour offset uses no more than what the division left over. -/
theorem Shape.fits (h : Shape size align c) (hle : c.objectSize ≤ 4064) (h0 : slack c ≠ 0) :
    colorOffset c + c.objectsPerSlab * c.objectSize ≤ 4064 := by
  obtain ⟨hcount, hslack⟩ := h.slack_of_le hle
  have hlt : colorOffset c < 4064 % c.objectSize := by
    rw [← hslack]
    exact Nat.mod_lt _ (Nat.pos_of_ne_zero h0)
  have hmod := Nat.div_add_mod' 4064 c.objectSize
  rw [hcount]
  omega

/-- Where the objects of a cache fit: they are no smaller than an object and a link and no larger than the room
behind the header, or there is one of them and it ends within the page. -/
def Fits (size : ℕ) (c : Cache) : Prop :=
  (max size 8 ≤ c.objectSize ∧ c.objectSize ≤ 4064) ∨
    (2032 < c.objectSize ∧ slabHeaderSize + colorOffset c + max size 8 ≤ pageSize)

/-- Only objects of more than half a page are alone in their slab. -/
theorem Shape.one_iff (h : Shape size align c) : c.objectsPerSlab = 1 ↔ 2032 < c.objectSize := by
  have hpos := h.pos
  rw [h.count]
  constructor
  · intro hone
    by_contra hle
    have htwo : 2 ≤ 4064 / c.objectSize := (Nat.le_div_iff_mul_le hpos).mpr (by omega)
    omega
  · intro hlt
    have hle : 4064 / c.objectSize ≤ 1 := by
      rw [Nat.div_le_iff_le_mul_add_pred hpos]
      omega
    exact max_eq_left hle

/-- A new slab has room for its objects exactly if the sizes fit. -/
theorem slabFits_iff (hshape : Shape size align s.cache)
    (hcreate : slabCreate allocReclaimable s = some (a, s')) (ha : a ≠ 0) (hpage : a + 4096 ≤ 2 ^ 64) :
    (∃ width, max size 8 ≤ width ∧ SlabFits s'.mem s.cache width a) ↔ Fits size s.cache := by
  have hobjects := slabObjects_create hcreate ha hpage hshape.color
  have h0 := (slabCreate_mem hcreate ha).2.1
  have hpos := hshape.pos
  have hcount : 1 ≤ s.cache.objectsPerSlab := by
    rw [hshape.count]
    exact le_max_left _ _
  constructor
  · rintro ⟨width, hwidth, hfits⟩
    by_cases hone : s.cache.objectsPerSlab = 1
    · -- the only object ends within the page
      have hwithin := (hfits.within 0 hcount).2
      unfold objectAt at hwithin
      rw [hobjects] at hwithin
      refine Or.inr ⟨hshape.one_iff.mp hone, ?_⟩
      unfold pageSize
      omega
    · -- the second object starts behind the first
      have hapart := hfits.apart 0 hcount 1 (by omega) one_pos
      unfold objectAt at hapart
      have hsmall : ¬ 2032 < s.cache.objectSize := fun hlt => hone (hshape.one_iff.mpr hlt)
      exact Or.inl ⟨by omega, by omega⟩
  · rintro (⟨hwide, hle⟩ | ⟨hlarge, hend⟩)
    · have hroom := hshape.fits hle h0
      refine ⟨s.cache.objectSize, hwide, ?_, ?_, ?_⟩
      · intro i hi
        have hlast : (i + 1) * s.cache.objectSize ≤ s.cache.objectsPerSlab * s.cache.objectSize :=
          Nat.mul_le_mul_right _ hi
        have hstep : (i + 1) * s.cache.objectSize = i * s.cache.objectSize + s.cache.objectSize := Nat.succ_mul _ _
        unfold objectAt
        rw [hobjects]
        unfold slabHeaderSize
        constructor
        · omega
        · omega
      · intro i _ j _ hij
        have hlast : (i + 1) * s.cache.objectSize ≤ j * s.cache.objectSize := Nat.mul_le_mul_right _ hij
        have hstep : (i + 1) * s.cache.objectSize = i * s.cache.objectSize + s.cache.objectSize := Nat.succ_mul _ _
        unfold objectAt
        omega
      · exact listed_create hcreate ha hpage hshape.color
          (Or.inr ⟨(le_max_right size 8).trans hwide, hroom⟩)
    · have hone := hshape.one_iff.mpr hlarge
      unfold pageSize at hend
      refine ⟨max size 8, le_rfl, ?_, ?_, ?_⟩
      · intro i hi
        obtain rfl : i = 0 := by omega
        unfold objectAt
        rw [hobjects]
        unfold slabHeaderSize at hend ⊢
        constructor
        · omega
        · omega
      · intro i _ j hj hij
        omega
      · exact listed_create hcreate ha hpage hshape.color (Or.inl hone)

/-- For every size and alignment that `slab_cache_create` accepts, every colour and every page: the objects lie
inside the page and apart and are listed once exactly where they fit. -/
theorem objects_fit_iff {color : ℕ} (h : slabCacheCreate allocUnmovable M name size align = some (some c, M'))
    (hcolor : color < 8) (hs : s.cache = { c with colorNext := color })
    (hcreate : slabCreate allocReclaimable s = some (a, s')) (ha : a ≠ 0) (hpage : a + 4096 ≤ 2 ^ 64) :
    (∃ width, max size 8 ≤ width ∧ SlabFits s'.mem s.cache width a) ↔
      Fits size { newCache size align with colorNext := color } := by
  obtain ⟨rfl, -⟩ := created h
  rw [← hs]
  have hshape := shape h hcolor
  rw [← hs] at hshape
  exact slabFits_iff hshape hcreate ha hpage

/-- Objects of 100 bytes at multiples of 16, in the fourth colour. -/
theorem objects_fit_hundred :
    ∃ s', slabCreate onePage ⟨noMemory, { newCache 100 16 with colorNext := 3 }⟩ = some (0x1000, s') ∧
      ((∃ width, max 100 8 ≤ width ∧
          SlabFits s'.mem { newCache 100 16 with colorNext := 3 } width 0x1000) ↔
        Fits 100 { newCache 100 16 with colorNext := 3 }) := by
  have hcreate : slabCreate onePage ⟨noMemory, { newCache 100 16 with colorNext := 3 }⟩ = some (0x1000, _) :=
    (slabCreate_eq _ (by decide)).trans (if_neg (by decide))
  exact ⟨_, hcreate, objects_fit_iff (show slabCacheCreate onePage noMemory 1 100 16 = _ from
    slabCacheCreate_eq one_ne_zero (by norm_num) (by norm_num) (by decide) (by decide)) (by norm_num) rfl hcreate
      (by norm_num) (by norm_num)⟩

/-- An object of a whole page is accepted and does not fit behind the slab header. -/
theorem page_sized_object_overruns :
    ¬ ∀ (size align color a : ℕ) (c : Cache) (M' : Machine Unit) (s s' : State Unit),
      slabCacheCreate onePage noMemory 1 size align = some (some c, M') → color < 8 →
      s.cache = { c with colorNext := color } → slabCreate onePage s = some (a, s') → a ≠ 0 →
      a + 4096 ≤ 2 ^ 64 → ∃ width, max size 8 ≤ width ∧ SlabFits s'.mem s.cache width a := by
  intro h
  have hcreate : slabCreate onePage ⟨noMemory, newCache 4096 8⟩ = some (0x1000, _) :=
    (slabCreate_eq _ (by decide)).trans (if_neg (by decide))
  obtain ⟨width, hwidth, hfits⟩ := h 4096 8 0 0x1000 (newCache 4096 8) noMemory ⟨noMemory, newCache 4096 8⟩ _
    (slabCacheCreate_eq one_ne_zero (by norm_num) (by norm_num) (by decide) (by decide)) (by norm_num) rfl hcreate
    (by norm_num) (by norm_num)
  have hwithin := (hfits.within 0 (by decide)).2
  unfold objectAt at hwithin
  rw [slabObjects_create hcreate (by norm_num) (by norm_num) (by decide)] at hwithin
  unfold slabHeaderSize at hwithin
  have hle : 4096 ≤ width := (le_max_left 4096 8).trans hwidth
  omega

end create

end PrometheusKernel.Slab
