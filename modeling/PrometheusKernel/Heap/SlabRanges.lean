import PrometheusKernel.Heap.Run

/-!
# Allocations in slab objects

With slab caches, `kmalloc` chooses the cache by the number of bytes asked for and puts its header of 12
bytes in front of them, into the same object. The class sizes are those of the requests, so that a request
within 12 bytes of its class size overruns its object.

`slab_ranges_owned` is the exact condition. In runs whose requests leave room for the header (`Fits`), every
live allocation from a slab cache lies, with its header, in an object of its own; and the next allocation
does so if and only if it leaves room as well.
-/

namespace PrometheusKernel.Heap

open ByteMem LinkedList Tiling Interleaving

section calls

variable {A : Type} (slabAlloc : ℕ → Machine A → ℕ × Machine A)
  (slabFree : ℕ → ℕ → Machine A → Machine A)

/-- What an allocating call returns. -/
def result (s : State A) : Op → Option (ℕ × State A)
  | .malloc size => kmalloc slabAlloc s size
  | .calloc num size => kcalloc slabAlloc s num size
  | .realloc ptr size => krealloc slabAlloc slabFree s ptr size
  | _ => none

/-- The number of bytes that a call promises. -/
def bytes : Op → ℕ
  | .malloc size => size
  | .calloc num size => num * size
  | .realloc _ size => size
  | _ => 0

/-- The object that `kmalloc` takes from a slab cache: its address and its size. -/
def slabObject (s : State A) (size : ℕ) : Option (ℕ × ℕ) :=
  let res := slabAlloc (cacheFor s size) s.toMachine
  if cacheFor s size ≠ 0 ∧ res.1 ≠ 0 then (sizeClass size).map fun i => (res.1, classSize i) else none

/-- The slab object at the header of an allocation. -/
def objectAt (m : Mem) (header : ℕ) : ℕ × ℕ := (header, classSize (headerCacheIndex m header))

/-- The slab object in which the result of a call lies, if it is from a slab cache. -/
def taken (s : State A) : Op → Option (ℕ × ℕ)
  | .malloc size => slabObject slabAlloc s size
  | .calloc num size => slabObject slabAlloc s (num * size)
  | .realloc ptr size =>
      let header := ptr - allocHeaderSize
      if ptr ≠ 0 ∧ size ≤ headerSize s.mem header then
        -- in place
        if headerFlags s.mem header &&& allocFromSlab ≠ 0 then some (objectAt s.mem header) else none
      else slabObject slabAlloc s size
  | _ => none

/-- The header and `n` bytes at `p` lie in the object. -/
def Owned (o : ℕ × ℕ) (p n : ℕ) : Prop := o.1 + allocHeaderSize ≤ p ∧ p + n ≤ o.1 + o.2

/-- `krealloc` gets a pointer that is held, or null. -/
def PassesLive (c : Run A) : Op → Prop
  | .realloc ptr _ => ptr = 0 ∨ ptr ∈ c.live.map Prod.fst
  | _ => True

/-- Every live allocation from a slab cache lies in an object of its own. -/
structure SlabSafe (c : Run A) : Prop where
  inside : ∀ q ∈ c.live, headerFlags c.state.mem (q.1 - allocHeaderSize) = allocFromSlab →
    Owned (objectAt c.state.mem (q.1 - allocHeaderSize)) q.1 q.2
  exclusive : ∀ q ∈ c.live, ∀ r ∈ c.live, q.1 ≠ r.1 →
    headerFlags c.state.mem (q.1 - allocHeaderSize) = allocFromSlab →
    headerFlags c.state.mem (r.1 - allocHeaderSize) = allocFromSlab →
    let o := objectAt c.state.mem (q.1 - allocHeaderSize)
    let o' := objectAt c.state.mem (r.1 - allocHeaderSize)
    o.1 + o.2 ≤ o'.1 ∨ o'.1 + o'.2 ≤ o.1

variable {slabAlloc slabFree} {P : Objects A} {start e : ℕ} {c : Run A} {bs : List Block}
  {K : ℕ → Option ℕ} {O : Set (ℕ × ℕ)} {s s' : State A} {size p : ℕ} {o : ℕ × ℕ}

/-- The invariant gives the object of a live allocation from a slab cache. -/
theorem Inv.held_object (h : Inv P start e c bs K O) {q : ℕ × ℕ} (hq : q ∈ c.live)
    (hflags : headerFlags c.state.mem (q.1 - allocHeaderSize) = allocFromSlab) :
    HeldObject c.state O q := by
  refine (h.held q hq).resolve_left ?_
  rintro ⟨b, -, -, hqb, hbal⟩
  have hsub : q.1 - allocHeaderSize = b.addr + 32 := by
    unfold allocHeaderSize
    omega
  rw [hsub, hbal.flags] at hflags
  exact absurd hflags (by decide)

/-- In a state with the invariant the slab allocations lie in objects of their own. -/
theorem Inv.slabSafe (h : Inv P start e c bs K O) : SlabSafe c := by
  have hsub : ∀ {q : ℕ × ℕ} {a : ℕ}, q.1 = a + 12 → q.1 - allocHeaderSize = a := by
    intro q a hqa
    unfold allocHeaderSize
    omega
  refine ⟨?_, ?_⟩
  · intro q hq hflags
    obtain ⟨a, i, -, -, -, hqa, hoal⟩ := h.held_object hq hflags
    have hole := hoal.le
    unfold Owned objectAt
    rw [hsub hqa, hoal.index]
    unfold allocHeaderSize
    constructor
    · omega
    · omega
  · intro q hq r hr hne hfq hfr
    obtain ⟨a, i, -, hi, ho, hqa, hoal⟩ := h.held_object hq hfq
    obtain ⟨a', i', -, hi', ho', hra, hoal'⟩ := h.held_object hr hfr
    unfold objectAt
    rw [hsub hqa, hsub hra, hoal.index, hoal'.index]
    have hoo : ((c.state.caches i, a) : ℕ × ℕ) ≠ (c.state.caches i', a') := by
      intro heq
      rw [Prod.mk.injEq] at heq
      exact hne (by rw [hqa, hra, heq.2])
    exact P.disjoint h.owns _ ho _ ho' hoo _ _ (h.caches i hi) (h.caches i' hi')

/-- `kmalloc` returns the address behind the header in the object it takes. -/
theorem kmalloc_slabObject (ho : slabObject slabAlloc s size = some o)
    (hcall : kmalloc slabAlloc s size = some (p, s')) (hp : p ≠ 0) :
    p = o.1 + allocHeaderSize ∧ (Roomy s size ↔ allocHeaderSize + size ≤ o.2) := by
  unfold slabObject at ho
  dsimp only at ho
  split_ifs at ho with hcond
  obtain ⟨hcache, hobj⟩ := hcond
  obtain ⟨i, hclass, -⟩ := cacheFor_eq hcache
  rw [hclass, Option.map_some, Option.some.injEq] at ho
  subst ho
  unfold kmalloc kmallocSlab at hcall
  dsimp only at hcall
  by_cases h0 : size = 0
  · rw [if_pos h0, Option.some.injEq, Prod.mk.injEq] at hcall
    exact absurd hcall.1.symm hp
  rw [if_neg h0, if_neg hcache, if_neg hobj, if_neg (by unfold allocHeaderSize; omega), Option.some.injEq,
    Prod.mk.injEq] at hcall
  refine ⟨hcall.1.symm, fun hr => hr hcache i hclass, fun hle _ j hj => ?_⟩
  obtain rfl := Option.some.inj (hclass.symm.trans hj)
  exact hle

/-- The range of an allocation in a slab object is inside the object if and only if there is room. -/
theorem owned_iff (ho : slabObject slabAlloc s size = some o)
    (hcall : kmalloc slabAlloc s size = some (p, s')) (hp : p ≠ 0) : Owned o p size ↔ Roomy s size := by
  obtain ⟨rfl, hroomy⟩ := kmalloc_slabObject ho hcall hp
  rw [hroomy]
  unfold Owned
  constructor
  · rintro ⟨-, h⟩
    omega
  · intro h
    constructor
    · exact le_rfl
    · omega

/-- A pointer from `kcalloc` is one from `kmalloc`. -/
theorem kmalloc_of_kcalloc {num : ℕ} (hcall : kcalloc slabAlloc s num size = some (p, s')) (hp : p ≠ 0) :
    ∃ s₁, kmalloc slabAlloc s (num * size) = some (p, s₁) := by
  unfold kcalloc at hcall
  dsimp only at hcall
  by_cases hover : num ≠ 0 ∧ size ≠ 0 ∧
      (if num ≠ 0 ∧ size ≠ 0 then Word.mul 64 num size else 0) / num ≠ size
  · rw [if_pos hover] at hcall
    exact absurd (Prod.mk.inj (Option.some.inj hcall)).1.symm hp
  rw [if_neg hover, calloc_total hover] at hcall
  cases hres : kmalloc slabAlloc s (num * size) with
  | none =>
      rw [hres] at hcall
      exact absurd hcall nofun
  | some r =>
      obtain ⟨n, s₁⟩ := r
      rw [hres] at hcall
      dsimp only at hcall
      split_ifs at hcall with hn
      · exact absurd (Prod.mk.inj (Option.some.inj hcall)).1.symm hp
      · obtain rfl := (Prod.mk.inj (Option.some.inj hcall)).1
        exact ⟨s₁, rfl⟩

/-- A pointer from `krealloc` that is not in place is one from `kmalloc`. -/
theorem kmalloc_of_krealloc {ptr : ℕ} (hcall : krealloc slabAlloc slabFree s ptr size = some (p, s'))
    (hp : p ≠ 0) (hplace : ¬ (ptr ≠ 0 ∧ size ≤ headerSize s.mem (ptr - allocHeaderSize))) :
    ∃ s₁, kmalloc slabAlloc s size = some (p, s₁) := by
  unfold krealloc at hcall
  dsimp only at hcall
  split_ifs at hcall with h1 h2 h3 h4
  · exact ⟨s', hcall⟩
  · exact absurd (Prod.mk.inj (Option.some.inj hcall)).1.symm hp
  · exact absurd (Prod.mk.inj (Option.some.inj hcall)).1.symm hp
  · exact absurd ⟨h1, h4⟩ hplace
  · cases hres : kmalloc slabAlloc s size with
    | none =>
        rw [hres] at hcall
        exact absurd hcall nofun
    | some r =>
        obtain ⟨n, s₁⟩ := r
        rw [hres] at hcall
        dsimp only at hcall
        split_ifs at hcall with hn
        · exact absurd (Prod.mk.inj (Option.some.inj hcall)).1.symm hp
        · obtain rfl := (Prod.mk.inj (Option.some.inj hcall)).1
          exact ⟨s₁, rfl⟩

/-- In place `krealloc` returns the pointer it was given, whose object has the room. -/
theorem Inv.krealloc_in_place (h : Inv P start e c bs K O) {ptr : ℕ} (hmem : ptr ∈ c.live.map Prod.fst)
    (hplace : size ≤ headerSize c.state.mem (ptr - allocHeaderSize))
    (hcall : Heap.krealloc slabAlloc slabFree c.state ptr size = some (p, s')) (hp : p ≠ 0)
    (hslab : headerFlags c.state.mem (ptr - allocHeaderSize) &&& allocFromSlab ≠ 0) :
    Owned (objectAt c.state.mem (ptr - allocHeaderSize)) p size := by
  have hptr : ptr ≠ 0 := Inv.ne_zero (s := c.state) h hmem
  obtain ⟨hmagic, hresize⟩ := Inv.header (s := c.state) h hmem
  have hpp : p = ptr := by
    unfold Heap.krealloc at hcall
    dsimp only at hcall
    rw [if_neg hptr, hmagic, if_neg (not_not.mpr rfl)] at hcall
    split_ifs at hcall
    · exact absurd (Prod.mk.inj (Option.some.inj hcall)).1.symm hp
    · exact (Prod.mk.inj (Option.some.inj hcall)).1.symm
  subst hpp
  rcases hresize size hplace with ⟨b, -, -, hqb, hbal⟩ | ⟨a, i, -, -, -, hqa, hoal⟩
  · have hsub : p - allocHeaderSize = b.addr + 32 := by
      dsimp only at hqb
      unfold allocHeaderSize
      omega
    rw [hsub, hbal.flags] at hslab
    exact absurd (by decide) hslab
  · have hole := hoal.le
    dsimp only at hqa hole
    have hsub : p - allocHeaderSize = a := by
      unfold allocHeaderSize
      omega
    unfold Owned objectAt
    rw [hsub, hoal.index]
    unfold allocHeaderSize
    constructor
    · omega
    · omega

/-- The next allocation from a slab cache lies in its object if and only if it leaves room for the header. -/
theorem Inv.owned_iff_fits (h : Inv P start e c bs K O) {op : Op} (hlive : PassesLive c op)
    (hcall : result slabAlloc slabFree c.state op = some (p, s')) (hp : p ≠ 0)
    (ho : taken slabAlloc c.state op = some o) : Owned o p (bytes op) ↔ Fits c op := by
  cases op with
  | malloc size => exact owned_iff ho hcall hp
  | calloc num size =>
      obtain ⟨s₁, hcall'⟩ := kmalloc_of_kcalloc hcall hp
      exact owned_iff ho hcall' hp
  | realloc ptr size =>
      unfold taken at ho
      dsimp only at ho
      by_cases hplace : ptr ≠ 0 ∧ size ≤ headerSize c.state.mem (ptr - allocHeaderSize)
      · rw [if_pos hplace] at ho
        split_ifs at ho with hslab
        obtain rfl := Option.some.inj ho
        have hmem := Or.resolve_left hlive hplace.1
        exact ⟨fun _ => Or.inl hplace, fun _ => h.krealloc_in_place hmem hplace.2 hcall hp hslab⟩
      · rw [if_neg hplace] at ho
        obtain ⟨s₁, hcall'⟩ := kmalloc_of_krealloc hcall hp hplace
        exact (owned_iff ho hcall' hp).trans ⟨Or.inr, fun hf => hf.resolve_left hplace⟩
  | enableSlab => exact absurd ho nofun
  | free ptr => exact absurd ho nofun
  | write a v => exact absurd ho nofun

/-- With working slab caches, in every run whose requests leave room for the header, every live allocation
from a slab cache lies in an object of its own, and the next one does so if and only if it leaves room. -/
theorem slab_ranges_owned (P : Objects A) {slabAlloc : ℕ → Machine A → ℕ × Machine A}
    {slabFree : ℕ → ℕ → Machine A → Machine A}
    {slabCacheCreate : ℕ → ℕ → Machine A → ℕ × Machine A} (hP : P.Working slabAlloc slabFree)
    (hC : P.Creates slabCacheCreate) (s : Machine A) (hs : P.Owns s (fun _ => none) ∅) (start size : ℕ)
    (h0 : 0 < start) (hend : start + size ≤ 2 ^ 64) (hsize : 48 ≤ size) (hlt : size ≤ 2 ^ 63)
    (hregion : ∀ x, start ≤ x → x < start + size → x ∈ P.outside) (ops : List Op)
    (hg : Guarded (step slabAlloc slabFree) (fun c op => Valid c op ∧ Fits c op)
      (boot slabCacheCreate s true start size) ops) :
    ∃ c, exec (step slabAlloc slabFree) (boot slabCacheCreate s true start size) ops = some c ∧
      SlabSafe c ∧ ∀ op p s' o, PassesLive c op → result slabAlloc slabFree c.state op = some (p, s') →
        p ≠ 0 → taken slabAlloc c.state op = some o → (Owned o p (bytes op) ↔ Fits c op) := by
  have hstep : ∀ (c : Run A) op, (∃ bs K O, Inv P start (start + size) c bs K O) →
      Valid c op ∧ Fits c op → ∃ c', step slabAlloc slabFree c op = some c' ∧
        ∃ bs K O, Inv P start (start + size) c' bs K O := by
    rintro c op ⟨bs, K, O, h⟩ ⟨hvalid, hfits⟩
    obtain ⟨c', bs', O', hc', h', -⟩ := h.step hP hend (by omega) hvalid hfits
    exact ⟨c', hc', bs', K, O', h'⟩
  obtain ⟨K, hboot⟩ := inv_boot hs h0 hsize hend hregion fun _ => hC
  obtain ⟨c, hexec, bs, K, O, h⟩ := exec_total hstep ⟨_, K, _, hboot⟩ hg
  exact ⟨c, hexec, h.slabSafe, fun op p s' o hlive hcall hp ho => h.owned_iff_fits hlive hcall hp ho⟩

end calls

/-! ### A slab allocator that takes a page for each object -/

/-- The caches that exist, their number, and the number of pages handed out. -/
structure Arena where
  caches : ℕ → Option ℕ
  count : ℕ
  next : ℕ

/-- The first page. -/
def arenaBase : ℕ := 0x100000000

def arenaAlloc (cache : ℕ) (s : Machine Arena) : ℕ × Machine Arena :=
  match s.pages.caches cache with
  | none => (0, s)
  | some _ => (arenaBase + pageSize * s.pages.next,
      { s with pages := { s.pages with next := s.pages.next + 1 } })

def arenaFree (_ _ : ℕ) (s : Machine Arena) : Machine Arena := s

def arenaCreate (size _ : ℕ) (s : Machine Arena) : ℕ × Machine Arena :=
  if size ≤ pageSize then
    (s.pages.count + 1, { s with pages := { s.pages with
      caches := Function.update s.pages.caches (s.pages.count + 1) (some size)
      count := s.pages.count + 1 } })
  else (0, s)

/-- Every object has its own page. -/
def arena : Objects Arena where
  Owns s K O := s.pages.caches = K ∧ (∀ c, s.pages.count < c → K c = none) ∧
    (∀ c z, K c = some z → z ≤ pageSize) ∧
    (∀ o ∈ O, (∃ z, K o.1 = some z) ∧ ∃ j < s.pages.next, o.2 = arenaBase + pageSize * j) ∧
    ∀ o ∈ O, ∀ o' ∈ O, o.2 = o'.2 → o = o'
  outside := { x | x < arenaBase }
  object := by
    rintro s K O ⟨-, -, -, hobj, -⟩ o ho
    obtain ⟨⟨z, hz⟩, j, -, hj⟩ := hobj o ho
    unfold arenaBase at hj
    refine ⟨by omega, z, hz, fun x hx _ hout => ?_⟩
    have hlt : x < 0x100000000 := hout
    omega
  disjoint := by
    rintro s K O ⟨-, -, hle, hobj, hinj⟩ o ho o' ho' hne z z' hz hz'
    obtain ⟨-, j, -, hj⟩ := hobj o ho
    obtain ⟨-, j', -, hj'⟩ := hobj o' ho'
    have h1 := hle _ _ hz
    have h2 := hle _ _ hz'
    have h3 : o.2 ≠ o'.2 := fun heq => hne (hinj o ho o' ho' heq)
    unfold pageSize at hj hj' h1 h2
    omega
  write h _ _ := h

/-- The arena follows the discipline of the slab functions. -/
theorem arena_working : arena.Working arenaAlloc arenaFree where
  alloc := by
    rintro s K O ⟨rfl, hcount, hle, hobj, hinj⟩ cache z hz
    have hres : arenaAlloc cache s = (arenaBase + pageSize * s.pages.next,
        { s with pages := { s.pages with next := s.pages.next + 1 } }) := by
      unfold arenaAlloc
      rw [hz]
    have hnew : ∀ o ∈ O, o.2 ≠ arenaBase + pageSize * s.pages.next := by
      intro o ho heq
      obtain ⟨-, j, hj, hoj⟩ := hobj o ho
      unfold pageSize at hoj heq
      omega
    rw [hres]
    refine ⟨fun x _ => rfl, fun h0 => ?_, fun _ => ⟨fun hmem => hnew _ hmem rfl, rfl, hcount, hle, ?_, ?_⟩⟩
    · unfold arenaBase at h0
      dsimp only at h0
      omega
    · rintro o (rfl | ho)
      · exact ⟨⟨z, hz⟩, s.pages.next, Nat.lt_succ_self _, rfl⟩
      · obtain ⟨hk, j, hj, hoj⟩ := hobj o ho
        exact ⟨hk, j, Nat.lt_succ_of_lt hj, hoj⟩
    · rintro o (rfl | ho) o' (rfl | ho') heq
      · rfl
      · exact absurd heq.symm (hnew o' ho')
      · exact absurd heq (hnew o ho)
      · exact hinj o ho o' ho' heq
  free := by
    rintro s K O ⟨hK, hcount, hle, hobj, hinj⟩ cache a -
    exact ⟨fun x _ => rfl, hK, hcount, hle, fun o ho => hobj o ho.1, fun o ho o' ho' => hinj o ho.1 o' ho'.1⟩

/-- The arena creates caches as the discipline says. -/
theorem arena_creates : arena.Creates arenaCreate := by
  rintro s K O ⟨rfl, hcount, hle, hobj, hinj⟩ size - -
  by_cases hsize : size ≤ pageSize
  · have hres : arenaCreate size 16 s = (s.pages.count + 1, { s with pages := { s.pages with
        caches := Function.update s.pages.caches (s.pages.count + 1) (some size)
        count := s.pages.count + 1 } }) := by
      unfold arenaCreate
      rw [if_pos hsize]
    rw [hres]
    refine ⟨fun x _ => rfl, fun h0 => absurd h0 (Nat.succ_ne_zero _), fun _ =>
      ⟨hcount _ (Nat.lt_succ_self _), rfl, ?_, ?_, ?_, hinj⟩⟩
    · intro c hc
      dsimp only at hc
      rw [Function.update_of_ne (by omega)]
      exact hcount c (by omega)
    · intro c z hz
      by_cases hc : c = s.pages.count + 1
      · subst hc
        rw [Function.update_self] at hz
        exact (Option.some.inj hz) ▸ hsize
      · rw [Function.update_of_ne hc] at hz
        exact hle c z hz
    · intro o ho
      obtain ⟨⟨z, hz⟩, hj⟩ := hobj o ho
      have hne : o.1 ≠ s.pages.count + 1 := by
        intro heq
        rw [heq, hcount _ (Nat.lt_succ_self _)] at hz
        exact absurd hz nofun
      exact ⟨⟨z, by rw [Function.update_of_ne hne]; exact hz⟩, hj⟩
  · have hres : arenaCreate size 16 s = (0, s) := by
      unfold arenaCreate
      rw [if_neg hsize]
    rw [hres]
    exact ⟨fun x _ => rfl, fun _ => ⟨rfl, hcount, hle, hobj, hinj⟩, fun h0 => absurd rfl h0⟩

/-- The machine before any allocation. -/
def arenaStart : Machine Arena := ⟨fun _ => 0, fun _ => none, 0, 0⟩

/-- At the start nothing of the arena is held. -/
theorem arena_owns : arena.Owns arenaStart (fun _ => none) ∅ :=
  ⟨rfl, fun _ _ => rfl, fun _ _ h => absurd h nofun, fun _ h => absurd h (Set.notMem_empty _),
    fun _ h => absurd h (Set.notMem_empty _)⟩

/-- The heap of `kernel_main`, with slab caches, after an allocation of 100 bytes from one of them. -/
theorem slab_ranges_owned_arena :
    ∃ c, exec (step arenaAlloc arenaFree) (boot arenaCreate arenaStart true 0x80000000 0x1000000)
        [.malloc 100] = some c ∧
      SlabSafe c ∧ ∀ op p s' o, PassesLive c op → result arenaAlloc arenaFree c.state op = some (p, s') →
        p ≠ 0 → taken arenaAlloc c.state op = some o → (Owned o p (bytes op) ↔ Fits c op) := by
  refine slab_ranges_owned arena arena_working arena_creates arenaStart arena_owns _ _ (by norm_num)
    (by norm_num) (by norm_num) (by norm_num) ?_ _ ⟨⟨?_, ?_⟩, fun _ _ => trivial⟩
  · intro x _ hx
    show x < 0x100000000
    omega
  · show 100 + 28 ≤ 2 ^ 64
    norm_num
  · intro _ i hi
    obtain rfl : i = 3 := Option.some.inj (hi.symm.trans (by decide))
    decide

/-- `kmalloc(512)` puts its header and 512 bytes into an object of 512 bytes. -/
theorem kmalloc_overruns : ¬ ∀ ops c op p s' o,
    Guarded (step arenaAlloc arenaFree) Valid (boot arenaCreate arenaStart true 0x80000000 0x1000000) ops →
    exec (step arenaAlloc arenaFree) (boot arenaCreate arenaStart true 0x80000000 0x1000000) ops = some c →
    PassesLive c op → result arenaAlloc arenaFree c.state op = some (p, s') → p ≠ 0 →
    taken arenaAlloc c.state op = some o → Owned o p (bytes op) := by
  intro h
  have hres : ((result arenaAlloc arenaFree
      (boot arenaCreate arenaStart true 0x80000000 0x1000000).state (.malloc 512)).map Prod.fst)
        = some 0x10000000c := by
    decide +kernel
  have htaken : taken arenaAlloc (boot arenaCreate arenaStart true 0x80000000 0x1000000).state (.malloc 512)
      = some (0x100000000, 512) := by
    decide +kernel
  obtain ⟨⟨p, s'⟩, hcall, hp⟩ := Option.map_eq_some_iff.mp hres
  dsimp only at hp
  subst hp
  obtain ⟨-, hle⟩ := h [] _ (.malloc 512) _ s' _ trivial rfl trivial hcall (by norm_num) htaken
  unfold bytes at hle
  norm_num at hle

end PrometheusKernel.Heap
