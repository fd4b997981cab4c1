import PrometheusKernel.Slab.Conservation
import PrometheusKernel.Lib.PrivateBytes

/-!
# The objects of a client are its own

`slab_alloc` and `slab_free` write into the headers of slabs, into the links of free objects, into the array of the CPU
cache and into pages that they have just got: never into an object that a client holds (`Rep.alloc_frame`,
`Rep.free_frame`). So in every run every object contains what its client has written into it (`objects_read_back`).
-/

namespace PrometheusKernel.Slab

open ByteMem LinkedList PrivateBytes Interleaving

variable {A : Type} {P : Ownership A} {F : Set ℕ} {n size : ℕ} {s s' : State A} {g : Ghost} {a o x : ℕ}
  {allocReclaimable allocUnmovable : Machine A → ℕ × Machine A}

/-! ### What the functions write -/

/-- Taking an object writes into the header of its slab. -/
theorem slabAllocFromSlab_frame {m : Mem} (hx : x < a + 8 ∨ a + 20 ≤ x) : (slabAllocFromSlab m a).2 x = m x := by
  unfold slabAllocFromSlab
  split_ifs
  · rfl
  · unfold setInUse setFreeList
    simp (disch := omega) only [store_apply_of_lt_or_le]

/-- Giving an object back writes into the header of its slab and into its first 8 bytes. -/
theorem slabFreeToSlab_frame {m : Mem} (hx : x < a + 8 ∨ a + 20 ≤ x) (ho : x < o ∨ o + 8 ≤ x) :
    slabFreeToSlab m a o x = m x := by
  unfold slabFreeToSlab setInUse setFreeList setLink
  simp (disch := omega) only [store_apply_of_lt_or_le]

/-- `slab_move_to_list` writes links of slabs. -/
theorem slabMoveToList_frame {m m' : Mem} {l : List ℕ} {fromList toList f t : ℕ}
    (hl : IsList (slabNext m) l fromList) (hlt : ∀ b ∈ l, b < 2 ^ 64)
    (hcall : slabMoveToList m fromList toList a = some (f, t, m')) (ha : x < a ∨ a + 8 ≤ x)
    (hx : ∀ b ∈ l, x < b ∨ b + 8 ≤ x) : m' x = m x := by
  unfold slabMoveToList at hcall
  by_cases hhead : fromList = a
  · rw [if_pos hhead] at hcall
    simp only [Option.some.injEq, Prod.mk.injEq] at hcall
    rw [← hcall.2.2]
    exact store_apply_of_lt_or_le ha
  · rw [if_neg hhead, search_walkBound hl hlt] at hcall
    cases hfind : l.find? fun cur => decide (slabNext m cur = a) with
    | none =>
        rw [hfind] at hcall
        simp only [Option.getD_none, Option.some.injEq, Prod.mk.injEq] at hcall
        rw [← hcall.2.2]
        exact store_apply_of_lt_or_le ha
    | some c =>
        have hc := List.mem_of_find?_eq_some hfind
        have hxc := hx c hc
        obtain ⟨c', rfl⟩ : ∃ k, c = k + 1 := ⟨c - 1, by have := hl.ne_zero hc; omega⟩
        rw [hfind] at hcall
        simp only [Option.getD_some, Option.some.injEq, Prod.mk.injEq] at hcall
        rw [← hcall.2.2]
        unfold setNext
        rw [store_apply_of_lt_or_le ha, store_apply_of_lt_or_le hxc]

/-! ### Bytes that clients hold -/

/-- The byte `x` is in an object that a client holds. -/
def Ghost.Holds (g : Ghost) (size x : ℕ) : Prop := ∃ o ∈ g.live, o ≤ x ∧ x < o + size

/-- It is in the page of a slab, behind the header. -/
theorem Core.slab_of_holds (h : Core P F n size s g) (hx : g.Holds size x) :
    ∃ a ∈ g.slabs, a + 32 ≤ x ∧ x < a + 4096 := by
  obtain ⟨o, ho, h1, h2⟩ := hx
  obtain ⟨a, ha, hoa⟩ := h.live_object ho
  have hbo := (h.slab a ha).bounds hoa
  exact ⟨a, ha, by omega, by omega⟩

/-- It is in no header. -/
theorem Core.header_apart (h : Core P F n size s g) (hx : g.Holds size x) (ha : a ∈ g.slabs) :
    x < a ∨ a + 32 ≤ x := by
  obtain ⟨b, hb, h1, h2⟩ := h.slab_of_holds hx
  by_cases hba : b = a
  · omega
  · have := h.apart hb ha hba
    omega

/-- The page allocator leaves it alone. -/
theorem Core.alloc_frame (h : Core P F n size s g) {alloc : Machine A → ℕ × Machine A} (hA : P.Allocator alloc)
    (hx : g.Holds size x) : (alloc s.toMachine).2.mem x = s.mem x := by
  obtain ⟨b, hb, h1, h2⟩ := h.slab_of_holds hx
  exact hA.mem h.owns b (Or.inr (Or.inl hb)) x ⟨by omega, h2⟩

/-- A page that was not held has none of these bytes. -/
theorem Core.fresh_apart (h : Core P F n size s g) (ha : IsFrame a) (hfresh : a ∉ frames F s.cache g)
    (hx : g.Holds size x) : x < a ∨ a + 4096 ≤ x := by
  obtain ⟨b, hb, h1, h2⟩ := h.slab_of_holds hx
  have := (h.isFrame hb).apart ha fun heq => hfresh (heq ▸ Or.inr (Or.inl hb))
  omega

/-- The addresses of slabs are words. -/
theorem Core.slab_lt (h : Core P F n size s g) (p : Place) : ∀ b ∈ g.slabsAt p, b < 2 ^ 64 := by
  intro b hb
  have := (h.isFrame (mem_slabs hb)).lt
  omega

/-! ### `slab_alloc` -/

/-- What the branches of `slab_alloc` do with a slab. -/
theorem Rep.take_frame (h : Rep P F n size s g) (ha : a ∈ g.slabsAt .part) (hcall : slabTake s a = some (o, s'))
    (hx : ∀ b ∈ g.slabs, x < b ∨ b + 32 ≤ x) : s'.mem x = s.mem x := by
  have has := mem_slabs ha
  obtain ⟨o', fr, hfr⟩ := List.exists_cons_of_ne_nil (h.part a ha)
  obtain ⟨m', hres, htotal, -, hcore⟩ := h.toCore.take has hfr
  have hxa := hx a has
  have hm' : m' x = s.mem x := by
    have hframe : (slabAllocFromSlab s.mem a).2 x = s.mem x := slabAllocFromSlab_frame (by omega)
    rwa [hres] at hframe
  unfold slabTake at hcall
  dsimp only at hcall
  rw [hres] at hcall
  dsimp only at hcall
  split_ifs at hcall
  · cases hmove : slabMoveToList m' s.cache.slabsPartial s.cache.slabsFull a with
    | none =>
        rw [hmove] at hcall
        exact absurd hcall.symm (Option.some_ne_none _)
    | some res =>
        obtain ⟨f, t, m''⟩ := res
        rw [hmove] at hcall
        obtain ⟨-, rfl⟩ := Prod.mk.inj (Option.some.inj hcall)
        refine Eq.trans (slabMoveToList_frame (hcore.lists .part) (h.toCore.slab_lt .part) hmove (by omega)
          fun b hb => ?_) hm'
        have := hx b (mem_slabs hb)
        omega
  · obtain ⟨-, rfl⟩ := Prod.mk.inj (Option.some.inj hcall)
    exact hm'

/-- Putting a slab on a list writes its link. -/
theorem pushPartial_frame (s : State A) (hx : x < a ∨ a + 8 ≤ x) : (pushPartial s a).mem x = s.mem x :=
  store_apply_of_lt_or_le hx

/-- `slab_create` writes into the page that it got. -/
theorem Core.create_frame (h : Core P F n size s g) (hA : P.Allocator allocReclaimable)
    (hcall : slabCreate allocReclaimable s = some (a, s')) (hx : g.Holds size x) :
    (a = 0 ∨ x < a ∨ a + 4096 ≤ x) ∧ s'.mem x = s.mem x := by
  have hfits := h.geometry.fits
  have hold := h.alloc_frame hA hx
  obtain ⟨b, hb⟩ : ∃ b, (allocReclaimable s.toMachine).1 = b := ⟨_, rfl⟩
  have hslack : Word.sub 64 (pageSize - slabHeaderSize) (Word.mul 64 n size) = 4064 - n * size := by
    unfold pageSize slabHeaderSize
    rw [Word.mul_eq (by omega), Word.sub_eq (by omega) (by norm_num)]
  unfold slabCreate at hcall
  dsimp only at hcall
  rw [hb, h.objectsPerSlab, h.objectSize, hslack] at hcall
  split_ifs at hcall with hb0 hzero
  · obtain ⟨rfl, rfl⟩ := Prod.mk.inj (Option.some.inj hcall)
    exact ⟨Or.inl rfl, hold⟩
  · obtain ⟨rfl, rfl⟩ := Prod.mk.inj (Option.some.inj hcall)
    have howns := hA.owns h.owns (by rw [hb]; exact hb0)
    have hfresh := hA.fresh h.owns (by rw [hb]; exact hb0)
    rw [hb] at howns hfresh
    have hframe := P.isFrame howns b (Set.mem_insert _ _)
    have hlt := hframe.lt
    have hapart := h.fresh_apart hframe hfresh hx
    refine ⟨Or.inr hapart, ?_⟩
    have hcolor : Word.mul 32 s.cache.colorNext cacheLineSize % (4064 - n * size) < 4064 - n * size :=
      Nat.mod_lt _ (by omega)
    obtain ⟨m', hm', -, -, hout⟩ := @create_mem n size b (allocReclaimable s.toMachine).2.mem
      (b + slabHeaderSize + Word.mul 32 s.cache.colorNext cacheLineSize % (4064 - n * size)) 0
      h.geometry (by omega) (by unfold slabHeaderSize; omega) (by unfold slabHeaderSize; omega) (Nat.two_pow_pos 64)
    have hlast := hout x hapart
    rw [hm'] at hlast
    unfold setNext at hlast
    rw [store_apply_of_lt_or_le (by omega)] at hlast
    exact hlast.trans hold

/-- The slow path of `slab_alloc`. -/
theorem Rep.allocSlow_frame (h : Rep P F n size s g) (hA : P.Allocator allocReclaimable)
    (hcall : slabAllocSlow allocReclaimable s = some (o, s')) (hx : g.Holds size x) : s'.mem x = s.mem x := by
  unfold slabAllocSlow at hcall
  dsimp only at hcall
  by_cases hpart : s.cache.slabsPartial ≠ 0
  · rw [if_pos hpart] at hcall
    have hmem : s.cache.slabsPartial ∈ g.slabsAt .part :=
      ((h.toCore.head_cases .part).resolve_left fun hcon => hpart hcon.1).2
    exact h.take_frame hmem hcall fun b => h.toCore.header_apart hx
  rw [if_neg hpart] at hcall
  by_cases hfree : s.cache.slabsFree ≠ 0
  · rw [if_pos hfree] at hcall
    obtain ⟨g₁, h₁, hmem, hlive, -⟩ := h.reuse hfree
    have hx₁ : g₁.Holds size x := by
      unfold Ghost.Holds
      rwa [hlive]
    have hin : s.cache.slabsFree ∈ g.slabs :=
      mem_slabs ((h.toCore.head_cases .free).resolve_left fun hcon => hfree hcon.1).2
    have hapart := h.toCore.header_apart hx hin
    refine (h₁.take_frame hmem hcall fun b => h₁.toCore.header_apart hx₁).trans ?_
    exact pushPartial_frame _ (by omega)
  rw [if_neg hfree] at hcall
  rcases h.toCore.create hA with ⟨hnone, -⟩ | ⟨s₁, hcreate, -⟩ | ⟨a, base, s₁, hcreate, ha0, hnew, hcore, -⟩
  · rw [hnone] at hcall
    exact absurd hcall.symm (Option.some_ne_none _)
  · obtain ⟨-, hsame⟩ := h.toCore.create_frame hA hcreate hx
    rw [hcreate] at hcall
    obtain ⟨-, rfl⟩ := Prod.mk.inj (Option.some.inj hcall)
    exact hsame
  · obtain ⟨hapart, hsame⟩ := h.toCore.create_frame hA hcreate hx
    have hpage := hapart.resolve_left ha0
    rw [hcreate] at hcall
    dsimp only at hcall
    rw [if_pos ha0] at hcall
    have h₁ := h.add hnew hcore
    refine (h₁.take_frame (a := a) List.mem_cons_self hcall fun b => h₁.toCore.header_apart hx).trans ?_
    exact (pushPartial_frame s₁ (by omega)).trans hsame

/-- `slab_alloc` writes into no object that is held. -/
theorem Rep.alloc_frame (h : Rep P F n size s g) (hA : P.Allocator allocReclaimable)
    (hcall : slabAlloc allocReclaimable s = some (o, s')) (hx : g.Holds size x) : s'.mem x = s.mem x := by
  unfold slabAlloc at hcall
  dsimp only at hcall
  split_ifs at hcall with havail
  · obtain ⟨-, rfl⟩ := Prod.mk.inj (Option.some.inj hcall)
    rfl
  · cases hslow : slabAllocSlow allocReclaimable s with
    | none =>
        rw [hslow] at hcall
        exact absurd hcall.symm (Option.some_ne_none _)
    | some res =>
        obtain ⟨o', s₁⟩ := res
        have hsame := h.allocSlow_frame hA hslow hx
        rw [hslow] at hcall
        obtain ⟨-, rfl⟩ := Prod.mk.inj (Option.some.inj hcall)
        split_ifs
        · exact hsame
        · exact hsame

/-! ### `slab_free` -/

/-- The byte `x` is in an object that a client holds, and that is not `o`. -/
def Ghost.HoldsBut (g : Ghost) (size o x : ℕ) : Prop := ∃ q ∈ g.live, q ≠ o ∧ q ≤ x ∧ x < q + size

/-- A byte of another object that is held is a byte held. -/
theorem Ghost.HoldsBut.holds (h : g.HoldsBut size o x) : g.Holds size x := by
  obtain ⟨q, hq, -, hx⟩ := h
  exact ⟨q, hq, hx⟩

/-- Objects that are held do not overlap. -/
theorem Core.live_apart (h : Core P F n size s g) {q : ℕ} (ho : o ∈ g.live) (hq : q ∈ g.live) (hne : q ≠ o) :
    q + size ≤ o ∨ o + size ≤ q := by
  obtain ⟨a, ha, hoa⟩ := h.live_object ho
  obtain ⟨b, hb, hqb⟩ := h.live_object hq
  by_cases hba : b = a
  · subst hba
    exact object_apart hqb hoa hne
  · have h1 := (h.slab a ha).bounds hoa
    have h2 := (h.slab b hb).bounds hqb
    have := h.apart hb ha hba
    omega

/-- The slow path of `slab_free`. -/
theorem Rep.freeSlow_frame (h : Rep P F n size s g) (ho : o ∈ g.live) (hcall : slabFreeSlow s o = some s')
    (hx : g.HoldsBut size o x) : s'.mem x = s.mem x := by
  obtain ⟨a, hplace, hoa⟩ := h.slab_of_live ho
  have has : a ∈ g.slabs := hplace.elim mem_slabs mem_slabs
  obtain ⟨k, hk⟩ : ∃ k, a = k + 1 := ⟨a - 1, by have := (h.toCore.isFrame has).ne_zero; omega⟩
  obtain ⟨-, hcore⟩ := h.toCore.give has hoa ho
  have hheader := fun b => h.toCore.header_apart hx.holds (a := b)
  have hwide := h.geometry.wide
  have hm' : slabFreeToSlab s.mem a o x = s.mem x := by
    obtain ⟨q, hq, hne, h1, h2⟩ := hx
    have hapart := h.toCore.live_apart ho hq hne
    have := hheader a has
    exact slabFreeToSlab_frame (by omega) (by omega)
  have hmove : ∀ (p : Place) {toList f t : ℕ} {m'' : Mem},
      slabMoveToList (slabFreeToSlab s.mem a o) (s.cache.head p) toList a = some (f, t, m'') → m'' x = s.mem x := by
    intro p toList f t m'' hmove
    have hxa := hheader a has
    refine (slabMoveToList_frame (hcore.lists p) (h.toCore.slab_lt p) hmove (by omega) fun b hb => ?_).trans hm'
    have := hheader b (mem_slabs hb)
    omega
  unfold slabFreeSlow at hcall
  rw [h.find hplace hoa, hk] at hcall
  dsimp only at hcall
  rw [← hk] at hcall
  split_ifs at hcall
  · cases hres : slabMoveToList (slabFreeToSlab s.mem a o) s.cache.slabsFull s.cache.slabsPartial a with
    | none =>
        rw [hres] at hcall
        exact absurd hcall.symm (Option.some_ne_none _)
    | some res =>
        rw [hres] at hcall
        obtain rfl := Option.some.inj hcall
        exact hmove .full hres
  · cases hres : slabMoveToList (slabFreeToSlab s.mem a o) s.cache.slabsPartial s.cache.slabsFree a with
    | none =>
        rw [hres] at hcall
        exact absurd hcall.symm (Option.some_ne_none _)
    | some res =>
        rw [hres] at hcall
        obtain rfl := Option.some.inj hcall
        exact hmove .part hres
  · obtain rfl := Option.some.inj hcall
    exact hm'

/-- `slab_free` writes into no object that is held, but the one it takes back. -/
theorem Rep.free_frame (h : Rep P F n size s g) (hA : P.Allocator allocUnmovable) (ho : o ∈ g.live)
    (hcall : slabFree allocUnmovable s o = some s') (hx : g.HoldsBut size o x) : s'.mem x = s.mem x := by
  have ho0 : o ≠ 0 := h.toCore.object_ne_zero (mem_objects.mpr (h.toCore.live_object ho))
  unfold slabFree at hcall
  rw [if_neg ho0] at hcall
  by_cases hroom : s.cache.available < s.cache.limit
  · rw [if_pos hroom] at hcall
    obtain ⟨h₁, -⟩ := h.cpuArray hA
    have hsame : (ensureCpuArray allocUnmovable s).mem x = s.mem x := by
      unfold ensureCpuArray
      split_ifs
      · exact h.toCore.alloc_frame hA hx.holds
      · rfl
    have havail : (ensureCpuArray allocUnmovable s).cache.available < 16 := by
      have hlimit := h.limit
      unfold slabCpuCacheSize at hlimit
      rw [h₁.available, ← h.available]
      omega
    dsimp only at hcall
    set s₁ := ensureCpuArray allocUnmovable s
    split_ifs at hcall with harr
    · obtain rfl := Option.some.inj hcall
      obtain ⟨b, hb, h1, h2⟩ := h₁.toCore.slab_of_holds hx.holds
      have hapart := h₁.toCore.array_apart hb harr
      exact (store_apply_of_lt_or_le (by omega)).trans hsame
    · exact (h₁.freeSlow_frame ho hcall hx).trans hsame
  · rw [if_neg hroom] at hcall
    exact h.freeSlow_frame ho hcall hx

/-! ### Runs with the bytes of the objects -/

/-- A run that carries along what the clients know. -/
structure Observed (A : Type) extends Run A where
  /-- The bytes of the objects, by address and offset. -/
  known : Known

/-- What the clients know after the operation: nothing of a new object. -/
def knownAfter (allocReclaimable : Machine A → ℕ × Machine A) (c : Observed A) : Op → Known
  | .alloc =>
      match slabAlloc allocReclaimable c.state with
      | none => c.known
      | some (o, _) => Function.update c.known o fun _ => none
  | .free _ => c.known
  | .write x byte => noteByte c.state.cache.objectSize c.live c.known x byte

/-- One operation. -/
def observedStep (allocReclaimable allocUnmovable : Machine A → ℕ × Machine A) (c : Observed A) (op : Op) :
    Option (Observed A) :=
  (step allocReclaimable allocUnmovable c.toRun op).map fun c' => ⟨c', knownAfter allocReclaimable c op⟩

/-- The invariant, and memory holds what the clients know. -/
def Reads (P : Ownership A) (F : Set ℕ) (n size : ℕ) (c : Observed A) : Prop :=
  (∃ g, Inv P F n size c.toRun g) ∧ Agrees c.state.mem (ranges size c.live) c.known

variable {c c' : Observed A}

/-- No object is live twice. -/
theorem Inv.nodup_live {c : Run A} (h : Inv P F n size c g) : c.live.Nodup := by
  rw [← h.live]
  exact (List.nodup_append.mp (List.nodup_append.mp h.rep.toCore.nodup_places).1).1

/-- The bytes of a live object are held. -/
theorem Inv.holds {c : Run A} (h : Inv P F n size c g) (ho : o ∈ c.live) {i : ℕ} (hi : i < size) :
    g.Holds size (o + i) := by
  rw [← h.live] at ho
  exact ⟨o, ho, Nat.le_add_right _ _, Nat.add_lt_add_left hi o⟩

/-- `slab_alloc` leaves the bytes of the live objects alone. -/
theorem Reads.alloc (h : Reads P F n size c) (hR : P.Allocator allocReclaimable)
    (hstep : observedStep allocReclaimable allocUnmovable c .alloc = some c') : Reads P F n size c' := by
  obtain ⟨⟨g, hinv⟩, hagrees⟩ := h
  obtain ⟨c₁, hc₁, rfl⟩ := Option.map_eq_some_iff.mp hstep
  rcases @Inv.alloc A allocReclaimable allocUnmovable P F n size c.toRun g hinv hR with
    ⟨hnone, -⟩ | ⟨c₂, g', hc₂, hinv', -⟩
  · rw [hnone] at hc₁
    exact absurd hc₁.symm (Option.some_ne_none _)
  obtain rfl := Option.some.inj (hc₂.symm.trans hc₁)
  obtain ⟨⟨o, s'⟩, hcall, hrun⟩ := Option.map_eq_some_iff.mp hc₂
  refine ⟨⟨g', hinv'⟩, ?_⟩
  have hknown : knownAfter allocReclaimable c .alloc = Function.update c.known o fun _ => none := by
    unfold knownAfter
    dsimp only
    rw [hcall]
  have hkeep : Agrees s'.mem (ranges size c.live) c.known := hagrees.keep fun q hq => by
    obtain ⟨ho, hsize⟩ := mem_ranges.mp hq
    exact ⟨hq, fun i hi => hinv.rep.alloc_frame hR hcall (hinv.holds ho (hsize ▸ hi))⟩
  have hnodup := hinv'.nodup_live
  subst hrun
  show Agrees s'.mem (ranges size (if o = 0 then c.live else o :: c.live)) (knownAfter allocReclaimable c .alloc)
  rw [hknown]
  by_cases ho : o = 0
  · rw [if_pos ho]
    refine hkeep.forget (notMem_ranges fun hmem => ?_)
    rw [← hinv.live] at hmem
    exact hinv.rep.toCore.object_ne_zero (mem_objects.mpr (hinv.rep.toCore.live_object hmem)) ho
  · dsimp only at hnodup
    rw [if_neg ho] at hnodup ⊢
    exact hkeep.cons (notMem_ranges (List.nodup_cons.mp hnodup).1) fun _ _ b hb =>
      absurd hb.symm (Option.some_ne_none b)

/-- `slab_free` leaves the bytes of the other live objects alone. -/
theorem Reads.free (h : Reads P F n size c) (hU : P.Allocator allocUnmovable) {obj : ℕ} (hobj : obj ∈ c.live)
    (hstep : observedStep allocReclaimable allocUnmovable c (.free obj) = some c') : Reads P F n size c' := by
  obtain ⟨⟨g, hinv⟩, hagrees⟩ := h
  obtain ⟨c₁, hc₁, rfl⟩ := Option.map_eq_some_iff.mp hstep
  obtain ⟨c₂, g', hc₂, hinv', -⟩ :=
    @Inv.free A allocReclaimable allocUnmovable P F n size c.toRun g hinv hU obj hobj
  obtain rfl := Option.some.inj (hc₂.symm.trans hc₁)
  obtain ⟨s', hcall, rfl⟩ := Option.map_eq_some_iff.mp hc₂
  refine ⟨⟨g', hinv'⟩, ?_⟩
  show Agrees s'.mem (ranges size (c.live.erase obj)) c.known
  refine hagrees.keep fun q hq => ?_
  obtain ⟨ho, hsize⟩ := mem_ranges.mp hq
  obtain ⟨hne, ho'⟩ := hinv.nodup_live.mem_erase_iff.mp ho
  refine ⟨mem_ranges.mpr ⟨ho', hsize⟩, fun i hi => ?_⟩
  rw [← hinv.live] at ho' hobj
  exact hinv.rep.free_frame hU hobj hcall ⟨q.1, ho', hne, Nat.le_add_right _ _, by omega⟩

/-- A write is read back. -/
theorem Reads.write (h : Reads P F n size c) {addr : ℕ} {byte : UInt8} (hvalid : Valid c.toRun (.write addr byte))
    (hstep : observedStep allocReclaimable allocUnmovable c (.write addr byte) = some c') : Reads P F n size c' := by
  obtain ⟨⟨g, hinv⟩, hagrees⟩ := h
  have hx : ∃ o ∈ c.live, o ≤ addr ∧ addr < o + size := by
    have hsize := hinv.rep.objectSize
    rw [← hsize]
    exact hvalid
  obtain rfl := Option.some.inj hstep
  obtain ⟨o, ho, hx1, hx2⟩ := id hx
  refine ⟨⟨g, hinv.rep.write (hinv.live ▸ ho) hx1 hx2 byte, hinv.live, hinv.counts⟩, ?_⟩
  have hwrite := hagrees.writeByte hx (fun o ho q hq hne => ?_) byte
  · rw [← hinv.rep.objectSize] at hwrite ⊢
    exact hwrite
  · rw [← hinv.live] at ho hq
    exact hinv.rep.toCore.live_apart ho hq hne

/-- In every state that a valid run on a cache reaches, whatever the page allocators do, every object that is held
contains what its client has written into it. -/
theorem objects_read_back (P : Ownership A) {allocReclaimable allocUnmovable : Machine A → ℕ × Machine A}
    (hR : P.Allocator allocReclaimable) (hU : P.Allocator allocUnmovable) {M : Machine A} {F : Set ℕ}
    (hM : P.Owns M F) (size align : ℕ) (hwide : 8 ≤ (newCache size align).objectSize)
    (hpage : slabHeaderSize + (newCache size align).objectSize ≤ pageSize) (ops : List Op)
    (hv : Guarded (observedStep allocReclaimable allocUnmovable) (fun c op => Valid c.toRun op)
      ⟨fresh M size align, fun _ _ => none⟩ ops) (c : Observed A)
    (hexec : Interleaving.exec (observedStep allocReclaimable allocUnmovable) ⟨fresh M size align, fun _ _ => none⟩ ops
      = some c) :
    ∀ o ∈ c.live, ∀ i < (newCache size align).objectSize, ∀ b, c.known o i = some b → c.state.mem (o + i) = b := by
  have hfresh := inv_fresh (M := M) hM (geometry_newCache hwide hpage)
  obtain ⟨n, hn⟩ : ∃ n, (newCache size align).objectsPerSlab = n := ⟨_, rfl⟩
  obtain ⟨z, hz⟩ : ∃ z, (newCache size align).objectSize = z := ⟨_, rfl⟩
  rw [hn, hz] at hfresh
  rw [hz]
  have hstep : ∀ (c : Observed A) (op : Op) (c' : Observed A), Reads P F n z c → Valid c.toRun op →
      observedStep allocReclaimable allocUnmovable c op = some c' → Reads P F n z c' := by
    intro c op c' h hvalid hstep
    cases op with
    | alloc => exact h.alloc hR hstep
    | free obj => exact h.free hU hvalid hstep
    | write addr byte => exact h.write hvalid hstep
  obtain ⟨-, hagrees⟩ := invariant (I := Reads P F n z) hstep ⟨⟨_, hfresh⟩, agrees_nil⟩ hv hexec
  exact fun o ho i hi b hb => hagrees.read ho hi hb

/-- On the real page allocator with eight pages: an object of 64 bytes is taken and written, and another one taken. -/
theorem objects_read_back_buddy :
    ∃ c, Interleaving.exec (observedStep Pmm.buddyFrame Pmm.buddyFrame)
        ⟨fresh (Pmm.booted (fun _ => 0) 0x1000 0x8000) 64 8, fun _ _ => none⟩ [.alloc, .write 0x1fa5 42, .alloc] =
          some c ∧
      c.live = [0x1f60, 0x1fa0] ∧ c.known 0x1fa0 5 = some 42 ∧
      ∀ o ∈ c.live, ∀ i < (newCache 64 8).objectSize, ∀ b, c.known o i = some b → c.state.mem (o + i) = b := by
  have hu : Buddy.Usable 0x1000 0x8000 := ⟨by norm_num, rfl, by norm_num⟩
  have hend : (Interleaving.exec (observedStep Pmm.buddyFrame Pmm.buddyFrame)
      ⟨fresh (Pmm.booted (fun _ => 0) 0x1000 0x8000) 64 8, fun _ _ => none⟩ [.alloc, .write 0x1fa5 42, .alloc]).map
      (fun c => (c.live, c.known 0x1fa0 5)) = some ([0x1f60, 0x1fa0], some 42) := by
    decide +kernel
  obtain ⟨c, hexec, hc⟩ := Option.map_eq_some_iff.mp hend
  obtain ⟨hlive, hknown⟩ := Prod.mk.inj hc
  refine ⟨c, hexec, hlive, hknown, objects_read_back (Pmm.source hu) (Pmm.buddyFrame_allocator hu)
    (Pmm.buddyFrame_allocator hu) (Pmm.owns_booted hu fun _ => 0) 64 8 (by decide) (by decide)
    [.alloc, .write 0x1fa5 42, .alloc]
    ⟨trivial, fun c₁ hc₁ => ⟨?_, fun _ _ => ⟨trivial, fun _ _ => trivial⟩⟩⟩ c hexec⟩
  have hfirst : (observedStep Pmm.buddyFrame Pmm.buddyFrame
      ⟨fresh (Pmm.booted (fun _ => 0) 0x1000 0x8000) 64 8, fun _ _ => none⟩ .alloc).map
      (fun c => (c.live, c.state.cache.objectSize)) = some ([0x1fa0], 64) := by
    decide +kernel
  rw [hc₁, Option.map_some, Option.some.injEq] at hfirst
  obtain ⟨hlive₁, hsize₁⟩ := Prod.mk.inj hfirst
  refine ⟨0x1fa0, ?_, by norm_num, ?_⟩
  · rw [hlive₁]
    exact List.mem_singleton_self _
  · rw [hsize₁]
    norm_num

end PrometheusKernel.Slab
