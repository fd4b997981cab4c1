import PrometheusKernel.Buddy.Run
import PrometheusKernel.Lib.PrivateBytes
import PrometheusKernel.Lib.Interleaving

/-!
# The pages of a client are its own

An `Observed` run carries along what the clients know of the bytes in their blocks: nothing after
`buddy_alloc_pages`, zeros after `buddy_alloc_pages_flags` with `GFP_ZERO`, and what they wrote since. Memory agrees
with it in every state of every valid run (`pages_read_back`): the links of the free blocks, which the allocator
writes into the pages that it manages, are never written into a block that is held.
-/

namespace PrometheusKernel.Buddy

open ByteMem LinkedList BuddySystem PrivateBytes Interleaving

/-! ### Runs with the bytes of the blocks -/

/-- A run that carries along what the clients know. -/
structure Observed extends Run where
  /-- The bytes of the blocks, by address and offset. -/
  known : Known

/-- The ranges of the blocks. -/
def extents (live : List (ℕ × ℕ)) : List (ℕ × ℕ) := live.map fun b => (b.1, 2 ^ b.2 * pageSize)

/-- The block that holds the byte at `x`. -/
def holderOf (live : List (ℕ × ℕ)) (x : ℕ) : Option (ℕ × ℕ) := live.find? fun b => InBlock b x

/-- What the clients know after the operation returned `a`. -/
def knownAfter (c : Observed) (a : ℕ) : Op → Known
  | .alloc _ _ => Function.update c.known a fun _ => none
  | .allocFlags _ flags => Function.update c.known a fun _ => if flags &&& gfpZero ≠ 0 then some 0 else none
  | .free _ _ => c.known
  | .write x byte =>
      match holderOf c.live x with
      | none => c.known
      | some b => noteWrite c.known b.1 (x - b.1) byte

/-- The address that the operation returns. -/
def returned (c : Run) : Op → ℕ
  | .alloc order zoneType => (buddyAllocPages c.state order zoneType).1
  | .allocFlags order flags => (buddyAllocPagesFlags c.state order flags).1
  | _ => 0

/-- One operation. -/
def observedStep (c : Observed) (op : Op) : Option Observed :=
  (step c.toRun op).map fun c' => ⟨c', knownAfter c (returned c.toRun op) op⟩

/-! ### The invariant -/

variable {r : Region} {c : Run} {lists : ℕ → List ℕ} {S : BuddySystem r.pages maxOrder} {known : Known}

/-- The page of a byte of a block. -/
theorem ind_of_inBlock {i k x : ℕ} (hx : InBlock (r.addr i, k) x) : ind (i, k) ((x - r.start) / pageSize) = 1 := by
  unfold InBlock Region.addr pageSize at hx
  unfold pageSize
  dsimp only at hx
  refine ind_eq_one_iff.mpr ⟨?_, ?_⟩ <;> dsimp only <;> omega

/-- The byte `x` of a used block lies in no page that the used blocks leave uncovered. -/
theorem outside_of_inBlock {U : Finset Block} {i k n x : ℕ} (hb : (i, k) ∈ U) (hx : InBlock (r.addr i, k) x) :
    Outside r n U x := by
  intro p _ hcov
  by_contra hcon
  have hpage : (x - r.start) / pageSize = p := by
    unfold Region.addr pageSize at hcon
    unfold pageSize
    omega
  have hind := ind_of_inBlock hx
  rw [hpage] at hind
  have hle := ind_le_coverage hb p
  omega

/-- Blocks that are held do not overlap. -/
theorem Inv.eq_of_inBlock (h : Inv r c lists S) {b d : ℕ × ℕ} (hb : b ∈ c.live) (hd : d ∈ c.live) {x : ℕ}
    (hbx : InBlock b x) (hdx : InBlock d x) : b = d := by
  obtain ⟨i, hi, hiused, -⟩ := h.live b hb
  obtain ⟨j, hj, hjused, -⟩ := h.live d hd
  obtain ⟨a, k⟩ := b
  obtain ⟨a', k'⟩ := d
  dsimp only at hi hj hiused hjused
  subst hi hj
  obtain ⟨rfl, rfl⟩ := Prod.mk.inj (S.used_eq_of_meet hiused hjused (ind_of_inBlock hbx) (ind_of_inBlock hdx))
  rfl

/-- A block contains its first byte. -/
theorem inBlock_self (b : ℕ × ℕ) : InBlock b b.1 := by
  have hpos : 0 < 2 ^ b.2 := Nat.two_pow_pos _
  unfold InBlock pageSize
  omega

/-- What keeps the used blocks `U` keeps the bytes of the held blocks among them. -/
theorem Inv.keep (h : Inv r c lists S) (hagrees : Agrees c.state.mem (extents c.live) known) {U : Finset Block}
    {live : List (ℕ × ℕ)} {m : Mem} (hlive : ∀ b ∈ live, b ∈ c.live ∧ ∀ i, b.1 = r.addr i → (i, b.2) ∈ U)
    (hmem : ∀ x, Outside r r.pages U x → m x = c.state.mem x) : Agrees m (extents live) known := by
  refine hagrees.keep fun q hq => ?_
  obtain ⟨b, hb, rfl⟩ := List.mem_map.mp hq
  obtain ⟨hb', hU⟩ := hlive b hb
  refine ⟨List.mem_map.mpr ⟨b, hb', rfl⟩, fun i hi => hmem _ ?_⟩
  obtain ⟨j, hj, -, -⟩ := h.live b hb'
  refine outside_of_inBlock (hU j hj) ?_
  unfold InBlock
  dsimp only at hi ⊢
  omega

/-- The used block of a block that is held. -/
theorem Inv.used_of_addr (h : Inv r c lists S) {b : ℕ × ℕ} (hb : b ∈ c.live) {i : ℕ} (hi : b.1 = r.addr i) :
    (i, b.2) ∈ S.used := by
  obtain ⟨j, hj, hjused, -⟩ := h.live b hb
  rwa [r.addr_injective (hi.symm.trans hj)]

/-- A new block, and the bytes that are written into it before the client has it. -/
theorem Inv.observe_gain (h : Inv r c lists S) (hagrees : Agrees c.state.mem (extents c.live) known) {s' : State}
    {i order : ℕ} {lists' : ℕ → List ℕ} {S' : BuddySystem r.pages maxOrder} {m : Mem}
    (hmem : ∀ x, Outside r r.pages S.used x → s'.mem x = c.state.mem x)
    (hinv : Inv r ⟨s', (r.addr i, order) :: c.live⟩ lists' S')
    (hm : ∀ x, ¬ InBlock (r.addr i, order) x → m x = s'.mem x) {f : ℕ → Option UInt8}
    (hf : ∀ j < 2 ^ order * pageSize, ∀ b, f j = some b → m (r.addr i + j) = b) :
    Inv r ⟨{ s' with mem := m }, (r.addr i, order) :: c.live⟩ lists' S' ∧
      Agrees m (extents ((r.addr i, order) :: c.live)) (Function.update known (r.addr i) f) := by
  have hne : (r.addr i, order) ∉ c.live := (List.nodup_cons.mp hinv.nodup).1
  have hapart : ∀ b ∈ c.live, ∀ x, InBlock b x → ¬ InBlock (r.addr i, order) x := fun b hb x hbx hx =>
    hne (hinv.eq_of_inBlock (List.mem_cons_of_mem _ hb) List.mem_cons_self hbx hx ▸ hb)
  refine ⟨hinv.write fun x hx => hm x (hx _ List.mem_cons_self), Agrees.cons ?_ ?_ hf⟩
  · have hold : Agrees s'.mem (extents c.live) known :=
      h.keep hagrees (fun b hb => ⟨hb, fun j hj => h.used_of_addr hb hj⟩) hmem
    refine hold.keep fun q hq => ⟨hq, fun j hj => hm _ ?_⟩
    obtain ⟨b, hb, rfl⟩ := List.mem_map.mp hq
    dsimp only at hj ⊢
    refine hapart b hb _ ?_
    unfold InBlock
    omega
  · rw [List.map_map, List.mem_map]
    rintro ⟨b, hb, hba⟩
    dsimp only [Function.comp_apply] at hba
    refine hapart b hb b.1 (inBlock_self b) ?_
    rw [hba]
    exact inBlock_self (r.addr i, order)

/-- No block at address 0 is held. -/
theorem Inv.zero_notMem (h : Inv r c lists S) : (0 : ℕ) ∉ (extents c.live).map Prod.fst := by
  rw [extents, List.map_map, List.mem_map]
  rintro ⟨b, hb, hb0⟩
  obtain ⟨-, -, -, hne⟩ := h.live b hb
  exact hne hb0

/-! ### The operations -/

/-- After `buddy_alloc_pages` the bytes of the blocks held are what they were. -/
theorem Inv.observe_alloc (h : Inv r c lists S) (hagrees : Agrees c.state.mem (extents c.live) known)
    (order zoneType : ℕ) :
    ∃ lists' S', Inv r ⟨(buddyAllocPages c.state order zoneType).2,
        gain c.live (buddyAllocPages c.state order zoneType).1 order⟩ lists' S' ∧
      Agrees (buddyAllocPages c.state order zoneType).2.mem
        (extents (gain c.live (buddyAllocPages c.state order zoneType).1 order))
        (Function.update known (buddyAllocPages c.state order zoneType).1 fun _ => none) := by
  rcases h.alloc order zoneType with hfail | ⟨i, lists', S', hres, h0, -, -, hmem, hinv⟩
  · rw [hfail]
    exact ⟨lists, S, h, hagrees.forget h.zero_notMem⟩
  · rw [hres, gain_of_ne h0]
    obtain ⟨hinv', hagrees'⟩ := h.observe_gain hagrees (f := fun _ => none) hmem hinv (fun _ _ => rfl) fun _ _ b hb =>
      absurd hb.symm (Option.some_ne_none b)
    exact ⟨lists', S', hinv', hagrees'⟩

/-- `buddy_alloc_pages_flags` clears the block where `GFP_ZERO` asks for it. -/
theorem buddyAllocPagesFlags_cases (s : State) {order : ℕ} (horder : order ≤ maxOrder) (flags : ℕ) :
    (buddyAllocPagesFlags s order flags).1 = (buddyAllocPages s order (zoneOfFlags flags)).1 ∧
      ((buddyAllocPages s order (zoneOfFlags flags)).1 = 0 →
        (buddyAllocPagesFlags s order flags).2 = (buddyAllocPages s order (zoneOfFlags flags)).2) ∧
      ((buddyAllocPages s order (zoneOfFlags flags)).1 ≠ 0 → (buddyAllocPagesFlags s order flags).2 =
        { (buddyAllocPages s order (zoneOfFlags flags)).2 with
          mem := if flags &&& gfpZero ≠ 0 then
              fill (2 ^ order * pageSize) (buddyAllocPages s order (zoneOfFlags flags)).2.mem
                (buddyAllocPages s order (zoneOfFlags flags)).1 0
            else (buddyAllocPages s order (zoneOfFlags flags)).2.mem }) := by
  have hpow : 2 ^ order ≤ 2 ^ maxOrder := Nat.pow_le_pow_right (by norm_num) horder
  have hmul : Word.mul 64 (1 <<< order) pageSize = 2 ^ order * pageSize := by
    rw [Nat.one_shiftLeft]
    exact Word.mul_eq (by unfold maxOrder at hpow; unfold pageSize; omega)
  unfold buddyAllocPagesFlags
  dsimp only
  rw [hmul]
  by_cases h0 : (buddyAllocPages s order (zoneOfFlags flags)).1 = 0
  · rw [if_pos h0]
    exact ⟨h0.symm, fun _ => rfl, fun hne => absurd h0 hne⟩
  · rw [if_neg h0]
    by_cases hz : flags &&& gfpZero ≠ 0
    · simp only [if_pos hz]
      exact ⟨trivial, fun h => absurd h h0, fun _ => trivial⟩
    · simp only [if_neg hz]
      exact ⟨trivial, fun _ => trivial, fun _ => trivial⟩

/-- `buddy_alloc_pages_flags` only clears the block that it returns. -/
theorem Inv.observe_allocFlags (h : Inv r c lists S) (hagrees : Agrees c.state.mem (extents c.live) known)
    (order flags : ℕ) :
    ∃ lists' S', Inv r ⟨(buddyAllocPagesFlags c.state order flags).2,
        gain c.live (buddyAllocPagesFlags c.state order flags).1 order⟩ lists' S' ∧
      Agrees (buddyAllocPagesFlags c.state order flags).2.mem
        (extents (gain c.live (buddyAllocPagesFlags c.state order flags).1 order))
        (Function.update known (buddyAllocPagesFlags c.state order flags).1 fun _ =>
          if flags &&& gfpZero ≠ 0 then some 0 else none) := by
  by_cases horder : order ≤ maxOrder
  · obtain ⟨hptr, hnull, hfill⟩ := buddyAllocPagesFlags_cases c.state horder flags
    rcases h.alloc order (zoneOfFlags flags) with hfail | ⟨i, lists', S', hres, h0, -, -, hmem, hinv⟩
    · rw [hptr, hnull (by rw [hfail]), hfail]
      exact ⟨lists, S, h, hagrees.forget h.zero_notMem⟩
    · rw [hptr, hfill (by rw [hres]; exact h0), hres, gain_of_ne h0]
      refine ⟨lists', S', h.observe_gain hagrees hmem hinv (fun x hx => ?_) fun j hj b hb => ?_⟩
      · split_ifs
        · rw [fill_apply, if_neg]
          exact hx
        · rfl
      · split_ifs at hb with hz
        rw [if_pos hz, fill_apply, if_pos ⟨by omega, by omega⟩]
        exact Option.some.inj hb
  · have hfail : buddyAllocPages c.state order (zoneOfFlags flags) = (0, c.state) := by
      unfold buddyAllocPages
      rw [if_pos (by omega)]
    have hflags : buddyAllocPagesFlags c.state order flags = (0, c.state) := by
      unfold buddyAllocPagesFlags
      simp [hfail]
    rw [hflags]
    exact ⟨lists, S, h, hagrees.forget h.zero_notMem⟩

/-- A release leaves the bytes of the other blocks alone. -/
theorem Inv.observe_free (h : Inv r c lists S) (hagrees : Agrees c.state.mem (extents c.live) known)
    {address order : ℕ} (hv : (address, order) ∈ c.live) :
    ∃ c' lists' S', Buddy.step c (.free address order) = some c' ∧ Inv r c' lists' S' ∧
      Agrees c'.state.mem (extents c'.live) known := by
  have hvalid : c.Valid (.free address order) := hv
  obtain ⟨c', lists', S', hstep, hinv, -⟩ := h.step hvalid
  refine ⟨c', lists', S', hstep, hinv, ?_⟩
  obtain ⟨i, hi, hused, h0⟩ := h.live _ hv
  dsimp only at hi hused h0
  subst hi
  have hrest : ∀ b ∈ c.live.erase (r.addr i, order),
      b ∈ c.live ∧ ∀ j, b.1 = r.addr j → (j, b.2) ∈ S.used.erase (i, order) := by
    intro b hb
    obtain ⟨hne, hb'⟩ := h.nodup.mem_erase_iff.mp hb
    refine ⟨hb', fun j hj => Finset.mem_erase.mpr ⟨fun heq => hne ?_, h.used_of_addr hb' hj⟩⟩
    obtain ⟨rfl, hk⟩ := Prod.mk.inj heq
    exact Prod.ext hj hk
  by_cases hacc : Accepts r
  · obtain ⟨s', lists₁, S₁, hcall, hrel⟩ := h.rep.free (lostCount_le r) hacc.1 hacc.2 h.bits hused h0
    have hmem := hrel.mem
    obtain rfl : ⟨s', c.live.erase (r.addr i, order)⟩ = c' := by
      simpa [Buddy.step, hcall] using hstep
    exact h.keep hagrees hrest hmem
  · have hrej : r.start % pageSize ≠ 0 ∨ r.start + r.size = 2 ^ 64 := by
      have hfits := r.fits
      unfold Accepts at hacc
      omega
    obtain rfl : ⟨c.state, c.live.erase (r.addr i, order)⟩ = c' := by
      simpa [Buddy.step, h.rep.free_rejected hrej] using hstep
    exact h.keep hagrees hrest fun _ _ => rfl

/-- A write changes the block that contains its address, and no other. -/
theorem Inv.observe_write (h : Inv r c lists S) (hagrees : Agrees c.state.mem (extents c.live) known) {x : ℕ}
    (byte : UInt8) {b : ℕ × ℕ} (hb : b ∈ c.live) (hx : InBlock b x) :
    Inv r ⟨{ c.state with mem := Function.update c.state.mem x byte }, c.live⟩ lists S ∧
      Agrees (Function.update c.state.mem x byte) (extents c.live) (noteWrite known b.1 (x - b.1) byte) := by
  have hout : ∀ y, (∀ b ∈ c.live, ¬ InBlock b y) → Function.update c.state.mem x byte y = c.state.mem y := by
    intro y hy
    refine Function.update_of_ne ?_ _ _
    rintro rfl
    exact hy b hb hx
  refine ⟨h.write hout, ?_⟩
  have hx' : x = b.1 + (x - b.1) := by
    unfold InBlock at hx
    omega
  have hwrite := hagrees.write (q := (b.1, 2 ^ b.2 * pageSize)) (i := x - b.1)
    (by unfold InBlock at hx; dsimp only; omega) byte fun q hq hne => by
      -- blocks that overlap share the later one of their addresses
      obtain ⟨d, hd, rfl⟩ := List.mem_map.mp hq
      dsimp only at hne ⊢
      by_contra hcon
      have hpos : 0 < 2 ^ b.2 * pageSize := Nat.mul_pos (Nat.two_pow_pos _) (by unfold pageSize; norm_num)
      have hpos' : 0 < 2 ^ d.2 * pageSize := Nat.mul_pos (Nat.two_pow_pos _) (by unfold pageSize; norm_num)
      have heq := h.eq_of_inBlock hb hd (x := max b.1 d.1) (by unfold InBlock; omega) (by unfold InBlock; omega)
      exact hne (heq ▸ rfl)
  dsimp only at hwrite
  rwa [← hx'] at hwrite

/-- One valid operation. -/
theorem Inv.observe {c : Observed} (h : Inv r c.toRun lists S) (hagrees : Agrees c.state.mem (extents c.live) c.known)
    {op : Op} (hv : c.toRun.Valid op) :
    ∃ c' lists' S', observedStep c op = some c' ∧ Inv r c'.toRun lists' S' ∧
      Agrees c'.state.mem (extents c'.live) c'.known := by
  obtain ⟨c, known⟩ := c
  dsimp only at h hagrees hv
  cases op with
  | alloc order zoneType =>
      obtain ⟨lists', S', hinv, hagrees'⟩ := h.observe_alloc hagrees order zoneType
      exact ⟨_, lists', S', rfl, hinv, hagrees'⟩
  | allocFlags order flags =>
      obtain ⟨lists', S', hinv, hagrees'⟩ := h.observe_allocFlags hagrees order flags
      exact ⟨_, lists', S', rfl, hinv, hagrees'⟩
  | free address order =>
      obtain ⟨c', lists', S', hstep, hinv, hagrees'⟩ := h.observe_free hagrees hv
      exact ⟨⟨c', known⟩, lists', S', by simp [observedStep, hstep, knownAfter], hinv, hagrees'⟩
  | write x byte =>
      obtain ⟨b₀, hb₀, hx₀⟩ := hv
      obtain ⟨b, hfind⟩ : ∃ b, holderOf c.live x = some b :=
        Option.isSome_iff_exists.mp (List.find?_isSome.mpr ⟨b₀, hb₀, by simpa using hx₀⟩)
      have hx : InBlock b x := by simpa using List.find?_some hfind
      obtain ⟨hinv, hagrees'⟩ := h.observe_write hagrees byte (List.mem_of_find?_eq_some hfind) hx
      refine ⟨⟨⟨_, c.live⟩, noteWrite known b.1 (x - b.1) byte⟩, lists, S, ?_, hinv, hagrees'⟩
      simp [observedStep, Buddy.step, knownAfter, hfind]

/-- In every state that a valid run of the allocator reaches, on any region, every block that is held contains what
its client knows of it: the zeros of `GFP_ZERO`, and the bytes that the client wrote. -/
theorem pages_read_back (m : Mem) (r : Region) (ops : List Op)
    (hv : Guarded observedStep (fun c op => c.toRun.Valid op) ⟨boot m r.start r.size, fun _ _ => none⟩ ops) :
    ∃ c, Interleaving.exec observedStep ⟨boot m r.start r.size, fun _ _ => none⟩ ops = some c ∧
      ∀ b ∈ c.live, ∀ i < 2 ^ b.2 * pageSize, ∀ v, c.known b.1 i = some v → c.state.mem (b.1 + i) = v := by
  obtain ⟨lists, S, hboot, -, -⟩ := inv_boot m r
  have hstep : ∀ (c : Observed) op,
      (∃ lists S, Inv r c.toRun lists S ∧ Agrees c.state.mem (extents c.live) c.known) → c.toRun.Valid op →
      ∃ c', observedStep c op = some c' ∧
        ∃ lists S, Inv r c'.toRun lists S ∧ Agrees c'.state.mem (extents c'.live) c'.known := by
    rintro c op ⟨lists, S, h, hagrees⟩ hv
    obtain ⟨c', lists', S', hc', h', hagrees'⟩ := h.observe hagrees hv
    exact ⟨c', hc', lists', S', h', hagrees'⟩
  obtain ⟨c, hexec, lists', S', -, hagrees⟩ := exec_total hstep ⟨lists, S, hboot, agrees_nil⟩ hv
  refine ⟨c, hexec, fun b hb i hi v hval => ?_⟩
  exact hagrees (b.1, 2 ^ b.2 * pageSize) (List.mem_map.mpr ⟨b, hb, rfl⟩) i hi v hval

/-- Three pages at `0x1000`: the last one is taken, cleared and written, then another one is taken, written and given
back. -/
def clearedRun : List Op :=
  [.allocFlags 0 gfpZero, .write 0x3010 9, .alloc 0 0, .write 0x1004 5, .free 0x1000 0]

/-- The byte of the page that is held is still there, between zeros. -/
theorem pages_read_back_three_pages :
    ∃ c, Interleaving.exec observedStep ⟨boot (fun _ => 7) 0x1000 0x3000, fun _ _ => none⟩ clearedRun = some c ∧
      (∀ b ∈ c.live, ∀ i < 2 ^ b.2 * pageSize, ∀ v, c.known b.1 i = some v → c.state.mem (b.1 + i) = v) ∧
      c.state.mem 0x3010 = 9 ∧ c.state.mem 0x3011 = 0 := by
  have hguard : Guarded observedStep (fun c op => c.toRun.Valid op)
      ⟨boot (fun _ => 7) 0x1000 0x3000, fun _ _ => none⟩ clearedRun :=
    guarded_of_guardedBy (t := fun c op => decide (c.toRun.Valid op)) (fun _ _ => of_decide_eq_true)
      (by decide +kernel)
  have hknown : (Interleaving.exec observedStep ⟨boot (fun _ => 7) 0x1000 0x3000, fun _ _ => none⟩ clearedRun).map
      (fun c => decide ((0x3000, 0) ∈ c.live ∧ c.known 0x3000 0x10 = some 9 ∧ c.known 0x3000 0x11 = some 0))
        = some true := by decide +kernel
  obtain ⟨c, hexec, hread⟩ :=
    pages_read_back (fun _ => 7) ⟨0x1000, 0x3000, by norm_num, by norm_num⟩ clearedRun hguard
  rw [hexec, Option.map_some, Option.some.injEq] at hknown
  obtain ⟨hlive, hnine, hzero⟩ := of_decide_eq_true hknown
  exact ⟨c, hexec, hread, hread _ hlive 0x10 (by norm_num [pageSize]) 9 hnine,
    hread _ hlive 0x11 (by norm_num [pageSize]) 0 hzero⟩

end PrometheusKernel.Buddy
