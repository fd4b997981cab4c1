import PrometheusKernel.Buddy.Init

/-!
# Runs of the buddy allocator

A `Run` is the allocator together with the blocks its clients hold, as `(address, order)` pairs. An
operation is valid when it frees a block that is held, with the order it was allocated with, or
writes a byte into one; allocations are always valid. `exec` runs a list of operations; `none`
would be a call that does not return.

`Inv r c lists S` is the invariant of every run on the region `r`: the state represents the
configuration `S`, the blocks held are used blocks of `S`, and so is the block that a region at
address 0 loses. `Exact` says that there are no other used blocks; it fails only where
`buddy_free_pages` turns valid blocks away, which it does exactly in a region that is not
page-aligned or that ends at `2 ^ 64` (`¬ Accepts`).

`Inv.step` is the step lemma and `exec_inv` the run lemma for both.
-/

namespace PrometheusKernel.Buddy

open ByteMem LinkedList BuddySystem

/-- A call or a write of a client. -/
inductive Op
  /-- `buddy_alloc_pages(order, zoneType)`. -/
  | alloc (order zoneType : ℕ)
  /-- `buddy_alloc_pages_flags(order, flags)`. -/
  | allocFlags (order flags : ℕ)
  /-- `buddy_free_pages(address, order)`. -/
  | free (address order : ℕ)
  /-- A byte write of a client. -/
  | write (x : ℕ) (b : UInt8)

/-- The allocator and the blocks held by its clients. -/
structure Run where
  /-- Memory and the globals of `buddy.c`. -/
  state : State
  /-- The live blocks: address and order. -/
  live : List (ℕ × ℕ)

/-- The byte address `x` lies in the block `b = (address, order)`. -/
def InBlock (b : ℕ × ℕ) (x : ℕ) : Prop := b.1 ≤ x ∧ x < b.1 + 2 ^ b.2 * pageSize

instance (b : ℕ × ℕ) (x : ℕ) : Decidable (InBlock b x) :=
  inferInstanceAs (Decidable (b.1 ≤ x ∧ x < b.1 + 2 ^ b.2 * pageSize))

/-- Only held blocks are freed and written. -/
def Run.Valid (c : Run) : Op → Prop
  | .alloc _ _ => True
  | .allocFlags _ _ => True
  | .free address order => (address, order) ∈ c.live
  | .write x _ => ∃ b ∈ c.live, InBlock b x

instance (c : Run) (op : Op) : Decidable (c.Valid op) :=
  match op with
  | .alloc _ _ => isTrue trivial
  | .allocFlags _ _ => isTrue trivial
  | .free address order => inferInstanceAs (Decidable ((address, order) ∈ c.live))
  | .write x _ => inferInstanceAs (Decidable (∃ b ∈ c.live, InBlock b x))

/-- The blocks held after an allocation call returned `address`. -/
def gain (live : List (ℕ × ℕ)) (address order : ℕ) : List (ℕ × ℕ) :=
  if address = 0 then live else (address, order) :: live

/-- One operation. -/
def step (c : Run) : Op → Option Run
  | .alloc order zoneType =>
      let res := buddyAllocPages c.state order zoneType
      some ⟨res.2, gain c.live res.1 order⟩
  | .allocFlags order flags =>
      let res := buddyAllocPagesFlags c.state order flags
      some ⟨res.2, gain c.live res.1 order⟩
  | .free address order =>
      match buddyFreePages c.state address order with
      | none => none
      | some s => some ⟨s, c.live.erase (address, order)⟩
  | .write x b => some ⟨{ c.state with mem := Function.update c.state.mem x b }, c.live⟩

/-- Every operation of the list is valid when its turn comes. -/
def ValidRun : Run → List Op → Prop
  | _, [] => True
  | c, op :: ops =>
      c.Valid op ∧
        match step c op with
        | none => True
        | some c' => ValidRun c' ops

instance decidableValidRun : (c : Run) → (ops : List Op) → Decidable (ValidRun c ops)
  | _, [] => isTrue trivial
  | c, op :: ops => by
      unfold ValidRun
      exact @instDecidableAnd _ _ _ (match step c op with
        | none => isTrue trivial
        | some c' => decidableValidRun c' ops)

/-- A list of operations. -/
def exec : Run → List Op → Option Run
  | c, [] => some c
  | c, op :: ops =>
      match step c op with
      | none => none
      | some c' => exec c' ops

/-- The run right after `buddy_init`. -/
def boot (m : Mem) (memoryStart memorySize : ℕ) : Run := ⟨buddyInit m memoryStart memorySize, []⟩

/-! ### The invariant -/

/-- `buddy_free_pages` takes back the blocks of the region. -/
def Accepts (r : Region) : Prop := r.start % pageSize = 0 ∧ r.start + r.size < 2 ^ 64

/-- The block that a region at address 0 loses. -/
def lostBlocks (r : Region) : Finset Block :=
  if r.start = 0 ∧ 0 < r.pages then {(0, topOrder r.pages)} else ∅

/-- The lost block in the counters. -/
def lostCount (r : Region) (k : ℕ) : ℕ :=
  if r.start = 0 ∧ 0 < r.pages ∧ k = topOrder r.pages then 1 else 0

/-- At most one block is lost. -/
theorem lostCount_le (r : Region) (k : ℕ) : lostCount r k ≤ 1 := by
  unfold lostCount
  split_ifs <;> omega

/-- A region that does not start at 0 loses no block. -/
theorem lostBlocks_of_pos {r : Region} (h : 0 < r.start) : lostBlocks r = ∅ := by
  unfold lostBlocks
  rw [if_neg (by omega)]

/-- A lost block is at address 0. -/
theorem mem_lostBlocks {r : Region} {b : Block} (h : b ∈ lostBlocks r) : r.addr b.1 = 0 := by
  unfold lostBlocks at h
  split_ifs at h with hc
  · obtain rfl := Finset.mem_singleton.mp h
    exact Region.addr_eq_zero_iff.mpr ⟨hc.1, rfl⟩
  · exact absurd h (Finset.notMem_empty _)

/-- The invariant of every run on the region `r`. -/
structure Inv (r : Region) (c : Run) (lists : ℕ → List ℕ) (S : BuddySystem r.pages maxOrder) :
    Prop where
  rep : Rep r (lostCount r) lists S c.state
  bits : BitsOk c.state.pages.allocationBitmap S.used
  nodup : c.live.Nodup
  live : ∀ b ∈ c.live, ∃ i, b.1 = r.addr i ∧ (i, b.2) ∈ S.used ∧ b.1 ≠ 0
  lost : lostBlocks r ⊆ S.used
  totalPages : (c.state.pages.zones .unmovable).totalPages = r.pages
  freePages : (c.state.pages.zones .unmovable).freePages = size S.free + size (lostBlocks r)

/-- Every used block is held or lost. -/
def Exact (r : Region) (c : Run) (S : BuddySystem r.pages maxOrder) : Prop :=
  ∀ b ∈ S.used, (r.addr b.1, b.2) ∈ c.live ∨ b ∈ lostBlocks r

variable {r : Region}

/-- The invariant holds after `buddy_init`, which writes only into free blocks. -/
theorem inv_boot (m : Mem) (r : Region) :
    ∃ lists S, Inv r (boot m r.start r.size) lists S ∧ Exact r (boot m r.start r.size) S ∧
      ∀ x, (∀ b ∈ S.free ∪ S.used, OffNode x (r.addr b.1)) →
        (boot m r.start r.size).state.mem x = m x := by
  -- both cases of `buddy_init`, with the lost block made explicit
  obtain ⟨lists, S, hused, h⟩ : ∃ lists S, S.used = lostBlocks r ∧
      Initialised r (lostCount r) m (buddyInit m r.start r.size) lists S := by
    by_cases hc : r.start = 0 ∧ 0 < r.pages
    · obtain ⟨lists, S, h1, h2⟩ := buddyInit_rep_zero m hc.1 hc.2
      refine ⟨lists, S, by rw [h1, lostBlocks, if_pos hc], ?_⟩
      have hlc : lostCount r = fun k => if k = topOrder r.pages then 1 else 0 := by
        funext k
        simp [lostCount, hc.1, hc.2]
      rw [hlc]
      exact h2
    · obtain ⟨lists, S, h1, h2⟩ := buddyInit_rep (r := r) m (by omega)
      refine ⟨lists, S, by rw [h1, lostBlocks, if_neg hc], ?_⟩
      have hlc : lostCount r = fun _ => 0 := by
        funext k
        rw [lostCount, if_neg fun h => hc ⟨h.1, h.2.1⟩]
      rw [hlc]
      exact h2
  refine ⟨lists, S, ⟨h.rep, ?_, List.nodup_nil, by simp [boot], hused ▸ Finset.Subset.refl _,
    h.totalPages, ?_⟩, ?_, h.mem⟩
  · intro p hp
    simp [boot, h.bitmap, testAllocationBit] at hp
  · rw [← hused]
    exact h.freePages.trans S.size_free_add_size_used.symm
  · intro b hb
    exact Or.inr (hused ▸ hb)

/-! ### Client writes -/

/-- A byte of a used block is not a byte of a list node. -/
theorem offNode_of_inBlock {S : BuddySystem r.pages maxOrder} {i k : ℕ} (hb : (i, k) ∈ S.used)
    {x : ℕ} (hx : InBlock (r.addr i, k) x) {c : Block} (hc : c ∈ S.free) :
    OffNode x (r.addr c.1) := by
  by_contra hoff
  have hcov : ind (i, k) c.1 = 1 := by
    unfold OffNode at hoff
    unfold InBlock at hx
    unfold Region.addr pageSize at hoff hx
    simp only at hx
    refine ind_eq_one_iff.mpr ⟨?_, ?_⟩ <;> simp only <;> omega
  have := S.not_meet hc hb (ind_self c)
  omega

/-- Memory that agrees on the nodes of the free blocks represents the same configuration. -/
theorem Rep.congr_mem {lost : ℕ → ℕ} {lists : ℕ → List ℕ} {S : BuddySystem r.pages maxOrder}
    {s : State} (h : Rep r lost lists S s) {w : Mem}
    (hw : ∀ x, (∃ b ∈ S.free, ¬ OffNode x (r.addr b.1)) → w x = s.mem x) :
    Rep r lost lists S { s with mem := w } := by
  have hnode : ∀ k ≤ maxOrder, ∀ a ∈ (lists k).map r.addr, ∀ x, a ≤ x → x < a + 16 →
      w x = s.mem x := by
    intro k hk a ha x h1 h2
    obtain ⟨i, hi, rfl⟩ := List.mem_map.mp ha
    exact hw x ⟨(i, k), (h.mem_lists k hk i).mp hi, by unfold OffNode; simp only; omega⟩
  refine ⟨h.le_pages, h.memoryStart, h.memorySize, fun k hk => ?_, h.mem_lists, h.counts, h.others⟩
  refine (h.list k hk).congr (fun a ha => ?_) fun a ha => ?_
  · refine load_congr fun x hx => hnode k hk a ha x hx.1 ?_
    have := hx.2
    omega
  · refine load_congr fun x hx => hnode k hk a ha x ?_ ?_
    · have := hx.1
      omega
    · have := hx.2
      omega

/-- Writes into held blocks keep the invariant. -/
theorem Inv.write {c : Run} {lists : ℕ → List ℕ} {S : BuddySystem r.pages maxOrder}
    (h : Inv r c lists S) {w : Mem}
    (hw : ∀ x, (∀ b ∈ c.live, ¬ InBlock b x) → w x = c.state.mem x) :
    Inv r ⟨{ c.state with mem := w }, c.live⟩ lists S := by
  refine ⟨h.rep.congr_mem fun x hx => ?_, h.bits, h.nodup, h.live, h.lost, h.totalPages,
    h.freePages⟩
  obtain ⟨b, hb, hoff⟩ := hx
  refine hw x fun l hl hin => hoff ?_
  obtain ⟨i, hi, hused, -⟩ := h.live l hl
  have hin' : InBlock (r.addr i, l.2) x := by
    rw [← hi]
    exact hin
  exact offNode_of_inBlock hused hin' hb

/-! ### The step lemma -/

/-- An allocation from an empty zone fails and changes nothing. -/
theorem allocFromZone_empty {s : State} {z : ZoneType}
    (hz : ∀ k, (s.pages.zones z).freeLists k = 0) {order : ℕ} (horder : order ≤ maxOrder) :
    allocFromZone s order z = (0, s) := by
  obtain ⟨-, h2, -, h4⟩ := Rep.findOrder_spec (s.pages.zones z) (maxOrder + 1 - order) order
  unfold allocFromZone
  rw [if_pos]
  by_contra hle
  exact h4 (by omega) (hz _)

variable {c : Run} {lists : ℕ → List ℕ} {S : BuddySystem r.pages maxOrder}

/-- What one allocation call does to a run: it fails and changes nothing, or it adds a block of the
requested order to the held ones. -/
theorem Inv.alloc (h : Inv r c lists S) (order zoneType : ℕ) :
    (buddyAllocPages c.state order zoneType = (0, c.state)) ∨
      ∃ i lists' S', (buddyAllocPages c.state order zoneType).1 = r.addr i ∧ r.addr i ≠ 0 ∧
        (i, order) ∉ S.used ∧ S'.used = insert (i, order) S.used ∧
        (∀ x, Outside r r.pages S.used x →
          (buddyAllocPages c.state order zoneType).2.mem x = c.state.mem x) ∧
        Inv r ⟨(buddyAllocPages c.state order zoneType).2, (r.addr i, order) :: c.live⟩ lists' S' := by
  unfold buddyAllocPages
  by_cases horder : order > maxOrder
  · exact Or.inl (by rw [if_pos horder])
  rw [if_neg horder]
  have hle : order ≤ maxOrder := by omega
  by_cases hz : (ZoneType.ofNat? zoneType).getD .unmovable = .unmovable
  · rw [hz]
    rcases h.rep.alloc (lostCount_le r) hle with ⟨-, hfail⟩ | ⟨i, lists', S', hres, ha⟩
    · exact Or.inl hfail
    · refine Or.inr ⟨i, lists', S', hres, ha.addr_ne_zero, ha.fresh, ha.used, ha.mem, ?_⟩
      refine ⟨ha.rep, ?_, ?_, ?_, ?_, ha.totalPages.trans h.totalPages, ?_⟩
      · rw [ha.used, ha.bitmap]
        exact h.bits.set i order
      · refine List.nodup_cons.mpr ⟨fun hmem => ha.fresh ?_, h.nodup⟩
        obtain ⟨j, hj, hused, -⟩ := h.live _ hmem
        rw [r.addr_injective hj]
        exact hused
      · intro b hb
        rw [ha.used]
        rcases List.mem_cons.mp hb with rfl | hb
        · exact ⟨i, rfl, Finset.mem_insert_self _ _, ha.addr_ne_zero⟩
        · obtain ⟨j, hj, hused, h0⟩ := h.live b hb
          exact ⟨j, hj, Finset.mem_insert_of_mem hused, h0⟩
      · rw [ha.used]
        exact h.lost.trans (Finset.subset_insert _ _)
      · have h1 := S.size_free_add_size_used
        have h2 := S'.size_free_add_size_used
        rw [ha.used] at h2
        have h3 : size (insert (i, order) S.used) = 2 ^ order + size S.used :=
          Finset.sum_insert ha.fresh
        have hlt := r.pages_lt
        have hlost : size (lostBlocks r) ≤ size S.used :=
          Finset.sum_le_sum_of_subset h.lost
        rw [ha.freePages, h.freePages, Word.sub_eq (by omega) (by omega)]
        omega
  · refine Or.inl (allocFromZone_empty (fun k => by rw [h.rep.others _ hz]; rfl) hle)

/-- A call that returns a block gains it. -/
theorem gain_of_ne {live : List (ℕ × ℕ)} {a order : ℕ} (h : a ≠ 0) :
    gain live a order = (a, order) :: live := by
  rw [gain, if_neg h]

/-- A new block for the client is a new used block. -/
theorem exact_insert {c' : Run} {i order : ℕ} {S' : BuddySystem r.pages maxOrder}
    (hexact : Exact r c S) (hused : S'.used = insert (i, order) S.used)
    (hlive : c'.live = (r.addr i, order) :: c.live) : Exact r c' S' := by
  intro b hb
  rw [hused] at hb
  rw [hlive]
  rcases Finset.mem_insert.mp hb with rfl | hb
  · exact Or.inl List.mem_cons_self
  · rcases hexact b hb with h' | h'
    · exact Or.inl (List.mem_cons_of_mem _ h')
    · exact Or.inr h'

/-- `buddy_alloc_pages_flags` is `buddy_alloc_pages` followed by writes into the block it returned. -/
theorem buddyAllocPagesFlags_eq (s : State) {order : ℕ} (horder : order ≤ maxOrder) (flags : ℕ) :
    ∃ w : Mem, (∀ x, (buddyAllocPages s order (zoneOfFlags flags)).1 = 0 ∨
          ¬ InBlock ((buddyAllocPages s order (zoneOfFlags flags)).1, order) x →
        w x = (buddyAllocPages s order (zoneOfFlags flags)).2.mem x) ∧
      buddyAllocPagesFlags s order flags = ((buddyAllocPages s order (zoneOfFlags flags)).1,
        { (buddyAllocPages s order (zoneOfFlags flags)).2 with mem := w }) := by
  set res := buddyAllocPages s order (zoneOfFlags flags) with hres
  unfold buddyAllocPagesFlags
  simp only [← hres]
  by_cases h0 : res.1 = 0
  · exact ⟨res.2.mem, fun _ _ => rfl, by rw [if_pos h0, h0]⟩
  · rw [if_neg h0]
    by_cases hz : flags &&& gfpZero ≠ 0
    · rw [if_pos hz]
      refine ⟨_, fun x hx => ?_, rfl⟩
      have hout := hx.resolve_left h0
      have hpow : 2 ^ order ≤ 2 ^ maxOrder := Nat.pow_le_pow_right (by norm_num) horder
      have hmul : Word.mul 64 (1 <<< order) pageSize = 2 ^ order * pageSize := by
        rw [Nat.one_shiftLeft]
        exact Word.mul_eq (by unfold maxOrder at hpow; unfold pageSize; omega)
      rw [hmul, fill_apply, if_neg]
      exact hout
    · rw [if_neg hz]
      exact ⟨res.2.mem, fun _ _ => rfl, rfl⟩

/-- One valid operation returns and keeps the invariant. -/
theorem Inv.step (h : Inv r c lists S) {op : Op} (hv : c.Valid op) :
    ∃ c' lists' S', Buddy.step c op = some c' ∧ Inv r c' lists' S' ∧
      (((∃ a k, op = .free a k) → Accepts r) → Exact r c S → Exact r c' S') := by
  cases op with
  | alloc order zoneType =>
      rcases h.alloc order zoneType with hfail | ⟨i, lists', S', hres, h0, hfresh, hused, -, hinv⟩
      · refine ⟨c, lists, S, ?_, h, fun _ he => he⟩
        simp [Buddy.step, hfail, gain]
      · refine ⟨_, lists', S', rfl, ?_, fun _ he => exact_insert he hused ?_⟩
        · simp only [hres, gain_of_ne h0]
          exact hinv
        · simp only [hres, gain_of_ne h0]
  | allocFlags order flags =>
      by_cases horder : order ≤ maxOrder
      · obtain ⟨w, hw, heq⟩ := buddyAllocPagesFlags_eq c.state horder flags
        rcases h.alloc order (zoneOfFlags flags) with
          hfail | ⟨i, lists', S', hres, h0, hfresh, hused, -, hinv⟩
        · have hmem : w = c.state.mem := by
            funext x
            rw [hw x (Or.inl (by rw [hfail])), hfail]
          refine ⟨c, lists, S, ?_, h, fun _ he => he⟩
          simp [Buddy.step, heq, hfail, gain, hmem]
        · refine ⟨_, lists', S', rfl, ?_, fun _ he => exact_insert he hused ?_⟩
          · simp only [heq, hres, gain_of_ne h0]
            refine hinv.write fun x hx => hw x (Or.inr ?_)
            rw [hres]
            exact hx _ List.mem_cons_self
          · simp only [heq, hres, gain_of_ne h0]
      · refine ⟨c, lists, S, ?_, h, fun _ he => he⟩
        have : buddyAllocPages c.state order (zoneOfFlags flags) = (0, c.state) := by
          unfold buddyAllocPages
          rw [if_pos (by omega)]
        simp [Buddy.step, buddyAllocPagesFlags, this, gain]
  | free address order =>
      have hmem : (address, order) ∈ c.live := hv
      obtain ⟨i, hi, hused, h0⟩ := h.live _ hmem
      simp only at hi hused h0
      subst hi
      by_cases hacc : Accepts r
      · obtain ⟨s', lists', S', hres, hrel⟩ := h.rep.free (lostCount_le r) hacc.1 hacc.2 h.bits
          hused h0
        refine ⟨⟨s', c.live.erase (r.addr i, order)⟩, lists', S', by simp [Buddy.step, hres],
          ⟨hrel.rep, hrel.bits, h.nodup.erase _, ?_, ?_, hrel.totalPages.trans h.totalPages, ?_⟩, ?_⟩
        · intro b hb
          obtain ⟨hne, hb'⟩ := h.nodup.mem_erase_iff.mp hb
          obtain ⟨j, hj, hju, hj0⟩ := h.live b hb'
          refine ⟨j, hj, ?_, hj0⟩
          rw [hrel.used]
          refine Finset.mem_erase.mpr ⟨fun e => hne ?_, hju⟩
          obtain ⟨h1, h2⟩ := Prod.mk.inj e
          exact Prod.ext (by rw [hj, h1]) h2
        · intro b hb
          rw [hrel.used]
          refine Finset.mem_erase.mpr ⟨fun e => h0 ?_, h.lost hb⟩
          have := mem_lostBlocks hb
          rwa [e] at this
        · have h1 := S.size_free_add_size_used
          have h2 := S'.size_free_add_size_used
          have h3 : 2 ^ order + size (S.used.erase (i, order)) = size S.used :=
            Finset.add_sum_erase S.used (fun b => 2 ^ b.2) hused
          have hsub : lostBlocks r ⊆ S.used.erase (i, order) := by
            intro b hb
            refine Finset.mem_erase.mpr ⟨fun e => h0 ?_, h.lost hb⟩
            have := mem_lostBlocks hb
            rwa [e] at this
          have hlost : size (lostBlocks r) ≤ size (S.used.erase (i, order)) :=
            Finset.sum_le_sum_of_subset hsub
          have hlt := r.pages_lt
          rw [hrel.used] at h2
          rw [hrel.freePages, h.freePages, Word.add_eq (by omega)]
          omega
        · intro _ he b hb
          rw [hrel.used] at hb
          obtain ⟨hne, hb'⟩ := Finset.mem_erase.mp hb
          rcases he b hb' with h' | h'
          · refine Or.inl (h.nodup.mem_erase_iff.mpr ⟨fun e => hne ?_, h'⟩)
            obtain ⟨h1, h2⟩ := Prod.mk.inj e
            exact Prod.ext (r.addr_injective h1) h2
          · exact Or.inr h'
      · have hrej : r.start % pageSize ≠ 0 ∨ r.start + r.size = 2 ^ 64 := by
          have := r.fits
          unfold Accepts at hacc
          omega
        refine ⟨⟨c.state, c.live.erase (r.addr i, order)⟩, lists, S,
          by simp [Buddy.step, h.rep.free_rejected hrej],
          ⟨h.rep, h.bits, h.nodup.erase _, fun b hb => h.live b (List.mem_of_mem_erase hb), h.lost,
            h.totalPages, h.freePages⟩, fun hcond => absurd (hcond ⟨_, _, rfl⟩) hacc⟩
  | write x b =>
      refine ⟨_, lists, S, rfl, h.write fun y hy => ?_, fun _ he => he⟩
      obtain ⟨l, hl, hin⟩ := hv
      have hne : y ≠ x := fun e => hy l hl (e ▸ hin)
      rw [Function.update_of_ne hne]

/-- Every valid run returns and keeps the invariant. -/
theorem exec_inv (h : Inv r c lists S) {ops : List Op} (hv : ValidRun c ops) :
    ∃ c' lists' S', exec c ops = some c' ∧ Inv r c' lists' S' ∧
      (((∃ a k, Op.free a k ∈ ops) → Accepts r) → Exact r c S → Exact r c' S') := by
  induction ops generalizing c lists S with
  | nil => exact ⟨c, lists, S, rfl, h, fun _ he => he⟩
  | cons op ops ih =>
      obtain ⟨c₁, lists₁, S₁, hstep, hinv, hex⟩ := h.step hv.1
      have hv' := hv.2
      rw [hstep] at hv'
      obtain ⟨c₂, lists₂, S₂, hexec, hinv₂, hex₂⟩ := ih hinv hv'
      refine ⟨c₂, lists₂, S₂, by simp [exec, hstep, hexec], hinv₂, fun hcond he => ?_⟩
      refine hex₂ (fun ⟨a, k, hmem⟩ => hcond ⟨a, k, List.mem_cons_of_mem _ hmem⟩) (hex ?_ he)
      rintro ⟨a, k, rfl⟩
      exact hcond ⟨a, k, List.mem_cons_self⟩

end PrometheusKernel.Buddy
