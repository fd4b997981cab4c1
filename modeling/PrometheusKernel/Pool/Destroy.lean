import PrometheusKernel.Pool.Conservation

/-!
# What a destroyed pool gives back

`pool_destroy` does not know the orders of the regions. It takes the largest order that the address of a region is
aligned to (`guessOrder_eq_iff`), and a block of the page allocator may well be aligned to more than its own size.
So the pool gives back exactly the blocks that it took when each of its regions happens to be of the order that its
address suggests (`destroy_returns_iff`), and otherwise frees pages of others (`region_freed_with_its_neighbour`).

The page allocator is any that follows the discipline of holding blocks; the calls are recorded in a `Journal`. On
the allocator of `buddy.c` no pool comes into being, since its reclaimable zone has no pages.
-/

namespace PrometheusKernel.Pool

open ByteMem LinkedList Buddy Slab Interleaving Journal

/-! ### The guess -/

/-- The order of a block is the largest, up to 10, that its address is aligned to; 0 where it is not even that of a
page. -/
def Natural (b : ℕ × ℕ) : Prop :=
  (b.2 = 0 ∨ 4096 * 2 ^ b.2 ∣ b.1) ∧ ∀ j ≤ 10, 4096 * 2 ^ j ∣ b.1 → j ≤ b.2

instance (b : ℕ × ℕ) : Decidable (Natural b) :=
  inferInstanceAs (Decidable ((b.2 = 0 ∨ 4096 * 2 ^ b.2 ∣ b.1) ∧ ∀ j ≤ 10, 4096 * 2 ^ j ∣ b.1 → j ≤ b.2))

/-- A loop that keeps the last index that passes a test, or 0. -/
theorem last_spec (p : ℕ → Prop) [DecidablePred p] {n k : ℕ}
    (hk : (List.range n).foldl (fun k o => if p o then o else k) 0 = k) :
    (k = 0 ∨ k < n ∧ p k) ∧ ∀ j < n, p j → j ≤ k := by
  induction n generalizing k with
  | zero => exact ⟨Or.inl hk.symm, fun j hj => absurd hj (Nat.not_lt_zero j)⟩
  | succ n ih =>
      rw [List.range_succ, List.foldl_append, List.foldl_cons, List.foldl_nil] at hk
      split_ifs at hk with hn
      · subst hk
        exact ⟨Or.inr ⟨Nat.lt_succ_self n, hn⟩, fun j hj _ => Nat.le_of_lt_succ hj⟩
      · obtain ⟨hlast, hmax⟩ := ih hk
        refine ⟨hlast.imp_right fun h => ⟨Nat.lt_succ_of_lt h.1, h.2⟩, fun j hj hp => ?_⟩
        rcases Nat.lt_succ_iff_lt_or_eq.mp hj with hlt | rfl
        · exact hmax j hlt hp
        · exact absurd hp hn

/-- The test of the loop is alignment. -/
theorem and_alignment_iff (a : ℕ) {o : ℕ} (ho : o ≤ maxOrder) :
    a &&& Word.sub 64 (Word.mul 64 (1 <<< o) pageSize) 1 = 0 ↔ 4096 * 2 ^ o ∣ a := by
  have hpow : 2 ^ o ≤ 2 ^ 10 := Nat.pow_le_pow_right (by norm_num) ho
  have hpos : 0 < 2 ^ o := Nat.two_pow_pos o
  have hmask : Word.sub 64 (Word.mul 64 (1 <<< o) pageSize) 1 = 2 ^ (o + 12) - 1 := by
    unfold pageSize
    rw [Nat.one_shiftLeft, Word.mul_eq (by omega), Word.sub_eq (by omega) (by omega), pow_add]
    norm_num
  have hsize : 4096 * 2 ^ o = 2 ^ (o + 12) := by
    rw [pow_add, mul_comm]
    norm_num
  rw [hmask, hsize, Nat.and_two_pow_sub_one_eq_mod]
  exact Nat.dvd_iff_mod_eq_zero.symm

/-- `pool_destroy` guesses the order of a block exactly when the block is natural. -/
theorem guessOrder_eq_iff {b : ℕ × ℕ} (hb : b.2 ≤ maxOrder) : guessOrder b.1 = b.2 ↔ Natural b := by
  obtain ⟨k, hk⟩ : ∃ k, guessOrder b.1 = k := ⟨_, rfl⟩
  obtain ⟨hlast, hmax⟩ := last_spec _ hk
  have hmax' : ∀ j ≤ 10, 4096 * 2 ^ j ∣ b.1 → j ≤ k := fun j hj hdvd =>
    hmax j (Nat.lt_succ_of_le hj) ((and_alignment_iff b.1 hj).mpr hdvd)
  have hlast' : k = 0 ∨ 4096 * 2 ^ k ∣ b.1 :=
    hlast.imp_right fun h => (and_alignment_iff b.1 (Nat.le_of_lt_succ h.1)).mp h.2
  have hk10 : k ≤ 10 := by
    rcases hlast with h0 | ⟨hlt, -⟩
    · omega
    · exact Nat.le_of_lt_succ hlt
  rw [hk]
  constructor
  · rintro rfl
    exact ⟨hlast', hmax'⟩
  · rintro ⟨hb0, hbmax⟩
    apply Nat.le_antisymm
    · rcases hlast' with h0 | hdvd
      · omega
      · exact hbmax k hk10 hdvd
    · rcases hb0 with h0 | hdvd
      · omega
      · exact hmax' b.2 hb hdvd

/-! ### Giving regions back -/

variable {A : Type} {P : Holding A} {B : Set (ℕ × ℕ)} {free : ℕ → ℕ → Machine A → Machine A}

/-- The record only grows, and what was taken stays. -/
theorem freeRegions_record {n region : ℕ} {M M' : Machine (Journal A)}
    (h : freeRegions (Journal.free free) n region M = some M') :
    (∃ l, M'.pages.freed = l ++ M.pages.freed) ∧ M'.pages.taken = M.pages.taken := by
  induction n generalizing region M with
  | zero => exact absurd h nofun
  | succ n ih =>
      unfold freeRegions at h
      split_ifs at h with h0
      · obtain rfl := Option.some.inj h
        exact ⟨⟨[], rfl⟩, rfl⟩
      · obtain ⟨⟨l, hl⟩, htaken⟩ := ih h
        rw [freed_free] at hl
        exact ⟨⟨l ++ [(region, guessOrder region)], by rw [hl, List.append_assoc]; rfl⟩, htaken⟩

/-- The header of a region keeps the link when another block is given back. -/
theorem chain_free (hF : P.Freer free) {M : Machine A} {b : ℕ × ℕ} {l : List (ℕ × ℕ)} {C : Set (ℕ × ℕ)} {head : ℕ}
    (hl : IsList (regionNext M.mem) (l.map Prod.fst) head) (hheld : P.Holds M C) (hb : b ∈ C) (hsub : ∀ c ∈ l, c ∈ C)
    (hnot : b ∉ l) : IsList (regionNext (free b.1 b.2 M).mem) (l.map Prod.fst) head := by
  refine hl.congr fun a ha => load_congr fun x hx => ?_
  obtain ⟨c, hc, rfl⟩ := List.mem_map.mp ha
  have hpos : 0 < 2 ^ c.2 := Nat.two_pow_pos c.2
  obtain ⟨hx1, hx2⟩ := hx
  refine hF.mem hheld b hb c (hsub c hc) (fun heq => hnot (heq ▸ hc)) x ⟨by omega, ?_⟩
  unfold pageSize
  omega

/-- The blocks `l`, next to the blocks `B` of others. -/
def beside (B : Set (ℕ × ℕ)) (l : List (ℕ × ℕ)) : Set (ℕ × ℕ) := { b | b ∈ B ∨ b ∈ l }

/-- A block that is given back leaves the others. -/
theorem beside_sdiff {b : ℕ × ℕ} {l : List (ℕ × ℕ)} (hB : b ∉ B) (hl : b ∉ l) :
    beside B (b :: l) \ {b} = beside B l := by
  ext c
  show ((c ∈ B ∨ c ∈ b :: l) ∧ c ≠ b) ↔ (c ∈ B ∨ c ∈ l)
  rw [List.mem_cons]
  constructor
  · rintro ⟨hc | hc | hc, hne⟩
    · exact Or.inl hc
    · exact absurd hc hne
    · exact Or.inr hc
  · rintro (hc | hc)
    · exact ⟨Or.inl hc, fun heq => hB (heq ▸ hc)⟩
    · exact ⟨Or.inr (Or.inr hc), fun heq => hl (heq ▸ hc)⟩

/-- The first region of the list is given back: the others still form a list and are held. -/
theorem region_freed (hF : P.Freer free) {b : ℕ × ℕ} {l : List (ℕ × ℕ)} {M : Machine (Journal A)}
    (hrest : IsList (regionNext M.mem) (l.map Prod.fst) (regionNext M.mem b.1))
    (hheld : P.Holds (plain M) (beside B (b :: l))) (hb : b ∉ l) (hnot : b ∉ B) :
    IsList (regionNext (Journal.free free b.1 b.2 M).mem) (l.map Prod.fst) (regionNext M.mem b.1) ∧
      P.Holds (plain (Journal.free free b.1 b.2 M)) (beside B l) := by
  have hin : b ∈ beside B (b :: l) := Or.inr List.mem_cons_self
  have hheld' := hF.holds hheld b hin
  rw [beside_sdiff hnot hb] at hheld'
  exact ⟨@chain_free _ _ _ hF (plain M) b l _ _ hrest hheld hin (fun c hc => Or.inr (List.mem_cons_of_mem b hc)) hb,
    hheld'⟩

/-- Natural regions are given back as they were taken. -/
theorem freeRegions_natural (hF : P.Freer free) {l : List (ℕ × ℕ)} {head n : ℕ} {M : Machine (Journal A)}
    (hl : IsList (regionNext M.mem) (l.map Prod.fst) head) (hheld : P.Holds (plain M) (beside B l)) (hnodup : l.Nodup)
    (hnot : ∀ b ∈ l, b ∉ B) (hguess : ∀ b ∈ l, guessOrder b.1 = b.2) (hn : l.length < n) :
    ∃ M', freeRegions (Journal.free free) n head M = some M' ∧ P.Holds (plain M') B ∧
      M'.pages.freed = l.reverse ++ M.pages.freed := by
  induction l generalizing head n M with
  | nil =>
      obtain ⟨n, rfl⟩ : ∃ k, n = k + 1 := ⟨n - 1, by omega⟩
      have hset : beside B [] = B := by
        ext b
        exact or_iff_left List.not_mem_nil
      obtain rfl : head = 0 := hl
      refine ⟨M, ?_, hset ▸ hheld, rfl⟩
      unfold freeRegions
      rw [if_pos rfl]
  | cons b l ih =>
      obtain ⟨n, rfl⟩ : ∃ k, n = k + 1 := ⟨n - 1, by omega⟩
      obtain ⟨rfl, h0, hrest⟩ := hl
      obtain ⟨hb, hnodup'⟩ := List.nodup_cons.mp hnodup
      obtain ⟨hrest', hheld'⟩ := region_freed hF hrest hheld hb (hnot b List.mem_cons_self)
      obtain ⟨M', hcall, hholds, hfreed⟩ := @ih _ n (Journal.free free b.1 b.2 M) hrest' hheld' hnodup'
        (fun c hc => hnot c (List.mem_cons_of_mem b hc)) (fun c hc => hguess c (List.mem_cons_of_mem b hc))
        (Nat.lt_of_succ_lt_succ hn)
      refine ⟨M', ?_, hholds, ?_⟩
      · unfold freeRegions
        rw [if_neg h0, hguess b List.mem_cons_self]
        exact hcall
      · rw [hfreed, freed_free, List.reverse_cons, List.append_assoc]
        rfl

/-- A region that is not natural is given back with another order, at the latest. -/
theorem freeRegions_wrong (hF : P.Freer free) {l : List (ℕ × ℕ)} {head n : ℕ} {M M' : Machine (Journal A)}
    (hl : IsList (regionNext M.mem) (l.map Prod.fst) head) (hheld : P.Holds (plain M) (beside B l)) (hnodup : l.Nodup)
    (hnot : ∀ b ∈ l, b ∉ B) (hwrong : ∃ b ∈ l, guessOrder b.1 ≠ b.2)
    (hcall : freeRegions (Journal.free free) n head M = some M') :
    ∃ b ∈ l, guessOrder b.1 ≠ b.2 ∧ (b.1, guessOrder b.1) ∈ M'.pages.freed := by
  induction l generalizing head n M with
  | nil =>
      obtain ⟨b, hb, -⟩ := hwrong
      exact absurd hb List.not_mem_nil
  | cons b l ih =>
      obtain ⟨rfl, h0, hrest⟩ := hl
      obtain ⟨hb, hnodup'⟩ := List.nodup_cons.mp hnodup
      cases n with
      | zero => exact absurd hcall nofun
      | succ n =>
          unfold freeRegions at hcall
          rw [if_neg h0] at hcall
          by_cases hguess : guessOrder b.1 = b.2
          · obtain ⟨hrest', hheld'⟩ := region_freed hF hrest hheld hb (hnot b List.mem_cons_self)
            have hwrong' : ∃ c ∈ l, guessOrder c.1 ≠ c.2 := by
              obtain ⟨c, hc, hne⟩ := hwrong
              rcases List.mem_cons.mp hc with rfl | hc
              · exact absurd hguess hne
              · exact ⟨c, hc, hne⟩
            rw [hguess] at hcall
            obtain ⟨c, hc, hne, hfreed⟩ := @ih _ n (Journal.free free b.1 b.2 M) hrest' hheld' hnodup'
              (fun c hc => hnot c (List.mem_cons_of_mem b hc)) hwrong' hcall
            exact ⟨c, List.mem_cons_of_mem b hc, hne, hfreed⟩
          · obtain ⟨⟨r, hr⟩, -⟩ := freeRegions_record hcall
            refine ⟨b, List.mem_cons_self, hguess, ?_⟩
            rw [hr, freed_free]
            exact List.mem_append_right r List.mem_cons_self

/-! ### The whole pool -/

variable {s : State (Journal A)} {g : Ghost}

/-- What a pool has taken is its page and its regions. -/
theorem Rep.taken_perm (h : Rep (P.recorded B) B s g) : s.pages.taken.Perm ((s.page, 0) :: g.regions) := by
  obtain ⟨-, hset, hnodup, hnot⟩ := h.holds
  refine (List.perm_ext_iff_of_nodup hnodup h.nodup).mpr fun b => ?_
  have hmem : (b ∈ B ∨ b ∈ (s.page, 0) :: g.regions) ↔ (b ∈ B ∨ b ∈ s.pages.taken) := Set.ext_iff.mp hset b
  constructor
  · intro hb
    exact (hmem.mpr (Or.inr hb)).resolve_left (hnot b hb)
  · intro hb
    exact (hmem.mp (Or.inr hb)).resolve_left (h.fresh b hb)

/-- No region is at the page of the pool. -/
theorem Rep.region_ne_page (h : Rep (P.recorded B) B s g) {b : ℕ × ℕ} (hb : b ∈ g.regions) : b.1 ≠ s.page := by
  intro heq
  have hpage : (s.page, 0) ∈ blocks B s.page g.regions := Or.inr List.mem_cons_self
  have hsame : b = (s.page, 0) := Holding.eq_of_addr h.holds (Rep.mem_blocks hb) hpage heq
  exact (List.nodup_cons.mp h.nodup).1 (hsame ▸ hb)

/-- A pool gives back what it took exactly when its regions are natural. -/
theorem Rep.destroy_iff (h : Rep (P.recorded B) B s g) (hF : P.Freer free) (hnone : s.pages.freed = []) :
    (∃ M', poolDestroy (Journal.free free) s = some M' ∧ M'.pages.freed.Perm M'.pages.taken ∧ P.Holds (plain M') B) ↔
      ∀ b ∈ s.pages.taken, b.1 ≠ s.page → Natural b := by
  have htaken := h.taken_perm
  obtain ⟨hpageNot, hnodup⟩ := List.nodup_cons.mp h.nodup
  -- the page stays until the regions are gone
  obtain ⟨C, hC⟩ : ∃ C, beside B [(s.page, 0)] = C := ⟨_, rfl⟩
  have hheld : P.Holds (plain s.toMachine) (beside C g.regions) := by
    have hset : beside C g.regions = blocks B s.page g.regions := by
      rw [← hC]
      ext b
      show ((b ∈ B ∨ b ∈ [(s.page, 0)]) ∨ b ∈ g.regions) ↔ (b ∈ B ∨ b ∈ (s.page, 0) :: g.regions)
      rw [List.mem_singleton, List.mem_cons, or_assoc]
    rw [hset]
    exact h.holds.1
  have hnot : ∀ b ∈ g.regions, b ∉ C := by
    rw [← hC]
    rintro b hb (hcon | hcon)
    · exact h.fresh b (List.mem_cons_of_mem _ hb) hcon
    · exact hpageNot (List.mem_singleton.mp hcon ▸ hb)
  have hguess : ∀ b ∈ g.regions, guessOrder b.1 = b.2 ↔ Natural b := fun b hb => guessOrder_eq_iff (h.orders b hb)
  have hlen : g.regions.length < walkBound := by
    have hlt := h.chain.length_lt (n := 2 ^ 64) (fun a ha => ?_) (by norm_num)
    · rwa [List.length_map] at hlt
    · obtain ⟨b, hb, rfl⟩ := List.mem_map.mp ha
      exact (lt_blockEnd b).trans_le (P.end_le hheld b (Or.inr hb))
  have hmem : ∀ b, b ∈ s.pages.taken ↔ b ∈ (s.page, 0) :: g.regions := fun b => htaken.mem_iff
  unfold poolDestroy
  constructor
  · rintro ⟨M', hcall, hperm, -⟩ b hb hne
    by_contra hnat
    have hbr : b ∈ g.regions := by
      rcases List.mem_cons.mp ((hmem b).mp hb) with rfl | hbr
      · exact absurd rfl hne
      · exact hbr
    cases hwalk : freeRegions (Journal.free free) walkBound s.pool.regions s.toMachine with
    | none =>
        rw [hwalk] at hcall
        exact absurd hcall nofun
    | some M₁ =>
        rw [hwalk] at hcall
        obtain rfl := Option.some.inj hcall
        obtain ⟨c, hc, hcne, hfreed⟩ := freeRegions_wrong hF h.chain hheld hnodup hnot
          ⟨b, hbr, fun heq => hnat ((hguess b hbr).mp heq)⟩ hwalk
        have hin := hperm.subset (List.mem_cons_of_mem _ hfreed)
        rw [taken_free, (freeRegions_record hwalk).2, hmem] at hin
        have hsame : c = (c.1, guessOrder c.1) :=
          Holding.eq_of_addr h.holds (Rep.mem_blocks hc) (Or.inr hin) rfl
        exact hcne (congrArg Prod.snd hsame).symm
  · intro hnat
    obtain ⟨M₁, hwalk, hholds, hfreed⟩ := freeRegions_natural hF h.chain hheld hnodup hnot
      (fun b hb => (hguess b hb).mpr (hnat b ((hmem b).mpr (List.mem_cons_of_mem _ hb)) (h.region_ne_page hb))) hlen
    rw [hwalk]
    refine ⟨_, rfl, ?_, ?_⟩
    · rw [freed_free, taken_free, hfreed, (freeRegions_record hwalk).2, hnone, List.append_nil]
      exact ((List.reverse_perm g.regions).cons _).trans htaken.symm
    · have hback := hF.holds hholds (s.page, 0) (hC ▸ Or.inr List.mem_cons_self)
      rw [← hC, beside_sdiff (h.fresh _ List.mem_cons_self) List.not_mem_nil] at hback
      have hset : beside B [] = B := by
        ext b
        exact or_iff_left List.not_mem_nil
      rw [hset] at hback
      exact hback

/-! ### Runs -/

section runs

variable {f : ℕ → Machine A → ℕ × Machine A} {c c' : Run (Journal A)} {op : Op} {count : ℕ} {r : ℤ}
  {s' : State (Journal A)}

/-- Only `pool_destroy` gives pages back. -/
theorem freed_poolGrow (h : poolGrow (Journal.alloc f) s count = some (r, s')) :
    s'.pages.freed = s.pages.freed := by
  unfold poolGrow at h
  dsimp only at h
  split_ifs at h with h1 h2 h3
  · rw [Option.some.injEq, Prod.mk.injEq] at h
    rw [← h.2]
  · rw [Option.some.injEq, Prod.mk.injEq] at h
    rw [← h.2]
    exact freed_alloc f _ s.toMachine
  · rw [Option.some.injEq, Prod.mk.injEq] at h
    rw [← h.2, fillRegion_pages]
    exact freed_alloc f _ s.toMachine

/-- `pool_alloc` gives no block back. -/
theorem freed_poolAlloc {o : ℕ} (h : poolAlloc (Journal.alloc f) s = some (o, s')) :
    s'.pages.freed = s.pages.freed := by
  unfold poolAlloc at h
  split_ifs at h with h0
  · cases hgrow : poolGrow (Journal.alloc f) s s.pool.growCount with
    | none =>
        rw [hgrow] at h
        exact absurd h nofun
    | some res =>
        obtain ⟨r, s₁⟩ := res
        rw [hgrow] at h
        dsimp only at h
        split_ifs at h with hr
        · rw [Option.some.injEq, Prod.mk.injEq] at h
          rw [← h.2]
          exact freed_poolGrow hgrow
        · have hs' : (popChunk s₁).2 = s' := congrArg Prod.snd (Option.some.inj h)
          rw [← hs', popChunk_pages]
          exact freed_poolGrow hgrow
  · have hs' : (popChunk s).2 = s' := congrArg Prod.snd (Option.some.inj h)
    rw [← hs', popChunk_pages]

/-- No call before `pool_destroy` gives a block back. -/
theorem freed_step (h : step (Journal.alloc f) c op = some c') : c'.state.pages.freed = c.state.pages.freed := by
  cases op with
  | alloc =>
      obtain ⟨⟨o, s'⟩, hcall, hc'⟩ := Option.map_eq_some_iff.mp h
      rw [← hc']
      exact freed_poolAlloc hcall
  | free object =>
      obtain rfl := Option.some.inj h
      rw [poolFree_pages]
  | write addr byte =>
      obtain rfl := Option.some.inj h
      rfl

/-- A creation that succeeds gives no block back. -/
theorem freed_poolCreate {fU : ℕ → Machine A → ℕ × Machine A}
    {freePages : ℕ → ℕ → Machine (Journal A) → Machine (Journal A)} {M : Machine A} {name size : ℕ}
    (h : poolCreate (Journal.alloc f) (Journal.alloc fU) freePages (start M) name size count = some (.ok s)) :
    s.pages.freed = [] := by
  unfold poolCreate at h
  dsimp only at h
  split_ifs at h with h1 h2
  · exact absurd h (by simp)
  · exact absurd h (by simp)
  · obtain ⟨M₁, hM₁⟩ : ∃ M₁, (Journal.alloc fU 0 (start M)).2 = M₁ := ⟨_, rfl⟩
    have hnone : M₁.pages.freed = [] := hM₁ ▸ freed_alloc fU 0 (start M)
    rw [hM₁] at h
    cases hgrow : poolGrow (Journal.alloc f) ⟨M₁, (Journal.alloc fU 0 (start M)).1, newPool size count⟩ count with
    | none =>
        rw [hgrow] at h
        exact absurd h nofun
    | some res =>
        obtain ⟨r, s₁⟩ := res
        rw [hgrow] at h
        dsimp only at h
        split_ifs at h with hr
        · exact absurd h (by simp)
        · rw [Option.some.injEq, Except.ok.injEq] at h
          rw [← h, freed_poolGrow hgrow]
          exact hnone

end runs

/-- For every page allocator that hands out fresh blocks of the order asked for, every pool and every run of calls in
which growing adds objects: destroying the pool gives back exactly the blocks that it took, each once, and leaves the
allocator with the blocks that were held before the pool, if and only if the order of each region is the largest that
its address is aligned to. -/
theorem destroy_returns_iff (P : Holding A) {allocReclaimable allocUnmovable : ℕ → Machine A → ℕ × Machine A}
    {free : ℕ → ℕ → Machine A → Machine A} (hR : P.Allocator allocReclaimable) (hU : P.Allocator allocUnmovable)
    (hF : P.Freer free) {M : Machine A} {B : Set (ℕ × ℕ)} (hM : P.Holds M B) {name size count : ℕ}
    (hsize : size < 2 ^ 64) {s : State (Journal A)}
    (hcreate : poolCreate (Journal.alloc allocReclaimable) (Journal.alloc allocUnmovable) (Journal.free free) (start M)
      name size count = some (.ok s)) (ops : List Op)
    (hg : Guarded (step (Journal.alloc allocReclaimable))
      (fun c op => Valid c op ∧ AddsObjects (Journal.alloc allocReclaimable) c op) (opened s) ops) :
    ∃ c, exec (step (Journal.alloc allocReclaimable)) (opened s) ops = some c ∧
      ((∃ M', poolDestroy (Journal.free free) c.state = some M' ∧ M'.pages.freed.Perm M'.pages.taken ∧
          P.Holds (plain M') B) ↔
        ∀ b ∈ c.state.pages.taken, b.1 ≠ c.state.page → Natural b) := by
  have hR' : (P.recorded B).Allocator (Journal.alloc allocReclaimable) := hR.recorded
  rcases create_cases hR' hU.recorded (Holding.holds_start hM) (Journal.free free) name hsize count with
    ⟨M', hcall⟩ | ⟨hcall, -⟩ | ⟨s', b, hcall, -, -, -, -, hrep⟩
  · rw [hcall] at hcreate
    exact absurd hcreate (by simp)
  · rw [hcall] at hcreate
    exact absurd hcreate nofun
  obtain rfl : s' = s := by
    rw [hcall, Option.some.injEq, Except.ok.injEq] at hcreate
    exact hcreate
  have hinv : Inv (P.recorded B) B (opened s') _ := ⟨hrep, rfl⟩
  obtain ⟨c, hexec, g, h, -⟩ := hinv.exec hR' hg
  have hnone : c.state.pages.freed = [] :=
    invariant (I := fun c : Run (Journal A) => c.state.pages.freed = [])
      (fun c op c' hc (_ : True) hstep => (freed_step hstep).trans hc) (freed_poolCreate hcreate)
      (guarded_of_forall (fun _ _ => trivial) _ _) hexec
  exact ⟨c, hexec, h.rep.destroy_iff hF hnone⟩

/-! ### A region at an even page, and one at an odd page -/

/-- Empty memory, its first free page at `page`, and an empty journal. -/
def journalAt (page : ℕ) : Machine (Journal ℕ) := start ⟨fun _ => 0, page⟩

/-- The pool of three objects of 1024 bytes at `page`, with its region behind it. -/
def recordedPool (page : ℕ) : State (Journal ℕ) :=
  fillRegion ⟨⟨fun _ => 0, ⟨page + 0x2000, [(page + 0x1000, 0), (page, 0)], []⟩⟩, page, newPool 1024 2⟩
    (page + 0x1000) 3

/-- A page cut off, with its record. -/
theorem recordedAlloc_eq {page : ℕ} (h0 : page ≠ 0) (hfits : page + 0x1000 ≤ 2 ^ 64) (l : List (ℕ × ℕ)) :
    Journal.alloc bumpAlloc 0 ⟨fun _ => 0, ⟨page, l, []⟩⟩
      = (page, ⟨fun _ => 0, ⟨page + 0x1000, (page, 0) :: l, []⟩⟩) := by
  have hend : blockEnd (page, 0) = page + 0x1000 := by
    unfold blockEnd pageSize
    rw [pow_zero, one_mul]
  have hcall : bumpAlloc 0 ⟨fun _ => 0, page⟩ = (page, ⟨fun _ => 0, page + 0x1000⟩) := by
    rw [bumpAlloc_eq (hend ▸ hfits), hend]
  unfold Journal.alloc plain
  dsimp only
  rw [hcall]
  dsimp only
  rw [if_neg h0]

/-- The creation of a pool of three objects, with its record. -/
theorem create_recorded (page : ℕ) (h0 : page ≠ 0) (hfits : page + 0x2000 ≤ 2 ^ 64) :
    poolCreate (Journal.alloc bumpAlloc) (Journal.alloc bumpAlloc) (Journal.free bumpFree) (journalAt page) 1 1024 2
      = some (.ok (recordedPool page)) :=
  poolCreate_eq (k := 0) (n := 3) (z := 1024) _ (by norm_num) (by decide +kernel) (by norm_num) (by decide +kernel)
    (by decide +kernel) (recordedAlloc_eq h0 (by omega) []) h0 (recordedAlloc_eq (by omega) (by omega) _) (by omega)

/-- The region is at `0x3000`, an odd page: its order is 0, and so is the guess. -/
theorem destroy_returns_sample :
    ∃ c, exec (step (Journal.alloc bumpAlloc)) (opened (recordedPool 0x2000)) [.alloc] = some c ∧
      ((∃ M', poolDestroy (Journal.free bumpFree) c.state = some M' ∧ M'.pages.freed.Perm M'.pages.taken ∧
          bump.Holds (plain M') ∅) ↔
        ∀ b ∈ c.state.pages.taken, b.1 ≠ c.state.page → Natural b) :=
  destroy_returns_iff bump bumpAlloc_allocator bumpAlloc_allocator bumpFree_freer
    (bump_start (by norm_num) (by norm_num [pageSize]))
    (by norm_num) (create_recorded 0x2000 (by norm_num) (by norm_num)) _
    ⟨⟨trivial, fun s h0 _ => absurd h0 (by decide +kernel)⟩, fun _ _ => trivial⟩

/-- The region is at `0x2000`, an even page: it is of order 0, and `pool_destroy` frees two pages. -/
theorem region_freed_with_its_neighbour :
    ¬ ∀ (A : Type) (P : Holding A) (alloc : ℕ → Machine A → ℕ × Machine A) (free : ℕ → ℕ → Machine A → Machine A)
      (M : Machine A) (s : State (Journal A)), P.Allocator alloc → P.Freer free → P.Holds M ∅ →
        (∀ k M' B, P.Holds M' B → (alloc k M').1 % pageSize = 0) →
        poolCreate (Journal.alloc alloc) (Journal.alloc alloc) (Journal.free free) (start M) 1 1024 2 = some (.ok s) →
        ∃ M', poolDestroy (Journal.free free) s = some M' ∧ M'.pages.freed.Perm M'.pages.taken := by
  intro h
  obtain ⟨M', hcall, hperm⟩ := h ℕ bump bumpAlloc bumpFree ⟨fun _ => 0, 0x1000⟩ _ bumpAlloc_allocator bumpFree_freer
    (bump_start (by norm_num) (by norm_num [pageSize])) (fun k M' B hheld => bumpAlloc_aligned hheld k)
    (create_recorded 0x1000 (by norm_num) (by norm_num))
  have hrecord : (poolDestroy (Journal.free bumpFree) (recordedPool 0x1000)).map
      (fun M => (M.pages.freed, M.pages.taken)) = some ([(0x1000, 0), (0x2000, 1)], [(0x2000, 0), (0x1000, 0)]) := by
    decide +kernel
  rw [hcall, Option.map_some, Option.some.injEq, Prod.mk.injEq] at hrecord
  rw [hrecord.1, hrecord.2] at hperm
  have hin := hperm.subset (List.mem_cons_of_mem _ List.mem_cons_self)
  exact absurd hin (by decide)

end PrometheusKernel.Pool
