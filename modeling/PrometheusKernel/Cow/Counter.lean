import PrometheusKernel.Cow.CountedRuns
import PrometheusKernel.PageStack

/-!
# The reference table is a counter for each frame

`cow_increment_ref` and `cow_decrement_ref` alone, on whatever addresses, with pages for all entries and no
frame released more often than it was counted: the count of a frame is the number of increments less that of
decrements, whichever of its 4096 addresses were used and whatever else is in its bucket, and the frame is
given back, with the page of its entry, by the decrement that brings it to zero and by no other
(`table_counts`).

The decrement gives back any address. If that is a page in which the table keeps an entry of its own, the
entry is in a free page from then on and is lost when the page is handed out again (`own_entry_lost`), so a
frame whose last reference goes must be a page of the callers.
-/

namespace PrometheusKernel.Cow.CountedRuns

open ByteMem LinkedList Vmm Interleaving

/-- Increments that get a page for the entry, and no more decrements of a frame than increments. -/
def Balanced {A : Type} (alloc : Machine A → ℕ × Machine A) (c : Config A) : Op → Prop
  | .acquire => True
  | .increment physAddr => (cowGetRef (Ledger.alloc alloc) c.state physAddr).map Prod.fst ≠ some 0
  | .decrement physAddr => c.decrements (frameOf physAddr) < c.counted (frameOf physAddr)
  | _ => False

/-- The table is a map from frames to increments less decrements. -/
structure Counts {A : Type} (c : Config A) : Prop where
  counts : ∀ physAddr, cowGetRefCount c.state physAddr
    = some (c.counted (frameOf physAddr) - c.decrements (frameOf physAddr))
  /-- Every frame has at most one entry, in its own bucket. -/
  buckets : ∃ chains : ℕ → List ℕ, (∀ k, IsList (refNext c.state.mem) (chains k) (c.state.hashTable k)) ∧
    (∀ k, ∀ ref ∈ chains k, cowHash (refPhysicalAddress c.state.mem ref) = k) ∧
    ∀ k, ((chains k).map (refPhysicalAddress c.state.mem)).Nodup

/-- What the call `op` has given back: the frame and the page of its entry at the last reference, else nothing. -/
def FreesAtZero {A : Type} (c : Config A) (op : Op) (c' : Config A) : Prop :=
  match op with
  | .decrement physAddr =>
      if c.counted (frameOf physAddr) = c.decrements (frameOf physAddr) + 1 then
        ∃ ref, ref ≠ 0 ∧ findRef c.state (frameOf physAddr) = some ref ∧
          c'.state.pages.freed = (ref, 0) :: (frameOf physAddr, 0) :: c.state.pages.freed
      else c'.state.pages.freed = c.state.pages.freed
  | _ => c'.state.pages.freed = c.state.pages.freed

section counter

variable {A : Type} {P : Ownership A} {alloc : Machine A → ℕ × Machine A} {free : ℕ → ℕ → Machine A → Machine A}
  {c : Config A} {g : Ghost} {n : ℕ}

/-- Counts are exact and at most `n`. -/
structure Counter (P : Ownership A) (n : ℕ) (c : Config A) (g : Ghost) : Prop where
  sound : Sound P ∅ c g
  exact : ∀ f, g.cnt f + c.decrements f = c.counted f
  few : ∀ f, c.counted f ≤ n

/-- In a state with the invariant every count is the number of calls. -/
theorem Counter.counts (h : Counter P n c g) : Counts c := by
  have hrefs := h.sound.footing.refs
  refine ⟨fun physAddr => ?_, g.chains, hrefs.list, hrefs.hash, fun k => ?_⟩
  · rw [h.sound.footing.getRefCount, ← h.exact, Nat.add_sub_cancel]
  · exact (List.nodup_map_iff_inj_on (hrefs.list k).nodup).mpr fun ref href ref' href' heq =>
      hrefs.inj k ref href ref' href' heq

/-- A frame that counts has an entry. -/
theorem Counter.hasEntry (h : Counter P n c g) {f : ℕ} (hlt : c.decrements f < c.counted f) :
    g.HasEntry c.state.mem f ∧ g.cnt f ≠ 0 := by
  have hexact := h.exact f
  have hne : g.cnt f ≠ 0 := by omega
  refine ⟨?_, hne⟩
  by_contra hentry
  exact hne (h.sound.footing.cnt_of_no_entry hentry)

/-- One call of a balanced run. -/
theorem Counter.step (h : Counter P n c g) (halloc : P.Allocator alloc) (hfree : P.Freer fun f => free f 0)
    (hn : n + 1 < 2 ^ 32) {op : Op} (hbalanced : Balanced alloc c op) (hallowed : Allowed ∅ c op) :
    ∃ c' g', CountedRuns.step alloc free c op = some c' ∧ Counter P (n + 1) c' g' ∧ FreesAtZero c op c' := by
  cases op with
  | mark pml4 virt => exact hbalanced.elim
  | fault pml4 virt => exact hbalanced.elim
  | getRef physAddr => exact hbalanced.elim
  | acquire =>
      obtain ⟨c', g', hstep, hsound', hcnt, hcounted, hdec, hfreed⟩ := h.sound.acquire halloc
      refine ⟨c', g', hstep, ⟨hsound', fun f => ?_, fun f => ?_⟩, hfreed⟩
      · rw [hcnt, hcounted, hdec]
        exact h.exact f
      · rw [hcounted]
        exact (h.few f).trans n.le_succ
  | increment physAddr =>
      obtain ⟨c', g', hstep, hsound', hdec, -, hfreed, ⟨⟨s', hget⟩, -⟩ | ⟨hcnt, hcounted⟩⟩ :=
        h.sound.increment halloc physAddr
      · exact absurd (by rw [hget, Option.map_some]) hbalanced
      set f := frameOf physAddr with hf
      have hexact := h.exact f
      have hfew := h.few f
      refine ⟨c', g', hstep, ⟨hsound', fun x => ?_, fun x => ?_⟩, hfreed⟩
      · rw [hcnt, hcounted, hdec, bump]
        by_cases hx : x = f
        · rw [hx, Function.update_self, Function.update_self, Word.add_eq (by omega)]
          omega
        · rw [Function.update_of_ne hx, Function.update_of_ne hx]
          exact h.exact x
      · rw [hcounted, bump]
        by_cases hx : x = f
        · rw [hx, Function.update_self]
          exact Nat.succ_le_succ hfew
        · rw [Function.update_of_ne hx]
          exact (h.few x).trans n.le_succ
  | decrement physAddr =>
      obtain ⟨c', g', hstep, hsound', hcounted, hdec, hres⟩ := h.sound.decrement hfree hallowed
      obtain ⟨hentry, hne⟩ := h.hasEntry hbalanced
      set f := frameOf physAddr with hf
      have hexact := h.exact f
      have hcnt : g'.cnt = Function.update g.cnt f (g.cnt f - 1) ∧ FreesAtZero c (.decrement physAddr) c' := by
        rcases hres with ⟨hnone, -⟩ | ⟨-, h1, hcnt, hfreed⟩ | ⟨h1, hcnt, hfreed⟩
        · exact absurd hentry hnone
        · rw [Word.sub_eq (Nat.one_le_iff_ne_zero.mpr hne) (h.sound.footing.refs.cnt_lt f)] at hcnt
          refine ⟨hcnt, ?_⟩
          show if c.counted f = c.decrements f + 1 then _ else _
          rw [if_neg (by omega)]
          exact hfreed
        · refine ⟨by rw [hcnt, h1], ?_⟩
          show if c.counted f = c.decrements f + 1 then _ else _
          rw [if_pos (by omega)]
          exact hfreed
      refine ⟨c', g', hstep, ⟨hsound', fun x => ?_, fun x => ?_⟩, hcnt.2⟩
      · rw [hcnt.1, hcounted, hdec, bump]
        by_cases hx : x = f
        · rw [hx, Function.update_self, Function.update_self]
          omega
        · rw [Function.update_of_ne hx, Function.update_of_ne hx]
          exact h.exact x
      · rw [hcounted]
        exact (h.few x).trans n.le_succ

/-- The guard of the run. -/
def Proper (alloc : Machine A → ℕ × Machine A) (c : Config A) (op : Op) : Prop := Balanced alloc c op ∧ Allowed ∅ c op

/-- A run whose length fits 32 bits keeps the invariant. -/
theorem Counter.exec (h : Counter P n c g) (halloc : P.Allocator alloc) (hfree : P.Freer fun f => free f 0)
    {ops : List Op} (hn : n + ops.length < 2 ^ 32) (hg : Guarded (CountedRuns.step alloc free) (Proper alloc) c ops) :
    ∃ c' g', Interleaving.exec (CountedRuns.step alloc free) c ops = some c' ∧ Counter P (n + ops.length) c' g' := by
  have hstep : ∀ n c op, n + 1 < 2 ^ 32 → (∃ g, Counter P n c g) → Proper alloc c op →
      ∃ c', CountedRuns.step alloc free c op = some c' ∧ ∃ g', Counter P (n + 1) c' g' := by
    rintro n c op hlt ⟨g, h⟩ hop
    obtain ⟨c', g', hstep, h', -⟩ := h.step halloc hfree hlt hop.1 hop.2
    exact ⟨c', hstep, g', h'⟩
  obtain ⟨c', hexec, g', h'⟩ := exec_counted hstep hn ⟨g, h⟩ hg
  exact ⟨c', g', hexec, h'⟩

end counter

/-- In every run of fewer than `2 ^ 32` increments and decrements the table is a map from frames to increments less
decrements, and every further call gives back what `FreesAtZero` says. -/
theorem table_counts {A : Type} (P : Ownership A) (alloc : Machine A → ℕ × Machine A)
    (free : ℕ → ℕ → Machine A → Machine A) (halloc : P.Allocator alloc) (hfree : P.Freer fun f => free f 0)
    (s : Machine A) (held : List ℕ) (howns : P.Owns s {f | f ∈ held}) (ops : List Op) (hlength : ops.length < 2 ^ 32)
    (hg : Guarded (step alloc free) (Proper alloc) (start s held) ops) :
    ∃ c, exec (step alloc free) (start s held) ops = some c ∧ Counts c ∧
      ∀ op, ops.length + 1 < 2 ^ 32 → Proper alloc c op →
        ∃ c', step alloc free c op = some c' ∧ FreesAtZero c op c' := by
  have htables : Vmm.Tables s.mem ∅ ∅ :=
    ⟨fun r hr => absurd hr (Set.notMem_empty r), fun t ht => absurd ht.choose_spec.1 (Set.notMem_empty _),
      fun t ht => absurd ht (Set.notMem_empty t)⟩
  have hstart : Counter P 0 (start s held) ⟨{f | f ∈ held}, ∅, ∅, {f | f ∈ held}, fun _ => [], fun _ => 0⟩ :=
    ⟨sound_start howns htables (Set.empty_subset _) fun f hf => ⟨hf, Set.notMem_empty f⟩, fun _ => rfl, fun _ => le_rfl⟩
  obtain ⟨c, g, hexec, h⟩ := hstart.exec halloc hfree (by omega) hg
  refine ⟨c, hexec, h.counts, fun op hlt hop => ?_⟩
  obtain ⟨c', -, hstep, -, hfrees⟩ := h.step halloc hfree (by omega) hop.1 hop.2
  exact ⟨c', hstep, hfrees⟩

/-! ### Two runs -/

/-- `Balanced` as a test. -/
def balancedTest (c : Config (List ℕ)) : Op → Bool
  | .acquire => true
  | .increment physAddr => decide ((cowGetRef (Ledger.alloc popFree) c.state physAddr).map Prod.fst ≠ some 0)
  | .decrement physAddr => decide (c.decrements (frameOf physAddr) < c.counted (frameOf physAddr))
  | _ => false

/-- The test of a call is sound. -/
theorem balanced_of_test (c : Config (List ℕ)) (op : Op) (h : balancedTest c op = true) : Balanced popFree c op := by
  cases op with
  | acquire => trivial
  | increment physAddr =>
      have hne : (cowGetRef (Ledger.alloc popFree) c.state physAddr).map Prod.fst ≠ some 0 := of_decide_eq_true h
      exact hne
  | decrement physAddr =>
      have hlt : c.decrements (frameOf physAddr) < c.counted (frameOf physAddr) := of_decide_eq_true h
      exact hlt
  | mark pml4 virt => exact absurd h (by simp [balancedTest])
  | fault pml4 virt => exact absurd h (by simp [balancedTest])
  | getRef physAddr => exact absurd h (by simp [balancedTest])

/-- `Proper` as a test. -/
def properTest (c : Config (List ℕ)) (op : Op) : Bool :=
  balancedTest c op && match op with
  | .decrement physAddr => decide (cowGetRefCount c.state physAddr ≠ some 1) || decide (frameOf physAddr ∈ c.held)
  | _ => true

/-- The test of a call is sound. -/
theorem proper_of_test (c : Config (List ℕ)) (op : Op) (h : properTest c op = true) : Proper popFree c op := by
  obtain ⟨hbalanced, hheld⟩ := Bool.and_eq_true_iff.mp h
  refine ⟨balanced_of_test c op hbalanced, ?_⟩
  cases op with
  | decrement physAddr =>
      intro h1
      simpa [h1] using hheld
  | mark pml4 virt => exact absurd hbalanced (by simp [balancedTest])
  | fault pml4 virt => exact absurd hbalanced (by simp [balancedTest])
  | acquire => trivial
  | increment physAddr => trivial
  | getRef physAddr => trivial

/-- Two frames of one bucket; the first to come is the first to go. -/
def oneBucket : List Op :=
  [.acquire, .increment 0x6123, .increment 0x406000, .increment 0x6fff, .decrement 0x6000, .decrement 0x6001]

/-- Two frames with one bucket. -/
theorem table_counts_sample :
    ∃ c, exec (step popFree fun f _ => pushFree f) (start ⟨fun _ => 0, [0x6000, 0x7000, 0x8000]⟩ []) oneBucket
        = some c ∧
      Counts c ∧ ∀ op, oneBucket.length + 1 < 2 ^ 32 → Proper popFree c op →
        ∃ c', step popFree (fun f _ => pushFree f) c op = some c' ∧ FreesAtZero c op c' := by
  refine table_counts stack popFree (fun f _ => pushFree f) popFree_allocator pushFree_freer _ []
    ⟨fun f hf => absurd hf List.not_mem_nil, by decide, fun f hf => ?_⟩ oneBucket (by decide)
    (guarded_of_guardedBy proper_of_test (by decide +kernel))
  obtain rfl | rfl | rfl : f = 0x6000 ∨ f = 0x7000 ∨ f = 0x8000 := by simpa using hf
  all_goals exact ⟨⟨by decide, by decide, by decide⟩, List.not_mem_nil⟩

/-- A reference to the page in which the table keeps the entry of another frame. -/
def ownEntry : List Op :=
  [.increment 0x1000, .increment 0x6000, .decrement 0x6000, .increment 0x8000, .increment 0x9000]

/-- A reference to a page of the table itself makes the counts wrong. -/
theorem own_entry_lost :
    ¬ ∀ (P : Ownership (List ℕ)) (alloc : Machine (List ℕ) → ℕ × Machine (List ℕ))
        (free : ℕ → ℕ → Machine (List ℕ) → Machine (List ℕ)), P.Allocator alloc → P.Freer (fun f => free f 0) →
      ∀ (s : Machine (List ℕ)) (held : List ℕ), P.Owns s {f | f ∈ held} → ∀ ops : List Op, ops.length < 2 ^ 32 →
        Guarded (step alloc free) (Balanced alloc) (start s held) ops →
          ∃ c, exec (step alloc free) (start s held) ops = some c ∧ Counts c := by
  intro hclaim
  obtain ⟨c, hexec, hcounts⟩ := hclaim stack popFree (fun f _ => pushFree f) popFree_allocator pushFree_freer
    ⟨fun _ => 0, [0x6000, 0x7000]⟩ [] ⟨fun f hf => absurd hf List.not_mem_nil, by decide, fun f hf => by
      obtain rfl | rfl : f = 0x6000 ∨ f = 0x7000 := by simpa using hf
      all_goals exact ⟨⟨by decide, by decide, by decide⟩, List.not_mem_nil⟩⟩ ownEntry (by decide)
    (guarded_of_guardedBy balanced_of_test (by decide +kernel))
  have hvals : (exec (step popFree fun f _ => pushFree f) (start ⟨fun _ => 0, [0x6000, 0x7000]⟩ []) ownEntry).map
      (fun c => (cowGetRefCount c.state 0x1000, c.counted 0x1000, c.decrements 0x1000)) = some (some 0, 1, 0) := by
    decide +kernel
  rw [hexec, Option.map_some, Option.some.injEq, Prod.mk.injEq, Prod.mk.injEq] at hvals
  have hcount := hcounts.counts 0x1000
  rw [show frameOf 0x1000 = 0x1000 by decide, hvals.1, hvals.2.1, hvals.2.2] at hcount
  exact absurd (Option.some.inj hcount) (by decide)

end PrometheusKernel.Cow.CountedRuns
