import PrometheusKernel.Cow.CountedRuns
import PrometheusKernel.Cow.FailedCalls

/-!
# Counts below zero

A count is an unsigned word, and neither `cow_decrement_ref` nor `cow_handle_fault` looks whether it is 0
before it subtracts one. `cow_get_ref` makes entries with count 0, and the fault of the last sharer leaves one,
so a `cow_decrement_ref` after either turns the count into `2 ^ 32 - 1` (`count_wraps`; the sequence is that of
`test_cow_allocation_failure_handling`).

In runs in which no count of 0 is decremented, no count exceeds the number of times the frame was counted, and
`cow_decrement_ref` makes no count larger (`counts_bounded`).
-/

namespace PrometheusKernel.Cow.CountedRuns

open ByteMem LinkedList Vmm Interleaving

/-- No count of 0 is decremented: an entry that `cow_decrement_ref` finds has another count, and so has the frame
of a copy-on-write mapping in `cow_handle_fault`. -/
def FromPositive {A : Type} (c : Config A) : Op → Prop
  | .fault pml4 virt => ∀ f fl, translate c.state.mem pml4 virt = some (f, fl) → isCow fl = true →
      cowGetRefCount c.state f ≠ some 0
  | .decrement physAddr => ∀ ref, ref ≠ 0 → findRef c.state (frameOf physAddr) = some ref →
      refCount c.state.mem ref ≠ 0
  | _ => True

/-- The guard of the run. -/
def Positive {A : Type} (roots : Set ℕ) (c : Config A) (op : Op) : Prop := Allowed roots c op ∧ FromPositive c op

section bounded

variable {A : Type} {P : Ownership A} {alloc : Machine A → ℕ × Machine A} {free : ℕ → ℕ → Machine A → Machine A}
  {roots : Set ℕ} {c : Config A} {g : Ghost} {n : ℕ}

/-- No count exceeds the number of times the frame was counted, which is at most `n`. -/
structure Bounded (P : Ownership A) (roots : Set ℕ) (n : ℕ) (c : Config A) (g : Ghost) : Prop where
  sound : Sound P roots c g
  le : ∀ f, g.cnt f ≤ c.counted f
  few : ∀ f, c.counted f ≤ n

/-- Counts do not grow where nothing is counted. -/
theorem Bounded.down (h : Bounded P roots n c g) {c' : Config A} {g' : Ghost} (hsound : Sound P roots c' g')
    (hcounted : c'.counted = c.counted) (hcnt : ∀ f, g'.cnt f ≤ g.cnt f) : Bounded P roots n c' g' := by
  refine ⟨hsound, fun f => ?_, fun f => ?_⟩
  · rw [hcounted]
    exact (hcnt f).trans (h.le f)
  · rw [hcounted]
    exact h.few f

/-- A larger bound is a bound. -/
theorem Bounded.mono (h : Bounded P roots n c g) : Bounded P roots (n + 1) c g :=
  ⟨h.sound, h.le, fun f => (h.few f).trans n.le_succ⟩

/-- A decrement makes no count larger. -/
theorem sub_one_le {n : ℕ → ℕ} {f : ℕ} (hpos : n f ≠ 0) (hlt : n f < 2 ^ 32) (x : ℕ) :
    Function.update n f (Word.sub 32 (n f) 1) x ≤ n x := by
  by_cases hx : x = f
  · rw [hx, Function.update_self, Word.sub_eq (Nat.one_le_iff_ne_zero.mpr hpos) hlt]
    exact Nat.sub_le _ _
  · rw [Function.update_of_ne hx]

/-- One more, where nothing wraps. -/
theorem Bounded.up (h : Bounded P roots n c g) (hn : n + 1 < 2 ^ 32) {c' : Config A} {g' : Ghost} {f : ℕ}
    (hsound : Sound P roots c' g') (hcounted : c'.counted = bump c.counted f)
    (hcnt : g'.cnt = Function.update g.cnt f (Word.add 32 (g.cnt f) 1)) : Bounded P roots (n + 1) c' g' := by
  have hle := h.le f
  have hfew := h.few f
  refine ⟨hsound, fun x => ?_, fun x => ?_⟩
  · rw [hcnt, hcounted, bump]
    by_cases hx : x = f
    · rw [hx, Function.update_self, Function.update_self, Word.add_eq (by omega)]
      exact Nat.succ_le_succ hle
    · rw [Function.update_of_ne hx, Function.update_of_ne hx]
      exact h.le x
  · rw [hcounted, bump]
    by_cases hx : x = f
    · rw [hx, Function.update_self]
      exact Nat.succ_le_succ hfew
    · rw [Function.update_of_ne hx]
      exact (h.few x).trans n.le_succ

/-- `cow_decrement_ref` makes no count larger. -/
theorem Bounded.decrement (h : Bounded P roots n c g) (hfree : P.Freer fun f => free f 0) {physAddr : ℕ}
    (hop : Positive roots c (.decrement physAddr)) :
    ∃ c' g', step alloc free c (.decrement physAddr) = some c' ∧ Bounded P roots n c' g' ∧
      ∀ f, g'.cnt f ≤ g.cnt f := by
  have hfoot := h.sound.footing
  obtain ⟨c', g', hstep, hsound', hcounted, -, hres⟩ := h.sound.decrement hfree hop.1
  have hdown : ∀ f, g'.cnt f ≤ g.cnt f := by
    rcases hres with ⟨-, hcnt, -⟩ | ⟨hentry, -, hcnt, -⟩ | ⟨-, hcnt, -⟩
    · exact fun f => (congrFun hcnt f).le
    · obtain ⟨ref, h0, hfind⟩ := (hfoot.hasEntry_iff _).mp hentry
      have hne := hop.2 ref h0 hfind
      have hcount := hfoot.getRefCount (frameOf physAddr)
      unfold cowGetRefCount at hcount
      rw [show frameOf physAddr &&& complement 0xFFF = frameOf physAddr from frameOf_frameOf physAddr, hfind,
        Option.map_some, if_neg h0, frameOf_frameOf] at hcount
      rw [hcnt]
      exact sub_one_le (Option.some.inj hcount ▸ hne) (hfoot.refs.cnt_lt _)
    · intro f
      rw [hcnt]
      by_cases hf : f = frameOf physAddr
      · rw [hf, Function.update_self]
        exact Nat.zero_le _
      · rw [Function.update_of_ne hf]
  exact ⟨c', g', hstep, h.down hsound' hcounted hdown, hdown⟩

/-- One call raises the bound by one. -/
theorem Bounded.step (h : Bounded P roots n c g) (halloc : P.Allocator alloc) (hfree : P.Freer fun f => free f 0)
    (hn : n + 1 < 2 ^ 32) {op : Op} (hop : Positive roots c op) :
    ∃ c' g', CountedRuns.step alloc free c op = some c' ∧ Bounded P roots (n + 1) c' g' := by
  cases op with
  | acquire =>
      obtain ⟨c', g', hstep, hsound', hcnt, hcounted, -⟩ := h.sound.acquire halloc
      exact ⟨c', g', hstep, (h.down hsound' hcounted fun f => (congrFun hcnt f).le).mono⟩
  | mark pml4 virt =>
      obtain ⟨c', g', hstep, hsound', ⟨hcnt, hcounted⟩ | ⟨f, hcnt, hcounted⟩⟩ := h.sound.mark halloc hop.1 virt
      · exact ⟨c', g', hstep, (h.down hsound' hcounted fun f => (congrFun hcnt f).le).mono⟩
      · exact ⟨c', g', hstep, h.up hn hsound' hcounted hcnt⟩
  | fault pml4 virt =>
      obtain ⟨c', g', hstep, hsound', hcounted, hcnt | ⟨f, fl, ht, hcow, hcnt⟩⟩ := h.sound.fault halloc hop.1 virt
      · exact ⟨c', g', hstep, (h.down hsound' hcounted fun f => (congrFun hcnt f).le).mono⟩
      · refine ⟨c', g', hstep, (h.down hsound' hcounted ?_).mono⟩
        have hfoot := h.sound.footing
        have hframe : frameOf f = f := by
          obtain ⟨pt, -, hdec⟩ := exists_entry ht
          rw [← (decode_eq_some hdec).2.1]
          exact frameOf_and_frameMask _
        have hne := hop.2 f fl ht hcow
        rw [hfoot.getRefCount, hframe] at hne
        rw [hcnt]
        exact sub_one_le (fun h0 => hne (congrArg some h0)) (hfoot.refs.cnt_lt f)
  | getRef physAddr =>
      obtain ⟨c', g', hstep, hsound', hcnt, hcounted⟩ := h.sound.getRef halloc physAddr
      exact ⟨c', g', hstep, (h.down hsound' hcounted fun f => (congrFun hcnt f).le).mono⟩
  | increment physAddr =>
      obtain ⟨c', g', hstep, hsound', -, -, -, ⟨-, hcnt, hcounted⟩ | ⟨hcnt, hcounted⟩⟩ :=
        h.sound.increment halloc physAddr
      · exact ⟨c', g', hstep, (h.down hsound' hcounted fun f => (congrFun hcnt f).le).mono⟩
      · exact ⟨c', g', hstep, h.up hn hsound' hcounted hcnt⟩
  | decrement physAddr =>
      obtain ⟨c', g', hstep, h', -⟩ := h.decrement hfree hop
      exact ⟨c', g', hstep, h'.mono⟩

/-- A run raises the bound by its length. -/
theorem Bounded.exec (h : Bounded P roots n c g) (halloc : P.Allocator alloc) (hfree : P.Freer fun f => free f 0)
    {ops : List Op} (hn : n + ops.length < 2 ^ 32) (hg : Guarded (CountedRuns.step alloc free) (Positive roots) c ops) :
    ∃ c' g', Interleaving.exec (CountedRuns.step alloc free) c ops = some c' ∧
      Bounded P roots (n + ops.length) c' g' := by
  have hstep : ∀ n c op, n + 1 < 2 ^ 32 → (∃ g, Bounded P roots n c g) → Positive roots c op →
      ∃ c', CountedRuns.step alloc free c op = some c' ∧ ∃ g', Bounded P roots (n + 1) c' g' := by
    rintro n c op hlt ⟨g, h⟩ hop
    obtain ⟨c', g', hstep, h'⟩ := h.step halloc hfree hlt hop
    exact ⟨c', hstep, g', h'⟩
  obtain ⟨c', hexec, g', h'⟩ := exec_counted hstep hn ⟨g, h⟩ hg
  exact ⟨c', g', hexec, h'⟩

end bounded

/-- In every run of fewer than `2 ^ 32` calls in which no count of 0 is decremented, no count exceeds the number of
calls that have counted the frame, and a further `cow_decrement_ref` makes no count larger. -/
theorem counts_bounded {A : Type} (P : Ownership A) (alloc : Machine A → ℕ × Machine A)
    (free : ℕ → ℕ → Machine A → Machine A) (halloc : P.Allocator alloc) (hfree : P.Freer fun f => free f 0)
    (s : Machine A) (roots F T : Set ℕ) (held : List ℕ) (howns : P.Owns s F) (htables : Tables s.mem roots T)
    (hT : T ⊆ F) (hheld : ∀ f ∈ held, f ∈ F ∧ f ∉ T) (ops : List Op) (hlength : ops.length < 2 ^ 32)
    (hg : Guarded (step alloc free) (Positive roots) (start s held) ops) :
    ∃ c, Interleaving.exec (step alloc free) (start s held) ops = some c ∧
      (∀ physAddr, ∃ count, cowGetRefCount c.state physAddr = some count ∧ count ≤ c.counted (frameOf physAddr)) ∧
      ∀ physAddr, Positive roots c (.decrement physAddr) → ∃ c', step alloc free c (.decrement physAddr) = some c' ∧
        ∀ a count count', cowGetRefCount c.state a = some count → cowGetRefCount c'.state a = some count' →
          count' ≤ count := by
  have hstart : Bounded P roots 0 (start s held) ⟨F, T, ∅, {f | f ∈ held}, fun _ => [], fun _ => 0⟩ :=
    ⟨sound_start howns htables hT hheld, fun _ => le_rfl, fun _ => le_rfl⟩
  obtain ⟨c, g, hexec, h⟩ := hstart.exec halloc hfree (by omega) hg
  refine ⟨c, hexec, fun physAddr => ⟨_, h.sound.footing.getRefCount physAddr, h.le _⟩, fun physAddr hop => ?_⟩
  obtain ⟨c', g', hstep, h', hdown⟩ := h.decrement hfree hop
  refine ⟨c', hstep, fun a count count' hcount hcount' => ?_⟩
  rw [h.sound.footing.getRefCount] at hcount
  rw [h'.sound.footing.getRefCount] at hcount'
  rw [← Option.some.inj hcount, ← Option.some.inj hcount']
  exact hdown _

/-! ### Two runs -/

/-- `Positive` as a test, for the address space of `0x1000`. -/
def positiveTest (c : Config (List ℕ)) : Op → Bool
  | .mark pml4 _ => pml4 = 0x1000
  | .fault pml4 virt => decide (pml4 = 0x1000) && match translate c.state.mem pml4 virt with
      | none => true
      | some e => !isCow e.2 || decide (cowGetRefCount c.state e.1 ≠ some 0)
  | .decrement physAddr =>
      (decide (cowGetRefCount c.state physAddr ≠ some 1) || decide (frameOf physAddr ∈ c.held)) &&
        match findRef c.state (frameOf physAddr) with
        | none => true
        | some ref => decide (ref = 0) || decide (refCount c.state.mem ref ≠ 0)
  | _ => true

/-- The test of a call is sound. -/
theorem positive_of_test (c : Config (List ℕ)) (op : Op) (h : positiveTest c op = true) : Positive {0x1000} c op := by
  cases op with
  | mark pml4 virt =>
      have hr : pml4 = 0x1000 := of_decide_eq_true h
      exact ⟨hr, trivial⟩
  | fault pml4 virt =>
      obtain ⟨hr, ht⟩ := (Bool.and_eq_true _ _).mp h
      have hr : pml4 = 0x1000 := of_decide_eq_true hr
      refine ⟨hr, fun f fl htrans hcow => ?_⟩
      rw [htrans] at ht
      simpa [hcow] using ht
  | decrement physAddr =>
      obtain ⟨hheld, hfind⟩ := (Bool.and_eq_true _ _).mp h
      refine ⟨fun h1 => ?_, fun ref h0 href => ?_⟩
      · simpa [h1] using hheld
      · rw [href] at hfind
        simpa [h0] using hfind
  | acquire => exact ⟨trivial, trivial⟩
  | getRef physAddr => exact ⟨trivial, trivial⟩
  | increment physAddr => exact ⟨trivial, trivial⟩

/-- A page is marked, counted by other means, released once, and written by its last sharer. -/
def lastSharer : List Op :=
  [.mark 0x1000 0x400000, .increment 0x5abc, .getRef 0x7000, .decrement 0x5000, .fault 0x1000 0x400000]

/-- A shared frame that loses its last sharer. -/
theorem counts_bounded_sample :
    ∃ c, Interleaving.exec (step popFree fun f _ => pushFree f)
        (start ⟨onePageMem 0x5003, [0x6000, 0x8000]⟩ [0x5000]) lastSharer = some c ∧
      (∀ physAddr, ∃ count, cowGetRefCount c.state physAddr = some count ∧ count ≤ c.counted (frameOf physAddr)) ∧
      ∀ physAddr, Positive {0x1000} c (.decrement physAddr) →
        ∃ c', step popFree (fun f _ => pushFree f) c (.decrement physAddr) = some c' ∧
          ∀ a count count', cowGetRefCount c.state a = some count → cowGetRefCount c'.state a = some count' →
            count' ≤ count := by
  obtain ⟨htables, -⟩ := @onePage_spec 0x5003 (by norm_num)
  refine counts_bounded stack popFree (fun f _ => pushFree f) popFree_allocator pushFree_freer _ {0x1000}
    (Set.insert 0x5000 onePageTables) onePageTables [0x5000] ⟨?_, by decide, ?_⟩ htables (Set.subset_insert _ _) ?_
    lastSharer (by decide) (guarded_of_guardedBy positive_of_test (by decide +kernel))
  · rintro f (rfl | hf)
    · exact ⟨by decide, by decide, by decide⟩
    · exact isFrame_onePageTables f hf
  · intro f hf
    obtain rfl | rfl : f = 0x6000 ∨ f = 0x8000 := by simpa using hf
    · refine ⟨⟨by decide, by decide, by decide⟩, ?_⟩
      rintro (h | h | h | h | h) <;> exact absurd h (by decide)
    · refine ⟨⟨by decide, by decide, by decide⟩, ?_⟩
      rintro (h | h | h | h | h) <;> exact absurd h (by decide)
  · intro f hf
    obtain rfl : f = 0x5000 := List.mem_singleton.mp hf
    refine ⟨Or.inl rfl, ?_⟩
    rintro (h | h | h | h) <;> exact absurd h (by decide)

/-- A caller looks the entry of its page up and releases the page. -/
theorem count_wraps :
    ¬ ∀ (P : Ownership (List ℕ)) (alloc : Machine (List ℕ) → ℕ × Machine (List ℕ))
        (free : ℕ → ℕ → Machine (List ℕ) → Machine (List ℕ)), P.Allocator alloc → P.Freer (fun f => free f 0) →
      ∀ (s : Machine (List ℕ)) (roots F T : Set ℕ) (held : List ℕ), P.Owns s F → Tables s.mem roots T → T ⊆ F →
        (∀ f ∈ held, f ∈ F ∧ f ∉ T) → ∀ ops : List Op, ops.length < 2 ^ 32 →
          Guarded (step alloc free) (Allowed roots) (start s held) ops →
          ∃ c, Interleaving.exec (step alloc free) (start s held) ops = some c ∧
            ∀ physAddr count, cowGetRefCount c.state physAddr = some count → count ≤ c.counted (frameOf physAddr) := by
  intro hclaim
  have hframe : ∀ f, f = 0x5000 ∨ f = 0x6000 → IsFrame f := by
    rintro f (rfl | rfl) <;> exact ⟨by decide, by decide, by decide⟩
  have howns : stack.Owns ⟨fun _ => 0, [0x6000]⟩ {0x5000} := by
    refine ⟨fun f hf => hframe f (Or.inl hf), by decide, fun f hf => ?_⟩
    obtain rfl : f = 0x6000 := List.mem_singleton.mp hf
    exact ⟨hframe _ (Or.inr rfl), fun h => absurd h (by decide)⟩
  have htables : Tables (fun _ => 0) ∅ ∅ :=
    ⟨fun r hr => absurd hr (Set.notMem_empty r), fun t ht => absurd ht.choose_spec.1 (Set.notMem_empty _),
      fun t ht => absurd ht (Set.notMem_empty t)⟩
  have hguard : Guarded (step popFree fun f _ => pushFree f) (Allowed ∅) (start ⟨fun _ => 0, [0x6000]⟩ [0x5000])
      [.getRef 0x5000, .decrement 0x5000] := by
    refine ⟨trivial, fun c' hc' => ⟨fun h1 => ?_, fun _ _ => trivial⟩⟩
    -- the entry is new, its count is not 1
    have hvals : (step popFree (fun f _ => pushFree f) (start ⟨fun _ => 0, [0x6000]⟩ [0x5000])
        (.getRef 0x5000)).map (fun c => cowGetRefCount c.state 0x5000) = some (some 0) := by decide +kernel
    rw [hc', Option.map_some, h1] at hvals
    exact absurd hvals (by decide)
  obtain ⟨c, hexec, hle⟩ := hclaim stack popFree (fun f _ => pushFree f) popFree_allocator pushFree_freer
    ⟨fun _ => 0, [0x6000]⟩ ∅ {0x5000} ∅ [0x5000] howns htables (Set.empty_subset _)
    (fun f hf => ⟨List.mem_singleton.mp hf, Set.notMem_empty f⟩) _ (by decide) hguard
  have hvals : (Interleaving.exec (step popFree fun f _ => pushFree f) (start ⟨fun _ => 0, [0x6000]⟩ [0x5000])
      [.getRef 0x5000, .decrement 0x5000]).map (fun c => (cowGetRefCount c.state 0x5000, c.counted 0x5000))
      = some (some (2 ^ 32 - 1), 0) := by decide +kernel
  rw [hexec, Option.map_some, Option.some.injEq, Prod.mk.injEq] at hvals
  have hcount := hle 0x5000 _ hvals.1
  rw [show frameOf 0x5000 = 0x5000 by decide, hvals.2] at hcount
  exact absurd hcount (by norm_num)

end PrometheusKernel.Cow.CountedRuns
