import PrometheusKernel.Lib.Interleaving

/-!
# Lock skeletons and the order of locks

A `Skeleton` is what a function does with locks, its data forgotten: where the function looks at data, the skeleton
has both branches. `Trace` gives the lock operations of its executions.

Locks have ranks, and code takes only locks of a higher rank than those that it holds. `check` follows a skeleton
with the locks that are held, the last one taken first, and fails where the code breaks this rule, gives a lock back
that it did not take last, or leaves two branches with different locks. `Balanced` and `Leaves` are the rules to
check a function from its parts: what runs in front of a context of held locks and gives all its own locks back, and
what runs in a critical section and leaves it.

Locks are also initialised while threads run, with the structures that they are in. An `init` stores that the lock
is free, whatever it was before, so the theorems are about runs in which no lock is initialised while it is taken
(`Clear`). In these, threads that run checked code (`step`; a thread at an `acquire` of a lock that is taken has no
step) exclude each other (`exclusive`), and never end up waiting for each other: among the threads that have not
finished one can always go on (`progress`), so that every run can be continued to its end (`completes`).
-/

namespace LockOrder

open Interleaving

/-! ### Skeletons -/

/-- An operation on a lock. -/
inductive Event (L : Type*)
  | init (l : L)
  | acquire (l : L)
  | release (l : L)
deriving DecidableEq

/-- The lock operations of a function. -/
inductive Skeleton (L : Type*)
  | skip
  | init (l : L)
  | acquire (l : L)
  | release (l : L)
  | seq (a b : Skeleton L)
  /-- A test of data. -/
  | branch (a b : Skeleton L)
  /-- A loop, left after any number of rounds. -/
  | loop (a : Skeleton L)

variable {L : Type*}

/-- The operations of an execution. -/
inductive Skeleton.Trace : Skeleton L → List (Event L) → Prop
  | skip : Trace .skip []
  | init (l : L) : Trace (.init l) [.init l]
  | acquire (l : L) : Trace (.acquire l) [.acquire l]
  | release (l : L) : Trace (.release l) [.release l]
  | seq {a b : Skeleton L} {es fs : List (Event L)} (ha : Trace a es) (hb : Trace b fs) : Trace (.seq a b) (es ++ fs)
  | left {a b : Skeleton L} {es : List (Event L)} (ha : Trace a es) : Trace (.branch a b) es
  | right {a b : Skeleton L} {es : List (Event L)} (hb : Trace b es) : Trace (.branch a b) es
  | done {a : Skeleton L} : Trace (.loop a) []
  | again {a : Skeleton L} {es fs : List (Event L)} (ha : Trace a es) (hrest : Trace (.loop a) fs) :
      Trace (.loop a) (es ++ fs)

/-- Operations that keep the order of locks, from the locks `held` to the locks `out`. -/
def Orderly (rank : L → ℕ) : List L → List (Event L) → List L → Prop
  | held, [], out => held = out
  | held, .init l :: es, out => (∀ k ∈ held, rank k < rank l) ∧ Orderly rank held es out
  | held, .acquire l :: es, out => (∀ k ∈ held, rank k < rank l) ∧ Orderly rank (l :: held) es out
  | held, .release l :: es, out => ∃ rest, held = l :: rest ∧ Orderly rank rest es out

/-- Orderly pieces of code one after the other are orderly. -/
theorem Orderly.append {rank : L → ℕ} {held mid out : List L} {es fs : List (Event L)}
    (hes : Orderly rank held es mid) (hfs : Orderly rank mid fs out) : Orderly rank held (es ++ fs) out := by
  induction es generalizing held with
  | nil =>
      obtain rfl : held = mid := hes
      exact hfs
  | cons e es ih =>
      cases e with
      | init l => exact ⟨hes.1, ih hes.2⟩
      | acquire l => exact ⟨hes.1, ih hes.2⟩
      | release l =>
          obtain ⟨rest, rfl, hrest⟩ := hes
          exact ⟨rest, rfl, ih hrest⟩

section check

variable [DecidableEq L] (rank : L → ℕ)

/-- The locks held after the code, if it keeps the rules. -/
def Skeleton.check : Skeleton L → List L → Option (List L)
  | .skip, held => some held
  | .init l, held => if ∀ k ∈ held, rank k < rank l then some held else none
  | .acquire l, held => if ∀ k ∈ held, rank k < rank l then some (l :: held) else none
  | .release _, [] => none
  | .release l, k :: rest => if k = l then some rest else none
  | .seq a b, held => (a.check held).bind b.check
  | .branch a b, held => if a.check held = b.check held then a.check held else none
  | .loop a, held => if a.check held = some held then some held else none

variable {rank}

/-- The operations of checked code are orderly. -/
theorem Skeleton.Trace.orderly {s : Skeleton L} {es : List (Event L)} (h : s.Trace es) {held out : List L}
    (hcheck : s.check rank held = some out) : Orderly rank held es out := by
  induction h generalizing held out with
  | skip => exact Option.some.inj hcheck
  | init l =>
      unfold Skeleton.check at hcheck
      split_ifs at hcheck with hrank
      exact ⟨hrank, Option.some.inj hcheck⟩
  | acquire l =>
      unfold Skeleton.check at hcheck
      split_ifs at hcheck with hrank
      exact ⟨hrank, Option.some.inj hcheck⟩
  | release l =>
      cases held with
      | nil => exact absurd hcheck.symm (Option.some_ne_none out)
      | cons k rest =>
          unfold Skeleton.check at hcheck
          split_ifs at hcheck with hk
          exact ⟨rest, by rw [hk], Option.some.inj hcheck⟩
  | seq _ _ iha ihb =>
      obtain ⟨mid, hmid, hout⟩ := Option.bind_eq_some_iff.mp hcheck
      exact (iha hmid).append (ihb hout)
  | left _ ih =>
      unfold Skeleton.check at hcheck
      split_ifs at hcheck
      exact ih hcheck
  | right _ ih =>
      unfold Skeleton.check at hcheck
      split_ifs at hcheck with heq
      exact ih (heq ▸ hcheck)
  | done =>
      unfold Skeleton.check at hcheck
      split_ifs at hcheck
      exact Option.some.inj hcheck
  | again _ _ iha ihrest =>
      have hround := hcheck
      unfold Skeleton.check at hround
      split_ifs at hround with hsame
      exact (iha hsame).append (ihrest hcheck)

/-! ### Rules -/

/-- The code runs where all locks held have ranks below `r`, and gives back what it takes. -/
def Skeleton.Balanced (rank : L → ℕ) (r : ℕ) (s : Skeleton L) : Prop :=
  ∀ held, (∀ k ∈ held, rank k < r) → s.check rank held = some held

/-- The code runs in the critical section of `l` and leaves it. -/
def Skeleton.Leaves (rank : L → ℕ) (l : L) (s : Skeleton L) : Prop :=
  ∀ held, (∀ k ∈ held, rank k < rank l) → s.check rank (l :: held) = some held

namespace Skeleton

variable {r r' : ℕ} {l : L} {a b : Skeleton L}

/-- What is balanced above a rank is balanced above a lower one. -/
theorem Balanced.mono (h : Balanced rank r a) (hr : r' ≤ r) : Balanced rank r' a :=
  fun held hheld => h held fun k hk => lt_of_lt_of_le (hheld k hk) hr

/-- Code without lock operations is balanced. -/
theorem Balanced.skip : Balanced rank r (.skip : Skeleton L) := fun _ _ => rfl

/-- A lock that comes behind all locks held is initialised. -/
theorem Balanced.init (hr : r ≤ rank l) : Balanced rank r (.init l) := by
  intro held hheld
  unfold check
  rw [if_pos fun k hk => lt_of_lt_of_le (hheld k hk) hr]

/-- Balanced pieces of code one after the other are balanced. -/
theorem Balanced.seq (ha : Balanced rank r a) (hb : Balanced rank r b) : Balanced rank r (.seq a b) := by
  intro held hheld
  show (a.check rank held).bind (b.check rank) = some held
  rw [ha held hheld]
  exact hb held hheld

/-- A choice between balanced pieces of code is balanced. -/
theorem Balanced.branch (ha : Balanced rank r a) (hb : Balanced rank r b) : Balanced rank r (.branch a b) := by
  intro held hheld
  unfold check
  rw [ha held hheld, hb held hheld, if_pos rfl]

/-- A loop over a balanced body is balanced. -/
theorem Balanced.loop (ha : Balanced rank r a) : Balanced rank r (.loop a) := by
  intro held hheld
  unfold check
  rw [ha held hheld, if_pos rfl]

/-- A critical section. -/
theorem Balanced.locked (h : Leaves rank l a) (hr : r ≤ rank l) : Balanced rank r (.seq (.acquire l) a) := by
  intro held hheld
  have hbelow : ∀ k ∈ held, rank k < rank l := fun k hk => lt_of_lt_of_le (hheld k hk) hr
  show (if ∀ k ∈ held, rank k < rank l then some (l :: held) else none).bind (a.check rank) = some held
  rw [if_pos hbelow]
  exact h held hbelow

/-- A release leaves the critical section. -/
theorem Leaves.release : Leaves rank l (.release l) := by
  intro held _
  unfold check
  rw [if_pos rfl]

/-- What is done in the critical section. -/
theorem Leaves.after (ha : Balanced rank r a) (hr : rank l < r) (hb : Leaves rank l b) :
    Leaves rank l (.seq a b) := by
  intro held hheld
  have hbelow : ∀ k ∈ l :: held, rank k < r := by
    intro k hk
    rcases List.mem_cons.mp hk with rfl | hk
    · exact hr
    · exact (hheld k hk).trans hr
  show (a.check rank (l :: held)).bind (b.check rank) = some held
  rw [ha (l :: held) hbelow]
  exact hb held hheld

/-- What is done after the critical section. -/
theorem Leaves.then (ha : Leaves rank l a) (hb : Balanced rank r b) (hr : rank l ≤ r) : Leaves rank l (.seq a b) := by
  intro held hheld
  show (a.check rank (l :: held)).bind (b.check rank) = some held
  rw [ha held hheld]
  exact hb held fun k hk => lt_of_lt_of_le (hheld k hk) hr

/-- A choice leaves the critical section if both its branches do. -/
theorem Leaves.branch (ha : Leaves rank l a) (hb : Leaves rank l b) : Leaves rank l (.branch a b) := by
  intro held hheld
  unfold check
  rw [ha held hheld, hb held hheld, if_pos rfl]

/-- A critical section that is left and, on one of two paths, entered again. -/
theorem Leaves.reenter (ha : Leaves rank l a) (hb : Leaves rank l b) :
    Leaves rank l (.seq (.branch .skip (.seq a (.acquire l))) b) := by
  intro held hheld
  have hagain : (Skeleton.seq a (.acquire l)).check rank (l :: held) = some (l :: held) := by
    show (a.check rank (l :: held)).bind ((Skeleton.acquire l).check rank) = some (l :: held)
    rw [ha held hheld]
    show (if ∀ k ∈ held, rank k < rank l then some (l :: held) else none) = some (l :: held)
    rw [if_pos hheld]
  have hboth : (Skeleton.branch .skip (.seq a (.acquire l))).check rank (l :: held) = some (l :: held) := by
    show (if (some (l :: held)) = (Skeleton.seq a (.acquire l)).check rank (l :: held) then
      some (l :: held) else none) = some (l :: held)
    rw [hagain, if_pos rfl]
  show ((Skeleton.branch .skip (.seq a (.acquire l))).check rank (l :: held)).bind (b.check rank) = some held
  rw [hboth]
  exact hb held hheld

end Skeleton

end check

/-! ### Threads -/

/-- The words of the locks, and the operations that each thread still has to do. -/
structure State (ι L : Type*) where
  /-- The lock is taken. -/
  locked : L → Bool
  /-- The operations ahead of the thread. -/
  rest : ι → List (Event L)

section threads

variable {ι : Type*} [DecidableEq ι] [DecidableEq L] {rank : L → ℕ}

/-- The next operation of a thread; a thread waits for a lock that is taken. -/
def step (s : State ι L) (i : ι) : Option (State ι L) :=
  match s.rest i with
  | [] => none
  | .init l :: es => some ⟨Function.update s.locked l false, Function.update s.rest i es⟩
  | .acquire l :: es =>
      if s.locked l then none else some ⟨Function.update s.locked l true, Function.update s.rest i es⟩
  | .release l :: es => some ⟨Function.update s.locked l false, Function.update s.rest i es⟩

/-- The thread is not about to initialise a lock that is taken. -/
def Clear (s : State ι L) (i : ι) : Prop := ∀ l es, s.rest i = .init l :: es → s.locked l = false

/-- `Clear` as a test. -/
def isClear (s : State ι L) (i : ι) : Bool :=
  match s.rest i with
  | .init l :: _ => !s.locked l
  | _ => true

omit [DecidableEq ι] [DecidableEq L] in
/-- The test for `Clear` is sound. -/
theorem clear_of_isClear {s : State ι L} {i : ι} (h : isClear s i = true) : Clear s i := by
  intro l es hrest
  rw [isClear, hrest] at h
  simpa using h

/-- The next operation on `l` is its release: the thread is in the critical section of `l`. -/
def inSection (l : L) : List (Event L) → Bool
  | [] => false
  | .init k :: es => if k = l then false else inSection l es
  | .acquire k :: es => if k = l then false else inSection l es
  | .release k :: es => if k = l then true else inSection l es

/-- All threads have finished, and no lock is taken. -/
def Finished (s : State ι L) : Prop := (∀ i, s.rest i = []) ∧ ∀ l, s.locked l = false

/-- The threads hold the locks `held i`, the last one taken first. -/
structure Held (rank : L → ℕ) (s : State ι L) (held : ι → List L) : Prop where
  orderly : ∀ i, Orderly rank (held i) (s.rest i) []
  sorted : ∀ i, (held i).Pairwise fun k l => rank l < rank k
  unique : ∀ i j l, l ∈ held i → l ∈ held j → i = j
  locked : ∀ l, s.locked l = true ↔ ∃ i, l ∈ held i

omit [DecidableEq ι] in
/-- The locks that a thread holds are those whose critical sections it is in. -/
theorem inSection_iff {held : List L} {es : List (Event L)} (h : Orderly rank held es [])
    (hsorted : held.Pairwise fun k l => rank l < rank k) (l : L) : inSection l es = true ↔ l ∈ held := by
  induction es generalizing held with
  | nil =>
      obtain rfl : held = [] := h
      simp [inSection]
  | cons e es ih =>
      cases e with
      | init k =>
          obtain ⟨hrank, hrest⟩ := h
          unfold inSection
          by_cases hkl : k = l
          · subst hkl
            rw [if_pos rfl]
            exact ⟨fun hfalse => absurd hfalse Bool.false_ne_true, fun hmem => absurd (hrank k hmem) (lt_irrefl _)⟩
          · rw [if_neg hkl]
            exact ih hrest hsorted
      | acquire k =>
          obtain ⟨hrank, hrest⟩ := h
          have hiff := ih hrest (List.pairwise_cons.mpr ⟨hrank, hsorted⟩)
          unfold inSection
          by_cases hkl : k = l
          · subst hkl
            rw [if_pos rfl]
            exact ⟨fun hfalse => absurd hfalse Bool.false_ne_true, fun hmem => absurd (hrank k hmem) (lt_irrefl _)⟩
          · rw [if_neg hkl, hiff, List.mem_cons]
            exact or_iff_right (Ne.symm hkl)
      | release k =>
          obtain ⟨rest, rfl, hrest⟩ := h
          unfold inSection
          by_cases hkl : k = l
          · rw [if_pos hkl, hkl]
            exact ⟨fun _ => List.mem_cons_self, fun _ => rfl⟩
          · rw [if_neg hkl, ih hrest (List.pairwise_cons.mp hsorted).2, List.mem_cons]
            exact (or_iff_right (Ne.symm hkl)).symm

omit [DecidableEq ι] [DecidableEq L] in
/-- At the start nobody holds anything. -/
theorem Held.start {es : ι → List (Event L)} (h : ∀ i, Orderly rank [] (es i) []) :
    Held rank ⟨fun _ => false, es⟩ fun _ => [] :=
  ⟨h, fun _ => List.Pairwise.nil, fun _ _ _ hl => absurd hl List.not_mem_nil, fun _ =>
    ⟨fun hfalse => absurd hfalse Bool.false_ne_true, fun ⟨_, hl⟩ => absurd hl List.not_mem_nil⟩⟩

variable {s s' : State ι L} {held : ι → List L} {i : ι}

/-- To initialise a free lock changes nothing. -/
theorem Held.init (h : Held rank s held) {l : L} {es : List (Event L)} (hrest : s.rest i = .init l :: es)
    (hfree : s.locked l = false) :
    Held rank ⟨Function.update s.locked l false, Function.update s.rest i es⟩ held := by
  have hi := h.orderly i
  rw [hrest] at hi
  rw [← hfree, Function.update_eq_self]
  refine ⟨fun j => ?_, h.sorted, h.unique, h.locked⟩
  by_cases hj : j = i
  · subst hj
    simpa using hi.2
  · simpa [Function.update_of_ne hj] using h.orderly j

/-- A CPU that takes a free lock holds it from then on. -/
theorem Held.acquire (h : Held rank s held) {l : L} {es : List (Event L)} (hrest : s.rest i = .acquire l :: es)
    (hfree : s.locked l = false) :
    Held rank ⟨Function.update s.locked l true, Function.update s.rest i es⟩
      (Function.update held i (l :: held i)) := by
  have hi := h.orderly i
  rw [hrest] at hi
  obtain ⟨hrank, horderly⟩ := hi
  have hnone : ∀ j, l ∉ held j := by
    intro j hj
    have htaken := (h.locked l).mpr ⟨j, hj⟩
    rw [hfree] at htaken
    exact absurd htaken Bool.false_ne_true
  refine ⟨fun j => ?_, fun j => ?_, fun j k m => ?_, fun m => ?_⟩
  · by_cases hj : j = i
    · subst hj
      simpa using horderly
    · simpa [Function.update_of_ne hj] using h.orderly j
  · by_cases hj : j = i
    · subst hj
      rw [Function.update_self]
      exact List.pairwise_cons.mpr ⟨hrank, h.sorted j⟩
    · rw [Function.update_of_ne hj]
      exact h.sorted j
  · by_cases hj : j = i <;> by_cases hk : k = i
    · exact fun _ _ => hj.trans hk.symm
    · rw [hj, Function.update_self, Function.update_of_ne hk, List.mem_cons]
      rintro (rfl | hm) hm'
      · exact absurd hm' (hnone k)
      · exact h.unique i k m hm hm'
    · rw [hk, Function.update_self, Function.update_of_ne hj, List.mem_cons]
      rintro hm (rfl | hm')
      · exact absurd hm (hnone j)
      · exact h.unique j i m hm hm'
    · rw [Function.update_of_ne hj, Function.update_of_ne hk]
      exact h.unique j k m
  · dsimp only
    by_cases hm : m = l
    · subst hm
      rw [Function.update_self]
      exact ⟨fun _ => ⟨i, by rw [Function.update_self]; exact List.mem_cons_self⟩, fun _ => rfl⟩
    · rw [Function.update_of_ne hm, h.locked m]
      refine exists_congr fun j => ?_
      by_cases hj : j = i
      · rw [hj, Function.update_self, List.mem_cons]
        exact (or_iff_right hm).symm
      · rw [Function.update_of_ne hj]

/-- A CPU gives back the lock that it has taken last. -/
theorem Held.release (h : Held rank s held) {l : L} {es : List (Event L)} (hrest : s.rest i = .release l :: es) :
    Held rank ⟨Function.update s.locked l false, Function.update s.rest i es⟩
      (Function.update held i (held i).tail) := by
  have hi := h.orderly i
  rw [hrest] at hi
  obtain ⟨rest, hheld, horderly⟩ := hi
  have hsorted := h.sorted i
  rw [hheld] at hsorted
  obtain ⟨hbelow, hsorted'⟩ := List.pairwise_cons.mp hsorted
  have hgone : l ∉ rest := fun hl => lt_irrefl _ (hbelow l hl)
  have hsub : ∀ j m, m ∈ Function.update held i (held i).tail j → m ∈ held j := by
    intro j m hm
    by_cases hj : j = i
    · rw [hj, Function.update_self] at hm
      rw [hj]
      exact List.mem_of_mem_tail hm
    · rwa [Function.update_of_ne hj] at hm
  refine ⟨fun j => ?_, fun j => ?_, fun j k m hj hk => h.unique j k m (hsub j m hj) (hsub k m hk), fun m => ?_⟩
  · by_cases hj : j = i
    · subst hj
      simpa [hheld] using horderly
    · simpa [Function.update_of_ne hj] using h.orderly j
  · by_cases hj : j = i
    · rw [hj, Function.update_self, hheld]
      exact hsorted'
    · rw [Function.update_of_ne hj]
      exact h.sorted j
  · dsimp only
    by_cases hm : m = l
    · subst hm
      rw [Function.update_self]
      refine ⟨fun hfalse => absurd hfalse Bool.false_ne_true, fun ⟨j, hj⟩ => ?_⟩
      obtain rfl : j = i := h.unique j i m (hsub j m hj) (by rw [hheld]; exact List.mem_cons_self)
      rw [Function.update_self, hheld] at hj
      exact absurd hj hgone
    · rw [Function.update_of_ne hm, h.locked m]
      refine exists_congr fun j => ?_
      by_cases hj : j = i
      · rw [hj, Function.update_self, hheld, List.mem_cons]
        exact or_iff_right hm
      · rw [Function.update_of_ne hj]

/-- Every step of a CPU that initialises no lock in use keeps the record of the locks held. -/
theorem Held.step (h : Held rank s held) (hclear : Clear s i) (hstep : step s i = some s') :
    ∃ held', Held rank s' held' := by
  unfold LockOrder.step at hstep
  split at hstep
  · exact absurd hstep.symm (Option.some_ne_none s')
  · rename_i l es hrest
    obtain rfl := Option.some.inj hstep
    exact ⟨_, h.init hrest (hclear l es hrest)⟩
  · rename_i l es hrest
    split_ifs at hstep with hlocked
    obtain rfl := Option.some.inj hstep
    exact ⟨_, h.acquire hrest (by simpa using hlocked)⟩
  · rename_i l es hrest
    obtain rfl := Option.some.inj hstep
    exact ⟨_, h.release hrest⟩

omit [DecidableEq ι] in
/-- The locks exclude: at most one thread is in the critical section of a lock, and the lock is taken exactly while
one is. -/
theorem Held.exclusive (h : Held rank s held) (l : L) :
    (∀ i j, inSection l (s.rest i) = true → inSection l (s.rest j) = true → i = j) ∧
      (s.locked l = true ↔ ∃ i, inSection l (s.rest i) = true) := by
  have hiff : ∀ i, inSection l (s.rest i) = true ↔ l ∈ held i :=
    fun i => inSection_iff (h.orderly i) (h.sorted i) l
  refine ⟨fun i j hi hj => h.unique i j l ((hiff i).mp hi) ((hiff j).mp hj), ?_⟩
  rw [h.locked l]
  exact exists_congr fun i => (hiff i).symm

omit [DecidableEq ι] [DecidableEq L] in
/-- A thread that has finished holds nothing. -/
theorem Held.nil (h : Held rank s held) (hrest : s.rest i = []) : held i = [] := by
  have horderly := h.orderly i
  rw [hrest] at horderly
  exact horderly

/-- Some thread that has not finished can go on, and initialises no lock that is taken: of the locks that threads wait
for, or would have to wait for, the holder of one of the highest rank has to wait for none. -/
theorem Held.progress [Fintype ι] (h : Held rank s held) (hi : s.rest i ≠ []) :
    ∃ j s', LockOrder.step s j = some s' ∧ Clear s j := by
  by_contra hstuck
  push Not at hstuck
  have hwait : ∀ j, s.rest j ≠ [] → ∃ l es, (s.rest j = .acquire l :: es ∨ s.rest j = .init l :: es) ∧
      s.locked l = true := by
    intro j hj
    have hnone : ∀ s', LockOrder.step s j = some s' → ¬Clear s j := hstuck j
    unfold LockOrder.step Clear at hnone
    rcases hrest : s.rest j with _ | ⟨⟨l⟩ | ⟨l⟩ | ⟨l⟩, es⟩ <;> rw [hrest] at hnone
    · exact absurd hrest hj
    · refine ⟨l, es, .inr rfl, ?_⟩
      by_contra hlocked
      refine hnone _ rfl fun k fs heq => ?_
      obtain ⟨rfl, -⟩ := List.cons.inj heq |>.imp_left Event.init.inj
      simpa using hlocked
    · by_cases hlocked : s.locked l = true
      · exact ⟨l, es, .inl rfl, hlocked⟩
      · dsimp only at hnone
        rw [if_neg hlocked] at hnone
        exact absurd (fun _ _ heq => absurd heq nofun) (hnone _ rfl)
    · exact absurd (fun _ _ heq => absurd heq nofun) (hnone _ rfl)
  -- the rank of the lock that a thread waits for
  let height : ι → ℕ := fun j => match s.rest j with
    | .init l :: _ => rank l
    | .acquire l :: _ => rank l
    | _ => 0
  have hheight : ∀ j l es, s.rest j = .acquire l :: es ∨ s.rest j = .init l :: es → height j = rank l := by
    rintro j l es (hrest | hrest) <;> simp only [height, hrest]
  obtain ⟨j, hj, hmax⟩ := Finset.exists_max_image (Finset.univ.filter fun j => s.rest j ≠ []) height
    ⟨i, Finset.mem_filter.mpr ⟨Finset.mem_univ i, hi⟩⟩
  obtain ⟨l, es, hrest, hlocked⟩ := hwait j (Finset.mem_filter.mp hj).2
  obtain ⟨k, hk⟩ := (h.locked l).mp hlocked
  have hkrest : s.rest k ≠ [] := by
    intro hnil
    rw [h.nil hnil] at hk
    exact List.not_mem_nil hk
  obtain ⟨l', es', hrest', -⟩ := hwait k hkrest
  have hrank : rank l < rank l' := by
    have horderly := h.orderly k
    rcases hrest' with hrest' | hrest' <;> rw [hrest'] at horderly <;> exact horderly.1 l hk
  have hle := hmax k (Finset.mem_filter.mpr ⟨Finset.mem_univ k, hkrest⟩)
  rw [hheight j l es hrest, hheight k l' es' hrest'] at hle
  omega

/-- The number of operations ahead of all threads. -/
def ahead [Fintype ι] (s : State ι L) : ℕ := ∑ i, (s.rest i).length

/-- One operation less. -/
theorem ahead_step [Fintype ι] (hstep : step s i = some s') : ahead s' < ahead s := by
  have hlen : ∀ e es, s.rest i = e :: es → ∀ locked, ahead ⟨locked, Function.update s.rest i es⟩ < ahead s := by
    intro e es hrest locked
    refine Finset.sum_lt_sum (fun j _ => ?_) ⟨i, Finset.mem_univ i, ?_⟩ <;> dsimp only
    · by_cases hj : j = i
      · rw [hj, Function.update_self, hrest]
        exact Nat.le_succ _
      · rw [Function.update_of_ne hj]
    · rw [Function.update_self, hrest]
      exact Nat.lt_succ_self _
  unfold step at hstep
  split at hstep
  · exact absurd hstep.symm (Option.some_ne_none s')
  · rename_i l es hrest
    obtain rfl := Option.some.inj hstep
    exact hlen _ es hrest _
  · rename_i l es hrest
    split_ifs at hstep
    obtain rfl := Option.some.inj hstep
    exact hlen _ es hrest _
  · rename_i l es hrest
    obtain rfl := Option.some.inj hstep
    exact hlen _ es hrest _

/-- From every state in which the threads hold their locks in order, a schedule lets all of them finish. -/
theorem Held.completes [Fintype ι] (h : Held rank s held) :
    ∃ is s', Guarded LockOrder.step Clear s is ∧ exec LockOrder.step s is = some s' ∧ Finished s' := by
  induction hn : ahead s using Nat.strong_induction_on generalizing s held with
  | _ n ih =>
      by_cases hdone : ∀ i, s.rest i = []
      · refine ⟨[], s, trivial, rfl, hdone, fun l => ?_⟩
        have hfree : ¬ s.locked l = true := by
          rw [h.locked l]
          rintro ⟨i, hl⟩
          rw [h.nil (hdone i)] at hl
          exact List.not_mem_nil hl
        simpa using hfree
      · push Not at hdone
        obtain ⟨i, hi⟩ := hdone
        obtain ⟨j, s₁, hstep, hclear⟩ := h.progress hi
        obtain ⟨held₁, h₁⟩ := h.step hclear hstep
        obtain ⟨is, s', hguard, hexec, hfin⟩ := ih (ahead s₁) (hn ▸ ahead_step hstep) h₁ rfl
        refine ⟨j :: is, s', ⟨hclear, fun s₂ hs₂ => ?_⟩, ?_, hfin⟩
        · rw [hstep] at hs₂
          exact Option.some.inj hs₂ ▸ hguard
        · unfold exec at hexec ⊢
          rw [List.foldlM_cons, hstep]
          exact hexec

/-- Runs of threads whose operations are orderly, in which no lock is initialised while it is taken. -/
theorem Held.exec {is : List ι} (h : Held rank s held) (hguard : Guarded LockOrder.step Clear s is)
    (hexec : exec LockOrder.step s is = some s') : ∃ held', Held rank s' held' :=
  invariant (I := fun s => ∃ held, Held rank s held) (fun _ _ _ ⟨_, hs⟩ hclear hstep => hs.step hclear hstep) ⟨held, h⟩
    hguard hexec

end threads

end LockOrder
