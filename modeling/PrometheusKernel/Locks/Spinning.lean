import PrometheusKernel.Lib.Fairness
import PrometheusKernel.Locks.Discipline
import PrometheusKernel.Spinlock.Model

/-!
# The locks of the memory subsystems are spinlocks

`Locks.Discipline` takes a lock in one step. Here a CPU takes its locks with the code of `kernel/core/spinlock.c`:
each turn is one atomic operation, or what the function does with its result, and a CPU that finds a lock taken spins.
`abs` forgets the locations: a lock is acquired at the compare-and-swap that finds 0, and released at the store.
Every turn is then one step of `LockOrder` or none (`turn_refines`).

A lock of a structure that is set up is initialised with a store of 0, whatever its word is. The results are about
schedules in which no lock is initialised while its word is 1 (`InitFree`).

Of the CPUs that have not returned, one is `Ready`: it is behind its compare-and-swap, or its next lock is free. It
stays so until some CPU acquires or releases a lock or returns from a function, and its turns bring it to this point
(`helpful`), so that every fair schedule ends all calls (`spinlocks_serve`).
-/

namespace PrometheusKernel.Locks

open LockOrder Skeleton Interleaving
open Spinlock (Pc advance spinlockInit)

/-! ### CPUs at their locks -/

section spinning

variable {ι L : Type}

/-- The words of the locks, where each CPU is, and the operations that it has not returned from. -/
structure SpinState (ι L : Type) where
  /-- `locked` of each lock. -/
  word : L → ℕ
  /-- The location in the function of the first operation of `rest`. -/
  pc : ι → Pc
  /-- The operations of the CPU. -/
  rest : ι → List (Event L)

/-- The lock of an operation. -/
def lockOf : Event L → L
  | .init l => l
  | .acquire l => l
  | .release l => l

/-- Where the function of an operation begins; `spinlock_init` is one store. -/
def entryOf : Event L → Pc
  | .init _ => .outside
  | .acquire _ => Spinlock.Call.acquire.entry
  | .release _ => Spinlock.Call.release.entry

/-- The states after `spinlock_init` of every lock. -/
def spinStart (old : L → ℕ) (ops : ι → List (Event L)) : SpinState ι L :=
  ⟨fun l => spinlockInit (old l), fun _ => .outside, ops⟩

section turn

variable [DecidableEq ι] [DecidableEq L]

/-- The next step of a CPU: `spinlock_init`, the call of another function, or a step in it. -/
def spinStep (s : SpinState ι L) (i : ι) : Option (SpinState ι L) :=
  match s.rest i with
  | [] => none
  | .init l :: es =>
      some ⟨Function.update s.word l (spinlockInit (s.word l)), s.pc, Function.update s.rest i es⟩
  | e :: es =>
      if s.pc i = .outside then some { s with pc := Function.update s.pc i (entryOf e) }
      else (advance ⟨s.pc i, false⟩ (s.word (lockOf e))).map fun (c, locked) =>
        ⟨Function.update s.word (lockOf e) locked, Function.update s.pc i c.pc,
          if c.pc = .outside then Function.update s.rest i es else s.rest⟩

/-- A turn of a CPU; one that has returned from all its calls does nothing. -/
def spinTurn (s : SpinState ι L) (i : ι) : SpinState ι L := (spinStep s i).getD s

end turn

/-- The CPU is not about to initialise a lock that is taken. -/
def InitFree (s : SpinState ι L) (i : ι) : Prop := ∀ l es, s.rest i = .init l :: es → s.word l = 0

/-- The CPU has acquired the lock and not yet returned from `spinlock_acquire`. -/
def past : Pc → Bool
  | .acquireTest prev => prev == 0
  | .acquireBarrier => true
  | _ => false

/-- `es` without an operation that has taken effect. -/
def withoutPast (pc : Pc) (es : List (Event L)) : List (Event L) := if past pc then es.tail else es

/-- The operations of each CPU that have not taken effect. -/
def pending (s : SpinState ι L) (i : ι) : List (Event L) := withoutPast (s.pc i) (s.rest i)

/-- The state of the locks. -/
def abs (s : SpinState ι L) : State ι L := ⟨fun l => s.word l ≠ 0, pending s⟩

/-- The locations that belong to an operation. -/
def Fits : Pc → List (Event L) → Prop
  | .outside, _ => True
  | .acquireSwap, es | .acquireTest _, es | .acquireLoad, es | .acquireSpin _, es | .acquireBarrier, es =>
      ∃ l rest, es = .acquire l :: rest
  | .releaseBarrier, es | .releaseStore, es => ∃ l rest, es = .release l :: rest
  | _, _ => False

/-- The words are 0 and 1, and the CPUs are in the functions that they have called. -/
structure Spins (s : SpinState ι L) : Prop where
  bit : ∀ l, s.word l ≤ 1
  fits : ∀ i, Fits (s.pc i) (s.rest i)

/-- The steps to the operation, or to the return from it, if its lock is free. -/
def dist : Pc → ℕ
  | .outside => 5
  | .acquireSwap => 1
  | .acquireTest prev => if prev = 0 then 2 else 4
  | .acquireLoad => 3
  | .acquireSpin value => if value = 0 then 2 else 4
  | .acquireBarrier => 1
  | .releaseBarrier => 2
  | .releaseStore => 1
  | _ => 0

/-- The CPU need not spin. -/
def Ready (i : ι) (s : SpinState ι L) : Prop :=
  s.rest i ≠ [] ∧ (past (s.pc i) = true ∨ ∀ l es, s.rest i = .acquire l :: es → s.word l = 0)

/-! ### One turn -/

variable [DecidableEq ι] [DecidableEq L] {s s' : SpinState ι L} {i : ι}

omit [DecidableEq L] in
/-- In `spinlock_acquire`. -/
theorem advance_acquire {pc : Pc} {l : L} {es : List (Event L)} {w w' : ℕ} {c : Spinlock.Cpu}
    (hfits : Fits pc (.acquire l :: es)) (h : advance ⟨pc, false⟩ w = some (c, w')) :
    (w' = w ∧ c.pc ≠ .outside ∧ Fits c.pc (.acquire l :: es) ∧ past c.pc = past pc ∧
        (past pc = true ∨ w = 0 → dist c.pc < dist pc)) ∨
      (pc = .acquireSwap ∧ w = 0 ∧ w' = 1 ∧ c.pc = .acquireTest 0) ∨
      (pc = .acquireBarrier ∧ w' = w ∧ c.pc = .outside) := by
  have hhere : ∃ k rest, Event.acquire l :: es = .acquire k :: rest := ⟨l, es, rfl⟩
  cases pc <;> simp only [advance, Spinlock.atomicCompareAndSwap, Spinlock.atomicLoad, Option.some.injEq,
    Prod.mk.injEq, reduceCtorEq] at h
  case releaseBarrier | releaseStore => exact absurd hfits (by simp [Fits])
  case trySwap | tryTest | tryBarrier | tryReturn => exact hfits.elim
  all_goals obtain ⟨rfl, rfl⟩ := h
  case acquireSwap =>
    by_cases h0 : w = 0
    · exact .inr (.inl ⟨rfl, h0, by rw [if_pos h0], by rw [h0]⟩)
    · exact .inl ⟨by rw [if_neg h0], nofun, hhere, by simp [past, h0], by simp [past, h0]⟩
  case acquireTest prev =>
    by_cases h0 : prev = 0
    · refine .inl ⟨rfl, ?_⟩
      simp [h0, Fits, past, dist]
    · refine .inl ⟨rfl, ?_⟩
      simp [h0, Fits, past, dist]
  case acquireLoad =>
    refine .inl ⟨rfl, nofun, hhere, rfl, ?_⟩
    rintro (hpast | h0)
    · exact absurd hpast Bool.false_ne_true
    · simp [h0, dist]
  case acquireSpin value =>
    refine .inl ⟨rfl, ?_⟩
    by_cases h0 : value = 0 <;> simp [h0, Fits, past, dist]
  case acquireBarrier => exact .inr (.inr ⟨rfl, rfl, rfl⟩)

omit [DecidableEq L] in
/-- In `spinlock_release`. -/
theorem advance_release {pc : Pc} {l : L} {es : List (Event L)} {w w' : ℕ} {c : Spinlock.Cpu}
    (hfits : Fits pc (.release l :: es)) (h : advance ⟨pc, false⟩ w = some (c, w')) :
    (pc = .releaseBarrier ∧ w' = w ∧ c.pc = .releaseStore) ∨ (pc = .releaseStore ∧ w' = 0 ∧ c.pc = .outside) := by
  cases pc <;> simp only [advance, Option.some.injEq, Prod.mk.injEq, reduceCtorEq] at h
  case releaseBarrier =>
    obtain ⟨rfl, rfl⟩ := h
    exact .inl ⟨rfl, rfl, rfl⟩
  case releaseStore =>
    obtain ⟨rfl, rfl⟩ := h
    exact .inr ⟨rfl, rfl, rfl⟩
  all_goals exact absurd hfits (by simp [Fits])

/-- What a step does: it moves on in the function, acquires a lock, returns from `spinlock_acquire`, releases a lock
and returns, or initialises a lock. -/
theorem spinStep_cases (hfits : Fits (s.pc i) (s.rest i)) (h : spinStep s i = some s') :
    (∃ pc, s' = { s with pc := Function.update s.pc i pc } ∧ Fits pc (s.rest i) ∧ past pc = past (s.pc i) ∧
        (Ready i s → dist pc < dist (s.pc i))) ∨
      (∃ l es, s.rest i = .acquire l :: es ∧ s.pc i = .acquireSwap ∧ s.word l = 0 ∧
        s' = ⟨Function.update s.word l 1, Function.update s.pc i (.acquireTest 0), s.rest⟩) ∨
      (∃ l es, s.rest i = .acquire l :: es ∧ s.pc i = .acquireBarrier ∧
        s' = ⟨s.word, Function.update s.pc i .outside, Function.update s.rest i es⟩) ∨
      (∃ l es, s.rest i = .release l :: es ∧ s.pc i = .releaseStore ∧
        s' = ⟨Function.update s.word l 0, Function.update s.pc i .outside, Function.update s.rest i es⟩) ∨
      ∃ l es, s.rest i = .init l :: es ∧ s.pc i = .outside ∧
        s' = ⟨Function.update s.word l 0, Function.update s.pc i .outside, Function.update s.rest i es⟩ := by
  unfold spinStep at h
  rcases hrest : s.rest i with _ | ⟨e, es⟩ <;> rw [hrest] at h
  · exact absurd h nofun
  rw [hrest] at hfits
  by_cases hinit : ∃ l, e = .init l
  · obtain ⟨l, rfl⟩ := hinit
    have hpc : s.pc i = .outside := by
      cases hloc : s.pc i <;> rw [hloc] at hfits <;> simp [Fits] at hfits ⊢
    obtain rfl := Option.some.inj h
    refine .inr (.inr (.inr (.inr ⟨l, es, rfl, hpc, ?_⟩)))
    rw [← hpc, Function.update_eq_self]
    rfl
  replace h : (if s.pc i = .outside then some { s with pc := Function.update s.pc i (entryOf e) }
      else (advance ⟨s.pc i, false⟩ (s.word (lockOf e))).map fun (c, locked) =>
        (⟨Function.update s.word (lockOf e) locked, Function.update s.pc i c.pc,
          if c.pc = .outside then Function.update s.rest i es else s.rest⟩ : SpinState ι L)) = some s' := by
    cases e with
    | init l => exact absurd ⟨l, rfl⟩ hinit
    | acquire l | release l => exact h
  dsimp only at h
  split_ifs at h with hpc
  · obtain rfl := Option.some.inj h
    refine .inl ⟨entryOf e, rfl, ?_⟩
    rw [hpc]
    cases e with
    | init l => exact absurd ⟨l, rfl⟩ hinit
    | acquire l => exact ⟨⟨l, es, rfl⟩, rfl, fun _ => show 1 < 5 by omega⟩
    | release l => exact ⟨⟨l, es, rfl⟩, rfl, fun _ => show 2 < 5 by omega⟩
  · obtain ⟨⟨c, locked⟩, hadvance, rfl⟩ := Option.map_eq_some_iff.mp h
    cases e with
    | init l => exact absurd ⟨l, rfl⟩ hinit
    | acquire l =>
        rcases advance_acquire hfits hadvance with ⟨hword, hin, hfits', hpast, hdist⟩ | ⟨hswap, h0, rfl, hc⟩ |
          ⟨hbarrier, hword, hc⟩
        · refine .inl ⟨c.pc, ?_, hfits', hpast, fun hready => hdist ?_⟩
          · rw [if_neg hin, hword]
            exact congrArg (SpinState.mk · _ _) (Function.update_eq_self _ _)
          · exact hready.2.imp_right fun hfree => hfree l es hrest
        · refine .inr (.inl ⟨l, es, rfl, hswap, h0, ?_⟩)
          rw [hc, if_neg nofun]
          rfl
        · refine .inr (.inr (.inl ⟨l, es, rfl, hbarrier, ?_⟩))
          rw [hc, if_pos rfl, hword]
          exact congrArg (SpinState.mk · _ _) (Function.update_eq_self _ _)
    | release l =>
        rcases advance_release hfits hadvance with ⟨hbarrier, hword, hc⟩ | ⟨hstore, rfl, hc⟩
        · refine .inl ⟨c.pc, ?_, ?_⟩
          · rw [hc, if_neg nofun, hword]
            exact congrArg (SpinState.mk · _ _) (Function.update_eq_self _ _)
          · rw [hc, hbarrier]
            exact ⟨⟨l, es, rfl⟩, rfl, fun _ => show 1 < 2 by omega⟩
        · refine .inr (.inr (.inr (.inl ⟨l, es, rfl, hstore, ?_⟩)))
          rw [hc, if_pos rfl]
          rfl

/-- A CPU that has not returned from its calls takes a step. -/
theorem spinStep_isSome (hrest : s.rest i ≠ []) : ∃ s', spinStep s i = some s' := by
  unfold spinStep
  rcases hes : s.rest i with _ | ⟨e, es⟩
  · exact absurd hes hrest
  · cases e with
    | init l => exact ⟨_, rfl⟩
    | acquire l | release l =>
        dsimp only
        split_ifs with hpc
        · exact ⟨_, rfl⟩
        · cases hloc : s.pc i with
          | outside => exact absurd hloc hpc
          | _ => exact ⟨_, rfl⟩

/-! ### Refinement -/

omit [DecidableEq L] in
/-- An operation that has not taken effect is still to be done. -/
theorem withoutPast_of_past {pc : Pc} (h : past pc = false) (es : List (Event L)) : withoutPast pc es = es := by
  unfold withoutPast
  rw [h]
  rfl

omit [DecidableEq L] in
/-- The operations of a CPU that moves, and of the others. -/
theorem pending_update (w : L → ℕ) {pc : Pc} {rest : ι → List (Event L)} (hother : ∀ j, j ≠ i → rest j = s.rest j) :
    pending ⟨w, Function.update s.pc i pc, rest⟩ = Function.update (pending s) i (withoutPast pc (rest i)) := by
  funext j
  unfold pending
  dsimp only
  by_cases hj : j = i
  · rw [hj, Function.update_self, Function.update_self]
  · rw [Function.update_of_ne hj, Function.update_of_ne hj, hother j hj]

/-- The words after a store. -/
theorem decide_update (w : L → ℕ) (l : L) (v : ℕ) :
    (fun k => decide (Function.update w l v k ≠ 0)) =
      Function.update (fun k => decide (w k ≠ 0)) l (decide (v ≠ 0)) := by
  funext k
  by_cases hk : k = l
  · rw [hk, Function.update_self, Function.update_self]
  · rw [Function.update_of_ne hk, Function.update_of_ne hk]

/-- The operations left to do and to return from. -/
def work [Fintype ι] (s : SpinState ι L) : ℕ := ∑ i, ((s.rest i).length + (pending s i).length)

omit [DecidableEq L] in
/-- One CPU has less to do. -/
theorem work_lt [Fintype ι] {es fs : List (Event L)} (hrest : s'.rest = Function.update s.rest i es)
    (hpending : pending s' = Function.update (pending s) i fs)
    (hless : es.length + fs.length < (s.rest i).length + (pending s i).length) : work s' < work s := by
  refine Finset.sum_lt_sum (fun j _ => ?_) ⟨i, Finset.mem_univ i, ?_⟩
  · rw [hrest, hpending]
    by_cases hj : j = i
    · rw [hj, Function.update_self, Function.update_self]
      exact hless.le
    · rw [Function.update_of_ne hj, Function.update_of_ne hj]
  · rw [hrest, hpending, Function.update_self, Function.update_self]
    exact hless

omit [DecidableEq L] in
/-- A step inside a function is none of the abstract locks. -/
theorem abs_move {pc : Pc} (h : past pc = past (s.pc i)) :
    abs { s with pc := Function.update s.pc i pc } = abs s := by
  unfold abs
  rw [pending_update s.word fun _ _ => rfl]
  have hsame : withoutPast pc (s.rest i) = pending s i := by
    unfold pending withoutPast
    rw [h]
  rw [hsame, Function.update_eq_self]

/-- A step is one of the locks, or none. -/
theorem spinStep_refines (hfits : Fits (s.pc i) (s.rest i)) (hfree : InitFree s i) (h : spinStep s i = some s') :
    abs s' = abs s ∨ step (abs s) i = some (abs s') ∧ Clear (abs s) i := by
  -- an operation that is about to take effect
  have hnext : ∀ {e es}, s.rest i = e :: es → past (s.pc i) = false → pending s i = e :: es := by
    intro e es hrest hpast
    unfold pending
    rw [withoutPast_of_past hpast, hrest]
  rcases spinStep_cases hfits h with ⟨pc, rfl, -, hpast, -⟩ | ⟨l, es, hrest, hpc, h0, rfl⟩ | ⟨l, es, hrest, hpc, rfl⟩ |
    ⟨l, es, hrest, hpc, rfl⟩ | ⟨l, es, hrest, hpc, rfl⟩
  · exact .inl (abs_move hpast)
  · have hpending := hnext hrest (by rw [hpc]; rfl)
    refine .inr ⟨?_, fun k fs heq => absurd (hpending.symm.trans heq) nofun⟩
    unfold step abs
    dsimp only
    rw [hpending, decide_update, pending_update _ fun _ _ => rfl, hrest]
    dsimp only
    rw [if_neg (by simp [h0])]
    rfl
  · left
    unfold abs
    rw [pending_update _ fun j hj => Function.update_of_ne hj _ _, Function.update_self]
    have hsame : withoutPast .outside es = pending s i := by
      unfold pending
      rw [hpc, hrest]
      rfl
    rw [hsame, Function.update_eq_self]
  · have hpending := hnext hrest (by rw [hpc]; rfl)
    refine .inr ⟨?_, fun k fs heq => absurd (hpending.symm.trans heq) nofun⟩
    unfold step abs
    dsimp only
    rw [hpending, decide_update, pending_update _ fun j hj => Function.update_of_ne hj _ _, Function.update_self]
    rfl
  · have hpending := hnext hrest (by rw [hpc]; rfl)
    refine .inr ⟨?_, fun k fs heq => ?_⟩
    · unfold step abs
      dsimp only
      rw [hpending, decide_update, pending_update _ fun j hj => Function.update_of_ne hj _ _, Function.update_self]
      rfl
    · obtain ⟨hl, -⟩ := List.cons.inj (hpending.symm.trans heq)
      obtain rfl := Event.init.inj hl
      show decide (s.word l ≠ 0) = false
      rw [hfree l es hrest]
      rfl

omit [DecidableEq L] in
/-- A CPU that goes on leaves the others where they are. -/
theorem Spins.fits_update (hs : Spins s) {pc : Pc} {rest : ι → List (Event L)} (hi : Fits pc (rest i))
    (hother : ∀ j, j ≠ i → rest j = s.rest j) (j : ι) : Fits (Function.update s.pc i pc j) (rest j) := by
  by_cases hj : j = i
  · rw [hj, Function.update_self]
    exact hi
  · rw [Function.update_of_ne hj, hother j hj]
    exact hs.fits j

/-- Every step keeps the CPUs in the functions that they have called. -/
theorem Spins.step (hs : Spins s) (h : spinStep s i = some s') : Spins s' := by
  rcases spinStep_cases (hs.fits i) h with ⟨pc, rfl, hfits, -, -⟩ | ⟨l, es, hrest, -, -, rfl⟩ | ⟨l, es, -, -, rfl⟩ |
    ⟨l, es, -, -, rfl⟩ | ⟨l, es, -, -, rfl⟩
  · exact ⟨hs.bit, hs.fits_update hfits fun _ _ => rfl⟩
  · refine ⟨fun k => ?_, hs.fits_update ⟨l, es, hrest⟩ fun _ _ => rfl⟩
    exact forall_update (P := fun _ w => w ≤ 1) le_rfl (fun k _ => hs.bit k) k
  · exact ⟨hs.bit, hs.fits_update trivial fun j hj => Function.update_of_ne hj _ _⟩
  all_goals
    refine ⟨fun k => ?_, hs.fits_update trivial fun j hj => Function.update_of_ne hj _ _⟩
    exact forall_update (P := fun _ w => w ≤ 1) zero_le_one (fun k _ => hs.bit k) k

/-- Every turn keeps the functions at their operations. -/
theorem Spins.turn (hs : Spins s) (i : ι) : Spins (spinTurn s i) := by
  unfold spinTurn
  cases h : spinStep s i with
  | none => exact hs
  | some s' => exact hs.step h

/-- A turn is a step of the locks, or none. -/
theorem Spins.refines (hs : Spins s) (hfree : InitFree s i) :
    abs (spinTurn s i) = abs s ∨ LockOrder.step (abs s) i = some (abs (spinTurn s i)) ∧ Clear (abs s) i := by
  unfold spinTurn
  cases h : spinStep s i with
  | none => exact .inl rfl
  | some s' => exact spinStep_refines (hs.fits i) hfree h

/-- The CPUs are in the functions that they have called, and take their locks in order. -/
def InOrder (rank : L → ℕ) (s : SpinState ι L) : Prop := Spins s ∧ ∃ held, Held rank (abs s) held

/-- Every turn keeps the order of the locks. -/
theorem InOrder.turn {rank : L → ℕ} (h : InOrder rank s) (hfree : InitFree s i) : InOrder rank (spinTurn s i) := by
  obtain ⟨hs, held, hheld⟩ := h
  refine ⟨hs.turn i, ?_⟩
  rcases hs.refines hfree with hsame | ⟨hstep, hclear⟩
  · rw [hsame]
    exact ⟨held, hheld⟩
  · exact hheld.step hclear hstep

/-! ### Every fair schedule ends all calls -/

omit [DecidableEq L] in
/-- To move on in a function is no work. -/
theorem work_move [Fintype ι] {pc : Pc} (h : past pc = past (s.pc i)) :
    work { s with pc := Function.update s.pc i pc } = work s := by
  have hpending : pending { s with pc := Function.update s.pc i pc } = pending s :=
    congrArg State.rest (abs_move h)
  unfold work
  rw [hpending]

/-- A step moves on in a function, or does some work. -/
theorem work_step [Fintype ι] (hfits : Fits (s.pc i) (s.rest i)) (h : spinStep s i = some s') :
    work s' < work s ∨ ∃ pc, s' = { s with pc := Function.update s.pc i pc } ∧ past pc = past (s.pc i) ∧
      (Ready i s → dist pc < dist (s.pc i)) := by
  rcases spinStep_cases hfits h with ⟨pc, rfl, -, hpast, hdist⟩ | ⟨l, es, hrest, hpc, -, rfl⟩ |
    ⟨l, es, hrest, hpc, rfl⟩ | ⟨l, es, hrest, hpc, rfl⟩ | ⟨l, es, hrest, hpc, rfl⟩
  · exact .inr ⟨pc, rfl, hpast, hdist⟩
  · have hi : pending s i = .acquire l :: es := by
      unfold pending
      rw [hpc, hrest]
      rfl
    refine .inl (work_lt (Function.update_eq_self i s.rest).symm (pending_update _ fun _ _ => rfl) ?_)
    rw [hi, hrest]
    exact Nat.lt_succ_self _
  · have hi : pending s i = es := by
      unfold pending
      rw [hpc, hrest]
      rfl
    refine .inl (work_lt rfl (pending_update _ fun j hj => Function.update_of_ne hj _ _) ?_)
    rw [hi, hrest, Function.update_self, withoutPast_of_past rfl, List.length_cons]
    omega
  all_goals
    have hi : pending s i = s.rest i := by
      unfold pending
      rw [hpc]
      rfl
    refine .inl (work_lt rfl (pending_update _ fun j hj => Function.update_of_ne hj _ _) ?_)
    rw [hi, hrest, Function.update_self, withoutPast_of_past rfl, List.length_cons]
    omega

/-- A CPU that need not spin comes nearer to its operation, and others do not disturb it unless they do theirs. -/
theorem helpful [Fintype ι] (rank : L → ℕ) :
    Helpful spinTurn InitFree work Ready (fun i (s : SpinState ι L) => dist (s.pc i)) (InOrder rank) := by
  refine ⟨fun s i hfree hs => hs.turn hfree, fun s i j _ hs hready => ?_⟩
  unfold spinTurn
  cases h : spinStep s j with
  | none =>
      refine .inr ⟨rfl, hready, le_rfl, fun hj => ?_⟩
      obtain ⟨s', hs'⟩ := spinStep_isSome (hj ▸ hready.1 : s.rest j ≠ [])
      rw [h] at hs'
      exact absurd hs' nofun
  | some s' =>
      show work s' < work s ∨ work s' = work s ∧ Ready i s' ∧ dist (s'.pc i) ≤ dist (s.pc i) ∧
        (j = i → dist (s'.pc i) < dist (s.pc i))
      rcases work_step (hs.1.fits j) h with hless | ⟨pc, rfl, hpast, hdist⟩
      · exact .inl hless
      · refine .inr ⟨work_move hpast, ⟨hready.1, hready.2.imp_left fun hpast' => ?_⟩, ?_⟩ <;> dsimp only
        · by_cases hj : i = j
          · subst hj
            rw [Function.update_self, hpast]
            exact hpast'
          · rw [Function.update_of_ne hj]
            exact hpast'
        · by_cases hj : i = j
          · subst hj
            rw [Function.update_self]
            exact ⟨(hdist hready).le, fun _ => hdist hready⟩
          · rw [Function.update_of_ne hj]
            exact ⟨le_rfl, fun hcon => absurd hcon.symm hj⟩

/-- All calls have returned, and all locks are free. -/
def Returned (s : SpinState ι L) : Prop := (∀ i, s.rest i = [] ∧ s.pc i = .outside) ∧ ∀ l, s.word l = 0

omit [DecidableEq ι] [DecidableEq L] in
/-- A CPU with nothing left to do is in no function. -/
theorem Spins.outside (hs : Spins s) (hrest : s.rest i = []) : s.pc i = .outside := by
  have hfits := hs.fits i
  rw [hrest] at hfits
  cases hpc : s.pc i <;> rw [hpc] at hfits <;> simp [Fits] at hfits ⊢

omit [DecidableEq ι] [DecidableEq L] in
/-- The word of a free lock. -/
theorem word_eq_zero {l : L} (h : (abs s).locked l = false) : s.word l = 0 := by
  by_contra h0
  exact absurd h (by simpa [abs] using h0)

/-- Some CPU need not spin. -/
theorem InOrder.ready [Fintype ι] {rank : L → ℕ} (hs : InOrder rank s) (hnot : ¬Returned s) : ∃ i, Ready i s := by
  obtain ⟨hs, held, h⟩ := hs
  by_cases hfin : ∀ i, pending s i = []
  · by_cases hrest : ∀ i, s.rest i = []
    · refine absurd ⟨fun i => ⟨hrest i, hs.outside (hrest i)⟩, fun l => word_eq_zero ?_⟩ hnot
      rw [Bool.eq_false_iff]
      intro hlocked
      obtain ⟨i, hi⟩ := (h.locked l).mp hlocked
      rw [h.nil (hfin i)] at hi
      exact List.not_mem_nil hi
    · push Not at hrest
      obtain ⟨i, hi⟩ := hrest
      refine ⟨i, hi, .inl ?_⟩
      by_contra hpast
      have hpending := hfin i
      unfold pending at hpending
      rw [withoutPast_of_past (by simpa using hpast)] at hpending
      exact hi hpending
  · push Not at hfin
    obtain ⟨i, hi⟩ := hfin
    obtain ⟨j, a, hstep, -⟩ := h.progress hi
    have hj : s.rest j ≠ [] := by
      intro hnil
      have hpending : (abs s).rest j = [] := by
        show withoutPast (s.pc j) (s.rest j) = []
        rw [hs.outside hnil, hnil]
        rfl
      unfold step at hstep
      rw [hpending] at hstep
      exact absurd hstep nofun
    refine ⟨j, hj, ?_⟩
    by_cases hpast : past (s.pc j) = true
    · exact .inl hpast
    · refine .inr fun l es hes => word_eq_zero ?_
      have hpending : (abs s).rest j = .acquire l :: es := by
        show withoutPast (s.pc j) (s.rest j) = _
        rw [withoutPast_of_past (by simpa using hpast), hes]
      unfold step at hstep
      rw [hpending] at hstep
      dsimp only at hstep
      split_ifs at hstep with hlocked
      simpa using hlocked

/-- Where all calls have returned nothing happens any more. -/
theorem Returned.turn (h : Returned s) (i : ι) : Returned (spinTurn s i) := by
  have hnone : spinStep s i = none := by
    unfold spinStep
    rw [(h.1 i).1]
  unfold spinTurn
  rw [hnone]
  exact h

omit [DecidableEq ι] [DecidableEq L] in
/-- At the start no CPU is in a function. -/
theorem spins_start (old : L → ℕ) (ops : ι → List (Event L)) : Spins (spinStart old ops) :=
  ⟨fun _ => zero_le_one, fun _ => trivial⟩

/-- Every schedule is one of the locks. -/
theorem after_refines (old : L → ℕ) (ops : ι → List (Event L)) {σ : ℕ → ι}
    (hfree : Along spinTurn InitFree σ (spinStart old ops)) (t : ℕ) :
    ∃ is, Guarded step Clear ⟨fun _ => false, ops⟩ is ∧
      exec step ⟨fun _ => false, ops⟩ is = some (abs (after spinTurn σ (spinStart old ops) t)) := by
  refine (after_invariant (I := fun s => Spins s ∧ ∃ is, Guarded step Clear ⟨fun _ => false, ops⟩ is ∧
    exec step ⟨fun _ => false, ops⟩ is = some (abs s)) ?_ hfree ⟨spins_start old ops, [], trivial, rfl⟩ t).2
  rintro s i hi ⟨hs, is, hguard, his⟩
  refine ⟨hs.turn i, ?_⟩
  rcases hs.refines hi with hsame | ⟨hstep, hclear⟩
  · exact ⟨is, hguard, his.trans (congrArg some hsame.symm)⟩
  · refine ⟨is ++ [i], guarded_concat.mpr ⟨hguard, fun s' hs' => ?_⟩, (exec_concat his).trans hstep⟩
    obtain rfl := Option.some.inj (his.symm.trans hs')
    exact hclear

/-! ### Schedules that initialise free locks -/

/-- No lock is initialised any more. -/
def NoInits (s : SpinState ι L) : Prop := ∀ j l, .init l ∉ s.rest j

/-- A turn leaves the operations as they are, or takes the first one of a CPU away. -/
theorem NoInits.turn (h : NoInits s) (i : ι) : NoInits (spinTurn s i) := by
  unfold spinTurn
  cases hstep : spinStep s i with
  | none => exact h
  | some s' =>
      have hsub : ∀ j, s'.rest j ⊆ s.rest j := by
        unfold spinStep at hstep
        rcases hrest : s.rest i with _ | ⟨e, es⟩ <;> rw [hrest] at hstep
        · exact absurd hstep nofun
        have htail : ∀ j, Function.update s.rest i es j ⊆ s.rest j := by
          intro j
          by_cases hj : j = i
          · rw [hj, Function.update_self, hrest]
            exact List.subset_cons_self e es
          · rw [Function.update_of_ne hj]
            exact List.Subset.refl _
        cases e with
        | init l =>
            obtain rfl := Option.some.inj hstep
            exact htail
        | acquire l | release l =>
            dsimp only at hstep
            split_ifs at hstep
            · obtain rfl := Option.some.inj hstep
              exact fun j => List.Subset.refl _
            · obtain ⟨⟨c, locked⟩, -, rfl⟩ := Option.map_eq_some_iff.mp hstep
              dsimp only
              split_ifs
              · exact htail
              · exact fun j => List.Subset.refl _
      exact fun j l hl => h j l (hsub j hl)

/-- `InitFree` as a test. -/
def isInitFree (s : SpinState ι L) (i : ι) : Bool :=
  match s.rest i with
  | .init l :: _ => s.word l == 0
  | _ => true

omit [DecidableEq ι] [DecidableEq L] in
/-- The test of a turn is sound. -/
theorem initFree_of_isInitFree (h : isInitFree s i = true) : InitFree s i := by
  intro l es hrest
  rw [isInitFree, hrest] at h
  simpa using h

/-- It is enough to look at the turns before the last initialisation. -/
theorem along_of_noInits {σ : ℕ → ι} (n : ℕ)
    (htest : ∀ t < n, isInitFree (after spinTurn σ s t) (σ t) = true) (h : NoInits (after spinTurn σ s n)) :
    Along spinTurn InitFree σ s := by
  intro t
  rcases Nat.lt_or_ge t n with ht | ht
  · exact initFree_of_isInitFree (htest t ht)
  · have hlater : NoInits (after spinTurn σ s t) := by
      rw [← Nat.add_sub_cancel' ht, after_add]
      exact after_invariant (fun s i _ hs => hs.turn i) .always h _
    exact fun l es hrest => absurd (hrest ▸ List.mem_cons_self) (hlater (σ t) l)

end spinning

/-- First the region is registered, then all CPUs take turns. -/
def regionSchedule (t : ℕ) : Fin 3 := if t < 22 then 0 else Fin.ofNat 3 t

/-- No lock in use is initialised under this schedule. -/
theorem along_regionSchedule : Along spinTurn InitFree regionSchedule (spinStart (fun _ => 7) regionOps) := by
  have hrest : ∀ j, (after spinTurn regionSchedule (spinStart (fun _ => 7) regionOps) 22).rest j
      = if j = 0 then [] else faultOps 0 0x2000 := by decide +kernel
  refine along_of_noInits 22 (by decide +kernel) fun j l => ?_
  rw [hrest]
  split_ifs <;> simp [faultOps]

/-- Both CPUs get their turns. -/
theorem fair_regionSchedule : Fair regionSchedule := by
  intro i t
  refine ⟨3 * (t + 22) + i, by omega, ?_⟩
  unfold regionSchedule
  rw [if_neg (by omega)]
  ext
  show (3 * (t + 22) + i) % 3 = i
  omega

/-- CPUs run lists of calls after `spinlock_init` of every lock, and take their turns in any order in which no lock is
initialised while its word is 1. At any time the locks are in a state of `LockOrder`, at most one CPU is in the critical
section of a lock, between the compare-and-swap that found 0 and the store of 0, and the word of the lock is 1 if one is
and else 0. If no CPU waits forever for its next turn, all calls return, and from then on all words are 0. -/
theorem spinlocks_serve (n : ℕ) (calls : Fin n → Skeleton Lock) (hcalls : ∀ i, Program (calls i))
    (ops : Fin n → List (Event Lock)) (hops : ∀ i, (calls i).Trace (ops i)) (old : Lock → ℕ) (σ : ℕ → Fin n)
    (hfree : Along spinTurn InitFree σ (spinStart old ops)) :
    (∀ t, ∃ is, Guarded step Clear ⟨fun _ => false, ops⟩ is ∧
        exec step ⟨fun _ => false, ops⟩ is = some (abs (after spinTurn σ (spinStart old ops) t))) ∧
      (∀ t l i j, inSection l (pending (after spinTurn σ (spinStart old ops) t) i) = true →
        inSection l (pending (after spinTurn σ (spinStart old ops) t) j) = true → i = j) ∧
      (∀ t l, (after spinTurn σ (spinStart old ops) t).word l ≤ 1 ∧
        ((after spinTurn σ (spinStart old ops) t).word l = 1 ↔
          ∃ i, inSection l (pending (after spinTurn σ (spinStart old ops) t) i) = true)) ∧
      (Fair σ → ∃ t₀, ∀ t, t₀ ≤ t → Returned (after spinTurn σ (spinStart old ops) t)) := by
  have horderly : ∀ i, Orderly rank [] (ops i) [] := fun i =>
    (hops i).orderly ((hcalls i).balanced [] fun k hk => absurd hk List.not_mem_nil)
  have hstart : InOrder rank (spinStart old ops) := ⟨spins_start old ops, _, Held.start horderly⟩
  have hinv : ∀ t, InOrder rank (after spinTurn σ (spinStart old ops) t) :=
    after_invariant (fun s i hfree h => h.turn hfree) hfree hstart
  refine ⟨after_refines old ops hfree, fun t l => ?_, fun t l => ?_, fun hfair => ?_⟩
  · obtain ⟨-, held, h⟩ := hinv t
    exact (h.exclusive l).1
  · obtain ⟨hs, held, h⟩ := hinv t
    have hbit := hs.bit l
    refine ⟨hbit, ?_⟩
    have htaken : decide ((after spinTurn σ (spinStart old ops) t).word l ≠ 0) = true ↔
      ∃ i, inSection l (pending (after spinTurn σ (spinStart old ops) t) i) = true := (h.exclusive l).2
    rw [← htaken, decide_eq_true_iff]
    omega
  · obtain ⟨t₀, ht₀⟩ := hfair.reaches (helpful rank) hfree (fun s hs hnot => hs.ready hnot) hstart
    refine ⟨t₀, fun t ht => ?_⟩
    rw [← Nat.add_sub_cancel' ht, after_add]
    exact after_invariant (fun s i _ h => h.turn i) (hfree.later t₀) ht₀ _

/-- A region is registered, and two CPUs handle faults in it, taking turns. -/
theorem spinlocks_serve_region :
    ∃ t₀, ∀ t, t₀ ≤ t → Returned (after spinTurn regionSchedule (spinStart (fun _ => 7) regionOps) t) :=
  (spinlocks_serve 3 regionCalls program_regionCalls regionOps trace_regionOps (fun _ => 7) regionSchedule
    along_regionSchedule).2.2.2 fair_regionSchedule

end PrometheusKernel.Locks
