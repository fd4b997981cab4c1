import PrometheusKernel.Lib.Interleaving

/-!
# Spinlocks: model of `kernel/core/spinlock.c`

Any number of CPUs use one lock. The operations of `kernel/atomic.h` are atomic, so a step of a CPU is one of them,
or what the function does with its result; between the steps of one CPU others can take theirs. `memory_barrier`
and `pause` change nothing here.

A CPU calls a function from outside of all of them, also while it holds the lock. `holds` records that it is
between a compare-and-swap that took the lock and the store that gives it back; the functions do not look at it.
-/

namespace PrometheusKernel.Spinlock

open Interleaving

/-! ### Atomic operations on a word -/

/-- `atomic_compare_and_swap`: the result and the word. -/
def atomicCompareAndSwap (word expected desired : ℕ) : ℕ × ℕ := (word, if word = expected then desired else word)

/-- `atomic_load`. -/
def atomicLoad (word : ℕ) : ℕ := word

/-- `atomic_store`: the word. -/
def atomicStore (_ value : ℕ) : ℕ := value

/-- `spinlock_init`: `lock->locked`. -/
def spinlockInit (locked : ℕ) : ℕ := atomicStore locked 0

/-! ### CPUs -/

/-- Where a CPU is. -/
inductive Pc
  | outside
  /-- `spinlock_acquire` at the compare-and-swap, and with its result. -/
  | acquireSwap
  | acquireTest (prev : ℕ)
  /-- In the inner loop. -/
  | acquireLoad
  | acquireSpin (value : ℕ)
  | acquireBarrier
  /-- `spinlock_try_acquire`. -/
  | trySwap
  | tryTest (prev : ℕ)
  | tryBarrier
  | tryReturn (res : ℕ)
  /-- `spinlock_release`. -/
  | releaseBarrier
  | releaseStore
deriving DecidableEq

/-- One CPU. -/
structure Cpu where
  /-- Its location. -/
  pc : Pc
  /-- It has taken the lock and not given it back. -/
  holds : Bool
deriving DecidableEq

/-- The next step of a CPU inside a function, with `locked` before and after it. -/
def advance (c : Cpu) (locked : ℕ) : Option (Cpu × ℕ) :=
  match c.pc with
  | .outside => none
  | .acquireSwap =>
      let (prev, locked) := atomicCompareAndSwap locked 0 1
      some (⟨.acquireTest prev, c.holds || prev == 0⟩, locked)
  | .acquireTest prev => some ({ c with pc := if prev ≠ 0 then .acquireLoad else .acquireBarrier }, locked)
  | .acquireLoad => some ({ c with pc := .acquireSpin (atomicLoad locked) }, locked)
  | .acquireSpin value => some ({ c with pc := if value ≠ 0 then .acquireLoad else .acquireSwap }, locked)
  | .acquireBarrier => some ({ c with pc := .outside }, locked)
  | .trySwap =>
      let (prev, locked) := atomicCompareAndSwap locked 0 1
      some (⟨.tryTest prev, c.holds || prev == 0⟩, locked)
  | .tryTest prev => some ({ c with pc := if prev = 0 then .tryBarrier else .tryReturn 0 }, locked)
  | .tryBarrier => some ({ c with pc := .tryReturn 1 }, locked)
  | .tryReturn _ => some ({ c with pc := .outside }, locked)
  | .releaseBarrier => some ({ c with pc := .releaseStore }, locked)
  | .releaseStore => some (⟨.outside, false⟩, atomicStore locked 0)

/-- The functions. -/
inductive Call
  | acquire
  | tryAcquire
  | release
deriving DecidableEq

/-- The first location in the function. -/
def Call.entry : Call → Pc
  | .acquire => .acquireSwap
  | .tryAcquire => .trySwap
  | .release => .releaseBarrier

/-! ### The system -/

section system

variable {ι : Type}

/-- `locked` and the CPUs. -/
structure State (ι : Type) where
  /-- `lock->locked`. -/
  locked : ℕ
  /-- The CPUs. -/
  cpu : ι → Cpu

/-- A CPU calls a function, or takes its next step. -/
inductive Action (ι : Type)
  | call (i : ι) (f : Call)
  | step (i : ι)
deriving DecidableEq

/-- The CPU that acts. -/
def Action.cpu : Action ι → ι
  | .call i _ => i
  | .step i => i

/-- The state after `spinlock_init` on a lock with any contents. -/
def start (old : ℕ) : State ι := ⟨spinlockInit old, fun _ => ⟨.outside, false⟩⟩

/-- `spinlock_release` is called by a CPU that holds the lock. -/
def Disciplined (s : State ι) : Action ι → Prop
  | .call i .release => (s.cpu i).holds = true
  | _ => True

/-- `Disciplined` as a test. -/
def disciplined (s : State ι) : Action ι → Bool
  | .call i .release => (s.cpu i).holds
  | _ => true

/-- The test of a step is sound. -/
theorem disciplined_of_test (s : State ι) (a : Action ι) (h : disciplined s a = true) : Disciplined s a := by
  cases a with
  | step i => trivial
  | call i f =>
      cases f with
      | release => exact h
      | acquire => trivial
      | tryAcquire => trivial

variable [DecidableEq ι]

/-- One action. -/
def step (s : State ι) : Action ι → Option (State ι)
  | .call i f =>
      if (s.cpu i).pc = .outside then some { s with cpu := Function.update s.cpu i { s.cpu i with pc := f.entry } }
      else none
  | .step i => (advance (s.cpu i) s.locked).map fun (c, locked) => ⟨locked, Function.update s.cpu i c⟩

/-- After the run `as` the call of `spinlock_try_acquire` by `i` is past its compare-and-swap, at which the lock was
held, and has acted by `own` since. -/
def HeldAtSwap (old : ℕ) (i : ι) (own as : List (Action ι)) : Prop :=
  ∃ bs cs s, as = bs ++ Action.step i :: cs ∧ exec step (start old) bs = some s ∧ (s.cpu i).pc = .trySwap ∧
    (∃ j, (s.cpu j).holds = true) ∧ cs.filter (fun a => a.cpu = i) = own

end system

end PrometheusKernel.Spinlock
