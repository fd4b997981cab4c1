import PrometheusKernel.Spinlock.Model

/-!
# The spinlock gives mutual exclusion

The lock has an owner or none: `Owned s owner` says that `locked` is 1 or 0 accordingly and that the owner, and no
other CPU, is between its compare-and-swap and the store of its release. In a run in which only a holder calls
`spinlock_release`, every step keeps the owner, gives the lock to a CPU if it is free, or takes it from its owner
(`Owned.step`). `spinlock_try_acquire` fails only if it found an owner (`mutual_exclusion`).
-/

namespace PrometheusKernel.Spinlock

open Interleaving

variable {ι : Type}

/-- The locations at which only a CPU with the lock is: behind a compare-and-swap that found 0, and in
`spinlock_release`. -/
def Pc.owning : Pc → Bool
  | .acquireTest prev => prev == 0
  | .acquireBarrier => true
  | .tryTest prev => prev == 0
  | .tryBarrier => true
  | .tryReturn res => res ≠ 0
  | .releaseBarrier => true
  | .releaseStore => true
  | _ => false

/-- `locked` says whether the lock has an owner, and the owner holds it. -/
structure Owned (s : State ι) (owner : Option ι) : Prop where
  locked : s.locked = if owner.isSome then 1 else 0
  holds : ∀ i, (s.cpu i).holds = true ↔ owner = some i
  owning : ∀ i, (s.cpu i).pc.owning = true → (s.cpu i).holds = true

/-- How the owner of a lock can change. -/
inductive Handover : Option ι → Option ι → Prop
  | keeps (owner : Option ι) : Handover owner owner
  | takes (i : ι) : Handover none (some i)
  | gives (i : ι) : Handover (some i) none

/-! ### One step -/

/-- What a step of one CPU can do. -/
theorem advance_cases {c c' : Cpu} {locked locked' : ℕ} (h : advance c locked = some (c', locked')) :
    (locked' = locked ∧ c'.holds = c.holds ∧ (c'.pc.owning = true → c.pc.owning = true)) ∨
      (locked = 0 ∧ locked' = 1 ∧ c'.holds = true) ∨
      (c.pc = .releaseStore ∧ locked' = 0 ∧ c' = ⟨.outside, false⟩) := by
  obtain ⟨pc, holds⟩ := c
  cases pc <;> simp only [advance, atomicCompareAndSwap, atomicLoad, atomicStore, Option.some.injEq, Prod.mk.injEq,
    reduceCtorEq] at h
  all_goals obtain ⟨rfl, rfl⟩ := h
  case acquireSwap | trySwap =>
    by_cases h0 : locked = 0
    · simp [h0]
    · simp [h0, Pc.owning]
  case acquireTest prev | tryTest prev => by_cases h0 : prev = 0 <;> simp [h0, Pc.owning]
  case acquireSpin value => by_cases h0 : value = 0 <;> simp [h0, Pc.owning]
  all_goals simp [Pc.owning]

variable {s s' : State ι} {owner : Option ι}

/-- After `spinlock_init` nobody owns the lock. -/
theorem owned_start (old : ℕ) : Owned (start old : State ι) none :=
  ⟨rfl, fun _ => iff_of_false Bool.false_ne_true nofun, nofun⟩

namespace Owned

/-- A word of 0 means that nobody owns the lock. -/
theorem eq_none (h : Owned s owner) (h0 : s.locked = 0) : owner = none := by
  cases owner with
  | none => rfl
  | some j => exact absurd (h.locked.symm.trans h0) one_ne_zero

/-- At most one CPU holds the lock. -/
theorem unique (h : Owned s owner) {i j : ι} (hi : (s.cpu i).holds = true) (hj : (s.cpu j).holds = true) : i = j :=
  Option.some.inj (((h.holds i).mp hi).symm.trans ((h.holds j).mp hj))

/-- The word is 1 exactly if some CPU holds the lock. -/
theorem locked_eq_one_iff (h : Owned s owner) : s.locked = 1 ↔ ∃ i, (s.cpu i).holds = true := by
  rw [h.locked]
  cases owner with
  | none => exact iff_of_false zero_ne_one fun ⟨i, hi⟩ => absurd ((h.holds i).mp hi) nofun
  | some i => exact iff_of_true rfl ⟨i, (h.holds i).mpr rfl⟩

/-- The word is 0 exactly if no CPU holds the lock. -/
theorem locked_eq_zero_iff (h : Owned s owner) : s.locked = 0 ↔ ∀ i, (s.cpu i).holds = false := by
  have hbit : s.locked = 0 ↔ ¬s.locked = 1 := by
    rw [h.locked]
    split_ifs <;> simp
  rw [hbit, h.locked_eq_one_iff, not_exists]
  simp only [Bool.not_eq_true]

variable [DecidableEq ι] {i : ι} {c : Cpu}

/-- A CPU moves on, and neither takes nor gives the lock. -/
theorem keep (h : Owned s owner) (hholds : c.holds = (s.cpu i).holds)
    (howning : c.pc.owning = true → (s.cpu i).holds = true) :
    Owned { s with cpu := Function.update s.cpu i c } owner := by
  refine ⟨h.locked, ?_, ?_⟩
  · refine forall_update (P := fun j (l : Cpu) => l.holds = true ↔ owner = some j) ?_ fun j _ => h.holds j
    rw [hholds]
    exact h.holds i
  · refine forall_update (P := fun _ (l : Cpu) => l.pc.owning = true → l.holds = true) ?_ fun j _ => h.owning j
    rw [hholds]
    exact howning

/-- A free lock is taken. -/
theorem take (h : Owned s none) (hholds : c.holds = true) : Owned ⟨1, Function.update s.cpu i c⟩ (some i) := by
  refine ⟨rfl, ?_, ?_⟩
  · refine forall_update (P := fun j (l : Cpu) => l.holds = true ↔ some i = some j) ?_ fun j hj => ?_
    · exact iff_of_true hholds rfl
    · rw [h.holds j]
      exact iff_of_false nofun fun hcon => hj (Option.some.inj hcon).symm
  · exact forall_update (P := fun _ (l : Cpu) => l.pc.owning = true → l.holds = true) (fun _ => hholds)
      fun j _ => h.owning j

/-- The owner gives the lock back. -/
theorem give (h : Owned s (some i)) : Owned ⟨0, Function.update s.cpu i ⟨.outside, false⟩⟩ none := by
  refine ⟨rfl, ?_, ?_⟩
  · refine forall_update (P := fun j (l : Cpu) => l.holds = true ↔ none = some j) ?_ fun j hj => ?_
    · exact iff_of_false Bool.false_ne_true nofun
    · rw [h.holds j]
      exact iff_of_false (fun hcon => hj (Option.some.inj hcon).symm) nofun
  · exact forall_update (P := fun _ (l : Cpu) => l.pc.owning = true → l.holds = true) nofun fun j _ => h.owning j

/-- A disciplined action hands the lock over properly. -/
theorem step (h : Owned s owner) {a : Action ι} (hok : Disciplined s a) (hstep : Spinlock.step s a = some s') :
    ∃ owner', Owned s' owner' ∧ Handover owner owner' := by
  cases a with
  | call i f =>
      unfold Spinlock.step at hstep
      dsimp only at hstep
      split_ifs at hstep with hpc
      obtain rfl := Option.some.inj hstep
      refine ⟨owner, h.keep rfl fun howning => ?_, .keeps owner⟩
      cases f with
      | acquire => exact absurd howning Bool.false_ne_true
      | tryAcquire => exact absurd howning Bool.false_ne_true
      | release => exact hok
  | step i =>
      obtain ⟨⟨c, locked⟩, hadvance, rfl⟩ := Option.map_eq_some_iff.mp hstep
      rcases advance_cases hadvance with ⟨rfl, hholds, howning⟩ | ⟨h0, rfl, hholds⟩ | ⟨hpc, rfl, rfl⟩
      · exact ⟨owner, h.keep hholds fun hcon => h.owning i (howning hcon), .keeps owner⟩
      · obtain rfl := h.eq_none h0
        exact ⟨some i, h.take hholds, .takes i⟩
      · obtain rfl : owner = some i := (h.holds i).mp (h.owning i (by rw [hpc]; rfl))
        exact ⟨none, h.give, .gives i⟩

end Owned

/-- After every disciplined run the lock has an owner or none. -/
theorem owned_exec [DecidableEq ι] {old : ℕ} {as : List (Action ι)} (hg : Guarded step Disciplined (start old) as)
    (hexec : exec step (start old) as = some s) : ∃ owner, Owned s owner :=
  invariant (I := fun s => ∃ owner, Owned s owner)
    (fun _ _ _ ⟨_, h⟩ hok hstep => (h.step hok hstep).imp fun _ h' => h'.1) ⟨none, owned_start old⟩ hg hexec

/-! ### Calls that fail -/

/-- Only the compare-and-swap leads to the test of its result. -/
theorem advance_tryTest {c c' : Cpu} {locked locked' prev : ℕ} (h : advance c locked = some (c', locked'))
    (hpc : c'.pc = .tryTest prev) : c.pc = .trySwap ∧ prev = locked := by
  obtain ⟨pc, holds⟩ := c
  cases pc <;> simp only [advance, atomicCompareAndSwap, Option.some.injEq, Prod.mk.injEq, reduceCtorEq] at h
  all_goals obtain ⟨rfl, -⟩ := h
  case trySwap => exact ⟨rfl, (Pc.tryTest.inj hpc).symm⟩
  case acquireTest | acquireSpin | tryTest =>
    dsimp only at hpc
    split_ifs at hpc
  all_goals cases hpc

/-- Only a compare-and-swap that found the lock held leads to the result 0. -/
theorem advance_tryReturn {c c' : Cpu} {locked locked' : ℕ} (h : advance c locked = some (c', locked'))
    (hpc : c'.pc = .tryReturn 0) : ∃ prev, prev ≠ 0 ∧ c.pc = .tryTest prev := by
  obtain ⟨pc, holds⟩ := c
  cases pc <;> simp only [advance, atomicCompareAndSwap, Option.some.injEq, Prod.mk.injEq, reduceCtorEq] at h
  all_goals obtain ⟨rfl, -⟩ := h
  case tryTest prev =>
    dsimp only at hpc
    split_ifs at hpc with h0
    exact ⟨prev, h0, rfl⟩
  case acquireTest | acquireSpin =>
    dsimp only at hpc
    split_ifs at hpc
  all_goals cases hpc

section failing

variable [DecidableEq ι] {old : ℕ} {as own : List (Action ι)} {i j : ι}

/-- Other CPUs stay where they are. -/
theorem step_cpu_of_ne {a : Action ι} (h : step s a = some s') (hj : j ≠ a.cpu) : s'.cpu j = s.cpu j := by
  cases a with
  | call i f =>
      unfold step at h
      dsimp only at h
      split_ifs at h
      obtain rfl := Option.some.inj h
      exact Function.update_of_ne hj _ _
  | step i =>
      obtain ⟨⟨c, locked⟩, -, rfl⟩ := Option.map_eq_some_iff.mp h
      exact Function.update_of_ne hj _ _

/-- One more action. -/
theorem HeldAtSwap.concat (h : HeldAtSwap old i own as) (a : Action ι) :
    HeldAtSwap old i (own ++ [a].filter fun a => a.cpu = i) (as ++ [a]) := by
  obtain ⟨bs, cs, s, rfl, hexec, hpc, hheld, rfl⟩ := h
  refine ⟨bs, cs ++ [a], s, ?_, hexec, hpc, hheld, List.filter_append ..⟩
  rw [List.append_assoc, List.cons_append]

/-- The calls that have found the lock held: before the test of what they found, and behind it. -/
structure Failing (old : ℕ) (as : List (Action ι)) (s : State ι) : Prop where
  test : ∀ i prev, (s.cpu i).pc = .tryTest prev → prev ≠ 0 → HeldAtSwap old i [] as
  fail : ∀ i, (s.cpu i).pc = .tryReturn 0 → HeldAtSwap old i [.step i] as

/-- A CPU that acts and is not at the start of a function then has taken a step. -/
theorem advance_of_step {a : Action ι} (h : step s a = some s') (hpc : ∀ f : Call, (s'.cpu a.cpu).pc ≠ f.entry) :
    a = .step a.cpu ∧ advance (s.cpu a.cpu) s.locked = some (s'.cpu a.cpu, s'.locked) := by
  cases a with
  | call i f =>
      unfold step at h
      dsimp only at h
      split_ifs at h
      obtain rfl := Option.some.inj h
      refine absurd ?_ (hpc f)
      exact congrArg Cpu.pc (Function.update_self i _ s.cpu)
  | step i =>
      obtain ⟨⟨c, locked⟩, hadvance, rfl⟩ := Option.map_eq_some_iff.mp h
      refine ⟨rfl, ?_⟩
      show advance (s.cpu i) s.locked = some (Function.update s.cpu i c i, locked)
      rw [Function.update_self]
      exact hadvance

/-- Every step keeps the record of the attempts that have failed. -/
theorem Failing.concat (h : Failing old as s) (hexec : exec step (start old) as = some s) (howned : Owned s owner)
    {a : Action ι} (hstep : step s a = some s') : Failing old (as ++ [a]) s' := by
  have hother : ∀ i own, i ≠ a.cpu → HeldAtSwap old i own as → HeldAtSwap old i own (as ++ [a]) := by
    intro i own hi hheld
    have hconcat := hheld.concat a
    rwa [List.filter_singleton, decide_eq_false (Ne.symm hi), cond_false, List.append_nil] at hconcat
  constructor
  · intro i prev hpc hprev
    by_cases hi : i = a.cpu
    · subst hi
      obtain ⟨ha, hadvance⟩ := advance_of_step hstep fun f => by
        rw [hpc]
        cases f <;> exact nofun
      obtain ⟨hswap, rfl⟩ := advance_tryTest hadvance hpc
      have hone : s.locked = 1 := by
        have hlocked := howned.locked
        split_ifs at hlocked with howner
        · exact hlocked
        · exact absurd hlocked hprev
      exact ⟨as, [], s, by rw [← ha], hexec, hswap, howned.locked_eq_one_iff.mp hone, rfl⟩
    · rw [step_cpu_of_ne hstep hi] at hpc
      exact hother i [] hi (h.test i prev hpc hprev)
  · intro i hpc
    by_cases hi : i = a.cpu
    · subst hi
      obtain ⟨ha, hadvance⟩ := advance_of_step hstep fun f => by
        rw [hpc]
        cases f <;> exact nofun
      obtain ⟨prev, hprev, htest⟩ := advance_tryReturn hadvance hpc
      have hconcat := (h.test a.cpu prev htest hprev).concat a
      rw [List.filter_singleton, decide_eq_true rfl, cond_true, List.nil_append] at hconcat
      rw [← ha]
      exact hconcat
    · rw [step_cpu_of_ne hstep hi] at hpc
      exact hother i [.step i] hi (h.fail i hpc)

/-- Along a disciplined run. -/
theorem failing_exec (hg : Guarded step Disciplined (start old) as) (hexec : exec step (start old) as = some s) :
    Failing old as s := by
  induction as using List.reverseRecOn generalizing s with
  | nil =>
      obtain rfl : start old = s := Option.some.inj hexec
      exact ⟨fun _ _ hpc => absurd hpc nofun, fun _ hpc => absurd hpc nofun⟩
  | append_singleton as a ih =>
      obtain ⟨s₁, hexec₁, hlast⟩ := exec_of_append hexec
      have hstep : step s₁ a = some s := by rwa [← exec_concat hexec₁]
      obtain ⟨owner, howned⟩ := owned_exec (guarded_append hg) hexec₁
      exact (ih (guarded_append hg) hexec₁).concat hexec₁ howned hstep

end failing

/-! ### Mutual exclusion -/

/-- In every run of any number of CPUs, in any order of their steps, in which only a CPU that holds the lock calls
`spinlock_release`: at most one CPU holds the lock, which is every CPU behind a successful compare-and-swap and in
front of the store of its release, `locked` is 1 if one does and else 0, and a call of `spinlock_try_acquire` that is
about to return 0 has found the lock held. -/
theorem mutual_exclusion {ι : Type} [DecidableEq ι] (old : ℕ) (as : List (Action ι)) (s : State ι)
    (hg : Guarded step Disciplined (start old) as) (hexec : exec step (start old) as = some s) :
    (∀ i j, (s.cpu i).holds = true → (s.cpu j).holds = true → i = j) ∧
      (∀ i, (s.cpu i).pc.owning = true → (s.cpu i).holds = true) ∧
      (s.locked = 1 ↔ ∃ i, (s.cpu i).holds = true) ∧ (s.locked = 0 ↔ ∀ i, (s.cpu i).holds = false) ∧
      ∀ i, (s.cpu i).pc = .tryReturn 0 → HeldAtSwap old i [.step i] as := by
  obtain ⟨owner, h⟩ := owned_exec hg hexec
  exact ⟨fun _ _ => h.unique, h.owning, h.locked_eq_one_iff, h.locked_eq_zero_iff, (failing_exec hg hexec).fail⟩

/-- CPU 0 takes the lock and is in its critical section; CPU 1 tries to and fails. -/
def contention : List (Action (Fin 2)) :=
  [.call 0 .acquire, .step 0, .call 1 .tryAcquire, .step 1, .step 0, .step 0, .step 1]

/-- A CPU holds the lock while another one tries it. -/
theorem mutual_exclusion_contention :
    ∃ s : State (Fin 2), exec step (start 7) contention = some s ∧ (s.cpu 1).pc = .tryReturn 0 ∧
      (∀ i j, (s.cpu i).holds = true → (s.cpu j).holds = true → i = j) ∧
      (∀ i, (s.cpu i).pc.owning = true → (s.cpu i).holds = true) ∧
      (s.locked = 1 ↔ ∃ i, (s.cpu i).holds = true) ∧ (s.locked = 0 ↔ ∀ i, (s.cpu i).holds = false) ∧
      ∀ i, (s.cpu i).pc = .tryReturn 0 → HeldAtSwap 7 i [.step i] contention := by
  have hg : Guarded step Disciplined (start 7) contention := guarded_of_guardedBy disciplined_of_test (by decide)
  exact ⟨_, rfl, rfl, mutual_exclusion 7 contention _ hg rfl⟩

end PrometheusKernel.Spinlock
