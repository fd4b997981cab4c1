import Mathlib.Algebra.Group.Basic
import Mathlib.Data.List.Induction
import Mathlib.Data.List.Nodup
import Mathlib.Tactic.Abel

/-!
# A stack of words, growing downwards

Registers, a memory of words and a stack pointer. Addresses form a commutative group, in which the stack may wrap
around; a word takes up `w` of it. The values pushed lie in memory in the opposite order (`pushAll_mem`), as long as
fewer words are pushed than it takes to come back to the same address (`Room`). What has been pushed from registers
is what pops in the opposite order bring back (`popAll_regs`).
-/

namespace WordStack

/-- Registers, memory and the stack pointer. -/
structure Machine (A β R : Type*) where
  /-- The registers. -/
  regs : R → β
  /-- The words of memory. -/
  mem : A → β
  /-- The stack pointer. -/
  sp : A

variable {A β R : Type*} [AddCommGroup A] (w : A)

/-- The addresses of up to `n` words in a row are distinct. -/
def Room (n : ℕ) : Prop := ∀ k, 0 < k → k < n → k • w ≠ 0

/-- Push a word. -/
def push [DecidableEq A] (v : β) (s : Machine A β R) : Machine A β R :=
  { s with mem := Function.update s.mem (s.sp - w) v, sp := s.sp - w }

/-- Pop a word into a register. -/
def pop [DecidableEq R] (r : R) (s : Machine A β R) : Machine A β R :=
  { s with regs := Function.update s.regs r (s.mem s.sp), sp := s.sp + w }

/-- Push words, the first one first. -/
def pushAll [DecidableEq A] (vs : List β) (s : Machine A β R) : Machine A β R := vs.foldl (fun s v => push w v s) s

/-- Pop words into registers, the first one first. -/
def popAll [DecidableEq R] (rs : List R) (s : Machine A β R) : Machine A β R := rs.foldl (fun s r => pop w r s) s

section pushes

variable [DecidableEq A] {w} {vs us : List β} {s : Machine A β R}

/-- Words pushed in two stages. -/
theorem pushAll_append (vs us : List β) (s : Machine A β R) :
    pushAll w (vs ++ us) s = pushAll w us (pushAll w vs s) := List.foldl_append

/-- Pushes leave the registers alone. -/
@[simp] theorem pushAll_regs (vs : List β) (s : Machine A β R) : (pushAll w vs s).regs = s.regs := by
  induction vs generalizing s with
  | nil => rfl
  | cons v vs ih => exact ih (push w v s)

/-- Every push moves the stack pointer down by a word. -/
theorem pushAll_sp (vs : List β) (s : Machine A β R) : (pushAll w vs s).sp = s.sp - vs.length • w := by
  induction vs generalizing s with
  | nil => exact (by rw [List.length_nil, zero_nsmul, sub_zero]; rfl)
  | cons v vs ih =>
      have hrest : (pushAll w vs (push w v s)).sp = s.sp - w - vs.length • w := ih (push w v s)
      rw [List.length_cons, succ_nsmul']
      refine hrest.trans ?_
      abel

/-- The words pushed, from the stack pointer upwards: the last one comes first. -/
theorem pushAll_mem {n : ℕ} (hw : Room w n) (hn : vs.length ≤ n) {i : ℕ} (hi : i < vs.length) :
    vs.reverse[i]? = some ((pushAll w vs s).mem ((pushAll w vs s).sp + i • w)) := by
  induction vs using List.reverseRecOn generalizing i with
  | nil => exact absurd hi (Nat.not_lt_zero _)
  | append_singleton vs v ih =>
      rw [List.length_append, List.length_singleton] at hi hn
      rw [pushAll_append, List.reverse_append, List.reverse_singleton, List.singleton_append]
      change (v :: vs.reverse)[i]? = some (Function.update (pushAll w vs s).mem ((pushAll w vs s).sp - w) v
        ((pushAll w vs s).sp - w + i • w))
      cases i with
      | zero =>
          rw [zero_nsmul, add_zero, Function.update_self]
          rfl
      | succ i =>
          have hne : (pushAll w vs s).sp - w + (i + 1) • w ≠ (pushAll w vs s).sp - w := by
            intro heq
            exact hw (i + 1) (Nat.succ_pos i) (by omega) (left_eq_add.mp heq.symm)
          rw [Function.update_of_ne hne, List.getElem?_cons_succ, ih (by omega) (by omega), succ_nsmul]
          congr 2
          abel

end pushes

section pops

variable [DecidableEq R] {w} {rs : List R} {s : Machine A β R}

/-- Every pop moves the stack pointer up by a word. -/
theorem popAll_sp (rs : List R) (s : Machine A β R) : (popAll w rs s).sp = s.sp + rs.length • w := by
  induction rs generalizing s with
  | nil => exact (by rw [List.length_nil, zero_nsmul, add_zero]; rfl)
  | cons r rs ih =>
      have hrest : (popAll w rs (pop w r s)).sp = s.sp + w + rs.length • w := ih (pop w r s)
      rw [List.length_cons, succ_nsmul']
      refine hrest.trans ?_
      abel

/-- Pops leave the other registers alone. -/
theorem popAll_regs_of_notMem {r : R} (hr : r ∉ rs) : (popAll w rs s).regs r = s.regs r := by
  induction rs generalizing s with
  | nil => rfl
  | cons r' rs ih =>
      rw [List.mem_cons, not_or] at hr
      have hrest : (popAll w rs (pop w r' s)).regs r = (pop w r' s).regs r := ih hr.2
      exact hrest.trans (Function.update_of_ne hr.1 _ _)

/-- A register that is popped once gets the word at its place. -/
theorem popAll_regs (hnodup : rs.Nodup) {i : ℕ} {r : R} (hr : rs[i]? = some r) :
    (popAll w rs s).regs r = s.mem (s.sp + i • w) := by
  induction rs generalizing s i with
  | nil => exact absurd hr nofun
  | cons r' rs ih =>
      obtain ⟨hnew, hnodup'⟩ := List.nodup_cons.mp hnodup
      cases i with
      | zero =>
          obtain rfl : r' = r := Option.some.inj hr
          have hrest : (popAll w rs (pop w r' s)).regs r' = (pop w r' s).regs r' := popAll_regs_of_notMem hnew
          rw [zero_nsmul, add_zero]
          exact hrest.trans (Function.update_self _ _ _)
      | succ i =>
          rw [List.getElem?_cons_succ] at hr
          have hrest : (popAll w rs (pop w r' s)).regs r = s.mem (s.sp + w + i • w) := ih hnodup' hr
          rw [succ_nsmul', ← add_assoc]
          exact hrest

end pops

end WordStack
