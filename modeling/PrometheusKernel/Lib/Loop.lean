import Mathlib.Logic.Function.Basic
import Mathlib.Order.Lattice

/-!
# Counted loops

`upTo n body s` is `for (i = 0; i < n; i++) s = body(i, s)`, and `downFrom n body s` runs the same turns in the
opposite order. The rule `upTo_induct` carries an invariant that mentions the index.
-/

namespace Loop

variable {S : Type*}

/-- The turns `0, …, n - 1` of a loop, in this order. -/
def upTo : ℕ → (ℕ → S → S) → S → S
  | 0, _, s => s
  | n + 1, body, s => body n (upTo n body s)

/-- The turns `n - 1, …, 0` of a loop, in this order. -/
def downFrom : ℕ → (ℕ → S → S) → S → S
  | 0, _, s => s
  | n + 1, body, s => downFrom n body (body n s)

/-- No iteration. -/
@[simp] theorem upTo_zero (body : ℕ → S → S) (s : S) : upTo 0 body s = s := rfl

/-- The last iteration of a loop upwards has the highest index. -/
@[simp] theorem upTo_succ (n : ℕ) (body : ℕ → S → S) (s : S) : upTo (n + 1) body s = body n (upTo n body s) := rfl

/-- No iteration. -/
@[simp] theorem downFrom_zero (body : ℕ → S → S) (s : S) : downFrom 0 body s = s := rfl

/-- The first iteration of a loop downwards has the highest index. -/
@[simp] theorem downFrom_succ (n : ℕ) (body : ℕ → S → S) (s : S) :
    downFrom (n + 1) body s = downFrom n body (body n s) := rfl

/-- An invariant of the turns holds after the loop. -/
theorem upTo_induct {P : ℕ → S → Prop} {n : ℕ} {body : ℕ → S → S} {s : S} (hstart : P 0 s)
    (hturn : ∀ i < n, ∀ s, P i s → P (i + 1) (body i s)) : P n (upTo n body s) := by
  induction n with
  | zero => exact hstart
  | succ n ih =>
      rw [upTo_succ]
      apply hturn n (Nat.lt_succ_self n)
      exact ih fun i hi => hturn i (hi.trans (Nat.lt_succ_self n))

end Loop
