import Mathlib.Tactic

/-!
# Fixed-width unsigned arithmetic on naturals

A machine word of `w` bits is a natural number below `2 ^ w`. `Word.add`, `Word.sub` and `Word.mul`
are the wrapping operations; the lemmas `add_eq`, `sub_eq` and `mul_eq` turn them into the
operations of `ℕ` where nothing wraps. The bit lemmas relate masks and flags to division and
remainder, which is the form `omega` works with.
-/

namespace Word

/-- Addition of `w`-bit words. -/
def add (w a b : ℕ) : ℕ := (a + b) % 2 ^ w

/-- Subtraction of `w`-bit words. -/
def sub (w a b : ℕ) : ℕ := (a + (2 ^ w - b % 2 ^ w)) % 2 ^ w

/-- Multiplication of `w`-bit words. -/
def mul (w a b : ℕ) : ℕ := (a * b) % 2 ^ w

/-- A sum that fits does not wrap. -/
theorem add_eq {w a b : ℕ} (h : a + b < 2 ^ w) : add w a b = a + b := Nat.mod_eq_of_lt h

/-- A product that fits does not wrap. -/
theorem mul_eq {w a b : ℕ} (h : a * b < 2 ^ w) : mul w a b = a * b := Nat.mod_eq_of_lt h

/-- A difference of ordered words does not wrap. -/
theorem sub_eq {w a b : ℕ} (hb : b ≤ a) (ha : a < 2 ^ w) : sub w a b = a - b := by
  rw [sub, Nat.mod_eq_of_lt (lt_of_le_of_lt hb ha)]
  have h : a + (2 ^ w - b) = (a - b) + 2 ^ w := by omega
  rw [h, Nat.add_mod_right, Nat.mod_eq_of_lt (by omega)]

/-- A sum is a word. -/
theorem add_lt (w a b : ℕ) : add w a b < 2 ^ w := Nat.mod_lt _ (Nat.two_pow_pos w)

/-- A difference is a word. -/
theorem sub_lt (w a b : ℕ) : sub w a b < 2 ^ w := Nat.mod_lt _ (Nat.two_pow_pos w)

/-- Subtraction that wraps below zero. -/
theorem sub_eq_of_lt {w a b : ℕ} (hb : b < 2 ^ w) (hab : a < b) : sub w a b = 2 ^ w + a - b := by
  rw [sub, Nat.mod_eq_of_lt hb, Nat.mod_eq_of_lt (by omega)]
  omega

/-- A decrement goes down by one at most. -/
theorem sub_one_le_sub {w a : ℕ} (ha : a < 2 ^ w) : a - 1 ≤ sub w a 1 := by
  rcases Nat.eq_zero_or_pos a with rfl | hpos
  · exact Nat.zero_le _
  · rw [sub_eq hpos ha]

/-- A word that is decremented and incremented again is the word it was. -/
theorem add_sub_one {w a : ℕ} (hw : 0 < w) (ha : a < 2 ^ w) : add w (sub w a 1) 1 = a := by
  have h2 : 1 < 2 ^ w := Nat.one_lt_two_pow hw.ne'
  rcases Nat.eq_zero_or_pos a with rfl | hpos
  · rw [sub_eq_of_lt h2 one_pos, add, show 2 ^ w + 0 - 1 + 1 = 2 ^ w by omega, Nat.mod_self]
  · rw [sub_eq hpos ha, add, Nat.sub_add_cancel hpos, Nat.mod_eq_of_lt ha]

/-- Clearing the low `k` bits rounds down to a multiple of `2 ^ k`. -/
theorem and_high_mask {w k : ℕ} (hk : k ≤ w) (x : ℕ) : x &&& (2 ^ w - 2 ^ k) = x % 2 ^ w / 2 ^ k * 2 ^ k := by
  have hmask : 2 ^ w - 2 ^ k = (2 ^ (w - k) - 1) * 2 ^ k := by
    rw [Nat.sub_mul, one_mul, ← pow_add, Nat.sub_add_cancel hk]
  apply Nat.eq_of_testBit_eq
  intro i
  rw [hmask, Nat.testBit_and, Nat.testBit_mul_two_pow, Nat.testBit_mul_two_pow, Nat.testBit_two_pow_sub_one,
    Nat.testBit_div_two_pow, Nat.testBit_mod_two_pow]
  by_cases hki : k ≤ i
  · have hback : i - k + k = i := Nat.sub_add_cancel hki
    have hlt : i - k < w - k ↔ i < w := by omega
    simp [hki, hback, hlt, Bool.and_comm]
  · simp [hki]

end Word
