import Mathlib.Tactic
import Mathlib.Data.Nat.Digits.Lemmas

/-!
# Numerals

`numeral digit b v` is `v` in base `b`, the most significant digit first; zero has one digit. `digitLoop` is the
loop that such conversions run, which takes the digits off at the low end, with a bound on its iterations; the
digits come out backwards (`digitLoop_eq`). `parse` reads a numeral (`parse_numeral`), which has no leading zero
(`head_numeral`).
-/

namespace Numeral

variable {α : Type} {digit : ℕ → α} {b : ℕ}

/-- The digits of `v` in base `b`, most significant first. -/
def numeral (digit : ℕ → α) (b v : ℕ) : List α :=
  if v = 0 then [digit 0] else ((Nat.digits b v).map digit).reverse

/-- The loop `while (v) { tmp[i++] = digit[v % b]; v /= b; }`. -/
def digitLoop (digit : ℕ → α) (b : ℕ) : ℕ → ℕ → List α
  | 0, _ => []
  | fuel + 1, v => if v = 0 then [] else digit (v % b) :: digitLoop digit b fuel (v / b)

/-- The loop gives the digits if it may run long enough. -/
theorem digitLoop_eq (hb : 1 < b) {fuel v : ℕ} (hv : v < b ^ fuel) :
    digitLoop digit b fuel v = (Nat.digits b v).map digit := by
  induction fuel generalizing v with
  | zero =>
      obtain rfl : v = 0 := by
        rw [pow_zero] at hv
        omega
      rw [Nat.digits_zero]
      rfl
  | succ fuel ih =>
      unfold digitLoop
      by_cases h0 : v = 0
      · rw [if_pos h0, h0, Nat.digits_zero]
        rfl
      · have hdiv : v / b < b ^ fuel := Nat.div_lt_of_lt_mul (by rwa [pow_succ, mul_comm] at hv)
        rw [if_neg h0, ih hdiv, Nat.digits_def' hb (Nat.pos_of_ne_zero h0), List.map_cons]

/-- As many digits as there is fuel, at most. -/
theorem length_digitLoop_le (fuel v : ℕ) : (digitLoop digit b fuel v).length ≤ fuel := by
  induction fuel generalizing v with
  | zero => exact le_rfl
  | succ fuel ih =>
      unfold digitLoop
      split_ifs
      · exact Nat.zero_le _
      · exact Nat.succ_le_succ (ih (v / b))

/-- Only the digits below the base are written. -/
theorem numeral_congr {digit' : ℕ → α} (hb : 1 < b) (h : ∀ i < b, digit i = digit' i) (v : ℕ) :
    numeral digit b v = numeral digit' b v := by
  unfold numeral
  rw [h 0 (by omega), List.map_congr_left fun i hi => h i (Nat.digits_lt_base hb hi)]

/-- A number below `b ^ k` has at most `k` digits. -/
theorem length_numeral_le (hb : 1 < b) {k v : ℕ} (hk : 0 < k) (hv : v < b ^ k) : (numeral digit b v).length ≤ k := by
  unfold numeral
  by_cases h0 : v = 0
  · rw [if_pos h0]
    exact hk
  · rw [if_neg h0, List.length_reverse, List.length_map]
    exact (Nat.digits_length_le_iff hb v).mpr hv

/-- A number of `b ^ k` or more has more than `k` digits. -/
theorem lt_length_numeral (hb : 1 < b) {k v : ℕ} (hv : b ^ k ≤ v) : k < (numeral digit b v).length := by
  have hpos : 0 < b ^ k := Nat.pow_pos (by omega)
  unfold numeral
  rw [if_neg (by omega), List.length_reverse, List.length_map]
  exact (Nat.lt_digits_length_iff hb v).mpr hv

/-! ### Reading a numeral -/

/-- The digits of `cs` behind a number that has been read up to `acc`; `none` at a character that is no digit. -/
def parseFrom (value : α → Option ℕ) (b : ℕ) : ℕ → List α → Option ℕ
  | acc, [] => some acc
  | acc, c :: cs => (value c).bind fun i => parseFrom value b (acc * b + i) cs

/-- The number that is written in `cs` in base `b`, if it is one. -/
def parse (value : α → Option ℕ) (b : ℕ) (cs : List α) : Option ℕ :=
  if cs.isEmpty then none else parseFrom value b 0 cs

/-- Digits are read back as the number that they stand for. -/
theorem parseFrom_map {value : α → Option ℕ} (h : ∀ i < b, value (digit i) = some i) {ds : List ℕ}
    (hds : ∀ i ∈ ds, i < b) (acc : ℕ) :
    parseFrom value b acc (ds.map digit) = some (acc * b ^ ds.length + Nat.ofDigits b ds.reverse) := by
  induction ds generalizing acc with
  | nil =>
      rw [List.length_nil, pow_zero, mul_one, List.reverse_nil, Nat.ofDigits_nil]
      rfl
  | cons i ds ih =>
      have hrest := ih (fun j hj => hds j (List.mem_cons_of_mem i hj)) (acc * b + i)
      rw [List.map_cons, parseFrom, h i (hds i List.mem_cons_self), Option.bind_some, hrest, List.reverse_cons,
        Nat.ofDigits_append, Nat.ofDigits_singleton, List.length_reverse, List.length_cons, pow_succ]
      congr 1
      ring

/-- What was written is read. -/
theorem parse_numeral {value : α → Option ℕ} (hb : 1 < b) (h : ∀ i < b, value (digit i) = some i) (v : ℕ) :
    parse value b (numeral digit b v) = some v := by
  unfold parse numeral
  by_cases h0 : v = 0
  · rw [if_pos h0, h0, List.isEmpty_cons, if_neg Bool.false_ne_true, parseFrom, h 0 (by omega)]
    simp [parseFrom]
  · have hdigits : ∀ i ∈ (Nat.digits b v).reverse, i < b := fun i hi =>
      Nat.digits_lt_base hb (List.mem_reverse.mp hi)
    have hne : ((Nat.digits b v).map digit).reverse.isEmpty = false := by
      rw [List.isEmpty_reverse, List.isEmpty_map]
      exact List.isEmpty_eq_false_iff.mpr (Nat.digits_ne_nil_iff_ne_zero.mpr h0)
    rw [if_neg h0, hne, if_neg Bool.false_ne_true, ← List.map_reverse, parseFrom_map h hdigits, List.reverse_reverse,
      Nat.ofDigits_digits, zero_mul, zero_add]

/-- A text that begins with something else than a digit is no number. -/
theorem parse_cons_of_none {value : α → Option ℕ} {c : α} (hc : value c = none) (b : ℕ) (cs : List α) :
    parse value b (c :: cs) = none := by
  unfold parse
  rw [List.isEmpty_cons, if_neg Bool.false_ne_true, parseFrom, hc, Option.bind_none]

/-- Only zero begins with the digit zero. -/
theorem head_numeral {value : α → Option ℕ} (hb : 1 < b) (h : ∀ i < b, value (digit i) = some i) {v : ℕ}
    (hv : v ≠ 0) : (numeral digit b v).head? ≠ some (digit 0) := by
  have hne : Nat.digits b v ≠ [] := Nat.digits_ne_nil_iff_ne_zero.mpr hv
  unfold numeral
  rw [if_neg hv, List.head?_reverse, List.getLast?_map, List.getLast?_eq_some_getLast hne, Option.map_some]
  intro hcon
  set last := (Nat.digits b v).getLast hne
  have hlast := h last (Nat.digits_lt_base hb (List.getLast_mem hne))
  rw [Option.some.inj hcon, h 0 (by omega)] at hlast
  exact Nat.getLast_digit_ne_zero b hv (Option.some.inj hlast).symm

end Numeral
