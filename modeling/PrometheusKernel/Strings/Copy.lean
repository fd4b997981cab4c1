import PrometheusKernel.Lib.Assignments
import PrometheusKernel.Lib.ByteMem
import PrometheusKernel.Lib.Loop

/-!
# `memcpy` and `memmove` in `kernel/lib/string.c`

Both copy byte by byte. `memmove` goes upwards where the target is below the source and downwards where it is
above, so that no byte of the source is overwritten before it is read: the result is that of a copy of all bytes at
once (`memmove_eq_moved`). `memcpy` always goes upwards, which is right for disjoint ranges and for a target below
the source (`memcpy_eq_moved`).

Addresses are 64-bit words; `&p[i]` wraps around. The copies of the heap and of copy-on-write are `memcpy` on
ranges that do not (`memcpy_eq_copyBytes`).
-/

namespace PrometheusKernel.Strings

open ByteMem Loop Assignments

/-- The address `&p[i]`. -/
def elem (p i : ℕ) : ℕ := (p + i) % 2 ^ 64

/-- `d[i] = s[i]`. -/
def copyByte (d s i : ℕ) (m : Mem) : Mem := Function.update m (elem d i) (m (elem s i))

/-- `memcpy`. -/
def memcpy (m : Mem) (dest src n : ℕ) : Mem × ℕ := (upTo n (copyByte dest src) m, dest)

/-- `memmove`. -/
def memmove (m : Mem) (dest src n : ℕ) : Mem × ℕ :=
  if dest < src then (upTo n (copyByte dest src) m, dest)
  else if dest > src then (downFrom n (copyByte dest src) m, dest)
  else (m, dest)

/-- All bytes of `[src, src + n)` at once. -/
def moved (m : Mem) (dest src n : ℕ) : Mem := fun x => if dest ≤ x ∧ x < dest + n then m (src + (x - dest)) else m x

variable {m : Mem} {dest src n : ℕ}

/-- The elements of a range that does not wrap. -/
theorem elem_eq {p i : ℕ} (hp : p + n ≤ 2 ^ 64) (hi : i < n) : elem p i = p + i :=
  Nat.mod_eq_of_lt (lt_of_lt_of_le (Nat.add_lt_add_left hi p) hp)

/-! ### The loops -/

/-- The loop upwards is an assignment of the bytes in order. -/
theorem upTo_copyByte (n : ℕ) :
    upTo n (copyByte dest src) m = assign (elem dest) (elem src) (List.range n) m := by
  induction n with
  | zero => rfl
  | succ n ih =>
      rw [upTo_succ, ih, List.range_succ]
      unfold assign
      rw [List.foldl_append]
      rfl

/-- The loop downwards is an assignment of the bytes in reverse. -/
theorem downFrom_copyByte (n : ℕ) :
    downFrom n (copyByte dest src) m = assign (elem dest) (elem src) (List.range n).reverse m := by
  induction n generalizing m with
  | zero => rfl
  | succ n ih =>
      rw [downFrom_succ, ih, List.range_succ, List.reverse_append]
      rfl

/-- The copies of the bytes in an order in which none disturbs a later one. -/
theorem assign_eq_moved (hdest : dest + n ≤ 2 ^ 64) (hsrc : src + n ≤ 2 ^ 64) {is : List ℕ}
    (hmem : ∀ i, i ∈ is ↔ i < n) (his : Undisturbed (elem dest) (elem src) is) :
    assign (elem dest) (elem src) is m = moved m dest src n := by
  funext x
  unfold moved
  by_cases hx : dest ≤ x ∧ x < dest + n
  · have hi : x - dest < n := by omega
    have htarget : elem dest (x - dest) = x := by
      rw [elem_eq hdest hi]
      omega
    have hassign := assign_target (m := m) his ((hmem _).mpr hi)
    rw [htarget, elem_eq hsrc hi] at hassign
    rw [if_pos hx, hassign]
  · rw [if_neg hx]
    apply assign_of_notMem
    intro i hi hcon
    have hlt := (hmem i).mp hi
    rw [elem_eq hdest hlt] at hcon
    omega

/-- Upwards, a byte of the source is read before it is overwritten if the target is below it. -/
theorem undisturbed_range (hdest : dest + n ≤ 2 ^ 64) (hsrc : src + n ≤ 2 ^ 64)
    (h : dest ≤ src ∨ src + n ≤ dest) : Undisturbed (elem dest) (elem src) (List.range n) := by
  refine List.pairwise_lt_range.imp_of_mem fun {i j} hi hj hlt => ?_
  rw [elem_eq hdest (List.mem_range.mp hi), elem_eq hdest (List.mem_range.mp hj), elem_eq hsrc (List.mem_range.mp hj)]
  have hjn := List.mem_range.mp hj
  omega

/-- Downwards, if the target is above it. -/
theorem undisturbed_reverse (hdest : dest + n ≤ 2 ^ 64) (hsrc : src + n ≤ 2 ^ 64) (h : src < dest) :
    Undisturbed (elem dest) (elem src) (List.range n).reverse := by
  refine List.pairwise_reverse.mpr (List.pairwise_lt_range.imp_of_mem fun {i j} hi hj hlt => ?_)
  rw [elem_eq hdest (List.mem_range.mp hi), elem_eq hdest (List.mem_range.mp hj), elem_eq hsrc (List.mem_range.mp hi)]
  omega

/-! ### The copies -/

/-- `memcpy` moves the bytes where the ranges do not meet the wrong way. -/
theorem memcpy_eq_moved (m : Mem) (hdest : dest + n ≤ 2 ^ 64) (hsrc : src + n ≤ 2 ^ 64)
    (h : dest ≤ src ∨ src + n ≤ dest) : memcpy m dest src n = (moved m dest src n, dest) := by
  unfold memcpy
  rw [upTo_copyByte, assign_eq_moved hdest hsrc (fun i => List.mem_range) (undisturbed_range hdest hsrc h)]

/-- Bytes moved to where they are. -/
theorem moved_self (m : Mem) (dest n : ℕ) : moved m dest dest n = m := by
  funext x
  unfold moved
  split_ifs with hx
  · rw [Nat.add_sub_cancel' hx.1]
  · rfl

/-- `memmove` moves the bytes. -/
theorem memmove_eq_moved (m : Mem) (hdest : dest + n ≤ 2 ^ 64) (hsrc : src + n ≤ 2 ^ 64) :
    memmove m dest src n = (moved m dest src n, dest) := by
  unfold memmove
  rcases lt_trichotomy dest src with hlt | rfl | hgt
  · rw [if_pos hlt]
    exact memcpy_eq_moved m hdest hsrc (Or.inl hlt.le)
  · rw [if_neg (lt_irrefl dest), if_neg (lt_irrefl dest), moved_self]
  · have hmem : ∀ i, i ∈ (List.range n).reverse ↔ i < n := fun i => List.mem_reverse.trans List.mem_range
    rw [if_neg hgt.not_gt, if_pos hgt, downFrom_copyByte,
      assign_eq_moved hdest hsrc hmem (undisturbed_reverse hdest hsrc hgt)]

/-- A copy is an assignment of the bytes in order. -/
theorem copyBytes_eq_assign (n : ℕ) (m : Mem) (dest src : ℕ) :
    copyBytes n m dest src = assign (dest + ·) (src + ·) (List.range n) m := by
  induction n generalizing m dest src with
  | zero => rfl
  | succ n ih =>
      have hdest : ∀ i, dest + 1 + i = dest + i.succ := fun i => by omega
      have hsrc : ∀ i, src + 1 + i = src + i.succ := fun i => by omega
      rw [copyBytes, ih, List.range_succ_eq_map]
      unfold assign
      rw [List.foldl_cons, List.foldl_map]
      simp only [hdest, hsrc]
      rfl

/-- The copies of the other modules are `memcpy`. -/
theorem memcpy_eq_copyBytes (m : Mem) (hdest : dest + n ≤ 2 ^ 64) (hsrc : src + n ≤ 2 ^ 64) :
    (memcpy m dest src n).1 = copyBytes n m dest src := by
  show upTo n (copyByte dest src) m = _
  rw [upTo_copyByte, copyBytes_eq_assign]
  apply assign_congr
  intro i hi
  exact ⟨elem_eq hdest (List.mem_range.mp hi), elem_eq hsrc (List.mem_range.mp hi)⟩

/-- After `memmove` the target holds what the source held before, and nothing else has changed; `memcpy` does the
same unless the target begins inside the source. -/
theorem memmove_simultaneous (m : Mem) {dest src n : ℕ} (hdest : dest + n ≤ 2 ^ 64) (hsrc : src + n ≤ 2 ^ 64) :
    (∀ i < n, (memmove m dest src n).1 (dest + i) = m (src + i)) ∧
      (∀ x, x < dest ∨ dest + n ≤ x → (memmove m dest src n).1 x = m x) ∧
      (dest + n ≤ src ∨ src + n ≤ dest ∨ dest ≤ src → memcpy m dest src n = memmove m dest src n) := by
  rw [memmove_eq_moved m hdest hsrc]
  refine ⟨fun i hi => ?_, fun x hx => if_neg (by omega), fun h => memcpy_eq_moved m hdest hsrc (by omega)⟩
  have hin : dest ≤ dest + i ∧ dest + i < dest + n := ⟨Nat.le_add_right _ _, Nat.add_lt_add_left hi _⟩
  show moved m dest src n (dest + i) = m (src + i)
  unfold moved
  rw [if_pos hin, Nat.add_sub_cancel_left]

/-- Four bytes, two places up. -/
theorem memmove_simultaneous_overlap :
    (∀ i < 4, (memmove (fun x => UInt8.ofNat x) 2 0 4).1 (2 + i) = UInt8.ofNat (0 + i)) ∧
      (∀ x, x < 2 ∨ 2 + 4 ≤ x → (memmove (fun x => UInt8.ofNat x) 2 0 4).1 x = UInt8.ofNat x) ∧
      (2 + 4 ≤ 0 ∨ 0 + 4 ≤ 2 ∨ 2 ≤ 0 →
        memcpy (fun x => UInt8.ofNat x) 2 0 4 = memmove (fun x => UInt8.ofNat x) 2 0 4) :=
  memmove_simultaneous (fun x => UInt8.ofNat x) (by norm_num) (by norm_num)

/-- There `memcpy` reads what it has just written. -/
example : (memcpy (fun x => UInt8.ofNat x) 2 0 4).1 4 = 0 ∧ (memmove (fun x => UInt8.ofNat x) 2 0 4).1 4 = 2 := by
  decide

end PrometheusKernel.Strings
