import Mathlib.Data.List.GetD
import Mathlib.Logic.Function.Basic
import Mathlib.Algebra.Order.Group.Nat
import Mathlib.Tactic.SplitIfs

/-!
# Ring buffers

A queue in an array of `N` cells, between the index `tail` of its front and the index `head` of the first cell behind
its end, both modulo `N`. One cell stays unused, so that `head = tail` is the empty queue and `head + 1 = tail` the
full one. `Represents` relates the array and the two indices to the queue as a list; `push` and `pop` are the two
operations.
-/

namespace RingBuffer

variable {α : Type*}

/-- The cells from `tail` up to `head` are the queue `q`. -/
structure Represents (N : ℕ) (cells : ℕ → α) (head tail : ℕ) (q : List α) : Prop where
  /-- One cell is left over. -/
  room : q.length < N
  tail_lt : tail < N
  head_eq : head = (tail + q.length) % N
  cells_eq : ∀ i < q.length, q[i]? = some (cells ((tail + i) % N))

/-- An index behind the end wraps around once. -/
theorem wrap_eq {N a b : ℕ} (ha : a < N) (hb : b ≤ N) : (a + b) % N = if a + b < N then a + b else a + b - N := by
  split_ifs with h
  · exact Nat.mod_eq_of_lt h
  · rw [Nat.mod_eq_sub_mod (not_lt.mp h), Nat.mod_eq_of_lt (by omega)]

/-- Less than `N` steps around the buffer lead back to the start only if there is none. -/
theorem wrap_eq_self_iff {N a n : ℕ} (ha : a < N) (hn : n < N) : (a + n) % N = a ↔ n = 0 := by
  rw [wrap_eq ha hn.le]
  split_ifs <;> omega

namespace Represents

variable {N head tail : ℕ} {cells : ℕ → α} {q : List α} {c : α}

/-- A buffer whose indices meet is empty. -/
theorem empty (h : tail < N) (cells : ℕ → α) : Represents N cells tail tail [] where
  room := Nat.zero_lt_of_lt h
  tail_lt := h
  head_eq := (Nat.mod_eq_of_lt h).symm
  cells_eq _ hi := absurd hi (Nat.not_lt_zero _)

/-- The head is just before the tail exactly when all cells but one are in use. -/
theorem next_eq_tail_iff (h : Represents N cells head tail q) : (head + 1) % N = tail ↔ q.length + 1 = N := by
  have htail := h.tail_lt
  have hroom := h.room
  have hnext : (head + 1) % N = (tail + (q.length + 1)) % N := by
    rw [h.head_eq, Nat.mod_add_mod, Nat.add_assoc]
  rw [hnext, wrap_eq htail hroom]
  split_ifs <;> omega

/-- A buffer with room takes an element at its head. -/
theorem push (h : Represents N cells head tail q) (hroom : q.length + 1 < N) (c : α) :
    Represents N (Function.update cells head c) ((head + 1) % N) tail (q ++ [c]) where
  room := by
    rw [List.length_append]
    exact hroom
  tail_lt := h.tail_lt
  head_eq := by
    rw [h.head_eq, Nat.mod_add_mod, List.length_append, Nat.add_assoc]
    rfl
  cells_eq i hi := by
    rw [List.length_append, List.length_singleton] at hi
    rcases Nat.lt_or_eq_of_le (Nat.lt_succ_iff.mp hi) with hlt | rfl
    · -- the new cell is none of the old ones
      have hne : (tail + i) % N ≠ head := by
        have htail := h.tail_lt
        rw [h.head_eq, wrap_eq htail (by omega), wrap_eq htail (by omega)]
        split_ifs <;> omega
      rw [List.getElem?_append_left hlt, Function.update_of_ne hne]
      exact h.cells_eq i hlt
    · rw [← h.head_eq, Function.update_self, List.getElem?_append_right le_rfl, Nat.sub_self]
      rfl

/-- The front of the queue is in the cell at the tail. -/
theorem front (h : Represents N cells head tail (c :: q)) : cells tail = c := by
  have hfront := h.cells_eq 0 (Nat.succ_pos _)
  rw [Nat.add_zero, Nat.mod_eq_of_lt h.tail_lt] at hfront
  exact (Option.some.inj hfront).symm

/-- A buffer gives up the element at its tail. -/
theorem pop (h : Represents N cells head tail (c :: q)) : Represents N cells head ((tail + 1) % N) q where
  room := (Nat.lt_succ_self _).trans h.room
  tail_lt := Nat.mod_lt _ (Nat.zero_lt_of_lt h.tail_lt)
  head_eq := by
    rw [h.head_eq, Nat.mod_add_mod, List.length_cons, Nat.add_assoc, Nat.add_comm 1]
  cells_eq i hi := by
    rw [Nat.mod_add_mod, Nat.add_assoc, Nat.add_comm 1]
    exact h.cells_eq (i + 1) (Nat.succ_lt_succ hi)

end Represents

end RingBuffer
