import Mathlib.Logic.Function.Basic
import Mathlib.Data.List.Basic

/-!
# Assignments one after the other

`assign t s is m` runs the assignments `m[t i] := m[s i]` for the indices `i` of a list, in the order of the list.
If no index writes what a later one writes or reads, the result is that of the simultaneous assignment
(`assign_target`, `assign_of_notMem`), and so does not depend on the order.
-/

namespace Assignments

variable {ι α β : Type*} [DecidableEq α] (t s : ι → α)

/-- `m[t i] := m[s i]`, for the indices of the list in turn. -/
def assign (is : List ι) (m : α → β) : α → β := is.foldl (fun m i => Function.update m (t i) (m (s i))) m

/-- No index writes what a later index of the list writes or reads. -/
def Undisturbed (is : List ι) : Prop := is.Pairwise fun i j => t i ≠ t j ∧ t i ≠ s j

variable {t s}

/-- Assignments with the same targets and sources do the same. -/
theorem assign_congr {t' s' : ι → α} {is : List ι} {m : α → β} (h : ∀ i ∈ is, t i = t' i ∧ s i = s' i) :
    assign t s is m = assign t' s' is m := by
  apply List.foldl_ext
  intro m' i hi
  rw [(h i hi).1, (h i hi).2]

/-- Only targets are written. -/
theorem assign_of_notMem {is : List ι} {m : α → β} {x : α} (h : ∀ i ∈ is, t i ≠ x) : assign t s is m x = m x := by
  induction is generalizing m with
  | nil => rfl
  | cons i is ih =>
      have hrest := ih (m := Function.update m (t i) (m (s i))) fun j hj => h j (List.mem_cons_of_mem i hj)
      have hhead : x ≠ t i := (h i List.mem_cons_self).symm
      rw [Function.update_of_ne hhead] at hrest
      exact hrest

/-- Every target gets what its source held at first. -/
theorem assign_target {is : List ι} {m : α → β} (h : Undisturbed t s is) {i : ι} (hi : i ∈ is) :
    assign t s is m (t i) = m (s i) := by
  induction is generalizing m with
  | nil => exact absurd hi List.not_mem_nil
  | cons j is ih =>
      obtain ⟨hhead, hrest⟩ := List.pairwise_cons.mp h
      have hassign : assign t s (j :: is) m = assign t s is (Function.update m (t j) (m (s j))) := rfl
      rcases List.mem_cons.mp hi with rfl | hi
      · rw [hassign, assign_of_notMem fun k hk => (hhead k hk).1.symm, Function.update_self]
      · rw [hassign, ih hrest hi, Function.update_of_ne (hhead i hi).2.symm]

end Assignments
