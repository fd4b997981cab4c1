import Mathlib.Data.List.GetD
import Mathlib.Logic.Function.Basic
import Mathlib.Algebra.Order.Group.Nat
import Mathlib.Tactic.SplitIfs

/-!
# Text laid out in rows, and the window on its last rows

A layout is the rows that are finished, the row that is being written and the column reached in it. It grows without
bound; what a screen shows is the last `height` rows (`lastRows`). Read by absolute row number (`cell`), a new row
changes nothing, since the rows not yet begun read as blank; only the first row shown (`top`) moves. So the three
operations on the layout become three facts about the window: `window_put`, `window_newline` and the trivial one
about the carriage return.
-/

namespace TextLayout

variable {α : Type*}

/-- Rows of text, from the first on. -/
structure Layout (α : Type*) where
  /-- The rows that are finished. -/
  rows : List (ℕ → α)
  /-- The row that is being written. -/
  row : ℕ → α
  /-- The column reached in it. -/
  col : ℕ

namespace Layout

variable (blank : α) (width height : ℕ)

/-- Nothing has been written. -/
def empty : Layout α := ⟨[], fun _ => blank, 0⟩

/-- Begin a new row. -/
def newline (L : Layout α) : Layout α := ⟨L.rows ++ [L.row], fun _ => blank, 0⟩

/-- Go back to the first column. -/
def carriageReturn (L : Layout α) : Layout α := { L with col := 0 }

/-- Write one cell and move on, without beginning a new row. -/
def advance (c : α) (L : Layout α) : Layout α := { L with row := Function.update L.row L.col c, col := L.col + 1 }

/-- Write one cell; a new row begins after the last column. -/
def put (c : α) (L : Layout α) : Layout α :=
  if L.col + 1 < width then L.advance c else (L.advance c).newline blank

/-- All rows that have been begun. -/
def allRows (L : Layout α) : List (ℕ → α) := L.rows ++ [L.row]

/-- The last rows. -/
def lastRows (L : Layout α) : List (ℕ → α) := L.allRows.drop (L.allRows.length - height)

/-- The cells of the last rows; where there are less than `height` rows, blank rows follow. -/
def window (L : Layout α) (y x : ℕ) : α := (L.lastRows height).getD y (fun _ => blank) x

/-- The number of rows that are no longer shown. -/
def top (L : Layout α) : ℕ := L.allRows.length - height

/-- The row of the window that is being written. -/
def windowRow (L : Layout α) : ℕ := L.rows.length - L.top height

/-- The cells by absolute row. -/
def cell (L : Layout α) (n x : ℕ) : α := L.allRows.getD n (fun _ => blank) x

section lemmas

variable {blank width height} {L : Layout α} {n x y : ℕ}

/-- The row that is being written counts too. -/
@[simp] theorem length_allRows (L : Layout α) : L.allRows.length = L.rows.length + 1 := by
  unfold allRows
  rw [List.length_append, List.length_singleton]

/-- The window is a part of the text. -/
theorem window_eq_cell (L : Layout α) (y x : ℕ) : L.window blank height y x = L.cell blank (L.top height + y) x := by
  unfold window cell lastRows top
  rw [List.getD_eq_getElem?_getD, List.getD_eq_getElem?_getD, List.getElem?_drop]

/-- Below the row that is being written everything is blank. -/
theorem cell_of_lt_length (hn : L.rows.length < n) : L.cell blank n x = blank := by
  unfold cell
  rw [List.getD_eq_default _ _ (by rw [length_allRows]; exact hn)]

/-- Nothing has been written on the empty layout. -/
theorem cell_empty : (empty blank).cell blank n x = blank := by
  unfold cell allRows empty
  rcases n with - | n
  · rfl
  · rfl

/-- A row not yet begun reads as blank, so beginning it changes no cell. -/
@[simp] theorem cell_newline (L : Layout α) : (L.newline blank).cell blank n x = L.cell blank n x := by
  have hrows : (L.newline blank).allRows = L.allRows ++ [fun _ => blank] := rfl
  unfold cell
  rw [hrows]
  rcases Nat.lt_or_ge n L.allRows.length with hlt | hge
  · rw [List.getD_append _ _ _ _ hlt]
  · rw [List.getD_append_right _ _ _ _ hge, List.getD_eq_default _ _ hge]
    rcases n - L.allRows.length with - | k
    · rfl
    · rfl

/-- A carriage return changes no cell. -/
@[simp] theorem cell_carriageReturn (L : Layout α) : L.carriageReturn.cell blank n x = L.cell blank n x := rfl

/-- A character changes the cell at the cursor only. -/
theorem cell_advance (L : Layout α) (c : α) :
    (L.advance c).cell blank n x = if n = L.rows.length ∧ x = L.col then c else L.cell blank n x := by
  unfold cell allRows advance
  dsimp only
  rcases lt_trichotomy n L.rows.length with hlt | rfl | hgt
  · rw [List.getD_append _ _ _ _ hlt, List.getD_append _ _ _ _ hlt, if_neg fun h => absurd h.1 hlt.ne]
  · rw [List.getD_append_right _ _ _ _ le_rfl, List.getD_append_right _ _ _ _ le_rfl, Nat.sub_self]
    change Function.update L.row L.col c x = if L.rows.length = L.rows.length ∧ x = L.col then c else L.row x
    rw [Function.update_apply]
    exact if_congr (and_iff_right rfl).symm rfl rfl
  · rw [if_neg fun h => absurd h.1 hgt.ne', List.getD_eq_default, List.getD_eq_default]
    · rw [List.length_append, List.length_singleton]
      exact hgt
    · rw [List.length_append, List.length_singleton]
      exact hgt

/-- A newline completes a row. -/
@[simp] theorem length_newline (L : Layout α) : (L.newline blank).rows.length = L.rows.length + 1 := length_allRows L

/-- The first row in the window. -/
theorem top_eq (L : Layout α) : L.top height = L.rows.length + 1 - height := by
  unfold top
  rw [length_allRows]

/-- A character does not move the window. -/
@[simp] theorem top_advance (L : Layout α) (c : α) : (L.advance c).top height = L.top height := by
  rw [top_eq, top_eq]
  rfl

/-- The cursor is in the window. -/
theorem windowRow_lt (hheight : 0 < height) (L : Layout α) : L.windowRow height < height := by
  unfold windowRow
  rw [top_eq]
  omega

/-- Where the window has a row left, a new row leaves the window as it is. -/
theorem window_newline_of_lt (h : L.windowRow height + 1 < height) :
    (L.newline blank).window blank height y x = L.window blank height y x ∧
      (L.newline blank).windowRow height = L.windowRow height + 1 := by
  unfold windowRow at h ⊢
  rw [window_eq_cell, window_eq_cell, cell_newline]
  simp only [top_eq, length_newline] at h ⊢
  rw [show L.rows.length + 1 + 1 - height = L.rows.length + 1 - height by omega]
  exact ⟨rfl, by omega⟩

/-- In the last row of the window a new row moves the window down, and a blank row comes in. -/
theorem window_newline_of_eq (h : L.windowRow height + 1 = height) (hy : y < height) :
    (L.newline blank).window blank height y x
        = (if y + 1 < height then L.window blank height (y + 1) x else blank) ∧
      (L.newline blank).windowRow height = L.windowRow height := by
  unfold windowRow at h ⊢
  rw [window_eq_cell, window_eq_cell, cell_newline]
  simp only [top_eq, length_newline] at h ⊢
  refine ⟨?_, by omega⟩
  split_ifs with hrow
  · rw [show L.rows.length + 1 + 1 - height + y = L.rows.length + 1 - height + (y + 1) by omega]
  · exact cell_of_lt_length (by omega)

/-- A character changes the cell of the window at the cursor only. -/
theorem window_advance (hheight : 0 < height) (c : α) :
    (L.advance c).window blank height y x
      = if y = L.windowRow height ∧ x = L.col then c else L.window blank height y x := by
  rw [window_eq_cell, window_eq_cell, cell_advance, top_advance]
  unfold windowRow
  rw [top_eq]
  apply if_congr _ rfl rfl
  constructor
  · rintro ⟨hrow, hcol⟩
    exact ⟨by omega, hcol⟩
  · rintro ⟨hrow, hcol⟩
    exact ⟨by omega, hcol⟩

/-- What holds of a blank and of everything that is written holds of every cell. -/
theorem forall_cell_put {p : α → Prop} (hblank : ∀ n x, p (L.cell blank n x)) {c : α} (hc : p c) (n x : ℕ) :
    p ((L.put blank width c).cell blank n x) := by
  have hadvance : p ((L.advance c).cell blank n x) := by
    rw [cell_advance]
    split_ifs
    · exact hc
    · exact hblank n x
  unfold put
  split_ifs
  · exact hadvance
  · rw [cell_newline]
    exact hadvance

end lemmas

end Layout

end TextLayout
