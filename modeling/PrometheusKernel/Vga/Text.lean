import PrometheusKernel.Lib.TextLayout
import PrometheusKernel.Vga.Cursor

/-!
# The console shows the last rows of the text

Printable characters, newlines and carriage returns, written after `vga_init`, are laid out in rows of 80 columns
without end; the screen shows the last 25 rows of that layout, and the cursor is where the layout is being written
(`Shows`). Each of the three kinds of characters keeps this (`Shows.vgaPutchar`): a printable character stores one
cell, and the step to the next row either leaves the frame buffer alone or scrolls it by one row, just as the window
moves down by one row.
-/

namespace PrometheusKernel.Vga

open TextLayout

/-- `' '`. -/
def space : UInt8 := 0x20

/-- A printable ASCII character. -/
def Printable (c : UInt8) : Prop := 0x20 ≤ c ∧ c ≤ 0x7E

/-- A printable ASCII character, a newline or a carriage return. -/
def IsText (c : UInt8) : Prop := Printable c ∨ c = 0x0A ∨ c = 0x0D

/-- One character of the text, laid out. -/
def layOut (L : Layout UInt8) (c : UInt8) : Layout UInt8 :=
  if c = 0x0A then L.newline space
  else if c = 0x0D then L.carriageReturn
  else L.put space vgaWidth c

/-- The text, laid out in rows from an empty one on. -/
def layoutOf (str : List UInt8) : Layout UInt8 := str.foldl layOut (Layout.empty space)

/-- The screen shows the last rows of the layout in the colour 0x07, and the cursor is where the layout is written. -/
structure Shows (L : Layout UInt8) (s : Console) : Prop where
  color : s.color = 0x07
  cursorX : s.cursorX = L.col
  cursorY : s.cursorY = L.windowRow vgaHeight
  buffer : ∀ y < vgaHeight, ∀ x < vgaWidth,
    s.buffer (y * vgaWidth + x) = vgaEntry (L.window space vgaHeight y x) 0x07

section shows

variable {L : Layout UInt8} {s : Console}

/-- The cell of row `y` and column `x` determines `y` and `x`. -/
theorem cell_inj {x x' y y' : ℕ} (hx : x < vgaWidth) (hx' : x' < vgaWidth) :
    y * vgaWidth + x = y' * vgaWidth + x' ↔ y = y' ∧ x = x' := by
  unfold vgaWidth at *
  omega

/-- A cell on the screen is in the buffer. -/
theorem cell_lt {x y : ℕ} (hx : x < vgaWidth) (hy : y < vgaHeight) : y * vgaWidth + x < vgaHeight * vgaWidth := by
  unfold vgaWidth vgaHeight at *
  omega

/-- After `vga_init` the screen is empty. -/
theorem shows_vgaInit (s : Console) : Shows (Layout.empty space) (vgaInit s) := by
  unfold vgaInit
  obtain ⟨t, hstores, hres⟩ := vgaClear_stores { s.setCursor 0 0 with color := 0x07 }
  rw [hres]
  refine ⟨hstores.color, rfl, rfl, fun y hy x hx => ?_⟩
  change t.buffer (y * vgaWidth + x) = _
  rw [hstores.buffer, if_pos ⟨Nat.zero_le _, cell_lt hx hy⟩, Layout.window_eq_cell, Layout.cell_empty]
  rfl

/-- Moving the hardware cursor shows nothing else. -/
theorem shows_vgaMoveCursor_iff : Shows L (vgaMoveCursor s) ↔ Shows L s :=
  ⟨fun h => ⟨h.color, h.cursorX, h.cursorY, h.buffer⟩, fun h => ⟨h.color, h.cursorX, h.cursorY, h.buffer⟩⟩

/-- The cursor is on the screen. -/
theorem Shows.cursorY_lt (h : Shows L s) : s.cursorY < vgaHeight := by
  rw [h.cursorY]
  exact Layout.windowRow_lt (by decide) L

/-- The step to the next row: the window moves down exactly when the frame buffer is scrolled. -/
theorem Shows.newline (h : Shows L s) :
    Shows (L.newline space) (vgaScroll (s.setCursor 0 ((s.cursorY + 1) % 2 ^ 8))) := by
  have hheight : vgaHeight = 25 := rfl
  have hrow := h.cursorY_lt
  have hnext : (s.cursorY + 1) % 2 ^ 8 = s.cursorY + 1 := Nat.mod_eq_of_lt (by omega)
  rw [hnext]
  by_cases hlast : s.cursorY + 1 < vgaHeight
  · have hwindow : L.windowRow vgaHeight + 1 < vgaHeight := h.cursorY ▸ hlast
    rw [vgaScroll_of_lt (show (s.setCursor 0 (s.cursorY + 1)).cursorY < vgaHeight from hlast)]
    refine ⟨h.color, rfl, ?_, fun y hy x hx => ?_⟩
    · rw [(Layout.window_newline_of_lt (y := 0) (x := 0) hwindow).2, ← h.cursorY]
      rfl
    · rw [(Layout.window_newline_of_lt hwindow).1]
      exact h.buffer y hy x hx
  · have hwindow : L.windowRow vgaHeight + 1 = vgaHeight := by
      rw [← h.cursorY]
      omega
    obtain ⟨t, hstores, hres⟩ := vgaScroll_stores (s := s.setCursor 0 (s.cursorY + 1)) (not_lt.mp hlast)
    rw [hres]
    refine ⟨hstores.color.trans h.color, rfl, ?_, fun y hy x hx => ?_⟩
    · rw [(Layout.window_newline_of_eq (y := 0) (x := 0) hwindow (by decide)).2]
      change vgaHeight - 1 = _
      omega
    · rw [(Layout.window_newline_of_eq hwindow hy).1]
      change t.buffer (y * vgaWidth + x) = _
      rw [hstores.buffer, if_pos ⟨Nat.zero_le _, cell_lt hx hy⟩, scrolled]
      by_cases hbelow : y + 1 < vgaHeight
      · have hcell : y * vgaWidth + x < (vgaHeight - 1) * vgaWidth := by
          unfold vgaWidth vgaHeight at *
          omega
        rw [if_pos hcell, if_pos hbelow, ← h.buffer (y + 1) hbelow x hx, Nat.succ_mul, Nat.add_right_comm]
        rfl
      · have hcell : ¬ y * vgaWidth + x < (vgaHeight - 1) * vgaWidth := by
          unfold vgaWidth vgaHeight at *
          omega
        rw [if_neg hcell, if_neg hbelow]
        exact congrArg _ h.color

/-- A cell stored at the cursor is a cell written to the layout. -/
theorem Shows.advance (h : Shows L s) (hcol : L.col < vgaWidth) (c : UInt8) :
    Shows (L.advance c) ((s.setCell (s.cursorY * vgaWidth + s.cursorX) (vgaEntry c s.color)).setCursor
      ((s.cursorX + 1) % 2 ^ 8) s.cursorY) := by
  have hwidth : vgaWidth = 80 := rfl
  refine ⟨h.color, ?_, ?_, fun y hy x hx => ?_⟩
  · change (s.cursorX + 1) % 2 ^ 8 = L.col + 1
    rw [h.cursorX, Nat.mod_eq_of_lt (by omega)]
  · rw [Layout.windowRow, Layout.top_advance]
    exact h.cursorY
  · change Function.update s.buffer (s.cursorY * vgaWidth + s.cursorX) (vgaEntry c s.color) (y * vgaWidth + x) = _
    rw [Function.update_apply, Layout.window_advance (by decide), h.color, apply_ite (fun c => vgaEntry c 0x07),
      ← h.buffer y hy x hx]
    apply if_congr _ rfl rfl
    rw [cell_inj hx (h.cursorX ▸ hcol), h.cursorY, h.cursorX]

/-- One character of the text. -/
theorem Shows.vgaPutchar (h : Shows L s) (hcol : L.col < vgaWidth) {c : UInt8} (hc : IsText c) :
    Shows (layOut L c) (vgaPutchar s c) ∧ (layOut L c).col < vgaWidth := by
  have hpos : 0 < vgaWidth := by decide
  unfold Vga.vgaPutchar putBranch layOut
  rw [shows_vgaMoveCursor_iff]
  split_ifs with hnl hcr htab
  · exact ⟨h.newline, hpos⟩
  · rw [vgaScroll_of_lt (show (s.setCursor 0 s.cursorY).cursorY < vgaHeight from h.cursorY_lt)]
    exact ⟨⟨h.color, rfl, h.cursorY, h.buffer⟩, hpos⟩
  · -- a tab is not text
    rcases hc with hprint | heq | heq
    · exact absurd (htab ▸ hprint.1) (by decide)
    · exact absurd heq hnl
    · exact absurd heq hcr
  · have hadvance := h.advance hcol c
    set t := (s.setCell (s.cursorY * vgaWidth + s.cursorX) (vgaEntry c s.color)).setCursor
      ((s.cursorX + 1) % 2 ^ 8) s.cursorY
    change Shows (L.put space vgaWidth c)
        (vgaScroll (if t.cursorX ≥ vgaWidth then t.setCursor 0 ((t.cursorY + 1) % 2 ^ 8) else t)) ∧
      (L.put space vgaWidth c).col < vgaWidth
    have hnext : t.cursorX = L.col + 1 := hadvance.cursorX
    unfold Layout.put
    by_cases hlt : L.col + 1 < vgaWidth
    · rw [if_pos hlt, if_neg (not_le.mpr (hnext ▸ hlt)), vgaScroll_of_lt hadvance.cursorY_lt]
      exact ⟨hadvance, hlt⟩
    · rw [if_neg hlt, if_pos (hnext ▸ not_lt.mp hlt)]
      exact ⟨hadvance.newline, hpos⟩

/-- A string of text. -/
theorem Shows.vgaWrite (h : Shows L s) (hcol : L.col < vgaWidth) {str : List UInt8} (hstr : ∀ c ∈ str, IsText c) :
    Shows (str.foldl layOut L) (vgaWrite s str) := by
  induction str generalizing L s with
  | nil => exact h
  | cons c str ih =>
      obtain ⟨hc, hrest⟩ := List.forall_mem_cons.mp hstr
      have hzero : c ≠ 0 := by
        rintro rfl
        rcases hc with hprint | heq | heq
        · exact absurd hprint.1 (by decide)
        · exact absurd heq (by decide)
        · exact absurd heq (by decide)
      obtain ⟨hput, hcol'⟩ := h.vgaPutchar hcol hc
      rw [List.foldl_cons, Vga.vgaWrite, if_neg hzero]
      exact ih hput hcol' hrest

end shows

/-! ### Cells and attributes -/

/-- Every cell of the layout of a text is printable. -/
theorem printable_cell {str : List UInt8} (hstr : ∀ c ∈ str, IsText c) (n x : ℕ) :
    Printable ((layoutOf str).cell space n x) := by
  have hfold : ∀ (str : List UInt8) (L : Layout UInt8), (∀ c ∈ str, IsText c) →
      (∀ n x, Printable (L.cell space n x)) → ∀ n x, Printable ((str.foldl layOut L).cell space n x) := by
    intro str
    induction str with
    | nil => exact fun L _ hL => hL
    | cons c str ih =>
        intro L hstr hL
        obtain ⟨hc, hrest⟩ := List.forall_mem_cons.mp hstr
        apply ih (layOut L c) hrest
        intro n x
        unfold layOut
        split_ifs with hnl hcr
        · rw [Layout.cell_newline]
          exact hL n x
        · exact hL n x
        · refine Layout.forall_cell_put hL ?_ n x
          rcases hc with hprint | heq | heq
          · exact hprint
          · exact absurd heq hnl
          · exact absurd heq hcr
  apply hfold str _ hstr
  intro n x
  rw [Layout.cell_empty]
  exact ⟨by decide, by decide⟩

/-- The character and the attribute of a cell. -/
theorem vgaEntry_printable {c : UInt8} (hc : Printable c) :
    vgaEntry c 0x07 % 2 ^ 8 = c.toNat ∧ vgaEntry c 0x07 / 2 ^ 8 = 0x07 := by
  have hlt : c.toNat < 2 ^ 8 := c.toNat_lt
  have hascii : c < 128 := UInt8.lt_of_le_of_lt hc.2 (by decide)
  have hattribute : (0x07 <<< 8) % 2 ^ 16 = 2 ^ 8 * 0x07 := by decide
  have hentry : vgaEntry c 0x07 = 2 ^ 8 * 0x07 + c.toNat := by
    unfold vgaEntry charToU16
    rw [if_pos hascii, hattribute, Nat.or_comm, Nat.two_pow_add_eq_or_of_lt hlt]
  rw [hentry]
  omega

/-- After `vga_init` and `vga_write` of a text, the screen shows the last 25 rows of the text laid out in rows of 80
columns, every cell with attribute 0x07, and the cursor is at the position reached. -/
theorem console_shows_last_rows (s : Console) (str : List UInt8) (hstr : ∀ c ∈ str, IsText c) :
    (∀ y < vgaHeight, ∀ x < vgaWidth,
      (vgaWrite (vgaInit s) str).buffer (y * vgaWidth + x) % 2 ^ 8
          = ((layoutOf str).window space vgaHeight y x).toNat ∧
        (vgaWrite (vgaInit s) str).buffer (y * vgaWidth + x) / 2 ^ 8 = 0x07) ∧
      (vgaWrite (vgaInit s) str).cursorX = (layoutOf str).col ∧
      (vgaWrite (vgaInit s) str).cursorY = (layoutOf str).windowRow vgaHeight := by
  have hshows : Shows (layoutOf str) (vgaWrite (vgaInit s) str) :=
    (shows_vgaInit s).vgaWrite (show 0 < vgaWidth by decide) hstr
  refine ⟨fun y hy x hx => ?_, hshows.cursorX, hshows.cursorY⟩
  have hprint : Printable ((layoutOf str).window space vgaHeight y x) := by
    rw [Layout.window_eq_cell]
    exact printable_cell hstr _ _
  rw [hshows.buffer y hy x hx]
  exact vgaEntry_printable hprint

/-- The letter a, a carriage return, the letter b and a newline. -/
theorem console_shows_last_rows_sample :
    (∀ y < vgaHeight, ∀ x < vgaWidth,
      (vgaWrite (vgaInit (poweredUp fun _ => 0)) [0x61, 0x0D, 0x62, 0x0A]).buffer (y * vgaWidth + x) % 2 ^ 8
          = ((layoutOf [0x61, 0x0D, 0x62, 0x0A]).window space vgaHeight y x).toNat ∧
        (vgaWrite (vgaInit (poweredUp fun _ => 0)) [0x61, 0x0D, 0x62, 0x0A]).buffer (y * vgaWidth + x) / 2 ^ 8
          = 0x07) ∧
      (vgaWrite (vgaInit (poweredUp fun _ => 0)) [0x61, 0x0D, 0x62, 0x0A]).cursorX
        = (layoutOf [0x61, 0x0D, 0x62, 0x0A]).col ∧
      (vgaWrite (vgaInit (poweredUp fun _ => 0)) [0x61, 0x0D, 0x62, 0x0A]).cursorY
        = (layoutOf [0x61, 0x0D, 0x62, 0x0A]).windowRow vgaHeight :=
  console_shows_last_rows _ [0x61, 0x0D, 0x62, 0x0A] (by
    intro c hc
    fin_cases hc
    · exact Or.inl ⟨by decide, by decide⟩
    · exact Or.inr (Or.inr rfl)
    · exact Or.inl ⟨by decide, by decide⟩
    · exact Or.inr (Or.inl rfl))

end PrometheusKernel.Vga
