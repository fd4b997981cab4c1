import PrometheusKernel.Vga.Model

/-!
# The cursor stays on the screen, up to tabs

* The loops of `vga_clear` and `vga_scroll` store consecutive cells (`Stores`), which gives one lemma about each of
  the two functions (`vgaClear_stores`, `vgaScroll_stores`).
* A character leaves the cursor on the screen unless it is a tab in one of the last 8 columns, which moves the
  cursor to column 80 (`onScreen_vgaPutchar_iff`); `vga_scroll` looks at the row only. So the console stays on the
  screen as long as no such tab is written (`stays_on_screen_iff`). In the last row the next character is stored
  behind the end of the screen (`cell_behind_screen`).
-/

namespace PrometheusKernel.Vga

/-! ### Stores of consecutive cells -/

/-- From `s` to `s'` the cells `lo, …, hi - 1` have been stored, with the values `v`, and nothing else. -/
structure Stores (lo hi : ℕ) (v : ℕ → ℕ) (s s' : Console) : Prop where
  buffer : ∀ i, s'.buffer i = if lo ≤ i ∧ i < hi then v i else s.buffer i
  written : ∀ i ∈ s'.written, i ∈ s.written ∨ lo ≤ i ∧ i < hi
  color : s'.color = s.color
  cursorX : s'.cursorX = s.cursorX
  cursorY : s'.cursorY = s.cursorY

section stores

variable {lo hi : ℕ} {v : ℕ → ℕ} {s s' : Console}

/-- Nothing is stored. -/
theorem Stores.refl (lo : ℕ) (v : ℕ → ℕ) (s : Console) : Stores lo lo v s s where
  buffer _ := (if_neg fun h => absurd (h.1.trans_lt h.2) (lt_irrefl lo)).symm
  written _ hi := Or.inl hi
  color := rfl
  cursorX := rfl
  cursorY := rfl

/-- The next cell. -/
theorem Stores.setCell (h : Stores lo hi v s s') (hle : lo ≤ hi) : Stores lo (hi + 1) v s (s'.setCell hi (v hi)) where
  buffer i := by
    unfold Console.setCell
    dsimp only
    by_cases heq : i = hi
    · subst heq
      rw [Function.update_self, if_pos ⟨hle, Nat.lt_succ_self i⟩]
    · rw [Function.update_of_ne heq, h.buffer i]
      apply if_congr _ rfl rfl
      omega
  written i hi := by
    rcases List.mem_cons.mp hi with rfl | hi
    · exact Or.inr ⟨hle, Nat.lt_succ_self _⟩
    · exact (h.written i hi).imp_right fun hin => ⟨hin.1, hin.2.trans (Nat.lt_succ_self _)⟩
  color := h.color
  cursorX := h.cursorX
  cursorY := h.cursorY

/-- A loop whose turns store the cells from `hi` on. -/
theorem Stores.upTo {n : ℕ} {b : ℕ → Console → Console} (h : Stores lo hi v s s') (hle : lo ≤ hi)
    (hbody : ∀ x < n, ∀ t, Stores lo (hi + x) v s t → b x t = t.setCell (hi + x) (v (hi + x))) :
    Stores lo (hi + n) v s (Loop.upTo n b s') := by
  apply Loop.upTo_induct (P := fun x t => Stores lo (hi + x) v s t) h
  intro x hx t ht
  rw [hbody x hx t ht]
  exact ht.setCell (by omega)

end stores

/-! ### `vga_clear` and `vga_scroll` -/

section screen

variable (s : Console)

/-- `vga_clear` stores a blank in every cell and moves the cursor to the first one. -/
theorem vgaClear_stores : ∃ t, Stores 0 (vgaHeight * vgaWidth) (fun _ => vgaEntry 0x20 s.color) s t ∧
    vgaClear s = vgaMoveCursor (t.setCursor 0 0) := by
  refine ⟨_, ?_, rfl⟩
  apply Loop.upTo_induct (P := fun y t => Stores 0 (y * vgaWidth) (fun _ => vgaEntry 0x20 s.color) s t)
  · exact Stores.refl 0 _ s
  · intro y _ t ht
    rw [Nat.succ_mul]
    apply ht.upTo (Nat.zero_le _)
    intro x _ u hu
    rw [hu.color]

/-- Above the bottom there is nothing to scroll. -/
theorem vgaScroll_of_lt {s : Console} (h : s.cursorY < vgaHeight) : vgaScroll s = s := if_pos h

/-- The cells after a scroll: every row but the last is the one below it. -/
def scrolled (s : Console) (i : ℕ) : ℕ :=
  if i < (vgaHeight - 1) * vgaWidth then s.buffer (i + vgaWidth) else vgaEntry 0x20 s.color

/-- Below the last row, `vga_scroll` stores every cell and moves the cursor to the last row. -/
theorem vgaScroll_stores {s : Console} (h : vgaHeight ≤ s.cursorY) :
    ∃ t, Stores 0 (vgaHeight * vgaWidth) (scrolled s) s t ∧ vgaScroll s = t.setCursor s.cursorX (vgaHeight - 1) := by
  unfold vgaScroll
  rw [if_neg (not_lt.mpr h)]
  dsimp only
  -- the rows but the last, from top to bottom
  have hrows : Stores 0 ((vgaHeight - 1) * vgaWidth) (scrolled s) s
      (Loop.upTo (vgaHeight - 1) (fun y s => Loop.upTo vgaWidth (fun x s =>
        s.setCell (y * vgaWidth + x) (s.buffer ((y + 1) * vgaWidth + x))) s) s) := by
    apply Loop.upTo_induct (P := fun y t => Stores 0 (y * vgaWidth) (scrolled s) s t)
    · exact Stores.refl 0 _ s
    · intro y hy t ht
      rw [Nat.succ_mul]
      apply ht.upTo (Nat.zero_le _)
      intro x hx u hu
      have hbelow : u.buffer (y * vgaWidth + vgaWidth + x) = s.buffer (y * vgaWidth + vgaWidth + x) := by
        rw [hu.buffer, if_neg]
        omega
      have hcell : y * vgaWidth + x < (vgaHeight - 1) * vgaWidth := by
        have hle : (y + 1) * vgaWidth ≤ (vgaHeight - 1) * vgaWidth := Nat.mul_le_mul_right vgaWidth hy
        rw [Nat.succ_mul] at hle
        omega
      rw [hbelow, scrolled, if_pos hcell, Nat.add_right_comm]
  -- the last row
  have hlast := hrows.upTo (n := vgaWidth)
    (b := fun x s => s.setCell ((vgaHeight - 1) * vgaWidth + x) (vgaEntry 0x20 s.color)) (Nat.zero_le _)
    fun x _ t ht => by
      rw [ht.color, scrolled, if_neg (not_lt.mpr (Nat.le_add_right _ _))]
  refine ⟨_, hlast, ?_⟩
  rw [hlast.cursorX]

end screen

/-! ### One character -/

/-- The cursor is on the screen, and so are all cells written so far. -/
structure OnScreen (s : Console) : Prop where
  cursorX : s.cursorX < vgaWidth
  cursorY : s.cursorY < vgaHeight
  written : ∀ i ∈ s.written, i < vgaWidth * vgaHeight

section character

variable {s t : Console}

/-- The column stays. -/
@[simp] theorem cursorX_vgaMoveCursor (s : Console) : (vgaMoveCursor s).cursorX = s.cursorX := rfl

/-- The row stays. -/
@[simp] theorem cursorY_vgaMoveCursor (s : Console) : (vgaMoveCursor s).cursorY = s.cursorY := rfl

/-- Nothing is stored. -/
@[simp] theorem written_vgaMoveCursor (s : Console) : (vgaMoveCursor s).written = s.written := rfl

/-- The colour stays. -/
@[simp] theorem color_vgaMoveCursor (s : Console) : (vgaMoveCursor s).color = s.color := rfl

/-- The cells stay. -/
@[simp] theorem buffer_vgaMoveCursor (s : Console) : (vgaMoveCursor s).buffer = s.buffer := rfl

/-- Moving the hardware cursor does not move the software cursor. -/
theorem onScreen_vgaMoveCursor_iff : OnScreen (vgaMoveCursor s) ↔ OnScreen s :=
  ⟨fun h => ⟨h.cursorX, h.cursorY, h.written⟩, fun h => ⟨h.cursorX, h.cursorY, h.written⟩⟩

/-- After stores on the screen, only the position counts. -/
theorem Stores.onScreen {v : ℕ → ℕ} (h : Stores 0 (vgaHeight * vgaWidth) v s t)
    (hs : ∀ i ∈ s.written, i < vgaWidth * vgaHeight) {x y : ℕ} (hx : x < vgaWidth) (hy : y < vgaHeight) :
    OnScreen (t.setCursor x y) := by
  refine ⟨hx, hy, fun i hi => ?_⟩
  rcases h.written i hi with hold | ⟨-, hnew⟩
  · exact hs i hold
  · rwa [mul_comm] at hnew

/-- `vga_scroll` takes care of the row, and only of the row. -/
theorem onScreen_vgaScroll_iff (hy : s.cursorY ≤ vgaHeight) (hs : ∀ i ∈ s.written, i < vgaWidth * vgaHeight) :
    OnScreen (vgaScroll s) ↔ s.cursorX < vgaWidth := by
  rcases Nat.lt_or_eq_of_le hy with hlt | heq
  · rw [vgaScroll_of_lt hlt]
    exact ⟨OnScreen.cursorX, fun hx => ⟨hx, hlt, hs⟩⟩
  · obtain ⟨t, hstores, hres⟩ := vgaScroll_stores heq.ge
    rw [hres]
    exact ⟨fun h => h.cursorX, fun hx => hstores.onScreen hs hx (by decide)⟩

/-- A tab goes to the next multiple of 8. -/
theorem tabStop_eq {x : ℕ} (hx : x < vgaWidth) : ((x + 8) &&& (2 ^ 32 - 2 ^ 3)) % 2 ^ 8 = (x + 8) / 8 * 8 := by
  unfold vgaWidth at hx
  rw [Word.and_high_mask (by norm_num)]
  omega

/-- The position after the branches of `vga_putchar`, and the cell that has been written. -/
theorem OnScreen.putBranch (h : OnScreen s) (c : UInt8) :
    (putBranch s c).cursorY ≤ vgaHeight ∧ (∀ i ∈ (putBranch s c).written, i < vgaWidth * vgaHeight) ∧
      ((putBranch s c).cursorX < vgaWidth ↔ (c = 0x09 → s.cursorX < vgaWidth - 8)) := by
  have hx := h.cursorX
  have hy := h.cursorY
  have hwidth : vgaWidth = 80 := rfl
  have hheight : vgaHeight = 25 := rfl
  unfold Vga.putBranch
  split_ifs with hnl hcr htab
  · refine ⟨?_, h.written, ?_⟩
    · change (s.cursorY + 1) % 2 ^ 8 ≤ vgaHeight
      omega
    · exact iff_of_true (show 0 < vgaWidth by omega) fun heq => absurd (hnl ▸ heq) (by decide)
  · refine ⟨hy.le, h.written, ?_⟩
    exact iff_of_true (show 0 < vgaWidth by omega) fun heq => absurd (hcr ▸ heq) (by decide)
  · refine ⟨hy.le, h.written, ?_⟩
    change ((s.cursorX + 8) &&& (2 ^ 32 - 2 ^ 3)) % 2 ^ 8 < vgaWidth ↔ _
    rw [tabStop_eq hx]
    constructor
    · intro hlt _
      omega
    · intro hfits
      have := hfits htab
      omega
  · -- the cell under the cursor is on the screen
    have hcell : s.cursorY * vgaWidth + s.cursorX < vgaWidth * vgaHeight := by
      rw [hwidth] at hx ⊢
      rw [hheight] at hy ⊢
      omega
    have hwritten : ∀ i ∈ (s.cursorY * vgaWidth + s.cursorX) :: s.written, i < vgaWidth * vgaHeight := by
      intro i hi
      rcases List.mem_cons.mp hi with rfl | hi
      · exact hcell
      · exact h.written i hi
    have hnext : (s.cursorX + 1) % 2 ^ 8 = s.cursorX + 1 := Nat.mod_eq_of_lt (by omega)
    dsimp only [Console.setCell, Console.setCursor]
    rw [hnext]
    by_cases hwrap : s.cursorX + 1 ≥ vgaWidth
    · rw [if_pos hwrap]
      refine ⟨?_, hwritten, iff_of_true (show 0 < vgaWidth by omega) fun heq => absurd heq htab⟩
      change (s.cursorY + 1) % 2 ^ 8 ≤ vgaHeight
      omega
    · rw [if_neg hwrap]
      exact ⟨hy.le, hwritten, iff_of_true (not_le.mp hwrap) fun heq => absurd heq htab⟩

/-- A character leaves the cursor on the screen unless it is a tab in one of the last 8 columns. -/
theorem onScreen_vgaPutchar_iff (h : OnScreen s) (c : UInt8) :
    OnScreen (vgaPutchar s c) ↔ (c = 0x09 → s.cursorX < vgaWidth - 8) := by
  obtain ⟨hy, hwritten, hx⟩ := h.putBranch c
  unfold vgaPutchar
  rw [onScreen_vgaMoveCursor_iff, onScreen_vgaScroll_iff hy hwritten, hx]

/-- `vga_clear` stays on the screen. -/
theorem OnScreen.vgaClear (h : OnScreen s) : OnScreen (vgaClear s) := by
  obtain ⟨t, hstores, hres⟩ := vgaClear_stores s
  rw [hres, onScreen_vgaMoveCursor_iff]
  exact hstores.onScreen h.written (by decide) (by decide)

/-- `vga_set_cursor` stays on the screen. -/
theorem OnScreen.vgaSetCursor (h : OnScreen s) (x y : UInt8) : OnScreen (vgaSetCursor s x y) := by
  unfold Vga.vgaSetCursor
  dsimp only
  rw [onScreen_vgaMoveCursor_iff]
  refine ⟨?_, ?_, h.written⟩
  · unfold Console.setCursor vgaWidth
    dsimp only
    split_ifs <;> omega
  · unfold Console.setCursor vgaHeight
    dsimp only
    split_ifs <;> omega

end character

/-! ### Runs -/

/-- A call of the console. -/
inductive Call
  /-- `vga_init()`. -/
  | init
  /-- `vga_clear()`. -/
  | clear
  /-- `vga_set_color(foreground, background)`. -/
  | setColor (foreground background : UInt8)
  /-- `vga_set_cursor(x, y)`. -/
  | setCursor (x y : UInt8)
  /-- `vga_putchar(c)`. -/
  | putchar (c : UInt8)
  /-- `vga_write(str)`. -/
  | write (str : List UInt8)

/-- The state after a call. -/
def call (s : Console) : Call → Console
  | .init => vgaInit s
  | .clear => vgaClear s
  | .setColor foreground background => vgaSetColor s foreground background
  | .setCursor x y => vgaSetCursor s x y
  | .putchar c => vgaPutchar s c
  | .write str => vgaWrite s str

/-- The states after each character that `vga_write` writes. -/
def visitedByWrite : Console → List UInt8 → List Console
  | _, [] => []
  | s, c :: str => if c = 0 then [] else vgaPutchar s c :: visitedByWrite (vgaPutchar s c) str

/-- The states after each character and after each call. -/
def visited : Console → List Call → List Console
  | _, [] => []
  | s, .write str :: calls => visitedByWrite s str ++ visited (vgaWrite s str) calls
  | s, c :: calls => call s c :: visited (call s c) calls

/-- No tab of the string is written in one of the last 8 columns. -/
def TabsFit : Console → List UInt8 → Prop
  | _, [] => True
  | s, c :: str => c = 0 ∨ (c = 0x09 → s.cursorX < vgaWidth - 8) ∧ TabsFit (vgaPutchar s c) str

/-- No tab of the run is written in one of the last 8 columns. -/
def NoLateTab : Console → List Call → Prop
  | _, [] => True
  | s, .write str :: calls => TabsFit s str ∧ NoLateTab (vgaWrite s str) calls
  | s, .putchar c :: calls => (c = 0x09 → s.cursorX < vgaWidth - 8) ∧ NoLateTab (vgaPutchar s c) calls
  | s, c :: calls => NoLateTab (call s c) calls

section runs

variable {s : Console}

/-- `vga_init` stays on the screen. -/
theorem OnScreen.vgaInit (h : OnScreen s) : OnScreen (vgaInit s) :=
  OnScreen.vgaClear ⟨show 0 < vgaWidth by decide, show 0 < vgaHeight by decide, h.written⟩

/-- A string is written on the screen exactly when its tabs fit, and then the state after it is on the screen. -/
theorem OnScreen.vgaWrite (h : OnScreen s) (str : List UInt8) :
    ((∀ t ∈ visitedByWrite s str, OnScreen t) ↔ TabsFit s str) ∧
      (TabsFit s str → OnScreen (Vga.vgaWrite s str)) := by
  induction str generalizing s with
  | nil => exact ⟨iff_of_true (fun t ht => absurd ht List.not_mem_nil) trivial, fun _ => h⟩
  | cons c str ih =>
      unfold visitedByWrite TabsFit Vga.vgaWrite
      by_cases hc : c = 0
      · rw [if_pos hc, if_pos hc]
        exact ⟨iff_of_true (fun t ht => absurd ht List.not_mem_nil) (Or.inl hc), fun _ => h⟩
      rw [if_neg hc, if_neg hc, List.forall_mem_cons, onScreen_vgaPutchar_iff h c]
      constructor
      · constructor
        · rintro ⟨htab, hrest⟩
          exact Or.inr ⟨htab, (ih ((onScreen_vgaPutchar_iff h c).mpr htab)).1.mp hrest⟩
        · rintro (hzero | ⟨htab, hfit⟩)
          · exact absurd hzero hc
          · exact ⟨htab, (ih ((onScreen_vgaPutchar_iff h c).mpr htab)).1.mpr hfit⟩
      · rintro (hzero | ⟨htab, hfit⟩)
        · exact absurd hzero hc
        · exact (ih ((onScreen_vgaPutchar_iff h c).mpr htab)).2 hfit

/-- A call that leaves the screen intact, whatever it is called with, takes no part in the condition. -/
theorem forall_visited_cons_iff {c : Call} {calls : List Call} (hcall : OnScreen (call s c))
    (hrest : (∀ t ∈ visited (call s c) calls, OnScreen t) ↔ NoLateTab (call s c) calls) :
    (∀ t ∈ call s c :: visited (call s c) calls, OnScreen t) ↔ NoLateTab (call s c) calls := by
  rw [List.forall_mem_cons, hrest]
  exact and_iff_right hcall

/-- The cursor stays on the screen exactly if no tab comes late. -/
theorem OnScreen.visited_iff (h : OnScreen s) (calls : List Call) :
    (∀ t ∈ visited s calls, OnScreen t) ↔ NoLateTab s calls := by
  induction calls generalizing s with
  | nil => exact iff_of_true (fun t ht => absurd ht List.not_mem_nil) trivial
  | cons c calls ih =>
      cases c with
      | init => exact forall_visited_cons_iff h.vgaInit (ih h.vgaInit)
      | clear => exact forall_visited_cons_iff h.vgaClear (ih h.vgaClear)
      | setColor foreground background =>
          have hcolor : OnScreen (vgaSetColor s foreground background) := ⟨h.cursorX, h.cursorY, h.written⟩
          exact forall_visited_cons_iff hcolor (ih hcolor)
      | setCursor x y => exact forall_visited_cons_iff (h.vgaSetCursor x y) (ih (h.vgaSetCursor x y))
      | putchar c =>
          change (∀ t ∈ vgaPutchar s c :: visited (vgaPutchar s c) calls, OnScreen t) ↔
            (c = 0x09 → s.cursorX < vgaWidth - 8) ∧ NoLateTab (vgaPutchar s c) calls
          rw [List.forall_mem_cons, ← onScreen_vgaPutchar_iff h c]
          exact and_congr_right fun hput => ih hput
      | write str =>
          change (∀ t ∈ visitedByWrite s str ++ visited (Vga.vgaWrite s str) calls, OnScreen t) ↔
            TabsFit s str ∧ NoLateTab (Vga.vgaWrite s str) calls
          rw [List.forall_mem_append, (h.vgaWrite str).1]
          exact and_congr_right fun hfit => ih ((h.vgaWrite str).2 hfit)

end runs

/-- The cursor is on the screen at the start. -/
theorem onScreen_poweredUp (buffer : ℕ → ℕ) : OnScreen (poweredUp buffer) :=
  ⟨show 0 < vgaWidth by decide, show 0 < vgaHeight by decide, fun i hi => absurd hi List.not_mem_nil⟩

/-- In a run of the console the cursor and all cells written are on the screen after each character exactly when no
tab is written in one of the last 8 columns. -/
theorem stays_on_screen_iff (buffer : ℕ → ℕ) (calls : List Call) :
    (∀ s ∈ visited (poweredUp buffer) calls, OnScreen s) ↔ NoLateTab (poweredUp buffer) calls :=
  (onScreen_poweredUp buffer).visited_iff calls

/-- A tab in column 72 of the last row, and then the letter a: the cell behind the last one is written. -/
theorem cell_behind_screen : ¬ ∀ (buffer : ℕ → ℕ) (calls : List Call),
    ∀ s ∈ visited (poweredUp buffer) calls, OnScreen s := by
  intro h
  have hvisited : ∃ s ∈ visited (poweredUp fun _ => 0) [.setCursor 72 24, .write [0x09, 0x61]], 2000 ∈ s.written := by
    refine ⟨vgaPutchar (vgaPutchar (vgaSetCursor (poweredUp fun _ => 0) 72 24) 0x09) 0x61, ?_, by decide +kernel⟩
    exact List.mem_cons_of_mem _ (List.mem_append_left _ (List.mem_cons_of_mem _ List.mem_cons_self))
  obtain ⟨s, hs, hcell⟩ := hvisited
  exact absurd ((h _ _ s hs).written 2000 hcell) (by decide)

end PrometheusKernel.Vga
