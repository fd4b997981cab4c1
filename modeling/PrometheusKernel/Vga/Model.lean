import PrometheusKernel.Lib.Loop
import PrometheusKernel.Lib.Word

/-!
# The console: model of `kernel/drivers/vga.c`

The frame buffer is an array of cells at `VGA_MEMORY`, by index; a cell is a character code in the low byte and an
attribute in the high byte. A cell can be written behind the end of the screen, so the index is any number, and the
indices written so far are recorded. The output to the ports of the cursor is recorded as well, the last one first.

A `char` is signed: a byte from 128 on has its high byte set when it is widened to a cell.
-/

namespace PrometheusKernel.Vga

/-- `VGA_WIDTH`. -/
def vgaWidth : ℕ := 80

/-- `VGA_HEIGHT`. -/
def vgaHeight : ℕ := 25

/-- `CURSOR_CMD`. -/
def cursorCmd : ℕ := 0x3D4

/-- `CURSOR_DATA`. -/
def cursorData : ℕ := 0x3D5

/-- The static data of `vga.c`, the frame buffer and what has been written. -/
structure Console where
  /-- `g_vga_buffer`. -/
  buffer : ℕ → ℕ
  /-- `g_vga_color`. -/
  color : ℕ
  /-- `g_cursor_x`. -/
  cursorX : ℕ
  /-- `g_cursor_y`. -/
  cursorY : ℕ
  /-- The indices of the cells written so far. -/
  written : List ℕ
  /-- The ports written so far, with the values. -/
  ports : List (ℕ × ℕ)

/-- The static data at the start, over any frame buffer. -/
def poweredUp (buffer : ℕ → ℕ) : Console := ⟨buffer, 0x07, 0, 0, [], []⟩

/-- `g_vga_buffer[i] = v`. -/
def Console.setCell (s : Console) (i v : ℕ) : Console :=
  { s with buffer := Function.update s.buffer i v, written := i :: s.written }

/-- `g_cursor_x = x; g_cursor_y = y`. -/
def Console.setCursor (s : Console) (x y : ℕ) : Console := { s with cursorX := x, cursorY := y }

/-- `outb(port, value)`. -/
def Console.outb (s : Console) (port value : ℕ) : Console := { s with ports := (port, value) :: s.ports }

/-- `(uint16_t)c`. -/
def charToU16 (c : UInt8) : ℕ := if c < 128 then c.toNat else 0xFF00 + c.toNat

/-- `vga_entry`. -/
def vgaEntry (c : UInt8) (color : ℕ) : ℕ := charToU16 c ||| (color <<< 8) % 2 ^ 16

/-- `vga_move_cursor`. -/
def vgaMoveCursor (s : Console) : Console :=
  let pos := (s.cursorY * vgaWidth + s.cursorX) % 2 ^ 16
  let s := s.outb cursorCmd 0x0F
  let s := s.outb cursorData (pos &&& 0xFF)
  let s := s.outb cursorCmd 0x0E
  s.outb cursorData ((pos >>> 8) &&& 0xFF)

/-- `vga_clear`. -/
def vgaClear (s : Console) : Console :=
  let s := Loop.upTo vgaHeight (fun y s =>
    Loop.upTo vgaWidth (fun x s => s.setCell (y * vgaWidth + x) (vgaEntry 0x20 s.color)) s) s
  vgaMoveCursor (s.setCursor 0 0)

/-- `vga_init`. -/
def vgaInit (s : Console) : Console := vgaClear { s.setCursor 0 0 with color := 0x07 }

/-- `vga_set_color`. -/
def vgaSetColor (s : Console) (foreground background : UInt8) : Console :=
  { s with color := ((background.toNat <<< 4) ||| (foreground.toNat &&& 0x0F)) % 2 ^ 8 }

/-- `vga_scroll`. The first loop starts at row 1, its turn `y` is about row `y + 1`. -/
def vgaScroll (s : Console) : Console :=
  if s.cursorY < vgaHeight then s
  else
    let s := Loop.upTo (vgaHeight - 1) (fun y s =>
      Loop.upTo vgaWidth (fun x s =>
        s.setCell (y * vgaWidth + x) (s.buffer ((y + 1) * vgaWidth + x))) s) s
    let s := Loop.upTo vgaWidth (fun x s =>
      s.setCell ((vgaHeight - 1) * vgaWidth + x) (vgaEntry 0x20 s.color)) s
    s.setCursor s.cursorX (vgaHeight - 1)

/-- The branches of `vga_putchar`. -/
def putBranch (s : Console) (c : UInt8) : Console :=
  if c = 0x0A then s.setCursor 0 ((s.cursorY + 1) % 2 ^ 8)
  else if c = 0x0D then s.setCursor 0 s.cursorY
  else if c = 0x09 then s.setCursor (((s.cursorX + 8) &&& (2 ^ 32 - 2 ^ 3)) % 2 ^ 8) s.cursorY
  else
    let s := s.setCell (s.cursorY * vgaWidth + s.cursorX) (vgaEntry c s.color)
    let s := s.setCursor ((s.cursorX + 1) % 2 ^ 8) s.cursorY
    if s.cursorX ≥ vgaWidth then s.setCursor 0 ((s.cursorY + 1) % 2 ^ 8) else s

/-- `vga_putchar`. -/
def vgaPutchar (s : Console) (c : UInt8) : Console := vgaMoveCursor (vgaScroll (putBranch s c))

/-- `vga_write` of the bytes at `str`, which end with the first 0 or with the list. -/
def vgaWrite : Console → List UInt8 → Console
  | s, [] => s
  | s, c :: str => if c = 0 then s else vgaWrite (vgaPutchar s c) str

/-- `vga_set_cursor`. -/
def vgaSetCursor (s : Console) (x y : UInt8) : Console :=
  let x := if x.toNat ≥ vgaWidth then vgaWidth - 1 else x.toNat
  let y := if y.toNat ≥ vgaHeight then vgaHeight - 1 else y.toNat
  vgaMoveCursor (s.setCursor x y)

end PrometheusKernel.Vga
