import Mathlib.Tactic

/-!
# The keyboard: model of `kernel/drivers/keyboard.c`

A `char` is a byte; the characters of the tables are below 128. The interrupt handler gets the scan code that
`inb(0x60)` returns as an argument. The functions below are those of the driver as a whole; the accesses of the
reader one by one are in `Queue`.
-/

namespace PrometheusKernel.Keyboard

/-- The static data of `keyboard.c`. -/
structure Driver where
  /-- `g_kbd_buf`. -/
  buf : ℕ → UInt8
  /-- `g_kbd_head`. -/
  head : ℕ
  /-- `g_kbd_tail`. -/
  tail : ℕ
  /-- `g_shift`. -/
  shift : ℕ
  /-- `g_caps`. -/
  caps : ℕ

/-- The static data at the start. -/
def initial : Driver := ⟨fun _ => 0, 0, 0, 0, 0⟩

/-- The characters of a literal, as bytes. -/
def bytes (s : String) : List UInt8 := s.toList.map fun c => c.val.toUInt8

/-- `map_norm`; the elements behind the last one given are 0. -/
def mapNorm (sc : ℕ) : UInt8 :=
  ([0, 27] ++ bytes "1234567890-=" ++ [8] ++ bytes "\tqwertyuiop[]\n" ++ [0] ++ bytes "asdfghjkl;'\x60" ++ [0]
    ++ bytes "\\zxcvbnm,./" ++ [0] ++ bytes "*" ++ [0] ++ bytes " ").getD sc 0

/-- `map_shift`; the elements behind the last one given are 0. -/
def mapShift (sc : ℕ) : UInt8 :=
  ([0, 27] ++ bytes "!@#$%^&*()_+" ++ [8] ++ bytes "\tQWERTYUIOP\x7b\x7d\n" ++ [0] ++ bytes "ASDFGHJKL:\"~" ++ [0]
    ++ bytes "|ZXCVBNM<>?" ++ [0] ++ bytes "*" ++ [0] ++ bytes " ").getD sc 0

/-- `next != g_kbd_tail` fails in `kbd_push`. -/
def full (k : Driver) : Prop := (k.head + 1) &&& 255 = k.tail

instance (k : Driver) : Decidable (full k) := inferInstanceAs (Decidable (_ = _))

/-- `kbd_push`. -/
def kbdPush (k : Driver) (c : UInt8) : Driver :=
  let next := (k.head + 1) &&& 255
  if next ≠ k.tail then { k with buf := Function.update k.buf k.head c, head := next } else k

/-- The character of `keyboard_irq_handler` for a make code. -/
def character (k : Driver) (sc : UInt8) : UInt8 :=
  let c := if k.shift ≠ 0 then mapShift sc.toNat else mapNorm sc.toNat
  if c ≥ 97 ∧ c ≤ 122 then
    if k.caps ^^^ k.shift ≠ 0 then c - 32 else c
  else c

/-- `keyboard_irq_handler`. -/
def keyboardIrqHandler (k : Driver) (sc : UInt8) : Driver :=
  if sc = 0x2A ∨ sc = 0x36 then { k with shift := 1 }
  else if sc = 0xAA ∨ sc = 0xB6 then { k with shift := 0 }
  else if sc = 0x3A then { k with caps := k.caps ^^^ 1 }
  else if sc &&& 0x80 ≠ 0 then k
  else
    let c := character k sc
    if c ≠ 0 then kbdPush k c else k

/-- `keyboard_get_char`. -/
def keyboardGetChar (k : Driver) : UInt8 × Driver :=
  if k.head = k.tail then (0, k)
  else
    let c := k.buf k.tail
    (c, { k with tail := (k.tail + 1) &&& 255 })

/-- `keyboard_has_input`. -/
def keyboardHasInput (k : Driver) : Bool := k.head ≠ k.tail

end PrometheusKernel.Keyboard
