import PrometheusKernel.Lib.ByteMem
import PrometheusKernel.Lib.Numeral

/-!
# Formatted output: model of `kvsnprintf` in `kernel/lib/stdio.c`

A `char` is a `Char` below 256, the format is the list of its characters without the terminator, and strings
that are passed as arguments lie in memory. `ap` lists what is left of the arguments, each as the 64-bit slot in
which it is passed: `va_arg` of a 32-bit type reads the low half of a slot and of a 64-bit type all of it.

`none` is a read behind the terminator of the format, behind the last argument, or of a string without an end.
The result of `kvsnprintf` is `Out.result`.
-/

namespace PrometheusKernel.Stdio

open ByteMem

/-! ### Numbers -/

/-- `(char)v`. -/
def toChar (v : ℕ) : Char := Char.ofNat (v % 256)

/-- The string of digits in `itoa_hex`. -/
def hexDigits (upper : Bool) : List Char := if upper then "0123456789ABCDEF".toList else "0123456789abcdef".toList

/-- The first loop of `itoa_hex`: `tmp`, which has 32 elements. -/
def hexTmp (d : List Char) : ℕ → ℕ → List Char
  | 0, _ => []
  | fuel + 1, v => if v = 0 then [] else d.getD (v &&& 0xF) '0' :: hexTmp d fuel (v >>> 4)

/-- `itoa_hex`: the characters in `buf`. -/
def itoaHex (v : ℕ) (upper : Bool) : List Char :=
  if v = 0 then ['0'] else (hexTmp (hexDigits upper) 32 v).reverse

/-- The first loop of `itoa_dec`. -/
def decTmp : ℕ → ℕ → List Char
  | 0, _ => []
  | fuel + 1, x => if x = 0 then [] else Char.ofNat ('0'.toNat + x % 10) :: decTmp fuel (x / 10)

/-- `itoa_dec`: the characters in `buf`. -/
def itoaDec (v : ℤ) (uns : Bool) : List Char :=
  let neg : Bool := !uns && v < 0
  let x := if neg then (-v).toNat else (v % 2 ^ 64).toNat
  if x = 0 then ['0'] else (if neg then ['-'] else []) ++ (decTmp 32 x).reverse

/-! ### Arguments -/

/-- `va_arg(ap, int)` on a slot. -/
def vaInt (a : ℕ) : ℤ := (a : ℤ).bmod (2 ^ 32)

/-- `va_arg(ap, unsigned int)` on a slot. -/
def vaUnsigned (a : ℕ) : ℕ := a % 2 ^ 32

/-- The characters of the string at `p`. -/
def readString (m : Mem) : ℕ → ℕ → Option (List Char)
  | 0, _ => none
  | fuel + 1, p => if m p = 0 then some [] else (readString m fuel (p + 1)).map (toChar (m p).toNat :: ·)

/-- No string is longer than memory. -/
def stringBound : ℕ := 2 ^ 64

/-- The characters that take an argument. -/
def takesArgument (c : Char) : Bool := c ∈ ['s', 'c', 'd', 'u', 'x', 'X', 'p']

/-- What the branch for the character `c` writes for the argument in the slot `a`. -/
def convert (m : Mem) (c : Char) (a : ℕ) : Option (List Char) :=
  if c = 's' then
    if a = 0 then some "(null)".toList else readString m stringBound a
  else if c = 'c' then some [toChar a]
  else if c = 'd' then some (itoaDec (vaInt a) false)
  else if c = 'u' then some (itoaDec (vaUnsigned a) true)
  else if c = 'x' ∨ c = 'X' then some (itoaHex a (c = 'X'))
  else some ('0' :: 'x' :: itoaHex a false)

/-! ### Output -/

/-- The buffer `out`, by index, and `pos`. -/
structure Out where
  /-- The bytes of the buffer. -/
  buf : ℕ → Char
  /-- `pos`. -/
  pos : ℕ

section format

variable (m : Mem) (out : Bool) (outSz : ℕ)

/-- `if (out && pos + 1 < out_sz) out[pos] = c; pos++;` -/
def Out.put (o : Out) (c : Char) : Out :=
  ⟨if out ∧ o.pos + 1 < outSz then Function.update o.buf o.pos c else o.buf, o.pos + 1⟩

/-- The characters `cs`, one by one. -/
def Out.puts (o : Out) (cs : List Char) : Out := cs.foldl (Out.put out outSz) o

/-- The loop over the format. -/
def formatLoop : List Char → List ℕ → Out → Option (Out × List ℕ)
  | [], ap, o => some (o, ap)
  | [c], ap, o => if c ≠ '%' then some (o.put out outSz c, ap) else none
  | c :: d :: fmt, ap, o =>
      if c ≠ '%' then formatLoop (d :: fmt) ap (o.put out outSz c)
      else if d = '%' then formatLoop fmt ap (o.put out outSz '%')
      else if takesArgument d then
        match ap with
        | [] => none
        | a :: ap => (convert m d a).bind fun cs => formatLoop fmt ap (o.puts out outSz cs)
      else formatLoop fmt ap o

/-- The terminator. -/
def Out.close (o : Out) : Out :=
  if out ∧ outSz ≠ 0 then
    { o with buf := Function.update o.buf (if o.pos < outSz - 1 then o.pos else outSz - 1) (Char.ofNat 0) }
  else o

/-- `kvsnprintf`, with the arguments that are left. -/
def kvsnprintf (fmt : List Char) (ap : List ℕ) (buf : ℕ → Char) : Option (Out × List ℕ) :=
  (formatLoop m out outSz fmt ap ⟨buf, 0⟩).map fun res => (res.1.close out outSz, res.2)

end format

/-- `(int)pos`. -/
def Out.result (o : Out) : ℤ := (o.pos : ℤ).bmod (2 ^ 32)

/-- `kprintf`: the result, and the buffer that is handed to `vga_write` and `serial_write_string`. `none` also if
the second terminator lies in front of the buffer. -/
def kprintf (m : Mem) (fmt : List Char) (ap : List ℕ) (buf : ℕ → Char) : Option (ℤ × (ℕ → Char)) :=
  (kvsnprintf m true 1024 fmt ap buf).bind fun res =>
    let n := res.1.result
    if n < 0 then none
    else some (n, Function.update res.1.buf (if n < 1023 then n.toNat else 1023) (Char.ofNat 0))

end PrometheusKernel.Stdio
