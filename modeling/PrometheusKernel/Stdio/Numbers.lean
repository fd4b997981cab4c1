import PrometheusKernel.Stdio.Render

/-!
# The text of a number

`itoa_hex` and `itoa_dec` with their arrays: `tmp`, which takes the digits in reverse, and `buf` of the caller,
into which they are turned round. `none` is an access outside of an array. The text is the numeral in base 16 or
10, a signed one behind its sign, and `kvsnprintf` gets the characters of `itoaHex` and `itoaDec`; reading it gives
the number back (`numbers_canonical`). The longest has 16 digits, far from the ends of `tmp[32]` and `buf[64]`.
-/

namespace PrometheusKernel.Stdio.Numbers

open Numeral

/-! ### The two functions -/

/-- `a[i] = c` in an array of `size` characters. -/
def write (size : ℕ) (a : ℕ → Char) (i : ℕ) (c : Char) : Option (ℕ → Char) :=
  if i < size then some (Function.update a i c) else none

/-- `a[i]` in an array of `size` characters. -/
def read (size : ℕ) (a : ℕ → Char) (i : ℕ) : Option Char := if i < size then some (a i) else none

/-- The number of elements of `tmp`. -/
def tmpSize : ℕ := 32

/-- `while (x) { tmp[i++] = digit(x); x = next(x); }`, with `tmp` and `i` at its end. A loop that is not done after
`tmpSize` turns has left `tmp`. -/
def digitsInto (digit : ℕ → Char) (next : ℕ → ℕ) : ℕ → (ℕ → Char) → ℕ → ℕ → Option ((ℕ → Char) × ℕ)
  | 0, _, _, _ => none
  | fuel + 1, tmp, i, x =>
      if x = 0 then some (tmp, i)
      else (write tmpSize tmp i (digit x)).bind fun tmp => digitsInto digit next fuel tmp (i + 1) (next x)

/-- `while (i) { buf[n++] = tmp[--i]; }`, with `buf` and `n` at its end. -/
def turnRound (size : ℕ) (tmp : ℕ → Char) : ℕ → (ℕ → Char) → ℕ → Option ((ℕ → Char) × ℕ)
  | 0, buf, n => some (buf, n)
  | i + 1, buf, n =>
      (read tmpSize tmp i).bind fun c => (write size buf n c).bind fun buf => turnRound size tmp i buf (n + 1)

section functions

variable (size : ℕ) (tmp buf : ℕ → Char)

/-- `buf[0] = '0'; buf[1] = 0; return 1;` -/
def zero : Option ((ℕ → Char) × ℕ) :=
  (write size buf 0 '0').bind fun buf => (write size buf 1 (Char.ofNat 0)).map fun buf => (buf, 1)

/-- `buf[n] = 0; return n;` -/
def close (n : ℕ) : Option ((ℕ → Char) × ℕ) := (write size buf n (Char.ofNat 0)).map fun buf => (buf, n)

/-- `itoa_hex` into an array of `size` characters: the array and the result. -/
def itoaHex (v : ℕ) (upper : Bool) : Option ((ℕ → Char) × ℕ) :=
  let d := hexDigits upper
  if v = 0 then zero size buf
  else
    (digitsInto (fun v => d.getD (v &&& 0xF) '0') (· >>> 4) (tmpSize + 1) tmp 0 v).bind fun (tmp, i) =>
      (turnRound size tmp i buf 0).bind fun (buf, n) => close size buf n

/-- `itoa_dec` into an array of `size` characters. -/
def itoaDec (v : ℤ) (uns : Bool) : Option ((ℕ → Char) × ℕ) :=
  let neg : Bool := !uns && v < 0
  let x := if neg then (-v).toNat else (v % 2 ^ 64).toNat
  if x = 0 then zero size buf
  else
    (digitsInto (fun x => Char.ofNat ('0'.toNat + x % 10)) (· / 10) (tmpSize + 1) tmp 0 x).bind fun (tmp, i) =>
      (if neg then (write size buf 0 '-').map fun buf => (buf, 1) else some (buf, 0)).bind fun (buf, n) =>
        (turnRound size tmp i buf n).bind fun (buf, n) => close size buf n

end functions

/-! ### Characters in a row -/

/-- The characters `cs` from index `i` on. -/
def putAll (a : ℕ → Char) : ℕ → List Char → ℕ → Char
  | _, [] => a
  | i, c :: cs => putAll (Function.update a i c) (i + 1) cs

/-- Characters stored in two stages. -/
theorem putAll_append (a : ℕ → Char) (i : ℕ) (cs ds : List Char) :
    putAll a i (cs ++ ds) = putAll (putAll a i cs) (i + cs.length) ds := by
  induction cs generalizing a i with
  | nil => rfl
  | cons c cs ih =>
      rw [List.cons_append, putAll, ih, putAll, List.length_cons]
      congr 1
      omega

/-- Other indices keep what they hold. -/
theorem putAll_of_lt_or_le {a : ℕ → Char} {i j : ℕ} {cs : List Char} (h : j < i ∨ i + cs.length ≤ j) :
    putAll a i cs j = a j := by
  induction cs generalizing a i with
  | nil => rfl
  | cons c cs ih =>
      rw [List.length_cons] at h
      rw [putAll, ih (by omega), Function.update_of_ne (by omega)]

/-- The characters that are stored. -/
theorem putAll_getElem {a : ℕ → Char} {i k : ℕ} {cs : List Char} (hk : k < cs.length) :
    putAll a i cs (i + k) = cs[k] := by
  induction cs generalizing a i k with
  | nil => exact absurd hk (Nat.not_lt_zero k)
  | cons c cs ih =>
      cases k with
      | zero =>
          show putAll (Function.update a i c) (i + 1) cs i = c
          rw [putAll_of_lt_or_le (Or.inl (Nat.lt_succ_self i)), Function.update_self]
      | succ k =>
          have hk' : k < cs.length := Nat.lt_of_succ_lt_succ hk
          rw [putAll, show i + (k + 1) = i + 1 + k by omega, ih hk', List.getElem_cons_succ]

/-- The characters can be read back. -/
theorem map_putAll (a : ℕ → Char) (cs ds : List Char) :
    (List.range cs.length).map (putAll a 0 (cs ++ ds)) = cs := by
  apply List.ext_getElem
  · rw [List.length_map, List.length_range]
  · intro k hk hk'
    have hlt : k < (cs ++ ds).length := by
      rw [List.length_append]
      omega
    have hget := putAll_getElem (a := a) (i := 0) hlt
    rw [Nat.zero_add] at hget
    rw [List.getElem_map, List.getElem_range, hget, List.getElem_append_left hk']

/-! ### The loops -/

/-- The first loop leaves the digits, lowest first. -/
theorem digitsInto_eq {digit d : ℕ → Char} {next : ℕ → ℕ} {b : ℕ} (hdigit : ∀ x, digit x = d (x % b))
    (hnext : ∀ x, next x = x / b) {fuel x i : ℕ} (tmp : ℕ → Char) (hx : x < b ^ fuel) (hroom : i + fuel ≤ tmpSize) :
    digitsInto digit next (fuel + 1) tmp i x
      = some (putAll tmp i (digitLoop d b fuel x), i + (digitLoop d b fuel x).length) := by
  induction fuel generalizing x i tmp with
  | zero =>
      have h0 : x = 0 := by simpa using hx
      rw [digitsInto, if_pos h0]
      rfl
  | succ fuel ih =>
      rw [digitsInto, digitLoop]
      by_cases h0 : x = 0
      · rw [if_pos h0, if_pos h0]
        rfl
      · have hdiv : x / b < b ^ fuel := Nat.div_lt_of_lt_mul (by rwa [pow_succ, mul_comm] at hx)
        rw [if_neg h0, if_neg h0, write, if_pos (by omega), Option.bind_some, hnext, hdigit,
          ih (Function.update tmp i (d (x % b))) hdiv (by omega), putAll, List.length_cons]
        congr 2
        omega

/-- The second loop turns them round. -/
theorem turnRound_eq {size n : ℕ} {tmp : ℕ → Char} {cs : List Char} (htmp : ∀ k (hk : k < cs.length), tmp k = cs[k])
    (buf : ℕ → Char) (hcs : cs.length ≤ tmpSize) (hsize : n + cs.length ≤ size) :
    turnRound size tmp cs.length buf n = some (putAll buf n cs.reverse, n + cs.length) := by
  induction cs using List.reverseRecOn generalizing buf n with
  | nil => rfl
  | append_singleton cs c ih =>
      rw [List.length_append, List.length_singleton] at hcs hsize
      have hlast : tmp cs.length = c := by
        rw [htmp cs.length (by rw [List.length_append, List.length_singleton]; omega), List.getElem_concat_length rfl]
      have hinit : ∀ k (hk : k < cs.length), tmp k = cs[k] := fun k hk => by
        rw [htmp k (by rw [List.length_append]; omega), List.getElem_append_left hk]
      rw [List.length_append, List.length_singleton, turnRound, read, if_pos (by omega), Option.bind_some, hlast,
        write, if_pos (by omega), Option.bind_some, ih hinit _ (by omega) (by omega), List.reverse_append,
        List.reverse_singleton, List.singleton_append, putAll]
      congr 2
      omega

/-- The second loop and the terminator. -/
theorem turnRound_close {size n : ℕ} {tmp : ℕ → Char} {cs : List Char} (buf : ℕ → Char) (hcs : cs.length ≤ tmpSize)
    (hsize : n + cs.length < size) :
    ((turnRound size (putAll tmp 0 cs) cs.length buf n).bind fun (buf, n) => close size buf n)
      = some (putAll buf n (cs.reverse ++ [Char.ofNat 0]), n + cs.length) := by
  have htmp : ∀ k (hk : k < cs.length), putAll tmp 0 cs k = cs[k] := fun k hk => by
    have hget := putAll_getElem (a := tmp) (i := 0) hk
    rwa [Nat.zero_add] at hget
  rw [turnRound_eq htmp buf hcs hsize.le, Option.bind_some]
  dsimp only
  rw [close, write, if_pos hsize, Option.map_some, putAll_append, List.length_reverse]
  rfl

/-! ### The text -/

section text

variable {size : ℕ} (tmp buf : ℕ → Char)

/-- The branch for 0. -/
theorem zero_eq (hsize : 1 < size) : zero size buf = some (putAll buf 0 (['0'] ++ [Char.ofNat 0]), 1) := by
  unfold zero write
  rw [if_pos (by omega), Option.bind_some, if_pos hsize]
  rfl

/-- `itoa_hex` leaves the text of `itoaHex` in its buffer. -/
theorem itoaHex_eq {v : ℕ} (hv : v < 2 ^ 64) (upper : Bool) (hsize : (Stdio.itoaHex v upper).length < size) :
    itoaHex size tmp buf v upper
      = some (putAll buf 0 (Stdio.itoaHex v upper ++ [Char.ofNat 0]), (Stdio.itoaHex v upper).length) := by
  unfold Stdio.itoaHex at hsize ⊢
  unfold itoaHex
  by_cases h0 : v = 0
  · rw [if_pos h0] at hsize ⊢
    rw [if_pos h0]
    exact zero_eq buf hsize
  · have hfuel : v < 16 ^ tmpSize := lt_of_lt_of_le hv (by norm_num [tmpSize])
    have hmask : ∀ x, (hexDigits upper).getD (x &&& 0xF) '0' = (hexDigits upper).getD (x % 16) '0' := fun x => by
      rw [show x &&& 0xF = x % 16 from Nat.and_two_pow_sub_one_eq_mod x 4]
    have hdigits := digitsInto_eq (d := fun i => (hexDigits upper).getD i '0') (i := 0) hmask
      (fun x => Nat.shiftRight_eq_div_pow x 4) tmp hfuel (Nat.zero_add _).le
    rw [if_neg h0, List.length_reverse, hexTmp_eq] at hsize
    rw [if_neg h0, if_neg h0, hexTmp_eq]
    dsimp only
    rw [hdigits, Option.bind_some]
    dsimp only
    rw [Nat.zero_add, turnRound_close buf (length_digitLoop_le _ _) (by rwa [Nat.zero_add]), List.length_reverse,
      Nat.zero_add]
    rfl

/-- `itoa_dec` leaves the text of `itoaDec` in its buffer. -/
theorem itoaDec_eq {v : ℤ} (hv : -2 ^ 63 ≤ v) (uns : Bool) (hsize : (Stdio.itoaDec v uns).length < size) :
    itoaDec size tmp buf v uns
      = some (putAll buf 0 (Stdio.itoaDec v uns ++ [Char.ofNat 0]), (Stdio.itoaDec v uns).length) := by
  unfold Stdio.itoaDec at hsize ⊢
  unfold itoaDec
  dsimp only at hsize ⊢
  generalize hneg : (!uns && decide (v < 0)) = neg at hsize ⊢
  generalize hx : (if neg = true then (-v).toNat else (v % 2 ^ 64).toNat) = x at hsize ⊢
  by_cases h0 : x = 0
  · rw [if_pos h0] at hsize ⊢
    rw [if_pos h0]
    exact zero_eq buf hsize
  · have hlt : x < 2 ^ 64 := by
      rw [← hx]
      split_ifs <;> omega
    have hfuel : x < 10 ^ tmpSize := lt_of_lt_of_le hlt (by norm_num [tmpSize])
    have hdigits := digitsInto_eq (d := fun i => Char.ofNat ('0'.toNat + i)) (i := 0) (fun _ => rfl)
      (fun _ => rfl) tmp hfuel (Nat.zero_add _).le
    rw [if_neg h0, decTmp_eq] at hsize
    rw [if_neg h0, if_neg h0, decTmp_eq, hdigits, Option.bind_some]
    dsimp only
    rw [Nat.zero_add]
    cases neg with
    | false =>
        rw [if_neg Bool.false_ne_true, List.nil_append, List.length_reverse] at hsize
        rw [if_neg Bool.false_ne_true, if_neg Bool.false_ne_true, Option.bind_some]
        dsimp only
        rw [turnRound_close buf (length_digitLoop_le _ _) (by rwa [Nat.zero_add]), List.nil_append,
          List.length_reverse, Nat.zero_add]
        rfl
    | true =>
        rw [if_pos rfl, List.length_append, List.length_singleton, List.length_reverse] at hsize
        rw [if_pos rfl, if_pos rfl, write, if_pos (by omega), Option.map_some, Option.bind_some]
        dsimp only
        rw [turnRound_close _ (length_digitLoop_le _ _) hsize, List.length_append, List.length_singleton,
          List.length_reverse]
        rfl

end text

/-! ### Reading the text back -/

/-- The digits of `itoa_hex`. -/
def hexDigit (upper : Bool) (i : ℕ) : Char := if upper then upperDigit i else Nat.digitChar i

/-- The value of a decimal digit. -/
def decValue (c : Char) : Option ℕ := if '0' ≤ c ∧ c ≤ '9' then some (c.toNat - '0'.toNat) else none

/-- The value of a hexadecimal digit of either case. -/
def hexValue (c : Char) : Option ℕ :=
  if 'a' ≤ c ∧ c ≤ 'f' then some (c.toNat - 'a'.toNat + 10)
  else if 'A' ≤ c ∧ c ≤ 'F' then some (c.toNat - 'A'.toNat + 10)
  else decValue c

/-- The number in a decimal text, which may begin with a sign. -/
def parseSigned : List Char → Option ℤ
  | '-' :: cs => (parse decValue 10 cs).map fun v : ℕ => -(v : ℤ)
  | cs => (parse decValue 10 cs).map fun v : ℕ => (v : ℤ)

/-- A call that leaves `cs` and its terminator in `buf` and nothing behind them, and returns the length. -/
def Leaves (buf : ℕ → Char) (res : Option ((ℕ → Char) × ℕ)) (cs : List Char) : Prop :=
  ∃ buf', res = some (buf', cs.length) ∧ (List.range cs.length).map buf' = cs ∧ buf' cs.length = Char.ofNat 0 ∧
    ∀ i, cs.length < i → buf' i = buf i

/-- `cs` is how `v` is written in base `b`: it reads as `v`, and no digit leads it in vain. -/
structure Canonical (digit : ℕ → Char) (value : Char → Option ℕ) (b v : ℕ) (cs : List Char) : Prop where
  numeral : cs = numeral digit b v
  head : v ≠ 0 → cs.head? ≠ some '0'
  read : parse value b cs = some v

/-- What is stored with a 0 behind it is left in the buffer. -/
theorem leaves_putAll (buf : ℕ → Char) (cs : List Char) :
    Leaves buf (some (putAll buf 0 (cs ++ [Char.ofNat 0]), cs.length)) cs := by
  have hlength : (cs ++ [Char.ofNat 0]).length = cs.length + 1 := by
    rw [List.length_append, List.length_singleton]
  have hlast := putAll_getElem (a := buf) (i := 0) (show cs.length < (cs ++ [Char.ofNat 0]).length by omega)
  rw [Nat.zero_add, List.getElem_concat_length rfl] at hlast
  exact ⟨_, rfl, map_putAll buf cs _, hlast, fun i hi => putAll_of_lt_or_le (Or.inr (by omega))⟩

/-- `itoa_hex` leaves its digits in the buffer. -/
theorem itoaHex_leaves {size v : ℕ} (tmp buf : ℕ → Char) (hv : v < 2 ^ 64) (upper : Bool)
    (hsize : (Stdio.itoaHex v upper).length < size) :
    Leaves buf (itoaHex size tmp buf v upper) (Stdio.itoaHex v upper) := by
  rw [itoaHex_eq tmp buf hv upper hsize]
  exact leaves_putAll buf _

/-- `itoa_dec` leaves its digits in the buffer. -/
theorem itoaDec_leaves {size : ℕ} {v : ℤ} (tmp buf : ℕ → Char) (hv : -2 ^ 63 ≤ v) (uns : Bool)
    (hsize : (Stdio.itoaDec v uns).length < size) :
    Leaves buf (itoaDec size tmp buf v uns) (Stdio.itoaDec v uns) := by
  rw [itoaDec_eq tmp buf hv uns hsize]
  exact leaves_putAll buf _

/-- Hexadecimal digits are read back. -/
theorem hexValue_hexDigit (upper : Bool) (i : ℕ) (hi : i < 16) : hexValue (hexDigit upper i) = some i := by
  have hall : ∀ b : Bool, ∀ j : Fin 16, hexValue (hexDigit b j) = some (j : ℕ) := by decide
  exact hall upper ⟨i, hi⟩

/-- Decimal digits are read back. -/
theorem decValue_digitChar (i : ℕ) (hi : i < 10) : decValue (Nat.digitChar i) = some i := by
  have hall : ∀ j : Fin 10, decValue (Nat.digitChar j) = some (j : ℕ) := by decide
  exact hall ⟨i, hi⟩

/-- Hexadecimal numerals are canonical. -/
theorem canonical_hex (upper : Bool) (v : ℕ) :
    Canonical (hexDigit upper) hexValue 16 v (numeral (hexDigit upper) 16 v) := by
  have hzero : hexDigit upper 0 = '0' := by cases upper <;> rfl
  have hvalue := hexValue_hexDigit upper
  refine ⟨rfl, fun hv => ?_, parse_numeral (by norm_num) hvalue v⟩
  rw [← hzero]
  exact head_numeral (by norm_num) hvalue hv

/-- Decimal numerals are canonical. -/
theorem canonical_dec (v : ℕ) : Canonical Nat.digitChar decValue 10 v (numeral Nat.digitChar 10 v) :=
  ⟨rfl, fun hv => head_numeral (by norm_num) decValue_digitChar hv, parse_numeral (by norm_num) decValue_digitChar v⟩

/-- A sign in front of a numeral. -/
theorem parseSigned_signed (v : ℤ) : parseSigned (signed v) = some v := by
  have hread := (canonical_dec v.natAbs).read
  unfold signed
  by_cases hneg : v < 0
  · have hv : -(v.natAbs : ℤ) = v := by omega
    rw [if_pos hneg, List.singleton_append, parseSigned, hread, Option.map_some, hv]
  · have hv : (v.natAbs : ℤ) = v := by omega
    rw [if_neg hneg, List.nil_append]
    unfold parseSigned
    split
    · next cs heq =>
        have hnone : parse decValue 10 ('-' :: cs) = none := parse_cons_of_none (by decide) 10 cs
        rw [heq, hnone] at hread
        exact absurd hread nofun
    · rw [hread, Option.map_some, hv]

/-- Every 64-bit number in base 16, and every `int` and every 32-bit number in base 10, is written in the canonical
way, with its terminator, its length is returned, and it is read back. No array is left. -/
theorem numbers_canonical (tmp buf : ℕ → Char) :
    (∀ v < 2 ^ 64, ∀ upper, ∃ cs, Leaves buf (itoaHex 64 tmp buf v upper) cs ∧
      Canonical (hexDigit upper) hexValue 16 v cs ∧ cs.length ≤ 16) ∧
    (∀ v : ℤ, -2 ^ 31 ≤ v → v < 2 ^ 31 → ∃ cs,
      Leaves buf (itoaDec 64 tmp buf v false) ((if v < 0 then ['-'] else []) ++ cs) ∧
      Canonical Nat.digitChar decValue 10 v.natAbs cs ∧ cs.length ≤ 10 ∧
      parseSigned ((if v < 0 then ['-'] else []) ++ cs) = some v) ∧
    (∀ u : ℕ, u < 2 ^ 32 → ∃ cs, Leaves buf (itoaDec 64 tmp buf u true) cs ∧
      Canonical Nat.digitChar decValue 10 u cs ∧ cs.length ≤ 10) := by
  refine ⟨fun v hv upper => ?_, fun v hlo hhi => ?_, fun u hu => ?_⟩
  · have htext : Stdio.itoaHex v upper = numeral (hexDigit upper) 16 v := Stdio.itoaHex_eq hv upper
    have hlength : (numeral (hexDigit upper) 16 v).length ≤ 16 :=
      length_numeral_le (by norm_num) (by norm_num) (lt_of_lt_of_le hv (by norm_num))
    have hroom : (Stdio.itoaHex v upper).length < 64 := by
      rw [htext]
      omega
    have hleaves := itoaHex_leaves tmp buf hv upper hroom
    rw [htext] at hleaves
    exact ⟨_, hleaves, canonical_hex upper v, hlength⟩
  · have htext : Stdio.itoaDec v false = signed v := itoaDec_signed (by omega) (by omega)
    have hlength : (numeral Nat.digitChar 10 v.natAbs).length ≤ 10 :=
      length_numeral_le (by norm_num) (by norm_num) (by omega)
    have hsign : (signed v).length ≤ 11 := by
      unfold signed
      rw [List.length_append]
      split_ifs
      · rw [List.length_singleton]
        omega
      · rw [List.length_nil]
        omega
    have hroom : (Stdio.itoaDec v false).length < 64 := by
      rw [htext]
      omega
    have hleaves := itoaDec_leaves tmp buf (by omega) false hroom
    rw [htext] at hleaves
    exact ⟨_, hleaves, canonical_dec v.natAbs, hlength, parseSigned_signed v⟩
  · have htext : Stdio.itoaDec u true = numeral Nat.digitChar 10 u := itoaDec_unsigned (by omega)
    have hlength : (numeral Nat.digitChar 10 u).length ≤ 10 :=
      length_numeral_le (by norm_num) (by norm_num) (by omega)
    have hroom : (Stdio.itoaDec u true).length < 64 := by
      rw [htext]
      omega
    have hleaves := itoaDec_leaves tmp buf (by omega) true hroom
    rw [htext] at hleaves
    exact ⟨_, hleaves, canonical_dec u, hlength⟩

/-- The greatest 64-bit number, in capitals, and the least `int`. -/
theorem numbers_canonical_extremes :
    (∃ cs, Leaves (fun _ => 'a') (itoaHex 64 (fun _ => 'b') (fun _ => 'a') (2 ^ 64 - 1) true) cs ∧
      Canonical (hexDigit true) hexValue 16 (2 ^ 64 - 1) cs ∧ cs.length ≤ 16) ∧
    ∃ cs, Leaves (fun _ => 'a') (itoaDec 64 (fun _ => 'b') (fun _ => 'a') (-2 ^ 31) false)
        ((if (-2 ^ 31 : ℤ) < 0 then ['-'] else []) ++ cs) ∧
      Canonical Nat.digitChar decValue 10 (-2 ^ 31 : ℤ).natAbs cs ∧ cs.length ≤ 10 ∧
      parseSigned ((if (-2 ^ 31 : ℤ) < 0 then ['-'] else []) ++ cs) = some (-2 ^ 31 : ℤ) :=
  ⟨(numbers_canonical _ _).1 (2 ^ 64 - 1) (by norm_num) true,
    (numbers_canonical _ _).2.1 (-2 ^ 31) (by norm_num) (by norm_num)⟩

end PrometheusKernel.Stdio.Numbers
