import PrometheusKernel.Stdio.Model

/-!
# What `kvsnprintf` renders

A format is a list of literal characters, `%%`, and conversions (`Item`); `rendered` is the text that it stands
for. `kvsnprintf` knows no length modifier: of `%llx` it takes `%l` for a conversion without a meaning, and writes
the rest, and no argument is consumed. And it reads the argument of `%x` as an `unsigned long long`, so that
whatever is in the high half of its slot is rendered as well. It renders exactly the formats without modifiers
whose arguments of `%x` and `%X` are passed with a high half of 0 (`renders_iff`).
-/

namespace PrometheusKernel.Stdio

open ByteMem Numeral

/-! ### Formats -/

/-- A length modifier. -/
inductive Length
  | none
  | l
  | ll
  | z
deriving DecidableEq

def Length.text : Length → List Char
  | .none => []
  | .l => ['l']
  | .ll => ['l', 'l']
  | .z => ['z']

/-- The width of an integer of this length. -/
def Length.width : Length → ℕ
  | .none => 32
  | _ => 64

/-- The conversions of integers. -/
inductive Radix
  | d
  | u
  | x
  | X
deriving DecidableEq

/-- A conversion. -/
inductive Conversion
  | s
  | c
  | p
  | num (length : Length) (radix : Radix)
deriving DecidableEq

def Conversion.length : Conversion → Length
  | .num length _ => length
  | _ => .none

/-- The character of the conversion. -/
def Conversion.char : Conversion → Char
  | .s => 's'
  | .c => 'c'
  | .p => 'p'
  | .num _ .d => 'd'
  | .num _ .u => 'u'
  | .num _ .x => 'x'
  | .num _ .X => 'X'

/-- An item of a format. -/
inductive Item
  | literal (c : Char)
  | percent
  | conversion (k : Conversion)
deriving DecidableEq

def Item.text : Item → List Char
  | .literal c => [c]
  | .percent => ['%', '%']
  | .conversion k => '%' :: (k.length.text ++ [k.char])

/-- The format string. -/
def formatOf (items : List Item) : List Char := items.flatMap Item.text

/-! ### What a format stands for -/

/-- A signed number in base 10. -/
def signed (v : ℤ) : List Char := (if v < 0 then ['-'] else []) ++ numeral Nat.digitChar 10 v.natAbs

/-- The hexadecimal digits of `%X`. -/
def upperDigit (i : ℕ) : Char := (Nat.digitChar i).toUpper

/-- The argument in the slot `a`, rendered by its conversion. -/
def Conversion.render (m : Mem) (a : ℕ) : Conversion → List Char
  | .s => if a = 0 then "(null)".toList else (readString m stringBound a).getD []
  | .c => [toChar a]
  | .p => '0' :: 'x' :: numeral Nat.digitChar 16 a
  | .num length .d => signed ((a : ℤ).bmod (2 ^ length.width))
  | .num length .u => numeral Nat.digitChar 10 (a % 2 ^ length.width)
  | .num length .x => numeral Nat.digitChar 16 (a % 2 ^ length.width)
  | .num length .X => numeral upperDigit 16 (a % 2 ^ length.width)

/-- The literals and the rendered arguments, in order. -/
def rendered (m : Mem) : List Item → List ℕ → List Char
  | [], _ => []
  | .literal c :: items, args => c :: rendered m items args
  | .percent :: items, args => '%' :: rendered m items args
  | .conversion k :: items, a :: args => k.render m a ++ rendered m items args
  | .conversion _ :: _, [] => []

/-- The arguments match the format: one slot for each conversion, and strings that end. -/
def Matches (m : Mem) : List Item → List ℕ → Prop
  | [], args => args = []
  | .literal c :: items, args => c ≠ '%' ∧ c ≠ Char.ofNat 0 ∧ Matches m items args
  | .percent :: items, args => Matches m items args
  | .conversion k :: items, a :: args =>
      a < 2 ^ 64 ∧ (k = .s → a ≠ 0 → ∃ cs, readString m stringBound a = some cs) ∧ Matches m items args
  | .conversion _ :: _, [] => False

/-- The bytes that a call left in a buffer of `outSz` bytes, before the terminator. -/
def textOf (outSz : ℕ) (o : Out) : List Char := (List.range (min o.pos (outSz - 1))).map o.buf

/-- `kvsnprintf` writes what the format stands for, as far as the buffer goes, and consumes one argument for each
conversion. -/
def Renders (m : Mem) (outSz : ℕ) (buf : ℕ → Char) (items : List Item) (args : List ℕ) : Prop :=
  ∃ o, kvsnprintf m true outSz (formatOf items) args buf = some (o, []) ∧
    o.pos = (rendered m items args).length ∧ textOf outSz o = (rendered m items args).take (outSz - 1) ∧
    o.buf (min o.pos (outSz - 1)) = Char.ofNat 0

/-- `%x` or `%X`. -/
def Conversion.isHex : Conversion → Bool
  | .num _ .x => true
  | .num _ .X => true
  | _ => false

/-- No conversion has a length modifier, and the arguments of `%x` and `%X` have a high half of 0. -/
def Plain : List Item → List ℕ → Prop
  | [], _ => True
  | .literal _ :: items, args => Plain items args
  | .percent :: items, args => Plain items args
  | .conversion k :: items, a :: args =>
      k.length = .none ∧ (k.isHex = true → a < 2 ^ 32) ∧ Plain items args
  | .conversion _ :: _, [] => True

/-! ### Numbers -/

/-- The loop of `itoa_hex` is the loop over the digits. -/
theorem hexTmp_eq (d : List Char) (fuel v : ℕ) :
    hexTmp d fuel v = digitLoop (fun i => d.getD i '0') 16 fuel v := by
  induction fuel generalizing v with
  | zero => rfl
  | succ fuel ih =>
      have hmask : v &&& 0xF = v % 16 := Nat.and_two_pow_sub_one_eq_mod v 4
      have hshift : v >>> 4 = v / 16 := Nat.shiftRight_eq_div_pow v 4
      unfold hexTmp digitLoop
      rw [hmask, hshift, ih]

/-- The loop of `itoa_dec` is the loop over the digits. -/
theorem decTmp_eq (fuel x : ℕ) :
    decTmp fuel x = digitLoop (fun i => Char.ofNat ('0'.toNat + i)) 10 fuel x := by
  induction fuel generalizing x with
  | zero => rfl
  | succ fuel ih =>
      unfold decTmp digitLoop
      rw [ih]

/-- The digits of `itoa_hex` are those of the base. -/
theorem hexDigits_getD (upper : Bool) (i : ℕ) (hi : i < 16) :
    (hexDigits upper).getD i '0' = if upper then upperDigit i else Nat.digitChar i := by
  have hall : ∀ b : Bool, ∀ j : Fin 16,
      (hexDigits b).getD j '0' = if b then upperDigit j else Nat.digitChar j := by
    decide
  exact hall upper ⟨i, hi⟩

/-- The decimal digits. -/
theorem decDigits (i : ℕ) (hi : i < 10) : Char.ofNat ('0'.toNat + i) = Nat.digitChar i := by
  have hall : ∀ j : Fin 10, Char.ofNat ('0'.toNat + j) = Nat.digitChar j := by decide
  exact hall ⟨i, hi⟩

/-- What `itoa_hex` stores. -/
theorem itoaHex_eq {v : ℕ} (hv : v < 2 ^ 64) (upper : Bool) :
    itoaHex v upper = numeral (fun i => if upper then upperDigit i else Nat.digitChar i) 16 v := by
  have hfuel : v < 16 ^ 32 := lt_of_lt_of_le hv (by norm_num)
  rw [← numeral_congr (by norm_num) (hexDigits_getD upper) v]
  unfold itoaHex numeral
  rw [hexTmp_eq, digitLoop_eq (by norm_num) hfuel]
  by_cases h0 : v = 0
  · rw [if_pos h0, if_pos h0]
    cases upper <;> rfl
  · rw [if_neg h0, if_neg h0]

/-- The number part of `itoa_dec`. -/
theorem decTmp_numeral {x : ℕ} (hx : x < 2 ^ 64) (h0 : x ≠ 0) : (decTmp 32 x).reverse = numeral Nat.digitChar 10 x := by
  have hfuel : x < 10 ^ 32 := lt_of_lt_of_le hx (by norm_num)
  rw [← numeral_congr (by norm_num) decDigits x, decTmp_eq, digitLoop_eq (by norm_num) hfuel]
  unfold numeral
  rw [if_neg h0]

/-- What `itoa_dec` stores of an unsigned number. -/
theorem itoaDec_unsigned {v : ℕ} (hv : v < 2 ^ 64) : itoaDec v true = numeral Nat.digitChar 10 v := by
  have hx : ((v : ℤ) % 2 ^ 64).toNat = v := by omega
  unfold itoaDec
  simp only [Bool.not_true, Bool.false_and, Bool.false_eq_true, if_false, List.nil_append, hx]
  by_cases h0 : v = 0
  · subst h0
    rfl
  · rw [if_neg h0, decTmp_numeral hv h0]

/-- What `itoa_dec` stores of a signed number. -/
theorem itoaDec_signed {v : ℤ} (hlo : -2 ^ 63 ≤ v) (hhi : v < 2 ^ 63) : itoaDec v false = signed v := by
  unfold itoaDec signed
  by_cases hneg : v < 0
  · have hx : (-v).toNat = v.natAbs := by omega
    simp only [Bool.not_false, Bool.true_and, decide_eq_true_eq, if_pos hneg, hx]
    rw [if_neg (by omega), decTmp_numeral (by omega) (by omega)]
  · have hx : (v % 2 ^ 64).toNat = v.natAbs := by omega
    simp only [Bool.not_false, Bool.true_and, decide_eq_true_eq, if_neg hneg, hx, List.nil_append]
    by_cases h0 : v.natAbs = 0
    · rw [if_pos h0, h0]
      rfl
    · rw [if_neg h0, decTmp_numeral (by omega) h0]

/-! ### The buffer -/

section buffer

variable {out : Bool} {outSz : ℕ} {o : Out} {cs : List Char}

/-- Characters written in two stages. -/
theorem puts_append (ds : List Char) :
    o.puts out outSz (cs ++ ds) = (o.puts out outSz cs).puts out outSz ds := List.foldl_append

/-- The position counts what is written. -/
theorem puts_pos : (o.puts true outSz cs).pos = o.pos + cs.length := by
  induction cs generalizing o with
  | nil => rfl
  | cons c cs ih =>
      show ((o.put true outSz c).puts true outSz cs).pos = o.pos + (cs.length + 1)
      rw [ih]
      show o.pos + 1 + cs.length = o.pos + (cs.length + 1)
      omega

/-- The buffer holds the beginning of what was written. -/
theorem textOf_puts (buf : ℕ → Char) (cs : List Char) :
    textOf outSz ((⟨buf, 0⟩ : Out).puts true outSz cs) = cs.take (outSz - 1) := by
  induction cs using List.reverseRecOn with
  | nil =>
      rw [List.take_nil]
      show (List.range (min 0 (outSz - 1))).map buf = []
      rw [Nat.zero_min]
      rfl
  | append_singleton cs c ih =>
      rw [puts_append]
      have hpos : ((⟨buf, 0⟩ : Out).puts true outSz cs).pos = cs.length := by
        rw [puts_pos, Nat.zero_add]
      set o := (⟨buf, 0⟩ : Out).puts true outSz cs with ho
      unfold textOf at ih
      rw [hpos] at ih
      show (List.range (min (o.pos + 1) (outSz - 1))).map (o.put true outSz c).buf = _
      unfold Out.put
      rw [hpos]
      by_cases hroom : cs.length + 1 < outSz
      · rw [if_pos ⟨rfl, hroom⟩, min_eq_left (by omega), List.range_succ, List.map_append, List.map_singleton,
          List.take_of_length_le (by rw [List.length_append, List.length_singleton]; omega)]
        dsimp only
        rw [Function.update_self]
        rw [min_eq_left (by omega), List.take_of_length_le (by omega)] at ih
        congr 1
        refine (List.map_congr_left fun i hi => ?_).trans ih
        exact Function.update_of_ne (List.mem_range.mp hi).ne _ _
      · rw [if_neg fun hcon => hroom hcon.2, min_eq_right (by omega), List.take_append_of_le_length (by omega), ← ih,
          min_eq_right (by omega)]

/-- The terminator lies behind the text. -/
theorem textOf_close (hsz : 0 < outSz) : textOf outSz (o.close true outSz) = textOf outSz o ∧
    (o.close true outSz).pos = o.pos ∧ (o.close true outSz).buf (min o.pos (outSz - 1)) = Char.ofNat 0 := by
  have hmin : (if o.pos < outSz - 1 then o.pos else outSz - 1) = min o.pos (outSz - 1) := by
    rw [min_def]
    split_ifs <;> omega
  have hclose : o.close true outSz
      = { o with buf := Function.update o.buf (min o.pos (outSz - 1)) (Char.ofNat 0) } := by
    unfold Out.close
    rw [if_pos ⟨rfl, by omega⟩, hmin]
  rw [hclose]
  refine ⟨?_, rfl, Function.update_self _ _ _⟩
  apply List.map_congr_left
  intro i hi
  exact Function.update_of_ne (List.mem_range.mp hi).ne _ _

end buffer

/-! ### The loop over the format -/

section loop

variable {m : Mem} {out : Bool} {outSz a : ℕ} {c : Char} {k : Conversion} {items : List Item} {fmt : List Char}
  {ap args : List ℕ} {o : Out}

/-- A character that is not a percent is copied. -/
theorem formatLoop_literal (hc : c ≠ '%') :
    formatLoop m out outSz (c :: fmt) ap o = formatLoop m out outSz fmt ap (o.put out outSz c) := by
  cases fmt with
  | nil => exact if_pos hc
  | cons d fmt => exact if_pos hc

/-- Two percents are one. -/
theorem formatLoop_percent :
    formatLoop m out outSz ('%' :: '%' :: fmt) ap o = formatLoop m out outSz fmt ap (o.put out outSz '%') :=
  (if_neg (not_not.mpr rfl)).trans (if_pos rfl)

/-- A conversion takes an argument. -/
theorem formatLoop_takes (hc : c ≠ '%') (htakes : takesArgument c = true) :
    formatLoop m out outSz ('%' :: c :: fmt) (a :: ap) o
      = (convert m c a).bind fun cs => formatLoop m out outSz fmt ap (o.puts out outSz cs) :=
  (if_neg (not_not.mpr rfl)).trans ((if_neg hc).trans (if_pos htakes))

/-- A conversion without an argument stops. -/
theorem formatLoop_takes_nil (hc : c ≠ '%') (htakes : takesArgument c = true) :
    formatLoop m out outSz ('%' :: c :: fmt) [] o = none :=
  (if_neg (not_not.mpr rfl)).trans ((if_neg hc).trans (if_pos htakes))

/-- A character without a meaning is skipped. -/
theorem formatLoop_unknown (hc : c ≠ '%') (htakes : takesArgument c ≠ true) :
    formatLoop m out outSz ('%' :: c :: fmt) ap o = formatLoop m out outSz fmt ap o :=
  (if_neg (not_not.mpr rfl)).trans ((if_neg hc).trans (if_neg htakes))

/-- The conversion characters take an argument. -/
theorem Conversion.char_takes (k : Conversion) : k.char ≠ '%' ∧ takesArgument k.char = true := by
  cases k with
  | num length radix => cases radix <;> exact ⟨by simp [char], rfl⟩
  | s => decide
  | c => decide
  | p => decide

/-- A conversion without a modifier. -/
theorem formatLoop_conversion (hk : k.length = .none) :
    formatLoop m true outSz ((Item.conversion k).text ++ fmt) (a :: ap) o
      = (convert m k.char a).bind fun cs => formatLoop m true outSz fmt ap (o.puts true outSz cs) := by
  obtain ⟨hpercent, htakes⟩ := k.char_takes
  show formatLoop m true outSz ('%' :: (k.length.text ++ [k.char] ++ fmt)) (a :: ap) o = _
  rw [hk]
  exact formatLoop_takes hpercent htakes

/-- A conversion of the format without an argument stops. -/
theorem formatLoop_conversion_nil (hk : k.length = .none) :
    formatLoop m true outSz ((Item.conversion k).text ++ fmt) [] o = none := by
  obtain ⟨hpercent, htakes⟩ := k.char_takes
  show formatLoop m true outSz ('%' :: (k.length.text ++ [k.char] ++ fmt)) [] o = _
  rw [hk]
  exact formatLoop_takes_nil hpercent htakes

/-- With a modifier, its first character is taken for the conversion, and the rest is written. -/
theorem formatLoop_modified (hk : k.length ≠ .none) :
    ∃ cs, formatLoop m true outSz ((Item.conversion k).text ++ fmt) ap o
      = formatLoop m true outSz fmt ap (o.puts true outSz cs) := by
  obtain ⟨hpercent, -⟩ := k.char_takes
  show ∃ cs, formatLoop m true outSz ('%' :: (k.length.text ++ [k.char] ++ fmt)) ap o = _
  cases hlen : k.length with
  | none => exact absurd hlen hk
  | l =>
      refine ⟨[k.char], ?_⟩
      show formatLoop m true outSz ('%' :: 'l' :: k.char :: fmt) ap o = _
      rw [formatLoop_unknown (by decide) (by decide), formatLoop_literal hpercent]
      rfl
  | ll =>
      refine ⟨['l', k.char], ?_⟩
      show formatLoop m true outSz ('%' :: 'l' :: 'l' :: k.char :: fmt) ap o = _
      rw [formatLoop_unknown (by decide) (by decide), formatLoop_literal (by decide), formatLoop_literal hpercent]
      rfl
  | z =>
      refine ⟨[k.char], ?_⟩
      show formatLoop m true outSz ('%' :: 'z' :: k.char :: fmt) ap o = _
      rw [formatLoop_unknown (by decide) (by decide), formatLoop_literal hpercent]
      rfl

/-- The item is a conversion with a length modifier. -/
def Item.modified : Item → Bool
  | .conversion k => k.length ≠ .none
  | _ => false

/-- The arguments that are left are those of the conversions with a modifier. -/
theorem formatLoop_left (h : Matches m items args) {o' : Out} {rest : List ℕ}
    (hloop : formatLoop m true outSz (formatOf items) ap o = some (o', rest)) :
    rest.length + args.length = ap.length + items.countP Item.modified := by
  induction items generalizing args ap o with
  | nil =>
      obtain rfl : args = [] := h
      obtain ⟨rfl, rfl⟩ := Prod.mk.inj (Option.some.inj hloop)
      rfl
  | cons item items ih =>
      have hfmt : formatOf (item :: items) = item.text ++ formatOf items := List.flatMap_cons
      rw [hfmt] at hloop
      rw [List.countP_cons]
      cases item with
      | literal c =>
          have hloop' := (formatLoop_literal (m := m) h.1).symm.trans hloop
          exact ih h.2.2 hloop'
      | percent =>
          have hloop' := formatLoop_percent.symm.trans hloop
          exact ih h hloop'
      | conversion k =>
          cases args with
          | nil => exact absurd h id
          | cons a args =>
              obtain ⟨-, -, h⟩ := h
              rw [List.length_cons]
              by_cases hk : k.length = .none
              · -- one argument is consumed
                cases ap with
                | nil =>
                    rw [formatLoop_conversion_nil hk] at hloop
                    exact absurd hloop nofun
                | cons b ap =>
                    rw [formatLoop_conversion hk] at hloop
                    obtain ⟨cs, -, hloop'⟩ := Option.bind_eq_some_iff.mp hloop
                    have hleft := ih h hloop'
                    have hmod : Item.modified (.conversion k) = false := decide_eq_false (not_not.mpr hk)
                    rw [hmod, if_neg (by simp), List.length_cons]
                    omega
              · obtain ⟨cs, hcs⟩ := formatLoop_modified (m := m) (o := o) hk
                have hleft := ih h (hcs.symm.trans hloop)
                have hmod : Item.modified (.conversion k) = true := decide_eq_true hk
                rw [hmod, if_pos rfl]
                omega

/-- What the branch of a conversion without a modifier writes. -/
def Conversion.written (m : Mem) (a : ℕ) : Conversion → List Char
  | .num _ .x => numeral Nat.digitChar 16 a
  | .num _ .X => numeral upperDigit 16 a
  | k => k.render m a

/-- What a conversion writes. -/
theorem convert_eq (hk : k.length = .none) (ha : a < 2 ^ 64)
    (hs : k = .s → a ≠ 0 → ∃ cs, readString m stringBound a = some cs) :
    convert m k.char a = some (k.written m a) := by
  cases k with
  | s =>
      show (if a = 0 then some "(null)".toList else readString m stringBound a) = some (Conversion.render m a .s)
      unfold Conversion.render
      by_cases h0 : a = 0
      · rw [if_pos h0, if_pos h0]
      · obtain ⟨cs, hcs⟩ := hs rfl h0
        rw [if_neg h0, if_neg h0, hcs]
        rfl
  | c => rfl
  | p =>
      show some ('0' :: 'x' :: itoaHex a false) = some ('0' :: 'x' :: numeral Nat.digitChar 16 a)
      rw [itoaHex_eq ha]
      rfl
  | num length radix =>
      obtain rfl : length = .none := hk
      cases radix with
      | d =>
          show some (itoaDec ((a : ℤ).bmod (2 ^ 32)) false) = some (signed ((a : ℤ).bmod (2 ^ 32)))
          have hlo := Int.le_bmod (x := (a : ℤ)) (m := 2 ^ 32) (by norm_num)
          have hhi := Int.bmod_lt (x := (a : ℤ)) (m := 2 ^ 32) (by norm_num)
          rw [itoaDec_signed (by omega) (by omega)]
      | u =>
          show some (itoaDec (vaUnsigned a) true) = some (numeral Nat.digitChar 10 (a % 2 ^ 32))
          have hlt : a % 2 ^ 32 < 2 ^ 64 := by omega
          exact congrArg some (itoaDec_unsigned hlt)
      | x =>
          show some (itoaHex a false) = some (numeral Nat.digitChar 16 a)
          rw [itoaHex_eq ha]
          rfl
      | X =>
          show some (itoaHex a true) = some (numeral upperDigit 16 a)
          rw [itoaHex_eq ha]
          rfl

/-- `%x` writes at least the digits of the low half, and only those if the high half is 0. -/
theorem Conversion.written_length (hk : k.length = .none) :
    (k.render m a).length ≤ (k.written m a).length ∧
      ((k.written m a).length = (k.render m a).length → k.isHex = true → a < 2 ^ 32) := by
  have hhex : ∀ digit : ℕ → Char, (numeral digit 16 (a % 2 ^ 32)).length ≤ (numeral digit 16 a).length ∧
      ((numeral digit 16 a).length = (numeral digit 16 (a % 2 ^ 32)).length → a < 2 ^ 32) := by
    intro digit
    by_cases ha : a < 2 ^ 32
    · rw [Nat.mod_eq_of_lt ha]
      exact ⟨le_rfl, fun _ => ha⟩
    · have hlong : 8 < (numeral digit 16 a).length := lt_length_numeral (by norm_num) (by norm_num; omega)
      have hshort : (numeral digit 16 (a % 2 ^ 32)).length ≤ 8 :=
        length_numeral_le (by norm_num) (by norm_num) (by norm_num; omega)
      exact ⟨by omega, fun heq => by omega⟩
  cases k with
  | s => exact ⟨le_rfl, fun _ h => absurd h nofun⟩
  | c => exact ⟨le_rfl, fun _ h => absurd h nofun⟩
  | p => exact ⟨le_rfl, fun _ h => absurd h nofun⟩
  | num length radix =>
      obtain rfl : length = .none := hk
      cases radix with
      | d => exact ⟨le_rfl, fun _ h => absurd h nofun⟩
      | u => exact ⟨le_rfl, fun _ h => absurd h nofun⟩
      | x => exact ⟨(hhex _).1, fun heq _ => (hhex _).2 heq⟩
      | X => exact ⟨(hhex _).1, fun heq _ => (hhex _).2 heq⟩

/-- Within its bounds a conversion writes what it should. -/
theorem Conversion.written_eq (hk : k.length = .none) (ha : k.isHex = true → a < 2 ^ 32) :
    k.written m a = k.render m a := by
  cases k with
  | s => rfl
  | c => rfl
  | p => rfl
  | num length radix =>
      obtain rfl : length = .none := hk
      cases radix with
      | d => rfl
      | u => rfl
      | x =>
          show numeral Nat.digitChar 16 a = numeral Nat.digitChar 16 (a % 2 ^ 32)
          rw [Nat.mod_eq_of_lt (ha rfl)]
      | X =>
          show numeral upperDigit 16 a = numeral upperDigit 16 (a % 2 ^ 32)
          rw [Nat.mod_eq_of_lt (ha rfl)]

/-- A format without modifiers: what is written, and how it compares with what the format stands for. -/
theorem formatLoop_plain (h : Matches m items args) (hplain : items.countP Item.modified = 0) :
    ∃ cs, (∀ o, formatLoop m true outSz (formatOf items) args o = some (o.puts true outSz cs, [])) ∧
      (rendered m items args).length ≤ cs.length ∧
      (cs.length = (rendered m items args).length → Plain items args) ∧
      (Plain items args → cs = rendered m items args) := by
  induction items generalizing args with
  | nil =>
      obtain rfl : args = [] := h
      exact ⟨[], fun o => rfl, le_rfl, fun _ => trivial, fun _ => rfl⟩
  | cons item items ih =>
      have hfmt : formatOf (item :: items) = item.text ++ formatOf items := List.flatMap_cons
      rw [List.countP_cons, Nat.add_eq_zero_iff] at hplain
      obtain ⟨hrest, hitem⟩ := hplain
      rw [hfmt]
      cases item with
      | literal c =>
          obtain ⟨cs, hloop, hle, hlen, heq⟩ := ih h.2.2 hrest
          refine ⟨c :: cs, fun o => ?_, Nat.succ_le_succ hle, fun hl => hlen (Nat.succ.inj hl), fun hp => ?_⟩
          · exact (formatLoop_literal h.1).trans (hloop _)
          · rw [heq hp]
            rfl
      | percent =>
          obtain ⟨cs, hloop, hle, hlen, heq⟩ := ih h hrest
          refine ⟨'%' :: cs, fun o => ?_, Nat.succ_le_succ hle, fun hl => hlen (Nat.succ.inj hl), fun hp => ?_⟩
          · exact formatLoop_percent.trans (hloop _)
          · rw [heq hp]
            rfl
      | conversion k =>
          cases args with
          | nil => exact absurd h id
          | cons a args =>
              obtain ⟨ha, hs, h⟩ := h
              have hk : k.length = .none := by
                by_contra hcon
                have hmod : Item.modified (.conversion k) = true := decide_eq_true hcon
                rw [hmod, if_pos rfl] at hitem
                exact absurd hitem one_ne_zero
              obtain ⟨cs, hloop, hle, hlen, heq⟩ := ih h hrest
              obtain ⟨hkle, hklen⟩ := k.written_length (m := m) (a := a) hk
              have hrend : rendered m (.conversion k :: items) (a :: args)
                  = k.render m a ++ rendered m items args := rfl
              rw [hrend]
              refine ⟨k.written m a ++ cs, fun o => ?_, ?_, fun hl => ?_, fun hp => ?_⟩
              · rw [formatLoop_conversion hk, convert_eq hk ha hs, puts_append]
                exact hloop _
              · rw [List.length_append, List.length_append]
                omega
              · rw [List.length_append, List.length_append] at hl
                exact ⟨hk, hklen (by omega), hlen (by omega)⟩
              · rw [Conversion.written_eq hk hp.2.1, heq hp.2.2]

end loop

/-! ### When the text is right -/

/-- A plain format has no modifiers. -/
theorem Plain.countP {m : Mem} {items : List Item} {args : List ℕ} (h : Matches m items args)
    (hplain : Plain items args) : items.countP Item.modified = 0 := by
  induction items generalizing args with
  | nil => rfl
  | cons item items ih =>
      rw [List.countP_cons]
      cases item with
      | literal c =>
          rw [ih h.2.2 hplain]
          rfl
      | percent =>
          rw [ih h hplain]
          rfl
      | conversion k =>
          cases args with
          | nil => exact absurd h id
          | cons a args =>
              have hmod : Item.modified (.conversion k) = false := decide_eq_false (not_not.mpr hplain.1)
              rw [ih h.2.2 hplain.2.2, hmod]
              rfl

/-- On every format and every matching list of arguments, `kvsnprintf` writes what the format stands for exactly if
no conversion has a length modifier and the arguments of `%x` and `%X` have a high half of 0. -/
theorem renders_iff {m : Mem} {outSz : ℕ} (hsz : 0 < outSz) (buf : ℕ → Char) {items : List Item} {args : List ℕ}
    (h : Matches m items args) : Renders m outSz buf items args ↔ Plain items args := by
  constructor
  · rintro ⟨o, hcall, hpos, -, -⟩
    obtain ⟨⟨o', rest⟩, hloop, hres⟩ := Option.map_eq_some_iff.mp hcall
    obtain ⟨rfl, rfl⟩ := Prod.mk.inj hres
    have hcount : items.countP Item.modified = 0 := by
      have hleft := formatLoop_left h hloop
      rw [List.length_nil] at hleft
      omega
    obtain ⟨cs, hplain, -, hlen, -⟩ := formatLoop_plain h hcount
    rw [hplain] at hloop
    obtain ⟨rfl, -⟩ := Prod.mk.inj (Option.some.inj hloop)
    apply hlen
    rw [← hpos, (textOf_close hsz).2.1, puts_pos, Nat.zero_add]
  · intro hp
    obtain ⟨cs, hplain, -, -, heq⟩ := formatLoop_plain h (hp.countP h)
    obtain rfl := heq hp
    obtain ⟨htext, hpos, hend⟩ := textOf_close (o := (⟨buf, 0⟩ : Out).puts true outSz (rendered m items args)) hsz
    refine ⟨_, ?_, ?_, htext.trans (textOf_puts buf _), ?_⟩
    · unfold kvsnprintf
      rw [hplain]
      rfl
    · rw [hpos, puts_pos, Nat.zero_add]
    · rw [hpos]
      exact hend

/-- `"%d of %s"` with -1 and a null pointer. -/
theorem renders_iff_sample :
    Renders (fun _ => 0) 1024 (fun _ => ' ') [.conversion (.num .none .d), .literal ' ', .literal 'o', .literal 'f',
        .literal ' ', .conversion .s] [2 ^ 32 - 1, 0] ↔
      Plain [.conversion (.num .none .d), .literal ' ', .literal 'o', .literal 'f', .literal ' ', .conversion .s]
        [2 ^ 32 - 1, 0] := by
  refine renders_iff (by norm_num) _ ⟨by norm_num, nofun, by decide, by decide, by decide, by decide, by decide,
    by decide, by decide, by decide, by norm_num, fun _ h0 => absurd rfl h0, rfl⟩

/-- `"%zu"` is written as `"u"`, and its argument is left. -/
theorem size_not_rendered : ¬ ∀ (m : Mem) (outSz : ℕ) (buf : ℕ → Char) (items : List Item) (args : List ℕ),
    0 < outSz → Matches m items args → Renders m outSz buf items args := by
  intro h
  have hmatches : Matches (fun _ => 0) [.conversion (.num .z .u)] [4096] := ⟨by norm_num, nofun, rfl⟩
  obtain ⟨o, hcall, -⟩ := h (fun _ => 0) 1024 (fun _ => ' ') [.conversion (.num .z .u)] [4096] (by norm_num) hmatches
  have hleft : (kvsnprintf (fun _ => 0) true 1024 (formatOf [.conversion (.num .z .u)]) [4096]
      fun _ => ' ').map Prod.snd = some [4096] := by
    decide
  rw [hcall] at hleft
  exact absurd hleft (by simp)

end PrometheusKernel.Stdio
