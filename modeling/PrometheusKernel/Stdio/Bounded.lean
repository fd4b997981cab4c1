import PrometheusKernel.Stdio.Render

/-!
# Truncation

`kvsnprintf` decides in each branch anew whether a character still fits, and counts it in any case. The branches
write the same characters whatever the size of the buffer is (`formatLoop_text`), so that a call with a small
buffer leaves the beginning of what a call with a large one would, and both return the same length
(`bounded_prefix`).
-/

namespace PrometheusKernel.Stdio

open ByteMem

/-! ### Formats and arguments that belong together -/

/-- Each `%` that starts a conversion is followed by a character. -/
def Followed : List Char → Prop
  | [] => True
  | [c] => c ≠ '%'
  | c :: d :: fmt => if c ≠ '%' then Followed (d :: fmt) else Followed fmt

/-- There is an argument for each conversion that takes one, and the strings end. Further arguments are allowed. -/
def Supplied (m : Mem) : List Char → List ℕ → Prop
  | [], _ => True
  | [_], _ => True
  | c :: d :: fmt, ap =>
      if c ≠ '%' then Supplied m (d :: fmt) ap
      else if takesArgument d then
        match ap with
        | [] => False
        | a :: ap => (d = 's' → a ≠ 0 → ∃ cs, readString m stringBound a = some cs) ∧ Supplied m fmt ap
      else Supplied m fmt ap

/-! ### What the loop writes -/

section text

variable {m : Mem} {fmt : List Char} {ap : List ℕ}

/-- The branches that take an argument only stop at a string without an end. -/
theorem convert_isSome {d : Char} {a : ℕ} (h : d = 's' → a ≠ 0 → ∃ cs, readString m stringBound a = some cs) :
    ∃ cs, convert m d a = some cs := by
  unfold convert
  by_cases hs : d = 's'
  · rw [if_pos hs]
    by_cases h0 : a = 0
    · exact ⟨_, if_pos h0⟩
    · rw [if_neg h0]
      exact h hs h0
  · rw [if_neg hs]
    split_ifs <;> exact ⟨_, rfl⟩

/-- The characters that are written, and the arguments that are left, do not depend on the buffer. -/
theorem formatLoop_text (hfmt : Followed fmt) (hargs : Supplied m fmt ap) :
    ∃ text rest, ∀ out outSz o, formatLoop m out outSz fmt ap o = some (o.puts out outSz text, rest) := by
  induction fmt using Followed.induct generalizing ap with
  | case1 => exact ⟨[], ap, fun out outSz o => rfl⟩
  | case2 c => exact ⟨[c], ap, fun out outSz o => if_pos hfmt⟩
  | case3 c d fmt hc ih =>
      obtain ⟨text, rest, hloop⟩ := ih ((if_pos hc).mp hfmt) ((if_pos hc).mp hargs)
      exact ⟨c :: text, rest, fun out outSz o => (formatLoop_literal hc).trans (hloop out outSz _)⟩
  | case4 c d fmt hc ih =>
      obtain rfl : c = '%' := not_not.mp hc
      have hargs := (if_neg hc).mp hargs
      by_cases hpercent : d = '%'
      · -- `%%`
        subst hpercent
        obtain ⟨text, rest, hloop⟩ := ih ((if_neg hc).mp hfmt) ((if_neg (by decide)).mp hargs)
        exact ⟨'%' :: text, rest, fun out outSz o => formatLoop_percent.trans (hloop out outSz _)⟩
      · by_cases htakes : takesArgument d = true
        · rw [if_pos htakes] at hargs
          cases ap with
          | nil => exact absurd hargs id
          | cons a ap =>
              obtain ⟨hstring, hargs⟩ := hargs
              obtain ⟨cs, hcs⟩ := convert_isSome hstring
              obtain ⟨text, rest, hloop⟩ := ih ((if_neg hc).mp hfmt) hargs
              refine ⟨cs ++ text, rest, fun out outSz o => ?_⟩
              rw [formatLoop_takes hpercent htakes, hcs, puts_append]
              exact hloop out outSz _
        · obtain ⟨text, rest, hloop⟩ := ih ((if_neg hc).mp hfmt) ((if_neg htakes).mp hargs)
          exact ⟨text, rest, fun out outSz o => (formatLoop_unknown hpercent htakes).trans (hloop out outSz _)⟩

end text

/-! ### Where it is written -/

section writes

variable {outSz i : ℕ} {o : Out}

/-- A character that does not fit is only counted. -/
theorem put_frame (c : Char) (hi : outSz ≤ i) : (o.put true outSz c).buf i = o.buf i := by
  unfold Out.put
  by_cases hroom : o.pos + 1 < outSz
  · rw [if_pos ⟨rfl, hroom⟩]
    apply Function.update_of_ne
    omega
  · rw [if_neg fun hcon => hroom hcon.2]

/-- No character is stored behind the end of the buffer. -/
theorem puts_frame (cs : List Char) (hi : outSz ≤ i) : (o.puts true outSz cs).buf i = o.buf i := by
  induction cs generalizing o with
  | nil => rfl
  | cons c cs ih => exact ih.trans (put_frame c hi)

/-- The final 0 is stored inside the buffer. -/
theorem close_frame (hsz : 0 < outSz) (hi : outSz ≤ i) : (o.close true outSz).buf i = o.buf i := by
  unfold Out.close
  rw [if_pos ⟨rfl, by omega⟩]
  apply Function.update_of_ne
  split_ifs <;> omega

end writes

/-! ### Small and large buffers -/

section bounded

variable {m : Mem} {fmt : List Char} {ap : List ℕ} {outSz : ℕ} {text : List Char} {rest : List ℕ}

/-- `text` is what is written into every buffer that is large enough. -/
def Unbounded (m : Mem) (fmt : List Char) (ap : List ℕ) (text : List Char) : Prop :=
  ∀ outSz buf, text.length < outSz → ∃ o rest, kvsnprintf m true outSz fmt ap buf = some (o, rest) ∧
    o.pos = text.length ∧ (List.range o.pos).map o.buf = text

/-- The call with a buffer of `outSz` bytes leaves the beginning of `text` and a terminator, writes nowhere else,
and returns the length of all of `text`. -/
def Truncated (m : Mem) (outSz : ℕ) (fmt : List Char) (ap : List ℕ) (text : List Char) : Prop :=
  ∀ buf, ∃ o rest, kvsnprintf m true outSz fmt ap buf = some (o, rest) ∧
    (∀ i, outSz ≤ i → o.buf i = buf i) ∧
    (List.range (min text.length (outSz - 1))).map o.buf = text.take (outSz - 1) ∧
    o.buf (min text.length (outSz - 1)) = Char.ofNat 0 ∧
    (text.length < 2 ^ 31 → o.result = text.length)

/-- `kprintf` hands over the beginning of `text`, with a terminator, and returns the length of all of it. -/
def Printed (m : Mem) (fmt : List Char) (ap : List ℕ) (text : List Char) : Prop :=
  ∀ buf, ∃ buf', kprintf m fmt ap buf = some ((text.length : ℤ), buf') ∧
    (List.range (min text.length 1023)).map buf' = text.take 1023 ∧
    buf' (min text.length 1023) = Char.ofNat 0

/-- The result is the length, unless that is no `int`. -/
theorem result_eq {o : Out} (hpos : o.pos < 2 ^ 31) : o.result = o.pos := by
  unfold Out.result
  apply Int.bmod_eq_of_le <;> omega

/-- A call, from the loop. -/
theorem kvsnprintf_of_loop (hsz : 0 < outSz) (buf : ℕ → Char)
    (hloop : ∀ outSz o, formatLoop m true outSz fmt ap o = some (o.puts true outSz text, rest)) :
    ∃ o, kvsnprintf m true outSz fmt ap buf = some (o, rest) ∧ o.pos = text.length ∧
      (∀ i, outSz ≤ i → o.buf i = buf i) ∧ textOf outSz o = text.take (outSz - 1) ∧
      o.buf (min o.pos (outSz - 1)) = Char.ofNat 0 := by
  obtain ⟨htext, hpos, hend⟩ := textOf_close (o := (⟨buf, 0⟩ : Out).puts true outSz text) hsz
  refine ⟨((⟨buf, 0⟩ : Out).puts true outSz text).close true outSz, ?_, ?_, ?_, ?_, ?_⟩
  · unfold kvsnprintf
    rw [hloop]
    rfl
  · rw [hpos, puts_pos, Nat.zero_add]
  · intro i hi
    rw [close_frame hsz hi, puts_frame text hi]
  · exact htext.trans (textOf_puts buf text)
  · rw [hpos]
    exact hend

/-- What the loop writes, into a buffer that is large enough. -/
theorem unbounded_of_loop
    (hloop : ∀ outSz o, formatLoop m true outSz fmt ap o = some (o.puts true outSz text, rest)) :
    Unbounded m fmt ap text := by
  intro outSz buf hroom
  obtain ⟨o, hcall, hpos, -, htext, -⟩ := kvsnprintf_of_loop (Nat.zero_lt_of_lt hroom) buf hloop
  refine ⟨o, rest, hcall, hpos, ?_⟩
  unfold textOf at htext
  rw [min_eq_left (by omega)] at htext
  exact htext.trans (List.take_of_length_le (Nat.le_sub_one_of_lt hroom))

/-- What the loop writes, cut to the buffer. -/
theorem truncated_of_loop (hsz : 0 < outSz)
    (hloop : ∀ outSz o, formatLoop m true outSz fmt ap o = some (o.puts true outSz text, rest)) :
    Truncated m outSz fmt ap text := by
  intro buf
  obtain ⟨o, hcall, hpos, hframe, htext, hend⟩ := kvsnprintf_of_loop hsz buf hloop
  rw [← hpos]
  exact ⟨o, rest, hcall, hframe, htext, hend, fun hlen => result_eq hlen⟩

/-- The second terminator of `kprintf` lies on the first. -/
theorem printed_of_truncated (hlen : text.length < 2 ^ 31) (h : Truncated m 1024 fmt ap text) :
    Printed m fmt ap text := by
  intro buf
  obtain ⟨o, rest, hcall, -, htext, hend, hres⟩ := h buf
  have hmin : (if o.result < 1023 then o.result.toNat else 1023) = min text.length 1023 := by
    rw [hres hlen]
    split_ifs <;> omega
  refine ⟨o.buf, ?_, htext, hend⟩
  unfold kprintf
  rw [hcall, Option.bind_some]
  dsimp only
  rw [if_neg (by rw [hres hlen]; omega), hmin, hres hlen, ← hend]
  exact congrArg (fun b => some ((text.length : ℤ), b)) (Function.update_eq_self _ _)

/-- For every format whose conversions are followed by a character, and matching arguments, a call with a buffer of
any size leaves the beginning of what an unbounded call writes. -/
theorem bounded_prefix (hfmt : Followed fmt) (hargs : Supplied m fmt ap) :
    ∃ text, Unbounded m fmt ap text ∧ (∀ outSz, 0 < outSz → Truncated m outSz fmt ap text) ∧
      (text.length < 2 ^ 31 → Printed m fmt ap text) := by
  obtain ⟨text, rest, hloop⟩ := formatLoop_text hfmt hargs
  have hloop := hloop true
  refine ⟨text, unbounded_of_loop hloop, fun outSz hsz => truncated_of_loop hsz hloop, fun hlen => ?_⟩
  exact printed_of_truncated hlen (truncated_of_loop (by norm_num) hloop)

end bounded

/-- `"%p: %%%s"` with 255 and a null pointer. -/
theorem bounded_prefix_sample :
    ∃ text, Unbounded (fun _ => 0) ['%', 'p', ':', ' ', '%', '%', '%', 's'] [255, 0] text ∧
      (∀ outSz, 0 < outSz → Truncated (fun _ => 0) outSz ['%', 'p', ':', ' ', '%', '%', '%', 's'] [255, 0] text) ∧
      (text.length < 2 ^ 31 → Printed (fun _ => 0) ['%', 'p', ':', ' ', '%', '%', '%', 's'] [255, 0] text) := by
  apply bounded_prefix
  · simp [Followed]
  · simp [Supplied, takesArgument]

end PrometheusKernel.Stdio
