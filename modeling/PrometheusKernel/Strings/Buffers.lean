import Mathlib.Data.List.TakeWhile
import PrometheusKernel.Lib.Interleaving
import PrometheusKernel.Strings.Copy

/-!
# Strings in buffers: the other functions of `kernel/lib/string.c`

A string is a run of bytes up to the first 0. The loops look for this 0, so they have a bound here, and `none` is a loop
that does not find it within 2 ^ 64 bytes. Addresses do not wrap around: the buffers are below it.

What the writing functions write is one list of bytes (`put`): `strcpy_eq`, `strcat_eq`, `strncpy_eq`. So any calls on
disjoint buffers are operations on the lists of their bytes, and the comparisons give the lexicographic order
(`string_calls_refine`).
-/

namespace PrometheusKernel.Strings

open ByteMem Loop Interleaving

/-! ### The functions -/

/-- The number of turns of a loop that looks for the end of a string. -/
def stringTurns : ℕ := 2 ^ 64

/-- `memset`. -/
def memset (m : Mem) (dest c n : ℕ) : Mem := upTo n (fun i m => Function.update m (dest + i) (UInt8.ofNat c)) m

/-- The loop of `memcmp` from index `i` on, with `n` bytes to go. -/
def memcmpLoop (m : Mem) (s1 s2 : ℕ) : ℕ → ℕ → ℤ
  | 0, _ => 0
  | n + 1, i =>
      if m (s1 + i) ≠ m (s2 + i) then (m (s1 + i)).toNat - (m (s2 + i)).toNat else memcmpLoop m s1 s2 n (i + 1)

/-- `memcmp`. -/
def memcmp (m : Mem) (s1 s2 n : ℕ) : ℤ := memcmpLoop m s1 s2 n 0

/-- The loop of `strlen`. -/
def strlenLoop (m : Mem) (str : ℕ) : ℕ → ℕ → Option ℕ
  | 0, _ => none
  | turns + 1, l => if str ≠ 0 ∧ m (str + l) ≠ 0 then strlenLoop m str turns (l + 1) else some l

/-- `strlen`. -/
def strlen (m : Mem) (str : ℕ) : Option ℕ := strlenLoop m str stringTurns 0

/-- `while ((*d++ = *src++));`. -/
def copyLoop : ℕ → Mem → ℕ → ℕ → Option Mem
  | 0, _, _, _ => none
  | turns + 1, m, d, src =>
      let c := m src
      let m := Function.update m d c
      if c ≠ 0 then copyLoop turns m (d + 1) (src + 1) else some m

/-- `strcpy`. -/
def strcpy (m : Mem) (dest src : ℕ) : Option Mem := copyLoop stringTurns m dest src

/-- `while (*d) d++;`. -/
def endLoop (m : Mem) : ℕ → ℕ → Option ℕ
  | 0, _ => none
  | turns + 1, d => if m d ≠ 0 then endLoop m turns (d + 1) else some d

/-- `strcat`. -/
def strcat (m : Mem) (dest src : ℕ) : Option Mem := do
  let d ← endLoop m stringTurns dest
  copyLoop stringTurns m d src

/-- The first loop of `strncpy` from index `i` on, with `n` bytes to go; the index afterwards. -/
def strncpyLoop (dest src : ℕ) : ℕ → ℕ → Mem → ℕ × Mem
  | 0, i, m => (i, m)
  | n + 1, i, m =>
      if m (src + i) ≠ 0 then strncpyLoop dest src n (i + 1) (Function.update m (dest + i) (m (src + i))) else (i, m)

/-- `strncpy`. -/
def strncpy (m : Mem) (dest src n : ℕ) : Mem :=
  let res := strncpyLoop dest src n 0 m
  fill (n - res.1) res.2 (dest + res.1) 0

/-- The loop of `strcmp`. -/
def strcmpLoop (m : Mem) : ℕ → ℕ → ℕ → Option ℤ
  | 0, _, _ => none
  | turns + 1, s1, s2 =>
      if m s1 ≠ 0 ∧ m s1 = m s2 then strcmpLoop m turns (s1 + 1) (s2 + 1)
      else some ((m s1).toNat - (m s2).toNat)

/-- `strcmp`. -/
def strcmp (m : Mem) (s1 s2 : ℕ) : Option ℤ := strcmpLoop m stringTurns s1 s2

/-- The loop of `strncmp` from index `i` on, with `n` bytes to go. -/
def strncmpLoop (m : Mem) (s1 s2 : ℕ) : ℕ → ℕ → ℤ
  | 0, _ => 0
  | n + 1, i =>
      if m (s1 + i) ≠ m (s2 + i) ∨ m (s1 + i) = 0 ∨ m (s2 + i) = 0 then (m (s1 + i)).toNat - (m (s2 + i)).toNat
      else strncmpLoop m s1 s2 n (i + 1)

/-- `strncmp`. -/
def strncmp (m : Mem) (s1 s2 n : ℕ) : ℤ := strncmpLoop m s1 s2 n 0

/-! ### Bytes and strings in memory -/

/-- The bytes of a buffer. -/
def bytesAt (m : Mem) : ℕ → ℕ → List UInt8
  | _, 0 => []
  | a, n + 1 => m a :: bytesAt m (a + 1) n

/-- Bytes are written. -/
def put : Mem → ℕ → List UInt8 → Mem
  | m, _, [] => m
  | m, a, b :: bs => put (Function.update m a b) (a + 1) bs

/-- A string with its 0. -/
def Holds (m : Mem) : ℕ → List UInt8 → Prop
  | a, [] => m a = 0
  | a, b :: s => m a = b ∧ b ≠ 0 ∧ Holds m (a + 1) s

/-- The string at the beginning of a buffer. -/
def text (t : List UInt8) : List UInt8 := t.takeWhile (· ≠ 0)

/-- A list with some bytes in it replaced. -/
def splice (k : ℕ) (bs t : List UInt8) : List UInt8 := t.take k ++ bs ++ t.drop (k + bs.length)

section memory

variable {m m' : Mem} {a n : ℕ} {s t bs : List UInt8}

/-- A range has as many bytes as it is long. -/
theorem length_bytesAt (m : Mem) (a n : ℕ) : (bytesAt m a n).length = n := by
  induction n generalizing a with
  | zero => rfl
  | succ n ih => exact congrArg (· + 1) (ih (a + 1))

/-- The bytes of a range only depend on the range. -/
theorem bytesAt_congr (h : Set.EqOn m m' (Set.Ico a (a + n))) : bytesAt m a n = bytesAt m' a n := by
  induction n generalizing a with
  | zero => rfl
  | succ n ih =>
      have htail : Set.EqOn m m' (Set.Ico (a + 1) (a + 1 + n)) :=
        h.mono (Set.Ico_subset_Ico (Nat.le_succ a) (by omega))
      exact congrArg₂ List.cons (h ⟨le_rfl, by omega⟩) (ih htail)

/-- Bytes beside the range stay. -/
theorem put_apply {x : ℕ} (hx : x < a ∨ a + bs.length ≤ x) : put m a bs x = m x := by
  induction bs generalizing m a with
  | nil => rfl
  | cons b bs ih =>
      have hlen : (b :: bs).length = bs.length + 1 := rfl
      have hne : x ≠ a := by omega
      rw [put, ih (by omega), Function.update_of_ne hne]

/-- Bytes put in two stages. -/
theorem put_append (m : Mem) (a : ℕ) (s t : List UInt8) : put m a (s ++ t) = put (put m a s) (a + s.length) t := by
  induction s generalizing m a with
  | nil => rfl
  | cons b s ih =>
      have hlen : a + (b :: s).length = a + 1 + s.length := by
        rw [List.length_cons]
        omega
      rw [List.cons_append, put, ih, hlen, put]

/-- The bytes that were put are in front of the others. -/
theorem bytesAt_put (h : bs.length ≤ n) :
    bytesAt (put m a bs) a n = bs ++ (bytesAt m a n).drop bs.length := by
  induction bs generalizing m a n with
  | nil => rfl
  | cons b bs ih =>
      cases n with
      | zero => exact absurd h (Nat.not_succ_le_zero _)
      | succ n =>
          have hhead : put (Function.update m a b) (a + 1) bs a = b :=
            (put_apply (Or.inl (Nat.lt_succ_self a))).trans (Function.update_self a b m)
          have htail : bytesAt (Function.update m a b) (a + 1) n = bytesAt m (a + 1) n :=
            bytesAt_congr fun x hx => Function.update_of_ne (by have := hx.1; omega) b m
          rw [put, bytesAt, hhead, ih (Nat.le_of_succ_le_succ h), htail]
          rfl

/-- Bytes written into a buffer from place `k` on. -/
theorem bytesAt_put_add {k : ℕ} (h : k + bs.length ≤ n) :
    bytesAt (put m (a + k) bs) a n = splice k bs (bytesAt m a n) := by
  unfold splice
  induction k generalizing a n with
  | zero =>
      rw [Nat.add_zero, Nat.zero_add, List.take_zero, List.nil_append]
      exact bytesAt_put (by omega)
  | succ k ih =>
      cases n with
      | zero => exact absurd h (by omega)
      | succ n =>
          have hhead : put m (a + (k + 1)) bs a = m a := put_apply (Or.inl (by omega))
          have hplace : a + (k + 1) = a + 1 + k := by omega
          have hdrop : k + 1 + bs.length = k + bs.length + 1 := by omega
          rw [bytesAt, bytesAt, hhead, hplace, ih (by omega), hdrop]
          rfl

/-- A string in memory only depends on its bytes and its end. -/
theorem Holds.congr (h : Holds m a s) (heq : Set.EqOn m m' (Set.Icc a (a + s.length))) : Holds m' a s := by
  induction s generalizing a with
  | nil => exact (heq ⟨le_rfl, Nat.le_add_right a 0⟩).symm.trans h
  | cons b s ih =>
      have hlen : (b :: s).length = s.length + 1 := rfl
      obtain ⟨hhead, hb, htail⟩ := h
      refine ⟨(heq ⟨le_rfl, by omega⟩).symm.trans hhead, hb, ih htail (heq.mono (Set.Icc_subset_Icc ?_ ?_))⟩
      · exact Nat.le_succ a
      · omega

/-- The string of a terminated buffer. -/
theorem holds_text (h : 0 ∈ bytesAt m a n) : Holds m a (text (bytesAt m a n)) := by
  induction n generalizing a with
  | zero => exact absurd h List.not_mem_nil
  | succ n ih =>
      unfold text
      rw [bytesAt]
      by_cases hzero : m a = 0
      · rw [List.takeWhile_cons_of_neg (by simpa using hzero)]
        exact hzero
      · rw [List.takeWhile_cons_of_pos (by simpa using hzero)]
        refine ⟨rfl, hzero, ih ?_⟩
        rcases List.mem_cons.mp h with heq | hmem
        · exact absurd heq.symm hzero
        · exact hmem

/-- The text before a 0 is shorter than the whole. -/
theorem length_text_lt (h : 0 ∈ t) : (text t).length < t.length := by
  refine lt_of_le_of_ne (List.takeWhile_prefix _).length_le fun hlen => ?_
  have heq : text t = t := (List.takeWhile_prefix _).eq_of_length hlen
  have hzero := List.takeWhile_eq_self_iff.mp heq 0 h
  simp at hzero

end memory

/-! ### What the functions do -/

section functions

variable {m : Mem} {a d n : ℕ} {s t : List UInt8}

/-- `memset` puts a byte many times. -/
theorem memset_eq (m : Mem) (dest c n : ℕ) : memset m dest c n = put m dest (List.replicate n (UInt8.ofNat c)) := by
  unfold memset
  induction n with
  | zero => rfl
  | succ n ih =>
      rw [upTo_succ, ih, List.replicate_succ', put_append, List.length_replicate]
      rfl

/-- A fill puts a byte many times. -/
theorem fill_eq (m : Mem) (dest n : ℕ) (b : UInt8) : fill n m dest b = put m dest (List.replicate n b) := by
  induction n generalizing m dest with
  | zero => rfl
  | succ n ih => exact ih _ _

/-- A loop that has turns for more than `k` bytes has one for the first of them. -/
theorem exists_turn {k turns : ℕ} (h : k < turns) : ∃ rest, turns = rest + 1 ∧ k ≤ rest := by
  obtain ⟨rest, rfl⟩ := Nat.exists_eq_succ_of_ne_zero (Nat.ne_of_gt (Nat.zero_lt_of_lt h))
  exact ⟨rest, rfl, Nat.le_of_lt_succ h⟩

/-- The loop of `strlen` counts to the end. -/
theorem strlenLoop_eq {str l turns : ℕ} (h : Holds m (str + l) s) (hstr : str ≠ 0) (hturns : s.length < turns) :
    strlenLoop m str turns l = some (l + s.length) := by
  induction s generalizing l turns with
  | nil =>
      obtain ⟨turns, rfl, -⟩ := exists_turn hturns
      have hend : m (str + l) = 0 := h
      rw [strlenLoop, if_neg (fun hcon => hcon.2 hend)]
      rfl
  | cons b s ih =>
      obtain ⟨turns, rfl, hrest⟩ := exists_turn hturns
      obtain ⟨hhead, hb, htail⟩ := h
      have hnext := ih (l := l + 1) htail hrest
      rw [strlenLoop, if_pos ⟨hstr, by rw [hhead]; exact hb⟩, hnext, List.length_cons]
      congr 1
      omega

/-- `strlen`. -/
theorem strlen_eq (h : Holds m a s) (ha : a ≠ 0) (hlen : s.length < 2 ^ 64) : strlen m a = some s.length :=
  (strlenLoop_eq (l := 0) h ha hlen).trans (congrArg some (Nat.zero_add s.length))

/-- The loop of `strcat` goes to the end. -/
theorem endLoop_eq {turns : ℕ} (h : Holds m d s) (hturns : s.length < turns) :
    endLoop m turns d = some (d + s.length) := by
  induction s generalizing d turns with
  | nil =>
      obtain ⟨turns, rfl, -⟩ := exists_turn hturns
      have hend : m d = 0 := h
      rw [endLoop, if_neg (not_not.mpr hend)]
      rfl
  | cons b s ih =>
      obtain ⟨turns, rfl, hrest⟩ := exists_turn hturns
      obtain ⟨hhead, hb, htail⟩ := h
      rw [endLoop, if_pos (by rw [hhead]; exact hb), ih htail hrest, List.length_cons]
      congr 1
      omega

/-- A string is copied with its 0, if it does not meet its copy. -/
theorem copyLoop_eq {turns : ℕ} (h : Holds m a s) (hmeet : a + s.length < d ∨ d + s.length < a)
    (hturns : s.length < turns) : copyLoop turns m d a = some (put m d (s ++ [0])) := by
  induction s generalizing m a d turns with
  | nil =>
      obtain ⟨turns, rfl, -⟩ := exists_turn hturns
      have hend : m a = 0 := h
      rw [copyLoop, hend]
      rfl
  | cons b s ih =>
      obtain ⟨turns, rfl, hrest⟩ := exists_turn hturns
      obtain ⟨hhead, hb, htail⟩ := h
      have hlen : (b :: s).length = s.length + 1 := rfl
      have hkept : Holds (Function.update m d b) (a + 1) s := by
        refine htail.congr fun x hx => (Function.update_of_ne ?_ b m).symm
        have h1 := hx.1
        have h2 := hx.2
        omega
      rw [copyLoop, hhead, if_pos hb]
      exact ih hkept (by omega) hrest

/-- `strcpy`. -/
theorem strcpy_eq (h : Holds m a s) (hmeet : a + s.length < d ∨ d + s.length < a) (hlen : s.length < 2 ^ 64) :
    strcpy m d a = some (put m d (s ++ [0])) :=
  copyLoop_eq h hmeet hlen

/-- `strcat`. -/
theorem strcat_eq (hdest : Holds m d t) (h : Holds m a s)
    (hmeet : a + s.length < d + t.length ∨ d + t.length + s.length < a) (ht : t.length < 2 ^ 64)
    (hs : s.length < 2 ^ 64) : strcat m d a = some (put m (d + t.length) (s ++ [0])) := by
  unfold strcat
  rw [show endLoop m stringTurns d = some (d + t.length) from endLoop_eq hdest ht]
  exact copyLoop_eq h hmeet hs

/-- The loop of `strncpy` copies up to its bound. -/
theorem strncpyLoop_eq {i : ℕ} (h : Holds m (a + i) s) (hmeet : a + i + s.length < d + i ∨ d + i + n ≤ a + i) :
    strncpyLoop d a n i m = (i + (s.take n).length, put m (d + i) (s.take n)) := by
  induction n generalizing m i s with
  | zero => rfl
  | succ n ih =>
      cases s with
      | nil =>
          have hend : m (a + i) = 0 := h
          rw [strncpyLoop, if_neg (not_not.mpr hend)]
          rfl
      | cons b s =>
          obtain ⟨hhead, hb, htail⟩ := h
          have hlen : (b :: s).length = s.length + 1 := rfl
          have hkept : Holds (Function.update m (d + i) b) (a + (i + 1)) s := by
            refine htail.congr fun x hx => (Function.update_of_ne ?_ b m).symm
            have h1 := hx.1
            have h2 := hx.2
            omega
          rw [strncpyLoop, hhead, if_pos hb, ih hkept (by omega), List.take_succ_cons, List.length_cons]
          exact Prod.ext (by dsimp only; omega) rfl

/-- `strncpy`: the string or its first `n` bytes, and 0 up to `n` bytes. -/
theorem strncpy_eq (h : Holds m a s) (hmeet : a + s.length < d ∨ d + n ≤ a) :
    strncpy m d a n = put m d (s.take n ++ List.replicate (n - s.length) 0) := by
  have hloop := strncpyLoop_eq (n := n) (i := 0) (d := d) h hmeet
  have hrest : n - (0 + (s.take n).length) = n - s.length := by
    rw [List.length_take]
    omega
  unfold strncpy
  rw [hloop]
  dsimp only
  rw [hrest, fill_eq, put_append, Nat.zero_add, Nat.add_zero]

/-! ### The comparisons -/

/-- The difference of the first bytes that differ, where a list that has ended counts as 0. -/
def difference : List UInt8 → List UInt8 → ℤ
  | [], [] => 0
  | b :: _, [] => b.toNat
  | [], c :: _ => -c.toNat
  | b :: s, c :: t => if b = c then difference s t else b.toNat - c.toNat

/-- `memcmp`. -/
theorem memcmpLoop_eq (m : Mem) (a d n i : ℕ) :
    memcmpLoop m a d n i = difference (bytesAt m (a + i) n) (bytesAt m (d + i) n) := by
  induction n generalizing i with
  | zero => rfl
  | succ n ih =>
      rw [memcmpLoop, bytesAt, bytesAt, difference, ih]
      by_cases heq : m (a + i) = m (d + i)
      · rw [if_neg (not_not.mpr heq), if_pos heq]
        rfl
      · rw [if_pos heq, if_neg heq]

/-- `strcmp`. -/
theorem strcmpLoop_eq {turns : ℕ} (hs : Holds m a s) (ht : Holds m d t) (hturns : s.length < turns) :
    strcmpLoop m turns a d = some (difference s t) := by
  induction s generalizing a d t turns with
  | nil =>
      obtain ⟨turns, rfl, -⟩ := exists_turn hturns
      have hend : m a = 0 := hs
      rw [strcmpLoop, if_neg (fun hcon => hcon.1 hend), hend]
      cases t with
      | nil =>
          have hend' : m d = 0 := ht
          rw [hend']
          rfl
      | cons c t =>
          rw [ht.1]
          exact congrArg some (zero_sub _)
  | cons b s ih =>
      obtain ⟨turns, rfl, hrest⟩ := exists_turn hturns
      obtain ⟨hhead, hb, htail⟩ := hs
      rw [strcmpLoop, hhead]
      cases t with
      | nil =>
          have hend' : m d = 0 := ht
          rw [hend', if_neg (fun hcon => hb hcon.2)]
          exact congrArg some (sub_zero _)
      | cons c t =>
          obtain ⟨hhead', hc, htail'⟩ := ht
          rw [hhead', difference]
          by_cases heq : b = c
          · rw [if_pos ⟨hb, heq⟩, if_pos heq]
            exact ih htail htail' hrest
          · rw [if_neg (fun hcon => heq hcon.2), if_neg heq]

/-- `strncmp`. -/
theorem strncmpLoop_eq {i : ℕ} (hs : Holds m (a + i) s) (ht : Holds m (d + i) t) :
    strncmpLoop m a d n i = difference (s.take n) (t.take n) := by
  induction n generalizing i s t with
  | zero => rfl
  | succ n ih =>
      rw [strncmpLoop]
      cases s with
      | nil =>
          have hend : m (a + i) = 0 := hs
          rw [if_pos (Or.inr (Or.inl hend)), hend]
          cases t with
          | nil =>
              have hend' : m (d + i) = 0 := ht
              rw [hend']
              rfl
          | cons c t =>
              rw [ht.1]
              exact zero_sub _
      | cons b s =>
          obtain ⟨hhead, hb, htail⟩ := hs
          cases t with
          | nil =>
              have hend' : m (d + i) = 0 := ht
              rw [if_pos (Or.inr (Or.inr hend')), hend', hhead]
              exact sub_zero _
          | cons c t =>
              obtain ⟨hhead', hc, htail'⟩ := ht
              rw [hhead, hhead', List.take_succ_cons, List.take_succ_cons, difference]
              by_cases heq : b = c
              · rw [if_neg (by rintro (hne | hzero | hzero) <;> contradiction), if_pos heq]
                exact ih htail htail'
              · rw [if_pos (Or.inl heq), if_neg heq]

end functions

/-! ### The order of strings -/

/-- The lexicographic order: -1, 0 or 1. -/
def order (s t : List UInt8) : ℤ := if s < t then -1 else if s = t then 0 else 1

/-- There is no 0 in a text. -/
theorem zero_notMem_text (t : List UInt8) : 0 ∉ text t := fun h => by
  have hzero := List.mem_takeWhile_imp h
  simp at hzero

/-- The sign of a comparison, of strings or of as many bytes. -/
theorem sign_difference {s t : List UInt8} (h : s.length = t.length ∨ 0 ∉ s ∧ 0 ∉ t) :
    (difference s t).sign = order s t := by
  induction s generalizing t with
  | nil =>
      cases t with
      | nil => rfl
      | cons c t =>
          have hc : c ≠ 0 := by
            rcases h with hlen | ⟨-, hzero⟩
            · cases hlen
            · exact fun heq => hzero (List.mem_cons.mpr (Or.inl heq.symm))
          have hpos : 0 < c.toNat := Nat.pos_of_ne_zero fun heq => hc (UInt8.toNat_inj.mp heq)
          unfold order
          rw [if_pos (List.nil_lt_cons c t), difference]
          exact Int.sign_eq_neg_one_of_neg (by omega)
  | cons b s ih =>
      cases t with
      | nil =>
          have hb : b ≠ 0 := by
            rcases h with hlen | ⟨hzero, -⟩
            · cases hlen
            · exact fun heq => hzero (List.mem_cons.mpr (Or.inl heq.symm))
          have hpos : 0 < b.toNat := Nat.pos_of_ne_zero fun heq => hb (UInt8.toNat_inj.mp heq)
          unfold order
          rw [if_neg (List.not_lt_nil _), if_neg (List.cons_ne_nil b s), difference]
          exact Int.sign_eq_one_of_pos (by omega)
      | cons c t =>
          rw [difference]
          by_cases heq : b = c
          · subst heq
            have htail : s.length = t.length ∨ 0 ∉ s ∧ 0 ∉ t := by
              rcases h with hlen | ⟨hs, ht⟩
              · exact Or.inl (Nat.succ.inj hlen)
              · exact Or.inr ⟨mt (List.mem_cons_of_mem b) hs, mt (List.mem_cons_of_mem b) ht⟩
            rw [if_pos rfl, ih htail]
            unfold order
            simp only [List.cons_lt_cons_self, List.cons.injEq, true_and]
          · have hne : b :: s ≠ c :: t := fun hcon => heq (List.cons.inj hcon).1
            have hlt : b :: s < c :: t ↔ b.toNat < c.toNat := by
              rw [List.cons_lt_cons_iff, UInt8.lt_iff_toNat_lt]
              exact or_iff_left fun hcon => heq hcon.1
            have hnat : b.toNat ≠ c.toNat := fun hcon => heq (UInt8.toNat_inj.mp hcon)
            unfold order
            rw [if_neg heq, if_neg hne]
            split_ifs with hless
            · have := hlt.mp hless
              exact Int.sign_eq_neg_one_of_neg (by omega)
            · have := mt hlt.mpr hless
              exact Int.sign_eq_one_of_pos (by omega)

/-! ### Calls on buffers -/

/-- Disjoint buffers. -/
structure Buffers (ι : Type) where
  addr : ι → ℕ
  size : ι → ℕ
  addr_ne_zero : ∀ i, addr i ≠ 0
  below : ∀ i, addr i + size i ≤ 2 ^ 64
  disjoint : ∀ i j, i ≠ j → addr i + size i ≤ addr j ∨ addr j + size j ≤ addr i

/-- A call; the target comes first. -/
inductive StringCall (ι : Type)
  | memset (i : ι) (c n : ℕ)
  | memcmp (i j : ι) (n : ℕ)
  | strlen (i : ι)
  | strcpy (i j : ι)
  | strncpy (i j : ι) (n : ℕ)
  | strcat (i j : ι)
  | strcmp (i j : ι)
  | strncmp (i j : ι) (n : ℕ)
deriving DecidableEq

section calls

variable {ι : Type} (B : Buffers ι)

/-- A call: what it returns, and memory. -/
def call (m : Mem) : StringCall ι → Option (ℤ × Mem)
  | .memset i c n => some (B.addr i, memset m (B.addr i) c n)
  | .memcmp i j n => some (memcmp m (B.addr i) (B.addr j) n, m)
  | .strlen i => (strlen m (B.addr i)).map fun l => ((l : ℤ), m)
  | .strcpy i j => (strcpy m (B.addr i) (B.addr j)).map fun m => ((B.addr i : ℤ), m)
  | .strncpy i j n => some (B.addr i, strncpy m (B.addr i) (B.addr j) n)
  | .strcat i j => (strcat m (B.addr i) (B.addr j)).map fun m => ((B.addr i : ℤ), m)
  | .strcmp i j => (strcmp m (B.addr i) (B.addr j)).map fun r => (r, m)
  | .strncmp i j n => some (strncmp m (B.addr i) (B.addr j) n, m)

/-- Of a comparison only the sign counts. -/
def seen : StringCall ι → ℤ → ℤ
  | .memcmp .., r => r.sign
  | .strcmp .., r => r.sign
  | .strncmp .., r => r.sign
  | _, r => r

/-- A call in memory, which appends what is seen of its result. -/
def callStep (w : Mem × List ℤ) (c : StringCall ι) : Option (Mem × List ℤ) :=
  (call B w.1 c).map fun res => (res.2, w.2 ++ [seen c res.1])

/-- A call on lists of bytes, where it is defined: strings end within their buffers, what is written fits, and the
source of a copy is another buffer. -/
def listCall [DecidableEq ι] (t : ι → List UInt8) : StringCall ι → Option (ℤ × (ι → List UInt8))
  | .memset i c n =>
      if n ≤ (t i).length then
        some (B.addr i, Function.update t i (splice 0 (List.replicate n (UInt8.ofNat c)) (t i)))
      else none
  | .memcmp i j n =>
      if n ≤ (t i).length ∧ n ≤ (t j).length then some (order ((t i).take n) ((t j).take n), t) else none
  | .strlen i => if 0 ∈ t i then some ((text (t i)).length, t) else none
  | .strcpy i j =>
      if i ≠ j ∧ 0 ∈ t j ∧ (text (t j)).length < (t i).length then
        some (B.addr i, Function.update t i (splice 0 (text (t j) ++ [0]) (t i)))
      else none
  | .strncpy i j n =>
      if i ≠ j ∧ 0 ∈ t j ∧ n ≤ (t i).length then
        some (B.addr i, Function.update t i
          (splice 0 ((text (t j)).take n ++ List.replicate (n - (text (t j)).length) 0) (t i)))
      else none
  | .strcat i j =>
      if i ≠ j ∧ 0 ∈ t i ∧ 0 ∈ t j ∧ (text (t i)).length + (text (t j)).length < (t i).length then
        some (B.addr i, Function.update t i (splice (text (t i)).length (text (t j) ++ [0]) (t i)))
      else none
  | .strcmp i j => if 0 ∈ t i ∧ 0 ∈ t j then some (order (text (t i)) (text (t j)), t) else none
  | .strncmp i j n =>
      if 0 ∈ t i ∧ 0 ∈ t j then some (order ((text (t i)).take n) ((text (t j)).take n), t) else none

/-- A call on lists, which appends its result. -/
def listStep [DecidableEq ι] (w : (ι → List UInt8) × List ℤ) (c : StringCall ι) :
    Option ((ι → List UInt8) × List ℤ) :=
  (listCall B w.1 c).map fun res => (res.2, w.2 ++ [res.1])

/-- The buffers have these bytes. -/
def HasBytes (m : Mem) (t : ι → List UInt8) : Prop := ∀ i, bytesAt m (B.addr i) (B.size i) = t i

/-- Nothing outside the buffers changes. -/
def KeepsRest (m m' : Mem) : Prop := ∀ x, (∀ i, x < B.addr i ∨ B.addr i + B.size i ≤ x) → m' x = m x

/-! ### The refinement -/

variable {B} {m : Mem} {t : ι → List UInt8} {i j : ι} {n : ℕ}

/-- The buffers keep their lengths. -/
theorem HasBytes.length (h : HasBytes B m t) (i : ι) : (t i).length = B.size i := by
  rw [← h i, length_bytesAt]

/-- The string of a buffer in memory. -/
theorem HasBytes.holds (h : HasBytes B m t) (hzero : 0 ∈ t i) : Holds m (B.addr i) (text (t i)) := by
  rw [← h i] at hzero ⊢
  exact holds_text hzero

/-- It ends within the buffer, so all loops find its end. -/
theorem HasBytes.length_text (h : HasBytes B m t) (hzero : 0 ∈ t i) :
    (text (t i)).length < B.size i ∧ (text (t i)).length < 2 ^ 64 := by
  have hlt := length_text_lt hzero
  have hbelow := B.below i
  rw [h.length i] at hlt
  exact ⟨hlt, by omega⟩

/-- Bytes written into a buffer. -/
theorem HasBytes.write [DecidableEq ι] (h : HasBytes B m t) {k : ℕ} {bs : List UInt8}
    (hk : k + bs.length ≤ (t i).length) :
    HasBytes B (put m (B.addr i + k) bs) (Function.update t i (splice k bs (t i))) ∧
      KeepsRest B m (put m (B.addr i + k) bs) := by
  have hlen := h.length i
  constructor
  · intro l
    rcases eq_or_ne l i with rfl | hne
    · rw [bytesAt_put_add (by omega), h l, Function.update_self]
    · have hapart := B.disjoint l i hne
      rw [Function.update_of_ne hne, ← h l]
      refine bytesAt_congr fun x hx => put_apply ?_
      have h1 := hx.1
      have h2 := hx.2
      omega
  · intro x hx
    have hout := hx i
    exact put_apply (by omega)

/-- A prefix of a buffer. -/
theorem bytesAt_take (m : Mem) {a k n : ℕ} (hk : k ≤ n) : (bytesAt m a n).take k = bytesAt m a k := by
  induction k generalizing a n with
  | zero => rfl
  | succ k ih =>
      cases n with
      | zero => exact absurd hk (Nat.not_succ_le_zero k)
      | succ n =>
          rw [bytesAt, List.take_succ_cons, ih (Nat.le_of_succ_le_succ hk)]
          rfl

/-- What a call does in memory. -/
def Refines (B : Buffers ι) (m : Mem) (c : StringCall ι) (res : ℤ × (ι → List UInt8)) : Prop :=
  ∃ r m', call B m c = some (r, m') ∧ seen c r = res.1 ∧ HasBytes B m' res.2 ∧ KeepsRest B m m'

/-- A call that only reads. -/
theorem Refines.reads {c : StringCall ι} {r r' : ℤ} (h : HasBytes B m t) (hcall : call B m c = some (r, m))
    (hseen : seen c r = r') : Refines B m c (r', t) :=
  ⟨r, m, hcall, hseen, h, fun _ _ => rfl⟩

/-- A call that writes into one buffer. -/
theorem Refines.writes [DecidableEq ι] {c : StringCall ι} {r : ℤ} {k : ℕ} {bs : List UInt8}
    (h : HasBytes B m t) (hcall : call B m c = some (r, put m (B.addr i + k) bs)) (hseen : seen c r = r)
    (hk : k + bs.length ≤ (t i).length) : Refines B m c (r, Function.update t i (splice k bs (t i))) :=
  ⟨r, _, hcall, hseen, h.write hk⟩

/-- One call. -/
theorem HasBytes.refines [DecidableEq ι] (h : HasBytes B m t) {c : StringCall ι} {res : ℤ × (ι → List UInt8)}
    (hcall : listCall B t c = some res) : Refines B m c res := by
  cases c with
  | memset i c n =>
      obtain ⟨hn, hsome⟩ := Option.ite_none_right_eq_some.mp hcall
      obtain rfl := Option.some.inj hsome
      refine Refines.writes h ?_ rfl ?_
      · exact congrArg (fun m' => some ((B.addr i : ℤ), m')) (memset_eq m (B.addr i) c n)
      · rw [List.length_replicate]
        omega
  | memcmp i j n =>
      obtain ⟨⟨hi, hj⟩, hsome⟩ := Option.ite_none_right_eq_some.mp hcall
      obtain rfl := Option.some.inj hsome
      refine Refines.reads h rfl ?_
      change (memcmpLoop m (B.addr i) (B.addr j) n 0).sign = _
      rw [memcmpLoop_eq, Nat.add_zero, Nat.add_zero, sign_difference (Or.inl (by rw [length_bytesAt, length_bytesAt])),
        ← h i, ← h j, bytesAt_take m (by rw [← h.length i]; exact hi), bytesAt_take m (by rw [← h.length j]; exact hj)]
  | strlen i =>
      obtain ⟨hi, hsome⟩ := Option.ite_none_right_eq_some.mp hcall
      obtain rfl := Option.some.inj hsome
      refine Refines.reads h ?_ rfl
      unfold call
      dsimp only
      rw [strlen_eq (h.holds hi) (B.addr_ne_zero i) (h.length_text hi).2]
      rfl
  | strcpy i j =>
      obtain ⟨⟨hij, hj, hfits⟩, hsome⟩ := Option.ite_none_right_eq_some.mp hcall
      obtain rfl := Option.some.inj hsome
      have hapart := B.disjoint i j hij
      have hlen := h.length i
      obtain ⟨hwithin, hbound⟩ := h.length_text hj
      refine Refines.writes h ?_ rfl ?_
      · exact congrArg (Option.map fun m' => ((B.addr i : ℤ), m')) (strcpy_eq (h.holds hj) (by omega) hbound)
      · rw [List.length_append, List.length_singleton]
        omega
  | strncpy i j n =>
      obtain ⟨⟨hij, hj, hfits⟩, hsome⟩ := Option.ite_none_right_eq_some.mp hcall
      obtain rfl := Option.some.inj hsome
      have hapart := B.disjoint i j hij
      have hlen := h.length i
      obtain ⟨hwithin, -⟩ := h.length_text hj
      refine Refines.writes h ?_ rfl ?_
      · exact congrArg (fun m' => some ((B.addr i : ℤ), m')) (strncpy_eq (h.holds hj) (by omega))
      · rw [List.length_append, List.length_take, List.length_replicate]
        omega
  | strcat i j =>
      obtain ⟨⟨hij, hi, hj, hfits⟩, hsome⟩ := Option.ite_none_right_eq_some.mp hcall
      obtain rfl := Option.some.inj hsome
      have hapart := B.disjoint i j hij
      have hlen := h.length i
      obtain ⟨-, hbound⟩ := h.length_text hi
      obtain ⟨hwithin, hbound'⟩ := h.length_text hj
      refine Refines.writes h ?_ rfl ?_
      · exact congrArg (Option.map fun m' => ((B.addr i : ℤ), m'))
          (strcat_eq (h.holds hi) (h.holds hj) (by omega) hbound hbound')
      · rw [List.length_append, List.length_singleton]
        omega
  | strcmp i j =>
      obtain ⟨⟨hi, hj⟩, hsome⟩ := Option.ite_none_right_eq_some.mp hcall
      obtain rfl := Option.some.inj hsome
      refine Refines.reads h ?_ (sign_difference (Or.inr ⟨zero_notMem_text (t i), zero_notMem_text (t j)⟩))
      exact congrArg (Option.map fun r => (r, m)) (strcmpLoop_eq (h.holds hi) (h.holds hj) (h.length_text hi).2)
  | strncmp i j n =>
      obtain ⟨⟨hi, hj⟩, hsome⟩ := Option.ite_none_right_eq_some.mp hcall
      obtain rfl := Option.some.inj hsome
      refine Refines.reads h rfl ?_
      change (strncmpLoop m (B.addr i) (B.addr j) n 0).sign = _
      rw [strncmpLoop_eq (h.holds hi) (h.holds hj)]
      exact sign_difference (Or.inr ⟨fun hmem => zero_notMem_text (t i) (List.mem_of_mem_take hmem),
        fun hmem => zero_notMem_text (t j) (List.mem_of_mem_take hmem)⟩)

end calls

/-- Calls of the string functions on disjoint buffers, each with its arguments terminated and the result fitting, are
the calls on the lists of their bytes: every call returns, the results (of comparisons the sign) and all bytes are the
same, and nothing outside the buffers changes. -/
theorem string_calls_refine {ι : Type} [DecidableEq ι] (B : Buffers ι) (m : Mem) (t : ι → List UInt8)
    (h : HasBytes B m t) (cs : List (StringCall ι)) (rs : List ℤ) (w : (ι → List UInt8) × List ℤ)
    (hexec : exec (listStep B) (t, rs) cs = some w) :
    ∃ m', exec (callStep B) (m, rs) cs = some (m', w.2) ∧ HasBytes B m' w.1 ∧ KeepsRest B m m' := by
  induction cs generalizing m t rs with
  | nil =>
      obtain rfl := Option.some.inj hexec
      exact ⟨m, rfl, h, fun _ _ => rfl⟩
  | cons c cs ih =>
      obtain ⟨w₁, hstep, hrest⟩ := exec_cons hexec
      obtain ⟨res, hres, rfl⟩ := Option.map_eq_some_iff.mp hstep
      obtain ⟨r, m₁, hcall, hseen, h₁, hkeep₁⟩ := h.refines hres
      obtain ⟨m', hexec', h', hkeep'⟩ := ih m₁ res.2 h₁ (rs ++ [res.1]) hrest
      refine ⟨m', ?_, h', fun x hx => (hkeep' x hx).trans (hkeep₁ x hx)⟩
      have hcallStep : callStep B (m, rs) c = some (m₁, rs ++ [res.1]) := by
        unfold callStep
        rw [hcall, ← hseen]
        rfl
      unfold exec
      rw [List.foldlM_cons, hcallStep]
      exact hexec'

/-- Two buffers of 8 bytes. -/
def twoBuffers : Buffers (Fin 2) where
  addr i := 0x1000 + 8 * i
  size _ := 8
  addr_ne_zero i := by omega
  below i := by omega
  disjoint i j h := by omega

/-- Some calls on them. -/
def greeting : List (StringCall (Fin 2)) :=
  [.strcpy 1 0, .strcat 1 0, .strlen 1, .strcmp 0 1, .strncmp 0 1 2, .memset 0 0x2A 1, .memcmp 0 1 1, .strncpy 1 0 2]

/-- `"Hi"` is in the first one: `"HiHi"` has four bytes and comes after `"Hi"`, but not in its first two bytes, and
`"*i"` comes before it and overwrites its first half. -/
theorem string_calls_refine_greeting : ∃ m',
    exec (callStep twoBuffers) (put (fun _ => 0) 0x1000 [0x48, 0x69], []) greeting =
        some (m', [0x1008, 0x1008, 4, -1, 0, 0x1000, -1, 0x1008]) ∧
      bytesAt m' 0x1000 8 = [0x2A, 0x69, 0, 0, 0, 0, 0, 0] ∧
      bytesAt m' 0x1008 8 = [0x2A, 0x69, 0x48, 0x69, 0, 0, 0, 0] := by
  have h : HasBytes twoBuffers (put (fun _ => 0) 0x1000 [0x48, 0x69])
      ![[0x48, 0x69, 0, 0, 0, 0, 0, 0], [0, 0, 0, 0, 0, 0, 0, 0]] := by
    intro i
    fin_cases i
    · rfl
    · rfl
  obtain ⟨m', hexec, hbytes, -⟩ := string_calls_refine twoBuffers _ _ h greeting []
    (![[0x2A, 0x69, 0, 0, 0, 0, 0, 0], [0x2A, 0x69, 0x48, 0x69, 0, 0, 0, 0]],
      [0x1008, 0x1008, 4, -1, 0, 0x1000, -1, 0x1008]) (by decide)
  exact ⟨m', hexec, hbytes 0, hbytes 1⟩

end PrometheusKernel.Strings
