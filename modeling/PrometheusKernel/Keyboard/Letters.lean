import PrometheusKernel.Keyboard.Queue

/-!
# The case of letters

By the usual rule a letter is in upper case if either caps lock is on or a shift key is held, but not both. The
driver keeps one flag for both shift keys, which the release of either of them clears; and while the flag is set it
takes the letter from `map_shift`, where it is in upper case already, so that caps lock no longer counts. Hence the
letter is right exactly if no shift key is held, or if caps lock is off and the last shift code was that of a press
(`letter_case_iff`). With caps lock on and a shift key held, a letter is in upper case (`caps_and_shift`).
-/

namespace PrometheusKernel.Keyboard

open Interleaving RingBuffer

/-! ### The rule -/

/-- The key with the codes `down` and `up` is held after the scan codes `codes`. -/
def keyHeld (down up : UInt8) (codes : List UInt8) : Bool :=
  codes.foldl (fun held sc => if sc = down then true else if sc = up then false else held) false

/-- The left or the right shift key is held. -/
def shiftHeld (codes : List UInt8) : Bool := keyHeld 0x2A 0xAA codes || keyHeld 0x36 0xB6 codes

/-- Caps lock has been pressed an odd number of times. -/
def capsOn (codes : List UInt8) : Bool := codes.count 0x3A % 2 = 1

/-- The scan code is the make code of a letter key. -/
def IsLetterKey (sc : UInt8) : Prop := 97 ≤ mapNorm sc.toNat ∧ mapNorm sc.toNat ≤ 122

instance (sc : UInt8) : Decidable (IsLetterKey sc) := inferInstanceAs (Decidable (_ ∧ _))

/-- The letter of the key, in upper or in lower case. -/
def keyLetter (sc : UInt8) (upper : Bool) : UInt8 := if upper then mapNorm sc.toNat - 32 else mapNorm sc.toNat

/-- The letter of the key after the scan codes `codes`, by the rule. -/
def expected (codes : List UInt8) (sc : UInt8) : UInt8 := keyLetter sc (capsOn codes ^^ shiftHeld codes)

/-- The last shift code, of either key, was that of a press. -/
def lastShiftPress (codes : List UInt8) : Bool :=
  codes.foldl (fun pressed sc => if sc = 0x2A ∨ sc = 0x36 then true else if sc = 0xAA ∨ sc = 0xB6 then false
    else pressed) false

/-- The scan codes of a run. -/
def codes (ops : List Op) : List UInt8 := ops.filterMap fun op => match op with
  | .irq sc => some sc
  | _ => none

/-! ### Letter keys -/

section letters

variable {sc : UInt8}

/-- Behind the table every element is 0. -/
theorem mapNorm_of_le {n : ℕ} (h : 58 ≤ n) : mapNorm n = 0 := by
  unfold mapNorm
  rw [List.getD_eq_default]
  exact le_trans (by decide +kernel) h

/-- The letter keys have low scan codes. -/
theorem IsLetterKey.lt (h : IsLetterKey sc) : sc.toNat < 58 := by
  by_contra hge
  unfold IsLetterKey at h
  rw [mapNorm_of_le (not_lt.mp hge)] at h
  exact absurd h.1 (by decide)

/-- On the letter keys the second table has the same letters in upper case, and upper case is no letter of the
first table. -/
theorem tables_agree : ∀ n < 58, 97 ≤ mapNorm n ∧ mapNorm n ≤ 122 →
    mapShift n = mapNorm n - 32 ∧ ¬ 97 ≤ mapNorm n - 32 ∧ mapNorm n - 32 ≠ 0 ∧ mapNorm n - 32 ≠ mapNorm n ∧
      n ≠ 0x2A ∧ n ≠ 0x36 := by decide +kernel

/-- A letter is not 0. -/
theorem keyLetter_ne_zero (h : IsLetterKey sc) (upper : Bool) : keyLetter sc upper ≠ 0 := by
  obtain ⟨-, -, hzero, -, -, -⟩ := tables_agree _ h.lt h
  unfold keyLetter
  split_ifs
  · exact hzero
  · rintro heq
    unfold IsLetterKey at h
    rw [heq] at h
    exact absurd h.1 (by decide)

/-- The two letters of a key are different. -/
theorem keyLetter_inj (h : IsLetterKey sc) {a b : Bool} : keyLetter sc a = keyLetter sc b ↔ a = b := by
  obtain ⟨-, -, -, hne, -, -⟩ := tables_agree _ h.lt h
  constructor
  · intro heq
    cases a
    · cases b
      · rfl
      · exact absurd heq.symm hne
    · cases b
      · exact absurd heq hne
      · rfl
  · rintro rfl
    rfl

/-- A letter key is none of the modifier keys, and its code is a make code. -/
theorem IsLetterKey.offered (h : IsLetterKey sc) (k : Driver) (hc : character k sc ≠ 0) :
    offered k sc = some (character k sc) := by
  have hlt := h.lt
  obtain ⟨-, -, -, -, h1, h2⟩ := tables_agree _ hlt h
  have hmask : sc &&& 0x80 = 0 := by
    have hsmall : ∀ n < 58, UInt8.ofNat n &&& 0x80 = 0 := by decide
    rw [← UInt8.ofNat_toNat (x := sc)]
    exact hsmall _ hlt
  have hne : ∀ n : UInt8, 58 ≤ n.toNat → sc ≠ n := by
    rintro n hn rfl
    omega
  unfold Keyboard.offered
  rw [if_neg, if_neg hc]
  rintro (heq | heq | heq | heq | heq | heq)
  · exact h1 (heq ▸ rfl)
  · exact h2 (heq ▸ rfl)
  · exact hne _ (by decide) heq
  · exact hne _ (by decide) heq
  · exact hne _ (by decide) heq
  · exact heq hmask

end letters

/-! ### The flags of the driver -/

/-- The flags after the scan codes `codes`. -/
structure Flags (w : World) (codes : List UInt8) : Prop where
  shift : w.kbd.shift = (lastShiftPress codes).toNat
  caps : w.kbd.caps = (capsOn codes).toNat

section flags

variable {w w' : World} {cs : List UInt8} {sc : UInt8}

/-- Storing a character changes no flag. -/
theorem kbdPush_flags (k : Driver) (c : UInt8) :
    (kbdPush k c).shift = k.shift ∧ (kbdPush k c).caps = k.caps := by
  by_cases hfull : full k
  · rw [kbdPush_of_full hfull]
    exact ⟨rfl, rfl⟩
  · rw [kbdPush_of_not_full hfull]
    exact ⟨rfl, rfl⟩

/-- What the handler does to the flags. -/
theorem keyboardIrqHandler_flags (k : Driver) (sc : UInt8) :
    (keyboardIrqHandler k sc).shift
        = (if sc = 0x2A ∨ sc = 0x36 then 1 else if sc = 0xAA ∨ sc = 0xB6 then 0 else k.shift) ∧
      (keyboardIrqHandler k sc).caps = if sc = 0x3A then k.caps ^^^ 1 else k.caps := by
  unfold keyboardIrqHandler
  by_cases hdown : sc = 0x2A ∨ sc = 0x36
  · rw [if_pos hdown, if_pos hdown, if_neg (by rintro rfl; exact absurd hdown (by decide))]
    exact ⟨rfl, rfl⟩
  by_cases hup : sc = 0xAA ∨ sc = 0xB6
  · rw [if_neg hdown, if_neg hdown, if_pos hup, if_pos hup, if_neg (by rintro rfl; exact absurd hup (by decide))]
    exact ⟨rfl, rfl⟩
  rw [if_neg hdown, if_neg hdown, if_neg hup, if_neg hup]
  by_cases hcaps : sc = 0x3A
  · rw [if_pos hcaps, if_pos hcaps]
    exact ⟨rfl, rfl⟩
  rw [if_neg hcaps, if_neg hcaps]
  dsimp only
  split_ifs
  · exact ⟨rfl, rfl⟩
  · exact kbdPush_flags _ _
  · exact ⟨rfl, rfl⟩

/-- An interrupt runs the handler. -/
theorem kbd_interrupt (w : World) (sc : UInt8) : (interrupt w sc).kbd = keyboardIrqHandler w.kbd sc := by
  unfold interrupt
  split
  · rfl
  · split_ifs
    · rfl
    · rfl

/-- One more press of Caps Lock turns it over. -/
theorem capsOn_append (cs : List UInt8) (sc : UInt8) :
    capsOn (cs ++ [sc]) = if sc = 0x3A then !capsOn cs else capsOn cs := by
  unfold capsOn
  rw [List.count_append, List.count_singleton]
  by_cases heq : sc = 0x3A
  · rw [if_pos heq, if_pos (beq_iff_eq.mpr heq), ← decide_not]
    congr 1
    apply propext
    omega
  · rw [if_neg heq, if_neg (fun h => heq (beq_iff_eq.mp h)), Nat.add_zero]

/-- The last code of a shift key decides. -/
theorem lastShiftPress_append (cs : List UInt8) (sc : UInt8) :
    lastShiftPress (cs ++ [sc]) = if sc = 0x2A ∨ sc = 0x36 then true else if sc = 0xAA ∨ sc = 0xB6 then false
      else lastShiftPress cs := by
  unfold lastShiftPress
  rw [List.foldl_append]
  rfl

/-- The handler keeps the flags. -/
theorem Flags.interrupt (h : Flags w cs) (sc : UInt8) : Flags (interrupt w sc) (cs ++ [sc]) := by
  obtain ⟨hshift, hcaps⟩ := keyboardIrqHandler_flags w.kbd sc
  constructor
  · rw [kbd_interrupt, hshift, lastShiftPress_append, h.shift]
    split_ifs
    · rfl
    · rfl
    · rfl
  · rw [kbd_interrupt, hcaps, capsOn_append, h.caps]
    split_ifs
    · cases capsOn cs
      · rfl
      · rfl
    · rfl

/-- The reader leaves the flags alone. -/
theorem next_flags (hnext : next w = some w') : w'.kbd.shift = w.kbd.shift ∧ w'.kbd.caps = w.kbd.caps := by
  have hcompared : ∀ call h t n, (compared w call h t n).kbd = w.kbd := by
    intro call h t n
    unfold compared
    cases call with
    | getChar =>
        dsimp only
        split_ifs
        · rfl
        · rfl
    | hasInput => rfl
  unfold next at hnext
  split at hnext
  · exact absurd hnext nofun
  · obtain rfl := Option.some.inj hnext
    rw [hcompared]
    exact ⟨rfl, rfl⟩
  · obtain rfl := Option.some.inj hnext
    rw [hcompared]
    exact ⟨rfl, rfl⟩
  all_goals
    obtain rfl := Option.some.inj hnext
    exact ⟨rfl, rfl⟩

/-- Every step keeps the flags. -/
theorem Flags.step (h : Flags w cs) {op : Op} (hstep : step w op = some w') : Flags w' (cs ++ codes [op]) := by
  cases op with
  | irq sc =>
      obtain rfl := Option.some.inj hstep
      exact h.interrupt sc
  | enter call first =>
      rw [show codes [.enter call first] = [] from rfl, List.append_nil]
      unfold Keyboard.step at hstep
      dsimp only at hstep
      split_ifs at hstep
      cases first with
      | head =>
          obtain rfl := Option.some.inj hstep
          exact ⟨h.shift, h.caps⟩
      | tail =>
          obtain rfl := Option.some.inj hstep
          exact ⟨h.shift, h.caps⟩
  | next =>
      rw [show codes [.next] = [] from rfl, List.append_nil]
      obtain ⟨hshift, hcaps⟩ := next_flags hstep
      exact ⟨hshift.trans h.shift, hcaps.trans h.caps⟩

/-- The flags after a run. -/
theorem flags_exec {ops : List Op} (h : Flags w cs) (hexec : exec step w ops = some w') :
    Flags w' (cs ++ codes ops) := by
  induction ops generalizing w cs with
  | nil =>
      obtain rfl : w = w' := Option.some.inj hexec
      rw [show codes [] = [] from rfl, List.append_nil]
      exact h
  | cons op ops ih =>
      obtain ⟨w₁, hstep, hrest⟩ := exec_cons hexec
      have hcodes : codes (op :: ops) = codes [op] ++ codes ops := List.filterMap_append (l := [op])
      rw [hcodes, ← List.append_assoc]
      exact ih (h.step hstep) hrest

/-- At the start no key has been pressed. -/
theorem flags_start : Flags start [] := ⟨rfl, rfl⟩

/-- The letter of the driver: in upper case if the flag of the shift keys or of caps lock is set. -/
theorem Flags.character_eq (h : Flags w cs) (hkey : IsLetterKey sc) :
    character w.kbd sc = keyLetter sc (lastShiftPress cs || capsOn cs) := by
  obtain ⟨hupper, hlow, -, -, -, -⟩ := tables_agree _ hkey.lt hkey
  unfold character keyLetter
  rw [h.shift, h.caps]
  dsimp only
  cases hshift : lastShiftPress cs
  · have hnorm : (if false.toNat ≠ 0 then mapShift sc.toNat else mapNorm sc.toNat) = mapNorm sc.toNat := rfl
    rw [hnorm, if_pos ⟨hkey.1, hkey.2⟩]
    cases capsOn cs
    · rfl
    · rfl
  · have hshifted : (if true.toNat ≠ 0 then mapShift sc.toNat else mapNorm sc.toNat) = mapNorm sc.toNat - 32 := hupper
    rw [hshifted, if_neg fun hin => hlow hin.1]
    rfl

end flags

/-! ### The two rules -/

/-- If the last shift code was a press, that key is held. -/
theorem shiftHeld_of_lastShiftPress (cs : List UInt8) (h : lastShiftPress cs = true) : shiftHeld cs = true := by
  induction cs using List.reverseRecOn with
  | nil => exact absurd h (by decide)
  | append_singleton cs sc ih =>
      rw [lastShiftPress_append] at h
      unfold shiftHeld keyHeld
      rw [List.foldl_append, List.foldl_append, Bool.or_eq_true]
      have hold : keyHeld 0x2A 0xAA cs = true ∨ keyHeld 0x36 0xB6 cs = true → sc ≠ 0xAA ∧ sc ≠ 0xB6 →
          (if sc = 0x2A then true else if sc = 0xAA then false else keyHeld 0x2A 0xAA cs) = true ∨
            (if sc = 0x36 then true else if sc = 0xB6 then false else keyHeld 0x36 0xB6 cs) = true := by
        rintro (hleft | hright) ⟨h1, h2⟩
        · refine Or.inl ?_
          rw [if_neg h1, hleft, ite_self]
        · refine Or.inr ?_
          rw [if_neg h2, hright, ite_self]
      split_ifs at h with hdown hup
      · rcases hdown with rfl | rfl
        · exact Or.inl rfl
        · exact Or.inr rfl
      · push Not at hup
        exact hold (Bool.or_eq_true_iff.mp (ih h)) hup

/-- The driver and the rule agree exactly if no shift key is held, or if caps lock is off and the last shift code was
that of a press. -/
theorem upper_eq_iff (cs : List UInt8) : (lastShiftPress cs || capsOn cs) = (capsOn cs ^^ shiftHeld cs) ↔
    (shiftHeld cs = true → capsOn cs = false ∧ lastShiftPress cs = true) := by
  have himp := shiftHeld_of_lastShiftPress cs
  cases hlast : lastShiftPress cs
  · cases capsOn cs <;> cases shiftHeld cs <;> decide
  · rw [himp hlast]
    cases capsOn cs <;> decide

/-- In every run, when the make code of a letter key is handled and the buffer is not full, the letter in the case
of the rule is pushed exactly if no shift key is held, or if caps lock is off and the last shift code was that of a
press. -/
theorem letter_case_iff (ops : List Op) (w : World) (hexec : exec step start ops = some w) (sc : UInt8)
    (hkey : IsLetterKey sc) (hroom : ¬ full w.kbd) :
    (interrupt w sc).accepted = w.accepted ++ [expected (codes ops) sc] ↔
      (shiftHeld (codes ops) = true → capsOn (codes ops) = false ∧ lastShiftPress (codes ops) = true) := by
  have hflags : Flags w (codes ops) := flags_exec flags_start hexec
  have hchar := hflags.character_eq hkey
  have hoffered := hkey.offered w.kbd (hchar ▸ keyLetter_ne_zero hkey _)
  unfold interrupt
  rw [hoffered]
  dsimp only
  rw [if_neg hroom, hchar, ← upper_eq_iff]
  unfold expected
  constructor
  · intro heq
    exact (keyLetter_inj hkey).mp (List.singleton_injective (List.append_cancel_left heq))
  · intro heq
    rw [heq]

/-- The left shift key held, and the letter a. -/
theorem letter_case_sample : ∃ w, exec step start [.irq 0x2A] = some w ∧
    ((interrupt w 0x1E).accepted = w.accepted ++ [expected (codes [.irq 0x2A]) 0x1E] ↔
      (shiftHeld (codes [.irq 0x2A]) = true →
        capsOn (codes [.irq 0x2A]) = false ∧ lastShiftPress (codes [.irq 0x2A]) = true)) := by
  refine ⟨interrupt start 0x2A, rfl, letter_case_iff [.irq 0x2A] _ rfl 0x1E (by decide +kernel) (by decide +kernel)⟩

/-- Caps lock pressed, the left shift key held, and the letter a: by the rule it is in lower case. -/
theorem caps_and_shift : ¬ ∀ (ops : List Op) (w : World), exec step start ops = some w → ∀ sc, IsLetterKey sc →
    ¬ full w.kbd → (interrupt w sc).accepted = w.accepted ++ [expected (codes ops) sc] := by
  intro h
  have heq := h [.irq 0x3A, .irq 0x2A] (interrupt (interrupt start 0x3A) 0x2A) rfl 0x1E (by decide +kernel)
    (by decide +kernel)
  exact absurd heq (by decide +kernel)

end PrometheusKernel.Keyboard
