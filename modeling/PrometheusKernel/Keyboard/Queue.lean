import PrometheusKernel.Keyboard.Model
import PrometheusKernel.Lib.Interleaving
import PrometheusKernel.Lib.RingBuffer

/-!
# The keyboard buffer is a queue, also when interrupts hit the reader

The reader, `keyboard_get_char` or `keyboard_has_input`, accesses `g_kbd_head`, `g_kbd_tail` and `g_kbd_buf` one by
one, and `keyboard_irq_handler` may run before each of the accesses. In `g_kbd_head == g_kbd_tail` either operand may
be read first.

The interrupt handler writes the head and the reader writes the tail, so the head that the reader has read can only
be too old: what it leads the reader to believe to be in the buffer still is. The invariant `Inv` says so for each
place of the reader, and that the buffer holds the characters accepted and not yet returned; from it follow the
order of the characters, what is dropped and when 0 is returned (`reads_in_order`).
-/

namespace PrometheusKernel.Keyboard

open Interleaving RingBuffer

/-! ### The reader, access by access -/

/-- The two functions of the reader. -/
inductive Call
  /-- `keyboard_get_char()`. -/
  | getChar
  /-- `keyboard_has_input()`. -/
  | hasInput
deriving DecidableEq

/-- The operands of `g_kbd_head == g_kbd_tail`. -/
inductive Operand
  | head
  | tail
deriving DecidableEq

/-- Where the reader is, with its locals. After the head has been read, `n` is the number of characters that were
pending at that moment. -/
inductive Place
  /-- Outside the driver. -/
  | idle
  /-- The head has been read first. -/
  | headRead (call : Call) (h n : ℕ)
  /-- The tail has been read first. -/
  | tailRead (call : Call) (t : ℕ)
  /-- The buffer was not empty. -/
  | passed (n : ℕ)
  /-- The tail has been read, as the index of the character. -/
  | indexRead (t n : ℕ)
  /-- The character has been read. -/
  | charRead (c : UInt8) (n : ℕ)
  /-- The tail has been read, to be incremented. -/
  | tailReread (c : UInt8) (t n : ℕ)
deriving DecidableEq

/-- The driver, its reader and what has happened so far. -/
structure World where
  /-- The static data. -/
  kbd : Driver
  /-- The place of the reader. -/
  place : Place
  /-- The characters that `kbd_push` has stored. -/
  accepted : List UInt8
  /-- For each character that `kbd_push` has dropped, how many were pending. -/
  drops : List ℕ
  /-- The results of `keyboard_get_char`, each with the number of characters pending when it read the head. -/
  results : List (UInt8 × ℕ)
  /-- The results of `keyboard_has_input`, likewise. -/
  answers : List (Bool × ℕ)

/-- Before the first interrupt. -/
def start : World := ⟨initial, .idle, [], [], [], []⟩

/-- The characters other than 0 that `keyboard_get_char` has returned. -/
def World.returned (w : World) : List UInt8 := (w.results.map Prod.fst).filter (· ≠ 0)

/-- The number of characters accepted and not yet returned. -/
def World.pending (w : World) : ℕ := w.accepted.length - w.returned.length

/-- The character that `keyboard_irq_handler` passes to `kbd_push`, if any. -/
def offered (k : Driver) (sc : UInt8) : Option UInt8 :=
  if sc = 0x2A ∨ sc = 0x36 ∨ sc = 0xAA ∨ sc = 0xB6 ∨ sc = 0x3A ∨ sc &&& 0x80 ≠ 0 then none
  else if character k sc = 0 then none else some (character k sc)

/-- `keyboard_irq_handler`, with a record of what `kbd_push` does. -/
def interrupt (w : World) (sc : UInt8) : World :=
  match offered w.kbd sc with
  | none => { w with kbd := keyboardIrqHandler w.kbd sc }
  | some c =>
      if full w.kbd then { w with kbd := keyboardIrqHandler w.kbd sc, drops := w.pending :: w.drops }
      else { w with kbd := keyboardIrqHandler w.kbd sc, accepted := w.accepted ++ [c] }

/-- `g_kbd_head == g_kbd_tail`, with the values `h` and `t` that have been read. -/
def compared (w : World) (call : Call) (h t n : ℕ) : World :=
  match call with
  | .getChar =>
      if h = t then { w with place := .idle, results := w.results ++ [(0, n)] } else { w with place := .passed n }
  | .hasInput => { w with place := .idle, answers := w.answers ++ [(decide (h ≠ t), n)] }

/-- The next access of the reader. -/
def next (w : World) : Option World :=
  match w.place with
  | .idle => none
  | .headRead call h n => some (compared w call h w.kbd.tail n)
  | .tailRead call t => some (compared w call w.kbd.head t w.pending)
  | .passed n => some { w with place := .indexRead w.kbd.tail n }
  | .indexRead t n => some { w with place := .charRead (w.kbd.buf t) n }
  | .charRead c n => some { w with place := .tailReread c w.kbd.tail n }
  | .tailReread c t n =>
      some { w with kbd := { w.kbd with tail := (t + 1) &&& 255 }, place := .idle, results := w.results ++ [(c, n)] }

/-- An interrupt, or an access of the reader. -/
inductive Op
  /-- `keyboard_irq_handler()`, with the scan code `sc`. -/
  | irq (sc : UInt8)
  /-- The reader calls a function, which reads an operand. -/
  | enter (call : Call) (first : Operand)
  /-- The reader goes on. -/
  | next

/-- One step; `none` where the reader is not in the driver, or is in it already. -/
def step (w : World) : Op → Option World
  | .irq sc => some (interrupt w sc)
  | .enter call first =>
      if w.place = .idle then
        match first with
        | .head => some { w with place := .headRead call w.kbd.head w.pending }
        | .tail => some { w with place := .tailRead call w.kbd.tail }
      else none
  | .next => next w

/-! ### The interrupt handler -/

section handler

variable {k : Driver} {c sc : UInt8}

/-- The mask of the indices is a remainder. -/
theorem and_255 (x : ℕ) : x &&& 255 = x % 256 := Nat.and_two_pow_sub_one_eq_mod x 8

/-- The handler offers a character other than 0 to `kbd_push`, or it leaves the buffer alone. -/
theorem keyboardIrqHandler_cases (k : Driver) (sc : UInt8) :
    (offered k sc = none ∧ (keyboardIrqHandler k sc).buf = k.buf ∧ (keyboardIrqHandler k sc).head = k.head ∧
        (keyboardIrqHandler k sc).tail = k.tail) ∨
      ∃ c, c ≠ 0 ∧ offered k sc = some c ∧ keyboardIrqHandler k sc = kbdPush k c := by
  unfold offered keyboardIrqHandler
  by_cases hdown : sc = 0x2A ∨ sc = 0x36
  · rw [if_pos (by tauto), if_pos hdown]
    exact Or.inl ⟨rfl, rfl, rfl, rfl⟩
  by_cases hup : sc = 0xAA ∨ sc = 0xB6
  · rw [if_pos (by tauto), if_neg hdown, if_pos hup]
    exact Or.inl ⟨rfl, rfl, rfl, rfl⟩
  by_cases hcaps : sc = 0x3A
  · rw [if_pos (by tauto), if_neg hdown, if_neg hup, if_pos hcaps]
    exact Or.inl ⟨rfl, rfl, rfl, rfl⟩
  by_cases hbreak : sc &&& 0x80 ≠ 0
  · rw [if_pos (by tauto), if_neg hdown, if_neg hup, if_neg hcaps, if_pos hbreak]
    exact Or.inl ⟨rfl, rfl, rfl, rfl⟩
  rw [if_neg (by tauto), if_neg hdown, if_neg hup, if_neg hcaps, if_neg hbreak]
  dsimp only
  by_cases hzero : character k sc = 0
  · rw [if_pos hzero, if_neg (not_not.mpr hzero)]
    exact Or.inl ⟨rfl, rfl, rfl, rfl⟩
  · rw [if_neg hzero, if_pos hzero]
    exact Or.inr ⟨_, hzero, rfl, rfl⟩

/-- A full buffer drops the character. -/
theorem kbdPush_of_full (h : full k) : kbdPush k c = k := if_neg (not_not.mpr h)

/-- A buffer with room stores the character at its head. -/
theorem kbdPush_of_not_full (h : ¬ full k) :
    kbdPush k c = { k with buf := Function.update k.buf k.head c, head := (k.head + 1) % 256 } := by
  rw [← and_255]
  exact if_pos h

end handler

/-! ### The invariant -/

/-- What the reader knows at each of its places: `q` is the queue and `tail` its index. -/
def Place.Knows (q : List UInt8) (tail : ℕ) : Place → Prop
  | .idle => True
  | .headRead _ h n => h = (tail + n) % 256 ∧ n ≤ q.length
  | .tailRead _ t => t = tail
  | .passed _ => q ≠ []
  | .indexRead t _ => q ≠ [] ∧ t = tail
  | .charRead c _ => ∃ q', q = c :: q'
  | .tailReread c t _ => (∃ q', q = c :: q') ∧ t = tail

/-- The invariant of every run: the buffer holds the queue `q` of the characters accepted and not yet returned. -/
structure Inv (w : World) (q : List UInt8) : Prop where
  queue : Represents 256 w.kbd.buf w.kbd.head w.kbd.tail q
  content : w.accepted = w.returned ++ q
  nonzero : ∀ c ∈ w.accepted, c ≠ 0
  reader : w.place.Knows q w.kbd.tail
  drops : ∀ n ∈ w.drops, n = 255
  results : ∀ r ∈ w.results, r.1 = 0 → r.2 = 0
  answers : ∀ a ∈ w.answers, a.1 = false ↔ a.2 = 0

section inv

variable {w w' : World} {q : List UInt8}

/-- The invariant holds at the start. -/
theorem inv_start : Inv start [] where
  queue := Represents.empty (show 0 < 256 by norm_num) _
  content := rfl
  nonzero c hc := absurd hc List.not_mem_nil
  reader := trivial
  drops n hn := absurd hn List.not_mem_nil
  results r hr := absurd hr List.not_mem_nil
  answers a ha := absurd ha List.not_mem_nil

/-- The characters pending are those in the buffer. -/
theorem Inv.pending_eq (h : Inv w q) : w.pending = q.length := by
  unfold World.pending
  rw [h.content, List.length_append, Nat.add_sub_cancel_left]

/-- A character behind the queue takes nothing away from what the reader knows. -/
theorem Place.Knows.push {p : Place} {tail : ℕ} (h : p.Knows q tail) (c : UInt8) : p.Knows (q ++ [c]) tail := by
  cases p with
  | idle => trivial
  | headRead call hd n => exact ⟨h.1, h.2.trans (by rw [List.length_append]; exact Nat.le_add_right _ _)⟩
  | tailRead call t => exact h
  | passed n => exact List.append_ne_nil_of_left_ne_nil h _
  | indexRead t n => exact ⟨List.append_ne_nil_of_left_ne_nil h.1 _, h.2⟩
  | charRead d n =>
      obtain ⟨q', rfl⟩ := h
      exact ⟨q' ++ [c], rfl⟩
  | tailReread d t n =>
      obtain ⟨⟨q', rfl⟩, ht⟩ := h
      exact ⟨⟨q' ++ [c], rfl⟩, ht⟩

/-- An interrupt, at any place of the reader. -/
theorem Inv.interrupt (h : Inv w q) (sc : UInt8) : ∃ q', Inv (interrupt w sc) q' := by
  unfold Keyboard.interrupt
  rcases keyboardIrqHandler_cases w.kbd sc with ⟨hnone, hbuf, hhead, htail⟩ | ⟨c, hc, hsome, hres⟩
  · rw [hnone]
    refine ⟨q, ?_, h.content, h.nonzero, ?_, h.drops, h.results, h.answers⟩
    · dsimp only
      rw [hbuf, hhead, htail]
      exact h.queue
    · dsimp only
      rw [htail]
      exact h.reader
  rw [hsome, hres]
  dsimp only
  have hnext : full w.kbd ↔ q.length + 1 = 256 := by
    unfold full
    rw [and_255]
    exact h.queue.next_eq_tail_iff
  by_cases hfull : full w.kbd
  · rw [if_pos hfull, kbdPush_of_full hfull]
    have hlen := hnext.mp hfull
    refine ⟨q, h.queue, h.content, h.nonzero, h.reader, fun n hn => ?_, h.results, h.answers⟩
    rcases List.mem_cons.mp hn with rfl | hn
    · rw [h.pending_eq]
      omega
    · exact h.drops n hn
  · rw [if_neg hfull, kbdPush_of_not_full hfull]
    have hroom : q.length + 1 < 256 := lt_of_le_of_ne h.queue.room fun heq => hfull (hnext.mpr heq)
    refine ⟨q ++ [c], h.queue.push hroom c, ?_, fun d hd => ?_, h.reader.push c, h.drops, h.results, h.answers⟩
    · change w.accepted ++ [c] = w.returned ++ (q ++ [c])
      rw [h.content, List.append_assoc]
    · rcases List.mem_append.mp hd with hd | hd
      · exact h.nonzero d hd
      · rw [List.mem_singleton.mp hd]
        exact hc

/-- The comparison finds the two indices equal exactly if nothing was pending when the head was read. -/
theorem Inv.compared (h : Inv w q) (call : Call) {n hd : ℕ} (hhead : hd = (w.kbd.tail + n) % 256)
    (hle : n ≤ q.length) : Inv (compared w call hd w.kbd.tail n) q := by
  have hiff : hd = w.kbd.tail ↔ n = 0 := by
    rw [hhead]
    exact wrap_eq_self_iff h.queue.tail_lt (lt_of_le_of_lt hle h.queue.room)
  unfold Keyboard.compared
  cases call with
  | getChar =>
      dsimp only
      split_ifs with heq
      · refine ⟨h.queue, ?_, h.nonzero, trivial, h.drops, fun r hr hzero => ?_, h.answers⟩
        · rw [h.content]
          unfold World.returned
          rw [List.map_append, List.filter_append]
          exact (congrArg (· ++ q) (List.append_nil _)).symm
        · rcases List.mem_append.mp hr with hr | hr
          · exact h.results r hr hzero
          · rw [List.mem_singleton.mp hr]
            exact hiff.mp heq
      · refine ⟨h.queue, h.content, h.nonzero, ?_, h.drops, h.results, h.answers⟩
        rintro rfl
        exact heq (hiff.mpr (Nat.le_zero.mp hle))
  | hasInput =>
      refine ⟨h.queue, h.content, h.nonzero, trivial, h.drops, h.results, fun a ha => ?_⟩
      rcases List.mem_append.mp ha with ha | ha
      · exact h.answers a ha
      · rw [List.mem_singleton.mp ha, ← hiff]
        exact decide_eq_false_iff_not.trans not_not

/-- An access of the reader. -/
theorem Inv.next (h : Inv w q) (hnext : next w = some w') : ∃ q', Inv w' q' := by
  have hplace := h.reader
  unfold Keyboard.next at hnext
  generalize hp : w.place = p at hnext hplace
  cases p with
  | idle => exact absurd hnext nofun
  | headRead call hd n =>
      obtain rfl := Option.some.inj hnext
      exact ⟨q, h.compared call hplace.1 hplace.2⟩
  | tailRead call t =>
      obtain rfl := Option.some.inj hnext
      obtain rfl : t = w.kbd.tail := hplace
      refine ⟨q, h.compared call ?_ h.pending_eq.le⟩
      rw [h.pending_eq]
      exact h.queue.head_eq
  | passed n =>
      obtain rfl := Option.some.inj hnext
      exact ⟨q, h.queue, h.content, h.nonzero, ⟨hplace, rfl⟩, h.drops, h.results, h.answers⟩
  | indexRead t n =>
      obtain rfl := Option.some.inj hnext
      obtain ⟨hne, rfl⟩ := hplace
      obtain ⟨c, q', rfl⟩ := List.exists_cons_of_ne_nil hne
      refine ⟨_, h.queue, h.content, h.nonzero, ⟨q', ?_⟩, h.drops, h.results, h.answers⟩
      rw [h.queue.front]
  | charRead c n =>
      obtain rfl := Option.some.inj hnext
      exact ⟨q, h.queue, h.content, h.nonzero, ⟨hplace, rfl⟩, h.drops, h.results, h.answers⟩
  | tailReread c t n =>
      obtain rfl := Option.some.inj hnext
      obtain ⟨⟨q', rfl⟩, rfl⟩ := hplace
      have hc : c ≠ 0 := by
        apply h.nonzero
        rw [h.content]
        exact List.mem_append_right _ List.mem_cons_self
      refine ⟨q', ?_, ?_, h.nonzero, trivial, h.drops, fun r hr hzero => ?_, h.answers⟩
      · dsimp only
        rw [and_255]
        exact h.queue.pop
      · dsimp only
        rw [h.content]
        unfold World.returned
        rw [List.map_append, List.filter_append, List.append_assoc]
        congr 1
        have hkept : List.filter (· ≠ 0) [c] = [c] := List.filter_eq_self.mpr fun d hd => by
          rw [List.mem_singleton.mp hd]
          exact decide_eq_true hc
        exact (congrArg (· ++ q') hkept).symm
      · rcases List.mem_append.mp hr with hr | hr
        · exact h.results r hr hzero
        · rw [List.mem_singleton.mp hr] at hzero
          exact absurd hzero hc

/-- One step of any kind. -/
theorem Inv.step (h : Inv w q) {op : Op} (hstep : step w op = some w') : ∃ q', Inv w' q' := by
  cases op with
  | irq sc =>
      obtain rfl := Option.some.inj hstep
      exact h.interrupt sc
  | enter call first =>
      unfold Keyboard.step at hstep
      dsimp only at hstep
      split_ifs at hstep with hidle
      cases first with
      | head =>
          obtain rfl := Option.some.inj hstep
          refine ⟨q, h.queue, h.content, h.nonzero, ⟨?_, h.pending_eq.le⟩, h.drops, h.results, h.answers⟩
          rw [h.pending_eq]
          exact h.queue.head_eq
      | tail =>
          obtain rfl := Option.some.inj hstep
          exact ⟨q, h.queue, h.content, h.nonzero, rfl, h.drops, h.results, h.answers⟩
  | next => exact h.next hstep

/-- Every run keeps the invariant. -/
theorem inv_exec {ops : List Op} (hexec : exec step start ops = some w) : ∃ q, Inv w q :=
  invariant (I := fun w => ∃ q, Inv w q) (fun _ _ _ ⟨_, h⟩ (_ : True) hstep => h.step hstep) ⟨[], inv_start⟩
    (guarded_of_forall (fun _ _ => trivial) _ _) hexec

end inv

/-- In every run, with interrupts between any two accesses of the reader, the characters returned are the first ones
accepted, in their order; a character is dropped only when 255 are pending; and `keyboard_get_char` returns 0 only if
nothing was pending when it read the head. -/
theorem reads_in_order (ops : List Op) (w : World) (hexec : exec step start ops = some w) :
    w.returned <+: w.accepted ∧ (∀ n ∈ w.drops, n = 255) ∧ ∀ r ∈ w.results, r.1 = 0 → r.2 = 0 := by
  obtain ⟨q, h⟩ := inv_exec hexec
  exact ⟨⟨q, h.content.symm⟩, h.drops, h.results⟩

/-- An interrupt between the two reads of the first look: `keyboard_get_char` returns 0, and the next call returns
the character. -/
def lateInterrupt : List Op :=
  [.enter .getChar .head, .irq 0x1E, .next, .enter .getChar .tail, .next, .next, .irq 0x30, .next, .next, .next]

/-- Interrupts come while the reader is at work. -/
theorem reads_in_order_sample : ∃ w, exec step start lateInterrupt = some w ∧ w.returned <+: w.accepted ∧
    (∀ n ∈ w.drops, n = 255) ∧ ∀ r ∈ w.results, r.1 = 0 → r.2 = 0 := by
  have hsome : (exec step start lateInterrupt).isSome := by decide +kernel
  obtain ⟨w, hexec⟩ := Option.isSome_iff_exists.mp hsome
  exact ⟨w, hexec, reads_in_order lateInterrupt w hexec⟩

/-! ### The reader without interrupts -/

section uninterrupted

variable (w : World)

/-- Without an interrupt the accesses of the reader amount to `keyboard_get_char`. -/
theorem exec_getChar (hidle : w.place = .idle) (first : Operand) : ∃ n w' r,
    exec step w (.enter .getChar first :: List.replicate n .next) = some w' ∧ w'.place = .idle ∧
      w'.kbd = (keyboardGetChar w.kbd).2 ∧ w'.results = w.results ++ [((keyboardGetChar w.kbd).1, r)] := by
  unfold keyboardGetChar
  by_cases heq : w.kbd.head = w.kbd.tail
  · rw [if_pos heq]
    refine ⟨1, { w with place := .idle, results := w.results ++ [(0, w.pending)] }, w.pending, ?_, rfl, rfl, rfl⟩
    cases first with
    | head => simp [exec, step, hidle, next, compared, heq, World.pending, World.returned]
    | tail => simp [exec, step, hidle, next, compared, heq, World.pending, World.returned]
  · rw [if_neg heq]
    refine ⟨5, { w with
      kbd := { w.kbd with tail := (w.kbd.tail + 1) &&& 255 }
      place := .idle
      results := w.results ++ [(w.kbd.buf w.kbd.tail, w.pending)] }, w.pending, ?_, rfl, rfl, rfl⟩
    cases first with
    | head => simp [exec, step, hidle, next, compared, heq, World.pending, World.returned, List.replicate]
    | tail => simp [exec, step, hidle, next, compared, heq, World.pending, World.returned, List.replicate]

/-- Without an interrupt the accesses of the reader amount to `keyboard_has_input`. -/
theorem exec_hasInput (hidle : w.place = .idle) (first : Operand) : ∃ w' r,
    exec step w [.enter .hasInput first, .next] = some w' ∧ w'.place = .idle ∧ w'.kbd = w.kbd ∧
      w'.answers = w.answers ++ [(keyboardHasInput w.kbd, r)] := by
  refine ⟨{ w with place := .idle, answers := w.answers ++ [(keyboardHasInput w.kbd, w.pending)] }, w.pending, ?_,
    rfl, rfl, rfl⟩
  cases first with
  | head => simp [exec, step, hidle, next, compared, keyboardHasInput, World.pending, World.returned]
  | tail => simp [exec, step, hidle, next, compared, keyboardHasInput, World.pending, World.returned]

end uninterrupted

end PrometheusKernel.Keyboard
