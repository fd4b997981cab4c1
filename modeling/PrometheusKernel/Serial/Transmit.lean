import PrometheusKernel.Serial.Model

/-!
# The serial line carries what is written

Whatever the order of the turns of the kernel and the UART, the bytes on the line, those in the queue and those that
the kernel has still to write are the whole output, in this order (`Carries`): the kernel writes a byte only when it
has seen the queue empty, which only it can change. If neither waits forever for its next turn, all bytes reach the
line (`transmitted`): while the queue is not empty the UART can go on, and else the kernel.
-/

namespace PrometheusKernel.Serial

open Interleaving

/-- The bytes of a string, in front of the first 0. -/
def bytesOf (str : List UInt8) : List UInt8 := str.takeWhile (· ≠ 0)

/-- The bytes that the calls write. -/
def output (calls : List (Option (List UInt8))) : List UInt8 := calls.flatMap fun str => bytesOf (str.getD [])

/-- The bytes that the kernel has still to write. -/
def State.ahead (s : State) : List UInt8 := (if s.pc = .outside then [] else bytesOf s.str) ++ output s.calls

/-- The UART is set up, no byte is lost or out of order, and the kernel writes into an empty queue. -/
structure Carries (text : List UInt8) (s : State) : Prop where
  latched : s.uart.latched = false
  bytes : s.uart.line ++ s.uart.queue ++ s.ahead = text
  char : s.pc = .poll ∨ (∃ status, s.pc = .check status) ∨ s.pc = .write → s.str.headD 0 ≠ 0
  empty : (∃ status, s.pc = .check status ∧ status &&& 0x20 ≠ 0) ∨ s.pc = .write → s.uart.queue = []

section turns

variable {text : List UInt8} {s : State}

/-- A string with a first byte. -/
theorem bytesOf_of_head (h : s.str.headD 0 ≠ 0) : bytesOf s.str = s.str.headD 0 :: bytesOf s.str.tail := by
  cases hstr : s.str with
  | nil =>
      rw [hstr] at h
      exact absurd rfl h
  | cons c str =>
      rw [hstr] at h
      exact List.takeWhile_cons_of_pos (by simpa using h)

/-- A string at its end. -/
theorem bytesOf_of_end (h : s.str.headD 0 = 0) : bytesOf s.str = [] := by
  cases hstr : s.str with
  | nil => rfl
  | cons c str =>
      rw [hstr] at h
      exact List.takeWhile_cons_of_neg (by simpa using h)

/-- Bit 5 of the line status. -/
theorem status_bit (n v : UInt8) : ((n &&& 0xDF) ||| v) &&& 0x20 = v &&& 0x20 := by
  apply UInt8.toBitVec_inj.mp
  have hmask : n.toBitVec &&& 0xDF#8 &&& 0x20#8 = 0#8 := by
    rw [BitVec.and_assoc]
    exact BitVec.and_zero
  have hor : (n.toBitVec &&& 0xDF#8 ||| v.toBitVec) &&& 0x20#8 = v.toBitVec &&& 0x20#8 := by
    rw [BitVec.and_or_distrib_right, hmask, BitVec.zero_or]
  exact hor

/-- It says that the queue is empty. -/
theorem inbStatus_bit (u : Uart) : (inbStatus u).1 &&& 0x20 ≠ 0 ↔ u.queue = [] := by
  unfold inbStatus
  dsimp only
  rw [status_bit]
  split_ifs with hqueue
  · exact iff_of_true (by decide) hqueue
  · exact iff_of_false (by decide) hqueue

/-- A byte for an empty transmitter is queued. -/
theorem outb_com1 {u : Uart} (hlatched : u.latched = false) (hqueue : u.queue = []) (v : UInt8) :
    outb u com1Port v = { u with queue := [v] } := by
  have hdepth : ([] : List UInt8).length < u.depth := by
    unfold Uart.depth
    split_ifs <;> decide
  unfold outb Uart.enqueue
  rw [if_pos rfl, hlatched, if_neg Bool.false_ne_true, hqueue, if_pos hdepth]
  rfl

/-- Only the UART puts bytes on the line. -/
theorem outb_line (u : Uart) (port : ℕ) (v : UInt8) : (outb u port v).line = u.line := by
  unfold outb Uart.enqueue
  split_ifs <;> rfl

/-- After `serial_init` the first port reaches the queue, which is empty. -/
theorem serialInit_spec (u : Uart) :
    (serialInit u).latched = false ∧ (serialInit u).queue = [] ∧ (serialInit u).line = u.line := by
  have hlast : ∀ u : Uart, (outb (outb (outb u (com1Port + 3) 0x03) (com1Port + 2) 0xC7) (com1Port + 4) 0x0B).latched
        = false ∧
      (outb (outb (outb u (com1Port + 3) 0x03) (com1Port + 2) 0xC7) (com1Port + 4) 0x0B).queue = [] := by
    intro u
    have hbits : (0x03 : UInt8) &&& 0x80 = 0 ∧ ¬(0xC7 : UInt8) &&& 0x04 = 0 := by decide
    simp [outb, com1Port, Uart.latched, hbits.1, hbits.2]
  refine ⟨(hlast _).1, (hlast _).2, ?_⟩
  unfold serialInit
  simp only [outb_line]

/-- The calls begin with nothing written. -/
theorem carries_start (u : Uart) (calls : List (Option (List UInt8))) :
    Carries (u.line ++ output calls) (start u calls) := by
  obtain ⟨hlatched, hqueue, hline⟩ := serialInit_spec u
  refine ⟨hlatched, ?_, ?_, ?_⟩
  · unfold start State.ahead
    rw [hqueue, hline, List.append_nil, if_pos rfl]
    rfl
  · rintro (h | ⟨_, h⟩ | h) <;> exact absurd h nofun
  · rintro (⟨_, h, -⟩ | h) <;> exact absurd h nofun

/-- What the kernel does in a turn. -/
inductive KernelStep (s : State) : State → Prop
  | idle (hpc : s.pc = .outside) (hcalls : s.calls = []) : KernelStep s s
  | null {calls : List (Option (List UInt8))} (hpc : s.pc = .outside) (hcalls : s.calls = none :: calls) :
      KernelStep s ⟨s.uart, .outside, s.str, calls⟩
  | call {str : List UInt8} {calls : List (Option (List UInt8))} (hpc : s.pc = .outside)
      (hcalls : s.calls = some str :: calls) : KernelStep s ⟨s.uart, .test, str, calls⟩
  | leave (hpc : s.pc = .test) (hend : s.str.headD 0 = 0) : KernelStep s ⟨s.uart, .outside, s.str, s.calls⟩
  | char (hpc : s.pc = .test) (hchar : s.str.headD 0 ≠ 0) : KernelStep s ⟨s.uart, .poll, s.str, s.calls⟩
  | poll (hpc : s.pc = .poll) :
      KernelStep s ⟨(inbStatus s.uart).2, .check (inbStatus s.uart).1, s.str, s.calls⟩
  | again {status : UInt8} (hpc : s.pc = .check status) (hbit : status &&& 0x20 = 0) :
      KernelStep s ⟨s.uart, .poll, s.str, s.calls⟩
  | ready {status : UInt8} (hpc : s.pc = .check status) (hbit : status &&& 0x20 ≠ 0) :
      KernelStep s ⟨s.uart, .write, s.str, s.calls⟩
  | write (hpc : s.pc = .write) :
      KernelStep s ⟨outb s.uart com1Port (s.str.headD 0), .test, s.str.tail, s.calls⟩

/-- A turn of the kernel is one of its steps. -/
theorem kernelTurn_step (s : State) : KernelStep s (kernelTurn s) := by
  obtain ⟨uart, pc, str, calls⟩ := s
  unfold kernelTurn
  cases pc with
  | outside =>
      rcases calls with _ | ⟨_ | str', calls⟩
      · exact .idle rfl rfl
      · exact .null rfl rfl
      · exact .call rfl rfl
  | test =>
      dsimp only
      split_ifs with hend
      · exact .leave rfl hend
      · exact .char rfl hend
  | poll => exact .poll rfl
  | check status =>
      dsimp only
      split_ifs with hbit
      · exact .again rfl hbit
      · exact .ready rfl hbit
  | write => exact .write rfl

/-- Outside of `serial_write_char` there is no character. -/
theorem Carries.of_idle {uart : Uart} {pc : Pc} {str : List UInt8} {calls : List (Option (List UInt8))}
    (hlatched : uart.latched = false) (hpc : pc = .outside ∨ pc = .test)
    (hbytes : uart.line ++ uart.queue ++ ((if pc = .outside then [] else bytesOf str) ++ output calls) = text) :
    Carries text ⟨uart, pc, str, calls⟩ := by
  refine ⟨hlatched, hbytes, ?_, ?_⟩
  · rcases hpc with rfl | rfl <;> rintro (hcon | ⟨_, hcon⟩ | hcon) <;> exact absurd hcon nofun
  · rcases hpc with rfl | rfl <;> rintro (⟨_, hcon, -⟩ | hcon) <;> exact absurd hcon nofun

/-- A turn of the kernel. -/
theorem Carries.kernel (h : Carries text s) : Carries text (kernelTurn s) := by
  obtain ⟨hlatched, hbytes, hchar, hempty⟩ := h
  unfold State.ahead at hbytes
  have hstep := kernelTurn_step s
  generalize kernelTurn s = s' at hstep ⊢
  cases hstep with
  | idle hpc hcalls => exact ⟨hlatched, hbytes, hchar, hempty⟩
  | null hpc hcalls =>
      rw [if_pos hpc, hcalls] at hbytes
      exact .of_idle hlatched (.inl rfl) hbytes
  | call hpc hcalls =>
      rw [if_pos hpc, hcalls] at hbytes
      exact .of_idle hlatched (.inr rfl) hbytes
  | leave hpc hend =>
      rw [hpc, if_neg nofun, bytesOf_of_end hend] at hbytes
      exact .of_idle hlatched (.inl rfl) hbytes
  | char hpc hhead =>
      rw [hpc, if_neg nofun] at hbytes
      refine ⟨hlatched, hbytes, fun _ => hhead, ?_⟩
      rintro (⟨_, hcon, -⟩ | hcon) <;> exact absurd hcon nofun
  | poll hpc =>
      rw [hpc, if_neg nofun] at hbytes
      refine ⟨hlatched, hbytes, fun _ => hchar (.inl hpc), ?_⟩
      rintro (⟨status, hstatus, hbit⟩ | hcon)
      · obtain rfl := Pc.check.inj hstatus
        exact (inbStatus_bit s.uart).mp hbit
      · exact absurd hcon nofun
  | again hpc hbit =>
      rw [hpc, if_neg nofun] at hbytes
      refine ⟨hlatched, hbytes, fun _ => hchar (.inr (.inl ⟨_, hpc⟩)), ?_⟩
      rintro (⟨_, hcon, -⟩ | hcon) <;> exact absurd hcon nofun
  | ready hpc hbit =>
      rw [hpc, if_neg nofun] at hbytes
      exact ⟨hlatched, hbytes, fun _ => hchar (.inr (.inl ⟨_, hpc⟩)), fun _ => hempty (.inl ⟨_, hpc, hbit⟩)⟩
  | write hpc =>
      have hqueue := hempty (.inr hpc)
      rw [hpc, if_neg nofun, bytesOf_of_head (hchar (.inr (.inr hpc))), hqueue, List.append_nil] at hbytes
      rw [outb_com1 hlatched hqueue]
      refine .of_idle hlatched (.inr rfl) ?_
      rw [List.append_assoc]
      exact hbytes

/-- A turn of the UART. -/
theorem Carries.transmit (h : Carries text s) : Carries text { s with uart := s.uart.transmit } := by
  obtain ⟨hlatched, hbytes, hchar, hempty⟩ := h
  unfold Uart.transmit
  cases hqueue : s.uart.queue with
  | nil => exact ⟨hlatched, hbytes, hchar, hempty⟩
  | cons b queue =>
      refine ⟨hlatched, ?_, hchar, fun hpc => ?_⟩
      · rw [hqueue, List.append_cons] at hbytes
        exact hbytes
      · rw [hempty hpc] at hqueue
        exact absurd hqueue nofun

/-- Every turn carries the text on. -/
theorem Carries.turn (h : Carries text s) (p : Party) : Carries text (turn s p) := by
  cases p with
  | kernel => exact h.kernel
  | uart => exact h.transmit

/-! ### Every byte reaches the line -/

/-- All calls have returned, and the queue is empty. -/
def Done (s : State) : Prop := s.pc = .outside ∧ s.calls = [] ∧ s.uart.queue = []

/-- The bytes to write and to transmit, and the calls and returns to come. -/
def work (s : State) : ℕ :=
  2 * s.ahead.length + s.uart.queue.length + 2 * s.calls.length + if s.pc = .outside then 0 else 1

/-- The UART has a byte to transmit; or the kernel has something to do, and need not wait. -/
def CanGoOn : Party → State → Prop
  | .uart, s => s.uart.queue ≠ []
  | .kernel, s => s.uart.queue = [] ∧ ¬(s.pc = .outside ∧ s.calls = [])

/-- The turns until the kernel writes, if the queue is empty. -/
def Pc.toWrite : Pc → ℕ
  | .outside => 0
  | .test => 4
  | .poll => 3
  | .check status => if status &&& 0x20 = 0 then 4 else 2
  | .write => 1

/-- The turns until some work is done. -/
def dist : Party → State → ℕ
  | .uart, _ => 0
  | .kernel, s => s.pc.toWrite

/-- The kernel does some work, or moves towards its write. -/
theorem work_kernel (h : Carries text s) (hbusy : ¬(s.pc = .outside ∧ s.calls = [])) :
    work (kernelTurn s) < work s ∨ work (kernelTurn s) = work s ∧ (kernelTurn s).uart.queue = s.uart.queue ∧
      (kernelTurn s).pc ≠ .outside ∧ (s.uart.queue = [] → (kernelTurn s).pc.toWrite < s.pc.toWrite) := by
  have hstep := kernelTurn_step s
  generalize kernelTurn s = s' at hstep ⊢
  unfold work State.ahead
  cases hstep with
  | idle hpc hcalls => exact absurd ⟨hpc, hcalls⟩ hbusy
  | null hpc hcalls =>
      left
      rw [if_pos hpc, if_pos hpc, hcalls]
      simp [output, bytesOf]
  | call hpc hcalls =>
      left
      rw [if_pos hpc, if_pos hpc, hcalls]
      simp [output]
      omega
  | leave hpc hend =>
      left
      rw [hpc, bytesOf_of_end hend]
      simp
  | char hpc hhead =>
      rw [hpc]
      exact .inr ⟨rfl, rfl, nofun, fun _ => show 3 < 4 by omega⟩
  | poll hpc =>
      rw [hpc]
      refine .inr ⟨rfl, rfl, nofun, fun hqueue => ?_⟩
      show (if (inbStatus s.uart).1 &&& 0x20 = 0 then 4 else 2) < 3
      rw [if_neg ((inbStatus_bit s.uart).mpr hqueue)]
      decide
  | @again status hpc hbit =>
      rw [hpc]
      refine .inr ⟨rfl, rfl, nofun, fun _ => ?_⟩
      show 3 < if status &&& 0x20 = 0 then 4 else 2
      rw [if_pos hbit]
      decide
  | @ready status hpc hbit =>
      rw [hpc]
      refine .inr ⟨rfl, rfl, nofun, fun _ => ?_⟩
      show 1 < if status &&& 0x20 = 0 then 4 else 2
      rw [if_neg hbit]
      decide
  | write hpc =>
      left
      have hqueue := h.empty (.inr hpc)
      rw [outb_com1 h.latched hqueue, hpc, hqueue, bytesOf_of_head (h.char (.inr (.inr hpc)))]
      simp [Nat.mul_add]

/-- The UART works a byte off. -/
theorem work_uart (hqueue : s.uart.queue ≠ []) : work { s with uart := s.uart.transmit } < work s := by
  unfold work State.ahead Uart.transmit
  cases hq : s.uart.queue with
  | nil => exact absurd hq hqueue
  | cons b queue =>
      simp

/-- Who can go on does so until some work is done. -/
theorem helpful : Helpful turn (fun _ _ => True) work CanGoOn dist (Carries text) := by
  refine ⟨fun s p _ h => h.turn p, fun s p q _ h hp => ?_⟩
  cases p with
  | uart =>
      cases q with
      | uart => exact .inl (work_uart hp)
      | kernel =>
          by_cases hbusy : s.pc = .outside ∧ s.calls = []
          · have hidle : turn s .kernel = s := by
              show kernelTurn s = s
              unfold kernelTurn
              rw [hbusy.1, hbusy.2]
            rw [hidle]
            exact .inr ⟨rfl, hp, le_rfl, fun hcon => absurd hcon nofun⟩
          · rcases work_kernel h hbusy with hless | ⟨hwork, hqueue, -, -⟩
            · exact .inl hless
            · refine .inr ⟨hwork, ?_, le_rfl, fun hcon => absurd hcon nofun⟩
              show (kernelTurn s).uart.queue ≠ []
              rw [hqueue]
              exact hp
  | kernel =>
      obtain ⟨hempty, hbusy⟩ := hp
      cases q with
      | uart =>
          have hidle : turn s .uart = s := by
            show { s with uart := s.uart.transmit } = s
            unfold Uart.transmit
            rw [hempty]
          rw [hidle]
          exact .inr ⟨rfl, ⟨hempty, hbusy⟩, le_rfl, fun hcon => absurd hcon nofun⟩
      | kernel =>
          rcases work_kernel h hbusy with hless | ⟨hwork, hqueue, hpc, hdist⟩
          · exact .inl hless
          · exact .inr ⟨hwork, ⟨hqueue.trans hempty, fun hcon => hpc hcon.1⟩, (hdist hempty).le, fun _ => hdist hempty⟩

/-- Someone can go on until all is done. -/
theorem canGoOn_exists (hnot : ¬Done s) : ∃ p, CanGoOn p s := by
  by_cases hqueue : s.uart.queue = []
  · exact ⟨.kernel, hqueue, fun hcon => hnot ⟨hcon.1, hcon.2, hqueue⟩⟩
  · exact ⟨.uart, hqueue⟩

/-- When all is done nothing happens any more. -/
theorem Done.turn (h : Done s) (p : Party) : turn s p = s := by
  obtain ⟨hpc, hcalls, hqueue⟩ := h
  cases p with
  | kernel =>
      show kernelTurn s = s
      unfold kernelTurn
      rw [hpc, hcalls]
  | uart =>
      show { s with uart := s.uart.transmit } = s
      unfold Uart.transmit
      rw [hqueue]

/-- When all is done the line has carried the text. -/
theorem Done.line (h : Done s) (hc : Carries text s) : s.uart.line = text := by
  have hbytes := hc.bytes
  unfold State.ahead at hbytes
  rw [h.1, h.2.1, h.2.2, if_pos rfl, List.append_nil] at hbytes
  simpa [output] using hbytes

end turns

/-! ### All calls -/

section calls

variable {σ : ℕ → Party}

/-- At any time the text is on the line, in the queue, or to be written. -/
theorem carries_after (u : Uart) (calls : List (Option (List UInt8))) (t : ℕ) :
    Carries (u.line ++ output calls) (after turn σ (start u calls) t) :=
  after_invariant (fun _ p _ h => h.turn p) .always (carries_start u calls) t

/-- Under a fair schedule all is done in the end. -/
theorem done_of_fair (hfair : Fair σ) (u : Uart) (calls : List (Option (List UInt8))) :
    ∃ t₀, ∀ t, t₀ ≤ t → Done (after turn σ (start u calls) t) := by
  obtain ⟨t₀, ht₀⟩ := hfair.reaches helpful (fun _ => trivial) (fun s _ hnot => canGoOn_exists hnot)
    (carries_start u calls)
  refine ⟨t₀, fun t ht => ?_⟩
  rw [← Nat.add_sub_cancel' ht, after_add]
  exact after_invariant (fun s p _ h => (h.turn p).symm ▸ h) .always ht₀ _

end calls

/-- After `serial_init`, on a UART in any state and for any list of calls of `serial_write_string`: at any time, in any
order of the turns, the bytes on the line, the bytes in the queue and the bytes still to write are what was on the line
before and all that the calls write, in this order. If neither the kernel nor the UART waits forever for its next
turn, all calls return, and from then on the line has carried all of it. -/
theorem transmitted (u : Uart) (calls : List (Option (List UInt8))) (σ : ℕ → Party) :
    (∀ t, (after turn σ (start u calls) t).uart.line ++ (after turn σ (start u calls) t).uart.queue ++
        (after turn σ (start u calls) t).ahead = u.line ++ output calls) ∧
      (Fair σ → ∃ t₀, ∀ t, t₀ ≤ t → Done (after turn σ (start u calls) t) ∧
        (after turn σ (start u calls) t).uart.line = u.line ++ output calls) := by
  refine ⟨fun t => (carries_after u calls t).bytes, fun hfair => ?_⟩
  obtain ⟨t₀, hdone⟩ := done_of_fair hfair u calls
  exact ⟨t₀, fun t ht => ⟨hdone t ht, (hdone t ht).line (carries_after u calls t)⟩⟩

/-- A UART with a byte in its queue and the divisor latch open. -/
def poweredUp : Uart := ⟨0, 0, 0, 0x80, 0, 0, [0x55], [], fun _ => 0⟩

/-- The kernel and the UART in turn, and the calls with "Hi" and with a null pointer. -/
theorem transmitted_alternating :
    ∃ t₀, ∀ t, t₀ ≤ t →
      Done (after turn (fun t => if t % 2 = 0 then .kernel else .uart)
        (start poweredUp [some [0x48, 0x69, 0], none]) t) ∧
      (after turn (fun t => if t % 2 = 0 then Party.kernel else .uart)
        (start poweredUp [some [0x48, 0x69, 0], none]) t).uart.line = [0x48, 0x69] := by
  have hfair : Fair fun t => if t % 2 = 0 then Party.kernel else .uart := by
    intro p t
    cases p with
    | kernel => exact ⟨2 * t, by omega, if_pos (by omega)⟩
    | uart => exact ⟨2 * t + 1, by omega, if_neg (by omega)⟩
  exact (transmitted poweredUp [some [0x48, 0x69, 0], none] _).2 hfair

end PrometheusKernel.Serial
