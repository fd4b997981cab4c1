import PrometheusKernel.Serial.Transmit
import PrometheusKernel.Stdio.Bounded
import PrometheusKernel.Stdio.Render
import PrometheusKernel.Vga.Text

/-!
# The log of the kernel on the screen and on the serial line

`kprintf` and `kputs` hand one string to `vga_write` and then to `serial_write_string`. For messages that are text
(`Message.Valid`), the string is what the format stands for, cut after 1023 bytes. So the log is the same on both
devices: the screen shows its last rows, and the line carries all of it, in whatever order the kernel and the UART
have their turns (`log_on_both_devices`).
-/

namespace PrometheusKernel.Stdio

open ByteMem Interleaving Vga TextLayout
open Serial (Uart Party Done bytesOf output)

/-! ### The calls -/

/-- A `char` as a byte. -/
def toByte (c : Char) : UInt8 := UInt8.ofNat c.toNat

/-- A call that writes to the log. -/
inductive Call
  /-- `kprintf`, with memory, the format, the arguments and the old contents of `buf`. -/
  | kprintf (m : Mem) (fmt : List Char) (ap : List ℕ) (buf : ℕ → Char)
  /-- `kputs`; `none` is a null pointer. -/
  | kputs (str : Option (List UInt8))

/-- The string that a call hands to `vga_write` and `serial_write_string`, if it does. -/
def Call.string : Call → Option (Option (List UInt8))
  | .kprintf m fmt ap buf =>
      (Stdio.kprintf m fmt ap buf).map fun (_, buf) => some ((List.range 1024).map fun i => toByte (buf i))
  | .kputs str => some str

/-- The calls in turn: the console, and the strings for the serial line. -/
def logCalls : Console → List Call → Option (Console × List (Option (List UInt8)))
  | console, [] => some (console, [])
  | console, call :: calls =>
      call.string.bind fun str =>
        (logCalls ((str.map (vgaWrite console)).getD console) calls).map fun (console, strs) => (console, str :: strs)

/-! ### What is written -/

/-- A message: a call of `kprintf` with its format in items, or a string for `kputs`. -/
inductive Message
  | format (m : Mem) (items : List Item) (args : List ℕ) (buf : ℕ → Char)
  | string (str : List UInt8)

def Message.call : Message → Call
  | .format m items args buf => .kprintf m (formatOf items) args buf
  | .string str => .kputs (some str)

/-- The text of a message. -/
def Message.text : Message → List UInt8
  | .format m items args _ => ((rendered m items args).take 1023).map toByte
  | .string str => bytesOf str

/-- The arguments match the format, there are no length modifiers and no wide hexadecimal arguments, the result is an
`int`, and all is text. -/
structure Message.Valid (message : Message) : Prop where
  isText : ∀ c ∈ message.text, IsText c
  format : ∀ m items args buf, message = .format m items args buf →
    Matches m items args ∧ Plain items args ∧ (rendered m items args).length < 2 ^ 31

/-- The log. -/
def logOf (messages : List Message) : List UInt8 := messages.flatMap Message.text

section log

variable {m : Mem} {items : List Item} {args : List ℕ} {text : List Char}

/-- A byte of text does not end a string. -/
theorem isText_ne_zero {c : UInt8} (hc : IsText c) : c ≠ 0 := by
  rintro rfl
  rcases hc with hprint | heq | heq
  · exact absurd hprint.1 (by decide)
  · exact absurd heq (by decide)
  · exact absurd heq (by decide)

/-- `vga_write` reads up to the first 0. -/
theorem vgaWrite_bytesOf (console : Console) (str : List UInt8) :
    vgaWrite console (bytesOf str) = vgaWrite console str := by
  induction str generalizing console with
  | nil => rfl
  | cons c str ih =>
      unfold bytesOf
      by_cases h0 : c = 0
      · rw [List.takeWhile_cons_of_neg (by simpa using h0), Vga.vgaWrite, Vga.vgaWrite, if_pos h0]
      · rw [List.takeWhile_cons_of_pos (by simpa using h0), Vga.vgaWrite, Vga.vgaWrite, if_neg h0, if_neg h0]
        exact ih _

/-- `kprintf` hands over what the format stands for. -/
theorem printed_plain (h : Matches m items args) (hp : Plain items args)
    (hlen : (rendered m items args).length < 2 ^ 31) : Printed m (formatOf items) args (rendered m items args) := by
  have hloop : ∀ outSz o, formatLoop m true outSz (formatOf items) args o =
      some (o.puts true outSz (rendered m items args), []) := by
    intro outSz o
    obtain ⟨cs, hcs, -, -, heq⟩ := formatLoop_plain h (hp.countP h)
    rw [← heq hp]
    exact hcs o
  exact printed_of_truncated hlen (truncated_of_loop (by decide) hloop)

/-- The bytes of the buffer in front of the terminator. -/
theorem bytesOf_buffer {buf : ℕ → Char} (hbuf : (List.range (min text.length 1023)).map buf = text.take 1023)
    (hend : buf (min text.length 1023) = Char.ofNat 0) (htext : ∀ c ∈ (text.take 1023).map toByte, IsText c) :
    bytesOf ((List.range 1024).map fun i => toByte (buf i)) = (text.take 1023).map toByte := by
  obtain ⟨k, hk⟩ : ∃ k, 1024 = min text.length 1023 + (k + 1) := ⟨1023 - min text.length 1023, by omega⟩
  have hfront : (List.range (min text.length 1023)).map (fun i => toByte (buf i)) = (text.take 1023).map toByte := by
    rw [← hbuf, List.map_map]
    rfl
  have hzero : toByte (buf (min text.length 1023)) = 0 := by
    rw [hend]
    rfl
  unfold bytesOf
  rw [hk, List.range_add, List.map_append, hfront, List.range_succ_eq_map, List.map_cons, List.map_cons, Nat.add_zero,
    hzero, List.takeWhile_append_of_pos fun c hc => by simpa using isText_ne_zero (htext c hc),
    List.takeWhile_cons_of_neg (by simp), List.append_nil]

/-- The string of a valid message, up to the first 0, is its text. -/
theorem Message.Valid.string {message : Message} (h : message.Valid) :
    ∃ str, message.call.string = some (some str) ∧ bytesOf str = message.text := by
  cases message with
  | string str => exact ⟨str, rfl, rfl⟩
  | format m items args buf =>
      obtain ⟨hmatches, hplain, hlen⟩ := h.format m items args buf rfl
      obtain ⟨buf', hcall, htext, hend⟩ := printed_plain hmatches hplain hlen buf
      refine ⟨_, ?_, bytesOf_buffer htext hend h.isText⟩
      show (Stdio.kprintf m (formatOf items) args buf).map _ = _
      rw [hcall]
      rfl

/-- The column stays on the screen. -/
theorem col_lt {L : Layout UInt8} (hcol : L.col < vgaWidth) {str : List UInt8} (hstr : ∀ c ∈ str, IsText c) :
    (str.foldl layOut L).col < vgaWidth := by
  induction str generalizing L with
  | nil => exact hcol
  | cons c str ih =>
      obtain ⟨-, hrest⟩ := List.forall_mem_cons.mp hstr
      refine ih ?_ hrest
      unfold layOut Layout.put
      split_ifs with hnl hcr hlast
      · exact Nat.zero_lt_succ _
      · exact Nat.zero_lt_succ _
      · exact hlast
      · exact Nat.zero_lt_succ _

/-- The calls of valid messages return, with the log on the screen and in the strings for the line. -/
theorem logCalls_valid {messages : List Message} (h : ∀ message ∈ messages, message.Valid) {L : Layout UInt8}
    {console : Console} (hshows : Shows L console) (hcol : L.col < vgaWidth) :
    ∃ console' strs, logCalls console (messages.map Message.call) = some (console', strs) ∧
      Shows ((logOf messages).foldl layOut L) console' ∧ output strs = logOf messages := by
  induction messages generalizing L console with
  | nil => exact ⟨console, [], rfl, hshows, rfl⟩
  | cons message messages ih =>
      obtain ⟨hmessage, hrest⟩ := List.forall_mem_cons.mp h
      obtain ⟨str, hstr, hbytes⟩ := hmessage.string
      obtain ⟨hshows', hcol'⟩ : Shows (message.text.foldl layOut L) (vgaWrite console str) ∧
          (message.text.foldl layOut L).col < vgaWidth := by
        rw [← vgaWrite_bytesOf, hbytes]
        exact ⟨hshows.vgaWrite hcol hmessage.isText, col_lt hcol hmessage.isText⟩
      obtain ⟨console', strs, hcalls, hlog, hline⟩ := ih hrest hshows' hcol'
      refine ⟨console', some str :: strs, ?_, ?_, ?_⟩
      · rw [List.map_cons, logCalls, hstr, Option.bind_some]
        show (logCalls (vgaWrite console str) _).map _ = _
        rw [hcalls]
        rfl
      · rw [logOf, List.flatMap_cons, List.foldl_append]
        exact hlog
      · rw [logOf, List.flatMap_cons, ← hbytes]
        exact congrArg (bytesOf str ++ ·) hline

end log

/-- After `vga_init` and `serial_init`, on a frame buffer and a UART in any state, all calls that write valid messages
return. The screen shows the last 25 rows of the log in the colour 0x07, with the cursor behind it. The line carries
the beginning of the log at any time, in any order of the turns of the kernel and the UART, and all of it once the
kernel and the UART have had enough turns. -/
theorem log_on_both_devices (c : Console) (u : Uart) (messages : List Message)
    (h : ∀ message ∈ messages, message.Valid) :
    ∃ console strs, logCalls (vgaInit c) (messages.map Message.call) = some (console, strs) ∧
      (∀ y < vgaHeight, ∀ x < vgaWidth,
        console.buffer (y * vgaWidth + x) % 2 ^ 8 = ((layoutOf (logOf messages)).window space vgaHeight y x).toNat ∧
          console.buffer (y * vgaWidth + x) / 2 ^ 8 = 0x07) ∧
      (console.cursorX = (layoutOf (logOf messages)).col ∧
        console.cursorY = (layoutOf (logOf messages)).windowRow vgaHeight) ∧
      ∀ σ : ℕ → Party,
        (∀ t, (after Serial.turn σ (Serial.start u strs) t).uart.line <+: u.line ++ logOf messages) ∧
        (Fair σ → ∃ t₀, ∀ t, t₀ ≤ t → Done (after Serial.turn σ (Serial.start u strs) t) ∧
          (after Serial.turn σ (Serial.start u strs) t).uart.line = u.line ++ logOf messages) := by
  obtain ⟨console, strs, hcalls, hshows, hline⟩ := logCalls_valid h (shows_vgaInit c) (show 0 < vgaWidth by decide)
  have hlog : ∀ b ∈ logOf messages, IsText b := by
    intro b hb
    obtain ⟨message, hmessage, hmem⟩ := List.mem_flatMap.mp hb
    exact (h message hmessage).isText b hmem
  refine ⟨console, strs, hcalls, fun y hy x hx => ?_, ⟨hshows.cursorX, hshows.cursorY⟩, fun σ => ⟨fun t => ?_, ?_⟩⟩
  · have hprint : Printable ((layoutOf (logOf messages)).window space vgaHeight y x) := by
      rw [Layout.window_eq_cell]
      exact printable_cell hlog _ _
    rw [hshows.buffer y hy x hx]
    exact vgaEntry_printable hprint
  · rw [← hline, ← (Serial.carries_after u strs t).bytes, List.append_assoc]
    exact List.prefix_append _ _
  · intro hfair
    obtain ⟨t₀, hdone⟩ := Serial.done_of_fair hfair u strs
    exact ⟨t₀, fun t ht => ⟨hdone t ht, hline ▸ (hdone t ht).line (Serial.carries_after u strs t)⟩⟩

/-- `kprintf("n=%d\n", 7)`. -/
def sample : Message :=
  .format (fun _ => 0) [.literal 'n', .literal '=', .conversion (.num .none .d), .literal '\n'] [7] fun _ => ' '

/-- One message on both devices. -/
theorem log_on_both_devices_sample :
    sample.text = [0x6E, 0x3D, 0x37, 0x0A] ∧
    ∃ console strs, logCalls (vgaInit (poweredUp fun _ => 0)) ([sample].map Message.call) = some (console, strs) ∧
      (console.cursorX = (layoutOf (logOf [sample])).col ∧
        console.cursorY = (layoutOf (logOf [sample])).windowRow vgaHeight) := by
  have htext : sample.text = [0x6E, 0x3D, 0x37, 0x0A] := by decide
  have hvalid : ∀ message ∈ [sample], message.Valid := by
    intro message hmem
    obtain rfl := List.mem_singleton.mp hmem
    refine ⟨?_, ?_⟩
    · rw [htext]
      intro c hc
      fin_cases hc
      · exact .inl ⟨by decide, by decide⟩
      · exact .inl ⟨by decide, by decide⟩
      · exact .inl ⟨by decide, by decide⟩
      · exact .inr (.inl rfl)
    · rintro m items args buf heq
      obtain ⟨rfl, rfl, rfl, rfl⟩ := Message.format.inj heq
      exact ⟨⟨by decide, by decide, by decide, by decide, by norm_num, nofun, by decide, by decide, rfl⟩,
        ⟨rfl, nofun, trivial⟩, by decide⟩
  obtain ⟨console, strs, hcalls, -, hcursor, -⟩ :=
    log_on_both_devices (poweredUp fun _ => 0) Serial.poweredUp [sample] hvalid
  exact ⟨htext, console, strs, hcalls, hcursor⟩

end PrometheusKernel.Stdio
