import PrometheusKernel.Lib.Interleaving

/-!
# The interrupt controllers: model of `kernel/drivers/pic.c`

Each of the two controllers takes an initialization sequence: a byte with bit 4 at the command port begins it and
clears the registers, and the next bytes at the data port are the vector base, the cascade and, if it was announced,
the mode. Otherwise a byte at the data port is the new mask, and `0x20` at the command port ends the interrupt of the
highest priority. A read of the data port gives the mask.

A driver computes with `int` and stores bytes. The shift by `irq - 8` is undefined from 32 on, where the functions
here give `none`.

Every mask bit is what the last call about its line has made it: `masks_follow_calls`.
-/

namespace PrometheusKernel.Interrupts

open Interleaving

/-- A byte. -/
abbrev Byte := BitVec 8

/-! ### The controllers -/

/-- What the next byte at the data port is. -/
inductive Phase
  | vectorBase
  | cascade
  | mode
  | ready
deriving DecidableEq

/-- One controller. -/
structure Controller where
  /-- The initialization sequence. -/
  phase : Phase
  /-- It ends with the mode. -/
  needsMode : Bool
  /-- The vector of line 0, the cascade and the mode. -/
  base : Byte
  link : Byte
  mode : Byte
  /-- The mask, the requests and the interrupts in service, a bit for each line. -/
  imr : Byte
  irr : Byte
  isr : Byte
deriving DecidableEq

/-- The first of the lines 0 to 7 with a bit in `r`. -/
def firstLine (r : Byte) : Option ℕ := (List.range 8).find? fun n => r.getLsbD n

/-- A byte at the command port. -/
def Controller.command (c : Controller) (v : Byte) : Controller :=
  if v.getLsbD 4 then
    { c with phase := .vectorBase, needsMode := v.getLsbD 0, imr := 0, irr := 0, isr := 0 }
  else if v = 0x20 then
    match firstLine c.isr with
    | none => c
    | some n => { c with isr := c.isr &&& ~~~(1#8 <<< n) }
  else c

/-- A byte at the data port. -/
def Controller.data (c : Controller) (v : Byte) : Controller :=
  match c.phase with
  | .vectorBase => { c with base := v &&& 0xF8, phase := .cascade }
  | .cascade => { c with link := v, phase := if c.needsMode then .mode else .ready }
  | .mode => { c with mode := v, phase := .ready }
  | .ready => { c with imr := v }

/-- The two controllers; line 2 of the master is the slave. -/
structure Pics where
  master : Controller
  slave : Controller
deriving DecidableEq

/-- `PIC1_COMMAND`, `PIC1_DATA`, `PIC2_COMMAND` and `PIC2_DATA`. -/
def pic1Command : ℕ := 0x20
def pic1Data : ℕ := pic1Command + 1
def pic2Command : ℕ := 0xA0
def pic2Data : ℕ := pic2Command + 1

/-- `outb`; `io_wait` writes to another port. -/
def outb (p : Pics) (port : ℕ) (v : Byte) : Pics :=
  if port = pic1Command then { p with master := p.master.command v }
  else if port = pic1Data then { p with master := p.master.data v }
  else if port = pic2Command then { p with slave := p.slave.command v }
  else if port = pic2Data then { p with slave := p.slave.data v }
  else p

/-- `inb` of a data port. -/
def inbMask (p : Pics) (port : ℕ) : Byte := if port = pic1Data then p.master.imr else p.slave.imr

/-! ### The driver -/

/-- `io_wait`. -/
def ioWait (p : Pics) : Pics := outb p 0x80 0

/-- `pic_init`. -/
def picInit (p : Pics) : Pics :=
  let a1 := inbMask p pic1Data
  let a2 := inbMask p pic2Data
  let p := ioWait (outb p pic1Command (0x10 ||| 0x01))
  let p := ioWait (outb p pic2Command (0x10 ||| 0x01))
  let p := ioWait (outb p pic1Data 0x20)
  let p := ioWait (outb p pic2Data 0x28)
  let p := ioWait (outb p pic1Data 4)
  let p := ioWait (outb p pic2Data 2)
  let p := ioWait (outb p pic1Data 0x01)
  let p := ioWait (outb p pic2Data 0x01)
  outb (outb p pic1Data a1) pic2Data a2

/-- `pic_send_eoi`. -/
def picSendEoi (p : Pics) (irq : ℕ) : Pics :=
  outb (if irq ≥ 8 then outb p pic2Command 0x20 else p) pic1Command 0x20

/-- `1 << n` as an `int`. -/
def shiftOne (n : ℕ) : Option (BitVec 32) := if n < 32 then some (1#32 <<< n) else none

/-- The body of `pic_mask_irq` and `pic_unmask_irq`, which compute the new mask by `f`. -/
def picChangeMask (f : BitVec 32 → BitVec 32 → BitVec 32) (p : Pics) (irq : ℕ) : Option Pics :=
  let port := if irq < 8 then pic1Data else pic2Data
  let val := (inbMask p port).setWidth 32
  if irq < 8 then (shiftOne irq).map fun bit => outb p port ((f val bit).setWidth 8)
  else (shiftOne (irq - 8)).map fun bit => outb p port ((f val bit).setWidth 8)

/-- `pic_mask_irq`. -/
def picMaskIrq : Pics → ℕ → Option Pics := picChangeMask fun val bit => val ||| bit

/-- `pic_unmask_irq`. -/
def picUnmaskIrq : Pics → ℕ → Option Pics := picChangeMask fun val bit => val &&& ~~~bit

/-- A call that changes a mask, or the end of an interrupt. -/
inductive PicCall
  | mask (irq : ℕ)
  | unmask (irq : ℕ)
  | sendEoi (irq : ℕ)
deriving DecidableEq

/-- One call. -/
def picCall (p : Pics) : PicCall → Option Pics
  | .mask irq => picMaskIrq p irq
  | .unmask irq => picUnmaskIrq p irq
  | .sendEoi irq => some (picSendEoi p irq)

/-! ### The masks -/

/-- The mask bit of a line. -/
def masked (p : Pics) (line : ℕ) : Bool :=
  if line < 8 then p.master.imr.getLsbD line else p.slave.imr.getLsbD (line - 8)

/-- What a call makes of the mask bit `old` of a line. -/
def PicCall.setting (line : ℕ) (old : Bool) : PicCall → Bool
  | .mask irq => if irq = line then true else old
  | .unmask irq => if irq = line then false else old
  | .sendEoi _ => old

/-- Both controllers are initialized, with the vectors 0x20 to 0x2F. -/
structure Ready (p : Pics) : Prop where
  master : p.master.phase = .ready
  slave : p.slave.phase = .ready
  masterBase : p.master.base = 0x20
  slaveBase : p.slave.base = 0x28

section masks

variable {p p' : Pics}

/-- `pic_init`, from any state of the controllers. -/
theorem picInit_spec (p : Pics) :
    Ready (picInit p) ∧ (picInit p).master.imr = p.master.imr ∧ (picInit p).slave.imr = p.slave.imr := by
  exact ⟨⟨rfl, rfl, rfl, rfl⟩, rfl, rfl⟩

/-- The bits of the `int` that `1 << n` gives. -/
theorem shiftOne_bit {n j : ℕ} {bit : BitVec 32} (h : shiftOne n = some bit) (hj : j < 8) :
    bit.getLsbD j = decide (n = j) := by
  unfold shiftOne at h
  split_ifs at h with hn
  obtain rfl := Option.some.inj h
  rw [BitVec.getLsbD_shiftLeft, BitVec.getLsbD_one]
  by_cases hjn : j < n
  · simp [hjn, Nat.ne_of_gt hjn]
  · simp [hjn, show j < 32 by omega]
    omega

/-- A byte with one more bit. -/
theorem getLsbD_set {n j : ℕ} {bit : BitVec 32} (val : Byte) (h : shiftOne n = some bit) (hj : j < 8) :
    ((val.setWidth 32 ||| bit).setWidth 8).getLsbD j = if n = j then true else val.getLsbD j := by
  rw [BitVec.getLsbD_setWidth, BitVec.getLsbD_or, BitVec.getLsbD_setWidth, shiftOne_bit h hj]
  by_cases hn : n = j <;> simp [hn, hj, show j < 32 by omega]

/-- A byte with one bit less. -/
theorem getLsbD_clear {n j : ℕ} {bit : BitVec 32} (val : Byte) (h : shiftOne n = some bit) (hj : j < 8) :
    ((val.setWidth 32 &&& ~~~bit).setWidth 8).getLsbD j = if n = j then false else val.getLsbD j := by
  rw [BitVec.getLsbD_setWidth, BitVec.getLsbD_and, BitVec.getLsbD_not, BitVec.getLsbD_setWidth, shiftOne_bit h hj]
  by_cases hn : n = j <;> simp [hn, hj, show j < 32 by omega]

/-- A byte at a data port is the mask. -/
theorem Controller.data_ready {c : Controller} (h : c.phase = .ready) (v : Byte) : c.data v = { c with imr := v } := by
  unfold Controller.data
  rw [h]

/-- Writing the mask of the master. -/
theorem Ready.outb_data (h : Ready p) (v : Byte) :
    outb p pic1Data v = { p with master := { p.master with imr := v } } ∧
      outb p pic2Data v = { p with slave := { p.slave with imr := v } } := by
  rw [← Controller.data_ready h.master, ← Controller.data_ready h.slave]
  exact ⟨rfl, rfl⟩

/-- A call about the line `irq`, where `b` is what becomes of its mask bit. -/
theorem Ready.changeMask {f : BitVec 32 → BitVec 32 → BitVec 32} {b : Bool} {irq : ℕ}
    (hf : ∀ (val : Byte) n j bit, shiftOne n = some bit → j < 8 →
      ((f (val.setWidth 32) bit).setWidth 8).getLsbD j = if n = j then b else val.getLsbD j)
    (h : Ready p) (hcall : picChangeMask f p irq = some p') :
    Ready p' ∧ ∀ line < 16, masked p' line = if irq = line then b else masked p line := by
  unfold picChangeMask at hcall
  unfold masked
  split_ifs at hcall with hirq
  · obtain ⟨bit, hbit, rfl⟩ := Option.map_eq_some_iff.mp hcall
    rw [(h.outb_data _).1]
    refine ⟨⟨h.master, h.slave, h.masterBase, h.slaveBase⟩, fun line hline => ?_⟩
    by_cases h8 : line < 8
    · rw [if_pos h8, if_pos h8]
      exact hf _ irq line bit hbit h8
    · rw [if_neg h8, if_neg h8, if_neg (by omega)]
  · obtain ⟨bit, hbit, rfl⟩ := Option.map_eq_some_iff.mp hcall
    rw [(h.outb_data _).2]
    refine ⟨⟨h.master, h.slave, h.masterBase, h.slaveBase⟩, fun line hline => ?_⟩
    by_cases h8 : line < 8
    · rw [if_pos h8, if_pos h8, if_neg (by omega)]
    · rw [if_neg h8, if_neg h8]
      refine (hf _ (irq - 8) (line - 8) bit hbit (by omega)).trans (if_congr ?_ rfl rfl)
      omega

/-- An end of interrupt changes neither vectors nor mask. -/
theorem Controller.command_eoi (c : Controller) :
    (c.command 0x20).phase = c.phase ∧ (c.command 0x20).base = c.base ∧ (c.command 0x20).imr = c.imr := by
  unfold Controller.command
  rw [if_neg (by decide), if_pos rfl]
  split
  · exact ⟨rfl, rfl, rfl⟩
  · exact ⟨rfl, rfl, rfl⟩

/-- The end of an interrupt changes no mask. -/
theorem Ready.sendEoi (h : Ready p) (irq : ℕ) :
    Ready (picSendEoi p irq) ∧ ∀ line, masked (picSendEoi p irq) line = masked p line := by
  obtain ⟨hphase, hbase, himr⟩ := p.master.command_eoi
  obtain ⟨hphase', hbase', himr'⟩ := p.slave.command_eoi
  have hslave : (picSendEoi p irq).slave = if irq ≥ 8 then p.slave.command 0x20 else p.slave := by
    unfold picSendEoi
    split_ifs <;> rfl
  have hmaster : (picSendEoi p irq).master = p.master.command 0x20 := by
    unfold picSendEoi
    split_ifs <;> rfl
  unfold masked
  rw [hslave, hmaster, himr]
  refine ⟨⟨?_, ?_, ?_, ?_⟩, fun line => ?_⟩
  · rw [hmaster, hphase, h.master]
  · rw [hslave]
    split_ifs
    · rw [hphase', h.slave]
    · exact h.slave
  · rw [hmaster, hbase, h.masterBase]
  · rw [hslave]
    split_ifs
    · rw [hbase', h.slaveBase]
    · exact h.slaveBase
  · split_ifs
    · rfl
    · rw [himr']
    · rfl

/-- One call. -/
theorem Ready.call (h : Ready p) {call : PicCall} (hcall : picCall p call = some p') :
    Ready p' ∧ ∀ line < 16, masked p' line = call.setting line (masked p line) := by
  cases call with
  | mask irq =>
      have hmask : picChangeMask (fun val bit => val ||| bit) p irq = some p' := hcall
      refine h.changeMask ?_ hmask
      intro val n j bit hbit hj
      exact getLsbD_set val hbit hj
  | unmask irq =>
      have hunmask : picChangeMask (fun val bit => val &&& ~~~bit) p irq = some p' := hcall
      refine h.changeMask ?_ hunmask
      intro val n j bit hbit hj
      exact getLsbD_clear val hbit hj
  | sendEoi irq =>
      obtain rfl := Option.some.inj hcall
      exact ⟨(h.sendEoi irq).1, fun line _ => (h.sendEoi irq).2 line⟩

/-- A run of calls leaves the masks as they were set. -/
theorem Ready.exec {calls : List PicCall} (h : Ready p) (hexec : exec picCall p calls = some p') :
    Ready p' ∧ ∀ line < 16, masked p' line = calls.foldl (PicCall.setting line) (masked p line) := by
  induction calls generalizing p with
  | nil =>
      obtain rfl : p = p' := Option.some.inj hexec
      exact ⟨h, fun _ _ => rfl⟩
  | cons call calls ih =>
      obtain ⟨p₁, hcall, hrest⟩ := exec_cons hexec
      obtain ⟨h₁, hmask₁⟩ := h.call hcall
      obtain ⟨h', hmask'⟩ := ih h₁ hrest
      refine ⟨h', fun line hline => ?_⟩
      rw [List.foldl_cons, ← hmask₁ line hline]
      exact hmask' line hline

end masks

/-- After `pic_init`, from any state of the two controllers, and any calls of `pic_mask_irq`, `pic_unmask_irq` and
`pic_send_eoi` whose shifts are defined, the vectors are those from 0x20 and 0x28 on, and a line is masked or not as
the last call that masks or unmasks it says, or as it was before `pic_init` if there is none. -/
theorem masks_follow_calls (p : Pics) (calls : List PicCall) (p' : Pics)
    (hexec : exec picCall (picInit p) calls = some p') :
    Ready p' ∧ ∀ line < 16, masked p' line = calls.foldl (PicCall.setting line) (masked p line) := by
  obtain ⟨hready, hmaster, hslave⟩ := picInit_spec p
  have hsame : ∀ line, masked (picInit p) line = masked p line := by
    intro line
    unfold masked
    rw [hmaster, hslave]
  obtain ⟨h', hmask⟩ := hready.exec hexec
  exact ⟨h', fun line hline => (hmask line hline).trans (by rw [hsame])⟩

/-- A controller with all lines masked, in the middle of its initialization. -/
def undefinedController : Controller := ⟨.mode, true, 0, 0, 0, 0xFF, 0, 0⟩

/-- The timer is unmasked, line 9 as well and masked again; line 17 is none. -/
theorem masks_follow_calls_sample :
    ∃ p', exec picCall (picInit ⟨undefinedController, undefinedController⟩) [.unmask 0, .unmask 9, .mask 9, .unmask 17]
        = some p' ∧ Ready p' ∧ masked p' 0 = false ∧ masked p' 9 = true := by
  refine ⟨_, rfl, ?_⟩
  obtain ⟨hready, hmask⟩ := masks_follow_calls ⟨undefinedController, undefinedController⟩
    [.unmask 0, .unmask 9, .mask 9, .unmask 17] _ rfl
  exact ⟨hready, hmask 0 (by decide), hmask 9 (by decide)⟩

end PrometheusKernel.Interrupts
