import Mathlib.Data.BitVec
import Mathlib.Tactic
import PrometheusKernel.Lib.WordStack

/-!
# Interrupts: model of `idt.asm`, `interrupts.asm`, `interrupts.h` and `core/interrupts.c`

A processor is its 15 general registers, the stack pointer and memory. An interrupt aligns the stack pointer to 16
bytes, and all that is pushed and popped then are words of 8 bytes, so memory is a function from the addresses of
words to words. Flags and segment registers take no part, except that they are among the words that the processor
pushes.

`interrupt_handler` is called between `saveRegs` and `restoreRegs`. Its calls into the drivers are events; `none` is
a call that does not return.
-/

namespace PrometheusKernel.Interrupts

open WordStack

/-- A word of 64 bits, or an address. -/
abbrev Word64 := BitVec 64

/-- The general registers but `rsp`. -/
inductive Reg
  | rax | rbx | rcx | rdx | rbp | rdi | rsi | r8 | r9 | r10 | r11 | r12 | r13 | r14 | r15
deriving DecidableEq, Repr

/-- Registers, `rsp` and memory. -/
abbrev Cpu := Machine Word64 Word64 Reg

/-! ### Instructions -/

/-- The instructions of the interrupt stubs. -/
inductive Instr
  /-- `push r`. -/
  | push (r : Reg)
  /-- `push qword v`. -/
  | pushQword (v : Word64)
  /-- `pop r`. -/
  | pop (r : Reg)
  /-- `mov rdi, rsp`. -/
  | movRdiRsp
  /-- `cld`. -/
  | cld
  /-- `add rsp, n`. -/
  | addRsp (n : Word64)
deriving DecidableEq

/-- One instruction. -/
def execInstr (c : Cpu) : Instr → Cpu
  | .push r => push 8 (c.regs r) c
  | .pushQword v => push 8 v c
  | .pop r => pop 8 r c
  | .movRdiRsp => { c with regs := Function.update c.regs .rdi c.sp }
  | .cld => c
  | .addRsp n => { c with sp := c.sp + n }

/-- Instructions in turn. -/
def run (c : Cpu) (is : List Instr) : Cpu := is.foldl execInstr c

/-! ### `idt.asm` -/

/-- `%0` in a NASM macro: the number of parameters it is called with. -/
def paramCount (params : List String) : Word64 := BitVec.ofNat 64 params.length

/-- `ISR_NOERR`, up to the jump. -/
def isrNoErr (params : List String) : List Instr := [.pushQword 0, .pushQword (paramCount params)]

/-- `ISR_ERR`, up to the jump. -/
def isrErr (params : List String) : List Instr := [.pushQword (paramCount params)]

/-- The stubs in the order in which `interrupts_init` puts them into the table: `isr0` to `isr31` for the vectors 0
to 31, `irq0` to `irq15` for the vectors 32 to 47. -/
def stubs : List (List Instr) :=
  [isrNoErr ["isr0"], isrNoErr ["isr1"], isrNoErr ["isr2"], isrNoErr ["isr3"], isrNoErr ["isr4"],
    isrNoErr ["isr5"], isrNoErr ["isr6"], isrNoErr ["isr7"], isrErr ["isr8"], isrNoErr ["isr9"],
    isrErr ["isr10"], isrErr ["isr11"], isrErr ["isr12"], isrErr ["isr13"], isrErr ["isr14"],
    isrNoErr ["isr15"], isrNoErr ["isr16"], isrNoErr ["isr17"], isrNoErr ["isr18"], isrNoErr ["isr19"],
    isrNoErr ["isr20"], isrNoErr ["isr21"], isrNoErr ["isr22"], isrNoErr ["isr23"], isrNoErr ["isr24"],
    isrNoErr ["isr25"], isrNoErr ["isr26"], isrNoErr ["isr27"], isrNoErr ["isr28"], isrNoErr ["isr29"],
    isrNoErr ["isr30"], isrNoErr ["isr31"], isrNoErr ["irq0"], isrNoErr ["irq1"], isrNoErr ["irq2"],
    isrNoErr ["irq3"], isrNoErr ["irq4"], isrNoErr ["irq5"], isrNoErr ["irq6"], isrNoErr ["irq7"],
    isrNoErr ["irq8"], isrNoErr ["irq9"], isrNoErr ["irq10"], isrNoErr ["irq11"], isrNoErr ["irq12"],
    isrNoErr ["irq13"], isrNoErr ["irq14"], isrNoErr ["irq15"]]

/-! ### `interrupts.asm` -/

/-- `interrupt_common_stub` before the call. -/
def saveRegs : List Instr :=
  [.push .r15, .push .r14, .push .r13, .push .r12, .push .r11, .push .r10, .push .r9, .push .r8, .push .rsi,
    .push .rdi, .push .rbp, .push .rdx, .push .rcx, .push .rbx, .push .rax, .movRdiRsp, .cld]

/-- `interrupt_common_stub` after the call, up to `iretq`. -/
def restoreRegs : List Instr :=
  [.pop .rax, .pop .rbx, .pop .rcx, .pop .rdx, .pop .rbp, .pop .rdi, .pop .rsi, .pop .r8, .pop .r9, .pop .r10,
    .pop .r11, .pop .r12, .pop .r13, .pop .r14, .pop .r15, .addRsp 16]

/-! ### The processor -/

/-- The vectors for which the processor pushes an error code: #DF, #TS, #NP, #SS, #GP, #PF, #AC, #CP, #VC, #SX. -/
def pushesErrorCode (vector : ℕ) : Bool := vector ∈ [8, 10, 11, 12, 13, 14, 17, 21, 29, 30]

/-- What the processor pushes besides the stack pointer. -/
structure Context where
  /-- `ss`. -/
  ss : Word64
  /-- `rflags`. -/
  rflags : Word64
  /-- `cs`. -/
  cs : Word64
  /-- `rip`. -/
  rip : Word64
  /-- The error code. -/
  err : Word64

/-- The words that the processor pushes for an interrupt. -/
def cpuWords (c : Cpu) (x : Context) (vector : ℕ) : List Word64 :=
  [x.ss, c.sp, x.rflags, x.cs, x.rip] ++ if pushesErrorCode vector then [x.err] else []

/-- An interrupt: the processor aligns the stack pointer and pushes its words. -/
def enter (c : Cpu) (x : Context) (vector : ℕ) : Cpu :=
  pushAll 8 (cpuWords c x vector) { c with sp := c.sp &&& ~~~15 }

/-- The address at which the processor has pushed `rip`. -/
def ripAddress (c : Cpu) : Word64 := (c.sp &&& ~~~15) - 40

/-- The state in which `interrupt_handler` is called. -/
def atHandler (c : Cpu) (x : Context) (vector : ℕ) : Cpu :=
  run (run (enter c x vector) (stubs.getD vector [])) saveRegs

/-! ### `interrupts.h` and `interrupts.c` -/

/-- `interrupt_frame_t`, the fields from the lowest address on. -/
structure InterruptFrame where
  r15 : Word64
  r14 : Word64
  r13 : Word64
  r12 : Word64
  r11 : Word64
  r10 : Word64
  r9 : Word64
  r8 : Word64
  rsi : Word64
  rdi : Word64
  rbp : Word64
  rdx : Word64
  rcx : Word64
  rbx : Word64
  rax : Word64
  intNo : Word64
  errCode : Word64
  rip : Word64
  cs : Word64
  rflags : Word64
  rsp : Word64
  ss : Word64

/-- `*frame`: the words from the address `p` on. -/
def frameAt (mem : Word64 → Word64) (p : Word64) : InterruptFrame :=
  let word (k : ℕ) : Word64 := mem (p + BitVec.ofNat 64 (8 * k))
  { r15 := word 0, r14 := word 1, r13 := word 2, r12 := word 3, r11 := word 4, r10 := word 5, r9 := word 6,
    r8 := word 7, rsi := word 8, rdi := word 9, rbp := word 10, rdx := word 11, rcx := word 12, rbx := word 13,
    rax := word 14, intNo := word 15, errCode := word 16, rip := word 17, cs := word 18, rflags := word 19,
    rsp := word 20, ss := word 21 }

/-- The field named after a register. -/
def InterruptFrame.reg (f : InterruptFrame) : Reg → Word64
  | .rax => f.rax
  | .rbx => f.rbx
  | .rcx => f.rcx
  | .rdx => f.rdx
  | .rbp => f.rbp
  | .rdi => f.rdi
  | .rsi => f.rsi
  | .r8 => f.r8
  | .r9 => f.r9
  | .r10 => f.r10
  | .r11 => f.r11
  | .r12 => f.r12
  | .r13 => f.r13
  | .r14 => f.r14
  | .r15 => f.r15

/-- A call from `interrupt_handler` into a driver. -/
inductive Event
  /-- `pit_irq_tick()`. -/
  | pitIrqTick
  /-- `keyboard_irq_handler()`. -/
  | keyboardIrqHandler
  /-- `pic_send_eoi(irq)`. -/
  | picSendEoi (irq : ℕ)
deriving DecidableEq

/-- `interrupt_handler`; below 32 it reports an exception and halts. -/
def interruptHandler (frame : InterruptFrame) : Option (List Event) :=
  if frame.intNo.toNat < 32 then none
  else if 32 ≤ frame.intNo.toNat ∧ frame.intNo.toNat ≤ 47 then
    let irq := (frame.intNo.toNat - 32) % 2 ^ 8
    some ((if irq = 0 then [.pitIrqTick] else []) ++ (if irq = 1 then [.keyboardIrqHandler] else []) ++
      [.picSendEoi irq])
  else some []

end PrometheusKernel.Interrupts
