import PrometheusKernel.Lib.Fairness

/-!
# The serial line: model of `kernel/drivers/serial.c`

The UART at `COM1_PORT` works beside the kernel: it takes the bytes out of its transmit queue and puts them on the
line at its own speed. A turn of the kernel is one access to a port, or what the functions do between two of them; a
turn of the UART is one byte on the line.

The UART is modelled as far as the driver uses it. While the divisor latch bit of the line control register is set,
the first two ports reach the divisor. The queue holds 16 bytes if the FIFO is enabled and else one, and a byte
written to a full queue is lost. Of the line status only bit 5 means something here, the others are any (`noise`).
-/

namespace PrometheusKernel.Serial

open Interleaving

/-- `COM1_PORT`. -/
def com1Port : ℕ := 0x3F8

/-! ### The UART -/

/-- The registers of the UART, and the line. -/
structure Uart where
  /-- The divisor latch, low and high. -/
  divisorLow : UInt8
  divisorHigh : UInt8
  /-- Interrupt enable, line control, FIFO control and modem control. -/
  ier : UInt8
  lcr : UInt8
  fcr : UInt8
  mcr : UInt8
  /-- The bytes waiting to be transmitted, the next one first. -/
  queue : List UInt8
  /-- The bytes on the line, the first one first. -/
  line : List UInt8
  /-- The other bits of the line status, at each time it is read. -/
  noise : ℕ → UInt8

/-- The divisor latch bit. -/
def Uart.latched (u : Uart) : Bool := u.lcr &&& 0x80 != 0

/-- The places in the queue. -/
def Uart.depth (u : Uart) : ℕ := if u.fcr &&& 0x01 = 0 then 1 else 16

/-- A byte for the queue. -/
def Uart.enqueue (u : Uart) (v : UInt8) : Uart :=
  if u.queue.length < u.depth then { u with queue := u.queue ++ [v] } else u

/-- `outb` to a port of the UART. Bit 2 of the FIFO control clears the queue. -/
def outb (u : Uart) (port : ℕ) (v : UInt8) : Uart :=
  if port = com1Port then if u.latched then { u with divisorLow := v } else u.enqueue v
  else if port = com1Port + 1 then if u.latched then { u with divisorHigh := v } else { u with ier := v }
  else if port = com1Port + 2 then { u with fcr := v, queue := if v &&& 0x04 = 0 then u.queue else [] }
  else if port = com1Port + 3 then { u with lcr := v }
  else if port = com1Port + 4 then { u with mcr := v }
  else u

/-- `inb(COM1_PORT + 5)`: bit 5 says that the queue is empty. -/
def inbStatus (u : Uart) : UInt8 × Uart :=
  ((u.noise 0 &&& 0xDF) ||| if u.queue = [] then 0x20 else 0, { u with noise := fun k => u.noise (k + 1) })

/-- One byte on the line. -/
def Uart.transmit (u : Uart) : Uart :=
  match u.queue with
  | [] => u
  | b :: queue => { u with queue := queue, line := u.line ++ [b] }

/-! ### The driver -/

/-- `serial_init`. -/
def serialInit (u : Uart) : Uart :=
  let u := outb u (com1Port + 1) 0x00
  let u := outb u (com1Port + 3) 0x80
  let u := outb u (com1Port + 0) 0x03
  let u := outb u (com1Port + 1) 0x00
  let u := outb u (com1Port + 3) 0x03
  let u := outb u (com1Port + 2) 0xC7
  outb u (com1Port + 4) 0x0B

/-- Where the kernel is. -/
inductive Pc
  /-- Between two calls of `serial_write_string`. -/
  | outside
  /-- At `while (*str)`. -/
  | test
  /-- In `serial_write_char`: at the read of the line status, with its value, and at the write. -/
  | poll
  | check (status : UInt8)
  | write
deriving DecidableEq

/-- The UART and the kernel. -/
structure State where
  /-- The UART. -/
  uart : Uart
  /-- The location. -/
  pc : Pc
  /-- `str`: the bytes from there on, which end with the first 0 or with the list. -/
  str : List UInt8
  /-- The arguments of the calls of `serial_write_string` to come; `none` is a null pointer. -/
  calls : List (Option (List UInt8))

/-- The next step of the kernel. -/
def kernelTurn (s : State) : State :=
  match s.pc with
  | .outside =>
      match s.calls with
      | [] => s
      | none :: calls => { s with calls := calls }
      | some str :: calls => { s with pc := .test, str := str, calls := calls }
  | .test => if s.str.headD 0 = 0 then { s with pc := .outside } else { s with pc := .poll }
  | .poll =>
      let (status, uart) := inbStatus s.uart
      { s with uart := uart, pc := .check status }
  | .check status => if status &&& 0x20 = 0 then { s with pc := .poll } else { s with pc := .write }
  | .write => { s with uart := outb s.uart com1Port (s.str.headD 0), pc := .test, str := s.str.tail }

/-- Who has a turn. -/
inductive Party
  | kernel
  | uart
deriving DecidableEq

/-- One turn. -/
def turn (s : State) : Party → State
  | .kernel => kernelTurn s
  | .uart => { s with uart := s.uart.transmit }

/-- `serial_init` and then the calls, on a UART in any state. -/
def start (u : Uart) (calls : List (Option (List UInt8))) : State := ⟨serialInit u, .outside, [], calls⟩

end PrometheusKernel.Serial
