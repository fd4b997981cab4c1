import PrometheusKernel.Interrupts.Frames
import PrometheusKernel.Interrupts.Gates
import PrometheusKernel.Interrupts.Pic

/-!
# Delivery of interrupts: the table, the controllers, the stubs and the handler together

A platform is the memory with the table, a processor, the two controllers and whether the processor accepts interrupts.
From `interrupts_init` on the kernel works, devices request their lines, the controllers hand out the vector of the
pending line of the highest priority, and the processor looks up its gate, runs the code it finds there and calls
`interrupt_handler`. A handler that does not return leaves a halted kernel, which only an exception (such as an NMI)
brings back to its loop.

The stack of a processor is not part of the memory with the table. The kernel does not write to the table and does not
turn interrupts off, which only its panic does.

Every vector that is delivered finds its own stub. But the stubs push 1 for the vector, so the handler never returns
(`handler_never_returns`): no driver is called in any run, and the kernel accepts at most one interrupt from a device
(`drivers_never_called`).
-/

namespace PrometheusKernel.Interrupts

open ByteMem Interleaving

/-! ### The controllers on the bus -/

/-- The line that a controller announces: the pending line of the highest priority, if it is above those in service. -/
def Controller.pending (c : Controller) : Option ℕ :=
  match firstLine (c.irr &&& ~~~c.imr), firstLine c.isr with
  | some n, some k => if n < k then some n else none
  | line, _ => line

/-- A line is requested. -/
def Controller.request (c : Controller) (line : ℕ) : Controller := { c with irr := c.irr ||| 1#8 <<< line }

/-- A line goes into service. -/
def Controller.acknowledge (c : Controller) (line : ℕ) : Controller :=
  { c with irr := c.irr &&& ~~~(1#8 <<< line), isr := c.isr ||| 1#8 <<< line }

/-- A device requests one of the 16 lines. -/
def Pics.request (p : Pics) (line : ℕ) : Pics :=
  if line < 8 then { p with master := p.master.request line } else { p with slave := p.slave.request (line - 8) }

/-- The master as it sees its line 2, which is the slave. -/
def Pics.cascaded (p : Pics) : Controller :=
  { p.master with irr := if p.slave.pending.isSome then p.master.irr ||| 4 else p.master.irr &&& ~~~4 }

/-- The processor asks for a vector. -/
def Pics.acknowledge (p : Pics) : Option (ℕ × Pics) :=
  match p.cascaded.pending, p.slave.pending with
  | some 2, some n => some (p.slave.base.toNat + n, ⟨p.cascaded.acknowledge 2, p.slave.acknowledge n⟩)
  | some n, _ => some (p.master.base.toNat + n, { p with master := p.cascaded.acknowledge n })
  | none, _ => none

/-! ### The platform -/

/-- The linked kernel: where the table and the stubs are, and the code at an address up to a jump to
`interrupt_common_stub`. -/
structure Image where
  idt : ℕ
  isr : ℕ → ℕ
  irq : ℕ → ℕ
  code : ℕ → List Instr
  isr_lt : ∀ i, isr i < 2 ^ 64
  irq_lt : ∀ i, irq i < 2 ^ 64
  isr_code : ∀ i < 32, code (isr i) = stubs.getD i []
  irq_code : ∀ i < 16, code (irq i) = stubs.getD (32 + i) []

/-- The machine, and what has happened on it. -/
structure Platform where
  mem : Mem
  cpu : Cpu
  pics : Pics
  /-- The interrupt flag. -/
  interruptsOn : Bool
  /-- `interrupt_handler` is in its `hlt` loop. -/
  halted : Bool
  /-- The calls of `interrupt_handler` into the drivers. -/
  calls : List Event
  /-- The vectors delivered, the last one first. -/
  delivered : List ℕ

/-- What happens. -/
inductive Step
  /-- The kernel computes. -/
  | work (cpu : Cpu) (mem : Mem)
  /-- The kernel calls the driver of the controllers. -/
  | kernel (call : PicCall)
  /-- A device requests a line. -/
  | request (line : ℕ)
  /-- The processor accepts an interrupt. -/
  | interrupt (x : Context)
  /-- The processor raises an exception. -/
  | exception (vector : ℕ) (x : Context)

section platform

variable (I : Image)

/-- `interrupts_init`. -/
def interruptsInit (cpu : Cpu) (mem : Mem) (pics : Pics) : Platform where
  mem := idtTable mem I.idt I.isr I.irq
  cpu := cpu
  pics := picInit pics
  interruptsOn := true
  halted := false
  calls := []
  delivered := []

/-- What the calls of the handler do to the controllers. -/
def driverCalls (p : Pics) (events : List Event) : Pics :=
  events.foldl (fun p event => match event with | .picSendEoi irq => picSendEoi p irq | _ => p) p

/-- `iretq` where the stack pointer is at `rip`. -/
def iretq (c : Cpu) : Cpu := { c with sp := c.mem (c.sp + 24) }

/-- The call of `interrupt_handler`, and the return if it returns. -/
def handled (w : Platform) (cpu : Cpu) : Platform :=
  match interruptHandler (frameAt cpu.mem cpu.sp) with
  | none => { w with cpu := cpu, halted := true }
  | some events =>
      let cpu := run cpu restoreRegs
      { w with
        cpu := iretq cpu
        pics := driverCalls w.pics events
        interruptsOn := (cpu.mem (cpu.sp + 16)).getLsbD 9
        calls := w.calls ++ events }

/-- A vector is delivered through its gate, which must be present; an interrupt gate (type 14) turns interrupts off. -/
def deliver (w : Platform) (x : Context) (vector : ℕ) : Option Platform :=
  let gate := gateAt w.mem (entryAt I.idt vector)
  if gate.attributes.testBit 7 then
    let on := if gate.attributes % 16 = 14 then false else w.interruptsOn
    some (handled { w with interruptsOn := on, delivered := vector :: w.delivered }
      (run (run (enter w.cpu x vector) (I.code gate.offset)) saveRegs))
  else none

/-- One step. -/
def platformStep (w : Platform) : Step → Option Platform
  | .work cpu mem => if w.halted then none else some { w with cpu := cpu, mem := mem }
  | .kernel call => if w.halted then none else (picCall w.pics call).map fun pics => { w with pics := pics }
  | .request line => some { w with pics := w.pics.request line }
  | .interrupt x =>
      if w.interruptsOn then
        match w.pics.acknowledge with
        | none => none
        | some (vector, pics) => deliver I { w with pics := pics } x vector
      else none
  | .exception vector x => deliver I w x vector

/-- The kernel leaves the table alone, and exceptions have the vectors below 32. -/
def ValidStep (w : Platform) : Step → Prop
  | .work _ mem => Set.EqOn w.mem mem (Set.Ico I.idt (I.idt + 4096))
  | .exception vector _ => vector < 32
  | _ => True

/-! ### What is delivered -/

variable {I}

/-- The controllers keep their vectors. -/
theorem Ready.request {p : Pics} (h : Ready p) (line : ℕ) : Ready (p.request line) := by
  unfold Pics.request
  split_ifs
  · exact ⟨h.master, h.slave, h.masterBase, h.slaveBase⟩
  · exact ⟨h.master, h.slave, h.masterBase, h.slaveBase⟩

/-- A controller has 8 lines. -/
theorem firstLine_lt {r : Byte} {n : ℕ} (h : firstLine r = some n) : n < 8 :=
  List.mem_range.mp (List.mem_of_find?_eq_some h)

/-- The pending line is one of the 8. -/
theorem Controller.pending_lt {c : Controller} {n : ℕ} (h : c.pending = some n) : n < 8 := by
  unfold Controller.pending at h
  split at h
  · rename_i n' k hfirst _
    split_ifs at h
    obtain rfl := Option.some.inj h
    exact firstLine_lt hfirst
  · exact firstLine_lt h

/-- The vectors that the controllers hand out are those of `irq0` to `irq15`. -/
theorem Ready.acknowledge {p p' : Pics} {vector : ℕ} (h : Ready p) (hack : p.acknowledge = some (vector, p')) :
    Ready p' ∧ 32 ≤ vector ∧ vector < 48 := by
  unfold Pics.acknowledge at hack
  split at hack
  · rename_i n _ hslave
    obtain ⟨rfl, rfl⟩ := Prod.mk.inj (Option.some.inj hack)
    have hn := Controller.pending_lt hslave
    have hbase : p.slave.base.toNat = 40 := by rw [h.slaveBase]; rfl
    exact ⟨⟨h.master, h.slave, h.masterBase, h.slaveBase⟩, by omega, by omega⟩
  · rename_i n _ hmaster _
    obtain ⟨rfl, rfl⟩ := Prod.mk.inj (Option.some.inj hack)
    have hn := Controller.pending_lt hmaster
    have hbase : p.master.base.toNat = 32 := by rw [h.masterBase]; rfl
    exact ⟨⟨h.master, h.slave, h.masterBase, h.slaveBase⟩, by omega, by omega⟩
  · cases hack

/-- The code behind the gate of a vector is its stub. -/
theorem Image.code_handlerOf (I : Image) {vector : ℕ} (hv : vector < 48) :
    I.code (handlerOf I.isr I.irq vector) = stubs.getD vector [] := by
  unfold handlerOf
  by_cases h32 : vector < 32
  · rw [if_pos h32]
    exact I.isr_code vector h32
  · rw [if_neg h32, if_pos hv, I.irq_code (vector - 32) (by omega), Nat.add_sub_of_le (by omega)]

/-- Every gate is as `interrupts_init` has set it. -/
def Gated (I : Image) (m : Mem) : Prop :=
  ∀ vector < 256, gateAt m (entryAt I.idt vector) = ⟨handlerOf I.isr I.irq vector, 0x08, 0, 0x8E⟩

/-- The gates only depend on the table. -/
theorem Gated.congr {m m' : Mem} (h : Gated I m) (heq : Set.EqOn m m' (Set.Ico I.idt (I.idt + 4096))) :
    Gated I m' := by
  intro vector hv
  rw [← gateAt_congr (m := m)]
  · exact h vector hv
  · refine heq.mono (Set.Ico_subset_Ico ?_ ?_)
    · exact Nat.le_add_right _ _
    · unfold entryAt
      omega

/-- A handler that does not return leaves the kernel halted. -/
theorem handled_of_none {w : Platform} {cpu : Cpu} (h : interruptHandler (frameAt cpu.mem cpu.sp) = none) :
    handled w cpu = { w with cpu := cpu, halted := true } := by
  unfold handled
  rw [h]

/-- The halted kernel after a vector. -/
def stopped (w : Platform) (x : Context) (vector : ℕ) : Platform :=
  { w with
    cpu := atHandler w.cpu x vector
    interruptsOn := false
    halted := true
    delivered := vector :: w.delivered }

/-- A vector below 48 is delivered to its stub, and the handler halts. -/
theorem deliver_eq {w : Platform} (h : Gated I w.mem) (x : Context) {vector : ℕ} (hv : vector < 48) :
    deliver I w x vector = some (stopped w x vector) := by
  have hpresent : Nat.testBit 0x8E 7 = true := by decide
  have hinterrupt : 0x8E % 16 = 14 := by norm_num
  have hcpu : run (run (enter w.cpu x vector) (I.code (handlerOf I.isr I.irq vector))) saveRegs =
      atHandler w.cpu x vector := by
    rw [I.code_handlerOf hv, atHandler]
  unfold deliver
  rw [h vector (by omega)]
  dsimp only
  rw [if_pos hpresent, if_pos hinterrupt, hcpu, handled_of_none (handler_never_returns w.cpu x hv)]
  rfl

/-- An interrupt that is accepted. -/
theorem interrupt_eq {w : Platform} {pics : Pics} {vector : ℕ} (hon : w.interruptsOn = true)
    (hack : w.pics.acknowledge = some (vector, pics)) (x : Context) :
    platformStep I w (.interrupt x) = deliver I { w with pics := pics } x vector := by
  unfold platformStep
  dsimp only
  rw [if_pos hon, hack]

/-- A call of the driver of the controllers by the running kernel. -/
theorem kernel_eq {w : Platform} {pics : Pics} {call : PicCall} (hrunning : w.halted = false)
    (hcall : picCall w.pics call = some pics) : platformStep I w (.kernel call) = some { w with pics := pics } := by
  unfold platformStep
  dsimp only
  rw [hrunning, if_neg Bool.false_ne_true, hcall]
  rfl

/-! ### Runs -/

/-- What holds in every state. -/
structure PlatformInv (I : Image) (w : Platform) : Prop where
  /-- The gates are those of `interrupts_init`. -/
  gates : Gated I w.mem
  /-- The controllers hand out the vectors from 32 on. -/
  ready : Ready w.pics
  /-- No driver has been called. -/
  calls : w.calls = []
  /-- Every vector delivered has a stub. -/
  stubbed : ∀ vector ∈ w.delivered, vector < 48
  /-- The kernel is halted if anything has been delivered. -/
  halted : w.halted = !w.delivered.isEmpty
  /-- A halted kernel accepts no interrupts. -/
  off : w.interruptsOn = !w.halted
  /-- At most one vector came from the controllers. -/
  once : (w.delivered.filter (32 ≤ ·)).length ≤ 1
  /-- The handler was called with vector 1. -/
  intNo : w.delivered ≠ [] → (frameAt w.cpu.mem w.cpu.sp).intNo = 1

/-- The invariant holds after `interrupts_init`. -/
theorem PlatformInv.init (cpu : Cpu) (mem : Mem) (pics : Pics) : PlatformInv I (interruptsInit I cpu mem pics) where
  gates := fun _ hv => gateAt_idtTable I.isr_lt I.irq_lt hv
  ready := (picInit_spec pics).1
  calls := rfl
  stubbed := fun _ h => absurd h List.not_mem_nil
  halted := rfl
  off := rfl
  once := Nat.zero_le 1
  intNo := fun hne => absurd rfl hne

section steps

variable {w w' : Platform}

/-- A vector is delivered; one from the controllers only if nothing has been. -/
theorem PlatformInv.delivery {pics : Pics} {x : Context} {vector : ℕ} (h : PlatformInv I w) (hready : Ready pics)
    (hv : vector < 48) (honce : 32 ≤ vector → w.delivered = [])
    (hstep : deliver I { w with pics := pics } x vector = some w') : PlatformInv I w' := by
  have heq := deliver_eq (w := { w with pics := pics }) h.gates x hv
  obtain rfl := Option.some.inj (hstep.symm.trans heq)
  refine ⟨h.gates, hready, h.calls, ?_, rfl, rfl, ?_, fun _ => intNo_frame w.cpu x hv⟩
  · intro v hmem
    rcases List.mem_cons.mp hmem with rfl | hold
    · exact hv
    · exact h.stubbed v hold
  · change ((vector :: w.delivered).filter (32 ≤ ·)).length ≤ 1
    by_cases h32 : 32 ≤ vector
    · rw [honce h32]
      exact List.length_filter_le _ _
    · rw [List.filter_cons_of_neg (by simpa using h32)]
      exact h.once

/-- One step. -/
theorem PlatformInv.step {a : Step} (h : PlatformInv I w) (hvalid : ValidStep I w a)
    (hstep : platformStep I w a = some w') : PlatformInv I w' := by
  cases a with
  | work cpu mem =>
      obtain ⟨hnot, hsome⟩ := Option.ite_none_left_eq_some.mp hstep
      have hhalted : w.halted = false := Bool.eq_false_iff.mpr hnot
      obtain rfl := Option.some.inj hsome
      refine ⟨h.gates.congr hvalid, h.ready, h.calls, h.stubbed, h.halted, h.off, h.once, fun hne => ?_⟩
      -- only a kernel that is not halted computes
      have hrunning := hhalted.symm.trans h.halted
      rw [List.isEmpty_eq_false_iff.mpr hne] at hrunning
      cases hrunning
  | kernel call =>
      obtain ⟨-, hmap⟩ := Option.ite_none_left_eq_some.mp hstep
      obtain ⟨pics, hcall, rfl⟩ := Option.map_eq_some_iff.mp hmap
      exact ⟨h.gates, (h.ready.call hcall).1, h.calls, h.stubbed, h.halted, h.off, h.once, h.intNo⟩
  | request line =>
      obtain rfl := Option.some.inj hstep
      exact ⟨h.gates, h.ready.request line, h.calls, h.stubbed, h.halted, h.off, h.once, h.intNo⟩
  | interrupt x =>
      obtain ⟨hon, hsome⟩ := Option.ite_none_right_eq_some.mp hstep
      -- interrupts are on, so nothing has been delivered
      have hnone : w.delivered = [] := by
        have hoff := h.off
        rw [hon, h.halted, Bool.not_not] at hoff
        exact List.isEmpty_iff.mp hoff.symm
      cases hcase : w.pics.acknowledge with
      | none =>
          rw [hcase] at hsome
          cases hsome
      | some va =>
          obtain ⟨vector, pics⟩ := va
          obtain ⟨hready, -, hlt⟩ := h.ready.acknowledge hcase
          exact h.delivery hready hlt (fun _ => hnone) ((interrupt_eq hon hcase x).symm.trans hstep)
  | exception vector x =>
      have hlt : vector < 32 := hvalid
      have hdeliver : deliver I { w with pics := w.pics } x vector = some w' := hstep
      refine h.delivery h.ready ?_ ?_ hdeliver
      · exact lt_trans hlt (by norm_num)
      · intro hge
        exact absurd hlt (Nat.not_lt.mpr hge)

end steps

end platform

/-- In every run from `interrupts_init` on, whatever the kernel computes, the devices request and the processor raises:
the gates of the 48 vectors lead to their stubs, nothing else is delivered, no interrupt reaches a driver, the kernel is
halted as soon as one vector has been delivered, with 1 for the vector in the frame, and at most one comes from the
controllers. -/
theorem drivers_never_called (I : Image) (cpu : Cpu) (mem : Mem) (pics : Pics) (as : List Step) (w : Platform)
    (hvalid : Guarded (platformStep I) (ValidStep I) (interruptsInit I cpu mem pics) as)
    (hexec : exec (platformStep I) (interruptsInit I cpu mem pics) as = some w) :
    (∀ vector < 48, I.code (gateAt w.mem (entryAt I.idt vector)).offset = stubs.getD vector []) ∧
      (∀ vector ∈ w.delivered, vector < 48) ∧ w.calls = [] ∧ w.halted = !w.delivered.isEmpty ∧
      (w.delivered.filter (32 ≤ ·)).length ≤ 1 ∧
      (w.delivered ≠ [] → (frameAt w.cpu.mem w.cpu.sp).intNo = 1) := by
  have h := invariant (fun _ _ _ hw ha hs => PlatformInv.step hw ha hs) (PlatformInv.init cpu mem pics) hvalid hexec
  refine ⟨fun vector hv => ?_, h.stubbed, h.calls, h.halted, h.once, h.intNo⟩
  rw [h.gates vector (by omega)]
  exact I.code_handlerOf hv

/-- The stubs one after the other from address 0 on, and the table behind them. -/
def sampleImage : Image where
  idt := 0x1000
  isr i := i % 32
  irq i := 32 + i % 16
  code a := stubs.getD a []
  isr_lt i := by omega
  irq_lt i := by omega
  isr_code i hi := by rw [Nat.mod_eq_of_lt hi]
  irq_code i hi := by rw [Nat.mod_eq_of_lt hi]

/-- The kernel unmasks the timer, whose first tick halts it; an NMI follows. -/
def timerSteps : List Step :=
  [.kernel (.unmask 0), .request 0, .interrupt ⟨0, 0x202, 8, 0, 0⟩, .exception 2 ⟨0, 2, 8, 0, 0⟩]

/-- The run from any such state. -/
theorem timerSteps_exec {I : Image} {w : Platform} {p₁ p₂ : Pics} (hgated : Gated I w.mem) (hon : w.interruptsOn = true)
    (hrunning : w.halted = false) (hunmask : picCall w.pics (.unmask 0) = some p₁)
    (hack : (p₁.request 0).acknowledge = some (32, p₂)) :
    ∃ w', exec (platformStep I) w timerSteps = some w' ∧ w'.delivered = 2 :: 32 :: w.delivered := by
  have hrequest : platformStep I { w with pics := p₁ } (.request 0) = some { w with pics := p₁.request 0 } := rfl
  have haccept := interrupt_eq (I := I) (w := { w with pics := p₁.request 0 }) hon hack ⟨0, 0x202, 8, 0, 0⟩
  have hinterrupt := deliver_eq (w := { w with pics := p₂ }) hgated ⟨0, 0x202, 8, 0, 0⟩ (show 32 < 48 by norm_num)
  have hexception := deliver_eq (w := stopped { w with pics := p₂ } ⟨0, 0x202, 8, 0, 0⟩ 32) hgated ⟨0, 2, 8, 0, 0⟩
    (show 2 < 48 by norm_num)
  refine ⟨stopped (stopped { w with pics := p₂ } ⟨0, 0x202, 8, 0, 0⟩ 32) ⟨0, 2, 8, 0, 0⟩ 2, ?_, rfl⟩
  unfold exec timerSteps
  rw [List.foldlM_cons, kernel_eq hrunning hunmask, Option.bind_eq_bind, Option.bind_some, List.foldlM_cons, hrequest,
    Option.bind_eq_bind, Option.bind_some, List.foldlM_cons, haccept, hinterrupt, Option.bind_eq_bind,
    Option.bind_some, List.foldlM_cons]
  exact congrArg (Option.bind · some) hexception

/-- The platform of the run after `interrupts_init`. -/
def timerPlatform : Platform :=
  interruptsInit sampleImage (cpuWith 0) (fun _ => 0) ⟨undefinedController, undefinedController⟩

/-- The run ends with both vectors delivered, no driver is called, and the frame of the NMI has vector 1. -/
theorem drivers_never_called_timer : ∃ w,
    exec (platformStep sampleImage) timerPlatform timerSteps = some w ∧ w.delivered = [2, 32] ∧ w.halted = true ∧
      w.calls = [] ∧ (frameAt w.cpu.mem w.cpu.sp).intNo = 1 := by
  have hgated : Gated sampleImage timerPlatform.mem :=
    (PlatformInv.init (cpuWith 0) (fun _ => 0) ⟨undefinedController, undefinedController⟩).gates
  have hpics : ∃ p₁ p₂, picCall timerPlatform.pics (.unmask 0) = some p₁ ∧
      (p₁.request 0).acknowledge = some (32, p₂) := ⟨_, _, rfl, rfl⟩
  obtain ⟨p₁, p₂, hunmask, hack⟩ := hpics
  obtain ⟨w, hw, hdelivered⟩ := timerSteps_exec hgated rfl rfl hunmask hack
  have hvalid : Guarded (platformStep sampleImage) (ValidStep sampleImage) timerPlatform timerSteps :=
    ⟨trivial, fun _ _ => ⟨trivial, fun _ _ => ⟨trivial, fun _ _ => ⟨by norm_num [ValidStep], fun _ _ => trivial⟩⟩⟩⟩
  obtain ⟨-, -, hcalls, hhalted, -, hintNo⟩ := drivers_never_called sampleImage (cpuWith 0) (fun _ => 0)
    ⟨undefinedController, undefinedController⟩ timerSteps w hvalid hw
  have hlist : w.delivered = [2, 32] := hdelivered
  rw [hlist] at hhalted
  exact ⟨w, hw, hlist, hhalted, hcalls, hintNo (hlist ▸ List.cons_ne_nil _ _)⟩

end PrometheusKernel.Interrupts
