import PrometheusKernel.Interrupts.Model

/-!
# Interrupt frames

What the processor and the stubs push, in one list (`pushed`), is what the fields of `interrupt_frame_t` are read
from, from the last word pushed on. So the frame can be compared with the registers word by word:

* The stub pushes `r15` first and `rax` last, and the structure begins with `r15`: each field holds the register
  that mirrors its own (`reg_frame`).
* `%0` in the macros is the number of their parameters, so `int_no` is 1 for every vector (`intNo_frame`), and
  `interrupt_handler` takes every interrupt for an exception and does not return (`handler_never_returns`).
* The stub of a vector pushes a 0 in place of an error code just for the vectors for which the processor pushes none,
  except for four of them, after which the stack pointer is one word off (`returns_iff`).

The frame is what it is meant to be only for vector 1 and registers that mirror each other (`frame_faithful_iff`).
-/

namespace PrometheusKernel.Interrupts

open WordStack

/-! ### The words pushed -/

/-- The words that the stub of a vector pushes. -/
def stubWords (vector : ℕ) : List Word64 := if vector ∈ [8, 10, 11, 12, 13, 14] then [1] else [0, 1]

/-- The registers in the order in which they are pushed. -/
def savedOrder : List Reg :=
  [.r15, .r14, .r13, .r12, .r11, .r10, .r9, .r8, .rsi, .rdi, .rbp, .rdx, .rcx, .rbx, .rax]

/-- The words pushed before `interrupt_handler` is called, the first one first. -/
def pushed (c : Cpu) (x : Context) (vector : ℕ) : List Word64 :=
  cpuWords c x vector ++ stubWords vector ++ savedOrder.map c.regs

section words

variable {c : Cpu} {x : Context} {vector : ℕ}

/-- The stubs push constants only. -/
theorem stubs_eq : ∀ vector < 48, stubs.getD vector [] = (stubWords vector).map Instr.pushQword := by decide

/-- Instructions in two stages. -/
theorem run_append (c : Cpu) (is js : List Instr) : run c (is ++ js) = run (run c is) js := List.foldl_append

/-- Constants that are pushed. -/
theorem run_pushQword (c : Cpu) (vs : List Word64) : run c (vs.map Instr.pushQword) = pushAll 8 vs c := by
  induction vs generalizing c with
  | nil => rfl
  | cons v vs ih => exact ih (push 8 v c)

/-- Registers that are pushed. -/
theorem run_push (c : Cpu) (rs : List Reg) : run c (rs.map Instr.push) = pushAll 8 (rs.map c.regs) c := by
  induction rs generalizing c with
  | nil => rfl
  | cons r rs ih => exact ih (push 8 (c.regs r) c)

/-- Registers that are popped. -/
theorem run_pop (c : Cpu) (rs : List Reg) : run c (rs.map Instr.pop) = popAll 8 rs c := by
  induction rs generalizing c with
  | nil => rfl
  | cons r rs ih => exact ih (pop 8 r c)

/-- The stack pointer goes into `rdi`; memory and the stack stay as they are. -/
theorem run_frame_pointer (c : Cpu) : (run c [.movRdiRsp, .cld]).mem = c.mem ∧ (run c [.movRdiRsp, .cld]).sp = c.sp :=
  ⟨rfl, rfl⟩

/-- The processor pushes the words of the context. -/
theorem enter_eq (c : Cpu) (x : Context) (vector : ℕ) :
    enter c x vector = pushAll 8 (cpuWords c x vector) { c with sp := c.sp &&& ~~~15 } := rfl

/-- `interrupt_handler` is called with all words pushed. -/
theorem atHandler_eq (c : Cpu) (x : Context) (hv : vector < 48) :
    (atHandler c x vector).mem = (pushAll 8 (pushed c x vector) { c with sp := c.sp &&& ~~~15 }).mem ∧
      (atHandler c x vector).sp = (pushAll 8 (pushed c x vector) { c with sp := c.sp &&& ~~~15 }).sp := by
  have hsave : saveRegs = savedOrder.map Instr.push ++ [.movRdiRsp, .cld] := rfl
  have hregs : (pushAll 8 (stubWords vector) (enter c x vector)).regs = c.regs := by
    rw [pushAll_regs, enter_eq, pushAll_regs]
  unfold atHandler pushed
  rw [stubs_eq vector hv, run_pushQword, hsave, run_append, run_push, hregs, pushAll_append, pushAll_append, ← enter_eq]
  exact run_frame_pointer _

/-! ### The frame -/

/-- The frame that `interrupt_handler` is called with. -/
def frame (c : Cpu) (x : Context) (vector : ℕ) : InterruptFrame :=
  frameAt (atHandler c x vector).mem (atHandler c x vector).sp

/-- Steps of a word, as an address. -/
theorem nsmul_eight (k : ℕ) : k • (8 : Word64) = BitVec.ofNat 64 (8 * k) := by
  rw [nsmul_eq_mul, mul_comm]
  exact (BitVec.ofNat_mul 8 k).symm

/-- There is room for 64 words. -/
theorem room_eight : Room (8 : Word64) 64 := by
  intro k hpos hlt heq
  rw [nsmul_eight] at heq
  have htoNat := congrArg BitVec.toNat heq
  rw [BitVec.toNat_ofNat, Nat.mod_eq_of_lt (by omega)] at htoNat
  change 8 * k = 0 at htoNat
  omega

/-- The words pushed, the last one first: the registers, what the stub pushes and what the processor pushes. -/
theorem reverse_pushed (c : Cpu) (x : Context) (vector : ℕ) : (pushed c x vector).reverse =
    savedOrder.reverse.map c.regs ++ ((stubWords vector).reverse ++ (cpuWords c x vector).reverse) := by
  unfold pushed
  rw [List.reverse_append, List.reverse_append, List.map_reverse]

/-- A stub pushes one or two words. -/
theorem length_stubWords (vector : ℕ) : 1 ≤ (stubWords vector).length ∧ (stubWords vector).length ≤ 2 := by
  unfold stubWords
  split_ifs
  · exact ⟨by decide, by decide⟩
  · exact ⟨by decide, by decide⟩

/-- The processor pushes five words, or six with an error code. -/
theorem length_cpuWords (c : Cpu) (x : Context) (vector : ℕ) :
    (cpuWords c x vector).length = 5 + if pushesErrorCode vector then 1 else 0 := by
  unfold cpuWords
  rw [List.length_append, apply_ite List.length]
  rfl

/-- The number of words pushed. -/
theorem length_pushed (c : Cpu) (x : Context) (vector : ℕ) : (pushed c x vector).length =
    20 + ((stubWords vector).length + if pushesErrorCode vector then 1 else 0) := by
  unfold pushed
  rw [List.length_append, List.length_append, length_cpuWords, List.length_map]
  change _ + _ + 15 = _
  omega

/-- The words of the frame, from its address on, are the words pushed, the last one first. -/
theorem mem_atHandler (c : Cpu) (x : Context) (hv : vector < 48) {k : ℕ} {v : Word64}
    (hk : (pushed c x vector).reverse[k]? = some v) :
    (atHandler c x vector).mem ((atHandler c x vector).sp + BitVec.ofNat 64 (8 * k)) = v := by
  obtain ⟨hmem, hsp⟩ := atHandler_eq c x hv
  have hlt : k < (pushed c x vector).length := by
    rw [← List.length_reverse]
    exact (List.getElem?_eq_some_iff.mp hk).1
  have hle : (pushed c x vector).length ≤ 64 := by
    have hstub := length_stubWords vector
    rw [length_pushed]
    split_ifs
    · omega
    · omega
  rw [hmem, hsp, ← nsmul_eight]
  exact Option.some.inj ((pushAll_mem room_eight hle hlt).symm.trans hk)

/-- The place of the field named after a register. -/
def fieldIndex : Reg → ℕ
  | .r15 => 0
  | .r14 => 1
  | .r13 => 2
  | .r12 => 3
  | .r11 => 4
  | .r10 => 5
  | .r9 => 6
  | .r8 => 7
  | .rsi => 8
  | .rdi => 9
  | .rbp => 10
  | .rdx => 11
  | .rcx => 12
  | .rbx => 13
  | .rax => 14

/-- The register fields are the first words of the frame. -/
theorem reg_frameAt (mem : Word64 → Word64) (p : Word64) (r : Reg) :
    (frameAt mem p).reg r = mem (p + BitVec.ofNat 64 (8 * fieldIndex r)) := by
  cases r <;> rfl

/-- `int_no` is behind the registers. -/
theorem intNo_frameAt (mem : Word64 → Word64) (p : Word64) :
    (frameAt mem p).intNo = mem (p + BitVec.ofNat 64 (8 * 15)) := rfl

/-- `err_code` is behind `int_no`. -/
theorem errCode_frameAt (mem : Word64 → Word64) (p : Word64) :
    (frameAt mem p).errCode = mem (p + BitVec.ofNat 64 (8 * 16)) := rfl

/-- The register that is pushed in the place of the field named after `r`. -/
def mirror : Reg → Reg
  | .rax => .r15
  | .rbx => .r14
  | .rcx => .r13
  | .rdx => .r12
  | .rbp => .r11
  | .rdi => .r10
  | .rsi => .r9
  | .r8 => .r8
  | .r9 => .rsi
  | .r10 => .rdi
  | .r11 => .rbp
  | .r12 => .rdx
  | .r13 => .rcx
  | .r14 => .rbx
  | .r15 => .rax

/-- What is in the place of a field. -/
theorem savedOrder_mirror (r : Reg) : savedOrder.reverse[fieldIndex r]? = some (mirror r) := by
  cases r <;> rfl

/-- The field named after a register holds the register that mirrors it. -/
theorem reg_frame (c : Cpu) (x : Context) (hv : vector < 48) (r : Reg) :
    (frame c x vector).reg r = c.regs (mirror r) := by
  have hlt := (List.getElem?_eq_some_iff.mp (savedOrder_mirror r)).1
  unfold frame
  rw [reg_frameAt]
  apply mem_atHandler c x hv
  rw [reverse_pushed, List.getElem?_append_left (by rw [List.length_map]; exact hlt), List.getElem?_map,
    savedOrder_mirror, Option.map_some]

/-- The words behind the registers are those of the stub. -/
theorem getElem?_pushed (c : Cpu) (x : Context) (vector k : ℕ) : (pushed c x vector).reverse[15 + k]? =
    ((stubWords vector).reverse ++ (cpuWords c x vector).reverse)[k]? := by
  have hlen : (savedOrder.reverse.map c.regs).length = 15 := by
    rw [List.length_map]
    rfl
  rw [reverse_pushed, List.getElem?_append_right (by omega), hlen, Nat.add_sub_cancel_left]

/-- The stub pushes 1 for every vector. -/
theorem intNo_frame (c : Cpu) (x : Context) (hv : vector < 48) : (frame c x vector).intNo = 1 := by
  unfold frame
  rw [intNo_frameAt]
  apply mem_atHandler c x hv
  rw [getElem?_pushed c x vector 0]
  unfold stubWords
  split_ifs
  · rfl
  · rfl

/-- `interrupt_handler` takes every interrupt for exception 1, and does not return. -/
theorem handler_never_returns (c : Cpu) (x : Context) (hv : vector < 48) :
    interruptHandler (frame c x vector) = none := by
  unfold interruptHandler
  rw [intNo_frame c x hv, if_pos (by decide)]

end words

/-! ### The return -/

/-- The state `t` in which `interrupt_handler` returns from a call in the state `s`: the stack pointer is what it was,
and so are the words of the frame. -/
structure Returned (s t : Cpu) : Prop where
  sp : t.sp = s.sp
  frame : ∀ k < 22, t.mem (s.sp + BitVec.ofNat 64 (8 * k)) = s.mem (s.sp + BitVec.ofNat 64 (8 * k))

section returned

variable {c t : Cpu} {x : Context} {vector : ℕ}

/-- The stack pointer moves, and nothing else. -/
theorem run_addRsp (c : Cpu) (n : Word64) : (run c [.addRsp n]).regs = c.regs ∧ (run c [.addRsp n]).sp = c.sp + n :=
  ⟨rfl, rfl⟩

/-- The return pops the registers and drops two words. -/
theorem restoreRegs_eq : restoreRegs = savedOrder.reverse.map Instr.pop ++ [.addRsp 16] := rfl

/-- The place of a register among the words pushed, the last one first. -/
theorem savedOrder_place (r : Reg) : savedOrder.reverse[14 - fieldIndex r]? = some r := by
  cases r <;> rfl

/-- Every register is restored. -/
theorem restoreRegs_regs (hv : vector < 48) (ht : Returned (atHandler c x vector) t) (r : Reg) :
    (run t restoreRegs).regs r = c.regs r := by
  have hplace := savedOrder_place r
  have hlt := (List.getElem?_eq_some_iff.mp hplace).1
  rw [restoreRegs_eq, run_append, run_pop, (run_addRsp _ _).1, popAll_regs (by decide) hplace, nsmul_eight, ht.sp,
    ht.frame _ (by omega)]
  apply mem_atHandler c x hv
  rw [reverse_pushed, List.getElem?_append_left (by rw [List.length_map]; exact hlt), List.getElem?_map, hplace,
    Option.map_some]

/-- The stack pointer after the stub: 17 words above the one at the call. -/
theorem restoreRegs_sp (ht : Returned (atHandler c x vector) t) :
    (run t restoreRegs).sp = (atHandler c x vector).sp + BitVec.ofNat 64 (8 * 17) := by
  have hwords : BitVec.ofNat 64 (8 * savedOrder.reverse.length) + 16 = BitVec.ofNat 64 (8 * 17) := by decide
  rw [restoreRegs_eq, run_append, run_pop, (run_addRsp _ _).2, popAll_sp, nsmul_eight, ht.sp, add_assoc, hwords]

/-- The processor and the stub together push 7 words before the registers. -/
def Balanced (vector : ℕ) : Prop :=
  (stubWords vector).length + (if pushesErrorCode vector then 1 else 0) = 2

instance (vector : ℕ) : Decidable (Balanced vector) := inferInstanceAs (Decidable (_ = _))

/-- All vectors but four are balanced. -/
theorem balanced_iff : ∀ vector < 48, Balanced vector ↔ vector ∉ [17, 21, 29, 30] := by decide

/-- The stack pointer is back at `rip` exactly if the vector is balanced. -/
theorem restoreRegs_sp_iff (hv : vector < 48) (ht : Returned (atHandler c x vector) t) :
    (run t restoreRegs).sp = ripAddress c ↔ Balanced vector := by
  have hstub := length_stubWords vector
  have hle : (if pushesErrorCode vector then 1 else 0) ≤ 1 := by
    split_ifs
    · exact le_rfl
    · exact Nat.zero_le _
  rw [restoreRegs_sp ht, (atHandler_eq c x hv).2, pushAll_sp, nsmul_eight, length_pushed]
  unfold ripAddress Balanced
  generalize (if pushesErrorCode vector then 1 else 0) = e at hle ⊢
  generalize (stubWords vector).length = n at hstub ⊢
  dsimp only
  generalize c.sp &&& ~~~15 = top
  bv_omega

/-- The stub restores every register, and it leaves the stack pointer at `rip` except for the four vectors for which
both the processor and the stub push an error code. -/
theorem returns_iff (c : Cpu) (x : Context) (hv : vector < 48) :
    (∀ t, Returned (atHandler c x vector) t →
      (∀ r, (run t restoreRegs).regs r = c.regs r) ∧ (run t restoreRegs).sp = ripAddress c) ↔
      vector ∉ [17, 21, 29, 30] := by
  rw [← balanced_iff vector hv]
  constructor
  · intro hall
    have hrefl : Returned (atHandler c x vector) (atHandler c x vector) := ⟨rfl, fun _ _ => rfl⟩
    exact (restoreRegs_sp_iff hv hrefl).mp (hall _ hrefl).2
  · intro hbalanced t ht
    exact ⟨restoreRegs_regs hv ht, (restoreRegs_sp_iff hv ht).mpr hbalanced⟩

end returned

/-! ### The whole interrupt -/

/-- The frame is what its fields say, and the stub undoes the interrupt. -/
structure Faithful (c : Cpu) (x : Context) (vector : ℕ) : Prop where
  /-- Each register field holds the interrupted value of the register it is named after. -/
  regs : ∀ r, (frame c x vector).reg r = c.regs r
  /-- `int_no` is the vector. -/
  intNo : (frame c x vector).intNo = BitVec.ofNat 64 vector
  /-- `err_code` is the error code of the processor, or 0. -/
  errCode : (frame c x vector).errCode = if pushesErrorCode vector then x.err else 0
  /-- After the return every register is restored, and the stack pointer is at `rip`. -/
  returns : ∀ t, Returned (atHandler c x vector) t →
    (∀ r, (run t restoreRegs).regs r = c.regs r) ∧ (run t restoreRegs).sp = ripAddress c

/-- An interrupt is handled faithfully exactly if its vector is 1 and the registers mirror each other. -/
theorem frame_faithful_iff (c : Cpu) (x : Context) (vector : ℕ) (hv : vector < 48) :
    Faithful c x vector ↔ vector = 1 ∧ ∀ r, c.regs (mirror r) = c.regs r := by
  constructor
  · intro h
    constructor
    · have hint := (intNo_frame c x hv).symm.trans h.intNo
      have htoNat := congrArg BitVec.toNat hint
      rw [BitVec.toNat_ofNat, Nat.mod_eq_of_lt (by omega)] at htoNat
      exact htoNat.symm
    · intro r
      rw [← reg_frame c x hv r]
      exact h.regs r
  · rintro ⟨rfl, hmirror⟩
    refine ⟨fun r => ?_, ?_, ?_, (returns_iff c x hv).mpr (by decide)⟩
    · rw [reg_frame c x hv r]
      exact hmirror r
    · exact intNo_frame c x hv
    · unfold frame
      rw [errCode_frameAt]
      apply mem_atHandler c x hv
      exact getElem?_pushed c x 1 1

/-- A processor whose registers are all 0, but `rax`. -/
def cpuWith (rax : Word64) : Cpu := ⟨Function.update (fun _ => 0) .rax rax, fun _ => 0, 0x8000⟩

/-- A processor whose registers mirror each other and are not 0. -/
def mirroredCpu : Cpu := ⟨fun r => BitVec.ofNat 64 (1 + min (fieldIndex r) (fieldIndex (mirror r))), fun _ => 0, 0x8000⟩

/-- Vector 1 with different values in the registers. -/
theorem frame_faithful_sample : Faithful mirroredCpu ⟨0x1234, 0x202, 8, 0, 0⟩ 1 ∧
    (frame mirroredCpu ⟨0x1234, 0x202, 8, 0, 0⟩ 1).reg .rax ≠
      (frame mirroredCpu ⟨0x1234, 0x202, 8, 0, 0⟩ 1).reg .rbx := by
  have hmirror : ∀ r, mirroredCpu.regs (mirror r) = mirroredCpu.regs r := by
    intro r
    cases r <;> rfl
  have h := (frame_faithful_iff mirroredCpu ⟨0x1234, 0x202, 8, 0, 0⟩ 1 (by norm_num)).mpr ⟨rfl, hmirror⟩
  refine ⟨h, ?_⟩
  rw [h.regs, h.regs]
  decide

/-- The timer, vector 32, with 5 in `rax`: the field `rax` is 0, the field `r15` is 5 and `int_no` is 1. -/
theorem timer_frame : ¬ ∀ (c : Cpu) (x : Context) (vector : ℕ), vector < 48 → Faithful c x vector := by
  intro h
  have hint := (h (cpuWith 5) ⟨0, 0, 0, 0, 0⟩ 32 (by norm_num)).intNo
  rw [intNo_frame _ _ (by norm_num)] at hint
  exact absurd hint (by decide)

end PrometheusKernel.Interrupts
