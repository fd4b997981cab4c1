import PrometheusKernel.Lib.ByteMem
import PrometheusKernel.Lib.Loop

/-!
# The interrupt descriptor table: model of `idt_set_gate` and `interrupts_init`

A descriptor has 16 bytes; the three parts of the handler's address lie in three places of it. The processor reads them
together (`gateAt`), and after the three loops of `interrupts_init` finds at each vector the handler that was put
there last: the stubs for the vectors 0 to 47 and address 0 for the others (`gateAt_idtTable`).
-/

namespace PrometheusKernel.Interrupts

open ByteMem Loop

/-! ### The table in memory -/

/-- The address of `g_idt[n]`. -/
def entryAt (idt n : ℕ) : ℕ := idt + 16 * n

/-- `idt_set_gate`. -/
def idtSetGate (m : Mem) (idt n handler sel flags : ℕ) : Mem :=
  let entry := entryAt idt n
  let m := store 2 m entry (handler &&& 0xFFFF)
  let m := store 2 m (entry + 2) sel
  let m := store 1 m (entry + 4) 0
  let m := store 1 m (entry + 5) flags
  let m := store 2 m (entry + 6) ((handler >>> 16) &&& 0xFFFF)
  let m := store 4 m (entry + 8) ((handler >>> 32) &&& 0xFFFFFFFF)
  store 4 m (entry + 12) 0

/-- The loops of `interrupts_init`, with the addresses of the stubs. -/
def idtTable (m : Mem) (idt : ℕ) (isr irq : ℕ → ℕ) : Mem :=
  let m := upTo 256 (fun i m => idtSetGate m idt (0 + i) 0 0x08 0x8E) m
  let m := upTo 32 (fun i m => idtSetGate m idt (0 + i) (isr i) 0x08 0x8E) m
  upTo 16 (fun i m => idtSetGate m idt (32 + i) (irq i) 0x08 0x8E) m

/-! ### What the processor reads -/

/-- A descriptor. -/
structure Gate where
  /-- The address of the handler. -/
  offset : ℕ
  /-- The segment selector. -/
  selector : ℕ
  /-- The stack table index. -/
  ist : ℕ
  /-- The type in the low four bits, and the present bit 7. -/
  attributes : ℕ
deriving DecidableEq

/-- The descriptor at an address. -/
def gateAt (m : Mem) (a : ℕ) : Gate :=
  ⟨load 2 m a + 2 ^ 16 * load 2 m (a + 6) + 2 ^ 32 * load 4 m (a + 8), load 2 m (a + 2), load 1 m (a + 4),
    load 1 m (a + 5)⟩

section gates

variable {m : Mem} {idt n : ℕ}

/-- The parts of an address. -/
theorem parts_eq {h : ℕ} (hh : h < 2 ^ 64) :
    (h &&& 0xFFFF) % 256 ^ 2 + 2 ^ 16 * ((h >>> 16 &&& 0xFFFF) % 256 ^ 2) +
      2 ^ 32 * ((h >>> 32 &&& 0xFFFFFFFF) % 256 ^ 4) = h := by
  have hlow : h &&& 0xFFFF = h % 2 ^ 16 := Nat.and_two_pow_sub_one_eq_mod h 16
  have hmid : h >>> 16 &&& 0xFFFF = h / 2 ^ 16 % 2 ^ 16 := by
    rw [Nat.shiftRight_eq_div_pow]
    exact Nat.and_two_pow_sub_one_eq_mod _ 16
  have hhigh : h >>> 32 &&& 0xFFFFFFFF = h / 2 ^ 32 % 2 ^ 32 := by
    rw [Nat.shiftRight_eq_div_pow]
    exact Nat.and_two_pow_sub_one_eq_mod _ 32
  rw [hlow, hmid, hhigh]
  omega

/-- A gate that is set. -/
theorem gateAt_self {handler sel flags : ℕ} (hhandler : handler < 2 ^ 64) (hsel : sel < 256 ^ 2)
    (hflags : flags < 256 ^ 1) :
    gateAt (idtSetGate m idt n handler sel flags) (entryAt idt n) = ⟨handler, sel, 0, flags⟩ := by
  unfold gateAt idtSetGate
  simp (disch := omega) only [load_store_disjoint, load_store_same, parts_eq hhandler, Nat.mod_eq_of_lt hsel,
    Nat.mod_eq_of_lt hflags, Nat.zero_mod]

/-- A gate is read from its 16 bytes. -/
theorem gateAt_congr {m' : Mem} {a : ℕ} (h : Set.EqOn m m' (Set.Ico a (a + 16))) : gateAt m a = gateAt m' a := by
  have hload : ∀ w k, k + w ≤ 16 → load w m (a + k) = load w m' (a + k) := by
    intro w k hk
    refine load_congr fun x hx => h ⟨?_, ?_⟩
    · exact le_trans (Nat.le_add_right a k) hx.1
    · exact lt_of_lt_of_le hx.2 (by omega)
  unfold gateAt
  rw [hload 2 2 (by omega), hload 1 4 (by omega), hload 1 5 (by omega), hload 2 6 (by omega), hload 4 8 (by omega),
    show load 2 m a = load 2 m' a from hload 2 0 (by omega)]

/-- The bytes of the other entries. -/
theorem idtSetGate_frame {handler sel flags x : ℕ} (hx : x < entryAt idt n ∨ entryAt idt n + 16 ≤ x) :
    idtSetGate m idt n handler sel flags x = m x := by
  unfold idtSetGate
  simp (disch := omega) only [store_apply_of_lt_or_le]

/-- The other gates stay. -/
theorem gateAt_of_ne {handler sel flags k : ℕ} (hk : k ≠ n) :
    gateAt (idtSetGate m idt n handler sel flags) (entryAt idt k) = gateAt m (entryAt idt k) := by
  refine gateAt_congr fun x hx => idtSetGate_frame ?_
  have h1 := hx.1
  have h2 := hx.2
  unfold entryAt at *
  omega

/-- A loop that sets the gates from `lo` on. -/
theorem gateAt_upTo {handler : ℕ → ℕ} (hhandler : ∀ i, handler i < 2 ^ 64) (lo N k : ℕ) :
    gateAt (upTo N (fun i m => idtSetGate m idt (lo + i) (handler i) 0x08 0x8E) m) (entryAt idt k) =
      if lo ≤ k ∧ k < lo + N then ⟨handler (k - lo), 0x08, 0, 0x8E⟩ else gateAt m (entryAt idt k) := by
  induction N with
  | zero => rw [if_neg (by omega), upTo_zero]
  | succ N ih =>
      rw [upTo_succ]
      by_cases hk : k = lo + N
      · rw [hk, gateAt_self (hhandler N) (by norm_num) (by norm_num), if_pos (by omega), Nat.add_sub_cancel_left]
      · rw [gateAt_of_ne hk, ih]
        exact if_congr (by omega) rfl rfl

/-- The address that `interrupts_init` puts into the gate of a vector. -/
def handlerOf (isr irq : ℕ → ℕ) (vector : ℕ) : ℕ :=
  if vector < 32 then isr vector else if vector < 48 then irq (vector - 32) else 0

/-- The gates after `interrupts_init`. -/
theorem gateAt_idtTable {isr irq : ℕ → ℕ} (hisr : ∀ i, isr i < 2 ^ 64) (hirq : ∀ i, irq i < 2 ^ 64) {vector : ℕ}
    (hv : vector < 256) :
    gateAt (idtTable m idt isr irq) (entryAt idt vector) = ⟨handlerOf isr irq vector, 0x08, 0, 0x8E⟩ := by
  unfold idtTable handlerOf
  rw [gateAt_upTo hirq, gateAt_upTo hisr, gateAt_upTo (fun _ => by norm_num)]
  by_cases h32 : vector < 32
  · rw [if_neg (by omega), if_pos (by omega), if_pos h32, Nat.sub_zero]
  · rw [if_neg h32]
    by_cases h48 : vector < 48
    · rw [if_pos (by omega), if_pos h48]
    · rw [if_neg (by omega), if_neg (by omega), if_pos (by omega), if_neg h48]

end gates

end PrometheusKernel.Interrupts
