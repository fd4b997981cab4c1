import Mathlib.Tactic
import Mathlib.Data.Set.Function

/-!
# Byte-addressed memory

A memory is a total function from addresses to bytes. A `w`-byte little-endian word is read by
`load w` and written by `store w`; both go byte by byte, so that a byte write inside a word and a
word write over bytes mean what they mean on the machine.

Two kinds of facts are used downstream: what a read returns after a write at the same place
(`load_store_same`) and that a write elsewhere is not seen (`load_store_disjoint`, `load_congr`).
Bulk loops (`fill`, `copyBytes`) come with a closed form (`fill_apply`, `copyBytes_apply`).
-/

namespace ByteMem

/-- A byte-addressed memory. -/
abbrev Mem := ℕ → UInt8

/-- The little-endian word of `w` bytes at `a`. -/
def load : ℕ → Mem → ℕ → ℕ
  | 0, _, _ => 0
  | w + 1, m, a => (m a).toNat + 256 * load w m (a + 1)

/-- Write the low `w` bytes of `v`, little-endian, at `a`. -/
def store : ℕ → Mem → ℕ → ℕ → Mem
  | 0, m, _, _ => m
  | w + 1, m, a, v => store w (Function.update m a (UInt8.ofNat v)) (a + 1) (v / 256)

/-- Write `n` copies of the byte `b` from `a` upwards. -/
def fill : ℕ → Mem → ℕ → UInt8 → Mem
  | 0, m, _, _ => m
  | n + 1, m, a, b => fill n (Function.update m a b) (a + 1) b

/-- Copy `n` bytes upwards, one at a time, from `src` to `dst`. -/
def copyBytes : ℕ → Mem → ℕ → ℕ → Mem
  | 0, m, _, _ => m
  | n + 1, m, dst, src => copyBytes n (Function.update m dst (m src)) (dst + 1) (src + 1)

/-! ### Words -/

/-- A load of `w` bytes is below `256 ^ w`. -/
theorem load_lt (w : ℕ) (m : Mem) (a : ℕ) : load w m a < 256 ^ w := by
  induction w generalizing a with
  | zero => simp [load]
  | succ w ih =>
      have hb : (m a).toNat < 256 := (m a).toNat_lt
      have hw := ih (a + 1)
      simp only [load, pow_succ]
      omega

/-- A load of 4 bytes is a 32-bit word. -/
theorem load_four_lt (m : Mem) (a : ℕ) : load 4 m a < 2 ^ 32 := by
  have h := load_lt 4 m a
  norm_num at h ⊢
  exact h

/-- A load of 8 bytes is a 64-bit word. -/
theorem load_eight_lt (m : Mem) (a : ℕ) : load 8 m a < 2 ^ 64 := by
  have h := load_lt 8 m a
  norm_num at h ⊢
  exact h

/-- A read only depends on the bytes it covers. -/
theorem load_congr {w : ℕ} {m m' : Mem} {a : ℕ} (h : Set.EqOn m m' (Set.Ico a (a + w))) :
    load w m a = load w m' a := by
  induction w generalizing a with
  | zero => rfl
  | succ w ih =>
      have h0 : m a = m' a := h ⟨le_rfl, by omega⟩
      have hrest : load w m (a + 1) = load w m' (a + 1) :=
        ih fun x hx => h ⟨by have := hx.1; omega, by have := hx.2; omega⟩
      simp only [load, h0, hrest]

/-- A write leaves every byte outside its range. -/
theorem store_apply_of_notMem {w : ℕ} {m : Mem} {a v x : ℕ} (hx : x ∉ Set.Ico a (a + w)) :
    store w m a v x = m x := by
  induction w generalizing m a v with
  | zero => rfl
  | succ w ih =>
      have hne : x ≠ a := fun h => hx ⟨h.ge, by omega⟩
      have htail : x ∉ Set.Ico (a + 1) (a + 1 + w) :=
        fun h => hx ⟨by have := h.1; omega, by have := h.2; omega⟩
      rw [store, ih htail, Function.update_of_ne hne]

/-- A store changes no byte beside its range. -/
theorem store_apply_of_lt_or_le {w : ℕ} {m : Mem} {a v x : ℕ} (hx : x < a ∨ a + w ≤ x) :
    store w m a v x = m x := by
  apply store_apply_of_notMem
  rintro ⟨h1, h2⟩
  omega

/-- The bytes that are written. -/
theorem store_apply_add {w i : ℕ} {m : Mem} {a v : ℕ} (hi : i < w) :
    store w m a v (a + i) = UInt8.ofNat (v / 256 ^ i) := by
  induction w generalizing m a v i with
  | zero => exact absurd hi (Nat.not_lt_zero i)
  | succ w ih =>
      rw [store]
      cases i with
      | zero =>
          rw [store_apply_of_lt_or_le (Or.inl (by omega)), Nat.add_zero, Function.update_self, pow_zero, Nat.div_one]
      | succ i =>
          rw [show a + (i + 1) = a + 1 + i by omega, ih (by omega), Nat.div_div_eq_div_mul, pow_succ']

/-- A load does not see a store beside its range. -/
theorem load_store_disjoint {w k : ℕ} {m : Mem} {a b v : ℕ} (h : a + w ≤ b ∨ b + k ≤ a) :
    load w (store k m b v) a = load w m a := by
  apply load_congr
  intro x hx
  apply store_apply_of_notMem
  intro hb
  have h1 := hx.1
  have h2 := hx.2
  have h3 := hb.1
  have h4 := hb.2
  omega

/-- A load reads what was stored in its place, cut to its width. -/
theorem load_store_same (w : ℕ) (m : Mem) (a v : ℕ) :
    load w (store w m a v) a = v % 256 ^ w := by
  induction w generalizing m a v with
  | zero => simp [load, Nat.mod_one]
  | succ w ih =>
      have hbyte : store w (Function.update m a (UInt8.ofNat v)) (a + 1) (v / 256) a
          = UInt8.ofNat v := by
        rw [store_apply_of_notMem (by simp), Function.update_self]
      have hmod : v % 256 ^ (w + 1) = v % 256 + 256 * (v / 256 % 256 ^ w) := by
        rw [pow_succ, mul_comm, Nat.mod_mul]
      simp only [store, load, hbyte, ih, hmod, UInt8.toNat_ofNat']

/-- The value stored is read back when it fits the word. -/
theorem load_store_of_lt {w : ℕ} {m : Mem} {a v : ℕ} (hv : v < 256 ^ w) :
    load w (store w m a v) a = v := by
  rw [load_store_same, Nat.mod_eq_of_lt hv]

/-- Storing what is there changes nothing. -/
theorem store_load (w : ℕ) (m : Mem) (a : ℕ) : store w m a (load w m a) = m := by
  induction w generalizing a with
  | zero => rfl
  | succ w ih =>
      have hbyte : UInt8.ofNat (load (w + 1) m a) = m a := by
        apply UInt8.toNat_inj.mp
        have hlt : (m a).toNat < 256 := (m a).toNat_lt
        rw [UInt8.toNat_ofNat', load]
        omega
      have hrest : load (w + 1) m a / 256 = load w m (a + 1) := by
        have hlt : (m a).toNat < 256 := (m a).toNat_lt
        rw [load]
        omega
      rw [store, hbyte, Function.update_eq_self, hrest, ih]

/-! ### Bulk loops -/

/-- The bytes after a fill. -/
theorem fill_apply (n : ℕ) (m : Mem) (a : ℕ) (b : UInt8) (x : ℕ) :
    fill n m a b x = if a ≤ x ∧ x < a + n then b else m x := by
  induction n generalizing m a with
  | zero => rw [fill, if_neg (by omega)]
  | succ n ih =>
      rw [fill, ih]
      by_cases hx : x = a
      · subst hx
        rw [if_neg (by omega), if_pos (by omega), Function.update_self]
      · rw [Function.update_of_ne hx]
        by_cases hin : a + 1 ≤ x ∧ x < a + 1 + n
        · rw [if_pos hin, if_pos (by omega)]
        · rw [if_neg hin, if_neg (by omega)]

/-- Filling with the byte that is there already changes nothing. -/
theorem fill_of_eq {n : ℕ} {m : Mem} {a : ℕ} {b : UInt8} (h : ∀ x, a ≤ x → x < a + n → m x = b) :
    fill n m a b = m := by
  funext x
  rw [fill_apply]
  split_ifs with hx
  · exact (h x hx.1 hx.2).symm
  · rfl

/-- Between disjoint ranges the upward copy loop copies the bytes that were there before it. -/
theorem copyBytes_apply {n : ℕ} {m : Mem} {dst src : ℕ} (h : dst + n ≤ src ∨ src + n ≤ dst)
    (x : ℕ) :
    copyBytes n m dst src x = if dst ≤ x ∧ x < dst + n then m (src + (x - dst)) else m x := by
  induction n generalizing m dst src with
  | zero => rw [copyBytes, if_neg (by omega)]
  | succ n ih =>
      rw [copyBytes, ih (by omega)]
      by_cases hx : x = dst
      · subst hx
        rw [if_neg (by omega), if_pos (by omega), Function.update_self, Nat.sub_self, add_zero]
      · rw [Function.update_of_ne hx]
        by_cases hin : dst + 1 ≤ x ∧ x < dst + 1 + n
        · rw [if_pos hin, if_pos (by omega), Function.update_of_ne (by omega)]
          congr 1
          omega
        · rw [if_neg hin, if_neg (by omega)]

/-- The copy writes into its target only, also where the two ranges overlap. -/
theorem copyBytes_apply_of_lt_or_le {n : ℕ} {m : Mem} {dst src x : ℕ} (hx : x < dst ∨ dst + n ≤ x) :
    copyBytes n m dst src x = m x := by
  induction n generalizing m dst src with
  | zero => rfl
  | succ n ih =>
      have hne : x ≠ dst := by omega
      rw [copyBytes, ih (by omega), Function.update_of_ne hne]

/-- Zero bytes are read as 0. -/
theorem load_zero_of_zero {w : ℕ} {m : Mem} {a : ℕ} (h : ∀ x, a ≤ x → x < a + w → m x = 0) :
    load w m a = 0 := by
  induction w generalizing a with
  | zero => rfl
  | succ w ih =>
      have h0 : m a = 0 := h a le_rfl (by omega)
      have hrest : load w m (a + 1) = 0 := ih fun x h1 h2 => h x (by omega) (by omega)
      simp [load, h0, hrest]

end ByteMem
