import PrometheusKernel.Lib.ByteMem

/-!
# Private bytes of allocations

An allocator hands out ranges of memory, `live` by start and length. `Known` is what their holders know of the bytes
in them: `known p i` is the byte that the holder of the range at `p` last put at offset `i`, or `none`. `Agrees` says
that memory holds these bytes. The holder of a range can then treat it as an array of its own.

The lemmas are the moves of an allocator and its clients: bytes that stay (`Agrees.keep`), a new range
(`Agrees.cons`), a range whose holder forgets (`Agrees.forget`), and a write (`Agrees.write`), which is where ranges
must be apart.
-/

namespace PrivateBytes

open ByteMem

/-- What the holders of ranges know: start of the range, and offset. -/
abbrev Known := ℕ → ℕ → Option UInt8

/-- The memory holds what is known of the bytes in the ranges. -/
def Agrees (m : Mem) (live : List (ℕ × ℕ)) (known : Known) : Prop :=
  ∀ q ∈ live, ∀ i < q.2, ∀ b, known q.1 i = some b → m (q.1 + i) = b

/-- A byte that the holder of the range at `p` writes. -/
def noteWrite (known : Known) (p i : ℕ) (b : UInt8) : Known :=
  Function.update known p (Function.update (known p) i (some b))

variable {m m' : Mem} {live live' : List (ℕ × ℕ)} {known : Known} {p n : ℕ} {f : ℕ → Option UInt8}

/-- Nothing is known without ranges. -/
theorem agrees_nil : Agrees m [] known := fun _ hq => absurd hq List.not_mem_nil

/-- The bytes of the ranges that are left stay. -/
theorem Agrees.keep (h : Agrees m live known)
    (hkeep : ∀ q ∈ live', q ∈ live ∧ ∀ i < q.2, m' (q.1 + i) = m (q.1 + i)) : Agrees m' live' known := by
  intro q hq i hi b hb
  obtain ⟨hq', hsame⟩ := hkeep q hq
  rw [hsame i hi, h q hq' i hi b hb]

/-- What is said of ranges that are not live does not matter. -/
theorem Agrees.forget (h : Agrees m live known) (hp : p ∉ live.map Prod.fst) :
    Agrees m live (Function.update known p f) := by
  intro q hq i hi b hb
  have hne : q.1 ≠ p := fun heq => hp (List.mem_map.mpr ⟨q, hq, heq⟩)
  rw [Function.update_of_ne hne] at hb
  exact h q hq i hi b hb

/-- A new range, with what is known of it. -/
theorem Agrees.cons (h : Agrees m live known) (hp : p ∉ live.map Prod.fst)
    (hf : ∀ i < n, ∀ b, f i = some b → m (p + i) = b) : Agrees m ((p, n) :: live) (Function.update known p f) := by
  intro q hq i hi b hb
  rcases List.mem_cons.mp hq with rfl | hq
  · rw [Function.update_self] at hb
    exact hf i hi b hb
  · exact h.forget hp q hq i hi b hb

/-- A byte that is written into a range is seen in no other one. -/
theorem Agrees.write (h : Agrees m live known) {q : ℕ × ℕ} {i : ℕ} (hi : i < q.2) (b : UInt8)
    (hapart : ∀ r ∈ live, r.1 ≠ q.1 → r.1 + r.2 ≤ q.1 ∨ q.1 + q.2 ≤ r.1) :
    Agrees (Function.update m (q.1 + i) b) live (noteWrite known q.1 i b) := by
  intro r hr j hj c hc
  unfold noteWrite at hc
  by_cases hrq : r.1 = q.1
  · rw [hrq, Function.update_self] at hc
    by_cases hji : j = i
    · rw [hji, Function.update_self] at hc
      rw [hrq, hji, Function.update_self]
      exact Option.some.inj hc
    · rw [Function.update_of_ne hji] at hc
      rw [Function.update_of_ne (by omega)]
      exact h r hr j hj c (hrq ▸ hc)
  · rw [Function.update_of_ne hrq] at hc
    have hor := hapart r hr hrq
    rw [Function.update_of_ne (by omega)]
    exact h r hr j hj c hc

/-! ### Objects of one size -/

section objects

variable {size x o : ℕ} {objs : List ℕ}

/-- The ranges of objects. -/
def ranges (size : ℕ) (objs : List ℕ) : List (ℕ × ℕ) := objs.map fun o => (o, size)

/-- The ranges of objects of one size. -/
theorem mem_ranges {q : ℕ × ℕ} : q ∈ ranges size objs ↔ q.1 ∈ objs ∧ q.2 = size := by
  unfold ranges
  rw [List.mem_map]
  constructor
  · rintro ⟨o, ho, rfl⟩
    exact ⟨ho, rfl⟩
  · rintro ⟨ho, hsize⟩
    exact ⟨q.1, ho, by rw [← hsize]⟩

/-- An object that is not there has no range. -/
theorem notMem_ranges (h : o ∉ objs) : o ∉ (ranges size objs).map Prod.fst := by
  rw [List.mem_map]
  rintro ⟨q, hq, rfl⟩
  exact h (mem_ranges.mp hq).1

/-- What the holders of objects know after the byte at `x`, in one of them, is written. -/
def noteByte (size : ℕ) (objs : List ℕ) (known : Known) (x : ℕ) (b : UInt8) : Known :=
  match objs.find? fun o => o ≤ x ∧ x < o + size with
  | none => known
  | some o => noteWrite known o (x - o) b

/-- A byte that is written into an object is seen in no other one. -/
theorem Agrees.writeByte (h : Agrees m (ranges size objs) known) (hx : ∃ o ∈ objs, o ≤ x ∧ x < o + size)
    (hapart : ∀ o ∈ objs, ∀ q ∈ objs, q ≠ o → q + size ≤ o ∨ o + size ≤ q) (b : UInt8) :
    Agrees (Function.update m x b) (ranges size objs) (noteByte size objs known x b) := by
  obtain ⟨o₀, ho₀, hx₀⟩ := hx
  obtain ⟨o, hfind⟩ : ∃ o, (objs.find? fun o => decide (o ≤ x ∧ x < o + size)) = some o :=
    Option.isSome_iff_exists.mp (List.find?_isSome.mpr ⟨o₀, ho₀, decide_eq_true hx₀⟩)
  have ho : o ∈ objs := List.mem_of_find?_eq_some hfind
  have hin : o ≤ x ∧ x < o + size := by simpa using List.find?_some hfind
  unfold noteByte
  rw [hfind]
  have hwrite := h.write (q := (o, size)) (i := x - o) (by dsimp only; omega) b fun q hq hne => by
    obtain ⟨hq1, hq2⟩ := mem_ranges.mp hq
    have := hapart o ho q.1 hq1 hne
    dsimp only
    omega
  dsimp only at hwrite ⊢
  rwa [Nat.add_sub_cancel' hin.1] at hwrite

/-- What the holder of an object reads. -/
theorem Agrees.read (h : Agrees m (ranges size objs) known) (ho : o ∈ objs) {i : ℕ} (hi : i < size) {b : UInt8}
    (hb : known o i = some b) : m (o + i) = b := h (o, size) (mem_ranges.mpr ⟨ho, rfl⟩) i hi b hb

end objects

end PrivateBytes
