import PrometheusKernel.Lib.Tiling
import Mathlib.Order.Bounds.Basic
import Mathlib.Data.Set.Insert

/-!
# First fit

A first-fit allocator of the range from `a` to `e`, as its clients see it: a set of taken ranges, and what each
event does to it (`Step`). An allocation of `k` bytes takes a range at the lowest address at which `h` bytes for a
header and `k` bytes behind it are vacant; the range is cut to that length if at least `s` vacant bytes remain,
and otherwise it goes on to the next taken one. It fails only where nothing fits.

A coalesced tiling is an implementation. Its free blocks are the maximal vacant stretches (`vacant_iff`), so that
the first free block that is large enough is at the lowest address that fits (`isLeast_of_find`).
-/

namespace FirstFit

open Tiling

/-- `n` bytes from `x` on lie in the range and in no taken one. -/
def Vacant (a e : ℕ) (U : Set (ℕ × ℕ)) (x n : ℕ) : Prop :=
  a ≤ x ∧ x + n ≤ e ∧ ∀ u ∈ U, x + n ≤ u.1 ∨ u.1 + u.2 ≤ x

/-- The length of the range that an allocation of `k` bytes at `x` takes. -/
def Granted (a e h s : ℕ) (U : Set (ℕ × ℕ)) (k x n : ℕ) : Prop :=
  (Vacant a e U x (h + k + s) → n = h + k) ∧ (¬ Vacant a e U x (h + k + s) → IsGreatest { n | Vacant a e U x n } n)

/-- A request with its answer, or a release. -/
inductive Event
  | alloc (k : ℕ) (answer : Option ℕ)
  | free (x : ℕ)

/-- One event. -/
inductive Step (a e h s : ℕ) : Set (ℕ × ℕ) → Event → Set (ℕ × ℕ) → Prop
  | take {U : Set (ℕ × ℕ)} {k x n : ℕ} (lowest : IsLeast { x | Vacant a e U x (h + k) } x)
      (length : Granted a e h s U k x n) : Step a e h s U (.alloc k (some x)) (Set.insert (x, n) U)
  | full {U : Set (ℕ × ℕ)} {k : ℕ} (nowhere : ∀ x, ¬ Vacant a e U x (h + k)) : Step a e h s U (.alloc k none) U
  | release {U : Set (ℕ × ℕ)} {x n : ℕ} (taken : (x, n) ∈ U) : Step a e h s U (.free x) (U \ {(x, n)})

/-- One event after the other. -/
inductive Steps (a e h s : ℕ) : Set (ℕ × ℕ) → List Event → Set (ℕ × ℕ) → Prop
  | nil {U : Set (ℕ × ℕ)} : Steps a e h s U [] U
  | cons {U V W : Set (ℕ × ℕ)} {ev : Event} {evs : List Event} (head : Step a e h s U ev V)
      (tail : Steps a e h s V evs W) : Steps a e h s U (ev :: evs) W

variable {a e h s k x n : ℕ} {U V W : Set (ℕ × ℕ)} {ev : Event} {evs evs' : List Event} {bs : List Block} {b : Block}

/-- A step is a run. -/
theorem Step.single (hstep : Step a e h s U ev V) : Steps a e h s U [ev] V := .cons hstep .nil

/-- Runs can be put one after the other. -/
theorem Steps.append (hfirst : Steps a e h s U evs V) (hsecond : Steps a e h s V evs' W) :
    Steps a e h s U (evs ++ evs') W := by
  induction hfirst with
  | nil => exact hsecond
  | cons head _ ih => exact .cons head (ih hsecond)

/-! ### Coalesced tilings -/

/-- The ranges of the used blocks. -/
def usedRanges (h : ℕ) (bs : List Block) : Set (ℕ × ℕ) := { u | ∃ b ∈ bs, b.free = false ∧ u = (b.addr, h + b.size) }

/-- Every address of the range lies in a block. -/
theorem exists_block (ht : Tiles h a bs e) (hlo : a ≤ x) (hhi : x < e) :
    ∃ b ∈ bs, b.addr ≤ x ∧ x < b.addr + h + b.size := by
  induction bs generalizing a with
  | nil =>
      have heq : a = e := ht
      omega
  | cons b bs ih =>
      obtain ⟨rfl, hrest⟩ := ht
      by_cases hx : x < b.addr + h + b.size
      · exact ⟨b, List.mem_cons_self, hlo, hx⟩
      · obtain ⟨c, hc, hcx⟩ := ih hrest (not_lt.mp hx)
        exact ⟨c, List.mem_cons_of_mem _ hc, hcx⟩

/-- What is vacant around a used block lies before or behind it. -/
theorem Vacant.beside (hv : Vacant a e (usedRanges h bs) x n) (hb : b ∈ bs) (hbf : b.free = false) :
    x + n ≤ b.addr ∨ b.addr + h + b.size ≤ x := by
  have := hv.2.2 (b.addr, h + b.size) ⟨b, hb, hbf, rfl⟩
  dsimp only at this
  omega

/-- The vacant stretches are those of the free blocks. -/
theorem vacant_iff (ht : Tiles h a bs e) (hc : Coalesced bs) (hn : 0 < n) :
    Vacant a e (usedRanges h bs) x n ↔
      ∃ b ∈ bs, b.free = true ∧ b.addr ≤ x ∧ x + n ≤ b.addr + h + b.size := by
  constructor
  · intro hv
    obtain ⟨b, hb, hbx, hxb⟩ := exists_block ht hv.1 (by have := hv.2.1; omega)
    have hbf : b.free = true := by
      by_contra hcon
      have := hv.beside hb (by simpa using hcon)
      omega
    refine ⟨b, hb, hbf, hbx, ?_⟩
    by_contra hcon
    -- the next block begins inside of the stretch, and it is used
    obtain ⟨xs, ys, rfl⟩ := List.append_of_mem hb
    obtain ⟨m, -, hbm, hys⟩ := Tiles.append_iff.mp ht
    obtain ⟨-, hcb, -⟩ := hc.of_append
    have hend := hv.2.1
    cases ys with
    | nil =>
        have heq : m + h + b.size = e := hys
        omega
    | cons c ys =>
        obtain ⟨hcaddr, -⟩ := hys
        have hcf : c.free = false := by
          have := (List.isChain_cons_cons.mp hcb).1
          simpa [hbf] using this
        have := hv.beside (b := c) (by simp) hcf
        omega
  · rintro ⟨b, hb, hbf, hbx, hxb⟩
    have hin := ht.mem_le hb
    refine ⟨by omega, by omega, ?_⟩
    rintro u ⟨c, hcb, hcf, rfl⟩
    have := ht.apart hb hcb fun heq => by simp [← heq, hbf] at hcf
    dsimp only
    omega

/-- From the address of a free block on, its bytes are vacant and no more. -/
theorem vacant_at_iff (ht : Tiles h a bs e) (hc : Coalesced bs) (hpos : 0 < h) (hb : b ∈ bs) (hbf : b.free = true)
    (hn : 0 < n) :
    Vacant a e (usedRanges h bs) b.addr n ↔ n ≤ h + b.size := by
  rw [vacant_iff ht hc hn]
  constructor
  · rintro ⟨c, hcb, -, hcx, hxc⟩
    by_cases hbc : b = c
    · subst hbc
      omega
    · have := ht.apart hb hcb hbc
      omega
  · exact fun hle => ⟨b, hb, hbf, le_rfl, by omega⟩

/-- The first free block with room for `k` bytes is at the lowest address that fits. -/
theorem isLeast_of_find (ht : Tiles h a bs e) (hc : Coalesced bs) (hpos : 0 < h)
    (hfind : bs.find? (fun b => b.free && decide (k ≤ b.size)) = some b) :
    IsLeast { x | Vacant a e (usedRanges h bs) x (h + k) } b.addr := by
  obtain ⟨hp, xs, ys, rfl, hxs⟩ := List.find?_eq_some_iff_append.mp hfind
  obtain ⟨hbf, hk⟩ : b.free = true ∧ k ≤ b.size := by simpa using hp
  have hb : b ∈ xs ++ b :: ys := by simp
  refine ⟨(vacant_at_iff ht hc hpos hb hbf (by omega)).mpr (by omega), fun y hy => ?_⟩
  obtain ⟨c, hcb, hcf, hcy, hyc⟩ := (vacant_iff ht hc (show 0 < h + k by omega)).mp hy
  rcases List.mem_append.mp hcb with hcx | hcy'
  · have := hxs c hcx
    simp only [hcf, Bool.true_and, Bool.not_eq_true', decide_eq_false_iff_not] at this
    omega
  · rcases List.mem_cons.mp hcy' with rfl | hcy'
    · exact hcy
    · have := ht.around.2 c hcy'
      omega

/-- Without such a block nothing fits. -/
theorem not_vacant_of_find (ht : Tiles h a bs e) (hc : Coalesced bs) (hpos : 0 < h)
    (hfind : bs.find? (fun b => b.free && decide (k ≤ b.size)) = none) :
    ¬ Vacant a e (usedRanges h bs) x (h + k) := by
  intro hv
  obtain ⟨b, hb, hbf, hbx, hxb⟩ := (vacant_iff ht hc (show 0 < h + k by omega)).mp hv
  have := List.find?_eq_none.mp hfind b hb
  simp only [hbf, Bool.true_and, decide_eq_true_eq] at this
  omega

/-- The block is split if `s` bytes remain. -/
theorem granted_of_split (ht : Tiles h a bs e) (hc : Coalesced bs) (hpos : 0 < h) (hb : b ∈ bs) (hbf : b.free = true) :
    Granted a e h s (usedRanges h bs) k b.addr (h + if k + s ≤ b.size then k else b.size) := by
  have hiff := vacant_at_iff ht hc hpos hb hbf (n := h + k + s) (by omega)
  constructor
  · intro hv
    rw [if_pos (by have := hiff.mp hv; omega)]
  · intro hv
    rw [if_neg fun hle => hv (hiff.mpr (by omega))]
    refine ⟨(vacant_at_iff ht hc hpos hb hbf (by omega)).mpr le_rfl, fun n hn => ?_⟩
    rcases Nat.eq_zero_or_pos n with rfl | hn0
    · exact Nat.zero_le _
    · exact (vacant_at_iff ht hc hpos hb hbf hn0).mp hn

end FirstFit
