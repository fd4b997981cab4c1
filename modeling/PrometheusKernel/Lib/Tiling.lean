import Mathlib.Tactic
import Mathlib.Data.List.Chain

/-!
# Tilings of an address range by blocks

A block has a header of `h` bytes at `addr` and `size` bytes behind it, and is free or not. A list of
blocks tiles the range from `a` to `e` if each block begins where the one before it ends (`Tiles`).
It is coalesced if no two adjacent blocks are free (`Coalesced`).

The moves of a first-fit allocator on the list are replacements of a stretch of it by another that
covers the same range (`Tiles.replace`): splitting a block, and merging a free block with its free
neighbours. A coalesced tiling without used blocks is one block (`Coalesced.single`).
-/

namespace Tiling

/-- A block with its header at `addr`. -/
structure Block where
  addr : ℕ
  size : ℕ
  free : Bool
deriving DecidableEq

variable {h : ℕ}

/-- The blocks cover the range from `a` to `e`, one behind the other. -/
def Tiles (h : ℕ) : ℕ → List Block → ℕ → Prop
  | a, [], e => a = e
  | a, b :: bs, e => b.addr = a ∧ Tiles h (a + h + b.size) bs e

/-- No two adjacent blocks are free. -/
def Coalesced (bs : List Block) : Prop := bs.IsChain fun x y => ¬ (x.free = true ∧ y.free = true)

/-- Blocks tile a range exactly if a first part of them tiles a first part of it. -/
theorem Tiles.append_iff {a e : ℕ} {xs ys : List Block} :
    Tiles h a (xs ++ ys) e ↔ ∃ k, Tiles h a xs k ∧ Tiles h k ys e := by
  induction xs generalizing a with
  | nil => exact ⟨fun ht => ⟨a, rfl, ht⟩, fun ⟨_, hk, ht⟩ => hk ▸ ht⟩
  | cons x xs ih =>
      simp only [List.cons_append, Tiles, ih]
      exact ⟨fun ⟨hx, k, h1, h2⟩ => ⟨k, ⟨hx, h1⟩, h2⟩, fun ⟨k, ⟨hx, h1⟩, h2⟩ => ⟨hx, k, h1, h2⟩⟩

/-- A tiled range does not end before it starts. -/
theorem Tiles.le {a e : ℕ} {bs : List Block} (ht : Tiles h a bs e) : a ≤ e := by
  induction bs generalizing a with
  | nil => exact Nat.le_of_eq ht
  | cons b bs ih =>
      have := ih ht.2
      omega

/-- Every block lies in the range. -/
theorem Tiles.mem_le {a e : ℕ} {bs : List Block} (ht : Tiles h a bs e) {b : Block} (hb : b ∈ bs) :
    a ≤ b.addr ∧ b.addr + h + b.size ≤ e := by
  induction bs generalizing a with
  | nil => exact absurd hb List.not_mem_nil
  | cons c bs ih =>
      obtain ⟨hc, hrest⟩ := ht
      rcases List.mem_cons.mp hb with rfl | hb
      · exact ⟨hc.ge, hc ▸ hrest.le⟩
      · have := ih hrest hb
        omega

/-- Earlier blocks end before later ones begin. -/
theorem Tiles.pairwise {a e : ℕ} {bs : List Block} (ht : Tiles h a bs e) :
    bs.Pairwise fun x y => x.addr + h + x.size ≤ y.addr := by
  induction bs generalizing a with
  | nil => exact List.Pairwise.nil
  | cons b bs ih =>
      obtain ⟨hb, hrest⟩ := ht
      refine List.Pairwise.cons (fun y hy => ?_) (ih hrest)
      rw [hb]
      exact (hrest.mem_le hy).1

/-- The blocks around a block lie before and behind it. -/
theorem Tiles.around {a e : ℕ} {xs ys : List Block} {b : Block} (ht : Tiles h a (xs ++ b :: ys) e) :
    (∀ x ∈ xs, x.addr + h + x.size ≤ b.addr) ∧ ∀ y ∈ ys, b.addr + h + b.size ≤ y.addr := by
  obtain ⟨-, hpair, hcross⟩ := List.pairwise_append.mp ht.pairwise
  exact ⟨fun x hx => hcross x hx b List.mem_cons_self, fun y hy => (List.pairwise_cons.mp hpair).1 y hy⟩

/-- Two different blocks do not overlap. -/
theorem Tiles.apart {a e : ℕ} {bs : List Block} (ht : Tiles h a bs e) {b c : Block} (hb : b ∈ bs)
    (hc : c ∈ bs) (hne : b ≠ c) :
    b.addr + h + b.size ≤ c.addr ∨ c.addr + h + c.size ≤ b.addr := by
  obtain ⟨xs, ys, rfl⟩ := List.append_of_mem hb
  rcases List.mem_append.mp hc with hc | hc
  · exact Or.inr (ht.around.1 c hc)
  · rcases List.mem_cons.mp hc with rfl | hc
    · exact absurd rfl hne
    · exact Or.inl (ht.around.2 c hc)

/-- A block is replaced by blocks that cover its range. -/
theorem Tiles.replace {a e : ℕ} {xs ys l : List Block} {b : Block}
    (ht : Tiles h a (xs ++ b :: ys) e) (hz : Tiles h b.addr l (b.addr + h + b.size)) :
    Tiles h a (xs ++ (l ++ ys)) e := by
  obtain ⟨k, hx, hb⟩ := Tiles.append_iff.mp ht
  obtain ⟨rfl, hy⟩ := hb
  exact Tiles.append_iff.mpr ⟨_, hx, Tiles.append_iff.mpr ⟨_, hz, hy⟩⟩

/-- A block and the one behind it are merged. -/
theorem Tiles.merge {a e : ℕ} {xs ys : List Block} {b c : Block}
    (ht : Tiles h a (xs ++ b :: c :: ys) e) (f : Bool) :
    Tiles h a (xs ++ ⟨b.addr, b.size + (h + c.size), f⟩ :: ys) e := by
  obtain ⟨k, hx, hb, hc, hy⟩ := Tiles.append_iff.mp ht
  refine Tiles.append_iff.mpr ⟨k, hx, hb, ?_⟩
  have harith : k + h + (b.size + (h + c.size)) = k + h + b.size + h + c.size := by omega
  rw [harith]
  exact hy

/-! ### Coalesced lists -/

/-- Coalesced lists that meet at blocks which are not both free. -/
theorem Coalesced.append {l ys : List Block} (hx : Coalesced l) (hy : Coalesced ys)
    (hmeet : ∀ x ∈ l.getLast?, ∀ y ∈ ys.head?, ¬ (x.free = true ∧ y.free = true)) :
    Coalesced (l ++ ys) :=
  List.isChain_append.mpr ⟨hx, hy, hmeet⟩

/-- Parts of a coalesced list are coalesced, and no two free blocks meet between them. -/
theorem Coalesced.of_append {l ys : List Block} (h : Coalesced (l ++ ys)) :
    Coalesced l ∧ Coalesced ys ∧
      ∀ x ∈ l.getLast?, ∀ y ∈ ys.head?, ¬ (x.free = true ∧ y.free = true) :=
  List.isChain_append.mp h

/-- The rest of a coalesced list is coalesced. -/
theorem Coalesced.tail {b : Block} {ys : List Block} (h : Coalesced (b :: ys)) : Coalesced ys :=
  (Coalesced.of_append (l := [b]) h).2.1

/-- A coalesced tiling of free blocks is at most one block. -/
theorem Coalesced.single {bs : List Block} (hc : Coalesced bs) (hfree : ∀ b ∈ bs, b.free = true) :
    bs.length ≤ 1 := by
  cases bs with
  | nil => exact Nat.zero_le _
  | cons b bs =>
      cases bs with
      | nil => exact le_rfl
      | cons c bs =>
          exact absurd ⟨hfree b (by simp), hfree c (by simp)⟩ (List.isChain_cons_cons.mp hc).1

end Tiling
