import PrometheusKernel.Buddy.Run
import Mathlib.Data.Set.Insert

/-!
# Owning blocks of pages

What a client that takes blocks of several pages may rely on. `Ownership` is about single frames; `Holding A` is
the same for blocks, as pairs of an address and an order: `Holds s B` says that in `s` the clients hold the
blocks `B`. Held blocks are not null, do not overlap and end by `2 ^ 64`, and whatever the clients write into
them the allocator does not notice. They need not be aligned.

`Holding.Allocator` and `Holding.Freer` are what an allocation function and a release do to held blocks. A
`Journal` is the state of an allocator with the blocks that were handed out and those that came back beside it,
which nothing reads; `Holding.recorded` is the discipline of a client that holds what it had and what the
journal says it has taken.

`bump` is the simplest discipline: blocks are cut off the end of memory one after the other.
-/

namespace PrometheusKernel

open ByteMem Buddy

/-- The first address behind a block. -/
def blockEnd (b : ℕ × ℕ) : ℕ := b.1 + 2 ^ b.2 * pageSize

/-- No block is empty. -/
theorem lt_blockEnd (b : ℕ × ℕ) : b.1 < blockEnd b := by
  have hpos : 0 < 2 ^ b.2 * pageSize := Nat.mul_pos (Nat.two_pow_pos b.2) (by unfold pageSize; norm_num)
  unfold blockEnd
  omega

/-- A discipline of holding blocks. -/
structure Holding (A : Type) where
  /-- The clients hold the blocks `B`. -/
  Holds : Machine A → Set (ℕ × ℕ) → Prop
  ne_zero : ∀ {s B}, Holds s B → ∀ b ∈ B, b.1 ≠ 0
  end_le : ∀ {s B}, Holds s B → ∀ b ∈ B, blockEnd b ≤ 2 ^ 64
  /-- Different blocks do not overlap. -/
  apart : ∀ {s B}, Holds s B → ∀ b ∈ B, ∀ c ∈ B, b ≠ c → blockEnd b ≤ c.1 ∨ blockEnd c ≤ b.1
  /-- Writes into held blocks go unnoticed. -/
  write : ∀ {s B}, Holds s B → ∀ w : Mem, (∀ x, (∀ b ∈ B, ¬ InBlock b x) → w x = s.mem x) →
    Holds { s with mem := w } B

namespace Holding

variable {A : Type}

/-- An allocation function that follows the discipline. -/
structure Allocator (P : Holding A) (alloc : ℕ → Machine A → ℕ × Machine A) : Prop where
  /-- A call that returns null hands nothing out. -/
  fail : ∀ {s B}, P.Holds s B → ∀ k, (alloc k s).1 = 0 → P.Holds (alloc k s).2 B
  /-- Any other call hands out a block of the order asked for that was not held. -/
  fresh : ∀ {s B}, P.Holds s B → ∀ k, (alloc k s).1 ≠ 0 → ((alloc k s).1, k) ∉ B
  /-- It is held from then on. -/
  holds : ∀ {s B}, P.Holds s B → ∀ k, (alloc k s).1 ≠ 0 →
    P.Holds (alloc k s).2 (Set.insert ((alloc k s).1, k) B)
  /-- The contents of held blocks do not change. -/
  mem : ∀ {s B}, P.Holds s B → ∀ k, ∀ b ∈ B, ∀ x, InBlock b x → (alloc k s).2.mem x = s.mem x

/-- A function that takes held blocks back. -/
structure Freer (P : Holding A) (free : ℕ → ℕ → Machine A → Machine A) : Prop where
  /-- The block is not held any more. -/
  holds : ∀ {s B}, P.Holds s B → ∀ b ∈ B, P.Holds (free b.1 b.2 s) (B \ {b})
  /-- The contents of the other held blocks do not change. -/
  mem : ∀ {s B}, P.Holds s B → ∀ b ∈ B, ∀ c ∈ B, c ≠ b → ∀ x, InBlock c x → (free b.1 b.2 s).mem x = s.mem x

variable {P : Holding A} {s : Machine A} {B : Set (ℕ × ℕ)}

/-- Held blocks at one address are one block. -/
theorem eq_of_addr (h : P.Holds s B) {b c : ℕ × ℕ} (hb : b ∈ B) (hc : c ∈ B) (haddr : b.1 = c.1) : b = c := by
  by_contra hne
  have hb' := lt_blockEnd b
  have hc' := lt_blockEnd c
  rcases P.apart h b hb c hc hne with hle | hle
  · omega
  · omega

/-- A state that differs in memory only, and there in held blocks only. -/
theorem write_state (P : Holding A) {s' : Machine A} (h : P.Holds s B) (hpages : s'.pages = s.pages)
    (hmem : ∀ x, (∀ b ∈ B, ¬ InBlock b x) → s'.mem x = s.mem x) : P.Holds s' B := by
  obtain ⟨m', a'⟩ := s'
  obtain rfl : a' = s.pages := hpages
  exact P.write h m' hmem

end Holding

/-! ### A record of the calls -/

/-- An allocator with a record of its calls. -/
structure Journal (A : Type) where
  pages : A
  /-- The blocks that were handed out, the latest first. -/
  taken : List (ℕ × ℕ)
  /-- The blocks that came back. -/
  freed : List (ℕ × ℕ)

namespace Journal

variable {A : Type}

/-- The machine without the record. -/
def plain (s : Machine (Journal A)) : Machine A := ⟨s.mem, s.pages.pages⟩

/-- The machine with an empty record. -/
def start (s : Machine A) : Machine (Journal A) := ⟨s.mem, ⟨s.pages, [], []⟩⟩

/-- An allocation, recorded. -/
def alloc (f : ℕ → Machine A → ℕ × Machine A) (k : ℕ) (s : Machine (Journal A)) : ℕ × Machine (Journal A) :=
  let res := f k (plain s)
  (res.1, ⟨res.2.mem, { s.pages with
    pages := res.2.pages, taken := if res.1 = 0 then s.pages.taken else (res.1, k) :: s.pages.taken }⟩)

/-- The release of a block, recorded. -/
def free (f : ℕ → ℕ → Machine A → Machine A) (a k : ℕ) (s : Machine (Journal A)) : Machine (Journal A) :=
  let m := f a k (plain s)
  ⟨m.mem, { s.pages with pages := m.pages, freed := (a, k) :: s.pages.freed }⟩

/-- The journal is beside the machine. -/
@[simp] theorem plain_start (s : Machine A) : plain (start s) = s := rfl

/-- An allocation below the journal. -/
@[simp] theorem plain_alloc (f : ℕ → Machine A → ℕ × Machine A) (k : ℕ) (s : Machine (Journal A)) :
    plain (alloc f k s).2 = (f k (plain s)).2 := rfl

/-- A release below the journal. -/
@[simp] theorem plain_free (f : ℕ → ℕ → Machine A → Machine A) (a k : ℕ) (s : Machine (Journal A)) :
    plain (free f a k s) = f a k (plain s) := rfl

/-- A release adds nothing to the blocks that were taken. -/
@[simp] theorem taken_free (f : ℕ → ℕ → Machine A → Machine A) (a k : ℕ) (s : Machine (Journal A)) :
    (free f a k s).pages.taken = s.pages.taken := rfl

/-- A release is noted. -/
@[simp] theorem freed_free (f : ℕ → ℕ → Machine A → Machine A) (a k : ℕ) (s : Machine (Journal A)) :
    (free f a k s).pages.freed = (a, k) :: s.pages.freed := rfl

/-- An allocation gives nothing back. -/
@[simp] theorem freed_alloc (f : ℕ → Machine A → ℕ × Machine A) (k : ℕ) (s : Machine (Journal A)) :
    (alloc f k s).2.pages.freed = s.pages.freed := rfl

end Journal

namespace Holding

open Journal

variable {A : Type}

/-- The client holds `G` and what it has taken. -/
def recorded (P : Holding A) (G : Set (ℕ × ℕ)) : Holding (Journal A) where
  Holds s B := P.Holds (plain s) B ∧ B = { b | b ∈ G ∨ b ∈ s.pages.taken } ∧ s.pages.taken.Nodup ∧
    ∀ b ∈ s.pages.taken, b ∉ G
  ne_zero h := P.ne_zero h.1
  end_le h := P.end_le h.1
  apart h := P.apart h.1
  write h w hw := ⟨P.write h.1 w hw, h.2⟩

variable {P : Holding A} {G : Set (ℕ × ℕ)}

/-- At the start of a journal its client holds what it had. -/
theorem holds_start {s : Machine A} (h : P.Holds s G) : (P.recorded G).Holds (start s) G := by
  refine ⟨h, ?_, List.nodup_nil, fun b hb => absurd hb List.not_mem_nil⟩
  ext b
  simp only [start, List.not_mem_nil, or_false, Set.mem_ofPred_eq]

/-- The recorded allocation function follows the discipline. -/
theorem Allocator.recorded {f : ℕ → Machine A → ℕ × Machine A} (h : P.Allocator f) :
    (P.recorded G).Allocator (Journal.alloc f) where
  fail := by
    intro s B hs k h0
    obtain ⟨hholds, hB, hnodup, hnot⟩ := hs
    have h0' : (f k (plain s)).1 = 0 := h0
    have htaken : (Journal.alloc f k s).2.pages.taken = s.pages.taken := if_pos h0'
    refine ⟨h.fail hholds k h0', ?_, ?_, ?_⟩
    all_goals rw [htaken]
    · exact hB
    · exact hnodup
    · exact hnot
  fresh hs k hne := h.fresh hs.1 k hne
  holds := by
    intro s B hs k hne
    obtain ⟨hholds, hB, hnodup, hnot⟩ := hs
    have hne' : (f k (plain s)).1 ≠ 0 := hne
    have htaken : (Journal.alloc f k s).2.pages.taken = ((f k (plain s)).1, k) :: s.pages.taken := if_neg hne'
    have hfresh : ((f k (plain s)).1, k) ∉ { b | b ∈ G ∨ b ∈ s.pages.taken } := hB ▸ h.fresh hholds k hne'
    refine ⟨h.holds hholds k hne', ?_, ?_, ?_⟩
    all_goals rw [htaken]
    · ext b
      rw [hB]
      show (b = ((f k (plain s)).1, k) ∨ b ∈ G ∨ b ∈ s.pages.taken) ↔
        (b ∈ G ∨ b ∈ ((f k (plain s)).1, k) :: s.pages.taken)
      rw [List.mem_cons]
      exact or_left_comm
    · exact List.nodup_cons.mpr ⟨fun hin => hfresh (Or.inr hin), hnodup⟩
    · intro b hb
      rcases List.mem_cons.mp hb with rfl | hb
      · exact fun hin => hfresh (Or.inl hin)
      · exact hnot b hb
  mem hs k b hb x hx := h.mem hs.1 k b hb x hx

end Holding

/-! ### Blocks cut off one after the other -/

/-- The next `2 ^ k` pages, or null when memory ends. -/
def bumpAlloc (k : ℕ) (m : Machine ℕ) : ℕ × Machine ℕ :=
  if blockEnd (m.pages, k) ≤ 2 ^ 64 then (m.pages, { m with pages := blockEnd (m.pages, k) }) else (0, m)

/-- A release that gives nothing back. -/
def bumpFree (_ _ : ℕ) (m : Machine ℕ) : Machine ℕ := m

/-- The next page is page-aligned, and the held blocks end before it. -/
def bump : Holding ℕ where
  Holds s B := (0 < s.pages ∧ s.pages % pageSize = 0) ∧
    (∀ b ∈ B, b.1 ≠ 0 ∧ blockEnd b ≤ s.pages ∧ blockEnd b ≤ 2 ^ 64) ∧
    ∀ b ∈ B, ∀ c ∈ B, b ≠ c → blockEnd b ≤ c.1 ∨ blockEnd c ≤ b.1
  ne_zero h b hb := (h.2.1 b hb).1
  end_le h b hb := (h.2.1 b hb).2.2
  apart h := h.2.2
  write h _ _ := h

/-- At the start nothing is held. -/
theorem bump_start {m : Machine ℕ} (hpos : 0 < m.pages) (haligned : m.pages % pageSize = 0) : bump.Holds m ∅ :=
  ⟨⟨hpos, haligned⟩, fun _ hb => absurd hb (Set.notMem_empty _), fun _ hb => absurd hb (Set.notMem_empty _)⟩

/-- A block that is aligned ends at a page. -/
theorem blockEnd_mod {b : ℕ × ℕ} (h : b.1 % pageSize = 0) : blockEnd b % pageSize = 0 := by
  unfold blockEnd
  rw [Nat.add_mul_mod_self_right]
  exact h

/-- Blocks cut off one after the other are fresh. -/
theorem bumpAlloc_allocator : bump.Allocator bumpAlloc where
  fail {s B} h k h0 := by
    unfold bumpAlloc at h0 ⊢
    split_ifs at h0 ⊢ with hfits
    · exact absurd h0 h.1.1.ne'
    · exact h
  fresh {s B} h k h0 := by
    unfold bumpAlloc at h0 ⊢
    split_ifs at h0 ⊢ with hfits
    · exact fun hin => absurd (h.2.1 _ hin).2.1 (not_le.mpr (lt_blockEnd (s.pages, k)))
    · exact absurd rfl h0
  holds {s B} h k h0 := by
    unfold bumpAlloc at h0 ⊢
    split_ifs at h0 ⊢ with hfits
    · obtain ⟨⟨hpos, haligned⟩, hB, hapart⟩ := h
      have hlt := lt_blockEnd (s.pages, k)
      refine ⟨⟨hpos.trans hlt, blockEnd_mod haligned⟩, ?_, ?_⟩
      · rintro b (rfl | hb)
        · exact ⟨hpos.ne', le_rfl, hfits⟩
        · exact ⟨(hB b hb).1, (hB b hb).2.1.trans hlt.le, (hB b hb).2.2⟩
      · rintro b (rfl | hb) c (rfl | hc) hne
        · exact absurd rfl hne
        · exact Or.inr (hB c hc).2.1
        · exact Or.inl (hB b hb).2.1
        · exact hapart b hb c hc hne
    · exact absurd rfl h0
  mem _ k _ _ _ _ := by
    unfold bumpAlloc
    split_ifs <;> rfl

/-- Giving nothing back is a release. -/
theorem bumpFree_freer : bump.Freer bumpFree where
  holds h _ _ := ⟨h.1, fun c hc => h.2.1 c hc.1, fun c hc d hd => h.2.2 c hc.1 d hd.1⟩
  mem _ _ _ _ _ _ _ _ := rfl

/-- The blocks are page-aligned. -/
theorem bumpAlloc_aligned {m : Machine ℕ} {B : Set (ℕ × ℕ)} (h : bump.Holds m B) (k : ℕ) :
    (bumpAlloc k m).1 % pageSize = 0 := by
  unfold bumpAlloc
  split_ifs with hfits
  · exact h.1.2
  · exact Nat.zero_mod _

end PrometheusKernel
