import PrometheusKernel.Machine
import Mathlib.Data.Set.Insert

/-!
# Owning page frames

What a client of the page allocator may rely on. `Ownership A` is a discipline on machines whose
allocator state is `A`: `Owns s F` says that in `s` the clients hold the frames `F`. Held frames are
page-aligned, not null and below the physical address width, and whatever the clients write into
them the allocator does not notice. `Allocator P alloc` says that the allocation function `alloc`
follows the discipline: it returns null, or a frame that was not held and now is, and it leaves the
contents of held frames alone.

`Freer P free` says the same of a function that gives frames back, and `Beside P act` of what other
clients do meanwhile. `Ownership.pinned` is the discipline of one client among others, whose frames it
does not touch. The clients of this development (page tables, copy-on-write, demand paging) are
verified against these; the buddy allocator satisfies them (`Pmm.Source`).
-/

namespace PrometheusKernel

open ByteMem

/-- The byte `x` lies in the page frame at `f`. -/
def InPage (f x : ℕ) : Prop := f ≤ x ∧ x < f + pageSize

instance (f x : ℕ) : Decidable (InPage f x) :=
  inferInstanceAs (Decidable (f ≤ x ∧ x < f + pageSize))

/-- A page-aligned frame below the physical address width, not null. -/
structure IsFrame (f : ℕ) : Prop where
  ne_zero : f ≠ 0
  aligned : f % pageSize = 0
  lt : f < 2 ^ 52

/-- A discipline of holding frames. -/
structure Ownership (A : Type) where
  /-- The clients hold the frames `F`. -/
  Owns : Machine A → Set ℕ → Prop
  /-- Held frames are frames. -/
  isFrame : ∀ {s F}, Owns s F → ∀ f ∈ F, IsFrame f
  /-- Writes into held frames go unnoticed. -/
  write : ∀ {s F}, Owns s F → ∀ w : Mem, (∀ x, (∀ f ∈ F, ¬ InPage f x) → w x = s.mem x) →
    Owns { s with mem := w } F

/-- What the allocator knows of memory lies below the physical address width. -/
def Ownership.Physical {A : Type} (P : Ownership A) : Prop :=
  ∀ {s F}, P.Owns s F → ∀ w : Mem, (∀ x < 2 ^ 52, w x = s.mem x) → P.Owns { s with mem := w } F

/-- An allocation function that follows the discipline. -/
structure Ownership.Allocator {A : Type} (P : Ownership A) (alloc : Machine A → ℕ × Machine A) :
    Prop where
  /-- A call that returns null hands nothing out. -/
  fail : ∀ {s F}, P.Owns s F → (alloc s).1 = 0 → P.Owns (alloc s).2 F
  /-- Any other call hands out a frame that was not held. -/
  fresh : ∀ {s F}, P.Owns s F → (alloc s).1 ≠ 0 → (alloc s).1 ∉ F
  /-- It is held from then on. -/
  owns : ∀ {s F}, P.Owns s F → (alloc s).1 ≠ 0 → P.Owns (alloc s).2 (Set.insert (alloc s).1 F)
  /-- The contents of held frames do not change. -/
  mem : ∀ {s F}, P.Owns s F → ∀ f ∈ F, ∀ x, InPage f x → (alloc s).2.mem x = s.mem x

/-- A function that takes held frames back. -/
structure Ownership.Freer {A : Type} (P : Ownership A) (free : ℕ → Machine A → Machine A) : Prop where
  /-- The frame is not held any more. -/
  owns : ∀ {s F}, P.Owns s F → ∀ f ∈ F, P.Owns (free f s) (F \ {f})
  /-- The contents of the other held frames do not change. -/
  mem : ∀ {s F}, P.Owns s F → ∀ f ∈ F, ∀ u ∈ F, u ≠ f → ∀ x, InPage u x → (free f s).mem x = s.mem x

/-- A function that does not touch the held frames: what another client of the allocator does. -/
structure Ownership.Beside {A : Type} (P : Ownership A) (act : Machine A → Machine A) : Prop where
  /-- They are held afterwards. -/
  owns : ∀ {s F}, P.Owns s F → P.Owns (act s) F
  /-- Their contents do not change. -/
  mem : ∀ {s F}, P.Owns s F → ∀ f ∈ F, ∀ x, InPage f x → (act s).mem x = s.mem x

/-- Frames with a byte in common are the same. -/
theorem IsFrame.eq_of_inPage {f g x : ℕ} (hf : IsFrame f) (hg : IsFrame g) (hx : InPage f x)
    (hx' : InPage g x) : f = g := by
  have h1 := hf.aligned
  have h2 := hg.aligned
  unfold InPage pageSize at hx hx'
  unfold pageSize at h1 h2
  omega

/-- Different frames do not overlap. -/
theorem IsFrame.apart {f g : ℕ} (hf : IsFrame f) (hg : IsFrame g) (hne : f ≠ g) :
    f + 4096 ≤ g ∨ g + 4096 ≤ f := by
  have h1 := hf.aligned
  have h2 := hg.aligned
  unfold pageSize at h1 h2
  omega

/-- A state that differs in memory only, and there in held frames only. -/
theorem Ownership.write_state {A : Type} (P : Ownership A) {s s' : Machine A} {F : Set ℕ}
    (h : P.Owns s F) (hpages : s'.pages = s.pages)
    (hmem : ∀ x, (∀ f ∈ F, ¬ InPage f x) → s'.mem x = s.mem x) : P.Owns s' F := by
  obtain ⟨m', a'⟩ := s'
  obtain rfl : a' = s.pages := hpages
  exact P.write h m' hmem

/-- A discipline of physical memory does not notice what happens above it. -/
theorem Ownership.Physical.write_state {A : Type} {P : Ownership A} (hP : P.Physical) {s s' : Machine A} {F : Set ℕ}
    (h : P.Owns s F) (hpages : s'.pages = s.pages) (hmem : ∀ x < 2 ^ 52, s'.mem x = s.mem x) : P.Owns s' F := by
  obtain ⟨m', a'⟩ := s'
  obtain rfl : a' = s.pages := hpages
  exact hP h m' hmem

/-- Frames given back one after the other. -/
theorem Ownership.Freer.foldl {A : Type} {P : Ownership A} {free : ℕ → Machine A → Machine A} (h : P.Freer free)
    {l : List ℕ} {s : Machine A} {F : Set ℕ} (hs : P.Owns s F) (hl : l.Nodup) (hsub : ∀ a ∈ l, a ∈ F) :
    P.Owns (l.foldl (fun m a => free a m) s) { f | f ∈ F ∧ f ∉ l } ∧
      ∀ u ∈ F, u ∉ l → ∀ x, InPage u x → (l.foldl (fun m a => free a m) s).mem x = s.mem x := by
  induction l generalizing s F with
  | nil =>
      have hset : { f | f ∈ F ∧ f ∉ ([] : List ℕ) } = F := by
        ext f
        exact and_iff_left List.not_mem_nil
      rw [hset]
      exact ⟨hs, fun u _ _ x _ => rfl⟩
  | cons a l ih =>
      obtain ⟨ha, hnodup⟩ := List.nodup_cons.mp hl
      have haF := hsub a List.mem_cons_self
      have hsub' : ∀ b ∈ l, b ∈ F \ {a} := fun b hb =>
        ⟨hsub b (List.mem_cons_of_mem _ hb), fun heq => ha (heq ▸ hb)⟩
      obtain ⟨howns, hmem⟩ := ih (h.owns hs a haF) hnodup hsub'
      have hset : { f | f ∈ F ∧ f ∉ a :: l } = { f | f ∈ F \ {a} ∧ f ∉ l } := by
        ext f
        show (f ∈ F ∧ f ∉ a :: l) ↔ ((f ∈ F ∧ f ≠ a) ∧ f ∉ l)
        rw [List.mem_cons, not_or, and_assoc]
      rw [hset]
      refine ⟨howns, fun u hu hnot x hx => ?_⟩
      have hne : u ≠ a := fun heq => hnot (heq ▸ List.mem_cons_self)
      rw [List.foldl_cons, hmem u ⟨hu, hne⟩ (fun hin => hnot (List.mem_cons_of_mem _ hin)) x hx]
      exact h.mem hs a haF u hu hne x hx

/-- The client holds `F` while others hold `G`, whose contents are those of `w`. -/
def Ownership.pinned {A : Type} (P : Ownership A) (G : Set ℕ) (w : Mem) : Ownership A where
  Owns s F := P.Owns s (F ∪ G) ∧ (∀ f ∈ F, f ∉ G) ∧ ∀ f ∈ G, ∀ x, InPage f x → s.mem x = w x
  isFrame h f hf := P.isFrame h.1 f (Or.inl hf)
  write := by
    intro s F h m hm
    obtain ⟨howns, hapart, hpin⟩ := h
    refine ⟨P.write howns m fun x hx => hm x fun f hf => hx f (Or.inl hf), hapart, fun f hf x hx => ?_⟩
    rw [← hpin f hf x hx]
    refine hm x fun f' hf' hx' => hapart f' hf' ?_
    rwa [(P.isFrame howns f' (Or.inl hf')).eq_of_inPage (P.isFrame howns f (Or.inr hf)) hx' hx]

/-- An allocation function leaves the frames of the others alone. -/
theorem Ownership.Allocator.pinned {A : Type} {P : Ownership A} {G : Set ℕ} {w : Mem}
    {alloc : Machine A → ℕ × Machine A} (h : P.Allocator alloc) : (P.pinned G w).Allocator alloc where
  fail hs h0 := ⟨h.fail hs.1 h0, hs.2.1, fun f hf x hx =>
    (h.mem hs.1 f (Or.inr hf) x hx).trans (hs.2.2 f hf x hx)⟩
  fresh hs hne hin := h.fresh hs.1 hne (Or.inl hin)
  owns := by
    intro s F hs hne
    obtain ⟨howns, hapart, hpin⟩ := hs
    have hfresh := h.fresh howns hne
    refine ⟨?_, fun f hf => ?_, fun f hf x hx => (h.mem howns f (Or.inr hf) x hx).trans (hpin f hf x hx)⟩
    · have hset : Set.insert (alloc s).1 F ∪ G = Set.insert (alloc s).1 (F ∪ G) := Set.insert_union
      rw [hset]
      exact h.owns howns hne
    · rcases hf with rfl | hf
      · exact fun hG => hfresh (Or.inr hG)
      · exact hapart f hf
  mem hs f hf x hx := h.mem hs.1 f (Or.inl hf) x hx

end PrometheusKernel
