import PrometheusKernel.Vmm.Tables
import PrometheusKernel.Ledger

/-!
# The frames that `vmm_map_page` takes

`vmm_map_page` descends three levels and asks for a frame at each slot that is empty (`descend`, `ptFor_eq`). It
finds or makes the page table exactly if it gets every frame it asks for (`ptFor_ne_zero_iff`), and every frame it
gets is a table of the address space from then on, also when it runs out of frames further down (`ptFor_taken`).
-/

namespace PrometheusKernel.Vmm

open ByteMem TableTree

variable {A : Type} {P : Ownership A} {alloc : Machine A → ℕ × Machine A} {roots : Set ℕ} {s : Machine A}
  {F T : Set ℕ}

/-- `get_or_alloc` along a path; null ends it. -/
def descend (alloc : Machine A → ℕ × Machine A) : Machine A → ℕ → List ℕ → ℕ × Machine A
  | s, t, [] => (t, s)
  | s, t, i :: p =>
      if (getOrAlloc alloc s t i).1 = 0 then (0, (getOrAlloc alloc s t i).2)
      else descend alloc (getOrAlloc alloc s t i).2 (getOrAlloc alloc s t i).1 p

/-- Every slot of the path that is empty gets a frame. -/
def FramesFor (alloc : Machine A → ℕ × Machine A) : Machine A → ℕ → List ℕ → Prop
  | _, _, [] => True
  | s, t, i :: p =>
      if readEntry s.mem t i &&& flagPresent = 0 then
        (alloc s).1 ≠ 0 ∧ FramesFor alloc (newTable alloc s t i) (alloc s).1 p
      else FramesFor alloc s (readEntry s.mem t i &&& frameMask) p

instance decidableFramesFor (alloc : Machine A → ℕ × Machine A) :
    (s : Machine A) → (t : ℕ) → (p : List ℕ) → Decidable (FramesFor alloc s t p)
  | _, _, [] => instDecidableTrue
  | s, t, i :: p =>
      have := decidableFramesFor alloc (newTable alloc s t i) (alloc s).1 p
      have := decidableFramesFor alloc s (readEntry s.mem t i &&& frameMask) p
      if h : readEntry s.mem t i &&& flagPresent = 0 then
        decidable_of_iff ((alloc s).1 ≠ 0 ∧ FramesFor alloc (newTable alloc s t i) (alloc s).1 p)
          (iff_of_eq (if_pos h).symm)
      else decidable_of_iff (FramesFor alloc s (readEntry s.mem t i &&& frameMask) p) (iff_of_eq (if_neg h).symm)

/-- The descent of `vmm_map_page` follows the path of the address. -/
theorem ptFor_eq (s : Machine A) (pml4 virt : ℕ) : ptFor alloc s pml4 virt = descend alloc s pml4 (tablePath virt) := by
  have hlast : ∀ res : ℕ × Machine A, (if res.1 = 0 then (0, res.2) else (res.1, res.2)) = res := by
    intro res
    by_cases h0 : res.1 = 0
    · rw [if_pos h0, ← h0]
    · rw [if_neg h0]
  unfold ptFor tablePath
  simp only [descend, hlast]

/-- The tables of a path are found or made if the frames are there. -/
theorem descend_ne_zero_iff (halloc : P.Allocator alloc) {r : ℕ} (hr : r ∈ roots) (p : List ℕ) :
    ∀ {s F T q t}, P.Owns s F → Tables s.mem roots T → T ⊆ F → walk (child s.mem) r q = some t →
      (q ++ p).length ≤ 3 → (∀ i ∈ p, i < ptEntries) →
      ((descend alloc s t p).1 ≠ 0 ↔ FramesFor alloc s t p) := by
  induction p with
  | nil =>
      intro s F T q t howns ht hsub hw hlen _
      have htT := ht.mem_of_walk hr ((List.append_nil q) ▸ hlen) hw
      exact iff_of_true (ht.isFrame t htT).ne_zero trivial
  | cons i p ih =>
      intro s F T q t howns ht hsub hw hlen hlt
      have hi : i < ptEntries := hlt i List.mem_cons_self
      have hlen' : (q ++ [i] ++ p).length ≤ 3 := by rwa [List.append_assoc]
      have hq : q.length < 3 := by
        rw [List.length_append, List.length_cons] at hlen
        omega
      obtain ⟨F', T', hg, hnext⟩ := getOrAlloc_spec halloc howns ht hsub hr hq hw hi
      rw [descend, FramesFor]
      by_cases habsent : readEntry s.mem t i &&& flagPresent = 0
      · rw [if_pos habsent]
        by_cases h0 : (alloc s).1 = 0
        · rw [getOrAlloc_of_fail habsent h0, if_pos rfl]
          exact iff_of_false (fun h => h rfl) fun h => h.1 h0
        · rw [getOrAlloc_of_absent halloc howns hi habsent h0] at hg hnext ⊢
          rw [if_neg h0, ih hg.owns hg.tables hg.subset (hnext h0) hlen' fun j hj => hlt j (List.mem_cons_of_mem i hj)]
          exact (and_iff_right h0).symm
      · rw [if_neg habsent]
        rw [getOrAlloc_of_present habsent] at hg hnext ⊢
        have hchild : child s.mem t i = some (readEntry s.mem t i &&& frameMask) := if_pos ⟨hi, habsent⟩
        have hne : readEntry s.mem t i &&& frameMask ≠ 0 := by
          refine (ht.isFrame _ (ht.mem_of_walk (p := q ++ [i]) hr ?_ ?_)).ne_zero
          · rw [List.length_append, List.length_singleton]
            exact hq
          · rw [walk_concat_of_eq hw, hchild]
        rw [if_neg hne]
        exact ih hg.owns hg.tables hg.subset (hnext hne) hlen' fun j hj => hlt j (List.mem_cons_of_mem i hj)

/-- What every level of a descent keeps, the descent keeps. -/
theorem descend_rule (halloc : P.Allocator alloc) {r : ℕ} (hr : r ∈ roots) {Q : Machine A → Prop}
    (hstep : ∀ {s F T q t i}, P.Owns s F → Tables s.mem roots T → T ⊆ F → q.length < 3 →
      walk (child s.mem) r q = some t → i < ptEntries → Q s → Q (getOrAlloc alloc s t i).2) (p : List ℕ) :
    ∀ {s F T q t}, P.Owns s F → Tables s.mem roots T → T ⊆ F → walk (child s.mem) r q = some t →
      (q ++ p).length ≤ 3 → (∀ i ∈ p, i < ptEntries) → Q s → Q (descend alloc s t p).2 := by
  induction p with
  | nil => exact fun _ _ _ _ _ _ hQ => hQ
  | cons i p ih =>
      intro s F T q t howns ht hsub hw hlen hlt hQ
      have hi : i < ptEntries := hlt i List.mem_cons_self
      have hlen' : (q ++ [i] ++ p).length ≤ 3 := by rwa [List.append_assoc]
      have hq : q.length < 3 := by
        rw [List.length_append, List.length_cons] at hlen
        omega
      have hQ₁ := hstep howns ht hsub hq hw hi hQ
      obtain ⟨F₁, T₁, hg, hnext⟩ := getOrAlloc_spec halloc howns ht hsub hr hq hw hi
      rw [descend]
      by_cases h0 : (getOrAlloc alloc s t i).1 = 0
      · rw [if_pos h0]
        exact hQ₁
      · rw [if_neg h0]
        exact ih hg.owns hg.tables hg.subset (hnext h0) hlen' (fun j hj => hlt j (List.mem_cons_of_mem i hj)) hQ₁

/-- The path of an address consists of indices. -/
theorem tablePath_lt (v : ℕ) : ∀ i ∈ tablePath v, i < ptEntries := by
  intro i hi
  simp only [tablePath, List.mem_cons, List.not_mem_nil, or_false] at hi
  rcases hi with rfl | rfl | rfl
  · exact index_lt v 39
  · exact index_lt v 30
  · exact index_lt v 21

/-- What every level keeps, the way to the page table keeps. -/
theorem ptFor_rule (halloc : P.Allocator alloc) {r : ℕ} (hr : r ∈ roots) {Q : Machine A → Prop}
    (hstep : ∀ {s F T q t i}, P.Owns s F → Tables s.mem roots T → T ⊆ F → q.length < 3 →
      walk (child s.mem) r q = some t → i < ptEntries → Q s → Q (getOrAlloc alloc s t i).2) (howns : P.Owns s F)
    (ht : Tables s.mem roots T) (hsub : T ⊆ F) (v : ℕ) (hQ : Q s) : Q (ptFor alloc s r v).2 := by
  rw [ptFor_eq]
  exact descend_rule halloc hr hstep (tablePath v) (q := []) howns ht hsub rfl le_rfl (tablePath_lt v) hQ

/-- `vmm_map_page` gets its page table exactly if the frames are there. -/
theorem ptFor_ne_zero_iff (halloc : P.Allocator alloc) (howns : P.Owns s F) (ht : Tables s.mem roots T) (hsub : T ⊆ F)
    {r : ℕ} (hr : r ∈ roots) (v : ℕ) : (ptFor alloc s r v).1 ≠ 0 ↔ FramesFor alloc s r (tablePath v) := by
  rw [ptFor_eq]
  exact descend_ne_zero_iff halloc hr (tablePath v) (q := []) howns ht hsub rfl le_rfl (tablePath_lt v)

/-! ### The frames that were taken -/

/-- The frame is a table of the address space, below its root. -/
def Installed (m : Mem) (pml4 f : ℕ) : Prop :=
  ∃ p : List ℕ, p ≠ [] ∧ p.length ≤ 3 ∧ walk (child m) pml4 p = some f

section taken

variable {s : Machine (Ledger A)} {P : Ownership (Ledger A)} {take : Machine A → ℕ × Machine A}

/-- Tables that grow keep what is installed. -/
theorem Grown.installed {A : Type} {P : Ownership A} {s s' : Machine A} {F' T' : Set ℕ}
    (h : Grown P roots s F T s' F' T') {r f : ℕ} (hr : r ∈ roots) (hf : Installed s.mem r f) :
    Installed s'.mem r f := by
  obtain ⟨p, hp, hlen, hw⟩ := hf
  exact ⟨p, hp, hlen, h.walk_eq r hr p hlen f hw⟩

/-- What one level takes is linked into the slot. -/
theorem getOrAlloc_taken (halloc : P.Allocator (Ledger.alloc take)) (howns : P.Owns s F) (ht : Tables s.mem roots T)
    (hsub : T ⊆ F) {r : ℕ} (hr : r ∈ roots) {q : List ℕ} (hq : q.length < 3) {t i : ℕ}
    (hw : walk (child s.mem) r q = some t) (hi : i < ptEntries) :
    ∀ f ∈ (getOrAlloc (Ledger.alloc take) s t i).2.pages.taken, f ∈ s.pages.taken ∨
      Installed (getOrAlloc (Ledger.alloc take) s t i).2.mem r f := by
  obtain ⟨F₁, T₁, -, hnext⟩ := getOrAlloc_spec halloc howns ht hsub hr hq hw hi
  intro f hf
  by_cases habsent : readEntry s.mem t i &&& flagPresent = 0
  · by_cases h0 : (Ledger.alloc take s).1 = 0
    · have h0' : (take (Ledger.plain s)).1 = 0 := h0
      rw [getOrAlloc_of_fail habsent h0] at hf
      have htaken : (Ledger.alloc take s).2.pages.taken = s.pages.taken := if_pos h0'
      exact Or.inl (htaken ▸ hf)
    · have h0' : (take (Ledger.plain s)).1 ≠ 0 := h0
      have htaken : (newTable (Ledger.alloc take) s t i).pages.taken
          = (take (Ledger.plain s)).1 :: s.pages.taken := if_neg h0'
      rw [getOrAlloc_of_absent halloc howns hi habsent h0] at hf hnext ⊢
      rw [htaken] at hf
      rcases List.mem_cons.mp hf with rfl | hf
      · refine Or.inr ⟨q ++ [i], by simp, ?_, hnext h0⟩
        rw [List.length_append, List.length_singleton]
        exact hq
      · exact Or.inl hf
  · rw [getOrAlloc_of_present habsent] at hf
    exact Or.inl hf

/-- The frames that a descent takes are tables afterwards. -/
theorem ptFor_taken (halloc : P.Allocator (Ledger.alloc take)) (howns : P.Owns s F) (ht : Tables s.mem roots T)
    (hsub : T ⊆ F) {r : ℕ} (hr : r ∈ roots) (v : ℕ) :
    ∀ f ∈ (ptFor (Ledger.alloc take) s r v).2.pages.taken, f ∈ s.pages.taken ∨
      Installed (ptFor (Ledger.alloc take) s r v).2.mem r f := by
  refine ptFor_rule (Q := fun m => ∀ f ∈ m.pages.taken, f ∈ s.pages.taken ∨ Installed m.mem r f) halloc hr ?_ howns ht
    hsub v fun f hf => Or.inl hf
  intro s₁ F₁ T₁ q t i howns₁ ht₁ hsub₁ hq hw hi hold f hf
  obtain ⟨F₂, T₂, hg, -⟩ := getOrAlloc_spec halloc howns₁ ht₁ hsub₁ hr hq hw hi
  rcases getOrAlloc_taken halloc howns₁ ht₁ hsub₁ hr hq hw hi f hf with hf | hnew
  · exact (hold f hf).imp_right fun h => hg.installed hr h
  · exact Or.inr hnew

/-- The record changes nothing in what is asked for. -/
theorem framesFor_ledger (p : List ℕ) :
    ∀ (s : Machine (Ledger A)) (t : ℕ), FramesFor (Ledger.alloc take) s t p ↔ FramesFor take (Ledger.plain s) t p := by
  induction p with
  | nil => exact fun _ _ => Iff.rfl
  | cons i p ih =>
      intro s t
      have hnew : Ledger.plain (newTable (Ledger.alloc take) s t i) = newTable take (Ledger.plain s) t i := rfl
      rw [FramesFor, FramesFor, ih, ih, hnew]
      rfl

end taken

end PrometheusKernel.Vmm
