import Mathlib.Tactic
import Mathlib.Data.Finset.Card
import Mathlib.Data.Set.Card

/-!
# Copy-on-write sharing

Names `m : M` are mapped to frames `f : F`, either privately or copy-on-write, and each frame has a
reference count. `map m = some (f, b)` is the mapping of `m`, with `b = true` for copy-on-write;
`page f` is what the frame holds, and `view map page m` what a read through `m` returns.

`Isolated map count support` is the invariant: a private mapping is the only mapping of its frame,
and the count of a frame is at least the number of copy-on-write mappings of it. Counts may be too
large, never too small. The moves of a copy-on-write system keep it: `attach` a fresh frame,
`share` a frame among names, and `leave` a frame for one's own, which may be the frame itself for
the `last` mapping of it. The `view` lemmas say what the moves do to reads: exactly what they would do if every
name had its own page.

`Exact map count` is stronger: the count of a frame is the number of its copy-on-write mappings. It asks more of the
moves: only a private mapping may become copy-on-write, and a mapping that stops being copy-on-write is
counted once less.
-/

namespace CopyOnWrite

variable {M F V : Type*}

/-- What a read through each name returns. -/
def view (map : M → Option (F × Bool)) (page : F → V) (m : M) : Option V :=
  (map m).map fun e => page e.1

variable [DecidableEq F]

/-- The copy-on-write mappings of a frame. -/
def sharers (map : M → Option (F × Bool)) (support : Finset M) (f : F) : Finset M :=
  support.filter fun m => map m = some (f, true)

/-- The invariant of copy-on-write sharing. -/
structure Isolated (map : M → Option (F × Bool)) (count : F → ℕ) (support : Finset M) : Prop where
  /-- Finitely many names are mapped. -/
  mapped : ∀ m, map m ≠ none → m ∈ support
  /-- A private mapping is the only mapping of its frame. -/
  sole : ∀ m m' f b, map m = some (f, false) → map m' = some (f, b) → m' = m
  /-- No copy-on-write mapping is uncounted. -/
  counted : ∀ f, (sharers map support f).card ≤ count f

variable {map : M → Option (F × Bool)} {count : F → ℕ} {support : Finset M}

/-- The sharers are the places of the support that share the frame. -/
theorem mem_sharers {m : M} {f : F} :
    m ∈ sharers map support f ↔ m ∈ support ∧ map m = some (f, true) := Finset.mem_filter

/-- A frame with a private mapping has no copy-on-write mapping. -/
theorem Isolated.not_shared (h : Isolated map count support) {m m' : M} {f : F}
    (hm : map m = some (f, false)) : map m' ≠ some (f, true) := by
  intro hm'
  have heq := h.sole m m' f true hm hm'
  rw [heq, hm] at hm'
  simp at hm'

/-- A shared frame has a count of at least 1. -/
theorem Isolated.one_le_count (h : Isolated map count support) {m : M} {f : F}
    (hm : map m = some (f, true)) : 1 ≤ count f := by
  have hmem : m ∈ sharers map support f := mem_sharers.mpr ⟨h.mapped m (by simp [hm]), hm⟩
  exact (Finset.card_pos.mpr ⟨m, hmem⟩).trans_le (h.counted f)

/-! ### Moves -/

variable [DecidableEq M]

/-- A name gets a fresh frame. -/
theorem Isolated.attach (h : Isolated map count support) (m : M) {f : F}
    (hfresh : ∀ m' b, map m' ≠ some (f, b)) :
    Isolated (Function.update map m (some (f, false))) count (insert m support) := by
  refine ⟨fun m' hm' => ?_, fun m₁ m₂ g b h₁ h₂ => ?_, fun g => ?_⟩
  · by_cases hc : m' = m
    · rw [hc]
      exact Finset.mem_insert_self _ _
    · rw [Function.update_of_ne hc] at hm'
      exact Finset.mem_insert_of_mem (h.mapped m' hm')
  · by_cases hc₁ : m₁ = m <;> by_cases hc₂ : m₂ = m
    · rw [hc₁, hc₂]
    · rw [hc₁, Function.update_self] at h₁
      rw [Function.update_of_ne hc₂] at h₂
      obtain ⟨rfl, -⟩ := Prod.mk.inj (Option.some.inj h₁)
      exact absurd h₂ (hfresh m₂ b)
    · rw [hc₂, Function.update_self] at h₂
      rw [Function.update_of_ne hc₁] at h₁
      obtain ⟨rfl, -⟩ := Prod.mk.inj (Option.some.inj h₂)
      exact absurd h₁ (hfresh m₁ false)
    · rw [Function.update_of_ne hc₁] at h₁
      rw [Function.update_of_ne hc₂] at h₂
      exact h.sole m₁ m₂ g b h₁ h₂
  · refine (Finset.card_le_card fun m' hm' => ?_).trans (h.counted g)
    obtain ⟨hs, hmap⟩ := mem_sharers.mp hm'
    by_cases hc : m' = m
    · rw [hc, Function.update_self] at hmap
      simp at hmap
    · rw [Function.update_of_ne hc] at hmap
      exact mem_sharers.mpr ⟨h.mapped m' (by simp [hmap]), hmap⟩

/-- The names of a list, among them all that were mapped to the frame, share the frame. -/
theorem Isolated.share (h : Isolated map count support) {f : F} {ms : List M}
    {count' : F → ℕ} {map' : M → Option (F × Bool)} (hms : ∀ m ∈ ms, map' m = some (f, true))
    (hother : ∀ m, m ∉ ms → map' m = map m) (hall : ∀ m b, m ∉ ms → map m ≠ some (f, b))
    (hcount : ms.length ≤ count' f) (hcount' : ∀ g, g ≠ f → count' g = count g) :
    Isolated map' count' (ms.toFinset ∪ support) := by
  refine ⟨fun m hm => ?_, fun m₁ m₂ g b h₁ h₂ => ?_, fun g => ?_⟩
  · by_cases hc : m ∈ ms
    · exact Finset.mem_union_left _ (List.mem_toFinset.mpr hc)
    · rw [hother m hc] at hm
      exact Finset.mem_union_right _ (h.mapped m hm)
  · by_cases hc₁ : m₁ ∈ ms
    · rw [hms m₁ hc₁] at h₁
      simp at h₁
    · rw [hother m₁ hc₁] at h₁
      by_cases hc₂ : m₂ ∈ ms
      · rw [hms m₂ hc₂] at h₂
        obtain ⟨rfl, -⟩ := Prod.mk.inj (Option.some.inj h₂)
        exact absurd h₁ (hall m₁ false hc₁)
      · rw [hother m₂ hc₂] at h₂
        exact h.sole m₁ m₂ g b h₁ h₂
  · by_cases hg : g = f
    · subst hg
      have hsub : sharers map' (ms.toFinset ∪ support) g ⊆ ms.toFinset := by
        intro m hm
        by_contra hc
        rw [List.mem_toFinset] at hc
        have hmap := (mem_sharers.mp hm).2
        rw [hother m hc] at hmap
        exact hall m true hc hmap
      exact ((Finset.card_le_card hsub).trans (List.toFinset_card_le ms)).trans hcount
    · rw [hcount' g hg]
      refine (Finset.card_le_card fun m hm => ?_).trans (h.counted g)
      obtain ⟨-, hmap⟩ := mem_sharers.mp hm
      by_cases hc : m ∈ ms
      · rw [hms m hc] at hmap
        exact absurd (Prod.mk.inj (Option.some.inj hmap)).1.symm hg
      · rw [hother m hc] at hmap
        exact mem_sharers.mpr ⟨h.mapped m (by simp [hmap]), hmap⟩

/-- A mapping of `f` leaves it, at most one count less, for a frame that is its own from then on: a
fresh one, or `f` itself if there is no other mapping of it. -/
theorem Isolated.leave (h : Isolated map count support) {m : M} {f f' : F} {b : Bool}
    (hm : map m = some (f, b)) (hown : ∀ m' b, m' ≠ m → map m' ≠ some (f', b)) {count' : F → ℕ}
    (hcount : count f - 1 ≤ count' f) (hcount' : ∀ g, g ≠ f → count' g = count g) :
    Isolated (Function.update map m (some (f', false))) count' support := by
  refine ⟨fun m' hm' => ?_, fun m₁ m₂ g b h₁ h₂ => ?_, fun g => ?_⟩
  · by_cases hc : m' = m
    · rw [hc]
      exact h.mapped m (by simp [hm])
    · rw [Function.update_of_ne hc] at hm'
      exact h.mapped m' hm'
  · by_cases hc₁ : m₁ = m <;> by_cases hc₂ : m₂ = m
    · rw [hc₁, hc₂]
    · rw [hc₁, Function.update_self] at h₁
      rw [Function.update_of_ne hc₂] at h₂
      obtain ⟨rfl, -⟩ := Prod.mk.inj (Option.some.inj h₁)
      exact absurd h₂ (hown m₂ b hc₂)
    · rw [hc₂, Function.update_self] at h₂
      rw [Function.update_of_ne hc₁] at h₁
      obtain ⟨rfl, -⟩ := Prod.mk.inj (Option.some.inj h₂)
      exact absurd h₁ (hown m₁ false hc₁)
    · rw [Function.update_of_ne hc₁] at h₁
      rw [Function.update_of_ne hc₂] at h₂
      exact h.sole m₁ m₂ g b h₁ h₂
  · -- `m` is a sharer no more
    have hsub : sharers (Function.update map m (some (f', false))) support g
        ⊆ (sharers map support g).erase m := by
      intro m' hm'
      obtain ⟨hs, hmap⟩ := mem_sharers.mp hm'
      by_cases hc : m' = m
      · rw [hc, Function.update_self] at hmap
        simp at hmap
      · rw [Function.update_of_ne hc] at hmap
        exact Finset.mem_erase.mpr ⟨hc, mem_sharers.mpr ⟨hs, hmap⟩⟩
    have hcard := Finset.card_le_card hsub
    have hle := h.counted g
    by_cases hg : g = f
    · subst hg
      cases b with
      | false =>
          have hnone : sharers map support g = ∅ :=
            Finset.eq_empty_of_forall_notMem fun x hx => h.not_shared hm (mem_sharers.mp hx).2
          rw [hnone, Finset.erase_empty, Finset.card_empty] at hcard
          omega
      | true =>
          have hmem : m ∈ sharers map support g := mem_sharers.mpr ⟨h.mapped m (by simp [hm]), hm⟩
          rw [Finset.card_erase_of_mem hmem] at hcard
          omega
    · rw [hcount' g hg]
      exact hcard.trans ((Finset.card_erase_le).trans hle)

/-- A mapping whose frame has count 1 is the only mapping of the frame. -/
theorem Isolated.last (h : Isolated map count support) {m : M} {f : F} {b : Bool}
    (hm : map m = some (f, b)) (hc : count f = 1) :
    ∀ m' b, m' ≠ m → map m' ≠ some (f, b) := by
  intro m' b' hne hm'
  cases b with
  | false => exact hne (h.sole m m' f b' hm hm')
  | true =>
      have hb : b' = true := by
        by_contra hb
        rw [Bool.not_eq_true] at hb
        subst hb
        exact h.not_shared hm' hm
      subst hb
      have hsub : {m', m} ⊆ sharers map support f := by
        intro x hx
        rcases Finset.mem_insert.mp hx with rfl | hx
        · exact mem_sharers.mpr ⟨h.mapped x (by simp [hm']), hm'⟩
        · obtain rfl := Finset.mem_singleton.mp hx
          exact mem_sharers.mpr ⟨h.mapped x (by simp [hm]), hm⟩
      have hcard := (Finset.card_le_card hsub).trans (h.counted f)
      rw [Finset.card_pair hne, hc] at hcard
      exact absurd hcard (by norm_num)

/-! ### Reads -/

omit [DecidableEq F] in
/-- Mapping a name to another frame changes what it reads and nothing else. -/
theorem view_update (page : F → V) (m : M) (f : F) (b : Bool) :
    view (Function.update map m (some (f, b))) page
      = Function.update (view map page) m (some (page f)) := by
  funext m'
  by_cases hc : m' = m
  · rw [hc, Function.update_self, view, Function.update_self]
    rfl
  · rw [Function.update_of_ne hc, view, Function.update_of_ne hc]
    rfl

omit [DecidableEq F] [DecidableEq M] in
/-- Reads depend on the mapped frames only. -/
theorem view_congr {page page' : F → V} (h : ∀ m f b, map m = some (f, b) → page' f = page f) :
    view map page' = view map page := by
  funext m
  unfold view
  cases hm : map m with
  | none => rfl
  | some e =>
      obtain ⟨f, b⟩ := e
      simp only [Option.map_some]
      rw [h m f b hm]

/-- A write to a privately mapped frame is seen through its own name only. -/
theorem Isolated.view_write (h : Isolated map count support) {page page' : F → V} {m : M} {f : F}
    (hm : map m = some (f, false))
    (hpage : ∀ m' g b, map m' = some (g, b) → g ≠ f → page' g = page g) :
    view map page' = Function.update (view map page) m (some (page' f)) := by
  funext m'
  by_cases hc : m' = m
  · rw [hc, Function.update_self, view, hm]
    rfl
  · rw [Function.update_of_ne hc]
    unfold view
    cases hm' : map m' with
    | none => rfl
    | some e =>
        obtain ⟨g, b⟩ := e
        have hg : g ≠ f := by
          rintro rfl
          exact hc (h.sole m m' g b hm hm')
        simp only [Option.map_some, hpage m' g b hm' hg]

/-! ### Exact counts -/

/-- The copy-on-write mappings of a frame. -/
def shared (map : M → Option (F × Bool)) (f : F) : Set M := {m | map m = some (f, true)}

/-- The count of a frame is the number of its copy-on-write mappings. -/
structure Exact (map : M → Option (F × Bool)) (count : F → ℕ) : Prop where
  finite : ∀ f, (shared map f).Finite
  count_eq : ∀ f, (shared map f).ncard = count f

omit [DecidableEq F] in
/-- A place that becomes private leaves the sharers of every frame. -/
theorem shared_update_private (map : M → Option (F × Bool)) (m : M) (f g : F) :
    shared (Function.update map m (some (f, false))) g = shared map g \ {m} := by
  ext m'
  by_cases hc : m' = m
  · rw [hc]
    simp [shared]
  · simp [shared, hc]

omit [DecidableEq F] in
/-- A place that shares a frame joins its sharers. -/
theorem shared_update_self (map : M → Option (F × Bool)) (m : M) (f : F) :
    shared (Function.update map m (some (f, true))) f = insert m (shared map f) := by
  ext m'
  by_cases hc : m' = m
  · rw [hc]
    simp [shared]
  · simp [shared, hc]

omit [DecidableEq F] in
/-- A place that shares a frame leaves the sharers of the others. -/
theorem shared_update_of_ne (map : M → Option (F × Bool)) (m : M) {f g : F} (hg : g ≠ f) :
    shared (Function.update map m (some (f, true))) g = shared map g \ {m} := by
  ext m'
  by_cases hc : m' = m
  · rw [hc]
    simp [shared, hg.symm]
  · simp [shared, hc]

omit [DecidableEq F] [DecidableEq M] in
/-- A frame counts exactly when it is shared. -/
theorem Exact.nonempty_iff (h : Exact map count) (f : F) : (shared map f).Nonempty ↔ count f ≠ 0 := by
  rw [← h.count_eq f, ← Set.ncard_pos (h.finite f)]
  exact Nat.pos_iff_ne_zero

omit [DecidableEq F] in
/-- A name that is not copy-on-write gets a frame of its own. -/
theorem Exact.attach (h : Exact map count) {m : M} (hm : ∀ f, map m ≠ some (f, true)) (f : F) :
    Exact (Function.update map m (some (f, false))) count := by
  have hsame : ∀ g, shared (Function.update map m (some (f, false))) g = shared map g := fun g => by
    rw [shared_update_private]
    exact Set.sdiff_singleton_eq_self (hm g)
  refine ⟨fun g => ?_, fun g => ?_⟩
  · rw [hsame g]
    exact h.finite g
  · rw [hsame g]
    exact h.count_eq g

/-- A name that is not copy-on-write becomes so. -/
theorem Exact.share (h : Exact map count) {m : M} (hm : ∀ f, map m ≠ some (f, true)) (f : F) :
    Exact (Function.update map m (some (f, true))) (Function.update count f (count f + 1)) := by
  have hnot : ∀ g, m ∉ shared map g := hm
  refine ⟨fun g => ?_, fun g => ?_⟩
  · by_cases hg : g = f
    · rw [hg, shared_update_self]
      exact (h.finite f).insert m
    · rw [shared_update_of_ne map m hg]
      exact (h.finite g).sdiff
  · by_cases hg : g = f
    · rw [hg, shared_update_self, Function.update_self, Set.ncard_insert_of_notMem (hnot f) (h.finite f),
        h.count_eq f]
    · rw [shared_update_of_ne map m hg, Function.update_of_ne hg, Set.sdiff_singleton_eq_self (hnot g)]
      exact h.count_eq g

/-- A copy-on-write mapping is given up for a frame of its own. -/
theorem Exact.leave (h : Exact map count) {m : M} {f : F} (hm : map m = some (f, true)) (f' : F) :
    Exact (Function.update map m (some (f', false))) (Function.update count f (count f - 1)) := by
  refine ⟨fun g => ?_, fun g => ?_⟩
  · rw [shared_update_private]
    exact (h.finite g).sdiff
  · rw [shared_update_private]
    by_cases hg : g = f
    · rw [hg, Function.update_self, ← h.count_eq f]
      exact Set.ncard_sdiff_singleton_of_mem hm
    · have hnot : m ∉ shared map g := fun hmem => hg (Prod.mk.inj (Option.some.inj (hmem.symm.trans hm))).1
      rw [Function.update_of_ne hg, Set.sdiff_singleton_eq_self hnot]
      exact h.count_eq g

end CopyOnWrite
