import PrometheusKernel.Lib.Interleaving

/-!
# Fair schedules

A schedule says for each time which thread has its turn; a thread that has nothing to do lets its turn pass, so that
`turn` is a function. `after` is the state after some turns, and a schedule is `Fair` if no thread waits forever for
its next turn.

A schedule is `Along` a guard if every turn that it gives is allowed where it is given.

`Fair.reaches` is the rule for proofs that a system gets somewhere under every fair schedule along a guard. Work is
left while the goal is not reached (`work`), no turn makes it more, and some thread is `helpful`: it stays helpful, at
no greater distance (`dist`) from its next piece of work, until some work is done, and each turn of its own brings it
nearer.
-/

namespace Interleaving

variable {S ι : Type*} (turn : S → ι → S)

/-- The state after the first `t` turns of the schedule `σ`. -/
def after (σ : ℕ → ι) (s : S) : ℕ → S
  | 0 => s
  | t + 1 => turn (after σ s t) (σ t)

/-- Every thread has another turn at any time. -/
def Fair (σ : ℕ → ι) : Prop := ∀ i t, ∃ u, t ≤ u ∧ σ u = i

/-- Every turn of the schedule is allowed. -/
def Along (ok : S → ι → Prop) (σ : ℕ → ι) (s : S) : Prop := ∀ t, ok (after turn σ s t) (σ t)

variable {turn} {ok : S → ι → Prop} {σ : ℕ → ι} {s : S}

/-- What each allowed turn preserves. -/
theorem after_invariant {I : S → Prop} (hturn : ∀ s i, ok s i → I s → I (turn s i)) (hok : Along turn ok σ s)
    (hs : I s) (t : ℕ) : I (after turn σ s t) := by
  induction t with
  | zero => exact hs
  | succ t ih => exact hturn _ _ (hok t) ih

/-- Turns taken in two stages. -/
theorem after_add (t u : ℕ) :
    after turn σ s (t + u) = after turn (fun k => σ (t + k)) (after turn σ s t) u := by
  induction u with
  | zero => rfl
  | succ u ih =>
      show turn (after turn σ s (t + u)) (σ (t + u)) = _
      rw [ih]
      rfl

/-- A fair schedule from a later time on. -/
theorem Fair.later (h : Fair σ) (t : ℕ) : Fair fun k => σ (t + k) := by
  intro i k
  obtain ⟨u, hu, hi⟩ := h i (t + k)
  refine ⟨u - t, by omega, ?_⟩
  show σ (t + (u - t)) = i
  rw [Nat.add_sub_cancel' (by omega)]
  exact hi

/-- Nothing is asked of a schedule by the trivial condition. -/
theorem Along.always : Along turn (fun _ _ => True) σ s := fun _ => trivial

/-- A condition on a schedule is a condition on what is left of it. -/
theorem Along.later (h : Along turn ok σ s) (t : ℕ) : Along turn ok (fun k => σ (t + k)) (after turn σ s t) := by
  intro k
  rw [← after_add]
  exact h (t + k)

/-- A helpful thread: as long as no work is done, it stays so, and comes nearer to its work with each of its turns. -/
structure Helpful (turn : S → ι → S) (ok : S → ι → Prop) (work : S → ℕ) (helpful : ι → S → Prop)
    (dist : ι → S → ℕ) (I : S → Prop) : Prop where
  keep : ∀ s i, ok s i → I s → I (turn s i)
  progress : ∀ s i j, ok s j → I s → helpful i s → work (turn s j) < work s ∨
    work (turn s j) = work s ∧ helpful i (turn s j) ∧ dist i (turn s j) ≤ dist i s ∧
      (j = i → dist i (turn s j) < dist i s)

section reaches

variable {work : S → ℕ} {helpful : ι → S → Prop} {dist : ι → S → ℕ} {I : S → Prop}

/-- A helpful thread gets its work done, unless others are faster. -/
theorem Helpful.works (h : Helpful turn ok work helpful dist I) {i : ι} (hfair : Fair σ) (hok : Along turn ok σ s)
    (hs : I s) (hi : helpful i s) : ∃ t, work (after turn σ s t) < work s := by
  obtain ⟨u, -, hu⟩ := hfair i 0
  -- on the distance of the thread, and until its next turn
  induction hd : dist i s using Nat.strong_induction_on generalizing σ s u with
  | _ d ihd =>
      induction u generalizing σ s with
      | zero =>
          rcases h.progress s i (σ 0) (hok 0) hs hi with hless | ⟨hwork, hi', -, hnear⟩
          · exact ⟨1, hless⟩
          · obtain ⟨u', -, hu'⟩ := (hfair.later 1) i 0
            obtain ⟨t, ht⟩ := ihd _ (hd ▸ hnear hu) (hfair.later 1) (hok.later 1) (h.keep s (σ 0) (hok 0) hs) hi' u'
              hu' rfl
            refine ⟨1 + t, ?_⟩
            rw [after_add]
            exact hwork ▸ ht
      | succ u ihu =>
          rcases h.progress s i (σ 0) (hok 0) hs hi with hless | ⟨hwork, hi', hnear, -⟩
          · exact ⟨1, hless⟩
          · have hu' : σ (1 + u) = i := by rwa [Nat.add_comm]
            have hkeep := h.keep s (σ 0) (hok 0) hs
            have hlater : ∃ t, work (after turn (fun k => σ (1 + k)) (turn s (σ 0)) t) < work (turn s (σ 0)) := by
              rcases Nat.lt_or_ge (dist i (turn s (σ 0))) d with hlt | hge
              · exact ihd _ hlt (hfair.later 1) (hok.later 1) hkeep hi' u hu' rfl
              · exact ihu (hfair.later 1) (hok.later 1) hkeep hi' hu' (by omega)
            obtain ⟨t, ht⟩ := hlater
            refine ⟨1 + t, ?_⟩
            rw [after_add]
            exact hwork ▸ ht

/-- If some thread is helpful wherever the goal is not reached, every fair schedule reaches it. -/
theorem Fair.reaches (hfair : Fair σ) (h : Helpful turn ok work helpful dist I) (hok : Along turn ok σ s)
    {goal : S → Prop} (hsome : ∀ s, I s → ¬goal s → ∃ i, helpful i s) (hs : I s) : ∃ t, goal (after turn σ s t) := by
  induction hw : work s using Nat.strong_induction_on generalizing σ s with
  | _ w ih =>
      by_cases hgoal : goal s
      · exact ⟨0, hgoal⟩
      · obtain ⟨i, hi⟩ := hsome s hs hgoal
        obtain ⟨t, ht⟩ := h.works hfair hok hs hi
        obtain ⟨u, hu⟩ := ih _ (hw ▸ ht) (hfair.later t) (hok.later t) (after_invariant h.keep hok hs t) rfl
        refine ⟨t + u, ?_⟩
        rw [after_add]
        exact hu

end reaches

end Interleaving
