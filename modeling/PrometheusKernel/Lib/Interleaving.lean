import Mathlib.Tactic
import Mathlib.Algebra.BigOperators.Group.Finset.Basic
import Mathlib.Data.Fintype.Basic

/-!
# Interleaved runs

A system takes one action at a time: `step s a` is the state after `a`, or `none` where `a` is not
possible. `exec` runs a list of actions, in the order in which some scheduler chose them. A guard
`ok` on actions restricts the schedules; `Guarded` says that every action of the list meets the guard
in the state in which it is taken.

`invariant` is the rule for proofs about all schedules: what one guarded action preserves, every
guarded run preserves. `forall_update` and `unique_update` are for the local states of threads, one of
which moves, and `population` counts the threads in a kind of local state.
-/

namespace Interleaving

variable {S A : Type*} (step : S → A → Option S)

/-- The numerals of schedules of two threads. -/
instance two_threads : NeZero 2 := ⟨two_ne_zero⟩

/-- The actions in turn. -/
def exec (s : S) (as : List A) : Option S := as.foldlM step s

/-- Every action meets the guard when its turn comes. -/
def Guarded (ok : S → A → Prop) : S → List A → Prop
  | _, [] => True
  | s, a :: as => ok s a ∧ ∀ s', step s a = some s' → Guarded ok s' as

/-- `Guarded` as a test, for a guard that can be tested. -/
def guardedBy (ok : S → A → Bool) : S → List A → Bool
  | _, [] => true
  | s, a :: as => ok s a && match step s a with
    | none => true
    | some s' => guardedBy ok s' as

variable {step}

/-- A run takes its first step, and then the others. -/
theorem exec_cons {s : S} {a : A} {as : List A} {s' : S} (h : exec step s (a :: as) = some s') :
    ∃ s₁, step s a = some s₁ ∧ exec step s₁ as = some s' := by
  unfold exec at h
  rw [List.foldlM_cons] at h
  exact Option.bind_eq_some_iff.mp h

/-- A run goes on from the state that its first part reaches. -/
theorem exec_append {s s₁ : S} {as bs : List A} (h : exec step s as = some s₁) :
    exec step s (as ++ bs) = exec step s₁ bs := by
  unfold exec at h ⊢
  rw [List.foldlM_append, h]
  rfl

/-- What one guarded action preserves, every guarded run preserves. -/
theorem invariant {ok : S → A → Prop} {I : S → Prop}
    (hstep : ∀ s a s', I s → ok s a → step s a = some s' → I s') {s s' : S} {as : List A}
    (hs : I s) (hg : Guarded step ok s as) (hexec : exec step s as = some s') : I s' := by
  induction as generalizing s with
  | nil =>
      obtain rfl : s = s' := Option.some.inj hexec
      exact hs
  | cons a as ih =>
      obtain ⟨s₁, h₁, hrest⟩ := exec_cons hexec
      exact ih (hstep s a s₁ hs hg.1 h₁) (hg.2 s₁ h₁) hrest

/-- If guarded actions are possible and preserve `I`, which may count them, every guarded run of fewer than `N` actions
reaches its end, in `I`. -/
theorem exec_counted {ok : S → A → Prop} {I : ℕ → S → Prop} {N : ℕ}
    (hstep : ∀ n s a, n + 1 < N → I n s → ok s a → ∃ s', step s a = some s' ∧ I (n + 1) s') {n : ℕ} {s : S}
    {as : List A} (hn : n + as.length < N) (hs : I n s) (hg : Guarded step ok s as) :
    ∃ s', exec step s as = some s' ∧ I (n + as.length) s' := by
  induction as generalizing n s with
  | nil => exact ⟨s, rfl, hs⟩
  | cons a as ih =>
      rw [List.length_cons] at hn
      obtain ⟨s₁, h₁, hs₁⟩ := hstep n s a (by omega) hs hg.1
      obtain ⟨s', h', hs'⟩ := ih (by omega) hs₁ (hg.2 s₁ h₁)
      refine ⟨s', ?_, ?_⟩
      · unfold exec at h' ⊢
        rw [List.foldlM_cons, h₁]
        exact h'
      · rw [List.length_cons, Nat.add_comm as.length 1, ← Nat.add_assoc]
        exact hs'

/-- If every permitted step exists and keeps the invariant, every permitted run exists and keeps it. -/
theorem exec_total {ok : S → A → Prop} {I : S → Prop}
    (hstep : ∀ s a, I s → ok s a → ∃ s', step s a = some s' ∧ I s') {s : S} {as : List A}
    (hs : I s) (hg : Guarded step ok s as) : ∃ s', exec step s as = some s' ∧ I s' :=
  exec_counted (I := fun _ => I) (fun _ s a _ => hstep s a) (Nat.lt_succ_self (0 + as.length)) hs hg

/-- Every run is guarded by a guard that never refuses. -/
theorem guarded_of_forall {ok : S → A → Prop} (h : ∀ s a, ok s a) (s : S) (as : List A) :
    Guarded step ok s as := by
  induction as generalizing s with
  | nil => trivial
  | cons a as ih => exact ⟨h s a, fun s' _ => ih s'⟩

/-- A run whose actions meet the guard in every state is guarded. -/
theorem guarded_of_mem {ok : S → A → Prop} {as : List A} (h : ∀ a ∈ as, ∀ s, ok s a) (s : S) :
    Guarded step ok s as := by
  induction as generalizing s with
  | nil => trivial
  | cons a as ih =>
      exact ⟨h a List.mem_cons_self s, fun s' _ => ih (fun b hb => h b (List.mem_cons_of_mem a hb)) s'⟩

/-- A run that passes the test is guarded. -/
theorem guarded_of_guardedBy {ok : S → A → Prop} {t : S → A → Bool} (h : ∀ s a, t s a = true → ok s a)
    {s : S} {as : List A} (htest : guardedBy step t s as = true) : Guarded step ok s as := by
  induction as generalizing s with
  | nil => trivial
  | cons a as ih =>
      simp only [guardedBy, Bool.and_eq_true] at htest
      refine ⟨h s a htest.1, fun s' hs' => ih ?_⟩
      simpa [hs'] using htest.2

/-- A guarded run, one action longer. -/
theorem guarded_concat {ok : S → A → Prop} {s : S} {as : List A} {a : A} :
    Guarded step ok s (as ++ [a]) ↔
      Guarded step ok s as ∧ ∀ s', exec step s as = some s' → ok s' a := by
  induction as generalizing s with
  | nil =>
      refine ⟨fun h => ⟨trivial, fun s' hs' => ?_⟩, fun h => ⟨h.2 s rfl, fun _ _ => trivial⟩⟩
      obtain rfl : s = s' := Option.some.inj hs'
      exact h.1
  | cons b as ih =>
      constructor
      · intro h
        refine ⟨⟨h.1, fun s₁ hs₁ => (ih.mp (h.2 s₁ hs₁)).1⟩, fun s' hs' => ?_⟩
        obtain ⟨s₁, hs₁, hrest⟩ := exec_cons hs'
        exact (ih.mp (h.2 s₁ hs₁)).2 s' hrest
      · rintro ⟨h, hlast⟩
        refine ⟨h.1, fun s₁ hs₁ => ih.mpr ⟨h.2 s₁ hs₁, fun s' hs' => hlast s' ?_⟩⟩
        unfold exec at hs' ⊢
        rw [List.foldlM_cons, hs₁]
        exact hs'

/-- The beginning of a guarded run is guarded. -/
theorem guarded_append {ok : S → A → Prop} {s : S} {as bs : List A} (h : Guarded step ok s (as ++ bs)) :
    Guarded step ok s as := by
  induction as generalizing s with
  | nil => trivial
  | cons a as ih => exact ⟨h.1, fun s' hs' => ih (h.2 s' hs')⟩

/-- The states on the way of a run. -/
theorem exec_of_append {s s' : S} {as bs : List A} (h : exec step s (as ++ bs) = some s') :
    ∃ s₁, exec step s as = some s₁ ∧ exec step s₁ bs = some s' := by
  unfold exec at h ⊢
  rw [List.foldlM_append] at h
  exact Option.bind_eq_some_iff.mp h

/-- A run with one step more. -/
theorem exec_concat {s s₁ : S} {as : List A} {a : A} (h : exec step s as = some s₁) :
    exec step s (as ++ [a]) = step s₁ a := by
  rw [exec_append h]
  unfold exec
  rw [List.foldlM_cons]
  exact Option.bind_fun_some _

/-! ### One thread at a time -/

section Threads

variable {ι L X : Type*} [DecidableEq ι] {f : ι → L} {i : ι} {l : L}

/-- What holds of the new local state of one thread and of the old local states of the others. -/
theorem forall_update {P : ι → L → Prop} (hl : P i l) (h : ∀ j, j ≠ i → P j (f j)) :
    ∀ j, P j (Function.update f i l j) := by
  intro j
  rcases eq_or_ne j i with rfl | hj
  · rw [Function.update_self]
    exact hl
  · rw [Function.update_of_ne hj]
    exact h j hj

/-- What threads hold exclusively, and one of them picks up what nobody holds. -/
theorem unique_update {g : L → Option X} (h : ∀ j k x, g (f j) = some x → g (f k) = some x → j = k)
    (hl : ∀ x, g l = some x → ∀ j, j ≠ i → g (f j) ≠ some x) (j k : ι) (x : X)
    (hj : g (Function.update f i l j) = some x) (hk : g (Function.update f i l k) = some x) : j = k := by
  by_cases hji : j = i
  · rw [hji, Function.update_self] at hj
    by_cases hki : k = i
    · exact hji.trans hki.symm
    · rw [Function.update_of_ne hki] at hk
      exact absurd hk (hl x hj k hki)
  · rw [Function.update_of_ne hji] at hj
    by_cases hki : k = i
    · rw [hki, Function.update_self] at hk
      exact absurd hj (hl x hk j hji)
    · rw [Function.update_of_ne hki] at hk
      exact h j k x hj hk

end Threads

/-! ### Counting threads -/

section Population

variable {n : ℕ} {L : Type*} (p : L → Bool) (f : Fin n → L)

/-- The number of threads whose local state satisfies `p`. -/
def population : ℕ := (Finset.univ.filter fun i => p (f i) = true).card

/-- One thread moves from its local state to `l`. -/
theorem population_update (i : Fin n) (l : L) :
    population p (Function.update f i l) + (if p (f i) then 1 else 0) =
      population p f + if p l then 1 else 0 := by
  have hsplit : ∀ g : Fin n → L, population p g =
      (if p (g i) then 1 else 0) + ∑ j ∈ Finset.univ.erase i, if p (g j) then 1 else 0 := by
    intro g
    unfold population
    rw [Finset.card_filter]
    exact (Finset.add_sum_erase _ _ (Finset.mem_univ i)).symm
  have hrest : (∑ j ∈ Finset.univ.erase i, if p (Function.update f i l j) then 1 else 0) =
      ∑ j ∈ Finset.univ.erase i, if p (f j) then 1 else 0 := by
    refine Finset.sum_congr rfl fun j hj => ?_
    rw [Function.update_of_ne (Finset.ne_of_mem_erase hj)]
  rw [hsplit f, hsplit, hrest, Function.update_self]
  omega

/-- Where nobody satisfies a condition its population is 0. -/
theorem population_eq_zero (h : ∀ i, p (f i) = false) : population p f = 0 := by
  unfold population
  rw [Finset.card_eq_zero, Finset.filter_eq_empty_iff]
  intro i _
  simp [h i]

/-- A state that fewer threads are in. -/
theorem population_lt {q : L → Bool} (himp : ∀ l, q l = true → p l = true) {i : Fin n} (hp : p (f i) = true)
    (hq : q (f i) = false) : population q f < population p f := by
  refine Finset.card_lt_card (Finset.ssubset_iff_subset_ne.mpr ⟨?_, ?_⟩)
  · intro j hj
    simp only [Finset.mem_filter, Finset.mem_univ, true_and] at hj ⊢
    exact himp _ hj
  · intro heq
    have hmem : i ∈ Finset.univ.filter fun i => p (f i) = true := by simp [hp]
    rw [← heq] at hmem
    simp [hq] at hmem

end Population

end Interleaving
