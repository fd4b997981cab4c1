import Mathlib.Tactic
import Mathlib.Data.Set.Insert

/-!
# Trees of tables

A table tree is seen through its reader `child t i`: the table that slot `i` of the table `t` points
to, if any. `walk child r p` follows the path `p` from the root `r`. `Forest child roots d` says that
the trees of a set of roots are unshared to the depth `d`: a table that a path of length at most `d`
reaches is reached on no other path, of whatever root. In particular no walk meets a table twice.

Three changes are considered, each given by how the new reader differs from the old one on tables
that walks pass through:

* slots of tables at depth `d` or not in the forest change (`walk_eq_of_agree`): no walk changes;
* an empty slot gets a new empty table (`Forest.walk_insert`): exactly one walk changes;
* an empty table becomes a root (`Forest.addRoot`).
-/

namespace TableTree

variable {α ι : Type*} {child child' : α → ι → Option α} {roots : Set α} {d : ℕ}

/-- The table at the end of the path. -/
def walk (child : α → ι → Option α) : α → List ι → Option α
  | t, [] => some t
  | t, i :: p => (child t i).bind fun t' => walk child t' p

/-- The table `t` is reached from a root on a path of length at most `d`. -/
def Reached (child : α → ι → Option α) (roots : Set α) (d : ℕ) (t : α) : Prop :=
  ∃ r ∈ roots, ∃ p : List ι, p.length ≤ d ∧ walk child r p = some t

/-- To the depth `d`, every table is reached on one path only. -/
def Forest (child : α → ι → Option α) (roots : Set α) (d : ℕ) : Prop :=
  ∀ r ∈ roots, ∀ r' ∈ roots, ∀ p p' : List ι, p.length ≤ d → p'.length ≤ d → ∀ t,
    walk child r p = some t → walk child r' p' = some t → r = r' ∧ p = p'

/-! ### Walks -/

/-- The empty path ends where it starts. -/
@[simp] theorem walk_nil (t : α) : walk child t [] = some t := rfl

/-- A path in two parts. -/
theorem walk_append (t : α) (p q : List ι) :
    walk child t (p ++ q) = (walk child t p).bind fun t' => walk child t' q := by
  induction p generalizing t with
  | nil => rfl
  | cons i p ih =>
      rw [List.cons_append, walk, walk]
      cases child t i with
      | none => rfl
      | some t' => exact ih t'

/-- A path with one step more. -/
theorem walk_concat (t : α) (p : List ι) (i : ι) :
    walk child t (p ++ [i]) = (walk child t p).bind fun t' => child t' i := by
  rw [walk_append]
  congr 1
  funext t'
  rw [walk]
  cases child t' i <;> rfl

/-- One step from the end of a path. -/
theorem walk_concat_of_eq {t u : α} {p : List ι} (h : walk child t p = some u) (i : ι) :
    walk child t (p ++ [i]) = child u i := by
  rw [walk_concat, h]
  rfl

/-- Readers that agree on the tables above the depth `d` give the same walks down to `d`. -/
theorem walk_eq_of_agree {r : α}
    (h : ∀ q : List ι, q.length < d → ∀ t, walk child r q = some t → ∀ i, child' t i = child t i)
    {p : List ι} (hp : p.length ≤ d) : walk child' r p = walk child r p := by
  induction p using List.reverseRecOn with
  | nil => rfl
  | append_singleton q i ih =>
      rw [List.length_append, List.length_singleton] at hp
      rw [walk_concat, walk_concat, ih (by omega)]
      cases hw : walk child r q with
      | none => rfl
      | some t => exact h q (by omega) t hw i

/-- A forest only depends on the walks from its roots. -/
theorem Forest.congr (h : Forest child roots d)
    (hw : ∀ r ∈ roots, ∀ p : List ι, p.length ≤ d → walk child' r p = walk child r p) :
    Forest child' roots d := by
  intro r hr r' hr' p p' hp hp' t h1 h2
  rw [hw r hr p hp] at h1
  rw [hw r' hr' p' hp'] at h2
  exact h r hr r' hr' p p' hp hp' t h1 h2

/-! ### A new table -/

section insert

variable {r t n : α} {p : List ι} {i : ι}

/-- Where an empty slot `(t, i)` gets a table `n` without entries, the walk that ends there reaches
`n` and every other walk is as it was. -/
theorem Forest.walk_insert (h : Forest child roots d) (hr : r ∈ roots)
    (ht : walk child r p = some t) (hp : p.length < d) (hempty : child t i = none)
    (hslot : child' t i = some n) (hnew : ∀ j, child' n j = none)
    (hother : ∀ u, Reached child roots d u → ∀ j, u ≠ t ∨ j ≠ i → child' u j = child u j)
    {r' : α} (hr' : r' ∈ roots) {q : List ι} (hq : q.length ≤ d) :
    (r' = r ∧ q = p ++ [i] → walk child' r' q = some n) ∧
      (¬ (r' = r ∧ q = p ++ [i]) → walk child' r' q = walk child r' q) := by
  induction q using List.reverseRecOn with
  | nil => exact ⟨fun hc => absurd hc.2 (by simp), fun _ => rfl⟩
  | append_singleton q j ih =>
      rw [List.length_append, List.length_singleton] at hq
      obtain ⟨ih1, ih2⟩ := ih (by omega)
      by_cases hc : r' = r ∧ q = p ++ [i]
      · -- below the new table there is nothing, as there was below the empty slot
        obtain ⟨rfl, rfl⟩ := hc
        have hold : walk child r' (p ++ [i]) = none := by rw [walk_concat_of_eq ht, hempty]
        refine ⟨fun hc => absurd hc.2 ?_, fun _ => ?_⟩
        · intro heq
          have := congrArg List.length heq
          simp at this
        · rw [walk_concat_of_eq (ih1 ⟨rfl, rfl⟩), hnew j, walk_append, hold]
          rfl
      · rw [walk_concat, walk_concat, ih2 hc]
        cases hw : walk child r' q with
        | none =>
            refine ⟨fun ⟨h1, h2⟩ => ?_, fun _ => rfl⟩
            obtain ⟨rfl, -⟩ := List.append_inj' h2 rfl
            rw [h1, ht] at hw
            exact absurd hw (by simp)
        | some u =>
            by_cases hut : u = t ∧ j = i
            · obtain ⟨rfl, rfl⟩ := hut
              obtain ⟨h1, h2⟩ := h r' hr' r hr q p (by omega) hp.le u hw ht
              exact ⟨fun _ => hslot, fun hne => absurd ⟨h1, by rw [h2]⟩ hne⟩
            · refine ⟨fun ⟨h1, h2⟩ => absurd ?_ hut, fun _ => ?_⟩
              · obtain ⟨rfl, hj⟩ := List.append_inj' h2 rfl
                rw [h1, ht] at hw
                exact ⟨(Option.some.inj hw).symm, List.singleton_inj.mp hj⟩
              · refine hother u ⟨r', hr', q, by omega, hw⟩ j ?_
                by_contra hcon
                push Not at hcon
                exact hut hcon

/-- The forest stays unshared if the new table was not in it. -/
theorem Forest.insert (h : Forest child roots d) (hn : ¬ Reached child roots d n)
    (hsame : ∀ r' ∈ roots, ∀ q : List ι, q.length ≤ d →
      (r' = r ∧ q = p ++ [i] → walk child' r' q = some n) ∧
        (¬ (r' = r ∧ q = p ++ [i]) → walk child' r' q = walk child r' q)) :
    Forest child' roots d := by
  intro r₁ h₁ r₂ h₂ p₁ p₂ hl₁ hl₂ u hw₁ hw₂
  obtain ⟨a₁, b₁⟩ := hsame r₁ h₁ p₁ hl₁
  obtain ⟨a₂, b₂⟩ := hsame r₂ h₂ p₂ hl₂
  by_cases hc₁ : r₁ = r ∧ p₁ = p ++ [i] <;> by_cases hc₂ : r₂ = r ∧ p₂ = p ++ [i]
  · exact ⟨hc₁.1.trans hc₂.1.symm, hc₁.2.trans hc₂.2.symm⟩
  · obtain rfl := Option.some.inj ((a₁ hc₁).symm.trans hw₁)
    exact absurd ⟨r₂, h₂, p₂, hl₂, (b₂ hc₂).symm.trans hw₂⟩ hn
  · obtain rfl := Option.some.inj ((a₂ hc₂).symm.trans hw₂)
    exact absurd ⟨r₁, h₁, p₁, hl₁, (b₁ hc₁).symm.trans hw₁⟩ hn
  · exact h r₁ h₁ r₂ h₂ p₁ p₂ hl₁ hl₂ u ((b₁ hc₁).symm.trans hw₁) ((b₂ hc₂).symm.trans hw₂)

end insert

/-! ### A new root -/

/-- From a node without children only the empty path leads anywhere. -/
theorem walk_of_empty {n : α} (hnew : ∀ j, child n j = none) {p : List ι} {t : α}
    (h : walk child n p = some t) : p = [] ∧ t = n := by
  cases p with
  | nil => exact ⟨rfl, (Option.some.inj h).symm⟩
  | cons i p =>
      rw [walk, hnew i] at h
      exact absurd h (by simp)

/-- An empty table outside the forest becomes a root. -/
theorem Forest.addRoot (h : Forest child roots d) {n : α} (hn : ¬ Reached child roots d n)
    (hnew : ∀ j, child n j = none) : Forest child (Set.insert n roots) d := by
  intro r hr r' hr' p p' hp hp' t h1 h2
  rcases hr with rfl | hr <;> rcases hr' with rfl | hr'
  · exact ⟨rfl, (walk_of_empty hnew h1).1.trans (walk_of_empty hnew h2).1.symm⟩
  · obtain ⟨-, rfl⟩ := walk_of_empty hnew h1
    exact absurd ⟨r', hr', p', hp', h2⟩ hn
  · obtain ⟨-, rfl⟩ := walk_of_empty hnew h2
    exact absurd ⟨r, hr, p, hp, h1⟩ hn
  · exact h r hr r' hr' p p' hp hp' t h1 h2

end TableTree
