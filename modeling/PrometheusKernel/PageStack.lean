import PrometheusKernel.Ownership

/-!
# A stack of free pages

The simplest page allocator: the free pages are a list, an allocation takes the first one and a release puts
a page in front. It keeps nothing in memory. `stack` is its discipline of holding frames. The runs on concrete
input in this development take their pages from it.
-/

namespace PrometheusKernel

/-- An allocator that keeps what is free on a stack. -/
def popFree (m : Machine (List ℕ)) : ℕ × Machine (List ℕ) :=
  match m.pages with
  | [] => (0, m)
  | a :: l => (a, { m with pages := l })

@[inherit_doc popFree]
def pushFree (a : ℕ) (m : Machine (List ℕ)) : Machine (List ℕ) := { m with pages := a :: m.pages }

/-- Frames from a stack of free pages. -/
def stack : Ownership (List ℕ) where
  Owns s F := (∀ f ∈ F, IsFrame f) ∧ s.pages.Nodup ∧ ∀ f ∈ s.pages, IsFrame f ∧ f ∉ F
  isFrame h := h.1
  write h _ _ := h

/-- The stack does not read memory. -/
theorem stack_physical : stack.Physical := fun h _ _ => h

/-- The pages of a stack are fresh. -/
theorem popFree_allocator : stack.Allocator popFree where
  fail {s F} h h0 := by
    obtain ⟨mem, pages⟩ := s
    cases pages with
    | nil => exact h
    | cons a l => exact absurd h0 (h.2.2 a List.mem_cons_self).1.ne_zero
  fresh {s F} h h0 := by
    obtain ⟨mem, pages⟩ := s
    cases pages with
    | nil => exact absurd rfl h0
    | cons a l => exact (h.2.2 a List.mem_cons_self).2
  owns {s F} h h0 := by
    obtain ⟨mem, pages⟩ := s
    cases pages with
    | nil => exact absurd rfl h0
    | cons a l =>
        obtain ⟨hF, hnodup, hpages⟩ := h
        obtain ⟨ha, hl⟩ := List.nodup_cons.mp hnodup
        refine ⟨?_, hl, fun f hf => ⟨(hpages f (List.mem_cons_of_mem a hf)).1, ?_⟩⟩
        · rintro f (rfl | hf)
          · exact (hpages f List.mem_cons_self).1
          · exact hF f hf
        · rintro (rfl | hcon)
          · exact ha hf
          · exact (hpages f (List.mem_cons_of_mem a hf)).2 hcon
  mem {s F} h f hf x hx := by
    obtain ⟨mem, pages⟩ := s
    cases pages with
    | nil => rfl
    | cons a l => rfl

/-- What is put back is free again. -/
theorem pushFree_freer : stack.Freer pushFree where
  owns {s F} h a ha := by
    obtain ⟨hF, hnodup, hpages⟩ := h
    have hnot : a ∉ s.pages := fun hin => (hpages a hin).2 ha
    refine ⟨fun f hf => hF f hf.1, List.nodup_cons.mpr ⟨hnot, hnodup⟩, fun f hf => ?_⟩
    rcases List.mem_cons.mp hf with rfl | hf
    · exact ⟨hF f ha, fun hin => hin.2 rfl⟩
    · exact ⟨(hpages f hf).1, fun hin => (hpages f hf).2 hin.1⟩
  mem _ _ _ _ _ _ _ _ := rfl

end PrometheusKernel
