import PrometheusKernel.Ownership

/-!
# A record of the frames that have come back

`FreeRecord.alloc` and `FreeRecord.free` do what an allocation function and a release do, and keep beside the
allocator a list of the frames that were given back and not handed out again. Nothing reads the list.

`Ownership.freeRecord` is the discipline of clients that hold none of these frames. What follows a discipline
follows it with the record too.
-/

namespace PrometheusKernel

open ByteMem

variable {A : Type}

/-- An allocator with a record of the frames that came back. -/
structure FreeRecord (A : Type) where
  pages : A
  /-- Given back, and not handed out since. -/
  freed : List ℕ

namespace FreeRecord

/-- The machine without the record. -/
def plain (s : Machine (FreeRecord A)) : Machine A := ⟨s.mem, s.pages.pages⟩

/-- The machine with an empty record. -/
def start (s : Machine A) : Machine (FreeRecord A) := ⟨s.mem, ⟨s.pages, []⟩⟩

/-- An allocation. -/
def alloc (f : Machine A → ℕ × Machine A) (s : Machine (FreeRecord A)) : ℕ × Machine (FreeRecord A) :=
  let res := f (plain s)
  (res.1, ⟨res.2.mem, res.2.pages, if res.1 = 0 then s.pages.freed else s.pages.freed.filter (· ≠ res.1)⟩)

/-- A release. -/
def free (f : ℕ → Machine A → Machine A) (frame : ℕ) (s : Machine (FreeRecord A)) : Machine (FreeRecord A) :=
  let m := f frame (plain s)
  ⟨m.mem, m.pages, frame :: s.pages.freed⟩

end FreeRecord

open FreeRecord

/-- None of the frames of the record is held. -/
def Ownership.freeRecord (P : Ownership A) : Ownership (FreeRecord A) where
  Owns s F := P.Owns (plain s) F ∧ ∀ f ∈ s.pages.freed, f ∉ F
  isFrame h := P.isFrame h.1
  write h w hw := ⟨P.write h.1 w hw, h.2⟩

variable {P : Ownership A}

/-- A frame that is handed out is not in the record any more. -/
theorem FreeRecord.freed_alloc {f : Machine A → ℕ × Machine A} {s : Machine (FreeRecord A)} {a : ℕ}
    (ha : a ∈ (FreeRecord.alloc f s).2.pages.freed) :
    a ∈ s.pages.freed ∧ ((f (plain s)).1 ≠ 0 → a ≠ (f (plain s)).1) := by
  change a ∈ (if (f (plain s)).1 = 0 then s.pages.freed else s.pages.freed.filter (· ≠ (f (plain s)).1)) at ha
  by_cases h0 : (f (plain s)).1 = 0
  · rw [if_pos h0] at ha
    exact ⟨ha, fun hne => absurd h0 hne⟩
  · rw [if_neg h0, List.mem_filter] at ha
    exact ⟨ha.1, fun _ => of_decide_eq_true ha.2⟩

/-- An allocator with a record follows the discipline of the allocator. -/
theorem Ownership.Allocator.freeRecord {f : Machine A → ℕ × Machine A} (h : P.Allocator f) :
    P.freeRecord.Allocator (FreeRecord.alloc f) where
  fail hs h0 := ⟨h.fail hs.1 h0, fun a ha => hs.2 a (freed_alloc ha).1⟩
  fresh hs hne := h.fresh hs.1 hne
  owns := by
    intro s F hs hne
    refine ⟨h.owns hs.1 hne, fun a ha => ?_⟩
    obtain ⟨hold, hnew⟩ := freed_alloc ha
    rintro (rfl | hF)
    · exact hnew hne rfl
    · exact hs.2 a hold hF
  mem hs a ha x hx := h.mem hs.1 a ha x hx

/-- A release with a record follows the discipline of the release. -/
theorem Ownership.Freer.freeRecord {f : ℕ → Machine A → Machine A} (h : P.Freer f) :
    P.freeRecord.Freer (FreeRecord.free f) where
  owns := by
    intro s F hs a ha
    refine ⟨h.owns hs.1 a ha, fun b hb => ?_⟩
    rcases List.mem_cons.mp hb with rfl | hb
    · exact fun hcon => hcon.2 rfl
    · exact fun hcon => hs.2 b hb hcon.1
  mem hs a ha u hu hne x hx := h.mem hs.1 a ha u hu hne x hx

/-- A record does not read memory. -/
theorem Ownership.Physical.freeRecord (h : P.Physical) : P.freeRecord.Physical :=
  fun hs w hw => ⟨h hs.1 w hw, hs.2⟩

end PrometheusKernel
