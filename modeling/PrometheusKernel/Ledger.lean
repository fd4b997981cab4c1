import PrometheusKernel.Ownership

/-!
# A record of what is taken and given back

A `Ledger` is the state of a page allocator with two lists beside it: the frames that were handed out, the
latest first, and the frames that came back, each with its order. `Ledger.alloc` and `Ledger.free` do what an
allocation function and a release do and write it down; the lists are never read.

`Ownership.recorded` is the discipline of a client that holds exactly the frames `G` that it had and those that
the ledger says it has taken. The recorded allocation function follows it, so what is proved of a client for
every discipline says of this one where each frame that was taken is.
-/

namespace PrometheusKernel

open ByteMem

variable {A : Type}

/-- An allocator with a record of its calls. -/
structure Ledger (A : Type) where
  pages : A
  /-- The frames that were handed out. -/
  taken : List ℕ
  /-- The frames that came back, with their orders. -/
  freed : List (ℕ × ℕ)

namespace Ledger

/-- The machine without the record. -/
def plain (s : Machine (Ledger A)) : Machine A := ⟨s.mem, s.pages.pages⟩

/-- The machine with an empty record. -/
def start (s : Machine A) : Machine (Ledger A) := ⟨s.mem, ⟨s.pages, [], []⟩⟩

/-- An allocation, recorded. -/
def alloc (f : Machine A → ℕ × Machine A) (s : Machine (Ledger A)) : ℕ × Machine (Ledger A) :=
  let res := f (plain s)
  (res.1, ⟨res.2.mem, { s.pages with
    pages := res.2.pages, taken := if res.1 = 0 then s.pages.taken else res.1 :: s.pages.taken }⟩)

/-- The release of a frame of some order, recorded. -/
def free (f : ℕ → ℕ → Machine A → Machine A) (frame order : ℕ) (s : Machine (Ledger A)) : Machine (Ledger A) :=
  let m := f frame order (plain s)
  ⟨m.mem, { s.pages with pages := m.pages, freed := (frame, order) :: s.pages.freed }⟩

/-- A call that is not recorded. -/
def act (f : Machine A → Machine A) (s : Machine (Ledger A)) : Machine (Ledger A) :=
  let m := f (plain s)
  ⟨m.mem, { s.pages with pages := m.pages }⟩

/-- The ledger is beside the machine. -/
@[simp] theorem plain_start (s : Machine A) : plain (start s) = s := rfl

/-- An allocation below the ledger. -/
@[simp] theorem plain_alloc (f : Machine A → ℕ × Machine A) (s : Machine (Ledger A)) :
    plain (alloc f s).2 = (f (plain s)).2 := rfl

/-- A release below the ledger. -/
@[simp] theorem plain_free (f : ℕ → ℕ → Machine A → Machine A) (frame order : ℕ) (s : Machine (Ledger A)) :
    plain (free f frame order s) = f frame order (plain s) := rfl

/-- The record of frames given back one after the other. -/
theorem freed_foldl_free (f : ℕ → ℕ → Machine A → Machine A) (order : ℕ) (l : List ℕ) (s : Machine (Ledger A)) :
    (l.foldl (fun m a => free f a order m) s).pages.freed
      = (l.map fun a => (a, order)).reverse ++ s.pages.freed := by
  induction l generalizing s with
  | nil => rfl
  | cons a l ih =>
      rw [List.foldl_cons, ih, List.map_cons, List.reverse_cons, List.append_assoc]
      rfl

end Ledger

open Ledger

/-- The client holds `G` and what it has taken. -/
def Ownership.recorded (P : Ownership A) (G : Set ℕ) : Ownership (Ledger A) where
  Owns s F := P.Owns (plain s) F ∧ F = { f | f ∈ G ∨ f ∈ s.pages.taken } ∧ s.pages.taken.Nodup ∧
    ∀ f ∈ s.pages.taken, f ∉ G
  isFrame h := P.isFrame h.1
  write h w hw := ⟨P.write h.1 w hw, h.2⟩

variable {P : Ownership A} {G : Set ℕ}

/-- At the start of a ledger its client owns what it had. -/
theorem Ownership.owns_start {s : Machine A} (h : P.Owns s G) : (P.recorded G).Owns (start s) G := by
  refine ⟨h, ?_, List.nodup_nil, fun f hf => absurd hf List.not_mem_nil⟩
  ext f
  simp only [start, List.not_mem_nil, or_false, Set.mem_ofPred_eq]

/-- The recorded allocation function follows the discipline. -/
theorem Ownership.Allocator.recorded {f : Machine A → ℕ × Machine A} (h : P.Allocator f) :
    (P.recorded G).Allocator (Ledger.alloc f) where
  fail := by
    intro s F hs h0
    obtain ⟨howns, hF, hnodup, hnot⟩ := hs
    have h0' : (f (plain s)).1 = 0 := h0
    have htaken : (Ledger.alloc f s).2.pages.taken = s.pages.taken := if_pos h0'
    refine ⟨h.fail howns h0', ?_, ?_, ?_⟩
    all_goals rw [htaken]
    · exact hF
    · exact hnodup
    · exact hnot
  fresh hs hne := h.fresh hs.1 hne
  owns := by
    intro s F hs hne
    obtain ⟨howns, hF, hnodup, hnot⟩ := hs
    have hne' : (f (plain s)).1 ≠ 0 := hne
    have htaken : (Ledger.alloc f s).2.pages.taken = (f (plain s)).1 :: s.pages.taken := if_neg hne'
    have hfresh : (f (plain s)).1 ∉ { f | f ∈ G ∨ f ∈ s.pages.taken } := hF ▸ h.fresh howns hne'
    refine ⟨h.owns howns hne', ?_, ?_, ?_⟩
    all_goals rw [htaken]
    · ext a
      rw [hF]
      show (a = (f (plain s)).1 ∨ a ∈ G ∨ a ∈ s.pages.taken) ↔ (a ∈ G ∨ a ∈ (f (plain s)).1 :: s.pages.taken)
      rw [List.mem_cons]
      exact or_left_comm
    · exact List.nodup_cons.mpr ⟨fun hin => hfresh (Or.inr hin), hnodup⟩
    · intro a ha
      rcases List.mem_cons.mp ha with rfl | ha
      · exact fun hin => hfresh (Or.inl hin)
      · exact hnot a ha
  mem hs a ha x hx := h.mem hs.1 a ha x hx

/-- A ledger does not read memory. -/
theorem Ownership.Physical.recorded (h : P.Physical) : (P.recorded G).Physical :=
  fun hs w hw => ⟨h hs.1 w hw, hs.2⟩

/-- The discipline of the allocator below the record. -/
def Ownership.ledger (P : Ownership A) : Ownership (Ledger A) where
  Owns s F := P.Owns (plain s) F
  isFrame h := P.isFrame h
  write h w hw := P.write h w hw

/-- An allocator with a ledger follows the discipline of the allocator. -/
theorem Ownership.Allocator.ledger {f : Machine A → ℕ × Machine A} (h : P.Allocator f) :
    P.ledger.Allocator (Ledger.alloc f) where
  fail hs h0 := h.fail hs h0
  fresh hs hne := h.fresh hs hne
  owns hs hne := h.owns hs hne
  mem hs a ha x hx := h.mem hs a ha x hx

/-- A ledger does not read memory. -/
theorem Ownership.Physical.ledger (h : P.Physical) : P.ledger.Physical := fun hs w hw => h hs w hw

/-- A release with a ledger follows the discipline of the release. -/
theorem Ownership.Freer.ledger {f : ℕ → ℕ → Machine A → Machine A} {order : ℕ} (h : P.Freer fun a => f a order) :
    P.ledger.Freer fun a => Ledger.free f a order where
  owns hs a ha := h.owns hs a ha
  mem hs a ha u hu hne x hx := h.mem hs a ha u hu hne x hx

end PrometheusKernel
