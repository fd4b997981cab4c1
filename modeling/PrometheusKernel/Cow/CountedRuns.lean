import PrometheusKernel.Cow.RefCounts
import PrometheusKernel.Ledger
import PrometheusKernel.Lib.Interleaving

/-!
# Runs that count references

A run calls the functions of `cow.c` that read or change counts, in any order and with any arguments, on a
set of address spaces; in between the callers take pages from the allocator. A `Config` has the machine, with
a record of what has been given back, and the history that conditions and results speak of: the pages that
the callers hold, how often each frame was counted with success and how often `cow_decrement_ref` was called
for it.

`Sound` is what all runs keep as long as callers give up only pages that they hold: the reference table is a
map from frames to counts beside page tables and data. There is one lemma for each call.
-/

namespace PrometheusKernel.Cow.CountedRuns

open ByteMem LinkedList Vmm Interleaving

/-! ### Runs -/

/-- The calls. -/
inductive Op
  /-- A caller takes a page: `buddy_alloc_pages(0, ..)`. -/
  | acquire
  /-- `cow_mark_page(pml4, virt)`. -/
  | mark (pml4 virt : ℕ)
  /-- `cow_handle_fault(pml4, virt)`. -/
  | fault (pml4 virt : ℕ)
  /-- `cow_get_ref(phys_addr)`. -/
  | getRef (physAddr : ℕ)
  /-- `cow_increment_ref(phys_addr)`. -/
  | increment (physAddr : ℕ)
  /-- `cow_decrement_ref(phys_addr)`. -/
  | decrement (physAddr : ℕ)

/-- The machine and the history. -/
structure Config (A : Type) where
  /-- The machine. -/
  state : State (Ledger A)
  /-- The pages that the callers hold. -/
  held : List ℕ
  /-- How often `cow_mark_page` and `cow_increment_ref` have counted each frame. -/
  counted : ℕ → ℕ
  /-- How often `cow_decrement_ref` was called for each frame. -/
  decrements : ℕ → ℕ

/-- The frame that the page table entry for `virt` names: `*pte & 0x000FFFFFFFFFF000`. -/
def frameAt (m : Mem) (pml4 virt : ℕ) : ℕ := load 8 m (cowGetPte m pml4 virt) &&& frameMask

/-- One more for the frame `f`. -/
def bump (n : ℕ → ℕ) (f : ℕ) : ℕ → ℕ := Function.update n f (n f + 1)

section steps

variable {A : Type} (alloc : Machine A → ℕ × Machine A) (free : ℕ → ℕ → Machine A → Machine A)

/-- One call; `none` is a call that does not return. -/
def step (c : Config A) : Op → Option (Config A)
  | .acquire =>
      let res := Ledger.alloc alloc c.state.toMachine
      some { c with state := { c.state with toMachine := res.2 }
                    held := if res.1 = 0 then c.held else res.1 :: c.held }
  | .mark pml4 virt =>
      (cowMarkPage (Ledger.alloc alloc) c.state pml4 virt).map fun res : ℤ × State (Ledger A) =>
        { c with state := res.2
                 counted := if res.1 = 0 then bump c.counted (frameAt c.state.mem pml4 virt) else c.counted }
  | .fault pml4 virt =>
      (cowHandleFault (Ledger.alloc alloc) c.state pml4 virt).map fun res =>
        { c with state := res.2
                 held := if frameAt res.2.mem pml4 virt = frameAt c.state.mem pml4 virt then c.held
                   else frameAt res.2.mem pml4 virt :: c.held }
  | .getRef physAddr =>
      (cowGetRef (Ledger.alloc alloc) c.state physAddr).map fun res => { c with state := res.2 }
  | .increment physAddr =>
      (cowIncrementRef (Ledger.alloc alloc) c.state physAddr).map fun s =>
        { c with state := s
                 counted := if (cowGetRef (Ledger.alloc alloc) c.state physAddr).map Prod.fst = some 0 then c.counted
                   else bump c.counted (frameOf physAddr) }
  | .decrement physAddr =>
      (cowDecrementRef (Ledger.free free) c.state physAddr).map fun s =>
        { c with state := s
                 held := if cowGetRefCount c.state physAddr = some 1 then c.held.filter (· ≠ frameOf physAddr)
                   else c.held
                 decrements := bump c.decrements (frameOf physAddr) }

/-- A run starts after `cow_init`, with the pages `held` in the hands of the callers. -/
def start (s : Machine A) (held : List ℕ) : Config A := ⟨cowInit (Ledger.start s), held, fun _ => 0, fun _ => 0⟩

end steps

/-- Calls on the address spaces `roots`, and a caller gives up the last reference to pages that callers hold
only. -/
def Allowed {A : Type} (roots : Set ℕ) (c : Config A) : Op → Prop
  | .mark pml4 _ => pml4 ∈ roots
  | .fault pml4 _ => pml4 ∈ roots
  | .decrement physAddr => cowGetRefCount c.state physAddr = some 1 → frameOf physAddr ∈ c.held
  | _ => True

/-! ### What the calls do -/

section sound

variable {A : Type} {P : Ownership A} {alloc : Machine A → ℕ × Machine A} {free : ℕ → ℕ → Machine A → Machine A}
  {roots : Set ℕ} {c : Config A} {g : Ghost}

/-- Tables, reference entries and the pages of the callers are apart, and the table is a map. -/
structure Sound (P : Ownership A) (roots : Set ℕ) (c : Config A) (g : Ghost) : Prop where
  footing : Footing P.ledger c.state roots g
  held : ∀ f ∈ c.held, f ∈ g.D

/-- The ledger is right at the start. -/
theorem sound_start {s : Machine A} {F T : Set ℕ} {held : List ℕ} (howns : P.Owns s F) (htables : Tables s.mem roots T)
    (hT : T ⊆ F) (hheld : ∀ f ∈ held, f ∈ F ∧ f ∉ T) :
    Sound P roots (start s held) ⟨F, T, ∅, {f | f ∈ held}, fun _ => [], fun _ => 0⟩ :=
  ⟨⟨howns, htables, refs_init s.mem, hT, Set.empty_subset _, fun f hf => (hheld f hf).1,
    fun _ _ hr => absurd hr (Set.notMem_empty _), fun f hf => (hheld f hf).2,
    fun _ _ hr => absurd hr (Set.notMem_empty _)⟩, fun _ hf => hf⟩

/-- The entry behind a mapping names its frame. -/
theorem frameAt_eq {s : State (Ledger A)} (h : Footing P.ledger s roots g) {r v f fl : ℕ} (hr : r ∈ roots)
    (ht : translate s.mem r v = some (f, fl)) : frameAt s.mem r v = f := by
  obtain ⟨pt, -, hpte, -, hdec⟩ := h.pte hr ht
  unfold frameAt
  rw [hpte]
  exact (decode_eq_some hdec).2.1

/-- `cow_get_ref` gives nothing back. -/
theorem freed_getRef {s s' : State (Ledger A)} {physAddr ref : ℕ}
    (h : cowGetRef (Ledger.alloc alloc) s physAddr = some (ref, s')) : s'.pages.freed = s.pages.freed := by
  unfold cowGetRef at h
  dsimp only at h
  split at h
  · exact absurd h nofun
  · obtain rfl := (Prod.mk.inj (Option.some.inj h)).2
    rfl
  · split_ifs at h
    · obtain rfl := (Prod.mk.inj (Option.some.inj h)).2
      rfl
    · obtain rfl := (Prod.mk.inj (Option.some.inj h)).2
      rfl

/-- An increment gives no frame back. -/
theorem freed_incrementRef {s s' : State (Ledger A)} {physAddr : ℕ}
    (h : cowIncrementRef (Ledger.alloc alloc) s physAddr = some s') : s'.pages.freed = s.pages.freed := by
  unfold cowIncrementRef at h
  split at h
  · exact absurd h nofun
  · rename_i hget
    rw [← Option.some.inj h]
    exact freed_getRef hget
  · rename_i hget
    have hfreed := freed_getRef hget
    rw [← Option.some.inj h]
    exact hfreed

/-- Taking a frame keeps the ledger right. -/
theorem Sound.acquire (h : Sound P roots c g) (halloc : P.Allocator alloc) :
    ∃ c' g', step alloc free c .acquire = some c' ∧ Sound P roots c' g' ∧ g'.cnt = g.cnt ∧
      c'.counted = c.counted ∧ c'.decrements = c.decrements ∧ c'.state.pages.freed = c.state.pages.freed := by
  by_cases h0 : (Ledger.alloc alloc c.state.toMachine).1 = 0
  · refine ⟨{ c with state := { c.state with toMachine := (Ledger.alloc alloc c.state.toMachine).2 } }, g, ?_,
      ⟨(h.footing.allocFail halloc.ledger h0).footing, h.held⟩, rfl, rfl, rfl, rfl⟩
    rw [step]
    simp only [if_pos h0]
  · obtain ⟨-, -, hfoot, -⟩ := h.footing.allocData halloc.ledger h0
    refine ⟨{ c with state := { c.state with toMachine := (Ledger.alloc alloc c.state.toMachine).2 }
                     held := (Ledger.alloc alloc c.state.toMachine).1 :: c.held }, _, ?_, ⟨hfoot, fun f hf => ?_⟩,
      rfl, rfl, rfl, rfl⟩
    · rw [step]
      simp only [if_neg h0]
    rcases List.mem_cons.mp hf with rfl | hf
    · exact Set.mem_insert _ _
    · exact Set.mem_insert_of_mem _ (h.held f hf)

/-- `cow_get_ref` changes no count. -/
theorem Sound.getRef (h : Sound P roots c g) (halloc : P.Allocator alloc) (physAddr : ℕ) :
    ∃ c' g', step alloc free c (.getRef physAddr) = some c' ∧ Sound P roots c' g' ∧ g'.cnt = g.cnt ∧
      c'.counted = c.counted := by
  obtain ⟨ref, s', g', hcall, hfound⟩ := h.footing.getRef halloc.ledger physAddr
  refine ⟨{ c with state := s' }, g', ?_, ⟨hfound.kept.footing, fun f hf => ?_⟩, hfound.cnt_eq, rfl⟩
  · rw [step, hcall, Option.map_some]
  · rw [hfound.kept.D_eq]
    exact h.held f hf

/-- `cow_increment_ref`: no page for the entry, or one more. -/
theorem Sound.increment (h : Sound P roots c g) (halloc : P.Allocator alloc) (physAddr : ℕ) :
    ∃ c' g', step alloc free c (.increment physAddr) = some c' ∧ Sound P roots c' g' ∧
      c'.decrements = c.decrements ∧ c'.held = c.held ∧ c'.state.pages.freed = c.state.pages.freed ∧
      ((∃ s', cowGetRef (Ledger.alloc alloc) c.state physAddr = some (0, s')) ∧ g'.cnt = g.cnt ∧
          c'.counted = c.counted ∨
        g'.cnt = Function.update g.cnt (frameOf physAddr) (Word.add 32 (g.cnt (frameOf physAddr)) 1) ∧
          c'.counted = bump c.counted (frameOf physAddr)) := by
  rcases h.footing.incrementRef halloc.ledger physAddr with
    ⟨s', g', hget, hcall, hfound⟩ | ⟨ref, s₁, s', g', h0, hget, hcall, hkept, hcounted⟩
  · refine ⟨{ c with state := s' }, g', ?_, ⟨hfound.kept.footing, fun f hf => ?_⟩, rfl, rfl, freed_incrementRef hcall,
      Or.inl ⟨⟨s', hget⟩, hfound.cnt_eq, rfl⟩⟩
    · rw [step, hcall, Option.map_some, hget, Option.map_some, if_pos rfl]
    · rw [hfound.kept.D_eq]
      exact h.held f hf
  · refine ⟨{ c with state := s', counted := bump c.counted (frameOf physAddr) }, g', ?_,
      ⟨hkept.footing, fun f hf => ?_⟩, rfl, rfl, freed_incrementRef hcall, Or.inr ⟨hcounted.cnt_eq, rfl⟩⟩
    · rw [step, hcall, Option.map_some, hget, Option.map_some, if_neg fun heq => h0 (Option.some.inj heq)]
    · rw [hkept.D_eq]
      exact h.held f hf

/-- `cow_decrement_ref`: no entry, one less, or the frame and the page of its entry are given back. -/
theorem Sound.decrement (h : Sound P roots c g) (hfree : P.Freer fun f => free f 0) {physAddr : ℕ}
    (hallowed : Allowed roots c (.decrement physAddr)) :
    ∃ c' g', step alloc free c (.decrement physAddr) = some c' ∧ Sound P roots c' g' ∧ c'.counted = c.counted ∧
      c'.decrements = bump c.decrements (frameOf physAddr) ∧
      (¬ g.HasEntry c.state.mem (frameOf physAddr) ∧ g'.cnt = g.cnt ∧
          c'.state.pages.freed = c.state.pages.freed ∨
        g.HasEntry c.state.mem (frameOf physAddr) ∧ g.cnt (frameOf physAddr) ≠ 1 ∧
          g'.cnt = Function.update g.cnt (frameOf physAddr) (Word.sub 32 (g.cnt (frameOf physAddr)) 1) ∧
          c'.state.pages.freed = c.state.pages.freed ∨
        g.cnt (frameOf physAddr) = 1 ∧ g'.cnt = Function.update g.cnt (frameOf physAddr) 0 ∧
          ∃ ref, ref ≠ 0 ∧ findRef c.state (frameOf physAddr) = some ref ∧
            c'.state.pages.freed = (ref, 0) :: (frameOf physAddr, 0) :: c.state.pages.freed) := by
  have hcount : cowGetRefCount c.state physAddr = some (g.cnt (frameOf physAddr)) := h.footing.getRefCount physAddr
  have hheld : g.cnt (frameOf physAddr) = 1 → frameOf physAddr ∈ g.D := fun h1 =>
    h.held _ (hallowed (by rw [hcount, h1]))
  rcases h.footing.decrementRef hfree.ledger physAddr hheld with
    ⟨hentry, hcall⟩ | ⟨s', g', hentry, hcall, ⟨h1, hpages, hkept, hcounted⟩ | ⟨h1, hreleased⟩⟩
  · have hne : cowGetRefCount c.state physAddr ≠ some 1 := by
      rw [hcount, h.footing.cnt_of_no_entry hentry]
      decide
    refine ⟨{ c with decrements := bump c.decrements (frameOf physAddr) }, g, ?_, ⟨h.footing, h.held⟩, rfl, rfl,
      Or.inl ⟨hentry, rfl, rfl⟩⟩
    rw [step, hcall, Option.map_some, if_neg hne]
  · have hne : cowGetRefCount c.state physAddr ≠ some 1 := by
      rw [hcount]
      exact fun heq => h1 (Option.some.inj heq)
    refine ⟨{ c with state := s', decrements := bump c.decrements (frameOf physAddr) }, g', ?_,
      ⟨hkept.footing, fun f hf => ?_⟩, rfl, rfl, Or.inr (Or.inl ⟨hentry, h1, hcounted.cnt_eq, ?_⟩)⟩
    · rw [step, hcall, Option.map_some, if_neg hne]
    · rw [hkept.D_eq]
      exact h.held f hf
    · rw [hpages]
  · have heq : cowGetRefCount c.state physAddr = some 1 := by rw [hcount, h1]
    obtain ⟨ref, m, h0, hfind, hm, hs'⟩ := hreleased.frees
    refine ⟨{ c with state := s'
                     held := c.held.filter (· ≠ frameOf physAddr)
                     decrements := bump c.decrements (frameOf physAddr) }, g', ?_,
      ⟨hreleased.footing, fun f hf => ?_⟩, rfl, rfl, Or.inr (Or.inr ⟨h1, hreleased.cnt_eq, ref, h0, hfind, ?_⟩)⟩
    · rw [step, hcall, Option.map_some, if_pos heq]
    · rw [hreleased.D_eq]
      obtain ⟨hmem, hne⟩ := List.mem_filter.mp hf
      exact ⟨h.held f hmem, of_decide_eq_true hne⟩
    · have hfreed : s'.pages.freed = (ref, 0) :: (frameOf physAddr, 0) :: m.pages.freed :=
        congrArg (fun x : Machine (Ledger A) => x.pages.freed) hs'
      rw [hfreed, hm]

/-- `cow_mark_page`: nothing changes, or one more for the frame of the mapping. -/
theorem Sound.mark (h : Sound P roots c g) (halloc : P.Allocator alloc) {pml4 : ℕ} (hr : pml4 ∈ roots) (virt : ℕ) :
    ∃ c' g', step alloc free c (.mark pml4 virt) = some c' ∧ Sound P roots c' g' ∧
      (g'.cnt = g.cnt ∧ c'.counted = c.counted ∨
        ∃ f, g'.cnt = Function.update g.cnt f (Word.add 32 (g.cnt f) 1) ∧ c'.counted = bump c.counted f) := by
  rcases cowMarkPage_spec h.footing halloc.ledger hr virt with
    ⟨s', g', hcall, hun, -⟩ | ⟨f, fl, s', g', fl', ht, hcall, -, hremap, hD, hcounted⟩
  · refine ⟨{ c with state := s' }, g', ?_, ⟨hun.footing, fun f hf => hun.D_subset (h.held f hf)⟩,
      Or.inl ⟨hun.cnt_eq, rfl⟩⟩
    rw [step, hcall, Option.map_some]
    rfl
  · refine ⟨{ c with state := s', counted := bump c.counted f }, g', ?_, ⟨hremap.footing, fun f hf => ?_⟩,
      Or.inr ⟨f, hcounted.cnt_eq, rfl⟩⟩
    · rw [step, hcall, Option.map_some, if_pos rfl, frameAt_eq h.footing hr ht]
    · rw [hD]
      exact h.held f hf

/-- `cow_handle_fault`: nothing changes, or one less for the frame of a copy-on-write mapping. -/
theorem Sound.fault (h : Sound P roots c g) (halloc : P.Allocator alloc) {pml4 : ℕ} (hr : pml4 ∈ roots) (virt : ℕ) :
    ∃ c' g', step alloc free c (.fault pml4 virt) = some c' ∧ Sound P roots c' g' ∧ c'.counted = c.counted ∧
      (g'.cnt = g.cnt ∨ ∃ f fl, translate c.state.mem pml4 virt = some (f, fl) ∧ isCow fl = true ∧
        g'.cnt = Function.update g.cnt f (Word.sub 32 (g.cnt f) 1)) := by
  cases ht : translate c.state.mem pml4 virt with
  | none =>
      refine ⟨c, g, ?_, h, rfl, Or.inl rfl⟩
      rw [step, cowHandleFault_of_unmapped h.footing hr ht, Option.map_some, if_pos rfl]
  | some e =>
      obtain ⟨f, fl⟩ := e
      have hframe : frameAt c.state.mem pml4 virt = f := frameAt_eq h.footing hr ht
      have hspec := cowHandleFault_spec h.footing halloc.ledger hr ht
      generalize hcall : cowHandleFault (Ledger.alloc alloc) c.state pml4 virt = out at hspec
      cases hspec with
      | fails s' g' hun _ =>
          have hsame : frameAt s'.mem pml4 virt = frameAt c.state.mem pml4 virt :=
            (frameAt_eq hun.footing hr ((hun.translate_eq pml4 hr virt).trans ht)).trans hframe.symm
          refine ⟨{ c with state := s' }, g', ?_, ⟨hun.footing, fun f hf => hun.D_subset (h.held f hf)⟩, rfl,
            Or.inl hun.cnt_eq⟩
          rw [step, hcall, Option.map_some, if_pos hsame]
      | upgrades s' g' fl' hcow h1 _ hremap hD hcounted =>
          have hsame : frameAt s'.mem pml4 virt = frameAt c.state.mem pml4 virt :=
            (frameAt_eq hremap.footing hr ((hremap.translate_eq pml4 hr virt).trans (if_pos ⟨rfl, rfl⟩))).trans
              hframe.symm
          refine ⟨{ c with state := s' }, g', ?_, ⟨hremap.footing, fun f hf => ?_⟩, rfl,
            Or.inr ⟨f, fl, rfl, hcow, ?_⟩⟩
          · rw [step, hcall, Option.map_some, if_pos hsame]
          · rw [hD]
            exact h.held f hf
          · rw [hcounted.cnt_eq, h1]
            rfl
      | copies s' g' f' fl' hcow h1 _ hremap _ hD hcounted _ =>
          have hnew : frameAt s'.mem pml4 virt = f' :=
            frameAt_eq hremap.footing hr ((hremap.translate_eq pml4 hr virt).trans (if_pos ⟨rfl, rfl⟩))
          have hheld : ∀ u ∈ c.held, u ∈ g'.D := fun u hu => hD ▸ Set.mem_insert_of_mem _ (h.held u hu)
          refine ⟨{ c with state := s'
                           held := if frameAt s'.mem pml4 virt = frameAt c.state.mem pml4 virt then c.held
                             else frameAt s'.mem pml4 virt :: c.held }, g', ?_, ⟨hremap.footing, fun u hu => ?_⟩, rfl,
            Or.inr ⟨f, fl, rfl, hcow, hcounted.cnt_eq⟩⟩
          · rw [step, hcall, Option.map_some]
          · dsimp only at hu
            split_ifs at hu
            · exact hheld u hu
            · rcases List.mem_cons.mp hu with rfl | hu
              · rw [hnew, hD]
                exact Set.mem_insert _ _
              · exact hheld u hu

end sound

end PrometheusKernel.Cow.CountedRuns
