import PrometheusKernel.Cow.Model
import PrometheusKernel.Lib.Interleaving

/-!
# Concurrent references to one frame

`cow_increment_ref` looks the entry of the frame up under `cow_global_lock` (`cow_get_ref`, which makes one if
there is none), drops the lock, and increments the count under `ref->lock`. `cow_decrement_ref` finds the entry,
decrements and, at 0, unlinks it, all under `cow_global_lock`; it frees the frame and the entry after that. Each
section under a lock, and each call of `buddy_free_pages`, is an atomic step of one CPU here, and the CPUs take
their steps in any order. The table is a map by `Cow.Refs`, so `linked` is the one entry of the frame.

A decrement that unlinks the entry does not see the increments that have looked it up (`reference_lost`). In runs
without such decrements, and without an increment that begins while the frame is about to be freed, the frame goes
with its last reference (`refs_sound_of_orderly`).
-/

namespace PrometheusKernel.Cow.ConcurrentRefs

open Interleaving

/-! ### The steps -/

/-- Where a CPU is in `cow_increment_ref` or `cow_decrement_ref`, with its local variables. -/
inductive Phase
  | idle
  /-- An increment has looked `ref` up. -/
  | found (ref : ℕ)
  /-- A decrement, the one with this number, has unlinked `ref`: the frame is to be freed. -/
  | unlinked (ref number : ℕ)
  /-- The entry is to be freed. -/
  | freed (ref : ℕ)
deriving DecidableEq

/-- The entry of the frame, the CPUs, and what has happened so far. -/
structure Config (n : ℕ) where
  /-- The entry in the reference table, or null. -/
  linked : ℕ
  /-- `ref->ref_count`, by the address of the entry. -/
  refCount : ℕ → ℕ
  /-- The pages that are allocated for entries. -/
  entries : List ℕ
  /-- The CPUs. -/
  cpu : Fin n → Phase
  /-- The increments that have begun. -/
  begun : ℕ
  /-- The increments that have returned. -/
  increments : ℕ
  /-- The decrements that have had the lock. -/
  decrements : ℕ
  /-- For each time the frame was freed, the number of the decrement and the increments that had begun. -/
  frees : List (ℕ × ℕ)
  /-- The increments of entries that were not allocated any more. -/
  stale : ℕ

/-- An atomic step. -/
inductive Action (n : ℕ)
  /-- A CPU enters `cow_increment_ref` and calls `cow_get_ref`; `reply` is what `buddy_alloc_pages` returns if it
  is called. -/
  | increment (i : Fin n) (reply : ℕ)
  /-- A CPU enters `cow_decrement_ref` and has the lock. -/
  | decrement (i : Fin n)
  /-- A CPU takes its next step. -/
  | advance (i : Fin n)

variable {n : ℕ}

/-- `cow_get_ref` in `cow_increment_ref`. -/
def increment (c : Config n) (i : Fin n) (reply : ℕ) : Option (Config n) :=
  let c := { c with begun := c.begun + 1 }
  if c.linked ≠ 0 then some { c with cpu := Function.update c.cpu i (.found c.linked) }
  else if reply = 0 then some { c with increments := c.increments + 1 }
  else if reply ∉ c.entries then
    some { c with linked := reply
                  refCount := Function.update c.refCount reply 0
                  entries := reply :: c.entries
                  cpu := Function.update c.cpu i (.found reply) }
  else none

/-- The section of `cow_decrement_ref` under `cow_global_lock`. -/
def decrement (c : Config n) (i : Fin n) : Config n :=
  let c := { c with decrements := c.decrements + 1 }
  if c.linked = 0 then c
  else
    let count := Word.sub 32 (c.refCount c.linked) 1
    let ref := c.linked
    let c := { c with refCount := Function.update c.refCount ref count }
    if count = 0 then { c with linked := 0, cpu := Function.update c.cpu i (.unlinked ref c.decrements) }
    else c

/-- The next step of a CPU. -/
def advance (c : Config n) (i : Fin n) : Option (Config n) :=
  match c.cpu i with
  | .idle => none
  | .found ref =>
      some { c with refCount := Function.update c.refCount ref (Word.add 32 (c.refCount ref) 1)
                    increments := c.increments + 1
                    stale := if ref ∈ c.entries then c.stale else c.stale + 1
                    cpu := Function.update c.cpu i .idle }
  | .unlinked ref number =>
      some { c with frees := (number, c.begun) :: c.frees, cpu := Function.update c.cpu i (.freed ref) }
  | .freed ref => some { c with entries := c.entries.erase ref, cpu := Function.update c.cpu i .idle }

/-- One atomic step. -/
def step (c : Config n) : Action n → Option (Config n)
  | .increment i reply => if c.cpu i = .idle then increment c i reply else none
  | .decrement i => if c.cpu i = .idle then some (decrement c i) else none
  | .advance i => advance c i

/-- No references yet. -/
def start (n : ℕ) : Config n := ⟨0, fun _ => 0, [], fun _ => .idle, 0, 0, 0, [], 0⟩

/-- What the clients promise: no more decrements than increments that have returned. A decrement counts from its
section on. -/
def Balanced (c : Config n) : Action n → Prop
  | .decrement _ => c.decrements < c.increments
  | _ => True

/-- The frame was freed only by decrements that match the increments begun, and no increment went to an entry
that was freed. -/
structure Sound (c : Config n) : Prop where
  frees : ∀ r ∈ c.frees, r.1 = r.2
  stale : c.stale = 0

/-! ### The schedules that lose no reference -/

/-- An increment is between the look-up and the increment. -/
def Phase.isFound : Phase → Bool
  | .found _ => true
  | _ => false

/-- The frame is about to be freed. -/
def Phase.isUnlinked : Phase → Bool
  | .unlinked _ _ => true
  | _ => false

/-- The entry goes to 0 only while no increment has looked it up, and no increment begins while the frame is about
to be freed; the entry can be allocated, and there are fewer than `2 ^ 32` references. -/
def Orderly (c : Config n) : Action n → Prop
  | .increment _ reply => (∀ j, (c.cpu j).isUnlinked = false) ∧ (c.linked = 0 → reply ≠ 0) ∧
      c.begun + 1 < c.decrements + 2 ^ 32
  | .decrement _ => c.refCount c.linked = 1 → ∀ j, (c.cpu j).isFound = false
  | .advance _ => True

/-! ### The invariant -/

/-- The entry that a decrement has unlinked and not yet freed. -/
def Phase.held : Phase → Option ℕ
  | .unlinked ref _ => some ref
  | .freed ref => some ref
  | _ => none

/-- The count is the number of references, and increments are under way to the linked entry only. -/
structure Inv (c : Config n) : Prop where
  pending : c.begun = c.increments + population Phase.isFound c.cpu
  bound : c.begun < c.decrements + 2 ^ 32
  linked : c.linked ≠ 0 → c.linked ∈ c.entries ∧ c.refCount c.linked + c.decrements = c.increments
  absent : c.linked = 0 → c.decrements = c.increments ∧ ∀ i, (c.cpu i).isFound = false
  found : ∀ i ref, c.cpu i = .found ref → ref = c.linked
  unlinked : ∀ i ref number, c.cpu i = .unlinked ref number → number = c.begun ∧ c.linked = 0
  held : ∀ i ref, (c.cpu i).held = some ref → ref ∈ c.entries ∧ ref ≠ c.linked
  once : ∀ i j ref, (c.cpu i).held = some ref → (c.cpu j).held = some ref → i = j
  nodup : c.entries.Nodup
  nonzero : 0 ∉ c.entries
  sound : Sound c

section steps

variable {c : Config n} {i : Fin n}

/-- A CPU that holds no entry, before and after its step, does not matter for those that do. -/
theorem Inv.held_update {p : Phase} (h : Inv c) (hp : p.held = none) :
    (∀ j ref, (Function.update c.cpu i p j).held = some ref → ref ∈ c.entries ∧ ref ≠ c.linked) ∧
      ∀ j k ref, (Function.update c.cpu i p j).held = some ref → (Function.update c.cpu i p k).held = some ref →
        j = k := by
  have hnone : ∀ ref, p.held ≠ some ref := fun ref href => absurd (hp.symm.trans href) nofun
  refine ⟨forall_update (P := fun _ (q : Phase) => ∀ ref, q.held = some ref → ref ∈ c.entries ∧ ref ≠ c.linked) ?_ ?_,
    unique_update h.once fun ref href => absurd href (hnone ref)⟩
  · exact fun ref href => absurd href (hnone ref)
  · exact fun j _ => h.held j

/-- The start of an increment that is alone on its bucket keeps the invariant. -/
theorem Inv.increment {reply : ℕ} {c' : Config n} (h : Inv c) (hi : c.cpu i = .idle)
    (hok : Orderly c (.increment i reply)) (hstep : increment c i reply = some c') : Inv c' := by
  obtain ⟨hunlinked, hreply, hbound⟩ := hok
  have hnone : ∀ j ref number, c.cpu j ≠ .unlinked ref number := by
    intro j ref number hj
    have := hunlinked j
    rw [hj] at this
    exact Bool.noConfusion this
  unfold ConcurrentRefs.increment at hstep
  dsimp only at hstep
  by_cases h0 : c.linked = 0
  · -- a new entry
    rw [if_neg (not_not.mpr h0), if_neg (hreply h0)] at hstep
    obtain ⟨hcount, hfound⟩ := h.absent h0
    by_cases hfresh : reply ∉ c.entries
    · rw [if_pos hfresh] at hstep
      obtain rfl := Option.some.inj hstep
      have hpop := population_update Phase.isFound c.cpu i (.found reply)
      rw [hi] at hpop
      obtain ⟨hheld, honce⟩ := h.held_update (i := i) (p := .found reply) rfl
      refine ⟨?_, hbound, fun _ => ⟨List.mem_cons_self, ?_⟩, fun hzero => absurd hzero (hreply h0), ?_, ?_, ?_,
        honce, List.nodup_cons.mpr ⟨hfresh, h.nodup⟩, ?_, ⟨h.sound.frees, h.sound.stale⟩⟩
      · have := h.pending
        simp only [Phase.isFound, Bool.false_eq_true, if_false, if_true] at hpop
        dsimp only
        omega
      · dsimp only
        rw [Function.update_self]
        omega
      · refine forall_update (P := fun _ (q : Phase) => ∀ ref, q = .found ref → ref = reply) ?_ fun j _ ref hj => ?_
        · exact fun ref href => (Phase.found.inj href).symm
        · have := hfound j
          rw [hj] at this
          exact Bool.noConfusion this
      · refine forall_update (P := fun _ (q : Phase) => ∀ ref number, q = .unlinked ref number →
          number = c.begun + 1 ∧ reply = 0) ?_ fun j _ ref number hj => absurd hj (hnone j ref number)
        exact fun ref number href => absurd href nofun
      · intro j ref hj
        obtain ⟨hmem, -⟩ := hheld j ref hj
        exact ⟨List.mem_cons_of_mem _ hmem, fun heq => hfresh ((show ref = reply from heq) ▸ hmem)⟩
      · rw [List.mem_cons, not_or]
        exact ⟨(hreply h0).symm, h.nonzero⟩
    · rw [if_neg hfresh] at hstep
      exact absurd hstep nofun
  · rw [if_pos h0] at hstep
    obtain rfl := Option.some.inj hstep
    have hpop := population_update Phase.isFound c.cpu i (.found c.linked)
    rw [hi] at hpop
    obtain ⟨hheld, honce⟩ := h.held_update (i := i) (p := .found c.linked) rfl
    refine ⟨?_, hbound, h.linked, fun hzero => absurd hzero h0, ?_, ?_, hheld, honce, h.nodup, h.nonzero,
      ⟨h.sound.frees, h.sound.stale⟩⟩
    · have := h.pending
      simp only [Phase.isFound, Bool.false_eq_true, if_false, if_true] at hpop
      dsimp only
      omega
    · refine forall_update (P := fun _ (q : Phase) => ∀ ref, q = .found ref → ref = c.linked) ?_ fun j _ => h.found j
      exact fun ref href => (Phase.found.inj href).symm
    · refine forall_update (P := fun _ (q : Phase) => ∀ ref number, q = .unlinked ref number →
        number = c.begun + 1 ∧ c.linked = 0) ?_ fun j _ ref number hj => absurd hj (hnone j ref number)
      exact fun ref number href => absurd href nofun

/-- A decrement finds the entry, and the count is not 0. -/
theorem Inv.decrement (h : Inv c) (hi : c.cpu i = .idle) (hbalanced : c.decrements < c.increments)
    (hok : Orderly c (.decrement i)) : Inv (decrement c i) := by
  have h0 : c.linked ≠ 0 := by
    intro h0
    have := (h.absent h0).1
    omega
  obtain ⟨hmem, hcount⟩ := h.linked h0
  have hpending := h.pending
  have hbound := h.bound
  have hsub : Word.sub 32 (c.refCount c.linked) 1 = c.refCount c.linked - 1 := Word.sub_eq (by omega) (by omega)
  unfold ConcurrentRefs.decrement
  dsimp only
  rw [if_neg h0, hsub]
  by_cases hlast : c.refCount c.linked - 1 = 0
  · -- the last reference: no increment is under way
    rw [if_pos hlast]
    have hnone := hok (by omega)
    have hzero := population_eq_zero Phase.isFound c.cpu hnone
    have hpop := population_update Phase.isFound c.cpu i (.unlinked c.linked (c.decrements + 1))
    rw [hi] at hpop
    simp only [Phase.isFound, Bool.false_eq_true, if_false] at hpop
    have hfree : ∀ j ref number, c.cpu j ≠ .unlinked ref number := fun j ref number hj =>
      h0 (h.unlinked j ref number hj).2
    refine ⟨?_, by dsimp only; omega, fun hcon => absurd rfl hcon, fun _ => ⟨by dsimp only; omega, ?_⟩, ?_, ?_, ?_, ?_,
      h.nodup, h.nonzero, ⟨h.sound.frees, h.sound.stale⟩⟩
    · dsimp only
      omega
    · exact forall_update (P := fun _ (q : Phase) => q.isFound = false) rfl fun j _ => hnone j
    · refine forall_update (P := fun _ (q : Phase) => ∀ ref, q = .found ref → ref = 0) ?_ fun j _ ref hj => ?_
      · exact fun ref href => absurd href nofun
      · have := hnone j
        rw [hj] at this
        exact Bool.noConfusion this
    · refine forall_update (P := fun _ (q : Phase) => ∀ ref number, q = .unlinked ref number → number = c.begun ∧ 0 = 0)
        ?_ fun j _ ref number hj => absurd hj (hfree j ref number)
      rintro ref number href
      obtain ⟨-, rfl⟩ := Phase.unlinked.inj href
      exact ⟨by omega, rfl⟩
    · refine forall_update (P := fun _ (q : Phase) => ∀ ref, q.held = some ref → ref ∈ c.entries ∧ ref ≠ 0) ?_
        fun j _ ref hj => ?_
      · rintro ref href
        obtain rfl := Option.some.inj href
        exact ⟨hmem, h0⟩
      · have hheld := (h.held j ref hj).1
        exact ⟨hheld, fun heq => h.nonzero (heq ▸ hheld)⟩
    · -- the entry that is unlinked was held by nobody
      refine unique_update h.once fun ref href j _ hj => ?_
      obtain rfl := Option.some.inj href
      exact (h.held j c.linked hj).2 rfl
  · rw [if_neg hlast]
    refine ⟨hpending, by dsimp only; omega, fun _ => ⟨hmem, ?_⟩, fun hcon => absurd hcon h0, h.found, h.unlinked,
      h.held, h.once, h.nodup, h.nonzero, ⟨h.sound.frees, h.sound.stale⟩⟩
    dsimp only
    rw [Function.update_self]
    omega

/-- A CPU that goes on keeps the invariant. -/
theorem Inv.advance {c' : Config n} (h : Inv c) (hstep : advance c i = some c') : Inv c' := by
  unfold ConcurrentRefs.advance at hstep
  have hpending := h.pending
  have hbound := h.bound
  cases hi : c.cpu i with
  | idle =>
      rw [hi] at hstep
      exact absurd hstep nofun
  | found ref =>
      -- the entry that was looked up is still linked
      rw [hi] at hstep
      obtain rfl := Option.some.inj hstep
      obtain rfl := h.found i ref hi
      have h0 : c.linked ≠ 0 := by
        intro h0
        have := (h.absent h0).2 i
        rw [hi] at this
        exact Bool.noConfusion this
      obtain ⟨hmem, hcount⟩ := h.linked h0
      have hpop := population_update Phase.isFound c.cpu i .idle
      rw [hi] at hpop
      simp only [Phase.isFound, Bool.false_eq_true, if_false, if_true] at hpop
      have hadd : Word.add 32 (c.refCount c.linked) 1 = c.refCount c.linked + 1 := Word.add_eq (by omega)
      obtain ⟨hheld, honce⟩ := h.held_update (i := i) (p := .idle) rfl
      refine ⟨by dsimp only; omega, hbound, fun _ => ⟨hmem, ?_⟩, fun hcon => absurd hcon h0, ?_, ?_, hheld, honce,
        h.nodup, h.nonzero, ⟨h.sound.frees, ?_⟩⟩
      · dsimp only
        rw [Function.update_self, hadd]
        omega
      · refine forall_update (P := fun _ (q : Phase) => ∀ r, q = .found r → r = c.linked) ?_ fun j _ => h.found j
        exact fun r hr => absurd hr nofun
      · refine forall_update (P := fun _ (q : Phase) => ∀ r number, q = .unlinked r number →
          number = c.begun ∧ c.linked = 0) ?_ fun j _ => h.unlinked j
        exact fun r number hr => absurd hr nofun
      · dsimp only
        rw [if_pos hmem]
        exact h.sound.stale
  | unlinked ref number =>
      rw [hi] at hstep
      obtain rfl := Option.some.inj hstep
      obtain ⟨hnumber, hlinked⟩ := h.unlinked i ref number hi
      have hpop := population_update Phase.isFound c.cpu i (.freed ref)
      rw [hi] at hpop
      simp only [Phase.isFound, Bool.false_eq_true, if_false] at hpop
      have hsame : ∀ j, (Function.update c.cpu i (.freed ref) j).held = (c.cpu j).held := by
        refine forall_update (P := fun j (q : Phase) => q.held = (c.cpu j).held) ?_ fun j _ => rfl
        rw [hi]
        rfl
      refine ⟨by dsimp only; omega, hbound, h.linked, fun hcon => ⟨(h.absent hcon).1, ?_⟩, ?_, ?_, ?_, ?_, h.nodup,
        h.nonzero, ⟨?_, h.sound.stale⟩⟩
      · exact forall_update (P := fun _ (q : Phase) => q.isFound = false) rfl fun j _ => (h.absent hcon).2 j
      · refine forall_update (P := fun _ (q : Phase) => ∀ r, q = .found r → r = c.linked) ?_ fun j _ => h.found j
        exact fun r hr => absurd hr nofun
      · refine forall_update (P := fun _ (q : Phase) => ∀ r number, q = .unlinked r number →
          number = c.begun ∧ c.linked = 0) ?_ fun j _ => h.unlinked j
        exact fun r number hr => absurd hr nofun
      · intro j r hj
        exact h.held j r ((hsame j).symm.trans hj)
      · intro j k r hj hk
        exact h.once j k r ((hsame j).symm.trans hj) ((hsame k).symm.trans hk)
      · intro r hr
        rcases List.mem_cons.mp hr with rfl | hr
        · exact hnumber
        · exact h.sound.frees r hr
  | freed ref =>
      rw [hi] at hstep
      obtain rfl := Option.some.inj hstep
      have hheld : (c.cpu i).held = some ref := by
        rw [hi]
        rfl
      obtain ⟨hmem, hne⟩ := h.held i ref hheld
      have hpop := population_update Phase.isFound c.cpu i .idle
      rw [hi] at hpop
      simp only [Phase.isFound, Bool.false_eq_true, if_false] at hpop
      refine ⟨by dsimp only; omega, hbound, fun h0 => ⟨?_, (h.linked h0).2⟩, fun hcon => ⟨(h.absent hcon).1, ?_⟩, ?_,
        ?_, ?_, (h.held_update (i := i) (p := .idle) rfl).2, h.nodup.erase ref,
        fun hzero => h.nonzero (List.mem_of_mem_erase hzero), ⟨h.sound.frees, h.sound.stale⟩⟩
      · exact (List.mem_erase_of_ne hne.symm).mpr (h.linked h0).1
      · exact forall_update (P := fun _ (q : Phase) => q.isFound = false) rfl fun j _ => (h.absent hcon).2 j
      · refine forall_update (P := fun _ (q : Phase) => ∀ r, q = .found r → r = c.linked) ?_ fun j _ => h.found j
        exact fun r hr => absurd hr nofun
      · refine forall_update (P := fun _ (q : Phase) => ∀ r number, q = .unlinked r number →
          number = c.begun ∧ c.linked = 0) ?_ fun j _ => h.unlinked j
        exact fun r number hr => absurd hr nofun
      · -- the entries that others hold are other entries
        refine forall_update (P := fun _ (q : Phase) => ∀ r, q.held = some r → r ∈ c.entries.erase ref ∧ r ≠ c.linked)
          ?_ fun j hj r hr => ?_
        · exact fun r hr => absurd hr nofun
        · obtain ⟨hrmem, hrne⟩ := h.held j r hr
          refine ⟨(List.mem_erase_of_ne fun heq => hj ?_).mpr hrmem, hrne⟩
          exact h.once j i ref (heq ▸ hr) hheld

/-- An orderly step keeps the invariant. -/
theorem Inv.step {a : Action n} {c' : Config n} (h : Inv c) (hok : Balanced c a ∧ Orderly c a)
    (hstep : step c a = some c') : Inv c' := by
  obtain ⟨hbalanced, horderly⟩ := hok
  unfold ConcurrentRefs.step at hstep
  cases a with
  | increment i reply =>
      by_cases hi : c.cpu i = .idle
      · exact h.increment hi horderly ((if_pos hi).symm.trans hstep)
      · exact absurd ((if_neg hi).symm.trans hstep) nofun
  | decrement i =>
      by_cases hi : c.cpu i = .idle
      · obtain rfl := Option.some.inj ((if_pos hi).symm.trans hstep)
        exact h.decrement hi hbalanced horderly
      · exact absurd ((if_neg hi).symm.trans hstep) nofun
  | advance i => exact h.advance hstep

end steps

/-- At the start nothing is counted. -/
theorem inv_start : Inv (start n) := by
  refine ⟨?_, by norm_num [start], fun hcon => absurd rfl hcon, fun _ => ⟨rfl, fun _ => rfl⟩,
    fun _ _ h => absurd h nofun, fun _ _ _ h => absurd h nofun, fun _ _ h => absurd h nofun,
    fun _ _ _ h => absurd h nofun, List.nodup_nil, List.not_mem_nil, ⟨fun _ h => absurd h List.not_mem_nil, rfl⟩⟩
  have hnone := population_eq_zero Phase.isFound (start n).cpu fun _ => rfl
  show 0 = 0 + population Phase.isFound (start n).cpu
  rw [hnone]

/-! ### Runs -/

/-- In every run of orderly steps the references survive. -/
theorem refs_sound_of_orderly {as : List (Action n)} {c : Config n}
    (hg : Guarded step (fun c a => Balanced c a ∧ Orderly c a) (start n) as)
    (hexec : exec step (start n) as = some c) : Sound c :=
  (invariant (fun _ _ _ h hok hstep => h.step hok hstep) inv_start hg hexec).sound

instance (c : Config n) : DecidablePred (Balanced c)
  | .increment _ _ => .isTrue trivial
  | .decrement _ => inferInstanceAs (Decidable (c.decrements < c.increments))
  | .advance _ => .isTrue trivial

instance (c : Config n) : DecidablePred (Orderly c)
  | .increment _ reply => inferInstanceAs (Decidable ((∀ j, (c.cpu j).isUnlinked = false) ∧
      (c.linked = 0 → reply ≠ 0) ∧ c.begun + 1 < c.decrements + 2 ^ 32))
  | .decrement _ => inferInstanceAs (Decidable (c.refCount c.linked = 1 → ∀ j, (c.cpu j).isFound = false))
  | .advance _ => .isTrue trivial

/-- Two references taken at the same time, and dropped in turn; a third one comes after the frame is freed. -/
def orderlySchedule : List (Action 2) :=
  [.increment 0 0x1000, .increment 1 0, .advance 1, .advance 0, .decrement 0, .decrement 1, .advance 1,
    .increment 0 0x2000, .advance 1, .advance 0]

/-- Both frames of the run are counted rightly. -/
theorem refs_sound_two_cpus : ∃ c, exec step (start 2) orderlySchedule = some c ∧ Sound c := by
  have hdone : (exec step (start 2) orderlySchedule).isSome = true := by decide +kernel
  obtain ⟨c, hc⟩ := Option.isSome_iff_exists.mp hdone
  exact ⟨c, hc, refs_sound_of_orderly (guarded_of_guardedBy
    (t := fun c a => decide (Balanced c a ∧ Orderly c a)) (fun _ _ => of_decide_eq_true) (by decide +kernel)) hc⟩

/-- An increment looks the entry up while it has one reference, and that reference is dropped before the increment:
the frame and the entry are freed, and the increment goes to the freed entry. -/
def losingSchedule : List (Action 2) :=
  [.increment 0 0x1000, .advance 0, .increment 0 0, .decrement 1, .advance 1, .advance 1, .advance 0]

/-- In general a reference can get lost. -/
theorem reference_lost :
    ¬ ∀ (n : ℕ) (as : List (Action n)) (c : Config n), Guarded step Balanced (start n) as →
      exec step (start n) as = some c → Sound c := by
  intro hall
  have hfinal : (exec step (start 2) losingSchedule).map (fun c => (c.frees, c.stale)) = some ([(1, 2)], 1) := by
    decide +kernel
  obtain ⟨c, hexec, hvals⟩ := Option.map_eq_some_iff.mp hfinal
  obtain ⟨hfrees, -⟩ := Prod.mk.inj hvals
  have hsound := hall 2 losingSchedule c (guarded_of_guardedBy (t := fun c a => decide (Balanced c a))
    (fun _ _ => of_decide_eq_true) (by decide +kernel)) hexec
  have hmatch := hsound.frees (1, 2) (hfrees ▸ List.mem_cons_self)
  exact absurd hmatch (by decide)

end PrometheusKernel.Cow.ConcurrentRefs
