import PrometheusKernel.Buddy.Contents
import PrometheusKernel.Buddy.Completeness

/-!
# What the allocator leaves to its clients

`Holds r b live` says of a state `b` of the allocator that `live` are its held blocks, without the free lists and the
block system behind it. A byte that is in a held block or behind the region is `Taken`: no list node is there, so the
allocator does not notice what is written to it (`Holds.write`) and does not write to it itself (`Holds.alloc`,
`Holds.free`, `Holds.step`). Clients that share one allocator, and keep their data in its memory, are verified against
these.
-/

namespace PrometheusKernel.Buddy

open ByteMem BuddySystem

/-- The blocks `live` are held in the state `b` of the allocator. -/
def Holds (r : Region) (b : State) (live : List (ℕ × ℕ)) : Prop := ∃ lists S, Inv r ⟨b, live⟩ lists S

/-- The byte is in a held block or behind the region. -/
def Taken (r : Region) (live : List (ℕ × ℕ)) (x : ℕ) : Prop :=
  r.start + r.pages * pageSize ≤ x ∨ ∃ l ∈ live, InBlock l x

variable {r : Region} {b : State} {live live' : List (ℕ × ℕ)} {x : ℕ}

/-- What is taken stays taken when more blocks are held. -/
theorem Taken.mono (h : Taken r live x) (hsub : live ⊆ live') : Taken r live' x := by
  rcases h with h | ⟨l, hl, hx⟩
  · exact Or.inl h
  · exact Or.inr ⟨l, hsub hl, hx⟩

/-- A block that the byte is not in is given back. -/
theorem Taken.erase {l : ℕ × ℕ} (h : Taken r live x) (hx : ¬ InBlock l x) : Taken r (live.erase l) x := by
  rcases h with h | ⟨d, hd, hxd⟩
  · exact Or.inl h
  · refine Or.inr ⟨d, (List.mem_erase_of_ne ?_).mpr hd, hxd⟩
    rintro rfl
    exact hx hxd

/-- A byte behind the region, or in a used block, is in no page that the used blocks leave uncovered. -/
theorem outside_of_taken {U : Finset Block} (hU : ∀ l ∈ live, ∃ i, l.1 = r.addr i ∧ (i, l.2) ∈ U)
    (hx : Taken r live x) : Outside r r.pages U x := by
  rcases hx with hx | ⟨l, hl, hx⟩
  · intro p hp _
    unfold Region.addr pageSize
    unfold pageSize at hx
    omega
  · obtain ⟨i, hi, hused⟩ := hU l hl
    refine outside_of_inBlock hused ?_
    rw [← hi]
    exact hx

/-- What is written to taken bytes goes unnoticed. -/
theorem Holds.write (h : Holds r b live) {w : Mem} (hw : ∀ x, ¬ Taken r live x → w x = b.mem x) :
    Holds r { b with mem := w } live := by
  obtain ⟨lists, S, hinv⟩ := h
  refine ⟨lists, S, hinv.rep.congr_mem fun x hx => hw x fun htaken => ?_, hinv.bits, hinv.nodup, hinv.live, hinv.lost,
    hinv.totalPages, hinv.freePages⟩
  obtain ⟨p, hp, hnode⟩ := hx
  rcases htaken with hx | ⟨l, hl, hx⟩
  · have hlt := S.lt_of_ind (Or.inl hp) (ind_self p)
    unfold OffNode Region.addr pageSize at hnode
    unfold pageSize at hx
    omega
  · obtain ⟨i, hi, hused, -⟩ := hinv.live l hl
    refine hnode (offNode_of_inBlock hused ?_ hp)
    rw [← hi]
    exact hx

/-- The order of the list plays no role. -/
theorem Holds.perm (h : Holds r b live) (hp : live.Perm live') : Holds r b live' := by
  obtain ⟨lists, S, hinv⟩ := h
  exact ⟨lists, S, hinv.rep, hinv.bits, hp.nodup_iff.mp hinv.nodup, fun x hx => hinv.live x (hp.mem_iff.mpr hx),
    hinv.lost, hinv.totalPages, hinv.freePages⟩

/-- No block is held twice. -/
theorem Holds.nodup (h : Holds r b live) : live.Nodup := by
  obtain ⟨lists, S, hinv⟩ := h
  exact hinv.nodup

/-- A held block starts at a page of the region. -/
theorem Holds.block (h : Holds r b live) {l : ℕ × ℕ} (hl : l ∈ live) : l.1 ≠ 0 ∧ ∃ i < r.pages, l.1 = r.addr i := by
  obtain ⟨lists, S, hinv⟩ := h
  obtain ⟨i, hi, hused, h0⟩ := hinv.live l hl
  exact ⟨h0, i, S.lt_of_ind (Or.inr hused) (ind_self (i, l.2)), hi⟩

/-- A byte of a held block is in no other held block and not behind the region. -/
theorem Holds.not_taken {l : ℕ × ℕ} (h : Holds r b (l :: live)) (hin : InBlock l x) : ¬ Taken r live x := by
  obtain ⟨lists, S, hinv⟩ := h
  rintro (hx | ⟨d, hd, hxd⟩)
  · obtain ⟨i, hi, hused, -⟩ := hinv.live l List.mem_cons_self
    have hend := S.end_le (Or.inr hused)
    have hlast : (i + 2 ^ l.2) * pageSize ≤ r.pages * pageSize := Nat.mul_le_mul_right pageSize hend
    unfold InBlock at hin
    rw [hi, Region.addr] at hin
    rw [Nat.add_mul] at hlast
    omega
  · have hsame := hinv.eq_of_inBlock List.mem_cons_self (List.mem_cons_of_mem l hd) hin hxd
    exact (List.nodup_cons.mp hinv.nodup).1 (hsame ▸ hd)

/-- An allocation fails and changes nothing, or it adds a block to the held ones. -/
theorem Holds.alloc (h : Holds r b live) (order zoneType : ℕ) :
    buddyAllocPages b order zoneType = (0, b) ∨
      (buddyAllocPages b order zoneType).1 ≠ 0 ∧
      Holds r (buddyAllocPages b order zoneType).2 (((buddyAllocPages b order zoneType).1, order) :: live) ∧
      ∀ x, Taken r live x → (buddyAllocPages b order zoneType).2.mem x = b.mem x := by
  obtain ⟨lists, S, hinv⟩ := h
  rcases hinv.alloc order zoneType with hfail | ⟨i, lists', S', hres, h0, -, -, hmem, hinv'⟩
  · exact Or.inl hfail
  · dsimp only at hres hmem hinv'
    rw [hres]
    refine Or.inr ⟨h0, ⟨lists', S', hinv'⟩, fun x hx => hmem x (outside_of_taken (fun l hl => ?_) hx)⟩
    obtain ⟨j, hj, hused, -⟩ := hinv.live l hl
    exact ⟨j, hj, hused⟩

/-- An allocation with flags leaves the taken bytes alone. -/
theorem Holds.allocFlags_mem (h : Holds r b live) (order flags : ℕ) (hx : Taken r live x) :
    (buddyAllocPagesFlags b order flags).2.mem x = b.mem x := by
  by_cases horder : order ≤ maxOrder
  · obtain ⟨w, hw, heq⟩ := buddyAllocPagesFlags_eq b horder flags
    rw [heq]
    dsimp only
    rcases h.alloc order (zoneOfFlags flags) with hfail | ⟨-, hholds, hmem⟩
    · rw [hw x (Or.inl (by rw [hfail])), hfail]
    · -- only the new block is cleared, and it is none of the taken ones
      rw [hw x (Or.inr fun hin => hholds.not_taken hin hx), hmem x hx]
  · have hfail : buddyAllocPages b order (zoneOfFlags flags) = (0, b) := by
      unfold buddyAllocPages
      rw [if_pos (by omega)]
    have hflags : buddyAllocPagesFlags b order flags = (0, b) := by
      unfold buddyAllocPagesFlags
      simp [hfail]
    rw [hflags]

/-- A release leaves the bytes alone that are taken without the block. -/
theorem Holds.free_mem {address order : ℕ} {b' : State} (h : Holds r b live) (hl : (address, order) ∈ live)
    (hcall : buddyFreePages b address order = some b') (hx : Taken r (live.erase (address, order)) x) :
    b'.mem x = b.mem x := by
  obtain ⟨lists, S, hinv⟩ := h
  obtain ⟨i, hi, hused, h0⟩ := hinv.live _ hl
  dsimp only at hi hused h0
  subst hi
  by_cases hacc : Accepts r
  · obtain ⟨s', lists', S', hres, hrel⟩ := hinv.rep.free (lostCount_le r) hacc.1 hacc.2 hinv.bits hused h0
    obtain rfl := Option.some.inj (hres.symm.trans hcall)
    refine hrel.mem x (outside_of_taken (fun d hd => ?_) hx)
    obtain ⟨hne, hd'⟩ := hinv.nodup.mem_erase_iff.mp hd
    obtain ⟨j, hj, hjused, -⟩ := hinv.live d hd'
    refine ⟨j, hj, Finset.mem_erase.mpr ⟨fun heq => hne ?_, hjused⟩⟩
    obtain ⟨rfl, hk⟩ := Prod.mk.inj heq
    exact Prod.ext hj hk
  · have hrej : r.start % pageSize ≠ 0 ∨ r.start + r.size = 2 ^ 64 := by
      have hfits := r.fits
      unfold Accepts at hacc
      omega
    obtain rfl := Option.some.inj ((hinv.rep.free_rejected hrej i order).symm.trans hcall)
    rfl

/-- A held page is given back, and the next allocation of a page succeeds. -/
theorem Holds.free {a : ℕ} (h : Holds r b ((a, 0) :: live)) (hacc : Accepts r) :
    ∃ b', buddyFreePages b a 0 = some b' ∧ Holds r b' live ∧ (∀ x, Taken r live x → b'.mem x = b.mem x) ∧
      (buddyAllocPages b' 0 0).1 ≠ 0 := by
  have hmem := fun {b' : State} (hcall : buddyFreePages b a 0 = some b') x (hx : Taken r live x) =>
    h.free_mem List.mem_cons_self hcall (by rwa [List.erase_cons_head])
  obtain ⟨lists, S, hinv⟩ := h
  obtain ⟨i, hi, hused, h0⟩ := hinv.live _ List.mem_cons_self
  simp only at hi hused h0
  subst hi
  obtain ⟨b', lists', S', hres, hrel⟩ := hinv.rep.free (lostCount_le r) hacc.1 hacc.2 hinv.bits hused h0
  have hvalid : Run.Valid ⟨b, (r.addr i, 0) :: live⟩ (.free (r.addr i) 0) := List.mem_cons_self
  obtain ⟨c', lists'', S'', hstep, hinv', -⟩ := hinv.step hvalid
  obtain rfl : c' = ⟨b', live⟩ := by
    simp only [Buddy.step, hres, List.erase_cons_head] at hstep
    exact (Option.some.inj hstep).symm
  refine ⟨b', hres, ⟨lists'', S'', hinv'⟩, hmem hres, ?_⟩
  -- the page itself is free now
  have hfree : coverage S'.used i = 0 := by
    have herase := coverage_erase hused i
    have hle := S.coverage_le i
    rw [ind_self (i, 0)] at herase
    rw [hrel.used]
    omega
  refine (hrel.rep.allocFromZone_ne_zero_iff (lostCount_le r) (Nat.zero_le _)).mpr
    ⟨i, one_dvd i, S.end_le (Or.inr hused), fun p hp => ?_⟩
  obtain ⟨h1, h2⟩ := ind_eq_one_iff.mp hp
  obtain rfl : p = i := Nat.le_antisymm (Nat.lt_succ_iff.mp h2) h1
  exact hfree

/-! ### Whole operations -/

/-- The byte is neither in the block that the operation gives back, nor the one that it writes. -/
def Op.Avoids (x : ℕ) : Op → Prop
  | .free address order => ¬ InBlock (address, order) x
  | .write y _ => x ≠ y
  | _ => True

/-- What a release does that returns. -/
theorem step_free {c c' : Run} {address order : ℕ} (hstep : step c (.free address order) = some c') :
    ∃ b', buddyFreePages c.state address order = some b' ∧ c' = ⟨b', c.live.erase (address, order)⟩ := by
  cases hcall : buddyFreePages c.state address order with
  | none =>
      simp only [step, hcall] at hstep
      exact absurd hstep (Option.some_ne_none _).symm
  | some b' =>
      simp only [step, hcall] at hstep
      exact ⟨b', rfl, (Option.some.inj hstep).symm⟩

/-- An operation leaves the taken bytes alone that it avoids. -/
theorem Holds.step_mem {c c' : Run} (h : Holds r c.state c.live) {op : Op} (hv : c.Valid op)
    (hstep : Buddy.step c op = some c') (hx : Taken r c.live x) (hop : op.Avoids x) :
    c'.state.mem x = c.state.mem x := by
  cases op with
  | alloc order zoneType =>
      obtain rfl := Option.some.inj hstep
      rcases h.alloc order zoneType with hfail | ⟨-, -, hmem⟩
      · dsimp only
        rw [hfail]
      · exact hmem x hx
  | allocFlags order flags =>
      obtain rfl := Option.some.inj hstep
      exact h.allocFlags_mem order flags hx
  | free address order =>
      obtain ⟨b', hcall, rfl⟩ := step_free hstep
      exact h.free_mem hv hcall (hx.erase hop)
  | write y byte =>
      obtain rfl := Option.some.inj hstep
      exact Function.update_of_ne hop _ _

/-- A taken byte that the operation avoids is taken afterwards. -/
theorem Taken.step {c c' : Run} {op : Op} (hx : Taken r c.live x) (hstep : Buddy.step c op = some c')
    (hop : op.Avoids x) : Taken r c'.live x := by
  have hgain : ∀ a order, c.live ⊆ gain c.live a order := by
    intro a order
    unfold gain
    split_ifs
    · exact List.Subset.refl _
    · exact List.subset_cons_self _ _
  cases op with
  | alloc order zoneType =>
      obtain rfl := Option.some.inj hstep
      exact hx.mono (hgain _ _)
  | allocFlags order flags =>
      obtain rfl := Option.some.inj hstep
      exact hx.mono (hgain _ _)
  | free address order =>
      obtain ⟨b', -, rfl⟩ := step_free hstep
      exact hx.erase hop
  | write y byte =>
      obtain rfl := Option.some.inj hstep
      exact hx

/-- Clients that hold a part of the blocks do nothing to the bytes of the others. -/
theorem Holds.avoids {out own : List (ℕ × ℕ)} (h : Holds r b (out ++ own)) {op : Op} (hv : Run.Valid ⟨b, out⟩ op)
    {l : ℕ × ℕ} (hl : l ∈ own) (hx : InBlock l x) : op.Avoids x := by
  obtain ⟨lists, S, hinv⟩ := h
  have hout : ∀ d ∈ out, ¬ InBlock d x := fun d hd hxd => by
    have hsame := hinv.eq_of_inBlock (List.mem_append_left own hd) (List.mem_append_right out hl) hxd hx
    exact List.disjoint_of_nodup_append hinv.nodup hd (hsame ▸ hl)
  cases op with
  | alloc order zoneType => trivial
  | allocFlags order flags => trivial
  | free address order => exact hout (address, order) hv
  | write y byte =>
      obtain ⟨d, hd, hy⟩ := hv
      rintro rfl
      exact hout d hd hy

/-- Clients that hold a part of the blocks call the allocator and write into their blocks; the other blocks keep
their bytes. -/
theorem Holds.step {out own : List (ℕ × ℕ)} (h : Holds r b (out ++ own)) {op : Op} (hv : Run.Valid ⟨b, out⟩ op) :
    ∃ c, Buddy.step ⟨b, out⟩ op = some c ∧ Holds r c.state (c.live ++ own) ∧
      ∀ x, Taken r (out ++ own) x → op.Avoids x → c.state.mem x = b.mem x := by
  have hv' : Run.Valid ⟨b, out ++ own⟩ op := by
    cases op with
    | alloc order zoneType => trivial
    | allocFlags order flags => trivial
    | free address order => exact List.mem_append_left own hv
    | write x v =>
        obtain ⟨l, hl, hin⟩ := hv
        exact ⟨l, List.mem_append_left own hl, hin⟩
  have hgain : ∀ a order, gain (out ++ own) a order = gain out a order ++ own := by
    intro a order
    unfold gain
    split_ifs
    · rfl
    · rfl
  have hmem := fun {c : Run} (hc : Buddy.step ⟨b, out ++ own⟩ op = some c) x hx =>
    Holds.step_mem (c := ⟨b, out ++ own⟩) (x := x) h hv' hc hx
  obtain ⟨lists, S, hinv⟩ := h
  obtain ⟨c', lists', S', hstep, hinv', -⟩ := hinv.step hv'
  have hbytes := hmem hstep
  cases op with
  | alloc order zoneType =>
      obtain rfl := Option.some.inj hstep
      refine ⟨_, rfl, ⟨lists', S', ?_⟩, hbytes⟩
      rw [← hgain]
      exact hinv'
  | allocFlags order flags =>
      obtain rfl := Option.some.inj hstep
      refine ⟨_, rfl, ⟨lists', S', ?_⟩, hbytes⟩
      rw [← hgain]
      exact hinv'
  | free address order =>
      obtain ⟨b', hcall, rfl⟩ := step_free hstep
      refine ⟨⟨b', out.erase (address, order)⟩, ?_, ⟨lists', S', ?_⟩, hbytes⟩
      · simp only [Buddy.step]
        rw [hcall]
      · rw [List.erase_append_left own hv] at hinv'
        exact hinv'
  | write x v =>
      obtain rfl := Option.some.inj hstep
      exact ⟨_, rfl, ⟨lists', S', hinv'⟩, hbytes⟩

end PrometheusKernel.Buddy
