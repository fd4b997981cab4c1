import PrometheusKernel.Cow.Steps

/-!
# Reading and changing the counts of `cow.c`

* `Footing.getRefCount`: `cow_get_ref_count` returns the count of the frame of its argument.
* `Footing.incrementRef`: `cow_increment_ref` counts one more, unless `cow_get_ref` returns null.
* `Footing.decrementRef`: `cow_decrement_ref` does nothing without an entry, else counts one less, and a
  count of 1 takes the entry out of its chain and gives back the frame and the page of the entry.

A count of 0 has no special case in `cow_decrement_ref`: it becomes `2 ^ 32 - 1`.
-/

namespace PrometheusKernel.Cow

open ByteMem LinkedList Vmm

variable {A : Type} {P : Ownership A} {alloc : Machine A → ℕ × Machine A}
  {free : ℕ → ℕ → Machine A → Machine A} {s : State A} {roots : Set ℕ} {g : Ghost}

/-! ### `cow_get_ref_count` -/

/-- An entry is what the walk of the chain finds. -/
theorem Footing.hasEntry_iff (h : Footing P s roots g) (f : ℕ) :
    g.HasEntry s.mem f ↔ ∃ ref, ref ≠ 0 ∧ findRef s f = some ref := by
  rcases h.refs.findRef h.ref_isFrame f with ⟨hfind, hnone⟩ | ⟨ref, hmem, hphys, h0, hfind⟩
  · rw [hfind]
    constructor
    · rintro ⟨ref, href, hphys⟩
      exact absurd hphys (hnone ref href)
    · rintro ⟨ref, h0, heq⟩
      exact absurd (Option.some.inj heq).symm h0
  · exact iff_of_true ⟨ref, hmem, hphys⟩ ⟨ref, h0, hfind⟩

/-- A frame without an entry has count 0. -/
theorem Footing.cnt_of_no_entry (h : Footing P s roots g) {f : ℕ} (hf : ¬ g.HasEntry s.mem f) : g.cnt f = 0 :=
  h.refs.zero f fun ref href hphys => hf ⟨ref, href, hphys⟩

/-- `cow_get_ref_count` returns the count of the frame. -/
theorem Footing.getRefCount (h : Footing P s roots g) (physAddr : ℕ) :
    cowGetRefCount s physAddr = some (g.cnt (frameOf physAddr)) := by
  unfold cowGetRefCount
  show (findRef s (frameOf physAddr)).map _ = _
  rcases h.refs.findRef h.ref_isFrame (frameOf physAddr) with ⟨hfind, hnone⟩ | ⟨ref, hmem, hphys, h0, hfind⟩
  · rw [hfind, Option.map_some, if_pos rfl, h.refs.zero _ hnone]
  · rw [hfind, Option.map_some, if_neg h0, h.refs.count _ ref hmem, hphys]

/-! ### `cow_increment_ref` -/

/-- `cow_increment_ref`: without a page for the entry nothing changes, else the frame is counted once
more. -/
theorem Footing.incrementRef (h : Footing P s roots g) (halloc : P.Allocator alloc) (physAddr : ℕ) :
    (∃ s' g', cowGetRef alloc s physAddr = some (0, s') ∧ cowIncrementRef alloc s physAddr = some s' ∧
        Found P roots s g (frameOf physAddr) 0 s' g') ∨
      ∃ ref s₁ s' g', ref ≠ 0 ∧ cowGetRef alloc s physAddr = some (ref, s₁) ∧
        cowIncrementRef alloc s physAddr = some s' ∧ Kept P roots s g s' g' ∧
        Counted s g (frameOf physAddr) (Word.add 32 (g.cnt (frameOf physAddr)) 1) s' g' := by
  obtain ⟨ref, s₁, g₁, hget, hfound⟩ := h.getRef halloc physAddr
  cases ref with
  | zero =>
      refine Or.inl ⟨s₁, g₁, hget, ?_, hfound⟩
      unfold cowIncrementRef
      simp only [hget]
  | succ k =>
      have h0 : k + 1 ≠ 0 := k.succ_ne_zero
      obtain ⟨hkept, hcounted⟩ := hfound.setCount h0 (Word.add_lt 32 (g.cnt (frameOf physAddr)) 1)
      refine Or.inr ⟨k + 1, s₁, _, _, h0, hget, ?_, hkept, hcounted⟩
      unfold cowIncrementRef
      simp only [hget, hfound.refCount_eq h0]

/-! ### `cow_decrement_ref` -/

/-- From `s` to `s'` the frame `f` has lost its entry `ref`, and both pages have been given back. -/
structure Released (P : Ownership A) (free : ℕ → ℕ → Machine A → Machine A) (roots : Set ℕ) (s : State A)
    (g : Ghost) (f : ℕ) (s' : State A) (g' : Ghost) : Prop where
  footing : Footing P s' roots g'
  D_eq : g'.D = g.D \ {f}
  cnt_eq : g'.cnt = Function.update g.cnt f 0
  entries : ∀ x, g'.HasEntry s'.mem x ↔ g.HasEntry s.mem x ∧ x ≠ f
  frees : ∃ ref m, ref ≠ 0 ∧ findRef s f = some ref ∧ m.pages = s.pages ∧ s'.toMachine = free ref 0 (free f 0 m)

/-- The state after the entry `ref` of the frame `f` is taken out of its chain. -/
def unlinkRef (s : State A) (f ref prev : ℕ) : State A :=
  if prev ≠ 0 then { s with mem := store 8 s.mem (prev + 16) (refNext s.mem ref) }
  else { s with hashTable := Function.update s.hashTable (cowHash f) (refNext s.mem ref) }

/-- An entry with count 0 is unlinked. -/
theorem Footing.unlinkRef (h : Footing P s roots g) {f ref : ℕ} (href : ref ∈ g.chains (cowHash f))
    (hphys : refPhysicalAddress s.mem ref = f) (hzero : g.cnt f = 0) {l₁ l₂ : List ℕ}
    (hsplit : g.chains (cowHash f) = l₁ ++ ref :: l₂) (hl₁ : ∀ b ∈ l₁, refPhysicalAddress s.mem b ≠ f) :
    Footing P (Cow.unlinkRef s f ref (l₁.getLastD 0)) roots
        { g with R := g.R \ {ref}, chains := Function.update g.chains (cowHash f) (l₁ ++ l₂) } ∧
      (∀ x, Ghost.HasEntry { g with R := g.R \ {ref}, chains := Function.update g.chains (cowHash f) (l₁ ++ l₂) }
        (Cow.unlinkRef s f ref (l₁.getLastD 0)).mem x ↔ g.HasEntry s.mem x ∧ x ≠ f) ∧
      (Cow.unlinkRef s f ref (l₁.getLastD 0)).pages = s.pages := by
  have hm : (Cow.unlinkRef s f ref (l₁.getLastD 0)).mem
      = if l₁.getLastD 0 ≠ 0 then store 8 s.mem (l₁.getLastD 0 + 16) (refNext s.mem ref) else s.mem := by
    unfold Cow.unlinkRef
    split_ifs <;> rfl
  have ht : (Cow.unlinkRef s f ref (l₁.getLastD 0)).hashTable = if l₁.getLastD 0 ≠ 0 then s.hashTable
      else Function.update s.hashTable (cowHash f) (refNext s.mem ref) := by
    unfold Cow.unlinkRef
    split_ifs <;> rfl
  have hpages : (Cow.unlinkRef s f ref (l₁.getLastD 0)).pages = s.pages := by
    unfold Cow.unlinkRef
    split_ifs <;> rfl
  obtain ⟨hrefs, hfields, hout⟩ := h.refs.unlink h.ref_isFrame hsplit hl₁ hphys hzero hm ht
  have hkeep : ∀ u ∈ g.F, u ∉ g.R → ∀ x, InPage u x → (Cow.unlinkRef s f ref (l₁.getLastD 0)).mem x = s.mem x := by
    intro u hu huR x hx
    exact hout x fun b hb hx' => huR (h.eq_of_inPage (h.rF hb) hu hx' hx ▸ hb)
  refine ⟨⟨?_, h.tables.congr fun t ht => hkeep t (h.tF ht) (h.tr t ht), hrefs, h.tF, fun r hr => h.rF hr.1, h.dF,
    fun t ht hr => h.tr t ht hr.1, h.td, fun d hd hr => h.rd d hd hr.1⟩, fun x => ?_, hpages⟩
  · exact P.write_state h.owns hpages fun x hx => hout x fun b hb => hx b (h.rF hb)
  · have hnodup := (h.refs.list (cowHash f)).nodup
    rw [hsplit] at hnodup
    show (∃ r ∈ Function.update g.chains (cowHash f) (l₁ ++ l₂) (cowHash x), _) ↔ _
    by_cases hx : cowHash x = cowHash f
    · rw [hx, Function.update_self]
      unfold Ghost.HasEntry
      rw [hx, hsplit]
      constructor
      · rintro ⟨b, hb, hbx⟩
        have hmem : b ∈ l₁ ++ ref :: l₂ := by
          rcases List.mem_append.mp hb with hb | hb
          · exact List.mem_append_left _ hb
          · exact List.mem_append_right _ (List.mem_cons_of_mem _ hb)
        rw [hfields (cowHash f) b (hsplit ▸ hmem)] at hbx
        refine ⟨⟨b, hmem, hbx⟩, ?_⟩
        rintro rfl
        have heq := h.refs.inj _ b (hsplit ▸ hmem) ref href (hbx.trans hphys.symm)
        exact (List.nodup_middle.mp hnodup).notMem (heq ▸ hb)
      · rintro ⟨⟨b, hb, hbx⟩, hne⟩
        have hbref : b ≠ ref := fun e => hne (by rw [← hbx, e, hphys])
        refine ⟨b, ?_, (hfields (cowHash f) b (hsplit ▸ hb)).trans hbx⟩
        rcases List.mem_append.mp hb with hb | hb
        · exact List.mem_append_left _ hb
        · exact List.mem_append_right _ ((List.mem_cons.mp hb).resolve_left hbref)
    · rw [Function.update_of_ne hx]
      have hne : x ≠ f := fun e => hx (e ▸ rfl)
      rw [and_iff_left hne]
      constructor
      · rintro ⟨b, hb, hbx⟩
        exact ⟨b, hb, (hfields _ b hb).symm.trans hbx⟩
      · rintro ⟨b, hb, hbx⟩
        exact ⟨b, hb, (hfields _ b hb).trans hbx⟩

/-- `cow_decrement_ref`, where a frame that loses its last reference is one that the caller holds. -/
theorem Footing.decrementRef (h : Footing P s roots g) (hfree : P.Freer fun f => free f 0) (physAddr : ℕ)
    (hheld : g.cnt (frameOf physAddr) = 1 → frameOf physAddr ∈ g.D) :
    (¬ g.HasEntry s.mem (frameOf physAddr) ∧ cowDecrementRef free s physAddr = some s) ∨
      ∃ s' g', g.HasEntry s.mem (frameOf physAddr) ∧ cowDecrementRef free s physAddr = some s' ∧
        (g.cnt (frameOf physAddr) ≠ 1 ∧ s'.pages = s.pages ∧ Kept P roots s g s' g' ∧
            Counted s g (frameOf physAddr) (Word.sub 32 (g.cnt (frameOf physAddr)) 1) s' g' ∨
          g.cnt (frameOf physAddr) = 1 ∧ Released P free roots s g (frameOf physAddr) s' g') := by
  have hmask : physAddr &&& complement 0xFFF = frameOf physAddr := rfl
  set f := frameOf physAddr with hf
  by_cases hentry : g.HasEntry s.mem f
  · obtain ⟨ref, href, hphys⟩ := hentry
    have hrefF : IsFrame ref := h.ref_isFrame ref (h.refs.mem _ ref href)
    obtain ⟨l₁, l₂, hsplit, hl₁⟩ := h.refs.split href hphys
    have hsearch := h.refs.searchPrev_eq h.ref_isFrame hsplit hl₁ hphys
    have hcount : refCount s.mem ref = g.cnt f := by rw [h.refs.count _ ref href, hphys]
    have hset := h.setCount href hphys (Word.sub_lt 32 (g.cnt f) 1)
    have hphys₁ : ∀ k, ∀ b ∈ g.chains k, refPhysicalAddress (setRefCount s ref (Word.sub 32 (g.cnt f) 1)).mem b
        = refPhysicalAddress s.mem b := fun k b hb => h.refs.phys_setCount h.ref_isFrame href hb
    set s₁ := setRefCount s ref (Word.sub 32 (g.cnt f) 1) with hs₁
    have hentries₁ : ∀ x, Ghost.HasEntry { g with cnt := Function.update g.cnt f (Word.sub 32 (g.cnt f) 1) } s₁.mem x
        ↔ g.HasEntry s.mem x := fun x => iff_of_eq (congrFun (Ghost.hasEntry_congr rfl hphys₁) x)
    obtain ⟨k, rfl⟩ : ∃ k, ref = k + 1 := ⟨ref - 1, by have := hrefF.ne_zero; omega⟩
    have hlt := h.refs.cnt_lt f
    by_cases h1 : g.cnt f = 1
    · -- the last reference
      have hzero : Word.sub 32 (g.cnt f) 1 = 0 := by
        rw [h1]
        rfl
      obtain ⟨hfoot₂, hentries₂, hpages₂⟩ := hset.footing.unlinkRef href ((hphys₁ _ _ href).trans hphys)
        ((Function.update_self _ _ _).trans hzero) hsplit fun b hb =>
          (hphys₁ _ b (hsplit ▸ List.mem_append_left _ hb)).trans_ne (hl₁ b hb)
      set s₂ := Cow.unlinkRef s₁ f (k + 1) (l₁.getLastD 0) with hs₂
      have hfD : f ∈ g.D := hheld h1
      have hrefR := h.refs.mem _ _ href
      have hne : k + 1 ≠ f := fun e => h.rd f hfD (e ▸ hrefR)
      obtain ⟨hfoot₃, -⟩ := hfoot₂.freeData hfree hfD
      have hkeep₃ : ∀ u ∈ g.F, u ≠ f → ∀ x, InPage u x → (free f 0 s₂.toMachine).mem x = s₂.mem x :=
        fun u hu hne x hx => hfree.mem hfoot₂.owns f (h.dF hfD) u hu hne x hx
      obtain ⟨hfoot₄, hkeep₄⟩ := hfoot₃.freeFrame hfree (f := k + 1) ⟨h.rF hrefR, hne⟩
        (fun ht => h.tr _ ht hrefR) (fun hr => hr.2 rfl) fun hd => h.rd _ hd.1 hrefR
      refine Or.inr ⟨_, _, ⟨k + 1, href, hphys⟩, ?_, Or.inr ⟨h1, ⟨hfoot₄, rfl, ?_, fun x => ?_, ?_⟩⟩⟩
      · unfold cowDecrementRef
        simp only [hmask, hsearch, hcount, if_pos hzero, ← hs₁]
        rw [hs₂]
        unfold Cow.unlinkRef
        split_ifs <;> rfl
      · exact congrArg (Function.update g.cnt f) hzero
      · rw [← hentries₁ x, ← hentries₂ x]
        refine iff_of_eq (congrFun (Ghost.hasEntry_congr rfl fun j b hb => ?_) x)
        have hb' : b ∈ g.R \ {k + 1} := hfoot₂.refs.mem j b hb
        have hbf : b ≠ f := fun e => h.rd f hfD (e ▸ hb'.1)
        refine (refFields_congr fun y hy => ?_).1
        exact (hkeep₄ b ⟨h.rF hb'.1, hbf⟩ hb'.2 y hy).trans (hkeep₃ b (h.rF hb'.1) hbf y hy)
      · have hfind := h.refs.findRef h.ref_isFrame f
        refine ⟨k + 1, s₂.toMachine, k.succ_ne_zero, ?_, hpages₂, rfl⟩
        rcases hfind with ⟨-, hnone⟩ | ⟨ref', hmem', hphys', -, hfind⟩
        · exact absurd hphys (hnone _ href)
        · rw [hfind, h.refs.inj _ ref' hmem' _ href (hphys'.trans hphys.symm)]
    · have hnz : Word.sub 32 (g.cnt f) 1 ≠ 0 := by
        rcases Nat.eq_zero_or_pos (g.cnt f) with h0 | hpos
        · rw [h0]
          decide
        · rw [Word.sub_eq hpos hlt]
          omega
      refine Or.inr ⟨s₁, _, ⟨k + 1, href, hphys⟩, ?_, Or.inl ⟨h1, rfl, hset, rfl, fun x => ?_⟩⟩
      · unfold cowDecrementRef
        simp only [hmask, hsearch, hcount, if_neg hnz, ← hs₁]
      · rw [hentries₁ x]
        refine (or_iff_left_of_imp ?_).symm
        rintro rfl
        exact ⟨k + 1, href, hphys⟩
  · refine Or.inl ⟨hentry, ?_⟩
    have hlist := h.refs.list (cowHash f)
    have hlt := hlist.length_lt (n := 2 ^ 64) (fun b hb =>
      lt_of_lt_of_le (h.ref_isFrame b (h.refs.mem _ b hb)).lt (by norm_num)) (Nat.two_pow_pos 64)
    have hsearch : searchPrev (refNext s.mem) (fun b => refPhysicalAddress s.mem b = f) walkBound 0
        (s.hashTable (cowHash f)) = some (_, 0) :=
      searchPrev_none hlist (fun b hb => decide_eq_false fun heq => hentry ⟨b, hb, heq⟩) hlt
    unfold cowDecrementRef
    simp only [hmask, hsearch]

end PrometheusKernel.Cow
