import PrometheusKernel.Slab.Caches

/-!
# What `slab_cache_destroy` gives back

In every run on several caches each cache keeps the invariant of its own run, because the pages of the others
are not touched (`WorldInv.step`). So `slab_cache_destroy` finds every page that was obtained for the cache: the
slabs on its three lists, the array of the CPU cache and its own page, and gives each of them back once
(`destroy_returns`). The next slab of a list is read before its predecessor is given back.

Objects of less than eight bytes are the exception: `slab_create` threads links of eight bytes through them, and
the last link of a slab of three-byte objects runs over the end of the page (`slab_dropped`).
-/

namespace PrometheusKernel.Slab

open ByteMem LinkedList Interleaving

variable {A : Type} {P : Ownership A} {F : Set ℕ} {w w' : World A} {c d : ℕ}

/-! ### The pages of the caches -/

/-- No page is in the books of two caches. -/
structure Books (P : Ownership A) (F : Set ℕ) (w : World A) : Prop where
  list : IsList w.caches.next w.created w.caches.cacheList
  owns : P.Owns w.caches.machine (w.held F)
  fresh : ∀ c ∈ w.created, c ∉ F
  nodup : ∀ c ∈ w.created, (w.obtained c).Nodup
  apart : ∀ c ∈ w.created, ∀ f ∈ w.obtained c, f ∉ w.others F c

/-- The discipline of a cache whose neighbours are not touched. -/
def mine (P : Ownership A) (F : Set ℕ) (w : World A) (c : ℕ) : Ownership (Ledger A) :=
  (P.pinned (w.others F c) w.caches.machine.mem).recorded ∅

/-- The pages held are those of one cache and the others. -/
theorem held_eq (hc : c ∈ w.created) : w.held F = { f | f ∈ w.obtained c } ∪ w.others F c := by
  ext f
  constructor
  · rintro (hf | ⟨d, hd, hf⟩)
    · exact Or.inr (Or.inl hf)
    · rcases List.mem_cons.mp hf with rfl | hf
      · exact Or.inr (Or.inr (Or.inl hd))
      · by_cases hdc : d = c
        · exact Or.inl (hdc ▸ hf)
        · exact Or.inr (Or.inr (Or.inr ⟨d, hd, hdc, hf⟩))
  · rintro (hf | hf | hf | ⟨d, hd, -, hf⟩)
    · exact Or.inr ⟨c, hc, List.mem_cons_of_mem _ hf⟩
    · exact Or.inl hf
    · exact Or.inr ⟨f, hf, List.mem_cons_self⟩
    · exact Or.inr ⟨d, hd, List.mem_cons_of_mem _ hf⟩

/-- A cache owns the pages that it has obtained. -/
theorem Books.owns_mine (h : Books P F w) (hc : c ∈ w.created) :
    (mine P F w c).Owns (w.run c).state.toMachine { f | f ∈ w.obtained c } := by
  refine ⟨⟨?_, h.apart c hc, fun f _ x _ => rfl⟩, ?_, h.nodup c hc, fun f _ => Set.notMem_empty f⟩
  · have howns := h.owns
    rw [held_eq hc] at howns
    exact howns
  · ext f
    exact ⟨Or.inr, fun hf => hf.resolve_left (Set.notMem_empty f)⟩

/-- The books, and the invariant of each cache. -/
structure WorldInv (P : Ownership A) (F : Set ℕ) (w : World A) (g : ℕ → Ghost) : Prop extends Books P F w where
  inv : ∀ c ∈ w.created, Inv (mine P F w c) ∅ (w.caches.cacheAt c).objectsPerSlab
    (w.caches.cacheAt c).objectSize (w.run c) (g c)

/-- The slabs of a cache and its array are the pages that it has taken. -/
theorem frames_obtained {n size : ℕ} {r : Run (Ledger A)} {g : Ghost} (h : Inv (mine P F w c) ∅ n size r g) :
    frames ∅ r.state.cache g = { f | f ∈ r.state.pages.taken } := by
  have hset := h.rep.owns.2.1
  rw [hset]
  ext f
  exact ⟨fun hf => hf.resolve_left (Set.notMem_empty f), Or.inr⟩

/-- A cache that is not touched keeps its invariant. -/
theorem Inv.same {B : Type} {P Q : Ownership B} {n size : ℕ} {r : Run B} {g : Ghost} (h : Inv P F n size r g)
    {M : Machine B} (howns : Q.Owns M (frames F r.state.cache g))
    (hmem : ∀ f ∈ frames F r.state.cache g, ∀ x, InPage f x → M.mem x = r.state.mem x) :
    Inv Q F n size ⟨{ r.state with toMachine := M }, r.live⟩ g :=
  ⟨⟨h.rep.toCore.same howns hmem, h.rep.full, h.rep.part, h.rep.free⟩, h.live, h.counts⟩

/-- A cache that nothing has touched keeps its invariant. -/
theorem WorldInv.keep {g : ℕ → Ghost} (h : WorldInv P F w g) (h' : Books P F w') (hd : d ∈ w.created)
    (hd' : d ∈ w'.created) (hcache : w'.caches.cacheAt d = w.caches.cacheAt d) (hlive : w'.live d = w.live d)
    (hobtained : w'.obtained d = w.obtained d)
    (hmem : ∀ f ∈ w.obtained d, ∀ x, InPage f x → w'.caches.machine.mem x = w.caches.machine.mem x) :
    Inv (mine P F w' d) ∅ (w'.caches.cacheAt d).objectsPerSlab (w'.caches.cacheAt d).objectSize (w'.run d) (g d) := by
  have hinv := h.inv d hd
  have hframes : frames ∅ (w.caches.cacheAt d) (g d) = { f | f ∈ w.obtained d } := frames_obtained hinv
  have howns := h'.owns_mine hd'
  rw [hobtained, ← hframes] at howns
  have hsame := hinv.same howns fun f hf x hx => hmem f ((Set.ext_iff.mp hframes f).mp hf) x hx
  have hrun : w'.run d = ⟨{ (w.run d).state with toMachine := (w'.run d).state.toMachine }, (w.run d).live⟩ := by
    unfold World.run
    rw [hcache, hlive]
  rw [hrun, hcache]
  exact hsame

/-! ### A call on one cache -/

section call

variable {g : ℕ → Ghost} {n size : ℕ} {r : Run (Ledger A)} {g₁ : Ghost}

/-- The other caches are untouched by a call on one. -/
theorem cacheAt_back (hdc : d ≠ c) : (w.back c r).caches.cacheAt d = w.caches.cacheAt d :=
  Function.update_of_ne hdc _ _

/-- The pages of the other caches are untouched by a call on one. -/
theorem obtained_back (hdc : d ≠ c) : (w.back c r).obtained d = w.obtained d := Function.update_of_ne hdc _ _

/-- The pages that others hold are untouched by a call on one. -/
theorem others_back : (w.back c r).others F c = w.others F c := by
  ext f
  unfold World.others World.back
  simp only [Set.mem_ofPred_eq]
  refine or_congr_right (or_congr_right (exists_congr fun d => and_congr_right fun _ => and_congr_right fun hne => ?_))
  rw [Function.update_of_ne hne]

/-- The books are right after a call on one cache. -/
theorem Books.back (h : Books P F w) (hc : c ∈ w.created) (hr : Inv (mine P F w c) ∅ n size r g₁) :
    Books P F (w.back c r) := by
  have hframes := frames_obtained hr
  obtain ⟨⟨howns, hapart, -⟩, -, hnodup, -⟩ := hr.rep.owns
  rw [hframes] at howns hapart
  have hself : (w.back c r).obtained c = r.state.pages.taken := Function.update_self _ _ _
  have hne : ∀ d, d ≠ c → (w.back c r).obtained d = w.obtained d := fun d => obtained_back
  refine ⟨h.list, ?_, h.fresh, fun d hd => ?_, fun d hd f hf => ?_⟩
  · rw [held_eq (w := w.back c r) hc, others_back, hself]
    exact howns
  · by_cases hdc : d = c
    · rw [hdc, hself]
      exact hnodup
    · rw [hne d hdc]
      exact h.nodup d hd
  · by_cases hdc : d = c
    · subst hdc
      rw [others_back]
      rw [hself] at hf
      exact hapart f hf
    · rw [hne d hdc] at hf
      rintro (hin | hin | ⟨e, he, hed, hin⟩)
      · exact h.apart d hd f hf (Or.inl hin)
      · exact h.apart d hd f hf (Or.inr (Or.inl hin))
      · by_cases hec : e = c
        · rw [hec, hself] at hin
          exact hapart f hin (Or.inr (Or.inr ⟨d, hd, hdc, hf⟩))
        · rw [hne e hec] at hin
          exact h.apart d hd f hf (Or.inr (Or.inr ⟨e, he, hed, hin⟩))

/-- The invariant of all caches after a call on one. -/
theorem WorldInv.back (h : WorldInv P F w g) (hc : c ∈ w.created)
    (hr : Inv (mine P F w c) ∅ (w.caches.cacheAt c).objectsPerSlab (w.caches.cacheAt c).objectSize r g₁) :
    WorldInv P F (w.back c r) (Function.update g c g₁) := by
  have hbooks := h.toBooks.back hc hr
  refine ⟨hbooks, fun d hd => ?_⟩
  by_cases hdc : d = c
  · subst hdc
    have howns := hbooks.owns_mine hd
    have hobtained : (w.back d r).obtained d = r.state.pages.taken := Function.update_self _ _ _
    rw [hobtained, ← frames_obtained hr] at howns
    have hsame := hr.same howns fun f _ x _ => rfl
    have hcache : (w.back d r).caches.cacheAt d = r.state.cache := Function.update_self _ _ _
    have hlive : (w.back d r).live d = r.live := Function.update_self _ _ _
    have hrun : (w.back d r).run d
        = ⟨{ r.state with toMachine := ((w.back d r).run d).state.toMachine }, r.live⟩ := by
      unfold World.run
      rw [hcache, hlive]
    rw [hrun, hcache, Function.update_self, hr.rep.objectsPerSlab, hr.rep.objectSize]
    exact hsame
  · rw [Function.update_of_ne hdc]
    refine h.keep hbooks hd hd (cacheAt_back hdc) (Function.update_of_ne hdc _ _) (obtained_back hdc)
      fun f hf x hx => ?_
    obtain ⟨⟨-, -, hpin⟩, -⟩ := hr.rep.owns
    exact hpin f (Or.inr (Or.inr ⟨d, hd, hdc, hf⟩)) x hx

end call

/-! ### A new cache -/

section create

variable {g : ℕ → Ghost} {allocUnmovable : Machine A → ℕ × Machine A} {name size align a : ℕ} {s s' : Caches A}

/-- `slab_cache_create` fails, perhaps after a call of the page allocator, or links a new cache. -/
theorem cacheCreate_cases (h : cacheCreate allocUnmovable s name size align = some (a, s')) :
    (a = 0 ∧ (s' = s ∨ (allocUnmovable s.machine).1 = 0 ∧ s' = { s with machine := (allocUnmovable s.machine).2 })) ∨
      (allocUnmovable s.machine).1 ≠ 0 ∧ a = (allocUnmovable s.machine).1 ∧ s' = {
        machine := (allocUnmovable s.machine).2
        cacheAt := Function.update s.cacheAt a (newCache size align)
        next := Function.update s.next a s.cacheList
        cacheList := a } := by
  unfold cacheCreate slabCacheCreate at h
  dsimp only at h
  by_cases h1 : name = 0
  · simp only [if_pos h1, Option.some.injEq, Prod.mk.injEq] at h
    exact Or.inl ⟨h.1.symm, Or.inl h.2.symm⟩
  by_cases h2 : size = 0
  · simp only [if_neg h1, if_pos h2, Option.some.injEq, Prod.mk.injEq] at h
    exact Or.inl ⟨h.1.symm, Or.inl h.2.symm⟩
  by_cases h3 : size > pageSize
  · simp only [if_neg h1, if_neg h2, if_pos h3, Option.some.injEq, Prod.mk.injEq] at h
    exact Or.inl ⟨h.1.symm, Or.inl h.2.symm⟩
  by_cases h4 : (allocUnmovable s.machine).1 = 0
  · simp only [if_neg h1, if_neg h2, if_neg h3, if_pos h4, Option.some.injEq, Prod.mk.injEq] at h
    exact Or.inl ⟨h.1.symm, Or.inr ⟨h4, h.2.symm⟩⟩
  by_cases h5 : (newCache size align).objectSize = 0
  · simp only [if_neg h1, if_neg h2, if_neg h3, if_neg h4, if_pos h5] at h
    exact absurd h nofun
  · simp only [if_neg h1, if_neg h2, if_neg h3, if_neg h4, if_neg h5, Option.some.injEq, Prod.mk.injEq] at h
    obtain ⟨rfl, rfl⟩ := h
    exact Or.inr ⟨h4, rfl, rfl⟩

/-- A call of the page allocator that hands nothing out. -/
theorem WorldInv.machine (h : WorldInv P F w g) {M : Machine A} (howns : P.Owns M (w.held F))
    (hmem : ∀ f ∈ w.held F, ∀ x, InPage f x → M.mem x = w.caches.machine.mem x) :
    WorldInv P F { w with caches := { w.caches with machine := M } } g := by
  have hbooks : Books P F { w with caches := { w.caches with machine := M } } :=
    ⟨h.list, howns, h.fresh, h.nodup, h.apart⟩
  refine ⟨hbooks, fun d hd => h.keep hbooks hd hd rfl rfl rfl fun f hf x hx => hmem f ?_ x hx⟩
  exact Or.inr ⟨d, hd, List.mem_cons_of_mem _ hf⟩

/-- A new page is no cache. -/
theorem ne_of_notMem_held (ha : a ∉ w.held F) (hd : d ∈ w.created) : d ≠ a :=
  fun heq => ha (Or.inr ⟨d, hd, heq ▸ List.mem_cons_self⟩)

/-- The other caches keep their pages when one is created. -/
theorem obtained_add (ha : a ∉ w.held F) (hd : d ∈ w.created) : (w.add s a).obtained d = w.obtained d :=
  Function.update_of_ne (ne_of_notMem_held ha hd) _ _

/-- A new cache has obtained no page. -/
theorem obtained_add_self : (w.add s a).obtained a = [] := Function.update_self _ _ _

/-- The page of a new cache is held too. -/
theorem held_add (ha : a ∉ w.held F) : (w.add s a).held F = Set.insert a (w.held F) := by
  ext f
  constructor
  · rintro (hf | ⟨d, hd, hf⟩)
    · exact Or.inr (Or.inl hf)
    · unfold World.pagesOf at hf
      rcases List.mem_cons.mp hd with rfl | hd
      · rw [obtained_add_self, List.mem_singleton] at hf
        exact Or.inl hf
      · rw [obtained_add ha hd] at hf
        exact Or.inr (Or.inr ⟨d, hd, hf⟩)
  · rintro (rfl | hf | ⟨d, hd, hf⟩)
    · exact Or.inr ⟨f, List.mem_cons_self, List.mem_cons_self⟩
    · exact Or.inl hf
    · refine Or.inr ⟨d, List.mem_cons_of_mem _ hd, ?_⟩
      unfold World.pagesOf
      rw [obtained_add ha hd]
      exact hf

/-- The books are right after a cache has been created. -/
theorem Books.add (h : Books P F w) (ha : a ∉ w.held F) (howns : P.Owns s.machine (Set.insert a (w.held F)))
    (ha0 : a ≠ 0) (hhead : s.cacheList = a) (hnext : s.next = Function.update w.caches.next a w.caches.cacheList) :
    Books P F (w.add s a) := by
  refine ⟨⟨hhead, ha0, ?_⟩, ?_, fun d hd => ?_, fun d hd => ?_, fun d hd f hf => ?_⟩
  · show IsList s.next w.created (s.next a)
    rw [hnext, Function.update_self]
    exact h.list.congr fun d hd => Function.update_of_ne (ne_of_notMem_held ha hd) _ _
  · rw [held_add ha]
    exact howns
  · rcases List.mem_cons.mp hd with rfl | hd
    · exact fun hin => ha (Or.inl hin)
    · exact h.fresh d hd
  · rcases List.mem_cons.mp hd with rfl | hd
    · rw [obtained_add_self]
      exact List.nodup_nil
    · rw [obtained_add ha hd]
      exact h.nodup d hd
  · rcases List.mem_cons.mp hd with rfl | hdw
    · rw [obtained_add_self] at hf
      exact absurd hf List.not_mem_nil
    · rw [obtained_add ha hdw] at hf
      have hfa : f ≠ a := fun heq => ha (Or.inr ⟨d, hdw, List.mem_cons_of_mem _ (heq ▸ hf)⟩)
      rintro (hin | hin | ⟨e, he, hed, hin⟩)
      · exact h.apart d hdw f hf (Or.inl hin)
      · exact h.apart d hdw f hf (Or.inr (Or.inl ((List.mem_cons.mp hin).resolve_left hfa)))
      · rcases List.mem_cons.mp he with rfl | hew
        · rw [obtained_add_self] at hin
          exact absurd hin List.not_mem_nil
        · rw [obtained_add ha hew] at hin
          exact h.apart d hdw f hf (Or.inr (Or.inr ⟨e, hew, hed, hin⟩))

/-- A new cache is the first of `g_cache_list` and has taken nothing. -/
theorem WorldInv.create (h : WorldInv P F w g) {M : Machine A} (ha : a ∉ w.held F)
    (howns : P.Owns M (Set.insert a (w.held F)))
    (hmem : ∀ f ∈ w.held F, ∀ x, InPage f x → M.mem x = w.caches.machine.mem x)
    (hgeo : Geometry (newCache size align).objectsPerSlab (newCache size align).objectSize) :
    ∃ g', WorldInv P F (w.add {
      machine := M
      cacheAt := Function.update w.caches.cacheAt a (newCache size align)
      next := Function.update w.caches.next a w.caches.cacheList
      cacheList := a } a) g' := by
  set w' := w.add {
    machine := M
    cacheAt := Function.update w.caches.cacheAt a (newCache size align)
    next := Function.update w.caches.next a w.caches.cacheList
    cacheList := a } a
  have hframe : IsFrame a := P.isFrame howns a (Set.mem_insert _ _)
  have hbooks : Books P F w' := h.toBooks.add ha howns hframe.ne_zero rfl rfl
  refine ⟨Function.update g a ⟨fun _ => [], fun _ => 0, fun _ => [], [], []⟩, hbooks, fun d hd => ?_⟩
  rcases List.mem_cons.mp hd with rfl | hd'
  · have hcache : w'.caches.cacheAt d = newCache size align := Function.update_self _ _ _
    have howns' := hbooks.owns_mine hd
    have hset : { f | f ∈ w'.obtained d } = (∅ : Set ℕ) := by
      ext f
      rw [obtained_add_self]
      exact iff_of_false List.not_mem_nil (Set.notMem_empty f)
    rw [hset] at howns'
    have hlive : w'.live d = [] := Function.update_self _ _ _
    have hrun : w'.run d = fresh (w'.run d).state.toMachine size align := by
      unfold World.run fresh
      rw [hcache, hlive]
    rw [hrun, hcache, Function.update_self]
    exact inv_fresh howns' hgeo
  · have hne := ne_of_notMem_held ha hd'
    rw [Function.update_of_ne hne]
    refine h.keep hbooks hd' hd (Function.update_of_ne hne _ _) (Function.update_of_ne hne _ _)
      (obtained_add ha hd') fun f hf x hx => hmem f (Or.inr ⟨d, hd', List.mem_cons_of_mem _ hf⟩) x hx

end create

/-! ### `slab_cache_destroy` -/

section destroy

variable {B : Type} {Q : Ownership B} {freePages : ℕ → ℕ → Machine B → Machine B} {s : Caches B} {X : Set ℕ}
  {g : Ghost}

/-- A loop of `slab_cache_destroy` gives back the slabs of its list, in order. -/
theorem freeSlabs_eq (hfree : Q.Freer fun a => freePages a 0) {l : List ℕ} {head n : ℕ} {M : Machine B}
    (hl : IsList (slabNext M.mem) l head) (howns : Q.Owns M X) (hsub : ∀ a ∈ l, a ∈ X) (hn : l.length < n) :
    freeSlabs freePages n head M = some (l.foldl (fun m a => freePages a 0 m) M) := by
  induction l generalizing head n M X with
  | nil =>
      obtain ⟨k, rfl⟩ : ∃ k, n = k + 1 := ⟨n - 1, by rw [List.length_nil] at hn; omega⟩
      unfold freeSlabs
      rw [if_pos (show head = 0 from hl)]
      rfl
  | cons a l ih =>
      rw [List.length_cons] at hn
      obtain ⟨k, rfl⟩ : ∃ k, n = k + 1 := ⟨n - 1, by omega⟩
      have hnot := (List.nodup_cons.mp hl.nodup).1
      obtain ⟨rfl, h0, hrest⟩ := hl
      have haX := hsub head List.mem_cons_self
      -- the successor was read before the slab is given back
      have hrest' : IsList (slabNext (freePages head 0 M).mem) l (slabNext M.mem head) := by
        refine hrest.congr fun b hb => load_congr fun x hx => ?_
        refine hfree.mem howns head haX b (hsub b (List.mem_cons_of_mem _ hb)) (fun heq => hnot (heq ▸ hb)) x ?_
        exact ⟨hx.1, by have := hx.2; unfold pageSize; omega⟩
      unfold freeSlabs
      rw [if_neg h0]
      refine ih hrest' (hfree.owns howns head haX) (fun b hb => ?_) (by omega)
      exact ⟨hsub b (List.mem_cons_of_mem _ hb), fun heq => hnot (heq ▸ hb)⟩

/-- The cache leaves `g_cache_list`. -/
theorem unlinkCache_spec {L : List ℕ} (hl : IsList s.next L s.cacheList) (hlt : ∀ a ∈ L, a < 2 ^ 64)
    (hc : c ∈ L) : ∃ next head, unlinkCache s c = some { s with next := next, cacheList := head } ∧
      IsList next (L.erase c) head := by
  have hnodup := hl.nodup
  have hlen := hl.length_lt hlt (Nat.two_pow_pos 64)
  obtain ⟨l₁, l₂, rfl⟩ := List.append_of_mem hc
  have hnot : c ∉ l₁ := fun hin => (List.nodup_append.mp hnodup).2.2 c hin c List.mem_cons_self rfl
  have hother : ∀ b ∈ l₁, decide (b = c) = false := fun b hb => decide_eq_false fun heq => hnot (heq ▸ hb)
  have hfound : searchPrev s.next (fun a => decide (a = c)) walkBound 0 s.cacheList = some (l₁.getLastD 0, c) :=
    searchPrev_found hl hother (decide_eq_true rfl) hlen
  have herase : (l₁ ++ c :: l₂).erase c = l₁ ++ l₂ := by
    rw [List.erase_append_right _ hnot, List.erase_cons_head]
  have h0 := hl.ne_zero hc
  unfold unlinkCache
  rw [hfound, herase]
  dsimp only
  rw [if_neg h0]
  rcases List.eq_nil_or_concat l₁ with rfl | ⟨l, b, rfl⟩
  · refine ⟨s.next, s.next c, if_pos rfl, ?_⟩
    obtain ⟨rfl, -, hrest⟩ := hl
    exact hrest
  · rw [List.concat_eq_append] at *
    have hb0 : b ≠ 0 := hl.ne_zero (by simp)
    have hlast : (l ++ [b]).getLastD 0 = b := by simp
    rw [hlast, if_neg hb0]
    refine ⟨Function.update s.next b (s.next c), s.cacheList, rfl, ?_⟩
    have hremove : IsList (Function.update s.next b (s.next c)) (l ++ [b] ++ l₂)
        (if l ++ [b] = [] then s.next c else s.cacheList) :=
      hl.remove fun e _ => by rw [hlast, Function.update_apply]
    rwa [if_neg (by simp)] at hremove

/-- The pages that `slab_cache_destroy` gives back, in its order. -/
def destroyed (g : Ghost) (cache : Cache) (c : ℕ) : List ℕ :=
  g.slabs ++ (if cache.cpuObjects ≠ 0 then [cache.cpuObjects] else []) ++ [c]

/-- `slab_cache_destroy` takes the cache out of the list and gives back its pages. -/
theorem slabCacheDestroy_eq (hfree : Q.Freer fun a => freePages a 0) {L : List ℕ}
    (hl : IsList s.next L s.cacheList) (hc : c ∈ L) (howns : Q.Owns s.machine X)
    (hlists : ∀ p, IsList (slabNext s.machine.mem) (g.slabsAt p) ((s.cacheAt c).head p))
    (hnodup : (destroyed g (s.cacheAt c) c).Nodup) (hsub : ∀ a ∈ destroyed g (s.cacheAt c) c, a ∈ X)
    (hL : ∀ a ∈ L, a ∈ X) :
    ∃ next head, slabCacheDestroy freePages s c = some {
        machine := (destroyed g (s.cacheAt c) c).foldl (fun m a => freePages a 0 m) s.machine
        cacheAt := s.cacheAt
        next := next
        cacheList := head } ∧ IsList next (L.erase c) head := by
  have hlt : ∀ a ∈ X, a < 2 ^ 64 := fun a ha => by
    have := (Q.isFrame howns a ha).lt
    omega
  obtain ⟨next, head, hunlink, herase⟩ := unlinkCache_spec hl (fun a ha => hlt a (hL a ha)) hc
  refine ⟨next, head, ?_, herase⟩
  have hslab : ∀ {p b}, b ∈ g.slabsAt p → b ∈ X := fun hb =>
    hsub _ (List.mem_append_left _ (List.mem_append_left _ (mem_slabs hb)))
  have hslabs : g.slabs.Nodup := (List.nodup_append.mp (List.nodup_append.mp hnodup).1).1
  have hlen : ∀ p, (g.slabsAt p).length < walkBound := fun p =>
    (hlists p).length_lt (fun b hb => hlt b (hslab hb)) (Nat.two_pow_pos 64)
  -- a list is walked when the slabs of `l` are gone
  have hwalk : ∀ (l : List ℕ) (p : Place), l.Nodup → (∀ b ∈ l, b ∈ X) → (∀ b ∈ g.slabsAt p, b ∉ l) →
      freeSlabs freePages walkBound ((s.cacheAt c).head p) (l.foldl (fun m a => freePages a 0 m) s.machine)
        = some ((l ++ g.slabsAt p).foldl (fun m a => freePages a 0 m) s.machine) := by
    intro l p hlnodup hlX hapart
    obtain ⟨howns', hmem⟩ := hfree.foldl howns hlnodup hlX
    have hlist : IsList (slabNext (l.foldl (fun m a => freePages a 0 m) s.machine).mem) (g.slabsAt p)
        ((s.cacheAt c).head p) := by
      refine (hlists p).congr fun b hb => load_congr fun x hx => hmem b (hslab hb) (hapart b hb) x ?_
      exact ⟨hx.1, by have := hx.2; unfold pageSize; omega⟩
    rw [freeSlabs_eq hfree hlist howns' (fun b hb => ⟨hslab hb, hapart b hb⟩) (hlen p), List.foldl_append]
  unfold Ghost.slabs at hslabs
  obtain ⟨hfirst, hfreeNodup, hdisjoint⟩ := List.nodup_append.mp hslabs
  obtain ⟨hfullNodup, -, hdisjoint'⟩ := List.nodup_append.mp hfirst
  have hfull := hwalk [] .full List.nodup_nil (fun b hb => absurd hb List.not_mem_nil)
    fun b _ => List.not_mem_nil
  have hpart := hwalk (g.slabsAt .full) .part hfullNodup (fun b hb => hslab hb)
    fun b hb hin => hdisjoint' b hin b hb rfl
  have hlast := hwalk (g.slabsAt .full ++ g.slabsAt .part) .free hfirst
    (fun b hb => (List.mem_append.mp hb).elim hslab hslab) fun b hb hin => hdisjoint b hin b hb rfl
  unfold slabCacheDestroy
  rw [if_neg (hl.ne_zero hc), hunlink]
  have hfull' : freeSlabs freePages walkBound (s.cacheAt c).slabsFull s.machine = _ := hfull
  have hpart' : freeSlabs freePages walkBound (s.cacheAt c).slabsPartial _ = _ := hpart
  have hlast' : freeSlabs freePages walkBound (s.cacheAt c).slabsFree _ = _ := hlast
  simp only [Option.bind_eq_bind, Option.bind_some, hfull', List.nil_append, hpart', hlast']
  unfold destroyed Ghost.slabs
  by_cases harr : (s.cacheAt c).cpuObjects ≠ 0
  · rw [if_pos harr, if_pos harr]
    simp only [List.foldl_append, List.foldl_cons, List.foldl_nil]
  · rw [if_neg harr, if_neg harr]
    simp only [List.foldl_append, List.foldl_cons, List.foldl_nil, List.append_nil]

end destroy

/-! ### Runs -/

section runs

variable {g : ℕ → Ghost} {allocReclaimable allocUnmovable : Machine A → ℕ × Machine A}
  {freePages : ℕ → ℕ → Machine A → Machine A}

/-- What the destruction of a cache gives back: its pages, and its own. -/
theorem mem_destroyed {cache : Cache} {g : Ghost} {f : ℕ} :
    f ∈ destroyed g cache c ↔ f ∈ frames ∅ cache g ∨ f = c := by
  unfold destroyed frames
  rw [List.mem_append, List.mem_append, List.mem_singleton]
  refine or_congr_left ?_
  by_cases harr : cache.cpuObjects ≠ 0
  · rw [if_pos harr, List.mem_singleton]
    refine ⟨Or.inr ∘ Or.imp_right fun heq => ⟨heq, heq ▸ harr⟩, ?_⟩
    rintro (hf | hf | ⟨heq, -⟩)
    · exact absurd hf (Set.notMem_empty f)
    · exact Or.inl hf
    · exact Or.inr heq
  · rw [if_neg harr]
    refine ⟨fun hf => Or.inr (Or.inl (hf.resolve_right List.not_mem_nil)), ?_⟩
    rintro (hf | hf | ⟨heq, hne⟩)
    · exact absurd hf (Set.notMem_empty f)
    · exact Or.inl hf
    · exact absurd (heq ▸ hne) harr

/-- No page is obtained twice. -/
theorem Books.nodup_pagesOf (h : Books P F w) (hc : c ∈ w.created) : (w.pagesOf c).Nodup :=
  List.nodup_cons.mpr ⟨fun hin => h.apart c hc c hin (Or.inr (Or.inl hc)), h.nodup c hc⟩

/-- What is given back is what was obtained. -/
theorem WorldInv.destroyed_perm (h : WorldInv P F w g) (hc : c ∈ w.created) :
    (destroyed (g c) (w.caches.cacheAt c) c).Nodup ∧
      (destroyed (g c) (w.caches.cacheAt c) c).Perm (w.pagesOf c) := by
  have hinv := h.inv c hc
  have hcore := hinv.rep.toCore
  have hframes : frames ∅ (w.caches.cacheAt c) (g c) = { f | f ∈ w.obtained c } := frames_obtained hinv
  have hnot : c ∉ frames ∅ (w.caches.cacheAt c) (g c) := by
    rw [hframes]
    exact fun hin => h.apart c hc c hin (Or.inr (Or.inl hc))
  have harray : (w.caches.cacheAt c).cpuObjects ∉ (g c).slabs := hcore.array
  have hnodup : (destroyed (g c) (w.caches.cacheAt c) c).Nodup := by
    unfold destroyed
    refine List.Nodup.append (List.Nodup.append hcore.nodup ?_ ?_) (List.nodup_singleton c) ?_
    · split_ifs
      · exact List.nodup_singleton _
      · exact List.nodup_nil
    · split_ifs
      · intro b hb hin
        rw [List.mem_singleton] at hin
        exact harray (hin ▸ hb)
      · exact List.disjoint_nil_right _
    · intro b hb hin
      rw [List.mem_singleton] at hin
      subst hin
      rcases List.mem_append.mp hb with hb | hb
      · exact hnot (Or.inr (Or.inl hb))
      · split_ifs at hb with harr
        · rw [List.mem_singleton] at hb
          exact hnot (Or.inr (Or.inr ⟨hb, hb ▸ harr⟩))
        · exact absurd hb List.not_mem_nil
  refine ⟨hnodup, (List.perm_ext_iff_of_nodup hnodup (h.nodup_pagesOf hc)).mpr fun f => ?_⟩
  rw [mem_destroyed, hframes]
  unfold World.pagesOf
  rw [List.mem_cons]
  exact or_comm

/-- The held frames without those of `c`. -/
theorem Books.held_erase (h : Books P F w) (hc : c ∈ w.created) {s : Caches A} :
    { f | f ∈ w.held F ∧ f ∉ w.pagesOf c }
      = World.held F { w with caches := s, created := w.created.erase c } := by
  have hnodup := h.list.nodup
  ext f
  constructor
  · rintro ⟨hf | ⟨d, hd, hf⟩, hnot⟩
    · exact Or.inl hf
    · have hdc : d ≠ c := fun heq => hnot (heq ▸ hf)
      exact Or.inr ⟨d, (List.mem_erase_of_ne hdc).mpr hd, hf⟩
  · rintro (hf | ⟨d, hd, hf⟩)
    · refine ⟨Or.inl hf, fun hin => ?_⟩
      rcases List.mem_cons.mp hin with rfl | hin
      · exact h.fresh f hc hf
      · exact h.apart c hc f hin (Or.inl hf)
    · obtain ⟨hdc, hdw⟩ := (List.Nodup.mem_erase_iff hnodup).mp hd
      refine ⟨Or.inr ⟨d, hdw, hf⟩, fun hin => ?_⟩
      rcases List.mem_cons.mp hin with hfc | hin
      · rcases List.mem_cons.mp hf with hfd | hf
        · exact hdc (hfd.symm.trans hfc)
        · exact h.apart d hdw f hf (Or.inr (Or.inl (hfc ▸ hc)))
      · rcases List.mem_cons.mp hf with hfd | hf
        · exact h.apart c hc f hin (Or.inr (Or.inl (hfd ▸ hdw)))
        · exact h.apart c hc f hin (Or.inr (Or.inr ⟨d, hdw, hdc, hf⟩))

/-- A page of another cache is none of those that are given back. -/
theorem Books.not_mem_pagesOf (h : Books P F w) (hc : c ∈ w.created) (hd : d ∈ w.created) (hdc : d ≠ c) {f : ℕ}
    (hf : f ∈ w.pagesOf d) : f ∉ w.pagesOf c := by
  have hin : f ∈ World.held F { w with caches := w.caches, created := w.created.erase c } :=
    Or.inr ⟨d, (List.mem_erase_of_ne hdc).mpr hd, hf⟩
  rw [← h.held_erase hc] at hin
  exact hin.2

/-- The destruction of a cache returns, and keeps the invariant of the others. -/
theorem WorldInv.destroy (h : WorldInv P F w g) (hfree : P.Freer fun a => freePages a 0) (hc : c ∈ w.created) :
    ∃ s, slabCacheDestroy freePages w.caches c = some s ∧
      WorldInv P F { w with caches := s, created := w.created.erase c } g := by
  obtain ⟨hnodup, hperm⟩ := h.destroyed_perm hc
  have hsub : ∀ a ∈ destroyed (g c) (w.caches.cacheAt c) c, a ∈ w.held F :=
    fun a ha => Or.inr ⟨c, hc, hperm.mem_iff.mp ha⟩
  have hL : ∀ a ∈ w.created, a ∈ w.held F := fun a ha => Or.inr ⟨a, ha, List.mem_cons_self⟩
  obtain ⟨next, head, hcall, hlist⟩ := slabCacheDestroy_eq hfree h.list hc h.owns (h.inv c hc).rep.lists hnodup hsub hL
  refine ⟨_, hcall, ?_⟩
  obtain ⟨howns, hmem⟩ := hfree.foldl h.owns hnodup hsub
  have hset : { f | f ∈ w.held F ∧ f ∉ destroyed (g c) (w.caches.cacheAt c) c }
      = { f | f ∈ w.held F ∧ f ∉ w.pagesOf c } := by
    ext f
    exact and_congr_right fun _ => not_congr hperm.mem_iff
  have hcreated : ∀ d ∈ w.created.erase c, d ≠ c ∧ d ∈ w.created :=
    fun d hd => (List.Nodup.mem_erase_iff h.list.nodup).mp hd
  rw [hset, h.held_erase hc] at howns
  have hbooks : Books P F { w with
      caches := {
        machine := (destroyed (g c) (w.caches.cacheAt c) c).foldl (fun m a => freePages a 0 m) w.caches.machine
        cacheAt := w.caches.cacheAt
        next := next
        cacheList := head }
      created := w.created.erase c } := by
    refine ⟨hlist, howns, fun d hd => h.fresh d (hcreated d hd).2, fun d hd => h.nodup d (hcreated d hd).2,
      fun d hd f hf => ?_⟩
    rintro (hin | hin | ⟨e, he, hed, hin⟩)
    · exact h.apart d (hcreated d hd).2 f hf (Or.inl hin)
    · exact h.apart d (hcreated d hd).2 f hf (Or.inr (Or.inl (hcreated f hin).2))
    · exact h.apart d (hcreated d hd).2 f hf (Or.inr (Or.inr ⟨e, (hcreated e he).2, hed, hin⟩))
  refine ⟨hbooks, fun d hd => h.keep hbooks (hcreated d hd).2 hd rfl rfl rfl fun f hf x hx => ?_⟩
  have hfd : f ∈ w.pagesOf d := List.mem_cons_of_mem _ hf
  refine hmem f (Or.inr ⟨d, (hcreated d hd).2, hfd⟩) (fun hin => ?_) x hx
  exact h.not_mem_pagesOf hc (hcreated d hd).2 (hcreated d hd).1 hfd (hperm.mem_iff.mp hin)

/-- Every call on caches whose objects hold a link and fit into a page keeps the invariant. -/
theorem WorldInv.step (h : WorldInv P F w g) (hR : P.Allocator allocReclaimable) (hU : P.Allocator allocUnmovable)
    (hfree : P.Freer fun a => freePages a 0) {op : CacheOp} (hv : ValidCall w op) (hsized : Sized op)
    (hstep : cacheStep allocReclaimable allocUnmovable freePages w op = some w') : ∃ g', WorldInv P F w' g' := by
  cases op with
  | create name size align =>
      unfold cacheStep at hstep
      obtain ⟨⟨a, s⟩, hcall, rfl⟩ := Option.map_eq_some_iff.mp hstep
      rcases cacheCreate_cases hcall with ⟨rfl, rfl | ⟨hzero, rfl⟩⟩ | ⟨hne, rfl, rfl⟩
      · exact ⟨g, h⟩
      · rw [if_pos rfl]
        exact ⟨g, h.machine (hU.fail h.owns hzero) (hU.mem h.owns)⟩
      · rw [if_neg hne]
        exact h.create (hU.fresh h.owns hne) (hU.owns h.owns hne) (hU.mem h.owns) (geometry_newCache hsized.1 hsized.2)
  | on c op =>
      unfold cacheStep at hstep
      obtain ⟨r, hcall, rfl⟩ := Option.map_eq_some_iff.mp hstep
      rcases (h.inv c hv.1).step hR.pinned.recorded hU.pinned.recorded hv.2 with ⟨hnone, -⟩ | ⟨r', g', hr', h', -⟩
      · exact absurd (hnone.symm.trans hcall) nofun
      · obtain rfl := Option.some.inj (hr'.symm.trans hcall)
        exact ⟨_, h.back hv.1 h'⟩
  | destroy c =>
      unfold cacheStep at hstep
      obtain ⟨s, hcall, h'⟩ := h.destroy hfree hv
      obtain ⟨s', hcall', rfl⟩ := Option.map_eq_some_iff.mp hstep
      obtain rfl := Option.some.inj (hcall.symm.trans hcall')
      exact ⟨g, h'⟩

/-- Without caches there is nothing to keep. -/
theorem worldInv_boot {s : Caches A} (hM : P.Owns s.machine F) (g : ℕ → Ghost) :
    WorldInv P F (World.boot s) g := by
  have hset : (World.boot s).held F = F := by
    ext f
    refine ⟨fun hf => hf.resolve_right ?_, Or.inl⟩
    rintro ⟨d, hd, -⟩
    exact absurd hd List.not_mem_nil
  refine ⟨⟨rfl, ?_, fun d hd => absurd hd List.not_mem_nil, fun d hd => absurd hd List.not_mem_nil,
    fun d hd => absurd hd List.not_mem_nil⟩, fun d hd => absurd hd List.not_mem_nil⟩
  rw [hset]
  exact hM

/-- `s` is what `slab_cache_destroy(c)` leaves: it gave back the pages that were obtained for `c`, each once and
with order 0, and took `c` out of `g_cache_list`; the other caches and their pages are as they were. -/
structure Returned (w : World A) (c : ℕ) (s : Caches (Ledger A)) : Prop where
  freed : s.machine.pages.freed.Perm ((w.pagesOf c).map fun f => (f, 0))
  once : (w.pagesOf c).Nodup
  before : IsList w.caches.next w.created w.caches.cacheList
  list : IsList s.next (w.created.erase c) s.cacheList
  cacheAt : ∀ d ∈ w.created, d ≠ c → s.cacheAt d = w.caches.cacheAt d
  mem : ∀ d ∈ w.created, d ≠ c → ∀ f ∈ w.pagesOf d, ∀ x, InPage f x → s.machine.mem x = w.caches.machine.mem x

/-- What the destruction of a cache gives back. -/
theorem WorldInv.returned (h : WorldInv P F w g) (hfree : P.Freer fun a => freePages a 0) (hc : c ∈ w.created) :
    ∃ s, slabCacheDestroy (Ledger.free freePages) w.recorded c = some s ∧ Returned w c s := by
  obtain ⟨hnodup, hperm⟩ := h.destroyed_perm hc
  have hsub : ∀ a ∈ destroyed (g c) (w.caches.cacheAt c) c, a ∈ w.held F :=
    fun a ha => Or.inr ⟨c, hc, hperm.mem_iff.mp ha⟩
  have howns : P.ledger.Owns w.recorded.machine (w.held F) := h.owns
  obtain ⟨next, head, hcall, hlist⟩ := slabCacheDestroy_eq hfree.ledger h.list hc howns (h.inv c hc).rep.lists
    hnodup hsub fun a ha => Or.inr ⟨a, ha, List.mem_cons_self⟩
  refine ⟨_, hcall, ?_, h.nodup_pagesOf hc, h.list, hlist, fun d _ _ => rfl, fun d hd hdc f hf x hx => ?_⟩
  · have hfreed := Ledger.freed_foldl_free freePages 0 (destroyed (g c) (w.caches.cacheAt c) c) w.recorded.machine
    have hempty : w.recorded.machine.pages.freed = [] := rfl
    rw [hempty, List.append_nil] at hfreed
    have hreverse := (List.reverse_perm ((destroyed (g c) (w.caches.cacheAt c) c).map fun f => (f, 0))).trans
      (hperm.map _)
    rw [← hfreed] at hreverse
    exact hreverse
  · refine (hfree.ledger.foldl howns hnodup hsub).2 f (Or.inr ⟨d, hd, hf⟩) (fun hin => ?_) x hx
    exact h.not_mem_pagesOf hc hd hdc hf (hperm.mem_iff.mp hin)

/-- After every run on caches whose objects hold a link and fit into a page, `slab_cache_destroy` returns exactly
the pages of its cache. -/
theorem destroy_returns (P : Ownership A) (hR : P.Allocator allocReclaimable) (hU : P.Allocator allocUnmovable)
    (hfree : P.Freer fun a => freePages a 0) {s₀ : Caches A} (hM : P.Owns s₀.machine F) (ops : List CacheOp)
    (hv : Guarded (cacheStep allocReclaimable allocUnmovable freePages) (fun w op => ValidCall w op ∧ Sized op)
      (World.boot s₀) ops) (w : World A)
    (hexec : exec (cacheStep allocReclaimable allocUnmovable freePages) (World.boot s₀) ops = some w) (c : ℕ)
    (hc : c ∈ w.created) :
    ∃ s, slabCacheDestroy (Ledger.free freePages) w.recorded c = some s ∧ Returned w c s := by
  obtain ⟨g, h⟩ := invariant (I := fun w => ∃ g, WorldInv P F w g) (fun w op w' ⟨g, h⟩ hok hstep =>
    h.step hR hU hfree hok.1 hok.2 hstep)
    ⟨fun _ => ⟨fun _ => [], fun _ => 0, fun _ => [], [], []⟩, worldInv_boot hM _⟩ hv hexec
  exact h.returned hfree hc

end runs

/-! ### Objects of three bytes -/

section narrow

variable {alloc : Machine A → ℕ × Machine A} {s : State A} {a : ℕ}

/-- The last iteration of the loop of `slab_create`. -/
theorem threadObjects_concat (base size n i : ℕ) (m : Mem) :
    threadObjects a base size (n + 1) i m =
      setFreeList (setLink (threadObjects a base size n i m) (base + (i + n) * size)
        (freeList (threadObjects a base size n i m) a)) a (base + (i + n) * size) := by
  induction n generalizing i m with
  | zero => rfl
  | succ n ih =>
      rw [threadObjects, ih, show i + 1 + n = i + (n + 1) by omega]
      rfl

/-- The loop writes no link behind the last. -/
theorem threadObjects_of_ge {base size k i x : ℕ} {m : Mem} (hx : a + 16 ≤ x)
    (hlast : base + (i + k) * size + 8 ≤ x + size) :
    threadObjects a base size k i m x = m x := by
  induction k generalizing i m with
  | zero => rfl
  | succ k ih =>
      have hobj : (i + 1) * size ≤ (i + (k + 1)) * size := Nat.mul_le_mul_right size (by omega)
      rw [Nat.add_mul, Nat.one_mul] at hobj
      rw [threadObjects, ih (by rw [show i + 1 + k = i + (k + 1) by omega]; exact hlast)]
      unfold setFreeList setLink
      simp (disch := omega) only [store_apply_of_lt_or_le]

/-- Taking an object from the first partial slab writes into its header. -/
theorem slabTake_frame {s : State A} (ha : s.cache.slabsPartial = a) :
    ∃ o s', slabTake s a = some (o, s') ∧ ∀ x, a + 20 ≤ x → s'.mem x = s.mem x := by
  have halloc : ∀ x, a + 20 ≤ x → (slabAllocFromSlab s.mem a).2 x = s.mem x := by
    intro x hx
    unfold slabAllocFromSlab
    split_ifs
    · rfl
    · unfold setInUse setFreeList
      simp (disch := omega) only [store_apply_of_lt_or_le]
  unfold slabTake
  dsimp only
  split_ifs
  · unfold slabMoveToList
    rw [if_pos ha]
    refine ⟨_, _, rfl, fun x hx => ?_⟩
    rw [← halloc x hx]
    unfold setNext
    exact store_apply_of_lt_or_le (Or.inr (by omega))
  · exact ⟨_, _, rfl, halloc⟩

/-- The first slab of a cache of three-byte objects clears the three bytes behind its page. -/
theorem slabAlloc_overruns (hempty : s.cache = newCache 3 1) (ha : (alloc s.toMachine).1 = a) (h0 : a ≠ 0)
    (hlt : a + 4096 < 2 ^ 40) :
    ∃ o s', slabAlloc alloc s = some (o, s') ∧ ∀ x, a + 4096 ≤ x →
      s'.mem x = if x < a + 4099 then 0 else (alloc s.toMachine).2.mem x := by
  have hslack : slack s.cache ≠ 0 := by
    rw [hempty]
    decide
  have hbase : a + slabHeaderSize + colorOffset s.cache = a + 32 := by
    rw [hempty]
    rfl
  obtain ⟨k, hcount, hk⟩ : ∃ k, s.cache.objectsPerSlab = k + 1 + 1 ∧ k = 1352 := by
    refine ⟨1352, ?_, rfl⟩
    rw [hempty]
    decide
  have hsize : s.cache.objectSize = 3 := by
    rw [hempty]
    decide
  have hcreate := slabCreate_eq s (show (alloc s.toMachine).1 ≠ 0 from ha ▸ h0)
  rw [if_neg hslack, ha] at hcreate
  dsimp only at hcreate
  rw [hbase, hcount, hsize] at hcreate
  obtain ⟨m, hm⟩ : ∃ m, setFreeList (setObjects (setTotalObjects (setInUse (setNext (alloc s.toMachine).2.mem a 0) a 0)
      a (k + 1 + 1)) a (a + 32)) a 0 = m := ⟨_, rfl⟩
  rw [hm] at hcreate
  have hkeep : ∀ x, a + 4096 ≤ x → m x = (alloc s.toMachine).2.mem x := by
    intro x hx
    rw [← hm]
    unfold setFreeList setObjects setTotalObjects setInUse setNext
    simp (disch := omega) only [store_apply_of_lt_or_le]
  obtain ⟨s₁, hs₁, hmem⟩ : ∃ s₁, slabCreate alloc s = some (a, s₁) ∧
      s₁.mem = threadObjects a (a + 32) 3 (k + 1 + 1) 0 m := ⟨_, hcreate, rfl⟩
  obtain ⟨o, s₂, htake, hframe⟩ := slabTake_frame (s := pushPartial s₁ a) (a := a) rfl
  have hslow : slabAllocSlow alloc s = some (o, s₂) := by
    unfold slabAllocSlow
    rw [if_neg (show ¬ s.cache.slabsPartial ≠ 0 by rw [hempty]; exact not_not.mpr rfl)]
    dsimp only
    rw [if_neg (show ¬ s.cache.slabsFree ≠ 0 by rw [hempty]; exact not_not.mpr rfl), hs₁]
    dsimp only
    rw [if_pos h0, htake]
  have hcall : slabAlloc alloc s = some (o, if o ≠ 0 then countAllocation s₂ else s₂) := by
    unfold slabAlloc
    rw [if_neg (show ¬ s.cache.available > 0 by rw [hempty]; exact Nat.lt_irrefl 0), hslow]
  refine ⟨o, _, hcall, fun x hx => ?_⟩
  have hend : (if o ≠ 0 then countAllocation s₂ else s₂).mem x = s₂.mem x := by
    split_ifs <;> rfl
  have hpush : (pushPartial s₁ a).mem x = s₁.mem x := by
    unfold pushPartial setNext
    exact store_apply_of_lt_or_le (Or.inr (by omega))
  -- the last link starts five bytes before the end of the page
  rw [hend, hframe x (by omega), hpush, hmem, threadObjects_concat, freeList_threadObjects (by omega)]
  unfold setFreeList setLink
  rw [store_apply_of_lt_or_le (by omega)]
  by_cases hlast : x < a + 4099
  · rw [if_pos hlast]
    obtain ⟨i, hi, rfl⟩ : ∃ i, i < 8 ∧ x = a + 32 + (0 + (k + 1)) * 3 + i :=
      ⟨x - (a + 32 + (0 + (k + 1)) * 3), by omega, by omega⟩
    rw [store_apply_add hi]
    have hpow : 256 ^ 5 ≤ 256 ^ i := Nat.pow_le_pow_right (by norm_num) (by omega)
    rw [Nat.div_eq_of_lt (by omega)]
    rfl
  · rw [if_neg hlast, store_apply_of_lt_or_le (by omega), threadObjects_of_ge (by omega) (by omega)]
    exact hkeep x hx

/-- A cache whose full list ends after its first slab. -/
theorem slabCacheDestroy_single {freePages : ℕ → ℕ → Machine A → Machine A} {s : Caches (Ledger A)}
    (hlist : s.cacheList = c) (hc : c ≠ 0) (hfull : (s.cacheAt c).slabsFull = a) (ha : a ≠ 0)
    (hnext : slabNext s.machine.mem a = 0) (hpart : (s.cacheAt c).slabsPartial = 0)
    (hfree : (s.cacheAt c).slabsFree = 0) (harr : (s.cacheAt c).cpuObjects = 0) :
    ∃ s', slabCacheDestroy (Ledger.free freePages) s c = some s' ∧
      s'.machine.pages.freed = (c, 0) :: (a, 0) :: s.machine.pages.freed := by
  obtain ⟨k, hk⟩ : ∃ k, walkBound = k + 1 + 1 := ⟨2 ^ 64 - 2, by unfold walkBound; norm_num⟩
  have hunlink : unlinkCache s c = some { s with cacheList := s.next c } := by
    unfold unlinkCache
    rw [hk, hlist, searchPrev, if_neg hc, if_pos (decide_eq_true rfl)]
    dsimp only
    rw [if_neg hc, if_pos rfl]
  have hone : freeSlabs (Ledger.free freePages) walkBound a s.machine
      = some (Ledger.free freePages a 0 s.machine) := by
    rw [hk, freeSlabs, if_neg ha, hnext, freeSlabs, if_pos rfl]
  have hnone : ∀ m : Machine (Ledger A), freeSlabs (Ledger.free freePages) walkBound 0 m = some m := by
    intro m
    rw [hk, freeSlabs, if_pos rfl]
  unfold slabCacheDestroy
  rw [if_neg hc, hunlink]
  simp only [Option.bind_eq_bind, Option.bind_some, hfull, hpart, hfree, harr, hone, hnone]
  exact ⟨_, rfl, rfl⟩

end narrow

/-! ### Samples on the real page allocator -/

/-- Sixteen pages and no cache. -/
def sixteenPages : World Pmm.PmmGlobals :=
  World.boot ⟨Pmm.booted (fun _ => 0) 0x1000 0x10000, fun _ => newCache 8 8, fun _ => 0, 0⟩

/-- A call on one of the caches. -/
def kernelStep : World Pmm.PmmGlobals → CacheOp → Option (World Pmm.PmmGlobals) :=
  cacheStep Pmm.buddyFrame Pmm.buddyFrame fun a _ => Pmm.buddyRelease a

/-- A test for the calls of the samples. -/
def validCall (w : World Pmm.PmmGlobals) : CacheOp → Bool
  | .create _ _ _ => true
  | .on c .alloc => decide (c ∈ w.created)
  | .on _ _ => false
  | .destroy c => decide (c ∈ w.created)

/-- The test of a call is sound. -/
theorem valid_of_validCall {w : World Pmm.PmmGlobals} {op : CacheOp} (h : validCall w op = true) :
    ValidCall w op := by
  cases op with
  | create name size align => trivial
  | on c op =>
      cases op with
      | alloc => exact ⟨of_decide_eq_true h, trivial⟩
      | free obj => exact absurd h Bool.false_ne_true
      | write addr byte => exact absurd h Bool.false_ne_true
  | destroy c => exact of_decide_eq_true (p := c ∈ w.created) h

instance : DecidablePred Sized
  | .create _ size align => inferInstanceAs (Decidable (8 ≤ (newCache size align).objectSize ∧
      slabHeaderSize + (newCache size align).objectSize ≤ pageSize))
  | .on _ _ => inferInstanceAs (Decidable True)
  | .destroy _ => inferInstanceAs (Decidable True)

/-- Two caches with live objects; the older one is destroyed. -/
theorem destroy_returns_buddy :
    ∃ w, exec kernelStep sixteenPages
        [.create 1 64 8, .create 1 4000 8, .on 0x1000 .alloc, .on 0x2000 .alloc, .on 0x1000 .alloc] = some w ∧
      ∃ s, slabCacheDestroy (Ledger.free fun a _ => Pmm.buddyRelease a) w.recorded 0x1000 = some s ∧
        Returned w 0x1000 s := by
  have hu : Buddy.Usable 0x1000 0x10000 := ⟨by norm_num, rfl, by norm_num⟩
  have hend : ((exec kernelStep sixteenPages
      [.create 1 64 8, .create 1 4000 8, .on 0x1000 .alloc, .on 0x2000 .alloc, .on 0x1000 .alloc]).map
        fun w => decide (0x1000 ∈ w.created)) = some true := by
    decide +kernel
  obtain ⟨w, hexec, hmem⟩ := Option.map_eq_some_iff.mp hend
  have hguard : guardedBy kernelStep (fun w op => validCall w op && decide (Sized op)) sixteenPages
      [.create 1 64 8, .create 1 4000 8, .on 0x1000 .alloc, .on 0x2000 .alloc, .on 0x1000 .alloc] = true := by
    decide +kernel
  refine ⟨w, hexec, destroy_returns (Pmm.source hu) (Pmm.buddyFrame_allocator hu) (Pmm.buddyFrame_allocator hu)
    (Pmm.buddyRelease_freer hu) (Pmm.owns_booted hu _) _ (guarded_of_guardedBy (fun w op hok => ?_) hguard) w hexec
    0x1000 (of_decide_eq_true hmem)⟩
  rw [Bool.and_eq_true] at hok
  exact ⟨valid_of_validCall hok.1, of_decide_eq_true hok.2⟩

/-- The calls of `slab_dropped` but for the last: the first cache has objects of three bytes, the second two
slabs, and the page in front of the second of them is free again. -/
def beforeOverrun : List CacheOp :=
  [.create 1 3 1, .create 1 4000 8, .on 0x2000 .alloc, .create 1 64 8, .on 0x2000 .alloc, .destroy 0x4000]

/-- A slab of three-byte objects clears the `next` of the slab behind it, and `slab_cache_destroy` does not find
the slab that it led to. -/
theorem slab_dropped :
    ¬ ∀ (ops : List CacheOp) (w : World Pmm.PmmGlobals), Guarded kernelStep ValidCall sixteenPages ops →
      exec kernelStep sixteenPages ops = some w → ∀ c ∈ w.created,
        ∃ s, slabCacheDestroy (Ledger.free fun a _ => Pmm.buddyRelease a) w.recorded c = some s ∧
          Returned w c s := by
  intro hall
  have hguard : guardedBy kernelStep validCall sixteenPages beforeOverrun = true := by decide +kernel
  have hlists : (exec kernelStep sixteenPages beforeOverrun).map (fun w => (w.created, w.obtained 0x2000,
      (w.caches.cacheAt 0x2000).slabsFull, (w.caches.cacheAt 0x2000).slabsPartial,
      (w.caches.cacheAt 0x2000).slabsFree, (w.caches.cacheAt 0x2000).cpuObjects))
        = some ([0x2000, 0x1000], [0x5000, 0x3000], 0x5000, 0, 0, 0) := by
    decide +kernel
  have hnext : (exec kernelStep sixteenPages beforeOverrun).map (fun w =>
      ((Ledger.alloc Pmm.buddyFrame (w.run 0x1000).state.toMachine).1, w.caches.cacheList,
        (List.range 5).map fun i => (Ledger.alloc Pmm.buddyFrame (w.run 0x1000).state.toMachine).2.mem (0x5003 + i)))
        = some (0x4000, 0x2000, [0, 0, 0, 0, 0]) := by
    decide +kernel
  have hcache : (exec kernelStep sixteenPages beforeOverrun).map (fun w => w.caches.cacheAt 0x1000)
      = some (newCache 3 1) := by
    decide +kernel
  obtain ⟨w, hexec, hw⟩ := Option.map_eq_some_iff.mp hlists
  rw [hexec, Option.map_some, Option.some.injEq] at hnext hcache
  obtain ⟨hcreated, hobtained, hfull, hpart, hfree, harr⟩ : w.created = [0x2000, 0x1000] ∧
      w.obtained 0x2000 = [0x5000, 0x3000] ∧ (w.caches.cacheAt 0x2000).slabsFull = 0x5000 ∧
      (w.caches.cacheAt 0x2000).slabsPartial = 0 ∧ (w.caches.cacheAt 0x2000).slabsFree = 0 ∧
      (w.caches.cacheAt 0x2000).cpuObjects = 0 := by
    simpa only [Prod.mk.injEq] using hw
  obtain ⟨hpage, hlist, hbytes⟩ : _ ∧ w.caches.cacheList = 0x2000 ∧ _ := by
    simpa only [Prod.mk.injEq] using hnext
  obtain ⟨o, s', hcall, hmem⟩ := slabAlloc_overruns (s := (w.run 0x1000).state) hcache hpage (by norm_num)
    (by norm_num)
  obtain ⟨r, hr, hstate⟩ : ∃ r, step (Ledger.alloc Pmm.buddyFrame) (Ledger.alloc Pmm.buddyFrame) (w.run 0x1000) .alloc
      = some r ∧ r.state = s' := by
    unfold step
    dsimp only
    rw [hcall]
    exact ⟨_, rfl, rfl⟩
  have hlast : kernelStep w (.on 0x1000 .alloc) = some (w.back 0x1000 r) := by
    unfold kernelStep cacheStep
    dsimp only
    rw [hr, Option.map_some]
  have hrun : exec kernelStep sixteenPages (beforeOverrun ++ [.on 0x1000 .alloc]) = some (w.back 0x1000 r) :=
    (exec_concat hexec).trans hlast
  have hvalid : Guarded kernelStep ValidCall sixteenPages (beforeOverrun ++ [.on 0x1000 .alloc]) := by
    refine guarded_concat.mpr ⟨guarded_of_guardedBy (fun w op => valid_of_validCall) hguard, fun w' hw' => ?_⟩
    obtain rfl := Option.some.inj (hexec.symm.trans hw')
    exact ⟨by rw [hcreated]; decide, trivial⟩
  have hne : 0x2000 ≠ 0x1000 := by norm_num
  have hkeep : (w.back 0x1000 r).caches.cacheAt 0x2000 = w.caches.cacheAt 0x2000 := cacheAt_back hne
  have hpages : (w.back 0x1000 r).obtained 0x2000 = w.obtained 0x2000 := obtained_back hne
  have hcleared : slabNext (w.back 0x1000 r).caches.machine.mem 0x5000 = 0 := by
    refine load_zero_of_zero fun x h1 h2 => ?_
    show r.state.mem x = 0
    rw [hstate, hmem x (by omega)]
    by_cases hx : x < 0x4000 + 4099
    · rw [if_pos hx]
    · rw [if_neg hx]
      have hzero : ∀ i < 5, (Ledger.alloc Pmm.buddyFrame (w.run 0x1000).state.toMachine).2.mem (0x5003 + i) = 0 := by
        intro i hi
        have hin := List.mem_map_of_mem (f := fun i =>
          (Ledger.alloc Pmm.buddyFrame (w.run 0x1000).state.toMachine).2.mem (0x5003 + i)) (List.mem_range.mpr hi)
        rw [hbytes] at hin
        simpa using hin
      have hlow := hzero (x - 0x5003) (by omega)
      rwa [show 0x5003 + (x - 0x5003) = x by omega] at hlow
  obtain ⟨s₁, hdestroy, hreturned⟩ := hall _ _ hvalid hrun 0x2000 (by
    show 0x2000 ∈ w.created
    rw [hcreated]
    decide)
  obtain ⟨s₂, hsingle, hfreed⟩ : ∃ s₂, slabCacheDestroy (Ledger.free fun a _ => Pmm.buddyRelease a)
      (w.back 0x1000 r).recorded 0x2000 = some s₂ ∧ s₂.machine.pages.freed = [(0x2000, 0), (0x5000, 0)] :=
    slabCacheDestroy_single hlist (by norm_num) ((congrArg Cache.slabsFull hkeep).trans hfull) (by norm_num) hcleared
    ((congrArg Cache.slabsPartial hkeep).trans hpart) ((congrArg Cache.slabsFree hkeep).trans hfree)
    ((congrArg Cache.cpuObjects hkeep).trans harr)
  obtain rfl := Option.some.inj (hsingle.symm.trans hdestroy)
  have hlength := hreturned.freed.length_eq
  unfold World.pagesOf at hlength
  rw [hfreed, hpages, hobtained] at hlength
  exact absurd hlength (by decide)

end PrometheusKernel.Slab
