import PrometheusKernel.Slab.Rep

/-!
# The moves of the slab allocator

Every path of `slab_alloc` and `slab_free` is made of four moves: an object leaves the free list of its slab
(`Core.take`) or comes back to it (`Core.give`), a slab goes from one list to another (`Core.move`), and a
new slab comes in (`Core.create`). Each keeps `Core`; `perm` follows by counting.
-/

namespace PrometheusKernel.Slab

open ByteMem LinkedList

variable {A : Type} {P : Ownership A} {F : Set ℕ} {n size : ℕ} {s : State A} {g : Ghost} {a o : ℕ}

/-! ### Facts -/

/-- A slab is a page. -/
theorem Core.isFrame (h : Core P F n size s g) (ha : a ∈ g.slabs) : IsFrame a :=
  P.isFrame h.owns a (Or.inr (Or.inl ha))

/-- The array is a page. -/
theorem Core.array_isFrame (h : Core P F n size s g) (h0 : s.cache.cpuObjects ≠ 0) :
    IsFrame s.cache.cpuObjects :=
  P.isFrame h.owns _ (Or.inr (Or.inr ⟨rfl, h0⟩))

/-- Different slabs do not overlap. -/
theorem Core.apart (h : Core P F n size s g) {b : ℕ} (ha : a ∈ g.slabs) (hb : b ∈ g.slabs) (hne : a ≠ b) :
    a + 4096 ≤ b ∨ b + 4096 ≤ a :=
  (h.isFrame ha).apart (h.isFrame hb) hne

/-- The array overlaps no slab. -/
theorem Core.array_apart (h : Core P F n size s g) (ha : a ∈ g.slabs) (h0 : s.cache.cpuObjects ≠ 0) :
    a + 4096 ≤ s.cache.cpuObjects ∨ s.cache.cpuObjects + 4096 ≤ a :=
  (h.isFrame ha).apart (h.array_isFrame h0) fun heq => h.array (heq ▸ ha)

/-- The bytes of the stack lie in the page of the array. -/
theorem Core.stack_bytes (h : Core P F n size s g) {x : ℕ} (h1 : s.cache.cpuObjects ≤ x)
    (h2 : x < s.cache.cpuObjects + 8 * g.cpu.length) :
    s.cache.cpuObjects ≠ 0 ∧ x < s.cache.cpuObjects + 4096 := by
  have hlen := h.bounded
  unfold slabCpuCacheSize at hlen
  refine ⟨h.stackSome ?_, by omega⟩
  intro hnil
  rw [hnil] at h2
  simp only [List.length_nil] at h2
  omega

/-- The objects of a cache are those of its slabs. -/
theorem mem_objects {g : Ghost} : o ∈ g.objects n size ↔ ∃ a ∈ g.slabs, o ∈ objectsFrom n size (g.base a) := by
  unfold Ghost.objects
  rw [List.mem_flatMap]

/-- The free objects of a cache are those of its slabs. -/
theorem mem_freed {g : Ghost} : o ∈ g.freed ↔ ∃ a ∈ g.slabs, o ∈ g.freeOf a := by
  unfold Ghost.freed
  rw [List.mem_flatMap]

/-- No two objects are the same. -/
theorem Core.nodup_objects (h : Core P F n size s g) : (g.objects n size).Nodup := by
  have hsize := h.geometry.wide
  refine List.nodup_flatMap.mpr ⟨fun a _ => nodup_objectsFrom (by omega), h.nodup.imp_of_mem ?_⟩
  intro a b ha hb hne o hoa hob
  have h1 := (h.slab a ha).bounds hoa
  have h2 := (h.slab b hb).bounds hob
  have h3 := h.apart ha hb hne
  omega

/-- Every object is in one place only. -/
theorem Core.nodup_places (h : Core P F n size s g) : (g.live ++ g.cpu ++ g.freed).Nodup :=
  h.perm.nodup_iff.mpr h.nodup_objects

/-- A live object lies in a slab. -/
theorem Core.live_object (h : Core P F n size s g) (ho : o ∈ g.live) :
    ∃ a ∈ g.slabs, o ∈ objectsFrom n size (g.base a) :=
  mem_objects.mp (h.perm.subset (List.mem_append_left _ (List.mem_append_left _ ho)))

/-- A live object is not free. -/
theorem Core.live_not_freed (h : Core P F n size s g) (ho : o ∈ g.live) : o ∉ g.freed :=
  fun hf => (List.nodup_append.mp h.nodup_places).2.2 o (List.mem_append_left _ ho) o hf rfl

/-! ### Frames -/

/-- A slab changes. -/
theorem Core.change (h : Core P F n size s g) (ha : a ∈ g.slabs) {m' : Mem} {fr live : List ℕ}
    (hrep : SlabRep m' n size (g.base a) fr a) (hnext : ∀ x, a ≤ x → x < a + 8 → m' x = s.mem x)
    (hout : ∀ x, x < a ∨ a + 4096 ≤ x → m' x = s.mem x)
    (hperm : (live ++ g.cpu ++ { g with freeOf := Function.update g.freeOf a fr }.freed).Perm
      (g.objects n size)) :
    Core P F n size { s with mem := m' } { g with freeOf := Function.update g.freeOf a fr, live := live } := by
  refine ⟨h.geometry, h.objectSize, h.objectsPerSlab, h.limit, ?_, fun p => ?_, h.nodup, h.fresh,
    fun b hb => ?_, hperm, h.array, ?_, h.stackSome, h.available, h.bounded⟩
  · refine P.write h.owns m' fun x hx => hout x ?_
    have hin := hx a (Or.inr (Or.inl ha))
    unfold InPage pageSize at hin
    omega
  · refine (h.lists p).congr fun b hb => load_congr fun x hx => ?_
    obtain ⟨h1, h2⟩ := hx
    by_cases hba : b = a
    · subst hba
      exact hnext x h1 h2
    · have hbs : b ∈ g.slabs := by
        unfold Ghost.slabs
        cases p <;> simp [hb]
      have := h.apart hbs ha hba
      exact hout x (by omega)
  · dsimp only
    by_cases hba : b = a
    · subst hba
      rw [Function.update_self]
      exact hrep
    · rw [Function.update_of_ne hba]
      have hbs : b ∈ g.slabs := hb
      have hap := h.apart hbs ha hba
      have hwide := h.geometry.wide
      refine (h.slab b hbs).congr (fun x h1 h2 => hout x (by omega)) fun o ho x h1 h2 => hout x ?_
      have hbo := (h.slab b hbs).bounds ((h.slab b hbs).sub o ho)
      omega
  · refine h.stack.congr fun x h1 h2 => hout x ?_
    obtain ⟨h0, h3⟩ := h.stack_bytes h1 h2
    have := h.array_apart ha h0
    omega

/-- One of the lists that are joined changes. -/
theorem count_flatMap_update {l : List ℕ} (hnodup : l.Nodup) (ha : a ∈ l) (f : ℕ → List ℕ) (v : List ℕ)
    (x : ℕ) :
    (l.flatMap (Function.update f a v)).count x + (f a).count x = (l.flatMap f).count x + v.count x := by
  induction l with
  | nil => exact absurd ha List.not_mem_nil
  | cons b l ih =>
      obtain ⟨hb, hl⟩ := List.nodup_cons.mp hnodup
      rw [List.flatMap_cons, List.flatMap_cons, List.count_append, List.count_append]
      by_cases hba : b = a
      · rw [hba] at hb ⊢
        have hrest : l.flatMap (Function.update f a v) = l.flatMap f :=
          List.flatMap_congr fun c hc => Function.update_of_ne (fun heq : c = a => hb (heq ▸ hc)) _ _
        rw [hrest, Function.update_self]
        omega
      · have hih := ih hl ((List.mem_cons.mp ha).resolve_left (Ne.symm hba))
        rw [Function.update_of_ne hba]
        omega

/-- The free lists of the other slabs stay. -/
theorem Core.count_freed (h : Core P F n size s g) (ha : a ∈ g.slabs) (fr : List ℕ) (x : ℕ) :
    ({ g with freeOf := Function.update g.freeOf a fr }.freed).count x + (g.freeOf a).count x
      = g.freed.count x + fr.count x :=
  count_flatMap_update h.nodup ha g.freeOf fr x

/-! ### Objects move -/

/-- `slab_alloc_from_slab` hands out the first free object. -/
theorem Core.take (h : Core P F n size s g) (ha : a ∈ g.slabs) {fr : List ℕ} (hfr : g.freeOf a = o :: fr) :
    ∃ m', slabAllocFromSlab s.mem a = (o, m') ∧ totalObjects m' a = n ∧ inUse m' a + fr.length = n ∧
      Core P F n size { s with mem := m' }
        { g with freeOf := Function.update g.freeOf a fr, live := o :: g.live } := by
  have hslab := h.slab a ha
  rw [hfr] at hslab
  have hfits := h.geometry.fits
  have hwide := h.geometry.wide
  have hn : n < 2 ^ 32 := by
    have hmul : n * 8 ≤ n * size := Nat.mul_le_mul_left n hwide
    omega
  obtain ⟨m', hcall, hrep, hframe⟩ := hslab.take (h.isFrame ha).ne_zero hn
  refine ⟨m', hcall, hrep.total, hrep.used, h.change ha hrep (fun x _ h2 => hframe x (by omega))
    (fun x hx => hframe x (by omega)) ?_⟩
  refine (List.perm_iff_count.mpr fun x => ?_).trans h.perm
  have hcount := h.count_freed ha fr x
  rw [hfr, List.count_cons] at hcount
  simp only [List.count_append, List.cons_append, List.count_cons]
  omega

/-- `slab_free_to_slab` takes an object back. -/
theorem Core.give (h : Core P F n size s g) (ha : a ∈ g.slabs) (ho : o ∈ objectsFrom n size (g.base a))
    (hlive : o ∈ g.live) :
    SlabRep (slabFreeToSlab s.mem a o) n size (g.base a) (o :: g.freeOf a) a ∧
      Core P F n size { s with mem := slabFreeToSlab s.mem a o }
        { g with freeOf := Function.update g.freeOf a (o :: g.freeOf a), live := g.live.erase o } := by
  have hnot : o ∉ g.freeOf a := fun hf => h.live_not_freed hlive (mem_freed.mpr ⟨a, ha, hf⟩)
  have hlt := (h.isFrame ha).lt
  have hwide := h.geometry.wide
  have hbo := (h.slab a ha).bounds ho
  obtain ⟨hrep, hframe⟩ := (h.slab a ha).give ho hnot hwide (by omega)
  refine ⟨hrep, h.change ha hrep (fun x _ h2 => hframe x (by omega) (by omega))
    (fun x hx => hframe x (by omega) (by omega)) ?_⟩
  refine (List.perm_iff_count.mpr fun x => ?_).trans h.perm
  have hcount := h.count_freed ha (o :: g.freeOf a) x
  have hpos : 0 < g.live.count o := List.count_pos_iff.mpr hlive
  rw [List.count_cons] at hcount
  simp only [List.count_append, List.count_erase]
  by_cases hxo : o = x
  · subst hxo
    simp only [beq_self_eq_true, if_true] at hcount ⊢
    omega
  · have hb : (o == x) = false := by simpa using hxo
    simp only [hb, Bool.false_eq_true, if_false] at hcount ⊢
    omega

/-! ### Slabs move -/

/-- The slab `a` goes from the list `p` to the list `q`. -/
def Ghost.move (g : Ghost) (p q : Place) (a : ℕ) : Ghost :=
  { g with slabsAt := fun r =>
      if r = p then (g.slabsAt p).erase a else if r = q then a :: g.slabsAt q else g.slabsAt r }

/-- What is on a list is a slab. -/
theorem mem_slabs {g : Ghost} {p : Place} (ha : a ∈ g.slabsAt p) : a ∈ g.slabs := by
  unfold Ghost.slabs
  cases p <;> simp [ha]

/-- A slab that changes its list is still there. -/
theorem perm_move {g : Ghost} {p q : Place} (hpq : p ≠ q) (ha : a ∈ g.slabsAt p) :
    (g.move p q a).slabs.Perm g.slabs := by
  refine List.perm_iff_count.mpr fun x => ?_
  have hcount := (List.perm_cons_erase ha).count_eq x
  rw [List.count_cons] at hcount
  unfold Ghost.move Ghost.slabs
  generalize (g.slabsAt p).erase a = e at hcount ⊢
  cases p with
  | full =>
      cases q with
      | full => exact absurd rfl hpq
      | part =>
          simp only [reduceCtorEq, if_true, if_false, List.count_append, List.count_cons]
          omega
      | free =>
          simp only [reduceCtorEq, if_true, if_false, List.count_append, List.count_cons]
          omega
  | part =>
      cases q with
      | full =>
          simp only [reduceCtorEq, if_true, if_false, List.count_append, List.count_cons]
          omega
      | part => exact absurd rfl hpq
      | free =>
          simp only [reduceCtorEq, if_true, if_false, List.count_append, List.count_cons]
          omega
  | free =>
      cases q with
      | full =>
          simp only [reduceCtorEq, if_true, if_false, List.count_append, List.count_cons]
          omega
      | part =>
          simp only [reduceCtorEq, if_true, if_false, List.count_append, List.count_cons]
          omega
      | free => exact absurd rfl hpq

/-- `slab_move_to_list` moves a node from one list to the front of another. -/
theorem slabMoveToList_spec {m : Mem} {l lt : List ℕ} {fromList toList : ℕ}
    (hfrom : IsList (slabNext m) l fromList) (hto : IsList (slabNext m) lt toList) (ha : a ∈ l)
    (hspaced : ∀ b ∈ l ++ lt, ∀ c ∈ l ++ lt, b ≠ c → b + 8 ≤ c ∨ c + 8 ≤ b) (hdisj : ∀ b ∈ l, b ∉ lt)
    (hlt : ∀ b ∈ l ++ lt, b < 2 ^ 64) :
    ∃ fromList' m', slabMoveToList m fromList toList a = some (fromList', a, m') ∧
      IsList (slabNext m') (l.erase a) fromList' ∧ IsList (slabNext m') (a :: lt) a ∧
      ∀ x, (∀ c ∈ l, x < c ∨ c + 8 ≤ x) → m' x = m x := by
  have ha0 := hfrom.ne_zero ha
  have haL : a ∈ l ++ lt := List.mem_append_left _ ha
  have hto64 : toList < 2 ^ 64 := by
    cases lt with
    | nil =>
        rw [show toList = 0 from hto]
        exact Nat.two_pow_pos 64
    | cons b lt =>
        rw [hto.1]
        exact hlt b (by simp)
  have hset : ∀ (m₀ : Mem) {b v x : ℕ}, x + 8 ≤ b ∨ b + 8 ≤ x →
      slabNext (setNext m₀ b v) x = slabNext m₀ x := by
    intro m₀ b v x hx
    unfold slabNext setNext
    rw [load_store_disjoint (by omega)]
  have hself : ∀ (m₀ : Mem) {b v : ℕ}, v < 2 ^ 64 → slabNext (setNext m₀ b v) b = v := by
    intro m₀ b v hv
    unfold slabNext setNext
    rw [load_store_of_lt (by norm_num; omega)]
  unfold slabMoveToList
  by_cases hhead : fromList = a
  · -- the first of its list
    rw [if_pos hhead]
    cases l with
    | nil => exact absurd ha List.not_mem_nil
    | cons b l =>
        obtain ⟨hb, -, hrest⟩ := hfrom
        obtain rfl : a = b := hhead.symm.trans hb
        have hal : a ∉ l := (List.nodup_cons.mp (IsList.nodup (h := a)
          ⟨rfl, ha0, hrest⟩)).1
        refine ⟨_, _, rfl, ?_, ⟨rfl, ha0, ?_⟩, fun x hx => ?_⟩
        · rw [List.erase_cons_head]
          refine hrest.congr fun c hc => hset m ?_
          exact hspaced c (by simp [hc]) a haL fun heq => hal (heq ▸ hc)
        · rw [hself m hto64]
          refine hto.congr fun c hc => hset m ?_
          exact hspaced c (by simp [hc]) a haL fun heq => hdisj a ha (heq ▸ hc)
        · exact store_apply_of_lt_or_le (hx a ha)
  · rw [if_neg hhead]
    obtain ⟨c, hc, hca⟩ := hfrom.exists_next ha hhead
    rw [search_walkBound hfrom fun b hb => hlt b (List.mem_append_left _ hb)]
    obtain ⟨d, hd⟩ : ∃ d, l.find? (fun cur => decide (slabNext m cur = a)) = some d := by
      rw [← Option.isSome_iff_exists, List.find?_isSome]
      exact ⟨c, hc, by simpa using hca⟩
    have hdl := List.mem_of_find?_eq_some hd
    have hda : slabNext m d = a := by simpa using List.find?_some hd
    obtain ⟨d', rfl⟩ : ∃ k, d = k + 1 := ⟨d - 1, by have := hfrom.ne_zero hdl; omega⟩
    rw [hd, Option.getD_some]
    dsimp only
    obtain ⟨l₁, l₂, rfl⟩ := hfrom.split_of_next hdl hda ha0
    have hnodup := hfrom.nodup
    have hnext64 : slabNext m a < 2 ^ 64 := load_eight_lt m a
    have herase : (l₁ ++ (d' + 1) :: a :: l₂).erase a = l₁ ++ (d' + 1) :: l₂ := by
      have h1 : a ∉ l₁ := fun hmem =>
        (List.nodup_append.mp hnodup).2.2 a hmem a (by simp) rfl
      have h2 : ((d' + 1) == a) = false := by
        have hne := (List.nodup_cons.mp (List.nodup_append.mp hnodup).2.1).1
        simp only [List.mem_cons, not_or] at hne
        simpa using hne.1
      rw [List.erase_append_right _ h1, List.erase_cons_tail (by simpa using h2), List.erase_cons_head]
    have hother : ∀ b ∈ l₁ ++ l₂, b ≠ a ∧ b ≠ d' + 1 := by
      have hperm : (l₁ ++ (d' + 1) :: a :: l₂).Perm ((d' + 1) :: a :: (l₁ ++ l₂)) :=
        List.perm_middle.trans (List.Perm.cons _ List.perm_middle)
      have hnd := hperm.nodup_iff.mp hnodup
      intro b hb
      refine ⟨fun heq => ?_, fun heq => ?_⟩
      · exact (List.nodup_cons.mp (List.nodup_cons.mp hnd).2).1 (heq ▸ hb)
      · exact (List.nodup_cons.mp hnd).1 (heq ▸ List.mem_cons_of_mem _ hb)
    have hmem : ∀ b ∈ l₁ ++ l₂, b ∈ l₁ ++ (d' + 1) :: a :: l₂ := by
      intro b hb
      rcases List.mem_append.mp hb with hb | hb
      · exact List.mem_append_left _ hb
      · exact List.mem_append_right _ (List.mem_cons_of_mem _ (List.mem_cons_of_mem _ hb))
    have hdL : d' + 1 ∈ (l₁ ++ (d' + 1) :: a :: l₂) ++ lt := List.mem_append_left _ hdl
    have hdne : d' + 1 ≠ a := by
      have hne := (List.nodup_cons.mp (List.nodup_append.mp hnodup).2.1).1
      exact fun heq => hne (heq ▸ List.mem_cons_self)
    refine ⟨_, _, rfl, ?_, ⟨rfl, ha0, ?_⟩, fun x hx => ?_⟩
    · rw [herase]
      refine hfrom.unlink ?_ fun b hb => ?_
      · rw [hset _ (hspaced _ hdL _ haL hdne), hself m hnext64]
      · have hbL := List.mem_append_left lt (hmem b hb)
        rw [hset _ (hspaced _ hbL _ haL (hother b hb).1), hset _ (hspaced _ hbL _ hdL (hother b hb).2)]
    · rw [hself _ hto64]
      refine hto.congr fun b hb => ?_
      have hbL : b ∈ (l₁ ++ (d' + 1) :: a :: l₂) ++ lt := List.mem_append_right _ hb
      rw [hset _ (hspaced _ hbL _ haL fun heq => hdisj a ha (heq ▸ hb)),
        hset _ (hspaced _ hbL _ hdL fun heq => hdisj _ hdl (heq ▸ hb))]
    · unfold setNext
      rw [store_apply_of_lt_or_le (hx a ha), store_apply_of_lt_or_le (hx _ hdl)]

/-- Memory changes in `next` fields only. -/
theorem Core.slab_of_next (h : Core P F n size s g) {m' : Mem} {l : List ℕ} (hl : ∀ b ∈ l, b ∈ g.slabs)
    (hframe : ∀ x, (∀ c ∈ l, x < c ∨ c + 8 ≤ x) → m' x = s.mem x) :
    (∀ b ∈ g.slabs, SlabRep m' n size (g.base b) (g.freeOf b) b) ∧
      StackRep m' s.cache.cpuObjects g.cpu ∧
      (∀ b ∈ g.slabs, b ∉ l → slabNext m' b = slabNext s.mem b) ∧
      P.Owns { s.toMachine with mem := m' } (frames F s.cache g) := by
  have hbehind : ∀ b ∈ g.slabs, ∀ x, b + 8 ≤ x → x < b + 4096 → m' x = s.mem x := by
    intro b hb x h1 h2
    refine hframe x fun c hc => ?_
    by_cases hbc : b = c
    · subst hbc
      exact Or.inr h1
    · have := h.apart hb (hl c hc) hbc
      omega
  refine ⟨fun b hb => ?_, ?_, fun b hb hbl => ?_, ?_⟩
  · have hwide := h.geometry.wide
    refine (h.slab b hb).congr (fun x h1 h2 => hbehind b hb x h1 (by omega)) fun o ho x h1 h2 => ?_
    have hbo := (h.slab b hb).bounds ((h.slab b hb).sub o ho)
    exact hbehind b hb x (by omega) (by omega)
  · refine h.stack.congr fun x h1 h2 => hframe x fun c hc => ?_
    obtain ⟨h0, h3⟩ := h.stack_bytes h1 h2
    have := h.array_apart (hl c hc) h0
    omega
  · refine load_congr fun x hx => hframe x fun c hc => ?_
    obtain ⟨h1, h2⟩ := hx
    have := h.apart hb (hl c hc) fun heq => hbl (heq ▸ hc)
    omega
  · refine P.write h.owns m' fun x hx => hframe x fun c hc => ?_
    have hin := hx c (Or.inr (Or.inl (hl c hc)))
    unfold InPage pageSize at hin
    omega

/-- A slab is on one list only. -/
theorem Core.disjoint (h : Core P F n size s g) {p q : Place} (hpq : p ≠ q) (ha : a ∈ g.slabsAt p) :
    a ∉ g.slabsAt q := by
  have hnodup := h.nodup
  unfold Ghost.slabs at hnodup
  rw [List.nodup_append, List.nodup_append] at hnodup
  obtain ⟨⟨-, -, h12⟩, -, h3⟩ := hnodup
  intro haq
  cases p with
  | full =>
      cases q with
      | full => exact hpq rfl
      | part => exact h12 a ha a haq rfl
      | free => exact h3 a (List.mem_append_left _ ha) a haq rfl
  | part =>
      cases q with
      | full => exact h12 a haq a ha rfl
      | part => exact hpq rfl
      | free => exact h3 a (List.mem_append_right _ ha) a haq rfl
  | free =>
      cases q with
      | full => exact h3 a (List.mem_append_left _ haq) a ha rfl
      | part => exact h3 a (List.mem_append_right _ haq) a ha rfl
      | free => exact hpq rfl

/-- A slab goes from one list to another. -/
theorem Core.move (h : Core P F n size s g) {p q : Place} (hpq : p ≠ q) (ha : a ∈ g.slabsAt p) :
    ∃ fromList m', slabMoveToList s.mem (s.cache.head p) (s.cache.head q) a = some (fromList, a, m') ∧
      ∀ c : Cache, (∀ r, c.head r = if r = p then fromList else if r = q then a else s.cache.head r) →
        c.objectSize = s.cache.objectSize → c.objectsPerSlab = s.cache.objectsPerSlab →
        c.limit = s.cache.limit → c.cpuObjects = s.cache.cpuObjects → c.available = s.cache.available →
        Core P F n size { s with mem := m', cache := c } (g.move p q a) := by
  have hin : ∀ b ∈ g.slabsAt p ++ g.slabsAt q, b ∈ g.slabs := by
    intro b hb
    rcases List.mem_append.mp hb with hb | hb
    · exact mem_slabs hb
    · exact mem_slabs hb
  obtain ⟨fromList, m', hcall, hfrom, hto, hframe⟩ := slabMoveToList_spec (h.lists p) (h.lists q) ha
    (fun b hb c hc hne => by have := h.apart (hin b hb) (hin c hc) hne; omega) (fun b => h.disjoint hpq)
    (fun b hb => by have := (h.isFrame (hin b hb)).lt; omega)
  refine ⟨fromList, m', hcall, fun c hhead h1 h2 h3 h4 h5 => ?_⟩
  obtain ⟨hslab, hstack, hnext, howns⟩ := h.slab_of_next (fun b hb => mem_slabs hb) hframe
  have hperm := perm_move hpq ha
  have hmem : ∀ b, b ∈ (g.move p q a).slabs ↔ b ∈ g.slabs := fun b => hperm.mem_iff
  have hframes : frames F c (g.move p q a) = frames F s.cache g := by
    unfold frames
    ext f
    simp only [Set.mem_ofPred_eq, hmem, h4]
  refine ⟨h.geometry, h1.trans h.objectSize, h2.trans h.objectsPerSlab, h3.trans h.limit, ?_, fun r => ?_,
    hperm.nodup_iff.mpr h.nodup, fun b hb => h.fresh b ((hmem b).mp hb),
    fun b hb => hslab b ((hmem b).mp hb), ?_, ?_, ?_, fun hne => ?_, h5.trans h.available, h.bounded⟩
  · rw [hframes]
    exact howns
  · dsimp only
    rw [hhead r]
    unfold Ghost.move
    dsimp only
    by_cases hrp : r = p
    · rw [if_pos hrp, if_pos hrp]
      exact hfrom
    · rw [if_neg hrp, if_neg hrp]
      by_cases hrq : r = q
      · rw [if_pos hrq, if_pos hrq]
        exact hto
      · rw [if_neg hrq, if_neg hrq]
        exact (h.lists r).congr fun b hb => hnext b (mem_slabs hb) (h.disjoint hrp hb)
  · have hfreed : (g.move p q a).freed.Perm g.freed := hperm.flatMap_right _
    have hobjects : ((g.move p q a).objects n size).Perm (g.objects n size) := hperm.flatMap_right _
    exact ((List.Perm.append_left _ hfreed).trans h.perm).trans hobjects.symm
  · dsimp only
    rw [h4]
    exact fun hb => h.array ((hmem _).mp hb)
  · dsimp only
    rw [h4]
    exact hstack
  · dsimp only
    rw [h4]
    exact h.stackSome hne

/-! ### A new slab -/

/-- A call of the page allocator, or of another client. -/
theorem Core.same (h : Core P F n size s g) {Q : Ownership A} {M : Machine A} (howns : Q.Owns M (frames F s.cache g))
    (hmem : ∀ f ∈ frames F s.cache g, ∀ x, InPage f x → M.mem x = s.mem x) :
    Core Q F n size { s with toMachine := M } g := by
  have hpage : ∀ b ∈ g.slabs, ∀ x, b ≤ x → x < b + 4096 → M.mem x = s.mem x :=
    fun b hb x h1 h2 => hmem b (Or.inr (Or.inl hb)) x ⟨h1, h2⟩
  refine ⟨h.geometry, h.objectSize, h.objectsPerSlab, h.limit, howns, fun p => ?_, h.nodup, h.fresh,
    fun b hb => ?_, h.perm, h.array, ?_, h.stackSome, h.available, h.bounded⟩
  · refine (h.lists p).congr fun b hb => load_congr fun x hx => ?_
    exact hpage b (mem_slabs hb) x hx.1 (by have := hx.2; omega)
  · have hwide := h.geometry.wide
    refine (h.slab b hb).congr (fun x h1 h2 => hpage b hb x (by omega) (by omega)) fun o ho x h1 h2 => ?_
    have hbo := (h.slab b hb).bounds ((h.slab b hb).sub o ho)
    exact hpage b hb x (by omega) (by omega)
  · refine h.stack.congr fun x h1 h2 => ?_
    obtain ⟨h0, h3⟩ := h.stack_bytes h1 h2
    exact hmem _ (Or.inr (Or.inr ⟨rfl, h0⟩)) x ⟨h1, h3⟩

/-- The free list that the loop of `slab_create` builds on `fr`. -/
def threaded (base size : ℕ) : ℕ → ℕ → List ℕ → List ℕ
  | 0, _, fr => fr
  | k + 1, i, fr => threaded base size k (i + 1) ((base + i * size) :: fr)

/-- The free list of a new slab, object by object. -/
theorem threaded_perm (base size : ℕ) {k i : ℕ} {fr : List ℕ} :
    (threaded base size k i fr).Perm (((List.range' i k).map fun j => base + j * size) ++ fr) := by
  induction k generalizing i fr with
  | zero => exact List.Perm.refl _
  | succ k ih =>
      rw [List.range'_succ, List.map_cons, List.cons_append]
      exact ih.trans List.perm_middle

/-- All objects of a new slab are free. -/
theorem threaded_objects (base size n : ℕ) : (threaded base size n 0 []).Perm (objectsFrom n size base) := by
  have h : (threaded base size n 0 []).Perm _ := threaded_perm base size
  rw [List.append_nil, ← List.range_eq_range'] at h
  exact h

/-- The loop of `slab_create` puts the objects on the free list and writes nothing else. -/
theorem threadObjects_spec {base k i : ℕ} (hsize : 8 ≤ size) (hbase : a + 32 ≤ base)
    (hend : base + (i + k) * size ≤ 2 ^ 64) {m : Mem} {fr : List ℕ}
    (hlist : IsList (link m) fr (freeList m a)) (hfr : ∀ o ∈ fr, base ≤ o ∧ o + 8 ≤ base + i * size) :
    IsList (link (threadObjects a base size k i m)) (threaded base size k i fr)
        (freeList (threadObjects a base size k i m) a) ∧
      ∀ x, x < a + 8 ∨ a + 16 ≤ x → x < base ∨ base + (i + k) * size ≤ x →
        threadObjects a base size k i m x = m x := by
  induction k generalizing i m fr with
  | zero => exact ⟨hlist, fun x _ _ => rfl⟩
  | succ k ih =>
      have hstep : (i + 1) * size = i * size + size := Nat.succ_mul i size
      have hidx : i + (k + 1) = i + 1 + k := by omega
      rw [hidx] at hend ⊢
      have hlast : (i + 1) * size ≤ (i + 1 + k) * size := Nat.mul_le_mul_right size (by omega)
      set obj := base + i * size with hobj
      obtain ⟨v, hv, hv64⟩ : ∃ v, freeList m a = v ∧ v < 2 ^ 64 := ⟨_, rfl, load_eight_lt m (a + 8)⟩
      have hframe : ∀ x, x < a + 8 ∨ a + 16 ≤ x → x < obj ∨ obj + 8 ≤ x →
          setFreeList (setLink m obj v) a obj x = m x := by
        intro x h1 h2
        unfold setFreeList setLink
        simp (disch := omega) only [store_apply_of_lt_or_le]
      have hlist' : IsList (link (setFreeList (setLink m obj v) a obj)) (obj :: fr)
          (freeList (setFreeList (setLink m obj v) a obj) a) := by
        refine ⟨?_, by omega, ?_⟩
        · unfold freeList setFreeList
          rw [load_store_of_lt (by norm_num; omega)]
        · have hlink : link (setFreeList (setLink m obj v) a obj) obj = v := by
            unfold link setFreeList setLink
            simp (disch := omega) only [load_store_disjoint, load_store_of_lt]
          rw [hv] at hlist
          rw [hlink]
          refine hlist.congr fun o ho => load_congr fun x hx => hframe x ?_ ?_
          · have h1 := (hfr o ho).1
            have h2 := hx.1
            omega
          · have h1 := (hfr o ho).2
            have h2 := hx.2
            omega
      have hfr' : ∀ o ∈ obj :: fr, base ≤ o ∧ o + 8 ≤ base + (i + 1) * size := by
        intro o ho
        rcases List.mem_cons.mp ho with rfl | ho
        · constructor
          · omega
          · omega
        · have := hfr o ho
          omega
      obtain ⟨hres, hkeep⟩ := ih hend hlist' hfr'
      unfold threadObjects threaded
      dsimp only
      rw [hv]
      refine ⟨hres, fun x h1 h2 => ?_⟩
      rw [hkeep x h1 h2]
      exact hframe x h1 (by omega)

/-- A new slab is the first of the partial list. -/
def Ghost.add (g : Ghost) (a base : ℕ) (fr : List ℕ) : Ghost :=
  { g with
    slabsAt := fun r => if r = .part then a :: g.slabsAt .part else g.slabsAt r
    base := Function.update g.base a base
    freeOf := Function.update g.freeOf a fr }

/-- A new slab is one more. -/
theorem perm_add (g : Ghost) (a base : ℕ) (fr : List ℕ) : (g.add a base fr).slabs.Perm (a :: g.slabs) := by
  refine List.perm_iff_count.mpr fun x => ?_
  unfold Ghost.add Ghost.slabs
  simp only [reduceCtorEq, if_true, if_false, List.count_append, List.count_cons]
  omega

/-- The slabs after one is added. -/
theorem mem_add {g : Ghost} {a base b : ℕ} {fr : List ℕ} : b ∈ (g.add a base fr).slabs ↔ b = a ∨ b ∈ g.slabs := by
  rw [(perm_add g a base fr).mem_iff, List.mem_cons]

/-- The new slab is one more frame. -/
theorem frames_add {c c' : Cache} (hcpu : c'.cpuObjects = c.cpuObjects) (g : Ghost) (a base : ℕ) (fr : List ℕ) :
    frames F c' (g.add a base fr) = Set.insert a (frames F c g) := by
  ext f
  unfold frames
  rw [Set.mem_ofPred_eq, mem_add, hcpu]
  show _ ↔ f = a ∨ _
  rw [Set.mem_ofPred_eq]
  constructor
  · rintro (hf | (hf | hf) | hf)
    · exact Or.inr (Or.inl hf)
    · exact Or.inl hf
    · exact Or.inr (Or.inr (Or.inl hf))
    · exact Or.inr (Or.inr (Or.inr hf))
  · rintro (hf | hf | hf | hf)
    · exact Or.inr (Or.inl (Or.inl hf))
    · exact Or.inl hf
    · exact Or.inr (Or.inl (Or.inr hf))
    · exact Or.inr (Or.inr hf)

/-- What the new slab has comes first. -/
theorem flatMap_add {g : Ghost} (hnot : a ∉ g.slabs) (base : ℕ) (fr : List ℕ) (f : ℕ → List ℕ) (v : List ℕ) :
    ((g.add a base fr).slabs.flatMap (Function.update f a v)).Perm (v ++ g.slabs.flatMap f) := by
  refine ((perm_add g a base fr).flatMap_right _).trans ?_
  rw [List.flatMap_cons, Function.update_self]
  have hrest : g.slabs.flatMap (Function.update f a v) = g.slabs.flatMap f :=
    List.flatMap_congr fun b hb => Function.update_of_ne (fun heq : b = a => hnot (heq ▸ hb)) _ _
  rw [hrest]

/-- The free objects after a slab is added. -/
theorem freed_add {g : Ghost} (hnot : a ∉ g.slabs) (base : ℕ) (fr : List ℕ) :
    (g.add a base fr).freed.Perm (fr ++ g.freed) := flatMap_add hnot base fr g.freeOf fr

/-- The objects after a slab is added. -/
theorem objects_add {g : Ghost} (hnot : a ∉ g.slabs) (base : ℕ) (fr : List ℕ) :
    ((g.add a base fr).objects n size).Perm (objectsFrom n size base ++ g.objects n size) := by
  have hfun : (fun b => objectsFrom n size ((g.add a base fr).base b))
      = Function.update (fun b => objectsFrom n size (g.base b)) a (objectsFrom n size base) := by
    funext b
    unfold Ghost.add
    dsimp only
    by_cases hba : b = a
    · subst hba
      rw [Function.update_self, Function.update_self]
    · rw [Function.update_of_ne hba, Function.update_of_ne hba]
  unfold Ghost.objects
  rw [hfun]
  exact flatMap_add hnot base fr _ _

/-- The writes of `slab_create`, and the link to the partial list. -/
theorem create_mem {m : Mem} {base next : ℕ} (hgeo : Geometry n size) (ha : a + 4096 ≤ 2 ^ 64)
    (hbase : a + 32 ≤ base) (hend : base + n * size ≤ a + 4096) (hnext : next < 2 ^ 64) :
    ∃ m', m' = setNext (threadObjects a base size n 0 (setFreeList (setObjects (setTotalObjects (setInUse
          (setNext m a 0) a 0) a n) a base) a 0)) a next ∧
      SlabRep m' n size base (threaded base size n 0 []) a ∧ slabNext m' a = next ∧
      ∀ x, x < a ∨ a + 4096 ≤ x → m' x = m x := by
  have hwide := hgeo.wide
  have hfits := hgeo.fits
  have hn : n < 2 ^ 32 := by
    have hmul : n * 8 ≤ n * size := Nat.mul_le_mul_left n hwide
    omega
  have hpos : 0 < n * size := Nat.mul_pos hgeo.pos (by omega)
  set m₁ := setFreeList (setObjects (setTotalObjects (setInUse (setNext m a 0) a 0) a n) a base) a 0 with hm₁
  have hfree : freeList m₁ a = 0 := by
    unfold freeList m₁ setFreeList
    rw [load_store_of_lt (by norm_num)]
  obtain ⟨hlist, hkeep⟩ := threadObjects_spec (a := a) (k := n) (i := 0) (m := m₁)
    hwide hbase (by rw [Nat.zero_add]; omega) (by rw [hfree]; rfl) (fun o ho => absurd ho List.not_mem_nil)
  rw [Nat.zero_add] at hkeep
  set m₂ := threadObjects a base size n 0 m₁ with hm₂
  have hframe : ∀ x, a + 8 ≤ x → setNext m₂ a next x = m₂ x := by
    intro x hx
    unfold setNext
    exact store_apply_of_lt_or_le (by omega)
  have hheader : ∀ x, a + 16 ≤ x → x < a + 32 → setNext m₂ a next x = m₁ x := by
    intro x h1 h2
    rw [hframe x (by omega)]
    exact hkeep x (by omega) (by omega)
  have hperm := threaded_objects base size n
  refine ⟨_, rfl, ⟨?_, ?_, ?_, ?_, fun o ho => hperm.subset ho, hbase, hend⟩, ?_, ?_⟩
  · have h1 : totalObjects (setNext m₂ a next) a = totalObjects m₁ a :=
      load_congr fun x hx => hheader x (by have := hx.1; omega) (by have := hx.2; omega)
    rw [h1]
    unfold totalObjects m₁ setFreeList setObjects setTotalObjects
    simp (disch := omega) only [load_store_disjoint, load_store_of_lt]
  · have h1 : inUse (setNext m₂ a next) a = inUse m₁ a :=
      load_congr fun x hx => hheader x (by have := hx.1; omega) (by have := hx.2; omega)
    have h2 : inUse m₁ a = 0 := by
      unfold inUse m₁ setFreeList setObjects setTotalObjects setInUse
      simp (disch := omega) only [load_store_disjoint, load_store_of_lt]
    rw [h1, h2, hperm.length_eq, length_objectsFrom, Nat.zero_add]
  · have h1 : slabObjects (setNext m₂ a next) a = slabObjects m₁ a :=
      load_congr fun x hx => hheader x (by have := hx.1; omega) (by have := hx.2; omega)
    rw [h1]
    unfold slabObjects m₁ setFreeList setObjects
    simp (disch := omega) only [load_store_disjoint, load_store_of_lt]
  · have h1 : freeList (setNext m₂ a next) a = freeList m₂ a :=
      load_congr fun x hx => hframe x hx.1
    rw [h1]
    refine hlist.congr fun o ho => load_congr fun x hx => hframe x ?_
    have hbo := object_bounds (hperm.subset ho)
    have := hx.1
    omega
  · unfold slabNext setNext
    rw [load_store_of_lt (by norm_num; omega)]
  · intro x hx
    unfold setNext
    rw [store_apply_of_lt_or_le (by omega), hkeep x (by omega) (by omega)]
    unfold m₁ setFreeList setObjects setTotalObjects setInUse setNext
    simp (disch := omega) only [store_apply_of_lt_or_le]

variable {alloc : Machine A → ℕ × Machine A}

/-- A new slab comes in as the first of the partial list. -/
theorem Core.add (h : Core P F n size s g) (hA : P.Allocator alloc) {base : ℕ} {m' : Mem} {c : Cache}
    (ha : (alloc s.toMachine).1 = a) (ha0 : a ≠ 0)
    (hrep : SlabRep m' n size base (threaded base size n 0 []) a)
    (hnext : slabNext m' a = s.cache.slabsPartial)
    (hout : ∀ x, x < a ∨ a + 4096 ≤ x → m' x = (alloc s.toMachine).2.mem x)
    (hhead : ∀ r, c.head r = if r = .part then a else s.cache.head r)
    (h1 : c.objectSize = s.cache.objectSize) (h2 : c.objectsPerSlab = s.cache.objectsPerSlab)
    (h3 : c.limit = s.cache.limit) (h4 : c.cpuObjects = s.cache.cpuObjects)
    (h5 : c.available = s.cache.available) :
    Core P F n size { s with toMachine := { (alloc s.toMachine).2 with mem := m' }, cache := c }
      (g.add a base (threaded base size n 0 [])) := by
  have hfresh := hA.fresh h.owns (by rw [ha]; exact ha0)
  have howns := hA.owns h.owns (by rw [ha]; exact ha0)
  rw [ha] at hfresh howns
  have hnot : a ∉ g.slabs := fun hin => hfresh (Or.inr (Or.inl hin))
  have haF : a ∉ F := fun hin => hfresh (Or.inl hin)
  have hframe := P.isFrame howns a (Set.mem_insert _ _)
  -- the pages that were held before are as they were
  have hold : ∀ f ∈ frames F s.cache g, ∀ x, InPage f x → m' x = s.mem x := by
    intro f hf x hx
    have hap := (P.isFrame h.owns f hf).apart hframe fun heq => hfresh (heq ▸ hf)
    obtain ⟨hx1, hx2⟩ := hx
    unfold pageSize at hx2
    rw [hout x (by omega)]
    exact hA.mem h.owns f hf x ⟨hx1, hx2⟩
  have hpage : ∀ b ∈ g.slabs, ∀ x, b ≤ x → x < b + 4096 → m' x = s.mem x :=
    fun b hb x hx1 hx2 => hold b (Or.inr (Or.inl hb)) x ⟨hx1, hx2⟩
  refine ⟨h.geometry, h1.trans h.objectSize, h2.trans h.objectsPerSlab, h3.trans h.limit, ?_, fun r => ?_, ?_,
    fun b hb => ?_, fun b hb => ?_, ?_, ?_, ?_, fun hne => ?_, h5.trans h.available, h.bounded⟩
  · rw [frames_add h4]
    refine P.write howns m' fun x hx => hout x ?_
    have hin := hx a (Set.mem_insert _ _)
    unfold InPage pageSize at hin
    omega
  · have hother : IsList (slabNext m') (g.slabsAt r) (s.cache.head r) :=
      (h.lists r).congr fun b hb => load_congr fun x hx =>
        hpage b (mem_slabs hb) x hx.1 (by have := hx.2; omega)
    dsimp only
    rw [hhead r]
    unfold Ghost.add
    dsimp only
    by_cases hr : r = .part
    · subst hr
      rw [if_pos rfl, if_pos rfl]
      refine ⟨rfl, ha0, ?_⟩
      rw [hnext]
      exact hother
    · rw [if_neg hr, if_neg hr]
      exact hother
  · exact (perm_add g a base _).nodup_iff.mpr (List.nodup_cons.mpr ⟨hnot, h.nodup⟩)
  · rcases mem_add.mp hb with rfl | hb
    · exact haF
    · exact h.fresh b hb
  · unfold Ghost.add
    dsimp only
    rcases mem_add.mp hb with rfl | hb
    · rw [Function.update_self, Function.update_self]
      exact hrep
    · have hba : b ≠ a := fun heq => hnot (heq ▸ hb)
      have hwide := h.geometry.wide
      rw [Function.update_of_ne hba, Function.update_of_ne hba]
      refine (h.slab b hb).congr (fun x hx1 hx2 => hpage b hb x (by omega) (by omega)) fun o ho x hx1 hx2 => ?_
      have hbo := (h.slab b hb).bounds ((h.slab b hb).sub o ho)
      exact hpage b hb x (by omega) (by omega)
  · refine List.perm_iff_count.mpr fun x => ?_
    have hc1 := (freed_add hnot base (threaded base size n 0 [])).count_eq x
    have hc2 : ((g.add a base (threaded base size n 0 [])).objects n size).count x = _ :=
      (objects_add hnot base _).count_eq x
    have hc3 := h.perm.count_eq x
    have hc4 := (threaded_objects base size n).count_eq x
    rw [List.count_append] at hc1 hc2 hc3
    rw [List.count_append, hc1, hc2, ← hc3, hc4]
    show (g.live ++ g.cpu).count x + _ = _
    omega
  · dsimp only
    rw [h4, mem_add]
    rintro (heq | hin)
    · exact hfresh (Or.inr (Or.inr ⟨heq.symm, ha0⟩))
    · exact h.array hin
  · dsimp only
    rw [h4]
    refine h.stack.congr fun x hx1 hx2 => ?_
    obtain ⟨h0, hx3⟩ := h.stack_bytes hx1 hx2
    exact hold _ (Or.inr (Or.inr ⟨rfl, h0⟩)) x ⟨hx1, hx3⟩
  · dsimp only
    rw [h4]
    exact h.stackSome hne

/-- `slab_create` divides by zero, or the page allocator fails, or a new slab with `n` free objects comes
in. -/
theorem Core.create (h : Core P F n size s g) (hA : P.Allocator alloc) :
    (slabCreate alloc s = none ∧ 32 + n * size = 4096) ∨
      (∃ s', slabCreate alloc s = some (0, s') ∧ Core P F n size s' g) ∨
      ∃ a base s', slabCreate alloc s = some (a, s') ∧ a ≠ 0 ∧ a ∉ g.slabs ∧
        Core P F n size (pushPartial s' a) (g.add a base (threaded base size n 0 [])) ∧
        ∀ d, d ∣ 32 → d ∣ size → d ∣ base := by
  have hfits := h.geometry.fits
  obtain ⟨a, ha⟩ : ∃ a, (alloc s.toMachine).1 = a := ⟨_, rfl⟩
  have hslack : Word.sub 64 (pageSize - slabHeaderSize) (Word.mul 64 n size) = 4064 - n * size := by
    unfold pageSize slabHeaderSize
    rw [Word.mul_eq (by omega), Word.sub_eq (by omega) (by norm_num)]
  unfold slabCreate
  dsimp only
  rw [ha, h.objectsPerSlab, h.objectSize, hslack]
  by_cases ha0 : a = 0
  · rw [if_pos ha0]
    refine Or.inr (Or.inl ⟨_, rfl, h.same (hA.fail h.owns (ha.trans ha0)) fun f hf x hx => ?_⟩)
    exact hA.mem h.owns f hf x hx
  rw [if_neg ha0]
  by_cases hzero : 4064 - n * size = 0
  · rw [if_pos hzero]
    exact Or.inl ⟨rfl, by omega⟩
  rw [if_neg hzero]
  right; right
  have howns := hA.owns h.owns (by rw [ha]; exact ha0)
  rw [ha] at howns
  have hlt := (P.isFrame howns a (Set.mem_insert _ _)).lt
  set color := Word.mul 32 s.cache.colorNext cacheLineSize % (4064 - n * size) with hcolor
  have hcolorlt : color < 4064 - n * size := Nat.mod_lt _ (by omega)
  have hnext64 : s.cache.slabsPartial < 2 ^ 64 := by
    have hlist := h.lists .part
    cases hl : g.slabsAt .part with
    | nil =>
        rw [hl] at hlist
        rw [show s.cache.slabsPartial = 0 from hlist]
        exact Nat.two_pow_pos 64
    | cons b l =>
        rw [hl] at hlist
        have hb : b ∈ g.slabs := mem_slabs (p := .part) (by rw [hl]; exact List.mem_cons_self)
        have := (h.isFrame hb).lt
        rw [show s.cache.slabsPartial = b from hlist.1]
        omega
  obtain ⟨m', hm', hrep, hnext, hout⟩ := create_mem (m := (alloc s.toMachine).2.mem) (a := a)
    h.geometry (by omega) (show a + 32 ≤ a + slabHeaderSize + color by unfold slabHeaderSize; omega)
    (by unfold slabHeaderSize; omega) hnext64
  refine ⟨a, a + slabHeaderSize + color, _, rfl, ha0, ?_, ?_, fun d hd hsize => ?_⟩
  · exact fun hin => hA.fresh h.owns (by rw [ha]; exact ha0) (ha.symm ▸ Or.inr (Or.inl hin))
  · unfold pushPartial
    dsimp only
    rw [← hm']
    refine h.add hA ha ha0 hrep hnext hout (fun r => ?_) h.objectSize.symm h.objectsPerSlab.symm rfl rfl rfl
    cases r <;> rfl
  · have hframe : 4096 ∣ a := Nat.dvd_of_mod_eq_zero (P.isFrame howns a (Set.mem_insert _ _)).aligned
    have hmul : d ∣ Word.mul 32 s.cache.colorNext cacheLineSize := by
      refine (Nat.dvd_mod_iff (hd.trans (by norm_num))).mpr (Dvd.dvd.mul_left (hd.trans (by decide)) _)
    have hleft : d ∣ 4064 - n * size := Nat.dvd_sub (hd.trans (by norm_num)) (Dvd.dvd.mul_left hsize n)
    refine Nat.dvd_add (Nat.dvd_add (hd.trans ((by norm_num : 32 ∣ 4096).trans hframe)) hd) ?_
    exact (Nat.dvd_mod_iff hleft).mpr hmul

end PrometheusKernel.Slab
