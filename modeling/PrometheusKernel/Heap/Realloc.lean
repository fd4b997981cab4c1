import PrometheusKernel.Heap.TilesHeap

/-!
# `krealloc` keeps the data

The header of an allocation holds the size with which the pointer was allocated, or to which it was last
grown: in a heap of less than `2 ^ 32` bytes no size is cut off when it is stored as a `uint32_t`. `Tracked`
runs carry these sizes along (`old`), and `krealloc` copies as many bytes. The block that it takes and the one
that it frees are different blocks of one tiling, so that neither the header of a split nor the one of a merge
is written into the data (`Inv.krealloc_spec`).
-/

namespace PrometheusKernel.Heap

open ByteMem LinkedList Tiling Interleaving

section bytes

variable {A : Type} {m m' m'' : Mem} {start e size p : ℕ} {s : State A} {live : List (ℕ × ℕ)}
  {bs : List Block} {K : ℕ → Option ℕ} {O : Set (ℕ × ℕ)} {q r : ℕ × ℕ}

/-- The header is among the bytes of `SameAt`. -/
theorem SameAt.header (h : SameAt m m' q) (hq : 12 ≤ q.1) :
    headerSize m' (q.1 - allocHeaderSize) = headerSize m (q.1 - allocHeaderSize) := by
  unfold allocHeaderSize
  apply load_congr
  rintro x ⟨h1, h2⟩
  exact h x (by omega) (by omega)

/-- Bytes that stay the same in two steps. -/
theorem SameAt.trans (h : SameAt m m' q) (h' : SameAt m' m'' q) (hq : 12 ≤ q.1) : SameAt m m'' q := by
  intro x h1 h2
  rw [h' x h1 (by rw [h.header hq]; exact h2)]
  exact h x h1 h2

/-- What is written into the bytes of one allocation is not seen at another one. -/
theorem Inv.write_sameAt (h : Inv (Objects.none A) start e ⟨s, live⟩ bs K O) (hq : q ∈ live) (hr : r ∈ live)
    (hne : q.1 ≠ r.1) (hm : ∀ x, x < r.1 ∨ r.1 + r.2 ≤ x → m' x = s.mem x) : SameAt s.mem m' q := by
  obtain ⟨b, hb, -, hqb, hbal⟩ := h.held_block hq
  obtain ⟨d, hd, -, hrd, hdal⟩ := h.held_block hr
  have hapart := h.layout.tiles.apart hb hd fun heq => hne (by rw [hqb, hrd, heq])
  have hdle := hdal.le
  unfold blockHeaderSize at hapart
  exact HeldBlock.sameAt hqb hbal fun x h1 h2 => hm x (by omega)

/-- The size of an allocation is less than the size of the heap. -/
theorem Inv.size_lt (h : Inv (Objects.none A) start e ⟨s, live⟩ bs K O) (hq : q ∈ live) :
    start + q.2 + 44 ≤ e := by
  obtain ⟨b, hb, -, -, hbal⟩ := h.held_block hq
  have hend := h.layout.tiles.mem_le hb
  have hle := hbal.le
  unfold blockHeaderSize at hend
  omega

/-- Without slab caches `kmalloc` fails without an effect, or adds an allocation, and the other allocations
stay. -/
theorem Inv.kmalloc_spec (slabAlloc : ℕ → Machine A → ℕ × Machine A)
    (h : Inv (Objects.none A) start e ⟨s, live⟩ bs K O) (he : e ≤ 2 ^ 64) (hspan : e < start + 2 ^ 32)
    (hsize : size + 28 ≤ 2 ^ 64) :
    ∃ n s' bs', Heap.kmalloc slabAlloc s size = some (n, s') ∧ n ∉ live.map Prod.fst ∧
      Inv (Objects.none A) start e ⟨s', afterMalloc size n live⟩ bs' K O ∧ (n = 0 → s' = s) ∧
      (n ≠ 0 → headerSize s'.mem (n - allocHeaderSize) = size) ∧ ∀ q ∈ live, SameAt s.mem s'.mem q := by
  have hzero : (0 : ℕ) ∉ live.map Prod.fst := fun hmem => h.ne_zero hmem rfl
  rw [h.kmalloc_eq]
  by_cases h0 : size = 0
  · rw [if_pos h0]
    refine ⟨0, s, bs, rfl, hzero, ?_, fun _ => rfl, fun hn => absurd rfl hn, fun q _ x _ _ => rfl⟩
    unfold afterMalloc
    rw [if_pos rfl]
    exact h
  rw [if_neg h0]
  obtain ⟨n, s', bs', hcall, hnew, hinv, -, hnull, hheader, hsame⟩ := h.kmallocHeap he (by omega) hsize
  refine ⟨n, s', bs', hcall, ?_, hinv, hnull, fun hn => ?_, hsame⟩
  · by_cases hn : n = 0
    · rw [hn]
      exact hzero
    · exact hnew hn
  · unfold afterMalloc at hinv
    rw [if_neg hn] at hinv
    have hlt := hinv.size_lt List.mem_cons_self
    rw [hheader hn, Nat.mod_eq_of_lt (by dsimp only at hlt; omega)]

/-- Without slab caches `kfree` keeps the other allocations. -/
theorem Inv.kfree_sameAt (slabFree : ℕ → ℕ → Machine A → Machine A)
    (h : Inv (Objects.none A) start e ⟨s, live⟩ bs K O) (he : e ≤ 2 ^ 64) (hp : p ∈ live.map Prod.fst) :
    ∃ bs', Inv (Objects.none A) start e ⟨Heap.kfree slabFree s p, drop p live⟩ bs' K O ∧
      ∀ q ∈ live, q.1 ≠ p → SameAt s.mem (Heap.kfree slabFree s p).mem q := by
  obtain ⟨q, hq, rfl⟩ := List.mem_map.mp hp
  obtain ⟨b, hb, -, hqb, hbal⟩ := h.held_block hq
  rw [hqb]
  obtain ⟨bs', hinv, -, hsame⟩ := h.kfree_block he hb hbal
  exact ⟨bs', hinv, hsame⟩

/-- `krealloc` of a pointer that is held fails without an effect, stays in place, or moves the bytes. -/
theorem Inv.krealloc_spec (slabAlloc : ℕ → Machine A → ℕ × Machine A) (slabFree : ℕ → ℕ → Machine A → Machine A)
    (h : Inv (Objects.none A) start e ⟨s, live⟩ bs K O) (he : e ≤ 2 ^ 64) (hspan : e < start + 2 ^ 32)
    (hp : p ∈ live.map Prod.fst) (h0 : size ≠ 0) (hsize : size + 28 ≤ 2 ^ 64) :
    ∃ n s' bs', Heap.krealloc slabAlloc slabFree s p size = some (n, s') ∧
      Inv (Objects.none A) start e ⟨s', afterRealloc p size n live⟩ bs' K O ∧
      (n = 0 ∧ s' = s ∨ n = p ∧ s' = s ∧ size ≤ headerSize s.mem (p - allocHeaderSize) ∨
        n ≠ 0 ∧ n ∉ live.map Prod.fst ∧ headerSize s'.mem (n - allocHeaderSize) = size ∧
          (∀ i < headerSize s.mem (p - allocHeaderSize), s'.mem (n + i) = s.mem (p + i)) ∧
          ∀ q ∈ live, q.1 ≠ p → SameAt s.mem s'.mem q) := by
  have hp0 := h.ne_zero hp
  obtain ⟨hmagic, hresize⟩ := h.header hp
  set old := headerSize s.mem (p - allocHeaderSize) with hold
  unfold Heap.krealloc afterRealloc
  dsimp only
  rw [if_neg hp0, if_neg h0, hmagic, if_neg (not_not.mpr rfl), ← hold]
  by_cases hfit : size ≤ old
  · rw [if_pos hfit]
    refine ⟨p, s, bs, rfl, ?_, Or.inr (Or.inl ⟨rfl, rfl, hfit⟩)⟩
    rw [if_pos hp0]
    exact h.resize (hresize size hfit)
  rw [if_neg hfit]
  obtain ⟨n, s₁, bs₁, hcall, hnew, hinv, hnull, hheader, hsame⟩ :=
    h.kmalloc_spec slabAlloc he hspan hsize
  rw [hcall]
  dsimp only
  unfold afterMalloc at hinv
  by_cases hn : n = 0
  · rw [if_pos hn]
    rw [if_pos hn] at hinv
    refine ⟨0, s₁, bs₁, rfl, ?_, Or.inl ⟨rfl, hnull hn⟩⟩
    rw [if_neg (not_not.mpr rfl), if_neg h0]
    exact hinv
  rw [if_neg hn]
  rw [if_neg hn] at hinv
  have hnp : n ≠ p := fun heq => hnew (heq ▸ hp)
  obtain ⟨q₀, hq₀, hq₀p⟩ := List.mem_map.mp hp
  have hptr := h.ptr_ge hq₀
  -- source and target are two allocations of `s₁`
  have hsource : HeldBlock s₁.mem bs₁ (p, old) ∨ HeldObject s₁ O (p, old) := by
    apply (hinv.header (List.mem_cons_of_mem _ hp)).2
    rw [← hq₀p, (hsame q₀ hq₀).header hptr, hq₀p]
  have hapart := (hinv.resize hsource).apart (q := (p, old)) (r := (n, size)) List.mem_cons_self
    (List.mem_cons_of_mem _ (mem_drop.mpr ⟨List.mem_cons_self, hnp⟩)) (Ne.symm hnp)
  dsimp only at hapart
  set m₂ := copyBytes old s₁.mem n p with hm₂
  have hout : ∀ x, x < n ∨ n + size ≤ x → m₂ x = s₁.mem x := fun x hx =>
    copyBytes_apply_of_lt_or_le (by omega)
  have hcopy := hinv.write (q := (n, size)) List.mem_cons_self hout
  obtain ⟨bs₃, hfree, hsame₃⟩ := hcopy.kfree_sameAt slabFree he (List.mem_cons_of_mem _ hp)
  have hn12 := hinv.ptr_ge List.mem_cons_self
  have hkeep := hsame₃ (n, size) List.mem_cons_self hnp
  refine ⟨n, _, bs₃, rfl, ?_, Or.inr (Or.inr ⟨hn, hnew, ?_, fun i hi => ?_, fun q hq hqp => ?_⟩)⟩
  · rw [if_pos hn]
    unfold drop at hfree
    rw [List.filter_cons_of_pos (by simpa using hnp)] at hfree
    exact hfree
  · rw [hkeep.header hn12, ← hheader hn]
    unfold allocHeaderSize
    apply load_congr
    rintro x ⟨h1, h2⟩
    exact hout x (by dsimp only at hn12 h2; omega)
  · -- the copied bytes are not touched by the release of the source
    have hmove : (Heap.kfree slabFree { s₁ with mem := m₂ } p).mem (n + i) = m₂ (n + i) :=
      hkeep (n + i) (by dsimp only; omega) (by dsimp only; omega)
    rw [hmove, hm₂, copyBytes_apply (by omega), if_pos ⟨by omega, by omega⟩, Nat.add_sub_cancel_left]
    apply hsame q₀ hq₀
    · omega
    · rw [hq₀p]
      omega
  · have hqn : q.1 ≠ n := fun heq => hnew (List.mem_map.mpr ⟨q, hq, heq⟩)
    have hq12 := h.ptr_ge hq
    have hwrite : SameAt s₁.mem m₂ q :=
      hinv.write_sameAt (List.mem_cons_of_mem _ hq) List.mem_cons_self hqn hout
    exact ((hsame q hq).trans hwrite hq12).trans (hsame₃ q (List.mem_cons_of_mem _ hq) hqp) hq12

end bytes

/-! ### Runs with the sizes of the allocations -/

section runs

variable {A : Type}

/-- The pointer `p` leads to a used block of the list. -/
def InUse (s : State A) (p : ℕ) : Prop :=
  ∃ as, IsDList (blockNext s.mem) (blockPrev s.mem) 0 as s.heapHead ∧
    ∃ a ∈ as, p = a + blockHeaderSize + allocHeaderSize ∧ blockFree s.mem a = 0

/-- A run that carries the sizes along. -/
structure Tracked (A : Type) extends Run A where
  /-- The size with which the pointer was allocated, or to which it was last grown. -/
  old : ℕ → ℕ

variable (slabAlloc : ℕ → Machine A → ℕ × Machine A) (slabFree : ℕ → ℕ → Machine A → Machine A)

/-- The pointer that the operation returns. -/
def returned (c : Run A) : Op → ℕ
  | .malloc size => ((kmalloc slabAlloc c.state size).map Prod.fst).getD 0
  | .calloc num size => ((kcalloc slabAlloc c.state num size).map Prod.fst).getD 0
  | .realloc ptr size => ((krealloc slabAlloc slabFree c.state ptr size).map Prod.fst).getD 0
  | _ => 0

/-- The sizes after the operation returned `r`. -/
def oldAfter (old : ℕ → ℕ) (r : ℕ) : Op → ℕ → ℕ
  | .malloc size => Function.update old r size
  | .calloc num size => Function.update old r (num * size)
  | .realloc ptr size => Function.update old r (if r = ptr then max (old r) size else size)
  | _ => old

/-- One operation. -/
def trackedStep (c : Tracked A) (op : Op) : Option (Tracked A) :=
  (step slabAlloc slabFree c.toRun op).map fun c' =>
    ⟨c', oldAfter c.old (returned slabAlloc slabFree c.toRun op) op⟩

/-- The headers hold the sizes. -/
def Sized (m : Mem) (live : List (ℕ × ℕ)) (old : ℕ → ℕ) : Prop :=
  ∀ q ∈ live, headerSize m (q.1 - allocHeaderSize) = old q.1

variable {slabAlloc slabFree} {m m' : Mem} {start e size p n : ℕ} {s : State A} {live live' : List (ℕ × ℕ)}
  {bs : List Block} {K : ℕ → Option ℕ} {O : Set (ℕ × ℕ)} {old : ℕ → ℕ}

/-- The sizes stay known for the allocations whose headers stay. -/
theorem Sized.keep (h : Sized m live old)
    (hkeep : ∀ q ∈ live', q ∈ live ∧ headerSize m' (q.1 - allocHeaderSize) = headerSize m (q.1 - allocHeaderSize)) :
    Sized m' live' old := by
  intro q hq
  obtain ⟨hq', hsame⟩ := hkeep q hq
  rw [hsame, h q hq']

/-- The size at a pointer that is not held. -/
theorem Sized.update (h : Sized m live old) (hn : n ∉ live.map Prod.fst) (v : ℕ) :
    Sized m live (Function.update old n v) := by
  intro q hq
  rw [h q hq, Function.update_of_ne]
  rintro rfl
  exact hn (List.mem_map_of_mem hq)

/-- The size of a new allocation is known. -/
theorem Sized.cons (h : Sized m live old) (hn : n ∉ live.map Prod.fst)
    (hheader : headerSize m (n - allocHeaderSize) = size) (k : ℕ) :
    Sized m ((n, k) :: live) (Function.update old n size) := by
  intro q hq
  rcases List.mem_cons.mp hq with rfl | hq
  · rw [Function.update_self]
    exact hheader
  · exact h.update hn size q hq

/-- After `kmalloc` the sizes are known, whether it has failed or not. -/
theorem Sized.afterMalloc (h : Sized m live old) (hn : n ∉ live.map Prod.fst)
    (hheader : n ≠ 0 → headerSize m (n - allocHeaderSize) = size) :
    Sized m (afterMalloc size n live) (Function.update old n size) := by
  unfold Heap.afterMalloc
  by_cases h0 : n = 0
  · rw [if_pos h0]
    exact h.update hn size
  · rw [if_neg h0]
    exact h.cons hn (hheader h0) size

/-- A release adds nothing to what is held. -/
theorem not_mem_drop {q : ℕ} (h : q ∉ live.map Prod.fst) : q ∉ (drop p live).map Prod.fst := by
  intro hq
  obtain ⟨r, hr, rfl⟩ := List.mem_map.mp hq
  exact h (List.mem_map_of_mem (mem_drop.mp hr).1)

variable (slabAlloc) in
/-- `kmalloc` keeps the sizes known. -/
theorem Sized.kmalloc (hsz : Sized s.mem live old) (h : Inv (Objects.none A) start e ⟨s, live⟩ bs K O)
    (he : e ≤ 2 ^ 64) (hspan : e < start + 2 ^ 32) (hsize : size + 28 ≤ 2 ^ 64) :
    ∃ n s' bs', Heap.kmalloc slabAlloc s size = some (n, s') ∧ n ∉ live.map Prod.fst ∧
      Inv (Objects.none A) start e ⟨s', Heap.afterMalloc size n live⟩ bs' K O ∧
      Sized s'.mem (Heap.afterMalloc size n live) (Function.update old n size) := by
  obtain ⟨n, s', bs', hcall, hn, hinv, -, hheader, hsame⟩ :=
    h.kmalloc_spec slabAlloc he hspan hsize
  refine ⟨n, s', bs', hcall, hn, hinv, Sized.afterMalloc ?_ hn hheader⟩
  exact hsz.keep fun q hq => ⟨hq, (hsame q hq).header (h.ptr_ge hq)⟩

variable (slabFree) in
/-- `kfree` keeps the sizes known. -/
theorem Sized.kfree (hsz : Sized s.mem live old) (h : Inv (Objects.none A) start e ⟨s, live⟩ bs K O)
    (he : e ≤ 2 ^ 64) (hp : p ∈ live.map Prod.fst) :
    ∃ bs', Inv (Objects.none A) start e ⟨Heap.kfree slabFree s p, drop p live⟩ bs' K O ∧
      Sized (Heap.kfree slabFree s p).mem (drop p live) old := by
  obtain ⟨bs', hinv, hsame⟩ := h.kfree_sameAt slabFree he hp
  refine ⟨bs', hinv, hsz.keep fun q hq => ?_⟩
  obtain ⟨hq, hne⟩ := mem_drop.mp hq
  exact ⟨hq, (hsame q hq hne).header (h.ptr_ge hq)⟩

variable (slabAlloc) in
/-- The loop of `kcalloc` writes behind the header. -/
theorem Sized.kcalloc {num : ℕ} (hsz : Sized s.mem live old)
    (h : Inv (Objects.none A) start e ⟨s, live⟩ bs K O) (he : e ≤ 2 ^ 64) (hspan : e < start + 2 ^ 32)
    (hsize : Word.mul 64 num size + 28 ≤ 2 ^ 64) :
    ∃ n s' bs', Heap.kcalloc slabAlloc s num size = some (n, s') ∧
      Inv (Objects.none A) start e ⟨s', Heap.afterMalloc (num * size) n live⟩ bs' K O ∧
      Sized s'.mem (Heap.afterMalloc (num * size) n live) (Function.update old n (num * size)) := by
  have hzero : (0 : ℕ) ∉ live.map Prod.fst := fun hmem => h.ne_zero hmem rfl
  by_cases hprod : num * size < 2 ^ 64
  · have hmul : Word.mul 64 num size = num * size := Nat.mod_eq_of_lt hprod
    rw [hmul] at hsize
    obtain ⟨n, s', bs', hcall, hn, hinv, hsz'⟩ := hsz.kmalloc slabAlloc h he hspan hsize
    rw [kcalloc_of_lt hprod, hcall, Option.map_some]
    dsimp only
    by_cases h0 : n = 0
    · rw [if_pos h0]
      exact ⟨0, s', bs', rfl, h0 ▸ hinv, h0 ▸ hsz'⟩
    · have hafter : Heap.afterMalloc (num * size) n live = (n, num * size) :: live := if_neg h0
      have hfill : ∀ x, x < n ∨ n + num * size ≤ x → fill (num * size) s'.mem n 0 x = s'.mem x := by
        intro x hx
        rw [fill_apply, if_neg (by omega)]
      rw [hafter] at hinv hsz'
      rw [if_neg h0]
      refine ⟨n, _, bs', rfl, ?_, ?_⟩
      · rw [hafter]
        exact hinv.write List.mem_cons_self hfill
      · rw [hafter]
        refine hsz'.keep fun q hq => ⟨hq, ?_⟩
        have hq12 := hinv.ptr_ge hq
        by_cases hqn : q.1 = n
        · rw [hqn] at hq12 ⊢
          unfold allocHeaderSize
          apply load_congr
          rintro x ⟨h1, h2⟩
          exact hfill x (by omega)
        · exact (hinv.write_sameAt hq List.mem_cons_self hqn hfill).header hq12
  · rw [kcalloc_of_le (not_lt.mp hprod)]
    refine ⟨0, s, bs, rfl, ?_, Sized.afterMalloc hsz hzero fun hn => absurd rfl hn⟩
    unfold Heap.afterMalloc
    rw [if_pos rfl]
    exact h

variable (slabAlloc slabFree) in
/-- `krealloc` keeps the sizes known. -/
theorem Sized.krealloc (hsz : Sized s.mem live old) (h : Inv (Objects.none A) start e ⟨s, live⟩ bs K O)
    (he : e ≤ 2 ^ 64) (hspan : e < start + 2 ^ 32) (hsize : size + 28 ≤ 2 ^ 64)
    (hp : p = 0 ∨ p ∈ live.map Prod.fst) :
    ∃ n s' bs', Heap.krealloc slabAlloc slabFree s p size = some (n, s') ∧
      Inv (Objects.none A) start e ⟨s', afterRealloc p size n live⟩ bs' K O ∧
      Sized s'.mem (afterRealloc p size n live)
        (Function.update old n (if n = p then max (old n) size else size)) := by
  have hzero : (0 : ℕ) ∉ live.map Prod.fst := fun hmem => h.ne_zero hmem rfl
  by_cases hp0 : p = 0
  · -- a null pointer: `kmalloc`
    subst hp0
    obtain ⟨n, s', bs', hcall, hn, hinv, hsz'⟩ := hsz.kmalloc slabAlloc h he hspan hsize
    have hafter : afterRealloc 0 size n live = Heap.afterMalloc size n live := by
      unfold afterRealloc Heap.afterMalloc
      rw [drop_of_not_mem hzero]
      split_ifs <;> first | rfl | contradiction
    refine ⟨n, s', bs', ?_, hafter ▸ hinv, ?_⟩
    · unfold Heap.krealloc
      rw [if_pos rfl, hcall]
    · rw [hafter]
      by_cases h0 : n = 0
      · subst h0
        have hnil : Heap.afterMalloc size 0 live = live := if_pos rfl
        rw [hnil] at hsz' ⊢
        intro q hq
        have hq0 : q.1 ≠ 0 := fun heq => hzero (List.mem_map.mpr ⟨q, hq, heq⟩)
        have hq' := hsz' q hq
        rw [Function.update_of_ne hq0] at hq' ⊢
        exact hq'
      · rw [if_neg h0]
        exact hsz'
  have hmem := hp.resolve_left hp0
  by_cases h0 : size = 0
  · obtain ⟨bs', hinv, hsz'⟩ := hsz.kfree slabFree h he hmem
    have hafter : afterRealloc p size 0 live = drop p live := by
      unfold afterRealloc
      rw [if_neg (not_not.mpr rfl), if_pos h0]
    refine ⟨0, Heap.kfree slabFree s p, bs', ?_, ?_, ?_⟩
    · unfold Heap.krealloc
      rw [if_neg hp0, if_pos h0]
    · rw [hafter]
      exact hinv
    · rw [hafter]
      exact hsz'.update (not_mem_drop hzero) _
  obtain ⟨n, s', bs', hcall, hinv, hcases⟩ :=
    h.krealloc_spec slabAlloc slabFree he hspan hmem h0 hsize
  refine ⟨n, s', bs', hcall, hinv, ?_⟩
  unfold afterRealloc
  rcases hcases with ⟨rfl, rfl⟩ | ⟨rfl, rfl, hfit⟩ | ⟨hn, hnew, hheader, -, hsame⟩
  · rw [if_neg (not_not.mpr rfl), if_neg h0]
    exact hsz.update hzero _
  · -- in place: the header keeps the larger size
    obtain ⟨q, hq, hqn⟩ := List.mem_map.mp hmem
    have hold := hsz q hq
    rw [hqn] at hold
    rw [if_pos hp0, if_pos rfl, max_eq_left (hold ▸ hfit), Function.update_eq_self]
    intro r hr
    rcases List.mem_cons.mp hr with rfl | hr
    · exact hold
    · exact hsz r (mem_drop.mp hr).1
  · have hnp : n ≠ p := fun heq => hnew (heq ▸ hmem)
    rw [if_pos hn, if_neg hnp]
    refine Sized.cons (hsz.keep fun q hq => ?_) (not_mem_drop hnew) hheader size
    obtain ⟨hq, hne⟩ := mem_drop.mp hq
    exact ⟨hq, (hsame q hq hne).header (h.ptr_ge hq)⟩

/-- Every operation returns, and the headers still hold the sizes. -/
theorem trackedStep_sized {c : Tracked A} {op : Op} (h : Inv (Objects.none A) start e c.toRun bs K O)
    (hsz : Sized c.state.mem c.live c.old) (he : e ≤ 2 ^ 64) (hspan : e < start + 2 ^ 32)
    (hv : Valid c.toRun op) :
    ∃ c', trackedStep slabAlloc slabFree c op = some c' ∧
      (∃ bs' O', Inv (Objects.none A) start e c'.toRun bs' K O') ∧ Sized c'.state.mem c'.live c'.old := by
  obtain ⟨⟨s, live⟩, old⟩ := c
  dsimp only at h hsz
  cases op with
  | enableSlab =>
      exact ⟨_, rfl, ⟨bs, O, h.region, h.owns, h.caches, h.layout, h.held, h.used, h.nodup⟩, hsz⟩
  | malloc size =>
      obtain ⟨n, s', bs', hcall, -, hinv, hsz'⟩ := hsz.kmalloc slabAlloc h he hspan hv
      refine ⟨⟨⟨s', afterMalloc size n live⟩, Function.update old n size⟩, ?_, ⟨bs', O, hinv⟩, hsz'⟩
      simp [trackedStep, step, returned, oldAfter, hcall]
  | calloc num size =>
      obtain ⟨n, s', bs', hcall, hinv, hsz'⟩ := hsz.kcalloc slabAlloc h he hspan hv
      refine ⟨⟨⟨s', afterMalloc (num * size) n live⟩, Function.update old n (num * size)⟩, ?_, ⟨bs', O, hinv⟩, hsz'⟩
      simp [trackedStep, step, returned, oldAfter, hcall]
  | realloc ptr size =>
      obtain ⟨n, s', bs', hcall, hinv, hsz'⟩ :=
        hsz.krealloc slabAlloc slabFree h he hspan hv.1 hv.2
      refine ⟨⟨⟨s', afterRealloc ptr size n live⟩,
        Function.update old n (if n = ptr then max (old n) size else size)⟩, ?_, ⟨bs', O, hinv⟩, hsz'⟩
      simp [trackedStep, step, returned, oldAfter, hcall]
  | free ptr =>
      by_cases hp : ptr ∈ live.map Prod.fst
      · obtain ⟨bs', hinv, hsz'⟩ := hsz.kfree slabFree h he hp
        exact ⟨_, rfl, ⟨bs', O, hinv⟩, hsz'⟩
      · refine ⟨⟨⟨s, live⟩, old⟩, ?_, ⟨bs, O, h⟩, hsz⟩
        have hcall : Heap.kfree slabFree s ptr = s := if_pos (hv.resolve_right hp)
        simp [trackedStep, step, oldAfter, hcall, drop_of_not_mem hp]
  | write addr byte =>
      obtain ⟨q, hq, h1, h2⟩ := hv
      have hm : ∀ x, x < q.1 ∨ q.1 + q.2 ≤ x → Function.update s.mem addr byte x = s.mem x :=
        fun x hx => Function.update_of_ne (by omega) _ _
      refine ⟨_, rfl, ⟨bs, O, h.write hq hm⟩, hsz.keep fun r hr => ⟨hr, ?_⟩⟩
      have hr12 := h.ptr_ge hr
      by_cases hrq : r.1 = q.1
      · rw [hrq] at hr12 ⊢
        unfold allocHeaderSize
        apply load_congr
        rintro x ⟨h3, h4⟩
        exact hm x (by omega)
      · exact (h.write_sameAt hr hq hrq hm).header hr12

/-- The pointers into used blocks are those that are held. -/
theorem Inv.inUse_iff (h : Inv (Objects.none A) start e ⟨s, live⟩ bs K O) :
    InUse s p ↔ p ∈ live.map Prod.fst := by
  have hrep := h.layout.rep
  constructor
  · rintro ⟨as, hlinks, a, ha, rfl, hused⟩
    obtain rfl : as = bs.map Block.addr := hlinks.isList.unique hrep.links.isList
    obtain ⟨b, hb, rfl⟩ := List.mem_map.mp ha
    rw [hrep.free b hb] at hused
    exact (h.used b hb (by simpa using hused)).2
  · intro hp
    obtain ⟨q, hq, rfl⟩ := List.mem_map.mp hp
    obtain ⟨b, hb, hbf, hqb, -⟩ := h.held_block hq
    refine ⟨_, hrep.links, b.addr, List.mem_map_of_mem hb, hqb, ?_⟩
    rw [hrep.free b hb, hbf]
    rfl

/-- `krealloc` to `size` bytes keeps the data, or fails without an effect. -/
def Preserves (slabAlloc : ℕ → Machine A → ℕ × Machine A) (slabFree : ℕ → ℕ → Machine A → Machine A)
    (c : Tracked A) (p size : ℕ) : Prop :=
  ∃ q s', krealloc slabAlloc slabFree c.state p size = some (q, s') ∧
    (q ≠ 0 → (∀ i < min (c.old p) size, s'.mem (q + i) = c.state.mem (p + i)) ∧ InUse s' q ∧
      allocHeaderSize + size ≤ blockSize s'.mem (q - allocHeaderSize - blockHeaderSize) ∧
      (InUse s' p → q = p) ∧
      ∀ r ∈ c.live, r.1 ≠ p → ∀ x, r.1 ≤ x → x < r.1 + max r.2 (c.old r.1) → s'.mem x = c.state.mem x) ∧
    (q = 0 → s' = c.state ∧ InUse s' p)

/-- `krealloc` of what is held keeps the data, or fails without an effect. -/
theorem Inv.preserves {c : Tracked A} (h : Inv (Objects.none A) start e c.toRun bs K O)
    (hsz : Sized c.state.mem c.live c.old) (he : e ≤ 2 ^ 64) (hspan : e < start + 2 ^ 32)
    (hp : p ∈ c.live.map Prod.fst) (h0 : size ≠ 0) (hsize : size + 28 ≤ 2 ^ 64) :
    Preserves slabAlloc slabFree c p size := by
  obtain ⟨⟨s, live⟩, old⟩ := c
  have hold : headerSize s.mem (p - allocHeaderSize) = old p := by
    obtain ⟨q, hq, rfl⟩ := List.mem_map.mp hp
    exact hsz q hq
  obtain ⟨n, s', bs', hcall, hinv, hcases⟩ :=
    h.krealloc_spec slabAlloc slabFree he hspan hp h0 hsize
  rw [hold] at hcases
  refine ⟨n, s', hcall, fun hn => ?_, fun hn => ?_⟩
  · have hafter : afterRealloc p size n live = (n, size) :: drop p live := if_pos hn
    rw [hafter] at hinv
    obtain ⟨b, hb, -, hnb, hbal⟩ := hinv.held_block List.mem_cons_self
    have haddr : n - allocHeaderSize - blockHeaderSize = b.addr := by
      unfold allocHeaderSize blockHeaderSize
      dsimp only at hnb
      omega
    have hroom : allocHeaderSize + size ≤ blockSize s'.mem (n - allocHeaderSize - blockHeaderSize) := by
      rw [haddr, hinv.layout.rep.size b hb]
      exact hbal.le
    have hlive : InUse s' n := hinv.inUse_iff.mpr List.mem_cons_self
    have honly : InUse s' p → n = p := by
      intro huse
      rcases List.mem_cons.mp (hinv.inUse_iff.mp huse) with heq | hmem
      · exact heq.symm
      · obtain ⟨q, hq, hqp⟩ := List.mem_map.mp hmem
        exact absurd hqp (mem_drop.mp hq).2
    rcases hcases with ⟨rfl, -⟩ | ⟨rfl, rfl, -⟩ | ⟨-, -, -, hcopy, hsame⟩
    · exact absurd rfl hn
    · exact ⟨fun _ _ => rfl, hlive, hroom, honly, fun _ _ _ _ _ _ => rfl⟩
    · refine ⟨fun i hi => hcopy i (lt_of_lt_of_le hi (min_le_left _ _)), hlive, hroom, honly, ?_⟩
      intro r hr hrp x h1 h2
      refine hsame r hr hrp x (by omega) ?_
      rw [hsz r hr]
      exact h2
  · have hp0 := h.ne_zero hp
    rcases hcases with ⟨-, rfl⟩ | ⟨hnp, -⟩ | ⟨hn', -⟩
    · exact ⟨rfl, h.inUse_iff.mpr hp⟩
    · exact absurd (hnp ▸ hn) hp0
    · exact absurd hn hn'

/-- In every state that a run of the heap without slab caches reaches, `krealloc` of every pointer that is held
keeps the data, or fails without an effect. -/
theorem krealloc_preserves (slabAlloc : ℕ → Machine A → ℕ × Machine A)
    (slabFree : ℕ → ℕ → Machine A → Machine A) (slabCacheCreate : ℕ → ℕ → Machine A → ℕ × Machine A)
    (s : Machine A) (old : ℕ → ℕ) (start size : ℕ) (h0 : 0 < start) (hend : start + size ≤ 2 ^ 64)
    (hsize : 48 ≤ size) (hlt : size < 2 ^ 32) (ops : List Op)
    (hg : Guarded (trackedStep slabAlloc slabFree) (fun c op => Valid c.toRun op)
      ⟨boot slabCacheCreate s false start size, old⟩ ops) :
    ∃ c, exec (trackedStep slabAlloc slabFree) ⟨boot slabCacheCreate s false start size, old⟩ ops = some c ∧
      ∀ p ∈ c.live.map Prod.fst, ∀ n, 1 ≤ n → n + 28 ≤ 2 ^ 64 → Preserves slabAlloc slabFree c p n := by
  have hspan : start + size < start + 2 ^ 32 := by omega
  have hstep : ∀ (c : Tracked A) op,
      (∃ bs K O, Inv (Objects.none A) start (start + size) c.toRun bs K O) ∧ Sized c.state.mem c.live c.old →
      Valid c.toRun op → ∃ c', trackedStep slabAlloc slabFree c op = some c' ∧
        (∃ bs K O, Inv (Objects.none A) start (start + size) c'.toRun bs K O) ∧
          Sized c'.state.mem c'.live c'.old := by
    rintro c op ⟨⟨bs, K, O, h⟩, hsz⟩ hvalid
    obtain ⟨c', hc', ⟨bs', O', h'⟩, hsz'⟩ := trackedStep_sized h hsz hend hspan hvalid
    exact ⟨c', hc', ⟨bs', K, O', h'⟩, hsz'⟩
  obtain ⟨K, hboot⟩ := inv_boot (P := Objects.none A) (s := s) ⟨fun _ => rfl, rfl⟩ h0 hsize hend
    (fun x _ _ => Set.mem_univ x) (show false = true → (Objects.none A).Creates slabCacheCreate from nofun)
  obtain ⟨c, hexec, ⟨bs, K, O, h⟩, hsz⟩ := exec_total hstep
    ⟨⟨_, K, _, hboot⟩, fun q hq => absurd hq List.not_mem_nil⟩ hg
  exact ⟨c, hexec, fun p hp n hn hn28 => h.preserves hsz hend hspan hp (Nat.one_le_iff_ne_zero.mp hn) hn28⟩

/-- On the heap of `kernel_main` two allocations are held, one of them written to, and the one between them is
released. -/
theorem krealloc_preserves_kernel :
    ∃ c, exec (trackedStep (fun _ s => (0, s)) fun _ _ s => s)
        ⟨boot (fun _ _ s => (0, s)) ⟨fun _ => 0, ()⟩ false 0x80000000 0x1000000, fun _ => 0⟩
        [.malloc 100, .malloc 50, .write 0x8000002c 7, .malloc 20, .free 0x800000bc] = some c ∧
      ∀ p ∈ c.live.map Prod.fst, ∀ n, 1 ≤ n → n + 28 ≤ 2 ^ 64 →
        Preserves (fun _ s => (0, s)) (fun _ _ s => s) c p n :=
  krealloc_preserves _ _ _ _ _ _ _ (by norm_num) (by norm_num) (by norm_num) (by norm_num) _
    (guarded_of_guardedBy (t := fun (c : Tracked Unit) op => decide (Valid c.toRun op))
      (fun _ _ h => of_decide_eq_true h) (by decide +kernel))

end runs

end PrometheusKernel.Heap
