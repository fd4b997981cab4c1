import PrometheusKernel.Heap.TilesHeap

/-!
# Requests near the top of the size range

`kmalloc` adds the header of 12 bytes and rounds up to 16, both modulo `2 ^ 64`: for the 27 largest sizes the
total is 0 or 16 (`align16_wrapped`), and the first free block of that size is taken for the request. Without
such a block the request fails, and nothing happens; that, `Wraps`, is all that goes wrong
(`requests_clean_iff`). The check of `kcalloc` is exact, and hands the product on to `kmalloc`.
-/

namespace PrometheusKernel.Heap

open ByteMem LinkedList Tiling Interleaving

variable {A : Type} {start e n num size : ℕ} {c : Run A} {s : State A} {live : List (ℕ × ℕ)}
  {bs : List Block} {K : ℕ → Option ℕ} {O : Set (ℕ × ℕ)}
  {slabAlloc : ℕ → Machine A → ℕ × Machine A} {slabFree : ℕ → ℕ → Machine A → Machine A}

/-- `kmalloc` fails without an effect, or takes a block with room for the header and the bytes. -/
def MallocClean (slabAlloc : ℕ → Machine A → ℕ × Machine A) (s : State A) (size : ℕ) : Prop :=
  ∃ p s', kmalloc slabAlloc s size = some (p, s') ∧
    (p ≠ 0 → allocHeaderSize + size ≤ blockSize s'.mem (p - allocHeaderSize - blockHeaderSize)) ∧
    (p = 0 → s' = s)

/-- `kcalloc` fails without an effect, or takes a block with room for the header and the bytes, which are
zero. -/
def CallocClean (slabAlloc : ℕ → Machine A → ℕ × Machine A) (s : State A) (num size : ℕ) : Prop :=
  ∃ p s', kcalloc slabAlloc s num size = some (p, s') ∧
    (p ≠ 0 → num * size < 2 ^ 64 ∧
      allocHeaderSize + num * size ≤ blockSize s'.mem (p - allocHeaderSize - blockHeaderSize) ∧
      ∀ x, p ≤ x → x < p + num * size → s'.mem x = 0) ∧
    (p = 0 → s' = s)

/-- The block list has a free block of at least `k` bytes. -/
def HasFree (s : State A) (k : ℕ) : Prop :=
  ∃ as, IsDList (blockNext s.mem) (blockPrev s.mem) 0 as s.heapHead ∧
    ∃ a ∈ as, blockFree s.mem a ≠ 0 ∧ k ≤ blockSize s.mem a

/-- The total for `size` bytes does not fit 64 bits, and there is a free block for what is left of it. -/
def Wraps (s : State A) (size : ℕ) : Prop :=
  2 ^ 64 < size + 28 ∧ HasFree s (align16 (Word.add 64 allocHeaderSize size))

/-- What is left of a total that does not fit. -/
theorem align16_wrapped (h : 2 ^ 64 < size + 28) (hlt : size < 2 ^ 64) :
    align16 (Word.add 64 allocHeaderSize size) ≤ 16 := by
  rw [align16_mod]
  unfold Word.add allocHeaderSize
  omega

/-! ### `kmalloc` on sizes that wrap -/

/-- Without a free block of the size that is left, the request fails. -/
theorem kmallocHeap_of_not_wraps (h : Layout start e s.mem s.heapHead bs) (he : e ≤ 2 ^ 64)
    (hsize : 2 ^ 64 < size + 28) (hw : ¬ Wraps s size) : kmallocHeap s size = some (0, s) := by
  unfold kmallocHeap
  dsimp only
  set k := align16 (Word.add 64 allocHeaderSize size) with hk
  rcases search_block h he (fun b => blockFree s.mem b ≠ 0 ∧ blockSize s.mem b ≥ k) with
    hnone | ⟨b, hb, hp, -⟩
  · rw [hnone]
  · rw [decide_eq_true_eq] at hp
    exact absurd ⟨hsize, _, h.rep.links, b.addr, List.mem_map_of_mem hb, hp⟩ hw

/-- With one, it gets a block that is smaller than the request. -/
theorem kmallocHeap_of_wraps (h : Layout start e s.mem s.heapHead bs) (he : e ≤ 2 ^ 64)
    (hspan : e ≤ start + 2 ^ 63) (hlt : size < 2 ^ 64) (hw : Wraps s size) :
    ∃ b m', kmallocHeap s size = some (b + 44, { s with mem := m' }) ∧ blockSize m' b < 12 + size := by
  obtain ⟨hsize, as, hlinks, a, ha, hfree⟩ := hw
  have hk16 := align16_wrapped hsize hlt
  unfold kmallocHeap
  dsimp only
  set k := align16 (Word.add 64 allocHeaderSize size) with hk
  rcases search_block h he (fun b => blockFree s.mem b ≠ 0 ∧ blockSize s.mem b ≥ k) with
    hnone | ⟨b, hb, hp, hsome⟩
  · -- the search passes every free block that is large enough
    have hpass := eq_false_of_search hlinks.isList hnone a ha
    exact absurd hfree (of_decide_eq_false hpass)
  have hb0 := h.rep.addr_ne_zero hb
  obtain ⟨a', ha'⟩ : ∃ a', b.addr = a' + 1 := ⟨b.addr - 1, by omega⟩
  rw [ha'] at hsome
  rw [hsome]
  dsimp only
  rw [← ha']
  rw [decide_eq_true_eq, h.rep.free b hb, h.rep.size b hb] at hp
  have hbfree : b.free = true := by
    by_contra hcon
    exact hp.1 (by simp [hcon])
  obtain ⟨xs, ys, rfl⟩ := List.append_of_mem hb
  obtain ⟨u, zs, hu, -, ⟨huk, -⟩, hrep, -⟩ := h.split he hspan hbfree hp.2
  set m' := fillHeader (setFree (splitBlock s.mem b.addr k) b.addr 0) (b.addr + 32) size allocFromHeap
    slabCacheNone with hm'
  refine ⟨b.addr, m', rfl, ?_⟩
  have hsplit := hrep.size u (List.mem_append_right _ List.mem_cons_self)
  rw [hu] at hsplit
  -- the size field lies before the two headers that are written afterwards
  have hframe : blockSize m' b.addr = blockSize (splitBlock s.mem b.addr k) b.addr := by
    apply load_congr
    rintro x ⟨h1, h2⟩
    rw [hm', fillHeader_apply (by omega)]
    exact store_apply_of_lt_or_le (by omega)
  rw [hframe, hsplit]
  omega

variable (slabAlloc) in
/-- A size whose sum with the headers wraps to no block is refused. -/
theorem Inv.kmalloc_failed (h : Inv (Objects.none A) start e ⟨s, live⟩ bs K O) (he : e ≤ 2 ^ 64)
    (hsize : 2 ^ 64 < size + 28) (hw : ¬ Wraps s size) : Heap.kmalloc slabAlloc s size = some (0, s) := by
  rw [h.kmalloc_eq, if_neg (by omega)]
  exact kmallocHeap_of_not_wraps h.layout he hsize hw

variable (slabAlloc) in
/-- `kmalloc` fails without an effect, or returns the pointer into a block that is large enough unless the
total wrapped. -/
theorem Inv.kmalloc_cases (h : Inv (Objects.none A) start e ⟨s, live⟩ bs K O) (he : e ≤ 2 ^ 64)
    (hspan : e ≤ start + 2 ^ 63) (hlt : size < 2 ^ 64) :
    (Heap.kmalloc slabAlloc s size = some (0, s) ∧ ¬ Wraps s size) ∨
      ∃ b m', Heap.kmalloc slabAlloc s size = some (b + 44, { s with mem := m' }) ∧
        (12 + size ≤ blockSize m' b ↔ ¬ Wraps s size) := by
  by_cases hsize : 2 ^ 64 < size + 28
  · by_cases hw : Wraps s size
    · obtain ⟨b, m', hcall, hlt'⟩ := kmallocHeap_of_wraps h.layout he hspan hlt hw
      refine Or.inr ⟨b, m', ?_, iff_of_false (by omega) (not_not.mpr hw)⟩
      rw [h.kmalloc_eq, if_neg (by omega), hcall]
    · exact Or.inl ⟨h.kmalloc_failed slabAlloc he hsize hw, hw⟩
  have hw : ¬ Wraps s size := fun hcon => hsize hcon.1
  rw [h.kmalloc_eq]
  by_cases h0 : size = 0
  · rw [if_pos h0]
    exact Or.inl ⟨rfl, hw⟩
  rw [if_neg h0]
  rcases kmallocHeap_spec h.layout he hspan (not_lt.mp hsize) with hfail |
    ⟨m', b, bs', hcall, hlayout, -, hb, -, -, -, halloc, -, -⟩
  · exact Or.inl ⟨hfail, hw⟩
  · refine Or.inr ⟨b.addr, m', hcall, iff_of_true ?_ hw⟩
    rw [hlayout.rep.size b hb]
    exact halloc.le

/-- `kmalloc` returns null or enough bytes exactly if the sum does not wrap to a block that is there. -/
theorem Inv.mallocClean_iff (h : Inv (Objects.none A) start e ⟨s, live⟩ bs K O) (he : e ≤ 2 ^ 64)
    (hspan : e ≤ start + 2 ^ 63) (hlt : size < 2 ^ 64) : MallocClean slabAlloc s size ↔ ¬ Wraps s size := by
  unfold MallocClean allocHeaderSize blockHeaderSize
  rcases h.kmalloc_cases slabAlloc he hspan hlt with ⟨hcall, hw⟩ | ⟨b, m', hcall, hiff⟩
  · exact iff_of_true ⟨0, s, hcall, fun hne => absurd rfl hne, fun _ => rfl⟩ hw
  · rw [hcall, ← hiff]
    constructor
    · rintro ⟨p, s', heq, hroom, -⟩
      obtain ⟨rfl, rfl⟩ := Prod.mk.inj (Option.some.inj heq)
      exact hroom (by omega)
    · intro hroom
      exact ⟨b + 44, _, rfl, fun _ => hroom, fun hzero => absurd hzero (by omega)⟩

/-! ### `kcalloc` -/

/-- `kcalloc` returns null or enough bytes exactly if the product wraps or its sum with the headers does not. -/
theorem Inv.callocClean_iff (h : Inv (Objects.none A) start e ⟨s, live⟩ bs K O) (he : e ≤ 2 ^ 64)
    (hspan : e ≤ start + 2 ^ 63) :
    CallocClean slabAlloc s num size ↔ (num * size < 2 ^ 64 → ¬ Wraps s (num * size)) := by
  unfold CallocClean allocHeaderSize blockHeaderSize
  by_cases hprod : num * size < 2 ^ 64
  · rw [kcalloc_of_lt hprod]
    rcases h.kmalloc_cases slabAlloc he hspan hprod with ⟨hcall, hw⟩ | ⟨b, m', hcall, hiff⟩
    · rw [hcall]
      exact iff_of_true ⟨0, s, rfl, fun hne => absurd rfl hne, fun _ => rfl⟩ fun _ => hw
    · -- the loop writes behind the header of the block
      have hframe : blockSize (fill (num * size) m' (b + 44) 0) b = blockSize m' b := by
        apply load_congr
        rintro x ⟨h1, h2⟩
        rw [fill_apply, if_neg (by omega)]
      have hres : (some (b + 44, ({ s with mem := m' } : State A))).map (fun r =>
          if r.1 = 0 then (0, r.2) else (r.1, { r.2 with mem := fill (num * size) r.2.mem r.1 0 }))
          = some (b + 44, { s with mem := fill (num * size) m' (b + 44) 0 }) := by
        rw [Option.map_some, if_neg (by dsimp only; omega)]
      rw [hcall, hres, forall_prop_of_true hprod, ← hiff, ← hframe]
      constructor
      · rintro ⟨p, s', heq, hroom, -⟩
        obtain ⟨rfl, rfl⟩ := Prod.mk.inj (Option.some.inj heq)
        exact (hroom (by omega)).2.1
      · intro hroom
        refine ⟨b + 44, _, rfl, fun _ => ⟨hprod, hroom, fun x h1 h2 => ?_⟩, fun hzero => absurd hzero (by omega)⟩
        dsimp only
        rw [fill_apply, if_pos ⟨h1, h2⟩]
  · rw [kcalloc_of_le (not_lt.mp hprod)]
    exact iff_of_true ⟨0, s, rfl, fun hne => absurd rfl hne, fun _ => rfl⟩ fun hcon => absurd hcon hprod

/-! ### Runs -/

/-- What the clients may do, with any 64-bit sizes. -/
def Asked (c : Run A) : Op → Prop
  | .malloc size => size < 2 ^ 64
  | .calloc num size => num < 2 ^ 64 ∧ size < 2 ^ 64
  | .realloc ptr size => size < 2 ^ 64 ∧ (ptr = 0 ∨ ptr ∈ c.live.map Prod.fst)
  | op => Valid c op

/-- The total of the request does not wrap to the size of a free block. -/
def Unwrapped (c : Run A) : Op → Prop
  | .malloc size => ¬ Wraps c.state size
  | .calloc num size => num * size < 2 ^ 64 → ¬ Wraps c.state (num * size)
  | .realloc _ size => ¬ Wraps c.state size
  | _ => True

variable (slabAlloc) in
/-- A `kcalloc` whose product does not fit, or wraps to nothing that is free, fails. -/
theorem Inv.kcalloc_failed (h : Inv (Objects.none A) start e ⟨s, live⟩ bs K O) (he : e ≤ 2 ^ 64)
    (hsize : 2 ^ 64 < num * size + 28) (hw : num * size < 2 ^ 64 → ¬ Wraps s (num * size)) :
    Heap.kcalloc slabAlloc s num size = some (0, s) := by
  by_cases hprod : num * size < 2 ^ 64
  · rw [kcalloc_of_lt hprod, h.kmalloc_failed slabAlloc he hsize (hw hprod)]
    rfl
  · exact kcalloc_of_le (not_lt.mp hprod)

variable (slabAlloc slabFree) in
/-- A `krealloc` for a size that wraps to nothing that is free fails. -/
theorem Inv.krealloc_failed (h : Inv (Objects.none A) start e ⟨s, live⟩ bs K O) (he : e ≤ 2 ^ 64) {p : ℕ}
    (hp : p = 0 ∨ p ∈ live.map Prod.fst) (hsize : 2 ^ 64 < size + 28) (hw : ¬ Wraps s size) :
    Heap.krealloc slabAlloc slabFree s p size = some (0, s) := by
  have hfail := h.kmalloc_failed slabAlloc he hsize hw
  unfold Heap.krealloc
  dsimp only
  by_cases hp0 : p = 0
  · rw [if_pos hp0, hfail]
  obtain ⟨hmagic, -⟩ := h.header (hp.resolve_left hp0)
  have hold : headerSize s.mem (p - allocHeaderSize) < 2 ^ 32 := load_four_lt _ _
  rw [if_neg hp0, if_neg (by omega), hmagic, if_neg (not_not.mpr rfl), if_neg (by omega), hfail]
  rfl

/-- Every operation whose total does not wrap returns and keeps the invariant. -/
theorem Inv.step_unwrapped (h : Inv (Objects.none A) start e c bs K O) (he : e ≤ 2 ^ 64)
    (hspan : e ≤ start + 2 ^ 63) {op : Op} (hasked : Asked c op) (hw : Unwrapped c op) :
    ∃ c', Heap.step slabAlloc slabFree c op = some c' ∧ ∃ bs' O', Inv (Objects.none A) start e c' bs' K O' := by
  have hvalid : Valid c op → ∃ c', Heap.step slabAlloc slabFree c op = some c' ∧
      ∃ bs' O', Inv (Objects.none A) start e c' bs' K O' := by
    intro hv
    obtain ⟨c', bs', O', hc', h', -⟩ := h.step (Objects.working_none slabAlloc slabFree) he hspan hv (h.fits_none op)
    exact ⟨c', hc', bs', O', h'⟩
  obtain ⟨s, live⟩ := c
  cases op with
  | malloc size =>
      by_cases hsize : size + 28 ≤ 2 ^ 64
      · exact hvalid hsize
      · refine ⟨⟨s, live⟩, ?_, bs, O, h⟩
        have hcall := h.kmalloc_failed slabAlloc he (not_le.mp hsize) hw
        simp [Heap.step, hcall, afterMalloc]
  | calloc num size =>
      by_cases hsize : num * size + 28 ≤ 2 ^ 64
      · have hmul : Word.mul 64 num size = num * size := Nat.mod_eq_of_lt (by omega)
        apply hvalid
        show Word.mul 64 num size + 28 ≤ 2 ^ 64
        rw [hmul]
        exact hsize
      · refine ⟨⟨s, live⟩, ?_, bs, O, h⟩
        have hcall := h.kcalloc_failed slabAlloc he (not_le.mp hsize) hw
        simp [Heap.step, hcall, afterMalloc]
  | realloc ptr size =>
      by_cases hsize : size + 28 ≤ 2 ^ 64
      · exact hvalid ⟨hsize, hasked.2⟩
      · refine ⟨⟨s, live⟩, ?_, bs, O, h⟩
        have hcall := h.krealloc_failed slabAlloc slabFree he hasked.2
          (not_le.mp hsize) hw
        have hsize0 : size ≠ 0 := by omega
        simp [Heap.step, hcall, afterRealloc, hsize0]
  | enableSlab => exact hvalid hasked
  | free ptr => exact hvalid hasked
  | write addr byte => exact hvalid hasked

/-- In every state that a run reaches in which no total has wrapped, `kmalloc` and `kcalloc` are clean exactly
for the requests whose total does not wrap. -/
theorem requests_clean_iff (slabAlloc : ℕ → Machine A → ℕ × Machine A) (slabFree : ℕ → ℕ → Machine A → Machine A)
    (slabCacheCreate : ℕ → ℕ → Machine A → ℕ × Machine A) (s : Machine A) (start size : ℕ) (h0 : 0 < start)
    (hend : start + size ≤ 2 ^ 64) (hsize : 48 ≤ size) (hlt : size ≤ 2 ^ 63) (ops : List Op)
    (hg : Guarded (step slabAlloc slabFree) (fun c op => Asked c op ∧ Unwrapped c op)
      (boot slabCacheCreate s false start size) ops) :
    ∃ c, exec (step slabAlloc slabFree) (boot slabCacheCreate s false start size) ops = some c ∧
      (∀ n < 2 ^ 64, MallocClean slabAlloc c.state n ↔ ¬ Wraps c.state n) ∧
      ∀ num < 2 ^ 64, ∀ n < 2 ^ 64, CallocClean slabAlloc c.state num n ↔
        (num * n < 2 ^ 64 → ¬ Wraps c.state (num * n)) := by
  have hspan : start + size ≤ start + 2 ^ 63 := by omega
  have hstep : ∀ (c : Run A) op, (∃ bs K O, Inv (Objects.none A) start (start + size) c bs K O) →
      Asked c op ∧ Unwrapped c op → ∃ c', step slabAlloc slabFree c op = some c' ∧
        ∃ bs K O, Inv (Objects.none A) start (start + size) c' bs K O := by
    rintro c op ⟨bs, K, O, h⟩ ⟨hasked, hw⟩
    obtain ⟨c', hc', bs', O', h'⟩ := h.step_unwrapped hend hspan hasked hw
    exact ⟨c', hc', bs', K, O', h'⟩
  obtain ⟨K, hboot⟩ := inv_boot (P := Objects.none A) (s := s) ⟨fun _ => rfl, rfl⟩ h0 hsize hend
    (fun x _ _ => Set.mem_univ x) (show false = true → (Objects.none A).Creates slabCacheCreate from nofun)
  obtain ⟨c, hexec, bs, K, O, h⟩ := exec_total hstep ⟨_, K, _, hboot⟩ hg
  obtain ⟨s', live⟩ := c
  exact ⟨_, hexec, fun n hn => h.mallocClean_iff hend hspan hn, fun num _ n _ => h.callocClean_iff hend hspan⟩

/-- The heap of `kernel_main` after an allocation of 100 bytes. -/
theorem requests_clean_iff_kernel :
    ∃ c, exec (step (fun _ s => (0, s)) fun _ _ s => s)
        (boot (fun _ _ s => (0, s)) ⟨fun _ => 0, ()⟩ false 0x80000000 0x1000000) [.malloc 100] = some c ∧
      (∀ n < 2 ^ 64, MallocClean (fun _ s => (0, s)) c.state n ↔ ¬ Wraps c.state n) ∧
      ∀ num < 2 ^ 64, ∀ n < 2 ^ 64, CallocClean (fun _ s => (0, s)) c.state num n ↔
        (num * n < 2 ^ 64 → ¬ Wraps c.state (num * n)) := by
  refine requests_clean_iff _ _ _ _ _ _ (by norm_num) (by norm_num) (by norm_num) (by norm_num) _
    ⟨⟨?_, fun hcon => ?_⟩, fun _ _ => trivial⟩
  · show 100 < 2 ^ 64
    norm_num
  · exact absurd hcon.1 (by norm_num)

/-- On the heap of `kernel_main`, `kmalloc` of `2 ^ 64 - 1` bytes returns a block of 16. -/
theorem largest_request_succeeds : ¬ ∀ (start size : ℕ) (ops : List Op) (c : Run Unit),
    Guarded (step (fun _ s => (0, s)) fun _ _ s => s) Valid
      (boot (fun _ _ s => (0, s)) ⟨fun _ => 0, ()⟩ false start size) ops →
    exec (step (fun _ s => (0, s)) fun _ _ s => s) (boot (fun _ _ s => (0, s)) ⟨fun _ => 0, ()⟩ false start size)
      ops = some c → ∀ n < 2 ^ 64, MallocClean (fun _ s => (0, s)) c.state n := by
  intro h
  obtain ⟨p, s', hcall, hroom, -⟩ := h 0x80000000 0x1000000 [] _ trivial rfl (2 ^ 64 - 1) (by norm_num)
  have hrun : ((kmalloc (fun _ s => (0, s)) (boot (fun _ _ s => (0, s)) ⟨fun _ => 0, ()⟩ false 0x80000000
      0x1000000).state (2 ^ 64 - 1)).map fun r => (r.1, blockSize r.2.mem 0x80000000)) = some (0x8000002c, 16) := by
    decide +kernel
  rw [hcall, Option.map_some] at hrun
  obtain ⟨hp, hblock⟩ := Prod.mk.inj (Option.some.inj hrun)
  obtain rfl : p = 0x8000002c := hp
  have hle := hroom (by norm_num)
  have hle' : 12 + (2 ^ 64 - 1) ≤ blockSize s'.mem 0x80000000 := hle
  have hblock' : blockSize s'.mem 0x80000000 = 16 := hblock
  omega

end PrometheusKernel.Heap
