import PrometheusKernel.Heap.Blocks

/-!
# What `kmalloc` and `kfree` do to the block list

`Layout` is the state of the heap between two calls: the blocks tile the heap, they are in memory as a
doubly linked list, and no two adjacent ones are free. `kmallocHeap_spec` and `kfree_spec` say that the
two functions keep it, and how the used blocks change; the bytes of the other used blocks stay.
-/

namespace PrometheusKernel.Heap

open ByteMem LinkedList Tiling

/-- The heap from `start` to `e` between two calls. -/
structure Layout (start e : ℕ) (m : Mem) (head : ℕ) (bs : List Block) : Prop where
  tiles : Tiles blockHeaderSize start bs e
  rep : Rep m head bs
  coalesced : Coalesced bs

/-- The block `b` holds an allocation of at least `n` bytes. -/
structure Allocated (m : Mem) (b : Block) (n : ℕ) : Prop where
  magic : headerMagic m (b.addr + 32) = allocMagic
  flags : headerFlags m (b.addr + 32) = allocFromHeap
  /-- What the header gives as the size lies in the block. -/
  room : 12 + headerSize m (b.addr + 32) ≤ b.size
  le : 12 + n ≤ b.size

/-- The fields of an `alloc_header_t` only depend on its 12 bytes. -/
theorem header_fields_congr {m m' : Mem} {a : ℕ} (h : ∀ x, a ≤ x → x < a + 12 → m' x = m x) :
    headerMagic m' a = headerMagic m a ∧ headerFlags m' a = headerFlags m a ∧
      headerSize m' a = headerSize m a ∧ headerCacheIndex m' a = headerCacheIndex m a := by
  refine ⟨load_congr fun x hx => ?_, load_congr fun x hx => ?_, load_congr fun x hx => ?_,
    load_congr fun x hx => ?_⟩
  all_goals
    obtain ⟨h1, h2⟩ := hx
    exact h x (by omega) (by omega)

/-- The header of an allocation only depends on its 12 bytes. -/
theorem Allocated.congr {m m' : Mem} {b : Block} {n : ℕ} (h : Allocated m b n)
    (hm : ∀ x, b.addr + 32 ≤ x → x < b.addr + 44 → m' x = m x) : Allocated m' b n := by
  obtain ⟨h1, h2, h3, -⟩ := header_fields_congr (a := b.addr + 32) (m := m)
    fun x hx hx' => hm x hx (by omega)
  exact ⟨h1 ▸ h.magic, h2 ▸ h.flags, h3 ▸ h.room, h.le⟩

/-! ### The allocation header -/

/-- Only the 12 bytes of the header are written. -/
theorem fillHeader_apply {m : Mem} {a size flags i x : ℕ} (hx : x < a ∨ a + 12 ≤ x) :
    fillHeader m a size flags i x = m x := by
  unfold fillHeader
  simp (disch := omega) only [store_apply_of_lt_or_le]

/-- The size is stored as a `uint32_t`. -/
theorem fillHeader_fields {m : Mem} {a i : ℕ} (size flags : ℕ) (hf : flags < 2 ^ 16) (hi : i < 2 ^ 8) :
    headerMagic (fillHeader m a size flags i) a = allocMagic ∧
      headerSize (fillHeader m a size flags i) a = size % 2 ^ 32 ∧
      headerFlags (fillHeader m a size flags i) a = flags ∧
      headerCacheIndex (fillHeader m a size flags i) a = i := by
  unfold fillHeader headerMagic headerSize headerFlags headerCacheIndex allocMagic
  refine ⟨?_, ?_, ?_, ?_⟩
  on_goal 2 => simp (disch := omega) only [load_store_disjoint, load_store_same]; norm_num
  all_goals simp (disch := omega) only [load_store_disjoint, load_store_of_lt]

/-- `align16` rounds up, modulo `2 ^ 64`. -/
theorem align16_mod (n : ℕ) : align16 n = (n + 15) % 2 ^ 64 / 16 * 16 := by
  have h : align16 n = Word.add 64 n 15 % 2 ^ 64 / 16 * 16 :=
    Word.and_high_mask (show 4 ≤ 64 by norm_num) (Word.add 64 n 15)
  rw [h, Word.add, Nat.mod_mod]

/-- `align16` rounds up. -/
theorem align16_eq {n : ℕ} (h : n + 15 < 2 ^ 64) : align16 n = (n + 15) / 16 * 16 := by
  rw [align16_mod, Nat.mod_eq_of_lt h]

/-! ### `kmalloc` -/

section calls

variable {m : Mem} {head start e : ℕ} {bs xs ys : List Block} {b : Block}

/-- The bytes of a block are in no header. -/
theorem not_inHeader (ht : Tiles blockHeaderSize start bs e) (hb : b ∈ bs) {x : ℕ}
    (h1 : b.addr + 32 ≤ x) (h2 : x < b.addr + 32 + b.size) : ¬ InHeader bs x := by
  rintro ⟨c, hc, h3, h4⟩
  unfold blockHeaderSize at h4
  by_cases hbc : b = c
  · subst hbc
    omega
  · have := ht.apart hb hc hbc
    unfold blockHeaderSize at this
    omega

/-- The headers lie in the heap. -/
theorem not_inHeader_of_outside (ht : Tiles blockHeaderSize start bs e) {x : ℕ} (hx : x < start ∨ e ≤ x) :
    ¬ InHeader bs x := by
  rintro ⟨c, hc, h3, h4⟩
  have := ht.mem_le hc
  unfold blockHeaderSize at h4 this
  omega

/-- `split_block` on a free block leaves a free block of at least the size asked for; what is cut off is
free, and the block behind it is used. -/
theorem Layout.split (h : Layout start e m head (xs ++ b :: ys)) (he : e ≤ 2 ^ 64)
    (hspan : e ≤ start + 2 ^ 63) (hb : b.free = true) {k : ℕ} (hk : k ≤ b.size) :
    ∃ u zs, u.addr = b.addr ∧ k ≤ u.size ∧ (u.size < k + 48 ∧ u.size ≤ b.size) ∧
      Rep (splitBlock m b.addr k) head (xs ++ u :: zs) ∧
      Tiles blockHeaderSize start (xs ++ u :: zs) e ∧ Coalesced xs ∧ Coalesced zs ∧
      (∀ c, c.free = false → (c ∈ zs ↔ c ∈ ys)) ∧
      (∀ x, ¬ InHeader (xs ++ u :: zs) x → splitBlock m b.addr k x = m x) ∧
      (k % 16 = 0 → Grid (xs ++ b :: ys) (xs ++ u :: zs)) := by
  have hbmem : b ∈ xs ++ b :: ys := List.mem_append_right _ List.mem_cons_self
  have hend := h.tiles.mem_le hbmem
  unfold blockHeaderSize at hend
  obtain ⟨hx, hby, -⟩ := h.coalesced.of_append
  by_cases hsplit : k + 48 ≤ b.size
  · obtain ⟨hrep, hframe⟩ := h.rep.split h.tiles he hsplit
    set r : Block := ⟨b.addr + 32 + k, b.size - k - 32, true⟩ with hr
    refine ⟨⟨b.addr, k, b.free⟩, r :: ys, rfl, le_rfl, ⟨Nat.lt_add_of_pos_right (by norm_num), hk⟩, hrep, ?_, hx, ?_,
      ?_, hframe, fun h16 c hc => ?_⟩
    · refine h.tiles.replace (l := [⟨b.addr, k, b.free⟩, r]) ⟨rfl, rfl, ?_⟩
      show b.addr + 32 + k + 32 + (b.size - k - 32) = b.addr + 32 + b.size
      omega
    · obtain ⟨-, hy, hmeet⟩ := Coalesced.of_append (l := [b]) hby
      refine Coalesced.append (l := [r]) (List.isChain_singleton r) hy fun _ _ y hyh hcon => ?_
      exact hmeet b rfl y hyh ⟨hb, hcon.2⟩
    · intro c hc
      rw [List.mem_cons]
      refine ⟨fun hcr => hcr.resolve_left ?_, Or.inr⟩
      rintro rfl
      exact absurd hc (by simp [hr])
    · rcases List.mem_append.mp hc with hc | hc
      · exact ⟨c, List.mem_append_left _ hc, rfl⟩
      · rcases List.mem_cons.mp hc with rfl | hc
        · exact ⟨b, hbmem, rfl⟩
        · rcases List.mem_cons.mp hc with rfl | hc
          · refine ⟨b, hbmem, ?_⟩
            show (b.addr + 32 + k) % 16 = b.addr % 16
            omega
          · exact ⟨c, List.mem_append_right _ (List.mem_cons_of_mem _ hc), rfl⟩
  · rw [splitBlock_of_lt (by omega) (by rw [h.rep.size b hbmem]; omega)]
    exact ⟨b, ys, rfl, hk, ⟨not_le.mp hsplit, le_rfl⟩, h.rep, h.tiles, hx, hby.tail, fun _ _ => Iff.rfl,
      fun _ _ => rfl, fun _ => Grid.refl _⟩

/-- The block at which the search of `kmalloc` stops. -/
theorem search_block (h : Layout start e m head bs) (he : e ≤ 2 ^ 64) (p : ℕ → Bool) :
    search (blockNext m) p walkBound head = some 0 ∨
      ∃ b ∈ bs, p b.addr = true ∧ search (blockNext m) p walkBound head = some b.addr := by
  have hlt : ∀ a ∈ bs.map Block.addr, a < 2 ^ 64 := by
    intro a ha
    obtain ⟨b, hb, rfl⟩ := List.mem_map.mp ha
    have := (h.tiles.mem_le hb).2
    unfold blockHeaderSize at this
    omega
  rw [search_walkBound h.rep.links.isList hlt]
  cases hfind : (bs.map Block.addr).find? p with
  | none => exact Or.inl rfl
  | some a =>
      obtain ⟨b, hb, rfl⟩ := List.mem_map.mp (List.mem_of_find?_eq_some hfind)
      exact Or.inr ⟨b, hb, List.find?_some hfind, rfl⟩

/-- A free block is marked used and gets its allocation header. -/
theorem Rep.take {u : Block} {zs : List Block} (hrep : Rep m head (xs ++ u :: zs))
    (ht : Tiles blockHeaderSize start (xs ++ u :: zs) e) (hx : Coalesced xs) (hz : Coalesced zs)
    {n : ℕ} (hroom : 12 + n ≤ u.size) :
    ∃ m', m' = fillHeader (Heap.setFree m u.addr 0) (u.addr + 32) n allocFromHeap slabCacheNone ∧
      Layout start e m' head (xs ++ ⟨u.addr, u.size, false⟩ :: zs) ∧
      Allocated m' ⟨u.addr, u.size, false⟩ n ∧ headerSize m' (u.addr + 32) = n % 2 ^ 32 ∧
      (∀ c ∈ xs ++ zs, ∀ x, c.addr + 32 ≤ x → x < c.addr + 32 + c.size → m' x = m x) ∧
      ∀ x, x < start ∨ e ≤ x → m' x = m x := by
  set c : Block := ⟨u.addr, u.size, false⟩ with hc
  obtain ⟨hrep', hframe⟩ := hrep.setFree ht false
  have ht' : Tiles blockHeaderSize start (xs ++ c :: zs) e := ht.replace (l := [c]) ⟨rfl, rfl⟩
  have hcmem : c ∈ xs ++ c :: zs := List.mem_append_right _ List.mem_cons_self
  obtain ⟨hmagic, hsize, hflags, -⟩ := fillHeader_fields (m := Heap.setFree m u.addr 0) (a := u.addr + 32)
    (i := slabCacheNone) n allocFromHeap (by decide) (by decide)
  refine ⟨_, rfl, ⟨ht', hrep'.congr fun x hxh => ?_, ?_⟩, ⟨hmagic, hflags, ?_, hroom⟩, hsize, ?_, ?_⟩
  · apply fillHeader_apply
    by_contra hcon
    exact not_inHeader ht' hcmem (show u.addr + 32 ≤ x by omega) (show x < u.addr + 32 + u.size by omega) hxh
  · refine hx.append (Coalesced.append (l := [c]) (List.isChain_singleton c) hz ?_) ?_
    · intro a ha y _ hcon
      obtain rfl : c = a := Option.some.inj ha
      exact absurd hcon.1 (by simp [hc])
    · intro a _ y hy hcon
      obtain rfl : c = y := Option.some.inj hy
      exact absurd hcon.2 (by simp [hc])
  · have hmod := Nat.mod_le n (2 ^ 32)
    show 12 + headerSize _ (u.addr + 32) ≤ u.size
    rw [hsize]
    omega
  · intro d hd x h1 h2
    have hdmem := mem_of_mem_rest (b := c) hd
    have hapart : d.addr + 32 + d.size ≤ u.addr ∨ u.addr + 32 + u.size ≤ d.addr := header_apart ht' hd
    rw [fillHeader_apply (show x < u.addr + 32 ∨ u.addr + 32 + 12 ≤ x by omega)]
    exact hframe x (not_inHeader ht' hdmem h1 h2)
  · intro x hx
    have hcend := ht'.mem_le hcmem
    simp only [hc, blockHeaderSize] at hcend
    rw [fillHeader_apply (show x < u.addr + 32 ∨ u.addr + 32 + 12 ≤ x by omega)]
    exact hframe x (not_inHeader_of_outside ht' hx)

variable {A : Type} {s : State A} {size : ℕ}

/-- What a call leaves alone: the used blocks, their bytes, and the memory outside the heap. -/
structure Keeps (start e : ℕ) (m m' : Mem) (bs bs' : List Block) : Prop where
  mem : ∀ c ∈ bs, c.free = false → c ∈ bs'
  bytes : ∀ c ∈ bs, c.free = false → ∀ x, c.addr + 32 ≤ x → x < c.addr + 32 + c.size → m' x = m x
  outside : ∀ x, x < start ∨ e ≤ x → m' x = m x

/-- The heap part of `kmalloc` fails without an effect, or turns a free block into a used one. -/
theorem kmallocHeap_spec (h : Layout start e s.mem s.heapHead bs) (he : e ≤ 2 ^ 64)
    (hspan : e ≤ start + 2 ^ 63) (hsize : size + 28 ≤ 2 ^ 64) :
    kmallocHeap s size = some (0, s) ∨
      ∃ m' b bs', kmallocHeap s size = some (b.addr + 44, { s with mem := m' }) ∧
        Layout start e m' s.heapHead bs' ∧ Keeps start e s.mem m' bs bs' ∧ b ∈ bs' ∧ b.free = false ∧
        (∀ c ∈ bs', c.free = false → c = b ∨ c ∈ bs) ∧ (∀ c ∈ bs, c.free = false → c.addr ≠ b.addr) ∧
        Allocated m' b size ∧ headerSize m' (b.addr + 32) = size % 2 ^ 32 ∧ Grid bs bs' := by
  have htotal : align16 (Word.add 64 allocHeaderSize size) = (size + 27) / 16 * 16 := by
    unfold allocHeaderSize
    rw [Word.add_eq (by omega), align16_eq (by omega)]
    congr 2
    omega
  unfold kmallocHeap
  dsimp only
  rw [htotal]
  set k := (size + 27) / 16 * 16 with hk
  rcases search_block h he (fun b => blockFree s.mem b ≠ 0 ∧ blockSize s.mem b ≥ k) with
    hnone | ⟨b, hb, hp, hsome⟩
  · left
    rw [hnone]
  right
  have hb0 := h.rep.addr_ne_zero hb
  obtain ⟨a, ha⟩ : ∃ a, b.addr = a + 1 := ⟨b.addr - 1, by omega⟩
  rw [ha] at hsome
  rw [hsome]
  dsimp only
  rw [← ha]
  obtain ⟨hbfree, hbsize⟩ : b.free = true ∧ k ≤ b.size := by
    rw [decide_eq_true_eq, h.rep.free b hb, h.rep.size b hb] at hp
    refine ⟨?_, hp.2⟩
    by_contra hcon
    exact hp.1 (by simp [hcon])
  have hbend := h.tiles.mem_le hb
  unfold blockHeaderSize at hbend
  obtain ⟨xs, ys, rfl⟩ := List.append_of_mem hb
  obtain ⟨u, zs, hu, hku, ⟨-, hub⟩, hrep, htiles, hx, hz, hused, hframe, hgrid⟩ := h.split he hspan hbfree hbsize
  rw [← hu] at hrep hframe ⊢
  obtain ⟨m', hm', hlayout, halloc, hheader, hbytes, houtside⟩ := hrep.take htiles hx hz (n := size) (by omega)
  have hkeep : ∀ c ∈ xs ++ b :: ys, c.free = false → c ∈ xs ++ zs := by
    intro c hc hcf
    rcases eq_or_mem_rest hc with rfl | hc
    · exact absurd (hbfree ▸ hcf) (by simp)
    · rcases List.mem_append.mp hc with hc | hc
      · exact List.mem_append_left _ hc
      · exact List.mem_append_right _ ((hused c hcf).mpr hc)
  refine ⟨m', ⟨u.addr, u.size, false⟩, _, ?_, hlayout, ⟨?_, ?_, ?_⟩,
    List.mem_append_right _ List.mem_cons_self, rfl, ?_, ?_, halloc, hheader,
    (hgrid (Nat.mul_mod_left _ 16)).trans (grid_replace rfl fun _ hc => hc)⟩
  · rw [hm']
    rfl
  · exact fun c hc hcf => mem_of_mem_rest (hkeep c hc hcf)
  · intro c hc hcf x h1 h2
    rw [hbytes c (hkeep c hc hcf) x h1 h2]
    exact hframe x (not_inHeader htiles (mem_of_mem_rest (hkeep c hc hcf)) h1 h2)
  · intro x hx
    rw [houtside x hx]
    exact hframe x (not_inHeader_of_outside htiles hx)
  · intro c hc hcf
    rcases eq_or_mem_rest hc with rfl | hc
    · exact Or.inl rfl
    · right
      rcases List.mem_append.mp hc with hc | hc
      · exact List.mem_append_left _ hc
      · exact List.mem_append_right _ (List.mem_cons_of_mem _ ((hused c hcf).mp hc))
  · intro c hc hcf haddr
    have := header_apart htiles (hkeep c hc hcf)
    dsimp only at haddr
    omega

/-! ### `kfree` -/

variable {slabFree : ℕ → ℕ → Machine A → Machine A}

/-- `kfree` of the pointer into a used block turns the block free and leaves the other used blocks. -/
theorem kfree_spec (h : Layout start e s.mem s.heapHead bs) (he : e ≤ 2 ^ 64) (hb : b ∈ bs) {n : ℕ}
    (halloc : Allocated s.mem b n) :
    ∃ m' bs', kfree slabFree s (b.addr + 44) = { s with mem := m' } ∧
      Layout start e m' s.heapHead bs' ∧ (∀ c ∈ bs', c.free = false → c ∈ bs ∧ c.addr ≠ b.addr) ∧
      (∀ c ∈ bs, c.free = false → c.addr ≠ b.addr → c ∈ bs') ∧
      (∀ c ∈ bs, c.addr ≠ b.addr → ∀ x, c.addr + 32 ≤ x → x < c.addr + 32 + c.size → m' x = s.mem x) ∧
      (∀ x, x < start ∨ e ≤ x → m' x = s.mem x) ∧ Grid bs bs' := by
  have hcall : kfree slabFree s (b.addr + 44)
      = { s with mem := coalesce (setFree s.mem b.addr 1) b.addr } := by
    have h1 : b.addr + 44 - 12 = b.addr + 32 := by omega
    have h2 : b.addr + 32 - 32 = b.addr := by omega
    unfold kfree allocHeaderSize blockHeaderSize
    rw [if_neg (by omega)]
    dsimp only
    rw [h1, h2, halloc.magic, halloc.flags, if_neg (by simp), if_neg (by decide), if_pos (by decide)]
  obtain ⟨xs, ys, rfl⟩ := List.append_of_mem hb
  obtain ⟨hrep, hframe⟩ := h.rep.setFree h.tiles true
  set c : Block := ⟨b.addr, b.size, true⟩ with hc
  have ht : Tiles blockHeaderSize start (xs ++ c :: ys) e := h.tiles.replace (l := [c]) ⟨rfl, rfl⟩
  obtain ⟨hx, hby, -⟩ := h.coalesced.of_append
  obtain ⟨bs', hrep', ht', hcoal, hin, hout, hframe', hgrid⟩ := hrep.coalesce ht he rfl hx hby.tail
  have hrest : ∀ d ∈ xs ++ b :: ys, d.addr ≠ b.addr → d ∈ xs ++ ys := by
    intro d hd hne
    exact (eq_or_mem_rest hd).resolve_left fun heq => hne (heq ▸ rfl)
  have hmark : Grid (xs ++ b :: ys) (xs ++ c :: ys) := grid_replace rfl fun _ hd => hd
  refine ⟨_, bs', hcall, ⟨ht', hrep', hcoal⟩, ?_, ?_, ?_, ?_, hmark.trans hgrid⟩
  · intro d hd hdf
    have hd' := hin d hd hdf
    refine ⟨mem_of_mem_rest hd', fun haddr => ?_⟩
    have := header_apart h.tiles hd'
    omega
  · exact fun d hd hdf hne => hout d (hrest d hd hne) hdf
  · intro d hd hne x h1 h2
    have hd' : d ∈ xs ++ c :: ys := mem_of_mem_rest (hrest d hd hne)
    exact (hframe' x (not_inHeader ht hd' h1 h2)).trans (hframe x (not_inHeader ht hd' h1 h2))
  · intro x hx
    exact (hframe' x (not_inHeader_of_outside ht hx)).trans (hframe x (not_inHeader_of_outside ht hx))

end calls

end PrometheusKernel.Heap
