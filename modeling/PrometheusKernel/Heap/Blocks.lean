import PrometheusKernel.Heap.Model
import PrometheusKernel.Lib.Tiling

/-!
# The block list in memory

`Rep m head bs` says that the memory `m` holds the blocks `bs` as a doubly linked list that starts at
`head`. Each function that changes the list is described by what it does to `bs`: `Rep.split`,
`Rep.setFree`, `Rep.merge`, `Rep.coalesce`. All of them write into the headers of the new list only
(`InHeader`), so that what lies between the headers stays.
-/

namespace PrometheusKernel.Heap

open ByteMem LinkedList Tiling

/-- The memory holds the blocks as a doubly linked list. -/
structure Rep (m : Mem) (head : ℕ) (bs : List Block) : Prop where
  links : IsDList (blockNext m) (blockPrev m) 0 (bs.map Block.addr) head
  size : ∀ b ∈ bs, blockSize m b.addr = b.size
  free : ∀ b ∈ bs, blockFree m b.addr = if b.free then 1 else 0

/-- The byte `x` lies in a header. -/
def InHeader (bs : List Block) (x : ℕ) : Prop := ∃ b ∈ bs, b.addr ≤ x ∧ x < b.addr + blockHeaderSize

/-- Every block of `bs'` starts at a multiple of 16 from a block of `bs`. -/
def Grid (bs bs' : List Block) : Prop := ∀ c ∈ bs', ∃ d ∈ bs, c.addr % 16 = d.addr % 16

/-- A list of blocks is on its own grid. -/
theorem Grid.refl (bs : List Block) : Grid bs bs := fun c hc => ⟨c, hc, rfl⟩

/-- The grid is passed on from list to list. -/
theorem Grid.trans {bs bs' bs'' : List Block} (h : Grid bs bs') (h' : Grid bs' bs'') : Grid bs bs'' := by
  intro c hc
  obtain ⟨d, hd, hcd⟩ := h' c hc
  obtain ⟨a, ha, hda⟩ := h d hd
  exact ⟨a, ha, hcd.trans hda⟩

/-- One block keeps its address, and the blocks behind it are among the old ones. -/
theorem grid_replace {xs ys ys' : List Block} {b b' : Block} (haddr : b'.addr = b.addr)
    (hsub : ∀ c ∈ ys', c ∈ ys) : Grid (xs ++ b :: ys) (xs ++ b' :: ys') := by
  intro c hc
  rcases List.mem_append.mp hc with hx | hy
  · exact ⟨c, List.mem_append_left _ hx, rfl⟩
  · rcases List.mem_cons.mp hy with rfl | hy
    · exact ⟨b, List.mem_append_right _ List.mem_cons_self, by rw [haddr]⟩
    · exact ⟨c, List.mem_append_right _ (List.mem_cons_of_mem _ (hsub c hy)), rfl⟩

section readers

variable {m m' : Mem} {a : ℕ}

/-- The fields of a header are read from its bytes. -/
theorem header_congr (h : ∀ x, a ≤ x → x < a + blockHeaderSize → m' x = m x) :
    blockSize m' a = blockSize m a ∧ blockFree m' a = blockFree m a ∧
      blockNext m' a = blockNext m a ∧ blockPrev m' a = blockPrev m a := by
  unfold blockHeaderSize at h
  refine ⟨load_congr fun x hx => ?_, load_congr fun x hx => ?_, load_congr fun x hx => ?_,
    load_congr fun x hx => ?_⟩
  all_goals
    obtain ⟨h1, h2⟩ := hx
    exact h x (by omega) (by omega)

end readers

section rep

variable {m m' : Mem} {head start e : ℕ} {bs xs ys : List Block} {b c : Block}

/-- The list is the same in memory with the same headers. -/
theorem Rep.congr (h : Rep m head bs) (hm : ∀ x, InHeader bs x → m' x = m x) : Rep m' head bs := by
  have hfield : ∀ b ∈ bs, blockSize m' b.addr = blockSize m b.addr ∧
      blockFree m' b.addr = blockFree m b.addr ∧ blockNext m' b.addr = blockNext m b.addr ∧
      blockPrev m' b.addr = blockPrev m b.addr :=
    fun b hb => header_congr fun x h1 h2 => hm x ⟨b, hb, h1, h2⟩
  refine ⟨h.links.congr ?_ ?_, fun b hb => ?_, fun b hb => ?_⟩
  · intro a ha
    obtain ⟨b, hb, rfl⟩ := List.mem_map.mp ha
    exact (hfield b hb).2.2.1
  · intro a ha
    obtain ⟨b, hb, rfl⟩ := List.mem_map.mp ha
    exact (hfield b hb).2.2.2
  · rw [(hfield b hb).1, h.size b hb]
  · rw [(hfield b hb).2.1, h.free b hb]

/-- The list around one of its blocks. -/
theorem Rep.links_at (h : Rep m head (xs ++ b :: ys)) :
    IsDList (blockNext m) (blockPrev m) 0 (xs.map Block.addr ++ b.addr :: ys.map Block.addr) head := by
  have hl := h.links
  rw [List.map_append, List.map_cons] at hl
  exact hl

/-- `b->next` is the block behind `b`, or null. -/
theorem Rep.next_eq (h : Rep m head (xs ++ b :: ys)) :
    blockNext m b.addr = (ys.map Block.addr).headD 0 := h.links_at.nx_eq

/-- `b->prev` is the block before `b`, or null. -/
theorem Rep.prev_eq (h : Rep m head (xs ++ b :: ys)) :
    blockPrev m b.addr = (0 :: xs.map Block.addr).getLast (by simp) := h.links_at.pv_eq

/-- The addresses of a tiling are distinct. -/
theorem addr_nodup (ht : Tiles blockHeaderSize start bs e) : (bs.map Block.addr).Nodup := by
  rw [List.nodup_iff_pairwise_ne, List.pairwise_map]
  refine ht.pairwise.imp fun {x y} hxy => ?_
  unfold blockHeaderSize at hxy
  omega

/-- A block other than `b` lies before or behind `b`. -/
theorem header_apart (ht : Tiles blockHeaderSize start (xs ++ b :: ys) e) {x : Block}
    (hx : x ∈ xs ++ ys) : x.addr + 32 + x.size ≤ b.addr ∨ b.addr + 32 + b.size ≤ x.addr := by
  rcases List.mem_append.mp hx with hx | hx
  · have := ht.around.1 x hx
    unfold blockHeaderSize at this
    omega
  · have := ht.around.2 x hx
    unfold blockHeaderSize at this
    omega

/-- The headers of different blocks do not overlap. -/
theorem headers_apart (ht : Tiles blockHeaderSize start bs e) (hb : b ∈ bs) (hc : c ∈ bs)
    (hne : b.addr ≠ c.addr) : b.addr + 32 ≤ c.addr ∨ c.addr + 32 ≤ b.addr := by
  have := ht.apart hb hc fun heq => hne (congrArg Block.addr heq)
  unfold blockHeaderSize at this
  omega

/-- The blocks around a block are on the list. -/
theorem mem_of_mem_rest {x : Block} (hx : x ∈ xs ++ ys) : x ∈ xs ++ b :: ys := by
  rcases List.mem_append.mp hx with hx | hx
  · exact List.mem_append_left _ hx
  · exact List.mem_append_right _ (List.mem_cons_of_mem _ hx)

/-- A block of the list is the one in the middle or around it. -/
theorem eq_or_mem_rest {x : Block} (hx : x ∈ xs ++ b :: ys) : x = b ∨ x ∈ xs ++ ys := by
  rcases List.mem_append.mp hx with hx | hx
  · exact Or.inr (List.mem_append_left _ hx)
  · rcases List.mem_cons.mp hx with hx | hx
    · exact Or.inl hx
    · exact Or.inr (List.mem_append_right _ hx)

/-- One block is replaced by one at its address, and the blocks behind it are among the old ones. -/
theorem inHeader_replace {b' : Block} {ys' : List Block} (haddr : b'.addr = b.addr) (hsub : ∀ c ∈ ys', c ∈ ys) {x : ℕ}
    (h : InHeader (xs ++ b' :: ys') x) : InHeader (xs ++ b :: ys) x := by
  obtain ⟨c, hc, hin⟩ := h
  rcases eq_or_mem_rest hc with rfl | hc
  · exact ⟨b, List.mem_append_right _ List.mem_cons_self, haddr ▸ hin⟩
  · exact ⟨c, mem_of_mem_rest (List.mem_append.mpr ((List.mem_append.mp hc).imp_right (hsub c))), hin⟩

/-- If the new block is free, every used block is an old one, -/
theorem used_of_replace {b' c : Block} {ys' : List Block} (hfree : b'.free = true) (hsub : ∀ c ∈ ys', c ∈ ys)
    (hc : c ∈ xs ++ b' :: ys') (hcf : c.free = false) : c ∈ xs ++ ys := by
  rcases eq_or_mem_rest hc with rfl | hc
  · exact absurd (hcf.symm.trans hfree) Bool.false_ne_true
  · exact List.mem_append.mpr ((List.mem_append.mp hc).imp_right (hsub c))

/-- and if the old block was free, every used block is still there. -/
theorem used_replace {b' c : Block} {ys' : List Block} (hb : b.free = true)
    (hkeep : ∀ c ∈ ys, c.free = false → c ∈ ys') (hc : c ∈ xs ++ b :: ys) (hcf : c.free = false) :
    c ∈ xs ++ b' :: ys' := by
  rcases eq_or_mem_rest hc with rfl | hc
  · exact absurd (hcf.symm.trans hb) Bool.false_ne_true
  · exact mem_of_mem_rest (List.mem_append.mpr ((List.mem_append.mp hc).imp_right fun hy => hkeep c hy hcf))

/-- No block is at address 0. -/
theorem Rep.addr_ne_zero (h : Rep m head bs) (hb : b ∈ bs) : b.addr ≠ 0 :=
  h.links.isList.ne_zero (List.mem_map_of_mem hb)

/-! ### `split_block` -/

/-- The writes of `split_block`, for a block at `b` with `next` at `c`. -/
theorem splitBlock_fields {b k c : ℕ} (hk : k + 48 ≤ blockSize m b) (hb : b + 32 + blockSize m b ≤ 2 ^ 64)
    (hc : blockNext m b = c) (hcb : c ≠ 0 → b + 32 + blockSize m b ≤ c) (hc64 : c + 32 ≤ 2 ^ 64) :
    blockSize (splitBlock m b k) b = k ∧ blockFree (splitBlock m b k) b = blockFree m b ∧
      blockNext (splitBlock m b k) b = b + 32 + k ∧ blockPrev (splitBlock m b k) b = blockPrev m b ∧
      blockSize (splitBlock m b k) (b + 32 + k) = blockSize m b - k - 32 ∧
      blockFree (splitBlock m b k) (b + 32 + k) = 1 ∧ blockNext (splitBlock m b k) (b + 32 + k) = c ∧
      blockPrev (splitBlock m b k) (b + 32 + k) = b ∧
      (c ≠ 0 → blockSize (splitBlock m b k) c = blockSize m c ∧
        blockFree (splitBlock m b k) c = blockFree m c ∧ blockNext (splitBlock m b k) c = blockNext m c ∧
        blockPrev (splitBlock m b k) c = b + 32 + k) ∧
      ∀ x, ¬ (b ≤ x ∧ x < b + 32) → ¬ (b + 32 + k ≤ x ∧ x < b + 32 + k + 32) →
        ¬ (c ≠ 0 ∧ c ≤ x ∧ x < c + 32) → splitBlock m b k x = m x := by
  have hcond : Word.add 64 (Word.add 64 k 32) 16 = k + 48 := by
    rw [Word.add_eq (a := k) (by omega), Word.add_eq (by omega)]
  have hsize : Word.sub 64 (Word.sub 64 (blockSize m b) k) 32 = blockSize m b - k - 32 := by
    rw [Word.sub_eq (a := blockSize m b) (by omega) (by omega), Word.sub_eq (by omega) (by omega)]
  set s := blockSize m b with hs
  set n := b + 32 + k with hn
  -- the new header
  set M := setPrev (setNext (setFree (setSize m n (s - k - 32)) n 1) n c) n b with hM
  have heq : splitBlock m b k = setSize (setNext (if c ≠ 0 then setPrev M c n else M) b n) b k := by
    have h1 : blockNext (setFree (setSize m n (s - k - 32)) n 1) b = c := by
      rw [← hc]
      unfold blockNext setFree setSize
      rw [load_store_disjoint (by omega), load_store_disjoint (by omega)]
    have h2 : blockNext M n = c := by
      unfold M blockNext setPrev setNext
      rw [load_store_disjoint (by omega), load_store_of_lt (by norm_num; omega)]
    unfold splitBlock blockHeaderSize
    rw [hcond, if_pos (by rw [← hs]; exact hk)]
    simp only [← hs, hsize, ← hn, h1, ← hM, h2]
  rw [heq]
  by_cases h0 : c = 0
  · rw [if_neg (not_not.mpr h0)]
    unfold M setSize setNext setPrev setFree blockSize blockFree blockNext blockPrev
    refine ⟨?_, ?_, ?_, ?_, ?_, ?_, ?_, ?_, fun h => absurd h0 h, fun x h1 h2 h3 => ?_⟩
    on_goal 9 => simp (disch := omega) only [store_apply_of_lt_or_le]
    all_goals simp (disch := omega) only [load_store_disjoint, load_store_of_lt]
  · have hcb' := hcb h0
    rw [if_pos h0]
    unfold M setSize setNext setPrev setFree blockSize blockFree blockNext blockPrev
    refine ⟨?_, ?_, ?_, ?_, ?_, ?_, ?_, ?_, fun _ => ⟨?_, ?_, ?_, ?_⟩, fun x h1 h2 h3 => ?_⟩
    on_goal 13 =>
      have h4 : x < c ∨ c + 32 ≤ x := by
        by_contra hcon
        exact h3 ⟨h0, by omega, by omega⟩
      simp (disch := omega) only [store_apply_of_lt_or_le]
    all_goals simp (disch := omega) only [load_store_disjoint, load_store_of_lt]

/-- What holds of all blocks follows from what holds of `b`, of the block behind it, and of the others. -/
theorem next_mem (hrep : Rep m head (xs ++ b :: ys)) (h0 : blockNext m b.addr ≠ 0) :
    ∃ c ys', ys = c :: ys' ∧ c.addr = blockNext m b.addr := by
  have hnext := hrep.next_eq
  cases ys with
  | nil => exact absurd hnext h0
  | cons c ys' => exact ⟨c, ys', rfl, hnext.symm⟩

/-- The header behind a header is behind the whole block. -/
theorem next_bound (hrep : Rep m head (xs ++ b :: ys))
    (ht : Tiles blockHeaderSize start (xs ++ b :: ys) e) (he : e ≤ 2 ^ 64) :
    (blockNext m b.addr ≠ 0 → b.addr + 32 + b.size ≤ blockNext m b.addr) ∧
      blockNext m b.addr + 32 ≤ 2 ^ 64 := by
  have hcase : blockNext m b.addr = 0 ∨ ∃ c ∈ ys, c.addr = blockNext m b.addr := by
    by_cases h0 : blockNext m b.addr = 0
    · exact Or.inl h0
    · obtain ⟨c, ys', rfl, hc⟩ := next_mem hrep h0
      exact Or.inr ⟨c, List.mem_cons_self, hc⟩
  rcases hcase with h0 | ⟨c, hc, hcaddr⟩
  · rw [h0]
    exact ⟨fun h => absurd rfl h, by norm_num⟩
  · have hin : c ∈ xs ++ b :: ys := List.mem_append_right _ (List.mem_cons_of_mem _ hc)
    have h1 := ht.around.2 c hc
    have h2 := (ht.mem_le hin).2
    unfold blockHeaderSize at h1 h2
    rw [← hcaddr]
    exact ⟨fun _ => h1, by omega⟩

/-- `split_block` on a block that is large enough. -/
theorem Rep.split (hrep : Rep m head (xs ++ b :: ys))
    (ht : Tiles blockHeaderSize start (xs ++ b :: ys) e) (he : e ≤ 2 ^ 64) {k : ℕ}
    (hk : k + 48 ≤ b.size) :
    Rep (splitBlock m b.addr k) head
        (xs ++ ⟨b.addr, k, b.free⟩ :: ⟨b.addr + 32 + k, b.size - k - 32, true⟩ :: ys) ∧
      ∀ x, ¬ InHeader (xs ++ ⟨b.addr, k, b.free⟩ ::
        ⟨b.addr + 32 + k, b.size - k - 32, true⟩ :: ys) x → splitBlock m b.addr k x = m x := by
  have hbmem : b ∈ xs ++ b :: ys := List.mem_append_right _ List.mem_cons_self
  have hsize := hrep.size b hbmem
  have hend := (ht.mem_le hbmem).2
  unfold blockHeaderSize at hend
  obtain ⟨hcb, hc64⟩ := next_bound hrep ht he
  obtain ⟨b1, b2, b3, b4, n1, n2, n3, n4, hc, hframe⟩ := splitBlock_fields (m := m) (b := b.addr) (k := k)
    (by omega) (by omega) rfl (by rw [hsize]; exact hcb) hc64
  rw [hsize] at n1
  have hfields : ∀ x ∈ xs ++ ys, blockSize (splitBlock m b.addr k) x.addr = blockSize m x.addr ∧
      blockFree (splitBlock m b.addr k) x.addr = blockFree m x.addr ∧
      blockNext (splitBlock m b.addr k) x.addr = blockNext m x.addr ∧
      blockPrev (splitBlock m b.addr k) x.addr
        = if x.addr = blockNext m b.addr then b.addr + 32 + k else blockPrev m x.addr := by
    intro x hx
    have hxmem := mem_of_mem_rest (b := b) hx
    by_cases hnext : x.addr = blockNext m b.addr
    · obtain ⟨c1, c2, c3, c4⟩ := hc (hnext ▸ hrep.addr_ne_zero hxmem)
      rw [if_pos hnext, hnext]
      exact ⟨c1, c2, c3, c4⟩
    · rw [if_neg hnext]
      refine header_congr fun y h1 h2 => hframe y ?_ ?_ ?_
      · have := header_apart ht hx
        unfold blockHeaderSize at h2
        omega
      · have := header_apart ht hx
        unfold blockHeaderSize at h2
        omega
      · rintro ⟨h0, h3, h4⟩
        obtain ⟨c, ys', rfl, hcaddr⟩ := next_mem hrep h0
        have hcmem : c ∈ xs ++ b :: c :: ys' :=
          List.mem_append_right _ (List.mem_cons_of_mem _ List.mem_cons_self)
        have := headers_apart ht hxmem hcmem (by rw [hcaddr]; exact hnext)
        unfold blockHeaderSize at h2
        omega
  have hcases : ∀ x ∈ xs ++ ⟨b.addr, k, b.free⟩ :: ⟨b.addr + 32 + k, b.size - k - 32, true⟩ :: ys,
      x = ⟨b.addr, k, b.free⟩ ∨ x = ⟨b.addr + 32 + k, b.size - k - 32, true⟩ ∨ x ∈ xs ++ ys := by
    intro x hx
    rcases eq_or_mem_rest hx with hx | hx
    · exact Or.inl hx
    · exact Or.inr (eq_or_mem_rest hx)
  refine ⟨⟨?_, ?_, ?_⟩, fun x hx => hframe x ?_ ?_ ?_⟩
  · rw [List.map_append, List.map_cons, List.map_cons]
    have hnodup := addr_nodup ht
    rw [List.map_append, List.map_cons] at hnodup
    refine hrep.links_at.insertAfter hnodup (show b.addr + 32 + k ≠ 0 by omega) b3 n3 n4 ?_ b4 ?_
    · intro a ha
      rw [← List.map_append] at ha
      obtain ⟨x, hx, rfl⟩ := List.mem_map.mp ha
      exact (hfields x hx).2.2.1
    · intro a ha
      rw [← List.map_append] at ha
      obtain ⟨x, hx, rfl⟩ := List.mem_map.mp ha
      exact (hfields x hx).2.2.2
  · intro x hx
    rcases hcases x hx with rfl | rfl | hx
    · exact b1
    · exact n1
    · rw [(hfields x hx).1]
      exact hrep.size x (mem_of_mem_rest hx)
  · intro x hx
    rcases hcases x hx with rfl | rfl | hx
    · rw [b2]
      exact hrep.free b hbmem
    · exact n2
    · rw [(hfields x hx).2.1]
      exact hrep.free x (mem_of_mem_rest hx)
  · exact fun hin => hx ⟨_, List.mem_append_right _ List.mem_cons_self, hin⟩
  · exact fun hin => hx ⟨_, List.mem_append_right _ (List.mem_cons_of_mem _ List.mem_cons_self), hin⟩
  · rintro ⟨h0, h3, h4⟩
    obtain ⟨c, ys', rfl, hcaddr⟩ := next_mem hrep h0
    refine hx ⟨c, ?_, ?_⟩
    · simp
    · rw [hcaddr]
      exact ⟨h3, h4⟩

/-- `split_block` on a block that is too small for it. -/
theorem splitBlock_of_lt {b k : ℕ} (hk : k + 48 < 2 ^ 64) (hb : blockSize m b < k + 48) :
    splitBlock m b k = m := by
  have hcond : Word.add 64 (Word.add 64 k 32) 16 = k + 48 := by
    rw [Word.add_eq (a := k) (by omega), Word.add_eq (by omega)]
  unfold splitBlock blockHeaderSize
  rw [hcond, if_neg (by omega)]

/-! ### `free` -/

/-- `b->free` is written. -/
theorem Rep.setFree (hrep : Rep m head (xs ++ b :: ys))
    (ht : Tiles blockHeaderSize start (xs ++ b :: ys) e) (f : Bool) :
    Rep (Heap.setFree m b.addr (if f then 1 else 0)) head (xs ++ ⟨b.addr, b.size, f⟩ :: ys) ∧
      ∀ x, ¬ InHeader (xs ++ ⟨b.addr, b.size, f⟩ :: ys) x →
        Heap.setFree m b.addr (if f then 1 else 0) x = m x := by
  have hbmem : b ∈ xs ++ b :: ys := List.mem_append_right _ List.mem_cons_self
  set v := if f then 1 else 0 with hv
  have hvlt : v < 256 ^ 4 := by
    rw [hv]
    split_ifs <;> norm_num
  have hframe : ∀ x, ¬ (b.addr ≤ x ∧ x < b.addr + 32) → Heap.setFree m b.addr v x = m x := by
    intro x hx
    exact store_apply_of_lt_or_le (by omega)
  have hself : blockSize (Heap.setFree m b.addr v) b.addr = blockSize m b.addr ∧
      blockFree (Heap.setFree m b.addr v) b.addr = v ∧
      blockNext (Heap.setFree m b.addr v) b.addr = blockNext m b.addr ∧
      blockPrev (Heap.setFree m b.addr v) b.addr = blockPrev m b.addr := by
    unfold Heap.setFree blockSize blockFree blockNext blockPrev
    refine ⟨?_, load_store_of_lt hvlt, ?_, ?_⟩
    all_goals rw [load_store_disjoint (by omega)]
  have hother : ∀ x ∈ xs ++ ys, blockSize (Heap.setFree m b.addr v) x.addr = blockSize m x.addr ∧
      blockFree (Heap.setFree m b.addr v) x.addr = blockFree m x.addr ∧
      blockNext (Heap.setFree m b.addr v) x.addr = blockNext m x.addr ∧
      blockPrev (Heap.setFree m b.addr v) x.addr = blockPrev m x.addr := by
    intro x hx
    refine header_congr fun y h1 h2 => hframe y ?_
    have := header_apart ht hx
    unfold blockHeaderSize at h2
    omega
  refine ⟨⟨?_, ?_, ?_⟩, fun x hx => hframe x ?_⟩
  · have hmap : (xs ++ (⟨b.addr, b.size, f⟩ : Block) :: ys).map Block.addr
        = (xs ++ b :: ys).map Block.addr := by
      rw [List.map_append, List.map_append, List.map_cons, List.map_cons]
    rw [hmap]
    refine hrep.links.congr ?_ ?_
    · intro a ha
      obtain ⟨x, hx, rfl⟩ := List.mem_map.mp ha
      rcases eq_or_mem_rest hx with rfl | hx
      · exact hself.2.2.1
      · exact (hother x hx).2.2.1
    · intro a ha
      obtain ⟨x, hx, rfl⟩ := List.mem_map.mp ha
      rcases eq_or_mem_rest hx with rfl | hx
      · exact hself.2.2.2
      · exact (hother x hx).2.2.2
  · intro x hx
    rcases eq_or_mem_rest hx with rfl | hx
    · rw [hself.1]
      exact hrep.size b hbmem
    · rw [(hother x hx).1]
      exact hrep.size x (mem_of_mem_rest hx)
  · intro x hx
    rcases eq_or_mem_rest hx with rfl | hx
    · exact hself.2.1
    · rw [(hother x hx).2.1]
      exact hrep.free x (mem_of_mem_rest hx)
  · exact fun hin => hx ⟨_, List.mem_append_right _ List.mem_cons_self, hin⟩

/-! ### `coalesce` -/

/-- The writes of a merge of `b` with the block at `n`, behind which is the block at `c`. -/
theorem mergeNext_fields {b n c : ℕ} (hn : blockNext m b = n) (hn0 : n ≠ 0) (hfree : blockFree m n ≠ 0)
    (hc : blockNext m n = c) (hbn : b + 32 ≤ n) (hnc : c ≠ 0 → n + 32 ≤ c) (hc64 : c + 32 ≤ 2 ^ 64)
    (hsize : blockSize m b + (32 + blockSize m n) < 2 ^ 64) :
    blockSize (mergeNext m b) b = blockSize m b + (32 + blockSize m n) ∧
      blockFree (mergeNext m b) b = blockFree m b ∧ blockNext (mergeNext m b) b = c ∧
      blockPrev (mergeNext m b) b = blockPrev m b ∧
      (c ≠ 0 → blockSize (mergeNext m b) c = blockSize m c ∧
        blockFree (mergeNext m b) c = blockFree m c ∧ blockNext (mergeNext m b) c = blockNext m c ∧
        blockPrev (mergeNext m b) c = b) ∧
      ∀ x, ¬ (b ≤ x ∧ x < b + 32) → ¬ (c ≠ 0 ∧ c ≤ x ∧ x < c + 32) → mergeNext m b x = m x := by
  have hadd : Word.add 64 (blockSize m b) (Word.add 64 32 (blockSize m n))
      = blockSize m b + (32 + blockSize m n) := by
    rw [Word.add_eq (a := 32) (by omega), Word.add_eq (by omega)]
  set s := blockSize m b + (32 + blockSize m n) with hs
  have heq : mergeNext m b = if c ≠ 0 then setPrev (setNext (setSize m b s) b c) c b
      else setNext (setSize m b s) b c := by
    have h1 : blockNext (setSize m b s) b = n := by
      rw [← hn]
      unfold blockNext setSize
      rw [load_store_disjoint (by omega)]
    have h2 : blockNext (setSize m b s) n = c := by
      rw [← hc]
      unfold blockNext setSize
      rw [load_store_disjoint (by omega)]
    have h3 : blockNext (setNext (setSize m b s) b c) b = c := by
      unfold blockNext setNext
      rw [load_store_of_lt (by norm_num; omega)]
    unfold mergeNext blockHeaderSize
    rw [hn, if_pos ⟨hn0, hfree⟩]
    simp only [hadd, h1, h2, h3]
  rw [heq]
  by_cases h0 : c = 0
  · rw [if_neg (not_not.mpr h0)]
    unfold setSize setNext blockSize blockFree blockNext blockPrev
    refine ⟨?_, ?_, ?_, ?_, fun h => absurd h0 h, fun x h1 h2 => ?_⟩
    on_goal 5 => simp (disch := omega) only [store_apply_of_lt_or_le]
    all_goals simp (disch := omega) only [load_store_disjoint, load_store_of_lt]
  · have hnc' := hnc h0
    rw [if_pos h0]
    unfold setSize setNext setPrev blockSize blockFree blockNext blockPrev
    refine ⟨?_, ?_, ?_, ?_, fun _ => ⟨?_, ?_, ?_, ?_⟩, fun x h1 h2 => ?_⟩
    on_goal 9 =>
      have h4 : x < c ∨ c + 32 ≤ x := by
        by_contra hcon
        exact h2 ⟨h0, by omega, by omega⟩
      simp (disch := omega) only [store_apply_of_lt_or_le]
    all_goals simp (disch := omega) only [load_store_disjoint, load_store_of_lt]

/-- A merge with a block behind that is free. -/
theorem Rep.merge (hrep : Rep m head (xs ++ b :: c :: ys))
    (ht : Tiles blockHeaderSize start (xs ++ b :: c :: ys) e) (he : e ≤ 2 ^ 64)
    (hfree : c.free = true) :
    Rep (mergeNext m b.addr) head (xs ++ ⟨b.addr, b.size + (32 + c.size), b.free⟩ :: ys) ∧
      ∀ x, ¬ InHeader (xs ++ ⟨b.addr, b.size + (32 + c.size), b.free⟩ :: ys) x →
        mergeNext m b.addr x = m x := by
  have hbmem : b ∈ xs ++ b :: c :: ys := List.mem_append_right _ List.mem_cons_self
  have hcmem : c ∈ xs ++ b :: c :: ys :=
    List.mem_append_right _ (List.mem_cons_of_mem _ List.mem_cons_self)
  -- the same list with `c` in the middle
  have hassoc : xs ++ b :: c :: ys = (xs ++ [b]) ++ c :: ys := by
    rw [List.append_assoc]
    rfl
  have hrep' : Rep m head ((xs ++ [b]) ++ c :: ys) := hassoc ▸ hrep
  have ht' : Tiles blockHeaderSize start ((xs ++ [b]) ++ c :: ys) e := hassoc ▸ ht
  have hn : blockNext m b.addr = c.addr := hrep.next_eq
  have hbc : b.addr + 32 + b.size ≤ c.addr := ht.around.2 c List.mem_cons_self
  have hcend := (ht.mem_le hcmem).2
  unfold blockHeaderSize at hcend
  obtain ⟨hnc, hc64⟩ := next_bound hrep' ht' he
  have hbsize := hrep.size b hbmem
  have hcsize := hrep.size c hcmem
  have hcfree : blockFree m c.addr ≠ 0 := by
    rw [hrep.free c hcmem, hfree]
    norm_num
  obtain ⟨b1, b2, b3, b4, hd, hframe⟩ := mergeNext_fields hn (hrep.addr_ne_zero hcmem) hcfree rfl
    (by omega) (fun h0 => by have := hnc h0; omega) hc64 (by rw [hbsize, hcsize]; omega)
  rw [hbsize, hcsize] at b1
  have hnd : ∀ x ∈ xs ++ ys, x ∈ xs ++ b :: c :: ys := fun x hx =>
    mem_of_mem_rest (mem_of_mem_rest hx)
  have hbx : ∀ x ∈ xs ++ ys, x.addr + 32 + x.size ≤ b.addr ∨ b.addr + 32 + b.size ≤ x.addr := fun x hx =>
    header_apart ht (mem_of_mem_rest hx)
  have hfields : ∀ x ∈ xs ++ ys, blockSize (mergeNext m b.addr) x.addr = blockSize m x.addr ∧
      blockFree (mergeNext m b.addr) x.addr = blockFree m x.addr ∧
      blockNext (mergeNext m b.addr) x.addr = blockNext m x.addr ∧
      blockPrev (mergeNext m b.addr) x.addr
        = if x.addr = blockNext m c.addr then b.addr else blockPrev m x.addr := by
    intro x hx
    by_cases hnext : x.addr = blockNext m c.addr
    · obtain ⟨c1, c2, c3, c4⟩ := hd (hnext ▸ hrep.addr_ne_zero (hnd x hx))
      rw [if_pos hnext, hnext]
      exact ⟨c1, c2, c3, c4⟩
    · rw [if_neg hnext]
      refine header_congr fun y h1 h2 => hframe y ?_ ?_
      · have := hbx x hx
        unfold blockHeaderSize at h2
        omega
      · rintro ⟨h0, h3, h4⟩
        obtain ⟨d, ys', rfl, hdaddr⟩ := next_mem hrep' h0
        have hdmem : d ∈ xs ++ b :: c :: d :: ys' := hnd d (List.mem_append_right _ List.mem_cons_self)
        have := headers_apart ht (hnd x hx) hdmem (by rw [hdaddr]; exact hnext)
        unfold blockHeaderSize at h2
        omega
  have hcases : ∀ x ∈ xs ++ ⟨b.addr, b.size + (32 + c.size), b.free⟩ :: ys,
      x = ⟨b.addr, b.size + (32 + c.size), b.free⟩ ∨ x ∈ xs ++ ys := fun x hx => eq_or_mem_rest hx
  have hprev : blockPrev m c.addr = b.addr := by
    rw [hrep'.prev_eq]
    simp
  have hbnext : b.addr ≠ blockNext m c.addr := by
    intro heq
    have := hnc (heq ▸ hrep.addr_ne_zero hbmem)
    omega
  refine ⟨⟨?_, ?_, ?_⟩, fun x hx => hframe x ?_ ?_⟩
  · have hmap : (xs ++ (⟨b.addr, b.size + (32 + c.size), b.free⟩ : Block) :: ys).map Block.addr
        = (xs ++ [b]).map Block.addr ++ ys.map Block.addr := by simp
    have hne : (xs ++ [b]).map Block.addr ≠ [] := by simp
    have hnodup := addr_nodup ht'
    rw [List.map_append, List.map_cons] at hnodup
    have hzero : 0 ∉ (xs ++ [b]).map Block.addr ++ c.addr :: ys.map Block.addr := fun h0 =>
      absurd rfl (hrep'.links_at.isList.ne_zero h0)
    have hmem : ∀ a ∈ (xs ++ [b]).map Block.addr ++ ys.map Block.addr,
        a = b.addr ∨ ∃ x ∈ xs ++ ys, x.addr = a := by
      intro a ha
      rw [← hmap] at ha
      obtain ⟨x, hx, rfl⟩ := List.mem_map.mp ha
      rcases hcases x hx with rfl | hx
      · exact Or.inl rfl
      · exact Or.inr ⟨x, hx, rfl⟩
    have hnx : ∀ a ∈ (xs ++ [b]).map Block.addr ++ ys.map Block.addr,
        blockNext (mergeNext m b.addr) a =
          if a = blockPrev m c.addr then blockNext m c.addr else blockNext m a := by
      intro a ha
      rw [hprev]
      rcases hmem a ha with rfl | ⟨x, hx, rfl⟩
      · rw [if_pos rfl, b3]
      · have hxb : x.addr ≠ b.addr := by
          have := hbx x hx
          omega
        rw [if_neg hxb]
        exact (hfields x hx).2.2.1
    have hpv : ∀ a ∈ (xs ++ [b]).map Block.addr ++ ys.map Block.addr,
        blockPrev (mergeNext m b.addr) a =
          if a = blockNext m c.addr then blockPrev m c.addr else blockPrev m a := by
      intro a ha
      rw [hprev]
      rcases hmem a ha with rfl | ⟨x, hx, rfl⟩
      · rw [if_neg hbnext, b4]
      · exact (hfields x hx).2.2.2
    have hremove := hrep'.links_at.remove hnodup hzero hnx hpv
    rw [if_neg hne] at hremove
    rw [hmap]
    exact hremove
  · intro x hx
    rcases hcases x hx with rfl | hx
    · exact b1
    · rw [(hfields x hx).1]
      exact hrep.size x (hnd x hx)
  · intro x hx
    rcases hcases x hx with rfl | hx
    · rw [b2]
      exact hrep.free b hbmem
    · rw [(hfields x hx).2.1]
      exact hrep.free x (hnd x hx)
  · exact fun hin => hx ⟨_, List.mem_append_right _ List.mem_cons_self, hin⟩
  · rintro ⟨h0, h3, h4⟩
    obtain ⟨d, ys', rfl, hdaddr⟩ := next_mem hrep' h0
    refine hx ⟨d, ?_, ?_⟩
    · simp
    · rw [hdaddr]
      exact ⟨h3, h4⟩

/-- `mergeNext` at a block with no free block behind it does nothing. -/
theorem mergeNext_of_used (hrep : Rep m head (xs ++ b :: ys)) (hused : ∀ c ∈ ys.head?, c.free = false) :
    mergeNext m b.addr = m := by
  unfold mergeNext
  rw [if_neg]
  rintro ⟨h0, hfree⟩
  obtain ⟨c, ys', rfl, hc⟩ := next_mem hrep h0
  have hcmem : c ∈ xs ++ b :: c :: ys' :=
    List.mem_append_right _ (List.mem_cons_of_mem _ List.mem_cons_self)
  rw [← hc, hrep.free c hcmem, hused c rfl] at hfree
  exact hfree rfl

/-- `mergeNext` at a free block leaves a free block at the same place, and no free block behind it. -/
theorem Rep.mergeNext (hrep : Rep m head (xs ++ b :: ys))
    (ht : Tiles blockHeaderSize start (xs ++ b :: ys) e) (he : e ≤ 2 ^ 64) (hb : b.free = true)
    (hy : Coalesced ys) :
    ∃ b' ys', Rep (Heap.mergeNext m b.addr) head (xs ++ b' :: ys') ∧
      Tiles blockHeaderSize start (xs ++ b' :: ys') e ∧ b'.addr = b.addr ∧ b'.free = true ∧
      Coalesced (b' :: ys') ∧ (∀ c ∈ ys', c ∈ ys) ∧ (∀ c ∈ ys, c.free = false → c ∈ ys') ∧
      ∀ x, ¬ InHeader (xs ++ b' :: ys') x → Heap.mergeNext m b.addr x = m x := by
  by_cases hused : ∀ c ∈ ys.head?, c.free = false
  · rw [mergeNext_of_used hrep hused]
    refine ⟨b, ys, hrep, ht, rfl, hb, ?_, fun c hc => hc, fun c hc _ => hc, fun x _ => rfl⟩
    refine Coalesced.append (l := [b]) (List.isChain_singleton b) hy fun x _ y hyh hcon => ?_
    rw [hused y hyh] at hcon
    exact absurd hcon.2 (by simp)
  · push Not at hused
    obtain ⟨c, hc, hcfree⟩ := hused
    cases ys with
    | nil => exact absurd hc (by simp)
    | cons c' ys =>
        obtain rfl : c' = c := Option.some.inj hc
        rw [ne_eq, Bool.not_eq_false] at hcfree
        obtain ⟨hrep', hframe⟩ := hrep.merge ht he hcfree
        refine ⟨_, ys, hrep', ht.merge b.free, rfl, hb, ?_, fun d hd => List.mem_cons_of_mem _ hd, ?_,
          hframe⟩
        · obtain ⟨-, hy', hmeet⟩ := Coalesced.of_append (l := [c']) hy
          refine Coalesced.append (l := [_]) (List.isChain_singleton _) hy' fun x hx y hyh hcon => ?_
          exact hmeet c' rfl y hyh ⟨hcfree, hcon.2⟩
        · intro d hd hdfree
          rcases List.mem_cons.mp hd with rfl | hd
          · rw [hcfree] at hdfree
            exact absurd hdfree (by simp)
          · exact hd

/-- `coalesce` at a free block leaves a coalesced tiling with the same used blocks. -/
theorem Rep.coalesce (hrep : Rep m head (xs ++ b :: ys))
    (ht : Tiles blockHeaderSize start (xs ++ b :: ys) e) (he : e ≤ 2 ^ 64) (hb : b.free = true)
    (hx : Coalesced xs) (hy : Coalesced ys) :
    ∃ bs, Rep (Heap.coalesce m b.addr) head bs ∧ Tiles blockHeaderSize start bs e ∧ Coalesced bs ∧
      (∀ c ∈ bs, c.free = false → c ∈ xs ++ ys) ∧ (∀ c ∈ xs ++ ys, c.free = false → c ∈ bs) ∧
      (∀ x, ¬ InHeader (xs ++ b :: ys) x → Heap.coalesce m b.addr x = m x) ∧ Grid (xs ++ b :: ys) bs := by
  obtain ⟨b', ys', hrep', ht', haddr, hfree, hcoal, hsub, hkeep, hframe⟩ :=
    hrep.mergeNext ht he hb hy
  have hheaders : ∀ x, InHeader (xs ++ b' :: ys') x → InHeader (xs ++ b :: ys) x := fun _ =>
    inHeader_replace haddr hsub
  have hgrid : Grid (xs ++ b :: ys) (xs ++ b' :: ys') := grid_replace haddr hsub
  have hused₁ : ∀ c ∈ xs ++ b' :: ys', c.free = false → c ∈ xs ++ ys := fun _ => used_of_replace hfree hsub
  have hused₂ : ∀ c ∈ xs ++ ys, c.free = false → c ∈ xs ++ b' :: ys' := fun _ hc =>
    used_replace hb hkeep (mem_of_mem_rest hc)
  unfold Heap.coalesce
  dsimp only
  set m' := Heap.mergeNext m b.addr with hm'
  have hprev : blockPrev m' b.addr = (0 :: xs.map Block.addr).getLast (by simp) := by
    rw [← haddr]
    exact hrep'.prev_eq
  rcases List.eq_nil_or_concat xs with rfl | ⟨xs', a, rfl⟩
  · -- no block before `b`
    rw [if_neg fun hcon => hcon.1 (hprev.trans (by simp))]
    exact ⟨b' :: ys', hrep', ht', hcoal, hused₁, hused₂, fun x hx => hframe x fun h => hx (hheaders x h),
      hgrid⟩
  rw [List.concat_eq_append] at *
  have hpa : blockPrev m' b.addr = a.addr := by
    rw [hprev]
    simp
  have hamem : a ∈ (xs' ++ [a]) ++ b' :: ys' := by simp
  by_cases hafree : a.free = true
  · -- the block before `b` absorbs it
    have hassoc : (xs' ++ [a]) ++ b' :: ys' = xs' ++ a :: b' :: ys' := by simp
    obtain ⟨a', ys'', hrep'', ht'', haddr', hfree', hcoal', hsub', hkeep', hframe'⟩ :=
      (hassoc ▸ hrep').mergeNext (hassoc ▸ ht') he hafree hcoal
    have hcond : blockPrev m' b.addr ≠ 0 ∧ blockFree m' (blockPrev m' b.addr) ≠ 0 := by
      rw [hpa]
      refine ⟨hrep'.addr_ne_zero hamem, ?_⟩
      rw [hrep'.free a hamem, hafree]
      norm_num
    rw [if_pos hcond, hpa]
    obtain ⟨hx', -, hmeet⟩ := hx.of_append
    refine ⟨xs' ++ a' :: ys'', hrep'', ht'', ?_, ?_, ?_, fun x hxh => ?_, ?_⟩
    · refine hx'.append hcoal' fun u hu v hv hcon => ?_
      exact hmeet u hu a rfl ⟨hcon.1, hafree⟩
    · intro c hc hcf
      apply hused₁ c _ hcf
      rw [hassoc]
      exact mem_of_mem_rest (used_of_replace hfree' hsub' hc hcf)
    · intro c hc hcf
      have hc' := hused₂ c hc hcf
      rw [hassoc] at hc'
      exact used_replace hafree hkeep' hc' hcf
    · have h1 : ¬ InHeader (xs' ++ a' :: ys'') x := by
        intro hin
        refine hxh (hheaders x ?_)
        rw [hassoc]
        exact inHeader_replace haddr' hsub' hin
      rw [hframe' x h1]
      exact hframe x fun h => hxh (hheaders x h)
    · have hmerged : Grid (xs' ++ a :: b' :: ys') (xs' ++ a' :: ys'') := grid_replace haddr' hsub'
      rw [← hassoc] at hmerged
      exact hgrid.trans hmerged
  · rw [Bool.not_eq_true] at hafree
    have hcond : ¬ (blockPrev m' b.addr ≠ 0 ∧ blockFree m' (blockPrev m' b.addr) ≠ 0) := by
      rintro ⟨-, hf⟩
      rw [hpa, hrep'.free a hamem, hafree] at hf
      exact hf rfl
    rw [if_neg hcond]
    refine ⟨_, hrep', ht', hx.append hcoal fun u hu v hv hcon => ?_, hused₁, hused₂,
      fun x hx => hframe x fun h => hx (hheaders x h), hgrid⟩
    simp only [List.getLast?_append, List.getLast?_singleton, Option.some_or, Option.mem_def,
      Option.some.injEq] at hu
    rw [← hu, hafree] at hcon
    exact absurd hcon.1 (by simp)

end rep

end PrometheusKernel.Heap
