import PrometheusKernel.Buddy.Model

/-!
# Free lists in memory

What `list_add` and `list_remove` do to the links of the nodes they do not name. Nodes are the
first 16 bytes of free pages, so two nodes are equal or apart (`Sep`); `P` is any set of addresses
with that property. From the four link equations the list rules of `LinkedList` give the new list
(`isDList_listAdd`, `isDList_listRemove`) and that every other list is left alone.
-/

namespace PrometheusKernel.Buddy

open ByteMem LinkedList

/-- Two list nodes do not overlap. -/
def Sep (a b : ℕ) : Prop := a + 16 ≤ b ∨ b + 16 ≤ a

/-- A link is a word. -/
theorem blockNext_lt (m : Mem) (a : ℕ) : blockNext m a < 2 ^ 64 := load_lt 8 m a

/-- A back link is a word. -/
theorem blockPrev_lt (m : Mem) (a : ℕ) : blockPrev m a < 2 ^ 64 := load_lt 8 m (a + 8)

section nodes

variable {P : ℕ → Prop} (hP : ∀ a b, P a → P b → a ≠ b → Sep a b)
variable {m : Mem} {head block : ℕ}

include hP

/-! ### `list_add` -/

/-- A new block points to the old head. -/
theorem blockNext_listAdd_self (hb : P block) (hh : head ≠ 0 → P head ∧ head ≠ block)
    (hlt : head < 2 ^ 64) : blockNext (listAdd m head block).1 block = head := by
  have hval : load 8 (store 8 (store 8 m block head) (block + 8) 0) block = head := by
    rw [load_store_disjoint (by omega), load_store_of_lt (by simpa using hlt)]
  unfold blockNext listAdd
  by_cases h0 : head = 0
  · simp only [h0, ne_eq, not_true, if_false] at hval ⊢
    exact hval
  · have hsep := hP head block (hh h0).1 hb (hh h0).2
    simp only [ne_eq, h0, not_false_eq_true, if_true]
    rw [load_store_disjoint (by unfold Sep at hsep; omega)]
    exact hval

/-- Nothing is before a new block. -/
theorem blockPrev_listAdd_self (hb : P block) (hh : head ≠ 0 → P head ∧ head ≠ block) :
    blockPrev (listAdd m head block).1 block = 0 := by
  have hval : load 8 (store 8 (store 8 m block head) (block + 8) 0) (block + 8) = 0 := by
    rw [load_store_of_lt (by norm_num)]
  unfold blockPrev listAdd
  by_cases h0 : head = 0
  · simp only [h0, ne_eq, not_true, if_false] at hval ⊢
    exact hval
  · have hsep := hP head block (hh h0).1 hb (hh h0).2
    simp only [ne_eq, h0, not_false_eq_true, if_true]
    rw [load_store_disjoint (by unfold Sep at hsep; omega)]
    exact hval

omit hP in
/-- The old head points back to the new block. -/
theorem blockPrev_listAdd_head (h0 : head ≠ 0) (hlt : block < 2 ^ 64) :
    blockPrev (listAdd m head block).1 head = block := by
  unfold blockPrev listAdd
  simp only [ne_eq, h0, not_false_eq_true, if_true]
  rw [load_store_of_lt (by simpa using hlt)]

/-- The other links stay. -/
theorem blockNext_listAdd_of_ne (hb : P block) (hh : head ≠ 0 → P head) {a : ℕ} (ha : P a)
    (hab : a ≠ block) : blockNext (listAdd m head block).1 a = blockNext m a := by
  have hsep := hP a block ha hb hab
  have hval : load 8 (store 8 (store 8 m block head) (block + 8) 0) a = load 8 m a := by
    unfold Sep at hsep
    rw [load_store_disjoint (by omega), load_store_disjoint (by omega)]
  unfold blockNext listAdd
  by_cases h0 : head = 0
  · simp only [h0, ne_eq, not_true, if_false] at hval ⊢
    exact hval
  · simp only [ne_eq, h0, not_false_eq_true, if_true]
    rw [load_store_disjoint, hval]
    by_cases hah : a = head
    · omega
    · have hsep' := hP a head ha (hh h0) hah
      unfold Sep at hsep'
      omega

/-- The back links of the blocks behind the old head stay. -/
theorem blockPrev_listAdd_of_ne (hb : P block) (hh : head ≠ 0 → P head) {a : ℕ} (ha : P a)
    (hab : a ≠ block) (hah : a ≠ head) :
    blockPrev (listAdd m head block).1 a = blockPrev m a := by
  have hsep := hP a block ha hb hab
  have hval : load 8 (store 8 (store 8 m block head) (block + 8) 0) (a + 8)
      = load 8 m (a + 8) := by
    unfold Sep at hsep
    rw [load_store_disjoint (by omega), load_store_disjoint (by omega)]
  unfold blockPrev listAdd
  by_cases h0 : head = 0
  · simp only [h0, ne_eq, not_true, if_false] at hval ⊢
    exact hval
  · have hsep' := hP a head ha (hh h0) hah
    simp only [ne_eq, h0, not_false_eq_true, if_true]
    rw [load_store_disjoint (by unfold Sep at hsep'; omega), hval]

/-- `list_add` on a well-formed list. -/
theorem isDList_listAdd {l : List ℕ} (hl : IsDList (blockNext m) (blockPrev m) 0 l head)
    (hPl : ∀ a ∈ l, P a) (hb : P block) (hb0 : block ≠ 0) (hblt : block < 2 ^ 64)
    (hhlt : head < 2 ^ 64) (hnot : block ∉ l) :
    IsDList (blockNext (listAdd m head block).1) (blockPrev (listAdd m head block).1) 0
      (block :: l) (listAdd m head block).2 := by
  have hhead : head ≠ 0 → head ∈ l := by
    intro h0
    cases l with
    | nil => exact absurd hl h0
    | cons a l => exact hl.1 ▸ List.mem_cons_self
  have hne : head ≠ 0 → P head ∧ head ≠ block := fun h0 =>
    ⟨hPl _ (hhead h0), fun e => hnot (e ▸ hhead h0)⟩
  refine hl.push hb0 (blockNext_listAdd_self hP hb hne hhlt)
    (blockPrev_listAdd_self hP hb hne) (fun h0 => blockPrev_listAdd_head h0 hblt) ?_ ?_
  · intro a ha
    exact blockNext_listAdd_of_ne hP hb (fun h0 => (hne h0).1) (hPl a ha) fun e => hnot (e ▸ ha)
  · intro a ha hah
    exact blockPrev_listAdd_of_ne hP hb (fun h0 => (hne h0).1) (hPl a ha)
      (fun e => hnot (e ▸ ha)) hah

/-- `list_add` on one list does not disturb another. -/
theorem isDList_listAdd_other {l : List ℕ} {h : ℕ} (hl : IsDList (blockNext m) (blockPrev m) 0 l h)
    (hPl : ∀ a ∈ l, P a) (hb : P block) (hh : head ≠ 0 → P head) (hbl : block ∉ l)
    (hhl : head ∉ l) :
    IsDList (blockNext (listAdd m head block).1) (blockPrev (listAdd m head block).1) 0 l h := by
  refine hl.congr (fun a ha => ?_) fun a ha => ?_
  · exact blockNext_listAdd_of_ne hP hb hh (hPl a ha) fun e => hbl (e ▸ ha)
  · exact blockPrev_listAdd_of_ne hP hb hh (hPl a ha) (fun e => hbl (e ▸ ha))
      fun e => hhl (e ▸ ha)

/-! ### `list_remove` -/

/-- The links after `list_remove`, for a node other than the one removed. -/
theorem links_listRemove (hb : P block) (hprev : blockPrev m block ≠ 0 →
      P (blockPrev m block) ∧ blockPrev m block ≠ block)
    (hnext : blockNext m block ≠ 0 → P (blockNext m block) ∧ blockNext m block ≠ block)
    {a : ℕ} (ha : P a) (ha0 : a ≠ 0) (hab : a ≠ block) :
    blockNext (listRemove m head block).1 a
        = (if a = blockPrev m block then blockNext m block else blockNext m a) ∧
      blockPrev (listRemove m head block).1 a
        = (if a = blockNext m block then blockPrev m block else blockPrev m a) := by
  have hsab := hP a block ha hb hab
  have hplt := blockPrev_lt m block
  have hnlt := blockNext_lt m block
  -- the memory after the first conditional write
  set m₁ := if blockPrev m block ≠ 0 then
    store 8 m (blockPrev m block) (blockNext m block) else m with hm₁
  have hn₁ : blockNext m₁ block = blockNext m block := by
    rw [hm₁]
    split_ifs with h0
    · have hs := hP _ _ (hprev h0).1 hb (hprev h0).2
      unfold blockNext
      rw [load_store_disjoint (by unfold Sep at hs; omega)]
    · rfl
  have hp₁ : blockPrev m₁ block = blockPrev m block := by
    rw [hm₁]
    split_ifs with h0
    · have hs := hP _ _ (hprev h0).1 hb (hprev h0).2
      have he : blockPrev (store 8 m (blockPrev m block) (blockNext m block)) block
          = blockPrev m block := by
        unfold Sep at hs
        exact load_store_disjoint (by omega)
      exact he
    · rfl
  have hna : blockNext m₁ a = if a = blockPrev m block then blockNext m block else blockNext m a := by
    rw [hm₁]
    split_ifs with h0 heq heq
    · rw [heq]
      exact load_store_of_lt (by simpa using hnlt)
    · have hs := hP _ _ ha (hprev h0).1 heq
      unfold Sep at hs
      exact load_store_disjoint (by omega)
    · rw [not_not] at h0
      exact absurd (heq.trans h0) ha0
    · rfl
  have hpa : blockPrev m₁ a = blockPrev m a := by
    rw [hm₁]
    split_ifs with h0
    · by_cases heq : a = blockPrev m block
      · have he : blockPrev (store 8 m (blockPrev m block) (blockNext m block)) a
            = blockPrev m a := load_store_disjoint (by omega)
        exact he
      · have hs := hP _ _ ha (hprev h0).1 heq
        have he : blockPrev (store 8 m (blockPrev m block) (blockNext m block)) a
            = blockPrev m a := load_store_disjoint (by unfold Sep at hs; omega)
        exact he
    · rfl
  -- the memory after the second one
  set m₂ := if blockNext m₁ block ≠ 0 then
    store 8 m₁ (blockNext m₁ block + 8) (blockPrev m₁ block) else m₁ with hm₂
  have hna₂ : blockNext m₂ a = blockNext m₁ a := by
    rw [hm₂, hn₁, hp₁]
    split_ifs with h0
    · by_cases heq : a = blockNext m block
      · exact load_store_disjoint (by omega)
      · have hs := hP _ _ ha (hnext h0).1 heq
        unfold Sep at hs
        exact load_store_disjoint (by omega)
    · rfl
  have hpa₂ : blockPrev m₂ a
      = if a = blockNext m block then blockPrev m block else blockPrev m a := by
    rw [hm₂, hn₁, hp₁, ← hpa]
    split_ifs with h0 heq heq
    · rw [heq]
      exact load_store_of_lt (by simpa using hplt)
    · have hs := hP _ _ ha (hnext h0).1 heq
      unfold Sep at hs
      exact load_store_disjoint (by omega)
    · rw [not_not] at h0
      exact absurd (heq.trans h0) ha0
    · rfl
  have hmem : (listRemove m head block).1 = store 8 (store 8 m₂ block 0) (block + 8) 0 := by
    simp only [listRemove, hm₂, hm₁]
    split_ifs <;> rfl
  unfold Sep at hsab
  constructor
  · rw [← hna, ← hna₂, hmem]
    unfold blockNext
    rw [load_store_disjoint (by omega), load_store_disjoint (by omega)]
  · rw [← hpa₂, hmem]
    unfold blockPrev
    rw [load_store_disjoint (by omega), load_store_disjoint (by omega)]

omit hP in
/-- The head after a removal. -/
theorem listRemove_snd : (listRemove m head block).2
    = if blockPrev m block ≠ 0 then head else blockNext m block := by
  unfold listRemove
  split_ifs <;> rfl

/-- The links after `list_remove` of a member of a well-formed list, for any other node. -/
theorem links_listRemove_of_isDList {l₁ l₂ : List ℕ}
    (hl : IsDList (blockNext m) (blockPrev m) 0 (l₁ ++ block :: l₂) head)
    (hPl : ∀ a ∈ l₁ ++ block :: l₂, P a) {a : ℕ} (ha : P a) (ha0 : a ≠ 0) (hab : a ≠ block) :
    blockNext (listRemove m head block).1 a
        = (if a = blockPrev m block then blockNext m block else blockNext m a) ∧
      blockPrev (listRemove m head block).1 a
        = (if a = blockNext m block then blockPrev m block else blockPrev m a) := by
  have hsub : ∀ c ∈ l₁ ++ l₂, P c ∧ c ≠ block := by
    intro c hc
    refine ⟨hPl c ?_, hl.isList.ne_of_mem_rest hc⟩
    rcases List.mem_append.mp hc with h | h <;> simp [h]
  exact links_listRemove hP (hPl _ (by simp)) (fun h0 => hsub _ (hl.pv_mem h0))
    (fun h0 => hsub _ (hl.nx_mem h0)) ha ha0 hab

/-- `list_remove` of a member of a well-formed list. -/
theorem isDList_listRemove {l₁ l₂ : List ℕ}
    (hl : IsDList (blockNext m) (blockPrev m) 0 (l₁ ++ block :: l₂) head)
    (hPl : ∀ a ∈ l₁ ++ block :: l₂, P a) :
    IsDList (blockNext (listRemove m head block).1) (blockPrev (listRemove m head block).1) 0
      (l₁ ++ l₂) (listRemove m head block).2 := by
  have hlinks : ∀ a ∈ l₁ ++ l₂, _ := fun a ha => by
    have hmem : a ∈ l₁ ++ block :: l₂ := by
      rcases List.mem_append.mp ha with h | h <;> simp [h]
    exact links_listRemove_of_isDList hP hl hPl (hPl a hmem) (hl.isList.ne_zero hmem)
      (hl.isList.ne_of_mem_rest ha)
  have hrem := hl.remove hl.isList.nodup (fun h => hl.isList.ne_zero h rfl)
    (fun a ha => (hlinks a ha).1) fun a ha => (hlinks a ha).2
  have hhead : (listRemove m head block).2 = if l₁ = [] then blockNext m block else head := by
    rw [listRemove_snd, hl.pv_eq]
    by_cases hl₁ : l₁ = []
    · subst hl₁
      simp
    · rw [if_neg hl₁, if_pos]
      rw [List.getLast_cons hl₁]
      exact hl.isList.ne_zero (List.mem_append_left _ (List.getLast_mem hl₁))
  rw [hhead]
  exact hrem

/-- `list_remove` from one list does not disturb another. -/
theorem isDList_listRemove_other {l₁ l₂ l : List ℕ} {h : ℕ}
    (hl : IsDList (blockNext m) (blockPrev m) 0 (l₁ ++ block :: l₂) head)
    (hPl : ∀ a ∈ l₁ ++ block :: l₂, P a) (hl' : IsDList (blockNext m) (blockPrev m) 0 l h)
    (hPl' : ∀ a ∈ l, P a) (hdisj : ∀ a ∈ l, a ∉ l₁ ++ block :: l₂) :
    IsDList (blockNext (listRemove m head block).1) (blockPrev (listRemove m head block).1) 0
      l h := by
  have hrest : ∀ a ∈ l, a ∉ l₁ ++ l₂ := by
    intro a ha hmem
    apply hdisj a ha
    rcases List.mem_append.mp hmem with h | h <;> simp [h]
  have hlinks : ∀ a ∈ l, _ := fun a ha =>
    links_listRemove_of_isDList hP hl hPl (hPl' a ha) (hl'.isList.ne_zero ha)
      fun e => hdisj a ha (by simp [e])
  refine hl'.congr (fun a ha => ?_) fun a ha => ?_
  · rw [(hlinks a ha).1, if_neg]
    intro e
    exact hrest a ha (e ▸ hl.pv_mem (e ▸ hl'.isList.ne_zero ha))
  · rw [(hlinks a ha).2, if_neg]
    intro e
    exact hrest a ha (e ▸ hl.nx_mem (e ▸ hl'.isList.ne_zero ha))

end nodes

end PrometheusKernel.Buddy
