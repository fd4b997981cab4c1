import PrometheusKernel.Cow.Model
import PrometheusKernel.Vmm.Tables

/-!
# The reference table of `cow.c`

`Refs m table R chains cnt` says that the hash table, with its chains in memory, is a map from
frames to counts: `chains h` is the chain of bucket `h`, its entries lie in the frames `R`, each is
in the bucket of its address, no address has two entries, and `cnt f` is the count of `f`, 0 if there
is no entry.

`Footing P s roots g` puts the three kinds of frames that the copy-on-write functions handle side by
side: tables `g.T`, reference entries `g.R` and data `g.D` are disjoint sets of held frames. Each
primitive change of memory, in one of the three, leaves the other two alone.
-/

namespace PrometheusKernel.Cow

open ByteMem LinkedList Vmm TableTree

/-! ### Entries -/

/-- The bits of a complement of 64 bits. -/
theorem testBit_complement {mask : ℕ} (h : mask < 2 ^ 64) (i : ℕ) :
    (complement mask).testBit i = (decide (i < 64) && !mask.testBit i) := by
  unfold complement
  rw [Nat.sub_sub, Nat.add_comm 1]
  exact Nat.testBit_two_pow_sub_succ h i

/-- The flag of copy-on-write is bit 9. -/
theorem testBit_cowFlagMask (i : ℕ) : cowFlagMask.testBit i = decide (9 = i) := by
  have h : cowFlagMask = 2 ^ 9 := by decide
  rw [h, Nat.testBit_two_pow]

/-- An entry without the flag has bit 9 clear. -/
theorem and_cowFlagMask_eq_zero_iff (e : ℕ) : e &&& cowFlagMask = 0 ↔ e.testBit 9 = false :=
  and_two_pow_eq_zero_iff e 9

/-- The frame that an address lies in: `phys_addr & ~0xFFF`. -/
def frameOf (physAddr : ℕ) : ℕ := physAddr &&& complement 0xFFF

/-- A frame is a word. -/
theorem frameOf_lt (physAddr : ℕ) : frameOf physAddr < 2 ^ 64 :=
  Nat.and_lt_two_pow _ (by decide)

/-- A frame is its own frame. -/
@[simp] theorem frameOf_frameOf (physAddr : ℕ) : frameOf (frameOf physAddr) = frameOf physAddr := by
  unfold frameOf
  rw [Nat.and_assoc, Nat.and_self]

/-- The address in a page table entry is that of a frame. -/
theorem frameOf_and_frameMask (e : ℕ) : frameOf (e &&& frameMask) = e &&& frameMask := by
  have hmask : frameMask &&& complement 0xFFF = frameMask := by decide
  unfold frameOf
  rw [Nat.and_assoc, hmask]

/-! ### The chains -/

/-- The hash table is a map from frames to counts. -/
structure Refs (m : Mem) (table : ℕ → ℕ) (R : Set ℕ) (chains : ℕ → List ℕ) (cnt : ℕ → ℕ) :
    Prop where
  list : ∀ h, IsList (refNext m) (chains h) (table h)
  mem : ∀ h, ∀ ref ∈ chains h, ref ∈ R
  hash : ∀ h, ∀ ref ∈ chains h, cowHash (refPhysicalAddress m ref) = h
  inj : ∀ h, ∀ ref ∈ chains h, ∀ ref' ∈ chains h,
    refPhysicalAddress m ref = refPhysicalAddress m ref' → ref = ref'
  count : ∀ h, ∀ ref ∈ chains h, refCount m ref = cnt (refPhysicalAddress m ref)
  zero : ∀ f, (∀ ref ∈ chains (cowHash f), refPhysicalAddress m ref ≠ f) → cnt f = 0

section refs

variable {m m' : Mem} {table : ℕ → ℕ} {R : Set ℕ} {chains : ℕ → List ℕ} {cnt : ℕ → ℕ}

/-- The fields of an entry of the table only depend on its page. -/
theorem refFields_congr {ref : ℕ} (h : ∀ x, InPage ref x → m' x = m x) :
    refPhysicalAddress m' ref = refPhysicalAddress m ref ∧ refCount m' ref = refCount m ref ∧
      refNext m' ref = refNext m ref := by
  refine ⟨?_, ?_, ?_⟩
  · refine load_congr fun x hx => h x ⟨hx.1, ?_⟩
    have := hx.2
    unfold pageSize
    omega
  · refine load_congr fun x hx => h x ⟨?_, ?_⟩
    · have := hx.1
      omega
    · have := hx.2
      unfold pageSize
      omega
  · refine load_congr fun x hx => h x ⟨?_, ?_⟩
    · have := hx.1
      omega
    · have := hx.2
      unfold pageSize
      omega

/-- The table is the same in memory that agrees on the frames of the entries. -/
theorem Refs.congr (h : Refs m table R chains cnt)
    (hm : ∀ ref ∈ R, ∀ x, InPage ref x → m' x = m x) : Refs m' table R chains cnt := by
  have hf : ∀ k, ∀ ref ∈ chains k, refPhysicalAddress m' ref = refPhysicalAddress m ref ∧
      refCount m' ref = refCount m ref ∧ refNext m' ref = refNext m ref :=
    fun k ref href => refFields_congr (hm ref (h.mem k ref href))
  refine ⟨fun k => (h.list k).congr fun ref href => (hf k ref href).2.2, h.mem, ?_, ?_, ?_, ?_⟩
  · intro k ref href
    rw [(hf k ref href).1]
    exact h.hash k ref href
  · intro k ref href ref' href' heq
    rw [(hf k ref href).1, (hf k ref' href').1] at heq
    exact h.inj k ref href ref' href' heq
  · intro k ref href
    rw [(hf k ref href).1, (hf k ref href).2.1]
    exact h.count k ref href
  · intro f hnone
    refine h.zero f fun ref href => ?_
    rw [← (hf _ ref href).1]
    exact hnone ref href

/-- The chain walk ends and finds the entry of the frame, if there is one. -/
theorem Refs.findRef {A : Type} {s : State A} (h : Refs s.mem s.hashTable R chains cnt)
    (hR : ∀ ref ∈ R, IsFrame ref) (f : ℕ) :
    (Cow.findRef s f = some 0 ∧ ∀ ref ∈ chains (cowHash f), refPhysicalAddress s.mem ref ≠ f) ∨
      ∃ ref ∈ chains (cowHash f), refPhysicalAddress s.mem ref = f ∧ ref ≠ 0 ∧
        Cow.findRef s f = some ref := by
  have hlt : ∀ ref ∈ chains (cowHash f), ref < 2 ^ 64 := fun ref href =>
    lt_of_lt_of_le (hR ref (h.mem _ ref href)).lt (by norm_num)
  have hsearch := search_walkBound (h.list (cowHash f)) hlt
    (fun ref => decide (refPhysicalAddress s.mem ref = f))
  unfold Cow.findRef
  rw [hsearch]
  cases hfind : (chains (cowHash f)).find? (fun ref => decide (refPhysicalAddress s.mem ref = f)) with
  | none =>
      refine Or.inl ⟨rfl, fun ref href heq => ?_⟩
      have := List.find?_eq_none.mp hfind ref href
      exact this (by simpa using heq)
  | some ref =>
      have hmem := List.mem_of_find?_eq_some hfind
      have hphys : refPhysicalAddress s.mem ref = f := by
        simpa using List.find?_some hfind
      exact Or.inr ⟨ref, hmem, hphys, (hR ref (h.mem _ ref hmem)).ne_zero, rfl⟩

/-- Counts have 32 bits. -/
theorem Refs.cnt_lt (h : Refs m table R chains cnt) (f : ℕ) : cnt f < 2 ^ 32 := by
  by_cases hex : ∃ ref ∈ chains (cowHash f), refPhysicalAddress m ref = f
  · obtain ⟨ref, href, hphys⟩ := hex
    rw [← hphys, ← h.count _ ref href]
    exact lt_of_lt_of_le (load_lt 4 _ _) (by norm_num)
  · rw [h.zero f fun ref href hphys => hex ⟨ref, href, hphys⟩]
    norm_num

/-- A write into one entry is not seen in the frames of the others. -/
theorem Refs.store_apply (h : Refs m table R chains cnt) (hR : ∀ ref ∈ R, IsFrame ref) {k k' ref ref' : ℕ}
    (href : ref ∈ chains k) (href' : ref' ∈ chains k') (hne : ref' ≠ ref) {w off : ℕ}
    (hoff : off + w ≤ pageSize) (v : ℕ) : ∀ x, InPage ref' x → store w m (ref + off) v x = m x := by
  intro x hx
  apply store_apply_of_notMem
  intro hx'
  apply hne
  refine (hR ref' (h.mem k' ref' href')).eq_of_inPage (hR ref (h.mem k ref href)) hx ⟨?_, ?_⟩
  · have := hx'.1
    omega
  · have := hx'.2
    omega

/-- A count that is written changes no frame of an entry. -/
theorem Refs.phys_setCount (h : Refs m table R chains cnt) (hR : ∀ ref ∈ R, IsFrame ref) {k k' ref ref' v : ℕ}
    (href : ref ∈ chains k) (href' : ref' ∈ chains k') :
    refPhysicalAddress (store 4 m (ref + 8) v) ref' = refPhysicalAddress m ref' := by
  by_cases hc : ref' = ref
  · rw [hc]
    exact load_store_disjoint (Or.inl le_rfl)
  · exact (refFields_congr (h.store_apply hR href href' hc (by decide) v)).1

/-- Setting the count of an entry. -/
theorem Refs.setCount (h : Refs m table R chains cnt) (hR : ∀ ref ∈ R, IsFrame ref) {f ref v : ℕ}
    (href : ref ∈ chains (cowHash f)) (hphys : refPhysicalAddress m ref = f) (hv : v < 2 ^ 32) :
    Refs (store 4 m (ref + 8) v) table R chains (Function.update cnt f v) := by
  have hother : ∀ k, ∀ ref' ∈ chains k, ref' ≠ ref →
      ∀ x, InPage ref' x → store 4 m (ref + 8) v x = m x :=
    fun k ref' href' hne => h.store_apply hR href href' hne (by decide) v
  have hphys' : ∀ k, ∀ ref' ∈ chains k,
      refPhysicalAddress (store 4 m (ref + 8) v) ref' = refPhysicalAddress m ref' :=
    fun k ref' href' => h.phys_setCount hR href href'
  have hnext : ∀ k, ∀ ref' ∈ chains k, refNext (store 4 m (ref + 8) v) ref' = refNext m ref' := by
    intro k ref' href'
    by_cases hc : ref' = ref
    · rw [hc]
      exact load_store_disjoint (Or.inr (by omega))
    · exact (refFields_congr (hother k ref' href' hc)).2.2
  refine ⟨fun k => (h.list k).congr fun ref' href' => hnext k ref' href', h.mem, ?_, ?_, ?_, ?_⟩
  · intro k ref' href'
    rw [hphys' k ref' href']
    exact h.hash k ref' href'
  · intro k ref₁ h₁ ref₂ h₂ heq
    rw [hphys' k ref₁ h₁, hphys' k ref₂ h₂] at heq
    exact h.inj k ref₁ h₁ ref₂ h₂ heq
  · intro k ref' href'
    rw [hphys' k ref' href']
    by_cases hc : ref' = ref
    · rw [hc, hphys, Function.update_self]
      exact load_store_of_lt (by norm_num; exact hv)
    · have hne : refPhysicalAddress m ref' ≠ f := by
        intro heq
        have hk : cowHash f = k := heq ▸ h.hash k ref' href'
        subst hk
        exact hc (h.inj _ ref' href' ref href (heq.trans hphys.symm))
      rw [Function.update_of_ne hne, (refFields_congr (hother k ref' href' hc)).2.1]
      exact h.count k ref' href'
  · intro g hnone
    have hg : g ≠ f := by
      rintro rfl
      apply hnone ref href
      rw [hphys' _ ref href, hphys]
    rw [Function.update_of_ne hg]
    refine h.zero g fun ref' href' => ?_
    rw [← hphys' _ ref' href']
    exact hnone ref' href'

/-- The chain of an entry, split at the entry. -/
theorem Refs.split (h : Refs m table R chains cnt) {f ref : ℕ} (href : ref ∈ chains (cowHash f))
    (hphys : refPhysicalAddress m ref = f) :
    ∃ l₁ l₂, chains (cowHash f) = l₁ ++ ref :: l₂ ∧ ∀ b ∈ l₁, refPhysicalAddress m b ≠ f := by
  obtain ⟨l₁, l₂, hsplit⟩ := List.append_of_mem href
  refine ⟨l₁, l₂, hsplit, fun b hb heq => ?_⟩
  have hmem : b ∈ chains (cowHash f) := by
    rw [hsplit]
    exact List.mem_append_left _ hb
  have hbref := h.inj _ b hmem ref href (heq.trans hphys.symm)
  have hnodup := (h.list (cowHash f)).nodup
  rw [hsplit] at hnodup
  exact (List.nodup_middle.mp hnodup).notMem (List.mem_append_left _ (hbref ▸ hb))

/-- The loop of `cow_decrement_ref` stops at the entry and knows the one before it. -/
theorem Refs.searchPrev_eq (h : Refs m table R chains cnt) (hR : ∀ ref ∈ R, IsFrame ref) {f ref : ℕ} {l₁ l₂ : List ℕ}
    (hsplit : chains (cowHash f) = l₁ ++ ref :: l₂) (hl₁ : ∀ b ∈ l₁, refPhysicalAddress m b ≠ f)
    (hphys : refPhysicalAddress m ref = f) :
    searchPrev (refNext m) (fun b => refPhysicalAddress m b = f) walkBound 0 (table (cowHash f))
      = some (l₁.getLastD 0, ref) := by
  have hlist := h.list (cowHash f)
  have hlt := hlist.length_lt (n := 2 ^ 64) (fun b hb =>
    lt_of_lt_of_le (hR b (h.mem _ b hb)).lt (by norm_num)) (Nat.two_pow_pos 64)
  rw [hsplit] at hlist hlt
  exact searchPrev_found hlist (fun b hb => decide_eq_false (hl₁ b hb)) (decide_eq_true hphys) hlt

/-- One link is written, if there is an entry in front. -/
theorem Refs.setNext (h : Refs m table R chains cnt) (hR : ∀ ref ∈ R, IsFrame ref) {k prev v : ℕ}
    (hprev : prev ≠ 0 → prev ∈ chains k) (hm : m' = if prev ≠ 0 then store 8 m (prev + 16) v else m) :
    (∀ k, ∀ b ∈ chains k, refPhysicalAddress m' b = refPhysicalAddress m b ∧ refCount m' b = refCount m b ∧
      (b ≠ prev → refNext m' b = refNext m b)) ∧ ∀ x, (∀ b ∈ R, ¬ InPage b x) → m' x = m x := by
  by_cases h0 : prev = 0
  · rw [hm, if_neg (not_not.mpr h0)]
    exact ⟨fun _ _ _ => ⟨rfl, rfl, fun _ => rfl⟩, fun _ _ => rfl⟩
  · rw [hm, if_pos h0]
    have hmem := hprev h0
    refine ⟨fun k' b hb => ?_, fun x hx => store_apply_of_notMem fun hx' => hx prev (h.mem k prev hmem) ⟨?_, ?_⟩⟩
    · by_cases hc : b = prev
      · rw [hc]
        exact ⟨load_store_disjoint (Or.inl (by omega)), load_store_disjoint (Or.inl (by omega)),
          fun hne => absurd rfl hne⟩
      · have hpage : ∀ x, InPage b x → store 8 m (prev + 16) v x = m x :=
          h.store_apply hR hmem hb hc (by decide) v
        obtain ⟨h1, h2, h3⟩ := refFields_congr hpage
        exact ⟨h1, h2, fun _ => h3⟩
    · have := hx'.1
      omega
    · have := hx'.2
      unfold pageSize
      omega

/-- Unlinking an entry with count 0. -/
theorem Refs.unlink (h : Refs m table R chains cnt) (hR : ∀ ref ∈ R, IsFrame ref) {f ref : ℕ} {l₁ l₂ : List ℕ}
    (hsplit : chains (cowHash f) = l₁ ++ ref :: l₂) (hl₁ : ∀ b ∈ l₁, refPhysicalAddress m b ≠ f)
    (hphys : refPhysicalAddress m ref = f) (hzero : cnt f = 0) {table' : ℕ → ℕ}
    (hm : m' = if l₁.getLastD 0 ≠ 0 then store 8 m (l₁.getLastD 0 + 16) (refNext m ref) else m)
    (ht : table' = if l₁.getLastD 0 ≠ 0 then table
      else Function.update table (cowHash f) (refNext m ref)) :
    Refs m' table' (R \ {ref}) (Function.update chains (cowHash f) (l₁ ++ l₂)) cnt ∧
      (∀ k, ∀ b ∈ chains k, refPhysicalAddress m' b = refPhysicalAddress m b) ∧
      ∀ x, (∀ b ∈ R, ¬ InPage b x) → m' x = m x := by
  have hk := h.list (cowHash f)
  have hnodup := hk.nodup
  rw [hsplit] at hk hnodup
  have hin : ∀ b ∈ l₁ ++ l₂, b ∈ chains (cowHash f) := by
    intro b hb
    rw [hsplit]
    rcases List.mem_append.mp hb with hb | hb
    · exact List.mem_append_left _ hb
    · exact List.mem_append_right _ (List.mem_cons_of_mem _ hb)
  have hprev : l₁.getLastD 0 ≠ 0 → l₁.getLastD 0 ∈ chains (cowHash f) := fun hne =>
    hin _ (List.mem_append_left _ ((List.mem_cons.mp List.getLastD_mem_cons).resolve_left hne))
  -- nothing but one link is written
  obtain ⟨hfields, hframe⟩ := h.setNext hR hprev hm
  have hnext : ∀ b ∈ l₁ ++ l₂, refNext m' b = if b = l₁.getLastD 0 then refNext m ref else refNext m b := by
    intro b hb
    split_ifs with hc
    · have h0 : l₁.getLastD 0 ≠ 0 := hc ▸ hk.ne_zero (a := b) (by
        rcases List.mem_append.mp hb with hb | hb
        · exact List.mem_append_left _ hb
        · exact List.mem_append_right _ (List.mem_cons_of_mem _ hb))
      rw [hm, if_pos h0, hc]
      have hlt := load_lt 8 m (ref + 16)
      exact load_store_of_lt hlt
    · exact (hfields _ b (hin b hb)).2.2 hc
  have hnew := hk.remove hnext
  have hcases : ∀ k, ∀ b ∈ Function.update chains (cowHash f) (l₁ ++ l₂) k, b ∈ chains k ∧ b ≠ ref := by
    intro k b hb
    by_cases hc : k = cowHash f
    · subst hc
      rw [Function.update_self] at hb
      refine ⟨hin b hb, ?_⟩
      rintro rfl
      exact (List.nodup_middle.mp hnodup).notMem hb
    · rw [Function.update_of_ne hc] at hb
      refine ⟨hb, ?_⟩
      rintro rfl
      apply hc
      rw [← h.hash k b hb, hphys]
  refine ⟨⟨fun k => ?_, fun k b hb => ?_, fun k b hb => ?_, fun k b hb b' hb' heq => ?_, fun k b hb => ?_,
    fun x hx => ?_⟩, fun k b hb => (hfields k b hb).1, hframe⟩
  · by_cases hc : k = cowHash f
    · subst hc
      rw [Function.update_self, ht]
      rcases List.eq_nil_or_concat l₁ with rfl | ⟨l, c, rfl⟩
      · simpa using hnew
      · have h0 : (l.concat c).getLastD 0 ≠ 0 := by
          rw [List.concat_eq_append, List.getLastD_concat]
          exact hk.ne_zero (by simp)
        rw [if_pos h0]
        simpa using hnew
    · rw [Function.update_of_ne hc]
      have htk : table' k = table k := by
        rw [ht]
        split_ifs
        · rfl
        · exact Function.update_of_ne hc _ _
      rw [htk]
      refine (h.list k).congr fun b hb => ?_
      refine (hfields k b hb).2.2 fun heq => hc ?_
      have h0 : l₁.getLastD 0 ≠ 0 := heq ▸ (h.list k).ne_zero hb
      rw [← h.hash k b hb, ← h.hash _ _ (hprev h0), heq]
  · obtain ⟨hmem, hne⟩ := hcases k b hb
    exact ⟨h.mem k b hmem, hne⟩
  · obtain ⟨hmem, -⟩ := hcases k b hb
    rw [(hfields k b hmem).1]
    exact h.hash k b hmem
  · obtain ⟨hmem, -⟩ := hcases k b hb
    obtain ⟨hmem', -⟩ := hcases k b' hb'
    rw [(hfields k b hmem).1, (hfields k b' hmem').1] at heq
    exact h.inj k b hmem b' hmem' heq
  · obtain ⟨hmem, -⟩ := hcases k b hb
    rw [(hfields k b hmem).1, (hfields k b hmem).2.1]
    exact h.count k b hmem
  · by_cases hxf : x = f
    · rw [hxf, hzero]
    refine h.zero x fun b hb heq => ?_
    have hbref : b ≠ ref := fun e => hxf (by rw [← heq, e, hphys])
    refine hx b ?_ ((hfields _ b hb).1.trans heq)
    by_cases hc : cowHash x = cowHash f
    · rw [hc, Function.update_self]
      rw [hc, hsplit] at hb
      rcases List.mem_append.mp hb with hb | hb
      · exact List.mem_append_left _ hb
      · exact List.mem_append_right _ ((List.mem_cons.mp hb).resolve_left hbref)
    · rw [Function.update_of_ne hc]
      exact hb

/-- After `cow_init` there is no entry. -/
theorem refs_init (m : Mem) : Refs m (fun _ => 0) ∅ (fun _ => []) (fun _ => 0) :=
  ⟨fun _ => rfl, fun _ _ h => absurd h List.not_mem_nil, fun _ _ h => absurd h List.not_mem_nil,
    fun _ _ h => absurd h List.not_mem_nil, fun _ _ h => absurd h List.not_mem_nil, fun _ _ => rfl⟩

/-- Linking a new entry with count 0 in front of its chain. -/
theorem Refs.add (h : Refs m table R chains cnt) {f ref : ℕ} (hrefR : IsFrame ref)
    (hold : ∀ r ∈ R, ∀ x, InPage r x → m' x = m x) (hnone : ∀ r ∈ chains (cowHash f),
      refPhysicalAddress m r ≠ f)
    (hphys : refPhysicalAddress m' ref = f) (hcount : refCount m' ref = 0)
    (hnext : refNext m' ref = table (cowHash f)) :
    Refs m' (Function.update table (cowHash f) ref) (Set.insert ref R)
      (Function.update chains (cowHash f) (ref :: chains (cowHash f))) cnt := by
  have hm' := h.congr hold
  have hnone' : ∀ r ∈ chains (cowHash f), refPhysicalAddress m' r ≠ f := by
    intro r hr
    rw [(refFields_congr (hold r (h.mem _ r hr))).1]
    exact hnone r hr
  have hcases : ∀ k, ∀ r ∈ Function.update chains (cowHash f) (ref :: chains (cowHash f)) k,
      (r = ref ∧ k = cowHash f) ∨ r ∈ chains k := by
    intro k r hr
    by_cases hk : k = cowHash f
    · subst hk
      rw [Function.update_self] at hr
      rcases List.mem_cons.mp hr with rfl | hr
      · exact Or.inl ⟨rfl, rfl⟩
      · exact Or.inr hr
    · rw [Function.update_of_ne hk] at hr
      exact Or.inr hr
  refine ⟨fun k => ?_, fun k r hr => ?_, fun k r hr => ?_, fun k r hr r' hr' heq => ?_,
    fun k r hr => ?_, fun g hg => ?_⟩
  · by_cases hk : k = cowHash f
    · subst hk
      rw [Function.update_self, Function.update_self]
      refine ⟨rfl, hrefR.ne_zero, ?_⟩
      rw [hnext]
      exact hm'.list _
    · rw [Function.update_of_ne hk, Function.update_of_ne hk]
      exact hm'.list k
  · rcases hcases k r hr with ⟨rfl, -⟩ | hr
    · exact Set.mem_insert _ _
    · exact Set.mem_insert_of_mem _ (h.mem k r hr)
  · rcases hcases k r hr with ⟨rfl, rfl⟩ | hr
    · rw [hphys]
    · exact hm'.hash k r hr
  · rcases hcases k r hr with ⟨rfl, hk⟩ | hin <;> rcases hcases k r' hr' with ⟨rfl, hk'⟩ | hin'
    · rfl
    · subst hk
      exact absurd (heq.symm.trans hphys) (hnone' r' hin')
    · subst hk'
      exact absurd (heq.trans hphys) (hnone' r hin)
    · exact hm'.inj k r hin r' hin' heq
  · rcases hcases k r hr with ⟨rfl, rfl⟩ | hr
    · rw [hcount, hphys, h.zero f hnone]
    · exact hm'.count k r hr
  · refine h.zero g fun r hr => ?_
    rw [← (refFields_congr (hold r (h.mem _ r hr))).1]
    apply hg r
    by_cases hk : cowHash g = cowHash f
    · rw [hk, Function.update_self, ← hk]
      exact List.mem_cons_of_mem _ hr
    · rw [Function.update_of_ne hk]
      exact hr

end refs

/-! ### Tables, entries and data side by side -/

/-- Who uses which held frame, and the reference table as a map. -/
structure Ghost where
  /-- The held frames. -/
  F : Set ℕ
  /-- Those that are page tables. -/
  T : Set ℕ
  /-- Those that are reference entries. -/
  R : Set ℕ
  /-- Those that are mapped or to be mapped. -/
  D : Set ℕ
  /-- The chains of the hash table. -/
  chains : ℕ → List ℕ
  /-- The count of each frame. -/
  cnt : ℕ → ℕ

/-- The table has an entry for the frame. -/
def Ghost.HasEntry (g : Ghost) (m : Mem) (f : ℕ) : Prop :=
  ∃ ref ∈ g.chains (cowHash f), refPhysicalAddress m ref = f

/-- Whether a frame has an entry only depends on the frames of the entries. -/
theorem Ghost.hasEntry_congr {g g' : Ghost} {m m' : Mem} (hchains : g'.chains = g.chains)
    (hm : ∀ k, ∀ ref ∈ g.chains k, refPhysicalAddress m' ref = refPhysicalAddress m ref) :
    g'.HasEntry m' = g.HasEntry m := by
  funext f
  unfold HasEntry
  rw [hchains]
  apply propext
  constructor
  · rintro ⟨ref, href, rfl⟩
    exact ⟨ref, href, (hm _ ref href).symm⟩
  · rintro ⟨ref, href, rfl⟩
    exact ⟨ref, href, hm _ ref href⟩

/-- Tables, reference entries and data are disjoint sets of held frames. -/
structure Footing {A : Type} (P : Ownership A) (s : State A) (roots : Set ℕ) (g : Ghost) : Prop where
  owns : P.Owns s.toMachine g.F
  tables : Tables s.mem roots g.T
  refs : Refs s.mem s.hashTable g.R g.chains g.cnt
  tF : g.T ⊆ g.F
  rF : g.R ⊆ g.F
  dF : g.D ⊆ g.F
  tr : ∀ f ∈ g.T, f ∉ g.R
  td : ∀ f ∈ g.D, f ∉ g.T
  rd : ∀ f ∈ g.D, f ∉ g.R

/-- From `s` to `s'` tables and data have kept their contents. -/
structure Kept {A : Type} (P : Ownership A) (roots : Set ℕ) (s : State A) (g : Ghost) (s' : State A)
    (g' : Ghost) : Prop where
  footing : Footing P s' roots g'
  T_eq : g'.T = g.T
  D_eq : g'.D = g.D
  tables_mem : ∀ t ∈ g.T, ∀ x, InPage t x → s'.mem x = s.mem x
  data_mem : ∀ d ∈ g.D, ∀ x, InPage d x → s'.mem x = s.mem x

section footing

variable {A : Type} {P : Ownership A} {alloc : Machine A → ℕ × Machine A} {s : State A}
  {roots : Set ℕ} {g : Ghost}

/-- What is held is a frame. -/
theorem Footing.isFrame (h : Footing P s roots g) {f : ℕ} (hf : f ∈ g.F) : IsFrame f :=
  P.isFrame h.owns f hf

/-- The entries of the table are frames. -/
theorem Footing.ref_isFrame (h : Footing P s roots g) : ∀ ref ∈ g.R, IsFrame ref :=
  fun _ href => h.isFrame (h.rF href)

/-- Two held frames that share a byte are one. -/
theorem Footing.eq_of_inPage (h : Footing P s roots g) {f f' x : ℕ} (hf : f ∈ g.F) (hf' : f' ∈ g.F)
    (hx : InPage f x) (hx' : InPage f' x) : f = f' :=
  (h.isFrame hf).eq_of_inPage (h.isFrame hf') hx hx'

/-- The entries are those of a memory that agrees on their frames. -/
theorem Footing.hasEntry_congr (h : Footing P s roots g) {g' : Ghost} {m' : Mem}
    (hchains : g'.chains = g.chains) (hm : ∀ ref ∈ g.R, ∀ x, InPage ref x → m' x = s.mem x) :
    g'.HasEntry m' = g.HasEntry s.mem :=
  Ghost.hasEntry_congr hchains fun _ ref href => (refFields_congr (hm ref (h.refs.mem _ ref href))).1

/-- A page table entry is written. -/
theorem Footing.leafWrite (h : Footing P s roots g) {r v pt : ℕ} (hr : r ∈ roots)
    (hpt : pageTable s.mem r v = some pt) (e : ℕ) :
    Footing P { s with mem := store 8 s.mem (slot pt (ptIndex v)) e } roots g ∧
      ∀ f ∈ g.F, f ∉ g.T → ∀ x, InPage f x → store 8 s.mem (slot pt (ptIndex v)) e x = s.mem x := by
  have hptT := h.tables.mem_of_pageTable hr hpt
  have hkeep : ∀ f ∈ g.F, f ≠ pt → ∀ x, InPage f x →
      store 8 s.mem (slot pt (ptIndex v)) e x = s.mem x := by
    intro f hf hne x hx
    apply store_slot_apply (ptIndex_lt v)
    exact fun hx' => hne (h.eq_of_inPage hf (h.tF hptT) hx hx')
  refine ⟨⟨?_, h.tables.leafWrite hr hpt e, h.refs.congr fun ref href x hx => ?_, h.tF, h.rF, h.dF,
    h.tr, h.td, h.rd⟩, fun f hf hfT => hkeep f hf fun e => hfT (e ▸ hptT)⟩
  · refine P.write_state h.owns rfl fun x hx => ?_
    exact store_slot_apply (ptIndex_lt v) (hx pt (h.tF hptT))
  · exact hkeep ref (h.rF href) (fun e => h.tr pt hptT (e ▸ href)) x hx

/-- A count is written. -/
theorem Footing.setCount (h : Footing P s roots g) {f ref v : ℕ}
    (href : ref ∈ g.chains (cowHash f)) (hphys : refPhysicalAddress s.mem ref = f)
    (hv : v < 2 ^ 32) :
    Kept P roots s g (setRefCount s ref v) { g with cnt := Function.update g.cnt f v } := by
  have hrefR := h.refs.mem _ ref href
  have hin : ∀ x, x ∈ Set.Ico (ref + 8) (ref + 8 + 4) → InPage ref x := by
    intro x hx
    have h1 := hx.1
    have h2 := hx.2
    unfold InPage pageSize
    omega
  have hkeep : ∀ f ∈ g.F, f ≠ ref → ∀ x, InPage f x → (setRefCount s ref v).mem x = s.mem x := by
    intro f hf hne x hx
    exact store_apply_of_notMem fun hx' => hne (h.eq_of_inPage hf (h.rF hrefR) hx (hin x hx'))
  have htables : ∀ t ∈ g.T, ∀ x, InPage t x → (setRefCount s ref v).mem x = s.mem x :=
    fun t ht => hkeep t (h.tF ht) fun e => h.tr t ht (e ▸ hrefR)
  have hdata : ∀ d ∈ g.D, ∀ x, InPage d x → (setRefCount s ref v).mem x = s.mem x :=
    fun d hd => hkeep d (h.dF hd) fun e => h.rd d hd (e ▸ hrefR)
  refine ⟨⟨?_, h.tables.congr htables, h.refs.setCount h.ref_isFrame href hphys hv, h.tF, h.rF, h.dF,
    h.tr, h.td, h.rd⟩, rfl, rfl, htables, hdata⟩
  refine P.write_state h.owns rfl fun x hx => ?_
  exact store_apply_of_notMem fun hx' => hx ref (h.rF hrefR) (hin x hx')

/-- Bytes of one data frame are written. -/
theorem Footing.dataWrite (h : Footing P s roots g) {f : ℕ} (hf : f ∈ g.D) {w : Mem}
    (hw : ∀ x, ¬ InPage f x → w x = s.mem x) :
    Footing P { s with mem := w } roots g ∧ ∀ t ∈ g.T, ∀ x, InPage t x → w x = s.mem x := by
  have hkeep : ∀ f' ∈ g.F, f' ≠ f → ∀ x, InPage f' x → w x = s.mem x := by
    intro f' hf' hne x hx
    exact hw x fun hx' => hne (h.eq_of_inPage hf' (h.dF hf) hx hx')
  have htables : ∀ t ∈ g.T, ∀ x, InPage t x → w x = s.mem x :=
    fun t ht => hkeep t (h.tF ht) fun e => h.td f hf (e ▸ ht)
  refine ⟨⟨P.write_state h.owns rfl fun x hx => hw x (hx f (h.dF hf)), h.tables.congr htables,
    h.refs.congr fun ref href => hkeep ref (h.rF href) fun e => h.rd f hf (e ▸ href), h.tF, h.rF,
    h.dF, h.tr, h.td, h.rd⟩, htables⟩

/-- An allocation fails. -/
theorem Footing.allocFail (h : Footing P s roots g) (halloc : P.Allocator alloc)
    (h0 : (alloc s.toMachine).1 = 0) :
    Kept P roots s g { s with toMachine := (alloc s.toMachine).2 } g := by
  have hkeep : ∀ f ∈ g.F, ∀ x, InPage f x → (alloc s.toMachine).2.mem x = s.mem x :=
    fun f hf x hx => halloc.mem h.owns f hf x hx
  exact ⟨⟨halloc.fail h.owns h0, h.tables.congr fun t ht => hkeep t (h.tF ht),
    h.refs.congr fun ref href => hkeep ref (h.rF href), h.tF, h.rF, h.dF, h.tr, h.td, h.rd⟩,
    rfl, rfl, fun t ht => hkeep t (h.tF ht), fun d hd => hkeep d (h.dF hd)⟩

/-- A frame for data is allocated. -/
theorem Footing.allocData (h : Footing P s roots g) (halloc : P.Allocator alloc)
    (h0 : (alloc s.toMachine).1 ≠ 0) :
    (alloc s.toMachine).1 ∉ g.F ∧ IsFrame (alloc s.toMachine).1 ∧
    Footing P { s with toMachine := (alloc s.toMachine).2 } roots
      { g with F := Set.insert (alloc s.toMachine).1 g.F, D := Set.insert (alloc s.toMachine).1 g.D } ∧
    ∀ f ∈ g.F, ∀ x, InPage f x → (alloc s.toMachine).2.mem x = s.mem x := by
  have hkeep : ∀ f ∈ g.F, ∀ x, InPage f x → (alloc s.toMachine).2.mem x = s.mem x :=
    fun f hf x hx => halloc.mem h.owns f hf x hx
  have hfresh := halloc.fresh h.owns h0
  have howns := halloc.owns h.owns h0
  refine ⟨hfresh, P.isFrame howns _ (Set.mem_insert _ _), ⟨howns,
    h.tables.congr fun t ht => hkeep t (h.tF ht), h.refs.congr fun ref href => hkeep ref (h.rF href),
    h.tF.trans (Set.subset_insert _ _), h.rF.trans (Set.subset_insert _ _),
    Set.insert_subset_insert h.dF, h.tr, ?_, ?_⟩, hkeep⟩
  · rintro f (rfl | hf) hT
    · exact hfresh (h.tF hT)
    · exact h.td f hf hT
  · rintro f (rfl | hf) hR
    · exact hfresh (h.rF hR)
    · exact h.rd f hf hR

/-- Memory below the physical address width is as it was. -/
theorem Footing.physical (h : Footing P s roots g) (hphysical : P.Physical) {w : Mem}
    (hw : ∀ x < 2 ^ 52, w x = s.mem x) :
    Footing P { s with mem := w } roots g ∧ ∀ f ∈ g.F, ∀ x, InPage f x → w x = s.mem x := by
  have hkeep : ∀ f ∈ g.F, ∀ x, InPage f x → w x = s.mem x := by
    intro f hf x hx
    have hframe := h.isFrame hf
    have hlt := hframe.lt
    have haligned := hframe.aligned
    unfold InPage pageSize at hx
    unfold pageSize at haligned
    exact hw x (by omega)
  exact ⟨⟨hphysical.write_state h.owns rfl hw, h.tables.congr fun t ht => hkeep t (h.tF ht),
    h.refs.congr fun ref href => hkeep ref (h.rF href), h.tF, h.rF, h.dF, h.tr, h.td, h.rd⟩, hkeep⟩

/-- A frame that no one uses any more is given back. -/
theorem Footing.freeFrame (h : Footing P s roots g) {free : ℕ → Machine A → Machine A} (hfree : P.Freer free)
    {f : ℕ} (hf : f ∈ g.F) (hT : f ∉ g.T) (hR : f ∉ g.R) (hD : f ∉ g.D) :
    Footing P { s with toMachine := free f s.toMachine } roots { g with F := g.F \ {f} } ∧
      ∀ u ∈ g.F, u ≠ f → ∀ x, InPage u x → (free f s.toMachine).mem x = s.mem x := by
  have htf : ∀ t ∈ g.T, t ≠ f := fun t ht heq => hT (heq ▸ ht)
  have hrf : ∀ r ∈ g.R, r ≠ f := fun r hr heq => hR (heq ▸ hr)
  have hkeep : ∀ u ∈ g.F, u ≠ f → ∀ x, InPage u x → (free f s.toMachine).mem x = s.mem x :=
    fun u hu hne x hx => hfree.mem h.owns f hf u hu hne x hx
  exact ⟨⟨hfree.owns h.owns f hf, h.tables.congr fun t ht => hkeep t (h.tF ht) (htf t ht),
    h.refs.congr fun r hr => hkeep r (h.rF hr) (hrf r hr), fun t ht => ⟨h.tF ht, htf t ht⟩,
    fun r hr => ⟨h.rF hr, hrf r hr⟩, fun d hd => ⟨h.dF hd, fun heq => hD (heq ▸ hd)⟩, h.tr, h.td, h.rd⟩, hkeep⟩

/-- A data frame is given back. -/
theorem Footing.freeData (h : Footing P s roots g) {free : ℕ → Machine A → Machine A} (hfree : P.Freer free)
    {f : ℕ} (hf : f ∈ g.D) :
    Footing P { s with toMachine := free f s.toMachine } roots { g with F := g.F \ {f}, D := g.D \ {f} } ∧
      ∀ t ∈ g.T, ∀ x, InPage t x → (free f s.toMachine).mem x = s.mem x := by
  have hdrop : Footing P s roots { g with D := g.D \ {f} } :=
    ⟨h.owns, h.tables, h.refs, h.tF, h.rF, fun d hd => h.dF hd.1, h.tr, fun d hd => h.td d hd.1,
      fun d hd => h.rd d hd.1⟩
  obtain ⟨hfoot, hkeep⟩ := hdrop.freeFrame hfree (h.dF hf) (h.td f hf) (h.rd f hf) fun hd => hd.2 rfl
  exact ⟨hfoot, fun t ht => hkeep t (h.tF ht) fun heq => h.td f hf (heq ▸ ht)⟩

end footing

end PrometheusKernel.Cow
