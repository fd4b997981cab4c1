import PrometheusKernel.Heap.Realloc
import PrometheusKernel.Lib.PrivateBytes

/-!
# The heap gives its clients arrays of their own

An `Observed` run carries along what the clients know of the bytes that they hold: nothing after `kmalloc`, zeros
after `kcalloc` and after `kmalloc_flags` with `GFP_ZERO`, what they wrote since, and what `krealloc` carried over.
In a heap without slab caches memory agrees with all of it in every state (`clients_read_back`): the headers, the
splits and merges of blocks and the writes of other clients are never seen in the bytes of an allocation.
-/

namespace PrometheusKernel.Heap

open ByteMem LinkedList Tiling Interleaving PrivateBytes

/-! ### Runs with the bytes of the allocations -/

section runs

variable {A : Type}

/-- A run that carries along what the clients know. -/
structure Observed (A : Type) extends Run A where
  /-- The bytes of the allocations, by pointer and offset. -/
  known : Known

/-- A call, one of the variants with flags among them, or a byte written by a client. -/
inductive FlagsOp
  | plain (op : Op)
  | mallocFlags (size flags : ℕ)
  | callocFlags (num size flags : ℕ)

/-- What the clients may do. -/
def FlagsOp.Valid (c : Run A) : FlagsOp → Prop
  | .plain op => Heap.Valid c op
  | .mallocFlags size _ => Heap.Valid c (.malloc size)
  | .callocFlags num size _ => Heap.Valid c (.calloc num size)

instance (c : Run A) (op : FlagsOp) : Decidable (op.Valid c) := by
  cases op <;> unfold FlagsOp.Valid <;> infer_instance

/-- The size of the allocation at `p`. -/
def lengthAt (live : List (ℕ × ℕ)) (p : ℕ) : ℕ := ((live.find? fun q => q.1 = p).map Prod.snd).getD 0

/-- The allocation that holds the byte at `addr`. -/
def holderOf (live : List (ℕ × ℕ)) (addr : ℕ) : Option (ℕ × ℕ) :=
  live.find? fun q => q.1 ≤ addr ∧ addr < q.1 + q.2

/-- What the clients know after the operation returned `r`. -/
def knownAfter (c : Observed A) (r : ℕ) : FlagsOp → Known
  | .plain (.malloc _) => Function.update c.known r fun _ => none
  | .plain (.calloc _ _) => Function.update c.known r fun _ => some 0
  | .plain (.realloc ptr _) =>
      Function.update c.known r fun i => if i < lengthAt c.live ptr then c.known ptr i else none
  | .plain (.write addr byte) =>
      match holderOf c.live addr with
      | none => c.known
      | some q => noteWrite c.known q.1 (addr - q.1) byte
  | .plain _ => c.known
  | .mallocFlags _ flags => Function.update c.known r fun _ => if flags &&& gfpZero ≠ 0 then some 0 else none
  | .callocFlags _ _ _ => Function.update c.known r fun _ => some 0

variable (slabAlloc : ℕ → Machine A → ℕ × Machine A) (slabFree : ℕ → ℕ → Machine A → Machine A)

/-- One operation. -/
def observedStep (c : Observed A) : FlagsOp → Option (Observed A)
  | .plain op => (step slabAlloc slabFree c.toRun op).map fun c' =>
      ⟨c', knownAfter c (returned slabAlloc slabFree c.toRun op) (.plain op)⟩
  | .mallocFlags size flags => (kmallocFlags slabAlloc c.state size flags).map fun res =>
      ⟨⟨res.2, afterMalloc size res.1 c.live⟩, knownAfter c res.1 (.mallocFlags size flags)⟩
  | .callocFlags num size flags => (kcallocFlags slabAlloc c.state num size flags).map fun res =>
      ⟨⟨res.2, afterMalloc (num * size) res.1 c.live⟩, knownAfter c res.1 (.callocFlags num size flags)⟩

end runs

/-! ### The invariant -/

section contents

variable {A : Type} {slabAlloc : ℕ → Machine A → ℕ × Machine A} {slabFree : ℕ → ℕ → Machine A → Machine A}
  {start e size p n : ℕ} {s s' : State A} {live : List (ℕ × ℕ)} {known : Known} {K : ℕ → Option ℕ}
  {O : Set (ℕ × ℕ)}

/-- The blocks tile the heap, no header gives less than the size of its allocation, and memory agrees with what is
known. -/
structure Contents (start e : ℕ) (K : ℕ → Option ℕ) (O : Set (ℕ × ℕ)) (s : State A) (live : List (ℕ × ℕ))
    (known : Known) : Prop where
  inv : ∃ bs, Inv (Objects.none A) start e ⟨s, live⟩ bs K O
  covered : ∀ q ∈ live, q.2 ≤ headerSize s.mem (q.1 - allocHeaderSize)
  agrees : Agrees s.mem live known

/-- Allocations whose bytes stay. -/
theorem Contents.keep (h : Contents start e K O s live known) {live' : List (ℕ × ℕ)}
    (hinv : ∃ bs, Inv (Objects.none A) start e ⟨s', live'⟩ bs K O)
    (hkeep : ∀ q ∈ live', q ∈ live ∧ SameAt s.mem s'.mem q) : Contents start e K O s' live' known := by
  obtain ⟨bs, h'⟩ := h.inv
  refine ⟨hinv, fun q hq => ?_, h.agrees.keep fun q hq => ⟨(hkeep q hq).1, fun i hi => ?_⟩⟩
  · obtain ⟨hq', hsame⟩ := hkeep q hq
    rw [hsame.header (h'.ptr_ge hq')]
    exact h.covered q hq'
  · exact (hkeep q hq).2 (q.1 + i) (by omega) (by omega)

/-- What is said of pointers that are not held does not matter. -/
theorem Contents.forget (h : Contents start e K O s live known) (hp : p ∉ live.map Prod.fst)
    (f : ℕ → Option UInt8) : Contents start e K O s live (Function.update known p f) :=
  ⟨h.inv, h.covered, h.agrees.forget hp⟩

/-- Null is not held. -/
theorem Contents.zero_notMem (h : Contents start e K O s live known) : (0 : ℕ) ∉ live.map Prod.fst := by
  obtain ⟨bs, h'⟩ := h.inv
  exact fun hmem => h'.ne_zero hmem rfl

/-- An allocation that was added, and writes into its bytes. -/
theorem Contents.gain {w : Mem} (h : Contents start e K O s live known) (hn : n ∉ live.map Prod.fst)
    (hinv : ∃ bs, Inv (Objects.none A) start e ⟨s', (n, size) :: live⟩ bs K O)
    (hheader : headerSize s'.mem (n - allocHeaderSize) = size) (hsame : ∀ q ∈ live, SameAt s.mem s'.mem q)
    (hw : ∀ x, x < n ∨ n + size ≤ x → w x = s'.mem x) {f : ℕ → Option UInt8}
    (hf : ∀ i < size, ∀ b, f i = some b → w (n + i) = b) :
    Contents start e K O { s' with mem := w } ((n, size) :: live) (Function.update known n f) := by
  obtain ⟨bs, h₀⟩ := h.inv
  obtain ⟨bs', h'⟩ := hinv
  have hn12 := h'.ptr_ge List.mem_cons_self
  have hkeep : ∀ q ∈ live, SameAt s.mem w q := by
    intro q hq
    have hqn : q.1 ≠ n := fun heq => hn (List.mem_map.mpr ⟨q, hq, heq⟩)
    exact (hsame q hq).trans (h'.write_sameAt (List.mem_cons_of_mem _ hq) List.mem_cons_self hqn hw) (h₀.ptr_ge hq)
  have hsame' : headerSize w (n - allocHeaderSize) = headerSize s'.mem (n - allocHeaderSize) := by
    unfold allocHeaderSize
    apply load_congr
    rintro x ⟨h1, h2⟩
    exact hw x (Or.inl (by dsimp only at hn12; omega))
  refine ⟨⟨bs', h'.write List.mem_cons_self hw⟩, fun q hq => ?_, Agrees.cons ?_ hn hf⟩
  · rcases List.mem_cons.mp hq with rfl | hq
    · dsimp only
      rw [hsame', hheader]
    · dsimp only
      rw [(hkeep q hq).header (h₀.ptr_ge hq)]
      exact h.covered q hq
  · exact h.agrees.keep fun q hq => ⟨hq, fun i hi => hkeep q hq (q.1 + i) (by omega) (by omega)⟩

/-! ### The calls -/

/-- `kmalloc`, and what is written into the bytes before the client has them. -/
theorem Contents.kmalloc (h : Contents start e K O s live known) (slabAlloc : ℕ → Machine A → ℕ × Machine A)
    (he : e ≤ 2 ^ 64) (hspan : e < start + 2 ^ 32) (hsize : size + 28 ≤ 2 ^ 64) :
    ∃ n s', Heap.kmalloc slabAlloc s size = some (n, s') ∧ n ∉ live.map Prod.fst ∧ (n = 0 → s' = s) ∧
      (n ≠ 0 → ∀ w : Mem, (∀ x, x < n ∨ n + size ≤ x → w x = s'.mem x) → ∀ f : ℕ → Option UInt8,
        (∀ i < size, ∀ b, f i = some b → w (n + i) = b) →
        Contents start e K O { s' with mem := w } ((n, size) :: live) (Function.update known n f)) := by
  obtain ⟨bs, h₀⟩ := h.inv
  obtain ⟨n, s', bs', hcall, hn, hinv, hnull, hheader, hsame⟩ := h₀.kmalloc_spec slabAlloc he hspan hsize
  refine ⟨n, s', hcall, hn, hnull, fun hn0 w hw f hf => ?_⟩
  have hafter : afterMalloc size n live = (n, size) :: live := if_neg hn0
  rw [hafter] at hinv
  exact h.gain hn ⟨bs', hinv⟩ (hheader hn0) hsame hw hf

/-- The outcome of an allocation, with the bytes `f` that the client knows. -/
theorem Contents.afterMalloc (h : Contents start e K O s live known) {f : ℕ → Option UInt8} (hnull : n = 0 → s' = s)
    (hgain : n ≠ 0 → Contents start e K O s' ((n, size) :: live) (Function.update known n f)) :
    Contents start e K O s' (Heap.afterMalloc size n live) (Function.update known n f) := by
  unfold Heap.afterMalloc
  by_cases hn : n = 0
  · rw [if_pos hn, hnull hn, hn]
    exact h.forget h.zero_notMem f
  · rw [if_neg hn]
    exact hgain hn

/-- `kmalloc` leaves the known bytes of the other allocations alone. -/
theorem Contents.malloc (h : Contents start e K O s live known) (slabAlloc : ℕ → Machine A → ℕ × Machine A)
    (he : e ≤ 2 ^ 64) (hspan : e < start + 2 ^ 32) (hsize : size + 28 ≤ 2 ^ 64) :
    ∃ n s', Heap.kmalloc slabAlloc s size = some (n, s') ∧
      Contents start e K O s' (Heap.afterMalloc size n live) (Function.update known n fun _ => none) := by
  obtain ⟨n, s', hcall, -, hnull, hgain⟩ := h.kmalloc slabAlloc he hspan hsize
  refine ⟨n, s', hcall, h.afterMalloc hnull fun hn => ?_⟩
  exact hgain hn s'.mem (fun _ _ => rfl) _ fun _ _ b hb => absurd hb.symm (Option.some_ne_none b)

/-- The bytes that the fill loops write. -/
theorem fill_known (m : Mem) (p size : ℕ) :
    (∀ x, x < p ∨ p + size ≤ x → fill size m p 0 x = m x) ∧
      ∀ i < size, ∀ b, (some 0 : Option UInt8) = some b → fill size m p 0 (p + i) = b := by
  refine ⟨fun x hx => ?_, fun i hi b hb => ?_⟩
  · rw [fill_apply, if_neg (by omega)]
  · rw [fill_apply, if_pos ⟨by omega, by omega⟩]
    exact Option.some.inj hb

/-- `kmalloc_flags` only clears the allocation that it returns. -/
theorem Contents.mallocFlags (h : Contents start e K O s live known) (slabAlloc : ℕ → Machine A → ℕ × Machine A)
    (he : e ≤ 2 ^ 64) (hspan : e < start + 2 ^ 32) (hsize : size + 28 ≤ 2 ^ 64) (flags : ℕ) :
    ∃ n s', kmallocFlags slabAlloc s size flags = some (n, s') ∧
      Contents start e K O s' (Heap.afterMalloc size n live)
        (Function.update known n fun _ => if flags &&& gfpZero ≠ 0 then some 0 else none) := by
  obtain ⟨n, s', hcall, -, hnull, hgain⟩ := h.kmalloc slabAlloc he hspan hsize
  unfold kmallocFlags
  rw [hcall]
  dsimp only
  obtain ⟨hout, hin⟩ := fill_known s'.mem n size
  by_cases hzero : flags &&& gfpZero ≠ 0
  · simp only [if_pos hzero]
    by_cases hn : n ≠ 0
    · rw [if_pos ⟨hn, hzero⟩]
      exact ⟨n, _, rfl, h.afterMalloc (fun h0 => absurd h0 hn) fun _ => hgain hn _ hout _ hin⟩
    · rw [if_neg fun hboth => hn hboth.1]
      exact ⟨n, s', rfl, h.afterMalloc hnull fun h0 => absurd h0 hn⟩
  · simp only [if_neg hzero]
    rw [if_neg fun hboth => hzero hboth.2]
    refine ⟨n, s', rfl, h.afterMalloc hnull fun hn => ?_⟩
    exact hgain hn s'.mem (fun _ _ => rfl) _ fun _ _ b hb => absurd hb.symm (Option.some_ne_none b)

/-- `kcalloc` only clears the allocation that it returns. -/
theorem Contents.calloc {num : ℕ} (h : Contents start e K O s live known)
    (slabAlloc : ℕ → Machine A → ℕ × Machine A) (he : e ≤ 2 ^ 64) (hspan : e < start + 2 ^ 32)
    (hsize : Word.mul 64 num size + 28 ≤ 2 ^ 64) :
    ∃ n s', Heap.kcalloc slabAlloc s num size = some (n, s') ∧
      Contents start e K O s' (Heap.afterMalloc (num * size) n live) (Function.update known n fun _ => some 0) := by
  by_cases hprod : num * size < 2 ^ 64
  · have hmul : Word.mul 64 num size = num * size := Nat.mod_eq_of_lt hprod
    rw [hmul] at hsize
    obtain ⟨n, s', hcall, -, hnull, hgain⟩ := h.kmalloc slabAlloc he hspan hsize
    obtain ⟨hout, hin⟩ := fill_known s'.mem n (num * size)
    rw [kcalloc_of_lt hprod, hcall, Option.map_some]
    dsimp only
    by_cases hn : n = 0
    · rw [if_pos hn]
      exact ⟨0, s', rfl, h.afterMalloc (fun _ => hnull hn) fun h0 => absurd rfl h0⟩
    · rw [if_neg hn]
      exact ⟨n, _, rfl, h.afterMalloc (fun h0 => absurd h0 hn) fun _ => hgain hn _ hout _ hin⟩
  · rw [kcalloc_of_le (not_lt.mp hprod)]
    exact ⟨0, s, rfl, h.afterMalloc (fun _ => rfl) fun h0 => absurd rfl h0⟩

/-- `kfree` leaves the known bytes of the other allocations alone. -/
theorem Contents.free (h : Contents start e K O s live known) (slabFree : ℕ → ℕ → Machine A → Machine A)
    (he : e ≤ 2 ^ 64) (hp : p = 0 ∨ p ∈ live.map Prod.fst) :
    Contents start e K O (Heap.kfree slabFree s p) (drop p live) known := by
  obtain ⟨bs, h₀⟩ := h.inv
  by_cases hmem : p ∈ live.map Prod.fst
  · obtain ⟨bs', hinv, hsame⟩ := h₀.kfree_sameAt slabFree he hmem
    refine h.keep ⟨bs', hinv⟩ fun q hq => ?_
    obtain ⟨hq, hne⟩ := mem_drop.mp hq
    exact ⟨hq, hsame q hq hne⟩
  · have hcall : Heap.kfree slabFree s p = s := if_pos (hp.resolve_right hmem)
    rw [hcall, drop_of_not_mem hmem]
    exact h

/-- The allocation at a pointer that is held. -/
theorem lengthAt_of_mem (hnodup : (live.map Prod.fst).Nodup) {q : ℕ × ℕ} (hq : q ∈ live) : lengthAt live q.1 = q.2 := by
  unfold lengthAt
  have hfind : live.find? (fun r => r.1 = q.1) = some q := by
    induction live with
    | nil => exact absurd hq List.not_mem_nil
    | cons r live ih =>
        rw [List.map_cons, List.nodup_cons] at hnodup
        by_cases hr : r.1 = q.1
        · rw [List.find?_cons_of_pos (by simpa using hr)]
          rcases List.mem_cons.mp hq with rfl | hq
          · rfl
          · exact absurd (List.mem_map.mpr ⟨q, hq, hr.symm⟩) hnodup.1
        · rw [List.find?_cons_of_neg (by simpa using hr)]
          refine ih hnodup.2 ((List.mem_cons.mp hq).resolve_left ?_)
          rintro rfl
          exact hr rfl
  rw [hfind]
  rfl

/-- What is not held has no length. -/
theorem lengthAt_of_not_mem (hp : p ∉ live.map Prod.fst) : lengthAt live p = 0 := by
  unfold lengthAt
  rw [List.find?_eq_none.mpr]
  · rfl
  · intro q hq hqp
    exact hp (List.mem_map.mpr ⟨q, hq, by simpa using hqp⟩)

/-- What is given back is not held. -/
theorem drop_not_mem : p ∉ (drop p live).map Prod.fst := by
  intro hp
  obtain ⟨q, hq, hqp⟩ := List.mem_map.mp hp
  exact (mem_drop.mp hq).2 hqp

/-- `krealloc` carries over what is known of the bytes up to the old size. -/
theorem Contents.realloc (h : Contents start e K O s live known) (slabAlloc : ℕ → Machine A → ℕ × Machine A)
    (slabFree : ℕ → ℕ → Machine A → Machine A) (he : e ≤ 2 ^ 64) (hspan : e < start + 2 ^ 32)
    (hsize : size + 28 ≤ 2 ^ 64) (hp : p = 0 ∨ p ∈ live.map Prod.fst) :
    ∃ n s', Heap.krealloc slabAlloc slabFree s p size = some (n, s') ∧
      Contents start e K O s' (afterRealloc p size n live)
        (Function.update known n fun i => if i < lengthAt live p then known p i else none) := by
  obtain ⟨bs, h₀⟩ := h.inv
  by_cases hp0 : p = 0
  · -- a null pointer: `kmalloc`
    subst hp0
    obtain ⟨n, s', hcall, hafter⟩ := h.malloc slabAlloc he hspan hsize
    refine ⟨n, s', ?_, ?_⟩
    · unfold Heap.krealloc
      rw [if_pos rfl, hcall]
    · have hlive : afterRealloc 0 size n live = Heap.afterMalloc size n live := by
        unfold afterRealloc Heap.afterMalloc
        rw [drop_of_not_mem h.zero_notMem]
        split_ifs <;> first | rfl | contradiction
      simp only [hlive, lengthAt_of_not_mem h.zero_notMem, Nat.not_lt_zero, if_false]
      exact hafter
  have hmem := hp.resolve_left hp0
  by_cases h0 : size = 0
  · refine ⟨0, Heap.kfree slabFree s p, ?_, ?_⟩
    · unfold Heap.krealloc
      rw [if_neg hp0, if_pos h0]
    · have hlive : afterRealloc p size 0 live = drop p live := by
        unfold afterRealloc
        rw [if_neg (not_not.mpr rfl), if_pos h0]
      rw [hlive]
      have hfree := h.free slabFree he hp
      exact hfree.forget hfree.zero_notMem _
  obtain ⟨q, hq, hqp⟩ := List.mem_map.mp hmem
  have hlen : lengthAt live p = q.2 := hqp ▸ lengthAt_of_mem h₀.nodup hq
  have hcov := h.covered q hq
  rw [hqp] at hcov
  obtain ⟨n, s', bs', hcall, hinv, hcases⟩ := h₀.krealloc_spec slabAlloc slabFree he hspan hmem h0 hsize
  refine ⟨n, s', hcall, ?_⟩
  unfold afterRealloc at hinv ⊢
  rw [hlen]
  -- what is known of the old bytes holds of memory
  have hold : ∀ i b, (if i < q.2 then known p i else none) = some b → i < q.2 ∧ s.mem (p + i) = b := by
    intro i b hb
    split_ifs at hb with hi
    rw [← hqp] at hb ⊢
    exact ⟨hi, h.agrees q hq i hi b hb⟩
  rcases hcases with ⟨rfl, rfl⟩ | ⟨rfl, rfl, hfit⟩ | ⟨hn, hnew, hheader, hcopy, hsame⟩
  · rw [if_neg (not_not.mpr rfl), if_neg h0]
    exact h.forget h.zero_notMem _
  · rw [if_pos hp0] at hinv ⊢
    refine ⟨⟨bs', hinv⟩, fun r hr => ?_, Agrees.cons ?_ drop_not_mem fun i _ b hb => (hold i b hb).2⟩
    · rcases List.mem_cons.mp hr with rfl | hr
      · exact hfit
      · exact h.covered r (mem_drop.mp hr).1
    · exact h.agrees.keep fun r hr => ⟨(mem_drop.mp hr).1, fun _ _ => rfl⟩
  · rw [if_pos hn] at hinv ⊢
    have hn' : n ∉ (drop p live).map Prod.fst := not_mem_drop hnew
    refine ⟨⟨bs', hinv⟩, fun r hr => ?_, Agrees.cons ?_ hn' fun i _ b hb => ?_⟩
    · rcases List.mem_cons.mp hr with rfl | hr
      · exact hheader.ge
      · obtain ⟨hr, hne⟩ := mem_drop.mp hr
        rw [(hsame r hr hne).header (h₀.ptr_ge hr)]
        exact h.covered r hr
    · refine h.agrees.keep fun r hr => ?_
      obtain ⟨hr, hne⟩ := mem_drop.mp hr
      exact ⟨hr, fun i hi => hsame r hr hne (r.1 + i) (by omega) (by omega)⟩
    · obtain ⟨hi, hb⟩ := hold i b hb
      rw [hcopy i (by omega), hb]

/-- A byte that a client writes into an allocation. -/
theorem Contents.write (h : Contents start e K O s live known) {q : ℕ × ℕ} (hq : q ∈ live) {addr : ℕ}
    (hlo : q.1 ≤ addr) (hhi : addr < q.1 + q.2) (byte : UInt8) :
    Contents start e K O { s with mem := Function.update s.mem addr byte } live
      (noteWrite known q.1 (addr - q.1) byte) := by
  obtain ⟨bs, h₀⟩ := h.inv
  have hm : ∀ x, x < q.1 ∨ q.1 + q.2 ≤ x → Function.update s.mem addr byte x = s.mem x :=
    fun x hx => Function.update_of_ne (by omega) _ _
  refine ⟨⟨bs, h₀.write hq hm⟩, fun r hr => ?_, ?_⟩
  · have hr12 := h₀.ptr_ge hr
    have hheader : headerSize (Function.update s.mem addr byte) (r.1 - allocHeaderSize) =
        headerSize s.mem (r.1 - allocHeaderSize) := by
      by_cases hrq : r.1 = q.1
      · rw [hrq] at hr12 ⊢
        unfold allocHeaderSize
        apply load_congr
        rintro x ⟨h3, h4⟩
        exact hm x (by omega)
      · exact (h₀.write_sameAt hr hq hrq hm).header hr12
    dsimp only
    rw [hheader]
    exact h.covered r hr
  · have haddr : addr = q.1 + (addr - q.1) := by omega
    have hwrite := h.agrees.write (q := q) (i := addr - q.1) (by omega) byte fun r hr hne => by
      have hapart := h₀.apart (q := r) (r := q) hr hq hne
      omega
    rwa [← haddr] at hwrite

/-- One operation. -/
theorem Contents.step {c : Observed A} {op : FlagsOp} (h : Contents start e K O c.state c.live c.known)
    (he : e ≤ 2 ^ 64) (hspan : e < start + 2 ^ 32) (hv : op.Valid c.toRun) :
    ∃ c', observedStep slabAlloc slabFree c op = some c' ∧ Contents start e K O c'.state c'.live c'.known := by
  obtain ⟨⟨s, live⟩, known⟩ := c
  dsimp only at h
  cases op with
  | plain op =>
      cases op with
      | enableSlab =>
          obtain ⟨bs, h₀⟩ := h.inv
          exact ⟨_, rfl, ⟨bs, h₀.region, h₀.owns, h₀.caches, h₀.layout, h₀.held, h₀.used, h₀.nodup⟩, h.covered,
            h.agrees⟩
      | malloc size =>
          obtain ⟨n, s', hcall, h'⟩ := h.malloc slabAlloc he hspan hv
          refine ⟨⟨⟨s', Heap.afterMalloc size n live⟩, Function.update known n fun _ => none⟩, ?_, h'⟩
          simp [observedStep, Heap.step, returned, knownAfter, hcall]
      | calloc num size =>
          obtain ⟨n, s', hcall, h'⟩ := h.calloc slabAlloc he hspan hv
          refine ⟨⟨⟨s', Heap.afterMalloc (num * size) n live⟩, Function.update known n fun _ => some 0⟩, ?_, h'⟩
          simp [observedStep, Heap.step, returned, knownAfter, hcall]
      | realloc ptr size =>
          obtain ⟨n, s', hcall, h'⟩ := h.realloc slabAlloc slabFree he hspan hv.1 hv.2
          refine ⟨⟨⟨s', afterRealloc ptr size n live⟩,
            knownAfter ⟨⟨s, live⟩, known⟩ n (.plain (.realloc ptr size))⟩, ?_, h'⟩
          simp [observedStep, Heap.step, returned, hcall]
      | free ptr => exact ⟨_, rfl, h.free slabFree he hv⟩
      | write addr byte =>
          obtain ⟨q₀, hq₀, hlo, hhi⟩ := hv
          obtain ⟨q, hfind⟩ : ∃ q, holderOf live addr = some q := by
            refine Option.isSome_iff_exists.mp (List.find?_isSome.mpr ⟨q₀, hq₀, ?_⟩)
            simpa using ⟨hlo, hhi⟩
          have hq : q ∈ live := List.mem_of_find?_eq_some hfind
          have hin : q.1 ≤ addr ∧ addr < q.1 + q.2 := by simpa using List.find?_some hfind
          refine ⟨_, rfl, ?_⟩
          show Contents start e K O _ live (match holderOf live addr with
            | none => known
            | some q => noteWrite known q.1 (addr - q.1) byte)
          rw [hfind]
          exact h.write hq hin.1 hin.2 byte
  | mallocFlags size flags =>
      obtain ⟨n, s', hcall, h'⟩ := h.mallocFlags slabAlloc he hspan hv flags
      refine ⟨⟨⟨s', Heap.afterMalloc size n live⟩, knownAfter ⟨⟨s, live⟩, known⟩ n (.mallocFlags size flags)⟩, ?_, h'⟩
      simp [observedStep, hcall]
  | callocFlags num size flags =>
      obtain ⟨n, s', hcall, h'⟩ := h.calloc slabAlloc he hspan hv
      refine ⟨⟨⟨s', Heap.afterMalloc (num * size) n live⟩, Function.update known n fun _ => some 0⟩, ?_, h'⟩
      simp [observedStep, kcallocFlags, knownAfter, hcall]

end contents

/-- In every state that a run of the heap without slab caches reaches, every allocation holds what its client knows of
it: the zeros of a cleared allocation, the bytes that the client wrote, and those that `krealloc` moved. -/
theorem clients_read_back {A : Type} (slabAlloc : ℕ → Machine A → ℕ × Machine A)
    (slabFree : ℕ → ℕ → Machine A → Machine A) (slabCacheCreate : ℕ → ℕ → Machine A → ℕ × Machine A)
    (s : Machine A) (start size : ℕ) (h0 : 0 < start) (hend : start + size ≤ 2 ^ 64) (hsize : 48 ≤ size)
    (hlt : size < 2 ^ 32) (ops : List FlagsOp)
    (hg : Guarded (observedStep slabAlloc slabFree) (fun c op => op.Valid c.toRun)
      ⟨boot slabCacheCreate s false start size, fun _ _ => none⟩ ops) :
    ∃ c, exec (observedStep slabAlloc slabFree) ⟨boot slabCacheCreate s false start size, fun _ _ => none⟩ ops =
        some c ∧
      ∀ q ∈ c.live, ∀ i < q.2, ∀ b, c.known q.1 i = some b → c.state.mem (q.1 + i) = b := by
  have hspan : start + size < start + 2 ^ 32 := by omega
  obtain ⟨K, hboot⟩ := inv_boot (P := Objects.none A) (s := s) ⟨fun _ => rfl, rfl⟩ h0 hsize hend
    (fun x _ _ => Set.mem_univ x) (show false = true → (Objects.none A).Creates slabCacheCreate from nofun)
  obtain ⟨c, hexec, h⟩ := exec_total
    (I := fun c => Contents start (start + size) K _ c.state c.live c.known)
    (fun c op h hv => h.step hend hspan hv)
    ⟨⟨_, hboot⟩, fun q hq => absurd hq List.not_mem_nil, agrees_nil⟩ hg
  exact ⟨c, hexec, h.agrees⟩

/-- On the heap of `kernel_main` a cleared allocation is written, a neighbour of it is released, and it is moved. -/
theorem clients_read_back_kernel :
    ∃ c, exec (observedStep (fun _ s => (0, s)) fun _ _ s => s)
        ⟨boot (fun _ _ s => (0, s)) ⟨fun _ => 0x5a, ()⟩ false 0x80000000 0x1000000, fun _ _ => none⟩
        [.mallocFlags 100 gfpZero, .plain (.malloc 50), .plain (.write 0x8000002e 7), .plain (.malloc 20),
          .plain (.free 0x800000bc), .plain (.realloc 0x8000002c 200)] = some c ∧
      ∀ q ∈ c.live, ∀ i < q.2, ∀ b, c.known q.1 i = some b → c.state.mem (q.1 + i) = b :=
  clients_read_back _ _ _ _ _ _ (by norm_num) (by norm_num) (by norm_num) (by norm_num) _
    (guarded_of_guardedBy (t := fun (c : Observed Unit) op => decide (op.Valid c.toRun))
      (fun _ _ h => of_decide_eq_true h) (by decide +kernel))

end PrometheusKernel.Heap
