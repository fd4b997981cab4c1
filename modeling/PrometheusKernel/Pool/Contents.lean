import PrometheusKernel.Pool.Conservation
import PrometheusKernel.Lib.PrivateBytes

/-!
# Pool objects keep what is in them

A growth writes into the new region (`poolGrow_frame`), `pool_free` writes into the object that comes back, and
`pool_alloc` writes nothing else: an object that a client holds contains what the client has written into it, in every
run in which growing adds objects (`pool_objects_read_back`).
-/

namespace PrometheusKernel.Pool

open ByteMem LinkedList Buddy PrivateBytes Interleaving

variable {A : Type} {P : Holding A} {B : Set (ℕ × ℕ)} {s s' : State A} {g : Ghost} {o x : ℕ}

/-! ### What the functions write -/

/-- The links of new objects are written into them. -/
theorem threadChunks_frame {start size n i head : ℕ} {m : Mem} (hsize : 8 ≤ size)
    (hx : x < start + i * size ∨ start + (i + n) * size ≤ x) : (threadChunks start size n i head m).2 x = m x := by
  induction n generalizing i head m with
  | zero => rfl
  | succ n ih =>
      have hstep : (i + 1) * size = i * size + size := Nat.succ_mul i size
      have hidx : i + (n + 1) = i + 1 + n := by omega
      have hlast : (i + 1) * size ≤ (i + 1 + n) * size := Nat.mul_le_mul_right size (by omega)
      rw [hidx] at hx
      show (threadChunks start size n (i + 1) (start + i * size) (setChunkNext m (start + i * size) head)).2 x = m x
      rw [ih (by omega)]
      exact store_apply_of_lt_or_le (by omega)

/-- A new region is written inside its block. -/
theorem fillRegion_frame {region k n : ℕ} (hsize : 8 ≤ s.pool.objectSize)
    (hroom : regionHeaderSize + n * s.pool.objectSize ≤ 2 ^ k * pageSize)
    (hx : x < region ∨ region + 2 ^ k * pageSize ≤ x) : (fillRegion s region n).mem x = s.mem x := by
  unfold regionHeaderSize at hroom
  unfold fillRegion setRegionNext setRegionBase regionHeaderSize
  dsimp only
  rw [threadChunks_frame hsize (by rw [Nat.zero_add, Nat.zero_mul]; omega), store_apply_of_lt_or_le (by omega),
    store_apply_of_lt_or_le (by omega)]

/-- `pool_grow` leaves the blocks alone that were held before. -/
theorem poolGrow_frame (h : Rep P B s g) {alloc : ℕ → Machine A → ℕ × Machine A} (hR : P.Allocator alloc) {count : ℕ}
    {r : ℤ} (hcall : poolGrow alloc s count = some (r, s')) (hx : ∃ b ∈ blocks B s.page g.regions, InBlock b x) :
    s'.mem x = s.mem x := by
  obtain ⟨b, hb, hin⟩ := hx
  have hwide := h.wide
  unfold minObjectSize at hwide
  obtain ⟨k, hk⟩ : ∃ k, orderFor count s.pool.objectSize = k := ⟨_, rfl⟩
  have hle : k ≤ maxOrder := hk ▸ orderFor_le count s.pool.objectSize
  obtain ⟨n, hn⟩ : ∃ n, objectsInRegion k s.pool.objectSize = n := ⟨_, rfl⟩
  have hroom := objectsInRegion_mul_le hle s.pool.objectSize
  have hsame := hR.mem h.holds k b hb x hin
  have hfresh := hR.fresh h.holds k
  have hholds := hR.holds h.holds k
  obtain ⟨region, M, hres⟩ : ∃ region M, alloc k s.toMachine = (region, M) := ⟨_, _, rfl⟩
  unfold poolGrow at hcall
  dsimp only at hcall
  rw [hk, hn, hres] at hcall
  rw [hn] at hroom
  rw [hres] at hsame hfresh hholds
  split_ifs at hcall with hcount hnull
  · obtain ⟨-, rfl⟩ := Prod.mk.inj (Option.some.inj hcall)
    rfl
  · obtain ⟨-, rfl⟩ := Prod.mk.inj (Option.some.inj hcall)
    exact hsame
  · have hapart : blockEnd b ≤ region ∨ region + 2 ^ k * pageSize ≤ b.1 :=
      P.apart (hholds hnull) b (Or.inr hb) (region, k) (Or.inl rfl) fun heq => hfresh hnull (heq ▸ hb)
    obtain ⟨h1, h2⟩ := hin
    have hframe := @fillRegion_frame A { s with toMachine := M } x region k n hwide hroom
      (hapart.imp (fun hbefore => lt_of_lt_of_le h2 hbefore) fun hafter => hafter.trans h1)
    rw [← (Prod.mk.inj (Option.some.inj hcall)).2, hframe]
    exact hsame

/-- The byte `x` is in an object that a client holds. -/
def Ghost.Holds (g : Ghost) (size x : ℕ) : Prop := ∃ o ∈ g.live, o ≤ x ∧ x < o + size

/-- `pool_alloc` writes into no object that is held. -/
theorem Rep.alloc_frame (h : Rep P B s g) {alloc : ℕ → Machine A → ℕ × Machine A} (hR : P.Allocator alloc)
    (hcall : poolAlloc alloc s = some (o, s')) (hx : g.Holds s.pool.objectSize x) : s'.mem x = s.mem x := by
  have hpop : ∀ t : State A, (popChunk t).2.mem = t.mem := fun t => congrArg Machine.mem (t.setFree_toMachine _ _)
  have hblock : ∃ b ∈ blocks B s.page g.regions, InBlock b x := by
    obtain ⟨q, hq, h1, h2⟩ := hx
    exact h.inBlock_object (h.live_object hq) h1 h2
  unfold poolAlloc at hcall
  by_cases h0 : s.pool.freeList = 0
  · rw [if_pos h0] at hcall
    cases hgrow : poolGrow alloc s s.pool.growCount with
    | none =>
        rw [hgrow] at hcall
        exact absurd hcall.symm (Option.some_ne_none _)
    | some res =>
        obtain ⟨r, s₁⟩ := res
        have hsame := poolGrow_frame h hR hgrow hblock
        rw [hgrow] at hcall
        dsimp only at hcall
        split_ifs at hcall
        · obtain ⟨-, rfl⟩ := Prod.mk.inj (Option.some.inj hcall)
          exact hsame
        · rw [← hpop s₁, Option.some.inj hcall] at hsame
          exact hsame
  · rw [if_neg h0] at hcall
    have hsame := hpop s
    rw [Option.some.inj hcall] at hsame
    exact congrFun hsame x

/-- `pool_free` writes into no object that is held, but the one it takes back. -/
theorem Rep.free_frame (h : Rep P B s g) (ho : o ∈ g.live) {q : ℕ} (hq : q ∈ g.live) (hne : q ≠ o) (h1 : q ≤ x)
    (h2 : x < q + s.pool.objectSize) : (poolFree s o).mem x = s.mem x := by
  have hwide := h.wide
  unfold minObjectSize at hwide
  have hapart := h.objects_apart (h.live_object hq) (h.live_object ho) hne
  unfold poolFree
  split_ifs
  · rfl
  · dsimp only
    rw [State.setFree_toMachine]
    exact store_apply_of_lt_or_le (by omega)

/-! ### Runs with the bytes of the objects -/

/-- A run that carries along what the clients know. -/
structure Observed (A : Type) extends Run A where
  /-- The bytes of the objects, by address and offset. -/
  known : Known

/-- What the clients know after the operation: nothing of a new object. -/
def knownAfter (allocPages : ℕ → Machine A → ℕ × Machine A) (c : Observed A) : Op → Known
  | .alloc =>
      match poolAlloc allocPages c.state with
      | none => c.known
      | some (o, _) => Function.update c.known o fun _ => none
  | .free _ => c.known
  | .write x byte => noteByte c.state.pool.objectSize c.live c.known x byte

/-- One operation. -/
def observedStep (allocPages : ℕ → Machine A → ℕ × Machine A) (c : Observed A) (op : Op) : Option (Observed A) :=
  (step allocPages c.toRun op).map fun c' => ⟨c', knownAfter allocPages c op⟩

/-- The invariant, with objects of `size` bytes, and memory holds what the clients know. -/
def Reads (P : Holding A) (B : Set (ℕ × ℕ)) (size : ℕ) (c : Observed A) : Prop :=
  c.state.pool.objectSize = size ∧ (∃ g, Inv P B c.toRun g) ∧ Agrees c.state.mem (ranges size c.live) c.known

variable {allocPages : ℕ → Machine A → ℕ × Machine A} {size : ℕ} {c c' : Observed A}

/-- No object is live twice. -/
theorem Inv.nodup_live {c : Run A} (h : Inv P B c g) : c.live.Nodup := by
  rw [← h.live]
  exact (List.nodup_append.mp h.rep.nodup_places).1

/-- Null is not live. -/
theorem Inv.zero_notMem {c : Run A} (h : Inv P B c g) : 0 ∉ c.live := by
  rw [← h.live]
  exact fun hmem => h.rep.object_ne_zero (h.rep.live_object hmem) rfl

/-- `pool_alloc` leaves the bytes of the live objects alone. -/
theorem Reads.alloc (h : Reads P B size c) (hR : P.Allocator allocPages)
    (hadds : AddsObjects allocPages c.toRun .alloc) :
    ∃ c', observedStep allocPages c .alloc = some c' ∧ Reads P B size c' := by
  obtain ⟨rfl, ⟨g, hinv⟩, hagrees⟩ := h
  obtain ⟨c₁, g', hc₁, hinv', hsame, -⟩ := hinv.alloc hR hadds
  obtain ⟨⟨o, s'⟩, hcall, hrun⟩ := Option.map_eq_some_iff.mp hc₁
  refine ⟨⟨c₁, knownAfter allocPages c .alloc⟩, by simp [observedStep, hc₁], hsame.objectSize, ⟨g', hinv'⟩, ?_⟩
  have hknown : knownAfter allocPages c .alloc = Function.update c.known o fun _ => none := by
    unfold knownAfter
    dsimp only
    rw [hcall]
  have hkeep : Agrees s'.mem (ranges c.state.pool.objectSize c.live) c.known := hagrees.keep fun q hq => by
    obtain ⟨ho, hsize⟩ := mem_ranges.mp hq
    rw [← hinv.live] at ho
    exact ⟨hq, fun i hi => hinv.rep.alloc_frame hR hcall ⟨q.1, ho, Nat.le_add_right _ _, by omega⟩⟩
  have hnodup := hinv'.nodup_live
  subst hrun
  show Agrees s'.mem (ranges c.state.pool.objectSize (if o = 0 then c.live else o :: c.live))
    (knownAfter allocPages c .alloc)
  rw [hknown]
  by_cases ho : o = 0
  · rw [if_pos ho]
    exact hkeep.forget (notMem_ranges (ho ▸ hinv.zero_notMem))
  · dsimp only at hnodup
    rw [if_neg ho] at hnodup ⊢
    exact hkeep.cons (notMem_ranges (List.nodup_cons.mp hnodup).1)
      fun _ _ b hb => absurd hb.symm (Option.some_ne_none b)

/-- `pool_free` leaves the bytes of the other live objects alone. -/
theorem Reads.free (h : Reads P B size c) {object : ℕ} (hobject : object = 0 ∨ object ∈ c.live) :
    Reads P B size ⟨⟨poolFree c.state object, c.live.erase object⟩, c.known⟩ := by
  obtain ⟨rfl, ⟨g, hinv⟩, hagrees⟩ := h
  by_cases h0 : object = 0
  · have hcall : poolFree c.state object = c.state := by
      unfold poolFree
      rw [if_pos h0]
    rw [hcall, List.erase_of_not_mem (h0 ▸ hinv.zero_notMem)]
    exact ⟨rfl, ⟨g, hinv⟩, hagrees⟩
  · have hlive := hobject.resolve_left h0
    have ho : object ∈ g.live := hinv.live ▸ hlive
    obtain ⟨hsame, hrep⟩ := hinv.rep.push ho
    refine ⟨hsame.objectSize, ⟨_, hrep, congrArg (List.erase · object) hinv.live⟩, hagrees.keep fun q hq => ?_⟩
    obtain ⟨hq1, hsize⟩ := mem_ranges.mp hq
    obtain ⟨hne, hq2⟩ := hinv.nodup_live.mem_erase_iff.mp hq1
    refine ⟨mem_ranges.mpr ⟨hq2, hsize⟩, fun i hi => ?_⟩
    rw [← hinv.live] at hq2
    exact hinv.rep.free_frame ho hq2 hne (Nat.le_add_right _ _) (by omega)

/-- A write is read back. -/
theorem Reads.write (h : Reads P B size c) {addr : ℕ} (byte : UInt8)
    (hx : ∃ o ∈ c.live, o ≤ addr ∧ addr < o + c.state.pool.objectSize) :
    Reads P B size ⟨⟨{ c.state with mem := Function.update c.state.mem addr byte }, c.live⟩,
      noteByte c.state.pool.objectSize c.live c.known addr byte⟩ := by
  obtain ⟨rfl, ⟨g, hinv⟩, hagrees⟩ := h
  obtain ⟨o, ho, h1, h2⟩ := id hx
  refine ⟨rfl, ⟨g, hinv.rep.write (hinv.live ▸ ho) h1 h2 byte, hinv.live⟩,
    hagrees.writeByte hx (fun o ho q hq hne => ?_) byte⟩
  rw [← hinv.live] at ho hq
  exact hinv.rep.objects_apart (hinv.rep.live_object hq) (hinv.rep.live_object ho) hne

/-- In every run on a pool, whatever the page allocators do: as long as growing adds objects every call returns, and
every object that is held contains what its client has written into it. -/
theorem pool_objects_read_back (P : Holding A) {allocReclaimable allocUnmovable : ℕ → Machine A → ℕ × Machine A}
    (hR : P.Allocator allocReclaimable) (hU : P.Allocator allocUnmovable) (freePages : ℕ → ℕ → Machine A → Machine A)
    {M : Machine A} {B : Set (ℕ × ℕ)} (hM : P.Holds M B) {name size count : ℕ} (hsize : size < 2 ^ 64) {s : State A}
    (hcreate : poolCreate allocReclaimable allocUnmovable freePages M name size count = some (.ok s)) (ops : List Op)
    (hg : Guarded (observedStep allocReclaimable)
      (fun c op => Valid c.toRun op ∧ AddsObjects allocReclaimable c.toRun op) ⟨opened s, fun _ _ => none⟩ ops) :
    ∃ c, Interleaving.exec (observedStep allocReclaimable) ⟨opened s, fun _ _ => none⟩ ops = some c ∧
      ∀ o ∈ c.live, ∀ i < size, ∀ b, c.known o i = some b → c.state.mem (o + i) = b := by
  obtain ⟨-, hwide⟩ := newPool_objectSize_cases hsize count
  rcases create_cases hR hU hM freePages name hsize count with
    ⟨M', hcall⟩ | ⟨hcall, -⟩ | ⟨s', b, hcall, hle, hb, hobj, hgrow, hrep⟩
  · rw [hcall] at hcreate
    exact absurd hcreate (by simp)
  · rw [hcall] at hcreate
    exact absurd hcreate.symm (Option.some_ne_none _)
  · obtain rfl : s' = s := by
      rw [hcall, Option.some.injEq, Except.ok.injEq] at hcreate
      exact hcreate
    have hstep : ∀ (c : Observed A) op, Reads P B s'.pool.objectSize c →
        (Valid c.toRun op ∧ AddsObjects allocReclaimable c.toRun op) →
        ∃ c', observedStep allocReclaimable c op = some c' ∧ Reads P B s'.pool.objectSize c' := by
      rintro c op h ⟨hv, hadds⟩
      cases op with
      | alloc => exact h.alloc hR hadds
      | free object => exact ⟨_, rfl, h.free hv⟩
      | write addr byte => exact ⟨_, rfl, h.write byte hv⟩
    obtain ⟨c, hexec, -, -, hagrees⟩ := exec_total hstep ⟨rfl, ⟨_, hrep, rfl⟩, agrees_nil⟩ hg
    refine ⟨c, hexec, fun o ho i hi b hb => hagrees.read ho ?_ hb⟩
    rw [hobj]
    exact lt_of_lt_of_le hi (hwide hle).2

/-- Two of three objects are taken, one is written, and two more are taken, the last from a second region. -/
theorem pool_objects_read_back_sample :
    ∃ c, Interleaving.exec (observedStep bumpAlloc) ⟨opened (bumpPool 1024 2 0 3), fun _ _ => none⟩
        [.alloc, .alloc, .write 0x2810 7, .alloc, .alloc, .free 0x2410] = some c ∧
      ∀ o ∈ c.live, ∀ i < 1024, ∀ b, c.known o i = some b → c.state.mem (o + i) = b :=
  pool_objects_read_back bump bumpAlloc_allocator bumpAlloc_allocator bumpFree
    (bump_start (m := emptyMachine) (by decide) (by decide)) (by norm_num) create_sample _
    (guarded_of_guardedBy (t := fun c op => properTest c.toRun op)
      (fun c op h => ⟨(proper_of_test c.toRun op h).1, (proper_of_test c.toRun op h).2.1⟩) (by decide +kernel))

end PrometheusKernel.Pool
