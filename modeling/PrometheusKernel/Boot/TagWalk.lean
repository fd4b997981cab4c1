import PrometheusKernel.Boot.Model

/-!
# The walk over the Multiboot2 tags

An information block is a fixed part of 8 bytes (`total_size`, and a reserved 0) and the tags behind it
(`InfoBlock`). `kernel_main` takes the fixed part for the first tag. Its type is `total_size`, which is not 0,
and its size is the reserved 0, so that the walk stays where it is: on no information block does the loop end
(`walk_never_correct`).

The loop itself is right: from the first tag on it ends with the memory-map tag (`tagLoop_of_tags`).
`pmm_init`, however, goes over the entries in steps of 24 bytes and not of `entry_size`, and reads exactly the
entries of the tag only where the two agree or there is none (`processed_eq_entries_iff`). Where they agree a walk from
the first tag has `pmm_init` scan what the tag says (`scan_from_first_tag`).
-/

namespace PrometheusKernel.Boot

open ByteMem Pmm

variable {m : Mem} {info a e t p n size endp fuel : ℕ} {ts : List ℕ} {acc : MemoryMap}

/-! ### Information blocks -/

/-- Tags one behind the other from `a` on, each padded to a multiple of 8, and the tag of type 0 that ends at
`e`. -/
def Tags (m : Mem) : ℕ → List ℕ → ℕ → Prop
  | a, [], e => tagType m a = 0 ∧ tagSize m a = 8 ∧ e = a + 8
  | a, t :: ts, e =>
      t = a ∧ tagType m t ≠ 0 ∧ 8 ≤ tagSize m t ∧ Tags m (t + (tagSize m t + 7) / 8 * 8) ts e

/-- A memory-map tag: a header of 16 bytes, and entries of `entry_size` bytes. -/
structure MmapTag (m : Mem) (t : ℕ) : Prop where
  type : tagType m t = 6
  entrySize : 24 ≤ tagEntrySize m t ∧ tagEntrySize m t % 8 = 0
  size : ∃ n, tagSize m t = mmapTagSize + n * tagEntrySize m t

/-- The information block at `info` with the tags `ts`. -/
structure InfoBlock (m : Mem) (info : ℕ) (ts : List ℕ) : Prop where
  aligned : info % 8 = 0
  /-- `total_size`, and the tags behind the fixed part. -/
  tags : Tags m (info + 8) ts (info + load 4 m info)
  reserved : load 4 m (info + 4) = 0
  /-- The address is passed in `ebx`. -/
  below : info + load 4 m info ≤ 2 ^ 32
  mmap : ∀ t ∈ ts, tagType m t = 6 → MmapTag m t

/-- The entries of a memory-map tag. -/
def entries (m : Mem) (t : ℕ) : List ℕ :=
  (List.range ((tagSize m t - mmapTagSize) / tagEntrySize m t)).map fun i => t + mmapTagSize + i * tagEntrySize m t

/-! ### What `pmm_init` reads -/

/-- The entries that the scan loop of `pmm_init` reads. -/
def visited (endp : ℕ) : ℕ → ℕ → List ℕ
  | 0, _ => []
  | fuel + 1, p => if p < endp then p :: visited endp fuel (Word.add 64 p entrySize) else []

/-- The entries that `kernel_main` has `pmm_init` read. -/
def processed (acc : MemoryMap) : List ℕ :=
  if acc.mm ≠ 0 ∧ acc.mmSize ≠ 0 then visited (Word.add 64 acc.mm acc.mmSize) acc.mmSize acc.mm else []

/-- The scan loop is a fold over the entries that it reads. -/
theorem scanLoop_eq_foldl (m : Mem) (endp fuel p : ℕ) (acc : Scan) : scanLoop m endp fuel p acc
    = (visited endp fuel p).foldl (fun acc p => scanEntry acc (entryAt m p)) acc := by
  induction fuel generalizing p acc with
  | zero => rfl
  | succ fuel ih =>
      unfold scanLoop visited
      by_cases hp : p < endp
      · rw [if_pos hp, if_pos hp, List.foldl_cons]
        exact ih _ _
      · rw [if_neg hp, if_neg hp]
        rfl

/-- The scan loop goes over the map in steps of 24 bytes. -/
theorem visited_eq (hn : p + 24 * n < 2 ^ 64) (hend : endp ≤ p + 24 * n) (hlast : p + 24 * n < endp + 24)
    (hfuel : n ≤ fuel) : visited endp fuel p = (List.range n).map fun i => p + 24 * i := by
  induction n generalizing p fuel with
  | zero =>
      have hp : ¬ p < endp := by omega
      cases fuel with
      | zero => rfl
      | succ fuel => exact if_neg hp
  | succ n ih =>
      obtain ⟨k, rfl⟩ : ∃ k, fuel = k + 1 := ⟨fuel - 1, by omega⟩
      have hnext : Word.add 64 p entrySize = p + 24 := Word.add_eq (by unfold entrySize; omega)
      have hrest := ih (p := p + 24) (by omega) (by omega) (by omega) (show n ≤ k by omega)
      unfold visited
      rw [if_pos (by omega), hnext, hrest, List.range_succ_eq_map, List.map_cons, List.map_map]
      congr 1
      apply List.map_congr_left
      intro i _
      show p + 24 + 24 * i = p + 24 * (i + 1)
      ring

/-! ### The loop -/

/-- A tag of size 0 that does not end the walk is walked over for ever. -/
theorem tagLoop_of_size_zero (htype : tagType m t ≠ 0) (hsize : tagSize m t = 0) (ht : t < 2 ^ 64) (fuel : ℕ)
    (acc : MemoryMap) : tagLoop m fuel t acc = none := by
  have hnext : nextTag m t = t := by
    have hmask : Word.add 32 (tagSize m t) 7 &&& (2 ^ 32 - 1 - 7) = 0 := by
      rw [hsize]
      decide
    unfold nextTag
    rw [hmask]
    exact Word.add_eq ht
  induction fuel generalizing acc with
  | zero => rfl
  | succ fuel ih =>
      unfold tagLoop
      rw [if_neg htype, hnext]
      exact ih _

/-- The end of the tags lies behind their start. -/
theorem Tags.lt (h : Tags m a ts e) : a + 8 ≤ e := by
  induction ts generalizing a with
  | nil => exact h.2.2.ge
  | cons t ts ih =>
      obtain ⟨rfl, -, hsize, hrest⟩ := h
      have := ih hrest
      omega

/-- From a tag on the loop ends, and notes the memory-map tags. -/
theorem tagLoop_of_tags (h : Tags m a ts e) (he : e ≤ 2 ^ 32) (hfuel : ts.length < fuel) :
    tagLoop m fuel a acc = some (ts.foldl (fun acc t => visitTag m t acc) acc) := by
  induction ts generalizing a acc fuel with
  | nil =>
      obtain ⟨k, rfl⟩ : ∃ k, fuel = k + 1 := ⟨fuel - 1, by omega⟩
      unfold tagLoop
      exact if_pos h.1
  | cons t ts ih =>
      obtain ⟨rfl, htype, hsize, hrest⟩ := h
      have hlt := hrest.lt
      rw [List.length_cons] at hfuel
      obtain ⟨k, rfl⟩ : ∃ k, fuel = k + 1 := ⟨fuel - 1, by omega⟩
      have hnext : nextTag m t = t + (tagSize m t + 7) / 8 * 8 := by
        have hadd : Word.add 32 (tagSize m t) 7 = tagSize m t + 7 := Word.add_eq (by omega)
        have hmask : tagSize m t + 7 &&& (2 ^ 32 - 1 - 7) = (tagSize m t + 7) % 2 ^ 32 / 8 * 8 :=
          Word.and_high_mask (show 3 ≤ 32 by norm_num) _
        unfold nextTag
        rw [hadd, hmask, Nat.mod_eq_of_lt (by omega), Word.add_eq (by omega)]
      unfold tagLoop
      rw [if_neg htype, hnext, List.foldl_cons]
      exact ih hrest (by omega)

/-- `pmm_init` reads exactly the entries of a memory-map tag if `entry_size` is 24 or there are none. -/
theorem processed_eq_entries_iff {t : ℕ} (ht : MmapTag m t) (hbelow : t + tagSize m t < 2 ^ 32) (acc : MemoryMap) :
    processed (visitTag m t acc) = entries m t ↔ tagEntrySize m t = 24 ∨ tagSize m t = mmapTagSize := by
  obtain ⟨n, hsize⟩ := ht.size
  obtain ⟨h24, -⟩ := ht.entrySize
  unfold mmapTagSize at hsize
  set z := tagEntrySize m t with hz
  have hvisit : visitTag m t acc = ⟨t + 16, n * z⟩ := by
    unfold visitTag mmapTagSize
    rw [if_pos ht.type, hsize, Word.add_eq (by omega), Word.sub_eq (by omega) (by omega), Nat.add_sub_cancel_left]
  have hentries : entries m t = (List.range n).map fun i => t + 16 + i * z := by
    unfold entries mmapTagSize
    rw [← hz, hsize, Nat.add_sub_cancel_left, Nat.mul_div_cancel n (by omega)]
  have hcount : tagSize m t = mmapTagSize ↔ n = 0 := by
    unfold mmapTagSize
    rw [hsize]
    constructor
    · intro h
      have hzero : n * z = 0 := by omega
      exact (Nat.mul_eq_zero.mp hzero).resolve_right (by omega)
    · rintro rfl
      rw [Nat.zero_mul]
  rw [hvisit, hentries, hcount]
  by_cases hn : n = 0
  · subst hn
    refine iff_of_true ?_ (Or.inr rfl)
    unfold processed
    rw [if_neg (by simp)]
    rfl
  have hpos : 0 < n * z := Nat.mul_pos (Nat.pos_of_ne_zero hn) (by omega)
  -- the number of steps of 24 bytes
  set k := (n * z + 23) / 24 with hk
  have hprocessed : processed ⟨t + 16, n * z⟩ = (List.range k).map fun i => t + 16 + 24 * i := by
    unfold processed
    rw [if_pos ⟨by dsimp only; omega, by dsimp only; omega⟩]
    dsimp only
    rw [Word.add_eq (by omega)]
    exact visited_eq (by omega) (by omega) (by omega) (by omega)
  rw [hprocessed]
  constructor
  · intro heq
    have hlen := congrArg List.length heq
    rw [List.length_map, List.length_map, List.length_range, List.length_range] at hlen
    left
    by_contra hne
    have hmul : n * 25 ≤ n * z := Nat.mul_le_mul_left n (by omega)
    omega
  · rintro (h | h)
    · have hkn : k = n := by
        rw [hk, h]
        omega
      rw [hkn, h]
      apply List.map_congr_left
      intro i _
      ring
    · exact absurd h hn

/-- A tag ends where the next one starts at the latest. -/
theorem Tags.end_le (h : Tags m a ts e) (ht : t ∈ ts) : t + tagSize m t + 8 ≤ e := by
  induction ts generalizing a with
  | nil => exact absurd ht List.not_mem_nil
  | cons t' ts ih =>
      obtain ⟨rfl, -, hsize, hrest⟩ := h
      rcases List.mem_cons.mp ht with rfl | hin
      · have := hrest.lt
        omega
      · exact ih hrest hin

/-- The only memory-map tag is what the walk notes, if it has not noted it yet. -/
theorem foldl_visitTag (htype : tagType m t = 6) (honly : ∀ t' ∈ ts, tagType m t' = 6 → t' = t)
    (hacc : acc = visitTag m t ⟨0, 0⟩ ∨ t ∈ ts) :
    ts.foldl (fun acc t => visitTag m t acc) acc = visitTag m t ⟨0, 0⟩ := by
  induction ts generalizing acc with
  | nil => exact hacc.resolve_right List.not_mem_nil
  | cons t' ts ih =>
      rw [List.foldl_cons]
      refine ih (fun x hx => honly x (List.mem_cons_of_mem _ hx)) ?_
      by_cases htype' : tagType m t' = 6
      · obtain rfl := honly t' List.mem_cons_self htype'
        left
        unfold visitTag
        rw [if_pos htype, if_pos htype]
      · -- any other tag changes nothing
        have hskip : visitTag m t' acc = acc := if_neg htype'
        rw [hskip]
        refine hacc.imp_right fun hmem => (List.mem_cons.mp hmem).resolve_left ?_
        rintro rfl
        exact htype' htype

/-- From the first tag on the walk would be right: `pmm_init` goes over exactly the entries of the memory-map tag, if
they have 24 bytes. -/
theorem scan_from_first_tag (h : InfoBlock m info ts) (ht : t ∈ ts) (htype : tagType m t = 6)
    (honly : ∀ t' ∈ ts, tagType m t' = 6 → t' = t) (hentry : tagEntrySize m t = 24) :
    ∃ acc, tagLoop m (ts.length + 1) (info + 8) ⟨0, 0⟩ = some acc ∧
      ∀ scan, scanLoop m (Word.add 64 acc.mm acc.mmSize) acc.mmSize acc.mm scan
        = (entries m t).foldl (fun scan p => scanEntry scan (entryAt m p)) scan := by
  have hend := h.tags.end_le ht
  have hbelow := h.below
  have hprocessed := (processed_eq_entries_iff (h.mmap t ht htype) (by omega) ⟨0, 0⟩).mpr (Or.inl hentry)
  refine ⟨visitTag m t ⟨0, 0⟩, ?_, fun scan => ?_⟩
  · rw [tagLoop_of_tags h.tags hbelow (Nat.lt_succ_self _), foldl_visitTag htype honly (Or.inr ht)]
  · have hmm : (visitTag m t ⟨0, 0⟩).mm ≠ 0 := by
      unfold visitTag mmapTagSize
      rw [if_pos htype, Word.add_eq (by omega)]
      exact Nat.succ_ne_zero _
    rw [scanLoop_eq_foldl, ← hprocessed]
    unfold processed
    by_cases hsize : (visitTag m t ⟨0, 0⟩).mmSize = 0
    · rw [if_neg fun hc => hc.2 hsize, hsize]
      rfl
    · rw [if_pos ⟨hmm, hsize⟩]

/-! ### The walk of `kernel_main` -/

/-- The block at `info` is passed on by `_start`, the tag loop ends, and `pmm_init` reads exactly the entries of
the memory-map tag, if there is one. -/
def WalkCorrect (s : Pmm.State) (info : ℕ) (ts : List ℕ) : Prop :=
  ∃ args, start multiboot2Magic info = some args ∧
    ∃ fuel s', kernelMain s fuel args.1 args.2 = some s' ∧
      ∀ acc, tagLoop s.mem fuel args.2 ⟨0, 0⟩ = some acc → ∀ t ∈ ts, tagType s.mem t = 6 →
        (∀ t' ∈ ts, tagType s.mem t' = 6 → t' = t) → processed acc = entries s.mem t

/-- `kernel_main` hangs on what reads as a tag of size 0. -/
theorem kernelMain_hangs {s : Pmm.State} (htype : tagType s.mem info ≠ 0) (hsize : tagSize s.mem info = 0)
    (hinfo : info < 2 ^ 64) : ¬ WalkCorrect s info ts := by
  rintro ⟨args, hargs, fuel, s', hmain, -⟩
  obtain rfl : (multiboot2Magic, info) = args := Option.some.inj hargs
  unfold kernelMain at hmain
  rw [if_pos rfl, tagLoop_of_size_zero htype hsize hinfo] at hmain
  exact absurd hmain nofun

/-- On every information block the walk of `kernel_main` goes wrong: its loop does not end. -/
theorem walk_never_correct {s : Pmm.State} (h : InfoBlock s.mem info ts) : ¬ WalkCorrect s info ts := by
  have htotal := h.tags.lt
  have hbelow := h.below
  apply kernelMain_hangs
  · -- the type of the fixed part is `total_size`
    show load 4 s.mem info ≠ 0
    omega
  · exact h.reserved
  · omega

/-- An information block at `0x10000` with a memory-map tag of one entry. -/
def sampleBlock : Mem :=
  store 4 (store 4 (store 4 (store 4 (store 4 (store 4 (store 8 (store 8 (fun _ => 0) 0x10018 0x100000) 0x10020
    0x7f00000) 0x10000 56) 0x10008 6) 0x1000c 40) 0x10010 24) 0x10028 1) 0x10034 8

/-- It is an information block. -/
theorem sampleBlock_infoBlock : InfoBlock sampleBlock 0x10000 [0x10008] := by
  have htags : load 4 sampleBlock 0x10000 = 56 ∧ tagType sampleBlock 0x10008 = 6 ∧
      tagSize sampleBlock 0x10008 = 40 ∧ tagEntrySize sampleBlock 0x10008 = 24 ∧
      tagType sampleBlock 0x10030 = 0 ∧ tagSize sampleBlock 0x10030 = 8 := by
    decide +kernel
  obtain ⟨htotal, htype, hsize, hentry, hend, hendsize⟩ := htags
  have hnext : 0x10008 + (tagSize sampleBlock 0x10008 + 7) / 8 * 8 = 0x10030 := by rw [hsize]
  refine ⟨by norm_num, ⟨rfl, by rw [htype]; norm_num, by rw [hsize]; norm_num, ?_⟩, by decide +kernel, ?_, ?_⟩
  · rw [hnext, htotal]
    exact ⟨hend, hendsize, rfl⟩
  · rw [htotal]
    norm_num
  · intro t ht _
    obtain rfl := List.mem_singleton.mp ht
    exact ⟨htype, by rw [hentry]; norm_num, 1, by rw [hsize, hentry]; rfl⟩

/-- The walk over it goes wrong. -/
theorem walk_never_correct_sample : ¬ WalkCorrect (Pmm.initial sampleBlock) 0x10000 [0x10008] :=
  walk_never_correct (s := Pmm.initial sampleBlock) sampleBlock_infoBlock

/-- The block that `kernel_main` cannot walk over. -/
theorem walk_hangs : ¬ ∀ (s : Pmm.State) (info : ℕ) (ts : List ℕ), InfoBlock s.mem info ts →
    WalkCorrect s info ts := by
  intro h
  refine kernelMain_hangs ?_ ?_ (by norm_num) (h (Pmm.initial sampleBlock) 0x10000 [0x10008] sampleBlock_infoBlock)
  · show tagType sampleBlock 0x10000 ≠ 0
    decide +kernel
  · show tagSize sampleBlock 0x10000 = 0
    decide +kernel

end PrometheusKernel.Boot
