import PrometheusKernel.Pmm.Model
import PrometheusKernel.Buddy.Returned
import Mathlib.Algebra.Order.Ring.Star

/-!
# What the physical memory manager hands out

`pmm_init` gives the chosen map entry to `buddy_init` as it is: its start is not rounded up to a
page, its length is rounded up and not down, and the kernel image is not cut out. Both theorems say
for which maps this does no harm.

* `inside_usable_iff` — every block handed out is page-aligned and inside usable memory;
* `image_untouched_iff` — no write of `buddy_init` and no block handed out meets the kernel image.

They rest on `Buddy.returned_iff`, which turns "some run hands this block out" into arithmetic on
the region.
-/

namespace PrometheusKernel.Pmm

open ByteMem Buddy

/-! ### Memory maps -/

/-- A list of map entries whose ranges do not wrap. -/
structure MemoryMap where
  /-- The entries, in order. -/
  entries : List MmapEntry
  /-- Lengths are machine words. -/
  len_lt : ∀ e ∈ entries, e.len < 2 ^ 64
  /-- No range wraps. -/
  fits : ∀ e ∈ entries, e.addr + e.len ≤ 2 ^ 64

/-- The `n` entries in memory from `p` on. -/
def entriesAt (m : Mem) (p : ℕ) : ℕ → List MmapEntry
  | 0 => []
  | n + 1 => entryAt m p :: entriesAt m (p + entrySize) n

/-- The memory `m` holds the map at `p`, where `mmap_size` can describe it. -/
structure MemoryMap.At (map : MemoryMap) (m : Mem) (p : ℕ) : Prop where
  /-- The bytes are those of the entries. -/
  entries_eq : entriesAt m p map.entries.length = map.entries
  /-- The size fits `uint32_t`. -/
  size_lt : map.entries.length * entrySize < 2 ^ 32
  /-- The array does not wrap. -/
  end_lt : p + map.entries.length * entrySize < 2 ^ 64

/-- The scan as a fold over the entries. -/
def scan (es : List MmapEntry) : Scan := es.foldl scanEntry ⟨0, 0, 0⟩

/-- The scan loop is a fold over the entries of the map. -/
theorem scanLoop_eq (m : Mem) {p n fuel : ℕ} (hfuel : n ≤ fuel) (hend : p + n * entrySize < 2 ^ 64)
    (acc : Scan) :
    scanLoop m (p + n * entrySize) fuel p acc = (entriesAt m p n).foldl scanEntry acc := by
  induction n generalizing p fuel acc with
  | zero =>
      cases fuel with
      | zero => rfl
      | succ fuel =>
          rw [scanLoop, if_neg (by omega)]
          rfl
  | succ n ih =>
      obtain ⟨fuel, rfl⟩ : ∃ f, fuel = f + 1 := ⟨fuel - 1, by omega⟩
      have hmul : (n + 1) * entrySize = n * entrySize + entrySize := by ring
      have hpos : 0 < entrySize := by decide
      have hnext : p + (n + 1) * entrySize = p + entrySize + n * entrySize := by omega
      rw [scanLoop, if_pos (by omega), Word.add_eq (by omega), hnext, ih (by omega) (by omega)]
      rfl

/-- The scan starts with nothing and ends with a nonempty entry of type 1, if there is any. -/
theorem scan_spec (es : List MmapEntry) :
    ((scan es).memoryStart = 0 ∧ (scan es).memorySize = 0) ∨
      ∃ e ∈ es, e.type = 1 ∧ 0 < e.len ∧ (scan es).memoryStart = e.addr ∧
        (scan es).memorySize = e.len := by
  have hspec : ∀ (es : List MmapEntry) (acc : Scan),
      ((es.foldl scanEntry acc).memoryStart = acc.memoryStart ∧
          (es.foldl scanEntry acc).memorySize = acc.memorySize) ∨
        ∃ e ∈ es, e.type = 1 ∧ 0 < e.len ∧ (es.foldl scanEntry acc).memoryStart = e.addr ∧
          (es.foldl scanEntry acc).memorySize = e.len := by
    intro es
    induction es with
    | nil => exact fun acc => Or.inl ⟨rfl, rfl⟩
    | cons e es ih =>
        intro acc
        rw [List.foldl_cons]
        rcases ih (scanEntry acc e) with ⟨h1, h2⟩ | ⟨e', he', hrest⟩
        · by_cases hc : e.type = 1 ∧ e.len > acc.memorySize
          · refine Or.inr ⟨e, List.mem_cons_self, hc.1, Nat.zero_lt_of_lt hc.2, ?_, ?_⟩
            · rw [h1, scanEntry, if_pos hc]
            · rw [h2, scanEntry, if_pos hc]
          · refine Or.inl ⟨?_, ?_⟩
            · rw [h1, scanEntry, if_neg hc]
            · rw [h2, scanEntry, if_neg hc]
        · exact Or.inr ⟨e', List.mem_cons_of_mem _ he', hrest⟩
  exact hspec es ⟨0, 0, 0⟩

/-- The scan keeps the largest length of an entry of type 1. -/
theorem le_scan (es : List MmapEntry) :
    ∀ e ∈ es, e.type = 1 → e.len ≤ (scan es).memorySize := by
  have hspec : ∀ (es : List MmapEntry) (acc : Scan),
      acc.memorySize ≤ (es.foldl scanEntry acc).memorySize ∧
        ∀ e ∈ es, e.type = 1 → e.len ≤ (es.foldl scanEntry acc).memorySize := by
    intro es
    induction es with
    | nil => exact fun acc => ⟨le_rfl, fun e he => absurd he List.not_mem_nil⟩
    | cons e es ih =>
        intro acc
        obtain ⟨h1, h2⟩ := ih (scanEntry acc e)
        have hstep : acc.memorySize ≤ (scanEntry acc e).memorySize ∧
            (e.type = 1 → e.len ≤ (scanEntry acc e).memorySize) := by
          unfold scanEntry
          simp only
          split_ifs with hc
          · exact ⟨hc.2.le, fun _ => le_rfl⟩
          · exact ⟨le_rfl, fun ht => not_lt.mp fun hlt => hc ⟨ht, hlt⟩⟩
        rw [List.foldl_cons]
        refine ⟨hstep.1.trans h1, fun e' he' ht => ?_⟩
        rcases List.mem_cons.mp he' with rfl | he'
        · exact (hstep.2 ht).trans h1
        · exact h2 e' he' ht
  exact (hspec es ⟨0, 0, 0⟩).2

/-- The scan adds up the lengths of all entries. -/
theorem scan_total (es : List MmapEntry) : (scan es).total = (es.map MmapEntry.len).sum % 2 ^ 64 := by
  have hspec : ∀ (es : List MmapEntry) (acc : Scan), acc.total < 2 ^ 64 →
      (es.foldl scanEntry acc).total = (acc.total + (es.map MmapEntry.len).sum) % 2 ^ 64 := by
    intro es
    induction es with
    | nil => exact fun acc hacc => (Nat.mod_eq_of_lt hacc).symm
    | cons e es ih =>
        intro acc _
        have htotal : (scanEntry acc e).total = Word.add 64 acc.total e.len := by
          unfold scanEntry
          dsimp only
          split_ifs <;> rfl
        rw [List.foldl_cons, ih _ (htotal ▸ Nat.mod_lt _ (Nat.two_pow_pos 64)), htotal, List.map_cons, List.sum_cons]
        unfold Word.add
        omega
  rw [scan, hspec es ⟨0, 0, 0⟩ (Nat.two_pow_pos 64), Nat.zero_add]

/-- The region that `pmm_init` gives to `buddy_init`; empty if the map has no usable entry. -/
def MemoryMap.region (map : MemoryMap) : Region where
  start := (scan map.entries).memoryStart
  size := (scan map.entries).memorySize
  size_lt := by
    rcases scan_spec map.entries with ⟨-, h⟩ | ⟨e, he, -, -, -, h⟩
    · rw [h]
      norm_num
    · rw [h]
      exact map.len_lt e he
  fits := by
    rcases scan_spec map.entries with ⟨h1, h2⟩ | ⟨e, he, -, -, h1, h2⟩
    · rw [h1, h2]
      norm_num
    · rw [h1, h2]
      exact map.fits e he

/-- The run right after `pmm_init` on `n` entries. -/
def boot (m : Mem) (mmap n : ℕ) : Run := ⟨(pmmInit (initial m) mmap (n * entrySize)).toBuddy, []⟩

/-- `buddy_init` on an empty region leaves the static data as it is before. -/
theorem buddyInit_zero (m : Mem) : buddyInit m 0 0 = ⟨m, BuddyGlobals.zero⟩ := by
  have hpages : bytesToPages 0 = 0 := by decide
  have hzones : Function.update (fun _ => emptyZone) ZoneType.unmovable
      { emptyZone with totalPages := 0, freePages := 0 } = fun _ => emptyZone :=
    Function.update_eq_self _ _
  unfold buddyInit initStart
  rw [hpages, initLoop, hzones]
  rfl

/-- What was put in for `buddy.c` is read back, whatever the count of `pmm.c` is. -/
theorem toBuddy_setBuddy (s : State) (b : Buddy.State) (free : ℕ) :
    State.toBuddy { s.setBuddy b with pages := { (s.setBuddy b).pages with
      buddyInitialized := true, free := free } } = b := rfl

/-- The scan loop of `pmm_init` on a map in memory. -/
theorem scanLoop_map {map : MemoryMap} {m : Mem} {p : ℕ} (h : map.At m p) :
    scanLoop m (Word.add 64 p (map.entries.length * entrySize))
      (map.entries.length * entrySize) p ⟨0, 0, 0⟩ = scan map.entries := by
  have hle : map.entries.length ≤ map.entries.length * entrySize :=
    Nat.le_mul_of_pos_right _ (by decide)
  rw [Word.add_eq h.end_lt, scanLoop_eq m hle h.end_lt, h.entries_eq]
  rfl

/-- `pmm_init` leaves what `buddy_init` leaves on the region of the map. A map without usable memory
leaves the static data, which is what `buddy_init` makes of an empty region. -/
theorem boot_eq {map : MemoryMap} {m : Mem} {p : ℕ} (h : map.At m p) :
    boot m p map.entries.length = Buddy.boot m map.region.start map.region.size := by
  have hinit : (pmmInit (initial m) p (map.entries.length * entrySize)).toBuddy
      = buddyInit m (scan map.entries).memoryStart (scan map.entries).memorySize := by
    simp only [pmmInit, initial, scanLoop_map h]
    rcases scan_spec map.entries with ⟨h1, h2⟩ | ⟨e, he, -, hpos, h1, h2⟩
    · rw [if_neg (by omega), h1, h2, buddyInit_zero]
      rfl
    · rw [if_pos (by omega)]
      exact toBuddy_setBuddy _ _ _
  unfold boot
  rw [hinit]
  rfl

/-- `pmm_get_total_memory` is the sum of all entries, usable or not; `buddy_init` gets the longest of type 1. -/
theorem pmmInit_map {map : MemoryMap} {m : Mem} {p : ℕ} (h : map.At m p) :
    pmmGetTotalMemory (pmmInit (initial m) p (map.entries.length * entrySize)) =
        (map.entries.map MmapEntry.len).sum % 2 ^ 64 ∧
      ∀ e ∈ map.entries, e.type = 1 → e.len ≤ map.region.size := by
  refine ⟨?_, le_scan map.entries⟩
  rw [← scan_total]
  simp only [pmmInit, initial, scanLoop_map h, pmmGetTotalMemory]
  split_ifs <;> rfl

/-- Every block of the map's region that avoids the lost block is handed out in some run. -/
theorem exists_run_block {map : MemoryMap} {m : Mem} {p : ℕ} (h : map.At m p) {i k : ℕ}
    (hk : k ≤ maxOrder) (hal : 2 ^ k ∣ i) (hend : i + 2 ^ k ≤ map.region.pages)
    (hlost : lostPages map.region ≤ i) :
    ∃ ops c, ValidRun (boot m p map.entries.length) ops ∧
      exec (boot m p map.entries.length) ops = some c ∧ (map.region.addr i, k) ∈ c.live := by
  rw [boot_eq h]
  exact (returned_iff map.region m i k).mpr ⟨hk, hal, hend, hlost⟩

/-- Some run hands out every page that is not lost. -/
theorem exists_run_page {map : MemoryMap} {m : Mem} {p : ℕ} (h : map.At m p) {i : ℕ}
    (hi : i < map.region.pages) (hlost : lostPages map.region ≤ i) :
    ∃ ops c, ValidRun (boot m p map.entries.length) ops ∧
      exec (boot m p map.entries.length) ops = some c ∧ (map.region.addr i, 0) ∈ c.live :=
  exists_run_block h (Nat.zero_le _) (by rw [pow_zero]; exact one_dvd i) (by rw [pow_zero]; omega)
    hlost

/-! ### Usable memory -/

/-- The block `b = (address, order)` lies inside one entry of type 1. -/
def MemoryMap.Usable (map : MemoryMap) (b : ℕ × ℕ) : Prop :=
  ∃ e ∈ map.entries, e.type = 1 ∧ e.addr ≤ b.1 ∧ b.1 + 2 ^ b.2 * pageSize ≤ e.addr + e.len

/-- Maps whose chosen entry has no page outside the lost block, or is page-aligned and either a
whole number of pages long or continued by another usable entry: every aligned block that ends with
the last, partly covered page lies inside some usable entry. -/
def MemoryMap.PageSafe (map : MemoryMap) : Prop :=
  map.region.pages ≤ lostPages map.region ∨
    map.region.start % pageSize = 0 ∧
      (map.region.size % pageSize = 0 ∨
        ∀ k ≤ maxOrder, 2 ^ k ∣ map.region.pages → lostPages map.region + 2 ^ k ≤ map.region.pages →
          map.Usable (map.region.addr (map.region.pages - 2 ^ k), k))

/-- A region with a page is an entry of the map. -/
theorem MemoryMap.exists_entry {map : MemoryMap} (h : 0 < map.region.pages) :
    ∃ e ∈ map.entries, e.type = 1 ∧ map.region.start = e.addr ∧ map.region.size = e.len := by
  rcases scan_spec map.entries with ⟨-, h2⟩ | ⟨e, he, ht, -, h1, h2⟩
  · exfalso
    have hsize : map.region.size = 0 := h2
    have hpages : map.region.pages = 0 := by
      unfold Region.pages
      rw [hsize]
      decide
    omega
  · exact ⟨e, he, ht, h1, h2⟩

/-- A block that ends within the chosen entry. -/
theorem MemoryMap.usable_of_le {map : MemoryMap} {i k : ℕ} (hend : i + 2 ^ k ≤ map.region.pages)
    (hle : (i + 2 ^ k) * pageSize ≤ map.region.size) : map.Usable (map.region.addr i, k) := by
  have hpos := Nat.two_pow_pos k
  obtain ⟨e, he, ht, h1, h2⟩ := map.exists_entry (by omega)
  refine ⟨e, he, ht, ?_, ?_⟩
  · rw [← h1]
    exact Nat.le_add_right _ _
  · rw [← h1, ← h2]
    unfold Region.addr
    have : (i + 2 ^ k) * pageSize = i * pageSize + 2 ^ k * pageSize := by ring
    simp only
    omega

/-- Over all runs after `pmm_init`, every block handed out is page-aligned and inside usable memory
if and only if the map is `PageSafe`. -/
theorem inside_usable_iff (map : MemoryMap) (m : Mem) (p : ℕ) (h : map.At m p) :
    (∀ ops, ValidRun (boot m p map.entries.length) ops →
      ∃ c, exec (boot m p map.entries.length) ops = some c ∧
        ∀ b ∈ c.live, b.1 % pageSize = 0 ∧ map.Usable b) ↔ map.PageSafe := by
  have hsize := map.region.size_lt
  constructor
  · intro hall
    -- a block that some run hands out is as the left side says
    have hblock : ∀ {i k : ℕ}, k ≤ maxOrder → 2 ^ k ∣ i → i + 2 ^ k ≤ map.region.pages →
        lostPages map.region ≤ i →
        map.region.addr i % pageSize = 0 ∧ map.Usable (map.region.addr i, k) := by
      intro i k hk hal hend hlost
      obtain ⟨ops, c, hv, hexec, hmem⟩ := exists_run_block h hk hal hend hlost
      obtain ⟨d, hd, hlive⟩ := hall ops hv
      obtain rfl : d = c := Option.some.inj (hd.symm.trans hexec)
      exact hlive _ hmem
    by_cases hpages : map.region.pages ≤ lostPages map.region
    · exact Or.inl hpages
    · refine Or.inr ⟨?_, ?_⟩
      · have hfirst := (hblock (i := lostPages map.region) (k := 0) (Nat.zero_le _)
          (by rw [pow_zero]; exact one_dvd _) (by rw [pow_zero]; omega) le_rfl).1
        unfold Region.addr at hfirst
        rwa [Nat.add_mul_mod_self_right] at hfirst
      · refine Or.inr fun k hk hdvd hle => ?_
        have hpow : 2 ^ k ≤ map.region.pages := by omega
        exact (hblock hk (Nat.dvd_sub hdvd dvd_rfl) (by omega) (by omega)).2
  · intro hsafe ops hv
    rw [boot_eq h] at hv ⊢
    obtain ⟨c, hexec, hblocks⟩ := run_blocks map.region m hv
    refine ⟨c, hexec, ?_⟩
    rintro ⟨a, k⟩ hb
    obtain ⟨i, hi, hk, hal, hend, hlost⟩ := hblocks _ hb
    simp only at hi hk hal hend
    subst hi
    have hpos := Nat.two_pow_pos k
    rcases hsafe with hempty | ⟨haligned, hlast⟩
    · omega
    · have hmod : map.region.addr i % pageSize = 0 := by
        unfold Region.addr
        rw [Nat.add_mul_mod_self_right]
        exact haligned
      refine ⟨hmod, ?_⟩
      by_cases hlt : i + 2 ^ k < map.region.pages
      · exact map.usable_of_le hend (mul_lt_of_lt_bytesToPages hsize hlt).le
      · have heq : i + 2 ^ k = map.region.pages := by omega
        rcases hlast with hwhole | hlast
        · refine map.usable_of_le hend ?_
          have hprev := mul_lt_of_lt_bytesToPages (i := map.region.pages - 1) hsize
            (by change _ < map.region.pages; omega)
          rw [heq]
          unfold pageSize at hprev hwhole ⊢
          omega
        · have hdvd : 2 ^ k ∣ map.region.pages := by
            rw [← heq]
            exact Nat.dvd_add hal dvd_rfl
          have := hlast k hk hdvd (by omega)
          rwa [← heq, Nat.add_sub_cancel] at this

/-- Memory that holds a map of one usable entry at address `0x800`. -/
def oneEntry (addr len : ℕ) : Mem :=
  store 4 (store 8 (store 8 (fun _ => 0) 0x800 addr) 0x808 len) 0x810 1

/-- The map of one usable entry. -/
def singleMap (addr len : ℕ) (hlen : len < 2 ^ 64) (hfits : addr + len ≤ 2 ^ 64) : MemoryMap where
  entries := [⟨addr, len, 1⟩]
  len_lt e he := by
    rw [List.mem_singleton.mp he]
    exact hlen
  fits e he := by
    rw [List.mem_singleton.mp he]
    exact hfits

/-- Two whole pages at `0x1000` are handed out safely. -/
theorem inside_usable_two_pages :
    (singleMap 0x1000 0x2000 (by norm_num) (by norm_num)).PageSafe ∧
      ∀ ops, ValidRun (boot (oneEntry 0x1000 0x2000) 0x800 1) ops →
        ∃ c, exec (boot (oneEntry 0x1000 0x2000) 0x800 1) ops = some c ∧ ∀ b ∈ c.live,
          b.1 % pageSize = 0 ∧ (singleMap 0x1000 0x2000 (by norm_num) (by norm_num)).Usable b := by
  have hsafe : (singleMap 0x1000 0x2000 (by norm_num) (by norm_num)).PageSafe := by
    right
    constructor
    · rfl
    · left
      rfl
  exact ⟨hsafe, (inside_usable_iff (singleMap 0x1000 0x2000 (by norm_num) (by norm_num))
    (oneEntry 0x1000 0x2000) 0x800 ⟨by decide +kernel, by decide, by decide⟩).mpr hsafe⟩

/-- A page and a half at `0x1000`: the block of two pages that the allocator hands out ends half a
page outside the only usable entry. -/
theorem outside_usable : ∃ c,
    (singleMap 0x1000 0x1800 (by norm_num) (by norm_num)).At (oneEntry 0x1000 0x1800) 0x800 ∧
    ValidRun (boot (oneEntry 0x1000 0x1800) 0x800 1) [.alloc 1 0] ∧
    exec (boot (oneEntry 0x1000 0x1800) 0x800 1) [.alloc 1 0] = some c ∧
    (0x1000, 1) ∈ c.live ∧
    ¬ (singleMap 0x1000 0x1800 (by norm_num) (by norm_num)).Usable (0x1000, 1) := by
  have hlive : (exec (boot (oneEntry 0x1000 0x1800) 0x800 1) [.alloc 1 0]).map Run.live
      = some [(0x1000, 1)] := by decide +kernel
  obtain ⟨c, hexec, hc⟩ := Option.map_eq_some_iff.mp hlive
  refine ⟨c, ⟨by decide +kernel, by decide, by decide⟩, ⟨trivial, trivial⟩, hexec, ?_, ?_⟩
  · rw [hc]
    exact List.mem_singleton_self _
  · rintro ⟨e, he, -, -, hend⟩
    rw [List.mem_singleton.mp he] at hend
    exact absurd hend (by decide)

/-! ### The kernel image -/

/-- The load address in `linker.ld`. -/
def imageStart : ℕ := 0x100000

/-- `x` is a byte of the kernel image, which ends at the physical address `kernelEnd`. -/
def InImage (kernelEnd x : ℕ) : Prop := imageStart ≤ x ∧ x < kernelEnd

/-- Maps of which no page that can be handed out meets the image: the chosen entry has no page
outside the lost block, or these pages begin behind the image or end before it. -/
def MemoryMap.ImageSafe (map : MemoryMap) (kernelEnd : ℕ) : Prop :=
  map.region.pages ≤ lostPages map.region ∨ kernelEnd ≤ map.region.addr (lostPages map.region) ∨
    map.region.addr map.region.pages ≤ imageStart

/-- A byte of the image in a page that can be handed out. -/
theorem MemoryMap.exists_page_of_not_imageSafe {map : MemoryMap} {kernelEnd : ℕ}
    (himage : imageStart < kernelEnd) (h : ¬ map.ImageSafe kernelEnd) :
    ∃ i x, lostPages map.region ≤ i ∧ i < map.region.pages ∧ InBlock (map.region.addr i, 0) x ∧
      InImage kernelEnd x := by
  unfold ImageSafe at h
  push Not at h
  obtain ⟨h1, h2, h3⟩ := h
  by_cases hfirst : imageStart ≤ map.region.addr (lostPages map.region)
  · refine ⟨lostPages map.region, map.region.addr (lostPages map.region), le_rfl, h1, ?_, hfirst, h2⟩
    unfold InBlock pageSize
    simp
  · refine ⟨(imageStart - map.region.start) / pageSize, imageStart, ?_, ?_, ?_, le_rfl, himage⟩
    · unfold Region.addr pageSize at hfirst
      unfold pageSize
      omega
    · unfold Region.addr pageSize at h3
      unfold pageSize
      omega
    · unfold Region.addr pageSize at hfirst
      unfold InBlock Region.addr pageSize
      simp only [pow_zero]
      omega

/-- In a safe map no byte of the pages that can be handed out is in the image. -/
theorem MemoryMap.ImageSafe.not_inImage {map : MemoryMap} {kernelEnd : ℕ}
    (h : map.ImageSafe kernelEnd) {i j x : ℕ} (hlost : lostPages map.region ≤ i)
    (hj : j ≤ map.region.pages) (hlo : map.region.addr i ≤ x) (hhi : x < map.region.addr j) :
    ¬ InImage kernelEnd x := by
  rintro ⟨hx1, hx2⟩
  unfold Region.addr pageSize at hlo hhi
  rcases h with h | h | h
  · omega
  · unfold Region.addr pageSize at h
    omega
  · unfold Region.addr pageSize at h
    omega

/-- `buddy_init` writes no byte of the image. -/
theorem MemoryMap.ImageSafe.mem_boot {map : MemoryMap} {kernelEnd : ℕ}
    (h : map.ImageSafe kernelEnd) (m : Mem) {x : ℕ} (hx : InImage kernelEnd x) :
    (Buddy.boot m map.region.start map.region.size).state.mem x = m x := by
  obtain ⟨lists, S, hinv, hexact, hmem⟩ := inv_boot m map.region
  apply hmem
  intro b hb
  rcases Finset.mem_union.mp hb with hfree | hused
  · -- the node is in the first page of a block that can be handed out
    have hlt : b.1 < map.region.pages := S.lt_of_ind (Or.inl hfree) (BuddySystem.ind_self b)
    have hlost : lostPages map.region ≤ b.1 :=
      ((hinv.coverage_used_eq_zero_iff hexact).mp (by
        have h1 := S.coverage_le b.1
        have h2 := BuddySystem.ind_le_coverage hfree b.1
        rw [BuddySystem.ind_self] at h2
        omega)).2
    by_contra hoff
    unfold OffNode at hoff
    refine h.not_inImage hlost (j := b.1 + 1) (by omega) (x := x) ?_ ?_ hx
    · omega
    · unfold Region.addr pageSize at hoff ⊢
      omega
  · -- the only used block is the lost one, at address 0
    rcases hexact b hused with hlive | hlost
    · exact absurd hlive List.not_mem_nil
    · rw [mem_lostBlocks hlost]
      have := hx.1
      unfold imageStart at this
      unfold OffNode
      omega

/-- Over all runs after `pmm_init`, and whatever memory holds besides the map, `buddy_init` leaves
the image as it is and no block handed out meets it, if and only if the map is `ImageSafe`. -/
theorem image_untouched_iff (map : MemoryMap) (p kernelEnd : ℕ) (himage : imageStart < kernelEnd)
    (hm : ∃ m, map.At m p) :
    (∀ m, map.At m p →
      (∀ x, InImage kernelEnd x → (boot m p map.entries.length).state.mem x = m x) ∧
      ∀ ops, ValidRun (boot m p map.entries.length) ops →
        ∃ c, exec (boot m p map.entries.length) ops = some c ∧
          ∀ b ∈ c.live, ∀ x, InBlock b x → ¬ InImage kernelEnd x) ↔
      map.ImageSafe kernelEnd := by
  constructor
  · intro hall
    obtain ⟨m, h⟩ := hm
    by_contra hunsafe
    obtain ⟨i, x, hlost, hi, hin, hx⟩ := map.exists_page_of_not_imageSafe himage hunsafe
    obtain ⟨ops, c, hv, hexec, hmem⟩ := exists_run_page h hi hlost
    obtain ⟨d, hd, hlive⟩ := (hall m h).2 ops hv
    obtain rfl : d = c := Option.some.inj (hd.symm.trans hexec)
    exact hlive _ hmem x hin hx
  · intro hsafe m h
    rw [boot_eq h]
    refine ⟨fun x hx => hsafe.mem_boot m hx, fun ops hv => ?_⟩
    obtain ⟨c, hexec, hblocks⟩ := run_blocks map.region m hv
    refine ⟨c, hexec, fun b hb x hin => ?_⟩
    obtain ⟨i, hi, -, -, hend, hlost⟩ := hblocks b hb
    obtain ⟨hlo, hhi⟩ := hin
    rw [hi] at hlo hhi
    apply hsafe.not_inImage hlost hend hlo
    have : (i + 2 ^ b.2) * pageSize = i * pageSize + 2 ^ b.2 * pageSize := by ring
    unfold Region.addr at hhi ⊢
    omega

/-- Two pages at `0x1000` end before the image. -/
theorem image_untouched_two_pages :
    (singleMap 0x1000 0x2000 (by norm_num) (by norm_num)).ImageSafe 0x200000 ∧
      ∀ m, (singleMap 0x1000 0x2000 (by norm_num) (by norm_num)).At m 0x800 →
        (∀ x, InImage 0x200000 x → (boot m 0x800 1).state.mem x = m x) ∧
        ∀ ops, ValidRun (boot m 0x800 1) ops → ∃ c, exec (boot m 0x800 1) ops = some c ∧
          ∀ b ∈ c.live, ∀ x, InBlock b x → ¬ InImage 0x200000 x := by
  have hsafe : (singleMap 0x1000 0x2000 (by norm_num) (by norm_num)).ImageSafe 0x200000 := by
    right
    right
    decide +kernel
  exact ⟨hsafe, (image_untouched_iff (singleMap 0x1000 0x2000 (by norm_num) (by norm_num)) 0x800 0x200000
    (by decide) ⟨oneEntry 0x1000 0x2000, by decide +kernel, by decide, by decide⟩).mpr hsafe⟩

/-- An entry of two pages at the load address of an image that ends at 2 MiB: the second page of
the image is handed out. -/
theorem image_handed_out : ∃ c,
    (singleMap 0x100000 0x2000 (by norm_num) (by norm_num)).At (oneEntry 0x100000 0x2000) 0x800 ∧
    ValidRun (boot (oneEntry 0x100000 0x2000) 0x800 1) [.alloc 1 0] ∧
    exec (boot (oneEntry 0x100000 0x2000) 0x800 1) [.alloc 1 0] = some c ∧
    (0x100000, 1) ∈ c.live ∧ InBlock (0x100000, 1) 0x101000 ∧ InImage 0x200000 0x101000 := by
  have hlive : (exec (boot (oneEntry 0x100000 0x2000) 0x800 1) [.alloc 1 0]).map Run.live
      = some [(0x100000, 1)] := by decide +kernel
  obtain ⟨c, hexec, hc⟩ := Option.map_eq_some_iff.mp hlive
  refine ⟨c, ⟨by decide +kernel, by decide, by decide⟩, ⟨trivial, trivial⟩, hexec, ?_, by decide, ?_⟩
  · rw [hc]
    exact List.mem_singleton_self _
  · unfold InImage imageStart
    norm_num

end PrometheusKernel.Pmm
