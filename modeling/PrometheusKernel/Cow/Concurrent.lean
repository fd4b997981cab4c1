import PrometheusKernel.Cow.Steps
import PrometheusKernel.Lib.Interleaving

/-!
# Concurrent copy-on-write faults

`cow_handle_fault` takes `ref->lock` only to read and decrement the count, and again to restore it
when no page can be had; the allocation, the copy and the write of the page table entry happen
outside. Here each of these is an atomic step of one CPU, and the CPUs take their steps in any
order, between them the byte writes of the users. By `Vmm.page_tables_refine_map` every mapping has
an entry of its own, so the entries are a function `pte` of the mapping; `refCount` is the reference
table, which is a map by `Cow.Refs`; `cow_get_ref` finds the entry that `cow_mark_page` made and is
not a step of its own. Entries are words and are changed by the operations of the code.

The steps do not isolate: a fault that finds count 1 makes the frame writable while another CPU that
has already given its count back still has to copy it, or will take its count again
(`two_writable`). `isolated_of_orderly` is the positive result: faults that take the lock only in the
states described by `Orderly` do isolate, in every interleaving.
-/

namespace PrometheusKernel.Cow.Concurrent

open Vmm Interleaving

/-! ### The steps -/

/-- Where a CPU is in `cow_handle_fault`, with its local variables. -/
inductive Phase
  /-- Not in a fault. -/
  | idle
  /-- `entry` is read from the entry of the mapping `m` and is copy-on-write. -/
  | entered (m entry : ℕ)
  /-- The count was 1 and is decremented: the entry is to be made writable. -/
  | last (m entry : ℕ)
  /-- The count was not 1 and is decremented: a page is to be allocated. -/
  | counted (m entry : ℕ)
  /-- There was no page: the count is to be restored. -/
  | failed (m entry : ℕ)
  /-- The page is to be copied to `newPhys`. -/
  | allocated (m entry newPhys : ℕ)
  /-- The entry is to be written. -/
  | copied (m entry newPhys : ℕ)
deriving DecidableEq

/-- The shared state, the CPUs, and for each fault that returned 0 what its mapping showed then. -/
structure Config where
  /-- The page table entry of each mapping. -/
  pte : ℕ → ℕ
  /-- The contents of each frame. -/
  page : ℕ → ℕ → UInt8
  /-- The count of each frame in the reference table. -/
  refCount : ℕ → ℕ
  /-- The frames in use. -/
  used : List ℕ
  /-- The CPUs. -/
  cpu : ℕ → Phase
  /-- The pages at the moments of return. -/
  returned : List (ℕ → UInt8)

/-- An atomic step. -/
inductive Action
  /-- A CPU takes a fault on a mapping and reads its entry. -/
  | fault (i m : ℕ)
  /-- A CPU takes its next step; `reply` is what `buddy_alloc_pages` returns if it is called. -/
  | advance (i reply : ℕ)
  /-- A user writes a byte through a mapping. -/
  | write (m offset : ℕ) (b : UInt8)

/-- The replies of `buddy_alloc_pages`: 0 or a frame that is not in use. -/
def Config.Fresh (c : Config) (reply : ℕ) : Prop :=
  reply ≠ 0 ∧ reply % pageSize = 0 ∧ reply < 2 ^ 52 ∧ reply ∉ c.used

instance (c : Config) (reply : ℕ) : Decidable (c.Fresh reply) :=
  inferInstanceAs (Decidable (reply ≠ 0 ∧ reply % pageSize = 0 ∧ reply < 2 ^ 52 ∧ reply ∉ c.used))

/-- One step of `cow_handle_fault` on CPU `i`. -/
def advance (c : Config) (i reply : ℕ) : Option Config :=
  match c.cpu i with
  | .idle => none
  | .entered m entry =>
      let oldPhys := entry &&& frameMask
      let count := c.refCount oldPhys
      let c := { c with refCount := Function.update c.refCount oldPhys (Word.sub 32 count 1) }
      if count = 1 then some { c with cpu := Function.update c.cpu i (.last m entry) }
      else some { c with cpu := Function.update c.cpu i (.counted m entry) }
  | .last m entry =>
      let entry := entry ||| flagWritable
      let entry := entry &&& complement cowFlagMask
      some { c with pte := Function.update c.pte m entry
                    cpu := Function.update c.cpu i .idle
                    returned := c.page (entry &&& frameMask) :: c.returned }
  | .counted m entry =>
      if reply = 0 then some { c with cpu := Function.update c.cpu i (.failed m entry) }
      else if c.Fresh reply then
        some { c with used := reply :: c.used
                      cpu := Function.update c.cpu i (.allocated m entry reply) }
      else none
  | .failed _ entry =>
      let oldPhys := entry &&& frameMask
      some { c with refCount := Function.update c.refCount oldPhys
                      (Word.add 32 (c.refCount oldPhys) 1)
                    cpu := Function.update c.cpu i .idle }
  | .allocated m entry newPhys =>
      some { c with page := Function.update c.page newPhys (c.page (entry &&& frameMask))
                    cpu := Function.update c.cpu i (.copied m entry newPhys) }
  | .copied m entry newPhys =>
      let entry := (newPhys &&& frameMask) ||| (entry &&& 0xFFF)
      let entry := entry ||| flagWritable
      let entry := entry &&& complement cowFlagMask
      some { c with pte := Function.update c.pte m entry
                    cpu := Function.update c.cpu i .idle
                    returned := c.page (entry &&& frameMask) :: c.returned }

/-- One atomic step. A fault on an entry that is not present or not copy-on-write returns at once. -/
def step (c : Config) : Action → Option Config
  | .fault i m =>
      if c.cpu i = .idle then
        let entry := c.pte m
        if entry &&& flagPresent = 0 then some c
        else if entry &&& cowFlagMask = 0 then some c
        else some { c with cpu := Function.update c.cpu i (.entered m entry) }
      else none
  | .advance i reply => advance c i reply
  | .write m offset b =>
      if c.pte m &&& flagPresent ≠ 0 ∧ c.pte m &&& flagWritable ≠ 0 then
        let phys := c.pte m &&& frameMask
        some { c with page := Function.update c.page phys (Function.update (c.page phys) offset b) }
      else none

/-- `n` mappings of the frame `f`, with the entries `e`, each marked once by `cow_mark_page`. -/
def start (n f : ℕ) (e : ℕ → ℕ) (page : ℕ → ℕ → UInt8) : Config where
  pte m := if m < n then (e m &&& complement flagWritable) ||| cowFlagMask else 0
  page := page
  refCount := Function.update (fun _ => 0) f (n % 2 ^ 32)
  used := [f]
  cpu _ := .idle
  returned := []

/-- What the users are promised: no frame is mapped writable twice, and a fault returns 0 with the
page as it was when the sharing was established. -/
structure Isolated (orig : ℕ → UInt8) (c : Config) : Prop where
  sole : ∀ m m' f fl fl', decode (c.pte m) = some (f, fl) → decode (c.pte m') = some (f, fl') →
    isWritable fl = true → isWritable fl' = true → m = m'
  contents : ∀ q ∈ c.returned, q = orig

/-! ### The schedules that isolate -/

/-- The mapping whose count the CPU has taken. -/
def Phase.inFlight : Phase → Option ℕ
  | .idle => none
  | .entered _ _ => none
  | .last m _ => some m
  | .counted m _ => some m
  | .failed m _ => some m
  | .allocated m _ _ => some m
  | .copied m _ _ => some m

/-- The CPU has decremented the count and has neither copied the page nor restored the count. -/
def Phase.Behind : Phase → Prop
  | .counted _ _ => True
  | .failed _ _ => True
  | .allocated _ _ _ => True
  | _ => False

/-- The lock is taken only while the mapping is still copy-on-write and no CPU has taken its count,
and, if the count is 1, while no CPU is between its decrement and its copy or restore. -/
def Orderly (c : Config) : Action → Prop
  | .advance i _ =>
      match c.cpu i with
      | .entered m entry =>
          c.pte m &&& cowFlagMask ≠ 0 ∧ (∀ j, (c.cpu j).inFlight ≠ some m) ∧
            (c.refCount (entry &&& frameMask) = 1 → ∀ j, ¬ (c.cpu j).Behind)
      | _ => True
  | _ => True

/-! ### The invariant -/

/-- A word that holds the frame `f` as a present entry. -/
def HasFrame (f entry : ℕ) : Prop := entry.testBit 0 = true ∧ entry &&& frameMask = f

instance (f entry : ℕ) : Decidable (HasFrame f entry) :=
  inferInstanceAs (Decidable (entry.testBit 0 = true ∧ entry &&& frameMask = f))

/-- An entry of a mapping that still shares `f`. -/
def SharedEntry (f entry : ℕ) : Prop :=
  ∃ fl, decode entry = some (f, fl) ∧ isCow fl = true ∧ isWritable fl = false

/-- An entry of a mapping with a frame of its own. -/
def OwnEntry (d entry : ℕ) : Prop :=
  ∃ fl, decode entry = some (d, fl) ∧ isCow fl = false ∧ isWritable fl = true

/-- The local entry. -/
def Phase.entry : Phase → Option ℕ
  | .idle => none
  | .entered _ e => some e
  | .last _ e => some e
  | .counted _ e => some e
  | .failed _ e => some e
  | .allocated _ e _ => some e
  | .copied _ e _ => some e

/-- The mapping of the fault. -/
def Phase.mapping : Phase → Option ℕ
  | .entered m _ => some m
  | p => p.inFlight

/-- The frame that the mapping of the fault will own. -/
def Phase.target (f : ℕ) : Phase → Option ℕ
  | .last _ _ => some f
  | .allocated _ _ d => some d
  | .copied _ _ d => some d
  | _ => none

/-- A mapping or a CPU holds the frame `d` for itself. -/
def Holds (f : ℕ) (c : Config) (d : ℕ) : ℕ ⊕ ℕ → Prop
  | .inl m => OwnEntry d (c.pte m)
  | .inr i => (c.cpu i).target f = some d

/-- A sharer whose count is in the reference table. -/
def Live (f : ℕ) (c : Config) (m : ℕ) : Prop :=
  SharedEntry f (c.pte m) ∧ ∀ i, (c.cpu i).inFlight ≠ some m

open Classical in
/-- The sharers whose count is in the reference table. -/
noncomputable def live (n f : ℕ) (c : Config) : Finset ℕ := (Finset.range n).filter (Live f c)

/-- The invariant of orderly runs. -/
structure Inv (n f : ℕ) (orig : ℕ → UInt8) (c : Config) : Prop where
  unmapped : ∀ m, n ≤ m → c.pte m = 0
  entries : ∀ m, m < n → SharedEntry f (c.pte m) ∨ ∃ d, OwnEntry d (c.pte m)
  locals : ∀ i e, (c.cpu i).entry = some e → HasFrame f e
  mapped : ∀ i m, (c.cpu i).mapping = some m → m < n
  /-- The entry of a mapping whose count is taken is not written by anyone else, -/
  flight : ∀ i m, (c.cpu i).inFlight = some m → SharedEntry f (c.pte m)
  /-- since its count is taken once. -/
  exclusive : ∀ i j m, (c.cpu i).inFlight = some m → (c.cpu j).inFlight = some m → i = j
  counted : c.refCount f = (live n f c).card
  shared_used : f ∈ c.used
  held_used : ∀ d x, Holds f c d x → d ∈ c.used
  held_once : ∀ d x y, Holds f c d x → Holds f c d y → x = y
  fresh : ∀ i m e d, c.cpu i = .allocated m e d ∨ c.cpu i = .copied m e d → d ≠ f ∧ IsFrame d
  /-- Once someone holds the shared frame itself, no count is left and nobody needs the frame. -/
  ending : ∀ x, Holds f c f x → c.refCount f = 0 ∧ ∀ j, ¬ (c.cpu j).Behind
  intact : (∀ m, ¬ OwnEntry f (c.pte m)) → c.page f = orig
  copies : ∀ i m e d, c.cpu i = .copied m e d → c.page d = orig
  contents : ∀ q ∈ c.returned, q = orig

/-! ### Entries -/

/-- An entry has one frame. -/
theorem ownEntry_inj {d d' e : ℕ} (h : OwnEntry d e) (h' : OwnEntry d' e) : d = d' := by
  obtain ⟨fl, hd, -⟩ := h
  obtain ⟨fl', hd', -⟩ := h'
  rw [hd] at hd'
  exact (Prod.mk.inj (Option.some.inj hd')).1

/-- An entry that shares is not private. -/
theorem not_own_of_shared {f d e : ℕ} (h : SharedEntry f e) : ¬ OwnEntry d e := by
  rintro ⟨fl', hd', hc', -⟩
  obtain ⟨fl, hd, hc, -⟩ := h
  rw [hd] at hd'
  obtain ⟨-, rfl⟩ := Prod.mk.inj (Option.some.inj hd')
  rw [hc] at hc'
  exact absurd hc' (by simp)

/-- The upgrade in place makes the entry private. -/
theorem ownEntry_upgrade {f e : ℕ} (h : HasFrame f e) :
    OwnEntry f ((e ||| flagWritable) &&& complement cowFlagMask) := by
  obtain ⟨fl, hd, hw, hc⟩ := decode_upgrade h.1
  rw [h.2] at hd
  exact ⟨fl, hd, hc, hw⟩

/-- The entry for the copy is private. -/
theorem ownEntry_copy {f d e : ℕ} (h : HasFrame f e) (hd : IsFrame d) :
    OwnEntry d (((d &&& frameMask) ||| (e &&& 0xFFF) ||| flagWritable) &&& complement cowFlagMask) := by
  obtain ⟨fl, hdec, hw, hc⟩ := decode_copy h.1 hd
  exact ⟨fl, hdec, hc, hw⟩

/-- `cow_mark_page` makes the entry share. -/
theorem sharedEntry_mark {f e : ℕ} (h : HasFrame f e) :
    SharedEntry f ((e &&& complement flagWritable) ||| cowFlagMask) := by
  obtain ⟨fl, hd, hw, hc⟩ := decode_mark h.1
  rw [h.2] at hd
  exact ⟨fl, hd, hc, hw⟩

/-- The frame of an entry. -/
theorem frame_of_decode {e d fl : ℕ} (h : decode e = some (d, fl)) : e &&& frameMask = d :=
  (decode_eq_some h).2.1

/-- The flag of copy-on-write, in the entry. -/
theorem isCow_of_decode {e d fl : ℕ} (h : decode e = some (d, fl)) :
    isCow fl = true ↔ e &&& cowFlagMask ≠ 0 := by
  obtain ⟨-, -, rfl⟩ := decode_eq_some h
  unfold isCow
  rw [testBit_low (by norm_num), ne_eq, and_cowFlagMask_eq_zero_iff, Bool.not_eq_false]

/-- The flag of writable pages, in the entry. -/
theorem isWritable_of_decode {e d fl : ℕ} (h : decode e = some (d, fl)) :
    isWritable fl = true ↔ e &&& flagWritable ≠ 0 := by
  obtain ⟨-, -, rfl⟩ := decode_eq_some h
  unfold isWritable
  rw [testBit_low (by norm_num), ne_eq, and_flagWritable_eq_zero_iff, Bool.not_eq_false]

/-- An entry that shares is present. -/
theorem SharedEntry.hasFrame {f e : ℕ} (h : SharedEntry f e) : HasFrame f e := by
  obtain ⟨fl, hd, -⟩ := h
  exact ⟨testBit_zero_of_decode hd, frame_of_decode hd⟩

/-- The invariant gives what the users are promised. -/
theorem Inv.isolated {n f : ℕ} {orig : ℕ → UInt8} {c : Config} (h : Inv n f orig c) :
    Isolated orig c := by
  have hown : ∀ m d fl, decode (c.pte m) = some (d, fl) → isWritable fl = true →
      OwnEntry d (c.pte m) := by
    intro m d fl hd hw
    have hlt : m < n := by
      by_contra hge
      have h0 : decode 0 = none := by decide
      rw [h.unmapped m (not_lt.mp hge), h0] at hd
      exact absurd hd (by simp)
    rcases h.entries m hlt with ⟨fl', hd', -, hw'⟩ | ⟨d', fl', hd', hc', hw'⟩
    · rw [hd] at hd'
      obtain ⟨-, rfl⟩ := Prod.mk.inj (Option.some.inj hd')
      rw [hw] at hw'
      exact absurd hw' (by simp)
    · rw [hd] at hd'
      obtain ⟨rfl, rfl⟩ := Prod.mk.inj (Option.some.inj hd')
      exact ⟨fl, hd, hc', hw⟩
  refine ⟨fun m m' d fl fl' hd hd' hw hw' => ?_, h.contents⟩
  have heq := h.held_once d (.inl m) (.inl m') (hown m d fl hd hw) (hown m' d fl' hd' hw')
  exact Sum.inl.inj heq

/-! ### One CPU moves -/

section steps

variable {n f : ℕ} {orig : ℕ → UInt8} {c c' : Config} {i : ℕ} {p : Phase}

/-- The sharers whose count is in the table, spelled out. -/
theorem mem_live {m : ℕ} : m ∈ live n f c ↔ m < n ∧ Live f c m := by
  classical
  unfold live
  rw [Finset.mem_filter, Finset.mem_range]

/-- There are no more sharers than mappings. -/
theorem live_card_le (n f : ℕ) (c : Config) : (live n f c).card ≤ n := by
  classical
  unfold live
  exact (Finset.card_filter_le _ _).trans (Finset.card_range n).le

/-- A CPU that has taken a count works on that mapping. -/
theorem mapping_of_inFlight {p : Phase} {m : ℕ} (h : p.inFlight = some m) : p.mapping = some m := by
  cases p with
  | entered m' e => exact absurd h (by simp [Phase.inFlight])
  | _ => exact h

/-- What the invariant says about one CPU alone. -/
structure Phase.Sound (n f : ℕ) (p : Phase) : Prop where
  entry : ∀ e, p.entry = some e → HasFrame f e
  mapped : ∀ m, p.mapping = some m → m < n
  fresh : ∀ m e d, p = .allocated m e d ∨ p = .copied m e d → d ≠ f ∧ IsFrame d

/-- Nothing is asked of a CPU outside the calls. -/
theorem sound_idle : Phase.idle.Sound n f :=
  ⟨fun _ h => absurd h nofun, fun _ h => absurd h nofun, fun _ _ _ h => h.elim nofun nofun⟩

/-- A CPU that goes on leaves the phases of the others as they are. -/
theorem Inv.sound_update (h : Inv n f orig c) (hp : p.Sound n f) : ∀ j, (Function.update c.cpu i p j).Sound n f := by
  rw [Function.forall_update_iff c.cpu fun _ q => q.Sound n f]
  exact ⟨hp, fun j _ => ⟨h.locals j, h.mapped j, h.fresh j⟩⟩

/-- The counts that are taken after one CPU has gone on. -/
theorem inFlight_update (j : ℕ) :
    (Function.update c.cpu i p j).inFlight = if j = i then p.inFlight else (c.cpu j).inFlight := by
  by_cases hj : j = i
  · rw [if_pos hj, hj, Function.update_self]
  · rw [if_neg hj, Function.update_of_ne hj]

/-- Whoever holds a frame afterwards held it before, or is the CPU that has moved. -/
theorem holds_update {d : ℕ} {x : ℕ ⊕ ℕ} (hx : Holds f c' d x) (hpte : c'.pte = c.pte)
    (hcpu : c'.cpu = Function.update c.cpu i p) : Holds f c d x ∨ (x = .inr i ∧ p.target f = some d) := by
  cases x with
  | inl m =>
      left
      show OwnEntry d (c.pte m)
      rw [← hpte]
      exact hx
  | inr j =>
      have htarget : (c'.cpu j).target f = some d := hx
      rw [hcpu] at htarget
      by_cases hj : j = i
      · rw [hj, Function.update_self] at htarget
        exact Or.inr ⟨congrArg Sum.inr hj, htarget⟩
      · rw [Function.update_of_ne hj] at htarget
        exact Or.inl htarget

/-- The sharers after one CPU has gone on. -/
theorem mem_live_update (hcpu : c'.cpu = Function.update c.cpu i p) {m : ℕ} : m ∈ live n f c' ↔
    m < n ∧ SharedEntry f (c'.pte m) ∧ p.inFlight ≠ some m ∧ ∀ j, j ≠ i → (c.cpu j).inFlight ≠ some m := by
  rw [mem_live, Live, hcpu, Function.forall_update_iff c.cpu fun _ q => q.inFlight ≠ some m]

/-- The sharers, one CPU apart from the others. -/
theorem mem_live_iff (i : ℕ) {m : ℕ} : m ∈ live n f c ↔
    m < n ∧ SharedEntry f (c.pte m) ∧ (c.cpu i).inFlight ≠ some m ∧ ∀ j, j ≠ i → (c.cpu j).inFlight ≠ some m :=
  mem_live_update (Function.update_eq_self i c.cpu).symm

/-- No count is taken or given back. -/
theorem live_keep (hpte : c'.pte = c.pte) (hcpu : c'.cpu = Function.update c.cpu i p)
    (hp : p.inFlight = (c.cpu i).inFlight) : live n f c' = live n f c := by
  ext m
  rw [mem_live_update hcpu, mem_live_iff i, hpte, hp]

/-- A CPU takes the count of `m`. -/
theorem live_take (hpte : c'.pte = c.pte) (hcpu : c'.cpu = Function.update c.cpu i p)
    (hnone : (c.cpu i).inFlight = none) {m : ℕ} (hp : p.inFlight = some m) :
    live n f c' = (live n f c).erase m := by
  ext m'
  rw [Finset.mem_erase, mem_live_update hcpu, mem_live_iff i, hpte, hp, hnone]
  constructor
  · rintro ⟨hlt, hs, hne, hf⟩
    exact ⟨fun heq => hne (congrArg some heq.symm), hlt, hs, nofun, hf⟩
  · rintro ⟨hne, hlt, hs, -, hf⟩
    exact ⟨hlt, hs, fun hcon => hne (Option.some.inj hcon).symm, hf⟩

/-- A CPU gives the count of `m` back. -/
theorem Inv.live_restore (h : Inv n f orig c) (hpte : c'.pte = c.pte) (hcpu : c'.cpu = Function.update c.cpu i p)
    {m : ℕ} (hflight : (c.cpu i).inFlight = some m) (hp : p.inFlight = none) :
    live n f c' = insert m (live n f c) := by
  have hlt : m < n := h.mapped i m (mapping_of_inFlight hflight)
  ext m'
  rw [Finset.mem_insert, mem_live_update hcpu, mem_live_iff i, hpte, hp, hflight]
  constructor
  · rintro ⟨hlt', hs, -, hf⟩
    by_cases hne : m' = m
    · exact Or.inl hne
    · exact Or.inr ⟨hlt', hs, fun hcon => hne (Option.some.inj hcon).symm, hf⟩
  · rintro (rfl | ⟨hlt', hs, -, hf⟩)
    · exact ⟨hlt, h.flight i m' hflight, nofun, fun j hj hcon => hj (h.exclusive j i m' hcon hflight)⟩
    · exact ⟨hlt', hs, nofun, hf⟩

/-- A CPU writes the entry of `m`, whose count it has taken. -/
theorem live_finish {m d e : ℕ} (hpte : c'.pte = Function.update c.pte m e)
    (hcpu : c'.cpu = Function.update c.cpu i p) (hflight : (c.cpu i).inFlight = some m) (hp : p.inFlight = none)
    (hown : OwnEntry d e) : live n f c' = live n f c := by
  ext m'
  rw [mem_live_update hcpu, mem_live_iff i, hpte, hp, hflight]
  by_cases hne : m' = m
  · rw [hne, Function.update_self]
    exact iff_of_false (fun hx => not_own_of_shared hx.2.1 hown) fun hx => hx.2.2.1 rfl
  · rw [Function.update_of_ne hne]
    refine and_congr_right fun _ => and_congr_right fun _ => and_congr_left fun _ => iff_of_true nofun fun hcon => ?_
    exact hne (Option.some.inj hcon).symm

/-! ### One step -/

/-- A CPU goes on to a phase with the same count taken, touching nothing but the list of frames in
use; what it now holds was not in use. -/
theorem Inv.goOn (h : Inv n f orig c) {used : List ℕ} (hflight : p.inFlight = (c.cpu i).inFlight)
    (hsound : p.Sound n f) (hused : ∀ d ∈ c.used, d ∈ used)
    (htarget : ∀ d, p.target f = some d → d ∉ c.used ∧ d ∈ used) (hcopied : ∀ m e d, p ≠ .copied m e d)
    (hbehind : p.Behind → (c.cpu i).Behind) :
    Inv n f orig { c with cpu := Function.update c.cpu i p, used := used } := by
  have hall := h.sound_update (i := i) hsound
  have hfl : ∀ j, (Function.update c.cpu i p j).inFlight = (c.cpu j).inFlight := by
    rw [Function.forall_update_iff c.cpu fun j q => q.inFlight = (c.cpu j).inFlight]
    exact ⟨hflight, fun j _ => rfl⟩
  have hlive : live n f { c with cpu := Function.update c.cpu i p, used := used } = live n f c :=
    live_keep (c := c) (by rfl) (by rfl) hflight
  -- what the CPU has come to hold was not in use
  have hholds : ∀ d x, Holds f { c with cpu := Function.update c.cpu i p, used := used } d x →
      Holds f c d x ∨ (x = .inr i ∧ d ∉ c.used ∧ d ∈ used) := by
    intro d x hx
    rcases holds_update (c := c) hx rfl rfl with hx | ⟨hxi, hd⟩
    · exact Or.inl hx
    · exact Or.inr ⟨hxi, htarget d hd⟩
  refine ⟨h.unmapped, h.entries, fun j => (hall j).entry, fun j => (hall j).mapped, ?_, ?_, ?_,
    hused f h.shared_used, ?_, ?_, fun j => (hall j).fresh, ?_, h.intact, ?_, h.contents⟩
  · intro j m hm
    rw [hfl] at hm
    exact h.flight j m hm
  · intro j k m hj hk
    rw [hfl] at hj hk
    exact h.exclusive j k m hj hk
  · rw [hlive]
    exact h.counted
  · intro d x hx
    rcases hholds d x hx with hx | ⟨-, -, hd⟩
    · exact hused d (h.held_used d x hx)
    · exact hd
  · intro d x y hx hy
    rcases hholds d x hx with hx | ⟨rfl, hd, -⟩ <;> rcases hholds d y hy with hy | ⟨rfl, hd', -⟩
    · exact h.held_once d x y hx hy
    · exact absurd (h.held_used d x hx) hd'
    · exact absurd (h.held_used d y hy) hd
    · rfl
  · intro x hx
    rcases hholds f x hx with hx | ⟨-, hd, -⟩
    · obtain ⟨hzero, hnone⟩ := h.ending x hx
      refine ⟨hzero, ?_⟩
      rw [Function.forall_update_iff c.cpu fun j q => ¬ q.Behind]
      exact ⟨fun hp => hnone i (hbehind hp), fun j _ => hnone j⟩
    · exact absurd h.shared_used hd
  · rw [Function.forall_update_iff c.cpu fun j q => ∀ m e d, q = .copied m e d → c.page d = orig]
    exact ⟨fun m e d hp => absurd hp (hcopied m e d), fun j _ => h.copies j⟩

/-- A fault is entered. -/
theorem Inv.enter (h : Inv n f orig c) {m : ℕ} (hidle : c.cpu i = .idle)
    (hp : c.pte m &&& flagPresent ≠ 0) (hcow : c.pte m &&& cowFlagMask ≠ 0) :
    Inv n f orig { c with cpu := Function.update c.cpu i (.entered m (c.pte m)) } := by
  have hlt : m < n := by
    by_contra hge
    rw [h.unmapped m (not_lt.mp hge)] at hp
    exact hp (Nat.zero_and _)
  have hframe : HasFrame f (c.pte m) := by
    rcases h.entries m hlt with hs | ⟨d, fl, hd, hc, -⟩
    · exact hs.hasFrame
    · rw [(isCow_of_decode hd).mpr hcow] at hc
      exact absurd hc (by simp)
  refine h.goOn ?_ ⟨?_, ?_, ?_⟩ (fun d hd => hd) ?_ ?_ ?_
  · rw [hidle]
    rfl
  · rintro e he
    obtain rfl := Option.some.inj he
    exact hframe
  · rintro m' hm'
    obtain rfl := Option.some.inj hm'
    exact hlt
  · rintro m' e d (hp | hp)
    · exact absurd hp (by simp)
    · exact absurd hp (by simp)
  · exact fun d hd => absurd hd (by simp [Phase.target])
  · exact fun m' e d => by simp
  · exact fun hb => hb.elim

/-- No page can be had. -/
theorem Inv.allocFail (h : Inv n f orig c) {m e : ℕ} (hi : c.cpu i = .counted m e) :
    Inv n f orig { c with cpu := Function.update c.cpu i (.failed m e) } := by
  refine h.goOn ?_ ⟨?_, ?_, ?_⟩ (fun d hd => hd) ?_ ?_ ?_
  · rw [hi]
    rfl
  · exact fun e' he => h.locals i e' (by rw [hi]; exact he)
  · exact fun m' hm' => h.mapped i m' (by rw [hi]; exact hm')
  · rintro m' e' d (hp | hp)
    · exact absurd hp (by simp)
    · exact absurd hp (by simp)
  · exact fun d hd => absurd hd (by simp [Phase.target])
  · exact fun m' e d => by simp
  · exact fun _ => by rw [hi]; trivial

/-- A page is allocated. -/
theorem Inv.alloc (h : Inv n f orig c) {m e reply : ℕ} (hi : c.cpu i = .counted m e)
    (hr : c.Fresh reply) :
    Inv n f orig { c with used := reply :: c.used
                          cpu := Function.update c.cpu i (.allocated m e reply) } := by
  obtain ⟨h0, hal, hlt, hnew⟩ := hr
  have hne : reply ≠ f := fun he => hnew (he ▸ h.shared_used)
  refine h.goOn ?_ ⟨?_, ?_, ?_⟩ (fun d hd => List.mem_cons_of_mem _ hd) ?_ ?_ ?_
  · rw [hi]
    rfl
  · exact fun e' he => h.locals i e' (by rw [hi]; exact he)
  · exact fun m' hm' => h.mapped i m' (by rw [hi]; exact hm')
  · rintro m' e' d (hp | hp)
    · obtain ⟨-, -, rfl⟩ := Phase.allocated.inj hp
      exact ⟨hne, h0, hal, hlt⟩
    · exact absurd hp (by simp)
  · intro d hd
    obtain rfl := Option.some.inj hd
    exact ⟨hnew, List.mem_cons_self⟩
  · exact fun m' e' d => by simp
  · exact fun _ => by rw [hi]; trivial

/-- The count of a live sharer is taken. -/
theorem Inv.take (h : Inv n f orig c) (hn : n < 2 ^ 32) {m e : ℕ} {reply : ℕ}
    (hi : c.cpu i = .entered m e) (ho : Orderly c (.advance i reply)) {p : Phase} (hp : p.inFlight = some m)
    (he : p.entry = some e) (hmap : p.mapping = some m)
    (hkind : (c.refCount f = 1 ∧ p = .last m e) ∨ (c.refCount f ≠ 1 ∧ p = .counted m e)) :
    Inv n f orig { c with refCount := Function.update c.refCount f (Word.sub 32 (c.refCount f) 1)
                          cpu := Function.update c.cpu i p } := by
  simp only [Orderly, hi] at ho
  obtain ⟨hcow, hfree, hone⟩ := ho
  have hframe : HasFrame f e := h.locals i e (by rw [hi]; rfl)
  rw [hframe.2] at hone
  have hlt : m < n := h.mapped i m (by rw [hi]; rfl)
  have hshared : SharedEntry f (c.pte m) := by
    rcases h.entries m hlt with hs | ⟨d, fl, hd, hc, -⟩
    · exact hs
    · rw [(isCow_of_decode hd).mpr hcow] at hc
      exact absurd hc (by simp)
  have hmem : m ∈ live n f c := mem_live.mpr ⟨hlt, hshared, hfree⟩
  have hpos : 1 ≤ c.refCount f := by
    rw [h.counted]
    exact Finset.card_pos.mpr ⟨m, hmem⟩
  have hle : c.refCount f < 2 ^ 32 := by
    rw [h.counted]
    exact lt_of_le_of_lt (live_card_le n f c) hn
  have hsub : Word.sub 32 (c.refCount f) 1 = c.refCount f - 1 := Word.sub_eq hpos hle
  have hnohold : ∀ x, ¬ Holds f c f x := fun x hx => by
    have := (h.ending x hx).1
    omega
  have hnone : (c.cpu i).inFlight = none := by
    rw [hi]
    rfl
  have htarget : ∀ d, p.target f = some d → d = f ∧ c.refCount f = 1 := by
    intro d hd
    rcases hkind with ⟨h1, rfl⟩ | ⟨-, rfl⟩
    · exact ⟨(Option.some.inj hd).symm, h1⟩
    · exact absurd hd (by simp [Phase.target])
  have hsound : p.Sound n f := by
    refine ⟨fun e' he' => ?_, fun m' hm' => ?_, fun m' e' d hd => ?_⟩
    · rw [he] at he'
      exact Option.some.inj he' ▸ hframe
    · rw [hmap] at hm'
      exact Option.some.inj hm' ▸ hlt
    · rcases hkind with ⟨-, rfl⟩ | ⟨-, rfl⟩
      · exact absurd hd (by simp)
      · exact absurd hd (by simp)
  have hall := h.sound_update (i := i) hsound
  have hlive : live n f { c with refCount := Function.update c.refCount f (Word.sub 32 (c.refCount f) 1)
                                 cpu := Function.update c.cpu i p } = (live n f c).erase m :=
    live_take (c := c) (by rfl) (by rfl) hnone hp
  have hholds : ∀ d x, Holds f { c with refCount := Function.update c.refCount f (Word.sub 32 (c.refCount f) 1)
                                        cpu := Function.update c.cpu i p } d x →
      Holds f c d x ∨ (x = .inr i ∧ d = f ∧ c.refCount f = 1) := by
    intro d x hx
    rcases holds_update (c := c) hx rfl rfl with hx | ⟨hxi, hd⟩
    · exact Or.inl hx
    · exact Or.inr ⟨hxi, htarget d hd⟩
  refine ⟨h.unmapped, h.entries, fun j => (hall j).entry, fun j => (hall j).mapped, ?_, ?_, ?_, h.shared_used,
    ?_, ?_, fun j => (hall j).fresh, ?_, h.intact, ?_, h.contents⟩
  · intro j m' hj
    rw [inFlight_update, hp] at hj
    split_ifs at hj
    · exact Option.some.inj hj ▸ hshared
    · exact h.flight j m' hj
  · intro j k m' hj hk
    rw [inFlight_update, hp] at hj hk
    split_ifs at hj hk with hji hki hki
    · rw [hji, hki]
    · exact absurd (Option.some.inj hj ▸ hk) (hfree k)
    · exact absurd (Option.some.inj hk ▸ hj) (hfree j)
    · exact h.exclusive j k m' hj hk
  · rw [hlive, Finset.card_erase_of_mem hmem, ← h.counted]
    show Function.update c.refCount f (Word.sub 32 (c.refCount f) 1) f = c.refCount f - 1
    rw [Function.update_self, hsub]
  · intro d x hx
    rcases hholds d x hx with hx | ⟨-, rfl, -⟩
    · exact h.held_used d x hx
    · exact h.shared_used
  · intro d x y hx hy
    rcases hholds d x hx with hx | ⟨rfl, rfl, -⟩ <;> rcases hholds d y hy with hy | ⟨rfl, hd, -⟩
    · exact h.held_once d x y hx hy
    · exact absurd (hd ▸ hx) (hnohold x)
    · exact absurd hy (hnohold y)
    · rfl
  · intro x hx
    rcases hholds f x hx with hx | ⟨-, -, h1⟩
    · exact absurd hx (hnohold x)
    · -- the last count is taken while nobody is behind
      refine ⟨?_, ?_⟩
      · show Function.update c.refCount f (Word.sub 32 (c.refCount f) 1) f = 0
        rw [Function.update_self, hsub, h1]
      · rw [Function.forall_update_iff c.cpu fun j q => ¬ q.Behind]
        refine ⟨?_, fun j _ => hone h1 j⟩
        rcases hkind with ⟨-, rfl⟩ | ⟨hne, -⟩
        · exact id
        · exact absurd h1 hne
  · rw [Function.forall_update_iff c.cpu fun j q => ∀ m e d, q = .copied m e d → c.page d = orig]
    refine ⟨fun m' e' d hd => ?_, fun j _ => h.copies j⟩
    rcases hkind with ⟨-, rfl⟩ | ⟨-, rfl⟩
    · exact absurd hd (by simp)
    · exact absurd hd (by simp)

/-- The count is restored. -/
theorem Inv.restore (h : Inv n f orig c) (hn : n < 2 ^ 32) {m e : ℕ} (hi : c.cpu i = .failed m e) :
    Inv n f orig { c with refCount := Function.update c.refCount f (Word.add 32 (c.refCount f) 1)
                          cpu := Function.update c.cpu i .idle } := by
  have hflight : (c.cpu i).inFlight = some m := by
    rw [hi]
    rfl
  have hlive : live n f { c with refCount := Function.update c.refCount f (Word.add 32 (c.refCount f) 1)
                                 cpu := Function.update c.cpu i .idle } = insert m (live n f c) :=
    h.live_restore (by rfl) (by rfl) hflight rfl
  have hnot : m ∉ live n f c := fun hm => (mem_live.mp hm).2.2 i hflight
  have hcard := Finset.card_insert_of_notMem hnot
  have hle : c.refCount f + 1 < 2 ^ 32 := by
    rw [h.counted, ← hcard, ← hlive]
    exact lt_of_le_of_lt (live_card_le n f _) hn
  have hall := h.sound_update (i := i) sound_idle
  have hholds : ∀ d x, Holds f { c with refCount := Function.update c.refCount f (Word.add 32 (c.refCount f) 1)
                                        cpu := Function.update c.cpu i .idle } d x → Holds f c d x := by
    intro d x hx
    rcases holds_update (c := c) hx rfl rfl with hx | ⟨-, hd⟩
    · exact hx
    · exact absurd hd nofun
  refine ⟨h.unmapped, h.entries, fun j => (hall j).entry, fun j => (hall j).mapped, ?_, ?_, ?_, h.shared_used,
    fun d x hx => h.held_used d x (hholds d x hx), fun d x y hx hy => h.held_once d x y (hholds d x hx) (hholds d y hy),
    fun j => (hall j).fresh, ?_, h.intact, ?_, h.contents⟩
  · intro j m' hj
    rw [inFlight_update] at hj
    split_ifs at hj
    · exact absurd hj nofun
    · exact h.flight j m' hj
  · intro j k m' hj hk
    rw [inFlight_update] at hj hk
    split_ifs at hj hk
    · exact absurd hj nofun
    · exact absurd hj nofun
    · exact absurd hk nofun
    · exact h.exclusive j k m' hj hk
  · rw [hlive, hcard, ← h.counted]
    show Function.update c.refCount f (Word.add 32 (c.refCount f) 1) f = c.refCount f + 1
    rw [Function.update_self, Word.add_eq hle]
  · -- nobody holds the shared frame while this CPU is behind
    intro x hx
    have hbehind := (h.ending x (hholds f x hx)).2 i
    rw [hi] at hbehind
    exact absurd trivial hbehind
  · rw [Function.forall_update_iff c.cpu fun j q => ∀ m e d, q = .copied m e d → c.page d = orig]
    exact ⟨fun m' e' d hd => absurd hd nofun, fun j _ => h.copies j⟩

/-- The page is copied. -/
theorem Inv.copy (h : Inv n f orig c) {m e d : ℕ} (hi : c.cpu i = .allocated m e d) :
    Inv n f orig { c with page := Function.update c.page d (c.page f)
                          cpu := Function.update c.cpu i (.copied m e d) } := by
  obtain ⟨hdf, hframe⟩ := h.fresh i m e d (Or.inl hi)
  have hhold : Holds f c d (.inr i) := by
    show (c.cpu i).target f = some d
    rw [hi]
    rfl
  -- this CPU is behind, so that nobody holds the shared frame
  have hnohold : ∀ x, ¬ Holds f c f x := fun x hx => by
    have hbehind := (h.ending x hx).2 i
    rw [hi] at hbehind
    exact hbehind trivial
  have horig : c.page f = orig := h.intact fun m' hm' => hnohold (.inl m') hm'
  have hflight : (Phase.copied m e d).inFlight = (c.cpu i).inFlight := by
    rw [hi]
    rfl
  have hfl : ∀ j, (Function.update c.cpu i (.copied m e d) j).inFlight = (c.cpu j).inFlight := by
    rw [Function.forall_update_iff c.cpu fun j q => q.inFlight = (c.cpu j).inFlight]
    exact ⟨hflight, fun j _ => rfl⟩
  have hlive : live n f { c with page := Function.update c.page d (c.page f)
                                 cpu := Function.update c.cpu i (.copied m e d) } = live n f c :=
    live_keep (c := c) (by rfl) (by rfl) hflight
  have hsound : (Phase.copied m e d).Sound n f := by
    refine ⟨fun e' he' => h.locals i e' (by rw [hi]; exact he'), fun m' hm' => h.mapped i m' (by rw [hi]; exact hm'),
      fun m' e' d' hd' => ?_⟩
    rcases hd' with hd' | hd'
    · exact absurd hd' (by simp)
    · obtain ⟨-, -, rfl⟩ := Phase.copied.inj hd'
      exact ⟨hdf, hframe⟩
  have hall := h.sound_update (i := i) hsound
  have hholds : ∀ d' x, Holds f { c with page := Function.update c.page d (c.page f)
                                         cpu := Function.update c.cpu i (.copied m e d) } d' x →
      Holds f c d' x := by
    intro d' x hx
    rcases holds_update (c := c) hx rfl rfl with hx | ⟨rfl, hd⟩
    · exact hx
    · obtain rfl : d = d' := Option.some.inj hd
      exact hhold
  refine ⟨h.unmapped, h.entries, fun j => (hall j).entry, fun j => (hall j).mapped, ?_, ?_, ?_, h.shared_used,
    fun d x hx => h.held_used d x (hholds d x hx), fun d x y hx hy => h.held_once d x y (hholds d x hx) (hholds d y hy),
    fun j => (hall j).fresh, fun x hx => absurd (hholds f x hx) (hnohold x), ?_, ?_, h.contents⟩
  · intro j m' hj
    rw [hfl] at hj
    exact h.flight j m' hj
  · intro j k m' hj hk
    rw [hfl] at hj hk
    exact h.exclusive j k m' hj hk
  · rw [hlive]
    exact h.counted
  · intro _
    show Function.update c.page d (c.page f) f = orig
    rw [Function.update_of_ne hdf.symm, horig]
  · intro j m' e' d' hj
    show Function.update c.page d (c.page f) d' = orig
    by_cases hd : d' = d
    · rw [hd, Function.update_self, horig]
    · have hji : j ≠ i := by
        rintro rfl
        simp only [Function.update_self] at hj
        exact hd (Phase.copied.inj hj).2.2.symm
      simp only [Function.update_of_ne hji] at hj
      rw [Function.update_of_ne hd]
      exact h.copies j m' e' d' hj

/-- The entry is written and the fault returns 0. -/
theorem Inv.finish (h : Inv n f orig c) {m d e' : ℕ} (hflight : (c.cpu i).inFlight = some m)
    (htarget : (c.cpu i).target f = some d) (hbehind : ¬ (c.cpu i).Behind) (hown : OwnEntry d e')
    (hpage : c.page d = orig) :
    Inv n f orig { c with pte := Function.update c.pte m e'
                          cpu := Function.update c.cpu i .idle
                          returned := c.page (e' &&& frameMask) :: c.returned } := by
  have hlt : m < n := h.mapped i m (mapping_of_inFlight hflight)
  have hshared := h.flight i m hflight
  have hframe : e' &&& frameMask = d := by
    obtain ⟨fl, hd, -⟩ := hown
    exact frame_of_decode hd
  set c' : Config := { c with pte := Function.update c.pte m e'
                              cpu := Function.update c.cpu i .idle
                              returned := c.page (e' &&& frameMask) :: c.returned } with hc'
  have hpte : ∀ m', m' ≠ m → c'.pte m' = c.pte m' := fun m' hne => Function.update_of_ne hne _ _
  have hpte_m : c'.pte m = e' := Function.update_self _ _ _
  have hlive : live n f c' = live n f c := live_finish (c := c) (by rfl) (by rfl) hflight rfl hown
  have hall := h.sound_update (i := i) sound_idle
  -- the mapping takes over what the CPU held
  have hholds : ∀ d' x, Holds f c' d' x →
      (x = .inl m ∧ d' = d) ∨ (x ≠ .inr i ∧ Holds f c d' x) := by
    intro d' x hx
    cases x with
    | inl m' =>
        by_cases hne : m' = m
        · subst hne
          have hx' : OwnEntry d' e' := hpte_m ▸ hx
          exact Or.inl ⟨rfl, ownEntry_inj hx' hown⟩
        · refine Or.inr ⟨by simp, ?_⟩
          show OwnEntry d' (c.pte m')
          rw [← hpte m' hne]
          exact hx
    | inr j =>
        by_cases hj : j = i
        · subst hj
          simp only [Holds, hc', Function.update_self, Phase.target] at hx
          exact absurd hx (by simp)
        · simp only [Holds, hc', Function.update_of_ne hj] at hx
          exact Or.inr ⟨fun hinr => hj (Sum.inr.inj hinr), hx⟩
  have hholder : Holds f c d (.inr i) := htarget
  refine ⟨?_, ?_, fun j => (hall j).entry, fun j => (hall j).mapped, ?_, ?_, ?_, h.shared_used, ?_, ?_,
    fun j => (hall j).fresh, ?_, ?_, ?_, ?_⟩
  · intro m' hm'
    rw [hpte m' (by omega)]
    exact h.unmapped m' hm'
  · intro m' hm'
    by_cases hne : m' = m
    · rw [hne, hpte_m]
      exact Or.inr ⟨d, hown⟩
    · rw [hpte m' hne]
      exact h.entries m' hm'
  · intro j m' hj
    rw [inFlight_update] at hj
    split_ifs at hj with hji
    · exact absurd hj nofun
    have hne : m' ≠ m := by
      rintro rfl
      exact hji (h.exclusive j i m' hj hflight)
    rw [hpte m' hne]
    exact h.flight j m' hj
  · intro j k m' hj hk
    rw [inFlight_update] at hj hk
    split_ifs at hj hk
    · exact absurd hj nofun
    · exact absurd hj nofun
    · exact absurd hk nofun
    · exact h.exclusive j k m' hj hk
  · rw [hlive]
    exact h.counted
  · intro d' x hx
    rcases hholds d' x hx with ⟨-, rfl⟩ | ⟨-, hx⟩
    · exact h.held_used d' _ hholder
    · exact h.held_used d' x hx
  · intro d' x y hx hy
    rcases hholds d' x hx with ⟨rfl, rfl⟩ | ⟨hxi, hx⟩ <;>
      rcases hholds d' y hy with ⟨rfl, hd⟩ | ⟨hyi, hy⟩
    · rfl
    · exact absurd (h.held_once _ y _ hy hholder) hyi
    · exact absurd (h.held_once _ x _ (hd ▸ hx) hholder) hxi
    · exact h.held_once d' x y hx hy
  · intro x hx
    have hend : c.refCount f = 0 ∧ ∀ j, ¬ (c.cpu j).Behind := by
      rcases hholds f x hx with ⟨-, hd⟩ | ⟨-, hx⟩
      · exact h.ending (.inr i) (hd ▸ hholder)
      · exact h.ending x hx
    refine ⟨hend.1, ?_⟩
    rw [hc', Function.forall_update_iff c.cpu fun j q => ¬ q.Behind]
    exact ⟨id, fun j _ => hend.2 j⟩
  · intro hnone
    refine h.intact fun m' hm' => ?_
    by_cases hne : m' = m
    · exact not_own_of_shared (hne ▸ hshared) hm'
    · exact hnone m' (hpte m' hne ▸ hm')
  · rw [hc', Function.forall_update_iff c.cpu fun j q => ∀ m e d, q = .copied m e d → c.page d = orig]
    exact ⟨fun m' e' d hd => absurd hd (by simp), fun j _ => h.copies j⟩
  · intro q hq
    rcases List.mem_cons.mp hq with rfl | hq
    · rw [hframe, hpage]
    · exact h.contents q hq

/-- A user writes through a writable mapping. -/
theorem Inv.write (h : Inv n f orig c) {m : ℕ} (q : ℕ → UInt8) (hp : c.pte m &&& flagPresent ≠ 0)
    (hw : c.pte m &&& flagWritable ≠ 0) :
    Inv n f orig { c with page := Function.update c.page (c.pte m &&& frameMask) q } := by
  have hlt : m < n := by
    by_contra hge
    rw [h.unmapped m (not_lt.mp hge)] at hp
    exact hp (Nat.zero_and _)
  obtain ⟨d, hown⟩ : ∃ d, OwnEntry d (c.pte m) := by
    rcases h.entries m hlt with ⟨fl, hd, -, hnw⟩ | hd
    · rw [(isWritable_of_decode hd).mpr hw] at hnw
      exact absurd hnw (by simp)
    · exact hd
  have hframe : c.pte m &&& frameMask = d := by
    obtain ⟨fl, hd, -⟩ := hown
    exact frame_of_decode hd
  rw [hframe]
  refine ⟨h.unmapped, h.entries, h.locals, h.mapped, h.flight, h.exclusive, h.counted, h.shared_used,
    h.held_used, h.held_once, h.fresh, h.ending, fun hnone => ?_, fun j m' e' d' hj => ?_, h.contents⟩
  · have hne : f ≠ d := by
      rintro rfl
      exact hnone m hown
    show Function.update c.page d q f = orig
    rw [Function.update_of_ne hne]
    exact h.intact hnone
  · have hne : d' ≠ d := by
      rintro rfl
      have hhold : Holds f c d' (.inr j) := by
        show (c.cpu j).target f = some d'
        rw [hj]
        rfl
      exact absurd (h.held_once d' (.inl m) (.inr j) hown hhold) (by simp)
    show Function.update c.page d q d' = orig
    rw [Function.update_of_ne hne]
    exact h.copies j m' e' d' hj

/-- One step of the handler. -/
theorem Inv.advance (h : Inv n f orig c) (hn : n < 2 ^ 32) {reply : ℕ}
    (ho : Orderly c (.advance i reply)) {c' : Config}
    (hstep : Concurrent.advance c i reply = some c') : Inv n f orig c' := by
  have hlocal : ∀ e, (c.cpu i).entry = some e → e &&& frameMask = f := fun e he => (h.locals i e he).2
  unfold Concurrent.advance at hstep
  cases hi : c.cpu i with
  | idle =>
      rw [hi] at hstep
      exact absurd hstep (by simp)
  | entered m e =>
      have he := hlocal e (by rw [hi]; rfl)
      simp only [hi, he] at hstep
      split_ifs at hstep with h1
      · obtain rfl := Option.some.inj hstep
        exact h.take hn hi ho rfl rfl rfl (Or.inl ⟨h1, rfl⟩)
      · obtain rfl := Option.some.inj hstep
        exact h.take hn hi ho rfl rfl rfl (Or.inr ⟨h1, rfl⟩)
  | last m e =>
      have hhold : Holds f c f (.inr i) := by
        show (c.cpu i).target f = some f
        rw [hi]
        rfl
      have horig : c.page f = orig := h.intact fun m' hm' =>
        absurd (h.held_once f (.inl m') (.inr i) hm' hhold) (by simp)
      simp only [hi] at hstep
      obtain rfl := Option.some.inj hstep
      exact h.finish (by rw [hi]; rfl) hhold (by rw [hi]; exact id)
        (ownEntry_upgrade (h.locals i e (by rw [hi]; rfl))) horig
  | counted m e =>
      simp only [hi] at hstep
      split_ifs at hstep with h0 hr
      · obtain rfl := Option.some.inj hstep
        exact h.allocFail hi
      · obtain rfl := Option.some.inj hstep
        exact h.alloc hi hr
  | failed m e =>
      have he := hlocal e (by rw [hi]; rfl)
      simp only [hi, he] at hstep
      obtain rfl := Option.some.inj hstep
      exact h.restore hn hi
  | allocated m e d =>
      have he := hlocal e (by rw [hi]; rfl)
      simp only [hi, he] at hstep
      obtain rfl := Option.some.inj hstep
      exact h.copy hi
  | copied m e d =>
      simp only [hi] at hstep
      obtain rfl := Option.some.inj hstep
      exact h.finish (by rw [hi]; rfl) (d := d) (by rw [hi]; rfl) (by rw [hi]; exact id)
        (ownEntry_copy (h.locals i e (by rw [hi]; rfl)) (h.fresh i m e d (Or.inr hi)).2)
        (h.copies i m e d hi)

/-- One orderly step. -/
theorem Inv.step (h : Inv n f orig c) (hn : n < 2 ^ 32) {a : Action} (ho : Orderly c a) {c' : Config}
    (hstep : Concurrent.step c a = some c') : Inv n f orig c' := by
  cases a with
  | fault i m =>
      simp only [Concurrent.step] at hstep
      split_ifs at hstep with hidle hp hcow
      · exact Option.some.inj hstep ▸ h
      · exact Option.some.inj hstep ▸ h
      · obtain rfl := Option.some.inj hstep
        exact h.enter hidle hp hcow
  | advance i reply => exact h.advance hn ho hstep
  | write m offset b =>
      simp only [Concurrent.step] at hstep
      split_ifs at hstep with hpw
      obtain rfl := Option.some.inj hstep
      exact h.write _ hpw.1 hpw.2

end steps

/-- The invariant holds when the sharing is established. -/
theorem inv_start {n f : ℕ} (hn : n < 2 ^ 32) {e : ℕ → ℕ} (he : ∀ m, m < n → HasFrame f (e m))
    (page : ℕ → ℕ → UInt8) : Inv n f (page f) (start n f e page) := by
  have hshared : ∀ m, m < n → SharedEntry f ((start n f e page).pte m) := by
    intro m hm
    show SharedEntry f (if m < n then _ else _)
    rw [if_pos hm]
    exact sharedEntry_mark (he m hm)
  have hunmapped : ∀ m, n ≤ m → (start n f e page).pte m = 0 := fun m hm => if_neg (by omega)
  have hnotown : ∀ d m, ¬ OwnEntry d ((start n f e page).pte m) := by
    intro d m
    by_cases hm : m < n
    · exact not_own_of_shared (hshared m hm)
    · rw [hunmapped m (by omega)]
      rintro ⟨fl, hd, -⟩
      have h0 : decode 0 = none := by decide
      rw [h0] at hd
      exact absurd hd (by simp)
  have hnohold : ∀ d x, ¬ Holds f (start n f e page) d x := by
    intro d x hx
    cases x with
    | inl m => exact hnotown d m hx
    | inr i => exact absurd hx (by simp [Holds, start, Phase.target])
  have hlive : live n f (start n f e page) = Finset.range n := by
    ext m
    rw [mem_live, Finset.mem_range]
    exact ⟨fun h => h.1, fun h => ⟨h, hshared m h, fun i => by simp [start, Phase.inFlight]⟩⟩
  refine ⟨hunmapped, fun m hm => Or.inl (hshared m hm), ?_, ?_, ?_, ?_, ?_, List.mem_cons_self, ?_, ?_, ?_,
    ?_, fun _ => rfl, ?_, ?_⟩
  · exact fun i e' h => absurd h (by simp [start, Phase.entry])
  · exact fun i m h => absurd h (by simp [start, Phase.mapping, Phase.inFlight])
  · exact fun i m h => absurd h (by simp [start, Phase.inFlight])
  · exact fun i j m h => absurd h (by simp [start, Phase.inFlight])
  · rw [hlive, Finset.card_range]
    show Function.update (fun _ => (0 : ℕ)) f (n % 2 ^ 32) f = n
    rw [Function.update_self, Nat.mod_eq_of_lt hn]
  · exact fun d x hx => absurd hx (hnohold d x)
  · exact fun d x y hx => absurd hx (hnohold d x)
  · exact fun i m e' d h => absurd h (by simp [start])
  · exact fun x hx => absurd hx (hnohold f x)
  · exact fun i m e' d h => absurd h (by simp [start])
  · exact fun q hq => absurd hq List.not_mem_nil

/-- Every orderly run of any number of CPUs isolates. -/
theorem isolated_of_orderly {n f : ℕ} (hn : n < 2 ^ 32) (e : ℕ → ℕ)
    (he : ∀ m, m < n → HasFrame f (e m)) (page : ℕ → ℕ → UInt8) (as : List Action)
    (hg : Guarded step Orderly (start n f e page) as) {c : Config}
    (hexec : exec step (start n f e page) as = some c) : Isolated (page f) c := by
  have hinv : Inv n f (page f) c :=
    invariant (fun _ _ _ h ho hs => h.step hn ho hs) (inv_start hn he page) hg hexec
  exact hinv.isolated

instance (p : Phase) : Decidable p.Behind := by
  cases p <;> unfold Phase.Behind <;> infer_instance

/-- `Orderly` as a test, for steps of the first `k` CPUs. -/
def orderlyTest (k : ℕ) (c : Config) : Action → Bool
  | .fault i _ => decide (i < k)
  | .advance i _ => decide (i < k) && match c.cpu i with
      | .entered m entry => decide (c.pte m &&& cowFlagMask ≠ 0) && decide (∀ j < k, (c.cpu j).inFlight ≠ some m) &&
          decide (c.refCount (entry &&& frameMask) = 1 → ∀ j < k, ¬ (c.cpu j).Behind)
      | _ => true
  | .write _ _ _ => true

/-- A step is one of the CPU that takes it. -/
theorem cpu_of_step {k j : ℕ} {c c' : Config} {a : Action} (htest : orderlyTest k c a = true)
    (hstep : step c a = some c') (hj : k ≤ j) : c'.cpu j = c.cpu j := by
  cases a with
  | fault i m =>
      have hij : j ≠ i := by
        have hi : i < k := of_decide_eq_true htest
        omega
      unfold step at hstep
      dsimp only at hstep
      split_ifs at hstep
      all_goals obtain rfl := Option.some.inj hstep
      · rfl
      · rfl
      · exact Function.update_of_ne hij _ _
  | advance i reply =>
      have hij : j ≠ i := by
        have hi : i < k := of_decide_eq_true (Bool.and_eq_true_iff.mp htest).1
        omega
      replace hstep : advance c i reply = some c' := hstep
      unfold advance at hstep
      split at hstep
      case h_1 => exact absurd hstep.symm (Option.some_ne_none _)
      all_goals
        try dsimp only at hstep
        try split_ifs at hstep
        all_goals
          obtain rfl := Option.some.inj hstep
          exact Function.update_of_ne hij _ _
  | write m offset b =>
      unfold step at hstep
      dsimp only at hstep
      split_ifs at hstep
      obtain rfl := Option.some.inj hstep
      rfl

/-- In a run on the first `k` CPUs the others stay idle. -/
theorem guarded_of_orderlyTest {k : ℕ} {c : Config} {as : List Action} (hidle : ∀ j, k ≤ j → c.cpu j = .idle)
    (htest : guardedBy step (orderlyTest k) c as = true) : Guarded step Orderly c as := by
  induction as generalizing c with
  | nil => trivial
  | cons a as ih =>
      simp only [guardedBy, Bool.and_eq_true] at htest
      obtain ⟨hfirst, hrest⟩ := htest
      refine ⟨?_, fun c' hc' => ih (fun j hj => (cpu_of_step hfirst hc' hj).trans (hidle j hj))
        (by simpa [hc'] using hrest)⟩
      cases a with
      | fault i m => trivial
      | write m offset b => trivial
      | advance i reply =>
          have hcpu := (Bool.and_eq_true_iff.mp hfirst).2
          unfold Orderly
          dsimp only
          cases hi : c.cpu i with
          | entered m entry =>
              rw [hi] at hcpu
              simp only [Bool.and_eq_true, decide_eq_true_eq] at hcpu
              obtain ⟨⟨hcow, hfree⟩, hbehind⟩ := hcpu
              refine ⟨hcow, fun j => ?_, fun h1 j => ?_⟩
              · by_cases hj : j < k
                · exact hfree j hj
                · rw [hidle j (not_lt.mp hj)]
                  exact (Option.some_ne_none m).symm
              · by_cases hj : j < k
                · exact hbehind h1 j hj
                · rw [hidle j (not_lt.mp hj)]
                  exact id
          | _ => trivial

/-- Two CPUs take faults on two of three mappings of a frame at the same time and copy the page, one copy is written,
and the fault on the third mapping makes the frame writable. -/
def twoCopies : List Action :=
  [.fault 0 0, .fault 1 1, .advance 0 0, .advance 1 0, .advance 1 0x2000, .advance 0 0x3000, .advance 1 0, .advance 0 0,
    .advance 0 0, .write 0 5 0xff, .advance 1 0, .fault 0 2, .advance 0 0, .advance 0 0]

/-- Two CPUs with interleaved faults on one frame: both end up with bytes of their own. -/
theorem isolated_of_orderly_copy : ∃ c,
    exec step (start 3 0x1000 (fun _ => 0x1007) fun _ x => UInt8.ofNat x) twoCopies = some c ∧
    c.returned.length = 3 ∧ Isolated (fun x => UInt8.ofNat x) c := by
  obtain ⟨c, hc, hlen⟩ : ∃ c, exec step (start 3 0x1000 (fun _ => 0x1007) fun _ x => UInt8.ofNat x) twoCopies =
      some c ∧ c.returned.length = 3 := ⟨_, rfl, rfl⟩
  exact ⟨c, hc, hlen, isolated_of_orderly (by norm_num) _ (fun _ _ => by decide) _ _
    (guarded_of_orderlyTest (k := 2) (fun _ _ => rfl) (by decide +kernel)) hc⟩

/-- In general the steps do not isolate. Both CPUs of two mappings take their counts, 2 and then 1;
the first finds no page and restores its count while the second makes the frame writable, and at its
next fault the first finds count 1 and makes the frame writable too. -/
theorem two_writable : ¬ ∀ (n f : ℕ) (e : ℕ → ℕ) (page : ℕ → ℕ → UInt8) (as : List Action) (c : Config),
    (∀ m, m < n → HasFrame f (e m)) → exec step (start n f e page) as = some c →
      Isolated (page f) c := by
  intro hall
  have hrun : ∃ c, exec step (start 2 0x1000 (fun _ => 0x1007) fun _ _ => 0)
      [.fault 0 0, .fault 1 1, .advance 0 0, .advance 1 0, .advance 0 0, .advance 1 0, .advance 0 0,
        .fault 0 0, .advance 0 0, .advance 0 0] = some c ∧
      decode (c.pte 0) = some (0x1000, 7) ∧ decode (c.pte 1) = some (0x1000, 7) :=
    ⟨_, rfl, by decide, by decide⟩
  obtain ⟨c, hc, h0, h1⟩ := hrun
  have hiso := hall 2 0x1000 _ _ _ c (fun m _ => by decide) hc
  exact absurd (hiso.sole 0 1 _ _ _ h0 h1 (by decide) (by decide)) (by decide)

end PrometheusKernel.Cow.Concurrent
