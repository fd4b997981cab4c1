import PrometheusKernel.DemandPaging.FaultSteps

/-!
# Concurrent page faults: runs

Calls of `demand_paging_handle_fault` on one page table, any number of CPUs, in any order of their steps.

* In one region the lock keeps everything else out of the tables: each page is mapped once, by one call, to a frame of
  its own, and a call that returns 0 returns after that (`one_region_exclusive`).
* Different regions have different locks and share tables. A CPU that writes a new table into a slot that another one
  has filled in the meantime takes away what was mapped below it (`mapping_lost`). In the runs in which no such write
  happens no mapping is lost (`all_mapped_of_orderly`).
-/

namespace PrometheusKernel.DemandPaging

open ByteMem LinkedList Vmm TableTree Interleaving

/-! ### The calls -/

section guards

variable {A : Type} {n : ℕ} (allocPage allocFrame : Machine A → ℕ × Machine A) (pml4 : ℕ)

/-- The region is registered for demand paging, and the address lies in it. -/
structure Covers (s : State A) (r v : ℕ) : Prop where
  registered : Registered s pml4 r
  contains : (s.regions r).contains v = true
  flag : (s.regions r).flags &&& vmFlagDemandPaged ≠ 0

/-- Faults are taken in the region `r`. -/
def InRegion (r : ℕ) (c : Config A n) : FaultAction n → Prop
  | .fault _ virtAddr => Covers pml4 c.state r (alignDown virtAddr)
  | .advance _ => True

/-- Faults are taken in regions for demand paging. -/
def InRegions (c : Config A n) : FaultAction n → Prop
  | .fault _ virtAddr => ∃ r, Covers pml4 c.state r (alignDown virtAddr)
  | .advance _ => True

/-- Faults are taken in regions for demand paging, one call in each. -/
def InOwnRegions (c : Config A n) : FaultAction n → Prop
  | .fault _ virtAddr => ∃ r, Covers pml4 c.state r (alignDown virtAddr) ∧ ∀ v ∈ c.faulted, ¬ Covers pml4 c.state r v
  | .advance _ => True

/-- An allocation that a CPU is about to make returns a page. -/
def Phase.GetsPage (m : Machine A) : Phase → Prop
  | .allocate _ => (allocPage m).1 ≠ 0
  | .mapping _ _ (.extend _ _) => (allocFrame m).1 ≠ 0
  | _ => True

/-- Every allocation returns a page. -/
def GetsPages (c : Config A n) : FaultAction n → Prop
  | .fault _ _ => True
  | .advance i => (c.cpu i).GetsPage allocPage allocFrame c.state.machine

/-- A CPU that is about to allocate a table, or to link it, finds the slot empty. -/
def Phase.SlotEmpty (m : Mem) : Phase → Prop
  | .mapping call _ (.extend level table) => readEntry m table (levelIndex call.addr level) &&& flagPresent = 0
  | .mapping call _ (.link level table _) => readEntry m table (levelIndex call.addr level) &&& flagPresent = 0
  | _ => True

/-- A CPU that is about to link a table finds the slot empty. -/
def Phase.LinksEmpty (m : Mem) : Phase → Prop
  | .mapping call _ (.link level table _) => readEntry m table (levelIndex call.addr level) &&& flagPresent = 0
  | _ => True

/-- An address that the hardware can fault on. -/
def Canonical (v : ℕ) : Prop := v < 2 ^ 47 ∨ 2 ^ 64 - 2 ^ 47 ≤ v ∧ v < 2 ^ 64

/-- The slot that a table is linked into is still empty, and the addresses are canonical. -/
def Undisturbed (c : Config A n) : FaultAction n → Prop
  | .fault _ virtAddr => Canonical virtAddr
  | .advance i => (c.cpu i).LinksEmpty c.mem

/-- What the calls begin with: the regions are in order, the tables are a tree in held frames, and no page of a
region for demand paging is mapped yet. -/
structure Ready (P : Ownership A) (s : State A) (F T : Set ℕ) (L : ℕ → List ℕ) : Prop where
  regions : Inv s L
  owns : P.Owns s.machine F
  tables : Tables s.machine.mem {pml4} T
  subset : T ⊆ F
  unmapped : ∀ r v, Covers pml4 s r v → translate s.machine.mem pml4 v = none

end guards

section runs

variable {A : Type} {n : ℕ} {P : Ownership A} {allocPage allocFrame : Machine A → ℕ × Machine A} {Q : Set Call}
  {s : State A} {pml4 : ℕ} {c c' : Config A n} {F T F' T' : Set ℕ} {L : ℕ → List ℕ}

/-- Whether a region covers a page only depends on the regions. -/
theorem Covers.of_state {m : Machine A} {r v : ℕ} (h : Covers pml4 { s with machine := m } r v) :
    Covers pml4 s r v :=
  ⟨h.registered, h.contains, h.flag⟩

/-- No call has begun. -/
theorem inv_quiet (h : Ready pml4 P s F T L) (hQ : ∀ call ∈ Q, Covers pml4 s call.region call.addr) :
    FaultInv P Q s pml4 (quiet s n) F T where
  state := rfl
  owns := h.owns
  tables := h.tables
  subset := h.subset
  knows _ := trivial
  frames _ _ _ hcon := absurd hcon nofun
  settled _ he := absurd he List.not_mem_nil
  taken _ he := absurd he List.not_mem_nil
  kept _ he := absurd he List.not_mem_nil
  only call hcall hne := absurd (h.unmapped _ _ (hQ call hcall)) hne
  held _ he := absurd he List.not_mem_nil
  begun _ he := absurd he List.not_mem_nil
  calls _ hv := absurd hv List.not_mem_nil
  frames_nodup := List.nodup_nil
  pages_nodup := List.nodup_nil
  mapped_nodup := List.nodup_nil
  returned _ he := absurd he List.not_mem_nil
  active _ hv := absurd hv List.not_mem_nil

/-- A fault that asks for a page gets one. -/
theorem GetsPages.allocate {i : Fin n} {call : Call} (h : GetsPages allocPage allocFrame c (.advance i))
    (hi : c.cpu i = .allocate call) : (allocPage c.state.machine).1 ≠ 0 := by
  have hpage : (c.cpu i).GetsPage allocPage allocFrame c.state.machine := h
  rw [hi] at hpage
  exact hpage

/-- A fault that asks for a table gets one. -/
theorem GetsPages.extend {i : Fin n} {call : Call} {phys level table : ℕ}
    (h : GetsPages allocPage allocFrame c (.advance i)) (hi : c.cpu i = .mapping call phys (.extend level table)) :
    (allocFrame c.state.machine).1 ≠ 0 := by
  have hpage : (c.cpu i).GetsPage allocPage allocFrame c.state.machine := h
  rw [hi] at hpage
  exact hpage

/-- The calls of a step are calls of `Q`. -/
def CallsIn (Q : Set Call) (pml4 : ℕ) (c : Config A n) : FaultAction n → Prop
  | .fault _ virtAddr => ∃ r, Covers pml4 c.state r (alignDown virtAddr) ∧ ⟨alignDown virtAddr, r⟩ ∈ Q
  | .advance _ => True

/-- A step that links a table only into an empty slot keeps the invariant. -/
theorem FaultInv.step (h : FaultInv P Q s pml4 c F T) (hpage : P.Allocator allocPage) (hframe : P.Allocator allocFrame)
    (hphysical : P.Physical) (hQ : OneLock Q) (hregions : Inv s L) {a : FaultAction n} (hcalls : CallsIn Q pml4 c a)
    (hpages : GetsPages allocPage allocFrame c a)
    (hempty : ∀ i, a = .advance i → ∀ call phys level table frame,
      c.cpu i = .mapping call phys (.link level table frame) →
        readEntry c.mem table (levelIndex call.addr level) &&& flagPresent = 0)
    (hstep : faultStep allocPage allocFrame pml4 c a = some c') : ∃ F' T', FaultInv P Q s pml4 c' F' T' := by
  unfold faultStep at hstep
  cases a with
  | fault i virtAddr =>
      by_cases hi : c.cpu i = .idle
      · obtain ⟨r, hcovers, hcall⟩ := hcalls
        rw [h.state] at hcovers
        have hc := hcovers.of_state
        exact ⟨F, T, h.fault hregions hi hc.registered hc.contains hc.flag hcall ((if_pos hi).symm.trans hstep)⟩
      · exact absurd ((if_neg hi).symm.trans hstep) nofun
  | advance i =>
      rcases advance_cases hstep with ⟨call, locked, level, table, hi, rfl⟩ | ⟨call, hi, hfree, rfl⟩ | ⟨call, hi, rfl⟩ |
        ⟨call, phys, stage, hi, rfl⟩ | ⟨call, code, hi, rfl⟩
      · exact ⟨F, T, h.checkStep hi⟩
      · exact ⟨F, T, h.acquire hi hfree⟩
      · exact ⟨_, T, h.allocateStep hQ hpage hphysical hi (hpages.allocate hi)⟩
      · cases stage with
        | lookup level table => exact ⟨F, T, h.lookup hi⟩
        | extend level table => exact ⟨_, T, h.extend hframe hi (hpages.extend hi)⟩
        | link level table frame => exact ⟨F, _, h.link hi (hempty i rfl call phys level table frame hi)⟩
        | reread level table => exact ⟨F, T, h.reread hi⟩
        | write table => exact ⟨F, T, h.write hQ hi⟩
      · exact ⟨F, T, h.release hi⟩

/-! ### Different regions -/

/-- When all calls have returned 0, every page is mapped, and each to a frame of its own. -/
def AllMapped (pml4 : ℕ) (c : Config A n) : Prop :=
  (∀ i, c.cpu i = .idle) → (∀ e ∈ c.returned, e.2 = 0) →
    (∀ v ∈ c.faulted, ∃ frame flags, translate c.mem pml4 v = some (frame, flags)) ∧
      ∀ v ∈ c.faulted, ∀ w ∈ c.faulted, ∀ frame flags flags', translate c.mem pml4 v = some (frame, flags) →
        translate c.mem pml4 w = some (frame, flags') → v = w

/-- After the calls a page with a fault is mapped to the frame of one of them. -/
theorem FaultInv.exists_mapped (h : FaultInv P Q s pml4 c F T) (hidle : ∀ i, c.cpu i = .idle) {v : ℕ}
    (hv : v ∈ c.faulted) : ∃ e ∈ c.mapped, vpn e.1 = vpn v ∧ translate c.mem pml4 v = some (e.2, 7) := by
  rcases h.active v hv with ⟨code, hcode⟩ | ⟨i, hi⟩
  · obtain ⟨-, e, he, hvpn⟩ := h.returned _ hcode
    exact ⟨e, he, hvpn, (translate_eq_of_vpn _ _ hvpn.symm).trans (h.kept e he)⟩
  · rw [hidle i] at hi
    exact absurd hi nofun

/-- Pages that are mapped to one frame are one page. -/
theorem FaultInv.vpn_eq_of_frame (h : FaultInv P Q s pml4 c F T) {e e' : ℕ × ℕ} (he : e ∈ c.mapped)
    (he' : e' ∈ c.mapped) (heq : e.2 = e'.2) : e = e' :=
  List.inj_on_of_nodup_map h.frames_nodup (h.taken e he) (h.taken e' he') heq

/-- The calls on canonical addresses in regions for demand paging. -/
def canonicalCalls (pml4 : ℕ) (s : State A) : Set Call :=
  fun call => Covers pml4 s call.region call.addr ∧ Canonical call.addr ∧ call.addr % 4096 = 0

/-- The page of a canonical address is canonical. -/
theorem canonical_alignDown {v : ℕ} (h : Canonical v) : Canonical (alignDown v) ∧ alignDown v % 4096 = 0 := by
  refine ⟨?_, alignDown_mod v⟩
  unfold Canonical at h ⊢
  rw [alignDown_eq]
  omega

/-- Canonical pages are told apart by their page numbers. -/
theorem eq_of_vpn {v w : ℕ} (hv : Canonical v) (hw : Canonical w) (hv' : v % 4096 = 0) (hw' : w % 4096 = 0)
    (h : vpn v = vpn w) : v = w := by
  unfold Canonical at hv hw
  unfold vpn at h
  omega

/-- Faults at canonical addresses of one page take one lock. -/
theorem oneLock_canonicalCalls (hregions : Inv s L) : OneLock (canonicalCalls pml4 s) := by
  rintro ⟨v, r⟩ ⟨hcovers, hv, hv'⟩ ⟨w, q⟩ ⟨hcovers', hw, hw'⟩ hvpn
  obtain rfl : v = w := eq_of_vpn hv hw hv' hw' hvpn
  exact hregions.eq_of_contains hcovers.registered hcovers'.registered hcovers.contains hcovers'.contains

/-- In every run of calls in regions for demand paging that writes tables into empty slots only, no mapping is lost. -/
theorem all_mapped_of_orderly (hpage : P.Allocator allocPage) (hframe : P.Allocator allocFrame)
    (hphysical : P.Physical) (hready : Ready pml4 P s F T L) {as : List (FaultAction n)}
    (hg : Guarded (faultStep allocPage allocFrame pml4)
      (fun c a => (InRegions pml4 c a ∧ GetsPages allocPage allocFrame c a) ∧ Undisturbed c a) (quiet s n) as)
    (hexec : exec (faultStep allocPage allocFrame pml4) (quiet s n) as = some c) : AllMapped pml4 c := by
  have hinv : ∃ F' T', FaultInv P (canonicalCalls pml4 s) s pml4 c F' T' := by
    refine invariant (I := fun c => ∃ F' T', FaultInv P (canonicalCalls pml4 s) s pml4 c F' T') ?_
      ⟨F, T, inv_quiet hready fun call hcall => hcall.1⟩ hg hexec
    · rintro c a c' ⟨F', T', h⟩ ⟨⟨hregion, hpages⟩, hundisturbed⟩ hstep
      have hcalls : CallsIn (canonicalCalls pml4 s) pml4 c a := by
        cases a with
        | fault i virtAddr =>
            obtain ⟨r, hcovers⟩ := hregion
            refine ⟨r, hcovers, ?_, canonical_alignDown hundisturbed⟩
            rw [h.state] at hcovers
            exact hcovers.of_state
        | advance i => trivial
      refine h.step hpage hframe hphysical (oneLock_canonicalCalls hready.regions) hready.regions hcalls hpages
        (fun i ha call phys level table frame hi => ?_) hstep
      subst ha
      have hslot : (c.cpu i).LinksEmpty c.mem := hundisturbed
      rw [hi] at hslot
      exact hslot
  obtain ⟨F', T', h⟩ := hinv
  have hcanonical : ∀ v ∈ c.faulted, Canonical v ∧ v % 4096 = 0 := by
    intro v hv
    obtain ⟨call, hcall, rfl⟩ := h.calls v hv
    exact hcall.2
  intro hidle _
  constructor
  · intro v hv
    obtain ⟨e, -, -, ht⟩ := h.exists_mapped hidle hv
    exact ⟨e.2, 7, ht⟩
  · intro v hv w hw frame flags flags' htv htw
    obtain ⟨e, he, hvpn, ht⟩ := h.exists_mapped hidle hv
    obtain ⟨e', he', hvpn', ht'⟩ := h.exists_mapped hidle hw
    obtain ⟨rfl, -⟩ := Prod.mk.inj (Option.some.inj (htv.symm.trans ht))
    obtain ⟨heq, -⟩ := Prod.mk.inj (Option.some.inj (htw.symm.trans ht'))
    rw [h.vpn_eq_of_frame he he' heq] at hvpn
    exact eq_of_vpn (hcanonical v hv).1 (hcanonical w hw).1 (hcanonical v hv).2 (hcanonical w hw).2
      (hvpn.symm.trans hvpn')

/-! ### One region -/

/-- The calls in the region `r`. -/
def callsOf (pml4 : ℕ) (s : State A) (r : ℕ) : Set Call := fun call => call.region = r ∧ Covers pml4 s r call.addr

/-- Faults in one region take one lock. -/
theorem oneLock_callsOf (r : ℕ) : OneLock (callsOf pml4 s r) :=
  fun _ hcall _ hcall' _ => hcall.1.trans hcall'.1.symm

/-- While a CPU has the lock of the region, no other one is in `vmm_map_page`. -/
theorem FaultInv.slotEmpty_of_locked {r : ℕ} (h : FaultInv P (callsOf pml4 s r) s pml4 c F T) {i j : Fin n}
    {call : Call} (hl : Locked (callsOf pml4 s r) c i call) (hj : j ≠ i) (m : Mem) : (c.cpu j).SlotEmpty m := by
  have hk := h.knows j
  cases hphase : c.cpu j with
  | mapping call' phys stage =>
      rw [hphase] at hk
      have hregion : call'.region = call.region := hk.1.1.1.1.trans hl.1.1.1.symm
      have heq : some j = some i := hk.1.2.symm.trans ((congrArg c.holder hregion).trans hl.2)
      exact absurd (Option.some.inj heq) hj
  | _ => trivial

/-- A call that has found its table is not about to allocate one. -/
theorem afterTable_slotEmpty (call : Call) (phys level t : ℕ) (m : Mem) :
    (afterTable call phys level t).SlotEmpty m := by
  unfold afterTable
  split_ifs
  · trivial
  · trivial
  · trivial

/-- A check only moves its CPU, and not into `vmm_map_page`. -/
theorem checkStep_phase (c : Config A n) (i : Fin n) (call : Call) (locked : Bool) (level table : ℕ) :
    ∃ p, (checkStep c i call locked level table).cpu = Function.update c.cpu i p ∧
      (checkStep c i call locked level table).mem = c.mem ∧ p.SlotEmpty c.mem := by
  unfold checkStep
  dsimp only
  split_ifs
  all_goals exact ⟨_, rfl, rfl, trivial⟩

/-- So does the beginning of a call. -/
theorem fault_phase (i : Fin n) {virtAddr : ℕ} (h : fault pml4 c i virtAddr = some c') :
    ∃ p, c'.cpu = Function.update c.cpu i p ∧ c'.mem = c.mem ∧ p.SlotEmpty c.mem := by
  unfold fault at h
  dsimp only at h
  obtain ⟨⟨r, s'⟩, hfind, h⟩ := Option.bind_eq_some_iff.mp h
  have hmachine := (findRegion_keeps hfind).1
  dsimp only at h
  split_ifs at h
  all_goals
    rw [← Option.some.inj h]
    exact ⟨_, rfl, congrArg Machine.mem hmachine, trivial⟩

/-- Slots that are found empty in `vmm_map_page` stay so until the table is linked. -/
theorem FaultInv.slotEmpty_step {r : ℕ} (h : FaultInv P (callsOf pml4 s r) s pml4 c F T)
    (hframe : P.Allocator allocFrame) (hempty : ∀ j, (c.cpu j).SlotEmpty c.mem) {i : Fin n}
    (hpages : GetsPages allocPage allocFrame c (.advance i)) (hstep : advance allocPage allocFrame pml4 c i = some c') :
    ∀ j, (c'.cpu j).SlotEmpty c'.mem := by
  have hk := h.knows i
  have hi' := hempty i
  -- a CPU that goes on and leaves the memory alone
  have hgo : ∀ p : Phase, p.SlotEmpty c.mem → ∀ j, (Function.update c.cpu i p j).SlotEmpty c.mem :=
    fun p hp => forall_update (P := fun _ (q : Phase) => q.SlotEmpty c.mem) hp fun j _ => hempty j
  -- a CPU that has the lock
  have hothers : ∀ {call : Call}, Locked (callsOf pml4 s r) c i call → ∀ (m : Mem) (p : Phase), p.SlotEmpty m →
      ∀ j, (Function.update c.cpu i p j).SlotEmpty m :=
    fun hl m p hp => forall_update (P := fun _ (q : Phase) => q.SlotEmpty m) hp
      fun j hj => h.slotEmpty_of_locked hl hj m
  rcases advance_cases hstep with ⟨call, locked, level, table, hi, rfl⟩ | ⟨call, hi, -, rfl⟩ | ⟨call, hi, rfl⟩ |
    ⟨call, phys, stage, hi, rfl⟩ | ⟨call, code, hi, rfl⟩
  · obtain ⟨p, hcpu, hmem, hp⟩ := checkStep_phase c i call locked level table
    rw [hcpu, hmem]
    exact hgo p hp
  · exact hgo _ trivial
  · rw [hi] at hk
    have h0 := hpages.allocate hi
    unfold DemandPaging.allocateStep
    dsimp only
    rw [if_neg h0]
    exact hothers hk.1 _ _ trivial
  · rw [hi] at hk hi'
    cases stage with
    | lookup level table =>
        unfold mapStep
        dsimp only
        by_cases hpresent : readEntry c.mem table (levelIndex call.addr level) &&& flagPresent = 0
        · rw [if_pos hpresent]
          exact hgo _ hpresent
        · rw [if_neg hpresent]
          exact hgo _ (afterTable_slotEmpty _ _ _ _ _)
    | extend level table =>
        have h0 := hpages.extend hi
        have htable : table ∈ F := h.subset (hk.2.2.2.2.mem h.tables)
        have hread : readEntry (clearTable (allocFrame c.state.machine).2 (allocFrame c.state.machine).1).mem table
            (levelIndex call.addr level) = readEntry c.mem table (levelIndex call.addr level) :=
          readEntry_congr (levelIndex_lt _ _) fun x hx => clear_apply_of_held hframe h.owns h0 htable hx
        unfold mapStep
        dsimp only
        rw [if_neg h0]
        exact hothers hk.1 _ _ ((congrArg (· &&& flagPresent) hread).trans hi')
    | link level table frame => exact hothers hk.1 _ _ trivial
    | reread level table => exact hgo _ (afterTable_slotEmpty _ _ _ _ _)
    | write table => exact hothers hk.1 _ _ trivial
  · exact hgo _ trivial

/-- A step of a call in one region leaves the slots empty that other calls are about to fill. -/
theorem FaultInv.slotEmpty_faultStep {r : ℕ} (h : FaultInv P (callsOf pml4 s r) s pml4 c F T)
    (hframe : P.Allocator allocFrame) (hempty : ∀ j, (c.cpu j).SlotEmpty c.mem) {a : FaultAction n}
    (hpages : GetsPages allocPage allocFrame c a) (hstep : faultStep allocPage allocFrame pml4 c a = some c') :
    ∀ j, (c'.cpu j).SlotEmpty c'.mem := by
  cases a with
  | advance i => exact h.slotEmpty_step hframe hempty hpages hstep
  | fault i virtAddr =>
      have hi : c.cpu i = .idle := by
        by_contra hi
        exact absurd ((if_neg hi).symm.trans hstep) nofun
      obtain ⟨p, hcpu, hmem, hp⟩ := fault_phase i ((if_pos hi).symm.trans hstep)
      rw [hcpu, hmem]
      exact forall_update (P := fun _ (q : Phase) => q.SlotEmpty c.mem) hp fun j _ => hempty j

/-- What has been mapped stays on record. -/
theorem faultStep_mapped {a : FaultAction n} (hstep : faultStep allocPage allocFrame pml4 c a = some c') :
    ∀ e ∈ c.mapped, e ∈ c'.mapped := by
  unfold faultStep at hstep
  cases a with
  | fault i virtAddr =>
      have hi : c.cpu i = .idle := by
        by_contra hi
        exact absurd ((if_neg hi).symm.trans hstep) nofun
      rw [fault_mapped i ((if_pos hi).symm.trans hstep)]
      exact fun _ he => he
  | advance i =>
      rcases advance_cases hstep with ⟨call, locked, level, table, -, rfl⟩ | ⟨call, -, -, rfl⟩ | ⟨call, -, rfl⟩ |
        ⟨call, phys, stage, -, rfl⟩ | ⟨call, code, -, rfl⟩
      · rw [checkStep_mapped]
        exact fun _ he => he
      · exact fun _ he => he
      · rw [allocateStep_mapped]
        exact fun _ he => he
      · exact mapStep_mapped c i call phys stage
      · exact fun _ he => he

/-- Every page that is mapped was mapped by one call and is mapped to the frame that the call took, and a call that
has returned 0 has done so after that; when all calls have returned, every page is mapped, and as many frames have been
taken as there are pages. -/
structure Exclusive (pml4 : ℕ) (c : Config A n) : Prop where
  once : (c.mapped.map fun e => vpn e.1).Nodup
  kept : ∀ e ∈ c.mapped, translate c.mem pml4 e.1 = some (e.2, 7)
  frames : (c.taken.map Prod.snd).Nodup ∧ ∀ e ∈ c.mapped, e ∈ c.taken
  returned : ∀ e ∈ c.returned, e.2 = 0 ∧ ∃ e' ∈ c.mapped, vpn e'.1 = vpn e.1
  pages : (∀ i, c.cpu i = .idle) → ∀ v ∈ c.faulted, ∃! e, e ∈ c.mapped ∧ vpn e.1 = vpn v
  count : (∀ i, c.cpu i = .idle) → c.taken.length = (c.faulted.map vpn).toFinset.card

/-- Under the invariant every page is mapped once. -/
theorem FaultInv.exclusive (h : FaultInv P Q s pml4 c F T) : Exclusive pml4 c where
  once := h.mapped_nodup
  kept := h.kept
  frames := ⟨h.frames_nodup, h.taken⟩
  returned := h.returned
  pages hidle v hv := by
    obtain ⟨e, he, hvpn, -⟩ := h.exists_mapped hidle hv
    refine ⟨e, ⟨he, hvpn⟩, fun e' he' => ?_⟩
    exact List.inj_on_of_nodup_map h.mapped_nodup he'.1 he (he'.2.trans hvpn.symm)
  count hidle := by
    -- the pages that frames were taken for are the pages of the calls
    have hset : (c.taken.map fun e => vpn e.1).toFinset = (c.faulted.map vpn).toFinset := by
      ext k
      simp only [List.mem_toFinset, List.mem_map]
      constructor
      · rintro ⟨e, he, rfl⟩
        exact ⟨e.1, h.begun e he, rfl⟩
      · rintro ⟨v, hv, rfl⟩
        obtain ⟨e, he, hvpn, -⟩ := h.exists_mapped hidle hv
        exact ⟨e, h.taken e he, hvpn⟩
    rw [← hset, List.toFinset_card_of_nodup h.pages_nodup, List.length_map]

/-- What has been mapped stays in the record. -/
theorem exec_mapped {bs : List (FaultAction n)}
    (hexec : exec (faultStep allocPage allocFrame pml4) c bs = some c') : ∀ e ∈ c.mapped, e ∈ c'.mapped := by
  have hg : Guarded (faultStep allocPage allocFrame pml4) (fun _ _ => True) c bs :=
    guarded_of_forall (fun _ _ => trivial) c bs
  exact invariant (I := fun c' : Config A n => ∀ e ∈ c.mapped, e ∈ c'.mapped)
    (fun c₁ a c₂ h _ hstep e he => faultStep_mapped hstep e (h e he)) (fun _ he => he) hg hexec

/-- In one region, in every interleaving: each page is mapped once, by one call, to a frame of its own, and stays
mapped. -/
theorem one_region_exclusive (hpage : P.Allocator allocPage) (hframe : P.Allocator allocFrame)
    (hphysical : P.Physical) (hready : Ready pml4 P s F T L) {r : ℕ} {as bs : List (FaultAction n)}
    (hg : Guarded (faultStep allocPage allocFrame pml4)
      (fun c a => InRegion pml4 r c a ∧ GetsPages allocPage allocFrame c a) (quiet s n) (as ++ bs))
    (hexec : exec (faultStep allocPage allocFrame pml4) (quiet s n) as = some c)
    (hexec' : exec (faultStep allocPage allocFrame pml4) c bs = some c') :
    Exclusive pml4 c ∧ Exclusive pml4 c' ∧
      ∀ v, Covers pml4 s r v → ∀ entry, translate c.mem pml4 v = some entry → translate c'.mem pml4 v = some entry := by
  have hinv : ∀ {ops : List (FaultAction n)} {c : Config A n}, Guarded (faultStep allocPage allocFrame pml4)
      (fun c a => InRegion pml4 r c a ∧ GetsPages allocPage allocFrame c a) (quiet s n) ops →
      exec (faultStep allocPage allocFrame pml4) (quiet s n) ops = some c →
      ∃ F' T', FaultInv P (callsOf pml4 s r) s pml4 c F' T' ∧ ∀ j, (c.cpu j).SlotEmpty c.mem := by
    intro ops c hg hexec
    have hquiet : ∃ F' T', FaultInv P (callsOf pml4 s r) s pml4 (quiet s n) F' T' ∧
        ∀ j, ((quiet s n).cpu j).SlotEmpty (quiet s n).mem :=
      ⟨F, T, inv_quiet hready fun call hcall => hcall.1 ▸ hcall.2, fun _ => trivial⟩
    refine invariant (I := fun c => ∃ F' T', FaultInv P (callsOf pml4 s r) s pml4 c F' T' ∧
      ∀ j, (c.cpu j).SlotEmpty c.mem) ?_ hquiet hg hexec
    rintro c a c' ⟨F', T', h, hempty⟩ ⟨hregion, hpages⟩ hstep
    have hcalls : CallsIn (callsOf pml4 s r) pml4 c a := by
      cases a with
      | fault i virtAddr =>
          refine ⟨r, hregion, rfl, ?_⟩
          have hcovers : Covers pml4 c.state r (alignDown virtAddr) := hregion
          rw [h.state] at hcovers
          exact hcovers.of_state
      | advance i => trivial
    have hlink : ∀ i, a = .advance i → ∀ call phys level table frame,
        c.cpu i = .mapping call phys (.link level table frame) →
        readEntry c.mem table (levelIndex call.addr level) &&& flagPresent = 0 := by
      intro i _ call phys level table frame hi
      have hslot := hempty i
      rw [hi] at hslot
      exact hslot
    obtain ⟨F'', T'', h'⟩ := h.step hpage hframe hphysical (oneLock_callsOf r) hready.regions hcalls hpages hlink hstep
    exact ⟨F'', T'', h', h.slotEmpty_faultStep hframe hempty hpages hstep⟩
  obtain ⟨F₁, T₁, h, -⟩ := hinv (guarded_append hg) hexec
  obtain ⟨F₂, T₂, h', -⟩ := hinv hg ((exec_append hexec).trans hexec')
  refine ⟨h.exclusive, h'.exclusive, fun v hv entry ht => ?_⟩
  -- the page was mapped by a call, which is still on record
  obtain ⟨e, he, hvpn⟩ := h.only ⟨v, r⟩ ⟨rfl, hv⟩ (by rw [ht]; exact nofun)
  have hkept := h.kept e he
  have hkept' := h'.kept e (exec_mapped hexec' e he)
  rw [translate_eq_of_vpn _ _ hvpn] at hkept hkept'
  exact hkept'.trans (hkept.symm.trans ht)

end runs

/-! ### Two regions and two CPUs -/

section sample

/-- Two regions side by side, whose pages share a page table that is not there yet. -/
def neighbours : State (List ℕ) :=
  { machine := ⟨hang (hang (fun _ => 0) 0x1000 0 0x2000) 0x2000 0 0x3000, [0x4000, 0x5000, 0x6000, 0x7000]⟩
    addressSpaces := fun i => if i = 0 then ⟨0x1000, 0x100⟩ else ⟨0, 0⟩
    addressSpaceCount := 1
    regions := fun r => if r = 0x100 then ⟨0x400000, 0x402000, 1, 0x200⟩ else ⟨0x402000, 0x404000, 1, 0⟩ }

/-- The regions are those of `neighbours`. -/
def SameRegions (s : State (List ℕ)) : Prop :=
  s.addressSpaceCount = 1 ∧ (s.addressSpaces 0).pml4 = 0x1000 ∧ (s.addressSpaces 0).regions = 0x100 ∧
    s.regions 0x100 = ⟨0x400000, 0x402000, 1, 0x200⟩ ∧ s.regions 0x200 = ⟨0x402000, 0x404000, 1, 0⟩

instance (s : State (List ℕ)) : Decidable (SameRegions s) :=
  inferInstanceAs (Decidable (_ ∧ _ ∧ _ ∧ _ ∧ _))

/-- The two regions are on one list. -/
theorem SameRegions.isList {s : State (List ℕ)} (h : SameRegions s) : IsList s.next [0x100, 0x200] 0x100 := by
  obtain ⟨-, -, -, h₁, h₂⟩ := h
  refine ⟨rfl, by decide, ?_⟩
  show IsList s.next [0x200] (s.regions 0x100).next
  rw [h₁]
  refine ⟨rfl, by decide, ?_⟩
  show (s.regions 0x200).next = 0
  rw [h₂]

/-- The slots and regions, and where the lists are. -/
theorem SameRegions.covers {s : State (List ℕ)} (h : SameRegions s) {r v : ℕ} (hr : r ∈ [0x100, 0x200])
    (hv : (s.regions r).contains v = true) : Covers 0x1000 s r v := by
  obtain ⟨hcount, hpml4, hhead, h₁, h₂⟩ := id h
  refine ⟨⟨0, by omega, hpml4, [0x100, 0x200], hhead ▸ h.isList, hr⟩, hv, ?_⟩
  obtain rfl | rfl : r = 0x100 ∨ r = 0x200 := by simpa using hr
  · rw [h₁]
    decide
  · rw [h₂]
    decide

/-- The state with the two regions satisfies the invariant. -/
theorem inv_neighbours : Inv neighbours fun i => if i = 0 then [0x100, 0x200] else [] := by
  have hcases : ∀ i, ∀ r ∈ (if i = 0 then [0x100, 0x200] else ([] : List ℕ)), i = 0 ∧ (r = 0x100 ∨ r = 0x200) := by
    intro i r hr
    by_cases hi : i = 0
    · rw [if_pos hi] at hr
      exact ⟨hi, by simpa using hr⟩
    · rw [if_neg hi] at hr
      exact absurd hr List.not_mem_nil
  have hsame : SameRegions neighbours := by decide
  refine ⟨by decide, ?_, ?_, ?_, ?_, ?_, ?_, ?_, ?_⟩
  · intro i hi j hj _
    have hone : neighbours.addressSpaceCount = 1 := rfl
    omega
  · intro i hi
    obtain rfl : i = 0 := Nat.lt_one_iff.mp hi
    exact hsame.isList
  · exact fun i hi => if_neg (Nat.one_le_iff_ne_zero.mp hi)
  · intro i hi h0
    obtain rfl : i = 0 := Nat.lt_one_iff.mp hi
    exact absurd h0 (by decide)
  · intro i j hne r hi hj
    exact hne ((hcases i r hi).1.trans (hcases j r hj).1.symm)
  · intro i r hr
    obtain ⟨-, rfl | rfl⟩ := hcases i r hr <;> decide
  · intro i r hr
    obtain ⟨-, rfl | rfl⟩ := hcases i r hr <;> decide
  · intro i
    by_cases hi : i = 0
    · rw [if_pos hi]
      refine List.pairwise_pair.mpr fun v hv => ?_
      simp only [Region.contains, Bool.and_eq_true, decide_eq_true_eq] at hv
      have h1 : (neighbours.regions 0x100).stop = 0x402000 := rfl
      have h2 : (neighbours.regions 0x200).start = 0x402000 := rfl
      omega
    · rw [if_neg hi]
      exact List.Pairwise.nil

/-- The tables above the missing page table. -/
theorem ready_neighbours : Ready 0x1000 stack neighbours (Set.insert 0x3000 (Set.insert 0x2000 {0x1000}))
    (Set.insert 0x3000 (Set.insert 0x2000 {0x1000})) fun i => if i = 0 then [0x100, 0x200] else [] := by
  have hframe : ∀ f ∈ Set.insert 0x3000 (Set.insert 0x2000 {0x1000}), IsFrame f := by
    rintro f (rfl | rfl | rfl)
    · exact ⟨by decide, by decide, by decide⟩
    · exact ⟨by decide, by decide, by decide⟩
    · exact ⟨by decide, by decide, by decide⟩
  have hf₁ : IsFrame 0x1000 := hframe _ (Or.inr (Or.inr rfl))
  have hf₂ : IsFrame 0x2000 := hframe _ (Or.inr (Or.inl rfl))
  have hf₃ : IsFrame 0x3000 := hframe _ (Or.inl rfl)
  have hroot : (0x1000 : ℕ) ∈ ({0x1000} : Set ℕ) := rfl
  obtain ⟨ht₀, hnone₀⟩ := tables_root (m := fun _ => 0) hf₁ fun _ _ => rfl
  obtain ⟨ht₁, hwalk₁, -, hsame₁⟩ := ht₀.hang (i := 0) hroot (p := []) (by decide) rfl (by decide)
    (child_clear (fun _ _ => rfl) _) hf₂ (by decide) fun _ _ => rfl
  obtain ⟨ht₂, -, -, hsame₂⟩ := ht₁.hang (i := 0) hroot (by decide) hwalk₁ (by decide)
    (child_clear (fun x hx => hang_apply_new hf₁ (by decide) hf₂ (by decide) (fun _ _ => rfl) hx) _) hf₃
    (by rintro (h | h) <;> exact absurd h (by decide))
    fun x hx => store_slot_apply (by decide) fun hx' => absurd (hf₃.eq_of_inPage hf₁ hx hx') (by decide)
  refine ⟨inv_neighbours, ⟨hframe, by decide, fun f hf => ?_⟩, ht₂, subset_rfl, fun r v _ => ?_⟩
  · have hcases : f = 0x4000 ∨ f = 0x5000 ∨ f = 0x6000 ∨ f = 0x7000 := by simpa [neighbours] using hf
    rcases hcases with rfl | rfl | rfl | rfl
    all_goals
      refine ⟨⟨by decide, by decide, by decide⟩, ?_⟩
      rintro (h | h | h) <;> exact absurd h (by decide)
  · exact (hsame₂ _ hroot v).trans ((hsame₁ _ hroot v).trans (hnone₀ v))

/-- `Covers` as a test. -/
def coversTest (s : State (List ℕ)) (r v : ℕ) : Bool := decide (SameRegions s) && (s.regions r).contains v

/-- The test of a region is sound. -/
theorem covers_of_coversTest {s : State (List ℕ)} {r v : ℕ} (hr : r ∈ [0x100, 0x200])
    (h : coversTest s r v = true) : Covers 0x1000 s r v := by
  obtain ⟨hsame, hv⟩ := (Bool.and_eq_true _ _).mp h
  exact (of_decide_eq_true hsame).covers hr hv

/-- Faults in regions of their own are faults in regions. -/
theorem InOwnRegions.inRegions {c : Config (List ℕ) 2} {a : FaultAction 2} (h : InOwnRegions 0x1000 c a) :
    InRegions 0x1000 c a := by
  cases a with
  | fault i virtAddr =>
      obtain ⟨r, hcovers, -⟩ := h
      exact ⟨r, hcovers⟩
  | advance i => trivial

/-- `InRegion` as a test. -/
def inRegionTest (r : ℕ) (c : Config (List ℕ) 2) : FaultAction 2 → Bool
  | .fault _ virtAddr => coversTest c.state r (alignDown virtAddr)
  | .advance _ => true

/-- `InOwnRegions` as a test. -/
def inOwnRegionsTest (c : Config (List ℕ) 2) : FaultAction 2 → Bool
  | .fault _ virtAddr => [0x100, 0x200].any fun r =>
      coversTest c.state r (alignDown virtAddr) && c.faulted.all fun v => !(c.state.regions r).contains v
  | .advance _ => true

/-- The test of a fault is sound. -/
theorem inRegion_of_test {r : ℕ} (hr : r ∈ [0x100, 0x200]) {c : Config (List ℕ) 2} {a : FaultAction 2}
    (h : inRegionTest r c a = true) : InRegion 0x1000 r c a := by
  cases a with
  | fault i virtAddr => exact covers_of_coversTest hr h
  | advance i => trivial

/-- The test of a fault is sound. -/
theorem inOwnRegions_of_test {c : Config (List ℕ) 2} {a : FaultAction 2} (h : inOwnRegionsTest c a = true) :
    InOwnRegions 0x1000 c a := by
  cases a with
  | fault i virtAddr =>
      obtain ⟨r, hr, h⟩ := List.any_eq_true.mp h
      obtain ⟨hcovers, hothers⟩ := (Bool.and_eq_true _ _).mp h
      refine ⟨r, covers_of_coversTest hr hcovers, fun v hv hcon => ?_⟩
      have hnot := List.all_eq_true.mp hothers v hv
      rw [hcon.contains] at hnot
      exact absurd hnot (by decide)
  | advance i => trivial

instance {A : Type} (allocPage allocFrame : Machine A → ℕ × Machine A) (m : Machine A) :
    (p : Phase) → Decidable (p.GetsPage allocPage allocFrame m)
  | .idle | .check _ _ _ _ | .acquire _ | .release _ _ => instDecidableTrue
  | .allocate _ => inferInstanceAs (Decidable ((allocPage m).1 ≠ 0))
  | .mapping _ _ (.extend _ _) => inferInstanceAs (Decidable ((allocFrame m).1 ≠ 0))
  | .mapping _ _ (.lookup _ _) | .mapping _ _ (.link _ _ _) | .mapping _ _ (.reread _ _) | .mapping _ _ (.write _) =>
      instDecidableTrue

instance (m : Mem) : (p : Phase) → Decidable (p.LinksEmpty m)
  | .idle | .check _ _ _ _ | .acquire _ | .release _ _ | .allocate _ => instDecidableTrue
  | .mapping call _ (.link level table _) =>
      inferInstanceAs (Decidable (readEntry m table (levelIndex call.addr level) &&& flagPresent = 0))
  | .mapping _ _ (.lookup _ _) | .mapping _ _ (.extend _ _) | .mapping _ _ (.reread _ _) | .mapping _ _ (.write _) =>
      instDecidableTrue

instance (c : Config (List ℕ) 2) : (a : FaultAction 2) → Decidable (GetsPages popFree popFree c a)
  | .fault _ _ => instDecidableTrue
  | .advance i => inferInstanceAs (Decidable ((c.cpu i).GetsPage popFree popFree c.state.machine))

instance (c : Config (List ℕ) 2) : (a : FaultAction 2) → Decidable (Undisturbed c a)
  | .fault _ virtAddr =>
      inferInstanceAs (Decidable (virtAddr < 2 ^ 47 ∨ 2 ^ 64 - 2 ^ 47 ≤ virtAddr ∧ virtAddr < 2 ^ 64))
  | .advance i => inferInstanceAs (Decidable ((c.cpu i).LinksEmpty c.mem))

/-- CPUs take turns: each entry is a CPU and the number of its steps. -/
def turns (l : List (Fin 2 × ℕ)) : List (FaultAction 2) := l.flatMap fun e => List.replicate e.2 (.advance e.1)

/-- CPU 1 finds the page table that CPU 0 has linked. -/
def orderly : List (FaultAction 2) :=
  .fault 0 0x400123 :: .fault 1 0x402000 :: turns [(0, 13), (1, 10), (0, 3), (1, 5)]

/-- Both CPUs find no page table, and the one that CPU 1 links replaces the one of CPU 0. -/
def racing : List (FaultAction 2) :=
  .fault 0 0x400123 :: .fault 1 0x402000 :: turns [(0, 11), (1, 11), (0, 5), (1, 5)]

/-- Both CPUs fault on one page, and CPU 1 waits for the lock. -/
def samePage : List (FaultAction 2) := .fault 0 0x400123 :: .fault 1 0x400fff :: turns [(1, 3), (0, 16)]

/-- CPU 1 finds that page mapped, and faults on the next one. -/
def nextPage : List (FaultAction 2) := (turns [(1, 6)]).append (.fault 1 0x401000 :: turns [(1, 15)])

/-- Two faults in two regions, one after the other at their tables: both pages are mapped. -/
theorem all_mapped_neighbours : ∃ c, exec (faultStep popFree popFree 0x1000) (quiet neighbours 2) orderly = some c ∧
    c.faulted = [0x402000, 0x400000] ∧ (∀ e ∈ c.returned, e.2 = 0) ∧ AllMapped 0x1000 c := by
  have hrun : (exec (faultStep popFree popFree 0x1000) (quiet neighbours 2) orderly).map
      (fun c => (c.faulted, decide (∀ e ∈ c.returned, e.2 = 0))) = some ([0x402000, 0x400000], true) := by
    delta faultStep advance mapStep
    simp only [clearTable_eq]
    decide +kernel
  obtain ⟨c, hexec, hvals⟩ := Option.map_eq_some_iff.mp hrun
  obtain ⟨hfaulted, hreturned⟩ := Prod.mk.inj hvals
  refine ⟨c, hexec, hfaulted, of_decide_eq_true hreturned, all_mapped_of_orderly (P := stack) popFree_allocator
    popFree_allocator stack_physical ready_neighbours (guarded_of_guardedBy (t := fun c a => inOwnRegionsTest c a &&
      decide (GetsPages popFree popFree c a ∧ Undisturbed c a)) (fun c a h => ?_) ?_) hexec⟩
  · obtain ⟨hregion, hrest⟩ := (Bool.and_eq_true _ _).mp h
    obtain ⟨hpages, hundisturbed⟩ := of_decide_eq_true hrest
    exact ⟨⟨(inOwnRegions_of_test hregion).inRegions, hpages⟩, hundisturbed⟩
  · delta faultStep advance mapStep
    simp only [clearTable_eq]
    decide +kernel

/-- Two faults that add one table lose a mapping. -/
theorem mapping_lost :
    ¬ ∀ (P : Ownership (List ℕ)) (allocPage allocFrame : Machine (List ℕ) → ℕ × Machine (List ℕ)) (s : State (List ℕ))
      (pml4 n : ℕ) (F T : Set ℕ) (L : ℕ → List ℕ) (as : List (FaultAction n)) (c : Config (List ℕ) n),
      P.Allocator allocPage → P.Allocator allocFrame → P.Physical → Ready pml4 P s F T L →
        Guarded (faultStep allocPage allocFrame pml4)
          (fun c a => InOwnRegions pml4 c a ∧ GetsPages allocPage allocFrame c a) (quiet s n) as →
        exec (faultStep allocPage allocFrame pml4) (quiet s n) as = some c → AllMapped pml4 c := by
  intro hall
  have hrun : (exec (faultStep popFree popFree 0x1000) (quiet neighbours 2) racing).map
      (fun c => (decide (∀ i, c.cpu i = .idle), decide (∀ e ∈ c.returned, e.2 = 0), c.faulted,
        Vmm.translate c.mem 0x1000 0x400000)) = some (true, true, [0x402000, 0x400000], none) := by
    delta faultStep advance mapStep
    simp only [clearTable_eq]
    decide +kernel
  obtain ⟨c, hexec, hvals⟩ := Option.map_eq_some_iff.mp hrun
  obtain ⟨hidle, hvals⟩ := Prod.mk.inj hvals
  obtain ⟨hreturned, hvals⟩ := Prod.mk.inj hvals
  obtain ⟨hfaulted, hlost⟩ := Prod.mk.inj hvals
  have hg : Guarded (faultStep popFree popFree 0x1000)
      (fun c a => InOwnRegions 0x1000 c a ∧ GetsPages popFree popFree c a) (quiet neighbours 2) racing := by
    refine guarded_of_guardedBy (t := fun c a => inOwnRegionsTest c a && decide (GetsPages popFree popFree c a))
      (fun c a h => ?_) ?_
    · obtain ⟨hregion, hpages⟩ := (Bool.and_eq_true _ _).mp h
      exact ⟨inOwnRegions_of_test hregion, of_decide_eq_true hpages⟩
    · delta faultStep advance mapStep
      simp only [clearTable_eq]
      decide +kernel
  obtain ⟨hmapped, -⟩ := hall stack popFree popFree neighbours 0x1000 2 _ _ _ racing c popFree_allocator
    popFree_allocator stack_physical ready_neighbours hg hexec (of_decide_eq_true hidle) (of_decide_eq_true hreturned)
  obtain ⟨frame, flags, ht⟩ := hmapped 0x400000 (hfaulted ▸ List.mem_cons_of_mem _ List.mem_cons_self)
  exact absurd (hlost.symm.trans ht) nofun

/-- Two faults on one page, and then one on the next. -/
theorem one_region_exclusive_sample : ∃ c c',
    exec (faultStep popFree popFree 0x1000) (quiet neighbours 2) samePage = some c ∧
    exec (faultStep popFree popFree 0x1000) c nextPage = some c' ∧ c'.taken = [(0x401000, 0x6000), (0x400000, 0x4000)] ∧
      Exclusive 0x1000 c ∧ Exclusive 0x1000 c' ∧ ∀ v, Covers 0x1000 neighbours 0x100 v →
        ∀ entry, Vmm.translate c.mem 0x1000 v = some entry → Vmm.translate c'.mem 0x1000 v = some entry := by
  have hrun : (exec (faultStep popFree popFree 0x1000) (quiet neighbours 2) (samePage ++ nextPage)).map Config.taken =
      some [(0x401000, 0x6000), (0x400000, 0x4000)] := by
    delta faultStep advance mapStep
    simp only [clearTable_eq]
    decide +kernel
  obtain ⟨c', hexec', htaken⟩ := Option.map_eq_some_iff.mp hrun
  obtain ⟨c, hexec, hrest⟩ := exec_of_append hexec'
  refine ⟨c, c', hexec, hrest, htaken, one_region_exclusive (P := stack) popFree_allocator popFree_allocator
    stack_physical ready_neighbours (guarded_of_guardedBy (t := fun c a => inRegionTest 0x100 c a &&
      decide (GetsPages popFree popFree c a)) (fun c a h => ?_) ?_) hexec hrest⟩
  · obtain ⟨hregion, hpages⟩ := (Bool.and_eq_true _ _).mp h
    exact ⟨inRegion_of_test List.mem_cons_self hregion, of_decide_eq_true hpages⟩
  · delta faultStep advance mapStep
    simp only [clearTable_eq]
    decide +kernel

end sample
end PrometheusKernel.DemandPaging
