import PrometheusKernel.DemandPaging.Faults

/-!
# Concurrent page faults: one step

Each step of `demand_paging_handle_fault` keeps `FaultInv`: the steps that write no memory (`FaultInv.settle`), the two
allocations (`FaultInv.allocate`, `FaultInv.extend`), a table linked into a slot that is still empty
(`FaultInv.link`), and the page mapped (`FaultInv.write`). `FaultInv.step` puts them together.
-/

namespace PrometheusKernel.DemandPaging

open ByteMem LinkedList Vmm TableTree Interleaving

variable {A : Type} {n : ℕ} {P : Ownership A} {allocPage allocFrame : Machine A → ℕ × Machine A} {Q : Set Call}
  {s : State A} {pml4 : ℕ} {c : Config A n} {F T F' T' : Set ℕ} {i : Fin n}

/-- What a step of a CPU can be. -/
theorem advance_cases {c' : Config A n} (hstep : advance allocPage allocFrame pml4 c i = some c') :
    (∃ call locked level table, c.cpu i = .check call locked level table ∧
        c' = checkStep c i call locked level table) ∨
      (∃ call, c.cpu i = .acquire call ∧ c.holder call.region = none ∧
        c' = { c.goOn i (.check call true 0 pml4) with holder := Function.update c.holder call.region (some i) }) ∨
      (∃ call, c.cpu i = .allocate call ∧ c' = allocateStep allocPage pml4 c i call) ∨
      (∃ call phys stage, c.cpu i = .mapping call phys stage ∧ c' = mapStep allocFrame c i call phys stage) ∨
      ∃ call code, c.cpu i = .release call code ∧
        c' = { c.leave i call.addr code with holder := Function.update c.holder call.region none } := by
  unfold advance at hstep
  cases hi : c.cpu i with
  | idle =>
      rw [hi] at hstep
      exact absurd hstep nofun
  | check call locked level table =>
      rw [hi] at hstep
      exact Or.inl ⟨call, locked, level, table, rfl, (Option.some.inj hstep).symm⟩
  | acquire call =>
      rw [hi] at hstep
      by_cases hfree : c.holder call.region = none
      · exact Or.inr (Or.inl ⟨call, rfl, hfree, (Option.some.inj ((if_pos hfree).symm.trans hstep)).symm⟩)
      · exact absurd ((if_neg hfree).symm.trans hstep) nofun
  | allocate call =>
      rw [hi] at hstep
      exact Or.inr (Or.inr (Or.inl ⟨call, rfl, (Option.some.inj hstep).symm⟩))
  | mapping call phys stage =>
      rw [hi] at hstep
      exact Or.inr (Or.inr (Or.inr (Or.inl ⟨call, phys, stage, rfl, (Option.some.inj hstep).symm⟩)))
  | release call code =>
      rw [hi] at hstep
      exact Or.inr (Or.inr (Or.inr (Or.inr ⟨call, code, rfl, (Option.some.inj hstep).symm⟩)))

/-! ### Steps that write no memory -/

/-- The calls that are active are still active, or have returned. -/
theorem active_update {f : Fin n → Phase} {p : Phase} {fl : List ℕ} {R R' : List (ℕ × ℤ)}
    (h : ∀ v ∈ fl, (∃ code, (v, code) ∈ R) ∨ ∃ i, (f i).addr = some v) (hR : ∀ e ∈ R, e ∈ R')
    (hi : ∀ v, (f i).addr = some v → p.addr = some v ∨ ∃ code, (v, code) ∈ R') :
    ∀ v ∈ fl, (∃ code, (v, code) ∈ R') ∨ ∃ j, (Function.update f i p j).addr = some v := by
  intro v hv
  rcases h v hv with ⟨code, hcode⟩ | ⟨j, hj⟩
  · exact Or.inl ⟨code, hR _ hcode⟩
  by_cases hji : j = i
  · rw [hji] at hj
    rcases hi v hj with hp | hcode
    · exact Or.inr ⟨i, by rwa [Function.update_self]⟩
    · exact Or.inl hcode
  · exact Or.inr ⟨j, by rwa [Function.update_of_ne hji]⟩

/-- The page of a CPU that keeps it is still about to be mapped. -/
theorem settled_update {f : Fin n → Phase} {p : Phase} {mapped : List (ℕ × ℕ)} {e : ℕ × ℕ}
    (h : e ∈ mapped ∨ ∃ j, (f j).page = some e) (hp : (f i).page = some e → p.page = some e) :
    e ∈ mapped ∨ ∃ j, (Function.update f i p j).page = some e := by
  rcases h with h | ⟨j, hj⟩
  · exact Or.inl h
  right
  by_cases hji : j = i
  · rw [hji] at hj
    exact ⟨i, by rw [Function.update_self, hp hj]⟩
  · exact ⟨j, by rwa [Function.update_of_ne hji]⟩

/-- A step that changes only the CPU, the locks and the lists of calls. -/
theorem FaultInv.settle (h : FaultInv P Q s pml4 c F T) {p : Phase} {H : ℕ → Option (Fin n)} {fl : List ℕ}
    {R : List (ℕ × ℤ)} (hholder : ∀ j, j ≠ i → ∀ r, c.holder r = some j → H r = some j)
    (hfaulted : ∀ v ∈ c.faulted, v ∈ fl) (hcalls : ∀ v ∈ fl, ∃ call ∈ Q, call.addr = v)
    (hk : Knows Q pml4 { c with holder := H, faulted := fl } F T i p) (hpage : p.page = (c.cpu i).page)
    (hframe : p.frame = none) (hreturned : ∀ e ∈ R, e.2 = 0 ∧ c.Mapped e.1)
    (hactive : ∀ v ∈ fl, (∃ code, (v, code) ∈ R) ∨ ∃ j, (Function.update c.cpu i p j).addr = some v) :
    FaultInv P Q s pml4
      { c with holder := H, cpu := Function.update c.cpu i p, faulted := fl, returned := R } F T where
  state := h.state
  owns := h.owns
  tables := h.tables
  subset := h.subset
  knows := by
    refine forall_update (P := fun j (q : Phase) => Knows Q pml4 { c with holder := H, faulted := fl } F T j q) hk
      fun j hj => (h.knows j).mono ?_
    exact ⟨fun _ _ _ hw => hw, fun _ _ hnone => hnone, hholder j hj, hfaulted, fun _ he => he, fun _ he => he,
      fun _ _ hprivate => hprivate⟩
  frames := unique_update h.frames fun frame hcon => absurd (hframe.symm.trans hcon) nofun
  settled e he := settled_update (h.settled e he) fun hcpu => hpage.trans hcpu
  taken := h.taken
  kept := h.kept
  only := h.only
  held := h.held
  begun e he := hfaulted _ (h.begun e he)
  calls := hcalls
  frames_nodup := h.frames_nodup
  pages_nodup := h.pages_nodup
  mapped_nodup := h.mapped_nodup
  returned := hreturned
  active := hactive

/-- A step that changes only the CPU. -/
theorem FaultInv.goOn (h : FaultInv P Q s pml4 c F T) {p q : Phase} (hi : c.cpu i = q)
    (hk : Knows Q pml4 c F T i p) (haddr : p.addr = q.addr) (hpage : p.page = q.page) (hframe : p.frame = none) :
    FaultInv P Q s pml4 (c.goOn i p) F T := by
  subst hi
  exact h.settle (fun _ _ _ hr => hr) (fun _ hv => hv) h.calls hk hpage hframe h.returned
    (active_update h.active (fun _ he => he) fun _ hv => Or.inl (haddr.trans hv))

/-- A call returns 0 after its page was mapped. -/
theorem FaultInv.leave (h : FaultInv P Q s pml4 c F T) {v : ℕ} {q : Phase} (hi : c.cpu i = q) (hv : c.Mapped v)
    (haddr : q.addr = some v) (hpage : q.page = none) {H : ℕ → Option (Fin n)}
    (hholder : ∀ j, j ≠ i → ∀ r, c.holder r = some j → H r = some j) :
    FaultInv P Q s pml4 { c.leave i v 0 with holder := H } F T := by
  subst hi
  refine h.settle (p := .idle) hholder (fun _ hv => hv) h.calls trivial hpage.symm rfl ?_ ?_
  · intro e he
    rcases List.mem_cons.mp he with rfl | he
    · exact ⟨rfl, hv⟩
    · exact h.returned e he
  · refine active_update h.active (fun _ he => List.mem_cons_of_mem _ he) fun w hw => Or.inr ⟨0, ?_⟩
    obtain rfl := Option.some.inj (haddr.symm.trans hw)
    exact List.mem_cons_self

/-- A page that is mapped was mapped by a call, to a frame. -/
theorem FaultInv.mapped_of_translate (h : FaultInv P Q s pml4 c F T) {call : Call} (hcall : call ∈ Q) {f fl : ℕ}
    (ht : translate c.mem pml4 call.addr = some (f, fl)) : c.Mapped call.addr ∧ f ≠ 0 := by
  have hmapped := h.only call hcall (by rw [ht]; exact nofun)
  refine ⟨hmapped, ?_⟩
  obtain ⟨e, he, hvpn⟩ := hmapped
  have hkept := h.kept e he
  rw [translate_eq_of_vpn _ _ hvpn, ht] at hkept
  obtain ⟨rfl, -⟩ := Prod.mk.inj (Option.some.inj hkept)
  exact (P.isFrame h.owns _ (h.held e (h.taken e he))).ne_zero

/-- A step of the walk before the lock keeps the invariant. -/
theorem FaultInv.checkStep (h : FaultInv P Q s pml4 c F T) {call : Call} {locked : Bool} {level table : ℕ}
    (hi : c.cpu i = .check call locked level table) :
    FaultInv P Q s pml4 (checkStep c i call locked level table) F T := by
  have hk := h.knows i
  rw [hi] at hk
  obtain ⟨hb, hat, hl⟩ := hk
  unfold DemandPaging.checkStep
  dsimp only
  by_cases hmore : readEntry c.mem table (levelIndex call.addr level) &&& flagPresent ≠ 0 ∧ level < 3
  · rw [if_pos hmore]
    exact h.goOn hi ⟨hb, hat.next hmore.2 hmore.1, hl⟩ rfl rfl rfl
  rw [if_neg hmore]
  by_cases hpresent : readEntry c.mem table (levelIndex call.addr level) &&& flagPresent = 0
  · -- not mapped at the moment of this read
    rw [if_pos hpresent, if_neg (not_not.mpr rfl), if_neg (not_not.mpr rfl)]
    have hnone := hat.absent hpresent
    cases locked with
    | true =>
        exact h.goOn hi ⟨⟨hb, hl rfl⟩, hnone⟩ rfl rfl rfl
    | false =>
        exact h.goOn hi hb rfl rfl rfl
  · -- mapped, and so by a call
    obtain rfl : level = 3 := by
      have := hat.le
      by_contra hne
      exact hmore ⟨hpresent, by omega⟩
    obtain ⟨flags, ht⟩ := hat.present hpresent
    obtain ⟨hmapped, hframe⟩ := h.mapped_of_translate hb.1 ht
    have hphys : (readEntry c.mem table (levelIndex call.addr 3) &&& frameMask) ||| (call.addr &&& 0xFFF) ≠ 0 :=
      fun hzero => hframe (Nat.or_eq_zero_iff.mp hzero).1
    rw [if_neg hpresent, if_pos hphys, if_pos hphys]
    cases locked with
    | true =>
        exact h.goOn hi ⟨⟨hb, hl rfl⟩, rfl, hmapped⟩ rfl rfl rfl
    | false =>
        exact h.leave hi hmapped rfl rfl fun _ _ _ hr => hr

/-- The lock is free: the second check begins. -/
theorem FaultInv.acquire (h : FaultInv P Q s pml4 c F T) {call : Call} (hi : c.cpu i = .acquire call)
    (hfree : c.holder call.region = none) :
    FaultInv P Q s pml4
      { c.goOn i (.check call true 0 pml4) with holder := Function.update c.holder call.region (some i) } F T := by
  have hk := h.knows i
  rw [hi] at hk
  refine h.settle (p := .check call true 0 pml4) ?_ (fun _ hv => hv) h.calls
    ⟨hk, .root, fun _ => Function.update_self _ _ _⟩ ?_ rfl
    h.returned (active_update h.active (fun _ he => he) fun v hv => Or.inl ?_)
  · intro j _ r hr
    have hne : r ≠ call.region := by
      rintro rfl
      exact absurd (hfree.symm.trans hr) nofun
    rwa [Function.update_of_ne hne]
  · rw [hi]
    rfl
  · rw [hi] at hv
    exact hv

/-- The lock is given back, and the call returns. -/
theorem FaultInv.release (h : FaultInv P Q s pml4 c F T) {call : Call} {code : ℤ} (hi : c.cpu i = .release call code) :
    FaultInv P Q s pml4 { c.leave i call.addr code with holder := Function.update c.holder call.region none } F T := by
  have hk := h.knows i
  rw [hi] at hk
  obtain ⟨hl, rfl, hmapped⟩ := hk
  refine h.leave hi hmapped rfl rfl fun j hj r hr => ?_
  have hne : r ≠ call.region := by
    rintro rfl
    exact hj (Option.some.inj (hr.symm.trans hl.2))
  rwa [Function.update_of_ne hne]

/-! ### Steps of `vmm_map_page` that write no memory -/

/-- What a call has in hand after it has found a table. -/
theorem afterTable_proj (call : Call) (phys level : ℕ) {t : ℕ} (ht : t ≠ 0) :
    (afterTable call phys level t).addr = some call.addr ∧
      (afterTable call phys level t).page = some (call.addr, phys) ∧
      (afterTable call phys level t).frame = none := by
  unfold afterTable
  rw [if_neg ht]
  split_ifs
  · exact ⟨rfl, rfl, rfl⟩
  · exact ⟨rfl, rfl, rfl⟩

/-- `get_or_alloc` returns the next table on the way. -/
theorem FaultInv.afterTable (h : FaultInv P Q s pml4 c F T) {call : Call} {phys level t : ℕ} {stage : Stage}
    (hi : c.cpu i = .mapping call phys stage) (hlevel : level < 3) (hat : AtTable c.mem pml4 call.addr (level + 1) t) :
    FaultInv P Q s pml4 (c.goOn i (afterTable call phys level t)) F T := by
  have hk := h.knows i
  rw [hi] at hk
  obtain ⟨hl, hnone, htaken, -⟩ := hk
  have ht0 : t ≠ 0 := (h.tables.isFrame t (hat.mem h.tables)).ne_zero
  obtain ⟨haddr, hpage, hframe⟩ := afterTable_proj call phys level ht0
  refine h.goOn hi ?_ haddr hpage hframe
  unfold DemandPaging.afterTable
  rw [if_neg ht0]
  by_cases hlast : level < 2
  · rw [if_pos hlast]
    exact ⟨hl, hnone, htaken, by omega, hat⟩
  · rw [if_neg hlast]
    obtain rfl : level = 2 := by omega
    exact ⟨hl, hnone, htaken, hat⟩

/-- Looking a table up keeps the invariant. -/
theorem FaultInv.lookup (h : FaultInv P Q s pml4 c F T) {call : Call} {phys level table : ℕ}
    (hi : c.cpu i = .mapping call phys (.lookup level table)) :
    FaultInv P Q s pml4 (mapStep allocFrame c i call phys (.lookup level table)) F T := by
  have hk := h.knows i
  rw [hi] at hk
  obtain ⟨hl, hnone, htaken, hlevel, hat⟩ := hk
  unfold mapStep
  dsimp only
  by_cases hpresent : readEntry c.mem table (levelIndex call.addr level) &&& flagPresent = 0
  · rw [if_pos hpresent]
    exact h.goOn hi ⟨hl, hnone, htaken, hlevel, hat⟩ rfl rfl rfl
  · rw [if_neg hpresent]
    exact h.afterTable hi hlevel (hat.next hlevel hpresent)

/-- Reading an entry again keeps the invariant. -/
theorem FaultInv.reread (h : FaultInv P Q s pml4 c F T) {call : Call} {phys level table : ℕ}
    (hi : c.cpu i = .mapping call phys (.reread level table)) :
    FaultInv P Q s pml4 (mapStep allocFrame c i call phys (.reread level table)) F T := by
  have hk := h.knows i
  rw [hi] at hk
  obtain ⟨-, -, -, hlevel, hat, t, ht⟩ := hk
  unfold mapStep
  dsimp only
  rw [hat.entry hlevel ht]
  exact h.afterTable hi hlevel ht

/-- A call begins. -/
theorem FaultInv.fault (h : FaultInv P Q s pml4 c F T) {L : ℕ → List ℕ} (hregions : Inv s L)
    (hi : c.cpu i = .idle) {virtAddr r : ℕ} (hr : Registered s pml4 r)
    (hv : (s.regions r).contains (alignDown virtAddr) = true) (hflag : (s.regions r).flags &&& vmFlagDemandPaged ≠ 0)
    (hcall : ⟨alignDown virtAddr, r⟩ ∈ Q) {c' : Config A n} (hstep : fault pml4 c i virtAddr = some c') :
    FaultInv P Q s pml4 c' F T := by
  have hfind : demandPagingFindRegion c.state pml4 (alignDown virtAddr) = some (r, c.state) := by
    rw [h.state]
    exact (hregions.machine c.state.machine).findRegion_of_registered hr hv
  have hr0 : r ≠ 0 := by
    obtain ⟨j, hj, -, hrL⟩ := hregions.registered_slot hr
    exact (hregions.list j hj).ne_zero hrL
  have hregion : c.state.regions r = s.regions r := by rw [h.state]
  unfold DemandPaging.fault at hstep
  dsimp only at hstep
  rw [hfind] at hstep
  dsimp only [Option.bind_eq_bind, Option.bind_some] at hstep
  rw [if_neg hr0, hregion, if_neg hflag] at hstep
  obtain rfl := Option.some.inj hstep
  refine h.settle (p := .check ⟨alignDown virtAddr, r⟩ false 0 pml4) (fun _ _ _ hr => hr)
    (fun v hv => List.mem_cons_of_mem _ hv) ?_ ⟨⟨hcall, List.mem_cons_self⟩, .root, fun hcon => absurd hcon nofun⟩ ?_
    rfl h.returned ?_
  · intro v hv
    rcases List.mem_cons.mp hv with rfl | hv
    · exact ⟨_, hcall, rfl⟩
    · exact h.calls v hv
  · rw [hi]
    rfl
  · intro v hv
    rcases List.mem_cons.mp hv with rfl | hv
    · refine Or.inr ⟨i, ?_⟩
      rw [Function.update_self]
      rfl
    · refine active_update h.active (fun _ he => he) (fun w hw => ?_) v hv
      rw [hi] at hw
      exact absurd hw nofun

/-! ### Allocations -/

/-- The regions stay as they are. -/
theorem FaultInv.state_eq (h : FaultInv P Q s pml4 c F T) (m : Machine A) :
    ({ c.state with machine := m } : State A) = { s with machine := m } := by
  rw [h.state]

/-- Calls on one page are in one region, so they take one lock. -/
def OneLock (Q : Set Call) : Prop :=
  ∀ call ∈ Q, ∀ call' ∈ Q, vpn call.addr = vpn call'.addr → call.region = call'.region

/-- The lock of a page has one holder. -/
theorem OneLock.eq (hQ : OneLock Q) {j : Fin n} {call call' : Call} (h : Locked Q c i call) (h' : Locked Q c j call')
    (hvpn : vpn call.addr = vpn call'.addr) : i = j := by
  have hregion := hQ call h.1.1 call' h'.1.1 hvpn
  exact Option.some.inj (h.2.symm.trans ((congrArg c.holder hregion).trans h'.2))

/-- The frame that a CPU is about to link is private. -/
theorem FaultInv.isPrivate (h : FaultInv P Q s pml4 c F T) {j : Fin n} {frame : ℕ}
    (hj : (c.cpu j).frame = some frame) : Private c.mem F T frame := by
  have hk := h.knows j
  cases hphase : c.cpu j with
  | mapping call phys stage =>
      rw [hphase] at hk hj
      cases stage with
      | link level table f =>
          obtain rfl := Option.some.inj hj
          exact hk.2.2.2.2.2
      | _ => exact absurd hj nofun
  | _ =>
      rw [hphase] at hj
      exact absurd hj nofun

/-- The page that a CPU is about to map is not mapped, and the CPU has the lock. -/
theorem FaultInv.page_unmapped (h : FaultInv P Q s pml4 c F T) {j : Fin n} {e : ℕ × ℕ}
    (hj : (c.cpu j).page = some e) :
    ∃ call, call.addr = e.1 ∧ Locked Q c j call ∧ translate c.mem pml4 call.addr = none := by
  have hk := h.knows j
  cases hphase : c.cpu j with
  | mapping call phys stage =>
      rw [hphase] at hk hj
      obtain rfl := Option.some.inj hj
      exact ⟨call, rfl, hk.1, hk.2.1⟩
  | _ =>
      rw [hphase] at hj
      exact absurd hj nofun

section allocations

variable {m : Machine A} (hkeep : ∀ u ∈ F, ∀ x, InPage u x → m.mem x = c.mem x)

include hkeep in
/-- A step that writes no table keeps all translations. -/
theorem FaultInv.keeps (h : FaultInv P Q s pml4 c F T) :
    Tables m.mem {pml4} T ∧
      (∀ p : List ℕ, p.length ≤ 3 → walk (child m.mem) pml4 p = walk (child c.mem) pml4 p) ∧
      ∀ v, translate m.mem pml4 v = translate c.mem pml4 v := by
  have htables : ∀ t ∈ T, ∀ x, InPage t x → m.mem x = c.mem x := fun t ht => hkeep t (h.subset ht)
  have hroot : pml4 ∈ ({pml4} : Set ℕ) := Set.mem_singleton pml4
  exact ⟨h.tables.congr htables, fun p hp => h.tables.walk_congr htables hroot hp,
    fun v => h.tables.translate_congr htables hroot v⟩

include hkeep in
/-- An allocation leaves the others their knowledge. -/
theorem FaultInv.evolves_of_keeps (h : FaultInv P Q s pml4 c F T) (hF : F ⊆ F') {p : Phase} {taken : List (ℕ × ℕ)}
    (htaken : ∀ e ∈ c.taken, e ∈ taken) (j : Fin n) :
    Evolves Q pml4 c F T j { c.setMachine m i p with taken := taken } F' T := by
  obtain ⟨-, hwalk, htrans⟩ := h.keeps hkeep
  refine ⟨fun p hp t hw => (hwalk p hp).trans hw, fun call _ hnone => (htrans call.addr).trans hnone,
    fun _ hr => hr, fun _ hv => hv, htaken, fun _ he => he, fun frame _ hprivate => ?_⟩
  exact ⟨hF hprivate.held, hprivate.not_table,
    fun x hx => (hkeep frame hprivate.held x hx).trans (hprivate.zero x hx)⟩

end allocations

/-- A page is taken for a page that no call has taken one for. -/
theorem FaultInv.allocateStep (h : FaultInv P Q s pml4 c F T) (hQ : OneLock Q) (hpage : P.Allocator allocPage)
    (hphysical : P.Physical) {call : Call} (hi : c.cpu i = .allocate call)
    (h0 : (allocPage c.state.machine).1 ≠ 0) :
    FaultInv P Q s pml4 (allocateStep allocPage pml4 c i call) (Set.insert (allocPage c.state.machine).1 F) T := by
  have hk := h.knows i
  rw [hi] at hk
  obtain ⟨hl, hnone⟩ := hk
  obtain ⟨howns, hkeep⟩ := pageAtHand_spec hpage hphysical h.owns h0 (c.state.regions call.region).flags
  unfold pageAtHand at howns hkeep
  have hfresh := hpage.fresh h.owns h0
  unfold DemandPaging.allocateStep
  dsimp only
  rw [if_neg h0]
  set phys := (allocPage c.state.machine).1 with hphys
  set m := if (c.state.regions call.region).flags &&& vmFlagZeroFill ≠ 0 then
    zeroFill (allocPage c.state.machine).2 phys else (allocPage c.state.machine).2 with hm
  obtain ⟨htables, -, htrans⟩ := h.keeps hkeep
  have hsub : F ⊆ Set.insert phys F := Set.subset_insert _ _
  -- nobody has taken a page for this one
  have hnew : ∀ e ∈ c.taken, vpn e.1 ≠ vpn call.addr := by
    intro e he hvpn
    rcases h.settled e he with hmapped | ⟨j, hj⟩
    · have hkept := h.kept e hmapped
      rw [translate_eq_of_vpn _ _ hvpn, hnone] at hkept
      exact absurd hkept nofun
    · obtain ⟨call', hcall', hl', -⟩ := h.page_unmapped hj
      obtain rfl := hQ.eq hl hl' (by rw [hcall', hvpn])
      rw [hi] at hj
      exact absurd hj nofun
  have hcons : ∀ e ∈ c.taken, e ∈ (call.addr, phys) :: c.taken := fun e he => List.mem_cons_of_mem _ he
  constructor
  case state => exact h.state_eq m
  case owns => exact howns
  case tables => exact htables
  case subset => exact h.subset.trans hsub
  case knows =>
    refine forall_update (P := fun j (q : Phase) => Knows Q pml4 _ _ T j q) ?_
      fun j _ => (h.knows j).mono (h.evolves_of_keeps hkeep hsub hcons j)
    exact ⟨hl, (htrans call.addr).trans hnone, List.mem_cons_self, by omega, .root⟩
  case frames => exact unique_update h.frames fun _ hframe => absurd hframe nofun
  case settled =>
    intro e he
    rcases List.mem_cons.mp he with rfl | he
    · refine Or.inr ⟨i, ?_⟩
      show (Function.update c.cpu i (.mapping call phys (.lookup 0 pml4)) i).page = some (call.addr, phys)
      rw [Function.update_self]
      rfl
    · refine settled_update (h.settled e he) fun hcpu => ?_
      rw [hi] at hcpu
      exact absurd hcpu nofun
  case taken => exact fun e he => hcons e (h.taken e he)
  case kept => exact fun e he => (htrans e.1).trans (h.kept e he)
  case only => exact fun call' hcall' hne => h.only call' hcall' fun hcon => hne ((htrans call'.addr).trans hcon)
  case held =>
    intro e he
    rcases List.mem_cons.mp he with rfl | he
    · exact Set.mem_insert _ _
    · exact hsub (h.held e he)
  case begun =>
    intro e he
    rcases List.mem_cons.mp he with rfl | he
    · exact hl.1.2
    · exact h.begun e he
  case calls => exact h.calls
  case frames_nodup =>
    refine List.nodup_cons.mpr ⟨fun hmem => ?_, h.frames_nodup⟩
    obtain ⟨e, he, heq⟩ := List.mem_map.mp hmem
    exact hfresh ((show e.2 = phys from heq) ▸ h.held e he)
  case pages_nodup =>
    refine List.nodup_cons.mpr ⟨fun hmem => ?_, h.pages_nodup⟩
    obtain ⟨e, he, heq⟩ := List.mem_map.mp hmem
    exact hnew e he heq
  case mapped_nodup => exact h.mapped_nodup
  case returned => exact h.returned
  case active =>
    refine active_update h.active (fun _ he => he) fun v hv => Or.inl ?_
    rw [hi] at hv
    exact hv

/-! ### Table entries -/

/-- A step that changes the memory and no translation. -/
theorem FaultInv.setMachine (h : FaultInv P Q s pml4 c F T) {m : Machine A} {p q : Phase} (hi : c.cpu i = q)
    (howns : P.Owns m F') (htables : Tables m.mem {pml4} T') (hsub : T' ⊆ F') (hF : F ⊆ F')
    (htrans : ∀ v, translate m.mem pml4 v = translate c.mem pml4 v)
    (hev : ∀ j, j ≠ i → Evolves Q pml4 c F T j (c.setMachine m i p) F' T')
    (hk : Knows Q pml4 (c.setMachine m i p) F' T' i p)
    (hframe : ∀ frame, p.frame = some frame → ∀ j, j ≠ i → (c.cpu j).frame ≠ some frame) (haddr : p.addr = q.addr)
    (hpage : p.page = q.page) : FaultInv P Q s pml4 (c.setMachine m i p) F' T' where
  state := h.state_eq m
  owns := howns
  tables := htables
  subset := hsub
  knows := forall_update (P := fun j (q : Phase) => Knows Q pml4 _ _ _ j q) hk fun j hj => (h.knows j).mono (hev j hj)
  frames := unique_update h.frames hframe
  settled e he := settled_update (h.settled e he) fun hcpu => hpage.trans ((congrArg Phase.page hi).symm.trans hcpu)
  taken := h.taken
  kept e he := (htrans e.1).trans (h.kept e he)
  only call hcall hne := h.only call hcall fun hcon => hne ((htrans call.addr).trans hcon)
  held e he := hF (h.held e he)
  begun := h.begun
  calls := h.calls
  frames_nodup := h.frames_nodup
  pages_nodup := h.pages_nodup
  mapped_nodup := h.mapped_nodup
  returned := h.returned
  active := active_update h.active (fun _ he => he) fun _ hv =>
    Or.inl (haddr.trans ((congrArg Phase.addr hi).symm.trans hv))

/-- `get_or_alloc` gets a frame for a table and clears it. -/
theorem FaultInv.extend (h : FaultInv P Q s pml4 c F T) (hframe : P.Allocator allocFrame) {call : Call}
    {phys level table : ℕ} (hi : c.cpu i = .mapping call phys (.extend level table))
    (h0 : (allocFrame c.state.machine).1 ≠ 0) :
    FaultInv P Q s pml4 (mapStep allocFrame c i call phys (.extend level table))
      (Set.insert (allocFrame c.state.machine).1 F) T := by
  have hk := h.knows i
  rw [hi] at hk
  obtain ⟨hl, hnone, htaken, hlevel, hat⟩ := hk
  have hfresh := hframe.fresh h.owns h0
  have hsub : F ⊆ Set.insert (allocFrame c.state.machine).1 F := Set.subset_insert _ _
  unfold mapStep
  dsimp only
  rw [if_neg h0]
  obtain ⟨m, hm⟩ : ∃ m, clearTable (allocFrame c.state.machine).2 (allocFrame c.state.machine).1 = m := ⟨_, rfl⟩
  have hclear : ∀ x, m.mem x = if InPage (allocFrame c.state.machine).1 x then 0
      else (allocFrame c.state.machine).2.mem x := fun x => hm ▸ clearTable_apply _ _ x
  have hkeep : ∀ u ∈ F, ∀ x, InPage u x → m.mem x = c.mem x :=
    fun u hu x hx => hm ▸ clear_apply_of_held hframe h.owns h0 hu hx
  obtain ⟨htables, hwalk, htrans⟩ := h.keeps hkeep
  rw [hm]
  refine h.setMachine hi ?_ htables (h.subset.trans hsub) hsub htrans
    (fun j _ => h.evolves_of_keeps hkeep hsub (fun _ he => he) j) ?_ ?_ rfl rfl
  · refine P.write_state (hframe.owns h.owns h0) (by rw [← hm]; simp only [clearTable]) fun x hx => ?_
    rw [hclear, if_neg (hx _ (Set.mem_insert _ _))]
  · exact ⟨hl, (htrans call.addr).trans hnone, htaken, hlevel, hat.mono fun p hp t hw => (hwalk p hp).trans hw,
      Set.mem_insert _ _, fun hmem => hfresh (h.subset hmem), fun x hx => (hclear x).trans (if_pos hx)⟩
  · -- the frames of the others are held already
    intro frame heq j _ hj
    obtain rfl := Option.some.inj heq
    exact hfresh (h.isPrivate hj).held

/-- The slot is still empty: `get_or_alloc` links the table. -/
theorem FaultInv.link (h : FaultInv P Q s pml4 c F T) {call : Call} {phys level table frame : ℕ}
    (hi : c.cpu i = .mapping call phys (.link level table frame))
    (hempty : readEntry c.mem table (levelIndex call.addr level) &&& flagPresent = 0) :
    FaultInv P Q s pml4 (mapStep allocFrame c i call phys (.link level table frame)) F (Set.insert frame T) := by
  have hk := h.knows i
  rw [hi] at hk
  obtain ⟨hl, hnone, htaken, hlevel, hat, hprivate⟩ := hk
  have hidx := levelIndex_lt call.addr level
  have htable := hat.mem h.tables
  have hchild : child c.mem table (levelIndex call.addr level) = none := if_neg fun hcon => hcon.2 hempty
  have hlen : ((tablePath call.addr).take level).length < 3 := lt_of_le_of_lt (List.length_take_le _ _) hlevel
  obtain ⟨htables, hslot, hwalk, htrans⟩ := h.tables.hang (Set.mem_singleton pml4) hlen hat.way hidx hchild
    (P.isFrame h.owns frame hprivate.held) hprivate.not_table hprivate.zero
  have hsub : Set.insert frame T ⊆ F := by
    rintro t (rfl | ht)
    · exact hprivate.held
    · exact h.subset ht
  have hroot : pml4 ∈ ({pml4} : Set ℕ) := Set.mem_singleton pml4
  unfold mapStep
  dsimp only
  refine h.setMachine hi ?_ htables hsub subset_rfl (htrans pml4 hroot) ?_ ?_ (fun _ hcon => absurd hcon nofun) rfl rfl
  · exact P.write_state h.owns rfl fun x hx => store_slot_apply hidx (hx table (h.subset htable))
  · -- the frames that the others have cleared are neither this one nor a table
    intro j hj
    refine ⟨hwalk pml4 hroot, fun call' _ hnone' => (htrans pml4 hroot call'.addr).trans hnone', fun _ hr => hr,
      fun _ hv => hv, fun _ he => he, fun _ he => he, fun frame' hframe' hprivate' => ⟨hprivate'.held, ?_, ?_⟩⟩
    · rintro (rfl | hmem)
      · exact hj (h.frames j i _ hframe' (by rw [hi]; rfl))
      · exact hprivate'.not_table hmem
    · intro x hx
      refine (store_slot_apply hidx fun hx' => hprivate'.not_table ?_).trans (hprivate'.zero x hx)
      have heq := (P.isFrame h.owns frame' hprivate'.held).eq_of_inPage (h.tables.isFrame table htable) hx hx'
      exact heq ▸ htable
  · refine ⟨hl, (htrans pml4 hroot call.addr).trans hnone, htaken, hlevel, hat.mono (hwalk pml4 hroot), frame,
      hlevel, ?_⟩
    rw [take_succ_tablePath hlevel]
    exact hslot

/-- The page is mapped. -/
theorem FaultInv.write (h : FaultInv P Q s pml4 c F T) (hQ : OneLock Q) {call : Call} {phys table : ℕ}
    (hi : c.cpu i = .mapping call phys (.write table)) :
    FaultInv P Q s pml4 (mapStep allocFrame c i call phys (.write table)) F T := by
  have hk := h.knows i
  rw [hi] at hk
  obtain ⟨hl, hnone, htaken, hat⟩ := hk
  have hroot : pml4 ∈ ({pml4} : Set ℕ) := Set.mem_singleton pml4
  have htable : table ∈ T := AtTable.mem hat h.tables
  have hpt : pageTable c.mem pml4 call.addr = some table := AtTable.isPageTable hat
  -- the entry decodes to the frame, which can be written, and by users
  have hphys : phys &&& frameMask = phys := and_frameMask_of_isFrame (P.isFrame h.owns phys (h.held _ htaken))
  obtain ⟨hframe, hflags, hpresent, hlt⟩ := mapEntry_spec phys (flagPresent ||| flagWritable ||| flagUser)
  unfold mapStep
  dsimp only
  set e := (phys &&& frameMask) ||| ((flagPresent ||| flagWritable ||| flagUser) &&& 0xFFF) ||| flagPresent with he
  have hdecode : decode e = some (phys, 7) := by
    unfold decode
    rw [if_neg hpresent, hframe, hflags, hphys]
    rfl
  have htrans : ∀ w, translate (store 8 c.mem (slot table (ptIndex call.addr)) e) pml4 w
      = if vpn w = vpn call.addr then some (phys, 7) else translate c.mem pml4 w := by
    intro w
    rw [h.tables.translate_leafWrite hroot hpt hlt hroot w, hdecode]
    exact if_congr (and_iff_right rfl) rfl rfl
  have hother : ∀ e ∈ c.mapped, vpn e.1 ≠ vpn call.addr := by
    intro e he hvpn
    have hkept := h.kept e he
    rw [translate_eq_of_vpn _ _ hvpn, hnone] at hkept
    exact absurd hkept nofun
  constructor
  case state => exact h.state_eq _
  case owns => exact P.write_state h.owns rfl fun x hx => store_slot_apply (ptIndex_lt _) (hx table (h.subset htable))
  case tables => exact h.tables.leafWrite hroot hpt e
  case subset => exact h.subset
  case knows =>
    refine forall_update (P := fun j (q : Phase) => Knows Q pml4 _ F T j q) ?_ fun j hj => (h.knows j).mono ?_
    · exact ⟨hl, rfl, (call.addr, phys), List.mem_cons_self, rfl⟩
    · refine ⟨fun p hp t hw => (h.tables.walk_leafWrite hroot hpt e hroot hp).trans hw, fun call' hl' hnone' => ?_,
        fun _ hr => hr, fun _ hv => hv, fun _ he => he, fun _ he => List.mem_cons_of_mem _ he,
        fun frame _ hprivate => ⟨hprivate.held, hprivate.not_table, fun x hx => ?_⟩⟩
      · -- the pages of the others are other pages
        have hne : vpn call'.addr ≠ vpn call.addr := fun hvpn => hj (hQ.eq hl' hl hvpn)
        exact (htrans call'.addr).trans ((if_neg hne).trans hnone')
      · refine (store_slot_apply (ptIndex_lt _) fun hx' => hprivate.not_table ?_).trans (hprivate.zero x hx)
        have heq := (P.isFrame h.owns frame hprivate.held).eq_of_inPage (h.tables.isFrame table htable) hx hx'
        exact heq ▸ htable
  case frames => exact unique_update h.frames fun _ hcon => absurd hcon nofun
  case settled =>
    intro e he
    rcases h.settled e he with hmapped | ⟨j, hj⟩
    · exact Or.inl (List.mem_cons_of_mem _ hmapped)
    by_cases hji : j = i
    · rw [hji, hi] at hj
      obtain rfl := Option.some.inj hj
      exact Or.inl List.mem_cons_self
    · refine Or.inr ⟨j, ?_⟩
      show (Function.update c.cpu i (.release call 0) j).page = some e
      rwa [Function.update_of_ne hji]
  case taken =>
    intro e he
    rcases List.mem_cons.mp he with rfl | he
    · exact htaken
    · exact h.taken e he
  case kept =>
    intro e he
    rcases List.mem_cons.mp he with rfl | he
    · exact (htrans call.addr).trans (if_pos rfl)
    · exact (htrans e.1).trans ((if_neg (hother e he)).trans (h.kept e he))
  case only =>
    intro call' hcall' hne
    by_cases hvpn : vpn call'.addr = vpn call.addr
    · exact ⟨(call.addr, phys), List.mem_cons_self, hvpn.symm⟩
    · obtain ⟨e, he, hevpn⟩ := h.only call' hcall' fun hcon => hne ((htrans _).trans ((if_neg hvpn).trans hcon))
      exact ⟨e, List.mem_cons_of_mem _ he, hevpn⟩
  case held => exact h.held
  case begun => exact h.begun
  case calls => exact h.calls
  case frames_nodup => exact h.frames_nodup
  case pages_nodup => exact h.pages_nodup
  case mapped_nodup =>
    refine List.nodup_cons.mpr ⟨fun hmem => ?_, h.mapped_nodup⟩
    obtain ⟨e, he, heq⟩ := List.mem_map.mp hmem
    exact hother e he heq
  case returned =>
    intro e he
    obtain ⟨hcode, e', he', hvpn⟩ := h.returned e he
    exact ⟨hcode, e', List.mem_cons_of_mem _ he', hvpn⟩
  case active =>
    refine active_update h.active (fun _ he => he) fun v hv => Or.inl ?_
    rw [hi] at hv
    exact hv

end PrometheusKernel.DemandPaging
