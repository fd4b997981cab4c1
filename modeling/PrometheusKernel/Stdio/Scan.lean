import Mathlib.Data.List.DropRight
import PrometheusKernel.Stdio.Bounded

/-!
# What `kvsnprintf` reads of the format

`scan` is the loop of `kvsnprintf` with the format in memory, which goes on behind the terminator, and with a record
of the indices at which the format is read. The body advances the index behind a `%` without a look at what stands
there: of a `%` that stands alone at the end the terminator is taken for the conversion, and the loop goes on
behind it (`scan_behind`). So nothing behind the terminator is read exactly if the number of `%` at the end of the
format is even (`reads_within_iff`); then the loop does what `formatLoop` does (`scan_followed`).
-/

namespace PrometheusKernel.Stdio

open ByteMem

/-! ### The loop with its index -/

/-- The variables of the loop. -/
structure Scan where
  /-- `i`. -/
  i : ℕ
  /-- The number of arguments that were taken from `ap`. -/
  taken : ℕ
  /-- `out` and `pos`. -/
  out : Out
  /-- The indices at which the format was read, the last one first. -/
  reads : List ℕ

section scan

variable (m : Mem) (out : Bool) (outSz : ℕ) (fmt : ℕ → Char) (ap : ℕ → ℕ)

/-- The loop over the format; `ap` goes on behind the last argument. `none` if the fuel is used up, or if a string
has no end. -/
def scan : ℕ → Scan → Option Scan
  | 0, _ => none
  | fuel + 1, s =>
      let s₁ : Scan := { s with reads := s.i :: s.reads }
      if fmt s.i = Char.ofNat 0 then some s₁
      else if fmt s.i ≠ '%' then scan fuel { s₁ with i := s.i + 1, out := s.out.put out outSz (fmt s.i) }
      else
        -- `i++` in the body, and then the one of the header
        let s₂ : Scan := { s₁ with i := s.i + 2, reads := (s.i + 1) :: s₁.reads }
        if fmt (s.i + 1) = '%' then scan fuel { s₂ with out := s.out.put out outSz '%' }
        else if takesArgument (fmt (s.i + 1)) then
          (convert m (fmt (s.i + 1)) (ap s.taken)).bind fun cs =>
            scan fuel { s₂ with out := s.out.puts out outSz cs, taken := s.taken + 1 }
        else scan fuel s₂

/-- The loop ends, and the format was read at indices up to `n` only. -/
def ReadsWithin (buf : ℕ → Char) (n : ℕ) : Prop :=
  ∃ fuel s, scan m out outSz fmt ap fuel ⟨0, 0, ⟨buf, 0⟩, []⟩ = some s ∧ ∀ i ∈ s.reads, i ≤ n

end scan

/-- `fmt` is a string of length `n`. -/
def IsString (fmt : ℕ → Char) (n : ℕ) : Prop := fmt n = Char.ofNat 0 ∧ ∀ i < n, fmt i ≠ Char.ofNat 0

/-- The elements `i, …, i + len - 1`. -/
def window {α : Type*} (f : ℕ → α) (i len : ℕ) : List α := (List.range' i len).map f

/-- The number of `%` at the end of a format. -/
def percentsAtEnd (fmt : List Char) : ℕ := (fmt.rtakeWhile (· = '%')).length

/-! ### The end of a format -/

/-- A window begins with its first element. -/
theorem window_succ {α : Type*} (f : ℕ → α) (i len : ℕ) : window f i (len + 1) = f i :: window f (i + 1) len := rfl

/-- A literal in front needs nothing behind it. -/
theorem followed_literal {c : Char} (hc : c ≠ '%') (fmt : List Char) : Followed (c :: fmt) ↔ Followed fmt := by
  cases fmt with
  | nil => exact iff_of_true hc trivial
  | cons d fmt => exact iff_of_eq (if_pos hc)

/-- A percent in front needs the character behind it. -/
theorem followed_percent (d : Char) (fmt : List Char) : Followed ('%' :: d :: fmt) ↔ Followed fmt :=
  iff_of_eq (if_neg (not_not.mpr rfl))

/-- Whether the character behind the format belongs to a `%`. -/
def pending (fmt : List Char) : Bool := fmt.foldl (fun p c => !p && c = '%') false

/-- Every percent is followed exactly if none is pending at the end. -/
theorem followed_iff_pending (fmt : List Char) : Followed fmt ↔ pending fmt = false := by
  induction fmt using Followed.induct with
  | case1 => exact iff_of_true trivial rfl
  | case2 c => simp [Followed, pending]
  | case3 c d fmt hc ih =>
      rw [followed_literal hc, ih]
      show _ ↔ (d :: fmt).foldl _ (!false && decide (c = '%')) = false
      rw [decide_eq_false hc]
      rfl
  | case4 c d fmt hc ih =>
      obtain rfl : c = '%' := not_not.mp hc
      rw [followed_percent, ih]
      rfl

/-- One more character behind the percents. -/
theorem percentsAtEnd_concat (fmt : List Char) (c : Char) :
    percentsAtEnd (fmt ++ [c]) = if c = '%' then percentsAtEnd fmt + 1 else 0 := by
  unfold percentsAtEnd
  rw [List.rtakeWhile_concat]
  by_cases hc : c = '%'
  · simp [hc]
  · simp [hc]

/-- A percent is pending exactly if an odd number of them ends the format. -/
theorem pending_iff_odd (fmt : List Char) : pending fmt = true ↔ Odd (percentsAtEnd fmt) := by
  induction fmt using List.reverseRecOn with
  | nil => exact iff_of_false (by decide) (by decide)
  | append_singleton fmt c ih =>
      have hstep : pending (fmt ++ [c]) = (!pending fmt && decide (c = '%')) := List.foldl_append
      rw [hstep, percentsAtEnd_concat]
      by_cases hc : c = '%'
      · rw [if_pos hc, Nat.odd_add_one, ← ih]
        simp [hc]
      · rw [if_neg hc]
        simp [hc]

/-- The last `%` has its character if their number is even. -/
theorem followed_iff_even (fmt : List Char) : Followed fmt ↔ Even (percentsAtEnd fmt) := by
  rw [followed_iff_pending, ← Nat.not_odd_iff_even, ← pending_iff_odd]
  exact Bool.eq_false_iff

/-! ### One turn of the loop -/

section turns

variable {m : Mem} {out : Bool} {outSz fuel n : ℕ} {fmt : ℕ → Char} {ap : ℕ → ℕ} {s s' : Scan}

/-- A turn of the loop: it ends at the terminator, or it goes on behind the character or behind the conversion. -/
theorem scan_cases (h : scan m out outSz fmt ap (fuel + 1) s = some s') :
    (fmt s.i = Char.ofNat 0 ∧ s' = { s with reads := s.i :: s.reads }) ∨
    ∃ s₁, fmt s.i ≠ Char.ofNat 0 ∧ scan m out outSz fmt ap fuel s₁ = some s' ∧ s.reads ⊆ s₁.reads ∧ s.i ∈ s₁.reads ∧
      (fmt s.i ≠ '%' ∧ s₁.i = s.i + 1 ∨ fmt s.i = '%' ∧ s₁.i = s.i + 2) := by
  have hread : s.reads ⊆ (s.i + 1) :: s.i :: s.reads := fun j hj => List.mem_cons_of_mem _ (List.mem_cons_of_mem _ hj)
  have hhead : s.i ∈ (s.i + 1) :: s.i :: s.reads := List.mem_cons_of_mem _ List.mem_cons_self
  unfold scan at h
  by_cases hend : fmt s.i = Char.ofNat 0
  · rw [if_pos hend] at h
    exact Or.inl ⟨hend, (Option.some.inj h).symm⟩
  · rw [if_neg hend] at h
    right
    by_cases hpercent : fmt s.i = '%'
    · rw [if_neg (not_not.mpr hpercent)] at h
      by_cases htwo : fmt (s.i + 1) = '%'
      · rw [if_pos htwo] at h
        exact ⟨_, hend, h, hread, hhead, Or.inr ⟨hpercent, rfl⟩⟩
      · rw [if_neg htwo] at h
        by_cases htakes : takesArgument (fmt (s.i + 1)) = true
        · rw [if_pos htakes] at h
          obtain ⟨cs, -, h⟩ := Option.bind_eq_some_iff.mp h
          exact ⟨_, hend, h, hread, hhead, Or.inr ⟨hpercent, rfl⟩⟩
        · rw [if_neg htakes] at h
          exact ⟨_, hend, h, hread, hhead, Or.inr ⟨hpercent, rfl⟩⟩
    · rw [if_pos hpercent] at h
      refine ⟨_, hend, h, ?_, List.mem_cons_self, Or.inl ⟨hpercent, rfl⟩⟩
      exact fun j hj => List.mem_cons_of_mem _ hj

/-- What was read stays in the record. -/
theorem scan_reads_subset (h : scan m out outSz fmt ap fuel s = some s') : s.reads ⊆ s'.reads := by
  induction fuel generalizing s with
  | zero => exact absurd h nofun
  | succ fuel ih =>
      obtain ⟨-, rfl⟩ | ⟨s₁, -, hrest, hsub, -, -⟩ := scan_cases h
      · exact fun j hj => List.mem_cons_of_mem _ hj
      · exact List.Subset.trans hsub (ih hrest)

/-- The condition of the loop reads the format. -/
theorem scan_reads_head (h : scan m out outSz fmt ap fuel s = some s') : s.i ∈ s'.reads := by
  cases fuel with
  | zero => exact absurd h nofun
  | succ fuel =>
      obtain ⟨-, rfl⟩ | ⟨s₁, -, hrest, -, hhead, -⟩ := scan_cases h
      · exact List.mem_cons_self
      · exact scan_reads_subset hrest hhead

/-- If the last `%` has no character, the loop reads behind the terminator. -/
theorem scan_behind (hfmt : IsString fmt n) {len : ℕ} (hlen : s.i + len = n)
    (hlone : ¬ Followed (window fmt s.i len)) (h : scan m out outSz fmt ap fuel s = some s') : n + 1 ∈ s'.reads := by
  induction fuel generalizing s len with
  | zero => exact absurd h nofun
  | succ fuel ih =>
      cases len with
      | zero => exact absurd trivial hlone
      | succ len =>
          rw [window_succ] at hlone
          obtain ⟨hend, -⟩ | ⟨s₁, -, hrest, -, -, ⟨hc, hi⟩ | ⟨hc, hi⟩⟩ := scan_cases h
          · exact absurd hend (hfmt.2 s.i (by omega))
          · rw [followed_literal hc, ← hi] at hlone
            exact ih (by omega) hlone hrest
          · cases len with
            | zero =>
                -- the terminator was taken for the conversion
                have hbehind : s₁.i = n + 1 := by omega
                rw [← hbehind]
                exact scan_reads_head hrest
            | succ len =>
                rw [window_succ, hc, followed_percent] at hlone
                have hi' : s.i + 1 + 1 = s₁.i := hi.symm
                rw [hi'] at hlone
                exact ih (by omega) hlone hrest

/-- The turns that go on, as equations. -/
theorem scan_literal (hend : fmt s.i ≠ Char.ofNat 0) (hc : fmt s.i ≠ '%') : scan m out outSz fmt ap (fuel + 1) s
    = scan m out outSz fmt ap fuel ⟨s.i + 1, s.taken, s.out.put out outSz (fmt s.i), s.i :: s.reads⟩ :=
  (if_neg hend).trans (if_pos hc)

/-- A turn at two percents. -/
theorem scan_percent (hc : fmt s.i = '%') (hd : fmt (s.i + 1) = '%') : scan m out outSz fmt ap (fuel + 1) s
    = scan m out outSz fmt ap fuel ⟨s.i + 2, s.taken, s.out.put out outSz '%', (s.i + 1) :: s.i :: s.reads⟩ := by
  have hend : fmt s.i ≠ Char.ofNat 0 := by
    rw [hc]
    decide
  exact (if_neg hend).trans ((if_neg (not_not.mpr hc)).trans (if_pos hd))

/-- A turn at a conversion. -/
theorem scan_conversion (hc : fmt s.i = '%') (hd : fmt (s.i + 1) ≠ '%') (htakes : takesArgument (fmt (s.i + 1)) = true)
    {cs : List Char} (hcs : convert m (fmt (s.i + 1)) (ap s.taken) = some cs) : scan m out outSz fmt ap (fuel + 1) s
    = scan m out outSz fmt ap fuel ⟨s.i + 2, s.taken + 1, s.out.puts out outSz cs, (s.i + 1) :: s.i :: s.reads⟩ := by
  have hend : fmt s.i ≠ Char.ofNat 0 := by
    rw [hc]
    decide
  refine (if_neg hend).trans ((if_neg (not_not.mpr hc)).trans ((if_neg hd).trans ((if_pos htakes).trans ?_)))
  rw [hcs]
  rfl

/-- A turn at a percent with an unknown character. -/
theorem scan_unknown (hc : fmt s.i = '%') (hd : fmt (s.i + 1) ≠ '%') (htakes : takesArgument (fmt (s.i + 1)) ≠ true) :
    scan m out outSz fmt ap (fuel + 1) s
      = scan m out outSz fmt ap fuel ⟨s.i + 2, s.taken, s.out, (s.i + 1) :: s.i :: s.reads⟩ := by
  have hend : fmt s.i ≠ Char.ofNat 0 := by
    rw [hc]
    decide
  exact (if_neg hend).trans ((if_neg (not_not.mpr hc)).trans ((if_neg hd).trans (if_neg htakes)))

end turns

/-! ### The loop on the list of characters -/

section simulation

variable {m : Mem} {out : Bool} {outSz n : ℕ} {fmt : ℕ → Char} {ap : ℕ → ℕ}

/-- From `s` on the loop ends with the output `o`, and reads the format at indices up to `n`. -/
def Ends (m : Mem) (out : Bool) (outSz : ℕ) (fmt : ℕ → Char) (ap : ℕ → ℕ) (n : ℕ) (s : Scan) (o : Out) : Prop :=
  ∃ fuel s', scan m out outSz fmt ap fuel s = some s' ∧ s'.out = o ∧ ∀ j ∈ s'.reads, j ∈ s.reads ∨ j ≤ n

/-- The scan ends if it does after one turn. -/
theorem Ends.turn {s s₁ : Scan} {o : Out} (h : Ends m out outSz fmt ap n s₁ o)
    (hturn : ∀ fuel, scan m out outSz fmt ap (fuel + 1) s = scan m out outSz fmt ap fuel s₁)
    (hreads : ∀ j ∈ s₁.reads, j ∈ s.reads ∨ j ≤ n) : Ends m out outSz fmt ap n s o := by
  obtain ⟨fuel, s', hscan, hout, hread⟩ := h
  refine ⟨fuel + 1, s', (hturn fuel).trans hscan, hout, fun j hj => ?_⟩
  exact (hread j hj).elim (hreads j) Or.inr

/-- Where the loop on the list of characters gives a result, the loop with the index gives the same one. -/
theorem scan_simulates (hfmt : IsString fmt n) {len r : ℕ} {s : Scan} {o : Out} {rest : List ℕ} (hlen : s.i + len = n)
    (h : formatLoop m out outSz (window fmt s.i len) (window ap s.taken r) s.out = some (o, rest)) :
    Ends m out outSz fmt ap n s o := by
  induction len using Nat.strong_induction_on generalizing r s with
  | _ len ih =>
      cases len with
      | zero =>
          have hend : fmt s.i = Char.ofNat 0 := by
            rw [show s.i = n from hlen]
            exact hfmt.1
          refine ⟨1, { s with reads := s.i :: s.reads }, if_pos hend, (Prod.mk.inj (Option.some.inj h)).1, ?_⟩
          intro j hj
          exact (List.mem_cons.mp hj).elim (fun heq => Or.inr (by omega)) Or.inl
      | succ len =>
          have hend : fmt s.i ≠ Char.ofNat 0 := hfmt.2 s.i (by omega)
          rw [window_succ] at h
          by_cases hc : fmt s.i = '%'
          · cases len with
            | zero => exact absurd h (by rw [hc]; exact nofun)
            | succ len =>
                have hreads : ∀ j ∈ (s.i + 1) :: s.i :: s.reads, j ∈ s.reads ∨ j ≤ n := by
                  intro j hj
                  obtain rfl | hj := List.mem_cons.mp hj
                  · exact Or.inr (by omega)
                  · exact (List.mem_cons.mp hj).elim (fun heq => Or.inr (by omega)) Or.inl
                have hnext : s.i + 2 + len = n := by omega
                rw [window_succ, hc] at h
                by_cases hd : fmt (s.i + 1) = '%'
                · rw [hd, formatLoop_percent] at h
                  exact (ih len (by omega) hnext h).turn (fun fuel => scan_percent hc hd) hreads
                · by_cases htakes : takesArgument (fmt (s.i + 1)) = true
                  · cases r with
                    | zero =>
                        rw [show window ap s.taken 0 = [] from rfl, formatLoop_takes_nil hd htakes] at h
                        exact absurd h nofun
                    | succ r =>
                        rw [window_succ ap, formatLoop_takes hd htakes] at h
                        obtain ⟨cs, hcs, h⟩ := Option.bind_eq_some_iff.mp h
                        exact (ih len (by omega) hnext h).turn (fun fuel => scan_conversion hc hd htakes hcs) hreads
                  · rw [formatLoop_unknown hd htakes] at h
                    exact (ih len (by omega) hnext h).turn (fun fuel => scan_unknown hc hd htakes) hreads
          · rw [formatLoop_literal hc] at h
            have hnext : s.i + 1 + len = n := by omega
            refine (ih len (by omega) hnext h).turn (fun fuel => scan_literal hend hc) ?_
            exact fun j hj => (List.mem_cons.mp hj).elim (fun heq => Or.inr (by omega)) Or.inl

/-- A call of `kvsnprintf` with a result is a run of the loop with the index. -/
theorem kvsnprintf_scan (hfmt : IsString fmt n) {r : ℕ} {buf : ℕ → Char} {o : Out} {rest : List ℕ}
    (h : kvsnprintf m out outSz (window fmt 0 n) (window ap 0 r) buf = some (o, rest)) :
    ∃ fuel s, scan m out outSz fmt ap fuel ⟨0, 0, ⟨buf, 0⟩, []⟩ = some s ∧ s.out.close out outSz = o := by
  obtain ⟨⟨o', rest'⟩, hloop, hres⟩ := Option.map_eq_some_iff.mp h
  obtain ⟨rfl, rfl⟩ := Prod.mk.inj hres
  obtain ⟨fuel, s, hscan, rfl, -⟩ := scan_simulates (s := ⟨0, 0, ⟨buf, 0⟩, []⟩) hfmt (Nat.zero_add n) hloop
  exact ⟨fuel, s, hscan, rfl⟩

/-- For every format, and all arguments whose strings end (a format of length `n` takes less than `n` of them), the
loop ends without a read behind the terminator exactly if the number of `%` at the end of the format is even. -/
theorem reads_within_iff (hfmt : IsString fmt n) (hargs : Supplied m (window fmt 0 n) (window ap 0 n))
    (buf : ℕ → Char) : ReadsWithin m out outSz fmt ap buf n ↔ Even (percentsAtEnd (window fmt 0 n)) := by
  rw [← followed_iff_even]
  constructor
  · rintro ⟨fuel, s, hscan, hreads⟩
    by_contra hlone
    have hbehind := scan_behind hfmt (Nat.zero_add n) hlone hscan
    exact absurd (hreads (n + 1) hbehind) (Nat.not_succ_le_self n)
  · intro hfollowed
    obtain ⟨text, rest, hloop⟩ := formatLoop_text hfollowed hargs
    obtain ⟨fuel, s, hscan, -, hreads⟩ :=
      scan_simulates (s := ⟨0, 0, ⟨buf, 0⟩, []⟩) hfmt (Nat.zero_add n) (hloop out outSz ⟨buf, 0⟩)
    exact ⟨fuel, s, hscan, fun i hi => (hreads i hi).resolve_left nofun⟩

end simulation

/-- `"%%"`, with garbage behind the terminator. -/
theorem reads_within_iff_sample :
    ReadsWithin (fun _ => 0) true 1024 (fun i => if i < 2 then '%' else if i = 2 then Char.ofNat 0 else 'x')
        (fun _ => 0) (fun _ => ' ') 2 ↔
      Even (percentsAtEnd (window (fun i => if i < 2 then '%' else if i = 2 then Char.ofNat 0 else 'x') 0 2)) := by
  have hfmt : IsString (fun i => if i < 2 then '%' else if i = 2 then Char.ofNat 0 else 'x') 2 := ⟨rfl, by decide⟩
  apply reads_within_iff hfmt
  simp [window, Supplied, takesArgument, List.range']

/-- `"%"`: the loop goes on behind the terminator. -/
theorem lone_percent_reads_behind : ¬ ∀ (m : Mem) (out : Bool) (outSz : ℕ) (fmt : ℕ → Char) (ap : ℕ → ℕ)
    (buf : ℕ → Char) (n : ℕ), IsString fmt n → Supplied m (window fmt 0 n) (window ap 0 n) →
      ReadsWithin m out outSz fmt ap buf n := by
  intro h
  have hfmt : IsString (fun i => if i = 0 then '%' else Char.ofNat 0) 1 := ⟨rfl, by decide⟩
  obtain ⟨fuel, s, hscan, hreads⟩ := h (fun _ => 0) true 1024 _ (fun _ => 0) (fun _ => ' ') 1 hfmt trivial
  have hlone : ¬ Followed (window (fun i => if i = 0 then '%' else Char.ofNat 0) 0 1) := by
    simp [window, Followed]
  have hbehind := scan_behind hfmt (Nat.zero_add 1) hlone hscan
  exact absurd (hreads 2 hbehind) (by decide)

end PrometheusKernel.Stdio
