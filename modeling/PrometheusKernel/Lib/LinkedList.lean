import Mathlib.Tactic
import Mathlib.Data.List.Nodup
import Mathlib.Data.Finset.Card

/-!
# Null-terminated linked lists

A linked structure is seen through its link readers: `nx a` is the successor stored in the node at
address `a`, `pv a` its predecessor. `IsList nx l h` says that following `nx` from `h` visits
exactly the nodes of `l` and ends at the null address `0`; `IsDList nx pv p l h` adds the
predecessor links, `p` being what the first node stores as its predecessor.

Nothing is said about where the links live. A client states how its writes change the two readers
on the nodes of the list, and the rules below (`IsDList.push`, `IsDList.remove`, `IsList.congr`)
give the new list.

`search` is the loop `while (cur) { if (p cur) break; cur = cur->next; }` with a bound on its
iterations: `none` is a loop that did not end. On nodes below `2 ^ 64` the bound `walkBound` is not
a restriction, because a walk that makes that many steps has come back to a node it visited
(`search_walkBound`).
-/

namespace LinkedList

variable {nx nx' pv pv' : ℕ → ℕ}

/-- Following `nx` from `h` visits the nodes of the list, in order, and ends at null. -/
def IsList (nx : ℕ → ℕ) : List ℕ → ℕ → Prop
  | [], h => h = 0
  | a :: l, h => h = a ∧ a ≠ 0 ∧ IsList nx l (nx a)

/-- `IsList` with predecessor links; the first node's predecessor is `p`. -/
def IsDList (nx pv : ℕ → ℕ) : ℕ → List ℕ → ℕ → Prop
  | _, [], h => h = 0
  | p, a :: l, h => h = a ∧ a ≠ 0 ∧ pv a = p ∧ IsDList nx pv a l (nx a)

/-- The search loop: the first node from `cur` on that satisfies `p`, or null. -/
def search (nx : ℕ → ℕ) (p : ℕ → Bool) : ℕ → ℕ → Option ℕ
  | 0, _ => none
  | n + 1, cur =>
      if cur = 0 then some 0
      else if p cur then some cur
      else search nx p n (nx cur)

/-- The search loop that remembers the node before: `prev` and `cur` where it stops. -/
def searchPrev (nx : ℕ → ℕ) (p : ℕ → Bool) : ℕ → ℕ → ℕ → Option (ℕ × ℕ)
  | 0, _, _ => none
  | n + 1, prev, cur =>
      if cur = 0 then some (prev, 0)
      else if p cur then some (prev, cur)
      else searchPrev nx p n cur (nx cur)

/-- No null-terminated list of machine addresses is longer than this. -/
def walkBound : ℕ := 2 ^ 64

/-! ### Singly linked lists -/

/-- A list only depends on the links of its nodes. -/
theorem IsList.congr {l : List ℕ} {h : ℕ} (hl : IsList nx l h) (hnx : ∀ a ∈ l, nx' a = nx a) :
    IsList nx' l h := by
  induction l generalizing h with
  | nil => exact hl
  | cons a l ih =>
      obtain ⟨rfl, h0, hrest⟩ := hl
      refine ⟨rfl, h0, ?_⟩
      rw [hnx h List.mem_cons_self]
      exact ih hrest fun b hb => hnx b (List.mem_cons_of_mem _ hb)

/-- The list of nodes is determined by the head. -/
theorem IsList.unique {l l' : List ℕ} {h : ℕ} (hl : IsList nx l h) (hl' : IsList nx l' h) :
    l = l' := by
  induction l generalizing l' h with
  | nil =>
      cases l' with
      | nil => rfl
      | cons b l' =>
          obtain ⟨rfl, h0, -⟩ := hl'
          exact absurd hl h0
  | cons a l ih =>
      obtain ⟨rfl, h0, hrest⟩ := hl
      cases l' with
      | nil => exact absurd hl' h0
      | cons b l' =>
          obtain ⟨rfl, -, hrest'⟩ := hl'
          rw [ih hrest hrest']

/-- No node of a list is null. -/
theorem IsList.ne_zero {l : List ℕ} {h a : ℕ} (hl : IsList nx l h) (ha : a ∈ l) : a ≠ 0 := by
  induction l generalizing h with
  | nil => exact absurd ha List.not_mem_nil
  | cons b l ih =>
      obtain ⟨rfl, h0, hrest⟩ := hl
      rcases List.mem_cons.mp ha with rfl | ha'
      · exact h0
      · exact ih hrest ha'

/-- The head of a list that is not empty is its first node. -/
theorem IsList.head_mem {l : List ℕ} {h : ℕ} (hl : IsList nx l h) (h0 : h ≠ 0) : h ∈ l := by
  cases l with
  | nil => exact absurd hl h0
  | cons a l =>
      rw [hl.1]
      exact List.mem_cons_self

/-- The end of a list is a list. -/
theorem IsList.of_append {l₁ l₂ : List ℕ} {h : ℕ} (hl : IsList nx (l₁ ++ l₂) h) :
    ∃ h', IsList nx l₂ h' := by
  induction l₁ generalizing h with
  | nil => exact ⟨h, hl⟩
  | cons a l₁ ih => exact ih hl.2.2

/-- A null-terminated list visits no node twice: a repeated node would have two different rests. -/
theorem IsList.nodup {l : List ℕ} {h : ℕ} (hl : IsList nx l h) : l.Nodup := by
  induction l generalizing h with
  | nil => exact List.nodup_nil
  | cons a l ih =>
      refine List.nodup_cons.mpr ⟨fun hmem => ?_, ih hl.2.2⟩
      obtain ⟨l₁, l₂, hsplit⟩ := List.append_of_mem hmem
      have hwhole : IsList nx (a :: l) a := ⟨rfl, hl.2.1, hl.2.2⟩
      have htail : IsList nx (a :: l₂) a := by
        have hrest := hl.2.2
        rw [hsplit] at hrest
        obtain ⟨h', hh'⟩ := hrest.of_append
        exact ⟨rfl, hl.2.1, hh'.2.2⟩
      have heq := hwhole.unique htail
      have hlen := congrArg List.length heq
      rw [hsplit] at hlen
      simp only [List.length_cons, List.length_append] at hlen
      omega

/-- There are fewer than `n` different addresses below `n`, other than null. -/
theorem length_lt_of_nodup {l : List ℕ} {n : ℕ} (hl : l.Nodup) (h0 : ∀ a ∈ l, a ≠ 0) (hn : ∀ a ∈ l, a < n)
    (hpos : 0 < n) : l.length < n := by
  have hsub : l.toFinset ⊆ (Finset.range n).erase 0 := by
    intro a ha
    have hmem := List.mem_toFinset.mp ha
    exact Finset.mem_erase.mpr ⟨h0 a hmem, Finset.mem_range.mpr (hn a hmem)⟩
  have hcard := Finset.card_le_card hsub
  rw [List.toFinset_card_of_nodup hl, Finset.card_erase_of_mem (Finset.mem_range.mpr hpos),
    Finset.card_range] at hcard
  omega

/-- A list of nodes below a bound is shorter than the bound, since they are different. -/
theorem IsList.length_lt {l : List ℕ} {h n : ℕ} (hl : IsList nx l h) (hn : ∀ a ∈ l, a < n)
    (hpos : 0 < n) : l.length < n :=
  length_lt_of_nodup hl.nodup (fun _ ha => hl.ne_zero ha) hn hpos

/-- The node whose successor is `a` stands before `a`. -/
theorem IsList.split_of_next {l : List ℕ} {h c a : ℕ} (hl : IsList nx l h) (hc : c ∈ l) (ha : nx c = a)
    (h0 : a ≠ 0) : ∃ l₁ l₂, l = l₁ ++ c :: a :: l₂ := by
  obtain ⟨l₁, l₂, rfl⟩ := List.append_of_mem hc
  obtain ⟨h', hrest⟩ := hl.of_append
  cases l₂ with
  | nil => exact absurd (ha.symm.trans hrest.2.2) h0
  | cons b l₂ =>
      obtain rfl : a = b := ha.symm.trans hrest.2.2.1
      exact ⟨l₁, l₂, rfl⟩

/-- The node before `a`, unless `a` is the first. -/
theorem IsList.exists_next {l : List ℕ} {h a : ℕ} (hl : IsList nx l h) (ha : a ∈ l) (hne : h ≠ a) :
    ∃ c ∈ l, nx c = a := by
  induction l generalizing h with
  | nil => exact absurd ha List.not_mem_nil
  | cons b l ih =>
      obtain ⟨rfl, h0, hrest⟩ := hl
      have ha' := (List.mem_cons.mp ha).resolve_left hne.symm
      by_cases hnext : nx h = a
      · exact ⟨h, List.mem_cons_self, hnext⟩
      · obtain ⟨c, hc, hca⟩ := ih hrest ha' hnext
        exact ⟨c, List.mem_cons_of_mem _ hc, hca⟩

/-- The node before `a` gets the successor of `a` as its own. -/
theorem IsList.unlink {l₁ l₂ : List ℕ} {h c a : ℕ} (hl : IsList nx (l₁ ++ c :: a :: l₂) h)
    (hc : nx' c = nx a) (hnx : ∀ b ∈ l₁ ++ l₂, nx' b = nx b) : IsList nx' (l₁ ++ c :: l₂) h := by
  induction l₁ generalizing h with
  | nil =>
      obtain ⟨rfl, h0, -, -, hrest⟩ := hl
      refine ⟨rfl, h0, ?_⟩
      rw [hc]
      exact hrest.congr hnx
  | cons b l₁ ih =>
      obtain ⟨rfl, h0, hrest⟩ := hl
      refine ⟨rfl, h0, ?_⟩
      rw [hnx h List.mem_cons_self]
      exact ih hrest fun d hd => hnx d (List.mem_cons_of_mem _ hd)

/-- Unlinking the node `a`: the node before it, where there is one, takes over its successor. -/
theorem IsList.remove {l₁ l₂ : List ℕ} {h a : ℕ} (hl : IsList nx (l₁ ++ a :: l₂) h)
    (hnx : ∀ b ∈ l₁ ++ l₂, nx' b = if b = l₁.getLastD 0 then nx a else nx b) :
    IsList nx' (l₁ ++ l₂) (if l₁ = [] then nx a else h) := by
  rcases List.eq_nil_or_concat l₁ with rfl | ⟨l, c, rfl⟩
  · obtain ⟨-, -, hrest⟩ := hl
    refine hrest.congr fun b hb => ?_
    rw [hnx b hb]
    exact if_neg (hrest.ne_zero hb)
  · rw [if_neg (by simp)]
    simp only [List.concat_eq_append, List.getLastD_concat, List.append_assoc,
      List.singleton_append] at hl hnx ⊢
    have hsplit : IsList nx (l ++ c :: a :: l₂) h := hl
    have hnodup := hsplit.nodup
    refine hsplit.unlink ?_ fun b hb => ?_
    · rw [hnx c (by simp), if_pos rfl]
    · have hbc : b ≠ c := by
        rintro rfl
        have hperm : (l ++ b :: a :: l₂).Perm (b :: (l ++ a :: l₂)) := List.perm_middle
        refine (List.nodup_cons.mp (hperm.nodup_iff.mp hnodup)).1 ?_
        rcases List.mem_append.mp hb with h₁ | h₂
        · exact List.mem_append_left _ h₁
        · exact List.mem_append_right _ (List.mem_cons_of_mem _ h₂)
      rw [hnx b (by
        rcases List.mem_append.mp hb with h₁ | h₂
        · exact List.mem_append_left _ h₁
        · exact List.mem_append_right _ (List.mem_cons_of_mem _ h₂)), if_neg hbc]

/-- With enough iterations the search loop ends and finds what `List.find?` finds. -/
theorem search_eq_find {l : List ℕ} {h : ℕ} (hl : IsList nx l h) (p : ℕ → Bool) {n : ℕ}
    (hn : l.length < n) : search nx p n h = some ((l.find? p).getD 0) := by
  induction l generalizing h n with
  | nil =>
      obtain ⟨n, rfl⟩ : ∃ k, n = k + 1 := ⟨n - 1, by omega⟩
      subst hl
      simp [search]
  | cons a l ih =>
      obtain ⟨n, rfl⟩ : ∃ k, n = k + 1 := ⟨n - 1, by omega⟩
      obtain ⟨rfl, h0, hrest⟩ := hl
      simp only [List.length_cons] at hn
      by_cases hp : p h = true
      · simp [search, h0, hp]
      · simp only [search, h0, hp, if_false, List.find?_cons]
        exact ih hrest (by omega)

/-- The bound of the walks is enough to search any list of words. -/
theorem search_walkBound {l : List ℕ} {h : ℕ} (hl : IsList nx l h) (hlt : ∀ a ∈ l, a < 2 ^ 64)
    (p : ℕ → Bool) : search nx p walkBound h = some ((l.find? p).getD 0) :=
  search_eq_find hl p (hl.length_lt hlt (Nat.two_pow_pos 64))

/-- A search that reached the end has passed every node. -/
theorem eq_false_of_search {l : List ℕ} {h n : ℕ} {p : ℕ → Bool} (hl : IsList nx l h)
    (hsearch : search nx p n h = some 0) : ∀ a ∈ l, p a = false := by
  induction l generalizing h n with
  | nil => exact fun a ha => absurd ha List.not_mem_nil
  | cons b l ih =>
      obtain ⟨rfl, h0, hrest⟩ := hl
      cases n with
      | zero => exact absurd hsearch (by simp [search])
      | succ n =>
          simp only [search, h0, if_false] at hsearch
          by_cases hp : p h = true
          · exact absurd hsearch (by simp [hp, h0])
          · simp only [hp, if_false, Bool.false_eq_true] at hsearch
            intro a ha
            rcases List.mem_cons.mp ha with rfl | ha'
            · simpa using hp
            · exact ih hrest hsearch a ha'

/-- The loop that remembers the node before stops at the first node that satisfies `p`. -/
theorem searchPrev_found {l₁ l₂ : List ℕ} {h a prev : ℕ} (hl : IsList nx (l₁ ++ a :: l₂) h)
    {p : ℕ → Bool} (hl₁ : ∀ b ∈ l₁, p b = false) (ha : p a = true) {n : ℕ}
    (hn : (l₁ ++ a :: l₂).length < n) : searchPrev nx p n prev h = some (l₁.getLastD prev, a) := by
  induction l₁ generalizing h prev n with
  | nil =>
      obtain ⟨n, rfl⟩ : ∃ k, n = k + 1 := ⟨n - 1, by omega⟩
      obtain ⟨rfl, h0, -⟩ := hl
      simp [searchPrev, h0, ha]
  | cons b l₁ ih =>
      obtain ⟨n, rfl⟩ : ∃ k, n = k + 1 := ⟨n - 1, by omega⟩
      obtain ⟨rfl, h0, hrest⟩ := hl
      have hb : p h = false := hl₁ h List.mem_cons_self
      simp only [List.cons_append, List.length_cons] at hn
      simp only [searchPrev, h0, hb, if_false, Bool.false_eq_true]
      rw [ih hrest (fun c hc => hl₁ c (List.mem_cons_of_mem _ hc)) (by omega)]
      rw [List.getLastD_cons]

/-- A search with predecessors that finds nothing ends behind the last node. -/
theorem searchPrev_none {l : List ℕ} {h prev : ℕ} (hl : IsList nx l h) {p : ℕ → Bool}
    (hp : ∀ b ∈ l, p b = false) {n : ℕ} (hn : l.length < n) :
    searchPrev nx p n prev h = some (l.getLastD prev, 0) := by
  induction l generalizing h prev n with
  | nil =>
      obtain ⟨n, rfl⟩ : ∃ k, n = k + 1 := ⟨n - 1, by omega⟩
      subst hl
      simp [searchPrev]
  | cons b l ih =>
      obtain ⟨n, rfl⟩ : ∃ k, n = k + 1 := ⟨n - 1, by omega⟩
      obtain ⟨rfl, h0, hrest⟩ := hl
      have hb : p h = false := hp h List.mem_cons_self
      simp only [List.length_cons] at hn
      simp only [searchPrev, h0, hb, if_false, Bool.false_eq_true]
      rw [ih hrest (fun c hc => hp c (List.mem_cons_of_mem _ hc)) (by omega)]
      rw [List.getLastD_cons]

/-- The last node after one node is taken out. -/
theorem getLastD_remove (l₁ l₂ : List ℕ) (b d : ℕ) :
    (l₁ ++ l₂).getLastD d = if l₂ = [] then l₁.getLastD d else (l₁ ++ b :: l₂).getLastD d := by
  rcases List.eq_nil_or_concat l₂ with rfl | ⟨l, c, rfl⟩
  · simp
  · rw [if_neg (by simp), List.concat_eq_append, ← List.append_assoc, List.getLastD_concat,
      ← List.cons_append, ← List.append_assoc, List.getLastD_concat]

/-! ### Doubly linked lists -/

/-- A doubly linked list is a list. -/
theorem IsDList.isList {p : ℕ} {l : List ℕ} {h : ℕ} (hl : IsDList nx pv p l h) :
    IsList nx l h := by
  induction l generalizing p h with
  | nil => exact hl
  | cons a l ih => exact ⟨hl.1, hl.2.1, ih hl.2.2.2⟩

/-- A doubly linked list only depends on the links of its nodes. -/
theorem IsDList.congr {p : ℕ} {l : List ℕ} {h : ℕ} (hl : IsDList nx pv p l h)
    (hnx : ∀ a ∈ l, nx' a = nx a) (hpv : ∀ a ∈ l, pv' a = pv a) : IsDList nx' pv' p l h := by
  induction l generalizing p h with
  | nil => exact hl
  | cons a l ih =>
      obtain ⟨rfl, h0, hp, hrest⟩ := hl
      refine ⟨rfl, h0, by rw [hpv h List.mem_cons_self, hp], ?_⟩
      rw [hnx h List.mem_cons_self]
      exact ih hrest (fun b hb => hnx b (List.mem_cons_of_mem _ hb))
        (fun b hb => hpv b (List.mem_cons_of_mem _ hb))

/-- A doubly linked list is empty exactly if its head is null. -/
theorem IsDList.eq_nil_iff {p : ℕ} {l : List ℕ} {h : ℕ} (hl : IsDList nx pv p l h) :
    l = [] ↔ h = 0 := by
  cases l with
  | nil => exact ⟨fun _ => hl, fun _ => rfl⟩
  | cons a l => exact ⟨fun e => (List.cons_ne_nil _ _ e).elim, fun e => absurd (hl.1 ▸ e) hl.2.1⟩

/-- Linking a new node in front of the list. -/
theorem IsDList.push {l : List ℕ} {h b : ℕ} (hl : IsDList nx pv 0 l h) (hb : b ≠ 0)
    (hnxb : nx' b = h) (hpvb : pv' b = 0) (hhead : h ≠ 0 → pv' h = b)
    (hnx : ∀ a ∈ l, nx' a = nx a) (hpv : ∀ a ∈ l, a ≠ h → pv' a = pv a) :
    IsDList nx' pv' 0 (b :: l) b := by
  refine ⟨rfl, hb, hpvb, ?_⟩
  rw [hnxb]
  have hnodup := hl.isList.nodup
  cases l with
  | nil => exact hl
  | cons a l =>
      obtain ⟨rfl, h0, -, hrest⟩ := hl
      refine ⟨rfl, h0, hhead h0, ?_⟩
      rw [hnx h List.mem_cons_self]
      refine hrest.congr (fun c hc => hnx c (List.mem_cons_of_mem _ hc)) fun c hc => ?_
      apply hpv c (List.mem_cons_of_mem _ hc)
      intro hch
      exact (List.nodup_cons.mp hnodup).1 (hch ▸ hc)

/-- The predecessor stored in a node is the node before it. -/
theorem IsDList.pv_eq {p : ℕ} {l₁ l₂ : List ℕ} {h b : ℕ}
    (hl : IsDList nx pv p (l₁ ++ b :: l₂) h) : pv b = (p :: l₁).getLast (by simp) := by
  induction l₁ generalizing p h with
  | nil => exact hl.2.2.1
  | cons a l₁ ih =>
      rw [ih hl.2.2.2]
      simp

/-- The successor stored in a node is the node after it, or null. -/
theorem IsDList.nx_eq {p : ℕ} {l₁ l₂ : List ℕ} {h b : ℕ}
    (hl : IsDList nx pv p (l₁ ++ b :: l₂) h) : nx b = l₂.headD 0 := by
  induction l₁ generalizing p h with
  | nil =>
      obtain ⟨-, -, -, hrest⟩ := hl
      cases l₂ with
      | nil => exact hrest
      | cons c l₂ => exact hrest.1
  | cons a l₁ ih => exact ih hl.2.2.2

/-- A stored predecessor that is not null is another node of the list. -/
theorem IsDList.pv_mem {l₁ l₂ : List ℕ} {h b : ℕ} (hl : IsDList nx pv 0 (l₁ ++ b :: l₂) h)
    (h0 : pv b ≠ 0) : pv b ∈ l₁ ++ l₂ := by
  rw [hl.pv_eq] at h0 ⊢
  rcases List.mem_cons.mp (List.getLast_mem (l := 0 :: l₁) (by simp)) with e | hmem
  · exact absurd e h0
  · exact List.mem_append_left _ hmem

/-- A stored successor that is not null is another node of the list. -/
theorem IsDList.nx_mem {p : ℕ} {l₁ l₂ : List ℕ} {h b : ℕ}
    (hl : IsDList nx pv p (l₁ ++ b :: l₂) h) (h0 : nx b ≠ 0) : nx b ∈ l₁ ++ l₂ := by
  rw [hl.nx_eq] at h0 ⊢
  cases l₂ with
  | nil => exact absurd rfl h0
  | cons c l₂ => simp

/-- Only the first node has no predecessor. -/
theorem IsDList.pv_eq_zero_iff {l₁ l₂ : List ℕ} {h b : ℕ}
    (hl : IsDList nx pv 0 (l₁ ++ b :: l₂) h) : pv b = 0 ↔ l₁ = [] := by
  rw [hl.pv_eq, List.getLast_eq_getLastD]
  constructor
  · intro hz
    by_contra hcons
    rw [List.getLastD_eq_getLast?, List.getLast?_eq_some_getLast hcons, Option.getD_some] at hz
    exact hl.isList.ne_zero (List.mem_append_left _ (List.getLast_mem hcons)) hz
  · rintro rfl
    rfl

/-- Only the last node has no successor. -/
theorem IsDList.nx_eq_zero_iff {p : ℕ} {l₁ l₂ : List ℕ} {h b : ℕ}
    (hl : IsDList nx pv p (l₁ ++ b :: l₂) h) : nx b = 0 ↔ l₂ = [] := by
  rw [hl.nx_eq]
  cases l₂ with
  | nil => exact ⟨fun _ => rfl, fun _ => rfl⟩
  | cons c l₂ =>
      refine ⟨fun hz => absurd hz ?_, fun hz => absurd hz (List.cons_ne_nil c l₂)⟩
      exact hl.isList.ne_zero (a := c) (by simp)

/-- The nodes around a node are different from it. -/
theorem IsList.ne_of_mem_rest {l₁ l₂ : List ℕ} {h a b : ℕ} (hl : IsList nx (l₁ ++ b :: l₂) h)
    (ha : a ∈ l₁ ++ l₂) : a ≠ b := by
  have hperm : (l₁ ++ b :: l₂).Perm (b :: (l₁ ++ l₂)) := List.perm_middle
  rintro rfl
  exact (List.nodup_cons.mp (hperm.nodup_iff.mp hl.nodup)).1 ha

/-- A node is not its own predecessor. -/
theorem IsDList.pv_ne {l₁ l₂ : List ℕ} {h b : ℕ} (hl : IsDList nx pv 0 (l₁ ++ b :: l₂) h) :
    pv b ≠ b := by
  intro e
  have hb : b ≠ 0 := hl.isList.ne_zero (by simp)
  exact hl.isList.ne_of_mem_rest (hl.pv_mem (by rwa [e])) e

/-- Unlinking the node `b`: its predecessor takes over its successor link and its successor takes
over its predecessor link. -/
theorem IsDList.remove {p : ℕ} {l₁ l₂ : List ℕ} {h b : ℕ}
    (hl : IsDList nx pv p (l₁ ++ b :: l₂) h) (hnodup : (l₁ ++ b :: l₂).Nodup)
    (hp : p ∉ l₁ ++ b :: l₂)
    (hnx : ∀ a ∈ l₁ ++ l₂, nx' a = if a = pv b then nx b else nx a)
    (hpv : ∀ a ∈ l₁ ++ l₂, pv' a = if a = nx b then pv b else pv a) :
    IsDList nx' pv' p (l₁ ++ l₂) (if l₁ = [] then nx b else h) := by
  induction l₁ generalizing p h with
  | nil =>
      obtain ⟨rfl, h0, hpb, hrest⟩ := hl
      simp only [List.nil_append] at hnx hpv hp hnodup
      rw [if_pos rfl, List.nil_append]
      cases l₂ with
      | nil => exact hrest
      | cons c l₂ =>
          obtain ⟨hc, hc0, -, htail⟩ := hrest
          have hcp : c ≠ p := fun e => hp (by simp [e])
          have hnodup' := (List.nodup_cons.mp hnodup).2
          refine ⟨hc, hc0, ?_, ?_⟩
          · rw [hpv c List.mem_cons_self, if_pos hc.symm, hpb]
          · rw [hnx c List.mem_cons_self, if_neg (by rw [hpb]; exact hcp)]
            refine htail.congr (fun a ha => ?_) fun a ha => ?_
            · have hap : a ≠ p := fun e => hp (by simp [← e, ha])
              rw [hnx a (List.mem_cons_of_mem _ ha), if_neg (by rw [hpb]; exact hap)]
            · have hac : a ≠ c := fun e => (List.nodup_cons.mp hnodup').1 (e ▸ ha)
              rw [hpv a (List.mem_cons_of_mem _ ha), if_neg (by rw [hc]; exact hac)]
  | cons a l₁ ih =>
      have hnxb := hl.nx_eq
      have hpvb := hl.pv_eq
      obtain ⟨rfl, h0, hpa, hrest⟩ := hl
      obtain ⟨hnotin, hnodup'⟩ := List.nodup_cons.mp hnodup
      rw [if_neg (by simp)]
      -- the first node is not the one after `b`, so its predecessor link stays
      have hne : h ≠ nx b := by
        rw [hnxb]
        cases l₂ with
        | nil => exact h0
        | cons c l₂ => exact fun e => hnotin (by simp [show h = c from e])
      refine ⟨rfl, h0, ?_, ?_⟩
      · rw [hpv h (by simp), if_neg hne, hpa]
      · have hrec := ih hrest hnodup' hnotin
          (fun c hc => hnx c (List.mem_cons_of_mem _ hc))
          (fun c hc => hpv c (List.mem_cons_of_mem _ hc))
        have hnxh : nx' h = if l₁ = [] then nx b else nx h := by
          rw [hnx h (by simp)]
          by_cases hl₁ : l₁ = []
          · subst hl₁
            rw [if_pos rfl, if_pos (by simpa using hpvb.symm)]
          · rw [if_neg hl₁, if_neg]
            rw [hpvb, List.getLast_cons (by simp), List.getLast_cons hl₁]
            intro e
            exact hnotin (List.mem_append_left _ (e ▸ List.getLast_mem hl₁))
        rw [hnxh]
        exact hrec

/-- Linking a new node `n` behind the node `b`. -/
theorem IsDList.insertAfter {p : ℕ} {l₁ l₂ : List ℕ} {h b n : ℕ}
    (hl : IsDList nx pv p (l₁ ++ b :: l₂) h) (hnodup : (l₁ ++ b :: l₂).Nodup) (hn : n ≠ 0)
    (hnxb : nx' b = n) (hnxn : nx' n = nx b) (hpvn : pv' n = b)
    (hnx : ∀ a ∈ l₁ ++ l₂, nx' a = nx a) (hpvb : pv' b = pv b)
    (hpv : ∀ a ∈ l₁ ++ l₂, pv' a = if a = nx b then n else pv a) :
    IsDList nx' pv' p (l₁ ++ b :: n :: l₂) h := by
  induction l₁ generalizing p h with
  | nil =>
      obtain ⟨rfl, h0, hpb, hrest⟩ := hl
      simp only [List.nil_append] at hnx hpv hnodup ⊢
      refine ⟨rfl, h0, hpvb.trans hpb, hnxb, hn, hpvn, ?_⟩
      rw [hnxn]
      cases l₂ with
      | nil => exact hrest
      | cons c l₂ =>
          obtain ⟨hc, hc0, -, htail⟩ := hrest
          have hnodup' := (List.nodup_cons.mp hnodup).2
          refine ⟨hc, hc0, ?_, ?_⟩
          · rw [hpv c List.mem_cons_self, if_pos hc.symm]
          · rw [hnx c List.mem_cons_self]
            refine htail.congr (fun a ha => hnx a (List.mem_cons_of_mem _ ha)) fun a ha => ?_
            have hac : a ≠ c := fun e => (List.nodup_cons.mp hnodup').1 (e ▸ ha)
            rw [hpv a (List.mem_cons_of_mem _ ha), if_neg (by rw [hc]; exact hac)]
  | cons a l₁ ih =>
      have hnxb' := hl.nx_eq
      obtain ⟨rfl, h0, hpa, hrest⟩ := hl
      obtain ⟨hnotin, hnodup'⟩ := List.nodup_cons.mp hnodup
      -- the first node is not the one behind `b`
      have hne : h ≠ nx b := by
        rw [hnxb']
        cases l₂ with
        | nil => exact h0
        | cons c l₂ => exact fun e => hnotin (by simp [show h = c from e])
      refine ⟨rfl, h0, ?_, ?_⟩
      · rw [hpv h (by simp), if_neg hne, hpa]
      · rw [hnx h (by simp)]
        exact ih hrest hnodup' (fun c hc => hnx c (List.mem_cons_of_mem _ hc))
          (fun c hc => hpv c (List.mem_cons_of_mem _ hc))

end LinkedList
