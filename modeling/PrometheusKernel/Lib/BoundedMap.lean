import Mathlib.Data.List.Nodup
import Mathlib.Tactic

/-!
# Bounded maps in insertion order

A map with at most `max` keys that remembers in which order its keys were inserted: a list of pairs,
newest first. An insertion of a key that is there changes nothing; into a full map it first drops the
oldest pair. `ok` says whether there is memory for a new pair, since an implementation may have to
give up after it made room.

`Valid max m` holds of every map that these operations build, and `mem_insert`, `mem_erase` and
`mem_evict` say where a pair of the new map comes from.
-/

namespace BoundedMap

variable {κ ν : Type*} [DecidableEq κ] {m : List (κ × ν)} {k : κ} {v : ν} {max : ℕ}

/-- The value of a key. -/
def find (m : List (κ × ν)) (k : κ) : Option ν := (m.find? fun e => e.1 = k).map Prod.snd

/-- The oldest pair is dropped. -/
def evict (m : List (κ × ν)) : List (κ × ν) := m.dropLast

/-- Room for one more pair. -/
def makeRoom (max : ℕ) (m : List (κ × ν)) : List (κ × ν) := if max ≤ m.length then evict m else m

/-- An insertion; a key that is there keeps its value. -/
def insert (max : ℕ) (ok : Bool) (k : κ) (v : ν) (m : List (κ × ν)) : List (κ × ν) :=
  if (find m k).isSome then m else if ok then (k, v) :: makeRoom max m else makeRoom max m

/-- The key is taken out. -/
def erase (m : List (κ × ν)) (k : κ) : List (κ × ν) := m.eraseP fun e => e.1 = k

/-- Every key has one value and there are at most `max` keys. -/
structure Valid (max : ℕ) (m : List (κ × ν)) : Prop where
  nodup : (m.map Prod.fst).Nodup
  length_le : m.length ≤ max

omit [DecidableEq κ] in
/-- The empty map is within any bound. -/
theorem valid_nil (max : ℕ) : Valid max ([] : List (κ × ν)) := ⟨List.nodup_nil, Nat.zero_le _⟩

/-- A look-up fails exactly for the keys that are absent. -/
theorem find_eq_none_iff : find m k = none ↔ k ∉ m.map Prod.fst := by
  unfold find
  rw [Option.map_eq_none_iff, List.find?_eq_none]
  simp only [decide_eq_true_eq, List.mem_map, not_exists, not_and]

/-- The values are those of the pairs. -/
theorem find_eq_some_iff (hm : (m.map Prod.fst).Nodup) : find m k = some v ↔ (k, v) ∈ m := by
  unfold find
  constructor
  · intro h
    obtain ⟨e, he, rfl⟩ := Option.map_eq_some_iff.mp h
    have hkey : e.1 = k := by simpa using List.find?_some he
    rw [← hkey]
    exact List.mem_of_find?_eq_some he
  · intro h
    induction m with
    | nil => exact absurd h List.not_mem_nil
    | cons e m ih =>
        obtain ⟨hnotin, hrest⟩ := List.nodup_cons.mp hm
        rcases List.mem_cons.mp h with rfl | hmem
        · simp
        · have hne : e.1 ≠ k := by
            rintro rfl
            exact hnotin (List.mem_map.mpr ⟨(e.1, v), hmem, rfl⟩)
          rw [List.find?_cons_of_neg (by simpa using hne)]
          exact ih hrest hmem

/-! ### Where the pairs come from -/

omit [DecidableEq κ] in
/-- An eviction adds nothing. -/
theorem mem_evict {e : κ × ν} (h : e ∈ evict m) : e ∈ m := List.mem_of_mem_dropLast h

omit [DecidableEq κ] in
/-- Making room adds nothing. -/
theorem mem_makeRoom {e : κ × ν} (h : e ∈ makeRoom max m) : e ∈ m := by
  unfold makeRoom at h
  split_ifs at h
  · exact mem_evict h
  · exact h

/-- After an insertion a pair was there before, or it is the new one and its key was absent. -/
theorem mem_insert {ok : Bool} {e : κ × ν} (h : e ∈ insert max ok k v m) :
    e ∈ m ∨ e = (k, v) ∧ k ∉ m.map Prod.fst := by
  unfold insert at h
  split_ifs at h with hk hok
  · exact Or.inl h
  · rcases List.mem_cons.mp h with he | hmem
    · exact Or.inr ⟨he, find_eq_none_iff.mp (by simpa using hk)⟩
    · exact Or.inl (mem_makeRoom hmem)
  · exact Or.inl (mem_makeRoom h)

/-- A removal adds nothing. -/
theorem mem_erase {e : κ × ν} (h : e ∈ erase m k) : e ∈ m := List.mem_of_mem_eraseP h

/-! ### The operations keep the bound -/

omit [DecidableEq κ] in
/-- A part of a valid map is valid. -/
theorem Valid.sublist {m' : List (κ × ν)} (h : Valid max m) (hsub : m'.Sublist m) : Valid max m' :=
  ⟨h.nodup.sublist (hsub.map _), hsub.length_le.trans h.length_le⟩

omit [DecidableEq κ] in
/-- An eviction keeps the map valid. -/
theorem Valid.evict (h : Valid max m) : Valid max (evict m) := h.sublist (List.dropLast_sublist m)

omit [DecidableEq κ] in
/-- Making room only drops pairs. -/
theorem makeRoom_sublist (max : ℕ) (m : List (κ × ν)) : (makeRoom max m).Sublist m := by
  unfold makeRoom
  split_ifs
  · exact List.dropLast_sublist m
  · exact List.Sublist.refl m

omit [DecidableEq κ] in
/-- After `makeRoom` one more pair fits. -/
theorem Valid.length_makeRoom (h : Valid max m) (hpos : 1 ≤ max) : (makeRoom max m).length + 1 ≤ max := by
  have hlen := h.length_le
  unfold makeRoom BoundedMap.evict
  split_ifs with hfull
  · rw [List.length_dropLast]
    omega
  · omega

/-- An insertion keeps the map valid: it makes room first, and a key that is there is not inserted again. -/
theorem Valid.insert (h : Valid max m) (hpos : 1 ≤ max) (ok : Bool) (k : κ) (v : ν) :
    Valid max (insert max ok k v m) := by
  have hroom := h.sublist (makeRoom_sublist max m)
  unfold BoundedMap.insert
  split_ifs with hk hok
  · exact h
  · refine ⟨?_, h.length_makeRoom hpos⟩
    rw [List.map_cons]
    refine List.nodup_cons.mpr ⟨fun hmem => ?_, hroom.nodup⟩
    have hnone : find m k = none := by simpa using hk
    exact find_eq_none_iff.mp hnone (((makeRoom_sublist max m).map _).subset hmem)
  · exact hroom

/-- A removal keeps the map valid. -/
theorem Valid.erase (h : Valid max m) (k : κ) : Valid max (erase m k) := h.sublist List.eraseP_sublist

end BoundedMap
