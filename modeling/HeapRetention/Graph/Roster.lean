-- The roster of a recording: which ids its nodes have. The nodes of a snapshot
-- are numbered in the order in which they were added, so as long as no id is
-- added twice, the number of an id is its place in the list of ids.
import HeapRetention.Graph.Basic

namespace HeapRetention

/-- The ids of a list and the first repeat among them. -/
structure Roster where
  /-- The place of each id among the distinct ids. -/
  index : Std.TreeMap NodeId Nat := {}
  /-- The first id that came a second time. -/
  repeated : Option NodeId := none

namespace Roster

/-! ## Taking ids in -/

/-- Takes in one more id. -/
def add (roster : Roster) (id : NodeId) : Roster :=
  if roster.index.contains id then { roster with repeated := roster.repeated <|> some id }
  else { roster with index := roster.index.insert id roster.index.size }

/-- The roster of a list of ids. -/
def ofIds (ids : List NodeId) : Roster := ids.foldl add {}

/-! ## The place of each id -/

/-- The roster has the ids of a list, and each is at its place in it. -/
structure Lists (roster : Roster) (ids : List NodeId) : Prop where
  size_eq : roster.index.size = ids.length
  index_iff : ∀ (id : NodeId) (i : Nat), roster.index[id]? = some i ↔ ids[i]? = some id

theorem repeated_add (roster : Roster) (id : NodeId) (h : (roster.add id).repeated = none) :
    roster.repeated = none ∧ roster.index.contains id = false := by
  unfold add at h
  split at h
  · cases hr : roster.repeated <;> simp [hr] at h
  · rename_i hc
    exact ⟨h, by rwa [Bool.not_eq_true] at hc⟩

theorem repeated_foldl_add (ids : List NodeId) (roster : Roster)
    (h : (ids.foldl add roster).repeated = none) : roster.repeated = none := by
  induction ids generalizing roster with
  | nil => exact h
  | cons id rest ih => exact (repeated_add roster id (ih _ h)).1

theorem getElem?_insert (index : Std.TreeMap NodeId Nat) (id other : NodeId) (place : Nat) :
    (index.insert id place)[other]? = if id = other then some place else index[other]? := by
  rw [Std.TreeMap.getElem?_insert]
  simp only [Std.LawfulEqOrd.compare_eq_iff_eq]

theorem lists_add {roster : Roster} {ids : List NodeId} {id : NodeId} (h : roster.Lists ids)
    (hnew : roster.index.contains id = false) : (roster.add id).Lists (ids ++ [id]) := by
  have hadd : roster.add id =
      { roster with index := roster.index.insert id roster.index.size } := by
    simp [add, hnew]
  have hnot : ∀ i : Nat, ids[i]? ≠ some id := by
    intro i hi
    have hplace := (h.index_iff id i).mpr hi
    rw [Std.TreeMap.contains_eq_isSome_getElem?, hplace] at hnew
    simp at hnew
  rw [hadd]
  refine ⟨?_, ?_⟩
  · have hmem : id ∉ roster.index := by
      rw [Std.TreeMap.mem_iff_contains, hnew]
      simp
    simp [Std.TreeMap.size_insert, hmem, h.size_eq]
  · intro other i
    rw [getElem?_insert, h.size_eq, List.getElem?_append]
    by_cases hi : i < ids.length
    · rw [if_pos hi]
      split
      · rename_i hother
        subst hother
        constructor
        · intro heq
          have := Option.some.inj heq
          omega
        · intro heq
          exact absurd heq (hnot i)
      · exact h.index_iff other i
    · rw [if_neg hi]
      split
      · rename_i hother
        subst hother
        constructor
        · intro heq
          obtain rfl := Option.some.inj heq
          simp
        · intro heq
          obtain ⟨hlt, _⟩ := List.getElem?_eq_some_iff.mp heq
          rw [List.length_singleton] at hlt
          rw [Option.some.injEq]
          omega
      · rename_i hother
        rw [h.index_iff, List.getElem?_eq_none (by omega)]
        constructor
        · simp
        · intro heq
          obtain ⟨hlt, hget⟩ := List.getElem?_eq_some_iff.mp heq
          simp only [List.getElem_singleton] at hget
          exact absurd hget hother

theorem lists_foldl_add {ids : List NodeId} {roster : Roster} {before : List NodeId}
    (h : roster.Lists before) (hrep : (ids.foldl add roster).repeated = none) :
    (ids.foldl add roster).Lists (before ++ ids) := by
  induction ids generalizing roster before with
  | nil => simpa using h
  | cons id rest ih =>
    have hnew := (repeated_add roster id (repeated_foldl_add rest _ hrep)).2
    have := ih (lists_add h hnew) hrep
    simpa using this

/-- Without a repeated id, the roster gives every id its place in the list. -/
theorem lists_ofIds {ids : List NodeId} (h : (ofIds ids).repeated = none) :
    (ofIds ids).Lists ids := by
  have hempty : Lists {} [] := ⟨by simp, by simp⟩
  simpa [ofIds] using lists_foldl_add hempty h

end Roster

end HeapRetention
