-- The laws of strange indices. An index past the last node, which only another
-- and bigger graph can have given out, is answered like a node that nothing
-- keeps alive. One question lacks the check: the first such index has the place
-- of the sentinel, so the nodes right below the sentinel pass for those right
-- below it.
import HeapRetention.Proofs.Balance
import HeapRetention.Proofs.Listing

namespace HeapRetention

theorem HeapGraph.not_reachable_of_size_le {g : HeapGraph} {i : Nat} (hi : g.size ≤ i) :
    ¬ g.Reachable i := fun hreach => Nat.not_lt.mpr hi (reachable_lt hreach)

/-! ## The tree -/

namespace DominatorTree

section Strangers

variable {t : DominatorTree} {g : HeapGraph} (h : t.IsOf g) {i : Nat}

include h

theorem isReachable_of_not_reachable (hi : ¬ g.Reachable i) : t.isReachable i = false := by
  rw [← Bool.not_eq_true, isReachable_iff h]
  exact hi

/-- Nothing that is unreachable dominates a node or is dominated by one. -/
theorem dominates_of_not_reachable (hi : ¬ g.Reachable i) (v : Nat) :
    t.dominates i v = false ∧ t.dominates v i = false := by
  simp only [← Bool.not_eq_true, dominates_iff h]
  refine ⟨?_, ?_⟩
  · rintro ⟨hv, hevery⟩
    exact hi (HeapGraph.reachable_of_onEveryPath hv hevery)
  · rintro ⟨hreach, _⟩
    exact hi hreach

/-- The nodes at the place of the sentinel are those right below the sentinel. -/
theorem children_sentinelSlot : t.children (.node g.size) = t.children .sentinel := by
  unfold children slotOf
  rw [sentinelSlot_eq h]

/-- No parent has a place behind the sentinel's. -/
theorem children_of_size_lt (hi : g.size < i) : t.children (.node i) = [] := by
  unfold children
  rw [List.filter_eq_nil_iff]
  intro w hw hparent
  have hreach := (h.mem_order w).mp hw
  have hevery := onEveryPath_parent h hreach (of_decide_eq_true hparent) (Nat.ne_of_gt hi)
  exact Nat.lt_asymm hi (HeapGraph.onEveryPath_lt hreach hevery)

/-- The first node of the tree is right below the sentinel, so only a graph without roots has no
node there. -/
theorem children_sentinel_eq_nil_iff : t.children .sentinel = [] ↔ g.roots = [] := by
  refine ⟨?_, ?_⟩
  · intro hnil
    by_contra hroots
    obtain ⟨root, hroot⟩ := List.exists_mem_of_ne_nil _ hroots
    have horder := (h.mem_order _).mpr (HeapGraph.reachable_root hroot)
    obtain ⟨first, hfirst⟩ : ∃ first, t.order[0]? = some first :=
      ⟨_, List.getElem?_eq_getElem (List.length_pos_of_mem horder)⟩
    obtain ⟨dominator, hentry⟩ := exists_toList_of_order h hfirst
    cases dominator with
    | node d =>
      obtain ⟨j, hj, _⟩ := exists_earlier h hentry
      exact Nat.not_lt_zero j hj
    | sentinel =>
      have hget := ((mem_toList h).mp (List.mem_of_getElem? hentry)).2
      have hmem : first ∈ t.children .sentinel := (mem_children h List.mem_cons_self).mpr hget
      rw [hnil] at hmem
      exact List.not_mem_nil hmem
  · intro hroots
    unfold children
    rw [List.filter_eq_nil_iff]
    intro w hw
    exact absurd ((h.mem_order w).mp hw) (HeapGraph.not_reachable_of_no_roots hroots w)

/-- A strange index has nodes right below it exactly where it has the place of the sentinel and
the sentinel has some. -/
theorem children_stranger_eq_nil_iff (hi : g.size ≤ i) :
    t.children (.node i) = [] ↔ i ≠ g.size ∨ g.roots = [] := by
  by_cases hslot : i = g.size
  · rw [hslot, children_sentinelSlot h, children_sentinel_eq_nil_iff h]
    simp
  · have hlt : g.size < i := Nat.lt_of_le_of_ne hi (Ne.symm hslot)
    simp [children_of_size_lt h hlt, hslot]

end Strangers

end DominatorTree

/-! ## The retained sizes -/

namespace RetainedTable

section Strangers

variable {t : DominatorTree} {g : HeapGraph} (h : t.IsOf g) {i : Nat} (hi : g.size ≤ i)

include h hi

theorem size_stranger (heap : HeapId) : (ofTree g t).size i heap = 0 := by
  rw [size, sentinelSlot_ofTree h, if_neg (Nat.not_lt.mpr hi)]

theorem total?_stranger : (ofTree g t).total? i = some 0 := by
  rw [total?, sentinelSlot_ofTree h, if_neg (Nat.not_lt.mpr hi)]

theorem byHeap_stranger : (ofTree g t).byHeap i = [] := by
  simp [byHeap, size_stranger h hi]

end Strangers

end RetainedTable

/-! ## The law -/

open DominatorTree RetainedTable in
/-- An index past the last node has no dominator and no chain, it dominates nothing and is not
dominated, and it retains nothing of any heap. No node is right below it either, but for the first
such index in a graph with roots, below which are the nodes right below the sentinel. -/
theorem strange_indices_are_inert_but_for_the_place_of_the_sentinel (g : HeapGraph) {i : Nat}
    (hi : g.size ≤ i) :
    ∃ t, ofGraph g = .ok t ∧
      t.get? i = none ∧ t.isReachable i = false ∧
      (∀ v, t.dominates i v = false ∧ t.dominates v i = false) ∧
      t.chain i = [] ∧
      (t.children (.node i) = [] ↔ i ≠ g.size ∨ g.roots = []) ∧
      t.children (.node g.size) = t.children .sentinel ∧
      (∀ heap, (ofTree g t).size i heap = 0) ∧
      (ofTree g t).total? i = some 0 ∧ (ofTree g t).byHeap i = [] := by
  obtain ⟨t, hsearch, h⟩ := exists_tree g
  have hnot := HeapGraph.not_reachable_of_size_le hi
  exact ⟨t, hsearch, get?_of_not_reachable h hnot, isReachable_of_not_reachable h hnot,
    dominates_of_not_reachable h hnot, climb_of_not_reachable h hnot _,
    children_stranger_eq_nil_iff h hi, children_sentinelSlot h, size_stranger h hi,
    total?_stranger h hi, byHeap_stranger h hi⟩

/-- The index of the eighth node of another graph means nothing in the knot, which has five. -/
theorem the_knot_does_not_know_an_eighth_node :
    ∃ g t, (Recording.replay .four Recording.knot).build = .ok g ∧ g.size ≤ 7 ∧
      DominatorTree.ofGraph g = .ok t ∧ t.get? 7 = none ∧ t.dominates 7 2 = false ∧
      t.chain 7 = [] ∧ t.children (.node 7) = [] ∧ (RetainedTable.ofTree g t).total? 7 = some 0 := by
  have hrun : ((Recording.replay .four Recording.knot).build.toOption.bind fun g =>
      (DominatorTree.ofGraph g).toOption.map fun _ => g.size) = some 5 := by
    cbv
  obtain ⟨g, t, hbuild, hsearch, hsize⟩ := DominatorTree.exists_of_run hrun
  have hroom : g.size ≤ 7 := by
    rw [hsize]
    decide
  obtain ⟨hget, _, hdominates, hchain, hchildren, _, _, htotal, _⟩ :=
    DominatorTree.holds_of_ofGraph
      (strange_indices_are_inert_but_for_the_place_of_the_sentinel g hroom) hsearch
  refine ⟨g, t, hbuild, hroom, hsearch, hget, (hdominates 2).1, hchain, hchildren.mpr ?_, htotal⟩
  left
  rw [hsize]
  decide

/-- A root alone. -/
def Recording.alone : List Call :=
  [.heap "app", .node ⟨⟨1⟩, ⟨0⟩, .instanceOf none, .bytes 4⟩, .root ⟨1⟩ .unknown]

/-- In a graph with one node the index of the second node of another graph has that node right
below it, though it has no dominator and dominates nothing. -/
theorem a_second_node_is_taken_for_the_sentinel :
    ∃ g t, (Recording.replay .four Recording.alone).build = .ok g ∧ g.size = 1 ∧
      DominatorTree.ofGraph g = .ok t ∧ t.get? 1 = none ∧ t.dominates 1 0 = false ∧
      t.children (.node 1) = [0] := by
  have hrun : ((Recording.replay .four Recording.alone).build.toOption.bind fun g =>
      (DominatorTree.ofGraph g).toOption.map fun t =>
        (g.size, t.get? 1, t.dominates 1 0, t.children (.node 1))) = some (1, none, false, [0]) := by
    cbv
  obtain ⟨g, t, hbuild, hsearch, hseen⟩ := DominatorTree.exists_of_run hrun
  simp only [Prod.mk.injEq] at hseen
  obtain ⟨hsize, hseen⟩ := hseen
  exact ⟨g, t, hbuild, hsize, hsearch, hseen⟩

end HeapRetention
