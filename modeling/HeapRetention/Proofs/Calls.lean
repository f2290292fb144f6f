-- The laws of recording and building. A recording is what the calls of a
-- loader leave behind, whatever their order. It builds exactly when none of
-- the five faults is in it, and then its references are the graph's.
import HeapRetention.Graph.Recording
import HeapRetention.Proofs.Lists

namespace HeapRetention

namespace Recording

/-! ## Calls -/

/-- A call of a loader. Instances, classes and arrays are nodes with their own records. -/
inductive Call where
  | heap (name : String)
  | node (record : NodeRecord)
  | reference (source target : NodeId)
  | references (source : NodeId) (targets : List NodeId)
  | root (id : NodeId) (kind : RootKind)
deriving DecidableEq, Repr

/-- The recording after one more call. -/
def perform (r : Recording) : Call → Recording
  | .heap name => (r.heap name).2
  | .node record => r.addNode record
  | .reference source target => r.addReference source target
  | .references source targets => r.addReferences source targets
  | .root id kind => r.addRoot id kind

/-- The recording before the first call. -/
def start (width : IdWidth) : Recording :=
  { width := width, heaps_nodup := List.nodup_nil, heaps_size_le := Nat.zero_le maxHeaps }

/-- The recording of a list of calls, for identifiers of a width. -/
def replay (width : IdWidth) (calls : List Call) : Recording := calls.foldl perform (start width)

/-! ## Asking for a heap -/

theorem heap_of_known (r : Recording) {name : String} {slot : Nat}
    (h : r.heaps.toList.idxOf? name = some slot) : r.heap name = (HeapId.ofSlot slot, r) := by
  unfold heap
  split
  · rename_i known hknown
    rw [h] at hknown
    rw [Option.some.inj hknown]
  · rename_i hnew
    rw [h] at hnew
    cases hnew

theorem nodup_push {r : Recording} {name : String} (h : r.heaps.toList.idxOf? name = none) :
    (r.heaps.push name).toList.Nodup := by
  rw [Array.toList_push, ← List.concat_eq_append]
  apply List.Nodup.concat _ r.heaps_nodup
  simpa using h

theorem heap_of_new (r : Recording) {name : String} (h : r.heaps.toList.idxOf? name = none)
    (hroom : r.heaps.size < maxHeaps) :
    r.heap name = (HeapId.ofSlot r.heaps.size,
      { r with
        heaps := r.heaps.push name
        heaps_nodup := nodup_push h
        heaps_size_le := by rw [Array.size_push]; exact hroom }) := by
  unfold heap
  split
  · rename_i hknown
    rw [h] at hknown
    cases hknown
  · rw [dif_pos hroom]

theorem heap_of_full (r : Recording) {name : String} (h : r.heaps.toList.idxOf? name = none)
    (hfull : ¬ r.heaps.size < maxHeaps) :
    r.heap name = (HeapId.ofSlot (maxHeaps - 1), { r with tooManyHeaps := true }) := by
  unfold heap
  split
  · rename_i hknown
    rw [h] at hknown
    cases hknown
  · rw [dif_neg hfull]

/-! ## What builds -/

theorem mem_sorted {hole : Hole} {holes : List Hole} : hole ∈ Hole.sorted holes ↔ hole ∈ holes := by
  unfold Hole.sorted
  rw [mem_eraseReps, List.mem_mergeSort]

/-- A recording without holes names only ids that it has. -/
theorem holes_eq_nil_iff {r : Recording} {index : Std.TreeMap NodeId Nat} :
    r.holes index = [] ↔ (∀ reference ∈ r.references, referenceHole? index reference = none) ∧
      ∀ root ∈ r.roots, rootHole? index root = none := by
  unfold holes
  rw [List.eq_nil_iff_forall_not_mem]
  simp only [mem_sorted, List.mem_append, List.mem_filterMap, Array.mem_toList_iff, not_or,
    not_exists, not_and]
  refine ⟨?_, ?_⟩
  · intro h
    refine ⟨?_, ?_⟩
    · intro reference hreference
      exact Option.eq_none_iff_forall_ne_some.mpr fun hole => (h hole).1 reference hreference
    · intro root hroot
      exact Option.eq_none_iff_forall_ne_some.mpr fun hole => (h hole).2 root hroot
  · rintro ⟨hreferences, hroots⟩ hole
    refine ⟨?_, ?_⟩
    · intro reference hreference
      simp [hreferences reference hreference]
    · intro root hroot
      simp [hroots root hroot]

theorem build_eq_ok_iff {r : Recording} {g : HeapGraph} :
    r.build = .ok g ↔ (Roster.ofIds r.ids).repeated = none ∧ r.tooManyHeaps = false ∧
      r.holes (Roster.ofIds r.ids).index = [] ∧
      ∃ hlists hsize hheaps, g = r.graph (Roster.ofIds r.ids) hlists hsize hheaps := by
  unfold build
  refine ⟨?_, ?_⟩
  · intro h
    simp only at h
    split at h
    · cases h
    · split at h
      · cases h
      · rename_i htoo
        split at h
        · cases h
        · rename_i hrep
          split at h
          · cases h
          · split at h
            · cases h
            · rename_i hholes
              exact ⟨hrep, by simpa using htoo, hholes, _, _, _, (Except.ok.inj h).symm⟩
  · rintro ⟨hrep, htoo, hholes, hlists, hsize, hheaps, rfl⟩
    have hfits : ¬ maxNodes < (Roster.ofIds r.ids).index.size := by
      rw [hlists.size_eq]
      simpa [ids] using hsize
    simp only
    rw [dif_neg hfits, if_neg (by rw [htoo]; exact Bool.false_ne_true)]
    split
    · rename_i hsome
      rw [hrep] at hsome
      cases hsome
    · split
      · rename_i record hfind
        have hbad := Array.find?_some hfind
        have hmem := Array.mem_of_find?_eq_some hfind
        have := hheaps record hmem
        simp only [decide_eq_true_eq] at hbad
        omega
      · split
        · rename_i hcons
          rw [hholes] at hcons
          cases hcons
        · rfl

/-! ## What was built -/

/-- The references of a node are its recorded ones, in the order in which they were recorded. -/
theorem references_graph {r : Recording} {roster : Roster} (hlists : roster.Lists r.ids)
    (hsize : r.nodes.size ≤ maxNodes)
    (hheaps : ∀ record ∈ r.nodes, record.heap.slot < r.heaps.size) (u : Nat) :
    (r.graph roster hlists hsize hheaps).references u =
      ((r.references.toList.filterMap (edge? roster.index)).filter (·.1 = u)).map (·.2) := by
  have hsources : ∀ edge ∈ r.references.toList.filterMap (edge? roster.index),
      edge.1 < r.nodes.size := by
    intro edge hedge
    obtain ⟨reference, _, hresolved⟩ := List.mem_filterMap.mp hedge
    have hsource := (hlists.index_iff _ _).mp (edge?_eq_some_iff.mp hresolved).1
    obtain ⟨hlt, _⟩ := List.getElem?_eq_some_iff.mp hsource
    simpa [ids] using hlt
  have hsize : (r.graph roster hlists hsize hheaps).size = r.nodes.size := by
    simp [graph, HeapGraph.size]
  by_cases hu : u < r.nodes.size
  · rw [HeapGraph.references, HeapGraph.references?_of_lt _ (by rwa [hsize]), Option.getD_some]
    exact row_edgeTable hsources hu
  · rw [HeapGraph.references_of_le _ (by rw [hsize]; exact Nat.not_lt.mp hu), eq_comm,
      List.map_eq_nil_iff, List.filter_eq_nil_iff]
    intro edge hedge
    have hlt := hsources edge hedge
    simp only [decide_eq_true_eq]
    omega

/-- Two roots that lead into one cycle at two of its nodes. -/
def knot : List Call :=
  [.heap "app", .root ⟨1⟩ .unknown, .root ⟨5⟩ .unknown] ++
    [1, 2, 3, 4, 5].map (fun n => .node ⟨⟨n⟩, ⟨0⟩, .instanceOf none, .bytes n⟩) ++
    [.reference ⟨1⟩ ⟨2⟩, .reference ⟨5⟩ ⟨3⟩, .reference ⟨2⟩ ⟨3⟩, .reference ⟨3⟩ ⟨4⟩,
      .reference ⟨4⟩ ⟨2⟩]

end Recording

end HeapRetention
