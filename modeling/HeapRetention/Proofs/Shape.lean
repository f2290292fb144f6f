-- The laws of shape. A search reads of a graph how many nodes it has, what they
-- refer to and which of them are roots, and nothing else. So graphs of one
-- shape have one tree, whatever their nodes are, however large they are and
-- in whatever heaps they lie.
import HeapRetention.Proofs.Ancestors
import HeapRetention.Proofs.Faults

namespace HeapRetention

/-! ## Graphs of one shape -/

namespace HeapGraph

/-- The graphs have as many nodes, the same references and the same roots. -/
structure SameShape (g' g : HeapGraph) : Prop where
  size_eq : g'.size = g.size
  references_eq : ∀ u, g'.references u = g.references u
  roots_eq : g'.roots = g.roots

section SameShape

variable {g' g : HeapGraph} (h : g'.SameShape g)

include h

theorem rootIndices_congr : g'.rootIndices = g.rootIndices := by
  unfold rootIndices
  rw [h.size_eq, h.roots_eq]

theorem successors_congr : g'.successors = g.successors := by
  funext slot
  unfold successors
  rw [h.size_eq, rootIndices_congr h, h.references_eq]

theorem traversal_congr : g'.traversal = g.traversal := by
  unfold traversal
  rw [successors_congr h, h.size_eq]

theorem predecessors_congr : g'.predecessors = g.predecessors := by
  unfold predecessors
  rw [traversal_congr h, successors_congr h, h.size_eq]

end SameShape

end HeapGraph

namespace DominatorTree

theorem search_congr {g' g : HeapGraph} (h : g'.SameShape g) (maxPasses : Option UInt64)
    (cancelled : Bool) : search g' maxPasses cancelled = search g maxPasses cancelled := by
  unfold search rootless warningsFor
  rw [HeapGraph.rootIndices_congr h, HeapGraph.traversal_congr h, HeapGraph.predecessors_congr h,
    h.size_eq]

/-- Graphs of one shape share the tree that is found for each of them. -/
theorem exists_shared_tree {g' g : HeapGraph} (h : g'.SameShape g) :
    ∃ t, ofGraph g = .ok t ∧ ofGraph g' = .ok t ∧ t.IsOf g ∧ t.IsOf g' := by
  obtain ⟨t, hsearch, ht⟩ := exists_tree g
  obtain ⟨t', hsearch', ht'⟩ := exists_tree g'
  have hsame : ofGraph g' = ofGraph g := search_congr h none false
  rw [hsame, hsearch] at hsearch'
  obtain rfl := Except.ok.inj hsearch'
  exact ⟨t, hsearch, hsame.trans hsearch, ht, ht'⟩

end DominatorTree

/-! ## Recordings of one shape -/

namespace Recording

/-- Recordings with the same ids, references and roots are built into graphs of one shape. -/
theorem sameShape_built {r' r : Recording} {g' g : HeapGraph} (hbuild' : r'.build = .ok g')
    (hbuild : r.build = .ok g) (hids : r'.ids = r.ids)
    (hreferences : r'.references.toList = r.references.toList)
    (hroots : r'.roots.toList = r.roots.toList) : g'.SameShape g := by
  have hsize : g'.size = g.size := by
    have hlength := congrArg List.length hids
    simp only [ids, List.length_map, Array.length_toList] at hlength
    rw [size_built hbuild', size_built hbuild, hlength]
  obtain ⟨_, _, _, _, _, _, rfl⟩ := build_eq_ok_iff.mp hbuild'
  obtain ⟨_, _, _, _, _, _, rfl⟩ := build_eq_ok_iff.mp hbuild
  refine ⟨hsize, ?_, ?_⟩
  · intro u
    rw [references_graph, references_graph, hids, hreferences]
  · simp only [graph, hids, hroots]

/-- So are recordings whose calls differ in their heaps and in what they say of nodes besides their
ids, for identifiers of whatever widths. -/
theorem sameShape_replay {width' width : IdWidth} {calls' calls : List Call} {g' g : HeapGraph}
    (hbuild' : (replay width' calls').build = .ok g')
    (hbuild : (replay width calls).build = .ok g) (hids : idsOf calls' = idsOf calls)
    (hedges : edgesOf calls' = edgesOf calls) (hroots : rootsOf calls' = rootsOf calls) :
    g'.SameShape g := by
  apply sameShape_built hbuild' hbuild
  · rw [ids_replay, ids_replay, hids]
  · rw [references_replay, references_replay, hedges]
  · rw [roots_replay, roots_replay, hroots]

/-- The node at a place is the one that was recorded there. -/
theorem node?_replay {width : IdWidth} {calls : List Call} {g : HeapGraph}
    (hbuild : (replay width calls).build = .ok g) (i : Nat) :
    g.node? i = (nodesOf calls)[i]?.map (·.resolve width) := by
  rw [HeapGraph.node?, nodes_built hbuild, width_replay, Array.getElem?_map,
    ← Array.getElem?_toList, nodes_replay]

end Recording

/-! ## What is dominated -/

namespace DominatorTree

section SharedTree

variable {t : DominatorTree} {g : HeapGraph} (h : t.IsOf g)

include h

theorem reachable_eq : g.Reachable = fun w => t.isReachable w = true := by
  funext w
  exact propext (isReachable_iff h).symm

theorem guarded_eq (v : Nat) :
    (fun w => g.Reachable w ∧ g.OnEveryPath v w) = fun w => t.dominates v w = true := by
  funext w
  exact propext (dominates_iff h).symm

end SharedTree

end DominatorTree

end HeapRetention
