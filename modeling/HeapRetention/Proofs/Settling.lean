-- The laws of how soon a search settles. A limit on passes lets the tree
-- through from one exact number on. Where every reference that leads back
-- leads to a dominator, no simple path retreats, so the first pass finds all
-- dominators and the second one confirms them.
import HeapRetention.Proofs.Listing
import HeapRetention.Proofs.Retreats
import HeapRetention.Session

namespace HeapRetention

/-! ## Two passes -/

namespace Traversal

section Laws

variable {t : Traversal} {successors : Nat → List Nat} {start : Nat}

/-- Where no simple path retreats, the first pass finds the dominators and the second one changes
nothing. -/
theorem two_passes (hc : t.Covers successors start) {predecessors : CompressedRows}
    (hlists : t.ListsPredecessors successors predecessors) {slots : Nat}
    (hsize : slots = t.numbers.size) (hslots : ∀ v ∈ t.order, v < slots)
    (hsome : t.order.tail ≠ [])
    (hnever : ∀ trail v, Path successors start trail v → trail.Nodup → t.retreats trail < 1) :
    ∃ after, t.pass predecessors (firstParents slots start) = .ok (after, true) ∧
      t.pass predecessors after = .ok (after, false) ∧ t.Exact successors start after := by
  have hfalls := falls_tail hc
  have hsub : ∀ v ∈ t.order.tail, v ∈ t.order ∧ v ≠ start := fun v hv => (mem_tail_iff hc).mp hv
  obtain ⟨after, changes, hfirst, hafter, hsame, -⟩ :=
    foldlM_improve_spec hc hlists hfalls hsub (passInvariant_first hc hsize hslots) false
  have hchanges : changes = true := by
    by_contra hfalse
    obtain ⟨v, hv⟩ := List.exists_mem_of_ne_nil _ hsome
    obtain ⟨_, _, hall⟩ := hsame (Bool.eq_false_iff.mpr hfalse)
    obtain ⟨m, hm, _⟩ := hall v hv
    exact (hsub v hv).2 (eq_start_of_first (hslots start (start_mem_order hc)) hm).1
  have hnext := passInvariant_next hc hafter
  have hexact := exact_of_visits hnever (Nat.le_refl 1) hnext
  obtain ⟨last, changes', hsecond, _, hsame', hagreed⟩ :=
    foldlM_improve_spec hc hlists hfalls hsub hnext false
  have hchanges' : changes' = false := hagreed fun v m hm => parent_of_exact hc hexact hm
  obtain ⟨rfl, _, _⟩ := hsame' hchanges'
  refine ⟨last, ?_, ?_, hexact⟩
  · rw [← hchanges]
    exact hfirst
  · rw [← hchanges']
    exact hsecond

/-- A pass that changes something and one that does not are the two passes of the search. -/
theorem settle_two_passes {predecessors : CompressedRows} {first after : Parents}
    (hfirst : t.pass predecessors first = .ok (after, true))
    (hsecond : t.pass predecessors after = .ok (after, false)) (more : Nat) :
    t.settle predecessors false (more + 2) 0 first = .ok (after, 2) := by
  simp [settle, hfirst, hsecond]

/-- Along the order the numbers fall, so an earlier place has a larger number. -/
theorem idxOf_le_iff {order : List Nat} (hfalls : order.Pairwise fun u v => t.number v < t.number u)
    {u v : Nat} (hu : u ∈ order) (hv : v ∈ order) :
    order.idxOf v ≤ order.idxOf u ↔ t.number u ≤ t.number v := by
  have hearlier : ∀ a ∈ order, ∀ b ∈ order, order.idxOf a < order.idxOf b →
      t.number b < t.number a := by
    intro a ha b hb hlt
    have hrel := List.pairwise_iff_getElem.mp hfalls _ _ (List.idxOf_lt_length_of_mem ha)
      (List.idxOf_lt_length_of_mem hb) hlt
    simpa using hrel
  rcases Nat.lt_trichotomy (order.idxOf v) (order.idxOf u) with hlt | heq | hgt
  · have := hearlier v hv u hu hlt
    omega
  · rw [(List.idxOf_inj hv).mp heq]
    simp
  · have := hearlier u hu v hv hgt
    omega

end Laws

end Traversal

/-! ## References that lead back -/

namespace HeapGraph

/-- No reachable node has a way of references to another node and back. -/
def IsAcyclic (g : HeapGraph) : Prop :=
  ∀ u v, g.Reachable u → Reaches g.references u v → Reaches g.references v u → u = v

/-- The parents before the first pass. -/
def firstParents (g : HeapGraph) : Parents := Traversal.firstParents (g.size + 1) g.size

/-- Behind a node the paths from the sentinel go by references alone. -/
theorem reaches_references {g : HeapGraph} {v u : Nat} (hv : v < g.size)
    (h : Reaches g.successors v u) : u < g.size ∧ Reaches g.references v u := by
  obtain ⟨trail, hpath⟩ := h
  induction hpath with
  | start => exact ⟨hv, [v], Path.start⟩
  | @step trail u w _ hedge ih =>
    obtain ⟨hu, hreaches⟩ := ih
    rw [successors_node (Nat.ne_of_lt hu)] at hedge
    exact ⟨g.references_lt hedge, reaches_step hreaches hedge⟩

/-- A reference that does not lead forward in the traversal has a way back. -/
theorem reaches_of_retreat {g : HeapGraph} {u v : Nat} (hu : g.Reachable u)
    (hedge : v ∈ g.references u) (hle : g.traversal.number u ≤ g.traversal.number v) :
    Reaches g.references v u := by
  have hsuccessor : v ∈ g.successors u := by
    rwa [successors_node (Nat.ne_of_lt (reachable_lt hu))]
  have hback : Reaches g.successors v u :=
    Traversal.reaches_of_retreat (Nat.lt_succ_self _) g.successors_lt_slots
      (List.mem_of_mem_tail (mem_order_tail.mpr hu)) hsuccessor hle
  exact (reaches_references (g.references_lt hedge) hback).2

end HeapGraph

namespace DominatorTree

/-- The place of a node in the listing of the tree. -/
def place (t : DominatorTree) (v : Nat) : Nat := (t.toList.map Prod.fst).idxOf v

/-- A reference between reachable nodes leads forward in the listing of the tree, or it leads to a
dominator. -/
def IsReducible (t : DominatorTree) (g : HeapGraph) : Prop :=
  ∀ u v, g.Reachable u → g.Reachable v → v ∈ g.references u → t.place v ≤ t.place u →
    t.dominates v u = true

section Reducible

variable {t : DominatorTree} {g : HeapGraph} (h : t.IsOf g)
  (horder : t.order = g.traversal.order.tail)

include h horder

theorem place_le_iff {u v : Nat} (hu : g.Reachable u) (hv : g.Reachable v) :
    t.place v ≤ t.place u ↔ g.traversal.number u ≤ g.traversal.number v := by
  unfold place
  rw [keys_toList h]
  apply Traversal.idxOf_le_iff _ ((h.mem_order u).mpr hu) ((h.mem_order v).mpr hv)
  rw [horder]
  exact Traversal.falls_tail g.covers_traversal

/-- Without cycles no reference leads back but one of a node to itself. -/
theorem isReducible_of_isAcyclic (hacyclic : g.IsAcyclic) : t.IsReducible g := by
  intro u v hu hv hedge hplace
  have hback := HeapGraph.reaches_of_retreat hu hedge ((place_le_iff h horder hu hv).mp hplace)
  have hself : u = v := hacyclic u v hu (reaches_step ⟨[u], Path.start⟩ hedge) hback
  subst hself
  rw [dominates_iff h]
  exact ⟨hu, fun _ hpath => HeapGraph.rootPath_end_mem hpath⟩

/-- A path that retreats comes back to a dominator of the node where it does, which it has passed
before. -/
theorem retreats_eq_zero (hreducible : t.IsReducible g) {trail : List Nat} {v : Nat}
    (hpath : Path g.successors g.size trail v) (hnodup : trail.Nodup) :
    g.traversal.retreats trail = 0 := by
  induction hpath with
  | start => rfl
  | @step trail u v hpath hedge ih =>
    obtain ⟨hnew, hrest⟩ := List.nodup_cons.mp hnodup
    rw [Traversal.retreats_step hpath, ih hrest, Nat.add_zero, if_neg]
    intro hle
    have hc := g.covers_traversal
    have hvnode := Nat.ne_of_lt (HeapGraph.successors_lt hedge)
    have hvorder : v ∈ g.traversal.order := (hc.mem_order v).mpr ⟨_, Path.step hpath hedge⟩
    have hunode : u ≠ g.size := by
      rintro rfl
      have := Traversal.number_lt_start hc hvorder hvnode
      omega
    have hu : g.Reachable u := HeapGraph.reachable_iff_reaches.mpr ⟨hunode, _, hpath⟩
    have hv : g.Reachable v :=
      HeapGraph.reachable_iff_reaches.mpr ⟨hvnode, _, Path.step hpath hedge⟩
    rw [HeapGraph.successors_node hunode] at hedge
    have hdominates := hreducible u v hu hv hedge ((place_le_iff h horder hu hv).mpr hle)
    have hguards := ((dominates_iff h).mp hdominates).2
    exact hnew ((HeapGraph.onEveryPath_iff_guards hvnode hunode).mp hguards trail hpath)

end Reducible

theorem ofGraph_two_passes {g : HeapGraph} (hroots : g.roots ≠ []) {parents : Parents}
    (hfirst : g.pass g.firstParents = .ok (parents, true))
    (hsecond : g.pass parents = .ok (parents, false)) :
    ofGraph g =
      .ok ⟨parents, g.traversal.order.tail, 2, warningsFor g g.traversal.reachable⟩ := by
  have hsettle := Traversal.settle_two_passes hfirst hsecond g.traversal.reachable
  unfold HeapGraph.firstParents at hsettle
  rw [ofGraph, search_rooted hroots, HeapGraph.passesAllowed_eq, hsettle]
  rfl

/-- Where every reference that does not lead forward leads to a dominator, as in a graph without
cycles, one pass finds all dominators and one confirms them. -/
theorem reducible_graphs_settle_in_one_pass (g : HeapGraph) (hroots : g.roots ≠ []) :
    ∃ t, ofGraph g = .ok t ∧ (g.IsAcyclic → t.IsReducible g) ∧
      (t.IsReducible g → t.passes = 2 ∧ g.pass g.firstParents = .ok (t.parents, true) ∧
        g.pass t.parents = .ok (t.parents, false)) := by
  obtain ⟨parents, passes, hsearch, hexact, _⟩ := ofGraph_rooted hroots
  have h := isOf_of_exact passes (warningsFor g g.traversal.reachable) hexact
  refine ⟨_, hsearch, isReducible_of_isAcyclic h rfl, ?_⟩
  intro hreducible
  have hsome : g.traversal.order.tail ≠ [] := by
    obtain ⟨root, hroot⟩ := List.exists_mem_of_ne_nil _ hroots
    exact List.ne_nil_of_mem (HeapGraph.mem_order_tail.mpr (HeapGraph.reachable_root hroot))
  obtain ⟨after, hfirst, hsecond, _⟩ := Traversal.two_passes g.covers_traversal
    g.listsPredecessors (DepthFirst.size_numbering _ _).symm
    HeapGraph.order_lt hsome fun trail v hpath hnodup => by
      rw [retreats_eq_zero h rfl hreducible hpath hnodup]
      exact Nat.zero_lt_one
  have htwo := ofGraph_two_passes hroots hfirst hsecond
  rw [hsearch] at htwo
  obtain ⟨rfl, _, rfl, _⟩ := DominatorTree.mk.inj (Except.ok.inj htwo)
  exact ⟨rfl, hfirst, hsecond⟩

/-- A loop that is entered at one node, with a reference of a node to itself. -/
def loop : List Recording.Call :=
  [.heap "app", .root ⟨1⟩ .unknown] ++
    [1, 2, 3].map (fun n => .node ⟨⟨n⟩, ⟨0⟩, .instanceOf none, .bytes n⟩) ++
    [.reference ⟨1⟩ ⟨2⟩, .reference ⟨2⟩ ⟨3⟩, .reference ⟨3⟩ ⟨2⟩, .reference ⟨3⟩ ⟨3⟩]

/-- The references of the loop that lead back lead to its entry or to the node itself. -/
theorem a_loop_with_one_entry_settles_in_one_pass :
    ∃ g t, (Recording.replay .four loop).build = .ok g ∧ ofGraph g = .ok t ∧ g.roots ≠ [] ∧
      t.IsReducible g ∧ t.passes = 2 := by
  have hrun : ((Recording.replay .four loop).build.toOption.bind fun g =>
      (ofGraph g).toOption.map fun t =>
        (g.roots, (List.range g.size).all fun u => (g.references u).all fun v =>
          decide (t.place u < t.place v) || t.dominates v u)) =
      some ([⟨0, .unknown⟩], true) := by
    cbv
  obtain ⟨g, t, hbuild, hsearch, hseen⟩ := exists_of_run hrun
  obtain ⟨hroots, hcheck⟩ := Prod.mk.inj hseen
  have hsome : g.roots ≠ [] := by simp [hroots]
  have hreducible : t.IsReducible g := by
    intro u v hu _ hedge hplace
    have hrow := List.all_eq_true.mp hcheck u (List.mem_range.mpr (HeapGraph.reachable_lt hu))
    have hchecked := List.all_eq_true.mp hrow v hedge
    rwa [decide_eq_false (Nat.not_lt.mpr hplace), Bool.false_or] at hchecked
  obtain ⟨_, htwo⟩ := holds_of_ofGraph (reducible_graphs_settle_in_one_pass g hsome) hsearch
  exact ⟨g, t, hbuild, hsearch, hsome, hreducible, (htwo hreducible).1⟩

/-! ## Limits and tokens -/

/-- A limit on passes lets the tree through if it has room for the passes that the tree takes, and
otherwise ends the search at the limit. A cancelled token ends it before the first pass. Neither
matters to a graph without roots. -/
theorem a_limit_lets_the_same_tree_through_or_none (g : HeapGraph) :
    ∃ t, ofGraph g = .ok t ∧ ∀ (limit : UInt64) (tokens : TokenStore) (token : Option Token),
      let answer := search g (some limit) (token.any tokens.isCancelled)
      (g.roots = [] → answer = .ok t) ∧
      (token.any tokens.isCancelled = false → answer =
        if t.passes ≤ limit.toNat then .ok t else .error (.unsettled limit.toNat)) ∧
      (token.any tokens.isCancelled = true → g.roots ≠ [] → answer = .error (.cancelled 0)) := by
  obtain ⟨t, hsearch, _⟩ := exists_tree g
  refine ⟨t, hsearch, ?_⟩
  intro limit tokens token answer
  refine ⟨?_, ?_, ?_⟩
  · intro hroots
    rw [ofGraph_rootless hroots] at hsearch
    rw [← hsearch]
    exact search_rootless hroots _ _
  · intro hrunning
    simp only [answer, hrunning]
    exact search_limited hsearch limit
  · intro hcancelled hroots
    simp only [answer, hcancelled]
    exact search_cancelled hroots _

/-- The knot takes three passes. A limit of three is enough, one of two is not, and a cancelled
token leaves room for none. -/
theorem the_knot_takes_a_limit_of_three :
    ∃ g t, (Recording.replay .four Recording.knot).build = .ok g ∧ ofGraph g = .ok t ∧
      search g (some 3) false = .ok t ∧ search g (some 2) false = .error (.unsettled 2) ∧
      search g (some 3) true = .error (.cancelled 0) := by
  have hrun : ((Recording.replay .four Recording.knot).build.toOption.bind fun g =>
      (ofGraph g).toOption.map fun t => (g.roots, t.passes)) =
      some ([⟨0, .unknown⟩, ⟨4, .unknown⟩], 3) := by
    cbv
  obtain ⟨g, t, hbuild, hsearch, hseen⟩ := exists_of_run hrun
  obtain ⟨hroots, hpasses⟩ := Prod.mk.inj hseen
  have hlimits := holds_of_ofGraph (a_limit_lets_the_same_tree_through_or_none g) hsearch
  have hthree := (hlimits 3 {} none).2.1 rfl
  have htwo := (hlimits 2 ⟨#[false]⟩ (some 0)).2.1 rfl
  have hcancelled := (hlimits 3 ⟨#[true]⟩ (some 0)).2.2 rfl (by simp [hroots])
  rw [hpasses] at hthree htwo
  exact ⟨g, t, hbuild, hsearch, hthree, htwo, hcancelled⟩

end DominatorTree

end HeapRetention
