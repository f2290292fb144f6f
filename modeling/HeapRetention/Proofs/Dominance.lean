-- The laws of dominance. The search for dominators gives every graph a tree,
-- after at most one pass more than there are reachable nodes. The parent of a
-- node is the nearest node on every path to it, and the sentinel where there
-- is none.
import Mathlib
import HeapRetention.Proofs.Calls
import HeapRetention.Proofs.Passes

namespace HeapRetention

namespace HeapGraph

theorem covers_traversal (g : HeapGraph) : g.traversal.Covers g.successors g.size :=
  Traversal.covers_run (Nat.lt_succ_self _) g.successors_lt_slots

theorem mem_order_tail {g : HeapGraph} {v : Nat} :
    v ∈ g.traversal.order.tail ↔ g.Reachable v := by
  rw [Traversal.mem_tail_iff g.covers_traversal, g.covers_traversal.mem_order,
    reachable_iff_reaches, and_comm]

theorem nodup_order_tail (g : HeapGraph) : g.traversal.order.tail.Nodup :=
  (Traversal.nodup_order g.covers_traversal).sublist (List.tail_sublist _)

/-- The traversal counts the reachable nodes. -/
theorem ncard_reachable (g : HeapGraph) :
    {v | g.Reachable v}.ncard = g.traversal.reachable := by
  have hset : {v | g.Reachable v} = ↑g.traversal.order.tail.toFinset := by
    ext v
    simp [mem_order_tail]
  rw [hset, Set.ncard_coe_finset, List.toFinset_card_of_nodup g.nodup_order_tail,
    List.length_tail]
  rfl

theorem reachable_root {g : HeapGraph} {root : Root} (h : root ∈ g.roots) :
    g.Reachable root.node := ⟨_, RootPath.root h⟩

theorem rootIndices_eq_nil {g : HeapGraph} : g.rootIndices = [] ↔ g.roots = [] := by
  simp only [List.eq_nil_iff_forall_not_mem, mem_rootIndices]
  grind

theorem reachable_pos {g : HeapGraph} (h : g.roots ≠ []) : 0 < g.traversal.reachable := by
  obtain ⟨root, hroot⟩ := List.exists_mem_of_ne_nil _ h
  have hlength := List.length_pos_of_mem (mem_order_tail.mpr (reachable_root hroot))
  rwa [List.length_tail] at hlength

theorem reachable_le_size (g : HeapGraph) : g.traversal.reachable ≤ g.size := by
  have hle : g.traversal.order.tail ⊆ List.range g.size := by
    intro v hv
    exact List.mem_range.mpr (reachable_lt (mem_order_tail.mp hv))
  have := (List.subperm_of_subset g.nodup_order_tail hle).length_le
  rwa [List.length_tail, List.length_range] at this

theorem order_lt {g : HeapGraph} : ∀ v ∈ g.traversal.order, v < g.size + 1 := by
  intro v hv
  by_cases hsentinel : v = g.size
  · omega
  · have hreach := mem_order_tail.mp
      ((Traversal.mem_tail_iff g.covers_traversal).mpr ⟨hv, hsentinel⟩)
    exact Nat.lt_succ_of_lt (reachable_lt hreach)

theorem nodup_rootIndices (g : HeapGraph) : g.rootIndices.Nodup := by
  rw [rootIndices_eq]
  exact nodup_eraseDups _

/-- The targets of a reached node are its references, which are all in the table. -/
theorem references?_of_reaches {g : HeapGraph} {u : Nat} (hu : Reaches g.successors g.size u)
    (hne : u ≠ g.size) : g.references? u = some (g.successors u) := by
  have hlt : u < g.size := reachable_lt (reachable_iff_reaches.mpr ⟨hne, hu⟩)
  rw [successors_node hne, g.references?_eq hlt]

theorem listsPredecessors (g : HeapGraph) :
    g.traversal.ListsPredecessors g.successors g.predecessors :=
  Traversal.listsPredecessors g.successors_lt_slots

/-- A path that visits no place twice goes back less often than there are reachable nodes. -/
theorem retreats_lt_reachable {g : HeapGraph} (h : g.roots ≠ []) (trail : List Nat) (v : Nat)
    (hpath : Path g.successors g.size trail v) (hnodup : trail.Nodup) :
    g.traversal.retreats trail < g.traversal.reachable := by
  rcases Traversal.retreats_lt_length g.covers_traversal hpath hnodup with hlt | rfl
  · have hlength := Traversal.length_le_order g.covers_traversal hpath hnodup
    have hreachable : g.traversal.reachable = g.traversal.order.length - 1 := rfl
    omega
  · simpa [Traversal.retreats] using reachable_pos h

/-- No graph is so large that the limit on passes would be cut off. -/
theorem passesAllowed_eq (g : HeapGraph) :
    passesAllowed none g.traversal.reachable = g.traversal.reachable + 2 := by
  have hsize := g.reachable_le_size
  have hmost := g.nodes_size_le
  unfold passesAllowed
  simp only [size, maxNodes, UInt32.size, UInt64.size] at hsize hmost ⊢
  omega

theorem not_reachable_of_no_roots {g : HeapGraph} (h : g.roots = []) (v : Nat) :
    ¬ g.Reachable v := by
  rintro ⟨trail, hpath⟩
  induction hpath with
  | root hroot =>
    rw [h] at hroot
    exact absurd hroot List.not_mem_nil
  | step _ _ ih => exact ih

end HeapGraph

namespace DominatorTree

/-- The tree is the dominator tree of the graph: its order lists the reachable nodes, each after
its parent, and the chain of a node holds the nodes on every path to it and the sentinel. -/
structure IsOf (t : DominatorTree) (g : HeapGraph) : Prop where
  size_eq : t.parents.size = g.size + 1
  mem_order : ∀ v, v ∈ t.order ↔ g.Reachable v
  nodup_order : t.order.Nodup
  parent_first : t.order.Pairwise fun u v => t.parents.parent? u ≠ some v
  isSome_parent : ∀ v, v ≠ g.size → ((t.parents.parent? v).isSome ↔ g.Reachable v)
  parent_ne_self : ∀ v, v ≠ g.size → t.parents.parent? v ≠ some v
  parent_sentinel : ∀ p, t.parents.parent? g.size = some p → p = g.size
  onChain_iff : ∀ v, g.Reachable v → ∀ a, a ≠ g.size →
    (OnChain t.parents a v ↔ g.OnEveryPath a v)
  sentinel_onChain : ∀ v, g.Reachable v → OnChain t.parents g.size v

theorem isOf_rootless {g : HeapGraph} (h : g.roots = []) : (rootless g).IsOf g := by
  have hnone : ∀ v, (rootless g).parents.parent? v = none := by
    intro v
    simp only [rootless, Parents.parent?, Array.getElem?_replicate]
    split <;> rfl
  have hunreachable := HeapGraph.not_reachable_of_no_roots h
  refine ⟨?_, ?_, ?_, ?_, ?_, ?_, ?_, ?_, ?_⟩
  · simp [rootless]
  · simp [rootless, hunreachable]
  · simp [rootless]
  · simp [rootless]
  · simp [hnone, hunreachable]
  · simp [hnone]
  · simp [hnone]
  · intro v hv
    exact absurd hv (hunreachable v)
  · intro v hv
    exact absurd hv (hunreachable v)

/-- Exact parents make the dominator tree. -/
theorem isOf_of_exact {g : HeapGraph} {parents : Parents} (passes : Nat) (warnings : List Warning)
    (h : g.traversal.Exact g.successors g.size parents) :
    (DominatorTree.mk parents g.traversal.order.tail passes warnings).IsOf g := by
  have hc := g.covers_traversal
  have hreached : ∀ v, g.Reachable v → v ∈ g.traversal.order :=
    fun v hv => List.mem_of_mem_tail (HeapGraph.mem_order_tail.mpr hv)
  refine ⟨?_, ?_, ?_, ?_, ?_, ?_, ?_, ?_, ?_⟩
  · rw [h.tree.size_eq]
    exact DepthFirst.size_numbering _ _
  · exact fun v => HeapGraph.mem_order_tail
  · exact g.nodup_order_tail
  · apply (Traversal.falls_tail hc).imp_of_mem
    intro u v hu _ hlt hparent
    have hrises := h.tree.rises u v hparent ((Traversal.mem_tail_iff hc).mp hu).2
    exact Nat.lt_asymm hlt hrises
  · intro v hv
    refine ⟨?_, ?_⟩
    · intro hsome
      exact HeapGraph.mem_order_tail.mp ((Traversal.mem_tail_iff hc).mpr
        ⟨Traversal.mem_order_of_isSome h.tree hsome, hv⟩)
    · intro hreach
      exact h.isSome v (hreached v hreach)
  · intro v hv hparent
    exact Nat.lt_irrefl _ (h.tree.rises v v hparent hv)
  · intro p hp
    rw [h.tree.start_parent] at hp
    exact (Option.some.inj hp).symm
  · intro v hv a ha
    rw [h.onChain_iff_guards v (hreached v hv),
      HeapGraph.onEveryPath_iff_guards ha (Nat.ne_of_lt (HeapGraph.reachable_lt hv))]
  · intro v hv
    exact Traversal.start_onChain h.tree (h.isSome v (hreached v hv))

theorem search_rootless {g : HeapGraph} (h : g.roots = []) (maxPasses : Option UInt64)
    (cancelled : Bool) : search g maxPasses cancelled = .ok (rootless g) := by
  unfold search
  rw [if_pos (List.isEmpty_iff.mpr (HeapGraph.rootIndices_eq_nil.mpr h))]

theorem ofGraph_rootless {g : HeapGraph} (h : g.roots = []) : ofGraph g = .ok (rootless g) :=
  search_rootless h none false

/-- A search of a graph with roots is the passes over its traversal. -/
theorem search_rooted {g : HeapGraph} (h : g.roots ≠ []) (maxPasses : Option UInt64)
    (cancelled : Bool) :
    search g maxPasses cancelled =
      (g.traversal.settle g.predecessors cancelled
        (passesAllowed maxPasses g.traversal.reachable) 0
        (Traversal.firstParents (g.size + 1) g.size)).map fun settled =>
          ⟨settled.1, g.traversal.order.tail, settled.2, warningsFor g g.traversal.reachable⟩ := by
  unfold search Traversal.firstParents
  rw [if_neg (by rwa [List.isEmpty_iff, HeapGraph.rootIndices_eq_nil])]
  simp only
  split
  · rename_i hsettle
    rw [hsettle]
    rfl
  · rename_i hsettle
    rw [hsettle]
    rfl

/-- The passes over a graph with roots settle on its dominators. -/
theorem ofGraph_rooted {g : HeapGraph} (h : g.roots ≠ []) :
    ∃ parents passes, ofGraph g =
        .ok ⟨parents, g.traversal.order.tail, passes, warningsFor g g.traversal.reachable⟩ ∧
      g.traversal.Exact g.successors g.size parents ∧ g.pass parents = .ok (parents, false) ∧
      passes ≤ g.traversal.reachable + 1 := by
  have hc := g.covers_traversal
  have hroom : g.traversal.reachable + 1 ≤ 0 + passesAllowed none g.traversal.reachable := by
    rw [HeapGraph.passesAllowed_eq]
    omega
  obtain ⟨parents, passes, hsettle, hexact, hstays, _, hmost⟩ := Traversal.settle_spec hc
    g.listsPredecessors (HeapGraph.retreats_lt_reachable h)
    (Traversal.passInvariant_first hc (DepthFirst.size_numbering _ _).symm
      HeapGraph.order_lt)
    (Nat.zero_le _) hroom
  refine ⟨parents, passes, ?_, hexact, hstays, hmost⟩
  rw [ofGraph, search_rooted h, hsettle]
  rfl

theorem exists_tree (g : HeapGraph) : ∃ t, ofGraph g = .ok t ∧ t.IsOf g := by
  by_cases hroots : g.roots = []
  · exact ⟨rootless g, ofGraph_rootless hroots, isOf_rootless hroots⟩
  · obtain ⟨parents, passes, hsearch, hexact, _⟩ := ofGraph_rooted hroots
    exact ⟨_, hsearch, isOf_of_exact passes _ hexact⟩

/-! ## Tokens and limits -/

theorem search_cancelled {g : HeapGraph} (h : g.roots ≠ []) (maxPasses : Option UInt64) :
    search g maxPasses true = .error (.cancelled 0) := by
  rw [search_rooted h, Traversal.settle_cancelled]
  rfl

/-- A limit on passes lets the tree of the graph through or ends the search. -/
theorem search_limited {g : HeapGraph} {t : DominatorTree} (h : ofGraph g = .ok t)
    (limit : UInt64) :
    search g (some limit) false =
      if t.passes ≤ limit.toNat then .ok t else .error (.unsettled limit.toNat) := by
  by_cases hroots : g.roots = []
  · rw [ofGraph_rootless hroots] at h
    obtain rfl := Except.ok.inj h
    have hroom : (rootless g).passes ≤ limit.toNat := Nat.zero_le _
    rw [search_rootless hroots, if_pos hroom]
  · rw [ofGraph, search_rooted hroots] at h
    cases hsettle : g.traversal.settle g.predecessors false
        (passesAllowed none g.traversal.reachable) 0
        (Traversal.firstParents (g.size + 1) g.size) with
    | error error =>
      rw [hsettle] at h
      cases h
    | ok settled =>
      rw [hsettle] at h
      obtain rfl := Except.ok.inj h
      rw [search_rooted hroots, (Traversal.settle_limited hsettle _).2]
      simp only [passesAllowed, Nat.zero_add]
      by_cases hroom : settled.2 ≤ limit.toNat
      · rw [if_pos hroom, if_pos hroom]
        rfl
      · rw [if_neg hroom, if_neg hroom]
        rfl

/-- A search finds the same tree whatever its token, unless the token or the limit on passes ends
it. -/
theorem search_cases (g : HeapGraph) (maxPasses : Option UInt64) (cancelled : Bool) :
    (∃ t, search g maxPasses cancelled = .ok t ∧ search g maxPasses false = .ok t) ∨
    (g.roots ≠ [] ∧ cancelled = true ∧ search g maxPasses cancelled = .error (.cancelled 0)) ∨
    (∃ passes, search g maxPasses cancelled = .error (.unsettled passes)) := by
  by_cases hroots : g.roots = []
  · exact Or.inl ⟨_, search_rootless hroots _ _, search_rootless hroots _ _⟩
  cases cancelled with
  | true => exact Or.inr (Or.inl ⟨hroots, rfl, search_cancelled hroots _⟩)
  | false =>
    obtain ⟨t, hsearch, _⟩ := exists_tree g
    cases maxPasses with
    | none => exact Or.inl ⟨t, hsearch, hsearch⟩
    | some limit =>
      have hlimited := search_limited hsearch limit
      split at hlimited
      · exact Or.inl ⟨t, hlimited, hlimited⟩
      · exact Or.inr (Or.inr ⟨_, hlimited⟩)

/-! ## The parent of a node -/

section Parent

variable {t : DominatorTree} {g : HeapGraph} (h : t.IsOf g)

include h

theorem sentinelSlot_eq : t.sentinelSlot = g.size := by
  rw [sentinelSlot, h.size_eq, Nat.add_sub_cancel]

theorem get?_eq_node_iff {v d : Nat} (hv : g.Reachable v) :
    t.get? v = some (.node d) ↔ t.parents.parent? v = some d ∧ d ≠ g.size := by
  unfold get?
  rw [sentinelSlot_eq h, if_pos (HeapGraph.reachable_lt hv), Option.map_eq_some_iff]
  simp only [atSlot, sentinelSlot_eq h]
  grind

theorem get?_eq_sentinel_iff {v : Nat} (hv : g.Reachable v) :
    t.get? v = some .sentinel ↔ t.parents.parent? v = some g.size := by
  unfold get?
  rw [sentinelSlot_eq h, if_pos (HeapGraph.reachable_lt hv), Option.map_eq_some_iff]
  simp only [atSlot, sentinelSlot_eq h]
  grind

theorem eq_sentinel_of_onChain {a : Nat} (ha : OnChain t.parents a g.size) : a = g.size := by
  generalize hs : g.size = s at ha
  induction ha with
  | self => rfl
  | up hp _ ih =>
    rw [← hs] at hp
    have hparent := h.parent_sentinel _ hp
    rw [ih hparent.symm, hparent, hs]

theorem exists_parent {v : Nat} (hv : g.Reachable v) : ∃ p, t.parents.parent? v = some p :=
  Option.isSome_iff_exists.mp
    ((h.isSome_parent v (Nat.ne_of_lt (HeapGraph.reachable_lt hv))).mpr hv)

theorem onEveryPath_parent {v p : Nat} (hv : g.Reachable v) (hp : t.parents.parent? v = some p)
    (hne : p ≠ g.size) : g.OnEveryPath p v :=
  (h.onChain_iff v hv p hne).mp (OnChain.up hp OnChain.self)

theorem onChain_of_onEveryPath {v d : Nat} (hv : g.Reachable v) (hd : g.OnEveryPath d v) :
    OnChain t.parents d v :=
  (h.onChain_iff v hv d (Nat.ne_of_lt (HeapGraph.onEveryPath_lt hv hd))).mpr hd

/-- What lies on every path to a node besides the node itself lies on every path to its parent,
which is then no sentinel. -/
theorem onEveryPath_of_parent {v p d : Nat} (hv : g.Reachable v)
    (hp : t.parents.parent? v = some p) (hd : g.OnEveryPath d v) (hne : d ≠ v) :
    p ≠ g.size ∧ g.OnEveryPath d p := by
  have hlt := HeapGraph.onEveryPath_lt hv hd
  have hup : OnChain t.parents d p :=
    ((onChain_iff hp).mp (onChain_of_onEveryPath h hv hd)).resolve_left hne
  have hnode : p ≠ g.size := by
    rintro rfl
    exact Nat.ne_of_lt hlt (eq_sentinel_of_onChain h hup)
  have hreach := HeapGraph.reachable_of_onEveryPath hv (onEveryPath_parent h hv hp hnode)
  exact ⟨hnode, (h.onChain_iff p hreach d (Nat.ne_of_lt hlt)).mp hup⟩

/-- A node above another one is the nearest of the nodes on every path to it. -/
theorem parent_node_iff {v : Nat} (hv : g.Reachable v) (d : Nat) :
    t.get? v = some (.node d) ↔
      d ≠ v ∧ g.OnEveryPath d v ∧ ∀ e, e ≠ v → g.OnEveryPath e v → g.OnEveryPath e d := by
  have hvsize := Nat.ne_of_lt (HeapGraph.reachable_lt hv)
  obtain ⟨p, hp⟩ := exists_parent h hv
  rw [get?_eq_node_iff h hv]
  refine ⟨?_, ?_⟩
  · rintro ⟨hparent, hd⟩
    refine ⟨?_, onEveryPath_parent h hv hparent hd, ?_⟩
    · rintro rfl
      exact h.parent_ne_self d hvsize hparent
    · intro e hne he
      exact (onEveryPath_of_parent h hv hparent he hne).2
  · rintro ⟨hne, hd, hnearest⟩
    obtain ⟨hnode, hdp⟩ := onEveryPath_of_parent h hv hp hd hne
    have hpv := onEveryPath_parent h hv hp hnode
    have hself : p ≠ v := by
      rintro rfl
      exact h.parent_ne_self p hvsize hp
    have hreach := HeapGraph.reachable_of_onEveryPath hv hpv
    have heq : d = p := HeapGraph.onEveryPath_antisymm hreach hdp (hnearest p hself hpv)
    exact ⟨heq ▸ hp, heq ▸ hnode⟩

/-- The sentinel is above a node where no other node is on every path to it. -/
theorem parent_sentinel_iff {v : Nat} (hv : g.Reachable v) :
    t.get? v = some .sentinel ↔ ∀ e, g.OnEveryPath e v → e = v := by
  obtain ⟨p, hp⟩ := exists_parent h hv
  rw [get?_eq_sentinel_iff h hv]
  refine ⟨?_, ?_⟩
  · intro hparent e he
    by_contra hne
    exact (onEveryPath_of_parent h hv hparent he hne).1 rfl
  · intro halone
    by_contra hnode
    have hne : p ≠ g.size := by
      rintro rfl
      exact hnode hp
    have heq := halone p (onEveryPath_parent h hv hp hne)
    exact h.parent_ne_self v (Nat.ne_of_lt (HeapGraph.reachable_lt hv)) (heq ▸ hp)

end Parent

/-- The parent of a node is the nearest node on every path to it. -/
theorem parent_is_the_nearest_node_on_every_path (g : HeapGraph) :
    ∃ t, ofGraph g = .ok t ∧ ∀ v, g.Reachable v →
      (∀ d, t.get? v = some (.node d) ↔
        d ≠ v ∧ g.OnEveryPath d v ∧ ∀ e, e ≠ v → g.OnEveryPath e v → g.OnEveryPath e d) ∧
      (t.get? v = some .sentinel ↔ ∀ e, g.OnEveryPath e v → e = v) := by
  obtain ⟨t, hsearch, h⟩ := exists_tree g
  refine ⟨t, hsearch, ?_⟩
  intro v hv
  exact ⟨parent_node_iff h hv, parent_sentinel_iff h hv⟩

theorem eq_ok_of_toOption {ε α : Type} {e : Except ε α} {a : α} (h : e.toOption = some a) :
    e = .ok a := by
  cases e with
  | error _ => cases h
  | ok b => rw [Option.some.inj h]

/-- What a computation shows of a recording is true of the graph that is built from it and of the
tree that is found for that graph. -/
theorem exists_of_run {α : Type} {width : IdWidth} {calls : List Recording.Call}
    {view : HeapGraph → DominatorTree → α} {seen : α}
    (h : ((Recording.replay width calls).build.toOption.bind fun g =>
      (ofGraph g).toOption.map (view g)) = some seen) :
    ∃ g t, (Recording.replay width calls).build = .ok g ∧ ofGraph g = .ok t ∧ view g t = seen := by
  obtain ⟨g, hbuild, hrest⟩ := Option.bind_eq_some_iff.mp h
  obtain ⟨t, hsearch, hseen⟩ := Option.map_eq_some_iff.mp hrest
  exact ⟨g, t, eq_ok_of_toOption hbuild, eq_ok_of_toOption hsearch, hseen⟩

/-- A search has one answer, so what is true of some tree that it finds is true of every one. -/
theorem holds_of_ofGraph {g : HeapGraph} {t : DominatorTree} {P : DominatorTree → Prop}
    (h : ∃ t, ofGraph g = .ok t ∧ P t) (hsearch : ofGraph g = .ok t) : P t := by
  obtain ⟨t', hsearch', hholds⟩ := h
  rw [hsearch] at hsearch'
  rwa [Except.ok.inj hsearch']

/-- No one node is on every path to where the knot is entered, but one is on every path to the
node behind. -/
theorem the_knot_is_left_at_one_node :
    ∃ g, (Recording.replay .four Recording.knot).build = .ok g ∧
      g.Reachable 1 ∧ (∀ e, g.OnEveryPath e 1 → e = 1) ∧ g.Reachable 3 ∧ g.OnEveryPath 2 3 := by
  have hrun : ((Recording.replay .four Recording.knot).build.toOption.bind fun g =>
      (ofGraph g).toOption.map fun t =>
        (g.roots.head?, [0, 1, 2].map g.references, [1, 3].map t.get?)) =
      some (some ⟨0, .unknown⟩, [[1], [2], [3]], [some .sentinel, some (.node 2)]) := by
    cbv
  obtain ⟨g, hbuild, hrest⟩ := Option.bind_eq_some_iff.mp hrun
  obtain ⟨t, hsearch, hseen⟩ := Option.map_eq_some_iff.mp hrest
  simp only [List.map_cons, List.map_nil, Prod.mk.injEq, List.cons.injEq, and_true] at hseen
  obtain ⟨hroot, ⟨hzero, hone, htwo⟩, houter, hinner⟩ := hseen
  have hreach0 : g.RootPath [0] 0 := HeapGraph.RootPath.root (List.mem_of_head? hroot)
  have hreach1 : g.RootPath [1, 0] 1 := HeapGraph.RootPath.step hreach0 (by simp [hzero])
  have hreach2 : g.RootPath [2, 1, 0] 2 := HeapGraph.RootPath.step hreach1 (by simp [hone])
  have hreach3 : g.RootPath [3, 2, 1, 0] 3 := HeapGraph.RootPath.step hreach2 (by simp [htwo])
  -- the search has one answer, so the tree that was computed is the one the law is about
  obtain ⟨t', hsearch', h⟩ := parent_is_the_nearest_node_on_every_path g
  rw [eq_ok_of_toOption hsearch] at hsearch'
  obtain rfl := Except.ok.inj hsearch'
  refine ⟨g, eq_ok_of_toOption hbuild, ⟨_, hreach1⟩, ?_, ⟨_, hreach3⟩, ?_⟩
  · exact (h 1 ⟨_, hreach1⟩).2.mp houter
  · exact (((h 3 ⟨_, hreach3⟩).1 2).mp hinner).2.1

/-- Every search ends with a tree, which a further pass does not change. It needs no pass without
roots, and otherwise at most one pass more than there are reachable nodes, which is one less than the
limit that the graph sets. -/
theorem every_search_settles (g : HeapGraph) :
    ∃ t, ofGraph g = .ok t ∧ (g.roots = [] → t.passes = 0) ∧
      (g.roots ≠ [] → 1 ≤ {v | g.Reachable v}.ncard ∧
        t.passes ≤ {v | g.Reachable v}.ncard + 1 ∧
        passesAllowed none {v | g.Reachable v}.ncard = {v | g.Reachable v}.ncard + 2 ∧
        g.pass t.parents = .ok (t.parents, false)) := by
  rw [HeapGraph.ncard_reachable]
  by_cases hroots : g.roots = []
  · refine ⟨rootless g, ofGraph_rootless hroots, ?_, ?_⟩
    · intro _
      rfl
    · intro hne
      exact absurd hroots hne
  · obtain ⟨parents, passes, hsearch, _, hstays, hpasses⟩ := ofGraph_rooted hroots
    refine ⟨_, hsearch, ?_, ?_⟩
    · intro hnone
      exact absurd hnone hroots
    · intro _
      exact ⟨HeapGraph.reachable_pos hroots, hpasses, g.passesAllowed_eq, hstays⟩

end DominatorTree

end HeapRetention
