-- The laws of the chains of dominators. A climb from a node meets all nodes on
-- every path to it, the nearest one first, and it ends at the sentinel before
-- its steps run out. So a node dominates another one exactly when it lies on
-- every path to it.
import HeapRetention.Proofs.Dominance

namespace HeapRetention

/-- The nodes besides `v` on every path to it, the nearest one first. -/
structure HeapGraph.DominatorsOf (g : HeapGraph) (v : Nat) (above : List Nat) : Prop where
  nodup : above.Nodup
  mem_iff : ∀ d, d ∈ above ↔ d ≠ v ∧ g.OnEveryPath d v
  nearest_first : above.Pairwise fun near far => g.OnEveryPath far near

namespace DominatorTree

section Climb

variable {t : DominatorTree} {g : HeapGraph} (h : t.IsOf g)

include h

/-! ## One step up -/

theorem isReachable_iff {v : Nat} : t.isReachable v = true ↔ g.Reachable v := by
  unfold isReachable get?
  rw [sentinelSlot_eq h]
  by_cases hv : v < g.size
  · rw [if_pos hv, Option.isSome_map]
    exact h.isSome_parent v (Nat.ne_of_lt hv)
  · rw [if_neg hv]
    simp only [Option.isSome_none, Bool.false_eq_true, false_iff]
    exact fun hreach => hv (HeapGraph.reachable_lt hreach)

theorem get?_of_not_reachable {v : Nat} (hv : ¬ g.Reachable v) : t.get? v = none := by
  rw [← isReachable_iff h, isReachable, Bool.not_eq_true, Option.isSome_eq_false_iff,
    Option.isNone_iff_eq_none] at hv
  exact hv

theorem onEveryPath_trans {d u v : Nat} (hv : g.Reachable v) (hd : g.OnEveryPath d u)
    (hu : g.OnEveryPath u v) : g.OnEveryPath d v := by
  have hureach := HeapGraph.reachable_of_onEveryPath hv hu
  have hne : d ≠ g.size := Nat.ne_of_lt (HeapGraph.onEveryPath_lt hureach hd)
  rw [← h.onChain_iff v hv d hne]
  exact onChain_trans (onChain_of_onEveryPath h hureach hd) (onChain_of_onEveryPath h hv hu)

/-- A node comes in the order before all nodes that it is the parent of. -/
theorem idxOf_parent_lt {v p : Nat} (hv : g.Reachable v) (hp : t.parents.parent? v = some p)
    (hne : p ≠ g.size) : t.order.idxOf p < t.order.idxOf v := by
  have hpreach := HeapGraph.reachable_of_onEveryPath hv (onEveryPath_parent h hv hp hne)
  have hvlt := List.idxOf_lt_length_of_mem ((h.mem_order v).mpr hv)
  have hplt := List.idxOf_lt_length_of_mem ((h.mem_order p).mpr hpreach)
  by_contra hle
  rcases Nat.lt_or_eq_of_le (Nat.not_lt.mp hle) with hlt | heq
  · have hparent := List.pairwise_iff_getElem.mp h.parent_first _ _ hvlt hplt hlt
    rw [List.getElem_idxOf hvlt, List.getElem_idxOf hplt] at hparent
    exact hparent hp
  · have hself : v = p := (List.idxOf_inj ((h.mem_order v).mpr hv)).mp heq
    exact h.parent_ne_self v (Nat.ne_of_lt (HeapGraph.reachable_lt hv)) (hself ▸ hp)

theorem dominatorsOf_nil {v : Nat} (hv : g.Reachable v) (hp : t.get? v = some .sentinel) :
    g.DominatorsOf v [] := by
  refine ⟨List.nodup_nil, ?_, List.Pairwise.nil⟩
  intro d
  simp only [List.not_mem_nil, false_iff, not_and]
  exact fun hne hd => hne ((parent_sentinel_iff h hv).mp hp d hd)

/-- The dominators of a node are its parent and those of its parent. -/
theorem dominatorsOf_cons {v p : Nat} {above : List Nat} (hv : g.Reachable v)
    (hp : t.get? v = some (.node p)) (habove : g.DominatorsOf p above) :
    g.DominatorsOf v (p :: above) := by
  obtain ⟨hne, hpv, hnearest⟩ := (parent_node_iff h hv p).mp hp
  refine ⟨?_, ?_, ?_⟩
  · refine List.nodup_cons.mpr ⟨?_, habove.nodup⟩
    intro hmem
    exact ((habove.mem_iff p).mp hmem).1 rfl
  · intro d
    rw [List.mem_cons, habove.mem_iff]
    refine ⟨?_, ?_⟩
    · rintro (rfl | ⟨-, hdp⟩)
      · exact ⟨hne, hpv⟩
      · refine ⟨?_, onEveryPath_trans h hv hdp hpv⟩
        rintro rfl
        exact hne (HeapGraph.onEveryPath_antisymm hv hpv hdp)
    · rintro ⟨hdv, hd⟩
      by_cases hdp : d = p
      · exact Or.inl hdp
      · exact Or.inr ⟨hdp, hnearest d hdv hd⟩
  · refine List.pairwise_cons.mpr ⟨?_, habove.nearest_first⟩
    intro far hfar
    exact ((habove.mem_iff far).mp hfar).2

/-! ## The whole way up -/

/-- Every climb from a node meets the same dominators, if only it has a step for each of them and
one for the sentinel. -/
theorem exists_climb {v : Nat} (hv : g.Reachable v) :
    ∃ above, g.DominatorsOf v above ∧ above.length ≤ t.order.idxOf v ∧
      ∀ steps met, above.length < steps →
        (t.climb steps v met).toList = met.toList ++ (above.map .node ++ [.sentinel]) := by
  -- by induction on the place in the order, where the parent of a node comes before it
  induction hplace : t.order.idxOf v using Nat.strongRecOn generalizing v with
  | ind place ih =>
    obtain ⟨p, hp⟩ := exists_parent h hv
    by_cases hsentinel : p = g.size
    · have hget : t.get? v = some .sentinel := (get?_eq_sentinel_iff h hv).mpr (hsentinel ▸ hp)
      refine ⟨[], dominatorsOf_nil h hv hget, Nat.zero_le _, ?_⟩
      intro steps met hsteps
      obtain ⟨more, rfl⟩ := Nat.exists_eq_add_of_lt hsteps
      simp [climb, hget]
    · have hget : t.get? v = some (.node p) := (get?_eq_node_iff h hv).mpr ⟨hp, hsentinel⟩
      have hpreach :=
        HeapGraph.reachable_of_onEveryPath hv (onEveryPath_parent h hv hp hsentinel)
      have hlt := idxOf_parent_lt h hv hp hsentinel
      rw [hplace] at hlt
      obtain ⟨above, habove, hlength, hclimb⟩ := ih _ hlt hpreach rfl
      refine ⟨p :: above, dominatorsOf_cons h hv hget habove, ?_, ?_⟩
      · rw [List.length_cons]
        omega
      · intro steps met hsteps
        rw [List.length_cons] at hsteps
        obtain ⟨more, rfl⟩ : ∃ more, steps = more + 1 := ⟨steps - 1, by omega⟩
        simp only [climb, hget]
        rw [hclimb more _ (by omega)]
        simp

theorem size_lt_parents : t.size < t.parents.size := by
  rw [h.size_eq, size]
  have hle : t.order ⊆ List.range g.size := by
    intro v hv
    exact List.mem_range.mpr (HeapGraph.reachable_lt ((h.mem_order v).mp hv))
  have hlength := (List.subperm_of_subset h.nodup_order hle).length_le
  rw [List.length_range] at hlength
  omega

/-- A climb from an unreachable node meets nothing. -/
theorem climb_of_not_reachable {v : Nat} (hv : ¬ g.Reachable v) (steps : Nat) :
    (t.climb steps v #[]).toList = [] := by
  cases steps with
  | zero => rfl
  | succ steps => simp [climb, get?_of_not_reachable h hv]

/-- A chain lists the dominators of a node and the sentinel. It has no more members than the tree
has nodes, and a climb with more steps meets no more. -/
theorem chain_of_reachable {v : Nat} (hv : g.Reachable v) :
    ∃ above, g.DominatorsOf v above ∧ t.chain v = above.map .node ++ [.sentinel] ∧
      (t.chain v).length ≤ t.size ∧
      ∀ steps, t.size ≤ steps → (t.climb steps v #[]).toList = t.chain v := by
  obtain ⟨above, habove, hlength, hclimb⟩ := exists_climb h hv
  have hroom : above.length < t.size :=
    Nat.lt_of_le_of_lt hlength (List.idxOf_lt_length_of_mem ((h.mem_order v).mpr hv))
  have hchain : t.chain v = above.map .node ++ [.sentinel] :=
    hclimb t.parents.size #[] (Nat.lt_trans hroom (size_lt_parents h))
  refine ⟨above, habove, hchain, ?_, ?_⟩
  · rw [hchain]
    simpa using hroom
  · intro steps hsteps
    rw [hchain]
    exact hclimb steps #[] (Nat.lt_of_lt_of_le hroom hsteps)

theorem dominates_iff {a v : Nat} :
    t.dominates a v = true ↔ g.Reachable v ∧ g.OnEveryPath a v := by
  rw [dominates_eq, Bool.and_eq_true, isReachable_iff h]
  refine and_congr_right fun hv => ?_
  obtain ⟨above, habove, hchain, -⟩ := chain_of_reachable h hv
  have hmem : (t.chain v).contains (.node a) = true ↔ a ≠ v ∧ g.OnEveryPath a v := by
    rw [hchain, ← habove.mem_iff]
    simp
  rw [Bool.or_eq_true, decide_eq_true_eq, hmem]
  refine ⟨?_, ?_⟩
  · rintro (rfl | ⟨-, ha⟩)
    · exact fun _ hpath => HeapGraph.rootPath_end_mem hpath
    · exact ha
  · intro ha
    by_cases hself : v = a
    · exact Or.inl hself
    · exact Or.inr ⟨Ne.symm hself, ha⟩

/-- The way up that tells what dominates a node ends before its steps run out. -/
theorem meets_of_reachable {a v steps : Nat} (hv : g.Reachable v) (hsteps : t.size < steps) :
    t.meets a steps (.node v) = t.dominates a v := by
  obtain ⟨_, _, _, _, hclimb⟩ := chain_of_reachable h hv
  obtain ⟨more, rfl⟩ := Nat.exists_eq_add_of_lt hsteps
  have hne : v ≠ t.sentinelSlot := by
    rw [sentinelSlot_eq h]
    exact Nat.ne_of_lt (HeapGraph.reachable_lt hv)
  rw [meets_eq hne, hclimb _ (Nat.le_add_right _ _), dominates_eq, (isReachable_iff h).mpr hv,
    Bool.true_and]

end Climb

/-- A node dominates exactly the reachable nodes to which it is on every path, itself among them.
The chain of a reachable node lists all others that dominate it, the nearest one first, and then
the sentinel; that of an unreachable node is empty. No way up is cut off. -/
theorem chains_list_the_nodes_on_every_path (g : HeapGraph) :
    ∃ t, ofGraph g = .ok t ∧
      (∀ a b, t.dominates a b = true ↔ g.Reachable b ∧ g.OnEveryPath a b) ∧
      (∀ a b steps, g.Reachable b → t.size < steps →
        t.meets a steps (.node b) = t.dominates a b) ∧
      (∀ b steps, t.size ≤ steps → (t.climb steps b #[]).toList = t.chain b) ∧
      (∀ b, ¬ g.Reachable b → t.chain b = []) ∧
      ∀ b, g.Reachable b → ∃ above, g.DominatorsOf b above ∧
        t.chain b = above.map .node ++ [.sentinel] ∧ (t.chain b).length ≤ t.size := by
  obtain ⟨t, hsearch, h⟩ := exists_tree g
  refine ⟨t, hsearch, fun _ _ => dominates_iff h, ?_, ?_, ?_, ?_⟩
  · exact fun a b steps hb hsteps => meets_of_reachable h hb hsteps
  · intro b steps hsteps
    by_cases hb : g.Reachable b
    · obtain ⟨_, _, _, _, hclimb⟩ := chain_of_reachable h hb
      exact hclimb steps hsteps
    · rw [chain, climb_of_not_reachable h hb, climb_of_not_reachable h hb]
  · intro b hb
    exact climb_of_not_reachable h hb _
  · intro b hb
    obtain ⟨above, habove, hchain, hlength, _⟩ := chain_of_reachable h hb
    exact ⟨above, habove, hchain, hlength⟩

end DominatorTree

end HeapRetention
