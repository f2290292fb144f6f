-- The laws of the moments of a search. While the passes go on, every chain of
-- parents climbs to the sentinel, and where a place gets another parent, the
-- new one has the larger number. In the middle of a pass the parent of a place
-- may be out of date, so the laws tell what it has in common with the places
-- that refer to it now.
import HeapRetention.Proofs.Settling
import HeapRetention.Proofs.Transpose

namespace HeapRetention

namespace Traversal

section Laws

variable {t : Traversal} {successors : Nat → List Nat} {start : Nat} {parents : Parents}

/-! ## Two fingers -/

/-- The parents of a search rise, so the fingers meet by the parents alone. -/
theorem rises_of_parentsInvariant (hc : t.Covers successors start)
    (h : t.ParentsInvariant successors start parents) : t.Rises parents := by
  refine ⟨h.parent_has_parent, ?_, ?_⟩
  · intro v p hp hne
    apply h.rises v p hp
    rintro rfl
    exact hne (Option.some.inj (hp.symm.trans h.start_parent))
  · intro u v hu hv heq
    exact eq_of_number_eq hc (mem_order_of_isSome h hu) (mem_order_of_isSome h hv) heq

/-! ## The candidate so far -/

/-- Where the next predecessor that has a parent meets the candidate so far is the next candidate. -/
theorem candidate_concat {before : List Nat} {p best : Nat} (hp : (parents.parent? p).isSome)
    (hbefore : t.candidate parents before = .ok (some best)) :
    t.candidate parents (before ++ [p]) = (t.meet parents p best).map some := by
  have hlast : [p].filter (fun p => (parents.parent? p).isSome) = [p] := by simp [hp]
  unfold candidate at hbefore ⊢
  rw [List.filter_append, hlast]
  cases hlist : before.filter fun p => (parents.parent? p).isSome with
  | nil => simp [hlist] at hbefore
  | cons first more =>
    simp only [hlist] at hbefore
    cases hfold : more.foldlM (fun best p => t.meet parents p best) first with
    | error error => simp [hfold, Except.map] at hbefore
    | ok last =>
      simp only [hfold, Except.map, Except.ok.injEq, Option.some.injEq] at hbefore
      subst hbefore
      simp only [List.cons_append, List.foldlM_append, hfold, List.foldlM_cons, List.foldlM_nil]
      cases hmeet : t.meet parents p last with
      | error error => simp [bind, Except.bind, Except.map, hmeet]
      | ok m => simp [bind, Except.bind, Except.map, hmeet, pure, Except.pure]

theorem isSome_of_candidate (hc : t.Covers successors start)
    (h : t.ParentsInvariant successors start parents) {predecessors : List Nat} {best : Nat}
    (hbest : t.candidate parents predecessors = .ok (some best)) :
    (parents.parent? best).isSome := by
  by_cases hsome : ∃ p ∈ predecessors, (parents.parent? p).isSome
  · obtain ⟨m, hm, hmeets⟩ := candidate_spec hc h hsome
    rw [hm] at hbest
    obtain rfl := Option.some.inj (Except.ok.inj hbest)
    obtain ⟨p, hp, hdefined⟩ := hsome
    have hon := (hmeets m).mp OnChain.self p (List.mem_filter.mpr ⟨hp, hdefined⟩)
    exact isSome_of_onChain h hon hdefined
  · have hnone : predecessors.filter (fun p => (parents.parent? p).isSome) = [] := by
      rw [List.filter_eq_nil_iff]
      intro p hp hdefined
      exact hsome ⟨p, hp, hdefined⟩
    simp [candidate, hnone] at hbest

/-! ## Parents rise -/

/-- What holds at a moment of the search, where a pass after `k` whole ones still has the places of
`todo` before it. -/
structure RisingInvariant (t : Traversal) (successors : Nat → List Nat) (start k : Nat)
    (todo : List Nat) (parents : Parents) : Prop where
  pass : t.PassInvariant successors start k todo parents
  suffix : todo <:+ t.order.tail
  /-- What the predecessors of a place agree on stands above the place already. -/
  agreed : ∀ v p a, parents.parent? v = some p → v ≠ start →
    (∀ u ∈ t.order, v ∈ successors u → (parents.parent? u).isSome → OnChain parents a u) →
    OnChain parents a p
  /-- The parent of a place stands above an earlier predecessor of the place, unless the pass has
  visited the parent already and not yet the place. -/
  backed : ∀ v p, parents.parent? v = some p → v ≠ start → (v ∈ todo → p ∈ todo) →
    ∃ u ∈ t.order, v ∈ successors u ∧ t.number v < t.number u ∧ (parents.parent? u).isSome ∧
      OnChain parents p u

theorem falls_todo (hc : t.Covers successors start) {todo : List Nat}
    (hsuffix : todo <:+ t.order.tail) : todo.Pairwise fun u v => t.number v < t.number u :=
  (falls_tail hc).sublist hsuffix.sublist

/-- A pass comes to the smaller numbers later. -/
theorem mem_todo_of_le (hc : t.Covers successors start) {v u : Nat} {todo : List Nat}
    (hsuffix : v :: todo <:+ t.order.tail) (hu : u ∈ t.order) (hne : u ≠ start)
    (hle : t.number u ≤ t.number v) : u ∈ v :: todo := by
  obtain ⟨visited, heq⟩ := hsuffix
  have hfalls := falls_tail hc
  have hmem := (mem_tail_iff hc).mpr ⟨hu, hne⟩
  rw [← heq] at hfalls hmem
  rcases List.mem_append.mp hmem with hvisited | htodo
  · have hlt := (List.pairwise_append.mp hfalls).2.2 u hvisited v List.mem_cons_self
    omega
  · exact htodo

section Change

variable {k v m : Nat} {todo : List Nat} (hc : t.Covers successors start)
  (h : t.RisingInvariant successors start k (v :: todo) parents)
  (hm : t.IsCandidate successors start parents v m)

include h hm

/-- The part of a chain below the changed place stays as it is. -/
theorem onChain_set_of_le {a x : Nat} (ha : OnChain parents a x)
    (hle : t.number a ≤ t.number v) : OnChain (parents.set! v (some m)) a x := by
  have htree := h.pass.tree
  induction ha with
  | self => exact OnChain.self
  | @up x p hp hup ih =>
    refine OnChain.up ?_ ih
    rw [parent?_set (htree.room v hm.mem_order), if_neg, hp]
    rintro rfl
    have hlt := number_lt_of_onChain_parent htree hp hm.ne_start hup
    omega

/-- No chain gets a new place. Only the changed place itself may get its first parent. -/
theorem onChain_of_set_of_isSome {a x : Nat} (hx : (parents.parent? x).isSome)
    (ha : OnChain (parents.set! v (some m)) a x) : OnChain parents a x := by
  have htree := h.pass.tree
  rcases onChain_of_set htree hm ha with hold | ⟨hthrough, hmeet⟩
  · exact hold
  · obtain ⟨p, hp⟩ := Option.isSome_iff_exists.mp (isSome_of_onChain htree hthrough hx)
    have hup := h.agreed v p a hp hm.ne_start ((hm.meets a).mp hmeet)
    exact onChain_trans (OnChain.up hp hup) hthrough

theorem isSome_set {w : Nat} (hw : (parents.parent? w).isSome) :
    (Parents.parent? (parents.set! v (some m)) w).isSome := by
  rw [parent?_set (h.pass.tree.room v hm.mem_order)]
  split
  · rfl
  · exact hw

/-- What the predecessors agree on after the change stands above their place. -/
theorem agreed_set (hc : t.Covers successors start) {w p a : Nat}
    (hp : Parents.parent? (parents.set! v (some m)) w = some p) (hne : w ≠ start)
    (hall : ∀ u ∈ t.order, w ∈ successors u →
      (Parents.parent? (parents.set! v (some m)) u).isSome →
      OnChain (parents.set! v (some m)) a u) :
    OnChain (parents.set! v (some m)) a p := by
  have htree := h.pass.tree
  have hold : ∀ u ∈ t.order, w ∈ successors u → (parents.parent? u).isSome →
      OnChain parents a u := by
    intro u hu hedge hdefined
    apply onChain_of_set_of_isSome h hm hdefined
    exact hall u hu hedge (isSome_set h hm hdefined)
  rw [parent?_set (htree.room v hm.mem_order)] at hp
  by_cases hw : v = w
  · subst hw
    rw [if_pos rfl] at hp
    obtain rfl := Option.some.inj hp
    exact onChain_set_of_lt htree hm ((hm.meets a).mpr hold) (number_lt_candidate htree hm)
  · rw [if_neg hw] at hp
    have hap : OnChain parents a p := h.agreed w p a hp hne hold
    by_cases hlt : t.number v < t.number p
    · exact onChain_set_of_lt htree hm hap hlt
    · -- the parent has yet to be visited, so a chain leads to it that the change does not touch
      have hdefined := htree.parent_has_parent w p hp
      have hporder := mem_order_of_isSome htree hdefined
      have hpstart : p ≠ start := by
        rintro rfl
        exact hlt (number_lt_start hc hm.mem_order hm.ne_start)
      have hptodo := mem_todo_of_le hc h.suffix hporder hpstart (Nat.not_lt.mp hlt)
      obtain ⟨u, hu, hedge, _, hsome, hpu⟩ := h.backed w p hp hne fun _ => hptodo
      have hstill := onChain_set_of_le h hm hpu (Nat.not_lt.mp hlt)
      have hau := hall u hu hedge (isSome_set h hm hsome)
      rcases onChain_total hau hstill with hup | hdown
      · exact hup
      · have hpa := onChain_of_set_of_isSome h hm
          (isSome_of_onChain htree hap hdefined) hdown
        rw [onChain_antisymm hc htree hdefined hap hpa]
        exact OnChain.self

/-- The parents that were backed are so after the change, and so is the new one. -/
theorem backed_set (hc : t.Covers successors start) {w p : Nat}
    (hp : Parents.parent? (parents.set! v (some m)) w = some p) (hne : w ≠ start)
    (htodo : w ∈ todo → p ∈ todo) :
    ∃ u ∈ t.order, w ∈ successors u ∧ t.number w < t.number u ∧
      (Parents.parent? (parents.set! v (some m)) u).isSome ∧
      OnChain (parents.set! v (some m)) p u := by
  have htree := h.pass.tree
  rw [parent?_set (htree.room v hm.mem_order)] at hp
  by_cases hw : v = w
  · subst hw
    rw [if_pos rfl] at hp
    obtain rfl := Option.some.inj hp
    obtain ⟨u, hu, hedge, hlt, hdefined⟩ := hm.earlier
    have hmu := (hm.meets m).mp OnChain.self u hu hedge hdefined
    exact ⟨u, hu, hedge, hlt, isSome_set h hm hdefined, onChain_set_of_lt htree hm hmu hlt⟩
  · rw [if_neg hw] at hp
    have hbefore : w ∈ v :: todo → p ∈ v :: todo := by
      intro hmem
      exact List.mem_cons_of_mem _ (htodo ((List.mem_cons.mp hmem).resolve_left (Ne.symm hw)))
    obtain ⟨u, hu, hedge, hlt, hdefined, hpu⟩ := h.backed w p hp hne hbefore
    refine ⟨u, hu, hedge, hlt, isSome_set h hm hdefined, ?_⟩
    by_cases hmem : w ∈ todo
    · have hless := (List.pairwise_cons.mp (falls_todo hc h.suffix)).1 p (htodo hmem)
      exact onChain_set_of_le h hm hpu (Nat.le_of_lt hless)
    · -- a place whose turn is over has a larger number than the changed one
      apply onChain_set_of_lt htree hm hpu
      apply Nat.lt_trans _ hlt
      by_contra hle
      have hworder := mem_order_of_isSome htree (Option.isSome_of_eq_some hp)
      rcases List.mem_cons.mp (mem_todo_of_le hc h.suffix hworder hne (Nat.not_lt.mp hle)) with
        hwv | hrest
      · exact hw hwv.symm
      · exact hmem hrest

theorem risingInvariant_set (hc : t.Covers successors start) :
    t.RisingInvariant successors start k todo (parents.set! v (some m)) := by
  refine ⟨?_, ?_, ?_, ?_⟩
  · exact passInvariant_set hc h.pass hm fun u => not_mem_of_falls (falls_todo hc h.suffix)
  · exact (List.suffix_cons v todo).trans h.suffix
  · intro w p a
    exact agreed_set h hm hc
  · intro w p
    exact backed_set h hm hc

/-- A new parent has a larger number than the one that it replaces. -/
theorem number_lt_of_replaced (hc : t.Covers successors start) {p : Nat}
    (hp : parents.parent? v = some p) (hne : p ≠ m) : t.number p < t.number m := by
  have htree := h.pass.tree
  have hmp : OnChain parents m p := h.agreed v p m hp hm.ne_start ((hm.meets m).mp OnChain.self)
  have hdefined := htree.parent_has_parent v p hp
  apply Nat.lt_of_le_of_ne (number_le_of_onChain htree hmp)
  intro heq
  exact hne (eq_of_number_eq hc (mem_order_of_isSome htree hdefined)
    (mem_order_of_isSome htree (isSome_of_onChain htree hmp hdefined)) heq)

end Change

/-- A visit gives the place the parent on which its predecessors agree. -/
theorem improve_of_rising (hc : t.Covers successors start) {predecessors : CompressedRows}
    (hlists : t.ListsPredecessors successors predecessors) {k v : Nat} {todo : List Nat}
    (h : t.RisingInvariant successors start k (v :: todo) parents) (changed : Bool) :
    ∃ m, t.IsCandidate successors start parents v m ∧
      t.improve predecessors (parents, changed) v =
        .ok (parents.set! v (some m), changed || decide (parents.parent? v ≠ some m)) := by
  obtain ⟨hv, hne⟩ := (mem_tail_iff hc).mp (h.suffix.subset List.mem_cons_self)
  apply improve_spec hc h.pass.tree hlists hv hne
  intro u hu hlt
  apply h.pass.visited u hu
  simp [visits, not_mem_of_falls (falls_todo hc h.suffix) hlt]

theorem risingInvariant_first (hc : t.Covers successors start) {slots : Nat}
    (hsize : slots = t.numbers.size) (hslots : ∀ v ∈ t.order, v < slots) :
    t.RisingInvariant successors start 0 t.order.tail (firstParents slots start) := by
  have hstart := hslots start (start_mem_order hc)
  refine ⟨passInvariant_first hc hsize hslots, List.suffix_refl _, ?_, ?_⟩
  · intro v p a hp hne
    exact absurd (eq_start_of_first hstart hp).1 hne
  · intro v p hp hne
    exact absurd (eq_start_of_first hstart hp).1 hne

/-- Between two passes every parent is backed. -/
theorem risingInvariant_next (hc : t.Covers successors start) {k : Nat}
    (h : t.RisingInvariant successors start k [] parents) :
    t.RisingInvariant successors start (k + 1) t.order.tail parents := by
  refine ⟨passInvariant_next hc h.pass, List.suffix_refl _, h.agreed, ?_⟩
  intro v p hp hne _
  exact h.backed v p hp hne fun hnil => absurd hnil List.not_mem_nil

end Laws

end Traversal

/-! ## The moments of a search -/

namespace HeapGraph

/-- A moment of the search between two visits: `passes` whole passes were made, the pass that is
going on still has the places of `todo` before it, and `changed` tells whether it has changed a
parent. -/
inductive Moment (g : HeapGraph) :
    (passes : Nat) → (todo : List Nat) → (parents : Parents) → (changed : Bool) → Prop
  | first : Moment g 0 g.traversal.order.tail g.firstParents false
  | visit {passes v : Nat} {todo : List Nat} {parents after : Parents} {changed changes : Bool} :
      Moment g passes (v :: todo) parents changed →
      g.traversal.improve g.predecessors (parents, changed) v = .ok (after, changes) →
      Moment g passes todo after changes
  | again {passes : Nat} {parents : Parents} :
      Moment g passes [] parents true → Moment g (passes + 1) g.traversal.order.tail parents false

/-- While `v` is visited, the search looks for the place where the chains of `p` and `best` meet:
the next predecessor of `v` that has a parent, and the candidate that those before it gave. -/
structure Asks (g : HeapGraph) (parents : Parents) (v : Nat) (before : List Nat) (p best : Nat) :
    Prop where
  comes_next : before ++ [p] <+: g.predecessors.row v
  has_parent : (parents.parent? p).isSome
  so_far : g.traversal.candidate parents before = .ok (some best)

/-- What holds at a moment of the search. -/
structure Climbing (g : HeapGraph) (passes : Nat) (todo : List Nat) (parents : Parents) : Prop where
  sentinel : parents.parent? g.size = some g.size
  rises : ∀ v p, parents.parent? v = some p → v ≠ g.size → g.Reachable v ∧
    (parents.parent? p).isSome ∧ g.traversal.number v < g.traversal.number p
  to_sentinel : ∀ v, (parents.parent? v).isSome → OnChain parents g.size v
  visited : ∀ v, g.Reachable v → 0 < passes ∨ v ∉ todo → (parents.parent? v).isSome
  /-- Whatever meeting place is looked for is found, by the parents alone, and it is the nearest
  place that stands on both chains. -/
  meets : ∀ v ∈ todo.head?, ∀ before p best, g.Asks parents v before p best → ∃ m,
    g.traversal.meet parents p best = .ok m ∧
    g.traversal.candidate parents (before ++ [p]) = .ok (some m) ∧
    g.traversal.Climbs parents p best m ∧
    ∀ a, OnChain parents a m ↔ OnChain parents a p ∧ OnChain parents a best
  /-- A visit goes through, and a parent that it replaces gives way to one with a larger number. -/
  replaces : ∀ v ∈ todo.head?, ∀ changed, ∃ m,
    g.traversal.improve g.predecessors (parents, changed) v =
      .ok (parents.set! v (some m), changed || decide (parents.parent? v ≠ some m)) ∧
    ∀ p, parents.parent? v = some p → p ≠ m → g.traversal.number p < g.traversal.number m

/-- How a search ends: after a pass that has changed nothing, or before a pass, at the limit or with
a cancelled token. -/
def EndsAtMoment (g : HeapGraph) : Except SearchError (Parents × Nat) → Prop
  | .ok (parents, passes) => ∃ whole, passes = whole + 1 ∧ g.Moment whole [] parents false
  | .error (.unsettled passes) => ∃ parents, g.Moment passes g.traversal.order.tail parents false
  | .error (.cancelled passes) => ∃ parents, g.Moment passes g.traversal.order.tail parents false
  | .error (.brokenChain _) => False

section Moments

variable {g : HeapGraph} {passes : Nat} {todo : List Nat} {parents : Parents} {changed : Bool}

theorem risingInvariant (h : g.Moment passes todo parents changed) :
    g.traversal.RisingInvariant g.successors g.size passes todo parents := by
  have hc := g.covers_traversal
  induction h with
  | first =>
    exact Traversal.risingInvariant_first hc (DepthFirst.size_numbering _ _).symm order_lt
  | @visit passes v todo parents after changed changes _ hstep ih =>
    obtain ⟨m, hm, hspec⟩ := Traversal.improve_of_rising hc g.listsPredecessors ih changed
    rw [hspec] at hstep
    obtain ⟨rfl, _⟩ := Prod.mk.inj (Except.ok.inj hstep)
    exact Traversal.risingInvariant_set ih hm hc
  | again _ ih => exact Traversal.risingInvariant_next hc ih

theorem meets_of_asks (htree : g.traversal.ParentsInvariant g.successors g.size parents)
    {v p best : Nat} {before : List Nat} (hasks : g.Asks parents v before p best) : ∃ m,
    g.traversal.meet parents p best = .ok m ∧
    g.traversal.candidate parents (before ++ [p]) = .ok (some m) ∧
    g.traversal.Climbs parents p best m ∧
    ∀ a, OnChain parents a m ↔ OnChain parents a p ∧ OnChain parents a best := by
  have hc := g.covers_traversal
  have hbest := Traversal.isSome_of_candidate hc htree hasks.so_far
  obtain ⟨m, hm, hmeets⟩ := Traversal.meet_spec hc htree hasks.has_parent hbest
  refine ⟨m, hm, ?_, ?_, Traversal.meetsAt_pair.mp hmeets⟩
  · rw [Traversal.candidate_concat hasks.has_parent hasks.so_far, hm]
    rfl
  · have hrises := Traversal.rises_of_parentsInvariant hc htree
    exact (Traversal.meet_eq_ok_iff hrises hasks.has_parent hbest).mp hm

theorem climbing (h : g.Moment passes todo parents changed) :
    g.Climbing passes todo parents := by
  have hc := g.covers_traversal
  have hrising := risingInvariant h
  have htree := hrising.pass.tree
  refine ⟨htree.start_parent, ?_, ?_, ?_, ?_, ?_⟩
  · intro v p hp hne
    have hv := (hc.mem_order v).mp (htree.reached v p hp)
    exact ⟨reachable_iff_reaches.mpr ⟨hne, hv⟩, htree.parent_has_parent v p hp,
      htree.rises v p hp hne⟩
  · intro v hv
    exact Traversal.start_onChain htree hv
  · intro v hv hvisited
    apply hrising.pass.visited v ((hc.mem_order v).mpr (reachable_iff_reaches.mp hv).2)
    unfold Traversal.visits
    split
    · rename_i hmem
      exact hvisited.resolve_right (not_not_intro hmem)
    · exact Nat.succ_pos _
  · intro v _ before p best hasks
    exact meets_of_asks htree hasks
  · intro v hv changed
    obtain ⟨rest, rfl⟩ := List.head?_eq_some_iff.mp hv
    obtain ⟨m, hm, hstep⟩ := Traversal.improve_of_rising hc g.listsPredecessors hrising changed
    exact ⟨m, hstep, fun p => Traversal.number_lt_of_replaced hrising hm hc⟩

/-- The visits of a pass lead from one moment to another. -/
theorem exists_visits {visited : List Nat} (h : g.Moment passes (visited ++ todo) parents changed) :
    ∃ after changes,
      visited.foldlM (g.traversal.improve g.predecessors) (parents, changed) =
        .ok (after, changes) ∧ g.Moment passes todo after changes := by
  induction visited generalizing parents changed with
  | nil => exact ⟨parents, changed, rfl, h⟩
  | cons v rest ih =>
    obtain ⟨m, hstep, _⟩ := (climbing h).replaces v rfl changed
    obtain ⟨after, changes, hrest, hlast⟩ := ih (Moment.visit h hstep)
    refine ⟨after, changes, ?_, hlast⟩
    rw [List.foldlM_cons, hstep]
    exact hrest

theorem exists_pass (h : g.Moment passes g.traversal.order.tail parents false) :
    ∃ after changes, g.pass parents = .ok (after, changes) ∧ g.Moment passes [] after changes := by
  apply exists_visits
  rwa [List.append_nil]

/-- However many passes remain, a search goes from moment to moment. -/
theorem ends_settle (h : g.Moment passes g.traversal.order.tail parents false) (cancelled : Bool)
    (remaining : Nat) :
    g.EndsAtMoment (g.traversal.settle g.predecessors cancelled remaining passes parents) := by
  induction remaining generalizing passes parents with
  | zero =>
    unfold Traversal.settle
    split
    · exact ⟨parents, h⟩
    · exact ⟨parents, h⟩
  | succ remaining ih =>
    obtain ⟨after, changes, hpass, hafter⟩ := exists_pass h
    unfold pass at hpass
    unfold Traversal.settle
    split
    · exact ⟨parents, h⟩
    · cases changes with
      | true =>
        simp only [hpass]
        exact ih (Moment.again hafter)
      | false =>
        simp only [hpass]
        exact ⟨passes, rfl, hafter⟩

theorem ends_search (hroots : g.roots ≠ []) (maxPasses : Option UInt64) (cancelled : Bool) :
    g.EndsAtMoment
      ((DominatorTree.search g maxPasses cancelled).map fun t => (t.parents, t.passes)) := by
  have hfirst : g.Moment 0 g.traversal.order.tail g.firstParents false := Moment.first
  have hends := ends_settle hfirst cancelled (passesAllowed maxPasses g.traversal.reachable)
  unfold firstParents at hends
  rw [DominatorTree.search_rooted hroots]
  cases hsettle : g.traversal.settle g.predecessors cancelled
      (passesAllowed maxPasses g.traversal.reachable) 0
      (Traversal.firstParents (g.size + 1) g.size) with
  | error error =>
    rw [hsettle] at hends
    exact hends
  | ok settled =>
    rw [hsettle] at hends
    exact hends

end Moments

/-- A search goes from moment to moment until it ends, and at each moment every place that has a
parent stands on a chain that climbs to the sentinel, the chains that are followed meet, and a
parent is only replaced by one with a larger number. -/
theorem parents_only_rise_while_a_search_runs (g : HeapGraph) (hroots : g.roots ≠ []) :
    (∃ t, DominatorTree.ofGraph g = .ok t) ∧
    (∀ maxPasses cancelled, g.EndsAtMoment
      ((DominatorTree.search g maxPasses cancelled).map fun t => (t.parents, t.passes))) ∧
    ∀ passes todo parents changed, g.Moment passes todo parents changed →
      g.Climbing passes todo parents := by
  obtain ⟨t, hsearch, _⟩ := DominatorTree.exists_tree g
  exact ⟨⟨t, hsearch⟩, ends_search hroots, fun _ _ _ _ => climbing⟩

/-- In the second pass over the knot the place where it is entered has a root as its parent, which
gives way to the sentinel. -/
theorem the_second_pass_over_the_knot_raises_a_parent :
    ∃ g parents changed, (Recording.replay .four Recording.knot).build = .ok g ∧ g.roots ≠ [] ∧
      g.Moment 1 [1, 2, 3] parents changed ∧ parents.parent? 1 = some 0 ∧
      g.Asks parents 1 [0] 3 0 ∧ g.traversal.Climbs parents 3 0 g.size ∧
      g.traversal.number 0 < g.traversal.number g.size := by
  have hrun : ((Recording.replay .four Recording.knot).build.toOption.bind fun g =>
      (g.pass g.firstParents).toOption.bind fun first =>
        ([4, 0].foldlM (g.traversal.improve g.predecessors) (first.1, false)).toOption.map
          fun second =>
            ((g.roots, g.size, g.traversal.order.tail, g.predecessors.row 1),
              (first.2, second.1.size, second.1.parent? 1, second.1.parent? 3),
              (g.traversal.candidate second.1 [0]).toOption,
              (g.traversal.meet second.1 3 0).toOption,
              (g.traversal.improve g.predecessors (second.1, second.2) 1).toOption.map
                fun third => third.1.parent? 1)) =
      some (([⟨0, .unknown⟩, ⟨4, .unknown⟩], 5, [4, 0, 1, 2, 3], [0, 3]),
        (true, 6, some 0, some 2), some (some 0), some 5, some (some 5)) := by
    cbv
  obtain ⟨g, hbuild, hfirst⟩ := Option.bind_eq_some_iff.mp hrun
  obtain ⟨⟨first, changed⟩, hpass, hsecond⟩ := Option.bind_eq_some_iff.mp hfirst
  obtain ⟨⟨second, changes⟩, hfold, hseen⟩ := Option.map_eq_some_iff.mp hsecond
  simp only [Prod.mk.injEq] at hseen
  obtain ⟨⟨hroots, hsize, htail, hrow⟩, ⟨rfl, hslots, hone, hthree⟩, hzero, hmeet, hthird⟩ := hseen
  have hsome : g.roots ≠ [] := by simp [hroots]
  have hmoment : g.Moment 1 [1, 2, 3] second changes := by
    have hfirst : g.Moment 0 g.traversal.order.tail g.firstParents false := Moment.first
    obtain ⟨after, changed, hpass', hafter⟩ := exists_pass hfirst
    rw [DominatorTree.eq_ok_of_toOption hpass] at hpass'
    obtain ⟨rfl, rfl⟩ := Prod.mk.inj (Except.ok.inj hpass')
    have hagain : g.Moment 1 ([4, 0] ++ [1, 2, 3]) first false := by
      have hnext := Moment.again hafter
      rwa [htail] at hnext
    obtain ⟨after, changed, hfold', hlast⟩ := exists_visits hagain
    rw [DominatorTree.eq_ok_of_toOption hfold] at hfold'
    obtain ⟨rfl, rfl⟩ := Prod.mk.inj (Except.ok.inj hfold')
    exact hlast
  have hclimbing := (parents_only_rise_while_a_search_runs g hsome).2.2 _ _ _ _ hmoment
  have hasks : g.Asks second 1 [0] 3 0 := by
    refine ⟨?_, ?_, DominatorTree.eq_ok_of_toOption hzero⟩
    · rw [hrow]
      exact List.prefix_refl _
    · rw [hthree]
      rfl
  obtain ⟨m, hm, _, hclimbs, _⟩ := hclimbing.meets 1 rfl [0] 3 0 hasks
  rw [DominatorTree.eq_ok_of_toOption hmeet] at hm
  obtain rfl := Except.ok.inj hm
  obtain ⟨n, hstep, hrises⟩ := hclimbing.replaces 1 rfl changes
  rw [hstep] at hthird
  have hparent : Parents.parent? (second.set! 1 (some n)) 1 = some 5 := Option.some.inj hthird
  rw [parent?_set (by rw [hslots]; decide), if_pos rfl] at hparent
  obtain rfl := Option.some.inj hparent
  refine ⟨g, second, changes, DominatorTree.eq_ok_of_toOption hbuild, hsome, hmoment, hone, hasks,
    ?_, ?_⟩
  · rw [hsize]
    exact hclimbs
  · rw [hsize]
    exact hrises 0 hone (by decide)

end HeapGraph

end HeapRetention
