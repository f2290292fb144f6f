-- The laws of the chains of parents. While the search for dominators runs,
-- every chain climbs to the start, all dominators of a place stand on its
-- chain, and two chains meet where they first have a place in common.
import HeapRetention.Proofs.DepthFirst

namespace HeapRetention

/-! ## Chains -/

/-- The place `a` stands on the chain of `v`, which begins with `v` itself. -/
inductive OnChain (parents : Parents) (a : Nat) : Nat → Prop
  | self : OnChain parents a a
  | up {v p : Nat} : parents.parent? v = some p → OnChain parents a p → OnChain parents a v

theorem onChain_trans {parents : Parents} {a b v : Nat} (hab : OnChain parents a b)
    (hbv : OnChain parents b v) : OnChain parents a v := by
  induction hbv with
  | self => exact hab
  | up hp _ ih => exact OnChain.up hp ih

theorem onChain_iff {parents : Parents} {a v p : Nat} (hp : parents.parent? v = some p) :
    OnChain parents a v ↔ a = v ∨ OnChain parents a p := by
  refine ⟨?_, ?_⟩
  · intro h
    cases h with
    | self => exact Or.inl rfl
    | up hq hup =>
      rw [hp] at hq
      obtain rfl := Option.some.inj hq
      exact Or.inr hup
  · rintro (rfl | h)
    · exact OnChain.self
    · exact OnChain.up hp h

/-- Of two places on one chain, one stands on the chain of the other. -/
theorem onChain_total {parents : Parents} {a b v : Nat} (ha : OnChain parents a v)
    (hb : OnChain parents b v) : OnChain parents a b ∨ OnChain parents b a := by
  induction ha with
  | self => exact Or.inr hb
  | up hp hup ih =>
    rcases (onChain_iff hp).mp hb with rfl | hrest
    · exact Or.inl (OnChain.up hp hup)
    · exact ih hrest

theorem parent?_set {parents : Parents} {v : Nat} (hv : v < parents.size) (m w : Nat) :
    Parents.parent? (parents.set! v (some m)) w =
      if v = w then some m else parents.parent? w := by
  unfold Parents.parent?
  rw [Array.set!_eq_setIfInBounds, Array.getElem?_setIfInBounds]
  by_cases hw : v = w
  · simp [hw, hw ▸ hv]
  · simp [hw]

/-- A place that has its parent already is not changed. -/
theorem set_parent_self {parents : Parents} {v m : Nat} (h : parents.parent? v = some m) :
    parents.set! v (some m) = parents := by
  unfold Parents.parent? at h
  have hget : parents[v]? = some (some m) := Option.join_eq_some_iff.mp h
  obtain ⟨hlt, hv⟩ := Array.getElem?_eq_some_iff.mp hget
  rw [Array.set!_eq_setIfInBounds, Array.setIfInBounds_def, dif_pos hlt, ← hv,
    Array.set_getElem_self]

namespace Traversal

section Places

variable {t : Traversal} {successors : Nat → List Nat} {start : Nat} {parents : Parents}

/-! ## Places that are reached from above -/

/-- A path leads from `top` to `v` through places with smaller numbers than that of `top`. -/
inductive Below (t : Traversal) (successors : Nat → List Nat) (top : Nat) : Nat → Prop
  | self : Below t successors top top
  | step {u v : Nat} : Below t successors top u → v ∈ successors u → t.number v < t.number top →
      Below t successors top v

theorem number_le_of_below {top v : Nat} (h : t.Below successors top v) :
    t.number v ≤ t.number top := by
  cases h with
  | self => exact Nat.le_refl _
  | step _ _ hlt => exact Nat.le_of_lt hlt

theorem below_trans {top u v : Nat} (hu : t.Below successors top u)
    (hv : t.Below successors u v) : t.Below successors top v := by
  induction hv with
  | self => exact hu
  | step _ hedge hlt ih =>
    exact Below.step ih hedge (Nat.lt_of_lt_of_le hlt (number_le_of_below hu))

/-- A path to `top` goes on to every place below it, and passes only smaller numbers there. -/
theorem path_below {top v : Nat} (h : t.Below successors top v) {trail : List Nat}
    (hpath : Path successors start trail top) :
    ∃ more, Path successors start (more ++ trail) v ∧ ∀ x ∈ more, t.number x < t.number top := by
  induction h with
  | self => exact ⟨[], hpath, fun x hx => absurd hx List.not_mem_nil⟩
  | @step u v _ hedge hlt ih =>
    obtain ⟨more, hmore, hsmall⟩ := ih
    refine ⟨v :: more, Path.step hmore hedge, ?_⟩
    intro x hx
    rcases List.mem_cons.mp hx with rfl | hrest
    · exact hlt
    · exact hsmall x hrest

/-- A dominator with a larger number than `top` cannot come in between `top` and what is below. -/
theorem guards_of_below {top v d : Nat} (h : t.Below successors top v)
    (hd : Guards successors start d v) (hlt : t.number top < t.number d) :
    Guards successors start d top := by
  intro trail hpath
  obtain ⟨more, hmore, hsmall⟩ := path_below h hpath
  rcases List.mem_append.mp (hd _ hmore) with hin | hin
  · have := hsmall d hin
    omega
  · exact hin

/-! ## The invariant of the parents -/

/-- What holds of the parents at every moment of the search. A place has a parent only after its
traversal reached it, the numbers grow on the way up, and no dominator was passed over. -/
structure ParentsInvariant (t : Traversal) (successors : Nat → List Nat) (start : Nat)
    (parents : Parents) : Prop where
  size_eq : parents.size = t.numbers.size
  room : ∀ v ∈ t.order, v < parents.size
  start_parent : parents.parent? start = some start
  reached : ∀ v p, parents.parent? v = some p → v ∈ t.order
  parent_has_parent : ∀ v p, parents.parent? v = some p → (parents.parent? p).isSome
  rises : ∀ v p, parents.parent? v = some p → v ≠ start → t.number v < t.number p
  below : ∀ v p, parents.parent? v = some p → t.Below successors p v
  guards_onChain : ∀ v p d, parents.parent? v = some p → d ≠ v →
    Guards successors start d v → OnChain parents d p

theorem mem_order_of_isSome (h : t.ParentsInvariant successors start parents) {v : Nat}
    (hv : (parents.parent? v).isSome) : v ∈ t.order := by
  obtain ⟨p, hp⟩ := Option.isSome_iff_exists.mp hv
  exact h.reached v p hp

theorem isSome_of_onChain (h : t.ParentsInvariant successors start parents) {a v : Nat}
    (ha : OnChain parents a v) (hv : (parents.parent? v).isSome) : (parents.parent? a).isSome := by
  induction ha with
  | self => exact hv
  | up hp _ ih => exact ih (h.parent_has_parent _ _ hp)

theorem eq_start_of_onChain (h : t.ParentsInvariant successors start parents) {a : Nat}
    (ha : OnChain parents a start) : a = start := by
  generalize hs : start = s at ha
  induction ha with
  | self => rfl
  | up hp _ ih =>
    rw [← hs, h.start_parent] at hp
    have hstart := Option.some.inj hp
    rw [ih hstart, ← hstart, hs]

theorem number_le_of_onChain (h : t.ParentsInvariant successors start parents) {a v : Nat}
    (ha : OnChain parents a v) : t.number v ≤ t.number a := by
  induction ha with
  | self => exact Nat.le_refl _
  | @up v p hp hup ih =>
    by_cases hv : v = start
    · subst hv
      rw [h.start_parent] at hp
      obtain rfl := Option.some.inj hp
      exact ih
    · exact Nat.le_trans (Nat.le_of_lt (h.rises v p hp hv)) ih

/-- A place is not on the chain of its parent. -/
theorem number_lt_of_onChain_parent (h : t.ParentsInvariant successors start parents)
    {a v p : Nat} (hp : parents.parent? v = some p) (hv : v ≠ start) (ha : OnChain parents a p) :
    t.number v < t.number a :=
  Nat.lt_of_lt_of_le (h.rises v p hp hv) (number_le_of_onChain h ha)

theorem onChain_antisymm (hc : t.Covers successors start)
    (h : t.ParentsInvariant successors start parents) {a v : Nat}
    (hv : (parents.parent? v).isSome) (ha : OnChain parents a v) (hb : OnChain parents v a) :
    a = v := by
  have hle := number_le_of_onChain h ha
  have hge := number_le_of_onChain h hb
  exact eq_of_number_eq hc (mem_order_of_isSome h (isSome_of_onChain h ha hv))
    (mem_order_of_isSome h hv) (Nat.le_antisymm hge hle)

theorem number_lt_of_not_lt (hc : t.Covers successors start)
    (h : t.ParentsInvariant successors start parents) {left right : Nat}
    (hleft : (parents.parent? left).isSome) (hright : (parents.parent? right).isSome)
    (hne : left ≠ right) (hlt : ¬ t.number left < t.number right) :
    t.number right < t.number left := by
  apply Nat.lt_of_le_of_ne (Nat.not_lt.mp hlt)
  intro heq
  exact hne (eq_of_number_eq hc (mem_order_of_isSome h hleft) (mem_order_of_isSome h hright)
    heq.symm)

/-- Every chain climbs to the start. -/
theorem start_onChain (h : t.ParentsInvariant successors start parents) {v : Nat}
    (hv : (parents.parent? v).isSome) : OnChain parents start v := by
  by_cases hs : v = start
  · rw [hs]
    exact OnChain.self
  · obtain ⟨p, hp⟩ := Option.isSome_iff_exists.mp hv
    have hrises := h.rises v p hp hs
    have hle := t.number_le p
    exact OnChain.up hp (start_onChain h (h.parent_has_parent v p hp))
termination_by t.order.length - t.number v

theorem below_of_onChain (h : t.ParentsInvariant successors start parents) {a v : Nat}
    (ha : OnChain parents a v) : t.Below successors a v := by
  induction ha with
  | self => exact Below.self
  | up hp _ ih => exact below_trans ih (h.below _ _ hp)

/-- All dominators of a place stand on its chain. -/
theorem onChain_of_guards (h : t.ParentsInvariant successors start parents) {d v : Nat}
    (hv : (parents.parent? v).isSome) (hd : Guards successors start d v) :
    OnChain parents d v := by
  obtain ⟨p, hp⟩ := Option.isSome_iff_exists.mp hv
  by_cases hdv : d = v
  · rw [hdv]
    exact OnChain.self
  · exact OnChain.up hp (h.guards_onChain v p d hp hdv hd)

/-! ## Where two chains meet -/

/-- The place `m` is the first one that the chains of some places have in common. -/
def MeetsAt (parents : Parents) (places : List Nat) (m : Nat) : Prop :=
  ∀ a, OnChain parents a m ↔ ∀ v ∈ places, OnChain parents a v

theorem above?_eq_parent? (h : t.ParentsInvariant successors start parents) {v p : Nat}
    (hp : parents.parent? v = some p) (hv : v ≠ start) : t.above? parents v = some p := by
  unfold above?
  rw [hp, Option.filter_some, if_pos]
  simpa using h.rises v p hp hv

theorem meetsAt_pair {left right m : Nat} : MeetsAt parents [left, right] m ↔
    ∀ a, OnChain parents a m ↔ OnChain parents a left ∧ OnChain parents a right := by
  simp [MeetsAt]

/-- A place that is not on the other chain gives way to its parent. -/
theorem meetsAt_climb {v p other m : Nat} (hp : parents.parent? v = some p)
    (hnot : ¬ OnChain parents v other) (h : MeetsAt parents [p, other] m) :
    MeetsAt parents [v, other] m := by
  rw [meetsAt_pair] at h ⊢
  intro a
  rw [h a, onChain_iff hp]
  refine ⟨?_, ?_⟩
  · rintro ⟨ha, hb⟩
    exact ⟨Or.inr ha, hb⟩
  · rintro ⟨rfl | ha, hb⟩
    · exact absurd hb hnot
    · exact ⟨ha, hb⟩

theorem meetsAt_swap {left right m : Nat} (h : MeetsAt parents [left, right] m) :
    MeetsAt parents [right, left] m := by
  rw [meetsAt_pair] at h ⊢
  intro a
  rw [h a, and_comm]

/-- The search for the meeting place never breaks off, and gives the first common place. -/
theorem meet_spec (hc : t.Covers successors start)
    (h : t.ParentsInvariant successors start parents) {left right : Nat}
    (hleft : (parents.parent? left).isSome) (hright : (parents.parent? right).isSome) :
    ∃ m, t.meet parents left right = .ok m ∧ MeetsAt parents [left, right] m := by
  -- The place with the smaller number is not the start and not on the other chain.
  have hclimbs : ∀ v other, (parents.parent? v).isSome → (parents.parent? other).isSome →
      t.number v < t.number other → ∃ p, parents.parent? v = some p ∧
        t.above? parents v = some p ∧ (parents.parent? p).isSome ∧ ¬ OnChain parents v other := by
    intro v other hv hother hlt
    have hne : v ≠ start := by
      rintro rfl
      have := number_le_of_onChain h (start_onChain h hother)
      omega
    obtain ⟨p, hp⟩ := Option.isSome_iff_exists.mp hv
    refine ⟨p, hp, above?_eq_parent? h hp hne, h.parent_has_parent v p hp, ?_⟩
    intro hon
    have := number_le_of_onChain h hon
    omega
  fun_induction meet t parents left right with
  | case1 left => exact ⟨left, rfl, by simp [MeetsAt]⟩
  | case2 left right hne hlt above habove ih =>
    obtain ⟨p, hp, hup, hsome, hnot⟩ := hclimbs left right hleft hright hlt
    rw [hup] at habove
    obtain rfl := Option.some.inj habove
    obtain ⟨m, hm, hmeets⟩ := ih hsome hright
    exact ⟨m, hm, meetsAt_climb hp hnot hmeets⟩
  | case3 left right hne hlt habove =>
    obtain ⟨p, _, hup, _⟩ := hclimbs left right hleft hright hlt
    rw [hup] at habove
    exact absurd habove (Option.some_ne_none p)
  | case4 left right hne hnlt above habove ih =>
    have hlt := number_lt_of_not_lt hc h hleft hright hne hnlt
    obtain ⟨p, hp, hup, hsome, hnot⟩ := hclimbs right left hright hleft hlt
    rw [hup] at habove
    obtain rfl := Option.some.inj habove
    obtain ⟨m, hm, hmeets⟩ := ih hleft hsome
    exact ⟨m, hm, meetsAt_swap (meetsAt_climb hp hnot (meetsAt_swap hmeets))⟩
  | case5 left right hne hnlt habove =>
    have hlt := number_lt_of_not_lt hc h hleft hright hne hnlt
    obtain ⟨p, _, hup, _⟩ := hclimbs right left hright hleft hlt
    rw [hup] at habove
    exact absurd habove (Option.some_ne_none p)

/-- Where the chains of a list of places meet, taken one after the other. -/
theorem foldlM_meet_spec (hc : t.Covers successors start)
    (h : t.ParentsInvariant successors start parents) {first : Nat} {more : List Nat}
    (hfirst : (parents.parent? first).isSome) (hmore : ∀ v ∈ more, (parents.parent? v).isSome) :
    ∃ m, more.foldlM (fun best p => t.meet parents p best) first = .ok m ∧
      MeetsAt parents (first :: more) m := by
  induction more generalizing first with
  | nil => exact ⟨first, rfl, by simp [MeetsAt]⟩
  | cons next rest ih =>
    obtain ⟨hnext, hrest⟩ := List.forall_mem_cons.mp hmore
    obtain ⟨best, hbest, hmeets⟩ := meet_spec hc h hnext hfirst
    rw [meetsAt_pair] at hmeets
    have hdefined : (parents.parent? best).isSome :=
      isSome_of_onChain h ((hmeets best).mp OnChain.self).1 hnext
    obtain ⟨m, hm, hall⟩ := ih hdefined hrest
    refine ⟨m, ?_, ?_⟩
    · rw [List.foldlM_cons, hbest]
      exact hm
    · intro a
      rw [hall a]
      simp only [List.forall_mem_cons, hmeets a]
      grind

/-- The candidate for a place is where the chains of those predecessors meet that have parents. -/
theorem candidate_spec (hc : t.Covers successors start)
    (h : t.ParentsInvariant successors start parents) {predecessors : List Nat}
    (hsome : ∃ p ∈ predecessors, (parents.parent? p).isSome) :
    ∃ m, t.candidate parents predecessors = .ok (some m) ∧
      MeetsAt parents (predecessors.filter fun p => (parents.parent? p).isSome) m := by
  unfold candidate
  obtain ⟨p, hp, hdefined⟩ := hsome
  have hmem : p ∈ predecessors.filter fun p => (parents.parent? p).isSome :=
    List.mem_filter.mpr ⟨hp, hdefined⟩
  have hall : ∀ v ∈ predecessors.filter (fun p => (parents.parent? p).isSome),
      (parents.parent? v).isSome := fun v hv => (List.mem_filter.mp hv).2
  cases hlist : predecessors.filter fun p => (parents.parent? p).isSome with
  | nil =>
    rw [hlist] at hmem
    exact absurd hmem List.not_mem_nil
  | cons first more =>
    rw [hlist] at hall
    obtain ⟨hfirst, hmore⟩ := List.forall_mem_cons.mp hall
    obtain ⟨m, hm, hmeets⟩ := foldlM_meet_spec hc h hfirst hmore
    refine ⟨m, ?_, hmeets⟩
    simp only [hm, Except.map]

end Places

end Traversal

end HeapRetention
