-- The laws of the passes. A pass gives each place the parent on which its
-- predecessors agree. It never passes over a dominator, and after so many
-- passes a chain holds only what lies on every path with fewer retreats. So
-- the passes settle, and the parents that they settle on are the dominators.
import Mathlib.Data.List.Perm.Subperm
import HeapRetention.Proofs.Chain

namespace HeapRetention

namespace Traversal

/-! ## Retreats of a path -/

/-- The edges of a path that lead to a place no later in the traversal than their source. -/
def retreats (t : Traversal) : List Nat → Nat
  | v :: u :: rest => (if t.number u ≤ t.number v then 1 else 0) + t.retreats (u :: rest)
  | _ => 0

section Laws

variable {t : Traversal} {successors : Nat → List Nat} {start : Nat}

theorem retreats_le_of_suffix {before trail : List Nat} (h : before <:+ trail) :
    t.retreats before ≤ t.retreats trail := by
  induction trail with
  | nil => simp [List.suffix_nil.mp h]
  | cons v rest ih =>
    rcases List.suffix_cons_iff.mp h with rfl | hrest
    · exact Nat.le_refl _
    · apply Nat.le_trans (ih hrest)
      cases rest with
      | nil => exact Nat.zero_le _
      | cons u rest =>
        rw [retreats]
        omega

theorem retreats_step {trail : List Nat} {u v : Nat} (h : Path successors start trail u) :
    t.retreats (v :: trail) =
      (if t.number u ≤ t.number v then 1 else 0) + t.retreats trail := by
  obtain ⟨rest, rfl⟩ := path_head h
  rfl

/-- A path that visits no place twice retreats at most at all edges but its first. -/
theorem retreats_lt_length (hc : t.Covers successors start) {trail : List Nat} {v : Nat}
    (h : Path successors start trail v) (hnodup : trail.Nodup) :
    t.retreats trail + 2 ≤ trail.length ∨ trail = [start] := by
  induction h with
  | start => exact Or.inr rfl
  | @step trail u v hpath hedge ih =>
    left
    obtain ⟨hnew, hrest⟩ := List.nodup_cons.mp hnodup
    rw [retreats_step hpath, List.length_cons]
    rcases ih hrest with hle | rfl
    · split
      · omega
      · omega
    · have hu : u = start := List.mem_singleton.mp (end_mem hpath)
      have hv : v ∈ t.order := (hc.mem_order v).mpr ⟨_, Path.step hpath hedge⟩
      have hlt := number_lt_start hc hv (fun heq => hnew (List.mem_singleton.mpr heq))
      rw [hu, if_neg (Nat.not_le.mpr hlt)]
      simp [retreats]

theorem length_le_order (hc : t.Covers successors start) {trail : List Nat} {v : Nat}
    (h : Path successors start trail v) (hnodup : trail.Nodup) :
    trail.length ≤ t.order.length := by
  have hsub : trail ⊆ t.order := fun x hx => (hc.mem_order x).mpr (reaches_of_mem h hx)
  exact (List.subperm_of_subset hnodup hsub).length_le

/-! ## Predecessors -/

/-- The table lists for each place the reached places that refer to it. -/
def ListsPredecessors (t : Traversal) (successors : Nat → List Nat)
    (predecessors : CompressedRows) : Prop :=
  ∀ v u, u ∈ predecessors.row v ↔ u ∈ t.order ∧ v ∈ successors u

theorem target_lt {slots : Nat} (hrange : ∀ u, ∀ v ∈ successors u, v < slots) :
    ∀ edge ∈ t.edges successors, edge.2 < slots := by
  intro edge hedge
  obtain ⟨u, _, hrow⟩ := List.mem_flatMap.mp hedge
  obtain ⟨v, hv, rfl⟩ := List.mem_map.mp hrow
  exact hrange u v hv

theorem listsPredecessors {slots : Nat} (hrange : ∀ u, ∀ v ∈ successors u, v < slots) :
    t.ListsPredecessors successors (t.predecessors successors slots) := by
  intro v u
  unfold predecessors
  by_cases hv : v < slots
  · rw [CompressedRows.row_ofItems (target_lt hrange) hv]
    simp [CompressedRows.entriesOf, edges]
  · rw [CompressedRows.row_ofItems_of_le (Nat.not_lt.mp hv)]
    refine ⟨?_, ?_⟩
    · intro h
      exact absurd h List.not_mem_nil
    · rintro ⟨_, hedge⟩
      exact absurd (hrange u v hedge) hv

/-! ## One place -/

/-- The chains of the predecessors of `v` meet at `m`, and one of them stands before `v`. -/
structure IsCandidate (t : Traversal) (successors : Nat → List Nat) (start : Nat)
    (parents : Parents) (v m : Nat) : Prop where
  mem_order : v ∈ t.order
  ne_start : v ≠ start
  meets : ∀ a, OnChain parents a m ↔
    ∀ u ∈ t.order, v ∈ successors u → (parents.parent? u).isSome → OnChain parents a u
  earlier : ∃ u ∈ t.order, v ∈ successors u ∧ t.number v < t.number u ∧
    (parents.parent? u).isSome

variable {parents : Parents}

theorem improve_spec (hc : t.Covers successors start)
    (h : t.ParentsInvariant successors start parents) {predecessors : CompressedRows}
    (hlists : t.ListsPredecessors successors predecessors) {v : Nat} (hv : v ∈ t.order)
    (hne : v ≠ start)
    (hbefore : ∀ u ∈ t.order, t.number v < t.number u → (parents.parent? u).isSome)
    (changed : Bool) :
    ∃ m, t.IsCandidate successors start parents v m ∧
      t.improve predecessors (parents, changed) v =
        .ok (parents.set! v (some m), changed || decide (parents.parent? v ≠ some m)) := by
  obtain ⟨u, hu, hedge, hlt⟩ := hc.earlier v hv hne
  have hdefined := hbefore u hu hlt
  obtain ⟨m, hm, hmeets⟩ := candidate_spec hc h ⟨u, (hlists v u).mpr ⟨hu, hedge⟩, hdefined⟩
  refine ⟨m, ⟨hv, hne, ?_, u, hu, hedge, hlt, hdefined⟩, ?_⟩
  · intro a
    rw [hmeets a]
    simp only [List.mem_filter, hlists v]
    grind
  · unfold improve
    simp only [hm]
    split
    · rename_i hsame
      rw [set_parent_self hsame]
      simp [hsame]
    · rename_i hnew
      simp [hnew]

section Change

variable {v m : Nat} (h : t.ParentsInvariant successors start parents)
  (hm : t.IsCandidate successors start parents v m)

include h hm

theorem number_lt_candidate : t.number v < t.number m := by
  obtain ⟨u, hu, hedge, hlt, hdefined⟩ := hm.earlier
  exact Nat.lt_of_lt_of_le hlt
    (number_le_of_onChain h ((hm.meets m).mp OnChain.self u hu hedge hdefined))

/-- Chains that lie above the changed place stay as they are. -/
theorem onChain_set_of_lt {a x : Nat} (ha : OnChain parents a x) (hlt : t.number v < t.number x) :
    OnChain (parents.set! v (some m)) a x := by
  induction ha with
  | self => exact OnChain.self
  | @up x p hp _ ih =>
    refine OnChain.up ?_ (ih ?_)
    · rw [parent?_set (h.room v hm.mem_order), if_neg, hp]
      rintro rfl
      exact Nat.lt_irrefl _ hlt
    · exact Nat.lt_of_lt_of_le hlt
        (number_le_of_onChain h (OnChain.up hp OnChain.self))

/-- A chain of the new table is one of the old table, or it goes through the changed place. -/
theorem onChain_of_set {a x : Nat} (ha : OnChain (parents.set! v (some m)) a x) :
    OnChain parents a x ∨ (OnChain parents v x ∧ OnChain parents a m) := by
  have hparent := parent?_set (h.room v hm.mem_order) m
  have hvm := number_lt_candidate h hm
  -- above the candidate nothing changed
  have habove : ∀ x, OnChain (parents.set! v (some m)) a x → t.number v < t.number x →
      OnChain parents a x := by
    intro x hx hlt
    induction hx with
    | self => exact OnChain.self
    | @up x p hp _ ih =>
      rw [hparent, if_neg] at hp
      · exact OnChain.up hp (ih (Nat.lt_of_lt_of_le hlt
          (number_le_of_onChain h (OnChain.up hp OnChain.self))))
      · rintro rfl
        exact Nat.lt_irrefl _ hlt
  induction ha with
  | self => exact Or.inl OnChain.self
  | @up x p hp hup ih =>
    rw [hparent] at hp
    by_cases hx : v = x
    · rw [if_pos hx] at hp
      obtain rfl := Option.some.inj hp
      exact Or.inr ⟨hx ▸ OnChain.self, habove m hup hvm⟩
    · rw [if_neg hx] at hp
      rcases ih with hold | ⟨hthrough, hmeet⟩
      · exact Or.inl (OnChain.up hp hold)
      · exact Or.inr ⟨OnChain.up hp hthrough, hmeet⟩

/-- The dominators of a changed place stand on the chain of its candidate. -/
theorem onChain_candidate_of_guards {d : Nat} (hd : Guards successors start d v) (hne : d ≠ v) :
    OnChain parents d m := by
  rw [hm.meets d]
  intro u _ hedge hdefined
  exact onChain_of_guards h hdefined (guards_of_edge hd hne hedge)

/-- A dominator of `w` stays on the chains of the places that `w` is below. -/
theorem onChain_set_of_guards {d x w : Nat} (ha : OnChain parents d x)
    (hbelow : t.Below successors x w) (hd : Guards successors start d w) :
    OnChain (parents.set! v (some m)) d x := by
  have hparent := parent?_set (h.room v hm.mem_order) m
  induction ha with
  | self => exact OnChain.self
  | @up x p hp hup ih =>
    by_cases hx : v = x
    · subst hx
      have hlt : t.number v < t.number d := number_lt_of_onChain_parent h hp hm.ne_start hup
      have hdv : d ≠ v := by
        rintro rfl
        exact Nat.lt_irrefl _ hlt
      apply OnChain.up (by rw [hparent, if_pos rfl])
      refine onChain_set_of_lt h hm ?_ (number_lt_candidate h hm)
      exact onChain_candidate_of_guards h hm (guards_of_below hbelow hd hlt) hdv
    · refine OnChain.up (by rw [hparent, if_neg hx, hp]) (ih ?_)
      exact below_trans (h.below x p hp) hbelow

theorem parentsInvariant_set :
    t.ParentsInvariant successors start (parents.set! v (some m)) := by
  have hparent := parent?_set (h.room v hm.mem_order) m
  have hvm := number_lt_candidate h hm
  obtain ⟨u, hu, hedge, hlt, hdefined⟩ := hm.earlier
  have hmu : OnChain parents m u := (hm.meets m).mp OnChain.self u hu hedge hdefined
  have hgrows : ∀ w, (parents.parent? w).isSome →
      (Parents.parent? (parents.set! v (some m)) w).isSome := by
    intro w hw
    rw [hparent]
    split
    · rfl
    · exact hw
  refine ⟨?_, ?_, ?_, ?_, ?_, ?_, ?_, ?_⟩
  · simpa using h.size_eq
  · intro w hw
    simpa using h.room w hw
  · rw [hparent, if_neg hm.ne_start, h.start_parent]
  · intro w p hp
    rw [hparent] at hp
    split at hp
    · rename_i hw
      exact hw ▸ hm.mem_order
    · exact h.reached w p hp
  · intro w p hp
    rw [hparent] at hp
    split at hp
    · obtain rfl := Option.some.inj hp
      exact hgrows m (isSome_of_onChain h hmu hdefined)
    · exact hgrows p (h.parent_has_parent w p hp)
  · intro w p hp hne
    rw [hparent] at hp
    split at hp
    · rename_i hw
      obtain rfl := Option.some.inj hp
      exact hw ▸ hvm
    · exact h.rises w p hp hne
  · intro w p hp
    rw [hparent] at hp
    split at hp
    · rename_i hw
      obtain rfl := Option.some.inj hp
      exact hw ▸ Below.step (below_of_onChain h hmu) hedge hvm
    · exact h.below w p hp
  · intro w p d hp hne hd
    rw [hparent] at hp
    split at hp
    · rename_i hw
      obtain rfl := Option.some.inj hp
      rw [← hw] at hd hne
      exact onChain_set_of_lt h hm (onChain_candidate_of_guards h hm hd hne) hvm
    · exact onChain_set_of_guards h hm (h.guards_onChain w p d hp hne hd) (h.below w p hp) hd

end Change

/-! ## One pass -/

/-- The passes that have given a place its parent, while a pass after `k` whole ones still has the
places of `todo` before it. -/
def visits (k : Nat) (todo : List Nat) (v : Nat) : Nat := if v ∈ todo then k else k + 1

/-- What holds before each place of a pass. Places that were visited have parents, and the chain
of a place holds only what lies on every path with fewer retreats than the visits of the place. -/
structure PassInvariant (t : Traversal) (successors : Nat → List Nat) (start k : Nat)
    (todo : List Nat) (parents : Parents) : Prop where
  tree : t.ParentsInvariant successors start parents
  visited : ∀ v ∈ t.order, 0 < visits k todo v → (parents.parent? v).isSome
  within : ∀ v a, OnChain parents a v → ∀ trail, Path successors start trail v →
    t.retreats trail < visits k todo v → a ∈ trail

/-- The chain of a candidate holds only what lies on every path with at most `k` retreats. -/
theorem candidate_within (hc : t.Covers successors start) {k v m : Nat} {todo : List Nat}
    (h : t.PassInvariant successors start k (v :: todo) parents)
    (hm : t.IsCandidate successors start parents v m)
    (hbefore : ∀ u, t.number v < t.number u → u ∉ v :: todo) {a : Nat}
    (ha : OnChain parents a m) {trail : List Nat} (hpath : Path successors start trail v)
    (hretreats : t.retreats trail < k + 1) : a ∈ trail := by
  cases hpath with
  | start => exact absurd rfl hm.ne_start
  | @step trail u _ hpath hedge =>
    have hu : u ∈ t.order := (hc.mem_order u).mpr ⟨trail, hpath⟩
    have hless : t.retreats trail < visits k (v :: todo) u := by
      rw [retreats_step hpath] at hretreats
      by_cases hlt : t.number v < t.number u
      · have hvisits : visits k (v :: todo) u = k + 1 := if_neg (hbefore u hlt)
        omega
      · rw [if_pos (Nat.not_lt.mp hlt)] at hretreats
        unfold visits
        split <;> omega
    have hdefined := h.visited u hu (Nat.lt_of_le_of_lt (Nat.zero_le _) hless)
    exact List.mem_cons_of_mem _
      (h.within u a ((hm.meets a).mp ha u hu hedge hdefined) trail hpath hless)

theorem passInvariant_set (hc : t.Covers successors start) {k v m : Nat} {todo : List Nat}
    (h : t.PassInvariant successors start k (v :: todo) parents)
    (hm : t.IsCandidate successors start parents v m)
    (hbefore : ∀ u, t.number v < t.number u → u ∉ v :: todo) :
    t.PassInvariant successors start k todo (parents.set! v (some m)) := by
  have hparent := parent?_set (h.tree.room v hm.mem_order) m
  refine ⟨parentsInvariant_set h.tree hm, ?_, ?_⟩
  · intro w hw hvisits
    rw [hparent]
    split
    · rfl
    · rename_i hne
      apply h.visited w hw
      unfold visits at hvisits ⊢
      simpa [Ne.symm hne] using hvisits
  · intro w a ha trail hpath hretreats
    have hmost : t.retreats trail < k + 1 := by
      unfold visits at hretreats
      split at hretreats <;> omega
    -- what a chain gets from the candidate lies on the part of the path up to the changed place
    have hthrough : v ∈ trail → OnChain parents a m → a ∈ trail := by
      intro hv hmeet
      obtain ⟨before, hsuffix, hto⟩ := path_to_mem hpath hv
      exact hsuffix.subset (candidate_within hc h hm hbefore hmeet hto
        (Nat.lt_of_le_of_lt (retreats_le_of_suffix hsuffix) hmost))
    by_cases hw : w = v
    · subst hw
      rw [onChain_iff (by rw [hparent, if_pos rfl])] at ha
      rcases ha with rfl | hup
      · exact end_mem hpath
      · apply hthrough (end_mem hpath)
        rcases onChain_of_set h.tree hm hup with hold | ⟨_, hmeet⟩
        · exact hold
        · exact hmeet
    · have hretreats : t.retreats trail < visits k (v :: todo) w := by
        simpa [visits, hw] using hretreats
      rcases onChain_of_set h.tree hm ha with hold | ⟨hv, hmeet⟩
      · exact h.within w a hold trail hpath hretreats
      · exact hthrough (h.within w v hv trail hpath hretreats) hmeet

/-- A pass has been to the larger numbers before. -/
theorem not_mem_of_falls {v u : Nat} {todo : List Nat}
    (hfalls : (v :: todo).Pairwise fun u v => t.number v < t.number u)
    (hlt : t.number v < t.number u) : u ∉ v :: todo := by
  intro hu
  rcases List.mem_cons.mp hu with rfl | hrest
  · exact Nat.lt_irrefl _ hlt
  · exact Nat.lt_asymm hlt ((List.pairwise_cons.mp hfalls).1 u hrest)

/-- A pass over the places of `todo` gives all of them parents. It changes nothing only where each
of them had the parent on which its predecessors agree. -/
theorem foldlM_improve_spec (hc : t.Covers successors start) {predecessors : CompressedRows}
    (hlists : t.ListsPredecessors successors predecessors) {k : Nat} {todo : List Nat}
    (hfalls : todo.Pairwise fun u v => t.number v < t.number u)
    (hsub : ∀ v ∈ todo, v ∈ t.order ∧ v ≠ start)
    (h : t.PassInvariant successors start k todo parents) (changed : Bool) :
    ∃ after changes, todo.foldlM (t.improve predecessors) (parents, changed) =
        .ok (after, changes) ∧
      t.PassInvariant successors start k [] after ∧
      (changes = false → after = parents ∧ changed = false ∧
        ∀ v ∈ todo, ∃ m, parents.parent? v = some m ∧
          t.IsCandidate successors start parents v m) ∧
      ((∀ v m, t.IsCandidate successors start parents v m → parents.parent? v = some m) →
        changes = changed) := by
  induction todo generalizing parents changed with
  | nil => exact ⟨parents, changed, rfl, h, by simp, fun _ => rfl⟩
  | cons v rest ih =>
    obtain ⟨_, hrest⟩ := List.pairwise_cons.mp hfalls
    obtain ⟨⟨hv, hne⟩, hmore⟩ := List.forall_mem_cons.mp hsub
    have hbefore : ∀ u, t.number v < t.number u → u ∉ v :: rest :=
      fun u => not_mem_of_falls hfalls
    obtain ⟨m, hm, hstep⟩ := improve_spec hc h.tree hlists hv hne (fun u hu hlt =>
      h.visited u hu (by simp [visits, hbefore u hlt])) changed
    obtain ⟨after, changes, hfold, hafter, hsame, hagreed⟩ :=
      ih hrest hmore (passInvariant_set hc h hm hbefore)
        (changed || decide (parents.parent? v ≠ some m))
    refine ⟨after, changes, ?_, hafter, ?_, ?_⟩
    · rw [List.foldlM_cons, hstep]
      exact hfold
    · intro hfalse
      obtain ⟨heq, hchanged, hall⟩ := hsame hfalse
      simp only [ne_eq, decide_not, Bool.or_eq_false_iff, Bool.not_eq_eq_eq_not, Bool.not_false,
        decide_eq_true_eq] at hchanged
      rw [set_parent_self hchanged.2] at heq hall
      refine ⟨heq, hchanged.1, ?_⟩
      exact List.forall_mem_cons.mpr ⟨⟨m, hchanged.2, hm⟩, hall⟩
    · intro hstable
      have hparent := hstable v m hm
      rw [set_parent_self hparent] at hagreed
      rw [hagreed hstable]
      simp [hparent]

/-! ## The dominators -/

/-- Every reached place has a parent, and its chain holds exactly its dominators. -/
structure Exact (t : Traversal) (successors : Nat → List Nat) (start : Nat) (parents : Parents) :
    Prop where
  tree : t.ParentsInvariant successors start parents
  isSome : ∀ v ∈ t.order, (parents.parent? v).isSome
  onChain_iff_guards : ∀ v ∈ t.order, ∀ a, OnChain parents a v ↔ Guards successors start a v

/-- Parents on which all predecessors agree are the dominators. -/
theorem exact_of_candidates (hc : t.Covers successors start)
    (h : t.ParentsInvariant successors start parents)
    (hsome : ∀ v ∈ t.order, (parents.parent? v).isSome)
    (hall : ∀ v ∈ t.order.tail, ∃ m, parents.parent? v = some m ∧
      t.IsCandidate successors start parents v m) : t.Exact successors start parents := by
  refine ⟨h, hsome, ?_⟩
  intro v hv a
  refine ⟨?_, onChain_of_guards h (hsome v hv)⟩
  intro ha trail hpath
  clear hv
  induction hpath with
  | start => exact List.mem_singleton.mpr (eq_start_of_onChain h ha)
  | @step trail u v hpath hedge ih =>
    by_cases hne : v = start
    · subst hne
      rw [eq_start_of_onChain h ha]
      exact List.mem_cons_self
    · have hu : u ∈ t.order := (hc.mem_order u).mpr ⟨trail, hpath⟩
      have hv : v ∈ t.order := (hc.mem_order v).mpr ⟨_, Path.step hpath hedge⟩
      obtain ⟨m, hparent, hm⟩ := hall v ((mem_tail_iff hc).mpr ⟨hv, hne⟩)
      rcases (onChain_iff hparent).mp ha with rfl | hup
      · exact List.mem_cons_self
      · exact List.mem_cons_of_mem _ (ih ((hm.meets a).mp hup u hu hedge (hsome u hu)))

/-- The dominators do not change any more. -/
theorem parent_of_exact (hc : t.Covers successors start) (h : t.Exact successors start parents)
    {v m : Nat} (hm : t.IsCandidate successors start parents v m) :
    parents.parent? v = some m := by
  obtain ⟨p, hp⟩ := Option.isSome_iff_exists.mp (h.isSome v hm.mem_order)
  have hvp := h.tree.rises v p hp hm.ne_start
  have hvm := number_lt_candidate h.tree hm
  have hpm : OnChain parents p m := by
    refine onChain_candidate_of_guards h.tree hm ?_ ?_
    · exact (h.onChain_iff_guards v hm.mem_order p).mp (OnChain.up hp OnChain.self)
    · rintro rfl
      exact Nat.lt_irrefl _ hvp
  have hguards : Guards successors start m v := by
    apply guards_of_edges hm.ne_start
    intro u hu hedge
    have hreached := (hc.mem_order u).mpr hu
    exact (h.onChain_iff_guards u hreached m).mp
      ((hm.meets m).mp OnChain.self u hreached hedge (h.isSome u hreached))
  have hmp : OnChain parents m p := by
    refine h.tree.guards_onChain v p m hp ?_ hguards
    rintro rfl
    exact Nat.lt_irrefl _ hvm
  have hsome := h.tree.parent_has_parent v p hp
  rw [hp, onChain_antisymm hc h.tree hsome hmp hpm]

/-- After as many passes as a simple path has retreats, and one more, the parents are exact. -/
theorem exact_of_visits {bound : Nat}
    (hbound : ∀ trail v, Path successors start trail v → trail.Nodup → t.retreats trail < bound)
    {k : Nat} (hk : bound ≤ k) (h : t.PassInvariant successors start k t.order.tail parents) :
    t.Exact successors start parents := by
  have hvisits : ∀ v, bound ≤ visits k t.order.tail v := by
    intro v
    unfold visits
    split <;> omega
  have hpos : 0 < bound :=
    Nat.lt_of_le_of_lt (Nat.zero_le _) (hbound [start] start Path.start (by simp))
  have hsome : ∀ v ∈ t.order, (parents.parent? v).isSome :=
    fun v hv => h.visited v hv (Nat.lt_of_lt_of_le hpos (hvisits v))
  refine ⟨h.tree, hsome, ?_⟩
  intro v hv a
  refine ⟨?_, onChain_of_guards h.tree (hsome v hv)⟩
  intro ha trail hpath
  obtain ⟨simple, hnodup, hsub, hsimple⟩ := exists_nodup_path hpath
  refine hsub a (h.within v a ha simple hsimple ?_)
  exact Nat.lt_of_lt_of_le (hbound simple v hsimple hnodup) (hvisits v)

/-! ## All passes -/

theorem eq_start_of_not_mem_tail (hc : t.Covers successors start) {v : Nat} (hv : v ∈ t.order)
    (hnot : v ∉ t.order.tail) : v = start := by
  by_contra hne
  exact hnot ((mem_tail_iff hc).mpr ⟨hv, hne⟩)

/-- The chain of the start holds nothing else, so a pass need not visit the start. -/
theorem mem_of_not_mem_tail (hc : t.Covers successors start)
    (h : t.ParentsInvariant successors start parents) {v a : Nat} (ha : OnChain parents a v)
    {trail : List Nat} (hpath : Path successors start trail v) (hnot : v ∉ t.order.tail) :
    a ∈ trail := by
  obtain rfl := eq_start_of_not_mem_tail hc ((hc.mem_order v).mpr ⟨trail, hpath⟩) hnot
  rw [eq_start_of_onChain h ha]
  exact start_mem hpath

theorem passInvariant_next (hc : t.Covers successors start) {k : Nat}
    (h : t.PassInvariant successors start k [] parents) :
    t.PassInvariant successors start (k + 1) t.order.tail parents := by
  refine ⟨h.tree, ?_, ?_⟩
  · intro v hv _
    exact h.visited v hv (by simp [visits])
  · intro v a ha trail hpath hretreats
    by_cases hv : v ∈ t.order.tail
    · apply h.within v a ha trail hpath
      simpa [visits, hv] using hretreats
    · exact mem_of_not_mem_tail hc h.tree ha hpath hv

/-- With room for one pass more than the retreats of a simple path need, and for one that confirms
the parents, the passes settle on the dominators, which a further pass does not change. -/
theorem settle_spec (hc : t.Covers successors start) {predecessors : CompressedRows}
    (hlists : t.ListsPredecessors successors predecessors) {bound : Nat}
    (hbound : ∀ trail v, Path successors start trail v → trail.Nodup → t.retreats trail < bound)
    {remaining k : Nat} (h : t.PassInvariant successors start k t.order.tail parents)
    (hk : k ≤ bound) (hroom : bound + 1 ≤ k + remaining) :
    ∃ after passes, t.settle predecessors false remaining k parents = .ok (after, passes) ∧
      t.Exact successors start after ∧ t.pass predecessors after = .ok (after, false) ∧
      k < passes ∧ passes ≤ bound + 1 := by
  induction remaining generalizing k parents with
  | zero => omega
  | succ remaining ih =>
    have hfalls := falls_tail hc
    obtain ⟨after, changes, hpass, hafter, hsame, hagreed⟩ :=
      foldlM_improve_spec hc hlists hfalls (fun v hv => (mem_tail_iff hc).mp hv) h false
    have hnext := passInvariant_next hc hafter
    unfold settle
    simp only [Bool.false_eq_true, if_false]
    unfold pass
    rw [hpass]
    cases changes with
    | false =>
      obtain ⟨rfl, _, hall⟩ := hsame rfl
      have hsome : ∀ v ∈ t.order, (Parents.parent? after v).isSome :=
        fun v hv => hnext.visited v hv (by unfold visits; split <;> omega)
      exact ⟨after, k + 1, rfl, exact_of_candidates hc h.tree hsome hall, hpass,
        Nat.lt_succ_self k, Nat.succ_le_succ hk⟩
    | true =>
      have hlt : k < bound := by
        by_contra hge
        have hexact := exact_of_visits hbound (Nat.not_lt.mp hge) h
        exact absurd (hagreed fun v m hm => parent_of_exact hc hexact hm) (by simp)
      obtain ⟨last, passes, hsettle, hexact, hstays, hmore, hmost⟩ := ih hnext hlt (by omega)
      exact ⟨last, passes, hsettle, hexact, hstays, by omega, hmost⟩

/-! ## Tokens and limits -/

theorem settle_cancelled (predecessors : CompressedRows) (remaining k : Nat)
    (parents : Parents) :
    t.settle predecessors true remaining k parents = .error (.cancelled k) := by
  unfold settle
  simp

/-- Passes that settle do so under every limit that has room for them. Under a smaller one they
end at the limit. -/
theorem settle_limited {predecessors : CompressedRows} {remaining k : Nat} {after : Parents}
    {passes : Nat}
    (h : t.settle predecessors false remaining k parents = .ok (after, passes)) (limit : Nat) :
    k < passes ∧ t.settle predecessors false limit k parents =
      if passes ≤ k + limit then .ok (after, passes) else .error (.unsettled (k + limit)) := by
  induction remaining generalizing k parents limit with
  | zero => simp [settle] at h
  | succ remaining ih =>
    unfold settle at h ⊢
    simp only [Bool.false_eq_true, if_false] at h ⊢
    cases hpass : t.pass predecessors parents with
    | error error => simp [hpass] at h
    | ok state =>
      obtain ⟨next, changed⟩ := state
      cases changed with
      | true =>
        simp only [hpass] at h
        have hlater := fun limit => ih h limit
        refine ⟨Nat.lt_of_succ_lt (hlater 0).1, ?_⟩
        cases limit with
        | zero =>
          have := (hlater 0).1
          rw [if_neg (by omega)]
          rfl
        | succ limit =>
          simp only [(hlater limit).2]
          rw [Nat.add_right_comm, Nat.add_assoc]
      | false =>
        simp only [hpass, Except.ok.injEq, Prod.mk.injEq] at h
        obtain ⟨rfl, rfl⟩ := h
        refine ⟨Nat.lt_succ_self k, ?_⟩
        cases limit with
        | zero =>
          rw [if_neg (by omega)]
          rfl
        | succ limit =>
          rw [if_pos (by omega)]

/-! ## Before the first pass -/

/-- The parents before the first pass: only the start has one, and that is the start itself. -/
def firstParents (slots start : Nat) : Parents :=
  (Array.replicate slots none).set! start (some start)

theorem parent?_first {slots : Nat} (hstart : start < slots) (w : Nat) :
    (firstParents slots start).parent? w = if start = w then some start else none := by
  unfold firstParents
  rw [parent?_set (by simpa using hstart)]
  by_cases hw : start = w
  · rw [if_pos hw, if_pos hw]
  · rw [if_neg hw, if_neg hw]
    unfold Parents.parent?
    rw [Array.getElem?_replicate]
    split
    · rfl
    · rfl

theorem eq_start_of_first {slots w p : Nat} (hstart : start < slots)
    (hp : (firstParents slots start).parent? w = some p) : w = start ∧ p = start := by
  rw [parent?_first hstart] at hp
  by_cases hw : start = w
  · rw [if_pos hw] at hp
    exact ⟨hw.symm, (Option.some.inj hp).symm⟩
  · rw [if_neg hw] at hp
    cases hp

theorem parentsInvariant_first (hc : t.Covers successors start) {slots : Nat}
    (hsize : slots = t.numbers.size) (hslots : ∀ v ∈ t.order, v < slots) :
    t.ParentsInvariant successors start (firstParents slots start) := by
  have hstart := hslots start (start_mem_order hc)
  have hroot : (firstParents slots start).parent? start = some start := by
    rw [parent?_first hstart, if_pos rfl]
  refine ⟨?_, ?_, hroot, ?_, ?_, ?_, ?_, ?_⟩
  · simpa [firstParents] using hsize
  · intro v hv
    simpa [firstParents] using hslots v hv
  · intro v p hp
    rw [(eq_start_of_first hstart hp).1]
    exact start_mem_order hc
  · intro v p hp
    rw [(eq_start_of_first hstart hp).2, hroot]
    rfl
  · intro v p hp hne
    exact absurd (eq_start_of_first hstart hp).1 hne
  · intro v p hp
    obtain ⟨rfl, rfl⟩ := eq_start_of_first hstart hp
    exact Below.self
  · intro v p d hp hne hd
    obtain ⟨rfl, rfl⟩ := eq_start_of_first hstart hp
    exact absurd (List.mem_singleton.mp (hd _ Path.start)) hne

theorem passInvariant_first (hc : t.Covers successors start) {slots : Nat}
    (hsize : slots = t.numbers.size) (hslots : ∀ v ∈ t.order, v < slots) :
    t.PassInvariant successors start 0 t.order.tail (firstParents slots start) := by
  have htree := parentsInvariant_first hc hsize hslots
  refine ⟨htree, ?_, ?_⟩
  · intro v hv hvisits
    by_cases hmem : v ∈ t.order.tail
    · simp [visits, hmem] at hvisits
    · rw [parent?_first (hslots start (start_mem_order hc)),
        if_pos (eq_start_of_not_mem_tail hc hv hmem).symm]
      rfl
  · intro v a ha trail hpath hretreats
    by_cases hmem : v ∈ t.order.tail
    · simp [visits, hmem] at hretreats
    · exact mem_of_not_mem_tail hc htree ha hpath hmem

end Laws

end Traversal

end HeapRetention
