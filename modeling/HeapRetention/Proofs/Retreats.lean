-- The law of retreats. An edge of the traversal leads to a later place, or a
-- path leads back from its target to its source: the search had yet to leave
-- the target when it left the source, and the frames of the search are a path.
import HeapRetention.Proofs.DepthFirst

namespace HeapRetention

namespace DepthFirst

variable {successors : Nat → List Nat} {start : Nat}

/-- What holds before each turn of the search. The older frames reach the newer ones, and every
target of a place that was left was left before it or reaches that place. -/
structure WayInvariant (successors : Nat → List Nat) (left : List Nat) (stack : List Frame) :
    Prop where
  way : stack.Pairwise fun newer older => Reaches successors older.slot newer.slot
  settled : ∀ v ∈ left, ∀ w ∈ successors v, [v, w].Sublist left ∨ Reaches successors w v

/-! ## The turns of the search -/

/-- A target of the place that is left was left before it, or the search is on its way from the
target to the place. -/
theorem wayInvariant_leave {visited : Array Bool} {left : List Nat} {slot : Nat}
    {stack : List Frame}
    (hsearch : SearchInvariant successors start visited left (⟨slot, []⟩ :: stack))
    (h : WayInvariant successors left (⟨slot, []⟩ :: stack)) :
    WayInvariant successors (slot :: left) stack := by
  obtain ⟨hnewest, hway⟩ := List.pairwise_cons.mp h.way
  refine ⟨hway, ?_⟩
  intro v hv w hw
  rcases List.mem_cons.mp hv with rfl | hold
  · have hentered : w ∈ line left (⟨v, []⟩ :: stack) := by
      simpa using hsearch.pending _ List.mem_cons_self w hw
    rcases List.mem_append.mp hentered with hopen | hleft
    · simp only [List.map_cons, List.reverse_cons, List.mem_append, List.mem_reverse,
        List.mem_map, List.mem_singleton] at hopen
      rcases hopen with ⟨frame, hframe, rfl⟩ | rfl
      · exact Or.inr (hnewest frame hframe)
      · exact Or.inr ⟨[w], Path.start⟩
    · left
      simpa using hleft
  · rcases h.settled v hold w hw with hbefore | hback
    · exact Or.inl (hbefore.trans (List.sublist_cons_self _ _))
    · exact Or.inr hback

theorem wayInvariant_skip {left : List Nat} {slot target : Nat} {pending : List Nat}
    {stack : List Frame} (h : WayInvariant successors left (⟨slot, target :: pending⟩ :: stack)) :
    WayInvariant successors left (⟨slot, pending⟩ :: stack) :=
  ⟨List.pairwise_cons.mpr (List.pairwise_cons.mp h.way), h.settled⟩

theorem wayInvariant_enter {left : List Nat} {slot target : Nat} {pending : List Nat}
    {stack : List Frame} (hedge : target ∈ successors slot)
    (h : WayInvariant successors left (⟨slot, target :: pending⟩ :: stack)) :
    WayInvariant successors left
      (⟨target, successors target⟩ :: ⟨slot, pending⟩ :: stack) := by
  refine ⟨List.pairwise_cons.mpr ⟨?_, (wayInvariant_skip h).way⟩, h.settled⟩
  intro frame hframe
  rcases List.mem_cons.mp hframe with rfl | hold
  · exact reaches_step ⟨[slot], Path.start⟩ hedge
  · exact reaches_step ((List.pairwise_cons.mp h.way).1 frame hold) hedge

/-- The invariant holds to the end of the search, when all places were left. -/
theorem wayInvariant_search {visited : Array Bool} {left : List Nat} {stack : List Frame}
    (hrange : ∀ u, ∀ v ∈ successors u, v < visited.size)
    (hsearch : SearchInvariant successors start visited left stack)
    (h : WayInvariant successors left stack) :
    WayInvariant successors (search successors visited left stack) [] := by
  fun_induction search successors visited left stack with
  | case1 visited left => exact h
  | case2 visited left slot stack ih =>
    exact ih hrange (invariant_leave hsearch) (wayInvariant_leave hsearch h)
  | case3 visited left slot target pending stack hnew ih =>
    have hedge := hsearch.pending_sub _ List.mem_cons_self _ List.mem_cons_self
    refine ih ?_ (invariant_enter hsearch hnew) (wayInvariant_enter hedge h)
    simpa using hrange
  | case4 visited left slot target pending stack hold ih =>
    have hedge := hsearch.pending_sub _ List.mem_cons_self _ List.mem_cons_self
    have hseen : visited[target]? = some true := by
      simpa [hrange slot target hedge] using hold
    exact ih hrange (invariant_skip hsearch hseen) (wayInvariant_skip h)

end DepthFirst

namespace Traversal

variable {successors : Nat → List Nat} {slots start : Nat}

/-- Where an edge leads to a place no later in the traversal, a path leads back. -/
theorem reaches_of_retreat (hstart : start < slots) (hrange : ∀ u, ∀ v ∈ successors u, v < slots)
    {u v : Nat} (hu : u ∈ (run successors slots start).order) (hedge : v ∈ successors u)
    (hle : (run successors slots start).number u ≤ (run successors slots start).number v) :
    Reaches successors v u := by
  have hc := covers_run hstart hrange
  have hfirst : DepthFirst.WayInvariant successors [] [⟨start, successors start⟩] :=
    ⟨List.pairwise_singleton _ _, by simp⟩
  have h : DepthFirst.WayInvariant successors (run successors slots start).order [] :=
    DepthFirst.wayInvariant_search (by simpa using hrange) (DepthFirst.invariant_start hstart)
      hfirst
  rcases h.settled u hu v hedge with hbefore | hback
  · have hlt : (run successors slots start).number v < (run successors slots start).number u :=
      List.rel_of_pairwise_cons (hc.falls.sublist hbefore) List.mem_cons_self
    omega
  · exact hback

end Traversal

end HeapRetention
