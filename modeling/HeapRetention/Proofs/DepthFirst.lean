-- The laws of the depth-first order: it lists what a path from the start
-- reaches, each place once and the start in front, every other place comes
-- after a place that refers to it, and the numbers fall along the order.
import Mathlib.Data.List.Pairwise
import Mathlib.Tactic.ByContra
import HeapRetention.Proofs.Path

namespace HeapRetention

namespace DepthFirst

section Search

variable {successors : Nat → List Nat} {start : Nat}

/-! ## The invariant of the search -/

/-- The places that were entered: those on the way to the newest one, then those that were
left, the latest first. When a frame is left, its place stays where it is in this line. -/
def line (left : List Nat) (stack : List Frame) : List Nat :=
  (stack.map Frame.slot).reverse ++ left

/-- What holds before each turn of the search. -/
structure SearchInvariant (successors : Nat → List Nat) (start : Nat) (visited : Array Bool)
    (left : List Nat) (stack : List Frame) : Prop where
  entered : ∀ v : Nat, visited[v]? = some true ↔ v ∈ line left stack
  nodup : (line left stack).Nodup
  head : (line left stack).head? = some start
  reached : ∀ v ∈ line left stack, Reaches successors start v
  /-- Every place but the start stands after a place that refers to it. -/
  earlier : ∀ v ∈ line left stack, v ≠ start →
    ∃ u, v ∈ successors u ∧ [u, v].Sublist (line left stack)
  /-- All targets of a place that was left were entered. -/
  looked_at : ∀ v ∈ left, ∀ w ∈ successors v, w ∈ line left stack
  pending : ∀ frame ∈ stack, ∀ w ∈ successors frame.slot,
    w ∈ frame.pending ∨ w ∈ line left stack
  pending_sub : ∀ frame ∈ stack, ∀ w ∈ frame.pending, w ∈ successors frame.slot

theorem line_leave (left : List Nat) (frame : Frame) (stack : List Frame) :
    line (frame.slot :: left) stack = line left (frame :: stack) := by
  simp [line]

/-- A place that is entered stands right after the newest one, and the rest keeps its order. -/
theorem line_enter (left : List Nat) (target : Nat) (pending : List Nat) (stack : List Frame) :
    line left (⟨target, pending⟩ :: stack) =
      (stack.map Frame.slot).reverse ++ target :: left := by
  simp [line]

theorem line_sublist_enter (left : List Nat) (target : Nat) (pending : List Nat)
    (stack : List Frame) : (line left stack).Sublist (line left (⟨target, pending⟩ :: stack)) := by
  rw [line_enter]
  exact (List.Sublist.refl _).append (List.sublist_cons_self _ _)

theorem mem_line_enter {left : List Nat} {target : Nat} {pending : List Nat}
    {stack : List Frame} {v : Nat} :
    v ∈ line left (⟨target, pending⟩ :: stack) ↔ v = target ∨ v ∈ line left stack := by
  simp only [line, List.map_cons, List.reverse_cons, List.mem_append, List.mem_reverse,
    List.mem_singleton]
  grind

/-! ## The turns of the search -/

theorem invariant_leave {visited : Array Bool} {left : List Nat} {slot : Nat}
    {stack : List Frame}
    (h : SearchInvariant successors start visited left (⟨slot, []⟩ :: stack)) :
    SearchInvariant successors start visited (slot :: left) stack := by
  obtain ⟨hentered, hnodup, hhead, hreached, hearlier, hlooked, hpending, hsub⟩ := h
  have hline : line left (⟨slot, []⟩ :: stack) = line (slot :: left) stack :=
    (line_leave left ⟨slot, []⟩ stack).symm
  simp only [hline] at hentered hnodup hhead hreached hearlier hlooked hpending
  refine ⟨hentered, hnodup, hhead, hreached, hearlier, ?_, ?_, ?_⟩
  · intro v hv w hw
    rcases List.mem_cons.mp hv with rfl | hleft
    · rcases hpending _ List.mem_cons_self w hw with hnone | hmem
      · exact absurd hnone List.not_mem_nil
      · exact hmem
    · exact hlooked v hleft w hw
  · intro frame hframe
    exact hpending frame (List.mem_cons_of_mem _ hframe)
  · intro frame hframe
    exact hsub frame (List.mem_cons_of_mem _ hframe)

/-- Besides the target that comes next, each frame still has all targets that were not entered. -/
theorem pending_next {visited : Array Bool} {left : List Nat} {slot target : Nat}
    {pending : List Nat} {stack : List Frame}
    (h : SearchInvariant successors start visited left (⟨slot, target :: pending⟩ :: stack))
    (frame : Frame) (hframe : frame ∈ (⟨slot, pending⟩ :: stack : List Frame)) :
    (∀ w ∈ successors frame.slot, w ∈ frame.pending ∨ w = target ∨
      w ∈ line left (⟨slot, pending⟩ :: stack)) ∧
    ∀ w ∈ frame.pending, w ∈ successors frame.slot := by
  rcases List.mem_cons.mp hframe with rfl | hrest
  · refine ⟨?_, ?_⟩
    · intro w hw
      rcases h.pending _ List.mem_cons_self w hw with hnext | hold
      · rcases List.mem_cons.mp hnext with rfl | hmore
        · exact Or.inr (Or.inl rfl)
        · exact Or.inl hmore
      · exact Or.inr (Or.inr hold)
    · intro w hw
      exact h.pending_sub _ List.mem_cons_self w (List.mem_cons_of_mem _ hw)
  · refine ⟨?_, h.pending_sub frame (List.mem_cons_of_mem _ hrest)⟩
    intro w hw
    rcases h.pending frame (List.mem_cons_of_mem _ hrest) w hw with hmore | hold
    · exact Or.inl hmore
    · exact Or.inr (Or.inr hold)

/-- A target that was entered before is passed over. -/
theorem invariant_skip {visited : Array Bool} {left : List Nat} {slot target : Nat}
    {pending : List Nat} {stack : List Frame}
    (h : SearchInvariant successors start visited left (⟨slot, target :: pending⟩ :: stack))
    (hseen : visited[target]? = some true) :
    SearchInvariant successors start visited left (⟨slot, pending⟩ :: stack) := by
  have hnext := pending_next h
  refine ⟨h.entered, h.nodup, h.head, h.reached, h.earlier, h.looked_at, ?_, ?_⟩
  · intro frame hframe w hw
    rcases (hnext frame hframe).1 w hw with hmore | rfl | hold
    · exact Or.inl hmore
    · exact Or.inr ((h.entered w).mp hseen)
    · exact Or.inr hold
  · intro frame hframe
    exact (hnext frame hframe).2

/-- A target that was not entered before gets a frame of its own. -/
theorem invariant_enter {visited : Array Bool} {left : List Nat} {slot target : Nat}
    {pending : List Nat} {stack : List Frame}
    (h : SearchInvariant successors start visited left (⟨slot, target :: pending⟩ :: stack))
    (hnew : visited[target]? = some false) :
    SearchInvariant successors start (visited.set! target true) left
      (⟨target, successors target⟩ :: ⟨slot, pending⟩ :: stack) := by
  have hbelow : line left (⟨slot, pending⟩ :: stack) =
      line left (⟨slot, target :: pending⟩ :: stack) := rfl
  have hedge : target ∈ successors slot := h.pending_sub _ List.mem_cons_self _ List.mem_cons_self
  have hgrow := line_sublist_enter left target (successors target) (⟨slot, pending⟩ :: stack)
  have hmem : ∀ v, v ∈ line left (⟨target, successors target⟩ :: ⟨slot, pending⟩ :: stack) ↔
      v = target ∨ v ∈ line left (⟨slot, pending⟩ :: stack) := fun v => mem_line_enter
  have hnot : target ∉ line left (⟨slot, pending⟩ :: stack) := by
    rw [hbelow, ← h.entered, hnew]
    simp
  have hslot : slot ∈ ((⟨slot, pending⟩ :: stack).map Frame.slot).reverse := by simp
  refine ⟨?_, ?_, ?_, ?_, ?_, ?_, ?_, ?_⟩
  · intro v
    rw [hmem, hbelow, ← h.entered, Array.set!_eq_setIfInBounds, Array.getElem?_setIfInBounds]
    have hlt : target < visited.size := (Array.getElem?_eq_some_iff.mp hnew).1
    by_cases hv : target = v
    · simp [hv, hv ▸ hlt]
    · simp [hv, Ne.symm hv]
  · rw [line_enter]
    have hnodup : (line left (⟨slot, pending⟩ :: stack)).Nodup := h.nodup
    exact (List.perm_middle.nodup_iff).mpr (List.nodup_cons.mpr ⟨hnot, hnodup⟩)
  · have hhead := h.head
    rw [← hbelow] at hhead
    rw [line_enter]
    simp only [line] at hhead
    rw [List.head?_append] at hhead ⊢
    simpa using hhead
  · intro v hv
    rcases (hmem v).mp hv with rfl | hold
    · exact reaches_step (h.reached slot (List.mem_append_left _ hslot)) hedge
    · exact h.reached v hold
  · intro v hv hstart
    rcases (hmem v).mp hv with rfl | hold
    · refine ⟨slot, hedge, ?_⟩
      rw [line_enter]
      exact (List.singleton_sublist.mpr hslot).append
        (List.singleton_sublist.mpr List.mem_cons_self)
    · obtain ⟨u, hu, hbefore⟩ := h.earlier v hold hstart
      exact ⟨u, hu, hbefore.trans hgrow⟩
  · intro v hv w hw
    exact (hmem w).mpr (Or.inr (h.looked_at v hv w hw))
  · intro frame hframe w hw
    rcases List.mem_cons.mp hframe with rfl | hbefore
    · exact Or.inl hw
    · rcases (pending_next h frame hbefore).1 w hw with hmore | hentered
      · exact Or.inl hmore
      · exact Or.inr ((hmem w).mpr hentered)
  · intro frame hframe w hw
    rcases List.mem_cons.mp hframe with rfl | hbefore
    · exact hw
    · exact (pending_next h frame hbefore).2 w hw

/-- The invariant holds to the end of the search, when all frames are left. -/
theorem invariant_search {visited : Array Bool} {left : List Nat} {stack : List Frame}
    (hrange : ∀ u, ∀ v ∈ successors u, v < visited.size)
    (h : SearchInvariant successors start visited left stack) :
    ∃ all, SearchInvariant successors start all (search successors visited left stack) [] := by
  fun_induction search successors visited left stack with
  | case1 visited left =>
    exact ⟨visited, h⟩
  | case2 visited left slot stack ih => exact ih hrange (invariant_leave h)
  | case3 visited left slot target pending stack hnew ih =>
    refine ih ?_ (invariant_enter h hnew)
    simpa using hrange
  | case4 visited left slot target pending stack hold ih =>
    refine ih hrange (invariant_skip h ?_)
    have hlt : target < visited.size :=
      hrange slot target (h.pending_sub _ List.mem_cons_self _ List.mem_cons_self)
    rw [Array.getElem?_eq_getElem hlt] at hold ⊢
    cases hb : visited[target] <;> simp_all

theorem invariant_start {slots : Nat} (hstart : start < slots) :
    SearchInvariant successors start ((Array.replicate slots false).set! start true) []
      [⟨start, successors start⟩] := by
  have hline : ∀ v, v ∈ line [] [⟨start, successors start⟩] ↔ v = start := by
    intro v
    simp [line]
  refine ⟨?_, ?_, ?_, ?_, ?_, ?_, ?_, ?_⟩
  · intro v
    rw [hline, Array.set!_eq_setIfInBounds, Array.getElem?_setIfInBounds, Array.size_replicate]
    by_cases hv : start = v
    · simp [hv, hv ▸ hstart]
    · simp [hv, Ne.symm hv, Array.getElem?_replicate]
  · simp [line]
  · rfl
  · intro v hv
    rw [(hline v).mp hv]
    exact ⟨[start], Path.start⟩
  · intro v hv hne
    exact absurd ((hline v).mp hv) hne
  · intro v hv
    exact absurd hv List.not_mem_nil
  · intro frame hframe w hw
    rw [List.mem_singleton.mp hframe] at hw ⊢
    exact Or.inl hw
  · intro frame hframe w hw
    rw [List.mem_singleton.mp hframe] at hw ⊢
    exact hw

/-! ## The numbers -/

theorem size_numbering (slots : Nat) (order : List Nat) : (numbering slots order).size = slots := by
  unfold numbering
  induction order with
  | nil => simp
  | cons first rest ih => simpa [assign] using ih

theorem numbering_cons {slots v : Nat} {rest : List Nat} (hv : v < slots) (w : Nat) :
    (numbering slots (v :: rest))[w]? =
      if v = w then some (some rest.length) else (numbering slots rest)[w]? := by
  have hstep : numbering slots (v :: rest) =
      (numbering slots rest).set! v (some rest.length) := by
    simp [numbering, assign, foldr_assign_snd]
  rw [hstep, Array.set!_eq_setIfInBounds, Array.getElem?_setIfInBounds, size_numbering]
  simp [hv]

/-- The number of a place counts the places after it. -/
theorem numbering_mem {slots : Nat} {order : List Nat} (hslots : ∀ v ∈ order, v < slots) {v : Nat}
    (hv : v ∈ order) :
    ∃ number < order.length, (numbering slots order)[v]? = some (some number) := by
  induction order with
  | nil => exact absurd hv List.not_mem_nil
  | cons first rest ih =>
    rw [numbering_cons (hslots first List.mem_cons_self), List.length_cons]
    by_cases hfirst : first = v
    · exact ⟨rest.length, Nat.lt_succ_self _, by rw [if_pos hfirst]⟩
    · rw [if_neg hfirst]
      have hrest : v ∈ rest := (List.mem_cons.mp hv).resolve_left (Ne.symm hfirst)
      obtain ⟨number, hlt, hnumber⟩ :=
        ih (fun w hw => hslots w (List.mem_cons_of_mem _ hw)) hrest
      exact ⟨number, Nat.lt_succ_of_lt hlt, hnumber⟩

/-- The numbers fall along the order. -/
theorem numbering_falls {slots : Nat} {order : List Nat} (hslots : ∀ v ∈ order, v < slots)
    (hnodup : order.Nodup) : order.Pairwise fun u v =>
      (((numbering slots order)[v]?).join).getD 0 <
        (((numbering slots order)[u]?).join).getD 0 := by
  induction order with
  | nil => exact List.Pairwise.nil
  | cons first rest ih =>
    obtain ⟨hfirst, hrest⟩ := List.nodup_cons.mp hnodup
    have hmore : ∀ v ∈ rest, v < slots := fun v hv => hslots v (List.mem_cons_of_mem _ hv)
    have hsame : ∀ v ∈ rest,
        (numbering slots (first :: rest))[v]? = (numbering slots rest)[v]? := by
      intro v hv
      rw [numbering_cons (hslots first List.mem_cons_self), if_neg]
      rintro rfl
      exact hfirst hv
    refine List.Pairwise.cons ?_ ?_
    · intro v hv
      obtain ⟨number, hlt, hnumber⟩ := numbering_mem hmore hv
      rw [hsame v hv, hnumber, numbering_cons (hslots first List.mem_cons_self), if_pos rfl]
      simpa using hlt
    · apply (ih hmore hrest).imp_of_mem
      intro u v hu hv h
      rwa [hsame u hu, hsame v hv]

end Search

end DepthFirst

/-! ## The laws of a traversal -/

namespace Traversal

/-- The traversal lists what a path from the start reaches. -/
structure Covers (t : Traversal) (successors : Nat → List Nat) (start : Nat) : Prop where
  mem_order : ∀ v, v ∈ t.order ↔ Reaches successors start v
  order_eq : t.order = start :: t.order.tail
  falls : t.order.Pairwise fun u v => t.number v < t.number u
  /-- Every place but the start comes after a place that refers to it. -/
  earlier : ∀ v ∈ t.order, v ≠ start → ∃ u ∈ t.order, v ∈ successors u ∧ t.number v < t.number u

section Laws

variable {t : Traversal} {successors : Nat → List Nat} {start : Nat}

theorem covers_run {slots : Nat} (hstart : start < slots)
    (hrange : ∀ u, ∀ v ∈ successors u, v < slots) :
    (run successors slots start).Covers successors start := by
  have hfirst : DepthFirst.SearchInvariant successors start
      ((Array.replicate slots false).set! start true) [] [⟨start, successors start⟩] :=
    DepthFirst.invariant_start hstart
  obtain ⟨all, h⟩ := DepthFirst.invariant_search (by simpa using hrange) hfirst
  have hline : ∀ order, DepthFirst.line order [] = order := fun order => rfl
  obtain ⟨_, hnodup, hhead, hreached, hearlier, hlooked, _, _⟩ :
    DepthFirst.SearchInvariant successors start all (run successors slots start).order [] := h
  simp only [hline] at hnodup hhead hreached hearlier hlooked
  have hcons : (run successors slots start).order =
      start :: (run successors slots start).order.tail := by
    obtain ⟨rest, hrest⟩ := List.head?_eq_some_iff.mp hhead
    rw [hrest, List.tail_cons]
  have hmem : ∀ v, v ∈ (run successors slots start).order ↔ Reaches successors start v := by
    intro v
    refine ⟨hreached v, ?_⟩
    rintro ⟨trail, hpath⟩
    induction hpath with
    | start => exact List.mem_of_mem_head? hhead
    | step _ hedge ih => exact hlooked _ ih _ hedge
  have hslots : ∀ v ∈ (run successors slots start).order, v < slots := by
    intro v hv
    exact reaches_lt hstart hrange (hreached v hv)
  have hfalls : (run successors slots start).order.Pairwise fun u v =>
      (run successors slots start).number v < (run successors slots start).number u :=
    DepthFirst.numbering_falls hslots hnodup
  refine ⟨hmem, hcons, hfalls, ?_⟩
  intro v hv hne
  obtain ⟨u, hedge, hbefore⟩ := hearlier v hv hne
  refine ⟨u, hbefore.subset List.mem_cons_self, hedge, ?_⟩
  exact List.rel_of_pairwise_cons (hfalls.sublist hbefore) List.mem_cons_self

theorem start_mem_order (h : t.Covers successors start) : start ∈ t.order := by
  rw [h.order_eq]
  exact List.mem_cons_self

theorem nodup_order (h : t.Covers successors start) : t.order.Nodup := by
  apply h.falls.imp
  rintro u v hlt rfl
  exact Nat.lt_irrefl _ hlt

theorem falls_tail (h : t.Covers successors start) :
    t.order.tail.Pairwise fun u v => t.number v < t.number u :=
  h.falls.sublist (List.tail_sublist _)

theorem mem_tail_iff (h : t.Covers successors start) {v : Nat} :
    v ∈ t.order.tail ↔ v ∈ t.order ∧ v ≠ start := by
  have hnodup := nodup_order h
  rw [h.order_eq] at hnodup
  rw [show (v ∈ t.order ↔ v ∈ start :: t.order.tail) by rw [← h.order_eq], List.mem_cons]
  refine ⟨?_, ?_⟩
  · intro hv
    refine ⟨Or.inr hv, ?_⟩
    rintro rfl
    exact (List.nodup_cons.mp hnodup).1 hv
  · rintro ⟨hv, hne⟩
    exact hv.resolve_left hne

theorem number_lt_start (h : t.Covers successors start) {v : Nat} (hv : v ∈ t.order)
    (hne : v ≠ start) : t.number v < t.number start := by
  have hfalls := h.falls
  rw [h.order_eq] at hfalls
  exact List.rel_of_pairwise_cons hfalls ((mem_tail_iff h).mpr ⟨hv, hne⟩)

/-- A place is known by its number. -/
theorem eq_of_number_eq (h : t.Covers successors start) {u v : Nat} (hu : u ∈ t.order)
    (hv : v ∈ t.order) (heq : t.number u = t.number v) : u = v := by
  by_contra hne
  have hdiffer : t.order.Pairwise fun u v => t.number u ≠ t.number v :=
    h.falls.imp fun hlt => Nat.ne_of_gt hlt
  have : Std.Symm fun u v => t.number u ≠ t.number v := ⟨fun _ _ hab => hab.symm⟩
  exact hdiffer.forall hu hv hne heq

end Laws

end Traversal

end HeapRetention
