-- Paths of a directed graph from one start, and the places that lie on every
-- path to another place. The paths of a heap graph start at its roots. Below
-- the sentinel they are the paths from one start, so what is shown for one
-- start holds for the roots.
import HeapRetention.Dominator.Search

namespace HeapRetention

/-! ## Paths from one start -/

/-- A path from the start to a place: the places that it passes, the latest first. -/
inductive Path (successors : Nat → List Nat) (start : Nat) : List Nat → Nat → Prop
  | start : Path successors start [start] start
  | step {trail : List Nat} {u v : Nat} :
      Path successors start trail u → v ∈ successors u → Path successors start (v :: trail) v

/-- Some path leads to `v`. -/
def Reaches (successors : Nat → List Nat) (start v : Nat) : Prop :=
  ∃ trail, Path successors start trail v

/-- The place `d` lies on every path to `v`. -/
def Guards (successors : Nat → List Nat) (start d v : Nat) : Prop :=
  ∀ trail, Path successors start trail v → d ∈ trail

section OneStart

variable {successors : Nat → List Nat} {start : Nat}

theorem path_head {trail : List Nat} {v : Nat} (h : Path successors start trail v) :
    ∃ rest, trail = v :: rest := by
  cases h with
  | start => exact ⟨[], rfl⟩
  | step _ _ => exact ⟨_, rfl⟩

theorem end_mem {trail : List Nat} {v : Nat} (h : Path successors start trail v) : v ∈ trail := by
  obtain ⟨rest, rfl⟩ := path_head h
  exact List.mem_cons_self

theorem start_mem {trail : List Nat} {v : Nat} (h : Path successors start trail v) :
    start ∈ trail := by
  induction h with
  | start => exact List.mem_cons_self
  | step _ _ ih => exact List.mem_cons_of_mem _ ih

/-- Each place of a path ends a part of it. -/
theorem path_to_mem {trail : List Nat} {v x : Nat} (h : Path successors start trail v)
    (hx : x ∈ trail) : ∃ before, before <:+ trail ∧ Path successors start before x := by
  induction h with
  | start =>
    obtain rfl := List.mem_singleton.mp hx
    exact ⟨[x], List.suffix_refl _, Path.start⟩
  | @step trail u v hpath hedge ih =>
    rcases List.mem_cons.mp hx with rfl | hrest
    · exact ⟨x :: trail, List.suffix_refl _, Path.step hpath hedge⟩
    · obtain ⟨before, hbefore, hto⟩ := ih hrest
      exact ⟨before, hbefore.trans (List.suffix_cons _ _), hto⟩

/-- A place of a path that is not its end comes before its end. -/
theorem path_to_tail_mem {trail : List Nat} {v x : Nat} (h : Path successors start trail v)
    (hx : x ∈ trail) (hne : x ≠ v) :
    ∃ before, before <:+ trail.tail ∧ Path successors start before x := by
  cases h with
  | start => simp_all
  | step hpath hedge =>
    apply path_to_mem hpath
    simpa [hne] using hx

/-- Each path passes all places of a path that visits no place twice. -/
theorem exists_nodup_path {trail : List Nat} {v : Nat} (h : Path successors start trail v) :
    ∃ simple, simple.Nodup ∧ (∀ x ∈ simple, x ∈ trail) ∧ Path successors start simple v := by
  induction h with
  | start => exact ⟨[start], by simp, fun x hx => hx, Path.start⟩
  | @step trail u v hpath hedge ih =>
    obtain ⟨simple, hnodup, hsub, hsimple⟩ := ih
    by_cases hv : v ∈ simple
    · obtain ⟨before, hbefore, hto⟩ := path_to_mem hsimple hv
      refine ⟨before, hnodup.sublist hbefore.sublist, ?_, hto⟩
      intro x hx
      exact List.mem_cons_of_mem _ (hsub x (hbefore.subset hx))
    · refine ⟨v :: simple, List.nodup_cons.mpr ⟨hv, hnodup⟩, ?_, Path.step hsimple hedge⟩
      intro x hx
      rcases List.mem_cons.mp hx with rfl | hrest
      · exact List.mem_cons_self
      · exact List.mem_cons_of_mem _ (hsub x hrest)

theorem reaches_of_mem {trail : List Nat} {v x : Nat} (h : Path successors start trail v)
    (hx : x ∈ trail) : Reaches successors start x := by
  obtain ⟨before, _, hto⟩ := path_to_mem h hx
  exact ⟨before, hto⟩

theorem reaches_step {u v : Nat} (h : Reaches successors start u) (hedge : v ∈ successors u) :
    Reaches successors start v := by
  obtain ⟨trail, hpath⟩ := h
  exact ⟨v :: trail, Path.step hpath hedge⟩

theorem reaches_lt {slots v : Nat} (hstart : start < slots)
    (hrange : ∀ u, ∀ v ∈ successors u, v < slots) (h : Reaches successors start v) :
    v < slots := by
  obtain ⟨trail, hpath⟩ := h
  cases hpath with
  | start => exact hstart
  | step _ hedge => exact hrange _ _ hedge

/-- What lies on every path to a place lies on every path to the places before it. -/
theorem guards_of_edge {d u v : Nat} (h : Guards successors start d v) (hd : d ≠ v)
    (hedge : v ∈ successors u) : Guards successors start d u := by
  intro trail hpath
  rcases List.mem_cons.mp (h _ (Path.step hpath hedge)) with rfl | hrest
  · exact absurd rfl hd
  · exact hrest

/-- What lies on every path to all places before `v` lies on every path to `v`. -/
theorem guards_of_edges {d v : Nat} (hv : v ≠ start)
    (h : ∀ u, Reaches successors start u → v ∈ successors u → Guards successors start d u) :
    Guards successors start d v := by
  intro trail hpath
  cases hpath with
  | start => exact absurd rfl hv
  | @step trail u _ hpath hedge =>
    exact List.mem_cons_of_mem _ (h u ⟨trail, hpath⟩ hedge trail hpath)

/-- A place that is not on a path is on every path to none of the places of that path. -/
theorem not_guards_of_mem {trail : List Nat} {v x z : Nat} (h : Path successors start trail v)
    (hx : x ∉ trail) (hz : z ∈ trail) : ¬ Guards successors start x z := by
  intro hguards
  obtain ⟨before, hbefore, hto⟩ := path_to_mem h hz
  exact hx (hbefore.subset (hguards before hto))

theorem guards_trans {d u v : Nat} (hd : Guards successors start d u)
    (hu : Guards successors start u v) : Guards successors start d v := by
  intro trail hpath
  obtain ⟨before, hbefore, hto⟩ := path_to_mem hpath (hu trail hpath)
  exact hbefore.subset (hd before hto)

/-- Two places do not lie on every path to each other. -/
theorem guards_antisymm {a v : Nat} (hv : Reaches successors start v)
    (hav : Guards successors start a v) (hva : Guards successors start v a) : a = v := by
  obtain ⟨trail, hpath⟩ := hv
  obtain ⟨simple, hnodup, _, hsimple⟩ := exists_nodup_path hpath
  obtain ⟨rest, rfl⟩ := path_head hsimple
  obtain ⟨before, hsuffix, hto⟩ := path_to_mem hsimple (hav _ hsimple)
  rcases List.suffix_cons_iff.mp hsuffix with rfl | hrest
  · obtain ⟨_, heq⟩ := path_head hto
    exact (List.cons.inj heq).1.symm
  · have hmem := hrest.subset (hva _ hto)
    exact absurd hmem (List.nodup_cons.mp hnodup).1

end OneStart

/-! ## Paths from the roots -/

namespace HeapGraph

/-- A path of references from a root to a node: the nodes that it passes, the latest first. -/
inductive RootPath (g : HeapGraph) : List Nat → Nat → Prop
  | root {root : Root} : root ∈ g.roots → RootPath g [root.node] root.node
  | step {trail : List Nat} {u v : Nat} :
      RootPath g trail u → v ∈ g.references u → RootPath g (v :: trail) v

/-- Some path leads from a root to the node. -/
def Reachable (g : HeapGraph) (v : Nat) : Prop := ∃ trail, g.RootPath trail v

/-- The node `d` lies on every path from a root to `v`. -/
def OnEveryPath (g : HeapGraph) (d v : Nat) : Prop := ∀ trail, g.RootPath trail v → d ∈ trail

theorem rootPath_lt {g : HeapGraph} {trail : List Nat} {v : Nat} (h : g.RootPath trail v) :
    ∀ x ∈ trail, x < g.size := by
  induction h with
  | root hroot =>
    intro x hx
    obtain rfl := List.mem_singleton.mp hx
    exact g.root_lt _ hroot
  | step _ hedge ih =>
    intro x hx
    rcases List.mem_cons.mp hx with rfl | hrest
    · exact g.references_lt hedge
    · exact ih x hrest

theorem rootPath_end_mem {g : HeapGraph} {trail : List Nat} {v : Nat} (h : g.RootPath trail v) :
    v ∈ trail := by
  cases h with
  | root _ => exact List.mem_cons_self
  | step _ _ => exact List.mem_cons_self

theorem reachable_lt {g : HeapGraph} {v : Nat} (h : g.Reachable v) : v < g.size := by
  obtain ⟨trail, hpath⟩ := h
  exact rootPath_lt hpath v (rootPath_end_mem hpath)

/-! ## The sentinel before the roots -/

/-- Where the places that were seen are those that were kept, a run keeps each further place at its
first appearance. -/
theorem foldl_keepFirst {places : List Nat} {seen : Array Bool} {kept : Array Nat}
    (hin : ∀ i ∈ places, i < seen.size)
    (hseen : ∀ i < seen.size, seen[i]? = some false ↔ i ∉ kept) :
    (places.foldl keepFirst (seen, kept)).2.toList =
      kept.toList ++ (places.filter fun i => decide (i ∉ kept)).eraseDups := by
  induction places generalizing seen kept with
  | nil => simp
  | cons p rest ih =>
    have hp := hin p List.mem_cons_self
    have hrest : ∀ i ∈ rest, i < seen.size := fun i hi => hin i (List.mem_cons_of_mem _ hi)
    rw [List.foldl_cons]
    by_cases hkept : p ∈ kept
    · have hstep : keepFirst (seen, kept) p = (seen, kept) := by
        simp [keepFirst, mt (hseen p hp).mp (not_not_intro hkept)]
      rw [hstep, ih hrest hseen, List.filter_cons_of_neg (by simpa using hkept)]
    · have hstep : keepFirst (seen, kept) p = (seen.set! p true, kept.push p) := by
        simp [keepFirst, (hseen p hp).mpr hkept]
      have hseen' : ∀ i < (seen.set! p true).size,
          (seen.set! p true)[i]? = some false ↔ i ∉ kept.push p := by
        intro i hi
        rw [Array.set!_eq_setIfInBounds, Array.size_setIfInBounds] at hi
        rw [Array.set!_eq_setIfInBounds, Array.getElem?_setIfInBounds, Array.mem_push, not_or]
        by_cases hpi : p = i
        · subst hpi
          simp [hp]
        · simp [hpi, Ne.symm hpi, hseen i hi]
      have hagain : (rest.filter fun i => decide (i ∉ kept)).filter (fun i => !i == p) =
          rest.filter fun i => decide (i ∉ kept.push p) := by
        rw [List.filter_filter]
        apply List.filter_congr
        intro i _
        by_cases hi : i = p
        · simp [hi]
        · simp [hi]
      rw [hstep, ih (by simpa using hrest) hseen', List.filter_cons_of_pos (by simpa using hkept),
        List.eraseDups_cons, hagain, Array.toList_push, List.append_assoc]
      rfl

theorem rootIndices_eq (g : HeapGraph) :
    g.rootIndices = (g.roots.map Root.node).eraseDups := by
  have hin : ∀ i ∈ g.roots.map Root.node, i < (Array.replicate g.size false).size := by
    intro i hi
    obtain ⟨root, hroot, rfl⟩ := List.mem_map.mp hi
    rw [Array.size_replicate]
    exact g.root_lt root hroot
  have hseen : ∀ i < (Array.replicate g.size false).size,
      (Array.replicate g.size false)[i]? = some false ↔ i ∉ #[] := by
    intro i hi
    rw [Array.size_replicate] at hi
    simp [hi]
  unfold rootIndices
  rw [foldl_keepFirst hin hseen, List.filter_eq_self.mpr (by simp)]
  rfl

theorem mem_rootIndices {g : HeapGraph} {i : Nat} :
    i ∈ g.rootIndices ↔ ∃ root ∈ g.roots, root.node = i := by
  rw [rootIndices_eq, List.mem_eraseDups, List.mem_map]

theorem successors_sentinel (g : HeapGraph) : g.successors g.size = g.rootIndices := by
  simp [successors]

theorem successors_node {g : HeapGraph} {u : Nat} (h : u ≠ g.size) :
    g.successors u = g.references u := by
  simp [successors, h]

theorem successors_lt {g : HeapGraph} {u v : Nat} (h : v ∈ g.successors u) : v < g.size := by
  by_cases hu : u = g.size
  · rw [hu, successors_sentinel] at h
    exact g.rootIndices_lt h
  · rw [successors_node hu] at h
    exact g.references_lt h

theorem successors_lt_slots (g : HeapGraph) : ∀ u, ∀ v ∈ g.successors u, v < g.size + 1 :=
  fun _ _ hedge => Nat.lt_succ_of_lt (successors_lt hedge)

theorem path_of_rootPath {g : HeapGraph} {trail : List Nat} {v : Nat} (h : g.RootPath trail v) :
    Path g.successors g.size (trail ++ [g.size]) v := by
  induction h with
  | @root root hroot =>
    apply Path.step Path.start
    rw [successors_sentinel]
    exact mem_rootIndices.mpr ⟨root, hroot, rfl⟩
  | @step trail u v hpath hedge ih =>
    apply Path.step ih
    rwa [successors_node (Nat.ne_of_lt (rootPath_lt hpath u (rootPath_end_mem hpath)))]

/-- A path from the sentinel ends there, or it goes on from a root. -/
theorem rootPath_of_path {g : HeapGraph} {trail : List Nat} {v : Nat}
    (h : Path g.successors g.size trail v) :
    v = g.size ∨ ∃ nodes, trail = nodes ++ [g.size] ∧ g.RootPath nodes v := by
  induction h with
  | start => exact Or.inl rfl
  | @step trail u v hpath hedge ih =>
    right
    rcases ih with rfl | ⟨nodes, rfl, hroot⟩
    · rw [successors_sentinel] at hedge
      obtain ⟨root, hmem, rfl⟩ := mem_rootIndices.mp hedge
      cases hpath with
      | start => exact ⟨[root.node], rfl, RootPath.root hmem⟩
      | step _ hback => exact absurd (successors_lt hback) (Nat.lt_irrefl _)
    · rw [successors_node (Nat.ne_of_lt (reachable_lt ⟨nodes, hroot⟩))] at hedge
      exact ⟨v :: nodes, rfl, RootPath.step hroot hedge⟩

theorem reachable_iff_reaches {g : HeapGraph} {v : Nat} :
    g.Reachable v ↔ v ≠ g.size ∧ Reaches g.successors g.size v := by
  refine ⟨?_, ?_⟩
  · intro h
    refine ⟨Nat.ne_of_lt (reachable_lt h), ?_⟩
    obtain ⟨trail, hpath⟩ := h
    exact ⟨_, path_of_rootPath hpath⟩
  · rintro ⟨hv, trail, hpath⟩
    rcases rootPath_of_path hpath with rfl | ⟨nodes, _, hroot⟩
    · exact absurd rfl hv
    · exact ⟨nodes, hroot⟩

theorem onEveryPath_iff_guards {g : HeapGraph} {d v : Nat} (hd : d ≠ g.size) (hv : v ≠ g.size) :
    g.OnEveryPath d v ↔ Guards g.successors g.size d v := by
  refine ⟨?_, ?_⟩
  · intro h trail hpath
    rcases rootPath_of_path hpath with rfl | ⟨nodes, rfl, hroot⟩
    · exact absurd rfl hv
    · exact List.mem_append_left _ (h nodes hroot)
  · intro h trail hroot
    rcases List.mem_append.mp (h _ (path_of_rootPath hroot)) with hmem | hlast
    · exact hmem
    · exact absurd (List.mem_singleton.mp hlast) hd

theorem onEveryPath_lt {g : HeapGraph} {d v : Nat} (hv : g.Reachable v)
    (hd : g.OnEveryPath d v) : d < g.size := by
  obtain ⟨trail, hpath⟩ := hv
  exact rootPath_lt hpath d (hd trail hpath)

theorem reachable_of_onEveryPath {g : HeapGraph} {d v : Nat} (hv : g.Reachable v)
    (hd : g.OnEveryPath d v) : g.Reachable d := by
  have hlt := onEveryPath_lt hv hd
  have hnode := reachable_iff_reaches.mp hv
  obtain ⟨trail, hpath⟩ := hnode.2
  have hguards := (onEveryPath_iff_guards (Nat.ne_of_lt hlt) hnode.1).mp hd
  exact reachable_iff_reaches.mpr
    ⟨Nat.ne_of_lt hlt, reaches_of_mem hpath (hguards trail hpath)⟩

theorem onEveryPath_antisymm {g : HeapGraph} {a v : Nat} (hv : g.Reachable v)
    (hav : g.OnEveryPath a v) (hva : g.OnEveryPath v a) : a = v := by
  have ha : a ≠ g.size := Nat.ne_of_lt (onEveryPath_lt hv hav)
  have hnode := reachable_iff_reaches.mp hv
  exact guards_antisymm hnode.2 ((onEveryPath_iff_guards ha hnode.1).mp hav)
    ((onEveryPath_iff_guards hnode.1 ha).mp hva)

end HeapGraph

end HeapRetention
