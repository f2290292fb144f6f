-- The laws of independent ways in. Where no place but the start lies on every
-- path to a place, two paths lead there that have nothing else in common. So
-- the sentinel stands above a node exactly where the node is a root itself, or
-- two roots keep it alive by paths that meet only there.
import HeapRetention.Proofs.Dominance

namespace HeapRetention

section OneStart

variable {successors : Nat → List Nat} {start : Nat}

/-! ## Parts of paths -/

/-- From a place on every path to `w` a part of a path leads to `w` behind that place. -/
theorem exists_guarded_part {trail : List Nat} {w x : Nat} (h : Path successors start trail w)
    (hx : Guards successors start x w) :
    ∃ part, (∀ z ∈ part, Guards successors start x z) ∧
      ∀ before, Path successors start before x → Path successors start (part ++ before) w := by
  induction h with
  | start =>
    have hself : x = start := List.mem_singleton.mp (hx _ Path.start)
    exact ⟨[], by simp, fun before hbefore => by simpa [hself] using hbefore⟩
  | @step trail u w hpath hedge ih =>
    by_cases hself : x = w
    · exact ⟨[], by simp, fun before hbefore => by simpa [hself] using hbefore⟩
    · obtain ⟨part, hguarded, hextend⟩ := ih (guards_of_edge hx hself hedge)
      refine ⟨w :: part, ?_, ?_⟩
      · simpa using ⟨hx, hguarded⟩
      · intro before hbefore
        exact Path.step (hextend before hbefore) hedge

/-- The last place of a path that has a property which the start has. Behind it no place of the
path has the property, and that part goes on from every path to the place. -/
theorem exists_last (holds : Nat → Prop) (hstart : holds start) {trail : List Nat} {v : Nat}
    (h : Path successors start trail v) :
    ∃ y part, y ∈ trail ∧ holds y ∧ (∀ z ∈ part, z ∈ trail ∧ ¬ holds z) ∧
      ∀ before, Path successors start before y → Path successors start (part ++ before) v := by
  induction h with
  | start => exact ⟨start, [], by simp, hstart, by simp, fun _ hbefore => hbefore⟩
  | @step trail u v hpath hedge ih =>
    by_cases hv : holds v
    · exact ⟨v, [], by simp, hv, by simp, fun _ hbefore => hbefore⟩
    · obtain ⟨y, part, hy, hholds, hrest, hextend⟩ := ih
      refine ⟨y, v :: part, List.mem_cons_of_mem _ hy, hholds, ?_, ?_⟩
      · intro z hz
        rcases List.mem_cons.mp hz with rfl | hpart
        · exact ⟨List.mem_cons_self, hv⟩
        · exact ⟨List.mem_cons_of_mem _ (hrest z hpart).1, (hrest z hpart).2⟩
      · intro before hbefore
        exact Path.step (hextend before hbefore) hedge

/-! ## Places that nothing guards -/

/-- Nothing but the start and the place itself lies on every path to the place. -/
def Unguarded (successors : Nat → List Nat) (start v : Nat) : Prop :=
  ∀ e, Guards successors start e v → e = start ∨ e = v

/-- On every path to a place lies an unguarded one, which no longer path leads to. -/
theorem exists_unguarded {trail : List Nat} {w : Nat} (h : Path successors start trail w)
    (hw : w ≠ start) :
    ∃ x before, x ≠ start ∧ Unguarded successors start x ∧ Guards successors start x w ∧
      Path successors start before x ∧ before.length ≤ trail.length := by
  induction hlength : trail.length using Nat.strongRecOn generalizing trail w with
  | ind n ih =>
    by_cases halone : Unguarded successors start w
    · exact ⟨w, trail, hw, halone, fun _ hpath => end_mem hpath, h, Nat.le_of_eq hlength⟩
    · obtain ⟨e, he, hne⟩ : ∃ e, Guards successors start e w ∧ ¬ (e = start ∨ e = w) := by
        simpa [Unguarded] using halone
      rw [not_or] at hne
      obtain ⟨before, hbefore, hto⟩ := path_to_tail_mem h (he trail h) hne.2
      have hshorter : before.length < n := by
        have hle := hbefore.length_le
        have hpos := List.length_pos_of_mem (end_mem h)
        rw [List.length_tail] at hle
        omega
      obtain ⟨x, more, hx, hxalone, hguards, hpath, hle⟩ := ih _ hshorter hto hne.1 rfl
      exact ⟨x, more, hx, hxalone, guards_trans hguards he, hpath, by omega⟩

/-! ## Two paths that meet only at their end -/

/-- Two paths to `v` have only the start and `v` in common. -/
structure Apart (successors : Nat → List Nat) (start v : Nat) (one other : List Nat) : Prop where
  to_one : Path successors start one v
  to_other : Path successors start other v
  common : ∀ z ∈ one, z ∈ other → z = start ∨ z = v

theorem apart_symm {v : Nat} {one other : List Nat} (h : Apart successors start v one other) :
    Apart successors start v other one :=
  ⟨h.to_other, h.to_one, fun z hother hone => h.common z hone hother⟩

/-- Paths that are apart can be replaced by paths that visit no place twice. -/
theorem exists_simple_apart {v : Nat} {one other : List Nat}
    (h : Apart successors start v one other) :
    ∃ one other, one.Nodup ∧ other.Nodup ∧ Apart successors start v one other := by
  obtain ⟨one, hone, hsub, hto⟩ := exists_nodup_path h.to_one
  obtain ⟨other, hother, hsub', hto'⟩ := exists_nodup_path h.to_other
  exact ⟨one, other, hone, hother, hto, hto', fun z hz hz' => h.common z (hsub z hz) (hsub' z hz')⟩

/-- Two paths to `x` become two paths to `v`. One turns off before it comes to `x`, and the other
goes on behind `x`, where a path that leaves out `x` never comes. -/
theorem apart_extend {x y v : Nat} {one other detour behind : List Nat}
    (h : Apart successors start x one other) (hnodup : one.Nodup) (hy : y ∈ one) (hne : y ≠ x)
    (hdetour : ∀ z ∈ detour, z ∉ other ∧ ¬ Guards successors start x z)
    (hbehind : ∀ z ∈ behind, z = v ∨ Guards successors start x z)
    (hturn : ∀ before, Path successors start before y →
      Path successors start (detour ++ before) v)
    (hgo : ∀ before, Path successors start before x →
      Path successors start (behind ++ before) v) :
    ∃ one other, Apart successors start v one other := by
  obtain ⟨before, hbefore, hto⟩ := path_to_tail_mem h.to_one hy hne
  have hsub : ∀ z ∈ before, z ∈ one := fun z hz => List.mem_of_mem_tail (hbefore.subset hz)
  have hx : x ∉ before := by
    obtain ⟨rest, rfl⟩ := path_head h.to_one
    intro hmem
    exact (List.nodup_cons.mp hnodup).1 (hbefore.subset hmem)
  refine ⟨detour ++ before, behind ++ other, hturn before hto, hgo other h.to_other, ?_⟩
  intro z hfirst hsecond
  rcases List.mem_append.mp hfirst with hz | hz
  · obtain ⟨hother, hfree⟩ := hdetour z hz
    rcases List.mem_append.mp hsecond with hz' | hz'
    · exact Or.inr ((hbehind z hz').resolve_right hfree)
    · exact absurd hz' hother
  · rcases List.mem_append.mp hsecond with hz' | hz'
    · exact Or.inr ((hbehind z hz').resolve_right (not_guards_of_mem hto hx hz))
    · rcases h.common z (hsub z hz) hz' with hstart | rfl
      · exact Or.inl hstart
      · exact absurd hz hx

/-- Some path to an unguarded place leaves out any other place but the start. -/
theorem exists_leaving_out {v x : Nat} (halone : Unguarded successors start v) (hx : x ≠ start)
    (hne : x ≠ v) : ∃ round, Path successors start round v ∧ x ∉ round := by
  by_contra hall
  have hguards : Guards successors start x v := by
    intro round hround
    by_contra hleft
    exact hall ⟨round, hround, hleft⟩
  exact (halone x hguards).elim hx hne

/-- Two paths to a place on every path to `w` become two paths to an unguarded target of `w`. Some
path to the target leaves out that place, and one of the two turns off to it. -/
theorem exists_apart_of_edge {trail : List Nat} {v w x : Nat}
    (hpath : Path successors start trail w) (hedge : v ∈ successors w) (hnew : v ∉ trail)
    (halone : Unguarded successors start v) (hx : x ≠ start)
    (hguards : Guards successors start x w)
    (h : ∃ one other, Apart successors start x one other) :
    ∃ one other, Apart successors start v one other := by
  obtain ⟨_, _, hapart⟩ := h
  obtain ⟨one, other, hone, hother, hapart⟩ := exists_simple_apart hapart
  have hne : x ≠ v := by
    rintro rfl
    exact hnew (hguards trail hpath)
  obtain ⟨round, hround, hleft⟩ := exists_leaving_out halone hx hne
  obtain ⟨part, hpart, hgo⟩ := exists_guarded_part hpath hguards
  have hbehind : ∀ z ∈ v :: part, z = v ∨ Guards successors start x z := by
    intro z hz
    rcases List.mem_cons.mp hz with rfl | hz
    · exact Or.inl rfl
    · exact Or.inr (hpart z hz)
  have hgo' : ∀ before, Path successors start before x →
      Path successors start (v :: part ++ before) v :=
    fun before hbefore => Path.step (hgo before hbefore) hedge
  -- the last place of `round` on one of the two paths is where that path turns off
  have hstart : start ∈ one ∨ start ∈ other := Or.inl (start_mem hapart.to_one)
  obtain ⟨y, detour, hyround, hy, hdetour, hturn⟩ :=
    exists_last (fun z => z ∈ one ∨ z ∈ other) hstart hround
  have hyx : y ≠ x := by
    rintro rfl
    exact hleft hyround
  have hfree : ∀ z ∈ detour, ¬ Guards successors start x z :=
    fun z hz => not_guards_of_mem hround hleft (hdetour z hz).1
  rcases hy with hy | hy
  · refine apart_extend hapart hone hy hyx ?_ hbehind hturn hgo'
    exact fun z hz => ⟨fun hmem => (hdetour z hz).2 (Or.inr hmem), hfree z hz⟩
  · refine apart_extend (apart_symm hapart) hother hy hyx ?_ hbehind hturn hgo'
    exact fun z hz => ⟨fun hmem => (hdetour z hz).2 (Or.inl hmem), hfree z hz⟩

/-- An unguarded place has two paths that meet only there. By induction on the length of a path:
a place that is unguarded and on every path to the last place but one has two such paths. -/
theorem exists_apart {trail : List Nat} {v : Nat} (h : Path successors start trail v)
    (hv : v ≠ start) (halone : Unguarded successors start v) :
    ∃ one other, Apart successors start v one other := by
  induction hlength : trail.length using Nat.strongRecOn generalizing trail v with
  | ind n ih =>
    cases h with
    | start => exact absurd rfl hv
    | @step trail w _ hpath hedge =>
      have hn : trail.length < n := by
        rw [← hlength]
        simp
      by_cases hagain : v ∈ trail
      · obtain ⟨before, hbefore, hto⟩ := path_to_mem hpath hagain
        exact ih _ (Nat.lt_of_le_of_lt hbefore.length_le hn) hto hv halone rfl
      by_cases hw : w = start
      · subst hw
        have hdirect : Path successors w [v, w] v := Path.step Path.start hedge
        refine ⟨[v, w], [v, w], hdirect, hdirect, ?_⟩
        intro z hz _
        simpa [or_comm] using hz
      · obtain ⟨x, before, hx, hxalone, hguards, hto, hle⟩ := exists_unguarded hpath hw
        apply exists_apart_of_edge hpath hedge hagain halone hx hguards
        exact ih _ (Nat.lt_of_le_of_lt hle hn) hto hx hxalone rfl

end OneStart

/-! ## Ways in from the roots -/

namespace HeapGraph

/-- Two paths from different roots have no node but `v` in common. The latest node of a path comes
first, so its root is the last one. -/
def TwoWaysIn (g : HeapGraph) (v : Nat) : Prop :=
  ∃ one other, g.RootPath one v ∧ g.RootPath other v ∧ one.getLast? ≠ other.getLast? ∧
    ∀ z ∈ one, z ∈ other → z = v

theorem rootPath_getLast? {g : HeapGraph} {trail : List Nat} {v : Nat} (h : g.RootPath trail v) :
    ∃ root ∈ g.roots, trail.getLast? = some root.node := by
  induction h with
  | @root root hroot => exact ⟨root, hroot, rfl⟩
  | step _ _ ih =>
    obtain ⟨root, hroot, hlast⟩ := ih
    exact ⟨root, hroot, by simp [List.getLast?_cons, hlast]⟩

theorem unguarded_of_alone {g : HeapGraph} {v : Nat} (hv : g.Reachable v)
    (halone : ∀ e, g.OnEveryPath e v → e = v) : Unguarded g.successors g.size v := by
  intro e he
  by_cases hsentinel : e = g.size
  · exact Or.inl hsentinel
  · right
    apply halone
    rwa [onEveryPath_iff_guards hsentinel (Nat.ne_of_lt (reachable_lt hv))]

/-- A node that no other node guards has two ways in, unless it is a root. -/
theorem twoWaysIn_of_alone {g : HeapGraph} {v : Nat} (hv : g.Reachable v)
    (halone : ∀ e, g.OnEveryPath e v → e = v) (hroot : ∀ root ∈ g.roots, root.node ≠ v) :
    g.TwoWaysIn v := by
  obtain ⟨hne, trail, hpath⟩ := reachable_iff_reaches.mp hv
  obtain ⟨_, _, hto, hto', hcommon⟩ := exists_apart hpath hne (unguarded_of_alone hv halone)
  obtain ⟨one, rfl, hone⟩ := (rootPath_of_path hto).resolve_left hne
  obtain ⟨other, rfl, hother⟩ := (rootPath_of_path hto').resolve_left hne
  have hmeet : ∀ z ∈ one, z ∈ other → z = v := by
    intro z hz hz'
    have hnode := Nat.ne_of_lt (rootPath_lt hone z hz)
    exact (hcommon z (List.mem_append_left _ hz) (List.mem_append_left _ hz')).resolve_left hnode
  refine ⟨one, other, hone, hother, ?_, hmeet⟩
  intro hsame
  obtain ⟨root, hmem, hlast⟩ := rootPath_getLast? hone
  have hlast' : other.getLast? = some root.node := hsame ▸ hlast
  exact hroot root hmem
    (hmeet _ (List.mem_of_getLast? hlast) (List.mem_of_getLast? hlast'))

/-- Besides a root itself, only what both of its ways in pass can lie on every path to a node. -/
theorem alone_of_root_or_twoWaysIn {g : HeapGraph} {v : Nat}
    (h : (∃ root ∈ g.roots, root.node = v) ∨ g.TwoWaysIn v) (e : Nat) (he : g.OnEveryPath e v) :
    e = v := by
  rcases h with ⟨root, hroot, rfl⟩ | ⟨one, other, hone, hother, _, hmeet⟩
  · exact List.mem_singleton.mp (he _ (RootPath.root hroot))
  · exact hmeet e (he one hone) (he other hother)

end HeapGraph

namespace DominatorTree

/-- The sentinel stands above a node exactly where the node is a root or two paths from different
roots meet only there. -/
theorem the_sentinel_means_a_root_or_two_ways_in (g : HeapGraph) :
    ∃ t, ofGraph g = .ok t ∧ ∀ v, g.Reachable v →
      (t.get? v = some .sentinel ↔ (∃ root ∈ g.roots, root.node = v) ∨ g.TwoWaysIn v) := by
  obtain ⟨t, hsearch, h⟩ := exists_tree g
  refine ⟨t, hsearch, ?_⟩
  intro v hv
  rw [parent_sentinel_iff h hv]
  refine ⟨?_, HeapGraph.alone_of_root_or_twoWaysIn⟩
  intro halone
  by_cases hroot : ∃ root ∈ g.roots, root.node = v
  · exact Or.inl hroot
  · right
    apply HeapGraph.twoWaysIn_of_alone hv halone
    intro root hmem heq
    exact hroot ⟨root, hmem, heq⟩

/-- The knot is no root where it is entered, so it is entered by two ways. -/
theorem the_knot_is_entered_by_two_ways :
    ∃ g, (Recording.replay .four Recording.knot).build = .ok g ∧
      g.Reachable 1 ∧ (∀ root ∈ g.roots, root.node ≠ 1) ∧ g.TwoWaysIn 1 := by
  have hrun : ((Recording.replay .four Recording.knot).build.toOption.bind fun g =>
      (ofGraph g).toOption.map fun t => (g.roots, g.references 0, t.get? 1)) =
      some ([⟨0, .unknown⟩, ⟨4, .unknown⟩], [1], some .sentinel) := by
    cbv
  obtain ⟨g, t, hbuild, hsearch, hseen⟩ := exists_of_run hrun
  simp only [Prod.mk.injEq] at hseen
  obtain ⟨hroots, hzero, hsentinel⟩ := hseen
  have hfirst : (⟨0, .unknown⟩ : Root) ∈ g.roots := by simp [hroots]
  have hroot : g.RootPath [0] 0 := HeapGraph.RootPath.root hfirst
  have hreach : g.Reachable 1 := ⟨_, HeapGraph.RootPath.step hroot (by simp [hzero])⟩
  have hnot : ∀ root ∈ g.roots, root.node ≠ 1 := by simp [hroots]
  have hmeans := holds_of_ofGraph (the_sentinel_means_a_root_or_two_ways_in g) hsearch
  refine ⟨g, hbuild, hreach, hnot, ?_⟩
  rcases (hmeans 1 hreach).mp hsentinel with ⟨root, hmem, heq⟩ | htwo
  · exact absurd heq (hnot root hmem)
  · exact htwo

end DominatorTree

end HeapRetention
