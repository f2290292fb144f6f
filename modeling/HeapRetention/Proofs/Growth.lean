-- The laws of growth. Further references and roots open further paths, and no
-- path is lost. So what was reachable stays reachable, and a node comes to
-- dominate nothing that it did not dominate before. As long as nothing new
-- comes into reach, no node retains more than before.
import HeapRetention.Proofs.Ancestors
import HeapRetention.Proofs.Recorded
import HeapRetention.Proofs.RetainedBytes

namespace HeapRetention

/-! ## Further paths -/

namespace HeapGraph

theorem source_lt {g : HeapGraph} {u v : Nat} (h : v ∈ g.references u) : u < g.size := by
  by_contra hu
  rw [g.references_of_le (Nat.not_lt.mp hu)] at h
  cases h

/-- The graph `more` has the nodes, the references and the roots of the graph `g`, and maybe further
references and roots. -/
structure Extends (more g : HeapGraph) : Prop where
  nodes_eq : more.nodes = g.nodes
  references_subset : ∀ u, g.references u ⊆ more.references u
  mem_roots : ∀ root ∈ g.roots, ∃ root' ∈ more.roots, root'.node = root.node

section Extended

variable {more g : HeapGraph} (h : more.Extends g)

include h

theorem rootPath_extended {trail : List Nat} {v : Nat} (hpath : g.RootPath trail v) :
    more.RootPath trail v := by
  induction hpath with
  | @root root hroot =>
    obtain ⟨root', hroot', hnode⟩ := h.mem_roots root hroot
    rw [← hnode]
    exact RootPath.root hroot'
  | step _ hedge ih => exact RootPath.step ih (h.references_subset _ hedge)

theorem reachable_extended {v : Nat} (hv : g.Reachable v) : more.Reachable v := by
  obtain ⟨trail, hpath⟩ := hv
  exact ⟨trail, rootPath_extended h hpath⟩

/-- What is on every path of the larger graph is on every path of the smaller one. -/
theorem onEveryPath_of_extended {d v : Nat} (hd : more.OnEveryPath d v) : g.OnEveryPath d v := by
  intro trail hpath
  apply hd
  exact rootPath_extended h hpath

end Extended

end HeapGraph

/-! ## Weaker dominance -/

section Trees

variable {more g : HeapGraph} {t t' : DominatorTree} (h : more.Extends g) (ht : t.IsOf g)
  (ht' : t'.IsOf more)

include h ht ht'

namespace DominatorTree

theorem isReachable_extended {v : Nat} (hv : t.isReachable v = true) :
    t'.isReachable v = true := by
  rw [isReachable_iff ht] at hv
  rw [isReachable_iff ht']
  exact HeapGraph.reachable_extended h hv

theorem dominates_of_extended {a b : Nat} (hb : t.isReachable b = true)
    (hdominates : t'.dominates a b = true) : t.dominates a b = true := by
  rw [isReachable_iff ht] at hb
  rw [dominates_iff ht'] at hdominates
  rw [dominates_iff ht]
  exact ⟨hb, HeapGraph.onEveryPath_of_extended h hdominates.2⟩

end DominatorTree

namespace RetainedTable

/-- Where nothing new comes into reach, a node retains at most what it did. -/
theorem size_extended_le (hsame : ∀ w, g.Reachable w ↔ more.Reachable w) (v : Nat)
    (heap : HeapId) : (ofTree more t').size v heap ≤ (ofTree g t).size v heap := by
  have hle : (more.bytesWhere heap fun w => more.Reachable w ∧ more.OnEveryPath v w) ≤
      g.bytesWhere heap fun w => g.Reachable w ∧ g.OnEveryPath v w := by
    rw [bytesWhere_of_nodes_eq h.nodes_eq]
    apply bytesWhere_mono
    rintro w ⟨hreach, hevery⟩
    exact ⟨(hsame w).mpr hreach, HeapGraph.onEveryPath_of_extended h hevery⟩
  rw [UInt64.le_iff_toNat_le, toNat_size ht', toNat_size ht]
  omega

theorem sentinel_extended (hsame : ∀ w, g.Reachable w ↔ more.Reachable w) (heap : HeapId) :
    (ofTree more t').sentinel heap = (ofTree g t).sentinel heap := by
  have hreach : more.Reachable = g.Reachable := by
    funext w
    exact propext (hsame w).symm
  apply UInt64.toNat_inj.mp
  rw [toNat_sentinel ht', toNat_sentinel ht, bytesWhere_of_nodes_eq h.nodes_eq, hreach]

end RetainedTable

end Trees

/-! ## Further calls -/

namespace Recording

/-- A graph that is built with further references and roots extends the one without. -/
theorem extends_built {r r' : Recording} {g more : HeapGraph} (hbuild : r.build = .ok g)
    (hbuild' : r'.build = .ok more) (hnodes : more.nodes = g.nodes)
    (hreferences : r.references.toList ⊆ r'.references.toList)
    (hroots : ∀ root ∈ r.roots.toList, ∃ kind, (root.1, kind) ∈ r'.roots.toList) :
    more.Extends g := by
  have hplace : ∀ {id i}, g.indexOf? id = some i → more.indexOf? id = some i := by
    intro id i hi
    rw [HeapGraph.indexOf?_eq_some_iff, HeapGraph.node?] at hi ⊢
    rwa [hnodes]
  refine ⟨hnodes, ?_, ?_⟩
  · intro u v hedge
    obtain ⟨a, ha⟩ := HeapGraph.exists_id (HeapGraph.source_lt hedge)
    obtain ⟨b, hb⟩ := HeapGraph.exists_id (g.references_lt hedge)
    apply (mem_references_built hbuild' (hplace ha) (hplace hb)).mpr
    apply hreferences
    exact (mem_references_built hbuild ha hb).mp hedge
  · intro root hroot
    obtain ⟨id, hid⟩ := HeapGraph.exists_id (g.root_lt root hroot)
    obtain ⟨kind, hkind⟩ := (mem_roots_built hbuild hid).mp ⟨root, hroot, rfl⟩
    exact (mem_roots_built hbuild' (hplace hid)).mpr (hroots _ hkind)

/-- When the same nodes are recorded with further references and roots, what was reachable stays so,
and no node comes to dominate a node that it did not dominate before. If nothing new is reachable,
no node retains more of a heap than before, and the heap has the same reachable bytes. -/
theorem further_references_and_roots_only_weaken_dominance {width width' : IdWidth}
    {calls calls' : List Call} {g more : HeapGraph} (hbuild : (replay width calls).build = .ok g)
    (hbuild' : (replay width' calls').build = .ok more) (hnodes : more.nodes = g.nodes)
    (hedges : edgesOf calls ⊆ edgesOf calls')
    (hroots : ∀ root ∈ rootsOf calls, ∃ kind, (root.1, kind) ∈ rootsOf calls') :
    ∃ t t', DominatorTree.ofGraph g = .ok t ∧ DominatorTree.ofGraph more = .ok t' ∧
      (∀ v, t.isReachable v = true → t'.isReachable v = true) ∧
      (∀ a b, t.isReachable b = true → t'.dominates a b = true → t.dominates a b = true) ∧
      ((∀ v, t.isReachable v = t'.isReachable v) → ∀ heap,
        (∀ v, (RetainedTable.ofTree more t').size v heap ≤ (RetainedTable.ofTree g t).size v heap) ∧
        (RetainedTable.ofTree more t').sentinel heap =
          (RetainedTable.ofTree g t).sentinel heap) := by
  obtain ⟨t, hsearch, ht⟩ := DominatorTree.exists_tree g
  obtain ⟨t', hsearch', ht'⟩ := DominatorTree.exists_tree more
  have h : more.Extends g := by
    apply extends_built hbuild hbuild' hnodes
    · rwa [references_replay, references_replay]
    · rwa [roots_replay, roots_replay]
  refine ⟨t, t', hsearch, hsearch', fun _ => DominatorTree.isReachable_extended h ht ht',
    fun _ _ => DominatorTree.dominates_of_extended h ht ht', ?_⟩
  intro hreach heap
  have hsame : ∀ w, g.Reachable w ↔ more.Reachable w := by
    intro w
    rw [← DominatorTree.isReachable_iff ht, ← DominatorTree.isReachable_iff ht', hreach]
  exact ⟨fun v => RetainedTable.size_extended_le h ht ht' hsame v heap,
    RetainedTable.sentinel_extended h ht ht' hsame heap⟩

/-- With another reference into its cycle, the knot is left at no one node, and its inner node
retains nothing but itself. -/
theorem the_knot_with_another_way_in_retains_less :
    ∃ g more t t', (replay .four knot).build = .ok g ∧
      (replay .eight (.root ⟨1⟩ .jniLocal :: .reference ⟨5⟩ ⟨4⟩ :: knot)).build = .ok more ∧
      more.nodes = g.nodes ∧ DominatorTree.ofGraph g = .ok t ∧
      DominatorTree.ofGraph more = .ok t' ∧ (∀ v, t.isReachable v = t'.isReachable v) ∧
      t.dominates 2 3 = true ∧ t'.dominates 2 3 = false ∧
      (RetainedTable.ofTree g t).size 2 ⟨0⟩ = 7 ∧ (RetainedTable.ofTree more t').size 2 ⟨0⟩ = 3 ∧
      (∀ v, (RetainedTable.ofTree more t').size v ⟨0⟩ ≤ (RetainedTable.ofTree g t).size v ⟨0⟩) ∧
      (RetainedTable.ofTree more t').sentinel ⟨0⟩ = (RetainedTable.ofTree g t).sentinel ⟨0⟩ := by
  have hrun : ((replay .four knot).build.toOption.bind fun g =>
      (DominatorTree.ofGraph g).toOption.map fun t =>
        (g.nodes, (List.range 5).all t.isReachable, t.dominates 2 3,
          (RetainedTable.ofTree g t).size 2 ⟨0⟩)) =
      some ((#[1, 2, 3, 4, 5].map fun n => ⟨⟨n⟩, .instanceOf none, n, ⟨0⟩⟩), true, true, 7) := by
    cbv
  have hrun' : ((replay .eight
      (.root ⟨1⟩ .jniLocal :: .reference ⟨5⟩ ⟨4⟩ :: knot)).build.toOption.bind fun g =>
      (DominatorTree.ofGraph g).toOption.map fun t =>
        (g.nodes, t.sentinelSlot, t.dominates 2 3, (RetainedTable.ofTree g t).size 2 ⟨0⟩)) =
      some ((#[1, 2, 3, 4, 5].map fun n => ⟨⟨n⟩, .instanceOf none, n, ⟨0⟩⟩), 5, false, 3) := by
    cbv
  obtain ⟨g, t, hbuild, hsearch, hseen⟩ := DominatorTree.exists_of_run hrun
  obtain ⟨more, t', hbuild', hsearch', hseen'⟩ := DominatorTree.exists_of_run hrun'
  simp only [Prod.mk.injEq] at hseen hseen'
  obtain ⟨hnodes, hall, hinner, hseven⟩ := hseen
  obtain ⟨hnodes', hslot, hinner', hthree⟩ := hseen'
  have hroots : ∀ root ∈ rootsOf knot, ∃ kind,
      (root.1, kind) ∈ rootsOf (.root ⟨1⟩ .jniLocal :: .reference ⟨5⟩ ⟨4⟩ :: knot) := by
    intro root hroot
    exact ⟨root.2, List.mem_cons_of_mem _ hroot⟩
  obtain ⟨t₁, t₂, hfirst, hsecond, hkept, _, hless⟩ :=
    further_references_and_roots_only_weaken_dominance hbuild hbuild' (hnodes'.trans hnodes.symm)
      (List.subset_cons_self _ _) hroots
  rw [hsearch] at hfirst
  rw [hsearch'] at hsecond
  obtain rfl := Except.ok.inj hfirst
  obtain rfl := Except.ok.inj hsecond
  have hsame : ∀ v, t.isReachable v = t'.isReachable v := by
    intro v
    rw [Bool.eq_iff_iff]
    refine ⟨hkept v, ?_⟩
    intro hv
    have hlt : v < 5 := by
      by_contra hlarge
      simp [DominatorTree.isReachable, DominatorTree.get?, hslot, hlarge] at hv
    exact List.all_eq_true.mp hall v (List.mem_range.mpr hlt)
  obtain ⟨hsizes, hsentinel⟩ := hless hsame ⟨0⟩
  exact ⟨g, more, t, t', hbuild, hbuild', hnodes'.trans hnodes.symm, hsearch, hsearch', hsame,
    hinner, hinner', hseven, hthree, hsizes, hsentinel⟩

end Recording

end HeapRetention
