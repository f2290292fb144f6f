-- The laws of the exports. A map that is collected from entries keeps only the
-- last entry of a key. No two nodes have the same id and no two partitions the
-- same name, so nothing is overwritten when the tree and the retained sizes
-- are collected into maps by ids, and these have what the lookups find.
import HeapRetention.Proofs.Balance
import HeapRetention.Proofs.HeapTable

namespace HeapRetention

/-! ## Collected maps -/

section Collected

variable {κ β : Type} [Ord κ] [Std.TransOrd κ] [Std.LawfulEqOrd κ] {entries : List (κ × β)}
  (hnodup : (entries.map Prod.fst).Nodup)

include hnodup

omit [Std.TransOrd κ] in
theorem pairwise_compare_ne : entries.Pairwise fun a b => ¬ compare a.1 b.1 = .eq := by
  refine (List.pairwise_map.mp hnodup).imp ?_
  intro a b hne hsame
  exact hne (Std.LawfulEqOrd.eq_of_compare hsame)

/-- A map of entries under different keys has all of them. -/
theorem getElem?_ofList_iff {key : κ} {value : β} :
    (Std.TreeMap.ofList entries compare)[key]? = some value ↔ (key, value) ∈ entries := by
  have hfound : ∀ value, (key, value) ∈ entries →
      (Std.TreeMap.ofList entries compare)[key]? = some value := fun _ =>
    Std.TreeMap.getElem?_ofList_of_mem Std.ReflOrd.compare_self (pairwise_compare_ne hnodup)
  refine ⟨?_, hfound value⟩
  intro hget
  classical
  by_cases hkey : key ∈ entries.map Prod.fst
  · obtain ⟨⟨_, other⟩, hmem, rfl⟩ := List.mem_map.mp hkey
    obtain rfl := Option.some.inj (hget.symm.trans (hfound other hmem))
    exact hmem
  · have hnone : (Std.TreeMap.ofList entries compare)[key]? = none :=
      Std.TreeMap.getElem?_ofList_of_contains_eq_false (by simpa using hkey)
    rw [hnone] at hget
    exact absurd hget.symm (Option.some_ne_none value)

/-- A map of entries under different keys is these entries in ascending order of their keys. -/
theorem toList_ofList [LE κ] [DecidableLE κ] [Std.IsLinearOrder κ]
    (hle : ∀ a b : κ, compare a b = .lt → a ≤ b) :
    (Std.TreeMap.ofList entries compare).toList =
      entries.mergeSort fun a b => decide (a.1 ≤ b.1) := by
  refine eq_of_sorted_keys Prod.fst ?_ (pairwise_mergeSort_key Prod.fst _) ?_ ?_ ?_
  · exact Std.TreeMap.ordered_keys_toList.imp fun hlt => hle _ _ hlt
  · rw [Std.TreeMap.map_fst_toList_eq_keys]
    exact Std.TreeMap.nodup_keys
  · rwa [((List.mergeSort_perm _ _).map Prod.fst).nodup_iff]
  · rintro ⟨key, value⟩
    rw [Std.TreeMap.mem_toList_iff_getElem?_eq_some, getElem?_ofList_iff hnodup, List.mem_mergeSort]

end Collected

theorem NodeId.le_of_compare_lt (a b : NodeId) (h : compare a b = .lt) : a ≤ b := by
  have hword : compare a.word b.word = .lt := h
  have hlt : a.word < b.word := Std.LawfulLTCmp.eq_lt_iff_lt.mp hword
  have hle : a.word ≤ b.word := Std.le_of_lt hlt
  exact hle

theorem name_le_of_compare_lt (a b : String) (h : compare a b = .lt) : a ≤ b :=
  Std.le_of_lt (compare_lt_iff_lt.mp h)

/-! ## The tree by ids -/

namespace DominatorTree

/-- The reachable nodes with their dominators, under ids and in the order of the tree. -/
def entriesById (t : DominatorTree) (g : HeapGraph) : List (NodeId × Dominator NodeId) :=
  t.toList.filterMap fun (i, dominator) => do
    let node ← g.node? i
    let dominator ← g.dominatorId? dominator
    pure (node.id, dominator)

/-- The tree collected into a map by ids. -/
def mapById (t : DominatorTree) (g : HeapGraph) : Std.TreeMap NodeId (Dominator NodeId) :=
  Std.TreeMap.ofList (t.entriesById g) compare

section Tree

variable {t : DominatorTree} {g : HeapGraph}

theorem perm_byId (t : DominatorTree) (g : HeapGraph) : (t.byId g).Perm (t.entriesById g) :=
  List.mergeSort_perm _ _

variable (ht : t.IsOf g)

include ht

theorem nodup_entriesById : ((t.entriesById g).map Prod.fst).Nodup :=
  ((perm_byId t g).map Prod.fst).nodup_iff.mp (nodup_keys_byId ht)

theorem toList_mapById : (t.mapById g).toList = t.byId g :=
  toList_ofList (nodup_entriesById ht) NodeId.le_of_compare_lt

theorem getById?_eq_some_iff {id : NodeId} {parent : Dominator NodeId} :
    t.getById? g id = some parent ↔ (id, parent) ∈ t.byId g := by
  rw [mem_byId ht, getById?]
  simp only [Option.bind_eq_some_iff]
  refine ⟨?_, ?_⟩
  · rintro ⟨dominator, ⟨i, hi, hget⟩, hnamed⟩
    have hreach := (isReachable_iff ht).mp (Option.isSome_of_eq_some hget)
    exact ⟨i, hi, hreach, dominator, hget, hnamed⟩
  · rintro ⟨i, hi, _, dominator, hget, hnamed⟩
    exact ⟨dominator, ⟨i, hi, hget⟩, hnamed⟩

theorem getElem?_mapById (id : NodeId) : (t.mapById g)[id]? = t.getById? g id := by
  apply Option.ext
  intro parent
  rw [getById?_eq_some_iff ht, (perm_byId t g).mem_iff]
  exact getElem?_ofList_iff (nodup_entriesById ht)

theorem exists_dominatorId? {i : Nat} {dominator : Dominator Nat}
    (hget : t.get? i = some dominator) : ∃ parent, g.dominatorId? dominator = some parent := by
  have hreach := (isReachable_iff ht).mp (Option.isSome_of_eq_some hget)
  cases dominator with
  | sentinel => exact ⟨.sentinel, rfl⟩
  | node k =>
    obtain ⟨_, hevery, _⟩ := (parent_node_iff ht hreach k).mp hget
    obtain ⟨d, hd⟩ := HeapGraph.exists_id (HeapGraph.onEveryPath_lt hreach hevery)
    exact ⟨.node d, HeapGraph.dominatorId?_eq_node.mpr ⟨k, rfl, hd⟩⟩

/-- The keys of the map are the ids of the reachable nodes. -/
theorem mem_mapById {id : NodeId} :
    id ∈ t.mapById g ↔ ∃ i, g.indexOf? id = some i ∧ g.Reachable i := by
  rw [Std.TreeMap.mem_iff_isSome_getElem?, getElem?_mapById ht, Option.isSome_iff_exists]
  simp only [getById?_eq_some_iff ht, mem_byId ht]
  refine ⟨?_, ?_⟩
  · rintro ⟨_, i, hi, hreach, _⟩
    exact ⟨i, hi, hreach⟩
  · rintro ⟨i, hi, hreach⟩
    obtain ⟨dominator, hget⟩ := Option.isSome_iff_exists.mp ((isReachable_iff ht).mpr hreach)
    obtain ⟨parent, hparent⟩ := exists_dominatorId? ht hget
    exact ⟨parent, i, hi, hreach, dominator, hget, hparent⟩

/-- A dominator is itself among the nodes that have one. -/
theorem mem_mapById_of_parent {id d : NodeId} (hget : (t.mapById g)[id]? = some (.node d)) :
    d ∈ t.mapById g := by
  rw [getElem?_mapById ht, getById?_eq_some_iff ht, mem_byId ht] at hget
  obtain ⟨i, _, hreach, dominator, hdominator, hnamed⟩ := hget
  obtain ⟨k, rfl, hk⟩ := HeapGraph.dominatorId?_eq_node.mp hnamed
  obtain ⟨_, hevery, _⟩ := (parent_node_iff ht hreach k).mp hdominator
  exact (mem_mapById ht).mpr ⟨k, hk, HeapGraph.reachable_of_onEveryPath hreach hevery⟩

/-- No node of the tree is left out of the map. -/
theorem size_mapById : (t.mapById g).size = t.size := by
  have hkept : ∀ entry ∈ t.toList, (do
      let node ← g.node? entry.1
      let dominator ← g.dominatorId? entry.2
      pure (node.id, dominator)).isSome = true := by
    rintro ⟨i, dominator⟩ hmem
    obtain ⟨hreach, hget⟩ := (mem_toList ht).mp hmem
    obtain ⟨node, hnode⟩ := HeapGraph.exists_node (HeapGraph.reachable_lt hreach)
    obtain ⟨parent, hparent⟩ := exists_dominatorId? ht hget
    simp [hnode, hparent]
  have hlength : (t.entriesById g).length = t.toList.length := by
    rw [entriesById, List.length_filterMap_eq_countP, List.countP_eq_length]
    exact hkept
  rw [mapById, Std.TreeMap.size_ofList (pairwise_compare_ne (nodup_entriesById ht)), hlength,
    ← List.length_map (f := Prod.fst), keys_toList ht, size]

end Tree

end DominatorTree

/-! ## Retained sizes by ids -/

namespace RetainedTable

/-- What a node retains of each heap, under names and in the order of the heap table. -/
def entriesByName (table : RetainedTable) (g : HeapGraph) (i : Nat) : List (String × Bytes) :=
  (g.heaps.toList.zip g.heapIds).map fun (name, heap) => (name, table.size i heap)

/-- What a node retains of each heap, collected into a map by names. -/
def mapByName (table : RetainedTable) (g : HeapGraph) (i : Nat) : Std.TreeMap String Bytes :=
  Std.TreeMap.ofList (table.entriesByName g i) compare

/-- The reachable nodes with what they retain of each heap, under ids and in the order of the
tree. -/
def entriesById (table : RetainedTable) (g : HeapGraph) (t : DominatorTree) :
    List (NodeId × Std.TreeMap String Bytes) :=
  t.order.filterMap fun i => (g.node? i).map fun node => (node.id, table.mapByName g i)

/-- What each reachable node retains of each heap, collected into a map by ids. -/
def mapById (table : RetainedTable) (g : HeapGraph) (t : DominatorTree) :
    Std.TreeMap NodeId (Std.TreeMap String Bytes) :=
  Std.TreeMap.ofList (table.entriesById g t) compare

section Names

variable (table : RetainedTable) (g : HeapGraph) (i : Nat)

theorem perm_byName : (table.byName g i).Perm (table.entriesByName g i) :=
  (List.mergeSort_perm _ _).map _

theorem nodup_entriesByName : ((table.entriesByName g i).map Prod.fst).Nodup :=
  ((perm_byName table g i).map Prod.fst).nodup_iff.mp (nodup_names_byName table g i)

/-- The entry of a name is what the node retains of the heap with that name. -/
theorem getElem?_mapByName (name : String) :
    (table.mapByName g i)[name]? = (g.heapNamed? name).map (table.size i) := by
  apply Option.ext
  intro bytes
  rw [Option.map_eq_some_iff, ← mem_byName, (perm_byName table g i).mem_iff]
  exact getElem?_ofList_iff (nodup_entriesByName table g i)

theorem size_mapByName : (table.mapByName g i).size = g.heaps.size := by
  rw [mapByName, Std.TreeMap.size_ofList (pairwise_compare_ne (nodup_entriesByName table g i))]
  simp [entriesByName, HeapGraph.heapIds]

theorem toList_mapByName : (table.mapByName g i).toList = table.byName g i := by
  rw [mapByName, toList_ofList (nodup_entriesByName table g i) name_le_of_compare_lt]
  exact (List.map_mergeSort (f := fun entry : String × HeapId => (entry.1, table.size i entry.2))
    fun _ _ _ _ => rfl).symm

end Names

section Tree

variable {t : DominatorTree} {g : HeapGraph} (ht : t.IsOf g) (table : RetainedTable)

include ht

theorem mem_entriesById {id : NodeId} {shares : Std.TreeMap String Bytes compare} :
    (id, shares) ∈ table.entriesById g t ↔
      ∃ i, g.indexOf? id = some i ∧ g.Reachable i ∧ table.mapByName g i = shares := by
  unfold entriesById
  simp only [List.mem_filterMap, ht.mem_order, Option.map_eq_some_iff, Prod.mk.injEq,
    HeapGraph.indexOf?_eq_some_iff]
  grind

theorem nodup_entriesById : ((table.entriesById g t).map Prod.fst).Nodup := by
  refine HeapGraph.nodup_keys (g := g) ?_ ht.nodup_order
  intro i entry hentry
  obtain ⟨node, hnode, rfl⟩ := Option.map_eq_some_iff.mp hentry
  rw [g.indexOf?_eq_some_iff, hnode]
  rfl

theorem getElem?_mapById {id : NodeId} {shares : Std.TreeMap String Bytes compare} :
    (table.mapById g t)[id]? = some shares ↔
      ∃ i, g.indexOf? id = some i ∧ g.Reachable i ∧ table.mapByName g i = shares := by
  rw [← mem_entriesById ht table]
  exact getElem?_ofList_iff (nodup_entriesById ht table)

theorem mem_mapById {id : NodeId} : id ∈ table.mapById g t ↔ id ∈ t.mapById g := by
  rw [DominatorTree.mem_mapById ht, Std.TreeMap.mem_iff_isSome_getElem?, Option.isSome_iff_exists]
  simp only [getElem?_mapById ht table]
  grind

theorem toList_mapById : ((table.mapById g t).toList.map fun (id, shares) => (id, shares.toList)) =
    table.byId g t := by
  have hentries : (table.entriesById g t).map (fun (id, shares) => (id, shares.toList)) =
      t.order.filterMap fun i => (g.node? i).map fun node => (node.id, table.byName g i) := by
    rw [entriesById, List.map_filterMap]
    apply List.filterMap_congr
    intro i _
    cases g.node? i with
    | none => rfl
    | some node => simp [toList_mapByName]
  rw [mapById, toList_ofList (nodup_entriesById ht table) NodeId.le_of_compare_lt, byId, ← hentries]
  exact List.map_mergeSort fun _ _ _ _ => rfl

end Tree

end RetainedTable

/-! ## The laws -/

open DominatorTree RetainedTable in
/-- The maps by ids lose nothing. The tree is a map from exactly the ids that have a dominator to
this dominator, the retained sizes are a map from the same ids to one entry for each heap, and both
are the lists that are shown. -/
theorem maps_by_ids_have_what_the_lookups_find (g : HeapGraph) :
    ∃ t, ofGraph g = .ok t ∧
      (∀ id, (t.mapById g)[id]? = t.getById? g id) ∧
      (t.mapById g).size = t.size ∧
      (∀ id d : NodeId, (t.mapById g)[id]? = some (.node d) → d ∈ t.mapById g) ∧
      (t.mapById g).toList = t.byId g ∧
      (∀ id, id ∈ (ofTree g t).mapById g t ↔ id ∈ t.mapById g) ∧
      (∀ id shares, ((ofTree g t).mapById g t)[id]? = some shares →
        (∀ name, name ∈ shares ↔ name ∈ g.heaps) ∧ shares.size = g.heaps.size ∧
        ∀ name bytes, shares[name]? = some bytes ↔ ∃ i heap, g.indexOf? id = some i ∧
          g.heapNamed? name = some heap ∧ (ofTree g t).size i heap = bytes) ∧
      (((ofTree g t).mapById g t).toList.map fun (id, shares) => (id, shares.toList)) =
        (ofTree g t).byId g t := by
  obtain ⟨t, hsearch, ht⟩ := exists_tree g
  refine ⟨t, hsearch, DominatorTree.getElem?_mapById ht, size_mapById ht, ?_,
    DominatorTree.toList_mapById ht, ?_, ?_, RetainedTable.toList_mapById ht _⟩
  · intro id d
    exact mem_mapById_of_parent ht
  · intro id
    exact RetainedTable.mem_mapById ht _
  · intro id shares hshares
    obtain ⟨i, hi, _, rfl⟩ := (RetainedTable.getElem?_mapById ht _).mp hshares
    refine ⟨?_, size_mapByName _ g i, ?_⟩
    · intro name
      rw [Std.TreeMap.mem_iff_isSome_getElem?, getElem?_mapByName, Option.isSome_map,
        HeapGraph.isSome_heapNamed?]
    · intro name bytes
      rw [getElem?_mapByName, Option.map_eq_some_iff, hi]
      grind

/-- The maps of two objects in two heaps have no entry for a third one, which is lost. -/
theorem a_lost_object_is_in_no_map :
    ∃ g t, (Recording.replay .eight Recording.tidy).build = .ok g ∧
      DominatorTree.ofGraph g = .ok t ∧ (t.mapById g).size = 2 ∧
      (t.mapById g)[(⟨2⟩ : NodeId)]? = some (.node ⟨1⟩) ∧ ⟨1⟩ ∈ t.mapById g ∧
      (t.mapById g)[(⟨3⟩ : NodeId)]? = none ∧ ⟨3⟩ ∉ (RetainedTable.ofTree g t).mapById g t ∧
      (((RetainedTable.ofTree g t).mapById g t).toList.map
        fun (id, shares) => (id, shares.toList)) =
        [(⟨1⟩, [("app", 8), ("zygote", 9)]), (⟨2⟩, [("app", 0), ("zygote", 9)])] := by
  have hrun : ((Recording.replay .eight Recording.tidy).build.toOption.bind fun g =>
      (DominatorTree.ofGraph g).toOption.map fun t =>
        (t.size, t.getById? g ⟨2⟩, t.getById? g ⟨3⟩, (RetainedTable.ofTree g t).byId g t)) =
      some (2, some (.node ⟨1⟩), none,
        [(⟨1⟩, [("app", 8), ("zygote", 9)]), (⟨2⟩, [("app", 0), ("zygote", 9)])]) := by
    cbv
  obtain ⟨g, t, hbuild, hsearch, hseen⟩ := DominatorTree.exists_of_run hrun
  simp only [Prod.mk.injEq] at hseen
  obtain ⟨hsize, htwo, hthree, hshown⟩ := hseen
  obtain ⟨hget, hcount, hclosed, _, hkeys, _, htable⟩ := DominatorTree.holds_of_ofGraph
    (maps_by_ids_have_what_the_lookups_find g) hsearch
  have hparent := (hget ⟨2⟩).trans htwo
  have hlost := (hget ⟨3⟩).trans hthree
  refine ⟨g, t, hbuild, hsearch, hcount.trans hsize, hparent, hclosed _ _ hparent, hlost, ?_,
    htable.trans hshown⟩
  rw [hkeys, Std.TreeMap.mem_iff_isSome_getElem?, hlost]
  exact Bool.false_ne_true

end HeapRetention
