-- The laws of rankings. Nodes are ranked by what they retain of one heap or of
-- all heaps, and among equal sizes by their indices. What is shown is always
-- the top of one list of all nodes in question, and each figure that a report
-- prints is the one that its row was ranked by.
import HeapRetention.Proofs.Balance
import HeapRetention.Proofs.HeapTable
import HeapRetention.Proofs.Totals

namespace HeapRetention

/-! ## Ranked lists -/

namespace RetainedTable

/-- The list has exactly the shares that nodes hold. A share of more bytes comes before one of
fewer, and among shares of as many bytes the one of the smaller index comes first. -/
structure Ranks (holds : Nat → Bytes → Prop) (list : List (Nat × Bytes)) : Prop where
  mem_iff : ∀ v bytes, (v, bytes) ∈ list ↔ holds v bytes
  pairwise : list.Pairwise fun a b => b.2 < a.2 ∨ a.2 = b.2 ∧ a.1 < b.1

theorem outranks_iff {a b : Nat × Bytes} :
    outranks a b = true ↔ b.2 < a.2 ∨ a.2 = b.2 ∧ a.1 ≤ b.1 := by
  simp only [outranks, Bool.or_eq_true, Bool.and_eq_true, decide_eq_true_eq, beq_iff_eq]
  rw [eq_comm (a := b.2)]

theorem pairwise_ranked (sizes : List (Nat × Bytes)) :
    (ranked sizes).Pairwise fun a b => b.2 < a.2 ∨ a.2 = b.2 ∧ a.1 ≤ b.1 := by
  have hsorted : (ranked sizes).Pairwise fun a b => outranks a b = true := by
    apply List.pairwise_mergeSort
    · intro a b c hab hbc
      rw [outranks_iff] at hab hbc ⊢
      grind
    · intro a b
      rw [Bool.or_eq_true, outranks_iff, outranks_iff]
      grind
  exact hsorted.imp outranks_iff.mp

/-- Sorting ranks the shares of a list that has at most one for each node. -/
theorem ranks_ranked {holds : Nat → Bytes → Prop} {sizes : List (Nat × Bytes)}
    (hnodup : (sizes.map Prod.fst).Nodup)
    (hmem : ∀ v bytes, (v, bytes) ∈ sizes ↔ holds v bytes) : Ranks holds (ranked sizes) := by
  have hperm : (ranked sizes).Perm sizes := List.mergeSort_perm _ _
  have hdistinct : (ranked sizes).Pairwise fun a b => a.1 ≠ b.1 :=
    List.pairwise_map.mp ((hperm.map Prod.fst).nodup_iff.mpr hnodup)
  refine ⟨?_, ?_⟩
  · intro v bytes
    rw [hperm.mem_iff, hmem]
  · refine ((pairwise_ranked sizes).and hdistinct).imp ?_
    rintro a b ⟨hmore | ⟨hsame, hle⟩, hne⟩
    · exact Or.inl hmore
    · exact Or.inr ⟨hsame, Nat.lt_of_le_of_ne hle hne⟩

theorem falls_of_ranks {holds : Nat → Bytes → Prop} {list : List (Nat × Bytes)}
    (h : Ranks holds list) : (list.map Prod.snd).Pairwise fun a b => b ≤ a := by
  rw [List.pairwise_map]
  refine h.pairwise.imp ?_
  rintro a b (hmore | ⟨hsame, _⟩)
  · exact UInt64.le_of_lt hmore
  · rw [hsame]
    exact UInt64.le_refl b.2

/-! ## The shares of a heap -/

/-- The nodes that retain anything of a heap, with their bytes. -/
def shares (table : RetainedTable) (heap : HeapId) : List (Nat × Bytes) :=
  match table.columns[heap.slot]? with
  | none => []
  | some column =>
    ((column.toList.take table.sentinelSlot).zipIdx.map fun (bytes, i) => (i, bytes)).filter
      fun share => share.2 ≠ 0

theorem largest_eq (table : RetainedTable) (heap : HeapId) (limit : Nat) :
    table.largest heap limit = (ranked (table.shares heap)).take limit := by
  unfold largest shares
  cases table.columns[heap.slot]? with
  | none => simp [ranked]
  | some column => rfl

theorem nodup_shares (table : RetainedTable) (heap : HeapId) :
    ((table.shares heap).map Prod.fst).Nodup := by
  unfold shares
  cases table.columns[heap.slot]? with
  | none => exact List.nodup_nil
  | some column =>
    simp only
    refine List.Nodup.sublist (List.filter_sublist.map Prod.fst) ?_
    rw [List.map_map]
    have hplaces := List.zipIdx_map_snd 0 (column.toList.take table.sentinelSlot)
    exact hplaces ▸ List.nodup_range'

section Shares

variable {t : DominatorTree} {g : HeapGraph} (h : t.IsOf g)

include h

theorem mem_shares {heap : HeapId} {v : Nat} {bytes : Bytes} :
    (v, bytes) ∈ (ofTree g t).shares heap ↔
      v < g.size ∧ (ofTree g t).size v heap = bytes ∧ 0 < bytes := by
  unfold shares size entry
  rw [sentinelSlot_ofTree h]
  cases (ofTree g t).columns[heap.slot]? with
  | none =>
    simp only [Option.bind_none, Option.getD_none, ite_self]
    grind
  | some column =>
    have hplace : (v, bytes) ∈ (column.toList.take g.size).zipIdx.map
        (fun (bytes, i) => (i, bytes)) ↔ v < g.size ∧ column[v]? = some bytes := by
      rw [List.mem_map]
      simp only [Prod.exists, Prod.mk.injEq, List.mem_zipIdx_iff_getElem?]
      simp [List.getElem?_take]
    simp only [List.mem_filter, hplace, decide_eq_true_eq, Option.bind_some]
    grind

theorem reachable_of_size_pos {heap : HeapId} {v : Nat} (hv : 0 < (ofTree g t).size v heap) :
    g.Reachable v := by
  by_contra hnot
  rw [UInt64.lt_iff_toNat_lt, toNat_size h, bytesWhere_of_not_reachable heap hnot] at hv
  simp at hv

end Shares

end RetainedTable

/-! ## Rankings in reports -/

namespace Report

/-- The line of a row with a figure in front. -/
def Row.lineOf (row : Row) (bytes : Bytes) : String :=
  let shares := (row.retained.filter fun share => share.2 ≠ 0).map fun (name, bytes) =>
    s!"{name}={count bytes.toNat}"
  let number := Text.padLeft 12 (count bytes.toNat)
  let parts := ", ".intercalate shares
  Report.line s!"{number}  {Text.padRight 18 row.id.text} {row.label}  [{parts}]"

theorem Row.line_eq {row : Row} {heap : Option String} {bytes : Bytes}
    (h : row.bytes heap = .ok bytes) : row.line heap = .ok (row.lineOf bytes) := by
  unfold Row.line
  rw [h]
  rfl

/-- The row is that of the node that holds the share, and its figure is the share's bytes. -/
structure RowShows (g : HeapGraph) (heap : Option String) (share : Nat × Bytes) (row : Row) :
    Prop where
  node : g.indexOf? row.id = some share.1
  bytes : row.bytes heap = .ok share.2

/-- The report has one row for each share, in their order. The text has a line for each row with
the bytes of the share as its figure, and no figure is larger than the one before it. -/
structure ShowsShares (g : HeapGraph) (t : DominatorTree) (table : RetainedTable)
    (heap : Option String) (top : Nat) (shares : List (Nat × Bytes)) : Prop where
  rows : ∃ rows, ranking g t table heap top = .ok rows ∧
    List.Forall₂ (RowShows g heap) shares rows ∧
    retained g t table heap top false =
      .ok (String.join (List.zipWith (fun share row => row.lineOf share.2) shares rows))
  falls : (shares.map Prod.snd).Pairwise fun a b => b ≤ a

theorem mapM_line {g : HeapGraph} {heap : Option String} {shares : List (Nat × Bytes)}
    {rows : List Row} (h : List.Forall₂ (RowShows g heap) shares rows) :
    rows.mapM (Row.line heap) =
      .ok (List.zipWith (fun share row => row.lineOf share.2) shares rows) := by
  induction h with
  | nil => rfl
  | cons hrow _ ih =>
    rw [List.mapM_cons, Row.line_eq hrow.bytes, ih]
    rfl

theorem showsShares {g : HeapGraph} {t : DominatorTree} {table : RetainedTable}
    {heap : Option String} {top : Nat} {shares : List (Nat × Bytes)}
    (hranking : ranking g t table heap top =
      .ok (shares.filterMap fun share => row? g table share.1))
    (hlt : ∀ share ∈ shares, share.1 < g.size)
    (hbytes : ∀ share ∈ shares, ∀ row, row? g table share.1 = some row →
      row.bytes heap = .ok share.2)
    (hfalls : (shares.map Prod.snd).Pairwise fun a b => b ≤ a) :
    ShowsShares g t table heap top shares := by
  have hrows : List.Forall₂ (RowShows g heap) shares
      (shares.filterMap fun share => row? g table share.1) := by
    apply forall₂_filterMap
    intro share hshare
    obtain ⟨node, hnode⟩ := HeapGraph.exists_node (hlt share hshare)
    have hrow : row? g table share.1 = some ⟨node.id, label g node, table.byName g share.1⟩ := by
      rw [row?, hnode]
      rfl
    refine ⟨_, hrow, ?_, hbytes share hshare _ hrow⟩
    rw [g.indexOf?_eq_some_iff, hnode]
    rfl
  refine ⟨⟨_, hranking, hrows, ?_⟩, hfalls⟩
  simp only [retained, hranking]
  exact congrArg (Except.map String.join) (mapM_line hrows)

/-! ## The figures of rows -/

/-- The figure of a row that is ranked by one heap is what the node retains of that heap. -/
theorem bytes_named {g : HeapGraph} {table : RetainedTable} {name : String} {heap : HeapId}
    (hheap : g.heapNamed? name = some heap) {v : Nat} {row : Row}
    (hrow : row? g table v = some row) : row.bytes (some name) = .ok (table.size v heap) := by
  obtain ⟨node, _, rfl⟩ := Option.map_eq_some_iff.mp hrow
  have hmem : (name, table.size v heap) ∈ table.byName g v :=
    RetainedTable.mem_byName.mpr ⟨heap, hheap, rfl⟩
  simp only [Row.bytes, find?_key (table.nodup_names_byName g v) hmem]
  rfl

section Sums

variable {t : DominatorTree} {g : HeapGraph} (h : t.IsOf g)

include h

theorem bytes_unnamed {v : Nat} {bytes : Bytes}
    (htotal : (RetainedTable.ofTree g t).total? v = some bytes) {row : Row}
    (hrow : row? g (.ofTree g t) v = some row) : row.bytes none = .ok bytes := by
  obtain ⟨node, _, rfl⟩ := Option.map_eq_some_iff.mp hrow
  rw [RetainedTable.total?_ofTree h] at htotal
  simp only [Row.bytes, RetainedTable.sum?_byName h, htotal]
  rfl

/-- Where no sum is too large, each reachable node has its total. -/
theorem totals_eq {table : RetainedTable} (hall : ∀ v, g.Reachable v → table.total? v ≠ none) :
    ∃ all, totals t table = .ok all ∧ (all.map Prod.fst).Nodup ∧
      ∀ v bytes, (v, bytes) ∈ all ↔ g.Reachable v ∧ table.total? v = some bytes := by
  have hvalue : ∀ v ∈ t.order, (needed (table.total? v)).map (fun bytes => (v, bytes)) =
      .ok (v, (table.total? v).getD 0) := by
    intro v hv
    obtain ⟨bytes, hbytes⟩ := Option.ne_none_iff_exists'.mp (hall v ((h.mem_order v).mp hv))
    rw [hbytes]
    rfl
  refine ⟨_, mapM_eq_map hvalue, ?_, ?_⟩
  · rw [List.map_map]
    simpa [Function.comp_def] using h.nodup_order
  · intro v bytes
    simp only [List.mem_map, Prod.mk.injEq, h.mem_order]
    refine ⟨?_, ?_⟩
    · rintro ⟨_, hv, rfl, rfl⟩
      obtain ⟨bytes, hbytes⟩ := Option.ne_none_iff_exists'.mp (hall _ hv)
      exact ⟨hv, by rw [hbytes]; rfl⟩
    · rintro ⟨hv, hbytes⟩
      exact ⟨v, hv, rfl, by rw [hbytes]; rfl⟩

end Sums

end Report

open RetainedTable Report in
/-- For one heap the nodes that retain anything of it are ranked, and over all heaps, where no sum
is too large, all reachable nodes. Whatever the limit, the answer and the report show the top of
that one list. -/
theorem rankings_show_the_top_of_one_list (g : HeapGraph) :
    ∃ t, DominatorTree.ofGraph g = .ok t ∧
      (∀ heap, ∃ list,
        Ranks (fun v bytes => v < g.size ∧ (ofTree g t).size v heap = bytes ∧ 0 < bytes) list ∧
        (∀ limit, (ofTree g t).largest heap limit = list.take limit) ∧
        (∀ limit, ∀ share ∈ (ofTree g t).largest heap limit, g.Reachable share.1) ∧
        (∀ limit limit', limit ≤ limit' →
          (ofTree g t).largest heap limit <+: (ofTree g t).largest heap limit') ∧
        ∀ name, g.heapNamed? name = some heap → ∀ top,
          ShowsShares g t (ofTree g t) (some name) top (list.take top)) ∧
      ((∀ v, g.Reachable v → (ofTree g t).total? v ≠ none) → ∃ list,
        Ranks (fun v bytes => g.Reachable v ∧ (ofTree g t).total? v = some bytes) list ∧
        ∀ top, ShowsShares g t (ofTree g t) none top (list.take top)) := by
  obtain ⟨t, hsearch, h⟩ := DominatorTree.exists_tree g
  refine ⟨t, hsearch, ?_, ?_⟩
  · intro heap
    have hranks := ranks_ranked (nodup_shares (ofTree g t) heap) fun _ _ => mem_shares h
    refine ⟨_, hranks, largest_eq _ heap, ?_, ?_, ?_⟩
    · intro limit share hshare
      rw [largest_eq] at hshare
      obtain ⟨_, hbytes, hpos⟩ := (hranks.mem_iff _ _).mp (List.mem_of_mem_take hshare)
      exact reachable_of_size_pos h (hbytes ▸ hpos)
    · intro limit limit' hle
      rw [largest_eq, largest_eq]
      exact List.take_prefix_take_left hle
    · intro name hheap top
      apply showsShares
      · simp only [ranking, hheap, largest_eq]
        rfl
      · intro share hshare
        exact ((hranks.mem_iff _ _).mp (List.mem_of_mem_take hshare)).1
      · intro share hshare row hrow
        obtain ⟨_, hbytes, _⟩ := (hranks.mem_iff _ _).mp (List.mem_of_mem_take hshare)
        rw [bytes_named hheap hrow, hbytes]
      · exact (falls_of_ranks hranks).sublist ((List.take_sublist _ _).map _)
  · intro hall
    obtain ⟨all, htotals, hnodup, hmem⟩ := totals_eq h hall
    have hranks := ranks_ranked hnodup hmem
    refine ⟨_, hranks, fun top => ?_⟩
    apply showsShares
    · simp only [ranking, htotals]
      rfl
    · intro share hshare
      exact HeapGraph.reachable_lt ((hranks.mem_iff _ _).mp (List.mem_of_mem_take hshare)).1
    · intro share hshare row hrow
      exact bytes_unnamed h ((hranks.mem_iff _ _).mp (List.mem_of_mem_take hshare)).2 hrow
    · exact (falls_of_ranks hranks).sublist ((List.take_sublist _ _).map _)

/-- A root that retains as much of one heap as the node below it, and a lost node. -/
def tiedHeaps : List Recording.Call :=
  List.flatten [
    [.heap "zygote", .heap "app", .root ⟨1⟩ .threadObject],
    List.zipWith (fun n heap => .node ⟨⟨n⟩, ⟨heap⟩, .instanceOf none, .bytes (10 * n)⟩)
      [1, 2, 3, 4, 5] [1, 0, 1, 1, 1],
    [.references ⟨1⟩ [⟨2⟩, ⟨3⟩], .reference ⟨3⟩ ⟨4⟩, .reference ⟨5⟩ ⟨1⟩]]

open RetainedTable Report in
/-- Of two nodes that retain as much, the one with the smaller index is shown first. -/
theorem the_earlier_of_two_tied_nodes_is_shown_first :
    ∃ g t, (Recording.replay .four tiedHeaps).build = .ok g ∧ DominatorTree.ofGraph g = .ok t ∧
      g.heapNamed? "zygote" = some ⟨0⟩ ∧
      ShowsShares g t (ofTree g t) (some "zygote") 10 [(0, 20), (1, 20)] ∧
      (∀ v, g.Reachable v → (ofTree g t).total? v ≠ none) ∧
      ∃ list, Ranks (fun v bytes => g.Reachable v ∧ (ofTree g t).total? v = some bytes) list ∧
        ShowsShares g t (ofTree g t) none 3 (list.take 3) := by
  have hrun : ((Recording.replay .four tiedHeaps).build.toOption.bind fun g =>
      (DominatorTree.ofGraph g).toOption.map fun t =>
        (g.heapNamed? "zygote", (ofTree g t).largest ⟨0⟩ 10,
          t.order.all fun v => ((ofTree g t).total? v).isSome)) =
      some (some ⟨0⟩, [(0, 20), (1, 20)], true) := by
    cbv
  obtain ⟨g, t, hbuild, hsearch, hseen⟩ := DominatorTree.exists_of_run hrun
  simp only [Prod.mk.injEq] at hseen
  obtain ⟨hheap, hlargest, htotals⟩ := hseen
  have h : t.IsOf g := DominatorTree.holds_of_ofGraph (DominatorTree.exists_tree g) hsearch
  obtain ⟨hnamed, hunnamed⟩ := DominatorTree.holds_of_ofGraph
    (rankings_show_the_top_of_one_list g) hsearch
  obtain ⟨list, _, htop, _, _, hshows⟩ := hnamed ⟨0⟩
  have hall : ∀ v, g.Reachable v → (ofTree g t).total? v ≠ none := by
    intro v hv
    have hsome := List.all_eq_true.mp htotals v ((h.mem_order v).mpr hv)
    exact Option.isSome_iff_ne_none.mp hsome
  obtain ⟨totals, hranks, hall'⟩ := hunnamed hall
  refine ⟨g, t, hbuild, hsearch, hheap, ?_, hall, totals, hranks, hall' 3⟩
  rw [← hlargest, htop]
  exact hshows "zygote" hheap 10

end HeapRetention
