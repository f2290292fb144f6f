-- The laws of sums over heaps. What a node retains of one heap is cut at the
-- largest count, but a sum over several heaps is not: it has a value exactly
-- where the shares of all heaps add up to a count, and a report that needs a
-- larger sum has no text. All reports fit once the reachable bytes do, and
-- those of a single heap always do.
import HeapRetention.Report
import HeapRetention.Proofs.Cache
import HeapRetention.Proofs.Lists
import HeapRetention.Proofs.RetainedBytes

namespace HeapRetention

/-! ## Exact sums over heaps -/

namespace HeapGraph

/-- What a node retains over all heaps, where each share is cut at the largest count. -/
noncomputable def retainedTotal (g : HeapGraph) (v : Nat) : Nat :=
  (g.heapIds.map fun heap =>
    min (g.bytesWhere heap fun w => g.Reachable w ∧ g.OnEveryPath v w) Bytes.most).sum

/-- The reachable bytes of all heaps, where each share is cut at the largest count. -/
noncomputable def reachableTotal (g : HeapGraph) : Nat :=
  (g.heapIds.map fun heap => min (g.bytesWhere heap g.Reachable) Bytes.most).sum

/-- No node retains more than all reachable nodes have. -/
theorem retainedTotal_le (g : HeapGraph) (v : Nat) : g.retainedTotal v ≤ g.reachableTotal := by
  apply List.sum_le_sum
  intro heap _
  have hle : (g.bytesWhere heap fun w => g.Reachable w ∧ g.OnEveryPath v w) ≤
      g.bytesWhere heap g.Reachable := RetainedTable.bytesWhere_mono heap fun _ hw => hw.1
  omega

theorem retainedTotal_of_not_reachable {g : HeapGraph} {v : Nat} (hv : ¬ g.Reachable v) :
    g.retainedTotal v = 0 := by
  apply List.sum_eq_zero
  intro share hshare
  obtain ⟨heap, _, rfl⟩ := List.mem_map.mp hshare
  rw [RetainedTable.bytesWhere_of_not_reachable heap hv, Nat.zero_min]

/-- A bound on what reachable nodes retain is one on what any node retains. -/
theorem retainedTotal_le_of_reachable {g : HeapGraph} {bound : Nat}
    (h : ∀ v, g.Reachable v → g.retainedTotal v ≤ bound) (v : Nat) :
    g.retainedTotal v ≤ bound := by
  by_cases hv : g.Reachable v
  · exact h v hv
  · rw [retainedTotal_of_not_reachable hv]
    exact Nat.zero_le _

/-- The reachable bytes of a single heap are a count. -/
theorem reachableTotal_le_of_one_heap {g : HeapGraph} (h : g.heaps.size ≤ 1) :
    g.reachableTotal ≤ Bytes.most := by
  rcases Nat.le_one_iff_eq_zero_or_eq_one.mp h with hnone | hone
  · simp [reachableTotal, heapIds, hnone]
  · simp [reachableTotal, heapIds, hone]

/-- The heaps in order of their names are the heaps of the table. -/
theorem perm_heapsByName (g : HeapGraph) : (g.heapsByName.map Prod.snd).Perm g.heapIds := by
  have hids : (g.heaps.toList.zip g.heapIds).map Prod.snd = g.heapIds :=
    List.map_snd_zip (by simp [heapIds])
  have hperm := (List.mergeSort_perm (g.heaps.toList.zip g.heapIds)
    fun a b => decide (a.1 ≤ b.1)).map Prod.snd
  rwa [hids] at hperm

end HeapGraph

namespace Bytes

/-- A natural number as a count, where it is one. -/
def ofNat? (n : Nat) : Option Bytes := if n ≤ most then some (UInt64.ofNat n) else none

theorem ofNat?_of_le {n : Nat} (h : n ≤ most) : ofNat? n = some (UInt64.ofNat n) := if_pos h

theorem ofNat?_eq_none_iff {n : Nat} : ofNat? n = none ↔ ¬ n ≤ most := by
  unfold ofNat?
  split <;> simp [*]

theorem sum?_eq {counts : List Bytes} {total : Nat} (h : (counts.map UInt64.toNat).sum = total) :
    sum? counts = ofNat? total := by
  rw [sum?, sum_eq, h, ofNat?]

end Bytes

namespace RetainedTable

theorem sum_entries (g : HeapGraph) (t : DominatorTree) (slot : Nat) :
    (((ofTree g t).entries slot).map UInt64.toNat).sum =
      (g.heapIds.map fun heap => ((ofTree g t).entry heap.slot slot).toNat).sum := by
  have hsize : (ofTree g t).columns.size = g.heaps.size := by
    simp [ofTree, HeapGraph.heapIds]
  rw [entries, hsize, HeapGraph.heapIds, List.map_map, List.map_map]
  congr 1
  apply List.map_congr_left
  intro heap hheap
  simp only [Function.comp_apply, g.slot_ofSlot (List.mem_range.mp hheap)]

section Totals

variable {t : DominatorTree} {g : HeapGraph} (h : t.IsOf g)

include h

theorem total?_ofTree (v : Nat) :
    (ofTree g t).total? v = Bytes.ofNat? (g.retainedTotal v) := by
  unfold total?
  rw [sentinelSlot_ofTree h]
  by_cases hv : v < g.size
  · rw [if_pos hv]
    apply Bytes.sum?_eq
    rw [sum_entries]
    simp only [toNat_entry h, sum_nodesBelow_node h _ (Nat.ne_of_lt hv)]
    rfl
  · have hnot : ¬ g.Reachable v := fun hreach => hv (HeapGraph.reachable_lt hreach)
    rw [if_neg hv, HeapGraph.retainedTotal_of_not_reachable hnot]
    rfl

theorem sentinelTotal?_ofTree :
    (ofTree g t).sentinelTotal? = Bytes.ofNat? g.reachableTotal := by
  unfold sentinelTotal?
  rw [sentinelSlot_ofTree h]
  apply Bytes.sum?_eq
  rw [sum_entries]
  simp only [toNat_entry h, sum_nodesBelow_sentinel h]
  rfl

/-- The shares by name add up to the same sum as those in table order. -/
theorem sum?_byName (v : Nat) :
    Bytes.sum? (((ofTree g t).byName g v).map Prod.snd) = Bytes.ofNat? (g.retainedTotal v) := by
  apply Bytes.sum?_eq
  have hshares : (((ofTree g t).byName g v).map Prod.snd).map UInt64.toNat =
      (g.heapsByName.map Prod.snd).map fun heap => ((ofTree g t).size v heap).toNat := by
    simp [byName]
  rw [hshares, (g.perm_heapsByName.map _).sum_eq]
  simp only [toNat_size h]
  rfl

end Totals

end RetainedTable

/-! ## Reports with sums -/

namespace Report

/-- A report has a text where a condition holds, and elsewhere it needs a sum that is no count. -/
structure TextWhere (fits : Prop) (report : Except ReportError String) : Prop where
  text : fits → ∃ text, report = .ok text
  overflow : ¬ fits → report = .error .overflow

/-- A report that has rows has a text if the bytes of each row are a count. -/
theorem retained_of_ranking {g : HeapGraph} {t : DominatorTree} {table : RetainedTable}
    {heap : Option String} {top : Nat} {rows : List Row}
    (hrows : ranking g t table heap top = .ok rows)
    (hbytes : ∀ row ∈ rows, ∃ bytes, row.bytes heap = .ok bytes) (json : Bool)
    (write : Data → String) : ∃ text, retained g t table heap top json write = .ok text := by
  unfold retained
  rw [hrows]
  cases json with
  | true => exact ⟨_, rfl⟩
  | false =>
    have hlines : ∀ row ∈ rows, ∃ line, Row.line heap row = .ok line := by
      intro row hrow
      obtain ⟨bytes, hrowbytes⟩ := hbytes row hrow
      rw [Row.line, hrowbytes]
      exact ⟨_, rfl⟩
    choose! line hline using hlines
    exact ⟨String.join (rows.map line), congrArg (Except.map String.join) (mapM_eq_map hline)⟩

/-- A ranking by one heap needs no sum. -/
theorem retained_named {g : HeapGraph} (t : DominatorTree) (table : RetainedTable) {name : String}
    {heap : HeapId} (hheap : g.heapNamed? name = some heap) (top : Nat) (json : Bool)
    (write : Data → String) : ∃ text, retained g t table (some name) top json write = .ok text := by
  have hrows : ranking g t table (some name) top =
      .ok ((table.largest heap top).filterMap fun share => row? g table share.1) := by
    simp only [ranking, hheap]
    rfl
  exact retained_of_ranking hrows (fun _ _ => ⟨_, rfl⟩) json write

theorem retained_unnamed {g : HeapGraph} (t : DominatorTree) (table : RetainedTable)
    {name : String} (hheap : g.heapNamed? name = none) (top : Nat) (json : Bool)
    (write : Data → String) :
    retained g t table (some name) top json write = .error (.unknownHeap name) := by
  simp only [retained, ranking, hheap]
  rfl

section Sums

variable {t : DominatorTree} {g : HeapGraph} (h : t.IsOf g)

include h

theorem textWhere_summary :
    TextWhere (g.reachableTotal ≤ Bytes.most) (summary g t (.ofTree g t)) := by
  unfold summary
  rw [RetainedTable.sentinelTotal?_ofTree h]
  refine ⟨?_, ?_⟩
  · intro hfits
    rw [Bytes.ofNat?_of_le hfits]
    exact ⟨_, rfl⟩
  · intro hover
    rw [Bytes.ofNat?_eq_none_iff.mpr hover]
    rfl

theorem exists_totals (hall : ∀ v, g.retainedTotal v ≤ Bytes.most) :
    ∃ all, totals t (.ofTree g t) = .ok all := by
  refine ⟨t.order.map fun v => (v, UInt64.ofNat (g.retainedTotal v)), mapM_eq_map ?_⟩
  intro v _
  rw [RetainedTable.total?_ofTree h, Bytes.ofNat?_of_le (hall v)]
  rfl

theorem totals_overflow {v : Nat} (hv : g.Reachable v)
    (hlarge : ¬ g.retainedTotal v ≤ Bytes.most) : totals t (.ofTree g t) = .error .overflow := by
  refine mapM_error ?_ ((h.mem_order v).mpr hv) ?_
  · intro w
    cases (RetainedTable.ofTree g t).total? w with
    | none => exact Or.inl rfl
    | some _ => exact Or.inr ⟨_, rfl⟩
  · rw [RetainedTable.total?_ofTree h, Bytes.ofNat?_eq_none_iff.mpr hlarge]
    rfl

/-- The bytes of a row over all heaps are the sum that the node was ranked by. -/
theorem exists_bytes (hall : ∀ v, g.retainedTotal v ≤ Bytes.most) {v : Nat} {row : Row}
    (hrow : row? g (.ofTree g t) v = some row) : ∃ bytes, row.bytes none = .ok bytes := by
  obtain ⟨node, _, rfl⟩ := Option.map_eq_some_iff.mp hrow
  simp only [Row.bytes, RetainedTable.sum?_byName h, Bytes.ofNat?_of_le (hall v)]
  exact ⟨_, rfl⟩

/-- A ranking over all heaps needs the sum of each reachable node, even of those that it leaves
out. -/
theorem textWhere_retained (top : Nat) (json : Bool) (write : Data → String) :
    TextWhere (∀ v, g.Reachable v → g.retainedTotal v ≤ Bytes.most)
      (retained g t (.ofTree g t) none top json write) := by
  refine ⟨?_, ?_⟩
  · intro hfits
    have hall := HeapGraph.retainedTotal_le_of_reachable hfits
    obtain ⟨all, hsums⟩ := exists_totals h hall
    have hrows : ranking g t (.ofTree g t) none top = .ok
        (((RetainedTable.ranked all).take top).filterMap fun share =>
          row? g (.ofTree g t) share.1) := by
      simp only [ranking, hsums]
      rfl
    refine retained_of_ranking hrows ?_ json write
    intro row hrow
    obtain ⟨share, _, hshare⟩ := List.mem_filterMap.mp hrow
    exact exists_bytes h hall hshare
  · intro hover
    obtain ⟨v, hv⟩ := not_forall.mp hover
    obtain ⟨hreach, hlarge⟩ := Classical.not_imp.mp hv
    simp only [retained, ranking, totals_overflow h hreach hlarge]
    rfl

end Sums

end Report

/-! ## Reports of a session -/

/-- What a search finds is the tree of the graph, whatever its limit on passes. -/
theorem DominatorTree.ofGraph_of_search {g : HeapGraph} {maxPasses : Option UInt64}
    {t : DominatorTree} (ht : search g maxPasses false = .ok t) : ofGraph g = .ok t := by
  obtain ⟨t', hsearch, _⟩ := exists_tree g
  cases maxPasses with
  | none => exact ht
  | some limit =>
    rw [search_limited hsearch] at ht
    split at ht
    · rwa [← Except.ok.inj ht]
    · cases ht

theorem DominatorTree.isOf_of_search {g : HeapGraph} {maxPasses : Option UInt64}
    {t : DominatorTree} (ht : search g maxPasses false = .ok t) : t.IsOf g := by
  obtain ⟨t', hsearch, h⟩ := exists_tree g
  rw [ofGraph_of_search ht] at hsearch
  exact Except.ok.inj hsearch ▸ h

namespace Session

theorem table_dominators (s : Session) : s.dominators.2.table = s.table := by
  unfold dominators
  split
  · rfl
  · split
    · rfl
    · rfl
    · rfl

/-! ### What a session goes on with -/

/-- Whatever the log says, the session goes on as it does after a call for the sizes or for the
tree. -/
theorem exists_question_of_retainedLogged (s : Session) (detailed : Bool) :
    ∃ question, (s.retainedLogged .search (logSizes detailed)).2 = s.perform (.ask question) := by
  cases htable : s.table with
  | some table =>
    refine ⟨.retained, ?_⟩
    simp only [retainedLogged, htable, perform, ask, told, retained_eq]
  | none =>
    cases hanswer : s.dominators with
    | mk answer s' =>
      cases answer with
      | error error =>
        refine ⟨.retained, ?_⟩
        simp only [retainedLogged, htable, hanswer, perform, ask, told, retained_eq]
      | ok t =>
        simp only [retainedLogged, htable, hanswer]
        split
        · refine ⟨.dominators, ?_⟩
          simp only [perform, ask, told, hanswer]
        · refine ⟨.retained, ?_⟩
          simp only [perform, ask, told, retained_eq, htable, hanswer]

/-- A session goes on after a report as it does after some calls. -/
theorem exists_calls_of_report (s : Session) (detailed : Bool) (request : ReportRequest)
    (write : Data → String) : ∃ calls, (s.report detailed request write).2 = s.after calls := by
  have hdominators : s.dominators.2 = s.after [.ask .dominators] := rfl
  have hartifacts : ∃ calls, (s.artifacts detailed).2 = s.after calls := by
    unfold artifacts
    generalize s.dominators = r at hdominators
    obtain ⟨answer, s'⟩ := r
    cases answer with
    | error error => exact ⟨_, hdominators⟩
    | ok t =>
      obtain ⟨question, hquestion⟩ := exists_question_of_retainedLogged s' detailed
      refine ⟨[.ask .dominators, .ask question], ?_⟩
      simp only at hdominators ⊢
      rw [hquestion, hdominators]
      rfl
  cases request with
  | summary => exact hartifacts
  | retained heap top json => exact hartifacts
  | dominators json =>
    refine ⟨[.ask .dominators], ?_⟩
    rw [← hdominators, report]
    generalize s.dominators = r
    obtain ⟨answer, s'⟩ := r
    cases answer with
    | error error => rfl
    | ok t => rfl
  | path id =>
    have hpath : (s.dominatorPath id).2 = s.after [.ask (.dominatorPath id)] := rfl
    simp only [report]
    cases s.graph.find? id with
    | none => exact ⟨[], rfl⟩
    | some node =>
      refine ⟨[.ask (.dominatorPath id)], ?_⟩
      rw [← hpath]
      generalize s.dominatorPath id = r
      obtain ⟨answer, s'⟩ := r
      cases answer with
      | error error => rfl
      | ok chain => rfl

/-! ### Reports once there is a tree -/

/-- A detailed log has its sum where the reachable bytes are a count. -/
theorem logSizes_eq {t : DominatorTree} {g : HeapGraph} (h : t.IsOf g) (detailed : Bool) :
    logSizes detailed (.ofTree g t) =
      if detailed = true ∧ ¬ g.reachableTotal ≤ Bytes.most then .error .overflow else .ok () := by
  unfold logSizes
  rw [RetainedTable.sentinelTotal?_ofTree h]
  cases detailed with
  | false => simp
  | true =>
    by_cases hfits : g.reachableTotal ≤ Bytes.most
    · rw [if_pos rfl, Bytes.ofNat?_of_le hfits, if_neg fun hover => hover.2 hfits]
      rfl
    · rw [if_pos rfl, Bytes.ofNat?_eq_none_iff.mpr hfits, if_pos (And.intro rfl hfits)]
      rfl

section Dominated

variable {g : HeapGraph} {settings : Settings} {workers : Workers} {s : Session}
  {t : DominatorTree} (hworkers : workers.KeepsOrder) (h : Sound g settings workers s)
  (ht : s.dominators.1 = .ok t)

include hworkers h ht

/-- Sizes that are kept are answered without a look at the log. -/
theorem retainedLogged_of_dominators {ε : Type} (failed : SearchError → ε)
    (log : RetainedTable → Except ε Unit) :
    (s.retainedLogged failed log).2.graph = g ∧ (s.retainedLogged failed log).1 =
      if s.table = none then (log (.ofTree g t)).map fun _ => .ofTree g t
      else .ok (.ofTree g t) := by
  unfold retainedLogged
  cases htable : s.table with
  | some table =>
    obtain ⟨t', htree, rfl⟩ := h.table_of_tree table htable
    rw [dominators_of_tree htree] at ht
    obtain rfl := Except.ok.inj ht
    refine ⟨h.graph_eq, ?_⟩
    rw [RetainedTable.compute_eq hworkers]
    rfl
  | none =>
    -- the table is made for the session that the search left
    have hsound := sound_of_outcome h (dominators_outcome h)
    generalize s.dominators = r at ht hsound
    obtain ⟨answer, s'⟩ := r
    obtain rfl : answer = .ok t := ht
    obtain ⟨hgraph, hsettings, hown, _, _⟩ := hsound
    simp only at hgraph hsettings hown
    simp only [hgraph, hsettings, hown, RetainedTable.compute_eq hworkers, if_pos]
    cases log (.ofTree g t) with
    | error error => exact ⟨hgraph, rfl⟩
    | ok _ => exact ⟨rfl, rfl⟩

theorem retained_of_dominators : s.retained.1 = .ok (.ofTree g t) := by
  obtain ⟨_, hretained⟩ := retainedLogged_of_dominators hworkers h ht id fun _ => .ok ()
  rw [retained, hretained]
  split
  · rfl
  · rfl

/-- Sizes that have to be computed under a detailed log need the sum that it names. -/
theorem retainedLogged_logSizes (detailed : Bool) :
    (s.retainedLogged .search (logSizes detailed)).1 =
      if detailed = true ∧ s.table = none ∧ ¬ g.reachableTotal ≤ Bytes.most then
        .error .overflow
      else .ok (.ofTree g t) := by
  have hisOf := DominatorTree.isOf_of_search (fresh_of_outcome (dominators_outcome h) ht)
  rw [(retainedLogged_of_dominators hworkers h ht .search (logSizes detailed)).2,
    logSizes_eq hisOf]
  by_cases htable : s.table = none
  · by_cases hstop : detailed = true ∧ ¬ g.reachableTotal ≤ Bytes.most
    · rw [if_pos htable, if_pos hstop, if_pos ⟨hstop.1, htable, hstop.2⟩]
      rfl
    · rw [if_pos htable, if_neg hstop, if_neg fun hall => hstop ⟨hall.1, hall.2.2⟩]
      rfl
  · rw [if_neg htable, if_neg fun hall => htable hall.2.1]

/-- Once there is a tree, only the sum that a detailed log needs can stop a report of sizes before
it begins. -/
theorem artifacts_of_dominators (detailed : Bool) :
    (s.artifacts detailed).2.graph = g ∧ (s.artifacts detailed).1 =
      if detailed = true ∧ s.table = none ∧ ¬ g.reachableTotal ≤ Bytes.most then
        .error .overflow
      else .ok (t, .ofTree g t) := by
  have hsound := sound_of_outcome h (dominators_outcome h)
  have htree := dominators_of_tree (tree_of_dominators ht)
  have htable := table_dominators s
  -- the retained sizes are asked of the session that the search for the tree left
  unfold artifacts
  generalize s.dominators = r at ht hsound htree htable
  obtain ⟨answer, s'⟩ := r
  obtain rfl : answer = .ok t := ht
  have hagain := congrArg Prod.fst htree
  obtain ⟨hgraph, _⟩ :=
    retainedLogged_of_dominators hworkers hsound hagain .search (logSizes detailed)
  refine ⟨hgraph, ?_⟩
  simp only at htable
  simp only [retainedLogged_logSizes hworkers hsound hagain, htable]
  split
  · rfl
  · rfl

/-- A report that is made from the tree and the retained sizes has its text where it fits and the
log does. -/
theorem textWhere_report (request : ReportRequest) (detailed : Bool) (write : Data → String)
    {fits : Prop}
    (report : HeapGraph → DominatorTree → RetainedTable → Except ReportError String)
    (hrequest : (s.report detailed request write).1 =
      (s.artifacts detailed).1.bind fun found =>
        report (s.artifacts detailed).2.graph found.1 found.2)
    (hreport : Report.TextWhere fits (report g t (.ofTree g t))) :
    Report.TextWhere
      (fits ∧ (detailed = true → s.table = none → g.reachableTotal ≤ Bytes.most))
      (s.report detailed request write).1 := by
  obtain ⟨hgraph, hartifacts⟩ := artifacts_of_dominators hworkers h ht detailed
  rw [hrequest, hgraph, hartifacts]
  refine ⟨?_, ?_⟩
  · rintro ⟨hfits, hlog⟩
    rw [if_neg (fun hstop => hstop.2.2 (hlog hstop.1 hstop.2.1))]
    exact hreport.text hfits
  · intro hover
    by_cases hstop : detailed = true ∧ s.table = none ∧ ¬ g.reachableTotal ≤ Bytes.most
    · rw [if_pos hstop]
      rfl
    · rw [if_neg hstop]
      refine hreport.overflow fun hfits => hover ⟨hfits, ?_⟩
      intro hdetailed htable
      by_contra hlarge
      exact hstop ⟨hdetailed, htable, hlarge⟩

end Dominated

/-- Once a session has its tree, the sums over all heaps have values exactly where they are counts,
and the reports that need them have texts exactly there. A report about one heap needs no such sum.
Sizes that have to be computed under a detailed log need the reachable bytes of all heaps, and sizes
that are kept do not. All sums are counts where the reachable bytes are one, as in every graph with
a single heap. A session goes on after a report as it does after some calls. -/
theorem reports_have_texts_where_sums_over_heaps_are_counts (g : HeapGraph) (settings : Settings)
    (tokens : TokenStore) {workers : Workers} (hworkers : workers.KeepsOrder)
    (write : Data → String) (calls : List Call) {t : DominatorTree}
    (ht : ((start g settings tokens workers).after calls).dominators.1 = .ok t) :
    let s := (start g settings tokens workers).after calls
    (∃ table, s.retained.1 = .ok table ∧
      (∀ v, table.total? v = Bytes.ofNat? (g.retainedTotal v)) ∧
      table.sentinelTotal? = Bytes.ofNat? g.reachableTotal ∧
      ∀ detailed, (s.retainedLogged .search (logSizes detailed)).1 =
        if detailed = true ∧ s.table = none ∧ ¬ g.reachableTotal ≤ Bytes.most then
          .error .overflow
        else .ok table) ∧
    (∀ detailed, Report.TextWhere (g.reachableTotal ≤ Bytes.most)
      (s.report detailed .summary write).1) ∧
    (∀ detailed top json, Report.TextWhere
      ((∀ v, g.Reachable v → g.retainedTotal v ≤ Bytes.most) ∧
        (detailed = true → s.table = none → g.reachableTotal ≤ Bytes.most))
      (s.report detailed (.retained none top json) write).1) ∧
    (∀ detailed name top json, (g.heapNamed? name).isSome →
      Report.TextWhere (detailed = true → s.table = none → g.reachableTotal ≤ Bytes.most)
        (s.report detailed (.retained (some name) top json) write).1) ∧
    (∀ name top json, g.heapNamed? name = none →
      (s.report false (.retained (some name) top json) write).1 = .error (.unknownHeap name)) ∧
    (∀ v, g.retainedTotal v ≤ g.reachableTotal) ∧
    (g.heaps.size ≤ 1 → g.reachableTotal ≤ Bytes.most) ∧
    ∀ detailed request, ∃ more, (s.report detailed request write).2 = s.after more := by
  intro s
  have h : Sound g settings workers s := sound_after (sound_start g settings tokens workers) calls
  have hisOf := DominatorTree.isOf_of_search (fresh_of_outcome (dominators_outcome h) ht)
  refine ⟨⟨_, retained_of_dominators hworkers h ht, ?_, ?_, ?_⟩, ?_, ?_, ?_, ?_,
    g.retainedTotal_le, HeapGraph.reachableTotal_le_of_one_heap, ?_⟩
  · exact fun v => RetainedTable.total?_ofTree hisOf v
  · exact RetainedTable.sentinelTotal?_ofTree hisOf
  · exact retainedLogged_logSizes hworkers h ht
  · intro detailed
    have htext := textWhere_report hworkers h ht .summary detailed write Report.summary rfl
      (Report.textWhere_summary hisOf)
    rwa [and_iff_left_of_imp fun hfits _ _ => hfits] at htext
  · intro detailed top json
    exact textWhere_report hworkers h ht (.retained none top json) detailed write
      (fun g t table => Report.retained g t table none top.toNat json write) rfl
      (Report.textWhere_retained hisOf top.toNat json write)
  · intro detailed name top json hname
    obtain ⟨heap, hheap⟩ := Option.isSome_iff_exists.mp hname
    have hnamed : Report.TextWhere True
        (Report.retained g t (.ofTree g t) (some name) top.toNat json write) :=
      ⟨fun _ => Report.retained_named t _ hheap top.toNat json write,
        fun hnot => absurd trivial hnot⟩
    have htext := textWhere_report hworkers h ht (.retained (some name) top json) detailed write
      (fun g t table => Report.retained g t table (some name) top.toNat json write) rfl hnamed
    rwa [true_and] at htext
  · intro name top json hname
    obtain ⟨hgraph, hartifacts⟩ := artifacts_of_dominators hworkers h ht false
    simp only [Bool.false_eq_true, false_and, if_false] at hartifacts
    simp only [report, hartifacts, hgraph]
    exact Report.retained_unnamed t _ hname top.toNat json write
  · exact fun detailed request => exists_calls_of_report s detailed request write

/-- A root in one heap that keeps a single byte of another heap alive. -/
def twoHeaps (bytes : Bytes) : List Recording.Call :=
  [.heap "app", .heap "zygote", .node ⟨⟨1⟩, ⟨0⟩, .instanceOf none, .bytes bytes⟩,
    .node ⟨⟨2⟩, ⟨1⟩, .instanceOf none, .bytes 1⟩, .reference ⟨1⟩ ⟨2⟩, .root ⟨1⟩ .unknown]

/-- The reports of two small heaps have texts. -/
theorem seven_bytes_and_one_are_reported :
    ∃ g, (Recording.replay .eight (twoHeaps 7)).build = .ok g ∧ g.reachableTotal = 8 ∧
      (∃ text, ((start g {} {}).report false .summary).1 = .ok text) ∧
      ∃ text, ((start g {} {}).report false (.retained none 20 true)).1 = .ok text := by
  have hrun : ((Recording.replay .eight (twoHeaps 7)).build.toOption.bind fun g =>
      (start g {} {}).dominators.1.toOption.bind fun t =>
        (start g {} {}).retained.1.toOption.bind fun table => table.sentinelTotal?) = some 8 := by
    cbv
  obtain ⟨g, hbuild, hrest⟩ := Option.bind_eq_some_iff.mp hrun
  obtain ⟨t, hsearch, hrest⟩ := Option.bind_eq_some_iff.mp hrest
  obtain ⟨table, htable, htotal⟩ := Option.bind_eq_some_iff.mp hrest
  obtain ⟨⟨table', htable', _, hsum, _⟩, hsummary, hranking, _, _, hmost, _⟩ :=
    reports_have_texts_where_sums_over_heaps_are_counts g {} {} Workers.keepsOrder_single
      Json.writeLines [] (DominatorTree.eq_ok_of_toOption hsearch)
  obtain rfl : table' = table :=
    Except.ok.inj (htable'.symm.trans (DominatorTree.eq_ok_of_toOption htable))
  have hfits : g.reachableTotal ≤ Bytes.most := by
    by_contra hlarge
    rw [htotal, Bytes.ofNat?_eq_none_iff.mpr hlarge] at hsum
    cases hsum
  refine ⟨g, DominatorTree.eq_ok_of_toOption hbuild, ?_, (hsummary false).text hfits,
    (hranking false 20 true).text ⟨fun v _ => Nat.le_trans (hmost v) hfits, fun hlog => ?_⟩⟩
  · rw [htotal, Bytes.ofNat?_of_le hfits] at hsum
    have hword := congrArg UInt64.toNat (Option.some.inj hsum)
    have hroom : g.reachableTotal < 2 ^ 64 := by
      unfold Bytes.most UInt64.size at hfits
      omega
    rw [UInt64.toNat_ofNat', Nat.mod_eq_of_lt hroom] at hword
    exact hword.symm
  · cases hlog

/-- The largest count in one heap and a byte in another leave the reports over all heaps without a
text, though the sum of the sizes of all nodes has a value, which is cut. -/
theorem the_largest_count_and_one_byte_are_not_reported :
    ∃ g t table, (Recording.replay .eight (twoHeaps (UInt64.ofNat Bytes.most))).build = .ok g ∧
      (start g {} {}).dominators.1 = .ok t ∧ (start g {} {}).retained.1 = .ok table ∧
      g.totalSize.toNat = Bytes.most ∧ table.total? 0 = none ∧ table.sentinelTotal? = none ∧
      ((start g {} {}).report false .summary).1 = .error .overflow ∧
      ((start g {} {}).report false (.retained none 20 false)).1 = .error .overflow := by
  have hrun : ((Recording.replay .eight (twoHeaps (UInt64.ofNat Bytes.most))).build.toOption.bind
      fun g => (start g {} {}).dominators.1.toOption.bind fun _ =>
        (start g {} {}).retained.1.toOption.map fun table =>
          (g.totalSize.toNat, table.total? 0, table.sentinelTotal?,
            ((start g {} {}).report false .summary).1,
            ((start g {} {}).report false (.retained none 20 false)).1)) =
      some (Bytes.most, none, none, .error .overflow, .error .overflow) := by
    cbv
  obtain ⟨g, hbuild, hrest⟩ := Option.bind_eq_some_iff.mp hrun
  obtain ⟨t, hsearch, hrest⟩ := Option.bind_eq_some_iff.mp hrest
  obtain ⟨table, htable, hseen⟩ := Option.map_eq_some_iff.mp hrest
  simp only [Prod.mk.injEq] at hseen
  exact ⟨g, t, table, DominatorTree.eq_ok_of_toOption hbuild,
    DominatorTree.eq_ok_of_toOption hsearch, DominatorTree.eq_ok_of_toOption htable, hseen⟩

end Session

end HeapRetention
