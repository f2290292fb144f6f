-- The laws of the heap table. Partitions are numbered in the order in which
-- their names first come up, so a name stands for one partition and a
-- partition for one name. A new name that finds the table full is answered
-- with another name's partition, but such a recording is never a graph.
import HeapRetention.Text.Padding
import HeapRetention.Proofs.Shape
import HeapRetention.Proofs.Snapshot

namespace HeapRetention

/-! ## Looking up -/

/-- Names with the partitions of their places. -/
def numbered (names : List String) : List (String × HeapId) :=
  names.zipIdx.map fun (name, slot) => (name, HeapId.ofSlot slot)

theorem names_numbered (names : List String) : (numbered names).map Prod.fst = names := by
  unfold numbered
  rw [List.map_map]
  exact List.zipIdx_map_fst 0 names

theorem numbered_concat (names : List String) (name : String) :
    numbered (names ++ [name]) = numbered names ++ [(name, HeapId.ofSlot names.length)] := by
  simp [numbered, List.zipIdx_append]

theorem slot_ofSlot_of_lt {names : List String} (hroom : names.length ≤ maxHeaps) {slot : Nat}
    (h : slot < names.length) : (HeapId.ofSlot slot).slot = slot := by
  apply HeapId.slot_ofSlot
  unfold maxHeaps at hroom
  omega

theorem slots_numbered {names : List String} (hroom : names.length ≤ maxHeaps) :
    (numbered names).map (·.2.slot) = List.range names.length := by
  unfold numbered
  apply List.ext_getElem
  · simp
  · intro slot hslot _
    have hlt : slot < names.length := by simpa using hslot
    simp [slot_ofSlot_of_lt hroom hlt]

theorem mem_numbered {names : List String} (hroom : names.length ≤ maxHeaps) {name : String}
    {heap : HeapId} : (name, heap) ∈ numbered names ↔ names[heap.slot]? = some name := by
  unfold numbered
  rw [List.mem_map]
  refine ⟨?_, ?_⟩
  · rintro ⟨⟨other, slot⟩, hmem, hpair⟩
    obtain ⟨rfl, rfl⟩ := Prod.mk.inj hpair
    have hget := List.mem_zipIdx_iff_getElem?.mp hmem
    rwa [slot_ofSlot_of_lt hroom (List.getElem?_eq_some_iff.mp hget).1]
  · intro hget
    refine ⟨(name, heap.slot), List.mem_zipIdx_iff_getElem?.mpr hget, ?_⟩
    simp only [HeapId.ofSlot_slot]

namespace HeapGraph

variable {g : HeapGraph}

theorem heapName?_eq (heap : HeapId) : g.heapName? heap = g.heaps.toList[heap.slot]? := by
  rw [heapName?, Array.getElem?_toList]

/-- To look a name up and to look a partition up are inverse to each other. -/
theorem heapNamed?_eq_some_iff {name : String} {heap : HeapId} :
    g.heapNamed? name = some heap ↔ g.heapName? heap = some name := by
  rw [heapName?_eq, heapNamed?, Option.map_eq_some_iff]
  refine ⟨?_, ?_⟩
  · rintro ⟨slot, hslot, rfl⟩
    obtain ⟨hlt, hget, _⟩ := List.idxOf?_eq_some_iff.mp hslot
    rw [g.slot_ofSlot (by simpa using hlt), List.getElem?_eq_getElem hlt, hget]
  · intro hname
    obtain ⟨hlt, hget⟩ := List.getElem?_eq_some_iff.mp hname
    refine ⟨heap.slot, List.idxOf?_eq_some_iff.mpr ⟨hlt, hget, ?_⟩, HeapId.ofSlot_slot heap⟩
    intro earlier hearlier hsame
    have := g.heaps_nodup.getElem_inj_iff.mp (hsame.trans hget.symm)
    omega

theorem isSome_heapNamed? (name : String) : (g.heapNamed? name).isSome ↔ name ∈ g.heaps := by
  rw [heapNamed?, Option.isSome_map, ← Array.mem_toList_iff]
  exact List.isSome_idxOf?

theorem mem_heapsByName {name : String} {heap : HeapId} :
    (name, heap) ∈ g.heapsByName ↔ g.heapNamed? name = some heap := by
  rw [heapNamed?_eq_some_iff]
  refine ⟨heapName?_of_mem, ?_⟩
  intro hname
  have hmem : name ∈ g.heapsByName.map Prod.fst := by
    rw [names_heapsByName, List.mem_mergeSort]
    rw [heapName?_eq] at hname
    exact List.mem_of_getElem? hname
  obtain ⟨⟨_, other⟩, hentry, rfl⟩ := List.mem_map.mp hmem
  rwa [heapName?_inj hname (heapName?_of_mem hentry)]

end HeapGraph

namespace RetainedTable

theorem mem_byName {table : RetainedTable} {g : HeapGraph} {i : Nat} {name : String}
    {bytes : Bytes} : (name, bytes) ∈ table.byName g i ↔
      ∃ heap, g.heapNamed? name = some heap ∧ table.size i heap = bytes := by
  unfold byName
  rw [List.mem_map]
  refine ⟨?_, ?_⟩
  · rintro ⟨⟨_, heap⟩, hmem, hpair⟩
    obtain ⟨rfl, rfl⟩ := Prod.mk.inj hpair
    exact ⟨heap, HeapGraph.mem_heapsByName.mp hmem, rfl⟩
  · rintro ⟨heap, hheap, rfl⟩
    exact ⟨(name, heap), HeapGraph.mem_heapsByName.mpr hheap, rfl⟩

theorem nodup_names_byName (table : RetainedTable) (g : HeapGraph) (i : Nat) :
    ((table.byName g i).map Prod.fst).Nodup := by
  have hnames : (table.byName g i).map Prod.fst = g.heapsByName.map Prod.fst := by
    simp [byName]
  rw [hnames, HeapGraph.names_heapsByName, (List.mergeSort_perm _ _).nodup_iff]
  exact g.heaps_nodup

end RetainedTable

/-! ## Answers -/

namespace Recording

/-- The name that a call asks for, with the partition that it is answered. -/
def Call.answers (r : Recording) : Call → List (String × HeapId)
  | .heap name => [(name, (r.heap name).1)]
  | _ => []

/-- The names that calls ask for with the partitions that they are answered, in order. -/
def answersFrom (r : Recording) : List Call → List (String × HeapId)
  | [] => []
  | call :: rest => call.answers r ++ answersFrom (r.perform call) rest

/-- The answers to all calls for heaps. -/
def answersOf (width : IdWidth) (calls : List Call) : List (String × HeapId) :=
  answersFrom (start width) calls

theorem answersFrom_append (r : Recording) (calls more : List Call) :
    answersFrom r (calls ++ more) =
      answersFrom r calls ++ answersFrom (calls.foldl perform r) more := by
  induction calls generalizing r with
  | nil => rfl
  | cons first rest ih => simp [answersFrom, ih]

theorem mem_answersOf (width : IdWidth) (before after : List Call) (name : String) :
    (name, ((replay width before).heap name).1) ∈
      answersOf width (before ++ .heap name :: after) := by
  rw [answersOf, answersFrom_append, List.mem_append]
  exact Or.inr (List.mem_append_left _ List.mem_cons_self)

/-- As long as the table has room, the partition that is answered has the name that was asked
for. -/
theorem heap_answered {r : Recording} {name : String}
    (h : (r.heap name).2.tooManyHeaps = false) :
    (r.heap name).2.heaps.toList[(r.heap name).1.slot]? = some name := by
  have hroom := r.heaps_size_le
  rw [← Array.length_toList] at hroom
  cases hname : r.heaps.toList.idxOf? name with
  | some slot =>
    obtain ⟨hlt, hget, _⟩ := List.idxOf?_eq_some_iff.mp hname
    rw [heap_of_known r hname]
    simp only
    rw [slot_ofSlot_of_lt hroom hlt, List.getElem?_eq_getElem hlt, hget]
  | none =>
    by_cases hlt : r.heaps.size < maxHeaps
    · rw [heap_of_new r hname hlt]
      simp only [Array.toList_push]
      rw [HeapId.slot_ofSlot hlt, ← Array.length_toList, List.getElem?_concat_length]
    · rw [heap_of_full r hname hlt] at h
      cases h

theorem length_heapsOf_le (calls more : List Call) :
    (heapsOf calls).length ≤ (heapsOf (calls ++ more)).length := by
  unfold heapsOf
  rw [List.flatMap_append, List.eraseDups_append, List.length_append]
  exact Nat.le_add_right _ _

theorem tooManyHeaps_of_perform {r : Recording} {call : Call}
    (h : (r.perform call).tooManyHeaps = false) : r.tooManyHeaps = false := by
  cases call with
  | heap name => exact (heaps_heap h).1
  | node _ => exact h
  | reference _ _ => exact h
  | references _ _ =>
    rw [perform, addReferences_eq] at h
    exact h
  | root _ _ => exact h

/-- If the answers so far, each at its first appearance, are the table with its numbers, they are
so after one more call. -/
theorem eraseDups_answers_perform {r : Recording} {answered : List (String × HeapId)} {call : Call}
    (hr : answered.eraseDups = numbered r.heaps.toList)
    (h : (r.perform call).tooManyHeaps = false) :
    (answered ++ call.answers r).eraseDups = numbered (r.perform call).heaps.toList := by
  cases call with
  | heap name =>
    have hroom := (r.heap name).2.heaps_size_le
    rw [← Array.length_toList] at hroom
    have hget := heap_answered h
    have htable := (heaps_heap h).2
    rw [perform, Call.answers, eraseDups_concat]
    by_cases hname : name ∈ r.heaps.toList
    · -- a known name is in the table, so its answer came up before
      rw [if_pos hname] at htable
      have hmem := (mem_numbered hroom).mpr hget
      rw [htable, ← hr, List.mem_eraseDups] at hmem
      rw [if_pos hmem, htable, hr]
    · rw [if_neg hname] at htable
      have hnew : (name, (r.heap name).1) ∉ answered := by
        intro hmem
        rw [← List.mem_eraseDups, hr] at hmem
        have hkey := List.mem_map_of_mem (f := Prod.fst) hmem
        rw [names_numbered] at hkey
        exact hname hkey
      have hslot : (r.heap name).1.slot = r.heaps.toList.length := by
        rw [htable] at hget
        obtain ⟨hlt, hat⟩ := List.getElem?_eq_some_iff.mp hget
        rw [List.length_append, List.length_singleton] at hlt
        by_contra hne
        rw [List.getElem_append_left (by omega)] at hat
        exact hname (hat ▸ List.getElem_mem _)
      rw [if_neg hnew, htable, numbered_concat, hr, ← hslot, HeapId.ofSlot_slot]
  | node _ => simpa [Call.answers, perform, addNode] using hr
  | reference _ _ => simpa [Call.answers, perform, addReference] using hr
  | references _ _ => simpa [Call.answers, perform, addReferences_eq] using hr
  | root _ _ => simpa [Call.answers, perform, addRoot] using hr

/-- The answers, each at its first appearance, are the names in the order of their first use with
the partitions in table order. -/
theorem eraseDups_answersOf {width : IdWidth} {calls : List Call}
    (hroom : (heapsOf calls).length ≤ maxHeaps) :
    (answersOf width calls).eraseDups = numbered (heapsOf calls) := by
  have hfold : (replay width calls).tooManyHeaps = false →
      (answersOf width calls).eraseDups = numbered (replay width calls).heaps.toList := by
    clear hroom
    unfold answersOf replay
    induction calls using List.reverseRecOn with
    | nil => exact fun _ => rfl
    | append_singleton calls call ih =>
      intro h
      rw [List.foldl_concat] at h ⊢
      rw [answersFrom_append, answersFrom, answersFrom, List.append_nil]
      exact eraseDups_answers_perform (ih (tooManyHeaps_of_perform h)) h
  have hfew : (replay width calls).tooManyHeaps = false := tooManyHeaps_eq_false.mpr hroom
  rw [hfold hfew, heaps_replay hfew]

section Answered

variable {width : IdWidth} {calls : List Call} (hroom : (heapsOf calls).length ≤ maxHeaps)

include hroom

/-- An answer is the place of the name in the final table. -/
theorem getElem?_of_answered {name : String} {heap : HeapId}
    (h : (name, heap) ∈ answersOf width calls) : (heapsOf calls)[heap.slot]? = some name := by
  rw [← List.mem_eraseDups, eraseDups_answersOf hroom] at h
  exact (mem_numbered hroom).mp h

theorem answers_eq_iff {name name' : String} {heap heap' : HeapId}
    (h : (name, heap) ∈ answersOf width calls) (h' : (name', heap') ∈ answersOf width calls) :
    heap = heap' ↔ name = name' := by
  have hget := getElem?_of_answered hroom h
  have hget' := getElem?_of_answered hroom h'
  refine ⟨?_, ?_⟩
  · rintro rfl
    exact Option.some.inj (hget.symm.trans hget')
  · rintro rfl
    exact eq_of_getElem?_slot (nodup_eraseDups _) hget hget'

end Answered

/-- As long as there are no more names than partitions, the partitions that are answered are
numbered by the first use of their names, and two answers are the same exactly for the same name.
A graph looks names and partitions up in that table, both ways, and it has each node in the
partition under the name that was asked for. Once a name came too many, whatever is recorded
besides, there is no graph. -/
theorem partitions_are_numbered_by_the_first_use_of_their_names (width : IdWidth)
    (calls : List Call) :
    ((heapsOf calls).length ≤ maxHeaps →
      (answersOf width calls).eraseDups.map Prod.fst = heapsOf calls ∧
      (answersOf width calls).eraseDups.map (·.2.slot) = List.range (heapsOf calls).length ∧
      (∀ asked ∈ answersOf width calls, ∀ asked' ∈ answersOf width calls,
        asked.2 = asked'.2 ↔ asked.1 = asked'.1) ∧
      ∀ g, (replay width calls).build = .ok g →
        g.heaps.toList = heapsOf calls ∧
        (∀ name heap, g.heapName? heap = some name ↔ g.heapNamed? name = some heap) ∧
        (∀ asked ∈ answersOf width calls, g.heapName? asked.2 = some asked.1) ∧
        ∀ i record, (nodesOf calls)[i]? = some record → ∃ node, g.node? i = some node ∧
          (∃ name, g.heapName? node.heap = some name) ∧
          ∀ name, (name, record.heap) ∈ answersOf width calls →
            g.heapName? node.heap = some name) ∧
    (maxHeaps < (heapsOf calls).length → ∀ more,
      (idsOf (calls ++ more)).eraseDups.length ≤ maxNodes →
      (replay width (calls ++ more)).build = .error (.tooManyHeaps maxHeaps)) := by
  refine ⟨?_, ?_⟩
  · intro hroom
    have hanswers : (answersOf width calls).eraseDups = numbered (heapsOf calls) :=
      eraseDups_answersOf hroom
    refine ⟨?_, ?_, ?_, ?_⟩
    · rw [hanswers, names_numbered]
    · rw [hanswers, slots_numbered hroom]
    · exact fun _ hasked _ hasked' => answers_eq_iff hroom hasked hasked'
    · intro g hbuild
      have htable : g.heaps.toList = heapsOf calls := by
        rw [(heaps_built hbuild).1, heaps_replay (heaps_built hbuild).2]
      have hnamed : ∀ asked ∈ answersOf width calls, g.heapName? asked.2 = some asked.1 := by
        intro asked hasked
        rw [HeapGraph.heapName?_eq, htable]
        exact getElem?_of_answered hroom hasked
      refine ⟨htable, fun _ _ => HeapGraph.heapNamed?_eq_some_iff.symm, hnamed, ?_⟩
      intro i record hrecord
      have hnode : g.node? i = some (record.resolve width) := by
        rw [node?_replay hbuild, hrecord]
        rfl
      have hlt := g.heap_lt _ (Array.mem_of_getElem? hnode)
      refine ⟨_, hnode, ⟨_, Array.getElem?_eq_getElem hlt⟩, ?_⟩
      intro name hasked
      exact hnamed _ hasked
  · intro hmany more hnodes
    exact build_eq_error_iff.mpr (Rejects.tooManyHeaps hnodes
      (Nat.lt_of_lt_of_le hmany (length_heapsOf_le calls more)))

/-- Heaps that are asked for between nodes, one of them again. -/
def scatteredHeaps : List Call :=
  [.heap "app", .root ⟨2⟩ .unknown, .node ⟨⟨1⟩, ⟨0⟩, .instanceOf none, .bytes 4⟩, .heap "zygote",
    .heap "app", .node ⟨⟨2⟩, ⟨1⟩, .instanceOf none, .bytes 4⟩, .heap "image"]

/-- One name more than there may be heaps. -/
def crowdedHeaps : List Call :=
  (List.range (maxHeaps + 1)).map fun count => .heap (Text.blanks count)

theorem heapsOf_crowdedHeaps : maxHeaps < (heapsOf crowdedHeaps).length := by
  have hnames : crowdedHeaps.flatMap Call.heaps =
      (List.range (maxHeaps + 1)).map Text.blanks := by
    rw [crowdedHeaps, List.flatMap_map, List.map_eq_flatMap]
    rfl
  have hnodup : ((List.range (maxHeaps + 1)).map Text.blanks).Nodup := by
    apply List.Nodup.map _ List.nodup_range
    intro count count' hsame
    have hlength := congrArg String.length hsame
    simpa [Text.blanks] using hlength
  have hperm : (heapsOf crowdedHeaps).Perm ((List.range (maxHeaps + 1)).map Text.blanks) := by
    rw [heapsOf, hnames]
    exact (List.perm_ext_iff_of_nodup (nodup_eraseDups _) hnodup).mpr fun _ => List.mem_eraseDups
  rw [hperm.length_eq, List.length_map, List.length_range]
  exact Nat.lt_succ_self maxHeaps

theorem idsOf_crowdedHeaps (more : List Call) : idsOf (crowdedHeaps ++ more) = idsOf more := by
  have hnone : nodesOf crowdedHeaps = [] := by
    rw [nodesOf, crowdedHeaps, List.flatMap_map, List.flatMap_eq_nil_iff]
    exact fun _ _ => rfl
  rw [idsOf, nodesOf, List.flatMap_append, ← nodesOf, hnone, List.nil_append, ← nodesOf, idsOf]

/-- The scattered heaps come into order, and a name too many is the end of all recordings. -/
theorem scattered_heaps_come_into_order_and_crowded_ones_do_not :
    (∃ g, (replay .four scatteredHeaps).build = .ok g ∧
      g.heaps.toList = ["app", "zygote", "image"] ∧ g.heapNamed? "zygote" = some ⟨1⟩ ∧
      ∃ node, g.node? 1 = some node ∧ g.heapName? node.heap = some "zygote") ∧
    (replay .four (crowdedHeaps ++ scatteredHeaps)).build = .error (.tooManyHeaps maxHeaps) := by
  have hok : (replay .four scatteredHeaps).build.toOption.isSome = true := by
    cbv
  obtain ⟨g, hg⟩ := Option.isSome_iff_exists.mp hok
  have hbuild := DominatorTree.eq_ok_of_toOption hg
  obtain ⟨hfew, _⟩ := partitions_are_numbered_by_the_first_use_of_their_names .four scatteredHeaps
  obtain ⟨_, _, _, hgraph⟩ := hfew (by decide)
  obtain ⟨htable, hinverse, _, hnodes⟩ := hgraph g hbuild
  obtain ⟨node, hnode, _, hname⟩ := hnodes 1 ⟨⟨2⟩, ⟨1⟩, .instanceOf none, .bytes 4⟩ rfl
  have hzygote : g.heapName? node.heap = some "zygote" := hname "zygote" (by decide)
  obtain ⟨_, hmany⟩ := partitions_are_numbered_by_the_first_use_of_their_names .four crowdedHeaps
  refine ⟨⟨g, hbuild, htable, ?_, node, hnode, hzygote⟩,
    hmany heapsOf_crowdedHeaps scatteredHeaps ?_⟩
  · rw [← hinverse, HeapGraph.heapName?_eq, htable]
    rfl
  · rw [idsOf_crowdedHeaps]
    decide

end Recording

end HeapRetention
