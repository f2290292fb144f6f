-- The laws of rejection. A recording that is no graph is rejected for the first
-- of its faults, in one fixed order of faults: too many objects, too many
-- heaps, an object added twice, a node in an unknown heap, and last the holes,
-- which are reported all together, in order and each once.
import HeapRetention.Proofs.Recorded

namespace HeapRetention

/-! ## The order of holes -/

theorem RootKind.rank_inj {kind kind' : RootKind} : kind.rank = kind'.rank ↔ kind = kind' := by
  have hall : kind ∈ all := by cases kind <;> decide
  exact List.idxOf_inj hall

theorem NodeId.toNat_word_inj {a b : NodeId} : a.word.toNat = b.word.toNat ↔ a = b := by
  rw [UInt64.toNat_inj]
  cases a
  cases b
  simp

namespace Hole

/-- The order in which holes are reported: references to absent objects first, then absent objects
that have references, then absent roots, each in order of their ids, and roots of one object in
order of their kinds. -/
def Before : Hole → Hole → Prop
  | target owner absent, target owner' absent' =>
    owner.word < owner'.word ∨ owner = owner' ∧ absent.word < absent'.word
  | target _ _, _ => True
  | source owner, source owner' => owner.word < owner'.word
  | source _, root _ _ => True
  | root id kind, root id' kind' => id.word < id'.word ∨ id = id' ∧ kind.rank < kind'.rank
  | _, _ => False

theorem key_inj {a b : Hole} : a.key = b.key ↔ a = b := by
  cases a <;> cases b <;> simp [key, NodeId.toNat_word_inj, RootKind.rank_inj]

theorem compare_key_eq_lt {a b : Hole} : compare a.key b.key = .lt ↔ a.Before b := by
  cases a <;> cases b <;>
    simp [key, Before, List.compare_cons_cons, Ordering.then_eq_lt, Nat.compare_eq_lt,
      NodeId.toNat_word_inj, UInt64.lt_iff_toNat_lt]

theorem pairwise_eraseReps {holes : List Hole}
    (h : holes.Pairwise fun a b => (compare a.key b.key).isLE) :
    holes.eraseReps.Pairwise Before := by
  induction holes with
  | nil => exact List.Pairwise.nil
  | cons a rest ih =>
    cases rest with
    | nil => exact List.pairwise_singleton Before a
    | cons b rest =>
      obtain ⟨hfirst, hrest⟩ := List.pairwise_cons.mp h
      rw [eraseReps_cons_cons]
      by_cases hab : a = b
      · rw [if_pos hab]
        exact ih hrest
      · rw [if_neg hab]
        refine List.pairwise_cons.mpr ⟨?_, ih hrest⟩
        intro x hx
        have hlt : compare a.key b.key = .lt := by
          rcases Ordering.isLE_iff_eq_lt_or_eq_eq.mp (hfirst b List.mem_cons_self) with hlt | heq
          · exact hlt
          · exact absurd (key_inj.mp (Std.LawfulEqOrd.eq_of_compare heq)) hab
        rw [← compare_key_eq_lt]
        rcases List.mem_cons.mp (mem_eraseReps.mp hx) with rfl | hlater
        · exact hlt
        · exact Std.TransCmp.lt_of_lt_of_isLE hlt ((List.pairwise_cons.mp hrest).1 x hlater)

/-- The holes that are reported stand in order, and none is reported twice. -/
theorem pairwise_sorted (holes : List Hole) : (sorted holes).Pairwise Before := by
  apply pairwise_eraseReps
  apply List.pairwise_mergeSort
  · intro a b c hab hbc
    exact Std.TransCmp.isLE_trans hab hbc
  · intro a b
    rw [Bool.or_eq_true]
    by_cases hle : (compare a.key b.key).isLE
    · exact Or.inl hle
    · have hlt := Std.OrientedCmp.lt_of_not_isLE hle
      exact Or.inr (by rw [hlt]; rfl)

theorem before_asymm {a b : Hole} (hab : a.Before b) : ¬ b.Before a := by
  rw [← compare_key_eq_lt] at hab ⊢
  exact Std.OrientedCmp.not_lt_of_lt hab

end Hole

/-! ## The first repeat -/

namespace Roster

/-- The id is the first of a list that comes a second time. -/
def FirstRepeat (ids : List NodeId) (id : NodeId) : Prop :=
  ∃ before after, ids = before ++ id :: after ∧ before.Nodup ∧ id ∈ before

theorem ofIds_concat (ids : List NodeId) (id : NodeId) :
    ofIds (ids ++ [id]) = (ofIds ids).add id := by
  rw [ofIds, List.foldl_append]
  rfl

theorem contains_add (roster : Roster) (id other : NodeId) :
    (roster.add id).index.contains other = true ↔
      other = id ∨ roster.index.contains other = true := by
  unfold add
  split
  · rename_i hin
    refine ⟨Or.inr, ?_⟩
    rintro (rfl | hother)
    · exact hin
    · exact hother
  · simp only [Std.TreeMap.contains_insert, Bool.or_eq_true, beq_iff_eq,
      Std.LawfulEqOrd.compare_eq_iff_eq]
    rw [eq_comm]

/-- The roster of a list has the ids of the list. -/
theorem contains_ofIds {ids : List NodeId} {id : NodeId} :
    (ofIds ids).index.contains id = true ↔ id ∈ ids := by
  induction ids using List.reverseRecOn with
  | nil => simp [ofIds]
  | append_singleton ids last ih =>
    rw [ofIds_concat, contains_add, ih, List.mem_append, List.mem_singleton, or_comm]

theorem size_ofIds (ids : List NodeId) : (ofIds ids).index.size = ids.eraseDups.length := by
  induction ids using List.reverseRecOn with
  | nil => simp [ofIds]
  | append_singleton ids last ih =>
    rw [ofIds_concat, eraseDups_concat]
    have hin : (ofIds ids).index.contains last = true ↔ last ∈ ids := contains_ofIds
    unfold add
    by_cases hlast : last ∈ ids
    · rw [if_pos hlast, if_pos (hin.mpr hlast), ih]
    · rw [if_neg hlast, if_neg (mt hin.mp hlast)]
      have hnew : last ∉ (ofIds ids).index := by
        rw [Std.TreeMap.mem_iff_contains]
        exact mt hin.mp hlast
      simp [Std.TreeMap.size_insert, hnew, ih]

theorem repeated_ofIds_concat (ids : List NodeId) (last : NodeId) :
    (ofIds (ids ++ [last])).repeated =
      ((ofIds ids).repeated <|> if last ∈ ids then some last else none) := by
  rw [ofIds_concat, add]
  by_cases hlast : last ∈ ids
  · rw [if_pos (contains_ofIds.mpr hlast), if_pos hlast]
  · rw [if_neg (mt contains_ofIds.mp hlast), if_neg hlast]
    cases (ofIds ids).repeated <;> rfl

theorem repeated_eq_none_iff {ids : List NodeId} : (ofIds ids).repeated = none ↔ ids.Nodup := by
  induction ids using List.reverseRecOn with
  | nil => simp [ofIds]
  | append_singleton ids last ih =>
    rw [repeated_ofIds_concat, ← List.concat_eq_append, List.nodup_concat, ← ih]
    by_cases hlast : last ∈ ids <;> cases (ofIds ids).repeated <;> simp [hlast]

theorem firstRepeat_concat {ids : List NodeId} {last id : NodeId} :
    FirstRepeat (ids ++ [last]) id ↔ FirstRepeat ids id ∨ (ids.Nodup ∧ last ∈ ids ∧ last = id) := by
  refine ⟨?_, ?_⟩
  · rintro ⟨before, after, hids, hnodup, hmem⟩
    rcases List.eq_nil_or_concat after with rfl | ⟨init, x, rfl⟩
    · obtain ⟨rfl, hlast⟩ := List.append_inj' hids rfl
      obtain rfl := List.singleton_inj.mp hlast
      exact Or.inr ⟨hnodup, hmem, rfl⟩
    · rw [List.concat_eq_append, ← List.cons_append, ← List.append_assoc] at hids
      exact Or.inl ⟨before, init, (List.append_inj' hids rfl).1, hnodup, hmem⟩
  · rintro (⟨before, after, rfl, hnodup, hmem⟩ | ⟨hnodup, hmem, rfl⟩)
    · exact ⟨before, after ++ [last], by simp, hnodup, hmem⟩
    · exact ⟨ids, [], rfl, hnodup, hmem⟩

theorem not_nodup_of_firstRepeat {ids : List NodeId} {id : NodeId} (h : FirstRepeat ids id) :
    ¬ ids.Nodup := by
  obtain ⟨before, after, rfl, _, hmem⟩ := h
  intro hnodup
  exact (List.nodup_append.mp hnodup).2.2 id hmem id List.mem_cons_self rfl

/-- The roster keeps the first id that came a second time. -/
theorem repeated_eq_some_iff {ids : List NodeId} {id : NodeId} :
    (ofIds ids).repeated = some id ↔ FirstRepeat ids id := by
  induction ids using List.reverseRecOn with
  | nil => simp [ofIds, FirstRepeat]
  | append_singleton ids last ih =>
    rw [repeated_ofIds_concat, firstRepeat_concat, ← ih]
    have hnone : (ofIds ids).repeated = none ↔ ids.Nodup := repeated_eq_none_iff
    cases hrep : (ofIds ids).repeated with
    | none =>
      have hnodup := hnone.mp hrep
      by_cases hlast : last ∈ ids <;> simp [hlast, hnodup]
    | some first =>
      have hnodup : ¬ ids.Nodup := by simp [← hnone, hrep]
      simp [hnodup]

theorem firstRepeat_unique {ids : List NodeId} {id id' : NodeId} (h : FirstRepeat ids id)
    (h' : FirstRepeat ids id') : id = id' := by
  rw [← repeated_eq_some_iff] at h h'
  rw [h] at h'
  exact Option.some.inj h'

end Roster

/-! ## Too many heaps -/

namespace Recording

theorem tooManyHeaps_perform {r : Recording} {names : List String} {call : Call}
    (hr : r.tooManyHeaps = false → r.heaps.toList = names.eraseDups)
    (hfull : r.tooManyHeaps = true → maxHeaps < names.eraseDups.length)
    (h : (r.perform call).tooManyHeaps = true) :
    maxHeaps < (names ++ call.heaps).eraseDups.length := by
  have hgrows : names.eraseDups.length ≤ (names ++ call.heaps).eraseDups.length := by
    rw [List.eraseDups_append, List.length_append]
    exact Nat.le_add_right _ _
  cases hroom : r.tooManyHeaps with
  | true => exact Nat.lt_of_lt_of_le (hfull hroom) hgrows
  | false =>
    -- only a new name that finds the table full raises the flag
    cases call with
    | heap name =>
      unfold perform at h
      cases hname : r.heaps.toList.idxOf? name with
      | some slot => simp [heap_of_known r hname, hroom] at h
      | none =>
        by_cases hlt : r.heaps.size < maxHeaps
        · simp [heap_of_new r hname hlt, hroom] at h
        · have hnew := List.idxOf?_eq_none_iff.mp hname
          rw [hr hroom, List.mem_eraseDups] at hnew
          have hsize : r.heaps.size = names.eraseDups.length := by
            rw [← hr hroom, Array.length_toList]
          rw [Call.heaps, eraseDups_concat, if_neg hnew, List.length_append]
          simp only [List.length_singleton]
          omega
    | node _ => simp [perform, addNode, hroom] at h
    | reference _ _ => simp [perform, addReference, hroom] at h
    | references _ _ => simp [perform, addReferences_eq, hroom] at h
    | root _ _ => simp [perform, addRoot, hroom] at h

theorem tooManyHeaps_replay {width : IdWidth} {calls : List Call} :
    (replay width calls).tooManyHeaps = true ↔ maxHeaps < (heapsOf calls).length := by
  refine ⟨?_, ?_⟩
  · have hfold : ∀ (r : Recording) (names : List String),
        (r.tooManyHeaps = false → r.heaps.toList = names.eraseDups) →
        (r.tooManyHeaps = true → maxHeaps < names.eraseDups.length) →
        (calls.foldl perform r).tooManyHeaps = true →
        maxHeaps < (names ++ calls.flatMap Call.heaps).eraseDups.length := by
      induction calls with
      | nil =>
        intro r names _ hfull h
        simpa using hfull h
      | cons call rest ih =>
        intro r names hr hfull h
        rw [List.flatMap_cons, ← List.append_assoc]
        exact ih _ _ (heaps_perform hr) (tooManyHeaps_perform hr hfull) h
    exact hfold (start width) [] (fun _ => rfl) (fun h => by cases h)
  · intro hmany
    by_contra hroom
    rw [Bool.not_eq_true] at hroom
    have hsize := (replay width calls).heaps_size_le
    rw [← Array.length_toList, heaps_replay hroom] at hsize
    omega

/-! ## The holes of calls -/

/-- The ids of the nodes that calls record, in order. -/
def idsOf (calls : List Call) : List NodeId := (nodesOf calls).map NodeRecord.id

/-- The holes that calls leave. -/
inductive Leaves (calls : List Call) : Hole → Prop
  | target {owner absent : NodeId} : (owner, absent) ∈ edgesOf calls → owner ∈ idsOf calls →
      absent ∉ idsOf calls → Leaves calls (.target owner absent)
  | source {owner other : NodeId} : (owner, other) ∈ edgesOf calls → owner ∉ idsOf calls →
      Leaves calls (.source owner)
  | root {id : NodeId} {kind : RootKind} : (id, kind) ∈ rootsOf calls → id ∉ idsOf calls →
      Leaves calls (.root id kind)

theorem ids_replay (width : IdWidth) (calls : List Call) :
    (replay width calls).ids = idsOf calls := by
  rw [ids, nodes_replay, idsOf]

theorem referenceHole?_eq_some_iff {ids : List NodeId} {reference : NodeId × NodeId} {hole : Hole} :
    referenceHole? (Roster.ofIds ids).index reference = some hole ↔
      (reference.1 ∉ ids ∧ hole = .source reference.1) ∨
      (reference.1 ∈ ids ∧ reference.2 ∉ ids ∧ hole = .target reference.1 reference.2) := by
  unfold referenceHole?
  simp only [Bool.not_eq_true', ← Bool.not_eq_true, Roster.contains_ofIds]
  by_cases howner : reference.1 ∈ ids
  · by_cases habsent : reference.2 ∈ ids
    · simp [howner, habsent]
    · simp [howner, habsent, eq_comm]
  · simp [howner, eq_comm]

theorem rootHole?_eq_some_iff {ids : List NodeId} {root : NodeId × RootKind} {hole : Hole} :
    rootHole? (Roster.ofIds ids).index root = some hole ↔
      root.1 ∉ ids ∧ hole = .root root.1 root.2 := by
  unfold rootHole?
  simp only [Bool.not_eq_true', ← Bool.not_eq_true, Roster.contains_ofIds]
  by_cases hroot : root.1 ∈ ids
  · simp [hroot]
  · simp [hroot, eq_comm]

/-- The holes that a recording reports are those that its calls leave. -/
theorem mem_holes_replay {width : IdWidth} {calls : List Call} {hole : Hole} :
    hole ∈ (replay width calls).holes (Roster.ofIds (idsOf calls)).index ↔ Leaves calls hole := by
  unfold holes
  rw [mem_sorted, List.mem_append, List.mem_filterMap, List.mem_filterMap, references_replay,
    roots_replay]
  simp only [referenceHole?_eq_some_iff, rootHole?_eq_some_iff]
  refine ⟨?_, ?_⟩
  · rintro (⟨⟨owner, other⟩, hedge, ⟨howner, rfl⟩ | ⟨howner, habsent, rfl⟩⟩ |
      ⟨⟨id, kind⟩, hroot, hid, rfl⟩)
    · exact Leaves.source hedge howner
    · exact Leaves.target hedge howner habsent
    · exact Leaves.root hroot hid
  · intro hleaves
    cases hleaves with
    | target hedge howner habsent => exact Or.inl ⟨_, hedge, Or.inr ⟨howner, habsent, rfl⟩⟩
    | source hedge howner => exact Or.inl ⟨_, hedge, Or.inl ⟨howner, rfl⟩⟩
    | root hroot hid => exact Or.inr ⟨_, hroot, hid, rfl⟩

/-! ## Faults in their order -/

/-- The calls record no more objects and heaps than a graph may have. -/
structure Fits (calls : List Call) : Prop where
  nodes : (idsOf calls).eraseDups.length ≤ maxNodes
  heaps : (heapsOf calls).length ≤ maxHeaps

/-- The heap of a node is one that calls register. -/
def InKnownHeap (calls : List Call) (record : NodeRecord) : Prop :=
  record.heap.slot < (heapsOf calls).length

instance (calls : List Call) (record : NodeRecord) : Decidable (InKnownHeap calls record) :=
  inferInstanceAs (Decidable (_ < _))

/-- The calls record a graph without a fault. -/
structure Whole (calls : List Call) : Prop where
  fits : Fits calls
  nodup : (idsOf calls).Nodup
  known : ∀ record ∈ nodesOf calls, InKnownHeap calls record
  closed : ∀ hole, ¬ Leaves calls hole

/-- The fault for which calls are rejected. Each rule asks that none of the rules before it
applies. -/
inductive Rejects (calls : List Call) : RecordingError → Prop
  | tooManyNodes : maxNodes < (idsOf calls).eraseDups.length →
      Rejects calls (.tooManyNodes maxNodes)
  | tooManyHeaps : (idsOf calls).eraseDups.length ≤ maxNodes →
      maxHeaps < (heapsOf calls).length → Rejects calls (.tooManyHeaps maxHeaps)
  | duplicateNode {id : NodeId} : Fits calls → Roster.FirstRepeat (idsOf calls) id →
      Rejects calls (.duplicateNode id)
  | unknownHeap {before after : List NodeRecord} {record : NodeRecord} : Fits calls →
      (idsOf calls).Nodup → nodesOf calls = before ++ record :: after →
      (∀ known ∈ before, InKnownHeap calls known) → ¬ InKnownHeap calls record →
      Rejects calls (.unknownHeap record.heap)
  | holes {all : List Hole} : Fits calls → (idsOf calls).Nodup →
      (∀ record ∈ nodesOf calls, InKnownHeap calls record) → all ≠ [] →
      all.Pairwise Hole.Before → (∀ hole, hole ∈ all ↔ Leaves calls hole) →
      Rejects calls (.holes all)

/-! ## What building finds -/

theorem size_heaps_replay {width : IdWidth} {calls : List Call}
    (h : (replay width calls).tooManyHeaps = false) :
    (replay width calls).heaps.size = (heapsOf calls).length := by
  rw [← Array.length_toList, heaps_replay h]

theorem tooManyHeaps_eq_false {width : IdWidth} {calls : List Call} :
    (replay width calls).tooManyHeaps = false ↔ (heapsOf calls).length ≤ maxHeaps := by
  rw [← Bool.not_eq_true, tooManyHeaps_replay, Nat.not_lt]

theorem find?_unknown_replay {width : IdWidth} {calls : List Call}
    (h : (replay width calls).tooManyHeaps = false) :
    (replay width calls).nodes.find?
        (fun record => decide ((replay width calls).heaps.size ≤ record.heap.slot)) =
      (nodesOf calls).find? fun record => decide (¬ InKnownHeap calls record) := by
  rw [← Array.find?_toList, nodes_replay, size_heaps_replay h]
  simp only [InKnownHeap, Nat.not_lt]

theorem rejects_of_error {width : IdWidth} {calls : List Call} {e : RecordingError}
    (h : (replay width calls).build = .error e) : Rejects calls e := by
  have hids := ids_replay width calls
  -- one split for each test of building; a test that passes is a premise of all later rules
  unfold build at h
  simp only at h
  split at h
  · rename_i hmany
    rw [hids, Roster.size_ofIds] at hmany
    rw [← Except.error.inj h]
    exact Rejects.tooManyNodes hmany
  rename_i hfew
  rw [hids, Roster.size_ofIds, Nat.not_lt] at hfew
  split at h
  · rename_i hmany
    rw [← Except.error.inj h]
    exact Rejects.tooManyHeaps hfew (tooManyHeaps_replay.mp hmany)
  rename_i hroom
  rw [Bool.not_eq_true] at hroom
  have hfits : Fits calls := ⟨hfew, tooManyHeaps_eq_false.mp hroom⟩
  split at h
  · rename_i id hrep
    rw [hids, Roster.repeated_eq_some_iff] at hrep
    rw [← Except.error.inj h]
    exact Rejects.duplicateNode hfits hrep
  rename_i hrep
  rw [hids, Roster.repeated_eq_none_iff] at hrep
  split at h
  · rename_i record hfind
    rw [find?_unknown_replay hroom, List.find?_eq_some_iff_append] at hfind
    obtain ⟨hunknown, before, after, hnodes, hknown⟩ := hfind
    rw [← Except.error.inj h]
    refine Rejects.unknownHeap hfits hrep hnodes ?_ (of_decide_eq_true hunknown)
    intro known hmem
    simpa using hknown known hmem
  rename_i hfind
  rw [find?_unknown_replay hroom, List.find?_eq_none] at hfind
  have hknown : ∀ record ∈ nodesOf calls, InKnownHeap calls record := by
    intro record hmem
    simpa using hfind record hmem
  split at h
  · rename_i hole more hholes
    rw [hids] at hholes
    rw [← Except.error.inj h]
    refine Rejects.holes hfits hrep hknown (List.cons_ne_nil _ _) ?_ ?_
    · rw [← hholes]
      exact Hole.pairwise_sorted _
    · intro hole
      rw [← hholes]
      exact mem_holes_replay
  · cases h

theorem whole_of_ok {width : IdWidth} {calls : List Call} {g : HeapGraph}
    (h : (replay width calls).build = .ok g) : Whole calls := by
  obtain ⟨hrep, hroom, hholes, hlists, hsize, hheaps, _⟩ := build_eq_ok_iff.mp h
  have hfew : (idsOf calls).eraseDups.length ≤ maxNodes := by
    rw [← Roster.size_ofIds, ← ids_replay width, hlists.size_eq]
    simpa [ids] using hsize
  rw [ids_replay] at hrep hholes
  refine ⟨⟨hfew, tooManyHeaps_eq_false.mp hroom⟩, Roster.repeated_eq_none_iff.mp hrep, ?_, ?_⟩
  · intro record hmem
    rw [InKnownHeap, ← size_heaps_replay hroom]
    rw [← nodes_replay width, Array.mem_toList_iff] at hmem
    exact hheaps record hmem
  · intro hole hleaves
    have hmem : hole ∈ (replay width calls).holes (Roster.ofIds (idsOf calls)).index :=
      mem_holes_replay.mpr hleaves
    rw [hholes] at hmem
    exact absurd hmem List.not_mem_nil

/-- Holes in order are known by which ones they are. -/
theorem eq_of_pairwise_before {all all' : List Hole} (h : all.Pairwise Hole.Before)
    (h' : all'.Pairwise Hole.Before) (hmem : ∀ hole, hole ∈ all ↔ hole ∈ all') : all = all' := by
  have hnodup : ∀ {l : List Hole}, l.Pairwise Hole.Before → l.Nodup := by
    intro l hl
    refine hl.imp ?_
    rintro a _ hab rfl
    exact Hole.before_asymm hab hab
  refine List.Perm.eq_of_pairwise ?_ h h'
    ((List.perm_ext_iff_of_nodup (hnodup h) (hnodup h')).mpr hmem)
  intro a b _ _ hab hba
  exact absurd hba (Hole.before_asymm hab)

theorem rejects_unique {calls : List Call} {e e' : RecordingError} (h : Rejects calls e)
    (h' : Rejects calls e') : e = e' := by
  cases h with
  | tooManyNodes hmany =>
    cases h' with
    | tooManyNodes _ => rfl
    | _ => grind [Fits]
  | tooManyHeaps hfew hmany =>
    cases h' with
    | tooManyHeaps _ _ => rfl
    | _ => grind [Fits]
  | duplicateNode hfits hfirst =>
    have hrepeat := Roster.not_nodup_of_firstRepeat hfirst
    cases h' with
    | duplicateNode _ hfirst' =>
      rw [Roster.firstRepeat_unique hfirst hfirst']
    | _ => grind [Fits]
  | unknownHeap hfits hnodup hnodes hknown hunknown =>
    cases h' with
    | duplicateNode _ hfirst' =>
      exact absurd hnodup (Roster.not_nodup_of_firstRepeat hfirst')
    | unknownHeap _ _ hnodes' hknown' hunknown' =>
      rw [first_unique hnodes hnodes' hunknown hunknown' hknown hknown']
    | _ => grind [Fits]
  | holes hfits hnodup hknown hne hsorted hall =>
    cases h' with
    | duplicateNode _ hfirst' =>
      exact absurd hnodup (Roster.not_nodup_of_firstRepeat hfirst')
    | holes _ _ _ _ hsorted' hall' =>
      rw [eq_of_pairwise_before hsorted hsorted' fun hole => (hall hole).trans (hall' hole).symm]
    | _ => grind [Fits]

theorem not_whole_of_rejects {calls : List Call} {e : RecordingError} (h : Rejects calls e) :
    ¬ Whole calls := by
  intro hwhole
  cases h with
  | tooManyNodes hmany => exact Nat.not_lt.mpr hwhole.fits.nodes hmany
  | tooManyHeaps _ hmany => exact Nat.not_lt.mpr hwhole.fits.heaps hmany
  | duplicateNode _ hfirst => exact Roster.not_nodup_of_firstRepeat hfirst hwhole.nodup
  | @unknownHeap before after record _ _ hnodes _ hunknown =>
    exact hunknown (hwhole.known record (by simp [hnodes]))
  | holes _ _ _ hne _ hall =>
    obtain ⟨hole, hmem⟩ := List.exists_mem_of_ne_nil _ hne
    exact hwhole.closed hole ((hall hole).mp hmem)

theorem exists_build_iff {width : IdWidth} {calls : List Call} :
    (∃ g, (replay width calls).build = .ok g) ↔ Whole calls := by
  refine ⟨?_, ?_⟩
  · rintro ⟨g, hbuild⟩
    exact whole_of_ok hbuild
  · intro hwhole
    cases hbuild : (replay width calls).build with
    | ok g => exact ⟨g, rfl⟩
    | error e => exact absurd hwhole (not_whole_of_rejects (rejects_of_error hbuild))

theorem build_eq_error_iff {width : IdWidth} {calls : List Call} {e : RecordingError} :
    (replay width calls).build = .error e ↔ Rejects calls e := by
  refine ⟨rejects_of_error, ?_⟩
  intro hrejects
  cases hbuild : (replay width calls).build with
  | ok g => exact absurd (whole_of_ok hbuild) (not_whole_of_rejects hrejects)
  | error e' => rw [rejects_unique (rejects_of_error hbuild) hrejects]

/-- A recording is rejected for exactly its first fault, with all that the fault tells, and it is a
graph where it has none. -/
theorem a_recording_is_rejected_for_its_first_fault (width : IdWidth) (calls : List Call) :
    (∀ e, (replay width calls).build = .error e ↔ Rejects calls e) ∧
      ((∃ g, (replay width calls).build = .ok g) ↔ Whole calls) :=
  ⟨fun _ => build_eq_error_iff, exists_build_iff⟩

/-- An object added twice comes before a node in an unknown heap and an absent root. -/
example : (replay .four [.root ⟨5⟩ .unknown, .node ⟨⟨1⟩, ⟨7⟩, .instanceOf none, .bytes 4⟩,
      .heap "app", .node ⟨⟨1⟩, ⟨0⟩, .instanceOf none, .bytes 4⟩]).build =
    .error (.duplicateNode ⟨1⟩) := by
  cbv

end Recording

end HeapRetention
