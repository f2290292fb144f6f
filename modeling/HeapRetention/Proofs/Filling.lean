-- The laws of filling holes. A recording with holes is loaded again with a node
-- for every absent object that its holes name. It is a graph then, unless an
-- absent object refers to another one that no hole names: of such a reference
-- only the source is reported, and its target comes to light in the second
-- round.
import HeapRetention.Proofs.Faults

namespace HeapRetention

/-- The absent object that a hole names. -/
def Hole.absent : Hole → NodeId
  | target _ absent => absent
  | source owner => owner
  | root id _ => id

namespace Recording

/-! ## Calls in another order -/

/-! ## Calls with further nodes -/

/-- Further nodes that fill holes: one for each absent object that the holes name, each in a heap
that the calls register. -/
structure Fills (calls : List Call) (all : List Hole) (more : List NodeRecord) : Prop where
  nodup : (more.map NodeRecord.id).Nodup
  mem_ids : ∀ id, id ∈ more.map NodeRecord.id ↔ ∃ hole ∈ all, hole.absent = id
  known : ∀ record ∈ more, InKnownHeap calls record

/-- The same calls and, somewhere among them, further nodes. -/
def Enriches (calls' calls : List Call) (more : List NodeRecord) : Prop :=
  calls'.Perm (calls ++ more.map Call.node)

section Enriched

variable {calls calls' : List Call} {more : List NodeRecord} (h : Enriches calls' calls more)

include h

theorem nodesOf_enriched : (nodesOf calls').Perm (nodesOf calls ++ more) := by
  have hmore : (more.map Call.node).flatMap Call.nodes = more := by
    rw [List.flatMap_map]
    exact List.flatMap_singleton' more
  have hperm := List.Perm.flatMap_right Call.nodes h
  rwa [List.flatMap_append, hmore] at hperm

theorem idsOf_enriched : (idsOf calls').Perm (idsOf calls ++ more.map NodeRecord.id) := by
  unfold idsOf
  rw [← List.map_append]
  exact (nodesOf_enriched h).map _

/-- Further nodes add nothing but nodes. -/
theorem flatMap_enriched {α : Type} (part : Call → List α)
    (hnode : ∀ record, part (.node record) = []) :
    (calls'.flatMap part).Perm (calls.flatMap part) := by
  have hmore : (more.map Call.node).flatMap part = [] := by
    rw [List.flatMap_map, List.flatMap_eq_nil_iff]
    exact fun record _ => hnode record
  have hperm := List.Perm.flatMap_right part h
  rwa [List.flatMap_append, hmore, List.append_nil] at hperm

theorem mem_edgesOf_enriched {edge : NodeId × NodeId} :
    edge ∈ edgesOf calls' ↔ edge ∈ edgesOf calls :=
  (flatMap_enriched h Call.edges fun _ => rfl).mem_iff

theorem mem_rootsOf_enriched {root : NodeId × RootKind} :
    root ∈ rootsOf calls' ↔ root ∈ rootsOf calls :=
  (flatMap_enriched h Call.roots fun _ => rfl).mem_iff

theorem length_heapsOf_enriched : (heapsOf calls').length = (heapsOf calls).length :=
  length_eraseDups_of_perm (flatMap_enriched h Call.heaps fun _ => rfl)

theorem mem_idsOf_enriched {id : NodeId} :
    id ∈ idsOf calls' ↔ id ∈ idsOf calls ∨ id ∈ more.map NodeRecord.id := by
  rw [(idsOf_enriched h).mem_iff, List.mem_append]

end Enriched

/-! ## What is still missing -/

theorem absent_of_leaves {calls : List Call} {hole : Hole} (h : Leaves calls hole) :
    hole.absent ∉ idsOf calls := by
  cases h with
  | target _ _ habsent => exact habsent
  | source _ howner => exact howner
  | root _ hid => exact hid

/-- A reference of an absent object to another one that no hole names. -/
structure Overlooked (calls : List Call) (all : List Hole) (owner other : NodeId) : Prop where
  recorded : (owner, other) ∈ edgesOf calls
  owner_absent : owner ∉ idsOf calls
  other_absent : other ∉ idsOf calls
  unnamed : ∀ hole ∈ all, hole.absent ≠ other

section Filled

variable {calls calls' : List Call} {all : List Hole} {more : List NodeRecord}
  (hall : ∀ hole, hole ∈ all ↔ Leaves calls hole) (hfills : Fills calls all more)
  (h : Enriches calls' calls more)

include hall hfills h

theorem mem_idsOf_filled {id : NodeId} :
    id ∈ idsOf calls' ↔ id ∈ idsOf calls ∨ ∃ hole, Leaves calls hole ∧ hole.absent = id := by
  rw [mem_idsOf_enriched h, hfills.mem_ids]
  simp only [hall]

/-- Filled calls leave only the targets of overlooked references. -/
theorem leaves_filled {hole : Hole} :
    Leaves calls' hole ↔ ∃ owner other, Overlooked calls all owner other ∧
      hole = .target owner other := by
  have hnamed : ∀ {hole}, Leaves calls hole → hole.absent ∈ idsOf calls' := fun {hole} hleaves =>
    (mem_idsOf_filled hall hfills h).mpr (Or.inr ⟨hole, hleaves, rfl⟩)
  have hkept : ∀ {id}, id ∉ idsOf calls' → id ∉ idsOf calls := fun hid hold =>
    hid ((mem_idsOf_filled hall hfills h).mpr (Or.inl hold))
  refine ⟨?_, ?_⟩
  · intro hleaves
    cases hleaves with
    | @target owner other hedge howner hother =>
      rw [mem_edgesOf_enriched h] at hedge
      refine ⟨owner, other, ⟨hedge, ?_, hkept hother, ?_⟩, rfl⟩
      · intro hold
        exact hother (hnamed (Leaves.target hedge hold (hkept hother)))
      · rintro hole hmem rfl
        exact hother (hnamed ((hall hole).mp hmem))
    | source hedge howner =>
      rw [mem_edgesOf_enriched h] at hedge
      exact absurd (hnamed (Leaves.source hedge (hkept howner))) howner
    | root hroot hid =>
      rw [mem_rootsOf_enriched h] at hroot
      exact absurd (hnamed (Leaves.root hroot (hkept hid))) hid
  · rintro ⟨owner, other, hover, rfl⟩
    refine Leaves.target ((mem_edgesOf_enriched h).mpr hover.recorded)
      (hnamed (Leaves.source hover.recorded hover.owner_absent)) ?_
    intro hother
    rcases (mem_idsOf_filled hall hfills h).mp hother with hold | ⟨hole, hleaves, rfl⟩
    · exact hover.other_absent hold
    · exact hover.unnamed hole ((hall hole).mpr hleaves) rfl

theorem nodup_filled (hnodup : (idsOf calls).Nodup) : (idsOf calls').Nodup := by
  rw [(idsOf_enriched h).nodup_iff, List.nodup_append]
  refine ⟨hnodup, hfills.nodup, ?_⟩
  rintro a ha b hb rfl
  obtain ⟨hole, hmem, rfl⟩ := (hfills.mem_ids a).mp hb
  exact absent_of_leaves ((hall hole).mp hmem) ha

omit hall in
theorem known_filled (hknown : ∀ record ∈ nodesOf calls, InKnownHeap calls record) :
    ∀ record ∈ nodesOf calls', InKnownHeap calls' record := by
  intro record hmem
  rw [(nodesOf_enriched h).mem_iff, List.mem_append] at hmem
  unfold InKnownHeap
  rw [length_heapsOf_enriched h]
  rcases hmem with hold | hnew
  · exact hknown record hold
  · exact hfills.known record hnew

end Filled

/-- A recording whose holes are filled is a graph, unless an absent object refers to another absent
one that no hole names. Those references, and no others, are its holes then. -/
theorem filled_holes_stay_filled_but_for_overlooked_references {width : IdWidth}
    {calls calls' : List Call} {all : List Hole} {more : List NodeRecord}
    (hbuild : (replay width calls).build = .error (.holes all)) (hfills : Fills calls all more)
    (hcalls : Enriches calls' calls more) (hroom : (idsOf calls').eraseDups.length ≤ maxNodes) :
    ((∃ g, (replay width calls').build = .ok g) ↔
      ∀ owner other, ¬ Overlooked calls all owner other) ∧
    ∀ e, (replay width calls').build = .error e → ∃ again, e = .holes again ∧
      ∀ hole, hole ∈ again ↔ ∃ owner other, Overlooked calls all owner other ∧
        hole = .target owner other := by
  cases build_eq_error_iff.mp hbuild with
  | holes hfits hnodup hknown _ _ hall =>
    have hnodup' := nodup_filled hall hfills hcalls hnodup
    have hknown' := known_filled hfills hcalls hknown
    have hleaves : ∀ hole, Leaves calls' hole ↔ ∃ owner other,
        Overlooked calls all owner other ∧ hole = .target owner other :=
      fun _ => leaves_filled hall hfills hcalls
    have hfits' : Fits calls' := by
      refine ⟨hroom, ?_⟩
      rw [length_heapsOf_enriched hcalls]
      exact hfits.heaps
    refine ⟨?_, ?_⟩
    · rw [exists_build_iff]
      refine ⟨?_, ?_⟩
      · intro hwhole owner other hover
        exact hwhole.closed _ ((hleaves _).mpr ⟨owner, other, hover, rfl⟩)
      · intro hnone
        refine ⟨hfits', hnodup', hknown', ?_⟩
        intro hole hleft
        obtain ⟨owner, other, hover, _⟩ := (hleaves hole).mp hleft
        exact hnone owner other hover
    · intro e he
      cases build_eq_error_iff.mp he with
      | tooManyNodes hmany => exact absurd hmany (Nat.not_lt.mpr hroom)
      | tooManyHeaps _ hmany => exact absurd hmany (Nat.not_lt.mpr hfits'.heaps)
      | duplicateNode _ hfirst => exact absurd hnodup' (Roster.not_nodup_of_firstRepeat hfirst)
      | unknownHeap _ _ hnodes _ hunknown =>
        exact absurd (hknown' _ (by simp [hnodes])) hunknown
      | holes _ _ _ _ _ hagain => exact ⟨_, rfl, fun hole => (hagain hole).trans (hleaves hole)⟩

/-- A small object that fills a hole. -/
def filler (id : NodeId) : NodeRecord := ⟨id, ⟨0⟩, .instanceOf none, .bytes 4⟩

/-- Holes of the three kinds. The reference between two absent objects is to one that another hole
names. -/
def holed : List Call :=
  [.heap "app", .node (filler ⟨1⟩), .reference ⟨1⟩ ⟨9⟩, .reference ⟨8⟩ ⟨9⟩, .root ⟨5⟩ .unknown]

/-- Nodes for all of its holes make the holed recording a graph. -/
theorem three_filled_holes_stay_filled :
    ∃ g, (replay .eight (.node (filler ⟨5⟩) :: holed ++
      [.node (filler ⟨9⟩), .node (filler ⟨8⟩)])).build = .ok g := by
  have hbuild : (replay .eight holed).build =
      .error (.holes [.target ⟨1⟩ ⟨9⟩, .source ⟨8⟩, .root ⟨5⟩ .unknown]) := by
    cbv
  have hfills : Fills holed [.target ⟨1⟩ ⟨9⟩, .source ⟨8⟩, .root ⟨5⟩ .unknown]
      [filler ⟨9⟩, filler ⟨8⟩, filler ⟨5⟩] := by
    refine ⟨by decide, ?_, by decide⟩
    intro id
    simp [filler, Hole.absent, eq_comm]
  have hcalls : Enriches (.node (filler ⟨5⟩) :: holed ++ [.node (filler ⟨9⟩), .node (filler ⟨8⟩)])
      holed [filler ⟨9⟩, filler ⟨8⟩, filler ⟨5⟩] := by
    unfold Enriches
    decide
  refine (filled_holes_stay_filled_but_for_overlooked_references hbuild hfills hcalls
    (by decide)).1.mpr ?_
  -- both references are to the object that the first hole names
  rintro owner other ⟨hedge, -, -, hunnamed⟩
  have hnine : other = ⟨9⟩ := by
    simp only [edgesOf, holed, Call.edges, List.flatMap_cons, List.flatMap_nil, List.nil_append,
      List.append_nil, List.cons_append, List.mem_cons, List.not_mem_nil, or_false,
      Prod.mk.injEq] at hedge
    rcases hedge with ⟨-, hnine⟩ | ⟨-, hnine⟩ <;> exact hnine
  exact hunnamed (.target ⟨1⟩ ⟨9⟩) (by simp) hnine.symm

/-- An absent object that refers to another one. -/
def nested : List Call :=
  [.heap "app", .node (filler ⟨1⟩), .reference ⟨8⟩ ⟨9⟩, .root ⟨1⟩ .unknown]

/-- The only hole of the nested recording hides another one: a node in its place leaves a recording
that has a hole again. -/
theorem a_filled_hole_uncovers_another :
    (replay .eight nested).build = .error (.holes [.source ⟨8⟩]) ∧
      Fills nested [.source ⟨8⟩] [filler ⟨8⟩] ∧
      Enriches (nested ++ [.node (filler ⟨8⟩)]) nested [filler ⟨8⟩] ∧
      (replay .eight (nested ++ [.node (filler ⟨8⟩)])).build =
        .error (.holes [.target ⟨8⟩ ⟨9⟩]) := by
  refine ⟨by cbv, ⟨by decide, ?_, by decide⟩, List.Perm.refl _, by cbv⟩
  intro id
  simp [filler, Hole.absent, eq_comm]

end Recording

end HeapRetention
