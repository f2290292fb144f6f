-- The laws of the report that is read back. A report of dominators has one line
-- for each node, and no id and no dominator has a blank or a newline in its
-- text. So the lines can be told apart and cut in two, and the ids that are
-- read from them are those of the tree.
import Mathlib
import HeapRetention.Report
import HeapRetention.Proofs.Cache
import HeapRetention.Proofs.Exports
import HeapRetention.Proofs.Numerals
import HeapRetention.Proofs.Totals

namespace HeapRetention

/-! ## Texts in pieces -/

namespace Text

/-- The pieces of a text between the places where a separator stands, which is a character with
some more behind it. The search goes on after each separator that it finds. -/
def pieces (first : Char) (more : List Char) : List Char → List (List Char)
  | [] => [[]]
  | c :: rest =>
    if (first :: more).isPrefixOf (c :: rest) then
      [] :: pieces first more (rest.drop more.length)
    else (pieces first more rest).modifyHead (c :: ·)
termination_by text => text.length

/-- The lines of a text. The last newline ends a line and starts no other one. -/
def lines (text : List Char) : List (List Char) :=
  let parts := pieces '\n' [] text
  if parts.getLast? = some [] then parts.dropLast else parts

section Pieces

variable {first : Char} {more : List Char}

theorem pieces_cons_of_ne {c : Char} (hc : c ≠ first) (rest : List Char) :
    pieces first more (c :: rest) = (pieces first more rest).modifyHead (c :: ·) := by
  have hprefix : (first :: more).isPrefixOf (c :: rest) = false := by
    simp [List.isPrefixOf, Ne.symm hc]
  rw [pieces, hprefix, if_neg Bool.false_ne_true]

theorem pieces_separator (rest : List Char) :
    pieces first more (first :: (more ++ rest)) = [] :: pieces first more rest := by
  have hprefix : (first :: more).isPrefixOf (first :: (more ++ rest)) = true := by
    rw [List.isPrefixOf_iff_prefix]
    exact List.prefix_append (first :: more) rest
  rw [pieces, hprefix, if_pos rfl, List.drop_left]

/-- A text in which a separator cannot even begin is one piece. -/
theorem pieces_of_not_mem {part : List Char} (h : first ∉ part) :
    pieces first more part = [part] := by
  induction part with
  | nil => simp [pieces]
  | cons c rest ih =>
    rw [List.mem_cons, not_or] at h
    rw [pieces_cons_of_ne (Ne.symm h.1), ih h.2, List.modifyHead_cons]

/-- Where a separator cannot begin earlier, the first one ends the first piece. -/
theorem pieces_append {part : List Char} (h : first ∉ part) (rest : List Char) :
    pieces first more (part ++ first :: (more ++ rest)) = part :: pieces first more rest := by
  induction part with
  | nil => exact pieces_separator rest
  | cons c part ih =>
    rw [List.mem_cons, not_or] at h
    rw [List.cons_append, pieces_cons_of_ne (Ne.symm h.1), ih h.2, List.modifyHead_cons]

end Pieces

/-- Lines that each end with a newline are the lines of the whole text. -/
theorem lines_flatMap {parts : List (List Char)} (h : ∀ part ∈ parts, '\n' ∉ part) :
    lines (parts.flatMap (· ++ ['\n'])) = parts := by
  have hpieces : pieces '\n' [] (parts.flatMap (· ++ ['\n'])) = parts ++ [[]] := by
    induction parts with
    | nil => simp [pieces]
    | cons part parts ih =>
      have hrest := ih fun other hother => h other (List.mem_cons_of_mem _ hother)
      rw [List.flatMap_cons, List.append_assoc, List.cons_append,
        pieces_append (h part List.mem_cons_self), hrest, List.cons_append]
  simp [lines, hpieces]

end Text

/-! ## Reading a report -/

namespace Report

/-- The dominator that a text shows. -/
def readDominator? (text : List Char) : Option (Dominator NodeId) :=
  if text = "<sentinel>".toList then some .sentinel else (NodeId.read? text).map .node

/-- The node and the dominator that a line shows on the two sides of its arrow. -/
def readLine? (line : List Char) : Option (NodeId × Dominator NodeId) :=
  match Text.pieces ' ' ['<', '-', ' '] line with
  | [left, right] => do
    let id ← NodeId.read? left
    let dominator ← readDominator? right
    pure (id, dominator)
  | _ => none

/-- The nodes and dominators that a report shows, if every line can be read. -/
def readDominators? (report : String) : Option (List (NodeId × Dominator NodeId)) :=
  (Text.lines report.toList).mapM readLine?

/-- The characters of a line without its newline. -/
def written (entry : NodeId × Dominator NodeId) : List Char :=
  entry.1.text.toList ++ ' ' :: (['<', '-', ' '] ++ entry.2.text.toList)

theorem toList_dominatorLine (entry : NodeId × Dominator NodeId) :
    (dominatorLine entry).toList = written entry ++ ['\n'] := by
  have harrow : " <- ".toList = [' ', '<', '-', ' '] := by decide
  simp [dominatorLine, line, written, toString, harrow]

theorem toList_dominators (g : HeapGraph) (t : DominatorTree) :
    (dominators g t false).toList = ((t.byId g).map written).flatMap (· ++ ['\n']) := by
  simp [dominators, String.toList_join, List.flatMap_map, toList_dominatorLine]

/-! ## Reading what was written -/

/-- A character that is neither of the mark of an id nor a digit is not in the text of an id. -/
theorem not_mem_text {c : Char} (hzero : c ≠ '0') (hx : c ≠ 'x') (hrank : Numeral.digitRank c = 36)
    (id : NodeId) : c ∉ id.text.toList := by
  rw [NodeId.toList_text, List.mem_cons, List.mem_cons, not_or, not_or]
  exact ⟨hzero, hx, Numeral.not_mem_digits (by decide) (by decide) hrank⟩

theorem not_mem_dominator_text {c : Char} (hzero : c ≠ '0') (hx : c ≠ 'x')
    (hrank : Numeral.digitRank c = 36) (hsentinel : c ∉ "<sentinel>".toList)
    (dominator : Dominator NodeId) : c ∉ dominator.text.toList := by
  cases dominator with
  | sentinel => exact hsentinel
  | node id => exact not_mem_text hzero hx hrank id

theorem readDominator?_text (dominator : Dominator NodeId) :
    readDominator? dominator.text.toList = some dominator := by
  unfold readDominator?
  cases dominator with
  | sentinel => exact if_pos rfl
  | node id =>
    have hne : (Dominator.node id).text.toList ≠ "<sentinel>".toList := by
      intro heq
      have hmem : '<' ∈ id.text.toList := by
        have htext : id.text.toList = "<sentinel>".toList := heq
        rw [htext]
        decide
      exact not_mem_text (by decide) (by decide) (by decide) id hmem
    have hread : NodeId.read? (Dominator.node id).text.toList = some id := id.read?_text
    rw [if_neg hne, hread, Option.map_some]

theorem readLine?_written (entry : NodeId × Dominator NodeId) :
    readLine? (written entry) = some entry := by
  have hleft : ' ' ∉ entry.1.text.toList :=
    not_mem_text (by decide) (by decide) (by decide) entry.1
  have hright : ' ' ∉ entry.2.text.toList :=
    not_mem_dominator_text (by decide) (by decide) (by decide) (by decide) entry.2
  unfold readLine? written
  rw [Text.pieces_append hleft, Text.pieces_of_not_mem hright]
  simp [NodeId.read?_text, readDominator?_text]

theorem newline_not_mem_written (entry : NodeId × Dominator NodeId) : '\n' ∉ written entry := by
  have hleft := not_mem_text (c := '\n') (by decide) (by decide) (by decide) entry.1
  have hright :=
    not_mem_dominator_text (c := '\n') (by decide) (by decide) (by decide) (by decide) entry.2
  simp [written, hleft, hright]

/-- What is read from the report of a tree is the tree by ids. -/
theorem readDominators?_dominators (g : HeapGraph) (t : DominatorTree) :
    readDominators? (dominators g t false) = some (t.byId g) := by
  have hlines : Text.lines (dominators g t false).toList = (t.byId g).map written := by
    rw [toList_dominators]
    apply Text.lines_flatMap
    intro part hpart
    obtain ⟨entry, _, rfl⟩ := List.mem_map.mp hpart
    exact newline_not_mem_written entry
  rw [readDominators?, hlines]
  generalize t.byId g = entries
  induction entries with
  | nil => rfl
  | cons entry entries ih =>
    rw [List.map_cons, List.mapM_cons, ih, readLine?_written]
    rfl

end Report

/-! ## The law -/

theorem DominatorTree.pairwise_lt_byId {t : DominatorTree} {g : HeapGraph} (ht : t.IsOf g) :
    (t.byId g).Pairwise fun a b => a.1.word < b.1.word := by
  have hne := List.pairwise_map.mp (nodup_keys_byId ht)
  refine (pairwise_byId t g).imp₂ ?_ hne
  intro a b hle hne
  have hword : a.1.word ≠ b.1.word := by
    intro hsame
    exact hne (congrArg NodeId.mk hsame)
  exact Std.lt_of_le_of_ne hle hword

namespace Session

/-- A session on a graph, after any calls, has a text as its report of dominators. -/
def Prints (g : HeapGraph) (text : String) : Prop :=
  ∃ settings tokens workers calls detailed,
    (((start g settings tokens workers).after calls).report detailed (.dominators false)).1 = .ok text

/-- All sessions on a graph that report its dominators have the same text for them. -/
theorem exists_of_prints {g : HeapGraph} {text : String} (h : Prints g text) :
    ∃ t, DominatorTree.ofGraph g = .ok t ∧ t.IsOf g ∧ text = Report.dominators g t false := by
  obtain ⟨settings, tokens, workers, calls, detailed, htext⟩ := h
  have hsound := sound_after (sound_start g settings tokens workers) calls
  generalize (start g settings tokens workers).after calls = s at htext hsound
  have hgraph : s.dominators.2.graph = g := (graph_dominators s).trans hsound.graph_eq
  have hfresh : ∀ t, s.dominators.1 = .ok t →
      DominatorTree.search g settings.maxPasses false = .ok t :=
    fun t => fresh_of_outcome (dominators_outcome hsound)
  unfold report at htext
  generalize s.dominators = r at htext hgraph hfresh
  obtain ⟨answer, s'⟩ := r
  cases answer with
  | error _ => cases htext
  | ok t =>
    have hsearch := hfresh t rfl
    refine ⟨t, DominatorTree.ofGraph_of_search hsearch, DominatorTree.isOf_of_search hsearch, ?_⟩
    rw [← hgraph]
    exact (Except.ok.inj htext).symm

/-- The report of dominators can be read back: every line is two texts at an arrow, and what they
show is the map of the tree by ids, in strictly ascending order. So only graphs with the same map
have the same report. -/
theorem the_report_of_dominators_is_read_back {g : HeapGraph} {text : String}
    (h : Prints g text) :
    ∃ t, DominatorTree.ofGraph g = .ok t ∧
      Report.readDominators? text = some (t.mapById g).toList ∧
      ((t.mapById g).toList.Pairwise fun a b => a.1.word < b.1.word) ∧
      ∀ g', Prints g' text → ∃ t', DominatorTree.ofGraph g' = .ok t' ∧
        (t'.mapById g').toList = (t.mapById g).toList := by
  obtain ⟨t, hsearch, ht, rfl⟩ := exists_of_prints h
  refine ⟨t, hsearch, ?_, ?_, ?_⟩
  · rw [Report.readDominators?_dominators, DominatorTree.toList_mapById ht]
  · rw [DominatorTree.toList_mapById ht]
    exact DominatorTree.pairwise_lt_byId ht
  · intro g' h'
    obtain ⟨t', hsearch', ht', hsame⟩ := exists_of_prints h'
    refine ⟨t', hsearch', ?_⟩
    rw [DominatorTree.toList_mapById ht', DominatorTree.toList_mapById ht]
    have hread := Report.readDominators?_dominators g' t'
    rw [← hsame, Report.readDominators?_dominators] at hread
    exact (Option.some.inj hread).symm

/-- The report of the knot. -/
def knotReport : String :=
  "0x1 <- <sentinel>\n0x2 <- <sentinel>\n0x3 <- <sentinel>\n0x4 <- 0x3\n0x5 <- <sentinel>\n"

/-- What is read from the report of the knot is its map by ids. -/
theorem the_map_of_the_knot_is_read_from_its_report :
    ∃ g, (Recording.replay .four Recording.knot).build = .ok g ∧ Prints g knotReport ∧
      ∃ t, DominatorTree.ofGraph g = .ok t ∧ (t.mapById g).toList =
        [(⟨1⟩, .sentinel), (⟨2⟩, .sentinel), (⟨3⟩, .sentinel), (⟨4⟩, .node ⟨3⟩),
          (⟨5⟩, .sentinel)] := by
  have hrun : ((Recording.replay .four Recording.knot).build.toOption.bind fun g =>
      ((start g {} {}).report false (.dominators false)).1.toOption) = some knotReport := by
    cbv
  obtain ⟨g, hbuild, htext⟩ := Option.bind_eq_some_iff.mp hrun
  have hprints : Prints g knotReport := ⟨{}, {}, .single, [], false, DominatorTree.eq_ok_of_toOption htext⟩
  have hread : Report.readDominators? knotReport = some
      [(⟨1⟩, .sentinel), (⟨2⟩, .sentinel), (⟨3⟩, .sentinel), (⟨4⟩, .node ⟨3⟩),
        (⟨5⟩, .sentinel)] := by
    decide +kernel
  obtain ⟨t, hsearch, hmap, _⟩ := the_report_of_dominators_is_read_back hprints
  refine ⟨g, DominatorTree.eq_ok_of_toOption hbuild, hprints, t, hsearch, ?_⟩
  exact Option.some.inj (hmap.symm.trans hread)

end Session

end HeapRetention
