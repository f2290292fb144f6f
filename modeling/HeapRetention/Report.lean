-- Reports. A report shows the results of a session to a reader: totals, the
-- dominators of all nodes, the nodes that retain the most, or the chain of
-- one node. Sums over several heaps have to be counts, so a report that needs
-- a larger one has no text.
import HeapRetention.Forms
import HeapRetention.Json.Writer
import HeapRetention.Session
import HeapRetention.Text.Padding
import HeapRetention.Text.Quoted

namespace HeapRetention

/-- Why a report has no text. -/
inductive ReportError where
  | search (error : SearchError)
  | unknownHeap (name : String)
  | unknownNode (id : NodeId)
  /-- A sum over heaps passes the largest count. -/
  | overflow
deriving DecidableEq, Repr

/-- The message for the reader. An overflow stops the program without one. -/
def ReportError.message? : ReportError → Option String
  | search error => some error.message
  | unknownHeap name => some s!"unknown heap {Text.quoted name}"
  | unknownNode id => some s!"no node with id {id.text}"
  | overflow => none

namespace Report

/-- A number in decimal digits. -/
def count (n : Nat) : String := Numeral.decimal n

/-- A line of a report. -/
def line (text : String) : String := text ++ "\n"

/-- A sum over heaps that a report needs. -/
def needed (sum : Option Bytes) : Except ReportError Bytes :=
  match sum with
  | some bytes => .ok bytes
  | none => .error .overflow

/-! ## Labels -/

/-- A short description of a node. -/
def label (g : HeapGraph) (node : Node) : String :=
  match node.kind with
  | .classObject name => s!"class {name}"
  | .instanceOf class? =>
    match (class?.bind g.find?).bind Node.className? with
    | some name => s!"{name} instance"
    | none => "instance"
  | .array element length => s!"{element.name}[{count length.toNat}]"

/-- The description of the node at a dense index. -/
def labelAt? (g : HeapGraph) (i : Nat) : Option String := (g.node? i).map (label g)

/-! ## Totals -/

/-- The totals of a snapshot. -/
def summary (g : HeapGraph) (t : DominatorTree) (table : RetainedTable) :
    Except ReportError String := do
  let reachable ← needed table.sentinelTotal?
  let heaps := (g.heaps.toList.zip g.heapIds).map fun (name, heap) =>
    let bytes := Text.padLeft 12 (count (table.sentinel heap).toNat)
    line s!"  {Text.padRight 12 name} {bytes} bytes reachable"
  let warnings := t.warnings.map fun warning => line s!"warning: {warning.message}"
  pure <| String.join <|
    [line s!"nodes:      {count g.size}",
     line s!"references: {count g.referenceCount}",
     line s!"roots:      {count g.roots.length} ({count g.rootIndices.length} distinct)",
     line s!"reachable:  {count t.size}",
     line s!"passes:     {count t.passes}",
     line "heaps:"] ++ heaps ++
    [line s!"total:      {count reachable.toNat} of {count g.totalSize.toNat} bytes reachable"] ++
    warnings

/-! ## Dominators -/

/-- The form of a dominator. -/
def dominatorData : Dominator NodeId → Data
  | .sentinel => .string "sentinel"
  | .node id => .object [("node", id.toData)]

/-- The line of a node and its dominator. -/
def dominatorLine (entry : NodeId × Dominator NodeId) : String :=
  line s!"{entry.1.text} <- {entry.2.text}"

/-- The immediate dominators of all reachable nodes, in ascending order of ids. -/
def dominators (g : HeapGraph) (t : DominatorTree) (json : Bool)
    (write : Data → String := Json.writeLines) : String :=
  let entries := t.byId g
  if json then
    write <| .object <|
      entries.map fun (id, dominator) => (count id.word.toNat, dominatorData dominator)
  else String.join (entries.map dominatorLine)

/-! ## The nodes that retain the most -/

/-- A row of a ranking. -/
structure Row where
  id : NodeId
  label : String
  /-- What the node retains of each heap, in ascending order of names. -/
  retained : List (String × Bytes)
deriving DecidableEq, Repr

/-- The row of a node. -/
def row? (g : HeapGraph) (table : RetainedTable) (i : Nat) : Option Row :=
  (g.node? i).map fun node => ⟨node.id, label g node, table.byName g i⟩

/-- All reachable nodes with what they retain over all heaps. -/
def totals (t : DominatorTree) (table : RetainedTable) :
    Except ReportError (List (Nat × Bytes)) :=
  t.order.mapM fun i => (needed (table.total? i)).map fun bytes => (i, bytes)

/-- The nodes that retain the most bytes, of one heap or of all heaps together. -/
def ranking (g : HeapGraph) (t : DominatorTree) (table : RetainedTable) (heap : Option String)
    (top : Nat) : Except ReportError (List Row) := do
  let shares ← match heap with
    | some name =>
      match g.heapNamed? name with
      | some heap => .ok (table.largest heap top)
      | none => .error (.unknownHeap name)
    | none => (totals t table).map fun all => (RetainedTable.ranked all).take top
  pure (shares.filterMap fun share => row? g table share.1)

/-- The bytes that a row shows: those of one heap, or of all heaps together. -/
def Row.bytes (row : Row) (heap : Option String) : Except ReportError Bytes :=
  match heap with
  | some name => .ok (((row.retained.find? fun share => share.1 = name).map (·.2)).getD 0)
  | none => needed (Bytes.sum? (row.retained.map (·.2)))

/-- The line of a row. -/
def Row.line (heap : Option String) (row : Row) : Except ReportError String := do
  let bytes ← row.bytes heap
  let shares := (row.retained.filter fun share => share.2 ≠ 0).map fun (name, bytes) =>
    s!"{name}={count bytes.toNat}"
  let number := Text.padLeft 12 (count bytes.toNat)
  let parts := ", ".intercalate shares
  pure (Report.line s!"{number}  {Text.padRight 18 row.id.text} {row.label}  [{parts}]")

/-- The form of a row. -/
def Row.toData (row : Row) : Data :=
  .object [("id", row.id.toData), ("label", .string row.label),
    ("retained", .object (row.retained.map fun (name, bytes) => (name, .word bytes)))]

/-- The ranking of the nodes that retain the most. -/
def retained (g : HeapGraph) (t : DominatorTree) (table : RetainedTable) (heap : Option String)
    (top : Nat) (json : Bool) (write : Data → String := Json.writeLines) :
    Except ReportError String := do
  let rows ← ranking g t table heap top
  if json then pure (write (.list (rows.map Row.toData)))
  else (rows.mapM (Row.line heap)).map String.join

/-! ## The chain of a node -/

/-- The line of a dominator in a chain. -/
def chainLine (g : HeapGraph) : Dominator NodeId → String
  | .sentinel => line "  <- <sentinel>"
  | .node id =>
    let description := ((g.find? id).map (label g)).getD ""
    line s!"  <- {id.text} {description}"

/-- A node and the dominators above it. -/
def path (g : HeapGraph) (node : Node) (chain : List (Dominator NodeId)) : String :=
  if chain.isEmpty then line s!"{node.id.text} is unreachable from every root"
  else String.join (line s!"{node.id.text} {label g node}" :: chain.map (chainLine g))

end Report

/-! ## Reports of a session -/

/-- A report that can be asked for. -/
inductive ReportRequest where
  | summary
  | dominators (json : Bool)
  | retained (heap : Option String) (top : UInt64) (json : Bool)
  | path (id : NodeId)
deriving DecidableEq, Repr

namespace Session

/-- What a log says of retained sizes. A detailed one names the reachable bytes of all heaps, and
so needs their sum. -/
def logSizes (detailed : Bool) (table : RetainedTable) : Except ReportError Unit :=
  if detailed then (Report.needed table.sentinelTotal?).map fun _ => () else .ok ()

/-- The tree and the retained sizes. -/
def artifacts (s : Session) (detailed : Bool) :
    Except ReportError (DominatorTree × RetainedTable) × Session :=
  match s.dominators with
  | (.error error, s) => (.error (.search error), s)
  | (.ok tree, s) =>
    let (table, s) := s.retainedLogged .search (logSizes detailed)
    (table.map fun table => (tree, table), s)

/-- The text of a report, whose forms are written as `write` does. A node has to be known before
anything is computed for it. -/
def report (s : Session) (detailed : Bool) (request : ReportRequest)
    (write : Data → String := Json.writeLines) : Except ReportError String × Session :=
  match request with
  | .summary =>
    let (found, s) := s.artifacts detailed
    (found.bind fun (tree, table) => Report.summary s.graph tree table, s)
  | .dominators json =>
    let (tree, s) := s.dominators
    match tree with
    | .ok tree => (.ok (Report.dominators s.graph tree json write), s)
    | .error error => (.error (.search error), s)
  | .retained heap top json =>
    let (found, s) := s.artifacts detailed
    (found.bind fun (tree, table) =>
      Report.retained s.graph tree table heap top.toNat json write, s)
  | .path id =>
    match s.graph.find? id with
    | none => (.error (.unknownNode id), s)
    | some node =>
      let (chain, s) := s.dominatorPath id
      match chain with
      | .ok chain => (.ok (Report.path s.graph node chain), s)
      | .error error => (.error (.search error), s)

end Session

end HeapRetention
