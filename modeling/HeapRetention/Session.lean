-- An analysis session. A session keeps one graph and computes its dominator
-- tree and its retained sizes when they are first asked for. What was computed
-- is kept, and a search that failed leaves nothing behind. A search looks at
-- the session's cancellation token, and a token that stopped a search is
-- spent: the session goes on with a new one.
import HeapRetention.Dominator.Search
import HeapRetention.Retained

namespace HeapRetention

/-! ## Tokens -/

/-- A cancellation token, by its number. -/
abbrev Token := Nat

/-- All tokens handed out so far, with whether each was cancelled. -/
structure TokenStore where
  flags : Array Bool := #[]
deriving DecidableEq, Inhabited, Repr

namespace TokenStore

/-- Hands out a new token, which is not cancelled. -/
def issue (store : TokenStore) : Token × TokenStore :=
  (store.flags.size, ⟨store.flags.push false⟩)

/-- Cancels a token, for good. -/
def cancel (store : TokenStore) (token : Token) : TokenStore :=
  ⟨store.flags.setIfInBounds token true⟩

/-- Whether a token was cancelled. -/
def isCancelled (store : TokenStore) (token : Token) : Bool :=
  store.flags[token]?.getD false

end TokenStore

/-! ## Sessions -/

/-- A session on one graph. -/
structure Session where
  graph : HeapGraph
  settings : Settings
  /-- The workers that the settings may leave sums to. -/
  workers : Workers
  tokens : TokenStore
  /-- The token that the next search looks at. -/
  current : Token
  /-- The dominator tree, once it was computed. -/
  tree : Option DominatorTree
  /-- The retained sizes, once they were computed. -/
  table : Option RetainedTable

namespace Session

/-- A new session, whose token is added to those that were handed out before. -/
def start (graph : HeapGraph) (settings : Settings) (tokens : TokenStore)
    (workers : Workers := .single) : Session :=
  let (token, tokens) := tokens.issue
  ⟨graph, settings, workers, tokens, token, none, none⟩

/-- Cancels a token. -/
def cancel (s : Session) (token : Token) : Session :=
  { s with tokens := s.tokens.cancel token }

/-- Goes on with a new token. -/
def renewToken (s : Session) : Session :=
  let (token, tokens) := s.tokens.issue
  { s with tokens := tokens, current := token }

/-- The dominator tree, computed at first use. -/
def dominators (s : Session) : Except SearchError DominatorTree × Session :=
  match s.tree with
  | some tree => (.ok tree, s)
  | none =>
    match DominatorTree.search s.graph s.settings.maxPasses (s.tokens.isCancelled s.current) with
    | .ok tree => (.ok tree, { s with tree := some tree })
    | .error (.cancelled passes) => (.error (.cancelled passes), s.renewToken)
    | .error error => (.error error, s)

/-- The retained sizes, computed at first use together with the tree that they need. Sizes that
were just computed are logged before they are kept. A log that fails breaks the call off, and then
only the tree is kept. -/
def retainedLogged {ε : Type} (s : Session) (failed : SearchError → ε)
    (log : RetainedTable → Except ε Unit) : Except ε RetainedTable × Session :=
  match s.table with
  | some table => (.ok table, s)
  | none =>
    match s.dominators with
    | (.error error, s) => (.error (failed error), s)
    | (.ok tree, s) =>
      let table := RetainedTable.compute s.workers s.settings.parallel s.graph tree
      match log table with
      | .error error => (.error error, s)
      | .ok () => (.ok table, { s with table := some table })

/-- The retained sizes under a log that does not look at them. -/
def retained (s : Session) : Except SearchError RetainedTable × Session :=
  s.retainedLogged id fun _ => .ok ()

/-- The immediate dominator of a node; nothing for an unknown or unreachable one. -/
def dominatorOf (s : Session) (id : NodeId) :
    Except SearchError (Option (Dominator NodeId)) × Session :=
  let (tree, s) := s.dominators
  (tree.map (·.getById? s.graph id), s)

/-- The dominators of a node from the nearest one up to the sentinel. An unknown node has none,
and needs no search. -/
def dominatorPath (s : Session) (id : NodeId) :
    Except SearchError (List (Dominator NodeId)) × Session :=
  match s.graph.indexOf? id with
  | none => (.ok [], s)
  | some i =>
    let (tree, s) := s.dominators
    (tree.map fun tree => (tree.chain i).filterMap s.graph.dominatorId?, s)

/-- The bytes of a named heap that a node retains. An unknown node or heap has none, and needs no
search. -/
def retainedSize (s : Session) (id : NodeId) (heap : String) :
    Except SearchError (Option Bytes) × Session :=
  match s.graph.indexOf? id, s.graph.heapNamed? heap with
  | some i, some heap =>
    let (table, s) := s.retained
    (table.map fun table => some (table.size i heap), s)
  | _, _ => (.ok none, s)

end Session

/-! ## Many graphs -/

/-- The tree and the retained sizes of a graph. -/
structure Analysis where
  tree : DominatorTree
  table : RetainedTable
deriving DecidableEq, Repr

/-- The analysis of a graph in a session of its own. -/
def Analysis.ofGraph (settings : Settings) (g : HeapGraph) (workers : Workers := .single) :
    Except SearchError Analysis :=
  match (Session.start g settings {} workers).retained with
  | (.error error, _) => .error error
  | (.ok table, s) => s.dominators.1.map fun tree => ⟨tree, table⟩

/-- The analyses of independent graphs, which may be made side by side. -/
def Analysis.ofGraphs (settings : Settings) (graphs : List HeapGraph)
    (workers : Workers := .single)
    (each : (HeapGraph → Except SearchError Analysis) → List HeapGraph →
      List (Except SearchError Analysis) := List.map) : List (Except SearchError Analysis) :=
  each (fun g => Analysis.ofGraph settings g workers) graphs

end HeapRetention
