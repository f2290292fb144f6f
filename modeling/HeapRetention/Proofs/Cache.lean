-- The laws of a session's caches, over every history of calls. A session
-- keeps only what a search of its own would find for the caller, so an answer
-- never tells what was asked before, and a call that fails keeps nothing.
import HeapRetention.Proofs.Dominance
import HeapRetention.Session

namespace HeapRetention

namespace Session

/-! ## Histories -/

/-- What a session can be asked. -/
inductive Question where
  | dominators
  | retained
  | dominatorOf (id : NodeId)
  | dominatorPath (id : NodeId)
  | retainedSize (id : NodeId) (heap : String)

/-- What a session answers. -/
inductive Answer where
  | tree (tree : DominatorTree)
  | table (table : RetainedTable)
  | dominator (dominator : Option (Dominator NodeId))
  | path (dominators : List (Dominator NodeId))
  | bytes (bytes : Option Bytes)

/-- A result that is told in another way. -/
def told {α β : Type} (tell : α → β) (r : Except SearchError α × Session) :
    Except SearchError β × Session := (r.1.map tell, r.2)

/-- Asks a session, which answers and goes on. -/
def ask (s : Session) : Question → Except SearchError Answer × Session
  | .dominators => told .tree s.dominators
  | .retained => told .table s.retained
  | .dominatorOf id => told .dominator (s.dominatorOf id)
  | .dominatorPath id => told .path (s.dominatorPath id)
  | .retainedSize id heap => told .bytes (s.retainedSize id heap)

/-- A call on a session. -/
inductive Call where
  /-- Looks up the current token. -/
  | token
  | cancel (token : Token)
  | ask (question : Question)

/-- The session after a call. -/
def perform (s : Session) : Call → Session
  | .token => s
  | .cancel token => s.cancel token
  | .ask question => (s.ask question).2

/-- The session after some calls. -/
def after (s : Session) (calls : List Call) : Session := calls.foldl perform s

/-! ## Answers without a cache -/

/-- What an answer is read off. -/
inductive Source where
  /-- Nothing has to be computed for the answer. -/
  | nothing (answer : Answer)
  | tree (read : DominatorTree → Answer)
  | table (read : RetainedTable → Answer)

/-- What the answer to a question about a graph is read off. An unknown node or heap has an answer
without a search. -/
def Question.source (g : HeapGraph) : Question → Source
  | .dominators => .tree .tree
  | .retained => .table .table
  | .dominatorOf id => .tree fun t => .dominator (t.getById? g id)
  | .dominatorPath id =>
    match g.indexOf? id with
    | none => .nothing (.path [])
    | some i => .tree fun t => .path ((t.chain i).filterMap g.dominatorId?)
  | .retainedSize id heap =>
    match g.indexOf? id, g.heapNamed? heap with
    | some i, some heap => .table fun table => .bytes (some (table.size i heap))
    | _, _ => .nothing (.bytes none)

/-- The answer to a question by a search for it alone, which nothing cancels, with retained sizes
that `sizes` makes from the tree. -/
def Question.freshBy (sizes : DominatorTree → RetainedTable) (g : HeapGraph) (settings : Settings)
    (question : Question) : Except SearchError Answer :=
  let tree := DominatorTree.search g settings.maxPasses false
  match question.source g with
  | .nothing answer => .ok answer
  | .tree read => tree.map read
  | .table read => (tree.map sizes).map read

/-- The fresh answer whose sizes are summed one heap after another. -/
def Question.fresh (g : HeapGraph) (settings : Settings) (question : Question) :
    Except SearchError Answer := question.freshBy (RetainedTable.ofTree g) g settings

theorem graph_dominators (s : Session) : s.dominators.2.graph = s.graph := by
  unfold dominators
  split
  · rfl
  · split
    · rfl
    · rfl
    · rfl

theorem ask_eq (s : Session) (question : Question) :
    s.ask question =
      match question.source s.graph with
      | .nothing answer => (.ok answer, s)
      | .tree read => told read s.dominators
      | .table read => told read s.retained := by
  have hmap : ∀ {α β γ : Type} (f : α → β) (h : β → γ) (r : Except SearchError α),
      (r.map f).map h = r.map fun x => h (f x) := by
    intro α β γ f h r
    cases r <;> rfl
  cases question with
  | dominators => rfl
  | retained => rfl
  | dominatorOf id => simp only [ask, dominatorOf, Question.source, told, hmap, graph_dominators]
  | dominatorPath id =>
    simp only [ask, dominatorPath, Question.source]
    cases s.graph.indexOf? id with
    | none => rfl
    | some i => simp only [told, hmap, graph_dominators]
  | retainedSize id heap =>
    simp only [ask, retainedSize, Question.source]
    cases s.graph.indexOf? id with
    | none => rfl
    | some i =>
      cases s.graph.heapNamed? heap with
      | none => rfl
      | some heap => simp only [told, hmap]

/-! ## What a question does to a session -/

/-- A session on a graph that keeps only what a search that nothing cancels finds, and retained
sizes only together with their tree. -/
structure Sound (g : HeapGraph) (settings : Settings) (workers : Workers) (s : Session) : Prop where
  graph_eq : s.graph = g
  settings_eq : s.settings = settings
  workers_eq : s.workers = workers
  tree_found : ∀ t, s.tree = some t → DominatorTree.search g settings.maxPasses false = .ok t
  table_of_tree : ∀ table, s.table = some table →
    ∃ t, s.tree = some t ∧ table = RetainedTable.compute workers settings.parallel g t

/-- What may come of asking for something that a fresh search would give or fail to give. -/
inductive Outcome {α : Type} (g : HeapGraph) (settings : Settings) (workers : Workers)
    (s : Session) (fresh : Except SearchError α) : Except SearchError α × Session → Prop
  /-- The answer is the fresh one, and what was kept is still kept. -/
  | answered {answer : α} {s' : Session} (hfresh : fresh = .ok answer)
      (hsound : Sound g settings workers s') (htokens : s'.tokens = s.tokens)
      (hcurrent : s'.current = s.current) (htree : ∀ t, s.tree = some t → s'.tree = some t)
      (htable : ∀ table, s.table = some table → s'.table = some table) :
      Outcome g settings workers s fresh (.ok answer, s')
  /-- The current token stopped the search before the first pass and was replaced. -/
  | cancelled (htree : s.tree = none) (hroots : g.roots ≠ [])
      (htoken : s.tokens.isCancelled s.current = true) :
      Outcome g settings workers s fresh (.error (.cancelled 0), s.renewToken)
  /-- The limit on passes ended the search. -/
  | unsettled {passes : Nat} (htree : s.tree = none) :
      Outcome g settings workers s fresh (.error (.unsettled passes), s)

section Outcomes

variable {g : HeapGraph} {settings : Settings} {workers : Workers} {s : Session}

theorem sound_start (g : HeapGraph) (settings : Settings) (tokens : TokenStore)
    (workers : Workers) : Sound g settings workers (start g settings tokens workers) := by
  refine ⟨rfl, rfl, rfl, ?_, ?_⟩
  · intro t ht
    cases ht
  · intro table htable
    cases htable

theorem table_eq_none (h : Sound g settings workers s) (htree : s.tree = none) : s.table = none := by
  cases htable : s.table with
  | none => rfl
  | some table =>
    obtain ⟨t, ht, _⟩ := h.table_of_tree table htable
    rw [htree] at ht
    cases ht

theorem sound_tokens (h : Sound g settings workers s) (tokens : TokenStore) (current : Token) :
    Sound g settings workers { s with tokens := tokens, current := current } :=
  ⟨h.graph_eq, h.settings_eq, h.workers_eq, h.tree_found, h.table_of_tree⟩

theorem sound_of_outcome {α : Type} {fresh : Except SearchError α}
    {r : Except SearchError α × Session} (h : Sound g settings workers s)
    (hr : Outcome g settings workers s fresh r) : Sound g settings workers r.2 := by
  cases hr with
  | answered _ hsound => exact hsound
  | cancelled => exact sound_tokens h _ _
  | unsettled => exact h

theorem outcome_told {α β : Type} {fresh : Except SearchError α}
    {r : Except SearchError α × Session} (hr : Outcome g settings workers s fresh r) (tell : α → β) :
    Outcome g settings workers s (fresh.map tell) (told tell r) := by
  cases hr with
  | answered hfresh hsound htokens hcurrent htree htable =>
    refine Outcome.answered ?_ hsound htokens hcurrent htree htable
    rw [hfresh]
    rfl
  | cancelled htree hroots htoken => exact Outcome.cancelled htree hroots htoken
  | unsettled htree => exact Outcome.unsettled htree

theorem fresh_of_outcome {α : Type} {fresh : Except SearchError α}
    {r : Except SearchError α × Session} (hr : Outcome g settings workers s fresh r) {answer : α}
    (hanswer : r.1 = .ok answer) : fresh = .ok answer := by
  cases hr with
  | answered hfresh => exact hfresh.trans hanswer
  | cancelled => cases hanswer
  | unsettled => cases hanswer

theorem keeps_of_outcome {α : Type} {fresh : Except SearchError α}
    {r : Except SearchError α × Session} (hr : Outcome g settings workers s fresh r) :
    (∀ t, s.tree = some t → r.2.tree = some t) ∧
      ∀ table, s.table = some table → r.2.table = some table := by
  cases hr with
  | answered _ _ _ _ htree htable => exact ⟨htree, htable⟩
  | cancelled => exact ⟨fun _ ht => ht, fun _ htable => htable⟩
  | unsettled => exact ⟨fun _ ht => ht, fun _ htable => htable⟩

theorem empty_of_outcome {α : Type} {fresh : Except SearchError α}
    {r : Except SearchError α × Session} (h : Sound g settings workers s)
    (hr : Outcome g settings workers s fresh r) {error : SearchError} (herror : r.1 = .error error) :
    r.2.tree = none ∧ r.2.table = none := by
  cases hr with
  | answered => cases herror
  | cancelled htree _ _ => exact ⟨htree, (table_eq_none h htree : s.table = none)⟩
  | unsettled htree => exact ⟨htree, table_eq_none h htree⟩

theorem cancelled_of_outcome {α : Type} {fresh : Except SearchError α}
    {r : Except SearchError α × Session} (hr : Outcome g settings workers s fresh r) {passes : Nat}
    (herror : r.1 = .error (.cancelled passes)) :
    (passes = 0 ∧ s.tree = none ∧ g.roots ≠ [] ∧ s.tokens.isCancelled s.current = true) ∧
      r.2 = s.renewToken := by
  cases hr with
  | answered => cases herror
  | cancelled htree hroots htoken =>
    cases herror
    exact ⟨⟨rfl, htree, hroots, htoken⟩, rfl⟩
  | unsettled => cases herror

theorem unsettled_of_outcome {α : Type} {fresh : Except SearchError α}
    {r : Except SearchError α × Session} (hr : Outcome g settings workers s fresh r) {passes : Nat}
    (herror : r.1 = .error (.unsettled passes)) : r.2 = s := by
  cases hr with
  | answered => cases herror
  | cancelled => cases herror
  | unsettled => rfl

theorem outcome_answered {α : Type} {fresh : Except SearchError α} {answer : α}
    (hfresh : fresh = .ok answer) (h : Sound g settings workers s) :
    Outcome g settings workers s fresh (.ok answer, s) :=
  Outcome.answered hfresh h rfl rfl (fun _ ht => ht) (fun _ htable => htable)

theorem dominators_outcome (h : Sound g settings workers s) :
    Outcome g settings workers s (DominatorTree.search g settings.maxPasses false) s.dominators := by
  unfold dominators
  cases htree : s.tree with
  | some t => exact outcome_answered (h.tree_found t htree) h
  | none =>
    have htable := table_eq_none h htree
    rw [h.graph_eq, h.settings_eq]
    rcases DominatorTree.search_cases g settings.maxPasses (s.tokens.isCancelled s.current) with
      ⟨t, hsearch, hfresh⟩ | ⟨hroots, htoken, hsearch⟩ | ⟨passes, hsearch⟩
    · rw [hsearch]
      refine Outcome.answered hfresh ⟨rfl, rfl, h.workers_eq, ?_, ?_⟩ rfl rfl ?_ ?_
      · intro t' ht
        rwa [← Option.some.inj ht]
      · simp [htable]
      · simp [htree]
      · simp [htable]
    · rw [hsearch]
      exact Outcome.cancelled htree hroots htoken
    · rw [hsearch]
      exact Outcome.unsettled htree

/-- A tree that is answered is kept. -/
theorem tree_of_dominators {t : DominatorTree} (ht : s.dominators.1 = .ok t) :
    s.dominators.2.tree = some t := by
  unfold dominators at ht ⊢
  cases htree : s.tree with
  | some kept =>
    simp only [htree, Except.ok.injEq] at ht ⊢
    rw [ht]
  | none =>
    simp only [htree] at ht ⊢
    split at ht
    · simp only [Except.ok.injEq] at ht
      rw [ht]
    · cases ht
    · cases ht

theorem retained_eq (s : Session) :
    s.retained =
      match s.table with
      | some table => (.ok table, s)
      | none =>
        match s.dominators with
        | (.error error, s) => (.error error, s)
        | (.ok tree, s) =>
          let table := RetainedTable.compute s.workers s.settings.parallel s.graph tree
          (.ok table, { s with table := some table }) := rfl

theorem retained_outcome (h : Sound g settings workers s) :
    Outcome g settings workers s
      ((DominatorTree.search g settings.maxPasses false).map
        (RetainedTable.compute workers settings.parallel g)) s.retained := by
  rw [retained_eq]
  cases htable : s.table with
  | some table =>
    obtain ⟨t, ht, rfl⟩ := h.table_of_tree table htable
    refine outcome_answered ?_ h
    rw [h.tree_found t ht]
    rfl
  | none =>
    -- the table is made from the tree that was just answered, which the session keeps
    have hr := dominators_outcome h
    have hkeeps := fun t => tree_of_dominators (s := s) (t := t)
    generalize s.dominators = r at hr hkeeps
    cases hr with
    | @answered t s' hfresh hsound htokens hcurrent htree _ =>
      simp only [hsound.graph_eq, hsound.settings_eq, hsound.workers_eq]
      refine Outcome.answered ?_ ⟨rfl, rfl, rfl, hsound.tree_found, ?_⟩ htokens hcurrent htree ?_
      · rw [hfresh]
        rfl
      · intro table hnew
        exact ⟨t, hkeeps t rfl, (Option.some.inj hnew).symm⟩
      · simp [htable]
    | cancelled htree hroots htoken => exact Outcome.cancelled htree hroots htoken
    | unsettled htree => exact Outcome.unsettled htree

/-- Retained sizes that are answered are kept. -/
theorem table_of_retained {table : RetainedTable} (ht : s.retained.1 = .ok table) :
    s.retained.2.table = some table := by
  rw [retained_eq] at ht ⊢
  cases htable : s.table with
  | some kept =>
    simp only [htable, Except.ok.injEq] at ht ⊢
    rw [ht]
  | none =>
    simp only [htable] at ht ⊢
    split at ht
    · cases ht
    · simp only [Except.ok.injEq] at ht
      rw [ht]

/-- Whatever is asked, the answer is the one of a fresh search, or the search was ended. -/
theorem ask_outcome (h : Sound g settings workers s) (question : Question) :
    Outcome g settings workers s
      (question.freshBy (RetainedTable.compute workers settings.parallel g) g settings)
      (s.ask question) := by
  rw [ask_eq, h.graph_eq]
  unfold Question.freshBy
  cases question.source g with
  | nothing answer => exact outcome_answered rfl h
  | tree read => exact outcome_told (dominators_outcome h) read
  | table read => exact outcome_told (retained_outcome h) read

/-! ## Histories of a session -/

theorem sound_perform (h : Sound g settings workers s) (call : Call) :
    Sound g settings workers (s.perform call) := by
  cases call with
  | token => exact h
  | cancel token => exact sound_tokens h _ _
  | ask question => exact sound_of_outcome h (ask_outcome h question)

theorem sound_after (h : Sound g settings workers s) (calls : List Call) :
    Sound g settings workers (s.after calls) := by
  induction calls generalizing s with
  | nil => exact h
  | cons call calls ih => exact ih (sound_perform h call)

theorem keeps_perform (h : Sound g settings workers s) (call : Call) :
    (∀ t, s.tree = some t → (s.perform call).tree = some t) ∧
      ∀ table, s.table = some table → (s.perform call).table = some table := by
  cases call with
  | token => exact ⟨fun _ ht => ht, fun _ htable => htable⟩
  | cancel token => exact ⟨fun _ ht => ht, fun _ htable => htable⟩
  | ask question => exact keeps_of_outcome (ask_outcome h question)

/-- What a session keeps it keeps for good. -/
theorem keeps_after (h : Sound g settings workers s) (calls : List Call) :
    (∀ t, s.tree = some t → (s.after calls).tree = some t) ∧
      ∀ table, s.table = some table → (s.after calls).table = some table := by
  induction calls generalizing s with
  | nil => exact ⟨fun _ ht => ht, fun _ htable => htable⟩
  | cons call calls ih =>
    have hfirst := keeps_perform h call
    have hrest := ih (sound_perform h call)
    exact ⟨fun t ht => hrest.1 t (hfirst.1 t ht),
      fun table htable => hrest.2 table (hfirst.2 table htable)⟩

theorem dominators_of_tree {t : DominatorTree} (h : s.tree = some t) :
    s.dominators = (.ok t, s) := by
  unfold dominators
  rw [h]

theorem retained_of_table {table : RetainedTable} (h : s.table = some table) :
    s.retained = (.ok table, s) := by
  rw [retained_eq, h]

end Outcomes

/-- Workers who keep to the order of the heaps make the sizes that a single worker makes. -/
theorem freshBy_compute {workers : Workers} (h : workers.KeepsOrder) (parallel : Bool)
    (g : HeapGraph) (settings : Settings) (question : Question) :
    question.freshBy (RetainedTable.compute workers parallel g) g settings =
      question.fresh g settings := by
  rw [Question.fresh, funext (RetainedTable.compute_eq h parallel g)]

/-- Every answer of a session is the one of a fresh search, whether or not the sizes of the heaps
are left to workers, as long as these keep to the order of the heaps. -/
theorem answers_are_those_of_fresh_searches (g : HeapGraph) (settings : Settings)
    (tokens : TokenStore) {workers : Workers} (hworkers : workers.KeepsOrder)
    (calls : List Call) :
    let s := (start g settings tokens workers).after calls
    (∀ question answer, (s.ask question).1 = .ok answer →
      question.fresh g settings = .ok answer) ∧
    (s.table.isSome → s.tree.isSome) ∧
    (∀ t, s.dominators.1 = .ok t → ∀ later,
      let s' := s.dominators.2.after later
      s'.tree = some t ∧ s'.dominators = (.ok t, s')) ∧
    (∀ table, s.retained.1 = .ok table → ∀ later,
      let s' := s.retained.2.after later
      s'.table = some table ∧ s'.retained = (.ok table, s')) ∧
    (∀ question error, (s.ask question).1 = .error error →
      (s.ask question).2.tree = none ∧ (s.ask question).2.table = none) := by
  intro s
  have h : Sound g settings workers s := sound_after (sound_start g settings tokens workers) calls
  refine ⟨?_, ?_, ?_, ?_, ?_⟩
  · intro question answer hanswer
    rw [← freshBy_compute hworkers settings.parallel]
    exact fresh_of_outcome (ask_outcome h question) hanswer
  · intro hsome
    obtain ⟨table, htable⟩ := Option.isSome_iff_exists.mp hsome
    obtain ⟨t, ht, _⟩ := h.table_of_tree table htable
    rw [ht]
    rfl
  · intro t ht later s'
    have hsound := sound_of_outcome h (dominators_outcome h)
    have hkept := (keeps_after hsound later).1 t (tree_of_dominators ht)
    exact ⟨hkept, dominators_of_tree hkept⟩
  · intro table htable later s'
    have hsound := sound_of_outcome h (retained_outcome h)
    have hkept := (keeps_after hsound later).2 table (table_of_retained htable)
    exact ⟨hkept, retained_of_table hkept⟩
  · intro question error herror
    exact empty_of_outcome h (ask_outcome h question) herror

/-- Two workers, who begin at the ends of the list and meet in the middle. -/
def twoWorkers : Workers :=
  ⟨fun fill heaps =>
    (heaps.take (heaps.length / 2)).map fill ++
      ((heaps.drop (heaps.length / 2)).reverse.map fill).reverse⟩

theorem keepsOrder_twoWorkers : twoWorkers.KeepsOrder := by
  refine ⟨fun fill heaps i => ?_⟩
  simp only [twoWorkers, List.map_reverse, List.reverse_reverse]
  rw [← List.map_append, List.take_append_drop, List.getElem?_map]

/-- A search that was stopped keeps nothing, and the next one answers as if there had been none,
also where the sizes are left to workers. -/
theorem a_stopped_search_leaves_no_trace :
    ∃ g, (Recording.replay .four Recording.knot).build = .ok g ∧
      let settings : Settings := { parallel := true }
      let s := (start g settings {} twoWorkers).after [.cancel 0, .ask .retained]
      s.tree = none ∧ s.table = none ∧
        (Question.dominatorOf ⟨4⟩).fresh g settings = .ok (.dominator (some (.node ⟨3⟩))) ∧
        (Question.retainedSize ⟨3⟩ "app").fresh g settings = .ok (.bytes (some 7)) := by
  have hrun : ((Recording.replay .four Recording.knot).build.toOption.map fun g =>
      let s := (start g { parallel := true } {} twoWorkers).after [.cancel 0]
      let s' := (s.ask .retained).2
      ((s.ask .retained).1, (s'.ask (.dominatorOf ⟨4⟩)).1,
        (s'.ask (.retainedSize ⟨3⟩ "app")).1)) =
      some (.error (.cancelled 0), .ok (.dominator (some (.node ⟨3⟩))), .ok (.bytes (some 7))) := by
    cbv
  obtain ⟨g, hbuild, hseen⟩ := Option.map_eq_some_iff.mp hrun
  obtain ⟨herror, hseen⟩ := Prod.mk.inj hseen
  obtain ⟨hanswer, hbytes⟩ := Prod.mk.inj hseen
  refine ⟨g, DominatorTree.eq_ok_of_toOption hbuild, ?_⟩
  obtain ⟨_, _, _, _, hempty⟩ := answers_are_those_of_fresh_searches g { parallel := true } {}
    keepsOrder_twoWorkers [.cancel 0]
  obtain ⟨hfresh, _⟩ := answers_are_those_of_fresh_searches g { parallel := true } {}
    keepsOrder_twoWorkers [.cancel 0, .ask .retained]
  obtain ⟨htree, htable⟩ := hempty _ _ herror
  exact ⟨htree, htable, hfresh _ _ hanswer, hfresh _ _ hbytes⟩

end Session

end HeapRetention
