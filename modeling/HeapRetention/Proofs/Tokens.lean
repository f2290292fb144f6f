-- The laws of a session's tokens, over every history of calls. A token that
-- stopped a search is replaced and never looked at again, so it stops no other
-- search, and what becomes of it later shows in no answer.
import HeapRetention.Proofs.Cache

namespace HeapRetention

namespace TokenStore

/-! ## Tokens handed out -/

/-- The token was handed out. -/
def HasIssued (store : TokenStore) (token : Token) : Prop := token < store.flags.size

instance (store : TokenStore) (token : Token) : Decidable (store.HasIssued token) :=
  inferInstanceAs (Decidable (token < store.flags.size))

/-- A token that was not handed out is not cancelled. -/
theorem isCancelled_of_not_issued {store : TokenStore} {token : Token}
    (h : ¬ store.HasIssued token) : store.isCancelled token = false := by
  unfold isCancelled
  rw [Array.getElem?_eq_none (Nat.not_lt.mp h)]
  rfl

theorem isCancelled_issue (store : TokenStore) (token : Token) :
    store.issue.2.isCancelled token = store.isCancelled token := by
  unfold isCancelled issue
  rw [Array.getElem?_push]
  split
  · next heq =>
    rw [heq, Array.getElem?_eq_none (Nat.le_refl _)]
    rfl
  · rfl

theorem isCancelled_cancel (store : TokenStore) (cancelled token : Token) :
    (store.cancel cancelled).isCancelled token = true ↔
      store.isCancelled token = true ∨ cancelled = token ∧ store.HasIssued token := by
  unfold isCancelled cancel HasIssued
  rw [Array.getElem?_setIfInBounds]
  by_cases heq : cancelled = token
  · subst heq
    by_cases hissued : cancelled < store.flags.size
    · simp [hissued]
    · simp [hissued]
  · simp [heq]

theorem size_cancel (store : TokenStore) (token : Token) :
    (store.cancel token).flags.size = store.flags.size := Array.size_setIfInBounds

theorem size_issue (store : TokenStore) :
    store.issue.2.flags.size = store.flags.size + 1 := Array.size_push _

theorem hasIssued_issue (store : TokenStore) : store.issue.2.HasIssued store.issue.1 := by
  unfold HasIssued
  rw [size_issue]
  exact Nat.lt_succ_self _

/-- The stores handed out the same tokens, and agree from some token on which ones are cancelled. -/
structure AgreesFrom (bound : Token) (store store' : TokenStore) : Prop where
  size_eq : store'.flags.size = store.flags.size
  flags_eq : ∀ token, bound ≤ token → store'.isCancelled token = store.isCancelled token

theorem agreesFrom_self (bound : Token) (store : TokenStore) : store.AgreesFrom bound store :=
  ⟨rfl, fun _ _ => rfl⟩

theorem agreesFrom_cancel {bound : Token} {store store' : TokenStore}
    (h : store.AgreesFrom bound store') (token : Token) :
    (store.cancel token).AgreesFrom bound (store'.cancel token) := by
  refine ⟨?_, ?_⟩
  · rw [size_cancel, size_cancel, h.size_eq]
  · intro other hle
    rw [Bool.eq_iff_iff, isCancelled_cancel, isCancelled_cancel, h.flags_eq other hle]
    unfold HasIssued
    rw [h.size_eq]

theorem agreesFrom_cancel_old {bound : Token} {store store' : TokenStore}
    (h : store.AgreesFrom bound store') {token : Token} (hold : token < bound) :
    (store.cancel token).AgreesFrom bound store' := by
  refine ⟨?_, ?_⟩
  · rw [size_cancel, h.size_eq]
  · intro other hle
    have hother : token ≠ other := Nat.ne_of_lt (Nat.lt_of_lt_of_le hold hle)
    rw [Bool.eq_iff_iff, isCancelled_cancel, h.flags_eq other hle]
    simp [hother]

end TokenStore

namespace Session

/-! ## What calls do to tokens -/

/-- The token was cancelled by one of the calls, after it was handed out. -/
def WasCancelled (s : Session) (calls : List Call) (token : Token) : Prop :=
  ∃ earlier later, calls = earlier ++ .cancel token :: later ∧
    (s.after earlier).tokens.HasIssued token

/-- The token that stops a call. -/
def stopped (s : Session) : Call → Option Token
  | .ask question =>
    match (s.ask question).1 with
    | .error (.cancelled _) => some s.current
    | _ => none
  | _ => none

/-- The tokens that stop a call, for each such call of a history. -/
def spent (s : Session) : List Call → List Token
  | [] => []
  | call :: calls => (s.stopped call).toList ++ (s.perform call).spent calls

/-- Whether a call cancels a token that the store had handed out. -/
def Call.cancelsOld (store : TokenStore) : Call → Bool
  | .cancel cancelled => decide (store.HasIssued cancelled)
  | _ => false

/-- The calls but for those that cancel a token the store had handed out. -/
def withoutOldCancels (store : TokenStore) (calls : List Call) : List Call :=
  calls.filter fun call => !call.cancelsOld store

theorem wasCancelled_cons {s : Session} {call : Call} {calls : List Call} {token : Token} :
    s.WasCancelled (call :: calls) token ↔
      call = .cancel token ∧ s.tokens.HasIssued token ∨
        (s.perform call).WasCancelled calls token := by
  constructor
  · rintro ⟨earlier, later, hcalls, hissued⟩
    cases earlier with
    | nil => exact Or.inl ⟨(List.cons.inj hcalls).1, hissued⟩
    | cons first earlier =>
      obtain ⟨rfl, rfl⟩ := List.cons.inj hcalls
      exact Or.inr ⟨earlier, later, rfl, hissued⟩
  · rintro (⟨rfl, hissued⟩ | ⟨earlier, later, rfl, hissued⟩)
    · exact ⟨[], calls, rfl, hissued⟩
    · exact ⟨call :: earlier, later, rfl, hissued⟩

section Laws

variable {g : HeapGraph} {settings : Settings} {workers : Workers} {s : Session}
  (h : Sound g settings workers s)

include h

/-- A call cancels a token if it says so, and no other one. -/
theorem isCancelled_perform (call : Call) (token : Token) :
    (s.perform call).tokens.isCancelled token = true ↔
      s.tokens.isCancelled token = true ∨ call = .cancel token ∧ s.tokens.HasIssued token := by
  cases call with
  | token => simp [perform]
  | cancel cancelled =>
    simp only [perform, cancel, TokenStore.isCancelled_cancel, Call.cancel.injEq]
  | ask question =>
    have hr := ask_outcome h question
    simp only [perform, reduceCtorEq, false_and, or_false]
    generalize s.ask question = r at hr
    cases hr with
    | answered _ _ htokens => rw [htokens]
    | cancelled => simp only [renewToken, TokenStore.isCancelled_issue]
    | unsettled => exact Iff.rfl

theorem isCancelled_after (calls : List Call) (token : Token) :
    (s.after calls).tokens.isCancelled token = true ↔
      s.tokens.isCancelled token = true ∨ s.WasCancelled calls token := by
  induction calls generalizing s with
  | nil => simp [after, WasCancelled]
  | cons call calls ih =>
    rw [wasCancelled_cons, ← or_assoc, ← isCancelled_perform h call token]
    exact ih (sound_perform h call)

/-- A session that is asked goes on with its token, or the token stopped it and it goes on with the
next one. -/
theorem tokens_perform (call : Call) :
    s.stopped call = none ∧ (s.perform call).current = s.current ∧
      (s.perform call).tokens.flags.size = s.tokens.flags.size ∨
    s.stopped call = some s.current ∧ (s.perform call).current = s.tokens.flags.size ∧
      (s.perform call).tokens.flags.size = s.tokens.flags.size + 1 := by
  cases call with
  | token => exact Or.inl ⟨rfl, rfl, rfl⟩
  | cancel token => exact Or.inl ⟨rfl, rfl, TokenStore.size_cancel _ _⟩
  | ask question =>
    have hr := ask_outcome h question
    simp only [perform, stopped]
    generalize s.ask question = r at hr
    cases hr with
    | answered _ _ htokens hcurrent => exact Or.inl ⟨rfl, hcurrent, by rw [htokens]⟩
    | cancelled => exact Or.inr ⟨rfl, rfl, TokenStore.size_issue _⟩
    | unsettled => exact Or.inl ⟨rfl, rfl, rfl⟩

theorem issued_perform (hissued : s.tokens.HasIssued s.current) (call : Call) :
    (s.perform call).tokens.HasIssued (s.perform call).current ∧
      s.current ≤ (s.perform call).current := by
  unfold TokenStore.HasIssued at hissued ⊢
  rcases tokens_perform h call with ⟨_, hcurrent, hsize⟩ | ⟨_, hcurrent, hsize⟩
  · rw [hcurrent, hsize]
    exact ⟨hissued, Nat.le_refl _⟩
  · rw [hcurrent, hsize]
    exact ⟨Nat.lt_succ_self _, Nat.le_of_lt hissued⟩

theorem issued_after (hissued : s.tokens.HasIssued s.current) (calls : List Call) :
    (s.after calls).tokens.HasIssued (s.after calls).current ∧
      s.current ≤ (s.after calls).current := by
  induction calls generalizing s with
  | nil => exact ⟨hissued, Nat.le_refl _⟩
  | cons call calls ih =>
    have hfirst := issued_perform h hissued call
    have hrest := ih (sound_perform h call) hfirst.1
    exact ⟨hrest.1, Nat.le_trans hfirst.2 hrest.2⟩

theorem le_of_mem_spent (hissued : s.tokens.HasIssued s.current) (calls : List Call) :
    ∀ token ∈ s.spent calls, s.current ≤ token := by
  induction calls generalizing s with
  | nil =>
    intro token hmem
    cases hmem
  | cons call calls ih =>
    intro token hmem
    obtain ⟨hnext, hle⟩ := issued_perform h hissued call
    rcases List.mem_append.mp hmem with hnow | hlater
    · rcases tokens_perform h call with ⟨hstopped, _⟩ | ⟨hstopped, _⟩
      · rw [hstopped] at hnow
        cases hnow
      · rw [hstopped, Option.mem_toList] at hnow
        exact Nat.le_of_eq (Option.some.inj hnow)
    · exact Nat.le_trans hle (ih (sound_perform h call) hnext token hlater)

/-- Later calls are stopped by later tokens. -/
theorem pairwise_spent (hissued : s.tokens.HasIssued s.current) (calls : List Call) :
    (s.spent calls).Pairwise (· < ·) := by
  induction calls generalizing s with
  | nil => exact List.Pairwise.nil
  | cons call calls ih =>
    have hnext := (issued_perform h hissued call).1
    have hrest := ih (sound_perform h call) hnext
    unfold spent
    rcases tokens_perform h call with ⟨hstopped, _⟩ | ⟨hstopped, hcurrent, _⟩
    · rw [hstopped]
      exact hrest
    · rw [hstopped]
      refine List.pairwise_cons.mpr ⟨?_, hrest⟩
      intro token hmem
      have hle := le_of_mem_spent (sound_perform h call) hnext calls token hmem
      rw [hcurrent] at hle
      exact Nat.lt_of_lt_of_le hissued hle

theorem dominators_cancelled_iff (passes : Nat) :
    s.dominators.1 = .error (.cancelled passes) ↔
      passes = 0 ∧ s.tree = none ∧ g.roots ≠ [] ∧ s.tokens.isCancelled s.current = true := by
  constructor
  · intro herror
    exact (cancelled_of_outcome (dominators_outcome h) herror).1
  · rintro ⟨rfl, htree, hroots, htoken⟩
    unfold dominators
    rw [htree, h.graph_eq, htoken, DominatorTree.search_cancelled hroots]

end Laws

/-! ## Old tokens -/

/-- The session with other tokens. -/
def withTokens (s : Session) (store : TokenStore) : Session := { s with tokens := store }

section OldTokens

variable {bound : Token} {s : Session} {store : TokenStore}

theorem renewToken_agrees (h : s.tokens.AgreesFrom bound store) :
    s.renewToken.tokens.AgreesFrom bound store.issue.2 ∧
      (s.withTokens store).renewToken =
        s.renewToken.withTokens store.issue.2 := by
  refine ⟨⟨?_, ?_⟩, ?_⟩
  · simp only [renewToken, TokenStore.size_issue, h.size_eq]
  · intro token hle
    simp only [renewToken, TokenStore.isCancelled_issue, h.flags_eq token hle]
  · simp only [renewToken, withTokens, TokenStore.issue, h.size_eq]

/-- A search looks at no old token. -/
theorem dominators_agrees (h : s.tokens.AgreesFrom bound store) (hbound : bound ≤ s.current) :
    ∃ store', s.dominators.2.tokens.AgreesFrom bound store' ∧
      (s.withTokens store).dominators =
        (s.dominators.1, s.dominators.2.withTokens store') := by
  obtain ⟨graph, settings, workers, tokens, current, tree, table⟩ := s
  have hrenewed := renewToken_agrees h
  unfold dominators withTokens
  unfold withTokens at hrenewed
  cases tree with
  | some t => exact ⟨store, h, rfl⟩
  | none =>
    simp only [h.flags_eq current hbound]
    rcases DominatorTree.search_cases graph settings.maxPasses (tokens.isCancelled current) with
      ⟨t, hsearch, _⟩ | ⟨_, _, hsearch⟩ | ⟨passes, hsearch⟩
    · rw [hsearch]
      exact ⟨store, h, rfl⟩
    · rw [hsearch]
      exact ⟨store.issue.2, hrenewed.1, by rw [hrenewed.2]⟩
    · rw [hsearch]
      exact ⟨store, h, rfl⟩

theorem retained_agrees (h : s.tokens.AgreesFrom bound store) (hbound : bound ≤ s.current) :
    ∃ store', s.retained.2.tokens.AgreesFrom bound store' ∧
      (s.withTokens store).retained =
        (s.retained.1, s.retained.2.withTokens store') := by
  obtain ⟨store', hagrees, hsearch⟩ := dominators_agrees h hbound
  obtain ⟨graph, settings, workers, tokens, current, tree, table⟩ := s
  rw [retained_eq, retained_eq]
  cases table with
  | some table => exact ⟨store, h, rfl⟩
  | none =>
    simp only at hsearch ⊢
    rw [hsearch]
    generalize dominators _ = r at hagrees
    obtain ⟨result, s'⟩ := r
    cases result with
    | error error => exact ⟨store', hagrees, rfl⟩
    | ok t => exact ⟨store', hagrees, rfl⟩

theorem ask_agrees (h : s.tokens.AgreesFrom bound store) (hbound : bound ≤ s.current)
    (question : Question) :
    ∃ store', (s.ask question).2.tokens.AgreesFrom bound store' ∧
      (s.withTokens store).ask question =
        ((s.ask question).1, (s.ask question).2.withTokens store') := by
  have hgraph : (s.withTokens store).graph = s.graph := rfl
  rw [ask_eq, ask_eq, hgraph]
  cases question.source s.graph with
  | nothing answer => exact ⟨store, h, rfl⟩
  | tree read =>
    obtain ⟨store', hagrees, hsearch⟩ := dominators_agrees h hbound
    exact ⟨store', hagrees, by simp only [hsearch, told]⟩
  | table read =>
    obtain ⟨store', hagrees, hsearch⟩ := retained_agrees h hbound
    exact ⟨store', hagrees, by simp only [hsearch, told]⟩

theorem perform_agrees (h : s.tokens.AgreesFrom bound store) (hbound : bound ≤ s.current)
    (call : Call) :
    ∃ store', (s.perform call).tokens.AgreesFrom bound store' ∧
      (s.withTokens store).perform call =
        (s.perform call).withTokens store' := by
  cases call with
  | token => exact ⟨store, h, rfl⟩
  | cancel token => exact ⟨store.cancel token, TokenStore.agreesFrom_cancel h token, rfl⟩
  | ask question =>
    obtain ⟨store', hagrees, hask⟩ := ask_agrees h hbound question
    exact ⟨store', hagrees, congrArg Prod.snd hask⟩

/-- Without the calls that cancel old tokens a session differs in these tokens at most. -/
theorem after_agrees {g : HeapGraph} {settings : Settings} {workers : Workers}
    (hsound : Sound g settings workers s) (hissued : s.tokens.HasIssued s.current)
    {old : TokenStore} (hold : old.flags.size ≤ s.current)
    (h : s.tokens.AgreesFrom old.flags.size store) (calls : List Call) :
    ∃ store', (s.after calls).tokens.AgreesFrom old.flags.size store' ∧
      (s.withTokens store).after (withoutOldCancels old calls) =
        (s.after calls).withTokens store' := by
  induction calls generalizing s store with
  | nil => exact ⟨store, h, rfl⟩
  | cons call calls ih =>
    obtain ⟨hnext, hle⟩ := issued_perform hsound hissued call
    have hbound := Nat.le_trans hold hle
    have hfirst := sound_perform hsound call
    cases hcancels : call.cancelsOld old with
    | false =>
      obtain ⟨store', hagrees, hperform⟩ := perform_agrees h hold call
      obtain ⟨last, hlast, hafter⟩ := ih hfirst hnext hbound hagrees
      refine ⟨last, hlast, ?_⟩
      rw [← hperform] at hafter
      simp only [withoutOldCancels, List.filter_cons, hcancels, Bool.not_false, if_true]
      exact hafter
    | true =>
      -- the dropped call changes old tokens only, so the other session need not follow it
      cases call with
      | token => cases hcancels
      | ask question => cases hcancels
      | cancel token =>
        have hlt : old.HasIssued token := of_decide_eq_true hcancels
        obtain ⟨last, hlast, hafter⟩ := ih hfirst hnext hbound
          (TokenStore.agreesFrom_cancel_old h hlt)
        refine ⟨last, hlast, ?_⟩
        simp only [withoutOldCancels, List.filter_cons, hcancels]
        exact hafter

end OldTokens

/-! ## The laws of tokens -/

theorem issued_start (g : HeapGraph) (settings : Settings) (tokens : TokenStore)
    (workers : Workers) :
    (start g settings tokens workers).tokens.HasIssued (start g settings tokens workers).current :=
  tokens.hasIssued_issue

/-- The token of a session is cancelled if a call cancelled it. -/
theorem isCancelled_current (g : HeapGraph) (settings : Settings) (tokens : TokenStore)
    (workers : Workers) (calls : List Call) :
    let first := start g settings tokens workers
    (first.after calls).tokens.isCancelled (first.after calls).current = true ↔
      first.WasCancelled calls (first.after calls).current := by
  intro first
  have hfirst : Sound g settings workers first := sound_start g settings tokens workers
  have hle : tokens.flags.size ≤ (first.after calls).current :=
    (issued_after hfirst (issued_start g settings tokens workers) calls).2
  have hbefore : first.tokens.isCancelled (first.after calls).current = false :=
    (TokenStore.isCancelled_issue tokens _).trans
      (TokenStore.isCancelled_of_not_issued (Nat.not_lt.mpr hle))
  simp [isCancelled_after hfirst, hbefore]

section Renewed

variable {g : HeapGraph} {settings : Settings} {workers : Workers} {s : Session}
  (h : Sound g settings workers s)

theorem isCancelled_renewed (s : Session) {token : Token} (hle : s.renewToken.current ≤ token) :
    s.renewToken.tokens.isCancelled token = false :=
  (TokenStore.isCancelled_issue s.tokens token).trans
    (TokenStore.isCancelled_of_not_issued (Nat.not_lt.mpr hle))

theorem issued_renewed (s : Session) :
    s.renewToken.tokens.HasIssued s.renewToken.current :=
  s.tokens.hasIssued_issue

include h

/-- Once a token was replaced, cancelling it changes no answer. -/
theorem ask_without_old_cancels (later : List Call) (question : Question) :
    ((s.renewToken.after later).ask question).1 =
      ((s.renewToken.after (withoutOldCancels s.tokens later)).ask question).1 := by
  have hsound : Sound g settings workers s.renewToken := sound_tokens h _ _
  have hle := (issued_after hsound (issued_renewed s) later).2
  obtain ⟨store, hagrees, hafter⟩ := after_agrees hsound (issued_renewed s) (Nat.le_refl _)
    (TokenStore.agreesFrom_self s.tokens.flags.size s.renewToken.tokens) later
  obtain ⟨_, _, hask⟩ := ask_agrees hagrees hle question
  have hsame : s.renewToken.withTokens s.renewToken.tokens = s.renewToken := rfl
  rw [← hsame, hafter, hask]
  rfl

/-- Once a token was replaced, only a cancelled later token stops a call. -/
theorem stopped_by_later_token {later : List Call} {question : Question} {passes : Nat}
    (herror : ((s.renewToken.after later).ask question).1 = .error (.cancelled passes)) :
    ¬ s.tokens.HasIssued (s.renewToken.after later).current ∧
      s.renewToken.WasCancelled later (s.renewToken.after later).current := by
  have hsound : Sound g settings workers s.renewToken := sound_tokens h _ _
  have hle := (issued_after hsound (issued_renewed s) later).2
  obtain ⟨⟨_, _, _, htoken⟩, _⟩ :=
    cancelled_of_outcome (ask_outcome (sound_after hsound later) question) herror
  refine ⟨Nat.not_lt.mpr hle, ?_⟩
  rw [isCancelled_after hsound, isCancelled_renewed s hle] at htoken
  exact htoken.resolve_left (by simp)

end Renewed

/-- The token of a session stops a search that would have to make passes, and is then spent: the
session has a new token, and whatever is done with the old ones stops nothing more. -/
theorem a_token_is_spent_by_the_search_it_stops (g : HeapGraph) (settings : Settings)
    (tokens : TokenStore) (workers : Workers) (calls : List Call) :
    let first := start g settings tokens workers
    let s := first.after calls
    (s.tokens.isCancelled s.current = true ↔ first.WasCancelled calls s.current) ∧
    (∀ passes, s.dominators.1 = .error (.cancelled passes) ↔
      passes = 0 ∧ s.tree = none ∧ g.roots ≠ [] ∧ s.tokens.isCancelled s.current = true) ∧
    (∀ question passes, (s.ask question).1 = .error (.cancelled passes) →
      let s' := (s.ask question).2
      passes = 0 ∧ ¬ s.tokens.HasIssued s'.current ∧ s'.tokens.isCancelled s'.current = false ∧
      ∀ later more,
        ((s'.after later).ask more).1 =
          ((s'.after (withoutOldCancels s.tokens later)).ask more).1 ∧
        ∀ passes, ((s'.after later).ask more).1 = .error (.cancelled passes) →
          ¬ s.tokens.HasIssued (s'.after later).current ∧
            s'.WasCancelled later (s'.after later).current) ∧
    (∀ question passes, (s.ask question).1 = .error (.unsettled passes) →
      (s.ask question).2 = s) ∧
    (first.spent calls).Nodup := by
  intro first s
  have hfirst : Sound g settings workers first := sound_start g settings tokens workers
  have hissued : first.tokens.HasIssued first.current := issued_start g settings tokens workers
  have h : Sound g settings workers s := sound_after hfirst calls
  refine ⟨isCancelled_current g settings tokens workers calls, dominators_cancelled_iff h, ?_, ?_, ?_⟩
  · intro question passes herror
    obtain ⟨⟨hpasses, _⟩, hrenewed⟩ := cancelled_of_outcome (ask_outcome h question) herror
    simp only [hrenewed]
    refine ⟨hpasses, Nat.lt_irrefl _, isCancelled_renewed s (Nat.le_refl _), ?_⟩
    intro later more
    refine ⟨ask_without_old_cancels h later more, ?_⟩
    intro passes hstopped
    exact stopped_by_later_token h hstopped
  · intro question passes herror
    exact unsettled_of_outcome (ask_outcome h question) herror
  · exact (pairwise_spent hfirst hissued calls).imp Nat.ne_of_lt

/-- A token that stopped a search may be cancelled again, and no later answer shows it. -/
theorem a_spent_token_may_be_cancelled_again :
    ∃ g, (Recording.replay .four Recording.knot).build = .ok g ∧
      let s := (start g {} {}).after [.cancel 0]
      s.dominators.1 = .error (.cancelled 0) ∧
        s.dominators.2.tokens.isCancelled s.dominators.2.current = false ∧
        ∀ question, ((s.dominators.2.after [.cancel 0]).ask question).1 =
          (s.dominators.2.ask question).1 := by
  have hrun : ((Recording.replay .four Recording.knot).build.toOption.map fun g => g.roots) =
      some [⟨0, .unknown⟩, ⟨4, .unknown⟩] := by
    cbv
  obtain ⟨g, hbuild, hroots⟩ := Option.map_eq_some_iff.mp hrun
  refine ⟨g, DominatorTree.eq_ok_of_toOption hbuild, ?_⟩
  obtain ⟨_, hstops, hspent, _⟩ := a_token_is_spent_by_the_search_it_stops g {} {} .single [.cancel 0]
  have herror := (hstops 0).mpr ⟨rfl, rfl, by simp [hroots], rfl⟩
  have hanswer : (((start g {} {}).after [.cancel 0]).ask .dominators).1 =
      .error (.cancelled 0) := by
    simp only [ask, told, herror]
    rfl
  obtain ⟨_, _, hfresh, hlater⟩ := hspent .dominators 0 hanswer
  exact ⟨herror, hfresh, fun question => (hlater [.cancel 0] question).1⟩

end Session

end HeapRetention
