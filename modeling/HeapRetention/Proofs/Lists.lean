-- Facts about lists that the proofs share. Nothing here speaks of graphs or of
-- documents: a list without repeats, a list in the order of keys, a list whose
-- members are looked up one by one.
import Mathlib.Data.List.Forall2
import Mathlib.Data.List.Induction
import Mathlib.Data.List.Nodup
import Mathlib.Data.List.Perm.Basic

namespace HeapRetention

/-! ## Repeats -/

theorem mem_eraseReps_loop {α : Type} [BEq α] [LawfulBEq α] {x : α} (rest : List α) (a : α)
    (seen : List α) :
    x ∈ List.eraseRepsBy.loop (· == ·) a rest seen ↔ x = a ∨ x ∈ rest ∨ x ∈ seen := by
  induction rest generalizing a seen with
  | nil => simp [List.eraseRepsBy.loop, or_comm]
  | cons b rest ih =>
    unfold List.eraseRepsBy.loop
    by_cases hab : a = b
    · simp only [hab, beq_self_eq_true, ih, List.mem_cons]
      grind
    · simp only [beq_eq_false_iff_ne.mpr hab, ih, List.mem_cons]
      grind

theorem mem_eraseReps {α : Type} [BEq α] [LawfulBEq α] {x : α} {l : List α} :
    x ∈ l.eraseReps ↔ x ∈ l := by
  cases l with
  | nil => rfl
  | cons a rest =>
    unfold List.eraseReps List.eraseRepsBy
    rw [mem_eraseReps_loop, List.mem_cons]
    simp

theorem eraseReps_loop_eq {α : Type} [BEq α] (rest : List α) (a : α) (seen : List α) :
    List.eraseRepsBy.loop (· == ·) a rest seen =
      seen.reverse ++ List.eraseRepsBy.loop (· == ·) a rest [] := by
  induction rest generalizing a seen with
  | nil => simp [List.eraseRepsBy.loop]
  | cons b rest ih =>
    unfold List.eraseRepsBy.loop
    cases a == b with
    | true => exact ih a seen
    | false =>
      simp only
      rw [ih b (a :: seen), ih b [a]]
      simp

theorem eraseReps_cons_cons {α : Type} [DecidableEq α] (a b : α) (rest : List α) :
    (a :: b :: rest).eraseReps =
      if a = b then (b :: rest).eraseReps else a :: (b :: rest).eraseReps := by
  unfold List.eraseReps List.eraseRepsBy
  by_cases hab : a = b
  · simp [hab, List.eraseRepsBy.loop]
  · simp only [List.eraseRepsBy.loop, beq_eq_false_iff_ne.mpr hab, if_neg hab]
    exact eraseReps_loop_eq rest b [a]

theorem eraseDups_concat {α : Type} [BEq α] [LawfulBEq α] (names : List α) (name : α) :
    (names ++ [name]).eraseDups =
      if name ∈ names then names.eraseDups else names.eraseDups ++ [name] := by
  rw [List.eraseDups_append]
  by_cases hname : name ∈ names
  · simp [List.removeAll, hname]
  · simp [List.removeAll, hname, List.eraseDups_cons]

theorem nodup_eraseDups {α : Type} [BEq α] [LawfulBEq α] (l : List α) : l.eraseDups.Nodup := by
  induction l using List.reverseRecOn with
  | nil => simp
  | append_singleton l last ih =>
    rw [eraseDups_concat]
    by_cases hlast : last ∈ l
    · rw [if_pos hlast]
      exact ih
    · rw [if_neg hlast, ← List.concat_eq_append]
      exact List.Nodup.concat (mt List.mem_eraseDups.mp hlast) ih

theorem length_eraseDups_of_perm {α : Type} [BEq α] [LawfulBEq α] {l l' : List α}
    (h : l.Perm l') : l.eraseDups.length = l'.eraseDups.length := by
  apply List.Perm.length_eq
  rw [List.perm_ext_iff_of_nodup (nodup_eraseDups l) (nodup_eraseDups l')]
  intro a
  rw [List.mem_eraseDups, List.mem_eraseDups, h.mem_iff]

theorem count_flatMap_replicate {order : List Nat} (hnodup : order.Nodup) (times : Nat → Nat)
    (u : Nat) :
    (order.flatMap fun w => List.replicate (times w) w).count u =
      if u ∈ order then times u else 0 := by
  induction order with
  | nil => simp
  | cons first rest ih =>
    obtain ⟨hnew, hrest⟩ := List.nodup_cons.mp hnodup
    rw [List.flatMap_cons, List.count_append, ih hrest, List.count_replicate]
    by_cases hu : first = u
    · subst hu
      simp [hnew]
    · simp [hu, Ne.symm hu]

/-! ## Order -/

theorem pairwise_idxOf {order : List Nat} (hnodup : order.Nodup) :
    order.Pairwise fun u w => order.idxOf u ≤ order.idxOf w := by
  apply List.pairwise_iff_getElem.mpr
  intro i j hi hj hlt
  rw [hnodup.idxOf_getElem, hnodup.idxOf_getElem]
  exact Nat.le_of_lt hlt

theorem pairwise_mergeSort_key {α κ : Type} [LE κ] [DecidableLE κ] [Std.IsLinearOrder κ]
    (key : α → κ) (l : List α) :
    (l.mergeSort fun a b => decide (key a ≤ key b)).Pairwise fun a b => key a ≤ key b := by
  have hsorted : (l.mergeSort fun a b => decide (key a ≤ key b)).Pairwise
      fun a b => decide (key a ≤ key b) = true := by
    apply List.pairwise_mergeSort
    · intro a b c hab hbc
      rw [decide_eq_true_eq] at hab hbc ⊢
      exact Std.le_trans hab hbc
    · intro a b
      simpa using @Std.le_total _ _ _ (key a) (key b)
  exact hsorted.imp of_decide_eq_true

/-- A list in order of its keys, each of which it has once, is known by its members. -/
theorem eq_of_sorted_keys {α κ : Type} [LE κ] [Std.IsLinearOrder κ] (key : α → κ)
    {l l' : List α} (h : l.Pairwise fun a b => key a ≤ key b)
    (h' : l'.Pairwise fun a b => key a ≤ key b) (hnodup : (l.map key).Nodup)
    (hnodup' : (l'.map key).Nodup) (hmem : ∀ a, a ∈ l ↔ a ∈ l') : l = l' := by
  have hperm : l.Perm l' := (List.perm_ext_iff_of_nodup hnodup.of_map hnodup'.of_map).mpr hmem
  refine List.Perm.eq_of_pairwise ?_ h h' hperm
  intro a b ha hb hab hba
  exact List.inj_on_of_nodup_map hnodup ha ((hmem b).mpr hb) (Std.le_antisymm hab hba)

/-- Among different keys the entry with a key is found by it. -/
theorem find?_key {α κ : Type*} [DecidableEq κ] {key : α → κ} {l : List α}
    (hnodup : (l.map key).Nodup) {a : α} (hmem : a ∈ l) :
    l.find? (fun entry => key entry = key a) = some a := by
  cases hfind : l.find? fun entry => key entry = key a with
  | none =>
    have hnone := List.find?_eq_none.mp hfind a hmem
    simp at hnone
  | some entry =>
    have hkey : key entry = key a := by simpa using List.find?_some hfind
    rw [List.inj_on_of_nodup_map hnodup (List.mem_of_find?_eq_some hfind) hmem hkey]

theorem first_unique {α : Type} {p : α → Prop} {l before before' after after' : List α} {a a' : α}
    (hl : l = before ++ a :: after) (hl' : l = before' ++ a' :: after') (hp : ¬ p a) (hp' : ¬ p a')
    (hbefore : ∀ b ∈ before, p b) (hbefore' : ∀ b ∈ before', p b) : a = a' := by
  classical
  have hfind : l.find? (fun b => decide (¬ p b)) = some a :=
    List.find?_eq_some_iff_append.mpr
      ⟨by simpa using hp, before, after, hl, fun b hb => by simpa using hbefore b hb⟩
  have hfind' : l.find? (fun b => decide (¬ p b)) = some a' :=
    List.find?_eq_some_iff_append.mpr
      ⟨by simpa using hp', before', after', hl', fun b hb => by simpa using hbefore' b hb⟩
  exact Option.some.inj (hfind.symm.trans hfind')

/-! ## Lookups -/

theorem flatMap_nothing {α β : Type} (l : List α) : l.flatMap (fun _ => ([] : List β)) = [] :=
  List.flatMap_eq_nil_iff.mpr fun _ _ => rfl

theorem eq_of_map_some {α : Type} {l l' : List α} (h : l.map some = l'.map some) : l = l' :=
  List.map_injective_iff.mpr (fun _ _ => Option.some.inj) h

theorem filterMap_filter_of_agree {α β : Type} {f : α → Option β} {kept : α → Bool}
    {kept' : β → Bool} (h : ∀ a b, f a = some b → kept' b = kept a) (l : List α) :
    (l.filter kept).filterMap f = (l.filterMap f).filter kept' := by
  rw [List.filterMap_filter, List.filter_filterMap]
  apply List.filterMap_congr
  intro a _
  cases hfa : f a with
  | none => simp
  | some b => simp [Option.filter, h a b hfa]

theorem map_filterMap_of_found {α β γ : Type} {f : α → Option β} {p : β → γ} {q : α → γ}
    {l : List α} (h : ∀ a ∈ l, ∃ b, f a = some b ∧ p b = q a) :
    (l.filterMap f).map p = l.map q := by
  induction l with
  | nil => rfl
  | cons a rest ih =>
    obtain ⟨b, hb, hpq⟩ := h a List.mem_cons_self
    rw [List.filterMap_cons_some hb, List.map_cons, List.map_cons, hpq,
      ih fun a hmem => h a (List.mem_cons_of_mem _ hmem)]

theorem forall₂_filterMap {α β : Type} {f : α → Option β} {r : α → β → Prop} {l : List α}
    (h : ∀ a ∈ l, ∃ b, f a = some b ∧ r a b) : List.Forall₂ r l (l.filterMap f) := by
  induction l with
  | nil => exact List.Forall₂.nil
  | cons a rest ih =>
    obtain ⟨b, hb, hr⟩ := h a List.mem_cons_self
    rw [List.filterMap_cons_some hb]
    exact List.Forall₂.cons hr (ih fun a hmem => h a (List.mem_cons_of_mem _ hmem))

/-! ## Results -/

/-- Where everything succeeds, so does the list of all. -/
theorem mapM_eq_map {m : Type → Type} [Monad m] [LawfulMonad m] {α β : Type} {f : α → m β}
    {value : α → β} {l : List α} (h : ∀ a ∈ l, f a = pure (value a)) :
    l.mapM f = pure (l.map value) := by
  induction l with
  | nil => rfl
  | cons a rest ih =>
    rw [List.mapM_cons, h a List.mem_cons_self, ih fun x hx => h x (List.mem_cons_of_mem a hx)]
    simp

/-- Where all failures are the same, a list with a failure has that failure. -/
theorem mapM_error {ε α β : Type} {f : α → Except ε β} {l : List α} {e : ε} {a : α}
    (h : ∀ x, f x = .error e ∨ ∃ b, f x = .ok b) (ha : a ∈ l) (hfail : f a = .error e) :
    l.mapM f = .error e := by
  induction l with
  | nil => cases ha
  | cons x rest ih =>
    rw [List.mapM_cons]
    rcases h x with hx | ⟨b, hx⟩
    · rw [hx]
      rfl
    · have hrest : a ∈ rest := by
        rcases List.mem_cons.mp ha with rfl | hrest
        · rw [hfail] at hx
          cases hx
        · exact hrest
      rw [hx, ih hrest]
      rfl

end HeapRetention
