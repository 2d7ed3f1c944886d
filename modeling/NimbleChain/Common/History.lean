import Mathlib

/-!
# Properties of every entry of a history

`Throughout F history` says that every entry has the property `F` together with the entries before
it. So a growing log keeps a justification for each of its entries: it refers to the past only, and
later entries do not disturb it.
-/

namespace NimbleChain.Common

open List

variable {α β : Type*}

/-- Every entry satisfies `F` together with its past. -/
def Throughout (F : List α → α → Prop) (history : List α) : Prop :=
  ∀ past entry future, history = past ++ entry :: future → F past entry

namespace Throughout

variable {F G : List α → α → Prop} {history : List α}

theorem nil : Throughout F [] := by
  intro past entry future h
  simp at h

theorem mono (h : Throughout F history) (hFG : ∀ past entry, F past entry → G past entry) :
    Throughout G history :=
  fun past entry future heq => hFG past entry (h past entry future heq)

/-- One more entry only has to be justified by the history so far. -/
theorem append_singleton {entry : α} (h : Throughout F history) (hentry : F history entry) :
    Throughout F (history ++ [entry]) := by
  intro past e future heq
  rcases eq_nil_or_concat future with rfl | ⟨future', last, rfl⟩
  · obtain ⟨rfl, he⟩ := append_inj' heq rfl
    obtain rfl := (cons.inj he).1
    exact hentry
  · rw [concat_eq_append, ← cons_append, ← append_assoc] at heq
    exact h past e future' (append_inj' heq rfl).1

/-- A justified block of new entries, each of which is justified by whatever precedes it. -/
theorem append {new : List α} (h : Throughout F history)
    (hnew : ∀ past entry, entry ∈ new → history <+: past → F past entry) :
    Throughout F (history ++ new) := by
  induction new using reverseRecOn with
  | nil => simpa using h
  | append_singleton new entry ih =>
    rw [← append_assoc]
    refine append_singleton (ih fun past e he => hnew past e (mem_append_left _ he)) ?_
    exact hnew _ _ (by simp) (prefix_append _ _)

/-- The past of a prefix's entry is its past in the whole history. -/
theorem restrict {history' : List α} (h : Throughout F history') (hp : history <+: history') :
    Throughout F history := by
  obtain ⟨rest, rfl⟩ := hp
  intro past entry future heq
  exact h past entry (future ++ rest) (by rw [heq]; simp)

/-- An entry of the history comes with its past. -/
theorem exists_past {entry : α} (h : Throughout F history) (hmem : entry ∈ history) :
    ∃ past, past <+: history ∧ F past entry := by
  obtain ⟨past, future, rfl⟩ := append_of_mem hmem
  exact ⟨past, prefix_append _ _, h past entry future rfl⟩

/-- Another entry is in the past of an entry, or has it in its own past. -/
theorem mem_past_or {past future : List α} {e e' : α} (h : Throughout F history)
    (hsplit : history = past ++ e :: future) (hmem : e' ∈ history) :
    e' ∈ past ∨ e' = e ∨ ∃ past', e ∈ past' ∧ F past' e' := by
  rw [hsplit, mem_append, mem_cons] at hmem
  refine hmem.imp_right (Or.imp_right fun hfuture => ?_)
  obtain ⟨between, rest, rfl⟩ := append_of_mem hfuture
  exact ⟨past ++ e :: between, by simp, h _ e' rest (by rw [hsplit]; simp)⟩

/-- Entries that are related to all entries before them are pairwise related. -/
theorem pairwise {R : α → α → Prop} (h : Throughout (fun past e => ∀ e' ∈ past, R e' e) history) :
    history.Pairwise R := by
  induction history using reverseRecOn with
  | nil => exact .nil
  | append_singleton history entry ih =>
    have hprev := ih (h.restrict (prefix_append _ _))
    refine pairwise_append.mpr ⟨hprev, pairwise_singleton _ _, ?_⟩
    intro e he e' he'
    rw [mem_singleton.mp he']
    exact h history entry [] rfl e he

end Throughout

/-- The first entry with a property comes with a past that has no such entry. -/
theorem exists_first {P : α → Prop} {history : List α} (h : ∃ entry ∈ history, P entry) :
    ∃ past entry future, history = past ++ entry :: future ∧ P entry ∧ ∀ e ∈ past, ¬ P e := by
  classical
  obtain ⟨entry, hentry⟩ : ∃ entry, history.find? (fun e => decide (P e)) = some entry := by
    rw [← Option.isSome_iff_exists, find?_isSome]
    simpa using h
  obtain ⟨hP, past, future, rfl, hpast⟩ := find?_eq_some_iff_append.mp hentry
  exact ⟨past, entry, future, rfl, of_decide_eq_true hP, by simpa using hpast⟩

end NimbleChain.Common
