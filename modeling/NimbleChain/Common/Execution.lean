import Mathlib

/-!
# Executions of a machine with atomic actions

A machine has an initial state and a partial step for each action: an action that is not enabled in
a state has no successor. An interleaving of several threads is a list of actions. A condition can
be required of every action; what such steps preserve holds after every list that meets it.
-/

namespace NimbleChain.Common

/-- A machine: an initial state and the successor of a state under an action that is enabled. -/
structure Machine (σ α : Type*) where
  init : σ
  step : σ → α → Option σ

namespace Machine

variable {σ α : Type*} (m : Machine σ α)

/-- The state after a list of actions, if each of them is enabled in its turn. -/
def runFrom : σ → List α → Option σ
  | s, [] => some s
  | s, a :: rest => (m.step s a).bind fun s' => runFrom s' rest

/-- The state that a list of actions leads to from the initial one. -/
def run (actions : List α) : Option σ :=
  m.runFrom m.init actions

/-- Every action of the list meets the condition in the state in which it is taken. -/
def Meets (C : σ → α → Prop) : σ → List α → Prop
  | _, [] => True
  | s, a :: rest => C s a ∧ ∀ s', m.step s a = some s' → Meets C s' rest

variable {m} {C : σ → α → Prop} {I : σ → Prop}

instance decidableMeets [∀ s a, Decidable (C s a)] :
    ∀ s actions, Decidable (m.Meets C s actions)
  | _, [] => isTrue trivial
  | s, a :: rest =>
    match hstep : m.step s a with
    | none => decidable_of_iff (C s a) (by simp [Meets, hstep])
    | some next =>
      have := decidableMeets next rest
      decidable_of_iff (C s a ∧ m.Meets C next rest) (by simp [Meets, hstep])

variable {s s' : σ} {actions more : List α} {D : α → Prop}

theorem runFrom_cons {a : α} {rest : List α} :
    m.runFrom s (a :: rest) = some s' ↔
      ∃ next, m.step s a = some next ∧ m.runFrom next rest = some s' := by
  simp [runFrom, Option.bind_eq_some_iff]

/-- What the steps that meet the condition preserve holds at the end of every list of them. -/
theorem runFrom_invariant (hs : I s) (hstep : ∀ s a s', I s → C s a → m.step s a = some s' → I s')
    (hmeets : m.Meets C s actions) (hrun : m.runFrom s actions = some s') : I s' := by
  induction actions generalizing s with
  | nil => exact Option.some.inj hrun ▸ hs
  | cons a rest ih =>
    obtain ⟨next, hnext, hrest⟩ := runFrom_cons.mp hrun
    exact ih (hstep s a next hs hmeets.1 hnext) (hmeets.2 next hnext) hrest

theorem run_invariant (hinit : I m.init)
    (hstep : ∀ s a s', I s → C s a → m.step s a = some s' → I s')
    (hmeets : m.Meets C m.init actions) (hrun : m.run actions = some s) : I s :=
  runFrom_invariant hinit hstep hmeets hrun

/-- A condition on the actions alone is met in whatever states they are taken. -/
theorem meets_of_forall (hall : ∀ a ∈ actions, D a) (s : σ) :
    m.Meets (fun _ a => D a) s actions := by
  induction actions generalizing s with
  | nil => trivial
  | cons a rest ih =>
    obtain ⟨ha, hrest⟩ := List.forall_mem_cons.mp hall
    exact ⟨ha, fun s' _ => ih hrest s'⟩

/-- What every step preserves holds after every list of actions. -/
theorem run_invariant_of_step (hinit : I m.init)
    (hstep : ∀ s a s', I s → m.step s a = some s' → I s') (hrun : m.run actions = some s) : I s :=
  run_invariant hinit (fun s a s' hs _ => hstep s a s' hs)
    (meets_of_forall (fun _ _ => trivial) m.init) hrun

theorem runFrom_append (m : Machine σ α) (s : σ) (actions more : List α) :
    m.runFrom s (actions ++ more) = (m.runFrom s actions).bind fun s' => m.runFrom s' more := by
  induction actions generalizing s with
  | nil => rfl
  | cons a rest ih =>
    simp only [List.cons_append, runFrom, Option.bind_assoc, ih]

/-- The end of a list that meets a condition meets it from the state that its beginning leads to. -/
theorem meets_of_append (hmeets : m.Meets C s (actions ++ more))
    (hrun : m.runFrom s actions = some s') : m.Meets C s' more := by
  induction actions generalizing s with
  | nil => exact Option.some.inj hrun ▸ hmeets
  | cons a rest ih =>
    obtain ⟨next, hnext, hrest⟩ := runFrom_cons.mp hrun
    exact ih (hmeets.2 next hnext) hrest

theorem Meets.left (hmeets : m.Meets C s (actions ++ more)) : m.Meets C s actions := by
  induction actions generalizing s with
  | nil => trivial
  | cons a rest ih => exact ⟨hmeets.1, fun s' hs' => ih (hmeets.2 s' hs')⟩

/-- A condition on the actions alone can be added to the one that a list meets. -/
theorem Meets.and_forall (hmeets : m.Meets C s actions) (hall : ∀ a ∈ actions, D a) :
    m.Meets (fun s a => C s a ∧ D a) s actions := by
  induction actions generalizing s with
  | nil => trivial
  | cons a rest ih =>
    obtain ⟨ha, hrest⟩ := List.forall_mem_cons.mp hall
    exact ⟨⟨hmeets.1, ha⟩, fun s' hs' => ih (hmeets.2 s' hs') hrest⟩

/-- When every action that meets the condition is enabled, a list of them runs to its end, keeps
what its steps keep and relates its ends if they relate theirs. -/
theorem exists_runFrom {R : σ → σ → Prop} (hrefl : ∀ s, R s s)
    (htrans : ∀ s s' s'', R s s' → R s' s'' → R s s'') (hs : I s)
    (hstep : ∀ s a, I s → C s a → ∃ s', m.step s a = some s' ∧ I s' ∧ R s s')
    (hmeets : m.Meets C s actions) : ∃ s', m.runFrom s actions = some s' ∧ I s' ∧ R s s' := by
  induction actions generalizing s with
  | nil => exact ⟨s, rfl, hs, hrefl s⟩
  | cons a rest ih =>
    obtain ⟨next, hnext, hinv, hrel⟩ := hstep s a hs hmeets.1
    obtain ⟨s', hrun, hs', hrest⟩ := ih hinv (hmeets.2 next hnext)
    exact ⟨s', runFrom_cons.mpr ⟨next, hnext, hrun⟩, hs', htrans s next s' hrel hrest⟩

end Machine

end NimbleChain.Common
