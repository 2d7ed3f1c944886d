import NimbleChain.Common.History

/-!
# Parties that react to deliveries in any order

A system of parties, each with its own state, to which inputs are delivered one at a time. Nothing
restricts who receives what and when, so that every delay, loss, duplication and reordering of
messages is a list of deliveries. Each party keeps a trace of what it did; the traces are merged in
the order of the deliveries.
-/

namespace NimbleChain.Common

open List Function

variable {ι σ α ε : Type*}

/-- The program of the parties: initial states, the reaction to an input, and the trace kept in
a state. -/
structure Parties (ι σ α ε : Type*) where
  init : ι → σ
  step : σ → α → σ
  trace : σ → List ε

/-- The states of all parties and the merged trace. -/
structure World (ι σ ε : Type*) where
  states : ι → σ
  trace : List (ι × ε)

/-- The part of a merged trace that belongs to one party. -/
def ownTrace [DecidableEq ι] (i : ι) (trace : List (ι × ε)) : List ε :=
  trace.filterMap fun e => if e.1 = i then some e.2 else none

namespace Parties

variable [DecidableEq ι] (P : Parties ι σ α ε) (deliveries : List (ι × α))

/-- One party receives one input. -/
def deliver (w : World ι σ ε) (delivery : ι × α) : World ι σ ε :=
  let s := w.states delivery.1
  let s' := P.step s delivery.2
  { states := update w.states delivery.1 s'
    trace := w.trace ++
      ((P.trace s').drop (P.trace s).length).map fun entry => (delivery.1, entry) }

/-- The world after a list of deliveries. -/
def run : World ι σ ε :=
  deliveries.foldl P.deliver ⟨P.init, []⟩

theorem run_append_singleton (d : ι × α) :
    P.run (deliveries ++ [d]) = P.deliver (P.run deliveries) d := by
  simp [run]

variable {P} {deliveries : List (ι × α)}

/-- What holds initially and is kept by the steps of a party holds of it in every run. -/
theorem run_induction {I : ι → σ → Prop} (hinit : ∀ i, I i (P.init i))
    (hstep : ∀ i s a, (i, a) ∈ deliveries → I i s → I i (P.step s a)) (i : ι) :
    I i ((P.run deliveries).states i) := by
  induction deliveries using reverseRecOn generalizing i with
  | nil => exact hinit i
  | append_singleton deliveries d ih =>
    have hprev := ih fun i s a hmem => hstep i s a (mem_append_left _ hmem)
    rw [run_append_singleton]
    by_cases hi : i = d.1
    · subst hi
      simp only [deliver, update_self]
      exact hstep _ _ _ (by simp) (hprev d.1)
    · simp only [deliver, update_of_ne hi]
      exact hprev i

/-- A party that receives nothing stays in its initial state. -/
theorem run_states_of_not_mem {i : ι} (hi : ∀ d ∈ deliveries, i ≠ d.1) :
    (P.run deliveries).states i = P.init i := by
  refine run_induction (I := fun j s => i = j → s = P.init i) ?_ ?_ i rfl
  · rintro _ rfl
    rfl
  · intro j s a hmem _ hj
    exact absurd hj (hi _ hmem)

/-- What relates the states before and after each step relates the states along a run. -/
theorem run_relation {R : σ → σ → Prop} (hrefl : ∀ s, R s s)
    (htrans : ∀ s s' s'', R s s' → R s' s'' → R s s'') (hstep : ∀ s a, R s (P.step s a))
    (deliveries more : List (ι × α)) (i : ι) :
    R ((P.run deliveries).states i) ((P.run (deliveries ++ more)).states i) := by
  induction more using reverseRecOn with
  | nil =>
    rw [append_nil]
    exact hrefl _
  | append_singleton more d ih =>
    rw [← append_assoc, run_append_singleton]
    refine htrans _ _ _ ih ?_
    by_cases hi : i = d.1
    · subst hi
      simp only [deliver, update_self]
      exact hstep _ _
    · simp only [deliver, update_of_ne hi]
      exact hrefl _

end Parties

variable [DecidableEq ι] (i : ι)

@[simp] theorem ownTrace_append (xs ys : List (ι × ε)) :
    ownTrace i (xs ++ ys) = ownTrace i xs ++ ownTrace i ys := by
  simp [ownTrace]

/-- The own trace of a party at an entry of the merged trace. -/
theorem ownTrace_split {trace past future : List (ι × ε)} {entry : ε}
    (h : trace = past ++ (i, entry) :: future) :
    ownTrace i trace = ownTrace i past ++ entry :: ownTrace i future := by
  rw [h, ownTrace_append]
  simp [ownTrace]

theorem mem_ownTrace {i : ι} {trace : List (ι × ε)} {entry : ε} :
    entry ∈ ownTrace i trace ↔ (i, entry) ∈ trace := by
  simp only [ownTrace, mem_filterMap]
  constructor
  · intro h
    obtain ⟨⟨j, e⟩, hmem, h⟩ := h
    split at h
    · rename_i hj
      cases h
      exact hj ▸ hmem
    · cases h
  · intro hmem
    exact ⟨(i, entry), hmem, by simp⟩

theorem ownTrace_map_self (entries : List ε) :
    ownTrace i (entries.map fun entry => (i, entry)) = entries := by
  simp [ownTrace, filterMap_map]

theorem ownTrace_map_of_ne {i j : ι} (h : i ≠ j) (entries : List ε) :
    ownTrace i (entries.map fun entry => (j, entry)) = [] := by
  simp [ownTrace, filterMap_map, h.symm]

/-- The merged trace of a run consists of the traces of the parties, if these only grow. -/
theorem Parties.ownTrace_run {P : Parties ι σ α ε} (hinit : ∀ i, P.trace (P.init i) = [])
    (hstep : ∀ s a, P.trace s <+: P.trace (P.step s a)) (deliveries : List (ι × α)) (i : ι) :
    ownTrace i (P.run deliveries).trace = P.trace ((P.run deliveries).states i) := by
  induction deliveries using reverseRecOn with
  | nil => simp [run, hinit, ownTrace]
  | append_singleton deliveries d ih =>
    rw [run_append_singleton]
    by_cases hi : i = d.1
    · subst hi
      simp only [deliver, ownTrace_append, ownTrace_map_self, ih, update_self]
      obtain ⟨new, hnew⟩ := hstep ((P.run deliveries).states d.1) d.2
      rw [← hnew, drop_left]
    · simp only [deliver, ownTrace_append, ownTrace_map_of_ne hi, append_nil, ih,
        update_of_ne hi]

/-- What the entries of the parties' own traces satisfy with their past, those of the merged trace
satisfy with the own part of it. -/
theorem Throughout.of_ownTrace {F : ι → List ε → ε → Prop} {trace : List (ι × ε)}
    (h : ∀ i, Throughout (F i) (ownTrace i trace)) :
    Throughout (fun past e => F e.1 (ownTrace e.1 past) e.2) trace := by
  intro past e future heq
  exact h e.1 _ e.2 _ (ownTrace_split e.1 heq)

/-- A history from which only some entries are kept, in another form. -/
theorem Throughout.filterMap {β γ : Type*} {f : β → Option γ} {F : List γ → γ → Prop}
    {history : List β}
    (h : Throughout (fun past e => ∀ c, f e = some c → F (past.filterMap f) c) history) :
    Throughout F (history.filterMap f) := by
  induction history using reverseRecOn with
  | nil => exact .nil
  | append_singleton history e ih =>
    have hprev := ih (h.restrict (prefix_append _ _))
    cases hfe : f e with
    | none => simpa [hfe] using hprev
    | some c =>
      have hlast := h history e [] rfl c hfe
      simpa [hfe] using hprev.append_singleton hlast

end NimbleChain.Common
