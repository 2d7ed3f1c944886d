import Mathlib

/-!
# Stateful programs that may panic

A handler reads and writes a state and may panic; the state at that time remains. `Program.wp` is
the weakest precondition for such programs, with one postcondition for a normal end and one for a
panic. The rules take a program apart along its text, so that a proof about a caller uses the
specifications of its callees.
-/

namespace NimbleChain.Common

/-- Programs over states `σ` that may panic with a value of `ε`. -/
abbrev Program (ε σ : Type) : Type → Type :=
  ExceptT ε (StateM σ)

namespace Program

variable {ε σ α β : Type} (c : Program ε σ α)

/-- Run a program; the final state is there in either outcome. -/
def exec (s : σ) : Except ε α × σ :=
  c.run.run s

/-- The program ends normally in a state with `Q`, or panics in a state with `E`. -/
def wp (Q : α → σ → Prop) (E : ε → σ → Prop) (s : σ) : Prop :=
  match c.exec s with
  | (.ok a, s') => Q a s'
  | (.error e, s') => E e s'

/-- No panic happens. -/
abbrev never (_ : ε) (_ : σ) : Prop :=
  False

/-- A computation that does not use the state. -/
def lift (x : Except ε α) : Program ε σ α :=
  ExceptT.mk (pure x)

/-- Run a program and hand over the failures that its caller handles. -/
def attempt {δ : Type} (handled : ε → Option δ) (c : Program ε σ α) : Program ε σ (Except δ α) :=
  ExceptT.mk fun s =>
    match c.exec s with
    | (.ok a, s') => (.ok (.ok a), s')
    | (.error e, s') =>
      match handled e with
      | some d => (.ok (.error d), s')
      | none => (.error e, s')

/-- Both ends of the program satisfy one predicate of the state. -/
def Always (P : σ → Prop) (s : σ) : Prop :=
  c.wp (fun _ => P) (fun _ => P) s

variable {Q Q' : α → σ → Prop} {E E' : ε → σ → Prop} {s : σ} {c : Program ε σ α} {a : α}
  {x : Except ε α} {s' : σ} {δ : Type}

/-- What a normal end satisfies. -/
theorem wp_of_exec_ok (h : c.exec s = (.ok a, s')) (hwp : c.wp Q E s) : Q a s' := by
  simpa [wp, h] using hwp

/-- A program that cannot panic ends. -/
theorem exists_of_wp (hwp : c.wp Q never s) :
    ∃ a s', c.exec s = (.ok a, s') ∧ Q a s' := by
  unfold wp at hwp
  split at hwp
  · rename_i a s' heq
    exact ⟨a, s', heq, hwp⟩
  · exact hwp.elim

/-- An evaluated outcome, as an equation about the run. -/
theorem exec_eq_of_toOption (h : (c.exec s).1.toOption = some a) :
    c.exec s = (.ok a, (c.exec s).2) := by
  refine Prod.ext ?_ rfl
  cases hrun : (c.exec s).1 with
  | ok b => rw [hrun] at h; exact congrArg _ (Option.some.inj h)
  | error e => rw [hrun] at h; cases h

/-- `Always` is about the state in which the program ends. -/
theorem always_iff {P : σ → Prop} : c.Always P s ↔ P (c.exec s).2 := by
  unfold Always wp
  split <;> simp [*]

/-- The rule of consequence. -/
theorem wp_mono (h : c.wp Q E s) (hQ : ∀ a s', Q a s' → Q' a s') (hE : ∀ e s', E e s' → E' e s') :
    c.wp Q' E' s := by
  unfold wp at *
  split
  · rename_i heq
    rw [heq] at h
    exact hQ _ _ h
  · rename_i heq
    rw [heq] at h
    exact hE _ _ h

/-- The panics of a specification need no argument of their own: their clause is kept, there are
none, or nothing is asked. -/
class PanicsKept (E E' : ε → σ → Prop) : Prop where
  imp : ∀ e s, E e s → E' e s

/-- The clause is kept. -/
instance : PanicsKept E E :=
  ⟨fun _ _ h => h⟩

/-- There are no panics. -/
instance : PanicsKept never E :=
  ⟨fun _ _ h => h.elim⟩

/-- Nothing is asked of panics. -/
instance : PanicsKept E (fun _ _ => True) :=
  ⟨fun _ _ _ => trivial⟩

/-- A weaker postcondition. -/
theorem wp_imp [PanicsKept E E'] (h : c.wp Q E s) (hQ : ∀ a s', Q a s' → Q' a s') : c.wp Q' E' s :=
  wp_mono h hQ PanicsKept.imp

/-- A weaker predicate of the state. -/
theorem Always.mono {P P' : σ → Prop} (h : c.Always P s) (hP : ∀ s', P s' → P' s') :
    c.Always P' s :=
  wp_mono h (fun _ => hP) (fun _ => hP)

/-- Two specifications of one program. -/
theorem wp_and (h : c.wp Q E s) (h' : c.wp Q' E' s) :
    c.wp (fun a s => Q a s ∧ Q' a s) (fun e s => E e s ∧ E' e s) s := by
  unfold wp at *
  split <;> simp_all

/-- The rule of `pure`. -/
@[simp] theorem wp_pure (a : α) : (pure a : Program ε σ α).wp Q E s ↔ Q a s :=
  Iff.rfl

/-- The rule of `throw`. -/
@[simp] theorem wp_throw (e : ε) : (throw e : Program ε σ α).wp Q E s ↔ E e s :=
  Iff.rfl

/-- The rule of a computation that succeeds. -/
theorem wp_lift_ok (h : x = .ok a) : (lift x : Program ε σ α).wp Q E s ↔ Q a s := by
  subst h
  exact Iff.rfl

/-- The rule of a computation that fails. -/
theorem wp_lift_error {e : ε} (h : x = .error e) : (lift x : Program ε σ α).wp Q E s ↔ E e s := by
  subst h
  exact Iff.rfl

/-- The rule of `get`. -/
@[simp] theorem wp_get {Q : σ → σ → Prop} : (get : Program ε σ σ).wp Q E s ↔ Q s s :=
  Iff.rfl

/-- The rule of `set`. -/
@[simp] theorem wp_set {Q : PUnit → σ → Prop} (s' : σ) :
    (set s' : Program ε σ PUnit).wp Q E s ↔ Q ⟨⟩ s' :=
  Iff.rfl

/-- The rule of `modify`. -/
@[simp] theorem wp_modify {Q : PUnit → σ → Prop} (f : σ → σ) :
    (modify f : Program ε σ PUnit).wp Q E s ↔ Q ⟨⟩ (f s) :=
  Iff.rfl

/-- How a sequence of programs runs. -/
theorem exec_bind (c : Program ε σ α) (f : α → Program ε σ β) :
    (c >>= f).exec s =
      match c.exec s with
      | (.ok a, s') => (f a).exec s'
      | (.error e, s') => (.error e, s') := by
  change (ExceptT.bindCont f (c.run.run s).1).run (c.run.run s).2 = _
  unfold exec
  rcases c.run.run s with ⟨r, s'⟩
  cases r <;> rfl

/-- How a value is returned. -/
theorem exec_pure (a : α) : (pure a : Program ε σ α).exec s = (.ok a, s) :=
  rfl

/-- How the state is read. -/
theorem exec_get : (get : Program ε σ σ).exec s = (.ok s, s) :=
  rfl

/-- How the state is written. -/
theorem exec_set (s' : σ) : (set s' : Program ε σ PUnit).exec s = (.ok ⟨⟩, s') :=
  rfl

/-- How a computation without the state runs. -/
theorem exec_lift (x : Except ε α) : (lift x : Program ε σ α).exec s = (x, s) :=
  rfl

/-- A computation without the state that succeeds. -/
theorem exec_lift_ok (h : x = .ok a) : (lift x : Program ε σ α).exec s = (.ok a, s) := by
  rw [h]
  rfl

/-- A sequence of programs ends normally if each of them does. -/
theorem exec_bind_eq_ok {f : α → Program ε σ β} {b : β} :
    (c >>= f).exec s = (.ok b, s') ↔
      ∃ a s1, c.exec s = (.ok a, s1) ∧ (f a).exec s1 = (.ok b, s') := by
  rw [exec_bind]
  rcases c.exec s with ⟨r, s1⟩
  cases r with
  | ok a =>
    refine ⟨fun h => ⟨a, s1, rfl, h⟩, ?_⟩
    rintro ⟨a', s1', heq, h⟩
    cases heq
    exact h
  | error e =>
    refine ⟨fun h => ?_, ?_⟩
    · cases h
    · rintro ⟨a', s1', heq, -⟩
      cases heq

/-- The rule of a sequence. -/
@[simp] theorem wp_bind {Q : β → σ → Prop} (c : Program ε σ α) (f : α → Program ε σ β) :
    (c >>= f).wp Q E s ↔ c.wp (fun a => (f a).wp Q E) E s := by
  unfold wp
  rw [exec_bind]
  rcases c.exec s with ⟨r, s'⟩
  cases r <;> rfl

/-- A sequence, from a specification of its first part. -/
theorem wp_seq {Q : β → σ → Prop} {R : α → σ → Prop} {F : ε → σ → Prop} {f : α → Program ε σ β}
    (h : c.wp R F s) (hf : ∀ a s', R a s' → (f a).wp Q E s') (hE : ∀ e s', F e s' → E e s') :
    (c >>= f).wp Q E s :=
  (wp_bind c f).mpr (wp_mono h hf hE)

/-- A sequence whose first part needs no argument about its panics. -/
theorem wp_then {Q : β → σ → Prop} {R : α → σ → Prop} {F : ε → σ → Prop} {f : α → Program ε σ β}
    [PanicsKept F E] (h : c.wp R F s) (hf : ∀ a s', R a s' → (f a).wp Q E s') :
    (c >>= f).wp Q E s :=
  wp_seq h hf PanicsKept.imp

/-- The rule of a function that is applied to the result. -/
@[simp] theorem wp_map {Q : β → σ → Prop} (f : α → β) (c : Program ε σ α) :
    (f <$> c).wp Q E s ↔ c.wp (fun a => Q (f a)) E s :=
  wp_bind c fun a => pure (f a)

/-- The rule of a function that is applied to the panic. -/
@[simp] theorem wp_adapt {F : δ → σ → Prop} (f : ε → δ) (c : Program ε σ α) :
    Program.wp (ExceptT.adapt f c) Q F s ↔ c.wp Q (fun e => F (f e)) s := by
  have hexec : Program.exec (ExceptT.adapt f c) s = ((c.exec s).1.mapError f, (c.exec s).2) :=
    rfl
  unfold wp
  rw [hexec]
  rcases c.exec s with ⟨r, s'⟩
  cases r <;> rfl

/-- The rule of `attempt`. -/
theorem wp_attempt {Q : Except δ α → σ → Prop} {handled : ε → Option δ} :
    (attempt handled c).wp Q E s ↔ c.wp (fun a => Q (.ok a))
      (fun e s' => (handled e).elim (E e s') fun d => Q (.error d) s') s := by
  have hexec : (attempt handled c).exec s =
      match c.exec s with
      | (.ok a, s') => (.ok (.ok a), s')
      | (.error e, s') =>
        match handled e with
        | some d => (.ok (.error d), s')
        | none => (.error e, s') :=
    rfl
  unfold wp
  rw [hexec]
  rcases c.exec s with ⟨r, s'⟩
  cases r with
  | ok a => rfl
  | error e =>
    dsimp only
    cases handled e <;> rfl

/-- The rule of a conditional. -/
@[simp] theorem wp_ite (p : Prop) [Decidable p] (c d : Program ε σ α) :
    (if p then c else d).wp Q E s ↔ (p → c.wp Q E s) ∧ (¬ p → d.wp Q E s) := by
  split <;> simp [*]

/-! ### Relations along a program -/

/-- From every state the program leads to a state that is related to it. -/
def Along (R : σ → σ → Prop) (c : Program ε σ α) : Prop :=
  ∀ s, c.Always (R s) s

namespace Along

variable {R R' : σ → σ → Prop} {c : Program ε σ α}

/-- A weaker relation. -/
theorem mono (h : Along R c) (hsub : ∀ s s', R s s' → R' s s') : Along R' c :=
  fun s => (h s).mono (hsub s)

/-- A single change. -/
theorem modify {f : σ → σ} (h : ∀ s, R s (f s)) : Along R (modify f : Program ε σ PUnit) :=
  fun s => h s

/-- A conditional. -/
theorem ite {p : Prop} [Decidable p] {d : Program ε σ α} (hc : p → Along R c)
    (hd : ¬ p → Along R d) : Along R (if p then c else d) := by
  split
  · exact hc ‹_›
  · exact hd ‹_›

/-- A program that starts by reading the state. -/
theorem get_bind {f : σ → Program ε σ α} (h : ∀ s, (f s).Always (R s) s) :
    Along R ((get : Program ε σ σ) >>= f) :=
  fun s => (wp_bind _ f).mpr (h s)

/-- A program that starts in a related state. -/
theorem after [IsTrans σ R] {s s' : σ} (h : Along R c) (hs : R s s') : c.Always (R s) s' :=
  (h s').mono fun _ => IsTrans.trans _ _ _ hs

/-- A sequence. -/
theorem bind [IsTrans σ R] {f : α → Program ε σ β} (hc : Along R c) (hf : ∀ a, Along R (f a)) :
    Along R (c >>= f) :=
  fun s => wp_then (hc s) fun a _ => (hf a).after

variable [Std.Refl R]

/-- A returned value. -/
theorem pure (a : α) : Along R (pure a : Program ε σ α) :=
  fun s => Std.Refl.refl s

/-- A panic. -/
theorem throw (e : ε) : Along R (throw e : Program ε σ α) :=
  fun s => Std.Refl.refl s

/-- Reading the state. -/
theorem get : Along R (get : Program ε σ σ) :=
  fun s => Std.Refl.refl s

end Along

end Program

end NimbleChain.Common
