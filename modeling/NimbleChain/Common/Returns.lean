import Mathlib

/-!
# Computations that may fail

A computation in `Except` returns if it ends with a value. The rules take a sequence of computations
apart, so that a proof that a caller returns uses what is known of its callees.
-/

namespace NimbleChain.Common

variable {ε α β : Type}

/-- The computation ends with a value. -/
def Returns (c : Except ε α) : Prop :=
  ∃ a, c = .ok a

variable {c : Except ε α} {b : β} {a : α}

/-- A sequence ends with a value if each computation does. -/
theorem bind_eq_ok {f : α → Except ε β} : (c >>= f) = .ok b ↔ ∃ a, c = .ok a ∧ f a = .ok b := by
  cases c with
  | error e => exact ⟨nofun, nofun⟩
  | ok a => simp [bind, Except.bind]

/-- What follows a check is only reached if the check passes. -/
theorem ite_error_eq_ok {p : Prop} [Decidable p] {e : ε} :
    (if p then .error e else c) = .ok a ↔ ¬p ∧ c = .ok a := by
  by_cases hp : p
  · simp [hp]
  · simp [hp]

theorem toOption_eq_some : c.toOption = some a ↔ c = .ok a := by
  cases c with
  | error e => exact ⟨nofun, nofun⟩
  | ok b => simp [Except.toOption]

namespace Returns

@[simp] theorem ok (a : α) : Returns (.ok a : Except ε α) :=
  ⟨a, rfl⟩

@[simp] theorem pure (a : α) : Returns (pure a : Except ε α) :=
  ⟨a, rfl⟩

@[simp] theorem not_error (e : ε) : ¬Returns (.error e : Except ε α) := by
  rintro ⟨a, h⟩
  cases h

variable {c : Except ε α} {f : α → Except ε β}

theorem bind (hc : Returns c) (hf : ∀ a, c = .ok a → Returns (f a)) : Returns (c >>= f) := by
  obtain ⟨a, ha⟩ := hc
  rw [ha]
  exact hf a ha

theorem bind_iff : Returns (c >>= f) ↔ ∃ a, c = .ok a ∧ Returns (f a) := by
  constructor
  · rintro ⟨b, hb⟩
    obtain ⟨a, ha, hf⟩ := bind_eq_ok.mp hb
    exact ⟨a, ha, b, hf⟩
  · rintro ⟨a, ha, hf⟩
    exact Returns.bind ⟨a, ha⟩ fun a' ha' => Except.ok.inj (ha.symm.trans ha') ▸ hf

/-- A sequence returns if the first computation returns and the rest does for its value. -/
theorem bind_iff_forall : Returns (c >>= f) ↔ Returns c ∧ ∀ a, c = .ok a → Returns (f a) := by
  rw [bind_iff]
  constructor
  · rintro ⟨a, ha, hf⟩
    exact ⟨⟨a, ha⟩, fun a' ha' => Except.ok.inj (ha.symm.trans ha') ▸ hf⟩
  · rintro ⟨⟨a, ha⟩, hf⟩
    exact ⟨a, ha, hf a ha⟩

/-- What follows a computation returns if it is reached. -/
theorem bind_iff_left (hf : ∀ a, c = .ok a → Returns (f a)) : Returns (c >>= f) ↔ Returns c :=
  ⟨fun h => (bind_iff_forall.mp h).1, fun h => h.bind hf⟩

/-- What follows a computation does not use its value. -/
theorem seq_iff {d : Except ε β} : Returns (c >>= fun _ => d) ↔ Returns c ∧ Returns d := by
  rw [bind_iff_forall]
  exact and_congr_right fun ⟨a, ha⟩ => ⟨fun h => h a ha, fun h _ _ => h⟩

/-- What follows a computation cannot fail. -/
theorem bind_pure_iff {f : α → β} : Returns (c >>= fun a => Pure.pure (f a)) ↔ Returns c :=
  bind_iff_left fun _ _ => pure _

@[simp] theorem map_iff {f : α → β} : Returns (f <$> c) ↔ Returns c := by
  cases c with
  | error e => exact ⟨fun h => absurd h (not_error e), fun h => absurd h (not_error e)⟩
  | ok a => exact ⟨fun _ => ok a, fun _ => ok (f a)⟩

end Returns

/-- The computation ends with a value that meets `P` or with an error that meets `E`. -/
def Outcome (P : α → Prop) (E : ε → Prop) : Except ε α → Prop
  | .ok a => P a
  | .error e => E e

namespace Outcome

variable {P : α → Prop} {Q : β → Prop} {E : ε → Prop} {c : Except ε α}

theorem value {a : α} (h : Outcome P E c) (hc : c = .ok a) : P a := by
  rw [hc] at h
  exact h

theorem failure {e : ε} (h : Outcome P E c) (hc : c = .error e) : E e := by
  rw [hc] at h
  exact h

/-- The outcome of a sequence, from the outcomes of its parts. -/
theorem bind {f : α → Except ε β} (hc : Outcome P E c)
    (hf : ∀ a, c = .ok a → P a → Outcome Q E (f a)) : Outcome Q E (c >>= f) := by
  cases c with
  | error e => exact hc
  | ok a => exact hf a rfl hc

theorem mono {P' : α → Prop} {E' : ε → Prop} (h : Outcome P E c) (hP : ∀ a, P a → P' a)
    (hE : ∀ e, E e → E' e) : Outcome P' E' c := by
  cases c with
  | error e => exact hE e h
  | ok a => exact hP a h

end Outcome

end NimbleChain.Common
