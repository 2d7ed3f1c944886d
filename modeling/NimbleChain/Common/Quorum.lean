import Mathlib

/-!
# Quorums of which any two share a correct member

The safety of voting protocols rests on one property of quorums: any two of them have a correct
member in common. `QuorumSystem` carries it.
-/

namespace NimbleChain.Common

variable {V : Type*} [DecidableEq V]

/-- Sets of voters, any two of which share a correct voter. -/
structure QuorumSystem (V : Type*) where
  IsQuorum : Finset V → Prop
  correct : V → Prop
  exists_correct : ∀ Q Q', IsQuorum Q → IsQuorum Q' → ∃ v ∈ Q, v ∈ Q' ∧ correct v

/-- Quorums by number: all but `f` of at least `3 f + 1` members, with at most `f` faulty ones. -/
def QuorumSystem.ofCard (all faulty : Finset V) (f : ℕ) (hall : 3 * f < all.card)
    (hfaulty : faulty.card ≤ f) : QuorumSystem V where
  IsQuorum Q := Q ⊆ all ∧ all.card - f ≤ Q.card
  correct v := v ∉ faulty
  exists_correct Q Q' h h' := by
    by_contra hno
    push Not at hno
    have hinter : Q ∩ Q' ⊆ faulty := by
      intro v hv
      have hmem := Finset.mem_inter.mp hv
      exact hno v hmem.1 hmem.2
    have hsum := Finset.card_union_add_card_inter Q Q'
    have hunion := Finset.card_le_card (Finset.union_subset h.1 h'.1)
    have hcommon := Finset.card_le_card hinter
    have hQ := h.2
    have hQ' := h'.2
    omega

omit [DecidableEq V] in
/-- A quorum has a correct member. -/
theorem QuorumSystem.exists_correct_mem (S : QuorumSystem V) {Q : Finset V} (hQ : S.IsQuorum Q) :
    ∃ v ∈ Q, S.correct v := by
  obtain ⟨v, hv, -, hcorrect⟩ := S.exists_correct Q Q hQ hQ
  exact ⟨v, hv, hcorrect⟩

end NimbleChain.Common
