import NimbleChain.Common.ListSum

/-!
# The element that reaches a rank in a weighted list

A list that is sorted by a key is scanned until the weights that have been passed reach a rank. The
element that is found is described by the weights at or below a bound, in any order of the list.
-/

namespace NimbleChain.Common.WeightedMedian

variable {α : Type}

/-- The first element at which the sum of the weights reaches a rank. -/
def pick (weight : α → Int) : Int → List α → Option α
  | _, [] => none
  | rank, x :: rest => if rank ≤ weight x then some x else pick weight (rank - weight x) rest

/-- The weight of the elements whose key is at most a bound. -/
def weightUpTo (weight key : α → Int) (bound : Int) (l : List α) : Int :=
  sumOf (fun x => if key x ≤ bound then weight x else 0) l

variable {weight key : α → Int} {l : List α} {rank bound : Int}

/-- A rank up to the total weight is reached. -/
theorem exists_pick (hl : l ≠ []) (hrank : rank ≤ sumOf weight l) :
    ∃ x, pick weight rank l = some x := by
  induction l generalizing rank with
  | nil => exact absurd rfl hl
  | cons y l ih =>
    rw [sumOf] at hrank
    rw [pick]
    split
    · exact ⟨y, rfl⟩
    · apply ih _ (by omega)
      rintro rfl
      rw [sumOf] at hrank
      omega

theorem weightUpTo_cons (x : α) (l : List α) :
    weightUpTo weight key bound (x :: l) =
      (if key x ≤ bound then weight x else 0) + weightUpTo weight key bound l :=
  rfl

theorem weightUpTo_nonneg (h : ∀ x ∈ l, 0 ≤ weight x) : 0 ≤ weightUpTo weight key bound l := by
  apply sumOf_nonneg
  intro x hx
  split
  · exact h x hx
  · exact Int.le_refl 0

theorem weightUpTo_eq_zero (h : ∀ x ∈ l, ¬ key x ≤ bound) : weightUpTo weight key bound l = 0 := by
  have hcongr : weightUpTo weight key bound l = sumOf (fun _ => 0) l :=
    sumOf_congr fun x hx => if_neg (h x hx)
  rw [hcongr, sumOf_const, Int.mul_zero]

/-- In a sorted list the element that reaches a rank is at most a bound exactly if some element is,
and the weight of these is at least the rank. -/
theorem pick_le_iff (hsorted : l.Pairwise fun x y => key x ≤ key y)
    (hweight : ∀ x ∈ l, 0 ≤ weight x) {x : α} (h : pick weight rank l = some x) :
    key x ≤ bound ↔ (∃ y ∈ l, key y ≤ bound) ∧ rank ≤ weightUpTo weight key bound l := by
  induction l generalizing rank with
  | nil => cases h
  | cons y l ih =>
    obtain ⟨hy, hsorted⟩ := List.pairwise_cons.mp hsorted
    obtain ⟨hwy, hweight⟩ := List.forall_mem_cons.mp hweight
    have hrest : 0 ≤ weightUpTo weight key bound l := weightUpTo_nonneg hweight
    have hbeyond (hgt : ¬ key y ≤ bound) : ∀ z ∈ y :: l, ¬ key z ≤ bound := by
      intro z hz
      rcases List.mem_cons.mp hz with rfl | hz
      · exact hgt
      · have := hy z hz
        omega
    rw [pick] at h
    split at h
    · obtain rfl := Option.some.inj h
      constructor
      · intro hle
        refine ⟨⟨y, List.mem_cons_self, hle⟩, ?_⟩
        rw [weightUpTo_cons, if_pos hle]
        omega
      · rintro ⟨⟨z, hz, hle⟩, -⟩
        by_contra hgt
        exact hbeyond hgt z hz hle
    · rw [ih hsorted hweight h, weightUpTo_cons]
      constructor
      · rintro ⟨⟨z, hz, hle⟩, hrank⟩
        have hyle : key y ≤ bound := Int.le_trans (hy z hz) hle
        exact ⟨⟨z, List.mem_cons_of_mem y hz, hle⟩, by omega⟩
      · rintro ⟨⟨z, hz, hle⟩, hrank⟩
        -- the rank goes beyond `y`, so some weight up to the bound comes later
        have hlater : ∃ z ∈ l, key z ≤ bound := by
          by_contra hnone
          have hzero : weightUpTo weight key bound l = 0 :=
            weightUpTo_eq_zero fun z hz hle => hnone ⟨z, hz, hle⟩
          omega
        exact ⟨hlater, by omega⟩

end NimbleChain.Common.WeightedMedian
