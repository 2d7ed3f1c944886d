import Mathlib

/-!
# Sums and averages along lists of integers

The sum of a quantity over a list, its floor average, and what dividing or shifting all quantities
does to their differences.
-/

namespace NimbleChain.Common

open List Int

variable {α β : Type}

/-- The sum of a quantity along a list. -/
def sumOf (f : α → Int) : List α → Int
  | [] => 0
  | x :: l => f x + sumOf f l

section Sums

variable {f g : α → Int} {l l' : List α}

theorem sumOf_eq (f : α → Int) (l : List α) : sumOf f l = (l.map f).sum := by
  induction l with
  | nil => rfl
  | cons x l ih => rw [sumOf, ih, map_cons, sum_cons]

theorem sumOf_append : sumOf f (l ++ l') = sumOf f l + sumOf f l' := by
  simp [sumOf_eq]

theorem sumOf_perm (h : l.Perm l') : sumOf f l = sumOf f l' := by
  rw [sumOf_eq, sumOf_eq, (h.map f).sum_eq]

theorem sumOf_congr (h : ∀ x ∈ l, f x = g x) : sumOf f l = sumOf g l := by
  rw [sumOf_eq, sumOf_eq, map_congr_left h]

theorem sumOf_map (h : β → α) (l : List β) : sumOf f (l.map h) = sumOf (fun x => f (h x)) l := by
  rw [sumOf_eq, sumOf_eq, map_map]
  rfl

theorem sumOf_add (f g : α → Int) (l : List α) :
    sumOf (fun x => f x + g x) l = sumOf f l + sumOf g l := by
  rw [sumOf_eq, sumOf_eq, sumOf_eq, sum_map_add]

theorem sumOf_sub (f g : α → Int) (l : List α) :
    sumOf (fun x => f x - g x) l = sumOf f l - sumOf g l := by
  induction l with
  | nil => rfl
  | cons x l ih => simp only [sumOf, ih]; omega

theorem sumOf_const (c : Int) (l : List α) : sumOf (fun _ => c) l = l.length * c := by
  simp [sumOf_eq]

theorem sumOf_nonneg (h : ∀ x ∈ l, 0 ≤ f x) : 0 ≤ sumOf f l := by
  rw [sumOf_eq]
  exact sum_nonneg (forall_mem_map.mpr h)

theorem sumOf_le (h : ∀ x ∈ l, f x ≤ g x) : sumOf f l ≤ sumOf g l := by
  rw [sumOf_eq, sumOf_eq]
  exact sum_le_sum h

/-- No element counts more than all together. -/
theorem le_sumOf (h : ∀ x ∈ l, 0 ≤ f x) {x : α} (hx : x ∈ l) : f x ≤ sumOf f l := by
  rw [sumOf_eq]
  exact single_le_sum (forall_mem_map.mpr h) _ (mem_map_of_mem hx)

/-- Two elements count no more than all together. -/
theorem add_le_sumOf (h : ∀ x ∈ l, 0 ≤ f x) {i j : Nat} {x y : α} (hij : i ≠ j)
    (hi : l[i]? = some x) (hj : l[j]? = some y) : f x + f y ≤ sumOf f l := by
  obtain ⟨hlt, rfl⟩ := List.getElem_of_getElem? hi
  rw [← sumOf_perm (getElem_cons_eraseIdx_perm hlt), sumOf]
  have hy : y ∈ l.eraseIdx i := mem_eraseIdx_iff_getElem?.mpr ⟨j, hij.symm, hj⟩
  have hrest := le_sumOf (fun z hz => h z (mem_of_mem_eraseIdx hz)) hy
  omega

/-- Replacing one element changes the sum by the difference. -/
theorem sumOf_set {i : Nat} {x y : α} (h : l[i]? = some x) :
    sumOf f (l.set i y) = sumOf f l - f x + f y := by
  obtain ⟨hlt, rfl⟩ := List.getElem_of_getElem? h
  rw [sumOf_eq, sumOf_eq, map_set, sum_set', dif_pos (by simpa using hlt), getElem_map]
  omega

/-- If every element counts at most one and the sum is the length, every element counts one. -/
theorem eq_one_of_sumOf_eq_length (hle : ∀ x ∈ l, f x ≤ 1) (h : sumOf f l = l.length) :
    ∀ x ∈ l, f x = 1 := by
  induction l with
  | nil => simp
  | cons x l ih =>
    obtain ⟨hx, hl⟩ := forall_mem_cons.mp hle
    have hbound : sumOf f l ≤ sumOf (fun _ => 1) l := sumOf_le hl
    rw [sumOf_const] at hbound
    rw [sumOf, length_cons, natCast_add] at h
    exact forall_mem_cons.mpr ⟨by omega, ih hl (by omega)⟩

/-- In a list without duplicates one position may hold a given element. -/
theorem sumOf_ite [DecidableEq α] (hl : l.Nodup) (a : α) (v : Int) :
    sumOf (fun x => if a = x then v else 0) l = if a ∈ l then v else 0 := by
  induction l with
  | nil => rfl
  | cons x l ih =>
    obtain ⟨hx, hl⟩ := nodup_cons.mp hl
    rw [sumOf, ih hl]
    by_cases hax : a = x
    · subst hax
      simp [hx]
    · simp [hax]

end Sums

/-! ### Averages -/

section Averages

variable {f : α → Int} {l : List α} (hl : l ≠ [])
include hl

/-- The floor average lies between the bounds of the quantity. -/
theorem average_mem (lo hi : Int) (h : ∀ x ∈ l, lo ≤ f x ∧ f x ≤ hi) :
    lo ≤ sumOf f l / l.length ∧ sumOf f l / l.length ≤ hi := by
  have hlen : (0 : Int) < l.length := by
    have := length_pos_of_ne_nil hl
    omega
  have hlo : lo * l.length ≤ sumOf f l := by
    rw [Int.mul_comm, ← sumOf_const]
    exact sumOf_le fun x hx => (h x hx).1
  have hhi : sumOf f l ≤ l.length * hi := by
    rw [← sumOf_const]
    exact sumOf_le fun x hx => (h x hx).2
  constructor
  · exact (Int.le_ediv_iff_mul_le hlen).mpr hlo
  · exact Int.ediv_le_of_le_mul hlen (by rw [Int.mul_comm]; exact hhi)

/-- After the floor average is subtracted, the sum is a remainder. -/
theorem sumOf_sub_average :
    0 ≤ sumOf (fun x => f x - sumOf f l / l.length) l ∧
      sumOf (fun x => f x - sumOf f l / l.length) l < l.length := by
  have hlen : (0 : Int) < l.length := by
    have := length_pos_of_ne_nil hl
    omega
  have hrem : sumOf (fun x => f x - sumOf f l / l.length) l = sumOf f l % l.length := by
    rw [sumOf_sub, sumOf_const, emod_def]
  rw [hrem]
  exact ⟨emod_nonneg _ (by omega), emod_lt_of_pos _ hlen⟩

end Averages

/-! ### Division of all quantities -/

/-- Truncated division shrinks a difference by the divisor. -/
theorem tdiv_sub_tdiv_le {x y r d : Int} (hr : 0 < r) (hd : 0 ≤ d) (h : x - y ≤ r * d) :
    x.tdiv r - y.tdiv r ≤ d := by
  have hmono : x.tdiv r ≤ (y + r * d).tdiv r := Int.tdiv_le_tdiv hr (by omega)
  have hrd : 0 ≤ r * d := Int.mul_nonneg (by omega) hd
  rcases Int.le_total 0 (y + r * d) with hz | hz
  · -- at the upper end truncation is the floor, which is at most the truncation of `y`
    have hfloor : y / r ≤ y.tdiv r := by
      rw [tdiv_eq_ediv, sign_eq_one_of_pos hr]
      split <;> omega
    have hshift : (y + r * d) / r = y / r + d := add_mul_ediv_left y d (by omega)
    rw [tdiv_eq_ediv_of_nonneg hz, hshift] at hmono
    omega
  · have htrunc : ∀ z ≤ 0, tdiv z r = -(-z / r) := by
      intro z hz
      rw [← Int.tdiv_eq_ediv_of_nonneg (by omega), Int.neg_tdiv, Int.neg_neg]
    have hshift : (-(y + r * d)) / r = -y / r - d := by
      rw [show -(y + r * d) = -y + r * -d by rw [Int.mul_neg]; omega,
        add_mul_ediv_left _ _ (by omega)]
      omega
    rw [htrunc _ hz, hshift] at hmono
    rw [htrunc y (by omega)]
    omega

/-- A quantity is at most the rounded up quotient times the divisor. -/
theorem le_ceil_mul {d m : Int} (hm : 0 < m) : d ≤ (d + m - 1) / m * m := by
  have hdiv := mul_ediv_add_emod (d + m - 1) m
  have hrem := emod_lt_of_pos (d + m - 1) hm
  rw [Int.mul_comm] at hdiv
  omega

end NimbleChain.Common
