import Mathlib

/-!
# Exact arithmetic in fixed width

An operation on 64-bit integers is exact if its mathematical result is one of them.
-/

namespace NimbleChain.Common.Exact

/-- The integers that 64 bits can hold. -/
def Fits (x : Int) : Prop :=
  -9223372036854775808 ≤ x ∧ x ≤ 9223372036854775807

/-- A 64-bit integer fits. -/
theorem fits_toInt (a : Int64) : Fits a.toInt := by
  have hlo := a.le_toInt
  have hhi := a.toInt_lt
  unfold Fits
  omega

variable {a b : Int64} {x : Int}

/-- What fits does not wrap. -/
theorem bmod_eq (h : Fits x) : x.bmod (2 ^ 64) = x := by
  unfold Fits at h
  apply Int.bmod_eq_of_le <;> omega

/-- Exact addition. -/
theorem toInt_add (h : Fits (a.toInt + b.toInt)) : (a + b).toInt = a.toInt + b.toInt := by
  rw [Int64.toInt_add, bmod_eq h]

/-- Exact subtraction. -/
theorem toInt_sub (h : Fits (a.toInt - b.toInt)) : (a - b).toInt = a.toInt - b.toInt := by
  rw [Int64.toInt_sub, bmod_eq h]

/-- Exact multiplication. -/
theorem toInt_mul (h : Fits (a.toInt * b.toInt)) : (a * b).toInt = a.toInt * b.toInt := by
  rw [Int64.toInt_mul, bmod_eq h]

/-- Exact division. -/
theorem toInt_div (h : Fits (a.toInt.tdiv b.toInt)) : (a / b).toInt = a.toInt.tdiv b.toInt := by
  rw [Int64.toInt_div, bmod_eq h]

/-- Division by a positive number is exact. -/
theorem toInt_div_of_pos (hb : 0 < b.toInt) : (a / b).toInt = a.toInt.tdiv b.toInt := by
  have ha := fits_toInt a
  have hle := Int.natAbs_tdiv_le_natAbs a.toInt b.toInt
  apply toInt_div
  unfold Fits at *
  rcases Int.le_total 0 a.toInt with hpos | hneg
  · omega
  · have hmono := Int.tdiv_le_tdiv hb hneg
    rw [Int.zero_tdiv] at hmono
    omega

/-- A successor that is positive did not wrap around. -/
theorem toInt_succ (h : 0 < (a + 1).toInt) : (a + 1).toInt = a.toInt + 1 := by
  have hlo := a.le_toInt
  have hhi := a.toInt_lt
  have hone : (1 : Int64).toInt = 1 := rfl
  by_cases hfits : Fits (a.toInt + (1 : Int64).toInt)
  · rw [toInt_add hfits, hone]
  · have hmax : a.toInt = 9223372036854775807 := by
      unfold Fits at hfits
      omega
    rw [Int64.toInt_add, hmax, hone] at h
    exact absurd h (by decide)

/-- The remainder of a truncating division is small and has the sign of the dividend. -/
theorem tmod_bounds (x : Int) {n : Int} (hn : 0 < n) :
    -n < x.tmod n ∧ x.tmod n < n ∧ (0 ≤ x → 0 ≤ x.tmod n) ∧ (x ≤ 0 → x.tmod n ≤ 0) := by
  refine ⟨Int.lt_tmod_of_pos x hn, Int.tmod_lt_of_pos x hn, Int.tmod_nonneg n, ?_⟩
  intro hx
  have hneg := Int.tmod_nonneg n (Int.neg_nonneg_of_nonpos hx)
  rw [Int.neg_tmod] at hneg
  omega

/-- Exact negation. -/
theorem toInt_neg (h : Fits (-a.toInt)) : (-a).toInt = -a.toInt := by
  rw [Int64.toInt_neg, bmod_eq h]

/-- Exact conversion. -/
theorem toInt_ofInt (h : Fits x) : (Int64.ofInt x).toInt = x := by
  rw [Int64.toInt_ofInt]
  exact bmod_eq h

/-- Shifting by three divides by eight. -/
theorem toInt_shiftRight_three (a : Int64) : (a >>> 3).toInt = a.toInt / 8 := by
  have hshift : (3 : Int64).toBitVec.smod 64 = 3 := rfl
  rw [← Int64.toInt_toBitVec, Int64.toBitVec_shiftRight, hshift, BitVec.sshiftRight',
    BitVec.toInt_sshiftRight, Int.shiftRight_eq_div_pow]
  rfl

end NimbleChain.Common.Exact
