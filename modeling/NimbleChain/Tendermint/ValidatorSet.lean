import NimbleChain.Common.Exact
import NimbleChain.Tendermint.Types

/-!
# Validator sets

Lookups, the total voting power and the overflow-safe arithmetic of `types/validator_set.go`. The
cached total is left out: it is recomputed whenever it is zero and is otherwise the sum of the
powers.
-/

namespace NimbleChain.Tendermint

open Common Int64 Exact

variable (a b : Int64)

/-! ### Safe arithmetic -/

/-- `safeAdd`; `none` for an overflow. -/
def safeAdd : Option Int64 :=
  if b > 0 ∧ a > maxValue - b then none
  else if b < 0 ∧ a < minValue - b then none
  else some (a + b)

/-- `safeSub`; `none` for an overflow. -/
def safeSub : Option Int64 :=
  if b > 0 ∧ a < minValue + b then none
  else if b < 0 ∧ a > maxValue + b then none
  else some (a - b)

/-- `safeAddClip`. -/
def safeAddClip : Int64 :=
  (safeAdd a b).getD (if b < 0 then minValue else maxValue)

/-- `safeSubClip`. -/
def safeSubClip : Int64 :=
  (safeSub a b).getD (if b > 0 then minValue else maxValue)

/-- `safeMul`; `none` for an overflow. -/
def safeMul : Option Int64 :=
  if a = 0 ∨ b = 0 then some 0
  else
    let absOfB := if b < 0 then -b else b
    let absOfA := if a < 0 then -a else a
    if absOfA > maxValue / absOfB then none else some (a * b)

theorem toInt_zero : (0 : Int64).toInt = 0 :=
  rfl

theorem toInt_maxValue : maxValue.toInt = 9223372036854775807 :=
  rfl

theorem toInt_minValue : minValue.toInt = -9223372036854775808 :=
  rfl

variable {b a : Int64} (vals : ValidatorSet)

/-- A sum that fits is not clipped. -/
theorem safeAdd_eq (h : Fits (a.toInt + b.toInt)) : safeAdd a b = some (a + b) := by
  have ha := fits_toInt a
  have hb := fits_toInt b
  unfold Fits at h ha hb
  unfold safeAdd
  rw [if_neg, if_neg]
  · rintro ⟨hneg, hlt⟩
    rw [lt_iff_toInt_lt, toInt_zero] at hneg
    rw [lt_iff_toInt_lt, toInt_sub (by rw [toInt_minValue]; unfold Fits; omega),
      toInt_minValue] at hlt
    omega
  · rintro ⟨hpos, hgt⟩
    rw [gt_iff_lt, lt_iff_toInt_lt, toInt_zero] at hpos
    rw [gt_iff_lt, lt_iff_toInt_lt,
      toInt_sub (by rw [toInt_maxValue]; unfold Fits; omega), toInt_maxValue] at hgt
    omega

theorem toInt_safeAddClip (h : Fits (a.toInt + b.toInt)) :
    (safeAddClip a b).toInt = a.toInt + b.toInt := by
  rw [safeAddClip, safeAdd_eq h, Option.getD_some, toInt_add h]

/-- A difference that fits is not clipped. -/
theorem safeSub_eq (h : Fits (a.toInt - b.toInt)) : safeSub a b = some (a - b) := by
  have ha := fits_toInt a
  have hb := fits_toInt b
  unfold Fits at h ha hb
  unfold safeSub
  rw [if_neg, if_neg]
  · rintro ⟨hneg, hgt⟩
    rw [lt_iff_toInt_lt, toInt_zero] at hneg
    rw [gt_iff_lt, lt_iff_toInt_lt,
      Exact.toInt_add (by rw [toInt_maxValue]; unfold Exact.Fits; omega), toInt_maxValue] at hgt
    omega
  · rintro ⟨hpos, hlt⟩
    rw [gt_iff_lt, lt_iff_toInt_lt, toInt_zero] at hpos
    rw [lt_iff_toInt_lt, Exact.toInt_add (by rw [toInt_minValue]; unfold Exact.Fits; omega),
      toInt_minValue] at hlt
    omega

theorem toInt_safeSubClip (h : Fits (a.toInt - b.toInt)) :
    (safeSubClip a b).toInt = a.toInt - b.toInt := by
  rw [safeSubClip, safeSub_eq h, Option.getD_some, toInt_sub h]

theorem toInt_maxValue_div {m : Int64} (hm : 0 < m.toInt) :
    (maxValue / m).toInt = 9223372036854775807 / m.toInt := by
  have hdiv : (9223372036854775807 : Int).tdiv m.toInt = 9223372036854775807 / m.toInt :=
    Int.tdiv_eq_ediv_of_nonneg (by decide)
  have hpos : 0 ≤ 9223372036854775807 / m.toInt := Int.ediv_nonneg (by decide) (by omega)
  have hle : 9223372036854775807 / m.toInt ≤ 9223372036854775807 := Int.ediv_le_self _ (by decide)
  rw [Exact.toInt_div, toInt_maxValue, hdiv]
  rw [toInt_maxValue, hdiv]
  unfold Fits
  omega

/-- The absolute value of a factor, which is not the least number. -/
theorem toInt_abs (hb : b ≠ minValue) : (if b < 0 then -b else b).toInt = b.toInt.natAbs := by
  have hfits := fits_toInt b
  have hmin : b.toInt ≠ -9223372036854775808 := by
    intro h
    exact hb (toInt_inj.mp (h.trans toInt_minValue.symm))
  unfold Fits at hfits
  split
  · rename_i hneg
    rw [lt_iff_toInt_lt, toInt_zero] at hneg
    rw [Exact.toInt_neg (by unfold Exact.Fits; omega)]
    omega
  · rename_i hneg
    rw [lt_iff_toInt_lt, toInt_zero] at hneg
    omega

/-- `safeMul` of a positive number is exact or overflows. -/
theorem safeMul_eq (ha : 0 < a.toInt) (hb : b ≠ 0) :
    safeMul a b =
      if a.toInt * b.toInt.natAbs ≤ 9223372036854775807 then some (a * b) else none := by
  have hane : a ≠ 0 := by
    rintro rfl
    exact Int.lt_irrefl 0 ha
  have haneg : ¬ a < 0 := by
    rw [lt_iff_toInt_lt, toInt_zero]
    omega
  simp only [safeMul, hane, hb, or_self, haneg, if_false]
  by_cases hmin : b = minValue
  · subst hmin
    have hover : a > maxValue / (if minValue < 0 then -minValue else minValue) := by
      have hzero : maxValue / (if minValue < 0 then -minValue else minValue) = 0 := by decide
      rw [hzero, gt_iff_lt, lt_iff_toInt_lt, toInt_zero]
      exact ha
    have habs : minValue.toInt.natAbs = 9223372036854775808 := rfl
    rw [if_pos hover, if_neg (by rw [habs]; omega)]
  · have hpos : 0 < (if b < 0 then -b else b).toInt := by
      rw [toInt_abs hmin]
      have hne : b.toInt ≠ 0 := fun h => hb (toInt_inj.mp (h.trans toInt_zero.symm))
      omega
    have hiff : a > maxValue / (if b < 0 then -b else b) ↔
        ¬ a.toInt * b.toInt.natAbs ≤ 9223372036854775807 := by
      rw [gt_iff_lt, lt_iff_toInt_lt, toInt_maxValue_div hpos, ← toInt_abs hmin,
        ← Int.le_ediv_iff_mul_le hpos]
      omega
    by_cases hle : a.toInt * b.toInt.natAbs ≤ 9223372036854775807
    · rw [if_neg (fun h => hiff.mp h hle), if_pos hle]
    · rw [if_pos (hiff.mpr hle), if_neg hle]

/-- `MaxTotalVotingPower`. -/
def maxTotalVotingPower : Int64 :=
  maxValue / 8

theorem toInt_maxTotalVotingPower : maxTotalVotingPower.toInt = 1152921504606846975 :=
  rfl

/-! ### Lookups -/

namespace ValidatorSet

/-- `ValidatorSet.Size`. -/
def size : Nat :=
  vals.validators.length

/-- `ValidatorSet.GetByIndex`, which reads the address of the validator. -/
def getByIndex (index : Int32) : Except Failure (Option Validator) :=
  if index < 0 ∨ index.toInt ≥ vals.size then .ok none
  else
    match vals.validators[index.toInt.toNat]? with
    | some (some val) => .ok (some val)
    | _ => .error .panic

/-- The loop of `updateTotalVotingPower`. -/
def sumPowers (sum : Int64) : List (Option Validator) → Except Failure Int64
  | [] => .ok sum
  | none :: _ => .error .panic
  | some val :: rest =>
    let sum := safeAddClip sum val.votingPower
    if sum > maxTotalVotingPower then .error .panic else sumPowers sum rest

/-- `ValidatorSet.TotalVotingPower`. -/
def totalVotingPower : Except Failure Int64 :=
  sumPowers 0 vals.validators

/-! ### Powers of sets of validators -/

/-- The voting power at an index. -/
def powerOf (val : Option Validator) : Nat :=
  val.elim 0 fun val => val.votingPower.toInt.toNat

/-- The voting power of the validator at an index; none outside of the set. -/
def power (i : Nat) : Nat :=
  vals.validators[i]?.elim 0 powerOf

/-- The indices of a set. -/
def indices : Finset Nat :=
  Finset.range vals.size

/-- The sum of all voting powers. -/
def total : Nat :=
  ∑ i ∈ vals.indices, vals.power i

variable {vals : ValidatorSet} {val : Validator}

theorem power_eq {i : Nat} (h : vals.validators[i]? = some (some val)) :
    vals.power i = val.votingPower.toInt.toNat := by
  rw [power, h]
  rfl

/-- The sum of the powers along a list. -/
def powers : List (Option Validator) → Nat
  | [] => 0
  | val :: rest => powerOf val + powers rest

theorem sum_range_elim (l : List (Option Validator)) :
    ∑ i ∈ Finset.range l.length, l[i]?.elim 0 powerOf = powers l := by
  induction l with
  | nil => rfl
  | cons x l ih =>
    rw [List.length_cons, Finset.sum_range_succ', powers, ← ih, Nat.add_comm]
    rfl

theorem total_eq_powers (vals : ValidatorSet) : vals.total = powers vals.validators :=
  sum_range_elim vals.validators

/-- What holds of the sets of `NewValidatorSet` and `ValidatorSetFromProto`: no entry is nil, no
power is negative, and the total is below the maximum. -/
structure Admissible (vals : ValidatorSet) : Prop where
  nonneg : ∀ entry ∈ vals.validators, ∃ val, entry = some val ∧ 0 ≤ val.votingPower.toInt
  total_le : (vals.total : Int) ≤ maxTotalVotingPower.toInt

namespace Admissible

variable {vals : ValidatorSet}

theorem sum_le_total {S : Finset Nat} (hS : S ⊆ vals.indices) :
    ∑ i ∈ S, vals.power i ≤ vals.total :=
  Finset.sum_le_sum_of_subset hS

theorem toInt_votingPower (hvals : vals.Admissible) {i : Nat} {val : Validator}
    (hval : vals.validators[i]? = some (some val)) : val.votingPower.toInt = vals.power i := by
  obtain ⟨_, hentry, hpos⟩ := hvals.nonneg _ (List.mem_of_getElem? hval)
  cases hentry
  rw [power_eq hval]
  omega

theorem exists_val (hvals : vals.Admissible) {i : Nat} (hi : i < vals.size) :
    ∃ val, vals.validators[i]? = some (some val) ∧ val.votingPower.toInt = vals.power i := by
  obtain ⟨val, hval, -⟩ := hvals.nonneg _ (List.getElem_mem hi)
  have hget : vals.validators[i]? = some (some val) := by
    rw [List.getElem?_eq_getElem hi, hval]
  exact ⟨val, hget, hvals.toInt_votingPower hget⟩

/-- The power of one more validator is added without overflow. -/
theorem toInt_add_power (hvals : vals.Admissible) {S : Finset Nat} {i : Nat} {sum power : Int64}
    (hsum : sum.toInt = ∑ j ∈ S, vals.power j) (hpower : power.toInt = vals.power i) (hi : i ∉ S)
    (hS : insert i S ⊆ vals.indices) :
    (sum + power).toInt = ∑ j ∈ insert i S, vals.power j := by
  have hle := sum_le_total hS
  have htotal := hvals.total_le
  rw [toInt_maxTotalVotingPower] at htotal
  rw [Finset.sum_insert hi] at hle ⊢
  rw [Exact.toInt_add, hsum, hpower]
  · omega
  · rw [hsum, hpower]
    unfold Fits
    omega

theorem sumPowers_eq (acc : Int64) {rest : List (Option Validator)}
    (hrest : ∀ entry ∈ rest, ∃ val, entry = some val ∧ 0 ≤ val.votingPower.toInt)
    (hacc : 0 ≤ acc.toInt)
    (hle : acc.toInt + powers rest ≤ maxTotalVotingPower.toInt) :
    ∃ sum, sumPowers acc rest = .ok sum ∧ sum.toInt = acc.toInt + powers rest := by
  induction rest generalizing acc with
  | nil => exact ⟨acc, rfl, (Int.add_zero _).symm⟩
  | cons entry rest ih =>
    obtain ⟨val, rfl, hpos⟩ := hrest entry (by simp)
    have hpower : (powerOf (some val) : Int) = val.votingPower.toInt := by
      simp only [powerOf, Option.elim]
      omega
    rw [powers, Int.natCast_add, hpower] at hle ⊢
    have hsum : (safeAddClip acc val.votingPower).toInt = acc.toInt + val.votingPower.toInt := by
      apply toInt_safeAddClip
      rw [toInt_maxTotalVotingPower] at hle
      unfold Fits
      omega
    have hsmall : ¬ safeAddClip acc val.votingPower > maxTotalVotingPower := by
      rw [gt_iff_lt, lt_iff_toInt_lt, hsum]
      omega
    obtain ⟨sum, heq, hvalue⟩ := ih (safeAddClip acc val.votingPower)
      (fun entry hentry => hrest entry (by simp [hentry])) (by omega) (by omega)
    refine ⟨sum, ?_, by omega⟩
    rw [sumPowers]
    simp only [hsmall, if_false]
    exact heq

/-- The total voting power is the sum of the powers. -/
theorem totalVotingPower_eq (hvals : vals.Admissible) :
    ∃ total, vals.totalVotingPower = .ok total ∧ total.toInt = vals.total := by
  have hle := hvals.total_le
  rw [total_eq_powers] at hle ⊢
  obtain ⟨total, htotal, hvalue⟩ := sumPowers_eq 0 hvals.nonneg (by decide)
    (by rw [toInt_zero]; omega)
  exact ⟨total, htotal, by rw [hvalue, toInt_zero]; omega⟩

/-- Two thirds of the total are computed without overflow. -/
theorem twoThirds_eq (hvals : vals.Admissible) :
    ∃ total, vals.totalVotingPower = .ok total ∧
      (total * 2 / 3).toInt = (vals.total * 2 / 3 : Nat) := by
  obtain ⟨total, htotal, hvalue⟩ := hvals.totalVotingPower_eq
  have hle := hvals.total_le
  rw [toInt_maxTotalVotingPower] at hle
  have htwo : (2 : Int64).toInt = 2 := rfl
  have hthree : (3 : Int64).toInt = 3 := rfl
  have hmul : (total * 2).toInt = vals.total * 2 := by
    rw [Exact.toInt_mul, hvalue, htwo]
    rw [hvalue, htwo]
    unfold Fits
    omega
  have htdiv : (total * 2).toInt.tdiv 3 = (vals.total * 2 / 3 : Nat) := by
    rw [hmul]
    exact Int.ofNat_tdiv (vals.total * 2) 3
  refine ⟨total, htotal, ?_⟩
  rw [Exact.toInt_div, hthree, htdiv]
  rw [hthree, htdiv]
  unfold Fits
  omega

end Admissible

theorem getByIndex_eq_some {index : Int32} (h : vals.getByIndex index = .ok (some val)) :
    0 ≤ index.toInt ∧ index.toInt.toNat < vals.size ∧
      vals.validators[index.toInt.toNat]? = some (some val) := by
  unfold getByIndex at h
  split at h
  · cases h
  · rename_i hrange
    rw [not_or, Int32.lt_iff_toInt_lt] at hrange
    have hzero : (0 : Int32).toInt = 0 := rfl
    split at h
    · rename_i found hfound
      obtain rfl : found = val := by simpa using h
      exact ⟨by omega, by omega, hfound⟩
    · cases h

end ValidatorSet

end NimbleChain.Tendermint
