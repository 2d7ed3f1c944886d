import NimbleChain.Common.ListSum
import NimbleChain.Common.Program
import NimbleChain.Tendermint.ValidatorSet

/-!
# Proposer priorities

How `types/validator_set.go` rotates the proposer. Each round every validator gains its voting
power and the one with the most priority loses the total. Before the rounds, and after each change
of the set, priorities are rescaled into a window of twice the total power and centred.
-/

namespace NimbleChain.Tendermint

open Common Int64 List Exact Validator

variable (v : Validator) (vals : List Validator) (diffMax : Int64)

/-- A `ValidatorSet` without nil entries, with its cached total. The proposer is a pointer to a
validator, kept as its address, which no operation changes. -/
structure CachedValidatorSet where
  validators : List Validator
  proposer : Option Bytes
  totalVotingPower : Int64
  deriving DecidableEq

/-- The methods of a validator set that write to it. -/
abbrev ValidatorProgram : Type → Type :=
  Program Failure CachedValidatorSet

namespace Validator

/-- `Validator.CompareProposerPriority` of two validators that are not nil: whether the second one
is taken. -/
def losesTo (v other : Validator) : Except Failure Bool :=
  if v.proposerPriority > other.proposerPriority then .ok false
  else if v.proposerPriority < other.proposerPriority then .ok true
  else if v.address < other.address then .ok false
  else if other.address < v.address then .ok true
  else .error .panic

/-- The priority as an integer. -/
def priority : Int :=
  v.proposerPriority.toInt

/-- The voting power as an integer. -/
def stake : Int :=
  v.votingPower.toInt

/-- A validator with another priority. -/
def withPriority (priority : Int64) : Validator :=
  { v with proposerPriority := priority }

end Validator

/-! ### Model -/

/-- The loop of `computeMaxMinPriorityDiff`. -/
def maxMinPriority (max min : Int64) : List Validator → Int64 × Int64
  | [] => (max, min)
  | v :: vals =>
    maxMinPriority (if v.proposerPriority > max then v.proposerPriority else max)
      (if v.proposerPriority < min then v.proposerPriority else min) vals

/-- `computeMaxMinPriorityDiff`. -/
def computeMaxMinPriorityDiff : Except Failure Int64 :=
  if vals = [] then .error .panic
  else
    let bounds := maxMinPriority Int64.minValue Int64.maxValue vals
    let diff := bounds.1 - bounds.2
    .ok (if diff < 0 then -1 * diff else diff)

/-- What `RescalePriorities` makes of the validators. -/
def rescaled (vals : List Validator) : Except Failure (List Validator) :=
  if vals = [] then .error .panic
  else if diffMax ≤ 0 then .ok vals
  else do
    let diff ← computeMaxMinPriorityDiff vals
    let ratio := (diff + diffMax - 1) / diffMax
    if diff > diffMax then
      -- a division by zero
      if ratio = 0 then .error .panic
      else .ok (vals.map fun val => val.withPriority (val.proposerPriority / ratio))
    else .ok vals

/-- `computeAvgProposerPriority` of a set that is not empty: the sum is exact, and the average is
rounded down. -/
def computeAvgProposerPriority : Except Failure Int64 :=
  let avg := sumOf priority vals / vals.length
  if Int64.minValue.toInt ≤ avg ∧ avg ≤ Int64.maxValue.toInt then .ok (Int64.ofInt avg)
  else .error .panic

/-- What `shiftByAvgProposerPriority` makes of the validators. -/
def shifted : Except Failure (List Validator) :=
  if vals = [] then .error .panic
  else do
    let avg ← computeAvgProposerPriority vals
    return vals.map fun val => val.withPriority (safeSubClip val.proposerPriority avg)

/-- The loop of `getValWithMostPriority`, which keeps the position of the result. -/
def mostPriority (res : Option (Nat × Validator)) (idx : Nat) :
    List Validator → Except Failure (Option (Nat × Validator))
  | [] => .ok res
  | val :: vals =>
    match res with
    | none => mostPriority (some (idx, val)) (idx + 1) vals
    | some best => do
      let loses ← best.2.losesTo val
      mostPriority (some (if loses then (idx, val) else best)) (idx + 1) vals

namespace CachedValidatorSet

/-- `ValidatorSet.updateTotalVotingPower`. -/
def updateTotalVotingPower : ValidatorProgram Unit := do
  let vals ← get
  let sum ← Program.lift (ValidatorSet.sumPowers 0 (vals.validators.map some))
  set { vals with totalVotingPower := sum }

/-- `ValidatorSet.TotalVotingPower`. -/
def getTotalVotingPower : ValidatorProgram Int64 := do
  let vals ← get
  if vals.totalVotingPower = 0 then do
    updateTotalVotingPower
    return (← get).totalVotingPower
  else return vals.totalVotingPower

/-- `ValidatorSet.RescalePriorities`. -/
def rescalePriorities : ValidatorProgram Unit := do
  let vals ← get
  let validators ← Program.lift (rescaled diffMax vals.validators)
  set { vals with validators := validators }

/-- `ValidatorSet.shiftByAvgProposerPriority`. -/
def shiftByAvgProposerPriority : ValidatorProgram Unit := do
  let vals ← get
  let validators ← Program.lift (shifted vals.validators)
  set { vals with validators := validators }

/-- `ValidatorSet.incrementProposerPriority`, which returns the new proposer. -/
def incrementProposerPriorityOnce : ValidatorProgram Bytes := do
  modify fun vals => { vals with
    validators := vals.validators.map fun val =>
      val.withPriority (safeAddClip val.proposerPriority val.votingPower) }
  let vals ← get
  match ← Program.lift (mostPriority none 0 vals.validators) with
  | none => throw .panic
  | some (idx, mostest) => do
    let total ← getTotalVotingPower
    modify fun vals => { vals with
      validators := vals.validators.set idx
        (mostest.withPriority (safeSubClip mostest.proposerPriority total)) }
    return mostest.address

/-- The rounds of `IncrementProposerPriority`. -/
def incrementRounds (proposer : Option Bytes) : Nat → ValidatorProgram (Option Bytes)
  | 0 => return proposer
  | times + 1 => do
    let proposer ← incrementProposerPriorityOnce
    incrementRounds (some proposer) times

/-- `PriorityWindowSizeFactor`. -/
def priorityWindowSizeFactor : Int64 :=
  2

/-- `ValidatorSet.IncrementProposerPriority`. -/
def incrementProposerPriority (times : Int32) : ValidatorProgram Unit := do
  let vals ← get
  if vals.validators = [] then throw .panic
  else if times ≤ 0 then throw .panic
  else do
    let total ← getTotalVotingPower
    rescalePriorities (priorityWindowSizeFactor * total)
    shiftByAvgProposerPriority
    let proposer ← incrementRounds none times.toInt.toNat
    modify fun vals => { vals with proposer := proposer }

end CachedValidatorSet

/-! ### Windows -/

/-- No two priorities differ by more than a bound. -/
def Spread (d : Int) (vals : List Validator) : Prop :=
  ∀ v ∈ vals, ∀ w ∈ vals, v.priority - w.priority ≤ d

instance (d : Int) (vals : List Validator) : Decidable (Spread d vals) :=
  inferInstanceAs (Decidable (∀ v ∈ vals, ∀ w ∈ vals, v.priority - w.priority ≤ d))

variable {d : Int} {diffMax : Int64} (max min : Int64) (vals : List Validator)

theorem Spread.map {vals : List Validator} {f : Validator → Int64}
    (h : ∀ v ∈ vals, ∀ w ∈ vals, (f v).toInt - (f w).toInt ≤ d) :
    Spread d (vals.map fun v => v.withPriority (f v)) :=
  forall_mem_map.mpr fun v hv => forall_mem_map.mpr fun w hw => h v hv w hw

/-- The second list has the validators of the first one with other priorities. -/
def Reprioritised (vals vals' : List Validator) : Prop :=
  ∃ priority : Validator → Int64, vals' = vals.map fun v => v.withPriority (priority v)

namespace Reprioritised

variable {vals vals' vals'' : List Validator}

theorem refl (vals : List Validator) : Reprioritised vals vals :=
  ⟨proposerPriority, (map_id vals).symm⟩

variable (h : Reprioritised vals vals')

include h

theorem trans (h' : Reprioritised vals' vals'') : Reprioritised vals vals'' := by
  obtain ⟨f, rfl⟩ := h
  obtain ⟨g, rfl⟩ := h'
  exact ⟨fun v => g (v.withPriority (f v)), map_map⟩

theorem map_eq {β : Type} (f : Validator → β)
    (hf : ∀ v priority, f (v.withPriority priority) = f v) : vals'.map f = vals.map f := by
  obtain ⟨g, rfl⟩ := h
  rw [map_map]
  exact map_congr_left fun v _ => hf v (g v)

theorem sumOf_eq (f : Validator → Int) (hf : ∀ v priority, f (v.withPriority priority) = f v) :
    sumOf f vals' = sumOf f vals := by
  obtain ⟨g, rfl⟩ := h
  rw [sumOf_map]
  exact sumOf_congr fun v _ => hf v (g v)

theorem ne_nil (hvals : vals ≠ []) : vals' ≠ [] := by
  obtain ⟨g, rfl⟩ := h
  simpa using hvals

end Reprioritised

/-- A choice between two numbers, repeated along a list, finds a bound that is attained. -/
theorem foldl_choice_spec (key : Int64 → Int) (choice : Int64 → Int64 → Int64)
    (hchoice : ∀ a b, (choice a b = a ∨ choice a b = b) ∧ key a ≤ key (choice a b) ∧
      key b ≤ key (choice a b)) (first : Int64) (vals : List Validator) :
    let best := vals.foldl (fun best v => choice best v.proposerPriority) first
    key first ≤ key best ∧ (∀ v ∈ vals, key v.proposerPriority ≤ key best) ∧
      (best = first ∨ ∃ v ∈ vals, v.proposerPriority = best) := by
  induction vals generalizing first with
  | nil => simp
  | cons v vals ih =>
    obtain ⟨heither, hfirst, hv⟩ := hchoice first v.proposerPriority
    obtain ⟨hle, hall, hattained⟩ := ih (choice first v.proposerPriority)
    refine ⟨hfirst.trans hle, forall_mem_cons.mpr ⟨hv.trans hle, hall⟩, ?_⟩
    rcases hattained with heq | ⟨w, hw, heq⟩
    · rcases heither with hsame | hnew
      · exact .inl (heq.trans hsame)
      · exact .inr ⟨v, by simp, (heq.trans hnew).symm⟩
    · exact .inr ⟨w, by simp [hw], heq⟩

/-- From an extreme number on, the bound is attained by an element of the list. -/
theorem exists_foldl_choice {key : Int64 → Int} {choice : Int64 → Int64 → Int64}
    (hchoice : ∀ a b, (choice a b = a ∨ choice a b = b) ∧ key a ≤ key (choice a b) ∧
      key b ≤ key (choice a b)) {first : Int64} (hfirst : ∀ a, key first ≤ key a)
    {vals : List Validator} (hvals : vals ≠ []) :
    let best := vals.foldl (fun best v => choice best v.proposerPriority) first
    ∃ v ∈ vals, key v.proposerPriority = key best ∧
      ∀ w ∈ vals, key w.proposerPriority ≤ key best := by
  obtain ⟨-, hall, heq | ⟨v, hv, heq⟩⟩ := foldl_choice_spec key choice hchoice first vals
  · obtain ⟨u, hu⟩ := exists_mem_of_ne_nil vals hvals
    exact ⟨u, hu, Int.le_antisymm (hall u hu) ((congrArg key heq).trans_le (hfirst _)), hall⟩
  · exact ⟨v, hv, congrArg key heq, hall⟩

theorem maxMinPriority_eq_foldl :
    maxMinPriority max min vals =
      (vals.foldl (fun m v => if v.proposerPriority > m then v.proposerPriority else m) max,
        vals.foldl (fun m v => if v.proposerPriority < m then v.proposerPriority else m) min) := by
  induction vals generalizing max min with
  | nil => rfl
  | cons v vals ih => exact ih _ _

variable {vals : List Validator}

/-- The largest difference of priorities, if it fits. -/
theorem computeMaxMinPriorityDiff_eq (hvals : vals ≠ []) (hspread : Spread d vals)
    (hd : d ≤ maxValue.toInt) :
    ∃ diff, computeMaxMinPriorityDiff vals = .ok diff ∧ Spread diff.toInt vals ∧
      0 ≤ diff.toInt ∧ diff.toInt ≤ d := by
  obtain ⟨v, hv, hveq, hmax⟩ := @exists_foldl_choice toInt (fun m p => if p > m then p else m)
    (fun a b => by split <;> simp_all [lt_iff_toInt_lt, Int.le_of_lt]) minValue
    (fun a => by have := fits_toInt a; rw [toInt_minValue]; exact this.1) _ hvals
  obtain ⟨w, hw, hweq, hmin⟩ := @exists_foldl_choice (-·.toInt)
    (fun m p => if p < m then p else m)
    (fun a b => by split <;> simp_all [lt_iff_toInt_lt, Int.le_of_lt]) maxValue
    (fun a => by have := fits_toInt a; rw [toInt_maxValue]; exact Int.neg_le_neg this.2) _ hvals
  rw [computeMaxMinPriorityDiff, if_neg hvals, maxMinPriority_eq_foldl]
  dsimp only at *
  generalize foldl _ minValue vals = max at *
  generalize foldl _ maxValue vals = min at *
  unfold Spread priority at *
  have hle := hspread v hv w hw
  have hpos := hmax w hw
  rw [toInt_maxValue] at hd
  have hdiff : (max - min).toInt = max.toInt - min.toInt := toInt_sub (by unfold Fits; omega)
  have hnonneg : ¬ max - min < 0 := by
    rw [lt_iff_toInt_lt, hdiff, toInt_zero]
    omega
  refine ⟨max - min, by simp only [hnonneg, if_false], ?_, by omega, by omega⟩
  intro x hx y hy
  have := hmax x hx
  have := hmin y hy
  omega

/-- The divisor that `RescalePriorities` takes is the rounded up quotient. -/
theorem ratio_spec {diff : Int64} (hpos : 0 < diffMax.toInt) (hgt : diffMax.toInt < diff.toInt)
    (hfits : diff.toInt + diffMax.toInt - 1 ≤ maxValue.toInt) :
    0 < ((diff + diffMax - 1) / diffMax).toInt ∧
      diff.toInt ≤ ((diff + diffMax - 1) / diffMax).toInt * diffMax.toInt := by
  rw [toInt_maxValue] at hfits
  have hsum : (diff + diffMax - 1).toInt = diff.toInt + diffMax.toInt - 1 := by
    have hone : (1 : Int64).toInt = 1 := rfl
    -- the sum may wrap around, but subtracting one wraps it back
    rw [Int64.toInt_sub, Int64.toInt_add, hone, Int.bmod_sub_bmod]
    exact bmod_eq (by unfold Fits; omega)
  rw [toInt_div_of_pos hpos, hsum, Int.tdiv_eq_ediv_of_nonneg (by omega)]
  constructor
  · have hone : 1 ≤ (diff.toInt + diffMax.toInt - 1) / diffMax.toInt :=
      (Int.le_ediv_iff_mul_le hpos).mpr (by omega)
    omega
  · exact le_ceil_mul hpos

/-- Rescaling brings the priorities into the window. -/
theorem rescaled_eq (hvals : vals ≠ []) (hpos : 0 < diffMax.toInt) (hspread : Spread d vals)
    (hd : d + diffMax.toInt - 1 ≤ maxValue.toInt) :
    ∃ vals', rescaled diffMax vals = .ok vals' ∧ Reprioritised vals vals' ∧
      Spread diffMax.toInt vals' := by
  obtain ⟨diff, hdiff, hspread', -, hle⟩ :=
    computeMaxMinPriorityDiff_eq hvals hspread (by omega)
  have hpos' : ¬ diffMax ≤ 0 := by
    rw [le_iff_toInt_le, toInt_zero]
    omega
  rw [rescaled, if_neg hvals, if_neg hpos', hdiff]
  change ∃ vals', (if diff > diffMax then _ else _) = _ ∧ _
  by_cases hgt : diff > diffMax
  · have hlt := lt_iff_toInt_lt.mp hgt
    obtain ⟨hratio, hceil⟩ := ratio_spec hpos hlt (by omega)
    generalize (diff + diffMax - 1) / diffMax = ratio at *
    have hne : ratio ≠ 0 := by
      rintro rfl
      exact Int.lt_irrefl 0 hratio
    rw [if_pos hgt, if_neg hne]
    refine ⟨_, rfl, ⟨fun val => val.proposerPriority / ratio, rfl⟩, ?_⟩
    apply Spread.map
    intro v hv w hw
    have hvw := hspread' v hv w hw
    rw [toInt_div_of_pos hratio, toInt_div_of_pos hratio]
    exact tdiv_sub_tdiv_le hratio (Int.le_of_lt hpos) (Int.le_trans hvw hceil)
  · rw [if_neg hgt]
    rw [gt_iff_lt, lt_iff_toInt_lt] at hgt
    refine ⟨vals, rfl, .refl vals, ?_⟩
    intro v hv w hw
    have := hspread' v hv w hw
    omega

/-- The average is computed, and no priority is further from it than from the others. -/
theorem computeAvgProposerPriority_eq (hvals : vals ≠ []) (hspread : Spread d vals) :
    ∃ avg, computeAvgProposerPriority vals = .ok avg ∧
      avg.toInt = sumOf priority vals / vals.length ∧
      ∀ v ∈ vals, avg.toInt - d ≤ v.priority ∧ v.priority ≤ avg.toInt + d := by
  have hrange := average_mem hvals (f := priority) _ _ (fun v _ => fits_toInt v.proposerPriority)
  have havg : (ofInt (sumOf priority vals / vals.length)).toInt =
      sumOf priority vals / vals.length :=
    toInt_ofInt hrange
  refine ⟨_, if_pos hrange, havg, ?_⟩
  intro v hv
  have hmem := average_mem hvals (f := priority) (v.priority - d) (v.priority + d)
    fun w hw => ⟨by have := hspread v hv w hw; omega, by have := hspread w hw v hv; omega⟩
  omega

/-- Shifting centres the priorities and keeps their differences. -/
theorem shifted_eq (hvals : vals ≠ []) (hspread : Spread d vals) (hd : d ≤ maxValue.toInt) :
    ∃ vals', shifted vals = .ok vals' ∧ Reprioritised vals vals' ∧ Spread d vals' ∧
      (∀ v ∈ vals', -d ≤ v.priority ∧ v.priority ≤ d) ∧
      0 ≤ sumOf priority vals' ∧ sumOf priority vals' < vals'.length := by
  obtain ⟨avg, havg, heq, hnear⟩ := computeAvgProposerPriority_eq hvals hspread
  rw [toInt_maxValue] at hd
  have hshift : ∀ v ∈ vals, (safeSubClip v.proposerPriority avg).toInt =
      v.priority - avg.toInt := by
    intro v hv
    have := hnear v hv
    exact toInt_safeSubClip (by change Fits (v.priority - avg.toInt); unfold Fits; omega)
  rw [shifted, if_neg hvals, havg]
  refine ⟨_, rfl, ⟨fun val => safeSubClip val.proposerPriority avg, rfl⟩, ?_, ?_, ?_⟩
  · apply Spread.map
    intro v hv w hw
    rw [hshift v hv, hshift w hw]
    have := hspread v hv w hw
    omega
  · refine forall_mem_map.mpr ?_
    intro v hv
    change -d ≤ (safeSubClip v.proposerPriority avg).toInt ∧
      (safeSubClip v.proposerPriority avg).toInt ≤ d
    rw [hshift v hv]
    have := hnear v hv
    omega
  · have hsum : sumOf priority
        (vals.map fun val => val.withPriority (safeSubClip val.proposerPriority avg)) =
        sumOf (fun v => v.priority - avg.toInt) vals :=
      (sumOf_map _ vals).trans (sumOf_congr hshift)
    rw [hsum, length_map, heq]
    exact sumOf_sub_average hvals

end NimbleChain.Tendermint
