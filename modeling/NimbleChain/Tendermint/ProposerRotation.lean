import NimbleChain.Tendermint.UpdateExactness

/-!
# The proposer of a round

`enterNewRound` of `consensus/state.go` rotates the proposer as many times as rounds were passed,
with one call of `IncrementProposerPriority`, which rescales and centres the priorities before its
rounds. As long as the priorities are within the window when a call is made, it makes no difference
how the rounds are split into calls.
-/

namespace NimbleChain.Tendermint

open Common Program List Except Exact Int32 Validator

variable {s : CachedValidatorSet}

namespace CachedValidatorSet

/-! ### Model -/

/-- `ValidatorSet.CopyIncrementProposerPriority`. -/
def copyIncrementProposerPriority (times : Int32) (vals : CachedValidatorSet) :
    Except Failure CachedValidatorSet :=
  match (incrementProposerPriority times).exec vals with
  | (.ok _, copy) => .ok copy
  | (.error failure, _) => .error failure

end CachedValidatorSet

/-- `SafeSubInt32`. -/
def safeSubInt32 (a b : Int32) : Except Failure Int32 :=
  if b > 0 ∧ a < minValue + b then .error .panic
  else if b < 0 ∧ a > maxValue + b then .error .panic
  else .ok (a - b)

/-- The round of a `State` and its validators, whose proposer is that of the round. -/
structure RoundValidators where
  round : Int32
  validators : CachedValidatorSet
  deriving DecidableEq

namespace RoundValidators

/-- The validators in `enterNewRound`. A round that is not ahead changes nothing. -/
def enterNewRound (cs : RoundValidators) (round : Int32) : Except Failure RoundValidators :=
  if cs.round < round then do
    let times ← safeSubInt32 round cs.round
    let validators ← cs.validators.copyIncrementProposerPriority times
    return ⟨round, validators⟩
  else return cs

/-- The rounds that a node enters at one height. -/
def enterRounds : RoundValidators → List Int32 → Except Failure RoundValidators
  | cs, [] => .ok cs
  | cs, round :: rounds => do
    let cs ← cs.enterNewRound round
    cs.enterRounds rounds

end RoundValidators

open RoundValidators

/-! ### Rounds of a set with a known total -/

namespace CachedValidatorSet

/-- The validators with their power added. -/
def added (vals : List Validator) : List Validator :=
  vals.map fun val => val.withPriority (safeAddClip val.proposerPriority val.votingPower)

/-- One round of a set with a total: the proposer, and the validators afterwards. -/
def rotate (total : Int64) (vals : List Validator) : Except Failure (Bytes × List Validator) := do
  match ← mostPriority none 0 (added vals) with
  | none => .error .panic
  | some (idx, mostest) =>
    return (mostest.address, (added vals).set idx
      (mostest.withPriority (safeSubClip mostest.proposerPriority total)))

/-- Several rounds. -/
def rotateTimes (total : Int64) :
    Nat → Option Bytes × List Validator → Except Failure (Option Bytes × List Validator)
  | 0, s => .ok s
  | times + 1, (_, vals) => do
    let (proposer, vals) ← rotate total vals
    rotateTimes total times (some proposer, vals)

/-- Rescaling and centring. -/
def normalised (total : Int64) (vals : List Validator) : Except Failure (List Validator) := do
  shifted (← rescaled (priorityWindowSizeFactor * total) vals)

/-- Validators with distinct addresses and positive powers, whose total is known. -/
structure Sound (total : Int64) (vals : List Validator) : Prop where
  ne_nil : vals ≠ []
  nodup : (vals.map address).Nodup
  positive : ∀ v ∈ vals, 0 < v.stake
  total_eq : total.toInt = totalStake vals
  total_le : totalStake vals ≤ maxTotalVotingPower.toInt

variable {total : Int64} {vals vals' : List Validator}

section

variable (h : Sound total vals)

include h

theorem Sound.reprioritised (hsame : Reprioritised vals vals') : Sound total vals' := by
  have hstake : totalStake vals' = totalStake vals := hsame.sumOf_eq stake fun _ _ => rfl
  refine ⟨hsame.ne_nil h.ne_nil, ?_, ?_, hstake ▸ h.total_eq, hstake ▸ h.total_le⟩
  · rw [hsame.map_eq address fun _ _ => rfl]
    exact h.nodup
  · obtain ⟨f, rfl⟩ := hsame
    intro v hv
    obtain ⟨w, hw, rfl⟩ := mem_map.mp hv
    exact h.positive w hw

theorem Sound.added : Sound total (added vals) :=
  h.reprioritised ⟨_, rfl⟩

theorem Sound.total_pos : 0 < totalStake vals :=
  totalStake_pos h.positive h.ne_nil

theorem Sound.total_bound : totalStake vals ≤ 1152921504606846975 :=
  h.total_le

theorem Sound.stake_bounds :
    ∀ v ∈ vals, 0 < v.stake ∧ v.stake ≤ totalStake vals := fun v hv =>
  ⟨h.positive v hv, le_sumOf (fun w hw => Int.le_of_lt (h.positive w hw)) hv⟩

end

variable {chosen : Bytes} {s : CachedValidatorSet} {d : Int} {limit : Int32} {v : Validator}
  {idx : Nat} {proposer last : Option Bytes}

/-- A validator with less or equal priority and another address loses or wins. -/
theorem losesTo_cases {w : Validator} (hne : v.address ≠ w.address) :
    (v.losesTo w = .ok true ∧ v.priority ≤ w.priority) ∨
      (v.losesTo w = .ok false ∧ w.priority ≤ v.priority) := by
  unfold losesTo priority
  by_cases hgt : v.proposerPriority > w.proposerPriority
  · right
    rw [if_pos hgt]
    exact ⟨rfl, Int.le_of_lt (Int64.lt_iff_toInt_lt.mp hgt)⟩
  · have hle := Int64.le_iff_toInt_le.mp (Int64.not_lt.mp hgt)
    rw [if_neg hgt]
    by_cases hlt : v.proposerPriority < w.proposerPriority
    · left
      rw [if_pos hlt]
      exact ⟨rfl, hle⟩
    · have hge := Int64.le_iff_toInt_le.mp (Int64.not_lt.mp hlt)
      rw [if_neg hlt]
      by_cases haddress : v.address < w.address
      · right
        rw [if_pos haddress]
        exact ⟨rfl, hge⟩
      · left
        have hother : w.address < v.address :=
          bytes_lt_of_le_of_ne (List.not_lt.mp haddress) (Ne.symm hne)
        rw [if_neg haddress, if_pos hother]
        exact ⟨rfl, hle⟩

/-- The loop goes on with the better one of the validator so far and the next. -/
theorem mostPriority_loop {best : Nat × Validator} {front : List Validator}
    (hbest : front[best.1]? = some best.2)
    (hmax : ∀ v ∈ front, v.priority ≤ best.2.priority)
    (hnodup : ((front ++ vals).map address).Nodup) :
    ∃ found : Nat × Validator, mostPriority (some best) front.length vals = .ok (some found) ∧
      (front ++ vals)[found.1]? = some found.2 ∧
      ∀ v ∈ front ++ vals, v.priority ≤ found.2.priority := by
  induction vals generalizing best front with
  | nil =>
    rw [append_nil]
    exact ⟨best, rfl, hbest, hmax⟩
  | cons val vals ih =>
    have hmem : best.2 ∈ front := mem_of_getElem? hbest
    have hne : best.2.address ≠ val.address := by
      rw [map_append, map_cons] at hnodup
      exact (nodup_append.mp hnodup).2.2 _ (mem_map_of_mem hmem) _ (mem_cons_self ..)
    have hshift : front ++ val :: vals = (front ++ [val]) ++ vals := by simp
    have hlength : front.length + 1 = (front ++ [val]).length := by simp
    rw [mostPriority, hlength, hshift]
    rw [hshift] at hnodup
    rcases losesTo_cases hne with ⟨hloses, hle⟩ | ⟨hloses, hle⟩
    · simp only [hloses, bind, Except.bind, if_true]
      refine ih ?_ ?_ hnodup
      · simp
      · intro v hv
        rcases mem_append.mp hv with hfront | hlast
        · exact Int.le_trans (hmax v hfront) hle
        · exact mem_singleton.mp hlast ▸ Int.le_refl _
    · simp only [hloses, bind, Except.bind, Bool.false_eq_true, if_false]
      refine ih ?_ ?_ hnodup
      · rw [List.getElem?_append_left (List.getElem_of_getElem? hbest).1]
        exact hbest
      · intro v hv
        rcases mem_append.mp hv with hfront | hlast
        · exact hmax v hfront
        · exact mem_singleton.mp hlast ▸ hle

/-- Among validators with distinct addresses, one with the most priority is found. -/
theorem mostPriority_spec (hne : vals ≠ []) (hnodup : (vals.map address).Nodup) :
    ∃ (idx : Nat) (mostest : Validator), mostPriority none 0 vals = .ok (some (idx, mostest)) ∧
      vals[idx]? = some mostest ∧ ∀ v ∈ vals, v.priority ≤ mostest.priority := by
  obtain ⟨val, rest, rfl⟩ := exists_cons_of_ne_nil hne
  obtain ⟨⟨idx, mostest⟩, hfound, hget, hmax⟩ :=
    @mostPriority_loop rest (0, val) [val] rfl (by simp) hnodup
  exact ⟨idx, mostest, hfound, hget, hmax⟩

section

variable (h : Sound total vals)

include h

/-- What a round does. -/
theorem rotate_eq :
    ∃ (idx : Nat) (mostest : Validator), (added vals)[idx]? = some mostest ∧
      (∀ v ∈ added vals, v.priority ≤ mostest.priority) ∧
      rotate total vals = .ok (mostest.address, (added vals).set idx
        (mostest.withPriority (safeSubClip mostest.proposerPriority total))) := by
  obtain ⟨idx, mostest, hfound, hget, hmax⟩ := mostPriority_spec h.added.ne_nil h.added.nodup
  refine ⟨idx, mostest, hget, hmax, ?_⟩
  rw [rotate, hfound]
  rfl

/-- Another priority in one place. -/
theorem Sound.set (hget : vals[idx]? = some v) (priority : Int64) :
    Sound total (vals.set idx (v.withPriority priority)) := by
  obtain ⟨hlt, -⟩ := List.getElem_of_getElem? hget
  refine h.reprioritised
    ⟨fun w => if w.address = v.address then priority else w.proposerPriority, ext_getElem? ?_⟩
  intro j
  rw [getElem?_set, getElem?_map]
  split
  · rename_i heq
    simp [← heq, hget]
  · rename_i hother
    cases hw : vals[j]? with
    | none => rfl
    | some w =>
      have hne : w.address ≠ v.address := by
        intro hsame
        refine hother ((getElem?_inj (by rwa [length_map]) h.nodup).mp ?_)
        rw [getElem?_map, getElem?_map, hget, hw, Option.map_some, Option.map_some, hsame]
      simp [hne, withPriority]

theorem Sound.rotate (hrotate : rotate total vals = .ok (chosen, vals')) : Sound total vals' := by
  obtain ⟨idx, mostest, hget, -, heq⟩ := rotate_eq h
  obtain ⟨-, rfl⟩ := Prod.mk.inj (ok.inj (hrotate.symm.trans heq))
  exact h.added.set hget _

/-- The total is that of the powers, and is cached. -/
theorem getTotalVotingPower_exec {proposer : Option Bytes} {cached : Int64}
    (hcached : cached = 0 ∨ cached = total) :
    getTotalVotingPower.exec ⟨vals, proposer, cached⟩ = (.ok total, ⟨vals, proposer, total⟩) := by
  have hwp : getTotalVotingPower.wp (fun r s => r = total ∧ s = ⟨vals, proposer, total⟩)
      never ⟨vals, proposer, cached⟩ := by
    simp only [getTotalVotingPower, wp_bind, wp_get, wp_ite, wp_pure]
    constructor
    · intro _
      apply updateTotalVotingPower_wp (fun v hv => Int.le_of_lt (h.positive v hv)) h.total_le
      intro sum hsum
      obtain rfl : sum = total := Int64.toInt_inj.mp (hsum.trans h.total_eq.symm)
      exact ⟨rfl, rfl⟩
    · intro hne
      obtain rfl := hcached.resolve_left hne
      exact ⟨rfl, rfl⟩
  obtain ⟨r, s, hexec, rfl, rfl⟩ := exists_of_wp hwp
  exact hexec

/-- What a round of the set is. -/
theorem incrementProposerPriorityOnce_exec (hrotate : rotate total vals = .ok (chosen, vals')) :
    incrementProposerPriorityOnce.exec ⟨vals, proposer, total⟩ =
      (.ok chosen, ⟨vals', proposer, total⟩) := by
  obtain ⟨found, hmost, hrest⟩ := bind_eq_ok.mp hrotate
  cases found with
  | none => cases hrest
  | some found =>
    obtain ⟨idx, mostest⟩ := found
    cases hrest
    have htotal := @getTotalVotingPower_exec _ _ h.added proposer total (.inr rfl)
    refine exec_bind_eq_ok.mpr ⟨(), _, rfl, exec_bind_eq_ok.mpr ⟨_, _, rfl, ?_⟩⟩
    refine exec_bind_eq_ok.mpr ⟨_, _, exec_lift_ok hmost, ?_⟩
    exact exec_bind_eq_ok.mpr ⟨_, _, htotal, rfl⟩

/-- What several rounds of the set are. -/
theorem incrementRounds_exec {times : Nat} {start : Option Bytes}
    (hrotate : rotateTimes total times (start, vals) = .ok (last, vals')) :
    (incrementRounds start times).exec ⟨vals, proposer, total⟩ =
      (.ok last, ⟨vals', proposer, total⟩) := by
  induction times generalizing start vals with
  | zero =>
    cases hrotate
    rfl
  | succ times ih =>
    obtain ⟨⟨chosen, next⟩, hnext, hrest⟩ := bind_eq_ok.mp hrotate
    have hsound := h.rotate hnext
    exact exec_bind_eq_ok.mpr ⟨_, _, incrementProposerPriorityOnce_exec h hnext, ih hsound hrest⟩

end

/-- What `IncrementProposerPriority` makes of the set. -/
theorem copyIncrementProposerPriority_eq {times : Int32} (h : Sound total s.validators)
    (hcached : s.totalVotingPower = 0 ∨ s.totalVotingPower = total) (htimes : 0 < times)
    (hnormalised : normalised total s.validators = .ok vals)
    (hsame : Reprioritised s.validators vals)
    (hrotate : rotateTimes total times.toInt.toNat (none, vals) = .ok (last, vals')) :
    s.copyIncrementProposerPriority times = .ok ⟨vals', last, total⟩ := by
  obtain ⟨rescaledVals, hrescaled, hshifted⟩ := bind_eq_ok.mp hnormalised
  have hexec : (incrementProposerPriority times).exec s = (.ok (), ⟨vals', last, total⟩) := by
    refine exec_bind_eq_ok.mpr ⟨s, s, rfl, ?_⟩
    rw [if_neg h.ne_nil, if_neg (Int32.not_le.mpr htimes)]
    refine exec_bind_eq_ok.mpr ⟨_, _, getTotalVotingPower_exec h hcached, ?_⟩
    have hrescale : (rescalePriorities (priorityWindowSizeFactor * total)).exec
        ⟨s.validators, s.proposer, total⟩ = (.ok (), ⟨rescaledVals, s.proposer, total⟩) :=
      exec_bind_eq_ok.mpr ⟨_, _, rfl, exec_bind_eq_ok.mpr ⟨_, _, exec_lift_ok hrescaled, rfl⟩⟩
    have hshift : shiftByAvgProposerPriority.exec ⟨rescaledVals, s.proposer, total⟩ =
        (.ok (), ⟨vals, s.proposer, total⟩) :=
      exec_bind_eq_ok.mpr ⟨_, _, rfl, exec_bind_eq_ok.mpr ⟨_, _, exec_lift_ok hshifted, rfl⟩⟩
    refine exec_bind_eq_ok.mpr ⟨_, _, hrescale, exec_bind_eq_ok.mpr ⟨_, _, hshift, ?_⟩⟩
    exact exec_bind_eq_ok.mpr ⟨_, _, incrementRounds_exec (h.reprioritised hsame) hrotate, rfl⟩
  rw [copyIncrementProposerPriority, hexec]

/-! ### Windows -/

/-- The priorities are centred, and no two differ by more than twice the total power. -/
structure InWindow (vals : List Validator) : Prop where
  spread : Spread (2 * totalStake vals) vals
  centred : 0 ≤ sumOf priority vals ∧ sumOf priority vals < vals.length

instance (vals : List Validator) : Decidable (InWindow vals) :=
  decidable_of_iff (Spread (2 * totalStake vals) vals ∧ 0 ≤ sumOf priority vals ∧
    sumOf priority vals < vals.length) ⟨fun h => ⟨h.1, h.2⟩, fun h => ⟨h.1, h.2⟩⟩

theorem Sound.toInt_window (h : Sound total vals) :
    (priorityWindowSizeFactor * total).toInt = 2 * totalStake vals := by
  have htwo : priorityWindowSizeFactor.toInt = 2 := rfl
  have hpos := h.total_pos
  have hle := h.total_bound
  rw [Exact.toInt_mul, htwo, h.total_eq]
  rw [htwo, h.total_eq]
  unfold Fits
  omega

section Centred

variable
  (hcentred : 0 ≤ sumOf priority vals ∧ sumOf priority vals < vals.length)
include hcentred

/-- The average of centred priorities is zero. -/
theorem average_eq_zero : sumOf priority vals / vals.length = 0 :=
  Int.ediv_eq_zero_of_lt hcentred.1 hcentred.2

/-- Centred priorities are no further from zero than from each other. -/
theorem bounded_of_centred (hne : vals ≠ []) (hspread : Spread d vals) :
    ∀ v ∈ vals, -d ≤ v.priority ∧ v.priority ≤ d := by
  obtain ⟨avg, -, havg, hnear⟩ := computeAvgProposerPriority_eq hne hspread
  rw [average_eq_zero hcentred] at havg
  intro v hv
  have := hnear v hv
  omega

/-- If centred priorities are too far apart, then so are two of them with opposite signs. -/
theorem exists_apart
    (hout : ¬ Spread d vals) :
    ∃ (j k : Nat) (v w : Validator), vals[j]? = some v ∧ vals[k]? = some w ∧
      0 ≤ v.priority ∧ w.priority ≤ 0 ∧ d < v.priority - w.priority := by
  -- the priorities are neither all negative nor all positive
  obtain ⟨top, htop, htop'⟩ : ∃ v ∈ vals, 0 ≤ v.priority := by
    by_contra hall
    have hbelow : sumOf priority vals ≤ sumOf (fun _ => -1) vals := by
      apply sumOf_le
      intro u hu
      by_contra hlt
      exact hall ⟨u, hu, by omega⟩
    rw [sumOf_const] at hbelow
    omega
  obtain ⟨bottom, hbottom, hbottom'⟩ : ∃ v ∈ vals, v.priority ≤ 0 := by
    by_contra hall
    have habove : sumOf (fun _ => 1) vals ≤ sumOf priority vals := by
      apply sumOf_le
      intro u hu
      by_contra hlt
      exact hall ⟨u, hu, by omega⟩
    rw [sumOf_const] at habove
    omega
  simp only [Spread, not_forall] at hout
  obtain ⟨v, hv, w, hw, hfar⟩ := hout
  obtain ⟨v', hv', hvpos, hvle⟩ : ∃ v' ∈ vals, 0 ≤ v'.priority ∧ v.priority ≤ v'.priority := by
    by_cases hpos : 0 ≤ v.priority
    · exact ⟨v, hv, hpos, Int.le_refl _⟩
    · exact ⟨top, htop, htop', by omega⟩
  obtain ⟨w', hw', hwneg, hwle⟩ : ∃ w' ∈ vals, w'.priority ≤ 0 ∧ w'.priority ≤ w.priority := by
    by_cases hneg : w.priority ≤ 0
    · exact ⟨w, hw, hneg, Int.le_refl _⟩
    · exact ⟨bottom, hbottom, hbottom', by omega⟩
  obtain ⟨j, hj⟩ := getElem?_of_mem hv'
  obtain ⟨k, hk⟩ := getElem?_of_mem hw'
  exact ⟨j, k, v', w', hj, hk, hvpos, hwneg, by omega⟩

end Centred

theorem InWindow.bounded (hwindow : InWindow vals) (hne : vals ≠ []) :
    ∀ v ∈ vals, -(3 * totalStake vals) ≤ v.priority ∧ v.priority ≤ 3 * totalStake vals := by
  intro v hv
  have := bounded_of_centred hwindow.centred hne hwindow.spread v hv
  omega

/-- Priorities in the window are not changed before the rounds. -/
theorem normalised_of_inWindow (h : Sound total vals) (hwindow : InWindow vals) :
    normalised total vals = .ok vals := by
  have hle := h.total_bound
  have hfactor := h.toInt_window
  have hrescaled : rescaled (priorityWindowSizeFactor * total) vals = .ok vals := by
    obtain ⟨diff, hdiff, -, -, hsmall⟩ :=
      computeMaxMinPriorityDiff_eq h.ne_nil hwindow.spread (by rw [toInt_maxValue]; omega)
    have hgt : ¬ diff > priorityWindowSizeFactor * total := by
      rw [gt_iff_lt, Int64.lt_iff_toInt_lt, hfactor]
      omega
    rw [rescaled, if_neg h.ne_nil, hdiff]
    simp only [bind, Except.bind, if_neg hgt, ite_self]
  have hshifted : shifted vals = .ok vals := by
    obtain ⟨avg, havg, hzero, -⟩ := computeAvgProposerPriority_eq h.ne_nil hwindow.spread
    rw [average_eq_zero hwindow.centred] at hzero
    obtain rfl : avg = 0 := Int64.toInt_inj.mp hzero
    have hsame : ∀ val : Validator,
        val.withPriority (safeSubClip val.proposerPriority 0) = val := by
      intro val
      have hclip : safeSubClip val.proposerPriority 0 = val.proposerPriority := by
        apply Int64.toInt_inj.mp
        rw [toInt_safeSubClip, toInt_zero, Int.sub_zero]
        rw [toInt_zero, Int.sub_zero]
        exact fits_toInt _
      rw [hclip]
      rfl
    rw [shifted, if_neg h.ne_nil, havg]
    simp only [bind, Except.bind, pure, Except.pure, hsame, map_id']
  rw [normalised, hrescaled]
  exact hshifted

/-- What a round does to priorities that are far from the ends of the range. -/
structure Round (vals : List Validator) (idx : Nat) (vals' : List Validator) : Prop where
  proposer : ∃ mostest, vals[idx]? = some mostest ∧
    ∀ v ∈ vals, v.priority + v.stake ≤ mostest.priority + mostest.stake
  priorities : ∀ (j : Nat) (v : Validator), vals[j]? = some v → ∃ v', vals'[j]? = some v' ∧
    v'.priority = v.priority + v.stake - if j = idx then totalStake vals else 0
  length : vals'.length = vals.length
  sum : sumOf priority vals' = sumOf priority vals
  stake : totalStake vals' = totalStake vals

theorem rotate_exact (h : Sound total vals)
    (hbound : ∀ v ∈ vals, -(3 * totalStake vals) ≤ v.priority ∧ v.priority ≤ 3 * totalStake vals) :
    ∃ chosen vals' idx, rotate total vals = .ok (chosen, vals') ∧ Round vals idx vals' := by
  have hle := h.total_bound
  have hstake := h.stake_bounds
  have hadd : ∀ v ∈ vals, (safeAddClip v.proposerPriority v.votingPower).toInt =
      v.priority + v.stake := by
    intro v hv
    have := hbound v hv
    have := hstake v hv
    exact toInt_safeAddClip (by
      change Fits (v.priority + v.stake)
      unfold Fits
      omega)
  obtain ⟨idx, mostest, hget, hmax, heq⟩ := rotate_eq h
  obtain ⟨before, hbefore, hafter⟩ := Option.map_eq_some_iff.mp (getElem?_map.symm.trans hget)
  have hmem := mem_of_getElem? hbefore
  have hold : mostest.proposerPriority.toInt = before.priority + before.stake :=
    hafter ▸ hadd before hmem
  have hnew : (safeSubClip mostest.proposerPriority total).toInt =
      before.priority + before.stake - totalStake vals := by
    have := hbound before hmem
    have := hstake before hmem
    rw [toInt_safeSubClip, hold, h.total_eq]
    rw [hold, h.total_eq]
    unfold Fits
    omega
  refine ⟨_, _, idx, heq, ⟨before, hbefore, ?_⟩, ?_, ?_, ?_, ?_⟩
  · intro v hv
    have hle := hmax _ (mem_map_of_mem hv)
    rw [← hadd v hv, ← hold]
    exact hle
  · intro j v hj
    have hlt := (List.getElem_of_getElem? hj).1
    rw [getElem?_set]
    by_cases hidx : idx = j
    · subst hidx
      cases hbefore.symm.trans hj
      rw [if_pos rfl, if_pos (by rw [added, length_map]; exact hlt), if_pos rfl]
      exact ⟨_, rfl, hnew⟩
    · rw [if_neg hidx, if_neg (Ne.symm hidx), added, getElem?_map, hj]
      exact ⟨_, rfl, by rw [Int.sub_zero]; exact hadd v (mem_of_getElem? hj)⟩
  · rw [length_set, added, length_map]
  · have hsum : sumOf priority (added vals) =
        sumOf priority vals + totalStake vals := by
      rw [added, sumOf_map, totalStake, ← sumOf_add]
      exact sumOf_congr hadd
    rw [sumOf_set hget, hsum, priority, priority, withPriority, hold, hnew]
    omega
  · rw [← (h.rotate heq).total_eq, h.total_eq]

/-- One round after the window, priorities are still centred and differ by three times the total
power at most. -/
theorem Round.spread (h : Sound total vals) (hwindow : InWindow vals)
    (hround : Round vals idx vals') : Spread (3 * totalStake vals) vals' := by
  have hstake := h.stake_bounds
  have hat : ∀ v' ∈ vals', ∃ (j : Nat) (v : Validator), vals[j]? = some v ∧
      v'.priority = v.priority + v.stake - if j = idx then totalStake vals else 0 := by
    intro v' hv'
    obtain ⟨j, hj⟩ := getElem?_of_mem hv'
    have hlt : j < vals.length := hround.length ▸ (List.getElem_of_getElem? hj).1
    obtain ⟨w', hw', hpriority⟩ :=
      hround.priorities j vals[j] (getElem?_eq_getElem hlt)
    cases hj.symm.trans hw'
    exact ⟨j, vals[j], getElem?_eq_getElem hlt, hpriority⟩
  obtain ⟨mostest, hmostest, hmax⟩ := hround.proposer
  intro x hx y hy
  obtain ⟨j, v, hj, hv⟩ := hat x hx
  obtain ⟨k, w, hk, hw⟩ := hat y hy
  have hspread := hwindow.spread v (mem_of_getElem? hj) w (mem_of_getElem? hk)
  have hvs := hstake v (mem_of_getElem? hj)
  have hws := hstake w (mem_of_getElem? hk)
  by_cases hkidx : k = idx
  · subst hkidx
    cases hk.symm.trans hmostest
    have hle := hmax v (mem_of_getElem? hj)
    split at hv <;> omega
  · split at hv <;> omega

/-- Centring subtracts one number from all priorities. -/
theorem shifted_priorities (hne : vals ≠ []) (hspread : Spread d vals)
    (hd : d ≤ Int64.maxValue.toInt) (h : shifted vals = .ok vals') :
    ∃ avg : Int64, vals' = vals.map (fun v => v.withPriority (safeSubClip v.proposerPriority avg)) ∧
      ∀ v ∈ vals, (safeSubClip v.proposerPriority avg).toInt = v.priority - avg.toInt := by
  obtain ⟨avg, havg, -, hnear⟩ := computeAvgProposerPriority_eq hne hspread
  rw [toInt_maxValue] at hd
  rw [shifted, if_neg hne, havg] at h
  refine ⟨avg, (ok.inj h).symm, ?_⟩
  intro v hv
  have := hnear v hv
  exact toInt_safeSubClip (by
    change Fits (v.priority - avg.toInt)
    unfold Fits
    omega)

section

variable (h : Sound total vals) (hspread : Spread (3 * totalStake vals) vals)
  (hout : ¬ Spread (2 * totalStake vals) vals)

include h hspread hout

/-- Priorities that left the window by a round are halved and shifted. -/
theorem rescaled_of_outside :
    rescaled (priorityWindowSizeFactor * total) vals =
      .ok (vals.map fun v => v.withPriority (v.proposerPriority / 2)) := by
  have hle := h.total_bound
  have hfactor := h.toInt_window
  obtain ⟨diff, hdiff, hspread', -, hsmall⟩ :=
    computeMaxMinPriorityDiff_eq h.ne_nil hspread (by rw [toInt_maxValue]; omega)
  have hlarge : 2 * totalStake vals < diff.toInt := by
    by_contra hnot
    apply hout
    intro v hv w hw
    have := hspread' v hv w hw
    omega
  have hgt : diff > priorityWindowSizeFactor * total := by
    rw [gt_iff_lt, Int64.lt_iff_toInt_lt, hfactor]
    exact hlarge
  have hratio : (diff + priorityWindowSizeFactor * total - 1) /
      (priorityWindowSizeFactor * total) = 2 := by
    have hone : (1 : Int64).toInt = 1 := rfl
    have hsum : (diff + priorityWindowSizeFactor * total).toInt =
        diff.toInt + 2 * totalStake vals := by
      rw [Exact.toInt_add, hfactor]
      unfold Fits
      omega
    have hless : (diff + priorityWindowSizeFactor * total - 1).toInt =
        diff.toInt + 2 * totalStake vals - 1 := by
      rw [Exact.toInt_sub, hsum, hone]
      unfold Fits
      omega
    apply Int64.toInt_inj.mp
    rw [toInt_div_of_pos (by omega), hless, hfactor, Int.tdiv_eq_ediv_of_nonneg (by omega)]
    have htwo : (2 : Int64).toInt = 2 := rfl
    rw [htwo]
    apply Int.le_antisymm
    · exact Int.lt_add_one_iff.mp (Int.ediv_lt_of_lt_mul (by omega) (by omega))
    · exact (Int.le_ediv_iff_mul_le (by omega)).mpr (by omega)
  have hpos' : ¬ priorityWindowSizeFactor * total ≤ 0 := by
    rw [Int64.le_iff_toInt_le, hfactor, toInt_zero]
    omega
  rw [rescaled, if_neg h.ne_nil, if_neg hpos', hdiff]
  simp only [bind, Except.bind, if_pos hgt, hratio]
  rfl

/-- Priorities that left the window by a round are halved and shifted before the next call. -/
theorem normalised_of_outside :
    ∃ (vals' : List Validator) (avg : Int), normalised total vals = .ok vals' ∧
      Reprioritised vals vals' ∧ InWindow vals' ∧
      ∀ (j : Nat) (v : Validator), vals[j]? = some v → ∃ v', vals'[j]? = some v' ∧
        v'.stake = v.stake ∧ v'.priority = v.priority.tdiv 2 - avg := by
  have hpos := h.total_pos
  have hle := h.total_bound
  have hhalved := rescaled_of_outside h hspread hout
  obtain ⟨halved, hhalved', hsame, hspread'⟩ := rescaled_eq h.ne_nil
    (by rw [h.toInt_window]; omega) hspread (by rw [h.toInt_window, toInt_maxValue]; omega)
  cases hhalved.symm.trans hhalved'
  rw [h.toInt_window] at hspread'
  have hne := hsame.ne_nil h.ne_nil
  obtain ⟨vals', hvals', hsame', hspread'', -, hcentred⟩ :=
    shifted_eq hne hspread' (by rw [toInt_maxValue]; omega)
  obtain ⟨avg, rfl, hshift⟩ := shifted_priorities hne hspread' (by rw [toInt_maxValue]; omega)
    hvals'
  refine ⟨_, avg.toInt, ?_, hsame.trans hsame', ⟨?_, hcentred⟩, ?_⟩
  · rw [normalised, hhalved]
    exact hvals'
  · have hstake := (hsame.trans hsame').sumOf_eq stake fun _ _ => rfl
    rw [totalStake, hstake]
    exact hspread''
  · intro j v hj
    have hmem := mem_map_of_mem (f := fun v => v.withPriority (v.proposerPriority / 2))
      (mem_of_getElem? hj)
    refine ⟨v.withPriority (safeSubClip (v.proposerPriority / 2) avg), ?_, rfl, ?_⟩
    · rw [getElem?_map, getElem?_map, hj]
      rfl
    have htwo : (2 : Int64).toInt = 2 := rfl
    have hhalf : (v.proposerPriority / 2).toInt = v.proposerPriority.toInt.tdiv 2 := by
      rw [toInt_div_of_pos (by decide), htwo]
    have hvalue := hshift _ hmem
    rw [priority, withPriority, hhalf] at hvalue
    exact hvalue

end

/-- Halving numbers of opposite signs halves their difference up to the roundings. -/
theorem tdiv_two_sub {x y : Int} (hx : 0 ≤ x) (hy : y ≤ 0) :
    2 * (x.tdiv 2 - y.tdiv 2) ≤ x - y ∧ x - y ≤ 2 * (x.tdiv 2 - y.tdiv 2) + 2 := by
  have hx' : x.tdiv 2 = x / 2 := Int.tdiv_eq_ediv_of_nonneg hx
  have hy' : y.tdiv 2 = -(-y / 2) := by
    rw [← Int.tdiv_eq_ediv_of_nonneg (by omega), Int.neg_tdiv, Int.neg_neg]
  omega

/-- Outside of the window the next round differs, whether the priorities are rescaled before it or
not. -/
theorem rotate_ne_of_outside (h : Sound total vals) (hspread : Spread (3 * totalStake vals) vals)
    (hcentred : 0 ≤ sumOf priority vals ∧ sumOf priority vals < vals.length)
    (hout : ¬ Spread (2 * totalStake vals) vals) {halved : List Validator}
    (hhalved : normalised total vals = .ok halved) {chosen' : Bytes} {next next' : List Validator}
    (hnext : rotate total vals = .ok (chosen, next))
    (hnext' : rotate total halved = .ok (chosen', next')) : next ≠ next' := by
  rintro rfl
  have hpos := h.total_pos
  obtain ⟨halved', avg, heq, hsame, hwindow, hat⟩ := normalised_of_outside h hspread hout
  cases hhalved.symm.trans heq
  have hsound := h.reprioritised hsame
  have hstake : totalStake halved = totalStake vals := hsame.sumOf_eq stake fun _ _ => rfl
  obtain ⟨_, _, p, hrun, hround⟩ := rotate_exact h (bounded_of_centred hcentred h.ne_nil hspread)
  cases hnext.symm.trans hrun
  obtain ⟨_, _, q, hrun', hround'⟩ := rotate_exact hsound (hwindow.bounded hsound.ne_nil)
  cases hnext'.symm.trans hrun'
  -- the two rounds add the same powers, so the priorities before them differ by the total at most
  have hdiff : ∀ (j : Nat) (v : Validator), vals[j]? = some v → ∃ v', halved[j]? = some v' ∧
      v'.stake = v.stake ∧ v'.priority = v.priority.tdiv 2 - avg ∧
      v.priority - (v.priority.tdiv 2 - avg) =
        (if j = p then totalStake vals else 0) - (if j = q then totalStake vals else 0) := by
    intro j v hj
    obtain ⟨v', hv', hstake', hpriority'⟩ := hat j v hj
    obtain ⟨x, hx, hxp⟩ := hround.priorities j v hj
    obtain ⟨y, hy, hyp⟩ := hround'.priorities j v' hv'
    cases hx.symm.trans hy
    exact ⟨v', hv', hstake', hpriority', by omega⟩
  obtain ⟨j, k, v, w, hj, hk, hv, hw, hfar⟩ := exists_apart hcentred hout
  obtain ⟨v', hv', hvstake, hvp, hvd⟩ := hdiff j v hj
  obtain ⟨w', hw', hwstake, hwp, hwd⟩ := hdiff k w hk
  obtain ⟨hhalf, hhalf'⟩ := tdiv_two_sub hv hw
  have hjk : j ≠ k := by
    rintro rfl
    cases hj.symm.trans hk
    omega
  have hpair := add_le_sumOf (fun u hu => Int.le_of_lt (h.positive u hu)) hjk hj hk
  have hvpos := h.positive v (mem_of_getElem? hj)
  obtain ⟨mostest, hmostest, hmax⟩ := hround'.proposer
  have hmaxv := hmax v' (mem_of_getElem? hv')
  -- the difference is more than the total, so the upper one was chosen in one round and the lower
  -- one in the other
  have hkq : k = q := by
    by_contra hne
    split at hwd
    all_goals split at hvd
    all_goals split at hvd
    all_goals omega
  subst hkq
  cases hmostest.symm.trans hw'
  rw [← totalStake] at hpair
  split at hvd
  all_goals split at hwd
  all_goals omega

/-! ### Splitting rounds into calls -/

theorem rotateTimes_add (a b : Nat) (s : Option Bytes × List Validator) :
    rotateTimes total (a + b) s = (rotateTimes total a s).bind (rotateTimes total b) := by
  induction a generalizing s with
  | zero =>
    rw [Nat.zero_add]
    rfl
  | succ a ih =>
    rw [Nat.succ_add, rotateTimes, rotateTimes]
    cases hrotate : rotate total s.2 with
    | error failure => rfl
    | ok next => exact ih _

theorem rotateTimes_one (start : Option Bytes) (hrotate : rotate total vals = .ok (chosen, vals')) :
    rotateTimes total 1 (start, vals) = .ok (some chosen, vals') := by
  rw [rotateTimes, hrotate]
  rfl

/-- Rounds never fail. -/
theorem rotateTimes_sound (h : Sound total vals) (times : Nat) (start : Option Bytes) :
    ∃ last vals', rotateTimes total times (start, vals) = .ok (last, vals') ∧
      Sound total vals' := by
  induction times generalizing vals start with
  | zero => exact ⟨start, vals, rfl, h⟩
  | succ times ih =>
    obtain ⟨idx, mostest, -, -, hrotate⟩ := rotate_eq h
    obtain ⟨last, vals', hrest, hsound⟩ := ih (h.rotate hrotate) (some mostest.address)
    refine ⟨last, vals', ?_, hsound⟩
    rw [rotateTimes, hrotate]
    exact hrest

/-- A call on a set in the window only makes the rounds. -/
theorem copyIncrement_of_inWindow (h : Sound total s.validators)
    (hcached : s.totalVotingPower = 0 ∨ s.totalVotingPower = total)
    (hwindow : InWindow s.validators) {times : Int32} (htimes : 0 < times) {last : Option Bytes}
    (hrotate : rotateTimes total times.toInt.toNat (none, s.validators) = .ok (last, vals')) :
    s.copyIncrementProposerPriority times = .ok ⟨vals', last, total⟩ :=
  copyIncrementProposerPriority_eq h hcached htimes (normalised_of_inWindow h hwindow) (.refl _)
    hrotate

/-- The total of a valid set. -/
theorem Valid.sound (h : s.Valid) (hne : s.validators ≠ []) :
    ∃ total, Sound total s.validators ∧
      (s.totalVotingPower = 0 ∨ s.totalVotingPower = total) := by
  have hpos := totalStake_pos h.validators.positive hne
  have hle := h.validators.total_le
  rw [toInt_maxTotalVotingPower] at hle
  have htotal : (Int64.ofInt (totalStake s.validators)).toInt = totalStake s.validators :=
    toInt_ofInt (by unfold Fits; omega)
  refine ⟨Int64.ofInt (totalStake s.validators),
    ⟨hne, h.validators.nodup, h.validators.positive, htotal, h.validators.total_le⟩, ?_⟩
  rcases h.cached with hzero | hcached
  · exact .inl hzero
  · exact .inr (Int64.toInt_inj.mp (hcached.trans htotal.symm))

/-- After any number of rounds below a limit the priorities are in the window. -/
def WindowBelow (s : CachedValidatorSet) (limit : Int32) : Prop :=
  ∀ times : Int32, 0 < times → times < limit →
    ∃ s', s.copyIncrementProposerPriority times = .ok s' ∧ InWindow s'.validators

/-- Any two calls with a limited number of rounds together do what one call does. -/
def Splits (s : CachedValidatorSet) (limit : Int32) : Prop :=
  ∀ a b : Int32, 0 < a → 0 < b → a.toInt + b.toInt ≤ limit.toInt →
    (s.copyIncrementProposerPriority a).bind (copyIncrementProposerPriority b) =
      s.copyIncrementProposerPriority (a + b)

theorem int32_pos_iff {a : Int32} : 0 < a ↔ 0 < a.toInt :=
  lt_iff_toInt_lt

theorem toInt_add_of_le {a b : Int32} (ha : 0 < a) (hb : 0 < b)
    (h : a.toInt + b.toInt ≤ limit.toInt) : (a + b).toInt = a.toInt + b.toInt := by
  have hlimit := limit.toInt_lt
  rw [int32_pos_iff] at ha hb
  rw [Int32.toInt_add]
  apply Int.bmod_eq_of_le <;> omega

theorem splits_of_windowBelow (hvalid : s.Valid) (hne : s.validators ≠ [])
    (hwindow : InWindow s.validators) (hbelow : WindowBelow s limit) : Splits s limit := by
  intro a b ha hb hle
  obtain ⟨total, hsound, hcached⟩ := hvalid.sound hne
  have hsum := toInt_add_of_le ha hb hle
  have ha' := int32_pos_iff.mp ha
  have hb' := int32_pos_iff.mp hb
  obtain ⟨first, mid, hmid, hsoundMid⟩ := rotateTimes_sound hsound a.toInt.toNat none
  have hcallMid := copyIncrement_of_inWindow hsound hcached hwindow ha hmid
  obtain ⟨s', hs', hwindowMid⟩ := hbelow a ha (lt_iff_toInt_lt.mpr (by omega))
  cases hcallMid.symm.trans hs'
  obtain ⟨last, vals', hrest, -⟩ := rotateTimes_sound hsoundMid b.toInt.toNat none
  have hcallRest := @copyIncrement_of_inWindow total vals' ⟨mid, first, total⟩ hsoundMid (.inr rfl)
    hwindowMid b hb last hrest
  -- the proposer before the second call has no influence on it
  have hstart : rotateTimes total b.toInt.toNat (first, mid) = .ok (last, vals') := by
    obtain ⟨n, hn⟩ := Nat.exists_eq_succ_of_ne_zero (show b.toInt.toNat ≠ 0 by omega)
    rw [hn] at hrest ⊢
    exact hrest
  have hall : rotateTimes total (a + b).toInt.toNat (none, s.validators) = .ok (last, vals') := by
    have hnat : (a + b).toInt.toNat = a.toInt.toNat + b.toInt.toNat := by omega
    rw [hnat, rotateTimes_add, hmid]
    exact hstart
  have hpos : 0 < a + b := int32_pos_iff.mpr (by omega)
  rw [hs', copyIncrement_of_inWindow hsound hcached hwindow hpos hall]
  exact hcallRest

/-- A round from the window ends in the window, or the next call changes its result. -/
theorem inWindow_of_next (h : Sound total vals) (hwindow : InWindow vals)
    (hrotate : rotate total vals = .ok (chosen, vals')) (hnext : ∀ halved chosen1 chosen2 next1
      next2, normalised total vals' = .ok halved → rotate total vals' = .ok (chosen1, next1) →
      rotate total halved = .ok (chosen2, next2) → Reprioritised vals' halved → next1 = next2) :
    InWindow vals' := by
  obtain ⟨_, _, idx, hrun, hround⟩ := rotate_exact h (hwindow.bounded h.ne_nil)
  cases hrotate.symm.trans hrun
  have hcentred : 0 ≤ sumOf priority vals' ∧
      sumOf priority vals' < vals'.length := by
    rw [hround.sum, hround.length]
    exact hwindow.centred
  by_contra hnot
  have hout : ¬ Spread (2 * totalStake vals') vals' := fun hspread => hnot ⟨hspread, hcentred⟩
  have hspread := hround.spread h hwindow
  rw [← hround.stake] at hspread
  have hsound := h.rotate hrotate
  obtain ⟨halved, -, hhalved, hsame, -, -⟩ := normalised_of_outside hsound hspread hout
  obtain ⟨_, _, -, -, hrotate1⟩ := rotate_eq hsound
  obtain ⟨_, _, -, -, hrotate2⟩ := rotate_eq (hsound.reprioritised hsame)
  exact rotate_ne_of_outside hsound hspread hcentred hout hhalved hrotate1 hrotate2
    (hnext _ _ _ _ _ hhalved hrotate1 hrotate2 hsame)

/-- If calls can be split, every number of rounds below the limit leads to the window. -/
theorem rounds_of_splits (hsound : Sound total s.validators)
    (hcached : s.totalVotingPower = 0 ∨ s.totalVotingPower = total)
    (hwindow : InWindow s.validators) {limit : Int32} (hsplits : Splits s limit) {n : Nat}
    (hn : (n : Int) < limit.toInt) :
    ∃ last vals, rotateTimes total n (none, s.validators) = .ok (last, vals) ∧ Sound total vals ∧
      InWindow vals := by
  induction n with
  | zero => exact ⟨none, s.validators, rfl, hsound, hwindow⟩
  | succ n ih =>
    obtain ⟨last, vals, hvals, hsoundVals, hwindowVals⟩ := ih (by omega)
    obtain ⟨idx, mostest, -, -, hrotate⟩ := rotate_eq hsoundVals
    generalize (added vals).set idx _ = vals' at hrotate
    have hvals' : rotateTimes total (n + 1) (none, s.validators) =
        .ok (some mostest.address, vals') := by
      rw [rotateTimes_add, hvals]
      exact rotateTimes_one last hrotate
    refine ⟨_, vals', hvals', hsoundVals.rotate hrotate, ?_⟩
    apply inWindow_of_next hsoundVals hwindowVals hrotate
    intro halved chosen1 chosen2 next1 next2 hhalved hrotate1 hrotate2 hsame
    -- the calls with `n + 1` rounds and one more
    have hlimit := limit.toInt_lt
    have hone : (1 : Int32).toInt = 1 := rfl
    have hcount : (ofNat (n + 1)).toInt = n + 1 := toInt_ofNat_of_lt (by omega)
    have hpos : 0 < ofNat (n + 1) := int32_pos_iff.mpr (by omega)
    have hle : (ofNat (n + 1)).toInt + (1 : Int32).toInt ≤ limit.toInt := by omega
    have hsum := toInt_add_of_le hpos (by decide) hle
    have hsumPos : 0 < ofNat (n + 1) + 1 := int32_pos_iff.mpr (by omega)
    have hcall := copyIncrement_of_inWindow hsound hcached hwindow hpos
      (by rw [hcount]; exact hvals')
    have hsecond : copyIncrementProposerPriority 1 ⟨vals', some mostest.address, total⟩ =
        .ok ⟨next2, some chosen2, total⟩ := by
      exact copyIncrementProposerPriority_eq (hsoundVals.rotate hrotate) (.inr rfl) (by decide)
        hhalved hsame (rotateTimes_one none hrotate2)
    have hjoint : s.copyIncrementProposerPriority (ofNat (n + 1) + 1) =
        .ok ⟨next1, some chosen1, total⟩ := by
      refine copyIncrement_of_inWindow hsound hcached hwindow hsumPos ?_
      have hnat : (ofNat (n + 1) + 1).toInt.toNat = n + 1 + 1 := by omega
      rw [hnat, rotateTimes_add, hvals']
      exact rotateTimes_one (some mostest.address) hrotate1
    have heq := hsplits _ 1 hpos (by decide) hle
    rw [hcall, hjoint] at heq
    exact (CachedValidatorSet.mk.inj (ok.inj (heq.symm.trans hsecond))).1

theorem windowBelow_of_splits (hvalid : s.Valid) (hne : s.validators ≠ [])
    (hwindow : InWindow s.validators) (hsplits : Splits s limit) : WindowBelow s limit := by
  obtain ⟨total, hsound, hcached⟩ := hvalid.sound hne
  intro times hpos hlt
  have hpos' := int32_pos_iff.mp hpos
  rw [lt_iff_toInt_lt] at hlt
  obtain ⟨last, vals, hvals, -, hwindowVals⟩ :=
    @rounds_of_splits total s hsound hcached hwindow limit hsplits times.toInt.toNat (by omega)
  exact ⟨_, copyIncrement_of_inWindow hsound hcached hwindow hpos hvals, hwindowVals⟩

end CachedValidatorSet

/-! ### Nodes -/

namespace RoundValidators

open CachedValidatorSet

/-- The validators of a round that was reached are those of one call. -/
def Reached (s : CachedValidatorSet) (cs : RoundValidators) : Prop :=
  cs = ⟨0, s⟩ ∨ 0 < cs.round ∧ s.copyIncrementProposerPriority cs.round = .ok cs.validators

theorem safeSubInt32_eq {a b : Int32} (hb : 0 ≤ b.toInt) (h : b.toInt < a.toInt) :
    ∃ c, safeSubInt32 a b = .ok c ∧ c.toInt = a.toInt - b.toInt := by
  have hmin : minValue.toInt = -2147483648 := rfl
  have ha := a.toInt_lt
  have hbound : ¬ (b > 0 ∧ a < minValue + b) := by
    rintro ⟨-, hlt⟩
    have hsum : (minValue + b).toInt = -2147483648 + b.toInt := by
      rw [Int32.toInt_add, hmin]
      apply Int.bmod_eq_of_le <;> omega
    rw [lt_iff_toInt_lt, hsum] at hlt
    omega
  have hneg : ¬ (b < 0 ∧ a > maxValue + b) := by
    rintro ⟨hlt, -⟩
    rw [Int32.lt_iff_toInt_lt, Int32.toInt_zero] at hlt
    omega
  refine ⟨a - b, by rw [safeSubInt32, if_neg hbound, if_neg hneg], ?_⟩
  rw [Int32.toInt_sub]
  apply Int.bmod_eq_of_le <;> omega

variable {s : CachedValidatorSet} {cs : RoundValidators} {limit : Int32}

section Enter

variable (hsplits : Splits s limit)
  (hone : ∀ times, 0 < times → ∃ s', s.copyIncrementProposerPriority times = .ok s')
include hsplits hone

/-- A node that enters a round finds the validators of one call, however it got there. -/
theorem Reached.enterNewRound (h : Reached s cs) {round : Int32} (hround : round ≤ limit) :
    ∃ cs', cs.enterNewRound round = .ok cs' ∧ Reached s cs' := by
  unfold RoundValidators.enterNewRound
  split
  case isFalse hbehind => exact ⟨cs, rfl, h⟩
  case isTrue hahead =>
    rw [lt_iff_toInt_lt] at hahead
    rw [le_iff_toInt_le] at hround
    have hnonneg : 0 ≤ cs.round.toInt := by
      rcases h with rfl | ⟨hpos, -⟩
      · exact Int.le_refl _
      · exact Int.le_of_lt (int32_pos_iff.mp hpos)
    have hroundPos : 0 < round := int32_pos_iff.mpr (by omega)
    obtain ⟨times, htimes, hvalue⟩ := safeSubInt32_eq hnonneg hahead
    have htimesPos : 0 < times := int32_pos_iff.mpr (by omega)
    obtain ⟨s', hs'⟩ := hone round hroundPos
    refine ⟨⟨round, s'⟩, ?_, .inr ⟨hroundPos, hs'⟩⟩
    have hcall : cs.validators.copyIncrementProposerPriority times = .ok s' := by
      rcases h with rfl | ⟨hpos, hreached⟩
      · obtain rfl : times = round := Int32.toInt_inj.mp (by rw [hvalue, Int32.toInt_zero]; omega)
        exact hs'
      · have hle : cs.round.toInt + times.toInt ≤ limit.toInt := by omega
        have hsum : cs.round + times = round :=
          toInt_inj.mp (by rw [toInt_add_of_le hpos htimesPos hle]; omega)
        have hsplit := hsplits cs.round times hpos htimesPos hle
        rw [hreached, hsum, hs'] at hsplit
        exact hsplit
    rw [htimes]
    simp only [bind, Except.bind, hcall]
    rfl

theorem Reached.enterRounds (h : Reached s cs) {rounds : List Int32}
    (hrounds : ∀ round ∈ rounds, round ≤ limit) :
    ∃ cs', cs.enterRounds rounds = .ok cs' ∧ Reached s cs' := by
  induction rounds generalizing cs with
  | nil => exact ⟨cs, rfl, h⟩
  | cons round rounds ih =>
    obtain ⟨hfirst, hrest⟩ := forall_mem_cons.mp hrounds
    obtain ⟨next, hnext, hreached⟩ := Reached.enterNewRound hsplits hone h hfirst
    obtain ⟨cs', hcs', hreached'⟩ := ih hreached hrest
    refine ⟨cs', ?_, hreached'⟩
    rw [enterRounds, hnext]
    exact hcs'

end Enter

/-- The round determines the validators. -/
theorem Reached.eq {cs' : RoundValidators} (h : Reached s cs) (h' : Reached s cs')
    (hround : cs.round = cs'.round) : cs = cs' := by
  obtain ⟨round, validators⟩ := cs
  obtain ⟨round', validators'⟩ := cs'
  obtain rfl : round = round' := hround
  rcases h with heq | ⟨hpos, hcall⟩ <;> rcases h' with heq' | ⟨hpos', hcall'⟩
  · rw [heq, heq']
  · rw [(mk.inj heq).1] at hpos'
    exact absurd hpos' (by decide : ¬ (0 : Int32) < 0)
  · rw [(mk.inj heq').1] at hpos
    exact absurd hpos (by decide : ¬ (0 : Int32) < 0)
  · exact congrArg (mk round) (ok.inj (hcall.symm.trans hcall'))

end RoundValidators

open CachedValidatorSet RoundValidators

/-- Rounds can be split into calls at will if and only if no round before the last leads out of the
window; then all nodes in a round have the same validators and proposer. -/
theorem proposer_is_path_independent_iff (hvalid : s.Valid)
    (hne : s.validators ≠ []) (hwindow : InWindow s.validators) (limit : Int32) :
    (Splits s limit ↔ WindowBelow s limit) ∧
      (WindowBelow s limit → ∀ rounds rounds' : List Int32, (∀ round ∈ rounds, round ≤ limit) →
        (∀ round ∈ rounds', round ≤ limit) → ∃ cs cs', enterRounds ⟨0, s⟩ rounds = .ok cs ∧
          enterRounds ⟨0, s⟩ rounds' = .ok cs' ∧ (cs.round = cs'.round → cs = cs')) := by
  refine ⟨⟨windowBelow_of_splits hvalid hne hwindow, splits_of_windowBelow hvalid hne hwindow⟩, ?_⟩
  intro hbelow rounds rounds' hrounds hrounds'
  have hsplits := splits_of_windowBelow hvalid hne hwindow hbelow
  have hone : ∀ times, 0 < times → ∃ s', s.copyIncrementProposerPriority times = .ok s' := by
    intro times hpos
    obtain ⟨total, hsound, hcached⟩ := hvalid.sound hne
    obtain ⟨last, vals, hvals, -⟩ := rotateTimes_sound hsound times.toInt.toNat none
    exact ⟨_, copyIncrement_of_inWindow hsound hcached hwindow hpos hvals⟩
  have hstart : Reached s ⟨0, s⟩ := .inl rfl
  obtain ⟨cs, hcs, hreached⟩ := Reached.enterRounds hsplits hone hstart hrounds
  obtain ⟨cs', hcs', hreached'⟩ := Reached.enterRounds hsplits hone hstart hrounds'
  exact ⟨cs, cs', hcs, hcs', hreached.eq hreached'⟩

section Sample

/-- How `updateState` obtains the validators of a later height. -/
def nextValidators (changes : List Validator) : ValidatorProgram Unit := do
  updateWithChangeSetAllowingDeletes changes
  incrementProposerPriority 1

/-- The validators after one has joined a chain with three and another one has left it. -/
def joinedAndLeft : Except Failure CachedValidatorSet := do
  let validators ← newValidatorSet [member 0 7 0, member 1 2 0, member 2 10 0]
  let genesis ← validators.copyIncrementProposerPriority 1
  -- in 19 rounds, the total power, the priorities are back where they started
  let settled := ((List.replicate 18 ()).forM fun _ => nextValidators []).exec genesis |>.2
  let joined := ((nextValidators [member 3 1 0]).exec settled).2
  return ((nextValidators [member 0 0 0]).exec joined).2

/-- These validators. -/
def unsettledSet : CachedValidatorSet where
  validators := [member 2 10 4, member 1 2 12, member 3 1 (-14)]
  proposer := some [2]
  totalVotingPower := 13

/-- The proposer of the fifth round depends on whether a node entered the rounds before it. -/
theorem proposer_depends_on_path :
    joinedAndLeft = .ok unsettledSet ∧ unsettledSet.Valid ∧ InWindow unsettledSet.validators ∧
      (enterRounds ⟨0, unsettledSet⟩ [1, 2, 3, 4, 5]).map
          (fun cs => (cs.round, cs.validators.proposer)) = .ok (5, some [1]) ∧
      (enterRounds ⟨0, unsettledSet⟩ [5]).map (fun cs => (cs.round, cs.validators.proposer)) =
        .ok (5, some [2]) ∧
      ¬ Splits unsettledSet 2 := by
  refine ⟨by decide +kernel, ⟨⟨by decide, by decide, by decide, by decide⟩, .inr (by decide)⟩,
    by decide, by decide +kernel, by decide +kernel, ?_⟩
  intro hsplits
  have hsplit := hsplits 1 1 (by decide) (by decide) (by decide)
  have hdiffer : (unsettledSet.copyIncrementProposerPriority 1).bind
      (copyIncrementProposerPriority 1) ≠ unsettledSet.copyIncrementProposerPriority (1 + 1) := by
    decide +kernel
  exact hdiffer hsplit

/-- Three validators with equal powers. -/
def calmSet : CachedValidatorSet where
  validators := [member 0 1 (-2), member 1 1 1, member 2 1 1]
  proposer := some [0]
  totalVotingPower := 3

theorem proposer_is_path_independent_calmSet :
    Splits calmSet 3 ∧ ∃ cs, enterRounds ⟨0, calmSet⟩ [1, 2, 3] = .ok cs ∧
      enterRounds ⟨0, calmSet⟩ [3] = .ok cs := by
  have hbelow : WindowBelow calmSet 3 := by
    intro times hpos hlt
    have hthree : (3 : Int32).toInt = 3 := rfl
    rw [int32_pos_iff] at hpos
    rw [lt_iff_toInt_lt, hthree] at hlt
    have hcases : times = 1 ∨ times = 2 := by
      rw [← toInt_inj, ← toInt_inj]
      change times.toInt = 1 ∨ times.toInt = 2
      omega
    rcases hcases with rfl | rfl
    · exact ⟨⟨[member 0 1 (-1), member 1 1 (-1), member 2 1 2], some [1], 3⟩,
        by decide +kernel, by decide⟩
    · exact ⟨⟨[member 0 1 0, member 1 1 0, member 2 1 0], some [2], 3⟩,
        by decide +kernel, by decide⟩
  obtain ⟨hiff, hagree⟩ := @proposer_is_path_independent_iff calmSet
    ⟨⟨by decide, by decide, by decide, by decide⟩, .inr (by decide)⟩ (by decide) (by decide) 3
  obtain ⟨cs, cs', hcs, hcs', heq⟩ := hagree hbelow [1, 2, 3] [3] (by simp) (by simp)
  refine ⟨hiff.mpr hbelow, cs, hcs, ?_⟩
  have hround : (enterRounds ⟨0, calmSet⟩ [1, 2, 3]).map round =
      (enterRounds ⟨0, calmSet⟩ [3]).map round := by
    decide +kernel
  rw [hcs, hcs'] at hround
  rw [hcs', heq (ok.inj hround)]

end Sample

end NimbleChain.Tendermint
