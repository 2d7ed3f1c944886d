import NimbleChain.Tendermint.MonitoringBounds

/-!
# Bounds of the low-pass filter

The estimates per block and per group pass their samples through one low-pass filter. Its values are
convex combinations of earlier ones as long as the weights are at most one. The weight of the
deviation leaves that range when `AdjustParameters` has been called with code 1 often enough. When
all samples are equal, the timeout falls towards them from above.
-/

namespace NimbleChain.Tendermint

open Common Set BlockProposeTimeout

/-! ### Statistics of samples -/

/-- A loop that adds is a sum. -/
theorem foldl_add_eq (l : List ℚ) (x : ℚ) : l.foldl (· + ·) x = x + l.sum :=
  List.foldl_eq_apply_foldr

/-- The mean is between the samples. -/
theorem mean_mem_Icc {data : List ℚ} {lo hi : ℚ} (hne : data ≠ [])
    (hdata : ∀ x ∈ data, x ∈ Icc lo hi) : mean data ∈ Icc lo hi := by
  have hpos : (0 : ℚ) < data.length := by exact_mod_cast List.length_pos_of_ne_nil hne
  rw [mean, foldl_add_eq, zero_add, mem_Icc, le_div_iff₀ hpos, div_le_iff₀ hpos, mul_comm lo,
    mul_comm hi, ← nsmul_eq_mul, ← nsmul_eq_mul]
  exact ⟨data.card_nsmul_le_sum lo fun x hx => (hdata x hx).1,
    data.sum_le_card_nsmul hi fun x hx => (hdata x hx).2⟩

/-- No deviation is negative. -/
theorem deviation_nonneg (u : FloatUnit) (data : List ℚ) : 0 ≤ deviation u data :=
  u.sqrt_nonneg _

/-- A conversion of a number that is not negative rounds down. -/
theorem truncate_eq_floor {x : ℚ} (hx : 0 ≤ x) : truncate x = ⌊x⌋ := by
  rw [truncate, Int.tdiv_eq_ediv_of_nonneg (Rat.num_nonneg.mpr hx), Rat.floor_def']

/-! ### The filter -/

/-- A weighted mean is between its values. -/
theorem smoothed_mem_Icc {w x y lo hi : ℚ} (hw : w ∈ Icc 0 1) (hx : x ∈ Icc lo hi)
    (hy : y ∈ Icc lo hi) : (1 - w) * x + w * y ∈ Icc lo hi :=
  convex_Icc lo hi hx hy (sub_nonneg.mpr hw.2) hw.1 (by ring)

/-- Estimate, deviation and timeout are within the range of the samples. -/
def WithinBounds (bound rcpt rcptVar timeout : ℚ) : Prop :=
  (rcpt ∈ Icc 0 bound ∧ rcptVar ∈ Icc 0 bound) ∧ rcpt ≤ timeout ∧ timeout ≤ 5 * bound

/-- The filter keeps estimate and deviation in the range of the samples. -/
theorem filter_mem_Icc {bound alpha beta rcpt rcptVar sample : ℚ} (halpha : alpha ∈ Icc 0 1)
    (hbeta : beta ∈ Icc 0 1) (hrcpt : rcpt ∈ Icc 0 bound) (hvar : rcptVar ∈ Icc 0 bound)
    (hsample : sample ∈ Icc 0 bound) {rcpt' rcptVar' : ℚ}
    (hrcpt' : rcpt' = (1 - alpha) * rcpt + alpha * sample)
    (hvar' : rcptVar' = (1 - beta) * rcptVar + beta * |sample - rcpt'|) :
    rcpt' ∈ Icc 0 bound ∧ rcptVar' ∈ Icc 0 bound := by
  have hmean : rcpt' ∈ Icc 0 bound := hrcpt' ▸ smoothed_mem_Icc halpha hrcpt hsample
  have habs : |sample - rcpt'| ∈ Icc 0 bound :=
    ⟨abs_nonneg _, abs_sub_le_iff.mpr
      ⟨by linarith [hsample.2, hmean.1], by linarith [hsample.1, hmean.2]⟩⟩
  exact ⟨hmean, hvar' ▸ smoothed_mem_Icc hbeta hvar habs⟩

/-- So is the timeout, with the multiple 4. -/
theorem withinBounds_of_mem_Icc {bound rcpt rcptVar : ℚ}
    (h : rcpt ∈ Icc 0 bound ∧ rcptVar ∈ Icc 0 bound) :
    WithinBounds bound rcpt rcptVar (rcpt + 4 * rcptVar) :=
  ⟨h, by linarith [h.2.1], by linarith [h.1.2, h.2.2]⟩

/-! ### The estimate per block -/

namespace BlockProposeTimeout

/-- The calls that change the estimate. -/
inductive Call where
  | addTime (time : ℚ) (proposer : ℤ)
  | timeOut (nodeIndex : ℤ) (isByz : Bool) (byz : List ℤ)
  | adjustParameters (code : ℤ)

variable {u : FloatUnit} {bpt bpt' : BlockProposeTimeout} {call : Call} {nodeIndex : ℤ}

/-- The estimate after a call. -/
def perform (u : FloatUnit) (bpt : BlockProposeTimeout) : Call → Except Crash BlockProposeTimeout
  | .addTime time proposer => .ok (bpt.addTime time proposer)
  | .timeOut nodeIndex isByz byz => .ok (bpt.timeOut u 4 nodeIndex isByz byz)
  | .adjustParameters code => bpt.adjustParameters code

/-- A new estimate with the multiple 4. -/
def estimator (u : FloatUnit) (dataSize : ℕ) (timeout : ℚ) : Machine BlockProposeTimeout Call where
  init := new dataSize timeout
  step bpt call := (bpt.perform u call).toOption

/-- `TimeOut` uses the last sample. -/
def Updates (bpt : BlockProposeTimeout) (nodeIndex : ℤ) : Prop :=
  bpt.sampleRcpt ≠ 0 ∧ nodeIndex ≠ bpt.proposer

instance (bpt : BlockProposeTimeout) (nodeIndex : ℤ) : Decidable (bpt.Updates nodeIndex) :=
  inferInstanceAs (Decidable (_ ∧ _))

/-- `TimeOut` with a new sample of another node. -/
theorem timeOut_of_updates (h : bpt.Updates nodeIndex) (multiple : ℚ)
    (isByz : Bool) (byz : List ℤ) : bpt.timeOut u multiple nodeIndex isByz byz =
      bpt.update u multiple nodeIndex isByz byz :=
  if_pos h

/-- `TimeOut` without one. -/
theorem timeOut_of_not_updates (h : ¬bpt.Updates nodeIndex) (multiple : ℚ)
    (isByz : Bool) (byz : List ℤ) : bpt.timeOut u multiple nodeIndex isByz byz = bpt :=
  if_neg h

/-- The weight of the deviation is at most one when `TimeOut` is called. -/
def WeightAtMostOne (bpt : BlockProposeTimeout) : Call → Prop
  | .timeOut .. => bpt.beta ≤ 1
  | _ => True

/-- All values of the filter are within the range of the samples. -/
structure InRange (bound : ℚ) (bpt : BlockProposeTimeout) : Prop where
  rcpt : bpt.rcpt ∈ Icc 0 bound
  rcptVar : bpt.rcptVar ∈ Icc 0 bound
  sampleRcpt : bpt.sampleRcpt ∈ Icc 0 bound
  alpha : bpt.alpha ∈ Icc 0 1
  beta : 0 < bpt.beta

/-- An update stays in the range. -/
theorem InRange.update {bound : ℚ} (h : bpt.InRange bound) (hbeta : bpt.beta ≤ 1) (u : FloatUnit)
    (multiple : ℚ) (nodeIndex : ℤ) (isByz : Bool) (byz : List ℤ) :
    (bpt.update u multiple nodeIndex isByz byz).InRange bound := by
  obtain ⟨hrcpt, hvar⟩ :=
    filter_mem_Icc h.alpha ⟨h.beta.le, hbeta⟩ h.rcpt h.rcptVar h.sampleRcpt rfl rfl
  exact ⟨hrcpt, hvar, h.sampleRcpt, h.alpha, h.beta⟩

/-- With a multiple that is not negative, the timeout is not below the estimate. -/
theorem rcpt_le_timeout {multiple : ℚ} (hmultiple : 0 ≤ multiple) (hvar : 0 ≤ bpt.rcptVar)
    (hbeta : 0 ≤ bpt.beta) (hbeta' : bpt.beta ≤ 1) (u : FloatUnit) (nodeIndex : ℤ) (isByz : Bool)
    (byz : List ℤ) : (bpt.update u multiple nodeIndex isByz byz).rcpt ≤
      (bpt.update u multiple nodeIndex isByz byz).timeout := by
  refine le_add_of_nonneg_right (mul_nonneg hmultiple (add_nonneg ?_ ?_))
  · exact mul_nonneg (by linarith) hvar
  · exact mul_nonneg hbeta (abs_nonneg _)

/-- Every call stays in the range. -/
theorem InRange.perform {bound : ℚ} (h : bpt.InRange bound)
    (hsample : ∀ time proposer, call = .addTime time proposer → time ∈ Icc 0 bound)
    (hweight : bpt.WeightAtMostOne call) (hperform : bpt.perform u call = .ok bpt') :
    bpt'.InRange bound := by
  cases call with
  | addTime time proposer =>
    cases hperform
    exact ⟨h.rcpt, h.rcptVar, hsample time proposer rfl, h.alpha, h.beta⟩
  | timeOut nodeIndex isByz byz =>
    cases hperform
    by_cases hupdates : bpt.Updates nodeIndex
    · rw [timeOut_of_updates hupdates]
      exact h.update hweight u 4 nodeIndex isByz byz
    · rw [timeOut_of_not_updates hupdates]
      exact h
  | adjustParameters code =>
    obtain ⟨beta, rfl, hbeta⟩ := adjustParameters_eq_ok hperform
    exact ⟨h.rcpt, h.rcptVar, h.sampleRcpt, h.alpha, hbeta h.beta⟩

end BlockProposeTimeout

/-! ### The estimate per group -/

/-- `MergeTimeout`: the filter runs over the averages of groups of samples. -/
structure MergeTimeout where
  rcpt : ℚ
  rcptVar : ℚ
  sampleRcpt : ℚ
  alpha : ℚ
  beta : ℚ
  timeout : ℚ
  byzTimeout : ℚ
  cptList : List ℚ
  cptProposerList : List ℤ

namespace MergeTimeout

variable (mt : MergeTimeout) (u : FloatUnit) (nodeIndex : ℤ)

/-- The calls that change the estimate. `Clear` and `AdjustParameters` do nothing. -/
inductive Call where
  | addTime (time : ℚ) (proposer : ℤ)
  | timeOut (nodeIndex : ℤ) (isByz : Bool) (byz : List ℤ)
  | saveSamplePerEpoch

/-- `NewMergeTimeout`. -/
def new (timeout : ℚ) : MergeTimeout :=
  ⟨0, 0, 0, 1 / 8, 1 / 4, timeout, timeout, [], []⟩

/-- The samples whose proposers are not in a list. -/
def samplesWithout (proposers : List ℤ) : List ℚ :=
  ((mt.cptList.zip mt.cptProposerList).filter fun (_, proposer) => proposer ∉ proposers).map
    Prod.fst

/-- `GetSampleRpt`: the average of the samples of others. -/
def getSampleRpt : ℚ :=
  if mt.samplesWithout [nodeIndex] = [] then 0 else mean (mt.samplesWithout [nodeIndex])

/-- `TimeOut`. -/
def timeOut (isByz : Bool) (byz : List ℤ) : MergeTimeout :=
  let sampleRcpt := mt.getSampleRpt nodeIndex
  if sampleRcpt = 0 then { mt with sampleRcpt := sampleRcpt }
  else
    let rcpt := (1 - mt.alpha) * mt.rcpt + mt.alpha * sampleRcpt
    let rcptVar := (1 - mt.beta) * mt.rcptVar + mt.beta * |sampleRcpt - rcpt|
    let stats := meanAndVarianceOrZero u (mt.samplesWithout byz)
    let byzTimeout := stats.1 + 4 * stats.2
    { mt with
      sampleRcpt := sampleRcpt
      rcpt := rcpt
      rcptVar := rcptVar
      timeout := rcpt + 4 * rcptVar
      byzTimeout := if isByz then if byzTimeout = 0 then 1 / 2 else byzTimeout
        else rcpt + 4 * rcptVar }

/-- The estimate after a call. -/
def perform (mt : MergeTimeout) : Call → MergeTimeout
  | .addTime time proposer => { mt with
      cptList := mt.cptList ++ [time]
      cptProposerList := mt.cptProposerList ++ [proposer] }
  | .timeOut nodeIndex isByz byz => mt.timeOut u nodeIndex isByz byz
  | .saveSamplePerEpoch => { mt with cptList := [], cptProposerList := [] }

/-- All values of the filter are within the range of the samples. -/
structure InRange (bound : ℚ) (mt : MergeTimeout) : Prop where
  rcpt : mt.rcpt ∈ Icc 0 bound
  rcptVar : mt.rcptVar ∈ Icc 0 bound
  samples : ∀ x ∈ mt.cptList, x ∈ Icc 0 bound
  alpha : mt.alpha ∈ Icc 0 1
  beta : mt.beta ∈ Icc 0 1

variable {u : FloatUnit} {bound : ℚ} {mt : MergeTimeout}

section

variable (h : mt.InRange bound) (hbound : 0 ≤ bound)

include h hbound

/-- So is the average of the samples. -/
theorem InRange.getSampleRpt (nodeIndex : ℤ) : mt.getSampleRpt nodeIndex ∈ Icc 0 bound := by
  have hsamples : ∀ x ∈ mt.samplesWithout [nodeIndex], x ∈ Icc 0 bound := by
    intro x hx
    obtain ⟨⟨y, proposer⟩, hmem, rfl⟩ := List.mem_map.mp hx
    exact h.samples y (List.of_mem_zip (List.mem_filter.mp hmem).1).1
  unfold MergeTimeout.getSampleRpt
  split
  · exact ⟨le_refl 0, hbound⟩
  · rename_i hne
    exact mean_mem_Icc hne hsamples

/-- An update keeps the values within the range. -/
theorem InRange.timeOut (nodeIndex : ℤ) (isByz : Bool) (byz : List ℤ) :
    (mt.timeOut u nodeIndex isByz byz).InRange bound ∧
      (mt.getSampleRpt nodeIndex ≠ 0 → WithinBounds bound (mt.timeOut u nodeIndex isByz byz).rcpt
        (mt.timeOut u nodeIndex isByz byz).rcptVar
        (mt.timeOut u nodeIndex isByz byz).timeout) := by
  have hfilter := filter_mem_Icc h.alpha h.beta h.rcpt h.rcptVar
    (h.getSampleRpt hbound nodeIndex) rfl rfl
  unfold MergeTimeout.timeOut
  dsimp only
  split
  · rename_i hzero
    exact ⟨⟨h.rcpt, h.rcptVar, h.samples, h.alpha, h.beta⟩, fun hne => absurd hzero hne⟩
  · exact ⟨⟨hfilter.1, hfilter.2, h.samples, h.alpha, h.beta⟩,
      fun _ => withinBounds_of_mem_Icc hfilter⟩

/-- Every call keeps them within it. -/
theorem InRange.perform {call : Call}
    (hsample : ∀ time proposer, call = .addTime time proposer → time ∈ Icc 0 bound) :
    (mt.perform u call).InRange bound := by
  cases call with
  | addTime time proposer =>
    refine ⟨h.rcpt, h.rcptVar, ?_, h.alpha, h.beta⟩
    intro x hx
    obtain hold | hnew := List.mem_append.mp hx
    · exact h.samples x hold
    · exact List.mem_singleton.mp hnew ▸ hsample time proposer rfl
  | timeOut nodeIndex isByz byz => exact (h.timeOut hbound nodeIndex isByz byz).1
  | saveSamplePerEpoch => exact ⟨h.rcpt, h.rcptVar, by simp [MergeTimeout.perform], h.alpha, h.beta⟩

end

end MergeTimeout

/-- With samples up to a bound, estimate and deviation stay in their range, and the timeout after an
update is between the estimate and five times the bound: per block as long as `TimeOut` is called
with a weight of at most one, and per group always. -/
theorem estimator_bounds (u : FloatUnit) (dataSize : ℕ) (timeout : ℚ) {bound : ℚ}
    (hbound : 0 ≤ bound) :
    (∀ calls bpt,
      (∀ time proposer, .addTime time proposer ∈ calls → time ∈ Icc 0 bound) →
      (estimator u dataSize timeout).Meets BlockProposeTimeout.WeightAtMostOne
        (.new dataSize timeout) calls →
      (estimator u dataSize timeout).run calls = some bpt →
      (bpt.rcpt ∈ Icc 0 bound ∧ bpt.rcptVar ∈ Icc 0 bound) ∧
      ∀ nodeIndex isByz byz bpt', bpt.beta ≤ 1 → bpt.Updates nodeIndex →
        bpt.timeOut u 4 nodeIndex isByz byz = bpt' →
        WithinBounds bound bpt'.rcpt bpt'.rcptVar bpt'.timeout ∧
        bpt'.milliseconds.1 = ⌊1000 * bpt'.timeout⌋) ∧
    ∀ (calls : List MergeTimeout.Call) mt,
      (∀ time proposer, .addTime time proposer ∈ calls → time ∈ Icc 0 bound) →
      calls.foldl (MergeTimeout.perform u) (.new timeout) = mt →
      (mt.rcpt ∈ Icc 0 bound ∧ mt.rcptVar ∈ Icc 0 bound) ∧
      ∀ nodeIndex isByz byz mt', mt.getSampleRpt nodeIndex ≠ 0 →
        mt.timeOut u nodeIndex isByz byz = mt' →
        WithinBounds bound mt'.rcpt mt'.rcptVar mt'.timeout := by
  have hzero : (0 : ℚ) ∈ Icc 0 bound := ⟨le_refl 0, hbound⟩
  constructor
  · intro calls bpt hsamples hmeets hrun
    have hinit : (new dataSize timeout).InRange bound :=
      ⟨hzero, hzero, hzero, by norm_num [new], by norm_num [new]⟩
    have hend : bpt.InRange bound := by
      refine Machine.run_invariant hinit ?_ (hmeets.and_forall fun call hcall =>
        (fun time proposer heq => hsamples time proposer (heq ▸ hcall) :
          ∀ time proposer, call = .addTime time proposer → time ∈ Icc 0 bound)) hrun
      intro s call s' hs hcall hstep
      exact hs.perform hcall.2 hcall.1 (toOption_eq_some.mp hstep)
    refine ⟨⟨hend.rcpt, hend.rcptVar⟩, ?_⟩
    rintro nodeIndex isByz byz bpt' hbeta hupdates rfl
    rw [timeOut_of_updates hupdates]
    have hnext := hend.update hbeta u 4 nodeIndex isByz byz
    have hwithin := withinBounds_of_mem_Icc ⟨hnext.rcpt, hnext.rcptVar⟩
    refine ⟨hwithin, truncate_eq_floor (mul_nonneg (by norm_num) ?_)⟩
    exact hnext.rcpt.1.trans hwithin.2.1
  · rintro calls mt hsamples rfl
    have hend : (calls.foldl (MergeTimeout.perform u) (.new timeout)).InRange bound := by
      refine List.foldlRecOn calls _ ⟨hzero, hzero, by simp [MergeTimeout.new],
        by norm_num [MergeTimeout.new], by norm_num [MergeTimeout.new]⟩ ?_
      intro mt hmt call hcall
      exact hmt.perform hbound fun time proposer heq => hsamples time proposer (heq ▸ hcall)
    refine ⟨⟨hend.rcpt, hend.rcptVar⟩, ?_⟩
    rintro nodeIndex isByz byz mt' hne rfl
    exact (hend.timeOut hbound nodeIndex isByz byz).2 hne

namespace MonitorSample

/-- After code 1 has been used eight times, the weight is 21/20: the deviation becomes negative, and
the timeout is below the estimate. -/
theorem deviation_negative :
    ∃ bpt, (estimator unit 8 3).run
        (List.replicate 8 (.adjustParameters 1) ++
          [.addTime 1 1, .timeOut 0 false [], .addTime (1 / 8) 1, .timeOut 0 false []]) = some bpt ∧
      bpt.rcptVar < 0 ∧ bpt.timeout < bpt.rcpt :=
  ⟨_, rfl, by decide +kernel, by decide +kernel⟩

/-- The values after a first sample. -/
theorem estimator_bounds_first :
    ∃ bpt, (estimator unit 8 3).run [.addTime 1 1, .timeOut 0 false []] =
        some bpt ∧ bpt.rcpt ∈ Icc 0 1 ∧ bpt.rcptVar ∈ Icc 0 1 := by
  obtain ⟨bpt, hrun⟩ : ∃ bpt, (estimator unit 8 3).run
      [.addTime 1 1, .timeOut 0 false []] = some bpt := ⟨_, rfl⟩
  refine ⟨bpt, hrun, ((estimator_bounds unit 8 3 zero_le_one).1 _ _ ?_ ?_ hrun).1⟩
  · intro time proposer hmem
    obtain ⟨rfl, -⟩ : time = 1 ∧ proposer = 1 := by simpa using hmem
    simp
  · refine ⟨trivial, fun s hs => ⟨?_, fun _ _ => trivial⟩⟩
    cases hs
    norm_num [BlockProposeTimeout.WeightAtMostOne, addTime, new]

end MonitorSample

/-! ### Equal samples -/

namespace BlockProposeTimeout

variable {u : FloatUnit} {bpt bpt' : BlockProposeTimeout} {calls : List Call} {dataSize : ℕ}
  {timeout : ℚ}

/-- The number of updates in a list of calls. -/
def countUpdates (u : FloatUnit) (bpt : BlockProposeTimeout) : List Call → ℕ
  | [] => 0
  | .addTime time proposer :: rest => countUpdates u (bpt.addTime time proposer) rest
  | .timeOut nodeIndex isByz byz :: rest =>
    (if bpt.Updates nodeIndex then 1 else 0) +
      countUpdates u (bpt.timeOut u 4 nodeIndex isByz byz) rest
  | .adjustParameters _ :: rest => countUpdates u bpt rest

/-- A call in a network where every block of another proposer takes the same time. -/
def StableCall (nodeIndex : ℤ) (sample : ℚ) : Call → Prop
  | .addTime time proposer => proposer ≠ nodeIndex → time = sample
  | .timeOut index _ _ => index = nodeIndex
  | .adjustParameters _ => False

/-- The timeout after some updates with equal samples. -/
def stableTimeout (sample : ℚ) (k : ℕ) : ℚ :=
  sample * (1 + 6 * (7 / 8) ^ k - 7 * (3 / 4) ^ k)

/-- The values of the filter after some updates with equal samples. -/
structure Settling (nodeIndex : ℤ) (sample first : ℚ) (k : ℕ) (bpt : BlockProposeTimeout) :
    Prop where
  alpha : bpt.alpha = 1 / 8
  beta : bpt.beta = 1 / 4
  rcpt : bpt.rcpt = sample * (1 - (7 / 8) ^ k)
  rcptVar : bpt.rcptVar = 7 / 4 * sample * ((7 / 8) ^ k - (3 / 4) ^ k)
  timeout : bpt.timeout = if k = 0 then first else stableTimeout sample k
  last : bpt.proposer ≠ nodeIndex → bpt.sampleRcpt = 0 ∨ bpt.sampleRcpt = sample

variable {sample first : ℚ} {nodeIndex : ℤ} {k : ℕ}

/-- An update goes on to the next values. -/
theorem Settling.update (hsample : 0 < sample) (h : Settling nodeIndex sample first k bpt)
    (hupdates : bpt.Updates nodeIndex) (isByz : Bool) (byz : List ℤ) :
    Settling nodeIndex sample first (k + 1) (bpt.update u 4 nodeIndex isByz byz) := by
  have hlast : bpt.sampleRcpt = sample := (h.last hupdates.2.symm).resolve_left hupdates.1
  have hrcpt : (1 - bpt.alpha) * bpt.rcpt + bpt.alpha * bpt.sampleRcpt =
      sample * (1 - (7 / 8) ^ (k + 1)) := by
    rw [h.alpha, h.rcpt, hlast]
    ring
  have hdev : |bpt.sampleRcpt - sample * (1 - (7 / 8) ^ (k + 1))| = sample * (7 / 8) ^ (k + 1) := by
    rw [hlast, abs_of_nonneg]
    · ring
    · have hpos : 0 < sample * (7 / 8) ^ (k + 1) := by positivity
      linarith
  have hvar : (1 - bpt.beta) * bpt.rcptVar + bpt.beta * (sample * (7 / 8) ^ (k + 1)) =
      7 / 4 * sample * ((7 / 8) ^ (k + 1) - (3 / 4) ^ (k + 1)) := by
    rw [h.beta, h.rcptVar]
    ring
  refine ⟨h.alpha, h.beta, hrcpt, ?_, ?_, h.last⟩
  · dsimp only [BlockProposeTimeout.update]
    rw [hrcpt, hdev, hvar]
  · dsimp only [BlockProposeTimeout.update]
    rw [hrcpt, hdev, hvar, if_neg (Nat.succ_ne_zero k), stableTimeout]
    ring

/-- The closed form along a list of calls. -/
theorem Settling.run (hsample : 0 < sample) (h : Settling nodeIndex sample first k bpt)
    (hcalls : ∀ call ∈ calls, StableCall nodeIndex sample call)
    (hrun : (estimator u dataSize timeout).runFrom bpt calls = some bpt') :
    Settling nodeIndex sample first (k + bpt.countUpdates u calls) bpt' := by
  induction calls generalizing bpt k with
  | nil => exact Option.some.inj hrun ▸ h
  | cons call rest ih =>
    obtain ⟨hcall, hrest⟩ := List.forall_mem_cons.mp hcalls
    obtain ⟨next, hnext, hrun⟩ := Machine.runFrom_cons.mp hrun
    cases call with
    | addTime time proposer =>
      cases hnext
      exact ih ⟨h.alpha, h.beta, h.rcpt, h.rcptVar, h.timeout, fun hne => .inr (hcall hne)⟩ hrest
        hrun
    | timeOut index isByz byz =>
      cases hnext
      obtain rfl : index = nodeIndex := hcall
      rw [countUpdates, ← Nat.add_assoc]
      by_cases hupdates : bpt.Updates index
      · rw [if_pos hupdates]
        rw [timeOut_of_updates hupdates] at hrun ⊢
        exact ih (h.update hsample hupdates isByz byz) hrest hrun
      · rw [if_neg hupdates]
        rw [timeOut_of_not_updates hupdates] at hrun ⊢
        exact ih h hrest hrun
    | adjustParameters code => exact hcall.elim

end BlockProposeTimeout

end NimbleChain.Tendermint
