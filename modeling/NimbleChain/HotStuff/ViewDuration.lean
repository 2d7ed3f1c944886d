import NimbleChain.Common.Execution

/-!
# The duration of a view

`synchronizer/viewduration.go`. The timeout is multiplied after a failed view and estimated anew
from a successful one whose duration was measured. The field `max` is documented as its upper bound,
but no code reads it. Numbers are exact; times are milliseconds.
-/

namespace NimbleChain.HotStuff

open Common

/-- `viewDuration`, without what is only logged. There is no start time before the first view. -/
structure ViewDuration where
  mul : ℚ
  count : ℕ
  startTime : Option ℚ
  mean : ℚ
  m2 : ℚ
  max : ℚ
  timeout : ℚ
  deriving DecidableEq

namespace ViewDuration

variable (v : ViewDuration) (startTimeout maxTimeout multiplier now : ℚ)

/-- The weight of the mean. -/
def a : ℚ := 7 / 8

/-- The weight of the deviation. -/
def b : ℚ := 3 / 4

/-- How many deviations are added to the mean. -/
def k : ℚ := 4

/-- `NewViewDuration`. -/
def new : ViewDuration :=
  ⟨multiplier, 0, none, startTimeout, 20, maxTimeout, startTimeout⟩

/-- The duration of the current view, if it is not ignored. -/
def measured : Option ℚ :=
  v.startTime.bind fun start => if now - start < 30 then none else some (now - start)

/-- The mean with one more duration. -/
def nextMean (duration : ℚ) : ℚ :=
  a * v.mean + (1 - a) * duration

/-- The deviation with one more duration. -/
def nextM2 (duration : ℚ) : ℚ :=
  if v.nextMean duration > duration then b * v.m2 + (1 - b) * (v.nextMean duration - duration)
  else b * v.m2 + (1 - b) * (duration - v.nextMean duration)

/-- The timeout after one more duration. -/
def nextTimeout (duration : ℚ) : ℚ :=
  if v.count + 1 < 30000 then 350 else v.nextMean duration + k * v.nextM2 duration

/-- `ViewSucceeded`. -/
def viewSucceeded : ViewDuration :=
  match v.measured now with
  | none => v
  | some duration =>
    { v with
      count := v.count + 1
      mean := v.nextMean duration
      m2 := v.nextM2 duration
      timeout := v.nextTimeout duration }

/-- `ViewTimeout`. -/
def viewTimeout : ViewDuration :=
  { v with timeout := v.timeout * v.mul }

/-- `ViewStarted`. -/
def viewStarted : ViewDuration :=
  if v.startTime.any (now - · < 30) then v else { v with startTime := some now }

/-- `Duration`, in nanoseconds before they are truncated. -/
def duration : ℚ :=
  v.timeout * 1000000

/-- The calls of the synchronizer, with the time at which they are made. -/
inductive Call where
  | viewStarted (now : ℚ)
  | viewSucceeded (now : ℚ)
  | viewTimeout

/-- The state after a call. -/
def perform : Call → ViewDuration
  | .viewStarted now => v.viewStarted now
  | .viewSucceeded now => v.viewSucceeded now
  | .viewTimeout => v.viewTimeout

/-- The runs of the calls. -/
def machine : Machine ViewDuration Call where
  init := new startTimeout maxTimeout multiplier
  step v call := some (v.perform call)

/-- The failed views since the last measured success, after one more call. -/
def failures (failed : ℕ) : Call → ℕ
  | .viewStarted _ => failed
  | .viewSucceeded now => if (v.measured now).isSome then 0 else failed
  | .viewTimeout => failed + 1

/-- The measured durations are at most `longest`, and between measured successes at most `limit`
views fail. -/
def Moderate (longest : ℚ) (limit : ℕ) : ViewDuration → ℕ → List Call → Prop
  | _, _, [] => True
  | v, failed, call :: rest =>
    v.failures failed call ≤ limit ∧
      (∀ now d, call = .viewSucceeded now → v.measured now = some d → d ≤ longest) ∧
      Moderate longest limit (v.perform call) (v.failures failed call) rest

variable {v v' : ViewDuration} {now d start max mul mul' longest base : ℚ} {calls : List Call}
  {failed limit total : ℕ}

/-- Short views are not measured. -/
theorem le_of_measured (h : v.measured now = some d) : 30 ≤ d := by
  obtain ⟨start, -, h⟩ := Option.bind_eq_some_iff.mp h
  split at h
  · cases h
  · rename_i hlong
    exact Option.some.inj h ▸ not_lt.mp hlong

/-- What holds after every call: the timeout is at most some base, multiplied once per failed view,
and the estimate is within the measured durations. -/
structure Bounded (mul longest base : ℚ) (failed : ℕ) (v : ViewDuration) : Prop where
  mul_eq : v.mul = mul
  timeout_pos : 0 < v.timeout
  timeout_le : v.timeout ≤ base * mul ^ failed
  mean_nonneg : 0 ≤ v.mean
  mean_le : v.mean ≤ longest
  m2_nonneg : 0 ≤ v.m2
  m2_le : v.m2 ≤ longest

/-- The mean stays within the measured durations. -/
theorem nextMean_spec (hmean : 0 ≤ v.mean) (hle : v.mean ≤ longest) (hd : 30 ≤ d)
    (hlong : d ≤ longest) : 0 < v.nextMean d ∧ v.nextMean d ≤ longest := by
  unfold nextMean a
  constructor <;> linarith

/-- So does the deviation. -/
theorem nextM2_spec (hm2 : 0 ≤ v.m2) (hle : v.m2 ≤ longest) (hmean : 0 < v.nextMean d)
    (hmean_le : v.nextMean d ≤ longest) (hd : 30 ≤ d) (hlong : d ≤ longest) :
    0 ≤ v.nextM2 d ∧ v.nextM2 d ≤ longest := by
  unfold nextM2 b
  split <;> constructor <;> linarith

/-- A call keeps the bounds, if the base allows what a success may set. -/
theorem Bounded.perform (h : Bounded mul longest base failed v) (hmul : 1 < mul) {call : Call}
    (hlong : ∀ now d, call = .viewSucceeded now → v.measured now = some d → d ≤ longest)
    (hshort : 350 ≤ base) (hlate : 30000 ≤ v.count + 1 → 5 * longest ≤ base) :
    Bounded mul longest base (v.failures failed call) (v.perform call) := by
  cases call with
  | viewStarted now =>
    rw [ViewDuration.perform, viewStarted]
    split
    · exact h
    · exact { h with }
  | viewSucceeded now =>
    rw [ViewDuration.perform, viewSucceeded, failures]
    cases hmeasured : v.measured now with
    | none => exact h
    | some d =>
      have hd := le_of_measured hmeasured
      have hd' := hlong now d rfl hmeasured
      obtain ⟨hmean, hmean'⟩ := nextMean_spec h.mean_nonneg h.mean_le hd hd'
      obtain ⟨hm2, hm2'⟩ := nextM2_spec h.m2_nonneg h.m2_le hmean hmean' hd hd'
      have htimeout : 0 < v.nextTimeout d ∧ v.nextTimeout d ≤ base := by
        unfold nextTimeout k
        split
        · exact ⟨by norm_num, hshort⟩
        · rename_i hcount
          have := hlate (not_lt.mp hcount)
          constructor <;> linarith
      exact ⟨h.mul_eq, htimeout.1, by simpa using htimeout.2, hmean.le, hmean', hm2, hm2'⟩
  | viewTimeout =>
    refine ⟨h.mul_eq, mul_pos h.timeout_pos (by linarith [h.mul_eq]), ?_, h.mean_nonneg, h.mean_le,
      h.m2_nonneg, h.m2_le⟩
    change v.timeout * v.mul ≤ base * mul ^ (failed + 1)
    rw [h.mul_eq, pow_succ, ← mul_assoc]
    exact mul_le_mul_of_nonneg_right h.timeout_le (by linarith)

/-- At most one measurement is counted for each call. -/
theorem count_perform_le (call : Call) : (v.perform call).count ≤ v.count + 1 := by
  cases call with
  | viewStarted now =>
    rw [perform, viewStarted]
    split <;> exact Nat.le_succ _
  | viewSucceeded now =>
    rw [perform, viewSucceeded]
    split
    · exact Nat.le_succ _
    · exact Nat.le_refl _
  | viewTimeout => exact Nat.le_succ _

/-- Moderate calls keep the bounds. -/
theorem Bounded.runFrom (h : Bounded mul longest base failed v) (hmul : 1 < mul)
    (hshort : 350 ≤ base) (hlate : 30000 ≤ total → 5 * longest ≤ base) (hfailed : failed ≤ limit)
    (hcount : v.count + calls.length ≤ total) (hcalls : Moderate longest limit v failed calls)
    (hrun : (machine start max mul).runFrom v calls = some v') :
    ∃ failed' ≤ limit, Bounded mul longest base failed' v' := by
  induction calls generalizing v failed with
  | nil =>
    cases hrun
    exact ⟨failed, hfailed, h⟩
  | cons call rest ih =>
    obtain ⟨hnext, hlong, hrest⟩ := hcalls
    have hone := count_perform_le (v := v) call
    rw [List.length_cons] at hcount
    exact ih (h.perform hmul hlong hshort fun hmany => hlate (by omega)) hnext (by omega) hrest hrun

/-- Two states differ at most in the timeout and its multiplier. -/
def SameEstimate (v v' : ViewDuration) : Prop :=
  ∃ mul timeout, v' = { v with mul := mul, timeout := timeout }

/-- No call reads the timeout for the estimate. -/
theorem SameEstimate.perform (h : SameEstimate v v') (call : Call) :
    SameEstimate (v.perform call) (v'.perform call) := by
  obtain ⟨mul, timeout, rfl⟩ := h
  cases call with
  | viewStarted now =>
    simp only [ViewDuration.perform, viewStarted]
    split <;> exact ⟨mul, timeout, rfl⟩
  | viewSucceeded now =>
    change SameEstimate (match v.measured now with | none => _ | some _ => _)
      (match v.measured now with | none => _ | some _ => _)
    cases v.measured now <;> exact ⟨mul, _, rfl⟩
  | viewTimeout => exact ⟨mul, _, rfl⟩

/-- So the estimates of whole runs agree. -/
theorem SameEstimate.runFrom {w w' : ViewDuration} (h : SameEstimate v v')
    (hrun : (machine start max mul).runFrom v calls = some w)
    (hrun' : (machine start max mul').runFrom v' calls = some w') : SameEstimate w w' := by
  induction calls generalizing v v' with
  | nil =>
    cases hrun
    cases hrun'
    exact h
  | cons call rest ih => exact ih (h.perform call) hrun hrun'

/-- If the start timeout, the timeout 350 of the first measurements and, from 30000 calls on, five
times the longest duration are at most `max` after as many multiplications as views fail between
measured successes, the duration is positive and within it, and mean and deviation are not negative.
The timeout after a measured success does not depend on the failures before. -/
theorem view_duration_bounded (hmul : 1 < mul) (hstart : 0 < start) (hlong : start ≤ longest)
    (hdeviation : 20 ≤ longest) (hmax : start * mul ^ limit ≤ max)
    (hshort : 350 * mul ^ limit ≤ max)
    (hlate : 30000 ≤ calls.length → 5 * longest * mul ^ limit ≤ max)
    (hcalls : Moderate longest limit (new start max mul) 0 calls)
    (hrun : (machine start max mul).run calls = some v) :
    (0 < v.duration ∧ v.duration ≤ max * 1000000 ∧ 0 ≤ v.mean ∧ 0 ≤ v.m2) ∧
    ∀ mul' v' now d, (machine start max mul').run calls = some v' → v.measured now = some d →
      (v.viewSucceeded now).timeout = (v'.viewSucceeded now).timeout := by
  constructor
  · -- the largest timeout that may be multiplied as often as allowed
    have hpow : 0 < mul ^ limit := pow_pos (by linarith) limit
    have hinit : Bounded mul longest (max / mul ^ limit) 0 (new start max mul) :=
      ⟨rfl, hstart, by simpa [new] using (le_div_iff₀ hpow).mpr hmax, hstart.le, hlong,
        by norm_num [new], hdeviation⟩
    obtain ⟨failed, hfailed, hend⟩ := hinit.runFrom hmul ((le_div_iff₀ hpow).mpr hshort)
      (fun hmany => (le_div_iff₀ hpow).mpr (hlate hmany)) (Nat.zero_le limit) (Nat.zero_add _).le
      hcalls hrun
    have hpos := hend.timeout_pos
    have hbound : v.timeout ≤ max := by
      calc v.timeout ≤ max / mul ^ limit * mul ^ failed := hend.timeout_le
        _ ≤ max / mul ^ limit * mul ^ limit := by
          gcongr
          · exact div_nonneg ((mul_pos hstart hpow).le.trans hmax) hpow.le
          · exact hmul.le
        _ = max := div_mul_cancel₀ max hpow.ne'
    unfold duration
    exact ⟨by linarith, by linarith, hend.mean_nonneg, hend.m2_nonneg⟩
  · intro mul' v' now d hrun' hmeasured
    have hsame : SameEstimate (new start max mul) (new start max mul') := ⟨mul', start, rfl⟩
    obtain ⟨_, _, heq⟩ := hsame.runFrom hrun hrun'
    have hmeasured' : v'.measured now = some d := by
      rw [heq]
      exact hmeasured
    rw [viewSucceeded, viewSucceeded, hmeasured, hmeasured', heq]
    rfl

/-- A failed view and a successful one that took 50 milliseconds. -/
theorem view_duration_bounded_fifty :
    ∃ v, (machine 100 1000 2).run [.viewTimeout, .viewStarted 0, .viewSucceeded 50] = some v ∧
      0 < v.duration ∧ v.duration ≤ 1000 * 1000000 ∧
      ∀ v', (machine 100 1000 3).run [.viewTimeout, .viewStarted 0, .viewSucceeded 50] = some v' →
        (v.viewSucceeded 50).timeout = (v'.viewSucceeded 50).timeout := by
  obtain ⟨v, hrun⟩ : ∃ v, (machine 100 1000 2).run
      [.viewTimeout, .viewStarted 0, .viewSucceeded 50] = some v := ⟨_, rfl⟩
  have hcalls : Moderate 100 1 (new 100 1000 2) 0
      [.viewTimeout, .viewStarted 0, .viewSucceeded 50] := by
    refine ⟨le_rfl, nofun, le_rfl, nofun, by decide +kernel, ?_, trivial⟩
    rintro _ d ⟨⟩ hd
    have hfifty : measured { new 100 1000 2 with startTime := some 0 } 50 = some 50 := by
      decide +kernel
    cases hd.symm.trans hfifty
    norm_num
  obtain ⟨⟨hpos, hle, -⟩, hsame⟩ := view_duration_bounded one_lt_two (by norm_num) le_rfl
    (by norm_num) (by norm_num) (by norm_num) (by simp) hcalls hrun
  refine ⟨v, hrun, hpos, hle, fun v' hrun' => hsame 3 v' 50 50 hrun' ?_⟩
  cases hrun
  decide +kernel

/-- The first failed view exceeds the bound, and a successful view that is not measured keeps the
multiplied timeout. -/
theorem view_duration_exceeds_max :
    ((machine 100 100 2).run [.viewTimeout, .viewSucceeded 50]).map timeout = some 200 := by
  decide +kernel

end ViewDuration

end NimbleChain.HotStuff
