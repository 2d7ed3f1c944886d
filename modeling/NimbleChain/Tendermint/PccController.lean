import NimbleChain.Tendermint.EstimatorBounds

/-!
# The controller that learns the multiple

`pcc.py`: the sizes that the service answers to `RunPCC`, of which the consensus state takes the
multiple of the standard deviation. The controller doubles the size while the throughput grows, then
compares sizes around it and moves in the better direction. Numbers are exact, and a throughput may
be no number.
-/

namespace NimbleChain.Tendermint

open Common

/-- `phase`. -/
inductive PccPhase where
  | startingState
  | decisionMakingState
  | rateAdjustingState
  deriving DecidableEq

/-- `Pcc`, without what is only logged. -/
structure Pcc where
  phase : PccPhase
  epochSize : ℤ
  utilityValue : ℚ
  step : ℤ
  dir : ℤ
  miOfNumber : ℕ
  epochSizeList : List ℤ
  deriving DecidableEq

namespace Pcc

/-- `__init__`. -/
def init (epochSize : ℤ) : Pcc :=
  ⟨.startingState, epochSize, 0, 1, 0, 1, [epochSize]⟩

variable (p : Pcc) (tps : Option ℚ)

/-- One interval with the current size. -/
def single : Pcc :=
  { p with miOfNumber := 1, epochSizeList := [p.epochSize] }

/-- Four intervals with sizes on both sides of the current one. -/
def explore : Pcc :=
  { p with
    miOfNumber := 4
    epochSizeList := [p.epochSize + p.step, p.epochSize - p.step, p.epochSize - p.step,
      p.epochSize + p.step] }

/-- `x > y`, which is false if one of them is no number. -/
def exceeds (x y : Option ℚ) : Bool :=
  x.any fun a => y.any (· < a)

/-- The throughput is above the best one so far. -/
def improves : Bool :=
  exceeds tps (some p.utilityValue)

/-- The size moves on while the throughput grows, and back to be compared with others. -/
def advance (next back : ℤ) : Pcc :=
  if p.improves tps then { p with utilityValue := tps.getD 0, epochSize := next }.single
  else { p with phase := .decisionMakingState, epochSize := back }.explore

/-- `starting_state`. -/
def startingState : Pcc :=
  p.advance tps (2 * p.epochSize) (p.epochSize.tdiv 2)

/-- The direction that both comparisons favour, or 0. -/
def direction (reward1 reward2 reward3 reward4 : Option ℚ) : ℤ :=
  if exceeds reward1 reward2 ∧ exceeds reward4 reward3 then 1
  else if exceeds reward2 reward1 ∧ exceeds reward3 reward4 then -1
  else 0

/-- `decision_making_state` with the direction that the rewards favour. -/
def decisionMakingState (dir : ℤ) : Pcc :=
  if dir = 0 then { p with dir := 0, step := p.step * 2 }.explore
  else
    { p with
      phase := .rateAdjustingState
      step := 1
      dir := dir
      epochSize := p.epochSize + dir
      utilityValue := 0 }.single

/-- `rate_adjusting_state`. -/
def rateAdjustingState : Pcc :=
  p.advance tps (p.epochSize + p.dir) (p.epochSize - p.dir)

/-- `run` with the throughputs of the intervals; `none` where an index is out of range, even after
the sizes are saved. -/
def run (data : List (Option ℚ)) : Option Pcc :=
  if p.epochSizeList.length < data.length then none
  else
    match p.phase, data with
    | .startingState, tps :: _ => some (p.startingState tps)
    | .decisionMakingState, reward1 :: reward2 :: reward3 :: reward4 :: _ =>
      some (p.decisionMakingState (direction reward1 reward2 reward3 reward4))
    | .rateAdjustingState, tps :: _ => some (p.rateAdjustingState tps)
    | _, _ => none

/-- The runs of the controller. -/
def controller (epochSize : ℤ) : Machine Pcc (List (Option ℚ)) where
  init := init epochSize
  step := run

/-- The data has as many entries as requested. -/
def Requested (p : Pcc) (data : List (Option ℚ)) : Prop :=
  data.length = p.miOfNumber

/-- The rewards favour no direction. -/
def undecided : List (Option ℚ) → Bool
  | [reward1, reward2, reward3, reward4] => direction reward1 reward2 reward3 reward4 = 0
  | _ => false

/-- After `failed` undecided comparisons, at most `limit` in a row are. -/
def Decisive (limit : ℕ) : ℕ → List (List (Option ℚ)) → Prop
  | _, [] => True
  | failed, data :: rest =>
    (undecided data → failed < limit) ∧
      Decisive limit (if undecided data then failed + 1 else 0) rest

/-- How many intervals a phase requests. -/
def intervals : PccPhase → ℕ
  | .decisionMakingState => 4
  | _ => 1

/-- The numbers of sizes and of intervals belong to the phase. -/
def Shaped (p : Pcc) : Prop :=
  p.epochSizeList.length = p.miOfNumber ∧ p.miOfNumber = intervals p.phase

/-- The size is large enough for some calls, of which at most `limit` in a row are undecided. -/
def Room (limit left failed : ℕ) (p : Pcc) : Prop :=
  match p.phase with
  | .startingState => p.step = 1 ∧ 2 * (2 ^ limit + left) ≤ p.epochSize
  | .decisionMakingState => p.step = 2 ^ failed ∧ 2 ^ limit + left < p.epochSize
  | .rateAdjustingState =>
    p.step = 1 ∧ -1 ≤ p.dir ∧ p.dir ≤ 1 ∧ 2 ^ limit + left < p.epochSize

/-- All sizes are positive. -/
def Positive (p : Pcc) : Prop :=
  ∀ size ∈ p.epochSizeList, 1 ≤ size

variable {p p' : Pcc} {data : List (Option ℚ)} {limit left failed : ℕ}

/-- A single size needs to be positive itself. -/
theorem positive_single (h : 1 ≤ p.epochSize) : p.single.Positive :=
  List.forall_mem_singleton.mpr h

/-- Four sizes need one above the step. -/
theorem explore_spec (hphase : p.phase = .decisionMakingState) (hfailed : failed ≤ limit)
    (hstep : p.step = 2 ^ failed) (hroom : 2 ^ limit + left < p.epochSize) :
    p.explore.Room limit left failed ∧ p.explore.Positive := by
  have hpow : (2 : ℤ) ^ failed ≤ 2 ^ limit := pow_le_pow_right₀ one_le_two hfailed
  have hpos : (0 : ℤ) < 2 ^ failed := pow_pos two_pos failed
  constructor
  · rw [Room, explore, hphase]
    exact ⟨hstep, hroom⟩
  · intro size hsize
    simp only [explore, List.mem_cons, List.not_mem_nil, or_false] at hsize
    omega

/-- The numbers of sizes and of intervals fit after `advance`. -/
theorem advance_shaped (hphase : p.phase ≠ .decisionMakingState) (tps : Option ℚ) (next back : ℤ) :
    (p.advance tps next back).Shaped := by
  unfold advance
  split
  · refine ⟨rfl, ?_⟩
    change 1 = intervals p.phase
    unfold intervals
    split
    · contradiction
    · rfl
  · exact ⟨rfl, rfl⟩

/-- They fit after a comparison. -/
theorem decisionMakingState_shaped (hphase : p.phase = .decisionMakingState) (dir : ℤ) :
    (p.decisionMakingState dir).Shaped := by
  unfold decisionMakingState
  split
  · exact ⟨rfl, congrArg intervals hphase.symm⟩
  · exact ⟨rfl, rfl⟩

/-- The directions. -/
theorem direction_bounds (r1 r2 r3 r4 : Option ℚ) :
    -1 ≤ direction r1 r2 r3 r4 ∧ direction r1 r2 r3 r4 ≤ 1 := by
  unfold direction
  split
  · decide
  · split <;> decide

/-- A call with the requested data succeeds. -/
theorem run_spec (hshaped : p.Shaped) (hdata : p.Requested data) :
    ∃ p', p.run data = some p' ∧ p'.Shaped := by
  have hlength : data.length = intervals p.phase := hdata.trans hshaped.2
  unfold run
  rw [if_neg (hshaped.1.trans hdata.symm).not_lt]
  cases hphase : p.phase with
  | decisionMakingState =>
    rw [hphase] at hlength
    match data, hlength with
    | [r1, r2, r3, r4], _ => exact ⟨_, rfl, decisionMakingState_shaped hphase _⟩
  | startingState =>
    rw [hphase] at hlength
    match data, hlength with
    | [tps], _ => exact ⟨_, rfl, advance_shaped (by simp [hphase]) tps _ _⟩
  | rateAdjustingState =>
    rw [hphase] at hlength
    match data, hlength with
    | [tps], _ => exact ⟨_, rfl, advance_shaped (by simp [hphase]) tps _ _⟩

/-- The starting state doubles or halves the size. -/
theorem startingState_room (hphase : p.phase = .startingState) (hstep : p.step = 1)
    (hroom : 2 * (2 ^ limit + (left + 1 : ℕ)) ≤ p.epochSize) (tps : Option ℚ) :
    (p.startingState tps).Room limit left 0 ∧ (p.startingState tps).Positive := by
  have hpos : (0 : ℤ) < 2 ^ limit := pow_pos two_pos limit
  unfold startingState advance
  split
  · refine ⟨?_, positive_single (by change 1 ≤ 2 * p.epochSize; omega)⟩
    simp only [Room, single, hphase]
    exact ⟨hstep, by omega⟩
  · refine explore_spec rfl limit.zero_le hstep ?_
    change _ < p.epochSize.tdiv 2
    rw [Int.tdiv_eq_ediv_of_nonneg (by omega)]
    omega

/-- The adjusting state moves the size by one. -/
theorem rateAdjustingState_room (hphase : p.phase = .rateAdjustingState) (hstep : p.step = 1)
    (hlower : -1 ≤ p.dir) (hupper : p.dir ≤ 1) (hroom : 2 ^ limit + (left + 1 : ℕ) < p.epochSize)
    (tps : Option ℚ) :
    (p.rateAdjustingState tps).Room limit left 0 ∧ (p.rateAdjustingState tps).Positive := by
  have hpos : (0 : ℤ) < 2 ^ limit := pow_pos two_pos limit
  unfold rateAdjustingState advance
  split
  · refine ⟨?_, positive_single (by change 1 ≤ p.epochSize + p.dir; omega)⟩
    simp only [Room, single, hphase]
    exact ⟨hstep, hlower, hupper, by omega⟩
  · exact explore_spec rfl limit.zero_le hstep (by change _ < p.epochSize - p.dir; omega)

/-- A comparison moves the size by one or doubles the step. -/
theorem decisionMakingState_room (hphase : p.phase = .decisionMakingState)
    (hstep : p.step = 2 ^ failed) (hroom : 2 ^ limit + (left + 1 : ℕ) < p.epochSize) {dir : ℤ}
    (hlower : -1 ≤ dir) (hupper : dir ≤ 1) (hfailed : dir = 0 → failed < limit) :
    (p.decisionMakingState dir).Room limit left (if dir = 0 then failed + 1 else 0) ∧
      (p.decisionMakingState dir).Positive := by
  have hpos : (0 : ℤ) < 2 ^ limit := pow_pos two_pos limit
  unfold decisionMakingState
  split
  · rename_i hzero
    exact explore_spec hphase (hfailed hzero) (by rw [pow_succ, ← hstep])
      (by change _ < p.epochSize; omega)
  · refine ⟨⟨rfl, hlower, hupper, ?_⟩,
      positive_single (by change 1 ≤ p.epochSize + dir; omega)⟩
    change _ < p.epochSize + dir
    omega

/-- A call takes one unit of room and leaves positive sizes. -/
theorem run_room (hshaped : p.Shaped) (hdata : p.Requested data)
    (hroom : p.Room limit (left + 1) failed) (hfailed : undecided data → failed < limit)
    (hrun : p.run data = some p') :
    p'.Room limit left (if undecided data then failed + 1 else 0) ∧ p'.Positive := by
  have hlength : data.length = intervals p.phase := hdata.trans hshaped.2
  unfold run at hrun
  rw [if_neg (hshaped.1.trans hdata.symm).not_lt] at hrun
  unfold Room at hroom
  cases hphase : p.phase with
  | decisionMakingState =>
    rw [hphase] at hlength hrun hroom
    match data, hlength with
    | [r1, r2, r3, r4], _ =>
      obtain ⟨hlower, hupper⟩ := direction_bounds r1 r2 r3 r4
      cases hrun
      simp only [undecided, decide_eq_true_eq] at hfailed ⊢
      exact decisionMakingState_room hphase hroom.1 hroom.2 hlower hupper hfailed
  | startingState =>
    rw [hphase] at hlength hrun hroom
    match data, hlength with
    | [tps], _ =>
      cases hrun
      exact startingState_room hphase hroom.1 hroom.2 tps
  | rateAdjustingState =>
    rw [hphase] at hlength hrun hroom
    match data, hlength with
    | [tps], _ =>
      obtain ⟨hstep, hlower, hupper, hroom⟩ := hroom
      cases hrun
      exact rateAdjustingState_room hphase hstep hlower hupper hroom tps

variable {size : ℤ} {calls rest : List (List (Option ℚ))} {grown : List ℚ}

/-- While the throughput grows, the size is doubled. -/
theorem runFrom_grown (size : ℤ) (hphase : p.phase = .startingState) (hshaped : p.Shaped)
    (hgrown : (p.utilityValue :: grown).IsChain (· < ·)) :
    ∃ p', (controller size).runFrom p (grown.map fun tps => [some tps]) = some p' ∧
      p'.phase = .startingState ∧ p'.Shaped ∧ p'.step = p.step ∧
      p'.epochSize = p.epochSize * 2 ^ grown.length ∧ (p.Positive → 1 ≤ p.epochSize →
        p'.Positive) := by
  induction grown generalizing p with
  | nil => exact ⟨p, rfl, hphase, hshaped, rfl, by simp, fun h _ => h⟩
  | cons tps rest ih =>
    obtain ⟨hlt, hrest⟩ := List.isChain_cons_cons.mp hgrown
    have himproves : p.improves (some tps) = true := by simp [improves, exceeds, hlt]
    have hstep : p.run [some tps] = some (p.startingState (some tps)) := by
      have hone : ¬ p.epochSizeList.length < 1 := by
        rw [hshaped.1, hshaped.2, hphase]
        decide
      simp [run, hphase, hone]
    have hnext : p.startingState (some tps) =
        { p with utilityValue := tps, epochSize := 2 * p.epochSize }.single := by
      simp [startingState, advance, himproves]
    obtain ⟨p', hrun, hphase', hshaped', hstep', hsize, hpos⟩ :=
      ih (p := p.startingState (some tps)) (by rw [hnext]; exact hphase)
        (advance_shaped (by simp [hphase]) _ _ _) (by rw [hnext]; exact hrest)
    rw [hnext] at hstep' hsize hpos
    refine ⟨p', ?_, hphase', hshaped', hstep', ?_, fun _ hone => hpos ?_ ?_⟩
    · exact Machine.runFrom_cons.mpr ⟨_, hstep, hrun⟩
    · rw [hsize, single, List.length_cons, pow_succ]
      ring
    · exact positive_single (by change 1 ≤ 2 * p.epochSize; omega)
    · change 1 ≤ 2 * p.epochSize
      omega

/-- Requested calls with enough room leave positive sizes. -/
theorem runFrom_room (hshaped : p.Shaped) (hpos : p.Positive)
    (hmeets : (controller size).Meets Requested p rest) (hroom : p.Room limit rest.length failed)
    (hdecisive : Decisive limit failed rest) :
    ∃ p', (controller size).runFrom p rest = some p' ∧ p'.Positive := by
  induction rest generalizing p failed with
  | nil => exact ⟨p, rfl, hpos⟩
  | cons data rest ih =>
    obtain ⟨p', hrun, hshaped'⟩ := run_spec hshaped hmeets.1
    obtain ⟨hroom', hpos'⟩ := run_room hshaped hmeets.1 hroom hdecisive.1 hrun
    obtain ⟨q, hq, hqpos⟩ := ih hshaped' hpos' (hmeets.2 p' hrun) hroom' hdecisive.2
    exact ⟨q, Machine.runFrom_cons.mpr ⟨p', hrun, hq⟩, hqpos⟩

/-- The multiple is one of the sizes in use. -/
theorem multiple_mem {cfg : MonitorConfig} {s s' : Monitor} (hk : cfg.kUpdate = true)
    (hupdate : s.updateMultiple cfg = .ok s') :
    (cfg.updateLevel = .epoch → ∃ k ∈ s.pcc.sizeList, s'.epochMultiple = k) ∧
    (cfg.updateLevel = .block → ∃ k ∈ s.pcc.sizeList, s'.blockMultiple = k) := by
  rw [Monitor.updateMultiple, if_pos hk] at hupdate
  constructor
  all_goals
    intro hlevel
    rw [hlevel] at hupdate
    obtain ⟨size, hsize, hs'⟩ := bind_eq_ok.mp hupdate
    exact ⟨size, List.mem_of_getElem? (elementAt_eq_ok.mp hsize).2, Except.ok.inj hs' ▸ rfl⟩

/-- Calls with the requested data succeed and request as many intervals as there are sizes. If the
throughput grows at first and the size is then large enough for the calls that follow and their
undecided comparisons, all sizes are positive. So the timeouts with the multiple taken from them, at
whatever index, are not below the estimated completion time. -/
theorem multiple_valid (hsize : 1 ≤ size) :
    ((controller size).Meets Requested (init size) calls →
      ∃ p, (controller size).run calls = some p ∧ p.epochSizeList.length = p.miOfNumber) ∧
    (calls = grown.map (fun tps => [some tps]) ++ rest → (0 :: grown).IsChain (· < ·) →
      (controller size).Meets Requested (init size) calls → Decisive limit 0 rest →
      2 * (2 ^ limit + rest.length) ≤ size * 2 ^ grown.length →
      ∃ p, (controller size).run calls = some p ∧ (∀ k ∈ p.epochSizeList, 1 ≤ k) ∧
        ∀ (cfg : MonitorConfig) (s s' : Monitor), s.pcc.sizeList = p.epochSizeList →
          cfg.kUpdate = true → s.updateMultiple cfg = .ok s' →
          (cfg.updateLevel = .epoch → ∀ (u : FloatUnit) (data : List ℚ), data ≠ [] →
            ∃ x, estimate u s'.epochMultiple data = some x ∧ mean data ≤ x) ∧
          (cfg.updateLevel = .block → ∀ (u : FloatUnit) (bpt : BlockProposeTimeout)
            (nodeIndex : ℤ) (isByz : Bool) (byz : List ℤ),
            0 ≤ bpt.rcptVar → 0 ≤ bpt.beta → bpt.beta ≤ 1 →
            (bpt.update u s'.blockMultiple nodeIndex isByz byz).rcpt ≤
              (bpt.update u s'.blockMultiple nodeIndex isByz byz).timeout)) := by
  constructor
  · intro hmeets
    obtain ⟨p, hrun, hshaped, -⟩ := Machine.exists_runFrom (I := Shaped) (R := fun _ _ => True)
      (fun _ => trivial) (fun _ _ _ _ _ => trivial) ⟨rfl, rfl⟩
      (fun p data hp hdata => (run_spec hp hdata).imp fun p' h => ⟨h.1, h.2, trivial⟩) hmeets
    exact ⟨p, hrun, hshaped.1⟩
  · rintro rfl hgrown hmeets hdecisive hroom
    obtain ⟨p, hp, hphase, hshaped, hstep, hepoch, hpos⟩ :=
      runFrom_grown (p := init size) size rfl ⟨rfl, rfl⟩ hgrown
    have hroom' : p.Room limit rest.length 0 := by
      rw [Room, hphase, hepoch]
      exact ⟨hstep, hroom⟩
    obtain ⟨q, hq, hsizes⟩ := runFrom_room hshaped
      (hpos (List.forall_mem_singleton.mpr hsize) hsize) (Machine.meets_of_append hmeets hp) hroom'
      hdecisive
    refine ⟨q, ?_, hsizes, ?_⟩
    · rw [Machine.run, Machine.runFrom_append]
      change ((controller size).runFrom (init size) _).bind _ = _
      rw [hp]
      exact hq
    intro cfg s s' hlist hk hupdate
    obtain ⟨hlevelEpoch, hlevelBlock⟩ := multiple_mem hk hupdate
    rw [hlist] at hlevelEpoch hlevelBlock
    have hnonneg : ∀ k ∈ q.epochSizeList, (0 : ℚ) ≤ (k : ℚ) := fun k hmem => by
      exact_mod_cast (hsizes k hmem).trans' zero_le_one
    constructor
    · intro hlevel u data hne
      obtain ⟨k, hmem, hmultiple⟩ := hlevelEpoch hlevel
      refine ⟨mean data + s'.epochMultiple * deviation u data,
        by simp [estimate, meanAndVariance, hne], le_add_of_nonneg_right ?_⟩
      exact mul_nonneg (hmultiple ▸ hnonneg k hmem) (deviation_nonneg u data)
    · intro hlevel u bpt nodeIndex isByz byz hvar hbeta hbeta'
      obtain ⟨k, hmem, hmultiple⟩ := hlevelBlock hlevel
      exact BlockProposeTimeout.rcpt_le_timeout (hmultiple ▸ hnonneg k hmem) hvar hbeta hbeta' u
        nodeIndex isByz byz

/-- Starting from 2, the size is doubled twice, halved and then increased. -/
theorem multiple_valid_two :
    ∃ p, (controller 2).run [[some 1], [some 2], [some 1], [some 3, some 1, some 1, some 3]] =
      some p ∧ (∀ k ∈ p.epochSizeList, 1 ≤ k) ∧ p.epochSizeList.length = p.miOfNumber := by
  have hgrows : exceeds (some 1) (some 0) = true ∧ exceeds (some 2) (some 1) = true := by
    decide +kernel
  have hfalls : exceeds (some 1) (some 2) = false := by decide +kernel
  have hup : direction (some 3) (some 1) (some 1) (some 3) = 1 := by decide +kernel
  have hmeets : (controller 2).Meets Requested (init 2)
      [[some 1], [some 2], [some 1], [some 3, some 1, some 1, some 3]] := by
    simp [Machine.Meets, controller, run, Requested, init, startingState, advance, single, explore,
      improves, hgrows, hfalls]
  have htheorem := @multiple_valid 0 2
    [[some 1], [some 2], [some 1], [some 3, some 1, some 1, some 3]]
    [[some 1], [some 3, some 1, some 1, some 3]] [1, 2] (by decide)
  obtain ⟨p, hrun, hsizes, -⟩ := htheorem.2 rfl (by norm_num) hmeets
    (by simp [Decisive, undecided, hup]) (by norm_num)
  obtain ⟨p', hrun', hlength⟩ := htheorem.1 hmeets
  cases hrun.symm.trans hrun'
  exact ⟨p, hrun, hsizes, hlength⟩

/-- A first interval without throughput halves the size 1 to 0, and the next sizes are negative. -/
theorem multiple_negative :
    ((controller 1).run [[some 0]]).map epochSizeList = some [1, -1, -1, 1] := by
  decide +kernel

end Pcc

end NimbleChain.Tendermint
