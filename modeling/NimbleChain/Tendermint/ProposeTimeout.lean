import NimbleChain.Common.Returns

/-!
# Estimates of the propose timeout

The consensus state estimates the next propose timeout from how long proposals took, per epoch or
per block. Numbers of type `float64` are rational numbers here; a division by zero has no value. The
estimate of the update level merge is only written to the log.
-/

namespace NimbleChain.Tendermint

/-! ### Panics -/

/-- The lists that are read by an index. -/
inductive IndexedList where
  | miData
  | sizeList
  | completeBlockTime
  | proposerList
  | heightData
  deriving DecidableEq

/-- The panics of the interval bookkeeping. -/
inductive Crash where
  | indexOutOfRange (list : IndexedList)
  | sliceOutOfRange
  | nilClient
  | message (text : String)
  deriving DecidableEq

variable {α : Type}

/-- An element of a list. -/
def elementAt (list : IndexedList) (l : List α) (index : ℤ) : Except Crash α :=
  if index < 0 then .error (.indexOutOfRange list)
  else
    match l[index.toNat]? with
    | some x => .ok x
    | none => .error (.indexOutOfRange list)

/-- The part of a list between two positions. -/
def sliceOf (lo hi : ℕ) (l : List α) : Except Crash (List α) :=
  if hi ≤ l.length then .ok ((l.take hi).drop lo) else .error .sliceOutOfRange

/-- The part of a list from a position on. -/
def sliceFrom (lo : ℤ) (l : List α) : Except Crash (List α) :=
  if 0 ≤ lo ∧ lo ≤ l.length then .ok (l.drop lo.toNat) else .error .sliceOutOfRange

theorem elementAt_eq_ok {list : IndexedList} {l : List α} {index : ℤ} {x : α} :
    elementAt list l index = .ok x ↔ 0 ≤ index ∧ l[index.toNat]? = some x := by
  unfold elementAt
  split
  · constructor
    · intro h
      cases h
    · rintro ⟨hnonneg, -⟩
      omega
  · rename_i hnonneg
    cases hx : l[index.toNat]? with
    | none => simp
    | some y => simp [not_lt.mp hnonneg]

theorem elementAt_of_lt {list : IndexedList} {l : List α} {index : ℤ} (hnonneg : 0 ≤ index)
    (hlt : index < l.length) : ∃ x, elementAt list l index = .ok x := by
  have hbound : index.toNat < l.length := by omega
  exact ⟨l[index.toNat], elementAt_eq_ok.mpr ⟨hnonneg, List.getElem?_eq_getElem hbound⟩⟩

/-! ### Statistics -/

/-- What the arithmetic of the machine decides: square roots, and the integer that a conversion
makes of a value that is not a number. -/
structure FloatUnit where
  sqrt : ℚ → ℚ
  sqrt_nonneg : ∀ x, 0 ≤ sqrt x
  intOfNaN : ℤ

/-- The sum of the samples, divided by their number. -/
def mean (data : List ℚ) : ℚ :=
  data.foldl (· + ·) 0 / data.length

variable (u : FloatUnit)

/-- The standard deviation of the samples. -/
def deviation (data : List ℚ) : ℚ :=
  u.sqrt (data.foldl (fun sum value => sum + (value - mean data) * (value - mean data)) 0 /
    data.length)

/-- `mean_and_variance` of the consensus state and of the package epoch_base: without samples the
results are not numbers. -/
def meanAndVariance (data : List ℚ) : Option (ℚ × ℚ) :=
  if data = [] then none else some (mean data, deviation u data)

/-- `mean_and_variance` of the package block_base. -/
def meanAndVarianceOrZero (data : List ℚ) : ℚ × ℚ :=
  if data = [] then (0, 0) else (mean data, deviation u data)

/-- The conversion to an integer. -/
def truncate (x : ℚ) : ℤ :=
  x.num.tdiv x.den

/-- Seconds as a number of milliseconds. -/
def toMilliseconds : Option ℚ → ℤ
  | none => u.intOfNaN
  | some x => truncate (x * 1000)

/-- The mean plus a multiple of the standard deviation. -/
def estimate (multiple : ℚ) (data : List ℚ) : Option ℚ :=
  (meanAndVariance u data).map fun (mean, std) => mean + multiple * std

/-- The samples of blocks from proposers that are not Byzantine. -/
def honestSamples (byz : List ℤ) : List ℚ → List ℤ → Except Crash (List ℚ)
  | [], _ => .ok []
  | _ :: _, [] => .error (.indexOutOfRange .proposerList)
  | sample :: samples, proposer :: proposers => do
    let rest ← honestSamples byz samples proposers
    return if proposer ∈ byz then rest else sample :: rest

/-! ### The estimate per epoch -/

/-- The samples of an epoch, by position. -/
structure EpochProposeTimeout where
  completeBlockTime : List ℚ
  proposerList : List ℤ
  epochSize : ℤ
  deriving DecidableEq

namespace EpochProposeTimeout

/-- `NewEpochProposeTimeout`. -/
def new (epochSize : ℕ) : EpochProposeTimeout :=
  ⟨List.replicate epochSize 0, List.replicate epochSize 0, epochSize⟩

variable (ept : EpochProposeTimeout)

/-- `AddTime`. -/
def addTime (time : ℚ) (index : ℤ) (proposer : ℤ) :
    Except Crash EpochProposeTimeout := do
  let _ ← elementAt .completeBlockTime ept.completeBlockTime index
  let _ ← elementAt .proposerList ept.proposerList index
  return { ept with
    completeBlockTime := ept.completeBlockTime.set index.toNat time
    proposerList := ept.proposerList.set index.toNat proposer }

/-- `TimeOut`. -/
def timeOut (u : FloatUnit) (multiple : ℚ) (isByz : Bool) (byz : List ℤ) : Except Crash (ℤ × ℤ) :=
  let timeout := estimate u multiple ept.completeBlockTime
  if isByz then do
    let byzSamples ← (List.range ept.epochSize.toNat).mapM fun k => do
      let proposer ← elementAt .proposerList ept.proposerList k
      if proposer ∈ byz then return none
      else some <$> elementAt .completeBlockTime ept.completeBlockTime k
    return (toMilliseconds u timeout,
      toMilliseconds u (estimate u multiple byzSamples.reduceOption))
  else return (toMilliseconds u timeout, toMilliseconds u timeout)

/-- `AdjustParameters`. -/
def adjustParameters (code : ℤ) : Except Crash EpochProposeTimeout :=
  if code = 0 then .ok { ept with epochSize := ept.epochSize + 1 }
  else if code = 1 then .ok { ept with epochSize := ept.epochSize - 1 }
  else if code = 10 then .ok ept
  else .error (.message "The value of the code is unknown.")

end EpochProposeTimeout

/-! ### The estimate per block -/

/-- `Enqueue` of a queue with a capacity. -/
def enqueue (cap : ℕ) (items : List α) (item : α) : List α :=
  (if items.length = cap then items.tail else items) ++ [item]

/-- The low-pass filter over the samples, with the last samples and their proposers. -/
structure BlockProposeTimeout where
  rcpt : ℚ
  rcptVar : ℚ
  sampleRcpt : ℚ
  alpha : ℚ
  beta : ℚ
  timeout : ℚ
  dataSize : ℕ
  proposer : ℤ
  byzTimeout : ℚ
  cptList : List ℚ
  cptProposerList : List ℤ
  deriving DecidableEq

namespace BlockProposeTimeout

/-- `NewBlockProposeTimeout`. -/
def new (dataSize : ℕ) (timeout : ℚ) : BlockProposeTimeout where
  rcpt := 0
  rcptVar := 0
  sampleRcpt := 0
  alpha := 1 / 8
  beta := 1 / 4
  timeout := timeout
  dataSize := dataSize
  proposer := 0
  byzTimeout := timeout
  cptList := []
  cptProposerList := []

variable (bpt : BlockProposeTimeout)

/-- `AddTime`. -/
def addTime (time : ℚ) (proposer : ℤ) : BlockProposeTimeout :=
  { bpt with
    sampleRcpt := time
    cptList := enqueue bpt.dataSize bpt.cptList time
    cptProposerList := enqueue bpt.dataSize bpt.cptProposerList proposer
    proposer := proposer }

/-- The samples that a Byzantine node uses: its own blocks and those of the other Byzantine nodes
are left out. -/
def byzSamples (nodeIndex : ℤ) (byz : List ℤ) : List ℚ :=
  ((bpt.cptList.zip bpt.cptProposerList).filter fun (_, proposer) =>
    proposer ∉ byz ∧ proposer ≠ nodeIndex).map Prod.fst

variable (u : FloatUnit)

/-- The estimate of a Byzantine node. -/
def byzEstimate (nodeIndex : ℤ) (byz : List ℤ) : ℚ :=
  let stats := meanAndVarianceOrZero u (bpt.byzSamples nodeIndex byz)
  let byzTimeout := stats.1 + 3 * stats.2
  if byzTimeout = 0 then 1 / 2 else byzTimeout

/-- The update of the filter in `TimeOut`. -/
def update (multiple : ℚ) (nodeIndex : ℤ) (isByz : Bool) (byz : List ℤ) : BlockProposeTimeout :=
  let rcpt := (1 - bpt.alpha) * bpt.rcpt + bpt.alpha * bpt.sampleRcpt
  let timeVar := bpt.sampleRcpt - rcpt
  let rcptVar := (1 - bpt.beta) * bpt.rcptVar + bpt.beta * |timeVar|
  let timeout := rcpt + multiple * rcptVar
  { bpt with
    rcpt := rcpt
    rcptVar := rcptVar
    timeout := timeout
    byzTimeout := if isByz then bpt.byzEstimate u nodeIndex byz else timeout }

/-- `TimeOut`. A block of the node itself is no sample. -/
def timeOut (multiple : ℚ) (nodeIndex : ℤ) (isByz : Bool) (byz : List ℤ) : BlockProposeTimeout :=
  if bpt.sampleRcpt ≠ 0 ∧ nodeIndex ≠ bpt.proposer then bpt.update u multiple nodeIndex isByz byz
  else bpt

/-- What `TimeOut` returns. -/
def milliseconds : ℤ × ℤ :=
  (truncate (1000 * bpt.timeout), truncate (1000 * bpt.byzTimeout))

/-- `AdjustParameters`. -/
def adjustParameters (code : ℤ) : Except Crash BlockProposeTimeout :=
  if code = 0 then
    .ok { bpt with beta := if 1 ≤ bpt.beta + 1 / 10 then 99 / 100 else bpt.beta + 1 / 10 }
  else if code = 1 then
    .ok { bpt with beta := if bpt.beta + 1 / 10 ≤ 0 then 1 / 100 else bpt.beta + 1 / 10 }
  else if code = 2 then .ok bpt
  else .error (.message "The value of the code is unknown.")

/-- Only the weight of the deviation changes, and it stays positive. -/
theorem adjustParameters_eq_ok {bpt bpt' : BlockProposeTimeout} {code : ℤ}
    (h : bpt.adjustParameters code = .ok bpt') :
    ∃ beta, bpt' = { bpt with beta := beta } ∧ (0 < bpt.beta → 0 < beta) := by
  unfold adjustParameters at h
  split at h
  · exact ⟨_, (Except.ok.inj h).symm, fun hpos => by split <;> linarith⟩
  split at h
  · exact ⟨_, (Except.ok.inj h).symm, fun hpos => by split <;> linarith⟩
  split at h
  · exact ⟨bpt.beta, (Except.ok.inj h).symm, id⟩
  · cases h

end BlockProposeTimeout

/-! ### The list of the configured level -/

/-- `UpdateLevel`. -/
inductive UpdateLevel where
  | epoch
  | block
  | merge
  deriving DecidableEq

/-- The list `ptl` of the consensus state. The list of the level merge is read by nothing. -/
inductive ProposeTimeList where
  | epoch (ept : EpochProposeTimeout)
  | block (bpt : BlockProposeTimeout)
  | merge
  deriving DecidableEq

namespace ProposeTimeList

/-- The list that a new consensus state has. -/
def new (level : UpdateLevel) (epoch smallMI : ℕ) (timeout : ℚ) : ProposeTimeList :=
  match level with
  | .epoch => .epoch (.new epoch)
  | .block => .block (.new smallMI timeout)
  | .merge => .merge

def addTime (time : ℚ) (index proposer : ℤ) : ProposeTimeList → Except Crash ProposeTimeList
  | .epoch ept => .epoch <$> ept.addTime time index proposer
  | .block bpt => .ok (.block (bpt.addTime time proposer))
  | .merge => .ok .merge

def adjustParameters (code : ℤ) : ProposeTimeList → Except Crash ProposeTimeList
  | .epoch ept => .epoch <$> ept.adjustParameters code
  | .block bpt => .block <$> bpt.adjustParameters code
  | .merge => .ok .merge

/-- `Clear`. The estimate per block goes on. -/
def clear (epoch : ℕ) : ProposeTimeList → ProposeTimeList
  | .epoch _ => .epoch (.new epoch)
  | .block bpt => .block bpt
  | .merge => .merge

end ProposeTimeList

end NimbleChain.Tendermint
