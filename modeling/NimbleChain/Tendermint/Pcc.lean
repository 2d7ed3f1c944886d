import NimbleChain.Tendermint.ProposeTimeout

/-!
# The service that learns the timeouts

The consensus state records data of every height in the entry of the current monitoring interval
and asks a remote service: at the end of a small interval (`RunSpc`), at the end of an epoch
(`RunRLJ`), and when as many intervals have been executed as the service asked for (`RunPCC`).
-/

namespace NimbleChain.Tendermint

/-! ### Data of the heights -/

/-- `Cost`. -/
structure HeightCost where
  viewChangeCost : ℤ
  threatCost : ℤ
  discretionary : ℤ
  flag : Bool
  deriving DecidableEq

/-- What is recorded when a height is committed. -/
structure HeightRecord where
  height : ℕ
  isLeader : Bool
  proposer : ℤ
  isByzNode : Bool
  actaulTimeout : ℚ
  predictTimeout : ℚ
  byzTimeout : ℚ
  round : ℤ
  cost : HeightCost
  latency : ℚ
  txNum : ℤ
  deriving DecidableEq

/-- `MIData`: one list for each field of a record. -/
structure MIData where
  height : List ℕ
  isLeader : List Bool
  proposerList : List ℤ
  isByzNode : List Bool
  actaulTimeoutList : List ℚ
  predictTimeoutList : List ℚ
  byzTimeoutList : List ℚ
  round : List ℤ
  costList : List HeightCost
  latencyList : List ℚ
  txNumList : List ℤ
  tps : Option ℚ
  deriving DecidableEq

variable (midata : MIData)

namespace MIData

variable (latencies : List ℚ) (costs : List HeightCost)

/-- `&pb.MIData{}`. -/
def empty : MIData :=
  ⟨[], [], [], [], [], [], [], [], [], [], [], some 0⟩

/-- The data of a height is appended to every list. -/
def append (r : HeightRecord) : MIData where
  height := midata.height ++ [r.height]
  isLeader := midata.isLeader ++ [r.isLeader]
  proposerList := midata.proposerList ++ [r.proposer]
  isByzNode := midata.isByzNode ++ [r.isByzNode]
  actaulTimeoutList := midata.actaulTimeoutList ++ [r.actaulTimeout]
  predictTimeoutList := midata.predictTimeoutList ++ [r.predictTimeout]
  byzTimeoutList := midata.byzTimeoutList ++ [r.byzTimeout]
  round := midata.round ++ [r.round]
  costList := midata.costList ++ [r.cost]
  latencyList := midata.latencyList ++ [r.latency]
  txNumList := midata.txNumList ++ [r.txNum]
  tps := midata.tps

/-- The latency without the discretionary part, summed over the heights. -/
def actaulLatency : ℚ :=
  (latencies.zip costs).foldl
    (fun sum (latency, cost) => sum + latency - (cost.discretionary : ℚ) / 1000) 0

/-- `Tps`, which is not a number without latency. -/
def tpsOf (txNums : List ℤ) : Option ℚ :=
  let latency := actaulLatency latencies costs
  if latency = 0 then none else some ((txNums.foldl (· + ·) 0 : ℤ) / latency)

end MIData

/-- `GetSMIDataFromMIData`. A slice beyond the end of a list panics: where the capacity of the list
allows it, the cost at such a position is a nil pointer. -/
def getSMIDataFromMIData (smiIndex smi : ℕ) : Except Crash MIData := do
  let lo := smiIndex * smi
  let hi := (smiIndex + 1) * smi
  let height ← sliceOf lo hi midata.height
  let isLeader ← sliceOf lo hi midata.isLeader
  let proposerList ← sliceOf lo hi midata.proposerList
  let isByzNode ← sliceOf lo hi midata.isByzNode
  let actaulTimeoutList ← sliceOf lo hi midata.actaulTimeoutList
  let predictTimeoutList ← sliceOf lo hi midata.predictTimeoutList
  let byzTimeoutList ← sliceOf lo hi midata.byzTimeoutList
  let round ← sliceOf lo hi midata.round
  let costList ← sliceOf lo hi midata.costList
  let latencyList ← sliceOf lo hi midata.latencyList
  let txNumList ← sliceOf lo hi midata.txNumList
  return ⟨height, isLeader, proposerList, isByzNode, actaulTimeoutList, predictTimeoutList,
    byzTimeoutList, round, costList, latencyList, txNumList,
    MIData.tpsOf latencyList costList txNumList⟩

/-- `GetAuxiliarydataofHeight`: the data of the last height. -/
def getAuxiliarydataofHeight (height : ℕ) : Except Crash HeightRecord := do
  let heightIndex : ℤ := midata.height.length - 1
  let last ← elementAt .heightData midata.height heightIndex
  if height ≠ last then throw (.message "the height error")
  else
    let isLeader ← elementAt .heightData midata.isLeader heightIndex
    let proposer ← elementAt .heightData midata.proposerList heightIndex
    let isByzNode ← elementAt .heightData midata.isByzNode heightIndex
    let actaulTimeout ← elementAt .heightData midata.actaulTimeoutList heightIndex
    let predictTimeout ← elementAt .heightData midata.predictTimeoutList heightIndex
    let byzTimeout ← elementAt .heightData midata.byzTimeoutList heightIndex
    let round ← elementAt .heightData midata.round heightIndex
    let cost ← elementAt .heightData midata.costList heightIndex
    let latency ← elementAt .heightData midata.latencyList heightIndex
    let txNum ← elementAt .heightData midata.txNumList heightIndex
    return ⟨height, isLeader, proposer, isByzNode, actaulTimeout, predictTimeout, byzTimeout, round,
      cost, latency, txNum⟩

/-! ### The service -/

/-- What the service answers to `InitPCC` and `RunPcc`. -/
structure PccAnswer where
  mi : ℤ
  miOfNumber : ℤ
  epochSizeList : List ℤ
  deriving DecidableEq

/-- `PCCTimeout`. The client is nil or not. -/
structure PCCTimeout where
  mi : ℤ
  smallMI : ℕ
  sizeNumber : ℤ
  excutedNumber : ℤ
  sizeList : List ℤ
  grpcService : Bool
  miData : List MIData
  deriving DecidableEq

/-- From this length on an interval counts as unbounded. -/
def pccLimit : ℤ := 10000000

/-- `InitPCC`. -/
def initPCC (mi smi : ℕ) (epochSize : ℤ) (answer : PccAnswer) : PCCTimeout :=
  if (mi : ℤ) > pccLimit then ⟨mi, smi, 1, 0, [epochSize], false, [.empty]⟩
  else ⟨answer.mi, smi, answer.miOfNumber, 0, answer.epochSizeList, true,
    answer.epochSizeList.map fun _ => .empty⟩

namespace PCCTimeout

variable (pcct : PCCTimeout) (midata : MIData)

/-- The entry of the current interval. -/
def current : Except Crash MIData :=
  elementAt .miData pcct.miData pcct.excutedNumber

/-- The entry of the current interval is replaced. -/
def setCurrent : PCCTimeout :=
  { pcct with miData := pcct.miData.set pcct.excutedNumber.toNat midata }

/-- A call of the service. -/
def call {β : Type} (answer : β) : Except Crash β :=
  if pcct.grpcService then .ok answer else .error .nilClient

/-- `RunPCC`. -/
def runPCC (answer : PccAnswer) : Except Crash PCCTimeout :=
  if pcct.mi > pccLimit then .ok pcct
  else do
    let res ← pcct.call answer
    return { pcct with
      excutedNumber := 0
      sizeNumber := res.miOfNumber
      mi := res.mi
      sizeList := res.epochSizeList
      miData := res.epochSizeList.map fun _ => .empty }

/-- `RunSpc`. -/
def runSpc (smiIndex : ℕ) (code : ℤ) : Except Crash ℤ := do
  let midata ← pcct.current
  let _ ← getSMIDataFromMIData midata smiIndex pcct.smallMI
  pcct.call code

/-- `Clear`. -/
def clear : Except Crash PCCTimeout := do
  let _ ← pcct.current
  return { pcct.setCurrent .empty with excutedNumber := pcct.excutedNumber - 1 }

/-- `RunRLJ`. -/
def runRLJ (height : ℕ) {β : Type} (answer : β) : Except Crash β := do
  let midata ← pcct.current
  let _ ← getAuxiliarydataofHeight midata height
  pcct.call answer

end PCCTimeout

end NimbleChain.Tendermint
