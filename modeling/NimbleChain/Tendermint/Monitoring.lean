import NimbleChain.Common.Execution
import NimbleChain.Tendermint.Pcc

/-!
# Monitoring intervals

The part of `finalizeCommit` that keeps the statistics of the monitoring intervals. Every commit
appends the data of its height to the lists of the current interval. A height that is a multiple of
`SmallMI` ends a small interval: the service sees its data, and the first timeout of the next one is
computed. A multiple of `MI` ends an interval: the next entry of the request is used, or the service
chooses new ones. In between, the timeout is updated at the end of each epoch.
-/

namespace NimbleChain.Tendermint

open Common

variable (pcct : PCCTimeout)

/-- The lengths of the intervals and the switches of the configuration. -/
structure MonitorConfig where
  mi : ℕ
  smallMI : ℕ
  epoch : ℕ
  k : ℤ
  updateLevel : UpdateLevel
  update : Bool
  kUpdate : Bool
  byzantineNodeList : List ℤ
  mi_pos : 0 < mi
  smallMI_pos : 0 < smallMI
  epoch_pos : 0 < epoch

/-- What the service answers to `RunRLJ`. -/
structure RljAnswer where
  timeout : ℚ
  byzTimeout : ℚ
  deriving DecidableEq

/-- What a commit reads besides the statistics. Without a line of the ping command there is no
call of `RunRLJ`. -/
structure CommitInput where
  proposer : ℤ
  round : ℤ
  validatorsSize : ℤ
  isLeader : Bool
  idInt : ℤ
  bct : ℚ
  actaulTimeout : ℚ
  predictTimeout : ℚ
  cost : HeightCost
  latency : ℚ
  txNum : ℤ
  tps : Option ℚ
  spcCode : ℤ
  pccAnswer : PccAnswer
  rljAnswer : Option RljAnswer
  deriving DecidableEq

/-- The statistics of the consensus state. Durations are in nanoseconds; `records` is a history
that nothing reads. -/
structure Monitor where
  height : ℕ
  pcc : PCCTimeout
  miNumber : ℕ
  smallMiofMi : ℕ
  bctListofMI : List ℚ
  proposerListofMI : List ℤ
  ptl : ProposeTimeList
  isByzNode : Bool
  timeoutPropose : ℤ
  currentProposeTime : ℤ
  epochMultiple : ℚ
  blockMultiple : ℚ
  records : List HeightRecord
  deriving DecidableEq

/-- Nanoseconds of a millisecond. -/
def millisecond : ℤ := 1000000

namespace Monitor

variable (u : FloatUnit) (cfg : MonitorConfig)

/-- A node that starts before it commits the given height. -/
def start (height : ℕ) (idInt timeoutPropose currentProposeTime : ℤ) (answer : PccAnswer) :
    Monitor where
  height := height
  pcc := initPCC cfg.mi cfg.smallMI cfg.k answer
  miNumber := 0
  smallMiofMi := 0
  bctListofMI := []
  proposerListofMI := []
  ptl := .new cfg.updateLevel cfg.epoch cfg.smallMI ((timeoutPropose : ℚ) / (1000 * millisecond))
  isByzNode := idInt ∈ cfg.byzantineNodeList
  timeoutPropose := timeoutPropose
  currentProposeTime := currentProposeTime
  epochMultiple := 3
  blockMultiple := 4
  records := []

variable (s : Monitor)

/-- `new_Mi_index`. -/
def newMiIndex : ℤ :=
  s.miNumber * cfg.smallMI

/-- `data_index`: the position of the height in its epoch. -/
def dataIndex : ℤ :=
  let index := ((s.height : ℤ) - s.newMiIndex cfg).tmod cfg.epoch - 1
  if index = -1 then cfg.epoch - 1 else index

variable (i : CommitInput) (midata : MIData)

/-- The data of the height that is committed. -/
def heightRecord : HeightRecord where
  height := s.height
  isLeader := i.isLeader
  proposer := (i.proposer + i.round).tmod i.validatorsSize
  isByzNode := s.isByzNode
  actaulTimeout := i.actaulTimeout
  predictTimeout := i.predictTimeout
  byzTimeout := (s.currentProposeTime.tdiv millisecond : ℤ)
  round := i.round
  cost := i.cost
  latency := i.latency
  txNum := i.txNum

/-- The data of the height is appended to all lists. -/
def record : Except Crash Monitor := do
  let ptl ← s.ptl.addTime i.bct (s.dataIndex cfg) i.proposer
  let midata ← s.pcc.current
  return { s with
    ptl := ptl
    proposerListofMI := s.proposerListofMI ++ [i.proposer]
    bctListofMI := s.bctListofMI ++ [i.bct]
    pcc := s.pcc.setCurrent (midata.append (s.heightRecord i))
    records := s.records ++ [s.heightRecord i] }

/-- The index of the node among the validators decides whether it is Byzantine. -/
def noteIndex (idInt : ℤ) : Monitor :=
  { s with isByzNode := s.isByzNode || decide (idInt ∈ cfg.byzantineNodeList) }

/-- The samples that `computeFirstTimeout` uses at the level epoch, with their proposers. -/
def firstSamples (size : ℕ) : Except Crash (List ℚ × List ℤ) :=
  if s.bctListofMI.length ≠ cfg.smallMI ∧ s.bctListofMI.length < cfg.epoch then
    .ok (s.bctListofMI, s.proposerListofMI)
  else if s.bctListofMI.length = cfg.smallMI ∧ s.proposerListofMI.length ≠ cfg.smallMI then
    .error (.message "the error of the proposer of MI")
  else do
    let samples ← sliceFrom ((cfg.smallMI : ℤ) - size) s.bctListofMI
    let proposers ← sliceFrom ((cfg.smallMI : ℤ) - size) s.proposerListofMI
    return (samples, proposers)

/-- `computeFirstTimeout`: the timeout and the timeout of a Byzantine node, in milliseconds. -/
def computeFirstTimeout (size : ℕ) (idInt : ℤ) : Except Crash (Monitor × ℤ × ℤ) := do
  let s := s.noteIndex cfg idInt
  match cfg.updateLevel with
  | .epoch =>
    let (samples, proposers) ← s.firstSamples cfg size
    let timeout := estimate u s.epochMultiple samples
    if s.isByzNode then
      let byzSamples ← honestSamples cfg.byzantineNodeList samples proposers
      return (s, toMilliseconds u timeout, toMilliseconds u (estimate u s.epochMultiple byzSamples))
    else return (s, toMilliseconds u timeout, toMilliseconds u timeout)
  | .block =>
    match s.ptl with
    | .block bpt =>
      let bpt := bpt.timeOut u s.blockMultiple idInt s.isByzNode cfg.byzantineNodeList
      return ({ s with ptl := .block bpt },
        toMilliseconds u (some (bpt.milliseconds.1 / 1000 : ℚ)),
        toMilliseconds u (some (bpt.milliseconds.2 / 1000 : ℚ)))
    | _ => return (s, 0, 0)
  | .merge => return (s, 0, 0)

/-- The code of the service changes the parameters, and the small interval is counted. -/
def adjust (code : ℤ) : Except Crash Monitor := do
  let ptl ← s.ptl.adjustParameters code
  return { s with ptl := ptl, smallMiofMi := s.smallMiofMi + 1, miNumber := s.miNumber + 1 }

/-- The first timeout of the next small interval is set, and the lists are cleared. -/
def setFirstTimeout (timeout byzTimeout : ℤ) : Monitor :=
  { s with
    currentProposeTime := byzTimeout * millisecond
    timeoutPropose := if cfg.update then timeout * millisecond else s.timeoutPropose
    ptl := s.ptl.clear cfg.epoch
    proposerListofMI := []
    bctListofMI := [] }

/-- What `finalizeCommit` does at the end of a small interval. -/
def endSmallMI : Except Crash Monitor := do
  let code ← s.pcc.runSpc s.smallMiofMi i.spcCode
  let s ← s.adjust code
  let (s, timeout, byzTimeout) ← s.computeFirstTimeout u cfg cfg.epoch i.idInt
  return s.setFirstTimeout cfg timeout byzTimeout

/-- The lengths that are checked at the end of a full interval. -/
def checkLengths : Except Crash PCCTimeout :=
  if (midata.actaulTimeoutList.length : ℤ) ≠ pcct.mi then
    .error (.message "ps requst sampledata list error")
  else if (midata.predictTimeoutList.length : ℤ) ≠ pcct.mi then
    .error (.message "ps requst predict_data list error")
  else if (midata.byzTimeoutList.length : ℤ) ≠ pcct.mi then
    .error (.message "ps requst byzTimeout list error")
  else if (midata.round.length : ℤ) ≠ pcct.mi then .error (.message "ps requst round list error")
  else if (midata.costList.length : ℤ) ≠ pcct.mi then .error (.message "ps requst cost list error")
  else .ok pcct

/-- An interval of another length than the service expects is recorded again. -/
def clearOrCheck : Except Crash PCCTimeout :=
  if (midata.height.length : ℤ) ≠ pcct.mi then pcct.clear else checkLengths pcct midata

/-- The entry of the interval is closed. -/
def closeEntry (tps : Option ℚ) : Except Crash PCCTimeout := do
  let midata ← pcct.current
  let pcct ← clearOrCheck (pcct.setCurrent { midata with tps := tps }) midata
  return { pcct with excutedNumber := pcct.excutedNumber + 1 }

/-- When all entries are used, the service is asked for new ones. -/
def renewEntries (answer : PccAnswer) : Except Crash PCCTimeout :=
  if pcct.sizeNumber = pcct.excutedNumber then pcct.runPCC answer else pure pcct

/-- The multiple of the standard deviation that the service has chosen for the next interval. -/
def updateMultiple : Except Crash Monitor :=
  if cfg.kUpdate then
    match cfg.updateLevel with
    | .epoch => do
      let size ← elementAt .sizeList s.pcc.sizeList s.pcc.excutedNumber
      return { s with epochMultiple := size }
    | .block => do
      let size ← elementAt .sizeList s.pcc.sizeList s.pcc.excutedNumber
      return { s with blockMultiple := size }
    | .merge => .ok s
  else .ok s

/-- What `finalizeCommit` does at the end of an interval. -/
def endMI : Except Crash Monitor := do
  let pcct ← closeEntry s.pcc i.tps
  let pcct ← renewEntries pcct i.pccAnswer
  updateMultiple cfg { s with smallMiofMi := 0, pcc := pcct }

/-- The list of the level, after `TimeOut` has been called for the log. -/
def callTimeOut (idInt : ℤ) : Except Crash Monitor :=
  match s.ptl with
  | .epoch ept => do
    let _ ← ept.timeOut u s.epochMultiple s.isByzNode cfg.byzantineNodeList
    return s
  | .block bpt => .ok
      { s with ptl := .block (bpt.timeOut u s.blockMultiple idInt s.isByzNode
          cfg.byzantineNodeList) }
  | .merge => .ok s

/-- The timeouts that the service has learned are set. -/
def setTimeout (answer : RljAnswer) : Monitor :=
  { s with
    currentProposeTime := truncate answer.byzTimeout * millisecond
    timeoutPropose := if cfg.update then truncate answer.timeout * millisecond else s.timeoutPropose
    ptl := if cfg.updateLevel = .epoch then .epoch (.new cfg.epoch) else s.ptl }

/-- `updateProposeTimeOut`. -/
def updateProposeTimeOut : Except Crash Monitor := do
  let s ← (s.noteIndex cfg i.idInt).callTimeOut u cfg i.idInt
  match i.rljAnswer with
  | none => return s
  | some answer =>
    let answer ← s.pcc.runRLJ s.height answer
    return s.setTimeout cfg answer

/-- The height may end a small interval. -/
def atSmallMI : Except Crash Monitor :=
  if s.height % cfg.smallMI = 0 then s.endSmallMI u cfg i else pure s

/-- The height may end an interval. -/
def atMI : Except Crash Monitor :=
  if s.height % cfg.mi = 0 then s.endMI cfg i else pure s

/-- The height may end an epoch inside a small interval. -/
def atEpoch (newMiIndex : ℤ) (i : CommitInput) : Except Crash Monitor :=
  if ((s.height : ℤ) - newMiIndex).tmod cfg.epoch = 0 ∧ s.height % cfg.smallMI ≠ 0 then
    s.updateProposeTimeOut u cfg i
  else pure s

/-- `finalizeCommit`. The position in the epoch is that from before the intervals ended. -/
def commit : Except Crash Monitor := do
  let newMiIndex := s.newMiIndex cfg
  let s ← s.record cfg i
  let s ← s.atSmallMI u cfg i
  let s ← s.atMI cfg i
  let s ← s.atEpoch u cfg newMiIndex i
  return { s with height := s.height + 1 }

/-- A node that commits one height after the other. -/
def machine (init : Monitor) : Machine Monitor CommitInput where
  init := init
  step s i := (s.commit u cfg i).toOption

theorem step_eq_some {u : FloatUnit} {cfg : MonitorConfig} {init s s' : Monitor} {i : CommitInput} :
    (machine u cfg init).step s i = some s' ↔ s.commit u cfg i = .ok s' := by
  change (s.commit u cfg i).toOption = some s' ↔ _
  cases s.commit u cfg i with
  | error crash => simp [Except.toOption]
  | ok next => simp [Except.toOption]

end Monitor

end NimbleChain.Tendermint
