import NimbleChain.Tendermint.LightVerifier
import NimbleChain.Tendermint.BlockCodec

/-!
# The state between two blocks

`state/state.go`, `state/validation.go` and `types/time/time.go`. A proposer makes a block of the
state after the last block, a commit for that block, transactions and evidence; the other nodes
check its time against the same state. The time of the block is the median of the timestamps of
the commit, weighted by voting power.
-/

namespace NimbleChain.Tendermint

open Common Wire Check

variable (H : HashFunction) (C : Crypto)

/-! ### Weighted times -/

namespace Time

/-- `Time.UnixNano`, which wraps around outside of the years 1678 to 2262. -/
def unixNano (t : Time) : Int64 :=
  t.seconds * 1000000000 + Int64.ofNat t.nanos.val

end Time

/-- `WeightedTime`. -/
structure WeightedTime where
  time : Time
  weight : Int64
  deriving DecidableEq

namespace WeightedTime

/-- The order in which `WeightedMedian` sorts: nil comes last. -/
def less : Option WeightedTime → Option WeightedTime → Bool
  | none, _ => false
  | some _, none => true
  | some a, some b => a.time.unixNano < b.time.unixNano

/-- The order of the sorted slice. -/
def NotAfter (a b : Option WeightedTime) : Prop :=
  less b a = false

instance : DecidableRel NotAfter :=
  fun a b => inferInstanceAs (Decidable (less b a = false))

/-- The loop of `WeightedMedian`. -/
def scan : Int64 → List (Option WeightedTime) → Time
  | _, [] => Time.zero
  | median, none :: rest => scan median rest
  | median, some weightedTime :: rest =>
    if median ≤ weightedTime.weight then weightedTime.time
    else scan (median - weightedTime.weight) rest

end WeightedTime

/-- `WeightedMedian`. -/
def weightedMedian (weightedTimes : List (Option WeightedTime)) (totalVotingPower : Int64) : Time :=
  WeightedTime.scan (totalVotingPower / 2) (weightedTimes.insertionSort WeightedTime.NotAfter)

/-- The loop of `MedianTime`: the weighted times, nil for a signature that is not counted, and the
sum of their weights. -/
def weightedTimes (validators : ValidatorSet) :
    List CommitSig → Int64 → Except Failure (List (Option WeightedTime) × Int64)
  | [], totalVotingPower => .ok ([], totalVotingPower)
  | commitSig :: rest, totalVotingPower =>
    if commitSig.absent then do
      let (times, total) ← weightedTimes validators rest totalVotingPower
      return (none :: times, total)
    else do
      match ← ValidatorSet.getByAddress commitSig.validatorAddress 0 validators.validators with
      | none =>
        let (times, total) ← weightedTimes validators rest totalVotingPower
        return (none :: times, total)
      | some (_, validator) =>
        let (times, total) ←
          weightedTimes validators rest (totalVotingPower + validator.votingPower)
        return (some ⟨commitSig.timestamp, validator.votingPower⟩ :: times, total)

/-- `MedianTime`. -/
def medianTime (commit : Commit) (validators : ValidatorSet) : Except Failure Time := do
  let (times, total) ← weightedTimes validators commit.signatures 0
  return weightedMedian times total

/-! ### The state -/

/-- `BlockParams`. -/
structure BlockParams where
  maxBytes : Int64
  maxGas : Int64
  timeIotaMs : Int64
  deriving DecidableEq

/-- `EvidenceParams`. -/
structure EvidenceParams where
  maxAgeNumBlocks : Int64
  maxAgeDuration : Int64
  maxBytes : Int64
  deriving DecidableEq

/-- `ConsensusParams`, without the parameters for validator keys and the version. -/
structure ConsensusParams where
  block : BlockParams
  evidence : EvidenceParams
  deriving DecidableEq

/-- `HashConsensusParams`. -/
def hashConsensusParams (params : ConsensusParams) : Bytes :=
  H.sum (Wire.marshal
    [⟨1, scalar (int64 params.block.maxBytes)⟩, ⟨2, scalar (int64 params.block.maxGas)⟩])

/-- `state.State`, without the heights at which validators and parameters changed. -/
structure State where
  version : Consensus
  chainID : Bytes
  initialHeight : Int64
  lastBlockHeight : Int64
  lastBlockID : BlockID
  lastBlockTime : Time
  nextValidators : ValidatorSet
  validators : ValidatorSet
  lastValidators : ValidatorSet
  consensusParams : ConsensusParams
  lastResultsHash : Bytes
  appHash : Bytes
  deriving DecidableEq

/-! ### Making a block -/

/-- The header that `types.MakeBlock` begins with. -/
def Header.ofHeight (height : Int64) (delayTime deliverTime : Float64) : Header where
  version := ⟨blockProtocol, 0⟩
  chainID := []
  height := height
  time := Time.zero
  delayTime := delayTime
  deliverTime := deliverTime
  lastBlockID := BlockID.empty
  lastCommitHash := []
  dataHash := []
  validatorsHash := []
  nextValidatorsHash := []
  consensusHash := []
  appHash := []
  lastResultsHash := []
  evidenceHash := []
  proposerAddress := []

variable (state : State)

namespace State

/-- The time of the block that `MakeBlock` makes. -/
def blockTime (height : Int64) (commit : Commit) : Except Failure Time :=
  if height = state.initialHeight then .ok state.lastBlockTime
  else medianTime commit state.lastValidators

/-- `State.MakeBlock`; its second result is made from the block by `MakePartSet`. -/
def makeBlock (height : Int64) (delayTime deliverTime : Float64) (txs : List Bytes)
    (commit : Commit) (evidence : List Evidence) (proposerAddress : Bytes) :
    Except Failure Block := do
  let base : Block := ⟨Header.ofHeight height delayTime deliverTime, txs, evidence, some commit⟩
  let header ← orPanic (base.fillHeader H commit)
  let timestamp ← state.blockTime height commit
  let validatorsHash ← orPanic (state.validators.hash H)
  let nextValidatorsHash ← orPanic (state.nextValidators.hash H)
  return { base with
    header := { header with
      version := state.version
      chainID := state.chainID
      time := timestamp
      lastBlockID := state.lastBlockID
      validatorsHash := validatorsHash
      nextValidatorsHash := nextValidatorsHash
      consensusHash := hashConsensusParams H state.consensusParams
      appHash := state.appHash
      lastResultsHash := state.lastResultsHash
      proposerAddress := proposerAddress } }

/-! ### Validating a block -/

/-- The checks of the time of a block in `validateBlock`. -/
def checkBlockTime (height : Int64) (time : Time) (lastCommit : Commit) :
    Check :=
  if height > state.initialHeight then do
    failIf (!time.after state.lastBlockTime)
      "block time %v not greater than last block time %v"
      [time.seconds.toInt, state.lastBlockTime.seconds.toInt] []
    let medianTime ← medianTime lastCommit state.lastValidators
    failIf (time ≠ medianTime) "invalid block time. Expected %v, got %v"
      [medianTime.seconds.toInt, time.seconds.toInt] []
  else if height = state.initialHeight then
    failIf (time ≠ state.lastBlockTime) "block time %v is not equal to genesis time %v"
      [time.seconds.toInt, state.lastBlockTime.seconds.toInt] []
  else
    fail "block height %v lower than initial height %v"
      [height.toInt, state.initialHeight.toInt] []

end State

/-! ### The time of a vote -/

/-- `voteTime` of a node with a clock, the block it is locked on and the proposed one. The iota in
milliseconds is converted to nanoseconds in 64 bits. -/
def voteTime (now : Time) (lockedBlock proposalBlock : Option Block) (timeIotaMs : Int64) : Time :=
  let timeIota := timeIotaMs * 1000000
  let minVoteTime :=
    match lockedBlock, proposalBlock with
    | some block, _ => block.header.time.add timeIota
    | none, some block => block.header.time.add timeIota
    | none, none => now
  if now.after minVoteTime then now else minVoteTime

end NimbleChain.Tendermint
