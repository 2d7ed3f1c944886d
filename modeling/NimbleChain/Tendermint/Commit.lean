import NimbleChain.Tendermint.VoteSet

/-!
# Commits

How a commit is made of the votes of a set, `MakeCommit`, and read back, `GetVote` and
`CommitToVoteSet`, and how a validator set verifies the signatures of one: `VerifyCommit`,
`VerifyCommitLight` and `VerifyCommitLightTrusting` of `types/validator_set.go`.
-/

namespace NimbleChain.Tendermint

open Common Check

variable (cs : CommitSig) (H : HashFunction) (C : Crypto) (chainID : Bytes)

/-! ### Signatures of a commit -/

/-- `BlockID{}`. -/
def BlockID.empty : BlockID :=
  ⟨[], ⟨0, []⟩⟩

namespace CommitSig

/-- `NewCommitSigAbsent`. -/
def newAbsent : CommitSig :=
  ⟨blockIDFlagAbsent, [], .zero, []⟩

/-- `CommitSig.ForBlock`. -/
def forBlock : Bool :=
  cs.blockIDFlag = blockIDFlagCommit

/-- `CommitSig.Absent`. -/
def absent : Bool :=
  cs.blockIDFlag = blockIDFlagAbsent

/-- `CommitSig.BlockID`; `none` where it panics. -/
def blockID (commitBlockID : BlockID) : Option BlockID :=
  if cs.blockIDFlag = blockIDFlagAbsent then some .empty
  else if cs.blockIDFlag = blockIDFlagCommit then some commitBlockID
  else if cs.blockIDFlag = blockIDFlagNil then some .empty
  else none

end CommitSig

namespace Commit

/-- `Commit.GetVote`; `none` where it panics. -/
def getVote (commit : Commit) (valIdx : Int32) : Option Vote := do
  let commitSig ← if valIdx < 0 then none else commit.signatures[valIdx.toInt.toNat]?
  let blockID ← commitSig.blockID commit.blockID
  return {
    type := precommitType
    height := commit.height
    round := commit.round
    blockID := blockID
    timestamp := commitSig.timestamp
    validatorAddress := commitSig.validatorAddress
    validatorIndex := valIdx
    signature := commitSig.signature }

/-- `Commit.VoteSignBytes`; `none` where it panics. -/
def voteSignBytes (commit : Commit) (chainID : Bytes) (valIdx : Int32) : Option Bytes :=
  (commit.getVote valIdx).bind (Tendermint.voteSignBytes H chainID)

end Commit

/-- `Vote.CommitSig` of a vote that may be nil; `none` where it panics. -/
def Vote.commitSig : Option Vote → Option CommitSig
  | none => some .newAbsent
  | some vote =>
    if vote.blockID.isComplete H then
      some ⟨blockIDFlagCommit, vote.validatorAddress, vote.timestamp, vote.signature⟩
    else if vote.blockID.isZero then
      some ⟨blockIDFlagNil, vote.validatorAddress, vote.timestamp, vote.signature⟩
    else none

namespace VoteSet

/-- The loop of `MakeCommit`: a signature for a block other than the majority is left out. -/
def makeCommitSig (maj23 : BlockID) (vote : Option Vote) : Option CommitSig :=
  (Vote.commitSig H vote).map fun commitSig =>
    if commitSig.forBlock ∧ vote.map Vote.blockID ≠ some maj23 then .newAbsent else commitSig

/-- `MakeCommit`; `none` where it panics. -/
def makeCommit (vs : VoteSet) : Option Commit :=
  if vs.signedMsgType ≠ precommitType then none
  else do
    let maj23 ← vs.maj23
    let commitSigs ← vs.votes.mapM (makeCommitSig H maj23)
    return ⟨vs.height, vs.round, maj23, commitSigs⟩

end VoteSet

/-- The loop of `CommitToVoteSet`; `none` where it panics. -/
def addCommitSigs (commit : Commit) : Nat → List CommitSig → VoteSet → Option VoteSet
  | _, [], voteSet => some voteSet
  | idx, commitSig :: rest, voteSet =>
    if commitSig.absent then addCommitSigs commit (idx + 1) rest voteSet
    else
      match commit.getVote (Int32.ofNat idx) with
      | none => none
      | some vote =>
        match (VoteSet.addVote H C (some vote)).exec voteSet with
        | (.ok (true, none), voteSet) => addCommitSigs commit (idx + 1) rest voteSet
        | _ => none

/-- `CommitToVoteSet`; `none` where it panics. -/
def commitToVoteSet (commit : Commit) (vals : ValidatorSet) : Option VoteSet :=
  if commit.height = 0 then none
  else addCommitSigs H C commit 0 commit.signatures
    (.new chainID commit.height commit.round precommitType vals)

/-! ### Verification -/

/-- `tmmath.Fraction`. -/
structure Fraction where
  numerator : UInt64
  denominator : UInt64
  deriving DecidableEq

/-- The text of `ErrNotEnoughVotingPowerSigned`. -/
def notEnoughVotingPowerFormat : String :=
  "invalid commit -- insufficient voting power: got %d, needed more than %d"

namespace ValidatorSet

/-- `GetByAddress`: the position of a validator, and the validator. -/
def getByAddress (address : Bytes) : Nat → List (Option Validator) →
    Except Failure (Option (Nat × Validator))
  | _, [] => .ok none
  | _, none :: _ => .error .panic
  | idx, some val :: rest =>
    if val.address = address then .ok (some (idx, val)) else getByAddress address (idx + 1) rest

/-- The checks that `VerifyCommit` and `VerifyCommitLight` begin with. -/
def checkCommit (vals : ValidatorSet) (blockID : BlockID) (height : Int64) (commit : Commit) :
    Check := do
  failIf (vals.size ≠ commit.signatures.length)
    "Invalid commit -- wrong set size: %v vs %v" [vals.size, commit.signatures.length] []
  failIf (height ≠ commit.height)
    "Invalid commit -- wrong height: %v vs %v" [height.toInt, commit.height.toInt] []
  failIf (blockID ≠ commit.blockID)
    "invalid commit -- wrong block ID: want %v, got %v" [] [blockID.hash, commit.blockID.hash]

/-- The validation of one signature of a commit by the key of a validator. -/
def checkSignature (commit : Commit) (idx : Nat) (commitSig : CommitSig)
    (val : Validator) : Check := do
  let voteSignBytes ← orPanic (commit.voteSignBytes H chainID (Int32.ofNat idx))
  let pubKey ← orPanic val.pubKey
  failIf (!C.verifySignature pubKey voteSignBytes commitSig.signature)
    "wrong signature (#%d): %X" [idx] [commitSig.signature]

variable (vals : ValidatorSet) (chainID : Bytes) (commit : Commit)

/-- The loop of `VerifyCommit`, which checks every signature and counts those for the block. -/
def talliedVotingPower : Nat → List CommitSig → Int64 → Except Failure Int64
  | _, [], tallied => .ok tallied
  | idx, commitSig :: rest, tallied =>
    if commitSig.absent then talliedVotingPower (idx + 1) rest tallied
    else do
      let val ← orPanic vals.validators[idx]?.join
      checkSignature H C chainID commit idx commitSig val
      talliedVotingPower (idx + 1) rest
        (if commitSig.forBlock then tallied + val.votingPower else tallied)

/-- `ErrNotEnoughVotingPowerSigned`. -/
def notEnoughVotingPower (got needed : Int64) : Check :=
  fail notEnoughVotingPowerFormat [got.toInt, needed.toInt] []

/-- `VerifyCommit`. -/
def verifyCommit (blockID : BlockID) (height : Int64) (commit : Commit) : Check := do
  vals.checkCommit blockID height commit
  let total ← vals.totalVotingPower
  let votingPowerNeeded := total * 2 / 3
  let tallied ← vals.talliedVotingPower H C chainID commit 0 commit.signatures 0
  if tallied ≤ votingPowerNeeded then notEnoughVotingPower tallied votingPowerNeeded
  else pure ()

/-- The loop of `VerifyCommitLight`, which returns as soon as the power suffices. -/
def reachVotingPower (needed : Int64) : Nat → List CommitSig → Int64 → Check
  | _, [], tallied => notEnoughVotingPower tallied needed
  | idx, commitSig :: rest, tallied =>
    if !commitSig.forBlock then reachVotingPower needed (idx + 1) rest tallied
    else do
      let val ← orPanic vals.validators[idx]?.join
      checkSignature H C chainID commit idx commitSig val
      if tallied + val.votingPower > needed then pure ()
      else reachVotingPower needed (idx + 1) rest (tallied + val.votingPower)

/-- `VerifyCommitLight`. -/
def verifyCommitLight (blockID : BlockID) (height : Int64) (commit : Commit) : Check := do
  vals.checkCommit blockID height commit
  let total ← vals.totalVotingPower
  vals.reachVotingPower H C chainID commit (total * 2 / 3) 0 commit.signatures 0

/-- The loop of `VerifyCommitLightTrusting`. The validators seen so far are kept with the position
of their signature. -/
def reachTrustLevel (needed : Int64) :
    Nat → List CommitSig → List (Int32 × Nat) → Int64 → Check
  | _, [], _, tallied => notEnoughVotingPower tallied needed
  | idx, commitSig :: rest, seenVals, tallied =>
    if !commitSig.forBlock then reachTrustLevel needed (idx + 1) rest seenVals tallied
    else do
      match ← getByAddress commitSig.validatorAddress 0 vals.validators with
      | none => reachTrustLevel needed (idx + 1) rest seenVals tallied
      | some (valIdx, val) =>
        match seenVals.lookup (Int32.ofNat valIdx) with
        | some firstIndex =>
          fail "double vote from %v (%d and %d)" [firstIndex, idx] [val.address]
        | none =>
          checkSignature H C chainID commit idx commitSig val
          if tallied + val.votingPower > needed then pure ()
          else
            reachTrustLevel needed (idx + 1) rest
              ((Int32.ofNat valIdx, idx) :: seenVals) (tallied + val.votingPower)

/-- `VerifyCommitLightTrusting`. -/
def verifyCommitLightTrusting (trustLevel : Fraction) : Check := do
  failIf (trustLevel.denominator = 0) "trustLevel has zero Denominator" [] []
  let total ← vals.totalVotingPower
  match safeMul total trustLevel.numerator.toInt64 with
  | none =>
    fail ("int64 overflow while calculating voting power needed. " ++
      "please provide smaller trustLevel numerator") [] []
  | some product =>
    vals.reachTrustLevel H C chainID commit (product / trustLevel.denominator.toInt64) 0
      commit.signatures [] 0

end ValidatorSet

end NimbleChain.Tendermint
