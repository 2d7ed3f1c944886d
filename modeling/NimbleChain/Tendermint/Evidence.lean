import NimbleChain.Tendermint.State
import NimbleChain.Tendermint.ValidatorUpdate

/-!
# Evidence of misbehaviour

`types/evidence.go` and `evidence/verify.go`. Evidence of two votes of one validator, or of a light
block that conflicts with the chain, is verified against the headers, commits and validator sets
that a node has stored.
-/

namespace NimbleChain.Tendermint

open Common Wire Check

variable (H : HashFunction) (C : Crypto)

/-! ### Evidence -/

/-- `Time.Sub`, which saturates. -/
def Time.sub (t u : Time) : Int64 :=
  let d := (t.seconds.toInt - u.seconds.toInt) * 1000000000 + (t.nanos.val - u.nanos.val : Int)
  if d > 9223372036854775807 then Int64.maxValue
  else if d < -9223372036854775808 then Int64.minValue
  else Int64.ofInt d

namespace LightClientAttackEvidence

variable (l : LightClientAttackEvidence)

/-- The header of the conflicting block, if no pointer to it is nil. -/
def header : Option Header :=
  (l.conflictingBlock.bind LightBlock.signedHeader).bind SignedHeader.header

/-- The commit of the conflicting block, if no pointer to it is nil. -/
def commit : Option Commit :=
  (l.conflictingBlock.bind LightBlock.signedHeader).bind SignedHeader.commit

/-- The validators of the conflicting block, if no pointer to them is nil. -/
def validatorSet : Option ValidatorSet :=
  l.conflictingBlock.bind LightBlock.validatorSet

end LightClientAttackEvidence

namespace Evidence

/-- `Evidence.Height`; `none` where it panics. -/
def height : Evidence → Option Int64
  | duplicateVote dve => dve.voteA.map Vote.height
  | lightClientAttack l => some l.commonHeight

/-- `Evidence.Time`. -/
def time : Evidence → Time
  | duplicateVote dve => dve.timestamp
  | lightClientAttack l => l.timestamp

end Evidence

/-- The types of `abci.Evidence`. -/
inductive EvidenceType where
  | duplicateVote
  | lightClientAttack
  deriving DecidableEq

/-- `abci.Evidence`, with the address and the power of the validator. -/
structure AbciEvidence where
  type : EvidenceType
  address : Bytes
  power : Int64
  height : Int64
  time : Time
  totalVotingPower : Int64
  deriving DecidableEq

/-- The ABCI evidence of one validator of a light client attack; its address is computed from its
key. -/
def LightClientAttackEvidence.abciEntry (l : LightClientAttackEvidence) (entry : Option Validator) :
    Except Failure AbciEvidence := do
  let val ← orPanic entry
  let key ← orPanic val.pubKey
  return ⟨.lightClientAttack, C.address key, val.votingPower, l.commonHeight, l.timestamp,
    l.totalVotingPower⟩

/-- `Evidence.ABCI`. -/
def Evidence.abci : Evidence → Except Failure (List AbciEvidence)
  | duplicateVote dve => do
    let voteA ← orPanic dve.voteA
    return [⟨.duplicateVote, voteA.validatorAddress, dve.validatorPower, voteA.height,
      dve.timestamp, dve.totalVotingPower⟩]
  | lightClientAttack l =>
    l.byzantineValidators.mapM (l.abciEntry C)

/-! ### The validators behind an attack -/

/-- `ConflictingHeaderIsInvalid`. -/
def conflictingHeaderIsInvalid (trustedHeader conflicting : Header) : Bool :=
  trustedHeader.validatorsHash ≠ conflicting.validatorsHash ∨
    trustedHeader.nextValidatorsHash ≠ conflicting.nextValidatorsHash ∨
    trustedHeader.consensusHash ≠ conflicting.consensusHash ∨
    trustedHeader.appHash ≠ conflicting.appHash ∨
    trustedHeader.lastResultsHash ≠ conflicting.lastResultsHash

/-- The loop of `GetByzantineValidators` for a lunatic attack: the common validators whose addresses
the signatures for the block carry. -/
def lunaticValidators (commonVals : ValidatorSet) :
    List CommitSig → Except Failure (List (Option Validator))
  | [] => .ok []
  | commitSig :: rest =>
    if !commitSig.forBlock then lunaticValidators commonVals rest
    else do
      match ← ValidatorSet.getByAddress commitSig.validatorAddress 0 commonVals.validators with
      | none => lunaticValidators commonVals rest
      | some (_, val) =>
        let validators ← lunaticValidators commonVals rest
        return some val :: validators

/-- The loop of `GetByzantineValidators` for an equivocation: for every position signed in both
commits, the validator of the conflicting set with the address of the first signature, or nil. -/
def equivocators (conflictingVals : ValidatorSet) :
    List CommitSig → List CommitSig → Except Failure (List (Option Validator))
  | [], _ => .ok []
  | sigA :: restA, trusted =>
    if sigA.absent then equivocators conflictingVals restA trusted.tail
    else do
      let sigB ← orPanic trusted.head?
      if sigB.absent then equivocators conflictingVals restA trusted.tail
      else
        let found ←
          ValidatorSet.getByAddress sigA.validatorAddress 0 conflictingVals.validators
        let validators ← equivocators conflictingVals restA trusted.tail
        return found.map Prod.snd :: validators

/-- `sort.Sort` by `ValidatorsByVotingPower` of pointers: comparing a nil pointer panics, and every
one of two or more is compared. -/
def sortByzantineValidators (validators : List (Option Validator)) :
    Except Failure (List (Option Validator)) :=
  if validators.length < 2 then .ok validators
  else do
    let validators ← validators.mapM orPanic
    return (sortByVotingPower validators).map some

/-- A header with its commit, as a node has stored them. -/
structure StoredHeader where
  header : Header
  commit : Commit
  deriving DecidableEq

/-- `GetByzantineValidators` for a conflicting header, commit and validator set. -/
def getByzantineValidators (header : Header) (commit : Commit) (validatorSet : Option ValidatorSet)
    (commonVals : ValidatorSet) (trusted : StoredHeader) :
    Except Failure (List (Option Validator)) :=
  if conflictingHeaderIsInvalid trusted.header header then do
    let validators ← lunaticValidators commonVals commit.signatures
    sortByzantineValidators validators
  else if trusted.commit.round = commit.round then do
    let conflictingVals ← orPanic validatorSet
    let validators ← equivocators conflictingVals commit.signatures trusted.commit.signatures
    sortByzantineValidators validators
  else .ok []

/-! ### Verification -/

/-- The part of `validateABCIEvidence` that compares the validators of the evidence with those
expected. -/
def compareValidators : List (Option Validator) → List (Option Validator) → Check
  | [], _ => pure ()
  | expected :: rest, listed => do
    let entry ← orPanic listed.head?.join
    let val ← orPanic expected
    failIf (entry.address ≠ val.address)
      "evidence contained an unexpected byzantine validator address; expected: %v, got: %v" []
      [val.address, entry.address]
    failIf (entry.votingPower ≠ val.votingPower)
      "evidence contained unexpected byzantine validator power; expected %d, got %d"
      [val.votingPower.toInt, entry.votingPower.toInt] []
    compareValidators rest listed.tail

/-- The text of the errors about the total voting power. -/
def totalPowerFormat : String :=
  "total voting power from the evidence and our validator set does not match (%d != %d)"

/-- `validateABCIEvidence`. An empty list of the evidence stands for nil. -/
def validateABCIEvidence (ev : LightClientAttackEvidence) (header : Header) (commit : Commit)
    (commonVals : ValidatorSet) (trusted : StoredHeader) : Check := do
  let valsTotal ← commonVals.totalVotingPower
  failIf (ev.totalVotingPower ≠ valsTotal) totalPowerFormat
    [ev.totalVotingPower.toInt, valsTotal.toInt] []
  let validators ← getByzantineValidators header commit ev.validatorSet commonVals trusted
  failIf (validators = [] ∧ ev.byzantineValidators ≠ [])
    "expected nil validators from an amnesia light client attack but got %d"
    [ev.byzantineValidators.length] []
  failIf (validators.length ≠ ev.byzantineValidators.length)
    "expected %d byzantine validators from evidence but got %d"
    [validators.length, ev.byzantineValidators.length] []
  compareValidators validators ev.byzantineValidators

/-- `light.DefaultTrustLevel`. -/
def defaultTrustLevel : Fraction :=
  ⟨1, 3⟩

/-- The check of `VerifyLightClientAttack` that the conflicting header deviates from the trusted
one. -/
def checkDeviation (header : Header) (trusted : Header) : Check :=
  if header.height > trusted.height ∧ header.time.after trusted.time then
    fail "conflicting block doesn't violate monotonically increasing time (%v is after %v)"
      [header.time.seconds.toInt, trusted.time.seconds.toInt] []
  else
    failIf (trusted.hash H = header.hash H)
      "trusted header hash matches the evidence's conflicting header hash: %X" [] [trusted.hash H]

/-- The check of `VerifyLightClientAttack` that leads from the common header to the conflicting
one. -/
def checkDerivation (header : Header) (commit : Commit) (commonHeader trusted : Header)
    (commonVals : ValidatorSet) : Check :=
  if commonHeader.height ≠ header.height then
    within "skipping verification of conflicting block failed: %w" []
      (commonVals.verifyCommitLightTrusting H C trusted.chainID commit defaultTrustLevel)
  else
    failIf (conflictingHeaderIsInvalid trusted header)
      ("common height is the same as conflicting block height so expected the conflicting" ++
        " block to be correctly derived yet it wasn't") [] []

/-- `VerifyLightClientAttack`. -/
def verifyLightClientAttack (e : LightClientAttackEvidence) (commonHeader trusted : StoredHeader)
    (commonVals : ValidatorSet) : Check := do
  let header ← orPanic e.header
  let commit ← orPanic e.commit
  checkDerivation H C header commit commonHeader.header trusted.header commonVals
  let validatorSet ← orPanic e.validatorSet
  within "invalid commit from conflicting block: %w" []
    (validatorSet.verifyCommitLight H C trusted.header.chainID commit.blockID header.height commit)
  let valsTotal ← commonVals.totalVotingPower
  failIf (e.totalVotingPower ≠ valsTotal) totalPowerFormat
    [e.totalVotingPower.toInt, valsTotal.toInt] []
  checkDeviation H header trusted.header
  validateABCIEvidence e header commit commonVals trusted

/-- One signature of `VerifyDuplicateVote`. -/
def checkVoteSignature (chainID : Bytes) (pubKey : PubKey) (vote : Vote) (format : String) :
    Check := do
  let signBytes ← orPanic (voteSignBytes H chainID vote)
  within format []
    (failIf (!C.verifySignature pubKey signBytes vote.signature) "invalid signature" [] [])

/-- `VerifyDuplicateVote`. -/
def verifyDuplicateVote (e : DuplicateVoteEvidence) (chainID : Bytes) (valSet : ValidatorSet) :
    Check := do
  let voteA ← orPanic e.voteA
  match ← ValidatorSet.getByAddress voteA.validatorAddress 0 valSet.validators with
  | none =>
    fail "address %X was not a validator at height %d" [voteA.height.toInt]
      [voteA.validatorAddress]
  | some (_, val) =>
    let voteB ← orPanic e.voteB
    failIf (voteA.height ≠ voteB.height ∨ voteA.round ≠ voteB.round ∨
        voteA.type ≠ voteB.type)
      "h/r/s does not match: %d/%d/%v vs %d/%d/%v"
      [voteA.height.toInt, voteA.round.toInt, voteA.type.toInt, voteB.height.toInt,
        voteB.round.toInt, voteB.type.toInt] []
    failIf (voteA.validatorAddress ≠ voteB.validatorAddress)
      "validator addresses do not match: %X vs %X" []
      [voteA.validatorAddress, voteB.validatorAddress]
    failIf (voteA.blockID = voteB.blockID)
      "block IDs are the same (%v) - not a real duplicate vote" [] [voteA.blockID.hash]
    let pubKey ← orPanic val.pubKey
    failIf (C.address pubKey ≠ voteA.validatorAddress)
      "address (%X) doesn't match pubkey (%v - %X)" [] [voteA.validatorAddress, C.address pubKey]
    failIf (val.votingPower ≠ e.validatorPower)
      "validator power from evidence and our validator set does not match (%d != %d)"
      [e.validatorPower.toInt, val.votingPower.toInt] []
    let total ← valSet.totalVotingPower
    failIf (total ≠ e.totalVotingPower) totalPowerFormat [e.totalVotingPower.toInt, total.toInt] []
    checkVoteSignature H C chainID pubKey voteA "verifying VoteA: %w"
    checkVoteSignature H C chainID pubKey voteB "verifying VoteB: %w"

/-- The parts of the block store and the state store that the pool reads. -/
structure EvidenceStores where
  loadBlockMeta : Int64 → Option BlockMeta
  loadBlockCommit : Int64 → Option Commit
  height : Int64
  loadValidators : Int64 → Except GoError ValidatorSet

namespace EvidenceStores

variable (stores : EvidenceStores)

/-- `getSignedHeader`. -/
def getSignedHeader (height : Int64) : Except GoError StoredHeader :=
  match stores.loadBlockMeta height with
  | none => .error (.new "don't have header at height #%d" [height.toInt] [])
  | some blockMeta =>
    match stores.loadBlockCommit height with
    | none => .error (.new "don't have commit at height #%d" [height.toInt] [])
    | some commit => .ok ⟨blockMeta.header, commit⟩

/-- The header that `verify` compares the conflicting one with: at its height, or the latest one. -/
def trustedHeader (commonHeader : StoredHeader) (height : Int64)
    (conflicting : Header) : Except Failure StoredHeader :=
  if height = conflicting.height then .ok commonHeader
  else
    match stores.getSignedHeader conflicting.height with
    | .ok trusted => .ok trusted
    | .error _ => do
      let trusted ← (stores.getSignedHeader stores.height).mapError .error
      failIf (trusted.header.time.before conflicting.time)
        "latest block time (%v) is before conflicting block time (%v)"
        [trusted.header.time.seconds.toInt, conflicting.time.seconds.toInt] []
      return trusted

end EvidenceStores

/-- The checks of `verify` that evidence belongs to a block of its time and has not expired. -/
def checkAge (state : State) (stores : EvidenceStores) (height : Int64) (time : Time) : Check :=
  match stores.loadBlockMeta height with
  | none => fail "don't have header #%d" [height.toInt] []
  | some blockMeta => do
    failIf (time ≠ blockMeta.header.time)
      "evidence has a different time to the block it is associated with (%v != %v)"
      [time.seconds.toInt, blockMeta.header.time.seconds.toInt] []
    failIf (state.lastBlockTime.sub blockMeta.header.time >
          state.consensusParams.evidence.maxAgeDuration ∧
        state.lastBlockHeight - height > state.consensusParams.evidence.maxAgeNumBlocks)
      ("evidence from height %d (created at: %v) is too old; min height is %d and evidence can" ++
        " not be older than %v")
      [height.toInt, blockMeta.header.time.seconds.toInt,
        (state.lastBlockHeight - state.consensusParams.evidence.maxAgeNumBlocks).toInt] []

/-- `verify`. -/
def verifyEvidence (state : State) (stores : EvidenceStores) (evidence : Evidence) : Check := do
  let height ← orPanic evidence.height
  checkAge state stores height evidence.time
  match evidence with
  | .duplicateVote ev => do
    let valSet ← (stores.loadValidators height).mapError .error
    verifyDuplicateVote H C ev state.chainID valSet
  | .lightClientAttack ev => do
    let commonHeader ← (stores.getSignedHeader height).mapError .error
    let commonVals ← (stores.loadValidators height).mapError .error
    let header ← orPanic ev.header
    let trusted ← stores.trustedHeader commonHeader height header
    verifyLightClientAttack H C ev commonHeader trusted commonVals

end NimbleChain.Tendermint
