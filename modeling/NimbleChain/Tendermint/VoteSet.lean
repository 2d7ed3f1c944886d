import NimbleChain.Common.Program
import NimbleChain.Tendermint.Canonical
import NimbleChain.Tendermint.ValidatorSet

/-!
# Vote sets

`types/vote_set.go`. A vote set counts the votes of one height, round and type. `votes` holds one
vote for each validator that has voted, and `votesByBlock` the votes for each block that is
tracked: because a first vote was for it, or because a peer claims a majority for it. The first
block with more than two thirds of the power becomes `maj23`.
-/

namespace NimbleChain.Tendermint

open Common

/-- What is used of the signature schemes. -/
structure Crypto where
  address : PubKey → Bytes
  verifySignature : PubKey → Bytes → Bytes → Bool

variable (H : HashFunction) (C : Crypto)

/-- The validator index as a position in a list. -/
def Vote.index (vote : Vote) : Nat :=
  vote.validatorIndex.toInt.toNat

/-- `Vote.Verify`; a nil public key cannot be asked for its address. -/
def Vote.verify (vote : Vote) (chainID : Bytes) (pubKey : Option PubKey) : Check := do
  let pubKey ← Check.orPanic pubKey
  Check.failIf (C.address pubKey ≠ vote.validatorAddress) "invalid validator address" [] []
  let signBytes ← Check.orPanic (voteSignBytes H chainID vote)
  Check.failIf (!C.verifySignature pubKey signBytes vote.signature) "invalid signature" [] []

/-! ### Model -/

/-- `blockVotes`. -/
structure BlockVotes where
  peerMaj23 : Bool
  bitArray : List Bool
  votes : List (Option Vote)
  sum : Int64

namespace BlockVotes

/-- `newBlockVotes`. -/
def new (peerMaj23 : Bool) (numValidators : Nat) : BlockVotes where
  peerMaj23 := peerMaj23
  bitArray := List.replicate numValidators false
  votes := List.replicate numValidators none
  sum := 0

/-- `blockVotes.getByIndex` of an entry that is not nil. -/
def getByIndex (entry : BlockVotes) (index : Nat) : Option Vote :=
  entry.votes[index]?.join

/-- `blockVotes.addVerifiedVote`. -/
def addVerifiedVote (entry : BlockVotes) (vote : Vote) (votingPower : Int64) : BlockVotes :=
  let valIndex := vote.index
  match entry.getByIndex valIndex with
  | some _ => entry
  | none =>
    { entry with
      bitArray := entry.bitArray.set valIndex true
      votes := entry.votes.set valIndex (some vote)
      sum := entry.sum + votingPower }

end BlockVotes

/-- `VoteSet`. The maps are functions. -/
structure VoteSet where
  chainID : Bytes
  height : Int64
  round : Int32
  signedMsgType : Int32
  valSet : ValidatorSet
  votesBitArray : List Bool
  votes : List (Option Vote)
  sum : Int64
  maj23 : Option BlockID
  votesByBlock : Bytes → Option BlockVotes
  peerMaj23s : Bytes → Option BlockID

/-- The errors of `AddVote`. Of the printed votes, only those of a conflict are kept. -/
inductive AddVoteError where
  /-- "nil vote" -/
  | voteNil
  /-- "index < 0: invalid validator index" -/
  | negativeIndex
  /-- "empty address: invalid validator address" -/
  | emptyAddress
  /-- "expected %d/%d/%d, but got %d/%d/%d: unexpected step" -/
  | unexpectedStep (height : Int64) (round : Int32) (type : Int32)
  /-- "cannot find validator %d in valSet of size %d: invalid validator index" -/
  | unknownValidator (index : Int32) (size : Nat)
  /-- "vote.ValidatorAddress (%X) does not match address (%X) for vote.ValidatorIndex (%d)" -/
  | wrongAddress (address lookupAddr : Bytes) (index : Int32)
  /-- "existing vote: %v; new vote: %v: non-deterministic signature" -/
  | nonDeterministicSignature
  /-- "failed to verify vote with ChainID %s and PubKey %s: %w" -/
  | failedToVerify (error : GoError)
  /-- `ErrVoteConflictingVotes` -/
  | conflictingVotes (voteA voteB : Vote)
  deriving DecidableEq

/-- Where `AddVote` may panic. -/
inductive VoteSetPanic where
  /-- a nil dereference, sign bytes without an encoding, or a total power above the maximum -/
  | callee
  /-- "addVerifiedVote does not expect duplicate votes" -/
  | duplicateVote
  /-- "Expected to add non-conflicting vote" -/
  | notAdded
  deriving DecidableEq

variable (vs : VoteSet)

namespace VoteSet

/-- `NewVoteSet` for a height other than zero. -/
def new (chainID : Bytes) (height : Int64) (round : Int32) (signedMsgType : Int32)
    (valSet : ValidatorSet) : VoteSet where
  chainID := chainID
  height := height
  round := round
  signedMsgType := signedMsgType
  valSet := valSet
  votesBitArray := List.replicate valSet.size false
  votes := List.replicate valSet.size none
  sum := 0
  maj23 := none
  votesByBlock := fun _ => none
  peerMaj23s := fun _ => none

/-- The entry of `votes` at an index. -/
def voteAt (index : Nat) : Option Vote :=
  vs.votes[index]?.join

/-- `getVote`. -/
def getVote (valIndex : Nat) (blockKey : Bytes) : Option Vote :=
  match (vs.voteAt valIndex).filter (·.blockID.key = blockKey) with
  | some existing => some existing
  | none => (vs.votesByBlock blockKey).bind (·.getByIndex valIndex)

variable (vote : Vote)

/-- Store a vote in `votes` and mark it. -/
def setVote : VoteSet :=
  { vs with
    votes := vs.votes.set vote.index (some vote)
    votesBitArray := vs.votesBitArray.set vote.index true }

/-- Store the first vote of a validator and count its power. -/
def addFirst (votingPower : Int64) : VoteSet :=
  { vs.setVote vote with sum := vs.sum + votingPower }

variable (blockKey : Bytes) (votingPower : Int64) (entry : BlockVotes)

/-- Set the entry of a block. -/
def setEntry : VoteSet :=
  { vs with votesByBlock := fun key => if key = blockKey then some entry else vs.votesByBlock key }

/-- Make a block the majority and copy its votes into `votes`. -/
def setMaj23 (blockID : BlockID) (entry : BlockVotes) : VoteSet :=
  { vs with
    maj23 := some blockID
    votes := List.zipWith Option.or entry.votes vs.votes }

/-- The end of `addVerifiedVote`: count the vote for its block, which may reach the quorum. -/
def tally (vote : Vote) (blockKey : Bytes) (votingPower quorum : Int64) : VoteSet :=
  let counted := entry.addVerifiedVote vote votingPower
  let vs := vs.setEntry blockKey counted
  if entry.sum < quorum ∧ quorum ≤ counted.sum ∧ vs.maj23 = none then
    vs.setMaj23 vote.blockID counted
  else vs

/-- The part of `addVerifiedVote` that looks for the entry of the block. -/
def track (conflicting : Option Vote) :
    Program VoteSetPanic VoteSet (Bool × Option Vote) := do
  let vs ← get
  let entry :=
    match vs.votesByBlock blockKey with
    | some entry => if conflicting.isSome ∧ !entry.peerMaj23 then none else some entry
    | none => if conflicting.isSome then none else some (BlockVotes.new false vs.valSet.size)
  match entry with
  | none => return (false, conflicting)
  | some entry =>
    set (vs.setEntry blockKey entry)
    match vs.valSet.totalVotingPower with
    | .error _ => throw .callee
    | .ok total =>
      set (vs.tally entry vote blockKey votingPower (total * 2 / 3 + 1))
      return (true, conflicting)

/-- `addVerifiedVote`: whether the vote was added, and the vote that it conflicts with. -/
def addVerifiedVote :
    Program VoteSetPanic VoteSet (Bool × Option Vote) := do
  let vs ← get
  match vs.voteAt vote.index with
  | some existing =>
    if existing.blockID = vote.blockID then throw .duplicateVote
    else
      if vs.maj23.map BlockID.key = some blockKey then
        set (vs.setVote vote)
        track vote blockKey votingPower (some existing)
      else
        track vote blockKey votingPower (some existing)
  | none =>
    set (vs.addFirst vote votingPower)
    track vote blockKey votingPower none

/-- The part of `addVote` after the checks that need no signature. -/
def addKnown (val : Validator) :
    Program VoteSetPanic VoteSet (Bool × Option AddVoteError) := do
  let vs ← get
  match vs.getVote vote.index vote.blockID.key with
  | some existing =>
    if existing.signature = vote.signature then return (false, none)
    else return (false, some .nonDeterministicSignature)
  | none =>
    match vote.verify H C vs.chainID val.pubKey with
    | .error .panic => throw .callee
    | .error (.error error) => return (false, some (.failedToVerify error))
    | .ok _ =>
      let (added, conflicting) ← addVerifiedVote vote vote.blockID.key val.votingPower
      match conflicting with
      | some conflicting => return (added, some (.conflictingVotes conflicting vote))
      | none => if added then return (true, none) else throw .notAdded

/-- `AddVote`. -/
def addVote (vote : Option Vote) : Program VoteSetPanic VoteSet (Bool × Option AddVoteError) := do
  let vs ← get
  match vote with
  | none => return (false, some .voteNil)
  | some vote =>
    if vote.validatorIndex < 0 then return (false, some .negativeIndex)
    else if vote.validatorAddress = [] then return (false, some .emptyAddress)
    else if vote.height ≠ vs.height ∨ vote.round ≠ vs.round ∨ vote.type ≠ vs.signedMsgType then
      return (false, some (.unexpectedStep vote.height vote.round vote.type))
    else
      match vs.valSet.getByIndex vote.validatorIndex with
      | .error _ => throw .callee
      | .ok none => return (false, some (.unknownValidator vote.validatorIndex vs.valSet.size))
      | .ok (some val) =>
        if vote.validatorAddress ≠ val.address then
          return (false, some (.wrongAddress vote.validatorAddress val.address vote.validatorIndex))
        else addKnown H C vote val

/-- `SetPeerMaj23`; the answer is whether the peer had not claimed another block. -/
def setPeerMaj23 (peerID : Bytes) (blockID : BlockID) : VoteSet × Bool :=
  match vs.peerMaj23s peerID with
  | some existing => (vs, existing = blockID)
  | none =>
    let vs := { vs with
      peerMaj23s := fun peer => if peer = peerID then some blockID else vs.peerMaj23s peer }
    let entry :=
      match vs.votesByBlock blockID.key with
      | some entry => { entry with peerMaj23 := true }
      | none => BlockVotes.new true vs.valSet.size
    (vs.setEntry blockID.key entry, true)

/-- A call of `AddVote` or `SetPeerMaj23`. -/
inductive Call where
  | addVote (vote : Option Vote)
  | setPeerMaj23 (peerID : Bytes) (blockID : BlockID)

/-- The vote set after a call; a panic leaves it as it was at that point. -/
def call : Call → VoteSet
  | .addVote vote => ((addVote H C vote).exec vs).2
  | .setPeerMaj23 peerID blockID => (vs.setPeerMaj23 peerID blockID).1

/-- The vote set after a sequence of calls. -/
def run (calls : List Call) : VoteSet :=
  calls.foldl (call H C) vs

end VoteSet

end NimbleChain.Tendermint
