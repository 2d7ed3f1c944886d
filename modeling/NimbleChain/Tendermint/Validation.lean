import NimbleChain.Tendermint.Merkle
import NimbleChain.Tendermint.Proto

/-!
# Hashes and basic validation

The `Hash` and `ValidateBasic` functions of headers, commits, votes, validators, evidence and
blocks. Checks run in the order of the source; the first that fails decides the error.
-/

namespace NimbleChain.Tendermint

open Common Common.Wire Check

variable (H : HashFunction)

/-! ### Hashes -/

/-- The types that `cdcEncode` knows. -/
inductive CdcItem where
  | string (value : Bytes)
  | int64 (value : Int64)
  | hexBytes (value : Bytes)

/-- `cdcEncode`: nothing for an empty item, else the item as the only field of a message. -/
def cdcEncode : CdcItem → Bytes
  | .string value => if value = [] then [] else Wire.marshal [⟨1, blob value⟩]
  | .int64 value => Wire.marshal [⟨1, scalar (int64 value)⟩]
  | .hexBytes value => if value = [] then [] else Wire.marshal [⟨1, blob value⟩]

namespace Header

/-- The leaves of `Header.Hash`, if the fields can be encoded. -/
def hashLeaves (h : Header) : Option (List Bytes) := do
  let pbt ← h.time.marshal
  return [h.version.marshal, cdcEncode (.string h.chainID), cdcEncode (.int64 h.height), pbt,
    h.lastBlockID.marshal, cdcEncode (.hexBytes h.lastCommitHash),
    cdcEncode (.hexBytes h.dataHash), cdcEncode (.hexBytes h.validatorsHash),
    cdcEncode (.hexBytes h.nextValidatorsHash), cdcEncode (.hexBytes h.consensusHash),
    cdcEncode (.hexBytes h.appHash), cdcEncode (.hexBytes h.lastResultsHash),
    cdcEncode (.hexBytes h.evidenceHash), cdcEncode (.hexBytes h.proposerAddress)]

/-- `Header.Hash`, where the empty string is nil. -/
def hash (h : Header) : Bytes :=
  if h.validatorsHash = [] then []
  else
    match h.hashLeaves with
    | none => []
    | some leaves => hashFromByteSlices H leaves

/-- The strings that are hashed for a header. -/
def hashInputs (h : Header) : List Bytes :=
  h.hashLeaves.elim [] (merkleInputs H)

end Header

/-- `Commit.Hash`, which covers the signatures only; `none` where it panics. -/
def Commit.hash (commit : Commit) : Option Bytes :=
  (commit.signatures.mapM CommitSig.marshal).map (hashFromByteSlices H)

/-- `Txs.Hash`: the leaves are the hashes of the transactions. -/
def txsHash (txs : List Bytes) : Bytes :=
  hashFromByteSlices H (txs.map H.sum)

/-- `EvidenceList.Hash`; `none` where it panics. -/
def evidenceHash (evidence : List Evidence) : Option Bytes :=
  (evidence.mapM Evidence.bytes).map (hashFromByteSlices H)

/-- `Validator.Bytes`; `none` where it panics. -/
def Validator.bytes (v : Option Validator) : Option Bytes := do
  let v ← v
  let pk ← v.pubKey.bind PubKey.marshal
  return Wire.marshal [⟨1, [.bytes pk]⟩, ⟨2, scalar (int64 v.votingPower)⟩]

/-- `ValidatorSet.Hash`; `none` where it panics. -/
def ValidatorSet.hash (vals : ValidatorSet) : Option Bytes :=
  (vals.validators.mapM Validator.bytes).map (hashFromByteSlices H)

variable (b : Block) (psh : PartSetHeader)

namespace Block

/-- `Block.fillHeader` for a block with a last commit; `none` where it panics. -/
def fillHeader (lastCommit : Commit) : Option Header := do
  let lastCommitHash ←
    if b.header.lastCommitHash = [] then lastCommit.hash H else some b.header.lastCommitHash
  let evidenceHash ←
    if b.header.evidenceHash = [] then evidenceHash H b.evidence else some b.header.evidenceHash
  return { b.header with
    lastCommitHash := lastCommitHash
    dataHash := if b.header.dataHash = [] then txsHash H b.txs else b.header.dataHash
    evidenceHash := evidenceHash }

/-- `Block.Hash`, where the empty string is nil; `none` where it panics. -/
def hash : Option Bytes :=
  match b.lastCommit with
  | none => some []
  | some lastCommit => (b.fillHeader H lastCommit).map (Header.hash H)

/-- The strings that are hashed for a block and its parts. -/
def hashInputs : List Bytes :=
  b.header.hashInputs H ++
    (b.lastCommit.bind fun commit => commit.signatures.mapM CommitSig.marshal).elim []
      (merkleInputs H) ++
    b.txs ++ merkleInputs H (b.txs.map H.sum) ++
    (b.evidence.mapM Evidence.bytes).elim [] (merkleInputs H)

end Block

/-! ### Checks -/

/-- `version.BlockProtocol`. -/
def blockProtocol : UInt64 := 11

/-- `MaxChainIDLen`. -/
def maxChainIDLen : Nat := 50

/-- `crypto.AddressSize`. -/
def addressSize : Nat := 20

/-- `MaxSignatureSize`. -/
def maxSignatureSize : Nat := 64

/-- `ValidateHash`: a hash may be missing. -/
def validateHash (h : Bytes) : Check :=
  failIf (h.length > 0 ∧ h.length ≠ H.size)
    "expected size to be %d bytes, got %d bytes" [H.size, h.length] []

/-- `PartSetHeader.ValidateBasic`. -/
def PartSetHeader.validateBasic : Check :=
  within "wrong Hash: %w" [] (validateHash H psh.hash)

/-- `PartSetHeader.IsZero`. -/
def PartSetHeader.isZero : Bool :=
  psh.total = 0 ∧ psh.hash = []

variable (id : BlockID)

namespace BlockID

/-- `BlockID.ValidateBasic`. -/
def validateBasic : Check := do
  match validateHash H id.hash with
  | .ok _ => pure ()
  | .error _ => fail "wrong Hash" [] []
  within "wrong PartSetHeader: %v" [] (id.partSetHeader.validateBasic H)

/-- `BlockID.IsZero`. -/
def isZero : Bool :=
  id.hash = [] ∧ id.partSetHeader.isZero

/-- `BlockID.IsComplete`. -/
def isComplete : Bool :=
  id.hash.length = H.size ∧ id.partSetHeader.total > 0 ∧ id.partSetHeader.hash.length = H.size

/-- `BlockID.Key`. -/
def key : Bytes :=
  id.hash ++ id.partSetHeader.marshal

end BlockID

/-- `Header.ValidateBasic`. -/
def Header.validateBasic (h : Header) : Check := do
  failIf (h.version.block ≠ blockProtocol)
    "block protocol is incorrect: got: %d, want: %d "
    [h.version.block.toNat, blockProtocol.toNat] []
  failIf (h.chainID.length > maxChainIDLen)
    "chainID is too long; got: %d, max: %d" [h.chainID.length, maxChainIDLen] []
  failIf (h.height < 0) "negative Height" [] []
  failIf (h.height = 0) "zero Height" [] []
  within "wrong LastBlockID: %w" [] (h.lastBlockID.validateBasic H)
  within "wrong LastCommitHash: %v" [] (validateHash H h.lastCommitHash)
  within "wrong DataHash: %v" [] (validateHash H h.dataHash)
  within "wrong EvidenceHash: %v" [] (validateHash H h.evidenceHash)
  failIf (h.proposerAddress.length ≠ addressSize)
    "invalid ProposerAddress length; got: %d, expected: %d"
    [h.proposerAddress.length, addressSize] []
  within "wrong ValidatorsHash: %v" [] (validateHash H h.validatorsHash)
  within "wrong NextValidatorsHash: %v" [] (validateHash H h.nextValidatorsHash)
  within "wrong ConsensusHash: %v" [] (validateHash H h.consensusHash)
  within "wrong LastResultsHash: %v" [] (validateHash H h.lastResultsHash)

variable {H} in
theorem Header.height_pos {h : Header} (hvalid : h.validateBasic H = .ok ()) : 0 < h.height := by
  simp only [validateBasic, seq_eq_ok, failIf_eq_ok] at hvalid
  exact Int64.lt_of_le_of_ne (Int64.not_lt.mp hvalid.2.2.1) (Ne.symm hvalid.2.2.2.1)

/-- `BlockIDFlagAbsent`. -/
def blockIDFlagAbsent : UInt8 := 1

/-- `BlockIDFlagCommit`. -/
def blockIDFlagCommit : UInt8 := 2

/-- `BlockIDFlagNil`. -/
def blockIDFlagNil : UInt8 := 3

/-- `CommitSig.ValidateBasic`. -/
def CommitSig.validateBasic (cs : CommitSig) : Check := do
  failIf (cs.blockIDFlag ≠ blockIDFlagAbsent ∧ cs.blockIDFlag ≠ blockIDFlagCommit ∧
      cs.blockIDFlag ≠ blockIDFlagNil)
    "unknown BlockIDFlag: %v" [cs.blockIDFlag.toNat] []
  if cs.blockIDFlag = blockIDFlagAbsent then
    failIf (cs.validatorAddress ≠ []) "validator address is present" [] []
    failIf (!cs.timestamp.isZero) "time is present" [] []
    failIf (cs.signature ≠ []) "signature is present" [] []
  else
    failIf (cs.validatorAddress.length ≠ addressSize)
      "expected ValidatorAddress size to be %d bytes, got %d bytes"
      [addressSize, cs.validatorAddress.length] []
    failIf (cs.signature = []) "signature is missing" [] []
    failIf (cs.signature.length > maxSignatureSize)
      "signature is too big (max: %d)" [maxSignatureSize] []

/-- A loop that stops at the first error and reports the position of the item. -/
def validateEach {α : Type} (format : String) (check : α → Check) : Nat → List α → Check
  | _, [] => pure ()
  | i, x :: rest => do
    within format [i] (check x)
    validateEach format check (i + 1) rest

theorem validateEach_eq_ok {α : Type} {format : String} {check : α → Check} {i : Nat}
    {xs : List α} : validateEach format check i xs = .ok () ↔ ∀ x ∈ xs, check x = .ok () := by
  induction xs generalizing i with
  | nil => simp [validateEach, pure, Except.pure]
  | cons x xs ih =>
    rw [validateEach, seq_eq_ok, within_eq_ok, ih]
    simp

/-- `Commit.ValidateBasic`: the signatures are only looked at from height 1 on. -/
def Commit.validateBasic (commit : Commit) : Check := do
  failIf (commit.height < 0) "negative Height" [] []
  failIf (commit.round < 0) "negative Round" [] []
  if commit.height ≥ 1 then
    failIf commit.blockID.isZero "commit cannot be for nil block" [] []
    failIf (commit.signatures = []) "no signatures in commit" [] []
    validateEach "wrong CommitSig #%d: %v" CommitSig.validateBasic 0 commit.signatures

/-- `PrevoteType`. -/
def prevoteType : Int32 := 1

/-- `PrecommitType`. -/
def precommitType : Int32 := 2

/-- `Vote.ValidateBasic`. -/
def Vote.validateBasic (vote : Vote) : Check := do
  failIf (vote.type ≠ prevoteType ∧ vote.type ≠ precommitType) "invalid Type" [] []
  failIf (vote.height < 0) "negative Height" [] []
  failIf (vote.round < 0) "negative Round" [] []
  within "wrong BlockID: %v" [] (vote.blockID.validateBasic H)
  failIf (!vote.blockID.isZero ∧ !vote.blockID.isComplete H)
    "blockID must be either empty or complete, got: %v"
    [vote.blockID.partSetHeader.total.toNat] [vote.blockID.hash, vote.blockID.partSetHeader.hash]
  failIf (vote.validatorAddress.length ≠ addressSize)
    "expected ValidatorAddress size to be %d bytes, got %d bytes"
    [addressSize, vote.validatorAddress.length] []
  failIf (vote.validatorIndex < 0) "negative ValidatorIndex" [] []
  failIf (vote.signature = []) "signature is missing" [] []
  failIf (vote.signature.length > maxSignatureSize)
    "signature is too big (max: %d)" [maxSignatureSize] []

/-- `Validator.ValidateBasic`. -/
def Validator.validateBasic (v : Option Validator) : Check :=
  match v with
  | none => fail "nil validator" [] []
  | some v => do
    failIf (v.pubKey = none) "validator does not have a public key" [] []
    failIf (v.votingPower < 0) "validator has negative voting power" [] []
    failIf (v.address.length ≠ addressSize)
      "validator address is the wrong size: %v" [] [v.address]

/-- `ValidatorSet.ValidateBasic`. -/
def ValidatorSet.validateBasic (vals : ValidatorSet) : Check := do
  failIf (vals.validators = []) "validator set is nil or empty" [] []
  validateEach "invalid validator #%d: %w" Validator.validateBasic 0 vals.validators
  within "proposer failed validate basic, error: %w" []
    (Validator.validateBasic vals.proposer)

/-- `SignedHeader.ValidateBasic`. -/
def SignedHeader.validateBasic (sh : SignedHeader) (chainID : Bytes) : Check :=
  match sh.header, sh.commit with
  | none, _ => fail "missing header" [] []
  | some _, none => fail "missing commit" [] []
  | some header, some commit => do
    within "invalid header: %w" [] (header.validateBasic H)
    within "invalid commit: %w" [] commit.validateBasic
    failIf (header.chainID ≠ chainID)
      "header belongs to another chain %q, not %q" [] [header.chainID, chainID]
    failIf (commit.height ≠ header.height)
      "header and commit height mismatch: %d vs %d" [header.height.toInt, commit.height.toInt] []
    failIf (header.hash H ≠ commit.blockID.hash)
      "commit signs block %X, header is block %X" [] [commit.blockID.hash, header.hash H]

/-- `LightBlock.ValidateBasic`. -/
def LightBlock.validateBasic (lb : LightBlock) (chainID : Bytes) : Check :=
  match lb.signedHeader, lb.validatorSet with
  | none, _ => fail "missing signed header" [] []
  | some _, none => fail "missing validator set" [] []
  | some sh, some vals => do
    within "invalid signed header: %w" [] (sh.validateBasic H chainID)
    within "invalid validator set: %w" [] vals.validateBasic
    let valSetHash ← orPanic (vals.hash H)
    failIf (sh.header.map Header.validatorsHash ≠ some valSetHash)
      "expected validator hash of header to match validator set hash (%X != %X)"
      [] [sh.header.elim [] Header.validatorsHash, valSetHash]

/-- `DuplicateVoteEvidence.ValidateBasic`. -/
def DuplicateVoteEvidence.validateBasic (dve : DuplicateVoteEvidence) : Check :=
  match dve.voteA, dve.voteB with
  | some voteA, some voteB => do
    within "invalid VoteA: %w" [] (voteA.validateBasic H)
    within "invalid VoteB: %w" [] (voteB.validateBasic H)
    failIf (¬ voteA.blockID.key < voteB.blockID.key) "duplicate votes in invalid order" [] []
  | _, _ => fail "one or both of the votes are empty %v, %v" [] []

/-- `LightClientAttackEvidence.ValidateBasic`. It reads the header of the conflicting block through
the embedded signed header, which panics if that is nil. -/
def LightClientAttackEvidence.validateBasic (l : LightClientAttackEvidence) : Check :=
  match l.conflictingBlock with
  | none => fail "conflicting block is nil" [] []
  | some lb => do
    let sh ← orPanic lb.signedHeader
    match sh.header with
    | none => fail "conflicting block missing header" [] []
    | some header =>
      failIf (l.totalVotingPower ≤ 0) "negative or zero total voting power" [] []
      failIf (l.commonHeight ≤ 0) "negative or zero common height" [] []
      failIf (l.commonHeight > header.height)
        "common height is ahead of the conflicting block height (%d > %d)"
        [l.commonHeight.toInt, header.height.toInt] []
      within "invalid conflicting light block: %w" [] (lb.validateBasic H header.chainID)

/-- `Evidence.ValidateBasic`. -/
def Evidence.validateBasic : Evidence → Check
  | duplicateVote evidence => evidence.validateBasic H
  | lightClientAttack evidence => evidence.validateBasic H

/-- `Block.ValidateBasic`. -/
def Block.validateBasic : Check := do
  within "invalid header: %w" [] (b.header.validateBasic H)
  match b.lastCommit with
  | none => fail "nil LastCommit" [] []
  | some lastCommit =>
    within "wrong LastCommit: %v" [] lastCommit.validateBasic
    let commitHash ← orPanic (lastCommit.hash H)
    failIf (b.header.lastCommitHash ≠ commitHash)
      "wrong Header.LastCommitHash. Expected %v, got %v" [] [commitHash, b.header.lastCommitHash]
    failIf (b.header.dataHash ≠ txsHash H b.txs)
      "wrong Header.DataHash. Expected %v, got %v" [] [txsHash H b.txs, b.header.dataHash]
    validateEach "invalid evidence (#%d): %v" (Evidence.validateBasic H) 0 b.evidence
    let evidenceHash ← orPanic (evidenceHash H b.evidence)
    failIf (b.header.evidenceHash ≠ evidenceHash)
      "wrong Header.EvidenceHash. Expected %v, got %v" [] [b.header.evidenceHash, evidenceHash]

end NimbleChain.Tendermint
