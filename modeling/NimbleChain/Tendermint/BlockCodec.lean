import NimbleChain.Tendermint.ConsensusMessages
import NimbleChain.Tendermint.ValidatorSet

/-!
# Decoding blocks

The generated `Unmarshal` functions and the `FromProto` conversions for commits, headers, metas and
whole blocks with their evidence (`types/block.go`, `types/block_meta.go`, `types/evidence.go`,
`types/light.go`). A validator set is converted by summing up its voting power, which panics beyond
the maximum.
-/

namespace NimbleChain.Tendermint

open Common Common.Wire Option

/-- A loop that stops at the first failure. -/
def checkAll {α : Type} (check : α → Check) : List α → Check
  | [] => pure ()
  | x :: rest => do
    check x
    checkAll check rest

/-! ### Commits, headers and block metas -/

/-- `CommitFromProto`. -/
def commitFromProto (H : HashFunction) (commit : Commit) : Check := do
  blockIDFromProto H commit.blockID
  checkAll CommitSig.validateBasic commit.signatures
  commit.validateBasic

/-- `HeaderFromProto`. -/
def headerFromProto (H : HashFunction) (h : Header) : Check := do
  blockIDFromProto H h.lastBlockID
  h.validateBasic H

/-- `BlockMeta`. -/
structure BlockMeta where
  blockID : BlockID
  blockSize : Int64
  header : Header
  numTxs : Int64
  deriving DecidableEq

variable (input : Bytes)

namespace BlockMeta

/-- `BlockMeta.Marshal`. -/
def marshal (bm : BlockMeta) : Option Bytes :=
  bm.header.marshal.map fun header => Wire.marshal
    [⟨1, [.bytes bm.blockID.marshal]⟩, ⟨2, scalar (int64 bm.blockSize)⟩, ⟨3, [.bytes header]⟩,
      ⟨4, scalar (int64 bm.numTxs)⟩]

/-- The zero value of `tmproto.Header`. -/
def emptyHeader : Header where
  version := ⟨0, 0⟩
  chainID := []
  height := 0
  time := .zero
  delayTime := .ofBits 0
  deliverTime := .ofBits 0
  lastBlockID := ⟨[], 0, []⟩
  lastCommitHash := []
  dataHash := []
  validatorsHash := []
  nextValidatorsHash := []
  consensusHash := []
  appHash := []
  lastResultsHash := []
  evidenceHash := []
  proposerAddress := []

/-- `BlockMeta.Unmarshal`. -/
def unmarshal : Option BlockMeta := do
  let slot ← Wire.slots input
  let blockID ← asMessage BlockID.unmarshal (slot 1)
  let blockSize ← asScalar (slot 2)
  let header ← asMessage Header.unmarshal (slot 3)
  let numTxs ← asScalar (slot 4)
  return ⟨blockID.getD ⟨[], 0, []⟩, toInt64 blockSize, header.getD emptyHeader, toInt64 numTxs⟩

theorem unmarshal_inverts : Inverts unmarshal marshal := by
  intro bm b h
  obtain ⟨header, hheader, rfl⟩ := map_eq_some_iff.mp h
  simp [unmarshal, Header.unmarshal_inverts _ _ hheader]

variable (H : HashFunction)

/-- `BlockMeta.ValidateBasic`. -/
def validateBasic (bm : BlockMeta) : Check := do
  bm.blockID.validateBasic H
  Check.failIf (bm.blockID.hash ≠ bm.header.hash H)
    "expected BlockID#Hash and Header#Hash to be the same, got %X != %X" []
    [bm.blockID.hash, bm.header.hash H]

/-- `BlockMetaFromProto`. -/
def fromProto (bm : BlockMeta) : Check := do
  blockIDFromProto H bm.blockID
  headerFromProto H bm.header
  bm.validateBasic H

end BlockMeta

/-! ### Evidence -/

/-- The alternatives of `tmcrypto.PublicKey`. -/
inductive PbPublicKey where
  | ed25519 (key : Bytes)
  | secp256k1 (key : Bytes)
  deriving DecidableEq

/-- `tmproto.Validator`. -/
structure PbValidator where
  address : Bytes
  pubKey : Option PbPublicKey
  votingPower : Int64
  proposerPriority : Int64
  deriving DecidableEq

/-- `tmproto.ValidatorSet`, without the total voting power, which is not read. -/
structure PbValidatorSet where
  validators : List PbValidator
  proposer : Option PbValidator
  deriving DecidableEq

/-- `tmproto.LightBlock`. -/
structure PbLightBlock where
  signedHeader : Option SignedHeader
  validatorSet : Option PbValidatorSet
  deriving DecidableEq

/-- `tmproto.LightClientAttackEvidence`. -/
structure PbLightClientAttackEvidence where
  conflictingBlock : Option PbLightBlock
  commonHeight : Int64
  byzantineValidators : List PbValidator
  totalVotingPower : Int64
  timestamp : Time
  deriving DecidableEq

/-- The alternatives of `tmproto.Evidence`. -/
inductive PbEvidence where
  | duplicateVote (evidence : DuplicateVoteEvidence)
  | lightClientAttack (evidence : PbLightClientAttackEvidence)
  deriving DecidableEq

/-- `tmcrypto.PublicKey.Unmarshal`. -/
def PbPublicKey.unmarshal : Option (Option PbPublicKey) := do
  let fields ← Wire.unmarshal input
  asOneof (fun
    | (1, .bytes key) => some (some (.ed25519 key))
    | (2, .bytes key) => some (some (.secp256k1 key))
    | (1, _) | (2, _) => none
    | _ => some none) fields

/-- `tmproto.Validator.Unmarshal`. -/
def PbValidator.unmarshal : Option PbValidator := do
  let slot ← Wire.slots input
  let address ← asBlob (slot 1)
  let pubKey ← asMessage PbPublicKey.unmarshal (slot 2)
  let votingPower ← asScalar (slot 3)
  let proposerPriority ← asScalar (slot 4)
  return ⟨address, pubKey.getD none, toInt64 votingPower, toInt64 proposerPriority⟩

/-- `tmproto.ValidatorSet.Unmarshal`. -/
def PbValidatorSet.unmarshal : Option PbValidatorSet := do
  let slot ← Wire.slots input
  let validators ← asMessages PbValidator.unmarshal (slot 1)
  let proposer ← asMessage PbValidator.unmarshal (slot 2)
  return ⟨validators, proposer⟩

/-- `tmproto.LightBlock.Unmarshal`. -/
def PbLightBlock.unmarshal : Option PbLightBlock := do
  let slot ← Wire.slots input
  let signedHeader ← asMessage SignedHeader.unmarshal (slot 1)
  let validatorSet ← asMessage PbValidatorSet.unmarshal (slot 2)
  return ⟨signedHeader, validatorSet⟩

/-- `tmproto.LightClientAttackEvidence.Unmarshal`. -/
def PbLightClientAttackEvidence.unmarshal : Option PbLightClientAttackEvidence := do
  let slot ← Wire.slots input
  let conflictingBlock ← asMessage PbLightBlock.unmarshal (slot 1)
  let commonHeight ← asScalar (slot 2)
  let byzantineValidators ← asMessages PbValidator.unmarshal (slot 3)
  let totalVotingPower ← asScalar (slot 4)
  let timestamp ← asMessage Time.unmarshal (slot 5)
  return ⟨conflictingBlock, toInt64 commonHeight, byzantineValidators, toInt64 totalVotingPower,
    timestamp.getD .zero⟩

/-- `tmproto.Evidence.Unmarshal`. -/
def PbEvidence.unmarshal : Option (Option PbEvidence) := do
  let fields ← Wire.unmarshal input
  asOneof (fun
    | (1, .bytes content) => (DuplicateVoteEvidence.unmarshal content).map (some ∘ .duplicateVote)
    | (2, .bytes content) =>
      (PbLightClientAttackEvidence.unmarshal content).map (some ∘ .lightClientAttack)
    | (1, _) | (2, _) => none
    | _ => some none) fields

section FromProto

variable (H : HashFunction)

/-- The key of the given length, if the bytes have it. -/
def keyOfSize (n : Nat) (key : Bytes) : Option (Vector UInt8 n) :=
  if h : key.length = n then some ⟨key.toArray, by simpa using h⟩ else none

/-- `PubKeyFromProto`. -/
def pubKeyFromProto : Option PbPublicKey → Except Failure PubKey
  | some (.ed25519 key) =>
    match keyOfSize 32 key with
    | some key => .ok (.ed25519 key)
    | none => .error (.error
        (.new "invalid size for PubKeyEd25519. Got %d, expected %d" [key.length, 32] []))
  | some (.secp256k1 key) =>
    match keyOfSize 33 key with
    | some key => .ok (.secp256k1 key)
    | none => .error (.error
        (.new "invalid size for PubKeySecp256k1. Got %d, expected %d" [key.length, 33] []))
  | none => .error (.error (.new "fromproto: key type %v is not supported" [] []))

/-- `ValidatorFromProto`. -/
def validatorFromProto (vp : Option PbValidator) : Except Failure Validator :=
  match vp with
  | none => .error (.error (.new "nil validator" [] []))
  | some vp => do
    let pk ← pubKeyFromProto vp.pubKey
    return ⟨vp.address, some pk, vp.votingPower, vp.proposerPriority⟩

/-- `fmt.Errorf` around the error of a computation. -/
def wrapError {α : Type} (format : String) : Except Failure α → Except Failure α
  | .error (.error e) => .error (.error (.wrap format [] e))
  | other => other

/-- `ValidatorSetFromProto`. -/
def validatorSetFromProto (vp : PbValidatorSet) : Except Failure ValidatorSet := do
  let validators ← vp.validators.mapM fun v => validatorFromProto (some v)
  let proposer ← wrapError "fromProto: validatorSet proposer error: %w"
    (validatorFromProto vp.proposer)
  let vals : ValidatorSet := ⟨validators.map some, some proposer⟩
  let _ ← vals.totalVotingPower
  vals.validateBasic
  return vals

/-- `SignedHeaderFromProto`. -/
def signedHeaderFromProto (sh : SignedHeader) : Check := do
  sh.header.elim (pure ()) (headerFromProto H)
  sh.commit.elim (pure ()) (commitFromProto H)

/-- `LightBlockFromProto`. -/
def lightBlockFromProto (pb : Option PbLightBlock) : Except Failure LightBlock :=
  match pb with
  | none => .error (.error (.new "nil light block" [] []))
  | some pb => do
    pb.signedHeader.elim (pure ()) (signedHeaderFromProto H)
    let validatorSet ← pb.validatorSet.mapM validatorSetFromProto
    return ⟨pb.signedHeader, validatorSet⟩

/-- `EvidenceFromProto`. -/
def evidenceFromProto : Option PbEvidence → Except Failure Evidence
  | some (.duplicateVote dve) => do
    voteFromProto H dve.voteA
    voteFromProto H dve.voteB
    dve.validateBasic H
    return .duplicateVote dve
  | some (.lightClientAttack lpb) => do
    let conflictingBlock ← lightBlockFromProto H lpb.conflictingBlock
    let byzantineValidators ← lpb.byzantineValidators.mapM fun v => validatorFromProto (some v)
    let l : LightClientAttackEvidence := ⟨some conflictingBlock, lpb.commonHeight,
      byzantineValidators.map some, lpb.totalVotingPower, lpb.timestamp⟩
    l.validateBasic H
    return .lightClientAttack l
  | none => .error (.error (.new "evidence is not recognized" [] []))

end FromProto

/-! ### Blocks -/

/-- `tmproto.Block`. -/
structure PbBlock where
  header : Header
  txs : List Bytes
  evidence : List (Option PbEvidence)
  lastCommit : Option Commit
  deriving DecidableEq

/-- `EvidenceToProto` and `Evidence.Marshal`. -/
def Evidence.marshal : Evidence → Option Bytes
  | duplicateVote evidence =>
    evidence.marshal.map fun content => Wire.marshal [⟨1, [.bytes content]⟩]
  | lightClientAttack evidence =>
    evidence.marshal.map fun content => Wire.marshal [⟨2, [.bytes content]⟩]

/-- `Block.ToProto` and `Block.Marshal`. -/
def Block.marshal (b : Block) : Option Bytes := do
  let header ← b.header.marshal
  let evidence ← b.evidence.mapM Evidence.marshal
  let lastCommit ← optional Commit.marshal b.lastCommit
  return Wire.marshal
    [⟨1, [.bytes header]⟩, ⟨2, [.bytes (Wire.marshal [⟨1, b.txs.map .bytes⟩])]⟩,
      ⟨3, [.bytes (Wire.marshal [⟨1, evidence.map .bytes⟩])]⟩, ⟨4, lastCommit⟩]

/-- The list in the only field of a message. -/
def unmarshalList {α : Type} (read : List Value → Option (List α)) (input : Bytes) :
    Option (List α) := do
  let slot ← Wire.slots input
  read (slot 1)

/-- `tmproto.Block.Unmarshal`. -/
def PbBlock.unmarshal : Option PbBlock := do
  let slot ← Wire.slots input
  let header ← asMessage Header.unmarshal (slot 1)
  let txs ← asMessage (unmarshalList asBlobs) (slot 2)
  let evidence ← asMessage (unmarshalList (asMessages PbEvidence.unmarshal)) (slot 3)
  let lastCommit ← asMessage Commit.unmarshal (slot 4)
  return ⟨header.getD BlockMeta.emptyHeader, txs.getD [], evidence.getD [], lastCommit⟩

variable (H : HashFunction)

/-- `BlockFromProto`. -/
def blockFromProto (bp : PbBlock) : Except Failure Block := do
  headerFromProto H bp.header
  let evidence ← bp.evidence.mapM (evidenceFromProto H)
  bp.lastCommit.elim (pure ()) (commitFromProto H)
  let b : Block := ⟨bp.header, bp.txs, evidence, bp.lastCommit⟩
  b.validateBasic H
  return b

/-- `proto.Unmarshal` into a block and `BlockFromProto`. -/
def decodeBlock (input : Bytes) : Except Failure Block :=
  match PbBlock.unmarshal input with
  | none => .error (.error (.new "proto: cannot parse Block" [] []))
  | some bp => blockFromProto H bp

variable {H} {b : Block} {input : Bytes}

/-- What `BlockFromProto` checks, and what it returns. -/
theorem blockFromProto_eq_ok {bp : PbBlock} :
    blockFromProto H bp = .ok b ↔ headerFromProto H bp.header = .ok () ∧
      ∃ evidence, bp.evidence.mapM (evidenceFromProto H) = .ok evidence ∧
        bp.lastCommit.elim (pure ()) (commitFromProto H) = .ok () ∧
        b.validateBasic H = .ok () ∧ b = ⟨bp.header, bp.txs, evidence, bp.lastCommit⟩ := by
  constructor
  · intro h
    obtain ⟨⟨⟩, hheader, h⟩ := bind_eq_ok.mp h
    obtain ⟨evidence, hevidence, h⟩ := bind_eq_ok.mp h
    obtain ⟨⟨⟩, hcommit, h⟩ := bind_eq_ok.mp h
    obtain ⟨⟨⟩, hvalid, h⟩ := bind_eq_ok.mp h
    cases h
    exact ⟨hheader, evidence, hevidence, hcommit, hvalid, rfl⟩
  · rintro ⟨hheader, evidence, hevidence, hcommit, hvalid, rfl⟩
    rw [blockFromProto, hheader, hevidence]
    simp only [bind, Except.bind, hcommit, hvalid]
    rfl

/-- A block without evidence that passes the checks is decoded as it was. -/
theorem decodeBlock_marshal {commit : Commit} {bytes : Bytes}
    (hheader : headerFromProto H b.header = .ok ()) (hevidence : b.evidence = [])
    (hlast : b.lastCommit = some commit) (hcommit : commitFromProto H commit = .ok ())
    (hvalid : b.validateBasic H = .ok ()) (h : b.marshal = some bytes) :
    decodeBlock H bytes = .ok b := by
  obtain ⟨header, txs, evidence, lastCommit⟩ := b
  obtain rfl : evidence = [] := hevidence
  obtain rfl : lastCommit = some commit := hlast
  obtain ⟨headerBytes, hheaderBytes, h⟩ := bind_eq_some_iff.mp h
  obtain ⟨evidenceBytes, hevidenceBytes, h⟩ := bind_eq_some_iff.mp h
  obtain rfl : [] = evidenceBytes := some.inj hevidenceBytes
  obtain ⟨commitValues, hcommitValues, h⟩ := bind_eq_some_iff.mp h
  obtain ⟨commitBytes, hcommitBytes, rfl⟩ := map_eq_some_iff.mp hcommitValues
  cases h
  have hread : PbBlock.unmarshal (Wire.marshal
      [⟨1, [.bytes headerBytes]⟩, ⟨2, [.bytes (Wire.marshal [⟨1, txs.map .bytes⟩])]⟩,
        ⟨3, [.bytes (Wire.marshal [⟨1, ([] : List Bytes).map .bytes⟩])]⟩,
        ⟨4, [.bytes commitBytes]⟩]) = some ⟨header, txs, [], some commit⟩ := by
    simp [PbBlock.unmarshal, unmarshalList, asMessages,
      Header.unmarshal_inverts _ _ hheaderBytes, Commit.unmarshal_inverts _ _ hcommitBytes]
  rw [decodeBlock, hread]
  exact blockFromProto_eq_ok.mpr ⟨hheader, [], rfl, hcommit, hvalid, rfl⟩

/-- The time of a message, or the zero time, can be written again. -/
theorem representable_of_asMessage {vs : List Value} {t : Option Time}
    (h : asMessage Time.unmarshal vs = some t) : (t.getD .zero).Representable := by
  cases t with
  | none => decide
  | some t =>
    obtain ⟨content, hcontent⟩ : ∃ content, Time.unmarshal content = some t := by
      match vs, h with
      | [.bytes content], h =>
        obtain ⟨t', ht', heq⟩ := map_eq_some_iff.mp h
        exact ⟨content, some.inj heq ▸ ht'⟩
    obtain ⟨fs, -, h⟩ := bind_eq_some_iff.mp hcontent
    obtain ⟨seconds, -, h⟩ := bind_eq_some_iff.mp h
    obtain ⟨nanos, -, h⟩ := bind_eq_some_iff.mp h
    split at h
    · simp only at h
      split at h
      · rename_i hrep
        exact some.inj h ▸ hrep
      · cases h
    · cases h

theorem Header.representable_of_unmarshal {header : Header} (h : unmarshal input = some header) :
    header.time.Representable := by
  obtain ⟨fs, -, h⟩ := bind_eq_some_iff.mp h
  obtain ⟨version, -, h⟩ := bind_eq_some_iff.mp h
  obtain ⟨chainID, -, h⟩ := bind_eq_some_iff.mp h
  obtain ⟨height, -, h⟩ := bind_eq_some_iff.mp h
  obtain ⟨time, htime, h⟩ := bind_eq_some_iff.mp h
  obtain ⟨lastBlockID, -, h⟩ := bind_eq_some_iff.mp h
  obtain ⟨lastCommitHash, -, h⟩ := bind_eq_some_iff.mp h
  obtain ⟨dataHash, -, h⟩ := bind_eq_some_iff.mp h
  obtain ⟨validatorsHash, -, h⟩ := bind_eq_some_iff.mp h
  obtain ⟨nextValidatorsHash, -, h⟩ := bind_eq_some_iff.mp h
  obtain ⟨consensusHash, -, h⟩ := bind_eq_some_iff.mp h
  obtain ⟨appHash, -, h⟩ := bind_eq_some_iff.mp h
  obtain ⟨lastResultsHash, -, h⟩ := bind_eq_some_iff.mp h
  obtain ⟨evidenceHash, -, h⟩ := bind_eq_some_iff.mp h
  obtain ⟨proposerAddress, -, h⟩ := bind_eq_some_iff.mp h
  obtain ⟨delayTime, -, h⟩ := bind_eq_some_iff.mp h
  obtain ⟨deliverTime, -, h⟩ := bind_eq_some_iff.mp h
  cases h
  exact representable_of_asMessage htime

/-- What is known of a block that was decoded. -/
structure Decoded (H : HashFunction) (b : Block) : Prop where
  header : headerFromProto H b.header = .ok ()
  lastCommit : ∃ commit, b.lastCommit = some commit ∧ commitFromProto H commit = .ok ()
  valid : b.validateBasic H = .ok ()
  time : b.header.time.Representable

theorem decoded_of_decodeBlock (h : decodeBlock H input = .ok b) : Decoded H b := by
  unfold decodeBlock at h
  split at h
  · cases h
  · rename_i bp hbp
    obtain ⟨hheader, evidence, -, hcommit, hvalid, rfl⟩ := blockFromProto_eq_ok.mp h
    refine ⟨hheader, ?_, hvalid, ?_⟩
    · cases hlast : bp.lastCommit with
      | none =>
        simp only [Block.validateBasic, hlast] at hvalid
        obtain ⟨-, hnil⟩ := Check.seq_eq_ok.mp hvalid
        cases hnil
      | some commit =>
        rw [hlast] at hcommit
        exact ⟨commit, rfl, hcommit⟩
    · obtain ⟨slot, -, hbp⟩ := bind_eq_some_iff.mp hbp
      obtain ⟨header, hread, hbp⟩ := bind_eq_some_iff.mp hbp
      obtain ⟨txs, -, hbp⟩ := bind_eq_some_iff.mp hbp
      obtain ⟨evidence, -, hbp⟩ := bind_eq_some_iff.mp hbp
      obtain ⟨lastCommit, -, hbp⟩ := bind_eq_some_iff.mp hbp
      cases hbp
      cases header with
      | none => exact (by decide : Time.zero.Representable)
      | some header =>
        generalize slot 1 = vs at hread
        match vs, hread with
        | [.bytes content], hread =>
          obtain ⟨header', hheader', heq⟩ := map_eq_some_iff.mp hread
          exact Header.representable_of_unmarshal (some.inj heq ▸ hheader')

end NimbleChain.Tendermint
