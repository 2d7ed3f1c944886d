import NimbleChain.Tendermint.Canonical
import NimbleChain.Tendermint.PartSet

/-!
# Consensus messages

The messages of the consensus reactor (`consensus/reactor.go`), the protobuf types with their wire
encoding (`proto/tendermint/consensus`), and the conversions `MsgToProto` and `MsgFromProto`
(`consensus/msgs.go`). A protobuf message whose fields are those of the Go type is represented by
the Go type. A nil dereference is the failure `panic`.
-/

namespace NimbleChain.Tendermint

open Common Common.Wire Check Option BitArray

/-- `tmprotobits.BitArray`. -/
structure PbBitArray where
  bits : Int64
  elems : List UInt64
  deriving DecidableEq

/-- `PDTInfo`. -/
structure PDTInfo where
  height : Int64
  pdtValue : Float64
  bdtValue : Float64
  deriving DecidableEq

/-- The types behind the `Message` interface. -/
inductive Message where
  | newRoundStep (height : Int64) (round : Int32) (step : UInt8) (secondsSinceStartTime : Int64)
      (lastCommitRound : Int32)
  | newValidBlock (height : Int64) (round : Int32) (blockPartSetHeader : PartSetHeader)
      (blockParts : Option BitArray) (isCommit : Bool)
  | proposal (proposal : Option Proposal)
  | proposalPOL (height : Int64) (proposalPOLRound : Int32) (proposalPOL : Option BitArray)
  | blockPart (height : Int64) (round : Int32) (part : Option Part)
  | vote (vote : Option Vote)
  | hasVote (height : Int64) (round : Int32) (type : Int32) (index : Int32)
  | pdt (pdtInfo : Option PDTInfo)
  | voteSetMaj23 (height : Int64) (round : Int32) (type : Int32) (blockID : BlockID)
  | voteSetBits (height : Int64) (round : Int32) (type : Int32) (blockID : BlockID)
      (votes : Option BitArray)
  deriving DecidableEq

/-- The messages that `tmcons.Message` can hold. -/
inductive PbMessage where
  | newRoundStep (height : Int64) (round : Int32) (step : UInt32) (secondsSinceStartTime : Int64)
      (lastCommitRound : Int32)
  | newValidBlock (height : Int64) (round : Int32) (blockPartSetHeader : PartSetHeader)
      (blockParts : Option PbBitArray) (isCommit : Bool)
  | proposal (proposal : Proposal)
  | proposalPOL (height : Int64) (proposalPOLRound : Int32) (proposalPOL : PbBitArray)
  | blockPart (height : Int64) (round : Int32) (part : Part)
  | vote (vote : Option Vote)
  | hasVote (height : Int64) (round : Int32) (type : Int32) (index : Int32)
  | pdt (pdtInfo : Option PDTInfo)
  | voteSetMaj23 (height : Int64) (round : Int32) (type : Int32) (blockID : BlockID)
  | voteSetBits (height : Int64) (round : Int32) (type : Int32) (blockID : BlockID)
      (votes : PbBitArray)
  deriving DecidableEq

section Validation

variable (H : HashFunction)

/-- `MaxVotesCount`. -/
def maxVotesCount : Int := 10000

/-- `BlockPartSizeBytes`. -/
def blockPartSizeBytes : Nat := 65536

/-- `MaxBlockPartsCount`. -/
def maxBlockPartsCount : Int := 104857600 / 65536 + 1

/-- `MaxAunts`. -/
def maxAunts : Nat := 100

/-- `IsVoteTypeValid`. -/
def isVoteTypeValid (type : Int32) : Bool :=
  type = prevoteType ∨ type = precommitType

/-- `BitArray.Size`. -/
def BitArray.size (bA : Option BitArray) : Int :=
  bA.elim 0 bits

/-- `merkle.Proof.ValidateBasic`. -/
def MerkleProof.validateBasic (sp : MerkleProof) : Check := do
  failIf (sp.total < 0) "negative Total" [] []
  failIf (sp.index < 0) "negative Index" [] []
  failIf (sp.leafHash.length ≠ H.size) "expected LeafHash size to be %d, got %d"
    [H.size, sp.leafHash.length] []
  failIf (sp.aunts.length > maxAunts) "expected no more than %d aunts, got %d"
    [maxAunts, sp.aunts.length] []
  validateEach "expected Aunts#%d size to be %d, got %d"
    (fun auntHash => failIf (auntHash.length ≠ H.size) "" [H.size, auntHash.length] []) 0
    sp.aunts

/-- `Part.ValidateBasic`. -/
def Part.validateBasic (part : Part) : Check := do
  failIf (part.bytes.length > blockPartSizeBytes) "too big: %d bytes, max: %d"
    [part.bytes.length, blockPartSizeBytes] []
  within "wrong Proof: %w" [] (part.proof.validateBasic H)

/-- `Proposal.ValidateBasic`. -/
def Proposal.validateBasic (p : Proposal) : Check := do
  failIf (p.type ≠ proposalType) "invalid Type" [] []
  failIf (p.height < 0) "negative Height" [] []
  failIf (p.round < 0) "negative Round" [] []
  failIf (p.polRound < -1) "negative POLRound (exception: -1)" [] []
  within "wrong BlockID: %v" [] (p.blockID.validateBasic H)
  failIf (!p.blockID.isComplete H) "expected a complete, non-empty BlockID, got: %v"
    [p.blockID.partSetHeader.total.toNat] [p.blockID.hash, p.blockID.partSetHeader.hash]
  failIf (p.signature = []) "signature is missing" [] []
  failIf (p.signature.length > maxSignatureSize) "signature is too big (max: %d)"
    [maxSignatureSize] []

/-- `ValidateBasic` of the messages. -/
def Message.validateBasic : Message → Check
  | newRoundStep height round step _ lastCommitRound => do
    failIf (height < 0) "negative Height" [] []
    failIf (round < 0) "negative Round" [] []
    failIf (¬ (1 ≤ step ∧ step ≤ 8)) "invalid Step" [] []
    failIf (lastCommitRound < -1) "invalid LastCommitRound (cannot be < -1)" [] []
  | newValidBlock height round blockPartSetHeader blockParts _ => do
    failIf (height < 0) "negative Height" [] []
    failIf (round < 0) "negative Round" [] []
    within "wrong BlockPartSetHeader: %v" [] (blockPartSetHeader.validateBasic H)
    failIf (size blockParts = 0) "empty blockParts" [] []
    failIf (size blockParts ≠ blockPartSetHeader.total.toNat)
      "blockParts bit array size %d not equal to BlockPartSetHeader.Total %d"
      [size blockParts, blockPartSetHeader.total.toNat] []
    failIf (size blockParts > maxBlockPartsCount)
      "blockParts bit array is too big: %d, max: %d"
      [size blockParts, maxBlockPartsCount] []
  | proposal p => do
    let p ← orPanic p
    p.validateBasic H
  | proposalPOL height polRound pol => do
    failIf (height < 0) "negative Height" [] []
    failIf (polRound < 0) "negative ProposalPOLRound" [] []
    failIf (size pol = 0) "empty ProposalPOL bit array" [] []
    failIf (size pol > maxVotesCount)
      "proposalPOL bit array is too big: %d, max: %d" [size pol, maxVotesCount] []
  | blockPart height round part => do
    failIf (height < 0) "negative Height" [] []
    failIf (round < 0) "negative Round" [] []
    let part ← orPanic part
    within "wrong Part: %v" [] (part.validateBasic H)
  | vote v => do
    let v ← orPanic v
    v.validateBasic H
  | hasVote height round type index => do
    failIf (height < 0) "negative Height" [] []
    failIf (round < 0) "negative Round" [] []
    failIf (!isVoteTypeValid type) "invalid Type" [] []
    failIf (index < 0) "negative Index" [] []
  | pdt _ => pure ()
  | voteSetMaj23 height round type blockID => do
    failIf (height < 0) "negative Height" [] []
    failIf (round < 0) "negative Round" [] []
    failIf (!isVoteTypeValid type) "invalid Type" [] []
    within "wrong BlockID: %v" [] (blockID.validateBasic H)
  | voteSetBits height _ type blockID votes => do
    failIf (height < 0) "negative Height" [] []
    failIf (!isVoteTypeValid type) "invalid Type" [] []
    within "wrong BlockID: %v" [] (blockID.validateBasic H)
    failIf (size votes > maxVotesCount) "votes bit array is too big: %d, max: %d"
      [size votes, maxVotesCount] []

end Validation

section Conversion

variable (H : HashFunction)

/-- `BitArray.ToProto`. -/
def BitArray.toProto : Option BitArray → Option PbBitArray
  | none => none
  | some bA => if bA.elems = [] then none else some
    { bits := Int64.ofInt bA.bits, elems := bA.elems }

/-- `BitArray.FromProto` into a new bit array, which is left as it is if there is no message. -/
def BitArray.fromProto : Option PbBitArray → BitArray
  | none => { bits := 0, elems := [] }
  | some pb => { bits := pb.bits.toInt, elems := pb.elems }

/-- The zero value of `tmproto.Proposal`. -/
def Proposal.empty : Proposal where
  type := 0
  height := 0
  round := 0
  polRound := 0
  blockID := ⟨[], 0, []⟩
  timestamp := .zero
  signature := []

/-- `MsgToProto`. -/
def msgToProto : Message → Except Failure PbMessage
  | .newRoundStep height round step secondsSinceStartTime lastCommitRound =>
    .ok (.newRoundStep height round step.toUInt32 secondsSinceStartTime lastCommitRound)
  | .newValidBlock height round blockPartSetHeader blockParts isCommit =>
    .ok (.newValidBlock height round blockPartSetHeader (toProto blockParts) isCommit)
  | .proposal proposal => .ok (.proposal (proposal.getD .empty))
  | .proposalPOL height proposalPOLRound proposalPOL => do
    let bits ← orPanic (toProto proposalPOL)
    return .proposalPOL height proposalPOLRound bits
  | .blockPart height round part =>
    match part with
    | none => .error (.error (.wrap "msg to proto error: %w" [] (.new "nil part" [] [])))
    | some part => .ok (.blockPart height round part)
  | .vote vote => .ok (.vote vote)
  | .hasVote height round type index => .ok (.hasVote height round type index)
  | .pdt pdtInfo => do
    let pdtInfo ← orPanic pdtInfo
    return .pdt (some pdtInfo)
  | .voteSetMaj23 height round type blockID => .ok (.voteSetMaj23 height round type blockID)
  | .voteSetBits height round type blockID votes =>
    .ok (.voteSetBits height round type blockID ((toProto votes).getD ⟨0, []⟩))

/-- `BlockIDFromProto`. -/
def blockIDFromProto (id : BlockID) : Check := do
  id.partSetHeader.validateBasic H
  id.validateBasic H

theorem partSetHeader_of_validateBasic {H : HashFunction} {id : BlockID}
    (h : id.validateBasic H = .ok ()) :
    id.partSetHeader.validateBasic H = .ok () := by
  unfold BlockID.validateBasic at h
  split at h
  · exact within_eq_ok.mp h
  · cases h

theorem blockIDFromProto_of_validateBasic {H : HashFunction} {id : BlockID}
    (h : id.validateBasic H = .ok ()) :
    blockIDFromProto H id = .ok () :=
  seq_eq_ok.mpr ⟨partSetHeader_of_validateBasic h, h⟩

/-- `ProposalFromProto`. -/
def proposalFromProto (p : Proposal) : Check := do
  blockIDFromProto H p.blockID
  p.validateBasic H

/-- `VoteFromProto`. -/
def voteFromProto : Option Vote → Check
  | none => fail "nil vote" [] []
  | some vote => do
    blockIDFromProto H vote.blockID
    vote.validateBasic H

/-- `PartFromProto`. -/
def partFromProto (part : Part) : Check := do
  part.proof.validateBasic H
  part.validateBasic H

/-- The switch of `MsgFromProto`. -/
def msgFromProtoUnchecked : PbMessage → Except Failure Message
  | .newRoundStep height round step secondsSinceStartTime lastCommitRound =>
    if step.toNat > 255 then
      .error (.error (.wrap "denying message due to possible overflow: %w" []
        (.new "uint8 overflow" [] [])))
    else
      .ok (.newRoundStep height round step.toUInt8 secondsSinceStartTime lastCommitRound)
  | .newValidBlock height round blockPartSetHeader blockParts isCommit => do
    within "parts to proto error: %w" [] (blockPartSetHeader.validateBasic H)
    return .newValidBlock height round blockPartSetHeader (some (fromProto blockParts))
      isCommit
  | .proposal proposal => do
    within "proposal msg to proto error: %w" [] (proposalFromProto H proposal)
    return .proposal (some proposal)
  | .proposalPOL height proposalPOLRound proposalPOL =>
    .ok (.proposalPOL height proposalPOLRound (some (fromProto (some proposalPOL))))
  | .blockPart height round part => do
    within "blockpart msg to proto error: %w" [] (partFromProto H part)
    return .blockPart height round (some part)
  | .vote vote => do
    within "vote msg to proto error: %w" [] (voteFromProto H vote)
    return .vote vote
  | .hasVote height round type index => .ok (.hasVote height round type index)
  | .pdt pdtInfo => do
    -- `PDTInfoFromProto` dereferences its argument
    let pdtInfo ← orPanic pdtInfo
    return .pdt (some pdtInfo)
  | .voteSetMaj23 height round type blockID => do
    within "voteSetMaj23 msg to proto error: %w" [] (blockIDFromProto H blockID)
    return .voteSetMaj23 height round type blockID
  | .voteSetBits height round type blockID votes => do
    within "voteSetBits msg to proto error: %w" [] (blockIDFromProto H blockID)
    return .voteSetBits height round type blockID (some (fromProto (some votes)))

/-- `MsgFromProto`. -/
def msgFromProto (p : Option PbMessage) : Except Failure Message :=
  match p with
  | none => .error (.error (.new "unknown message: %T" [] []))
  | some p => do
    let msg ← msgFromProtoUnchecked H p
    msg.validateBasic H
    return msg

end Conversion

variable (input : Bytes) (sp : MerkleProof) (bA : PbBitArray) {msg : PbMessage}

section Encoding

/-- `Proposal.Marshal`. -/
def Proposal.marshal (p : Proposal) : Option Bytes :=
  p.timestamp.marshal.map fun timestamp => Wire.marshal
    [⟨1, scalar (int32 p.type)⟩, ⟨2, scalar (int64 p.height)⟩, ⟨3, scalar (int32 p.round)⟩,
      ⟨4, scalar (int32 p.polRound)⟩, ⟨5, [.bytes p.blockID.marshal]⟩, ⟨6, [.bytes timestamp]⟩,
      ⟨7, blob p.signature⟩]

/-- `Proposal.Unmarshal`. -/
def Proposal.unmarshal : Option Proposal := do
  let slot ← Wire.slots input
  let type ← asScalar (slot 1)
  let height ← asScalar (slot 2)
  let round ← asScalar (slot 3)
  let polRound ← asScalar (slot 4)
  let blockID ← asMessage BlockID.unmarshal (slot 5)
  let timestamp ← asMessage Time.unmarshal (slot 6)
  let signature ← asBlob (slot 7)
  return ⟨toInt32 type, toInt64 height, toInt32 round, toInt32 polRound, blockID.getD ⟨[], 0, []⟩,
    timestamp.getD .zero, signature⟩

theorem Proposal.unmarshal_marshal {p : Proposal} {b : Bytes} (h : p.marshal = some b) :
    unmarshal b = some p := by
  obtain ⟨t, ht, rfl⟩ := map_eq_some_iff.mp h
  simp [unmarshal, Time.unmarshal_marshal ht]

/-- `tmcrypto.Proof.Marshal`. -/
def MerkleProof.marshal : Bytes :=
  Wire.marshal [⟨1, scalar (int64 sp.total)⟩, ⟨2, scalar (int64 sp.index)⟩, ⟨3, blob sp.leafHash⟩,
    ⟨4, sp.aunts.map .bytes⟩]

/-- `tmcrypto.Proof.Unmarshal`. -/
def MerkleProof.unmarshal : Option MerkleProof := do
  let slot ← Wire.slots input
  let total ← asScalar (slot 1)
  let index ← asScalar (slot 2)
  let leafHash ← asBlob (slot 3)
  let aunts ← asBlobs (slot 4)
  return ⟨toInt64 total, toInt64 index, leafHash, aunts⟩

@[simp] theorem MerkleProof.unmarshal_marshal :
    unmarshal sp.marshal = some sp := by
  simp [unmarshal, marshal]

/-- `tmproto.Part.Marshal`. -/
def Part.marshal (part : Part) : Bytes :=
  Wire.marshal
    [⟨1, scalar part.index.toNat⟩, ⟨2, blob part.bytes⟩, ⟨3, [.bytes part.proof.marshal]⟩]

/-- `tmproto.Part.Unmarshal`. -/
def Part.unmarshal : Option Part := do
  let slot ← Wire.slots input
  let index ← asScalar (slot 1)
  let bytes ← asBlob (slot 2)
  let proof ← asMessage MerkleProof.unmarshal (slot 3)
  return ⟨UInt32.ofNat index, bytes, proof.getD ⟨0, 0, [], []⟩⟩

@[simp] theorem Part.unmarshal_marshal (part : Part) : unmarshal part.marshal = some part := by
  simp [unmarshal, marshal]

/-- `tmprotobits.BitArray.Marshal`. -/
def PbBitArray.marshal : Bytes :=
  Wire.marshal [⟨1, scalar (int64 bA.bits)⟩, ⟨2, packed (bA.elems.map UInt64.toNat)⟩]

/-- `tmprotobits.BitArray.Unmarshal`. -/
def PbBitArray.unmarshal : Option PbBitArray := do
  let slot ← Wire.slots input
  let bits ← asScalar (slot 1)
  let elems ← asPacked (slot 2)
  return ⟨toInt64 bits, elems.map UInt64.ofNat⟩

@[simp] theorem PbBitArray.unmarshal_marshal :
    unmarshal bA.marshal = some bA := by
  simp [unmarshal, marshal, Function.comp_def]

/-- `tmproto.PDTInfo.Marshal`. -/
def PDTInfo.marshal (info : PDTInfo) : Bytes :=
  Wire.marshal [⟨1, scalar (int64 info.height)⟩, ⟨2, double info.pdtValue.bits⟩,
    ⟨3, double info.bdtValue.bits⟩]

/-- `tmproto.PDTInfo.Unmarshal`. -/
def PDTInfo.unmarshal : Option PDTInfo := do
  let slot ← Wire.slots input
  let height ← asScalar (slot 1)
  let pdtValue ← asDouble (slot 2)
  let bdtValue ← asDouble (slot 3)
  return ⟨toInt64 height, .ofBits pdtValue, .ofBits bdtValue⟩

@[simp] theorem PDTInfo.unmarshal_marshal (info : PDTInfo) :
    unmarshal info.marshal = some info := by
  simp [unmarshal, marshal]

/-- A truth value on the wire. -/
def boolean (b : Bool) : List Value :=
  scalar (if b then 1 else 0)

theorem asScalar_boolean (b : Bool) : (asScalar (boolean b)).map (· != 0) = some b := by
  cases b <;> rfl

namespace PbMessage

/-- The field number of the alternative in `tmcons.Message`. -/
def number : PbMessage → Nat
  | newRoundStep .. => 1
  | newValidBlock .. => 2
  | proposal .. => 3
  | proposalPOL .. => 4
  | blockPart .. => 5
  | vote .. => 6
  | hasVote .. => 7
  | pdt .. => 8
  | voteSetMaj23 .. => 9
  | voteSetBits .. => 10

/-- The bytes of the alternative. -/
def body : PbMessage → Option Bytes
  | newRoundStep height round step secondsSinceStartTime lastCommitRound =>
    some (Wire.marshal [⟨1, scalar (int64 height)⟩, ⟨2, scalar (int32 round)⟩,
      ⟨3, scalar step.toNat⟩, ⟨4, scalar (int64 secondsSinceStartTime)⟩,
      ⟨5, scalar (int32 lastCommitRound)⟩])
  | newValidBlock height round blockPartSetHeader blockParts isCommit =>
    some (Wire.marshal [⟨1, scalar (int64 height)⟩, ⟨2, scalar (int32 round)⟩,
      ⟨3, [.bytes blockPartSetHeader.marshal]⟩,
      ⟨4, blockParts.elim [] fun bA => [.bytes bA.marshal]⟩, ⟨5, boolean isCommit⟩])
  | proposal p => p.marshal.map fun content => Wire.marshal [⟨1, [.bytes content]⟩]
  | proposalPOL height polRound pol =>
    some (Wire.marshal [⟨1, scalar (int64 height)⟩, ⟨2, scalar (int32 polRound)⟩,
      ⟨3, [.bytes pol.marshal]⟩])
  | blockPart height round part =>
    some (Wire.marshal [⟨1, scalar (int64 height)⟩, ⟨2, scalar (int32 round)⟩,
      ⟨3, [.bytes part.marshal]⟩])
  | vote none => some (Wire.marshal [⟨1, []⟩])
  | vote (some v) => v.marshal.map fun content => Wire.marshal [⟨1, [.bytes content]⟩]
  | hasVote height round type index =>
    some (Wire.marshal [⟨1, scalar (int64 height)⟩, ⟨2, scalar (int32 round)⟩,
      ⟨3, scalar (int32 type)⟩, ⟨4, scalar (int32 index)⟩])
  | pdt info => some (Wire.marshal [⟨1, info.elim [] fun info => [.bytes info.marshal]⟩])
  | voteSetMaj23 height round type blockID =>
    some (Wire.marshal [⟨1, scalar (int64 height)⟩, ⟨2, scalar (int32 round)⟩,
      ⟨3, scalar (int32 type)⟩, ⟨4, [.bytes blockID.marshal]⟩])
  | voteSetBits height round type blockID votes =>
    some (Wire.marshal [⟨1, scalar (int64 height)⟩, ⟨2, scalar (int32 round)⟩,
      ⟨3, scalar (int32 type)⟩, ⟨4, [.bytes blockID.marshal]⟩, ⟨5, [.bytes votes.marshal]⟩])

/-- `tmcons.Message.Marshal`. -/
def marshal (msg : PbMessage) : Option Bytes :=
  msg.body.map fun content => Wire.marshal [⟨msg.number, [.bytes content]⟩]

/-- The alternative with a field number. An unknown field is skipped. -/
def readBody (field : Nat × Value) : Option (Option PbMessage) := do
  let (number, value) := field
  if ¬ (1 ≤ number ∧ number ≤ 10) then return none
  let content ← match value with
    | .bytes content => some content
    | _ => none
  let slot ← Wire.slots content
  match number with
  | 1 =>
    let height ← asScalar (slot 1)
    let round ← asScalar (slot 2)
    let step ← asScalar (slot 3)
    let secondsSinceStartTime ← asScalar (slot 4)
    let lastCommitRound ← asScalar (slot 5)
    return some (newRoundStep (toInt64 height) (toInt32 round) (UInt32.ofNat step)
      (toInt64 secondsSinceStartTime) (toInt32 lastCommitRound))
  | 2 =>
    let height ← asScalar (slot 1)
    let round ← asScalar (slot 2)
    let blockPartSetHeader ← asMessage PartSetHeader.unmarshal (slot 3)
    let blockParts ← asMessage PbBitArray.unmarshal (slot 4)
    let isCommit ← (asScalar (slot 5)).map (· != 0)
    return some (newValidBlock (toInt64 height) (toInt32 round) (blockPartSetHeader.getD ⟨0, []⟩)
      blockParts isCommit)
  | 3 =>
    let p ← asMessage Proposal.unmarshal (slot 1)
    return some (proposal (p.getD .empty))
  | 4 =>
    let height ← asScalar (slot 1)
    let polRound ← asScalar (slot 2)
    let pol ← asMessage PbBitArray.unmarshal (slot 3)
    return some (proposalPOL (toInt64 height) (toInt32 polRound) (pol.getD ⟨0, []⟩))
  | 5 =>
    let height ← asScalar (slot 1)
    let round ← asScalar (slot 2)
    let part ← asMessage Part.unmarshal (slot 3)
    return some (blockPart (toInt64 height) (toInt32 round) (part.getD ⟨0, [], ⟨0, 0, [], []⟩⟩))
  | 6 =>
    let v ← asMessage Vote.unmarshal (slot 1)
    return some (vote v)
  | 7 =>
    let height ← asScalar (slot 1)
    let round ← asScalar (slot 2)
    let type ← asScalar (slot 3)
    let index ← asScalar (slot 4)
    return some (hasVote (toInt64 height) (toInt32 round) (toInt32 type) (toInt32 index))
  | 8 =>
    let info ← asMessage PDTInfo.unmarshal (slot 1)
    return some (pdt info)
  | 9 =>
    let height ← asScalar (slot 1)
    let round ← asScalar (slot 2)
    let type ← asScalar (slot 3)
    let blockID ← asMessage BlockID.unmarshal (slot 4)
    return some (voteSetMaj23 (toInt64 height) (toInt32 round) (toInt32 type)
      (blockID.getD ⟨[], 0, []⟩))
  | _ =>
    let height ← asScalar (slot 1)
    let round ← asScalar (slot 2)
    let type ← asScalar (slot 3)
    let blockID ← asMessage BlockID.unmarshal (slot 4)
    let votes ← asMessage PbBitArray.unmarshal (slot 5)
    return some (voteSetBits (toInt64 height) (toInt32 round) (toInt32 type)
      (blockID.getD ⟨[], 0, []⟩) (votes.getD ⟨0, []⟩))

/-- `tmcons.Message.Unmarshal`, with `none` inside for a message without an alternative. -/
def unmarshal : Option (Option PbMessage) := do
  let fields ← Wire.unmarshal input
  asOneof readBody fields

theorem readBody_body {content : Bytes} (h : msg.body = some content) :
    readBody (msg.number, .bytes content) = some (some msg) := by
  cases msg with
  | newRoundStep =>
    cases h
    simp [readBody, number]
  | newValidBlock =>
    cases h
    simp [readBody, number, asScalar_boolean, asMessage_elim PbBitArray.unmarshal_marshal]
  | proposal p =>
    obtain ⟨inner, hinner, rfl⟩ := map_eq_some_iff.mp h
    simp [readBody, number, Proposal.unmarshal_marshal hinner]
  | proposalPOL =>
    cases h
    simp [readBody, number]
  | blockPart =>
    cases h
    simp [readBody, number]
  | vote v =>
    cases v with
    | none =>
      cases h
      simp [readBody, number, asMessage]
    | some v =>
      obtain ⟨inner, hinner, rfl⟩ := map_eq_some_iff.mp h
      simp [readBody, number, Vote.unmarshal_marshal hinner]
  | hasVote =>
    cases h
    simp [readBody, number]
  | pdt info =>
    cases h
    simp [readBody, number, asMessage_elim PDTInfo.unmarshal_marshal]
  | voteSetMaj23 =>
    cases h
    simp [readBody, number]
  | voteSetBits =>
    cases h
    simp [readBody, number]

theorem unmarshal_marshal {b : Bytes} (h : msg.marshal = some b) :
    unmarshal b = some (some msg) := by
  obtain ⟨content, hcontent, rfl⟩ := map_eq_some_iff.mp h
  rw [unmarshal, Wire.unmarshal_marshal]
  exact asOneof_singleton (readBody_body hcontent)

end PbMessage

end Encoding

end NimbleChain.Tendermint
