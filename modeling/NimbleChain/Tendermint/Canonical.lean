import NimbleChain.Tendermint.Validation

/-!
# Canonical messages and sign bytes

The canonical forms of votes and proposals (`types/canonical.go`), the bytes that are signed for
them, and the readers for these bytes. A canonical form leaves out who votes, and has no block
identifier where the original has an empty one. The readers expect what the writers produce, where
no field occurs twice.
-/

namespace NimbleChain.Tendermint

open Common Common.Wire

variable (input : Bytes) (H : HashFunction)

/-! ### Canonical forms -/

/-- `CanonicalVote`. -/
structure CanonicalVote where
  type : Int32
  height : Int64
  round : Int64
  blockID : Option BlockID
  timestamp : Time
  chainID : Bytes
  deriving DecidableEq

namespace CanonicalVote

/-- `CanonicalVote.Marshal`. -/
def marshal (vote : CanonicalVote) : Option Bytes :=
  vote.timestamp.marshal.map fun timestamp => Wire.marshal
    [⟨1, scalar (int32 vote.type)⟩, ⟨2, double vote.height.toUInt64⟩,
      ⟨3, double vote.round.toUInt64⟩,
      ⟨4, vote.blockID.elim [] fun id => [.bytes id.marshal]⟩, ⟨5, [.bytes timestamp]⟩,
      ⟨6, blob vote.chainID⟩]

/-- `CanonicalVote.Unmarshal`. -/
def unmarshal : Option CanonicalVote := do
  let slot ← Wire.slots input
  let type ← asScalar (slot 1)
  let height ← asDouble (slot 2)
  let round ← asDouble (slot 3)
  let blockID ← asMessage BlockID.unmarshal (slot 4)
  let timestamp ← asMessage Time.unmarshal (slot 5)
  let chainID ← asBlob (slot 6)
  return ⟨toInt32 type, height.toInt64, round.toInt64, blockID, timestamp.getD .zero, chainID⟩

theorem unmarshal_marshal {vote : CanonicalVote} {b : Bytes} (h : vote.marshal = some b) :
    unmarshal b = some vote := by
  obtain ⟨t, ht, rfl⟩ := Option.map_eq_some_iff.mp h
  simp [unmarshal, Time.unmarshal_marshal ht, asMessage_elim BlockID.unmarshal_marshal]

end CanonicalVote

/-- `CanonicalProposal`. -/
structure CanonicalProposal where
  type : Int32
  height : Int64
  round : Int64
  polRound : Int64
  blockID : Option BlockID
  timestamp : Time
  chainID : Bytes
  deriving DecidableEq

namespace CanonicalProposal

/-- `CanonicalProposal.Marshal`. -/
def marshal (proposal : CanonicalProposal) : Option Bytes :=
  proposal.timestamp.marshal.map fun timestamp => Wire.marshal
    [⟨1, scalar (int32 proposal.type)⟩, ⟨2, double proposal.height.toUInt64⟩,
      ⟨3, double proposal.round.toUInt64⟩, ⟨4, scalar (int64 proposal.polRound)⟩,
      ⟨5, proposal.blockID.elim [] fun id => [.bytes id.marshal]⟩, ⟨6, [.bytes timestamp]⟩,
      ⟨7, blob proposal.chainID⟩]

/-- `CanonicalProposal.Unmarshal`. -/
def unmarshal : Option CanonicalProposal := do
  let slot ← Wire.slots input
  let type ← asScalar (slot 1)
  let height ← asDouble (slot 2)
  let round ← asDouble (slot 3)
  let polRound ← asScalar (slot 4)
  let blockID ← asMessage BlockID.unmarshal (slot 5)
  let timestamp ← asMessage Time.unmarshal (slot 6)
  let chainID ← asBlob (slot 7)
  return ⟨toInt32 type, height.toInt64, round.toInt64, toInt64 polRound, blockID,
    timestamp.getD .zero, chainID⟩

theorem unmarshal_marshal {proposal : CanonicalProposal} {b : Bytes}
    (h : proposal.marshal = some b) : unmarshal b = some proposal := by
  obtain ⟨t, ht, rfl⟩ := Option.map_eq_some_iff.mp h
  simp [unmarshal, Time.unmarshal_marshal ht, asMessage_elim BlockID.unmarshal_marshal]

end CanonicalProposal

/-- `ProposalType`. -/
def proposalType : Int32 := 32

/-- `CanonicalizeBlockID`; `none` where it panics. -/
def canonicalizeBlockID (bid : BlockID) : Option (Option BlockID) :=
  match bid.validateBasic H with
  | .ok _ => some (if bid.isZero then none else some bid)
  | .error _ => none

variable (chainID : Bytes) (proposal : Proposal)

/-- `CanonicalizeVote`; `none` where it panics. -/
def canonicalizeVote (vote : Vote) : Option CanonicalVote :=
  (canonicalizeBlockID H vote.blockID).map fun blockID =>
    { type := vote.type
      height := vote.height
      round := vote.round.toInt64
      blockID := blockID
      timestamp := vote.timestamp
      chainID := chainID }

/-- `CanonicalizeProposal`; `none` where it panics. -/
def canonicalizeProposal : Option CanonicalProposal :=
  (canonicalizeBlockID H proposal.blockID).map fun blockID =>
    { type := proposalType
      height := proposal.height
      round := proposal.round.toInt64
      polRound := proposal.polRound.toInt64
      blockID := blockID
      timestamp := proposal.timestamp
      chainID := chainID }

/-! ### Sign bytes -/

/-- `MarshalDelimited` of a canonical vote. -/
def CanonicalVote.signBytes (vote : CanonicalVote) : Option Bytes :=
  vote.marshal.map delimited

/-- `MarshalDelimited` of a canonical proposal. -/
def CanonicalProposal.signBytes (proposal : CanonicalProposal) : Option Bytes :=
  proposal.marshal.map delimited

/-- `VoteSignBytes`; `none` where it panics. -/
def voteSignBytes (vote : Vote) : Option Bytes :=
  (canonicalizeVote H chainID vote).bind CanonicalVote.signBytes

/-- `ProposalSignBytes`; `none` where it panics. -/
def proposalSignBytes : Option Bytes :=
  (canonicalizeProposal H chainID proposal).bind CanonicalProposal.signBytes

/-- `UnmarshalDelimited` into a canonical vote. -/
def CanonicalVote.ofSignBytes : Option CanonicalVote :=
  (readDelimited input).bind unmarshal

/-- `UnmarshalDelimited` into a canonical proposal. -/
def CanonicalProposal.ofSignBytes : Option CanonicalProposal :=
  (readDelimited input).bind unmarshal

variable {b : Bytes} {vote : CanonicalVote} {proposal : CanonicalProposal}

theorem CanonicalVote.ofSignBytes_signBytes (h : vote.signBytes = some b) :
    ofSignBytes b = some vote := by
  obtain ⟨message, hmessage, rfl⟩ := Option.map_eq_some_iff.mp h
  rw [ofSignBytes, readDelimited_delimited, Option.bind_some, unmarshal_marshal hmessage]

theorem CanonicalProposal.ofSignBytes_signBytes (h : proposal.signBytes = some b) :
    ofSignBytes b = some proposal := by
  obtain ⟨message, hmessage, rfl⟩ := Option.map_eq_some_iff.mp h
  rw [ofSignBytes, readDelimited_delimited, Option.bind_some, unmarshal_marshal hmessage]

theorem CanonicalVote.signBytes_ne_nil (h : vote.signBytes = some b) : b ≠ [] := by
  obtain ⟨message, -, rfl⟩ := Option.map_eq_some_iff.mp h
  exact delimited_ne_nil message

theorem CanonicalProposal.signBytes_ne_nil (h : proposal.signBytes = some b) : b ≠ [] := by
  obtain ⟨message, -, rfl⟩ := Option.map_eq_some_iff.mp h
  exact delimited_ne_nil message

end NimbleChain.Tendermint
