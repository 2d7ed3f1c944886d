import NimbleChain.Common.Wire
import NimbleChain.Tendermint.Types

/-!
# Wire encodings

The `ToProto` conversions composed with the generated `Marshal` functions, and the generated
`Unmarshal` functions, which expect no field twice. Marshalling fails for a time that the wire
format cannot represent and for a public key without an encoding. Whatever is encoded is determined
by its encoding, except for parts of evidence that its `ValidateBasic` requires to be there.
-/

namespace NimbleChain.Tendermint

open Common Common.Wire Option Validator

variable (input : Bytes) (l : LightClientAttackEvidence) (psh : PartSetHeader) (t : Time)

/-! ### Numbers -/

/-- `uint64(x)` of an `int64`. -/
def int64 (x : Int64) : Nat :=
  x.toUInt64.toNat

/-- `uint64(x)` of an `int32`, which extends the sign. -/
def int32 (x : Int32) : Nat :=
  int64 x.toInt64

/-- `int64(x)` of a `uint64`. -/
def toInt64 (n : Nat) : Int64 :=
  (UInt64.ofNat n).toInt64

/-- `int32(x)` of a `uint64`, which drops the high bits. -/
def toInt32 (n : Nat) : Int32 :=
  (toInt64 n).toInt32

@[simp] theorem toInt64_int64 (x : Int64) : toInt64 (int64 x) = x := by
  rw [toInt64, int64, UInt64.ofNat_toNat, Int64.toInt64_toUInt64]

@[simp] theorem toInt32_int32 (x : Int32) : toInt32 (int32 x) = x := by
  rw [toInt32, int32, toInt64_int64, Int32.toInt32_toInt64]

@[simp] theorem int64_inj {x y : Int64} : int64 x = int64 y ↔ x = y := by
  refine ⟨fun h => ?_, congrArg int64⟩
  rw [← toInt64_int64 x, h, toInt64_int64]

/-! ### Messages without failing parts -/

namespace Consensus

/-- `Consensus.Marshal`. -/
def marshal (v : Consensus) : Bytes :=
  Wire.marshal [⟨1, scalar v.block.toNat⟩, ⟨2, scalar v.app.toNat⟩]

/-- `Consensus.Unmarshal`. -/
def unmarshal : Option Consensus := do
  let slot ← Wire.slots input
  let block ← asScalar (slot 1)
  let app ← asScalar (slot 2)
  return ⟨UInt64.ofNat block, UInt64.ofNat app⟩

@[simp] theorem unmarshal_marshal (v : Consensus) : unmarshal v.marshal = some v := by
  simp [unmarshal, marshal]

@[simp] theorem marshal_inj {v w : Consensus} : v.marshal = w.marshal ↔ v = w :=
  eq_iff_of_reads unmarshal_marshal

end Consensus

namespace PartSetHeader

/-- `PartSetHeader.Marshal`. -/
def marshal : Bytes :=
  Wire.marshal [⟨1, scalar psh.total.toNat⟩, ⟨2, blob psh.hash⟩]

/-- `PartSetHeader.Unmarshal`. -/
def unmarshal : Option PartSetHeader := do
  let slot ← Wire.slots input
  let total ← asScalar (slot 1)
  let hash ← asBlob (slot 2)
  return ⟨UInt32.ofNat total, hash⟩

@[simp] theorem unmarshal_marshal : unmarshal psh.marshal = some psh := by
  simp [unmarshal, marshal]

@[simp] theorem marshal_inj {v w : PartSetHeader} : v.marshal = w.marshal ↔ v = w :=
  eq_iff_of_reads unmarshal_marshal

end PartSetHeader

namespace BlockID

/-- `BlockID.Marshal`. -/
def marshal (id : BlockID) : Bytes :=
  Wire.marshal [⟨1, blob id.hash⟩, ⟨2, [.bytes id.partSetHeader.marshal]⟩]

/-- `BlockID.Unmarshal`. -/
def unmarshal : Option BlockID := do
  let slot ← Wire.slots input
  let hash ← asBlob (slot 1)
  let partSetHeader ← asMessage PartSetHeader.unmarshal (slot 2)
  return ⟨hash, partSetHeader.getD ⟨0, []⟩⟩

@[simp] theorem unmarshal_marshal (id : BlockID) : unmarshal id.marshal = some id := by
  simp [unmarshal, marshal]

@[simp] theorem marshal_inj {v w : BlockID} : v.marshal = w.marshal ↔ v = w :=
  eq_iff_of_reads unmarshal_marshal

end BlockID

/-! ### Times -/

namespace Time

/-- The times from year 1 up to year 10000, which `StdTimeMarshal` accepts. -/
def Representable : Prop :=
  -62135596800 ≤ t.seconds ∧ t.seconds < 253402300800

instance (t : Time) : Decidable t.Representable :=
  inferInstanceAs (Decidable (_ ∧ _))

/-- `StdTimeMarshal`. -/
def marshal : Option Bytes :=
  if t.Representable then
    some (Wire.marshal [⟨1, scalar (int64 t.seconds)⟩, ⟨2, scalar t.nanos⟩])
  else none

/-- `time.Time.IsZero`: the first instant of year 1. -/
def isZero : Bool :=
  t.seconds = -62135596800 ∧ t.nanos = 0

/-- The zero value of `time.Time`. -/
def zero : Time :=
  ⟨-62135596800, ⟨0, zero_lt_second⟩⟩

/-- `StdTimeUnmarshal`. -/
def unmarshal : Option Time := do
  let slot ← Wire.slots input
  let seconds ← asScalar (slot 1)
  let nanos ← asScalar (slot 2)
  if h : nanos < 1000000000 then
    let time : Time := ⟨toInt64 seconds, ⟨nanos, h⟩⟩
    if time.Representable then some time else none
  else none

theorem unmarshal_marshal {t : Time} {b : Bytes} (h : t.marshal = some b) :
    unmarshal b = some t := by
  unfold marshal at h
  split at h
  · rename_i hrep
    cases h
    simp [unmarshal, hrep]
  · cases h

theorem marshal_faithful : Faithful marshal :=
  Inverts.faithful fun _ _ => unmarshal_marshal

end Time

/-- The number with the given bits; a negative zero is a zero. -/
def Float64.ofBits (bits : UInt64) : Float64 :=
  if h : bits = 0x8000000000000000 then ⟨0, by decide⟩ else ⟨bits, h⟩

@[simp] theorem Float64.ofBits_bits (x : Float64) : ofBits x.bits = x := by
  simp [ofBits, x.ne_negZero]

/-! ### Messages with times and keys -/

namespace CommitSig

/-- `CommitSig.Marshal`. -/
def marshal (cs : CommitSig) : Option Bytes :=
  cs.timestamp.marshal.map fun timestamp => Wire.marshal
    [⟨1, scalar cs.blockIDFlag.toNat⟩, ⟨2, blob cs.validatorAddress⟩, ⟨3, [.bytes timestamp]⟩,
      ⟨4, blob cs.signature⟩]

/-- `CommitSig.Unmarshal`. The flag is converted to a byte. -/
def unmarshal : Option CommitSig := do
  let slot ← Wire.slots input
  let blockIDFlag ← asScalar (slot 1)
  let validatorAddress ← asBlob (slot 2)
  let timestamp ← asMessage Time.unmarshal (slot 3)
  let signature ← asBlob (slot 4)
  return ⟨UInt8.ofNat blockIDFlag, validatorAddress, timestamp.getD .zero, signature⟩

theorem unmarshal_inverts : Inverts unmarshal marshal := by
  intro cs b h
  obtain ⟨t, ht, rfl⟩ := map_eq_some_iff.mp h
  simp [unmarshal, Time.unmarshal_marshal ht]

theorem marshal_faithful : Faithful marshal :=
  unmarshal_inverts.faithful

end CommitSig

namespace Commit

/-- `Commit.Marshal`. -/
def marshal (commit : Commit) : Option Bytes :=
  (commit.signatures.mapM CommitSig.marshal).map fun signatures => Wire.marshal
    [⟨1, scalar (int64 commit.height)⟩, ⟨2, scalar (int32 commit.round)⟩,
      ⟨3, [.bytes commit.blockID.marshal]⟩, ⟨4, signatures.map .bytes⟩]

/-- `Commit.Unmarshal`. -/
def unmarshal : Option Commit := do
  let slot ← Wire.slots input
  let height ← asScalar (slot 1)
  let round ← asScalar (slot 2)
  let blockID ← asMessage BlockID.unmarshal (slot 3)
  let signatures ← asMessages CommitSig.unmarshal (slot 4)
  return ⟨toInt64 height, toInt32 round, blockID.getD ⟨[], 0, []⟩, signatures⟩

theorem unmarshal_inverts : Inverts unmarshal marshal := by
  intro commit b h
  obtain ⟨sigs, hsigs, rfl⟩ := map_eq_some_iff.mp h
  simp [unmarshal, CommitSig.unmarshal_inverts.asMessages hsigs]

end Commit

namespace Header

/-- `Header.Marshal`. -/
def marshal (h : Header) : Option Bytes :=
  h.time.marshal.map fun time => Wire.marshal
    [⟨1, [.bytes h.version.marshal]⟩, ⟨2, blob h.chainID⟩, ⟨3, scalar (int64 h.height)⟩,
      ⟨4, [.bytes time]⟩, ⟨5, [.bytes h.lastBlockID.marshal]⟩, ⟨6, blob h.lastCommitHash⟩,
      ⟨7, blob h.dataHash⟩, ⟨8, blob h.validatorsHash⟩, ⟨9, blob h.nextValidatorsHash⟩,
      ⟨10, blob h.consensusHash⟩, ⟨11, blob h.appHash⟩, ⟨12, blob h.lastResultsHash⟩,
      ⟨13, blob h.evidenceHash⟩, ⟨14, blob h.proposerAddress⟩, ⟨15, double h.delayTime.bits⟩,
      ⟨16, double h.deliverTime.bits⟩]

/-- `Header.Unmarshal`. -/
def unmarshal : Option Header := do
  let slot ← Wire.slots input
  let version ← asMessage Consensus.unmarshal (slot 1)
  let chainID ← asBlob (slot 2)
  let height ← asScalar (slot 3)
  let time ← asMessage Time.unmarshal (slot 4)
  let lastBlockID ← asMessage BlockID.unmarshal (slot 5)
  let lastCommitHash ← asBlob (slot 6)
  let dataHash ← asBlob (slot 7)
  let validatorsHash ← asBlob (slot 8)
  let nextValidatorsHash ← asBlob (slot 9)
  let consensusHash ← asBlob (slot 10)
  let appHash ← asBlob (slot 11)
  let lastResultsHash ← asBlob (slot 12)
  let evidenceHash ← asBlob (slot 13)
  let proposerAddress ← asBlob (slot 14)
  let delayTime ← asDouble (slot 15)
  let deliverTime ← asDouble (slot 16)
  return {
    version := version.getD ⟨0, 0⟩, chainID, height := toInt64 height
    time := time.getD .zero, delayTime := .ofBits delayTime, deliverTime := .ofBits deliverTime
    lastBlockID := lastBlockID.getD ⟨[], 0, []⟩, lastCommitHash, dataHash, validatorsHash
    nextValidatorsHash, consensusHash, appHash, lastResultsHash, evidenceHash, proposerAddress }

theorem unmarshal_inverts : Inverts unmarshal marshal := by
  intro h b hb
  obtain ⟨t, ht, rfl⟩ := map_eq_some_iff.mp hb
  rw [unmarshal, slots, Wire.unmarshal_marshal, map_some]
  generalize hfields : fields _ = fs
  have hslots := valuesAt_slot hfields (by simp)
  simp only [List.forall_mem_cons] at hslots
  have hheight := toInt64_int64 h.height
  have hdelay := Float64.ofBits_bits h.delayTime
  have hdeliver := Float64.ofBits_bits h.deliverTime
  rw [bind_eq_bind, bind_some]
  simp only [hslots, asMessage_bytes, asBlob_blob, asScalar_scalar, asDouble_double,
    Time.unmarshal_marshal ht, Consensus.unmarshal_marshal, BlockID.unmarshal_marshal,
    map_some]
  simp only [Option.bind, bind, hheight, hdelay, hdeliver]
  rfl

end Header

namespace Vote

/-- `Vote.Marshal`. -/
def marshal (vote : Vote) : Option Bytes :=
  vote.timestamp.marshal.map fun timestamp => Wire.marshal
    [⟨1, scalar (int32 vote.type)⟩, ⟨2, scalar (int64 vote.height)⟩,
      ⟨3, scalar (int32 vote.round)⟩, ⟨4, [.bytes vote.blockID.marshal]⟩, ⟨5, [.bytes timestamp]⟩,
      ⟨6, blob vote.validatorAddress⟩, ⟨7, scalar (int32 vote.validatorIndex)⟩,
      ⟨8, blob vote.signature⟩]

/-- `Vote.Unmarshal`. -/
def unmarshal : Option Vote := do
  let slot ← Wire.slots input
  let type ← asScalar (slot 1)
  let height ← asScalar (slot 2)
  let round ← asScalar (slot 3)
  let blockID ← asMessage BlockID.unmarshal (slot 4)
  let timestamp ← asMessage Time.unmarshal (slot 5)
  let validatorAddress ← asBlob (slot 6)
  let validatorIndex ← asScalar (slot 7)
  let signature ← asBlob (slot 8)
  return ⟨toInt32 type, toInt64 height, toInt32 round, blockID.getD ⟨[], 0, []⟩,
    timestamp.getD .zero, validatorAddress, toInt32 validatorIndex, signature⟩

theorem unmarshal_marshal {vote : Vote} {b : Bytes} (h : vote.marshal = some b) :
    unmarshal b = some vote := by
  obtain ⟨t, ht, rfl⟩ := Option.map_eq_some_iff.mp h
  simp [unmarshal, Time.unmarshal_marshal ht]

end Vote

namespace PubKey

/-- `PubKeyToProto` and `PublicKey.Marshal`: only two kinds of keys have an encoding. -/
def marshal : PubKey → Option Bytes
  | ed25519 key => some (Wire.marshal [⟨1, [.bytes key.toList]⟩, ⟨2, []⟩])
  | secp256k1 key => some (Wire.marshal [⟨1, []⟩, ⟨2, [.bytes key.toList]⟩])
  | sr25519 _ => none

theorem marshal_faithful : Faithful marshal := by
  intro v w b hv hw
  cases v <;> cases w <;> simp only [marshal, some.injEq, reduceCtorEq] at hv hw
  all_goals
    have hslots := eq_of_marshal_eq (hv.trans hw.symm) rfl (by simp)
    simp_all [Vector.toList_inj]

end PubKey

namespace Validator

/-- `Validator.ToProto` and `Validator.Marshal`. -/
def marshal (v : Validator) : Option Bytes :=
  (v.pubKey.bind PubKey.marshal).map fun pubKey => Wire.marshal
    [⟨1, blob v.address⟩, ⟨2, [.bytes pubKey]⟩, ⟨3, scalar (int64 v.votingPower)⟩,
      ⟨4, scalar (int64 v.proposerPriority)⟩]

theorem marshal_faithful : Faithful marshal := by
  intro v w b hv hw
  obtain ⟨key, hkey, rfl⟩ := map_eq_some_iff.mp hv
  obtain ⟨key', hkey', heq⟩ := map_eq_some_iff.mp hw
  have hslots := eq_of_marshal_eq heq rfl (by simp)
  obtain ⟨k, hk, hkey⟩ := bind_eq_some_iff.mp hkey
  obtain ⟨k', hk', hkey'⟩ := bind_eq_some_iff.mp hkey'
  simp only [List.cons.injEq, Slot.mk.injEq, scalar_inj, blob_inj, int64_inj, Value.bytes.injEq,
    true_and, and_true] at hslots
  obtain ⟨haddress, rfl, hpower, hpriority⟩ := hslots
  obtain rfl := PubKey.marshal_faithful _ _ _ hkey hkey'
  cases v
  cases w
  simp_all

/-- A nil validator has no encoding. -/
def marshalPtr (v : Option Validator) : Option Bytes :=
  v.bind marshal

theorem marshalPtr_faithful : Faithful marshalPtr := by
  intro v w b hv hw
  obtain ⟨v, rfl, hv⟩ := bind_eq_some_iff.mp hv
  obtain ⟨w, rfl, hw⟩ := bind_eq_some_iff.mp hw
  rw [marshal_faithful _ _ _ hv hw]

end Validator

namespace ValidatorSet

/-- `ValidatorSet.ToProto` and `ValidatorSet.Marshal`. An empty set is encoded without its
proposer, and the total voting power is never encoded. -/
def marshal (vals : ValidatorSet) : Option Bytes :=
  if vals.validators = [] then some []
  else
    (Option.map₂ Prod.mk (vals.validators.mapM marshalPtr)
      (marshalPtr vals.proposer)).map fun parts => Wire.marshal
        [⟨1, parts.1.map .bytes⟩, ⟨2, [.bytes parts.2]⟩]

/-- The encoding of a set that is not empty determines the set. -/
theorem eq_of_marshal {v w : ValidatorSet} {b : Bytes} (hv : v.validators ≠ [])
    (hw : w.validators ≠ []) (hbv : v.marshal = some b) (hbw : w.marshal = some b) : v = w := by
  rw [marshal, if_neg hv] at hbv
  rw [marshal, if_neg hw] at hbw
  obtain ⟨p, hp, hbv⟩ := map_eq_some_iff.mp hbv
  obtain ⟨q, hq, hbw⟩ := map_eq_some_iff.mp hbw
  obtain ⟨vs, pv, hvs, hpv, rfl⟩ := map₂_eq_some_iff.mp hp
  obtain ⟨ws, pw, hws, hpw, rfl⟩ := map₂_eq_some_iff.mp hq
  have hslots := eq_of_marshal_eq (hbv.trans hbw.symm) rfl (by simp)
  simp only [List.cons.injEq, Slot.mk.injEq, map_bytes_inj, Value.bytes.injEq, true_and,
    and_true] at hslots
  obtain ⟨rfl, rfl⟩ := hslots
  have hvals := marshalPtr_faithful.mapM_inj hvs hws
  have hproposer := marshalPtr_faithful _ _ _ hpv hpw
  cases v
  cases w
  simp_all

end ValidatorSet

namespace SignedHeader

/-- `SignedHeader.ToProto` and `SignedHeader.Marshal`. -/
def marshal (sh : SignedHeader) : Option Bytes :=
  (Option.map₂ Prod.mk (optional Header.marshal sh.header)
    (optional Commit.marshal sh.commit)).map fun parts => Wire.marshal [⟨1, parts.1⟩, ⟨2, parts.2⟩]

/-- `SignedHeader.Unmarshal`. -/
def unmarshal : Option SignedHeader := do
  let slot ← Wire.slots input
  let header ← asMessage Header.unmarshal (slot 1)
  let commit ← asMessage Commit.unmarshal (slot 2)
  return ⟨header, commit⟩

theorem unmarshal_inverts : Inverts unmarshal marshal := by
  intro sh b h
  obtain ⟨parts, hparts, rfl⟩ := map_eq_some_iff.mp h
  obtain ⟨header, commit, hheader, hcommit, rfl⟩ := map₂_eq_some_iff.mp hparts
  simp [unmarshal,
    Header.unmarshal_inverts.asMessage_optional hheader,
    Commit.unmarshal_inverts.asMessage_optional hcommit]

end SignedHeader

namespace LightBlock

/-- `LightBlock.ToProto` and `LightBlock.Marshal`. -/
def marshal (lb : LightBlock) : Option Bytes :=
  (Option.map₂ Prod.mk (optional SignedHeader.marshal lb.signedHeader)
    (optional ValidatorSet.marshal lb.validatorSet)).map fun parts => Wire.marshal
      [⟨1, parts.1⟩, ⟨2, parts.2⟩]

/-- The encoding of a light block determines it if its validator sets are not empty. -/
theorem eq_of_marshal {v w : LightBlock} {b : Bytes}
    (hv : ∃ vals, v.validatorSet = some vals ∧ vals.validators ≠ [])
    (hw : ∃ vals, w.validatorSet = some vals ∧ vals.validators ≠ [])
    (hbv : v.marshal = some b) (hbw : w.marshal = some b) : v = w := by
  obtain ⟨p, hp, hbv⟩ := map_eq_some_iff.mp hbv
  obtain ⟨q, hq, hbw⟩ := map_eq_some_iff.mp hbw
  obtain ⟨sv, vv, hsv, hvv, rfl⟩ := map₂_eq_some_iff.mp hp
  obtain ⟨sw, vw, hsw, hvw, rfl⟩ := map₂_eq_some_iff.mp hq
  have hslots := eq_of_marshal_eq (hbv.trans hbw.symm) rfl (by simp)
  obtain ⟨rfl, rfl⟩ := hslots
  have hheader := SignedHeader.unmarshal_inverts.asMessage_optional hsv
  rw [SignedHeader.unmarshal_inverts.asMessage_optional hsw] at hheader
  obtain ⟨vals, hvals, hne⟩ := hv
  obtain ⟨vals', hvals', hne'⟩ := hw
  rw [hvals] at hvv
  rw [hvals'] at hvw
  obtain ⟨c, hc, rfl⟩ := map_eq_some_iff.mp hvv
  obtain ⟨c', hc', heq⟩ := map_eq_some_iff.mp hvw
  obtain rfl : c' = c := by simpa using heq
  have hset := ValidatorSet.eq_of_marshal hne hne' hc hc'
  cases v
  cases w
  simp_all

end LightBlock

namespace DuplicateVoteEvidence

/-- `DuplicateVoteEvidence.ToProto` and `DuplicateVoteEvidence.Marshal`; `none` where `Bytes`
panics. -/
def marshal (dve : DuplicateVoteEvidence) : Option Bytes := do
  let voteA ← optional Vote.marshal dve.voteA
  let voteB ← optional Vote.marshal dve.voteB
  let timestamp ← dve.timestamp.marshal
  return Wire.marshal
    [⟨1, voteA⟩, ⟨2, voteB⟩, ⟨3, scalar (int64 dve.totalVotingPower)⟩,
      ⟨4, scalar (int64 dve.validatorPower)⟩, ⟨5, [.bytes timestamp]⟩]

/-- `DuplicateVoteEvidence.Unmarshal`. -/
def unmarshal : Option DuplicateVoteEvidence := do
  let slot ← Wire.slots input
  let voteA ← asMessage Vote.unmarshal (slot 1)
  let voteB ← asMessage Vote.unmarshal (slot 2)
  let totalVotingPower ← asScalar (slot 3)
  let validatorPower ← asScalar (slot 4)
  let timestamp ← asMessage Time.unmarshal (slot 5)
  return ⟨voteA, voteB, toInt64 totalVotingPower, toInt64 validatorPower, timestamp.getD .zero⟩

theorem unmarshal_inverts : Inverts unmarshal marshal := by
  intro evidence b h
  obtain ⟨voteA, hvoteA, h⟩ := bind_eq_some_iff.mp h
  obtain ⟨voteB, hvoteB, h⟩ := bind_eq_some_iff.mp h
  obtain ⟨t, ht, h⟩ := bind_eq_some_iff.mp h
  cases h
  have hvotes : Inverts Vote.unmarshal Vote.marshal := fun _ _ => Vote.unmarshal_marshal
  simp [unmarshal, Time.unmarshal_marshal ht,
    hvotes.asMessage_optional hvoteA, hvotes.asMessage_optional hvoteB]

end DuplicateVoteEvidence

namespace LightClientAttackEvidence

/-- `LightClientAttackEvidence.ToProto` and `LightClientAttackEvidence.Marshal`; `none` where
`Bytes` panics. -/
def marshal : Option Bytes := do
  let conflictingBlock ← optional LightBlock.marshal l.conflictingBlock
  let byzantineValidators ← l.byzantineValidators.mapM marshalPtr
  let timestamp ← l.timestamp.marshal
  return Wire.marshal
    [⟨1, conflictingBlock⟩, ⟨2, scalar (int64 l.commonHeight)⟩,
      ⟨3, byzantineValidators.map .bytes⟩, ⟨4, scalar (int64 l.totalVotingPower)⟩,
      ⟨5, [.bytes timestamp]⟩]

/-- The conflicting block has validators, so that its encoding determines them. -/
def Substantial : Prop :=
  ∃ lb, l.conflictingBlock = some lb ∧ ∃ vals, lb.validatorSet = some vals ∧ vals.validators ≠ []

theorem eq_of_marshal {v w : LightClientAttackEvidence} {b : Bytes} (hv : v.Substantial)
    (hw : w.Substantial) (hbv : v.marshal = some b) (hbw : w.marshal = some b) : v = w := by
  obtain ⟨lv, hlv, hsetv⟩ := hv
  obtain ⟨lw, hlw, hsetw⟩ := hw
  obtain ⟨cv, hcv, hbv⟩ := bind_eq_some_iff.mp hbv
  obtain ⟨vv, hvv, hbv⟩ := bind_eq_some_iff.mp hbv
  obtain ⟨t, ht, hbv⟩ := bind_eq_some_iff.mp hbv
  obtain ⟨cw, hcw, hbw⟩ := bind_eq_some_iff.mp hbw
  obtain ⟨vw, hvw, hbw⟩ := bind_eq_some_iff.mp hbw
  obtain ⟨t', ht', hbw⟩ := bind_eq_some_iff.mp hbw
  have hslots := eq_of_marshal_eq ((some.inj hbv).trans (some.inj hbw).symm) rfl (by simp)
  simp only [List.cons.injEq, Slot.mk.injEq, scalar_inj, int64_inj, Value.bytes.injEq,
    map_bytes_inj, true_and, and_true] at hslots
  obtain ⟨rfl, hheight, rfl, htotal, rfl⟩ := hslots
  rw [hlv] at hcv
  rw [hlw] at hcw
  obtain ⟨c, hc, rfl⟩ := map_eq_some_iff.mp hcv
  obtain ⟨c', hc', heq⟩ := map_eq_some_iff.mp hcw
  obtain rfl : c' = c := by simpa using heq
  have hblock := LightBlock.eq_of_marshal hsetv hsetw hc hc'
  have hvals := marshalPtr_faithful.mapM_inj hvv hvw
  have htime := Time.marshal_faithful _ _ _ ht ht'
  cases v
  cases w
  simp_all

end LightClientAttackEvidence

namespace Evidence

/-- `Evidence.Bytes`: the encoding does not say of which type the evidence is. -/
def bytes : Evidence → Option Bytes
  | duplicateVote evidence => evidence.marshal
  | lightClientAttack evidence => evidence.marshal

/-- What `ValidateBasic` guarantees and the encoding relies on. -/
def Substantial : Evidence → Prop
  | duplicateVote evidence => evidence.voteB.isSome
  | lightClientAttack evidence => evidence.Substantial

/-- The second field is a vote in one type of evidence and a number in the other. -/
theorem duplicateVote_bytes_ne {dve : DuplicateVoteEvidence} {l : LightClientAttackEvidence}
    {b : Bytes} (hdve : dve.voteB.isSome) (hbdve : dve.marshal = some b)
    (hbl : l.marshal = some b) : False := by
  obtain ⟨va, hva, hbv⟩ := bind_eq_some_iff.mp hbdve
  obtain ⟨vb, hvb, hbv⟩ := bind_eq_some_iff.mp hbv
  obtain ⟨t, ht, hbv⟩ := bind_eq_some_iff.mp hbv
  obtain ⟨cw, hcw, hbw⟩ := bind_eq_some_iff.mp hbl
  obtain ⟨vw, hvw, hbw⟩ := bind_eq_some_iff.mp hbw
  obtain ⟨t', ht', hbw⟩ := bind_eq_some_iff.mp hbw
  have hslots := eq_of_marshal_eq ((some.inj hbv).trans (some.inj hbw).symm) rfl (by simp)
  simp only [List.cons.injEq, Slot.mk.injEq, true_and] at hslots
  obtain ⟨vote, hvote⟩ := isSome_iff_exists.mp hdve
  rw [hvote] at hvb
  obtain ⟨c, -, rfl⟩ := map_eq_some_iff.mp hvb
  have hheight := hslots.2.1
  unfold scalar at hheight
  split at hheight <;> simp at hheight

/-- Evidence that is substantial is determined by its bytes. -/
theorem eq_of_bytes {v w : Evidence} {b : Bytes} (hv : v.Substantial) (hw : w.Substantial)
    (hbv : v.bytes = some b) (hbw : w.bytes = some b) : v = w := by
  cases v with
  | duplicateVote v =>
    cases w with
    | duplicateVote w =>
      rw [DuplicateVoteEvidence.unmarshal_inverts.faithful _ _ _ hbv hbw]
    | lightClientAttack w => exact (duplicateVote_bytes_ne hv hbv hbw).elim
  | lightClientAttack v =>
    cases w with
    | duplicateVote w => exact (duplicateVote_bytes_ne hw hbw hbv).elim
    | lightClientAttack w => rw [LightClientAttackEvidence.eq_of_marshal hv hw hbv hbw]

end Evidence

end NimbleChain.Tendermint
