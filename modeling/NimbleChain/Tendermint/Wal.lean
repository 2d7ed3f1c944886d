import NimbleChain.Common.Exact
import NimbleChain.Common.Stream
import NimbleChain.Tendermint.ConsensusMessages

/-!
# The write-ahead log

The records of the consensus write-ahead log (`consensus/wal.go`), their protobuf form
(`consensus/msgs.go`), the framing by checksum and length, and `repairWalFile`
(`consensus/state.go`). A record is decoded from a file, whose reads return what is left, or from a
group of files, whose reads fail if less is left than was asked for.
-/

namespace NimbleChain.Tendermint

open Common Common.Wire List Check Except Option HashFunction Int64 Nat

/-! ### Records -/

/-- The types behind the `WALMessage` interface that the log holds. -/
inductive WALMessage where
  | eventDataRoundState (height : Int64) (round : Int32) (step : Bytes)
  | msgInfo (msg : Message) (peerID : Bytes)
  | timeoutInfo (duration : Int64) (height : Int64) (round : Int32) (step : UInt8)
  | endHeight (height : Int64)
  deriving DecidableEq

/-- `TimedWALMessage`. -/
structure TimedWALMessage where
  time : Time
  msg : WALMessage
  deriving DecidableEq

/-- The messages that `tmcons.WALMessage` can hold. -/
inductive PbWALMessage where
  | eventDataRoundState (height : Int64) (round : Int32) (step : Bytes)
  | msgInfo (msg : Option PbMessage) (peerID : Bytes)
  | timeoutInfo (duration : Int64) (height : Int64) (round : Int32) (step : UInt32)
  | endHeight (height : Int64)
  deriving DecidableEq

/-- `tmcons.TimedWALMessage`. The message is a pointer, and what it points to may be empty. -/
structure PbTimedWALMessage where
  time : Time
  msg : Option (Option PbWALMessage)
  deriving DecidableEq

section Conversion

/-- `WALToProto`. -/
def walToProto : WALMessage → Except Failure PbWALMessage
  | .eventDataRoundState height round step => .ok (.eventDataRoundState height round step)
  | .msgInfo msg peerID => do
    let consMsg ← msgToProto msg
    return .msgInfo (some consMsg) peerID
  | .timeoutInfo duration height round step =>
    .ok (.timeoutInfo duration height round step.toUInt32)
  | .endHeight height => .ok (.endHeight height)

variable (H : HashFunction)

/-- `WALFromProto`. -/
def walFromProto : Option (Option PbWALMessage) → Except Failure WALMessage
  | none => .error (.error (.new "nil WAL message" [] []))
  | some none => .error (.error (.new "from proto: wal message not recognized: %T" [] []))
  | some (some (.eventDataRoundState height round step)) =>
    .ok (.eventDataRoundState height round step)
  | some (some (.msgInfo msg peerID)) =>
    match msgFromProto H msg with
    | .ok walMsg => .ok (.msgInfo walMsg peerID)
    | .error (.error e) => .error (.error (.wrap "msgInfo from proto error: %w" [] e))
    | .error .panic => .error .panic
  | some (some (.timeoutInfo duration height round step)) =>
    if step.toNat > 255 then
      .error (.error (.wrap "denying message due to possible overflow: %w" []
        (.new "uint8 overflow" [] [])))
    else .ok (.timeoutInfo duration height round step.toUInt8)
  | some (some (.endHeight height)) => .ok (.endHeight height)

/-- A bit array that `ToProto` does not turn into nil. -/
def BitArray.Storable : Option BitArray → Prop
  | none => False
  | some bA => bA.elems ≠ [] ∧ Exact.Fits bA.bits

/-- The bit arrays of a message survive the conversion. -/
def Message.Storable : Message → Prop
  | newValidBlock _ _ _ bits _ | proposalPOL _ _ bits | voteSetBits _ _ _ _ bits =>
    BitArray.Storable bits
  | _ => True

/-- A record whose consensus message, if any, is valid and survives the conversion. -/
def WALMessage.Valid : WALMessage → Prop
  | msgInfo msg _ => msg.validateBasic H = .ok () ∧ msg.Storable
  | _ => True

variable {H}

theorem BitArray.fromProto_toProto {bits : Option BitArray} (h : BitArray.Storable bits) :
    ∃ pb, BitArray.toProto bits = some pb ∧ some (BitArray.fromProto (some pb)) = bits := by
  cases bits with
  | none => cases h
  | some bA =>
    obtain ⟨hne, hfits⟩ := h
    refine ⟨_, if_neg hne, ?_⟩
    rw [BitArray.fromProto, Exact.toInt_ofInt hfits]

theorem not_toUInt32_gt (step : UInt8) : ¬ step.toUInt32.toNat > 255 := by
  have := step.toNat_lt
  simp only [UInt8.toNat_toUInt32]
  omega

/-- A valid message that was converted for the wire is converted back. -/
theorem msgFromProto_msgToProto {msg : Message} {pb : PbMessage} (hto : msgToProto msg = .ok pb)
    (hvalid : msg.validateBasic H = .ok ()) (hstorable : msg.Storable) :
    msgFromProto H (some pb) = .ok msg := by
  suffices hunchecked : msgFromProtoUnchecked H pb = .ok msg by
    simp only [msgFromProto, hunchecked, bind, Except.bind, hvalid, pure, Except.pure]
  cases msg with
  | newRoundStep height round step seconds lastCommitRound =>
    cases hto
    rw [msgFromProtoUnchecked, if_neg (not_toUInt32_gt step)]
    simp
  | newValidBlock height round header bits isCommit =>
    cases hto
    obtain ⟨pb, hpb, hbits⟩ := BitArray.fromProto_toProto hstorable
    simp only [Message.validateBasic, seq_eq_ok, within_eq_ok] at hvalid
    rw [msgFromProtoUnchecked, hpb, hbits, hvalid.2.2.1]
    rfl
  | proposal p =>
    cases hto
    obtain ⟨p, hp, hbasic : p.validateBasic H = .ok ()⟩ := bind_eq_ok.mp hvalid
    obtain rfl := orPanic_eq_ok.mp hp
    have hid := hbasic
    simp only [Proposal.validateBasic, seq_eq_ok, within_eq_ok] at hid
    have hfrom : proposalFromProto H p = .ok () :=
      seq_eq_ok.mpr ⟨blockIDFromProto_of_validateBasic hid.2.2.2.2.1, hbasic⟩
    rw [msgFromProtoUnchecked, getD_some, hfrom]
    rfl
  | proposalPOL height round bits =>
    obtain ⟨pb', hpb, hbits⟩ := BitArray.fromProto_toProto hstorable
    rw [msgToProto, hpb] at hto
    cases hto
    rw [msgFromProtoUnchecked, hbits]
  | blockPart height round part =>
    cases part with
    | none => cases hto
    | some part =>
      cases hto
      simp only [Message.validateBasic, seq_eq_ok] at hvalid
      have hbasic : part.validateBasic H = .ok () := within_eq_ok.mp hvalid.2.2
      have hproof : part.proof.validateBasic H = .ok () :=
        within_eq_ok.mp (seq_eq_ok.mp hbasic).2
      have hfrom : partFromProto H part = .ok () := seq_eq_ok.mpr ⟨hproof, hbasic⟩
      rw [msgFromProtoUnchecked, hfrom]
      rfl
  | vote v =>
    cases hto
    obtain ⟨v, hv, hbasic : v.validateBasic H = .ok ()⟩ := bind_eq_ok.mp hvalid
    obtain rfl := orPanic_eq_ok.mp hv
    have hid := hbasic
    simp only [Vote.validateBasic, seq_eq_ok, within_eq_ok] at hid
    have hfrom : voteFromProto H (some v) = .ok () :=
      seq_eq_ok.mpr ⟨blockIDFromProto_of_validateBasic hid.2.2.2.1, hbasic⟩
    rw [msgFromProtoUnchecked, hfrom]
    rfl
  | hasVote height round type index =>
    cases hto
    rfl
  | pdt info =>
    cases info with
    | none => cases hto
    | some info =>
      cases hto
      rfl
  | voteSetMaj23 height round type id =>
    cases hto
    simp only [Message.validateBasic, seq_eq_ok, within_eq_ok] at hvalid
    rw [msgFromProtoUnchecked, blockIDFromProto_of_validateBasic hvalid.2.2.2]
    rfl
  | voteSetBits height round type id bits =>
    cases hto
    obtain ⟨pb, hpb, hbits⟩ := BitArray.fromProto_toProto hstorable
    simp only [Message.validateBasic, seq_eq_ok, within_eq_ok] at hvalid
    rw [msgFromProtoUnchecked, hpb, getD_some, hbits,
      blockIDFromProto_of_validateBasic hvalid.2.2.1]
    rfl

/-- A valid record that was converted for the wire is converted back. -/
theorem walFromProto_walToProto {msg : WALMessage} {pb : PbWALMessage}
    (hto : walToProto msg = .ok pb) (hvalid : msg.Valid H) :
    walFromProto H (some (some pb)) = .ok msg := by
  cases msg with
  | eventDataRoundState height round step =>
    cases hto
    rfl
  | msgInfo msg peerID =>
    obtain ⟨hbasic, hstorable⟩ := hvalid
    cases hmsg : msgToProto msg with
    | error e => rw [walToProto, hmsg] at hto; cases hto
    | ok consMsg =>
      rw [walToProto, hmsg] at hto
      cases hto
      simp only [walFromProto, msgFromProto_msgToProto hmsg hbasic hstorable]
  | timeoutInfo duration height round step =>
    cases hto
    rw [walFromProto, if_neg (not_toUInt32_gt step)]
    simp
  | endHeight height =>
    cases hto
    rfl

end Conversion

section Encoding

/-- `StdDurationMarshal`. -/
def marshalDuration (d : Int64) : Bytes :=
  Wire.marshal [⟨1, scalar (int64 (d / 1000000000))⟩, ⟨2, scalar (int32 (d % 1000000000).toInt32)⟩]

/-- `DurationFromProto`. -/
def durationFromProto (seconds : Int64) (nanos : Int32) : Option Int64 :=
  if seconds < -315576000000 ∨ seconds > 315576000000 then none
  else if nanos ≤ -1000000000 ∨ nanos ≥ 1000000000 then none
  else if (seconds < 0 ∧ nanos > 0) ∨ (seconds > 0 ∧ nanos < 0) then none
  else if seconds * 1000000000 / 1000000000 ≠ seconds then none
  else if nanos = 0 then some (seconds * 1000000000)
  else
    let d := seconds * 1000000000 + nanos.toInt64
    if decide (d < 0) ≠ decide (nanos < 0) then none else some d

/-- `StdDurationUnmarshal`. -/
def unmarshalDuration (input : Bytes) : Option Int64 := do
  let slot ← Wire.slots input
  let seconds ← asScalar (slot 1)
  let nanos ← asScalar (slot 2)
  durationFromProto (toInt64 seconds) (toInt32 nanos)

/-- Seconds and nanoseconds of the same sign that add up to a duration are converted to it. -/
theorem durationFromProto_eq {d seconds : Int64} {nanos : Int32}
    (hsum : 1000000000 * seconds.toInt + nanos.toInt = d.toInt)
    (hnanos : -1000000000 < nanos.toInt ∧ nanos.toInt < 1000000000)
    (hpos : 0 ≤ d.toInt → 0 ≤ nanos.toInt) (hneg : d.toInt ≤ 0 → nanos.toInt ≤ 0) :
    durationFromProto seconds nanos = some d := by
  have hlo := d.le_toInt
  have hhi := d.toInt_lt
  have hbillion : (1000000000 : Int64).toInt = 1000000000 := rfl
  have hmul : (seconds * 1000000000).toInt = 1000000000 * seconds.toInt := by
    rw [Exact.toInt_mul, hbillion, Int.mul_comm]
    unfold Exact.Fits
    rw [hbillion]
    omega
  have hadd : seconds * 1000000000 + nanos.toInt64 = d := by
    rw [← toInt_inj, Exact.toInt_add, hmul, Int32.toInt_toInt64, hsum]
    unfold Exact.Fits
    rw [hmul, Int32.toInt_toInt64]
    omega
  have hback : seconds * 1000000000 / 1000000000 = seconds := by
    rw [← toInt_inj, Exact.toInt_div_of_pos (by decide), hmul, hbillion]
    exact Int.mul_tdiv_cancel_left _ (by decide)
  have hrange : ¬ (seconds < -315576000000 ∨ seconds > 315576000000) := by
    have hmin : (-315576000000 : Int64).toInt = -315576000000 := rfl
    have hmax : (315576000000 : Int64).toInt = 315576000000 := rfl
    rw [GT.gt, lt_iff_toInt_lt, lt_iff_toInt_lt, hmin, hmax]
    omega
  have hsmall : ¬ (nanos ≤ -1000000000 ∨ nanos ≥ 1000000000) := by
    have hmin : (-1000000000 : Int32).toInt = -1000000000 := rfl
    have hmax : (1000000000 : Int32).toInt = 1000000000 := rfl
    rw [GE.ge, Int32.le_iff_toInt_le, Int32.le_iff_toInt_le, hmin, hmax]
    omega
  have hsign : ¬ ((seconds < 0 ∧ nanos > 0) ∨ (seconds > 0 ∧ nanos < 0)) := by
    simp only [GT.gt, lt_iff_toInt_lt, Int32.lt_iff_toInt_lt, toInt_zero, Int32.toInt_zero]
    omega
  rw [durationFromProto, if_neg hrange, if_neg hsmall, if_neg hsign,
    if_neg (Decidable.not_not.mpr hback)]
  split
  case isTrue hzero =>
    rw [hzero] at hadd
    exact congrArg some ((Int64.add_zero _).symm.trans hadd)
  case isFalse hne =>
    have hnonzero : nanos.toInt ≠ 0 := fun h => hne (Int32.toInt_inj.mp h)
    have hsame : d < 0 ↔ nanos < 0 := by
      rw [lt_iff_toInt_lt, Int32.lt_iff_toInt_lt, toInt_zero, Int32.toInt_zero]
      omega
    simp only [hadd, hsame, ne_eq, not_true_eq_false, if_false]

@[simp] theorem unmarshalDuration_marshalDuration (d : Int64) :
    unmarshalDuration (marshalDuration d) = some d := by
  obtain ⟨hlo, hhi, hpos, hneg⟩ :=
    Exact.tmod_bounds d.toInt (show (0 : Int) < 1000000000 by decide)
  have hbillion : (1000000000 : Int64).toInt = 1000000000 := rfl
  have hseconds : (d / 1000000000).toInt = d.toInt.tdiv 1000000000 := by
    rw [Exact.toInt_div_of_pos (by decide), hbillion]
  have hnanos : ((d % 1000000000).toInt32).toInt = d.toInt.tmod 1000000000 := by
    rw [toInt_toInt32, toInt_mod, hbillion]
    apply Int.bmod_eq_of_le <;> omega
  have hsplit : durationFromProto (d / 1000000000) (d % 1000000000).toInt32 = some d := by
    apply durationFromProto_eq
    · rw [hseconds, hnanos]
      exact Int.mul_tdiv_add_tmod d.toInt 1000000000
    · rw [hnanos]
      exact ⟨hlo, hhi⟩
    · rwa [hnanos]
    · rwa [hnanos]
  simp [unmarshalDuration, marshalDuration, hsplit]

namespace PbWALMessage

/-- The field number of the alternative in `tmcons.WALMessage`. -/
def number : PbWALMessage → Nat
  | eventDataRoundState .. => 1
  | msgInfo .. => 2
  | timeoutInfo .. => 3
  | endHeight .. => 4

/-- The bytes of the alternative. -/
def body : PbWALMessage → Option Bytes
  | eventDataRoundState height round step =>
    some (Wire.marshal [⟨1, scalar (int64 height)⟩, ⟨2, scalar (int32 round)⟩, ⟨3, blob step⟩])
  | msgInfo none peerID => some (Wire.marshal [⟨1, [.bytes []]⟩, ⟨2, blob peerID⟩])
  | msgInfo (some msg) peerID =>
    msg.marshal.map fun content => Wire.marshal [⟨1, [.bytes content]⟩, ⟨2, blob peerID⟩]
  | timeoutInfo duration height round step =>
    some (Wire.marshal [⟨1, [.bytes (marshalDuration duration)]⟩, ⟨2, scalar (int64 height)⟩,
      ⟨3, scalar (int32 round)⟩, ⟨4, scalar step.toNat⟩])
  | endHeight height => some (Wire.marshal [⟨1, scalar (int64 height)⟩])

/-- `tmcons.WALMessage.Marshal`. -/
def marshal (msg : PbWALMessage) : Option Bytes :=
  msg.body.map fun content => Wire.marshal [⟨msg.number, [.bytes content]⟩]

/-- The alternative with a field number. An unknown field is skipped. -/
def readBody (field : Nat × Value) : Option (Option PbWALMessage) := do
  let (number, value) := field
  if ¬ (1 ≤ number ∧ number ≤ 4) then return none
  let content ← match value with
    | .bytes content => some content
    | _ => none
  let slot ← Wire.slots content
  match number with
  | 1 =>
    let height ← asScalar (slot 1)
    let round ← asScalar (slot 2)
    let step ← asBlob (slot 3)
    return some (eventDataRoundState (toInt64 height) (toInt32 round) step)
  | 2 =>
    let msg ← asMessage PbMessage.unmarshal (slot 1)
    let peerID ← asBlob (slot 2)
    return some (msgInfo (msg.getD none) peerID)
  | 3 =>
    let duration ← asMessage unmarshalDuration (slot 1)
    let height ← asScalar (slot 2)
    let round ← asScalar (slot 3)
    let step ← asScalar (slot 4)
    return some (timeoutInfo (duration.getD 0) (toInt64 height) (toInt32 round) (UInt32.ofNat step))
  | _ =>
    let height ← asScalar (slot 1)
    return some (endHeight (toInt64 height))

/-- `tmcons.WALMessage.Unmarshal`, with `none` inside for a message without an alternative. -/
def unmarshal (input : Bytes) : Option (Option PbWALMessage) := do
  let fields ← Wire.unmarshal input
  asOneof readBody fields

theorem readBody_body {msg : PbWALMessage} {content : Bytes} (h : msg.body = some content) :
    readBody (msg.number, .bytes content) = some (some msg) := by
  cases msg with
  | eventDataRoundState =>
    cases h
    simp [readBody, number]
  | msgInfo msg peerID =>
    cases msg with
    | none =>
      cases h
      have hempty : PbMessage.unmarshal [] = some none := rfl
      simp [readBody, number, hempty]
    | some msg =>
      obtain ⟨inner, hinner, rfl⟩ := map_eq_some_iff.mp h
      simp [readBody, number, PbMessage.unmarshal_marshal hinner]
  | timeoutInfo =>
    cases h
    simp [readBody, number]
  | endHeight =>
    cases h
    simp [readBody, number]

theorem unmarshal_marshal {msg : PbWALMessage} {b : Bytes} (h : msg.marshal = some b) :
    unmarshal b = some (some msg) := by
  obtain ⟨content, hcontent, rfl⟩ := map_eq_some_iff.mp h
  rw [unmarshal, Wire.unmarshal_marshal]
  exact asOneof_singleton (readBody_body hcontent)

end PbWALMessage

namespace PbTimedWALMessage

/-- `tmcons.TimedWALMessage.Marshal` of a message that is not nil. -/
def marshal (time : Time) (msg : PbWALMessage) : Option Bytes := do
  let time ← time.marshal
  let msg ← msg.marshal
  return Wire.marshal [⟨1, [.bytes time]⟩, ⟨2, [.bytes msg]⟩]

/-- `tmcons.TimedWALMessage.Unmarshal`. -/
def unmarshal (input : Bytes) : Option PbTimedWALMessage := do
  let slot ← Wire.slots input
  let time ← asMessage Time.unmarshal (slot 1)
  let msg ← asMessage PbWALMessage.unmarshal (slot 2)
  return ⟨time.getD .zero, msg⟩

theorem unmarshal_marshal {time : Time} {msg : PbWALMessage} {b : Bytes}
    (h : marshal time msg = some b) : unmarshal b = some ⟨time, some (some msg)⟩ := by
  obtain ⟨t, ht, h⟩ := bind_eq_some_iff.mp h
  obtain ⟨m, hm, h⟩ := bind_eq_some_iff.mp h
  cases h
  simp [unmarshal, Time.unmarshal_marshal ht, PbWALMessage.unmarshal_marshal hm]

end PbTimedWALMessage

end Encoding

/-! ### Frames -/

section Frames

/-- Divide a remainder of the reflected Castagnoli polynomial by `x`. -/
def crcBit (crc : UInt32) : UInt32 :=
  if crc % 2 = 1 then (crc >>> 1) ^^^ 0x82F63B78 else crc >>> 1

/-- Take in a byte, bit by bit. -/
def crcByte (crc : UInt32) (byte : UInt8) : UInt32 :=
  crcBit (crcBit (crcBit (crcBit (crcBit (crcBit (crcBit (crcBit (crc ^^^ byte.toUInt32))))))))

/-- `crc32.Checksum(data, crc32c)`. -/
def crc32c (data : Bytes) : UInt32 :=
  data.foldl crcByte 0xFFFFFFFF ^^^ 0xFFFFFFFF

-- the check value of CRC-32C
example : crc32c [49, 50, 51, 52, 53, 54, 55, 56, 57] = 0xE3069283 := by decide +kernel

/-- `binary.BigEndian.PutUint32`. -/
def putUint32 (x : UInt32) : Bytes :=
  (littleEndian 4 x.toNat).reverse

/-- `binary.BigEndian.Uint32`. -/
def uint32 (b : Bytes) : UInt32 :=
  UInt32.ofNat (ofLittleEndian b.reverse)

@[simp] theorem length_putUint32 (x : UInt32) : (putUint32 x).length = 4 := by
  simp [putUint32]

@[simp] theorem uint32_putUint32 (x : UInt32) : uint32 (putUint32 x) = x := by
  have hlt : x.toNat < 256 ^ 4 := by simpa using x.toNat_lt
  rw [uint32, putUint32, reverse_reverse, ofLittleEndian_littleEndian hlt, UInt32.ofNat_toNat]

/-- `maxMsgSizeBytes`. -/
def maxMsgSizeBytes : Nat := 1048576 + 24

/-- What `Encode` marshals. -/
def TimedWALMessage.data (v : TimedWALMessage) : Except Failure Bytes := do
  let pbMsg ← walToProto v.msg
  Check.orPanic (PbTimedWALMessage.marshal v.time pbMsg)

/-- `WALEncoder.Encode`: what is written. -/
def encode (v : TimedWALMessage) : Except Failure Bytes := do
  let data ← v.data
  let crc := crc32c data
  let length := UInt32.ofNat data.length
  Check.failIf (length.toNat > maxMsgSizeBytes) "msg is too big: %d bytes, max: %d bytes"
    [length.toNat, maxMsgSizeBytes] []
  return putUint32 crc ++ putUint32 length ++ data.take length.toNat

/-- `Encode` of one record after the other. -/
def encodeAll : List TimedWALMessage → Except Failure Bytes
  | [] => .ok []
  | v :: rest => do
    let frame ← encode v
    let frames ← encodeAll rest
    return frame ++ frames

/-- Checksum, length and data. -/
def frame (data : Bytes) : Bytes :=
  putUint32 (crc32c data) ++ (putUint32 (UInt32.ofNat data.length) ++ data)

@[simp] theorem length_frame (data : Bytes) : (frame data).length = 8 + data.length := by
  simp [frame]
  omega

end Frames

section Decoding

/-- Where a decoder reads from: `os.File`, or `autofile.GroupReader` over the concatenation of its
files. -/
inductive Source where
  | file
  | group
  deriving DecidableEq

/-- The errors of a `Read`. -/
inductive ReadError where
  | eof
  | emptySlice
  deriving DecidableEq

/-- The text of the error. -/
def ReadError.error : ReadError → GoError
  | eof => .new "EOF" [] []
  | emptySlice => .new "given empty slice" [] []

/-- The outcome of a `Read` into a zeroed buffer: the buffer, the number of bytes read, the error
and the rest of the input. -/
structure ReadResult where
  buffer : Bytes
  n : Nat
  error : Option ReadError
  rest : Bytes
  deriving DecidableEq

/-- `Read` into a buffer of the given length. A file returns fewer bytes without an error, unless it
has none; a group does not. -/
def Source.read (source : Source) (want : Nat) (input : Bytes) : ReadResult where
  buffer := input.take want ++ List.replicate (want - input.length) 0
  n := (input.take want).length
  error :=
    match source with
    | file => if want = 0 then none else if input = [] then some .eof else none
    | group => if want = 0 then some .emptySlice else if input.length < want then some .eof else
    none
  rest := input.drop want

/-- How `Decode` fails: `io.EOF`, a `DataCorruptionError`, or a panic. -/
inductive DecodeError where
  | eof
  | corruption (cause : GoError)
  | panic
  deriving DecidableEq

variable (H : HashFunction) (source : Source)

/-- The part of `Decode` after the data was read. -/
def decodeData (crc : UInt32) (data : Bytes) : Except DecodeError TimedWALMessage :=
  let actualCRC := crc32c data
  if actualCRC ≠ crc then
    .error (.corruption (.new "checksums do not match: read: %v, actual: %v"
      [crc.toNat, actualCRC.toNat] []))
  else
    match PbTimedWALMessage.unmarshal data with
    | none => .error (.corruption (.new "failed to decode data: %v" [] []))
    | some res =>
      match walFromProto H res.msg with
      | .error (.error e) => .error (.corruption (.wrap "failed to convert from proto: %w" [] e))
      | .error .panic => .error .panic
      | .ok walMsg => .ok ⟨res.time, walMsg⟩

/-- `WALDecoder.Decode`, with the input that is left. -/
def decode (input : Bytes) : Except DecodeError (TimedWALMessage × Bytes) :=
  let checksum := source.read 4 input
  match checksum.error with
  | some .eof => .error .eof
  | some e => .error (.corruption (.wrap "failed to read checksum: %v" [] e.error))
  | none =>
    let length := source.read 4 checksum.rest
    match length.error with
    | some e => .error (.corruption (.wrap "failed to read length: %v" [] e.error))
    | none =>
      let wanted := (uint32 length.buffer).toNat
      if wanted > maxMsgSizeBytes then
        .error (.corruption (.new "length %d exceeded maximum possible value of %d bytes"
          [wanted, maxMsgSizeBytes] []))
      else
        let data := source.read wanted length.rest
        match data.error with
        | some e => .error (.corruption
            (.wrap "failed to read data: %v (read: %d, wanted: %d)" [data.n, wanted] e.error))
        | none => (decodeData H (uint32 checksum.buffer) data.buffer).map fun v => (v, data.rest)

/-- Call `Decode` until it fails: the records and the failure. -/
def decodeAll (input : Bytes) : Option (List TimedWALMessage × DecodeError) :=
  Stream.readAll (decode H source) input

/-- `repairWalFile`: what is written, or the error of `Encode`. -/
def repairWalFile (src : Bytes) : Option (Except Failure Bytes) :=
  (decodeAll H .file src).map fun (records, _) =>
    match encodeAll records with
    | .error (.error e) => .error (.error (.wrap "failed to encode msg: %w" [] e))
    | other => other

/-- A record that is read from the log in one piece if it is complete. -/
def Writable (v : TimedWALMessage) : Prop :=
  v.msg.Valid H ∧ ∃ data, v.data = .ok data ∧ data.length ≤ maxMsgSizeBytes

variable {H} {v : TimedWALMessage} {data stream : Bytes}
  {rest records decoded : List TimedWALMessage} {cut : Nat} (source : Source)

theorem data_eq_ok (h : v.data = .ok data) :
    ∃ pb, walToProto v.msg = .ok pb ∧ PbTimedWALMessage.marshal v.time pb = some data := by
  unfold TimedWALMessage.data at h
  cases hpb : walToProto v.msg with
  | error e => rw [hpb] at h; cases h
  | ok pb =>
    rw [hpb] at h
    exact ⟨pb, rfl, orPanic_eq_ok.mp h⟩

/-- The time is always written. -/
theorem data_ne_nil (h : v.data = .ok data) : data ≠ [] := by
  obtain ⟨pb, -, hmarshal⟩ := data_eq_ok h
  obtain ⟨time, -, hmarshal⟩ := bind_eq_some_iff.mp hmarshal
  obtain ⟨msg, -, hmarshal⟩ := bind_eq_some_iff.mp hmarshal
  cases hmarshal
  intro hnil
  exact tagged_ne_nil _ (append_eq_nil_iff.mp hnil).1

theorem toNat_length (hsize : data.length ≤ maxMsgSizeBytes) :
    (UInt32.ofNat data.length).toNat = data.length := by
  unfold maxMsgSizeBytes at hsize
  rw [UInt32.toNat_ofNat']
  omega

/-- `Encode` writes a frame. -/
theorem encode_eq (h : v.data = .ok data) (hsize : data.length ≤ maxMsgSizeBytes) :
    encode v = .ok (frame data) := by
  have hlength := toNat_length hsize
  have hfits : failIf (data.length > maxMsgSizeBytes)
      "msg is too big: %d bytes, max: %d bytes" [data.length, maxMsgSizeBytes] [] = .ok () :=
    failIf_eq_ok.mpr (by omega)
  rw [encode, h]
  simp only [bind, Except.bind, hfits, pure, Except.pure, frame, hlength, take_length, append_assoc]

/-- The data of a valid record is decoded to the record. -/
theorem decodeData_data (hvalid : v.msg.Valid H) (h : v.data = .ok data) :
    decodeData H (crc32c data) data = .ok v := by
  obtain ⟨pb, hpb, hmarshal⟩ := data_eq_ok h
  simp only [decodeData, ne_eq, not_true_eq_false, if_false,
    PbTimedWALMessage.unmarshal_marshal hmarshal, walFromProto_walToProto hpb hvalid]

/-- A failure that ends the log: its end or a corrupted record. -/
def DecodeError.Ends : DecodeError → Prop
  | eof | corruption _ => True
  | panic => False

/-- Without data there is no record. -/
theorem decodeData_nil (crc : UInt32) : ∃ e, decodeData H crc [] = .error e ∧ e.Ends := by
  rw [decodeData]
  split
  · exact ⟨_, rfl, trivial⟩
  · exact ⟨_, rfl, trivial⟩

section Reads

variable {source : Source} {want : Nat} {v : TimedWALMessage} {data : Bytes}

theorem read_append (hpos : 0 < want) {content rest : Bytes} (hlength : content.length = want) :
    source.read want (content ++ rest) = ⟨content, want, none, rest⟩ := by
  subst hlength
  have hne : content ++ rest ≠ [] := by
    intro hnil
    simp [(append_eq_nil_iff.mp hnil).1] at hpos
  cases source <;> simp [Source.read, ne_of_gt hpos, hne]

/-- Behind a complete header, the data is read and decoded. -/
theorem decode_header (crc length : UInt32) (rest : Bytes) :
    decode H source (putUint32 crc ++ (putUint32 length ++ rest)) =
      if length.toNat > maxMsgSizeBytes then
        .error (.corruption (.new "length %d exceeded maximum possible value of %d bytes"
          [length.toNat, maxMsgSizeBytes] []))
      else
        match (source.read length.toNat rest).error with
        | some e => .error (.corruption
            (.wrap "failed to read data: %v (read: %d, wanted: %d)"
              [(source.read length.toNat rest).n, length.toNat] e.error))
        | none => (decodeData H crc (source.read length.toNat rest).buffer).map
            fun v => (v, (source.read length.toNat rest).rest) := by
  have hchecksum : source.read 4 (putUint32 crc ++ (putUint32 length ++ rest)) = _ :=
    read_append (by decide) (length_putUint32 crc)
  have hlength : source.read 4 (putUint32 length ++ rest) = _ :=
    read_append (by decide) (length_putUint32 length)
  simp only [decode, hchecksum, hlength, uint32_putUint32]

/-- A complete frame is decoded to its record. -/
theorem decode_frame (hvalid : v.msg.Valid H) (h : v.data = .ok data)
    (hsize : data.length ≤ maxMsgSizeBytes) (rest : Bytes) :
    decode H source (frame data ++ rest) = .ok (v, rest) := by
  have hlength := toNat_length hsize
  have hread : source.read data.length (data ++ rest) = _ :=
    read_append (length_pos_iff.mpr (data_ne_nil h)) rfl
  rw [frame, append_assoc, append_assoc, decode_header, hlength,
    if_neg (not_lt.mpr hsize), hread]
  simp only [decodeData_data hvalid h, Except.map]

theorem decode_nil : decode H source [] = .error .eof := by
  cases source <;> rfl

/-- Reading from an empty input only succeeds for an empty buffer. -/
theorem read_nil (h : (source.read want []).error = none) : (source.read want []).buffer = [] := by
  cases source with
  | file =>
    obtain rfl : want = 0 := by
      by_contra hne
      simp [Source.read, hne] at h
    rfl
  | group =>
    simp only [Source.read] at h
    split at h
    · cases h
    · rename_i hne
      simp [Nat.pos_of_ne_zero hne] at h

/-- Less than a header is no record. -/
theorem decode_short {input : Bytes} (hshort : input.length < 8) :
    ∃ e, decode H source input = .error e ∧ e.Ends := by
  unfold decode
  simp only
  split
  · exact ⟨_, rfl, trivial⟩
  · exact ⟨_, rfl, trivial⟩
  split
  · exact ⟨_, rfl, trivial⟩
  split
  · exact ⟨_, rfl, trivial⟩
  have hrest : (source.read 4 (source.read 4 input).rest).rest = [] := by
    simp [Source.read]
    omega
  rw [hrest]
  split
  · exact ⟨_, rfl, trivial⟩
  · rename_i hnone
    obtain ⟨e, he, hends⟩ := decodeData_nil (H := H) (uint32 (source.read 4 input).buffer)
    rw [read_nil hnone, he]
    exact ⟨e, rfl, hends⟩

/-- What is left of the data if only its first bytes are there, filled up with zeros. -/
def padded (data : Bytes) (n : Nat) : Bytes :=
  data.take n ++ List.replicate (data.length - n) 0

/-- A record whose data is cut is not decoded, or decoded from data that is filled up with zeros. -/
theorem decode_cut (hvalid : v.msg.Valid H) (h : v.data = .ok data)
    (hsize : data.length ≤ maxMsgSizeBytes) {cut : Nat} (hcut : cut < 8 + data.length)
    (hdetected : source = .file → 8 < cut → crc32c (padded data (cut - 8)) = crc32c data →
      padded data (cut - 8) = data) :
    (∃ e, decode H source ((frame data).take cut) = .error e ∧ e.Ends) ∨
      decode H source ((frame data).take cut) = .ok (v, []) := by
  rcases lt_or_ge cut 8 with hheader | hheader
  · left
    apply decode_short
    rw [length_take, length_frame]
    omega
  have hpos : 0 < data.length := length_pos_iff.mpr (data_ne_nil h)
  have hlength := toNat_length hsize
  have htake : (frame data).take cut = putUint32 (crc32c data) ++
      (putUint32 (UInt32.ofNat data.length) ++ data.take (cut - 8)) := by
    have hpast : ∀ x, (putUint32 x).take cut = putUint32 x ∧
        (putUint32 x).take (cut - 4) = putUint32 x :=
      fun x => ⟨take_of_length_le (by simp; omega), take_of_length_le (by simp; omega)⟩
    rw [frame, take_append, take_append, (hpast _).1, length_putUint32, (hpast _).2,
      length_putUint32, Nat.sub_sub]
  rw [htake, decode_header, hlength, if_neg (not_lt.mpr hsize)]
  have hshort : (data.take (cut - 8)).length < data.length := by
    rw [length_take]
    omega
  cases source with
  | group =>
    have herror : (Source.group.read data.length (data.take (cut - 8))).error = some .eof := by
      simp only [Source.read, if_neg (ne_of_gt hpos), if_pos hshort]
    simp only [herror]
    exact .inl ⟨_, rfl, trivial⟩
  | file =>
    rcases eq_or_lt_of_le hheader with rfl | hsome
    · have herror : (Source.file.read data.length []).error = some .eof := by
        simp [Source.read, ne_of_gt hpos]
      simp only [Nat.sub_self, take_zero, herror]
      exact .inl ⟨_, rfl, trivial⟩
    · have hbuffer : Source.file.read data.length (data.take (cut - 8)) =
          ⟨padded data (cut - 8), (data.take (cut - 8)).length, none, []⟩ := by
        have hne : data.take (cut - 8) ≠ [] := by
          intro hnil
          have := congrArg length hnil
          simp only [length_take, length_nil] at this
          omega
        have hwhole := take_of_length_le (le_of_lt hshort)
        have hgone := drop_eq_nil_of_le (le_of_lt hshort)
        have hlen : (data.take (cut - 8)).length = cut - 8 := by
          rw [length_take]
          omega
        simp only [Source.read, hwhole, hgone, if_neg (ne_of_gt hpos), if_neg hne, padded, hlen]
      simp only [hbuffer]
      by_cases hcrc : crc32c (padded data (cut - 8)) = crc32c data
      · rw [hdetected rfl hsome hcrc, decodeData_data hvalid h]
        exact .inr rfl
      · left
        rw [decodeData, if_pos hcrc]
        exact ⟨_, rfl, trivial⟩

end Reads

/-- Every record takes some of the input. -/
theorem decode_consuming : Stream.Consuming (decode H source) := by
  intro input v rest h
  unfold decode at h
  simp only at h
  split at h
  · cases h
  · cases h
  rename_i hchecksum
  split at h
  · cases h
  split at h
  · cases h
  split at h
  · cases h
  obtain ⟨wanted, hrest⟩ : ∃ wanted, rest = ((input.drop 4).drop 4).drop wanted := by
    revert h
    generalize decodeData H _ _ = result
    intro h
    cases result with
    | error e => cases h
    | ok w => exact ⟨_, (Prod.mk.inj (ok.inj h)).2.symm⟩
  have hne : input ≠ [] := by
    rintro rfl
    cases source <;> cases hchecksum
  have hpos := length_pos_iff.mpr hne
  rw [hrest]
  simp
  omega

/-- The record in which the stream is cut cannot be mistaken for another: with zeros for the missing
data bytes, the checksum tells the data from what was written. -/
def Detected : List TimedWALMessage → Nat → Prop
  | [], _ => True
  | v :: rest, cut =>
    match v.data with
    | .error _ => True
    | .ok data =>
      if cut < 8 + data.length then
        8 < cut → crc32c (padded data (cut - 8)) = crc32c data → padded data (cut - 8) = data
      else Detected rest (cut - (8 + data.length))

theorem encodeAll_cons {frames : Bytes} (h : v.data = .ok data)
    (hsize : data.length ≤ maxMsgSizeBytes) (hrest : encodeAll rest = .ok frames) :
    encodeAll (v :: rest) = .ok (frame data ++ frames) := by
  rw [encodeAll, encode_eq h hsize, hrest]
  rfl

/-- Writable records can be written. -/
theorem encodeAll_isOk (h : ∀ v ∈ records, Writable H v) :
    ∃ stream, encodeAll records = .ok stream := by
  induction records with
  | nil => exact ⟨[], rfl⟩
  | cons v rest ih =>
    obtain ⟨-, data, hdata, hsize⟩ := h v (by simp)
    obtain ⟨frames, hframes⟩ := ih fun w hw => h w (by simp [hw])
    exact ⟨_, encodeAll_cons hdata hsize hframes⟩

/-- A complete log is decoded to its records. -/
theorem decodeAll_stream (hrecords : ∀ v ∈ records, Writable H v)
    (hstream : encodeAll records = .ok stream) :
    decodeAll H source stream = some (records, .eof) := by
  induction records generalizing stream with
  | nil =>
    cases hstream
    exact Stream.readAll_of_error decode_nil
  | cons v rest ih =>
    obtain ⟨hvalid, data, hdata, hsize⟩ := hrecords v (by simp)
    have hothers : ∀ w ∈ rest, Writable H w := fun w hw => hrecords w (by simp [hw])
    obtain ⟨frames, hframes⟩ := encodeAll_isOk hothers
    rw [encodeAll_cons hdata hsize hframes] at hstream
    cases hstream
    rw [decodeAll, Stream.readAll_of_ok (decode_consuming source)
      (decode_frame hvalid hdata hsize frames), ← decodeAll, ih hothers hframes]
    rfl

/-- The decoded records are the first ones, with all that are complete among them. -/
structure Recovered (records : List TimedWALMessage) (cut : Nat) (decoded : List TimedWALMessage) :
    Prop where
  is_initial : decoded <+: records
  complete : ∀ first part, first <+: records → encodeAll first = .ok part → part.length ≤ cut →
    first <+: decoded

section Recovery

variable (hrecords : ∀ w ∈ v :: rest, Writable H w) (hdata : v.data = .ok data)
  (hsize : data.length ≤ maxMsgSizeBytes)

include hrecords hdata hsize

/-- First records that are not none consist of the first one and first ones of the others. -/
theorem encodeAll_initial {first : List TimedWALMessage} {part : Bytes}
    (hfirst : first <+: v :: rest)
    (hpart : encodeAll first = .ok part) :
    first = [] ∨ ∃ others frames, first = v :: others ∧ others <+: rest ∧
      encodeAll others = .ok frames ∧ part.length = 8 + data.length + frames.length := by
  cases first with
  | nil => exact .inl rfl
  | cons w others =>
    obtain ⟨rfl, hinitial⟩ := cons_prefix_cons.mp hfirst
    obtain ⟨frames, hframes⟩ :=
      encodeAll_isOk fun u hu => hrecords u (mem_cons_of_mem _ (hinitial.subset hu))
    rw [encodeAll_cons hdata hsize hframes] at hpart
    cases hpart
    exact .inr ⟨others, frames, rfl, hinitial, hframes, by rw [length_append, length_frame]⟩

/-- Before the first record is complete, at most that one is recovered. -/
theorem recovered_of_cut (hcut : cut < 8 + data.length) (hdecoded : decoded <+: v :: rest) :
    Recovered (v :: rest) cut decoded := by
  refine ⟨hdecoded, ?_⟩
  intro first part hfirst hpart hle
  obtain rfl | ⟨others, frames, -, -, -, hlength⟩ :=
    encodeAll_initial hrecords hdata hsize hfirst hpart
  · exact nil_prefix
  · omega

theorem Recovered.cons (hrest : Recovered rest (cut - (8 + data.length)) decoded) :
    Recovered (v :: rest) cut (v :: decoded) := by
  refine ⟨cons_prefix_cons.mpr ⟨rfl, hrest.is_initial⟩, ?_⟩
  intro first part hfirst hpart hle
  obtain rfl | ⟨others, frames, rfl, hinitial, hframes, hlength⟩ :=
    encodeAll_initial hrecords hdata hsize hfirst hpart
  · exact nil_prefix
  · exact cons_prefix_cons.mpr ⟨rfl, hrest.complete others frames hinitial hframes (by omega)⟩

end Recovery

/-- A log that is cut is decoded to its first records. -/
theorem decodeAll_cut (hrecords : ∀ v ∈ records, Writable H v)
    (hstream : encodeAll records = .ok stream) (hdetected : source = .file → Detected records cut) :
    ∃ decoded e, decodeAll H source (stream.take cut) = some (decoded, e) ∧ e.Ends ∧
      Recovered records cut decoded := by
  induction records generalizing stream cut with
  | nil =>
    cases hstream
    rw [take_nil]
    refine ⟨[], .eof, Stream.readAll_of_error decode_nil, trivial, prefix_rfl, ?_⟩
    intro first part hfirst hpart hle
    exact hfirst
  | cons v rest ih =>
    obtain ⟨hvalid, data, hdata, hsize⟩ := hrecords v (by simp)
    have hothers : ∀ w ∈ rest, Writable H w := fun w hw => hrecords w (by simp [hw])
    obtain ⟨frames, hframes⟩ := encodeAll_isOk hothers
    rw [encodeAll_cons hdata hsize hframes] at hstream
    cases hstream
    simp only [Detected, hdata] at hdetected
    have hconsuming := decode_consuming (H := H) source
    rcases lt_or_ge cut (8 + data.length) with hcut | hcut
    · -- the stream ends within the first frame
      simp only [if_pos hcut] at hdetected
      have htake : (frame data ++ frames).take cut = (frame data).take cut :=
        take_append_of_le_length (by rw [length_frame]; omega)
      rw [htake]
      rcases decode_cut hvalid hdata hsize hcut hdetected with ⟨e, he, hends⟩ | hok
      · refine ⟨[], e, Stream.readAll_of_error he, hends, ?_⟩
        exact recovered_of_cut hrecords hdata hsize hcut nil_prefix
      · refine ⟨[v], .eof, ?_, trivial, ?_⟩
        · rw [decodeAll, Stream.readAll_of_ok hconsuming hok, Stream.readAll_of_error decode_nil]
          rfl
        · exact recovered_of_cut hrecords hdata hsize hcut (by simp)
    · simp only [if_neg (not_lt.mpr hcut)] at hdetected
      have htake : (frame data ++ frames).take cut =
          frame data ++ frames.take (cut - (8 + data.length)) := by
        rw [take_append, length_frame, take_of_length_le (by rw [length_frame]; exact hcut)]
      obtain ⟨decoded, e, hread, hends, hrecovered⟩ := ih hothers hframes hdetected
      refine ⟨v :: decoded, e, ?_, hends, hrecovered.cons hrecords hdata hsize⟩
      rw [htake, decodeAll, Stream.readAll_of_ok hconsuming (decode_frame hvalid hdata hsize _),
        ← decodeAll, hread]
      rfl

/-- Decoding a log of writable records gives them back. If the log is cut, a group of files gives
its first records, and so does a file if the checksum detects what is missing; the repaired file
holds the decoded records. -/
theorem log_is_decoded_faithfully (records : List TimedWALMessage)
    (hrecords : ∀ v ∈ records, Writable H v) :
    ∃ stream, encodeAll records = .ok stream ∧
      (∀ source, decodeAll H source stream = some (records, .eof)) ∧
      ∀ source cut, (source = .file → Detected records cut) →
        ∃ decoded e, decodeAll H source (stream.take cut) = some (decoded, e) ∧ e.Ends ∧
          Recovered records cut decoded ∧
          (source = .file → repairWalFile H (stream.take cut) = some (encodeAll decoded)) := by
  obtain ⟨stream, hstream⟩ := encodeAll_isOk hrecords
  refine ⟨stream, hstream, fun source => decodeAll_stream source hrecords hstream, ?_⟩
  intro source cut hdetected
  obtain ⟨decoded, e, hread, hends, hrecovered⟩ :=
    decodeAll_cut source hrecords hstream hdetected
  refine ⟨decoded, e, hread, hends, hrecovered, ?_⟩
  rintro rfl
  obtain ⟨repaired, hrepaired⟩ :=
    encodeAll_isOk fun v hv => hrecords v (hrecovered.is_initial.subset hv)
  simp only [repairWalFile, hread, map_some, hrepaired]

end Decoding

section Samples

/-- What is written for records that can be written. -/
def written (records : List TimedWALMessage) : Bytes :=
  match encodeAll records with
  | .ok stream => stream
  | .error _ => []

/-- A record of a prevote for nil with the given height and signature, made by the node itself. -/
def sampleVote (height : Int64) (signature : Bytes) : TimedWALMessage where
  time := .unix 2
  msg := .msgInfo (.vote (some
    { type := prevoteType
      height := height
      round := 0
      blockID := ⟨[], 0, []⟩
      timestamp := .unix 1
      validatorAddress := List.replicate 20 7
      validatorIndex := 0
      signature := signature })) []

/-- The data of the record. -/
def sampleVoteData : Bytes :=
  (written [sampleVote 3 [1, 2, 3]]).drop 8

theorem log_is_decoded_faithfully_sample :
    (∀ v ∈ [sampleVote 3 [1, 2, 3], ⟨⟨3, 0⟩, .endHeight 3⟩], Writable (polynomial 2) v) ∧
    ∃ stream, encodeAll [sampleVote 3 [1, 2, 3], ⟨⟨3, 0⟩, .endHeight 3⟩] = .ok stream ∧
      decodeAll (polynomial 2) .file stream =
        some ([sampleVote 3 [1, 2, 3], ⟨⟨3, 0⟩, .endHeight 3⟩], .eof) := by
  have hwritable : ∀ v ∈ [sampleVote 3 [1, 2, 3], ⟨⟨3, 0⟩, .endHeight 3⟩],
      Writable (polynomial 2) v := by
    intro v hv
    rcases mem_cons.mp hv with rfl | hv
    · exact ⟨⟨by decide +kernel, trivial⟩, sampleVoteData, by decide +kernel, by decide +kernel⟩
    · obtain rfl := mem_singleton.mp hv
      exact ⟨trivial, (written [⟨⟨3, 0⟩, .endHeight 3⟩]).drop 8, by decide +kernel,
        by decide +kernel⟩
  obtain ⟨stream, hstream, hdecoded, -⟩ := log_is_decoded_faithfully _ hwritable
  exact ⟨hwritable, stream, hstream, hdecoded .file⟩

/-- A signature that ends in a multiple of the polynomial of the checksum. -/
def collidingSignature : Bytes :=
  [1, 2, 3, 241, 118, 236, 5, 1]

/-- A record that the encoder writes is refused by the decoder if its message is not valid. And if
the end of a valid record is missing, a file is decoded to a record that was not written and
repaired accordingly, where the checksum does not tell zeros from the missing bytes. -/
theorem log_is_misread :
    encodeAll [sampleVote (-1) [1]] = .ok (written [sampleVote (-1) [1]]) ∧
      (decodeAll (polynomial 2) .group (written [sampleVote (-1) [1]])).map Prod.fst =
        some [] ∧
      encodeAll [sampleVote 3 collidingSignature] =
        .ok (written [sampleVote 3 collidingSignature]) ∧
      (written [sampleVote 3 collidingSignature]).length = 66 ∧
      decodeAll (polynomial 2) .file
        ((written [sampleVote 3 collidingSignature]).take 61) =
          some ([sampleVote 3 [1, 2, 3, 0, 0, 0, 0, 0]], .eof) ∧
      repairWalFile (polynomial 2)
        ((written [sampleVote 3 collidingSignature]).take 61) =
          some (encodeAll [sampleVote 3 [1, 2, 3, 0, 0, 0, 0, 0]]) := by
  decide +kernel

end Samples

end NimbleChain.Tendermint
