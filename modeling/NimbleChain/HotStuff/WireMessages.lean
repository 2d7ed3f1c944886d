import NimbleChain.Common.Returns
import NimbleChain.HotStuff.Types

/-!
# The messages of the wire layer

The protobuf messages of `hotstuff.proto`, the `FromProto` conversions of `convert.go` and the
handlers of `server.go` that turn a message into an event. Every field that holds a message may be
absent. A getter of an absent message returns zero values, but a direct access is a nil dereference.
The elements of a repeated field are always there.
-/

namespace NimbleChain.HotStuff.Pb

open Common Returns List

/-- Why the code panics. -/
inductive Panic where
  | nilDereference
  | indexOutOfRange
  /-- The explicit `Panicf` of the crypto modules for a signature of another type. -/
  | incompatibleType
  deriving DecidableEq

/-! ## Messages -/

structure ECDSASignature where
  signer : UInt32
  r : Bytes
  s : Bytes
  deriving DecidableEq

structure EDDSASignature where
  signer : UInt32
  sig : Bytes
  deriving DecidableEq

structure BLS12AggregateSignature where
  sig : Bytes
  participants : Bytes
  deriving DecidableEq

/-- The `oneof` of a quorum signature. -/
inductive SigVariant where
  | ecdsaSigs (sigs : List ECDSASignature)
  | eddsaSigs (sigs : List EDDSASignature)
  | bls12Sig (sig : BLS12AggregateSignature)
  deriving DecidableEq

/-- A quorum signature; `none` is a message without a variant, or with one that is not known. -/
structure QuorumSignature where
  sig : Option SigVariant
  deriving DecidableEq

structure PartialCert where
  sig : Option QuorumSignature
  hash : Bytes

structure QuorumCert where
  sig : Option QuorumSignature
  view : UInt64
  hash : Bytes

structure TimeoutCert where
  sig : Option QuorumSignature
  view : UInt64

structure AggQC where
  qcs : IDMap (Option QuorumCert)
  sig : Option QuorumSignature
  view : UInt64

structure SyncInfo where
  qc : Option QuorumCert
  tc : Option TimeoutCert
  aggQC : Option AggQC

structure Block where
  parent : Bytes
  qc : Option QuorumCert
  view : UInt64
  command : Bytes
  proposer : UInt32

structure Proposal where
  block : Option Block
  aggQC : Option AggQC

structure TimeoutMsg where
  view : UInt64
  syncInfo : Option SyncInfo
  viewSig : Option QuorumSignature
  msgSig : Option QuorumSignature

/-! ## Signatures -/

/-- `Bitfield` is a set of IDs in which the bit `i - 1` stands for the ID `i`. -/
structure Bitfield where
  data : Bytes
  len : Nat
  deriving DecidableEq

namespace Bitfield

variable (data : Bytes)

/-- `isSet`. -/
def isSet (byteIdx bitIdx : Nat) : Except Panic Bool :=
  match data[byteIdx]? with
  | none => .error .indexOutOfRange
  | some byte => .ok (byte &&& (1 <<< UInt8.ofNat bitIdx) ≠ 0)

/-- `id`. -/
def idAt (byteIdx bitIdx : Nat) : ID :=
  UInt32.ofNat (1 + byteIdx * 8 + bitIdx)

/-- The indices that `RangeWhile` visits. -/
def indices : List (Nat × Nat) :=
  (List.range data.length).flatMap fun byteIdx => (List.range 8).map (Prod.mk byteIdx)

/-- The IDs among the given indices. -/
def idsAt : List (Nat × Nat) → Except Panic (List ID)
  | [] => .ok []
  | index :: rest => do
    let found ← isSet data index.1 index.2
    let ids ← idsAt rest
    return if found then idAt index.1 index.2 :: ids else ids

/-- The IDs in the order of `ForEach`. -/
def ids : Except Panic (List ID) :=
  idsAt data (indices data)

/-- `BitfieldFromBytes`. -/
def fromBytes : Except Panic Bitfield := do
  let found ← ids data
  return ⟨data, found.length⟩

end Bitfield

open Bitfield

/-- The quorum signatures of the three crypto modules: maps from signers to partial signatures, or a
curve point with its participants. -/
inductive Signature (Point : Type) where
  | ecdsa (sigs : IDMap (Nat × Nat))
  | eddsa (sigs : IDMap Bytes)
  | bls12 (sig : Point) (participants : Bitfield)

variable {Point : Type} (bytes : Bytes)

/-- `Participants`. -/
def Signature.participants : Signature Point → Except Panic (List ID)
  | .ecdsa sigs => .ok sigs.keys
  | .eddsa sigs => .ok sigs.keys
  | .bls12 _ participants => ids participants.data

/-- `crypto.Restore`: a later signature of a signer replaces an earlier one. -/
def restore {α : Type} : List (ID × α) → IDMap α
  | [] => ⟨[], List.nodup_nil⟩
  | (id, sig) :: rest =>
    let others := restore rest
    if h : id ∈ others.keys then others
    else ⟨(id, sig) :: others.entries, List.nodup_cons.mpr ⟨h, others.nodup_keys⟩⟩

/-- `SetBytes` of a `big.Int`. -/
def setBytes : Nat :=
  bytes.foldl (fun n byte => 256 * n + byte.toNat) 0

/-- `copy(h[:], bytes)` for a zero hash `h`. -/
def hashOf : Hash :=
  ⟨(bytes ++ List.replicate 32 0).take 32, by simp⟩

/-! ## Conversions -/

section Conversions

-- `FromCompressed` of the curve
variable (fromCompressed : Bytes → Option Point)

/-- `QuorumSignatureFromProto`; the result is nil for a message without a known variant and for a
point that cannot be decompressed. -/
def quorumSignatureFromProto (sig : Option QuorumSignature) :
    Except Panic (Option (Signature Point)) :=
  match sig.bind QuorumSignature.sig with
  | none => .ok none
  | some (.ecdsaSigs sigs) =>
    .ok (some (.ecdsa (restore (sigs.map fun sig => (sig.signer, setBytes sig.r, setBytes sig.s)))))
  | some (.eddsaSigs sigs) => .ok
    (some (.eddsa (restore (sigs.map fun sig => (sig.signer, sig.sig)))))
  | some (.bls12Sig sig) => do
    let participants ← fromBytes sig.participants
    return (fromCompressed sig.sig).map fun point => .bls12 point participants

/-- `NewPartialCert`. -/
def newPartialCert (signature : Option (Signature Point)) (blockHash : Hash) :
    Except Panic (HotStuff.PartialCert (Signature Point)) :=
  match signature with
  | none => .error .nilDereference
  | some signature => do
    let participants ← signature.participants
    return { signer := participants.head?.getD 0, signature := signature, blockHash := blockHash }

/-- `PartialCertFromProto`. -/
def partialCertFromProto (cert : PartialCert) :
    Except Panic (HotStuff.PartialCert (Signature Point)) := do
  let signature ← quorumSignatureFromProto fromCompressed cert.sig
  newPartialCert signature (hashOf cert.hash)

/-- `QuorumCertFromProto`. -/
def quorumCertFromProto (qc : Option QuorumCert) :
    Except Panic (HotStuff.QuorumCert (Signature Point)) := do
  let signature ← quorumSignatureFromProto fromCompressed (qc.bind QuorumCert.sig)
  return { signature := signature, view := (qc.map QuorumCert.view).getD 0
           hash := hashOf ((qc.map QuorumCert.hash).getD []) }

/-- `TimeoutCertFromProto`. -/
def timeoutCertFromProto (tc : TimeoutCert) :
    Except Panic (HotStuff.TimeoutCert (Signature Point)) := do
  let signature ← quorumSignatureFromProto fromCompressed tc.sig
  return { signature := signature, view := tc.view }

/-- The loop of `AggregateQCFromProto` over the map. -/
def qcsFromProto : List (ID × Option QuorumCert) →
    Except Panic (List (ID × HotStuff.QuorumCert (Signature Point)))
  | [] => .ok []
  | (id, qc) :: rest => do
    let cert ← quorumCertFromProto fromCompressed qc
    let certs ← qcsFromProto rest
    return (id, cert) :: certs

/-- `AggregateQCFromProto`. -/
def aggregateQCFromProto (m : AggQC) : Except Panic (HotStuff.AggregateQC (Signature Point)) := do
  let qcs ← qcsFromProto fromCompressed m.qcs.entries
  let signature ← quorumSignatureFromProto fromCompressed m.sig
  return { qcs := restore qcs, sig := signature, view := m.view }

/-- Convert a message that may be absent. -/
def optionFromProto {α β : Type} (convert : α → Except Panic β) :
    Option α → Except Panic (Option β)
  | none => .ok none
  | some m => do
    let value ← convert m
    return some value

/-- `SyncInfoFromProto`. -/
def syncInfoFromProto (m : Option SyncInfo) :
    Except Panic (HotStuff.SyncInfo (Signature Point)) := do
  let qc ← optionFromProto (quorumCertFromProto fromCompressed ∘ some) (m.bind SyncInfo.qc)
  let tc ← optionFromProto (timeoutCertFromProto fromCompressed) (m.bind SyncInfo.tc)
  let aggQC ← optionFromProto (aggregateQCFromProto fromCompressed) (m.bind SyncInfo.aggQC)
  return { qc := qc, tc := tc, aggQC := aggQC }

/-- `BlockFromProto`. -/
def blockFromProto (block : Option Block) : Except Panic (HotStuff.Block (Signature Point)) := do
  let cert ← quorumCertFromProto fromCompressed (block.bind Block.qc)
  return { parent := hashOf ((block.map Block.parent).getD [])
           proposer := (block.map Block.proposer).getD 0
           cmd := (block.map Block.command).getD []
           cert := cert
           view := (block.map Block.view).getD 0 }

/-- `ProposalFromProto`; the ID is filled in later. -/
def proposalFromProto (p : Proposal) : Except Panic (HotStuff.ProposeMsg (Signature Point)) := do
  let block ← blockFromProto fromCompressed p.block
  let aggQC ← optionFromProto (aggregateQCFromProto fromCompressed) p.aggQC
  return { id := 0, block := block, aggregateQC := aggQC }

/-- `TimeoutMsgFromProto`; the ID is filled in later. -/
def timeoutMsgFromProto (m : TimeoutMsg) :
    Except Panic (HotStuff.TimeoutMsg (Signature Point)) := do
  let syncInfo ← syncInfoFromProto fromCompressed m.syncInfo
  let viewSignature ← quorumSignatureFromProto fromCompressed m.viewSig
  -- the source asks for the view signature before it converts the message signature
  let msgSignature ← quorumSignatureFromProto fromCompressed
    (if m.viewSig.isSome then m.msgSig else none)
  return { id := 0, view := m.view, syncInfo := syncInfo, viewSignature := viewSignature
           msgSignature := msgSignature }

/-! ## Server handlers -/

/-- A message that a peer sends. -/
inductive Message where
  | proposal (proposal : Proposal)
  | vote (cert : PartialCert)
  | newView (syncInfo : SyncInfo)
  | timeout (timeout : TimeoutMsg)

/-- The events that the server adds to the event loop. -/
inductive ServerEvent (Sig : Type) where
  | propose (proposal : HotStuff.ProposeMsg Sig)
  | vote (id : ID) (cert : HotStuff.PartialCert Sig)
  | newView (id : ID) (syncInfo : HotStuff.SyncInfo Sig)
  | timeout (timeout : HotStuff.TimeoutMsg Sig)

/-- `Propose`: the proposer is written into the block before it is converted. -/
def proposeHandler (id : ID) (proposal : Proposal) : Except Panic (ServerEvent (Signature Point)) :=
  match proposal.block with
  | none => .error .nilDereference
  | some block => do
    let msg ← proposalFromProto fromCompressed
      { proposal with block := some { block with proposer := id } }
    return .propose { msg with id := id }

/-- The server handlers. Without the ID of the peer a message is dropped, but a timeout message is
kept with the ID 0. -/
def serve (peer : Option ID) : Message → Except Panic (Option (ServerEvent (Signature Point)))
  | .proposal proposal => optionFromProto (fun id => proposeHandler fromCompressed id proposal) peer
  | .vote cert =>
    optionFromProto (fun id => do
      let cert ← partialCertFromProto fromCompressed cert
      return .vote id cert) peer
  | .newView msg =>
    optionFromProto (fun id => do
      let syncInfo ← syncInfoFromProto fromCompressed (some msg)
      return .newView id syncInfo) peer
  | .timeout msg => do
    let timeout ← timeoutMsgFromProto fromCompressed msg
    return some (.timeout { timeout with id := peer.getD 0 })

end Conversions

/-! ## When the handlers return -/

section Returning

variable (fromCompressed : Bytes → Option Point) {α β : Type} {convert : α → Except Panic β}

theorem returns_optionFromProto (h : ∀ m, Returns (convert m)) (m : Option α) :
    Returns (optionFromProto convert m) := by
  cases m with
  | none => exact ok none
  | some m => exact (h m).bind fun value _ => pure (some value)

/-- `RangeWhile` stays within the data. -/
theorem returns_idsAt {data : Bytes} {indices : List (Nat × Nat)}
    (h : ∀ index ∈ indices, index.1 < data.length) : Returns (idsAt data indices) := by
  induction indices with
  | nil => exact ok []
  | cons index rest ih =>
    have hset : Returns (isSet data index.1 index.2) := by
      unfold isSet
      rw [getElem?_eq_getElem (h index mem_cons_self)]
      exact ok _
    refine hset.bind fun found _ => ?_
    exact (ih fun i hi => h i (List.mem_cons_of_mem _ hi)).bind fun ids _ => pure _

theorem returns_ids (data : Bytes) : Returns (ids data) := by
  refine returns_idsAt fun index hindex => ?_
  obtain ⟨byteIdx, hbyte, hpair⟩ := mem_flatMap.mp hindex
  obtain ⟨bitIdx, -, rfl⟩ := mem_map.mp hpair
  exact mem_range.mp hbyte

theorem returns_participants (sig : Signature Point) : Returns sig.participants := by
  cases sig with
  | ecdsa sigs => exact ok _
  | eddsa sigs => exact ok _
  | bls12 sig participants => exact returns_ids _

variable (sig : Option QuorumSignature)

theorem returns_quorumSignatureFromProto :
    Returns (quorumSignatureFromProto fromCompressed sig) := by
  unfold quorumSignatureFromProto
  split
  · exact ok _
  · exact ok _
  · exact ok _
  · rename_i sig _
    have hfield : Returns (fromBytes sig.participants) :=
      (returns_ids sig.participants).bind fun ids _ => pure _
    exact hfield.bind fun participants _ => pure _

theorem returns_quorumCertFromProto (qc : Option QuorumCert) :
    Returns (quorumCertFromProto fromCompressed qc) :=
  (returns_quorumSignatureFromProto fromCompressed _).bind fun _ _ => pure _

theorem returns_timeoutCertFromProto (tc : TimeoutCert) :
    Returns (timeoutCertFromProto fromCompressed tc) :=
  (returns_quorumSignatureFromProto fromCompressed _).bind fun _ _ => pure _

theorem returns_qcsFromProto (qcs : List (ID × Option QuorumCert)) :
    Returns (qcsFromProto fromCompressed qcs) := by
  induction qcs with
  | nil => exact ok []
  | cons entry rest ih =>
    refine (returns_quorumCertFromProto fromCompressed entry.2).bind fun cert _ => ?_
    exact ih.bind fun certs _ => pure _

theorem returns_aggregateQCFromProto (m : AggQC) :
    Returns (aggregateQCFromProto fromCompressed m) := by
  refine (returns_qcsFromProto fromCompressed m.qcs.entries).bind fun qcs _ => ?_
  exact (returns_quorumSignatureFromProto fromCompressed m.sig).bind fun _ _ => pure _

theorem returns_syncInfoFromProto (m : Option SyncInfo) :
    Returns (syncInfoFromProto fromCompressed m) := by
  refine (returns_optionFromProto (fun qc => returns_quorumCertFromProto fromCompressed (some qc))
    _).bind fun qc _ => ?_
  refine (returns_optionFromProto (returns_timeoutCertFromProto fromCompressed) _).bind
    fun tc _ => ?_
  exact (returns_optionFromProto (returns_aggregateQCFromProto fromCompressed) _).bind
    fun aggQC _ => pure _

theorem returns_proposalFromProto (p : Proposal) :
    Returns (proposalFromProto fromCompressed p) := by
  have hblock : Returns (blockFromProto fromCompressed p.block) :=
    (returns_quorumCertFromProto fromCompressed _).bind fun _ _ => pure _
  refine hblock.bind fun block _ => ?_
  exact (returns_optionFromProto (returns_aggregateQCFromProto fromCompressed) p.aggQC).bind
    fun aggQC _ => pure _

theorem returns_timeoutMsgFromProto (m : TimeoutMsg) :
    Returns (timeoutMsgFromProto fromCompressed m) := by
  refine (returns_syncInfoFromProto fromCompressed m.syncInfo).bind fun syncInfo _ => ?_
  refine (returns_quorumSignatureFromProto fromCompressed m.viewSig).bind fun viewSig _ => ?_
  exact (returns_quorumSignatureFromProto fromCompressed _).bind fun msgSig _ => pure _

/-- The signature has a known variant, and a BLS12 signature is a point of the curve. -/
def Restorable : Prop :=
  match sig.bind QuorumSignature.sig with
  | none => False
  | some (.ecdsaSigs _) => True
  | some (.eddsaSigs _) => True
  | some (.bls12Sig sig) => (fromCompressed sig.sig).isSome

/-- What the server handlers need of a message: a proposal has a block, and a vote has a signature
that can be restored. -/
def Complete : Message → Prop
  | .proposal proposal => proposal.block.isSome
  | .vote cert => Restorable fromCompressed cert.sig
  | .newView _ => True
  | .timeout _ => True

/-- A conversion gives a signature exactly if it can be restored. -/
theorem restorable_iff :
    Restorable fromCompressed sig ↔
      ∃ restored, quorumSignatureFromProto fromCompressed sig = .ok (some restored) := by
  unfold Restorable quorumSignatureFromProto
  split
  · simp
  · simp
  · simp
  · rename_i sig _
    obtain ⟨participants, hfield⟩ : Returns (fromBytes sig.participants) :=
      (returns_ids sig.participants).bind fun ids _ => pure _
    rw [hfield]
    cases hpoint : fromCompressed sig.sig with
    | none => simp
    | some point => simp

/-- A vote can be converted exactly if its signature can be restored. -/
theorem returns_partialCertFromProto_iff (cert : PartialCert) :
    Returns (partialCertFromProto fromCompressed cert) ↔ Restorable fromCompressed cert.sig := by
  rw [restorable_iff, partialCertFromProto, bind_iff]
  constructor
  · rintro ⟨signature, hsignature, hcert⟩
    cases signature with
    | none => exact absurd hcert (not_error _)
    | some restored => exact ⟨restored, hsignature⟩
  · rintro ⟨restored, hrestored⟩
    refine ⟨some restored, hrestored, ?_⟩
    exact (returns_participants restored).bind fun _ _ => pure _

/-- A proposal can be handled exactly if it has a block. -/
theorem returns_proposeHandler_iff (id : ID) (proposal : Proposal) :
    Returns (proposeHandler fromCompressed id proposal) ↔ proposal.block.isSome := by
  unfold proposeHandler
  cases proposal.block with
  | none => exact ⟨fun h => absurd h (not_error _), fun h => by cases h⟩
  | some block =>
    exact ⟨fun _ => rfl, fun _ =>
      (returns_proposalFromProto fromCompressed _).bind fun msg _ => pure _⟩

theorem returns_optionFromProto_some_iff {m : α} :
    Returns (optionFromProto convert (some m)) ↔ Returns (convert m) := by
  rw [optionFromProto, bind_pure_iff]

/-- The server handlers return exactly for complete messages and for messages that are dropped. -/
theorem returns_serve_iff (peer : Option ID) (msg : Message) :
    Returns (serve fromCompressed peer msg) ↔ peer = none ∨ Complete fromCompressed msg := by
  cases msg with
  | timeout msg =>
    refine ⟨fun _ => .inr trivial, fun _ => ?_⟩
    exact (returns_timeoutMsgFromProto fromCompressed msg).bind fun timeout _ => pure _
  | proposal proposal =>
    cases peer with
    | none => exact ⟨fun _ => .inl rfl, fun _ => ok none⟩
    | some id =>
      rw [serve, returns_optionFromProto_some_iff, returns_proposeHandler_iff]
      simp [Complete]
  | vote cert =>
    cases peer with
    | none => exact ⟨fun _ => .inl rfl, fun _ => ok none⟩
    | some id =>
      rw [serve, returns_optionFromProto_some_iff, bind_pure_iff, returns_partialCertFromProto_iff]
      simp [Complete]
  | newView msg =>
    refine ⟨fun _ => .inr trivial, fun _ => ?_⟩
    refine returns_optionFromProto (fun id => ?_) peer
    exact (returns_syncInfoFromProto fromCompressed (some msg)).bind fun si _ => pure _

end Returning

end NimbleChain.HotStuff.Pb
