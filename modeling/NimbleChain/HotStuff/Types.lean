import NimbleChain.Common.Bytes

/-!
# HotStuff data types and their byte encodings

The types of `types.go`, `block.go`, `events.go`, `genesis.go` and `helper.go`. Sums of views wrap
as they do in the source. The encodings are the ones that are hashed and signed; nothing here claims
that they are injective. SHA-256 and the signature type stay parameters.
-/

namespace NimbleChain.HotStuff

open Common List

/-- `ID` uniquely identifies a replica. -/
abbrev ID := UInt32

/-- `View` is a number that uniquely identifies a view. -/
abbrev View := UInt64

/-- `Command` is a client request to be executed by the consensus protocol. -/
abbrev Command := Bytes

/-- `Hash` is a SHA-256 hash: exactly 32 bytes. -/
structure Hash where
  bytes : Bytes
  length_bytes : bytes.length = 32
  deriving DecidableEq

namespace Hash

/-- The zero value `Hash{}`. -/
def zero : Hash := ⟨replicate 32 0, by simp⟩

end Hash

/-- `View.ToBytes`: eight bytes, little endian. -/
def viewToBytes (v : View) : Bytes :=
  littleEndian 8 v.toNat

@[simp] theorem length_viewToBytes (v : View) : (viewToBytes v).length = 8 :=
  length_littleEndian 8 _

/-- A view is determined by its bytes. -/
theorem viewToBytes_injective : Function.Injective viewToBytes := by
  intro v w h
  have hv := v.toNat_lt
  have hw := w.toNat_lt
  exact UInt64.toNat_inj.mp (littleEndian_inj (by simpa using hv) (by simpa using hw) h)

/-- A Go map keyed by replica IDs, with the entries in the order in which a `range` loop visits
them. -/
structure IDMap (α : Type) where
  entries : List (ID × α)
  nodup_keys : (entries.map Prod.fst).Nodup

namespace IDMap

variable {α : Type} (m : IDMap α)

/-- `maps.Keys`. -/
def keys : List ID :=
  m.entries.map Prod.fst

/-- The map lookup `m[id]`. -/
def get? (id : ID) : Option α :=
  m.entries.lookup id

end IDMap

/-- What the types need of SHA-256 and of the `QuorumSignature` interface. -/
structure Primitives (Sig : Type) where
  /-- `sha256.Sum256`. -/
  sum256 : Bytes → Hash
  /-- `QuorumSignature.ToBytes`. -/
  sigToBytes : Sig → Bytes
  /-- `QuorumSignature.Participants`. -/
  participants : Sig → Finset ID

/-- `QuorumCert` certifies the block with the given hash; `none` is the nil signature. -/
structure QuorumCert (Sig : Type) where
  signature : Option Sig
  view : View
  hash : Hash
  deriving DecidableEq

/-- `PartialCert` is a single replica's vote for a block. -/
structure PartialCert (Sig : Type) where
  signer : ID
  signature : Sig
  blockHash : Hash

/-- `TimeoutCert` certifies that a quorum of replicas timed out in a view. -/
structure TimeoutCert (Sig : Type) where
  signature : Option Sig
  view : View

/-- `AggregateQC` is a set of QCs extracted from timeout messages and an aggregate signature of
the timeout signatures. -/
structure AggregateQC (Sig : Type) where
  qcs : IDMap (QuorumCert Sig)
  sig : Option Sig
  view : View

/-- `SyncInfo` holds the highest known QC or TC; an AggregateQC when they are in use. -/
structure SyncInfo (Sig : Type) where
  qc : Option (QuorumCert Sig) := none
  tc : Option (TimeoutCert Sig) := none
  aggQC : Option (AggregateQC Sig) := none

/-- `Block` contains a proposed command, metadata for the protocol and a link to its parent. The
cached hash of the source is recomputed by `Block.hash`. -/
structure Block (Sig : Type) where
  parent : Hash
  proposer : ID
  cmd : Command
  cert : QuorumCert Sig
  view : View
  deriving DecidableEq

/-- `ProposeMsg` is broadcast when a leader makes a proposal. -/
structure ProposeMsg (Sig : Type) where
  id : ID
  block : Block Sig
  aggregateQC : Option (AggregateQC Sig) := none

/-- `TimeoutMsg` is broadcast whenever a replica has a local timeout. -/
structure TimeoutMsg (Sig : Type) where
  id : ID
  view : View
  syncInfo : SyncInfo Sig
  viewSignature : Option Sig
  msgSignature : Option Sig := none

variable {Sig : Type} (S : Primitives Sig) (b : Block Sig)

/-- `QuorumCert.ToBytes`: the view, the hash and, unless it is nil, the signature. -/
def QuorumCert.toBytes (qc : QuorumCert Sig) : Bytes :=
  viewToBytes qc.view ++ qc.hash.bytes ++
    match qc.signature with
    | some sig => S.sigToBytes sig
    | none => []

/-- `QuorumCert.Equals`: signatures are compared by their bytes. -/
def QuorumCert.equals (qc other : QuorumCert Sig) : Bool :=
  if qc.view ≠ other.view then false
  else if qc.hash ≠ other.hash then false
  else
    match qc.signature, other.signature with
    | some sig, some sig' => S.sigToBytes sig == S.sigToBytes sig'
    | none, none => true
    | _, _ => false

/-- `Block.ToBytes`: parent, proposer, view, command and certificate, without separators. -/
def Block.toBytes : Bytes :=
  b.parent.bytes ++ littleEndian 4 b.proposer.toNat ++ viewToBytes b.view ++ b.cmd ++
    b.cert.toBytes S

/-- `Block.Hash`. -/
def Block.hash : Hash :=
  S.sum256 (b.toBytes S)

/-- `TimeoutMsg.ToBytes`: the sender, the view and the QC of the sync info, if there is one. -/
def TimeoutMsg.toBytes (timeout : TimeoutMsg Sig) : Bytes :=
  littleEndian 4 timeout.id.toNat ++ viewToBytes timeout.view ++
    match timeout.syncInfo.qc with
    | some qc => qc.toBytes S
    | none => []

/-- `GetGenesis`: `NewBlock(Hash{}, QuorumCert{}, "", 0, 0)`. -/
def genesis : Block Sig where
  parent := Hash.zero
  proposer := 0
  cmd := []
  cert := { signature := none, view := 0, hash := Hash.zero }
  view := 0

/-- `NumFaulty` calculates `f`, the number of replicas that can be faulty among `n`. -/
def numFaulty (n : Nat) : Nat :=
  (n - 1) / 3

/-- `QuorumSize` calculates `n - f`, the number of replicas that form a quorum. -/
def quorumSize (n : Nat) : Nat :=
  n - numFaulty n

variable (S : Primitives Sig)

/-- The view stands at a fixed place in the bytes of a block. -/
theorem Block.view_eq_of_toBytes_eq {b b' : Block Sig} (h : b.toBytes S = b'.toBytes S) :
    b.view = b'.view := by
  simp only [Block.toBytes, append_assoc] at h
  have hparent := append_inj h (by rw [b.parent.length_bytes, b'.parent.length_bytes])
  have hproposer := append_inj hparent.2 (by simp)
  exact viewToBytes_injective (append_inj hproposer.2 (by simp)).1

variable {t t' : TimeoutMsg Sig} {qc : QuorumCert Sig}

/-- The view stands at a fixed place in the bytes of a timeout message. -/
theorem TimeoutMsg.view_eq_of_toBytes_eq (h : t.toBytes S = t'.toBytes S) : t.view = t'.view := by
  simp only [TimeoutMsg.toBytes, append_assoc] at h
  have hid := append_inj h (by simp)
  exact viewToBytes_injective (append_inj hid.2 (by simp)).1

/-- The views of a timeout message and of the certificate it reports stand at fixed places. -/
theorem TimeoutMsg.views_eq_of_toBytes_eq {qc' : QuorumCert Sig} (hqc : t.syncInfo.qc = some qc)
    (hqc' : t'.syncInfo.qc = some qc') (h : t.toBytes S = t'.toBytes S) :
    t.view = t'.view ∧ qc.view = qc'.view := by
  refine ⟨TimeoutMsg.view_eq_of_toBytes_eq S h, ?_⟩
  simp only [TimeoutMsg.toBytes, hqc, hqc', QuorumCert.toBytes, append_assoc] at h
  have hid := append_inj h (by simp)
  have hview := append_inj hid.2 (by simp)
  exact viewToBytes_injective (append_inj hview.2 (by simp)).1

/-- A timeout message that reports a certificate is longer than a view. -/
theorem TimeoutMsg.length_toBytes_ge (hqc : t.syncInfo.qc = some qc) :
    20 ≤ (t.toBytes S).length := by
  simp only [TimeoutMsg.toBytes, hqc, QuorumCert.toBytes, length_append, length_littleEndian,
    length_viewToBytes]
  omega

/-- The signed bytes of a block are never as short as those of a view. -/
theorem Block.length_toBytes_ge (b : Block Sig) : 84 ≤ (b.toBytes S).length := by
  have hparent := b.parent.length_bytes
  have hcert := b.cert.hash.length_bytes
  simp only [Block.toBytes, QuorumCert.toBytes, length_append, length_littleEndian,
    length_viewToBytes]
  omega

end NimbleChain.HotStuff
