import NimbleChain.HotStuff.Types

/-!
# The signature interface and its ECDSA implementation

`CryptoBase` is the interface of `modules.CryptoBase` for one replica. `crypto/multisignature.go`
represents a quorum signature as a map from signers to partial signatures, and `crypto/ecdsa`
implements the interface with it; the elliptic curve operations stay parameters.
-/

namespace NimbleChain.HotStuff

open Common

/-- The errors that signing and combining report. -/
inductive CryptoError where
  | signFailed
  | combineMultiple
  | combineOverlap
  deriving DecidableEq

/-- `CryptoBase` creates, combines and verifies signatures on behalf of one replica. -/
structure CryptoBase (Sig : Type) where
  sign : Bytes → Except CryptoError Sig
  combine : List Sig → Except CryptoError Sig
  verify : Sig → Bytes → Bool
  batchVerify : Sig → IDMap Bytes → Bool

variable {Sig : Type}

/-- Verification only accepts signatures whose participants are configured replicas that produced
their part of the signature over the message. -/
structure CryptoBase.Sound (crypto : CryptoBase Sig) (S : Primitives Sig) (config : Finset ID)
    (produced : Sig → ID → Bytes → Prop) : Prop where
  configured : ∀ sig message, crypto.verify sig message = true → S.participants sig ⊆ config
  produced : ∀ sig message, crypto.verify sig message = true →
    ∀ id ∈ S.participants sig, produced sig id message

/-- The big-endian bytes of a non-negative `big.Int`, without leading zeros. -/
def bigIntBytes (n : Nat) : Bytes :=
  (littleEndian (if n = 0 then 0 else n.log2 / 8 + 1) n).reverse

namespace Ecdsa

/-- `Signature` is an ECDSA signature. -/
structure Signature where
  r : Nat
  s : Nat
  signer : ID
  deriving DecidableEq

/-- `Signature.ToBytes`: the bytes of `r` followed by those of `s`; the signer is not part of it. -/
def Signature.toBytes (sig : Signature) : Bytes :=
  bigIntBytes sig.r ++ bigIntBytes sig.s

/-- `Multi` is a set of partial signatures. `Sign`, `Combine` and `Restore` store each under its
signer, so the map is the list of its values, no two of one signer. -/
structure Multi where
  signatures : List Signature
  nodup_signers : (signatures.map Signature.signer).Nodup
  deriving DecidableEq

variable (sig : Multi)

namespace Multi

/-- The keys of the map. -/
def signers : List ID :=
  sig.signatures.map Signature.signer

/-- The map lookup by signer. -/
def get? (id : ID) : Option Signature :=
  sig.signatures.find? (·.signer = id)

/-- `Multi.ToBytes`: the partial signatures' bytes in the order of their signers. -/
def toBytes : Bytes :=
  (sig.signers.insertionSort (· ≤ ·)).flatMap fun id =>
    match sig.get? id with
    | some signature => signature.toBytes
    | none => []

/-- `Multi.Participants`. -/
def participants : Finset ID :=
  ⟨sig.signers, sig.nodup_signers⟩

end Multi

/-- What `ecdsaBase` reads from the configuration and the options, and the curve operations. -/
structure Base (PublicKey : Type) where
  /-- `opts.ID()`. -/
  id : ID
  /-- `configuration.Replica(id)` with its public key. -/
  replica : ID → Option PublicKey
  sum256 : Bytes → Hash
  /-- `ecdsa.Sign` with the replica's private key. -/
  ecdsaSign : Hash → Option (Nat × Nat)
  /-- `ecdsa.Verify`. -/
  ecdsaVerify : PublicKey → Hash → Nat → Nat → Bool

variable {PublicKey : Type} (ec : Base PublicKey)

/-- `verifySingle`. -/
def verifySingle (sig : Signature) (hash : Hash) : Bool :=
  match ec.replica sig.signer with
  | none => false
  | some pk => ec.ecdsaVerify pk hash sig.r sig.s

/-- `Sign`: a multi-signature that holds the replica's own partial signature. -/
def sign (message : Bytes) : Except CryptoError Multi :=
  match ec.ecdsaSign (ec.sum256 message) with
  | none => .error .signFailed
  | some (r, s) => .ok ⟨[⟨r, s, ec.id⟩], by simp⟩

/-- The loop of `Combine` over the partial signatures: a second one of a signer is an error. -/
def insertAll : Multi → List Signature → Except CryptoError Multi
  | ts, [] => .ok ts
  | ts, sig :: rest =>
    if h : sig.signer ∈ ts.signers then .error .combineOverlap
    else insertAll ⟨sig :: ts.signatures, List.nodup_cons.mpr ⟨h, ts.nodup_signers⟩⟩ rest

/-- `Combine`. -/
def combine (signatures : List Multi) : Except CryptoError Multi :=
  if signatures.length < 2 then .error .combineMultiple
  else insertAll ⟨[], by simp⟩ (signatures.flatMap Multi.signatures)

variable (signature : Multi)

/-- `Verify`: every partial signature has to be valid, and there has to be one. -/
def verify (message : Bytes) : Bool :=
  if signature.signatures.length = 0 then false
  else signature.signatures.all fun sig => verifySingle ec sig (ec.sum256 message)

/-- `BatchVerify`: every partial signature is valid for its signer's message, and the messages are
different and of participants. -/
def batchVerify (batch : IDMap Bytes) : Bool :=
  if signature.signatures.length = 0 then false
  else if signature.signatures.any fun sig => (batch.get? sig.signer).isNone then false
  else
    let hashes := signature.signatures.filterMap fun sig =>
      (batch.get? sig.signer).map ec.sum256
    let valid := signature.signatures.all fun sig =>
      match batch.get? sig.signer with
      | some message => verifySingle ec sig (ec.sum256 message)
      | none => false
    valid && hashes.toFinset.card == batch.entries.length

/-- The ECDSA implementation of `CryptoBase`. -/
def base : CryptoBase Multi where
  sign := sign ec
  combine := combine
  verify := verify ec
  batchVerify := batchVerify ec

/-- The primitives that go with ECDSA multi-signatures. -/
def primitives : Primitives Multi where
  sum256 := ec.sum256
  sigToBytes := Multi.toBytes
  participants := Multi.participants

/-- The multi-signature holds a partial signature over the message that verifies under the public
key of the configured replica. -/
def Produced (id : ID) (message : Bytes) : Prop :=
  ∃ pk, ec.replica id = some pk ∧ ∃ sig ∈ signature.signatures, sig.signer = id ∧
    ec.ecdsaVerify pk (ec.sum256 message) sig.r sig.s = true

variable {signature : Multi} {message : Bytes} {id : ID}

/-- Every participant of an accepted signature produced its part of it. -/
theorem produced_of_verify (h : verify ec signature message = true)
    (hid : id ∈ signature.participants) : Produced ec signature id message := by
  obtain ⟨sig, hmem, rfl⟩ : ∃ sig ∈ signature.signatures, sig.signer = id := by
    simpa [Multi.participants, Multi.signers] using hid
  have hsingle : verifySingle ec sig (ec.sum256 message) = true := by
    unfold verify at h
    split at h
    · cases h
    · exact List.all_eq_true.mp h sig hmem
  unfold verifySingle at hsingle
  split at hsingle
  · cases hsingle
  · exact ⟨_, ‹_›, sig, hmem, rfl, hsingle⟩

/-- ECDSA verification is sound for every configuration that holds the known replicas. -/
theorem base_sound (config : Finset ID) (hconfig : ∀ id, (ec.replica id).isSome → id ∈ config) :
    (base ec).Sound (primitives ec) config (Produced ec) where
  configured sig message h id hid := by
    obtain ⟨pk, hreplica, -⟩ := produced_of_verify ec h hid
    exact hconfig id (by simp [hreplica])
  produced sig message h id hid := produced_of_verify ec h hid

/-- The participants of an accepted batch are configured replicas as well. -/
theorem participants_subset_of_batchVerify {config : Finset ID}
    (hconfig : ∀ id, (ec.replica id).isSome → id ∈ config) {batch : IDMap Bytes}
    (h : batchVerify ec signature batch = true) : signature.participants ⊆ config := by
  intro id hid
  obtain ⟨sig, hmem, rfl⟩ : ∃ sig ∈ signature.signatures, sig.signer = id := by
    simpa [Multi.participants, Multi.signers] using hid
  unfold batchVerify at h
  split at h
  · cases h
  split at h
  · cases h
  have hvalid := List.all_eq_true.mp (Bool.and_eq_true_iff.mp h).1 sig hmem
  split at hvalid
  · unfold verifySingle at hvalid
    split at hvalid
    · cases hvalid
    · rename_i pk hreplica
      exact hconfig sig.signer (by simp [hreplica])
  · cases hvalid

/-- A stand-in for SHA-256 that can be evaluated: a polynomial in the bytes, as 32 bytes. -/
def foldHash (message : Bytes) : Hash :=
  ⟨(HashFunction.polynomial 32).sum message, (HashFunction.polynomial 32).length_sum message⟩

/-- The number that a hash encodes. -/
def hashValue (hash : Hash) : Nat :=
  hash.bytes.foldr (fun byte acc => byte.toNat + 256 * acc) 0

/-- The replicas 1 to 4 with a curve that can be evaluated: the signature of a hash is the signer's
key and the hash. -/
def sampleBase (id : ID) : Base ID where
  id := id
  replica i := if 1 ≤ i ∧ i ≤ 4 then some i else none
  sum256 := foldHash
  ecdsaSign hash := some (id.toNat, hashValue hash)
  ecdsaVerify pk hash r s := r == pk.toNat && s == hashValue hash

/-- The known replicas of that configuration. -/
theorem mem_of_sampleBase_replica {i j : ID} (h : ((sampleBase j).replica i).isSome) :
    i ∈ ({1, 2, 3, 4} : Finset ID) := by
  have hrange : 1 ≤ i ∧ i ≤ 4 := by
    by_contra hno
    simp [sampleBase, hno] at h
  have hnat : 1 ≤ i.toNat ∧ i.toNat ≤ 4 := hrange
  simp only [Finset.mem_insert, Finset.mem_singleton, ← UInt32.toNat_inj]
  simp only [UInt32.reduceToNat]
  omega

/-- The partial signature of a replica over a message in that configuration. -/
def sampleSignature (id : ID) (message : Bytes) : Signature :=
  ⟨id.toNat, hashValue (foldHash message), id⟩

/-- In that configuration a replica's own signatures verify. -/
theorem sampleBase_verify_sign (hid : 1 ≤ id ∧ id ≤ 4) {sig : Multi}
    (h : (base (sampleBase id)).sign message = .ok sig) :
    (base (sampleBase id)).verify sig message = true := by
  have hsig : sig = ⟨[sampleSignature id message], by simp⟩ := by
    simpa [base, sign, sampleBase, sampleSignature] using h.symm
  subst hsig
  simp [base, verify, verifySingle, sampleBase, sampleSignature, hid]

end Ecdsa

section SampleBlocks

open Ecdsa

/-- A hash that can be evaluated and tells apart blocks with different first command bytes. -/
def tagHash (message : Bytes) : Hash :=
  ⟨littleEndian 32 ((message.drop 44).head?.elim 0 UInt8.toNat + 1), by simp⟩

/-- The signatures of the sample configuration with that hash. -/
def tagBase : Base ID :=
  { sampleBase 1 with sum256 := tagHash }

/-- The functions of that configuration. -/
abbrev tagPrimitives : Primitives Multi :=
  primitives tagBase

/-- The certificate of replicas 1, 2 and 4 for a block. -/
def certFor (block : Block Multi) : QuorumCert Multi where
  signature := some ⟨[1, 2, 4].map fun id =>
    ⟨id.toNat, hashValue (tagHash (block.toBytes tagPrimitives)), id⟩, by simp⟩
  view := block.view
  hash := block.hash tagPrimitives

/-- The certificate of the genesis block. -/
def genesisCert : QuorumCert Multi where
  signature := none
  view := 0
  hash := (genesis : Block Multi).hash tagPrimitives

variable (parent : Block Multi)

/-- A block of replica 4 with any parent and certificate. -/
def blockOn (cert : QuorumCert Multi) (tag : UInt8) (view : View) :
    Block Multi where
  parent := parent.hash tagPrimitives
  proposer := 4
  cmd := [tag]
  cert := cert
  view := view

/-- A block on the given one, with its certificate and in the next view. -/
def blockAfter (tag : UInt8) : Block Multi :=
  blockOn parent (certFor parent) tag (parent.view + 1)

/-- The first block of a chain in which parents and certificates agree. -/
def trunk1 : Block Multi := blockOn genesis genesisCert 1 1

/-- The second block of the chain. -/
def trunk2 : Block Multi := blockAfter trunk1 2

/-- The third block of the chain. -/
def trunk3 : Block Multi := blockAfter trunk2 3

/-- The fourth block of the chain. -/
def trunk4 : Block Multi := blockAfter trunk3 4

/-- A block beside `trunk1` that nobody votes for. -/
def sibling : Block Multi := blockOn genesis genesisCert 9 1

end SampleBlocks

end NimbleChain.HotStuff
