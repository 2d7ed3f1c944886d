import NimbleChain.HotStuff.Replica

/-!
# What the bytes of a block determine

`Block.ToBytes` writes the parent, the proposer and the view at fixed places, and behind them the
command and the certificate without saying where the command ends. The signature of a certificate
is written without its signers and without the lengths of its parts. The bytes that are hashed and
signed therefore determine a block exactly as far as the boundaries between these parts are known.
-/

namespace NimbleChain.HotStuff

open Common

variable {Sig : Type} (S : Primitives Sig) (qc : QuorumCert Sig)

/-- The bytes of the signature at the end of a certificate; a nil signature has none. -/
def QuorumCert.signatureBytes : Bytes :=
  match qc.signature with
  | some sig => S.sigToBytes sig
  | none => []

/-- The parts of a certificate. -/
theorem QuorumCert.toBytes_eq :
    qc.toBytes S = viewToBytes qc.view ++ (qc.hash.bytes ++ qc.signatureBytes S) := by
  rfl

/-- A hash is its bytes. -/
theorem Hash.eq_of_bytes_eq {h h' : Hash} (heq : h.bytes = h'.bytes) : h = h' := by
  cases h
  cases h'
  cases heq
  rfl

/-- The bytes of a certificate determine all of it but the signature behind its bytes. -/
theorem QuorumCert.fields_of_toBytes_eq {qc qc' : QuorumCert Sig}
    (h : qc.toBytes S = qc'.toBytes S) :
    qc.view = qc'.view ∧ qc.hash = qc'.hash ∧ qc.signatureBytes S = qc'.signatureBytes S := by
  rw [QuorumCert.toBytes_eq, QuorumCert.toBytes_eq] at h
  have hview := List.append_inj h (by simp)
  have hhash := List.append_inj hview.2 (by rw [qc.hash.length_bytes, qc'.hash.length_bytes])
  exact ⟨viewToBytes_injective hview.1, Hash.eq_of_bytes_eq hhash.1, hhash.2⟩

/-- The fields in front of the command stand at fixed places. -/
theorem Block.fields_of_toBytes_eq {b b' : Block Sig} (h : b.toBytes S = b'.toBytes S) :
    b.parent = b'.parent ∧ b.proposer = b'.proposer ∧ b.view = b'.view ∧
      b.cmd ++ b.cert.toBytes S = b'.cmd ++ b'.cert.toBytes S := by
  simp only [Block.toBytes, List.append_assoc] at h
  have hparent := List.append_inj h (by rw [b.parent.length_bytes, b'.parent.length_bytes])
  have hproposer := List.append_inj hparent.2 (by simp)
  have hview := List.append_inj hproposer.2 (by simp)
  have hid : b.proposer.toNat = b'.proposer.toNat :=
    littleEndian_inj (by simpa using b.proposer.toNat_lt) (by simpa using b'.proposer.toNat_lt)
      hproposer.1
  exact ⟨Hash.eq_of_bytes_eq hparent.1, UInt32.toNat_inj.mp hid, viewToBytes_injective hview.1,
    hview.2⟩

namespace Ecdsa

/-- A number is written with as many bytes as it needs. -/
theorem lt_pow_length_bigIntBytes (n : Nat) : n < 256 ^ (bigIntBytes n).length := by
  unfold bigIntBytes
  rw [List.length_reverse, length_littleEndian]
  split
  · omega
  · calc n < 2 ^ (n.log2 + 1) := Nat.lt_log2_self
      _ ≤ 2 ^ (8 * (n.log2 / 8 + 1)) := Nat.pow_le_pow_right two_pos (by omega)
      _ = 256 ^ (n.log2 / 8 + 1) := by rw [pow_mul]; norm_num

/-- The bytes of a number determine it. -/
theorem bigIntBytes_injective : Function.Injective bigIntBytes := by
  have hform : ∀ n, bigIntBytes n = (littleEndian (bigIntBytes n).length n).reverse := by
    intro n
    conv_rhs => rw [bigIntBytes, List.length_reverse, length_littleEndian]
    rfl
  intro m n h
  have hm := lt_pow_length_bigIntBytes m
  have hbytes := (hform m).symm.trans (h.trans (hform n))
  rw [h] at hm hbytes
  exact littleEndian_inj hm (lt_pow_length_bigIntBytes n) (List.reverse_injective hbytes)

/-- The signers in their order, with the lengths of the two numbers of each signature. -/
def Multi.shape (sig : Multi) : List (ID × Nat × Nat) :=
  sig.signatures.map fun part =>
    (part.signer, (bigIntBytes part.r).length, (bigIntBytes part.s).length)

/-- A partial signature is found under its signer. -/
theorem Multi.get?_signer {sig : Multi} {part : Signature} (h : part ∈ sig.signatures) :
    sig.get? part.signer = some part := by
  cases hfind : sig.get? part.signer with
  | none => exact absurd (List.find?_eq_none.mp hfind part h) (by simp)
  | some other =>
    have hsigner := List.find?_some hfind
    exact congrArg some (List.inj_on_of_nodup_map sig.nodup_signers
      (List.mem_of_find?_eq_some hfind) h (of_decide_eq_true hsigner))

/-- Signatures of one shape that have the same bytes are equal. -/
theorem Multi.eq_of_toBytes_eq {sig sig' : Multi} (hshape : sig.shape = sig'.shape)
    (h : sig.toBytes = sig'.toBytes) : sig = sig' := by
  have hsigners : sig.signers = sig'.signers := by
    simpa [shape, signers, Function.comp_def] using congrArg (List.map Prod.fst) hshape
  have hcount : sig.signatures.length = sig'.signatures.length := by
    simpa [shape] using congrArg List.length hshape
  -- the parts at one place have one signer and numbers of the same lengths
  have hpart : ∀ i (hi : i < sig.signatures.length) (hi' : i < sig'.signatures.length),
      sig.signatures[i].signer = sig'.signatures[i].signer ∧
        (bigIntBytes sig.signatures[i].r).length = (bigIntBytes sig'.signatures[i].r).length ∧
        (bigIntBytes sig.signatures[i].s).length = (bigIntBytes sig'.signatures[i].s).length := by
    intro i hi hi'
    simpa [shape, hi, hi'] using congrArg (·[i]?) hshape
  rw [toBytes, toBytes, ← hsigners] at h
  -- so their codes have the same lengths, and are equal
  have hcode := eq_of_flatMap_eq (fun id hid => ?_) h
  · have hall : sig.signatures = sig'.signatures := by
      refine List.ext_getElem hcount fun i hi hi' => ?_
      obtain ⟨hsigner, hr, -⟩ := hpart i hi hi'
      have hbytes := hcode sig.signatures[i].signer
        ((List.mem_insertionSort _).mpr (List.mem_map_of_mem (List.getElem_mem hi)))
      rw [get?_signer (List.getElem_mem hi), hsigner, get?_signer (List.getElem_mem hi')] at hbytes
      obtain ⟨hr, hs⟩ := List.append_inj hbytes hr
      cases hone : sig.signatures[i]
      cases htwo : sig'.signatures[i]
      rw [hone, htwo] at hsigner hr hs
      cases hsigner
      cases bigIntBytes_injective hr
      cases bigIntBytes_injective hs
      rfl
    cases sig
    cases sig'
    cases hall
    rfl
  · obtain ⟨part, hmem, rfl⟩ := List.mem_map.mp ((List.mem_insertionSort _).mp hid)
    obtain ⟨i, hi, rfl⟩ := List.getElem_of_mem hmem
    obtain ⟨hsigner, hr, hs⟩ := hpart i hi (hcount ▸ hi)
    rw [get?_signer (List.getElem_mem hi), hsigner, get?_signer (List.getElem_mem (hcount ▸ hi))]
    simp [Signature.toBytes, hr, hs]

end Ecdsa

open Ecdsa

/-- The parts of two blocks end at the same places: the commands are of one length, and the
signatures are both nil or have the same signers in the same order and numbers of the same
lengths. -/
structure SameBoundaries (b b' : Block Multi) : Prop where
  command : b.cmd.length = b'.cmd.length
  signature : b.cert.signature.map Multi.shape = b'.cert.signature.map Multi.shape

variable {PublicKey : Type} (ec : Base PublicKey) {b b' : Block Multi}

/-- Blocks with equal bytes are equal exactly if their boundaries are. -/
theorem Block.eq_iff_sameBoundaries (h : b.toBytes (primitives ec) = b'.toBytes (primitives ec)) :
    b = b' ↔ SameBoundaries b b' := by
  constructor
  · rintro rfl
    exact ⟨rfl, rfl⟩
  · intro hsame
    obtain ⟨hparent, hproposer, hview, hrest⟩ := Block.fields_of_toBytes_eq _ h
    have hcmd := List.append_inj hrest hsame.command
    obtain ⟨hqcView, hqcHash, hqcSig⟩ := QuorumCert.fields_of_toBytes_eq _ hcmd.2
    have hsig : b.cert.signature = b'.cert.signature := by
      have hshape := hsame.signature
      unfold QuorumCert.signatureBytes at hqcSig
      cases hb : b.cert.signature with
      | none => cases hb' : b'.cert.signature <;> simp_all
      | some sig =>
        cases hb' : b'.cert.signature with
        | none => simp_all
        | some sig' =>
          rw [hb, hb'] at hshape hqcSig
          exact congrArg some (Multi.eq_of_toBytes_eq (Option.some.inj hshape) hqcSig)
    have hcert : b.cert = b'.cert := by
      cases hb : b.cert
      cases hb' : b'.cert
      rw [hb, hb'] at hqcView hqcHash hsig
      cases hqcView
      cases hqcHash
      cases hsig
      rfl
    cases b
    cases b'
    cases hparent
    cases hproposer
    cases hview
    cases hcmd.1
    cases hcert
    rfl

/-- Two blocks with the same bytes, with the same hash without a collision, or with the same signed
message, are one block exactly if they have the same boundaries. -/
theorem block_encoding_injective_iff (b b' : Block Multi) :
    (b.toBytes (primitives ec) = b'.toBytes (primitives ec) → (b = b' ↔ SameBoundaries b b')) ∧
    ((ec.sum256 (b.toBytes (primitives ec)) = ec.sum256 (b'.toBytes (primitives ec)) →
        b.toBytes (primitives ec) = b'.toBytes (primitives ec)) →
      b.hash (primitives ec) = b'.hash (primitives ec) → (b = b' ↔ SameBoundaries b b')) ∧
    ((Signed.vote b).message (primitives ec) = (Signed.vote b').message (primitives ec) →
      (b = b' ↔ SameBoundaries b b')) := by
  refine ⟨Block.eq_iff_sameBoundaries ec, ?_, ?_⟩
  · intro hfree hhash
    exact Block.eq_iff_sameBoundaries ec (hfree hhash)
  · intro hmessage
    exact Block.eq_iff_sameBoundaries ec hmessage

section Samples

/-- The hash that ends with the given byte and is zero otherwise. -/
def hashEndingWith (byte : UInt8) : Hash :=
  ⟨List.replicate 31 0 ++ [byte], by simp⟩

/-- The multi-signature that consists of one partial signature. -/
def singleSignature (r s : Nat) (signer : ID) : Multi :=
  ⟨[⟨r, s, signer⟩], by simp⟩

/-- A block in view 1 with the given command and certificate. -/
def blockWith (cmd : Command) (cert : QuorumCert Multi) : Block Multi where
  parent := Hash.zero
  proposer := 1
  cmd := cmd
  cert := cert
  view := 1

/-- An empty command and a certificate with a signature of one byte. -/
def shortCommand : Block Multi :=
  blockWith [] { signature := some (singleSignature 5 0 1), view := 0, hash := Hash.zero }

/-- The same bytes, read with a command of one byte and a certificate without signature. -/
def longCommand : Block Multi :=
  blockWith [0] { signature := none, view := 0, hash := hashEndingWith 5 }

/-- A certificate with a signature of replica 1. -/
def signedByOne : Block Multi :=
  blockWith [7] { signature := some (singleSignature 1 515 1), view := 0, hash := Hash.zero }

/-- The same signature bytes, split elsewhere, under the name of replica 2. -/
def signedByTwo : Block Multi :=
  blockWith [7] { signature := some (singleSignature 258 3 2), view := 0, hash := Hash.zero }

/-- Two pairs of different blocks with the same bytes, and so with one hash; a signature of replica
3 over the first is accepted for the second. -/
theorem toBytes_not_injective :
    (shortCommand ≠ longCommand ∧
      shortCommand.toBytes (primitives (sampleBase 3)) =
        longCommand.toBytes (primitives (sampleBase 3)) ∧
      shortCommand.hash (primitives (sampleBase 3)) =
        longCommand.hash (primitives (sampleBase 3)) ∧
      ∃ sig, (base (sampleBase 3)).sign (shortCommand.toBytes (primitives (sampleBase 3))) =
          .ok sig ∧
        (base (sampleBase 3)).verify sig (longCommand.toBytes (primitives (sampleBase 3))) =
          true) ∧
    signedByOne ≠ signedByTwo ∧
      signedByOne.toBytes (primitives (sampleBase 3)) =
        signedByTwo.toBytes (primitives (sampleBase 3)) := by
  have hbytes : shortCommand.toBytes (primitives (sampleBase 3)) =
      longCommand.toBytes (primitives (sampleBase 3)) := by decide +kernel
  refine ⟨⟨by decide, hbytes, congrArg foldHash hbytes, ?_⟩, by decide, by decide +kernel⟩
  have hsign : (base (sampleBase 3)).sign (shortCommand.toBytes (primitives (sampleBase 3))) =
      .ok ⟨[sampleSignature 3 (shortCommand.toBytes (primitives (sampleBase 3)))], by simp⟩ :=
    rfl
  refine ⟨_, hsign, ?_⟩
  exact sampleBase_verify_sign (by decide) hsign

/-- The first pair has one message and one hash, but not the same boundaries. -/
theorem block_encoding_injective_iff_shortCommand :
    (Signed.vote shortCommand).message (primitives (sampleBase 3)) =
        (Signed.vote longCommand).message (primitives (sampleBase 3)) ∧
      (shortCommand = longCommand ↔ SameBoundaries shortCommand longCommand) ∧
      ¬ SameBoundaries shortCommand longCommand := by
  have hbytes : shortCommand.toBytes (primitives (sampleBase 3)) =
      longCommand.toBytes (primitives (sampleBase 3)) := by decide +kernel
  obtain ⟨-, hhash, hmessage⟩ :=
    block_encoding_injective_iff (sampleBase 3) shortCommand longCommand
  refine ⟨hbytes, hhash (fun _ => hbytes) (congrArg foldHash hbytes), fun hsame => ?_⟩
  exact absurd ((hmessage hbytes).mpr hsame) (by decide)

end Samples

end NimbleChain.HotStuff
