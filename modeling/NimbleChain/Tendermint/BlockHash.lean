import NimbleChain.Tendermint.Validation

/-!
# What a block hash binds

The hash of a header covers 14 of its 16 fields: the two that were added for measuring delays are
carried on the wire and left out of the hash. Through the checks of `ValidateBasic` the hash of a
block covers the transactions, the evidence and the signatures of the last commit.
-/

namespace NimbleChain.Tendermint

open Common Common.Wire Check Option List

variable {H : HashFunction} {b : Block} {h1 h2 : Header}

@[simp] theorem cdcEncode_string_inj {a b : Bytes} :
    cdcEncode (.string a) = cdcEncode (.string b) ↔ a = b := by
  have heq : ∀ v, cdcEncode (.string v) = Wire.marshal [⟨1, blob v⟩] := by
    intro v
    simp only [cdcEncode]
    split
    · simp_all [blob, Wire.marshal, fields]
    · rfl
  refine ⟨?_, fun h => by rw [h]⟩
  intro h
  rw [heq, heq] at h
  simpa using eq_of_marshal_eq h rfl (by simp)

@[simp] theorem cdcEncode_hexBytes_inj {a b : Bytes} :
    cdcEncode (.hexBytes a) = cdcEncode (.hexBytes b) ↔ a = b :=
  cdcEncode_string_inj

@[simp] theorem cdcEncode_int64_inj {a b : Int64} :
    cdcEncode (.int64 a) = cdcEncode (.int64 b) ↔ a = b := by
  refine ⟨?_, fun h => by rw [h]⟩
  intro h
  simpa using eq_of_marshal_eq h rfl (by simp)

namespace Header

/-- The leaves determine all fields but the two added ones. -/
theorem eq_of_hashLeaves {leaves : List Bytes}
    (hl1 : h1.hashLeaves = some leaves) (hl2 : h2.hashLeaves = some leaves) :
    h1 = { h2 with delayTime := h1.delayTime, deliverTime := h1.deliverTime } := by
  obtain ⟨t1, ht1, hl1⟩ := bind_eq_some_iff.mp hl1
  obtain ⟨t2, ht2, hl2⟩ := bind_eq_some_iff.mp hl2
  have hleaves := (some.inj hl1).trans (some.inj hl2).symm
  simp only [cons.injEq, Consensus.marshal_inj, cdcEncode_string_inj, cdcEncode_int64_inj,
    BlockID.marshal_inj, cdcEncode_hexBytes_inj, and_true] at hleaves
  obtain ⟨hversion, hchain, hheight, rfl, hrest⟩ := hleaves
  have htime := Time.marshal_faithful _ _ _ ht1 ht2
  cases h1
  cases h2
  simp_all

theorem hashLeaves_of_representable {h : Header} (ht : h.time.Representable) :
    ∃ leaves, h.hashLeaves = some leaves := by
  simp [hashLeaves, Time.marshal, ht]

/-- Headers with equal hashes agree in the fields that are hashed. -/
theorem eq_of_hash_eq (hv1 : h1.validatorsHash ≠ [])
    (hv2 : h2.validatorsHash ≠ []) (ht1 : h1.time.Representable) (ht2 : h2.time.Representable)
    (hfree : H.CollisionFree (h1.hashInputs H) (h2.hashInputs H)) (heq : h1.hash H = h2.hash H) :
    h1 = { h2 with delayTime := h1.delayTime, deliverTime := h1.deliverTime } := by
  obtain ⟨l1, hl1⟩ := hashLeaves_of_representable ht1
  obtain ⟨l2, hl2⟩ := hashLeaves_of_representable ht2
  simp only [hash, hv1, hv2, hl1, hl2, if_false] at heq
  simp only [hashInputs, hl1, hl2, elim_some] at hfree
  obtain rfl := eq_of_hashFromByteSlices_eq hfree heq
  exact eq_of_hashLeaves hl1 hl2

end Header

/-- Lists with one encoded Merkle root are equal. -/
theorem eq_of_mapM_root_eq {α : Type} {f : α → Option Bytes} {xs ys : List α} {root : Bytes}
    (hf : ∀ x ∈ xs, ∀ y ∈ ys, ∀ b, f x = some b → f y = some b → x = y)
    (hfree : H.CollisionFree ((xs.mapM f).elim [] (merkleInputs H))
      ((ys.mapM f).elim [] (merkleInputs H)))
    (hx : (xs.mapM f).map (hashFromByteSlices H) = some root)
    (hy : (ys.mapM f).map (hashFromByteSlices H) = some root) : xs = ys := by
  obtain ⟨bs, hbs, rfl⟩ := map_eq_some_iff.mp hx
  obtain ⟨bs', hbs', heq⟩ := map_eq_some_iff.mp hy
  rw [hbs, hbs'] at hfree
  obtain rfl := eq_of_hashFromByteSlices_eq hfree heq.symm
  exact eq_of_mapM_eq hf hbs hbs'

/-- The Merkle root of the hashes of transactions determines the transactions. -/
theorem eq_of_txsHash_eq {xs ys : List Bytes} (hfree : H.CollisionFree xs ys)
    (hroot : H.CollisionFree (merkleInputs H (xs.map H.sum)) (merkleInputs H (ys.map H.sum)))
    (h : txsHash H xs = txsHash H ys) : xs = ys := by
  have hsums := eq_of_hashFromByteSlices_eq hroot h
  clear hroot h
  induction xs generalizing ys with
  | nil =>
    cases ys with
    | nil => rfl
    | cons y ys => cases hsums
  | cons x xs ih =>
    cases ys with
    | nil => cases hsums
    | cons y ys =>
      obtain ⟨hhead, htail⟩ := cons.inj hsums
      have hxy : x = y := hfree x (by simp) y (by simp) hhead
      have hrest : xs = ys := ih (hfree.mono (subset_cons_self _ _) (subset_cons_self _ _)) htail
      rw [hxy, hrest]

/-- Evidence that passes its check is substantial. -/
theorem Evidence.substantial_of_validateBasic {e : Evidence} (h : e.validateBasic H = .ok ()) :
    e.Substantial := by
  cases e with
  | duplicateVote dve =>
    simp only [Evidence.validateBasic, DuplicateVoteEvidence.validateBasic] at h
    split at h
    · rename_i hb
      simp [Evidence.Substantial, hb]
    · cases h
  | lightClientAttack l =>
    simp only [Evidence.validateBasic, LightClientAttackEvidence.validateBasic] at h
    split at h
    · cases h
    · rename_i lb hlb
      obtain ⟨sh, -, h⟩ := bind_eq_ok.mp h
      split at h
      · cases h
      · obtain ⟨-, h⟩ := seq_eq_ok.mp h
        obtain ⟨-, h⟩ := seq_eq_ok.mp h
        obtain ⟨-, h⟩ := seq_eq_ok.mp h
        have hlight := within_eq_ok.mp h
        simp only [LightBlock.validateBasic] at hlight
        split at hlight
        · cases hlight
        · cases hlight
        · rename_i vals _ hvals
          obtain ⟨hset, -⟩ := seq_eq_ok.mp (seq_eq_ok.mp hlight).2
          obtain ⟨hne, -⟩ := seq_eq_ok.mp (within_eq_ok.mp hset)
          exact ⟨lb, hlb, vals, hvals, failIf_eq_ok.mp hne⟩

namespace Block

/-- What the checks of a block say about its hashes. -/
theorem hashes_of_validateBasic (h : b.validateBasic H = .ok ()) :
    ∃ lastCommit, b.lastCommit = some lastCommit ∧
      lastCommit.hash H = some b.header.lastCommitHash ∧ b.header.dataHash = txsHash H b.txs ∧
      (∀ e ∈ b.evidence, e.validateBasic H = .ok ()) ∧
      Tendermint.evidenceHash H b.evidence = some b.header.evidenceHash := by
  obtain ⟨-, h⟩ := seq_eq_ok.mp h
  split at h
  · cases h
  · rename_i lastCommit hlast
    obtain ⟨-, h⟩ := seq_eq_ok.mp h
    obtain ⟨commitHash, hcommit, h⟩ := bind_eq_ok.mp h
    obtain ⟨hcommitHash, h⟩ := seq_eq_ok.mp h
    obtain ⟨hdata, h⟩ := seq_eq_ok.mp h
    obtain ⟨hevidence, h⟩ := seq_eq_ok.mp h
    obtain ⟨evHash, hev, h⟩ := bind_eq_ok.mp h
    have hlastHash := not_not.mp (failIf_eq_ok.mp hcommitHash)
    have hevHash := not_not.mp (failIf_eq_ok.mp h)
    refine ⟨lastCommit, hlast, ?_, not_not.mp (failIf_eq_ok.mp hdata),
      validateEach_eq_ok.mp hevidence, ?_⟩
    · rw [hlastHash]
      exact orPanic_eq_ok.mp hcommit
    · rw [hevHash]
      exact orPanic_eq_ok.mp hev

/-- For a block that passes its checks nothing is filled in. -/
theorem fillHeader_of_validateBasic (h : b.validateBasic H = .ok ()) :
    ∃ lastCommit, b.lastCommit = some lastCommit ∧ b.fillHeader H lastCommit = some b.header := by
  obtain ⟨lastCommit, hlast, hcommit, hdata, -, hevidence⟩ := hashes_of_validateBasic h
  refine ⟨lastCommit, hlast, ?_⟩
  simp only [fillHeader, hcommit, hevidence, ← hdata, ite_self, bind_eq_bind, bind_some, pure]

theorem hash_of_validateBasic (h : b.validateBasic H = .ok ()) :
    b.hash H = some (b.header.hash H) := by
  obtain ⟨lastCommit, hlast, hfill⟩ := fillHeader_of_validateBasic h
  rw [hash, hlast]
  simp only [hfill, map_some]

/-- Valid blocks with equal hashes agree in the hashed fields of the header, the transactions, the
evidence and the signatures of the last commit. -/
theorem eq_of_hash_eq {b1 b2 : Block} (hb1 : b1.validateBasic H = .ok ())
    (hb2 : b2.validateBasic H = .ok ()) (hv1 : b1.header.validatorsHash ≠ [])
    (hv2 : b2.header.validatorsHash ≠ []) (ht1 : b1.header.time.Representable)
    (ht2 : b2.header.time.Representable)
    (hfree : H.CollisionFree (b1.hashInputs H) (b2.hashInputs H)) (heq : b1.hash H = b2.hash H) :
    b1.header = { b2.header with
      delayTime := b1.header.delayTime, deliverTime := b1.header.deliverTime } ∧
    b1.txs = b2.txs ∧ b1.evidence = b2.evidence ∧
    b1.lastCommit.map Commit.signatures = b2.lastCommit.map Commit.signatures := by
  rw [hash_of_validateBasic hb1, hash_of_validateBasic hb2] at heq
  obtain ⟨c1, hc1, hcommit1, hdata1, hevs1, hevidence1⟩ := hashes_of_validateBasic hb1
  obtain ⟨c2, hc2, hcommit2, hdata2, hevs2, hevidence2⟩ := hashes_of_validateBasic hb2
  have hheader := Header.eq_of_hash_eq hv1 hv2 ht1 ht2
    (hfree.mono (by grind [hashInputs]) (by grind [hashInputs])) (some.inj heq)
  have hlastHash : b1.header.lastCommitHash = b2.header.lastCommitHash := by rw [hheader]
  have hdataHash : b1.header.dataHash = b2.header.dataHash := by rw [hheader]
  have hevHash : b1.header.evidenceHash = b2.header.evidenceHash := by rw [hheader]
  refine ⟨hheader, ?_, ?_, ?_⟩
  · refine eq_of_txsHash_eq (hfree.mono (by grind [hashInputs]) (by grind [hashInputs]))
      (hfree.mono (by grind [hashInputs]) (by grind [hashInputs])) ?_
    rw [← hdata1, ← hdata2, hdataHash]
  · refine eq_of_mapM_root_eq ?_ (hfree.mono (by grind [hashInputs]) (by grind [hashInputs]))
      hevidence1 (hevHash ▸ hevidence2)
    intro e1 he1 e2 he2 b hbytes1 hbytes2
    exact Evidence.eq_of_bytes (Evidence.substantial_of_validateBasic (hevs1 e1 he1))
      (Evidence.substantial_of_validateBasic (hevs2 e2 he2)) hbytes1 hbytes2
  · rw [hc1, hc2]
    refine congrArg some (eq_of_mapM_root_eq ?_
      (hfree.mono (by grind [hashInputs]) (by grind [hashInputs])) hcommit1 (hlastHash ▸ hcommit2))
    exact fun s1 _ s2 _ b => CommitSig.marshal_faithful s1 s2 b

end Block

/-- Without collisions among the hashed strings, headers with equal hashes agree in all fields but
the two added ones, and blocks that pass `ValidateBasic` with equal hashes also agree in their
transactions, their evidence and the signatures of the last commit. -/
theorem hash_binds_hashed_parts (H : HashFunction) :
    (∀ h1 h2 : Header, h1.validatorsHash ≠ [] → h2.validatorsHash ≠ [] →
      h1.time.Representable → h2.time.Representable →
      H.CollisionFree (h1.hashInputs H) (h2.hashInputs H) → h1.hash H = h2.hash H →
      h1 = { h2 with delayTime := h1.delayTime, deliverTime := h1.deliverTime }) ∧
    (∀ b1 b2 : Block, b1.validateBasic H = .ok () → b2.validateBasic H = .ok () →
      b1.header.validatorsHash ≠ [] → b2.header.validatorsHash ≠ [] →
      b1.header.time.Representable → b2.header.time.Representable →
      H.CollisionFree (b1.hashInputs H) (b2.hashInputs H) → b1.hash H = b2.hash H →
      b1.header = { b2.header with
        delayTime := b1.header.delayTime, deliverTime := b1.header.deliverTime } ∧
      b1.txs = b2.txs ∧ b1.evidence = b2.evidence ∧
      b1.lastCommit.map Commit.signatures = b2.lastCommit.map Commit.signatures) :=
  ⟨fun _ _ hv1 hv2 ht1 ht2 hfree heq => Header.eq_of_hash_eq hv1 hv2 ht1 ht2 hfree heq,
    fun _ _ hb1 hb2 hv1 hv2 ht1 ht2 hfree heq =>
      Block.eq_of_hash_eq hb1 hb2 hv1 hv2 ht1 ht2 hfree heq⟩

section Sample

/-- A digest of 32 bytes that can be evaluated. -/
def sampleHash : HashFunction := .polynomial 32

/-- The last commit of the sample block, of any round: one signature for a block. -/
def sampleCommit (round : Int32) : Commit where
  height := 1
  round := round
  blockID := ⟨replicate 32 7, 1, replicate 32 8⟩
  signatures := [⟨blockIDFlagCommit, replicate 20 1, ⟨1700000000, ⟨5, by decide⟩⟩, [9]⟩]

/-- A block at height 2 with one transaction, for any values of the fields that are not hashed. -/
def sampleBlock (delayTime deliverTime : Float64) (round : Int32) : Block where
  header :=
    { version := ⟨11, 0⟩, chainID := [99], height := 2, time := ⟨1700000001, ⟨0, by decide⟩⟩
      delayTime := delayTime, deliverTime := deliverTime
      lastBlockID := (sampleCommit round).blockID
      lastCommitHash := ((sampleCommit round).hash sampleHash).getD []
      dataHash := txsHash sampleHash [[42]]
      validatorsHash := replicate 32 3, nextValidatorsHash := replicate 32 3
      consensusHash := replicate 32 4, appHash := [5], lastResultsHash := []
      evidenceHash := (evidenceHash sampleHash []).getD []
      proposerAddress := replicate 20 1 }
  txs := [[42]]
  evidence := []
  lastCommit := some (sampleCommit round)

/-- The block with zero delays. -/
def promptBlock : Block := sampleBlock ⟨0, Float64.zero_ne⟩ ⟨0, Float64.zero_ne⟩ 0

/-- The block with delays of one second, and a last commit of another round. -/
def delayedBlock : Block :=
  sampleBlock ⟨0x3FF0000000000000, by decide⟩ ⟨0x3FF0000000000000, by decide⟩ 1

/-- The two blocks pass all checks and have one hash without any collision, but differ in the delay
times of their headers and the rounds of their last commits. -/
theorem hash_omits_delays_and_commit_round :
    promptBlock.validateBasic sampleHash = .ok () ∧
    delayedBlock.validateBasic sampleHash = .ok () ∧
    promptBlock.header.validatorsHash ≠ [] ∧ delayedBlock.header.validatorsHash ≠ [] ∧
    sampleHash.CollisionFree (promptBlock.hashInputs sampleHash)
      (delayedBlock.hashInputs sampleHash) ∧
    promptBlock.header.hash sampleHash = delayedBlock.header.hash sampleHash ∧
    promptBlock.hash sampleHash = delayedBlock.hash sampleHash ∧
    promptBlock.header.marshal ≠ delayedBlock.header.marshal ∧
    promptBlock.header.delayTime ≠ delayedBlock.header.delayTime ∧
    promptBlock.header.deliverTime ≠ delayedBlock.header.deliverTime ∧
    promptBlock.lastCommit ≠ delayedBlock.lastCommit := by
  decide +kernel

/-- What the two blocks have in common all the same. -/
theorem hash_binds_hashed_parts_sample :
    promptBlock.header = { delayedBlock.header with
      delayTime := promptBlock.header.delayTime, deliverTime := promptBlock.header.deliverTime } ∧
    promptBlock.txs = delayedBlock.txs ∧ promptBlock.evidence = delayedBlock.evidence ∧
    promptBlock.lastCommit.map Commit.signatures =
      delayedBlock.lastCommit.map Commit.signatures := by
  have hvals :
      promptBlock.header.validatorsHash ≠ [] ∧ delayedBlock.header.validatorsHash ≠ [] := by
    decide +kernel
  have htime : promptBlock.header.time.Representable ∧ delayedBlock.header.time.Representable := by
    decide +kernel
  have hheader := (hash_binds_hashed_parts sampleHash).1 promptBlock.header delayedBlock.header
    hvals.1 hvals.2 htime.1 htime.2 (by decide +kernel) (by decide +kernel)
  have hblock := (hash_binds_hashed_parts sampleHash).2 promptBlock delayedBlock
    (by decide +kernel) (by decide +kernel) hvals.1 hvals.2 htime.1 htime.2 (by decide +kernel)
    (by decide +kernel)
  exact ⟨hheader, hblock.2⟩

end Sample

end NimbleChain.Tendermint
