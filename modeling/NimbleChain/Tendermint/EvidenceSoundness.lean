import NimbleChain.Tendermint.CommitSoundness
import NimbleChain.Tendermint.Evidence

/-!
# Whom accepted evidence names

Duplicate votes that are accepted were signed by the validator they name. For a light client attack
the verification of signatures stops when enough power has been counted, while the validators that
are named are those whose addresses the conflicting commit carries, and their addresses are computed
from keys that come with the evidence.
-/

namespace NimbleChain.Tendermint

open Common List Check Option ValidatorSet Except Validator Evidence CommitSig

variable {H : HashFunction} {C : Crypto}

/-! ### Computations that may panic -/

/-- The computation returns a value or an error. -/
def NoPanic {α : Type} (c : Except Failure α) : Prop :=
  c ≠ .error .panic

/-- A value that is returned meets `P`, and a panic only comes if `Q`. -/
def Ends {α : Type} (Q : Prop) (P : α → Prop) : Except Failure α → Prop :=
  Outcome P fun failure => failure = .panic → Q

namespace Ends

variable {α β : Type} {Q : Prop} {P : α → Prop} {c : Except Failure α}

/-- Without the cause there is no panic. -/
theorem noPanic (h : Ends Q P c) (hQ : ¬ Q) : NoPanic c :=
  fun hc => hQ (Outcome.failure h hc rfl)

variable {a : α} {P' : α → Prop}

/-- Weaker conditions. -/
theorem imp {Q' : Prop} (h : Ends Q P c) (hQ : Q → Q') (hP : ∀ a, P a → P' a) : Ends Q' P' c :=
  Outcome.mono h hP fun _ he hpanic => hQ (he hpanic)

theorem mono (h : Ends Q P c) (hP : ∀ a, P a → P' a) : Ends Q P' c :=
  h.imp id hP

/-- A value that is returned is known as such. -/
theorem self (h : Ends Q P c) : Ends Q (fun a => c = .ok a) c := by
  cases c with
  | error failure => exact h
  | ok a => rfl

@[simp] theorem ok_iff : Ends Q P (.ok a) ↔ P a :=
  Iff.rfl

@[simp] theorem pure_iff : Ends Q P (pure a) ↔ P a :=
  Iff.rfl

@[simp] theorem orPanic_iff : Ends Q P (orPanic (some a)) ↔ P a :=
  Iff.rfl

@[simp] theorem bind_iff {f : α → Except Failure β} {P : β → Prop} :
    Ends Q P (c >>= f) ↔ Ends Q (fun a => Ends Q P (f a)) c := by
  cases c <;> rfl

@[simp] theorem map_iff {f : α → β} {P : β → Prop} :
    Ends Q P (f <$> c) ↔ Ends Q (fun a => P (f a)) c := by
  cases c <;> rfl

@[simp] theorem mapError_iff {c : Except GoError α} :
    Ends Q P (c.mapError Failure.error) ↔ ∀ a, c = .ok a → P a := by
  cases c <;> simp [Except.mapError, Ends, Outcome]

variable {P : Unit → Prop} {format : String} {numbers : List Int} {strings : List Bytes}

@[simp] theorem fail : Ends Q P (fail format numbers strings) :=
  nofun

@[simp] theorem failIf_iff {p : Prop} [Decidable p] :
    Ends Q P (failIf p format numbers strings) ↔ (¬ p → P ()) := by
  unfold failIf
  split <;> simp [*]

@[simp] theorem within_iff {c : Check} : Ends Q P (within format numbers c) ↔ Ends Q P c := by
  rcases c with (_ | _) | _ <;> simp [within, Ends, Outcome]

end Ends

open Ends

/-! ### Sign bytes -/

/-- The sign bytes of a valid vote. -/
theorem exists_voteSignBytes (chainID : Bytes) {vote : Vote}
    (hblockID : vote.blockID.validateBasic H = .ok ()) (htime : vote.timestamp.Representable) :
    ∃ bytes, voteSignBytes H chainID vote = some bytes := by
  have hcanonical : canonicalizeBlockID H vote.blockID =
      some (if vote.blockID.isZero then none else some vote.blockID) := by
    rw [canonicalizeBlockID, hblockID]
  obtain ⟨t, ht⟩ : ∃ t, vote.timestamp.marshal = some t := by
    rw [Time.marshal, if_pos htime]
    exact ⟨_, rfl⟩
  rw [voteSignBytes, canonicalizeVote, hcanonical, map_some, bind_some,
    CanonicalVote.signBytes, CanonicalVote.marshal, ht]
  exact ⟨_, rfl⟩

/-- Votes with the same height, round and type that are signed as the same bytes are for the same
block. -/
theorem blockID_eq_of_voteSignBytes {chainID : Bytes} {vote vote' : Vote} {bytes : Bytes}
    (h : voteSignBytes H chainID vote = some bytes)
    (h' : voteSignBytes H chainID vote' = some bytes) : vote.blockID = vote'.blockID := by
  obtain ⟨canonical, hc, hbytes⟩ := bind_eq_some_iff.mp h
  obtain ⟨canonical', hc', hbytes'⟩ := bind_eq_some_iff.mp h'
  have heq : canonical = canonical' := by
    have hread := CanonicalVote.ofSignBytes_signBytes hbytes
    rw [CanonicalVote.ofSignBytes_signBytes hbytes'] at hread
    exact (some.inj hread).symm
  obtain ⟨id, hid, rfl⟩ := map_eq_some_iff.mp hc
  obtain ⟨id', hid', rfl⟩ := map_eq_some_iff.mp hc'
  obtain rfl : id = id' := congrArg CanonicalVote.blockID heq
  have hcases : ∀ {v : BlockID}, canonicalizeBlockID H v = some id → v = id.getD .empty := by
    intro v hv
    unfold canonicalizeBlockID at hv
    split at hv
    · split at hv
      · rename_i hzero
        cases hv
        exact BlockID.isZero_iff.mp hzero
      · cases hv
        rfl
    · cases hv
  rw [hcases hid, hcases hid']

/-- The owner of a key has signed a precommit for a block or for nil. -/
def SignedPrecommit (H : HashFunction) (C : Crypto) (chainID : Bytes) (commit : Commit)
    (commitSig : CommitSig) (key : PubKey) (id : BlockID) : Prop :=
  commitSig.blockID commit.blockID = some id ∧ ∃ bytes,
    precommitSignBytes H chainID commit.height commit.round id commitSig.timestamp = some bytes ∧
    C.verifySignature key bytes commitSig.signature = true

/-- A commit for which the bytes to sign can be computed, as decoding ensures. -/
structure Commit.Signable (H : HashFunction) (commit : Commit) : Prop where
  blockID : commit.blockID.validateBasic H = .ok ()
  stamps : ∀ commitSig ∈ commit.signatures, commitSig.timestamp.Representable
  length : commit.signatures.length ≤ 2 ^ 31

section Commits

variable {commit : Commit} {idx : Nat} {commitSig : CommitSig} {chainID : Bytes} {val : Validator}

/-- What is signed at a position of a commit. -/
theorem Commit.voteSignBytes_eq (hidx : idx < 2 ^ 31)
    (hsig : commit.signatures[idx]? = some commitSig) :
    commit.voteSignBytes H chainID (Int32.ofNat idx) =
      (commitSig.blockID commit.blockID).bind fun id =>
        precommitSignBytes H chainID commit.height commit.round id commitSig.timestamp := by
  have hvalue : (Int32.ofNat idx).toInt = idx := Int32.toInt_ofNat_of_lt hidx
  have hpos : ¬ Int32.ofNat idx < 0 := by
    rw [Int32.lt_iff_toInt_lt, hvalue]
    exact Int.not_ofNat_neg idx
  have hvote : commit.getVote (Int32.ofNat idx) =
      (commitSig.blockID commit.blockID).map fun id =>
        ⟨precommitType, commit.height, commit.round, id, commitSig.timestamp,
          commitSig.validatorAddress, Int32.ofNat idx, commitSig.signature⟩ := by
    unfold Commit.getVote
    rw [if_neg hpos, hvalue, Int.toNat_natCast, hsig]
    simp only [bind_eq_bind, bind_some]
    cases commitSig.blockID commit.blockID <;> rfl
  rw [Commit.voteSignBytes, hvote]
  cases commitSig.blockID commit.blockID <;> rfl

namespace ValidatorSet

/-- A signature is checked without a panic. -/
theorem checkSignature_ends (hcommit : commit.Signable H)
    (hsig : commit.signatures[idx]? = some commitSig) (hfor : commitSig.forBlock = true)
    {key : PubKey} (hkey : val.pubKey = some key) :
    Ends False (fun _ => True) (checkSignature H C chainID commit idx commitSig val) := by
  have hidx : idx < commit.signatures.length := (List.getElem_of_getElem? hsig).1
  have hlength := hcommit.length
  obtain ⟨bytes, hbytes⟩ : ∃ bytes,
      commit.voteSignBytes H chainID (Int32.ofNat idx) = some bytes := by
    rw [Commit.voteSignBytes_eq (by omega) hsig, blockID_of_forBlock hfor, bind_some]
    exact exists_voteSignBytes chainID hcommit.blockID (hcommit.stamps _ (mem_of_getElem? hsig))
  simp [checkSignature, hbytes, hkey]

/-- No entry is nil, and every validator has a key. -/
def Keyed (vals : ValidatorSet) : Prop :=
  ∀ entry ∈ vals.validators, ∃ (val : Validator) (key : PubKey),
    entry = some val ∧ val.pubKey = some key

variable {vals : ValidatorSet} {i : Nat} {needed : Int64}

/-- Each position has a validator with a key. -/
theorem Keyed.getElem? (h : vals.Keyed) (hi : i < vals.size) :
    ∃ (val : Validator) (key : PubKey), vals.validators[i]? = some (some val) ∧
      val.pubKey = some key := by
  obtain ⟨val, key, hval, hkey⟩ := h _ (getElem_mem hi)
  exact ⟨val, key, by rw [getElem?_eq_getElem hi, hval], hkey⟩

/-- A search by address ends, and a validator that is found has the address and a key. -/
theorem Keyed.getByAddress (h : vals.Keyed) (address : Bytes) :
    ∃ found, getByAddress address 0 vals.validators = .ok found ∧
      ∀ i val, found = some (i, val) → val.address = address ∧ some val ∈ vals.validators ∧
        ∃ key, val.pubKey = some key := by
  obtain ⟨found, hfound, -⟩ := exists_getByAddress address 0 fun entry hentry => by
    obtain ⟨val, -, hval, -⟩ := h entry hentry
    exact ⟨val, hval⟩
  refine ⟨found, hfound, ?_⟩
  rintro i val rfl
  obtain ⟨-, hget, haddress⟩ := getByAddress_eq_some hfound
  have hmem := mem_of_getElem? hget
  obtain ⟨val', key, hval, hkey⟩ := h _ hmem
  cases hval
  exact ⟨haddress, hmem, key, hkey⟩

/-- The loop of `VerifyCommitLight`. -/
theorem reachVotingPower_ends (hkeys : vals.Keyed) (hcommit : commit.Signable H)
    (hsize : vals.size = commit.signatures.length) (rest : List CommitSig) (idx : Nat)
    (tallied : Int64) (hrest : commit.signatures.drop idx = rest) :
    Ends False (fun _ => True)
      (vals.reachVotingPower H C chainID commit needed idx rest tallied) := by
  induction rest generalizing idx tallied with
  | nil => exact fail
  | cons commitSig rest ih =>
    obtain ⟨hsig, hdrop⟩ := drop_eq_cons hrest
    rw [reachVotingPower]
    split
    · exact ih (idx + 1) tallied hdrop
    · rename_i hfor
      obtain ⟨val, key, hval, hkey⟩ :=
        hkeys.getElem? (hsize ▸ (List.getElem_of_getElem? hsig).1)
      rw [hval]
      apply bind_iff.mpr
      refine bind_iff.mpr ((checkSignature_ends hcommit hsig (by simpa using hfor) hkey).mono ?_)
      intro _ _
      split
      · trivial
      · exact ih (idx + 1) _ hdrop

/-- `VerifyCommitLight` does not panic. -/
theorem verifyCommitLight_ends (hvals : vals.Admissible) (hkeys : vals.Keyed)
    (hcommit : commit.Signable H) (blockID : BlockID) (height : Int64) :
    Ends False (fun _ => vals.size = commit.signatures.length)
      (vals.verifyCommitLight H C chainID blockID height commit) := by
  obtain ⟨total, htotal, -⟩ := hvals.totalVotingPower_eq
  simp only [verifyCommitLight, checkCommit, htotal, bind_iff, failIf_iff, ok_iff, not_not]
  intro hsize _ _
  exact (reachVotingPower_ends hkeys hcommit hsize _ 0 0 rfl).mono fun _ _ => hsize

/-- The loop of `VerifyCommitLightTrusting`. -/
theorem reachTrustLevel_ends (hkeys : vals.Keyed) (hcommit : commit.Signable H)
    (rest : List CommitSig) (idx : Nat) (seenVals : List (Int32 × Nat)) (tallied : Int64)
    (hrest : commit.signatures.drop idx = rest) :
    Ends False (fun _ => True)
      (vals.reachTrustLevel H C chainID commit needed idx rest seenVals tallied) := by
  induction rest generalizing idx seenVals tallied with
  | nil => exact fail
  | cons commitSig rest ih =>
    obtain ⟨hsig, hdrop⟩ := drop_eq_cons hrest
    rw [reachTrustLevel]
    split
    · exact ih (idx + 1) seenVals tallied hdrop
    · rename_i hfor
      obtain ⟨found, hfound, hspec⟩ := hkeys.getByAddress commitSig.validatorAddress
      rw [hfound]
      cases found with
      | none => exact ih (idx + 1) seenVals tallied hdrop
      | some found =>
        obtain ⟨-, -, key, hkey⟩ := hspec found.1 found.2 rfl
        dsimp only [bind, Except.bind]
        split
        · exact fail
        · refine bind_iff.mpr
            ((checkSignature_ends hcommit hsig (by simpa using hfor) hkey).mono ?_)
          intro _ _
          split
          · trivial
          · exact ih (idx + 1) _ _ hdrop

/-- It does not panic either. -/
theorem verifyCommitLightTrusting_ends (hvals : vals.Admissible) (hkeys : vals.Keyed)
    (hcommit : commit.Signable H) (trustLevel : Fraction) :
    Ends False (fun _ => True) (vals.verifyCommitLightTrusting H C chainID commit trustLevel) := by
  obtain ⟨total, htotal, -⟩ := hvals.totalVotingPower_eq
  simp only [verifyCommitLightTrusting, htotal, bind_iff, failIf_iff, ok_iff]
  intro _
  split
  · exact fail
  · exact reachTrustLevel_ends hkeys hcommit _ 0 [] 0 rfl

/-- Every signature of a commit that `VerifyCommit` accepts is one of the validator at its
position. -/
theorem talliedVotingPower_signed {tallied total : Int64} (rest : List CommitSig) (idx : Nat)
    (hrest : commit.signatures.drop idx = rest)
    (h : vals.talliedVotingPower H C chainID commit idx rest tallied = .ok total) (hi : idx ≤ i)
    (hsig : commit.signatures[i]? = some commitSig) (hpresent : commitSig.absent = false) :
    ∃ val, vals.validators[i]? = some (some val) ∧
      checkSignature H C chainID commit i commitSig val = .ok () := by
  induction rest generalizing idx tallied with
  | nil =>
    have hlength := (List.getElem_of_getElem? hsig).1
    have := drop_eq_nil_iff.mp hrest
    omega
  | cons head rest ih =>
    obtain ⟨hhead, hdrop⟩ := drop_eq_cons hrest
    rw [talliedVotingPower] at h
    rcases Nat.eq_or_lt_of_le hi with rfl | hlater
    · obtain rfl : head = commitSig := some.inj (hhead.symm.trans hsig)
      rw [hpresent] at h
      obtain ⟨val, hval, h⟩ := bind_eq_ok.mp h
      obtain ⟨⟨⟩, hcheck, -⟩ := bind_eq_ok.mp h
      refine ⟨val, ?_, hcheck⟩
      simpa [join_eq_some_iff] using orPanic_eq_ok.mp hval
    · split at h
      · exact ih (idx + 1) hdrop h hlater
      · obtain ⟨val, hval, h⟩ := bind_eq_ok.mp h
        obtain ⟨-, -, h⟩ := bind_eq_ok.mp h
        exact ih (idx + 1) hdrop h hlater

/-- The signatures of an accepted commit. -/
theorem verifyCommit_signed {blockID : BlockID} {height : Int64}
    (h : vals.verifyCommit H C chainID blockID height commit = .ok ())
    (hlength : commit.signatures.length ≤ 2 ^ 31) (hsig : commit.signatures[i]? = some commitSig)
    (hpresent : commitSig.absent = false) :
    ∃ val key id, vals.validators[i]? = some (some val) ∧ val.pubKey = some key ∧
      SignedPrecommit H C chainID commit commitSig key id := by
  obtain ⟨-, h⟩ := seq_eq_ok.mp h
  obtain ⟨total, -, h⟩ := bind_eq_ok.mp h
  obtain ⟨tallied, htallied, -⟩ := bind_eq_ok.mp h
  obtain ⟨val, hval, hcheck⟩ :=
    talliedVotingPower_signed commit.signatures 0 rfl htallied (Nat.zero_le i) hsig hpresent
  have hi : i < commit.signatures.length := (List.getElem_of_getElem? hsig).1
  obtain ⟨key, id, bytes, hkey, hid, hbytes, hverified⟩ :=
    signed_of_checkSignature (by omega) hsig hcheck
  exact ⟨val, key, id, hval, hkey, hid, bytes, hbytes, hverified⟩

end ValidatorSet

end Commits

/-! ### What a node has stored -/

/-- No entry of the set is nil, powers are in bounds, and addresses belong to the keys. -/
structure ValidatorSet.Authentic (C : Crypto) (vals : ValidatorSet) : Prop where
  admissible : vals.Admissible
  keys : ∀ entry ∈ vals.validators, ∃ (val : Validator) (key : PubKey),
    entry = some val ∧ val.pubKey = some key ∧ C.address key = val.address

theorem ValidatorSet.Authentic.keyed {vals : ValidatorSet} (h : vals.Authentic C) : vals.Keyed := by
  intro entry hentry
  obtain ⟨val, key, hval, hkey, -⟩ := h.keys entry hentry
  exact ⟨val, key, hval, hkey⟩

/-- What a node knows of its stores: the validator sets are authentic, and a header is stored
with a commit that the validators of its height have signed. That of the latest block comes with
the next. -/
structure EvidenceStores.Trustworthy (H : HashFunction) (C : Crypto) (chainID : Bytes)
    (committers : Int64 → ValidatorSet) (stores : EvidenceStores) : Prop where
  validators : ∀ height vals, stores.loadValidators height = .ok vals → vals.Authentic C
  chain : ∀ height sh, stores.getSignedHeader height = .ok sh → sh.header.chainID = chainID
  height : ∀ height sh, stores.getSignedHeader height = .ok sh → sh.header.height = height
  blockID : ∀ height sh, stores.getSignedHeader height = .ok sh →
    sh.commit.blockID.hash = sh.header.hash H ∧ sh.commit.blockID ≠ .empty
  hash : ∀ height sh, stores.getSignedHeader height = .ok sh →
    (committers height).hash H = some sh.header.validatorsHash
  signed : ∀ height sh, stores.getSignedHeader height = .ok sh →
    (committers height).verifyCommit H C chainID sh.commit.blockID height sh.commit = .ok ()
  latest : stores.loadBlockCommit stores.height = none

/-! ### Duplicate votes -/

/-- Evidence of two votes as decoding leaves it. -/
structure DuplicateVoteEvidence.WellFormed (H : HashFunction) (dve : DuplicateVoteEvidence) :
    Prop where
  valid : dve.validateBasic H = .ok ()
  stamps : ∀ vote, dve.voteA = some vote ∨ dve.voteB = some vote → vote.timestamp.Representable

/-- The owner of the address has signed two votes of one height, round and type for different
blocks. -/
def DoubleSigned (H : HashFunction) (C : Crypto) (chainID : Bytes) (dve : DuplicateVoteEvidence)
    (address : Bytes) : Prop :=
  ∃ key voteA voteB bytesA bytesB, C.address key = address ∧
    dve.voteA = some voteA ∧ dve.voteB = some voteB ∧
    voteA.height = voteB.height ∧ voteA.round = voteB.round ∧ voteA.type = voteB.type ∧
    voteA.blockID ≠ voteB.blockID ∧ bytesA ≠ bytesB ∧
    voteSignBytes H chainID voteA = some bytesA ∧
    C.verifySignature key bytesA voteA.signature = true ∧
    voteSignBytes H chainID voteB = some bytesB ∧
    C.verifySignature key bytesB voteB.signature = true

theorem Vote.blockID_of_validateBasic {vote : Vote} (h : vote.validateBasic H = .ok ()) :
    vote.blockID.validateBasic H = .ok () := by
  simp only [Vote.validateBasic, seq_eq_ok, within_eq_ok] at h
  exact h.2.2.2.1

namespace DuplicateVoteEvidence

variable {dve : DuplicateVoteEvidence}

/-- The votes are there, and their sign bytes can be computed. -/
theorem WellFormed.votes (h : dve.WellFormed H) (chainID : Bytes) :
    ∃ voteA voteB bytesA bytesB, dve.voteA = some voteA ∧ dve.voteB = some voteB ∧
      voteSignBytes H chainID voteA = some bytesA ∧
      voteSignBytes H chainID voteB = some bytesB := by
  have hvalid := h.valid
  unfold validateBasic at hvalid
  split at hvalid
  · rename_i voteA voteB hA hB
    simp only [seq_eq_ok, within_eq_ok] at hvalid
    obtain ⟨bytesA, hbytesA⟩ := exists_voteSignBytes chainID
      (Vote.blockID_of_validateBasic hvalid.1) (h.stamps voteA (.inl hA))
    obtain ⟨bytesB, hbytesB⟩ := exists_voteSignBytes chainID
      (Vote.blockID_of_validateBasic hvalid.2.1) (h.stamps voteB (.inr hB))
    exact ⟨voteA, voteB, bytesA, bytesB, hA, hB, hbytesA, hbytesB⟩
  · cases hvalid

/-- The verification of two votes does not panic, and what it accepts was signed. -/
theorem verifyDuplicateVote_ends {vals : ValidatorSet} (hvals : vals.Authentic C)
    (h : dve.WellFormed H) (chainID : Bytes) :
    Ends False (fun _ => ∃ voteA, dve.voteA = some voteA ∧
        DoubleSigned H C chainID dve voteA.validatorAddress)
      (verifyDuplicateVote H C dve chainID vals) := by
  obtain ⟨voteA, voteB, bytesA, bytesB, hA, hB, hbytesA, hbytesB⟩ := h.votes chainID
  obtain ⟨found, hfound, hspec⟩ := hvals.keyed.getByAddress voteA.validatorAddress
  obtain ⟨total, htotal, -⟩ := hvals.admissible.totalVotingPower_eq
  unfold verifyDuplicateVote
  cases found with
  | none => simp [hA, hfound]
  | some found =>
    obtain ⟨-, -, key, hkey⟩ := hspec found.1 found.2 rfl
    simp only [hA, hB, hfound, hkey, htotal, checkVoteSignature, hbytesA, hbytesB, bind_iff,
      orPanic_iff, ok_iff, within_iff, failIf_iff, not_or, not_not,
      Bool.not_eq_true', Bool.not_eq_false]
    intro hhrs _ hblock haddress _ _ hsigA hsigB
    refine ⟨voteA, rfl, key, voteA, voteB, bytesA, bytesB, haddress, hA, hB, hhrs.1, hhrs.2.1,
      hhrs.2.2, hblock, ?_, hbytesA, hsigA, hbytesB, hsigB⟩
    rintro rfl
    exact hblock (blockID_eq_of_voteSignBytes hbytesA hbytesB)

end DuplicateVoteEvidence

/-! ### Light client attacks -/

namespace ValidatorSet

variable {vals : ValidatorSet}

/-- The entries of a valid set. -/
theorem entry_of_validateBasic (h : vals.validateBasic = .ok ()) :
    ∀ entry ∈ vals.validators, ∃ (val : Validator) (key : PubKey),
      entry = some val ∧ val.pubKey = some key ∧ 0 ≤ val.votingPower.toInt := by
  simp only [validateBasic, seq_eq_ok, validateEach_eq_ok] at h
  intro entry hentry
  have hvalid := h.2.1 entry hentry
  cases entry with
  | none => cases hvalid
  | some val =>
    simp only [Validator.validateBasic, seq_eq_ok, failIf_eq_ok, Int64.not_lt,
      Int64.le_iff_toInt_le, toInt_zero] at hvalid
    obtain ⟨key, hkey⟩ := ne_none_iff_exists'.mp hvalid.1
    exact ⟨val, key, rfl, hkey, hvalid.2.1⟩

/-- The validator of an address. -/
def lookup (vals : ValidatorSet) (address : Bytes) : Option Validator :=
  (getByAddress address 0 vals.validators).toOption.join.map Prod.snd

theorem lookup_eq {address : Bytes} {found : Option (Nat × Validator)}
    (h : getByAddress address 0 vals.validators = .ok found) :
    vals.lookup address = found.map Prod.snd := by
  rw [lookup, h]
  rfl

/-- What is found is in the set. -/
theorem lookup_spec (hkeys : vals.Keyed) {address : Bytes} {val : Validator}
    (h : vals.lookup address = some val) :
    val.address = address ∧ some val ∈ vals.validators := by
  obtain ⟨found, hfound, hspec⟩ := hkeys.getByAddress address
  rw [lookup_eq hfound, map_eq_some_iff] at h
  obtain ⟨⟨i, val'⟩, rfl, rfl⟩ := h
  obtain ⟨haddress, hmem, -⟩ := hspec i val' rfl
  exact ⟨haddress, hmem⟩

end ValidatorSet

/-- What is known of the parts of the conflicting block of evidence that was decoded. -/
structure LightClientAttackEvidence.Parts (H : HashFunction) (l : LightClientAttackEvidence)
    (header : Header) (commit : Commit) (vals : ValidatorSet) : Prop where
  header_eq : l.header = some header
  commit_eq : l.commit = some commit
  validatorSet_eq : l.validatorSet = some vals
  height_eq : commit.height = header.height
  hash_eq : header.hash H = commit.blockID.hash
  blockID_ne : commit.blockID ≠ .empty
  valsHash : vals.hash H = some header.validatorsHash
  admissible : vals.Admissible
  keyed : vals.Keyed
  signable : commit.Signable H

namespace LightClientAttackEvidence

/-- Evidence of an attack as decoding leaves it. -/
structure WellFormed (H : HashFunction) (l : LightClientAttackEvidence) : Prop where
  valid : l.validateBasic H = .ok ()
  signable : ∀ commit, l.commit = some commit → commit.Signable H
  total_le : ∀ vals, l.validatorSet = some vals →
    (vals.total : Int) ≤ maxTotalVotingPower.toInt
  listed : ∀ entry ∈ l.byzantineValidators, ∃ (val : Validator) (key : PubKey),
    entry = some val ∧ val.pubKey = some key

variable {l : LightClientAttackEvidence}

/-- Well-formed evidence has all parts. -/
theorem WellFormed.parts (h : l.WellFormed H) :
    ∃ header commit vals, l.Parts H header commit vals := by
  have hvalid := h.valid
  have hsignable := h.signable
  have htotal := h.total_le
  obtain ⟨_ | ⟨_ | ⟨_ | header, commit⟩, set⟩, commonHeight, listed, total, timestamp⟩ := l
  · cases hvalid
  · cases hvalid
  · cases hvalid
  obtain ⟨-, hvalid⟩ := seq_eq_ok.mp hvalid
  obtain ⟨-, hvalid⟩ := seq_eq_ok.mp hvalid
  obtain ⟨-, hvalid⟩ := seq_eq_ok.mp hvalid
  have hblock := within_eq_ok.mp hvalid
  cases set with
  | none => cases hblock
  | some vals =>
    obtain ⟨hheader, hblock⟩ := seq_eq_ok.mp hblock
    obtain ⟨hset, hblock⟩ := seq_eq_ok.mp hblock
    rw [within_eq_ok] at hheader hset
    obtain ⟨hash, hhash, hblock⟩ := bind_eq_ok.mp hblock
    rw [orPanic_eq_ok] at hhash
    rw [failIf_eq_ok, not_not] at hblock
    cases commit with
    | none => cases hheader
    | some commit =>
      simp only [SignedHeader.validateBasic, seq_eq_ok, within_eq_ok,
        failIf_eq_ok, not_not] at hheader
      obtain ⟨hbasic, hcommit, -, hheight, heq⟩ := hheader
      have hentry := entry_of_validateBasic hset
      refine ⟨header, commit, vals, rfl, rfl, rfl, hheight, heq, ?_, ?_, ⟨?_, htotal vals rfl⟩, ?_,
        hsignable commit rfl⟩
      · -- from height 1 on the commit is for a block
        have hpos : commit.height ≥ 1 := by
          have hpos := Header.height_pos hbasic
          rw [Int64.lt_iff_toInt_lt, toInt_zero] at hpos
          rw [hheight, ge_iff_le, Int64.le_iff_toInt_le]
          exact hpos
        simp only [Commit.validateBasic, hpos, if_true, seq_eq_ok, failIf_eq_ok] at hcommit
        intro hempty
        exact hcommit.2.2.1 (BlockID.isZero_iff.mpr hempty)
      · rw [hhash]
        exact (some.inj hblock).symm ▸ rfl
      · intro entry hmem
        obtain ⟨val, key, hval, -, hpower⟩ := hentry entry hmem
        exact ⟨val, hval, hpower⟩
      · intro entry hmem
        obtain ⟨val, key, hval, hkey, -⟩ := hentry entry hmem
        exact ⟨val, key, hval, hkey⟩

end LightClientAttackEvidence

/-- What `verify` loads for a light client attack. -/
structure AttackContext where
  commonHeader : StoredHeader
  commonVals : ValidatorSet
  trusted : StoredHeader

namespace AttackContext

variable (ctx : AttackContext) (header : Header) (commit : Commit)

/-- The addresses under which `GetByzantineValidators` looks for validators. -/
def listedAddresses : List Bytes :=
  if conflictingHeaderIsInvalid ctx.trusted.header header then
    ((commit.signatures.filter forBlock).map validatorAddress).filter
      fun address => (ctx.commonVals.lookup address).isSome
  else if ctx.trusted.commit.round = commit.round then
    ((commit.signatures.zip ctx.trusted.commit.signatures).filter
      fun sigs => !sigs.1.absent && !sigs.2.absent).map fun sigs => sigs.1.validatorAddress
  else []

/-- The set in which the addresses are looked up. -/
def lookupSet (conflictingVals : ValidatorSet) : ValidatorSet :=
  if conflictingHeaderIsInvalid ctx.trusted.header header then ctx.commonVals else conflictingVals

/-- Every address is one of a validator of the set in which it is looked up. -/
def AddressesKnown (conflictingVals : ValidatorSet) : Prop :=
  ∀ address ∈ ctx.listedAddresses header commit,
    ((ctx.lookupSet header conflictingVals).lookup address).isSome = true

/-- The owner of an address has misbehaved: in a lunatic attack by a precommit for the conflicting
block, otherwise by precommits for different blocks, or for a block and nil, in two commits of one
height and round. -/
def Misbehaved (H : HashFunction) (C : Crypto) (chainID : Bytes) (address : Bytes) : Prop :=
  ∃ key, C.address key = address ∧
    if conflictingHeaderIsInvalid ctx.trusted.header header then
      ∃ commitSig ∈ commit.signatures, commitSig.forBlock = true ∧
        SignedPrecommit H C chainID commit commitSig key commit.blockID
    else
      commit.height = ctx.trusted.commit.height ∧ commit.round = ctx.trusted.commit.round ∧
      ∃ (i : Nat) (sigA sigB : CommitSig) (idA idB : BlockID), commit.signatures[i]? = some sigA ∧
        ctx.trusted.commit.signatures[i]? = some sigB ∧ idA ≠ idB ∧
        SignedPrecommit H C chainID commit sigA key idA ∧
        SignedPrecommit H C chainID ctx.trusted.commit sigB key idB

/-- Every signature that names a validator is its own: for a lunatic attack those for the block with
the address of a common validator, otherwise those at positions signed in both commits, not both for
nil. -/
def FullySigned (H : HashFunction) (C : Crypto) (chainID : Bytes) (conflictingVals : ValidatorSet) :
    Prop :=
  if conflictingHeaderIsInvalid ctx.trusted.header header then
    ∀ commitSig ∈ commit.signatures, commitSig.forBlock = true →
      ∀ val, ctx.commonVals.lookup commitSig.validatorAddress = some val →
        ∃ key, val.pubKey = some key ∧
          SignedPrecommit H C chainID commit commitSig key commit.blockID
  else
    ∀ (i : Nat) (sigA sigB : CommitSig), commit.signatures[i]? = some sigA →
      ctx.trusted.commit.signatures[i]? = some sigB → sigA.absent = false → sigB.absent = false →
      (sigA.forBlock = true ∨ sigB.forBlock = true) ∧
      ∃ (val : Validator) (key : PubKey) (id : BlockID),
        conflictingVals.validators[i]? = some (some val) ∧ val.pubKey = some key ∧
        C.address key = sigA.validatorAddress ∧ SignedPrecommit H C chainID commit sigA key id

end AttackContext

/-! ### The validators that are found -/

section Found

variable {vals : ValidatorSet}

/-- Who is named for a lunatic attack. -/
theorem lunaticValidators_eq (hkeys : vals.Keyed) (sigs : List CommitSig) :
    lunaticValidators vals sigs = .ok ((((sigs.filter forBlock).map
      validatorAddress).filter fun address => (vals.lookup address).isSome).map vals.lookup) := by
  induction sigs with
  | nil => rfl
  | cons commitSig rest ih =>
    rw [lunaticValidators]
    cases hfor : commitSig.forBlock with
    | false => simpa [hfor] using ih
    | true =>
      obtain ⟨found, hfound, -⟩ := hkeys.getByAddress commitSig.validatorAddress
      have hlookup := lookup_eq hfound
      cases found with
      | none => simpa [hfor, hfound, hlookup, bind, Except.bind] using ih
      | some found =>
        simp [hfor, hfound, hlookup, ih, bind, Except.bind, pure, Except.pure]

/-- Who is named for an equivocation. -/
theorem equivocators_eq (hkeys : vals.Keyed) {sigs trusted : List CommitSig}
    (hlength : sigs.length ≤ trusted.length) :
    equivocators vals sigs trusted = .ok ((((sigs.zip trusted).filter
      fun sigs => !sigs.1.absent && !sigs.2.absent).map fun sigs => sigs.1.validatorAddress).map
        vals.lookup) := by
  induction sigs generalizing trusted with
  | nil => rfl
  | cons sigA restA ih =>
    cases trusted with
    | nil => cases hlength
    | cons sigB restB =>
      have ih := ih (Nat.le_of_succ_le_succ hlength)
      obtain ⟨found, hfound, -⟩ := hkeys.getByAddress sigA.validatorAddress
      have hlookup := lookup_eq hfound
      rw [equivocators]
      cases hA : sigA.absent with
      | true => simpa [hA] using ih
      | false =>
        cases hB : sigB.absent with
        | true => simpa [hA, hB, orPanic, bind, Except.bind] using ih
        | false =>
          simp [hA, hB, hfound, hlookup, ih, orPanic, bind, Except.bind, pure, Except.pure]

/-- No entry is nil. -/
abbrev Present (entries : List (Option Validator)) : Prop :=
  ∀ entry ∈ entries, entry.isSome = true

/-- A nil pointer in a list makes a panic. -/
theorem mapM_orPanic_ends (validators : List (Option Validator)) :
    Ends (¬ Present validators) (fun vals => validators = vals.map some)
      (validators.mapM orPanic) := by
  induction validators with
  | nil => rfl
  | cons entry rest ih =>
    rw [mapM_cons]
    cases entry with
    | none => exact fun _ hall => nomatch hall none mem_cons_self
    | some val =>
      simp only [bind_iff, orPanic_iff, pure_iff]
      refine ih.imp (fun hnone hall => hnone (forall_mem_cons.mp hall).2) ?_
      intro vals hvals
      rw [hvals, map_cons]

/-- Sorting panics only on nil. -/
theorem sortByzantineValidators_ends (validators : List (Option Validator)) :
    Ends (¬ Present validators) (fun sorted => sorted.Perm validators)
      (sortByzantineValidators validators) := by
  unfold sortByzantineValidators
  split
  · exact Perm.refl _
  · refine bind_iff.mpr ((mapM_orPanic_ends validators).mono ?_)
    intro vals hvals
    rw [hvals]
    exact (perm_insertionSort _ _).map _

/-- The comparison panics only on nil pointers, and validators of the evidence that pass it have the
expected addresses. -/
theorem compareValidators_ends {expected listed : List (Option Validator)}
    (hlength : expected.length = listed.length) (hlisted : Present listed) :
    Ends (¬ Present expected)
      (fun _ => Present expected ∧
        listed.map (Option.map address) = expected.map (Option.map address))
      (compareValidators expected listed) := by
  induction expected generalizing listed with
  | nil =>
    obtain rfl := length_eq_zero_iff.mp hlength.symm
    exact ⟨forall_mem_nil _, rfl⟩
  | cons entry rest ih =>
    cases listed with
    | nil => cases hlength
    | cons item items =>
      obtain ⟨hitem, hitems⟩ := forall_mem_cons.mp hlisted
      obtain ⟨v, rfl⟩ := isSome_iff_exists.mp hitem
      unfold compareValidators
      cases entry with
      | none => exact fun _ hall => nomatch hall none mem_cons_self
      | some val =>
        simp only [head?_cons, join_some, tail_cons, bind_iff, orPanic_iff, failIf_iff, not_not]
        intro haddress _
        refine (ih (Nat.succ.inj hlength) hitems).imp
          (fun hnone hall => hnone (forall_mem_cons.mp hall).2) ?_
        rintro _ ⟨hsome, heq⟩
        refine ⟨forall_mem_cons.mpr ⟨rfl, hsome⟩, ?_⟩
        rw [map_cons, map_cons, heq, Option.map_some, Option.map_some, haddress]

end Found

namespace AttackContext

variable {ctx : AttackContext} {header : Header} {commit : Commit} {vals : ValidatorSet}

/-- `GetByzantineValidators` looks up the listed addresses and sorts what it finds. -/
theorem getByzantineValidators_eq (hcommon : ctx.commonVals.Keyed) (hvals : vals.Keyed)
    (hlength : conflictingHeaderIsInvalid ctx.trusted.header header = false →
      commit.signatures.length ≤ ctx.trusted.commit.signatures.length) :
    getByzantineValidators header commit (some vals) ctx.commonVals ctx.trusted =
      sortByzantineValidators
        ((ctx.listedAddresses header commit).map (ctx.lookupSet header vals).lookup) := by
  unfold getByzantineValidators listedAddresses lookupSet
  cases hinvalid : conflictingHeaderIsInvalid ctx.trusted.header header with
  | true =>
    rw [lunaticValidators_eq hcommon]
    rfl
  | false =>
    simp only [Bool.false_eq_true, if_false]
    split
    · have hfound := equivocators_eq hvals (hlength hinvalid)
      simp only [orPanic, bind, Except.bind, hfound]
    · rfl

/-- The addresses of those who are found. -/
theorem map_lookup {set : ValidatorSet} (hset : set.Keyed) {addresses : List Bytes}
    (h : ∀ address ∈ addresses, (set.lookup address).isSome = true) :
    (addresses.map set.lookup).map (Option.map address) = addresses.map some := by
  rw [List.map_map]
  apply map_congr_left
  intro address haddress
  obtain ⟨val, hval⟩ := isSome_iff_exists.mp (h address haddress)
  rw [Function.comp_apply, hval, map_some, (lookup_spec hset hval).1]

/-- The check of the validators in the evidence panics only if an address is not known; accepted
ones have the listed addresses. -/
theorem validateABCIEvidence_ends {l : LightClientAttackEvidence}
    (hset : l.validatorSet = some vals) (hcommon : ctx.commonVals.Authentic C) (hvals : vals.Keyed)
    (hlisted : Present l.byzantineValidators)
    (hlength : conflictingHeaderIsInvalid ctx.trusted.header header = false →
      commit.signatures.length ≤ ctx.trusted.commit.signatures.length) :
    Ends (¬ ctx.AddressesKnown header commit vals)
      (fun _ => (l.byzantineValidators.map (Option.map address)).Perm
        ((ctx.listedAddresses header commit).map some))
      (validateABCIEvidence l header commit ctx.commonVals ctx.trusted) := by
  obtain ⟨total, htotal, -⟩ := hcommon.admissible.totalVotingPower_eq
  simp only [validateABCIEvidence, hset, getByzantineValidators_eq hcommon.keyed hvals hlength,
    htotal, bind_iff, ok_iff, failIf_iff, not_not]
  intro _
  have hknown : ctx.AddressesKnown header commit vals →
      Present ((ctx.listedAddresses header commit).map (ctx.lookupSet header vals).lookup) := by
    intro hknown entry hentry
    obtain ⟨address, haddress, rfl⟩ := mem_map.mp hentry
    exact hknown address haddress
  refine (sortByzantineValidators_ends _).imp (fun hnone h => hnone (hknown h)) ?_
  intro sorted hperm _ hcount
  refine (compareValidators_ends hcount hlisted).imp ?_ ?_
  · intro hnone h
    exact hnone fun entry hentry => hknown h entry (hperm.mem_iff.mp hentry)
  · rintro _ ⟨hsome, heq⟩
    have hkeyed : (ctx.lookupSet header vals).Keyed := by
      unfold lookupSet
      split
      · exact hcommon.keyed
      · exact hvals
    rw [heq, ← map_lookup hkeyed]
    · exact hperm.map _
    · intro address haddress
      exact hsome _ (hperm.mem_iff.mpr (mem_map_of_mem haddress))

/-! ### What is loaded -/

/-- The stores have what `verify` needs for the evidence. -/
structure LoadedFrom (stores : EvidenceStores) (l : LightClientAttackEvidence)
    (ctx : AttackContext) : Prop where
  commonHeader : stores.getSignedHeader l.commonHeight = .ok ctx.commonHeader
  commonVals : stores.loadValidators l.commonHeight = .ok ctx.commonVals
  trusted : ∃ header, l.header = some header ∧
    stores.trustedHeader ctx.commonHeader l.commonHeight header = .ok ctx.trusted

variable {stores : EvidenceStores} {l : LightClientAttackEvidence} {chainID : Bytes}
  {committers : Int64 → ValidatorSet}

/-- The trusted header is the one at the height of the conflicting header. -/
theorem LoadedFrom.trusted_eq (h : ctx.LoadedFrom stores l)
    (hstores : stores.Trustworthy H C chainID committers) (hheader : l.header = some header) :
    stores.getSignedHeader header.height = .ok ctx.trusted := by
  obtain ⟨header', hheader', htrusted⟩ := h.trusted
  obtain rfl : header = header' := some.inj (hheader.symm.trans hheader')
  unfold EvidenceStores.trustedHeader at htrusted
  split at htrusted
  · rename_i hheight
    obtain heq := ok.inj htrusted
    rw [← hheight, ← heq]
    exact h.commonHeader
  · split at htrusted
    · rename_i trusted hget
      rw [hget, ok.inj htrusted]
    · obtain ⟨latest, hlatest, -⟩ := bind_eq_ok.mp htrusted
      have hmissing : ∀ sh, stores.getSignedHeader stores.height ≠ .ok sh := by
        intro sh hsh
        unfold EvidenceStores.getSignedHeader at hsh
        split at hsh
        · cases hsh
        · rw [hstores.latest] at hsh
          cases hsh
      cases hget : stores.getSignedHeader stores.height with
      | error e =>
        rw [hget] at hlatest
        cases hlatest
      | ok sh => exact absurd hget (hmissing sh)

/-- If the headers agree on the validators, the commits have the same number of signatures. -/
theorem length_eq_of_valid (hstores : stores.Trustworthy H C chainID committers)
    (htrusted : stores.getSignedHeader header.height = .ok ctx.trusted)
    (hparts : l.Parts H header commit vals)
    (hfree : H.CollisionFree ((committers header.height).hashInputs H) (vals.hashInputs H))
    (hsize : vals.size = commit.signatures.length)
    (hvalid : conflictingHeaderIsInvalid ctx.trusted.header header = false) :
    (committers header.height).validators.map voter =
        vals.validators.map voter ∧
      commit.signatures.length = ctx.trusted.commit.signatures.length := by
  have hhash := hstores.hash _ _ htrusted
  have heq : ctx.trusted.header.validatorsHash = header.validatorsHash := by
    simp only [conflictingHeaderIsInvalid, decide_eq_false_iff_not, not_or, not_not] at hvalid
    exact hvalid.1
  rw [heq] at hhash
  have hvoters := voters_eq_of_hash hfree hhash hparts.valsHash
  refine ⟨hvoters, ?_⟩
  have hsigned := hstores.signed _ _ htrusted
  obtain ⟨hcheck, -⟩ := seq_eq_ok.mp hsigned
  simp only [checkCommit, seq_eq_ok, failIf_eq_ok, not_not] at hcheck
  have hlength := congrArg length hvoters
  rw [length_map, length_map] at hlength
  rw [← hsize, ← hcheck.1]
  exact hlength.symm

/-! ### Accepted attacks -/

/-- The derivation is checked without a panic. -/
theorem checkDerivation_ends (hcommon : ctx.commonVals.Authentic C) (hcommit : commit.Signable H) :
    Ends False (fun _ => True) (checkDerivation H C header commit ctx.commonHeader.header
      ctx.trusted.header ctx.commonVals) := by
  unfold checkDerivation
  split
  · exact within_iff.mpr (verifyCommitLightTrusting_ends hcommon.admissible
      hcommon.keyed hcommit _)
  · simp

/-- `VerifyLightClientAttack` panics only if an address is not known; what it accepts differs from
the trusted header and lists the addresses. -/
theorem verifyLightClientAttack_ends (hparts : l.Parts H header commit vals)
    (hcommon : ctx.commonVals.Authentic C)
    (hlisted : Present l.byzantineValidators)
    (hlength : vals.size = commit.signatures.length →
      conflictingHeaderIsInvalid ctx.trusted.header header = false →
      commit.signatures.length ≤ ctx.trusted.commit.signatures.length) :
    Ends (¬ ctx.AddressesKnown header commit vals)
      (fun _ => vals.size = commit.signatures.length ∧
        ctx.trusted.header.hash H ≠ header.hash H ∧
        (l.byzantineValidators.map (Option.map address)).Perm
          ((ctx.listedAddresses header commit).map some))
      (verifyLightClientAttack H C l ctx.commonHeader ctx.trusted ctx.commonVals) := by
  obtain ⟨total, htotal, -⟩ := hcommon.admissible.totalVotingPower_eq
  simp only [verifyLightClientAttack, hparts.header_eq, hparts.commit_eq, hparts.validatorSet_eq,
    htotal, bind_iff, orPanic_iff, ok_iff, failIf_iff, within_iff]
  refine (checkDerivation_ends hcommon hparts.signable).imp False.elim fun _ _ => ?_
  refine (verifyCommitLight_ends hparts.admissible hparts.keyed hparts.signable _
    _).imp False.elim fun _ hsize _ => ?_
  unfold checkDeviation
  split
  · exact fail
  refine failIf_iff.mpr fun hdeviation => ?_
  exact (validateABCIEvidence_ends hparts.validatorSet_eq hcommon hparts.keyed hlisted
    (hlength hsize)).mono fun _ hperm => ⟨hsize, hdeviation, hperm⟩

/-- A vote in a commit is for its block or nil. -/
theorem blockID_cases {commitSig : CommitSig} {blockID id : BlockID}
    (hpresent : commitSig.absent = false) (h : commitSig.blockID blockID = some id) :
    (commitSig.forBlock = true ∧ id = blockID) ∨ (commitSig.forBlock = false ∧ id = .empty) := by
  have hflag : commitSig.blockIDFlag ≠ blockIDFlagAbsent := by
    simpa [absent] using hpresent
  unfold CommitSig.blockID at h
  rw [if_neg hflag] at h
  split at h
  · rename_i hcommit
    exact .inl ⟨by simp [forBlock, hcommit], (some.inj h).symm⟩
  · rename_i hcommit
    split at h
    · exact .inr ⟨by simp [forBlock, hcommit], (some.inj h).symm⟩
    · cases h

/-- If all signatures that name validators are theirs, those who are named have misbehaved. -/
theorem misbehaved_of_fullySigned (hstores : stores.Trustworthy H C chainID committers)
    (hctx : ctx.LoadedFrom stores l) (hparts : l.Parts H header commit vals)
    (hfree : H.CollisionFree ((committers header.height).hashInputs H) (vals.hashInputs H))
    (hsize : vals.size = commit.signatures.length)
    (hdeviation : ctx.trusted.header.hash H ≠ header.hash H)
    (hsigned : ctx.FullySigned header commit H C chainID vals) {address : Bytes}
    (haddress : address ∈ ctx.listedAddresses header commit) :
    ctx.Misbehaved header commit H C chainID address := by
  have htrusted := hctx.trusted_eq hstores hparts.header_eq
  unfold listedAddresses at haddress
  unfold FullySigned at hsigned
  unfold Misbehaved
  cases hinvalid : conflictingHeaderIsInvalid ctx.trusted.header header with
  | true =>
    simp only [hinvalid, if_true, mem_filter, List.mem_map] at haddress hsigned ⊢
    obtain ⟨⟨commitSig, ⟨hmem, hfor⟩, rfl⟩, hknown⟩ := haddress
    obtain ⟨val, hval⟩ := isSome_iff_exists.mp hknown
    obtain ⟨key, hkey, hsig⟩ := hsigned commitSig hmem hfor val hval
    have hcommon := hstores.validators _ _ hctx.commonVals
    obtain ⟨hsame, hin⟩ := lookup_spec hcommon.keyed hval
    obtain ⟨val', key', heq, hkey', hown⟩ := hcommon.keys _ hin
    cases heq
    obtain rfl : key' = key := some.inj (hkey'.symm.trans hkey)
    exact ⟨key', hown.trans hsame, commitSig, hmem, hfor, hsig⟩
  | false =>
    simp only [hinvalid, Bool.false_eq_true, if_false] at haddress hsigned ⊢
    split at haddress
    · rename_i hround
      simp only [List.mem_map, mem_filter, Bool.and_eq_true, Bool.not_eq_true'] at haddress
      obtain ⟨⟨sigA, sigB⟩, ⟨hmem, hA, hB⟩, rfl⟩ := haddress
      obtain ⟨i, hi⟩ := mem_iff_getElem?.mp hmem
      obtain ⟨hsigA, hsigB⟩ := getElem?_zip_eq_some.mp hi
      obtain ⟨hnotNil, val, key, idA, hval, hkey, hown, hsignedA⟩ :=
        hsigned i sigA sigB hsigA hsigB hA hB
      obtain ⟨hvoters, hlength⟩ := length_eq_of_valid hstores htrusted hparts hfree hsize hinvalid
      have hlimit := hparts.signable.length
      have haccepted := hstores.signed _ _ htrusted
      obtain ⟨val', key', idB, hval', hkey', hsignedB⟩ :=
        verifyCommit_signed haccepted (by omega) hsigB hB
      -- the validators at one position of sets with one hash have the same key
      obtain ⟨val'', hval'', hsame, -⟩ := exists_of_voters_eq hvoters hval'
      obtain rfl : val = val'' := by simpa using hval.symm.trans hval''
      obtain rfl : key = key' := by
        rw [hkey, hkey'] at hsame
        exact some.inj hsame
      obtain ⟨hcheck, -⟩ := seq_eq_ok.mp haccepted
      simp only [checkCommit, seq_eq_ok, failIf_eq_ok, not_not] at hcheck
      refine ⟨key, hown, hparts.height_eq.trans hcheck.2.1, hround.symm, i, sigA, sigB, idA, idB,
        hsigA, hsigB, ?_, hsignedA, hsignedB⟩
      obtain ⟨hhash, hne⟩ := hstores.blockID _ _ htrusted
      rcases blockID_cases hA hsignedA.1 with ⟨-, rfl⟩ | ⟨hnilA, rfl⟩
      · rcases blockID_cases hB hsignedB.1 with ⟨-, rfl⟩ | ⟨-, rfl⟩
        · intro heq
          apply hdeviation
          rw [← hhash, hparts.hash_eq, heq]
        · exact hparts.blockID_ne
      · rcases blockID_cases hB hsignedB.1 with ⟨-, rfl⟩ | ⟨hnilB, rfl⟩
        · exact Ne.symm hne
        · rw [hnilA, hnilB] at hnotNil
          simp at hnotNil
    · cases haddress

end AttackContext

/-! ### Verification against the stores -/

/-- The validators that evidence of an attack lists have the addresses of their keys. -/
def LightClientAttackEvidence.KeysMatch (C : Crypto) (l : LightClientAttackEvidence) : Prop :=
  ∀ entry ∈ l.byzantineValidators, ∀ (val : Validator) (key : PubKey), entry = some val →
    val.pubKey = some key → C.address key = val.address

section Verify

variable {state : State} {stores : EvidenceStores} {committers : Int64 → ValidatorSet}
  {l : LightClientAttackEvidence}

/-- The ABCI evidence of an attack names the addresses of the keys. -/
theorem abci_lightClientAttack (hlisted : ∀ entry ∈ l.byzantineValidators,
      ∃ (val : Validator) (key : PubKey), entry = some val ∧ val.pubKey = some key)
    (hmatch : l.KeysMatch C) :
    ∃ items, (lightClientAttack l).abci C = .ok items ∧
      items.map (fun item => some item.address) =
        l.byzantineValidators.map (Option.map address) := by
  unfold LightClientAttackEvidence.KeysMatch at hmatch
  show ∃ items, l.byzantineValidators.mapM (l.abciEntry C) = .ok items ∧ _
  generalize l.byzantineValidators = entries at hlisted hmatch
  induction entries with
  | nil => exact ⟨[], rfl, rfl⟩
  | cons entry rest ih =>
    obtain ⟨⟨val, key, rfl, hkey⟩, hrest⟩ := forall_mem_cons.mp hlisted
    obtain ⟨hown, hmatch⟩ := forall_mem_cons.mp hmatch
    obtain ⟨items, hitems, hmap⟩ := ih hrest hmatch
    have hentry : l.abciEntry C (some val) = .ok ⟨.lightClientAttack, C.address key,
        val.votingPower, l.commonHeight, l.timestamp, l.totalVotingPower⟩ := by
      unfold LightClientAttackEvidence.abciEntry
      simp only [orPanic, bind, Except.bind, hkey]
      rfl
    refine ⟨_, by rw [mapM_cons, hentry, hitems]; rfl, ?_⟩
    rw [map_cons, map_cons, hmap, map_some, hown val key rfl hkey]

theorem checkAge_ends (height : Int64) (time : Time) :
    Ends False (fun _ => True) (checkAge state stores height time) := by
  unfold checkAge
  split <;> simp

/-- Evidence of duplicate votes. -/
theorem verifyEvidence_duplicateVote (hstores : stores.Trustworthy H C state.chainID committers)
    {dve : DuplicateVoteEvidence} (hdve : dve.WellFormed H) :
    Ends False (fun _ => ∃ voteA, dve.voteA = some voteA ∧
        DoubleSigned H C state.chainID dve voteA.validatorAddress)
      (verifyEvidence H C state stores (.duplicateVote dve)) := by
  obtain ⟨voteA, -, -, -, hA, -⟩ := hdve.votes state.chainID
  have hheight : (duplicateVote dve).height = some voteA.height := by
    rw [height, hA]
    rfl
  simp only [verifyEvidence, hheight, bind_iff, orPanic_iff, mapError_iff]
  refine (checkAge_ends _ _).mono fun _ _ vals hvals => ?_
  exact DuplicateVoteEvidence.verifyDuplicateVote_ends (hstores.validators _ _ hvals) hdve _

/-- Evidence of an attack is verified against what is loaded for it. -/
theorem verifyEvidence_lightClientAttack {header : Header} {Q : Prop} {P : AttackContext → Prop}
    (hheader : l.header = some header)
    (h : ∀ ctx : AttackContext, ctx.LoadedFrom stores l → Ends Q (fun _ => P ctx)
      (verifyLightClientAttack H C l ctx.commonHeader ctx.trusted ctx.commonVals)) :
    Ends Q (fun _ => ∃ ctx : AttackContext, ctx.LoadedFrom stores l ∧ P ctx)
      (verifyEvidence H C state stores (.lightClientAttack l)) := by
  have hheight : (lightClientAttack l).height = some l.commonHeight := rfl
  simp only [verifyEvidence, hheight, hheader, bind_iff, orPanic_iff, mapError_iff]
  refine (checkAge_ends _ _).imp False.elim fun _ _ commonHeader hcommon commonVals hvals => ?_
  have htrusted : Ends False (fun _ => True)
      (stores.trustedHeader commonHeader l.commonHeight header) := by
    unfold EvidenceStores.trustedHeader
    split
    · trivial
    · split <;> simp
  refine htrusted.self.imp False.elim fun trusted htrusted => ?_
  have hctx : AttackContext.LoadedFrom stores l ⟨commonHeader, commonVals, trusted⟩ :=
    ⟨hcommon, hvals, header, hheader, htrusted⟩
  exact (h _ hctx).mono fun _ hP => ⟨_, hctx, hP⟩

/-- Evidence of duplicate votes makes no panic, and if it is accepted, its ABCI evidence names a
validator who has signed both votes. Evidence of a light client attack makes none if the addresses
of the commit are known. If it is accepted and lists validators with their own keys, all validators
named have misbehaved exactly if the owners of all listed addresses have; and they have if every
signature that names a validator is its own. -/
theorem evidence_names_signers_iff (H : HashFunction) (C : Crypto) {state : State}
    {stores : EvidenceStores} {committers : Int64 → ValidatorSet}
    (hstores : stores.Trustworthy H C state.chainID committers) :
    (∀ dve : DuplicateVoteEvidence, dve.WellFormed H →
      NoPanic (verifyEvidence H C state stores (.duplicateVote dve)) ∧
      (verifyEvidence H C state stores (.duplicateVote dve) = .ok () →
        ∃ items, (duplicateVote dve).abci C = .ok items ∧
          ∀ item ∈ items, DoubleSigned H C state.chainID dve item.address)) ∧
    (∀ (l : LightClientAttackEvidence) (header : Header) (commit : Commit) (vals : ValidatorSet),
      l.WellFormed H → l.Parts H header commit vals →
      H.CollisionFree ((committers header.height).hashInputs H) (vals.hashInputs H) →
      ((∀ ctx : AttackContext, ctx.LoadedFrom stores l → ctx.AddressesKnown header commit vals) →
        NoPanic (verifyEvidence H C state stores (.lightClientAttack l))) ∧
      (verifyEvidence H C state stores (.lightClientAttack l) = .ok () → l.KeysMatch C →
        ∃ (ctx : AttackContext) (items : List AbciEvidence), ctx.LoadedFrom stores l ∧
          (lightClientAttack l).abci C = .ok items ∧
          ((∀ item ∈ items, ctx.Misbehaved header commit H C state.chainID item.address) ↔
            ∀ address ∈ ctx.listedAddresses header commit,
              ctx.Misbehaved header commit H C state.chainID address) ∧
          (ctx.FullySigned header commit H C state.chainID vals →
            ∀ item ∈ items, ctx.Misbehaved header commit H C state.chainID item.address))) := by
  constructor
  · intro dve hdve
    have hends := verifyEvidence_duplicateVote hstores hdve
    refine ⟨hends.noPanic id, fun h => ?_⟩
    obtain ⟨voteA, hA, hsigned⟩ := Outcome.value hends h
    refine ⟨[⟨.duplicateVote, voteA.validatorAddress, dve.validatorPower, voteA.height,
      dve.timestamp, dve.totalVotingPower⟩], ?_, ?_⟩
    · rw [abci, hA]
      rfl
    · intro item hitem
      rw [mem_singleton.mp hitem]
      exact hsigned
  intro l header commit vals hl hparts hfree
  have hends : ∀ ctx : AttackContext, ctx.LoadedFrom stores l → _ := fun ctx hctx =>
    @AttackContext.verifyLightClientAttack_ends H C ctx header commit vals l hparts
      (hstores.validators _ _ hctx.commonVals)
      (fun entry hentry => by obtain ⟨val, -, rfl, -⟩ := hl.listed entry hentry; rfl)
      fun hsize hvalid => (AttackContext.length_eq_of_valid hstores
        (hctx.trusted_eq hstores hparts.header_eq) hparts hfree hsize hvalid).2.le
  constructor
  · intro hknown
    refine (verifyEvidence_lightClientAttack hparts.header_eq fun ctx hctx =>
      (hends ctx hctx).imp (fun hnot => hnot (hknown ctx hctx)) fun _ h => h).noPanic id
  · intro hok hmatch
    obtain ⟨ctx, hctx, hsize, hdeviation, hperm⟩ := Outcome.value
      (verifyEvidence_lightClientAttack hparts.header_eq fun ctx hctx =>
        (hends ctx hctx).imp (fun _ => trivial) fun _ h => h) hok
    obtain ⟨items, hitems, hmap⟩ := abci_lightClientAttack hl.listed hmatch
    have hnamed : ∀ address, (∃ item ∈ items, item.address = address) ↔
        address ∈ ctx.listedAddresses header commit := by
      intro address
      have hmem : some address ∈ _ ↔ some address ∈ _ := hperm.mem_iff
      rw [← hmap] at hmem
      simpa using hmem
    have hiff : (∀ item ∈ items, ctx.Misbehaved header commit H C state.chainID item.address) ↔
        ∀ address ∈ ctx.listedAddresses header commit,
          ctx.Misbehaved header commit H C state.chainID address := by
      constructor
      · intro h address haddress
        obtain ⟨item, hitem, rfl⟩ := (hnamed address).mpr haddress
        exact h item hitem
      · intro h item hitem
        exact h item.address ((hnamed item.address).mp ⟨item, hitem, rfl⟩)
    refine ⟨ctx, items, hctx, hitems, hiff, ?_⟩
    intro hsigned
    rw [hiff]
    intro address haddress
    exact AttackContext.misbehaved_of_fullySigned hstores hctx hparts hfree hsize hdeviation hsigned
      haddress

end Verify

/-! ### Samples -/

namespace EvidenceSample

/-- The hash function of the samples. -/
def hash : HashFunction :=
  HashFunction.polynomial 2

/-- Four validators, the first of which proposes. -/
def validators : ValidatorSet :=
  { sampleValidators with proposer := some (sampleValidator 1) }

/-- Second 1000. -/
def second : Time :=
  .unix 1000

/-- A header of the first block with some data hash. -/
def header (data : UInt8) : Header :=
  { Header.ofHeight 1 ⟨0, Float64.zero_ne⟩ ⟨0, Float64.zero_ne⟩ with
    time := second
    lastCommitHash := [1, 1]
    dataHash := [data, 1]
    validatorsHash := (validators.hash hash).getD []
    nextValidatorsHash := (validators.hash hash).getD []
    consensusHash := [3, 3]
    evidenceHash := [5, 5]
    proposerAddress := replicate 20 1 }

/-- A signature for the block under an address. -/
def signature (address byte : UInt8) : CommitSig :=
  ⟨blockIDFlagCommit, replicate 20 address, second, [byte]⟩

/-- The signatures of all validators. -/
def fullSignatures : List CommitSig :=
  [signature 1 1, signature 2 2, signature 3 3, signature 4 4]

/-- A commit for a header. -/
def commit (data : UInt8) (signatures : List CommitSig) : Commit :=
  ⟨1, 0, ⟨(header data).hash hash, ⟨1, [data, 9]⟩⟩, signatures⟩

/-- All validators have signed the stored header. -/
def storedCommit : Commit :=
  commit 1 fullSignatures

/-- Stores with the first block and its commit. -/
def stores : EvidenceStores where
  loadBlockMeta height :=
    if height = 1 then some ⟨storedCommit.blockID, 100, header 1, 0⟩ else none
  loadBlockCommit height := if height = 1 then some storedCommit else none
  height := 2
  loadValidators height := if height = 1 then .ok validators else .error (.new "" [] [])

/-- The state after the second block. -/
def state : State where
  version := ⟨blockProtocol, 0⟩
  chainID := []
  initialHeight := 1
  lastBlockHeight := 2
  lastBlockID := BlockID.empty
  lastBlockTime := second
  nextValidators := validators
  validators := validators
  lastValidators := validators
  consensusParams := ⟨⟨1000, -1, 1000⟩, ⟨10, 10, 100⟩⟩
  lastResultsHash := []
  appHash := []

/-- Evidence that the validators have signed another header in the same round. -/
def evidence (signatures : List CommitSig) (listed : List Validator) :
    LightClientAttackEvidence where
  conflictingBlock := some ⟨some ⟨some (header 2), some (commit 2 signatures)⟩, some validators⟩
  commonHeight := 1
  byzantineValidators := listed.map some
  totalVotingPower := 4
  timestamp := second

/-- The four validators. -/
def listed : List Validator :=
  [sampleValidator 1, sampleValidator 2, sampleValidator 3, sampleValidator 4]

/-- All validators have signed both headers. -/
def attack : LightClientAttackEvidence :=
  evidence fullSignatures listed

/-- The fourth validator has not signed the conflicting header. -/
def framing : LightClientAttackEvidence :=
  evidence [signature 1 1, signature 2 2, signature 3 3, signature 4 0] listed

/-- The first of the validators is listed with the key of another one. -/
def swapped : LightClientAttackEvidence :=
  evidence fullSignatures
    [{ sampleValidator 1 with pubKey := some (sampleKey 9) }, sampleValidator 2, sampleValidator 3,
      sampleValidator 4]

/-- The fourth signature carries an address that is not one of a validator. -/
def unknown : LightClientAttackEvidence :=
  evidence [signature 1 1, signature 2 2, signature 3 3, signature 77 4] listed

/-- One header is stored. -/
theorem getSignedHeader_eq {height : Int64} {sh : StoredHeader}
    (h : stores.getSignedHeader height = .ok sh) : height = 1 ∧ sh = ⟨header 1, storedCommit⟩ := by
  by_cases hone : height = 1
  · subst hone
    exact ⟨rfl, (ok.inj h).symm⟩
  · simp [EvidenceStores.getSignedHeader, stores, hone] at h

theorem validators_authentic : validators.Authentic sampleCrypto where
  admissible := ⟨sampleValidators_admissible.nonneg, sampleValidators_admissible.total_le⟩
  keys := by
    intro entry hentry
    simp only [validators, sampleValidators, mem_cons, not_mem_nil, or_false] at hentry
    rcases hentry with rfl | rfl | rfl | rfl <;> exact ⟨_, _, rfl, rfl, rfl⟩

/-- What is stored fits together, and the other header agrees with it on the validators. -/
theorem stored_evaluated :
    storedCommit.blockID.hash = (header 1).hash hash ∧ storedCommit.blockID ≠ .empty ∧
    validators.hash hash = some (header 1).validatorsHash ∧
    validators.verifyCommit hash sampleCrypto [] storedCommit.blockID 1 storedCommit = .ok () ∧
    (commit 2 []).blockID.validateBasic hash = .ok () ∧
    conflictingHeaderIsInvalid (header 1) (header 2) = false := by
  decide +kernel

/-- What the stores hold is trustworthy. -/
theorem stores_trustworthy : stores.Trustworthy hash sampleCrypto [] fun _ => validators := by
  obtain ⟨hid, hne, hhash, hsigned, -⟩ := stored_evaluated
  refine ⟨?_, ?_, ?_, ?_, ?_, ?_, rfl⟩
  · intro height vals h
    by_cases hone : height = 1
    · subst hone
      cases h
      exact validators_authentic
    · simp [stores, hone] at h
  all_goals
    intro height sh h
    obtain ⟨rfl, rfl⟩ := getSignedHeader_eq h
  · rfl
  · rfl
  · exact ⟨hid, hne⟩
  · exact hhash
  · exact hsigned

variable {signatures : List CommitSig} {listed : List Validator} {ctx : AttackContext}

/-- Valid evidence is well-formed. -/
theorem evidence_wellFormed (hvalid : (evidence signatures listed).validateBasic hash = .ok ())
    (hstamps : ∀ commitSig ∈ signatures, commitSig.timestamp = second)
    (hlength : signatures.length = 4) (hlisted : ∀ val ∈ listed, val.pubKey.isSome = true) :
    (evidence signatures listed).WellFormed hash where
  valid := hvalid
  signable := by
    intro c hc
    obtain rfl : commit 2 signatures = c := some.inj hc
    refine ⟨stored_evaluated.2.2.2.2.1, ?_, ?_⟩
    · intro commitSig hmem
      rw [hstamps commitSig hmem]
      decide
    · have : (commit 2 signatures).signatures.length = 4 := hlength
      omega
  total_le := by
    intro vals hvals
    obtain rfl : validators = vals := some.inj hvals
    exact validators_authentic.admissible.total_le
  listed := by
    intro entry hentry
    obtain ⟨val, hval, rfl⟩ := mem_map.mp hentry
    obtain ⟨key, hkey⟩ := isSome_iff_exists.mp (hlisted val hval)
    exact ⟨val, key, rfl, hkey⟩

theorem evidence_valid : attack.validateBasic hash = .ok () ∧ framing.validateBasic hash = .ok () ∧
    swapped.validateBasic hash = .ok () ∧ unknown.validateBasic hash = .ok () := by
  decide +kernel

theorem attack_wellFormed : attack.WellFormed hash :=
  evidence_wellFormed evidence_valid.1 (by simp [fullSignatures, signature]) rfl
    (by simp [listed, sampleValidator])

theorem parts_of_wellFormed (h : (evidence signatures listed).WellFormed hash) :
    (evidence signatures listed).Parts hash (header 2) (commit 2 signatures) validators := by
  obtain ⟨header', commit', vals, hparts⟩ := h.parts
  obtain rfl : header 2 = header' := some.inj hparts.header_eq
  obtain rfl : commit 2 signatures = commit' := some.inj hparts.commit_eq
  obtain rfl : validators = vals := some.inj hparts.validatorSet_eq
  exact hparts

/-- What is loaded for the evidence is the stored header. -/
theorem trusted_of_loaded (h : ctx.LoadedFrom stores (evidence signatures listed)) :
    ctx.trusted = ⟨header 1, storedCommit⟩ :=
  (getSignedHeader_eq (h.trusted_eq stores_trustworthy rfl)).2

/-- Who has signed the other header. -/
theorem signedPrecommit_signature (signatures : List CommitSig) (address byte : UInt8) :
    SignedPrecommit hash sampleCrypto [] (commit 2 signatures) (signature address byte)
      (sampleKey byte) (commit 2 signatures).blockID := by
  obtain ⟨bytes, hbytes⟩ := @exists_voteSignBytes hash []
    ⟨precommitType, 1, 0, (commit 2 []).blockID, second, [], 0, []⟩ stored_evaluated.2.2.2.2.1
    (by decide : second.Representable)
  refine ⟨rfl, bytes, hbytes, ?_⟩
  simp [sampleCrypto, sampleKey, signature]

/-- All four have signed it. -/
theorem attack_fullySigned (h : ctx.LoadedFrom stores attack) :
    ctx.FullySigned (header 2) (commit 2 fullSignatures) hash sampleCrypto [] validators := by
  unfold AttackContext.FullySigned
  rw [trusted_of_loaded h, stored_evaluated.2.2.2.2.2]
  intro i sigA sigB hA _ _ _
  have hsigned := signedPrecommit_signature fullSignatures
  have hcases : i = 0 ∨ i = 1 ∨ i = 2 ∨ i = 3 := by
    have := (List.getElem_of_getElem? hA).1
    simp only [commit, fullSignatures, length_cons, length_nil] at this
    omega
  rcases hcases with rfl | rfl | rfl | rfl
  all_goals
    cases hA
    exact ⟨.inl rfl, _, _, _, rfl, rfl, rfl, hsigned _ _⟩

theorem attack_keysMatch : attack.KeysMatch sampleCrypto := by
  intro entry hentry val key hval hkey
  obtain ⟨val', hval', rfl⟩ := mem_map.mp hentry
  cases hval
  simp only [listed, mem_cons, not_mem_nil, or_false] at hval'
  rcases hval' with rfl | rfl | rfl | rfl
  all_goals
    cases hkey
    rfl

/-- The attack names those who have signed. -/
theorem evidence_names_signers_attack :
    verifyEvidence hash sampleCrypto state stores (.lightClientAttack attack) = .ok () ∧
    ∃ (ctx : AttackContext) (items : List AbciEvidence),
      (lightClientAttack attack).abci sampleCrypto = .ok items ∧
      ∀ item ∈ items, ctx.Misbehaved (header 2) (commit 2 fullSignatures) hash sampleCrypto []
        item.address := by
  have hok :
      verifyEvidence hash sampleCrypto state stores (.lightClientAttack attack) = .ok () := by
    decide +kernel
  have hfree : hash.CollisionFree (validators.hashInputs hash) (validators.hashInputs hash) := by
    decide +kernel
  have htheorem :=
    @evidence_names_signers_iff hash sampleCrypto state stores (fun _ => validators)
      stores_trustworthy
  obtain ⟨-, hattack⟩ := htheorem.2 attack _ _ _ attack_wellFormed
    (parts_of_wellFormed attack_wellFormed) hfree
  obtain ⟨ctx, items, hctx, hitems, -, hnamed⟩ := hattack hok attack_keysMatch
  exact ⟨hok, ctx, items, hitems, hnamed (attack_fullySigned hctx)⟩

/-- Accepted evidence names a validator who has not signed, and an address of no validator; an
unknown address makes the verification panic. -/
theorem evidence_frames_validators :
    (framing.WellFormed hash ∧
      verifyEvidence hash sampleCrypto state stores (.lightClientAttack framing) = .ok () ∧
      ((lightClientAttack framing).abci sampleCrypto).toOption.map
          (fun items => items.any fun item => item.address = replicate 20 4) = some true ∧
      ∀ ctx : AttackContext, ctx.LoadedFrom stores framing →
        ¬ ctx.Misbehaved (header 2)
          (commit 2 [signature 1 1, signature 2 2, signature 3 3, signature 4 0]) hash sampleCrypto
          [] (replicate 20 4)) ∧
    (swapped.WellFormed hash ∧
      verifyEvidence hash sampleCrypto state stores (.lightClientAttack swapped) = .ok () ∧
      ((lightClientAttack swapped).abci sampleCrypto).toOption.map
          (fun items => items.any fun item => item.address = replicate 20 9) = some true ∧
      validators.lookup (replicate 20 9) = none) ∧
    (unknown.WellFormed hash ∧
      verifyEvidence hash sampleCrypto state stores (.lightClientAttack unknown) =
        .error .panic) := by
  obtain ⟨-, hframing, hswapped, hunknown⟩ := evidence_valid
  refine ⟨⟨?_, by decide +kernel, by decide +kernel, ?_⟩,
    ⟨?_, by decide +kernel, by decide +kernel, by decide +kernel⟩, ?_, by decide +kernel⟩
  · exact evidence_wellFormed hframing (by simp [signature]) rfl (by simp [listed, sampleValidator])
  · intro ctx hctx hmisbehaved
    unfold AttackContext.Misbehaved at hmisbehaved
    rw [trusted_of_loaded hctx, stored_evaluated.2.2.2.2.2] at hmisbehaved
    obtain ⟨key, haddress, -, -, i, sigA, -, idA, -, hA, -, -, hsigned, -⟩ := hmisbehaved
    obtain ⟨-, bytes, -, hverified⟩ := hsigned
    have hfour : sigA.signature = [4] := by
      cases key
      all_goals
        simp only [sampleCrypto, replicate_succ, cons.injEq, decide_eq_true_eq]
          at haddress hverified
        rw [hverified, haddress.1]
    have hmem := mem_of_getElem? hA
    simp only [commit, mem_cons, not_mem_nil, or_false] at hmem
    rcases hmem with rfl | rfl | rfl | rfl <;> cases hfour
  · exact evidence_wellFormed hswapped (by simp [fullSignatures, signature]) rfl
      (by simp [sampleValidator])
  · exact evidence_wellFormed hunknown (by simp [signature]) rfl (by simp [listed, sampleValidator])

end EvidenceSample

end NimbleChain.Tendermint
