import NimbleChain.Tendermint.BlockHash
import NimbleChain.Tendermint.CommitRoundTrip
import NimbleChain.Tendermint.LightVerifier

/-!
# Soundness of commit verification

A commit that `VerifyCommitLight` or `VerifyCommitLightTrusting` accepts carries precommits of
distinct validators with the required power. The power that `VerifyCommitLightTrusting` requires is
computed with the denominator of the trust level read as a signed integer. It can become negative,
and then the signature of a validator without power suffices.
-/

namespace NimbleChain.Tendermint

open Common Option Check Exact List Validator Nat Int

variable {H : HashFunction} {C : Crypto}

/-! ### Signatures that were counted -/

/-- The bytes that are signed for a precommit. -/
def precommitSignBytes (H : HashFunction) (chainID : Bytes) (height : Int64) (round : Int32)
    (blockID : BlockID) (timestamp : Time) : Option Bytes :=
  voteSignBytes H chainID ⟨precommitType, height, round, blockID, timestamp, [], 0, []⟩

/-- A signature is a precommit of a validator for the block of the commit. -/
def Precommits (H : HashFunction) (C : Crypto) (chainID : Bytes) (commit : Commit)
    (commitSig : CommitSig) (val : Validator) : Prop :=
  commitSig.forBlock = true ∧ ∃ key bytes, val.pubKey = some key ∧
    precommitSignBytes H chainID commit.height commit.round commit.blockID commitSig.timestamp =
      some bytes ∧
    C.verifySignature key bytes commitSig.signature = true

theorem blockID_of_forBlock {commitSig : CommitSig} (h : commitSig.forBlock = true)
    (id : BlockID) : commitSig.blockID id = some id := by
  have hflag : commitSig.blockIDFlag = blockIDFlagCommit := by simpa [CommitSig.forBlock] using h
  have hne : blockIDFlagCommit ≠ blockIDFlagAbsent := by decide
  simp [CommitSig.blockID, hflag, hne]

namespace ValidatorSet

variable {chainID : Bytes} {commit : Commit} {val : Validator} {needed height : Int64}
  {blockID : BlockID}

section

variable {idx : Nat} {commitSig : CommitSig} (hidx : idx < 2 ^ 32)
  (hsig : commit.signatures[idx]? = some commitSig)
  (h : checkSignature H C chainID commit idx commitSig val = .ok ())

include hidx hsig h

/-- A signature that passes is one of the key of the validator, as long as positions fit into 32
bits. -/
theorem signed_of_checkSignature : ∃ key id bytes, val.pubKey = some key ∧
    commitSig.blockID commit.blockID = some id ∧
    precommitSignBytes H chainID commit.height commit.round id commitSig.timestamp = some bytes ∧
    C.verifySignature key bytes commitSig.signature = true := by
  obtain ⟨bytes, hbytes, h⟩ := bind_eq_ok.mp h
  obtain ⟨key, hkey, h⟩ := bind_eq_ok.mp h
  rw [failIf_eq_ok] at h
  rw [orPanic_eq_ok, Commit.voteSignBytes, bind_eq_some_iff] at hbytes
  obtain ⟨vote, hvote, hbytes⟩ := hbytes
  unfold Commit.getVote at hvote
  split at hvote
  · cases hvote
  · rename_i hpos
    have hvalue : (Int32.ofNat idx).toInt.toNat = idx := by
      have hzero : (0 : Int32).toInt = 0 := rfl
      have hsize : Int32.size = 4294967296 := rfl
      rw [Int32.lt_iff_toInt_lt, hzero, Int32.toInt_ofNat', hsize, bmod_def] at hpos
      rw [Int32.toInt_ofNat', hsize, bmod_def]
      split at hpos <;> split <;> omega
    rw [hvalue, hsig] at hvote
    simp only [bind_eq_bind, bind_some] at hvote
    obtain ⟨id, hid, hvote⟩ := bind_eq_some_iff.mp hvote
    cases hvote
    exact ⟨key, id, bytes, orPanic_eq_ok.mp hkey, hid, hbytes, by simpa using h⟩

theorem precommits_of_checkSignature (hfor : commitSig.forBlock = true) :
    Precommits H C chainID commit commitSig val := by
  obtain ⟨key, id, bytes, hkey, hid, hbytes, hverified⟩ := signed_of_checkSignature hidx hsig h
  cases (blockID_of_forBlock hfor commit.blockID).symm.trans hid
  exact ⟨hfor, key, bytes, hkey, hbytes, hverified⟩

end

/-- The validators that a loop has counted: they have signed, and their power is the tally. -/
structure Counted (vals : ValidatorSet) (signed : Nat → Prop) (tallied : Int64) (S : Finset Nat) :
    Prop where
  subset : S ⊆ vals.indices
  signed : ∀ i ∈ S, signed i
  sum_eq : tallied.toInt = ∑ i ∈ S, vals.power i

variable {vals : ValidatorSet} {signed : Nat → Prop} {tallied : Int64} {S : Finset Nat}

theorem Counted.empty : Counted vals signed 0 ∅ :=
  ⟨Finset.empty_subset _, by simp, rfl⟩

/-- One more validator is counted. -/
theorem Counted.insert (hvals : vals.Admissible) (h : Counted vals signed tallied S) {i : Nat}
    (hi : i ∉ S) (hval : vals.validators[i]? = some (some val)) (hsigned : signed i) :
    Counted vals signed (tallied + val.votingPower) (insert i S) := by
  have hsubset : Insert.insert i S ⊆ vals.indices :=
    Finset.insert_subset (Finset.mem_range.mpr (List.getElem_of_getElem? hval).1) h.subset
  exact ⟨hsubset, (Finset.forall_mem_insert ..).mpr ⟨hsigned, h.signed⟩,
    hvals.toInt_add_power h.sum_eq (hvals.toInt_votingPower hval) hi hsubset⟩

/-! ### Verification by position -/

/-- The validator at a position has signed at the same position of a commit. -/
def SignedAt (H : HashFunction) (C : Crypto) (vals : ValidatorSet) (chainID : Bytes)
    (commit : Commit) (i : Nat) : Prop :=
  ∃ commitSig val, commit.signatures[i]? = some commitSig ∧
    vals.validators[i]? = some (some val) ∧ Precommits H C chainID commit commitSig val

section

variable (hvals : vals.Admissible) (hsigned : ∀ i commitSig val,
    commit.signatures[i]? = some commitSig → commitSig.forBlock = true →
    vals.validators[i]? = some (some val) →
    checkSignature H C chainID commit i commitSig val = .ok () → signed i)

include hvals hsigned

theorem reachVotingPower_counted (rest : List CommitSig) (idx : Nat)
    (hrest : commit.signatures.drop idx = rest) (hcounted : Counted vals signed tallied S)
    (hS : ∀ i ∈ S, i < idx)
    (h : vals.reachVotingPower H C chainID commit needed idx rest tallied = .ok ()) :
    ∃ tallied S, Counted vals signed tallied S ∧ needed < tallied := by
  induction rest generalizing idx tallied S with
  | nil => cases h
  | cons commitSig rest ih =>
    obtain ⟨hsig, hdrop⟩ := drop_eq_cons hrest
    have hweaken : ∀ i ∈ S, i < idx + 1 := fun i hi => lt_succ_of_lt (hS i hi)
    rw [reachVotingPower] at h
    split at h
    · exact ih (idx + 1) hdrop hcounted hweaken h
    · rename_i hfor
      obtain ⟨val, hval, h⟩ := bind_eq_ok.mp h
      obtain ⟨hcheck, h⟩ := seq_eq_ok.mp h
      have hget : vals.validators[idx]? = some (some val) := by
        simpa [join_eq_some_iff] using orPanic_eq_ok.mp hval
      have hnext := hcounted.insert hvals (fun hmem => lt_irrefl idx (hS idx hmem)) hget
        (hsigned idx commitSig val hsig (by simpa using hfor) hget hcheck)
      split at h
      · rename_i hreached
        exact ⟨_, _, hnext, hreached⟩
      · exact ih (idx + 1) hdrop hnext
          ((Finset.forall_mem_insert ..).mpr ⟨lt_succ_self idx, hweaken⟩) h

/-- What `VerifyCommitLight` counts is more than two thirds of the power. -/
theorem verifyCommitLight_counted
    (h : vals.verifyCommitLight H C chainID blockID height commit = .ok ()) :
    vals.size = commit.signatures.length ∧ commit.height = height ∧ commit.blockID = blockID ∧
      ∃ S ⊆ vals.indices, 2 * vals.total < 3 * ∑ i ∈ S, vals.power i ∧ ∀ i ∈ S, signed i := by
  obtain ⟨hcheck, h⟩ := seq_eq_ok.mp h
  simp only [checkCommit, seq_eq_ok, failIf_eq_ok, not_not] at hcheck
  obtain ⟨hsize, hheight, hblock⟩ := hcheck
  obtain ⟨total, htotal, hneeded⟩ := hvals.twoThirds_eq
  rw [htotal] at h
  obtain ⟨tallied, S, hcounted, henough⟩ :=
    reachVotingPower_counted hvals hsigned commit.signatures 0 rfl .empty (by simp) h
  refine ⟨hsize, hheight.symm, hblock.symm, S, hcounted.subset, ?_, hcounted.signed⟩
  rw [Int64.lt_iff_toInt_lt, hneeded, hcounted.sum_eq] at henough
  omega

end

/-- More than two thirds of the power have precommitted what `VerifyCommitLight` accepts. -/
theorem verifyCommitLight_sound (hvals : vals.Admissible)
    (hlength : commit.signatures.length ≤ 2 ^ 32)
    (h : vals.verifyCommitLight H C chainID blockID height commit = .ok ()) :
    commit.height = height ∧ commit.blockID = blockID ∧
      ∃ S ⊆ vals.indices, 2 * vals.total < 3 * ∑ i ∈ S, vals.power i ∧
        ∀ i ∈ S, SignedAt H C vals chainID commit i := by
  refine (verifyCommitLight_counted hvals ?_ h).2
  intro i commitSig val hsig hfor hval hcheck
  have hi : i < commit.signatures.length := (List.getElem_of_getElem? hsig).1
  exact ⟨commitSig, val, hsig, hval, precommits_of_checkSignature (by omega) hsig hcheck hfor⟩

/-- Any two commits that `VerifyCommitLight` accepts are both signed by validators with more than a
third of the power. -/
theorem commits_share_third (hvals : vals.Admissible) {commit' : Commit} {blockID' : BlockID}
    {height' : Int64} (hlength : commit.signatures.length ≤ 2 ^ 32)
    (hlength' : commit'.signatures.length ≤ 2 ^ 32)
    (h : vals.verifyCommitLight H C chainID blockID height commit = .ok ())
    (h' : vals.verifyCommitLight H C chainID blockID' height' commit' = .ok ()) :
    ∃ S ⊆ vals.indices, vals.total < 3 * ∑ i ∈ S, vals.power i ∧
      ∀ i ∈ S, SignedAt H C vals chainID commit i ∧ SignedAt H C vals chainID commit' i := by
  obtain ⟨-, -, S, hS, hpower, hsigned⟩ := verifyCommitLight_sound hvals hlength h
  obtain ⟨-, -, T, hT, hpower', hsigned'⟩ := verifyCommitLight_sound hvals hlength' h'
  -- both sets lie within the total power, so they overlap
  have hunion := Admissible.sum_le_total (Finset.union_subset hS hT)
  have hsplit := @Finset.sum_union_inter _ _ S T _ vals.power _
  refine ⟨S ∩ T, Finset.inter_subset_left.trans hS, by omega, ?_⟩
  intro i hi
  obtain ⟨hi, hi'⟩ := Finset.mem_inter.mp hi
  exact ⟨hsigned i hi, hsigned' i hi'⟩

/-- A commit of the four validators. -/
def fullCommit (byte : UInt8) : Commit :=
  ⟨1, 0, sampleBlockID byte, [1, 2, 3, 4].map fun key => ⟨blockIDFlagCommit, [], .zero, [key]⟩⟩

theorem fullCommits_share_third : ∃ S ⊆ sampleValidators.indices,
    sampleValidators.total < 3 * ∑ i ∈ S, sampleValidators.power i ∧
      ∀ i ∈ S, SignedAt (.polynomial 1) sampleCrypto sampleValidators [] (fullCommit 7) i ∧
        SignedAt (.polynomial 1) sampleCrypto sampleValidators [] (fullCommit 8) i := by
  have h : ∀ byte ∈ [7, 8], sampleValidators.verifyCommitLight (.polynomial 1) sampleCrypto []
      (sampleBlockID byte) 1 (fullCommit byte) = .ok () := by decide +kernel
  exact commits_share_third sampleValidators_admissible (by decide) (by decide) (h 7 (by simp))
    (h 8 (by simp))

/-- What `VerifyCommit` counts is reached by `VerifyCommitLight`. -/
theorem reachVotingPower_of_tallied {total : Int64} (rest : List CommitSig) (idx : Nat)
    (hbelow : tallied ≤ needed)
    (h : vals.talliedVotingPower H C chainID commit idx rest tallied = .ok total)
    (htotal : ¬ total ≤ needed) :
    vals.reachVotingPower H C chainID commit needed idx rest tallied = .ok () := by
  induction rest generalizing idx tallied with
  | nil =>
    cases h
    exact absurd hbelow htotal
  | cons commitSig rest ih =>
    rw [talliedVotingPower] at h
    rw [reachVotingPower]
    by_cases habsent : commitSig.absent = true
    · have hfor : commitSig.forBlock = false := by
        have hflag : commitSig.blockIDFlag = blockIDFlagAbsent := by
          simpa [CommitSig.absent] using habsent
        simp only [CommitSig.forBlock, hflag]
        rfl
      rw [if_pos habsent] at h
      rw [hfor]
      exact ih (idx + 1) hbelow h
    · rw [if_neg habsent] at h
      obtain ⟨val, hval, h⟩ := bind_eq_ok.mp h
      obtain ⟨_, hcheck, h⟩ := bind_eq_ok.mp h
      simp only [bind, Except.bind, hval, hcheck]
      cases hfor : commitSig.forBlock with
      | false =>
        rw [hfor] at h
        exact ih (idx + 1) hbelow h
      | true =>
        rw [hfor] at h
        simp only [Bool.not_true, Bool.false_eq_true, if_false, if_true] at h ⊢
        split
        · rfl
        · rename_i hnot
          exact ih (idx + 1) (Int64.not_lt.mp hnot) h

theorem verifyCommitLight_of_verifyCommit (hvals : vals.Admissible)
    (h : vals.verifyCommit H C chainID blockID height commit = .ok ()) :
    vals.verifyCommitLight H C chainID blockID height commit = .ok () := by
  unfold verifyCommitLight
  obtain ⟨hcheck, h⟩ := seq_eq_ok.mp h
  obtain ⟨total, htotal, hneeded⟩ := hvals.twoThirds_eq
  obtain ⟨total', htotal', h⟩ := bind_eq_ok.mp h
  cases htotal.symm.trans htotal'
  rw [seq_eq_ok, htotal]
  refine ⟨hcheck, ?_⟩
  obtain ⟨tallied, htallied, h⟩ := bind_eq_ok.mp h
  split at h
  · cases h
  · rename_i henough
    refine reachVotingPower_of_tallied commit.signatures 0 ?_ htallied henough
    rw [Int64.le_iff_toInt_le, hneeded, toInt_zero]
    omega

end ValidatorSet

/-! ### Trust levels -/

/-- An unsigned number read as a signed one. -/
theorem toInt_toInt64 (x : UInt64) : x.toInt64.toInt =
    if x.toNat < 2 ^ 63 then (x.toNat : Int) else x.toNat - 2 ^ 64 := by
  have hlt := x.toNat_lt
  have hval : x.toInt64.toInt = (x.toNat : Int).bmod (2 ^ 64) := by
    exact BitVec.toInt_eq_toNat_bmod _
  rw [hval, bmod_def]
  split <;> split <;> omega

/-- The power that is needed becomes negative: the denominator is negative as a signed number, and
the product is at least its absolute value. -/
def NegativeNeeded (total : Nat) (lvl : Fraction) : Prop :=
  2 ^ 63 ≤ lvl.denominator.toNat ∧ total * lvl.numerator.toNat < 2 ^ 63 ∧
    2 ^ 64 ≤ total * lvl.numerator.toNat + lvl.denominator.toNat

instance (total : Nat) (lvl : Fraction) : Decidable (NegativeNeeded total lvl) :=
  inferInstanceAs (Decidable (_ ∧ _))

variable {lvl : Fraction} {product maxClockDrift trustingPeriod : Int64} {T : Nat}
  {untrustedHeader trustedHeader : SignedHeader} {untrustedVals : ValidatorSet} {now : Time}
  (v : Option Validator)

/-- A trust level is between a third and one. -/
theorem validateTrustLevel_eq_ok (h : validateTrustLevel lvl = .ok ()) :
    lvl.denominator.toNat ≤ 3 * lvl.numerator.toNat ∧
      lvl.numerator.toNat ≤ lvl.denominator.toNat ∧ 0 < lvl.denominator.toNat := by
  rw [validateTrustLevel, failIf_eq_ok, not_or, not_or] at h
  obtain ⟨hthird, hone, hzero⟩ := h
  rw [gt_iff_lt, UInt64.lt_iff_toNat_lt] at hone
  have hne : lvl.denominator.toNat ≠ 0 := fun h => hzero (UInt64.toNat_inj.mp h)
  have hthird : ¬ lvl.numerator.toNat * 3 % 2 ^ 64 < lvl.denominator.toNat := hthird
  omega

theorem toInt_mul_numerator {total : Int64} (htotal : total.toInt = T)
    (hnum : lvl.numerator.toInt64.toInt = lvl.numerator.toNat)
    (hlt : T * lvl.numerator.toNat < 2 ^ 63) :
    (total * lvl.numerator.toInt64).toInt = (T * lvl.numerator.toNat : Nat) := by
  rw [toInt_mul, htotal, hnum, natCast_mul]
  rw [htotal, hnum, ← natCast_mul]
  unfold Fits
  omega

/-- The needed power for a numerator that is not negative as a signed number. -/
theorem trustNeeded_of_small (hproduct : product.toInt = (T * lvl.numerator.toNat : Nat)) :
    (NegativeNeeded T lvl → (product / lvl.denominator.toInt64).toInt < 0) ∧
    (¬ NegativeNeeded T lvl → (product / lvl.denominator.toInt64).toInt =
      (T * lvl.numerator.toNat / lvl.denominator.toNat : Nat)) := by
  have hfits := fits_toInt product
  have hden := toInt_toInt64 lvl.denominator
  have hdenlt := lvl.denominator.toNat_lt
  unfold Fits at hfits
  unfold NegativeNeeded
  generalize lvl.denominator.toInt64 = d at *
  generalize lvl.denominator.toNat = den at *
  generalize T * lvl.numerator.toNat = P at *
  by_cases hsmall : den < 2 ^ 63
  · rw [if_pos hsmall] at hden
    have hdiv : product.toInt.tdiv d.toInt = (P / den : Nat) := by
      rw [hproduct, hden]
      exact ofNat_tdiv P den
    have hle := div_le_self P den
    rw [toInt_div, hdiv]
    · exact ⟨fun hnegative => absurd hsmall (not_lt.mpr hnegative.1), fun _ => rfl⟩
    · unfold Fits
      generalize P / den = q at *
      omega
  · have hdiv : product.toInt.tdiv d.toInt = -(P / (2 ^ 64 - den) : Nat) := by
      have hneg : d.toInt = -((2 ^ 64 - den : Nat) : Int) := by omega
      rw [hproduct, hneg, Int.tdiv_neg]
      exact congrArg _ (ofNat_tdiv P _)
    have hle := div_le_self P (2 ^ 64 - den)
    rw [toInt_div, hdiv]
    · refine ⟨?_, ?_⟩
      · intro hnegative
        have hone : 0 < P / (2 ^ 64 - den) := div_pos (by omega) (by omega)
        generalize P / (2 ^ 64 - den) = q at *
        omega
      · intro hnot
        rw [div_eq_of_lt (by omega), div_eq_of_lt (by omega)]
        rfl
    · unfold Fits
      generalize P / (2 ^ 64 - den) = q at *
      omega

/-- A numerator that is negative as a signed number asks for all power. -/
theorem trustNeeded_of_large (hone : lvl.numerator.toNat ≤ lvl.denominator.toNat)
    (hlarge : 2 ^ 63 ≤ lvl.numerator.toNat)
    (hproduct : product.toInt = -(T * (2 ^ 64 - lvl.numerator.toNat) : Nat))
    (hfits : -9223372036854775807 ≤ product.toInt) :
    (T : Int) ≤ (product / lvl.denominator.toInt64).toInt := by
  have hden := toInt_toInt64 lvl.denominator
  have hdenlt := lvl.denominator.toNat_lt
  generalize lvl.denominator.toInt64 = d at *
  generalize lvl.denominator.toNat = den at *
  generalize lvl.numerator.toNat = num at *
  have hneg : d.toInt = -((2 ^ 64 - den : Nat) : Int) := by omega
  have hdiv : product.toInt.tdiv d.toInt = (T * (2 ^ 64 - num) / (2 ^ 64 - den) : Nat) := by
    rw [hproduct, hneg, Int.neg_tdiv_neg]
    exact ofNat_tdiv _ _
  have hle := div_le_self (T * (2 ^ 64 - num)) (2 ^ 64 - den)
  have hge : T ≤ T * (2 ^ 64 - num) / (2 ^ 64 - den) := by
    rw [le_div_iff_mul_le (by omega)]
    exact mul_le_mul_left T (by omega)
  rw [toInt_div, hdiv]
  · exact Int.ofNat_le.mpr hge
  · unfold Fits
    generalize T * (2 ^ 64 - num) / (2 ^ 64 - den) = q at *
    omega

/-- The power that `VerifyCommitLightTrusting` needs is at least all there is, the intended one, or
negative. -/
theorem trustNeeded_cases {total : Int64} (htotal : total.toInt = T)
    (hlvl : validateTrustLevel lvl = .ok ())
    (h : safeMul total lvl.numerator.toInt64 = some product) :
    (T : Int) ≤ (product / lvl.denominator.toInt64).toInt ∨
    (product / lvl.denominator.toInt64).toInt =
      (T * lvl.numerator.toNat / lvl.denominator.toNat : Nat) ∨
    NegativeNeeded T lvl := by
  obtain ⟨hthird, hone, hpos⟩ := validateTrustLevel_eq_ok hlvl
  have hnum := toInt_toInt64 lvl.numerator
  have hnumlt := lvl.numerator.toNat_lt
  rcases Nat.eq_zero_or_pos T with rfl | hT
  · obtain rfl : total = 0 := Int64.toInt_inj.mp htotal
    obtain rfl : product = 0 := by simpa [safeMul] using h.symm
    have hzero : (0 : Int64).toInt = (0 * lvl.numerator.toNat : Nat) := by
      rw [Nat.zero_mul]
      rfl
    by_cases hnegative : NegativeNeeded 0 lvl
    · exact .inr (.inr hnegative)
    · exact .inr (.inl ((trustNeeded_of_small hzero).2 hnegative))
  have hne : lvl.numerator.toInt64 ≠ 0 := by
    intro hzero
    rw [hzero, toInt_zero] at hnum
    split at hnum <;> omega
  rw [safeMul_eq (by omega) hne, htotal] at h
  split at h
  · rename_i hfits
    cases h
    by_cases hsmall : lvl.numerator.toNat < 2 ^ 63
    · rw [if_pos hsmall] at hnum
      rw [hnum, natAbs_natCast, ← natCast_mul] at hfits
      have hproduct := toInt_mul_numerator htotal hnum (by omega)
      by_cases hnegative : NegativeNeeded T lvl
      · exact .inr (.inr hnegative)
      · exact .inr (.inl ((trustNeeded_of_small hproduct).2 hnegative))
    · have hneg : lvl.numerator.toInt64.toInt = -((2 ^ 64 - lvl.numerator.toNat : Nat) : Int) := by
        omega
      rw [hneg, natAbs_neg, natAbs_natCast, ← natCast_mul] at hfits
      have hproduct : (total * lvl.numerator.toInt64).toInt =
          -(T * (2 ^ 64 - lvl.numerator.toNat) : Nat) := by
        rw [toInt_mul, htotal, hneg, Int.mul_neg, natCast_mul]
        rw [htotal, hneg, Int.mul_neg, ← natCast_mul]
        unfold Fits
        omega
      exact .inl (trustNeeded_of_large hone (by omega) hproduct (by omega))
  · cases h

/-! ### Verification by address -/

namespace ValidatorSet

variable {address chainID : Bytes} {i : Nat} {val : Validator} {commit : Commit} {lvl : Fraction}

theorem getByAddress_eq_some {l : List (Option Validator)} {idx : Nat}
    (h : getByAddress address idx l = .ok (some (i, val))) :
    idx ≤ i ∧ l[i - idx]? = some (some val) ∧ val.address = address := by
  induction l generalizing idx with
  | nil => cases h
  | cons entry rest ih =>
    cases entry with
    | none => cases h
    | some found =>
      rw [getByAddress] at h
      split at h
      · rename_i haddress
        cases Except.ok.inj h
        exact ⟨le_refl _, by simp, haddress⟩
      · obtain ⟨hle, hget, haddress⟩ := ih h
        refine ⟨by omega, ?_, haddress⟩
        have hsub : i - idx = (i - (idx + 1)) + 1 := by omega
        rw [hsub, getElem?_cons_succ, hget]

/-- A search among validators ends, and finds one with the address if there is one. -/
theorem exists_getByAddress {l : List (Option Validator)} (address : Bytes) (idx : Nat)
    (h : ∀ entry ∈ l, ∃ val, entry = some val) :
    ∃ found, getByAddress address idx l = .ok found ∧
      (found = none → ∀ val, some val ∈ l → val.address ≠ address) := by
  induction l generalizing idx with
  | nil => exact ⟨none, rfl, by simp⟩
  | cons entry l ih =>
    obtain ⟨⟨val, rfl⟩, hrest⟩ := forall_mem_cons.mp h
    rw [getByAddress]
    split
    · exact ⟨_, rfl, by simp⟩
    · rename_i hother
      obtain ⟨found, hfound, hnone⟩ := ih (idx + 1) hrest
      exact ⟨found, hfound, fun h val hval => by
        rcases mem_cons.mp hval with heq | hval
        · exact some.inj heq ▸ hother
        · exact hnone h val hval⟩

variable {vals : ValidatorSet} {tallied : Int64} {S : Finset Nat}

theorem validators_of_getByAddress
    (h : getByAddress address 0 vals.validators = .ok (some (i, val))) :
    vals.validators[i]? = some (some val) :=
  (getByAddress_eq_some h).2.1

/-- A signature of the commit leads by its address to the validator at a position, who has signed
it. -/
def SignedBy (H : HashFunction) (C : Crypto) (vals : ValidatorSet) (chainID : Bytes)
    (commit : Commit) (i : Nat) : Prop :=
  ∃ commitSig ∈ commit.signatures, ∃ val,
    getByAddress commitSig.validatorAddress 0 vals.validators = .ok (some (i, val)) ∧
    Precommits H C chainID commit commitSig val

theorem reachTrustLevel_sound (hvals : vals.Admissible)
    (hlength : commit.signatures.length ≤ 2 ^ 32) {needed : Int64} (rest : List CommitSig)
    (idx : Nat) (hrest : commit.signatures.drop idx = rest) {seen : List (Int32 × Nat)}
    (hcounted : Counted vals (SignedBy H C vals chainID commit) tallied S)
    (hseen : ∀ i ∈ S, (seen.lookup (Int32.ofNat i)).isSome)
    (h : vals.reachTrustLevel H C chainID commit needed idx rest seen tallied = .ok ()) :
    ∃ tallied S, Counted vals (SignedBy H C vals chainID commit) tallied S ∧ S.Nonempty ∧
      needed < tallied := by
  induction rest generalizing idx seen tallied S with
  | nil => cases h
  | cons commitSig rest ih =>
    obtain ⟨hsig, hdrop⟩ := drop_eq_cons hrest
    rw [reachTrustLevel] at h
    split at h
    · exact ih (idx + 1) hdrop hcounted hseen h
    · rename_i hfor
      obtain ⟨found, hfound, h⟩ := bind_eq_ok.mp h
      cases found with
      | none => exact ih (idx + 1) hdrop hcounted hseen h
      | some pair =>
        obtain ⟨valIdx, val⟩ := pair
        simp only at h
        split at h
        · cases h
        · rename_i hunseen
          obtain ⟨hcheck, h⟩ := seq_eq_ok.mp h
          have hget := validators_of_getByAddress hfound
          have hidx : idx < commit.signatures.length := (List.getElem_of_getElem? hsig).1
          have hprecommits :=
            precommits_of_checkSignature (by omega) hsig hcheck (by simpa using hfor)
          have hfresh : valIdx ∉ S := by
            intro hmem
            have hsome := hseen valIdx hmem
            rw [hunseen] at hsome
            cases hsome
          have hnext := hcounted.insert hvals hfresh hget
            ⟨commitSig, mem_of_getElem? hsig, val, hfound, hprecommits⟩
          split at h
          · rename_i hreached
            exact ⟨_, _, hnext, Finset.insert_nonempty valIdx S, hreached⟩
          · refine ih (idx + 1) hdrop hnext ?_ h
            intro i hi
            rw [lookup_cons]
            split
            · rfl
            · rename_i hne
              rcases Finset.mem_insert.mp hi with rfl | hi
              · simp at hne
              · exact hseen i hi

/-- A validator without power that `GetByAddress` finds. -/
def FindsPowerless (vals : ValidatorSet) : Prop :=
  ∃ address i val key, getByAddress address 0 vals.validators = .ok (some (i, val)) ∧
    val.votingPower = 0 ∧ val.pubKey = some key

/-- What `VerifyCommitLightTrusting` is meant to establish: validators with more than the trust
level have precommitted. -/
def TrustLevelSigned (H : HashFunction) (C : Crypto) (vals : ValidatorSet) (chainID : Bytes)
    (commit : Commit) (lvl : Fraction) : Prop :=
  ∃ S ⊆ vals.indices,
    vals.total * lvl.numerator.toNat / lvl.denominator.toNat < ∑ i ∈ S, vals.power i ∧
      ∀ i ∈ S, SignedBy H C vals chainID commit i

theorem verifyCommitLightTrusting_sound (hvals : vals.Admissible)
    (hlvl : validateTrustLevel lvl = .ok ())
    (hneeded : ¬ (NegativeNeeded vals.total lvl ∧ vals.FindsPowerless))
    (hlength : commit.signatures.length ≤ 2 ^ 32)
    (h : vals.verifyCommitLightTrusting H C chainID commit lvl = .ok ()) :
    TrustLevelSigned H C vals chainID commit lvl := by
  obtain ⟨-, h⟩ := seq_eq_ok.mp h
  obtain ⟨total, htotal, h⟩ := bind_eq_ok.mp h
  obtain ⟨total', htotal', hvalue⟩ := hvals.totalVotingPower_eq
  cases htotal'.symm.trans htotal
  split at h
  · cases h
  · rename_i product hproduct
    obtain ⟨tallied, S, hcounted, hnonempty, henough⟩ :=
      reachTrustLevel_sound hvals hlength commit.signatures 0 rfl .empty (by simp) h
    have hle := Admissible.sum_le_total hcounted.subset
    rw [Int64.lt_iff_toInt_lt, hcounted.sum_eq] at henough
    refine ⟨S, hcounted.subset, ?_, hcounted.signed⟩
    rcases trustNeeded_cases hvalue hlvl hproduct with hall | hexact | hnegative
    · omega
    · rw [hexact] at henough
      exact Int.ofNat_lt.mp henough
    · -- nothing is needed, so one validator with power suffices
      have hzero : vals.total * lvl.numerator.toNat / lvl.denominator.toNat = 0 := by
        have hdef := hnegative
        unfold NegativeNeeded at hdef
        exact div_eq_of_lt (by omega)
      obtain ⟨i, hi⟩ := hnonempty
      obtain ⟨commitSig, -, val, hfound, -, key, -, hkey, -⟩ := hcounted.signed i hi
      have hget := validators_of_getByAddress hfound
      have hpower := hvals.toInt_votingPower hget
      have hpos : 0 < vals.power i := by
        rw [pos_iff_ne_zero]
        intro hnone
        rw [hnone] at hpower
        exact hneeded ⟨hnegative, commitSig.validatorAddress, i, val, key, hfound,
          Int64.toInt_inj.mp hpower, hkey⟩
      have hsingle := Finset.single_le_sum (f := vals.power) (fun _ _ => zero_le _) hi
      omega

/-- A commit with one signature. -/
def loneCommit (address : Bytes) : Commit :=
  ⟨1, 0, .empty, [⟨blockIDFlagCommit, address, .zero, []⟩]⟩

/-- A scheme in which every signature verifies. -/
def acceptingCrypto : Crypto :=
  ⟨fun _ => [], fun _ _ _ => true⟩

/-- If the needed power is negative, one signature of a validator without power suffices. -/
theorem exists_unsound (H : HashFunction) (hvals : vals.Admissible)
    (hlvl : validateTrustLevel lvl = .ok ()) (hnegative : NegativeNeeded vals.total lvl)
    (hpowerless : vals.FindsPowerless) :
    ∃ commit : Commit, commit.signatures.length ≤ 2 ^ 32 ∧
      vals.verifyCommitLightTrusting H acceptingCrypto [] commit lvl = .ok () ∧
      ¬ TrustLevelSigned H acceptingCrypto vals [] commit lvl := by
  obtain ⟨address, i, val, key, hfound, hzero, hkey⟩ := hpowerless
  refine ⟨loneCommit address, by simp [loneCommit], ?_, ?_⟩
  · obtain ⟨total, htotal, hvalue⟩ := hvals.totalVotingPower_eq
    obtain ⟨-, hone, hpos⟩ := validateTrustLevel_eq_ok hlvl
    have hnum := toInt_toInt64 lvl.numerator
    have hdef := hnegative
    unfold NegativeNeeded at hdef
    have hdenlt := lvl.denominator.toNat_lt
    have hT : 0 < vals.total := by
      rw [pos_iff_ne_zero]
      intro hnone
      rw [hnone] at hdef
      omega
    have hle : lvl.numerator.toNat ≤ vals.total * lvl.numerator.toNat := Nat.le_mul_of_pos_left _ hT
    rw [if_pos (by omega)] at hnum
    have hne : lvl.numerator.toInt64 ≠ 0 := by
      intro hnone
      rw [hnone, toInt_zero] at hnum
      have hnum : lvl.numerator.toNat = 0 := by omega
      rw [hnum, Nat.mul_zero] at hdef
      omega
    have hproduct := toInt_mul_numerator hvalue hnum hdef.2.1
    have hmul : safeMul total lvl.numerator.toInt64 = some (total * lvl.numerator.toInt64) := by
      rw [safeMul_eq (by omega) hne, if_pos]
      rw [hvalue, hnum, natAbs_natCast, ← natCast_mul]
      omega
    have hreached : (total * lvl.numerator.toInt64) / lvl.denominator.toInt64 <
        0 + val.votingPower := by
      rw [hzero, Int64.add_zero, Int64.lt_iff_toInt_lt, toInt_zero]
      exact (trustNeeded_of_small hproduct).1 hnegative
    obtain ⟨bytes, hbytes⟩ : ∃ bytes, (loneCommit address).voteSignBytes H [] (Int32.ofNat 0) =
        some bytes := ⟨_, rfl⟩
    have hcheck : checkSignature H acceptingCrypto [] (loneCommit address) 0
        ⟨blockIDFlagCommit, address, .zero, []⟩ val = .ok () := by
      rw [checkSignature, hbytes, hkey]
      rfl
    have hden : ¬ lvl.denominator = 0 := by
      intro hnone
      rw [hnone] at hpos
      exact absurd hpos (by decide)
    unfold verifyCommitLightTrusting
    rw [seq_eq_ok, failIf_eq_ok, htotal]
    refine ⟨hden, ?_⟩
    simp only [bind, Except.bind, hmul]
    change reachTrustLevel H acceptingCrypto vals [] (loneCommit address) _ 0
      [⟨blockIDFlagCommit, address, .zero, []⟩] [] 0 = .ok ()
    rw [reachTrustLevel]
    simp only [CommitSig.forBlock, decide_true, Bool.not_true, Bool.false_eq_true, if_false, hfound,
      bind, Except.bind, lookup_nil, hcheck, gt_iff_lt, hreached, if_true]
    rfl
  · rintro ⟨S, -, henough, hsigned⟩
    have hnone : ∑ j ∈ S, vals.power j = 0 := by
      apply Finset.sum_eq_zero
      intro j hj
      obtain ⟨commitSig, hmem, val', hfound', -⟩ := hsigned j hj
      rw [loneCommit, mem_singleton] at hmem
      subst hmem
      obtain ⟨rfl, rfl⟩ := Prod.mk.inj (some.inj (Except.ok.inj (hfound.symm.trans hfound')))
      rw [power_eq (validators_of_getByAddress hfound), hzero]
      rfl
    rw [hnone] at henough
    exact not_lt_zero _ henough

/-! ### A correct validator has signed -/

/-- Validators with more power than the faulty ones include a correct one. -/
theorem exists_correct {S faulty : Finset Nat}
    (h : ∑ i ∈ faulty, vals.power i < ∑ i ∈ S, vals.power i) : ∃ i ∈ S, i ∉ faulty := by
  by_contra hnone
  have hsubset : S ⊆ faulty := by
    intro i hi
    by_contra hi'
    exact hnone ⟨i, hi, hi'⟩
  have hle := Finset.sum_le_sum_of_subset (f := vals.power) hsubset
  omega

end ValidatorSet

/-- What the hash of a validator set covers of a validator. -/
def Validator.voter : Option (Option PubKey × Int64) :=
  v.map fun v => (v.pubKey, v.votingPower)

/-- `Validator.Bytes` of the key and the power. -/
def voterBytes (v : Option (Option PubKey × Int64)) : Option Bytes := do
  let v ← v
  let pk ← v.1.bind PubKey.marshal
  return Wire.marshal [⟨1, [.bytes pk]⟩, ⟨2, Wire.scalar (int64 v.2)⟩]

theorem voterBytes_voter : voterBytes (voter v) =
    bytes v := by
  cases v <;> rfl

theorem voterBytes_faithful {v w : Option (Option PubKey × Int64)} {b : Bytes}
    (hv : voterBytes v = some b) (hw : voterBytes w = some b) : v = w := by
  obtain ⟨⟨key, power⟩, rfl, hv⟩ := bind_eq_some_iff.mp hv
  obtain ⟨⟨key', power'⟩, rfl, hw⟩ := bind_eq_some_iff.mp hw
  obtain ⟨pk, hpk, hv⟩ := bind_eq_some_iff.mp hv
  obtain ⟨pk', hpk', hw⟩ := bind_eq_some_iff.mp hw
  obtain ⟨k, rfl, hk⟩ := bind_eq_some_iff.mp hpk
  obtain ⟨k', rfl, hk'⟩ := bind_eq_some_iff.mp hpk'
  have hslots := Wire.eq_of_marshal_eq ((some.inj hv).trans (some.inj hw).symm) rfl (by simp)
  obtain ⟨rfl, rfl⟩ : pk = pk' ∧ power = power' := by simpa using hslots
  rw [PubKey.marshal_faithful k k' pk hk hk']

namespace ValidatorSet

variable {vals vals' : ValidatorSet}

/-- The strings that are hashed for a validator set. -/
def hashInputs (H : HashFunction) (vals : ValidatorSet) : List Bytes :=
  (vals.validators.mapM bytes).elim [] (merkleInputs H)

/-- Validator sets with one hash have the same keys and powers. -/
theorem voters_eq_of_hash {hash : Bytes}
    (hfree : H.CollisionFree (vals.hashInputs H) (vals'.hashInputs H))
    (h : vals.hash H = some hash) (h' : vals'.hash H = some hash) :
    vals.validators.map voter = vals'.validators.map voter := by
  have hmap : ∀ l : List (Option Validator), l.mapM bytes = (l.map voter).mapM voterBytes := by
    intro l
    rw [mapM_map]
    exact congrArg (mapM · l) (funext fun v => (voterBytes_voter v).symm)
  unfold hashInputs at hfree
  unfold ValidatorSet.hash at h h'
  rw [hmap] at h h'
  rw [hmap, hmap] at hfree
  exact eq_of_mapM_root_eq (fun _ _ _ _ _ => voterBytes_faithful) hfree h h'

section

variable (h : vals.validators.map voter = vals'.validators.map voter)

include h

/-- The validator of the other set with the same key and power. -/
theorem exists_of_voters_eq {i : Nat} {val : Validator}
    (hval : vals.validators[i]? = some (some val)) :
    ∃ val', vals'.validators[i]? = some (some val') ∧ val'.pubKey = val.pubKey ∧
      val'.votingPower = val.votingPower := by
  have hget := congrArg (·[i]?) h
  simp only [getElem?_map, hval, map_some] at hget
  obtain ⟨entry, hentry, hvoter⟩ := map_eq_some_iff.mp hget.symm
  cases entry with
  | none => cases hvoter
  | some val' =>
    obtain ⟨hkey, hpower⟩ := Prod.mk.inj (some.inj hvoter)
    exact ⟨val', hentry, hkey, hpower⟩

theorem power_of_voters_eq (i : Nat) : vals.power i = vals'.power i := by
  have hpower : ∀ vals : ValidatorSet, vals.power i =
      ((vals.validators.map voter)[i]?).elim 0
        fun v => v.elim 0 fun v => v.2.toInt.toNat := by
    intro vals
    rw [power, getElem?_map]
    cases vals.validators[i]? with
    | none => rfl
    | some entry => cases entry <;> rfl
  rw [hpower, hpower, h]

theorem size_of_voters_eq : vals.size = vals'.size := by
  have hlength := congrArg length h
  rwa [length_map, length_map] at hlength

theorem total_of_voters_eq : vals.total = vals'.total := by
  rw [total, total, indices, indices, size_of_voters_eq h]
  exact Finset.sum_congr rfl fun i _ => power_of_voters_eq h i

end

theorem Admissible.of_voters_eq (hvals : vals.Admissible)
    (h : vals.validators.map voter = vals'.validators.map voter) :
    vals'.Admissible where
  nonneg entry hentry := by
    obtain ⟨i, hi⟩ := mem_iff_getElem?.mp hentry
    have hlt : i < vals.size := by
      rw [size_of_voters_eq h]
      exact (List.getElem_of_getElem? hi).1
    obtain ⟨val, hval, hpower⟩ := hvals.exists_val hlt
    obtain ⟨val', hval', -, hsame⟩ := exists_of_voters_eq h hval
    refine ⟨val', by simpa using hi.symm.trans hval', ?_⟩
    rw [hsame]
    omega
  total_le := total_of_voters_eq h ▸ hvals.total_le

end ValidatorSet

/-! ### Headers -/

theorem SignedHeader.validateBasic_eq_ok {sh : SignedHeader} {chainID : Bytes}
    (h : sh.validateBasic H chainID = .ok ()) : ∃ header commit, sh.header = some header ∧
      sh.commit = some commit ∧ header.hash H = commit.blockID.hash := by
  unfold validateBasic at h
  split at h
  · cases h
  · cases h
  · rename_i header commit hheader hcommit
    simp only [seq_eq_ok, failIf_eq_ok, not_not] at h
    exact ⟨header, commit, hheader, hcommit, h.2.2.2.2⟩

theorem cantBeTrusted_eq_ok {check : Check} : cantBeTrusted check = .ok () ↔ check = .ok () := by
  unfold cantBeTrusted
  split
  · split <;> exact ⟨nofun, nofun⟩
  · exact Iff.rfl

theorem verifyNewHeaderAndVals_eq_ok {trusted : Header} (h : verifyNewHeaderAndVals H
      untrustedHeader untrustedVals trusted now maxClockDrift = .ok ()) :
    ∃ header commit, untrustedHeader.header = some header ∧ untrustedHeader.commit = some commit ∧
      header.hash H = commit.blockID.hash ∧
      untrustedVals.hash H = some header.validatorsHash := by
  obtain ⟨hbasic, h⟩ := seq_eq_ok.mp h
  obtain ⟨header, commit, hheader, hcommit, hhash⟩ :=
    SignedHeader.validateBasic_eq_ok (within_eq_ok.mp hbasic)
  obtain ⟨header', hheader', h⟩ := bind_eq_ok.mp h
  rw [orPanic_eq_ok, hheader] at hheader'
  cases hheader'
  rw [seq_eq_ok, seq_eq_ok, seq_eq_ok] at h
  obtain ⟨-, -, -, h⟩ := h
  obtain ⟨hash, hvals, h⟩ := bind_eq_ok.mp h
  rw [failIf_eq_ok, not_not] at h
  exact ⟨header, commit, hheader, hcommit, hhash, h ▸ orPanic_eq_ok.mp hvals⟩

/-- What `VerifyNonAdjacent` has checked. -/
theorem verifyNonAdjacent_eq_ok {trustedVals : ValidatorSet} (h : verifyNonAdjacent H C
      trustedHeader trustedVals untrustedHeader untrustedVals trustingPeriod now maxClockDrift lvl =
      .ok ()) :
    ∃ trusted header commit, trustedHeader.header = some trusted ∧
      untrustedHeader.header = some header ∧ untrustedHeader.commit = some commit ∧
      header.hash H = commit.blockID.hash ∧
      trustedVals.verifyCommitLightTrusting H C trusted.chainID commit lvl = .ok () := by
  obtain ⟨_, -, h⟩ := bind_eq_ok.mp h
  obtain ⟨trusted, htrusted, h⟩ := bind_eq_ok.mp h
  rw [seq_eq_ok, seq_eq_ok, seq_eq_ok] at h
  obtain ⟨-, -, hnew, h⟩ := h
  obtain ⟨header, commit, hheader, hcommit, hhash, -⟩ :=
    verifyNewHeaderAndVals_eq_ok (within_eq_ok.mp hnew)
  obtain ⟨commit', hcommit', h⟩ := bind_eq_ok.mp h
  rw [orPanic_eq_ok, hcommit] at hcommit'
  cases hcommit'
  obtain ⟨htrusting, -⟩ := seq_eq_ok.mp h
  exact ⟨trusted, header, commit, orPanic_eq_ok.mp htrusted, hheader, hcommit, hhash,
    cantBeTrusted_eq_ok.mp htrusting⟩

/-- What `VerifyAdjacent` has checked. -/
theorem verifyAdjacent_eq_ok (h : verifyAdjacent H C trustedHeader untrustedHeader untrustedVals
      trustingPeriod now maxClockDrift = .ok ()) :
    ∃ trusted header commit, trustedHeader.header = some trusted ∧
      untrustedHeader.header = some header ∧ untrustedHeader.commit = some commit ∧
      header.hash H = commit.blockID.hash ∧
      untrustedVals.hash H = some trusted.nextValidatorsHash ∧
      untrustedVals.verifyCommitLight H C trusted.chainID commit.blockID header.height commit =
        .ok () := by
  obtain ⟨untrusted, huntrusted, h⟩ := bind_eq_ok.mp h
  obtain ⟨trusted, htrusted, h⟩ := bind_eq_ok.mp h
  rw [seq_eq_ok, seq_eq_ok, seq_eq_ok] at h
  obtain ⟨-, -, hnew, h⟩ := h
  obtain ⟨header, commit, hheader, hcommit, hhash, hvals⟩ :=
    verifyNewHeaderAndVals_eq_ok (within_eq_ok.mp hnew)
  rw [orPanic_eq_ok, hheader] at huntrusted
  obtain rfl := some.inj huntrusted
  obtain ⟨hnext, h⟩ := seq_eq_ok.mp h
  rw [failIf_eq_ok, not_not] at hnext
  obtain ⟨commit', hcommit', h⟩ := bind_eq_ok.mp h
  rw [orPanic_eq_ok, hcommit] at hcommit'
  obtain rfl := some.inj hcommit'
  exact ⟨trusted, header, commit, orPanic_eq_ok.mp htrusted, hheader, hcommit, hhash,
    hnext ▸ hvals, within_eq_ok.mp h⟩

namespace ValidatorSet

variable {vals : ValidatorSet}

/-- Less than a third of the power is faulty. -/
def FaultyBelowThird (vals : ValidatorSet) (faulty : Finset Nat) : Prop :=
  3 * ∑ i ∈ faulty, vals.power i < vals.total

/-- A trust level of a third leads to a correct validator. -/
theorem TrustLevelSigned.exists_correct {lvl : Fraction} (hlvl : validateTrustLevel lvl = .ok ())
    {chainID : Bytes} {commit : Commit} (h : TrustLevelSigned H C vals chainID commit lvl)
    {faulty : Finset Nat} (hfaulty : vals.FaultyBelowThird faulty) :
    ∃ i, i ∉ faulty ∧ SignedBy H C vals chainID commit i := by
  obtain ⟨S, -, henough, hsigned⟩ := h
  obtain ⟨hthird, -, hpos⟩ := validateTrustLevel_eq_ok hlvl
  unfold FaultyBelowThird at hfaulty
  have hle : vals.total / 3 ≤ vals.total * lvl.numerator.toNat / lvl.denominator.toNat := by
    rw [le_div_iff_mul_le hpos]
    calc vals.total / 3 * lvl.denominator.toNat
        ≤ vals.total / 3 * (3 * lvl.numerator.toNat) := mul_le_mul_left _ hthird
      _ = vals.total / 3 * 3 * lvl.numerator.toNat := (mul_assoc _ _ _).symm
      _ ≤ vals.total * lvl.numerator.toNat :=
        mul_le_mul_right _ (div_mul_le_self vals.total 3)
  have hmore : ∑ i ∈ faulty, vals.power i < ∑ i ∈ S, vals.power i := by omega
  obtain ⟨i, hi, hcorrect⟩ := ValidatorSet.exists_correct hmore
  exact ⟨i, hcorrect, hsigned i hi⟩

/-- What `VerifyCommit` accepts is accepted by `VerifyCommitLight`, and what that accepts is
precommitted by more than two thirds of the power. `VerifyCommitLightTrusting` is sound for a set
and a trust level exactly if the needed power is not negative or no validator without power can be
found. Then a header verified against a trusted one is signed by a correct validator of the trusted
set, or of the next one. -/
theorem commit_verification_sound (H : HashFunction) {vals : ValidatorSet}
    (hvals : vals.Admissible) {lvl : Fraction} (hlvl : validateTrustLevel lvl = .ok ()) :
    (∀ C chainID blockID height commit,
      vals.verifyCommit H C chainID blockID height commit = .ok () →
      vals.verifyCommitLight H C chainID blockID height commit = .ok ()) ∧
    (∀ C chainID blockID height commit, commit.signatures.length ≤ 2 ^ 32 →
      vals.verifyCommitLight H C chainID blockID height commit = .ok () →
      commit.height = height ∧ commit.blockID = blockID ∧
        ∃ S ⊆ vals.indices, 2 * vals.total < 3 * ∑ i ∈ S, vals.power i ∧
          ∀ i ∈ S, SignedAt H C vals chainID commit i) ∧
    ((∀ C chainID commit, commit.signatures.length ≤ 2 ^ 32 →
      vals.verifyCommitLightTrusting H C chainID commit lvl = .ok () →
      TrustLevelSigned H C vals chainID commit lvl) ↔
        ¬ (NegativeNeeded vals.total lvl ∧ vals.FindsPowerless)) ∧
    (¬ (NegativeNeeded vals.total lvl ∧ vals.FindsPowerless) →
      ∀ C trustedHeader untrustedHeader untrustedVals trustingPeriod now maxClockDrift commit
        faulty,
      verifyNonAdjacent H C trustedHeader vals untrustedHeader untrustedVals trustingPeriod now
        maxClockDrift lvl = .ok () →
      untrustedHeader.commit = some commit → commit.signatures.length ≤ 2 ^ 32 →
      vals.FaultyBelowThird faulty →
      ∃ trusted header, trustedHeader.header = some trusted ∧
        untrustedHeader.header = some header ∧ commit.blockID.hash = header.hash H ∧
        ∃ i, i ∉ faulty ∧ SignedBy H C vals trusted.chainID commit i) ∧
    ∀ C trustedHeader untrustedHeader untrustedVals trustingPeriod now maxClockDrift trusted commit
      faulty,
      verifyAdjacent H C trustedHeader untrustedHeader untrustedVals trustingPeriod now
        maxClockDrift = .ok () →
      trustedHeader.header = some trusted → vals.hash H = some trusted.nextValidatorsHash →
      H.CollisionFree (vals.hashInputs H) (untrustedVals.hashInputs H) →
      untrustedHeader.commit = some commit → commit.signatures.length ≤ 2 ^ 32 →
      vals.FaultyBelowThird faulty →
      ∃ header, untrustedHeader.header = some header ∧ commit.blockID.hash = header.hash H ∧
        ∃ i, i ∉ faulty ∧ SignedAt H C vals trusted.chainID commit i := by
  refine ⟨?_, ?_, ⟨?_, ?_⟩, ?_, ?_⟩
  · exact fun C chainID blockID height commit h => verifyCommitLight_of_verifyCommit hvals h
  · exact fun C chainID blockID height commit hlength h => verifyCommitLight_sound hvals hlength h
  · rintro hsound ⟨hnegative, hpowerless⟩
    obtain ⟨commit, hlength, haccepted, hunsound⟩ :=
      exists_unsound H hvals hlvl hnegative hpowerless
    exact hunsound (hsound _ _ commit hlength haccepted)
  · exact fun hneeded C chainID commit hlength h =>
      verifyCommitLightTrusting_sound hvals hlvl hneeded hlength h
  · intro hneeded C trustedHeader untrustedHeader untrustedVals trustingPeriod now maxClockDrift
      commit faulty h hcommit hlength hfaulty
    obtain ⟨trusted, header, commit', htrusted, hheader, hcommit', hhash, htrusting⟩ :=
      verifyNonAdjacent_eq_ok h
    cases hcommit.symm.trans hcommit'
    have hsigned := verifyCommitLightTrusting_sound hvals hlvl hneeded hlength htrusting
    exact ⟨trusted, header, htrusted, hheader, hhash.symm, hsigned.exists_correct hlvl hfaulty⟩
  · intro C trustedHeader untrustedHeader untrustedVals trustingPeriod now maxClockDrift trusted
      commit faulty h htrusted hnext hfree hcommit hlength hfaulty
    obtain ⟨trusted', header, commit', htrusted', hheader, hcommit', hhash, hset, hlight⟩ :=
      verifyAdjacent_eq_ok h
    cases hcommit.symm.trans hcommit'
    cases htrusted.symm.trans htrusted'
    -- the next validators and those that were supplied have the same keys and powers
    have hvoters := voters_eq_of_hash hfree hnext hset
    obtain ⟨-, -, S, -, henough, hsigned⟩ :=
      verifyCommitLight_sound (hvals.of_voters_eq hvoters) hlength hlight
    have hsum : ∑ i ∈ S, untrustedVals.power i = ∑ i ∈ S, vals.power i :=
      Finset.sum_congr rfl fun i _ => (power_of_voters_eq hvoters i).symm
    rw [hsum, ← total_of_voters_eq hvoters] at henough
    unfold FaultyBelowThird at hfaulty
    have hmore : ∑ i ∈ faulty, vals.power i < ∑ i ∈ S, vals.power i := by omega
    obtain ⟨i, hi, hcorrect⟩ := exists_correct hmore
    obtain ⟨commitSig, val, hsig, hval, hfor, key, bytes, hkey, hbytes⟩ := hsigned i hi
    obtain ⟨val', hval', hkey', -⟩ := exists_of_voters_eq hvoters.symm hval
    exact ⟨header, hheader, hhash.symm, i, hcorrect, commitSig, val', hsig, hval', hfor, key, bytes,
      hkey'.trans hkey, hbytes⟩

end ValidatorSet

/-! ### A sample -/

open ValidatorSet

theorem faultyBelowThird_sample : sampleValidators.FaultyBelowThird {0} := by
  unfold FaultyBelowThird
  decide +kernel

/-- A header of the four validators, at second 1 for height 1 and so on. -/
def lightHeader (height : Int64) : Header :=
  { promptBlock.header with
    height := height
    time := .unix height
    validatorsHash := (sampleValidators.hash sampleHash).getD []
    nextValidatorsHash := (sampleValidators.hash sampleHash).getD [] }

/-- The header's commit, signed by all. -/
def lightCommit (height : Int64) : Commit :=
  ⟨height, 0, ⟨(lightHeader height).hash sampleHash, 1, replicate 32 8⟩,
    [1, 2, 3, 4].map fun key => ⟨blockIDFlagCommit, replicate 20 key, .zero, [key]⟩⟩

/-- The header with its commit. -/
def lightSigned (height : Int64) : SignedHeader :=
  ⟨some (lightHeader height), some (lightCommit height)⟩

/-- The commit at height 3, also verified from the headers at heights 1 and 2. -/
theorem commit_verification_sound_sample :
    validateTrustLevel ⟨1, 3⟩ = .ok () ∧
    (∃ S ⊆ sampleValidators.indices,
      2 * sampleValidators.total < 3 * ∑ i ∈ S, sampleValidators.power i ∧
        ∀ i ∈ S, SignedAt sampleHash sampleCrypto sampleValidators [99] (lightCommit 3) i) ∧
    TrustLevelSigned sampleHash sampleCrypto sampleValidators [99] (lightCommit 3) ⟨1, 3⟩ ∧
    (∃ i ∉ ({0} : Finset Nat),
      SignedBy sampleHash sampleCrypto sampleValidators [99] (lightCommit 3) i) ∧
    ∃ i ∉ ({0} : Finset Nat),
      SignedAt sampleHash sampleCrypto sampleValidators [99] (lightCommit 3) i := by
  have hlvl : validateTrustLevel ⟨1, 3⟩ = .ok () := rfl
  have hneeded : ¬ (NegativeNeeded sampleValidators.total ⟨1, 3⟩ ∧
      sampleValidators.FindsPowerless) := fun h => absurd h.1 (by decide +kernel)
  obtain ⟨hlight, hsound, htrusting, hskip, hnext⟩ :=
    commit_verification_sound sampleHash sampleValidators_admissible hlvl
  have hlight := hlight sampleCrypto [99] (lightCommit 3).blockID 3 (lightCommit 3)
    (by decide +kernel)
  obtain ⟨trusted, -, htrusted, -, -, hby⟩ := hskip hneeded sampleCrypto (lightSigned 1)
    (lightSigned 3) sampleValidators 5000000000 (.unix 4) 0 _ {0} (by decide +kernel) rfl
    (by decide) faultyBelowThird_sample
  cases htrusted
  obtain ⟨-, -, -, hat⟩ := hnext sampleCrypto (lightSigned 2) (lightSigned 3) sampleValidators
    5000000000 (.unix 4) 0 _ _ {0} (by decide +kernel) rfl (by decide +kernel)
    (by decide +kernel) rfl (by decide) faultyBelowThird_sample
  exact ⟨hlvl, (hsound _ _ _ _ _ (by decide) hlight).2.2,
    htrusting.mpr hneeded _ _ _ (by decide) (by decide +kernel), hby, hat⟩

/-- A validator with one unit of power and one without any. -/
def powerlessValidators : ValidatorSet :=
  ⟨[some (sampleValidator 1), some { sampleValidator 2 with votingPower := 0 }], none⟩

/-- A third, with a denominator that is -1 as a signed number. -/
def wrappedThird : Fraction :=
  ⟨6148914691236517205, 18446744073709551615⟩

/-- A commit that only the validator without power has signed. -/
def powerlessCommit : Commit :=
  ⟨1, 0, sampleBlockID 7, [⟨blockIDFlagCommit, replicate 20 2, .unix 0, [2]⟩]⟩

/-- The trust level is accepted, a third of the total power is needed, and the signature of a
validator without power suffices. -/
theorem powerlessCommit_trusted :
    validateTrustLevel wrappedThird = .ok () ∧
    powerlessValidators.totalVotingPower = .ok 1 ∧
    powerlessValidators.verifyCommitLightTrusting (HashFunction.polynomial 1) sampleCrypto []
      powerlessCommit wrappedThird = .ok () ∧
    powerlessValidators.power 1 = 0 ∧ ∀ commitSig ∈ powerlessCommit.signatures,
      (getByAddress commitSig.validatorAddress 0
        powerlessValidators.validators).toOption.join.map Prod.fst = some 1 := by
  decide +kernel

end NimbleChain.Tendermint
