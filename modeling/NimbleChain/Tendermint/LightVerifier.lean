import NimbleChain.Tendermint.Commit

/-!
# The verifier of the light client

`light/verifier.go`. A signed header is verified against an older one that is trusted, through its
validators or, for the next height, through the hash of the next validators; an older header is
verified through the hash of the last block. A nil header or commit of a signed header panics.
-/

namespace NimbleChain.Tendermint

open Common Check

variable (H : HashFunction) (C : Crypto)

/-! ### Times -/

namespace Time

/-- The seconds from the year 1, from which `time.Time` counts, to 1970. -/
def unixToInternal : Int := 62135596800

theorem toNat_emod_lt_second (nanos : Int) : (nanos % 1000000000).toNat < 1000000000 := by
  omega

/-- `Time.Add` of nanoseconds; the seconds saturate. -/
def add (t : Time) (d : Int64) : Time :=
  let nanos : Int := t.nanos.val + d.toInt
  let sum := t.seconds.toInt + unixToInternal + nanos / 1000000000
  let sum :=
    if sum > 9223372036854775807 then 9223372036854775807
    else if sum < -9223372036854775807 then -9223372036854775807
    else sum
  ⟨Int64.ofInt (sum - unixToInternal), ⟨(nanos % 1000000000).toNat, toNat_emod_lt_second nanos⟩⟩

/-- `Time.Before`. -/
def before (t u : Time) : Bool :=
  t.seconds < u.seconds ∨ (t.seconds = u.seconds ∧ t.nanos < u.nanos)

/-- `Time.After`. -/
def after (t u : Time) : Bool :=
  u.before t

end Time

/-! ### Verification -/

/-- `HeaderExpired`. -/
def headerExpired (h : Header) (trustingPeriod : Int64) (now : Time) : Bool :=
  !(h.time.add trustingPeriod).after now

/-- `ValidateTrustLevel`, which multiplies unsigned integers. -/
def validateTrustLevel (lvl : Fraction) : Check :=
  failIf (lvl.numerator * 3 < lvl.denominator ∨ lvl.numerator > lvl.denominator ∨
      lvl.denominator = 0)
    "trustLevel must be within [1/3, 1], given %v" [lvl.numerator.toNat, lvl.denominator.toNat] []

/-- `verifyNewHeaderAndVals`. -/
def verifyNewHeaderAndVals (untrustedHeader : SignedHeader) (untrustedVals : ValidatorSet)
    (trusted : Header) (now : Time) (maxClockDrift : Int64) : Check := do
  within "untrustedHeader.ValidateBasic failed: %w" []
    (untrustedHeader.validateBasic H trusted.chainID)
  let untrusted ← orPanic untrustedHeader.header
  failIf (untrusted.height ≤ trusted.height)
    "expected new header height %d to be greater than one of old header %d"
    [untrusted.height.toInt, trusted.height.toInt] []
  failIf (!untrusted.time.after trusted.time)
    "expected new header time %v to be after old header time %v"
    [untrusted.time.seconds.toInt, trusted.time.seconds.toInt] []
  failIf (!untrusted.time.before (now.add maxClockDrift))
    "new header has a time from the future %v (now: %v; max clock drift: %v)"
    [untrusted.time.seconds.toInt, now.seconds.toInt, maxClockDrift.toInt] []
  let hash ← orPanic (untrustedVals.hash H)
  failIf (untrusted.validatorsHash ≠ hash)
    "expected new header validators (%X) to match those that were supplied (%X) at height %d"
    [untrusted.height.toInt] [untrusted.validatorsHash, hash]

/-- `ErrNewValSetCantBeTrusted` in place of `ErrNotEnoughVotingPowerSigned`. -/
def cantBeTrusted : Check → Check
  | .error (.error (.new format numbers strings)) =>
    if format = notEnoughVotingPowerFormat then
      .error (.error (.wrap "cant trust new val set: %v" [] (.new format numbers strings)))
    else .error (.error (.new format numbers strings))
  | other => other

variable (trustedHeader : SignedHeader) (trustedVals : ValidatorSet)
  (untrustedHeader : SignedHeader) (untrustedVals : ValidatorSet) (trustingPeriod : Int64)
  (now : Time) (maxClockDrift : Int64) (trustLevel : Fraction)

/-- `VerifyNonAdjacent`. -/
def verifyNonAdjacent : Check := do
  let untrusted ← orPanic untrustedHeader.header
  let trusted ← orPanic trustedHeader.header
  failIf (untrusted.height = trusted.height + 1)
    "headers must be non adjacent in height" [] []
  failIf (headerExpired trusted trustingPeriod now)
    "old header has expired at %v (now: %v)"
    [(trusted.time.add trustingPeriod).seconds.toInt, now.seconds.toInt] []
  within "invalid header: %v" []
    (verifyNewHeaderAndVals H untrustedHeader untrustedVals trusted now maxClockDrift)
  let commit ← orPanic untrustedHeader.commit
  cantBeTrusted (trustedVals.verifyCommitLightTrusting H C trusted.chainID commit trustLevel)
  within "invalid header: %v" []
    (untrustedVals.verifyCommitLight H C trusted.chainID commit.blockID untrusted.height commit)

/-- `VerifyAdjacent`. -/
def verifyAdjacent :
    Check := do
  let untrusted ← orPanic untrustedHeader.header
  let trusted ← orPanic trustedHeader.header
  failIf (untrusted.height ≠ trusted.height + 1) "headers must be adjacent in height" [] []
  failIf (headerExpired trusted trustingPeriod now)
    "old header has expired at %v (now: %v)"
    [(trusted.time.add trustingPeriod).seconds.toInt, now.seconds.toInt] []
  within "invalid header: %v" []
    (verifyNewHeaderAndVals H untrustedHeader untrustedVals trusted now maxClockDrift)
  failIf (untrusted.validatorsHash ≠ trusted.nextValidatorsHash)
    "expected old header next validators (%X) to match those from new header (%X)"
    [] [trusted.nextValidatorsHash, untrusted.validatorsHash]
  let commit ← orPanic untrustedHeader.commit
  within "invalid header: %v" []
    (untrustedVals.verifyCommitLight H C trusted.chainID commit.blockID untrusted.height commit)

/-- `Verify`. -/
def verify : Check := do
  let untrusted ← orPanic untrustedHeader.header
  let trusted ← orPanic trustedHeader.header
  if untrusted.height ≠ trusted.height + 1 then
    verifyNonAdjacent H C trustedHeader trustedVals untrustedHeader untrustedVals trustingPeriod now
      maxClockDrift trustLevel
  else
    verifyAdjacent H C trustedHeader untrustedHeader untrustedVals trustingPeriod now maxClockDrift

/-- `VerifyBackwards`. -/
def verifyBackwards (untrusted trusted : Header) : Check := do
  within "invalid header: %v" [] (untrusted.validateBasic H)
  within "invalid header: %v" []
    (failIf (untrusted.chainID ≠ trusted.chainID) "header belongs to another chain" [] [])
  within "invalid header: %v" []
    (failIf (!untrusted.time.before trusted.time)
      "expected older header time %v to be before new header time %v"
      [untrusted.time.seconds.toInt, trusted.time.seconds.toInt] [])
  within "invalid header: %v" []
    (failIf (untrusted.hash H ≠ trusted.lastBlockID.hash)
      "older header hash %X does not match trusted header's last block %X"
      [] [untrusted.hash H, trusted.lastBlockID.hash])

end NimbleChain.Tendermint
