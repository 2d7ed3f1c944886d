import NimbleChain.Common.KeyedMerge
import NimbleChain.Tendermint.ProposerPriority

/-!
# Changes of a validator set

`updateWithChangeSet` of `types/validator_set.go`. The changes are sorted and split into updates and
removals, checked against the set, merged into it in one pass each, and the priorities are rescaled
and centred. An error leaves the set as it was, except that its cached total may have been filled.
-/

namespace NimbleChain.Tendermint

open Common Keyed

/-! ### Model -/

variable (vals : List Validator)

/-- `sort.Sort` by `ValidatorsByAddress`. -/
def sortByAddress : List Validator :=
  vals.insertionSort fun x y => x.address ≤ y.address

/-- The order of `ValidatorsByVotingPower`: larger powers first, then by address. -/
def RanksBefore (x y : Validator) : Prop :=
  y.votingPower < x.votingPower ∨ (x.votingPower = y.votingPower ∧ x.address ≤ y.address)

instance : DecidableRel RanksBefore :=
  fun x y => inferInstanceAs (Decidable (y.votingPower < x.votingPower ∨
    (x.votingPower = y.votingPower ∧ x.address ≤ y.address)))

/-- `sort.Sort` by `ValidatorsByVotingPower`. -/
def sortByVotingPower : List Validator :=
  vals.insertionSort RanksBefore

/-- The updates and removals that `processChanges` returns. -/
structure ChangeSet where
  updates : List Validator
  removals : List Validator

/-- The loop of `processChanges` over the sorted changes. Of what the text of the first error
prints, only the address of the duplicate is kept. -/
def scanChanges (prevAddr : Bytes) : List Validator → Except Failure ChangeSet
  | [] => .ok ⟨[], []⟩
  | valUpdate :: changes =>
    if valUpdate.address = prevAddr then
      .error (.error (.new "duplicate entry %v in %v" [] [valUpdate.address]))
    else if valUpdate.votingPower < 0 then
      .error (.error (.new "voting power can't be negative: %d" [valUpdate.votingPower.toInt] []))
    else if valUpdate.votingPower > maxTotalVotingPower then
      .error (.error (.new
        "to prevent clipping/overflow, voting power can't be higher than %d, got %d"
        [maxTotalVotingPower.toInt, valUpdate.votingPower.toInt] []))
    else do
      let rest ← scanChanges valUpdate.address changes
      return if valUpdate.votingPower = 0 then ⟨rest.updates, valUpdate :: rest.removals⟩
        else ⟨valUpdate :: rest.updates, rest.removals⟩

/-- `processChanges`. The previous address is nil at first. -/
def processChanges (origChanges : List Validator) : Except Failure ChangeSet :=
  scanChanges [] (sortByAddress origChanges)

/-- `GetByAddress` in a set without nil entries. -/
def findByAddress (address : Bytes) : Option Validator :=
  vals.find? fun val => val.address = address

/-- `numNewValidators`. -/
def numNewValidators (updates vals : List Validator) : Nat :=
  updates.countP fun valUpdate => (findByAddress vals valUpdate.address).isNone

/-- The loop of `verifyRemovals`. -/
def removedPower (removedVotingPower : Int64) :
    List Validator → Except Failure Int64
  | [] => .ok removedVotingPower
  | valUpdate :: deletes =>
    match findByAddress vals valUpdate.address with
    | none => .error (.error (.new "failed to find validator %X to remove" []
        [valUpdate.address]))
    | some val => removedPower (removedVotingPower + val.votingPower) deletes

/-- `verifyRemovals`. -/
def verifyRemovals (deletes vals : List Validator) : Except Failure Int64 := do
  let removedVotingPower ← removedPower vals 0 deletes
  if deletes.length > vals.length then .error .panic else return removedVotingPower

/-- The function `delta` of `verifyUpdates`. -/
def delta (update : Validator) : Int64 :=
  match findByAddress vals update.address with
  | some val => update.votingPower - val.votingPower
  | none => update.votingPower

/-- The loop of `verifyUpdates`. -/
def addDeltas (tvpAfterRemovals : Int64) :
    List Validator → Except Failure Int64
  | [] => .ok tvpAfterRemovals
  | upd :: updates =>
    let tvpAfterRemovals := tvpAfterRemovals + delta vals upd
    if tvpAfterRemovals > maxTotalVotingPower then
      -- `ErrTotalVotingPowerOverflow`
      .error (.error (.new "total voting power of resulting valset exceeds max %d"
        [maxTotalVotingPower.toInt] []))
    else addDeltas tvpAfterRemovals updates

/-- `computeNewPriorities`: updated validators keep their priority. -/
def computeNewPriorities (updates vals : List Validator) (updatedTotalVotingPower : Int64) :
    List Validator :=
  updates.map fun valUpdate =>
    match findByAddress vals valUpdate.address with
    | none =>
      valUpdate.withPriority (-(updatedTotalVotingPower + (updatedTotalVotingPower >>> 3)))
    | some val => valUpdate.withPriority val.proposerPriority

namespace CachedValidatorSet

/-- `verifyUpdates`: the total voting power with the updates and before the removals. -/
def verifyUpdates (updates : List Validator) (removedPower : Int64) : ValidatorProgram Int64 := do
  let vals ← get
  let updatesCopy := updates.insertionSort fun x y =>
    delta vals.validators x ≤ delta vals.validators y
  let total ← getTotalVotingPower
  let tvpAfterRemovals ←
    Program.lift (addDeltas vals.validators (total - removedPower) updatesCopy)
  return tvpAfterRemovals + removedPower

/-- `ValidatorSet.applyUpdates`. -/
def applyUpdates (updates : List Validator) : ValidatorProgram Unit :=
  modify fun vals => { vals with
    validators := merge Validator.address (sortByAddress vals.validators) updates }

/-- `ValidatorSet.applyRemovals`, which reads past the end if a validator is missing. -/
def applyRemovals (deletes : List Validator) : ValidatorProgram Unit := do
  let vals ← get
  let validators ← Program.lift
    (Check.orPanic (removeAll Validator.address vals.validators deletes))
  set { vals with validators := validators }

/-- The part of `updateWithChangeSet` after the checks. -/
def applyChanges (changes : ChangeSet) (tvpAfterUpdatesBeforeRemovals : Int64) :
    ValidatorProgram Unit := do
  let vals ← get
  applyUpdates (computeNewPriorities changes.updates vals.validators tvpAfterUpdatesBeforeRemovals)
  applyRemovals changes.removals
  updateTotalVotingPower
  let total ← getTotalVotingPower
  rescalePriorities (priorityWindowSizeFactor * total)
  shiftByAvgProposerPriority
  modify fun vals => { vals with validators := sortByVotingPower vals.validators }

/-- `ValidatorSet.updateWithChangeSet`. -/
def updateWithChangeSet (changes : List Validator) (allowDeletes : Bool) : ValidatorProgram Unit :=
  if changes = [] then return ()
  else do
    let split ← Program.lift (processChanges changes)
    let vals ← get
    Program.lift (Check.failIf (allowDeletes = false ∧ split.removals ≠ [])
      "cannot process validators with voting power 0: %v" []
      (split.removals.map Validator.address))
    Program.lift (Check.failIf (numNewValidators split.updates vals.validators = 0 ∧
      vals.validators.length = split.removals.length)
      "applying the validator changes would result in empty set" [] [])
    let removedVotingPower ← Program.lift (verifyRemovals split.removals vals.validators)
    let tvpAfterUpdatesBeforeRemovals ← verifyUpdates split.updates removedVotingPower
    applyChanges split tvpAfterUpdatesBeforeRemovals

/-- `ValidatorSet.UpdateWithChangeSet`. -/
def updateWithChangeSetAllowingDeletes (changes : List Validator) : ValidatorProgram Unit :=
  updateWithChangeSet changes true

/-- The body of `NewValidatorSet`. An error becomes a panic. -/
def initialise (valz : List Validator) : ValidatorProgram Unit := do
  ExceptT.adapt (fun _ => Failure.panic) (updateWithChangeSet valz false)
  if valz = [] then return () else incrementProposerPriority 1

/-- `NewValidatorSet`. -/
def newValidatorSet (valz : List Validator) : Except Failure CachedValidatorSet :=
  match (initialise valz).exec ⟨[], none, 0⟩ with
  | (.ok _, vals) => .ok vals
  | (.error failure, _) => .error failure

end CachedValidatorSet

end NimbleChain.Tendermint
