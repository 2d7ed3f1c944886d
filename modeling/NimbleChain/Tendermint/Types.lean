import NimbleChain.Common.Bytes
import NimbleChain.Common.Returns

/-!
# Tendermint data types

The types of `types/{block,vote,proposal,light,validator,validator_set,evidence}.go`. A pointer that
may be nil is an `Option`; a nil and an empty byte slice are one value, as on the wire. Cached
hashes and sizes are left out.
-/

namespace NimbleChain.Tendermint

open Common

/-- `time.Time` as seconds since 1970 and nanoseconds within the second. -/
structure Time where
  seconds : Int64
  nanos : Fin 1000000000
  deriving DecidableEq

theorem Time.zero_lt_second : 0 < 1000000000 :=
  by decide

/-- `time.Unix` of whole seconds. -/
def Time.unix (seconds : Int64) : Time :=
  ⟨seconds, ⟨0, zero_lt_second⟩⟩

/-- `float64` by its bits. Zero has one representation: a negative zero compares equal to zero and
is encoded like it. -/
@[ext]
structure Float64 where
  bits : UInt64
  ne_negZero : bits ≠ 0x8000000000000000
  deriving DecidableEq

theorem Float64.zero_ne : (0 : UInt64) ≠ 0x8000000000000000 := by decide

/-- `tmversion.Consensus`. -/
structure Consensus where
  block : UInt64
  app : UInt64
  deriving DecidableEq

/-- `PartSetHeader`. -/
structure PartSetHeader where
  total : UInt32
  hash : Bytes
  deriving DecidableEq

/-- `BlockID`. -/
structure BlockID where
  hash : Bytes
  partSetHeader : PartSetHeader
  deriving DecidableEq

/-- `Header`. -/
structure Header where
  version : Consensus
  chainID : Bytes
  height : Int64
  time : Time
  delayTime : Float64
  deliverTime : Float64
  lastBlockID : BlockID
  lastCommitHash : Bytes
  dataHash : Bytes
  validatorsHash : Bytes
  nextValidatorsHash : Bytes
  consensusHash : Bytes
  appHash : Bytes
  lastResultsHash : Bytes
  evidenceHash : Bytes
  proposerAddress : Bytes
  deriving DecidableEq

/-- `CommitSig`. The flag is a byte of the source, which need not be a known one. -/
structure CommitSig where
  blockIDFlag : UInt8
  validatorAddress : Bytes
  timestamp : Time
  signature : Bytes
  deriving DecidableEq

/-- `Commit`. -/
structure Commit where
  height : Int64
  round : Int32
  blockID : BlockID
  signatures : List CommitSig
  deriving DecidableEq

/-- `Vote`. -/
structure Vote where
  type : Int32
  height : Int64
  round : Int32
  blockID : BlockID
  timestamp : Time
  validatorAddress : Bytes
  validatorIndex : Int32
  signature : Bytes
  deriving DecidableEq

/-- `Proposal`. -/
structure Proposal where
  type : Int32
  height : Int64
  round : Int32
  polRound : Int32
  blockID : BlockID
  timestamp : Time
  signature : Bytes
  deriving DecidableEq

/-- `crypto.PubKey`, with the sizes that the implementations of the interface have. -/
inductive PubKey where
  | ed25519 (key : Vector UInt8 32)
  | secp256k1 (key : Vector UInt8 33)
  | sr25519 (key : Vector UInt8 32)
  deriving DecidableEq

/-- `Validator`. -/
structure Validator where
  address : Bytes
  pubKey : Option PubKey
  votingPower : Int64
  proposerPriority : Int64
  deriving DecidableEq

/-- `ValidatorSet`. -/
structure ValidatorSet where
  validators : List (Option Validator)
  proposer : Option Validator
  deriving DecidableEq

/-- `SignedHeader`. -/
structure SignedHeader where
  header : Option Header
  commit : Option Commit
  deriving DecidableEq

/-- `LightBlock`. -/
structure LightBlock where
  signedHeader : Option SignedHeader
  validatorSet : Option ValidatorSet
  deriving DecidableEq

/-- `DuplicateVoteEvidence`. -/
structure DuplicateVoteEvidence where
  voteA : Option Vote
  voteB : Option Vote
  totalVotingPower : Int64
  validatorPower : Int64
  timestamp : Time
  deriving DecidableEq

/-- `LightClientAttackEvidence`. -/
structure LightClientAttackEvidence where
  conflictingBlock : Option LightBlock
  commonHeight : Int64
  byzantineValidators : List (Option Validator)
  totalVotingPower : Int64
  timestamp : Time
  deriving DecidableEq

/-- The types behind the `Evidence` interface. -/
inductive Evidence where
  | duplicateVote (evidence : DuplicateVoteEvidence)
  | lightClientAttack (evidence : LightClientAttackEvidence)
  deriving DecidableEq

/-- `Block`: `Header`, `Data.Txs`, `EvidenceData.Evidence` and `LastCommit`. -/
structure Block where
  header : Header
  txs : List Bytes
  evidence : List Evidence
  lastCommit : Option Commit
  deriving DecidableEq

/-- An error: the format of `errors.New` or `fmt.Errorf`, what it is formatted with, and the error
that it wraps. -/
inductive GoError where
  | new (format : String) (numbers : List Int) (strings : List Bytes)
  | wrap (format : String) (numbers : List Int) (cause : GoError)
  deriving DecidableEq

/-- How a check ends if it does not pass. -/
inductive Failure where
  | error (error : GoError)
  | panic
  deriving DecidableEq

/-- The result of a check. -/
abbrev Check := Except Failure Unit

namespace Check

/-- `errors.New`, or `fmt.Errorf` of numbers and byte strings. -/
def fail (format : String) (numbers : List Int) (strings : List Bytes) : Check :=
  .error (.error (.new format numbers strings))

/-- Fail if a condition holds. -/
def failIf (condition : Prop) [Decidable condition] (format : String) (numbers : List Int)
    (strings : List Bytes) : Check :=
  if condition then fail format numbers strings else pure ()

/-- `fmt.Errorf` around the error of another check. -/
def within (format : String) (numbers : List Int) : Check → Check
  | .error (.error error) => .error (.error (.wrap format numbers error))
  | other => other

/-- A value that may be missing where the source panics. -/
def orPanic {α : Type} : Option α → Except Failure α
  | some a => .ok a
  | none => .error .panic

variable {α : Type} {check : Check} {format : String} {numbers : List Int}

/-- A sequence of checks passes if each of them does. -/
theorem seq_eq_ok {next : Check} :
    (check >>= fun _ => next) = .ok () ↔ check = .ok () ∧ next = .ok () := by
  rw [bind_eq_ok]
  exact ⟨fun ⟨_, h⟩ => h, fun h => ⟨(), h⟩⟩

theorem orPanic_eq_ok {a : α} {x : Option α} : orPanic x = .ok a ↔ x = some a := by
  cases x with
  | none => exact ⟨nofun, nofun⟩
  | some b => simp [orPanic]

theorem failIf_eq_ok {condition : Prop} [Decidable condition] {strings : List Bytes} :
    failIf condition format numbers strings = .ok () ↔ ¬ condition := by
  unfold failIf
  split <;> simp_all [fail, pure, Except.pure]

theorem within_eq_ok : within format numbers check = .ok () ↔ check = .ok () := by
  cases check with
  | ok => exact Iff.rfl
  | error failure => cases failure <;> exact ⟨nofun, nofun⟩

end Check

end NimbleChain.Tendermint
