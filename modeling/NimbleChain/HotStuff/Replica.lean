import NimbleChain.HotStuff.CryptoBase
import NimbleChain.Common.Program

/-!
# The state of a replica and the certificate checks

The state gathers what the modules of the source keep: the block chain, the consensus variables, the
lock of the rules and the synchronizer. What a handler asks the environment (fetched blocks, the
command queue, the acceptor, random signatures, the leader rotation) is answered by `Env`, one
answer per call, so that every environment is covered. `trace` records, for reasoning only, what
the replica signed, accepted and committed; no handler reads it.
-/

namespace NimbleChain.HotStuff

open Common

/-- Why a handler does not return: a nil signature is dereferenced, or a loop or recursion of the
source does not end. -/
inductive Crash where
  | nilSignature
  | diverges
  deriving DecidableEq

/-- What a replica signs: a block it votes for, a view it gives up, or a timeout message. -/
inductive Signed (Sig : Type) where
  | vote (block : Block Sig)
  | view (view : View)
  | timeout (timeout : TimeoutMsg Sig)

/-- What the trace of a replica records. -/
inductive Entry (Sig : Type) where
  /-- The replica signed. -/
  | signed (what : Signed Sig)
  /-- `Verify` accepted the signature for the message. -/
  | verified (signature : Sig) (message : Bytes)
  /-- `BatchVerify` accepted the signature for the batch. -/
  | batchVerified (signature : Sig) (batch : IDMap Bytes)
  /-- The synchronizer compared a verified certificate, for this block, with its high QC. -/
  | adopted (qc : QuorumCert Sig) (block : Block Sig)
  /-- `OnPropose` found the proposal safe and accepted it. -/
  | accepted (proposal : ProposeMsg Sig)
  /-- `CommitRule` did not find the block that it would have locked. -/
  | missed (hash : Hash)
  /-- `CommitRule` returned the last of these blocks, each certified by the one before it. -/
  | decided (chain : List (Block Sig))
  /-- The synchronizer moved on to the view. -/
  | entered (view : View)

/-- The answers of the environment to the calls of one handler, in the order of the calls. -/
structure Env (Sig : Type) where
  /-- `configuration.Fetch`; a block is only returned for its own hash. -/
  fetch : List (Option (Block Sig)) := []
  /-- `commandQueue.Get`. -/
  commands : List Command := []
  /-- `acceptor.Accept`. -/
  accepts : List Bool := []
  /-- `Sign`, which is randomised and may fail. -/
  signatures : List (Option Sig) := []
  /-- `leaderRotation.GetLeader`. -/
  leader : View → ID := fun _ => 0

/-- `blockChain`: the stored blocks, latest first, so that a lookup finds the one stored last.
Blocks are never removed, and `New` stores the genesis block. -/
structure BlockChain (Sig : Type) where
  blocks : List (Block Sig)
  genesis_mem : genesis ∈ blocks

/-- The state of one replica. -/
structure Replica (Sig : Type) where
  id : ID
  crashed : Bool
  chain : BlockChain Sig
  -- `consensusBase`
  lastVote : View
  bExec : Block Sig
  /-- The blocks passed to `executor.Exec`, in order. -/
  executed : List (Block Sig)
  /-- `bLock` of Chained HotStuff and `locked` of Simple HotStuff. -/
  locked : Block Sig
  -- `Synchronizer`
  currentView : View
  highQC : QuorumCert Sig
  highTC : TimeoutCert Sig
  lastTimeout : Option (TimeoutMsg Sig)
  /-- The maps `timeouts[view][id]` as one list with at most one message per view and ID. -/
  timeouts : List (TimeoutMsg Sig)
  env : Env Sig
  trace : List (Entry Sig)

/-- What the modules of every replica have in common. -/
structure Modules (Sig : Type) where
  S : Primitives Sig
  crypto : CryptoBase Sig
  /-- The IDs of the configured replicas. -/
  config : Finset ID
  /-- `opts.ShouldUseAggQC()`. -/
  useAggQC : Bool
  /-- How many nested calls of `AdvanceView` fit on the stack. -/
  stack : Nat

variable {Sig : Type}

/-- A handler of a replica. -/
abbrev Handler (Sig : Type) : Type → Type :=
  Program Crash (Replica Sig)

variable (S : Primitives Sig) (chain : BlockChain Sig)

namespace BlockChain

/-- `Store`. -/
def store (block : Block Sig) : BlockChain Sig :=
  ⟨block :: chain.blocks, List.mem_cons_of_mem _ chain.genesis_mem⟩

/-- `LocalGet`. -/
def localGet (hash : Hash) : Option (Block Sig) :=
  chain.blocks.find? fun block => block.hash S = hash

/-- `blockchain.New`. -/
def new : BlockChain Sig :=
  ⟨[genesis], List.mem_singleton_self _⟩

end BlockChain

/-- The state in which a replica starts. -/
def Replica.init (id : ID) : Replica Sig where
  id := id
  crashed := false
  chain := .new
  lastVote := 0
  bExec := genesis
  executed := []
  locked := genesis
  currentView := 1
  highQC := { signature := none, view := 0, hash := genesis.hash S }
  highTC := { signature := none, view := 0 }
  lastTimeout := none
  timeouts := []
  env := {}
  trace := []

variable (r : Replica Sig)

/-- Append to the trace. -/
def Replica.record (entry : Entry Sig) : Replica Sig :=
  { r with trace := r.trace ++ [entry] }

/-- `Store` on the replica's chain. -/
def Replica.store (block : Block Sig) : Replica Sig :=
  { r with chain := r.chain.store block }

variable (M : Modules Sig) (aggQC : AggregateQC Sig) (qc : QuorumCert Sig)

/-- `configuration.QuorumSize()`. -/
def Modules.quorum : Nat :=
  quorumSize M.config.card

/-- The bytes that a signature is made over. -/
def Signed.message : Signed Sig → Bytes
  | .vote block => block.toBytes S
  | .view v => viewToBytes v
  | .timeout t => t.toBytes S

/-- Ask the peers for a block: `configuration.Fetch`. -/
def fetch (hash : Hash) : Handler Sig (Option (Block Sig)) := do
  let r ← get
  match r.env.fetch with
  | [] => pure none
  | answer :: rest =>
    set { r with env := { r.env with fetch := rest } }
    pure (answer.filter fun block => block.hash M.S = hash)

/-- `blockChain.Get`: the local block, or one that a peer has, which is then stored. -/
def getBlock (hash : Hash) : Handler Sig (Option (Block Sig)) := do
  match (← get).chain.localGet M.S hash with
  | some block => pure (some block)
  | none =>
    match ← fetch M hash with
    | none => pure none
    | some block =>
      modify (·.store block)
      pure (some block)

/-- The number of steps after which a walk along parents has left all blocks that the replica has or
can fetch, so that it is on a cycle of hashes. -/
def walkBound : Nat :=
  r.chain.blocks.length + r.env.fetch.length + 1

/-- The loop of `Extends`: follow the parents down to the view of the target. -/
def extendsLoop (target : Block Sig) : Nat → Block Sig → Handler Sig Bool
  | 0, _ => throw .diverges
  | n + 1, current =>
    if target.view < current.view then do
      match ← getBlock M current.parent with
      | none => pure false
      | some parent => extendsLoop target n parent
    else pure (current.hash M.S = target.hash M.S)

/-- `Extends` checks if the given block extends the branch of the target block. -/
def extendsBlock (block target : Block Sig) : Handler Sig Bool := do
  extendsLoop M target (walkBound (← get)) block

/-- `Sign`: the answer of the environment, recorded if it is a signature. -/
def signWith (what : Signed Sig) : Handler Sig (Option Sig) := do
  let r ← get
  match r.env.signatures with
  | [] => pure none
  | answer :: rest =>
    set { r with env := { r.env with signatures := rest } }
    match answer with
    | none => pure none
    | some sig =>
      modify (·.record (.signed what))
      pure (some sig)

/-- `Verify`. -/
def verify (sig : Sig) (message : Bytes) : Handler Sig Bool :=
  if M.crypto.verify sig message then do
    modify (·.record (.verified sig message))
    pure true
  else pure false

/-- `BatchVerify`. -/
def batchVerify (sig : Sig) (batch : IDMap Bytes) : Handler Sig Bool :=
  if M.crypto.batchVerify sig batch then do
    modify (·.record (.batchVerified sig batch))
    pure true
  else pure false

/-- `VerifyQuorumCert`. -/
def verifyQuorumCert : Handler Sig Bool :=
  -- the genesis QC is always valid
  if qc.hash = (genesis : Block Sig).hash M.S then pure true
  else
    match qc.signature with
    | none => throw .nilSignature
    | some sig =>
      if (M.S.participants sig).card < M.quorum then pure false
      else do
        match ← getBlock M qc.hash with
        | none => pure false
        | some block => verify M sig (block.toBytes M.S)

/-- `VerifyTimeoutCert`. -/
def verifyTimeoutCert (tc : TimeoutCert Sig) : Handler Sig Bool :=
  -- the view 0 TC is always valid
  if tc.view = 0 then pure true
  else
    match tc.signature with
    | none => throw .nilSignature
    | some sig =>
      if (M.S.participants sig).card < M.quorum then pure false
      else verify M sig (viewToBytes tc.view)

/-- The zero value `QuorumCert{}`. -/
def QuorumCert.zero : QuorumCert Sig :=
  { signature := none, view := 0, hash := Hash.zero }

/-- `qc == (hotstuff.QuorumCert{})`. -/
def QuorumCert.isZero : Bool :=
  qc.signature.isNone && qc.view == 0 && qc.hash == Hash.zero

/-- The loop of `VerifyAggregateQC` that picks the QC with the highest claimed view. -/
def pickHighQC (qcs : List (QuorumCert Sig)) : QuorumCert Sig :=
  qcs.foldl (fun highQC qc => if highQC.view < qc.view ∨ highQC.isZero then qc else highQC)
    QuorumCert.zero

/-- The timeout messages that `VerifyAggregateQC` reconstructs. -/
def AggregateQC.messages : IDMap Bytes where
  entries := aggQC.qcs.entries.map fun e =>
    (e.1, TimeoutMsg.toBytes S
      { id := e.1, view := aggQC.view, syncInfo := { qc := some e.2 }, viewSignature := none })
  nodup_keys := by
    rw [List.map_map]
    exact aggQC.qcs.nodup_keys

/-- `VerifyAggregateQC`: the high QC, if the aggregate is valid. -/
def verifyAggregateQC : Handler Sig (Option (QuorumCert Sig)) :=
  let highQC := pickHighQC (aggQC.qcs.entries.map Prod.snd)
  match aggQC.sig with
  | none => throw .nilSignature
  | some sig =>
    if (M.S.participants sig).card < M.quorum then pure none
    else do
      if ← batchVerify M sig (aggQC.messages M.S) then
        if ← verifyQuorumCert M highQC then pure (some highQC) else pure none
      else pure none

end NimbleChain.HotStuff
