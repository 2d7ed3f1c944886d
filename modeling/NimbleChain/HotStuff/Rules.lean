import NimbleChain.HotStuff.Consensus

/-!
# The vote and commit rules of the three HotStuff variants

`consensus/chainedhotstuff`, `consensus/simplehotstuff` and `consensus/fasthotstuff`. All three
follow certificates, not parents, from a proposal to the blocks below it.
-/

namespace NimbleChain.HotStuff

variable {Sig : Type} (M : Modules Sig)

/-- Lock a block if it is newer than the locked one. -/
def Replica.lockOn (r : Replica Sig) (block : Block Sig) : Replica Sig :=
  if r.locked.view < block.view then { r with locked := block } else r

/-- Record that the block to lock was not found; nothing is locked on below the genesis block. -/
def noteMissed (hash : Hash) : Handler Sig Unit :=
  if hash = Hash.zero then pure () else modify (·.record (.missed hash))

/-- `qcRef`, as in Chained and Fast HotStuff: the zero hash of the genesis certificate leads
nowhere. -/
def qcRef (qc : QuorumCert Sig) : Handler Sig (Option (Block Sig)) :=
  if qc.hash = Hash.zero then pure none else getBlock M qc.hash

variable (proposal : ProposeMsg Sig) (block : Block Sig)

namespace Chained

/-- `ChainedHotStuff.CommitRule`. -/
def commitRule : Handler Sig (Option (Block Sig)) := do
  match ← qcRef M block.cert with
  | none => pure none
  | some block1 =>
    match ← qcRef M block1.cert with
    | none =>
      noteMissed block1.cert.hash
      pure none
    | some block2 =>
      modify (·.lockOn block2)
      match ← qcRef M block2.cert with
      | none => pure none
      | some block3 =>
        if block1.parent = block2.hash M.S ∧ block2.parent = block3.hash M.S then
          modify (·.record (.decided [block1, block2, block3]))
          pure (some block3)
        else pure none

/-- `ChainedHotStuff.VoteRule`. -/
def voteRule : Handler Sig Bool := do
  let block := proposal.block
  match ← getBlock M block.cert.hash with
  | some qcBlock =>
    if (← get).locked.view < qcBlock.view then pure true
    else extendsBlock M block (← get).locked
  | none => extendsBlock M block (← get).locked

/-- The rules of Chained HotStuff. -/
def rules : Rules Sig where
  voteRule := voteRule M
  commitRule := commitRule M

end Chained

namespace Simple

/-- `SimpleHotStuff.CommitRule`. -/
def commitRule : Handler Sig (Option (Block Sig)) := do
  match ← getBlock M block.cert.hash with
  | none => pure none
  | some p =>
    match ← getBlock M p.cert.hash with
    | none =>
      noteMissed p.cert.hash
      pure none
    | some gp =>
      modify (·.lockOn gp)
      match ← getBlock M gp.cert.hash with
      | none => pure none
      | some ggp =>
        if ggp.view + 2 = p.view then
          modify (·.record (.decided [p, gp, ggp]))
          pure (some ggp)
        else pure none

/-- `SimpleHotStuff.VoteRule`. -/
def voteRule : Handler Sig Bool := do
  let block := proposal.block
  -- Rule 1: can only vote in increasing rounds
  if block.view < (← get).currentView then pure false
  else
    match ← getBlock M block.cert.hash with
    | none => pure false
    -- Rule 2: the parent's view is at least the locked block's view
    | some parent => pure (decide ((← get).locked.view ≤ parent.view))

/-- The rules of Simple HotStuff. -/
def rules : Rules Sig where
  voteRule := voteRule M
  commitRule := commitRule M

end Simple

namespace Fast

/-- `FastHotStuff.CommitRule`. -/
def commitRule : Handler Sig (Option (Block Sig)) := do
  match ← qcRef M block.cert with
  | none => pure none
  | some parent =>
    match ← qcRef M parent.cert with
    | none => pure none
    | some grandparent =>
      if block.parent = parent.hash M.S ∧ block.view = parent.view + 1 ∧
          parent.parent = grandparent.hash M.S ∧ parent.view = grandparent.view + 1 then
        modify (·.record (.decided [parent, grandparent]))
        pure (some grandparent)
      else pure none

/-- `FastHotStuff.VoteRule`. -/
def voteRule : Handler Sig Bool := do
  let block := proposal.block
  match proposal.aggregateQC with
  | some _ =>
    match ← getBlock M block.cert.hash with
    | none => pure false
    | some hqcBlock => extendsBlock M block hqcBlock
  | none =>
    pure (decide ((← get).currentView ≤ block.view ∧ block.view = block.cert.view + 1))

/-- The rules of Fast HotStuff. -/
def rules : Rules Sig where
  voteRule := voteRule M
  commitRule := commitRule M

end Fast

end NimbleChain.HotStuff
