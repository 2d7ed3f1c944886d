import NimbleChain.HotStuff.Replica

/-!
# The consensus and synchronizer handlers

`consensus/consensus.go` and `synchronizer/synchronizer.go`. The two call each other: `OnPropose`
advances the view with the QC of the block, `AdvanceView` proposes when the replica leads the new
view, and `Propose` hands the new block to `OnPropose` again. Each function takes the one it calls
as a parameter; `advanceView` closes the cycle with the depth that the stack allows.

Pruning, the view duration and the messages sent to other replicas have no part here: these
functions read nothing of them.
-/

namespace NimbleChain.HotStuff

/-- `Rules`: the vote rule and the commit rule of a HotStuff variant. -/
structure Rules (Sig : Type) where
  voteRule : ProposeMsg Sig → Handler Sig Bool
  commitRule : Block Sig → Handler Sig (Option (Block Sig))

variable {Sig : Type} (M : Modules Sig)

/-- The next command of the queue, or the empty command if there is none. -/
def nextCommand : Handler Sig Command := do
  let r ← get
  match r.env.commands with
  | [] => pure []
  | cmd :: rest =>
    set { r with env := { r.env with commands := rest } }
    pure cmd

/-- `acceptor.Accept`. -/
def acceptCommand : Handler Sig Bool := do
  let r ← get
  match r.env.accepts with
  | [] => pure false
  | answer :: rest =>
    set { r with env := { r.env with accepts := rest } }
    pure answer

variable (r : Replica Sig) (block : Block Sig)

/-- `executor.Exec` and the assignment of `bExec`. -/
def Replica.exec : Replica Sig :=
  { r with executed := r.executed ++ [block], bExec := block }

/-- `commitInner`: execute the ancestors that are not executed yet, then the block. The result
says whether all of them were found. -/
def commitInner : Nat → Block Sig → Handler Sig Bool
  | 0, _ => throw .diverges
  | n + 1, block => do
    if block.view ≤ (← get).bExec.view then pure true
    else
      match ← getBlock M block.parent with
      | none => pure false
      | some parent =>
        if ← commitInner n parent then
          modify (·.exec block)
          pure true
        else pure false

/-- `commit`, without the walk of `PruneToHeight`, which need not end. -/
def commit : Handler Sig Unit := do
  let _found ← commitInner M (walkBound (← get)) block

variable (view : View) (proposal : ProposeMsg Sig) (qc : QuorumCert Sig)

/-- `StopVoting` ensures that no voting happens in a view earlier than `view`. -/
def Replica.stopVoting : Replica Sig :=
  if r.lastVote < view then { r with lastVote := view } else r

/-- The check of the aggregate QC at the start of `OnPropose`. -/
def checkAggregateQC : Handler Sig Bool :=
  match M.useAggQC, proposal.aggregateQC with
  | true, some aggQC => do
    match ← verifyAggregateQC M aggQC with
    | none => pure false
    | some highQC => pure (proposal.block.cert.equals M.S highQC)
  | _, _ => pure true

variable (rules : Rules Sig)

/-- The checks of `OnPropose` before the block is stored. -/
def checkProposal (proposal : ProposeMsg Sig) : Handler Sig Bool := do
  if ← checkAggregateQC M proposal then
    if ← verifyQuorumCert M proposal.block.cert then
      -- ensure the block came from the leader
      if proposal.id = (← get).env.leader proposal.block.view then
        if ← rules.voteRule proposal then
          let _qcBlock ← getBlock M proposal.block.cert.hash
          acceptCommand
        else pure false
      else pure false
    else pure false
  else pure false

/-- Store the block of a proposal that is safe and was accepted. -/
def Replica.accept : Replica Sig :=
  (r.store proposal.block).record (.accepted proposal)

/-- The end of `OnPropose`: sign a vote for a block that is newer than the last vote. -/
def castVote : Handler Sig Unit := do
  if block.view ≤ (← get).lastVote then pure ()
  else
    match ← signWith (.vote block) with
    | none => pure ()
    | some _ => modify fun r => { r with lastVote := block.view }

/-- `OnPropose`, given `AdvanceView`. -/
def onProposeWith (advance : SyncInfo Sig → Handler Sig Unit)
    (proposal : ProposeMsg Sig) : Handler Sig Unit := do
  if ← checkProposal M rules proposal then
    modify (·.accept proposal)
    match ← rules.commitRule proposal.block with
    | none => pure ()
    | some block => commit M block
    advance { qc := some proposal.block.cert }
    castVote proposal.block
  else pure ()

/-- The part of `Propose` after the command queue was told about the QC's block: a block on the QC,
at the current view, is stored and handed to `OnPropose`. -/
def proposeBlock (onPropose : ProposeMsg Sig → Handler Sig Unit) (cert : SyncInfo Sig) :
    Handler Sig Unit := do
  let cmd ← nextCommand
  let r ← get
  let qc := cert.qc.getD QuorumCert.zero
  let block : Block Sig :=
    { parent := qc.hash, proposer := r.id, cmd := cmd, cert := qc, view := r.currentView }
  modify (·.store block)
  onPropose
    { id := r.id, block := block, aggregateQC := if M.useAggQC then cert.aggQC else none }

/-- `Propose`, given `OnPropose`. -/
def proposeWith (onPropose : ProposeMsg Sig → Handler Sig Unit) (cert : SyncInfo Sig) :
    Handler Sig Unit :=
  match cert.qc with
  | none => proposeBlock M onPropose cert
  | some qc => do
    let _qcBlock ← getBlock M qc.hash
    proposeBlock M onPropose cert

/-- `updateHighTC`. -/
def Replica.updateHighTC (tc : TimeoutCert Sig) : Replica Sig :=
  if r.highTC.view < tc.view then { r with highTC := tc } else r

/-- The comparison in `updateHighQC`: the view of the certified block against the view that the
high QC carries. -/
def Replica.adopt (newBlock : Block Sig) : Replica Sig :=
  { r.record (.adopted qc newBlock) with
    highQC := if r.highQC.view < newBlock.view then qc else r.highQC }

/-- `updateHighQC`. -/
def updateHighQC : Handler Sig Unit := do
  match ← getBlock M qc.hash with
  | none => pure ()
  | some newBlock => modify (·.adopt qc newBlock)

/-- The TC part of `AdvanceView`: the view of a valid TC, 0 if there is none, or nothing if it is
invalid. -/
def advanceTC (syncInfo : SyncInfo Sig) : Handler Sig (Option View) :=
  match syncInfo.tc with
  | none => pure (some 0)
  | some tc => do
    if ← verifyTimeoutCert M tc then
      modify (·.updateHighTC tc)
      pure (some tc.view)
    else pure none

/-- The QC part of `AdvanceView`: from the view `v` of the TC, the view to leave and the sync info
with the verified QC; nothing if a certificate is invalid. -/
def advanceQC (syncInfo : SyncInfo Sig) (v : View) : Handler Sig (Option (View × SyncInfo Sig)) :=
  match if M.useAggQC then syncInfo.aggQC else none with
  | some aggQC => do
    match ← verifyAggregateQC M aggQC with
    | none => pure none
    | some highQC =>
      let v := if v ≤ aggQC.view then aggQC.view else v
      updateHighQC M highQC
      -- ensure that the true high QC is the one stored in the sync info
      pure (some (if v ≤ highQC.view then highQC.view else v, { syncInfo with qc := some highQC }))
  | none =>
    match syncInfo.qc with
    | none => pure (some (v, syncInfo))
    | some qc => do
      if ← verifyQuorumCert M qc then
        updateHighQC M qc
        pure (some (if v ≤ qc.view then qc.view else v, syncInfo))
      else pure none

/-- Move on to a view, in which there was no timeout yet. -/
def Replica.enter (newView : View) : Replica Sig :=
  { r.record (.entered newView) with currentView := newView, lastTimeout := none }

/-- `AdvanceView`, given `Propose`. -/
def advanceViewWith (propose : SyncInfo Sig → Handler Sig Unit) (syncInfo : SyncInfo Sig) :
    Handler Sig Unit := do
  match ← advanceTC M syncInfo with
  | none => pure ()
  | some v =>
    match ← advanceQC M syncInfo v with
    | none => pure ()
    | some (v, syncInfo) =>
      if v < (← get).currentView then pure ()
      else
        let newView := v + 1
        modify (·.enter newView)
        let r ← get
        if r.env.leader newView = r.id then propose syncInfo else pure ()

/-- `AdvanceView` with the given number of nested calls left. -/
def advanceView : Nat → SyncInfo Sig → Handler Sig Unit
  | 0, _ => throw .diverges
  | n + 1, syncInfo =>
    advanceViewWith M (proposeWith M (onProposeWith M rules (advanceView n))) syncInfo

/-- `OnPropose`. -/
def onPropose (proposal : ProposeMsg Sig) : Handler Sig Unit :=
  onProposeWith M rules (advanceView M rules M.stack) proposal

/-- `Propose`. -/
def propose (cert : SyncInfo Sig) : Handler Sig Unit :=
  proposeWith M (onPropose M rules) cert

/-- `SyncInfo` returns the highest known QC and TC. -/
def Replica.syncInfo : SyncInfo Sig :=
  { qc := some r.highQC, tc := some r.highTC }

variable (timeouts : List (TimeoutMsg Sig)) (rules : Rules Sig) (timeout : TimeoutMsg Sig)
  (currView : View)

/-- `CreateTimeoutCert`. -/
def createTimeoutCert :
    Except CryptoError (TimeoutCert Sig) :=
  -- view 0 is always valid
  if view = 0 then .ok { signature := none, view := 0 }
  else
    match M.crypto.combine (timeouts.filterMap TimeoutMsg.viewSignature) with
    | .error err => .error err
    | .ok sig => .ok { signature := some sig, view := view }

/-- The map `qcs` that `CreateAggregateQC` fills, later messages of an ID replacing earlier ones. -/
def collectQCs : IDMap (QuorumCert Sig) :=
  timeouts.foldl
    (fun qcs timeout =>
      match timeout.syncInfo.qc with
      | none => qcs
      | some qc =>
        if h : timeout.id ∈ qcs.keys then
          { entries := qcs.entries.map fun e => if e.1 = timeout.id then (e.1, qc) else e
            nodup_keys := by
              have hkeys : (qcs.entries.map fun e =>
                  if e.1 = timeout.id then (e.1, qc) else e).map Prod.fst =
                  qcs.entries.map Prod.fst := by
                rw [List.map_map]
                apply List.map_congr_left
                intro e _
                simp only [Function.comp]
                split <;> rfl
              rw [hkeys]
              exact qcs.nodup_keys }
        else ⟨(timeout.id, qc) :: qcs.entries, List.nodup_cons.mpr ⟨h, qcs.nodup_keys⟩⟩)
    ⟨[], List.nodup_nil⟩

/-- `CreateAggregateQC`. -/
def createAggregateQC :
    Except CryptoError (AggregateQC Sig) :=
  match M.crypto.combine (timeouts.filterMap TimeoutMsg.msgSignature) with
  | .error err => .error err
  | .ok sig => .ok { qcs := collectQCs timeouts, sig := some sig, view := view }

/-- The deferred deletion of timeouts for views before `view`. -/
def Replica.cleanupTimeouts : Replica Sig :=
  { r with timeouts := r.timeouts.filter fun t => view ≤ t.view }

/-- `timeouts[view][id] = timeout`, unless there is a message of that view and ID. -/
def Replica.addTimeout : Replica Sig :=
  if r.timeouts.any fun t => t.view = timeout.view ∧ t.id = timeout.id then r
  else { r with timeouts := timeout :: r.timeouts }

/-- The sync info after a quorum of timeouts: the high QC, the new TC and, where they are in use, an
aggregate QC. `currView` is the view in which the last timeout arrived. -/
def timeoutSyncInfo (tc : TimeoutCert Sig) (timeouts : List (TimeoutMsg Sig)) : SyncInfo Sig :=
  let si := { r.syncInfo with tc := some tc }
  if M.useAggQC then
    match createAggregateQC M currView timeouts with
    | .error _ => si
    | .ok aggQC => { si with aggQC := some aggQC }
  else si

/-- `OnRemoteTimeout` after the signature of the message was verified. -/
def collectTimeout (timeout : TimeoutMsg Sig) :
    Handler Sig Unit := do
  advanceView M rules M.stack timeout.syncInfo
  modify (·.addTimeout timeout)
  let r ← get
  let timeouts := r.timeouts.filter fun t => t.view = timeout.view
  if timeouts.length < M.quorum then pure ()
  else
    match createTimeoutCert M timeout.view timeouts with
    | .error _ => pure ()
    | .ok tc =>
      set { r with timeouts := r.timeouts.filter fun t => t.view ≠ timeout.view }
      advanceView M rules M.stack (timeoutSyncInfo M r currView tc timeouts)

/-- `OnRemoteTimeout` handles an incoming timeout from a remote replica. -/
def onRemoteTimeout : Handler Sig Unit := do
  let currView := (← get).currentView
  match timeout.viewSignature with
  | none => throw .nilSignature
  | some sig =>
    if ← verify M sig (viewToBytes timeout.view) then
      collectTimeout M rules currView timeout
      modify (·.cleanupTimeouts currView)
    else modify (·.cleanupTimeouts currView)

/-- The signatures that `OnLocalTimeout` puts on a timeout message; nothing if signing fails. -/
def signTimeout : Handler Sig (Option (TimeoutMsg Sig)) := do
  match ← signWith (.view timeout.view) with
  | none => pure none
  | some sig =>
    let timeout := { timeout with viewSignature := some sig }
    if M.useAggQC then
      -- a second signature that will become part of the aggregate QC
      match ← signWith (.timeout timeout) with
      | none => pure none
      | some sig => pure (some { timeout with msgSignature := some sig })
    else pure (some timeout)

/-- `OnLocalTimeout` is called when a local timeout happens. -/
def onLocalTimeout : Handler Sig Unit := do
  let r ← get
  if r.lastTimeout.any fun t => t.view = r.currentView then pure ()
  else
    match ← signTimeout M
      { id := r.id, view := r.currentView, syncInfo := r.syncInfo, viewSignature := none } with
    | none => pure ()
    | some timeout =>
      modify fun r => { r with lastTimeout := some timeout }
      -- stop voting for current view
      modify (·.stopVoting timeout.view)
      onRemoteTimeout M rules timeout

/-- `Start`: the leader of view 1 makes the initial proposal. -/
def start : Handler Sig Unit := do
  let r ← get
  if r.currentView = 1 ∧ r.env.leader 1 = r.id then propose M rules r.syncInfo else pure ()

end NimbleChain.HotStuff
