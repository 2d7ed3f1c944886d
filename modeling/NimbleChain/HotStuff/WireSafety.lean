import NimbleChain.HotStuff.ChainAccess
import NimbleChain.HotStuff.WireMessages

/-!
# Panics behind the wire layer

The verification that `OnPropose`, `OnVote`, `OnNewView` and `OnRemoteTimeout` call for what a peer
sent. A certificate without a signature is a nil dereference, unless it is for the genesis block or
view 0, and the crypto modules panic at a signature of a type that is not theirs. Without answers of
peers the verification ends as that of `Replica` does.
-/

namespace NimbleChain.HotStuff.Receiver

open Common Returns
open Pb (Panic ServerEvent Message Signature)

/-- What the handlers consult while they verify. An answer `none` of the crypto module is its panic
for a signature of another type. -/
structure Env (Sig : Type) where
  S : Primitives Sig
  quorum : Nat
  useAggQC : Bool
  id : ID
  /-- `Verify`, for a signature that is there. -/
  verify : Sig → Bytes → Option Bool
  /-- `BatchVerify`, for a signature that is there. -/
  batchVerify : Sig → IDMap Bytes → Option Bool
  combine : List (Option Sig) → Option (Except CryptoError Sig)
  /-- `LocalGet`. -/
  localGet : Hash → Option (Block Sig)
  /-- `Get`, with the answer of the peers for a block that is not stored. -/
  get : Hash → Option (Block Sig)
  highQC : QuorumCert Sig
  highTC : TimeoutCert Sig
  currentView : View
  /-- Whether the replica leads a view. -/
  leads : View → Bool
  /-- Whether the other checks of `OnPropose` let a proposal pass. -/
  accepts : ProposeMsg Sig → Bool
  /-- The next command of the queue. -/
  command : Command
  /-- The timeout messages collected for a view. -/
  timeouts : View → List (TimeoutMsg Sig)

variable {Sig : Type} (E : Env Sig) (advance : Env Sig → SyncInfo Sig → Except Panic Unit)
  (syncInfo : SyncInfo Sig) (aggQC : AggregateQC Sig) (proposal : ProposeMsg Sig) (view : View)
  (cert : PartialCert Sig) (tc : TimeoutCert Sig) (qc : QuorumCert Sig) (v : View)

/-! ## Verification -/

/-- The answer of a crypto module, or its panic. -/
def orPanic {α : Type} : Option α → Except Panic α
  | none => .error .incompatibleType
  | some answer => .ok answer

/-- `Verify`. -/
def verify (sig : Option Sig) (message : Bytes) : Except Panic Bool :=
  match sig with
  | none => .error .nilDereference
  | some sig => orPanic (E.verify sig message)

/-- `VerifyPartialCert`. -/
def verifyPartialCert : Except Panic Bool :=
  match E.get cert.blockHash with
  | none => .ok false
  | some block => verify E (some cert.signature) (block.toBytes E.S)

/-- `VerifyQuorumCert`. -/
def verifyQuorumCert : Except Panic Bool :=
  if qc.hash = (genesis : Block Sig).hash E.S then .ok true
  else
    match qc.signature with
    | none => .error .nilDereference
    | some sig =>
      if (E.S.participants sig).card < E.quorum then .ok false
      else
        match E.get qc.hash with
        | none => .ok false
        | some block => verify E (some sig) (block.toBytes E.S)

/-- `VerifyTimeoutCert`. -/
def verifyTimeoutCert : Except Panic Bool :=
  if tc.view = 0 then .ok true
  else
    match tc.signature with
    | none => .error .nilDereference
    | some sig =>
      if (E.S.participants sig).card < E.quorum then .ok false
      else verify E (some sig) (viewToBytes tc.view)

/-- The QC with the highest view in an aggregate QC. -/
def highQCOf : QuorumCert Sig :=
  pickHighQC (aggQC.qcs.entries.map Prod.snd)

/-- `VerifyAggregateQC`: the high QC, if the aggregate is valid. -/
def verifyAggregateQC :
    Except Panic (Option (QuorumCert Sig)) :=
  match aggQC.sig with
  | none => .error .nilDereference
  | some sig =>
    if (E.S.participants sig).card < E.quorum then .ok none
    else do
      if ← orPanic (E.batchVerify sig (aggQC.messages E.S)) then
        let valid ← verifyQuorumCert E (highQCOf aggQC)
        return if valid then some (highQCOf aggQC) else none
      else return none

/-! ## The handlers -/

/-- The aggregate QC, if they are in use. -/
def usedAggQC (aggQC : Option (AggregateQC Sig)) : Option (AggregateQC Sig) :=
  if E.useAggQC then aggQC else none

/-- The check of the aggregate QC in `OnPropose`. -/
def checkAggregateQC : Except Panic Bool :=
  match usedAggQC E proposal.aggregateQC with
  | none => .ok true
  | some aggQC => do
    let highQC ← verifyAggregateQC E aggQC
    return highQC.any (proposal.block.cert.equals E.S)

/-- The verification in `OnPropose`. -/
def checkProposal : Except Panic Bool := do
  if ← checkAggregateQC E proposal then verifyQuorumCert E proposal.block.cert else return false

/-- The TC part of `AdvanceView`: the view of a valid TC, 0 if there is none, or nothing. -/
def advanceTC : Except Panic (Option View) :=
  match syncInfo.tc with
  | none => .ok (some 0)
  | some tc => do
    let valid ← verifyTimeoutCert E tc
    return if valid then some tc.view else none

/-- The QC part of `AdvanceView`: the view to leave and the sync info with the verified QC, or
nothing. -/
def advanceQC :
    Except Panic (Option (View × SyncInfo Sig)) :=
  match usedAggQC E syncInfo.aggQC with
  | some aggQC => do
    let highQC ← verifyAggregateQC E aggQC
    return highQC.map fun highQC =>
      let v := if v ≤ aggQC.view then aggQC.view else v
      (if v ≤ highQC.view then highQC.view else v, { syncInfo with qc := some highQC })
  | none =>
    match syncInfo.qc with
    | none => .ok (some (v, syncInfo))
    | some qc => do
      let valid ← verifyQuorumCert E qc
      return if valid then some (if v ≤ qc.view then qc.view else v, syncInfo) else none

/-- The block that `Propose` makes on a sync info. -/
def ownProposal : ProposeMsg Sig :=
  let qc := syncInfo.qc.getD QuorumCert.zero
  { id := E.id
    block := { parent := qc.hash, proposer := E.id, cmd := E.command, cert := qc, view := view }
    aggregateQC := usedAggQC E syncInfo.aggQC }

/-- The end of `AdvanceView`: the leader of the new view makes a proposal and handles it, with
`advance` for the nested `AdvanceView`. -/
def enterView (syncInfo : SyncInfo Sig) : Except Panic Unit :=
  if v < E.currentView then .ok ()
  else if E.leads (v + 1) then do
    let proposal := ownProposal E syncInfo (v + 1)
    if ← checkProposal E proposal then
      if E.accepts proposal then
        advance { E with currentView := v + 1 } { qc := some proposal.block.cert }
      else return ()
    else return ()
  else .ok ()

/-- `AdvanceView` after the TC was verified. -/
def advanceFrom : Except Panic Unit := do
  match ← advanceQC E syncInfo v with
  | none => return ()
  | some next => enterView E advance next.1 next.2

/-- `AdvanceView`; the number bounds the nested calls. -/
def advanceView : Nat → Env Sig → SyncInfo Sig → Except Panic Unit
  | 0, _, _ => .ok ()
  | n + 1, E, syncInfo => do
    match ← advanceTC E syncInfo with
    | none => return ()
    | some v => advanceFrom E (advanceView n) syncInfo v

/-- `OnPropose`. -/
def onPropose (n : Nat) (proposal : ProposeMsg Sig) : Except Panic Unit := do
  if ← checkProposal E proposal then
    if E.accepts proposal then advanceView n E { qc := some proposal.block.cert } else return ()
  else return ()

/-- `verifyCert` of the voting machine, for a vote that is not too old. -/
def checkVote (block : Block Sig) : Except Panic Unit :=
  if block.view ≤ E.highQC.view then .ok ()
  else do
    let _valid ← verifyPartialCert E cert
    return ()

/-- `OnVote`: a vote for a block that is not stored is handled later, in the environment `E'`. -/
def onVote (E E' : Env Sig) (cert : PartialCert Sig) : Except Panic Unit :=
  match E.localGet cert.blockHash with
  | some block => checkVote E cert block
  | none =>
    match E'.get cert.blockHash with
    | none => .ok ()
    | some block => checkVote E' cert block

/-- `CreateTimeoutCert`. -/
def createTimeoutCert :
    Except Panic (Except CryptoError (TimeoutCert Sig)) :=
  if view = 0 then .ok (.ok { signature := none, view := 0 })
  else do
    let sig ← orPanic (E.combine ((E.timeouts view).map TimeoutMsg.viewSignature))
    return sig.map fun sig => { signature := some sig, view := view }

/-- The message signatures that `CreateAggregateQC` combines. -/
def msgSignatures : List (Option Sig) :=
  ((E.timeouts view).filterMap TimeoutMsg.msgSignature).map some

/-- The sync info that a quorum of timeouts leads to. `currView` is the view in which the last one
arrived. -/
def timeoutSyncInfo (currView view : View) (tc : TimeoutCert Sig) :
    Except Panic (SyncInfo Sig) :=
  let si : SyncInfo Sig := { qc := some E.highQC, tc := some tc }
  if E.useAggQC then do
    match ← orPanic (E.combine (msgSignatures E view)) with
    | .error _ => return si
    | .ok sig =>
      return { si with
        aggQC := some { qcs := collectQCs (E.timeouts view), sig := some sig, view := currView } }
  else .ok si

/-- The end of `OnRemoteTimeout`, which advances once a quorum of timeout messages is there. -/
def finishTimeout (n : Nat) (currView view : View) : Except Panic Unit :=
  if (E.timeouts view).length < E.quorum then .ok ()
  else do
    match ← createTimeoutCert E view with
    | .error _ => return ()
    | .ok tc =>
      let si ← timeoutSyncInfo E currView view tc
      advanceView n E si

/-- `OnRemoteTimeout`; the environment is `E'` after the first `AdvanceView`. -/
def onRemoteTimeout (E E' : Env Sig) (n : Nat) (timeout : TimeoutMsg Sig) : Except Panic Unit := do
  if ← verify E timeout.viewSignature (viewToBytes timeout.view) then
    advanceView n E timeout.syncInfo
    finishTimeout E' n E.currentView timeout.view
  else return ()

/-- The event handlers. -/
def handle (E E' : Env Sig) (n : Nat) : ServerEvent Sig → Except Panic Unit
  | .propose proposal => onPropose E n proposal
  | .vote _ cert => onVote E E' cert
  | .newView _ syncInfo => advanceView n E syncInfo
  | .timeout timeout => onRemoteTimeout E E' n timeout

/-- The way of a message through the server and the event handlers. -/
def receive {Point : Type} (fromCompressed : Bytes → Option Point) (E E' : Env (Signature Point))
    (n : Nat) (peer : Option ID) (msg : Message) : Except Panic Unit := do
  match ← Pb.serve fromCompressed peer msg with
  | none => return ()
  | some event => handle E E' n event

/-! ## The handlers of a replica -/

section Agreement

open Program

variable (M : Modules Sig) {E : Env Sig} {chain : BlockChain Sig} {α β : Type} {x : Except Panic α}
  {c : Handler Sig α}

/-- What a replica consults whose crypto module answers for every signature. -/
def Env.of (E : Env Sig) (chain : BlockChain Sig) : Env Sig :=
  { E with
    S := M.S
    quorum := M.quorum
    useAggQC := M.useAggQC
    verify := fun sig message => some (M.crypto.verify sig message)
    batchVerify := fun sig batch => some (M.crypto.batchVerify sig batch)
    get := chain.localGet M.S }

/-- Without answers of peers the handler ends as the verification does, and keeps the chain. -/
def Agree (chain : BlockChain Sig) (x : Except Panic α) (c : Handler Sig α) : Prop :=
  ∀ r : Replica Sig, r.chain = chain ∧ r.env.fetch = [] →
    c.wp (fun a r' => x = .ok a ∧ r'.chain = chain ∧ r'.env.fetch = [])
      (fun e _ => e = .nilSignature ∧ x = .error .nilDereference) r

theorem Agree.pure (a : α) : Agree chain (.ok a) (pure a) :=
  fun _ hr => ⟨rfl, hr⟩

theorem Agree.ite {p : Prop} [Decidable p] {y : Except Panic α} {d : Handler Sig α}
    (h : Agree chain x c) (h' : Agree chain y d) :
    Agree chain (if p then x else y) (if p then c else d) := by
  split
  · exact h
  · exact h'

theorem Agree.bind {f : α → Except Panic β} {g : α → Handler Sig β} (h : Agree chain x c)
    (hnext : ∀ a, Agree chain (f a) (g a)) : Agree chain (x >>= f) (c >>= g) := by
  intro r hr
  refine wp_seq (h r hr) ?_ ?_
  · rintro a r' ⟨rfl, hr'⟩
    exact hnext a r' hr'
  · rintro e _ ⟨rfl, rfl⟩
    exact ⟨rfl, rfl⟩

theorem Agree.getBlock {hash : Hash} {g : Option (Block Sig) → Handler Sig α}
    (h : Agree chain x (g (chain.localGet M.S hash))) :
    Agree chain x (HotStuff.getBlock M hash >>= g) := by
  rintro r ⟨rfl, hfetch⟩
  simp only [wp, exec_bind, getBlock_exec M hfetch]
  exact h r ⟨rfl, hfetch⟩

/-- A check that records what it accepts. -/
theorem agree_record (valid : Bool) (entry : Entry Sig) :
    Agree chain (.ok valid)
      (if valid then do modify (·.record entry); Pure.pure true else Pure.pure false) := by
  intro r hr
  cases valid <;> exact ⟨rfl, hr⟩

theorem agree_verifyQuorumCert (qc : QuorumCert Sig) :
    Agree chain (verifyQuorumCert (E.of M chain) qc) (HotStuff.verifyQuorumCert M qc) := by
  refine .ite (.pure true) ?_
  cases qc.signature with
  | none => exact fun _ _ => ⟨rfl, rfl⟩
  | some sig =>
    refine .ite (.pure false) (.getBlock M ?_)
    have hget : (E.of M chain).get qc.hash = chain.localGet M.S qc.hash := rfl
    rw [hget]
    cases chain.localGet M.S qc.hash with
    | none => exact .pure false
    | some block => exact agree_record _ _

theorem agree_verifyTimeoutCert (tc : TimeoutCert Sig) :
    Agree chain (verifyTimeoutCert (E.of M chain) tc) (HotStuff.verifyTimeoutCert M tc) := by
  refine .ite (.pure true) ?_
  cases tc.signature with
  | none => exact fun _ _ => ⟨rfl, rfl⟩
  | some sig => exact .ite (.pure false) (agree_record _ _)

theorem agree_verifyAggregateQC (aggQC : AggregateQC Sig) :
    Agree chain (verifyAggregateQC (E.of M chain) aggQC) (HotStuff.verifyAggregateQC M aggQC) := by
  unfold verifyAggregateQC HotStuff.verifyAggregateQC
  cases aggQC.sig with
  | none => exact fun _ _ => ⟨rfl, rfl⟩
  | some sig =>
    refine .ite (.pure none) ((agree_record _ _).bind fun accepted => ?_)
    refine .ite ((agree_verifyQuorumCert M _).bind fun valid => ?_) (.pure none)
    cases valid <;> exact .pure _

theorem agree_updateHighQC (qc : QuorumCert Sig) (a : α) :
    Agree chain (.ok a) (updateHighQC M qc >>= fun _ => pure a) := by
  refine .bind (x := .ok ()) (f := fun _ => .ok a) (.getBlock M ?_) fun _ => .pure a
  cases chain.localGet M.S qc.hash with
  | none => exact .pure ()
  | some block => exact fun _ hr => ⟨rfl, hr⟩

/-- The TC part of `AdvanceView`. -/
theorem agree_advanceTC (syncInfo : SyncInfo Sig) :
    Agree chain (advanceTC (E.of M chain) syncInfo) (HotStuff.advanceTC M syncInfo) := by
  unfold advanceTC HotStuff.advanceTC
  cases syncInfo.tc with
  | none => exact .pure _
  | some tc =>
    refine (agree_verifyTimeoutCert M tc).bind fun valid => ?_
    cases valid with
    | false => exact .pure none
    | true =>
      intro r hr
      have hsame : (r.updateHighTC tc).chain = chain ∧ (r.updateHighTC tc).env.fetch = [] := by
        unfold Replica.updateHighTC
        split <;> exact hr
      exact ⟨rfl, hsame⟩

/-- The QC part of `AdvanceView`. -/
theorem agree_advanceQC (syncInfo : SyncInfo Sig) (v : View) :
    Agree chain (advanceQC (E.of M chain) syncInfo v) (HotStuff.advanceQC M syncInfo v) := by
  have hused : usedAggQC (E.of M chain) syncInfo.aggQC = if M.useAggQC then syncInfo.aggQC
      else none := rfl
  unfold advanceQC HotStuff.advanceQC
  rw [hused]
  cases if M.useAggQC then syncInfo.aggQC else none with
  | some aggQC =>
    refine (agree_verifyAggregateQC M aggQC).bind fun highQC => ?_
    cases highQC with
    | none => exact .pure none
    | some highQC => exact agree_updateHighQC M highQC _
  | none =>
    cases syncInfo.qc with
    | none => exact .pure _
    | some qc =>
      refine (agree_verifyQuorumCert M qc).bind fun valid => ?_
      cases valid with
      | false => exact .pure none
      | true => exact agree_updateHighQC M qc _

end Agreement

/-! ## Certificates that can be verified -/

/-- The genesis QC, or a QC with a signature of the right type. Too few participants and an unknown
block are found before. -/
def SafeQC : Prop :=
  qc.hash = (genesis : Block Sig).hash E.S ∨
    ∃ sig ∈ qc.signature, (E.S.participants sig).card < E.quorum ∨
      ∀ block ∈ E.get qc.hash, (E.verify sig (block.toBytes E.S)).isSome

/-- The TC of view 0, or a TC with a signature of the right type. -/
def SafeTC : Prop :=
  tc.view = 0 ∨
    ∃ sig ∈ tc.signature, (E.S.participants sig).card < E.quorum ∨
      (E.verify sig (viewToBytes tc.view)).isSome

/-- An aggregate QC with a signature of the right type whose high QC can be verified. -/
def SafeAggQC : Prop :=
  ∃ sig ∈ aggQC.sig, (E.S.participants sig).card < E.quorum ∨
    (E.batchVerify sig (aggQC.messages E.S)).isSome ∧
      (E.batchVerify sig (aggQC.messages E.S) = some true → SafeQC E (highQCOf aggQC))

variable {E E' : Env Sig} {syncInfo : SyncInfo Sig} {n : Nat} {proposal : ProposeMsg Sig}
  {view v currView : View} {cert : PartialCert Sig} {α : Type} {answer : Option α}
  {qc : QuorumCert Sig} {tc : TimeoutCert Sig} {aggQC : AggregateQC Sig}
  {advance : Env Sig → SyncInfo Sig → Except Panic Unit} (useAggQC : Bool)

theorem orPanic_eq_ok {a : α} : orPanic answer = .ok a ↔ answer = some a := by
  cases answer with
  | none => simp [orPanic]
  | some a => simp [orPanic]

theorem returns_orPanic_iff : Returns (orPanic answer) ↔ answer.isSome := by
  cases answer with
  | none => simp [orPanic]
  | some a => simp [orPanic]

theorem returns_verifyQuorumCert_iff : Returns (verifyQuorumCert E qc) ↔ SafeQC E qc := by
  unfold verifyQuorumCert SafeQC
  split
  · simp [*]
  · cases qc.signature with
    | none => simp [*]
    | some sig =>
      by_cases hfew : (E.S.participants sig).card < E.quorum
      · simp [hfew]
      · cases hget : E.get qc.hash with
        | none => simp [hfew]
        | some block => simp [*, verify, returns_orPanic_iff]

theorem returns_verifyTimeoutCert_iff : Returns (verifyTimeoutCert E tc) ↔ SafeTC E tc := by
  unfold verifyTimeoutCert SafeTC
  split
  · simp [*]
  · cases tc.signature with
    | none => simp [*]
    | some sig =>
      by_cases hfew : (E.S.participants sig).card < E.quorum
      · simp [hfew]
      · simp [*, verify, returns_orPanic_iff]

theorem returns_verifyPartialCert_iff :
    Returns (verifyPartialCert E cert) ↔
      ∀ block ∈ E.get cert.blockHash, (E.verify cert.signature (block.toBytes E.S)).isSome := by
  unfold verifyPartialCert
  cases E.get cert.blockHash with
  | none => simp
  | some block => simp [verify, returns_orPanic_iff]

theorem returns_verifyAggregateQC_iff :
    Returns (verifyAggregateQC E aggQC) ↔ SafeAggQC E aggQC := by
  unfold verifyAggregateQC SafeAggQC
  cases aggQC.sig with
  | none => simp
  | some sig =>
    by_cases hfew : (E.S.participants sig).card < E.quorum
    · simp [hfew]
    · dsimp only
      rw [if_neg hfew, bind_iff]
      simp only [orPanic_eq_ok, Option.mem_some_iff, exists_eq_left', hfew, false_or]
      cases E.batchVerify sig (aggQC.messages E.S) with
      | none => simp
      | some valid =>
        cases valid with
        | false => simp
        | true => simp [returns_verifyQuorumCert_iff]

/-- A valid aggregate QC has a valid high QC. -/
theorem verifyQuorumCert_of_aggregate {highQC : QuorumCert Sig}
    (h : verifyAggregateQC E aggQC = .ok (some highQC)) : verifyQuorumCert E highQC = .ok true := by
  unfold verifyAggregateQC at h
  split at h
  · cases h
  split at h
  · cases h
  obtain ⟨valid, -, hrest⟩ := bind_eq_ok.mp h
  cases valid with
  | false => cases hrest
  | true =>
    obtain ⟨ok, hok, heq⟩ := bind_eq_ok.mp hrest
    cases ok with
    | false => cases heq
    | true =>
      cases heq
      exact hok

/-! ## Handlers that return -/

/-- A proposal whose aggregate QC, if it is used, and whose QC can be verified. -/
def SafeProposal (E : Env Sig) (proposal : ProposeMsg Sig) : Prop :=
  (∀ aggQC ∈ usedAggQC E proposal.aggregateQC, SafeAggQC E aggQC) ∧
    (checkAggregateQC E proposal = .ok true → SafeQC E proposal.block.cert)

/-- A sync info whose TC can be verified and, if that is valid, whose aggregate QC or QC; without
either the replica does not lead a new view. -/
def SafeSyncInfo (E : Env Sig) (syncInfo : SyncInfo Sig) : Prop :=
  (∀ tc ∈ syncInfo.tc, SafeTC E tc) ∧
    ∀ v, advanceTC E syncInfo = .ok (some v) →
      match usedAggQC E syncInfo.aggQC, syncInfo.qc with
      | some aggQC, _ => SafeAggQC E aggQC
      | none, some qc => SafeQC E qc
      | none, none => v < E.currentView ∨ E.leads (v + 1) = false ∨ SafeQC E QuorumCert.zero

theorem returns_checkAggregateQC_iff :
    Returns (checkAggregateQC E proposal) ↔
      ∀ aggQC ∈ usedAggQC E proposal.aggregateQC, SafeAggQC E aggQC := by
  unfold checkAggregateQC
  cases usedAggQC E proposal.aggregateQC with
  | none => simp
  | some aggQC => simp [returns_verifyAggregateQC_iff]

theorem returns_checkProposal_iff :
    Returns (checkProposal E proposal) ↔ SafeProposal E proposal := by
  unfold checkProposal SafeProposal
  rw [bind_iff, ← returns_checkAggregateQC_iff]
  constructor
  · rintro ⟨fits, hfits, hrest⟩
    refine ⟨⟨fits, hfits⟩, fun htrue => ?_⟩
    cases hfits.symm.trans htrue
    exact returns_verifyQuorumCert_iff.mp hrest
  · rintro ⟨⟨fits, hfits⟩, hsafe⟩
    refine ⟨fits, hfits, ?_⟩
    cases fits with
    | false => exact pure false
    | true => exact returns_verifyQuorumCert_iff.mpr (hsafe hfits)

/-- A proposal that passes has a valid QC. -/
theorem verifyQuorumCert_of_checkProposal (h : checkProposal E proposal = .ok true) :
    verifyQuorumCert E proposal.block.cert = .ok true := by
  obtain ⟨fits, -, hrest⟩ := bind_eq_ok.mp h
  cases fits with
  | false => cases hrest
  | true => exact hrest

/-- What an accepted proposal leads to is only reached with a valid QC. -/
theorem returns_accept_iff {next : Except Panic Unit}
    (hnext : verifyQuorumCert E proposal.block.cert = .ok true → Returns next) :
    Returns (checkProposal E proposal >>= fun passes =>
        if passes then if E.accepts proposal then next else return () else return ()) ↔
      SafeProposal E proposal := by
  rw [← returns_checkProposal_iff]
  refine bind_iff_left fun passes hpasses => ?_
  cases passes with
  | false => exact pure ()
  | true =>
    cases E.accepts proposal with
    | false => exact pure ()
    | true => exact hnext (verifyQuorumCert_of_checkProposal hpasses)

theorem returns_enterView_iff (hadvance : ∀ E' qc, verifyQuorumCert E' qc = .ok true → Returns
      (advance E' { qc := some qc })) :
    Returns (enterView E advance v syncInfo) ↔
      v < E.currentView ∨ E.leads (v + 1) = false ∨
        SafeProposal E (ownProposal E syncInfo (v + 1)) := by
  unfold enterView
  by_cases hold : v < E.currentView
  · simp [hold]
  · cases hleads : E.leads (v + 1) with
    | false => simp [hold]
    | true =>
      rw [if_neg hold, if_pos rfl]
      simp only [hold, Bool.true_eq_false, false_or]
      exact returns_accept_iff fun h => hadvance _ _ h

@[simp] theorem usedAggQC_idem (E : Env Sig) (aggQC : Option (AggregateQC Sig)) :
    usedAggQC E (usedAggQC E aggQC) = usedAggQC E aggQC := by
  unfold usedAggQC
  split <;> rfl

@[simp] theorem usedAggQC_none (E : Env Sig) : usedAggQC E none = none := by
  unfold usedAggQC
  split <;> rfl

theorem safeQC_of_valid (h : verifyQuorumCert E qc = .ok true) : SafeQC E qc :=
  returns_verifyQuorumCert_iff.mp ⟨true, h⟩

/-- Without an aggregate QC a leader's own proposal can be checked exactly if its QC can. -/
theorem safeProposal_ownProposal_iff (hagg : usedAggQC E syncInfo.aggQC = none) :
    SafeProposal E (ownProposal E syncInfo view) ↔
      SafeQC E (syncInfo.qc.getD QuorumCert.zero) := by
  simp [SafeProposal, checkAggregateQC, ownProposal, hagg]

/-- `AdvanceView` after the TC returns exactly if the aggregate QC or QC can be verified and the
replica does not lead without one. -/
theorem returns_advanceFrom_iff (hadvance : ∀ E' qc, verifyQuorumCert E' qc = .ok true → Returns
      (advance E' { qc := some qc })) :
    Returns (advanceFrom E advance syncInfo v) ↔
      match usedAggQC E syncInfo.aggQC, syncInfo.qc with
      | some aggQC, _ => SafeAggQC E aggQC
      | none, some qc => SafeQC E qc
      | none, none => v < E.currentView ∨ E.leads (v + 1) = false ∨ SafeQC E QuorumCert.zero := by
  unfold advanceFrom advanceQC
  cases hagg : usedAggQC E syncInfo.aggQC with
  | some aggQC =>
    dsimp only
    rw [← returns_verifyAggregateQC_iff]
    refine (bind_iff_left fun next hnext => ?_).trans bind_pure_iff
    obtain ⟨highQC, hhigh, heq⟩ := bind_eq_ok.mp hnext
    cases highQC with
    | none =>
      cases heq
      exact pure ()
    | some highQC =>
      cases heq
      refine (returns_enterView_iff hadvance).mpr (.inr (.inr ⟨?_, fun _ => ?_⟩))
      · intro used hused
        rw [ownProposal, usedAggQC_idem, hagg] at hused
        cases hused
        exact returns_verifyAggregateQC_iff.mp ⟨_, hhigh⟩
      · exact safeQC_of_valid (verifyQuorumCert_of_aggregate hhigh)
  | none =>
    cases hqc : syncInfo.qc with
    | none =>
      refine (returns_enterView_iff hadvance).trans ?_
      rw [safeProposal_ownProposal_iff hagg, hqc]
      rfl
    | some qc =>
      dsimp only
      rw [← returns_verifyQuorumCert_iff]
      refine (bind_iff_left fun next hnext => ?_).trans bind_pure_iff
      obtain ⟨valid, hvalid, heq⟩ := bind_eq_ok.mp hnext
      cases valid with
      | false =>
        cases heq
        exact pure ()
      | true =>
        cases heq
        refine (returns_enterView_iff hadvance).mpr (.inr (.inr ?_))
        rw [safeProposal_ownProposal_iff hagg, hqc]
        exact safeQC_of_valid hvalid

/-- `AdvanceView` with a valid QC alone returns. -/
theorem returns_advanceView_of_valid (n : Nat) (E : Env Sig) (qc : QuorumCert Sig)
    (h : verifyQuorumCert E qc = .ok true) : Returns (advanceView n E { qc := some qc }) := by
  induction n generalizing E qc with
  | zero => exact ok ()
  | succ n ih =>
    have hfrom : Returns (advanceFrom E (advanceView n) { qc := some qc } 0) := by
      rw [returns_advanceFrom_iff ih, usedAggQC_none]
      exact safeQC_of_valid h
    exact hfrom

theorem returns_advanceTC_iff :
    Returns (advanceTC E syncInfo) ↔ ∀ tc ∈ syncInfo.tc, SafeTC E tc := by
  unfold advanceTC
  cases syncInfo.tc with
  | none => simp
  | some tc => simp [returns_verifyTimeoutCert_iff]

theorem returns_advanceView_iff :
    Returns (advanceView (n + 1) E syncInfo) ↔ SafeSyncInfo E syncInfo := by
  have hfrom : ∀ v, Returns (advanceFrom E (advanceView n) syncInfo v) ↔ _ := fun v =>
    returns_advanceFrom_iff (returns_advanceView_of_valid n)
  rw [advanceView, SafeSyncInfo, ← returns_advanceTC_iff, bind_iff_forall]
  refine and_congr_right fun _ =>
    ⟨fun h v hv => (hfrom v).mp (h (some v) hv), fun h found hfound => ?_⟩
  cases found with
  | none => exact pure ()
  | some v => exact (hfrom v).mpr (h v hfound)

/-- A vote for a newer block that is found has a signature of the right type. -/
def SafeCheck (E : Env Sig) (cert : PartialCert Sig) (block : Block Sig) : Prop :=
  E.highQC.view < block.view →
    ∀ found ∈ E.get cert.blockHash, (E.verify cert.signature (found.toBytes E.S)).isSome

/-- A vote that can be verified, now or when its block is there. -/
def SafeVote (E E' : Env Sig) (cert : PartialCert Sig) : Prop :=
  match E.localGet cert.blockHash with
  | some block => SafeCheck E cert block
  | none => ∀ block ∈ E'.get cert.blockHash, SafeCheck E' cert block

/-- If the timeout messages of the view are a quorum, the certificates can be combined from them and
verified. -/
def SafeTimeouts (E : Env Sig) (currView view : View) : Prop :=
  E.quorum ≤ (E.timeouts view).length →
    (view ≠ 0 → (E.combine ((E.timeouts view).map TimeoutMsg.viewSignature)).isSome) ∧
    ∀ tc, createTimeoutCert E view = .ok (.ok tc) →
      (E.useAggQC = true → (E.combine (msgSignatures E view)).isSome) ∧
      ∀ si, timeoutSyncInfo E currView view tc = .ok si → SafeSyncInfo E si

/-- A timeout message with a view signature of the right type and, if that is valid, a sync info
that can be handled, as can the quorum that it may complete. -/
def SafeTimeout (E E' : Env Sig) (timeout : TimeoutMsg Sig) : Prop :=
  ∃ sig ∈ timeout.viewSignature,
    (E.verify sig (viewToBytes timeout.view)).isSome ∧
    (E.verify sig (viewToBytes timeout.view) = some true →
      SafeSyncInfo E timeout.syncInfo ∧ SafeTimeouts E' E.currentView timeout.view)

/-- An event that the handlers can verify without a panic. -/
def SafeEvent (E E' : Env Sig) : ServerEvent Sig → Prop
  | .propose proposal => SafeProposal E proposal
  | .vote _ cert => SafeVote E E' cert
  | .newView _ syncInfo => SafeSyncInfo E syncInfo
  | .timeout timeout => SafeTimeout E E' timeout

theorem returns_onPropose_iff : Returns (onPropose E n proposal) ↔ SafeProposal E proposal :=
  returns_accept_iff (returns_advanceView_of_valid n E _)

theorem returns_checkVote_iff {block : Block Sig} :
    Returns (checkVote E cert block) ↔ SafeCheck E cert block := by
  unfold checkVote SafeCheck
  by_cases hold : block.view ≤ E.highQC.view
  · simp [hold, UInt64.not_lt.mpr hold]
  · rw [if_neg hold, bind_pure_iff, returns_verifyPartialCert_iff]
    simp [UInt64.not_le.mp hold]

theorem returns_onVote_iff : Returns (onVote E E' cert) ↔ SafeVote E E' cert := by
  unfold onVote SafeVote
  cases E.localGet cert.blockHash with
  | some block => exact returns_checkVote_iff
  | none =>
    cases E'.get cert.blockHash with
    | none => simp
    | some block => simp [returns_checkVote_iff]

theorem returns_createTimeoutCert_iff :
    Returns (createTimeoutCert E view) ↔
      (view ≠ 0 → (E.combine ((E.timeouts view).map TimeoutMsg.viewSignature)).isSome) := by
  unfold createTimeoutCert
  by_cases hzero : view = 0
  · simp [hzero]
  · rw [if_neg hzero, bind_pure_iff, returns_orPanic_iff]
    simp [hzero]

theorem returns_timeoutSyncInfo_iff :
    Returns (timeoutSyncInfo E currView view tc) ↔
      (E.useAggQC = true → (E.combine (msgSignatures E view)).isSome) := by
  unfold timeoutSyncInfo
  cases E.useAggQC with
  | false => simp
  | true =>
    rw [if_pos rfl, ← returns_orPanic_iff, imp_iff_right rfl]
    refine bind_iff_left fun result _ => ?_
    cases result with
    | error e => exact pure _
    | ok sig => exact pure _

theorem returns_finishTimeout_iff :
    Returns (finishTimeout E (n + 1) currView view) ↔ SafeTimeouts E currView view := by
  unfold finishTimeout SafeTimeouts
  by_cases hfew : (E.timeouts view).length < E.quorum
  · simp [hfew, Nat.not_le.mpr hfew]
  have hrest : ∀ tc, Returns (timeoutSyncInfo E currView view tc >>= advanceView (n + 1) E) ↔
      (E.useAggQC = true → (E.combine (msgSignatures E view)).isSome) ∧
        ∀ si, timeoutSyncInfo E currView view tc = .ok si → SafeSyncInfo E si := by
    intro tc
    rw [bind_iff_forall, returns_timeoutSyncInfo_iff]
    simp only [returns_advanceView_iff]
  rw [if_neg hfew, imp_iff_right (Nat.not_lt.mp hfew), ← returns_createTimeoutCert_iff,
    bind_iff_forall]
  refine and_congr_right fun _ => ⟨fun h tc htc => (hrest tc).mp (h _ htc), fun h made hmade => ?_⟩
  cases made with
  | error e => exact pure ()
  | ok tc => exact (hrest tc).mpr (h tc hmade)

theorem returns_onRemoteTimeout_iff {timeout : TimeoutMsg Sig} :
    Returns (onRemoteTimeout E E' (n + 1) timeout) ↔ SafeTimeout E E' timeout := by
  unfold onRemoteTimeout SafeTimeout
  cases timeout.viewSignature with
  | none => simp [verify, bind_iff]
  | some sig =>
    rw [verify, bind_iff]
    simp only [orPanic_eq_ok, Option.mem_some_iff, exists_eq_left']
    cases E.verify sig (viewToBytes timeout.view) with
    | none => simp
    | some valid =>
      cases valid with
      | false => simp
      | true =>
        simp only [Option.some.injEq, exists_eq_left', if_true, Option.isSome_some, true_and,
          forall_const]
        rw [seq_iff, returns_advanceView_iff, returns_finishTimeout_iff]

theorem returns_handle_iff {event : ServerEvent Sig} :
    Returns (handle E E' (n + 1) event) ↔ SafeEvent E E' event := by
  cases event with
  | propose proposal => exact returns_onPropose_iff
  | vote id cert => exact returns_onVote_iff
  | newView id syncInfo => exact returns_advanceView_iff
  | timeout timeout => exact returns_onRemoteTimeout_iff

/-- A message passes the server and the event handlers without a panic exactly if it is complete and
its event can be verified. -/
theorem message_received_iff {Point : Type} (fromCompressed : Bytes → Option Point)
    (E E' : Env (Signature Point)) (n : Nat) (peer : Option ID) (msg : Message) :
    Returns (receive fromCompressed E E' (n + 1) peer msg) ↔
      (peer = none ∨ Pb.Complete fromCompressed msg) ∧
        ∀ event, Pb.serve fromCompressed peer msg = .ok (some event) → SafeEvent E E' event := by
  rw [← Pb.returns_serve_iff, receive, bind_iff_forall]
  refine and_congr_right fun _ =>
    ⟨fun h event hevent => returns_handle_iff.mp (h (some event) hevent), fun h served hserved =>
    ?_⟩
  cases served with
  | none => exact pure ()
  | some event => exact returns_handle_iff.mpr (h event hserved)

/-! ## Messages that make a replica panic -/

section Samples

/-- Replica 1 of four replicas with ECDSA signatures, in view 1; it leads view 6. -/
def sampleEnv : Env (Signature Unit) where
  S :=
    { sum256 := Ecdsa.foldHash
      sigToBytes := fun _ => []
      participants := fun sig => (sig.participants.toOption.getD []).toFinset }
  quorum := 3
  useAggQC := useAggQC
  id := 1
  verify sig _ :=
    match sig with
    | .ecdsa _ => some true
    | _ => none
  batchVerify sig _ :=
    match sig with
    | .ecdsa _ => some true
    | _ => none
  combine _ := some (.error .combineMultiple)
  localGet _ := none
  get _ := none
  highQC := QuorumCert.zero
  highTC := { signature := none, view := 0 }
  currentView := 1
  leads v := v == 6
  accepts _ := true
  command := []
  timeouts _ := []

/-- How replica 1 receives a message of replica 4. -/
def sampleReceive (msg : Message) : Except Panic Unit :=
  receive (fun _ => some ()) (sampleEnv useAggQC) (sampleEnv useAggQC) 2 (some 4) msg

/-- An ECDSA signature of the replicas 1, 2 and 3. -/
def threeSigs : Pb.QuorumSignature :=
  ⟨some (.ecdsaSigs [⟨1, [1], [1]⟩, ⟨2, [1], [1]⟩, ⟨3, [1], [1]⟩])⟩

/-- Messages with missing parts, and a sync info without a QC at the leader of the next view. -/
theorem missing_parts_panic :
    sampleReceive false (.proposal ⟨none, none⟩) = .error .nilDereference ∧
    sampleReceive false (.proposal ⟨some ⟨[], none, 2, [], 4⟩, none⟩) = .error .nilDereference ∧
    sampleReceive false (.vote ⟨none, []⟩) = .error .nilDereference ∧
    sampleReceive false (.vote ⟨some ⟨none⟩, []⟩) = .error .nilDereference ∧
    sampleReceive false (.newView ⟨some ⟨none, 5, [7]⟩, none, none⟩) = .error .nilDereference ∧
    sampleReceive false (.newView ⟨none, some ⟨none, 5⟩, none⟩) = .error .nilDereference ∧
    sampleReceive false (.newView ⟨none, some ⟨some threeSigs, 5⟩, none⟩) =
      .error .nilDereference ∧
    sampleReceive false (.newView ⟨none, some ⟨some ⟨some (.eddsaSigs
      [⟨1, []⟩, ⟨2, []⟩, ⟨3, []⟩])⟩, 5⟩, none⟩) = .error .incompatibleType ∧
    sampleReceive true (.newView ⟨none, none, some ⟨⟨[], List.nodup_nil⟩, none, 5⟩⟩) =
      .error .nilDereference ∧
    sampleReceive false (.timeout ⟨1, none, none, none⟩) = .error .nilDereference := by
  decide +kernel

-- the same sync info with a signed QC is received
example : sampleReceive false (.newView ⟨some ⟨some threeSigs, 5, [7]⟩,
    some ⟨some threeSigs, 5⟩, none⟩) = .ok () := by
  decide +kernel

end Samples

end NimbleChain.HotStuff.Receiver
