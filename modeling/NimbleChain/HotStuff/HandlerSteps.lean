import NimbleChain.HotStuff.LockRules

/-!
# The steps that the handlers are made of

Apart from commits and the collection of timeout messages, everything that a handler of any variant
does to a replica is a sequence of the steps of `Step`. A reflexive and transitive relation that
contains the steps, ignores the collected timeout messages and holds along commits therefore holds
along every handler.
-/

namespace NimbleChain.HotStuff

open Common Program List Replica

variable {Sig : Type}

/-! ### Steps -/

/-- Entries about something else than signatures of the replica and the synchronizer. -/
def Entry.Silent : Entry Sig → Prop
  | .signed _ => False
  | .adopted _ _ => False
  | .entered _ => False
  | _ => True

/-- Blocks were looked up or stored, signatures were verified, a block was locked, or the replica
crashed; nothing else happened. -/
structure Ponders (r r' : Replica Sig) : Prop where
  rest : r' = { r with crashed := r'.crashed, chain := r'.chain, locked := r'.locked,
                       env := r'.env, trace := r'.trace }
  blocks : r.chain.blocks <:+ r'.chain.blocks
  trace : ∃ new, r'.trace = r.trace ++ new ∧ ∀ entry ∈ new, entry.Silent

instance : Std.Refl (@Ponders Sig) :=
  ⟨fun _ => ⟨rfl, List.suffix_refl _, [], by simp, by simp⟩⟩

variable {r r' : Replica Sig} {trace trace' : List (Entry Sig)} {v : View} {qc : QuorumCert Sig}
  {P : Replica Sig → Prop}

/-- Silent additions to a trace add up. -/
theorem silent_trans {trace'' : List (Entry Sig)}
    (h : ∃ new, trace' = trace ++ new ∧ ∀ entry ∈ new, entry.Silent)
    (h' : ∃ new, trace'' = trace' ++ new ∧ ∀ entry ∈ new, entry.Silent) :
    ∃ new, trace'' = trace ++ new ∧ ∀ entry ∈ new, entry.Silent := by
  obtain ⟨new, rfl, hsilent⟩ := h
  obtain ⟨new', rfl, hsilent'⟩ := h'
  refine ⟨new ++ new', append_assoc _ _ _, fun entry hentry => ?_⟩
  rcases mem_append.mp hentry with hmem | hmem
  · exact hsilent entry hmem
  · exact hsilent' entry hmem

instance : IsTrans (Replica Sig) Ponders := by
  refine ⟨fun r r' r'' h h' => ⟨?_, h.blocks.trans h'.blocks, silent_trans h.trace h'.trace⟩⟩
  have hrest := h'.rest
  rw [h.rest] at hrest
  exact hrest

/-- Looking up is pondering. -/
theorem LooksUp.ponders (h : LooksUp r r') : Ponders r r' := by
  obtain ⟨new, hnew, hkind⟩ := h.trace
  refine ⟨?_, h.blocks, new, hnew, ?_⟩
  · rw [h.rest]
  · intro entry hentry
    rcases hkind entry hentry with ⟨_, _, rfl⟩ | ⟨_, _, rfl⟩ <;> trivial

/-- A silent entry is recorded. -/
theorem Ponders.of_record (r : Replica Sig) {entry : Entry Sig} (h : entry.Silent) :
    Ponders r (r.record entry) :=
  ⟨rfl, suffix_refl _, [entry], rfl, by simpa using h⟩

variable (M : Modules Sig)

/-- The steps of a replica. -/
inductive Step : Replica Sig → Replica Sig → Prop where
  /-- Look things up, store blocks, verify signatures, lock. -/
  | ponder {r r' : Replica Sig} : Ponders r r' → Step r r'
  /-- Vote for a block that is newer than the last vote. -/
  | vote {r : Replica Sig} {block : Block Sig} : r.lastVote < block.view → Step r (r.vote block)
  /-- Sign the current view; the timeout message is signed later, if at all. -/
  | signView {r : Replica Sig} : M.useAggQC = true →
      Step r (r.record (.signed (.view r.currentView)))
  /-- Put the last signature on a timeout message for the current view and stop voting in it. -/
  | giveUp {r : Replica Sig} {what : Signed Sig} {t : TimeoutMsg Sig} :
      gaveUp M (.signed what) = some r.currentView → t.view = r.currentView →
      Step r (stopVoting { r.record (.signed what) with lastTimeout := some t } t.view)
  /-- Take a verified timeout certificate into account. -/
  | raise {r : Replica Sig} {tc : TimeoutCert Sig} : Evidence M r.trace tc.view →
      Step r (r.updateHighTC tc)
  /-- Compare a verified certificate with the high QC. -/
  | adopt {r : Replica Sig} {qc : QuorumCert Sig} {block : Block Sig} :
      block ∈ r.chain.blocks → block.hash M.S = qc.hash → Backed M r.trace block →
      Checked M r qc → Step r (r.adopt qc block)
  /-- Leave a view on evidence. -/
  | enter {r : Replica Sig} {v : View} : r.currentView ≤ v → Evidence M r.trace v →
      Step r (r.enter (v + 1))

/-- A sequence of steps. -/
abbrev Steps : Replica Sig → Replica Sig → Prop :=
  Relation.ReflTransGen (Step M)

variable {M}

/-- No step takes entries back. -/
theorem Step.trace_le (h : Step M r r') : r.trace <+: r'.trace := by
  cases h with
  | ponder h =>
    obtain ⟨new, hnew, -⟩ := h.trace
    exact hnew ▸ prefix_append _ _
  | vote => exact prefix_append _ _
  | signView => exact prefix_append _ _
  | giveUp =>
    rw [stopVoting_eq]
    exact prefix_append _ _
  | raise =>
    unfold updateHighTC
    split <;> exact prefix_rfl
  | adopt => exact prefix_append _ _
  | enter => exact prefix_append _ _

/-- Pondering is one step. -/
theorem Steps.ponder (h : Ponders r r') : Steps M r r' :=
  .single (.ponder h)

/-- Looking up is one step. -/
theorem LooksUp.steps (h : LooksUp r r') : Steps M r r' :=
  .ponder h.ponders

/-! ### Lookups and rules -/

section Rules

variable {α : Type}

/-- A program that only looks things up. -/
theorem along_of_wp {c : Handler Sig α} {Q : Replica Sig → α → Replica Sig → Prop}
    {E : Replica Sig → Crash → Replica Sig → Prop} (h : ∀ r, c.wp (Q r) (E r) r)
    (hQ : ∀ r a r', Q r a r' → LooksUp r r') (hE : ∀ r e r', E r e r' → LooksUp r r') :
    c.Along Ponders :=
  fun r => wp_mono (h r) (fun a r' hq => (hQ r a r' hq).ponders)
    (fun e r' he => (hE r e r' he).ponders)

/-- `Get` looks up. -/
theorem getBlock_along (hash : Hash) : (getBlock M hash).Along Ponders :=
  along_of_wp (getBlock_spec M hash) (fun _ _ _ h => h.1) (fun _ _ _ h => h.elim)

variable (block : Block Sig)

/-- `Extends` looks up. -/
theorem extendsBlock_along (target : Block Sig) : (extendsBlock M block target).Along Ponders :=
  along_of_wp (extendsBlock_spec block target) (fun _ _ _ h => h.1) (fun _ _ _ h => h)

/-- `VerifyQuorumCert` looks up. -/
theorem verifyQuorumCert_along (qc : QuorumCert Sig) : (verifyQuorumCert M qc).Along Ponders :=
  along_of_wp (verifyQuorumCert_spec M qc) (fun _ _ _ h => h.1) (fun _ _ _ h => h ▸ .refl _)

/-- `VerifyAggregateQC` looks up. -/
theorem verifyAggregateQC_along (aggQC : AggregateQC Sig) :
    (verifyAggregateQC M aggQC).Along Ponders :=
  along_of_wp (verifyAggregateQC_spec M aggQC) (fun _ _ _ h => h.1) (fun _ _ _ h => h)

/-- The acceptor is asked. -/
theorem acceptCommand_along : (acceptCommand : Handler Sig Bool).Along Ponders :=
  along_of_wp acceptCommand_spec (fun _ _ _ h => h) (fun _ _ _ h => h.elim)

/-- The command queue is asked. -/
theorem nextCommand_along : (nextCommand : Handler Sig Command).Along Ponders :=
  along_of_wp nextCommand_spec (fun _ _ _ h => h) (fun _ _ _ h => h.elim)

/-- `qcRef` looks up. -/
theorem qcRef_along (qc : QuorumCert Sig) : (qcRef M qc).Along Ponders :=
  .ite (fun _ => .pure _) (fun _ => getBlock_along _)

/-- A block to lock was not found. -/
theorem noteMissed_along (hash : Hash) : (noteMissed hash : Handler Sig Unit).Along Ponders :=
  .ite (fun _ => .pure _) (fun _ => .modify fun r => .of_record r trivial)

/-- Locking is pondering. -/
theorem lockOn_ponders (r : Replica Sig) (block : Block Sig) : Ponders r (r.lockOn block) := by
  rw [lockOn_eq]
  exact ⟨rfl, suffix_refl _, [], by simp, by simp⟩

/-- The commit rules with a lock. -/
theorem commitBelow_along {look : QuorumCert Sig → Handler Sig (Option (Block Sig))}
    (hlook : ∀ qc, (look qc).Along Ponders) (C : Block Sig → Block Sig → Block Sig → Prop)
    [∀ p gp, DecidablePred (C p gp)] : (commitBelow look C block).Along Ponders := by
  refine .bind (hlook _) ?_
  rintro (_ | p)
  · exact .pure _
  refine .bind (hlook _) ?_
  rintro (_ | gp)
  · exact .bind (noteMissed_along _) fun _ => .pure _
  refine .bind (.modify fun r => lockOn_ponders r gp) fun _ => .bind (hlook _) ?_
  rintro (_ | ggp)
  · exact .pure _
  exact .ite (fun _ => .bind (.modify fun r => .of_record r trivial) fun _ => .pure _)
    fun _ => .pure _

/-- The commit rule of Fast-HotStuff. -/
theorem Fast.commitRule_along : (Fast.commitRule M block).Along Ponders := by
  refine .bind (qcRef_along _) ?_
  rintro (_ | parent)
  · exact .pure _
  refine .bind (qcRef_along _) ?_
  rintro (_ | grandparent)
  · exact .pure _
  exact .ite (fun _ => .bind (.modify fun r => .of_record r trivial) fun _ => .pure _)
    fun _ => .pure _

variable (proposal : ProposeMsg Sig)

/-- The vote rule of Chained HotStuff. -/
theorem Chained.voteRule_along : (Chained.voteRule M proposal).Along Ponders := by
  refine .bind (getBlock_along _) ?_
  rintro (_ | qcBlock)
  · exact .bind .get fun r => extendsBlock_along _ _
  · refine .bind .get fun r => .ite (fun _ => .pure _) fun _ => ?_
    exact .bind .get fun r => extendsBlock_along _ _

/-- The vote rule of Simple HotStuff. -/
theorem Simple.voteRule_along : (Simple.voteRule M proposal).Along Ponders := by
  refine .bind .get fun r => .ite (fun _ => .pure _) fun _ => .bind (getBlock_along _) ?_
  rintro (_ | parent)
  · exact .pure _
  · exact .bind .get fun r => .pure _

/-- The vote rule of Fast-HotStuff. -/
theorem Fast.voteRule_along : (Fast.voteRule M proposal).Along Ponders := by
  unfold Fast.voteRule
  cases proposal.aggregateQC with
  | none => exact .bind .get fun r => .pure _
  | some aggQC =>
    refine .bind (getBlock_along _) ?_
    rintro (_ | hqcBlock)
    · exact .pure _
    · exact extendsBlock_along _ _

/-- What a commit does: blocks were looked up and executed. -/
structure Commits (r r' : Replica Sig) : Prop where
  rest : r' = { r with crashed := r'.crashed, chain := r'.chain, bExec := r'.bExec,
                       executed := r'.executed, locked := r'.locked, env := r'.env,
                       trace := r'.trace }
  blocks : r.chain.blocks <:+ r'.chain.blocks
  trace : ∃ new, r'.trace = r.trace ++ new ∧ ∀ entry ∈ new, entry.Silent

/-- A commit may execute nothing. -/
theorem Ponders.commits {r r' : Replica Sig} (h : Ponders r r') : Commits r r' := by
  refine ⟨?_, h.blocks, h.trace⟩
  rw [h.rest]

/-- A commit looks up and executes. -/
theorem commit_along {R : Replica Sig → Replica Sig → Prop} (hR : ∀ r r', Commits r r' → R r r')
    (block : Block Sig) : (commit M block).Along R := by
  intro r
  obtain ⟨r1, chain, hlooks, heq, -⟩ := commit_exec M block r
  have hcommits := hlooks.ponders.commits
  rw [always_iff, heq, execAll_eq]
  refine hR _ _ ⟨?_, hcommits.blocks, hcommits.trace⟩
  rw [hcommits.rest]

/-- The three variants of HotStuff. -/
inductive Variant where
  | chained
  | simple
  | fast
  deriving DecidableEq

/-- The rules of a variant. -/
def Variant.rules (M : Modules Sig) : Variant → Rules Sig
  | .chained => Chained.rules M
  | .simple => Simple.rules M
  | .fast => Fast.rules M

/-- No vote rule does more than ponder. -/
theorem Variant.voteRule_along (variant : Variant) (proposal : ProposeMsg Sig) :
    ((variant.rules M).voteRule proposal).Along Ponders := by
  cases variant with
  | chained => exact Chained.voteRule_along proposal
  | simple => exact Simple.voteRule_along proposal
  | fast => exact Fast.voteRule_along proposal

/-- Nor does a commit rule. -/
theorem Variant.commitRule_along (variant : Variant) (block : Block Sig) :
    ((variant.rules M).commitRule block).Along Ponders := by
  cases variant with
  | chained =>
    exact commitBelow_along block qcRef_along fun p gp ggp =>
      p.parent = gp.hash M.S ∧ gp.parent = ggp.hash M.S
  | simple =>
    exact commitBelow_along block (fun qc => getBlock_along qc.hash) fun p _ ggp =>
      ggp.view + 2 = p.view
  | fast => exact Fast.commitRule_along block

/-- Nor do the checks of `OnPropose`. -/
theorem checkProposal_along {rules : Rules Sig}
    (hvote : ∀ proposal, (rules.voteRule proposal).Along Ponders)
    (proposal : ProposeMsg Sig) : (checkProposal M rules proposal).Along Ponders := by
  have hagg : (checkAggregateQC M proposal).Along Ponders := by
    unfold checkAggregateQC
    split
    · refine .bind (verifyAggregateQC_along _) ?_
      rintro (_ | highQC)
      · exact .pure _
      · exact .pure _
    · exact .pure _
  refine .bind hagg fun ok => .ite (fun _ => ?_) fun _ => .pure _
  refine .bind (verifyQuorumCert_along _) fun ok => .ite (fun _ => ?_) fun _ => .pure _
  refine .bind .get fun r => .ite (fun _ => ?_) fun _ => .pure _
  refine .bind (hvote proposal) fun ok => .ite (fun _ => ?_) fun _ => .pure _
  exact .bind (getBlock_along _) fun _ => acceptCommand_along

end Rules

/-! ### Votes and certificates -/

/-- Casting a vote is a step. -/
theorem castVote_steps (block : Block Sig) (r : Replica Sig) :
    (castVote block).Always (Steps M r) r := by
  simp only [Program.Always, castVote, wp_bind, wp_get]
  split
  · exact .refl
  rename_i hnew
  refine wp_then (signWith_spec _ r) ?_
  intro sig r' hsign
  obtain ⟨env, hcase⟩ := hsign
  have henv : Steps M r { r with env := env } := (LooksUp.of_env r env).steps
  rcases hcase with ⟨rfl, rfl⟩ | ⟨hsig, rfl⟩
  · exact henv
  · obtain ⟨sig, rfl⟩ := Option.ne_none_iff_exists'.mp hsig
    exact henv.tail (.vote (UInt64.not_le.mp hnew))

/-- The TC part of `AdvanceView`. -/
theorem AdvancedTC.steps {syncInfo : SyncInfo Sig} {result : Option View}
    (h : AdvancedTC M syncInfo r result r') : Steps M r r' := by
  cases h with
  | absent => exact .refl
  | rejected _ hlooks => exact hlooks.steps
  | raised hlooks hevidence => exact hlooks.steps.tail (.raise hevidence)

/-- The QC part of `AdvanceView`. -/
theorem AdvancedQC.steps {syncInfo : SyncInfo Sig} {result : Option (View × SyncInfo Sig)}
    (h : AdvancedQC M syncInfo v r result r') : Steps M r r' := by
  cases h with
  | absent => exact .refl
  | rejected hlooks => exact hlooks.steps
  | adopted hlooks hchecked hblock hbacked =>
    obtain ⟨hmem, hhash⟩ := mem_of_localGet hblock
    exact hlooks.steps.tail (.adopt hmem hhash hbacked hchecked)

/-! ### Handlers -/

/-- What the rules of a variant have to establish for a relation to hold along the handlers. -/
structure Respects (M : Modules Sig) (R : Replica Sig → Replica Sig → Prop) (rules : Rules Sig) :
    Prop where
  voteRule : ∀ proposal, (rules.voteRule proposal).Along Ponders
  commitRule : ∀ block r, (rules.commitRule block).wp
    (fun result r' => Ponders r r' ∧ ∀ b, result = some b → (commit M b).Always (R r') r')
    (fun _ r' => Ponders r r') r

/-- The relation contains the steps and every change of the collected timeout messages. -/
structure Covers (M : Modules Sig) (R : Replica Sig → Replica Sig → Prop) : Prop where
  step : ∀ r r', Step M r r' → R r r'
  timeouts : ∀ r timeouts, R r { r with timeouts := timeouts }

section Handlers

variable {R : Replica Sig → Replica Sig → Prop} [Std.Refl R] [IsTrans (Replica Sig) R]
  (hR : ∀ r r', Step M r r' → R r r') {rules : Rules Sig} (hrules : Respects M R rules)

include hR

/-- The relation contains all steps. -/
theorem Steps.lift {r r' : Replica Sig} (h : Steps M r r') : R r r' := by
  induction h with
  | refl => exact Std.Refl.refl r
  | tail _ hstep ih => exact IsTrans.trans _ _ _ ih (hR _ _ hstep)

omit [Std.Refl R] [IsTrans (Replica Sig) R] in
theorem along_of_ponders {α : Type} {c : Handler Sig α} (h : c.Along Ponders) : c.Along R :=
  h.mono fun _ _ hp => hR _ _ (.ponder hp)

/-- Voting at the end of `OnPropose`. -/
theorem castVote_along (block : Block Sig) : (castVote block).Along R :=
  fun r => (castVote_steps block r).mono fun _ h => h.lift hR

include hrules

/-- `OnPropose`, given `AdvanceView`. -/
theorem onProposeWith_along {advance : SyncInfo Sig → Handler Sig Unit}
    (hadvance : ∀ syncInfo, (advance syncInfo).Along R) (proposal : ProposeMsg Sig) :
    (onProposeWith M rules advance proposal).Along R := by
  have htail : Program.Along R (do
      advance { qc := some proposal.block.cert }
      castVote proposal.block) :=
    .bind (hadvance _) fun _ => castVote_along hR _
  have haccept : ∀ r : Replica Sig, Ponders r (r.accept proposal) := fun r =>
    ⟨rfl, suffix_cons _ _, [.accepted proposal], rfl, by simp [Entry.Silent]⟩
  refine .bind (along_of_ponders hR (checkProposal_along hrules.voteRule proposal)) fun ok =>
    .ite (fun _ => ?_) fun _ => .pure _
  refine .bind (along_of_ponders hR (.modify haccept)) fun _ => ?_
  intro r
  refine wp_seq (hrules.commitRule proposal.block r) ?_ fun _ r' h => hR r r' (.ponder h)
  rintro (_ | block) r1 ⟨hponders, hcommit⟩
  · have hreach := hR _ _ (.ponder hponders)
    exact htail.after hreach
  · refine wp_seq (hcommit block rfl) ?_ ?_
    · intro _ r2 h2
      have hreach := IsTrans.trans _ _ _ (hR _ _ (.ponder hponders)) h2
      exact htail.after hreach
    · exact fun _ r2 h2 => IsTrans.trans _ _ _ (hR _ _ (.ponder hponders)) h2

omit hrules in
theorem proposeWith_along {onPropose : ProposeMsg Sig → Handler Sig Unit}
    (hpropose : ∀ proposal, (onPropose proposal).Along R) (cert : SyncInfo Sig) :
    (proposeWith M onPropose cert).Along R := by
  have hblock : (proposeBlock M onPropose cert).Along R := by
    refine .bind (along_of_ponders hR nextCommand_along) fun cmd => .bind .get fun r => ?_
    refine .bind (along_of_ponders hR (.modify fun r => ?_)) fun _ => hpropose _
    exact (LooksUp.of_store r _).ponders
  unfold proposeWith
  split
  · exact hblock
  · exact .bind (along_of_ponders hR (getBlock_along _)) fun _ => hblock

omit hrules in
theorem advanceViewWith_along {propose : SyncInfo Sig → Handler Sig Unit}
    (hpropose : ∀ syncInfo, (propose syncInfo).Along R) (syncInfo : SyncInfo Sig) :
    (advanceViewWith M propose syncInfo).Along R := by
  intro r
  refine wp_seq (advanceTC_spec syncInfo r) ?_ fun _ _ h => h.steps.lift hR
  rintro (_ | v) r1 htc
  · exact htc.steps.lift hR
  have hsteps1 := htc.steps
  refine wp_seq (advanceQC_spec syncInfo v r1) ?_ fun _ _ h => Steps.lift hR (hsteps1.trans h.steps)
  rintro (_ | ⟨v', syncInfo'⟩) r2 hqc
  · exact Steps.lift hR (hsteps1.trans hqc.steps)
  have hsteps2 := hqc.steps
  simp only [wp_bind, wp_get]
  split
  · exact Steps.lift hR (hsteps1.trans hsteps2)
  rename_i hview
  have henter : Steps M r (r2.enter (v' + 1)) :=
    (hsteps1.trans hsteps2).tail (.enter (UInt64.not_lt.mp hview) (hqc.evidence rfl htc.evidence))
  simp only [wp_bind, wp_modify, wp_get]
  split
  · exact (hpropose syncInfo').after (henter.lift hR)
  · exact henter.lift hR

/-- `AdvanceView`. -/
theorem advanceView_along (n : Nat) (syncInfo : SyncInfo Sig) :
    (advanceView M rules n syncInfo).Along R := by
  induction n generalizing syncInfo with
  | zero => exact .throw _
  | succ n ih =>
    have hpropose := onProposeWith_along hR hrules ih
    exact advanceViewWith_along hR (proposeWith_along hR hpropose) syncInfo

/-- `OnPropose`. -/
theorem onPropose_along (proposal : ProposeMsg Sig) : (onPropose M rules proposal).Along R :=
  onProposeWith_along hR hrules (advanceView_along hR hrules M.stack) proposal

end Handlers

/-- Giving up a view is made of steps. -/
theorem givesUp_steps : GivesUp M (Steps M) where
  looksUp _ _ h := h.steps
  signView _ huse := .single (.signView huse)
  giveUp _ _ _ hgave hview _ := .single (.giveUp hgave hview)

/-- A relation that contains the steps holds along every handler if it holds along the commits. -/
theorem Covers.spans {R : Replica Sig → Replica Sig → Prop} [Std.Refl R] [IsTrans (Replica Sig) R]
    (hR : Covers M R) {rules : Rules Sig} (hrules : Respects M R rules) : Spans M rules R where
  looksUp r r' h := hR.step r r' (.ponder h.ponders)
  timeouts := hR.timeouts
  crash r := hR.step r _ (.ponder ⟨rfl, suffix_refl _, [], by simp, by simp⟩)
  ownTimeout r := (givesUp_steps.ownTimeout r).mono fun _ h => h.lift hR.step
  advanceView := advanceView_along hR.step hrules M.stack
  onPropose := onPropose_along hR.step hrules
  propose := proposeWith_along hR.step (onPropose_along hR.step hrules)

/-! ### Histories of calls -/

/-- A call into the consensus module: an event for which it has a handler, or a commit of any
block. -/
inductive Call (Sig : Type) where
  | event (event : Event Sig)
  | commit (block : Block Sig)

/-- Calls, each with its environment. -/
abbrev Calls (Sig : Type) : Type :=
  List (Env Sig × Call Sig)

/-- What a call does. -/
def perform (M : Modules Sig) (rules : Rules Sig) : Call Sig → Handler Sig Unit
  | .event event => handle M rules event
  | .commit block => commit M block

/-- The state of a replica after a list of calls. -/
def history (M : Modules Sig) (variant : Variant) (i : ID) (calls : Calls Sig) :
    Replica Sig :=
  calls.foldl (fun r call => r.after (perform M (variant.rules M) call.2) call.1) (init M.S i)

/-- What is kept along a program, as a relation between states. -/
def Keeps (P : Replica Sig → Prop) (r r' : Replica Sig) : Prop :=
  P r → P r'

instance (P : Replica Sig → Prop) : Std.Refl (Keeps P) :=
  ⟨fun _ h => h⟩

instance (P : Replica Sig → Prop) : IsTrans (Replica Sig) (Keeps P) :=
  ⟨fun _ _ _ h h' hP => h' (h hP)⟩

variable {R : Replica Sig → Replica Sig → Prop}

/-- The rules of the variants only look things up, so that a relation that holds along commits is
respected. -/
theorem Variant.respects (hcommit : ∀ block, (commit M block).Along R) (variant : Variant) :
    Respects M R (variant.rules M) where
  voteRule := variant.voteRule_along
  commitRule block r := wp_mono (variant.commitRule_along block r)
    (fun _ r' h => ⟨h, fun b _ => hcommit b r'⟩) (fun _ _ h => h)

/-- One more call. -/
theorem history_append (variant : Variant) (i : ID) (calls : Calls Sig)
    (call : Env Sig × Call Sig) :
    history M variant i (calls ++ [call]) =
      (history M variant i calls).after (perform M (variant.rules M) call.2) call.1 :=
  foldl_concat _ _ _ _

section Related

variable [Std.Refl R] [IsTrans (Replica Sig) R] (hR : Covers M R)

include hR

/-- What contains the steps and holds along commits relates a replica before and after every list
of calls. -/
theorem history_along (hcommit : ∀ block, (commit M block).Along R) (variant : Variant) (i : ID)
    (calls more : Calls Sig) :
    R (history M variant i calls) (history M variant i (calls ++ more)) := by
  induction more using reverseRecOn with
  | nil =>
    rw [append_nil]
    exact Std.Refl.refl _
  | append_singleton more call ih =>
    have hspans := hR.spans (variant.respects hcommit)
    have hperform : (perform M (variant.rules M) call.2).Along R := by
      cases call.2 with
      | event event => exact hspans.handle event
      | commit block => exact hcommit block
    rw [← append_assoc, history_append]
    exact IsTrans.trans _ _ _ ih (hspans.after hperform _ _)

end Related

/-- What the steps and the commits keep holds after every list of calls. -/
theorem history_keeps (hP : Covers M (Keeps P))
    (hcommit : ∀ block, (commit M block).Along (Keeps P)) {i : ID} (hinit : P (init M.S i))
    (variant : Variant) (calls : Calls Sig) :
    P (history M variant i calls) :=
  history_along hP hcommit variant i [] calls hinit

/-! ### Runs of the network -/

section Runs

variable [Std.Refl R] [IsTrans (Replica Sig) R] (hR : Covers M R)

include hR

/-- What contains the steps and holds along commits relates a replica before and after each step of
a run. -/
theorem step_along (hcommit : ∀ block, (commit M block).Along R) (variant : Variant)
    (r : Replica Sig) (input : Input Sig) : R r (r.step M (variant.rules M) input) :=
  (hR.spans (variant.respects hcommit)).step r input

end Runs

/-- What the steps and the commits keep holds of every replica in every run. -/
theorem run_keeps (hP : Covers M (Keeps P)) (hcommit : ∀ block, (commit M block).Along (Keeps P))
    (hinit : ∀ i, P (init M.S i)) (variant : Variant) (deliveries : List (ID × Input Sig))
    (i : ID) : P ((run M (variant.rules M) deliveries).states i) :=
  Parties.run_induction (P := replicas M (variant.rules M)) (I := fun _ => P) hinit
    (fun _ r input _ h => step_along hP hcommit variant r input h) i

/-- The trace has only been added to. -/
def Grows (r r' : Replica Sig) : Prop :=
  r.trace <+: r'.trace

instance : Std.Refl (@Grows Sig) :=
  ⟨fun _ => List.prefix_rfl⟩

instance : IsTrans (Replica Sig) Grows :=
  ⟨fun _ _ _ h h' => List.IsPrefix.trans h h'⟩

/-- A commit only adds to the trace. -/
theorem Commits.grows (h : Commits r r') : Grows r r' := by
  obtain ⟨new, hnew, -⟩ := h.trace
  exact ⟨new, hnew.symm⟩

/-- The merged trace of a run of any variant consists of the traces of the replicas. -/
theorem ownTrace_run_variant (variant : Variant) (deliveries : List (ID × Input Sig)) (i : ID) :
    ownTrace i (run M (variant.rules M) deliveries).trace =
      ((run M (variant.rules M) deliveries).states i).trace :=
  Parties.ownTrace_run (P := replicas M (variant.rules M)) (fun _ => rfl)
    (fun r input => step_along (R := Grows) ⟨fun _ _ hstep => hstep.trace_le, fun _ _ => prefix_rfl⟩
      (commit_along fun _ _ h => h.grows) variant r input) deliveries i

section SampleHistories

open Ecdsa

/-- Replica 1 receives a proposal. -/
def proposeCall (block : Block Multi) (fetch : List (Block Multi)) : Env Multi × Call Multi :=
  ((proposalTo 1 block fetch).2.env, .event (proposalTo 1 block fetch).2.event)

/-- The state of the sample replica after some calls, with the rules of Chained HotStuff. -/
def sampleHistory (calls : Calls Multi) : Replica Multi :=
  history (tagModules false) .chained 1 calls

end SampleHistories

end NimbleChain.HotStuff
