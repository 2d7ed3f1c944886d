import NimbleChain.HotStuff.Rules
import NimbleChain.HotStuff.ChainAccess

/-!
# What a replica can do

Every handler of a replica, of any HotStuff variant, is a sequence of votes and of the moves listed
in `Move`, which say what changes and what the replica has checked. A vote has a history: between
the check of a proposal and the vote for it the replica may have proposed, and voted for, a block of
its own. The invariants of the variants are proved about `Reached`, not about the handlers.
-/

namespace NimbleChain.HotStuff

open List Entry

variable {Sig : Type}

/-- The replica signed a vote for the block. -/
def Voted (trace : List (Entry Sig)) (block : Block Sig) : Prop :=
  signed (.vote block) ∈ trace

/-- `Later r r'`: the replica was in state `r` before it was in state `r'`. -/
structure Later (r r' : Replica Sig) : Prop where
  blocks : r.chain.blocks <:+ r'.chain.blocks
  trace : r.trace <+: r'.trace
  lastVote : r.lastVote ≤ r'.lastVote
  locked : r.locked.view ≤ r'.locked.view

/-- Between two states the replica only voted for blocks with the property `P`. -/
def NewVotes (P : Block Sig → Prop) (r r' : Replica Sig) : Prop :=
  ∀ block, Voted r'.trace block → Voted r.trace block ∨ P block

variable (M : Modules Sig) (r : Replica Sig) (qc : QuorumCert Sig) (block : Block Sig)

/-- The replica accepted the signatures of a quorum over the block, or it is the genesis block. -/
def Backed (trace : List (Entry Sig)) (block : Block Sig) : Prop :=
  block.hash M.S = (genesis : Block Sig).hash M.S ∨
    ∃ sig, M.quorum ≤ (M.S.participants sig).card ∧
      M.crypto.verify sig (block.toBytes M.S) = true ∧
      verified sig (block.toBytes M.S) ∈ trace

/-- The replica has a block with the hash, and it is backed. -/
def Known (blocks : List (Block Sig)) (trace : List (Entry Sig)) (hash : Hash) : Prop :=
  ∃ block ∈ blocks, block.hash M.S = hash ∧ Backed M trace block

/-- The certificate has passed `VerifyQuorumCert` at some time. -/
def Vetted : Prop :=
  qc.hash = (genesis : Block Sig).hash M.S ∨
    ∃ sig, qc.signature = some sig ∧ M.quorum ≤ (M.S.participants sig).card ∧
      ∃ block ∈ r.chain.blocks, block.hash M.S = qc.hash ∧
        M.crypto.verify sig (block.toBytes M.S) = true ∧
        verified sig (block.toBytes M.S) ∈ r.trace

/-- The synchronizer compared the certificate with its high QC; or the certificate is for a block
that its signature does not verify for. -/
def Adopted : Prop :=
  ∃ block ∈ r.chain.blocks, block.hash M.S = qc.hash ∧
    (adopted qc block ∈ r.trace ∨ qc.hash ≠ (genesis : Block Sig).hash M.S ∧
      ∃ sig, qc.signature = some sig ∧ M.crypto.verify sig (block.toBytes M.S) = false)

/-- The chain of a decision: stored blocks, each named by the certificate of the one before it. -/
structure Decided (blocks : List (Block Sig)) (trace : List (Entry Sig))
    (chain : List (Block Sig)) : Prop where
  stored : ∀ b ∈ chain, b ∈ blocks
  linked : chain.IsChain fun b b' => b'.hash M.S = b.cert.hash
  known : ∀ b ∈ chain.head?, Known M blocks trace (b.hash M.S)

/-- A path along parents through stored blocks, from a child of `a` to `b`. -/
inductive StoredPath (S : Primitives Sig) (blocks : List (Block Sig)) :
    Block Sig → List (Block Sig) → Block Sig → Prop where
  | single {a b : Block Sig} : a ∈ blocks → b ∈ blocks → a.hash S = b.parent →
      StoredPath S blocks a [b] b
  | snoc {a b c : Block Sig} {xs : List (Block Sig)} : StoredPath S blocks a xs b → c ∈ blocks →
      b.hash S = c.parent → StoredPath S blocks a (xs ++ [c]) c

/-- Locking changes the lock only. -/
theorem Replica.lockOn_eq :
    r.lockOn block = { r with locked := (r.lockOn block).locked } := by
  unfold Replica.lockOn
  split <;> rfl

/-- Stopping to vote changes the last vote only. -/
theorem Replica.stopVoting_eq (view : View) :
    r.stopVoting view = { r with lastVote := (r.stopVoting view).lastVote } := by
  unfold Replica.stopVoting
  split <;> rfl

/-- What a variant of HotStuff adds to the moves. -/
structure Discipline (Sig : Type) where
  /-- What `VoteRule` has established about a proposal. -/
  Guard : Replica Sig → ProposeMsg Sig → Prop
  /-- What `CommitRule` has checked of the chain of a decision. -/
  Decision : List (Block Sig) → Prop
  /-- What `CommitRule` has done about a block before the vote for it. -/
  Handled : Replica Sig → Block Sig → Prop

/-- The moves of a replica. -/
inductive Move (D : Discipline Sig) : Replica Sig → Replica Sig → Prop where
  /-- Look up blocks, store blocks, verify signatures. -/
  | looksUp {r r' : Replica Sig} : LooksUp r r' → Move D r r'
  /-- Change what only the synchronizer reads. -/
  | sync {r : Replica Sig} (currentView : View) (highTC : TimeoutCert Sig)
      (lastTimeout : Option (TimeoutMsg Sig)) (timeouts : List (TimeoutMsg Sig)) :
      Move D r { r with currentView := currentView, highTC := highTC, lastTimeout := lastTimeout,
                        timeouts := timeouts }
  /-- Move on to a view. -/
  | enter {r : Replica Sig} (newView : View) : Move D r (r.enter newView)
  /-- Take a certificate into account for the high QC. -/
  | adopt {r : Replica Sig} {qc : QuorumCert Sig} {block : Block Sig} :
      block ∈ r.chain.blocks → block.hash M.S = qc.hash → Move D r (r.adopt qc block)
  /-- Lock the block two certificates below an accepted proposal. -/
  | lock {r : Replica Sig} {p gp : Block Sig} : p ∈ r.chain.blocks →
      Known M r.chain.blocks r.trace (p.hash M.S) → gp ∈ r.chain.blocks →
      gp.hash M.S = p.cert.hash → Move D r (r.lockOn gp)
  /-- Fail to find the block to lock. -/
  | miss {r : Replica Sig} (hash : Hash) : Move D r (r.record (.missed hash))
  /-- Decide to commit. -/
  | decide {r : Replica Sig} {chain : List (Block Sig)} : Decided M r.chain.blocks r.trace chain →
      D.Decision chain → Move D r (r.record (.decided chain))
  /-- Execute a decided block after its ancestors that are newer than the last executed block. -/
  | exec {r : Replica Sig} {a b : Block Sig} {xs : List (Block Sig)} :
      (∃ chain, decided chain ∈ r.trace ∧ chain.getLast? = some b) →
      StoredPath M.S r.chain.blocks a xs b → a.view ≤ r.bExec.view →
      (∀ x ∈ xs, r.bExec.view < x.view) →
      Move D r { r with executed := r.executed ++ xs, bExec := b }
  /-- Sign a view. -/
  | signView {r : Replica Sig} (view : View) : Move D r (r.record (.signed (.view view)))
  /-- Stop voting in a view without reporting a certificate. -/
  | stop {r : Replica Sig} (view : View) : Move D r (r.stopVoting view)
  /-- Sign a timeout message with the current high QC and stop voting in its view. -/
  | giveUp {r : Replica Sig} {t : TimeoutMsg Sig} : M.useAggQC = true →
      t.syncInfo.qc = some r.highQC →
      Move D r ((r.record (.signed (.timeout t))).stopVoting t.view)
  /-- Accept a proposal. -/
  | accept {r : Replica Sig} (proposal : ProposeMsg Sig) : Move D r (r.accept proposal)
  /-- Panic. -/
  | crash {r : Replica Sig} : Move D r { r with crashed := true }

/-- The blocks with a certificate. -/
abbrev Carries (qc : QuorumCert Sig) (b : Block Sig) : Prop :=
  b.cert = qc

/-- A vote for an accepted proposal that was checked in state `r0`. -/
structure Vote (D : Discipline Sig) (r0 r : Replica Sig) (proposal : ProposeMsg Sig) : Prop where
  guard : D.Guard r0 proposal
  later : Later r0 r
  votes : NewVotes (Carries proposal.block.cert) r0 r
  vetted : Vetted M r0 proposal.block.cert
  accepted : accepted proposal ∈ r.trace
  stored : proposal.block ∈ r.chain.blocks
  handled : D.Handled r proposal.block
  adopted : Adopted M r proposal.block.cert
  newer : r.lastVote < proposal.block.view

/-- Sign a vote for a block. -/
def Replica.vote : Replica Sig :=
  { r.record (.signed (.vote block)) with lastVote := block.view }

/-- Entries that are not votes, decisions or timeout messages. -/
def Entry.Quiet (entry : Entry Sig) : Prop :=
  (∀ b, entry ≠ .signed (.vote b)) ∧ (∀ t, entry ≠ .signed (.timeout t)) ∧
    ∀ chain, entry ≠ .decided chain

/-- Entries that are not votes, timeout messages or certificates taken into account. -/
def Entry.Idle (entry : Entry Sig) : Prop :=
  (∀ b, entry ≠ .signed (.vote b)) ∧ (∀ t, entry ≠ .signed (.timeout t)) ∧
    ∀ qc b, entry ≠ .adopted qc b

/-- What a move records and changes. -/
structure Effect (D : Discipline Sig) (r r' : Replica Sig) (new : List (Entry Sig)) : Prop where
  trace : r'.trace = r.trace ++ new
  later : Later r r'
  vote : ∀ b, signed (.vote b) ∉ new
  decided : ∀ chain, decided chain ∈ new →
    Decided M r.chain.blocks r.trace chain ∧ D.Decision chain
  timeout : ∀ t, signed (.timeout t) ∈ new → new = [.signed (.timeout t)] ∧
    M.useAggQC = true ∧ t.syncInfo.qc = some r.highQC ∧ t.view ≤ r'.lastVote
  highQC : (r'.highQC = r.highQC ∧ ∀ qc b, adopted qc b ∉ new) ∨
    ∃ qc b, r' = r.adopt qc b
  locked : r'.locked = r.locked ∨ ∃ p ∈ r.chain.blocks,
    Known M r.chain.blocks r.trace (p.hash M.S) ∧ r'.locked ∈ r.chain.blocks ∧
      r'.locked.hash M.S = p.cert.hash
  executed : (r'.executed = r.executed ∧ r'.bExec = r.bExec) ∨
    ∃ a xs, (∃ chain, Entry.decided chain ∈ r.trace ∧ chain.getLast? = some r'.bExec) ∧
      StoredPath M.S r.chain.blocks a xs r'.bExec ∧ a.view ≤ r.bExec.view ∧
      (∀ x ∈ xs, r.bExec.view < x.view) ∧ r'.executed = r.executed ++ xs

/-- The states that replica `i` can reach by moves and votes. -/
inductive Reached (D : Discipline Sig) (i : ID) : Replica Sig → Prop where
  | init : Reached D i (Replica.init M.S i)
  | move {r r' : Replica Sig} : Reached D i r → Move M D r r' → Reached D i r'
  | vote {r0 r : Replica Sig} {proposal : ProposeMsg Sig} : Reached D i r0 → Reached D i r →
      Vote M D r0 r proposal → Reached D i (r.vote proposal.block)

namespace Later

variable (r : Replica Sig)

theorem refl : Later r r :=
  ⟨suffix_refl _, prefix_rfl, UInt64.le_refl _, UInt64.le_refl _⟩

theorem trans {r r' r'' : Replica Sig} (h : Later r r') (h' : Later r' r'') : Later r r'' :=
  ⟨h.blocks.trans h'.blocks, h.trace.trans h'.trace, UInt64.le_trans h.lastVote h'.lastVote,
    UInt64.le_trans h.locked h'.locked⟩

theorem of_record (entry : Entry Sig) : Later r (r.record entry) :=
  ⟨suffix_refl _, prefix_append _ _, UInt64.le_refl _, UInt64.le_refl _⟩

theorem of_stopVoting (view : View) : Later r (r.stopVoting view) := by
  unfold Replica.stopVoting
  split
  · exact ⟨suffix_refl _, prefix_rfl, UInt64.le_of_lt ‹_›, UInt64.le_refl _⟩
  · exact .refl r

end Later

variable {r r' : Replica Sig} {P : Block Sig → Prop} {qc : QuorumCert Sig}
  {trace trace' : List (Entry Sig)}

theorem LooksUp.later (h : LooksUp r r') : Later r r' := by
  obtain ⟨new, hnew, -⟩ := h.trace
  refine ⟨h.blocks, hnew ▸ prefix_append _ _, ?_, ?_⟩
  · rw [h.rest]
    exact UInt64.le_refl _
  · rw [h.rest]
    exact UInt64.le_refl _

variable {M} {D : Discipline Sig}

/-- A move that executes nothing, keeps the high QC and the lock and only records such entries. -/
theorem Effect.plain {new : List (Entry Sig)} (hlater : Later r r')
    (htrace : r'.trace = r.trace ++ new) (hnew : ∀ entry ∈ new, entry.Quiet ∧ entry.Idle)
    (hhigh : r'.highQC = r.highQC) (hlocked : r'.locked = r.locked)
    (hexecuted : r'.executed = r.executed ∧ r'.bExec = r.bExec) : Effect M D r r' new where
  trace := htrace
  later := hlater
  vote b hb := (hnew _ hb).1.1 b rfl
  decided chain hchain := absurd rfl ((hnew _ hchain).1.2.2 chain)
  timeout t ht := absurd rfl ((hnew _ ht).1.2.1 t)
  highQC := .inl ⟨hhigh, fun qc b hadopted => (hnew _ hadopted).2.2.2 qc b rfl⟩
  locked := .inl hlocked
  executed := .inl hexecuted

theorem Move.effect (h : Move M D r r') : ∃ new, Effect M D r r' new := by
  cases h with
  | looksUp h =>
    obtain ⟨new, hnew, hkind⟩ := h.trace
    have hrest := h.rest
    refine ⟨new, .plain h.later hnew ?_ (by rw [hrest]) (by rw [hrest]) (by rw [hrest]; simp)⟩
    intro entry hentry
    rcases hkind entry hentry with ⟨_, _, rfl⟩ | ⟨_, _, rfl⟩ <;> simp [Entry.Quiet, Entry.Idle]
  | sync | crash =>
    exact ⟨[], .plain ⟨suffix_refl _, prefix_rfl, UInt64.le_refl _, UInt64.le_refl _⟩ (by simp)
      (by simp) rfl rfl ⟨rfl, rfl⟩⟩
  | enter | miss | signView =>
    exact ⟨_, .plain ⟨suffix_refl _, prefix_append _ _, UInt64.le_refl _, UInt64.le_refl _⟩ rfl
      (by simp [Entry.Quiet, Entry.Idle]) rfl rfl ⟨rfl, rfl⟩⟩
  | accept =>
    exact ⟨_, .plain ⟨suffix_cons _ _, prefix_append _ _, UInt64.le_refl _, UInt64.le_refl _⟩ rfl
      (by simp [Entry.Quiet, Entry.Idle]) rfl rfl ⟨rfl, rfl⟩⟩
  | stop view =>
    have hlater := Later.of_stopVoting r view
    rw [Replica.stopVoting_eq] at hlater ⊢
    exact ⟨[], .plain hlater (by simp) (by simp) rfl rfl ⟨rfl, rfl⟩⟩
  | @adopt qc block =>
    exact ⟨_, rfl, ⟨suffix_refl _, prefix_append _ _, UInt64.le_refl _, UInt64.le_refl _⟩, by simp,
      by simp, by simp, .inr ⟨qc, block, rfl⟩, .inl rfl, .inl ⟨rfl, rfl⟩⟩
  | @lock p gp hp hknown hgp hhash =>
    unfold Replica.lockOn
    split
    · exact ⟨[], by simp, ⟨suffix_refl _, prefix_rfl, UInt64.le_refl _, UInt64.le_of_lt ‹_›⟩,
        by simp, by simp, by simp, .inl ⟨rfl, by simp⟩, .inr ⟨p, hp, hknown, hgp, hhash⟩,
        .inl ⟨rfl, rfl⟩⟩
    · exact ⟨[], .plain (.refl r) (by simp) (by simp) rfl rfl ⟨rfl, rfl⟩⟩
  | decide hdecided hdecision =>
    refine ⟨_, rfl, .of_record r _, by simp, ?_, by simp, .inl ⟨rfl, by simp⟩, .inl rfl,
      .inl ⟨rfl, rfl⟩⟩
    intro chain hchain
    obtain rfl := Entry.decided.inj (mem_singleton.mp hchain)
    exact ⟨hdecided, hdecision⟩
  | @exec a b xs hcommitted hpath hold hnew =>
    exact ⟨[], by simp, ⟨suffix_refl _, prefix_rfl, UInt64.le_refl _, UInt64.le_refl _⟩, by simp,
      by simp, by simp, .inl ⟨rfl, by simp⟩, .inl rfl,
      .inr ⟨a, xs, hcommitted, hpath, hold, hnew, rfl⟩⟩
  | @giveUp t huse hqc =>
    have hlater := (Later.of_record r (.signed (.timeout t))).trans (.of_stopVoting _ t.view)
    have hstop : t.view ≤ ((r.record (.signed (.timeout t))).stopVoting t.view).lastVote := by
      unfold Replica.stopVoting
      split
      · exact UInt64.le_refl _
      · exact UInt64.not_lt.mp ‹_›
    rw [Replica.stopVoting_eq] at hlater ⊢
    refine ⟨_, rfl, hlater, by simp, by simp, ?_, .inl ⟨rfl, by simp⟩, .inl rfl, .inl ⟨rfl, rfl⟩⟩
    intro t' ht'
    obtain rfl := Signed.timeout.inj (Entry.signed.inj (mem_singleton.mp ht'))
    exact ⟨rfl, huse, hqc, hstop⟩

theorem Move.later (h : Move M D r r') : Later r r' := by
  obtain ⟨new, heffect⟩ := h.effect
  exact heffect.later

theorem Vote.later_vote {r0 : Replica Sig} {proposal : ProposeMsg Sig}
    (h : Vote M D r0 r proposal) : Later r (r.vote proposal.block) :=
  ⟨suffix_refl _, prefix_append _ _, UInt64.le_of_lt h.newer, UInt64.le_refl _⟩

theorem NewVotes.trans {r'' : Replica Sig} (h : NewVotes P r r') (h' : NewVotes P r' r'') :
    NewVotes P r r'' := by
  intro block hblock
  rcases h' block hblock with hold | hnew
  · exact h block hold
  · exact .inr hnew

theorem NewVotes.mono {P' : Block Sig → Prop} (h : NewVotes P r r')
    (hsub : ∀ block, P block → P' block) : NewVotes P' r r' :=
  fun block hblock => (h block hblock).imp id (hsub block)

theorem NewVotes.of_trace_eq (h : r'.trace = r.trace) : NewVotes P r r' :=
  fun _ hblock => .inl (h ▸ hblock)

/-- Recording anything but a vote adds no vote. -/
theorem NewVotes.of_record (r : Replica Sig) {entry : Entry Sig}
    (h : ∀ block, entry ≠ .signed (.vote block)) : NewVotes P r (r.record entry) := by
  intro block hblock
  rcases mem_append.mp hblock with hold | hnew
  · exact .inl hold
  · exact absurd (mem_singleton.mp hnew).symm (h block)

theorem LooksUp.newVotes (h : LooksUp r r') : NewVotes P r r' := by
  obtain ⟨new, hnew, hkind⟩ := h.trace
  intro block hblock
  rw [Voted, hnew, mem_append] at hblock
  rcases hblock with hold | hmem
  · exact .inl hold
  · rcases hkind _ hmem with ⟨_, _, h⟩ | ⟨_, _, h⟩ <;> cases h

theorem Backed.mono {block : Block Sig} (h : Backed M trace block) (hsub : trace ⊆ trace') :
    Backed M trace' block := by
  rcases h with hgenesis | ⟨sig, hsize, hvalid, hmem⟩
  · exact .inl hgenesis
  · exact .inr ⟨sig, hsize, hvalid, hsub hmem⟩

theorem Known.mono {blocks blocks' : List (Block Sig)} {hash : Hash} (h : Known M blocks trace hash)
    (hblocks : blocks ⊆ blocks') (htrace : trace ⊆ trace') : Known M blocks' trace' hash := by
  obtain ⟨block, hmem, hhash, hbacked⟩ := h
  exact ⟨block, hblocks hmem, hhash, hbacked.mono htrace⟩

theorem Decided.later {chain : List (Block Sig)} (h : Decided M r.chain.blocks r.trace chain)
    (hlater : Later r r') : Decided M r'.chain.blocks r'.trace chain :=
  ⟨fun b hb => hlater.blocks.subset (h.stored b hb), h.linked,
    fun b hb => (h.known b hb).mono hlater.blocks.subset hlater.trace.subset⟩

theorem Adopted.later (h : Adopted M r qc) (hlater : Later r r') : Adopted M r' qc := by
  obtain ⟨block, hmem, hhash, hcase⟩ := h
  exact ⟨block, hlater.blocks.subset hmem, hhash, hcase.imp (fun h => hlater.trace.subset h) id⟩

theorem Vetted.later (h : Vetted M r qc) (hlater : Later r r') : Vetted M r' qc := by
  rcases h with hgenesis | ⟨sig, hsig, hsize, block, hmem, hhash, hvalid, hrecorded⟩
  · exact .inl hgenesis
  · exact .inr ⟨sig, hsig, hsize, block, hlater.blocks.subset hmem, hhash, hvalid,
      hlater.trace.subset hrecorded⟩

theorem Vetted.known (h : Vetted M r qc) : Known M r.chain.blocks r.trace qc.hash := by
  rcases h with hgenesis | ⟨sig, _, hsize, block, hmem, hhash, hvalid, hrecorded⟩
  · exact ⟨_, r.chain.genesis_mem, hgenesis.symm, .inl rfl⟩
  · exact ⟨block, hmem, hhash, .inr ⟨sig, hsize, hvalid, hrecorded⟩⟩

theorem Checked.vetted (h : Checked M r qc) : Vetted M r qc := by
  cases h with
  | genesis hhash => exact .inl hhash
  | quorum sig block hsig hsize hstored hvalid hrecorded =>
    obtain ⟨hmem, hhash⟩ := mem_of_localGet hstored
    exact .inr ⟨sig, hsig, hsize, block, hmem, hhash, hvalid, hrecorded⟩

end NimbleChain.HotStuff
