import NimbleChain.HotStuff.Network
import NimbleChain.Common.CertifiedChain

/-!
# What every replica knows about its own history

For all variants alike: each vote in a replica's trace was justified by what the replica had stored
and verified before it, votes have increasing views, decisions rest on chains of certificates, and
the executed blocks were reached along parents from decided blocks.
-/

namespace NimbleChain.HotStuff

open Common Replica

variable {Sig : Type} (M : Modules Sig)

/-- What a replica knows about a block when it votes for it. -/
structure VoteRecord (blocks : List (Block Sig)) (past : List (Entry Sig)) (b : Block Sig) :
    Prop where
  stored : b ∈ blocks
  known : Known M blocks past b.cert.hash
  accepted : ∃ proposal, Entry.accepted proposal ∈ past ∧ proposal.block = b
  pos : 0 < b.view
  increasing : ∀ b', Voted past b' → b'.view < b.view

/-- `Progress committed xs e`: the blocks `xs` were executed, up to `e`, by committing one block
after the other. -/
inductive Progress (S : Primitives Sig) (blocks : List (Block Sig)) (committed : Block Sig → Prop) :
    List (Block Sig) → Block Sig → Prop where
  | start : Progress S blocks committed [] genesis
  | commit {done : List (Block Sig)} {e a b : Block Sig} {xs : List (Block Sig)} :
      Progress S blocks committed done e → committed b → StoredPath S blocks a xs b →
      a.view ≤ e.view → (∀ x ∈ xs, e.view < x.view) → Progress S blocks committed (done ++ xs) b

/-- The block at the end of the chain of a decision. -/
def Committed (trace : List (Entry Sig)) (b : Block Sig) : Prop :=
  ∃ chain, Entry.decided chain ∈ trace ∧ chain.getLast? = some b

/-- The facts that every move keeps. -/
structure History (D : Discipline Sig) (r : Replica Sig) : Prop where
  votes : Throughout (fun past e => ∀ b, e = .signed (.vote b) → VoteRecord M r.chain.blocks past b)
    r.trace
  lastVote : ∀ b, Voted r.trace b → b.view ≤ r.lastVote
  decided : ∀ chain, Entry.decided chain ∈ r.trace →
    Decided M r.chain.blocks r.trace chain ∧ D.Decision chain
  timeouts : ∀ t, Entry.signed (.timeout t) ∈ r.trace → M.useAggQC = true
  progress : Progress M.S r.chain.blocks (Committed r.trace) r.executed r.bExec

variable {M} {D : Discipline Sig} {blocks blocks' : List (Block Sig)} {b : Block Sig}
  {past : List (Entry Sig)}

theorem VoteRecord.mono (h : VoteRecord M blocks past b) (hsub : blocks ⊆ blocks') :
    VoteRecord M blocks' past b :=
  ⟨hsub h.stored, h.known.mono hsub (List.Subset.refl _), h.accepted, h.pos, h.increasing⟩

/-- The genesis block is not voted for. -/
theorem VoteRecord.ne_genesis (h : VoteRecord M blocks past b) : b ≠ genesis := by
  intro hgenesis
  have hpos := h.pos
  rw [hgenesis] at hpos
  exact UInt64.lt_irrefl _ hpos

theorem Committed.mono {trace trace' : List (Entry Sig)} (h : Committed trace b)
    (hsub : trace ⊆ trace') : Committed trace' b := by
  obtain ⟨chain, hmem, hlast⟩ := h
  exact ⟨chain, hsub hmem, hlast⟩

theorem Progress.mono {S : Primitives Sig} {xs : List (Block Sig)}
    {committed committed' : Block Sig → Prop} {e : Block Sig} (h : Progress S blocks committed xs e)
    (hblocks : blocks ⊆ blocks') (hcommitted : ∀ b, committed b → committed' b) :
    Progress S blocks' committed' xs e := by
  induction h with
  | start => exact .start
  | commit _ hb hpath hold hnew ih =>
    exact .commit ih (hcommitted _ hb) (hpath.mono hblocks) hold hnew

namespace History

variable {r r' : Replica Sig}

theorem init (i : ID) : History M D (init M.S i) where
  votes := .nil
  lastVote := by simp [Voted, Replica.init]
  decided := by simp [Replica.init]
  timeouts := by simp [Replica.init]
  progress := .start

section

variable (h : History M D r)

include h

/-- Every move keeps the facts. -/
theorem move (hmove : Move M D r r') : History M D r' := by
  obtain ⟨new, heffect⟩ := hmove.effect
  have hlater := heffect.later
  refine ⟨?_, ?_, ?_, ?_, ?_⟩
  · rw [heffect.trace]
    refine (h.votes.mono fun _ _ hvote b hb => (hvote b hb).mono hlater.blocks.subset).append ?_
    intro past entry hentry _ b hb
    exact absurd (hb ▸ hentry) (heffect.vote b)
  · intro b hb
    rw [Voted, heffect.trace, List.mem_append] at hb
    exact UInt64.le_trans (h.lastVote b (hb.resolve_right (heffect.vote b))) hlater.lastVote
  · intro chain hchain
    rw [heffect.trace, List.mem_append] at hchain
    obtain ⟨hdecided, hdecision⟩ := hchain.elim (h.decided chain) (heffect.decided chain)
    exact ⟨hdecided.later hlater, hdecision⟩
  · intro t ht
    rw [heffect.trace, List.mem_append] at ht
    exact ht.elim (h.timeouts t) fun hnew => (heffect.timeout t hnew).2.1
  · have hprogress := h.progress.mono hlater.blocks.subset fun b (hb : Committed r.trace b) =>
      hb.mono hlater.trace.subset
    rcases heffect.executed with ⟨hexecuted, hexec⟩ | ⟨a, xs, hcommitted, hpath, hold, hnew, heq⟩
    · rw [hexecuted, hexec]
      exact hprogress
    · rw [heq]
      exact .commit hprogress (Committed.mono hcommitted hlater.trace.subset)
        (hpath.mono hlater.blocks.subset) hold hnew

/-- A vote keeps the facts. -/
theorem vote {r0 : Replica Sig} {proposal : ProposeMsg Sig} (hvote : Vote M D r0 r proposal) :
    History M D (r.vote proposal.block) := by
  refine ⟨?_, ?_, ?_, ?_, h.progress.mono (List.Subset.refl _) fun b hb =>
    hb.mono hvote.later_vote.trace.subset⟩
  · refine h.votes.append_singleton ?_
    intro b hb
    obtain rfl : b = proposal.block := (Signed.vote.inj (Entry.signed.inj hb)).symm
    exact ⟨hvote.stored, (hvote.vetted.later hvote.later).known, ⟨proposal, hvote.accepted, rfl⟩,
      UInt64.lt_of_le_of_lt UInt64.zero_le hvote.newer,
      fun b' hb' => UInt64.lt_of_le_of_lt (h.lastVote b' hb') hvote.newer⟩
  · intro b hb
    rcases List.mem_append.mp hb with hold | hnew
    · exact UInt64.le_of_lt (UInt64.lt_of_le_of_lt (h.lastVote b hold) hvote.newer)
    · obtain rfl : b = proposal.block :=
        Signed.vote.inj (Entry.signed.inj (List.mem_singleton.mp hnew))
      exact UInt64.le_refl _
  · intro chain hchain
    obtain ⟨hdecided, hdecision⟩ :=
      h.decided chain (by simpa [Replica.vote, Replica.record] using hchain)
    exact ⟨hdecided.later hvote.later_vote, hdecision⟩
  · intro t ht
    exact h.timeouts t (by simpa [Replica.vote, Replica.record] using ht)

end

/-- The facts hold in every state that is reached. -/
theorem of_reached {i : ID} (hreached : Reached M D i r) : History M D r := by
  induction hreached with
  | init => exact init i
  | move _ hmove ih => exact ih.move hmove
  | vote _ _ hvote _ ih => exact ih.vote hvote

end History

end NimbleChain.HotStuff
