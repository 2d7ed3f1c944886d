import NimbleChain.HotStuff.LockRules

/-!
# Safety of Chained and Simple HotStuff

Under the lock discipline certified blocks descend from every three-chain that is not newer, and the
executed sequences of any two replicas are comparable. The source leaves open what this rests on:
that a proposal's parent is the block its certificate names, that the block to lock is found, that
the bytes of a block determine it and, in Chained HotStuff, that committed views are consecutive.
-/

namespace NimbleChain.HotStuff

open Common List Simple

variable {Sig : Type} (M : Modules Sig) (blocks : List (Block Sig))

/-- A block that may be locked: it is backed, or a backed block's certificate names it. -/
def Anchored (trace : List (Entry Sig)) (L : Block Sig) : Prop :=
  L ∈ blocks ∧ (Known M blocks trace (L.hash M.S) ∨
    ∃ p ∈ blocks, Known M blocks trace (p.hash M.S) ∧ L.hash M.S = p.cert.hash)

/-- What the lock has to do with a vote: a block `L`, certified before, covers the earlier votes,
and the vote is for a child or descendant of it. -/
def LockRecord (past : List (Entry Sig)) (b : Block Sig) : Prop :=
  ∃ L, Anchored M blocks past L ∧
    (∀ b', Voted past b' → b'.cert = b.cert ∨ Covered M.S blocks past L.view b') ∧
    (L.hash M.S = b.cert.hash ∨ Descends M.S blocks L b)

/-- The facts about the lock that every move and vote keeps. -/
structure LockHistory (r : Replica Sig) : Prop where
  anchored : Anchored M r.chain.blocks r.trace r.locked
  covered : ∀ b, Voted r.trace b → Covered M.S r.chain.blocks r.trace r.locked.view b
  votes : Throughout (fun past e => ∀ b, e = .signed (.vote b) → LockRecord M r.chain.blocks past b)
    r.trace

variable {M} {K : List (Block Sig) → Prop} {blocks blocks' : List (Block Sig)} {b : Block Sig}

theorem Anchored.mono {trace trace' : List (Entry Sig)} {L : Block Sig}
    (h : Anchored M blocks trace L) (hblocks : blocks ⊆ blocks') (htrace : trace ⊆ trace') :
    Anchored M blocks' trace' L := by
  refine ⟨hblocks h.1, h.2.imp (fun hknown => hknown.mono hblocks htrace) ?_⟩
  intro hbelow
  obtain ⟨p, hp, hknown, hhash⟩ := hbelow
  exact ⟨p, hblocks hp, hknown.mono hblocks htrace, hhash⟩

theorem LockRecord.mono {past : List (Entry Sig)} (h : LockRecord M blocks past b)
    (hblocks : blocks ⊆ blocks') : LockRecord M blocks' past b := by
  obtain ⟨L, hanchored, hcovered, hrule⟩ := h
  refine ⟨L, hanchored.mono hblocks (Subset.refl _), ?_,
    hrule.imp id fun hdescends => hdescends.mono hblocks⟩
  intro b' hb'
  exact (hcovered b' hb').imp id fun hcov =>
    hcov.mono hblocks (Subset.refl _) (UInt64.le_refl _)

namespace LockHistory

variable {r r' : Replica Sig}

theorem init (i : ID) : LockHistory M (Replica.init M.S i) where
  anchored := ⟨by simp [Replica.init, BlockChain.new],
    .inl ⟨genesis, by simp [Replica.init, BlockChain.new], rfl, .inl rfl⟩⟩
  covered := by simp [Voted, Replica.init]
  votes := .nil

variable {r0 : Replica Sig} {proposal : ProposeMsg Sig}

/-- Every move keeps the facts. -/
theorem move (h : LockHistory M r) (hmove : Move M (lockDiscipline M K) r r') :
    LockHistory M r' := by
  obtain ⟨new, heffect⟩ := hmove.effect
  have hlater := heffect.later
  have hblocks := hlater.blocks.subset
  refine ⟨?_, ?_, ?_⟩
  · rcases heffect.locked with hsame | ⟨p, hp, hknown, hlocked, hhash⟩
    · rw [hsame]
      exact h.anchored.mono hblocks hlater.trace.subset
    · exact Anchored.mono ⟨hlocked, .inr ⟨p, hp, hknown, hhash⟩⟩ hblocks hlater.trace.subset
  · intro b hb
    rw [Voted, heffect.trace, mem_append] at hb
    exact (h.covered b (hb.resolve_right (heffect.vote b))).mono hblocks hlater.trace.subset
      hlater.locked
  · rw [heffect.trace]
    refine (h.votes.mono fun _ _ hvote b hb => (hvote b hb).mono hblocks).append ?_
    intro past entry hentry _ b hb
    exact absurd (hb ▸ hentry) (heffect.vote b)

/-- The guard of a proposal, in the state in which it was checked, gives the lock's part in the
vote. -/
theorem lockRecord (h0 : LockHistory M r0) (hvote : Vote M (lockDiscipline M K) r0 r proposal) :
    LockRecord M r.chain.blocks r.trace proposal.block := by
  have hblocks := hvote.later.blocks.subset
  have htrace := hvote.later.trace.subset
  -- the votes since then are for siblings of the proposal
  have hcovered : ∀ view, r0.locked.view ≤ view → ∀ b', Voted r.trace b' →
      b'.cert = proposal.block.cert ∨ Covered M.S r.chain.blocks r.trace view b' := by
    intro view hview b' hb'
    rcases hvote.votes b' hb' with hold | hsibling
    · exact .inr ((h0.covered b' hold).mono hblocks htrace hview)
    · exact .inl hsibling
  rcases hvote.guard with ⟨p, hp, hhash, hle⟩ | hdescends
  · exact ⟨p, ⟨hblocks hp, .inl (hhash ▸ (hvote.vetted.later hvote.later).known)⟩,
      hcovered p.view hle, .inl hhash⟩
  · exact ⟨r0.locked, h0.anchored.mono hblocks htrace, hcovered _ (UInt64.le_refl _),
      .inr (hdescends.mono hblocks)⟩

/-- A vote keeps the facts. -/
theorem vote (h0 : LockHistory M r0) (h : LockHistory M r)
    (hvote : Vote M (lockDiscipline M K) r0 r proposal) :
    LockHistory M (r.vote proposal.block) where
  anchored := h.anchored.mono (Subset.refl _) hvote.later_vote.trace.subset
  covered b hb := by
    have hcov : Covered M.S r.chain.blocks r.trace r.locked.view b := by
      rcases mem_append.mp hb with hold | hnew
      · exact h.covered b hold
      · obtain rfl : b = proposal.block :=
          Signed.vote.inj (Entry.signed.inj (mem_singleton.mp hnew))
        exact hvote.handled
    exact hcov.mono (Subset.refl _) hvote.later_vote.trace.subset (UInt64.le_refl _)
  votes := by
    refine h.votes.append_singleton ?_
    intro b hb
    obtain rfl : b = proposal.block := (Signed.vote.inj (Entry.signed.inj hb)).symm
    exact h0.lockRecord hvote

theorem of_reached {i : ID} (hreached : Reached M (lockDiscipline M K) i r) : LockHistory M r := by
  induction hreached with
  | init => exact init i
  | move _ hmove ih => exact ih.move hmove
  | vote _ _ hvote ih0 ih => exact ih0.vote ih hvote

end LockHistory

variable {D : Discipline Sig} {faulty : Finset ID} {w : Network Sig}

namespace Setting

variable (h : Setting M D faulty w) {i : ID} {b L : Block Sig}
include h

/-- A lock is certified. -/
theorem certified_of_anchored {past : List (ID × Entry Sig)} (hpast : past <+: w.trace)
    (hi : i ∉ faulty) (hL : Anchored M (w.states i).chain.blocks (ownTrace i past) L) :
    Certified (tree M faulty w) h.assumptions.quorums (voteLog past) L := by
  rcases hL.2 with hknown | ⟨p, hp, hknown, hhash⟩
  · exact h.certified_of_known hpast hi ⟨i, hi, hL.1⟩ hknown
  · have hpcert := h.certified_of_known hpast hi ⟨i, hi, hp⟩ hknown
    have hne := h.ne_genesis_of_hash_eq ⟨i, hi, hL.1⟩ hhash
    rw [← h.tree_parent hne ⟨i, hi, hL.1⟩ hhash]
    exact SoundVotes.certified_parent (h.soundVotes.restrict (voteLog_mono hpast)) hpcert hne

/-- The way down along parents from a certified block is the way down in the tree. -/
theorem ancestor_of_descends (hi : i ∉ faulty) (hL : Stored faulty w L) (hb : h.Certifies b)
    (hstored : Stored faulty w b) (hdescends : Descends M.S (w.states i).chain.blocks L b) :
    (tree M faulty w).Ancestor L b := by
  induction hdescends with
  | here hhash =>
    rw [h.eq_of_hash_eq hstored hL hhash]
    exact .refl L
  | @parent b p hp hhash _ ih =>
    have hpstored : Stored faulty w p := ⟨i, hi, hp⟩
    by_cases hne : b = genesis
    · rw [hne] at hhash
      exact absurd hhash (h.assumptions.hash_ne_zero p hpstored)
    · rw [h.parent_eq_of_certified hb hne] at hhash
      have hparent := h.tree_parent hne hpstored hhash
      have hpcert := h.soundVotes.certified_parent hb hne
      rw [hparent] at hpcert
      exact (hparent.symm ▸ ih hpcert hpstored).of_parent

/-- A certificate that names nothing belongs to no certified block but the genesis block. -/
theorem eq_genesis_of_cert_zero (hb : h.Certifies b) (hzero : b.cert.hash = Hash.zero) :
    b = genesis := by
  by_contra hne
  obtain ⟨i, hi, past, -, hrecord⟩ := h.exists_voteRecord hb hne
  obtain ⟨p, hp, hhash, -⟩ := hrecord.known
  exact h.assumptions.hash_ne_zero p ⟨i, hi, hp⟩ (hhash.trans hzero)

/-- A covered vote is for a block whose grandparent is not newer than the lock. -/
theorem view_grandparent_le (hi : i ∉ faulty) {past : List (Entry Sig)} {view : View}
    (hvoted : (i, Entry.signed (.vote b)) ∈ w.trace)
    (hcovered : Covered M.S (w.states i).chain.blocks past view b)
    (hfound : ∀ hash, Entry.missed hash ∉ past) :
    (tree M faulty w).view ((tree M faulty w).parent ((tree M faulty w).parent b)) ≤
      view.toNat := by
  obtain ⟨_, -, hrecord⟩ := h.exists_past_voteRecord hvoted
  rcases hcovered with hzero | ⟨p, hpmem, hhash, hcase⟩
  · obtain ⟨p, hpmem, hhash, -⟩ := hrecord.known
    exact absurd (hhash.trans hzero) (h.assumptions.hash_ne_zero p ⟨i, hi, hpmem⟩)
  have hparent := h.tree_parent hrecord.ne_genesis ⟨i, hi, hpmem⟩ hhash
  have hp := h.certified_parent_of_voted hi hvoted
  rw [hparent] at hp ⊢
  rcases hcase with hzero | ⟨hash, hmissed⟩ | ⟨gp, hgp, hgphash, hle⟩
  · rw [h.eq_genesis_of_cert_zero hp hzero]
    exact Nat.zero_le _
  · exact absurd hmissed (hfound hash)
  · have hgpstored : Stored faulty w gp := ⟨i, hi, hgp⟩
    rw [h.tree_parent (h.ne_genesis_of_hash_eq hgpstored hgphash) hgpstored hgphash]
    exact UInt64.le_iff_toNat_le.mp hle

/-- A decided chain of three blocks in consecutive views is a three-chain. -/
theorem threeChain_of_decided (hi : i ∉ faulty) {b1 b2 b3 : Block Sig}
    (hdecided : Decided M (w.states i).chain.blocks (w.states i).trace [b1, b2, b3])
    (hviews : b2.view.toNat < b1.view.toNat → b3.view.toNat < b2.view.toNat →
      b1.view.toNat = b2.view.toNat + 1 ∧ b2.view.toNat = b3.view.toNat + 1) :
    ThreeChain (tree M faulty w) h.assumptions.quorums (voteLog w.trace) b3 := by
  have hcert := h.certified_head hi hdecided
  obtain ⟨hcert2, hparent1, hlt1⟩ := h.parent_of_linked hi hcert
    (hdecided.stored b2 (by simp)) (isChain_cons_cons.mp hdecided.linked).1
  obtain ⟨-, hparent2, hlt2⟩ := h.parent_of_linked hi hcert2 (hdecided.stored b3 (by simp))
    (isChain_cons_cons.mp hdecided.linked.tail).1
  obtain ⟨hview1, hview2⟩ := hviews hlt1 hlt2
  refine ⟨b1, hcert, by rw [hparent1, hparent2], ?_, ?_⟩
  · rw [hparent1]
    exact hview1
  · rw [hparent1]
    exact hview2

section

variable (hlock : ∀ i, LockHistory M (w.states i))
  (hfound : ∀ i, i ∉ faulty → ∀ hash, (i, Entry.missed hash) ∉ w.trace)

include hlock hfound

/-- The votes follow the abstract lock rule. -/
theorem lockedVotes : LockedVotes (tree M faulty w) h.assumptions.quorums (voteLog w.trace) := by
  apply Throughout.filterMap
  intro past e future htrace c hc b hb hcorrect
  obtain ⟨i, a⟩ := c
  obtain rfl : a = Act.vote b := hb
  obtain rfl := act_eq_vote.mp hc
  have hpast : past <+: w.trace := htrace ▸ prefix_append _ _
  have hrecord := h.voteRecord htrace
  have hvoted : (i, Entry.signed (.vote b)) ∈ w.trace := by simp [htrace]
  obtain ⟨L, hanchored, hcovered, hrule⟩ := (hlock i).votes _ _ _ (h.trace_split htrace) b rfl
  have hLstored : Stored faulty w L := ⟨i, hcorrect, hanchored.1⟩
  refine ⟨L, h.certified_of_anchored hpast hcorrect hanchored, ?_, ?_⟩
  · intro b' hb'
    have hvoted' := mem_voteLog_vote.mp hb'
    obtain ⟨_, -, hrecord'⟩ := h.exists_past_voteRecord (hpast.subset hvoted')
    rcases hcovered b' (mem_ownTrace.mpr hvoted') with hsibling | hcov
    · left
      simp only [tree, if_neg hrecord.ne_genesis, if_neg hrecord'.ne_genesis]
      rw [hsibling]
    · refine .inr (h.view_grandparent_le hcorrect (hpast.subset hvoted') hcov ?_)
      exact fun hash hmissed => hfound i hcorrect hash (hpast.subset (mem_ownTrace.mp hmissed))
  · refine .inr ?_
    rcases hrule with hchild | hdescends
    · rw [← h.tree_parent hrecord.ne_genesis hLstored hchild]
      exact (BlockTree.Ancestor.refl _).of_parent
    cases hdescends with
    | here hhash =>
      rw [h.eq_of_hash_eq ⟨i, hcorrect, hrecord.stored⟩ hLstored hhash]
      exact .refl L
    | parent hp hhash hdescends =>
      obtain ⟨proposal, haccepted, rfl⟩ := hrecord.accepted
      rw [h.parents i hcorrect proposal (hpast.subset (mem_ownTrace.mp haccepted))] at hhash
      have hparent := h.tree_parent hrecord.ne_genesis ⟨i, hcorrect, hp⟩ hhash
      have hcert := h.certified_parent_of_voted hcorrect hvoted
      rw [hparent] at hcert
      have hancestor :=
        h.ancestor_of_descends hcorrect hLstored hcert ⟨i, hcorrect, hp⟩ hdescends
      exact (hparent.symm ▸ hancestor).of_parent

/-- Under the lock rule, replicas that only commit three-chains execute comparable sequences. -/
theorem comparable_of_threeChain
    (hcommitted : ∀ i, i ∉ faulty → ∀ b, Committed (w.states i).trace b →
      ThreeChain (tree M faulty w) h.assumptions.quorums (voteLog w.trace) b)
    {i j : ID} (hi : i ∉ faulty) (hj : j ∉ faulty) : Comparable w i j :=
  h.comparable hcommitted (fun _ hb => hb.certified h.soundVotes)
    (fun _ _ hc hb hview => hc.ancestor_of_certified h.soundVotes (h.lockedVotes hlock hfound) hb
      hview) hi hj

end

end Setting

/-! ### The two variants -/

/-- Every block that a commit rule wanted to lock was found. -/
def LocksFound (faulty : Finset ID) (w : Network Sig) : Prop :=
  ∀ i, i ∉ faulty → ∀ hash, (i, Entry.missed hash) ∉ w.trace

/-- The views of the blocks of every decision are consecutive. -/
def ConsecutiveDecisions (faulty : Finset ID) (w : Network Sig) : Prop :=
  ∀ i, i ∉ faulty → ∀ b1 b2 b3, (i, Entry.decided [b1, b2, b3]) ∈ w.trace →
    b1.view = b2.view + 1 ∧ b2.view = b3.view + 1

/-- A run of a variant that does not use aggregate QCs is a setting for its votes. -/
theorem setting_of_run {rules : Rules Sig} (hobeys : Obeys M rules D) (huse : M.useAggQC = false)
    {deliveries : List (ID × Input Sig)} (hassume : Assumptions M faulty (run M rules deliveries))
    (hdistinct : DistinctEncodings M faulty (run M rules deliveries))
    (hparents : ParentsCertified faulty (run M rules deliveries)) :
    Setting M D faulty (run M rules deliveries) where
  assumptions := hassume
  distinct := hdistinct
  parents := hparents
  history i := .of_reached (run_reached hobeys deliveries i)
  traces := ownTrace_run hobeys deliveries
  apart i _ t ht := by
    have hmem := mem_ownTrace.mpr ht
    rw [ownTrace_run hobeys] at hmem
    have htrue := (History.of_reached (run_reached hobeys deliveries i)).timeouts t hmem
    rw [huse] at htrue
    cases htrue

/-- Chained HotStuff is safe in every run in which the parents of accepted proposals are the
certified blocks, committed chains have consecutive views, blocks to lock are found and the bytes of
a block determine it. -/
theorem chained_executed_comparable (M : Modules Sig) (huse : M.useAggQC = false)
    (faulty : Finset ID) (deliveries : List (ID × Input Sig))
    (hassume : Assumptions M faulty (run M (Chained.rules M) deliveries))
    (hparents : ParentsCertified faulty (run M (Chained.rules M) deliveries))
    (hviews : ConsecutiveDecisions faulty (run M (Chained.rules M) deliveries))
    (hfound : LocksFound faulty (run M (Chained.rules M) deliveries))
    (hdistinct : DistinctEncodings M faulty (run M (Chained.rules M) deliveries))
    (i j : ID) (hi : i ∉ faulty) (hj : j ∉ faulty) :
    ((run M (Chained.rules M) deliveries).states i).executed <+:
        ((run M (Chained.rules M) deliveries).states j).executed ∨
      ((run M (Chained.rules M) deliveries).states j).executed <+:
        ((run M (Chained.rules M) deliveries).states i).executed := by
  have hset := setting_of_run (Chained.obeys M) huse hassume hdistinct hparents
  refine hset.comparable_of_threeChain
    (fun i => .of_reached (run_reached (Chained.obeys M) deliveries i)) hfound ?_ hi hj
  intro i hi b hb
  obtain ⟨chain, hmem, hlast⟩ := hb
  obtain ⟨hdecided, hlength⟩ := (hset.history i).decided chain hmem
  obtain ⟨b1, b2, b3, rfl⟩ := length_eq_three.mp hlength
  obtain rfl : b3 = b := by simpa using hlast
  obtain ⟨hview1, hview2⟩ := hviews i hi b1 b2 b3 (mem_ownTrace.mp (hset.traces i ▸ hmem))
  exact hset.threeChain_of_decided hi hdecided fun hlt1 hlt2 =>
    ⟨view_toNat_add hview1 hlt1, view_toNat_add hview2 hlt2⟩

section SampleChained

open Ecdsa

/-- The proposals in which `graft1` puts the certificate of `trunk3` on another parent: replicas 1
and 2 follow them, replica 3 receives the last. -/
def graftDeliveries : List (ID × Input Multi) :=
  proposals [trunk1, trunk2, trunk3, graft1, graft2, graft3] ++
    [proposalTo 1 graft4 [sibling], proposalTo 3 graft4 [graft3, graft2, graft1, sibling]]

/-- With one faulty replica of four, replica 1 executes `trunk1` first and replica 3 `sibling`. -/
theorem chained_executed_diverges :
    Assumptions (tagModules false) {4} (tagRun false Chained.rules graftDeliveries) ∧
    ((tagRun false Chained.rules graftDeliveries).states 1).executed = [trunk1, graft1] ∧
    ((tagRun false Chained.rules graftDeliveries).states 3).executed = [sibling, graft1] ∧
    ¬ ([trunk1, graft1] <+: [sibling, graft1] ∨ [sibling, graft1] <+: [trunk1, graft1]) :=
  ⟨(tag_assumptions _ _ _ (by decide) (by decide +kernel) (by decide +kernel)).1,
    by decide +kernel, by decide +kernel, by decide +kernel⟩

/-- Proposals in which parents and certificates agree. -/
def trunkDeliveries : List (ID × Input Multi) :=
  proposals [trunk1, trunk2, trunk3] ++ [proposalTo 1 trunk4 []]

/-- Whether in a trace parents and certificates agree, the blocks to lock were found and decisions
are about consecutive views. -/
def regular (trace : List (ID × Entry Multi)) : Bool :=
  trace.all fun e =>
    match e.2 with
    | .accepted proposal => proposal.block.parent = proposal.block.cert.hash
    | .missed _ => false
    | .decided [b1, b2, b3] => b1.view = b2.view + 1 ∧ b2.view = b3.view + 1
    | _ => true

/-- A regular trace meets the conditions of the safety results. -/
theorem conditions_of_regular {w : Network Multi}
    (h : regular w.trace = true) :
    ParentsCertified {4} w ∧ LocksFound {4} w ∧ ConsecutiveDecisions {4} w := by
  have hentry := all_eq_true.mp h
  refine ⟨?_, ?_, ?_⟩
  · intro i _ proposal hmem
    simpa using hentry _ hmem
  · intro i _ hash hmem
    simpa using hentry _ hmem
  · intro i _ b1 b2 b3 hmem
    simpa using hentry _ hmem

/-- Replica 1 has executed `trunk1` and replica 2 nothing yet, which is comparable. -/
theorem chained_executed_comparable_trunk :
    ((tagRun false Chained.rules trunkDeliveries).states 1).executed = [trunk1] ∧
    Comparable (tagRun false Chained.rules trunkDeliveries) 1 2 := by
  obtain ⟨hassume, hdistinct⟩ := tag_assumptions false (Chained.rules (tagModules false))
    trunkDeliveries (by decide) (by decide +kernel) (by decide +kernel)
  obtain ⟨hparents, hfound, hviews⟩ := conditions_of_regular
    (w := tagRun false Chained.rules trunkDeliveries) (by decide +kernel)
  exact ⟨by decide +kernel, chained_executed_comparable (tagModules false) rfl {4} trunkDeliveries
    hassume hparents hviews hfound hdistinct 1 2 (by decide) (by decide)⟩

end SampleChained

/-- Simple HotStuff is safe in every run in which the parents of accepted proposals are the
certified blocks, blocks to lock are found and the bytes of a block determine it. In every run, the
view of the locked block never decreases. -/
theorem simple_executed_comparable_and_locked_mono (M : Modules Sig) (huse : M.useAggQC = false)
    (faulty : Finset ID) (deliveries : List (ID × Input Sig)) :
    (Assumptions M faulty (run M (rules M) deliveries) →
      ParentsCertified faulty (run M (rules M) deliveries) →
      LocksFound faulty (run M (rules M) deliveries) →
      DistinctEncodings M faulty (run M (rules M) deliveries) →
      ∀ i j, i ∉ faulty → j ∉ faulty →
        ((run M (rules M) deliveries).states i).executed <+:
            ((run M (rules M) deliveries).states j).executed ∨
          ((run M (rules M) deliveries).states j).executed <+:
            ((run M (rules M) deliveries).states i).executed) ∧
    ∀ i more, ((run M (rules M) deliveries).states i).locked.view ≤
      ((run M (rules M) (deliveries ++ more)).states i).locked.view := by
  constructor
  · intro hassume hparents hfound hdistinct i j hi hj
    have hset := setting_of_run (obeys M) huse hassume hdistinct hparents
    refine hset.comparable_of_threeChain
      (fun i => .of_reached (run_reached (obeys M) deliveries i)) hfound ?_ hi hj
    intro i hi b hb
    obtain ⟨chain, hmem, hlast⟩ := hb
    obtain ⟨hdecided, p, gp, ggp, rfl, hview⟩ := (hset.history i).decided chain hmem
    obtain rfl : ggp = b := by simpa using hlast
    refine hset.threeChain_of_decided hi hdecided fun hlt1 hlt2 => ?_
    -- the first and the last view are two apart with one in between, so all are consecutive
    have htwo : p.view.toNat = ggp.view.toNat + 2 :=
      view_toNat_add hview.symm (hlt2.trans hlt1)
    omega
  · intro i more
    exact (Parties.run_relation (P := replicas M (rules M)) Later.refl
      (fun _ _ _ => Later.trans) (fun r input => ((obeys M).spans.step r input).later)
      deliveries more i).locked

section SampleSimple

open Ecdsa

/-- The proposals that make Chained HotStuff diverge do the same to Simple HotStuff. -/
theorem simple_executed_diverges :
    Assumptions (tagModules false) {4} (tagRun false rules graftDeliveries) ∧
    ((tagRun false rules graftDeliveries).states 1).executed = [trunk1, trunk2, trunk3, graft1] ∧
    ((tagRun false rules graftDeliveries).states 3).executed = [sibling, graft1] ∧
    ¬ ([trunk1, trunk2, trunk3, graft1] <+: [sibling, graft1] ∨
      [sibling, graft1] <+: [trunk1, trunk2, trunk3, graft1]) :=
  ⟨(tag_assumptions _ _ _ (by decide) (by decide +kernel) (by decide +kernel)).1,
    by decide +kernel, by decide +kernel, by decide +kernel⟩

/-- Replica 1 has executed `trunk1` and locked `trunk2`; replica 2 has executed nothing yet. -/
theorem simple_executed_comparable_trunk :
    ((tagRun false rules trunkDeliveries).states 1).executed = [trunk1] ∧
    Comparable (tagRun false rules trunkDeliveries) 1 2 := by
  obtain ⟨hassume, hdistinct⟩ := tag_assumptions false (rules (tagModules false))
    trunkDeliveries (by decide) (by decide +kernel) (by decide +kernel)
  obtain ⟨hparents, hfound, -⟩ := conditions_of_regular
    (w := tagRun false rules trunkDeliveries) (by decide +kernel)
  exact ⟨by decide +kernel, (simple_executed_comparable_and_locked_mono (tagModules false) rfl {4}
    trunkDeliveries).1 hassume hparents hfound hdistinct 1 2 (by decide) (by decide)⟩

end SampleSimple

end NimbleChain.HotStuff
