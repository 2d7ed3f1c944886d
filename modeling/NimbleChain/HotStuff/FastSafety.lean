import NimbleChain.HotStuff.LockRules

/-!
# Safety of Fast-HotStuff

Fast-HotStuff has no lock. A proposal follows its certified block in the next view, or it brings an
aggregate of the timeout messages of a quorum, whose highest certificate it carries. The source
leaves open that a certificate has the view of its block, that an aggregate is for the view before
the proposal, that the parent is the certified block and that signed bytes belong to one message.
-/

namespace NimbleChain.HotStuff

open Common UInt64 List Replica Fast Entry

variable {Sig : Type} (M : Modules Sig) (trace : List (Entry Sig)) (proposal : ProposeMsg Sig)

/-- A quorum signed the timeout messages of the aggregate, and the proposal's certificate is the
highest among theirs. -/
def AggregateBacks (aggQC : AggregateQC Sig) : Prop :=
  (∃ sig, M.quorum ≤ (M.S.participants sig).card ∧
    M.crypto.batchVerify sig (aggQC.messages M.S) = true ∧
    batchVerified sig (aggQC.messages M.S) ∈ trace) ∧
  proposal.block.cert.view = (pickHighQC (aggQC.qcs.entries.map Prod.snd)).view

/-- What `VoteRule` and the check of the aggregate QC have established about a proposal. -/
def FastGuard : Prop :=
  (proposal.aggregateQC = none → proposal.block.view = proposal.block.cert.view + 1) ∧
    (M.useAggQC = true → ∀ aggQC, proposal.aggregateQC = some aggQC →
      AggregateBacks M trace proposal aggQC)

/-- Decisions of Fast-HotStuff are about two blocks in consecutive views. -/
def Fast.Decision (chain : List (Block Sig)) : Prop :=
  ∃ p gp, chain = [p, gp] ∧ p.view = gp.view + 1

/-- The discipline of Fast-HotStuff. -/
def fastDiscipline : Discipline Sig where
  Guard r proposal := FastGuard M r.trace proposal
  Decision := Fast.Decision
  Handled _ _ := True

variable {M : Modules Sig} {qc : QuorumCert Sig} {trace trace' : List (Entry Sig)}
  {proposal : ProposeMsg Sig} {aggQC : AggregateQC Sig} {S : Primitives Sig} {i : ID}

theorem AggregateBacks.mono (h : AggregateBacks M trace proposal aggQC) (hsub : trace ⊆ trace') :
    AggregateBacks M trace' proposal aggQC := by
  obtain ⟨⟨sig, hsize, hvalid, hrecorded⟩, hview⟩ := h
  exact ⟨⟨sig, hsize, hvalid, hsub hrecorded⟩, hview⟩

theorem FastGuard.mono (h : FastGuard M trace proposal) (hsub : trace ⊆ trace') :
    FastGuard M trace' proposal :=
  ⟨h.1, fun huse aggQC hagg => (h.2 huse aggQC hagg).mono hsub⟩

/-! ### The rules follow the discipline -/

/-- No certificate of an aggregate claims a higher view than the one that is picked. -/
theorem view_le_pickHighQC {qcs : List (QuorumCert Sig)} (h : qc ∈ qcs) :
    qc.view ≤ (pickHighQC qcs).view := by
  induction qcs using reverseRecOn with
  | nil => cases h
  | append_singleton qcs last ih =>
    rw [pickHighQC, foldl_append, ← pickHighQC, foldl_cons, foldl_nil]
    rcases mem_append.mp h with hmem | hlast
    · have hle := ih hmem
      split
      · rename_i hcase
        refine UInt64.le_trans hle ?_
        rcases hcase with hlt | hzero
        · exact UInt64.le_of_lt hlt
        · have hview : (pickHighQC qcs).view = 0 := by
            simp only [QuorumCert.isZero, Bool.and_eq_true, beq_iff_eq] at hzero
            exact hzero.1.2
          rw [hview]
          exact UInt64.zero_le
      · exact hle
    · obtain rfl := mem_singleton.mp hlast
      split
      · exact UInt64.le_refl _
      · rename_i hcase
        exact UInt64.not_lt.mp fun hlt => hcase (.inl hlt)

/-- The messages of an aggregate are timeout messages of its view that report its certificates. -/
theorem AggregateQC.mem_messages {v : ID} {message : Bytes}
    (h : (v, message) ∈ (aggQC.messages S).entries) :
    ∃ (t : TimeoutMsg Sig) (qc : QuorumCert Sig), t.view = aggQC.view ∧
      t.syncInfo.qc = some qc ∧ (v, qc) ∈ aggQC.qcs.entries ∧ t.toBytes S = message := by
  obtain ⟨⟨v', qc⟩, hqc, heq⟩ := mem_map.mp h
  obtain ⟨rfl, hmessage⟩ := Prod.mk.inj heq
  exact ⟨_, qc, rfl, rfl, hqc, hmessage⟩

theorem QuorumCert.view_eq_of_equals {qc' : QuorumCert Sig} (h : qc.equals S qc' = true) :
    qc.view = qc'.view := by
  unfold QuorumCert.equals at h
  split at h
  · cases h
  · rename_i hview
    exact not_not.mp hview

/-- `FastHotStuff.CommitRule` only looks up blocks and decides about a backed block and the block
below it. -/
theorem Fast.commitRule_spec (block : Block Sig) (r : Replica Sig)
    (hvetted : Vetted M r block.cert) :
    (commitRule M block).wp
      (fun result r' => Reaches M (fastDiscipline M) (fun _ => False) r r' ∧
        ∀ b, result = some b → b ∈ r'.chain.blocks ∧ Committed r'.trace b)
      (fun _ => Reaches M (fastDiscipline M) (fun _ => False) r) r := by
  simp only [commitRule]
  refine Program.wp_then (qcRef_finds block.cert r) ?_
  intro found r1 hget
  obtain ⟨hlooks, hfound, -⟩ := hget
  have hreach1 := Reaches.of_looksUp (M := M) (D := fastDiscipline M) (P := fun _ => False) hlooks
  cases found with
  | none => exact ⟨hreach1, by simp⟩
  | some parent =>
    obtain ⟨hparent, hhash⟩ := hfound parent rfl
    refine Program.wp_then (qcRef_finds parent.cert r1) ?_
    intro found r2 hget
    obtain ⟨hlooks2, hfound, -⟩ := hget
    have hreach2 := hreach1.trans (.of_looksUp hlooks2)
    cases found with
    | none => exact ⟨hreach2, by simp⟩
    | some grandparent =>
      obtain ⟨hgrandparent, hhash'⟩ := hfound grandparent rfl
      simp only
      split
      · rename_i hcheck
        have hdecided : Decided M r2.chain.blocks r2.trace [parent, grandparent] := by
          refine ⟨?_, by simp [hhash'], ?_⟩
          · intro b hb
            simp only [mem_cons, not_mem_nil, or_false] at hb
            rcases hb with rfl | rfl
            · exact hlooks2.blocks.subset hparent
            · exact hgrandparent
          · intro b hb
            obtain rfl : parent = b := by simpa using hb
            exact hhash ▸ hvetted.known.mono hreach2.later.blocks.subset hreach2.later.trace.subset
        refine ⟨hreach2.trans (.of_record (.decide hdecided
          ⟨parent, grandparent, rfl, hcheck.2.2.2⟩) rfl (by simp)), ?_⟩
        intro b hb
        obtain rfl : grandparent = b := Option.some.inj hb
        exact ⟨hgrandparent, [parent, grandparent], by simp [record], rfl⟩
      · exact ⟨hreach2, by simp⟩

theorem Fast.obeys (M : Modules Sig) : Obeys M (rules M) (fastDiscipline M) where
  handled_later _ _ := trivial
  voteRule proposal r _ hagg := by
    have hbacks : ∀ {r'}, LooksUp r r' → M.useAggQC = true → ∀ aggQC,
        proposal.aggregateQC = some aggQC → AggregateBacks M r'.trace proposal aggQC := by
      intro r' hlooks huse aggQC haggQC
      obtain ⟨⟨sig, hchecked⟩, hequals⟩ := hagg huse aggQC haggQC
      exact ⟨⟨sig, hchecked.size, hchecked.valid, hlooks.later.trace.subset hchecked.recorded⟩,
        QuorumCert.view_eq_of_equals hequals⟩
    simp only [rules, voteRule]
    split
    · rename_i aggQC haggQC
      have hsome : proposal.aggregateQC ≠ none := by simp [haggQC]
      refine Program.wp_then (getBlock_spec M _ r) ?_
      intro found r1 hget
      cases found with
      | none => exact ⟨hget.1, by simp⟩
      | some hqcBlock =>
        refine Program.wp_mono (extendsBlock_spec proposal.block hqcBlock r1) ?_
          (fun _ _ h => hget.1.trans h)
        intro ok r2 hspec
        exact ⟨hget.1.trans hspec.1,
          fun _ => ⟨fun hnone => absurd hnone hsome, hbacks (hget.1.trans hspec.1)⟩⟩
    · exact ⟨.refl r, fun hok => ⟨fun _ => (of_decide_eq_true hok).2, hbacks (.refl r)⟩⟩
  commitRule block r hvetted _ :=
    Program.wp_mono (commitRule_spec block r hvetted)
      (fun _ _ h => ⟨h.1, trivial, h.2⟩) (fun _ _ h => h)

/-! ### What a replica knows -/

/-- Every certificate that the synchronizer took into account has the view of its block. -/
def ViewsMatch (trace : List (Entry Sig)) : Prop :=
  ∀ qc b, adopted qc b ∈ trace → qc.view = b.view

variable (M)

/-- What a replica knows about a block when it votes for it, beyond `VoteRecord`. -/
structure FastRecord (blocks : List (Block Sig)) (past : List (Entry Sig)) (b : Block Sig) :
    Prop where
  guard : ∃ proposal, accepted proposal ∈ past ∧ proposal.block = b ∧
    FastGuard M past proposal
  /-- The certificate was taken into account, or two stored blocks have the same hash. -/
  adopted : ∃ p ∈ blocks, p.hash M.S = b.cert.hash ∧ (adopted b.cert p ∈ past ∨
    ∃ p' ∈ blocks, p'.hash M.S = p.hash M.S ∧ p'.toBytes M.S ≠ p.toBytes M.S)
  timeouts : ∀ t, signed (.timeout t) ∈ past → t.view < b.view

/-- A timeout message reports a certificate that is not older than those taken into account. -/
def TimeoutRecord (past : List (Entry Sig)) (t : TimeoutMsg Sig) : Prop :=
  ∃ high, t.syncInfo.qc = some high ∧
    (ViewsMatch past → ∀ qc b, adopted qc b ∈ past → b.view ≤ high.view)

/-- The facts that every move and vote keeps. -/
structure FastHistory (r : Replica Sig) : Prop where
  votes : Throughout (fun past e => ∀ b, e = .signed (.vote b) → FastRecord M r.chain.blocks past b)
    r.trace
  timeouts : Throughout (fun past e => ∀ t, e = .signed (.timeout t) → TimeoutRecord past t) r.trace
  lastVote : ∀ t, signed (.timeout t) ∈ r.trace → t.view ≤ r.lastVote
  highQC : ViewsMatch r.trace → ∀ qc b, adopted qc b ∈ r.trace → b.view ≤ r.highQC.view

variable {M}

theorem ViewsMatch.mono (h : ViewsMatch trace') (hsub : trace ⊆ trace') : ViewsMatch trace :=
  fun qc b hmem => h qc b (hsub hmem)

theorem FastRecord.mono {blocks blocks' : List (Block Sig)} {past : List (Entry Sig)}
    {b : Block Sig} (h : FastRecord M blocks past b) (hsub : blocks ⊆ blocks') :
    FastRecord M blocks' past b := by
  obtain ⟨p, hp, hhash, hcase⟩ := h.adopted
  refine ⟨h.guard, ⟨p, hsub hp, hhash, hcase.imp id ?_⟩, h.timeouts⟩
  intro hclash
  obtain ⟨p', hp', hhash', hbytes⟩ := hclash
  exact ⟨p', hsub hp', hhash', hbytes⟩

/-- A certificate that was vetted and then adopted was taken into account, unless hashes collide. -/
theorem Adopted.of_vetted {r : Replica Sig} (h : Adopted M r qc) (hvetted : Vetted M r qc) :
    ∃ p ∈ r.chain.blocks, p.hash M.S = qc.hash ∧ (adopted qc p ∈ r.trace ∨
      ∃ p' ∈ r.chain.blocks, p'.hash M.S = p.hash M.S ∧ p'.toBytes M.S ≠ p.toBytes M.S) := by
  obtain ⟨p, hp, hhash, hcase⟩ := h
  refine ⟨p, hp, hhash, hcase.imp id ?_⟩
  intro hinvalid
  obtain ⟨hgenesis, sig, hsig, hfalse⟩ := hinvalid
  obtain ⟨sig', hsig', -, p', hp', hhash', htrue, -⟩ := hvetted.resolve_left hgenesis
  obtain rfl : sig = sig' := Option.some.inj (hsig.symm.trans hsig')
  refine ⟨p', hp', hhash'.trans hhash.symm, fun hbytes => ?_⟩
  rw [hbytes, hfalse] at htrue
  cases htrue

namespace FastHistory

variable {r r' : Replica Sig}

theorem init (i : ID) : FastHistory M (init M.S i) where
  votes := .nil
  timeouts := .nil
  lastVote := by simp [Replica.init]
  highQC := by simp [Replica.init]

section

variable (h : FastHistory M r)

include h

/-- Taking a certificate into account keeps the high QC in front. -/
theorem adopt (qc : QuorumCert Sig) (block : Block Sig)
    (hmatch : ViewsMatch (r.adopt qc block).trace) {qc' : QuorumCert Sig} {b : Block Sig}
    (hadopted : adopted qc' b ∈ (r.adopt qc block).trace) :
    b.view ≤ (r.adopt qc block).highQC.view := by
  have hold : ViewsMatch r.trace := hmatch.mono (prefix_append _ _).subset
  have hnew : qc.view = block.view := hmatch qc block (by simp [Replica.adopt, Replica.record])
  simp only [Replica.adopt]
  rcases mem_append.mp hadopted with hmem | hmem
  · have hle := h.highQC hold qc' b hmem
    split
    · rename_i hlt
      rw [hnew]
      exact UInt64.le_trans hle (UInt64.le_of_lt hlt)
    · exact hle
  · obtain ⟨-, rfl⟩ := adopted.inj (mem_singleton.mp hmem)
    split
    · rw [hnew]
      exact UInt64.le_refl _
    · exact UInt64.not_lt.mp ‹_›

/-- Every move keeps the facts. -/
theorem move (hmove : Move M (fastDiscipline M) r r') : FastHistory M r' := by
  obtain ⟨new, heffect⟩ := hmove.effect
  have hlater := heffect.later
  refine ⟨?_, ?_, ?_, ?_⟩
  · rw [heffect.trace]
    refine (h.votes.mono fun _ _ hvote b hb => (hvote b hb).mono hlater.blocks.subset).append ?_
    intro past entry hentry _ b hb
    exact absurd (hb ▸ hentry) (heffect.vote b)
  · rw [heffect.trace]
    by_cases hnew : ∃ t, signed (.timeout t) ∈ new
    · obtain ⟨t, ht⟩ := hnew
      obtain ⟨hnew, -, hqc, -⟩ := heffect.timeout t ht
      rw [hnew]
      refine h.timeouts.append_singleton fun t' ht' => ?_
      obtain rfl : t = t' := Signed.timeout.inj (signed.inj ht')
      exact ⟨r.highQC, hqc, h.highQC⟩
    · exact h.timeouts.append fun past entry hentry _ t ht => absurd ⟨t, ht ▸ hentry⟩ hnew
  · intro t ht
    rw [heffect.trace, mem_append] at ht
    rcases ht with hold | hnew
    · exact UInt64.le_trans (h.lastVote t hold) hlater.lastVote
    · exact (heffect.timeout t hnew).2.2.2
  · intro hmatch qc b hadopted
    rcases heffect.highQC with ⟨hhigh, hnone⟩ | ⟨qc', block, rfl⟩
    · rw [heffect.trace, mem_append] at hadopted
      rw [hhigh]
      exact h.highQC (hmatch.mono hlater.trace.subset) qc b (hadopted.resolve_right (hnone qc b))
    · exact h.adopt qc' block hmatch hadopted

/-- A vote keeps the facts. -/
theorem vote {r0 : Replica Sig} {proposal : ProposeMsg Sig}
    (hvote : Vote M (fastDiscipline M) r0 r proposal) :
    FastHistory M (r.vote proposal.block) where
  votes := by
    refine h.votes.append_singleton ?_
    intro b hb
    obtain rfl : b = proposal.block := (Signed.vote.inj (signed.inj hb)).symm
    exact ⟨⟨proposal, hvote.accepted, rfl, FastGuard.mono hvote.guard hvote.later.trace.subset⟩,
      hvote.adopted.of_vetted (hvote.vetted.later hvote.later),
      fun t ht => UInt64.lt_of_le_of_lt (h.lastVote t ht) hvote.newer⟩
  timeouts := h.timeouts.append_singleton (by simp)
  lastVote t ht := UInt64.le_trans
    (h.lastVote t (by simpa [Replica.vote, Replica.record] using ht)) hvote.later_vote.lastVote
  highQC hmatch qc b hadopted := h.highQC (hmatch.mono hvote.later_vote.trace.subset) qc b
    (by simpa [Replica.vote, Replica.record] using hadopted)

end

theorem of_reached {i : ID} (hreached : Reached M (fastDiscipline M) i r) : FastHistory M r := by
  induction hreached with
  | init => exact init i
  | move _ hmove ih => exact ih.move hmove
  | vote _ _ hvote _ ih => exact ih.vote hvote

end FastHistory

/-! ### The network -/

section Conditions

variable (M) (faulty : Finset ID) (w : Network Sig)

/-- Every certificate that a synchronizer took into account has the view of its block. -/
def CertificateViews : Prop :=
  ∀ i, i ∉ faulty → ∀ qc b, (i, adopted qc b) ∈ w.trace → qc.view = b.view

/-- Accepted proposals with an aggregate QC are in the view after that of the aggregate. -/
def AggregatesFresh : Prop :=
  ∀ i, i ∉ faulty → ∀ proposal aggQC, (i, accepted proposal) ∈ w.trace →
    proposal.aggregateQC = some aggQC → proposal.block.view = aggQC.view + 1

/-- No stored block has the bytes of a timeout message that was signed or accepted in a batch. -/
def MessagesApart : Prop :=
  ∀ i, i ∉ faulty → ∀ b, Stored faulty w b →
    (∀ t, (i, signed (.timeout t)) ∈ w.trace → t.toBytes M.S ≠ b.toBytes M.S) ∧
    ∀ sig batch, (i, batchVerified sig batch) ∈ w.trace →
      ∀ e ∈ batch.entries, e.2 ≠ b.toBytes M.S

end Conditions

variable {faulty : Finset ID} {w : Network Sig}

theorem act_eq_timeout {e : ID × Entry Sig} {view high : ℕ}
    (h : act e = some (i, .timeout view high)) :
    ∃ t, e = (i, .signed (.timeout t)) ∧ view = t.view.toNat ∧
      high = ((t.syncInfo.qc.map fun qc => qc.view.toNat).getD 0) := by
  unfold act at h
  split at h
  · simp at h
  · rename_i j t
    obtain ⟨rfl, hact⟩ := Prod.mk.inj (Option.some.inj h)
    obtain ⟨rfl, rfl⟩ := Act.timeout.inj hact
    exact ⟨t, rfl, rfl, rfl⟩
  · cases h

namespace Setting

variable (h : Setting M (fastDiscipline M) faulty w)
  (hfast : ∀ i, FastHistory M (w.states i)) (hviews : CertificateViews faulty w)
  {i : ID} {b : Block Sig}
include h hfast hviews

omit hfast in
/-- The certificate of a block voted for has the view of the parent. -/
theorem cert_view_eq (hi : i ∉ faulty) {past : List (ID × Entry Sig)} (hpast : past <+: w.trace)
    (hrecord : FastRecord M (w.states i).chain.blocks (ownTrace i past) b) (hne : b ≠ genesis) :
    ∃ p, (tree M faulty w).parent b = p ∧ adopted b.cert p ∈ ownTrace i past ∧
      b.cert.view = p.view := by
  obtain ⟨p, hp, hhash, hcase⟩ := hrecord.adopted
  have hadopted : adopted b.cert p ∈ ownTrace i past := by
    refine hcase.resolve_right fun hclash => ?_
    obtain ⟨p', hp', hhash', hbytes⟩ := hclash
    exact hbytes (h.assumptions.collision_free p' p ⟨i, hi, hp'⟩ ⟨i, hi, hp⟩ hhash')
  exact ⟨p, h.tree_parent hne ⟨i, hi, hp⟩ hhash, hadopted,
    hviews i hi b.cert p (hpast.subset (mem_ownTrace.mp hadopted))⟩

omit hviews in
/-- The timeout messages behind an aggregate QC report certificates that are not newer than the
picked one. -/
theorem aggregate_reports (hapart : MessagesApart M faulty w) (hi : i ∉ faulty)
    {past : List (ID × Entry Sig)} (hpast : past <+: w.trace) {proposal : ProposeMsg Sig}
    {aggQC : AggregateQC Sig}
    (hbacks : AggregateBacks M (ownTrace i past) proposal aggQC) :
    ∃ Q, h.assumptions.quorums.IsQuorum Q ∧ ∀ v ∈ Q, h.assumptions.quorums.correct v →
      ∃ high, (v, Act.timeout aggQC.view.toNat high) ∈ voteLog past ∧
        high ≤ proposal.block.cert.view.toNat := by
  obtain ⟨⟨sig, hsize, hvalid, hrecorded⟩, hhigh⟩ := hbacks
  refine ⟨M.S.participants sig, ⟨h.assumptions.batch_configured sig _ hvalid, hsize⟩, ?_⟩
  intro v hv hcorrect
  have hrecorded := mem_ownTrace.mp hrecorded
  obtain ⟨past', hpast', -, hunforged⟩ :=
    (h.assumptions.unforgeable.restrict hpast).exists_past hrecorded
  obtain ⟨what, hsigned, hentry⟩ := hunforged sig _ rfl v hv hcorrect
  have hsigned := hpast'.subset hsigned
  obtain ⟨t, qc, htview, htqc, hqc, hmessage⟩ := AggregateQC.mem_messages hentry
  cases what with
  | vote b =>
    obtain ⟨_, -, hvote⟩ := h.exists_past_voteRecord (hpast.subset hsigned)
    exact absurd rfl ((hapart i hi b ⟨v, hcorrect, hvote.stored⟩).2 sig _
      (hpast.subset hrecorded) _ hentry)
  | view view =>
    have hlength := congrArg length hmessage
    have hlong := TimeoutMsg.length_toBytes_ge M.S htqc
    simp only [Signed.message, length_viewToBytes] at hlength
    omega
  | timeout t' =>
    obtain ⟨before, after, hsplit⟩ := append_of_mem (hpast.subset hsigned)
    obtain ⟨high, hthigh, -⟩ := (hfast v).timeouts _ _ _ (h.trace_split hsplit) t' rfl
    obtain ⟨hview, hqcview⟩ := TimeoutMsg.views_eq_of_toBytes_eq M.S htqc hthigh hmessage
    refine ⟨high.view.toNat, ?_, ?_⟩
    · refine mem_filterMap.mpr ⟨_, hsigned, ?_⟩
      simp [act, hthigh, ← hview, htview]
    · rw [hhigh, ← hqcview]
      exact le_iff_toNat_le.mp (view_le_pickHighQC (mem_map_of_mem hqc))

/-- The votes and timeout messages follow the abstract rule of the two-chain. -/
theorem freshVotes (huse : M.useAggQC = true) (hapart : MessagesApart M faulty w)
    (hfresh : AggregatesFresh faulty w) :
    FreshVotes (tree M faulty w) h.assumptions.quorums (voteLog w.trace) := by
  apply Throughout.filterMap
  intro past e future htrace c hc hcorrect
  obtain ⟨i, a⟩ := c
  have hpast : past <+: w.trace := htrace ▸ prefix_append _ _
  have hmatch : ViewsMatch (ownTrace i past) := fun qc b hadopted =>
    hviews i hcorrect qc b (hpast.subset (mem_ownTrace.mp hadopted))
  refine ⟨?_, ?_⟩
  · intro b hb
    obtain rfl : a = Act.vote b := hb
    obtain rfl := act_eq_vote.mp hc
    have hvote := h.voteRecord htrace
    have hrecord := (hfast i).votes _ _ _ (h.trace_split htrace) b rfl
    obtain ⟨p, hparent, -, hcert⟩ := h.cert_view_eq hviews hcorrect hpast hrecord hvote.ne_genesis
    obtain ⟨proposal, haccepted, rfl, hguard⟩ := hrecord.guard
    have hpos := lt_iff_toNat_lt.mp hvote.pos
    refine ⟨?_, ?_⟩
    · cases hagg : proposal.aggregateQC with
      | none =>
        refine .inl ?_
        have hview := hguard.1 hagg
        rw [hcert] at hview
        rw [hparent]
        exact view_succ_toNat hview hpos
      | some aggQC =>
        refine .inr ?_
        have hview := hfresh i hcorrect proposal aggQC
          (hpast.subset (mem_ownTrace.mp haccepted)) hagg
        have hnat := view_succ_toNat hview hpos
        obtain ⟨Q, hQ, hreports⟩ := h.aggregate_reports hfast hapart hcorrect hpast
          (hguard.2 huse aggQC hagg)
        refine ⟨Q, hQ, fun v hv hvcorrect => ?_⟩
        obtain ⟨high, hmem, hle⟩ := hreports v hv hvcorrect
        rw [hcert] at hle
        refine ⟨high, ?_, by rw [hparent]; exact hle⟩
        change (v, Act.timeout (proposal.block.view.toNat - 1) high) ∈ _
        rw [hnat, Nat.add_sub_cancel]
        exact hmem
    · intro view high hmem
      obtain ⟨e, he, hact⟩ := mem_filterMap.mp hmem
      obtain ⟨t, rfl, rfl, -⟩ := act_eq_timeout hact
      exact lt_iff_toNat_lt.mp (hrecord.timeouts t (mem_ownTrace.mpr he))
  · intro view high ha b hb
    obtain rfl : a = Act.timeout view high := ha
    obtain ⟨t, rfl, -, rfl⟩ := act_eq_timeout hc
    obtain ⟨qc, hqc, hreport⟩ := (hfast i).timeouts _ _ _ (h.trace_split htrace) t rfl
    obtain ⟨before, after, hsplit⟩ := append_of_mem (mem_voteLog_vote.mp hb)
    have hsplit' : w.trace = before ++ (i, .signed (.vote b)) ::
        (after ++ (i, .signed (.timeout t)) :: future) := by
      rw [htrace, hsplit]
      simp
    have hbefore : before <+: past := hsplit ▸ prefix_append _ _
    have hvote := h.voteRecord hsplit'
    have hrecord := (hfast i).votes _ _ _ (h.trace_split hsplit') b rfl
    obtain ⟨p, hparent, hadopted, -⟩ :=
      h.cert_view_eq hviews hcorrect (hbefore.trans hpast) hrecord hvote.ne_genesis
    rw [hparent, hqc]
    exact le_iff_toNat_le.mp (hreport hmatch b.cert p
      (mem_ownTrace.mpr (hbefore.subset (mem_ownTrace.mp hadopted))))

end Setting

/-- Fast-HotStuff is safe in every run in which certificates taken into account have the view of
their block, aggregates are for the view before the proposal, the parents of accepted proposals are
the certified blocks and signed bytes determine what was signed. -/
theorem fast_executed_comparable (M : Modules Sig) (huse : M.useAggQC = true)
    (faulty : Finset ID) (deliveries : List (ID × Input Sig))
    (hassume : Assumptions M faulty (run M (rules M) deliveries))
    (hparents : ParentsCertified faulty (run M (rules M) deliveries))
    (hviews : CertificateViews faulty (run M (rules M) deliveries))
    (hfresh : AggregatesFresh faulty (run M (rules M) deliveries))
    (hdistinct : DistinctEncodings M faulty (run M (rules M) deliveries))
    (hapart : MessagesApart M faulty (run M (rules M) deliveries))
    (i j : ID) (hi : i ∉ faulty) (hj : j ∉ faulty) :
    ((run M (rules M) deliveries).states i).executed <+:
        ((run M (rules M) deliveries).states j).executed ∨
      ((run M (rules M) deliveries).states j).executed <+:
        ((run M (rules M) deliveries).states i).executed := by
  have hset : Setting M (fastDiscipline M) faulty (run M (rules M) deliveries) :=
    { assumptions := hassume
      distinct := hdistinct
      parents := hparents
      apart := fun i hi t ht b hb => (hapart i hi b hb).1 t ht
      history := fun i => .of_reached (run_reached (obeys M) deliveries i)
      traces := ownTrace_run (obeys M) deliveries }
  have hfast : ∀ i, FastHistory M ((run M (rules M) deliveries).states i) :=
    fun i => .of_reached (run_reached (obeys M) deliveries i)
  have hvotes := hset.freshVotes hfast hviews huse hapart hfresh
  refine hset.comparable (C := TwoChain (tree M faulty _) hset.assumptions.quorums
    (voteLog _)) ?_ (fun _ hb => hb.certified hset.soundVotes)
    (fun _ _ hc hb hview => hc.ancestor_of_certified hset.soundVotes hvotes hb hview) hi hj
  intro i hi b hb
  obtain ⟨chain, hmem, hlast⟩ := hb
  obtain ⟨hdecided, p, gp, rfl, hview⟩ := (hset.history i).decided chain hmem
  obtain rfl : gp = b := by simpa using hlast
  have hcert := hset.certified_head hi hdecided
  obtain ⟨-, hparent, hlt⟩ := hset.parent_of_linked hi hcert (hdecided.stored gp (by simp))
    (isChain_cons_cons.mp hdecided.linked).1
  exact ⟨p, hcert, hparent, view_toNat_add hview hlt⟩

section SampleFast

open Ecdsa

/-- Proposals in which `graft1` puts the certificate of `trunk3` on another parent. -/
def fastGraftDeliveries : List (ID × Input Multi) :=
  proposals [trunk1, trunk2, trunk3, graft1, graft2] ++
    [proposalTo 1 graft3 [sibling], proposalTo 3 graft3 [graft2, graft1, sibling]]

/-- With one faulty replica of four, replica 1 executes `trunk1` first and replica 3 `sibling`. -/
theorem fast_executed_diverges :
    Assumptions (tagModules true) {4} (tagRun true rules fastGraftDeliveries) ∧
    ((tagRun true rules fastGraftDeliveries).states 1).executed = [trunk1, graft1] ∧
    ((tagRun true rules fastGraftDeliveries).states 3).executed = [sibling, graft1] ∧
    ¬ ([trunk1, graft1] <+: [sibling, graft1] ∨ [sibling, graft1] <+: [trunk1, graft1]) :=
  ⟨(tag_assumptions _ _ _ (by decide) (by decide +kernel) (by decide +kernel)).1,
    by decide +kernel, by decide +kernel, by decide +kernel⟩

/-- Proposals in which parents and certificates agree. -/
def fastTrunkDeliveries : List (ID × Input Multi) :=
  proposals [trunk1, trunk2] ++ [proposalTo 1 trunk3 []]

/-- Whether in a trace parents, certificates and their views agree and nothing timed out. -/
def undisturbed (trace : List (ID × Entry Multi)) : Bool :=
  trace.all fun e =>
    match e.2 with
    | .accepted proposal => proposal.block.parent = proposal.block.cert.hash ∧
        proposal.aggregateQC.isNone
    | .adopted qc b => qc.view = b.view
    | .signed (.timeout _) => false
    | .batchVerified _ _ => false
    | _ => true

/-- An undisturbed trace meets the conditions of the safety result. -/
theorem conditions_of_undisturbed {w : Network Multi}
    (h : undisturbed w.trace = true) :
    ParentsCertified {4} w ∧ CertificateViews {4} w ∧ AggregatesFresh {4} w ∧
      MessagesApart (tagModules true) {4} w := by
  have hentry := all_eq_true.mp h
  refine ⟨?_, ?_, ?_, ?_⟩
  · intro i _ proposal hmem
    have haccepted := hentry _ hmem
    simp only [Bool.decide_and, Bool.and_eq_true, decide_eq_true_eq] at haccepted
    exact haccepted.1
  · intro i _ qc b hmem
    simpa using hentry _ hmem
  · intro i _ proposal aggQC hmem hagg
    have haccepted := hentry _ hmem
    simp [hagg] at haccepted
  · intro i _ b _
    refine ⟨fun t hmem => ?_, fun sig batch hmem => ?_⟩
    · simpa using hentry _ hmem
    · simpa using hentry _ hmem

/-- Replica 1 has executed `trunk1` and replica 2 nothing yet, which is comparable. -/
theorem fast_executed_comparable_trunk :
    ((tagRun true rules fastTrunkDeliveries).states 1).executed = [trunk1] ∧
    Comparable (tagRun true rules fastTrunkDeliveries) 1 2 := by
  obtain ⟨hassume, hdistinct⟩ := tag_assumptions true (rules (tagModules true))
    fastTrunkDeliveries (by decide) (by decide +kernel) (by decide +kernel)
  obtain ⟨hparents, hviews, hfresh, hapart⟩ := conditions_of_undisturbed
    (w := tagRun true rules fastTrunkDeliveries) (by decide +kernel)
  exact ⟨by decide +kernel, fast_executed_comparable (tagModules true) rfl {4} fastTrunkDeliveries
    hassume hparents hviews hfresh hdistinct hapart 1 2 (by decide) (by decide)⟩

end SampleFast

end NimbleChain.HotStuff
