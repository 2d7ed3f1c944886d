import NimbleChain.HotStuff.VoteHistory
import NimbleChain.Common.ExecutedChain

/-!
# The vote log of a network

The votes and timeout messages in the merged trace of a run form a log of votes on a tree of
blocks: the parent of a block is the stored block that its certificate names. The certificates that
replicas accept are quorums of this log because signatures are not forged.
-/

namespace NimbleChain.HotStuff

open Common

variable {Sig : Type} (M : Modules Sig) (D : Discipline Sig) (faulty : Finset ID)
  (w : Network Sig)

/-- The bytes of a stored block determine it. -/
def DistinctEncodings : Prop :=
  ∀ b b', Stored faulty w b → Stored faulty w b' → b.toBytes M.S = b'.toBytes M.S → b = b'

/-- The parent of every accepted proposal is the block that its certificate names. -/
def ParentsCertified : Prop :=
  ∀ i, i ∉ faulty → ∀ proposal, (i, Entry.accepted proposal) ∈ w.trace →
    proposal.block.parent = proposal.block.cert.hash

/-- A run in which accepted certificates can be read as quorums of votes for stored blocks. -/
structure Setting : Prop where
  assumptions : Assumptions M faulty w
  distinct : DistinctEncodings M faulty w
  parents : ParentsCertified faulty w
  /-- No timeout message has the bytes of a block. -/
  apart : ∀ i, i ∉ faulty → ∀ t, (i, Entry.signed (.timeout t)) ∈ w.trace →
    ∀ b, Stored faulty w b → t.toBytes M.S ≠ b.toBytes M.S
  history : ∀ i, History M D (w.states i)
  traces : ∀ i, ownTrace i w.trace = (w.states i).trace

open Classical in
/-- The tree of blocks: the parent of a block is the stored block that its certificate names. -/
noncomputable def tree : BlockTree (Block Sig) where
  genesis := genesis
  parent b :=
    if b = genesis then genesis
    else if h : ∃ p, Stored faulty w p ∧ p.hash M.S = b.cert.hash then h.choose
    else genesis
  view b := b.view.toNat
  view_genesis := rfl
  parent_genesis := by simp

/-- What an entry of the trace is in the vote log. -/
def act : ID × Entry Sig → Option (ID × Act (Block Sig))
  | (i, .signed (.vote b)) => some (i, .vote b)
  | (i, .signed (.timeout t)) =>
    some (i, .timeout t.view.toNat ((t.syncInfo.qc.map fun qc => qc.view.toNat).getD 0))
  | _ => none

/-- The log of votes and timeouts. -/
def voteLog (trace : List (ID × Entry Sig)) : List (ID × Act (Block Sig)) :=
  trace.filterMap act

variable {M D faulty w} {i : ID} {b : Block Sig} {trace : List (ID × Entry Sig)} {v v' : View}

theorem act_eq_vote {e : ID × Entry Sig} :
    act e = some (i, .vote b) ↔ e = (i, .signed (.vote b)) := by
  constructor
  · intro h
    unfold act at h
    split at h
    · obtain ⟨rfl, hb⟩ := Prod.mk.inj (Option.some.inj h)
      rw [Act.vote.inj hb]
    · simp at h
    · cases h
  · intro h
    rw [h]
    rfl

theorem mem_voteLog_vote :
    (i, Act.vote b) ∈ voteLog trace ↔ (i, Entry.signed (.vote b)) ∈ trace := by
  simp [voteLog, List.mem_filterMap, act_eq_vote]

theorem voteLog_mono {past : List (ID × Entry Sig)} (h : past <+: trace) :
    voteLog past <+: voteLog trace := by
  obtain ⟨rest, rfl⟩ := h
  simp [voteLog]

/-- A view that exceeds another one by a sum of machine words does so as a number. -/
theorem view_toNat_add {k : View} (h : v = v' + k) (hlt : v'.toNat < v.toNat) :
    v.toNat = v'.toNat + k.toNat := by
  rw [h, UInt64.toNat_add] at hlt ⊢
  have hk := k.toNat_lt
  omega

/-- The successor of a view is its successor as a number, unless it is zero. -/
theorem view_succ_toNat (h : v = v' + 1) (hpos : 0 < v.toNat) : v.toNat = v'.toNat + 1 := by
  refine view_toNat_add h ?_
  rw [h, UInt64.toNat_add] at hpos ⊢
  have hv' := v'.toNat_lt
  simp only [UInt64.reduceToNat] at hpos ⊢
  omega

/-- The quorums of the configuration. -/
def Assumptions.quorums (h : Assumptions M faulty w) : QuorumSystem ID :=
  .ofCard M.config faulty (numFaulty M.config.card)
    (by have := h.nonempty.card_pos; unfold numFaulty; omega) h.few

/-- One of two replicas has executed a prefix of what the other one has. -/
abbrev Comparable (w : Network Sig) (i j : ID) : Prop :=
  (w.states i).executed <+: (w.states j).executed ∨ (w.states j).executed <+: (w.states i).executed

namespace Setting

variable (h : Setting M D faulty w) {i : ID} {b b' p : Block Sig}

/-- The votes in the trace certify the block. -/
abbrev Certifies (b : Block Sig) : Prop :=
  Certified (tree M faulty w) h.assumptions.quorums (voteLog w.trace) b

include h

/-- Stored blocks with the same hash are equal. -/
theorem eq_of_hash_eq (hb : Stored faulty w b) (hb' : Stored faulty w b')
    (hhash : b.hash M.S = b'.hash M.S) : b = b' :=
  h.distinct b b' hb hb' (h.assumptions.collision_free b b' hb hb' hhash)

/-- The stored block that a certificate names is the parent in the tree. -/
theorem tree_parent (hb : b ≠ genesis) (hp : Stored faulty w p)
    (hhash : p.hash M.S = b.cert.hash) : (tree M faulty w).parent b = p := by
  have hex : ∃ p, Stored faulty w p ∧ p.hash M.S = b.cert.hash := ⟨p, hp, hhash⟩
  simp only [tree, if_neg hb, dif_pos hex]
  exact h.eq_of_hash_eq hex.choose_spec.1 hp (hex.choose_spec.2.trans hhash.symm)

/-- No stored block is named by the certificate of the genesis block. -/
theorem ne_genesis_of_hash_eq (hp : Stored faulty w p) (hhash : p.hash M.S = b.cert.hash) :
    b ≠ genesis := by
  intro hgenesis
  rw [hgenesis] at hhash
  exact h.assumptions.hash_ne_zero p hp hhash

theorem trace_split {entry : Entry Sig} {past future : List (ID × Entry Sig)}
    (htrace : w.trace = past ++ (i, entry) :: future) :
    (w.states i).trace = ownTrace i past ++ entry :: ownTrace i future :=
  (h.traces i).symm.trans (ownTrace_split i htrace)

/-- A vote in the trace was justified by the past of the voter. -/
theorem voteRecord {past future : List (ID × Entry Sig)}
    (htrace : w.trace = past ++ (i, .signed (.vote b)) :: future) :
    VoteRecord M (w.states i).chain.blocks (ownTrace i past) b :=
  (h.history i).votes _ _ _ (h.trace_split htrace) b rfl

/-- A block that a replica knows to be backed is certified by the votes in the trace so far. -/
theorem certified_of_known {past : List (ID × Entry Sig)} (hpast : past <+: w.trace)
    (hi : i ∉ faulty) (hp : Stored faulty w p)
    (hknown : Known M (w.states i).chain.blocks (ownTrace i past) (p.hash M.S)) :
    Certified (tree M faulty w) h.assumptions.quorums (voteLog past) p := by
  obtain ⟨p', hp', hhash, hbacked⟩ := hknown
  obtain rfl : p' = p := h.eq_of_hash_eq ⟨i, hi, hp'⟩ hp hhash
  rcases hbacked with hgenesis | ⟨sig, hsize, hvalid, hrecorded⟩
  · exact .inl (h.eq_of_hash_eq hp ⟨i, hi, (w.states i).chain.genesis_mem⟩ hgenesis)
  refine .inr ⟨M.S.participants sig, ⟨h.assumptions.configured sig _ hvalid, hsize⟩, ?_⟩
  intro v hv hcorrect
  obtain ⟨past', hpast', hunforged, -⟩ :=
    (h.assumptions.unforgeable.restrict hpast).exists_past (mem_ownTrace.mp hrecorded)
  obtain ⟨what, hsigned, hmessage⟩ := hunforged sig _ rfl v hv hcorrect
  have hmem := hpast'.subset hsigned
  cases what with
  | vote b =>
    obtain ⟨before, after, hsplit⟩ := List.append_of_mem (hpast.subset hmem)
    have hstored := (h.voteRecord hsplit).stored
    obtain rfl : b = p' := h.distinct b p' ⟨v, hcorrect, hstored⟩ hp hmessage
    exact mem_voteLog_vote.mpr hmem
  | view v =>
    have hlength := congrArg List.length hmessage
    have hblock := p'.length_toBytes_ge M.S
    simp only [Signed.message, length_viewToBytes] at hlength
    omega
  | timeout t => exact absurd hmessage (h.apart v hcorrect t (hpast.subset hmem) p' hp)

/-- Every vote is sound. -/
theorem soundVotes : SoundVotes (tree M faulty w) h.assumptions.quorums (voteLog w.trace) := by
  apply Throughout.filterMap
  intro past e future htrace c hc b hb hcorrect
  obtain ⟨i, a⟩ := c
  obtain rfl : a = Act.vote b := hb
  obtain rfl := act_eq_vote.mp hc
  have hrecord := h.voteRecord htrace
  obtain ⟨p, hp, hhash, hbacked⟩ := hrecord.known
  have hparent := h.tree_parent hrecord.ne_genesis ⟨i, hcorrect, hp⟩ hhash
  refine ⟨?_, UInt64.lt_iff_toNat_lt.mp hrecord.pos, ?_⟩
  · rw [hparent]
    exact h.certified_of_known (htrace ▸ List.prefix_append _ _) hcorrect ⟨i, hcorrect, hp⟩
      ⟨p, hp, rfl, hbacked⟩
  · intro b' hb'
    exact UInt64.lt_iff_toNat_lt.mp
      (hrecord.increasing b' (mem_ownTrace.mpr (mem_voteLog_vote.mp hb')))

/-- A vote in the trace comes with the past that justified it. -/
theorem exists_past_voteRecord (hvoted : (i, Entry.signed (.vote b)) ∈ w.trace) :
    ∃ past, past <+: w.trace ∧ VoteRecord M (w.states i).chain.blocks (ownTrace i past) b := by
  obtain ⟨past, future, htrace⟩ := List.append_of_mem hvoted
  exact ⟨past, htrace ▸ List.prefix_append _ _, h.voteRecord htrace⟩

/-- The parent of a block that somebody voted for is certified. -/
theorem certified_parent_of_voted (hi : i ∉ faulty)
    (hvoted : (i, Entry.signed (.vote b)) ∈ w.trace) :
    h.Certifies ((tree M faulty w).parent b) := by
  obtain ⟨past, hpast, hsound⟩ := h.soundVotes.exists_past (mem_voteLog_vote.mpr hvoted)
  exact (hsound b rfl hi).parent.mono hpast.subset

/-- Somebody who is not faulty voted for a certified block. -/
theorem exists_voteRecord (hb : h.Certifies b) (hne : b ≠ genesis) :
    ∃ i, i ∉ faulty ∧ ∃ past, past <+: w.trace ∧
      VoteRecord M (w.states i).chain.blocks (ownTrace i past) b := by
  obtain ⟨Q, hQ, hvotes⟩ := hb.resolve_left hne
  obtain ⟨i, hi, hcorrect⟩ := h.assumptions.quorums.exists_correct_mem hQ
  exact ⟨i, hcorrect, h.exists_past_voteRecord (mem_voteLog_vote.mp (hvotes i hi hcorrect))⟩

/-- The parent of a certified block is the block that its certificate names. -/
theorem parent_eq_of_certified (hb : h.Certifies b) (hne : b ≠ genesis) :
    b.parent = b.cert.hash := by
  obtain ⟨i, hi, past, hpast, hrecord⟩ := h.exists_voteRecord hb hne
  obtain ⟨proposal, haccepted, rfl⟩ := hrecord.accepted
  exact h.parents i hi proposal (hpast.subset (mem_ownTrace.mp haccepted))

/-- The first block of a decision is certified. -/
theorem certified_head (hi : i ∉ faulty) {chain : List (Block Sig)}
    (hdecided : Decided M (w.states i).chain.blocks (w.states i).trace (b :: chain)) :
    h.Certifies b := by
  refine h.certified_of_known List.prefix_rfl hi ⟨i, hi, hdecided.stored b (by simp)⟩ ?_
  rw [h.traces i]
  exact hdecided.known b rfl

/-- The stored block that the certificate of a certified block names is its parent in the tree,
certified and in a smaller view. -/
theorem parent_of_linked (hi : i ∉ faulty) (hb : h.Certifies b)
    (hp : p ∈ (w.states i).chain.blocks) (hhash : p.hash M.S = b.cert.hash) :
    h.Certifies p ∧ (tree M faulty w).parent b = p ∧ p.view.toNat < b.view.toNat := by
  have hne := h.ne_genesis_of_hash_eq ⟨i, hi, hp⟩ hhash
  have hparent := h.tree_parent hne ⟨i, hi, hp⟩ hhash
  have hcert := h.soundVotes.certified_parent hb hne
  have hlt := h.soundVotes.view_parent_lt hb hne
  rw [hparent] at hcert hlt
  exact ⟨hcert, hparent, hlt⟩

/-- A stored path down from a certified block is a path of the tree. -/
theorem path (hi : i ∉ faulty) {a : Block Sig} {xs : List (Block Sig)}
    (hpath : StoredPath M.S (w.states i).chain.blocks a xs b)
    (hb : h.Certifies b) (hne : ∀ x ∈ xs, x ≠ genesis) : Path (tree M faulty w) a xs b := by
  induction hpath with
  | @single b ha _ hhash =>
    have hbne := hne b (by simp)
    rw [h.parent_eq_of_certified hb hbne] at hhash
    rw [← h.tree_parent hbne ⟨i, hi, ha⟩ hhash]
    exact .single _
  | @snoc b c xs hxs hc hhash ih =>
    have hcne := hne c (by simp)
    rw [h.parent_eq_of_certified hb hcne] at hhash
    have hbmem : b ∈ (w.states i).chain.blocks := by cases hxs <;> assumption
    have hparent := h.tree_parent hcne ⟨i, hi, hbmem⟩ hhash
    have hcert := h.soundVotes.certified_parent hb hcne
    rw [hparent] at hcert
    refine .snoc ?_
    rw [hparent]
    exact ih hcert fun x hx => hne x (List.mem_append_left _ hx)

/-- If the blocks that a replica commits are certified, what it executed is an execution along
the tree. -/
theorem executed (hi : i ∉ faulty) {committed : Block Sig → Prop}
    (hcommitted : ∀ b, Committed (w.states i).trace b → committed b)
    (hcert : ∀ b, committed b → h.Certifies b) :
    Executed (tree M faulty w) committed (w.states i).executed (w.states i).bExec := by
  have hprogress := (h.history i).progress
  generalize (w.states i).executed = xs, (w.states i).bExec = e at hprogress ⊢
  induction hprogress with
  | start => exact .start
  | commit _ hb hpath hold hnew ih =>
    refine .commit ih (hcommitted _ hb) (h.path hi hpath (hcert _ (hcommitted _ hb)) ?_)
      (UInt64.le_iff_toNat_le.mp hold) fun x hx => UInt64.lt_iff_toNat_lt.mp (hnew x hx)
    intro x hx hgenesis
    have hlt := UInt64.lt_iff_toNat_lt.mp (hnew x hx)
    rw [hgenesis] at hlt
    exact Nat.not_lt_zero _ hlt

/-- The executed sequences are comparable if certified blocks descend from the committed blocks
that are not newer. -/
theorem comparable {C : Block Sig → Prop}
    (hcommitted : ∀ i, i ∉ faulty → ∀ b, Committed (w.states i).trace b → C b)
    (hcert : ∀ b, C b → h.Certifies b)
    (hsafe : ∀ c b, C c → h.Certifies b → c.view.toNat ≤ b.view.toNat →
      (tree M faulty w).Ancestor c b)
    {i j : ID} (hi : i ∉ faulty) (hj : j ∉ faulty) : Comparable w i j :=
  Executed.prefix_or_prefix h.soundVotes hcert hsafe (h.executed hi (hcommitted i hi) hcert)
    (h.executed hj (hcommitted j hj) hcert)

end Setting

section SampleNetwork

open Ecdsa

/-- Four replicas with these signatures. -/
def tagModules (useAggQC : Bool) : Modules Multi where
  S := tagPrimitives
  crypto := base tagBase
  config := {1, 2, 3, 4}
  useAggQC := useAggQC
  stack := 4

/-- A run of these replicas. -/
abbrev tagRun (useAggQC : Bool) (rules : Modules Multi → Rules Multi) :=
  run (tagModules useAggQC) (rules (tagModules useAggQC))

/-- A block with the certificate of `trunk3` whose parent is `sibling`. -/
def graft1 : Block Multi := blockOn sibling (certFor trunk3) 5 4

/-- The block on `graft1`. -/
def graft2 : Block Multi := blockAfter graft1 6

/-- The block on `graft2`. -/
def graft3 : Block Multi := blockAfter graft2 7

/-- The block on `graft3`. -/
def graft4 : Block Multi := blockAfter graft3 8

/-- A replica receives a proposal of replica 4, which leads every view, while its peers have the
given blocks. -/
def proposalTo (i : ID) (block : Block Multi) (fetch : List (Block Multi)) : ID × Input Multi :=
  (i, { env := { fetch := fetch.map some, accepts := [true],
                 signatures := [some ⟨[], List.nodup_nil⟩], leader := fun _ => 4 }
        event := .propose { id := 4, block := block } })

/-- Replicas 1 and 2 receive the same proposals one after the other. -/
def proposals (blocks : List (Block Multi)) : List (ID × Input Multi) :=
  blocks.flatMap fun block => [proposalTo 1 block [], proposalTo 2 block []]

/-- Whether stored blocks with the same hash are equal, and none has the zero hash. -/
def hashesApart (w : Network Multi) : Bool :=
  decide (∀ b ∈ storedBlocks [1, 2, 3] w,
    b.hash tagPrimitives ≠ Hash.zero ∧ ∀ b' ∈ storedBlocks [1, 2, 3] w,
      b.hash tagPrimitives = b'.hash tagPrimitives → b = b')

/-- The assumptions about a run of the sample network can be evaluated. -/
theorem tag_assumptions (useAggQC : Bool) (rules : Rules Multi)
    (deliveries : List (ID × Input Multi)) (hids : ∀ d ∈ deliveries, d.1 ∈ [1, 2, 3])
    (hhashes : hashesApart (run (tagModules useAggQC) rules deliveries) = true)
    (hunforged : unforgedFrom tagPrimitives {4} []
      (run (tagModules useAggQC) rules deliveries).trace = true) :
    Assumptions (tagModules useAggQC) {4} (run (tagModules useAggQC) rules deliveries) ∧
      DistinctEncodings (tagModules useAggQC) {4} (run (tagModules useAggQC) rules deliveries) := by
  have hfew : ({4} : Finset ID).card ≤ numFaulty ({1, 2, 3, 4} : Finset ID).card := by decide
  have hconfig : ∀ id, (tagBase.replica id).isSome → id ∈ ({1, 2, 3, 4} : Finset ID) :=
    fun id hid => mem_of_sampleBase_replica (j := 1) hid
  have hapart := of_decide_eq_true hhashes
  have heq : ∀ b b', Stored {4} (run (tagModules useAggQC) rules deliveries) b →
      Stored {4} (run (tagModules useAggQC) rules deliveries) b' →
      b.hash tagPrimitives = b'.hash tagPrimitives → b = b' :=
    fun b b' hb hb' => (hapart b (mem_storedBlocks hids hb)).2 b' (mem_storedBlocks hids hb')
  refine ⟨⟨⟨1, by simp [tagModules]⟩, hfew, ?_, ?_, unforgeable_of_check hunforged, ?_, ?_⟩, ?_⟩
  · exact (base_sound tagBase _ hconfig).configured
  · exact fun sig batch hvalid => participants_subset_of_batchVerify tagBase hconfig hvalid
  · exact fun b b' hb hb' hhash => congrArg _ (heq b b' hb hb' hhash)
  · exact fun b hb => (hapart b (mem_storedBlocks hids hb)).1
  · exact fun b b' hb hb' hbytes => heq b b' hb hb' (congrArg tagHash hbytes)

end SampleNetwork

end NimbleChain.HotStuff
