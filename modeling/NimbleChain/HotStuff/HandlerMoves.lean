import NimbleChain.HotStuff.Moves

/-!
# Every handler is a sequence of moves

The specifications of the consensus and synchronizer handlers in terms of moves and votes. A handler
may end normally or crash; either way the state it leaves was reached by them. The nested calls from
`OnPropose` back to `OnPropose` are covered by an induction on the depth of the stack; the blocks
voted for inside all carry the certificate of the outer proposal.
-/

namespace NimbleChain.HotStuff

open Common Program List Replica QuorumCert

variable {Sig : Type} {M : Modules Sig} {D : Discipline Sig} (r : Replica Sig) (block : Block Sig)

/-- From `r` the replica gets to `r'` by moves and votes, the votes being for blocks with `P`. -/
structure Reaches (M : Modules Sig) (D : Discipline Sig) (P : Block Sig → Prop)
    (r r' : Replica Sig) : Prop where
  reached : ∀ i, Reached M D i r → Reached M D i r'
  later : Later r r'
  votes : NewVotes P r r'

namespace Reaches

variable {P P' : Block Sig → Prop} {r r' r'' : Replica Sig}

theorem refl (r : Replica Sig) : Reaches M D P r r :=
  ⟨fun _ h => h, .refl r, .of_trace_eq rfl⟩

theorem trans (h : Reaches M D P r r') (h' : Reaches M D P r' r'') : Reaches M D P r r'' :=
  ⟨fun i hr => h'.reached i (h.reached i hr), h.later.trans h'.later, h.votes.trans h'.votes⟩

instance : Std.Refl (Reaches M D P) :=
  ⟨refl⟩

instance : IsTrans (Replica Sig) (Reaches M D P) :=
  ⟨fun _ _ _ => trans⟩

theorem mono (h : Reaches M D P r r') (hsub : ∀ block, P block → P' block) : Reaches M D P' r r' :=
  ⟨h.reached, h.later, h.votes.mono hsub⟩

theorem of_looksUp (h : LooksUp r r') : Reaches M D P r r' :=
  ⟨fun _ hr => hr.move (.looksUp h), h.later, h.newVotes⟩

theorem of_move (h : Move M D r r') (htrace : r'.trace = r.trace) : Reaches M D P r r' :=
  ⟨fun _ hr => hr.move h, h.later, .of_trace_eq htrace⟩

/-- A move that records something other than a vote. -/
theorem of_record {entry : Entry Sig} (h : Move M D r r')
    (htrace : r'.trace = (r.record entry).trace)
    (hentry : ∀ block, entry ≠ .signed (.vote block)) : Reaches M D P r r' :=
  ⟨fun _ hr => hr.move h, h.later,
    fun block hblock => NewVotes.of_record r hentry block (htrace ▸ hblock)⟩

end Reaches

/-- Both outcomes of a handler are reached by moves and by votes that satisfy `P`. -/
def Does {α : Type} (M : Modules Sig) (D : Discipline Sig) (P : Block Sig → Prop)
    (c : Handler Sig α) (r : Replica Sig) : Prop :=
  c.Always (Reaches M D P r) r

/-- What the rules of a variant have to establish for its discipline. -/
structure Obeys (M : Modules Sig) (rules : Rules Sig) (D : Discipline Sig) : Prop where
  handled_later : ∀ {r r' : Replica Sig} {block : Block Sig}, D.Handled r block → Later r r' →
    D.Handled r' block
  voteRule : ∀ (proposal : ProposeMsg Sig) (r : Replica Sig), Vetted M r proposal.block.cert →
    (M.useAggQC = true → ∀ aggQC, proposal.aggregateQC = some aggQC →
      (∃ sig, AggregateChecked M r aggQC sig) ∧
      proposal.block.cert.equals M.S (pickHighQC (aggQC.qcs.entries.map Prod.snd)) = true) →
    (rules.voteRule proposal).wp
      (fun ok r' => LooksUp r r' ∧ (ok = true → D.Guard r' proposal))
      (fun _ r' => LooksUp r r') r
  commitRule : ∀ (block : Block Sig) (r : Replica Sig), Vetted M r block.cert →
    block ∈ r.chain.blocks →
    (rules.commitRule block).wp
      (fun result r' => Reaches M D (fun _ => False) r r' ∧ D.Handled r' block ∧
        ∀ b, result = some b → b ∈ r'.chain.blocks ∧
          ∃ chain, Entry.decided chain ∈ r'.trace ∧ chain.getLast? = some b)
      (fun _ => Reaches M D (fun _ => False) r) r

/-! ### Commit -/

theorem StoredPath.mono {S : Primitives Sig} {blocks blocks' : List (Block Sig)}
    {a b : Block Sig} {xs : List (Block Sig)} (h : StoredPath S blocks a xs b)
    (hsub : blocks ⊆ blocks') : StoredPath S blocks' a xs b := by
  induction h with
  | single ha hb hhash => exact .single (hsub ha) (hsub hb) hhash
  | snoc _ hc hhash ih => exact .snoc ih (hsub hc) hhash

theorem StoredPath.getLast? {S : Primitives Sig} {blocks : List (Block Sig)} {a b : Block Sig}
    {xs : List (Block Sig)} (h : StoredPath S blocks a xs b) : xs.getLast? = some b := by
  cases h <;> simp

variable (M)

/-- The walk of `commitInner`: the branch from the first ancestor that is not newer than the last
executed block up to the block; nothing if an ancestor is missing. -/
def branch (bExec : Block Sig) : Nat → Block Sig → Handler Sig (Option (List (Block Sig)))
  | 0, _ => throw .diverges
  | n + 1, block =>
    if block.view ≤ bExec.view then pure (some [block])
    else do
      match ← getBlock M block.parent with
      | none => pure none
      | some parent =>
        match ← branch bExec n parent with
        | none => pure none
        | some ancestors => pure (some (ancestors ++ [block]))

/-- Execute blocks one after the other. -/
def Replica.execAll (r : Replica Sig) (blocks : List (Block Sig)) : Replica Sig :=
  blocks.foldl exec r

theorem Replica.execAll_eq (blocks : List (Block Sig)) : r.execAll blocks =
    { r with executed := r.executed ++ blocks, bExec := blocks.getLast?.getD r.bExec } := by
  induction blocks using reverseRecOn with
  | nil => simp [execAll]
  | append_singleton blocks b ih =>
    rw [execAll, foldl_concat]
    change (r.execAll blocks).exec b = _
    rw [ih]
    simp [exec]

/-- What the walk of a commit finds. -/
structure Branch (S : Primitives Sig) (bExec block : Block Sig) (chain : List (Block Sig)) : Prop
    where
  last : chain.getLast? = some block
  linked : chain.IsChain fun b b' => b'.parent = b.hash S
  old : ∀ b ∈ chain.head?, b.view ≤ bExec.view
  newer : ∀ b ∈ chain.tail, bExec.view < b.view

theorem Branch.snoc {S : Primitives Sig} {bExec parent block : Block Sig}
    {ancestors : List (Block Sig)} (h : Branch S bExec parent ancestors)
    (hparent : parent.hash S = block.parent) (hnew : bExec.view < block.view) :
    Branch S bExec block (ancestors ++ [block]) := by
  obtain ⟨a, newer, rfl⟩ : ∃ a newer, ancestors = a :: newer := by
    cases ancestors with
    | nil => exact absurd h.last (by simp)
    | cons a newer => exact ⟨a, newer, rfl⟩
  refine ⟨getLast?_concat, ?_, h.old, ?_⟩
  · refine isChain_append.mpr ⟨h.linked, .singleton _, ?_⟩
    intro b hb b' hb'
    obtain rfl : b = parent := Option.some.inj (hb.symm.trans h.last)
    obtain rfl : block = b' := by simpa using hb'
    exact hparent.symm
  · intro b hb
    rcases mem_append.mp hb with hb | hb
    · exact h.newer b hb
    · exact mem_singleton.mp hb ▸ hnew

/-- The walk of a commit looks blocks up, and along parents, if it gets anywhere. -/
theorem branch_spec (bExec : Block Sig) (n : Nat) (block : Block Sig) (r : Replica Sig) :
    (branch M bExec n block).wp
      (fun result r' => LooksUp r r' ∧ ∀ chain, result = some chain →
        Branch M.S bExec block chain ∧ (block ∈ r'.chain.blocks → chain = [block] ∨
          ∃ a ∈ chain.head?, StoredPath M.S r'.chain.blocks a chain.tail block))
      (fun _ r' => LooksUp r r') r := by
  induction n generalizing block r with
  | zero => exact .refl r
  | succ n ih =>
    rw [branch]
    split
    · rename_i hold
      refine ⟨.refl r, ?_⟩
      rintro chain hchain
      cases hchain
      exact ⟨⟨rfl, .singleton _, by simpa using hold, by simp⟩, fun _ => .inl rfl⟩
    rename_i hnew
    refine wp_then (getBlock_spec M block.parent r) ?_
    intro parent r1 hget
    obtain ⟨hlooks, hfound, -⟩ := hget
    cases parent with
    | none => exact ⟨hlooks, by simp⟩
    | some parent =>
      obtain ⟨hparent, hhash⟩ := mem_of_localGet (hfound parent rfl)
      refine wp_seq (ih parent r1) ?_ (fun _ _ h => hlooks.trans h)
      intro ancestors r2 hrec
      cases ancestors with
      | none => exact ⟨hlooks.trans hrec.1, by simp⟩
      | some ancestors =>
        refine ⟨hlooks.trans hrec.1, ?_⟩
        intro chain hchain
        cases hchain
        obtain ⟨hbranch, hpath⟩ := hrec.2 ancestors rfl
        have hparent := hrec.1.blocks.subset hparent
        refine ⟨hbranch.snoc hhash (UInt64.not_le.mp hnew), fun hblock => .inr ?_⟩
        rcases hpath hparent with rfl | ⟨a, ha, hpath⟩
        · exact ⟨parent, rfl, .single hparent hblock hhash⟩
        · obtain ⟨newer, rfl⟩ := head?_eq_some_iff.mp ha
          exact ⟨a, rfl, hpath.snoc hblock hhash⟩

/-- What a commit does after its walk. -/
def finishCommit :
    Except Crash (Option (List (Block Sig))) × Replica Sig → Except Crash Bool × Replica Sig
  | (.ok (some chain), r) => (.ok true, r.execAll chain.tail)
  | (.ok none, r) => (.ok false, r)
  | (.error e, r) => (.error e, r)

/-- `commitInner` walks first and then executes what it has found. -/
theorem commitInner_exec (n : Nat) (block : Block Sig) (r : Replica Sig) :
    (commitInner M n block).exec r = finishCommit ((branch M r.bExec n block).exec r) := by
  induction n generalizing block r with
  | zero => rfl
  | succ n ih =>
    rw [commitInner, branch, exec_bind]
    change (if block.view ≤ r.bExec.view then _ else _ : Handler Sig Bool).exec r = _
    by_cases hold : block.view ≤ r.bExec.view
    · rw [if_pos hold, if_pos hold]
      rfl
    rw [if_neg hold, if_neg hold, exec_bind, exec_bind]
    have hget := getBlock_spec M block.parent r
    unfold wp at hget
    cases hexec : (getBlock M block.parent).exec r with
    | mk result r1 =>
      rw [hexec] at hget
      cases result with
      | error e => exact hget.elim
      | ok parent =>
        cases parent with
        | none => rfl
        | some parent =>
          have hsame : r1.bExec = r.bExec := by rw [hget.1.rest]
          change (commitInner M n parent >>= _).exec r1 =
            finishCommit ((branch M r.bExec n parent >>= _).exec r1)
          rw [exec_bind, exec_bind, ih parent r1, hsame]
          have hbranch := branch_spec M r.bExec n parent r1
          unfold wp at hbranch
          cases hrec : (branch M r.bExec n parent).exec r1 with
          | mk result r2 =>
            rw [hrec] at hbranch
            cases result with
            | error e => rfl
            | ok ancestors =>
              cases ancestors with
              | none => rfl
              | some ancestors =>
                have hne : ancestors ≠ [] := by
                  rintro rfl
                  exact absurd (hbranch.2 [] rfl).1.last (by simp)
                change (Except.ok true, (r2.execAll ancestors.tail).exec block) =
                  (Except.ok true, r2.execAll (ancestors ++ [block]).tail)
                rw [tail_append_of_ne_nil hne, execAll, execAll, foldl_append]
                rfl

/-- The state after a commit. -/
theorem commit_exec (r : Replica Sig) :
    ∃ r1 chain, LooksUp r r1 ∧ ((commit M block).exec r).2 = r1.execAll chain.tail ∧
      (chain = [] ∧
          (∀ found, ((branch M r.bExec (walkBound r) block).exec r).1 ≠ .ok (some found)) ∨
        Branch M.S r.bExec block chain ∧
          (block ∈ r1.chain.blocks → chain = [block] ∨
            ∃ a ∈ chain.head?, StoredPath M.S r1.chain.blocks a chain.tail block) ∧
          ((branch M r.bExec (walkBound r) block).exec r).1 = .ok (some chain)) := by
  have hcommit : ((commit M block).exec r).2 =
      (finishCommit ((branch M r.bExec (walkBound r) block).exec r)).2 := by
    rw [← commitInner_exec]
    change ((commitInner M (walkBound r) block >>= fun _ => pure ()).exec r).2 = _
    rw [exec_bind]
    rcases (commitInner M (walkBound r) block).exec r with ⟨result, r'⟩
    cases result <;> rfl
  have hbranch := branch_spec M r.bExec (walkBound r) block r
  unfold wp at hbranch
  rw [hcommit]
  cases hwalk : (branch M r.bExec (walkBound r) block).exec r with
  | mk result r1 =>
    rw [hwalk] at hbranch
    cases result with
    | error e => exact ⟨r1, [], hbranch, rfl, .inl ⟨rfl, nofun⟩⟩
    | ok result =>
      cases result with
      | none => exact ⟨r1, [], hbranch.1, rfl, .inl ⟨rfl, nofun⟩⟩
      | some chain =>
        obtain ⟨hbranch', hpath⟩ := hbranch.2 chain rfl
        exact ⟨r1, chain, hbranch.1, rfl, .inr ⟨hbranch', hpath, rfl⟩⟩

variable {M}

/-- `commit` of a decided block executes it by one move, if at all. -/
theorem commit_does (r : Replica Sig) (hblock : block ∈ r.chain.blocks)
    (hdecided : ∃ chain, Entry.decided chain ∈ r.trace ∧ chain.getLast? = some block) :
    Does M D (fun _ => False) (commit M block) r := by
  refine always_iff.mpr ?_
  obtain ⟨r1, chain, hlooks, heq, hcase⟩ := commit_exec M block r
  have hexec : r1.bExec = r.bExec := by rw [hlooks.rest]
  rw [heq]
  refine (Reaches.of_looksUp hlooks).trans ?_
  rcases hcase with ⟨rfl, -⟩ | ⟨hbranch, hpath, -⟩
  · exact .refl _
  rcases hpath (hlooks.blocks.subset hblock) with rfl | ⟨a, ha, hpath⟩
  · exact .refl _
  · obtain ⟨decided, hmem, hlast⟩ := hdecided
    rw [execAll_eq, hpath.getLast?]
    exact .of_move (.exec ⟨decided, hlooks.later.trace.subset hmem, hlast⟩ hpath
      (hexec ▸ hbranch.old a ha) (hexec ▸ hbranch.newer)) rfl

/-! ### The checks of a proposal -/

theorem LooksUp.of_env (env : Env Sig) : LooksUp r { r with env := env } :=
  ⟨rfl, suffix_refl _, [], by simp, by simp⟩

theorem LooksUp.of_store : LooksUp r (r.store block) :=
  ⟨rfl, suffix_cons _ _, [], by simp [store], by simp⟩

theorem acceptCommand_spec :
    (acceptCommand : Handler Sig Bool).wp (fun _ r' => LooksUp r r') never r := by
  simp only [acceptCommand, wp_bind, wp_get]
  split
  · exact .refl r
  · exact .of_env r _

theorem nextCommand_spec :
    (nextCommand : Handler Sig Command).wp (fun _ r' => LooksUp r r') never r := by
  simp only [nextCommand, wp_bind, wp_get]
  split
  · exact .refl r
  · exact .of_env r _

/-- The check of the aggregate QC, where there is one. -/
theorem checkAggregateQC_spec (proposal : ProposeMsg Sig) (r : Replica Sig) :
    (checkAggregateQC M proposal).wp
      (fun ok r' => LooksUp r r' ∧ (ok = true → M.useAggQC = true → ∀ aggQC,
        proposal.aggregateQC = some aggQC → (∃ sig, AggregateChecked M r' aggQC sig) ∧
        proposal.block.cert.equals M.S (pickHighQC (aggQC.qcs.entries.map Prod.snd)) = true))
      (fun _ r' => LooksUp r r') r := by
  unfold checkAggregateQC
  split
  · rename_i aggQC huse hagg
    refine wp_then (verifyAggregateQC_spec M aggQC r) ?_
    intro highQC r' hspec
    cases highQC with
    | none =>
      exact ⟨hspec.1, by simp⟩
    | some highQC =>
      obtain ⟨hhigh, -, hchecked⟩ := hspec.2 highQC rfl
      refine ⟨hspec.1, fun hequal _ aggQC' hagg' => ?_⟩
      obtain rfl : aggQC = aggQC' := Option.some.inj (hagg.symm.trans hagg')
      exact ⟨hchecked, hhigh ▸ hequal⟩
  · rename_i hnone
    exact ⟨.refl r, fun _ huse aggQC hagg => absurd hagg (hnone aggQC huse)⟩

variable {r r0 r1 : Replica Sig} {advance : SyncInfo Sig → Handler Sig Unit}
  {proposal : ProposeMsg Sig} {P : Block Sig → Prop}

theorem AggregateChecked.later {r' : Replica Sig} {aggQC : AggregateQC Sig} {sig : Sig}
    (h : AggregateChecked M r aggQC sig) (hlater : Later r r') : AggregateChecked M r' aggQC sig :=
  ⟨h.signature, h.size, h.valid, hlater.trace.subset h.recorded⟩

variable {rules : Rules Sig}

/-- A proposal that passes the checks was, in some state on the way, vetted and guarded. -/
theorem checkProposal_spec (hobeys : Obeys M rules D) (proposal : ProposeMsg Sig)
    (r : Replica Sig) :
    (checkProposal M rules proposal).wp
      (fun ok r' => LooksUp r r' ∧ (ok = true → ∃ r0, LooksUp r r0 ∧ LooksUp r0 r' ∧
        D.Guard r0 proposal ∧ Vetted M r0 proposal.block.cert))
      (fun _ r' => LooksUp r r') r := by
  unfold checkProposal
  refine wp_then (checkAggregateQC_spec proposal r) ?_
  intro ok r1 hagg
  cases ok with
  | false => exact ⟨hagg.1, by simp⟩
  | true =>
    simp only [if_true]
    refine wp_seq (verifyQuorumCert_spec M _ r1) ?_ (fun _ _ h => h ▸ hagg.1)
    intro ok r2 hqc
    have hlooks2 := hagg.1.trans hqc.1
    cases ok with
    | false => exact ⟨hlooks2, by simp⟩
    | true =>
      simp only [if_true, wp_bind, wp_get]
      split
      · have hvetted := (hqc.2 rfl).vetted
        refine wp_seq (hobeys.voteRule proposal r2 hvetted ?_) ?_
          (fun _ _ h => hlooks2.trans h)
        · intro huse aggQC haggQC
          obtain ⟨⟨sig, hchecked⟩, hequals⟩ := hagg.2 rfl huse aggQC haggQC
          exact ⟨⟨sig, hchecked.later hqc.1.later⟩, hequals⟩
        intro ok r3 hvote
        have hlooks3 := hlooks2.trans hvote.1
        cases ok with
        | false => exact ⟨hlooks3, by simp⟩
        | true =>
          simp only [if_true]
          refine wp_then (getBlock_spec M _ r3) ?_
          intro qcBlock r4 hget
          refine wp_imp (acceptCommand_spec r4) ?_
          intro ok r5 haccept
          refine ⟨hlooks3.trans (hget.1.trans haccept),
            fun _ => ⟨r3, hlooks3, hget.1.trans haccept, ?_⟩⟩
          exact ⟨hvote.2 rfl, hvetted.later hvote.1.later⟩
      · exact ⟨hlooks2, by simp⟩

/-! ### Voting -/

/-- `Sign` uses up an answer of the environment and records what was signed. -/
theorem signWith_spec (what : Signed Sig) (r : Replica Sig) :
    (signWith what : Handler Sig (Option Sig)).wp
      (fun sig r' => ∃ env, (sig = none ∧ r' = { r with env := env }) ∨
        (sig ≠ none ∧ r' = record { r with env := env } (.signed what))) never r := by
  simp only [signWith, wp_bind, wp_get]
  split
  · exact ⟨r.env, .inl ⟨rfl, rfl⟩⟩
  · split
    · exact ⟨_, .inl ⟨rfl, rfl⟩⟩
    · exact ⟨_, .inr ⟨by simp, rfl⟩⟩

/-- What `OnPropose` relies on when it calls `AdvanceView` with the certificate of a proposal. -/
def Advances (M : Modules Sig) (D : Discipline Sig) (advance : SyncInfo Sig → Handler Sig Unit) :
    Prop :=
  ∀ qc r, Vetted M r qc →
    (advance { qc := some qc }).wp
      (fun _ r' => Reaches M D (Carries qc) r r' ∧ Adopted M r' qc)
      (fun _ => Reaches M D (Carries qc) r) r

section CastVote

variable (hobeys : Obeys M rules D)
  (hreach0 : Reaches M D (Carries proposal.block.cert) r r0)
  (hreach1 : Reaches M D (Carries proposal.block.cert) r0 r1)
  (hguard : D.Guard r0 proposal) (hvetted : Vetted M r0 proposal.block.cert)
  (haccepted : Entry.accepted proposal ∈ r1.trace) (hstored : proposal.block ∈ r1.chain.blocks)
  (hhandled : D.Handled r1 proposal.block)

include hobeys hreach0 hreach1 hguard hvetted haccepted hstored hhandled

/-- The end of `OnPropose` votes for a proposal that was checked in `r0` and handled since. -/
theorem castVote_does (hadopted : Adopted M r1 proposal.block.cert) :
    (castVote proposal.block).Always (Reaches M D (Carries proposal.block.cert) r) r1 := by
  simp only [Program.Always, castVote, wp_bind, wp_get]
  split
  · exact hreach0.trans hreach1
  rename_i hnew
  refine wp_then (signWith_spec _ r1) ?_
  intro sig r' hsign
  obtain ⟨env, hcase⟩ := hsign
  have henv : LooksUp r1 { r1 with env := env } := .of_env r1 env
  have hreach2 := hreach1.trans (.of_looksUp henv)
  rcases hcase with ⟨rfl, rfl⟩ | ⟨hsig, rfl⟩
  · exact hreach0.trans hreach2
  obtain ⟨sig, rfl⟩ := Option.ne_none_iff_exists'.mp hsig
  have hvote : Vote M D r0 { r1 with env := env } proposal :=
    ⟨hguard, hreach2.later, hreach2.votes, hvetted, haccepted, hstored,
      hobeys.handled_later hhandled henv.later, hadopted.later henv.later, UInt64.not_le.mp hnew⟩
  refine ⟨fun i hr => .vote (hreach0.reached i hr) ((hreach0.trans hreach2).reached i hr) hvote,
    (hreach0.trans hreach2).later.trans hvote.later_vote, ?_⟩
  intro block hblock
  rcases mem_append.mp hblock with hold | hmem
  · exact (hreach0.trans hreach2).votes block hold
  · obtain rfl : block = proposal.block := by simpa using hmem
    exact .inr rfl

/-- The end of `OnPropose`: advance the view and vote. -/
theorem advance_castVote_does (hadvance : Advances M D advance) :
    Program.Always (do advance { qc := some proposal.block.cert }; castVote proposal.block)
      (Reaches M D (Carries proposal.block.cert) r) r1 := by
  simp only [Program.Always]
  refine wp_seq (hadvance _ r1 (hvetted.later hreach1.later)) ?_
    (fun _ _ h => (hreach0.trans hreach1).trans h)
  intro _ r2 hspec
  obtain ⟨hreach2, hadopted⟩ := hspec
  exact castVote_does hobeys hreach0 (hreach1.trans hreach2) hguard hvetted
    (hreach2.later.trace.subset haccepted) (hreach2.later.blocks.subset hstored)
    (hobeys.handled_later hhandled hreach2.later) hadopted

end CastVote

/-- `OnPropose` is a sequence of moves; all votes inside are for blocks with the certificate of
the proposal. -/
theorem onProposeWith_does (hobeys : Obeys M rules D) (hadvance : Advances M D advance)
    (proposal : ProposeMsg Sig) (r : Replica Sig) :
    Does M D (Carries proposal.block.cert) (onProposeWith M rules advance proposal) r := by
  simp only [Does, Program.Always, onProposeWith]
  refine wp_seq (checkProposal_spec hobeys proposal r) ?_
    (fun _ _ h => .of_looksUp h)
  intro ok r1 hcheck
  cases ok with
  | false => exact .of_looksUp hcheck.1
  | true =>
    obtain ⟨r0, hbefore, hafter, hguard, hvetted⟩ := hcheck.2 rfl
    simp only [if_true, wp_bind, wp_modify]
    have hreach0 : Reaches M D (Carries proposal.block.cert) r r0 := .of_looksUp hbefore
    have haccept : Reaches M D (Carries proposal.block.cert) r0 (r1.accept proposal) :=
      (Reaches.of_looksUp hafter).trans (.of_record (.accept proposal) rfl (by simp))
    refine wp_mono (hobeys.commitRule proposal.block _ (hvetted.later haccept.later)
      (by simp [accept, record, store, BlockChain.store])) ?_
      (fun _ _ h => (hreach0.trans haccept).trans (h.mono (by simp)))
    intro result r2 hrule
    obtain ⟨hreach2, hhandled, hdecided⟩ := hrule
    have hreach2 : Reaches M D (Carries proposal.block.cert) _ r2 := hreach2.mono (by simp)
    have haccepted : Entry.accepted proposal ∈ r2.trace :=
      hreach2.later.trace.subset (by simp [accept, record])
    have hstored : proposal.block ∈ r2.chain.blocks := hreach2.later.blocks.subset
      (by simp [accept, record, store, BlockChain.store])
    -- the commit, if there is one, does not get in the way of the vote
    have htail : ∀ r3, Reaches M D (Carries proposal.block.cert) r2 r3 →
        Program.Always (do advance { qc := some proposal.block.cert }; castVote proposal.block)
          (Reaches M D (Carries proposal.block.cert) r) r3 := fun r3 hreach3 =>
      advance_castVote_does hobeys hreach0 ((haccept.trans hreach2).trans hreach3) hguard
        hvetted (hreach3.later.trace.subset haccepted) (hreach3.later.blocks.subset hstored)
        (hobeys.handled_later hhandled hreach3.later) hadvance
    cases result with
    | none => exact htail r2 (.refl r2)
    | some block =>
      obtain ⟨hblock, hchain⟩ := hdecided block rfl
      refine wp_seq (commit_does (D := D) block r2 hblock hchain) ?_
        (fun _ _ h => ((hreach0.trans haccept).trans hreach2).trans (h.mono (by simp)))
      exact fun _ r3 hreach3 => htail r3 (hreach3.mono (by simp))

section Propose

variable {onPropose : ProposeMsg Sig → Handler Sig Unit}
  (hpropose : ∀ proposal r, Does M D (Carries proposal.block.cert) (onPropose proposal) r)
  (cert : SyncInfo Sig) (r : Replica Sig)

include hpropose

/-- The block that `Propose` makes carries the certificate of the sync info. -/
theorem proposeBlock_does :
    Does M D (Carries (cert.qc.getD zero)) (proposeBlock M onPropose cert) r := by
  simp only [Does, Program.Always, proposeBlock]
  refine wp_then (nextCommand_spec r) ?_
  intro cmd r1 hcmd
  have hreach : ∀ block, Reaches M D (Carries (cert.qc.getD zero)) r
      (r1.store block) := fun block => .of_looksUp (hcmd.trans (.of_store r1 block))
  exact (hpropose _ _).mono fun _ => (hreach _).trans

/-- `Propose` is a sequence of moves; all votes inside are for blocks with the given certificate. -/
theorem proposeWith_does :
    Does M D (Carries (cert.qc.getD zero)) (proposeWith M onPropose cert) r := by
  unfold proposeWith
  split
  · exact proposeBlock_does hpropose cert r
  · simp only [Does, Program.Always]
    refine wp_then (getBlock_spec M _ r) ?_
    intro _ r1 hget
    have hreach := Reaches.of_looksUp (M := M) (D := D)
      (P := Carries (cert.qc.getD zero)) hget.1
    exact (proposeBlock_does hpropose cert r1).mono fun _ => hreach.trans

end Propose

/-! ### Advancing the view -/

variable {qc : QuorumCert Sig}

/-- A vetted certificate is accepted again, or the block now stored under its hash is not the signed
one. -/
theorem verifyQuorumCert_of_vetted (h : Vetted M r qc) :
    (verifyQuorumCert M qc).wp
      (fun ok r' => LooksUp r r' ∧ (ok = true → Vetted M r' qc) ∧ (ok = false → Adopted M r' qc))
      never r := by
  unfold verifyQuorumCert
  split
  · rename_i hgenesis
    exact ⟨.refl r, fun _ => .inl hgenesis, by simp⟩
  rename_i hgenesis
  obtain ⟨sig, hsig, hsize, block, hmem, hhash, -⟩ := h.resolve_left hgenesis
  rw [hsig]
  simp only
  split
  · omega
  refine wp_then (getBlock_spec M qc.hash r) ?_
  intro found r1 hget
  obtain ⟨hlooks, hfound, hnone⟩ := hget
  cases found with
  | none => exact absurd hhash (hnone.1 rfl block hmem)
  | some found =>
    obtain ⟨hmem1, hhash1⟩ := mem_of_localGet (hfound found rfl)
    refine wp_imp (verify_spec M sig _ r1) ?_
    intro ok r2 hverify
    obtain ⟨hlooks2, hvalid, hrecorded⟩ := hverify
    refine ⟨hlooks.trans hlooks2, fun hok => ?_, fun hok => ?_⟩
    · rw [hrecorded hok]
      exact .inr ⟨sig, hsig, hsize, found, hmem1, hhash1, hvalid ▸ hok, by simp [record]⟩
    · exact ⟨found, hlooks2.blocks.subset hmem1, hhash1, .inr ⟨hgenesis, sig, hsig, hvalid ▸ hok⟩⟩

variable (M) (syncInfo : SyncInfo Sig)

/-- The certificate that a sync info offers to the synchronizer. -/
def offered : Option (QuorumCert Sig) :=
  match if M.useAggQC then syncInfo.aggQC else none with
  | some aggQC => some (pickHighQC (aggQC.qcs.entries.map Prod.snd))
  | none => syncInfo.qc

/-- What makes a replica leave a view: a timeout certificate or an aggregate of a quorum of timeout
messages for it, or a quorum certificate that claims it. Nothing is needed to leave view 0. -/
inductive Evidence (trace : List (Entry Sig)) (v : View) : Prop where
  | zero (view : v = 0)
  | timeoutCert (sig : Sig) (size : M.quorum ≤ (M.S.participants sig).card)
      (verified : Entry.verified sig (viewToBytes v) ∈ trace)
  | aggregate (aggQC : AggregateQC Sig) (sig : Sig) (view : aggQC.view = v)
      (size : M.quorum ≤ (M.S.participants sig).card)
      (verified : Entry.batchVerified sig (aggQC.messages M.S) ∈ trace)
  | quorumCert (qc : QuorumCert Sig) (block : Block Sig) (view : qc.view = v)
      (adopted : Entry.adopted qc block ∈ trace) (backed : Backed M trace block)

/-- What the TC part of `AdvanceView` may have done. -/
inductive AdvancedTC (syncInfo : SyncInfo Sig) (r : Replica Sig) :
    Option View → Replica Sig → Prop where
  | absent : AdvancedTC syncInfo r (some 0) r
  | rejected {r' : Replica Sig} : syncInfo.tc ≠ none → LooksUp r r' → AdvancedTC syncInfo r none r'
  | raised {r1 : Replica Sig} {tc : TimeoutCert Sig} : LooksUp r r1 →
      Evidence M r1.trace tc.view → AdvancedTC syncInfo r (some tc.view) (r1.updateHighTC tc)

/-- What the QC part of `AdvanceView` may have done from the view `v` of the TC on. A vetted
certificate is taken into account even if it is rejected now. -/
inductive AdvancedQC (syncInfo : SyncInfo Sig) (v : View) (r : Replica Sig) :
    Option (View × SyncInfo Sig) → Replica Sig → Prop where
  | absent : offered M syncInfo = none → syncInfo.qc = none →
      AdvancedQC syncInfo v r (some (v, syncInfo)) r
  | rejected {r' : Replica Sig} : LooksUp r r' → (∀ qc, syncInfo.aggQC = none →
      syncInfo.qc = some qc → Vetted M r qc → Adopted M r' qc) → AdvancedQC syncInfo v r none r'
  | adopted {r1 : Replica Sig} {qc : QuorumCert Sig} {block : Block Sig} {v' : View}
      {syncInfo' : SyncInfo Sig} : LooksUp r r1 → Checked M r1 qc →
      r1.chain.localGet M.S qc.hash = some block → Backed M r1.trace block →
      offered M syncInfo = some qc → syncInfo'.qc = some qc →
      (syncInfo.aggQC = none → syncInfo' = syncInfo) →
      (Evidence M r.trace v → Evidence M (r1.adopt qc block).trace v') →
      AdvancedQC syncInfo v r (some (v', syncInfo')) (r1.adopt qc block)

variable {M}

theorem Evidence.mono {trace trace' : List (Entry Sig)} {v : View}
    (h : Evidence M trace v) (hsub : trace ⊆ trace') : Evidence M trace' v := by
  cases h with
  | zero hview => exact .zero hview
  | timeoutCert sig hsize hverified => exact .timeoutCert sig hsize (hsub hverified)
  | aggregate aggQC sig hview hsize hverified =>
    exact .aggregate aggQC sig hview hsize (hsub hverified)
  | quorumCert qc block hview hadopted hbacked =>
    exact .quorumCert qc block hview (hsub hadopted) (hbacked.mono hsub)

theorem verifyTimeoutCert_evidence (tc : TimeoutCert Sig) (r : Replica Sig) :
    (verifyTimeoutCert M tc).wp
      (fun ok r' => LooksUp r r' ∧ (ok = true → Evidence M r'.trace tc.view))
      (fun _ r' => LooksUp r r') r := by
  unfold verifyTimeoutCert
  split
  · rename_i hzero
    exact ⟨.refl r, fun _ => .zero hzero⟩
  split
  · exact .refl r
  rename_i sig _
  split
  · exact ⟨.refl r, by simp⟩
  rename_i hsize
  refine wp_imp (verify_spec M sig _ r) ?_
  intro ok r' hverify
  refine ⟨hverify.1, fun hok => .timeoutCert sig (not_lt.mp hsize) ?_⟩
  rw [hverify.2.2 hok]
  simp [record]

/-- A checked certificate leads to a backed block. -/
theorem Checked.exists_block (h : Checked M r qc) :
    ∃ block, r.chain.localGet M.S qc.hash = some block ∧ Backed M r.trace block := by
  cases h with
  | genesis hhash =>
    obtain ⟨block, hblock⟩ := exists_localGet_genesis M.S r.chain
    rw [← hhash] at hblock
    exact ⟨block, hblock, .inl ((mem_of_localGet hblock).2.trans hhash)⟩
  | quorum sig block _ hsize hstored hvalid hrecorded =>
    exact ⟨block, hstored, .inr ⟨sig, hsize, hvalid, hrecorded⟩⟩

theorem updateHighQC_spec (h : Checked M r qc) :
    (updateHighQC M qc).wp
      (fun _ r' => ∃ block, r.chain.localGet M.S qc.hash = some block ∧ Backed M r.trace block ∧
        r' = r.adopt qc block ∧ Evidence M r'.trace qc.view) never r := by
  obtain ⟨block, hblock, hbacked⟩ := h.exists_block
  simp only [updateHighQC, getBlock, wp_bind, wp_get]
  rw [hblock]
  refine ⟨block, rfl, hbacked, rfl, .quorumCert qc block rfl ?_ (hbacked.mono ?_)⟩
  · simp [adopt, record]
  · exact subset_append_left _ _

theorem advanceTC_spec (r : Replica Sig) :
    (advanceTC M syncInfo).wp (AdvancedTC M syncInfo r) (fun _ => LooksUp r) r := by
  unfold advanceTC
  split
  · exact .absent
  · rename_i tc htc
    refine wp_then (verifyTimeoutCert_evidence tc r) ?_
    rintro (_ | _) r1 ⟨hlooks, hevidence⟩
    · exact .rejected (by simp [htc]) hlooks
    · exact .raised hlooks (hevidence rfl)

theorem advanceQC_spec (v : View) (r : Replica Sig) :
    (advanceQC M syncInfo v).wp (AdvancedQC M syncInfo v r) (fun _ => LooksUp r) r := by
  have hraise : ∀ {r1 r2 : Replica Sig} {w u : View}, Evidence M r2.trace u →
      r1.trace ⊆ r2.trace → Evidence M r1.trace w →
      Evidence M r2.trace (if w ≤ u then u else w) := by
    intro r1 r2 w u hu hsub hw
    split
    · exact hu
    · exact hw.mono hsub
  unfold advanceQC
  split
  · rename_i aggQC hagg
    have hsome : syncInfo.aggQC ≠ none := by
      intro hnone
      rw [hnone] at hagg
      simp at hagg
    refine wp_then (verifyAggregateQC_spec M aggQC r) ?_
    rintro (_ | highQC) r1 ⟨hlooks, hspec⟩
    · exact .rejected hlooks fun _ hnone => absurd hnone hsome
    obtain ⟨rfl, hchecked, sig, hsig⟩ := hspec highQC rfl
    refine wp_then (updateHighQC_spec hchecked) ?_
    rintro _ _ ⟨block, hblock, hbacked, rfl, hevidence⟩
    refine .adopted hlooks hchecked hblock hbacked (by rw [offered, hagg]) rfl
      (fun hnone => absurd hnone hsome) fun hv => ?_
    have hleft := hraise (.aggregate aggQC sig rfl hsig.size hsig.recorded)
      hlooks.later.trace.subset hv
    exact hraise hevidence (subset_append_left _ _) hleft
  · rename_i hagg
    have hoffer : offered M syncInfo = syncInfo.qc := by rw [offered, hagg]
    split
    · rename_i hnone
      exact .absent (hoffer.trans hnone) hnone
    rename_i qc hqc
    have hagain : (verifyQuorumCert M qc).wp
        (fun ok r' => Vetted M r qc → ok = false → Adopted M r' qc) (fun _ _ => True) r := by
      by_cases hvetted : Vetted M r qc
      · exact wp_imp (verifyQuorumCert_of_vetted hvetted) (fun _ _ h _ => h.2.2)
      · exact wp_imp (verifyQuorumCert_spec M qc r) (fun _ _ _ h => absurd h hvetted)
    refine wp_seq (wp_and (verifyQuorumCert_spec M qc r) hagain) ?_ (fun _ r' h => h.1 ▸ .refl r)
    rintro (_ | _) r1 ⟨⟨hlooks, hchecked⟩, hadopted⟩
    · refine .rejected hlooks fun qc' _ hqc' hvetted => ?_
      obtain rfl : qc = qc' := Option.some.inj (hqc.symm.trans hqc')
      exact hadopted hvetted rfl
    simp only [if_true]
    refine wp_then (updateHighQC_spec (hchecked rfl)) ?_
    rintro _ _ ⟨block, hblock, hbacked, rfl, hevidence⟩
    refine .adopted hlooks (hchecked rfl) hblock hbacked (hoffer.trans hqc) hqc (fun _ => rfl) fun
    hv => ?_
    exact hraise hevidence (List.Subset.trans hlooks.later.trace.subset (subset_append_left _ _)) hv

section Advanced

variable {syncInfo : SyncInfo Sig} {v : View} {r' : Replica Sig}

theorem AdvancedTC.reaches {result : Option View} (h : AdvancedTC M syncInfo r result r') :
    Reaches M D (fun _ => False) r r' := by
  cases h with
  | absent => exact .refl r
  | rejected _ hlooks => exact .of_looksUp hlooks
  | raised hlooks =>
    refine (Reaches.of_looksUp hlooks).trans ?_
    unfold updateHighTC
    split
    · exact .of_move (.sync _ _ _ _) rfl
    · exact .refl _

theorem AdvancedTC.evidence (h : AdvancedTC M syncInfo r (some v) r') : Evidence M r'.trace v := by
  cases h with
  | absent => exact .zero rfl
  | raised _ hevidence =>
    unfold updateHighTC
    split <;> exact hevidence

variable {result : Option (View × SyncInfo Sig)} (h : AdvancedQC M syncInfo v r result r')

include h

theorem AdvancedQC.reaches : Reaches M D (fun _ => False) r r' := by
  cases h with
  | absent => exact .refl r
  | rejected hlooks => exact .of_looksUp hlooks
  | adopted hlooks _ hblock =>
    obtain ⟨hmem, hhash⟩ := mem_of_localGet hblock
    exact (Reaches.of_looksUp hlooks).trans (.of_record (.adopt hmem hhash) rfl (by simp))

theorem AdvancedQC.evidence {v' : View} {syncInfo' : SyncInfo Sig}
    (hresult : result = some (v', syncInfo')) (hv : Evidence M r.trace v) :
    Evidence M r'.trace v' := by
  cases h with
  | absent =>
    obtain ⟨rfl, -⟩ := Prod.mk.inj (Option.some.inj hresult)
    exact hv
  | rejected => cases hresult
  | adopted _ _ _ _ _ _ _ hevidence =>
    obtain ⟨rfl, -⟩ := Prod.mk.inj (Option.some.inj hresult)
    exact hevidence hv

/-- A plain sync info keeps its certificate, and if the certificate was vetted before, it has been
taken into account. -/
theorem AdvancedQC.plain (hagg : syncInfo.aggQC = none) {qc : QuorumCert Sig}
    (hqc : syncInfo.qc = some qc) : (∀ v' si, result = some (v', si) → si = syncInfo) ∧
      (Vetted M r qc → Adopted M r' qc) := by
  have hoffer : offered M syncInfo = some qc := by simp [offered, hagg, hqc]
  cases h with
  | absent hnone => cases hnone.symm.trans hoffer
  | rejected _ hadopted => exact ⟨by simp, hadopted qc hagg hqc⟩
  | @adopted r1 qc' block _ _ _ _ hblock _ hoffer' _ hsame =>
    obtain rfl : qc' = qc := Option.some.inj (hoffer'.symm.trans hoffer)
    obtain ⟨hmem, hhash⟩ := mem_of_localGet hblock
    refine ⟨fun v' si hsi => ?_, fun _ => ⟨block, hmem, hhash, .inl ?_⟩⟩
    · rw [← (Prod.mk.inj (Option.some.inj hsi)).2, hsame hagg]
    · simp [adopt, record]

end Advanced

/-- The blocks with the certificate of a plain sync info. -/
abbrev CarriesPlain (syncInfo : SyncInfo Sig) (b : Block Sig) : Prop :=
  ∀ qc, syncInfo.aggQC = none → syncInfo.qc = some qc → b.cert = qc

/-- `AdvanceView` is a sequence of moves. With a plain sync info the votes inside are for blocks
with its certificate, and a vetted one is taken into account. -/
def AdvancesView (M : Modules Sig) (D : Discipline Sig)
    (advance : SyncInfo Sig → Handler Sig Unit) : Prop :=
  ∀ syncInfo r, (advance syncInfo).wp
      (fun _ r' => Reaches M D (CarriesPlain syncInfo) r r' ∧
        ∀ qc, syncInfo.tc = none → syncInfo.aggQC = none → syncInfo.qc = some qc →
          Vetted M r qc → Adopted M r' qc)
      (fun _ => Reaches M D (CarriesPlain syncInfo) r) r

/-- The specification of `AdvanceView` gives what `OnPropose` relies on. -/
theorem AdvancesView.advances (h : AdvancesView M D advance) : Advances M D advance := by
  intro qc r hvetted
  refine wp_mono (h { qc := some qc } r) ?_ ?_
  · intro _ r' hspec
    exact ⟨hspec.1.mono fun b hb => hb qc rfl rfl, hspec.2 qc rfl rfl rfl hvetted⟩
  · intro _ r' hreach
    exact hreach.mono fun b hb => hb qc rfl rfl

theorem advanceViewWith_advancesView {propose : SyncInfo Sig → Handler Sig Unit}
    (hpropose : ∀ cert r, Does M D (Carries (cert.qc.getD zero)) (propose cert) r) :
    AdvancesView M D (advanceViewWith M propose) := by
  intro syncInfo r
  have hfalse : ∀ {r1}, Reaches M D (fun _ => False) r r1 →
      Reaches M D (CarriesPlain syncInfo) r r1 := fun h => h.mono (by simp)
  unfold advanceViewWith
  refine wp_seq (advanceTC_spec syncInfo r) ?_ (fun _ _ h => .of_looksUp h)
  intro v r1 htc
  have hreach1 := htc.reaches (D := D)
  cases v with
  | none =>
    refine ⟨hfalse hreach1, fun _ hnone => ?_⟩
    cases htc with
    | rejected hsome => exact absurd hnone hsome
  | some v =>
    refine wp_seq (advanceQC_spec syncInfo v r1) ?_
      (fun _ _ h => hfalse (hreach1.trans (.of_looksUp h)))
    intro result r2 hqc
    have hreach := hfalse (hreach1.trans hqc.reaches)
    have hadopted : ∀ qc, syncInfo.tc = none → syncInfo.aggQC = none → syncInfo.qc = some qc →
        Vetted M r qc → Adopted M r2 qc :=
      fun qc _ hagg hsome hvetted => (hqc.plain hagg hsome).2 (hvetted.later hreach1.later)
    cases result with
    | none => exact ⟨hreach, hadopted⟩
    | some result =>
      obtain ⟨v', si⟩ := result
      simp only [wp_bind, wp_get]
      split
      · exact ⟨hreach, hadopted⟩
      simp only [wp_bind, wp_modify, wp_get]
      have henter : Reaches M D (CarriesPlain syncInfo) r2 (r2.enter (v' + 1)) :=
        .of_record (.enter (v' + 1)) rfl (by simp)
      split
      · have hvotes : ∀ b : Block Sig, b.cert = si.qc.getD zero → CarriesPlain syncInfo b := by
          intro b hb qc hagg hsome
          rw [(hqc.plain hagg hsome).1 v' si rfl, hsome] at hb
          exact hb
        refine wp_mono (hpropose si _) ?_
          (fun _ _ h => (hreach.trans henter).trans (h.mono hvotes))
        intro _ r3 h
        have hreach3 := henter.trans (h.mono hvotes)
        exact ⟨hreach.trans hreach3, fun qc htc' hagg hsome hvetted =>
          (hadopted qc htc' hagg hsome hvetted).later hreach3.later⟩
      · exact ⟨hreach.trans henter, fun qc htc' hagg hsome hvetted =>
          (hadopted qc htc' hagg hsome hvetted).later henter.later⟩

/-- `AdvanceView` at any depth of the stack. -/
theorem advanceView_advancesView (hobeys : Obeys M rules D) (n : Nat) :
    AdvancesView M D (advanceView M rules n) := by
  induction n with
  | zero => exact fun _ r => .refl r
  | succ n ih =>
    exact advanceViewWith_advancesView (proposeWith_does fun proposal r =>
      onProposeWith_does hobeys ih.advances proposal r)

theorem onPropose_does (hobeys : Obeys M rules D) (proposal : ProposeMsg Sig) (r : Replica Sig) :
    Does M D (Carries proposal.block.cert) (onPropose M rules proposal) r :=
  onProposeWith_does hobeys (advanceView_advancesView hobeys M.stack).advances proposal r

/-! ### Timeouts -/

variable (M) (rules)

/-- The part of `OnLocalTimeout` that makes the replica's own message, which is then handled like
those of the others. -/
def ownTimeout : Handler Sig (Option (TimeoutMsg Sig)) := do
  let r ← get
  if r.lastTimeout.any fun t => t.view = r.currentView then pure none
  else
    match ← signTimeout M
      { id := r.id, view := r.currentView, syncInfo := r.syncInfo, viewSignature := none } with
    | none => pure none
    | some timeout =>
      modify fun r => { r with lastTimeout := some timeout }
      modify (·.stopVoting timeout.view)
      pure (some timeout)

theorem onLocalTimeout_eq : onLocalTimeout M rules = (do
    match ← ownTimeout M with
    | none => pure ()
    | some timeout => onRemoteTimeout M rules timeout) := by
  unfold onLocalTimeout ownTimeout
  simp only [bind_assoc]
  congr 1
  funext r
  split
  · simp
  · simp only [bind_assoc]
    congr 1
    funext timeout
    cases timeout with
    | none => simp
    | some timeout => simp [bind_assoc]

/-- The view that an entry gives up: `OnLocalTimeout` stops voting for the current view right after
the last signature of its timeout message. -/
def gaveUp : Entry Sig → Option View
  | .signed (.view v) => if M.useAggQC then none else some v
  | .signed (.timeout t) => if M.useAggQC then some t.view else none
  | _ => none

/-- What a relation has to contain, so that it holds along the signatures of a timeout message for
the current view and the stop that follows them. -/
structure GivesUp (R : Replica Sig → Replica Sig → Prop) : Prop where
  looksUp : ∀ r r', LooksUp r r' → R r r'
  signView : ∀ r, M.useAggQC = true → R r (r.record (.signed (.view r.currentView)))
  giveUp : ∀ r what t, gaveUp M (.signed what) = some r.currentView → t.view = r.currentView →
    (∀ t', what = .timeout t' → t'.syncInfo.qc = some r.highQC) →
    R r (stopVoting { r.record (.signed what) with lastTimeout := some t } t.view)

/-- What a relation has to contain and to hold along, so that it holds along every handler. -/
structure Spans (R : Replica Sig → Replica Sig → Prop) : Prop where
  looksUp : ∀ r r', LooksUp r r' → R r r'
  timeouts : ∀ r timeouts, R r { r with timeouts := timeouts }
  crash : ∀ r, R r { r with crashed := true }
  ownTimeout : (ownTimeout M).Along R
  advanceView : ∀ syncInfo, (advanceView M rules M.stack syncInfo).Along R
  onPropose : ∀ proposal, (onPropose M rules proposal).Along R
  propose : ∀ cert, (propose M rules cert).Along R

variable {M rules}

section

variable {R : Replica Sig → Replica Sig → Prop} [Std.Refl R] [IsTrans (Replica Sig) R]

omit [Std.Refl R] in
theorem GivesUp.signTimeout (h : GivesUp M R) {t : TimeoutMsg Sig} (hview : t.view = r.currentView)
    (hqc : t.syncInfo.qc = some r.highQC) :
    (signTimeout M t).wp
      (fun result r' => match result with
        | none => R r r'
        | some timeout =>
          R r (stopVoting { r' with lastTimeout := some timeout } timeout.view)) never r := by
  unfold HotStuff.signTimeout
  refine wp_then (signWith_spec _ r) ?_
  intro sig r1 hsign
  obtain ⟨env, hcase⟩ := hsign
  have henv := h.looksUp r _ (.of_env r env)
  rcases hcase with ⟨rfl, rfl⟩ | ⟨hsig, rfl⟩
  · exact henv
  obtain ⟨sig, rfl⟩ := Option.ne_none_iff_exists'.mp hsig
  dsimp only
  rw [hview]
  split
  · rename_i huse
    have hsigned := IsTrans.trans _ _ _ henv (h.signView { r with env := env } huse)
    refine wp_then (signWith_spec _ _) ?_
    intro sig' r2 hsign'
    obtain ⟨env', hcase'⟩ := hsign'
    have henv' := IsTrans.trans _ _ _ hsigned (h.looksUp _ _ (.of_env _ env'))
    rcases hcase' with ⟨rfl, rfl⟩ | ⟨hsig', rfl⟩
    · exact henv'
    · obtain ⟨sig', rfl⟩ := Option.ne_none_iff_exists'.mp hsig'
      refine IsTrans.trans _ _ _ henv' (h.giveUp _ _ _ (by simp [gaveUp, huse, record]) rfl ?_)
      rintro t' ⟨⟩
      exact hqc
  · rename_i huse
    exact IsTrans.trans _ _ _ henv (h.giveUp _ _ _ (by simp [gaveUp, huse]) rfl (by simp))

theorem GivesUp.ownTimeout (h : GivesUp M R) : (ownTimeout M).Along R := by
  refine .get_bind fun r => ?_
  split
  · exact Std.Refl.refl r
  refine wp_then (h.signTimeout rfl rfl) ?_
  rintro (_ | timeout) r1 hR
  · exact hR
  · simpa only [wp_bind, wp_modify, wp_pure] using hR

namespace Spans

variable (h : Spans M rules R)

include h

theorem collectTimeout (currView : View) (timeout : TimeoutMsg Sig) :
    (collectTimeout M rules currView timeout).Along R := by
  have haddTimeout : ∀ r : Replica Sig, R r (r.addTimeout timeout) := by
    intro r
    unfold addTimeout
    split
    · exact Std.Refl.refl r
    · exact h.timeouts r _
  refine .bind (h.advanceView _) fun _ => ?_
  refine .bind (.modify haddTimeout) fun _ => .get_bind fun r => ?_
  dsimp only
  split
  · exact Std.Refl.refl r
  split
  · exact Std.Refl.refl r
  refine (wp_bind _ _).mpr ((wp_set _).mpr ?_)
  have hset := h.timeouts r (r.timeouts.filter fun t => t.view ≠ timeout.view)
  exact (h.advanceView _).after hset

theorem onRemoteTimeout (timeout : TimeoutMsg Sig) : (onRemoteTimeout M rules timeout).Along R := by
  have hcleanup : ∀ (r : Replica Sig) view, R r (r.cleanupTimeouts view) :=
    fun r view => h.timeouts r _
  refine .bind .get fun r => ?_
  split
  · exact .throw _
  rename_i sig _
  have hverify : (verify M sig (viewToBytes timeout.view)).Along R := fun r =>
    wp_imp (verify_spec M sig _ r) fun _ r' hspec => h.looksUp r r' hspec.1
  refine .bind hverify fun ok => .ite (fun _ => ?_) fun _ => ?_
  · exact .bind (h.collectTimeout _ _) fun _ => .modify fun r => hcleanup r _
  · exact .modify fun r => hcleanup r _

theorem onLocalTimeout : (onLocalTimeout M rules).Along R := by
  rw [onLocalTimeout_eq]
  refine .bind h.ownTimeout ?_
  rintro (_ | timeout)
  · exact .pure _
  · exact h.onRemoteTimeout timeout

end Spans

end

theorem givesUp_reaches : GivesUp M (Reaches M D fun _ => True) where
  looksUp _ _ := .of_looksUp
  signView r _ := .of_record (.signView _) rfl (by simp)
  giveUp r what t hgave hview hqc := by
    -- the assignment of `lastTimeout` commutes with `StopVoting`
    have hcomm : stopVoting { r.record (.signed what) with lastTimeout := some t } t.view =
        { (r.record (.signed what)).stopVoting t.view with lastTimeout := some t } := by
      unfold stopVoting
      split <;> rfl
    rw [hcomm]
    refine Reaches.trans ?_ (.of_move (.sync _ _ _ _) rfl)
    cases what with
    | vote block => cases hgave
    | view v =>
      have hsigned : Reaches M D (fun _ => True) r (r.record (.signed (.view v))) :=
        .of_record (.signView v) rfl (by simp)
      exact hsigned.trans (.of_move (.stop t.view) (by rw [stopVoting_eq]))
    | timeout t' =>
      simp only [gaveUp] at hgave
      split at hgave
      · rename_i huse
        rw [hview, ← Option.some.inj hgave]
        exact .of_record (.giveUp huse (hqc t' rfl)) (by rw [stopVoting_eq]) (by simp)
      · cases hgave

/-- Moves and votes span the handlers. -/
theorem Obeys.spans (hobeys : Obeys M rules D) : Spans M rules (Reaches M D fun _ => True) where
  looksUp _ _ := .of_looksUp
  timeouts _ _ := .of_move (.sync _ _ _ _) rfl
  crash _ := .of_move .crash rfl
  ownTimeout := givesUp_reaches.ownTimeout
  advanceView syncInfo r := wp_mono (advanceView_advancesView hobeys M.stack syncInfo r)
    (fun _ _ h => h.1.mono (by simp)) (fun _ _ h => h.mono (by simp))
  onPropose proposal r := (onPropose_does hobeys proposal r).mono fun _ h => h.mono (by simp)
  propose cert r := (proposeWith_does (onPropose_does hobeys) cert r).mono fun _ h => h.mono
    (by simp)

end NimbleChain.HotStuff
