import NimbleChain.HotStuff.VoteTree

/-!
# The lock of Chained and Simple HotStuff

Both variants lock the block two certificates below an accepted proposal before they vote for it,
and refuse proposals that fall behind the lock. The vote and commit rules of both follow that
discipline, so that the votes of a network obey the abstract lock rule, provided that the block to
lock was always found.
-/

namespace NimbleChain.HotStuff

open Common Program

variable {Sig : Type}

/-- From a block the parents lead through stored blocks to a block with the hash of the target. -/
inductive Descends (S : Primitives Sig) (blocks : List (Block Sig)) (target : Block Sig) :
    Block Sig → Prop where
  | here {b : Block Sig} : b.hash S = target.hash S → Descends S blocks target b
  | parent {b p : Block Sig} : p ∈ blocks → p.hash S = b.parent → Descends S blocks target p →
      Descends S blocks target b

variable {S : Primitives Sig} {blocks blocks' : List (Block Sig)} {b : Block Sig}
  {look : QuorumCert Sig → Handler Sig (Option (Block Sig))}

theorem Descends.mono {target : Block Sig} (h : Descends S blocks target b)
    (hsub : blocks ⊆ blocks') : Descends S blocks' target b := by
  induction h with
  | here hhash => exact .here hhash
  | parent hp hhash _ ih => exact .parent (hsub hp) hhash ih

/-- A lock in the given view covers a block voted for: it is not older than the block two
certificates below, if one was found. -/
def Covered (S : Primitives Sig) (blocks : List (Block Sig)) (trace : List (Entry Sig))
    (view : View) (b : Block Sig) : Prop :=
  b.cert.hash = Hash.zero ∨ ∃ p ∈ blocks, p.hash S = b.cert.hash ∧
    (p.cert.hash = Hash.zero ∨ (∃ hash, Entry.missed hash ∈ trace) ∨
      ∃ gp ∈ blocks, gp.hash S = p.cert.hash ∧ gp.view ≤ view)

theorem Covered.mono {trace trace' : List (Entry Sig)} {view view' : View}
    (h : Covered S blocks trace view b) (hblocks : blocks ⊆ blocks') (htrace : trace ⊆ trace')
    (hview : view ≤ view') : Covered S blocks' trace' view' b := by
  rcases h with hzero | ⟨p, hp, hhash, hcase⟩
  · exact .inl hzero
  refine .inr ⟨p, hblocks hp, hhash, ?_⟩
  rcases hcase with hzero | ⟨hash, hmissed⟩ | ⟨gp, hgp, hgphash, hle⟩
  · exact .inl hzero
  · exact .inr (.inl ⟨hash, htrace hmissed⟩)
  · exact .inr (.inr ⟨gp, hblocks hgp, hgphash, UInt64.le_trans hle hview⟩)

/-- The discipline of the lock. A proposal is voted for if its certified block is not older than the
lock or it descends from the lock; before the vote, the lock covers it. -/
def lockDiscipline (M : Modules Sig) (Decision : List (Block Sig) → Prop) : Discipline Sig where
  Guard r proposal :=
    (∃ p ∈ r.chain.blocks, p.hash M.S = proposal.block.cert.hash ∧ r.locked.view ≤ p.view) ∨
      Descends M.S r.chain.blocks r.locked proposal.block
  Decision := Decision
  Handled r b := Covered M.S r.chain.blocks r.trace r.locked.view b

variable {M : Modules Sig} {K : List (Block Sig) → Prop} (chain : List (Block Sig))

/-! ### The rules follow the discipline -/

/-- `Extends` follows parents. -/
theorem extendsLoop_spec (target : Block Sig) (n : Nat) (current : Block Sig) (r : Replica Sig) :
    (extendsLoop M target n current).wp
      (fun ok r' => LooksUp r r' ∧ (ok = true → Descends M.S r'.chain.blocks target current))
      (fun _ r' => LooksUp r r') r := by
  induction n generalizing current r with
  | zero => exact .refl r
  | succ n ih =>
    unfold extendsLoop
    split
    · refine wp_then (getBlock_spec M current.parent r) ?_
      intro parent r1 hget
      obtain ⟨hlooks, hfound, -⟩ := hget
      cases parent with
      | none => exact ⟨hlooks, by simp⟩
      | some parent =>
        obtain ⟨hmem, hhash⟩ := mem_of_localGet (hfound parent rfl)
        refine wp_mono (ih parent r1) ?_ (fun _ _ h => hlooks.trans h)
        intro ok r2 hloop
        exact ⟨hlooks.trans hloop.1,
          fun hok => .parent (hloop.1.blocks.subset hmem) hhash (hloop.2 hok)⟩
    · exact ⟨.refl r, fun hok => .here (by simpa using hok)⟩

/-- `Extends`, from the block on. -/
theorem extendsBlock_spec (block target : Block Sig) (r : Replica Sig) :
    (extendsBlock M block target).wp
      (fun ok r' => LooksUp r r' ∧ (ok = true → Descends M.S r'.chain.blocks target block))
      (fun _ r' => LooksUp r r') r := by
  exact extendsLoop_spec target _ block r

/-- What both variants' lookups of the block that a certificate names have in common. -/
def FindsCertified (M : Modules Sig) (look : QuorumCert Sig → Handler Sig (Option (Block Sig))) :
    Prop :=
  ∀ qc r, (look qc).wp
    (fun found r' => LooksUp r r' ∧
      (∀ b, found = some b → b ∈ r'.chain.blocks ∧ b.hash M.S = qc.hash) ∧
      (found = none → qc.hash = Hash.zero ∨ ∀ b ∈ r.chain.blocks, b.hash M.S ≠ qc.hash)) never r

/-- `Get` finds the certified block. -/
theorem getBlock_finds : FindsCertified M fun qc => getBlock M qc.hash := by
  intro qc r
  refine wp_imp (getBlock_spec M qc.hash r) ?_
  exact fun found r' hget => ⟨hget.1, fun b hb => mem_of_localGet (hget.2.1 b hb),
    fun hnone => .inr (hget.2.2.1 hnone)⟩

/-- So does `qcRef`, but for the zero hash. -/
theorem qcRef_finds : FindsCertified M (qcRef M) := by
  intro qc r
  unfold qcRef
  split
  · rename_i hzero
    exact ⟨.refl r, by simp, fun _ => .inl hzero⟩
  · exact getBlock_finds qc r

/-- The end of both commit rules, once the two blocks below the proposal are found: lock the second
and record the decision, if the third is found and the check succeeds. -/
def lockAndDecide (look : QuorumCert Sig → Handler Sig (Option (Block Sig))) (C : Block Sig → Prop)
    [DecidablePred C] (p gp : Block Sig) : Handler Sig (Option (Block Sig)) := do
  modify (·.lockOn gp)
  match ← look gp.cert with
  | none => pure none
  | some ggp =>
    if C ggp then
      modify (·.record (.decided [p, gp, ggp]))
      pure (some ggp)
    else pure none

/-- The discipline of a commit rule: the proposal is handled, and what is committed was decided. -/
def CommitsBy (M : Modules Sig) (K : List (Block Sig) → Prop) (block : Block Sig) (r : Replica Sig)
    (rule : Handler Sig (Option (Block Sig))) : Prop :=
  rule.wp
    (fun result r' => Reaches M (lockDiscipline M K) (fun _ => False) r r' ∧
      (lockDiscipline M K).Handled r' block ∧
      ∀ b, result = some b → b ∈ r'.chain.blocks ∧ Committed r'.trace b)
    (fun _ => Reaches M (lockDiscipline M K) (fun _ => False) r) r

/-- The end of the commit rules follows the discipline. -/
theorem lockAndDecide_spec (hlook : FindsCertified M look) {C : Block Sig → Prop} [DecidablePred C]
    {block p gp : Block Sig} (hcheck : ∀ ggp, C ggp → K [p, gp, ggp]) {r : Replica Sig}
    (hp : p ∈ r.chain.blocks) (hphash : p.hash M.S = block.cert.hash)
    (hknown : Known M r.chain.blocks r.trace (p.hash M.S)) (hgp : gp ∈ r.chain.blocks)
    (hgphash : gp.hash M.S = p.cert.hash) : CommitsBy M K block r (lockAndDecide look C p gp) := by
  simp only [CommitsBy, lockAndDecide, wp_bind, wp_modify]
  have hlock : Reaches M (lockDiscipline M K) (fun _ => False) r (r.lockOn gp) :=
    .of_move (.lock hp hknown hgp hgphash) (by rw [Replica.lockOn_eq])
  have hhandled : (lockDiscipline M K).Handled (r.lockOn gp) block := by
    refine .inr ⟨p, hlock.later.blocks.subset hp, hphash, .inr (.inr ⟨gp,
      hlock.later.blocks.subset hgp, hgphash, ?_⟩)⟩
    unfold Replica.lockOn
    split
    · exact UInt64.le_refl _
    · exact UInt64.not_lt.mp ‹_›
  have hlater : ∀ {r'}, Later (r.lockOn gp) r' → (lockDiscipline M K).Handled r' block :=
    fun h => hhandled.mono h.blocks.subset h.trace.subset h.locked
  refine wp_imp (hlook gp.cert (r.lockOn gp)) ?_
  intro found r2 hget
  obtain ⟨hlooks, hfound, -⟩ := hget
  have hreach2 := hlock.trans (.of_looksUp hlooks)
  cases found with
  | none => exact ⟨hreach2, hlater hlooks.later, by simp⟩
  | some ggp =>
    obtain ⟨hggp, hggphash⟩ := hfound ggp rfl
    simp only
    split
    · rename_i hok
      have hdecided : Decided M r2.chain.blocks r2.trace [p, gp, ggp] := by
        refine ⟨?_, ?_, ?_⟩
        · intro b hb
          simp only [List.mem_cons, List.not_mem_nil, or_false] at hb
          rcases hb with rfl | rfl | rfl
          · exact hreach2.later.blocks.subset hp
          · exact hreach2.later.blocks.subset hgp
          · exact hggp
        · simp [hgphash, hggphash]
        · intro b hb
          obtain rfl : p = b := by simpa using hb
          exact hknown.mono hreach2.later.blocks.subset hreach2.later.trace.subset
      have hdecide : Move M (lockDiscipline M K) r2 (r2.record (.decided [p, gp, ggp])) :=
        .decide hdecided (hcheck ggp hok)
      refine ⟨hreach2.trans (.of_record hdecide rfl (by simp)),
        hlater (hlooks.later.trans hdecide.later), ?_⟩
      intro b hb
      obtain rfl : ggp = b := Option.some.inj hb
      exact ⟨hggp, [p, gp, ggp], by simp [Replica.record], rfl⟩
    · exact ⟨hreach2, hlater hlooks.later, by simp⟩

/-- Both commit rules: find the two blocks below the proposal first. -/
def commitBelow (look : QuorumCert Sig → Handler Sig (Option (Block Sig)))
    (C : Block Sig → Block Sig → Block Sig → Prop) [∀ p gp, DecidablePred (C p gp)]
    (block : Block Sig) : Handler Sig (Option (Block Sig)) := do
  match ← look block.cert with
  | none => pure none
  | some p =>
    match ← look p.cert with
    | none =>
      noteMissed p.cert.hash
      pure none
    | some gp => lockAndDecide look (C p gp) p gp

/-- The commit rules follow the discipline. -/
theorem commitBelow_spec (hlook : FindsCertified M look)
    {C : Block Sig → Block Sig → Block Sig → Prop} [∀ p gp, DecidablePred (C p gp)]
    (hcheck : ∀ p gp ggp, C p gp ggp → K [p, gp, ggp]) (block : Block Sig) (r : Replica Sig)
    (hvetted : Vetted M r block.cert) :
    CommitsBy M K block r (commitBelow look C block) := by
  refine wp_then (hlook block.cert r) ?_
  intro found r1 hget
  obtain ⟨hlooks, hfound, hnone⟩ := hget
  have hreach1 := Reaches.of_looksUp (M := M) (D := lockDiscipline M K) (P := fun _ => False) hlooks
  cases found with
  | none =>
    refine ⟨hreach1, .inl ?_, by simp⟩
    obtain ⟨b, hb, hhash, -⟩ := hvetted.known
    exact (hnone rfl).resolve_right fun hno => hno b hb hhash
  | some p =>
    obtain ⟨hp, hphash⟩ := hfound p rfl
    have hknown : Known M r1.chain.blocks r1.trace (p.hash M.S) :=
      hphash ▸ hvetted.known.mono hlooks.blocks.subset hlooks.later.trace.subset
    refine wp_then (hlook p.cert r1) ?_
    intro found r2 hget
    obtain ⟨hlooks2, hfound, -⟩ := hget
    have hreach2 := hreach1.trans (.of_looksUp hlooks2)
    have hp2 := hlooks2.blocks.subset hp
    cases found with
    | none =>
      simp only [wp_bind, noteMissed]
      split
      · rename_i hzero
        exact ⟨hreach2, .inr ⟨p, hp2, hphash, .inl hzero⟩, by simp⟩
      · refine ⟨hreach2.trans (.of_record (.miss _) rfl (by simp)), ?_, by simp⟩
        exact .inr ⟨p, hp2, hphash, .inr (.inl ⟨p.cert.hash, by simp [Replica.record]⟩)⟩
    | some gp =>
      obtain ⟨hgp, hgphash⟩ := hfound gp rfl
      refine wp_mono (lockAndDecide_spec hlook (hcheck p gp) hp2 hphash
        (hknown.mono hlooks2.blocks.subset hlooks2.later.trace.subset) hgp hgphash) ?_
        (fun _ _ h => hreach2.trans h)
      exact fun result r3 hspec => ⟨hreach2.trans hspec.1, hspec.2⟩

/-- Decisions of Chained HotStuff are about three blocks. -/
def Chained.Decision : Prop :=
  chain.length = 3

/-- Decisions of Simple HotStuff are about three blocks, the first and the last of which are two
views apart. -/
def Simple.Decision : Prop :=
  ∃ p gp ggp, chain = [p, gp, ggp] ∧ ggp.view + 2 = p.view

/-- Chained HotStuff follows the discipline. -/
theorem Chained.obeys (M : Modules Sig) :
    Obeys M (Chained.rules M) (lockDiscipline M Chained.Decision) where
  handled_later h hlater := h.mono hlater.blocks.subset hlater.trace.subset hlater.locked
  voteRule proposal r _ _ := by
    simp only [Chained.rules, Chained.voteRule]
    refine wp_then (getBlock_spec M _ r) ?_
    intro found r1 hget
    obtain ⟨hlooks, hfound, -⟩ := hget
    have hextends : (extendsBlock M proposal.block r1.locked).wp
        (fun ok r' => LooksUp r r' ∧
          (ok = true → (lockDiscipline M Chained.Decision).Guard r' proposal))
        (fun _ r' => LooksUp r r') r1 := by
      refine wp_mono (extendsBlock_spec proposal.block r1.locked r1) ?_
        (fun _ _ h => hlooks.trans h)
      intro ok r2 hspec
      have hlocked : r2.locked = r1.locked := by rw [hspec.1.rest]
      exact ⟨hlooks.trans hspec.1, fun hok => .inr (hlocked ▸ hspec.2 hok)⟩
    cases found with
    | none => exact hextends
    | some qcBlock =>
      simp only [wp_bind, wp_get]
      split
      · rename_i hnewer
        obtain ⟨hmem, hhash⟩ := mem_of_localGet (hfound qcBlock rfl)
        exact ⟨hlooks, fun _ => .inl ⟨qcBlock, hmem, hhash, UInt64.le_of_lt hnewer⟩⟩
      · exact hextends
  commitRule block r hvetted _ :=
    commitBelow_spec (C := fun p gp ggp => p.parent = gp.hash M.S ∧ gp.parent = ggp.hash M.S)
      qcRef_finds (fun _ _ _ _ => rfl) block r hvetted

/-- So does Simple HotStuff. -/
theorem Simple.obeys (M : Modules Sig) :
    Obeys M (Simple.rules M) (lockDiscipline M Simple.Decision) where
  handled_later h hlater := h.mono hlater.blocks.subset hlater.trace.subset hlater.locked
  voteRule proposal r _ _ := by
    simp only [Simple.rules, Simple.voteRule, wp_bind, wp_get]
    split
    · exact ⟨.refl r, by simp⟩
    refine wp_then (getBlock_spec M _ r) ?_
    intro found r1 hget
    obtain ⟨hlooks, hfound, -⟩ := hget
    cases found with
    | none => exact ⟨hlooks, by simp⟩
    | some parent =>
      obtain ⟨hmem, hhash⟩ := mem_of_localGet (hfound parent rfl)
      exact ⟨hlooks, fun hok => .inl ⟨parent, hmem, hhash, by simpa using hok⟩⟩
  commitRule block r hvetted _ :=
    commitBelow_spec (C := fun p _ ggp => ggp.view + 2 = p.view)
      getBlock_finds (fun p gp ggp hview => ⟨p, gp, ggp, rfl, hview⟩) block r hvetted

end NimbleChain.HotStuff
