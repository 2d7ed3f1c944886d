import NimbleChain.Common.History
import NimbleChain.Common.Quorum

/-!
# Voting on a tree of blocks

Blocks form a tree by their parents and carry views; voters vote for blocks, and a block is
certified once a quorum voted for it. The log lists the votes in the order in which they were cast.
The results are the two arguments by which chained voting protocols are safe: a three-chain of
consecutive views under a lock rule, and a two-chain under a rule that asks a quorum for its highest
certificates after a view failed.
-/

namespace NimbleChain.Common

open List

variable {V B : Type*}

/-- What a voter does: vote for a block, or give up a view and report the view of the highest
certificate it knows. -/
inductive Act (B : Type*) where
  | vote (block : B)
  | timeout (view high : ℕ)

open Act

/-- Blocks with their parents and views. The genesis block is its own parent. -/
structure BlockTree (B : Type*) where
  genesis : B
  parent : B → B
  view : B → ℕ
  view_genesis : view genesis = 0
  parent_genesis : parent genesis = genesis

namespace BlockTree

variable (T : BlockTree B)

/-- `a` is `b` or one of the blocks below `b`. -/
def Ancestor (a b : B) : Prop :=
  ∃ n, T.parent^[n] b = a

theorem ne_genesis {n : ℕ} {b : B} (h : n < T.view b) : b ≠ T.genesis := by
  rintro rfl
  rw [T.view_genesis] at h
  omega

variable {T} {a b c : B}

theorem Ancestor.refl (b : B) : T.Ancestor b b :=
  ⟨0, rfl⟩

theorem Ancestor.of_parent (h : T.Ancestor a (T.parent b)) : T.Ancestor a b := by
  obtain ⟨n, hn⟩ := h
  exact ⟨n + 1, hn⟩

theorem Ancestor.trans (h : T.Ancestor a b) (h' : T.Ancestor b c) : T.Ancestor a c := by
  obtain ⟨n, rfl⟩ := h
  obtain ⟨m, rfl⟩ := h'
  exact ⟨n + m, Function.iterate_add_apply _ n m c⟩

/-- An ancestor with a smaller view is one of the parent. -/
theorem Ancestor.parent_of_lt (h : T.Ancestor a b) (hlt : T.view a < T.view b) :
    T.Ancestor a (T.parent b) := by
  obtain ⟨n, hn⟩ := h
  cases n with
  | zero =>
    obtain rfl : b = a := hn
    omega
  | succ n => exact ⟨n, hn⟩

end BlockTree

section Votes

variable (T : BlockTree B) (S : QuorumSystem V) (log : List (V × Act B))

/-- The genesis block is certified, and a block whose correct votes make up, with any votes of the
others, a quorum. -/
def Certified (b : B) : Prop :=
  b = T.genesis ∨ ∃ Q, S.IsQuorum Q ∧ ∀ v ∈ Q, S.correct v → (v, vote b) ∈ log

/-- A vote is sound: the parent was certified before, and the voter votes in increasing views. -/
structure SoundVote (past : List (V × Act B)) (v : V) (b : B) : Prop where
  parent : Certified T S past (T.parent b)
  pos : 0 < T.view b
  increasing : ∀ b', (v, vote b') ∈ past → T.view b' < T.view b

/-- Every vote of a correct voter is sound. -/
def SoundVotes : Prop :=
  Throughout (fun past e => ∀ b, e.2 = .vote b → S.correct e.1 → SoundVote T S past e.1 b) log

end Votes

variable {T : BlockTree B} {S : QuorumSystem V} {log : List (V × Act B)} {b b' : B} {v : V}

theorem Certified.mono {log' : List (V × Act B)} (h : Certified T S log b) (hsub : log ⊆ log') :
    Certified T S log' b := by
  rcases h with hgenesis | ⟨Q, hQ, hvotes⟩
  · exact .inl hgenesis
  · exact .inr ⟨Q, hQ, fun v hv hcorrect => hsub (hvotes v hv hcorrect)⟩

section

variable (h : SoundVotes T S log)

include h

/-- Of two votes of a correct voter, the one with the smaller view was cast first. -/
theorem SoundVotes.mem_past (hv : S.correct v) (hb : (v, vote b) ∈ log)
    {past future : List (V × Act B)} (hlog : log = past ++ (v, vote b') :: future)
    (hview : T.view b < T.view b') : (v, vote b) ∈ past := by
  rcases h.mem_past_or hlog hb with hpast | hsame | ⟨past', hmem, hsound⟩
  · exact hpast
  · obtain rfl : b = b' := by simpa using hsame
    exact absurd hview (lt_irrefl _)
  · exact absurd ((hsound b rfl hv).increasing b' hmem) (by omega)

/-- A correct voter votes for at most one block of a view. -/
theorem SoundVotes.vote_unique (hv : S.correct v) (hb : (v, vote b) ∈ log)
    (hb' : (v, vote b') ∈ log) (hview : T.view b = T.view b') : b = b' := by
  obtain ⟨past, future, hlog⟩ := append_of_mem hb
  rcases h.mem_past_or hlog hb' with hpast | hsame | ⟨past', hmem, hsound⟩
  · exact absurd ((h past _ future hlog b rfl hv).increasing b' hpast) (by omega)
  · simpa using hsame.symm
  · exact absurd ((hsound b' rfl hv).increasing b hmem) (by omega)

/-- A certified block other than the genesis block has a positive view. -/
theorem SoundVotes.view_pos (hb : Certified T S log b) (hne : b ≠ T.genesis) : 0 < T.view b := by
  rcases hb with hgenesis | ⟨Q, hQ, hvotes⟩
  · exact absurd hgenesis hne
  · obtain ⟨v, hv, hcorrect⟩ := S.exists_correct_mem hQ
    obtain ⟨past, -, hsound⟩ := h.exists_past (hvotes v hv hcorrect)
    exact (hsound b rfl hcorrect).pos

/-- At most one block of a view is certified. -/
theorem SoundVotes.certified_unique (hb : Certified T S log b) (hb' : Certified T S log b')
    (hview : T.view b = T.view b') : b = b' := by
  by_cases hne : b = T.genesis
  · by_contra hbb'
    have hpos := h.view_pos hb' fun hgenesis => hbb' (hne.trans hgenesis.symm)
    rw [← hview, hne, T.view_genesis] at hpos
    exact lt_irrefl 0 hpos
  · have hne' : b' ≠ T.genesis := T.ne_genesis (hview ▸ h.view_pos hb hne)
    obtain ⟨Q, hQ, hvotes⟩ := hb.resolve_left hne
    obtain ⟨Q', hQ', hvotes'⟩ := hb'.resolve_left hne'
    obtain ⟨v, hv, hv', hcorrect⟩ := S.exists_correct Q Q' hQ hQ'
    exact h.vote_unique hcorrect (hvotes v hv hcorrect) (hvotes' v hv' hcorrect) hview

/-- The parent of a certified block is certified. -/
theorem SoundVotes.certified_parent (hb : Certified T S log b) (hne : b ≠ T.genesis) :
    Certified T S log (T.parent b) := by
  obtain ⟨Q, hQ, hvotes⟩ := hb.resolve_left hne
  obtain ⟨v, hv, hcorrect⟩ := S.exists_correct_mem hQ
  obtain ⟨past, hpast, hsound⟩ := h.exists_past (hvotes v hv hcorrect)
  exact (hsound b rfl hcorrect).parent.mono hpast.subset

end

section

variable (h : SoundVotes T S log) (hb : Certified T S log b)

include h hb

/-- The parent of a certified block has a smaller view: who voted first for the block knew a quorum
for its parent, and a voter in both voted for the block later. -/
theorem SoundVotes.view_parent_lt (hne : b ≠ T.genesis) : T.view (T.parent b) < T.view b := by
  obtain ⟨Q, hQ, hvotes⟩ := hb.resolve_left hne
  obtain ⟨v, hv, hcorrect⟩ := S.exists_correct_mem hQ
  obtain ⟨past, e, future, hlog, ⟨hvote, hecorrect⟩, hfirst⟩ :=
    exists_first (P := fun e => e.2 = vote b ∧ S.correct e.1)
      ⟨_, hvotes v hv hcorrect, rfl, hcorrect⟩
  have hsound := h past e future hlog b hvote hecorrect
  rcases hsound.parent with hgenesis | ⟨Q', hQ', hvotes'⟩
  · rw [hgenesis, T.view_genesis]
    exact hsound.pos
  obtain ⟨w, hw, hw', hwcorrect⟩ := S.exists_correct Q Q' hQ hQ'
  have hparent := hvotes' w hw' hwcorrect
  have hblock : (w, vote b) ∈ e :: future := by
    have hmem := hvotes w hw hwcorrect
    rw [hlog, mem_append] at hmem
    exact hmem.resolve_left fun hpast => hfirst _ hpast ⟨rfl, hwcorrect⟩
  obtain ⟨between, rest, hrest⟩ := append_of_mem hblock
  have hsound' := h (past ++ between) (w, vote b) rest (by rw [hlog, hrest]; simp) b rfl hwcorrect
  exact hsound'.increasing _ (mem_append_left _ hparent)

/-- An ancestor of a certified block is certified and has no larger view. -/
theorem SoundVotes.certified_ancestor {a : B} (ha : T.Ancestor a b) :
    Certified T S log a ∧ T.view a ≤ T.view b := by
  obtain ⟨n, hn⟩ := ha
  induction n generalizing b with
  | zero =>
    obtain rfl : b = a := hn
    exact ⟨hb, le_rfl⟩
  | succ n ih =>
    by_cases hgenesis : b = T.genesis
    · have hstay : T.parent b = b := by rw [hgenesis, T.parent_genesis]
      rw [Function.iterate_succ_apply, hstay] at hn
      exact ih hb hn
    · have hparent := ih (h.certified_parent hb hgenesis) hn
      exact ⟨hparent.1, hparent.2.trans (h.view_parent_lt hb hgenesis).le⟩

/-- Every certified block descends from the genesis block. -/
theorem SoundVotes.ancestor_genesis : T.Ancestor T.genesis b := by
  induction hview : T.view b using Nat.strong_induction_on generalizing b with
  | _ n ih =>
    by_cases hgenesis : b = T.genesis
    · exact hgenesis ▸ .refl b
    · have hlt := h.view_parent_lt hb hgenesis
      exact (ih _ (hview ▸ hlt) (h.certified_parent hb hgenesis) rfl).of_parent

end

section ThreeChain

variable (T S)

/-- The lock rule. The voter knows a certified block `L`, its lock, at least as new as the
grandparents of the blocks it voted for, other than siblings of `b`; and `b` has a parent newer than
`L` or descends from `L`. -/
def LockedVote (past : List (V × Act B)) (v : V) (b : B) : Prop :=
  ∃ L, Certified T S past L ∧
    (∀ b', (v, vote b') ∈ past →
      T.parent b' = T.parent b ∨ T.view (T.parent (T.parent b')) ≤ T.view L) ∧
    (T.view L < T.view (T.parent b) ∨ T.Ancestor L b)

/-- Every vote of a correct voter follows the lock rule. -/
def LockedVotes (log : List (V × Act B)) : Prop :=
  Throughout (fun past e => ∀ b, e.2 = .vote b → S.correct e.1 → LockedVote T S past e.1 b) log

/-- `b` starts a three-chain: it has a certified grandchild, in consecutive views. -/
def ThreeChain (log : List (V × Act B)) (b : B) : Prop :=
  ∃ b1, Certified T S log b1 ∧ T.parent (T.parent b1) = b ∧
    T.view b1 = T.view (T.parent b1) + 1 ∧ T.view (T.parent b1) = T.view b + 1

variable {T S}

theorem ThreeChain.certified (h : SoundVotes T S log) (hb : ThreeChain T S log b) :
    Certified T S log b := by
  obtain ⟨b1, hb1, rfl, hview1, hview2⟩ := hb
  have hne : b1 ≠ T.genesis := T.ne_genesis (by omega : 0 < T.view b1)
  have hne2 : T.parent b1 ≠ T.genesis := T.ne_genesis (by omega : 0 < T.view (T.parent b1))
  exact h.certified_parent (h.certified_parent hb1 hne) hne2

/-- Under the lock rule, every block certified in a view from `b` on descends from a `b` that starts
a three-chain. The induction is on the part of the log in which the block is certified. -/
theorem ThreeChain.ancestor_of_certified (h : SoundVotes T S log) (hlock : LockedVotes T S log)
    {c : B} (hc : ThreeChain T S log c) (hb : Certified T S log b) (hview : T.view c ≤ T.view b) :
    T.Ancestor c b := by
  have hccert := hc.certified h
  obtain ⟨b1, hb1, hparent, hview1, hview2⟩ := hc
  have hne1 : b1 ≠ T.genesis := T.ne_genesis (by omega : 0 < T.view b1)
  have hb2 := h.certified_parent hb1 hne1
  obtain ⟨Q1, hQ1, hvotes1⟩ := hb1.resolve_left hne1
  have hstart : T.Ancestor c (T.parent b1) := by
    rw [← hparent]
    exact (BlockTree.Ancestor.refl _).of_parent
  suffices hpast : ∀ n, ∀ past, past <+: log → past.length = n → ∀ b, Certified T S past b →
      T.view c ≤ T.view b → T.Ancestor c b from
    hpast _ log prefix_rfl rfl b hb hview
  intro n
  induction n using Nat.strong_induction_on with
  | _ n ih =>
    intro past hpast hlength b hb hview
    have hbcert := hb.mono hpast.subset
    -- the three views of the chain are settled by uniqueness
    by_cases hc' : T.view b = T.view c
    · rw [h.certified_unique hbcert hccert hc']
      exact .refl c
    by_cases hc2 : T.view b = T.view (T.parent b1)
    · rw [h.certified_unique hbcert hb2 hc2]
      exact hstart
    by_cases hc1 : T.view b = T.view b1
    · rw [h.certified_unique hbcert hb1 hc1]
      exact hstart.of_parent
    have hafter : T.view b1 < T.view b := by omega
    have hne : b ≠ T.genesis := T.ne_genesis hafter
    -- a voter for `b1` also voted for `b`, and did so later
    obtain ⟨Q, hQ, hvotes⟩ := hb.resolve_left hne
    obtain ⟨v, hv, hv1, hcorrect⟩ := S.exists_correct Q Q1 hQ hQ1
    obtain ⟨before, future, hsplit⟩ := append_of_mem (hvotes v hv hcorrect)
    obtain ⟨rest, hrest⟩ := hpast
    have hlog : log = before ++ (v, vote b) :: (future ++ rest) := by
      rw [← hrest, hsplit]
      simp
    have hmem1 := h.mem_past hcorrect (hvotes1 v hv1 hcorrect) hlog hafter
    have hbefore : before <+: log := hlog ▸ prefix_append _ _
    have hshort : before.length < n := by
      rw [← hlength, hsplit, length_append, length_cons]
      omega
    have hsound := h before _ _ hlog b rfl hcorrect
    obtain ⟨L, hL, hcover, hrule⟩ := hlock before _ _ hlog b rfl hcorrect
    rcases hcover b1 hmem1 with hsibling | hcovered
    · exact (hsibling ▸ hstart).of_parent
    rw [hparent] at hcovered
    rcases hrule with hnewer | hextends
    · exact (ih _ hshort before hbefore rfl _ hsound.parent (by omega)).of_parent
    · exact (ih _ hshort before hbefore rfl L hL hcovered).trans hextends

end ThreeChain

section TwoChain

variable (T S)

/-- The rule of the two-chain. The block is in the view after its parent's, or a quorum gave up the
view before it and reported no certificate newer than its parent. -/
def FreshVote (past : List (V × Act B)) (b : B) : Prop :=
  T.view b = T.view (T.parent b) + 1 ∨
    ∃ Q, S.IsQuorum Q ∧ ∀ v ∈ Q, S.correct v →
      ∃ high, (v, timeout (T.view b - 1) high) ∈ past ∧ high ≤ T.view (T.parent b)

/-- Votes follow the rule, no vote is cast in a view that was given up, and a report covers the
parents of all blocks voted for. -/
def FreshVotes (log : List (V × Act B)) : Prop :=
  Throughout (fun past e => S.correct e.1 →
    (∀ b, e.2 = .vote b → FreshVote T S past b ∧
      ∀ view high, (e.1, timeout view high) ∈ past → view < T.view b) ∧
    ∀ view high, e.2 = .timeout view high → ∀ b, (e.1, vote b) ∈ past →
      T.view (T.parent b) ≤ high) log

/-- `b` starts a two-chain: it has a certified child in the next view. -/
def TwoChain (log : List (V × Act B)) (b : B) : Prop :=
  ∃ b1, Certified T S log b1 ∧ T.parent b1 = b ∧ T.view b1 = T.view b + 1

variable {T S}

theorem TwoChain.certified (h : SoundVotes T S log) (hb : TwoChain T S log b) :
    Certified T S log b := by
  obtain ⟨b1, hb1, rfl, hview⟩ := hb
  exact h.certified_parent hb1 (T.ne_genesis (by omega : 0 < T.view b1))

/-- Under the rule of the two-chain, every block certified in a view from `b` on descends from a `b`
that starts a two-chain. -/
theorem TwoChain.ancestor_of_certified (h : SoundVotes T S log) (hfresh : FreshVotes T S log)
    {c : B} (hc : TwoChain T S log c) (hb : Certified T S log b) (hview : T.view c ≤ T.view b) :
    T.Ancestor c b := by
  have hccert := hc.certified h
  obtain ⟨b1, hb1, hparent, hview1⟩ := hc
  have hne1 : b1 ≠ T.genesis := T.ne_genesis (by omega : 0 < T.view b1)
  obtain ⟨Q1, hQ1, hvotes1⟩ := hb1.resolve_left hne1
  induction hn : T.view b using Nat.strong_induction_on generalizing b with
  | _ n ih =>
    by_cases hc' : T.view b = T.view c
    · rw [h.certified_unique hb hccert hc']
      exact .refl c
    by_cases hc1 : T.view b = T.view b1
    · rw [h.certified_unique hb hb1 hc1, ← hparent]
      exact (BlockTree.Ancestor.refl _).of_parent
    have hne : b ≠ T.genesis := T.ne_genesis (by omega : T.view c < T.view b)
    -- it is enough that the parent is not older than `c`
    suffices hle : T.view c ≤ T.view (T.parent b) from
      (ih _ (hn ▸ h.view_parent_lt hb hne) (h.certified_parent hb hne) hle rfl).of_parent
    obtain ⟨Q, hQ, hvotes⟩ := hb.resolve_left hne
    obtain ⟨v, hv, hcorrect⟩ := S.exists_correct_mem hQ
    obtain ⟨past, hpast, hrule⟩ := hfresh.exists_past (hvotes v hv hcorrect)
    rcases ((hrule hcorrect).1 b rfl).1 with hnext | ⟨Q', hQ', hreports⟩
    · omega
    -- a voter for `b1` reported after it voted, since it gave up a later view
    obtain ⟨w, hw, hw1, hwcorrect⟩ := S.exists_correct Q' Q1 hQ' hQ1
    obtain ⟨high, hreport, hhigh⟩ := hreports w hw hwcorrect
    obtain ⟨before, future, hlog⟩ := append_of_mem (hpast.subset hreport)
    have hmem1 : (w, vote b1) ∈ before := by
      rcases hfresh.mem_past_or hlog (hvotes1 w hw1 hwcorrect) with
        hbefore | hsame | ⟨_, hmem, hlate⟩
      · exact hbefore
      · simp at hsame
      · have hgiven := ((hlate hwcorrect).1 b1 rfl).2 _ _ hmem
        omega
    have hcover := (hfresh before _ future hlog hwcorrect).2 _ _ rfl b1 hmem1
    rw [hparent] at hcover
    omega

end TwoChain

end NimbleChain.Common
