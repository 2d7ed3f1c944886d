import NimbleChain.HotStuff.HandlerSteps

/-!
# The order of the votes of a replica

A replica only signs a vote for a block that is newer than `lastVote`, and both the vote and a
timeout of its own raise `lastVote`. It therefore votes at most once per view, in increasing views,
and never in a view that it has given up.
-/

namespace NimbleChain.HotStuff

open Common Program

variable {Sig : Type} (M : Modules Sig)

/-- The view of the block that an entry is a vote for. -/
def votedView : Entry Sig → Option View
  | .signed (.vote block) => some block.view
  | _ => none

/-- The views of the votes, in the order in which they were signed. -/
def voteViews (trace : List (Entry Sig)) : List View :=
  trace.filterMap votedView

/-- A vote is newer than all votes before it and than the views that were given up before it. -/
def NewerVote (past : List (Entry Sig)) (entry : Entry Sig) : Prop :=
  ∀ view, votedView entry = some view → ∀ earlier ∈ past, ∀ v,
    votedView earlier = some v ∨ gaveUp M earlier = some v → v < view

/-- What holds of the votes of a replica at all times. -/
structure VotesInOrder (r : Replica Sig) : Prop where
  newer : Throughout (NewerVote M) r.trace
  lastVote : ∀ entry ∈ r.trace, ∀ v,
    votedView entry = some v ∨ gaveUp M entry = some v → v ≤ r.lastVote

variable {M} {r r' : Replica Sig}

theorem Replica.le_stopVoting (r : Replica Sig) (view : View) :
    r.lastVote ≤ (r.stopVoting view).lastVote ∧ view ≤ (r.stopVoting view).lastVote := by
  unfold Replica.stopVoting
  split
  · rename_i hlt
    exact ⟨UInt64.le_of_lt hlt, UInt64.le_refl _⟩
  · rename_i hle
    exact ⟨UInt64.le_refl _, UInt64.not_lt.mp hle⟩

namespace VotesInOrder

section

variable (h : VotesInOrder M r)

include h

/-- Neither votes nor timeouts: nothing to keep in order. -/
theorem append_idle {new : List (Entry Sig)} (htrace : r'.trace = r.trace ++ new)
    (hlast : r.lastVote ≤ r'.lastVote)
    (hidle : ∀ entry ∈ new, votedView entry = none ∧ gaveUp M entry = none) :
    VotesInOrder M r' := by
  constructor
  · rw [htrace]
    refine h.newer.append ?_
    intro past entry hentry _ view hview
    rw [(hidle entry hentry).1] at hview
    cases hview
  · intro entry hentry v hv
    rw [htrace] at hentry
    rcases List.mem_append.mp hentry with hold | hnew
    · exact UInt64.le_trans (h.lastVote entry hold v hv) hlast
    · obtain ⟨hvoted, hgave⟩ := hidle entry hnew
      rw [hvoted, hgave] at hv
      rcases hv with hv | hv <;> cases hv

theorem commits (hcommits : Commits r r') : VotesInOrder M r' := by
  obtain ⟨new, hnew, hsilent⟩ := hcommits.trace
  refine h.append_idle hnew ?_ ?_
  · rw [hcommits.rest]
    exact UInt64.le_refl _
  · intro entry hentry
    have hentry := hsilent entry hentry
    cases entry with
    | signed what => exact hentry.elim
    | _ => exact ⟨rfl, rfl⟩

/-- One more signature, after which `lastVote` is at least the view it is about. -/
theorem record {entry : Entry Sig} (htrace : r'.trace = r.trace ++ [entry])
    (hlast : r.lastVote ≤ r'.lastVote)
    (hnewer : ∀ view, votedView entry = some view → r.lastVote < view)
    (hentry : ∀ v, votedView entry = some v ∨ gaveUp M entry = some v → v ≤ r'.lastVote) :
    VotesInOrder M r' := by
  constructor
  · rw [htrace]
    refine h.newer.append_singleton fun view hview earlier hearlier v hv => ?_
    exact UInt64.lt_of_le_of_lt (h.lastVote earlier hearlier v hv) (hnewer view hview)
  · intro e he v hv
    rw [htrace] at he
    rcases List.mem_append.mp he with hold | hnew
    · exact UInt64.le_trans (h.lastVote e hold v hv) hlast
    · rw [List.mem_singleton.mp hnew] at hv
      exact hentry v hv

/-- Every step keeps the votes in order. -/
theorem step (hstep : Step M r r') : VotesInOrder M r' := by
  cases hstep with
  | ponder hponders => exact h.commits hponders.commits
  | vote hnew =>
    refine h.record rfl (UInt64.le_of_lt hnew) ?_ ?_
    · intro view hview
      exact Option.some.inj hview ▸ hnew
    · intro v hv
      rcases hv with hv | hv
      · exact Option.some.inj hv ▸ UInt64.le_refl _
      · cases hv
  | signView huse =>
    refine h.append_idle rfl (UInt64.le_refl _) ?_
    simp [votedView, gaveUp, huse]
  | @giveUp what t hgave hview =>
    have hle := Replica.le_stopVoting
      { r.record (.signed what) with lastTimeout := some t } t.view
    refine h.record (by rw [Replica.stopVoting_eq]; rfl) hle.1 ?_ ?_
    · intro view hvoted
      cases what with
      | vote block => cases hgave
      | _ => cases hvoted
    · intro v hv
      rcases hv with hv | hv
      · cases what with
        | vote block => cases hgave
        | _ => cases hv
      · rw [hgave] at hv
        rw [← Option.some.inj hv, ← hview]
        exact hle.2
  | raise =>
    unfold Replica.updateHighTC
    split
    · exact ⟨h.newer, h.lastVote⟩
    · exact h
  | adopt => exact h.append_idle rfl (UInt64.le_refl _) (by simp [votedView, gaveUp])
  | enter => exact h.append_idle rfl (UInt64.le_refl _) (by simp [votedView, gaveUp])

end

theorem init (i : ID) : VotesInOrder M (Replica.init M.S i) :=
  ⟨.nil, fun _ hentry => absurd hentry (by simp [Replica.init])⟩

/-- Newer votes are newer than every vote before them. -/
theorem pairwise (h : VotesInOrder M r) : (voteViews r.trace).Pairwise (· < ·) := by
  refine Throughout.pairwise (Throughout.filterMap (h.newer.mono ?_))
  intro past entry hnewer view hview v hv
  obtain ⟨earlier, hearlier, hv⟩ := List.mem_filterMap.mp hv
  exact hnewer view hview earlier hearlier v (.inl hv)

end VotesInOrder

/-- `OnLocalTimeout` has just given up the view in which it is about to stop voting. -/
theorem signTimeout_gaveUp (t : TimeoutMsg Sig) (r : Replica Sig) :
    (signTimeout M t).wp
      (fun result r' => ∀ timeout, result = some timeout →
        ∃ past entry, r'.trace = past ++ [entry] ∧ gaveUp M entry = some timeout.view) never r := by
  unfold signTimeout
  refine Program.wp_then (signWith_spec _ r) ?_
  rintro sig _ ⟨env, ⟨rfl, rfl⟩ | ⟨hsig, rfl⟩⟩
  · simp
  obtain ⟨sig, rfl⟩ := Option.ne_none_iff_exists'.mp hsig
  dsimp only
  split
  · rename_i huse
    refine Program.wp_then (signWith_spec _ _) ?_
    rintro sig' _ ⟨env', ⟨rfl, rfl⟩ | ⟨hsig', rfl⟩⟩
    · simp
    obtain ⟨sig', rfl⟩ := Option.ne_none_iff_exists'.mp hsig'
    intro timeout htimeout
    cases htimeout
    exact ⟨_, _, rfl, by simp [gaveUp, huse]⟩
  · rename_i huse
    intro timeout htimeout
    cases htimeout
    exact ⟨_, _, rfl, by simp [gaveUp, huse]⟩

theorem history_votesInOrder (variant : Variant) (i : ID) (calls : Calls Sig) :
    VotesInOrder M (history M variant i calls) :=
  history_keeps ⟨fun _ _ hstep h => h.step hstep, fun _ _ h => ⟨h.newer, h.lastVote⟩⟩
    (commit_along fun _ _ hcommits h => h.commits hcommits) (.init i) variant calls

variable (M)

/-- After every sequence of calls, a replica has voted in strictly rising views, at most once per
view and for no view given up before. `OnLocalTimeout` stops voting in a view exactly when its last
signature gives the view up. -/
theorem single_vote_per_view (variant : Variant) (i : ID) (calls : Calls Sig) :
    (voteViews (history M variant i calls).trace).Pairwise (· < ·) ∧
    (∀ view, (voteViews (history M variant i calls).trace).count view ≤ 1) ∧
    Throughout
      (fun past entry => ∀ block, entry = .signed (.vote block) →
        ∀ earlier ∈ past, ∀ v, gaveUp M earlier = some v → v < block.view)
      (history M variant i calls).trace ∧
    (∀ (t timeout : TimeoutMsg Sig) (r r' : Replica Sig),
      (signTimeout M t).exec r = (.ok (some timeout), r') →
      ∃ past entry, r'.trace = past ++ [entry] ∧ gaveUp M entry = some timeout.view) := by
  have horder : VotesInOrder M (history M variant i calls) :=
    history_votesInOrder variant i calls
  have hpairwise := horder.pairwise
  refine ⟨hpairwise, ?_, ?_, ?_⟩
  · have hnodup : (voteViews (history M variant i calls).trace).Nodup := by
      refine hpairwise.imp ?_
      intro v w hlt heq
      exact UInt64.lt_irrefl _ (heq ▸ hlt)
    exact fun view => List.nodup_iff_count_le_one.mp hnodup view
  · refine horder.newer.mono ?_
    intro past entry hnewer block hentry earlier hearlier v hv
    exact hnewer block.view (by rw [hentry]; rfl) earlier hearlier v (.inr hv)
  · intro t timeout r r' hexec
    exact Program.wp_of_exec_ok hexec (signTimeout_gaveUp t r) timeout rfl

end NimbleChain.HotStuff
