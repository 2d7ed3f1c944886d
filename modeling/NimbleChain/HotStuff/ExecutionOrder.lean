import NimbleChain.HotStuff.HandlerSteps

/-!
# The order in which a replica executes blocks

`commit` executes the ancestors of a block that are newer than the last executed block, but does
not check that they descend from it. The executed blocks are a path of the block tree as long as
each committed block extends the last executed one.
-/

namespace NimbleChain.HotStuff

open Common Program List Replica

variable {Sig : Type} (M : Modules Sig)

/-! ### Commits -/

variable (r : Replica Sig) (block : Block Sig) (blocks : List (Block Sig)) (S : Primitives Sig)

/-- A commit of the block finds an ancestor missing, has nothing to execute, or executes blocks of
rising views on the last executed block. -/
def connected : Bool :=
  match ((branch M r.bExec (walkBound r) block).exec r).1 with
  | .ok (some (ancestor :: newer)) =>
    newer.isEmpty || (ancestor.hash M.S = r.bExec.hash M.S &&
      decide (newer.IsChain fun b b' => b.view < b'.view))
  | _ => true

/-- The second block is a child of the first one in a later view. -/
def Follows (b b' : Block Sig) : Prop :=
  b'.parent = b.hash S ∧ b.view < b'.view

/-- Each executed block follows the one executed before it, the first one the genesis block. -/
def Ordered (r : Replica Sig) : Prop :=
  (genesis :: r.executed).IsChain (Follows S)

/-- `bExec` is the last executed block, or the genesis block. -/
def LastExecuted : Prop :=
  (genesis :: r.executed).getLast? = some r.bExec

variable {r r' : Replica Sig} {S : Primitives Sig}

/-- Along parents, following means larger views. -/
theorem isChain_follows {blocks : List (Block Sig)}
    (hlinked : blocks.IsChain fun b b' => b'.parent = b.hash S)
    (hviews : blocks.IsChain fun b b' => b.view < b'.view) : blocks.IsChain (Follows S) := by
  induction blocks with
  | nil => exact .nil
  | cons b blocks ih =>
    rw [isChain_cons] at *
    exact ⟨fun b' hb' => ⟨hlinked.1 b' hb', hviews.1 b' hb'⟩, ih hlinked.2 hviews.2⟩

/-- No block is executed twice. -/
theorem Ordered.nodup (h : Ordered S r) : r.executed.Nodup := by
  have hviews : (genesis :: r.executed).IsChain fun b b' => b.view < b'.view :=
    h.imp fun _ _ hfollows => hfollows.2
  have hpairwise := (isChain_iff_pairwise.mp hviews).of_cons
  refine hpairwise.imp ?_
  intro b b' hlt heq
  exact UInt64.lt_irrefl _ (heq ▸ hlt)

theorem LastExecuted.execAll (h : LastExecuted r) (blocks : List (Block Sig)) :
    LastExecuted (r.execAll blocks) := by
  induction blocks generalizing r with
  | nil => exact h
  | cons b blocks ih =>
    have hexec : LastExecuted (r.exec b) := getLast?_concat (l := genesis :: r.executed)
    exact ih hexec

theorem LooksUp.executed (h : LooksUp r r') : r'.executed = r.executed := by
  rw [h.rest]

theorem LooksUp.bExec (h : LooksUp r r') : r'.bExec = r.bExec := by
  rw [h.rest]

/-- A commit keeps the order exactly if it is connected. -/
theorem commit_ordered_iff {block : Block Sig} (hlast : LastExecuted r) (hordered : Ordered M.S r) :
    Ordered M.S ((commit M block).exec r).2 ↔ connected M r block = true := by
  obtain ⟨r1, chain, hlooks, heq, hcase⟩ := commit_exec M block r
  have hexecuted : ((commit M block).exec r).2.executed = r.executed ++ chain.tail := by
    rw [heq, execAll_eq, hlooks.executed]
  rw [Ordered, hexecuted, ← cons_append]
  rcases hcase with ⟨hnil, hnone⟩ | ⟨hbranch, -, hwalk⟩
  · have hconnected : connected M r block = true := by
      unfold connected
      split
      · exact absurd ‹_› (hnone _)
      · rfl
    rw [hnil, tail_nil, append_nil]
    exact ⟨fun _ => hconnected, fun _ => hordered⟩
  obtain ⟨ancestor, newer, rfl⟩ : ∃ a newer, chain = a :: newer := by
    cases chain with
    | nil => exact absurd hbranch.last (by simp)
    | cons a newer => exact ⟨a, newer, rfl⟩
  rw [connected, hwalk, tail_cons, isChain_append]
  simp only [Bool.or_eq_true, Bool.and_eq_true, decide_eq_true_eq, List.isEmpty_iff]
  cases newer with
  | nil => exact ⟨fun _ => .inl rfl, fun _ => ⟨hordered, .nil, by simp⟩⟩
  | cons b newer =>
    obtain ⟨hparent, hlinked⟩ := isChain_cons_cons.mp hbranch.linked
    have hnew : r.bExec.view < b.view := hbranch.newer b (by simp)
    have hlink : (∀ x ∈ (genesis :: r.executed).getLast?, ∀ y ∈ (b :: newer).head?,
        Follows M.S x y) ↔ ancestor.hash M.S = r.bExec.hash M.S := by
      rw [hlast, ← hparent]
      simp [Follows, hnew]
    rw [hlink]
    constructor
    · rintro ⟨-, hchain, hhash⟩
      exact .inr ⟨hhash, hchain.imp fun _ _ hfollows => hfollows.2⟩
    · rintro (hnil | ⟨hhash, hviews⟩)
      · cases hnil
      · exact ⟨hordered, isChain_follows hlinked hviews, hhash⟩

/-! ### Handlers -/

/-- Nothing was executed between two states. -/
def SameExecution (r r' : Replica Sig) : Prop :=
  r'.executed = r.executed ∧ r'.bExec = r.bExec

variable {M}

theorem LooksUp.sameExecution (h : LooksUp r r') : SameExecution r r' :=
  ⟨h.executed, h.bExec⟩

theorem Ponders.sameExecution (h : Ponders r r') : SameExecution r r' := by
  rw [h.rest]
  exact ⟨rfl, rfl⟩

/-- No step executes anything. -/
theorem Step.sameExecution (h : Step M r r') : SameExecution r r' := by
  cases h with
  | ponder h => exact h.sameExecution
  | giveUp =>
    rw [stopVoting_eq]
    exact ⟨rfl, rfl⟩
  | raise =>
    unfold updateHighTC
    split <;> exact ⟨rfl, rfl⟩
  | _ => exact ⟨rfl, rfl⟩

/-! ### Histories of calls -/

variable (M)

/-- Stop if a commit of the block would not be connected. -/
def demandConnected : Handler Sig Unit := do
  if connected M (← get) block then pure () else throw .diverges

variable (rules : Rules Sig)

/-- Rules that only return a block for a connected commit. -/
def monitored : Rules Sig where
  voteRule := rules.voteRule
  commitRule block := do
    match ← rules.commitRule block with
    | none => pure none
    | some b =>
      demandConnected M b
      pure (some b)

/-- A call that is stopped before a commit that is not connected. -/
def performMonitored : Call Sig → Handler Sig Unit
  | .event event => handle M (monitored M rules) event
  | .commit block => do
    demandConnected M block
    commit M block

/-- All commits that the call makes in this state are connected: stopped before one that is not, it
executes the same blocks. -/
def Orderly (r : Replica Sig) (call : Env Sig × Call Sig) : Prop :=
  SameExecution (r.after (performMonitored M rules call.2) call.1)
    (r.after (perform M rules call.2) call.1)

variable {M} (variant : Variant)

section Keeps

variable {r r' : Replica Sig}

theorem LastExecuted.of_sameExecution (h : LastExecuted r) (hsame : SameExecution r r') :
    LastExecuted r' := by
  unfold LastExecuted
  rw [hsame.1, hsame.2]
  exact h

/-- Every commit leaves `bExec` at the last executed block. -/
theorem commit_lastExecuted : (commit M block).Along (Keeps LastExecuted) := by
  intro r
  refine always_iff.mpr fun hlast => ?_
  obtain ⟨r1, chain, hlooks, heq, -⟩ := commit_exec M block r
  rw [heq]
  exact (hlast.of_sameExecution hlooks.sameExecution).execAll _

/-- The invariant of a replica whose commits are connected. -/
def ExecutesInOrder (S : Primitives Sig) (r : Replica Sig) : Prop :=
  LastExecuted r ∧ Ordered S r

/-- A commit that was found connected keeps the order. -/
theorem commit_executesInOrder {block : Block Sig} (hconnected : connected M r block = true) :
    (commit M block).Always (Keeps (ExecutesInOrder M.S) r) r := by
  refine always_iff.mpr fun hinv => ⟨?_, ?_⟩
  · exact always_iff.mp (commit_lastExecuted block r) hinv.1
  · exact (commit_ordered_iff M hinv.1 hinv.2).mpr hconnected

theorem Variant.monitored_respects :
    Respects M (Keeps (ExecutesInOrder M.S)) (monitored M (variant.rules M)) where
  voteRule := variant.voteRule_along
  commitRule block r := by
    refine wp_then (variant.commitRule_along block r) ?_
    rintro (_ | b) r1 hsame
    · exact ⟨hsame, by simp⟩
    · simp only [demandConnected, wp_bind, wp_get, wp_ite, wp_pure, wp_throw]
      refine ⟨fun hconnected => ⟨hsame, ?_⟩, fun _ => hsame⟩
      rintro _ ⟨⟩
      exact commit_executesInOrder hconnected

theorem keeps_executesInOrder (hsame : SameExecution r r') : Keeps (ExecutesInOrder M.S) r r' :=
  fun hinv => ⟨hinv.1.of_sameExecution hsame, by rw [Ordered, hsame.1]; exact hinv.2⟩

theorem covers_executesInOrder : Covers M (Keeps (ExecutesInOrder M.S)) where
  step _ _ hstep := keeps_executesInOrder hstep.sameExecution
  timeouts _ _ := keeps_executesInOrder ⟨rfl, rfl⟩

theorem performMonitored_executesInOrder (call : Call Sig) :
    (performMonitored M (variant.rules M) call).Along (Keeps (ExecutesInOrder M.S)) := by
  cases call with
  | event event => exact (covers_executesInOrder.spans variant.monitored_respects).handle event
  | commit block =>
    intro r
    simp only [performMonitored, demandConnected, Program.Always, wp_bind, wp_get,
      wp_ite, wp_pure, wp_throw]
    exact ⟨fun hconnected => commit_executesInOrder hconnected, fun _ => id⟩

end Keeps

theorem history_lastExecuted (i : ID) (calls : Calls Sig) :
    LastExecuted (history M variant i calls) :=
  history_keeps ⟨fun _ _ hstep hlast => hlast.of_sameExecution hstep.sameExecution,
    fun _ _ hlast => hlast.of_sameExecution ⟨rfl, rfl⟩⟩ commit_lastExecuted rfl variant calls

/-- A replica all of whose calls are orderly executes in order. -/
theorem history_executesInOrder (i : ID) (calls : Calls Sig)
    (horderly : ∀ earlier call, earlier ++ [call] <+: calls →
      Orderly M (variant.rules M) (history M variant i earlier) call) :
    ExecutesInOrder M.S (history M variant i calls) := by
  induction calls using reverseRecOn with
  | nil => exact ⟨rfl, .singleton _⟩
  | append_singleton calls call ih =>
    have hprev := ih fun earlier call' hle =>
      horderly earlier call' (hle.trans (prefix_append _ _))
    have hmonitored := (covers_executesInOrder.spans variant.monitored_respects).after
      (performMonitored_executesInOrder variant call.2) _ call.1 hprev
    rw [history_append]
    exact keeps_executesInOrder (horderly calls call (prefix_refl _)) hmonitored

/-- A walk of `commitInner` that does not reach executed blocks executes nothing. -/
theorem commitInner_unchanged (n : Nat) (block : Block Sig) (r : Replica Sig)
    (hfails : ((commitInner M n block).exec r).1 ≠ .ok true) :
    SameExecution r ((commitInner M n block).exec r).2 := by
  have hbranch := branch_spec M r.bExec n block r
  unfold wp at hbranch
  rw [commitInner_exec] at hfails ⊢
  cases hwalk : (branch M r.bExec n block).exec r with
  | mk result r1 =>
    rw [hwalk] at hbranch hfails
    cases result with
    | error e => exact LooksUp.sameExecution hbranch
    | ok result =>
      cases result with
      | none => exact hbranch.1.sameExecution
      | some chain => exact absurd rfl hfails

variable (M)

/-- The execution order under every sequence of calls. `bExec` is the last executed block, and a
failed `commitInner` executes nothing. If the commits are connected in the states before them, the
executed blocks are a path with rising views; a single commit that is not ends this. -/
theorem executed_path_of_connected (i : ID)
    (calls : Calls Sig) :
    LastExecuted (history M variant i calls) ∧
    (∀ n block r, ((commitInner M n block).exec r).1 ≠ .ok true →
      SameExecution r ((commitInner M n block).exec r).2) ∧
    ((∀ earlier call, earlier ++ [call] <+: calls →
        Orderly M (variant.rules M) (history M variant i earlier) call) →
      Ordered M.S (history M variant i calls) ∧
      (history M variant i calls).executed.Nodup ∧
      ∀ block, Ordered M.S ((commit M block).exec (history M variant i calls)).2 ↔
        connected M (history M variant i calls) block = true) := by
  refine ⟨history_lastExecuted variant i calls, commitInner_unchanged, ?_⟩
  intro horderly
  obtain ⟨hlast, hordered⟩ := history_executesInOrder variant i calls horderly
  exact ⟨hordered, hordered.nodup, fun block => commit_ordered_iff M hlast hordered⟩

section Samples

open Ecdsa

/-- A chain of four blocks. -/
def trunkCalls : Calls Multi :=
  [trunk1, trunk2, trunk3, trunk4].map (proposeCall · [])

/-- The chain of four blocks commits the first one. -/
theorem executed_path_of_connected_trunk :
    (sampleHistory trunkCalls).executed = [trunk1] ∧
      Ordered tagPrimitives (sampleHistory trunkCalls) := by
  have horderly : ∀ k : Fin trunkCalls.length, Orderly (tagModules false)
      (Variant.rules (tagModules false) .chained) (sampleHistory (trunkCalls.take k))
      (trunkCalls.get k) := by
    unfold Orderly SameExecution
    decide +kernel
  have hpath := (executed_path_of_connected (tagModules false) .chained 1 trunkCalls).2.2
  refine ⟨by decide +kernel, (hpath ?_).1⟩
  rintro earlier call ⟨rest, hsplit⟩
  have hcall := horderly ⟨earlier.length, by simp [← hsplit]⟩
  change Orderly _ _ (sampleHistory earlier) call
  simpa [← hsplit] using hcall

/-- The proposals in which `graft1` puts the certificate of `trunk3` on another parent. -/
def graftCalls : Calls Multi :=
  [trunk1, trunk2, trunk3, graft1, graft2, graft3].map (proposeCall · []) ++
    [proposeCall graft4 [sibling]]

/-- A block in view 5 on the genesis block. -/
def late : Block Multi := blockOn genesis genesisCert 1 5

/-- A block in view 3 whose parent is in view 5. -/
def back : Block Multi := blockOn late genesisCert 2 3

/-- The first of two certified blocks on `back`, in a view above that of `late`. -/
def back1 : Block Multi := blockOn back (certFor back) 3 6

/-- The second of them. -/
def back2 : Block Multi := blockAfter back1 4

/-- A second child of `late`. -/
def again : Block Multi := blockOn late (certFor back2) 6 9

/-- The first of two certified blocks on `again`. -/
def again1 : Block Multi := blockAfter again 7

/-- The second of them. -/
def again2 : Block Multi := blockAfter again1 8

/-- The proposals that commit `back` and then `again`. -/
def againCalls : Calls Multi :=
  [late, back, back1, back2, blockAfter back2 5, again, again1, again2, blockAfter again2 9].map
    (proposeCall · [])

/-- Accepted proposals make a replica execute `graft1`, whose parent is `sibling`, after `trunk1`,
or a block twice and a child in an earlier view than its parent. -/
theorem executed_not_path :
    (sampleHistory graftCalls).executed = [trunk1, graft1] ∧
    graft1.parent = sibling.hash tagPrimitives ∧
    graft1.parent ≠ trunk1.hash tagPrimitives ∧
    (sampleHistory againCalls).executed = [late, back, late, again] ∧
    back.view < late.view := by
  decide +kernel

end Samples

end NimbleChain.HotStuff
