import NimbleChain.HotStuff.HandlerSteps

/-!
# The high certificates of the synchronizer

`updateHighQC` compares the view of the certified block with the view that the current high QC
claims, and then takes over a certificate with whatever view it claims. As long as these claims are
right, the high QC only rises. `AdvanceView` proposes with the certificate it was given, which need
not be the high QC.
-/

namespace NimbleChain.HotStuff

open Common Program List

variable {Sig : Type}

/-! ### The high QC along a run -/

/-- What one entry does to the high QC. -/
def raiseBy (high : QuorumCert Sig) : Entry Sig → QuorumCert Sig
  | .adopted qc block => if high.view < block.view then qc else high
  | _ => high

variable (S : Primitives Sig) (trace : List (Entry Sig))

/-- The high QC after the certificates that were adopted. -/
def highQCOf : QuorumCert Sig :=
  trace.foldl raiseBy { signature := none, view := 0, hash := (genesis : Block Sig).hash S }

/-- Every certificate that replaces the high QC claims the view of its block. -/
def RaisedViewsMatch : Prop :=
  Throughout (fun past entry => ∀ qc block, entry = .adopted qc block →
    (highQCOf S past).view < block.view → qc.view = block.view) trace

/-- The high QC is the one that the trace leads to and, if the views match, certifies a stored block
of its view. -/
structure HighCertified (M : Modules Sig) (r : Replica Sig) : Prop where
  high : r.highQC = highQCOf M.S r.trace
  certified : RaisedViewsMatch M.S r.trace →
    ∃ block ∈ r.chain.blocks, block.hash M.S = r.highQC.hash ∧ block.view = r.highQC.view

/-- The high certificates did not fall from one state to the other. -/
structure NotLower (S : Primitives Sig) (r r' : Replica Sig) : Prop where
  trace : r.trace <+: r'.trace
  highQC : RaisedViewsMatch S r'.trace → r.highQC.view ≤ r'.highQC.view
  highTC : r.highTC.view ≤ r'.highTC.view

/-- No two stored blocks with the same hash have different bytes. -/
def NoCollision (chain : BlockChain Sig) : Prop :=
  ∀ b ∈ chain.blocks, ∀ b' ∈ chain.blocks, b.hash S = b'.hash S → b.toBytes S = b'.toBytes S

variable {r r' : Replica Sig} {S : Primitives Sig} {new : List (Entry Sig)} {qc : QuorumCert Sig}

/-- Without collisions the block found by a hash has the view of every stored block with it. -/
theorem view_of_localGet {chain : BlockChain Sig} {hash : Hash} {view : View}
    (hfree : NoCollision S chain)
    (h : ∃ block ∈ chain.blocks, block.hash S = hash ∧ block.view = view) (block : Block Sig)
    (hblock : chain.localGet S hash = some block) : block.view = view := by
  obtain ⟨block', hmem', hhash', rfl⟩ := h
  obtain ⟨hmem, hhash⟩ := mem_of_localGet hblock
  exact Block.view_eq_of_toBytes_eq S (hfree block hmem block' hmem' (hhash.trans hhash'.symm))

/-- What relates the states before and after any part of a handler. -/
def Raises (M : Modules Sig) (r r' : Replica Sig) : Prop :=
  HighCertified M r → HighCertified M r' ∧ NotLower M.S r r'

variable {M : Modules Sig}

instance : Std.Refl (Raises M) :=
  ⟨fun _ h => ⟨h, prefix_rfl, fun _ => UInt64.le_refl _, UInt64.le_refl _⟩⟩

instance : IsTrans (Replica Sig) (Raises M) := by
  refine ⟨fun r r' r'' h h' hr => ?_⟩
  obtain ⟨hr', hle⟩ := h hr
  obtain ⟨hr'', hle'⟩ := h' hr'
  refine ⟨hr'', hle.trace.trans hle'.trace, fun hmatch => ?_,
    UInt64.le_trans hle.highTC hle'.highTC⟩
  exact UInt64.le_trans (hle.highQC (hmatch.restrict hle'.trace)) (hle'.highQC hmatch)

theorem highQCOf_append_idle {trace : List (Entry Sig)}
    (hidle : ∀ entry ∈ new, ∀ qc block, entry ≠ .adopted qc block) :
    highQCOf S (trace ++ new) = highQCOf S trace := by
  rw [highQCOf, foldl_append, ← highQCOf]
  induction new with
  | nil => rfl
  | cons entry rest ih =>
    have hentry : raiseBy (highQCOf S trace) entry = highQCOf S trace := by
      cases entry with
      | adopted qc block => exact absurd rfl (hidle _ (by simp) qc block)
      | _ => rfl
    rw [foldl_cons, hentry]
    exact ih fun e he => hidle e (mem_cons_of_mem _ he)

/-- A part of a handler that adopts nothing. -/
theorem raises_of_idle (htrace : r'.trace = r.trace ++ new)
    (hidle : ∀ entry ∈ new, ∀ qc block, entry ≠ .adopted qc block)
    (hblocks : r.chain.blocks <:+ r'.chain.blocks) (hhigh : r'.highQC = r.highQC)
    (htc : r.highTC.view ≤ r'.highTC.view) : Raises M r r' := by
  intro h
  have hprefixed : r.trace <+: r'.trace := htrace ▸ prefix_append _ _
  refine ⟨⟨?_, fun hmatch => ?_⟩, hprefixed, fun _ => hhigh ▸ UInt64.le_refl _, htc⟩
  · rw [hhigh, htrace, highQCOf_append_idle hidle]
    exact h.high
  · obtain ⟨block, hmem, hblock⟩ := h.certified (hmatch.restrict hprefixed)
    exact ⟨block, hblocks.subset hmem, hhigh ▸ hblock⟩

theorem Commits.raises (h : Commits r r') : Raises M r r' := by
  obtain ⟨new, hnew, hsilent⟩ := h.trace
  refine raises_of_idle hnew ?_ h.blocks ?_ ?_
  · intro entry hentry qc block heq
    have hsilent := hsilent entry hentry
    rw [heq] at hsilent
    exact hsilent
  · rw [h.rest]
  · rw [h.rest]
    exact UInt64.le_refl _

/-- Adopting a certificate for a stored block. -/
theorem adopt_raises {block : Block Sig} (hmem : block ∈ r.chain.blocks)
    (hhash : block.hash M.S = qc.hash) : Raises M r (r.adopt qc block) := by
  intro h
  have hprefixed : r.trace <+: (r.adopt qc block).trace := prefix_append _ _
  have hhigh : (r.adopt qc block).highQC =
      if r.highQC.view < block.view then qc else r.highQC := rfl
  have hlast : RaisedViewsMatch M.S (r.adopt qc block).trace → r.highQC.view < block.view →
      qc.view = block.view := by
    intro hmatch hlt
    exact hmatch r.trace _ [] rfl qc block rfl (h.high ▸ hlt)
  refine ⟨⟨?_, fun hmatch => ?_⟩, hprefixed, fun hmatch => ?_, UInt64.le_refl _⟩
  · rw [hhigh, h.high, highQCOf, highQCOf, Replica.adopt, Replica.record, foldl_concat]
    rfl
  · rw [hhigh]
    split
    · rename_i hlt
      exact ⟨block, hmem, hhash, (hlast hmatch hlt).symm⟩
    · exact h.certified (hmatch.restrict hprefixed)
  · rw [hhigh]
    split
    · rename_i hlt
      rw [hlast hmatch hlt]
      exact UInt64.le_of_lt hlt
    · exact UInt64.le_refl _

theorem Step.raises (h : Step M r r') : Raises M r r' := by
  cases h with
  | ponder hponders => exact hponders.commits.raises
  | vote =>
    exact raises_of_idle rfl (by simp) (suffix_refl _) rfl (UInt64.le_refl _)
  | signView =>
    exact raises_of_idle rfl (by simp) (suffix_refl _) rfl (UInt64.le_refl _)
  | giveUp =>
    rw [Replica.stopVoting_eq]
    exact raises_of_idle rfl (by simp) (suffix_refl _) rfl (UInt64.le_refl _)
  | raise =>
    unfold Replica.updateHighTC
    split
    · rename_i hlt
      exact raises_of_idle (append_nil _).symm (by simp) (suffix_refl _) rfl (UInt64.le_of_lt hlt)
    · exact Std.Refl.refl r
  | adopt hmem hhash => exact adopt_raises hmem hhash
  | enter =>
    exact raises_of_idle rfl (by simp) (suffix_refl _) rfl (UInt64.le_refl _)

theorem covers_raises : Covers M (Raises M) where
  step _ _ hstep := hstep.raises
  timeouts _ _ := raises_of_idle (append_nil _).symm (by simp) (suffix_refl _) rfl
    (UInt64.le_refl _)

theorem init_highCertified (i : ID) : HighCertified M (Replica.init M.S i) :=
  ⟨rfl, fun _ => ⟨genesis, mem_singleton_self _, rfl, rfl⟩⟩

variable (variant : Variant)

theorem history_raises (i : ID) (calls more : Calls Sig) :
    Raises M (history M variant i calls) (history M variant i (calls ++ more)) :=
  history_along covers_raises
    (commit_along fun _ _ hcommits => hcommits.raises) variant i calls more

theorem history_highCertified (i : ID) (calls : Calls Sig) :
    HighCertified M (history M variant i calls) :=
  (history_raises variant i [] calls (init_highCertified i)).1

/-! ### The leaf of the next proposal -/

variable (M) (syncInfo : SyncInfo Sig)

/-- `AdvanceView` up to the proposal: the new view and the sync info to propose with. -/
def changeView : Handler Sig (Option (View × SyncInfo Sig)) := do
  match ← advanceTC M syncInfo with
  | none => pure none
  | some v =>
    match ← advanceQC M syncInfo v with
    | none => pure none
    | some (v, syncInfo) =>
      if v < (← get).currentView then pure none
      else
        modify (·.enter (v + 1))
        pure (some (v + 1, syncInfo))

/-- `AdvanceView` changes the view and then proposes, if the replica leads the new view. -/
theorem advanceViewWith_eq (propose : SyncInfo Sig → Handler Sig Unit) (syncInfo : SyncInfo Sig) :
    advanceViewWith M propose syncInfo = (do
      match ← changeView M syncInfo with
      | none => pure ()
      | some (newView, syncInfo) =>
        let r ← get
        if r.env.leader newView = r.id then propose syncInfo else pure ()) := by
  unfold advanceViewWith changeView
  simp only [bind_assoc]
  congr 1
  funext result
  cases result with
  | none => simp
  | some v =>
    simp only [bind_assoc]
    congr 1
    funext result
    rcases result with _ | ⟨v, syncInfo⟩
    · simp
    · simp only [bind_assoc]
      congr 1
      funext r
      split <;> simp

/-- The hash of the block that a proposal with the sync info is put on. -/
def leafHash : Hash :=
  (syncInfo.qc.getD QuorumCert.zero).hash

/-- The certificate on offer is for the block of the high QC, or for a newer block than the high QC
claims. -/
def OffersHighest (r : Replica Sig) (chain : BlockChain Sig) (syncInfo : SyncInfo Sig) : Prop :=
  match offered M syncInfo with
  | none => r.highQC.hash = Hash.zero
  | some qc => qc.hash = r.highQC.hash ∨
      ∃ block, chain.localGet M.S qc.hash = some block ∧ r.highQC.view < block.view

variable {M} (syncInfo : SyncInfo Sig)

theorem AdvancedTC.highQC {result : Option View} (h : AdvancedTC M syncInfo r result r') :
    r'.highQC = r.highQC := by
  cases h with
  | absent => rfl
  | rejected _ hlooks => rw [hlooks.rest]
  | raised hlooks =>
    unfold Replica.updateHighTC
    split <;> rw [hlooks.rest]

/-- The proposal of the new view is on the block of the high QC exactly if the certificate on offer
is for that block or a newer one. -/
theorem changeView_leaf (r : Replica Sig) :
    (changeView M syncInfo).wp
      (fun result r' => ∀ newView syncInfo', result = some (newView, syncInfo') →
        (leafHash syncInfo' = r'.highQC.hash ↔ OffersHighest M r r'.chain syncInfo))
      (fun _ _ => True) r := by
  unfold changeView
  refine wp_then (advanceTC_spec syncInfo r) ?_
  rintro (_ | v) r1 htc
  · simp
  have hsame := htc.highQC
  refine wp_then (advanceQC_spec syncInfo v r1) ?_
  rintro (_ | ⟨v', syncInfo'⟩) r2 hqc
  · simp
  simp only [wp_bind, wp_get]
  split
  · simp
  intro newView syncInfo'' heq
  obtain ⟨-, rfl⟩ := Prod.mk.inj (Option.some.inj heq)
  rw [leafHash, OffersHighest]
  change _ = r2.highQC.hash ↔ _
  cases hqc with
  | absent hoffer hnone =>
    rw [hoffer, hnone, hsame]
    exact eq_comm
  | @adopted r3 qc block _ _ hlooks _ hblock _ hoffer hqc =>
    have hhigh : r3.highQC = r.highQC := by rw [hlooks.rest, ← hsame]
    rw [hoffer, hqc]
    change qc.hash = (if r3.highQC.view < block.view then qc else r3.highQC).hash ↔
      qc.hash = r.highQC.hash ∨
        ∃ block, r3.chain.localGet M.S qc.hash = some block ∧ r.highQC.view < block.view
    rw [hhigh, hblock]
    split
    · rename_i hlt
      simp [hlt]
    · rename_i hge
      simp [hge]

variable (M)

/-- The high certificates under every sequence of calls. The high TC never falls. If every
certificate that replaces the high QC claims the view of its block, the high QC never falls and
certifies a stored block of its view; a single one that does not ends this. A new view opens with a
proposal on the block of the high QC exactly if the certificate on offer is for that block or a
newer one; the first proposal always is. -/
theorem high_certificates_rise (i : ID)
    (calls more : Calls Sig) :
    (history M variant i calls).highTC.view ≤ (history M variant i (calls ++ more)).highTC.view ∧
    (RaisedViewsMatch M.S (history M variant i (calls ++ more)).trace →
      (history M variant i calls).highQC.view ≤
          (history M variant i (calls ++ more)).highQC.view ∧
        (∃ block ∈ (history M variant i calls).chain.blocks,
          block.hash M.S = (history M variant i calls).highQC.hash ∧
          block.view = (history M variant i calls).highQC.view) ∧
        (NoCollision M.S (history M variant i calls).chain →
          ∀ block, (history M variant i calls).chain.localGet M.S
              (history M variant i calls).highQC.hash = some block →
            block.view = (history M variant i calls).highQC.view)) ∧
    (∀ (r : Replica Sig) (qc : QuorumCert Sig) (block : Block Sig),
      r.highQC.view < block.view → ((r.adopt qc block).highQC.view = block.view ↔
        qc.view = block.view)) ∧
    (∀ (r r' : Replica Sig) (syncInfo syncInfo' : SyncInfo Sig) (newView : View),
      (changeView M syncInfo).exec r = (.ok (some (newView, syncInfo')), r') →
      (leafHash syncInfo' = r'.highQC.hash ↔ OffersHighest M r r'.chain syncInfo)) ∧
    (∀ r : Replica Sig, leafHash r.syncInfo = r.highQC.hash) := by
  have hcertified : HighCertified M (history M variant i calls) :=
    history_highCertified variant i calls
  have hle := (history_raises variant i calls more hcertified).2
  refine ⟨hle.highTC, fun hmatch => ?_, ?_, ?_, fun r => rfl⟩
  · have hblock := hcertified.certified (hmatch.restrict hle.trace)
    exact ⟨hle.highQC hmatch, hblock, fun hfree => view_of_localGet hfree hblock⟩
  · intro r qc block hlt
    simp [Replica.adopt, hlt]
  · intro r r' syncInfo syncInfo' newView hexec
    exact wp_of_exec_ok hexec (changeView_leaf syncInfo r) newView syncInfo' rfl

section Samples

open Ecdsa

/-- All certificates that were adopted claim the views of their blocks. -/
def adoptedViewsMatch (trace : List (Entry Multi)) : Bool :=
  trace.all fun entry =>
    match entry with
    | .adopted qc block => qc.view = block.view
    | _ => true

theorem raisedViewsMatch_of_check {S : Primitives Multi} {trace : List (Entry Multi)}
    (h : adoptedViewsMatch trace = true) : RaisedViewsMatch S trace := by
  intro past entry future heq qc block hentry _
  have hmem : entry ∈ trace := by simp [heq]
  have hview := all_eq_true.mp h entry hmem
  rw [hentry] at hview
  exact of_decide_eq_true hview

/-- Replica 1 is sent a certificate. -/
def newViewCall (qc : QuorumCert Multi) : Env Multi × Call Multi :=
  ({}, .event (.newView { qc := some qc }))

/-- Replica 1 has received `trunk1` and a block of view 7. -/
def twoBlocks : Calls Multi :=
  [proposeCall trunk1 [], proposeCall (blockOn genesis genesisCert 2 7) []]

/-- Certificates that claim view 5 for the block of view 1, view 0 for that of view 7, and the right
view for that of view 1. -/
def lyingViews : Calls Multi :=
  [newViewCall { certFor trunk1 with view := 5 },
    newViewCall { certFor (blockOn genesis genesisCert 2 7) with view := 0 },
    newViewCall (certFor trunk1)]

/-- The views of the high QC and of its block after some calls. -/
def highViews (calls : Calls Multi) : View × Option View :=
  ((sampleHistory calls).highQC.view,
    ((sampleHistory calls).chain.localGet tagPrimitives
      (sampleHistory calls).highQC.hash).map Block.view)

/-- A timeout certificate of replicas 1, 2 and 4. -/
def timeoutCertOf (view : View) : TimeoutCert Multi where
  signature := some ⟨[1, 2, 4].map fun id =>
    ⟨id.toNat, hashValue (tagHash (viewToBytes view)), id⟩, by simp⟩
  view := view

/-- With wrong claims, the view of the high QC differs from that of its block and falls, and so does
the view of its block. And a view opened with a timeout certificate alone gets a proposal on the
zero hash, although the high QC is for `trunk1`. -/
theorem high_certificates_fall :
    highViews (twoBlocks ++ lyingViews.take 1) = (5, some 1) ∧
    highViews (twoBlocks ++ lyingViews.take 2) = (0, some 7) ∧
    highViews (twoBlocks ++ lyingViews) = (1, some 1) ∧
    (((changeView (tagModules false) { tc := some (timeoutCertOf 9) }).exec
        (sampleHistory (twoBlocks ++ [newViewCall (certFor trunk1)]))).1.toOption.map
      fun result => result.map fun next => (next.1, leafHash next.2)) =
        some (some (10, Hash.zero)) ∧
    (sampleHistory (twoBlocks ++ [newViewCall (certFor trunk1)])).highQC.hash =
      trunk1.hash tagPrimitives ∧
    trunk1.hash tagPrimitives ≠ Hash.zero := by
  decide +kernel

/-- With certificates that claim the right views the high QC rises with its block. -/
theorem high_certificates_rise_trunk :
    (sampleHistory twoBlocks).highQC.view ≤
      (sampleHistory (twoBlocks ++ [newViewCall (certFor trunk1)])).highQC.view ∧
    (sampleHistory (twoBlocks ++ [newViewCall (certFor trunk1)])).highQC.view = 1 := by
  have hmatch : RaisedViewsMatch tagPrimitives
      (sampleHistory (twoBlocks ++ [newViewCall (certFor trunk1)])).trace :=
    raisedViewsMatch_of_check (by decide +kernel)
  exact ⟨((high_certificates_rise (tagModules false) .chained 1 twoBlocks
    [newViewCall (certFor trunk1)]).2.1 hmatch).1, by decide +kernel⟩

end Samples

end NimbleChain.HotStuff
