import NimbleChain.HotStuff.HandlerSteps

/-!
# View changes and the evidence for them

`AdvanceView` leaves a view on a timeout certificate, an aggregate QC or a quorum certificate. The
first two are signed over the view. A quorum certificate is signed over its block only, and the
synchronizer goes by the view that it claims. If the claims are right, each view is left on the
signatures of a quorum about that very view.
-/

namespace NimbleChain.HotStuff

open Common List UInt64 Entry

variable {Sig : Type} (trace : List (Entry Sig))

/-! ### The views of one replica -/

/-- The view that an entry moves the replica to. -/
def enteredView : Entry Sig → Option View
  | .entered view => some view
  | _ => none

/-- The views that the synchronizer moved on to, in order. -/
def enteredViews : List View :=
  trace.filterMap enteredView

/-- The current view after a trace; replicas start in view 1. -/
def viewAfter : View :=
  (enteredViews trace).getLastD 1

/-- The view that a signature is about. -/
def Signed.about : Signed Sig → View
  | .vote block => block.view
  | .view v => v
  | .timeout t => t.view

/-- The view after which there is none. -/
def lastView : View :=
  0xFFFFFFFFFFFFFFFF

variable (M : Modules Sig)

/-- What is behind the entries of a replica's trace: it moves on from a view that is not before its
current one, on evidence, and signs timeouts for its current view. -/
structure Justified (past : List (Entry Sig)) (entry : Entry Sig) : Prop where
  entered : ∀ w, entry = .entered w → ∃ v, w = v + 1 ∧ viewAfter past ≤ v ∧ Evidence M past v
  signed : ∀ what, entry = .signed what → (∀ block, what ≠ .vote block) →
    what.about = viewAfter past

/-- What a replica knows about its views at all times. -/
structure ViewHistory (r : Replica Sig) : Prop where
  current : r.currentView = viewAfter r.trace
  justified : Throughout (Justified M) r.trace

/-- A quorum of replicas signed about the view: in a timeout certificate, in an aggregate of their
timeout messages, or as votes for a block of the view. -/
inductive Attested (trace : List (Entry Sig)) (v : View) : Prop where
  | timeoutCert (sig : Sig) (size : M.quorum ≤ (M.S.participants sig).card)
      (verified : verified sig (viewToBytes v) ∈ trace)
  | aggregate (aggQC : AggregateQC Sig) (sig : Sig) (view : aggQC.view = v)
      (size : M.quorum ≤ (M.S.participants sig).card)
      (verified : batchVerified sig (aggQC.messages M.S) ∈ trace)
  | quorumCert (qc : QuorumCert Sig) (block : Block Sig) (sig : Sig) (view : block.view = v)
      (size : M.quorum ≤ (M.S.participants sig).card)
      (adopted : adopted qc block ∈ trace)
      (verified : verified sig (block.toBytes M.S) ∈ trace)

/-- The certificates that a replica went by: those that claim its current view or a later one claim
the view of their block, only the genesis block has its hash, and none is for the last view. -/
structure SoundViews (trace : List (Entry Sig)) : Prop where
  claims : Throughout (fun past entry => ∀ qc block, entry = .adopted qc block →
    viewAfter past ≤ qc.view → qc.view = block.view) trace
  genesis : ∀ qc block, adopted qc block ∈ trace →
    block.hash M.S = (genesis : Block Sig).hash M.S → block.view = 0
  notLast : ¬ Evidence M trace lastView

/-- The replica only votes in views that it has reached. -/
def VotesWithinView (trace : List (Entry Sig)) : Prop :=
  Throughout (fun past entry => ∀ block, entry = .signed (.vote block) →
    block.view ≤ viewAfter past) trace

variable {M} {r r' : Replica Sig} {trace past : List (Entry Sig)} {v view : View}

theorem viewAfter_append_idle {new : List (Entry Sig)}
    (hidle : ∀ entry ∈ new, enteredView entry = none) :
    viewAfter (trace ++ new) = viewAfter trace := by
  have hnone : new.filterMap enteredView = [] := filterMap_eq_nil_iff.mpr hidle
  rw [viewAfter, enteredViews, filterMap_append, hnone, append_nil]
  rfl

@[simp] theorem viewAfter_append_entered (trace : List (Entry Sig)) (view : View) :
    viewAfter (trace ++ [.entered view]) = view := by
  simp [viewAfter, enteredViews, enteredView]

/-- A replica is in the view in which it started or in one that it moved to. -/
theorem viewAfter_cases (trace : List (Entry Sig)) :
    viewAfter trace = 1 ∨ entered (viewAfter trace) ∈ trace := by
  induction trace using reverseRecOn with
  | nil => exact .inl rfl
  | append_singleton trace entry ih =>
    cases hentry : enteredView entry with
    | none =>
      rw [viewAfter_append_idle (by simpa using hentry)]
      exact ih.imp_right fun hmem => mem_append_left _ hmem
    | some view =>
      cases entry with
      | entered view => simp
      | _ => cases hentry

namespace ViewHistory

/-- Entries about neither views nor timeouts. -/
theorem append_idle (h : ViewHistory M r) {new : List (Entry Sig)}
    (htrace : r'.trace = r.trace ++ new) (hview : r'.currentView = r.currentView)
    (hidle : ∀ entry ∈ new, enteredView entry = none ∧
      ∀ what, entry = .signed what → ∃ block, what = .vote block) : ViewHistory M r' := by
  constructor
  · rw [hview, htrace, viewAfter_append_idle fun entry hentry => (hidle entry hentry).1]
    exact h.current
  · rw [htrace]
    refine h.justified.append fun past entry hentry _ => ?_
    obtain ⟨hentered, hsigned⟩ := hidle entry hentry
    constructor
    · intro w hw
      rw [hw] at hentered
      cases hentered
    · intro what hwhat hvote
      obtain ⟨block, hblock⟩ := hsigned what hwhat
      exact absurd hblock (hvote block)

theorem commits (h : ViewHistory M r) (hcommits : Commits r r') : ViewHistory M r' := by
  obtain ⟨new, hnew, hsilent⟩ := hcommits.trace
  refine h.append_idle hnew (by rw [hcommits.rest]) fun entry hentry => ?_
  have hentry := hsilent entry hentry
  cases entry with
  | signed => exact hentry.elim
  | entered => exact hentry.elim
  | _ => exact ⟨rfl, by simp⟩

/-- A signature about the current view. -/
theorem sign (h : ViewHistory M r) {what : Signed Sig}
    (htrace : r'.trace = r.trace ++ [.signed what]) (hview : r'.currentView = r.currentView)
    (habout : what.about = r.currentView) : ViewHistory M r' := by
  constructor
  · rw [hview, htrace, viewAfter_append_idle (by simp [enteredView])]
    exact h.current
  · rw [htrace]
    refine h.justified.append_singleton ⟨by simp, fun what' hwhat _ => ?_⟩
    obtain rfl := signed.inj hwhat
    exact habout.trans h.current

/-- Every step keeps the facts. -/
theorem step (h : ViewHistory M r) (hstep : Step M r r') : ViewHistory M r' := by
  cases hstep with
  | ponder hponders => exact h.commits hponders.commits
  | vote => exact h.append_idle rfl rfl (by simp [enteredView])
  | signView => exact h.sign rfl rfl rfl
  | @giveUp what t hgave =>
    rw [Replica.stopVoting_eq]
    suffices habout : what.about = r.currentView from h.sign rfl rfl habout
    cases what with
    | vote => cases hgave
    | view v =>
      simp only [gaveUp] at hgave
      split at hgave
      · cases hgave
      · exact Option.some.inj hgave
    | timeout t =>
      simp only [gaveUp] at hgave
      split at hgave
      · exact Option.some.inj hgave
      · cases hgave
  | raise =>
    unfold Replica.updateHighTC
    split
    · exact ⟨h.current, h.justified⟩
    · exact h
  | adopt => exact h.append_idle rfl rfl (by simp [enteredView])
  | @enter v hle hevidence =>
    constructor
    · exact (viewAfter_append_entered _ _).symm
    · refine h.justified.append_singleton ⟨fun w hw => ?_, by simp⟩
      obtain rfl := entered.inj hw
      exact ⟨v, rfl, h.current ▸ hle, hevidence⟩

theorem init (i : ID) : ViewHistory M (Replica.init M.S i) :=
  ⟨rfl, .nil⟩

/-- The facts hold of every replica in every run. -/
theorem of_run (variant : Variant) (deliveries : List (ID × Input Sig)) (i : ID) :
    ViewHistory M ((run M (variant.rules M) deliveries).states i) :=
  run_keeps ⟨fun _ _ hstep h => h.step hstep, fun _ _ h => ⟨h.current, h.justified⟩⟩
    (commit_along fun _ _ hcommits h => h.commits hcommits) init variant deliveries i

end ViewHistory

/-! ### Right claims -/

theorem toNat_succ_of_ne_lastView (h : v ≠ lastView) : (v + 1).toNat = v.toNat + 1 := by
  have hlt := v.toNat_lt
  have hne : v.toNat ≠ 18446744073709551615 := fun heq => h (UInt64.toNat_inj.mp heq)
  rw [UInt64.toNat_add]
  simp only [reduceToNat]
  omega

theorem lt_succ_of_le {u : View} (hle : u ≤ v) (h : v ≠ lastView) : u < v + 1 := by
  rw [lt_iff_toNat_lt, toNat_succ_of_ne_lastView h]
  exact Nat.lt_succ_of_le (le_iff_toNat_le.mp hle)

/-- Each view that was entered is later than the one before. -/
def RisingViews (trace : List (Entry Sig)) : Prop :=
  Throughout (fun past entry => ∀ w, entry = .entered w → viewAfter past < w) trace

theorem RisingViews.viewAfter_mono (h : RisingViews trace) (hpast : past <+: trace) :
    viewAfter past ≤ viewAfter trace := by
  induction trace using reverseRecOn with
  | nil => rw [prefix_nil.mp hpast]; exact UInt64.le_refl _
  | append_singleton trace entry ih =>
    rcases prefix_concat_iff.mp hpast with rfl | hpast
    · exact UInt64.le_refl _
    refine UInt64.le_trans (ih (h.restrict (prefix_append _ _)) hpast) ?_
    cases entry with
    | entered w =>
      rw [viewAfter_append_entered]
      exact UInt64.le_of_lt (h trace _ [] rfl w rfl)
    | _ =>
      rw [viewAfter_append_idle (by simp [enteredView])]
      exact UInt64.le_refl _

theorem eq_entered_of_enteredView {entry : Entry Sig} (h : enteredView entry = some view) :
    entry = .entered view := by
  cases entry with
  | entered view' => exact congrArg _ (Option.some.inj h)
  | _ => cases h

theorem RisingViews.le_viewAfter (h : RisingViews trace) (hview : view ∈ 1 :: enteredViews trace) :
    view ≤ viewAfter trace := by
  rcases mem_cons.mp hview with rfl | hmem
  · exact h.viewAfter_mono nil_prefix
  · obtain ⟨entry, hentry, hentered⟩ := mem_filterMap.mp hmem
    obtain rfl := eq_entered_of_enteredView hentered
    obtain ⟨past, future, rfl⟩ := append_of_mem hentry
    have hpast : past ++ [.entered view] <+: past ++ .entered view :: future := by simp
    have hle := h.viewAfter_mono hpast
    rwa [viewAfter_append_entered] at hle

/-- The views of a replica rise from the first on. -/
theorem RisingViews.pairwise (h : RisingViews trace) :
    (1 :: enteredViews trace).Pairwise (· < ·) := by
  induction trace using reverseRecOn with
  | nil => exact pairwise_singleton _ _
  | append_singleton trace entry ih =>
    have hprev := h.restrict (prefix_append _ _)
    rw [enteredViews, filterMap_append, ← enteredViews, ← cons_append]
    cases hentry : enteredView entry with
    | none => simpa [hentry] using ih hprev
    | some w =>
      have hlt := h trace entry [] rfl w (eq_entered_of_enteredView hentry)
      rw [filterMap_cons_some hentry, filterMap_nil]
      refine pairwise_append.mpr ⟨ih hprev, pairwise_singleton _ _, ?_⟩
      intro view hview view' hview'
      rw [mem_singleton.mp hview']
      exact UInt64.lt_of_le_of_lt (RisingViews.le_viewAfter hprev hview) hlt

theorem SoundViews.restrict (h : SoundViews M trace) (hpast : past <+: trace) :
    SoundViews M past where
  claims := h.claims.restrict hpast
  genesis qc block hmem := h.genesis qc block (hpast.subset hmem)
  notLast hevidence := h.notLast (hevidence.mono hpast.subset)

/-- Without evidence for the last view, the views rise. -/
theorem risingViews_of_justified (hjust : Throughout (Justified M) trace)
    (hlast : ¬ Evidence M trace lastView) : RisingViews trace := by
  intro past entry future htrace w hw
  obtain ⟨v, rfl, hle, hevidence⟩ := (hjust past entry future htrace).entered w hw
  refine lt_succ_of_le hle fun hv => hlast ?_
  rw [htrace]
  exact (hv ▸ hevidence).mono (subset_append_left _ _)

/-- With sound certificates, evidence about the current view or a later one is signed by a quorum
about this view. -/
theorem Evidence.attested (h : Evidence M trace v) (hjust : Throughout (Justified M) trace)
    (hsound : SoundViews M trace) (hle : viewAfter trace ≤ v) : Attested M trace v := by
  have hrising := risingViews_of_justified hjust hsound.notLast
  have hpos : v ≠ 0 := by
    rintro rfl
    have hone := UInt64.le_trans (hrising.le_viewAfter mem_cons_self) hle
    exact absurd hone (by decide)
  cases h with
  | zero hzero => exact absurd hzero hpos
  | timeoutCert sig hsize hverified => exact .timeoutCert sig hsize hverified
  | aggregate aggQC sig hview hsize hverified => exact .aggregate aggQC sig hview hsize hverified
  | quorumCert qc block hview hadopted hbacked =>
    -- the certificate was adopted in a view that is not later than the current one
    obtain ⟨past, hpast, hclaim⟩ := hsound.claims.exists_past hadopted
    have hmatch : qc.view = block.view := by
      refine hclaim qc block rfl ?_
      rw [hview]
      exact UInt64.le_trans (hrising.viewAfter_mono hpast) hle
    rw [hview] at hmatch
    rcases hbacked with hgenesis | ⟨sig, hsize, -, hverified⟩
    · exact absurd (hmatch.trans (hsound.genesis qc block hadopted hgenesis)) hpos
    · exact .quorumCert qc block sig hmatch.symm hsize hadopted hverified

/-- The views of a replica that goes by sound certificates. -/
structure AttestedViews (M : Modules Sig) (r : Replica Sig) : Prop where
  rising : (1 :: enteredViews r.trace).Pairwise (· < ·)
  current : r.currentView = (enteredViews r.trace).getLastD 1
  attested : Throughout (fun past entry => ∀ w, entry = .entered w →
    ∃ v, w = v + 1 ∧ viewAfter past ≤ v ∧ v < w ∧ Attested M past v) r.trace

theorem ViewHistory.attestedViews (h : ViewHistory M r) (hsound : SoundViews M r.trace) :
    AttestedViews M r where
  rising := (risingViews_of_justified h.justified hsound.notLast).pairwise
  current := h.current
  attested := by
    intro past entry future htrace w hw
    have hpast : past <+: r.trace := htrace ▸ prefix_append _ _
    obtain ⟨v, rfl, hle, hevidence⟩ := (h.justified past entry future htrace).entered w hw
    have hsound := hsound.restrict hpast
    refine ⟨v, rfl, hle, ?_, hevidence.attested (h.justified.restrict hpast) hsound hle⟩
    exact lt_succ_of_le (UInt64.le_refl v) fun hv => hsound.notLast (hv ▸ hevidence)

/-! ### Views of the network -/

section Network

variable (M) (faulty : Finset ID)

/-- A correct replica has been in the view. -/
def Visited (trace : List (ID × Entry Sig)) (v : View) : Prop :=
  v = 1 ∨ ∃ i, i ∉ faulty ∧ (i, entered v) ∈ trace

/-- Votes and timeout messages are told apart by their bytes. -/
structure BytesApart (trace : List (ID × Entry Sig)) : Prop where
  votes : ∀ i, i ∉ faulty → ∀ block, (i, signed (.vote block)) ∈ trace →
    ∀ j sig batch, (j, batchVerified sig batch) ∈ trace →
      (i, block.toBytes M.S) ∉ batch.entries
  timeouts : ∀ i, i ∉ faulty → ∀ t, (i, signed (.timeout t)) ∈ trace →
    ∀ j qc block, (j, adopted qc block) ∈ trace → t.toBytes M.S ≠ block.toBytes M.S

/-- A correct replica moves to a view only after a correct replica was in the one before it or in a
later one. -/
def Led (past : List (ID × Entry Sig)) (e : ID × Entry Sig) : Prop :=
  e.1 ∉ faulty → ∀ w, e.2 = .entered w →
    ∃ v u, w = v + 1 ∧ v < w ∧ 1 ≤ v ∧ v ≤ u ∧ Visited faulty past u

variable {M faulty} {past trace : List (ID × Entry Sig)} {v : View} {what : Signed Sig}
  {S : Primitives Sig} {i : ID}

theorem Visited.mono (h : Visited faulty past v) (hpast : past <+: trace) :
    Visited faulty trace v :=
  h.imp_right fun ⟨i, hi, hmem⟩ => ⟨i, hi, hpast.subset hmem⟩

theorem BytesApart.restrict (h : BytesApart M faulty trace) (hpast : past <+: trace) :
    BytesApart M faulty past where
  votes i hi block hmem j sig batch hmem' :=
    h.votes i hi block (hpast.subset hmem) j sig batch (hpast.subset hmem')
  timeouts i hi t hmem j qc block hmem' :=
    h.timeouts i hi t (hpast.subset hmem) j qc block (hpast.subset hmem')

theorem visited_viewAfter (trace : List (ID × Entry Sig)) (hi : i ∉ faulty) :
    Visited faulty trace (viewAfter (ownTrace i trace)) :=
  (viewAfter_cases _).imp_right fun hmem => ⟨i, hi, mem_ownTrace.mp hmem⟩

/-- The views of correct replicas leave no gap. The induction is on the trace: a new view comes
right after one that is visited because a later one is. -/
theorem visited_of_le (h : Throughout (Led faulty) trace) {u : View} (hv : Visited faulty trace v)
    (hpos : 1 ≤ u) (hle : u ≤ v) : Visited faulty trace u := by
  induction trace using reverseRecOn generalizing u v with
  | nil =>
    rcases hv with rfl | ⟨i, -, hmem⟩
    · exact .inl (UInt64.le_antisymm hle hpos)
    · cases hmem
  | append_singleton trace e ih =>
    have hprev := h.restrict (prefix_append _ _)
    have hgrow : ∀ v', Visited faulty trace v' → u ≤ v' → Visited faulty (trace ++ [e]) u :=
      fun v' hv' hle' => (ih hprev hv' hpos hle').mono (prefix_append _ _)
    rcases hv with rfl | ⟨i, hi, hmem⟩
    · exact hgrow 1 (.inl rfl) hle
    rcases mem_append.mp hmem with hold | hnew
    · exact hgrow v (.inr ⟨i, hi, hold⟩) hle
    · obtain rfl := mem_singleton.mp hnew
      by_cases heq : u = v
      · subst heq
        exact .inr ⟨i, hi, hmem⟩
      obtain ⟨v', u', hsucc, hlt, -, hle', hvisited⟩ := h trace _ [] rfl hi v rfl
      refine hgrow u' hvisited (UInt64.le_trans ?_ hle')
      have hnat := le_iff_toNat_le.mp hle
      have hne : u.toNat ≠ v.toNat := fun h => heq (UInt64.toNat_inj.mp h)
      rw [view_toNat_add hsucc (lt_iff_toNat_lt.mp hlt)] at hnat hne
      simp only [reduceToNat] at hnat hne
      exact le_iff_toNat_le.mpr (by omega)

/-- A correct replica moves to a view only after a correct replica was in the one before it. -/
theorem exists_visited_of_led (h : Throughout (Led faulty) trace) :
    Throughout (fun past e => e.1 ∉ faulty → ∀ w, e.2 = .entered w →
      ∃ v, w = v + 1 ∧ v < w ∧ Visited faulty past v) trace := by
  intro past e future htrace hi w hw
  have hpast : past <+: trace := htrace ▸ prefix_append _ _
  obtain ⟨v, u, hsucc, hlt, hpos, hle, hvisited⟩ := h past e future htrace hi w hw
  exact ⟨v, hsucc, hlt, visited_of_le (h.restrict hpast) hvisited hpos hle⟩

/-- A quorum has a correct member. -/
theorem exists_correct_of_quorum (hconfig : M.config.Nonempty)
    (hfew : faulty.card ≤ numFaulty M.config.card) {sig : Sig}
    (hsize : M.quorum ≤ (M.S.participants sig).card) : ∃ i ∈ M.S.participants sig, i ∉ faulty := by
  have hpos := hconfig.card_pos
  refine Finset.exists_mem_notMem_of_card_lt_card (lt_of_le_of_lt hfew (lt_of_lt_of_le ?_ hsize))
  unfold Modules.quorum quorumSize numFaulty
  omega

/-- The bytes that a correct replica signed tell the view that the signature is about. -/
theorem Signed.about_of_view (h : what.message S = viewToBytes v) : what.about = v := by
  have hlength := congrArg length h
  cases what with
  | vote block =>
    have hblock := block.length_toBytes_ge S
    simp only [Signed.message, length_viewToBytes] at hlength
    omega
  | view v' => exact viewToBytes_injective h
  | timeout t =>
    simp only [Signed.message, TimeoutMsg.toBytes, length_append, length_littleEndian,
      length_viewToBytes] at hlength
    omega

theorem Signed.about_of_block {block : Block Sig} (h : what.message S = block.toBytes S)
    (hapart : ∀ t, what ≠ .timeout t) : what.about = block.view := by
  cases what with
  | vote block' => exact Block.view_eq_of_toBytes_eq S h
  | view v =>
    have hlength := congrArg length h
    have hblock := block.length_toBytes_ge S
    simp only [Signed.message, length_viewToBytes] at hlength
    omega
  | timeout t => exact absurd rfl (hapart t)

theorem Signed.about_of_timeout {t : TimeoutMsg Sig} (h : what.message S = t.toBytes S)
    (hapart : ∀ block, what ≠ .vote block) : what.about = t.view := by
  cases what with
  | vote block => exact absurd rfl (hapart block)
  | view v =>
    have hlength := congrArg length h
    simp only [Signed.message, TimeoutMsg.toBytes, length_append, length_littleEndian,
      length_viewToBytes] at hlength
    omega
  | timeout t' => exact TimeoutMsg.view_eq_of_toBytes_eq S h

/-- If a quorum attests a view, a correct replica signed about it before. -/
theorem Attested.exists_signer (h : Attested M (ownTrace i past) v) (hconfig : M.config.Nonempty)
    (hfew : faulty.card ≤ numFaulty M.config.card) (hunforged : Unforgeable M.S faulty past)
    (hapart : BytesApart M faulty past) :
    ∃ j, j ∉ faulty ∧ ∃ what, (j, signed what) ∈ past ∧ what.about = v := by
  cases h with
  | timeoutCert sig hsize hverified =>
    obtain ⟨j, hj, hcorrect⟩ := exists_correct_of_quorum hconfig hfew hsize
    obtain ⟨before, hbefore, hsigned, -⟩ := hunforged.exists_past (mem_ownTrace.mp hverified)
    obtain ⟨what, hwhat, hmessage⟩ := hsigned sig _ rfl j hj hcorrect
    exact ⟨j, hcorrect, what, hbefore.subset hwhat, Signed.about_of_view hmessage⟩
  | aggregate aggQC sig hview hsize hverified =>
    obtain ⟨j, hj, hcorrect⟩ := exists_correct_of_quorum hconfig hfew hsize
    obtain ⟨before, hbefore, -, hsigned⟩ := hunforged.exists_past (mem_ownTrace.mp hverified)
    obtain ⟨what, hwhat, hmem⟩ := hsigned sig _ rfl j hj hcorrect
    have hwhat := hbefore.subset hwhat
    obtain ⟨⟨id, qc⟩, -, heq⟩ := mem_map.mp hmem
    refine ⟨j, hcorrect, what, hwhat, ?_⟩
    rw [← hview]
    refine Signed.about_of_timeout (Prod.mk.inj heq).2.symm fun block hblock => ?_
    subst hblock
    exact hapart.votes j hcorrect block hwhat i sig _ (mem_ownTrace.mp hverified) hmem
  | quorumCert qc block sig hview hsize hadopted hverified =>
    obtain ⟨j, hj, hcorrect⟩ := exists_correct_of_quorum hconfig hfew hsize
    obtain ⟨before, hbefore, hsigned, -⟩ := hunforged.exists_past (mem_ownTrace.mp hverified)
    obtain ⟨what, hwhat, hmessage⟩ := hsigned sig _ rfl j hj hcorrect
    have hwhat := hbefore.subset hwhat
    refine ⟨j, hcorrect, what, hwhat, ?_⟩
    rw [← hview]
    refine Signed.about_of_block hmessage fun t ht => ?_
    subst ht
    exact hapart.timeouts j hcorrect t hwhat i qc block (mem_ownTrace.mp hadopted) hmessage

/-- What a correct replica signs is about a view that it has reached. -/
theorem exists_visited_of_signed
    (hown : Throughout (fun past e => e.1 ∉ faulty → Justified M (ownTrace e.1 past) e.2 ∧
      ∀ block, e.2 = .signed (.vote block) → block.view ≤ viewAfter (ownTrace e.1 past)) past)
    {j : ID} (hj : j ∉ faulty) (hwhat : (j, signed what) ∈ past) :
    ∃ u, what.about ≤ u ∧ Visited faulty past u := by
  obtain ⟨before, hbefore, hown⟩ := hown.exists_past hwhat
  obtain ⟨hjust, hvote⟩ := hown hj
  refine ⟨_, ?_, (visited_viewAfter before hj).mono hbefore⟩
  cases what with
  | vote block => exact hvote block rfl
  | view v => exact hjust.signed _ rfl (by simp) ▸ UInt64.le_refl _
  | timeout t => exact hjust.signed _ rfl (by simp) ▸ UInt64.le_refl _

variable {w : Network Sig}

/-- The views of the correct replicas lead on from one another. -/
theorem led_of_soundViews (hconfig : M.config.Nonempty)
    (hfew : faulty.card ≤ numFaulty M.config.card) (hunforged : Unforgeable M.S faulty w.trace)
    (hapart : BytesApart M faulty w.trace) (htraces : ∀ i, ownTrace i w.trace = (w.states i).trace)
    (hviews : ∀ i, ViewHistory M (w.states i))
    (hsound : ∀ i, i ∉ faulty → SoundViews M (w.states i).trace ∧
      VotesWithinView (w.states i).trace) : Throughout (Led faulty) w.trace := by
  have hown : Throughout (fun past e => e.1 ∉ faulty → Justified M (ownTrace e.1 past) e.2 ∧
      ∀ block, e.2 = .signed (.vote block) → block.view ≤ viewAfter (ownTrace e.1 past))
      w.trace := by
    refine Throughout.of_ownTrace (F := fun i past e => i ∉ faulty → Justified M past e ∧
      ∀ block, e = .signed (.vote block) → block.view ≤ viewAfter past) fun i => ?_
    rw [htraces i]
    intro past entry future htrace hi
    exact ⟨(hviews i).justified past entry future htrace, (hsound i hi).2 past entry future htrace⟩
  rintro past ⟨i, entry⟩ future htrace hi v' rfl
  have hpast : past <+: w.trace := htrace ▸ prefix_append _ _
  have hsplit := (htraces i).symm.trans (ownTrace_split i htrace)
  have hattested := (hviews i).attestedViews (hsound i hi).1
  obtain ⟨v, hsucc, hle, hlt, hv⟩ := hattested.attested _ _ _ hsplit v' rfl
  obtain ⟨j, hj, what, hwhat, habout⟩ := hv.exists_signer hconfig hfew (hunforged.restrict hpast)
    (hapart.restrict hpast)
  obtain ⟨u, hu, hvisited⟩ := exists_visited_of_signed (hown.restrict hpast) hj hwhat
  have hrising := risingViews_of_justified (hviews i).justified (hsound i hi).1.notLast
  have hpos : 1 ≤ viewAfter (ownTrace i past) :=
    RisingViews.le_viewAfter (hrising.restrict (hsplit ▸ prefix_append _ _)) mem_cons_self
  exact ⟨v, u, hsucc, hlt, UInt64.le_trans hpos hle, habout ▸ hu, hvisited⟩

end Network

variable (M) {trace : List (Entry Multi)}

/-- Every run, whatever is delivered. A replica whose certificates claim the right views moves
through strictly rising views, and leaves each on signatures of a quorum about it. If this holds of
all correct replicas, these vote only in views they have reached, and few replicas are faulty, then
a correct replica moves to a view only after a correct one was in the view before it. -/
theorem views_advance_on_evidence (variant : Variant) (deliveries : List (ID × Input Sig)) :
    (∀ i, SoundViews M ((run M (variant.rules M) deliveries).states i).trace →
      AttestedViews M ((run M (variant.rules M) deliveries).states i)) ∧
    ∀ faulty : Finset ID, M.config.Nonempty → faulty.card ≤ numFaulty M.config.card →
      Unforgeable M.S faulty (run M (variant.rules M) deliveries).trace →
      BytesApart M faulty (run M (variant.rules M) deliveries).trace →
      (∀ i, i ∉ faulty → SoundViews M ((run M (variant.rules M) deliveries).states i).trace ∧
        VotesWithinView ((run M (variant.rules M) deliveries).states i).trace) →
      Throughout (fun past e => e.1 ∉ faulty → ∀ w, e.2 = .entered w →
        ∃ v, w = v + 1 ∧ v < w ∧ Visited faulty past v)
        (run M (variant.rules M) deliveries).trace := by
  have hviews := ViewHistory.of_run (M := M) variant deliveries
  refine ⟨fun i hsound => (hviews i).attestedViews hsound, ?_⟩
  intro faulty hconfig hfew hunforged hapart hsound
  exact exists_visited_of_led (led_of_soundViews hconfig hfew hunforged hapart
    (ownTrace_run_variant variant deliveries) hviews hsound)

section Samples

open Ecdsa

/-- Whether all votes in a trace that starts in the given view are within the view. -/
def votesWithinFrom : View → List (Entry Multi) → Bool
  | _, [] => true
  | _, .entered w :: rest => votesWithinFrom w rest
  | v, .signed (.vote block) :: rest => decide (block.view ≤ v) && votesWithinFrom v rest
  | v, _ :: rest => votesWithinFrom v rest

theorem votesWithinView_of_check (h : votesWithinFrom 1 trace = true) : VotesWithinView trace := by
  suffices hfrom : ∀ rest past, votesWithinFrom (viewAfter past) rest = true →
      VotesWithinView past → VotesWithinView (past ++ rest) from hfrom trace [] h .nil
  intro rest
  induction rest with
  | nil =>
    intro past _ hpast
    simpa using hpast
  | cons entry rest ih =>
    intro past hcheck hpast
    rw [← singleton_append, ← append_assoc]
    have hidle : enteredView entry = none → viewAfter (past ++ [entry]) = viewAfter past :=
      fun hentry => viewAfter_append_idle (by simpa using hentry)
    cases entry with
    | entered w =>
      exact ih _ (by simpa [votesWithinFrom] using hcheck) (hpast.append_singleton (by simp))
    | signed what =>
      rw [← hidle rfl] at hcheck
      cases what with
      | vote block =>
        simp only [votesWithinFrom, Bool.and_eq_true, decide_eq_true_eq] at hcheck
        refine ih _ hcheck.2 (hpast.append_singleton fun block' hblock => ?_)
        obtain rfl := Signed.vote.inj (signed.inj hblock)
        rw [← hidle rfl]
        exact hcheck.1
      | _ => exact ih _ hcheck (hpast.append_singleton (by simp))
    | _ =>
      rw [← hidle rfl] at hcheck
      exact ih _ hcheck (hpast.append_singleton (by simp))

/-- Whether an entry claims the right view, is no timeout and no certificate for the last view. -/
def entrySound : Entry Multi → Bool
  | .adopted qc block => qc.view = block.view ∧ qc.view ≠ lastView ∧
      (block.hash tagPrimitives = (genesis : Block Multi).hash tagPrimitives →
        block.view = 0)
  | .verified _ message => message ≠ viewToBytes lastView
  | .batchVerified _ _ => false
  | .signed (.timeout _) => false
  | _ => true

theorem soundViews_of_check (h : trace.all entrySound = true) :
    SoundViews (tagModules false) trace := by
  have hentry : ∀ entry ∈ trace, entrySound entry = true := all_eq_true.mp h
  have hadopted : ∀ qc block, adopted qc block ∈ trace → qc.view = block.view ∧
      qc.view ≠ lastView ∧ (block.hash tagPrimitives =
        (genesis : Block Multi).hash tagPrimitives → block.view = 0) :=
    fun qc block hmem => of_decide_eq_true (hentry _ hmem)
  constructor
  · rintro past _ future htrace qc block rfl -
    exact (hadopted qc block (by simp [htrace])).1
  · exact fun qc block hmem => (hadopted qc block hmem).2.2
  · intro hevidence
    cases hevidence with
    | zero hzero => exact absurd hzero (by decide)
    | timeoutCert sig _ hverified =>
      have hne : viewToBytes lastView ≠ viewToBytes lastView :=
        of_decide_eq_true (hentry _ hverified)
      exact hne rfl
    | aggregate aggQC sig _ _ hverified => cases hentry _ hverified
    | quorumCert qc block hview hmem _ => exact (hadopted qc block hmem).2.1 hview

/-- Replicas 1 and 2 receive the first two blocks of the chain. -/
def trunkRun : Network Multi :=
  run (tagModules false) (Variant.rules (tagModules false) .chained) (proposals [trunk1, trunk2])

theorem trunkRun_sound (i : ID) :
    SoundViews (tagModules false) (trunkRun.states i).trace ∧
      VotesWithinView (trunkRun.states i).trace := by
  by_cases hone : i = 1
  · subst hone
    exact ⟨soundViews_of_check (by decide +kernel), votesWithinView_of_check (by decide +kernel)⟩
  by_cases htwo : i = 2
  · subst htwo
    exact ⟨soundViews_of_check (by decide +kernel), votesWithinView_of_check (by decide +kernel)⟩
  have hids : ∀ d ∈ proposals [trunk1, trunk2], i ≠ d.1 := by
    simp [proposals, proposalTo, hone, htwo]
  have hinit : trunkRun.states i = Replica.init tagPrimitives i :=
    Parties.run_states_of_not_mem hids
  rw [hinit]
  exact ⟨soundViews_of_check rfl, votesWithinView_of_check rfl⟩

theorem trunkRun_apart : BytesApart (tagModules false) {4} trunkRun.trace := by
  have hcheck : trunkRun.trace.all (fun e => entrySound e.2) = true := by decide +kernel
  have hentry : ∀ e ∈ trunkRun.trace, entrySound e.2 = true := all_eq_true.mp hcheck
  constructor
  · intro i _ block _ j sig batch hmem
    cases hentry _ hmem
  · intro i _ t hmem
    cases hentry _ hmem

/-- Replica 1 moves to view 2 on the votes for `trunk1`, after having been in view 1. -/
theorem views_advance_on_evidence_trunk :
    AttestedViews (tagModules false) (trunkRun.states 1) ∧
    enteredViews (trunkRun.states 1).trace = [2] ∧
    Throughout (fun past e => e.1 ∉ ({4} : Finset ID) → ∀ w, e.2 = .entered w →
      ∃ v, w = v + 1 ∧ v < w ∧ Visited {4} past v) trunkRun.trace :=
  ⟨(views_advance_on_evidence (tagModules false) .chained (proposals [trunk1, trunk2])).1 1
      (trunkRun_sound 1).1,
    by decide +kernel,
    (views_advance_on_evidence (tagModules false) .chained (proposals [trunk1, trunk2])).2 {4}
      ⟨1, by simp [tagModules]⟩ (by decide) (unforgeable_of_check (by decide +kernel))
      trunkRun_apart fun i _ => trunkRun_sound i⟩

/-- A replica is sent a certificate. -/
def newViewTo (i : ID) (qc : QuorumCert Multi) : ID × Input Multi :=
  (i, { env := {}, event := .newView { qc := some qc } })

/-- Replica 1 is sent a certificate without signature that names the genesis block and claims a
view. -/
def genesisClaim (view : View) : Network Multi :=
  run (tagModules false) (Variant.rules (tagModules false) .chained)
    [newViewTo 1 { genesisCert with view := view }]

/-- A block of view 9 on the genesis block. -/
def farBlock : Block Multi := blockOn genesis genesisCert 2 9

/-- Replicas 1 and 2 vote for a block of view 9 in view 1, and replica 1 is sent the certificate. -/
def farRun : Network Multi :=
  run (tagModules false) (Variant.rules (tagModules false) .chained)
    (proposals [farBlock] ++ [newViewTo 1 (certFor farBlock)])

/-- How many signatures were verified. -/
def verifiedCount (trace : List (Entry Multi)) : Nat :=
  (trace.filter fun entry => match entry with
    | .verified _ _ => true
    | .batchVerified _ _ => true
    | _ => false).length

/-- A certificate for the genesis block takes a replica to any view without a signature, and back to
view 0. The votes of two correct replicas in view 1 take one to view 10, although no correct replica
has been in view 9. -/
theorem view_entered_without_evidence :
    ((genesisClaim 9).states 1).currentView = 10 ∧
    verifiedCount ((genesisClaim 9).states 1).trace = 0 ∧
    ((genesisClaim lastView).states 1).currentView = 0 ∧
    unforgedFrom tagPrimitives {4} [] farRun.trace = true ∧
    [1, 2, 3].map (fun i => enteredViews (farRun.states i).trace) = [[10], [], []] := by
  decide +kernel

end Samples

end NimbleChain.HotStuff
