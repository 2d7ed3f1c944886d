import NimbleChain.HotStuff.Combining
import NimbleChain.HotStuff.HighCertificates
import NimbleChain.HotStuff.ViewSync

/-!
# View changes by timeouts

`OnRemoteTimeout` collects one timeout message per view and ID and, once there is a quorum of them,
combines their signatures to a timeout certificate. The ID is the sender's word, so that messages of
different IDs may carry signatures of one replica, and `Combine` then fails for good. With aggregate
QCs the certificate is accompanied by an aggregate for the view in which the last message arrived.
-/

namespace NimbleChain.HotStuff

open Common Program List Replica TimeoutMsg

variable {Sig : Type} (M : Modules Sig)

/-! ### Leaving a view -/

/-- The replica has left the view, unless it holds a certificate for the last view or two stored
blocks collide. -/
def Beyond (u : View) (r : Replica Sig) : Prop :=
  Evidence M r.trace lastView ∨ ¬ NoCollision M.S r.chain ∨ u < r.currentView

variable {M} {r' r : Replica Sig} {syncInfo : SyncInfo Sig} {view u currView : View}
  {tc : TimeoutCert Sig} {call : Env Sig × Call Sig} {S : Primitives Sig} {qc : QuorumCert Sig}
  {timeouts : List (TimeoutMsg Sig)} {t : TimeoutMsg Sig} {id : ID}

/-- Once beyond a view, a replica stays beyond it while its view does not fall. -/
theorem Beyond.mono (h : Beyond M u r) (htrace : r.trace <+: r'.trace)
    (hblocks : r.chain.blocks <:+ r'.chain.blocks) (hview : r.currentView ≤ r'.currentView) :
    Beyond M u r' := by
  rcases h with hlast | hcollision | hlt
  · exact .inl (hlast.mono htrace.subset)
  · exact .inr (.inl fun hfree => hcollision fun b hb b' hb' =>
      hfree b (hblocks.subset hb) b' (hblocks.subset hb'))
  · exact .inr (.inr (UInt64.lt_of_lt_of_le hlt hview))

theorem Commits.beyond (h : Commits r r') (hu : Beyond M u r) : Beyond M u r' :=
  hu.mono h.grows h.blocks (by rw [h.rest]; exact UInt64.le_refl _)

theorem Step.beyond (h : Step M r r') (hu : Beyond M u r) : Beyond M u r' := by
  have htrace := h.trace_le
  cases h with
  | ponder hponders => exact hponders.commits.beyond hu
  | giveUp =>
    rw [stopVoting_eq] at htrace ⊢
    exact hu.mono htrace (suffix_refl _) (UInt64.le_refl _)
  | raise =>
    unfold updateHighTC
    split <;> exact hu.mono prefix_rfl (suffix_refl _) (UInt64.le_refl _)
  | @enter v hle hevidence =>
    by_cases hv : v = lastView
    · subst hv
      exact .inl (hevidence.mono htrace.subset)
    · exact hu.mono htrace (suffix_refl _) (UInt64.le_of_lt (lt_succ_of_le hle hv))
  | _ => exact hu.mono htrace (suffix_refl _) (UInt64.le_refl _)

theorem covers_beyond (u : View) : Covers M (Keeps (Beyond M u)) where
  step _ _ hstep := hstep.beyond
  timeouts _ _ hu := hu

variable (variant : Variant)

theorem Variant.respects_beyond (u : View) : Respects M (Keeps (Beyond M u)) (variant.rules M) :=
  variant.respects (commit_along fun _ _ hcommits => hcommits.beyond)

theorem advanceView_keeps_beyond (u : View) (n : Nat) (syncInfo : SyncInfo Sig) :
    (advanceView M (variant.rules M) n syncInfo).Along (Keeps (Beyond M u)) :=
  advanceView_along (covers_beyond u).step (variant.respects_beyond u) n syncInfo

/-- What a replica finds when it looks a block up: a stored block, or the answer of its peers. -/
def blockFor (S : Primitives Sig) (r : Replica Sig) (hash : Hash) : Option (Block Sig) :=
  (r.chain.localGet S hash).or (r.env.fetch.head?.join.filter fun block => block.hash S = hash)

variable (M) (r : Replica Sig)

/-- The replica would accept the certificate. -/
def Verifies (qc : QuorumCert Sig) : Prop :=
  qc.hash = (genesis : Block Sig).hash M.S ∨
    ∃ sig block, qc.signature = some sig ∧ M.quorum ≤ (M.S.participants sig).card ∧
      blockFor M.S r qc.hash = some block ∧ M.crypto.verify sig (block.toBytes M.S) = true

/-- The replica would accept the aggregate QC. -/
def AggregateVerifies (aggQC : AggregateQC Sig) : Prop :=
  ∃ sig, aggQC.sig = some sig ∧ M.quorum ≤ (M.S.participants sig).card ∧
    M.crypto.batchVerify sig (aggQC.messages M.S) = true ∧
    Verifies M r (pickHighQC (aggQC.qcs.entries.map Prod.snd))

/-- The replica would accept the timeout certificate. -/
def TimeoutVerifies (tc : TimeoutCert Sig) : Prop :=
  tc.view = 0 ∨ ∃ sig, tc.signature = some sig ∧ M.quorum ≤ (M.S.participants sig).card ∧
    M.crypto.verify sig (viewToBytes tc.view) = true

/-- The replica would accept the QC, or the aggregate QC, of the sync info. -/
def OfferVerifies (syncInfo : SyncInfo Sig) : Prop :=
  match if M.useAggQC then syncInfo.aggQC else none with
  | some aggQC => AggregateVerifies M r aggQC
  | none => ∀ qc, syncInfo.qc = some qc → Verifies M r qc

variable {M} {r : Replica Sig}

theorem getBlock_exact (hash : Hash) (r : Replica Sig) :
    (getBlock M hash).wp (fun block _ => block = blockFor M.S r hash) never r := by
  unfold getBlock blockFor
  simp only [wp_bind, wp_get]
  split
  · rename_i block hblock
    simp [hblock]
  · rename_i hmissing
    rw [hmissing]
    simp only [fetch, bind_assoc, wp_bind, wp_get]
    cases hfetch : r.env.fetch with
    | nil => simp
    | cons answer rest =>
      cases hanswer : answer.filter fun block => decide (block.hash M.S = hash) with
      | none => simp [hanswer]
      | some block => simp [hanswer]

theorem verifyQuorumCert_of_verifies (h : Verifies M r qc) :
    (verifyQuorumCert M qc).wp (fun ok r' => ok = true ∧ Checked M r' qc) never r := by
  have hspec := verifyQuorumCert_spec M qc r
  suffices haccepts : (verifyQuorumCert M qc).wp (fun ok _ => ok = true) never r from
    wp_mono (wp_and hspec haccepts) (fun ok r' h => ⟨h.2, h.1.2 h.2⟩) (fun _ _ h => h.2)
  unfold verifyQuorumCert
  split
  · rfl
  rename_i hgenesis
  obtain ⟨sig, block, hsig, hsize, hblock, hvalid⟩ := h.resolve_left hgenesis
  rw [hsig]
  simp only [if_neg (not_lt.mpr hsize)]
  refine wp_then (getBlock_exact qc.hash r) ?_
  intro found r' hfound
  rw [hfound, hblock]
  refine wp_imp (verify_spec M sig _ r') ?_
  intro ok _ hok
  exact hok.2.1.trans hvalid

theorem Verifies.congr (h : Verifies M r qc) (hchain : r'.chain = r.chain) (henv : r'.env = r.env) :
    Verifies M r' qc := by
  unfold Verifies blockFor at *
  rw [hchain, henv]
  exact h

theorem OfferVerifies.congr (h : OfferVerifies M r syncInfo) (hchain : r'.chain = r.chain)
    (henv : r'.env = r.env) : OfferVerifies M r' syncInfo := by
  unfold OfferVerifies at *
  split
  · rename_i aggQC hagg
    rw [hagg] at h
    obtain ⟨sig, hsig, hsize, hbatch, hhigh⟩ := h
    exact ⟨sig, hsig, hsize, hbatch, hhigh.congr hchain henv⟩
  · rename_i hagg
    rw [hagg] at h
    exact fun qc hqc => (h qc hqc).congr hchain henv

theorem verifyAggregateQC_of_verifies {aggQC : AggregateQC Sig} (h : AggregateVerifies M r aggQC) :
    (verifyAggregateQC M aggQC).wp (fun result r' => ∃ qc, result = some qc ∧ Checked M r' qc)
      never r := by
  obtain ⟨sig, hsig, hsize, hbatch, hhigh⟩ := h
  unfold verifyAggregateQC
  rw [hsig]
  simp only [if_neg (not_lt.mpr hsize)]
  refine wp_then (batchVerify_spec M sig _ r) ?_
  rintro ok r1 ⟨-, hok, hrecord⟩
  rw [hbatch] at hok
  subst hok
  obtain rfl := hrecord rfl
  simp only [if_true]
  refine wp_then (verifyQuorumCert_of_verifies (hhigh.congr rfl rfl)) ?_
  rintro _ r2 ⟨rfl, hchecked⟩
  exact ⟨_, rfl, hchecked⟩

theorem advanceTC_of_verifies (htc : syncInfo.tc = some tc) (h : TimeoutVerifies M tc) :
    (advanceTC M syncInfo).wp
      (fun result r' => result = some tc.view ∧ r'.chain = r.chain ∧ r'.env = r.env) never r := by
  have hverify : (verifyTimeoutCert M tc).wp
      (fun ok r' => ok = true ∧ r'.chain = r.chain ∧ r'.env = r.env) never r := by
    unfold verifyTimeoutCert
    split
    · exact ⟨rfl, rfl, rfl⟩
    rename_i hpos
    obtain ⟨sig, hsig, hsize, hvalid⟩ := h.resolve_left hpos
    rw [hsig]
    simp only [if_neg (not_lt.mpr hsize)]
    refine wp_imp (verify_spec M sig _ r) ?_
    rintro ok r1 ⟨-, hok, hrecord⟩
    rw [hvalid] at hok
    rw [hrecord hok]
    exact ⟨hok, rfl, rfl⟩
  unfold advanceTC
  rw [htc]
  refine wp_then hverify ?_
  rintro _ r1 ⟨rfl, hchain, henv⟩
  simp only [if_true, wp_bind, wp_modify]
  unfold updateHighTC
  split <;> exact ⟨rfl, hchain, henv⟩

theorem advanceQC_of_verifies (v : View) (h : OfferVerifies M r syncInfo) :
    (advanceQC M syncInfo v).wp
      (fun result _ => ∃ v' syncInfo', result = some (v', syncInfo') ∧ v ≤ v') never r := by
  have hmax : ∀ v v' : View, v ≤ if v ≤ v' then v' else v := by
    intro v v'
    split
    · assumption
    · exact UInt64.le_refl v
  unfold OfferVerifies at h
  unfold advanceQC
  split
  · rename_i aggQC hagg
    rw [hagg] at h
    refine wp_then (verifyAggregateQC_of_verifies h) ?_
    rintro _ r1 ⟨qc, rfl, hchecked⟩
    refine wp_then (updateHighQC_spec hchecked) ?_
    intro _ _ _
    exact ⟨_, _, rfl, UInt64.le_trans (hmax _ _) (hmax _ _)⟩
  · rename_i hagg
    rw [hagg] at h
    split
    · exact ⟨_, _, rfl, UInt64.le_refl v⟩
    · rename_i qc hqc
      refine wp_then (verifyQuorumCert_of_verifies (h qc hqc)) ?_
      rintro _ r1 ⟨rfl, hchecked⟩
      simp only [if_true]
      refine wp_then (updateHighQC_spec hchecked) ?_
      intro _ _ _
      exact ⟨_, _, rfl, hmax _ _⟩

/-- Certificates that the replica accepts take it beyond the view of the timeout certificate. -/
theorem changeView_beyond (htc : syncInfo.tc = some tc) (hverifies : TimeoutVerifies M tc)
    (hoffer : OfferVerifies M r syncInfo) :
    (changeView M syncInfo).wp (fun _ r' => Beyond M tc.view r') never r := by
  unfold changeView
  refine wp_seq
    (wp_and (advanceTC_of_verifies htc hverifies) (advanceTC_spec syncInfo r)) ?_
    (fun _ _ h => h.1)
  rintro _ r1 ⟨⟨rfl, hchain, henv⟩, hraised⟩
  refine wp_seq (wp_and
    (advanceQC_of_verifies tc.view (hoffer.congr hchain henv))
    (advanceQC_spec syncInfo tc.view r1)) ?_ (fun _ _ h => h.1)
  rintro _ r2 ⟨⟨v, syncInfo', rfl, hle⟩, hadvanced⟩
  simp only [wp_bind, wp_get]
  split
  · rename_i hlt
    exact .inr (.inr (UInt64.lt_of_le_of_lt hle hlt))
  by_cases hv : v = lastView
  · subst hv
    have hevidence := hadvanced.evidence rfl hraised.evidence
    exact .inl (hevidence.mono (subset_append_left _ _))
  · exact .inr (.inr (lt_succ_of_le hle hv))

/-- So does `AdvanceView`, whatever the proposal in the new view leads to. -/
theorem advanceView_beyond (n : Nat) (htc : syncInfo.tc = some tc)
    (hverifies : TimeoutVerifies M tc) (hoffer : OfferVerifies M r syncInfo) :
    (advanceView M (variant.rules M) n syncInfo).wp (fun _ r' => Beyond M tc.view r')
      (fun _ _ => True) r := by
  cases n with
  | zero => trivial
  | succ n =>
    have hcovers : Covers M (Keeps (Beyond M tc.view)) := covers_beyond tc.view
    have hpropose := proposeWith_along hcovers.step
      (onProposeWith_along hcovers.step (variant.respects_beyond tc.view)
        (advanceView_keeps_beyond variant tc.view n))
    change (advanceViewWith M _ syncInfo).wp _ _ r
    rw [advanceViewWith_eq]
    refine wp_then (changeView_beyond htc hverifies hoffer) ?_
    intro result r1 hbeyond
    rcases result with _ | ⟨newView, syncInfo'⟩
    · exact hbeyond
    simp only [wp_bind, wp_get]
    split
    · exact wp_imp (hpropose syncInfo' r1) (fun _ _ h => h hbeyond)
    · exact hbeyond

/-! ### The high QC -/

variable (M)

/-- The replica holds what it needs to accept its high QC again. -/
def HighStored (r : Replica Sig) : Prop :=
  r.highQC.hash = (genesis : Block Sig).hash M.S ∨
    ∃ sig block, r.highQC.signature = some sig ∧ M.quorum ≤ (M.S.participants sig).card ∧
      block ∈ r.chain.blocks ∧ block.hash M.S = r.highQC.hash ∧
      M.crypto.verify sig (block.toBytes M.S) = true

variable {M}

theorem HighStored.mono (h : HighStored M r) (hhigh : r'.highQC = r.highQC)
    (hblocks : r.chain.blocks <:+ r'.chain.blocks) : HighStored M r' := by
  unfold HighStored
  rw [hhigh]
  refine h.imp_right fun ⟨sig, block, hsig, hsize, hmem, hhash⟩ => ?_
  exact ⟨sig, block, hsig, hsize, hblocks.subset hmem, hhash⟩

theorem Commits.highStored (h : Commits r r') (hhigh : HighStored M r) : HighStored M r' :=
  hhigh.mono (by rw [h.rest]) h.blocks

theorem Step.highStored (h : Step M r r') (hhigh : HighStored M r) : HighStored M r' := by
  cases h with
  | ponder hponders => exact hponders.commits.highStored hhigh
  | giveUp =>
    rw [stopVoting_eq]
    exact hhigh
  | raise =>
    unfold updateHighTC
    split <;> exact hhigh
  | @adopt qc block _ _ _ hchecked =>
    have hadopt : (r.adopt qc block).highQC =
        if r.highQC.view < block.view then qc else r.highQC := rfl
    by_cases hlt : r.highQC.view < block.view
    · rw [if_pos hlt] at hadopt
      unfold HighStored
      rw [hadopt]
      cases hchecked with
      | genesis hhash => exact .inl hhash
      | quorum sig block hsig hsize hstored hvalid _ =>
        obtain ⟨hmem, hhash⟩ := mem_of_localGet hstored
        exact .inr ⟨sig, block, hsig, hsize, hmem, hhash, hvalid⟩
    · rw [if_neg hlt] at hadopt
      exact hhigh.mono hadopt (suffix_refl _)
  | _ => exact hhigh

theorem covers_highStored : Covers M (Keeps (HighStored M)) where
  step _ _ hstep := hstep.highStored
  timeouts _ _ hhigh := hhigh

theorem history_highStored (i : ID) (calls : Calls Sig) :
    HighStored M (history M variant i calls) :=
  history_keeps covers_highStored (commit_along fun _ _ hcommits => hcommits.highStored) (.inl rfl)
    variant calls

/-- Without collisions the replica accepts its high QC again. -/
theorem HighStored.verifies (h : HighStored M r) (hfree : NoCollision M.S r.chain) :
    Verifies M r r.highQC := by
  refine h.imp_right fun ⟨sig, block, hsig, hsize, hmem, hhash, hvalid⟩ => ?_
  have hsome : (r.chain.localGet M.S r.highQC.hash).isSome := by
    rw [BlockChain.localGet, find?_isSome]
    exact ⟨block, hmem, by simpa using hhash⟩
  obtain ⟨found, hfound⟩ := Option.isSome_iff_exists.mp hsome
  obtain ⟨hmem', hhash'⟩ := mem_of_localGet hfound
  refine ⟨sig, found, hsig, hsize, by simp [blockFor, hfound], ?_⟩
  rw [hfree found hmem' block hmem (hhash'.trans hhash.symm)]
  exact hvalid

/-! ### Certificates from collected messages -/

variable (M)

/-- The messages collected for a view: `timeouts[view]`. -/
def Replica.timeoutsFor (r : Replica Sig) (view : View) : List (TimeoutMsg Sig) :=
  r.timeouts.filter fun t => t.view = view

/-- The message carries a valid signature over its view. -/
def ValidTimeout (t : TimeoutMsg Sig) : Prop :=
  ∃ sig, t.viewSignature = some sig ∧ M.crypto.verify sig (viewToBytes t.view) = true

/-- The view signatures of the messages have no participant in common. -/
def SeparateTimeouts (timeouts : List (TimeoutMsg Sig)) : Prop :=
  (timeouts.filterMap viewSignature).Pairwise M.S.Separate

/-- What makes an aggregate QC of the messages collected for a view acceptable: the replica is in
this view, each message is signed by the replica of its ID and reports a QC, their hashes differ,
and the QC with the highest claimed view is accepted. -/
structure AggregateReady (currView view : View) (r : Replica Sig) : Prop where
  current : currView = view
  signed : ∀ t ∈ r.timeoutsFor view, ∃ sig, t.msgSignature = some sig ∧
    M.S.participants sig = {t.id} ∧ M.crypto.verify sig (t.toBytes M.S) = true
  reported : ∀ t ∈ r.timeoutsFor view, t.syncInfo.qc.isSome
  hashes : ((r.timeoutsFor view).map fun t => M.S.sum256 (t.toBytes M.S)).Nodup
  high : Verifies M r (pickHighQC ((collectQCs (r.timeoutsFor view)).entries.map Prod.snd))

variable {M}

theorem subset_participants_of_combine (hcombining : M.crypto.Combining M.S) {sigs : List Sig}
    {sig : Sig} (h : M.crypto.combine sigs = .ok sig) :
    ∀ part ∈ sigs, M.S.participants part ⊆ M.S.participants sig :=
  fun part hpart id hid => (hcombining.participants _ _ h id).mpr ⟨part, hpart, hid⟩

/-- A quorum of valid messages makes an acceptable timeout certificate exactly if their signatures
can be combined. -/
theorem createTimeoutCert_iff (hcombining : M.crypto.Combining M.S)
    (hvalid : ∀ t ∈ timeouts, t.view = view ∧ ValidTimeout M t)
    (hquorum : M.quorum ≤ timeouts.length) :
    (∃ tc, createTimeoutCert M view timeouts = .ok tc ∧ tc.view = view ∧ TimeoutVerifies M tc) ↔
      view = 0 ∨ 2 ≤ timeouts.length ∧ SeparateTimeouts M timeouts := by
  have hlength : (timeouts.filterMap viewSignature).length = timeouts.length := by
    refine filterMap_length_eq_length.mpr fun t ht => ?_
    obtain ⟨sig, hsig, -⟩ := (hvalid t ht).2
    simp [hsig]
  have hparts : ∀ part ∈ timeouts.filterMap viewSignature,
      M.crypto.verify part (viewToBytes view) = true := by
    intro part hpart
    obtain ⟨t, ht, hsig⟩ := mem_filterMap.mp hpart
    obtain ⟨rfl, sig, hsig', hverify⟩ := hvalid t ht
    cases hsig.symm.trans hsig'
    exact hverify
  unfold createTimeoutCert
  by_cases hzero : view = 0
  · simp [hzero, TimeoutVerifies]
  simp only [hzero, if_false, false_or]
  rw [← hlength, SeparateTimeouts, ← hcombining.combine_iff]
  constructor
  · rintro ⟨tc, hcreate, -⟩
    split at hcreate
    · cases hcreate
    · exact ⟨_, ‹_›⟩
  · rintro ⟨sig, hsig⟩
    have hseparate := ((hcombining.combine_iff _).mp ⟨sig, hsig⟩).2
    have hcard := length_le_card_of_separate hseparate
      (fun part hpart => hcombining.nonempty part _ (hparts part hpart))
      (subset_participants_of_combine hcombining hsig)
    rw [hsig]
    refine ⟨_, rfl, rfl, .inr ⟨sig, rfl, ?_, hcombining.verify _ _ _ hsig hparts⟩⟩
    omega

/-- The map of QCs that messages of different IDs are collected in. -/
theorem collectQCs_entries (hids : (timeouts.map TimeoutMsg.id).Nodup)
    (hreported : ∀ t ∈ timeouts, t.syncInfo.qc.isSome) :
    (collectQCs timeouts).entries =
      (timeouts.map fun t => (t.id, t.syncInfo.qc.getD QuorumCert.zero)).reverse := by
  induction timeouts using reverseRecOn with
  | nil => rfl
  | append_singleton timeouts t ih =>
    rw [map_append] at hids
    have hentries := ih hids.of_append_left fun t' ht' => hreported t' (mem_append_left _ ht')
    obtain ⟨qc, hqc⟩ := Option.isSome_iff_exists.mp (hreported t (by simp))
    have hnew : t.id ∉ (collectQCs timeouts).keys := by
      simpa [IDMap.keys, hentries] using disjoint_of_nodup_append hids
    rw [collectQCs, foldl_append, ← collectQCs, foldl_cons, foldl_nil, hqc]
    dsimp only
    rw [dif_neg hnew]
    simp [hqc, hentries]

theorem view_of_mem_timeoutsFor (h : t ∈ r.timeoutsFor view) : t.view = view := by
  simpa using (mem_filter.mp h).2

/-- The aggregate QC of a quorum of messages that are ready for it is acceptable. -/
theorem AggregateReady.exists_verifies (h : AggregateReady M currView view r)
    (hcombining : M.crypto.Combining M.S) (hbatching : M.crypto.Batching M.S)
    (hids : ((r.timeoutsFor view).map TimeoutMsg.id).Nodup)
    (hquorum : M.quorum ≤ (r.timeoutsFor view).length) (htwo : 2 ≤ (r.timeoutsFor view).length) :
    ∃ aggQC, createAggregateQC M currView (r.timeoutsFor view) = .ok aggQC ∧
      AggregateVerifies M r aggQC := by
  have hcurrent := h.current
  subst hcurrent
  have hlength : ((r.timeoutsFor currView).filterMap msgSignature).length =
      (r.timeoutsFor currView).length := by
    refine filterMap_length_eq_length.mpr fun t ht => ?_
    obtain ⟨sig, hsig, -⟩ := h.signed t ht
    simp [hsig]
  have hseparate :
      ((r.timeoutsFor currView).filterMap msgSignature).Pairwise M.S.Separate := by
    refine pairwise_filterMap.mpr ((pairwise_map.mp hids).imp_of_mem ?_)
    intro t t' ht ht' hne sig hsig sig' hsig'
    obtain ⟨_, heq, hid, -⟩ := h.signed t ht
    obtain ⟨_, heq', hid', -⟩ := h.signed t' ht'
    cases hsig.symm.trans heq
    cases hsig'.symm.trans heq'
    rw [Primitives.Separate, hid, hid']
    exact Finset.disjoint_singleton.mpr hne
  have hparts : ∀ part ∈ (r.timeoutsFor currView).filterMap msgSignature,
      ∃ t ∈ r.timeoutsFor currView, M.S.participants part = {t.id} ∧
        M.crypto.verify part (t.toBytes M.S) = true := by
    intro part hpart
    obtain ⟨t, ht, hsig⟩ := mem_filterMap.mp hpart
    obtain ⟨_, heq, hsigned⟩ := h.signed t ht
    cases hsig.symm.trans heq
    exact ⟨t, ht, hsigned⟩
  obtain ⟨sig, hsig⟩ := (hcombining.combine_iff _).mpr ⟨hlength.symm ▸ htwo, hseparate⟩
  have hentries := collectQCs_entries hids h.reported
  have hmessages : ∀ aggQC : AggregateQC Sig, aggQC.qcs = collectQCs (r.timeoutsFor currView) →
      aggQC.view = currView → (aggQC.messages M.S).entries =
        ((r.timeoutsFor currView).map fun t => (t.id, t.toBytes M.S)).reverse := by
    intro aggQC hqcs hview
    change aggQC.qcs.entries.map _ = _
    rw [hqcs, hview, hentries, map_reverse, map_map]
    congr 1
    refine map_congr_left fun t ht => ?_
    obtain rfl := view_of_mem_timeoutsFor ht
    -- the message that `VerifyAggregateQC` reconstructs has the bytes of the collected one
    obtain ⟨qc, hqc⟩ := Option.isSome_iff_exists.mp (h.reported t ht)
    simp [toBytes, hqc]
  unfold createAggregateQC
  rw [hsig]
  refine ⟨_, rfl, sig, rfl, ?_, ?_, h.high⟩
  · have hcard := length_le_card_of_separate hseparate (fun part hpart => ?_)
      (subset_participants_of_combine hcombining hsig)
    · omega
    · obtain ⟨t, -, hid, -⟩ := hparts part hpart
      simp [hid]
  · refine hbatching _ sig _ hsig ?_ ?_ ?_
    · intro part hpart
      obtain ⟨t, ht, hsigned⟩ := hparts part hpart
      refine ⟨(t.id, t.toBytes M.S), ?_, hsigned⟩
      rw [hmessages _ rfl rfl, mem_reverse]
      exact mem_map.mpr ⟨t, ht, rfl⟩
    · intro e he
      rw [hmessages _ rfl rfl, mem_reverse] at he
      obtain ⟨t, ht, rfl⟩ := mem_map.mp he
      obtain ⟨part, hpart, hid, -⟩ := h.signed t ht
      exact ⟨part, mem_filterMap.mpr ⟨t, ht, hpart⟩, hid⟩
    · rw [hmessages _ rfl rfl, map_reverse, map_map]
      exact nodup_reverse.mpr h.hashes

/-! ### Handling a timeout message -/

/-- The collected timeout messages were left alone. -/
def SameTimeouts (r r' : Replica Sig) : Prop :=
  r'.timeouts = r.timeouts

instance : Std.Refl (@SameTimeouts Sig) :=
  ⟨fun _ => rfl⟩

instance : IsTrans (Replica Sig) SameTimeouts :=
  ⟨fun _ _ _ h h' => Eq.trans h' h⟩

theorem SameTimeouts.timeoutsFor (h : SameTimeouts r r') (view : View) :
    r'.timeoutsFor view = r.timeoutsFor view :=
  congrArg (filter _) h

theorem Commits.sameTimeouts (h : Commits r r') : SameTimeouts r r' := by
  rw [SameTimeouts, h.rest]

theorem Step.sameTimeouts (h : Step M r r') : SameTimeouts r r' := by
  cases h with
  | ponder hponders => exact hponders.commits.sameTimeouts
  | giveUp =>
    rw [stopVoting_eq]
    rfl
  | raise =>
    unfold updateHighTC
    split <;> rfl
  | _ => rfl

theorem Variant.respects_sameTimeouts : Respects M (@SameTimeouts Sig) (variant.rules M) :=
  variant.respects (commit_along fun _ _ hcommits => hcommits.sameTimeouts)

theorem advanceView_sameTimeouts (n : Nat) (syncInfo : SyncInfo Sig) :
    (advanceView M (variant.rules M) n syncInfo).Along SameTimeouts :=
  advanceView_along (fun _ _ hstep => hstep.sameTimeouts) variant.respects_sameTimeouts n syncInfo

variable (M) (rules : Rules Sig)

/-- `OnRemoteTimeout` up to the point where the messages of the view are counted. -/
def gatherTimeout (timeout : TimeoutMsg Sig) : Handler Sig Unit := do
  advanceView M rules M.stack timeout.syncInfo
  modify (·.addTimeout timeout)

/-- The rest of `OnRemoteTimeout`: a quorum of messages is combined and used to advance. -/
def combineTimeouts (currView : View) (timeout : TimeoutMsg Sig) : Handler Sig Unit := do
  let r ← get
  if (r.timeoutsFor timeout.view).length < M.quorum then pure ()
  else
    match createTimeoutCert M timeout.view (r.timeoutsFor timeout.view) with
    | .error _ => pure ()
    | .ok tc =>
      set { r with timeouts := r.timeouts.filter fun t => t.view ≠ timeout.view }
      advanceView M rules M.stack (timeoutSyncInfo M r currView tc (r.timeoutsFor timeout.view))

theorem collectTimeout_eq (currView : View) (timeout : TimeoutMsg Sig) :
    collectTimeout M rules currView timeout = (do
      gatherTimeout M rules timeout
      combineTimeouts M rules currView timeout) := by
  unfold collectTimeout gatherTimeout combineTimeouts
  rw [bind_assoc]
  rfl

/-- The messages collected for a view can be combined, if they are enough. -/
structure Combinable (view : View) (r : Replica Sig) : Prop where
  valid : ∀ t ∈ r.timeoutsFor view, ValidTimeout M t
  unique : ((r.timeoutsFor view).map TimeoutMsg.id).Nodup
  separate : SeparateTimeouts M (r.timeoutsFor view)

variable {M rules}

/-- The sync info that a combinable quorum leads to is acceptable. -/
theorem timeoutSyncInfo_verifies (currView : View) (tc : TimeoutCert Sig) (h : Combinable M view r)
    (hcombining : M.crypto.Combining M.S) (hbatching : M.useAggQC = true → M.crypto.Batching M.S)
    (htwo : 2 ≤ M.quorum) (hquorum : M.quorum ≤ (r.timeoutsFor view).length)
    (hready : M.useAggQC = true → AggregateReady M currView view r)
    (hhigh : Verifies M r r.highQC) :
    (timeoutSyncInfo M r currView tc (r.timeoutsFor view)).tc = some tc ∧
      OfferVerifies M r (timeoutSyncInfo M r currView tc (r.timeoutsFor view)) := by
  unfold timeoutSyncInfo OfferVerifies
  cases huse : M.useAggQC with
  | false =>
    refine ⟨rfl, fun qc hqc => ?_⟩
    cases hqc
    exact hhigh
  | true =>
    obtain ⟨aggQC, hcreate, hverifies⟩ := (hready huse).exists_verifies hcombining
      (hbatching huse) h.unique hquorum (htwo.trans hquorum)
    simp only [if_true, hcreate]
    exact ⟨trivial, hverifies⟩

/-- Whatever is combined, only messages of this view are removed. -/
theorem combineTimeouts_timeouts (currView : View) (timeout : TimeoutMsg Sig) (r : Replica Sig) :
    (combineTimeouts M (variant.rules M) currView timeout).wp
      (fun _ r' => r'.timeouts = r.timeouts ∨
        r'.timeouts = r.timeouts.filter fun t => t.view ≠ timeout.view)
      (fun _ _ => True) r := by
  unfold combineTimeouts
  simp only [wp_bind, wp_get]
  split
  · exact .inl rfl
  split
  · exact .inl rfl
  exact wp_imp (advanceView_sameTimeouts variant _ _ _) (fun _ _ h => .inr h)

/-- A combinable quorum takes the replica beyond the view. -/
theorem combineTimeouts_beyond {timeout : TimeoutMsg Sig} (h : Combinable M timeout.view r)
    (hcombining : M.crypto.Combining M.S) (hbatching : M.useAggQC = true → M.crypto.Batching M.S)
    (htwo : 2 ≤ M.quorum)
    (hready : M.useAggQC = true → M.quorum ≤ (r.timeoutsFor timeout.view).length →
      AggregateReady M currView timeout.view r) (hhigh : HighStored M r) :
    (combineTimeouts M (variant.rules M) currView timeout).wp
      (fun _ r' => Beyond M timeout.view r' ∨
        (r.timeoutsFor timeout.view).length < M.quorum ∧ r' = r)
      (fun _ _ => True) r := by
  unfold combineTimeouts
  simp only [wp_bind, wp_get]
  split
  · rename_i hshort
    exact .inr ⟨hshort, rfl⟩
  rename_i hlong
  have hquorum := not_lt.mp hlong
  obtain ⟨tc, hcreate, hview, htc⟩ := (createTimeoutCert_iff hcombining
    (fun t ht => ⟨view_of_mem_timeoutsFor ht, h.valid t ht⟩) hquorum).mpr
    (.inr ⟨htwo.trans hquorum, h.separate⟩)
  rw [hcreate]
  by_cases hfree : NoCollision M.S r.chain
  · obtain ⟨hset, hoffer⟩ := timeoutSyncInfo_verifies currView tc h hcombining hbatching
      htwo hquorum (fun huse => hready huse hquorum) (hhigh.verifies hfree)
    refine wp_imp (advanceView_beyond variant _ hset htc (hoffer.congr rfl rfl)) ?_
    intro _ r' hbeyond
    exact .inl (hview ▸ hbeyond)
  · refine wp_imp (advanceView_keeps_beyond variant timeout.view _ _ _) ?_
    intro _ r' hkept
    exact .inl (hkept (.inr (.inl hfree)))

/-! ### What has been collected -/

variable (M rules)

/-- A message can be handled: its view signature shares no participant with those collected for
its view under other IDs, and if it completes a quorum of messages, they are ready for an
aggregate QC. -/
structure Fits (r : Replica Sig) (t : TimeoutMsg Sig) : Prop where
  separate : ∀ sig, t.viewSignature = some sig → ∀ t' ∈ r.timeoutsFor t.view, t'.id ≠ t.id →
    ∀ sig', t'.viewSignature = some sig' → M.S.Separate sig sig'
  aggregate : M.useAggQC = true → ∀ sig r', t.viewSignature = some sig →
    ((gatherTimeout M rules t).exec (r.record (.verified sig (viewToBytes t.view)))).2 = r' →
    M.quorum ≤ (r'.timeoutsFor t.view).length → AggregateReady M r.currentView t.view r'

/-- The messages collected for a view can be combined but are too few, and there is one for every
ID that was heard of. -/
structure Collected (view : View) (r : Replica Sig) (heard : ID → Prop) : Prop
    extends Combinable M view r where
  short : (r.timeoutsFor view).length < M.quorum
  heard : ∀ id, heard id → id ∈ (r.timeoutsFor view).map TimeoutMsg.id

variable {M rules} {view : View} {heard : ID → Prop} {t : TimeoutMsg Sig}

theorem timeoutsFor_cleanup (hle : currView ≤ view) :
    (r.cleanupTimeouts currView).timeoutsFor view = r.timeoutsFor view := by
  unfold timeoutsFor cleanupTimeouts
  rw [filter_filter]
  refine filter_congr fun t _ => ?_
  by_cases hview : t.view = view
  · simp [hview, hle]
  · simp [hview]

theorem timeoutsFor_addTimeout_of_ne (hne : t.view ≠ view) :
    (r.addTimeout t).timeoutsFor view = r.timeoutsFor view := by
  unfold addTimeout
  split
  · rfl
  · exact filter_cons_of_neg (by simpa using hne)

theorem timeoutsFor_addTimeout (r : Replica Sig) (t : TimeoutMsg Sig) :
    (r.addTimeout t).timeoutsFor t.view =
      if t.id ∈ (r.timeoutsFor t.view).map TimeoutMsg.id then r.timeoutsFor t.view
      else t :: r.timeoutsFor t.view := by
  have hiff : (r.timeouts.any fun t' => t'.view = t.view ∧ t'.id = t.id) = true ↔
      t.id ∈ (r.timeoutsFor t.view).map TimeoutMsg.id := by
    simp [timeoutsFor, any_eq_true, and_assoc]
  unfold addTimeout
  by_cases hmem : t.id ∈ (r.timeoutsFor t.view).map TimeoutMsg.id
  · rw [if_pos (hiff.mpr hmem), if_pos hmem]
  · rw [if_neg (mt hiff.mp hmem), if_neg hmem]
    exact filter_cons_of_pos (by simp)

theorem Combinable.congr (h : Combinable M view r)
    (hlist : r'.timeoutsFor view = r.timeoutsFor view) : Combinable M view r' :=
  ⟨hlist ▸ h.valid, hlist ▸ h.unique, hlist ▸ h.separate⟩

/-- A fitting message is combinable with those collected before. -/
theorem Combinable.addTimeout (h : Combinable M t.view r) (hvalid : ValidTimeout M t)
    (hfits : Fits M rules r t) : Combinable M t.view (r.addTimeout t) := by
  have hlist := timeoutsFor_addTimeout r t
  split at hlist
  · exact h.congr hlist
  rename_i hnew
  refine ⟨?_, ?_, ?_⟩
  · rw [hlist]
    exact forall_mem_cons.mpr ⟨hvalid, h.valid⟩
  · rw [hlist]
    exact nodup_cons.mpr ⟨hnew, h.unique⟩
  · obtain ⟨sig, hsig, -⟩ := hvalid
    rw [hlist, SeparateTimeouts, filterMap_cons_some hsig]
    refine pairwise_cons.mpr ⟨fun sig' hsig' => ?_, h.separate⟩
    obtain ⟨t', ht', hsig'⟩ := mem_filterMap.mp hsig'
    refine hfits.separate sig hsig t' ht' (fun hid => hnew ?_) sig' hsig'
    exact mem_map.mpr ⟨t', ht', hid⟩

theorem mem_map_id_addTimeout (h : id ∈ (r.timeoutsFor t.view).map TimeoutMsg.id ∨ id = t.id) :
    id ∈ ((r.addTimeout t).timeoutsFor t.view).map TimeoutMsg.id := by
  rw [timeoutsFor_addTimeout]
  split
  · rename_i hmem
    exact h.elim (fun hold => hold) fun heq => heq ▸ hmem
  · simpa [or_comm] using h

theorem Collected.congr {heard' : ID → Prop} (h : Collected M view r heard)
    (hlist : r'.timeoutsFor view = r.timeoutsFor view) (hheard : ∀ id, heard' id → heard id) :
    Collected M view r' heard' :=
  ⟨h.toCombinable.congr hlist, hlist ▸ h.short, fun id hid => hlist ▸ h.heard id (hheard id hid)⟩

/-- What one timeout message of another view does to the collected messages. -/
theorem collectTimeout_other (currView : View) (hne : t.view ≠ view) (r : Replica Sig) :
    (collectTimeout M (variant.rules M) currView t).wp
      (fun _ r' => r'.timeoutsFor view = r.timeoutsFor view) (fun _ _ => True) r := by
  rw [collectTimeout_eq, gatherTimeout, bind_assoc]
  refine wp_then (advanceView_sameTimeouts variant _ _ r) ?_
  intro _ r1 hsame
  refine wp_imp (combineTimeouts_timeouts variant currView t _) ?_
  intro _ r2 htimeouts
  rw [← hsame.timeoutsFor view, ← timeoutsFor_addTimeout_of_ne (r := r1) hne]
  rcases htimeouts with heq | heq
  · exact SameTimeouts.timeoutsFor heq view
  · rw [timeoutsFor, heq, filter_filter]
    refine filter_congr fun t' _ => ?_
    by_cases hview : t'.view = view
    · simp [hview, hne.symm]
    · simp [hview]

theorem addTimeout_highStored (h : HighStored M r) : HighStored M (r.addTimeout t) := by
  unfold addTimeout
  split <;> exact h

theorem gatherTimeout_spec (t : TimeoutMsg Sig) (r : Replica Sig) :
    (gatherTimeout M (variant.rules M) t).wp
      (fun _ r' => r'.timeoutsFor t.view = (r.addTimeout t).timeoutsFor t.view ∧
        (HighStored M r → HighStored M r'))
      (fun _ _ => True) r := by
  have hhigh := advanceView_along covers_highStored.step
    (variant.respects (commit_along fun _ _ hcommits => hcommits.highStored)) M.stack t.syncInfo
    (M := M)
  unfold gatherTimeout
  refine wp_then (wp_and (advanceView_sameTimeouts variant _ _ r) (hhigh r)) ?_
  rintro _ r1 ⟨hsame, hkeeps⟩
  refine ⟨?_, fun hhigh => addTimeout_highStored (hkeeps hhigh)⟩
  rw [timeoutsFor_addTimeout, timeoutsFor_addTimeout, hsame.timeoutsFor]

section Laws

variable (hcombining : M.crypto.Combining M.S)
  (hbatching : M.useAggQC = true → M.crypto.Batching M.S) (htwo : 2 ≤ M.quorum) (variant : Variant)
include hcombining hbatching htwo

/-- A fitting message of the view is collected, or it takes the replica beyond the view. -/
theorem collectTimeout_self (currView : View)
    (h : Combinable M t.view (r.addTimeout t)) (hhigh : HighStored M r)
    (hready : M.useAggQC = true → ∀ r', ((gatherTimeout M (variant.rules M) t).exec r).2 = r' →
      M.quorum ≤ (r'.timeoutsFor t.view).length → AggregateReady M currView t.view r') :
    (collectTimeout M (variant.rules M) currView t).wp
      (fun _ r' => Beyond M t.view r' ∨ (r'.timeoutsFor t.view).length < M.quorum ∧
        r'.timeoutsFor t.view = (r.addTimeout t).timeoutsFor t.view)
      (fun _ _ => True) r := by
  rw [collectTimeout_eq]
  refine wp_seq (wp_and (gatherTimeout_spec variant t r)
    (always_iff.mpr rfl :
      (gatherTimeout M (variant.rules M) t).Always (fun r' => ((gatherTimeout M (variant.rules M)
        t).exec r).2 = r') r)) ?_ (fun _ _ _ => trivial)
  rintro _ r1 ⟨⟨hlist, hkeeps⟩, hexec⟩
  refine wp_mono (combineTimeouts_beyond variant (h.congr hlist) hcombining hbatching htwo
    (fun huse => hready huse r1 hexec) (hkeeps hhigh)) ?_ (fun _ _ _ => trivial)
  rintro _ r2 (hbeyond | ⟨hshort, rfl⟩)
  · exact .inl hbeyond
  · exact .inr ⟨hshort, hlist⟩

/-- `OnRemoteTimeout` collects a valid message of the view that fits, or takes the replica beyond
the view, whatever there is for other views. -/
theorem onRemoteTimeout_collects (h : Collected M view r heard)
    (hhigh : HighStored M r) (hle : r.currentView ≤ view)
    (hfits : t.view = view → Fits M (variant.rules M) r t) :
    (onRemoteTimeout M (variant.rules M) t).wp
      (fun _ r' => Beyond M view r' ∨ Collected M view r' fun id =>
        heard id ∨ t.view = view ∧ ValidTimeout M t ∧ id = t.id)
      (fun _ _ => True) r := by
  unfold onRemoteTimeout
  simp only [wp_bind, wp_get]
  split
  · trivial
  rename_i sig hsig
  refine wp_then (verify_spec M sig _ r) ?_
  rintro ok r1 ⟨hlooks, hok, hrecord⟩
  cases ok with
  | false =>
    have hinvalid : ¬ ValidTimeout M t := by
      rintro ⟨sig', hsig', hverify⟩
      cases hsig.symm.trans hsig'
      exact absurd (hok.trans hverify) (by simp)
    have hlist : (r1.cleanupTimeouts r.currentView).timeoutsFor view = r.timeoutsFor view := by
      rw [timeoutsFor_cleanup hle, hlooks.rest]
      rfl
    refine .inr (h.congr hlist fun id hid => hid.resolve_right ?_)
    exact fun hnew => hinvalid hnew.2.1
  | true =>
    obtain rfl := hrecord rfl
    have hvalid : ValidTimeout M t := ⟨sig, hsig, hok.symm⟩
    simp only [if_true, wp_bind]
    by_cases hview : t.view = view
    · subst hview
      have hfits := hfits rfl
      have hadded := h.toCombinable.addTimeout hvalid hfits
      have hsame : ((r.record (.verified sig (viewToBytes t.view))).addTimeout t).timeoutsFor
          t.view = (r.addTimeout t).timeoutsFor t.view := by
        rw [timeoutsFor_addTimeout, timeoutsFor_addTimeout]
        rfl
      refine wp_mono (collectTimeout_self hcombining hbatching htwo variant
        r.currentView (hadded.congr hsame) hhigh
        fun huse r' => hfits.aggregate huse sig r' hsig) ?_ (fun _ _ h => h)
      rintro _ r2 (hbeyond | ⟨hshort, hlist⟩)
      · exact .inl hbeyond
      · right
        have hlist' : (r2.cleanupTimeouts r.currentView).timeoutsFor t.view =
            (r.addTimeout t).timeoutsFor t.view := by
          rw [timeoutsFor_cleanup hle, hlist, hsame]
        refine ⟨hadded.congr hlist', ?_, fun id hid => ?_⟩
        · rw [timeoutsFor_cleanup hle]
          exact hshort
        · rw [hlist']
          exact mem_map_id_addTimeout (hid.imp (h.heard id) fun hnew => hnew.2.2)
    · refine wp_imp (collectTimeout_other variant r.currentView hview _) ?_
      intro _ r2 hlist
      have hlist' : (r2.cleanupTimeouts r.currentView).timeoutsFor view = r.timeoutsFor view := by
        rw [timeoutsFor_cleanup hle, hlist]
        rfl
      exact .inr (h.congr hlist' fun id hid => hid.resolve_right fun hnew => hview hnew.1)

end Laws

/-! ### Histories -/

variable (M)

/-- The timeout message that a call hands to `OnRemoteTimeout`, and the state in which it does. -/
def arrival (r : Replica Sig) (call : Env Sig × Call Sig) : Option (TimeoutMsg Sig × Replica Sig) :=
  match call with
  | (env, .event (.timeout t)) => some (t, { r with env := env })
  | (env, .event (.localTimeout view)) =>
    if r.currentView = view then
      match (ownTimeout M).exec { r with env := env } with
      | (.ok (some t), r') => some (t, r')
      | _ => none
    else none
  | _ => none

/-- During the calls the replica has handled the message, whose view signature is valid. -/
def Handled (i : ID) (calls : Calls Sig) (t : TimeoutMsg Sig) : Prop :=
  ∃ before call r', before ++ [call] <+: calls ∧
    (history M variant i before).crashed = false ∧
    arrival M (history M variant i before) call = some (t, r') ∧ ValidTimeout M t ∧
    (history M variant i (before ++ [call])).crashed = false

/-- The replica has handled a message for the view with the given ID. -/
def HeardFrom (i : ID) (calls : Calls Sig) (view : View) (id : ID) : Prop :=
  ∃ t, Handled M variant i calls t ∧ t.view = view ∧ t.id = id

variable {M}

/-- A call that hands over a message is `OnRemoteTimeout` from then on. -/
theorem perform_of_arrival (h : arrival M r call = some (t, r')) :
    (perform M rules call.2).exec { r with env := call.1 } =
      (onRemoteTimeout M rules t).exec r' ∧ Steps M r r' := by
  obtain ⟨env, call⟩ := call
  have henv : Steps M r { r with env := env } := (LooksUp.of_env r env).steps
  unfold arrival at h
  split at h
  · rename_i heq
    cases heq
    cases h
    exact ⟨rfl, henv⟩
  · rename_i _ view heq
    cases heq
    split at h
    · rename_i hview
      have hsteps := always_iff.mp (givesUp_steps (M := M).ownTimeout { r with env := env })
      split at h
      · rename_i t' r1 hown
        cases h
        rw [hown] at hsteps
        refine ⟨?_, henv.trans hsteps⟩
        change (if r.currentView = view then onLocalTimeout M rules else pure ()).exec _ = _
        rw [if_pos hview, onLocalTimeout_eq, exec_bind, hown]
      · cases h
    · cases h
  · cases h

/-- A call that hands over no message leaves the collected messages alone. -/
theorem perform_idle (h : arrival M r call = none) :
    (perform M (variant.rules M) call.2).Always (SameTimeouts { r with env := call.1 })
      { r with env := call.1 } := by
  have hstep : ∀ r r' : Replica Sig, Step M r r' → SameTimeouts r r' :=
    fun _ _ hstep => hstep.sameTimeouts
  have hpropose := onPropose_along hstep variant.respects_sameTimeouts
  obtain ⟨env, call⟩ := call
  cases call with
  | commit block => exact commit_along (fun _ _ hcommits => hcommits.sameTimeouts) block _
  | event event =>
    cases event with
    | propose proposal => exact hpropose proposal _
    | newView syncInfo => exact advanceView_sameTimeouts variant M.stack syncInfo _
    | timeout t => cases h
    | localTimeout view =>
      change (get >>= fun s : Replica Sig =>
        if s.currentView = view then onLocalTimeout M (variant.rules M) else pure ()).Always _ _
      simp only [Program.Always, wp_bind, wp_get]
      split
      · rename_i hview
        have hsteps := always_iff.mp (givesUp_steps (M := M).ownTimeout { r with env := env })
        simp only [arrival, if_pos hview] at h
        rw [onLocalTimeout_eq, wp_bind]
        unfold wp
        rcases hown : (ownTimeout M).exec { r with env := env } with ⟨result, r1⟩
        rw [hown] at h hsteps
        have hsame := Steps.lift hstep hsteps
        rcases result with e | _ | t
        · exact hsame
        · exact hsame
        · cases h
      · rfl
    | start =>
      change (get >>= fun s : Replica Sig => if s.currentView = 1 ∧ s.env.leader 1 = s.id then
        propose M (variant.rules M) s.syncInfo else pure ()).Always _ _
      simp only [Program.Always, wp_bind, wp_get]
      split
      · exact proposeWith_along hstep hpropose _ _
      · rfl

/-- Messages handled in one more call. -/
theorem HeardFrom.of_append {i : ID} {calls : Calls Sig}
    (h : HeardFrom M variant i (calls ++ [call]) view id) :
    HeardFrom M variant i calls view id ∨ (history M variant i (calls ++ [call])).crashed = false ∧
      ∃ t r', arrival M (history M variant i calls) call = some (t, r') ∧
        t.view = view ∧ ValidTimeout M t ∧ id = t.id := by
  obtain ⟨t, ⟨before, call', r', hle, hbefore, harrival, hvalid, hafter⟩, hview, hid⟩ := h
  rcases prefix_concat_iff.mp hle with heq | hle
  · obtain ⟨rfl, hcall⟩ := append_inj' heq rfl
    obtain rfl := singleton_inj.mp hcall
    exact .inr ⟨hafter, t, r', harrival, hview, hvalid, hid.symm⟩
  · exact .inl ⟨t, ⟨before, call', r', hle, hbefore, harrival, hvalid, hafter⟩, hview, hid⟩

/-- Too few messages means too few IDs. -/
theorem Collected.card_lt (h : Collected M view r heard) {ids : Finset ID}
    (hids : ∀ id ∈ ids, heard id) : ids.card < M.quorum := by
  have hsub : ids ⊆ ((r.timeoutsFor view).map TimeoutMsg.id).toFinset :=
    fun id hid => mem_toFinset.mpr (h.heard id (hids id hid))
  calc ids.card ≤ ((r.timeoutsFor view).map TimeoutMsg.id).toFinset.card := Finset.card_le_card hsub
    _ ≤ ((r.timeoutsFor view).map TimeoutMsg.id).length := toFinset_card_le _
    _ = (r.timeoutsFor view).length := length_map _
    _ < M.quorum := h.short

theorem currentView_le_of_not_beyond (h : ¬ Beyond M view r) : r.currentView ≤ view :=
  UInt64.not_lt.mp fun hlt => h (.inr (.inr hlt))

section Laws

variable (hcombining : M.crypto.Combining M.S)
  (hbatching : M.useAggQC = true → M.crypto.Batching M.S) (htwo : 2 ≤ M.quorum)
include hcombining hbatching htwo

/-- One call from a state in which the messages of the view have been collected. -/
theorem after_collects (variant : Variant) {call : Env Sig × Call Sig}
    (h : Collected M view r heard) (hhigh : HighStored M r)
    (hfits : ∀ t r', arrival M r call = some (t, r') → t.view = view → r'.currentView ≤ view →
      Fits M (variant.rules M) r' t)
    (hrun : (r.after (perform M (variant.rules M) call.2) call.1).crashed = false) :
    Beyond M view (r.after (perform M (variant.rules M) call.2) call.1) ∨
      Collected M view (r.after (perform M (variant.rules M) call.2) call.1) fun id => heard id ∨
        ∃ t r', arrival M r call = some (t, r') ∧ t.view = view ∧ ValidTimeout M t ∧ id = t.id := by
  unfold Replica.after at hrun ⊢
  split at hrun
  · rename_i hcrashed
    exact absurd hrun (by simp [hcrashed])
  rename_i hcrashed
  rw [if_neg hcrashed]
  cases harrival : arrival M r call with
  | none =>
    have hsame := always_iff.mp (perform_idle variant harrival)
    rcases hexec : (perform M (variant.rules M) call.2).exec { r with env := call.1 } with
      ⟨result, r1⟩
    rw [hexec] at hrun hsame
    cases result with
    | error e => cases hrun
    | ok _ =>
      refine .inr (h.congr (hsame.timeoutsFor view) fun id hid => ?_)
      rcases hid with hid | ⟨_, _, heq, -⟩
      · exact hid
      · cases heq
  | some arrived =>
    obtain ⟨t, r1⟩ := arrived
    obtain ⟨hsteps, hreach⟩ : (perform M (variant.rules M) call.2).exec { r with env := call.1 } =
        (onRemoteTimeout M (variant.rules M) t).exec r1 ∧ Steps M r r1 :=
      perform_of_arrival harrival
    have hsame : SameTimeouts r r1 := Steps.lift (fun _ _ hstep => hstep.sameTimeouts) hreach
    have hhigh1 : HighStored M r1 := Steps.lift covers_highStored.step hreach hhigh
    rw [hsteps] at hrun ⊢
    rcases hexec : (onRemoteTimeout M (variant.rules M) t).exec r1 with ⟨result, r2⟩
    rw [hexec] at hrun
    cases result with
    | error e => cases hrun
    | ok _ =>
      by_cases hbeyond : Beyond M view r1
      · have hkeeps : Keeps (Beyond M view) r1
            ((onRemoteTimeout M (variant.rules M) t).exec r1).2 := always_iff.mp
          (((covers_beyond view).spans (variant.respects_beyond view)).onRemoteTimeout t r1)
        rw [hexec] at hkeeps
        exact .inl (hkeeps hbeyond)
      have hle := currentView_le_of_not_beyond hbeyond
      have hcollected : Collected M view r1 heard :=
        h.congr (hsame.timeoutsFor view) fun _ hid => hid
      refine (wp_of_exec_ok hexec (onRemoteTimeout_collects hcombining hbatching htwo
        variant hcollected hhigh1 hle fun hview => hfits t r1 harrival hview hle)).imp_right ?_
      intro hnew
      refine hnew.congr rfl fun id hid => hid.imp_right ?_
      rintro ⟨t', r', heq, hview, hvalid, hid⟩
      cases heq
      exact ⟨hview, hvalid, hid⟩

/-- After every list of calls, the replica is beyond a view that a quorum of IDs has given up. -/
theorem history_collects (variant : Variant) (i : ID) {calls : Calls Sig}
    (hfits : Throughout (fun before call => ∀ t r',
      arrival M (history M variant i before) call = some (t, r') → t.view = view →
      r'.currentView ≤ view → Fits M (variant.rules M) r' t) calls) :
    (∀ ids : Finset ID, (∀ id ∈ ids, HeardFrom M variant i calls view id) →
      M.quorum ≤ ids.card → Beyond M view (history M variant i calls)) ∧
    ((history M variant i calls).crashed = false →
      Beyond M view (history M variant i calls) ∨
        Collected M view (history M variant i calls) (HeardFrom M variant i calls view)) := by
  induction calls using reverseRecOn with
  | nil =>
    have hheard : ∀ id, ¬ HeardFrom M variant i [] view id := by
      rintro id ⟨t, ⟨before, call, r', hle, -⟩, -⟩
      exact absurd (prefix_nil.mp hle) (by simp)
    have hcollected : Collected M view (init M.S i) _ :=
      ⟨⟨fun _ ht => absurd ht not_mem_nil, nodup_nil, .nil⟩, lt_of_lt_of_le Nat.zero_lt_two htwo,
        fun id hid => absurd hid (hheard id)⟩
    exact ⟨fun ids hids hquorum => absurd (hcollected.card_lt hids) (not_lt.mpr hquorum),
      fun _ => .inr hcollected⟩
  | append_singleton calls call ih =>
    obtain ⟨hids, hprev⟩ := ih (hfits.restrict (prefix_append _ _))
    have hkeeps : Beyond M view (history M variant i calls) →
        Beyond M view (history M variant i (calls ++ [call])) :=
      history_along (covers_beyond view)
        (commit_along fun _ _ hcommits => hcommits.beyond) variant i calls [call]
    by_cases hcrashed : (history M variant i (calls ++ [call])).crashed = false
    · suffices hnew : Beyond M view (history M variant i (calls ++ [call])) ∨
          Collected M view (history M variant i (calls ++ [call]))
            (HeardFrom M variant i (calls ++ [call]) view) from
        ⟨fun ids hids hquorum => hnew.resolve_right fun hcollected =>
          absurd (hcollected.card_lt hids) (not_lt.mpr hquorum), fun _ => hnew⟩
      have hbefore : (history M variant i calls).crashed = false := by
        by_contra hbefore
        rw [history_append, Replica.after, if_pos (by simpa using hbefore)] at hcrashed
        exact hbefore hcrashed
      rcases hprev hbefore with hbeyond | hcollected
      · exact .inl (hkeeps hbeyond)
      rw [history_append] at hcrashed ⊢
      refine (after_collects hcombining hbatching htwo variant hcollected
        (history_highStored variant i calls) (hfits calls call [] rfl) hcrashed).imp_right ?_
      intro hnew
      refine hnew.congr rfl fun id hid => ?_
      exact (HeardFrom.of_append _ hid).imp_right fun hlast => hlast.2
    · refine ⟨fun ids hheard hquorum => hkeeps (hids ids (fun id hid => ?_) hquorum),
        fun h => absurd h hcrashed⟩
      exact (HeardFrom.of_append _ (hheard id hid)).resolve_right fun hlast => hcrashed hlast.1

end Laws

variable (M)

/-- View changes by timeouts. A quorum of valid messages makes an acceptable timeout certificate
exactly if there are two of them and no two share a signer, and an acceptable aggregate QC if they
are ready for it. So with two or more replicas, and if every message for the view fits those before
it, a replica that has handled messages of a quorum of IDs has left the view, whatever else it
received and in whichever order; the view may be later than its current one. -/
theorem timeouts_change_view (variant : Variant) (i : ID) (calls : Calls Sig)
    (view : View) (hcombining : M.crypto.Combining M.S)
    (hbatching : M.useAggQC = true → M.crypto.Batching M.S) :
    (∀ r : Replica Sig, (∀ t ∈ r.timeoutsFor view, ValidTimeout M t) →
      M.quorum ≤ (r.timeoutsFor view).length →
      ((∃ tc, createTimeoutCert M view (r.timeoutsFor view) = .ok tc ∧ tc.view = view ∧
          TimeoutVerifies M tc) ↔
        view = 0 ∨ 2 ≤ (r.timeoutsFor view).length ∧ SeparateTimeouts M (r.timeoutsFor view))) ∧
    (∀ (r : Replica Sig) (currView : View), M.useAggQC = true →
      AggregateReady M currView view r → ((r.timeoutsFor view).map TimeoutMsg.id).Nodup →
      M.quorum ≤ (r.timeoutsFor view).length → 2 ≤ (r.timeoutsFor view).length →
      ∃ aggQC, createAggregateQC M currView (r.timeoutsFor view) = .ok aggQC ∧
        AggregateVerifies M r aggQC) ∧
    (2 ≤ M.config.card →
      Throughout (fun before call => ∀ t r',
        arrival M (history M variant i before) call = some (t, r') → t.view = view →
        r'.currentView ≤ view → Fits M (variant.rules M) r' t) calls →
      ¬ Evidence M (history M variant i calls).trace lastView →
      NoCollision M.S (history M variant i calls).chain →
      ∀ ids : Finset ID, M.quorum ≤ ids.card →
        (∀ id ∈ ids, HeardFrom M variant i calls view id) →
        view < (history M variant i calls).currentView) := by
  refine ⟨fun r hvalid hquorum => ?_, fun r currView huse hready hids hquorum htwo => ?_, ?_⟩
  · exact createTimeoutCert_iff hcombining
      (fun t ht => ⟨view_of_mem_timeoutsFor ht, hvalid t ht⟩) hquorum
  · exact hready.exists_verifies hcombining (hbatching huse) hids hquorum htwo
  · intro hconfig hfits hlast hfree ids hquorum hids
    have htwo : 2 ≤ M.quorum := by
      unfold Modules.quorum quorumSize numFaulty
      omega
    have hbeyond := (history_collects hcombining hbatching htwo variant i hfits).1 ids hids hquorum
    exact (hbeyond.resolve_left hlast).resolve_left (not_not.mpr hfree)

section Samples

open Ecdsa

/-- The signature of a replica over a view. -/
def signView (base : Base ID) (signer : ID) (view : View) : Multi :=
  ⟨[⟨signer.toNat, hashValue (base.sum256 (viewToBytes view)), signer⟩], List.nodup_singleton _⟩

/-- A timeout message with the given ID that carries the given replica's signature. -/
def timeoutBy (id signer : ID) (view : View) : TimeoutMsg Multi where
  id := id
  view := view
  syncInfo := { qc := some genesisCert }
  viewSignature := some (signView tagBase signer view)

/-- The call that delivers a timeout message. -/
def timeoutCall (t : TimeoutMsg Multi) : Env Multi × Call Multi :=
  ({}, .event (.timeout t))

/-- Replica 4 sends a copy of the signature of replica 1 under its own ID, and then the messages of
replicas 2 and 3 arrive. -/
def copiedSignature : Calls Multi :=
  [timeoutBy 1 1 1, timeoutBy 4 1 1, timeoutBy 2 2 1, timeoutBy 3 3 1].map timeoutCall

/-- Whether a message fits those collected, without aggregate QCs. -/
def fitsCollected (r : Replica Multi) (t : TimeoutMsg Multi) : Bool :=
  match t.viewSignature with
  | none => true
  | some sig => (r.timeoutsFor t.view).all fun t' => decide (t'.id = t.id) ||
      match t'.viewSignature with
      | none => true
      | some sig' => decide (tagPrimitives.Separate sig sig')

theorem fits_of_check {rules : Rules Multi} {r : Replica Multi} {t : TimeoutMsg Multi}
    (h : fitsCollected r t = true) : Fits (tagModules false) rules r t := by
  constructor
  · intro sig hsig t' ht' hid sig' hsig'
    unfold fitsCollected at h
    rw [hsig] at h
    have hother := all_eq_true.mp h t' ht'
    rw [hsig', decide_eq_false hid, Bool.false_or] at hother
    exact of_decide_eq_true hother
  · intro huse
    cases huse

/-- The messages of the replicas 1, 2 and 3 for view 1. -/
def honestTimeouts : Calls Multi :=
  [timeoutBy 1 1 1, timeoutBy 2 2 1, timeoutBy 3 3 1].map timeoutCall

theorem honestTimeouts_fit :
    Throughout (fun before call => ∀ t r', arrival (tagModules false) (sampleHistory before) call =
      some (t, r') → t.view = 1 → r'.currentView ≤ 1 →
      Fits (tagModules false) (Variant.rules (tagModules false) .chained) r' t) honestTimeouts := by
  have hcall : ∀ (before : Calls Multi) (t : TimeoutMsg Multi),
      fitsCollected { sampleHistory before with env := {} } t = true →
      ∀ t' r', arrival (tagModules false) (sampleHistory before) (timeoutCall t) = some (t', r') →
        t'.view = 1 → r'.currentView ≤ 1 →
        Fits (tagModules false) (Variant.rules (tagModules false) .chained) r' t' := by
    intro before t hcheck t' r' harrival _ _
    cases harrival
    exact fits_of_check hcheck
  refine ((Throughout.nil.append_singleton ?_).append_singleton ?_).append_singleton ?_
  · exact hcall _ _ (by decide +kernel)
  · exact hcall _ _ (by decide +kernel)
  · exact hcall _ _ (by decide +kernel)

theorem heardFrom_of_delivered {calls : Calls Multi}
    (before : Calls Multi) {id : ID}
    (hle : before ++ [timeoutCall (timeoutBy id id 1)] <+: calls)
    (hrun : ((sampleHistory before).crashed ||
      (sampleHistory (before ++ [timeoutCall (timeoutBy id id 1)])).crashed) = false)
    (hvalid : Ecdsa.verify tagBase (signView tagBase id 1) (viewToBytes 1) = true) :
    HeardFrom (tagModules false) .chained 1 calls 1 id := by
  obtain ⟨hbefore, hafter⟩ := Bool.or_eq_false_iff.mp hrun
  exact ⟨timeoutBy id id 1, ⟨before, _, _, hle, hbefore, rfl, ⟨_, rfl, hvalid⟩, hafter⟩, rfl, rfl⟩

/-- The messages of three replicas take replica 1 out of view 1. -/
theorem timeouts_change_view_honest : 1 < (sampleHistory honestTimeouts).currentView := by
  refine (timeouts_change_view (tagModules false) .chained 1 honestTimeouts 1
    (base_combining tagBase) (fun _ => base_batching tagBase)).2.2 (by decide) honestTimeouts_fit
    (soundViews_of_check (by decide +kernel)).notLast ?_ {1, 2, 3} (by decide) ?_
  · intro b hb b' hb' _
    rw [mem_singleton.mp hb, mem_singleton.mp hb']
  · intro id hid
    simp only [Finset.mem_insert, Finset.mem_singleton] at hid
    rcases hid with rfl | rfl | rfl
    · exact heardFrom_of_delivered [] ⟨_, rfl⟩ (by decide +kernel) (by decide +kernel)
    · exact heardFrom_of_delivered [timeoutCall (timeoutBy 1 1 1)] ⟨_, rfl⟩ (by decide +kernel)
        (by decide +kernel)
    · exact heardFrom_of_delivered
        [timeoutCall (timeoutBy 1 1 1), timeoutCall (timeoutBy 2 2 1)] ⟨[], rfl⟩
        (by decide +kernel) (by decide +kernel)

/-- Four replicas that use aggregate QCs. -/
def aggModules : Modules Multi where
  S := primitives (sampleBase 1)
  crypto := base (sampleBase 1)
  config := {1, 2, 3, 4}
  useAggQC := true
  stack := 4

/-- A correct timeout message of a replica that uses aggregate QCs, before it is signed. -/
def unsignedTimeout (id : ID) (view : View) : TimeoutMsg Multi where
  id := id
  view := view
  syncInfo := { qc := some ⟨none, 0, (genesis : Block Multi).hash (primitives (sampleBase 1))⟩ }
  viewSignature := some (signView (sampleBase 1) id view)

/-- A correct timeout message of a replica that uses aggregate QCs. -/
def aggTimeout (id : ID) (view : View) : TimeoutMsg Multi :=
  { unsignedTimeout id view with
    msgSignature := some ⟨[sampleSignature id
      ((unsignedTimeout id view).toBytes (primitives (sampleBase 1)))], List.nodup_singleton _⟩ }

/-- Replica 1 after it has handled the timeout messages of replicas 1, 2 and 3 for a view. -/
def aggHistory (view : View) : Replica Multi :=
  history aggModules .fast 1
    [timeoutCall (aggTimeout 1 view), timeoutCall (aggTimeout 2 view),
      timeoutCall (aggTimeout 3 view)]

/-- A copied signature keeps replica 1 in view 1, although the messages of three correct replicas
were handled; with aggregate QCs three correct messages for view 5 are dropped in view 1, while
those for view 1 take the replica to view 2. -/
theorem copied_signature_blocks_view_change :
    (sampleHistory copiedSignature).currentView = 1 ∧
    (sampleHistory copiedSignature).crashed = false ∧
    (sampleHistory copiedSignature).timeouts.length = 4 ∧
    (aggHistory 5).currentView = 1 ∧ (aggHistory 5).crashed = false ∧
    (aggHistory 5).timeouts.length = 0 ∧ (aggHistory 1).currentView = 2 := by
  decide +kernel

end Samples

end NimbleChain.HotStuff
