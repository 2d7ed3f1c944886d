import NimbleChain.Tendermint.VoteAggregation

/-!
# Commits of vote sets

The commit that `MakeCommit` makes of a set of precommits passes its checks, is accepted by the
validators of the set, and `CommitToVoteSet` makes a set of it with the same commit. The power that
`VerifyCommit` counts may be above the sum of the majority's entry: a conflicting vote that arrives
after the majority replaces the earlier vote, but is counted only if a peer has claimed the block.
-/

namespace NimbleChain.Tendermint

open Common List Option Check ValidatorSet HashFunction CommitSig BlockID VoteSet Vote

variable {H : HashFunction} {C : Crypto}

/-! ### Checked votes -/

variable {id : BlockID} {vote : Option Vote} {v : Vote} {α : Type} {l : List α}

/-- What a vote that verifies says about the key. -/
theorem Vote.verify_eq_ok {chainID : Bytes} {pubKey : Option PubKey}
    (h : v.verify H C chainID pubKey = .ok ()) :
    ∃ key bytes, pubKey = some key ∧ voteSignBytes H chainID v = some bytes ∧
      C.verifySignature key bytes v.signature = true := by
  obtain ⟨key, hkey, h⟩ := bind_eq_ok.mp h
  obtain ⟨-, h⟩ := seq_eq_ok.mp h
  obtain ⟨bytes, hbytes, h⟩ := bind_eq_ok.mp h
  rw [failIf_eq_ok] at h
  exact ⟨key, bytes, orPanic_eq_ok.mp hkey, orPanic_eq_ok.mp hbytes, by simpa using h⟩

/-! ### The commit of a vote set -/

/-- The vote at a position, if it is for the majority or for nil. -/
def keptVote (id : BlockID) (vote : Option Vote) : Option Vote :=
  vote.filter fun v => v.blockID = id ∨ v.blockID = .empty

/-- The signature of a kept vote. -/
def keptSig (id : BlockID) : Option Vote → CommitSig
  | none => .newAbsent
  | some v =>
    ⟨if v.blockID = id then blockIDFlagCommit else blockIDFlagNil, v.validatorAddress, v.timestamp,
      v.signature⟩

theorem keptVote_eq_some :
    keptVote id vote = some v ↔ vote = some v ∧ (v.blockID = id ∨ v.blockID = .empty) := by
  simp [keptVote, filter_eq_some_iff]

theorem keptVote_some : keptVote id (some v) =
    if v.blockID = id ∨ v.blockID = .empty then some v else none := by
  simp [keptVote, filter_some]

theorem keptVote_keptVote : keptVote id (keptVote id vote) = keptVote id vote := by
  cases h : keptVote id vote with
  | none => rfl
  | some v => exact keptVote_eq_some.mpr ⟨rfl, (keptVote_eq_some.mp h).2⟩

theorem keptSig_absent : (keptSig id vote).absent = vote.isNone := by
  cases vote with
  | none => rfl
  | some v =>
    simp only [keptSig, absent]
    split <;> rfl

theorem keptSig_forBlock :
    (keptSig id vote).forBlock = decide (vote.map Vote.blockID = some id) := by
  cases vote with
  | none => rfl
  | some v =>
    by_cases h : v.blockID = id
    · simp [keptSig, CommitSig.forBlock, h]
    · have hne : blockIDFlagNil ≠ blockIDFlagCommit := by decide
      simp [keptSig, CommitSig.forBlock, h, hne]

theorem keptSig_validateBasic (hvote : ∀ v, vote = some v → v.Basic H) :
    (keptSig id vote).validateBasic = .ok () := by
  cases vote with
  | none => rfl
  | some v =>
    have hbasic := hvote v rfl
    have hflag : (keptSig id (some v)).blockIDFlag = blockIDFlagCommit ∨
        (keptSig id (some v)).blockIDFlag = blockIDFlagNil := by
      simp only [keptSig]
      split <;> simp
    have hpresent : (keptSig id (some v)).blockIDFlag ≠ blockIDFlagAbsent := by
      rcases hflag with hflag | hflag <;> rw [hflag] <;> decide
    simp only [CommitSig.validateBasic, seq_eq_ok, failIf_eq_ok, hpresent, if_false]
    refine ⟨?_, ?_, hbasic.signature_ne, hbasic.signature_le⟩
    · rintro ⟨-, hcommit, hnil⟩
      exact hflag.elim hcommit hnil
    · exact not_not.mpr hbasic.address

theorem makeCommitSig_eq (hid : id.isComplete H = true)
    (hvote : ∀ v, vote = some v → v.blockID.WellFormed H) :
    makeCommitSig H id vote = some (keptSig id (keptVote id vote)) := by
  cases vote with
  | none => rfl
  | some v =>
    have hforBlock : ∀ a t s, forBlock ⟨blockIDFlagCommit, a, t, s⟩ = true :=
      fun _ _ _ => rfl
    have hforNil : ∀ a t s, forBlock ⟨blockIDFlagNil, a, t, s⟩ = false :=
      fun _ _ _ => rfl
    rcases hvote v rfl with hcomplete | hempty
    · have hne := ne_empty hcomplete
      by_cases hsame : v.blockID = id
      · simp [makeCommitSig, commitSig, hid, hsame, keptVote_some, keptSig]
      · simp [makeCommitSig, commitSig, hcomplete, hforBlock, hsame, hne,
          keptVote_some, keptSig]
    · have hne := (ne_empty hid).symm
      have hzero : empty.isZero = true := isZero_iff.mpr rfl
      simp [makeCommitSig, commitSig, hempty, empty_not_complete, hzero,
        hforNil, hne, keptVote_some, keptSig]

theorem mapM_eq_map {β : Type} {f : α → Option β} {g : α → β} (h : ∀ x ∈ l, f x = some (g x)) :
    l.mapM f = some (l.map g) := by
  induction l with
  | nil => rfl
  | cons x l ih =>
    rw [mapM_cons, h x (by simp), ih fun y hy => h y (by simp [hy])]
    rfl

theorem drop_eq_cons {rest : List α} {idx : Nat} {x : α} (h : l.drop idx = x :: rest) :
    l[idx]? = some x ∧ l.drop (idx + 1) = rest := by
  constructor
  · rw [← head?_drop, h]
    rfl
  · rw [← tail_drop, h]
    rfl

namespace VoteSet

/-- The commit of a vote set for a block. -/
def commitFor (vs : VoteSet) (id : BlockID) : Commit :=
  ⟨vs.height, vs.round, id, vs.votes.map fun vote => keptSig id (keptVote id vote)⟩

/-- The votes that a commit has the signatures of. -/
def keptAt (vs : VoteSet) (id : BlockID) (i : Nat) : Option Vote :=
  keptVote id (vs.voteAt i)

variable {given : Vote → Prop} {vs : VoteSet} {id : BlockID}

theorem keptAt_eq_some {i : Nat} {v : Vote} (h : vs.keptAt id i = some v) :
    vs.voteAt i = some v ∧ (v.blockID = id ∨ v.blockID = .empty) :=
  keptVote_eq_some.mp h

/-- A set of precommits, whose votes have passed `ValidateBasic`, with a majority for a block. -/
structure Committed (H : HashFunction) (C : Crypto) (vs : VoteSet) (id : BlockID) : Prop where
  inv : Inv H C (Vote.Basic H) vs
  vals : vs.valSet.Admissible
  type_eq : vs.signedMsgType = precommitType
  height_ne : vs.height ≠ 0
  maj : vs.maj23 = some id
  complete : id.isComplete H = true

namespace Committed

theorem makeCommit_eq (h : Committed H C vs id) : vs.makeCommit H = some (vs.commitFor id) := by
  have hsigs : vs.votes.mapM (makeCommitSig H id) =
      some (vs.votes.map fun vote => keptSig id (keptVote id vote)) := by
    apply mapM_eq_map
    intro vote hvote
    apply makeCommitSig_eq h.complete
    rintro v rfl
    obtain ⟨i, hi⟩ := mem_iff_getElem?.mp hvote
    obtain ⟨-, hbasic, -⟩ := h.inv.vote i v (by simp [voteAt, hi])
    exact hbasic.blockID
  simp [makeCommit, h.type_eq, h.maj, hsigs, commitFor]

variable {i : Nat} {v : Vote}

/-- The validator of a vote. -/
theorem exists_val (h : Committed H C vs id) (hv : vs.voteAt i = some v) :
    ∃ val, Accepted H C vs.scope v val ∧ vs.valSet.validators[i]? = some (some val) ∧
      val.votingPower.toInt = vs.valSet.power i ∧ v.validatorIndex = Int32.ofNat i := by
  obtain ⟨⟨val, haccepted⟩, -, rfl⟩ := h.inv.vote i v hv
  obtain ⟨hpos, hlt, hget⟩ := getByIndex_eq_some haccepted.lookup
  refine ⟨val, haccepted, hget, Inv.power_eq h.vals haccepted, ?_⟩
  rw [← Int32.toInt_inj, index, Int32.toInt_ofNat_of_lt]
  · omega
  · have hle := Int32.toInt_lt v.validatorIndex
    omega

/-- A kept vote can be read back from the commit. -/
theorem getVote_commitFor (h : Committed H C vs id) (hv : vs.keptAt id i = some v) :
    (vs.commitFor id).getVote (Int32.ofNat i) = some v := by
  obtain ⟨hat, hblock⟩ := keptAt_eq_some hv
  obtain ⟨val, haccepted, -, -, hindex⟩ := h.exists_val hat
  obtain ⟨-, -, hi⟩ := h.inv.vote i v hat
  have hpos : ¬ v.validatorIndex < 0 := by
    have hzero : (0 : Int32).toInt = 0 := rfl
    have hnonneg := (getByIndex_eq_some haccepted.lookup).1
    rw [Int32.lt_iff_toInt_lt]
    omega
  have hsig : (vs.commitFor id).signatures[v.validatorIndex.toInt.toNat]? =
      some (keptSig id (some v)) := by
    change (vs.commitFor id).signatures[v.index]? = _
    obtain ⟨vote, hvote, hjoin⟩ : ∃ vote, vs.votes[i]? = some vote ∧ vote = some v := by
      cases hget : vs.votes[i]? with
      | none => simp [voteAt, hget] at hat
      | some vote => exact ⟨vote, rfl, by simpa [voteAt, hget] using hat⟩
    subst hjoin
    rw [hi, commitFor, getElem?_map, hvote, map_some, keptVote_eq_some.mpr ⟨rfl, hblock⟩]
  have hid : (keptSig id (some v)).blockID id = some v.blockID := by
    have hne := (BlockID.ne_empty h.complete).symm
    rcases hblock with hsame | hempty
    · have hflag : blockIDFlagCommit ≠ blockIDFlagAbsent := by decide
      simp [keptSig, CommitSig.blockID, hsame, hflag]
    · have hflag : blockIDFlagNil ≠ blockIDFlagAbsent ∧ blockIDFlagNil ≠ blockIDFlagCommit := by
        decide
      simp [keptSig, CommitSig.blockID, hempty, hne, hflag]
  have hheight : vs.height = v.height := haccepted.height_eq.symm
  have hround : vs.round = v.round := haccepted.round_eq.symm
  have htype : precommitType = v.type := h.type_eq.symm.trans haccepted.type_eq.symm
  rw [← hindex]
  unfold Commit.getVote
  rw [if_neg hpos, hsig]
  simp only [bind_eq_bind, bind_some]
  rw [show (vs.commitFor id).blockID = id from rfl, hid]
  simp [commitFor, keptSig, hheight, hround, htype]

/-- The signature of a kept vote verifies. -/
theorem checkSignature_eq_ok (h : Committed H C vs id) (hv : vs.keptAt id i = some v)
    {val : Validator} (hval : vs.valSet.validators[i]? = some (some val)) :
    checkSignature H C vs.chainID (vs.commitFor id) i (keptSig id (some v)) val =
      .ok () := by
  obtain ⟨val', haccepted, hget, -, -⟩ := h.exists_val (keptAt_eq_some hv).1
  obtain rfl : val = val' := by simpa using hval.symm.trans hget
  obtain ⟨key, bytes, hkey, hbytes, hverify⟩ := verify_eq_ok haccepted.verified
  change voteSignBytes H vs.chainID v = some bytes at hbytes
  unfold checkSignature
  rw [bind_eq_ok]
  refine ⟨bytes, ?_, ?_⟩
  · rw [Commit.voteSignBytes, h.getVote_commitFor hv, bind_some, hbytes]
    rfl
  · rw [bind_eq_ok]
    refine ⟨key, by rw [hkey]; rfl, ?_⟩
    rw [failIf_eq_ok]
    simpa [keptSig] using hverify

/-- The power of the validators before an index whose vote is for the block. -/
def powerBefore (vs : VoteSet) (id : BlockID) (idx : Nat) : Nat :=
  ∑ i ∈ (Finset.range idx).filter fun i => (vs.voteAt i).map Vote.blockID = some id,
    vs.valSet.power i

theorem powerBefore_succ (vs : VoteSet) (id : BlockID) (idx : Nat) :
    powerBefore vs id (idx + 1) = powerBefore vs id idx +
      if (vs.voteAt idx).map Vote.blockID = some id then vs.valSet.power idx else 0 := by
  unfold powerBefore
  rw [Finset.range_add_one, Finset.filter_insert]
  split
  · rw [Finset.sum_insert (by simp), Nat.add_comm]
  · rw [Nat.add_zero]

theorem powerBefore_le {vs : VoteSet} (id : BlockID) {idx : Nat} (hidx : idx ≤ vs.valSet.size) :
    powerBefore vs id idx ≤ vs.valSet.total := by
  apply Admissible.sum_le_total
  intro i hi
  rw [Finset.mem_filter, Finset.mem_range] at hi
  exact Finset.mem_range.mpr (Nat.lt_of_lt_of_le hi.1 hidx)

/-- `VerifyCommit` counts the validators whose vote is for the block. -/
theorem talliedVotingPower_eq (h : Committed H C vs id) (rest : List (Option Vote)) (idx : Nat)
    (hrest : vs.votes.drop idx = rest) (acc : Int64) (hacc : acc.toInt = powerBefore vs id idx) :
    ∃ tallied, vs.valSet.talliedVotingPower H C vs.chainID (vs.commitFor id) idx
        (rest.map fun vote => keptSig id (keptVote id vote)) acc = .ok tallied ∧
      tallied.toInt = powerBefore vs id (idx + rest.length) := by
  induction rest generalizing idx acc with
  | nil => exact ⟨acc, rfl, hacc⟩
  | cons vote rest ih =>
    obtain ⟨hget, hdrop⟩ := drop_eq_cons hrest
    have hat : vs.voteAt idx = vote := by simp [voteAt, hget]
    have hlength : idx + (vote :: rest).length = idx + 1 + rest.length := by
      rw [length_cons]
      omega
    have hlt : idx < vs.valSet.size := by
      rw [← h.inv.votes.votes_length]
      exact (List.getElem_of_getElem? hget).1
    rw [map_cons, talliedVotingPower, hlength, keptSig_absent]
    cases hkept : keptVote id vote with
    | none =>
      have hother : ¬ (vs.voteAt idx).map Vote.blockID = some id := by
        rw [hat]
        intro hsame
        obtain ⟨v, rfl, hv⟩ := map_eq_some_iff.mp hsame
        rw [keptVote_eq_some.mpr ⟨rfl, .inl hv⟩] at hkept
        cases hkept
      refine ih (idx + 1) hdrop acc ?_
      rw [hacc, powerBefore_succ, if_neg hother, Nat.add_zero]
    | some v =>
      have hkeptAt : vs.keptAt id idx = some v := by rw [keptAt, hat, hkept]
      obtain ⟨val, -, hval, hpower, -⟩ := h.exists_val (keptAt_eq_some hkeptAt).1
      have hsum : (if (keptSig id (some v)).forBlock then acc + val.votingPower else acc).toInt =
          powerBefore vs id (idx + 1) := by
        have hle := powerBefore_le id (Nat.succ_le_of_lt hlt)
        have htotal := h.vals.total_le
        rw [toInt_maxTotalVotingPower] at htotal
        rw [powerBefore_succ, keptSig_forBlock, (keptAt_eq_some hkeptAt).1] at *
        by_cases hsame : (some v).map Vote.blockID = some id
        · rw [if_pos (decide_eq_true hsame), if_pos hsame] at *
          rw [Exact.toInt_add, hacc, hpower, Int.natCast_add]
          unfold Exact.Fits
          omega
        · rw [if_neg (by simpa using hsame), if_neg hsame, hacc, Nat.add_zero]
      obtain ⟨tallied, htallied, hvalue⟩ := ih (idx + 1) hdrop _ hsum
      refine ⟨tallied, ?_, hvalue⟩
      rw [hval, join_some]
      simp only [orPanic, bind, Except.bind, h.checkSignature_eq_ok hkeptAt hval]
      exact htallied

end Committed

/-- The validators whose vote is for a block. -/
def votersFor (vs : VoteSet) (id : BlockID) : Finset Nat :=
  vs.valSet.indices.filter fun i => (vs.voteAt i).map Vote.blockID = some id

/-- The validators whose vote is for a block without being counted in the entry of the block. -/
def uncounted (vs : VoteSet) (id : BlockID) : Finset Nat :=
  (vs.votersFor id).filter fun i => vs.recordedAt id.key i = none

namespace Committed

variable (h : Committed H C vs id)

include h

theorem blockID_of_key {v : Vote} (hbasic : v.Basic H) (hkey : v.blockID.key = id.key) :
    v.blockID = id :=
  key_inj hbasic.blockID (.inl h.complete) hkey

/-- The entry of the majority counts the validators whose vote is recorded in it. -/
theorem marked_eq {e : BlockVotes} (he : vs.votesByBlock id.key = some e) :
    marked e.bitArray = (vs.votersFor id).filter fun i => ¬ vs.recordedAt id.key i = none := by
  obtain ⟨e', he', -, hcopied⟩ := h.inv.maj id h.maj
  cases he.symm.trans he'
  have htallied := h.inv.entry id.key e he
  have hrecorded : ∀ i, vs.recordedAt id.key i = e.getByIndex i := by
    intro i
    rw [recordedAt, he, bind_some]
  ext i
  rw [mem_marked, htallied.bit_iff, Finset.mem_filter, hrecorded]
  rw [← ne_eq, ne_none_iff_isSome]
  refine ⟨fun hsome => ⟨?_, hsome⟩, fun hmem => hmem.2⟩
  obtain ⟨v, hv⟩ := isSome_iff_exists.mp hsome
  obtain ⟨⟨-, hbasic, -⟩, hkey, -⟩ := h.inv.entryVote id.key e i v he hv
  have hat := hcopied i v hv
  have hlt : i < vs.valSet.size := h.inv.votes.votes_length ▸ lt_of_voteAt hat
  rw [votersFor, Finset.mem_filter, indices, Finset.mem_range, hat, map_some,
    h.blockID_of_key hbasic hkey]
  exact ⟨hlt, rfl⟩

/-- The power of all votes for the majority is what its entry counts, and what it does not. -/
theorem sum_votersFor {e : BlockVotes} (he : vs.votesByBlock id.key = some e) :
    (∑ i ∈ vs.votersFor id, vs.valSet.power i : Nat) =
      e.sum.toInt + ∑ i ∈ vs.uncounted id, vs.valSet.power i := by
  have hsplit := Finset.sum_filter_add_sum_filter_not (vs.votersFor id)
    (fun i => vs.recordedAt id.key i = none) vs.valSet.power
  rw [(h.inv.entry id.key e he).sum_eq, h.marked_eq he, ← hsplit, uncounted]
  omega

theorem tallied_eq :
    ∃ tallied, vs.valSet.talliedVotingPower H C vs.chainID (vs.commitFor id) 0
        (vs.commitFor id).signatures 0 = .ok tallied ∧
      tallied.toInt = ∑ i ∈ vs.votersFor id, vs.valSet.power i := by
  obtain ⟨tallied, htallied, hvalue⟩ := h.talliedVotingPower_eq vs.votes 0 rfl 0 rfl
  refine ⟨tallied, htallied, ?_⟩
  rw [hvalue, Nat.zero_add, h.inv.votes.votes_length]
  rfl

theorem verifyCommit_eq_ok :
    vs.valSet.verifyCommit H C vs.chainID id vs.height (vs.commitFor id) = .ok () := by
  obtain ⟨tallied, htallied, hvalue⟩ := h.tallied_eq
  obtain ⟨total, htotal, hneeded⟩ := h.vals.twoThirds_eq
  obtain ⟨e, he, hquorum, -⟩ := h.inv.maj id h.maj
  have henough : ¬ tallied ≤ total * 2 / 3 := by
    have hsum := h.sum_votersFor he
    rw [Int64.le_iff_toInt_le, hneeded, hvalue]
    unfold quorum at hquorum
    omega
  unfold verifyCommit
  rw [seq_eq_ok]
  refine ⟨?_, ?_⟩
  · simp only [checkCommit, seq_eq_ok, failIf_eq_ok, not_not]
    refine ⟨?_, rfl, rfl⟩
    rw [commitFor, length_map, h.inv.votes.votes_length]
  · rw [htotal]
    simp only [bind, Except.bind, htallied, if_neg henough]
    rfl

omit h in
/-- An entry that has reached the quorum has a vote. -/
theorem exists_getByIndex (hinv : Inv H C given vs) {key : Bytes} {e : BlockVotes}
    (he : vs.votesByBlock key = some e) (hquorum : vs.quorum ≤ e.sum.toInt) :
    ∃ i v, e.getByIndex i = some v := by
  have htallied := hinv.entry key e he
  have hnonempty : (marked e.bitArray).Nonempty := by
    rw [Finset.nonempty_iff_ne_empty]
    intro hempty
    have hsum := htallied.sum_eq
    rw [hempty, Finset.sum_empty] at hsum
    unfold quorum at hquorum
    omega
  obtain ⟨i, hi⟩ := hnonempty
  exact ⟨i, htallied.mem_marked_iff.mp hi⟩

/-- Some vote is for the majority. -/
theorem exists_vote : ∃ i v, vs.voteAt i = some v ∧ v.blockID = id := by
  obtain ⟨e, he, hquorum, hcopied⟩ := h.inv.maj id h.maj
  obtain ⟨i, v, hv⟩ := exists_getByIndex h.inv he hquorum
  obtain ⟨⟨-, hbasic, -⟩, hkey, -⟩ := h.inv.entryVote id.key e i v he hv
  exact ⟨i, v, hcopied i v hv, h.blockID_of_key hbasic hkey⟩

theorem validateBasic_eq_ok : (vs.commitFor id).validateBasic = .ok () := by
  obtain ⟨i, v, hv, -⟩ := h.exists_vote
  obtain ⟨⟨val, haccepted⟩, hbasic, -⟩ := h.inv.vote i v hv
  have hheight : v.height = vs.height := haccepted.height_eq
  have hround : v.round = vs.round := haccepted.round_eq
  have hne : vs.votes ≠ [] := by
    intro hempty
    simp [voteAt, hempty] at hv
  have hzero : ¬ id.isZero = true := mt isZero_iff.mp (ne_empty h.complete)
  unfold Commit.validateBasic
  simp only [seq_eq_ok, failIf_eq_ok]
  refine ⟨?_, ?_, ?_⟩
  · change ¬ vs.height < 0
    exact hheight ▸ hbasic.height_nonneg
  · change ¬ vs.round < 0
    exact hround ▸ hbasic.round_nonneg
  split
  · simp only [seq_eq_ok, failIf_eq_ok, validateEach_eq_ok]
    refine ⟨hzero, by simpa [commitFor] using hne, ?_⟩
    intro sig hsig
    obtain ⟨vote, hvote, rfl⟩ := mem_map.mp hsig
    apply keptSig_validateBasic
    intro w hw
    obtain ⟨rfl, -⟩ := keptVote_eq_some.mp hw
    obtain ⟨j, hj⟩ := mem_iff_getElem?.mp hvote
    exact (h.inv.vote j w (by simp [voteAt, hj])).2.1
  · rfl

end Committed

/-! ### Reading the commit back -/

namespace Committed

/-- The calls that add the kept votes before an index. -/
def keptCalls (vs : VoteSet) (id : BlockID) (idx : Nat) : List Call :=
  (range idx).filterMap fun i => (vs.keptAt id i).map fun v => .addVote (some v)

variable (h : Committed H C vs id)

include h

theorem mem_keptCalls {idx : Nat} {v : Vote} : .addVote (some v) ∈ keptCalls vs id idx ↔
    v.index < idx ∧ vs.keptAt id v.index = some v := by
  simp only [keptCalls, mem_filterMap, mem_range, map_eq_some_iff, Call.addVote.injEq, some.injEq,
    exists_eq_right]
  refine ⟨?_, fun hv => ⟨v.index, hv⟩⟩
  rintro ⟨i, hi, hv⟩
  obtain ⟨-, -, rfl⟩ := h.inv.vote i v (keptAt_eq_some hv).1
  exact ⟨hi, hv⟩

theorem oneVoteEach (idx : Nat) : OneVoteEach H C vs.scope (keptCalls vs id idx) where
  basic v hv := (h.inv.vote _ v (keptAt_eq_some (h.mem_keptCalls.mp hv).2).1).2.1
  accepted v hv := (h.inv.vote _ v (keptAt_eq_some (h.mem_keptCalls.mp hv).2).1).1
  unique v w hv hw hindex := by
    have hkept := (h.mem_keptCalls.mp hv).2
    rw [hindex, (h.mem_keptCalls.mp hw).2] at hkept
    exact (some.inj hkept).symm

theorem run_keptCalls (idx : Nat) :
    Inv H C (fun v => .addVote (some v) ∈ keptCalls vs id idx)
        (vs.scope.fresh.run H C (keptCalls vs id idx)) ∧
      (vs.scope.fresh.run H C (keptCalls vs id idx)).scope = vs.scope :=
  run_fresh h.vals _

/-- The kept votes are added one by one. -/
theorem addCommitSigs_eq (rest : List (Option Vote)) (idx : Nat)
    (hrest : vs.votes.drop idx = rest) :
    addCommitSigs H C (vs.commitFor id) idx (rest.map fun vote => keptSig id (keptVote id vote))
        (vs.scope.fresh.run H C (keptCalls vs id idx)) =
      some (vs.scope.fresh.run H C (keptCalls vs id (idx + rest.length))) := by
  induction rest generalizing idx with
  | nil => rfl
  | cons vote rest ih =>
    obtain ⟨hget, hdrop⟩ := drop_eq_cons hrest
    have hat : vs.voteAt idx = vote := by simp [voteAt, hget]
    have hlength : idx + (vote :: rest).length = idx + 1 + rest.length := by
      rw [length_cons]
      omega
    rw [map_cons, addCommitSigs, hlength, keptSig_absent, ← ih (idx + 1) hdrop]
    cases hkept : keptVote id vote with
    | none =>
      have hnext : keptCalls vs id (idx + 1) = keptCalls vs id idx := by
        simp [keptCalls, range_succ, keptAt, hat, hkept]
      rw [hnext]
      rfl
    | some v =>
      have hkeptAt : vs.keptAt id idx = some v := by rw [keptAt, hat, hkept]
      have hnext : keptCalls vs id (idx + 1) = keptCalls vs id idx ++ [.addVote (some v)] := by
        simp [keptCalls, range_succ, hkeptAt]
      obtain ⟨⟨val, haccepted⟩, hbasic, hindex⟩ := h.inv.vote idx v (keptAt_eq_some hkeptAt).1
      obtain ⟨hinv, hscope⟩ := h.run_keptCalls idx
      have hvals : (vs.scope.fresh.run H C (keptCalls vs id idx)).scope.valSet.Admissible := by
        rw [hscope]
        exact h.vals
      have hnew : ∀ w, .addVote (some w) ∈ keptCalls vs id idx → w.index ≠ v.index := by
        intro w hw
        have hlt := (h.mem_keptCalls.mp hw).1
        omega
      rw [← hscope] at haccepted
      obtain ⟨next, hexec, -⟩ := addVote_new hinv hvals hbasic haccepted hnew
      rw [run] at hexec
      rw [h.getVote_commitFor hkeptAt, hnext, run, run, foldl_append, foldl_cons, foldl_nil, call,
        if_neg (by simp)]
      dsimp only
      rw [hexec]

/-- The votes of the set that was read back are the kept ones. -/
theorem voteAt_keptCalls (i : Nat) :
    (vs.scope.fresh.run H C (keptCalls vs id vs.votes.length)).voteAt i = vs.keptAt id i := by
  ext v
  rw [voteAt_run_iff h.vals (h.oneVoteEach _), h.mem_keptCalls]
  constructor
  · rintro ⟨⟨-, hv⟩, rfl⟩
    exact hv
  · intro hv
    obtain ⟨hat, -⟩ := keptAt_eq_some hv
    obtain ⟨-, -, rfl⟩ := h.inv.vote i v hat
    exact ⟨⟨lt_of_voteAt hat, hv⟩, rfl⟩

/-- The set that was read back has the same majority. -/
theorem committed_keptCalls :
    Committed H C (vs.scope.fresh.run H C (keptCalls vs id vs.votes.length)) id := by
  have hone := h.oneVoteEach vs.votes.length
  obtain ⟨hinv, hscope⟩ := h.run_keptCalls vs.votes.length
  have hset := congrArg VoteScope.valSet hscope
  obtain ⟨e, he, -, hcopied⟩ := h.inv.maj id h.maj
  -- the entry of the block has at least the votes that it had
  obtain ⟨id', hmaj⟩ := exists_maj23 h.inv hinv hset h.maj (by
    intro i v hv
    rw [recordedAt, he, bind_some] at hv
    obtain ⟨⟨-, hbasic, rfl⟩, hkey, -⟩ := h.inv.entryVote id.key e i v he hv
    have hat := hcopied _ v hv
    rw [← hkey]
    exact recordedAt_run h.vals hone (h.mem_keptCalls.mpr ⟨lt_of_voteAt hat,
      keptVote_eq_some.mpr ⟨hat, .inl (h.blockID_of_key hbasic hkey)⟩⟩))
  have hnone : 3 * ∑ i ∈ ∅, vs.valSet.power i ≤ vs.valSet.total := by simp
  have hkey := key_eq_of_maj23 h.inv hinv hset h.maj hmaj hnone (by
    intro i v w _ hv hw
    rw [h.voteAt_keptCalls] at hw
    rw [some.inj (hv.symm.trans (keptAt_eq_some hw).1)])
  obtain ⟨v, hv, rfl⟩ := hinv.majVote id' hmaj
  rw [h.blockID_of_key (hone.basic v hv) hkey.symm] at hmaj
  have htype := congrArg VoteScope.signedMsgType hscope
  refine ⟨hinv.mono hone.basic, ?_, htype.trans h.type_eq, ?_, hmaj, h.complete⟩
  · change (scope _).valSet.Admissible
    rw [hscope]
    exact h.vals
  · change (scope _).height ≠ 0
    rw [hscope]
    exact h.height_ne

/-- `CommitToVoteSet` makes a set of the commit that has the same commit. -/
theorem commitToVoteSet_eq :
    ∃ vs', commitToVoteSet H C vs.chainID (vs.commitFor id) vs.valSet = some vs' ∧
      vs'.makeCommit H = some (vs.commitFor id) := by
  have hread := h.addCommitSigs_eq vs.votes 0 rfl
  rw [Nat.zero_add] at hread
  have hcommitted := h.committed_keptCalls
  obtain ⟨-, hscope⟩ := h.run_keptCalls vs.votes.length
  have hat := h.voteAt_keptCalls
  revert hread hcommitted hscope hat
  generalize vs.scope.fresh.run H C (keptCalls vs id vs.votes.length) = vs'
  intro hread hcommitted hscope hat
  have hstart : vs.scope.fresh = new vs.chainID vs.height vs.round precommitType vs.valSet := by
    rw [VoteScope.fresh, scope, h.type_eq]
  have hheight : vs'.height = vs.height := congrArg VoteScope.height hscope
  refine ⟨vs', (if_neg h.height_ne).trans (hstart ▸ hread), ?_⟩
  rw [hcommitted.makeCommit_eq]
  have hsigs : (vs'.votes.map fun vote => keptSig id (keptVote id vote)) =
      vs.votes.map fun vote => keptSig id (keptVote id vote) := by
    have hlength : vs'.votes.length = vs.votes.length := by
      rw [hcommitted.inv.votes.votes_length, h.inv.votes.votes_length,
        show vs'.valSet = vs.valSet from congrArg VoteScope.valSet hscope]
    apply ext_getElem
    · rw [length_map, length_map, hlength]
    · intro i hi hi'
      rw [length_map] at hi hi'
      have hat := hat i
      rw [keptAt, voteAt, voteAt, getElem?_eq_getElem hi, getElem?_eq_getElem hi',
        join_some, join_some] at hat
      rw [getElem_map, getElem_map, hat, keptVote_keptVote]
  have hround : vs'.round = vs.round := congrArg VoteScope.round hscope
  simp only [commitFor, hheight, hsigs, hround]

end Committed

/-- The commit of valid precommits with a majority for a complete block passes its checks, the
validators of the set accept it, and it can be read back into a set with the same commit.
`VerifyCommit` counts the power of the majority's entry and of the validators whose vote for the
majority replaced another one without being counted. -/
theorem commit_round_trip {vals : ValidatorSet} (hvals : vals.Admissible) (chainID : Bytes)
    {height : Int64} (hheight : height ≠ 0) (round : Int32) (calls : List Call)
    (hcalls : ∀ v, .addVote (some v) ∈ calls → v.validateBasic H = .ok ()) {id : BlockID}
    (hmaj : ((new chainID height round precommitType vals).run H C calls).maj23 = some id)
    (hid : id.isComplete H = true) :
    let vs := (new chainID height round precommitType vals).run H C calls
    ∃ c, vs.makeCommit H = some c ∧ c.validateBasic = .ok () ∧
      vals.verifyCommit H C chainID id height c = .ok () ∧
      (∃ vs', commitToVoteSet H C chainID c vals = some vs' ∧ vs'.makeCommit H = some c) ∧
      ∃ e tallied, vs.votesByBlock id.key = some e ∧
        vals.talliedVotingPower H C chainID c 0 c.signatures 0 = .ok tallied ∧
        tallied.toInt = ∑ i ∈ vs.votersFor id, vals.power i ∧
        tallied.toInt = e.sum.toInt + ∑ i ∈ vs.uncounted id, vals.power i := by
  intro vs
  have hstart : Inv H C (Vote.Basic H) (new chainID height round precommitType vals) :=
    inv_new chainID height round precommitType vals
  obtain ⟨hinv, hextends⟩ := run_inv hstart hvals calls
    fun v hv => basic_of_validateBasic (hcalls v hv)
  have hscope := hextends.scope_eq
  have hset : vs.valSet = vals := congrArg VoteScope.valSet hscope
  have hchain : vs.chainID = chainID := congrArg VoteScope.chainID hscope
  have hheight' : vs.height = height := congrArg VoteScope.height hscope
  have hcommitted : Committed H C vs id :=
    ⟨hinv, hset.symm ▸ hvals, congrArg VoteScope.signedMsgType hscope, hheight'.symm ▸ hheight,
      hmaj, hid⟩
  have hverify := hcommitted.verifyCommit_eq_ok
  have hback := hcommitted.commitToVoteSet_eq
  obtain ⟨e, he, -⟩ := hinv.maj id hmaj
  obtain ⟨tallied, htallied, hvalue⟩ := hcommitted.tallied_eq
  have hsum := hcommitted.sum_votersFor he
  rw [← hvalue] at hsum
  rw [hset, hchain] at hverify hback htallied
  rw [hheight'] at hverify
  rw [hset] at hvalue hsum
  exact ⟨vs.commitFor id, hcommitted.makeCommit_eq, hcommitted.validateBasic_eq_ok, hverify, hback,
    e, tallied, he, htallied, hvalue, hsum⟩

end VoteSet

theorem commit_round_trip_sample :
    samplePrecommits.maj23 = some (sampleBlockID 7) ∧
    ∃ c, samplePrecommits.makeCommit (polynomial 1) = some c ∧
      sampleValidators.verifyCommit (polynomial 1) sampleCrypto [] (sampleBlockID 7) 1
        c = .ok () := by
  have hmaj : samplePrecommits.maj23 = some (sampleBlockID 7) := by decide +kernel
  have hcalls : ∀ v, .addVote (some v) ∈ sampleCalls →
      v.validateBasic (polynomial 1) = .ok () := by
    intro v hv
    simp only [sampleCalls, mem_cons, not_mem_nil, or_false,
      VoteSet.Call.addVote.injEq, some.injEq] at hv
    rcases hv with rfl | rfl | rfl | rfl | rfl <;> rfl
  obtain ⟨c, hc, -, hverify, -⟩ := commit_round_trip sampleValidators_admissible []
    (by decide : (1 : Int64) ≠ 0) 0 sampleCalls hcalls hmaj (by decide)
  exact ⟨hmaj, c, hc, hverify⟩

/-- The fourth validator precommits a block whose part set header is missing. -/
def incompletePrecommits : VoteSet :=
  (new [] 1 0 precommitType sampleValidators).run (polynomial 1) sampleCrypto
    [.addVote (some (samplePrecommit 3 4 ⟨[9], ⟨0, []⟩⟩)),
      .addVote (some (samplePrecommit 0 1 (sampleBlockID 7))),
      .addVote (some (samplePrecommit 1 2 (sampleBlockID 7))),
      .addVote (some (samplePrecommit 2 3 (sampleBlockID 7)))]

/-- Of the votes in `samplePrecommits`, all of which pass `ValidateBasic`, the last replaces another
one and is counted by `VerifyCommit` but not in the entry. A set with an invalid vote may have a
majority and no commit. -/
theorem makeCommit_beyond_entry :
    (samplePrecommits.votesByBlock (sampleBlockID 7).key).map BlockVotes.sum = some 3 ∧
    ((samplePrecommits.makeCommit (polynomial 1)).bind fun c =>
      (sampleValidators.talliedVotingPower (polynomial 1) sampleCrypto [] c 0
        c.signatures 0).toOption) = some 4 ∧
    incompletePrecommits.maj23 = some (sampleBlockID 7) ∧
    incompletePrecommits.makeCommit (polynomial 1) = none := by
  decide +kernel

end NimbleChain.Tendermint
