import NimbleChain.Tendermint.Commit
import NimbleChain.Tendermint.VoteSetInvariant

/-!
# The order of votes

Where each validator has one vote, a vote set does not depend on the order in which the votes are
added, on repetitions or on the claims of peers. Validators with less than a third of the power that
vote for several blocks cannot make it a majority for one block in one order and for another block
in another order.
-/

namespace NimbleChain.Tendermint

open Common List Option Check

variable {H : HashFunction} {C : Crypto}

/-! ### Checked votes -/

variable {id : BlockID}

namespace BlockID

theorem isZero_iff : id.isZero = true ↔ id = .empty := by
  obtain ⟨hash, total, psh⟩ := id
  simp [isZero, PartSetHeader.isZero, empty]

/-- A block identifier that a vote may be for. -/
def WellFormed (H : HashFunction) (id : BlockID) : Prop :=
  id.isComplete H = true ∨ id = .empty

theorem isComplete_iff : id.isComplete H = true ↔
    id.hash.length = H.size ∧ 0 < id.partSetHeader.total ∧
      id.partSetHeader.hash.length = H.size := by
  simp [isComplete]

theorem empty_not_complete : ¬ BlockID.empty.isComplete H = true := by
  rw [isComplete_iff]
  rintro ⟨-, hpos, -⟩
  exact absurd hpos (by decide)

theorem ne_empty (h : id.isComplete H = true) : id ≠ .empty := by
  rintro rfl
  exact empty_not_complete h

theorem key_ne_empty_key (h : id.isComplete H = true) : id.key ≠ empty.key := by
  intro hkey
  have hempty : empty.key = [] := by decide
  rw [hempty, key, append_eq_nil_iff] at hkey
  have hmarshal : id.partSetHeader.marshal = PartSetHeader.marshal ⟨0, []⟩ := hkey.2
  rw [PartSetHeader.marshal_inj] at hmarshal
  have hpos := (isComplete_iff.mp h).2.1
  rw [hmarshal] at hpos
  exact absurd hpos (by decide)

/-- Keys tell well-formed identifiers apart. -/
theorem key_inj {a b : BlockID} (ha : a.WellFormed H) (hb : b.WellFormed H) (h : a.key = b.key) :
    a = b := by
  rcases ha with ha | rfl <;> rcases hb with hb | rfl
  · have hlength : a.hash.length = b.hash.length :=
      (isComplete_iff.mp ha).1.trans (isComplete_iff.mp hb).1.symm
    obtain ⟨hhash, hmarshal⟩ := append_inj h hlength
    cases a
    cases b
    simp_all
  · exact absurd h (key_ne_empty_key ha)
  · exact absurd h.symm (key_ne_empty_key hb)
  · rfl

end BlockID

/-- What `Vote.ValidateBasic` checks. -/
structure Vote.Basic (H : HashFunction) (v : Vote) : Prop where
  height_nonneg : ¬ v.height < 0
  round_nonneg : ¬ v.round < 0
  blockID : v.blockID.WellFormed H
  address : v.validatorAddress.length = addressSize
  signature_ne : v.signature ≠ []
  signature_le : ¬ v.signature.length > maxSignatureSize

variable {v : Vote}

theorem Vote.basic_of_validateBasic (h : v.validateBasic H = .ok ()) : v.Basic H := by
  simp only [validateBasic, seq_eq_ok, failIf_eq_ok, within_eq_ok] at h
  obtain ⟨-, hheight, hround, -, hblock, haddress, -, hsignature, hsize⟩ := h
  refine ⟨hheight, hround, ?_, not_not.mp haddress, hsignature, hsize⟩
  by_contra hno
  rw [BlockID.WellFormed, not_or, ← BlockID.isZero_iff] at hno
  exact hblock (by simp [hno.1, hno.2])

/-! ### Votes of which each validator has one -/

/-- The votes determine the marks and the sum. -/
theorem Tallied.eq_of_join_eq {vals : ValidatorSet} {votes votes' : List (Option Vote)}
    {bits bits' : List Bool} {sum sum' : Int64} (h : Tallied vals votes bits sum)
    (h' : Tallied vals votes' bits' sum') (hsame : ∀ i : Nat, votes[i]?.join = votes'[i]?.join) :
    votes = votes' ∧ bits = bits' ∧ sum = sum' := by
  have hvotes : votes = votes' := by
    apply ext_getElem (h.votes_length.trans h'.votes_length.symm)
    intro i hi hi'
    simpa [hi, hi'] using hsame i
  subst hvotes
  have hbits : bits = bits' := by
    apply ext_getElem (h.bits_length.trans h'.bits_length.symm)
    intro i hi hi'
    have hiff := (h.bit_iff i).trans (h'.bit_iff i).symm
    simpa [hi, hi', ← Bool.eq_iff_iff] using hiff
  subst hbits
  exact ⟨rfl, rfl, Int64.toInt_inj.mp (h.sum_eq.trans h'.sum_eq.symm)⟩

/-- The vote set that votes are added to. -/
def VoteScope.fresh (scope : VoteScope) : VoteSet :=
  .new scope.chainID scope.height scope.round scope.signedMsgType scope.valSet

namespace VoteSet

/-- The votes of the calls pass `ValidateBasic` and the checks of the vote set, and a validator has
one vote. -/
structure OneVoteEach (H : HashFunction) (C : Crypto) (scope : VoteScope) (calls : List Call) :
    Prop where
  basic : ∀ v, .addVote (some v) ∈ calls → v.Basic H
  accepted : ∀ v, .addVote (some v) ∈ calls → ∃ val, Accepted H C scope v val
  unique : ∀ v w, .addVote (some v) ∈ calls → .addVote (some w) ∈ calls → v.index = w.index → v = w

theorem OneVoteEach.mono {scope : VoteScope} {calls calls' : List Call}
    (h : OneVoteEach H C scope calls)
    (hmem : ∀ v, .addVote (some v) ∈ calls' → .addVote (some v) ∈ calls) :
    OneVoteEach H C scope calls' where
  basic v hv := h.basic v (hmem v hv)
  accepted v hv := h.accepted v (hmem v hv)
  unique v w hv hw := h.unique v w (hmem v hv) (hmem w hw)

variable {given given' : Vote → Prop} {vs vs' : VoteSet} {id id' : BlockID}

theorem lt_of_voteAt {i : Nat} {v : Vote} (h : vs.voteAt i = some v) : i < vs.votes.length := by
  by_contra hge
  simp [voteAt, getElem?_eq_none (Nat.le_of_not_lt hge)] at h

/-- A vote is added and recorded if its validator has none. -/
theorem addVote_new (hinv : Inv H C given vs) (hvals : vs.valSet.Admissible) (hbasic : v.Basic H)
    {val : Validator} (haccepted : Accepted H C vs.scope v val)
    (hnew : ∀ w, given w → w.index ≠ v.index) :
    ∃ vs', (addVote H C (some v)).exec vs = (.ok (true, none), vs') ∧
      vs'.recordedAt v.blockID.key v.index = some v := by
  have haddress : val.address ≠ [] := by
    intro hempty
    have hlength := hbasic.address
    rw [haccepted.address_eq, hempty] at hlength
    cases hlength
  have hnone : vs.voteAt v.index = none := by
    refine eq_none_iff_forall_ne_some.mpr fun w hw => ?_
    obtain ⟨-, hgiven, hindex⟩ := hinv.vote _ w hw
    exact hnew w hgiven hindex
  have hget : vs.getVote v.index v.blockID.key = none := by
    unfold getVote
    rw [hnone, filter_none]
    refine eq_none_iff_forall_ne_some.mpr fun w hw => ?_
    obtain ⟨e, he, hw⟩ := bind_eq_some_iff.mp hw
    have hsome := (hinv.entryVote _ e _ w he hw).2.2
    rw [hnone] at hsome
    cases hsome
  obtain ⟨total, htotal, -⟩ := quorum_eq hvals
  obtain ⟨out, vs', hexec, rfl, hadds⟩ :=
    Program.exists_of_wp (addVote_first H C htotal haccepted haddress hnone hget)
  exact ⟨vs', hexec, (extends_adds hinv haccepted hget hadds).2 rfl⟩

section Runs

variable {scope : VoteScope} (hvals : scope.valSet.Admissible) {calls : List Call}

include hvals

theorem run_fresh (calls : List Call) :
    Inv H C (fun v => .addVote (some v) ∈ calls) (scope.fresh.run H C calls) ∧
      (scope.fresh.run H C calls).scope = scope := by
  have hstart : Inv H C (fun v => .addVote (some v) ∈ calls) scope.fresh := inv_new ..
  obtain ⟨hinv, hextends⟩ := run_inv hstart hvals calls fun _ hv => hv
  exact ⟨hinv, hextends.scope_eq⟩

section

variable (h : OneVoteEach H C scope calls)

include h

/-- Every vote of the calls is recorded for its block. -/
theorem recordedAt_run (hv : .addVote (some v) ∈ calls) :
    (scope.fresh.run H C calls).recordedAt v.blockID.key v.index = some v := by
  induction calls using List.reverseRecOn with
  | nil => cases hv
  | append_singleton front c ih =>
    obtain ⟨hinv, hscope⟩ := run_fresh (H := H) (C := C) hvals front
    have hvals' : (scope.fresh.run H C front).scope.valSet.Admissible := by rwa [hscope]
    rw [run, foldl_append]
    change ((scope.fresh.run H C front).call H C c).recordedAt _ _ = _
    by_cases hmem : .addVote (some v) ∈ front
    · have hall : Inv H C (fun _ => True) _ := hinv.mono fun _ _ => trivial
      have hfront := h.mono fun w hw => mem_append_left [c] hw
      exact (call_inv hall hvals' c fun _ _ => trivial).2.recorded _ _ _ (ih hfront hmem)
    · obtain rfl : .addVote (some v) = c := by simpa [hmem] using hv
      obtain ⟨val, haccepted⟩ := h.accepted v hv
      rw [← hscope] at haccepted
      have hnew : ∀ w, .addVote (some w) ∈ front → w.index ≠ v.index := by
        intro w hw hindex
        exact hmem (h.unique w v (mem_append_left _ hw) hv hindex ▸ hw)
      obtain ⟨vs', hexec, hrecorded⟩ := addVote_new hinv hvals' (h.basic v hv) haccepted hnew
      rw [call, hexec]
      exact hrecorded

theorem recordedAt_run_iff {key : Bytes} {i : Nat} :
    (scope.fresh.run H C calls).recordedAt key i = some v ↔
      .addVote (some v) ∈ calls ∧ v.blockID.key = key ∧ v.index = i := by
  constructor
  · intro hv
    obtain ⟨e, he, hv⟩ := bind_eq_some_iff.mp hv
    obtain ⟨⟨-, hmem, hindex⟩, hkey, -⟩ := (run_fresh hvals calls).1.entryVote key e i v he hv
    exact ⟨hmem, hkey, hindex⟩
  · rintro ⟨hmem, rfl, rfl⟩
    exact recordedAt_run hvals h hmem

theorem voteAt_run_iff {i : Nat} :
    (scope.fresh.run H C calls).voteAt i = some v ↔
      .addVote (some v) ∈ calls ∧ v.index = i := by
  obtain ⟨hinv, -⟩ := run_fresh (H := H) (C := C) hvals calls
  constructor
  · intro hv
    obtain ⟨-, hmem, hindex⟩ := hinv.vote i v hv
    exact ⟨hmem, hindex⟩
  · rintro ⟨hmem, rfl⟩
    obtain ⟨e, he, hv⟩ := bind_eq_some_iff.mp (recordedAt_run hvals h hmem)
    obtain ⟨w, hw⟩ := isSome_iff_exists.mp (hinv.entryVote _ e _ v he hv).2.2
    obtain ⟨-, hmem', hindex⟩ := hinv.vote _ w hw
    rw [hw, h.unique w v hmem' hmem hindex]

end

end Runs

/-! ### Majorities of two vote sets -/

section Majorities

variable (hinv : Inv H C given vs) (hinv' : Inv H C given' vs') (hset : vs'.valSet = vs.valSet)
  (hmaj : vs.maj23 = some id)

include hinv hinv' hset hmaj

/-- A set that has recorded the votes of a majority has a majority. -/
theorem exists_maj23
    (hrecorded : ∀ i v, vs.recordedAt id.key i = some v → vs'.recordedAt id.key i = some v) :
    ∃ id', vs'.maj23 = some id' := by
  obtain ⟨e, he, hquorum, -⟩ := hinv.maj id hmaj
  have hsum := (hinv.entry _ e he).sum_eq
  have hentry : ∀ e', vs'.votesByBlock id.key = some e' → vs'.quorum ≤ e'.sum.toInt := by
    intro e' he'
    have hsubset : marked e.bitArray ⊆ marked e'.bitArray := by
      intro i hi
      obtain ⟨v, hv⟩ := (hinv.entry _ e he).mem_marked_iff.mp hi
      have hget := hrecorded i v (by rwa [recordedAt, he, bind_some])
      rw [recordedAt, he', bind_some] at hget
      exact (hinv'.entry _ e' he').mem_marked_iff.mpr ⟨v, hget⟩
    have hle := Finset.sum_le_sum_of_subset (f := vs.valSet.power) hsubset
    have hsum' := (hinv'.entry _ e' he').sum_eq
    unfold quorum at hquorum ⊢
    rw [hset] at hsum' ⊢
    omega
  refine ne_none_iff_exists'.mp fun hnone => ?_
  cases he' : vs'.votesByBlock id.key with
  | some e' =>
    have hbelow := hinv'.noMaj hnone _ e' he'
    have hreached := hentry e' he'
    omega
  | none =>
    have hempty : marked e.bitArray = ∅ := by
      refine Finset.eq_empty_of_forall_notMem fun i hi => ?_
      obtain ⟨v, hv⟩ := (hinv.entry _ e he).mem_marked_iff.mp hi
      have hget := hrecorded i v (by rwa [recordedAt, he, bind_some])
      rw [recordedAt, he'] at hget
      cases hget
    rw [hempty, Finset.sum_empty] at hsum
    unfold quorum at hquorum
    omega

/-- Two sets in which validators with two thirds of the power have the same votes do not have
majorities for two blocks. -/
theorem key_eq_of_maj23 (hmaj' : vs'.maj23 = some id') {equivocators : Finset Nat}
    (hpower : 3 * ∑ i ∈ equivocators, vs.valSet.power i ≤ vs.valSet.total)
    (hsame : ∀ i v v', i ∉ equivocators → vs.voteAt i = some v → vs'.voteAt i = some v' →
      v.blockID = v'.blockID) : id.key = id'.key := by
  obtain ⟨e, he, hquorum, hcopied⟩ := hinv.maj id hmaj
  obtain ⟨e', he', hquorum', hcopied'⟩ := hinv'.maj id' hmaj'
  have htallied := hinv.entry _ e he
  have htallied' := hinv'.entry _ e' he'
  by_contra hne
  have hsubset : marked e.bitArray ∩ marked e'.bitArray ⊆ equivocators := by
    intro i hi
    by_contra hcorrect
    obtain ⟨v, hv⟩ := htallied.mem_marked_iff.mp (Finset.mem_inter.mp hi).1
    obtain ⟨v', hv'⟩ := htallied'.mem_marked_iff.mp (Finset.mem_inter.mp hi).2
    have hblock := hsame i v v' hcorrect (hcopied i v hv) (hcopied' i v' hv')
    obtain ⟨-, hkey, -⟩ := hinv.entryVote _ e i v he hv
    obtain ⟨-, hkey', -⟩ := hinv'.entryVote _ e' i v' he' hv'
    exact hne (by rw [← hkey, ← hkey', hblock])
  have hsum := htallied.sum_eq
  have hsum' := htallied'.sum_eq
  have hsubset' := htallied'.marked_subset
  unfold quorum at hquorum hquorum'
  rw [hset] at hsum' hquorum' hsubset'
  have hunion : ∑ i ∈ marked e.bitArray ∪ marked e'.bitArray, vs.valSet.power i ≤ vs.valSet.total :=
    ValidatorSet.Admissible.sum_le_total (Finset.union_subset htallied.marked_subset hsubset')
  have hinter := Finset.sum_le_sum_of_subset (f := vs.valSet.power) hsubset
  have hboth : _ = ∑ i ∈ marked e.bitArray, vs.valSet.power i +
      ∑ i ∈ marked e'.bitArray, vs.valSet.power i := Finset.sum_union_inter
  omega

end Majorities

section Orders

variable {scope : VoteScope} (hvals : scope.valSet.Admissible) {calls calls' : List Call}

include hvals

/-- Majorities are for blocks of votes, which their keys tell apart. -/
theorem maj23_unique {equivocators : Finset Nat}
    (hpower : 3 * ∑ i ∈ equivocators, scope.valSet.power i ≤ scope.valSet.total)
    (hbasic : ∀ v, .addVote (some v) ∈ calls ++ calls' → v.Basic H)
    (hsame : ∀ v w, .addVote (some v) ∈ calls → .addVote (some w) ∈ calls' → v.index = w.index →
      v.index ∉ equivocators → v.blockID = w.blockID)
    (hmaj : (scope.fresh.run H C calls).maj23 = some id)
    (hmaj' : (scope.fresh.run H C calls').maj23 = some id') : id = id' := by
  obtain ⟨hinv, hscope⟩ := run_fresh (H := H) (C := C) hvals calls
  obtain ⟨hinv', hscope'⟩ := run_fresh (H := H) (C := C) hvals calls'
  have hset := congrArg VoteScope.valSet hscope
  rw [← hset] at hpower
  have hkey := key_eq_of_maj23 hinv hinv'
    (congrArg VoteScope.valSet (hscope'.trans hscope.symm)) hmaj hmaj' hpower ?_
  · obtain ⟨v, hv, rfl⟩ := hinv.majVote id hmaj
    obtain ⟨w, hw, rfl⟩ := hinv'.majVote id' hmaj'
    exact BlockID.key_inj (hbasic v (by simp [hv])).blockID (hbasic w (by simp [hw])).blockID hkey
  · intro i v w hi hv hw
    obtain ⟨-, hmem, rfl⟩ := hinv.vote i v hv
    obtain ⟨-, hmem', hindex⟩ := hinv'.vote _ w hw
    exact hsame v w hmem hmem' hindex.symm hi

variable (hone : OneVoteEach H C scope calls)
  (hsame : ∀ v, .addVote (some v) ∈ calls ↔ .addVote (some v) ∈ calls')

include hone hsame

theorem recordedAt_eq (key : Bytes) (i : Nat) :
    (scope.fresh.run H C calls).recordedAt key i =
      (scope.fresh.run H C calls').recordedAt key i := by
  ext v
  rw [recordedAt_run_iff hvals hone, recordedAt_run_iff hvals (hone.mono fun v => (hsame v).mpr),
    hsame]

theorem maj23_of_same (hmaj : (scope.fresh.run H C calls).maj23 = some id) :
    (scope.fresh.run H C calls').maj23 = some id := by
  obtain ⟨hinv, hscope⟩ := run_fresh (H := H) (C := C) hvals calls
  obtain ⟨hinv', hscope'⟩ := run_fresh (H := H) (C := C) hvals calls'
  obtain ⟨id', hmaj'⟩ := exists_maj23 hinv hinv'
    (congrArg VoteScope.valSet (hscope'.trans hscope.symm)) hmaj
    fun i v hv => (recordedAt_eq hvals hone hsame _ _).symm.trans hv
  have hnone : 3 * ∑ i ∈ ∅, scope.valSet.power i ≤ scope.valSet.total := by simp
  rw [hmaj', maj23_unique hvals hnone ?_ ?_ hmaj hmaj']
  · intro v hv
    exact hone.basic v ((mem_append.mp hv).elim (fun h => h) (hsame v).mpr)
  · intro v w hv hw hindex _
    rw [hone.unique v w hv ((hsame w).mpr hw) hindex]

end Orders

/-- `BitArrayByBlockID`. -/
def bitArrayByBlockID (vs : VoteSet) (blockID : BlockID) : Option (List Bool) :=
  (vs.votesByBlock blockID.key).map BlockVotes.bitArray

/-- Valid votes, one of each validator, give the same majority, sum, marks and commit in any order,
however often they are repeated and whatever peers claim; only for a block without votes the claims
decide whether there is an empty entry. If validators that vote for several blocks have less than a
third of the power, there are no majorities for two blocks. -/
theorem vote_order_irrelevant {scope : VoteScope} (hvals : scope.valSet.Admissible)
    (calls calls' : List Call) :
    let vs := scope.fresh.run H C calls
    let vs' := scope.fresh.run H C calls'
    (OneVoteEach H C scope calls →
      (∀ v, .addVote (some v) ∈ calls ↔ .addVote (some v) ∈ calls') →
      vs.maj23 = vs'.maj23 ∧ vs.sum = vs'.sum ∧ vs.votes = vs'.votes ∧
      vs.votesBitArray = vs'.votesBitArray ∧
      (∀ v, .addVote (some v) ∈ calls →
        vs.bitArrayByBlockID v.blockID = vs'.bitArrayByBlockID v.blockID) ∧
      (∀ key i, vs.recordedAt key i = vs'.recordedAt key i) ∧
      vs.makeCommit H = vs'.makeCommit H) ∧
    ∀ equivocators : Finset Nat,
      3 * ∑ i ∈ equivocators, scope.valSet.power i < scope.valSet.total →
      (∀ v, .addVote (some v) ∈ calls ++ calls' → v.Basic H) →
      (∀ v w, .addVote (some v) ∈ calls → .addVote (some w) ∈ calls' → v.index = w.index →
        v.index ∉ equivocators → v.blockID = w.blockID) →
      ∀ id id', vs.maj23 = some id → vs'.maj23 = some id' → id = id' := by
  intro vs vs'
  refine ⟨?_, fun equivocators hpower hbasic hsame id id' =>
    maj23_unique hvals (Nat.le_of_lt hpower) hbasic hsame⟩
  intro hone hsame
  obtain ⟨hinv, hscope⟩ := run_fresh (H := H) (C := C) hvals calls
  obtain ⟨hinv', hscope'⟩ := run_fresh (H := H) (C := C) hvals calls'
  have hone' := hone.mono fun v => (hsame v).mpr
  have heq : vs'.scope = vs.scope := hscope'.trans hscope.symm
  have hset : vs'.valSet = vs.valSet := congrArg VoteScope.valSet heq
  have hrecorded := recordedAt_eq hvals hone hsame
  have hmaj : vs.maj23 = vs'.maj23 := by
    ext id
    exact ⟨maj23_of_same hvals hone hsame, maj23_of_same hvals hone' fun v => (hsame v).symm⟩
  have hvotes : ∀ i, vs.voteAt i = vs'.voteAt i := by
    intro i
    ext v
    rw [voteAt_run_iff hvals hone, voteAt_run_iff hvals hone', hsame]
  obtain ⟨hlist, hbits, hsum⟩ : vs.votes = vs'.votes ∧ _ :=
    hinv.votes.eq_of_join_eq (hset ▸ hinv'.votes) hvotes
  refine ⟨hmaj, hsum, hlist, hbits, ?_, hrecorded, ?_⟩
  · intro v hv
    obtain ⟨e, he, -⟩ := bind_eq_some_iff.mp (recordedAt_run hvals hone hv)
    obtain ⟨e', he', -⟩ := bind_eq_some_iff.mp (recordedAt_run hvals hone' ((hsame v).mp hv))
    have hentries : ∀ i, e.getByIndex i = e'.getByIndex i := by
      intro i
      simpa [recordedAt, he, he'] using hrecorded v.blockID.key i
    obtain ⟨-, hmarks, -⟩ :=
      (hinv.entry _ e he).eq_of_join_eq (hset ▸ hinv'.entry _ e' he') hentries
    rw [bitArrayByBlockID, bitArrayByBlockID, he, he', map_some, map_some, hmarks]
  · obtain ⟨-, hheight, hround, htype, -⟩ := VoteScope.mk.inj heq
    simp only [makeCommit, hmaj, hlist, hheight, hround, htype]

/-- What the precommits of the sample are checked against. -/
def sampleScope : VoteScope :=
  ⟨[], 1, 0, precommitType, sampleValidators⟩

/-- The votes of `sampleCalls` before the conflicting one, in the opposite order. -/
theorem vote_order_irrelevant_sample :
    (sampleScope.fresh.run (HashFunction.polynomial 1) sampleCrypto
      (sampleCalls.take 4).reverse).maj23 = some (sampleBlockID 7) := by
  have hvals : sampleScope.valSet.Admissible := sampleValidators_admissible
  obtain ⟨hsame, -⟩ := vote_order_irrelevant (H := HashFunction.polynomial 1) (C := sampleCrypto)
    hvals (sampleCalls.take 4) (sampleCalls.take 4).reverse
  have hcalls : ∀ v, .addVote (some v) ∈ sampleCalls.take 4 →
      v = samplePrecommit 3 4 (sampleBlockID 8) ∨ v = samplePrecommit 0 1 (sampleBlockID 7) ∨
      v = samplePrecommit 1 2 (sampleBlockID 7) ∨ v = samplePrecommit 2 3 (sampleBlockID 7) := by
    intro v hv
    simpa [sampleCalls] using hv
  rw [← (hsame ⟨?_, ?_, ?_⟩ (by simp)).1]
  · decide +kernel
  · intro v hv
    apply Vote.basic_of_validateBasic
    rcases hcalls v hv with rfl | rfl | rfl | rfl <;> rfl
  · intro v hv
    rcases hcalls v hv with rfl | rfl | rfl | rfl <;> exact ⟨_, rfl, rfl, rfl, rfl, rfl, rfl⟩
  · intro v w hv hw
    rcases hcalls v hv with rfl | rfl | rfl | rfl <;>
      rcases hcalls w hw with rfl | rfl | rfl | rfl <;> decide

end VoteSet

end NimbleChain.Tendermint
