import NimbleChain.Tendermint.VoteSet

/-!
# The invariant of vote sets

What a call of `AddVote` can do to a vote set is stated once; the invariant follows for every
sequence of calls.
-/

namespace NimbleChain.Tendermint

open Common Program List Option VoteSet BlockVotes

variable (H : HashFunction) (C : Crypto)

/-! ### Votes, marks and sums -/

/-- The marked positions of a bit array. -/
def marked (bits : List Bool) : Finset Nat :=
  (Finset.range bits.length).filter fun i => bits[i]? = some true

variable {bits : List Bool} {i : Nat}

theorem mem_marked : i ∈ marked bits ↔ bits[i]? = some true := by
  rw [marked, Finset.mem_filter, Finset.mem_range]
  refine ⟨fun h => h.2, fun h => ⟨?_, h⟩⟩
  exact (List.getElem_of_getElem? h).1

theorem marked_set (hi : i < bits.length) : marked (bits.set i true) = insert i (marked bits) := by
  ext j
  rw [mem_marked, Finset.mem_insert, mem_marked, getElem?_set]
  split
  · rename_i hij
    subst hij
    simp [hi]
  · rename_i hij
    simp [Ne.symm hij]

namespace BlockVotes

variable {entry : BlockVotes} {v : Vote}

@[simp] theorem getByIndex_new (peerMaj23 : Bool) (n j : Nat) :
    (new peerMaj23 n).getByIndex j = none := by
  simp only [getByIndex, new, getElem?_replicate]
  split <;> rfl

theorem addVerifiedVote_of_none (hnone : entry.getByIndex v.index = none) (power : Int64) :
    entry.addVerifiedVote v power = { entry with
      bitArray := entry.bitArray.set v.index true
      votes := entry.votes.set v.index (some v)
      sum := entry.sum + power } := by
  simp only [addVerifiedVote, hnone]

theorem getByIndex_addVerifiedVote (hi : v.index < entry.votes.length)
    (hnone : entry.getByIndex v.index = none) (power : Int64) (j : Nat) :
    (entry.addVerifiedVote v power).getByIndex j =
      if v.index = j then some v else entry.getByIndex j := by
  rw [addVerifiedVote_of_none hnone]
  simp only [getByIndex, getElem?_set]
  split
  · simp
  · rfl

end BlockVotes

/-- A list of votes with the positions that are taken and the power of their validators. -/
structure Tallied (vals : ValidatorSet) (votes : List (Option Vote)) (bits : List Bool)
    (sum : Int64) : Prop where
  votes_length : votes.length = vals.size
  bits_length : bits.length = vals.size
  bit_iff : ∀ i : Nat, bits[i]? = some true ↔ (votes[i]?.join).isSome
  sum_eq : sum.toInt = ∑ i ∈ marked bits, vals.power i

namespace Tallied

variable {vals : ValidatorSet} {votes : List (Option Vote)} {bits : List Bool} {sum : Int64}

theorem new (vals : ValidatorSet) :
    Tallied vals (replicate vals.size none) (replicate vals.size false) 0 where
  votes_length := length_replicate
  bits_length := length_replicate
  bit_iff i := by
    rw [getElem?_replicate, getElem?_replicate]
    split <;> simp
  sum_eq := by
    have hnone : marked (replicate vals.size false) = ∅ := by
      ext i
      rw [mem_marked, getElem?_replicate]
      split <;> simp
    rw [hnone]
    rfl

section

variable (h : Tallied vals votes bits sum)

include h

theorem marked_subset : marked bits ⊆ vals.indices := by
  intro i hi
  rw [mem_marked] at hi
  rw [ValidatorSet.indices, Finset.mem_range, ← h.bits_length]
  exact (List.getElem_of_getElem? hi).1

/-- The marked positions are those that have a vote. -/
theorem mem_marked_iff {i : Nat} : i ∈ marked bits ↔ ∃ v, votes[i]?.join = some v := by
  rw [mem_marked, h.bit_iff, Option.isSome_iff_exists]

theorem not_mem_marked {i : Nat} (hnone : votes[i]?.join = none) : i ∉ marked bits := by
  simp [h.mem_marked_iff, hnone]

/-- The vote of a validator that had none is marked and counted. -/
theorem add (hvals : vals.Admissible) {i : Nat} (hi : i < vals.size) (hnone : votes[i]?.join = none)
    {power : Int64} (hpower : power.toInt = vals.power i) (vote : Vote) :
    Tallied vals (votes.set i (some vote)) (bits.set i true) (sum + power) where
  votes_length := by rw [length_set, h.votes_length]
  bits_length := by rw [length_set, h.bits_length]
  bit_iff j := by
    rw [getElem?_set, getElem?_set, h.votes_length, h.bits_length]
    split
    · simp
    · exact h.bit_iff j
  sum_eq := by
    rw [marked_set (h.bits_length ▸ hi)]
    exact hvals.toInt_add_power h.sum_eq hpower (h.not_mem_marked hnone)
      (Finset.insert_subset (Finset.mem_range.mpr hi) h.marked_subset)

/-- Another vote in place of one that is there changes neither marks nor sum. -/
theorem replace {i : Nat} (hsome : (votes[i]?.join).isSome) (vote : Vote) :
    Tallied vals (votes.set i (some vote)) (bits.set i true) sum := by
  have hbit := (h.bit_iff i).mpr hsome
  obtain ⟨hi, hget⟩ := List.getElem_of_getElem? hbit
  have hsame : bits.set i true = bits := by
    rw [← hget]
    exact set_getElem_self hi
  rw [hsame]
  refine ⟨by rw [length_set, h.votes_length], h.bits_length, ?_, h.sum_eq⟩
  intro j
  rw [getElem?_set, h.votes_length, ← h.bits_length]
  split
  · rename_i hij
    subst hij
    simp [hi, hget]
  · exact h.bit_iff j

end

/-- A vote that an entry does not have is counted once. -/
theorem addVerifiedVote {entry : BlockVotes}
    (h : Tallied vals entry.votes entry.bitArray entry.sum) (hvals : vals.Admissible) {v : Vote}
    (hi : v.index < vals.size) (hnone : entry.getByIndex v.index = none) {power : Int64}
    (hpower : power.toInt = vals.power v.index) :
    Tallied vals (entry.addVerifiedVote v power).votes (entry.addVerifiedVote v power).bitArray
        (entry.addVerifiedVote v power).sum ∧
      (∀ j, (entry.addVerifiedVote v power).getByIndex j =
        if v.index = j then some v else entry.getByIndex j) ∧
      (entry.addVerifiedVote v power).sum.toInt = entry.sum.toInt + vals.power v.index := by
  have hadd := h.add hvals hi hnone hpower v
  refine ⟨?_, getByIndex_addVerifiedVote (h.votes_length ▸ hi) hnone power, ?_⟩
  · rw [addVerifiedVote_of_none hnone]
    exact hadd
  · rw [addVerifiedVote_of_none hnone]
    rw [hadd.sum_eq, marked_set (h.bits_length ▸ hi), Finset.sum_insert (h.not_mem_marked hnone),
      h.sum_eq]
    omega

end Tallied

theorem join_zipWith_or {new votes : List (Option Vote)} (hlength : new.length = votes.length)
    (i : Nat) :
    (zipWith Option.or new votes)[i]?.join = (new[i]?.join).or (votes[i]?.join) := by
  rw [getElem?_zipWith]
  rcases Nat.lt_or_ge i new.length with hi | hi
  · rw [getElem?_eq_getElem hi, getElem?_eq_getElem (hlength ▸ hi)]
    rfl
  · rw [getElem?_eq_none hi, getElem?_eq_none (hlength ▸ hi)]
    rfl

/-- Votes of validators that have voted may be copied over. -/
theorem Tallied.merge {vals : ValidatorSet} {votes new : List (Option Vote)} {sum : Int64}
    (h : Tallied vals votes bits sum) (hlength : new.length = vals.size)
    (hnew : ∀ i : Nat, (new[i]?.join).isSome → (votes[i]?.join).isSome) :
    Tallied vals (zipWith Option.or new votes) bits sum where
  votes_length := by rw [length_zipWith, hlength, h.votes_length, Nat.min_self]
  bits_length := h.bits_length
  bit_iff i := by
    rw [h.bit_iff, join_zipWith_or (hlength.trans h.votes_length.symm)]
    cases hget : new[i]?.join with
    | none => rfl
    | some v => simp_all
  sum_eq := h.sum_eq

/-! ### What a call does -/

/-- The fields of a vote set that never change. -/
structure VoteScope where
  chainID : Bytes
  height : Int64
  round : Int32
  signedMsgType : Int32
  valSet : ValidatorSet

/-- What the votes of a set are checked against. -/
def VoteSet.scope (vs : VoteSet) : VoteScope :=
  ⟨vs.chainID, vs.height, vs.round, vs.signedMsgType, vs.valSet⟩

/-- The checks that a vote has passed when it is added. -/
structure Accepted (scope : VoteScope) (vote : Vote) (val : Validator) : Prop where
  height_eq : vote.height = scope.height
  round_eq : vote.round = scope.round
  type_eq : vote.type = scope.signedMsgType
  lookup : scope.valSet.getByIndex vote.validatorIndex = .ok (some val)
  address_eq : vote.validatorAddress = val.address
  verified : vote.verify H C scope.chainID val.pubKey = .ok ()

namespace VoteSet

/-- Store a conflicting vote in `votes` if it is for the majority. -/
def replace (vs : VoteSet) (vote : Vote) : VoteSet :=
  if vs.maj23.map BlockID.key = some vote.blockID.key then vs.setVote vote else vs

/-- How a verified vote changes a vote set, and whether it counts as added: as the first vote of its
validator, as a conflicting vote for a block that a peer claims a majority for, or for the majority
in place of another one. -/
inductive Adds (vs : VoteSet) (vote : Vote) (power quorum : Int64) : VoteSet → Bool → Prop
  | first (hnone : vs.voteAt vote.index = none) :
    Adds vs vote power quorum
      ((vs.addFirst vote power).tally
        ((vs.votesByBlock vote.blockID.key).getD (BlockVotes.new false vs.valSet.size)) vote
        vote.blockID.key power quorum) true
  | tracked {existing : Vote} {entry : BlockVotes}
    (hsome : vs.voteAt vote.index = some existing)
    (hentry : vs.votesByBlock vote.blockID.key = some entry) :
    Adds vs vote power quorum
      ((vs.replace vote).tally entry vote vote.blockID.key power quorum) true
  | replaced {existing : Vote}
    (hsome : vs.voteAt vote.index = some existing) :
    Adds vs vote power quorum (vs.replace vote) false

/-- The number of votes that makes a majority. -/
def quorum (vs : VoteSet) : Nat :=
  vs.valSet.total * 2 / 3 + 1

variable {vs vs' : VoteSet} {total : Int64} {key : Bytes} {val : Validator} {entry : BlockVotes}
  {v : Vote}

/-- The quorum is computed without overflow. -/
theorem quorum_eq (hvals : vs.valSet.Admissible) :
    ∃ total, vs.valSet.totalVotingPower = .ok total ∧ (total * 2 / 3 + 1).toInt = vs.quorum := by
  obtain ⟨total, htotal, hvalue⟩ := hvals.twoThirds_eq
  have hle := hvals.total_le
  rw [toInt_maxTotalVotingPower] at hle
  have hone : (1 : Int64).toInt = 1 := rfl
  refine ⟨total, htotal, ?_⟩
  rw [Exact.toInt_add, hvalue, hone]
  · rfl
  · unfold Exact.Fits
    omega

theorem replace_eq (vs : VoteSet) (v : Vote) :
    (vs.replace v).scope = vs.scope ∧ (vs.replace v).votesByBlock = vs.votesByBlock ∧
      (vs.replace v).maj23 = vs.maj23 := by
  unfold replace
  split <;> exact ⟨rfl, rfl, rfl⟩

/-- A vote that `getVote` does not find is new for its validator and for its block. -/
theorem getVote_eq_none {i : Nat} (h : vs.getVote i key = none) :
    (∀ v, vs.voteAt i = some v → v.blockID.key ≠ key) ∧
      ∀ e, vs.votesByBlock key = some e → e.getByIndex i = none := by
  unfold getVote at h
  split at h
  · cases h
  · rename_i hfilter
    refine ⟨?_, ?_⟩
    · intro v hv hkey
      rw [hv, filter_some, decide_eq_true hkey, if_pos rfl] at hfilter
      cases hfilter
    · intro e he
      rw [he, bind_some] at h
      exact h

section

variable (htotal : vs.valSet.totalVotingPower = .ok total)

include htotal

/-- A vote is not tracked only if it conflicts. -/
theorem track_spec (vote : Vote) (power : Int64) (conflicting : Option Vote) :
    (track vote vote.blockID.key power conflicting).wp
      (fun out vs' => out.2 = conflicting ∧
        ((out.1 = false ∧ conflicting.isSome ∧ vs' = vs) ∨
          (out.1 = true ∧ ∃ entry,
            (vs.votesByBlock vote.blockID.key = some entry ∨
              conflicting = none ∧ vs.votesByBlock vote.blockID.key = none ∧
                entry = BlockVotes.new false vs.valSet.size) ∧
            vs' = vs.tally entry vote vote.blockID.key power (total * 2 / 3 + 1)))) never vs := by
  unfold track
  rw [wp_bind, wp_get]
  cases hentry : vs.votesByBlock vote.blockID.key with
  | none =>
    cases conflicting with
    | none => simp [htotal]
    | some existing => simp
  | some entry =>
    simp only [htotal]
    split
    · rename_i hnone
      split at hnone
      · rename_i hskip
        simp [hskip.1]
      · cases hnone
    · rename_i found hsome
      split at hsome
      · cases hsome
      · cases hsome
        simp

theorem addVerifiedVote_spec (vote : Vote) (power : Int64)
    (hnew : vs.getVote vote.index vote.blockID.key = none) :
    (addVerifiedVote vote vote.blockID.key power).wp
      (fun out vs' => Adds vs vote power (total * 2 / 3 + 1) vs' out.1 ∧
        (out.1 = false → out.2.isSome) ∧ (vs.voteAt vote.index = none → out = (true, none)))
      never vs := by
  unfold addVerifiedVote
  rw [wp_bind, wp_get]
  cases hvote : vs.voteAt vote.index with
  | none =>
    have htotal' : (vs.addFirst vote power).valSet.totalVotingPower = .ok total := htotal
    refine wp_imp (track_spec htotal' vote power none) ?_
    rintro ⟨added, conflicting⟩ vs' ⟨hconflict, ⟨-, hsome, -⟩ | ⟨hadded, entry, hentry, rfl⟩⟩
    · cases hsome
    · have hentry : entry = (vs.votesByBlock vote.blockID.key).getD
          (BlockVotes.new false vs.valSet.size) := by
        rcases hentry with hfound | ⟨-, hnone, rfl⟩
        · change vs.votesByBlock vote.blockID.key = some entry at hfound
          rw [hfound, getD_some]
        · change vs.votesByBlock vote.blockID.key = none at hnone
          rw [hnone]
          rfl
      obtain rfl : added = true := hadded
      obtain rfl : conflicting = none := hconflict
      rw [hentry]
      exact ⟨.first hvote, fun h => absurd h (by decide), fun _ => rfl⟩
  | some existing =>
    have hne : ¬ existing.blockID = vote.blockID := by
      intro heq
      exact (getVote_eq_none hnew).1 existing hvote (congrArg BlockID.key heq)
    simp only [hne, if_false]
    obtain ⟨hscope, hentries, -⟩ := vs.replace_eq vote
    have hreplace : ∀ Q E, (track vote vote.blockID.key power (some existing)).wp Q E
        (vs.replace vote) → (if vs.maj23.map BlockID.key = some vote.blockID.key then do
          set (vs.setVote vote)
          track vote vote.blockID.key power (some existing)
        else track vote vote.blockID.key power (some existing)).wp Q E vs := by
      intro Q E
      unfold replace
      split <;> simp
    apply hreplace
    have htotal' : (vs.replace vote).valSet.totalVotingPower = .ok total :=
      (congrArg (·.valSet.totalVotingPower) hscope).trans htotal
    refine wp_imp (track_spec htotal' vote power (some existing)) ?_
    rintro ⟨added, conflicting⟩ vs' ⟨hconflict, ⟨hadded, -, rfl⟩ | ⟨hadded, entry, hentry, rfl⟩⟩
    · obtain rfl : added = false := hadded
      obtain rfl : conflicting = some existing := hconflict
      exact ⟨.replaced hvote, fun _ => rfl, fun h => absurd h (by simp)⟩
    · rcases hentry with hfound | ⟨hnone, -⟩
      · obtain rfl : added = true := hadded
        exact ⟨.tracked hvote (hentries ▸ hfound), by simp, by simp⟩
      · cases hnone

/-- A call of `AddVote` changes nothing, or adds a vote that has passed all checks and was not
there. The only panics are those of callees, which change nothing. -/
theorem addVote_spec (vote : Option Vote) :
    (addVote H C vote).wp
      (fun out vs' => (vs' = vs ∧ out.1 = false) ∨
        ∃ v val, vote = some v ∧ Accepted H C vs.scope v val ∧
          vs.getVote v.index v.blockID.key = none ∧
          Adds vs v val.votingPower (total * 2 / 3 + 1) vs' out.1)
      (fun panic vs' => panic = .callee ∧ vs' = vs) vs := by
  unfold addVote
  rw [wp_bind, wp_get]
  cases vote with
  | none => simp
  | some v =>
    simp only [wp_ite, wp_pure, and_true, true_or, implies_true, true_and]
    intro hindex haddress hstep
    cases hlookup : vs.valSet.getByIndex v.validatorIndex with
    | error failure => simp
    | ok found =>
      cases found with
      | none => simp
      | some val =>
        simp only [wp_ite, wp_pure, and_true, true_or, implies_true, true_and]
        intro hval
        unfold addKnown
        rw [wp_bind, wp_get]
        cases hget : vs.getVote v.index v.blockID.key with
        | some existing => simp
        | none =>
          cases hverify : v.verify H C vs.chainID val.pubKey with
          | error failure => cases failure <;> simp
          | ok verified =>
            have haccepted : Accepted H C vs.scope v val := by
              refine ⟨?_, ?_, ?_, hlookup, ?_, hverify⟩
              all_goals
                by_contra hne
                simp_all [scope]
            refine wp_then (addVerifiedVote_spec htotal v val.votingPower hget) ?_
            rintro ⟨added, conflicting⟩ vs' ⟨hadds, hconflict, -⟩
            cases conflicting with
            | some existing => exact .inr ⟨v, val, rfl, haccepted, hget, hadds⟩
            | none =>
              cases added with
              | true => exact .inr ⟨v, val, rfl, haccepted, hget, hadds⟩
              | false => exact absurd (hconflict rfl) (by simp)

/-- The first vote of a validator is added if it passes the checks. -/
theorem addVote_first {vote : Vote} (haccepted : Accepted H C vs.scope vote val)
    (haddress : val.address ≠ []) (hnone : vs.voteAt vote.index = none)
    (hnew : vs.getVote vote.index vote.blockID.key = none) :
    (addVote H C (some vote)).wp
      (fun out vs' => out = (true, none) ∧
        Adds vs vote val.votingPower (total * 2 / 3 + 1) vs' true) never vs := by
  obtain ⟨hindex, -, -⟩ := ValidatorSet.getByIndex_eq_some haccepted.lookup
  have hzero : (0 : Int32).toInt = 0 := rfl
  have hindex : ¬ vote.validatorIndex < 0 := by
    rw [Int32.lt_iff_toInt_lt]
    omega
  have hstep : ¬ (vote.height ≠ vs.height ∨ vote.round ≠ vs.round ∨
      vote.type ≠ vs.signedMsgType) := by
    simp [haccepted.height_eq, haccepted.round_eq, haccepted.type_eq, scope]
  have hlookup : vs.valSet.getByIndex vote.validatorIndex = .ok (some val) := haccepted.lookup
  have hverify : vote.verify H C vs.chainID val.pubKey = .ok () := haccepted.verified
  unfold addVote
  rw [wp_bind, wp_get]
  simp only [hindex, haddress, hstep, hlookup, haccepted.address_eq, if_false, ne_eq,
    not_true_eq_false]
  unfold addKnown
  rw [wp_bind, wp_get]
  simp only [hnew, hverify]
  refine wp_then (addVerifiedVote_spec htotal vote val.votingPower hnew) ?_
  rintro out vs' ⟨hadds, -, hfirst⟩
  obtain rfl := hfirst hnone
  exact ⟨rfl, hadds⟩

end

/-! ### The invariant -/

/-- A vote that may be stored at a position: it has passed the checks, and meets a condition that
all votes of the calls meet. -/
def Storable (given : Vote → Prop) (scope : VoteScope) (v : Vote) (i : Nat) : Prop :=
  (∃ val, Accepted H C scope v val) ∧ given v ∧ v.index = i

/-- What holds of a vote set after any calls. -/
structure Inv (given : Vote → Prop) (vs : VoteSet) : Prop where
  votes : Tallied vs.valSet vs.votes vs.votesBitArray vs.sum
  vote : ∀ i v, vs.voteAt i = some v → Storable H C given vs.scope v i
  entry : ∀ key e, vs.votesByBlock key = some e → Tallied vs.valSet e.votes e.bitArray e.sum
  entryVote : ∀ key e i v, vs.votesByBlock key = some e → e.getByIndex i = some v →
    Storable H C given vs.scope v i ∧ v.blockID.key = key ∧ (vs.voteAt i).isSome
  maj : ∀ id, vs.maj23 = some id → ∃ e, vs.votesByBlock id.key = some e ∧
    vs.quorum ≤ e.sum.toInt ∧ ∀ i v, e.getByIndex i = some v → vs.voteAt i = some v
  majVote : ∀ id, vs.maj23 = some id → ∃ v, given v ∧ v.blockID = id
  noMaj : vs.maj23 = none → ∀ key e, vs.votesByBlock key = some e → e.sum.toInt < vs.quorum

variable {H C}
variable {given : Vote → Prop} {vs : VoteSet}

theorem inv_new (chainID : Bytes) (height : Int64) (round : Int32) (type : Int32)
    (vals : ValidatorSet) : Inv H C given (new chainID height round type vals) where
  votes := Tallied.new vals
  vote i v h := by
    simp only [voteAt, new, getElem?_replicate] at h
    split at h <;> cases h
  entry := nofun
  entryVote := nofun
  maj := nofun
  majVote := nofun
  noMaj := nofun

namespace Inv

theorem mono (hinv : Inv H C given vs) {given' : Vote → Prop} (h : ∀ v, given v → given' v) :
    Inv H C given' vs where
  votes := hinv.votes
  vote i v hv := ((hinv.vote i v hv).imp_right fun hrest => ⟨h v hrest.1, hrest.2⟩)
  entry := hinv.entry
  entryVote key e i v he hv :=
    (hinv.entryVote key e i v he hv).imp_left fun hstorable =>
      hstorable.imp_right fun hrest => ⟨h v hrest.1, hrest.2⟩
  maj := hinv.maj
  majVote id hid := (hinv.majVote id hid).imp fun v hv => ⟨h v hv.1, hv.2⟩
  noMaj := hinv.noMaj

variable {v existing : Vote} {entry : BlockVotes} {key : Bytes} {val : Validator}
  {power quorum : Int64}

theorem voteAt_setVote (hinv : Inv H C given vs) (hi : v.index < vs.valSet.size) (j : Nat) :
    (vs.setVote v).voteAt j = if v.index = j then some v else vs.voteAt j := by
  rw [← hinv.votes.votes_length] at hi
  simp only [voteAt, setVote, getElem?_set]
  split
  · simp
  · rfl

/-- A vote may be stored at its position if no vote for the majority was copied there. -/
theorem setVote (hinv : Inv H C given vs) (hv : Storable H C given vs.scope v v.index)
    (hi : v.index < vs.valSet.size) {sum : Int64}
    (hvotes : Tallied vs.valSet (vs.setVote v).votes (vs.setVote v).votesBitArray sum)
    (hmaj : ∀ id e, vs.maj23 = some id → vs.votesByBlock id.key = some e →
      (∀ w, e.getByIndex v.index = some w → vs.voteAt v.index = some w) →
      e.getByIndex v.index = none) : Inv H C given { vs.setVote v with sum := sum } where
  votes := hvotes
  vote j w hw := by
    change (vs.setVote v).voteAt j = some w at hw
    rw [hinv.voteAt_setVote hi] at hw
    split at hw
    · rename_i hij
      cases hw
      exact hij ▸ hv
    · exact hinv.vote j w hw
  entry := hinv.entry
  entryVote key e j w he hw := by
    obtain ⟨hstorable, hkey, hvoted⟩ := hinv.entryVote key e j w he hw
    refine ⟨hstorable, hkey, ?_⟩
    change ((vs.setVote v).voteAt j).isSome
    rw [hinv.voteAt_setVote hi]
    split
    · rfl
    · exact hvoted
  maj id hid := by
    obtain ⟨e, he, hquorum, hcopied⟩ := hinv.maj id hid
    refine ⟨e, he, hquorum, ?_⟩
    intro j w hw
    change (vs.setVote v).voteAt j = some w
    rw [hinv.voteAt_setVote hi, if_neg]
    · exact hcopied j w hw
    · rintro rfl
      rw [hmaj id e hid he (hcopied _)] at hw
      cases hw
  majVote := hinv.majVote
  noMaj := hinv.noMaj

/-- The first vote of a validator is stored and counted. -/
theorem addFirst (hinv : Inv H C given vs) (hvals : vs.valSet.Admissible)
    (hv : Storable H C given vs.scope v v.index) (hi : v.index < vs.valSet.size)
    (hnone : vs.voteAt v.index = none) (hpower : power.toInt = vs.valSet.power v.index) :
    Inv H C given (vs.addFirst v power) := by
  refine hinv.setVote hv hi (hinv.votes.add hvals hi hnone hpower v) ?_
  intro id e _ _ hcopied
  refine eq_none_iff_forall_ne_some.mpr fun w hw => ?_
  cases hnone.symm.trans (hcopied w hw)

/-- The entry for a block, which is new if the block was not tracked. -/
def IsEntry (vs : VoteSet) (key : Bytes) (entry : BlockVotes) : Prop :=
  vs.votesByBlock key = some entry ∨
    vs.votesByBlock key = none ∧ entry = BlockVotes.new false vs.valSet.size

theorem isEntry_getD (vs : VoteSet) (key : Bytes) :
    IsEntry vs key ((vs.votesByBlock key).getD (BlockVotes.new false vs.valSet.size)) := by
  unfold IsEntry
  cases vs.votesByBlock key with
  | none => exact .inr ⟨rfl, rfl⟩
  | some e => exact .inl rfl

theorem IsEntry.getByIndex_eq_none (h : IsEntry vs key entry) {i : Nat}
    (hnew : vs.getVote i key = none) : entry.getByIndex i = none := by
  rcases h with hfound | ⟨-, rfl⟩
  · exact (getVote_eq_none hnew).2 entry hfound
  · exact getByIndex_new ..

section

variable (hinv : Inv H C given vs)

include hinv

theorem isEntry_tallied (hentry : IsEntry vs key entry) :
    Tallied vs.valSet entry.votes entry.bitArray entry.sum := by
  rcases hentry with hfound | ⟨-, rfl⟩
  · exact hinv.entry key entry hfound
  · exact Tallied.new vs.valSet

theorem isEntry_vote (hentry : IsEntry vs key entry) {j : Nat} {w : Vote}
    (hw : entry.getByIndex j = some w) :
    Storable H C given vs.scope w j ∧ w.blockID.key = key ∧ (vs.voteAt j).isSome := by
  rcases hentry with hfound | ⟨-, rfl⟩
  · exact hinv.entryVote key entry j w hfound hw
  · rw [getByIndex_new] at hw
    cases hw

omit hinv in
theorem entry_of_setEntry {k : Bytes} {e : BlockVotes}
    (he : (vs.setEntry key entry).votesByBlock k = some e) :
    k = key ∧ e = entry ∨ vs.votesByBlock k = some e := by
  simp only [setEntry] at he
  split at he
  · exact .inl ⟨‹_›, (some.inj he).symm⟩
  · exact .inr he

/-- An entry may be replaced by one with valid votes whose sum fits the state of the majority. -/
theorem setEntry (htallied : Tallied vs.valSet entry.votes entry.bitArray entry.sum)
    (hvotes : ∀ j w, entry.getByIndex j = some w →
      Storable H C given vs.scope w j ∧ w.blockID.key = key ∧ (vs.voteAt j).isSome)
    (hmaj : ∀ id, vs.maj23 = some id → id.key = key → vs.quorum ≤ entry.sum.toInt ∧
      ∀ j w, entry.getByIndex j = some w → vs.voteAt j = some w)
    (hnoMaj : vs.maj23 = none → entry.sum.toInt < vs.quorum) :
    Inv H C given (vs.setEntry key entry) where
  votes := hinv.votes
  vote := hinv.vote
  entry k e he := by
    rcases entry_of_setEntry he with ⟨-, rfl⟩ | he
    · exact htallied
    · exact hinv.entry k e he
  entryVote k e j w he hw := by
    rcases entry_of_setEntry he with ⟨rfl, rfl⟩ | he
    · exact hvotes j w hw
    · exact hinv.entryVote k e j w he hw
  maj id hid := by
    by_cases hkey : id.key = key
    · exact ⟨entry, if_pos hkey, hmaj id hid hkey⟩
    · obtain ⟨e, he, hrest⟩ := hinv.maj id hid
      exact ⟨e, (if_neg hkey).trans he, hrest⟩
  majVote := hinv.majVote
  noMaj hnone k e he := by
    rcases entry_of_setEntry he with ⟨-, rfl⟩ | he
    · exact hnoMaj hnone
    · exact hinv.noMaj hnone k e he

/-- The entry of the block that reaches the quorum first is copied into `votes`. -/
theorem setMaj23 {id : BlockID} (htallied : Tallied vs.valSet entry.votes entry.bitArray entry.sum)
      (hvotes : ∀ j w, entry.getByIndex j = some w → Storable H C given vs.scope w j ∧ w.blockID.key
      = id.key ∧ (vs.voteAt j).isSome) (hquorum : vs.quorum ≤ entry.sum.toInt)
    (hid : ∃ v, given v ∧ v.blockID = id) :
    Inv H C given ((vs.setEntry id.key entry).setMaj23 id entry) := by
  have hlength : entry.votes.length = vs.votes.length :=
    htallied.votes_length.trans hinv.votes.votes_length.symm
  have hget : ∀ j, ((vs.setEntry id.key entry).setMaj23 id entry).voteAt j =
      (entry.getByIndex j).or (vs.voteAt j) := fun j => join_zipWith_or hlength j
  have hvoted : ∀ j, (entry.getByIndex j).isSome → (vs.voteAt j).isSome := by
    intro j hj
    obtain ⟨w, hw⟩ := Option.isSome_iff_exists.mp hj
    exact (hvotes j w hw).2.2
  constructor
  case votes => exact hinv.votes.merge htallied.votes_length hvoted
  case vote =>
    intro j w hw
    rw [hget] at hw
    rcases Option.or_eq_some_iff.mp hw with hnew | ⟨-, hold⟩
    · exact (hvotes j w hnew).1
    · exact hinv.vote j w hold
  case entry =>
    intro k e he
    rcases entry_of_setEntry he with ⟨-, rfl⟩ | he
    · exact htallied
    · exact hinv.entry k e he
  case entryVote =>
    intro k e j w he hw
    have hsome : (vs.voteAt j).isSome → (((vs.setEntry id.key entry).setMaj23 id entry).voteAt
        j).isSome := by
      intro hj
      rw [hget, Option.isSome_or, hj, Bool.or_true]
    rcases entry_of_setEntry he with ⟨rfl, rfl⟩ | he
    · obtain ⟨hstorable, hw', hj⟩ := hvotes j w hw
      exact ⟨hstorable, hw', hsome hj⟩
    · obtain ⟨hstorable, hw', hj⟩ := hinv.entryVote k e j w he hw
      exact ⟨hstorable, hw', hsome hj⟩
  case maj =>
    intro id' hid'
    obtain rfl : id = id' := Option.some.inj hid'
    refine ⟨entry, if_pos rfl, hquorum, ?_⟩
    intro j w hw
    rw [hget, hw, Option.some_or]
  case majVote =>
    intro id' hid'
    obtain rfl : id = id' := Option.some.inj hid'
    exact hid
  case noMaj => exact nofun

/-- A vote is counted for its block. -/
theorem tally (hvals : vs.valSet.Admissible) (hentry : IsEntry vs v.blockID.key entry)
    (hv : Storable H C given vs.scope v v.index) (hi : v.index < vs.valSet.size)
    (hnone : entry.getByIndex v.index = none) (hvoted : (vs.voteAt v.index).isSome)
    (hmaj : ∀ id, vs.maj23 = some id → id.key = v.blockID.key → vs.voteAt v.index = some v)
    (hpower : power.toInt = vs.valSet.power v.index) (hquorum : quorum.toInt = vs.quorum) :
    Inv H C given (vs.tally entry v v.blockID.key power quorum) := by
  have hold := hinv.isEntry_tallied hentry
  obtain ⟨htallied, hget, hsum⟩ := hold.addVerifiedVote hvals hi hnone hpower
  have hvotes : ∀ j w, (entry.addVerifiedVote v power).getByIndex j = some w →
      Storable H C given vs.scope w j ∧ w.blockID.key = v.blockID.key ∧ (vs.voteAt j).isSome := by
    intro j w hw
    rw [hget] at hw
    split at hw
    · rename_i hij
      cases hw
      subst hij
      exact ⟨hv, rfl, hvoted⟩
    · exact hinv.isEntry_vote hentry hw
  unfold VoteSet.tally
  simp only
  split
  · rename_i hreached
    rw [Int64.le_iff_toInt_le, hquorum] at hreached
    exact hinv.setMaj23 htallied hvotes hreached.2.1 ⟨v, hv.2.1, rfl⟩
  · rename_i hnot
    rw [Int64.lt_iff_toInt_lt, Int64.le_iff_toInt_le, hquorum] at hnot
    refine hinv.setEntry htallied hvotes ?_ ?_
    · intro id hid hkey
      obtain ⟨e, he, hreached, hcopied⟩ := hinv.maj id hid
      have hsame : e = entry := by
        rcases hentry with hfound | ⟨hmissing, -⟩
        · exact some.inj (he.symm.trans (hkey ▸ hfound))
        · rw [hkey, hmissing] at he
          cases he
      subst hsame
      refine ⟨by omega, ?_⟩
      intro j w hw
      rw [hget] at hw
      split at hw
      · rename_i hij
        cases hw
        exact hij ▸ hmaj id hid hkey
      · exact hcopied j w hw
    · intro hno
      have hbelow : entry.sum.toInt < vs.quorum := by
        rcases hentry with hfound | ⟨-, rfl⟩
        · exact hinv.noMaj hno _ entry hfound
        · change (0 : Int) < vs.quorum
          unfold VoteSet.quorum
          omega
      by_contra hge
      exact hnot ⟨hbelow, by omega, hno⟩

end

theorem index_lt (h : Accepted H C vs.scope v val) : v.index < vs.valSet.size :=
  (ValidatorSet.getByIndex_eq_some h.lookup).2.1

theorem power_eq (hvals : vs.valSet.Admissible) (h : Accepted H C vs.scope v val) :
    val.votingPower.toInt = vs.valSet.power v.index := by
  obtain ⟨-, -, hget⟩ := ValidatorSet.getByIndex_eq_some h.lookup
  exact hvals.toInt_votingPower hget

theorem replace (hinv : Inv H C given vs) (hv : Storable H C given vs.scope v v.index)
    (hi : v.index < vs.valSet.size) (hsome : vs.voteAt v.index = some existing)
    (hnew : vs.getVote v.index v.blockID.key = none) : Inv H C given (vs.replace v) := by
  unfold VoteSet.replace
  split
  · rename_i hkey
    refine hinv.setVote hv hi (hinv.votes.replace (by rw [← voteAt, hsome]; rfl) v) ?_
    intro id e hid he _
    rw [hid, map_some] at hkey
    exact (getVote_eq_none hnew).2 e (some.inj hkey ▸ he)
  · exact hinv

/-- Adding a vote keeps the invariant. -/
theorem adds (hinv : Inv H C given vs) (hvals : vs.valSet.Admissible)
    (haccepted : Accepted H C vs.scope v val) (hgiven : given v)
    (hnew : vs.getVote v.index v.blockID.key = none) (hquorum : quorum.toInt = vs.quorum)
    {vs' : VoteSet} {added : Bool} (h : Adds vs v val.votingPower quorum vs' added) :
    Inv H C given vs' := by
  have hv : Storable H C given vs.scope v v.index := ⟨⟨val, haccepted⟩, hgiven, rfl⟩
  have hi := index_lt haccepted
  have hpower := power_eq hvals haccepted
  cases h with
  | first hnone =>
    have hstored := hinv.voteAt_setVote hi v.index
    rw [if_pos rfl] at hstored
    have hentry := isEntry_getD vs v.blockID.key
    refine (hinv.addFirst hvals hv hi hnone hpower).tally hvals hentry hv hi
      (hentry.getByIndex_eq_none hnew) ?_ ?_ hpower hquorum
    · change ((vs.setVote v).voteAt v.index).isSome
      rw [hstored]
      rfl
    · exact fun _ _ _ => hstored
  | @tracked existing entry hsome hentry =>
    obtain ⟨hscope, hentries, hmaj⟩ := vs.replace_eq v
    have hset : (vs.replace v).valSet = vs.valSet := congrArg VoteScope.valSet hscope
    have hq : (vs.replace v).quorum = vs.quorum :=
      congrArg (fun vals => vals.total * 2 / 3 + 1) hset
    have hat : ((vs.replace v).voteAt v.index).isSome := by
      unfold VoteSet.replace
      split
      · rw [hinv.voteAt_setVote hi, if_pos rfl]
        rfl
      · rw [hsome]
        rfl
    refine (hinv.replace hv hi hsome hnew).tally (hset ▸ hvals) (.inl (hentries ▸ hentry))
      (hscope ▸ hv) (hset ▸ hi) (IsEntry.getByIndex_eq_none (.inl hentry) hnew) hat ?_
      (hset ▸ hpower) (hq ▸ hquorum)
    intro id hid hkey
    rw [hmaj] at hid
    have hsame : vs.maj23.map BlockID.key = some v.blockID.key := by rw [hid, map_some, hkey]
    rw [VoteSet.replace, if_pos hsame, hinv.voteAt_setVote hi, if_pos rfl]
  | replaced hsome => exact hinv.replace hv hi hsome hnew

/-- The claim of a peer keeps the invariant: it marks an entry or creates an empty one. -/
theorem setPeerMaj23 (hinv : Inv H C given vs) (peerID : Bytes) (blockID : BlockID) :
    Inv H C given (vs.setPeerMaj23 peerID blockID).1 := by
  unfold VoteSet.setPeerMaj23
  split
  · exact hinv
  · have hpeers : Inv H C given { vs with
        peerMaj23s := fun peer => if peer = peerID then some blockID else vs.peerMaj23s peer } :=
      ⟨hinv.votes, hinv.vote, hinv.entry, hinv.entryVote, hinv.maj, hinv.majVote, hinv.noMaj⟩
    cases hfound : vs.votesByBlock blockID.key with
    | some entry =>
      simp only [hfound]
      refine hpeers.setEntry (hinv.entry _ entry hfound) ?_ ?_ ?_
      · exact fun j w hw => hinv.entryVote _ entry j w hfound hw
      · intro id hid hkey
        obtain ⟨e, he, hrest⟩ := hinv.maj id hid
        cases he.symm.trans (hkey ▸ hfound)
        exact hrest
      · exact fun hno => hinv.noMaj hno _ entry hfound
    | none =>
      simp only [hfound]
      refine hpeers.setEntry (Tallied.new vs.valSet) ?_ ?_ ?_
      · intro j w hw
        rw [getByIndex_new] at hw
        cases hw
      · intro id hid hkey
        obtain ⟨e, he, -⟩ := hinv.maj id hid
        rw [hkey, hfound] at he
        cases he
      · intro _
        change (0 : Int) < vs.quorum
        unfold quorum
        omega

end Inv

/-! ### Sequences of calls -/

/-- The vote that is recorded for a block at a position. -/
def recordedAt (vs : VoteSet) (key : Bytes) (i : Nat) : Option Vote :=
  (vs.votesByBlock key).bind (·.getByIndex i)

/-- What later calls do not undo. -/
structure Extends (vs vs' : VoteSet) : Prop where
  scope_eq : vs'.scope = vs.scope
  maj23 : ∀ id, vs.maj23 = some id → vs'.maj23 = some id
  recorded : ∀ key i w, vs.recordedAt key i = some w → vs'.recordedAt key i = some w

theorem Extends.valSet_eq (h : Extends vs vs') : vs'.valSet = vs.valSet :=
  congrArg VoteScope.valSet h.scope_eq

theorem Extends.refl (vs : VoteSet) : Extends vs vs :=
  ⟨rfl, fun _ h => h, fun _ _ _ h => h⟩

theorem Extends.trans {vs1 vs2 vs3 : VoteSet} (h : Extends vs1 vs2) (h' : Extends vs2 vs3) :
    Extends vs1 vs3 :=
  ⟨h'.scope_eq.trans h.scope_eq, fun id hid => h'.maj23 id (h.maj23 id hid),
    fun key i w hw => h'.recorded key i w (h.recorded key i w hw)⟩

theorem recordedAt_setEntry (k : Bytes) (i : Nat) :
    (vs.setEntry key entry).recordedAt k i =
      if k = key then entry.getByIndex i else vs.recordedAt k i := by
  simp only [recordedAt, setEntry]
  split <;> rfl

/-- Counting a vote keeps what was recorded, and records the vote if its position was free. -/
theorem extends_tally (vs base : VoteSet) (hscope : base.scope = vs.scope)
    (hmaj : base.maj23 = vs.maj23) (hentries : base.votesByBlock = vs.votesByBlock)
    (hentry : Inv.IsEntry vs v.blockID.key entry) (hlength : v.index < entry.votes.length)
    (hnone : entry.getByIndex v.index = none) (power quorum : Int64) :
    Extends vs (base.tally entry v v.blockID.key power quorum) ∧
      (base.tally entry v v.blockID.key power quorum).recordedAt v.blockID.key v.index =
        some v := by
  have hcounted := getByIndex_addVerifiedVote hlength hnone power
  have hrecorded : ∀ k j, (base.tally entry v v.blockID.key power quorum).recordedAt k j =
      if k = v.blockID.key then (entry.addVerifiedVote v power).getByIndex j
      else vs.recordedAt k j := by
    intro k j
    have hset : (base.setEntry v.blockID.key (entry.addVerifiedVote v power)).recordedAt k j = _ :=
      recordedAt_setEntry k j
    have hbase : base.recordedAt k j = vs.recordedAt k j := by
      simp only [recordedAt, hentries]
    rw [hbase] at hset
    unfold tally
    simp only
    split
    · exact hset
    · exact hset
  refine ⟨⟨?_, ?_, ?_⟩, ?_⟩
  · rw [← hscope]
    unfold tally
    simp only
    split <;> rfl
  · intro id hid
    rw [← hmaj] at hid
    unfold tally
    simp only
    split
    · rename_i hreached
      change _ ∧ _ ∧ base.maj23 = none at hreached
      rw [hid] at hreached
      cases hreached.2.2
    · exact hid
  · intro k j w hw
    rw [hrecorded]
    split
    · rename_i hk
      rw [hcounted]
      have hold : entry.getByIndex j = some w := by
        rcases hentry with hfound | ⟨hmissing, -⟩
        · simpa [recordedAt, hk, hfound] using hw
        · simp [recordedAt, hk, hmissing] at hw
      split
      · rename_i hij
        rw [← hij, hnone] at hold
        cases hold
      · exact hold
    · exact hw
  · rw [hrecorded, if_pos rfl, hcounted, if_pos rfl]

/-- Adding a vote undoes nothing; a vote that counts as added is recorded for its block. -/
theorem extends_adds (hinv : Inv H C given vs) (haccepted : Accepted H C vs.scope v val)
    (hnew : vs.getVote v.index v.blockID.key = none) {power quorum : Int64} {added : Bool}
    (h : Adds vs v power quorum vs' added) :
    Extends vs vs' ∧ (added = true → vs'.recordedAt v.blockID.key v.index = some v) := by
  have hi := Inv.index_lt haccepted
  have htally (base : VoteSet) (hscope : base.scope = vs.scope) (hmaj : base.maj23 = vs.maj23)
      (hentries : base.votesByBlock = vs.votesByBlock) {entry : BlockVotes}
      (hentry : Inv.IsEntry vs v.blockID.key entry) :=
    extends_tally vs base hscope hmaj hentries hentry
      ((hinv.isEntry_tallied hentry).votes_length ▸ hi) (hentry.getByIndex_eq_none hnew) power
      quorum
  cases h with
  | first hfirst =>
    exact (htally (vs.addFirst v power) rfl rfl rfl (Inv.isEntry_getD vs _)).imp_right fun h _ => h
  | tracked hsome hentry =>
    obtain ⟨hscope, hentries, hmaj⟩ := vs.replace_eq v
    exact (htally (vs.replace v) hscope hmaj hentries (.inl hentry)).imp_right fun h _ => h
  | replaced hsome =>
    obtain ⟨hscope, hentries, hmaj⟩ := vs.replace_eq v
    refine ⟨⟨hscope, fun id hid => hmaj ▸ hid, ?_⟩, nofun⟩
    intro key i w hw
    simpa only [recordedAt, hentries] using hw

theorem extends_setPeerMaj23 (vs : VoteSet) (peerID : Bytes) (blockID : BlockID) :
    Extends vs (vs.setPeerMaj23 peerID blockID).1 := by
  unfold setPeerMaj23
  split
  · exact .refl vs
  · refine ⟨rfl, fun id hid => hid, ?_⟩
    intro key i w hw
    rw [recordedAt_setEntry]
    split
    · rename_i hkey
      subst hkey
      simp only [recordedAt] at hw
      cases hfound : vs.votesByBlock blockID.key with
      | none =>
        rw [hfound] at hw
        cases hw
      | some entry =>
        rw [hfound, bind_some] at hw
        exact hw
    · exact hw

section

variable (hinv : Inv H C given vs) (hvals : vs.valSet.Admissible)

include hinv hvals

/-- One call of `AddVote`, with its outcome. -/
theorem addVote_inv (vote : Option Vote) (hgiven : ∀ v, vote = some v → given v) :
    (addVote H C vote).wp
      (fun out vs' => Inv H C given vs' ∧ Extends vs vs' ∧
        (out.1 = true → ∃ v, vote = some v ∧ vs'.recordedAt v.blockID.key v.index = some v))
      (fun panic vs' => panic = .callee ∧ vs' = vs) vs := by
  obtain ⟨total, htotal, hquorum⟩ := quorum_eq hvals
  refine wp_imp (addVote_spec H C htotal vote) ?_
  rintro ⟨added, error⟩ vs' (⟨rfl, hadded⟩ | ⟨v, val, rfl, haccepted, hnew, hadds⟩)
  · obtain rfl : added = false := hadded
    exact ⟨hinv, .refl vs', nofun⟩
  · obtain ⟨hextends, hrecorded⟩ := extends_adds hinv haccepted hnew hadds
    refine ⟨hinv.adds hvals haccepted (hgiven v rfl) hnew hquorum hadds, hextends, ?_⟩
    exact fun hadded => ⟨v, rfl, hrecorded hadded⟩

/-- One call keeps the invariant and undoes nothing. -/
theorem call_inv (c : Call) (hgiven : ∀ v, c = .addVote (some v) → given v) :
    Inv H C given (vs.call H C c) ∧ Extends vs (vs.call H C c) := by
  cases c with
  | addVote vote =>
    have halways :
        (addVote H C vote).Always (fun vs' => Inv H C given vs' ∧ Extends vs vs') vs := by
      refine wp_mono (addVote_inv hinv hvals vote ?_) ?_ ?_
      · rintro v rfl
        exact hgiven v rfl
      · exact fun out vs' h => ⟨h.1, h.2.1⟩
      · rintro panic vs' ⟨-, rfl⟩
        exact ⟨hinv, .refl vs'⟩
    exact always_iff.mp halways
  | setPeerMaj23 peerID blockID =>
    exact ⟨hinv.setPeerMaj23 peerID blockID, extends_setPeerMaj23 vs peerID blockID⟩

/-- Any sequence of calls keeps the invariant and undoes nothing. -/
theorem run_inv (calls : List Call) (hgiven : ∀ v, .addVote (some v) ∈ calls → given v) :
    Inv H C given (vs.run H C calls) ∧ Extends vs (vs.run H C calls) := by
  induction calls generalizing vs with
  | nil => exact ⟨hinv, .refl vs⟩
  | cons c rest ih =>
    obtain ⟨hinv', hextends⟩ := call_inv hinv hvals c fun v hv => hgiven v (by simp [hv])
    obtain ⟨hrun, hrest⟩ := ih hinv' (hextends.valSet_eq ▸ hvals)
      fun v hv => hgiven v (by simp [hv])
    exact ⟨hrun, hextends.trans hrest⟩

end

/-- After any calls of `AddVote` and `SetPeerMaj23`: the sums are the powers of the marked
validators, marks and votes agree, the majority is set exactly if an entry has reached the quorum
and is then kept forever, votes added for it are in `votes`, and `AddVote` does not fail to add a
vote without a conflict. -/
theorem run_represents {vals : ValidatorSet} (hvals : vals.Admissible) (chainID : Bytes)
    (height : Int64) (round type : Int32) (calls : List Call) :
    let start := new chainID height round type vals
    let vs := start.run H C calls
    vs.sum.toInt = ∑ i ∈ marked vs.votesBitArray, vals.power i ∧
    (∀ i : Nat, (vs.voteAt i).isSome ↔ vs.votesBitArray[i]? = some true) ∧
    (∀ key e, vs.votesByBlock key = some e →
      e.sum.toInt = ∑ i ∈ marked e.bitArray, vals.power i ∧
      (∀ i : Nat, (e.getByIndex i).isSome ↔ e.bitArray[i]? = some true) ∧
      ∀ i v, e.getByIndex i = some v → v.index = i ∧ v.blockID.key = key) ∧
    (vs.maj23.isSome ↔
      ∃ key e, vs.votesByBlock key = some e ∧ (vals.total * 2 / 3 + 1 : Nat) ≤ e.sum.toInt) ∧
    (∀ id, vs.maj23 = some id → ∀ more, (start.run H C (calls ++ more)).maj23 = some id) ∧
    (∀ before v after error, calls = before ++ .addVote (some v) :: after →
      ((addVote H C (some v)).exec (start.run H C before)).1 = .ok (true, error) →
      ∀ id, vs.maj23 = some id → id.key = v.blockID.key → vs.voteAt v.index = some v) ∧
    ∀ vote, ((addVote H C vote).exec vs).1 ≠ .error .notAdded := by
  intro start vs
  have hstart : Inv H C (fun _ => True) start := inv_new chainID height round type vals
  obtain ⟨hinv, hextends⟩ := run_inv hstart hvals calls fun _ _ => trivial
  change Inv H C (fun _ => True) vs at hinv
  have hset : vs.valSet = vals := hextends.valSet_eq
  have hquorum : vs.quorum = vals.total * 2 / 3 + 1 := by rw [quorum, hset]
  refine ⟨?_, ?_, ?_, ?_, ?_, ?_, ?_⟩
  · rw [hinv.votes.sum_eq, hset]
  · exact fun i => (hinv.votes.bit_iff i).symm
  · intro key e he
    have hentry := hinv.entry key e he
    refine ⟨by rw [hentry.sum_eq, hset], fun i => (hentry.bit_iff i).symm, ?_⟩
    intro i v hv
    obtain ⟨⟨-, -, hindex⟩, hkey, -⟩ := hinv.entryVote key e i v he hv
    exact ⟨hindex, hkey⟩
  · rw [← hquorum]
    refine ⟨?_, ?_⟩
    · intro hsome
      obtain ⟨id, hid⟩ := isSome_iff_exists.mp hsome
      obtain ⟨e, he, hreached, -⟩ := hinv.maj id hid
      exact ⟨id.key, e, he, hreached⟩
    · rintro ⟨key, e, he, hreached⟩
      by_contra hnone
      have hbelow := hinv.noMaj (by simpa using hnone) key e he
      omega
  · intro id hid more
    have hmore := (run_inv hinv (hset ▸ hvals) more fun _ _ => trivial).2.maj23 id hid
    rwa [run, foldl_append]
  · intro before v after error hcalls hadded id hid hkey
    obtain ⟨hbefore, hscope⟩ := run_inv hstart hvals before fun _ _ => trivial
    have hvals' : (start.run H C before).valSet.Admissible := by
      rw [hscope.valSet_eq]
      exact hvals
    have hwp := addVote_inv hbefore hvals' (some v) fun _ _ => trivial
    obtain ⟨hinv', hextends', hrecorded⟩ := wp_of_exec_ok (Prod.ext hadded rfl) hwp
    obtain ⟨w, hw, hrecorded⟩ := hrecorded rfl
    cases hw
    -- the rest of the calls keeps the record, and the majority has copied it
    have hset' : ((addVote H C (some v)).exec (start.run H C before)).2.valSet.Admissible := by
      rw [hextends'.valSet_eq]
      exact hvals'
    have hrest := (run_inv hinv' hset' after fun _ _ => trivial).2.recorded _ _ _ hrecorded
    have hend : vs = ((addVote H C (some v)).exec (start.run H C before)).2.run H C after := by
      change start.run H C calls = _
      rw [hcalls, run, foldl_append, foldl_cons]
      rfl
    rw [← hend] at hrest
    obtain ⟨e, he, -, hcopied⟩ := hinv.maj id hid
    apply hcopied
    simpa [recordedAt, ← hkey, he] using hrest
  · intro vote hpanic
    have hwp := addVote_inv hinv (hset ▸ hvals) vote fun _ _ => trivial
    unfold wp at hwp
    split at hwp
    · rename_i hexec
      rw [hexec] at hpanic
      cases hpanic
    · rename_i panic vs' hexec
      rw [hexec] at hpanic
      obtain rfl := Except.error.inj hpanic
      exact absurd hwp.1 (by decide)

end VoteSet

/-! ### A sample -/

/-- Keys of one repeated byte. -/
def sampleKey (byte : UInt8) : PubKey :=
  .ed25519 (Vector.replicate 32 byte)

/-- A key signs with its first byte; the address is that byte, twenty times. -/
def sampleCrypto : Crypto where
  address
    | .ed25519 key => List.replicate 20 (key.toList.headD 0)
    | .secp256k1 key => List.replicate 20 (key.toList.headD 0)
    | .sr25519 key => List.replicate 20 (key.toList.headD 0)
  verifySignature key _ signature :=
    match key with
    | .ed25519 key => signature = [key.toList.headD 0]
    | .secp256k1 key => signature = [key.toList.headD 0]
    | .sr25519 key => signature = [key.toList.headD 0]

/-- A validator with one unit of power. -/
def sampleValidator (byte : UInt8) : Validator :=
  ⟨List.replicate 20 byte, some (sampleKey byte), 1, 0⟩

/-- Four validators. -/
def sampleValidators : ValidatorSet :=
  ⟨[some (sampleValidator 1), some (sampleValidator 2), some (sampleValidator 3),
    some (sampleValidator 4)], none⟩

theorem sampleValidators_admissible : sampleValidators.Admissible where
  nonneg := by
    intro entry hentry
    simp only [sampleValidators, mem_cons, not_mem_nil, or_false] at hentry
    rcases hentry with rfl | rfl | rfl | rfl <;> exact ⟨_, rfl, by decide⟩
  total_le := by
    decide

/-- Two complete block identifiers, with digests of one byte. -/
def sampleBlockID (byte : UInt8) : BlockID :=
  ⟨[byte], ⟨1, [byte]⟩⟩

/-- A precommit of the validator at an index. -/
def samplePrecommit (index : Int32) (byte : UInt8) (blockID : BlockID) : Vote :=
  ⟨precommitType, 1, 0, blockID, .unix 0, replicate 20 byte, index, [byte]⟩

/-- Three validators precommit one block and the fourth another one, and then the first as well. -/
def sampleCalls : List Call :=
  [.addVote (some (samplePrecommit 3 4 (sampleBlockID 8))),
    .addVote (some (samplePrecommit 0 1 (sampleBlockID 7))),
    .addVote (some (samplePrecommit 1 2 (sampleBlockID 7))),
    .addVote (some (samplePrecommit 2 3 (sampleBlockID 7))),
    .addVote (some (samplePrecommit 3 4 (sampleBlockID 7)))]

/-- The set of precommits after these calls. -/
def samplePrecommits : VoteSet :=
  (new [] 1 0 precommitType sampleValidators).run (HashFunction.polynomial 1) sampleCrypto
    sampleCalls

theorem run_represents_sample :
    samplePrecommits.maj23 = some (sampleBlockID 7) ∧
    samplePrecommits.sum.toInt =
      ∑ i ∈ marked samplePrecommits.votesBitArray, sampleValidators.power i :=
  ⟨by decide +kernel,
    (run_represents sampleValidators_admissible [] 1 0 precommitType sampleCalls).1⟩

end NimbleChain.Tendermint
