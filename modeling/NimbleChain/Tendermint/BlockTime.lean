import NimbleChain.Common.WeightedMedian
import NimbleChain.Tendermint.CommitSoundness
import NimbleChain.Tendermint.State

/-!
# The time of a block

How far faulty validators can move the median of the timestamps of a commit. It is never later than
all correct signatures; it is earlier than all of them exactly if the signatures that are earlier
reach half of the power, rounded down, which is possible with less than a third of the power.
-/

namespace NimbleChain.Tendermint

open Common WeightedMedian List ValidatorSet Int64 WeightedTime HashFunction
open scoped Finset

variable {H : HashFunction} {C : Crypto}

/-! ### Instants -/

namespace Time

/-- The nanoseconds since 1970, without a bound. -/
def instant (t : Time) : Int :=
  t.seconds.toInt * 1000000000 + t.nanos.val

/-- The time is one that `UnixNano` can represent. -/
def InRange (t : Time) : Prop :=
  Exact.Fits t.instant

instance : DecidablePred InRange :=
  fun _ => inferInstanceAs (Decidable (_ ∧ _))

theorem before_iff {t u : Time} : t.before u = true ↔ t.instant < u.instant := by
  simp only [before, instant, decide_eq_true_eq, lt_iff_toInt_lt, ← toInt_inj, Fin.lt_def]
  omega

theorem after_iff {t u : Time} : t.after u = true ↔ u.instant < t.instant :=
  before_iff

theorem toInt_unixNano {t : Time} (h : t.InRange) : t.unixNano.toInt = t.instant := by
  have hsecond : (1000000000 : Int64).toInt = 1000000000 := rfl
  have hrest : (ofNat t.nanos.val).toInt = t.nanos.val := by
    apply toInt_ofNat_of_lt
    omega
  rw [unixNano, toInt_add, toInt_mul, hsecond, hrest, Int.bmod_add_bmod]
  exact Exact.bmod_eq h

/-- Adding nanoseconds to a time that can be sent is exact. -/
theorem instant_add {t : Time} (h : t.Representable) (d : Int64) :
    (t.add d).instant = t.instant + d.toInt := by
  obtain ⟨hlo, hhi⟩ := h
  have hlo' : (-62135596800 : Int64).toInt ≤ t.seconds.toInt := le_iff_toInt_le.mp hlo
  have hhi' : t.seconds.toInt < (253402300800 : Int64).toInt := lt_iff_toInt_lt.mp hhi
  have hlower : (-62135596800 : Int64).toInt = -62135596800 := rfl
  have hupper : (253402300800 : Int64).toInt = 253402300800 := rfl
  have hd := Exact.fits_toInt d
  unfold Exact.Fits at hd
  have hunix : unixToInternal = 62135596800 := rfl
  simp only [add, instant]
  rw [if_neg (by omega), if_neg (by omega), toInt_ofInt_of_le (by omega) (by omega)]
  omega

end Time

/-- A vote is stamped later than the block for which it is made, if the iota is positive in
nanoseconds too. -/
theorem lt_voteTime {now : Time} {locked proposal : Option Block} {timeIotaMs : Int64}
    {block : Block} (hblock : locked.or proposal = some block)
    (htime : block.header.time.Representable) (hiota : 0 < (timeIotaMs * 1000000).toInt) :
    block.header.time.instant < (voteTime now locked proposal timeIotaMs).instant := by
  have hmin := Time.instant_add htime (timeIotaMs * 1000000)
  have hvote : voteTime now locked proposal timeIotaMs =
      if now.after (block.header.time.add (timeIotaMs * 1000000)) then now
      else block.header.time.add (timeIotaMs * 1000000) := by
    cases locked with
    | some locked =>
      cases hblock
      rfl
    | none =>
      obtain rfl : proposal = some block := hblock
      rfl
  rw [hvote]
  split
  · rename_i hafter
    have := Time.after_iff.mp hafter
    omega
  · omega

/-! ### The signatures of a commit -/

namespace Commit

variable (commit : Commit) (i : Nat)

/-- The commit has a signature at a position, for the block or for nil. -/
def signed : Bool :=
  commit.signatures[i]?.any fun commitSig => !commitSig.absent

/-- The commit has a signature for the block at a position. -/
def signedForBlock : Bool :=
  commit.signatures[i]?.any CommitSig.forBlock

/-- The positions that have signed. -/
def signers : Finset Nat :=
  (Finset.range commit.signatures.length).filter fun i => commit.signed i = true

/-- The timestamp at a position. -/
def stamp : Time :=
  commit.signatures[i]?.elim .zero CommitSig.timestamp

theorem signed_of_signedForBlock {commit : Commit} {i : Nat} (h : commit.signedForBlock i = true) :
    commit.signed i = true := by
  unfold signedForBlock at h
  unfold signed
  cases hsig : commit.signatures[i]? with
  | none =>
    rw [hsig] at h
    cases h
  | some commitSig =>
    rw [hsig] at h
    have hflag : commitSig.blockIDFlag = blockIDFlagCommit := by
      simpa [CommitSig.forBlock] using h
    simp only [Option.any_some, CommitSig.absent, hflag]
    rfl

theorem mem_signers {commit : Commit} {i : Nat} : i ∈ commit.signers ↔ commit.signed i = true := by
  rw [signers, Finset.mem_filter, Finset.mem_range, and_iff_right_iff_imp]
  intro h
  by_contra hlength
  rw [signed, getElem?_eq_none (by omega)] at h
  cases h

end Commit

namespace ValidatorSet

/-- Every signature of the commit names the validator at its position, and no two validators have
one address, which is not signed. -/
structure Attributed (vals : ValidatorSet) (commit : Commit) : Prop where
  address : ∀ i ∈ commit.signers, vals.validators[i]?.join.map Validator.address =
    commit.signatures[i]?.map CommitSig.validatorAddress
  distinct : (vals.validators.map (Option.map Validator.address)).Nodup

variable {vals : ValidatorSet} {commit : Commit}

theorem Attributed.getByAddress_eq (h : vals.Attributed commit) (hvals : vals.Admissible) {i : Nat}
    {commitSig : CommitSig} (hsig : commit.signatures[i]? = some commitSig)
    (hpresent : commitSig.absent = false) :
    ∃ val, vals.validators[i]? = some (some val) ∧ val.votingPower.toInt = vals.power i ∧
      getByAddress commitSig.validatorAddress 0 vals.validators = .ok (some (i, val)) := by
  have hsigner : i ∈ commit.signers := by
    rw [Commit.mem_signers, Commit.signed, hsig]
    simpa using hpresent
  have hnamed := h.address i hsigner
  rw [hsig, Option.map_some, Option.map_eq_some_iff] at hnamed
  obtain ⟨val, hjoin, haddress⟩ := hnamed
  have hval := Option.join_eq_some_iff.mp hjoin
  refine ⟨val, hval, hvals.toInt_votingPower hval, ?_⟩
  have hdistinct : ∀ j v, vals.validators[j]? = some (some v) →
      v.address = val.address → j = i := by
    intro j v hj heq
    have hlength : j < (vals.validators.map (Option.map Validator.address)).length := by
      rw [length_map]
      exact (List.getElem_of_getElem? hj).1
    apply (getElem?_inj hlength h.distinct).mp
    rw [getElem?_map, getElem?_map, hj, hval]
    simp [heq]
  obtain ⟨found, hfound, hnone⟩ := exists_getByAddress val.address 0
    fun entry hentry => (hvals.nonneg entry hentry).imp fun _ => And.left
  rw [← haddress, hfound]
  cases found with
  | none => exact absurd rfl (hnone rfl val (mem_of_getElem? hval))
  | some found =>
    obtain ⟨-, hget, heq⟩ := getByAddress_eq_some hfound
    obtain rfl := hdistinct _ _ hget heq
    cases hval.symm.trans hget
    rfl

/-! ### The power that has signed -/

/-- The signatures of an accepted commit have more than two thirds of the power. -/
theorem verifyCommit_signers (hvals : vals.Admissible) {chainID : Bytes} {blockID : BlockID}
    {height : Int64} (h : vals.verifyCommit H C chainID blockID height commit = .ok ()) :
    commit.signers ⊆ vals.indices ∧
      2 * vals.total < 3 * ∑ i ∈ commit.signers, vals.power i := by
  have hcounts : ∀ i commitSig val, commit.signatures[i]? = some commitSig →
      commitSig.forBlock = true → vals.validators[i]? = some (some val) →
      checkSignature H C chainID commit i commitSig val = .ok () →
      commit.signedForBlock i = true := by
    intro i commitSig val hsig hfor _ _
    rw [Commit.signedForBlock, hsig]
    exact hfor
  obtain ⟨hsize, -, -, S, -, henough, hsigned⟩ :=
    verifyCommitLight_counted hvals hcounts (verifyCommitLight_of_verifyCommit hvals h)
  have hsubset : S ⊆ commit.signers := fun i hi =>
    Commit.mem_signers.mpr (Commit.signed_of_signedForBlock (hsigned i hi))
  have hmore : ∑ i ∈ S, vals.power i ≤ ∑ i ∈ commit.signers, vals.power i :=
    Finset.sum_le_sum_of_subset hsubset
  refine ⟨?_, by omega⟩
  rw [indices, hsize]
  exact Finset.filter_subset _ _

end ValidatorSet

/-! ### The median -/

namespace WeightedTime

instance : Std.Total NotAfter where
  total a b := by
    cases a with
    | none => exact .inr (by cases b <;> rfl)
    | some a =>
      cases b with
      | none => exact .inl rfl
      | some b =>
        simp only [NotAfter, less, decide_eq_false_iff_not, lt_iff_toInt_lt]
        omega

instance : IsTrans (Option WeightedTime) NotAfter where
  trans a b c := by
    simp only [NotAfter]
    cases a <;> cases b <;> cases c <;>
      simp only [less, decide_eq_false_iff_not, lt_iff_toInt_lt, Bool.true_eq_false,
        false_implies, implies_true]
    omega

/-- The weight as an integer. -/
def load (w : WeightedTime) : Int :=
  w.weight.toInt

/-- The loop finds the weighted time that reaches the rank. -/
theorem scan_eq {median : Int64} {l : List (Option WeightedTime)}
    (hweight : ∀ w ∈ l.filterMap id, 0 ≤ w.load) :
    scan median l = (pick load median.toInt (l.filterMap id)).elim .zero time := by
  induction l generalizing median with
  | nil => rfl
  | cons entry l ih =>
    cases entry with
    | none => exact ih hweight
    | some w =>
      have hcons : filterMap id (some w :: l) = w :: l.filterMap id := rfl
      rw [hcons] at hweight ⊢
      obtain ⟨hw, hrest⟩ := forall_mem_cons.mp hweight
      rw [scan, pick]
      by_cases hreached : median ≤ w.weight
      · have hload : median.toInt ≤ w.load := le_iff_toInt_le.mp hreached
        rw [if_pos hreached, if_pos hload]
        rfl
      · have hpassed : ¬ median.toInt ≤ w.load := fun hle => hreached (le_iff_toInt_le.mpr hle)
        have hmedian := Exact.fits_toInt median
        have hsub : (median - w.weight).toInt = median.toInt - w.load := by
          apply Exact.toInt_sub
          unfold load at hw hpassed
          unfold Exact.Fits at *
          omega
        rw [if_neg hreached, if_neg hpassed, ih hrest, hsub]

theorem perm_sorted (times : List (Option WeightedTime)) :
    ((times.insertionSort NotAfter).filterMap id).Perm (times.filterMap id) :=
  (perm_insertionSort NotAfter times).filterMap id

/-- Times that `UnixNano` can represent are sorted by instant. -/
theorem sorted_of_inRange {times : List (Option WeightedTime)}
    (hrange : ∀ w ∈ times.filterMap id, w.time.InRange) :
    ((times.insertionSort NotAfter).filterMap id).Pairwise fun a b =>
      a.time.instant ≤ b.time.instant := by
  have hsorted := pairwise_insertionSort NotAfter times
  have hnanos : ((times.insertionSort NotAfter).filterMap id).Pairwise fun a b =>
      NotAfter (some a) (some b) := by
    rw [pairwise_filterMap]
    exact hsorted.imp fun hab a ha b hb => by
      obtain rfl := ha
      obtain rfl := hb
      exact hab
  refine hnanos.imp_of_mem ?_
  intro a b ha hb hab
  have ha := Time.toInt_unixNano (hrange a ((perm_sorted times).mem_iff.mp ha))
  have hb := Time.toInt_unixNano (hrange b ((perm_sorted times).mem_iff.mp hb))
  simp only [NotAfter, less, decide_eq_false_iff_not, lt_iff_toInt_lt] at hab
  omega

end WeightedTime

/-- The weighted median of times that `UnixNano` can represent is at most a bound exactly if some
time is and the weight up to the bound is half of the total or more. -/
theorem weightedMedian_spec {times : List (Option WeightedTime)} {total : Int64}
    (hne : times.filterMap id ≠ []) (hrange : ∀ w ∈ times.filterMap id, w.time.InRange)
    (hweight : ∀ w ∈ times.filterMap id, 0 ≤ w.load)
    (htotal : total.toInt = sumOf load (times.filterMap id)) :
    ∀ bound, (weightedMedian times total).instant ≤ bound ↔
      (∃ w ∈ times.filterMap id, w.time.instant ≤ bound) ∧
        total.toInt / 2 ≤ weightUpTo load (fun w => w.time.instant) bound (times.filterMap id) := by
  have hperm := perm_sorted times
  have hsorted := sorted_of_inRange hrange
  have hweight' : ∀ w ∈ (times.insertionSort WeightedTime.NotAfter).filterMap id, 0 ≤ w.load :=
    fun w hw => hweight w (hperm.mem_iff.mp hw)
  have hnonneg : 0 ≤ total.toInt := by
    rw [htotal]
    exact sumOf_nonneg hweight
  have hhalf : (total / 2).toInt = total.toInt / 2 := by
    rw [Exact.toInt_div_of_pos (by decide)]
    exact Int.tdiv_eq_ediv_of_nonneg hnonneg
  have hrank : (total / 2).toInt ≤
      sumOf load ((times.insertionSort WeightedTime.NotAfter).filterMap id) := by
    rw [sumOf_perm hperm, ← htotal, hhalf]
    omega
  have hne' : (times.insertionSort WeightedTime.NotAfter).filterMap id ≠ [] := by
    intro hnil
    rw [hnil] at hperm
    exact hne hperm.nil_eq.symm
  obtain ⟨w, hw⟩ := exists_pick hne' hrank
  have hmedian : weightedMedian times total = w.time := by
    rw [weightedMedian, scan_eq hweight', hw]
    rfl
  intro bound
  have hiff : w.time.instant ≤ bound ↔ _ := pick_le_iff hsorted hweight' hw
  rw [hmedian, hiff, hhalf, weightUpTo, sumOf_perm hperm]
  simp only [hperm.mem_iff]
  rfl

/-! ### The median time of a commit -/

namespace ValidatorSet

variable (vals : ValidatorSet) (commit : Commit)

/-- The voting power of the validator at a position, as the source adds it. -/
def votingPowerAt (i : Nat) : Int64 :=
  vals.validators[i]?.join.elim 0 Validator.votingPower

/-- The weighted time of the signature at a position. -/
def weightedTimeAt (i : Nat) : WeightedTime :=
  ⟨commit.stamp i, vals.votingPowerAt i⟩

/-- The positions from an index on that have signed, in order. -/
def positions (idx n : Nat) : List Nat :=
  (range' idx n).filter commit.signed

/-- The power at a position as an integer. -/
def powerAt (i : Nat) : Int :=
  vals.power i

theorem toFinset_positions :
    (positions commit 0 commit.signatures.length).toFinset = commit.signers := by
  ext i
  simp [positions, Commit.signers]

theorem nodup_positions (idx n : Nat) : (positions commit idx n).Nodup :=
  (nodup_range' ..).filter _

variable {vals commit}

/-- The loop of `MedianTime` collects the signatures by position. -/
theorem weightedTimes_spec (hvals : vals.Admissible) (hattr : vals.Attributed commit)
    (rest : List CommitSig) (idx : Nat) (total : Int64)
    (hrest : commit.signatures.drop idx = rest) (hnonneg : 0 ≤ total.toInt)
    (hle : total.toInt + sumOf vals.powerAt (positions commit idx rest.length) ≤
      maxTotalVotingPower.toInt) :
    ∃ times sum, weightedTimes vals rest total = .ok (times, sum) ∧
      times.filterMap id = (positions commit idx rest.length).map (vals.weightedTimeAt commit) ∧
      sum.toInt = total.toInt + sumOf vals.powerAt (positions commit idx rest.length) := by
  induction rest generalizing idx total with
  | nil => exact ⟨[], total, rfl, rfl, (Int.add_zero _).symm⟩
  | cons commitSig rest ih =>
    obtain ⟨hsig, hdrop⟩ := drop_eq_cons hrest
    have hsigned : commit.signed idx = !commitSig.absent := by
      rw [Commit.signed, hsig]
      rfl
    rw [length_cons, positions, range'_succ, filter_cons, ← positions] at hle ⊢
    rw [weightedTimes]
    cases habsent : commitSig.absent with
    | true =>
      rw [hsigned, habsent] at hle ⊢
      obtain ⟨times, sum, htimes, hlist, hsum⟩ := ih (idx + 1) total hdrop hnonneg hle
      exact ⟨none :: times, sum, by rw [htimes]; rfl, hlist, hsum⟩
    | false =>
      obtain ⟨val, hval, hpower, hfound⟩ := hattr.getByAddress_eq hvals hsig habsent
      rw [hsigned, habsent] at hle ⊢
      simp only [Bool.not_false, if_true, sumOf] at hle ⊢
      have hpowerAt : vals.powerAt idx = val.votingPower.toInt := hpower.symm
      have hlater : 0 ≤ sumOf vals.powerAt (positions commit (idx + 1) rest.length) :=
        sumOf_nonneg fun i _ => Int.natCast_nonneg _
      have hadd : (total + val.votingPower).toInt = total.toInt + val.votingPower.toInt := by
        apply Exact.toInt_add
        rw [toInt_maxTotalVotingPower] at hle
        unfold Exact.Fits
        omega
      obtain ⟨times, sum, htimes, hlist, hsum⟩ :=
        ih (idx + 1) (total + val.votingPower) hdrop (by omega) (by omega)
      have hentry : vals.weightedTimeAt commit idx = ⟨commitSig.timestamp, val.votingPower⟩ := by
        rw [weightedTimeAt, Commit.stamp, votingPowerAt, hsig, hval]
        rfl
      refine ⟨some ⟨commitSig.timestamp, val.votingPower⟩ :: times, sum, ?_, ?_, by omega⟩
      · rw [hfound]
        simp only [bind, Except.bind, htimes]
        rfl
      · rw [map_cons, hentry, ← hlist]
        rfl

theorem sumOf_positions (f : Nat → Int) (commit : Commit) :
    sumOf f (positions commit 0 commit.signatures.length) = ∑ i ∈ commit.signers, f i := by
  rw [← toFinset_positions, sum_toFinset f (nodup_positions ..), sumOf_eq]

variable (vals commit)

/-- The timestamps of the signatures can be represented by `UnixNano`. -/
def StampsInRange : Prop :=
  ∀ i ∈ commit.signers, (commit.stamp i).InRange

instance : DecidablePred StampsInRange :=
  fun commit => inferInstanceAs (Decidable (∀ i ∈ commit.signers, (commit.stamp i).InRange))

/-- The power of the signatures that satisfy a condition. -/
def signedPower (p : Nat → Prop) [DecidablePred p] : Nat :=
  ∑ i ∈ commit.signers.filter p, vals.power i

/-- There are signatures that satisfy a condition, and they have half of the power of all
signatures, rounded down, or more. -/
def ReachMedian (p : Nat → Prop) [DecidablePred p] : Prop :=
  (∃ i ∈ commit.signers, p i) ∧
    (∑ i ∈ commit.signers, vals.power i) / 2 ≤ vals.signedPower commit p

/-- The time is at most a bound exactly if the signatures up to the bound reach the median. -/
def IsMedian (t : Time) : Prop :=
  ∀ bound, t.instant ≤ bound ↔
    vals.ReachMedian commit fun i => (commit.stamp i).instant ≤ bound

variable {vals commit}

/-- `MedianTime` computes the median. -/
theorem medianTime_spec (hvals : vals.Admissible) (hattr : vals.Attributed commit)
    (hrange : StampsInRange commit) (hsubset : commit.signers ⊆ vals.indices)
    (hne : commit.signers.Nonempty) :
    ∃ t, medianTime commit vals = .ok t ∧ vals.IsMedian commit t := by
  have hsum : sumOf vals.powerAt (positions commit 0 commit.signatures.length) =
      (∑ i ∈ commit.signers, vals.power i : Nat) := by
    rw [sumOf_positions]
    exact (Nat.cast_sum ..).symm
  have hle := Admissible.sum_le_total hsubset
  have htotal := hvals.total_le
  obtain ⟨times, sum, htimes, hlist, hvalue⟩ := weightedTimes_spec hvals hattr commit.signatures 0 0
    rfl (by decide) (by rw [toInt_zero, hsum]; omega)
  rw [toInt_zero, Int.zero_add] at hvalue
  have hmem (i : Nat) : i ∈ positions commit 0 commit.signatures.length ↔ i ∈ commit.signers := by
    rw [← toFinset_positions, mem_toFinset]
  have hload : ∀ i ∈ positions commit 0 commit.signatures.length,
      (vals.weightedTimeAt commit i).load = vals.powerAt i := by
    intro i hi
    obtain ⟨val, hval, hpower⟩ :=
      hvals.exists_val (Finset.mem_range.mp (hsubset ((hmem i).mp hi)))
    rw [load, weightedTimeAt, votingPowerAt, hval]
    exact hpower
  have hnonempty : times.filterMap id ≠ [] := by
    obtain ⟨i, hi⟩ := hne
    intro hnil
    have hi := (hmem i).mpr hi
    rw [map_eq_nil_iff.mp (hlist.symm.trans hnil)] at hi
    cases hi
  have hentry : ∀ w ∈ times.filterMap id, w.time.InRange ∧ 0 ≤ w.load := by
    intro w hw
    rw [hlist] at hw
    obtain ⟨i, hi, rfl⟩ := mem_map.mp hw
    rw [hload i hi]
    exact ⟨hrange i ((hmem i).mp hi), Int.natCast_nonneg _⟩
  have htotal : sum.toInt = sumOf load (times.filterMap id) := by
    rw [hvalue, hlist, sumOf_map]
    exact (sumOf_congr hload).symm
  have hbound := weightedMedian_spec hnonempty (fun w hw => (hentry w hw).1)
    (fun w hw => (hentry w hw).2) htotal
  refine ⟨_, by rw [medianTime, htimes]; rfl, ?_⟩
  intro bound
  have hweight : weightUpTo load (fun w => w.time.instant) bound
      (times.filterMap id) =
      (vals.signedPower commit fun i => (commit.stamp i).instant ≤ bound : Nat) := by
    rw [hlist, weightUpTo, sumOf_map, signedPower, Nat.cast_sum, Finset.sum_filter,
      ← sumOf_positions]
    apply sumOf_congr
    intro i hi
    rw [hload i hi]
    rfl
  rw [hbound, hvalue, hsum, hweight, hlist]
  simp only [mem_map, hmem, exists_exists_and_eq_and]
  apply and_congr Iff.rfl
  omega

/-! ### Faulty signatures -/

variable {p q : Nat → Prop} [DecidablePred p] [DecidablePred q]

theorem signedPower_mono (h : ∀ i ∈ commit.signers, p i → q i) :
    vals.signedPower commit p ≤ vals.signedPower commit q := by
  apply Finset.sum_le_sum_of_subset
  intro i hi
  obtain ⟨hsigner, hp⟩ := Finset.mem_filter.mp hi
  exact Finset.mem_filter.mpr ⟨hsigner, h i hsigner hp⟩

theorem ReachMedian.mono (h : ∀ i ∈ commit.signers, p i → q i) (hp : vals.ReachMedian commit p) :
    vals.ReachMedian commit q := by
  obtain ⟨⟨i, hi, hpi⟩, hhalf⟩ := hp
  exact ⟨⟨i, hi, h i hi hpi⟩, hhalf.trans (signedPower_mono h)⟩

theorem signedPower_add_not (vals : ValidatorSet) (commit : Commit) (p : Nat → Prop)
    [DecidablePred p] :
    vals.signedPower commit p + vals.signedPower commit (fun i => ¬ p i) =
      ∑ i ∈ commit.signers, vals.power i :=
  Finset.sum_filter_add_sum_filter_not _ _ _

end ValidatorSet

namespace Commit

variable (commit : Commit) (faulty : Finset Nat)

/-- A signature is stamped before all signatures of correct validators. -/
def Early (i : Nat) : Prop :=
  ∀ j ∈ commit.signers, j ∉ faulty → (commit.stamp i).instant < (commit.stamp j).instant

instance : DecidablePred (commit.Early faulty) :=
  fun _ => inferInstanceAs (Decidable (∀ j ∈ commit.signers, _ → _))

/-- A time is not before all signatures of correct validators. -/
def FromCorrectOn (t : Time) : Prop :=
  ∃ i ∈ commit.signers, i ∉ faulty ∧ (commit.stamp i).instant ≤ t.instant

/-- A time is not after all signatures of correct validators. -/
def UpToCorrect (t : Time) : Prop :=
  ∃ i ∈ commit.signers, i ∉ faulty ∧ t.instant ≤ (commit.stamp i).instant

instance : DecidablePred (commit.FromCorrectOn faulty) :=
  fun _ => inferInstanceAs (Decidable (∃ i ∈ commit.signers, _))

instance : DecidablePred (commit.UpToCorrect faulty) :=
  fun _ => inferInstanceAs (Decidable (∃ i ∈ commit.signers, _))

end Commit

namespace ValidatorSet

variable {vals : ValidatorSet} {commit : Commit} {faulty : Finset Nat} {t : Time}

/-- More than two thirds of the power have signed, so the faulty signatures have less than half of
the power of all signatures. -/
theorem two_mul_faulty_lt (hfaulty : FaultyBelowThird vals faulty)
    (henough : 2 * vals.total < 3 * ∑ i ∈ commit.signers, vals.power i) :
    2 * vals.signedPower commit (· ∈ faulty) < ∑ i ∈ commit.signers, vals.power i := by
  have hle : vals.signedPower commit (· ∈ faulty) ≤ ∑ i ∈ faulty, vals.power i := by
    apply Finset.sum_le_sum_of_subset
    intro i hi
    exact (Finset.mem_filter.mp hi).2
  unfold FaultyBelowThird at hfaulty
  omega

/-- The median is before all correct signatures exactly if the signatures that are reach it. -/
theorem fromCorrectOn_iff (ht : vals.IsMedian commit t)
    (hcorrect : (commit.signers.filter fun i => i ∉ faulty).Nonempty) :
    commit.FromCorrectOn faulty t ↔ ¬ vals.ReachMedian commit (commit.Early faulty) := by
  obtain ⟨m, hm, hmin⟩ :=
    Finset.exists_min_image _ (fun i => (commit.stamp i).instant) hcorrect
  obtain ⟨hsigner, hmcorrect⟩ := Finset.mem_filter.mp hm
  have hearly : ∀ i, commit.Early faulty i ↔
      (commit.stamp i).instant ≤ (commit.stamp m).instant - 1 := by
    intro i
    constructor
    · intro h
      have := h m hsigner hmcorrect
      omega
    · intro h j hj hjcorrect
      have := hmin j (Finset.mem_filter.mpr ⟨hj, hjcorrect⟩)
      omega
  have hbefore : vals.ReachMedian commit (commit.Early faulty) ↔
      t.instant ≤ (commit.stamp m).instant - 1 := by
    rw [ht]
    exact ⟨.mono fun i _ => (hearly i).mp, .mono fun i _ => (hearly i).mpr⟩
  rw [hbefore]
  constructor
  · rintro ⟨i, hi, hicorrect, hle⟩ hlt
    have := hmin i (Finset.mem_filter.mpr ⟨hi, hicorrect⟩)
    omega
  · intro hge
    exact ⟨m, hsigner, hmcorrect, by omega⟩

section Minority

variable
  (hminority : 2 * vals.signedPower commit (· ∈ faulty) < ∑ i ∈ commit.signers, vals.power i)
include hminority

theorem exists_correct_signer : (commit.signers.filter fun i => i ∉ faulty).Nonempty := by
  have hsplit := signedPower_add_not vals commit (· ∈ faulty)
  apply Finset.nonempty_of_sum_ne_zero (f := vals.power)
  unfold signedPower at hminority hsplit
  omega

/-- The median is never after all correct signatures. -/
theorem upToCorrect (ht : vals.IsMedian commit t) : commit.UpToCorrect faulty t := by
  obtain ⟨m, hm, hmax⟩ := Finset.exists_max_image _ (fun i => (commit.stamp i).instant)
    (exists_correct_signer hminority)
  obtain ⟨hsigner, hcorrect⟩ := Finset.mem_filter.mp hm
  refine ⟨m, hsigner, hcorrect, ?_⟩
  rw [ht]
  refine ⟨⟨m, hsigner, Int.le_refl _⟩, ?_⟩
  have hsplit := signedPower_add_not vals commit (· ∈ faulty)
  have hmono : vals.signedPower commit (· ∉ faulty) ≤ vals.signedPower commit
      fun i => (commit.stamp i).instant ≤ (commit.stamp m).instant :=
    signedPower_mono fun i hi hicorrect => hmax i (Finset.mem_filter.mpr ⟨hi, hicorrect⟩)
  omega

end Minority

theorem mem_of_early {i : Nat} (hi : i ∈ commit.signers) (h : commit.Early faulty i) :
    i ∈ faulty := by
  by_contra hcorrect
  exact lt_irrefl _ (h i hi hcorrect)

end ValidatorSet

/-! ### Blocks -/

namespace State

variable {state node : State} {height : Int64} {commit : Commit} {faulty : Finset Nat}
  {block : Block} {t : Time}

/-- A commit for the last block that `VerifyCommit` accepts, whose signatures name their validators
and have timestamps that `UnixNano` can represent, with less than a third of the power faulty. -/
structure Accepts (H : HashFunction) (C : Crypto) (state : State) (height : Int64)
    (commit : Commit) (faulty : Finset Nat) : Prop where
  admissible : state.lastValidators.Admissible
  faulty_lt : FaultyBelowThird state.lastValidators faulty
  accepted : state.lastValidators.verifyCommit H C state.chainID state.lastBlockID (height - 1)
    commit = .ok ()
  attributed : state.lastValidators.Attributed commit
  inRange : StampsInRange commit

/-- A node whose state has the same last block. -/
structure SameLastBlock (state node : State) : Prop where
  initialHeight : node.initialHeight = state.initialHeight
  lastBlockTime : node.lastBlockTime = state.lastBlockTime
  lastValidators : node.lastValidators = state.lastValidators

/-- A block that `MakeBlock` makes with a commit. -/
def Makes (H : HashFunction) (state : State) (height : Int64) (commit : Commit) (block : Block) :
    Prop :=
  ∃ delayTime deliverTime txs evidence proposerAddress,
    state.makeBlock H height delayTime deliverTime txs commit evidence proposerAddress = .ok block

/-- The block is later than the last one and passes the checks of its time. -/
def TimeAccepted (state node : State) (block : Block) (commit : Commit) : Prop :=
  state.lastBlockTime.instant < block.header.time.instant ∧
    node.checkBlockTime block.header.height block.header.time commit = .ok ()

/-- The correct validators stamped their signatures for the last block by `voteTime`, locked on it
or with it as the proposal, with a positive iota. -/
def StampedByVoteTime (state : State) (commit : Commit) (faulty : Finset Nat) : Prop :=
  ∀ i ∈ commit.signers, i ∉ faulty → commit.signedForBlock i = true →
    ∃ now locked proposal timeIotaMs, ∃ block : Block, locked.or proposal = some block ∧
      block.header.time = state.lastBlockTime ∧ 0 < (timeIotaMs * 1000000 : Int64).toInt ∧
      commit.stamp i = voteTime now locked proposal timeIotaMs

theorem height_fillHeader {b : Block} {header : Header} (h : b.fillHeader H commit = some header) :
    header.height = b.header.height := by
  have hbind {x y : Option Bytes} {k : Bytes → Option Header} {c : Prop} [Decidable c]
      (h : (if c then x.bind k else y.bind k) = some header) : ∃ hash, k hash = some header := by
    split at h
    all_goals
      obtain ⟨hash, -, h⟩ := Option.bind_eq_some_iff.mp h
      exact ⟨hash, h⟩
  obtain ⟨lastCommitHash, h⟩ := hbind h
  obtain ⟨evidenceHash, h⟩ := hbind h
  cases h
  rfl

theorem Makes.blockTime_eq (h : state.Makes H height commit block) :
    block.header.height = height ∧ state.blockTime height commit = .ok block.header.time := by
  obtain ⟨delayTime, deliverTime, txs, evidence, proposerAddress, h⟩ := h
  obtain ⟨header, hheader, h⟩ := bind_eq_ok.mp h
  obtain ⟨timestamp, htime, h⟩ := bind_eq_ok.mp h
  obtain ⟨validatorsHash, -, h⟩ := bind_eq_ok.mp h
  obtain ⟨nextValidatorsHash, -, h⟩ := bind_eq_ok.mp h
  cases h
  exact ⟨height_fillHeader (Check.orPanic_eq_ok.mp hheader), htime⟩

/-- A later block passes the checks exactly if the signatures up to the time of the last block do
not reach the median. -/
theorem timeAccepted_iff (hnode : state.SameLastBlock node)
    (hmedian : medianTime commit state.lastValidators = .ok t)
    (ht : state.lastValidators.IsMedian commit t) (hheight : state.initialHeight < height)
    (hmade : state.Makes H height commit block) :
    state.TimeAccepted node block commit ↔ ¬ state.lastValidators.ReachMedian commit
      fun i => (commit.stamp i).instant ≤ state.lastBlockTime.instant := by
  obtain ⟨hblock, htime⟩ := hmade.blockTime_eq
  have hne : height ≠ state.initialHeight := by
    rintro rfl
    exact Int64.lt_irrefl hheight
  rw [blockTime, if_neg hne, hmedian] at htime
  cases htime
  have hlater : height > node.initialHeight := by
    rw [hnode.initialHeight]
    exact hheight
  rw [← ht, Int.not_le, TimeAccepted, checkBlockTime, hblock, if_pos hlater, Check.seq_eq_ok,
    hnode.lastValidators, hmedian, hnode.lastBlockTime]
  constructor
  · intro h
    exact h.1
  · intro h
    refine ⟨h, ?_, ?_⟩
    · rw [Check.failIf_eq_ok, Time.after_iff.mpr h]
      simp
    · exact Check.failIf_eq_ok.mpr (not_not.mpr rfl)

/-- Correct signatures for the last block are later than it. -/
theorem reachMedian_of_stamped (hstamped : state.StampedByVoteTime commit faulty)
    (hlast : state.lastBlockTime.Representable)
    (h : state.lastValidators.ReachMedian commit
      fun i => (commit.stamp i).instant ≤ state.lastBlockTime.instant) :
    state.lastValidators.ReachMedian commit
      fun i => i ∈ faulty ∨ commit.signedForBlock i = false := by
  refine h.mono fun i hi hle => ?_
  by_contra hneither
  rw [not_or, Bool.not_eq_false] at hneither
  obtain ⟨now, locked, proposal, timeIotaMs, block, hblock, htime, hiota, hstamp⟩ :=
    hstamped i hi hneither.1 hneither.2
  have hlt := @lt_voteTime now _ _ _ _ hblock (by rw [htime]; exact hlast) hiota
  rw [← hstamp, htime] at hlt
  omega

/-- The median time of an accepted commit is never after all correct signatures, and before all of
them exactly if the signatures that are reach the median; the faulty ones alone do so only if twice
their power is one less than the power of all signatures. A block made with the commit is later than
the last one, and passes the checks of its time at every node, exactly if the signatures that are
not later than the last block do not reach the median; with timestamps by `voteTime`, unless the
faulty signatures and those for nil do. -/
theorem blockTime_follows_correct_iff (H : HashFunction) (C : Crypto) {state : State}
    {height : Int64} {commit : Commit} {faulty : Finset Nat}
    (h : state.Accepts H C height commit faulty) :
    ∃ t, medianTime commit state.lastValidators = .ok t ∧
      commit.UpToCorrect faulty t ∧
      (commit.FromCorrectOn faulty t ↔
        ¬ state.lastValidators.ReachMedian commit (commit.Early faulty)) ∧
      (((∃ i ∈ commit.signers, i ∈ faulty) → ∑ i ∈ commit.signers, state.lastValidators.power i ≠
          2 * state.lastValidators.signedPower commit (· ∈ faulty) + 1) →
        commit.FromCorrectOn faulty t) ∧
      (state.initialHeight < height → ∀ node block, state.SameLastBlock node →
        state.Makes H height commit block →
        (state.TimeAccepted node block commit ↔ ¬ state.lastValidators.ReachMedian commit
          fun i => (commit.stamp i).instant ≤ state.lastBlockTime.instant) ∧
        (state.StampedByVoteTime commit faulty → state.lastBlockTime.Representable →
          ¬ state.lastValidators.ReachMedian commit
            (fun i => i ∈ faulty ∨ commit.signedForBlock i = false) →
          state.TimeAccepted node block commit)) := by
  obtain ⟨hsubset, henough⟩ := verifyCommit_signers h.admissible h.accepted
  have hminority := two_mul_faulty_lt h.faulty_lt henough
  have hcorrect := exists_correct_signer hminority
  obtain ⟨t, hmedian, ht⟩ := medianTime_spec h.admissible h.attributed h.inRange hsubset
    (hcorrect.mono (Finset.filter_subset _ _))
  have hfrom := fromCorrectOn_iff ht hcorrect
  refine ⟨t, hmedian, upToCorrect hminority ht, hfrom, ?_, ?_⟩
  · intro hodd
    rw [hfrom]
    intro hearly
    obtain ⟨hsome, hhalf⟩ := hearly.mono fun i hi => mem_of_early hi
    have := hodd hsome
    omega
  · intro hheight node block hnode hmade
    have hiff := timeAccepted_iff hnode hmedian ht hheight hmade
    refine ⟨hiff, ?_⟩
    intro hstamped hlast hfree
    rw [hiff]
    intro hreach
    exact hfree (reachMedian_of_stamped hstamped hlast hreach)

/-! ### Samples -/

/-- A signature for the block at a second. -/
def stampedSig (byte : UInt8) (seconds : Int64) : CommitSig :=
  ⟨blockIDFlagCommit, replicate 20 byte, .unix seconds, [byte]⟩

/-- A commit of the four validators for the first block. -/
def stampedCommit (signatures : List CommitSig) : Commit :=
  ⟨1, 0, sampleBlockID 7, signatures⟩

/-- The state after the first block, at second 1000. -/
def sampleState : State where
  version := ⟨blockProtocol, 0⟩
  chainID := []
  initialHeight := 1
  lastBlockHeight := 1
  lastBlockID := sampleBlockID 7
  lastBlockTime := .unix 1000
  nextValidators := sampleValidators
  validators := sampleValidators
  lastValidators := sampleValidators
  consensusParams := ⟨⟨1000, -1, 1000⟩, ⟨10, 10, 100⟩⟩
  lastResultsHash := []
  appHash := []

/-- All four validators have signed after the first block. -/
def calmCommit : Commit :=
  stampedCommit [stampedSig 1 1001, stampedSig 2 1002, stampedSig 3 1003, stampedSig 4 1004]

theorem sampleValidators_distinct :
    (sampleValidators.validators.map (Option.map Validator.address)).Nodup := by
  decide +kernel

theorem blockTime_follows_correct_calmCommit :
    sampleState.Accepts (polynomial 1) sampleCrypto 2 calmCommit {0} ∧
    (∃ t, medianTime calmCommit sampleState.lastValidators = .ok t ∧
      calmCommit.UpToCorrect {0} t ∧ calmCommit.FromCorrectOn {0} t) ∧
    ∃ block, sampleState.Makes (polynomial 1) 2 calmCommit block ∧
      sampleState.TimeAccepted sampleState block calmCommit := by
  have h : sampleState.Accepts (polynomial 1) sampleCrypto 2 calmCommit {0} :=
    { admissible := sampleValidators_admissible
      faulty_lt := faultyBelowThird_sample
      accepted := by decide +kernel
      attributed := ⟨by decide +kernel, sampleValidators_distinct⟩
      inRange := by decide +kernel }
  obtain ⟨block, hmade⟩ : ∃ block, sampleState.Makes (polynomial 1) 2 calmCommit block :=
    ⟨_, ⟨0, Float64.zero_ne⟩, ⟨0, Float64.zero_ne⟩, [], [], [], rfl⟩
  have hlate : ¬ sampleState.lastValidators.ReachMedian calmCommit
      fun i => (calmCommit.stamp i).instant ≤ sampleState.lastBlockTime.instant := by
    unfold ReachMedian
    decide +kernel
  obtain ⟨t, ht, hupTo, -, hfrom, haccepted⟩ := blockTime_follows_correct_iff _ _ h
  refine ⟨h, ⟨t, ht, hupTo, hfrom fun _ => by decide +kernel⟩, block, hmade, ?_⟩
  exact (haccepted (by decide) sampleState block ⟨rfl, rfl, rfl⟩ hmade).1.mpr hlate

/-- One faulty validator of four has signed long before the two others that have signed. -/
def skewedCommit : Commit :=
  stampedCommit [stampedSig 1 5, stampedSig 2 1001, stampedSig 3 1002, .newAbsent]

/-- A faulty validator has signed at a time 2^64 nanoseconds after second 1002. -/
def wrappedCommit : Commit :=
  stampedCommit [{ stampedSig 1 0 with timestamp := ⟨18446745075, ⟨709551616, by decide⟩⟩ },
    stampedSig 2 1001, stampedSig 3 1003, stampedSig 4 1004]

/-- The addresses of the correct signatures have been replaced. -/
def renamedCommit : Commit :=
  stampedCommit [stampedSig 1 5, { stampedSig 2 1001 with validatorAddress := replicate 20 9 },
    { stampedSig 3 1003 with validatorAddress := replicate 20 9 },
    { stampedSig 4 1004 with validatorAddress := replicate 20 9 }]

/-- One faulty validator of four determines the median time: by the rounding of the half, by a time
that `UnixNano` cannot represent, and by the addresses of the others. In the first case the block of
a correct proposer is refused. -/
theorem medianTime_moved_by_faulty :
    (sampleState.Accepts (polynomial 1) sampleCrypto 2 skewedCommit {0} ∧
      medianTime skewedCommit sampleValidators = .ok (.unix 5) ∧
      ¬ skewedCommit.FromCorrectOn {0} (.unix 5) ∧
      sampleState.checkBlockTime 2 (.unix 5) skewedCommit ≠ .ok ()) ∧
    (sampleValidators.verifyCommit (polynomial 1) sampleCrypto [] (sampleBlockID 7) 1
        wrappedCommit = .ok () ∧
      medianTime wrappedCommit sampleValidators = .ok (wrappedCommit.stamp 0) ∧
      ¬ wrappedCommit.UpToCorrect {0} (wrappedCommit.stamp 0)) ∧
    (sampleValidators.verifyCommit (polynomial 1) sampleCrypto [] (sampleBlockID 7) 1
        renamedCommit = .ok () ∧
      medianTime renamedCommit sampleValidators = .ok (renamedCommit.stamp 0) ∧
      ¬ renamedCommit.FromCorrectOn {0} (renamedCommit.stamp 0)) := by
  refine ⟨⟨?_, ?_, ?_, ?_⟩, ⟨?_, ?_, ?_⟩, ?_, ?_, ?_⟩
  · exact
      { admissible := sampleValidators_admissible
        faulty_lt := faultyBelowThird_sample
        accepted := by decide +kernel
        attributed := ⟨by decide +kernel, sampleValidators_distinct⟩
        inRange := by decide +kernel }
  all_goals decide +kernel

end State

end NimbleChain.Tendermint
