import NimbleChain.Tendermint.ValidatorUpdate

/-!
# Exactness of validator updates

A list of changes is applied to a validator set as a whole or not at all. The new set has the
powers of the old one with the changes laid over them, and its priorities are centred and within
the window. The order of the changes does not matter.
-/

namespace NimbleChain.Tendermint

open Common Program List Exact Keyed Validator Int

/-! ### Orders -/

instance : Std.Total fun x y : Validator => x.address ≤ y.address where
  total x y := List.le_total x.address y.address

instance : IsTrans Validator fun x y => x.address ≤ y.address where
  trans _ _ _ := List.le_trans

/-- The order of the powers and addresses, with powers as integers. -/
theorem ranksBefore_iff {x y : Validator} :
    RanksBefore x y ↔ y.stake < x.stake ∨ (x.stake = y.stake ∧ x.address ≤ y.address) := by
  unfold RanksBefore stake
  rw [Int64.lt_iff_toInt_lt, Int64.toInt_inj]

instance : Std.Total RanksBefore where
  total x y := by
    rw [ranksBefore_iff, ranksBefore_iff]
    rcases lt_trichotomy x.stake y.stake with hlt | heq | hgt
    · exact .inr (.inl hlt)
    · rcases List.le_total x.address y.address with hle | hle
      · exact .inl (.inr ⟨heq, hle⟩)
      · exact .inr (.inr ⟨heq.symm, hle⟩)
    · exact .inl (.inl hgt)

instance : IsTrans Validator RanksBefore where
  trans x y z := by
    rw [ranksBefore_iff, ranksBefore_iff, ranksBefore_iff]
    rintro (hxy | ⟨hxy, haddr⟩) (hyz | ⟨hyz, haddr'⟩)
    · exact .inl (by omega)
    · exact .inl (by omega)
    · exact .inl (by omega)
    · exact .inr ⟨by omega, List.le_trans haddr haddr'⟩

theorem sortByAddress_perm (vals : List Validator) : (sortByAddress vals).Perm vals :=
  perm_insertionSort _ vals

theorem sortByAddress_pairwise (vals : List Validator) :
    (sortByAddress vals).Pairwise fun x y => x.address ≤ y.address :=
  pairwise_insertionSort _ vals

variable {vals changes vals' : List Validator} {prevAddr addr : Bytes} {split : ChangeSet}

/-- Validators with distinct addresses, sorted by address. -/
theorem sorted_sortByAddress (h : (vals.map address).Nodup) :
    Sorted address (sortByAddress vals) := by
  have hnodup : ((sortByAddress vals).map address).Nodup :=
    ((sortByAddress_perm vals).map address).nodup_iff.mpr h
  rw [Nodup, pairwise_map] at hnodup
  exact (sortByAddress_pairwise vals).imp₂ (fun _ _ hle hne => bytes_lt_of_le_of_ne hle hne) hnodup

/-- The sorted list does not depend on the order of the original. -/
theorem sortByAddress_congr (hperm : vals.Perm vals') (h : (vals.map address).Nodup) :
    sortByAddress vals = sortByAddress vals' := by
  have h' : (vals'.map address).Nodup :=
    (hperm.map address).nodup_iff.mp h
  refine Perm.eq_of_pairwise ?_ (sorted_sortByAddress h) (sorted_sortByAddress h')
    ((sortByAddress_perm vals).trans (hperm.trans (sortByAddress_perm vals').symm))
  intro x y _ _ hxy hyx
  exact absurd (List.lt_trans hxy hyx) (List.lt_irrefl _)

/-! ### Processing of the changes -/

/-- What `processChanges` has checked when it returns. -/
structure Processed (changes : List Validator) (split : ChangeSet) : Prop where
  sorted : Sorted address (sortByAddress changes)
  range : ∀ v ∈ changes, 0 ≤ v.stake ∧ v.stake ≤ maxTotalVotingPower.toInt
  updates : split.updates = (sortByAddress changes).filter fun v => v.votingPower ≠ 0
  removals : split.removals = (sortByAddress changes).filter fun v => v.votingPower = 0

/-- The scan of sorted changes reports an error, or has checked them and split them. -/
theorem scanChanges_spec (hsorted : changes.Pairwise fun x y => x.address ≤ y.address)
    (hprev : ∀ v ∈ changes, prevAddr ≤ v.address) :
    (∃ e, scanChanges prevAddr changes = .error (.error e)) ∨
      ∃ split, scanChanges prevAddr changes = .ok split ∧ (∀ v ∈ changes, prevAddr < v.address) ∧
        Sorted address changes ∧
        (∀ v ∈ changes, 0 ≤ v.stake ∧ v.stake ≤ maxTotalVotingPower.toInt) ∧
        split.updates = (changes.filter fun v => v.votingPower ≠ 0) ∧
        split.removals = changes.filter fun v => v.votingPower = 0 := by
  induction changes generalizing prevAddr with
  | nil => exact .inr ⟨_, rfl, by simp, .nil, by simp, rfl, rfl⟩
  | cons v changes ih =>
    obtain ⟨hv, hsorted⟩ := pairwise_cons.mp hsorted
    rw [scanChanges]
    split
    · exact .inl ⟨_, rfl⟩
    rename_i hne
    split
    · exact .inl ⟨_, rfl⟩
    rename_i hneg
    split
    · exact .inl ⟨_, rfl⟩
    rename_i hmax
    rw [Int64.lt_iff_toInt_lt, toInt_zero] at hneg
    rw [gt_iff_lt, Int64.lt_iff_toInt_lt] at hmax
    rcases ih hsorted hv with ⟨e, he⟩ | ⟨rest, hrest, hlt, hkeys, hrange, hupdates, hremovals⟩
    · rw [he]
      exact .inl ⟨e, rfl⟩
    · rw [hrest]
      have hprevlt : prevAddr < v.address := bytes_lt_of_le_of_ne (hprev v (by simp)) (Ne.symm hne)
      refine .inr ⟨_, rfl, ?_, pairwise_cons.mpr ⟨hlt, hkeys⟩, ?_, ?_⟩
      · exact List.forall_mem_cons.mpr ⟨hprevlt, fun w hw => List.lt_trans hprevlt (hlt w hw)⟩
      · exact forall_mem_cons.mpr ⟨⟨not_lt.mp hneg, not_lt.mp hmax⟩, hrange⟩
      · by_cases hzero : v.votingPower = 0
        · simp [hzero, hupdates, hremovals]
        · simp [hzero, hupdates, hremovals]

/-- `processChanges` returns or reports an error; it never panics. -/
theorem processChanges_spec (changes : List Validator) :
    (∃ e, processChanges changes = .error (.error e)) ∨
      ∃ split, processChanges changes = .ok split ∧ Processed changes split := by
  have hscans := scanChanges_spec (sortByAddress_pairwise changes) fun v _ => nil_le v.address
  refine hscans.imp_right ?_
  rintro ⟨split, hscan, -, hsorted, hrange, hupdates, hremovals⟩
  refine ⟨split, hscan, hsorted, ?_, hupdates, hremovals⟩
  intro v hv
  exact hrange v ((sortByAddress_perm changes).mem_iff.mpr hv)

namespace Processed

variable {changes : List Validator} {split : ChangeSet} (h : Processed changes split)
include h

theorem nodup : (changes.map address).Nodup :=
  ((sortByAddress_perm changes).map address).nodup_iff.mp h.sorted.nodup

theorem mem_updates {v : Validator} : v ∈ split.updates ↔ v ∈ changes ∧ v.votingPower ≠ 0 := by
  rw [h.updates, mem_filter, (sortByAddress_perm changes).mem_iff]
  simp

theorem sorted_updates : Sorted address split.updates := by
  rw [h.updates]
  exact h.sorted.filter _

theorem sorted_removals : Sorted address split.removals := by
  rw [h.removals]
  exact h.sorted.filter _

/-- The updates and the removals are all changes. -/
theorem perm : (split.updates ++ split.removals).Perm changes := by
  have hsplit := filter_append_perm (fun v : Validator => decide (v.votingPower ≠ 0))
    (sortByAddress changes)
  rw [h.updates, h.removals]
  refine Perm.trans ?_ (hsplit.trans (sortByAddress_perm changes))
  simp

theorem mem_addresses {addr : Bytes} :
    addr ∈ split.updates.map address ++ split.removals.map address ↔
      addr ∈ changes.map address := by
  rw [← map_append]
  exact (h.perm.map address).mem_iff

/-- No address is updated and removed. -/
theorem disjoint : (split.updates.map address).Disjoint (split.removals.map address) := by
  have hnodup := (h.perm.map address).nodup_iff.mpr h.nodup
  rw [map_append] at hnodup
  exact disjoint_of_nodup_append hnodup

end Processed

/-- Changes in another order are processed to the same result, or fail as well. -/
theorem processChanges_congr {changes' : List Validator} (hperm : changes.Perm changes') :
    processChanges changes = processChanges changes' ∨
      ∃ e e', processChanges changes = .error (.error e) ∧
        processChanges changes' = .error (.error e') := by
  by_cases hnodup : (changes.map address).Nodup
  · exact .inl (by rw [processChanges, processChanges, sortByAddress_congr hperm hnodup])
  · have hnodup' : ¬ (changes'.map address).Nodup :=
      fun h => hnodup ((hperm.map address).nodup_iff.mpr h)
    rcases processChanges_spec changes with ⟨e, he⟩ | ⟨split, -, hsplit⟩
    · rcases processChanges_spec changes' with ⟨e', he'⟩ | ⟨split', -, hsplit'⟩
      · exact .inr ⟨e, e', he, he'⟩
      · exact absurd hsplit'.nodup hnodup'
    · exact absurd hsplit.nodup hnodup

/-! ### Valid sets -/

/-- The sum of the voting powers. -/
def totalStake (vals : List Validator) : Int :=
  sumOf stake vals

/-- The validators of a set in use: distinct, with positive powers up to the maximum in total, and
with priorities far from the ends of the 64-bit range. -/
structure ValidValidators (vals : List Validator) : Prop where
  nodup : (vals.map address).Nodup
  positive : ∀ v ∈ vals, 0 < v.stake
  total_le : totalStake vals ≤ maxTotalVotingPower.toInt
  bounded : ∀ v ∈ vals, -3458764513820540928 ≤ v.priority ∧ v.priority ≤ 3458764513820540928

/-- A set whose cached total is not stale. -/
structure CachedValidatorSet.Valid (vals : CachedValidatorSet) : Prop where
  validators : ValidValidators vals.validators
  cached : vals.totalVotingPower = 0 ∨ vals.totalVotingPower.toInt = totalStake vals.validators

/-- The power of the validator with an address; zero if there is none. -/
def stakeAt (vals : List Validator) (addr : Bytes) : Int :=
  valueAt address stake vals addr

namespace ValidValidators

variable {vals : List Validator} (h : ValidValidators vals)
include h

theorem stakeAt_of_find {addr : Bytes} {val : Validator}
    (hfind : findByAddress vals addr = some val) :
    stakeAt vals addr = val.stake ∧ val ∈ vals ∧ val.address = addr := by
  have haddr : val.address = addr := by simpa using find?_some hfind
  have hmem : val ∈ vals := mem_of_find?_eq_some hfind
  subst haddr
  exact ⟨valueAt_of_mem h.nodup hmem, hmem, rfl⟩

theorem stakeAt_nonneg (addr : Bytes) : 0 ≤ stakeAt vals addr := by
  cases hfind : findByAddress vals addr with
  | none =>
    rw [stakeAt, valueAt, ← findByAddress, hfind]
    exact le_refl 0
  | some val =>
    obtain ⟨heq, hmem, -⟩ := h.stakeAt_of_find hfind
    rw [heq]
    exact le_of_lt (h.positive val hmem)

theorem stakes_nonneg (addresses : List Bytes) : 0 ≤ sumOf (stakeAt vals) addresses :=
  sumOf_nonneg fun addr _ => h.stakeAt_nonneg addr

/-- The powers at distinct addresses and the powers of the other validators make up the total. -/
theorem kept_add_stakes {addresses : List Bytes} (hnodup : addresses.Nodup) :
    totalStake (without address addresses vals) +
      sumOf (stakeAt vals) addresses = totalStake vals :=
  sumOf_without_add h.nodup hnodup

theorem kept_nonneg (addresses : List Bytes) :
    0 ≤ totalStake (without address addresses vals) :=
  sumOf_nonneg fun v hv => le_of_lt (h.positive v (mem_without.mp hv).1)

end ValidValidators

theorem findByAddress_eq_none :
    findByAddress vals addr = none ↔ addr ∉ vals.map address := by
  rw [findByAddress, find?_eq_none]
  simp

/-! ### The total -/

theorem powers_map_some (h : ∀ v ∈ vals, 0 ≤ v.stake) :
    (ValidatorSet.powers (vals.map some) : Int) = totalStake vals := by
  induction vals with
  | nil => rfl
  | cons v vals ih =>
    have hv := h v (by simp)
    have ih := ih fun w hw => h w (by simp [hw])
    have hpower : (ValidatorSet.powerOf (some v) : Int) = v.stake :=
      toNat_of_nonneg hv
    rw [map_cons, ValidatorSet.powers, natCast_add, ih, hpower]
    rfl

namespace CachedValidatorSet

variable {E : Failure → CachedValidatorSet → Prop} {s : CachedValidatorSet}

/-- The total is recomputed as the sum of the powers. -/
theorem updateTotalVotingPower_wp {Q : Unit → CachedValidatorSet → Prop}
    (hpos : ∀ v ∈ s.validators, 0 ≤ v.stake)
    (hle : totalStake s.validators ≤ maxTotalVotingPower.toInt)
    (hQ : ∀ total : Int64, total.toInt = totalStake s.validators →
      Q () { s with totalVotingPower := total }) :
    updateTotalVotingPower.wp Q E s := by
  have hentries : ∀ entry ∈ s.validators.map some,
      ∃ val, entry = some val ∧ 0 ≤ val.votingPower.toInt := by
    intro entry hentry
    obtain ⟨v, hv, rfl⟩ := mem_map.mp hentry
    exact ⟨v, rfl, hpos v hv⟩
  obtain ⟨sum, hsum, hvalue⟩ := ValidatorSet.Admissible.sumPowers_eq 0 hentries (by decide)
    (by rw [powers_map_some hpos, toInt_zero]; omega)
  rw [powers_map_some hpos, toInt_zero, zero_add] at hvalue
  simp only [updateTotalVotingPower, wp_bind, wp_get, wp_lift_ok hsum, wp_set]
  exact hQ sum hvalue

/-- The state after a failed update: the cached total may have been filled. -/
structure Unchanged (s s' : CachedValidatorSet) : Prop where
  validators : s'.validators = s.validators
  proposer : s'.proposer = s.proposer
  cached : s'.totalVotingPower = s.totalVotingPower ∨
    s.totalVotingPower = 0 ∧ s'.totalVotingPower.toInt = totalStake s.validators

theorem Unchanged.refl (s : CachedValidatorSet) : Unchanged s s :=
  ⟨rfl, rfl, .inl rfl⟩

/-- The total of a valid set is the sum of the powers. -/
theorem getTotalVotingPower_wp {Q : Int64 → CachedValidatorSet → Prop} (h : s.Valid)
    (hQ : ∀ total s', total.toInt = totalStake s.validators → Unchanged s s' → Q total s') :
    getTotalVotingPower.wp Q E s := by
  simp only [getTotalVotingPower, wp_bind, wp_get, wp_ite, wp_pure]
  constructor
  · intro hzero
    apply updateTotalVotingPower_wp (fun v hv => le_of_lt (h.validators.positive v hv))
      h.validators.total_le
    intro total htotal
    exact hQ _ _ htotal ⟨rfl, rfl, .inr ⟨hzero, htotal⟩⟩
  · intro hne
    exact hQ _ _ (h.cached.resolve_left hne) (.refl s)

end CachedValidatorSet

/-! ### Checks against the set -/

section Checks

variable {vals : List Validator} (h : ValidValidators vals)
include h

theorem removedPower_spec (deletes : List Validator) (acc : Int64) (hacc : 0 ≤ acc.toInt)
    (hle : acc.toInt + sumOf (stakeAt vals) (deletes.map address) ≤ maxTotalVotingPower.toInt) :
    (∃ e, removedPower vals acc deletes = .error (.error e)) ∨
      ∃ removed, removedPower vals acc deletes = .ok removed ∧
        removed.toInt = acc.toInt + sumOf (stakeAt vals) (deletes.map address) ∧
        ∀ v ∈ deletes, v.address ∈ vals.map address := by
  induction deletes generalizing acc with
  | nil => exact .inr ⟨acc, rfl, (add_zero _).symm, by simp⟩
  | cons v deletes ih =>
    rw [removedPower]
    cases hfind : findByAddress vals v.address with
    | none => exact .inl ⟨_, rfl⟩
    | some val =>
      obtain ⟨hstake, hmem, haddr⟩ := h.stakeAt_of_find hfind
      have hrest := h.stakes_nonneg (deletes.map address)
      have hpos := h.positive val hmem
      rw [map_cons, sumOf, hstake] at hle ⊢
      have hsum : (acc + val.votingPower).toInt = acc.toInt + val.stake := by
        apply toInt_add
        change Fits (acc.toInt + val.stake)
        rw [toInt_maxTotalVotingPower] at hle
        unfold Fits
        omega
      rcases ih (acc + val.votingPower) (by omega) (by omega) with he | ⟨r, hr, hval, hall⟩
      · exact .inl he
      · refine .inr ⟨r, hr, by omega, forall_mem_cons.mpr ⟨?_, hall⟩⟩
        exact haddr ▸ mem_map_of_mem hmem

/-- The power that is removed, if all removed validators are there. -/
theorem verifyRemovals_spec {deletes : List Validator}
    (hnodup : (deletes.map address).Nodup) :
    (∃ e, verifyRemovals deletes vals = .error (.error e)) ∨
      ∃ removed, verifyRemovals deletes vals = .ok removed ∧
        removed.toInt = sumOf (stakeAt vals) (deletes.map address) ∧
        ∀ v ∈ deletes, v.address ∈ vals.map address := by
  have htotal := h.kept_add_stakes hnodup
  have hkept := h.kept_nonneg (deletes.map address)
  have hle := h.total_le
  rw [verifyRemovals]
  rcases removedPower_spec h deletes 0 (by decide)
    (by rw [toInt_zero]; omega) with ⟨e, he⟩ | ⟨removed, hremoved, hvalue, hall⟩
  · rw [he]
    exact .inl ⟨e, rfl⟩
  · have hlen := (hnodup.subperm (forall_mem_map.mpr hall)).length_le
    rw [length_map, length_map] at hlen
    rw [hremoved]
    refine .inr ⟨removed, if_neg (by omega), ?_, hall⟩
    rw [hvalue, toInt_zero, zero_add]

theorem toInt_delta {update : Validator} (hpos : 0 ≤ update.stake)
    (hle : update.stake ≤ maxTotalVotingPower.toInt) :
    (delta vals update).toInt = update.stake - stakeAt vals update.address := by
  rw [delta]
  cases hfind : findByAddress vals update.address with
  | none =>
    rw [stakeAt, valueAt_eq_zero (findByAddress_eq_none.mp hfind), sub_zero]
    rfl
  | some val =>
    obtain ⟨hstake, hmem, -⟩ := h.stakeAt_of_find hfind
    have hval := h.positive val hmem
    have hfits := (fits_toInt val.votingPower).2
    change val.stake ≤ _ at hfits
    rw [hstake]
    apply toInt_sub
    change Fits (update.stake - val.stake)
    rw [toInt_maxTotalVotingPower] at hle
    unfold Fits
    omega

/-- The loop adds the differences exactly: no partial sum is negative, as it holds all powers still
to be replaced. -/
theorem addDeltas_spec {updates : List Validator} (acc : Int64)
    (hrange : ∀ v ∈ updates, 0 ≤ v.stake ∧ v.stake ≤ maxTotalVotingPower.toInt)
    (hlow : sumOf (stakeAt vals) (updates.map address) ≤ acc.toInt)
    (hhigh : acc.toInt ≤ maxTotalVotingPower.toInt) :
    (∃ e, addDeltas vals acc updates = .error (.error e)) ∨
      ∃ tvp, addDeltas vals acc updates = .ok tvp ∧
        tvp.toInt = acc.toInt + totalStake updates - sumOf (stakeAt vals) (updates.map address) ∧
        tvp.toInt ≤ maxTotalVotingPower.toInt := by
  induction updates generalizing acc with
  | nil => exact .inr ⟨acc, rfl, (Int.sub_zero _).symm ▸ (Int.add_zero _).symm, hhigh⟩
  | cons v updates ih =>
    obtain ⟨hv, hrange⟩ := forall_mem_cons.mp hrange
    have hrest := h.stakes_nonneg (updates.map address)
    have hstake := h.stakeAt_nonneg v.address
    rw [map_cons, sumOf] at hlow
    have hsum : (acc + delta vals v).toInt = acc.toInt + (v.stake - stakeAt vals v.address) := by
      rw [← toInt_delta h hv.1 hv.2]
      apply toInt_add
      rw [toInt_delta h hv.1 hv.2]
      rw [toInt_maxTotalVotingPower] at hv hhigh
      unfold Fits
      omega
    rw [addDeltas]
    by_cases hgt : acc + delta vals v > maxTotalVotingPower
    · exact .inl ⟨_, if_pos hgt⟩
    · simp only [hgt, if_false]
      rw [gt_iff_lt, Int64.lt_iff_toInt_lt] at hgt
      rcases ih (acc + delta vals v) hrange (by omega) (by omega) with
        he | ⟨tvp, htvp, hvalue, hle⟩
      · exact .inl he
      · refine .inr ⟨tvp, htvp, ?_, hle⟩
        rw [hvalue, map_cons, sumOf, totalStake, totalStake, sumOf]
        omega

end Checks

/-- The validators that the changes do not mention. -/
def kept (vals changes : List Validator) : List Validator :=
  without address (changes.map address) vals

/-- The total without the removed and the replaced powers. -/
theorem Processed.totalStake_kept (h : ValidValidators vals) (hsplit : Processed changes split) :
    totalStake (kept vals changes) +
      sumOf (stakeAt vals) (split.updates.map address) +
      sumOf (stakeAt vals) (split.removals.map address) = totalStake vals := by
  have hperm := hsplit.perm.map address
  rw [map_append] at hperm
  rw [add_assoc, ← sumOf_append, sumOf_perm hperm]
  exact h.kept_add_stakes hsplit.nodup

/-- What has been checked before the changes are applied. -/
structure Verified (vals changes : List Validator) (split : ChangeSet) (tvp : Int64) : Prop where
  processed : Processed changes split
  found : ∀ v ∈ split.removals, v.address ∈ vals.map address
  remains : split.updates ≠ [] ∨ vals.length ≠ split.removals.length
  total_le : totalStake split.updates + totalStake (kept vals changes) ≤ maxTotalVotingPower.toInt
  tvp_nonneg : 0 ≤ tvp.toInt
  tvp_le : tvp.toInt ≤ 2 * maxTotalVotingPower.toInt

namespace CachedValidatorSet

variable {s : CachedValidatorSet} {changes : List Validator} {split : ChangeSet}

/-- The outcome of a failed update. -/
def Failed (s : CachedValidatorSet) (failure : Failure) (s' : CachedValidatorSet) : Prop :=
  (∃ e, failure = .error e) ∧ Unchanged s s'

theorem verifyUpdates_wp {Q : Int64 → CachedValidatorSet → Prop} (h : s.Valid)
    (hsplit : Processed changes split) {removed : Int64}
    (hremoved : removed.toInt = sumOf (stakeAt s.validators) (split.removals.map address))
    (hQ : ∀ tvp s', Unchanged s s' → 0 ≤ tvp.toInt →
      tvp.toInt ≤ 2 * maxTotalVotingPower.toInt →
      totalStake split.updates + totalStake (kept s.validators changes) ≤
        maxTotalVotingPower.toInt → Q tvp s') :
    (verifyUpdates split.updates removed).wp Q (Failed s) s := by
  have hsum := hsplit.totalStake_kept h.validators
  have hkept := h.validators.kept_nonneg (changes.map address)
  change 0 ≤ totalStake (kept s.validators changes) at hkept
  have hupdates := h.validators.stakes_nonneg (split.updates.map address)
  have hremovals := h.validators.stakes_nonneg (split.removals.map address)
  have hnew : 0 ≤ totalStake split.updates :=
    sumOf_nonneg fun v hv => (hsplit.range v (hsplit.mem_updates.mp hv).1).1
  have hle := h.validators.total_le
  simp only [verifyUpdates, wp_bind, wp_get]
  apply getTotalVotingPower_wp h
  intro total s' htotal hunchanged
  have hmax := toInt_maxTotalVotingPower
  have hacc : (total - removed).toInt = totalStake (kept s.validators changes) +
      sumOf (stakeAt s.validators) (split.updates.map address) := by
    rw [toInt_sub (by unfold Fits; omega)]
    omega
  have hperm := perm_insertionSort
    (fun x y => delta s.validators x ≤ delta s.validators y) split.updates
  generalize split.updates.insertionSort
    (fun x y => delta s.validators x ≤ delta s.validators y) = updatesCopy at *
  have haddr : sumOf (stakeAt s.validators) (updatesCopy.map address) =
      sumOf (stakeAt s.validators) (split.updates.map address) :=
    sumOf_perm (hperm.map address)
  have hstakes : totalStake updatesCopy = totalStake split.updates := sumOf_perm hperm
  rcases addDeltas_spec h.validators (total - removed)
    (fun v hv => hsplit.range v (hsplit.mem_updates.mp (hperm.mem_iff.mp hv)).1)
    (by omega) (by omega) with ⟨e, he⟩ | ⟨tvp, htvp, hvalue, htvple⟩
  · rw [wp_bind, wp_lift_error he]
    exact ⟨⟨e, rfl⟩, hunchanged⟩
  · rw [wp_bind, wp_lift_ok htvp, wp_pure]
    have hfinal : (tvp + removed).toInt = tvp.toInt + removed.toInt :=
      toInt_add (by unfold Fits; omega)
    exact hQ _ _ hunchanged (by omega) (by omega) (by omega)

end CachedValidatorSet

/-! ### Application of the changes -/

/-- The powers of a list of validators by address. -/
def powerMap (vals : List Validator) (addr : Bytes) : Option Int64 :=
  (findByAddress vals addr).map votingPower

/-- A map of powers with changes laid over it; the power zero removes an entry. -/
def overlay (powers : Bytes → Option Int64) (changes : List Validator) (addr : Bytes) :
    Option Int64 :=
  match findByAddress changes addr with
  | none => powers addr
  | some change => if change.votingPower = 0 then none else some change.votingPower

/-- The address and the power of a validator. -/
def Validator.entry (v : Validator) : Bytes × Int64 :=
  (v.address, v.votingPower)

theorem powerMap_eq_some (h : (vals.map address).Nodup) {power : Int64} :
    powerMap vals addr = some power ↔ (addr, power) ∈ vals.map entry := by
  induction vals with
  | nil => simp [powerMap, findByAddress]
  | cons v vals ih =>
    obtain ⟨hv, h⟩ := nodup_cons.mp h
    rw [powerMap, findByAddress, find?_cons]
    by_cases heq : v.address = addr
    · subst heq
      have hnot : (v.address, power) ∉ vals.map entry := by
        intro hmem
        obtain ⟨w, hw, hentry⟩ := mem_map.mp hmem
        exact hv (mem_map.mpr ⟨w, hw, congrArg Prod.fst hentry⟩)
      simp [hnot, entry, eq_comm]
    · have hne : (addr, power) ≠ v.entry := fun h => heq (congrArg Prod.fst h).symm
      simp only [heq, decide_false, map_cons, mem_cons, hne, false_or]
      exact ih h

section Application

variable {vals changes : List Validator} {split : ChangeSet} {tvp : Int64}

/-- Updated validators differ from the updates in their priorities only. -/
theorem computeNewPriorities_reprioritised (updates vals : List Validator) (tvp : Int64) :
    Reprioritised updates (computeNewPriorities updates vals tvp) := by
  refine ⟨fun v => (findByAddress vals v.address).elim (-(tvp + (tvp >>> 3)))
    proposerPriority, ?_⟩
  apply map_congr_left
  intro v _
  cases hfind : findByAddress vals v.address <;> simp [hfind]

/-- New validators start at about minus nine eighths of the total. -/
theorem computeNewPriorities_bounded (h : ValidValidators vals) (hnonneg : 0 ≤ tvp.toInt)
    (hle : tvp.toInt ≤ 2 * maxTotalVotingPower.toInt) :
    ∀ v ∈ computeNewPriorities split.updates vals tvp,
      -3458764513820540928 ≤ v.priority ∧ v.priority ≤ 3458764513820540928 := by
  rw [toInt_maxTotalVotingPower] at hle
  have hshift := toInt_shiftRight_three tvp
  have hsum : (tvp + (tvp >>> 3)).toInt = tvp.toInt + tvp.toInt / 8 := by
    rw [← hshift]
    apply toInt_add
    unfold Fits
    omega
  have hneg : (-(tvp + (tvp >>> 3))).toInt = -(tvp.toInt + tvp.toInt / 8) := by
    rw [← hsum]
    apply toInt_neg
    unfold Fits
    omega
  refine forall_mem_map.mpr ?_
  intro v _
  cases hfind : findByAddress vals v.address with
  | none =>
    change -3458764513820540928 ≤ (-(tvp + (tvp >>> 3))).toInt ∧
      (-(tvp + (tvp >>> 3))).toInt ≤ 3458764513820540928
    omega
  | some val => exact h.bounded val (mem_of_find?_eq_some hfind)

variable {merged : List Validator} (h : ValidValidators vals) (hv : Verified vals changes split tvp)
include h hv

/-- The set after the two merges. -/
theorem merged_eq : ∃ merged, removeAll address (merge address
        (sortByAddress vals) (computeNewPriorities split.updates vals tvp)) split.removals =
        some merged ∧
      merged.Perm (computeNewPriorities split.updates vals tvp ++ kept vals changes) := by
  have haddr : (computeNewPriorities split.updates vals tvp).map address =
      split.updates.map address :=
    (computeNewPriorities_reprioritised _ _ _).map_eq _ fun _ _ => rfl
  have hold := sorted_sortByAddress h.nodup
  have hnew := hv.processed.sorted_updates.of_map_eq haddr
  have hperm := merge_perm hold hnew
  rw [haddr] at hperm
  generalize hmerge : merge address (sortByAddress vals)
    (computeNewPriorities split.updates vals tvp) = mergedUpdates at *
  have hsorted : Sorted address mergedUpdates :=
    hmerge ▸ sorted_merge hold hnew
  -- a removed validator is not updated, so the first merge has left it in place
  have hfound : ∀ v ∈ split.removals, v.address ∈ mergedUpdates.map address := by
    intro v hremoval
    obtain ⟨w, hw, heq⟩ := mem_map.mp (hv.found v hremoval)
    refine mem_map.mpr ⟨w, hperm.mem_iff.mpr (mem_append_right _ ?_), heq⟩
    refine mem_without.mpr ⟨(sortByAddress_perm vals).mem_iff.mpr hw, ?_⟩
    intro hupdate
    exact hv.processed.disjoint hupdate (heq ▸ mem_map_of_mem hremoval)
  have hupdates : without address (split.removals.map address)
      (computeNewPriorities split.updates vals tvp) =
      computeNewPriorities split.updates vals tvp := by
    apply without_eq_self
    intro v hupdate
    exact hv.processed.disjoint (haddr ▸ mem_map_of_mem hupdate)
  refine ⟨_, removeAll_eq hsorted hv.processed.sorted_removals hfound, ?_⟩
  refine (without_perm hperm).trans ?_
  rw [without_append, hupdates, without_without, without_congr fun _ => hv.processed.mem_addresses]
  exact (without_perm (sortByAddress_perm vals)).append_left _

variable (hperm : merged.Perm (computeNewPriorities split.updates vals tvp ++ kept vals changes))
include hperm

/-- Some validator remains. -/
theorem merged_ne_nil : merged ≠ [] := by
  rintro rfl
  obtain ⟨hnew, hkept⟩ := append_eq_nil_iff.mp hperm.nil_eq.symm
  have hupdates : split.updates = [] := map_eq_nil_iff.mp hnew
  have hsub : vals.map address ⊆ split.removals.map address := by
    intro a ha
    obtain ⟨v, hmem, rfl⟩ := mem_map.mp ha
    by_contra hnot
    have hchange : v.address ∉ changes.map address := by
      rw [← hv.processed.mem_addresses, hupdates]
      simpa using hnot
    have hin : v ∈ kept vals changes := mem_without.mpr ⟨hmem, hchange⟩
    rw [hkept] at hin
    cases hin
  have hle := (h.nodup.subperm hsub).length_le
  have hge := (hv.processed.sorted_removals.nodup.subperm (forall_mem_map.mpr hv.found)).length_le
  rw [length_map, length_map] at hle hge
  exact hv.remains.elim (fun hne => hne hupdates) fun hne => hne (Nat.le_antisymm hle hge)

/-- The merged validators are valid again. -/
theorem merged_valid : ValidValidators merged := by
  have hnew := computeNewPriorities_reprioritised split.updates vals tvp
  have hkept : ∀ v ∈ kept vals changes, v ∈ vals ∧ v.address ∉ changes.map address :=
    fun v hmem => mem_without.mp hmem
  refine ⟨?_, ?_, ?_, ?_⟩
  · refine (hperm.map address).nodup_iff.mpr ?_
    rw [map_append, hnew.map_eq address fun _ _ => rfl]
    refine nodup_append'.mpr ⟨hv.processed.sorted_updates.nodup, ?_, ?_⟩
    · exact h.nodup.sublist (without_sublist.map _)
    · intro a hupdate hold
      obtain ⟨v, hmem, rfl⟩ := mem_map.mp hold
      exact (hkept v hmem).2 (hv.processed.mem_addresses.mp (mem_append_left _ hupdate))
  · intro v hmem
    rcases mem_append.mp (hperm.mem_iff.mp hmem) with hupdate | hold
    · obtain ⟨priority, heq⟩ := hnew
      rw [heq] at hupdate
      obtain ⟨u, hu, rfl⟩ := mem_map.mp hupdate
      obtain ⟨hchange, hne⟩ := hv.processed.mem_updates.mp hu
      have hnonneg := (hv.processed.range u hchange).1
      have hstake : u.stake ≠ 0 := fun hzero =>
        hne (Int64.toInt_inj.mp (hzero.trans toInt_zero.symm))
      change 0 < u.stake
      omega
    · exact h.positive v (hkept v hold).1
  · rw [totalStake, sumOf_perm hperm, sumOf_append, hnew.sumOf_eq stake fun _ _ => rfl]
    exact hv.total_le
  · intro v hmem
    rcases mem_append.mp (hperm.mem_iff.mp hmem) with hupdate | hold
    · exact computeNewPriorities_bounded h hv.tvp_nonneg hv.tvp_le v hupdate
    · exact h.bounded v (hkept v hold).1

/-- The merged validators have the powers of the old ones with the changes laid over them. -/
theorem merged_powers (hnodup : (merged.map address).Nodup) :
    powerMap merged = overlay (powerMap vals) changes := by
  have hentries : (merged.map entry).Perm
      (split.updates.map entry ++ (kept vals changes).map entry) := by
    have hmap := hperm.map entry
    rwa [map_append, (computeNewPriorities_reprioritised _ _ _).map_eq entry fun _ _ => rfl] at hmap
  funext address
  apply Option.ext
  intro power
  rw [powerMap_eq_some hnodup, hentries.mem_iff, mem_append, overlay]
  cases hfind : findByAddress changes address with
  | none =>
    have hnot := findByAddress_eq_none.mp hfind
    rw [powerMap_eq_some h.nodup]
    constructor
    · rintro (hmem | hmem)
      · obtain ⟨u, hu, heq⟩ := mem_map.mp hmem
        have haddr : u.address = address := congrArg Prod.fst heq
        have hchange := (hv.processed.mem_updates.mp hu).1
        exact absurd (haddr ▸ mem_map_of_mem hchange) hnot
      · exact (without_sublist.map _).subset hmem
    · intro hmem
      obtain ⟨v, hold, heq⟩ := mem_map.mp hmem
      have haddr : v.address = address := congrArg Prod.fst heq
      exact .inr (mem_map.mpr ⟨v, mem_without.mpr ⟨hold, haddr ▸ hnot⟩, heq⟩)
  | some change =>
    have hchange : change ∈ changes := mem_of_find?_eq_some hfind
    obtain rfl : change.address = address := by simpa using find?_some hfind
    have hold : (change.address, power) ∉ (kept vals changes).map entry := by
      intro hmem
      obtain ⟨v, hkept, heq⟩ := mem_map.mp hmem
      have haddr : v.address = change.address := congrArg Prod.fst heq
      exact (mem_without.mp hkept).2 (haddr ▸ mem_map_of_mem hchange)
    have hupdate : (change.address, power) ∈ split.updates.map entry ↔
        change.votingPower ≠ 0 ∧ change.votingPower = power := by
      constructor
      · intro hmem
        obtain ⟨u, hu, heq⟩ := mem_map.mp hmem
        obtain ⟨hmem, hne⟩ := hv.processed.mem_updates.mp hu
        obtain rfl : u = change :=
          inj_on_of_nodup_map hv.processed.nodup hmem hchange (congrArg Prod.fst heq)
        exact ⟨hne, congrArg Prod.snd heq⟩
      · rintro ⟨hne, rfl⟩
        exact mem_map.mpr ⟨change, hv.processed.mem_updates.mpr ⟨hchange, hne⟩, rfl⟩
    simp only [hold, or_false, hupdate]
    by_cases hzero : change.votingPower = 0 <;> simp [hzero]

end Application

/-! ### The update -/

/-- What an update makes of a set: powers overlaid by the changes, the list in order, an exact
total, and priorities centred and within the window. -/
structure Updated (vals changes : List Validator) (s : CachedValidatorSet) : Prop where
  powers : powerMap s.validators = overlay (powerMap vals) changes
  nodup : (s.validators.map address).Nodup
  sorted : s.validators.Pairwise RanksBefore
  total : s.totalVotingPower.toInt = totalStake s.validators
  total_le : totalStake s.validators ≤ maxTotalVotingPower.toInt
  centred : (sumOf priority s.validators).natAbs < s.validators.length
  window : Spread (2 * totalStake s.validators) s.validators

theorem powerMap_congr (h : (vals.map address).Nodup)
    (hperm : (vals.map entry).Perm (vals'.map entry)) :
    powerMap vals = powerMap vals' ∧ (vals'.map address).Nodup := by
  have haddr : (vals.map address).Perm (vals'.map address) := by
    have hmap := hperm.map Prod.fst
    rwa [map_map, map_map] at hmap
  have h' := haddr.nodup_iff.mp h
  refine ⟨?_, h'⟩
  funext address
  apply Option.ext
  intro power
  rw [powerMap_eq_some h, powerMap_eq_some h', hperm.mem_iff]

theorem totalStake_pos (h : ∀ v ∈ vals, 0 < v.stake) (hne : vals ≠ []) : 0 < totalStake vals := by
  obtain ⟨v, rest, rfl⟩ := exists_cons_of_ne_nil hne
  have hv := h v (by simp)
  have hrest : 0 ≤ sumOf stake rest :=
    sumOf_nonneg fun w hw => le_of_lt (h w (by simp [hw]))
  rw [totalStake, sumOf]
  omega

namespace CachedValidatorSet

variable {s : CachedValidatorSet} {Q : Unit → CachedValidatorSet → Prop}
  {E : Failure → CachedValidatorSet → Prop} {changes : List Validator}

/-- Rescaling, centring and sorting of a valid set. -/
theorem normalise_wp {total : Int64} (h : ValidValidators s.validators) (hne : s.validators ≠ [])
    (htotal : total.toInt = totalStake s.validators)
    (hcached : s.totalVotingPower.toInt = totalStake s.validators)
    (hQ : ∀ s', s'.Valid → Updated s.validators [] s' → s'.proposer = s.proposer → Q () s') :
    wp (do
      rescalePriorities (priorityWindowSizeFactor * total)
      shiftByAvgProposerPriority
      modify fun vals => { vals with validators := sortByVotingPower vals.validators }) Q E s := by
  have hpos := totalStake_pos h.positive hne
  have hle := h.total_le
  have hmax := toInt_maxTotalVotingPower
  have hwindow : (priorityWindowSizeFactor * total).toInt = 2 * totalStake s.validators := by
    have htwo : priorityWindowSizeFactor.toInt = 2 := rfl
    rw [toInt_mul, htwo, htotal]
    rw [htwo, htotal]
    unfold Fits
    omega
  have hspread : Spread 6917529027641081856 s.validators := by
    intro v hv w hw
    have := h.bounded v hv
    have := h.bounded w hw
    omega
  obtain ⟨vals, hvals, hsame, hspread⟩ := rescaled_eq hne (by rw [hwindow]; omega) hspread
    (by rw [hwindow, toInt_maxValue]; omega)
  obtain ⟨vals', hvals', hsame', hspread', hbound, hsum⟩ := shifted_eq (hsame.ne_nil hne) hspread
    (by rw [hwindow, toInt_maxValue]; omega)
  rw [hwindow] at hspread' hbound
  simp only [rescalePriorities, shiftByAvgProposerPriority, wp_bind, wp_get,
    wp_lift_ok hvals, wp_set, wp_lift_ok hvals', wp_modify]
  have hperm : (sortByVotingPower vals').Perm vals' := perm_insertionSort _ _
  have hstakes : totalStake (sortByVotingPower vals') = totalStake s.validators := by
    rw [totalStake, sumOf_perm hperm]
    exact (hsame.trans hsame').sumOf_eq stake fun _ _ => rfl
  have hentries : (s.validators.map entry).Perm ((sortByVotingPower vals').map entry) := by
    rw [← (hsame.trans hsame').map_eq entry fun _ _ => rfl]
    exact (hperm.map entry).symm
  obtain ⟨hpowers, hnodup⟩ := powerMap_congr h.nodup hentries
  have hbound' : ∀ v ∈ sortByVotingPower vals',
      -(2 * totalStake s.validators) ≤ v.priority ∧ v.priority ≤ 2 * totalStake s.validators :=
    fun v hv => hbound v (hperm.mem_iff.mp hv)
  have hpositive : ∀ v ∈ sortByVotingPower vals', 0 < v.stake := by
    intro v hv
    have hentry := hentries.mem_iff.mpr (mem_map_of_mem hv)
    obtain ⟨w, hw, heq⟩ := mem_map.mp hentry
    have hpower : w.votingPower = v.votingPower := congrArg Prod.snd heq
    have hstake : w.stake = v.stake := congrArg Int64.toInt hpower
    exact hstake ▸ h.positive w hw
  apply hQ
  · refine ⟨⟨hnodup, hpositive, hstakes ▸ hle, ?_⟩, .inr (hcached.trans hstakes.symm)⟩
    intro v hv
    have := hbound' v hv
    omega
  · refine ⟨hpowers.symm, hnodup, pairwise_insertionSort _ _, hcached.trans hstakes.symm,
      hstakes ▸ hle, ?_, ?_⟩
    · rw [sumOf_perm hperm, hperm.length_eq]
      omega
    · rw [hstakes]
      intro v hv w hw
      exact hspread' v (hperm.mem_iff.mp hv) w (hperm.mem_iff.mp hw)
  · rfl

/-- Verified changes are applied without a panic. -/
theorem applyChanges_wp {split : ChangeSet} {tvp : Int64} (h : ValidValidators s.validators)
    (hv : Verified s.validators changes split tvp)
    (hQ : ∀ s', s'.Valid → Updated s.validators changes s' → s'.proposer = s.proposer → Q () s') :
    (applyChanges split tvp).wp Q E s := by
  obtain ⟨merged, hmerged, hperm⟩ := merged_eq h hv
  have hvalid := merged_valid h hv hperm
  have hpowers := merged_powers h hv hperm hvalid.nodup
  have hpanic : Check.orPanic (removeAll address (merge address
      (sortByAddress s.validators) (computeNewPriorities split.updates s.validators tvp))
      split.removals) = .ok merged :=
    Check.orPanic_eq_ok.mpr hmerged
  simp only [applyChanges, applyUpdates, applyRemovals, wp_bind, wp_get,
    wp_modify, wp_lift_ok hpanic, wp_set]
  apply updateTotalVotingPower_wp (fun v hmem => le_of_lt (hvalid.positive v hmem)) hvalid.total_le
  intro total htotal
  rw [wp_bind]
  apply getTotalVotingPower_wp ⟨hvalid, .inr htotal⟩
  intro total' s' htotal' hunchanged
  have hvalidators : s'.validators = merged := hunchanged.validators
  have hcached : s'.totalVotingPower.toInt = totalStake s'.validators := by
    rw [hvalidators]
    rcases hunchanged.cached with heq | ⟨-, heq⟩
    · exact heq ▸ htotal
    · exact heq
  apply normalise_wp (hvalidators ▸ hvalid) (hvalidators ▸ merged_ne_nil h hv hperm)
    (hvalidators ▸ htotal') hcached
  intro final hfinal hupdated hproposer
  refine hQ final hfinal ?_ (hproposer.trans hunchanged.proposer)
  refine { hupdated with powers := ?_ }
  rw [hupdated.powers, hvalidators, ← hpowers]
  rfl

/-- A check reports an error or passes. -/
theorem wp_failIf {condition : Prop} [Decidable condition] {format : String} {numbers : List Int}
    {strings : List Bytes} (herror : ∀ e, E (.error e) s) (hpass : ¬ condition → Q () s) :
    (lift (Check.failIf condition format numbers strings)).wp Q E s := by
  by_cases h : condition
  · exact (wp_lift_error (if_pos h)).mpr (herror _)
  · exact (wp_lift_ok (if_neg h)).mpr (hpass h)

/-- An update that is not empty either fails and changes nothing, or is exact. -/
theorem updateWithChangeSet_wp (h : s.Valid) (hne : changes ≠ []) (allowDeletes : Bool) :
    (updateWithChangeSet changes allowDeletes).wp
      (fun _ s' => s'.Valid ∧ Updated s.validators changes s' ∧ s'.proposer = s.proposer)
      (Failed s) s := by
  have herror : ∀ e, Failed s (.error e) s := fun e => ⟨⟨e, rfl⟩, .refl s⟩
  rw [updateWithChangeSet, if_neg hne, wp_bind]
  rcases processChanges_spec changes with ⟨e, he⟩ | ⟨split, hsplit, hprocessed⟩
  · exact (wp_lift_error he).mpr (herror e)
  rw [wp_lift_ok hsplit, wp_bind, wp_get, wp_bind]
  apply wp_failIf herror
  intro _
  rw [wp_bind]
  apply wp_failIf herror
  intro hremains
  rw [wp_bind]
  rcases verifyRemovals_spec h.validators hprocessed.sorted_removals.nodup with
    ⟨e, he⟩ | ⟨removed, hremoved, hvalue, hfound⟩
  · exact (wp_lift_error he).mpr (herror e)
  rw [wp_lift_ok hremoved, wp_bind]
  apply verifyUpdates_wp h hprocessed hvalue
  intro tvp s' hunchanged hnonneg hle htotal
  have hverified : Verified s'.validators changes split tvp := by
    rw [hunchanged.validators]
    refine ⟨hprocessed, hfound, ?_, htotal, hnonneg, hle⟩
    by_contra hnone
    rw [not_or, not_not, not_not] at hnone
    exact hremains ⟨by rw [hnone.1]; rfl, hnone.2⟩
  apply applyChanges_wp (hunchanged.validators ▸ h.validators) hverified
  intro final hvalid hupdated hproposer
  exact ⟨hvalid, hunchanged.validators ▸ hupdated, hproposer.trans hunchanged.proposer⟩

/-- Whether a program returned an error. -/
def succeeded (outcome : Except Failure Unit × CachedValidatorSet) : Bool :=
  outcome.1.isOk

/-- An update fails and changes nothing but an empty cache, is empty and changes nothing, or is
exact, whatever the order of the changes. -/
theorem update_exact_and_atomic (s : CachedValidatorSet) (h : s.Valid) (changes : List Validator)
    (allowDeletes : Bool) :
    ((∃ e s', (updateWithChangeSet changes allowDeletes).exec s = (.error (.error e), s') ∧
        Unchanged s s') ∨
      (changes = [] ∧ (updateWithChangeSet changes allowDeletes).exec s = (.ok (), s)) ∨
      (changes ≠ [] ∧ ∃ s', (updateWithChangeSet changes allowDeletes).exec s = (.ok (), s') ∧
        Updated s.validators changes s')) ∧
    ∀ changes', changes.Perm changes' →
      ((updateWithChangeSet changes allowDeletes).exec s).2 =
          ((updateWithChangeSet changes' allowDeletes).exec s).2 ∧
        succeeded ((updateWithChangeSet changes allowDeletes).exec s) =
          succeeded ((updateWithChangeSet changes' allowDeletes).exec s) := by
  constructor
  swap
  · intro changes' hperm
    have hnil : changes = [] ↔ changes' = [] :=
      ⟨fun h => (h ▸ hperm).nil_eq.symm, fun h => (h ▸ hperm).eq_nil⟩
    by_cases hne : changes = []
    · rw [updateWithChangeSet, updateWithChangeSet, if_pos hne, if_pos (hnil.mp hne)]
      exact ⟨rfl, rfl⟩
    · rw [updateWithChangeSet, updateWithChangeSet, if_neg hne, if_neg fun h => hne (hnil.mpr h)]
      rcases processChanges_congr hperm with heq | ⟨e, e', he, he'⟩
      · rw [heq]
        exact ⟨rfl, rfl⟩
      · rw [he, he']
        exact ⟨rfl, rfl⟩
  by_cases hne : changes = []
  · exact .inr (.inl ⟨hne, by rw [updateWithChangeSet, if_pos hne]; rfl⟩)
  · have hwp := updateWithChangeSet_wp h hne allowDeletes
    cases hexec : (updateWithChangeSet changes allowDeletes).exec s with
    | mk result s' =>
      unfold wp at hwp
      rw [hexec] at hwp
      cases result with
      | ok _ => exact .inr (.inr ⟨hne, s', rfl, hwp.2.1⟩)
      | error failure =>
        obtain ⟨⟨e, rfl⟩, hunchanged⟩ := hwp
        exact .inl ⟨e, s', rfl, hunchanged⟩

/-- A validator for examples. -/
def member (address : UInt8) (votingPower priority : Int64) : Validator :=
  ⟨[address], none, votingPower, priority⟩

/-- A set after a change of its powers and one round: the largest difference of the priorities is
19, and the total power is 9. -/
def wideSet : CachedValidatorSet where
  validators := [member 2 6 3, member 1 2 8, member 0 1 (-11)]
  proposer := some [2]
  totalVotingPower := 9

theorem wideSet_valid : wideSet.Valid :=
  ⟨⟨by decide, by decide, by decide, by decide⟩, .inr (by decide)⟩

theorem update_exact_and_atomic_wideSet :
    wideSet.Valid ∧
      succeeded ((updateWithChangeSet [member 5 2 0, member 0 0 0] true).exec wideSet) = true ∧
      ∃ s', (updateWithChangeSet [member 5 2 0, member 0 0 0] true).exec wideSet =
          (.ok (), s') ∧
        Updated wideSet.validators [member 5 2 0, member 0 0 0] s' := by
  have hok : succeeded ((updateWithChangeSet
      [member 5 2 0, member 0 0 0] true).exec wideSet) = true := by
    decide +kernel
  refine ⟨wideSet_valid, hok, ?_⟩
  rcases (update_exact_and_atomic wideSet wideSet_valid
    [member 5 2 0, member 0 0 0] true).1 with
    ⟨e, s', hexec, -⟩ | ⟨hnil, -⟩ | ⟨-, hupdated⟩
  · rw [hexec] at hok
    cases hok
  · cases hnil
  · exact hupdated

/-- Two validators whose priorities are at the ends of the 64-bit range. -/
def extremeSet : CachedValidatorSet where
  validators := [member 0 1 Int64.minValue, member 1 1 Int64.maxValue]
  proposer := none
  totalVotingPower := 2

/-- The methods of `wideSet`'s history after `NewValidatorSet`. -/
def wideHistory : ValidatorProgram Unit := do
  updateWithChangeSet [member 0 1 0, member 1 2 0] true
  incrementProposerPriority 1

/-- An empty change leaves the priorities outside of the window; an error fills the cached total;
and priorities at the ends of the range miss the window. -/
theorem update_not_always_exact :
    ((newValidatorSet [member 0 8 0, member 1 6 0, member 2 6 0]).map
        fun s => (wideHistory.exec s).2) = .ok wideSet ∧
      (updateWithChangeSet [] true).exec wideSet = (.ok (), wideSet) ∧
      ¬ Spread (2 * totalStake wideSet.validators) wideSet.validators ∧
      ((updateWithChangeSet [member 3 maxTotalVotingPower 0] true).exec
        { wideSet with totalVotingPower := 0 }).2 = wideSet ∧
      succeeded ((updateWithChangeSet [member 3 maxTotalVotingPower 0] true).exec
        { wideSet with totalVotingPower := 0 }) = false ∧
      ¬ Spread (2 * totalStake ((updateWithChangeSet [member 2 1 0] true).exec
          extremeSet).2.validators)
        ((updateWithChangeSet [member 2 1 0] true).exec extremeSet).2.validators := by
  refine ⟨?_, rfl, by decide, by decide +kernel, by decide +kernel, by decide +kernel⟩
  decide +kernel

end CachedValidatorSet

end NimbleChain.Tendermint
