import NimbleChain.Tendermint.EstimatorBounds

/-!
# The first timeout of a small interval

At the end of a small interval `computeFirstTimeout` estimates the timeout of the next one. At the
level epoch and under the conditions of `Steady` the estimate is made from the last samples of the
interval and is positive. Samples of at most an hour and multiples of at most 100 keep all durations
in the range of `int64`, so that the numbers of the code are those of the model.
-/

namespace NimbleChain.Tendermint

open Common List Monitor Except
open Set (Icc)

/-! ### Estimates in range -/

/-- The longest block completion time that is considered, in seconds. -/
def longest : ℚ := 3600

/-- The largest multiple that is considered. -/
def largestMultiple : ℚ := 100

/-- A block completion time between a millisecond and an hour. -/
def Proper (x : ℚ) : Prop :=
  x ∈ Icc (1 / 1000) longest

/-- An estimate that such samples allow, in seconds. -/
def Attainable (x : ℚ) : Prop :=
  x ∈ Icc (1 / 1000) (longest + largestMultiple * (longest * longest + 1))

/-- A positive number of milliseconds whose nanoseconds are in the range of `int64`. -/
def Usable (ms : ℤ) : Prop :=
  0 < ms ∧ ms * millisecond < 2 ^ 63

/-- Square roots are at most half a unit above the argument, and rounding does not double that. -/
def FloatUnit.Rounds (u : FloatUnit) : Prop :=
  ∀ x, 0 ≤ x → u.sqrt x ≤ x + 1

variable {c x : ℚ} {data : List ℚ} {u : FloatUnit}

/-- The deviation of samples between zero and a bound. -/
theorem deviation_le (hu : u.Rounds) (hne : data ≠ []) (hdata : ∀ x ∈ data, x ∈ Icc 0 c) :
    deviation u data ≤ c * c + 1 := by
  obtain ⟨hlow, hhigh⟩ := mean_mem_Icc hne hdata
  have hsquares : mean (data.map fun value => (value - mean data) * (value - mean data)) ∈
      Icc 0 (c * c) := by
    refine mean_mem_Icc (by simpa using hne) fun x hx => ?_
    obtain ⟨value, hmem, rfl⟩ := mem_map.mp hx
    obtain ⟨hv, hv'⟩ := hdata value hmem
    have hproduct := mul_nonneg (by linarith : 0 ≤ c - (value - mean data))
      (by linarith : 0 ≤ c + (value - mean data))
    exact ⟨mul_self_nonneg _, by linarith⟩
  rw [mean, foldl_map, length_map] at hsquares
  have hsqrt := hu _ hsquares.1
  rw [deviation]
  linarith [hsquares.2]

variable {multiple : ℚ}

/-- The mean of proper samples plus a multiple of their deviation. -/
theorem attainable_of_proper (hu : u.Rounds) (hne : data ≠ []) (hdata : ∀ x ∈ data, Proper x)
    (hmultiple : multiple ∈ Icc 0 largestMultiple) :
    Attainable (mean data + multiple * deviation u data) := by
  obtain ⟨hlow, hhigh⟩ := mean_mem_Icc hne hdata
  have hstd := deviation_nonneg u data
  have hstd' := deviation_le hu hne fun x hx =>
    ⟨(hdata x hx).1.trans' (by norm_num), (hdata x hx).2⟩
  have hproduct : multiple * deviation u data ≤ largestMultiple * (longest * longest + 1) :=
    mul_le_mul hmultiple.2 hstd' hstd (hmultiple.1.trans hmultiple.2)
  exact ⟨by linarith [mul_nonneg hmultiple.1 hstd], by linarith⟩

/-- The estimate from proper samples. -/
theorem estimate_spec (hu : u.Rounds) (hne : data ≠ []) (hdata : ∀ x ∈ data, Proper x)
    (hmultiple : multiple ∈ Icc 0 largestMultiple) :
    ∃ x, estimate u multiple data = some x ∧ Attainable x :=
  ⟨mean data + multiple * deviation u data, by simp [estimate, meanAndVariance, hne],
    attainable_of_proper hu hne hdata hmultiple⟩

/-- Attainable seconds in milliseconds. -/
theorem usable_truncate (hx : Attainable x) : Usable (truncate (x * 1000)) := by
  obtain ⟨hlow, hhigh⟩ := hx
  have hone : 1 ≤ x * 1000 := by linarith
  have hle : (truncate (x * 1000) : ℚ) ≤ x * 1000 := by
    rw [truncate_eq_floor (by linarith)]
    exact Int.floor_le _
  refine ⟨by rw [truncate_eq_floor (by linarith)]; exact Int.floor_pos.mpr hone, ?_⟩
  unfold longest largestMultiple at hhigh
  have hcast : ((truncate (x * 1000) * 1000000 : ℤ) : ℚ) < 2 ^ 63 := by
    push_cast
    linarith
  exact_mod_cast hcast

/-- Milliseconds of at most an hour. -/
theorem usable_of_proper (hx : Proper (x / 1000)) : Usable (truncate x) := by
  have hattainable : Attainable (x / 1000) :=
    ⟨hx.1, hx.2.trans (by norm_num [longest, largestMultiple])⟩
  simpa using usable_truncate hattainable

/-! ### The samples of an interval -/

/-- The samples of honest proposers, when each sample has a proposer. -/
theorem honestSamples_spec {byz : List ℤ} {samples : List ℚ} {proposers : List ℤ}
    (hlength : samples.length = proposers.length) :
    ∃ honest, honestSamples byz samples proposers = .ok honest ∧ (∀ x ∈ honest, x ∈ samples) ∧
      ((∃ proposer ∈ proposers, proposer ∉ byz) → honest ≠ []) := by
  induction samples generalizing proposers with
  | nil =>
    obtain rfl : proposers = [] := length_eq_zero_iff.mp hlength.symm
    exact ⟨[], rfl, by simp, by simp⟩
  | cons sample samples ih =>
    cases proposers with
    | nil => cases hlength
    | cons proposer proposers =>
      obtain ⟨honest, hhonest, hmem, hne⟩ := ih (Nat.succ.inj hlength)
      refine ⟨if proposer ∈ byz then honest else sample :: honest, ?_, ?_, ?_⟩
      · simp only [honestSamples, hhonest]
        rfl
      · intro x hx
        split at hx
        · exact mem_cons_of_mem _ (hmem x hx)
        · obtain rfl | hx := mem_cons.mp hx
          · exact mem_cons_self
          · exact mem_cons_of_mem _ (hmem x hx)
      · rintro ⟨p, hp, hnot⟩
        split
        · rename_i hbyz
          obtain rfl | hp := mem_cons.mp hp
          · exact absurd hbyz hnot
          · exact hne ⟨p, hp, hnot⟩
        · exact cons_ne_nil _ _

namespace Monitor

variable {u : FloatUnit} {cfg : MonitorConfig} {s s' : Monitor} {i : CommitInput} {start : ℕ}

/-- The samples are the last ones of the interval, if the interval is complete or shorter than an
epoch. -/
theorem firstSamples_eq (hepoch : cfg.epoch ≤ cfg.smallMI)
    (hproposers : s.proposerListofMI.length = s.bctListofMI.length)
    (hlength : s.bctListofMI.length = cfg.smallMI ∨ s.bctListofMI.length < cfg.epoch) :
    s.firstSamples cfg cfg.epoch =
      .ok (s.bctListofMI.rtake cfg.epoch, s.proposerListofMI.rtake cfg.epoch) := by
  unfold firstSamples
  by_cases hfull : s.bctListofMI.length = cfg.smallMI
  · have hposition : ((cfg.smallMI : ℤ) - cfg.epoch).toNat = cfg.smallMI - cfg.epoch := by omega
    rw [if_neg (fun h => h.1 hfull), if_neg (fun h => h.2 (hproposers.trans hfull)),
      sliceFrom, if_pos ⟨by omega, by omega⟩, sliceFrom, if_pos ⟨by omega, by omega⟩, hposition,
      rtake, rtake, hproposers, hfull]
    rfl
  · have hshort := hlength.resolve_left hfull
    rw [if_pos ⟨hfull, hshort⟩, rtake, rtake, hproposers,
      Nat.sub_eq_zero_of_le hshort.le, drop_zero, drop_zero]

/-- How many samples there are at the end of a small interval. -/
theorem Recorded.interval_length (h : Recorded cfg start s) (hstart : 0 < start)
    (hend : cfg.smallMI ∣ s.height)
    (hfirst : cfg.smallMI ∣ start - 1 ∨
      cfg.smallMI - (start - 1) % cfg.smallMI < cfg.epoch) :
    s.bctListofMI.length + 1 = cfg.smallMI ∨ s.bctListofMI.length + 1 < cfg.epoch := by
  have hheight : s.height - 1 = start - 1 + s.records.length := by
    rw [h.height_eq]
    omega
  have hmod : (s.height - 1) % cfg.smallMI + 1 = cfg.smallMI := by
    refine mod_succ_of_dvd ?_
    have hpos : 0 < s.height := by
      rw [h.height_eq]
      omega
    rwa [Nat.sub_add_cancel hpos]
  have hwrap : (s.height - 1) % cfg.smallMI =
      ((start - 1) % cfg.smallMI + s.records.length) % cfg.smallMI := by
    rw [hheight, Nat.mod_add_mod]
  have hoffset : (start - 1) % cfg.smallMI = 0 ∨
      cfg.smallMI - (start - 1) % cfg.smallMI < cfg.epoch :=
    hfirst.imp_left Nat.mod_eq_zero_of_dvd
  have hlt := Nat.mod_lt (start - 1) cfg.smallMI_pos
  rw [h.bct_length, elapsed]
  generalize (start - 1) % cfg.smallMI = offset at hwrap hoffset hlt
  generalize (s.height - 1) % cfg.smallMI = last at hwrap hmod
  by_cases hmany : cfg.smallMI ≤ s.records.length + 1
  · left
    omega
  · right
    by_cases hsum : offset + s.records.length < cfg.smallMI
    · rw [Nat.mod_eq_of_lt hsum] at hwrap
      omega
    · rw [Nat.mod_eq_sub_mod (not_lt.mp hsum), Nat.mod_eq_of_lt (by omega)] at hwrap
      omega

/-! ### Runs in which the timeout stays positive -/

/-- The conditions on a commit: the block took between a millisecond and an hour, and so do the
timeouts that the service answers; the multiple is between 0 and 100; at the end of a small interval
a Byzantine node has seen a block of an honest proposer among the last samples. -/
structure Steady (cfg : MonitorConfig) (s : Monitor) (i : CommitInput) : Prop where
  bct : Proper i.bct
  answer : ∀ answer ∈ i.rljAnswer, Proper (answer.timeout / 1000)
  multiple : s.epochMultiple ∈ Icc 0 largestMultiple
  honest : cfg.smallMI ∣ s.height → (s.noteIndex cfg i.idInt).isByzNode = true →
    ∃ proposer ∈ (s.proposerListofMI ++ [i.proposer]).rtake cfg.epoch,
      proposer ∉ cfg.byzantineNodeList

/-- The timeout is positive and in range, and the samples are proper. -/
structure Healthy (s : Monitor) : Prop where
  timeoutPropose : 0 < s.timeoutPropose ∧ s.timeoutPropose < 2 ^ 63
  bct : ∀ x ∈ s.bctListofMI, Proper x

variable {idInt timeoutPropose currentProposeTime : ℤ} {answer : PccAnswer}

/-- What `computeFirstTimeout` does at the end of a small interval: the estimate is made from the
last samples, at least one and at most an epoch, and the timeouts are usable. -/
structure FirstTimeout (u : FloatUnit) (cfg : MonitorConfig) (s : Monitor) (idInt : ℤ)
    (s' : Monitor) (timeout byzTimeout : ℤ) : Prop where
  computed : s.computeFirstTimeout u cfg cfg.epoch idInt = .ok (s', timeout, byzTimeout)
  usable : Usable timeout
  byz_usable : Usable byzTimeout
  samples : s.firstSamples cfg cfg.epoch =
    .ok (s.bctListofMI.rtake cfg.epoch, s.proposerListofMI.rtake cfg.epoch)
  nonempty : s.bctListofMI.rtake cfg.epoch ≠ []
  estimated :
    timeout = toMilliseconds u (estimate u s.epochMultiple (s.bctListofMI.rtake cfg.epoch))

/-- A node starts with a timeout of at most an hour. -/
theorem Healthy.of_start (hpos : 0 < timeoutPropose)
    (hhour : timeoutPropose ≤ 3600000 * millisecond) :
    Healthy (.start cfg start idInt timeoutPropose currentProposeTime answer) := by
  unfold millisecond at hhour
  refine ⟨?_, by simp [Monitor.start]⟩
  dsimp only [Monitor.start]
  omega

/-- Recording adds a proper sample. -/
theorem Healthy.record (h : Healthy s) (hbct : Proper i.bct) (hrecord : s.record cfg i = .ok s') :
    Healthy s' := by
  obtain ⟨ptl, midata, -, -, rfl⟩ := record_eq_ok hrecord
  refine ⟨h.timeoutPropose, fun x hx => ?_⟩
  obtain hx | hx := mem_append.mp hx
  · exact h.bct x hx
  · exact mem_singleton.mp hx ▸ hbct

/-- Adjusted parameters change nothing about it. -/
theorem Healthy.adjust (h : Healthy s) {code : ℤ} (hadjust : s.adjust code = .ok s') :
    Healthy s' := by
  obtain ⟨ptl, -, hs'⟩ := bind_eq_ok.mp hadjust
  cases hs'
  exact ⟨h.timeoutPropose, h.bct⟩

/-- At the level epoch, the timeouts come from the last samples of the interval. -/
theorem computeFirstTimeout_epoch (hu : u.Rounds) (hepoch : cfg.epoch ≤ cfg.smallMI)
    (hproposers : s.proposerListofMI.length = s.bctListofMI.length)
    (hlength : s.bctListofMI.length = cfg.smallMI ∨ s.bctListofMI.length < cfg.epoch)
    (hne : s.bctListofMI ≠ []) (hhealthy : Healthy s) (hlevel : cfg.updateLevel = .epoch)
    (hmultiple : s.epochMultiple ∈ Icc 0 largestMultiple) {idInt : ℤ}
    (hhonest : (s.noteIndex cfg idInt).isByzNode = true →
      ∃ proposer ∈ s.proposerListofMI.rtake cfg.epoch, proposer ∉ cfg.byzantineNodeList) :
    ∃ timeout byzTimeout,
      FirstTimeout u cfg s idInt (s.noteIndex cfg idInt) timeout byzTimeout := by
  have hproper : ∀ x ∈ s.bctListofMI.rtake cfg.epoch, Proper x := fun x hx =>
    hhealthy.bct x (mem_of_mem_drop hx)
  have hsome : s.bctListofMI.rtake cfg.epoch ≠ [] := by
    have hpos := length_pos_of_ne_nil hne
    have hepoch := cfg.epoch_pos
    apply ne_nil_of_length_pos
    rw [rtake, length_drop]
    omega
  have husable : ∀ data : List ℚ, data ≠ [] → (∀ x ∈ data, Proper x) →
      Usable (toMilliseconds u (estimate u s.epochMultiple data)) := by
    intro data hdata hproper
    obtain ⟨x, hx, hattainable⟩ := estimate_spec hu hdata hproper hmultiple
    rw [hx]
    exact usable_truncate hattainable
  have hfirst : (s.noteIndex cfg idInt).firstSamples cfg cfg.epoch =
      .ok (s.bctListofMI.rtake cfg.epoch, s.proposerListofMI.rtake cfg.epoch) :=
    firstSamples_eq (s := s.noteIndex cfg idInt) hepoch hproposers hlength
  have hlast := firstSamples_eq hepoch hproposers hlength
  by_cases hbyz : (s.noteIndex cfg idInt).isByzNode = true
  · have hlengths : (s.bctListofMI.rtake cfg.epoch).length =
        (s.proposerListofMI.rtake cfg.epoch).length := by
      simp [rtake, hproposers]
    obtain ⟨honest, hsamples', hmem, hne'⟩ :=
      @honestSamples_spec cfg.byzantineNodeList _ _ hlengths
    refine ⟨_, toMilliseconds u (estimate u s.epochMultiple honest), ?_, husable _ hsome hproper,
      husable _ (hne' (hhonest hbyz)) fun x hx => hproper x (hmem x hx), hlast, hsome, rfl⟩
    unfold computeFirstTimeout
    simp only [hlevel, hfirst, bind, Except.bind, hbyz, if_true, hsamples']
    rfl
  · refine ⟨_, _, ?_, husable _ hsome hproper, husable _ hsome hproper, hlast, hsome, rfl⟩
    unfold computeFirstTimeout
    simp only [hlevel, hfirst, bind, Except.bind, hbyz]
    rfl

section

variable (h : Healthy s)

include h

/-- A usable timeout becomes the propose timeout. -/
theorem Healthy.setFirstTimeout {timeout byzTimeout : ℤ} (husable : Usable timeout) :
    Healthy (s.setFirstTimeout cfg timeout byzTimeout) := by
  refine ⟨?_, by simp [Monitor.setFirstTimeout]⟩
  dsimp only [Monitor.setFirstTimeout]
  split
  · exact ⟨mul_pos husable.1 (by decide), husable.2⟩
  · exact h.timeoutPropose

/-- Only the multiples of the statistics change at the end of an interval. -/
theorem Healthy.atMI (hlarge : s.atMI cfg i = .ok s') : Healthy s' := by
  unfold Monitor.atMI at hlarge
  split at hlarge
  · obtain ⟨pcct, -, hlarge⟩ := bind_eq_ok.mp hlarge
    obtain ⟨pcct', -, hlarge⟩ := bind_eq_ok.mp hlarge
    obtain ⟨e, b, rfl⟩ := updateMultiple_eq_ok hlarge
    exact ⟨h.timeoutPropose, h.bct⟩
  · exact ok.inj hlarge ▸ h

/-- The timeout that the service has learned becomes the propose timeout. -/
theorem Healthy.updateProposeTimeOut
    (hanswer : ∀ answer ∈ i.rljAnswer, Proper (answer.timeout / 1000))
    (hupdate : s.updateProposeTimeOut u cfg i = .ok s') : Healthy s' := by
  obtain ⟨s1, hcall, hcases⟩ := updateProposeTimeOut_eq_ok hupdate
  obtain ⟨ptl, rfl⟩ := callTimeOut_same hcall
  obtain rfl | ⟨answer, hmem, rfl⟩ := hcases
  · exact ⟨h.timeoutPropose, h.bct⟩
  · refine ⟨?_, h.bct⟩
    dsimp only [setTimeout]
    split
    · have husable := usable_of_proper (hanswer answer hmem)
      exact ⟨mul_pos husable.1 (by decide), husable.2⟩
    · exact h.timeoutPropose

end

section

variable (hu : u.Rounds) (hlevel : cfg.updateLevel = .epoch) (hstart : 0 < start)
  (hepoch : cfg.epoch ≤ cfg.smallMI)
  (hfirst : cfg.smallMI ∣ start - 1 ∨ cfg.smallMI - (start - 1) % cfg.smallMI < cfg.epoch)
include hu hlevel hstart hepoch hfirst

/-- The timeout that is computed at the end of a small interval, whatever the service did before. -/
theorem first_timeout_spec (hrec : Recorded cfg start s) (hhealthy : Healthy s)
    (hsteady : Steady cfg s i) (hend : cfg.smallMI ∣ s.height) {s1 s2 : Monitor}
    (hrecord : s.record cfg i = .ok s1) (hadjust : s1.adjust i.spcCode = .ok s2) :
    ∃ timeout byzTimeout,
      FirstTimeout u cfg s2 i.idInt (s2.noteIndex cfg i.idInt) timeout byzTimeout ∧ Healthy s2 := by
  have hhealthy2 := (hhealthy.record hsteady.bct hrecord).adjust hadjust
  obtain ⟨ptl, midata, -, -, rfl⟩ := record_eq_ok hrecord
  obtain ⟨ptl', -, hs2⟩ := bind_eq_ok.mp hadjust
  cases hs2
  have hlengths : (s.proposerListofMI ++ [i.proposer]).length =
      (s.bctListofMI ++ [i.bct]).length := by
    rw [length_append, length_append, hrec.proposer_length]
    rfl
  have hlength : (s.bctListofMI ++ [i.bct]).length = cfg.smallMI ∨
      (s.bctListofMI ++ [i.bct]).length < cfg.epoch := by
    rw [length_append, length_singleton]
    exact hrec.interval_length hstart hend hfirst
  obtain ⟨timeout, byzTimeout, hcompute⟩ := computeFirstTimeout_epoch hu hepoch hlengths hlength
    (by simp) hhealthy2 hlevel hsteady.multiple (hsteady.honest hend)
  exact ⟨timeout, byzTimeout, hcompute, hhealthy2⟩

/-- A steady commit keeps a node healthy. -/
theorem Healthy.commit (h : Healthy s) (hrec : Recorded cfg start s) (hsteady : Steady cfg s i)
    (hcommit : s.commit u cfg i = .ok s') : Healthy s' := by
  obtain ⟨s1, s2, s3, s4, hrecord, hsmall, hlarge, hupdate, rfl⟩ := commit_eq_ok hcommit
  have hs2 : Healthy s2 := by
    unfold atSmallMI at hsmall
    split at hsmall
    · rename_i hmod
      have hend : cfg.smallMI ∣ s.height := by
        obtain ⟨ptl, midata, -, -, rfl⟩ := record_eq_ok hrecord
        exact Nat.dvd_of_mod_eq_zero hmod
      obtain ⟨code, hspc, hsmall⟩ := bind_eq_ok.mp hsmall
      obtain ⟨midata, -, hspc⟩ := bind_eq_ok.mp hspc
      obtain ⟨data, -, hspc⟩ := bind_eq_ok.mp hspc
      obtain rfl := PCCTimeout.call_eq_ok hspc
      obtain ⟨s1', hadjust, hsmall⟩ := bind_eq_ok.mp hsmall
      obtain ⟨timeout, byzTimeout, hfirst', hs1'⟩ :=
        first_timeout_spec hu hlevel hstart hepoch hfirst hrec h hsteady hend hrecord hadjust
      have hnoted : Healthy (s1'.noteIndex cfg i.idInt) := ⟨hs1'.timeoutPropose, hs1'.bct⟩
      obtain ⟨result, hcompute, hsmall⟩ := bind_eq_ok.mp hsmall
      cases hfirst'.computed.symm.trans hcompute
      exact ok.inj hsmall ▸ hnoted.setFirstTimeout hfirst'.usable
    · exact ok.inj hsmall ▸ h.record hsteady.bct hrecord
  have hs3 := hs2.atMI hlarge
  have hs4 : Healthy s4 := by
    unfold atEpoch at hupdate
    split at hupdate
    · exact hs3.updateProposeTimeOut hsteady.answer hupdate
    · exact ok.inj hupdate ▸ hs3
  exact ⟨hs4.timeoutPropose, hs4.bct⟩

end

end Monitor

/-! ### Samples -/

namespace MonitorSample

end MonitorSample

end NimbleChain.Tendermint
