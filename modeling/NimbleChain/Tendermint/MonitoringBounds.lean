import NimbleChain.Tendermint.Monitoring

/-!
# The windows and indices of the monitoring intervals

The entry of the current interval holds the data of the heights since the interval, or the node,
began. So the window that `RunSpc` takes at the end of a small interval consists of the last
`SmallMI` heights if the node began with a small interval, and lies beyond the lists otherwise.
-/

namespace NimbleChain.Tendermint

open Common List Except Monitor PCCTimeout Nat

variable (records : List HeightRecord) (midata : MIData)

/-! ### Data of a list of records -/

section Slices

variable {α β : Type}

theorem sliceOf_map (f : α → β) (lo hi : ℕ) (l : List α) :
    sliceOf lo hi (l.map f) = (sliceOf lo hi l).map (map f) := by
  unfold sliceOf
  rw [length_map]
  split
  · simp [Except.map, map_take, map_drop]
  · rfl

end Slices

namespace MIData

/-- The lists of some records. -/
def ofRecords : MIData where
  height := records.map (·.height)
  isLeader := records.map (·.isLeader)
  proposerList := records.map (·.proposer)
  isByzNode := records.map (·.isByzNode)
  actaulTimeoutList := records.map (·.actaulTimeout)
  predictTimeoutList := records.map (·.predictTimeout)
  byzTimeoutList := records.map (·.byzTimeout)
  round := records.map (·.round)
  costList := records.map (·.cost)
  latencyList := records.map (·.latency)
  txNumList := records.map (·.txNum)
  tps := some 0

/-- The lengths of the lists. -/
def lengths : List ℕ :=
  [midata.height.length, midata.isLeader.length, midata.proposerList.length,
    midata.isByzNode.length, midata.actaulTimeoutList.length, midata.predictTimeoutList.length,
    midata.byzTimeoutList.length, midata.round.length, midata.costList.length,
    midata.latencyList.length, midata.txNumList.length]

/-- The data of some heights, with the throughput. -/
def summary : MIData :=
  { ofRecords records with
    tps := tpsOf (records.map (·.latency)) (records.map (·.cost))
      (records.map (·.txNum)) }

theorem lengths_ofRecords : (ofRecords records).lengths = replicate 11 records.length := by
  simp [lengths, ofRecords, replicate]

theorem append_ofRecords (r : HeightRecord) :
    (ofRecords records).append r = ofRecords (records ++ [r]) := by
  simp [append, ofRecords]

end MIData

variable {records : List HeightRecord} {smiIndex smi : ℕ}

theorem getSMIDataFromMIData_eq_ok (hle : (smiIndex + 1) * smi ≤ records.length) :
    getSMIDataFromMIData (.ofRecords records) smiIndex smi =
      .ok (.summary ((records.take ((smiIndex + 1) * smi)).drop (smiIndex * smi))) := by
  have hslice : sliceOf (smiIndex * smi) ((smiIndex + 1) * smi) records = _ := if_pos hle
  simp only [getSMIDataFromMIData, MIData.ofRecords, sliceOf_map, hslice]
  rfl

theorem getSMIDataFromMIData_eq_error (hlt : records.length < (smiIndex + 1) * smi) :
    getSMIDataFromMIData (.ofRecords records) smiIndex smi = .error .sliceOutOfRange := by
  have hslice : sliceOf (smiIndex * smi) ((smiIndex + 1) * smi) records = _ :=
    if_neg (not_le.mpr hlt)
  simp only [getSMIDataFromMIData, MIData.ofRecords, sliceOf_map, hslice]
  rfl

/-! ### What the parts of a commit do -/

namespace PCCTimeout

variable {pcct : PCCTimeout} {midata : MIData}

theorem current_eq_ok : pcct.current = .ok midata ↔
    0 ≤ pcct.excutedNumber ∧ pcct.miData[pcct.excutedNumber.toNat]? = some midata :=
  elementAt_eq_ok

theorem current_setCurrent {old : MIData} (h : pcct.current = .ok old) :
    (pcct.setCurrent midata).current = .ok midata := by
  obtain ⟨hnonneg, hold⟩ := current_eq_ok.mp h
  obtain ⟨hbound, -⟩ := List.getElem_of_getElem? hold
  exact current_eq_ok.mpr ⟨hnonneg, getElem?_set_self hbound⟩

theorem call_eq_ok {β : Type} {answer res : β} (h : pcct.call answer = .ok res) : res = answer := by
  unfold call at h
  split at h
  · exact (ok.inj h).symm
  · cases h

/-- The entries from an index on are empty. -/
def EmptyFrom (pcct : PCCTimeout) (index : ℤ) : Prop :=
  ∀ j : ℕ, index ≤ j → ∀ midata, pcct.miData[j]? = some midata → midata = .empty

section

variable (h : pcct.EmptyFrom (pcct.excutedNumber + 1)) (hnonneg : 0 ≤ pcct.excutedNumber)

include h hnonneg

theorem EmptyFrom.setCurrent : (pcct.setCurrent midata).EmptyFrom (pcct.excutedNumber + 1) := by
  intro j hj midata' hmidata'
  have hne : pcct.excutedNumber.toNat ≠ j := by omega
  rw [PCCTimeout.setCurrent, getElem?_set_ne hne] at hmidata'
  exact h j hj midata' hmidata'

theorem EmptyFrom.setCurrent_empty : (pcct.setCurrent .empty).EmptyFrom pcct.excutedNumber := by
  intro j hj midata hmidata
  by_cases heq : pcct.excutedNumber.toNat = j
  · rw [PCCTimeout.setCurrent, heq, getElem?_set, if_pos rfl] at hmidata
    split at hmidata
    · exact (Option.some.inj hmidata).symm
    · cases hmidata
  · rw [PCCTimeout.setCurrent, getElem?_set_ne heq] at hmidata
    exact h j (by omega) midata hmidata

end

variable {tps : Option ℚ} {pcct' : PCCTimeout} {answer : PccAnswer}

/-- What closing the entry of an interval does: the entry is emptied, or the next one is used. -/
theorem closeEntry_eq_ok (h : closeEntry pcct tps = .ok pcct') :
    ∃ midata, pcct.current = .ok midata ∧
    (pcct' = (pcct.setCurrent { midata with tps := tps }).setCurrent .empty ∨
      (midata.height.length : ℤ) = pcct.mi ∧
      pcct' = { pcct.setCurrent { midata with tps := tps } with
        excutedNumber := pcct.excutedNumber + 1 }) := by
  obtain ⟨midata, hcurrent, h⟩ := bind_eq_ok.mp h
  obtain ⟨pcct1, hclear, h⟩ := bind_eq_ok.mp h
  cases h
  refine ⟨midata, hcurrent, ?_⟩
  unfold clearOrCheck at hclear
  split at hclear
  · obtain ⟨midata', -, hclear⟩ := bind_eq_ok.mp hclear
    cases hclear
    left
    simp [setCurrent]
  · rename_i hlength
    right
    refine ⟨not_not.mp hlength, ?_⟩
    simp only [checkLengths, ite_error_eq_ok] at hclear
    obtain ⟨-, -, -, -, -, hclear⟩ := hclear
    cases hclear
    rfl

/-- What asking for new entries does. -/
theorem renewEntries_eq_ok (h : renewEntries pcct answer = .ok pcct') :
    pcct' = pcct ∧ (pcct.sizeNumber = pcct.excutedNumber → pccLimit < pcct.mi) ∨
    pcct.sizeNumber = pcct.excutedNumber ∧ pcct' = { pcct with
      excutedNumber := 0
      sizeNumber := answer.miOfNumber
      mi := answer.mi
      sizeList := answer.epochSizeList
      miData := answer.epochSizeList.map fun _ => .empty } := by
  unfold renewEntries at h
  split at h
  · rename_i hused
    unfold runPCC at h
    split at h
    · rename_i hlimit
      exact .inl ⟨(ok.inj h).symm, fun _ => hlimit⟩
    · obtain ⟨res, hcall, hset⟩ := bind_eq_ok.mp h
      obtain rfl := call_eq_ok hcall
      exact .inr ⟨hused, (ok.inj hset).symm⟩
  · rename_i hunused
    exact .inl ⟨(ok.inj h).symm, fun hused => absurd hused hunused⟩

/-- The entry that is used after the end of an interval is empty, and so are those behind it. -/
theorem EmptyFrom.endMI {pcct1 pcct2 : PCCTimeout} (h : pcct.EmptyFrom (pcct.excutedNumber + 1))
    (hclose : closeEntry pcct tps = .ok pcct1)
    (hrenew : renewEntries pcct1 answer = .ok pcct2) :
    pcct2.EmptyFrom pcct2.excutedNumber ∧ pcct2.smallMI = pcct.smallMI := by
  obtain ⟨midata, hcurrent, hcases⟩ := closeEntry_eq_ok hclose
  have hnonneg := (current_eq_ok.mp hcurrent).1
  have hclosed : pcct1.EmptyFrom pcct1.excutedNumber ∧ pcct1.smallMI = pcct.smallMI := by
    obtain rfl | ⟨-, rfl⟩ := hcases
    · exact ⟨(h.setCurrent hnonneg).setCurrent_empty hnonneg, rfl⟩
    · exact ⟨h.setCurrent hnonneg, rfl⟩
  obtain ⟨rfl, -⟩ | ⟨-, rfl⟩ := renewEntries_eq_ok hrenew
  · exact hclosed
  · refine ⟨?_, hclosed.2⟩
    intro j _ midata' hmidata'
    simp only [getElem?_map, Option.map_eq_some_iff] at hmidata'
    obtain ⟨size, -, hempty⟩ := hmidata'
    exact hempty.symm

end PCCTimeout

namespace Monitor

variable {u : FloatUnit} {cfg : MonitorConfig} {s s' : Monitor} {i : CommitInput}

/-- What recording a height does. -/
theorem record_eq_ok (h : s.record cfg i = .ok s') : ∃ ptl midata,
    s.ptl.addTime i.bct (s.dataIndex cfg) i.proposer = .ok ptl ∧ s.pcc.current = .ok midata ∧
    s' = { s with
      ptl := ptl
      proposerListofMI := s.proposerListofMI ++ [i.proposer]
      bctListofMI := s.bctListofMI ++ [i.bct]
      pcc := s.pcc.setCurrent (midata.append (s.heightRecord i))
      records := s.records ++ [s.heightRecord i] } := by
  obtain ⟨ptl, hptl, h⟩ := bind_eq_ok.mp h
  obtain ⟨midata, hcurrent, h⟩ := bind_eq_ok.mp h
  exact ⟨ptl, midata, hptl, hcurrent, (ok.inj h).symm⟩

variable {m k height : ℕ} {idInt : ℤ} (committed : ℕ)

/-- `computeFirstTimeout` changes only the list of the level and the flag of the node. -/
theorem computeFirstTimeout_frame {size : ℕ} {timeout byzTimeout : ℤ}
    (h : s.computeFirstTimeout u cfg size idInt = .ok (s', timeout, byzTimeout)) :
    ∃ ptl, s' = { s.noteIndex cfg idInt with ptl := ptl } := by
  unfold computeFirstTimeout at h
  dsimp only at h
  split at h
  · obtain ⟨⟨samples, proposers⟩, -, h⟩ := bind_eq_ok.mp h
    split at h
    · obtain ⟨byzSamples, -, h⟩ := bind_eq_ok.mp h
      exact ⟨_, (Prod.mk.inj (ok.inj h)).1.symm⟩
    · exact ⟨_, (Prod.mk.inj (ok.inj h)).1.symm⟩
  · split at h
    · exact ⟨_, (Prod.mk.inj (ok.inj h)).1.symm⟩
    · exact ⟨_, (Prod.mk.inj (ok.inj h)).1.symm⟩
  · exact ⟨_, (Prod.mk.inj (ok.inj h)).1.symm⟩

/-- The end of a small interval counts it and clears the samples. The data of the interval stays. -/
structure EndsSmallMI (cfg : MonitorConfig) (i : CommitInput) (s s' : Monitor) : Prop where
  height : s'.height = s.height
  pcc : s'.pcc = s.pcc
  records : s'.records = s.records
  spc : cfg.smallMI ∣ s.height → ∃ code, s.pcc.runSpc s.smallMiofMi i.spcCode = .ok code
  smallMiofMi : s'.smallMiofMi =
    if cfg.smallMI ∣ s.height then s.smallMiofMi + 1 else s.smallMiofMi
  bct : s'.bctListofMI = if cfg.smallMI ∣ s.height then [] else s.bctListofMI
  proposers : s'.proposerListofMI = if cfg.smallMI ∣ s.height then [] else s.proposerListofMI

/-- The end of a small interval. -/
theorem atSmallMI_ends (h : s.atSmallMI u cfg i = .ok s') : EndsSmallMI cfg i s s' := by
  unfold atSmallMI at h
  split at h
  · rename_i hmod
    have hdvd := dvd_of_mod_eq_zero hmod
    obtain ⟨code, hspc, h⟩ := bind_eq_ok.mp h
    obtain ⟨s1, hadjust, h⟩ := bind_eq_ok.mp h
    obtain ⟨ptl, -, hptl⟩ := bind_eq_ok.mp hadjust
    cases hptl
    obtain ⟨⟨s2, timeout, byzTimeout⟩, hcompute, h⟩ := bind_eq_ok.mp h
    obtain ⟨ptl', rfl⟩ := computeFirstTimeout_frame hcompute
    cases h
    exact ⟨rfl, rfl, rfl, fun _ => ⟨code, hspc⟩, (if_pos hdvd).symm, (if_pos hdvd).symm,
      (if_pos hdvd).symm⟩
  · rename_i hmod
    have hdvd : ¬cfg.smallMI ∣ s.height := fun hdvd => hmod (mod_eq_zero_of_dvd hdvd)
    cases h
    exact ⟨rfl, rfl, rfl, fun hdvd' => absurd hdvd' hdvd, (if_neg hdvd).symm, (if_neg hdvd).symm,
      (if_neg hdvd).symm⟩

/-- The update at the end of an epoch changes nothing of the intervals. -/
structure SameIntervals (s s' : Monitor) : Prop where
  height : s'.height = s.height
  pcc : s'.pcc = s.pcc
  records : s'.records = s.records
  smallMiofMi : s'.smallMiofMi = s.smallMiofMi
  bct : s'.bctListofMI = s.bctListofMI
  proposers : s'.proposerListofMI = s.proposerListofMI

theorem callTimeOut_same (h : s.callTimeOut u cfg idInt = .ok s') :
    ∃ ptl, s' = { s with ptl := ptl } := by
  unfold callTimeOut at h
  split at h
  · obtain ⟨timeouts, -, h⟩ := bind_eq_ok.mp h
    exact ⟨s.ptl, (ok.inj h).symm⟩
  · exact ⟨_, (ok.inj h).symm⟩
  · exact ⟨s.ptl, (ok.inj h).symm⟩

/-- What an update does: the service is not asked, or its timeouts are set. -/
theorem updateProposeTimeOut_eq_ok (h : s.updateProposeTimeOut u cfg i = .ok s') : ∃ s1,
    (s.noteIndex cfg i.idInt).callTimeOut u cfg i.idInt = .ok s1 ∧
    (s' = s1 ∨ ∃ answer ∈ i.rljAnswer, s' = s1.setTimeout cfg answer) := by
  obtain ⟨s1, hcall, h⟩ := bind_eq_ok.mp h
  refine ⟨s1, hcall, ?_⟩
  cases hanswer : i.rljAnswer with
  | none =>
    rw [hanswer] at h
    exact .inl (ok.inj h).symm
  | some answer =>
    rw [hanswer] at h
    obtain ⟨answer', hrun, hset⟩ := bind_eq_ok.mp h
    obtain ⟨midata, -, hrun⟩ := bind_eq_ok.mp hrun
    obtain ⟨data, -, hrun⟩ := bind_eq_ok.mp hrun
    obtain rfl := call_eq_ok hrun
    exact .inr ⟨answer', rfl, (ok.inj hset).symm⟩

theorem updateProposeTimeOut_same (h : s.updateProposeTimeOut u cfg i = .ok s') :
    SameIntervals s s' := by
  obtain ⟨s1, hcall, hcases⟩ := updateProposeTimeOut_eq_ok h
  obtain ⟨ptl, rfl⟩ := callTimeOut_same hcall
  obtain rfl | ⟨answer, -, rfl⟩ := hcases
  · exact ⟨rfl, rfl, rfl, rfl, rfl, rfl⟩
  · exact ⟨rfl, rfl, rfl, rfl, rfl, rfl⟩

/-- Only the multiples change. -/
theorem updateMultiple_eq_ok (h : s.updateMultiple cfg = .ok s') :
    ∃ e b, s' = { s with epochMultiple := e, blockMultiple := b } := by
  unfold updateMultiple at h
  split at h
  · split at h
    · obtain ⟨size, -, h⟩ := bind_eq_ok.mp h
      exact ⟨_, _, (ok.inj h).symm⟩
    · obtain ⟨size, -, h⟩ := bind_eq_ok.mp h
      exact ⟨_, _, (ok.inj h).symm⟩
    · exact ⟨_, _, (ok.inj h).symm⟩
  · exact ⟨_, _, (ok.inj h).symm⟩

/-- The end of an interval changes the state of the service and starts to count anew. -/
structure EndsMI (cfg : MonitorConfig) (i : CommitInput) (s s' : Monitor) : Prop where
  height : s'.height = s.height
  records : s'.records = s.records
  smallMiofMi : s'.smallMiofMi = if cfg.mi ∣ s.height then 0 else s.smallMiofMi
  bct : s'.bctListofMI = s.bctListofMI
  proposers : s'.proposerListofMI = s.proposerListofMI
  pcc_of_dvd : cfg.mi ∣ s.height → ∃ pcct, closeEntry s.pcc i.tps = .ok pcct ∧
    renewEntries pcct i.pccAnswer = .ok s'.pcc
  pcc_of_not_dvd : ¬cfg.mi ∣ s.height → s'.pcc = s.pcc

/-- The end of an interval. -/
theorem atMI_ends (h : s.atMI cfg i = .ok s') : EndsMI cfg i s s' := by
  unfold atMI at h
  split at h
  · rename_i hmod
    have hdvd := dvd_of_mod_eq_zero hmod
    obtain ⟨pcct, hclose, h⟩ := bind_eq_ok.mp h
    obtain ⟨pcct', hrenew, h⟩ := bind_eq_ok.mp h
    obtain ⟨e, b, rfl⟩ := updateMultiple_eq_ok h
    exact ⟨rfl, rfl, (if_pos hdvd).symm, rfl, rfl, fun _ => ⟨pcct, hclose, hrenew⟩,
      fun hnot => absurd hdvd hnot⟩
  · rename_i hmod
    have hdvd : ¬cfg.mi ∣ s.height := fun hdvd => hmod (mod_eq_zero_of_dvd hdvd)
    cases h
    exact ⟨rfl, rfl, (if_neg hdvd).symm, rfl, rfl, fun hdvd' => absurd hdvd' hdvd, fun _ => rfl⟩

/-- The parts of a commit that succeeds. -/
theorem commit_eq_ok (h : s.commit u cfg i = .ok s') : ∃ s1 s2 s3 s4,
    s.record cfg i = .ok s1 ∧ s1.atSmallMI u cfg i = .ok s2 ∧ s2.atMI cfg i = .ok s3 ∧
    s3.atEpoch u cfg (s.newMiIndex cfg) i = .ok s4 ∧ s' = { s4 with height := s4.height + 1 } := by
  obtain ⟨s1, hrecord, h⟩ := bind_eq_ok.mp h
  obtain ⟨s2, hsmall, h⟩ := bind_eq_ok.mp h
  obtain ⟨s3, hlarge, h⟩ := bind_eq_ok.mp h
  obtain ⟨s4, hepoch, h⟩ := bind_eq_ok.mp h
  exact ⟨s1, s2, s3, s4, hrecord, hsmall, hlarge, hepoch, (ok.inj h).symm⟩

theorem atEpoch_same {newMiIndex : ℤ} (h : s.atEpoch u cfg newMiIndex i = .ok s') :
    SameIntervals s s' := by
  unfold atEpoch at h
  split at h
  · exact updateProposeTimeOut_same h
  · cases h
    exact ⟨rfl, rfl, rfl, rfl, rfl, rfl⟩

/-- What a commit that succeeds does to the intervals. -/
structure Committed (u : FloatUnit) (cfg : MonitorConfig) (i : CommitInput) (s s1 s' : Monitor) :
    Prop where
  record : s.record cfg i = .ok s1
  height : s'.height = s.height + 1
  records : s'.records = s.records ++ [s.heightRecord i]
  spc : cfg.smallMI ∣ s.height → ∃ code, s1.pcc.runSpc s.smallMiofMi i.spcCode = .ok code
  smallMiofMi : s'.smallMiofMi = if cfg.mi ∣ s.height then 0
    else if cfg.smallMI ∣ s.height then s.smallMiofMi + 1 else s.smallMiofMi
  bct : s'.bctListofMI = if cfg.smallMI ∣ s.height then [] else s.bctListofMI ++ [i.bct]
  proposers : s'.proposerListofMI = if cfg.smallMI ∣ s.height then []
    else s.proposerListofMI ++ [i.proposer]
  pcc_of_dvd : cfg.mi ∣ s.height → ∃ pcct, closeEntry s1.pcc i.tps = .ok pcct ∧
    renewEntries pcct i.pccAnswer = .ok s'.pcc
  pcc_of_not_dvd : ¬cfg.mi ∣ s.height → s'.pcc = s1.pcc

/-- The parts of a commit together. -/
theorem committed_of_commit (h : s.commit u cfg i = .ok s') : ∃ s1, Committed u cfg i s s1 s' := by
  obtain ⟨s1, s2, s3, s4, hrecord, hsmall, hlarge, hepoch, rfl⟩ := commit_eq_ok h
  have hends := atSmallMI_ends hsmall
  have hends' := atMI_ends hlarge
  have hsame := atEpoch_same hepoch
  obtain ⟨ptl, midata, -, -, hs1⟩ := record_eq_ok hrecord
  have hheight : s1.height = s.height := hs1 ▸ rfl
  have hrecords : s1.records = s.records ++ [s.heightRecord i] := hs1 ▸ rfl
  have hcount : s1.smallMiofMi = s.smallMiofMi := hs1 ▸ rfl
  have hbct : s1.bctListofMI = s.bctListofMI ++ [i.bct] := hs1 ▸ rfl
  have hproposers : s1.proposerListofMI = s.proposerListofMI ++ [i.proposer] := hs1 ▸ rfl
  refine ⟨s1, ?_⟩
  exact
    { record := hrecord
      height := by simp [hsame.height, hends'.height, hends.height, hheight]
      records := by simp [hsame.records, hends'.records, hends.records, hrecords]
      spc := by simpa [hheight, hcount] using hends.spc
      smallMiofMi := by
        simp [hsame.smallMiofMi, hends'.smallMiofMi, hends.smallMiofMi, hends.height, hheight,
          hcount]
      bct := by simp [hsame.bct, hends'.bct, hends.bct, hheight, hbct]
      proposers := by simp [hsame.proposers, hends'.proposers, hends.proposers, hheight, hproposers]
      pcc_of_dvd := by
        simpa [hsame.pcc, hends.pcc, hends.height, hheight] using hends'.pcc_of_dvd
      pcc_of_not_dvd := by
        simpa [hsame.pcc, hends.pcc, hends.height, hheight] using hends'.pcc_of_not_dvd }

/-- A commit adds one record. -/
theorem Committed.length {s1 : Monitor} (hc : Committed u cfg i s s1 s') :
    s'.records.length = s.records.length + 1 := by
  rw [hc.records, length_append, length_singleton]

/-! ### The data of the current interval -/

/-- How many of the last heights belong to the current interval of the given length, when as many
heights have been committed as given. -/
def elapsed (length height committed : ℕ) : ℕ :=
  min committed ((height - 1) % length)

/-- How many of the recorded heights belong to the current interval. -/
abbrev elapsedMI (cfg : MonitorConfig) (s : Monitor) : ℕ :=
  elapsed cfg.mi s.height s.records.length

theorem mod_succ_of_dvd (hdvd : m ∣ k + 1) : k % m + 1 = m := by
  have hk := div_add_mod k m
  have hsucc := div_add_mod (k + 1) m
  rw [succ_div_of_dvd hdvd, mod_eq_zero_of_dvd hdvd, mul_succ] at hsucc
  omega

theorem succ_mod_of_not_dvd (hdvd : ¬m ∣ k + 1) : (k + 1) % m = k % m + 1 := by
  have hk := div_add_mod k m
  have hsucc := div_add_mod (k + 1) m
  rw [succ_div_of_not_dvd hdvd] at hsucc
  omega

theorem elapsed_of_dvd (hdvd : m ∣ height) : elapsed m (height + 1) committed = 0 := by
  rw [elapsed, Nat.add_sub_cancel, Nat.mod_eq_zero_of_dvd hdvd, Nat.min_zero]

theorem elapsed_of_not_dvd (hpos : 0 < height) (hdvd : ¬m ∣ height) :
    elapsed m (height + 1) (committed + 1) = elapsed m height committed + 1 := by
  obtain ⟨k, rfl⟩ := exists_eq_succ_of_ne_zero hpos.ne'
  unfold elapsed
  rw [Nat.add_sub_cancel, Nat.succ_eq_add_one, Nat.add_sub_cancel, succ_mod_of_not_dvd hdvd]
  omega

/-- The lists hold the data of the heights since their interval, or the node, began. -/
structure Recorded (cfg : MonitorConfig) (start : ℕ) (s : Monitor) : Prop where
  height_eq : s.height = start + s.records.length
  heights : s.records.map (·.height) = List.range' start s.records.length
  current_eq : ∀ midata, s.pcc.current = .ok midata →
    midata = .ofRecords (s.records.rtake (s.elapsedMI cfg))
  emptyFrom : s.pcc.EmptyFrom (s.pcc.excutedNumber + 1)
  smallMI_eq : s.pcc.smallMI = cfg.smallMI
  bct_length : s.bctListofMI.length = elapsed cfg.smallMI s.height s.records.length
  proposer_length : s.proposerListofMI.length = s.bctListofMI.length

namespace Recorded

variable {start : ℕ}

theorem of_start (idInt timeoutPropose currentProposeTime : ℤ) (answer : PccAnswer) :
    Recorded cfg start (.start cfg start idInt timeoutPropose currentProposeTime answer) := by
  have hempty : (initPCC cfg.mi cfg.smallMI cfg.k answer).EmptyFrom 0 := by
    intro j _ midata hmidata
    have hmem := mem_of_getElem? hmidata
    unfold initPCC at hmem
    split at hmem
    · exact mem_singleton.mp hmem
    · obtain ⟨size, -, heq⟩ := mem_map.mp hmem
      exact heq.symm
  refine ⟨rfl, rfl, ?_, ?_, ?_, by simp [Monitor.start, elapsed], rfl⟩
  · intro midata hcurrent
    obtain ⟨hnonneg, hmidata⟩ := PCCTimeout.current_eq_ok.mp hcurrent
    rw [hempty _ (by omega) midata hmidata, Monitor.start, rtake_nil]
    rfl
  · intro j hj midata hmidata
    exact hempty j (by omega) midata hmidata
  · unfold Monitor.start initPCC
    split <;> rfl

/-- What the lists hold after the data of a height has been appended. -/
theorem record_spec (h : Recorded cfg start s) (hrecord : s.record cfg i = .ok s') :
    s'.pcc.current =
        .ok (.ofRecords (s'.records.rtake (s.elapsedMI cfg + 1))) ∧
      s'.pcc.EmptyFrom (s'.pcc.excutedNumber + 1) ∧ s'.pcc.smallMI = cfg.smallMI := by
  obtain ⟨ptl, midata, -, hcurrent, rfl⟩ := record_eq_ok hrecord
  refine ⟨?_, h.emptyFrom.setCurrent (PCCTimeout.current_eq_ok.mp hcurrent).1, h.smallMI_eq⟩
  rw [PCCTimeout.current_setCurrent hcurrent, h.current_eq midata hcurrent,
    MIData.append_ofRecords, rtake_concat_succ]

/-- The node begins above height 0. -/
theorem height_pos (h : Recorded cfg start s) (hstart : 0 < start) : 0 < s.height := by
  rw [h.height_eq]
  omega

/-- The heights after one more record. -/
theorem heights_append (h : Recorded cfg start s) (i : CommitInput) :
    (s.records ++ [s.heightRecord i]).map HeightRecord.height =
      range' start (s.records ++ [s.heightRecord i]).length := by
  have hheight : (s.heightRecord i).height = start + 1 * s.records.length := by
    rw [one_mul]
    exact h.height_eq
  rw [map_append, h.heights, length_append, length_singleton, range'_concat]
  simp [hheight]

/-- A commit keeps the lists complete. -/
theorem commit_step (h : Recorded cfg start s) (hstart : 0 < start)
    (hcommit : s.commit u cfg i = .ok s') : Recorded cfg start s' := by
  obtain ⟨s1, hc⟩ := committed_of_commit hcommit
  obtain ⟨hcurrent, hempty, hsmallMI⟩ := h.record_spec hc.record
  have hpos := h.height_pos hstart
  have hrecords : s1.records = s'.records := by
    obtain ⟨ptl, midata, -, -, rfl⟩ := record_eq_ok hc.record
    exact hc.records.symm
  have hpcc : (∀ midata, s'.pcc.current = .ok midata →
        midata = .ofRecords (s'.records.rtake (elapsed cfg.mi s'.height s'.records.length))) ∧
      s'.pcc.EmptyFrom (s'.pcc.excutedNumber + 1) ∧ s'.pcc.smallMI = cfg.smallMI := by
    rw [hc.height, hc.length]
    by_cases hdvd : cfg.mi ∣ s.height
    · obtain ⟨pcct, hclose, hrenew⟩ := hc.pcc_of_dvd hdvd
      obtain ⟨hfrom, hsame⟩ := hempty.endMI hclose hrenew
      refine ⟨?_, fun j hj => hfrom j (by omega), hsame.trans hsmallMI⟩
      intro midata hmidata
      obtain ⟨hnonneg, hmidata⟩ := PCCTimeout.current_eq_ok.mp hmidata
      rw [elapsed_of_dvd _ hdvd, rtake_zero]
      exact hfrom _ (by omega) midata hmidata
    · rw [hc.pcc_of_not_dvd hdvd, elapsed_of_not_dvd _ hpos hdvd, hcurrent, hrecords]
      exact ⟨fun midata heq => (ok.inj heq).symm, hempty, hsmallMI⟩
  have hlists : s'.bctListofMI.length = elapsed cfg.smallMI s'.height s'.records.length ∧
      s'.proposerListofMI.length = s'.bctListofMI.length := by
    rw [hc.bct, hc.proposers, hc.height, hc.length]
    by_cases hdvd : cfg.smallMI ∣ s.height
    · rw [if_pos hdvd, if_pos hdvd, elapsed_of_dvd _ hdvd]
      exact ⟨rfl, rfl⟩
    · rw [if_neg hdvd, if_neg hdvd, elapsed_of_not_dvd _ hpos hdvd]
      simp [h.bct_length, h.proposer_length]
  refine ⟨?_, ?_, hpcc.1, hpcc.2.1, hpcc.2.2, hlists.1, hlists.2⟩
  · rw [hc.height, hc.length, h.height_eq, add_assoc]
  · rw [hc.records]
    exact h.heights_append i

end Recorded

/-! ### The window of a small interval -/

/-- How the small intervals of the current interval are counted. A node that began inside one does
not get beyond its end. -/
structure Counted (cfg : MonitorConfig) (start : ℕ) (s : Monitor) : Prop where
  aligned : cfg.smallMI ∣ start - 1 → s.smallMiofMi * cfg.smallMI + (s.height - 1) % cfg.smallMI =
    s.elapsedMI cfg
  unaligned : ¬cfg.smallMI ∣ start - 1 → s.smallMiofMi = 0 ∧
    (start - 1) % cfg.smallMI + s.records.length < cfg.smallMI

namespace Counted

variable {start : ℕ}

/-- The entry of the current interval has as many records as its small intervals have heights. -/
theorem elapsed_eq (h : Counted cfg start s) (hrec : Recorded cfg start s) (hstart : 0 < start)
    (haligned : cfg.smallMI ∣ start - 1) (hend : cfg.smallMI ∣ s.height) :
    s.elapsedMI cfg + 1 = (s.smallMiofMi + 1) * cfg.smallMI := by
  have hpos : s.height - 1 + 1 = s.height := Nat.sub_add_cancel (hrec.height_pos hstart)
  have hmod := mod_succ_of_dvd (hpos.symm ▸ hend)
  have hcount := h.aligned haligned
  rw [add_mul, one_mul]
  omega

/-- The entry is shorter than a small interval at the end of the one in which the node began. -/
theorem elapsed_lt (h : Counted cfg start s) (haligned : ¬cfg.smallMI ∣ start - 1) :
    s.elapsedMI cfg + 1 < (s.smallMiofMi + 1) * cfg.smallMI := by
  obtain ⟨hzero, hlt⟩ := h.unaligned haligned
  have hle : s.elapsedMI cfg ≤ s.records.length := min_le_left _ _
  rw [hzero, zero_add, one_mul]
  omega

/-- A commit keeps the count right. -/
theorem commit_step (h : Counted cfg start s) (hrec : Recorded cfg start s) (hstart : 0 < start)
    (hdvd : cfg.smallMI ∣ cfg.mi) (hcommit : s.commit u cfg i = .ok s') :
    Counted cfg start s' := by
  obtain ⟨s1, hc⟩ := committed_of_commit hcommit
  have hpos := hrec.height_pos hstart
  constructor
  · intro haligned
    rw [elapsedMI, hc.smallMiofMi, hc.height, hc.length, Nat.add_sub_cancel]
    by_cases hlarge : cfg.mi ∣ s.height
    · rw [if_pos hlarge, elapsed_of_dvd _ hlarge, zero_mul,
        mod_eq_zero_of_dvd (hdvd.trans hlarge)]
    · rw [if_neg hlarge, elapsed_of_not_dvd _ hpos hlarge]
      by_cases hsmall : cfg.smallMI ∣ s.height
      · rw [if_pos hsmall, mod_eq_zero_of_dvd hsmall,
          h.elapsed_eq hrec hstart haligned hsmall, add_zero]
      · have hmod : s.height % cfg.smallMI = (s.height - 1) % cfg.smallMI + 1 := by
          obtain ⟨k, hk⟩ := exists_eq_succ_of_ne_zero hpos.ne'
          rw [hk] at hsmall ⊢
          exact succ_mod_of_not_dvd hsmall
        rw [if_neg hsmall, hmod, ← add_assoc, h.aligned haligned]
  · intro haligned
    obtain ⟨hzero, hlt⟩ := h.unaligned haligned
    -- The window of the first small interval is out of range, so its end is not committed.
    have hsmall : ¬cfg.smallMI ∣ s.height := by
      intro hend
      obtain ⟨code, hspc⟩ := hc.spc hend
      obtain ⟨midata, hmidata, hspc⟩ := bind_eq_ok.mp hspc
      obtain ⟨window, hwindow, -⟩ := bind_eq_ok.mp hspc
      obtain ⟨hcurrent, -, hsmallMI⟩ := hrec.record_spec hc.record
      cases hcurrent.symm.trans hmidata
      rw [hsmallMI, getSMIDataFromMIData_eq_error] at hwindow
      · cases hwindow
      · refine lt_of_le_of_lt ?_ (h.elapsed_lt haligned)
        rw [rtake, length_drop]
        omega
    have hlarge : ¬cfg.mi ∣ s.height := fun hlarge => hsmall (hdvd.trans hlarge)
    rw [hc.smallMiofMi, if_neg hlarge, if_neg hsmall, hc.length]
    refine ⟨hzero, ?_⟩
    have hheight : s.height = (start - 1 + s.records.length) + 1 := by
      rw [hrec.height_eq]
      omega
    by_contra hge
    apply hsmall
    refine ⟨(start - 1) / cfg.smallMI + 1, ?_⟩
    have hdiv := div_add_mod (start - 1) cfg.smallMI
    rw [mul_succ]
    omega

theorem of_start (idInt timeoutPropose currentProposeTime : ℤ) (answer : PccAnswer) :
    Counted cfg start (.start cfg start idInt timeoutPropose currentProposeTime answer) where
  aligned haligned := by
    simp [Monitor.start, elapsed, mod_eq_zero_of_dvd haligned]
  unaligned _ := ⟨rfl, mod_lt _ cfg.smallMI_pos⟩

end Counted

section Runs

variable {start : ℕ} {idInt timeoutPropose currentProposeTime : ℤ} {answer : PccAnswer}
  {inputs : List CommitInput}

/-- Lists and count in every run. -/
theorem counted_of_run (hstart : 0 < start) (hdvd : cfg.smallMI ∣ cfg.mi)
    (hrun : (machine u cfg (.start cfg start idInt timeoutPropose currentProposeTime answer)).run
      inputs = some s) : Recorded cfg start s ∧ Counted cfg start s := by
  refine Machine.run_invariant_of_step (I := fun s => Recorded cfg start s ∧ Counted cfg start s)
    ⟨Recorded.of_start .., Counted.of_start ..⟩ ?_ hrun
  intro s i s' hs hstep
  have hcommit := step_eq_some.mp hstep
  exact ⟨hs.1.commit_step hstart hcommit, hs.2.commit_step hs.1 hstart hdvd hcommit⟩

/-- The last heights, when at least as many have been committed. -/
theorem heights_rtake {records : List HeightRecord} {first count : ℕ}
    (hheights : records.map (·.height) = range' first records.length)
    (hle : count ≤ records.length) :
    (records.rtake count).map HeightRecord.height =
      range' (first + records.length - count) count := by
  have hrest : records.length - (records.length - count) = count := by omega
  rw [rtake, map_drop, hheights, drop_range', hrest, Nat.mul_one, Nat.add_sub_assoc hle]

/-- When the data of a height has been appended, all lists of the current entry have one length. At
the end of a small interval, the window for the service lies inside of them if and only if the node
began with a small interval, and then it is the data of the last `SmallMI` heights. -/
theorem window_iff_aligned (hstart : 0 < start) (hdvd : cfg.smallMI ∣ cfg.mi)
    (hrun : (machine u cfg (.start cfg start idInt timeoutPropose currentProposeTime answer)).run
      inputs = some s) (hrecord : s.record cfg i = .ok s') :
    ∃ midata, s'.pcc.current = .ok midata ∧
      (∀ length ∈ midata.lengths, length = midata.height.length) ∧
      (cfg.smallMI ∣ s.height →
        (Returns (getSMIDataFromMIData midata s.smallMiofMi s'.pcc.smallMI) ↔
          cfg.smallMI ∣ start - 1) ∧
        (cfg.smallMI ∣ start - 1 →
          getSMIDataFromMIData midata s.smallMiofMi s'.pcc.smallMI =
            .ok (.summary (s'.records.rtake cfg.smallMI)) ∧
          (s'.records.rtake cfg.smallMI).map HeightRecord.height =
            List.range' (s.height + 1 - cfg.smallMI) cfg.smallMI)) := by
  obtain ⟨hrec, hcount⟩ := counted_of_run hstart hdvd hrun
  obtain ⟨hcurrent, -, hsmallMI⟩ := hrec.record_spec hrecord
  have hrecords : s'.records = s.records ++ [s.heightRecord i] := by
    obtain ⟨ptl, midata, -, -, rfl⟩ := record_eq_ok hrecord
    rfl
  have hlength : s'.records.length = s.records.length + 1 := by
    rw [hrecords, length_append, length_singleton]
  have helapsed : s.elapsedMI cfg + 1 ≤ s'.records.length := by
    have hle : s.elapsedMI cfg ≤ s.records.length := min_le_left _ _
    omega
  refine ⟨_, hcurrent, ?_, ?_⟩
  · intro length hmem
    rw [MIData.lengths_ofRecords] at hmem
    rw [eq_of_mem_replicate hmem]
    simp [MIData.ofRecords]
  · intro hend
    rw [hsmallMI]
    have hrtake : (s'.records.rtake (s.elapsedMI cfg + 1)).length =
        s.elapsedMI cfg + 1 := by
      rw [rtake, length_drop]
      omega
    have hwindow : cfg.smallMI ∣ start - 1 →
        getSMIDataFromMIData (.ofRecords (s'.records.rtake
            (s.elapsedMI cfg + 1))) s.smallMiofMi cfg.smallMI =
          .ok (.summary (s'.records.rtake cfg.smallMI)) := by
      intro haligned
      have heq := hcount.elapsed_eq hrec hstart haligned hend
      rw [getSMIDataFromMIData_eq_ok (by rw [hrtake, heq]), take_of_length_le
        (by rw [hrtake, heq]), rtake, drop_drop, rtake, heq]
      have hposition : s'.records.length - (s.smallMiofMi + 1) * cfg.smallMI +
          s.smallMiofMi * cfg.smallMI = s'.records.length - cfg.smallMI := by
        rw [heq, add_mul, one_mul] at helapsed
        rw [add_mul, one_mul]
        omega
      rw [hposition]
    refine ⟨⟨?_, ?_⟩, ?_⟩
    · intro hreturns
      by_contra haligned
      have hlt := hcount.elapsed_lt haligned
      rw [← hrtake] at hlt
      rw [getSMIDataFromMIData_eq_error hlt] at hreturns
      exact Returns.not_error _ hreturns
    · intro haligned
      exact ⟨_, hwindow haligned⟩
    · intro haligned
      have heq := hcount.elapsed_eq hrec hstart haligned hend
      have hle : cfg.smallMI ≤ s'.records.length := by
        rw [heq, add_mul, one_mul] at helapsed
        omega
      have hheights : s'.records.map (·.height) = range' start s'.records.length := by
        rw [hrecords]
        exact hrec.heights_append i
      refine ⟨hwindow haligned, ?_⟩
      rw [heights_rtake hheights hle, hlength, hrec.height_eq, add_assoc]

end Runs

/-! ### The index of the entry -/

end Monitor

/-- The panics that are no wrong index of an entry and no use of a missing client. -/
def Crash.Harmless (crash : Crash) : Prop :=
  crash ≠ .indexOutOfRange .miData ∧ crash ≠ .indexOutOfRange .sizeList ∧ crash ≠ .nilClient

/-- The computation panics neither with a wrong index of an entry nor for a missing client. -/
def Guarded {α : Type} (P : α → Prop) (c : Except Crash α) : Prop :=
  Outcome P Crash.Harmless c

/-- Nothing is asked of the value. -/
abbrev Safe {α : Type} : Except Crash α → Prop :=
  Guarded fun _ => True

namespace Guarded

variable {α β : Type} {P : α → Prop} {c : Except Crash α} {f : α → Except Crash β}

/-- What the values of a computation meet is added to what is known of its panics. -/
theorem with_value (hc : Safe c) (hP : ∀ a, c = .ok a → P a) : Guarded P c := by
  cases c with
  | error crash => exact hc
  | ok a => exact hP a rfl

theorem bind {Q : β → Prop} (hc : Guarded P c) (hf : ∀ a, c = .ok a → P a → Guarded Q (f a)) :
    Guarded Q (c >>= f) :=
  Outcome.bind hc hf

theorem ite {p : Prop} [Decidable p] {d : Except Crash α} (hc : Guarded P c) (hd : Guarded P d) :
    Guarded P (if p then c else d) := by
  split
  · exact hc
  · exact hd

theorem elementAt {list : IndexedList} (l : List α) (index : ℤ) (hmi : list ≠ .miData)
    (hsize : list ≠ .sizeList) : Safe (elementAt list l index) := by
  have hharmless : (Crash.indexOutOfRange list).Harmless := by simp [Crash.Harmless, hmi, hsize]
  unfold Tendermint.elementAt
  split
  · exact hharmless
  · split
    · trivial
    · exact hharmless

theorem sliceOf (lo hi : ℕ) (l : List α) : Safe (sliceOf lo hi l) := by
  unfold Tendermint.sliceOf
  split
  · trivial
  · simp [Guarded, Outcome, Crash.Harmless]

theorem sliceFrom (lo : ℤ) (l : List α) : Safe (sliceFrom lo l) := by
  unfold Tendermint.sliceFrom
  split
  · trivial
  · simp [Guarded, Outcome, Crash.Harmless]

theorem message (text : String) : Guarded P (.error (.message text)) := by
  simp [Guarded, Outcome, Crash.Harmless]

theorem getSMIDataFromMIData (smiIndex smi : ℕ) :
    Safe (getSMIDataFromMIData midata smiIndex smi) := by
  repeat refine bind (sliceOf _ _ _) fun _ _ _ => ?_
  trivial

theorem getAuxiliarydataofHeight (height : ℕ) : Safe (getAuxiliarydataofHeight midata height) := by
  refine bind (elementAt _ _ (by simp) (by simp)) fun last _ _ => ite (message _) ?_
  repeat refine bind (elementAt _ _ (by simp) (by simp)) fun _ _ _ => ?_
  trivial

theorem honestSamples (byz : List ℤ) (samples : List ℚ) (proposers : List ℤ) :
    Safe (honestSamples byz samples proposers) := by
  induction samples generalizing proposers with
  | nil => trivial
  | cons sample samples ih =>
    cases proposers with
    | nil => simp [Tendermint.honestSamples, Guarded, Outcome, Crash.Harmless]
    | cons proposer proposers => exact bind (ih proposers) fun _ _ _ => trivial

theorem mapM (hf : ∀ a, Safe (f a)) (l : List α) : Safe (l.mapM f) := by
  induction l with
  | nil => trivial
  | cons a l ih =>
    rw [mapM_cons]
    exact bind (hf a) fun _ _ _ => bind ih fun _ _ _ => trivial

theorem map {f : α → β} (hc : Guarded P c) : Safe (f <$> c) := by
  cases c with
  | error crash => exact hc
  | ok a => trivial

theorem epochTimeOut (ept : EpochProposeTimeout) (u : FloatUnit) (multiple : ℚ) (isByz : Bool)
    (byz : List ℤ) : Safe (ept.timeOut u multiple isByz byz) := by
  refine ite (bind (mapM ?_ _) fun _ _ _ => trivial) trivial
  intro k
  refine bind (elementAt _ _ (by simp) (by simp)) fun proposer _ _ => ?_
  exact ite trivial (map (elementAt _ _ (by simp) (by simp)))

theorem addTime (time : ℚ) (index proposer : ℤ) (ptl : ProposeTimeList) :
    Safe (ptl.addTime time index proposer) := by
  cases ptl with
  | epoch ept =>
    refine map (P := fun _ => True) ?_
    refine bind (elementAt _ _ (by simp) (by simp)) fun _ _ _ => ?_
    exact bind (elementAt _ _ (by simp) (by simp)) fun _ _ _ => trivial
  | block bpt => trivial
  | merge => trivial

theorem adjustParameters (code : ℤ) (ptl : ProposeTimeList) : Safe (ptl.adjustParameters code) := by
  cases ptl with
  | epoch ept =>
    refine map (P := fun _ => True) ?_
    exact ite trivial (ite trivial (ite trivial (message _)))
  | block bpt =>
    refine map (P := fun _ => True) ?_
    exact ite trivial (ite trivial (ite trivial (message _)))
  | merge => trivial

theorem computeFirstTimeout (u : FloatUnit) (cfg : MonitorConfig) (s : Monitor) (size : ℕ)
    (idInt : ℤ) : Safe (s.computeFirstTimeout u cfg size idInt) := by
  unfold Monitor.computeFirstTimeout
  dsimp only
  split
  · refine bind (P := fun _ => True) ?_ fun samples _ _ => ?_
    · refine ite trivial (ite (message _) ?_)
      exact bind (sliceFrom _ _) fun _ _ _ => bind (sliceFrom _ _) fun _ _ _ => trivial
    · exact ite (bind (honestSamples _ _ _) fun _ _ _ => trivial) trivial
  · split <;> trivial
  · trivial

theorem callTimeOut (u : FloatUnit) (cfg : MonitorConfig) (s : Monitor) (idInt : ℤ) :
    Safe (s.callTimeOut u cfg idInt) := by
  unfold Monitor.callTimeOut
  split
  · exact bind (epochTimeOut _ _ _ _ _) fun _ _ _ => trivial
  · trivial
  · trivial

end Guarded

/-- The index points to an entry, and the client is there. -/
structure PCCTimeout.Indexed (pcct : PCCTimeout) : Prop where
  nonneg : 0 ≤ pcct.excutedNumber
  lt : pcct.excutedNumber < pcct.sizeNumber
  sizeNumber_eq : pcct.sizeNumber = pcct.sizeList.length
  entries : pcct.miData.length = pcct.sizeList.length
  client : pcct.grpcService = true

/-- The service answers with as many sizes as it says, and with at least one. -/
def PccAnswer.Consistent (answer : PccAnswer) : Prop :=
  answer.miOfNumber = answer.epochSizeList.length ∧ answer.epochSizeList ≠ []

instance (answer : PccAnswer) : Decidable answer.Consistent :=
  inferInstanceAs (Decidable (_ ∧ _))

theorem PccAnswer.Consistent.pos {answer : PccAnswer} (h : answer.Consistent) :
    0 < answer.miOfNumber := by
  have hpos := length_pos_of_ne_nil h.2
  rw [h.1]
  omega

namespace PCCTimeout.Indexed

variable {pcct pcct' : PCCTimeout} {midata : MIData} {β : Type} {answer : PccAnswer}
  {tps : Option ℚ}

/-- The first entries of a service in use. -/
theorem of_init {mi smi : ℕ} {epochSize : ℤ} (hmi : (mi : ℤ) ≤ pccLimit)
    (hanswer : answer.Consistent) : (initPCC mi smi epochSize answer).Indexed := by
  rw [initPCC, if_neg (not_lt.mpr hmi)]
  exact ⟨le_refl 0, hanswer.pos, hanswer.1, by simp, rfl⟩

variable (h : pcct.Indexed)
include h

theorem exists_current : ∃ midata, pcct.current = .ok midata :=
  elementAt_of_lt h.nonneg
    (by have hlt := h.lt; rw [h.sizeNumber_eq] at hlt; rw [h.entries]; exact hlt)

theorem setCurrent : (pcct.setCurrent midata).Indexed :=
  ⟨h.nonneg, h.lt, h.sizeNumber_eq, by simp [PCCTimeout.setCurrent, h.entries], h.client⟩

theorem current_guarded : Safe pcct.current := by
  obtain ⟨midata, hmidata⟩ := h.exists_current
  rw [hmidata]
  trivial

theorem call_guarded (answer : β) : Safe (pcct.call answer) := by
  rw [call, if_pos h.client]
  trivial

theorem runSpc_guarded (smiIndex : ℕ) (code : ℤ) : Safe (pcct.runSpc smiIndex code) := by
  refine .bind h.current_guarded fun midata _ _ => ?_
  exact .bind (.getSMIDataFromMIData ..) fun _ _ _ => h.call_guarded code

theorem runRLJ_guarded (height : ℕ) (answer : β) : Safe (pcct.runRLJ height answer) := by
  refine .bind h.current_guarded fun midata _ _ => ?_
  exact .bind (.getAuxiliarydataofHeight ..) fun _ _ _ => h.call_guarded answer

theorem closeEntry_guarded (tps : Option ℚ) : Safe (closeEntry pcct tps) := by
  refine .bind h.current_guarded fun midata _ _ => ?_
  refine .bind (P := fun _ => True) ?_ fun _ _ _ => trivial
  refine .ite (.bind h.setCurrent.current_guarded fun _ _ _ => trivial) ?_
  repeat refine .ite (.message _) ?_
  trivial

/-- After an entry has been closed, the next one is there, or all were used by intervals of the
expected length. -/
theorem closeEntry (hcurrent : pcct.current = .ok midata)
    (hclose : Monitor.closeEntry pcct tps = .ok pcct') :
    pcct'.Indexed ∨ pcct'.sizeNumber = pcct'.excutedNumber ∧
      pcct'.mi = (midata.height.length : ℤ) ∧ pcct'.grpcService = true := by
  obtain ⟨midata', hcurrent', hcases⟩ := closeEntry_eq_ok hclose
  cases hcurrent.symm.trans hcurrent'
  obtain rfl | ⟨hlength, rfl⟩ := hcases
  · exact .inl h.setCurrent.setCurrent
  · have hset : (pcct.setCurrent { midata with tps := tps }).Indexed := h.setCurrent
    have hlt := h.lt
    by_cases hlast : pcct.excutedNumber + 1 = pcct.sizeNumber
    · exact .inr ⟨hlast.symm, hlength.symm, h.client⟩
    · refine .inl ⟨?_, ?_, h.sizeNumber_eq, hset.entries, h.client⟩
      · have hnonneg := h.nonneg
        dsimp only [PCCTimeout.setCurrent]
        omega
      · dsimp only [PCCTimeout.setCurrent]
        omega

/-- The end of an interval that is not counted as unbounded leaves a valid index. -/
theorem endMI_guarded (hcurrent : pcct.current = .ok midata)
    (hlength : (midata.height.length : ℤ) ≤ pccLimit) (hanswer : answer.Consistent)
    (hclose : Monitor.closeEntry pcct tps = .ok pcct') :
    Guarded PCCTimeout.Indexed (Monitor.renewEntries pcct' answer) := by
  have hclosed := h.closeEntry hcurrent hclose
  have hclient : pcct'.grpcService = true := by
    obtain hindexed | ⟨-, -, hclient⟩ := hclosed
    · exact hindexed.client
    · exact hclient
  refine .with_value ?_ ?_
  · refine .ite (.ite trivial ?_) trivial
    rw [call, if_pos hclient]
    trivial
  · intro pcct'' hrenew
    obtain ⟨rfl, hlimit⟩ | ⟨-, rfl⟩ := renewEntries_eq_ok hrenew
    · obtain hindexed | ⟨hused, hmi, -⟩ := hclosed
      · exact hindexed
      · omega
    · exact ⟨le_refl 0, hanswer.pos, hanswer.1, by simp, hclient⟩

end PCCTimeout.Indexed

namespace Monitor

variable {u : FloatUnit} {cfg : MonitorConfig} {s s' : Monitor} {i : CommitInput} {start : ℕ}

section

variable (h : s.pcc.Indexed)

include h

/-- Recording uses the current entry. -/
theorem record_guarded : Guarded (fun s' => s'.pcc.Indexed) (s.record cfg i) := by
  refine .bind (.addTime ..) fun ptl _ _ => ?_
  refine .bind h.current_guarded fun midata _ _ => ?_
  exact h.setCurrent

theorem atSmallMI_guarded : Guarded (fun s' => s'.pcc = s.pcc) (s.atSmallMI u cfg i) := by
  refine .with_value ?_ fun s' hs' => (atSmallMI_ends hs').pcc
  unfold atSmallMI
  split
  · refine .bind (h.runSpc_guarded ..) fun code _ _ => ?_
    refine .bind (P := fun _ => True) ?_ fun _ _ _ => ?_
    · exact .bind (.adjustParameters ..) fun _ _ _ => trivial
    · exact .bind (.computeFirstTimeout ..) fun _ _ _ => trivial
  · trivial

theorem updateMultiple_guarded : Guarded (fun s' => s'.pcc = s.pcc) (s.updateMultiple cfg) := by
  have hlt : s.pcc.excutedNumber < s.pcc.sizeList.length := h.sizeNumber_eq ▸ h.lt
  obtain ⟨size, hsize⟩ := @elementAt_of_lt _ .sizeList _ _ h.nonneg hlt
  refine .ite ?_ rfl
  split
  · rw [hsize]
    rfl
  · rw [hsize]
    rfl
  · rfl

/-- The end of an interval is guarded. -/
theorem atMI_guarded {midata : MIData} (hcurrent : s.pcc.current = .ok midata)
    (hlength : (midata.height.length : ℤ) ≤ pccLimit) (hanswer : i.pccAnswer.Consistent) :
    Guarded (fun s' => s'.pcc.Indexed) (s.atMI cfg i) := by
  unfold atMI
  split
  · refine .bind (h.closeEntry_guarded _) fun pcct hclose _ => ?_
    refine .bind (h.endMI_guarded hcurrent hlength hanswer hclose) fun pcct' _ hpcct' => ?_
    refine Outcome.mono (updateMultiple_guarded hpcct') ?_ fun _ he => he
    intro s' hs'
    exact hs' ▸ hpcct'
  · exact h

theorem atEpoch_guarded (newMiIndex : ℤ) :
    Guarded (fun s' => s'.pcc = s.pcc) (s.atEpoch u cfg newMiIndex i) := by
  refine .with_value ?_ fun s' hs' => (atEpoch_same hs').pcc
  unfold atEpoch
  split
  · refine .bind (.callTimeOut ..) fun s1 hs1 _ => ?_
    obtain ⟨ptl, rfl⟩ := callTimeOut_same hs1
    cases i.rljAnswer with
    | none => trivial
    | some answer => exact .bind (h.runRLJ_guarded ..) fun _ _ _ => trivial
  · trivial

/-- A commit keeps the index valid and never uses an invalid one or a missing client. -/
theorem commit_guarded (hrec : Recorded cfg start s) (hmi : (cfg.mi : ℤ) ≤ pccLimit)
    (hanswer : i.pccAnswer.Consistent) : Guarded (fun s' => s'.pcc.Indexed) (s.commit u cfg i) := by
  refine .bind (record_guarded h) fun s1 hrecord hs1 => ?_
  refine .bind (atSmallMI_guarded hs1) fun s2 hsmall hs2 => ?_
  obtain ⟨hcurrent, -⟩ := hrec.record_spec hrecord
  have hlength : s.elapsedMI cfg + 1 ≤ cfg.mi := by
    have hlt := mod_lt (s.height - 1) cfg.mi_pos
    have hle : s.elapsedMI cfg ≤ (s.height - 1) % cfg.mi :=
      min_le_right _ _
    omega
  refine .bind (atMI_guarded (hs2 ▸ hs1) (hs2 ▸ hcurrent) ?_ hanswer) fun s3 _ hs3 => ?_
  · simp only [MIData.ofRecords, length_map, rtake, length_drop]
    omega
  · refine .bind (atEpoch_guarded hs3 _) fun s4 _ hs4 => ?_
    rw [hs4]
    exact hs3

end

section Runs

variable {idInt timeoutPropose currentProposeTime : ℤ} {answer : PccAnswer}
  {inputs : List CommitInput}

/-- With intervals that the service is used for, and its answers consistent, the index of the
current entry is valid in every state, and no commit uses an invalid index or a missing client. -/
theorem index_valid_of_run (hstart : 0 < start) (hmi : (cfg.mi : ℤ) ≤ pccLimit)
    (hanswer : answer.Consistent) (hinputs : ∀ i ∈ inputs, i.pccAnswer.Consistent)
    (hrun : (machine u cfg (.start cfg start idInt timeoutPropose currentProposeTime answer)).run
      inputs = some s) :
    (0 ≤ s.pcc.excutedNumber ∧ s.pcc.excutedNumber < s.pcc.miData.length ∧
      s.pcc.excutedNumber < s.pcc.sizeList.length ∧ s.pcc.grpcService = true) ∧
    ∀ i : CommitInput, i.pccAnswer.Consistent → ∀ crash, s.commit u cfg i = .error crash →
      crash ≠ .indexOutOfRange .miData ∧ crash ≠ .indexOutOfRange .sizeList ∧
      crash ≠ .nilClient := by
  obtain ⟨hrec, hindexed⟩ : Recorded cfg start s ∧ s.pcc.Indexed := by
    refine Machine.run_invariant (I := fun s => Recorded cfg start s ∧ s.pcc.Indexed)
      ⟨Recorded.of_start .., .of_init hmi hanswer⟩ ?_ (Machine.meets_of_forall hinputs _) hrun
    intro s i s' hs hi hstep
    have hcommit := step_eq_some.mp hstep
    have hguarded := commit_guarded (u := u) hs.2 hs.1 hmi hi
    rw [hcommit] at hguarded
    exact ⟨hs.1.commit_step hstart hcommit, hguarded⟩
  have hlt := hindexed.lt
  rw [hindexed.sizeNumber_eq] at hlt
  refine ⟨⟨hindexed.nonneg, hindexed.entries ▸ hlt, hlt, hindexed.client⟩, ?_⟩
  intro i hi crash hcrash
  have hharmless : crash.Harmless :=
    Outcome.failure (commit_guarded hindexed hrec hmi hi) hcrash
  exact hharmless

end Runs

end Monitor

/-! ### Samples -/

namespace MonitorSample

/-- Arithmetic with the square roots of integer parts. -/
def unit : FloatUnit where
  sqrt x := x.floor.toNat.sqrt
  sqrt_nonneg _ := by positivity
  intOfNaN := -9223372036854775808

/-- Small intervals of two heights, at the given level. -/
def config (level : UpdateLevel) (mi : ℕ) (hmi : 0 < mi) : MonitorConfig where
  mi := mi
  smallMI := 2
  epoch := 1
  k := 3
  updateLevel := level
  update := true
  kUpdate := true
  byzantineNodeList := []
  mi_pos := hmi
  smallMI_pos := by decide
  epoch_pos := by decide

/-- Intervals of four heights, at level epoch. -/
def epochConfig : MonitorConfig :=
  config .epoch 4 (by decide)

/-- Two sizes to try. -/
def answer : PccAnswer := ⟨4, 2, [3, 4]⟩

/-- A commit of a block that took a second. -/
def second : CommitInput where
  proposer := 1
  round := 0
  validatorsSize := 4
  isLeader := false
  idInt := 0
  bct := 1
  actaulTimeout := 1000
  predictTimeout := 3000
  cost := ⟨0, 2000, 0, false⟩
  latency := 2
  txNum := 10
  tps := some 5
  spcCode := 10
  pccAnswer := answer
  rljAnswer := some ⟨2000, 2000⟩

/-- A node with intervals of four heights that begins with the given height. -/
def node (start : ℕ) : Monitor :=
  .start epochConfig start 0 (3000 * millisecond) (3000 * millisecond) answer

/-- A node that begins inside a small interval slices beyond its lists at the end of it. -/
theorem window_out_of_range :
    ∃ s' midata, (node 2).record epochConfig second = .ok s' ∧
      2 ∣ (node 2).height ∧ s'.pcc.current = .ok midata ∧
      getSMIDataFromMIData midata (node 2).smallMiofMi s'.pcc.smallMI = .error .sliceOutOfRange ∧
      (node 2).commit unit epochConfig second = .error .sliceOutOfRange := by
  refine ⟨_, _, rfl, by decide, rfl, rfl, rfl⟩

theorem window_iff_aligned_first :
    ∃ s s' midata, (Monitor.machine unit epochConfig (node 1)).run [second] =
        some s ∧
      s.record epochConfig second = .ok s' ∧ s'.pcc.current = .ok midata ∧
      getSMIDataFromMIData midata s.smallMiofMi s'.pcc.smallMI =
        .ok (.summary (s'.records.rtake 2)) ∧
      (s'.records.rtake 2).map HeightRecord.height = [1, 2] := by
  obtain ⟨s, s', hrun, hrecord, hheight⟩ : ∃ s s',
      (Monitor.machine unit epochConfig (node 1)).run [second] = some s ∧
      s.record epochConfig second = .ok s' ∧ s.height = 2 := ⟨_, _, rfl, rfl, rfl⟩
  have hend : epochConfig.smallMI ∣ s.height := by
    rw [hheight]
    decide
  obtain ⟨midata, hcurrent, -, hwindow⟩ :=
    Monitor.window_iff_aligned (by decide) (by decide) hrun hrecord
  obtain ⟨hslice, hheights⟩ := (hwindow hend).2 (by decide)
  rw [hheight] at hheights
  exact ⟨s, s', midata, hrun, hrecord, hcurrent, hslice, hheights⟩

/-- With intervals above the limit, the first call of the service uses a nil client. -/
theorem missing_client_used :
    answer.Consistent ∧ second.pccAnswer.Consistent ∧
      (start (config .epoch 10000001 (by decide)) 1 0 (3000 * millisecond)
        (3000 * millisecond) answer).commit unit (config .epoch 10000001 (by decide)) second =
          .error .nilClient :=
  ⟨by decide, by decide, rfl⟩

theorem index_valid_of_run_two :
    ∃ s, (machine unit epochConfig (node 1)).run
        [second, second, second, second] = some s ∧
      0 ≤ s.pcc.excutedNumber ∧ s.pcc.excutedNumber < s.pcc.miData.length ∧
      s.pcc.excutedNumber = 1 := by
  obtain ⟨s, hrun, hindex⟩ : ∃ s, (machine unit epochConfig
      (node 1)).run [second, second, second, second] = some s ∧ s.pcc.excutedNumber = 1 :=
    ⟨_, rfl, rfl⟩
  obtain ⟨⟨hnonneg, hlt, -⟩, -⟩ :=
    index_valid_of_run (by decide) (by decide) (by decide) (by decide) hrun
  exact ⟨s, hrun, hnonneg, hlt, hindex⟩

end MonitorSample

end NimbleChain.Tendermint
