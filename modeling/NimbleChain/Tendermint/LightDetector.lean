import NimbleChain.Tendermint.LightBackwards

/-!
# The divergence detector of the light client

`detectDivergence` starts one comparison for each witness and reads as many results as there are
witnesses. A comparison that finds different hashes sends two results: the conflict and, since the
function goes on, `nil`, which stands for equal hashes. It may be read in place of another's result.
-/

namespace NimbleChain.Tendermint.Light

open Common List

variable {H : HashFunction} {C : Crypto} {O : Options} {now : Time}

/-! ### Comparisons -/

variable {answers rest : List Answer} {height : Int64} {block : Block} {trace : List Block}
  {c c' : Client}

theorem ask_eq_ok (h : ask answers height = (.ok block, rest)) :
    ∃ answer ∈ answers, answer height = .ok block := by
  cases answers with
  | nil => cases h
  | cons answer answers => exact ⟨answer, mem_cons_self, congrArg Prod.fst h⟩

theorem subset_of_ask {response : Response} (h : ask answers height = (response, rest)) :
    rest ⊆ answers := by
  cases answers with
  | nil =>
    cases h
    exact Subset.refl _
  | cons answer answers =>
    cases h
    exact subset_cons_self _ _

/-- A block of the target height that one of the answers contains. -/
def Answered (answers : List Answer) (height : Int64) (block : Block) : Prop :=
  ∃ answer ∈ answers, answer height = .ok block ∨ answer 0 = .ok block ∧ block.height = height

theorem Answered.mono (h : Answered rest height block) (hsub : rest ⊆ answers) :
    Answered answers height block := by
  obtain ⟨answer, hmem, hanswer⟩ := h
  exact ⟨answer, hsub hmem, hanswer⟩

theorem Answered.of_ask (h : ask answers height = (.ok block, rest)) :
    Answered answers height block := by
  obtain ⟨answer, hmem, hanswer⟩ := ask_eq_ok h
  exact ⟨answer, hmem, .inl hanswer⟩

/-- The second way to a block of the target height. -/
theorem getTargetBlockOrLatest_spec {result : Except GoError (Bool × Block)}
    (h : getTargetBlockOrLatest answers height = (result, rest)) :
    rest ⊆ answers ∧ ∀ block, result = .ok (true, block) → Answered answers height block := by
  unfold getTargetBlockOrLatest at h
  split at h
  · rename_i error answers1 hask
    cases h
    exact ⟨subset_of_ask hask, fun _ hresult => nomatch hresult⟩
  rename_i latest answers1 hask
  have hsub := subset_of_ask hask
  split at h
  · rename_i hheight
    cases h
    refine ⟨hsub, ?_⟩
    rintro block ⟨⟩
    obtain ⟨answer, hmem, hanswer⟩ := ask_eq_ok hask
    exact ⟨answer, hmem, .inr ⟨hanswer, hheight⟩⟩
  split at h
  · cases htarget : ask answers1 height with
    | mk response answers2 =>
      rw [htarget] at h
      cases h
      refine ⟨Subset.trans (subset_of_ask htarget) hsub, ?_⟩
      intro block hresult
      cases response with
      | error error => cases hresult
      | ok target =>
        cases hresult
        exact (Answered.of_ask htarget).mono hsub
  · cases h
    exact ⟨hsub, fun _ hresult => nomatch hresult⟩

/-- A witness returned a light block of the target height, when asked for it or for its latest one,
with the hash of the header. -/
def ReturnsTarget (H : HashFunction) (h : Header) (answers : List Answer) : Prop :=
  ∃ block, Answered answers h.height block ∧ block.hash H = h.hash H

/-- What a comparison sends: one result, only `nil` for equal hashes, or a conflict and `nil`. -/
inductive Compared (H : HashFunction) (h : Header) (witnessIndex : Nat) (answers : List Answer) :
    List Message → Prop
  | other {message : Message} (hne : message ≠ .matched) :
      Compared H h witnessIndex answers [message]
  | equal (htarget : ReturnsTarget H h answers) : Compared H h witnessIndex answers [.matched]
  | different (block : Block) : Compared H h witnessIndex answers
      [.conflicting block witnessIndex, .matched]

theorem compareHashes_compared {h : Header} {i : Nat} (htarget : Answered answers h.height block) :
    Compared H h i answers (compareHashes H h i block) := by
  unfold compareHashes
  split
  · exact .different block
  · rename_i hsame
    exact .equal ⟨block, htarget, (not_not.mp hsame).symm⟩

theorem compareNewHeaderWithWitness_compared (h : Header) (i : Nat) (answers : List Answer) :
    Compared H h i answers (compareNewHeaderWithWitness H h i answers) := by
  unfold compareNewHeaderWithWitness
  split
  · rename_i block rest hask
    exact compareHashes_compared (.of_ask hask)
  rename_i error answers1 hask
  have hsub := subset_of_ask hask
  split
  · exact .other (by simp)
  split
  case isFalse => exact .other (by simp)
  split
  · exact .other (by simp)
  · rename_i block _ hfirst
    exact compareHashes_compared (((getTargetBlockOrLatest_spec hfirst).2 block rfl).mono hsub)
  rename_i block answers2 hfirst
  have hsub2 := Subset.trans (getTargetBlockOrLatest_spec hfirst).1 hsub
  split
  · exact .other (by simp)
  split
  · split
    · exact .other (by simp)
    · exact .other (by simp)
  · rename_i block _ hsecond
    exact compareHashes_compared (((getTargetBlockOrLatest_spec hsecond).2 block rfl).mono hsub2)
  · split
    · exact .other (by simp)
    · exact .other (by simp)

/-! ### The detector -/

/-- If all results were handled without an error, one of them was `nil`. -/
theorem matched_of_handleMessages {messages : List Message} {matched : Bool} {toRemove : List Nat}
    (h : (handleMessages H C O now trace messages matched toRemove).exec c = (.ok (), c')) :
    matched = true ∨ Message.matched ∈ messages := by
  induction messages generalizing matched toRemove c with
  | nil =>
    obtain ⟨_, c1, -, hend⟩ := Program.exec_bind_eq_ok.mp h
    cases matched with
    | true => exact .inl rfl
    | false => cases hend
  | cons message messages ih =>
    cases message with
    | matched => exact .inr mem_cons_self
    | conflicting block i =>
      obtain ⟨_, c1, -, hrest⟩ := Program.exec_bind_eq_ok.mp h
      exact (ih hrest).imp_right (mem_cons_of_mem _)
    | badWitness reason i => exact (ih h).imp_right (mem_cons_of_mem _)
    | failed error =>
      rw [handleMessages] at h
      split at h
      · cases h
      · exact (ih h).imp_right (mem_cons_of_mem _)

/-- The answers to the next requests to all witnesses. -/
def Client.phase (c : Client) : Phase :=
  c.phases.headD ⟨fun _ => [], []⟩

/-- The results that a call of the detector reads, each with the witness that it is about. -/
def Client.received (H : HashFunction) (c : Client) (h : Header) : List (Nat × Message) :=
  Channel.receive c.witnesses.length c.phase.order (comparisons H h c.witnesses.length c.phase)

theorem nextPhase_exec (c : Client) : ∃ c', nextPhase.exec c = (.ok c.phase, c') := by
  obtain ⟨_, _, _, _, _, phases⟩ := c
  cases phases with
  | nil => exact ⟨_, rfl⟩
  | cons phase rest => exact ⟨_, rfl⟩

/-- What the detector has read if it returns without an error. -/
theorem detectDivergence_eq_ok (h : (detectDivergence H C O now trace).exec c = (.ok (), c')) :
    ∃ last, trace.getLast? = some last ∧
      ∃ i, (i, Message.matched) ∈ c.received H last.header := by
  unfold detectDivergence at h
  split at h
  · cases h
  obtain ⟨last, c1, hlast, h⟩ := Program.exec_bind_eq_ok.mp h
  obtain ⟨_, _, hget, h⟩ := Program.exec_bind_eq_ok.mp h
  cases hget
  cases hgetLast : trace.getLast? with
  | none =>
    rw [hgetLast] at hlast
    cases hlast
  | some b =>
    rw [hgetLast] at hlast
    cases hlast
    refine ⟨last, rfl, ?_⟩
    split at h
    · cases h
    obtain ⟨phase, c2, hphase, h⟩ := Program.exec_bind_eq_ok.mp h
    obtain ⟨c3, hnext⟩ := nextPhase_exec c
    rw [hnext] at hphase
    cases hphase
    rcases matched_of_handleMessages h with hfalse | hmem
    · cases hfalse
    · obtain ⟨e, he, hmatched⟩ := mem_map.mp hmem
      obtain ⟨i, message⟩ := e
      obtain rfl : message = .matched := hmatched
      exact ⟨i, he⟩

section Reception

variable {c : Client} {h : Header}

theorem comparisons_compared {i : Nat} (hi : i < c.witnesses.length) :
    Compared H h i (c.phase.answers i) (comparisons H h c.witnesses.length c.phase i) := by
  rw [comparisons, if_pos hi]
  exact compareNewHeaderWithWitness_compared h i _

theorem comparisons_eq_nil {i : Nat} (hi : c.witnesses.length ≤ i) :
    comparisons H h c.witnesses.length c.phase i = [] :=
  if_neg (Nat.not_lt.mpr hi)

theorem received_reception :
    Channel.Reception c.witnesses.length (comparisons H h c.witnesses.length c.phase)
      (c.received H h) := by
  refine Channel.receive_reception ?_ c.phase.order
  intro i hi hnil
  have hcompared := comparisons_compared (H := H) (h := h) hi
  rw [hnil] at hcompared
  cases hcompared

/-- No witness is heard twice exactly if every `nil` that is read was sent for equal hashes. -/
theorem nodup_iff_matched :
    ((c.received H h).map Prod.fst).Nodup ↔ ∀ i, (i, Message.matched) ∈ c.received H h →
      comparisons H h c.witnesses.length c.phase i = [.matched] := by
  have hreception := received_reception (H := H) (c := c) (h := h)
  constructor
  · intro hnodup i hmem
    obtain ⟨rest, hqueue⟩ := hreception.head_of_nodup hnodup hmem
    have hlt : i < c.witnesses.length :=
      hreception.sender_lt (fun _ => comparisons_eq_nil) (mem_map_of_mem hmem)
    have hcompared := comparisons_compared (H := H) (h := h) hlt
    rw [hqueue] at hcompared ⊢
    cases hcompared with
    | other hne => exact absurd rfl hne
    | equal htarget => rfl
  · intro hmatched
    refine Channel.nodup_senders_iff.mpr fun i => ?_
    have hinOrder := hreception.inOrder i
    rcases Nat.lt_or_ge i c.witnesses.length with hlt | hge
    · have hcompared := comparisons_compared (H := H) (h := h) hlt
      generalize hqueue : comparisons H h c.witnesses.length c.phase i = queue at hinOrder hcompared
      cases hcompared with
      | other hne => exact hinOrder.length_le
      | equal htarget => exact hinOrder.length_le
      | different block =>
        by_contra htwo
        -- both messages of this witness were read
        have hboth : Channel.ofSender i (c.received H h) = [.conflicting block i, .matched] :=
          hinOrder.eq_of_length (Nat.le_antisymm hinOrder.length_le (Nat.not_le.mp htwo))
        have hread : (i, Message.matched) ∈ c.received H h :=
          Channel.mem_ofSender.mp (hboth ▸ by simp)
        have hsingle := hmatched i hread
        rw [hqueue] at hsingle
        cases hsingle
    · rw [comparisons_eq_nil hge, prefix_nil] at hinOrder
      rw [hinOrder]
      exact Nat.zero_le 1

/-- All witnesses are heard exactly if none is heard twice. -/
theorem heard_iff_nodup :
    (∀ i < c.witnesses.length,
        ∀ message ∈ (comparisons H h c.witnesses.length c.phase i).head?,
          (i, message) ∈ c.received H h) ↔
      ((c.received H h).map Prod.fst).Nodup := by
  have hreception := received_reception (H := H) (c := c) (h := h)
  rw [← hreception.all_heard_iff_nodup fun _ => comparisons_eq_nil]
  refine forall_congr' fun i => forall_congr' fun hi => ?_
  cases hqueue : comparisons H h c.witnesses.length c.phase i with
  | nil =>
    have hcompared := comparisons_compared (H := H) (h := h) hi
    rw [hqueue] at hcompared
    cases hcompared
  | cons message rest =>
    constructor
    · intro hread
      exact mem_map_of_mem (hread message rfl)
    · rintro hheard _ ⟨⟩
      exact hreception.mem_head hqueue hheard

end Reception

/-- The detector is sound in a run that returns without an error exactly if no `nil` that it has
read comes from a witness with a different header: then a witness has returned the header of the
primary, and the first result of every witness was read, in any order. -/
theorem detectDivergence_sound_iff (H : HashFunction) (C : Crypto) (O : Options) (now : Time)
    {trace : List Block} {c c' : Client}
    (hreturns : (detectDivergence H C O now trace).exec c = (.ok (), c')) :
    ∃ last, trace.getLast? = some last ∧
      (((∃ i < c.witnesses.length, ReturnsTarget H last.header (c.phase.answers i)) ∧
          ∀ i < c.witnesses.length,
            ∀ message ∈ (comparisons H last.header c.witnesses.length c.phase i).head?,
              (i, message) ∈ c.received H last.header) ↔
        ∀ i, (i, Message.matched) ∈ c.received H last.header →
          comparisons H last.header c.witnesses.length c.phase i = [.matched]) ∧
      ∀ results, Channel.Reception c.witnesses.length
          (comparisons H last.header c.witnesses.length c.phase) results →
        ∃ order, Channel.receive c.witnesses.length order
          (comparisons H last.header c.witnesses.length c.phase) = results := by
  obtain ⟨last, hlast, i, hmem⟩ := detectDivergence_eq_ok hreturns
  refine ⟨last, hlast, ⟨?_, ?_⟩, fun results h => h.exists_order⟩
  · rintro ⟨-, hheard⟩
    exact nodup_iff_matched.mp (heard_iff_nodup.mp hheard)
  · intro hmatched
    refine ⟨⟨i, ?_⟩, heard_iff_nodup.mpr (nodup_iff_matched.mpr hmatched)⟩
    have hlt : i < c.witnesses.length :=
      received_reception.sender_lt (fun _ => comparisons_eq_nil) (mem_map_of_mem hmem)
    have hcompared := comparisons_compared (H := H) (h := last.header) hlt
    rw [hmatched i hmem] at hcompared
    cases hcompared with
    | other hne => exact absurd rfl hne
    | equal htarget => exact ⟨hlt, htarget⟩

section Sample

/-- The block of the primary at height 2. -/
def primaryBlock : Block :=
  chainBlock (chainHeader 2 (genuineHeader.hash sampleHash) 6) [1, 2, 3, 4]

/-- A client that compares `primaryBlock` with the answers of some witnesses, in the given order;
each provider has `genuineBlock` at height 1. -/
def detectorClient (blocks : List Block) (order : List Nat) : Client where
  primary := 0
  witnesses := range' 1 blocks.length
  trustedStore := ⟨[genuineBlock], 1, pairwise_singleton _ _⟩
  latestTrustedBlock := some genuineBlock
  answers := replicate 4 fun _ => .ok genuineBlock
  phases := [⟨fun i => (blocks[i]?.map fun block _ => .ok block).toList, order⟩]

/-- The detector of the sample client. -/
def sampleDetector : ClientProgram Unit :=
  detectDivergence sampleHash sampleCrypto { sampleOptions with trustingPeriod := 1000000000000 }
    (.unix 1700000010) [genuineBlock, primaryBlock]

/-- A block at height 2 that is not signed. -/
def unsignedBlock : Block := chainBlock (chainHeader 2 (genuineHeader.hash sampleHash) 7) [1]

/-- Neither of two witnesses has the block of the primary. The first reports a block that is not
signed, and both its results are read; the second has a signed block, which would be noticed. -/
theorem detectDivergence_misses_conflict :
    (sampleDetector.exec (detectorClient [unsignedBlock, trustedBlock] [0, 0])).1 = .ok () ∧
    (∀ b ∈ [unsignedBlock, trustedBlock], b.hash sampleHash ≠ primaryBlock.hash sampleHash) ∧
    (sampleDetector.exec (detectorClient [unsignedBlock, trustedBlock] [1])).1 =
      .error (.failed (.error errLightClientAttack)) := by
  decide +kernel

/-- Both witnesses have the block of the primary. -/
theorem detectDivergence_sound_iff_sample :
    ∃ i < 2, ReturnsTarget sampleHash primaryBlock.header
      ((detectorClient [primaryBlock, primaryBlock] [1, 0]).phase.answers i) := by
  have hok : (sampleDetector.exec (detectorClient [primaryBlock, primaryBlock] [1, 0])).1.toOption =
      some () := by
    decide +kernel
  obtain ⟨last, hlast, hiff, -⟩ := detectDivergence_sound_iff sampleHash sampleCrypto
    { sampleOptions with trustingPeriod := 1000000000000 } _ (Program.exec_eq_of_toOption hok)
  obtain rfl : last = primaryBlock := Option.some.inj (hlast.symm.trans rfl)
  refine (hiff.mpr ?_).1
  have hsent : ∀ i < 2, comparisons sampleHash primaryBlock.header 2
      (detectorClient [primaryBlock, primaryBlock] [1, 0]).phase i = [.matched] := by
    decide +kernel
  intro i hmem
  exact hsent i (received_reception.sender_lt (fun _ => comparisons_eq_nil) (mem_map_of_mem hmem))

end Sample

end NimbleChain.Tendermint.Light
