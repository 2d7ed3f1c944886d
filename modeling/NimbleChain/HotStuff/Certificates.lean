import NimbleChain.HotStuff.ChainAccess

/-!
# What a quorum certificate says about its block

A quorum certificate carries a view next to the hash of its block. The voting machine takes that
view from the block, Handel takes it from the synchronizer, and `VerifyQuorumCert` does not look at
it. An accepted certificate is therefore sound exactly when its view is the block's.
-/

namespace NimbleChain.HotStuff

open Common Program

variable {Sig : Type} (M : Modules Sig)

/-- `CreateQuorumCert` creates a quorum certificate from a list of partial certificates. -/
def createQuorumCert (block : Block Sig) (signatures : List (PartialCert Sig)) :
    Except CryptoError (QuorumCert Sig) :=
  -- the genesis QC is always valid
  if block.hash M.S = (genesis : Block Sig).hash M.S then
    .ok { signature := none, view := 0, hash := (genesis : Block Sig).hash M.S }
  else
    match M.crypto.combine (signatures.map PartialCert.signature) with
    | .error err => .error err
    | .ok sig => .ok { signature := some sig, view := block.view, hash := block.hash M.S }

/-- `VerifyPartialCert` verifies a single partial certificate. -/
def verifyPartialCert (cert : PartialCert Sig) : Handler Sig Bool := do
  match ← getBlock M cert.blockHash with
  | none => pure false
  | some block => verify M cert.signature (block.toBytes M.S)

/-- `VotingMachine` collects verified votes per block hash. -/
structure VotingMachine (Sig : Type) where
  verifiedVotes : List (Hash × List (PartialCert Sig))

namespace VotingMachine

variable (vm : VotingMachine Sig)

/-- `verifiedVotes[hash]`. -/
def votesFor (hash : Hash) : List (PartialCert Sig) :=
  (vm.verifiedVotes.lookup hash).getD []

/-- `delete(verifiedVotes, hash)`. -/
def remove (hash : Hash) : VotingMachine Sig :=
  ⟨vm.verifiedVotes.filter fun e => e.1 ≠ hash⟩

/-- `verifiedVotes[hash] = votes`. -/
def setVotes (hash : Hash) (votes : List (PartialCert Sig)) :
    VotingMachine Sig :=
  ⟨(hash, votes) :: (vm.remove hash).verifiedVotes⟩

/-- The deferred deletion of votes for unknown blocks and for blocks up to the high QC. -/
def cleanup (r : Replica Sig) : VotingMachine Sig :=
  ⟨vm.verifiedVotes.filter fun e =>
    match r.chain.localGet M.S e.1 with
    | some block => r.highQC.view < block.view
    | none => false⟩

/-- `verifyCert`: count a vote for a block and, with a quorum of votes, make the certificate that
is sent to the synchronizer. -/
def verifyCert (cert : PartialCert Sig) (block : Block Sig) :
    Handler Sig (VotingMachine Sig × Option (QuorumCert Sig)) := do
  if ← verifyPartialCert M cert then
    let r ← get
    let votes := vm.votesFor cert.blockHash ++ [cert]
    let vm := vm.setVotes cert.blockHash votes
    if votes.length < M.quorum then pure (vm.cleanup M r, none)
    else
      match createQuorumCert M block votes with
      | .error _ => pure (vm.cleanup M r, none)
      | .ok qc => pure ((vm.remove cert.blockHash).cleanup M r, some qc)
  else pure (vm, none)

end VotingMachine

/-- The signatures that a level of a Handel session works with. -/
structure Level (Sig : Type) where
  incoming : Option Sig
  outgoing : Option Sig

/-- A Handel session aggregates the votes for the block with the given hash. `created` lists the
certificates it sent to the synchronizer. -/
structure Session (Sig : Type) where
  hash : Hash
  maxLevel : Nat
  levels : List (Level Sig)
  created : List (QuorumCert Sig)

/-- Why `updateOutgoing` does not return. -/
inductive HandelPanic where
  | levelZero
  | indexOutOfRange
  | nilSignature
  deriving DecidableEq

namespace Session

/-- The signature that a level passes on; `none` inside is the nil signature. -/
def outgoingOf (prevLevel : Level Sig) : Except CryptoError (Option Sig) :=
  match prevLevel.outgoing, prevLevel.incoming with
  | none, incoming => .ok incoming
  | some outgoing, none => .ok (some outgoing)
  | some outgoing, some incoming => (M.crypto.combine [incoming, outgoing]).map some

/-- `level.outgoing = outgoing`. -/
def setOutgoing (s : Session Sig) (levelIndex : Nat) (outgoing : Sig) : Session Sig :=
  { s with levels := s.levels.modify levelIndex fun level => { level with outgoing := outgoing } }

/-- The body of `updateOutgoing` at a level that is not 0, and whether it goes on with the level
above. `view` is the synchronizer's current view. -/
def updateLevel (view : View) (levelIndex : Nat) (s : Session Sig) :
    Except HandelPanic (Session Sig × Bool) :=
  match s.levels[levelIndex - 1]? with
  | none => .error .indexOutOfRange
  | some prevLevel =>
    match outgoingOf M prevLevel with
    | .error _ => .ok (s, false)
    | .ok none => .error .nilSignature
    | .ok (some outgoing) =>
      if s.maxLevel < levelIndex then
        if M.quorum ≤ (M.S.participants outgoing).card then
          let qc := { signature := some outgoing, view := view, hash := s.hash }
          .ok ({ s with created := s.created ++ [qc] }, false)
        else .ok (s, false)
      else if levelIndex < s.levels.length then .ok (s.setOutgoing levelIndex outgoing, true)
      else .error .indexOutOfRange

/-- The recursion of `updateOutgoing` over the levels from `levelIndex` up, `left` of them. -/
def updateOutgoingFrom (view : View) :
    (left : Nat) → (levelIndex : Nat) → Session Sig → Except HandelPanic (Session Sig)
  | 0, _, s => .ok s
  | left + 1, levelIndex, s =>
    match updateLevel M view levelIndex s with
    | .error panic => .error panic
    | .ok (s, false) => .ok s
    | .ok (s, true) => updateOutgoingFrom view left (levelIndex + 1) s

/-- `updateOutgoing` updates the outgoing signature of a level and of the levels above it. -/
def updateOutgoing (view : View) (levelIndex : Nat) (s : Session Sig) :
    Except HandelPanic (Session Sig) :=
  if levelIndex = 0 then .error .levelZero
  else updateOutgoingFrom M view (s.maxLevel + 1 - levelIndex + 1) levelIndex s

end Session

variable (produced : Sig → ID → Bytes → Prop) (r : Replica Sig) (qc : QuorumCert Sig)

/-- The soundness of a certificate: the chain has the block with its hash, its view is the block's,
and unless this is the genesis block a quorum of configured replicas signed its bytes. -/
def CertificateSound : Prop :=
  ∃ block, r.chain.localGet M.S qc.hash = some block ∧ qc.view = block.view ∧
    (qc.hash ≠ (genesis : Block Sig).hash M.S →
      ∃ sig, qc.signature = some sig ∧ ∃ signers ⊆ M.config, M.quorum ≤ signers.card ∧
        ∀ id ∈ signers, produced sig id (block.toBytes M.S))

/-- The view of a certificate is the view of the block that its hash leads to. -/
def ViewMatches : Prop :=
  ∀ block, r.chain.localGet M.S qc.hash = some block → qc.view = block.view

variable {view : View} {levelIndex : Nat} {s s' : Session Sig} {qc : QuorumCert Sig}
  {block : Block Sig}

/-- After its checks a certificate is sound exactly when its view matches. -/
theorem Checked.certificateSound_iff {produced : Sig → ID → Bytes → Prop}
    (hsound : M.crypto.Sound M.S M.config produced) {r : Replica Sig} (h : Checked M r qc) :
    CertificateSound M produced r qc ↔ ViewMatches M r qc := by
  constructor
  · rintro ⟨block, hblock, hview, -⟩ block' hblock'
    rw [hblock] at hblock'
    exact hview.trans (congrArg Block.view (Option.some.inj hblock'))
  · intro hview
    cases h with
    | genesis hhash =>
      obtain ⟨block, hblock⟩ := exists_localGet_genesis M.S r.chain
      rw [← hhash] at hblock
      exact ⟨block, hblock, hview block hblock, fun hne => absurd hhash hne⟩
    | quorum sig block hsig hsize hstored hvalid _ =>
      exact ⟨block, hstored, hview block hstored, fun _ =>
        ⟨sig, hsig, M.S.participants sig, hsound.configured sig _ hvalid, hsize,
          hsound.produced sig _ hvalid⟩⟩

/-- `CreateQuorumCert` takes hash and view from the block; for the genesis block both are fixed. -/
theorem createQuorumCert_spec {votes : List (PartialCert Sig)}
    (hgenesis : block.hash M.S = (genesis : Block Sig).hash M.S →
      block.toBytes M.S = (genesis : Block Sig).toBytes M.S)
    (h : createQuorumCert M block votes = .ok qc) :
    qc.hash = block.hash M.S ∧ qc.view = block.view := by
  unfold createQuorumCert at h
  split at h
  · rename_i hhash
    cases h
    exact ⟨hhash.symm, (Block.view_eq_of_toBytes_eq M.S (hgenesis hhash)).symm⟩
  · split at h
    · cases h
    · cases h
      exact ⟨rfl, rfl⟩

/-- Every certificate of the voting machine is for the voted block, with its view. -/
theorem VotingMachine.verifyCert_spec (vm : VotingMachine Sig) (cert : PartialCert Sig)
    (hgenesis : block.hash M.S = (genesis : Block Sig).hash M.S →
      block.toBytes M.S = (genesis : Block Sig).toBytes M.S) (r : Replica Sig) :
    (vm.verifyCert M cert block).wp
      (fun result _ => ∀ qc, result.2 = some qc → qc.hash = block.hash M.S ∧ qc.view = block.view)
      (fun _ _ => True) r := by
  unfold verifyCert
  simp only [wp_bind]
  refine wp_imp (Q := fun _ _ => True) (E := fun _ _ => True) ?_ ?_
  · unfold wp
    split <;> trivial
  rintro ok r' -
  cases ok with
  | false => simp
  | true =>
    simp only [if_true, wp_bind, wp_get]
    split
    · simp
    · split
      · simp
      · rename_i qc hqc
        simp only [wp_pure, Option.some.injEq]
        rintro qc' rfl
        exact createQuorumCert_spec M hgenesis hqc

/-- One level creates at most a certificate for the session's block with the synchronizer's view. -/
theorem Session.updateLevel_spec {result : Session Sig × Bool}
    (h : updateLevel M view levelIndex s = .ok result) :
    result.1.hash = s.hash ∧ ∀ qc ∈ result.1.created,
      qc ∈ s.created ∨ (qc.hash = s.hash ∧ qc.view = view) := by
  unfold updateLevel at h
  split at h
  · cases h
  split at h
  · cases h
    exact ⟨rfl, fun qc hqc => .inl hqc⟩
  · cases h
  split at h
  · split at h
    · cases h
      refine ⟨rfl, fun qc hqc => ?_⟩
      rcases List.mem_append.mp hqc with hold | hnew
      · exact .inl hold
      · obtain rfl := List.mem_singleton.mp hnew
        exact .inr ⟨rfl, rfl⟩
    · cases h
      exact ⟨rfl, fun qc hqc => .inl hqc⟩
  · split at h
    · cases h
      exact ⟨rfl, fun qc hqc => .inl hqc⟩
    · cases h

/-- Bubbling up through the levels creates no other certificates either. -/
theorem Session.updateOutgoingFrom_spec {left : Nat}
    (h : updateOutgoingFrom M view left levelIndex s = .ok s') :
    ∀ qc ∈ s'.created, qc ∈ s.created ∨ (qc.hash = s.hash ∧ qc.view = view) := by
  induction left generalizing levelIndex s with
  | zero =>
    cases h
    exact fun qc hqc => .inl hqc
  | succ left ih =>
    unfold updateOutgoingFrom at h
    split at h
    · cases h
    · rename_i hlevel
      cases h
      exact (updateLevel_spec M hlevel).2
    · rename_i s1 hlevel
      obtain ⟨hhash, hcreated⟩ := updateLevel_spec M hlevel
      intro qc hqc
      rcases ih h qc hqc with hold | hnew
      · exact hcreated qc hold
      · exact .inr ⟨hnew.1.trans hhash, hnew.2⟩

/-- An accepted certificate is sound exactly when its view is that of the block of its hash.
Certificates of the voting machine always have the block's view; those of a Handel session exactly
when the synchronizer is in that view at its end. -/
theorem quorumCert_sound_iff (hsound : M.crypto.Sound M.S M.config produced) :
    (∀ qc r r', (verifyQuorumCert M qc).exec r = (.ok true, r') →
      (CertificateSound M produced r' qc ↔ ViewMatches M r' qc)) ∧
    (∀ (vm : VotingMachine Sig) cert block r result r' qc,
      (block.hash M.S = (genesis : Block Sig).hash M.S →
        block.toBytes M.S = (genesis : Block Sig).toBytes M.S) →
      (vm.verifyCert M cert block).exec r = (.ok result, r') → result.2 = some qc →
      qc.hash = block.hash M.S ∧ qc.view = block.view) ∧
    (∀ view levelIndex (s s' : Session Sig) (block : Block Sig) qc, s.hash = block.hash M.S →
      s.updateOutgoing M view levelIndex = .ok s' → qc ∈ s'.created → qc ∉ s.created →
      qc.hash = block.hash M.S ∧ (qc.view = block.view ↔ view = block.view)) := by
  refine ⟨?_, ?_, ?_⟩
  · intro qc r r' hrun
    have hspec := wp_of_exec_ok hrun (verifyQuorumCert_spec M qc r)
    exact (hspec.2 rfl).certificateSound_iff M hsound
  · intro vm cert block r result r' qc hgenesis hrun hqc
    exact wp_of_exec_ok hrun (vm.verifyCert_spec M cert hgenesis r) qc hqc
  · intro view levelIndex s s' block qc hhash hrun hmem hnew
    unfold Session.updateOutgoing at hrun
    split at hrun
    · cases hrun
    · rcases Session.updateOutgoingFrom_spec M hrun qc hmem with hold | ⟨hqc, hview⟩
      · exact absurd hold hnew
      · exact ⟨hqc.trans hhash, by rw [hview]⟩

section SampleCertificates

open Ecdsa

/-- The modules of replica 1 among four replicas. -/
def sampleModules : Modules Multi where
  S := primitives (sampleBase 1)
  crypto := base (sampleBase 1)
  config := {1, 2, 3, 4}
  useAggQC := false
  stack := 4

/-- A block at view 1 on top of the genesis block. -/
def certifiedBlock : Block Multi where
  parent := (genesis : Block Multi).hash sampleModules.S
  proposer := 2
  cmd := [7]
  cert := { signature := none, view := 0, hash := (genesis : Block Multi).hash sampleModules.S }
  view := 1

/-- The signatures of replicas 1, 2 and 3 over that block. -/
def certifiedSignature : Multi :=
  ⟨[1, 2, 3].map fun id => sampleSignature id (certifiedBlock.toBytes sampleModules.S), by decide⟩

/-- A certificate with the signatures over the block and a view of one's choice. -/
def certificateWithView (view : View) : QuorumCert Multi where
  signature := some certifiedSignature
  view := view
  hash := certifiedBlock.hash sampleModules.S

/-- A replica that has stored the block. -/
def holdsCertified : Replica Multi :=
  (Replica.init sampleModules.S 1).store certifiedBlock

/-- The replica's state after it checked the certificate with the given view. -/
def afterCheck (view : View) : Replica Multi :=
  ((verifyQuorumCert sampleModules (certificateWithView view)).exec holdsCertified).2

/-- The certificate with the block's own view is accepted and, by the theorem, sound. -/
theorem quorumCert_sound_iff_own_view :
    (verifyQuorumCert sampleModules (certificateWithView 1)).exec holdsCertified =
        (.ok true, afterCheck 1) ∧
      CertificateSound sampleModules (Produced (sampleBase 1)) (afterCheck 1)
        (certificateWithView 1) := by
  have hrun : (verifyQuorumCert sampleModules (certificateWithView 1)).exec holdsCertified =
      (.ok true, afterCheck 1) := exec_eq_of_toOption (by decide +kernel)
  have hstored : (afterCheck 1).chain.localGet sampleModules.S (certificateWithView 1).hash =
      some certifiedBlock := by decide +kernel
  refine ⟨hrun, ((quorumCert_sound_iff sampleModules (Produced (sampleBase 1))
    (base_sound (sampleBase 1) _ fun _ => mem_of_sampleBase_replica)).1 _ _ _ hrun).mpr ?_⟩
  intro block hblock
  rw [hstored] at hblock
  exact congrArg Block.view (Option.some.inj hblock)

/-- The same signatures are accepted with view 9, and a certificate for the genesis block with any
view and without a signature. -/
theorem verifyQuorumCert_ignores_view :
    ((verifyQuorumCert sampleModules (certificateWithView 9)).exec holdsCertified =
        (.ok true, afterCheck 9) ∧
      ¬ CertificateSound sampleModules (Produced (sampleBase 1)) (afterCheck 9)
        (certificateWithView 9)) ∧
    ((verifyQuorumCert sampleModules
        ⟨none, 9, (genesis : Block Multi).hash sampleModules.S⟩).exec holdsCertified =
        (.ok true, holdsCertified) ∧
      ¬ CertificateSound sampleModules (Produced (sampleBase 1)) holdsCertified
        ⟨none, 9, (genesis : Block Multi).hash sampleModules.S⟩) := by
  have hstored : (afterCheck 9).chain.localGet sampleModules.S (certificateWithView 9).hash =
      some certifiedBlock := by decide +kernel
  have hgenesis : holdsCertified.chain.localGet sampleModules.S
      ((genesis : Block Multi).hash sampleModules.S) = some genesis := by decide +kernel
  refine ⟨⟨exec_eq_of_toOption (by decide +kernel), ?_⟩, ?_, ?_⟩
  · rintro ⟨block, hblock, hview, -⟩
    rw [hstored] at hblock
    rw [← Option.some.inj hblock] at hview
    exact absurd hview (by decide)
  · rw [verifyQuorumCert, if_pos rfl]
    rfl
  · rintro ⟨block, hblock, hview, -⟩
    rw [hgenesis] at hblock
    rw [← Option.some.inj hblock] at hview
    exact absurd hview (by decide)

end SampleCertificates

end NimbleChain.HotStuff
