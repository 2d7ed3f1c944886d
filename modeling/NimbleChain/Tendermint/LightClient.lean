import NimbleChain.Common.Channel
import NimbleChain.Tendermint.LightVerifier

/-!
# The light client

`light/client.go` and `light/detector.go`. The client asks its primary for light blocks, verifies
them against the trusted ones, compares the result with the witnesses and stores it. A provider may
answer every request as it likes: each request takes the next answer, a function of the height.
Requests to all witnesses at once are answered in an order that the environment chooses. Loops and
recursions that a provider can prolong are repeated `steps` times at most.
-/

namespace NimbleChain.Tendermint.Light

open Common List

/-! ### Errors -/

/-- `provider.ErrNoResponse`. -/
def errNoResponse : GoError := .new "client failed to respond" [] []

/-- `provider.ErrLightBlockNotFound`, and the error of the store with the same text. -/
def errLightBlockNotFound : GoError := .new "light block not found" [] []

/-- `provider.ErrHeightTooHigh`. -/
def errHeightTooHigh : GoError := .new "height requested is too high" [] []

/-- `context.Canceled`. -/
def errCanceled : GoError := .new "context canceled" [] []

/-- `context.DeadlineExceeded`. -/
def errDeadlineExceeded : GoError := .new "context deadline exceeded" [] []

/-- `ErrNoWitnesses`. -/
def errNoWitnesses : GoError := .new "no witnesses connected. please reset light client" [] []

/-- `ErrLightClientAttack`. -/
def errLightClientAttack : GoError := .new "attempted attack detected." [] []

/-- `ErrFailedHeaderCrossReferencing`. -/
def errFailedHeaderCrossReferencing : GoError :=
  .new "all witnesses have either not responded, don't have the  blocks or sent invalid blocks." []
    []

/-- `errNoDivergence`. -/
def errNoDivergence : GoError :=
  .new "sanity check failed: no divergence between the original trace and the provider's new trace"
    [] []

/-- The text of `ErrVerificationFailed`. -/
def verificationFailedFormat : String := "verify from #%d to #%d failed: %v"

/-- `ErrVerificationFailed`. -/
def errVerificationFailed (fromHeight toHeight : Int64) (reason : GoError) : GoError :=
  .wrap verificationFailedFormat [fromHeight.toInt, toHeight.toInt] reason

/-- An error has the type `ErrInvalidHeader`. -/
def isInvalidHeader : GoError → Bool
  | .wrap format _ _ => format = "invalid header: %v"
  | .new .. => false

/-- An error has the type `ErrNewValSetCantBeTrusted`. -/
def isCantBeTrusted : GoError → Bool
  | .wrap format _ _ => format = "cant trust new val set: %v"
  | .new .. => false

/-- The errors of a provider that is kept. -/
def isBenign (error : GoError) : Bool :=
  error = errNoResponse ∨ error = errLightBlockNotFound ∨ error = errHeightTooHigh

/-- `errors.Is` for one of the two errors of a context. -/
def isContextError : GoError → Bool
  | .new format numbers strings =>
    .new format numbers strings = errCanceled ∨ .new format numbers strings = errDeadlineExceeded
  | .wrap _ _ cause => isContextError cause

/-! ### Light blocks and providers -/

/-- `types.LightBlock`. A provider only returns light blocks with a header and a validator set. -/
structure Block where
  header : Header
  commit : Option Commit
  validatorSet : ValidatorSet
  deriving DecidableEq

namespace Block

/-- The signed header of a light block. -/
def signedHeader (b : Block) : SignedHeader :=
  ⟨some b.header, b.commit⟩

/-- The height of a light block. -/
def height (b : Block) : Int64 :=
  b.header.height

/-- The time of a light block. -/
def time (b : Block) : Time :=
  b.header.time

/-- The hash of a light block. -/
def hash (H : HashFunction) (b : Block) : Bytes :=
  b.header.hash H

end Block

/-- What `Provider.LightBlock` returns. -/
abbrev Response := Except GoError Block

/-- An answer of a provider to one request, for any height that may be requested. -/
abbrev Answer := Int64 → Response

/-- A request to a provider that still has these answers. -/
def ask (answers : List Answer) (height : Int64) : Response × List Answer :=
  match answers with
  | [] => (.error errNoResponse, [])
  | answer :: rest => (answer height, rest)

/-- Requests to all witnesses at once: the answers to each of them, and the order in which the
results arrive. -/
structure Phase where
  answers : Nat → List Answer
  order : List Nat

/-! ### The store -/

/-- The light blocks have increasing heights. -/
def Ascending (blocks : List Block) : Prop :=
  blocks.Pairwise fun b b' => b.height < b'.height

/-- The light blocks with a new one in its place; one of the same height is replaced. -/
def insertBlock (b : Block) : List Block → List Block
  | [] => [b]
  | x :: xs =>
    if b.height < x.height then b :: x :: xs
    else if b.height = x.height then b :: xs
    else x :: insertBlock b xs

theorem mem_insertBlock {b x : Block} {blocks : List Block} (h : x ∈ insertBlock b blocks) :
    x = b ∨ x ∈ blocks := by
  induction blocks with
  | nil => exact .inl (mem_singleton.mp h)
  | cons y ys ih =>
    rw [insertBlock] at h
    split at h
    · exact mem_cons.mp h
    split at h
    · rcases mem_cons.mp h with rfl | h
      · exact .inl rfl
      · exact .inr (mem_cons_of_mem _ h)
    · rcases mem_cons.mp h with rfl | h
      · exact .inr mem_cons_self
      · exact (ih h).imp_right (mem_cons_of_mem _)

theorem ascending_insertBlock {blocks : List Block} (h : Ascending blocks) (b : Block) :
    Ascending (insertBlock b blocks) := by
  induction blocks with
  | nil => exact pairwise_singleton _ b
  | cons x xs ih =>
    obtain ⟨hx, hxs⟩ := pairwise_cons.mp h
    rw [insertBlock]
    split
    · rename_i hlt
      refine pairwise_cons.mpr ⟨?_, h⟩
      rintro y hy
      rcases mem_cons.mp hy with rfl | hy
      · exact hlt
      · exact Int64.lt_trans hlt (hx y hy)
    split
    · rename_i heq
      exact pairwise_cons.mpr ⟨fun y hy => heq ▸ hx y hy, hxs⟩
    · rename_i hnlt hne
      have hgt : x.height < b.height := by
        rcases Int64.lt_or_eq_of_le (Int64.not_lt.mp hnlt) with hlt | heq
        · exact hlt
        · exact absurd heq.symm hne
      refine pairwise_cons.mpr ⟨?_, ih hxs⟩
      intro y hy
      rcases mem_insertBlock hy with rfl | hy
      · exact hgt
      · exact hx y hy

/-- `dbs`: the stored light blocks in the order of their keys and the result of `Size`, which also
counts blocks saved again. -/
structure Store where
  blocks : List Block
  size : UInt16
  ascending : Ascending blocks

namespace Store

variable (s : Store)

/-- `SaveLightBlock` after its checks. -/
def save (b : Block) : Store :=
  ⟨insertBlock b s.blocks, s.size + 1, ascending_insertBlock s.ascending b⟩

theorem ascending_drop (n : Nat) : Ascending (s.blocks.drop n) :=
  s.ascending.drop

/-- `Prune`. -/
def prune (size : UInt16) : Store :=
  if s.size ≤ size then s
  else
    let numToPrune := (s.size - size).toNat
    let pruned := s.blocks.length - (s.blocks.drop numToPrune).length
    ⟨s.blocks.drop numToPrune, s.size - UInt16.ofNat pruned, s.ascending_drop numToPrune⟩

/-- `FirstLightBlockHeight`. -/
def firstLightBlockHeight : Int64 :=
  s.blocks.head?.elim (-1) Block.height

/-- `LastLightBlockHeight`. -/
def lastLightBlockHeight : Int64 :=
  s.blocks.getLast?.elim (-1) Block.height

/-- `LightBlock`. -/
def lightBlock (height : Int64) : Except Failure Block :=
  if height ≤ 0 then .error .panic
  else
    match s.blocks.find? (·.height = height) with
    | none => .error (.error errLightBlockNotFound)
    | some b => .ok b

/-- `LightBlockBefore`. -/
def lightBlockBefore (height : Int64) : Except Failure Block :=
  if height ≤ 0 then .error .panic
  else
    match (s.blocks.filter (·.height < height)).getLast? with
    | none => .error (.error errLightBlockNotFound)
    | some b => .ok b

end Store

/-! ### The client -/

/-- How new blocks are verified. -/
inductive Mode where
  | sequential
  | skipping
  deriving DecidableEq

/-- What is configured for a client. -/
structure Options where
  trustingPeriod : Int64
  verificationMode : Mode
  trustLevel : Fraction
  maxClockDrift : Int64
  pruningSize : UInt16
  /-- How often a loop may be repeated. -/
  steps : Nat

/-- `Client`; a provider is a number. -/
structure Client where
  primary : Nat
  witnesses : List Nat
  trustedStore : Store
  latestTrustedBlock : Option Block
  /-- The answers to the requests of the client's own goroutine. -/
  answers : List Answer
  /-- The answers to requests to all witnesses. -/
  phases : List Phase

/-- Why a call does not return normally: with an error or a panic, or because it goes on. -/
inductive Stop where
  | failed (failure : Failure)
  | diverges
  deriving DecidableEq

/-- Programs of the client. -/
abbrev ClientProgram := Program Stop Client

variable {α : Type}

/-- Return an error. -/
def fail (error : GoError) : ClientProgram α :=
  throw (.failed (.error error))

/-- A check that may fail or panic. -/
def run (result : Except Failure α) : ClientProgram α :=
  Program.lift (result.mapError .failed)

theorem wp_run {result : Except Failure α} {Q : α → Client → Prop}
    {E : Stop → Client → Prop} {c : Client} :
    (run result).wp Q E c ↔
      match result with
      | .ok a => Q a c
      | .error e => E (.failed e) c := by
  cases result with
  | ok a => exact Program.wp_lift_ok rfl
  | error e => exact Program.wp_lift_error rfl

/-- The error of a failure. -/
def Stop.error? : Stop → Option GoError
  | .failed (.error error) => some error
  | _ => none

/-- Look at the error of a call. -/
def attempt (program : ClientProgram α) : ClientProgram (Except GoError α) :=
  program.attempt Stop.error?

/-- A request of the client's own goroutine to a provider. -/
def request (height : Int64) : ClientProgram Response := do
  let c ← get
  let (response, answers) := ask c.answers height
  set { c with answers := answers }
  pure response

/-- The answers to the next requests to all witnesses. -/
def nextPhase : ClientProgram Phase := do
  let c ← get
  match c.phases with
  | [] => pure ⟨fun _ => [], []⟩
  | phase :: rest =>
    set { c with phases := rest }
    pure phase

/-! ### Providers -/

/-- The witness at an index is replaced by the last one. -/
def removeAt (witnesses : List Nat) (index : Nat) : Except Failure (List Nat) :=
  if index < witnesses.length then
    match witnesses.getLast? with
    | some last => .ok ((witnesses.set index last).dropLast)
    | none => .error .panic
  else .error .panic

/-- `removeWitnesses`. -/
def removeWitnesses (indexes : List Nat) : ClientProgram Unit := do
  let c ← get
  if c.witnesses.length ≤ indexes.length then fail errNoWitnesses
  else
    let witnesses ← run
      ((indexes.insertionSort (· ≤ ·)).reverse.foldlM removeAt c.witnesses)
    set { c with witnesses := witnesses }

/-- The responses of the witnesses as they come in. -/
def processResponses (remove : Bool) :
    List (Nat × Response) → List Nat → GoError → ClientProgram Block
  | [], witnessesToRemove, lastError => do
    let _removed ← attempt (removeWitnesses witnessesToRemove)
    fail lastError
  | (index, .ok block) :: _, witnessesToRemove, _ => do
    let c ← get
    let witnesses := if remove then c.witnesses else c.witnesses ++ [c.primary]
    let primary ← run (Check.orPanic witnesses[index]?)
    set { c with witnesses := witnesses, primary := primary }
    removeWitnesses (witnessesToRemove ++ [index])
    pure block
  | (index, .error error) :: rest, witnessesToRemove, _ =>
    if isBenign error then processResponses remove rest witnessesToRemove error
    else processResponses remove rest (witnessesToRemove ++ [index]) error

/-- `findNewPrimary`. -/
def findNewPrimary (height : Int64) (remove : Bool) : ClientProgram Block := do
  let c ← get
  if c.witnesses = [] then fail errNoWitnesses
  else
    let phase ← nextPhase
    let responses := Channel.receive c.witnesses.length phase.order fun i =>
      if i < c.witnesses.length then [(ask (phase.answers i) height).1] else []
    processResponses remove responses [] errNoResponse

/-- `lightBlockFromPrimary`. -/
def lightBlockFromPrimary (height : Int64) : ClientProgram Block := do
  match ← request height with
  | .ok block => pure block
  | .error error =>
    if error = errCanceled ∨ error = errDeadlineExceeded then fail error
    else if isBenign error then findNewPrimary height false
    else findNewPrimary height true

/-! ### Skipping verification -/

variable (H : HashFunction) (C : Crypto) (O : Options) (now : Time)

/-- The height between two blocks at which `verifySkipping` asks next. -/
def pivotHeight (verified candidate : Block) : Int64 :=
  verified.height + (candidate.height - verified.height) * 9 / 16

/-- The loop of `verifySkipping`. A new pivot block is appended to the cache twice. -/
def verifySkippingLoop (newBlock : Block) :
    Nat → List Block → Nat → Block → List Block → ClientProgram (List Block)
  | 0, _, _, _, _ => throw .diverges
  | n + 1, blockCache, depth, verified, trace => do
    let candidate ← run (Check.orPanic blockCache[depth]?)
    match verify H C verified.signedHeader verified.validatorSet candidate.signedHeader
        candidate.validatorSet O.trustingPeriod now O.maxClockDrift O.trustLevel with
    | .ok () =>
      if depth = 0 then pure (trace ++ [newBlock])
      else verifySkippingLoop newBlock n (blockCache.take depth) 0 candidate (trace ++ [candidate])
    | .error .panic => throw (.failed .panic)
    | .error (.error error) =>
      if isCantBeTrusted error then
        if depth = blockCache.length - 1 then
          let pivot := pivotHeight verified candidate
          match ← request pivot with
          | .ok interim =>
            verifySkippingLoop newBlock n (blockCache ++ [interim, interim]) (depth + 1) verified
              trace
          | .error providerError =>
            if isBenign providerError then fail error
            else fail (errVerificationFailed verified.height pivot providerError)
        else verifySkippingLoop newBlock n blockCache (depth + 1) verified trace
      else fail (errVerificationFailed verified.height candidate.height error)

variable (trustedBlock newBlock : Block)

/-- `verifySkipping`. -/
def verifySkipping : ClientProgram (List Block) :=
  verifySkippingLoop H C O now newBlock O.steps [newBlock] 0 trustedBlock [trustedBlock]

/-! ### The detector -/

/-- What a comparison with a witness sends: `nil`, `errConflictingHeaders`, `errBadWitness`, or
another error. -/
inductive Message where
  | matched
  | conflicting (block : Block) (witnessIndex : Nat)
  | badWitness (reason : GoError) (witnessIndex : Nat)
  | failed (error : GoError)
  deriving DecidableEq

/-- `getTargetBlockOrLatest`. -/
def getTargetBlockOrLatest (answers : List Answer) (height : Int64) :
    Except GoError (Bool × Block) × List Answer :=
  match ask answers 0 with
  | (.error error, answers) => (.error error, answers)
  | (.ok latest, answers) =>
    if latest.height = height then (.ok (true, latest), answers)
    else if latest.height > height then
      ((ask answers height).1.map (true, ·), (ask answers height).2)
    else (.ok (false, latest), answers)

/-- The end of `compareNewHeaderWithWitness`: different hashes are reported, and `nil` is sent in
any case. -/
def compareHashes (h : Header) (witnessIndex : Nat) (block : Block) : List Message :=
  if h.hash H ≠ block.hash H then [.conflicting block witnessIndex, .matched] else [.matched]

/-- `compareNewHeaderWithWitness`: the messages that it sends. -/
def compareNewHeaderWithWitness (h : Header) (witnessIndex : Nat) (answers : List Answer) :
    List Message :=
  match ask answers h.height with
  | (.ok block, _) => compareHashes H h witnessIndex block
  | (.error error, answers) =>
    if error = errNoResponse ∨ error = errLightBlockNotFound ∨ error = errDeadlineExceeded ∨
        error = errCanceled then [.failed error]
    else if error = errHeightTooHigh then
      match getTargetBlockOrLatest answers h.height with
      | (.error error, _) => [.failed error]
      | (.ok (true, block), _) => compareHashes H h witnessIndex block
      | (.ok (false, block), answers) =>
        if !block.time.before h.time then [.conflicting block witnessIndex]
        else
          -- the witness is behind and gets some time
          match getTargetBlockOrLatest answers h.height with
          | (.error error, _) =>
            if isContextError error then [.failed error] else [.badWitness error witnessIndex]
          | (.ok (true, block), _) => compareHashes H h witnessIndex block
          | (.ok (false, block), _) =>
            if !block.time.before h.time then [.conflicting block witnessIndex]
            else [.failed errNoResponse]
    else [.badWitness error witnessIndex]

/-- The loop of `examineConflictingHeaderAgainstTrace`, with the block verified last; there is none
at first. -/
def examineTrace (targetBlock : Block) :
    List Block → Option Block → List Block → ClientProgram (List Block × Block)
  | [], _, _ => fail errNoDivergence
  | traceBlock :: rest, previouslyVerified, sourceTrace =>
    if traceBlock.height > targetBlock.height then
      -- a forward lunatic attack
      if traceBlock.time.after targetBlock.time then
        fail (.new
          "sanity check failed: expected traceblock to have a lesser time than the target block"
          [] [])
      else do
        let previous ← run (Check.orPanic previouslyVerified)
        if previous.height ≠ targetBlock.height then
          match ← attempt (verifySkipping H C O now previous targetBlock) with
          | .ok sourceTrace => pure (sourceTrace, traceBlock)
          | .error error => fail (.wrap "verifySkipping of conflicting header failed: %w" [] error)
        else pure (sourceTrace, traceBlock)
    else do
      let sourceBlock ←
        if traceBlock.height = targetBlock.height then pure targetBlock
        else
          match ← request traceBlock.height with
          | .ok sourceBlock => pure sourceBlock
          | .error error => fail (.wrap "failed to examine trace: %w" [] error)
      match previouslyVerified with
      | none =>
        if sourceBlock.hash H ≠ traceBlock.hash H then
          fail (.new "trusted block is different to the source's first block (%X = %X)" []
            [traceBlock.hash H, sourceBlock.hash H])
        else examineTrace targetBlock rest (some sourceBlock) sourceTrace
      | some previous =>
        match ← attempt (verifySkipping H C O now previous sourceBlock) with
        | .ok sourceTrace =>
          -- the bifurcation point
          if sourceBlock.hash H ≠ traceBlock.hash H then pure (sourceTrace, traceBlock)
          else examineTrace targetBlock rest (some sourceBlock) sourceTrace
        | .error error => fail (.wrap "verifySkipping of conflicting header failed: %w" [] error)

/-- `examineConflictingHeaderAgainstTrace`. -/
def examineConflictingHeaderAgainstTrace (trace : List Block) (targetBlock : Block) :
    ClientProgram (List Block × Block) := do
  let first ← run (Check.orPanic trace.head?)
  if targetBlock.height < first.height then
    fail (.new "target block has a height lower than the trusted height (%d < %d)"
      [targetBlock.height.toInt, first.height.toInt] [])
  else examineTrace H C O now targetBlock trace none []

/-- `handleConflictingHeaders`. If the header of the witness can be verified, evidence is sent to
both sides and the client stops. -/
def handleConflictingHeaders (primaryTrace : List Block) (challengingBlock : Block) :
    ClientProgram Unit := do
  match ← attempt (examineConflictingHeaderAgainstTrace H C O now primaryTrace challengingBlock)
    with
  | .error _ => pure ()
  | .ok (witnessTrace, primaryBlock) =>
    let _commonBlock ← run (Check.orPanic witnessTrace.head?)
    let _examined ← attempt
      (examineConflictingHeaderAgainstTrace H C O now witnessTrace primaryBlock)
    fail errLightClientAttack

/-- The results of the comparisons as they come in. -/
def handleMessages (primaryTrace : List Block) :
    List Message → Bool → List Nat → ClientProgram Unit
  | [], headerMatched, witnessesToRemove => do
    removeWitnesses witnessesToRemove
    if headerMatched then pure () else fail errFailedHeaderCrossReferencing
  | .matched :: rest, _, witnessesToRemove =>
    handleMessages primaryTrace rest true witnessesToRemove
  | .conflicting block witnessIndex :: rest, headerMatched, witnessesToRemove => do
    handleConflictingHeaders H C O now primaryTrace block
    handleMessages primaryTrace rest headerMatched (witnessesToRemove ++ [witnessIndex])
  | .badWitness _ witnessIndex :: rest, headerMatched, witnessesToRemove =>
    handleMessages primaryTrace rest headerMatched (witnessesToRemove ++ [witnessIndex])
  | .failed error :: rest, headerMatched, witnessesToRemove =>
    if isContextError error then fail error
    else handleMessages primaryTrace rest headerMatched witnessesToRemove

/-- The messages that the comparisons with `n` witnesses send. -/
def comparisons (h : Header) (n : Nat) (phase : Phase) (witnessIndex : Nat) : List Message :=
  if witnessIndex < n then
    compareNewHeaderWithWitness H h witnessIndex (phase.answers witnessIndex)
  else []

/-- `detectDivergence`. -/
def detectDivergence (primaryTrace : List Block) : ClientProgram Unit := do
  if primaryTrace.length < 2 then fail (.new "nil or single block primary trace" [] [])
  else
    let lastVerified ← run (Check.orPanic primaryTrace.getLast?)
    let c ← get
    if c.witnesses = [] then fail errNoWitnesses
    else
      let phase ← nextPhase
      let received := Channel.receive c.witnesses.length phase.order
        (comparisons H lastVerified.header c.witnesses.length phase)
      handleMessages H C O now primaryTrace (received.map Prod.snd) false []

/-! ### Verification -/

/-- The loop of `verifySequential`. -/
def verifySequentialLoop (newBlock : Block) :
    Nat → Int64 → Block → List Block → ClientProgram Unit
  | 0, _, _, _ => throw .diverges
  | n + 1, height, verified, trace =>
    if height ≤ newBlock.height then do
      let interim ←
        if height = newBlock.height then pure newBlock
        else
          match ← attempt (lightBlockFromPrimary height) with
          | .ok interim => pure interim
          | .error error => fail (errVerificationFailed verified.height height error)
      match verifyAdjacent H C verified.signedHeader interim.signedHeader interim.validatorSet
          O.trustingPeriod now O.maxClockDrift with
      | .ok () => verifySequentialLoop newBlock n (height + 1) interim (trace ++ [interim])
      | .error .panic => throw (.failed .panic)
      | .error (.error reason) =>
        let error := errVerificationFailed verified.height interim.height reason
        if isInvalidHeader reason then
          if interim.height = newBlock.height then fail error
          else
            match ← attempt (findNewPrimary newBlock.height true) with
            | .error _ => fail error
            | .ok replacement =>
              if replacement.hash H ≠ newBlock.hash H then fail error
              else verifySequentialLoop newBlock n height verified trace
        else fail error
    else detectDivergence H C O now trace

/-- `verifySequential`. -/
def verifySequential : ClientProgram Unit :=
  verifySequentialLoop H C O now newBlock O.steps (trustedBlock.height + 1) trustedBlock
    [trustedBlock]

/-- `verifySkippingAgainstPrimary`. An error that does not wrap another one is taken for none, and
the detector then gets no trace. -/
def verifySkippingAgainstPrimary : Nat → Block → Block → ClientProgram Unit
  | 0, _, _ => throw .diverges
  | n + 1, trustedBlock, newBlock => do
    match ← attempt (verifySkipping H C O now trustedBlock newBlock) with
    | .ok trace => detectDivergence H C O now trace
    | .error (.wrap format numbers reason) =>
      if format = verificationFailedFormat then
        let error := .wrap format numbers reason
        if isInvalidHeader reason then
          if numbers.getLast? = some newBlock.height.toInt then fail error
          else
            match ← attempt (findNewPrimary newBlock.height true) with
            | .error _ => fail error
            | .ok replacement =>
              if replacement.hash H ≠ newBlock.hash H then fail error
              else verifySkippingAgainstPrimary n trustedBlock replacement
        else fail error
      else detectDivergence H C O now []
    | .error (.new ..) => detectDivergence H C O now []

/-- The loop of `backwards`, and the headers that it has verified. -/
def backwardsPath : Nat → Header → Header → ClientProgram (List Header)
  | 0, _, _ => throw .diverges
  | n + 1, verified, newHeader =>
    if verified.height > newHeader.height then do
      match ← attempt (lightBlockFromPrimary (verified.height - 1)) with
      | .error error =>
        fail (.wrap "failed to obtain the header at height #%d: %w" [(verified.height - 1).toInt]
          error)
      | .ok interim =>
        match verifyBackwards H interim.header verified with
        | .ok () => do
          let path ← backwardsPath n interim.header newHeader
          pure (interim.header :: path)
        | .error .panic => throw (.failed .panic)
        | .error (.error error) =>
          match ← attempt (findNewPrimary newHeader.height true) with
          | .error _ => fail error
          | .ok newPrimarysBlock =>
            if newPrimarysBlock.hash H ≠ newHeader.hash H then fail error
            else backwardsPath n verified newPrimarysBlock.header
    else pure []

/-- `backwards`. -/
def backwards (trustedHeader newHeader : Header) : ClientProgram Unit := do
  let _path ← backwardsPath H O.steps trustedHeader newHeader

/-- `updateTrustedLightBlock`. -/
def updateTrustedLightBlock (l : Block) : ClientProgram Unit := do
  if l.height ≤ 0 then throw (.failed .panic)
  else
    match LightBlock.marshal ⟨some l.signedHeader, some l.validatorSet⟩ with
    | none => fail (.new "failed to save trusted header: %w" [] [])
    | some _ =>
      modify fun c =>
        let saved := c.trustedStore.save l
        { c with
          trustedStore := if O.pruningSize > 0 then saved.prune O.pruningSize else saved
          latestTrustedBlock :=
            match c.latestTrustedBlock with
            | none => some l
            | some latest => if l.height > latest.height then some l else some latest }

/-- The verification function of the mode. -/
def verifyFunc : ClientProgram Unit :=
  match O.verificationMode with
  | .sequential => verifySequential H C O now trustedBlock newBlock
  | .skipping => verifySkippingAgainstPrimary H C O now O.steps trustedBlock newBlock

/-- The three cases of `verifyLightBlock`. -/
def verifyAgainstTrusted (newBlock : Block) : ClientProgram Unit := do
  let c ← get
  let latest ← run (Check.orPanic c.latestTrustedBlock)
  if newBlock.height ≥ latest.height then verifyFunc H C O now latest newBlock
  else if newBlock.height < c.trustedStore.firstLightBlockHeight then
    let firstBlock ← run (c.trustedStore.lightBlock c.trustedStore.firstLightBlockHeight)
    backwards H O firstBlock.header newBlock.header
  else
    let closestBlock ← run (c.trustedStore.lightBlockBefore newBlock.height)
    verifyFunc H C O now closestBlock newBlock

/-- `verifyLightBlock`. -/
def verifyLightBlock (newBlock : Block) : ClientProgram Unit := do
  verifyAgainstTrusted H C O now newBlock
  updateTrustedLightBlock O newBlock

/-- `TrustedLightBlock` for a positive height. -/
def trustedLightBlock (c : Client) (height : Int64) : Option Block :=
  if height > c.trustedStore.lastLightBlockHeight then none
  else (c.trustedStore.lightBlock height).toOption

/-- `VerifyLightBlockAtHeight`. -/
def verifyLightBlockAtHeight (height : Int64) : ClientProgram Block := do
  if height ≤ 0 then fail (.new "negative or zero height" [] [])
  else
    match trustedLightBlock (← get) height with
    | some l => pure l
    | none =>
      let l ← lightBlockFromPrimary height
      verifyLightBlock H C O now l
      pure l

end NimbleChain.Tendermint.Light
