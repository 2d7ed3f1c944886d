import NimbleChain.Common.Program
import NimbleChain.Tendermint.Canonical

/-!
# The file signer

`privval/file.go`: a validator key with the last signature on disk. A request for a height, round
and step (HRS) below the last one is refused. A request for the last HRS gets the last signature if
its message differs at most in the timestamp, which is then replaced by the last one. Any other
request gets a new signature, which is saved before it is handed out. The process may stop at any
point of a request and start again from the file.
-/

namespace NimbleChain.Tendermint

open Common Program Option List CanonicalProposal

variable (H : HashFunction)

/-! ### Model -/

/-- Height, round and step. -/
structure HRS where
  height : Int
  round : Int
  step : Int
  deriving DecidableEq

/-- The lexicographic order. -/
def HRS.Before (a b : HRS) : Prop :=
  a.height < b.height ∨ a.height = b.height ∧
    (a.round < b.round ∨ a.round = b.round ∧ a.step < b.step)

instance (a b : HRS) : Decidable (a.Before b) :=
  inferInstanceAs (Decidable (_ ∨ _))

/-- `stepPropose`. -/
def stepPropose : Int8 := 1

/-- `stepPrevote`. -/
def stepPrevote : Int8 := 2

/-- `stepPrecommit`. -/
def stepPrecommit : Int8 := 3

/-- `voteToStep`; `none` where it panics. -/
def voteToStep (vote : Vote) : Option Int8 :=
  if vote.type = prevoteType then some stepPrevote
  else if vote.type = precommitType then some stepPrecommit
  else none

/-- `FilePVLastSignState`; here a nil slice differs from an empty one. -/
structure LastSignState where
  height : Int64
  round : Int32
  step : Int8
  signature : Option Bytes
  signBytes : Option Bytes
  deriving DecidableEq

namespace LastSignState

variable (lss : LastSignState)

/-- The height, round and step of the last signature. -/
def hrs : HRS :=
  ⟨lss.height.toInt, lss.round.toInt, lss.step.toInt⟩

/-- `FilePVLastSignState.CheckHRS`: whether the last signature is to be used again. -/
def checkHRS (height : Int64) (round : Int32) (step : Int8) :
    Except Failure Bool :=
  if lss.height > height then
    .error (.error (.new "height regression. Got %v, last height %v"
      [height.toInt, lss.height.toInt] []))
  else if lss.height = height then
    if lss.round > round then
      .error (.error (.new "round regression at height %v. Got %v, last round %v"
        [height.toInt, round.toInt, lss.round.toInt] []))
    else if lss.round = round then
      if lss.step > step then
        .error (.error (.new "step regression at height %v round %v. Got %v, last step %v"
          [height.toInt, round.toInt, step.toInt, lss.step.toInt] []))
      else if lss.step = step then
        match lss.signBytes, lss.signature with
        | some _, none => .error .panic
        | some _, some _ => .ok true
        | none, _ => .error (.error (.new "no SignBytes found" [] []))
      else .ok false
    else .ok false
  else .ok false

/-- What the file holds after `Save`: the JSON encoder omits empty slices, which are nil when they
are read back. -/
def persisted : LastSignState :=
  { lss with
    signature := lss.signature.filter (· ≠ [])
    signBytes := lss.signBytes.filter (· ≠ []) }

end LastSignState

/-- A message that is signed. -/
inductive SignedMessage where
  | vote (vote : CanonicalVote)
  | proposal (proposal : CanonicalProposal)
  deriving DecidableEq

namespace SignedMessage

/-- The height, round and step that a message is for. -/
def hrs : SignedMessage → HRS
  | vote v =>
    ⟨v.height.toInt, v.round.toInt,
      (if v.type = prevoteType then stepPrevote else stepPrecommit).toInt⟩
  | proposal p => ⟨p.height.toInt, p.round.toInt, stepPropose.toInt⟩

/-- The bytes that are signed. -/
def signBytes : SignedMessage → Option Bytes
  | vote v => v.signBytes
  | proposal p => p.signBytes

end SignedMessage

/-- A vote or a proposal with its signature, as it is handed out. -/
inductive Release where
  | vote (chainID : Bytes) (vote : Vote)
  | proposal (chainID : Bytes) (proposal : Proposal)
  deriving DecidableEq

/-- The message that the signature of a release is for. -/
def Release.message : Release → Option SignedMessage
  | vote chainID v => (canonicalizeVote H chainID v).map .vote
  | proposal chainID p => (canonicalizeProposal H chainID p).map .proposal

/-- The signature of a release. -/
def Release.signature : Release → Bytes
  | vote _ v => v.signature
  | proposal _ p => p.signature

/-- What happens to signatures: `PrivKey.Sign` makes one of some bytes, it is saved with them, and a
message with it is handed out. -/
inductive SignerEvent where
  | created (hrs : HRS) (signBytes signature : Bytes)
  | saved (hrs : HRS) (signBytes signature : Bytes)
  | released (release : Release)
  deriving DecidableEq

/-- `FilePV` with the content of its state file, and the history of its signatures. -/
structure FilePV where
  lastSignState : LastSignState
  file : LastSignState
  trace : List SignerEvent
  deriving DecidableEq

namespace FilePV

/-- `GenFilePV` and `Save`. -/
def gen : FilePV where
  lastSignState := ⟨0, 0, 0, none, none⟩
  file := ⟨0, 0, 0, none, none⟩
  trace := []

/-- `LoadFilePV`: a new process starts from the file. -/
def reload (pv : FilePV) : FilePV :=
  { pv with lastSignState := pv.file }

/-- How a request ends without a signature. -/
inductive Halt where
  | failure (failure : Failure)
  | crash

/-- Where the process stops within `saveSigned`: before or after the file is replaced. -/
inductive CrashPoint where
  | beforeSave
  | afterSave
  deriving DecidableEq

/-- What a request meets: the clock, what `PrivKey.Sign` makes of sign bytes, and where the process
stops, if it does. -/
structure Attempt where
  now : Time
  privKeySign : Bytes → Except GoError Bytes
  crash : Option CrashPoint

/-- An error or panic within a request. -/
def orHalt {α : Type} : Except Failure α → Program Halt FilePV α
  | .ok a => pure a
  | .error failure => throw (.failure failure)

/-- Add to the history. -/
def record (event : SignerEvent) (pv : FilePV) : FilePV :=
  { pv with trace := pv.trace ++ [event] }

/-- `saveSigned`. -/
def saveSigned (crash : Option CrashPoint) (height : Int64) (round : Int32) (step : Int8)
    (signBytes sig : Bytes) : Program Halt FilePV Unit := do
  let lss : LastSignState := ⟨height, round, step, some sig, some signBytes⟩
  modify fun pv => { pv with lastSignState := lss }
  if crash = some .beforeSave then throw .crash else pure ()
  modify fun pv => { pv with file := lss.persisted }
  modify (record (.saved lss.hrs signBytes sig))
  if crash = some .afterSave then throw .crash else pure ()

variable (attempt : Attempt)

/-- The common body of `signVote` and `signProposal`: the signature, and the timestamp to put in
place of the requested one, if any. -/
def sign (height : Int64) (round : Int32) (step : Int8)
    (signBytes : Option Bytes) (checkOnlyDifferByTimestamp : Bytes → Bytes → Option (Time × Bool)) :
    Program Halt FilePV (Option Time × Bytes) := do
  let lss := (← get).lastSignState
  let sameHRS ← orHalt (lss.checkHRS height round step)
  let signBytes ← orHalt (Check.orPanic signBytes)
  if sameHRS then
    if signBytes = lss.signBytes.getD [] then
      return (none, lss.signature.getD [])
    else
      let (timestamp, ok) ←
        orHalt (Check.orPanic (checkOnlyDifferByTimestamp (lss.signBytes.getD []) signBytes))
      if ok then
        return (some timestamp, lss.signature.getD [])
      else
        throw (.failure (.error (.new "conflicting data" [] [])))
  else
    let sig ← orHalt ((attempt.privKeySign signBytes).mapError .error)
    modify (record (.created ⟨height.toInt, round.toInt, step.toInt⟩ signBytes sig))
    saveSigned attempt.crash height round step signBytes sig
    return (none, sig)

/-- `checkVotesOnlyDifferByTimestamp`; `none` where it panics. -/
def checkVotesOnlyDifferByTimestamp (now : Time) (lastSignBytes newSignBytes : Bytes) :
    Option (Time × Bool) := do
  let lastVote ← CanonicalVote.ofSignBytes lastSignBytes
  let newVote ← CanonicalVote.ofSignBytes newSignBytes
  return (lastVote.timestamp,
    { newVote with timestamp := now } = { lastVote with timestamp := now })

/-- `checkProposalsOnlyDifferByTimestamp`; `none` where it panics. -/
def checkProposalsOnlyDifferByTimestamp (now : Time) (lastSignBytes newSignBytes : Bytes) :
    Option (Time × Bool) := do
  let lastProposal ← ofSignBytes lastSignBytes
  let newProposal ← ofSignBytes newSignBytes
  return (lastProposal.timestamp,
    { newProposal with timestamp := now } = { lastProposal with timestamp := now })

variable (chainID : Bytes) (proposal : Proposal)

/-- `signVote`. -/
def signVote (vote : Vote) : Program Halt FilePV Vote := do
  let step ← orHalt (Check.orPanic (voteToStep vote))
  let (timestamp, signature) ← sign attempt vote.height vote.round step
    (voteSignBytes H chainID vote) (checkVotesOnlyDifferByTimestamp attempt.now)
  return { vote with timestamp := timestamp.getD vote.timestamp, signature := signature }

/-- `signProposal`. -/
def signProposal :
    Program Halt FilePV Proposal := do
  let (timestamp, signature) ← sign attempt proposal.height proposal.round stepPropose
    (proposalSignBytes H chainID proposal) (checkProposalsOnlyDifferByTimestamp attempt.now)
  return { proposal with timestamp := timestamp.getD proposal.timestamp, signature := signature }

/-- `fmt.Errorf` around an error that a request returns. -/
def Halt.within (format : String) : Halt → Halt
  | .failure (.error error) => .failure (.error (.wrap format [] error))
  | other => other

/-- `SignVote`. -/
def SignVote (vote : Vote) : Program Halt FilePV Vote :=
  ExceptT.adapt (Halt.within "error signing vote: %v") (signVote H attempt chainID vote)

/-- `SignProposal`. -/
def SignProposal :
    Program Halt FilePV Proposal :=
  ExceptT.adapt (Halt.within "error signing proposal: %v") (signProposal H attempt chainID proposal)

/-- What a signer is asked to do. A restart is a crash outside of any request. -/
inductive Request where
  | signVote (attempt : Attempt) (chainID : Bytes) (vote : Vote)
  | signProposal (attempt : Attempt) (chainID : Bytes) (proposal : Proposal)
  | restart

/-- The signer after a request: a result is handed out, and a crash is followed by a restart. -/
def finish {α : Type} (release : α → Release) : Except Halt α × FilePV → FilePV
  | (.ok a, pv) => pv.record (.released (release a))
  | (.error .crash, pv) => pv.reload
  | (.error (.failure _), pv) => pv

/-- One request. -/
def step (pv : FilePV) : Request → FilePV
  | .signVote attempt chainID vote =>
    finish (.vote chainID) ((SignVote H attempt chainID vote).exec pv)
  | .signProposal attempt chainID proposal =>
    finish (.proposal chainID) ((SignProposal H attempt chainID proposal).exec pv)
  | .restart => pv.reload

/-- A run from a new key. -/
def run (requests : List Request) : FilePV :=
  requests.foldl (step H) gen

/-- `PrivKey.Sign` made a signature of some bytes, if the request got that far. -/
def Request.Makes (signBytes signature : Bytes) : Request → Prop
  | .signVote attempt _ _ => attempt.privKeySign signBytes = .ok signature
  | .signProposal attempt _ _ => attempt.privKeySign signBytes = .ok signature
  | .restart => False

end FilePV

/-! ### Messages -/

namespace HRS

/-- The order is transitive. -/
theorem Before.trans {a b c : HRS} (hab : a.Before b) (hbc : b.Before c) : a.Before c := by
  unfold Before at *
  omega

/-- The order is strict. -/
theorem Before.irrefl (a : HRS) : ¬ a.Before a := by
  unfold Before
  omega

end HRS

/-- Height, round and step as they stand in a request. -/
def requestHRS (height : Int64) (round : Int32) (step : Int8) : HRS :=
  ⟨height.toInt, round.toInt, step.toInt⟩

variable {m : SignedMessage} {b chainID : Bytes}

/-- Votes and proposals are for different steps. -/
theorem SignedMessage.hrs_vote_ne (v : CanonicalVote) (p : CanonicalProposal) :
    (vote v).hrs ≠ (proposal p).hrs := by
  intro h
  have hstep := congrArg HRS.step h
  simp only [hrs] at hstep
  split at hstep <;> exact absurd hstep (by decide)

/-- For one height, round and step, the sign bytes determine the message. -/
theorem SignedMessage.eq_of_signBytes {m' : SignedMessage} (hhrs : m.hrs = m'.hrs)
    (h : m.signBytes = some b) (h' : m'.signBytes = some b) : m = m' := by
  cases m with
  | vote v =>
    cases m' with
    | vote v' =>
      have hsame := (CanonicalVote.ofSignBytes_signBytes h).symm.trans
        (CanonicalVote.ofSignBytes_signBytes h')
      exact congrArg _ (some.inj hsame)
    | proposal p => exact absurd hhrs (hrs_vote_ne v p)
  | proposal p =>
    cases m' with
    | vote v => exact absurd hhrs.symm (hrs_vote_ne v p)
    | proposal p' =>
      have hsame := (ofSignBytes_signBytes h).symm.trans (ofSignBytes_signBytes h')
      exact congrArg _ (some.inj hsame)

/-- Sign bytes are not empty, so that they are not lost in the file. -/
theorem SignedMessage.signBytes_ne_nil (h : m.signBytes = some b) : b ≠ [] := by
  cases m with
  | vote v => exact CanonicalVote.signBytes_ne_nil h
  | proposal p => exact signBytes_ne_nil h

/-- The canonical vote is for the height, round and step that `signVote` checks. -/
theorem hrs_canonicalizeVote {vote : Vote} {v : CanonicalVote} {step : Int8}
    (hv : canonicalizeVote H chainID vote = some v) (hstep : voteToStep vote = some step) :
    (SignedMessage.vote v).hrs = requestHRS vote.height vote.round step := by
  obtain ⟨id, -, rfl⟩ := map_eq_some_iff.mp hv
  unfold voteToStep at hstep
  simp only [SignedMessage.hrs, requestHRS, Int32.toInt_toInt64]
  split at hstep
  · rename_i htype
    rw [if_pos htype, some.inj hstep]
  · rename_i htype
    split at hstep
    · rw [if_neg htype, some.inj hstep]
    · cases hstep

/-- The canonical proposal is for the height, round and step that `signProposal` checks. -/
theorem hrs_canonicalizeProposal {proposal : Proposal} {p : CanonicalProposal}
    (hp : canonicalizeProposal H chainID proposal = some p) :
    (SignedMessage.proposal p).hrs = requestHRS proposal.height proposal.round stepPropose := by
  obtain ⟨id, -, rfl⟩ := map_eq_some_iff.mp hp
  simp only [SignedMessage.hrs, requestHRS, Int32.toInt_toInt64]

/-! ### One request -/

namespace LastSignState

variable {lss : LastSignState} {height : Int64} {round : Int32} {step : Int8}

/-- A signature is used again for the last height, round and step only, and a new one is created for
later ones only. -/
theorem checkHRS_spec {sameHRS : Bool} (h : lss.checkHRS height round step = .ok sameHRS) :
    if sameHRS then
      lss.hrs = requestHRS height round step ∧
        ∃ last sig, lss.signBytes = some last ∧ lss.signature = some sig
    else lss.hrs.Before (requestHRS height round step) := by
  unfold checkHRS at h
  simp only [hrs, requestHRS, HRS.Before, HRS.mk.injEq]
  split at h
  · cases h
  rename_i hheight
  rw [gt_iff_lt, Int64.lt_iff_toInt_lt] at hheight
  split at h
  · rename_i heq
    split at h
    · cases h
    rename_i hround
    rw [gt_iff_lt, Int32.lt_iff_toInt_lt] at hround
    split at h
    · rename_i hroundeq
      split at h
      · cases h
      rename_i hstep
      rw [gt_iff_lt, Int8.lt_iff_toInt_lt] at hstep
      split at h
      · rename_i hstepeq
        split at h
        · cases h
        · rename_i last sig hlast hsig
          cases h
          simp [heq, hroundeq, hstepeq, hlast, hsig]
        · cases h
      · rename_i hstepne
        cases h
        rw [← Int8.toInt_inj] at hstepne
        simp [heq, hroundeq]
        omega
    · rename_i hroundne
      cases h
      rw [← Int32.toInt_inj] at hroundne
      simp [heq]
      omega
  · rename_i hne
    cases h
    rw [← Int64.toInt_inj] at hne
    simp
    omega

end LastSignState

namespace FilePV

variable {pv : FilePV} {α : Type} {now t : Time} {last b sig : Bytes} {hrs : HRS}

/-- The signer after a new signature has been created and saved. -/
def signed (pv : FilePV) (height : Int64) (round : Int32) (step : Int8) (b sig : Bytes) :
    FilePV where
  lastSignState := ⟨height, round, step, some sig, some b⟩
  file := LastSignState.persisted ⟨height, round, step, some sig, some b⟩
  trace := pv.trace ++ [.created (requestHRS height round step) b sig] ++
    [.saved (requestHRS height round step) b sig]

/-- An error or panic leaves the state alone. -/
@[simp] theorem wp_orHalt {Q : α → FilePV → Prop} {E : Halt → FilePV → Prop}
    (x : Except Failure α) : (orHalt x).wp Q E pv ↔
      (∀ a, x = .ok a → Q a pv) ∧ ∀ failure, x = .error failure → E (.failure failure) pv := by
  cases x with
  | ok a => simp [orHalt]
  | error failure => simp [orHalt]

variable (attempt : Attempt) (requests : List Request) (chainID : Bytes)

/-- How a request may end: with the last signature, with a new one, without a change, or in a crash
before or after the new one is saved. -/
theorem sign_spec (height : Int64) (round : Int32) (step : Int8)
    (signBytes : Option Bytes) (check : Bytes → Bytes → Option (Time × Bool)) (pv : FilePV) :
    (sign attempt height round step signBytes check).wp
      (fun out pv' => ∃ b, signBytes = some b ∧
        ((pv' = pv ∧ pv.lastSignState.hrs = requestHRS height round step ∧
            pv.lastSignState.signature = some out.2 ∧
            ∃ last, pv.lastSignState.signBytes = some last ∧
              (out.1 = none ∧ b = last ∨ ∃ t, out.1 = some t ∧ check last b = some (t, true))) ∨
          (out.1 = none ∧ pv.lastSignState.hrs.Before (requestHRS height round step) ∧
            attempt.privKeySign b = .ok out.2 ∧ pv' = pv.signed height round step b out.2)))
      (fun halt pv' =>
        match halt with
        | .failure _ => pv' = pv
        | .crash => pv.lastSignState.hrs.Before (requestHRS height round step) ∧
            ∃ b sig, signBytes = some b ∧ attempt.privKeySign b = .ok sig ∧
              (pv'.reload = (pv.record (.created (requestHRS height round step) b sig)).reload ∨
                pv' = pv.signed height round step b sig)) pv := by
  unfold sign
  simp only [wp_bind, wp_get, wp_orHalt, wp_ite, wp_pure,
    wp_throw, wp_modify, Check.orPanic_eq_ok, saveSigned]
  refine ⟨?_, fun failure _ => trivial⟩
  intro sameHRS hcheck
  refine ⟨?_, fun failure _ => trivial⟩
  intro b hb
  refine ⟨?_, ?_⟩
  · rintro rfl
    obtain ⟨hhrs, last, sig, hlast, hsig⟩ := LastSignState.checkHRS_spec hcheck
    have hget : pv.lastSignState.signBytes.getD [] = last := by rw [hlast, getD_some]
    have hgetSig : pv.lastSignState.signature.getD [] = sig := by rw [hsig, getD_some]
    rw [hget, hgetSig]
    refine ⟨?_, ?_⟩
    · intro heq
      exact ⟨b, hb, .inl ⟨trivial, hhrs, hsig, last, hlast, .inl ⟨trivial, heq⟩⟩⟩
    · intro _
      refine ⟨?_, fun failure _ => trivial⟩
      rintro ⟨t, ok⟩ hdiffer
      refine ⟨?_, fun _ => trivial⟩
      rintro rfl
      exact ⟨b, hb, .inl ⟨trivial, hhrs, hsig, last, hlast, .inr ⟨t, rfl, hdiffer⟩⟩⟩
  · intro hnew
    rw [Bool.not_eq_true] at hnew
    subst hnew
    have hbefore : HRS.Before _ _ := LastSignState.checkHRS_spec hcheck
    refine ⟨?_, fun failure _ => trivial⟩
    intro sig hsign
    have hsign : attempt.privKeySign b = .ok sig := by
      cases hkey : attempt.privKeySign b with
      | error error => simp [hkey, Except.mapError] at hsign
      | ok made => simpa [hkey, Except.mapError] using hsign
    refine ⟨fun _ => ⟨hbefore, b, sig, hb, hsign, .inl rfl⟩, fun _ => ⟨fun _ => ?_, fun _ => ?_⟩⟩
    · exact ⟨hbefore, b, sig, hb, hsign, .inr rfl⟩
    · exact ⟨b, hb, .inr ⟨trivial, hbefore, hsign, rfl⟩⟩

/-! ### Whole runs -/

/-- What is handed out has a signature that was saved with its sign bytes before. -/
def ReleasesSaved (trace : List SignerEvent) : Prop :=
  ∀ before r, before ++ [.released r] <+: trace → ∃ m b, r.message H = some m ∧
    m.signBytes = some b ∧ .saved m.hrs b r.signature ∈ before

/-- How the history agrees with the last signature, in memory and on disk; `Made` relates bytes to
signatures that `PrivKey.Sign` makes of them. -/
structure Consistent (Made : Bytes → Bytes → Prop) (pv : FilePV) : Prop where
  file_eq : pv.file = pv.lastSignState.persisted
  /-- What was signed last is a message for the last height, round and step. -/
  last : ∀ b, pv.lastSignState.signBytes = some b →
    (∃ m : SignedMessage, m.signBytes = some b ∧ m.hrs = pv.lastSignState.hrs) ∧
      ∀ sig, pv.lastSignState.signature = some sig → .saved pv.lastSignState.hrs b sig ∈ pv.trace
  saved_le : ∀ h b sig, .saved h b sig ∈ pv.trace →
    (h = pv.lastSignState.hrs ∨ h.Before pv.lastSignState.hrs) ∧ Made b sig
  order : pv.trace.Pairwise fun e e' => ∀ h b sig h' b' sig', e = .saved h b sig →
    e' = .created h' b' sig' ∨ e' = .saved h' b' sig' → h.Before h'
  released : ReleasesSaved H pv.trace

/-- The last signature may be handed out with this message. -/
def Releasable (pv : FilePV) (r : Release) : Prop :=
  ∃ m b, r.message H = some m ∧ m.hrs = pv.lastSignState.hrs ∧ m.signBytes = some b ∧
    pv.lastSignState.signBytes = some b ∧ pv.lastSignState.signature = some r.signature

/-- What a request leaves behind if it ends without a signature. -/
def Halt.Leaves (Made : Bytes → Bytes → Prop) (pv : FilePV) : Halt → Prop
  | .failure _ => pv.Consistent H Made
  | .crash => pv.reload.Consistent H Made

variable {H}

/-- One more event keeps `ReleasesSaved`, unless something is handed out that was not saved. -/
theorem ReleasesSaved.concat {trace : List SignerEvent} {e : SignerEvent}
    (h : ReleasesSaved H trace) (he : ∀ r, e = .released r → ∃ m b, r.message H = some m ∧
      m.signBytes = some b ∧ .saved m.hrs b r.signature ∈ trace) :
    ReleasesSaved H (trace ++ [e]) := by
  intro before r hprefix
  rcases prefix_concat_iff.mp hprefix with heq | hbefore
  · obtain ⟨rfl, hevent⟩ := append_inj' heq rfl
    exact he r (singleton_inj.mp hevent).symm
  · exact h before r hbefore

namespace Consistent

variable {Made : Bytes → Bytes → Prop} (hpv : pv.Consistent H Made)

include hpv

/-- Saving does not lose the sign bytes. -/
theorem signBytes_file : pv.file.signBytes = pv.lastSignState.signBytes := by
  rw [hpv.file_eq, LastSignState.persisted]
  cases hlast : pv.lastSignState.signBytes with
  | none => rfl
  | some b =>
    obtain ⟨⟨m, hm, -⟩, -⟩ := hpv.last b hlast
    simp [Option.filter, SignedMessage.signBytes_ne_nil hm]

/-- The file is for the last height, round and step. -/
theorem hrs_file : pv.file.hrs = pv.lastSignState.hrs := by
  rw [hpv.file_eq]
  rfl

/-- A new process finds what the last one has saved. -/
protected theorem reload : pv.reload.Consistent H Made where
  file_eq := by
    change pv.file = pv.file.persisted
    rw [hpv.file_eq]
    simp [LastSignState.persisted, Option.filter_filter]
  last := by
    change ∀ b, pv.file.signBytes = some b → (∃ m : SignedMessage, _ ∧ m.hrs = pv.file.hrs) ∧
      ∀ sig, pv.file.signature = some sig → .saved pv.file.hrs b sig ∈ pv.trace
    rw [hpv.signBytes_file, hpv.hrs_file]
    intro b hb
    obtain ⟨hmessage, hsaved⟩ := hpv.last b hb
    refine ⟨hmessage, fun sig hsig => hsaved sig ?_⟩
    rw [hpv.file_eq] at hsig
    exact (Option.filter_eq_some_iff.mp hsig).1
  saved_le := by
    change ∀ h b sig, .saved h b sig ∈ pv.trace → (h = pv.file.hrs ∨ h.Before pv.file.hrs) ∧ _
    rw [hpv.hrs_file]
    exact hpv.saved_le
  order := hpv.order
  released := hpv.released

/-- What is above the last signature is above all that were saved. -/
theorem saved_before {h : HRS} (hh : .saved h b sig ∈ pv.trace)
    (hbefore : pv.lastSignState.hrs.Before hrs) : h.Before hrs := by
  rcases (hpv.saved_le h b sig hh).1 with rfl | hle
  · exact hbefore
  · exact hle.trans hbefore

/-- A signature that is lost in a crash is above all that were saved. -/
theorem created (b sig : Bytes) (hbefore : pv.lastSignState.hrs.Before hrs) :
    (pv.record (.created hrs b sig)).Consistent H Made where
  file_eq := hpv.file_eq
  last b hb := ⟨(hpv.last b hb).1, fun sig hsig => mem_append_left _ ((hpv.last b hb).2 sig hsig)⟩
  saved_le h b sig hh := hpv.saved_le h b sig (by simpa [record] using hh)
  order := by
    refine pairwise_append.mpr ⟨hpv.order, pairwise_singleton _ _, ?_⟩
    intro e he e' he' h b sig h' b' sig' hsaved hcreated
    obtain rfl := mem_singleton.mp he'
    obtain ⟨rfl, -⟩ : hrs = h' ∧ _ := by simpa using hcreated
    exact hpv.saved_before (hsaved ▸ he) hbefore
  released := hpv.released.concat nofun

/-- A new signature becomes the last one. -/
theorem signed {height : Int64} {round : Int32} {step : Int8} {m : SignedMessage}
    (hbefore : pv.lastSignState.hrs.Before (requestHRS height round step))
    (hbytes : m.signBytes = some b) (hhrs : m.hrs = requestHRS height round step)
    (hmade : Made b sig) : (pv.signed height round step b sig).Consistent H Made where
  file_eq := rfl
  last b' hb' := by
    cases hb'
    refine ⟨⟨m, hbytes, hhrs⟩, fun sig' hsig' => ?_⟩
    cases hsig'
    exact mem_append_right _ (mem_singleton_self _)
  saved_le h b' sig' hh := by
    have hh : .saved h b' sig' ∈ pv.trace ∨
        h = requestHRS height round step ∧ b' = b ∧ sig' = sig := by
      simpa [FilePV.signed] using hh
    rcases hh with hh | ⟨rfl, rfl, rfl⟩
    · exact ⟨.inr (hpv.saved_before hh hbefore), (hpv.saved_le h b' sig' hh).2⟩
    · exact ⟨.inl rfl, hmade⟩
  order := by
    refine pairwise_append.mpr ⟨(hpv.created b sig hbefore).order, pairwise_singleton _ _, ?_⟩
    intro e he e' he' h b1 sig1 h' b2 sig2 hsaved hnew
    obtain rfl := mem_singleton.mp he'
    obtain ⟨rfl, -⟩ : requestHRS height round step = h' ∧ _ := by simpa using hnew
    have he : .saved h b1 sig1 ∈ pv.trace := by simpa [hsaved] using he
    exact hpv.saved_before he hbefore
  released := (hpv.created b sig hbefore).released.concat nofun

/-- A message with the last sign bytes may be handed out. -/
theorem release {r : Release} (hr : pv.Releasable H r) :
    (pv.record (.released r)).Consistent H Made where
  file_eq := hpv.file_eq
  last b hb := ⟨(hpv.last b hb).1, fun sig hsig => mem_append_left _ ((hpv.last b hb).2 sig hsig)⟩
  saved_le h b sig hh := hpv.saved_le h b sig (by simpa [record] using hh)
  order := by
    refine pairwise_append.mpr ⟨hpv.order, pairwise_singleton _ _, ?_⟩
    intro e he e' he' h b sig h' b' sig' _ hnew
    obtain rfl := mem_singleton.mp he'
    simp at hnew
  released := by
    obtain ⟨m, b, hm, hhrs, hb, hlast, hsig⟩ := hr
    refine hpv.released.concat ?_
    rintro r' ⟨⟩
    exact ⟨m, b, hm, hb, hhrs ▸ (hpv.last b hlast).2 _ hsig⟩

omit hpv in
/-- For one height, round and step there is one saved signature. -/
theorem saved_unique {trace : List SignerEvent} {b' sig' : Bytes}
    (horder : trace.Pairwise fun e e' => ∀ h b sig h' b' sig', e = .saved h b sig →
      e' = .created h' b' sig' ∨ e' = .saved h' b' sig' → h.Before h')
    (h : .saved hrs b sig ∈ trace) (h' : .saved hrs b' sig' ∈ trace) : b = b' ∧ sig = sig' := by
  by_contra hne
  have hdiffer : SignerEvent.saved hrs b sig ≠ .saved hrs b' sig' := by simpa using hne
  have hall := pairwise_iff_getElem.mp horder
  obtain ⟨i, hi, hei⟩ := getElem_of_mem h
  obtain ⟨j, hj, hej⟩ := getElem_of_mem h'
  rcases Nat.lt_trichotomy i j with hlt | rfl | hlt
  · exact HRS.Before.irrefl hrs (hall i j hi hj hlt _ _ _ _ _ _ hei (.inr hej))
  · exact hdiffer (hei.symm.trans hej)
  · exact HRS.Before.irrefl hrs (hall j i hj hi hlt _ _ _ _ _ _ hej (.inr hei))

end Consistent

variable {Made : Bytes → Bytes → Prop}

/-- What is left of a request: the last signature is handed out, or the history is consistent
without a release. -/
theorem finish_consistent {release : α → Release} {c : Program Halt FilePV α}
    (h : c.wp (fun a pv' => pv'.Consistent H Made ∧ pv'.Releasable H (release a))
      (fun halt pv' => halt.Leaves H Made pv') pv) :
    (finish release (c.exec pv)).Consistent H Made := by
  unfold wp at h
  split at h
  · rename_i a pv' hexec
    rw [hexec]
    exact h.1.release h.2
  · rename_i halt pv' hexec
    rw [hexec]
    cases halt with
    | failure failure => exact h
    | crash => exact h

/-- A request keeps the history consistent, if the message that is handed out with a new timestamp
is the last one. -/
theorem sign_consistent {attempt : Attempt} {height : Int64} {round : Int32} {step : Int8}
    {signBytes : Option Bytes} {check : Bytes → Bytes → Option (Time × Bool)}
    (release : Option Time × Bytes → Release) (hpv : pv.Consistent H Made)
    (hmade : ∀ b sig, attempt.privKeySign b = .ok sig → Made b sig)
    (hsignature : ∀ out, (release out).signature = out.2)
    (hmessage : ∀ b sig, signBytes = some b → ∃ m, (release (none, sig)).message H = some m ∧
      m.hrs = requestHRS height round step ∧ m.signBytes = some b)
    (hcheck : ∀ b last t m sig, signBytes = some b → check last b = some (t, true) →
      m.hrs = requestHRS height round step → m.signBytes = some last →
      (release (some t, sig)).message H = some m) :
    (sign attempt height round step signBytes check).wp
      (fun out pv' => pv'.Consistent H Made ∧ pv'.Releasable H (release out))
      (fun halt pv' => halt.Leaves H Made pv') pv := by
  have hsigned : ∀ sig b, signBytes = some b → attempt.privKeySign b = .ok sig →
      pv.lastSignState.hrs.Before (requestHRS height round step) →
      (pv.signed height round step b sig).Consistent H Made := by
    intro sig b hb hsign hbefore
    obtain ⟨m, -, hhrs, hbytes⟩ := hmessage b sig hb
    exact hpv.signed hbefore hbytes hhrs (hmade b sig hsign)
  refine wp_mono (sign_spec attempt height round step signBytes check pv) ?_ ?_
  · rintro ⟨stamp, sig⟩ pv' ⟨b, hb, ⟨rfl, hhrs, hsig, last, hlast, hout⟩ |
      ⟨hstamp, hbefore, hsign, rfl⟩⟩
    · refine ⟨hpv, ?_⟩
      rcases hout with ⟨hstamp, rfl⟩ | ⟨t, hstamp, hdiffer⟩
      · obtain ⟨m, hm, hmhrs, hmb⟩ := hmessage b sig hb
        obtain rfl : stamp = none := hstamp
        exact ⟨m, b, hm, hmhrs.trans hhrs.symm, hmb, hlast, hsig.trans (congrArg some
          (hsignature _).symm)⟩
      · obtain ⟨⟨m, hmb, hmhrs⟩, -⟩ := hpv.last last hlast
        obtain rfl : stamp = some t := hstamp
        have hm := hcheck b last t m sig hb hdiffer (hmhrs.trans hhrs) hmb
        exact ⟨m, last, hm, hmhrs, hmb, hlast, hsig.trans (congrArg some (hsignature _).symm)⟩
    · obtain ⟨m, hm, hmhrs, hmb⟩ := hmessage b sig hb
      obtain rfl : stamp = none := hstamp
      exact ⟨hsigned sig b hb hsign hbefore, m, b, hm, hmhrs, hmb, rfl,
        congrArg some (hsignature _).symm⟩
  · intro halt pv' hend
    cases halt with
    | failure failure =>
      obtain rfl : pv' = pv := hend
      exact hpv
    | crash =>
      obtain ⟨hbefore, b, sig, hb, hsign, heq | rfl⟩ := hend
      · rw [Halt.Leaves, heq]
        exact (hpv.created b sig hbefore).reload
      · exact (hsigned sig b hb hsign hbefore).reload

/-- The text around an error changes nothing. -/
theorem Halt.leaves_within {format : String} (halt : Halt) (h : halt.Leaves H Made pv) :
    (halt.within format).Leaves H Made pv := by
  cases halt with
  | failure failure => cases failure <;> exact h
  | crash => exact h

/-- Votes that differ in the timestamp only. -/
theorem checkVotes_eq_true {v w : CanonicalVote} (hv : v.signBytes = some b)
    (hw : w.signBytes = some last)
    (h : checkVotesOnlyDifferByTimestamp now last b = some (t, true)) :
    { v with timestamp := t } = w := by
  unfold checkVotesOnlyDifferByTimestamp at h
  rw [CanonicalVote.ofSignBytes_signBytes hv, CanonicalVote.ofSignBytes_signBytes hw] at h
  cases w
  simp_all

/-- Proposals that differ in the timestamp only. -/
theorem checkProposals_eq_true {p q : CanonicalProposal} (hp : p.signBytes = some b)
    (hq : q.signBytes = some last)
    (h : checkProposalsOnlyDifferByTimestamp now last b = some (t, true)) :
    { p with timestamp := t } = q := by
  unfold checkProposalsOnlyDifferByTimestamp at h
  rw [ofSignBytes_signBytes hp, ofSignBytes_signBytes hq] at h
  cases q
  simp_all

/-- A request for a vote keeps the history consistent. -/
theorem SignVote_consistent (vote : Vote) (hpv : pv.Consistent H Made)
    (hmade : ∀ b sig, attempt.privKeySign b = .ok sig → Made b sig) :
    (finish (.vote chainID) ((SignVote H attempt chainID vote).exec pv)).Consistent H Made := by
  apply finish_consistent
  rw [SignVote, wp_adapt, signVote]
  simp only [wp_bind, wp_orHalt, Check.orPanic_eq_ok]
  refine ⟨?_, fun failure _ => Halt.leaves_within (.failure failure) hpv⟩
  intro step hstep
  let release : Option Time × Bytes → Release := fun out =>
    .vote chainID { vote with timestamp := out.1.getD vote.timestamp, signature := out.2 }
  refine wp_mono (sign_consistent release hpv hmade (fun _ => rfl) ?_ ?_) (fun _ _ h => h)
    fun halt _ h => halt.leaves_within h
  · intro b sig hb
    obtain ⟨v, hv, hvb⟩ := bind_eq_some_iff.mp hb
    exact ⟨.vote v, congrArg (Option.map _) hv, hrs_canonicalizeVote H hv hstep, hvb⟩
  · intro b last t m sig hb hdiffer hhrs hm
    obtain ⟨v, hv, hvb⟩ := bind_eq_some_iff.mp hb
    cases m with
    | vote w =>
      rw [← checkVotes_eq_true hvb hm hdiffer]
      obtain ⟨id, hid, rfl⟩ := map_eq_some_iff.mp hv
      simp [release, Release.message, canonicalizeVote, hid]
    | proposal p =>
      rw [← hrs_canonicalizeVote H hv hstep] at hhrs
      exact absurd hhrs.symm (SignedMessage.hrs_vote_ne v p)

/-- A request for a proposal keeps the history consistent. -/
theorem SignProposal_consistent (proposal : Proposal) (hpv : pv.Consistent H Made)
    (hmade : ∀ b sig, attempt.privKeySign b = .ok sig → Made b sig) :
    (finish (.proposal chainID)
      ((SignProposal H attempt chainID proposal).exec pv)).Consistent H Made := by
  apply finish_consistent
  rw [SignProposal, wp_adapt, signProposal]
  simp only [wp_bind]
  let release : Option Time × Bytes → Release := fun out =>
    .proposal chainID { proposal with
      timestamp := out.1.getD proposal.timestamp, signature := out.2 }
  refine wp_mono (sign_consistent release hpv hmade (fun _ => rfl) ?_ ?_) (fun _ _ h => h)
    fun halt _ h => halt.leaves_within h
  · intro b sig hb
    obtain ⟨p, hp, hpb⟩ := bind_eq_some_iff.mp hb
    exact ⟨.proposal p, congrArg (Option.map _) hp, hrs_canonicalizeProposal H hp, hpb⟩
  · intro b last t m sig hb hdiffer hhrs hm
    obtain ⟨p, hp, hpb⟩ := bind_eq_some_iff.mp hb
    cases m with
    | vote v =>
      rw [← hrs_canonicalizeProposal H hp] at hhrs
      exact absurd hhrs (SignedMessage.hrs_vote_ne v p)
    | proposal q =>
      rw [← checkProposals_eq_true hpb hm hdiffer]
      obtain ⟨id, hid, rfl⟩ := map_eq_some_iff.mp hp
      simp [release, Release.message, canonicalizeProposal, hid]

/-- Every request keeps the history consistent. -/
theorem step_consistent (hpv : pv.Consistent H Made) {request : Request}
    (hmade : ∀ b sig, request.Makes b sig → Made b sig) :
    (step H pv request).Consistent H Made := by
  cases request with
  | signVote attempt chainID vote => exact SignVote_consistent attempt chainID vote hpv hmade
  | signProposal attempt chainID proposal =>
    exact SignProposal_consistent attempt chainID proposal hpv hmade
  | restart => exact hpv.reload

variable (H)

/-- The history of every run is consistent. -/
theorem run_consistent :
    (run H requests).Consistent H fun b sig => ∃ request ∈ requests, request.Makes b sig := by
  have hrun : ∀ (todo : List Request) (pv : FilePV), todo ⊆ requests →
      pv.Consistent H (fun b sig => ∃ request ∈ requests, request.Makes b sig) →
      (todo.foldl (step H) pv).Consistent H fun b sig =>
        ∃ request ∈ requests, request.Makes b sig := by
    intro todo
    induction todo with
    | nil => exact fun pv _ hpv => hpv
    | cons request rest ih =>
      intro pv hsubset hpv
      obtain ⟨hfirst, hrest⟩ := cons_subset.mp hsubset
      exact ih _ hrest (step_consistent hpv fun b sig h => ⟨request, hfirst, h⟩)
  refine hrun requests gen (fun _ h => h) ?_
  exact ⟨rfl, nofun, nofun, .nil, fun before r h => absurd (prefix_nil.mp h) (by simp)⟩

/-- In every run of requests and crashes, the signature of a message that is handed out was made by
`PrivKey.Sign` of its sign bytes and saved with them before. All that is handed out for one height,
round and step is one message with one signature. A new signature is for a later height, round and
step than every one saved before. -/
theorem released_once_per_hrs :
    (∀ before r, before ++ [.released r] <+: (run H requests).trace →
      ∃ m b, r.message H = some m ∧ m.signBytes = some b ∧ .saved m.hrs b r.signature ∈ before ∧
        (∃ request ∈ requests, request.Makes b r.signature) ∧
        ∀ r' m', .released r' ∈ (run H requests).trace → r'.message H = some m' →
          m'.hrs = m.hrs → m'.signBytes = some b ∧ m' = m ∧ r'.signature = r.signature) ∧
    (run H requests).trace.Pairwise fun e e' => ∀ h b sig h' b' sig', e = .saved h b sig →
      e' = .created h' b' sig' ∨ e' = .saved h' b' sig' → h.Before h' := by
  have hrun := run_consistent H requests
  refine ⟨?_, hrun.order⟩
  intro before r hr
  obtain ⟨m, b, hm, hb, hsaved⟩ := hrun.released before r hr
  have hmem := hr.subset (mem_append_left _ hsaved)
  refine ⟨m, b, hm, hb, hsaved, (hrun.saved_le _ _ _ hmem).2, ?_⟩
  intro r' m' hr' hm' hhrs
  obtain ⟨earlier, later, hsplit⟩ := append_of_mem hr'
  obtain ⟨m'', b', hm'', hb', hsaved'⟩ := hrun.released earlier r' ⟨later, by simp [hsplit]⟩
  cases hm'.symm.trans hm''
  have hmem' : .saved m'.hrs b' r'.signature ∈ (run H requests).trace := by
    rw [hsplit]
    exact mem_append_left _ hsaved'
  obtain ⟨rfl, hsig⟩ := Consistent.saved_unique hrun.order (hhrs ▸ hmem') hmem
  exact ⟨hb', SignedMessage.eq_of_signBytes hhrs hb' hb, hsig⟩

/-- The heights, rounds and steps for which `PrivKey.Sign` has been called. -/
def createdHRS (trace : List SignerEvent) : List HRS :=
  trace.filterMap fun event =>
    match event with
    | .created hrs _ _ => some hrs
    | _ => none

/-- A prevote for nil. -/
def samplePrevote : Vote :=
  ⟨prevoteType, 1, 0, ⟨[], ⟨0, []⟩⟩, .unix 0, [7], 0, []⟩

/-- A signature that is lost in a crash before it is saved is created once more. -/
theorem created_again_after_crash :
    createdHRS (run (HashFunction.polynomial 1)
      [.signVote ⟨.unix 0, .ok, some .beforeSave⟩ [] samplePrevote,
        .signVote ⟨.unix 0, .ok, none⟩ [] samplePrevote]).trace =
      [⟨1, 0, 2⟩, ⟨1, 0, 2⟩] ∧ ¬ HRS.Before ⟨1, 0, 2⟩ ⟨1, 0, 2⟩ := by
  decide +kernel

end FilePV

end NimbleChain.Tendermint
