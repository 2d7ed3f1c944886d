import NimbleChain.Tendermint.BlockHash
import NimbleChain.Tendermint.LightClient
import NimbleChain.Tendermint.VoteSetInvariant

/-!
# Backwards verification of the light client

`backwards` walks from a trusted header down to the height of a new one and checks at each step that
the header it has fetched is the last block of the one above. It never compares the header fetched
for the height of the new header with the new header itself.
-/

namespace NimbleChain.Tendermint.Light

open Common Program List Relation TransGen

variable {H : HashFunction}

/-! ### Hash chains -/

/-- A known header whose hash is the hash of the last block of a newer header. -/
def LastBlockOf (H : HashFunction) (known : Set Header) (newer older : Header) : Prop :=
  older ∈ known ∧ older.hash H = newer.lastBlockID.hash ∧ older.hash H ≠ []

/-- A header is linked to a newer one by last block hashes. -/
def OnChain (H : HashFunction) (known : Set Header) : Header → Header → Prop :=
  TransGen (LastBlockOf H known)

/-- No two different strings hashed for known headers collide. -/
def NoCollisions (H : HashFunction) (known : Set Header) : Prop :=
  ∀ a ∈ known, ∀ b ∈ known, H.CollisionFree (a.hashInputs H) (b.hashInputs H)

variable {known : Set Header} {b : Block} {h newer older trusted : Header} {c : Client} {s : Store}

theorem validatorsHash_ne_nil (hhash : h.hash H ≠ []) : h.validatorsHash ≠ [] := by
  intro hnil
  exact hhash (by rw [Header.hash, if_pos hnil])

theorem representable_of_hash (hhash : h.hash H ≠ []) : h.time.Representable := by
  by_contra htime
  refine hhash ?_
  have hleaves : h.hashLeaves = none := by simp [Header.hashLeaves, Time.marshal, htime]
  rw [Header.hash, hleaves, ite_self]

section Known

variable {known : Set Header} (hfree : NoCollisions H known)

include hfree

/-- Known headers with one hash have the same height and the same last block. -/
theorem eq_of_hash {a b : Header} (ha : a ∈ known) (hb : b ∈ known) (hhash : a.hash H = b.hash H)
    (hne : a.hash H ≠ []) : a.height = b.height ∧ a.lastBlockID = b.lastBlockID := by
  have hne' : b.hash H ≠ [] := hhash ▸ hne
  have heq := Header.eq_of_hash_eq (validatorsHash_ne_nil hne) (validatorsHash_ne_nil hne')
    (representable_of_hash hne) (representable_of_hash hne') (hfree a ha b hb) hhash
  rw [heq]
  exact ⟨rfl, rfl⟩

end Known

theorem OnChain.hash_ne_nil (h : OnChain H known newer older) : older.hash H ≠ [] := by
  obtain ⟨_, -, hlast⟩ := tail'_iff.mp h
  exact hlast.2.2

/-- What is on the chain of a header only depends on its last block. -/
theorem OnChain.congr_left {a b : Header} (hlast : a.lastBlockID = b.lastBlockID)
    (h : OnChain H known a older) : OnChain H known b older := by
  obtain ⟨x, hx, hrest⟩ := head'_iff.mp h
  refine head' ⟨hx.1, ?_, hx.2.2⟩ hrest
  rw [← hlast]
  exact hx.2.1

/-- A header with the hash of one on the chain is on the chain. -/
theorem OnChain.congr_right {a b : Header} (hb : b ∈ known) (hhash : a.hash H = b.hash H)
    (h : OnChain H known newer a) : OnChain H known newer b := by
  obtain ⟨x, hrest, hx⟩ := tail'_iff.mp h
  refine tail' hrest ⟨hb, ?_, ?_⟩
  · rw [← hhash]
    exact hx.2.1
  · rw [← hhash]
    exact hx.2.2

/-! ### The walk -/

theorem hash_of_verifyBackwards {untrusted : Header}
    (h : verifyBackwards H untrusted trusted = .ok ()) :
    untrusted.hash H = trusted.lastBlockID.hash := by
  simp only [verifyBackwards, Check.seq_eq_ok, Check.within_eq_ok, Check.failIf_eq_ok] at h
  exact not_not.mp h.2.2.2

/-- All blocks that a list of answers may contain are known. -/
def AnswersIn (known : Set Header) (answers : List Answer) : Prop :=
  ∀ answer ∈ answers, ∀ height block, answer height = .ok block → block.header ∈ known

/-- All blocks that the providers still return are known. -/
structure Client.AnswersIn (known : Set Header) (c : Client) : Prop where
  own : Light.AnswersIn known c.answers
  phases : ∀ phase ∈ c.phases, ∀ i, Light.AnswersIn known (phase.answers i)

/-- The trusted store is the same in two states. -/
def SameStore (c c' : Client) : Prop :=
  c'.trustedStore = c.trustedStore

/-- What the requests of a walk keep: the answers are known, and the store is that of the start. -/
structure Client.Walking (known : Set Header) (start c : Client) : Prop
    extends c.AnswersIn known where
  store : SameStore start c

section Providers

variable {known : Set Header} {start c : Client} {answers : List Answer}

theorem mem_of_ask (h : AnswersIn known answers) {height : Int64}
    {block : Block} (hblock : (ask answers height).1 = .ok block) : block.header ∈ known := by
  cases answers with
  | nil => cases hblock
  | cons answer rest => exact h answer mem_cons_self height block hblock

theorem answersIn_ask (h : AnswersIn known answers) (height : Int64) :
    AnswersIn known (ask answers height).2 := by
  cases answers with
  | nil => exact h
  | cons answer rest => exact fun a ha => h a (mem_cons_of_mem _ ha)

variable (hc : start.Walking known c)

include hc

theorem request_spec (height : Int64) :
    (request height).wp (fun response c' => start.Walking known c' ∧
      ∀ block, response = .ok block → block.header ∈ known) never c :=
  ⟨⟨⟨answersIn_ask hc.own height, hc.phases⟩, hc.store⟩, fun _ hblock => mem_of_ask hc.own hblock⟩

theorem nextPhase_spec :
    nextPhase.wp (fun phase c' => start.Walking known c' ∧ ∀ i, AnswersIn known (phase.answers i))
      never c := by
  rw [nextPhase, wp_bind, wp_get]
  cases hphases : c.phases with
  | nil => exact ⟨hc, fun _ answer h => absurd h (by simp)⟩
  | cons phase rest =>
    refine ⟨⟨⟨hc.own, fun p hp => hc.phases p ?_⟩, hc.store⟩, hc.phases phase ?_⟩
    · rw [hphases]
      exact mem_cons_of_mem _ hp
    · rw [hphases]
      exact mem_cons_self

theorem removeWitnesses_walking (indexes : List Nat) :
    (removeWitnesses indexes).Always (Client.Walking known start) c := by
  simp only [removeWitnesses, Program.Always, wp_bind, wp_get, wp_ite]
  refine ⟨fun _ => hc, fun _ => ?_⟩
  rw [wp_run]
  split
  · exact ⟨⟨hc.own, hc.phases⟩, hc.store⟩
  · exact hc

theorem processResponses_spec (remove : Bool) {responses : List (Nat × Response)}
    (hresponses : ∀ e ∈ responses, ∀ block, e.2 = .ok block → block.header ∈ known)
    (witnessesToRemove : List Nat) (lastError : GoError) :
    (processResponses remove responses witnessesToRemove lastError).wp
      (fun block c' => start.Walking known c' ∧ block.header ∈ known)
      (fun _ c' => start.Walking known c') c := by
  induction responses generalizing witnessesToRemove lastError with
  | nil =>
    rw [processResponses, wp_bind]
    refine wp_attempt.mpr (wp_mono (removeWitnesses_walking hc _)
      (fun _ _ h => h) fun e c' h => ?_)
    cases e.error? with
    | none => exact h
    | some error => exact h
  | cons e responses ih =>
    obtain ⟨index, response⟩ := e
    have hrest : ∀ e ∈ responses, ∀ block, e.2 = .ok block → block.header ∈ known :=
      fun e he => hresponses e (mem_cons_of_mem _ he)
    cases response with
    | error error =>
      rw [processResponses]
      split
      · exact ih hrest _ _
      · exact ih hrest _ _
    | ok block =>
      rw [processResponses, wp_bind, wp_get]
      generalize (if remove = true then c.witnesses else c.witnesses ++ [c.primary]) = witnesses
      rw [wp_bind, wp_run]
      cases witnesses[index]? with
      | none => exact hc
      | some primary =>
        have hc1 : Client.Walking known start
            { c with witnesses := witnesses, primary := primary } :=
          ⟨⟨hc.own, hc.phases⟩, hc.store⟩
        refine (wp_bind _ _).mpr ((wp_set _).mpr ((wp_bind _ _).mpr ?_))
        refine wp_imp (removeWitnesses_walking hc1 _) ?_
        exact fun _ c' h => ⟨h, hresponses (index, .ok block) mem_cons_self block rfl⟩

theorem findNewPrimary_spec (height : Int64) (remove : Bool) :
    (findNewPrimary height remove).wp
      (fun block c' => start.Walking known c' ∧ block.header ∈ known)
      (fun _ c' => start.Walking known c') c := by
  rw [findNewPrimary, wp_bind, wp_get, wp_ite]
  refine ⟨fun _ => hc, fun _ => ?_⟩
  refine wp_then (nextPhase_spec hc) ?_
  rintro phase c1 ⟨hc1, hphase⟩
  refine processResponses_spec hc1 remove ?_ [] errNoResponse
  rintro ⟨i, response⟩ hmem block rfl
  have hmem : Except.ok block ∈ Channel.ofSender i _ := Channel.mem_ofSender.mpr
    (mem_of_mem_take hmem)
  have hsent := (Channel.arrivals_inOrder _ _ i).subset hmem
  split at hsent
  · exact mem_of_ask (hphase i) (mem_singleton.mp hsent).symm
  · cases hsent

theorem lightBlockFromPrimary_spec (height : Int64) :
    (lightBlockFromPrimary height).wp
      (fun block c' => start.Walking known c' ∧ block.header ∈ known)
      (fun _ c' => start.Walking known c') c := by
  rw [lightBlockFromPrimary]
  refine wp_then (request_spec hc height) ?_
  rintro response c1 ⟨hc1, hblock⟩
  cases response with
  | ok block => exact ⟨hc1, hblock block rfl⟩
  | error error =>
    dsimp only
    split
    · exact hc1
    split
    · exact findNewPrimary_spec hc1 height false
    · exact findNewPrimary_spec hc1 height true

end Providers

/-- What the walk has verified: a path of known last blocks, all but the last above the height of
the new header. -/
structure Walked (H : HashFunction) (known : Set Header) (trusted newHeader : Header)
    (path : List Header) : Prop where
  linked : (trusted :: path).IsChain fun newer older => older.hash H = newer.lastBlockID.hash
  known : ∀ b ∈ path, b ∈ known
  above : ∀ b ∈ path.dropLast, newHeader.height < b.height
  nonempty : path ≠ [] ↔ newHeader.height < trusted.height

/-- The attempt of a call whose outcomes both keep an invariant. -/
theorem attempt_spec {α : Type} {program : ClientProgram α} {Q : α → Client → Prop}
    {I : Client → Prop} (h : program.wp Q (fun _ => I) c) :
    (attempt program).wp (fun result c' => match result with
      | .ok a => Q a c'
      | .error _ => I c') (fun _ _ => True) c := by
  refine wp_attempt.mpr (wp_mono h (fun _ _ h => h) fun e c' h => ?_)
  cases e.error? with
  | none => trivial
  | some error => exact h

section Walk

variable {known : Set Header} (hfree : NoCollisions H known)

include hfree

theorem backwardsPath_spec {newHeader : Header} (hknown : newHeader ∈ known) (n : Nat)
    (verified : Header) {start c : Client} (hc : start.Walking known c) :
    (backwardsPath H n verified newHeader).wp
      (fun path c' => SameStore start c' ∧
        (newHeader.hash H ≠ [] → Walked H known verified newHeader path)) (fun _ _ => True) c := by
  induction n generalizing verified newHeader c with
  | zero => trivial
  | succ n ih =>
    rw [backwardsPath]
    split
    case isFalse hlow =>
      exact ⟨hc.store, fun _ => ⟨.singleton _, by simp, by simp, by simpa using hlow⟩⟩
    rename_i habove
    refine wp_then (attempt_spec (lightBlockFromPrimary_spec hc _)) ?_
    rintro (error | interim) c1 hresult
    · trivial
    obtain ⟨hc1, hinterim⟩ := hresult
    dsimp only
    split
    · rename_i hverified
      have hlink := hash_of_verifyBackwards hverified
      refine wp_then (ih hknown interim.header hc1) ?_
      rintro path c2 ⟨hstore, hwalked⟩
      refine ⟨hstore, fun hne => ?_⟩
      have hwalked := hwalked hne
      refine ⟨hwalked.linked.cons_cons hlink, ?_, ?_, by simpa using habove⟩
      · rintro b hb
        rcases mem_cons.mp hb with rfl | hb
        · exact hinterim
        · exact hwalked.known b hb
      · intro b hb
        cases path with
        | nil => exact absurd hb (by simp)
        | cons p path =>
          rcases mem_cons.mp hb with rfl | hb
          · -- the walk goes on below this header
            exact hwalked.nonempty.mp (cons_ne_nil _ _)
          · exact hwalked.above b hb
    · trivial
    · refine wp_then (attempt_spec (findNewPrimary_spec hc1 _ _)) ?_
      rintro (error | block) c2 hresult
      · trivial
      obtain ⟨hc2, hblock⟩ := hresult
      dsimp only
      split
      · trivial
      · rename_i hsame
        have hsame : block.header.hash H = newHeader.hash H := not_not.mp hsame
        refine wp_imp (ih hblock verified hc2) ?_
        rintro path c3 ⟨hstore, hwalked⟩
        refine ⟨hstore, fun hne => ?_⟩
        have hne' : block.header.hash H ≠ [] := hsame ▸ hne
        have hheight := (eq_of_hash hfree hblock hknown hsame hne').1
        have hwalked := hwalked hne'
        exact ⟨hwalked.linked, hwalked.known, hheight ▸ hwalked.above, hheight ▸ hwalked.nonempty⟩

/-- If the new header is on the chain of the trusted one, the walk meets it or ends above it. -/
theorem Walked.of_onChain {trusted newHeader : Header} {path : List Header}
    (hwalked : Walked H known trusted newHeader path)
    (hchain : OnChain H known trusted newHeader) :
    ∀ last ∈ path.getLast?, (∀ b ∈ path, b.hash H ≠ []) ∧
      (last.hash H = newHeader.hash H ∨ OnChain H known last newHeader) := by
  obtain ⟨hlinked, hknown, habove, -⟩ := hwalked
  induction path generalizing trusted with
  | nil => simp
  | cons b path ih =>
    intro last hlast
    have hb := hknown b mem_cons_self
    obtain ⟨hlink, hrest⟩ := isChain_cons_cons.mp hlinked
    obtain ⟨x, hx, hxnew⟩ := head'_iff.mp hchain
    -- the first header of the chain is the first one of the walk
    have hsame : b.hash H = x.hash H := hlink.trans hx.2.1.symm
    have hne : b.hash H ≠ [] := hsame ▸ hx.2.2
    obtain ⟨hheight, hlastBlock⟩ := eq_of_hash hfree hb hx.1 hsame hne
    rcases reflTransGen_iff_eq_or_transGen.mp hxnew with rfl | hxnew
    · cases path with
      | nil =>
        obtain rfl : b = last := by simpa using hlast
        exact ⟨by simpa using hne, .inl hsame⟩
      | cons b' path =>
        have habove := habove b (by simp)
        exact (Int64.lt_irrefl (hheight ▸ habove)).elim
    have hbnew : OnChain H known b newHeader := OnChain.congr_left hlastBlock.symm hxnew
    cases path with
    | nil =>
      obtain rfl : b = last := by simpa using hlast
      exact ⟨by simpa using hne, .inr hbnew⟩
    | cons b' path =>
      obtain ⟨hhashes, hend⟩ := ih hbnew hrest (fun b hb => hknown b (mem_cons_of_mem _ hb))
        (fun b hb => habove b (mem_cons_of_mem _ hb)) last hlast
      exact ⟨forall_mem_cons.mpr ⟨hne, hhashes⟩, hend⟩

end Walk

/-- A walk through proper hashes is a chain. -/
theorem Walked.onChain {newHeader : Header} {path : List Header}
    (hwalked : Walked H known trusted newHeader path) (hhashes : ∀ b ∈ path, b.hash H ≠ [])
    {last : Header} (hlast : last ∈ path.getLast?) : OnChain H known trusted last := by
  obtain ⟨hlinked, hknown, -, -⟩ := hwalked
  induction path generalizing trusted with
  | nil => cases hlast
  | cons b path ih =>
    obtain ⟨hlink, hrest⟩ := isChain_cons_cons.mp hlinked
    have hstep : LastBlockOf H known trusted b :=
      ⟨hknown b mem_cons_self, hlink, hhashes b mem_cons_self⟩
    cases path with
    | nil =>
      obtain rfl : b = last := by simpa using hlast
      exact .single hstep
    | cons b' path =>
      exact .head hstep (ih (fun b hb => hhashes b (mem_cons_of_mem _ hb)) hlast hrest
        fun b hb => hknown b (mem_cons_of_mem _ hb))

/-! ### The store -/

theorem mem_prune {size : UInt16} (h : b ∈ (s.prune size).blocks) : b ∈ s.blocks := by
  unfold Store.prune at h
  split at h
  · exact h
  · exact mem_of_mem_drop h

/-- What is stored after an update was stored before or is the new block. -/
theorem mem_of_updateTrustedLightBlock {O : Options} {l : Block} {c' : Client}
    (h : (updateTrustedLightBlock O l).exec c = (.ok (), c')) (hb : b ∈ c'.trustedStore.blocks) :
    b = l ∨ b ∈ c.trustedStore.blocks := by
  unfold updateTrustedLightBlock at h
  split at h
  · cases h
  split at h
  · cases h
  · obtain rfl := congrArg Prod.snd h
    split at hb
    · exact mem_insertBlock (mem_prune hb)
    · exact mem_insertBlock hb

/-! ### Soundness -/

/-- The walk of `backwards` ends at the new header: no verified header has the empty hash, and the
last one has the hash of the new header. If a header not lower than the new one still has it on its
chain, the walk ends above. -/
def WalkEndsAt (H : HashFunction) (O : Options) (known : Set Header) (c : Client)
    (trusted newHeader : Header) : Prop :=
  ∃ path c' last, (backwardsPath H O.steps trusted newHeader).exec c = (.ok path, c') ∧
    (∀ b ∈ path, b.hash H ≠ []) ∧ path.getLast? = some last ∧
    (last.hash H = newHeader.hash H ∨ OnChain H known last newHeader)

section Soundness

variable {O : Options} {known : Set Header} (hfree : NoCollisions H known) {c : Client}
  (hc : c.AnswersIn known) {newHeader : Header} (hnew : newHeader ∈ known)

include hfree hc hnew

theorem backwards_onChain_iff {trusted : Header} {c' : Client}
    (hlower : newHeader.height < trusted.height)
    (hreturns : (backwards H O trusted newHeader).exec c = (.ok (), c')) :
    OnChain H known trusted newHeader ↔ WalkEndsAt H O known c trusted newHeader := by
  obtain ⟨path, c1, hpath, -⟩ := exec_bind_eq_ok.mp hreturns
  by_cases hne : newHeader.hash H = []
  · refine ⟨fun h => absurd hne h.hash_ne_nil, ?_⟩
    rintro ⟨path', c2, last, hpath', hhashes, hlast, hend | hend⟩
    · exact absurd (hend.trans hne) (hhashes last (mem_of_getLast? hlast))
    · exact absurd hne hend.hash_ne_nil
  have hspec := wp_of_exec_ok hpath (backwardsPath_spec hfree hnew O.steps trusted ⟨hc, rfl⟩)
  have hwalked := hspec.2 hne
  constructor
  · intro hchain
    obtain ⟨last, hlast⟩ := Option.ne_none_iff_exists'.mp
      (mt getLast?_eq_none_iff.mp (hwalked.nonempty.mpr hlower))
    obtain ⟨hhashes, hend⟩ := hwalked.of_onChain hfree hchain last hlast
    exact ⟨path, c1, last, hpath, hhashes, hlast, hend⟩
  · rintro ⟨path', c2, last, hpath', hhashes, hlast, hend⟩
    obtain ⟨rfl, rfl⟩ : path = path' ∧ c1 = c2 := by
      have heq := hpath.symm.trans hpath'
      simpa using heq
    have hchain := hwalked.onChain hhashes hlast
    rcases hend with hend | hend
    · exact hchain.congr_right hnew hend
    · exact trans hchain hend

end Soundness

/-- The first stored block is found under its height. -/
theorem lightBlock_first {first : Block} (hfirst : s.blocks.head? = some first)
    (h : s.lightBlock s.firstLightBlockHeight = .ok b) : b = first := by
  have hheight : s.firstLightBlockHeight = first.height := by
    rw [Store.firstLightBlockHeight, hfirst]
    rfl
  have hfind : s.blocks.find? (·.height = first.height) = some first := by
    cases hblocks : s.blocks with
    | nil => rw [hblocks] at hfirst; cases hfirst
    | cons x xs =>
      rw [hblocks] at hfirst
      cases hfirst
      exact find?_cons_of_pos (decide_eq_true rfl)
  rw [hheight, Store.lightBlock, hfind] at h
  split at h
  · cases h
  · exact (Except.ok.inj h).symm

/-- Backwards verification is sound exactly if the walk ends at the new header: the header fetched
for its height is the new one. The same holds of the block that `verifyLightBlock` stores after a
backwards verification from the first trusted block. -/
theorem backwards_sound_iff_walk_ends (H : HashFunction) (C : Crypto) (O : Options) (now : Time)
    {known : Set Header} (hfree : NoCollisions H known) {c : Client} (hc : c.AnswersIn known)
    {newBlock : Block} (hnew : newBlock.header ∈ known) :
    (∀ trusted c', newBlock.height < trusted.height →
      (backwards H O trusted newBlock.header).exec c = (.ok (), c') →
      (OnChain H known trusted newBlock.header ↔
        WalkEndsAt H O known c trusted newBlock.header)) ∧
    ∀ first latest c', c.trustedStore.blocks.head? = some first →
      c.latestTrustedBlock = some latest → newBlock.height < first.height →
      newBlock.height < latest.height →
      (verifyLightBlock H C O now newBlock).exec c = (.ok (), c') →
      (∀ b ∈ c'.trustedStore.blocks, b = newBlock ∨ b ∈ c.trustedStore.blocks) ∧
      (OnChain H known first.header newBlock.header ↔
        WalkEndsAt H O known c first.header newBlock.header) := by
  refine ⟨fun trusted c' hlower hreturns => backwards_onChain_iff hfree hc hnew hlower hreturns, ?_⟩
  intro first latest c' hfirst hlatest hlower hlow hreturns
  obtain ⟨_, c1, hverified, hupdated⟩ := exec_bind_eq_ok.mp hreturns
  obtain ⟨_, _, hget, hverified⟩ := exec_bind_eq_ok.mp hverified
  cases hget
  obtain ⟨_, _, hlatest', hverified⟩ := exec_bind_eq_ok.mp hverified
  rw [hlatest] at hlatest'
  cases hlatest'
  have hheight : newBlock.height < c.trustedStore.firstLightBlockHeight := by
    rw [Store.firstLightBlockHeight, hfirst]
    exact hlower
  rw [if_neg (Int64.not_le.mpr hlow), if_pos hheight] at hverified
  obtain ⟨firstBlock, c0, hload, hbackwards⟩ := exec_bind_eq_ok.mp hverified
  cases hblock : c.trustedStore.lightBlock c.trustedStore.firstLightBlockHeight with
  | error e =>
    rw [hblock] at hload
    cases hload
  | ok b =>
    rw [hblock] at hload
    cases hload
    obtain rfl := lightBlock_first hfirst hblock
    refine ⟨?_, backwards_onChain_iff hfree hc hnew hlower hbackwards⟩
    have hsame : c1.trustedStore = c.trustedStore := by
      obtain ⟨path, c2, hpath, hreturn⟩ := exec_bind_eq_ok.mp hbackwards
      cases hreturn
      exact (wp_of_exec_ok hpath
        (backwardsPath_spec hfree hnew O.steps firstBlock.header ⟨hc, rfl⟩)).1
    rw [← hsame]
    exact fun b hb => mem_of_updateTrustedLightBlock hupdated hb

section Sample

/-- A header of the sample chain: its height, the hash of the last block and the app hash. -/
def chainHeader (height : Int64) (lastBlockHash : Bytes) (app : UInt8) : Header :=
  { promptBlock.header with
    height := height
    time := .unix (1700000000 + height)
    lastBlockID := ⟨lastBlockHash, ⟨1, replicate 32 8⟩⟩
    validatorsHash := (sampleValidators.hash sampleHash).getD []
    nextValidatorsHash := (sampleValidators.hash sampleHash).getD []
    appHash := [app] }

/-- A light block of the sample chain with signatures of these validators. -/
def chainBlock (header : Header) (signers : List UInt8) : Block where
  header := header
  commit := some
    { height := header.height
      round := 0
      blockID := ⟨header.hash sampleHash, ⟨1, replicate 32 8⟩⟩
      signatures := signers.map fun byte =>
        ⟨blockIDFlagCommit, replicate 20 byte, header.time, [byte]⟩ }
  validatorSet := { sampleValidators with proposer := some (sampleValidator 1) }

/-- The header of the chain at height 1. -/
def genuineHeader : Header := chainHeader 1 (replicate 32 7) 5

/-- Another header at height 1. -/
def forgedHeader : Header := chainHeader 1 (replicate 32 7) 6

/-- The trusted header at height 2. -/
def trustedHeader : Header := chainHeader 2 (genuineHeader.hash sampleHash) 5

/-- The light block with the genuine header. -/
def genuineBlock : Block := chainBlock genuineHeader [1]

/-- The light block with the other header. -/
def forgedBlock : Block := chainBlock forgedHeader [1]

/-- The light block with the trusted header. -/
def trustedBlock : Block := chainBlock trustedHeader [1, 2, 3, 4]

/-- A client that trusts one block and whose primary gives these answers. -/
def sampleClient (answers : List Block) : Client where
  primary := 0
  witnesses := [1]
  trustedStore := ⟨[trustedBlock], 1, pairwise_singleton _ _⟩
  latestTrustedBlock := some trustedBlock
  answers := answers.map fun block _ => .ok block
  phases := []

/-- The options of the sample client. -/
def sampleOptions : Options := ⟨1000000000, .skipping, ⟨1, 3⟩, 0, 0, 3⟩

/-- The headers of the sample at height 1. -/
def sampleKnown : Set Header := {h | h ∈ [genuineHeader, forgedHeader]}

theorem sampleKnown_noCollisions : NoCollisions sampleHash sampleKnown := by
  have hfree : ∀ a ∈ [genuineHeader, forgedHeader], ∀ b ∈ [genuineHeader, forgedHeader],
      sampleHash.CollisionFree (a.hashInputs sampleHash) (b.hashInputs sampleHash) := by
    decide +kernel
  exact hfree

theorem sampleClient_answersIn {answers : List Block}
    (h : ∀ b ∈ answers, b.header ∈ sampleKnown) : (sampleClient answers).AnswersIn sampleKnown := by
  refine ⟨?_, fun phase hphase => absurd hphase (by simp [sampleClient])⟩
  intro answer hanswer height block hblock
  obtain ⟨b, hb, rfl⟩ := mem_map.mp hanswer
  obtain rfl := Except.ok.inj hblock
  exact h b hb

/-- The primary answers the first request for height 1 with a header that is not the last block of
the trusted one, and the second with the header that is. The first one is stored. -/
theorem forgedHeader_stored :
    let result := (verifyLightBlockAtHeight sampleHash sampleCrypto sampleOptions
      trustedHeader.time 1).exec (sampleClient [forgedBlock, genuineBlock])
    LightBlock.validateBasic sampleHash
      ⟨some forgedBlock.signedHeader, some forgedBlock.validatorSet⟩ forgedHeader.chainID =
      .ok () ∧
    result.1 = .ok forgedBlock ∧
    result.2.trustedStore.blocks = [forgedBlock, trustedBlock] ∧
    NoCollisions sampleHash sampleKnown ∧
    ¬ OnChain sampleHash sampleKnown trustedHeader forgedHeader := by
  refine ⟨by decide +kernel, by decide +kernel, by decide +kernel, sampleKnown_noCollisions, ?_⟩
  intro hchain
  obtain ⟨x, hx, hlast⟩ := tail'_iff.mp hchain
  have hcases : x = trustedHeader ∨ x ∈ [genuineHeader, forgedHeader] := by
    rcases reflTransGen_iff_eq_or_transGen.mp hx with rfl | hx
    · exact .inl rfl
    · obtain ⟨_, -, hx⟩ := tail'_iff.mp hx
      exact .inr hx.1
  have hne : ∀ x ∈ [trustedHeader, genuineHeader, forgedHeader],
      forgedHeader.hash sampleHash ≠ x.lastBlockID.hash := by
    decide +kernel
  exact hne x (mem_cons.mpr hcases) hlast.2.1

/-- A primary that answers both requests with the header of the chain. -/
theorem backwards_sound_iff_walk_ends_sample :
    OnChain sampleHash sampleKnown trustedHeader genuineHeader := by
  have hknown : genuineBlock.header ∈ sampleKnown := mem_cons_self
  have hc : (sampleClient [genuineBlock]).AnswersIn sampleKnown :=
    sampleClient_answersIn fun b hb => mem_singleton.mp hb ▸ hknown
  have hverified : ((verifyLightBlock sampleHash sampleCrypto sampleOptions trustedHeader.time
      genuineBlock).exec (sampleClient [genuineBlock])).1.toOption = some () := by
    decide +kernel
  have hwalk : ((backwardsPath sampleHash sampleOptions.steps trustedHeader genuineHeader).exec
      (sampleClient [genuineBlock])).1.toOption = some [genuineHeader] := by
    decide +kernel
  refine ((backwards_sound_iff_walk_ends sampleHash sampleCrypto sampleOptions trustedHeader.time
    sampleKnown_noCollisions hc hknown).2 trustedBlock trustedBlock _ rfl rfl (by decide +kernel)
    (by decide +kernel) (exec_eq_of_toOption hverified)).2.mpr ?_
  exact ⟨_, _, genuineHeader, exec_eq_of_toOption hwalk, by decide +kernel, rfl, .inl rfl⟩

end Sample

end NimbleChain.Tendermint.Light
