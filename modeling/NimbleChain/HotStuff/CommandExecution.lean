import NimbleChain.HotStuff.ChainAccess
import NimbleChain.HotStuff.StoredTree
import NimbleChain.Common.Execution
import NimbleChain.Common.Wire

/-!
# Executing client commands once

A replica collects the commands of its clients in `cmdCache`, proposes them in batches and executes
the batches of committed blocks (`cmdcache.go`, `clientsrv.go` and the parts of `consensus.go` that
call them). A command is named by its client and a sequence number. `serialNumbers` holds, per
client, the highest number among the blocks that a proposal was built on, and `Accept` rejects a
batch with a number that is not higher. It sees neither the other commands of the same batch nor the
ancestors that were never the certified block of a proposal.
-/

namespace NimbleChain.HotStuff.Commands

open Common List Option

variable {Sig : Type}

/-- `clientpb.Command`. -/
structure ClientCommand where
  clientID : UInt32
  sequenceNumber : UInt64
  data : Bytes
  deriving DecidableEq

/-- `clientpb.Batch`. -/
abbrev Batch := List ClientCommand

/-- `cmdID`. -/
abbrev CmdID := UInt32 × UInt64

def ClientCommand.id (cmd : ClientCommand) : CmdID :=
  (cmd.clientID, cmd.sequenceNumber)

/-- The encoding of batches as the commands of blocks. The empty string is the empty batch. -/
structure Codec where
  marshal : Batch → Command
  unmarshal : Command → Option Batch
  unmarshal_marshal : ∀ batch, unmarshal (marshal batch) = some batch
  unmarshal_nil : unmarshal [] = some []

variable (codec : Codec) (batchSize : Nat)

/-- The commands of a block; there are none in a command that is not an encoding. -/
def Codec.batch (block : Block Sig) : Batch :=
  (codec.unmarshal block.cmd).getD []

/-! ## The command cache -/

/-- `cmdCache`. -/
structure CmdCache where
  batchSize : Nat
  /-- The highest proposed serial number per client ID; a client without an entry has 0. -/
  serialNumbers : UInt32 → UInt64
  cache : List ClientCommand

namespace CmdCache

/-- `newCmdCache`. -/
def new : CmdCache where
  batchSize := batchSize
  serialNumbers _ := 0
  cache := []

variable (c : CmdCache) (cmd : ClientCommand)

/-- The command has been proposed, or one of its client with a higher number. -/
def tooOld : Bool :=
  cmd.sequenceNumber ≤ c.serialNumbers cmd.clientID

/-- `addCommand`. -/
def addCommand : CmdCache :=
  if c.tooOld cmd then c else { c with cache := c.cache ++ [cmd] }

/-- The loop of `Get` for `n` commands: the batch and what is left of the cache. -/
def takeBatch : Nat → List ClientCommand → Batch × List ClientCommand
  | 0, rest => ([], rest)
  | _ + 1, [] => ([], [])
  | n + 1, cmd :: rest =>
    if c.tooOld cmd then takeBatch (n + 1) rest
    else
      let taken := takeBatch n rest
      (cmd :: taken.1, taken.2)

/-- `Get`: a batch of commands to propose, or nothing if the context is done while it waits for more
commands than the batch size. With batch size 0 it does not return once there are commands. -/
def get : Option (CmdCache × Option Command) :=
  if c.cache.length ≤ c.batchSize then some (c, none)
  else
    let taken := c.takeBatch c.batchSize c.cache
    let left := { c with cache := taken.2 }
    if taken.1 = [] then
      -- nothing was new: `Get` waits again
      if taken.2.length ≤ c.batchSize then some (left, none) else none
    else some (left, some (codec.marshal taken.1))

/-- `Accept` returns true if the replica can accept the batch. -/
def accept (cmd : Command) : Bool :=
  match codec.unmarshal cmd with
  | none => false
  | some batch => batch.all fun cmd => !c.tooOld cmd

/-- One turn of the loop of `Proposed`. -/
def record : CmdCache :=
  if c.serialNumbers cmd.clientID < cmd.sequenceNumber then
    { c with serialNumbers := Function.update c.serialNumbers cmd.clientID cmd.sequenceNumber }
  else c

/-- `Proposed` updates the serial numbers such that the batch is not accepted again. -/
def proposed (cmd : Command) : CmdCache :=
  match codec.unmarshal cmd with
  | none => c
  | some batch => batch.foldl record c

end CmdCache

/-! ## The replica -/

/-- The parts of a replica that handle commands. The last two fields are for reasoning only. -/
structure State (Sig : Type) where
  -- `clientSrv`
  cmdCache : CmdCache
  awaitingCmds : List CmdID
  /-- The answers to clients: `true` for an executed command, `false` for one that was forked. -/
  answers : List (CmdID × Bool)
  /-- What was written to the hash. -/
  written : Bytes
  cmdCount : UInt32
  -- `consensusBase` and `blockChain`
  chain : BlockChain Sig
  bExec : Block Sig
  /-- The blocks that `OnPropose` accepted, and the genesis block. -/
  accepted : List (Block Sig)
  /-- The commands executed so far. -/
  executed : List CmdID

/-- What happens at a replica. A block that `Get` fetches from a peer is stored. -/
inductive Action (Sig : Type) where
  | execCommand (cmd : ClientCommand)
  | propose (qc : Option (QuorumCert Sig)) (view : View) (id : ID)
  | onPropose (block : Block Sig)
  | fetch (block : Block Sig)
  | commit (block : Block Sig)
  | fork (block : Block Sig)

namespace State

/-- A new replica. -/
def new : State Sig where
  cmdCache := .new batchSize
  awaitingCmds := []
  answers := []
  written := []
  cmdCount := 0
  chain := .new
  bExec := genesis
  accepted := [genesis]
  executed := []

variable (S : Primitives Sig) (codec : Codec) (s : State Sig) (block : Block Sig)

/-- Answer the client that waits for the command, if there is one. -/
def answer (id : CmdID) (ok : Bool) : State Sig :=
  if id ∈ s.awaitingCmds then
    { s with
      awaitingCmds := s.awaitingCmds.filter (· ≠ id)
      answers := s.answers ++ [(id, ok)] }
  else s

/-- `ExecCommand`, up to the wait for the answer. -/
def execCommand (cmd : ClientCommand) : State Sig :=
  { s with
    awaitingCmds := cmd.id :: s.awaitingCmds
    cmdCache := s.cmdCache.addCommand cmd }

/-- One turn of the loop of `Exec`. -/
def execOne (cmd : ClientCommand) : State Sig :=
  State.answer
    { s with
      written := s.written ++ cmd.data
      cmdCount := s.cmdCount + 1
      executed := s.executed ++ [cmd.id] } cmd.id true

/-- `Exec` of a block, which becomes the committed block. -/
def exec : State Sig :=
  { (codec.batch block).foldl execOne s with bExec := block }

/-- `Fork` of a block. -/
def fork : State Sig :=
  (codec.batch block).foldl (fun s cmd => s.answer cmd.id false) s

/-- `Proposed` of the block with the hash, if it is found. -/
def proposed (hash : Hash) : State Sig :=
  match s.chain.localGet S hash with
  | none => s
  | some block => { s with cmdCache := s.cmdCache.proposed codec block.cmd }

/-- The start of `Propose`: the block of the certificate is proposed. -/
def tellAcceptor (qc : Option (QuorumCert Sig)) : State Sig :=
  match qc with
  | none => s
  | some qc => s.proposed S codec qc.hash

/-- `Propose`, up to the call of `OnPropose` for the new block. -/
def propose (qc : Option (QuorumCert Sig)) (view : View) (id : ID) :
    Option (State Sig) :=
  let told := s.tellAcceptor S codec qc
  (told.cmdCache.get codec).map fun taken =>
    let cert := qc.getD { signature := none, view := 0, hash := Hash.zero }
    let block : Block Sig :=
      { parent := cert.hash, proposer := id, cmd := taken.2.getD [], cert := cert, view := view }
    { told with cmdCache := taken.1, chain := told.chain.store block }

/-- `OnPropose` from the point where the vote rule has agreed, up to the commit. -/
def onPropose : State Sig :=
  let told := s.proposed S codec block.cert.hash
  if told.cmdCache.accept codec block.cmd then
    { told with chain := told.chain.store block, accepted := block :: told.accepted }
  else told

/-- The blocks that `commitInner` executes. -/
def commitInner : Option (Option (List (Block Sig))) :=
  s.chain.unexecuted S s.bExec (s.chain.blocks.length + 1) block

/-- `commit`, without the pruning. -/
def commit : Option (State Sig) :=
  (s.commitInner S block).map fun blocks =>
    (blocks.getD []).foldl (exec codec) s

end State

open State

/-- A replica; an action that does not return has no successor. -/
def machine (S : Primitives Sig) (codec : Codec) (batchSize : Nat) :
    Machine (State Sig) (Action Sig) where
  init := .new batchSize
  step s
    | .execCommand cmd => some (s.execCommand cmd)
    | .propose qc view id => s.propose S codec qc view id
    | .onPropose block => some (s.onPropose S codec block)
    | .fetch block => some { s with chain := s.chain.store block }
    | .commit block => s.commit S codec block
    | .fork block => some (s.fork codec block)

/-! ## The serial numbers -/

variable {S : Primitives Sig} {codec : Codec}

/-- The commands of a block are too old to be accepted again. -/
def Recorded (codec : Codec) (c : CmdCache) (block : Block Sig) : Prop :=
  ∀ cmd ∈ codec.batch block, c.tooOld cmd = true

/-- The serial numbers never fall. -/
def Rises (c c' : CmdCache) : Prop :=
  ∀ client, c.serialNumbers client ≤ c'.serialNumbers client

theorem Rises.refl (c : CmdCache) : Rises c c :=
  fun _ => UInt64.le_refl _

variable {b : Block Sig} {c c' : CmdCache} {s' s : State Sig} {cmd : ClientCommand}
  {blocks : List (Block Sig)}

theorem Rises.trans {c'' : CmdCache} (h : Rises c c') (h' : Rises c' c'') : Rises c c'' :=
  fun client => UInt64.le_trans (h client) (h' client)

theorem Rises.tooOld (h : Rises c c') (hold : c.tooOld cmd = true) : c'.tooOld cmd = true :=
  decide_eq_true (UInt64.le_trans (of_decide_eq_true hold) (h cmd.clientID))

theorem serialNumbers_record (c : CmdCache) (cmd : ClientCommand) (client : UInt32) :
    (c.record cmd).serialNumbers client =
      if client = cmd.clientID ∧ c.serialNumbers cmd.clientID < cmd.sequenceNumber then
        cmd.sequenceNumber
      else c.serialNumbers client := by
  unfold CmdCache.record
  split <;> simp [Function.update_apply, *]

theorem rises_record (c : CmdCache) (cmd : ClientCommand) : Rises c (c.record cmd) := by
  intro client
  rw [serialNumbers_record]
  split
  · rename_i h
    rw [h.1]
    exact UInt64.le_of_lt h.2
  · exact UInt64.le_refl _

theorem tooOld_record (c : CmdCache) (cmd : ClientCommand) : (c.record cmd).tooOld cmd = true := by
  rw [CmdCache.tooOld, serialNumbers_record]
  split
  · exact decide_eq_true (UInt64.le_refl _)
  · rename_i h
    exact decide_eq_true (UInt64.not_lt.mp fun hlt => h ⟨rfl, hlt⟩)

theorem rises_foldl_record (batch : Batch) (c : CmdCache) :
    Rises c (batch.foldl CmdCache.record c) := by
  induction batch generalizing c with
  | nil => exact Rises.refl c
  | cons cmd rest ih => exact (rises_record c cmd).trans (ih (c.record cmd))

theorem tooOld_foldl_record {batch : Batch} (hcmd : cmd ∈ batch) (c : CmdCache) :
    (batch.foldl CmdCache.record c).tooOld cmd = true := by
  induction batch generalizing c with
  | nil => cases hcmd
  | cons first rest ih =>
    rcases mem_cons.mp hcmd with rfl | hrest
    · exact (rises_foldl_record rest _).tooOld (tooOld_record c cmd)
    · exact ih hrest (c.record first)

theorem rises_proposed (c : CmdCache) (cmd : Command) : Rises c (c.proposed codec cmd) := by
  unfold CmdCache.proposed
  split
  · exact Rises.refl c
  · exact rises_foldl_record _ c

theorem exists_of_mem_batch (hcmd : cmd ∈ codec.batch b) :
    ∃ batch, codec.unmarshal b.cmd = some batch ∧ cmd ∈ batch := by
  unfold Codec.batch at hcmd
  cases hbatch : codec.unmarshal b.cmd with
  | none =>
    rw [hbatch] at hcmd
    cases hcmd
  | some batch => exact ⟨batch, rfl, by rwa [hbatch] at hcmd⟩

/-- `Proposed` records the commands of the block. -/
theorem recorded_proposed (c : CmdCache) (block : Block Sig) :
    Recorded codec (c.proposed codec block.cmd) block := by
  intro cmd hcmd
  obtain ⟨batch, hbatch, hcmd⟩ := exists_of_mem_batch hcmd
  rw [CmdCache.proposed, hbatch]
  exact tooOld_foldl_record hcmd c

/-- The blocks have no command in common. -/
def Separate (codec : Codec) (a b : Block Sig) : Prop :=
  ∀ cmd ∈ codec.batch a, ∀ cmd' ∈ codec.batch b, cmd.id ≠ cmd'.id

/-- `Accept` accepts no command of a recorded block. -/
theorem separate_of_accept {a : Block Sig} (ha : Recorded codec c a)
    (hb : c.accept codec b.cmd = true) : Separate codec a b := by
  intro cmd hcmd cmd' hcmd' heq
  have hold := ha cmd hcmd
  obtain ⟨batch, hbatch, hcmd'⟩ := exists_of_mem_batch hcmd'
  rw [CmdCache.accept, hbatch] at hb
  have hnew := all_eq_true.mp hb cmd' hcmd'
  obtain ⟨hclient, hnumber⟩ := Prod.mk.inj heq
  rw [CmdCache.tooOld, hclient, hnumber] at hold
  rw [CmdCache.tooOld, hold] at hnew
  cases hnew

/-! ## The invariant -/

/-- `a` is a block below `b` in the list. -/
def Below (S : Primitives Sig) (blocks : List (Block Sig)) (a b : Block Sig) : Prop :=
  ∃ p, IsParent S blocks b p ∧ Ancestor S blocks a p

/-- The accepted blocks form a tree on the genesis block. What is below one is recorded and shares
no command with it. The executed commands are those of a branch. -/
structure Inv (S : Primitives Sig) (codec : Codec) (s : State Sig) : Prop where
  genesis_mem : genesis ∈ s.accepted
  apart : HashesApart S s.accepted
  root : ∀ p, ¬IsParent S s.accepted genesis p
  grounded : ∀ b ∈ s.accepted, Grounded S s.accepted b
  recorded : ∀ b ∈ s.accepted, ∀ a, Below S s.accepted a b → Recorded codec s.cmdCache a
  separate : ∀ b ∈ s.accepted, ∀ a, Below S s.accepted a b → Separate codec a b
  distinct : ∀ b ∈ s.accepted, ((codec.batch b).map ClientCommand.id).Nodup
  bExec_mem : s.bExec ∈ s.accepted
  branch : ∃ line : List (Block Sig),
    s.executed = line.flatMap (fun b => (codec.batch b).map ClientCommand.id) ∧
    line.Pairwise (Below S s.accepted) ∧
    ∀ b ∈ line, b ∈ s.accepted ∧ Ancestor S s.accepted b s.bExec

/-- No command was executed twice. -/
theorem Inv.executed_nodup (hinv : Inv S codec s) : s.executed.Nodup := by
  obtain ⟨line, hline, hpairs, hmem⟩ := hinv.branch
  rw [hline, nodup_flatMap]
  refine ⟨fun b hb => hinv.distinct b (hmem b hb).1, ?_⟩
  refine hpairs.imp_of_mem fun {a b} _ hb hbelow => ?_
  intro id hida hidb
  obtain ⟨cmd, hcmd, rfl⟩ := mem_map.mp hida
  obtain ⟨cmd', hcmd', heq⟩ := mem_map.mp hidb
  exact hinv.separate b (hmem b hb).1 a hbelow cmd hcmd cmd' hcmd' heq.symm

/-- The condition under which every command is executed once. An accepted batch names no command
twice. An accepted block is built on the block it certifies, accepted before; its hash is neither
zero nor that of another accepted block. A commit executes accepted blocks on top of the committed
one. -/
def Orderly (S : Primitives Sig) (codec : Codec) (s : State Sig) : Action Sig → Prop
  | .onPropose block =>
    (s.proposed S codec block.cert.hash).cmdCache.accept codec block.cmd = true →
      ((codec.batch block).map ClientCommand.id).Nodup ∧
      block.parent = block.cert.hash ∧
      (∃ p ∈ s.accepted, s.chain.localGet S block.parent = some p) ∧
      block.hash S ≠ Hash.zero ∧
      ∀ b ∈ s.accepted, b.hash S = block.hash S → b = block
  | .commit block => ∀ blocks ∈ (s.commitInner S block).join,
    (∀ b ∈ blocks, b ∈ s.accepted) ∧ ∀ b ∈ blocks.head?, b.parent = s.bExec.hash S
  | _ => True

instance [DecidableEq Sig] (s : State Sig) (action : Action Sig) :
    Decidable (Orderly S codec s action) := by
  cases action <;> unfold Orderly <;> infer_instance

/-- What the invariant says is kept when only the serial numbers change and rise. -/
theorem Inv.of_rises (hinv : Inv S codec s) (hrises : Rises s.cmdCache s'.cmdCache)
    (haccepted : s'.accepted = s.accepted) (hexec : s'.bExec = s.bExec)
    (hexecuted : s'.executed = s.executed) : Inv S codec s' where
  genesis_mem := haccepted ▸ hinv.genesis_mem
  apart := haccepted ▸ hinv.apart
  root := haccepted ▸ hinv.root
  grounded := haccepted ▸ hinv.grounded
  recorded b hb a ha cmd hcmd :=
    hrises.tooOld (hinv.recorded b (haccepted ▸ hb) a (haccepted ▸ ha) cmd hcmd)
  separate := haccepted ▸ hinv.separate
  distinct := haccepted ▸ hinv.distinct
  bExec_mem := by rw [hexec, haccepted]; exact hinv.bExec_mem
  branch := by rw [hexecuted, haccepted, hexec]; exact hinv.branch

variable {s : State Sig} (cmd : ClientCommand) (batch : Batch)

theorem inv_new (batchSize : Nat) (hgenesis : (genesis : Block Sig).hash S ≠ Hash.zero) :
    Inv S codec (new batchSize : State Sig) := by
  have hroot : ∀ p, ¬IsParent S [(genesis : Block Sig)] genesis p := by
    intro p hp
    have hhash := hp.2
    rw [mem_singleton.mp hp.1] at hhash
    exact hgenesis hhash
  have hbelow : ∀ b ∈ [(genesis : Block Sig)], ∀ a, ¬Below S [genesis] a b := by
    rintro b hb a ⟨p, hp, -⟩
    exact hroot p (mem_singleton.mp hb ▸ hp)
  exact
    { genesis_mem := mem_singleton_self _
      apart := fun b hb b' hb' _ => by rw [mem_singleton.mp hb, mem_singleton.mp hb']
      root := hroot
      grounded := fun b hb a ha => .inl (mem_singleton.mp (ha.mem hb))
      recorded := fun b hb a ha => absurd ha (hbelow b hb a)
      separate := fun b hb a ha => absurd ha (hbelow b hb a)
      distinct := fun b hb => by
        rw [mem_singleton.mp hb, Codec.batch, genesis, codec.unmarshal_nil]
        exact nodup_nil
      bExec_mem := mem_singleton_self _
      branch := ⟨[], rfl, List.Pairwise.nil, fun b hb => absurd hb not_mem_nil⟩ }

/-! ## The steps -/

theorem proposed_frame (s : State Sig) (hash : Hash) :
    Rises s.cmdCache (s.proposed S codec hash).cmdCache ∧
      (s.proposed S codec hash).accepted = s.accepted ∧
      (s.proposed S codec hash).bExec = s.bExec ∧
      (s.proposed S codec hash).executed = s.executed := by
  unfold proposed
  split
  · exact ⟨Rises.refl _, rfl, rfl, rfl⟩
  · exact ⟨rises_proposed _ _, rfl, rfl, rfl⟩

theorem Inv.proposed (hinv : Inv S codec s) (hash : Hash) :
    Inv S codec (s.proposed S codec hash) := by
  obtain ⟨hrises, haccepted, hexec, hexecuted⟩ := proposed_frame s hash
  exact hinv.of_rises hrises haccepted hexec hexecuted

theorem Inv.answer (hinv : Inv S codec s) (id : CmdID) (ok : Bool) :
    Inv S codec (s.answer id ok) := by
  unfold State.answer
  split
  · exact hinv.of_rises (Rises.refl _) rfl rfl rfl
  · exact hinv

theorem Inv.fork (hinv : Inv S codec s) (block : Block Sig) : Inv S codec (s.fork codec block) := by
  unfold State.fork
  generalize codec.batch block = batch
  induction batch generalizing s with
  | nil => exact hinv
  | cons cmd rest ih => exact ih (hinv.answer cmd.id false)

theorem serialNumbers_get {taken : CmdCache × Option Command} (h : c.get codec = some taken) :
    taken.1.serialNumbers = c.serialNumbers := by
  unfold CmdCache.get at h
  split at h
  · cases h
    rfl
  · simp only at h
    split at h
    · split at h <;> cases h
      rfl
    · cases h
      rfl

theorem Inv.propose (hinv : Inv S codec s) {qc : Option (QuorumCert Sig)} {view : View} {id : ID}
    (h : s.propose S codec qc view id = some s') : Inv S codec s' := by
  obtain ⟨taken, hget, rfl⟩ := map_eq_some_iff.mp h
  have htold : Inv S codec (s.tellAcceptor S codec qc) := by
    cases qc with
    | none => exact hinv
    | some qc => exact hinv.proposed qc.hash
  refine htold.of_rises (fun client => ?_) rfl rfl rfl
  rw [serialNumbers_get hget]
  exact UInt64.le_refl _

/-- Accepting an orderly block keeps the invariant. -/
theorem Inv.accept {q : Block Sig} (hinv : Inv S codec s) (hq : q ∈ s.accepted)
    (hqrecorded : Recorded codec s.cmdCache q) (hparent : q.hash S = b.parent)
    (haccept : s.cmdCache.accept codec b.cmd = true)
    (hdistinct : ((codec.batch b).map ClientCommand.id).Nodup) (hzero : b.hash S ≠ Hash.zero)
    (hfree : ∀ b' ∈ s.accepted, b'.hash S = b.hash S → b' = b) (chain : BlockChain Sig) :
    Inv S codec { s with chain := chain, accepted := b :: s.accepted } := by
  have hsub : s.accepted ⊆ b :: s.accepted := subset_cons_self _ _
  have hapart : HashesApart S (b :: s.accepted) := by
    intro c hc c' hc' heq
    rcases mem_cons.mp hc with rfl | hold <;> rcases mem_cons.mp hc' with rfl | hold'
    · rfl
    · exact (hfree c' hold' heq.symm).symm
    · exact hfree c hold heq
    · exact hinv.apart c hold c' hold' heq
  have hroot : ∀ p, ¬IsParent S (b :: s.accepted) genesis p := by
    rintro p ⟨hp, hhash⟩
    rcases mem_cons.mp hp with rfl | hp
    · exact hzero hhash
    · exact hinv.root p ⟨hp, hhash⟩
  have hbranch : ∀ c ∈ s.accepted, ∀ a,
      Ancestor S (b :: s.accepted) a c ↔ Ancestor S s.accepted a c :=
    fun c hc a => (hinv.grounded c hc).ancestor_iff hsub hapart hroot
  -- below an old block nothing changes, below the new one are `q` and the blocks below `q`
  have hbelow : ∀ c ∈ s.accepted, ∀ a, Below S (b :: s.accepted) a c → Below S s.accepted a c := by
    rintro c hc a ⟨p, hp, ha⟩
    rcases hinv.grounded c hc c (Ancestor.refl c) with rfl | ⟨p', hp'⟩
    · exact absurd hp (hroot p)
    · obtain rfl := hapart.parent_unique hp (hp'.mono hsub)
      exact ⟨p, hp', (hbranch p hp'.1 a).mp ha⟩
  have hnew : ∀ a, Below S (b :: s.accepted) a b → Recorded codec s.cmdCache a := by
    rintro a ⟨p, hp, ha⟩
    obtain rfl := hapart.parent_unique hp ⟨hsub hq, hparent⟩
    have hold := (hbranch p hq a).mp ha
    rcases hinv.grounded p hq p (Ancestor.refl p) with rfl | ⟨p', hp'⟩
    · rcases Relation.ReflTransGen.cases_head hold with heq | ⟨p', hp', -⟩
      · exact heq ▸ hqrecorded
      · exact absurd hp' (hinv.root p')
    · rcases hold.cases_parent hinv.apart hp' with rfl | hup
      · exact hqrecorded
      · exact hinv.recorded p hq a ⟨p', hp', hup⟩
  have hground : ∀ c ∈ s.accepted, Grounded S (b :: s.accepted) c := fun c hc =>
    (hinv.grounded c hc).mono hsub fun a => (hbranch c hc a).mp
  obtain ⟨line, hline, hpairs, hmem⟩ := hinv.branch
  exact
    { genesis_mem := hsub hinv.genesis_mem
      apart := hapart
      root := hroot
      grounded := fun c hc => by
        rcases mem_cons.mp hc with rfl | hold
        · intro a ha
          have hqparent : IsParent S (c :: s.accepted) c q := ⟨hsub hq, hparent⟩
          rcases ha.cases_parent hapart hqparent with rfl | hup
          · exact .inr ⟨q, hqparent⟩
          · exact hground q hq a hup
        · exact hground c hold
      recorded := fun c hc a ha => by
        rcases mem_cons.mp hc with rfl | hold
        · exact hnew a ha
        · exact hinv.recorded c hold a (hbelow c hold a ha)
      separate := fun c hc a ha => by
        rcases mem_cons.mp hc with rfl | hold
        · exact separate_of_accept (hnew a ha) haccept
        · exact hinv.separate c hold a (hbelow c hold a ha)
      distinct := fun c hc => by
        rcases mem_cons.mp hc with rfl | hold
        · exact hdistinct
        · exact hinv.distinct c hold
      bExec_mem := hsub hinv.bExec_mem
      branch := by
        refine ⟨line, hline, hpairs.imp ?_, fun c hc => ?_⟩
        · rintro a c ⟨p, hp, ha⟩
          exact ⟨p, hp.mono hsub, ha.mono hsub⟩
        · exact ⟨hsub (hmem c hc).1, (hmem c hc).2.mono hsub⟩ }

theorem Inv.onPropose (hinv : Inv S codec s) (hok : Orderly S codec s (.onPropose b)) :
    Inv S codec (s.onPropose S codec b) := by
  unfold State.onPropose
  have htold := hinv.proposed b.cert.hash
  have haccepted : (s.proposed S codec b.cert.hash).accepted = s.accepted :=
    (proposed_frame s b.cert.hash).2.1
  simp only
  split
  · rename_i haccept
    obtain ⟨hdistinct, hcert, ⟨p, hp, hfound⟩, hzero, hfree⟩ := hok haccept
    have hrecorded : Recorded codec (s.proposed S codec b.cert.hash).cmdCache p := by
      rw [State.proposed, ← hcert, hfound]
      exact recorded_proposed s.cmdCache p
    exact htold.accept (haccepted ▸ hp) hrecorded (mem_of_localGet hfound).2 haccept hdistinct hzero
      (haccepted ▸ hfree) _
  · exact htold

/-! ## Commits -/

/-- Executing a batch appends its commands and keeps the rest. -/
theorem foldl_execOne (s : State Sig) :
    (batch.foldl execOne s).executed = s.executed ++ batch.map ClientCommand.id ∧
      (batch.foldl execOne s).accepted = s.accepted ∧
      (batch.foldl execOne s).cmdCache = s.cmdCache := by
  induction batch generalizing s with
  | nil => exact ⟨(append_nil _).symm, rfl, rfl⟩
  | cons cmd rest ih =>
    obtain ⟨hexecuted, haccepted, hcache⟩ := ih (s.execOne cmd)
    have hone : (s.execOne cmd).executed = s.executed ++ [cmd.id] ∧
        (s.execOne cmd).accepted = s.accepted ∧ (s.execOne cmd).cmdCache = s.cmdCache := by
      unfold execOne answer
      split <;> exact ⟨rfl, rfl, rfl⟩
    rw [foldl_cons, hexecuted, haccepted, hcache, hone.1, hone.2.1, hone.2.2]
    exact ⟨by rw [append_assoc]; rfl, rfl, rfl⟩

/-- Executing an accepted block on top of the committed one keeps the invariant. -/
theorem Inv.exec (hinv : Inv S codec s) (hb : b ∈ s.accepted)
    (hparent : b.parent = s.bExec.hash S) : Inv S codec (s.exec codec b) := by
  obtain ⟨hexecuted, haccepted, hcache⟩ := foldl_execOne (codec.batch b) s
  have hisParent : IsParent S s.accepted b s.bExec := ⟨hinv.bExec_mem, hparent.symm⟩
  obtain ⟨line, hline, hpairs, hmem⟩ := hinv.branch
  have hkept : Inv S codec { s.exec codec b with bExec := s.bExec, executed := s.executed } :=
    hinv.of_rises (hcache ▸ Rises.refl _) haccepted rfl rfl
  unfold State.exec at hkept ⊢
  exact
    { hkept with
      bExec_mem := haccepted ▸ hb
      branch := by
        refine ⟨line ++ [b], ?_, ?_, fun c hc => ?_⟩
        · rw [hexecuted, hline, flatMap_append, flatMap_singleton]
        · rw [haccepted, pairwise_append]
          refine ⟨hpairs, pairwise_singleton _ _, fun a ha c hc => ?_⟩
          rw [mem_singleton.mp hc]
          exact ⟨s.bExec, hisParent, (hmem a ha).2⟩
        · rw [haccepted]
          rcases mem_append.mp hc with hold | hnew
          · exact ⟨(hmem c hold).1, Relation.ReflTransGen.head hisParent (hmem c hold).2⟩
          · rw [mem_singleton.mp hnew]
            exact ⟨hb, Ancestor.refl b⟩ }

/-- The blocks that a commit executes are linked by their parents and end with the block. -/
theorem unexecuted_linked {chain : BlockChain Sig} {n : Nat}
    (h : chain.unexecuted S a n b = some (some blocks)) :
    blocks.IsChain (fun a c => c.parent = a.hash S) ∧ ∀ c ∈ blocks.getLast?, c = b := by
  induction n generalizing b blocks with
  | zero => cases h
  | succ n ih =>
    rw [BlockChain.unexecuted] at h
    split at h
    · cases h
      exact ⟨isChain_nil, fun c hc => by cases hc⟩
    · split at h
      · cases h
      · rename_i parent hparent
        obtain ⟨found, hfound, hmap⟩ := map_eq_some_iff.mp h
        obtain ⟨rest, rfl, rfl⟩ := map_eq_some_iff.mp hmap
        obtain ⟨hchain, hlast⟩ := ih hfound
        refine ⟨isChain_append.mpr ⟨hchain, isChain_singleton _, ?_⟩, fun c hc => ?_⟩
        · intro a ha c hc
          rw [hlast a ha, ← some.inj hc]
          exact (mem_of_localGet hparent).2.symm
        · rw [getLast?_append] at hc
          exact (some.inj hc).symm

theorem accepted_exec (s : State Sig) (b : Block Sig) : (s.exec codec b).accepted = s.accepted :=
  (foldl_execOne (codec.batch b) s).2.1

/-- Executing linked blocks on top of the committed one keeps the invariant. -/
theorem Inv.execAll (hinv : Inv S codec s) (hblocks : ∀ b ∈ blocks, b ∈ s.accepted)
    (hchain : blocks.IsChain fun a c => c.parent = a.hash S)
    (hhead : ∀ b ∈ blocks.head?, b.parent = s.bExec.hash S) :
    Inv S codec (blocks.foldl (State.exec codec) s) := by
  induction blocks generalizing s with
  | nil => exact hinv
  | cons b rest ih =>
    obtain ⟨hfirst, hrest⟩ := isChain_cons.mp hchain
    have hexec := hinv.exec (hblocks b mem_cons_self) (hhead b rfl)
    refine ih hexec (fun c hc => ?_) hrest hfirst
    rw [accepted_exec]
    exact hblocks c (mem_cons_of_mem _ hc)

theorem Inv.commit (hinv : Inv S codec s) (hok : Orderly S codec s (.commit b))
    (h : s.commit S codec b = some s') : Inv S codec s' := by
  obtain ⟨found, hfound, rfl⟩ := Option.map_eq_some_iff.mp h
  cases found with
  | none => exact hinv
  | some blocks =>
    obtain ⟨hblocks, hhead⟩ := hok blocks (join_eq_some_iff.mpr hfound)
    exact hinv.execAll hblocks (unexecuted_linked hfound).1 hhead

theorem Inv.step {batchSize : Nat} {action : Action Sig} (hinv : Inv S codec s)
    (hok : Orderly S codec s action) (h : (machine S codec batchSize).step s action = some s') :
    Inv S codec s' := by
  cases action with
  | execCommand cmd =>
    cases h
    refine hinv.of_rises (fun client => ?_) rfl rfl rfl
    simp only [execCommand, CmdCache.addCommand]
    split <;> exact UInt64.le_refl _
  | propose qc view id => exact hinv.propose h
  | onPropose b => exact some.inj h ▸ hinv.onPropose hok
  | fetch b =>
    cases h
    exact hinv.of_rises (Rises.refl _) rfl rfl rfl
  | commit b => exact hinv.commit hok h
  | fork b => exact some.inj h ▸ hinv.fork b

/-- When accepted batches name no command twice and blocks are built on certified, accepted blocks,
no command is executed twice. -/
theorem commands_executed_once (hgenesis : (genesis : Block Sig).hash S ≠ Hash.zero)
    (batchSize : Nat) (actions : List (Action Sig)) (s : State Sig)
    (hmeets : (machine S codec batchSize).Meets (Orderly S codec) (.new batchSize) actions)
    (hrun : (machine S codec batchSize).run actions = some s) : s.executed.Nodup := by
  have hinv : Inv S codec s :=
    Machine.run_invariant (inv_new batchSize hgenesis) (fun _ _ _ => Inv.step) hmeets hrun
  exact hinv.executed_nodup

/-! ## Commands that are executed twice -/

section Samples

open Wire

/-- `Command.Marshal`. -/
def marshalCommand : Bytes :=
  Wire.marshal [⟨1, scalar cmd.clientID.toNat⟩, ⟨2, scalar cmd.sequenceNumber.toNat⟩,
    ⟨3, blob cmd.data⟩]

/-- `Command.Unmarshal` for messages without repeated or unknown fields. -/
def unmarshalCommand (content : Bytes) : Option ClientCommand := do
  let fs ← Wire.unmarshal content
  let client ← asScalar (valuesAt 1 fs)
  let number ← asScalar (valuesAt 2 fs)
  let data ← asBlob (valuesAt 3 fs)
  return ⟨UInt32.ofNat client, UInt64.ofNat number, data⟩

theorem unmarshalCommand_marshalCommand :
    unmarshalCommand (marshalCommand cmd) = some cmd := by
  simp [unmarshalCommand, marshalCommand]

/-- A command within a batch. -/
def readCommand : Value → Option ClientCommand
  | .bytes content => unmarshalCommand content
  | _ => none

/-- `Batch.Marshal` and `Batch.Unmarshal`. -/
def wireCodec : Codec where
  marshal batch := Wire.marshal [⟨1, batch.map fun cmd => .bytes (marshalCommand cmd)⟩]
  unmarshal cmd := (Wire.unmarshal cmd).bind fun fs => (valuesAt 1 fs).mapM readCommand
  unmarshal_marshal batch := by
    have hread : ∀ batch : Batch,
        (batch.map fun cmd => Value.bytes (marshalCommand cmd)).mapM readCommand = some batch := by
      intro batch
      induction batch with
      | nil => rfl
      | cons cmd rest ih =>
        simp [readCommand, unmarshalCommand_marshalCommand, ih]
    simp [hread]
  unmarshal_nil := rfl

/-- Hashes that can be evaluated; the signatures are not looked at. -/
def samplePrimitives : Primitives Unit where
  sum256 := Ecdsa.foldHash
  sigToBytes _ := []
  participants _ := {1, 2, 3}

/-- The certificate of the genesis block. -/
def rootCert : QuorumCert Unit :=
  { signature := none, view := 0, hash := genesis.hash samplePrimitives }

/-- A block of view 1. -/
def first : Block Unit where
  parent := rootCert.hash
  proposer := 1
  cmd := wireCodec.marshal batch
  cert := rootCert
  view := 1

/-- The block of the next view on a certified block. -/
def after (parent : Block Unit) (batch : Batch) : Block Unit where
  parent := parent.hash samplePrimitives
  proposer := 1
  cmd := wireCodec.marshal batch
  cert := { signature := some (), view := parent.view, hash := parent.hash samplePrimitives }
  view := parent.view + 1

/-- The proposals of three empty blocks on a block, after which the block is committed. -/
def confirm (block : Block Unit) : List (Action Unit) :=
  let b1 := after block []
  let b2 := after b1 []
  let b3 := after b2 []
  [.onPropose b1, .onPropose b2, .onPropose b3, .commit block]

/-- The command 1 of client 1. -/
def cmd1 : ClientCommand := ⟨1, 1, [7]⟩

/-- The command 2 of client 1. -/
def cmd2 : ClientCommand := ⟨1, 2, [8]⟩

/-- A client sends a command twice before it is proposed. -/
def resend : List (Action Unit) :=
  [.execCommand cmd1, .execCommand cmd1, .execCommand cmd2, .propose (some rootCert) 1 1,
    .onPropose (first [cmd1, cmd1])] ++ confirm (first [cmd1, cmd1])

/-- A replica misses a proposal and fetches the block when the next one arrives, which repeats a
command. -/
def missed : List (Action Unit) :=
  let b2 := after (first [cmd1]) []
  let b3 := after b2 [cmd1]
  [.onPropose (first [cmd1]), .fetch b2, .onPropose b3] ++ confirm b3

/-- A command is executed twice if a client sends it again in time for the same batch, or a leader
repeats it on a block that the replica had to fetch. -/
theorem command_executed_twice :
    ((machine samplePrimitives wireCodec 2).run resend).map executed =
        some [cmd1.id, cmd1.id] ∧
      ((machine samplePrimitives wireCodec 2).run missed).map executed =
        some [cmd1.id, cmd1.id] := by
  decide +kernel

/-- A client sends two commands, which are proposed and committed one after the other. -/
def inTurn : List (Action Unit) :=
  [.execCommand cmd1, .execCommand cmd2, .propose (some rootCert) 1 1,
    .onPropose (first [cmd1]), .onPropose (after (first [cmd1]) [cmd2])] ++
    confirm (after (first [cmd1]) [cmd2])

theorem commands_executed_once_inTurn :
    ((machine samplePrimitives wireCodec 1).run inTurn).map executed =
        some [cmd1.id, cmd2.id] ∧
      ∀ s, (machine samplePrimitives wireCodec 1).run inTurn = some s → s.executed.Nodup := by
  refine ⟨by decide +kernel, fun s hrun => ?_⟩
  exact commands_executed_once (by decide +kernel) 1 inTurn s (by decide +kernel) hrun

end Samples

end NimbleChain.HotStuff.Commands
