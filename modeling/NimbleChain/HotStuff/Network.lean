import NimbleChain.HotStuff.HandlerMoves
import NimbleChain.Common.Network

/-!
# Runs of a network of replicas

Each replica handles one event after the other. The adversary decides which replica receives which
event and what the environment answers to it. Faulty replicas need no state of their own. What
limits the adversary is only that it cannot forge signatures of the others.
-/

namespace NimbleChain.HotStuff

open Common List

variable {Sig : Type}

/-- The events for which the consensus module and the synchronizer register handlers, and the
start of the replica. -/
inductive Event (Sig : Type) where
  | propose (proposal : ProposeMsg Sig)
  | newView (syncInfo : SyncInfo Sig)
  | timeout (timeout : TimeoutMsg Sig)
  /-- `TimeoutEvent`: the timer of a view fired. -/
  | localTimeout (view : View)
  | start

/-- An event together with what the environment answers while it is handled. -/
structure Input (Sig : Type) where
  env : Env Sig
  event : Event Sig

/-- The states of the replicas and what they did. -/
abbrev Network (Sig : Type) : Type :=
  World ID (Replica Sig) (Entry Sig)

variable (M : Modules Sig) (rules : Rules Sig)

/-- The handler of an event. -/
def handle : Event Sig → Handler Sig Unit
  | .propose proposal => onPropose M rules proposal
  | .newView syncInfo => advanceView M rules M.stack syncInfo
  | .timeout timeout => onRemoteTimeout M rules timeout
  | .localTimeout view => do
    if (← get).currentView = view then onLocalTimeout M rules else pure ()
  | .start => start M rules

/-- A replica handles one event; after a panic it handles nothing any more. -/
def Replica.step (r : Replica Sig) (input : Input Sig) : Replica Sig :=
  if r.crashed then r
  else
    match (handle M rules input.event).exec { r with env := input.env } with
    | (.ok _, r') => r'
    | (.error _, r') => { r' with crashed := true }

/-- The replicas as parties of a network. -/
def replicas : Parties ID (Replica Sig) (Input Sig) (Entry Sig) where
  init := Replica.init M.S
  step := Replica.step M rules
  trace := Replica.trace

/-- The states of the replicas and the merged trace after a list of deliveries. -/
def run (deliveries : List (ID × Input Sig)) : Network Sig :=
  (replicas M rules).run deliveries

variable {M rules} {D : Discipline Sig}

/-- A replica executes a call with the answers of the environment, unless it has crashed before. -/
def Replica.after (r : Replica Sig) (program : Handler Sig Unit) (env : Env Sig) : Replica Sig :=
  if r.crashed then r
  else
    match program.exec { r with env := env } with
    | (.ok _, r') => r'
    | (.error _, r') => { r' with crashed := true }

namespace Spans

variable {R : Replica Sig → Replica Sig → Prop} [Std.Refl R] [IsTrans (Replica Sig) R]
  (h : Spans M rules R)

include h

theorem handle (event : Event Sig) : (handle M rules event).Along R := by
  cases event with
  | propose proposal => exact h.onPropose proposal
  | newView syncInfo => exact h.advanceView syncInfo
  | timeout timeout => exact h.onRemoteTimeout timeout
  | localTimeout view => exact .bind .get fun r => .ite (fun _ => h.onLocalTimeout) fun _ => .pure _
  | start => exact .bind .get fun r => .ite (fun _ => h.propose _) fun _ => .pure _

/-- What holds along a program relates a replica before and after it executes the program, also if
it crashes. -/
theorem after {program : Handler Sig Unit} (hprogram : program.Along R) (r : Replica Sig)
    (env : Env Sig) : R r (r.after program env) := by
  have hend := IsTrans.trans _ _ _ (h.looksUp r _ (.of_env r env))
    (Program.always_iff.mp (hprogram { r with env := env }))
  unfold Replica.after
  split
  · exact Std.Refl.refl r
  split
  · rename_i heq
    rw [heq] at hend
    exact hend
  · rename_i _ r' heq
    rw [heq] at hend
    exact IsTrans.trans _ _ _ hend (h.crash r')

/-- So is a replica before and after each step. -/
theorem step (r : Replica Sig) (input : Input Sig) : R r (r.step M rules input) :=
  h.after (h.handle input.event) r input.env

end Spans

/-- The state of a replica in a run is reached by moves and votes. -/
theorem run_reached (hobeys : Obeys M rules D) (deliveries : List (ID × Input Sig)) (i : ID) :
    Reached M D i ((run M rules deliveries).states i) := by
  refine Parties.run_induction (P := replicas M rules) (I := fun i r => Reached M D i r)
    (fun _ => .init) ?_ i
  intro i r input _ hreached
  exact (hobeys.spans.step r input).reached i hreached

/-- The merged trace of a run consists of the traces of the replicas. -/
theorem ownTrace_run (hobeys : Obeys M rules D) (deliveries : List (ID × Input Sig)) (i : ID) :
    ownTrace i (run M rules deliveries).trace = ((run M rules deliveries).states i).trace :=
  Parties.ownTrace_run (P := replicas M rules) (fun _ => rfl)
    (fun r input => (hobeys.spans.step r input).later.trace) deliveries i

/-- Signatures cannot be forged: if one is accepted, every correct participant has signed the
message before, or, in a batch, the message that the batch has for it. -/
def Unforgeable (S : Primitives Sig) (faulty : Finset ID) (trace : List (ID × Entry Sig)) : Prop :=
  Throughout (fun past e =>
    (∀ sig message, e.2 = .verified sig message → ∀ id ∈ S.participants sig, id ∉ faulty →
      ∃ what, (id, Entry.signed what) ∈ past ∧ what.message S = message) ∧
    ∀ sig batch, e.2 = .batchVerified sig batch → ∀ id ∈ S.participants sig, id ∉ faulty →
      ∃ what, (id, Entry.signed what) ∈ past ∧ (id, what.message S) ∈ batch.entries) trace

/-- The replicas that signed one of the given messages. -/
def signers (signed : List (ID × Bytes)) : Finset ID :=
  (signed.map Prod.fst).toFinset

theorem exists_of_mem_signers {signed : List (ID × Bytes)} {p : ID × Bytes → Bool} {id : ID}
    (h : id ∈ signers (signed.filter p)) :
    ∃ message, (id, message) ∈ signed ∧ p (id, message) = true := by
  obtain ⟨⟨_, message⟩, hmem, rfl⟩ := mem_map.mp (mem_toFinset.mp h)
  exact ⟨message, mem_filter.mp hmem⟩

/-- Whether signatures are unforged in a trace that continues one in which the given messages were
signed. -/
def unforgedFrom (S : Primitives Sig) (faulty : Finset ID) :
    List (ID × Bytes) → List (ID × Entry Sig) → Bool
  | _, [] => true
  | signed, (id, .signed what) :: rest =>
    unforgedFrom S faulty ((id, what.message S) :: signed) rest
  | signed, (_, .verified sig message) :: rest =>
    decide (S.participants sig \ faulty ⊆ signers (signed.filter (·.2 = message))) &&
      unforgedFrom S faulty signed rest
  | signed, (_, .batchVerified sig batch) :: rest =>
    decide (S.participants sig \ faulty ⊆ signers (signed.filter (· ∈ batch.entries))) &&
      unforgedFrom S faulty signed rest
  | signed, _ :: rest => unforgedFrom S faulty signed rest

/-- A trace that passes the check is unforged. The induction carries that the collected messages
were signed in the past. -/
theorem unforgeable_of_check {S : Primitives Sig} {faulty : Finset ID}
    {trace : List (ID × Entry Sig)} (h : unforgedFrom S faulty [] trace = true) :
    Unforgeable S faulty trace := by
  suffices hfrom : ∀ (rest past : List (ID × Entry Sig)) (signed : List (ID × Bytes)),
      (∀ id message, (id, message) ∈ signed →
        ∃ what, (id, Entry.signed what) ∈ past ∧ what.message S = message) →
      unforgedFrom S faulty signed rest = true → Unforgeable S faulty past →
      Unforgeable S faulty (past ++ rest) from
    hfrom trace [] [] (by simp) h .nil
  intro rest
  induction rest with
  | nil =>
    intro past signed _ _ hpast
    simpa using hpast
  | cons e rest ih =>
    intro past signed hsigned hcheck hpast
    obtain ⟨i, entry⟩ := e
    rw [← singleton_append, ← append_assoc]
    have hkeep : ∀ id message, (id, message) ∈ signed →
        ∃ what, (id, Entry.signed what) ∈ past ++ [(i, entry)] ∧ what.message S = message := by
      intro id message hmem
      obtain ⟨what, hwhat, hmessage⟩ := hsigned id message hmem
      exact ⟨what, mem_append_left _ hwhat, hmessage⟩
    cases entry with
    | signed what =>
      refine ih _ _ ?_ hcheck (hpast.append_singleton (by simp))
      intro id message hmem
      rcases mem_cons.mp hmem with hnew | hold
      · cases hnew
        exact ⟨what, by simp, rfl⟩
      · exact hkeep id message hold
    | verified sig message =>
      simp only [unforgedFrom, Bool.and_eq_true, decide_eq_true_eq] at hcheck
      refine ih _ _ hkeep hcheck.2 (hpast.append_singleton ⟨?_, by simp⟩)
      intro sig' message' heq id hid hcorrect
      obtain ⟨rfl, rfl⟩ := Entry.verified.inj heq
      obtain ⟨_, hmem, hp⟩ :=
        exists_of_mem_signers (hcheck.1 (Finset.mem_sdiff.mpr ⟨hid, hcorrect⟩))
      obtain rfl := of_decide_eq_true hp
      exact hsigned id _ hmem
    | batchVerified sig batch =>
      simp only [unforgedFrom, Bool.and_eq_true, decide_eq_true_eq] at hcheck
      refine ih _ _ hkeep hcheck.2 (hpast.append_singleton ⟨by simp, ?_⟩)
      intro sig' batch' heq id hid hcorrect
      obtain ⟨rfl, rfl⟩ := Entry.batchVerified.inj heq
      obtain ⟨message, hmem, hp⟩ :=
        exists_of_mem_signers (hcheck.1 (Finset.mem_sdiff.mpr ⟨hid, hcorrect⟩))
      obtain ⟨what, hwhat, rfl⟩ := hsigned _ message hmem
      exact ⟨what, hwhat, of_decide_eq_true hp⟩
    | _ => exact ih _ _ hkeep hcheck (hpast.append_singleton (by simp))

/-- A replica that is not faulty stores the block. -/
def Stored (faulty : Finset ID) (w : Network Sig) (block : Block Sig) :
    Prop :=
  ∃ i, i ∉ faulty ∧ block ∈ (w.states i).chain.blocks

/-- The blocks that the given replicas store, and the genesis block. -/
def storedBlocks (ids : List ID) (w : Network Sig) : List (Block Sig) :=
  genesis :: ids.flatMap fun i => (w.states i).chain.blocks

/-- Only replicas that receive something store more than the genesis block. -/
theorem mem_storedBlocks {faulty : Finset ID} {deliveries : List (ID × Input Sig)} {ids : List ID}
    (hids : ∀ d ∈ deliveries, d.1 ∈ ids) {block : Block Sig}
    (h : Stored faulty (run M rules deliveries) block) :
    block ∈ storedBlocks ids (run M rules deliveries) := by
  obtain ⟨i, -, hmem⟩ := h
  by_cases hi : i ∈ ids
  · exact mem_cons_of_mem _ (mem_flatMap.mpr ⟨i, hi, hmem⟩)
  · have hinit : (run M rules deliveries).states i = Replica.init M.S i :=
      Parties.run_states_of_not_mem fun d hd heq => hi (heq ▸ hids d hd)
    rw [hinit] at hmem
    obtain rfl : block = genesis := mem_singleton.mp hmem
    exact mem_cons_self

/-- What is assumed of every run: few replicas are faulty, signatures count only for configured
replicas and are not forged, and hashed blocks collide neither with each other nor with the zero
hash. -/
structure Assumptions (M : Modules Sig) (faulty : Finset ID)
    (w : Network Sig) : Prop where
  nonempty : M.config.Nonempty
  few : faulty.card ≤ numFaulty M.config.card
  configured : ∀ sig message, M.crypto.verify sig message = true →
    M.S.participants sig ⊆ M.config
  batch_configured : ∀ sig batch, M.crypto.batchVerify sig batch = true →
    M.S.participants sig ⊆ M.config
  unforgeable : Unforgeable M.S faulty w.trace
  collision_free : ∀ b b', Stored faulty w b → Stored faulty w b' → b.hash M.S = b'.hash M.S →
    b.toBytes M.S = b'.toBytes M.S
  hash_ne_zero : ∀ b, Stored faulty w b → b.hash M.S ≠ Hash.zero

end NimbleChain.HotStuff
