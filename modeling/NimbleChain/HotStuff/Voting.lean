import NimbleChain.HotStuff.Certificates
import NimbleChain.HotStuff.Combining

/-!
# How votes become a quorum certificate

`OnVote` hands a vote for a known block to `verifyCert`, which keeps every valid vote for the block,
tries to combine the kept votes as soon as there are enough of them, and forgets them when a
certificate was made. A vote is kept although an earlier one has the same signer, and then the kept
votes can never be combined.
-/

namespace NimbleChain.HotStuff

open Common Program List PartialCert

variable {Sig : Type} (M : Modules Sig) (vm : VotingMachine Sig)

/-! ### The machine -/

/-- `VoteMsg` is sent to the leader by replicas voting on a proposal. -/
structure VoteMsg (Sig : Type) where
  id : ID
  partialCert : PartialCert Sig
  deferred : Bool := false

/-- What `OnVote` does with a vote: try again after the next proposal, drop it, or verify it as a
vote for the block. -/
inductive VoteFate (Sig : Type) where
  | delayed (vote : VoteMsg Sig)
  | dropped
  | verify (block : Block Sig)

/-- The vote is too old if its block is not newer than the high QC. -/
def Replica.fateOf (r : Replica Sig) (block : Block Sig) : VoteFate Sig :=
  if block.view ≤ r.highQC.view then .dropped else .verify block

/-- `OnVote` up to the call of `verifyCert`. -/
def voteFate (vote : VoteMsg Sig) : Handler Sig (VoteFate Sig) := do
  if vote.deferred then
    -- if the block has not arrived at this point we will try to fetch it
    match ← getBlock M vote.partialCert.blockHash with
    | none => pure .dropped
    | some block => pure ((← get).fateOf block)
  else
    let r ← get
    match r.chain.localGet M.S vote.partialCert.blockHash with
    | none => pure (.delayed { vote with deferred := true })
    | some block => pure (r.fateOf block)

/-- `OnVote`, with the votes verified synchronously. -/
def VotingMachine.onVote (vote : VoteMsg Sig) :
    Handler Sig (VotingMachine Sig × Option (QuorumCert Sig)) := do
  match ← voteFate M vote with
  | .verify block => vm.verifyCert M vote.partialCert block
  | _ => pure (vm, none)

/-- A vote with the states of the replica when it arrives and when it is verified. The second is a
later one if a goroutine verifies the vote. -/
structure VoteDelivery (Sig : Type) where
  vote : VoteMsg Sig
  arrival : Replica Sig
  verification : Replica Sig

/-- The effect of one vote on the voting machine, and the certificate it leads to. -/
def VotingMachine.deliver (d : VoteDelivery Sig) :
    VotingMachine Sig × Option (QuorumCert Sig) :=
  match ((voteFate M d.vote).exec d.arrival).1 with
  | .ok (.verify block) =>
    match ((vm.verifyCert M d.vote.partialCert block).exec d.verification).1 with
    | .ok result => result
    | .error _ => (vm, none)
  | _ => (vm, none)

/-- The machine after some deliveries, in the order in which the votes are verified, and the
certificates that it sent to the synchronizer. -/
def VotingMachine.collect (deliveries : List (VoteDelivery Sig)) :
    VotingMachine Sig × List (QuorumCert Sig) :=
  deliveries.foldl (fun s d => ((s.1.deliver M d).1, s.2 ++ (s.1.deliver M d).2.toList)) (⟨[]⟩, [])

/-- The block is known and newer than the leaf. -/
structure Votable (block : Block Sig) (r : Replica Sig) : Prop where
  stored : r.chain.localGet M.S (block.hash M.S) = some block
  aboveLeaf : r.highQC.view < block.view

variable (block : Block Sig) (deliveries : List (VoteDelivery Sig))

/-- The vote is for the block and its signature is valid. -/
def validVote (cert : PartialCert Sig) : Bool :=
  decide (cert.blockHash = block.hash M.S) && M.crypto.verify cert.signature (block.toBytes M.S)

/-- The valid votes for the block among the delivered ones. -/
def validVotes :
    List (PartialCert Sig) :=
  (deliveries.map fun d => d.vote.partialCert).filter (validVote M block)

/-- No two of the votes share a signer. -/
def SeparateVotes (votes : List (PartialCert Sig)) : Prop :=
  votes.Pairwise fun vote vote' => M.S.Separate vote.signature vote'.signature

instance (votes : List (PartialCert Sig)) : Decidable (SeparateVotes M votes) :=
  inferInstanceAs (Decidable (List.Pairwise _ _))

/-- The certificates for the block that the machine sent. -/
def certificatesFor :
    List (QuorumCert Sig) :=
  (VotingMachine.collect M deliveries).2.filter fun qc => qc.hash = block.hash M.S

/-! ### Batches -/

section Batches

variable {α β : Type}

/-- Keep an item; with `size` or more kept items try to make something of them and start anew. -/
def gather (size : Nat) (make : List α → Option β) (s : List α × List β) (item : α) :
    List α × List β :=
  if (s.1 ++ [item]).length < size then (s.1 ++ [item], s.2)
  else
    match make (s.1 ++ [item]) with
    | none => (s.1 ++ [item], s.2)
    | some product => ([], s.2 ++ [product])

variable {size : Nat} {make : List α → Option β} {items held : List α} {out : List β}

/-- Fewer items than a batch are only kept. -/
theorem foldl_gather_of_length_lt (h : (held ++ items).length < size) :
    items.foldl (gather size make) (held, out) = (held ++ items, out) := by
  induction items generalizing held with
  | nil => simp
  | cons item rest ih =>
    have hlength : (held ++ [item]).length < size := by
      simp only [length_append, length_cons] at h ⊢
      simp only [length_nil]
      omega
    rw [foldl_cons, gather, if_pos hlength, ih (by simpa using h)]
    simp

/-- What a whole batch leads to. -/
theorem foldl_gather_of_length_eq (hlength : items.length = size) (hpos : 0 < size) :
    items.foldl (gather size make) ([], out) =
      match make items with
      | none => (items, out)
      | some product => ([], out ++ [product]) := by
  obtain ⟨front, last, rfl⟩ : ∃ front last, items = front ++ [last] :=
    ⟨_, _, (dropLast_append_getLast (ne_nil_of_length_pos (by omega))).symm⟩
  rw [length_append, length_singleton] at hlength
  have hfront : front.foldl (gather size make) ([], out) = (front, out) :=
    foldl_gather_of_length_lt (show ([] ++ front).length < size by simp; omega)
  have hfull : ¬ (front ++ [last]).length < size := by
    rw [length_append, length_singleton]
    omega
  rw [foldl_append, hfront]
  simp only [foldl_cons, foldl_nil, gather]
  rw [if_neg hfull]

/-- Items of which nothing can be made, whatever is added, are kept forever. -/
theorem foldl_gather_of_stuck (hstuck : ∀ more, more ⊆ items → make (held ++ more) = none) :
    (items.foldl (gather size make) (held, out)).2 = out := by
  induction items generalizing held with
  | nil => rfl
  | cons item rest ih =>
    have hnext : gather size make (held, out) item = (held ++ [item], out) := by
      have hnone : make (held ++ [item]) = none := hstuck [item] (by simp)
      simp [gather, hnone]
    rw [foldl_cons, hnext]
    apply ih
    intro more hmore
    rw [append_assoc]
    exact hstuck _ (cons_subset.mpr ⟨by simp, fun x hx => mem_cons_of_mem _ (hmore hx)⟩)

/-- What was made stays. -/
theorem foldl_gather_length (held items : List α) (out : List β) :
    out.length ≤ (items.foldl (gather size make) (held, out)).2.length := by
  induction items generalizing held out with
  | nil => rfl
  | cons item rest ih =>
    have hstep : out.length ≤ (gather size make (held, out) item).2.length := by
      unfold gather
      split
      · rfl
      · split
        · rfl
        · simp
    exact hstep.trans (ih _ _)

/-- Everything is made of a full batch of the items. -/
theorem foldl_gather_mem {product : β}
    (h : product ∈ (items.foldl (gather size make) (held, out)).2) :
    product ∈ out ∨ ∃ batch, batch ⊆ held ++ items ∧ size ≤ batch.length ∧
      make batch = some product := by
  induction items generalizing held out with
  | nil => exact .inl h
  | cons item rest ih =>
    rw [foldl_cons] at h
    have hkept : product ∈ (rest.foldl (gather size make) (held ++ [item], out)).2 →
        product ∈ out ∨ ∃ batch, batch ⊆ held ++ item :: rest ∧ size ≤ batch.length ∧
          make batch = some product := by
      intro h
      simpa using ih h
    unfold gather at h
    split at h
    · exact hkept h
    · rename_i hfull
      split at h
      · exact hkept h
      · rename_i made hmade
        rcases ih h with hout | ⟨batch, hbatch, hrest⟩
        · rcases mem_append.mp hout with hout | hnew
          · exact .inl hout
          · refine .inr ⟨held ++ [item], by simp, not_lt.mp hfull, ?_⟩
            rw [mem_singleton.mp hnew]
            exact hmade
        · exact .inr ⟨batch, fun x hx => by simpa using .inr (.inr (hbatch hx)), hrest⟩

section Pairwise

variable {R : α → α → Prop}
  (hmake : ∀ batch, (∃ product, make batch = some product) ↔
    2 ≤ batch.length ∧ batch.Pairwise R)

include hmake

/-- The first batch is used up if its items go together, and blocks all others if not. -/
theorem foldl_gather_first (hsize : 2 ≤ size) {items : List α} (hlength : size ≤ items.length)
    (out : List β) :
    ((items.take size).Pairwise R → ∃ product, items.foldl (gather size make) ([], out) =
      (items.drop size).foldl (gather size make) ([], out ++ [product])) ∧
    (¬ (items.take size).Pairwise R → (items.foldl (gather size make) ([], out)).2 = out) := by
  have htake : (items.take size).length = size := length_take_of_le hlength
  have hsplit : items.foldl (gather size make) ([], out) =
      (items.drop size).foldl (gather size make)
        ((items.take size).foldl (gather size make) ([], out)) := by
    rw [← foldl_append, take_append_drop]
  rw [hsplit, foldl_gather_of_length_eq htake (by omega)]
  constructor
  · intro hpairwise
    obtain ⟨product, hproduct⟩ := (hmake _).mpr ⟨hsize.trans_eq htake.symm, hpairwise⟩
    exact ⟨product, by rw [hproduct]⟩
  · intro hclash
    have hstuck : ∀ more, make (items.take size ++ more) = none := by
      intro more
      rw [Option.eq_none_iff_forall_ne_some]
      intro product hproduct
      exact hclash (pairwise_append.mp ((hmake _).mp ⟨product, hproduct⟩).2).1
    have hnone : make (items.take size) = none := by simpa using hstuck []
    rw [hnone]
    exact foldl_gather_of_stuck fun more _ => hstuck more

/-- Exactly one product is made if the first batch goes together and the second one is incomplete
or does not. -/
theorem foldl_gather_once_iff (hsize : 2 ≤ size) {items : List α}
    (hlength : size ≤ items.length) :
    (items.foldl (gather size make) ([], [])).2.length = 1 ↔
      (items.take size).Pairwise R ∧
        ¬ (2 * size ≤ items.length ∧ ((items.drop size).take size).Pairwise R) := by
  obtain ⟨hgood, hbad⟩ := foldl_gather_first hmake hsize hlength []
  by_cases hfirst : (items.take size).Pairwise R
  · obtain ⟨product, hproduct⟩ := hgood hfirst
    rw [hproduct]
    simp only [hfirst, true_and, nil_append]
    by_cases htwo : 2 * size ≤ items.length
    · have hdrop : size ≤ (items.drop size).length := by
        rw [length_drop]
        omega
      obtain ⟨hgood', hbad'⟩ := foldl_gather_first hmake hsize hdrop [product]
      simp only [htwo, true_and]
      by_cases hsecond : ((items.drop size).take size).Pairwise R
      · obtain ⟨product', hproduct'⟩ := hgood' hsecond
        have htwice : ([product] ++ [product']).length ≤ (((items.drop size).drop size).foldl
            (gather size make) ([], [product] ++ [product'])).2.length :=
          foldl_gather_length _ _ _
        rw [hproduct']
        simp only [hsecond, not_true_eq_false, iff_false]
        simp only [length_append, length_singleton] at htwice
        omega
      · rw [hbad' hsecond]
        simp [hsecond]
    · have hshort : ([] ++ items.drop size).length < size := by
        rw [nil_append, length_drop]
        omega
      rw [foldl_gather_of_length_lt hshort]
      simp [htwo]
  · rw [hbad hfirst]
    simp [hfirst]

end Pairwise

end Batches

/-! ### The kept votes -/

variable {votes : List (PartialCert Sig)} {α β : Type} {cert : PartialCert Sig}

theorem lookup_filter_of_key [BEq α] [LawfulBEq α] {key : α} {p : α × β → Bool}
    {entries : List (α × β)} (h : ∀ e ∈ entries, e.1 = key → p e = true) :
    (entries.filter p).lookup key = entries.lookup key := by
  induction entries with
  | nil => rfl
  | cons e rest ih =>
    obtain ⟨k, v⟩ := e
    have hrest := ih fun e' he' => h e' (mem_cons_of_mem _ he')
    by_cases hkey : k = key
    · have hp := h (k, v) (by simp) hkey
      subst hkey
      simp [hp]
    · have hne : (key == k) = false := beq_false_of_ne fun heq => hkey heq.symm
      rw [filter_cons]
      split <;> simp [lookup_cons, hne, hrest]

theorem lookup_filter_ne [DecidableEq α] (key : α) (entries : List (α × β)) :
    (entries.filter fun e => e.1 ≠ key).lookup key = none := by
  rw [lookup_eq_none_iff]
  intro e he
  have hne := of_decide_eq_true (mem_filter.mp he).2
  exact bne_iff_ne.mpr fun heq => hne heq.symm

namespace VotingMachine

variable (vm : VotingMachine Sig) {hash hash' : Hash} (votes : List (PartialCert Sig))

theorem votesFor_remove_self : (vm.remove hash).votesFor hash = [] := by
  rw [votesFor, remove, lookup_filter_ne]
  rfl

theorem votesFor_remove_of_ne (hne : hash ≠ hash') :
    (vm.remove hash').votesFor hash = vm.votesFor hash := by
  rw [votesFor, votesFor, remove, lookup_filter_of_key]
  intro e _ hkey
  simpa [hkey] using hne

theorem votesFor_setVotes_self : (vm.setVotes hash votes).votesFor hash = votes := by
  simp [votesFor, setVotes]

theorem votesFor_setVotes_of_ne (hne : hash ≠ hash') :
    (vm.setVotes hash' votes).votesFor hash = vm.votesFor hash := by
  rw [← votesFor_remove_of_ne vm hne]
  simp [votesFor, setVotes, lookup_cons, beq_false_of_ne hne]

/-- The cleanup spares the votes for a block that is known and newer than the leaf. -/
theorem votesFor_cleanup {block : Block Sig} {r : Replica Sig} (hvotable : Votable M block r) :
    (vm.cleanup M r).votesFor (block.hash M.S) = vm.votesFor (block.hash M.S) := by
  rw [votesFor, votesFor, cleanup, lookup_filter_of_key]
  intro e _ hkey
  rw [hkey, hvotable.stored]
  simpa using hvotable.aboveLeaf

end VotingMachine

/-! ### One vote -/

variable {M} {block : Block Sig} {r : Replica Sig} (vm : VotingMachine Sig)

/-- A known block is found, and stays known when other blocks are looked up. -/
theorem votable_getBlock (h : Votable M block r) (hash : Hash) :
    (getBlock M hash).wp
      (fun found r' => Votable M block r' ∧
        (∀ other, found = some other → r'.chain.localGet M.S hash = some other) ∧
        (hash = block.hash M.S → found = some block)) never r := by
  refine wp_imp (getBlock_spec M hash r) ?_
  rintro found r' ⟨hlooks, hget, hmissing, hkept⟩
  have hstored := hkept _ _ h.stored
  refine ⟨⟨hstored, by rw [hlooks.rest]; exact h.aboveLeaf⟩, hget, ?_⟩
  rintro rfl
  cases found with
  | none =>
    obtain ⟨hmem, hhash⟩ := mem_of_localGet h.stored
    exact absurd hhash (hmissing rfl block hmem)
  | some found => exact (hget found rfl).symm.trans hstored

/-- The check of a vote, of whatever block, leaves the known block known; a vote for that block is
checked against it. -/
theorem votable_verifyPartialCert (h : Votable M block r) (cert : PartialCert Sig) :
    (verifyPartialCert M cert).wp
      (fun ok r' => Votable M block r' ∧ (cert.blockHash = block.hash M.S →
        ok = M.crypto.verify cert.signature (block.toBytes M.S))) never r := by
  unfold verifyPartialCert
  refine wp_then (votable_getBlock h cert.blockHash) ?_
  rintro found r' ⟨hr', -, hknown⟩
  cases found with
  | none => exact ⟨hr', fun hhash => by cases hknown hhash⟩
  | some found =>
    have hsame := fun hhash => Option.some.inj (hknown hhash)
    simp only [verify]
    split
    · rename_i hvalid
      exact ⟨⟨hr'.stored, hr'.aboveLeaf⟩, fun hhash => by rw [← hsame hhash, hvalid]⟩
    · rename_i hinvalid
      exact ⟨hr', fun hhash => by rw [← hsame hhash, Bool.eq_false_iff.mpr hinvalid]⟩

/-- The certificate of a block names the block. -/
theorem createQuorumCert_hash {qc : QuorumCert Sig} (h : createQuorumCert M block votes = .ok qc) :
    qc.hash = block.hash M.S := by
  unfold createQuorumCert at h
  split at h
  · rename_i hhash
    cases h
    exact hhash.symm
  · split at h
    · cases h
    · cases h
      rfl

/-- The certificate that can be made of the votes for the block. -/
def certify (M : Modules Sig) (block : Block Sig) (votes : List (PartialCert Sig)) :
    Option (QuorumCert Sig) :=
  (createQuorumCert M block votes).toOption

/-- The verification of a vote, as seen from the known block: a valid vote for it is gathered, and
no other vote counts. -/
theorem VotingMachine.verifyCert_gathers (hvotable : Votable M block r) (vm : VotingMachine Sig)
    {other : Block Sig} (hother : other.hash M.S = cert.blockHash)
    (hsame : cert.blockHash = block.hash M.S → other = block) (out : List (QuorumCert Sig)) :
    (vm.verifyCert M cert other).wp
      (fun result _ => (result.1.votesFor (block.hash M.S),
        out ++ result.2.toList.filter fun qc => qc.hash = block.hash M.S) =
          if validVote M block cert then
            gather M.quorum (certify M block) (vm.votesFor (block.hash M.S), out) cert
          else (vm.votesFor (block.hash M.S), out)) never r := by
  unfold verifyCert
  refine wp_then (votable_verifyPartialCert hvotable cert) ?_
  intro ok r' hr'
  by_cases hhash : cert.blockHash = block.hash M.S
  · obtain rfl := hsame hhash
    have hvalid : validVote M other cert = ok := by simp [validVote, hhash, hr'.2 hhash]
    rw [hvalid]
    cases ok with
    | false => simp
    | true =>
      simp only [if_true, wp_bind, wp_get, gather, hhash]
      split
      · rw [wp_pure, votesFor_cleanup M _ hr'.1, votesFor_setVotes_self]
        simp
      · split
        · rename_i hqc
          rw [wp_pure, votesFor_cleanup M _ hr'.1, votesFor_setVotes_self]
          simp [certify, hqc, Except.toOption]
        · rename_i qc hqc
          rw [wp_pure, votesFor_cleanup M _ hr'.1, votesFor_remove_self]
          simp [certify, hqc, Except.toOption, createQuorumCert_hash hqc]
  · have hvalid : validVote M block cert = false := by simp [validVote, hhash]
    have hset := fun votes => votesFor_setVotes_of_ne vm votes (Ne.symm hhash)
    rw [hvalid]
    cases ok with
    | false => simp
    | true =>
      simp only [if_true, wp_bind, wp_get]
      split
      · rw [wp_pure, votesFor_cleanup M _ hr'.1, hset]
        simp
      · split
        · rw [wp_pure, votesFor_cleanup M _ hr'.1, hset]
          simp
        · rename_i qc hqc
          rw [wp_pure, votesFor_cleanup M _ hr'.1, votesFor_remove_of_ne _ (Ne.symm hhash), hset]
          simp [createQuorumCert_hash hqc, hother, hhash]

/-- A vote that is not too old is verified against the block found, and the known block is not too
old. -/
theorem fateOf_spec (hvotable : Votable M block r) {hash : Hash} {found : Block Sig}
    (hfound : r.chain.localGet M.S hash = some found) :
    (∀ other, r.fateOf found = .verify other → other.hash M.S = hash) ∧
      (hash = block.hash M.S → r.fateOf found = .verify block) := by
  constructor
  · intro other hother
    unfold Replica.fateOf at hother
    split at hother
    · cases hother
    · cases hother
      exact (mem_of_localGet hfound).2
  · intro hhash
    rw [hhash, hvotable.stored] at hfound
    cases hfound
    exact if_neg (UInt64.not_le.mpr hvotable.aboveLeaf)

/-- A vote is verified against a block with the hash that it names, and a vote for the known block
is verified. -/
theorem voteFate_spec (hvotable : Votable M block r) (vote : VoteMsg Sig) :
    (voteFate M vote).wp
      (fun fate _ =>
        (∀ other, fate = .verify other → other.hash M.S = vote.partialCert.blockHash) ∧
        (vote.partialCert.blockHash = block.hash M.S → fate = .verify block)) never r := by
  unfold voteFate
  split
  · refine wp_then (votable_getBlock hvotable _) ?_
    rintro found r' ⟨hr', hget, hknown⟩
    cases found with
    | none => exact ⟨by simp, fun hhash => by cases hknown hhash⟩
    | some found => exact fateOf_spec hr' (hget found rfl)
  · simp only [wp_bind, wp_get]
    split
    · rename_i hmissing
      refine ⟨by simp, fun hhash => ?_⟩
      rw [hhash, hvotable.stored] at hmissing
      cases hmissing
    · rename_i found hfound
      exact fateOf_spec hvotable hfound

/-- `OnVote` with synchronous verification is a delivery. -/
theorem VotingMachine.onVote_eq_deliver {vote : VoteMsg Sig}
    {result : VotingMachine Sig × Option (QuorumCert Sig)} {r' : Replica Sig}
    (h : (vm.onVote M vote).exec r = (.ok result, r')) :
    vm.deliver M ⟨vote, r, ((voteFate M vote).exec r).2⟩ = result := by
  obtain ⟨fate, r1, hfate, hrest⟩ := exec_bind_eq_ok.mp h
  unfold deliver
  rw [hfate]
  cases fate with
  | verify block =>
    dsimp only at hrest ⊢
    rw [hrest]
  | delayed vote =>
    cases hrest
    rfl
  | dropped =>
    cases hrest
    rfl

/-- One delivery, as seen from the votes and certificates of the block. -/
theorem VotingMachine.deliver_spec {d : VoteDelivery Sig}
    (harrival : Votable M block d.arrival) (hverification : Votable M block d.verification)
    (out : List (QuorumCert Sig)) :
    ((vm.deliver M d).1.votesFor (block.hash M.S),
      out ++ (vm.deliver M d).2.toList.filter fun qc => qc.hash = block.hash M.S) =
        if validVote M block d.vote.partialCert then
          gather M.quorum (certify M block) (vm.votesFor (block.hash M.S), out) d.vote.partialCert
        else (vm.votesFor (block.hash M.S), out) := by
  obtain ⟨fate, r1, hexec, hfate⟩ := exists_of_wp (voteFate_spec harrival d.vote)
  have hdropped : fate ≠ .verify block → validVote M block d.vote.partialCert = false := by
    intro hne
    simp [validVote, mt hfate.2 hne]
  unfold deliver
  rw [hexec]
  cases fate with
  | verify other =>
    have hsame (hhash : d.vote.partialCert.blockHash = block.hash M.S) : other = block := by
      cases hfate.2 hhash
      rfl
    obtain ⟨result, r2, hexec2, hresult⟩ :=
      exists_of_wp (vm.verifyCert_gathers hverification (hfate.1 other rfl) hsame out)
    dsimp only
    rw [hexec2]
    exact hresult
  | delayed vote => simp [hdropped nofun]
  | dropped => simp [hdropped nofun]

/-- The votes and certificates of the block are what the valid votes for it are gathered to. -/
theorem collect_eq_gather {deliveries : List (VoteDelivery Sig)}
    (hvotable : ∀ d ∈ deliveries, Votable M block d.arrival ∧ Votable M block d.verification) :
    ((VotingMachine.collect M deliveries).1.votesFor (block.hash M.S),
      certificatesFor M block deliveries) =
      (validVotes M block deliveries).foldl (gather M.quorum (certify M block)) ([], []) := by
  induction deliveries using reverseRecOn with
  | nil => rfl
  | append_singleton deliveries d ih =>
    have hprev := ih fun d' hd' => hvotable d' (mem_append_left _ hd')
    have hd := hvotable d (by simp)
    have hstep := (VotingMachine.collect M deliveries).1.deliver_spec hd.1 hd.2
      (certificatesFor M block deliveries)
    have hvotes : validVotes M block (deliveries ++ [d]) =
        validVotes M block deliveries ++ [d.vote.partialCert].filter (validVote M block) := by
      simp [validVotes]
    rw [hvotes, foldl_append, ← hprev]
    simp only [certificatesFor, VotingMachine.collect, foldl_append, foldl_cons,
      foldl_nil, filter_append] at hstep ⊢
    rw [hstep]
    split
    · rename_i hvalid
      simp [hvalid]
    · rename_i hinvalid
      simp [hinvalid]

/-! ### When exactly one certificate is made -/

theorem verify_of_validVotes (hvalid : ∀ vote ∈ votes, validVote M block vote = true) :
    ∀ part ∈ votes.map signature, M.crypto.verify part (block.toBytes M.S) = true := by
  intro part hpart
  obtain ⟨vote, hvote, rfl⟩ := mem_map.mp hpart
  exact (Bool.and_eq_true_iff.mp (hvalid vote hvote)).2

section Certify

variable (hlaw : M.crypto.Combining M.S)
  (hgenesis : block.hash M.S ≠ (genesis : Block Sig).hash M.S) {votes : List (PartialCert Sig)}
  {qc : QuorumCert Sig}

include hgenesis in
theorem certify_eq_some_iff :
    certify M block votes = some qc ↔
      ∃ sig, M.crypto.combine (votes.map signature) = .ok sig ∧
        qc = { signature := some sig, view := block.view, hash := block.hash M.S } := by
  unfold certify createQuorumCert
  rw [if_neg hgenesis]
  cases M.crypto.combine (votes.map signature) with
  | error err => simp [Except.toOption]
  | ok sig => simp [Except.toOption, eq_comm]

include hlaw hgenesis

/-- A certificate can be made of two or more votes if no signer voted twice. -/
theorem exists_certify_iff (votes : List (PartialCert Sig)) :
    (∃ qc, certify M block votes = some qc) ↔ 2 ≤ votes.length ∧ SeparateVotes M votes := by
  have hiff := hlaw.combine_iff (votes.map signature)
  rw [length_map, pairwise_map] at hiff
  simp only [certify_eq_some_iff hgenesis, SeparateVotes, ← hiff]
  constructor
  · rintro ⟨qc, sig, hsig, -⟩
    exact ⟨sig, hsig⟩
  · rintro ⟨sig, hsig⟩
    exact ⟨_, sig, hsig, rfl⟩

/-- A certificate made of valid votes is for the block and carries a valid signature with at least
as many participants. -/
theorem certify_sound (hvalid : ∀ vote ∈ votes, validVote M block vote = true)
    (h : certify M block votes = some qc) :
    qc.hash = block.hash M.S ∧ qc.view = block.view ∧ ∃ sig, qc.signature = some sig ∧
      votes.length ≤ (M.S.participants sig).card ∧
      M.crypto.verify sig (block.toBytes M.S) = true := by
  have hseparate := ((exists_certify_iff hlaw hgenesis votes).mp ⟨qc, h⟩).2
  obtain ⟨sig, hsig, rfl⟩ := (certify_eq_some_iff hgenesis).mp h
  have hparts := verify_of_validVotes hvalid
  refine ⟨rfl, rfl, sig, rfl, ?_, hlaw.verify _ sig _ hsig hparts⟩
  rw [← length_map (f := signature)]
  refine length_le_card_of_separate (pairwise_map.mpr hseparate)
    (fun part hpart => hlaw.nonempty part _ (hparts part hpart)) fun part hpart id hid => ?_
  exact (hlaw.participants _ sig hsig id).mpr ⟨part, hpart, hid⟩

end Certify

/-- Of valid votes without common signers there are at most as many as replicas. -/
theorem length_le_of_separateVotes (hlaw : M.crypto.Combining M.S) (hconfigured : ∀ sig message,
      M.crypto.verify sig message = true → M.S.participants sig ⊆ M.config)
    (hvalid : ∀ vote ∈ votes, validVote M block vote = true) (hseparate : SeparateVotes M votes) :
    votes.length ≤ M.config.card := by
  have hparts := verify_of_validVotes hvalid
  rw [← length_map (f := signature)]
  exact length_le_card_of_separate (pairwise_map.mpr hseparate)
    (fun part hpart => hlaw.nonempty part _ (hparts part hpart))
    fun part hpart => hconfigured part _ (hparts part hpart)

/-- Of the valid votes for a known block above the leaf, in the order of their verification, exactly
one certificate is made if and only if there are at least two replicas, no two of the first
`QuorumSize` votes share a signer, and the next `QuorumSize` votes are not there or two of them do.
Every certificate made is for the block and has a valid signature of a quorum. -/
theorem certificate_made_once_iff (hlaw : M.crypto.Combining M.S)
    (hconfigured : ∀ sig message, M.crypto.verify sig message = true →
      M.S.participants sig ⊆ M.config)
    (hgenesis : block.hash M.S ≠ (genesis : Block Sig).hash M.S)
    {deliveries : List (VoteDelivery Sig)}
    (hvotable : ∀ d ∈ deliveries, Votable M block d.arrival ∧ Votable M block d.verification)
    (hquorum : M.quorum ≤ (validVotes M block deliveries).length) :
    ((certificatesFor M block deliveries).length = 1 ↔
      2 ≤ M.config.card ∧ SeparateVotes M ((validVotes M block deliveries).take M.quorum) ∧
        ¬ (2 * M.quorum ≤ (validVotes M block deliveries).length ∧
          SeparateVotes M (((validVotes M block deliveries).drop M.quorum).take M.quorum))) ∧
    (∀ qc ∈ certificatesFor M block deliveries,
      qc.hash = block.hash M.S ∧ qc.view = block.view ∧ ∃ sig, qc.signature = some sig ∧
        M.quorum ≤ (M.S.participants sig).card ∧
        M.crypto.verify sig (block.toBytes M.S) = true) ∧
    (2 ≤ M.config.card → SeparateVotes M (validVotes M block deliveries) →
      (certificatesFor M block deliveries).length = 1) := by
  have hcollect : certificatesFor M block deliveries =
      ((validVotes M block deliveries).foldl (gather M.quorum (certify M block)) ([], [])).2 :=
    congrArg Prod.snd (collect_eq_gather hvotable)
  have hvalid : ∀ vote ∈ validVotes M block deliveries, validVote M block vote = true :=
    fun vote hvote => (mem_filter.mp hvote).2
  have hmake := exists_certify_iff hlaw hgenesis
  have hiff : (certificatesFor M block deliveries).length = 1 ↔
      2 ≤ M.config.card ∧ SeparateVotes M ((validVotes M block deliveries).take M.quorum) ∧
        ¬ (2 * M.quorum ≤ (validVotes M block deliveries).length ∧
          SeparateVotes M (((validVotes M block deliveries).drop M.quorum).take M.quorum)) := by
    by_cases hcard : 2 ≤ M.config.card
    · have hsize : 2 ≤ M.quorum := by
        unfold Modules.quorum quorumSize numFaulty
        omega
      rw [hcollect, foldl_gather_once_iff hmake hsize hquorum]
      simp only [hcard, true_and]
      rfl
    · -- A single replica cannot cast two votes without a common signer, and one vote alone is
      -- never combined.
      have hnone : certificatesFor M block deliveries = [] := by
        rw [hcollect]
        apply foldl_gather_of_stuck
        intro votes hvotes
        rw [Option.eq_none_iff_forall_ne_some]
        intro qc hqc
        obtain ⟨htwo, hseparate⟩ := (hmake _).mp ⟨qc, hqc⟩
        have hlength := length_le_of_separateVotes hlaw hconfigured
          (fun vote hvote => hvalid vote (hvotes hvote)) hseparate
        rw [nil_append] at htwo
        omega
      simp [hnone, hcard]
  refine ⟨hiff, ?_, ?_⟩
  · intro qc hqc
    rw [hcollect] at hqc
    rcases foldl_gather_mem hqc with hout | ⟨batch, hbatch, hsize, hcertify⟩
    · cases hout
    · obtain ⟨hhash, hview, sig, hsig, hcard, hverify⟩ :=
        certify_sound hlaw hgenesis (fun vote hvote => hvalid vote (hbatch hvote)) hcertify
      exact ⟨hhash, hview, sig, hsig, hsize.trans hcard, hverify⟩
  · intro hcard hseparate
    refine hiff.mpr ⟨hcard, List.Pairwise.sublist (take_sublist _ _) hseparate, ?_⟩
    rintro ⟨htwo, -⟩
    have hlength := length_le_of_separateVotes hlaw hconfigured hvalid hseparate
    unfold Modules.quorum quorumSize numFaulty at htwo
    omega

section SampleVotes

open Ecdsa

/-- The vote of a replica for the block at view 1, delivered to a replica that has the block. -/
def sampleVote (id : ID) : VoteDelivery Multi where
  vote :=
    { id := id
      partialCert :=
        { signer := id
          signature := ⟨[sampleSignature id (certifiedBlock.toBytes sampleModules.S)],
            List.nodup_singleton id⟩
          blockHash := certifiedBlock.hash sampleModules.S } }
  arrival := holdsCertified
  verification := holdsCertified

theorem sampleVote_votable {ids : List ID} :
    ∀ d ∈ ids.map sampleVote, Votable sampleModules certifiedBlock d.arrival ∧
      Votable sampleModules certifiedBlock d.verification := by
  have hvotable : Votable sampleModules certifiedBlock holdsCertified :=
    ⟨by decide +kernel, by decide +kernel⟩
  intro d hd
  obtain ⟨id, -, rfl⟩ := mem_map.mp hd
  exact ⟨hvotable, hvotable⟩

/-- With the vote of replica 1 delivered twice, the votes of three replicas lead to no certificate;
with their votes repeated after the certificate was made, there are two. All votes are valid. -/
theorem repeated_votes_block_certificate :
    ((validVotes sampleModules certifiedBlock ([1, 1, 2, 3].map sampleVote)).map
          signer = [1, 1, 2, 3] ∧
      (certificatesFor sampleModules certifiedBlock ([1, 1, 2, 3].map sampleVote)).length = 0) ∧
    ((validVotes sampleModules certifiedBlock ([1, 2, 3, 1, 2, 3].map sampleVote)).map
          signer = [1, 2, 3, 1, 2, 3] ∧
      (certificatesFor sampleModules certifiedBlock
        ([1, 2, 3, 1, 2, 3].map sampleVote)).length = 2) := by
  decide +kernel

/-- The votes of three different replicas lead to exactly one certificate. -/
theorem certificate_made_once_iff_distinct :
    (certificatesFor sampleModules certifiedBlock ([1, 2, 3].map sampleVote)).length = 1 := by
  have hseparate : SeparateVotes sampleModules
      (validVotes sampleModules certifiedBlock ([1, 2, 3].map sampleVote)) := by decide +kernel
  exact (certificate_made_once_iff (base_combining (sampleBase 1))
    (base_sound (sampleBase 1) _ fun _ => mem_of_sampleBase_replica).configured
    (by decide +kernel) sampleVote_votable (by decide +kernel)).2.2 (by decide) hseparate

end SampleVotes

end NimbleChain.HotStuff
