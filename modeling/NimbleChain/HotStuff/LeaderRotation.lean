import NimbleChain.HotStuff.VoteTree

/-!
# Leader rotation

`leaderrotation/carousel.go` draws the leader from the replicas whose votes certified the committed
head, without the authors of the last committed blocks. What `blockChain.Get` answers and the first
number of a seeded generator are parameters. `reputation.go` draws from the same voters with weights
that grow with the committed heads it has seen.
-/

namespace NimbleChain.HotStuff

open Finset Ecdsa List

variable {Sig : Type}

/-- `chooseRoundRobin`. -/
def chooseRoundRobin (view : View) (numReplicas : Nat) : ID :=
  (view % .ofNat numReplicas + 1).toUInt32

/-- The IDs of a configuration with `n` replicas. -/
def Configured (n : Nat) (id : ID) : Prop :=
  1 ≤ id.toNat ∧ id.toNat ≤ n

instance (n : Nat) (id : ID) : Decidable (Configured n id) :=
  inferInstanceAs (Decidable (_ ∧ _))

theorem chooseRoundRobin_configured {n : Nat} (hn : 1 ≤ n) (hids : n < 2 ^ 32) (view : View) :
    Configured n (chooseRoundRobin view n) := by
  have hsize : (UInt64.ofNat n).toNat = n := by
    rw [UInt64.toNat_ofNat']
    omega
  have hlt := Nat.mod_lt view.toNat hn
  have hone : (1 : UInt64).toNat = 1 := rfl
  unfold Configured chooseRoundRobin
  rw [UInt64.toNat_toUInt32, UInt64.toNat_add, UInt64.toNat_mod, hsize, hone]
  omega

namespace Carousel

variable [DecidableEq Sig] (S : Primitives Sig) (n : Nat) (get get' : Hash → Option (Block Sig))
  (rand : Int64 → Nat) (seed : Int64) (chainLength : View) (commitHead : Block Sig) (round : View)

/-- The authors of a block and of its ancestors, at most as many as given. -/
def lastAuthors : Nat → Block Sig → Finset ID
  | 0, _ => ∅
  | i + 1, block =>
    if block = genesis then ∅
    else insert block.proposer (match get block.parent with
      | none => ∅
      | some parent => lastAuthors i parent)

/-- The voters for the parent of the committed head who did not propose lately. -/
def candidates (sig : Sig) : Finset ID :=
  S.participants sig \ lastAuthors get (numFaulty n) commitHead

/-- `GetLeader`. Without candidates the remainder by zero panics. -/
def getLeader : Option ID :=
  match commitHead.cert.signature with
  | none => some (chooseRoundRobin round n)
  | some sig =>
    if commitHead.view ≠ round - chainLength then some (chooseRoundRobin round n)
    else
      let sorted := (candidates S n get commitHead sig).sort (· ≤ ·)
      sorted[rand (seed + round.toInt64) % sorted.length]?

/-- The draw among the candidates. -/
theorem getLeader_eq {sig : Sig} (hsig : commitHead.cert.signature = some sig)
    (hview : commitHead.view = round - chainLength) :
    getLeader S n get rand seed chainLength commitHead round =
      ((candidates S n get commitHead sig).sort (· ≤ ·))[rand (seed + round.toInt64) %
        (candidates S n get commitHead sig).card]? := by
  simp [getLeader, hsig, hview]

/-- The block a number of steps below another one. -/
def ancestor : Nat → Block Sig → Option (Block Sig)
  | 0, block => some block
  | k + 1, block => (get block.parent).bind (ancestor k)

theorem card_lastAuthors_le (i : Nat) (block : Block Sig) : (lastAuthors get i block).card ≤ i := by
  induction i generalizing block with
  | zero => exact Nat.le_refl 0
  | succ i ih =>
    unfold lastAuthors
    split
    · exact Nat.zero_le _
    · refine (card_insert_le _ _).trans (Nat.succ_le_succ ?_)
      cases get block.parent with
      | none => exact Nat.zero_le _
      | some parent => exact ih parent

theorem lastAuthors_congr {i : Nat} {block : Block Sig}
    (h : ∀ k ≤ i, ancestor get k block = ancestor get' k block) :
    lastAuthors get i block = lastAuthors get' i block := by
  induction i generalizing block with
  | zero => rfl
  | succ i ih =>
    have hparent : get block.parent = get' block.parent := by
      simpa [ancestor] using h 1 (by omega)
    unfold lastAuthors
    rw [hparent]
    cases hget : get' block.parent with
    | none => rfl
    | some parent =>
      have hrest : ∀ k ≤ i, ancestor get k parent = ancestor get' k parent := by
        intro k hk
        simpa [ancestor, hparent, hget] using h (k + 1) (by omega)
      simp only [ih hrest]

/-- A quorum of configured voters leaves a candidate, and all candidates are configured. -/
theorem candidates_of_quorum {sig : Sig} (hn : 1 ≤ n)
    (hconfigured : ∀ id ∈ S.participants sig, Configured n id)
    (hquorum : quorumSize n ≤ (S.participants sig).card) :
    (candidates S n get commitHead sig).Nonempty ∧
      ∀ id ∈ candidates S n get commitHead sig, Configured n id := by
  refine ⟨card_pos.mp ?_, fun id hid => hconfigured id (mem_sdiff.mp hid).1⟩
  have hauthors := card_lastAuthors_le get (numFaulty n) commitHead
  have hleft := le_card_sdiff (lastAuthors get (numFaulty n) commitHead) (S.participants sig)
  unfold candidates quorumSize numFaulty at *
  omega

/-- If `GetLeader` falls back to round-robin, or a quorum of configured replicas certifies the
committed head, it returns a configured replica, whatever is drawn. Replicas with the same committed
head and last ancestors get the same leader. -/
theorem leader_configured (hn : 1 ≤ n) (hids : n < 2 ^ 32) :
    ((∀ sig, commitHead.cert.signature = some sig → commitHead.view = round - chainLength →
        (∀ id ∈ S.participants sig, Configured n id) ∧
          quorumSize n ≤ (S.participants sig).card) →
      ∀ rand, ∃ leader, Configured n leader ∧
        getLeader S n get rand seed chainLength commitHead round = some leader) ∧
    (∀ sig, (∀ id ∈ S.participants sig, Configured n id) →
      quorumSize n ≤ (S.participants sig).card → (candidates S n get commitHead sig).Nonempty) ∧
    ((∀ k ≤ numFaulty n, ancestor get k commitHead = ancestor get' k commitHead) →
      ∀ rand, getLeader S n get rand seed chainLength commitHead round =
        getLeader S n get' rand seed chainLength commitHead round) := by
  refine ⟨?_, ?_, ?_⟩
  · intro hcertified rand
    have hrobin := chooseRoundRobin_configured hn hids round
    cases hsig : commitHead.cert.signature with
    | none => exact ⟨_, hrobin, by simp [getLeader, hsig]⟩
    | some sig =>
      by_cases hview : commitHead.view = round - chainLength
      · obtain ⟨hconfigured, hquorum⟩ := hcertified sig hsig hview
        obtain ⟨hne, hall⟩ := candidates_of_quorum S n get commitHead hn hconfigured hquorum
        have hlength := length_sort (· ≤ ·) (s := candidates S n get commitHead sig)
        have hlt := Nat.mod_lt (rand (seed + round.toInt64)) hne.card_pos
        rw [getLeader_eq S n get rand seed chainLength commitHead round hsig hview]
        rw [← hlength] at hlt ⊢
        exact ⟨_, hall _ ((mem_sort (· ≤ ·)).mp (getElem_mem hlt)), getElem?_eq_getElem hlt⟩
      · exact ⟨_, hrobin, by simp [getLeader, hsig, hview]⟩
  · intro sig hconfigured hquorum
    exact (candidates_of_quorum S n get commitHead hn hconfigured hquorum).1
  · intro hsame rand
    simp only [getLeader, candidates, lastAuthors_congr get get' hsame]

/-- A first block whose certificate for the genesis block carries a signature of one replica. -/
def headSignedBy (id : ID) : Block Multi :=
  blockOn genesis { genesisCert with signature := some ⟨[⟨4, 0, id⟩], by simp⟩ } 1 1

/-- Certificates for the genesis block are accepted with any signature. That of the author of the
head leaves no candidate, and that of a replica that is not configured makes it the leader. -/
theorem leader_not_configured :
    (∀ id r, (verifyQuorumCert (tagModules false) (headSignedBy id).cert).exec r = (.ok true, r)) ∧
    (∀ rand, getLeader tagPrimitives 4 (fun _ => some genesis) rand 0 3 (headSignedBy 4) 4 =
      none) ∧
    (∀ rand, getLeader tagPrimitives 4 (fun _ => some genesis) rand 0 3 (headSignedBy 7) 4 =
      some 7) ∧ ¬ Configured 4 7 := by
  have hnone : candidates tagPrimitives 4 (fun _ => some genesis) (headSignedBy 4)
      ⟨[⟨4, 0, 4⟩], by simp⟩ = ∅ := by decide +kernel
  have hforeign : candidates tagPrimitives 4 (fun _ => some genesis) (headSignedBy 7)
      ⟨[⟨4, 0, 7⟩], by simp⟩ = {7} := by decide +kernel
  refine ⟨fun id r => ?_, fun rand => ?_, fun rand => ?_, by decide⟩
  · have haccepted : verifyQuorumCert (tagModules false) (headSignedBy id).cert = pure true :=
      if_pos rfl
    rw [haccepted]
    rfl
  · rw [getLeader_eq _ _ _ _ _ _ _ _ rfl rfl, hnone]
    simp
  · rw [getLeader_eq _ _ _ _ _ _ _ _ rfl rfl, hforeign, card_singleton, Nat.mod_one]
    simp

/-- A head with the votes of three of four replicas has a leader, also where only its parent is
known. -/
theorem leader_configured_trunk :
    (∃ leader, Configured 4 leader ∧
      getLeader tagPrimitives 4 (fun _ => some trunk1) (fun _ => 5) 0 3 trunk2 5 =
        some leader) ∧
    getLeader tagPrimitives 4 (fun _ => some trunk1) (fun _ => 5) 0 3 trunk2 5 =
      getLeader tagPrimitives 4 (fun h => if h = trunk2.parent then some trunk1 else none)
        (fun _ => 5) 0 3 trunk2 5 := by
  have htheorem := leader_configured tagPrimitives 4 (fun _ => some trunk1)
    (fun h => if h = trunk2.parent then some trunk1 else none) 0 3 trunk2 5 (by decide) (by decide)
  constructor
  · refine htheorem.1 (fun sig hsig _ => ?_) fun _ => 5
    have hvoters : tagPrimitives.participants sig = {1, 2, 4} := by
      cases hsig
      decide +kernel
    exact ⟨by simp [hvoters, Configured], by simp [hvoters, quorumSize, numFaulty]⟩
  · refine htheorem.2.2 (fun k hk => ?_) fun _ => 5
    have hk : k ≤ 1 := hk
    interval_cases k
    · rfl
    · simp [ancestor]

end Carousel

namespace Reputation

/-- What the module relies on: the conversion to `uint` of a float out of range and the draw of
`weightedrand` among weighted IDs with a seeded generator. -/
structure Platform where
  outside : Float → Nat
  pick : List (ID × Nat) → Int64 → Option ID
  mem_of_pick : ∀ weights seed id, pick weights seed = some id → id ∈ weights.map Prod.fst
  pick_eq_none : ∀ weights seed, (weights.map Prod.snd).sum < 2 ^ 63 - 1 →
    (pick weights seed = none ↔ (weights.map Prod.snd).sum = 0)

/-- The conversion `uint`. -/
def Platform.toUint (P : Platform) (x : Float) : Nat :=
  if -1 < x ∧ x < 18446744073709551616 then x.toUInt64.toNat else P.outside x

/-- `repBased`. -/
structure RepBased (Sig : Type) where
  prevCommitHead : Block Sig
  reputations : ID → Float

/-- `NewRepBased`. -/
def newRepBased : RepBased Sig := ⟨genesis, fun _ => 0⟩

variable (P : Platform) (S : Primitives Sig) (n : Nat) (seed : Int64) (chainLength : View)

/-- The replicas whose votes certified the parent of a block. -/
def voters (block : Block Sig) : Finset ID :=
  block.cert.signature.elim ∅ S.participants

/-- What a call of `GetLeader` reads: the view, the committed head and the order in which the voters
come out of their map. -/
structure Call where
  view : View
  block : Block Sig
  order : List ID
  nodup_order : order.Nodup
  order_eq : order.toFinset = voters S block

/-- What a head adds to the reputation of its voters: their share above two thirds of the
replicas. -/
def share (block : Block Sig) : Float :=
  let frac := 2.0 / 3.0 * Float.ofNat n
  (Float.ofNat (voters S block).card - frac) / frac

/-- A new committed head raises its voters. -/
def count (r : RepBased Sig) (block : Block Sig) : RepBased Sig where
  prevCommitHead := block
  reputations id :=
    if id ∈ voters S block then r.reputations id + share S n block else r.reputations id

/-- Only a head above the previous one counts. -/
def update (r : RepBased Sig) (block : Block Sig) : RepBased Sig :=
  if r.prevCommitHead.view < block.view then count S n r block else r

/-- The weights of the voters. The comparison of the sort is never negative and moves none. -/
def weights (r : RepBased Sig) (order : List ID) : List (ID × Nat) :=
  order.map fun id => (id, P.toUint (r.reputations id * 10))

variable {S}

/-- The draw among the voters. -/
def draw (call : Call S) (r : RepBased Sig) : Option ID :=
  P.pick (weights P (update S n r call.block) call.order) (seed + call.view.toInt64)

/-- `GetLeader`. -/
def getLeader (call : Call S) (r : RepBased Sig) : ID × RepBased Sig :=
  if call.block.view > call.view - chainLength then (0, r)
  else if call.block.cert.signature.isNone then (chooseRoundRobin call.view n, r)
  else ((draw P n seed call r).getD 0, update S n r call.block)

/-- A replica after its calls so far. -/
def after (calls : List (Call S)) : RepBased Sig :=
  calls.foldl (fun r call => (getLeader P n seed chainLength call r).2) newRepBased

/-- Of the heads in a list, those above a view and above all before them. -/
def rising : View → List (Block Sig) → List (Block Sig)
  | _, [] => []
  | view, block :: blocks =>
    if view < block.view then block :: rising block.view blocks else rising view blocks

variable {P n seed chainLength}

/-- Counting heads skips those that are not above the previous one. -/
theorem foldl_update (blocks : List (Block Sig)) (r : RepBased Sig) :
    blocks.foldl (update S n) r =
      (rising r.prevCommitHead.view blocks).foldl (count S n) r := by
  induction blocks generalizing r with
  | nil => rfl
  | cons block blocks ih =>
    rw [foldl_cons, ih]
    by_cases hnew : r.prevCommitHead.view < block.view
    · simp [rising, update, hnew, count]
    · simp [rising, update, hnew]

end Reputation

end NimbleChain.HotStuff
