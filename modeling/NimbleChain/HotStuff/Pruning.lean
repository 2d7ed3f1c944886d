import NimbleChain.HotStuff.ChainAccess
import NimbleChain.HotStuff.StoredTree
import NimbleChain.Common.Execution

/-!
# Pruning the block chain

`PruneToHeight` of `blockchain.go` is called after each commit. It walks from the committed block
down to the height of the last pruning and notes the views it passes. Then it empties the index
`blockAtHeight` up to the new height and returns the blocks it finds there in views that it has not
noted: their commands go back to the fork handler. The index holds one block per view, so the
reports are right only if the replica stores one block per view, stores none at a height that was
already pruned, and commits along one branch.
-/

namespace NimbleChain.HotStuff.Pruning

open Common List UInt64 Option Function Ancestor

variable {Sig : Type}

/-- The index of the stored blocks by their views. -/
abbrev Index (Sig : Type) := View → Option (Block Sig)

/-- The fields of `blockChain` that pruning uses and the committed block of the consensus module.
The last field is for reasoning only. -/
structure State (Sig : Type) where
  chain : BlockChain Sig
  blockAtHeight : Index Sig
  pruneHeight : View
  /-- `consensus.CommittedBlock()`. -/
  committed : Block Sig
  /-- The blocks that calls of `PruneToHeight` have returned so far. -/
  forked : List (Block Sig)

/-- What happens to a block chain. A block that `Get` fetches is stored like a proposed one, before
the commit that fetches it. -/
inductive Action (Sig : Type) where
  | store (block : Block Sig)
  | commit (block : Block Sig)
  | prune (height : View)

namespace State

/-- `New`: the genesis block is stored, and it is the committed block. -/
def new : State Sig where
  chain := .new
  blockAtHeight := update (fun _ => none) 0 (some genesis)
  pruneHeight := 0
  committed := genesis
  forked := []

variable (S : Primitives Sig) (s : State Sig) (block : Block Sig)

/-- `Store`. -/
def store : State Sig :=
  { s with
    chain := s.chain.store block
    blockAtHeight := update s.blockAtHeight block.view (some block) }

/-- The first loop of `PruneToHeight`: the views that it adds to `committedViews` after `h`. It
passes a stored block in each turn; with more turns than blocks it does not end. -/
def committedViews : Nat → View → Option (List View)
  | 0, _ => none
  | n + 1, h =>
    if h < s.pruneHeight then some []
    else
      match s.blockAtHeight h with
      | none => some []
      | some block =>
        match s.chain.localGet S block.parent with
        | none => some []
        | some parent =>
          if parent.view < s.pruneHeight then some []
          else (committedViews n parent.view).map (parent.view :: ·)

/-- The second loop of `PruneToHeight`, for `n` heights from `h` down: the emptied index and the
blocks in views not noted. -/
def pruneLoop (views : List View) : Nat → View → Index Sig → Index Sig × List (Block Sig)
  | 0, _, index => (index, [])
  | n + 1, h, index =>
    let rest := pruneLoop views n (h - 1) (update index h none)
    (rest.1, (if h ∈ views then [] else (index h).toList) ++ rest.2)

/-- The rest of `PruneToHeight` once the views are noted; the blocks that it returns are appended to
`forked`. -/
def prunedTo (views : List View) (height : View) : State Sig :=
  let pruning := pruneLoop views (height.toNat - s.pruneHeight.toNat) height s.blockAtHeight
  { s with
    blockAtHeight := pruning.1
    pruneHeight := height
    forked := s.forked ++ pruning.2 }

/-- `PruneToHeight`. -/
def pruneToHeight (height : View) : Option (State Sig) :=
  (s.committedViews S (s.chain.blocks.length + 1) s.committed.view).map fun views =>
    s.prunedTo (s.committed.view :: views) height

/-- `commitInner`: whether all ancestors down to the view of the committed block are found. -/
def commitInner : Option Bool :=
  (s.chain.unexecuted S s.committed (s.chain.blocks.length + 1) block).map Option.isSome

/-- The committed block after a successful `commitInner`. -/
def commitTo : State Sig :=
  if block.view ≤ s.committed.view then s else { s with committed := block }

/-- `commit`: the chain is pruned to the view of the block, unless an ancestor is missing. -/
def commit : Option (State Sig) :=
  (s.commitInner S block).bind fun found =>
    if found then (s.commitTo block).pruneToHeight S block.view else some s

end State

open State

variable (S : Primitives Sig)

/-- The block chain of a replica; an action that does not return has no successor. -/
def machine : Machine (State Sig) (Action Sig) where
  init := .new
  step s
    | .store block => some (s.store block)
    | .commit block => s.commit S block
    | .prune height => s.pruneToHeight S height

/-! ## Branches -/

/-- What makes the stored blocks a tree with one block per view. -/
structure Tree (chain : BlockChain Sig) : Prop where
  /-- No two stored blocks have the same view. -/
  view_inj : ∀ b ∈ chain.blocks, ∀ b' ∈ chain.blocks, b.view = b'.view → b = b'
  hashes_apart : HashesApart S chain.blocks
  /-- A parent has a lower view than its child. -/
  parent_lt : ∀ b ∈ chain.blocks, ∀ p, IsParent S chain.blocks b p → p.view < b.view

instance [DecidableEq Sig] (chain : BlockChain Sig) : Decidable (Tree S chain) :=
  decidable_of_iff
    ((∀ b ∈ chain.blocks, ∀ b' ∈ chain.blocks, b.view = b'.view → b = b') ∧
      (∀ b ∈ chain.blocks, ∀ b' ∈ chain.blocks, b.hash S = b'.hash S → b = b') ∧
      ∀ b ∈ chain.blocks, ∀ p ∈ chain.blocks, p.hash S = b.parent → p.view < b.view)
    ⟨fun h => ⟨h.1, h.2.1, fun b hb p hp => h.2.2 b hb p hp.1 hp.2⟩,
      fun h => ⟨h.view_inj, h.hashes_apart, fun b hb p hp hhash => h.parent_lt b hb p ⟨hp, hhash⟩⟩⟩

variable {S} {chain : BlockChain Sig} {a b c p : Block Sig}

/-- A stored block is found under its hash. -/
theorem Tree.localGet_eq (htree : Tree S chain) (hparent : IsParent S chain.blocks b p) :
    chain.localGet S b.parent = some p := by
  obtain ⟨found, hfound⟩ : ∃ found, chain.localGet S b.parent = some found := by
    rw [← isSome_iff_exists, BlockChain.localGet, find?_isSome]
    exact ⟨p, hparent.1, decide_eq_true hparent.2⟩
  obtain ⟨hmem, hhash⟩ := mem_of_localGet hfound
  rw [hfound, htree.hashes_apart found hmem p hparent.1 (hhash.trans hparent.2.symm)]

theorem Tree.view_le (htree : Tree S chain) (h : Ancestor S chain.blocks a b)
    (hb : b ∈ chain.blocks) : a.view ≤ b.view := by
  induction h with
  | refl => exact UInt64.le_refl _
  | tail hab hparent ih =>
    have hlt := htree.parent_lt _ (mem hab hb) _ hparent
    exact UInt64.le_trans (UInt64.le_of_lt hlt) ih

/-- Of two ancestors of a block the one with the lower view is an ancestor of the other. -/
theorem Tree.ancestor_of_view_le (htree : Tree S chain) (hc : c ∈ chain.blocks)
    (ha : Ancestor S chain.blocks a c) (hb : Ancestor S chain.blocks b c) (hle : a.view ≤ b.view) :
    Ancestor S chain.blocks a b := by
  have hunique : Relator.RightUnique (IsParent S chain.blocks) :=
    fun _ _ _ h h' => htree.hashes_apart.parent_unique h h'
  rcases Relation.ReflTransGen.total_of_right_unique hunique ha hb with hab | hba
  · -- `b` is an ancestor of `a`, so their views are equal
    have hle' := htree.view_le hab (ha.mem hc)
    have heq := htree.view_inj a (ha.mem hc) b (hb.mem hc) (UInt64.le_antisymm hle hle')
    exact heq ▸ refl a
  · exact hba

/-! ## The invariant -/

/-- The block is indexed above the height of the last pruning. -/
def Live (s : State Sig) (b : Block Sig) : Prop :=
  s.blockAtHeight b.view = some b ∧ s.pruneHeight < b.view

/-- What pruning relies on, and what it has reported so far. -/
structure Inv (S : Primitives Sig) (s : State Sig) : Prop where
  tree : Tree S s.chain
  committed_mem : s.committed ∈ s.chain.blocks
  /-- The branch of the committed block is stored down to the genesis block. -/
  grounded : Grounded S s.chain.blocks s.committed
  index_sound : ∀ v b, s.blockAtHeight v = some b → b ∈ s.chain.blocks ∧ b.view = v
  /-- On the branch of the committed block everything above a live block is indexed. -/
  live_up : ∀ a a', Ancestor S s.chain.blocks a a' → Ancestor S s.chain.blocks a' s.committed →
    Live s a → s.blockAtHeight a'.view = some a'
  forked_nodup : s.forked.Nodup
  forked_abandoned : ∀ b ∈ s.forked,
    b ∈ s.chain.blocks ∧ ¬Live s b ∧ ¬Ancestor S s.chain.blocks b s.committed
  abandoned_forked : ∀ b ∈ s.chain.blocks,
    Live s b ∨ Ancestor S s.chain.blocks b s.committed ∨ b ∈ s.forked

/-- The number of stored blocks below a view. -/
def below (chain : BlockChain Sig) (v : View) : Nat :=
  chain.blocks.countP fun b => b.view < v

/-- A stored block is not below itself. -/
theorem below_lt_of_le {v : View} {bound : Block Sig → Bool} (hp : p ∈ chain.blocks)
    (hbound : bound p = true) (hv : ∀ b, b.view < p.view → bound b = true) (hle : v ≤ p.view) :
    below chain v < chain.blocks.countP bound := by
  obtain ⟨before, after, hsplit⟩ := append_of_mem hp
  have hmono : ∀ l : List (Block Sig), l.countP (fun b => b.view < v) ≤ l.countP bound :=
    fun l => countP_mono_left fun b _ hb =>
      hv b (UInt64.lt_of_lt_of_le (of_decide_eq_true hb) hle)
  have hself : ¬p.view < v := UInt64.not_lt.mpr hle
  have hbefore := hmono before
  have hafter := hmono after
  simp only [below, hsplit, countP_append, countP_cons, hbound, hself, decide_false]
  simp only [Bool.false_eq_true, if_false, if_true]
  omega

theorem below_lt_below (hp : p ∈ chain.blocks) (hlt : p.view < b.view) :
    below chain p.view < below chain b.view :=
  below_lt_of_le hp (decide_eq_true hlt)
    (fun _ hc => decide_eq_true (UInt64.lt_trans hc hlt)) (UInt64.le_refl _)

theorem below_lt_length (hp : p ∈ chain.blocks) : below chain p.view < chain.blocks.length := by
  have h : below chain p.view < chain.blocks.countP fun _ => true :=
    below_lt_of_le hp rfl (fun _ _ => rfl) (UInt64.le_refl _)
  rwa [countP_true] at h

/-! ## The first loop -/

variable {s : State Sig}

/-- From an ancestor of the committed block the first loop ends. It notes views of ancestors only,
and those of all live ones. -/
theorem Inv.committedViews_spec (hinv : Inv S s) {n : Nat}
    (ha : Ancestor S s.chain.blocks a s.committed) (hn : below s.chain a.view < n) :
    ∃ views, s.committedViews S n a.view = some views ∧
      (∀ v ∈ views, ∃ a', Ancestor S s.chain.blocks a' s.committed ∧ a'.view = v) ∧
      ∀ a', Ancestor S s.chain.blocks a' a → Live s a' → a'.view ∈ a.view :: views := by
  induction n generalizing a with
  | zero => exact absurd hn (Nat.not_lt_zero _)
  | succ n ih =>
    have hmem := ha.mem hinv.committed_mem
    -- the loop stops where no ancestor below `a` is live
    have hstop : (∀ a', Ancestor S s.chain.blocks a' a → Live s a' → a' = a) →
        ∃ views, (some [] : Option (List View)) = some views ∧
          (∀ v ∈ views, ∃ a', Ancestor S s.chain.blocks a' s.committed ∧ a'.view = v) ∧
          ∀ a', Ancestor S s.chain.blocks a' a → Live s a' → a'.view ∈ a.view :: views := by
      intro hself
      refine ⟨[], rfl, fun v hv => absurd hv not_mem_nil, fun a' ha' hlive => ?_⟩
      rw [hself a' ha' hlive]
      exact mem_singleton_self _
    have hlow : ∀ {c a' : Block Sig}, c ∈ s.chain.blocks → c.view < s.pruneHeight →
        Ancestor S s.chain.blocks a' c → ¬Live s a' := fun hc hlt ha' hlive =>
      absurd (UInt64.lt_of_le_of_lt (hinv.tree.view_le ha' hc) hlt)
        (UInt64.not_lt.mpr (UInt64.le_of_lt hlive.2))
    rw [committedViews]
    split
    · rename_i hprune
      exact hstop fun a' ha' hlive => absurd hlive (hlow hmem hprune ha')
    split
    · rename_i hnone
      refine hstop fun a' ha' hlive => ?_
      rw [hinv.live_up a' a ha' ha hlive] at hnone
      cases hnone
    · rename_i block hblock
      obtain ⟨hblockMem, hblockView⟩ := hinv.index_sound _ _ hblock
      obtain rfl := hinv.tree.view_inj block hblockMem a hmem hblockView
      split
      · rename_i hmissing
        refine hstop fun a' ha' _ => ?_
        rcases Relation.ReflTransGen.cases_head ha' with heq | ⟨p, hp, -⟩
        · exact heq.symm
        · rw [hinv.tree.localGet_eq hp] at hmissing
          cases hmissing
      · rename_i parent hparent
        have hstored : IsParent S s.chain.blocks block parent := mem_of_localGet hparent
        have hlt := hinv.tree.parent_lt block hmem parent hstored
        split
        · rename_i hbelow
          refine hstop fun a' ha' hlive => ?_
          rcases ha'.cases_parent hinv.tree.hashes_apart hstored with heq | hup
          · exact heq
          · exact absurd hlive (hlow hstored.1 hbelow hup)
        · have hanc : Ancestor S s.chain.blocks parent s.committed := ha.tail hstored
          have hfuel := below_lt_below hstored.1 hlt
          obtain ⟨views, hviews, hsound, hcomplete⟩ := ih hanc (by omega)
          refine ⟨parent.view :: views, by rw [hviews]; rfl, ?_, ?_⟩
          · intro v hv
            rcases mem_cons.mp hv with rfl | hv
            · exact ⟨parent, hanc, rfl⟩
            · exact hsound v hv
          · intro a' ha' hlive
            rcases ha'.cases_parent hinv.tree.hashes_apart hstored with rfl | hup
            · exact mem_cons_self
            · exact mem_cons_of_mem _ (hcomplete a' hup hlive)

/-- Among the live blocks the first loop notes the views of exactly the ancestors of the committed
block. -/
theorem Inv.exists_committedViews (hinv : Inv S s) :
    ∃ views, s.committedViews S (s.chain.blocks.length + 1) s.committed.view = some views ∧
      ∀ b, Live s b →
        (b.view ∈ s.committed.view :: views ↔ Ancestor S s.chain.blocks b s.committed) := by
  have hfuel := below_lt_length hinv.committed_mem
  obtain ⟨views, hviews, hsound, hcomplete⟩ :=
    hinv.committedViews_spec (refl s.committed) (Nat.lt_succ_of_lt hfuel)
  refine ⟨views, hviews, fun b hlive => ⟨fun hnoted => ?_, fun hanc => hcomplete b hanc hlive⟩⟩
  obtain ⟨a, ha, hview⟩ : ∃ a, Ancestor S s.chain.blocks a s.committed ∧ a.view = b.view := by
    rcases mem_cons.mp hnoted with heq | hmem
    · exact ⟨s.committed, refl _, heq.symm⟩
    · exact hsound b.view hmem
  have hb := (hinv.index_sound _ _ hlive.1).1
  rw [← hinv.tree.view_inj a (ha.mem hinv.committed_mem) b hb hview]
  exact ha

/-! ## The second loop -/

section SecondLoop

variable {views : List View} {n : Nat} {h : View} {index : Index Sig}

theorem toNat_sub_one {h : View} {n : Nat} (hn : n + 1 ≤ h.toNat) :
    (h - 1).toNat = h.toNat - 1 := by
  have hle : 1 ≤ h := le_iff_toNat_le.mpr (by simpa using Nat.le_of_add_left_le hn)
  simpa using UInt64.toNat_sub_of_le h 1 hle

/-- The second loop empties the heights it passes and no others. -/
theorem pruneLoop_index (hn : n ≤ h.toNat) (v : View) :
    (pruneLoop views n h index).1 v =
      if h.toNat - n < v.toNat ∧ v.toNat ≤ h.toNat then none else index v := by
  induction n generalizing h index with
  | zero =>
    have hno : ¬(h.toNat - 0 < v.toNat ∧ v.toNat ≤ h.toNat) := by omega
    rw [if_neg hno]
    rfl
  | succ n ih =>
    have hpred := toNat_sub_one hn
    rw [pruneLoop, ih (by omega), hpred]
    by_cases heq : v = h
    · subst heq
      rw [update_self, ite_self, if_pos (by omega)]
    · have hne : v.toNat ≠ h.toNat := fun hnat => heq (UInt64.toNat_inj.mp hnat)
      rw [update_of_ne heq]
      exact if_congr (by omega) rfl rfl

/-- The second loop returns the blocks of the heights it passes whose views are not noted. -/
theorem mem_pruneLoop (hn : n ≤ h.toNat) :
    b ∈ (pruneLoop views n h index).2 ↔
      ∃ v : View, h.toNat - n < v.toNat ∧ v.toNat ≤ h.toNat ∧ v ∉ views ∧ index v = some b := by
  induction n generalizing h index with
  | zero =>
    simp only [pruneLoop, not_mem_nil, false_iff]
    rintro ⟨v, hlow, hhigh, -⟩
    omega
  | succ n ih =>
    have hpred := toNat_sub_one hn
    rw [pruneLoop, mem_append, ih (by omega), hpred]
    constructor
    · rintro (htop | ⟨v, hlow, hhigh, hnot, hv⟩)
      · split at htop
        · cases htop
        · exact ⟨h, by omega, Nat.le_refl _, by assumption, mem_toList.mp htop⟩
      · have hne : v ≠ h := fun heq => by subst heq; omega
        rw [update_of_ne hne] at hv
        exact ⟨v, by omega, by omega, hnot, hv⟩
    · rintro ⟨v, hlow, hhigh, hnot, hv⟩
      by_cases heq : v = h
      · subst heq
        rw [if_neg hnot]
        exact .inl (mem_toList.mpr hv)
      · have hne : v.toNat ≠ h.toNat := fun hnat => heq (UInt64.toNat_inj.mp hnat)
        refine .inr ⟨v, by omega, by omega, hnot, ?_⟩
        rwa [update_of_ne heq]

/-- When the index holds each block at its own view, the second loop returns no block twice. -/
theorem nodup_pruneLoop (hn : n ≤ h.toNat) (hindex : ∀ v b, index v = some b → b.view = v) :
    (pruneLoop views n h index).2.Nodup := by
  induction n generalizing h index with
  | zero => exact nodup_nil
  | succ n ih =>
    have hpred := toNat_sub_one hn
    have hupdated : ∀ v b, update index h none v = some b → b.view = v := by
      intro v b hv
      by_cases heq : v = h
      · rw [heq, update_self] at hv
        cases hv
      · rw [update_of_ne heq] at hv
        exact hindex v b hv
    refine List.Nodup.append ?_ (ih (by omega) hupdated) fun b htop hrest => ?_
    · split
      · exact nodup_nil
      · cases index h with
        | none => exact nodup_nil
        | some b => exact nodup_singleton b
    · obtain ⟨v, -, hhigh, -, hv⟩ := (mem_pruneLoop (by omega)).mp hrest
      have hview := hupdated v b hv
      split at htop
      · cases htop
      · rw [← hview, hindex h b (mem_toList.mp htop)] at hhigh
        omega

end SecondLoop

/-! ## The steps -/

/-- The condition under which the reports are right. The stored blocks form a tree with one block
per view. A new block is stored above the last pruning, and one that is stored again is still
indexed or not above it. A commit extends the committed block by blocks that were not pruned. No
pruning goes back below the height of an indexed block. -/
def Orderly (S : Primitives Sig) (s : State Sig) : Action Sig → Prop
  | .store block =>
    Tree S (s.chain.store block) ∧
      (block ∉ s.chain.blocks → s.pruneHeight < block.view) ∧
      (block ∈ s.chain.blocks →
        s.blockAtHeight block.view = some block ∨ block.view ≤ s.pruneHeight)
  | .commit block =>
    s.commitInner S block = some true →
      (∀ v, block.view < v → v ≤ s.pruneHeight → s.blockAtHeight v = none) ∧
      (s.committed.view < block.view →
        block ∈ s.chain.blocks ∧ Ancestor S s.chain.blocks s.committed block ∧
        ∀ a, Ancestor S s.chain.blocks a block → s.committed.view < a.view → Live s a)
  | .prune height => ∀ v, height < v → v ≤ s.pruneHeight → s.blockAtHeight v = none

/-- Blocks stay stored, and what is committed extends what was committed before. -/
structure Extends (S : Primitives Sig) (s s' : State Sig) : Prop where
  blocks : s.chain.blocks ⊆ s'.chain.blocks
  committed : Ancestor S s'.chain.blocks s.committed s'.committed

theorem Extends.refl (s : State Sig) : Extends S s s :=
  ⟨List.Subset.refl _, Ancestor.refl _⟩

theorem Extends.trans {s s' s'' : State Sig} (h : Extends S s s') (h' : Extends S s' s'') :
    Extends S s s'' :=
  ⟨fun _ hb => h'.blocks (h.blocks hb), (h.committed.mono h'.blocks).trans h'.committed⟩

/-- A new block chain is in order, unless the genesis block is its own parent. -/
theorem inv_new (hgenesis : (genesis : Block Sig).hash S ≠ Hash.zero) :
    Inv S (new : State Sig) where
  tree :=
    { view_inj := fun b hb b' hb' _ => by
        rw [mem_singleton.mp hb, mem_singleton.mp hb']
      hashes_apart := fun b hb b' hb' _ => by
        rw [mem_singleton.mp hb, mem_singleton.mp hb']
      parent_lt := fun b hb p hp => by
        have hhash := hp.2
        rw [mem_singleton.mp hb, mem_singleton.mp hp.1] at hhash
        exact absurd hhash hgenesis }
  committed_mem := mem_singleton_self _
  grounded a ha := .inl (mem_singleton.mp (ha.mem (mem_singleton_self _)))
  index_sound v b h := by
    have hupdate : update (fun _ : View => none) 0 (some genesis) v = some b := h
    by_cases hv : v = 0
    · rw [hv, update_self] at hupdate
      rw [← some.inj hupdate, hv]
      exact ⟨mem_singleton_self _, rfl⟩
    · rw [update_of_ne hv] at hupdate
      cases hupdate
  live_up a a' ha ha' hlive := by
    have hmem := mem_singleton.mp (ha.mem (ha'.mem (mem_singleton_self _)))
    have hlt := hlive.2
    rw [hmem] at hlt
    exact absurd hlt (UInt64.lt_irrefl _)
  forked_nodup := nodup_nil
  forked_abandoned b hb := absurd hb not_mem_nil
  abandoned_forked b hb := by
    rw [mem_singleton.mp hb]
    exact .inr (.inl (refl _))

/-- Nothing is stored below the genesis block. -/
theorem Tree.not_isParent_genesis (htree : Tree S chain) (p : Block Sig) :
    ¬IsParent S chain.blocks genesis p := fun hp =>
  absurd (htree.parent_lt genesis chain.genesis_mem p hp) (UInt64.not_lt.mpr UInt64.zero_le)

theorem Inv.store (hinv : Inv S s) (hok : Orderly S s (.store b)) : Inv S (s.store b) := by
  obtain ⟨htree, hfresh, hagain⟩ := hok
  have hsub : s.chain.blocks ⊆ (s.chain.store b).blocks := subset_cons_self _ _
  have hself : b ∈ (s.chain.store b).blocks := mem_cons_self
  have hnew : (s.store b).blockAtHeight b.view = some b := update_self _ _ _
  have hindex : ∀ v, v ≠ b.view → (s.store b).blockAtHeight v = s.blockAtHeight v :=
    fun v hne => update_of_ne hne _ _
  have hbranch : ∀ a, Ancestor S (s.store b).chain.blocks a s.committed ↔
      Ancestor S s.chain.blocks a s.committed := fun a =>
    hinv.grounded.ancestor_iff hsub htree.hashes_apart htree.not_isParent_genesis
  -- the stored blocks that are live afterwards were live before
  have hlive : ∀ c ∈ s.chain.blocks, Live (s.store b) c ↔ Live s c := by
    intro c hc
    by_cases hv : c.view = b.view
    · obtain rfl := htree.view_inj c (hsub hc) b hself hv
      exact ⟨fun h => ⟨(hagain hc).resolve_right (UInt64.not_le.mpr h.2), h.2⟩,
        fun h => ⟨hnew, h.2⟩⟩
    · rw [Live, hindex c.view hv]
      rfl
  exact
    { tree := htree
      committed_mem := hsub hinv.committed_mem
      grounded := hinv.grounded.mono hsub fun a => (hbranch a).mp
      index_sound := fun v c hc => by
        by_cases hv : v = b.view
        · rw [hv, hnew] at hc
          rw [← some.inj hc]
          exact ⟨hself, hv.symm⟩
        · rw [hindex v hv] at hc
          obtain ⟨hmem, heq⟩ := hinv.index_sound v c hc
          exact ⟨hsub hmem, heq⟩
      live_up := fun a a' ha ha' hup => by
        have hold := (hbranch a').mp ha'
        have hmem := hold.mem hinv.committed_mem
        have hfirst := (hbranch a).mp (ha.trans ha')
        have hdown := hinv.tree.ancestor_of_view_le hinv.committed_mem hfirst hold
          (htree.view_le ha (hsub hmem))
        have hbefore := (hlive a (hfirst.mem hinv.committed_mem)).mp hup
        by_cases hv : a'.view = b.view
        · rw [htree.view_inj a' (hsub hmem) b hself hv, hnew]
        · rw [hindex a'.view hv]
          exact hinv.live_up a a' hdown hold hbefore
      forked_nodup := hinv.forked_nodup
      forked_abandoned := fun c hc => by
        obtain ⟨hmem, hdead, hnot⟩ := hinv.forked_abandoned c hc
        exact ⟨hsub hmem, mt (hlive c hmem).mp hdead, mt (hbranch c).mp hnot⟩
      abandoned_forked := fun c hc => by
        by_cases hold : c ∈ s.chain.blocks
        · rcases hinv.abandoned_forked c hold with hc | hc | hc
          · exact .inl ((hlive c hold).mpr hc)
          · exact .inr (.inl ((hbranch c).mpr hc))
          · exact .inr (.inr hc)
        · obtain rfl := (mem_cons.mp hc).resolve_right hold
          exact .inl ⟨hnew, hfresh hold⟩ }

section PrunedTo

variable {views : List View} {height : View}

/-- The heights that the second loop passes. -/
theorem passed_iff {low v : View} :
    height.toNat - (height.toNat - low.toNat) < v.toNat ∧ v.toNat ≤ height.toNat ↔
      low < v ∧ v ≤ height := by
  rw [lt_iff_toNat_lt, le_iff_toNat_le]
  omega

theorem prunedTo_index (v : View) :
    (s.prunedTo views height).blockAtHeight v =
      if s.pruneHeight < v ∧ v ≤ height then none else s.blockAtHeight v :=
  (pruneLoop_index (Nat.sub_le _ _) v).trans (if_congr passed_iff rfl rfl)

theorem mem_prunedTo_forked :
    b ∈ (s.prunedTo views height).forked ↔
      b ∈ s.forked ∨
        ∃ v, s.pruneHeight < v ∧ v ≤ height ∧ v ∉ views ∧ s.blockAtHeight v = some b := by
  rw [prunedTo, mem_append, mem_pruneLoop (Nat.sub_le _ _)]
  simp only [← and_assoc, passed_iff]

/-- The live blocks above the height stay live, and there are no others. -/
theorem live_prunedTo_iff
    (hclear : ∀ v, height < v → v ≤ s.pruneHeight → s.blockAtHeight v = none) :
    Live (s.prunedTo views height) b ↔ Live s b ∧ height < b.view := by
  have hindex : height < b.view →
      (s.prunedTo views height).blockAtHeight b.view = s.blockAtHeight b.view := fun hlt => by
    rw [prunedTo_index, if_neg fun h => absurd h.2 (UInt64.not_le.mpr hlt)]
  constructor
  · rintro ⟨hb, hlt⟩
    rw [hindex hlt] at hb
    refine ⟨⟨hb, UInt64.not_le.mp fun hle => ?_⟩, hlt⟩
    rw [hclear b.view hlt hle] at hb
    cases hb
  · rintro ⟨⟨hb, -⟩, hlt⟩
    exact ⟨(hindex hlt).trans hb, hlt⟩

end PrunedTo

section

variable (hinv : Inv S s)

include hinv

/-- Pruning keeps the invariant if, among the live blocks, the views of the ancestors are noted. -/
theorem Inv.prunedTo {views : List View} {height : View}
    (hnoted : ∀ b, Live s b → (b.view ∈ views ↔ Ancestor S s.chain.blocks b s.committed))
    (hclear : ∀ v, height < v → v ≤ s.pruneHeight → s.blockAtHeight v = none) :
    Inv S (s.prunedTo views height) where
  tree := hinv.tree
  committed_mem := hinv.committed_mem
  grounded := hinv.grounded
  index_sound v b hb := by
    rw [prunedTo_index] at hb
    split at hb
    · cases hb
    · exact hinv.index_sound v b hb
  live_up a a' ha ha' hlive := by
    obtain ⟨hold, hlt⟩ := (live_prunedTo_iff hclear).mp hlive
    have hhigh := UInt64.lt_of_lt_of_le hlt (hinv.tree.view_le ha (ha'.mem hinv.committed_mem))
    rw [prunedTo_index, if_neg fun h => absurd h.2 (UInt64.not_le.mpr hhigh)]
    exact hinv.live_up a a' ha ha' hold
  forked_nodup := by
    have hnew : (pruneLoop views (height.toNat - s.pruneHeight.toNat) height
        s.blockAtHeight).2.Nodup :=
      nodup_pruneLoop (Nat.sub_le _ _) fun v b hb => (hinv.index_sound v b hb).2
    refine List.Nodup.append hinv.forked_nodup hnew fun b hold hb => ?_
    obtain ⟨v, hlow, hhigh, -, hindex⟩ := (mem_pruneLoop (Nat.sub_le _ _)).mp hb
    obtain rfl := (hinv.index_sound v b hindex).2
    exact (hinv.forked_abandoned b hold).2.1 ⟨hindex, (passed_iff.mp ⟨hlow, hhigh⟩).1⟩
  forked_abandoned b hb := by
    rcases mem_prunedTo_forked.mp hb with hold | ⟨v, hlow, hhigh, hnot, hindex⟩
    · obtain ⟨hmem, hdead, hanc⟩ := hinv.forked_abandoned b hold
      exact ⟨hmem, fun h => hdead ((live_prunedTo_iff hclear).mp h).1, hanc⟩
    · obtain ⟨hmem, rfl⟩ := hinv.index_sound v b hindex
      refine ⟨hmem, fun h => ?_, mt (hnoted b ⟨hindex, hlow⟩).mpr hnot⟩
      exact absurd hhigh (UInt64.not_le.mpr h.2)
  abandoned_forked b hb := by
    rcases hinv.abandoned_forked b hb with hlive | hanc | hforked
    · by_cases hlt : height < b.view
      · exact .inl ((live_prunedTo_iff hclear).mpr ⟨hlive, hlt⟩)
      by_cases hview : b.view ∈ views
      · exact .inr (.inl ((hnoted b hlive).mp hview))
      · refine .inr (.inr (mem_prunedTo_forked.mpr (.inr ?_)))
        exact ⟨b.view, hlive.2, UInt64.not_lt.mp hlt, hview, hlive.1⟩
    · exact .inr (.inl hanc)
    · exact .inr (.inr (mem_prunedTo_forked.mpr (.inl hforked)))

/-- Pruning returns and keeps the invariant. -/
theorem Inv.pruneToHeight {height : View} (hok : Orderly S s (.prune height)) :
    ∃ s', s.pruneToHeight S height = some s' ∧ Inv S s' ∧ Extends S s s' := by
  obtain ⟨views, hviews, hnoted⟩ := hinv.exists_committedViews
  refine ⟨s.prunedTo (s.committed.view :: views) height, ?_, hinv.prunedTo hnoted hok, ?_⟩
  · rw [State.pruneToHeight, hviews, map_some]
  · exact ⟨List.Subset.refl _, refl _⟩

/-- The walk of `commitInner` returns. -/
theorem Inv.exists_unexecuted {n : Nat}
    (hn : ∀ p, IsParent S s.chain.blocks b p → below s.chain p.view < n) :
    ∃ found, s.chain.unexecuted S s.committed (n + 1) b = some found := by
  induction n generalizing b with
  | zero =>
    rw [BlockChain.unexecuted]
    split
    · exact ⟨_, rfl⟩
    · split
      · exact ⟨_, rfl⟩
      · rename_i parent hparent
        exact absurd (hn parent (mem_of_localGet hparent)) (Nat.not_lt_zero _)
  | succ n ih =>
    rw [BlockChain.unexecuted]
    split
    · exact ⟨_, rfl⟩
    · split
      · exact ⟨_, rfl⟩
      · rename_i parent hparent
        have hstored : IsParent S s.chain.blocks b parent := mem_of_localGet hparent
        obtain ⟨found, hfound⟩ := ih fun p hp => by
          have hlt := below_lt_below hp.1 (hinv.tree.parent_lt parent hstored.1 p hp)
          exact Nat.lt_of_lt_of_le hlt (Nat.le_of_lt_succ (hn parent hstored))
        exact ⟨_, congrArg _ hfound⟩

/-- A commit on the same branch keeps the invariant if the new blocks of the branch are live. -/
theorem Inv.commitTo
    (hext : s.committed.view < b.view → b ∈ s.chain.blocks ∧
      Ancestor S s.chain.blocks s.committed b ∧
      ∀ a, Ancestor S s.chain.blocks a b → s.committed.view < a.view → Live s a) :
    Inv S (s.commitTo b) ∧ Extends S s (s.commitTo b) := by
  unfold State.commitTo
  split
  · exact ⟨hinv, Extends.refl s⟩
  rename_i hnew
  obtain ⟨hb, hanc, hfresh⟩ := hext (UInt64.not_le.mp hnew)
  refine ⟨?_, List.Subset.refl _, hanc⟩
  -- an ancestor of the block is an ancestor of the block committed before, or new
  have hsplit : ∀ a, Ancestor S s.chain.blocks a b →
      Ancestor S s.chain.blocks a s.committed ∨ s.committed.view < a.view := by
    intro a ha
    by_cases hle : a.view ≤ s.committed.view
    · exact .inl (hinv.tree.ancestor_of_view_le hb ha hanc hle)
    · exact .inr (UInt64.not_le.mp hle)
  exact
    { hinv with
      committed_mem := hb
      grounded := fun a ha => by
        rcases hsplit a ha with hold | hlt
        · exact hinv.grounded a hold
        · have hup := hinv.tree.ancestor_of_view_le hb hanc ha (UInt64.le_of_lt hlt)
          rcases Relation.ReflTransGen.cases_head hup with heq | ⟨p, hp, -⟩
          · exact absurd (heq ▸ hlt) (UInt64.lt_irrefl _)
          · exact .inr ⟨p, hp⟩
      live_up := fun a a' ha ha' hlive => by
        rcases hsplit a' ha' with hold | hlt
        · exact hinv.live_up a a' ha hold hlive
        · exact (hfresh a' ha' hlt).1
      forked_abandoned := fun c hc => by
        obtain ⟨hmem, hdead, hnot⟩ := hinv.forked_abandoned c hc
        refine ⟨hmem, hdead, fun ha => ?_⟩
        rcases hsplit c ha with hold | hlt
        · exact hnot hold
        · exact hdead (hfresh c ha hlt)
      abandoned_forked := fun c hc => by
        rcases hinv.abandoned_forked c hc with hlive | ha | hforked
        · exact .inl hlive
        · exact .inr (.inl (ha.trans hanc))
        · exact .inr (.inr hforked) }

/-- A commit returns and keeps the invariant. -/
theorem Inv.commit (hok : Orderly S s (.commit b)) :
    ∃ s', s.commit S b = some s' ∧ Inv S s' ∧ Extends S s s' := by
  obtain ⟨walk, hwalk⟩ := hinv.exists_unexecuted (b := b) fun p hp => below_lt_length hp.1
  obtain ⟨found, hfound⟩ : ∃ found, s.commitInner S b = some found := ⟨_, congrArg _ hwalk⟩
  rw [State.commit, hfound, bind_some]
  cases found with
  | false => exact ⟨s, rfl, hinv, Extends.refl s⟩
  | true =>
    obtain ⟨hclear, hext⟩ := hok hfound
    obtain ⟨hcommitted, hextends⟩ := hinv.commitTo hext
    have hsame : Orderly S (s.commitTo b) (.prune b.view) := by
      unfold State.commitTo
      split <;> exact hclear
    obtain ⟨s', hs', hinv', hextends'⟩ := hcommitted.pruneToHeight hsame
    exact ⟨s', hs', hinv', hextends.trans hextends'⟩

/-- Every orderly action returns and keeps the invariant. -/
theorem Inv.step {action : Action Sig} (hok : Orderly S s action) :
    ∃ s', (machine S).step s action = some s' ∧ Inv S s' ∧ Extends S s s' := by
  cases action with
  | store b =>
    exact ⟨s.store b, rfl, hinv.store hok, subset_cons_self _ _, refl _⟩
  | commit b => exact hinv.commit hok
  | prune height => exact hinv.pruneToHeight hok

end

/-- When the stored blocks are in order, pruning always returns and reports exactly the abandoned
blocks: none twice, none that ever was on the branch of the committed block, and all others up to
the height pruned to. -/
theorem pruning_reports_abandoned (hgenesis : (genesis : Block Sig).hash S ≠ Hash.zero)
    (actions more : List (Action Sig))
    (hmeets : (machine S).Meets (Orderly S) .new (actions ++ more)) :
    ∃ s s', (machine S).run actions = some s ∧ (machine S).run (actions ++ more) = some s' ∧
      s'.forked.Nodup ∧
      (∀ b, Ancestor S s.chain.blocks b s.committed → b ∉ s'.forked) ∧
      ∀ b ∈ s.chain.blocks, b.view ≤ s.pruneHeight →
        Ancestor S s.chain.blocks b s.committed ∨ b ∈ s.forked := by
  obtain ⟨s, hrun, hinv, -⟩ := Machine.exists_runFrom Extends.refl (fun _ _ _ => Extends.trans)
    (inv_new hgenesis) (fun _ _ h => h.step) hmeets.left
  obtain ⟨s', hrun', hinv', hextends⟩ := Machine.exists_runFrom Extends.refl
    (fun _ _ _ => Extends.trans) hinv (fun _ _ h => h.step) (Machine.meets_of_append hmeets hrun)
  refine ⟨s, s', hrun, ?_, hinv'.forked_nodup, fun b hb hforked => ?_, fun b hb hle => ?_⟩
  · rw [Machine.run, Machine.runFrom_append]
    exact hrun ▸ hrun'
  · have hstill := (hb.mono hextends.blocks).trans hextends.committed
    exact (hinv'.forked_abandoned b hforked).2.2 hstill
  · exact (hinv.abandoned_forked b hb).resolve_left fun h => absurd hle (UInt64.not_le.mpr h.2)

/-! ## Two blocks in one view -/

section Samples

open Ecdsa

/-- A block of view 2 beside `trunk2`. -/
def twin : Block Multi := blockOn genesis genesisCert 8 2

/-- The leader of view 2 equivocates, and a block on the first of its blocks is committed. -/
def equivocation : List (Action Multi) :=
  [.store trunk1, .store trunk2, .store twin, .store trunk3, .commit trunk3]

/-- A block is abandoned, stored again and reported again after the height was lowered. -/
def repetition : List (Action Multi) :=
  [.store sibling, .store twin, .commit twin, .store sibling, .prune 0, .prune 2]

/-- The branch of `trunk3`. -/
def trunk : List (Block Multi) := [trunk3, trunk2, trunk1, genesis]

/-- After an equivocation an ancestor of the committed block is reported as abandoned and the other
block of the view is not. A block stored again can be reported again. -/
theorem pruning_misreports_equivocation :
    (∃ s, (machine tagPrimitives).run equivocation = some s ∧
      Ancestor tagPrimitives s.chain.blocks trunk1 s.committed ∧ trunk1 ∈ s.forked ∧
      twin ∈ s.chain.blocks ∧ twin.view ≤ s.pruneHeight ∧
      ¬Ancestor tagPrimitives s.chain.blocks twin s.committed ∧ twin ∉ s.forked) ∧
    ((machine tagPrimitives).run repetition).map forked = some [sibling, sibling] := by
  have houtcome : ((machine tagPrimitives).run equivocation).map
      (fun s => (s.chain.blocks, s.committed, s.pruneHeight, s.forked)) =
      some ([trunk3, twin, trunk2, trunk1, genesis], trunk3, 3, [trunk1]) := by decide +kernel
  obtain ⟨s, hrun, hs⟩ := map_eq_some_iff.mp houtcome
  simp only [Prod.mk.injEq] at hs
  obtain ⟨hblocks, hcommitted, hheight, hforked⟩ := hs
  refine ⟨⟨s, hrun, ?_, ?_, ?_, ?_, fun htwin => ?_, ?_⟩, by decide +kernel⟩
  · -- `trunk3`, `trunk2`, `trunk1`
    rw [hcommitted]
    have h32 : IsParent tagPrimitives s.chain.blocks trunk3 trunk2 := by
      rw [IsParent, hblocks]
      decide +kernel
    have h21 : IsParent tagPrimitives s.chain.blocks trunk2 trunk1 := by
      rw [IsParent, hblocks]
      decide +kernel
    exact (refl trunk3).tail h32 |>.tail h21
  · rw [hforked]
    exact mem_singleton_self _
  · rw [hblocks]
    decide +kernel
  · rw [hheight]
    decide +kernel
  · have hmem : twin ∈ trunk :=
      htwin.mem_of_closed (by rw [hcommitted]; decide +kernel) (by rw [hblocks]; decide +kernel)
    exact absurd hmem (by decide +kernel)
  · rw [hforked]
    decide +kernel

/-- A block is committed beside another one of an earlier view. -/
def abandonment : List (Action Multi) :=
  [.store sibling, .store twin, .commit twin]

/-- The actions of the abandonment are orderly, and so is pruning again to the same height. -/
theorem abandonment_orderly :
    (machine tagPrimitives).Meets (Orderly tagPrimitives) .new (abandonment ++ [.prune 2]) := by
  refine ⟨⟨by decide +kernel, by decide +kernel, by decide +kernel⟩, fun s1 h1 => ?_⟩
  cases h1
  refine ⟨⟨by decide +kernel, by decide +kernel, by decide +kernel⟩, fun s2 h2 => ?_⟩
  cases h2
  refine ⟨fun _ => ⟨fun v hlow hhigh => ?_, fun _ => ⟨by decide +kernel, ?_, fun a ha hlt => ?_⟩⟩,
    fun s3 h3 => ⟨fun v hlow hhigh => ?_, fun _ _ => trivial⟩⟩
  · exact absurd (UInt64.lt_of_lt_of_le hlow hhigh) (by decide +kernel)
  · have hparent : IsParent tagPrimitives
        (((new : State Multi).store sibling).store twin).chain.blocks twin genesis := by
      rw [IsParent]
      decide +kernel
    exact (refl twin).tail hparent
  · have hmem : a ∈ [twin, genesis] :=
      ha.mem_of_closed (by decide +kernel) (by decide +kernel)
    rcases mem_cons.mp hmem with rfl | hmem
    · rw [Live]
      decide +kernel
    · rw [mem_singleton.mp hmem] at hlt
      exact absurd hlt (UInt64.lt_irrefl _)
  · have hheight : ((machine tagPrimitives).step
        (((new : State Multi).store sibling).store twin) (.commit twin)).map
        pruneHeight = some 2 := by decide +kernel
    rw [h3, map_some, some.injEq] at hheight
    exact absurd (UInt64.lt_of_lt_of_le hlow (hheight ▸ hhigh)) (UInt64.lt_irrefl _)

theorem pruning_reports_abandoned_sibling :
    ∃ s s', (machine tagPrimitives).run abandonment = some s ∧
      (machine tagPrimitives).run (abandonment ++ [.prune 2]) = some s' ∧
      s'.forked.Nodup ∧
      (∀ b, Ancestor tagPrimitives s.chain.blocks b s.committed → b ∉ s'.forked) ∧
      ∀ b ∈ s.chain.blocks, b.view ≤ s.pruneHeight →
        Ancestor tagPrimitives s.chain.blocks b s.committed ∨ b ∈ s.forked :=
  pruning_reports_abandoned (by decide +kernel) abandonment [.prune 2] abandonment_orderly

end Samples

end NimbleChain.HotStuff.Pruning
