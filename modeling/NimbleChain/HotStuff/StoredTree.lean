import NimbleChain.HotStuff.Types

/-!
# The tree of a list of blocks

Blocks name their parents by hash, so a list of blocks forms a tree as long as no two of them have
the same hash. A block is grounded when its branch leads to the genesis block within the list;
blocks that are added later do not change the branch of a grounded block.
-/

namespace NimbleChain.HotStuff

variable {Sig : Type} (S : Primitives Sig) (blocks : List (Block Sig))

/-- `p` is the parent of `b` in the list. -/
def IsParent (b p : Block Sig) : Prop :=
  p ∈ blocks ∧ p.hash S = b.parent

/-- `a` is `b` or one of the blocks below `b` in the list. -/
def Ancestor (a b : Block Sig) : Prop :=
  Relation.ReflTransGen (IsParent S blocks) b a

/-- No two blocks of the list have the same hash. -/
def HashesApart : Prop :=
  ∀ b ∈ blocks, ∀ b' ∈ blocks, b.hash S = b'.hash S → b = b'

/-- Every block of the branch has its parent in the list, except the genesis block. -/
def Grounded (b : Block Sig) : Prop :=
  ∀ a, Ancestor S blocks a b → a = genesis ∨ ∃ p, IsParent S blocks a p

variable {S} {blocks blocks' : List (Block Sig)} {a b c p p' : Block Sig}

theorem IsParent.mono (hsub : blocks ⊆ blocks') (h : IsParent S blocks b p) :
    IsParent S blocks' b p :=
  ⟨hsub h.1, h.2⟩

theorem HashesApart.parent_unique (hapart : HashesApart S blocks) (h : IsParent S blocks b p)
    (h' : IsParent S blocks b p') : p = p' :=
  hapart p h.1 p' h'.1 (h.2.trans h'.2.symm)

theorem Ancestor.refl (b : Block Sig) : Ancestor S blocks b b :=
  Relation.ReflTransGen.refl

theorem Ancestor.trans (hab : Ancestor S blocks a b) (hbc : Ancestor S blocks b c) :
    Ancestor S blocks a c :=
  Relation.ReflTransGen.trans hbc hab

section

variable (h : Ancestor S blocks a b)

include h

theorem Ancestor.mem (hb : b ∈ blocks) : a ∈ blocks := by
  induction h with
  | refl => exact hb
  | tail _ hparent _ => exact hparent.1

/-- In a longer list a block has no fewer ancestors. -/
theorem Ancestor.mono (hsub : blocks ⊆ blocks') : Ancestor S blocks' a b := by
  induction h with
  | refl => exact Ancestor.refl b
  | tail _ hparent ih => exact Relation.ReflTransGen.tail ih (hparent.mono hsub)

/-- Below a block with a parent, the ancestors are those of the parent. -/
theorem Ancestor.cases_parent (hapart : HashesApart S blocks) (hparent : IsParent S blocks b p) :
    a = b ∨ Ancestor S blocks a p := by
  rcases Relation.ReflTransGen.cases_head h with heq | ⟨p', hp', hrest⟩
  · exact .inl heq.symm
  · exact .inr (hapart.parent_unique hp' hparent ▸ hrest)

/-- A list that contains a block and the parents of its elements contains the whole branch. -/
theorem Ancestor.mem_of_closed {branch : List (Block Sig)} (hb : b ∈ branch)
    (hclosed : ∀ c ∈ branch, ∀ p ∈ blocks, p.hash S = c.parent → p ∈ branch) : a ∈ branch := by
  induction h with
  | refl => exact hb
  | tail _ hparent ih => exact hclosed _ ih _ hparent.1 hparent.2

end

theorem Grounded.mono (hsub : blocks ⊆ blocks')
    (hbranch : ∀ a, Ancestor S blocks' a b → Ancestor S blocks a b) (h : Grounded S blocks b) :
    Grounded S blocks' b := by
  intro a ha
  rcases h a (hbranch a ha) with hgenesis | ⟨p, hp⟩
  · exact .inl hgenesis
  · exact .inr ⟨p, hp.mono hsub⟩

/-- More blocks do not change the branch of a grounded block, unless one of them is a parent of the
genesis block. -/
theorem Grounded.ancestor_iff (h : Grounded S blocks b) (hsub : blocks ⊆ blocks')
    (hapart : HashesApart S blocks') (hroot : ∀ p, ¬IsParent S blocks' genesis p) :
    Ancestor S blocks' a b ↔ Ancestor S blocks a b := by
  refine ⟨fun ha => ?_, fun ha => ha.mono hsub⟩
  induction ha with
  | refl => exact Ancestor.refl _
  | @tail c p _ hparent ih =>
    rcases h c ih with rfl | ⟨p', hp'⟩
    · exact absurd hparent (hroot p)
    · have heq := hapart.parent_unique hparent (hp'.mono hsub)
      exact ih.tail (heq ▸ hp')

end NimbleChain.HotStuff
