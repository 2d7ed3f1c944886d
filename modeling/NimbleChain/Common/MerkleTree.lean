import NimbleChain.Common.Bytes

/-!
# Merkle trees

Binary trees over byte strings with separate prefixes for leaves and inner nodes. As long as no two
strings that are hashed collide, the root determines the tree, and a path of siblings that leads
from a leaf to the root is a path of the tree.
-/

namespace NimbleChain.Common

open List

/-- A binary tree with items at its leaves. -/
inductive MerkleTree where
  | empty
  | leaf (item : Bytes)
  | inner (left right : MerkleTree)

namespace MerkleTree

variable (H : HashFunction)

/-- The string that is hashed for a leaf. -/
def leafInput (item : Bytes) : Bytes :=
  0 :: item

/-- The string that is hashed for an inner node. -/
def innerInput (left right : Bytes) : Bytes :=
  1 :: (left ++ right)

/-- The hash at the root. -/
def root : MerkleTree → Bytes
  | empty => H.sum []
  | leaf item => H.sum (leafInput item)
  | inner left right => H.sum (innerInput left.root right.root)

/-- All strings that are hashed to compute the root. -/
def inputs : MerkleTree → List Bytes
  | empty => [[]]
  | leaf item => [leafInput item]
  | inner left right => innerInput (left.root H) (right.root H) :: (left.inputs ++ right.inputs)

/-- The items from left to right. -/
def leaves : MerkleTree → List Bytes
  | empty => []
  | leaf item => [item]
  | inner left right => left.leaves ++ right.leaves

variable {H}

theorem length_root (t : MerkleTree) : (t.root H).length = H.size := by
  cases t <;> exact H.length_sum _

variable (H) in
/-- The string whose hash is the root. -/
def top : MerkleTree → Bytes
  | empty => []
  | leaf item => leafInput item
  | inner left right => innerInput (left.root H) (right.root H)

theorem sum_top (t : MerkleTree) : H.sum (t.top H) = t.root H := by
  cases t <;> rfl

theorem top_mem_inputs (t : MerkleTree) : t.top H ∈ t.inputs H := by
  cases t <;> exact mem_cons_self

theorem left_inputs_subset (left right : MerkleTree) :
    left.inputs H ⊆ (inner left right).inputs H :=
  fun _ hx => mem_cons_of_mem _ (mem_append_left _ hx)

theorem right_inputs_subset (left right : MerkleTree) :
    right.inputs H ⊆ (inner left right).inputs H :=
  fun _ hx => mem_cons_of_mem _ (mem_append_right _ hx)

/-- Equal roots belong to equal trees. -/
theorem eq_of_root_eq {t t' : MerkleTree} (hfree : H.CollisionFree (t.inputs H) (t'.inputs H))
    (h : t.root H = t'.root H) : t = t' := by
  induction t generalizing t' with
  | empty =>
    have htop := hfree _ (top_mem_inputs _) _ t'.top_mem_inputs (by rw [sum_top, sum_top, h])
    cases t' <;> simp [top, leafInput, innerInput] at htop ⊢
  | leaf item =>
    have htop := hfree _ (top_mem_inputs _) _ t'.top_mem_inputs (by rw [sum_top, sum_top, h])
    cases t' <;> simp [top, leafInput, innerInput] at htop ⊢
    exact htop
  | inner left right ihleft ihright =>
    have htop := hfree _ (top_mem_inputs _) _ t'.top_mem_inputs (by rw [sum_top, sum_top, h])
    cases t' with
    | empty => simp [top, innerInput] at htop
    | leaf item => simp [top, leafInput, innerInput] at htop
    | inner left' right' =>
      obtain ⟨hleft, hright⟩ := append_inj (cons.inj htop).2 (by rw [length_root, length_root])
      rw [ihleft (hfree.mono (left_inputs_subset ..) (left_inputs_subset ..)) hleft,
        ihright (hfree.mono (right_inputs_subset ..) (right_inputs_subset ..)) hright]

/-- A child of an inner node. -/
inductive Side where
  | left
  | right
  deriving DecidableEq

/-- The tree below a node that is reached from the root by going to the given sides. -/
def descend : MerkleTree → List Side → Option MerkleTree
  | t, [] => some t
  | inner left _, .left :: rest => left.descend rest
  | inner _ right, .right :: rest => right.descend rest
  | _, _ :: _ => none

variable (H) in
/-- The hash at the root above a leaf hash. Each step of the path down from the root has the side of
the leaf and the hash on the other side. -/
def climb (leafHash : Bytes) : List (Side × Bytes) → Bytes
  | [] => leafHash
  | (.left, aunt) :: rest => H.sum (innerInput (climb leafHash rest) aunt)
  | (.right, aunt) :: rest => H.sum (innerInput aunt (climb leafHash rest))

variable (H) in
/-- The strings that are hashed on a path. -/
def climbInputs (leafHash : Bytes) : List (Side × Bytes) → List Bytes
  | [] => []
  | (.left, aunt) :: rest => innerInput (climb H leafHash rest) aunt :: climbInputs leafHash rest
  | (.right, aunt) :: rest => innerInput aunt (climb H leafHash rest) :: climbInputs leafHash rest

theorem length_climb {leafHash : Bytes} (hleaf : leafHash.length = H.size)
    (path : List (Side × Bytes)) : (climb H leafHash path).length = H.size := by
  match path with
  | [] => exact hleaf
  | (.left, _) :: _ => exact H.length_sum _
  | (.right, _) :: _ => exact H.length_sum _

/-- The hash of an inner node is that of no leaf and of no empty tree, and its children are those
of the tree. -/
theorem inner_of_root_eq {t : MerkleTree} {left right : Bytes}
    (hfree : H.CollisionFree (t.inputs H) [innerInput left right])
    (hlength : left.length = H.size ∨ right.length = H.size)
    (h : t.root H = H.sum (innerInput left right)) :
    ∃ l r, t = inner l r ∧ l.root H = left ∧ r.root H = right := by
  have htop := hfree _ t.top_mem_inputs _ (mem_singleton_self _) (by rw [sum_top, h])
  cases t with
  | empty => simp [top, innerInput] at htop
  | leaf item => simp [top, leafInput, innerInput] at htop
  | inner l r =>
    have heq := (cons.inj htop).2
    rcases hlength with hleft | hright
    · exact ⟨l, r, rfl, append_inj heq (by rw [length_root, hleft])⟩
    · exact ⟨l, r, rfl, append_inj' heq (by rw [length_root, hright])⟩

/-- A path from the hash of an item that leads to the root of a tree leads to that item in the
tree. -/
theorem descend_of_climb_eq {t : MerkleTree} {item : Bytes} {path : List (Side × Bytes)}
    (hfree : H.CollisionFree (t.inputs H)
      (leafInput item :: climbInputs H (H.sum (leafInput item)) path))
    (h : t.root H = climb H (H.sum (leafInput item)) path) :
    t.descend (path.map Prod.fst) = some (leaf item) := by
  induction path generalizing t with
  | nil =>
    have htop := hfree _ t.top_mem_inputs _ mem_cons_self ((sum_top t).trans h)
    cases t with
    | empty => simp [top, leafInput] at htop
    | leaf other =>
      rw [(cons.inj htop).2]
      rfl
    | inner l r => simp [top, leafInput, innerInput] at htop
  | cons step rest ih =>
    obtain ⟨side, aunt⟩ := step
    have hlength := length_climb (H.length_sum (leafInput item)) rest
    cases side with
    | left =>
      have htop : H.CollisionFree (t.inputs H)
          [innerInput (climb H (H.sum (leafInput item)) rest) aunt] :=
        hfree.mono (Subset.refl _) (by simp [climbInputs])
      obtain ⟨l, r, rfl, hl, -⟩ := inner_of_root_eq htop (.inl hlength) h
      exact ih (hfree.mono (left_inputs_subset ..) (cons_subset_cons _ (subset_cons_self _ _))) hl
    | right =>
      have htop : H.CollisionFree (t.inputs H)
          [innerInput aunt (climb H (H.sum (leafInput item)) rest)] :=
        hfree.mono (Subset.refl _) (by simp [climbInputs])
      obtain ⟨l, r, rfl, -, hr⟩ := inner_of_root_eq htop (.inr hlength) h
      exact ih (hfree.mono (right_inputs_subset ..) (cons_subset_cons _ (subset_cons_self _ _))) hr

end MerkleTree

end NimbleChain.Common
