import NimbleChain.Common.MerkleTree

/-!
# Merkle roots of byte slices

`crypto/merkle/tree.go` and `crypto/merkle/hash.go`. The recursion over the slices computes the root
of a Merkle tree whose leaves are the slices.
-/

namespace NimbleChain.Tendermint

open Common HashFunction

variable (H : HashFunction)

/-- `emptyHash`. -/
def emptyHash : Bytes :=
  H.sum []

/-- `leafHash`. -/
def leafHash (leaf : Bytes) : Bytes :=
  H.sum (0 :: leaf)

/-- `innerHash`. -/
def innerHash (left right : Bytes) : Bytes :=
  H.sum (1 :: (left ++ right))

/-- `getSplitPoint` for a positive length: the largest power of 2 less than the length. -/
def getSplitPoint (length : Nat) : Nat :=
  -- `bits.Len`
  let bitlen := length.log2 + 1
  let k := 2 ^ (bitlen - 1)
  if k = length then k / 2 else k

/-- `HashFromByteSlices`, with a bound on the depth of the recursion. -/
def hashWithin : Nat → List Bytes → Bytes
  | _, [] => emptyHash H
  | _, [item] => leafHash H item
  | 0, _ => emptyHash H
  | depth + 1, items =>
    let k := getSplitPoint items.length
    innerHash H (hashWithin depth (items.take k)) (hashWithin depth (items.drop k))

variable (items : List Bytes)

/-- `HashFromByteSlices`. The recursion is not deeper than there are items. -/
def hashFromByteSlices : Bytes :=
  hashWithin H items.length items

/-- The tree that the recursion walks through. -/
def treeWithin : Nat → List Bytes → MerkleTree
  | _, [] => .empty
  | _, [item] => .leaf item
  | 0, _ => .empty
  | depth + 1, items =>
    let k := getSplitPoint items.length
    .inner (treeWithin depth (items.take k)) (treeWithin depth (items.drop k))

/-- The tree of `HashFromByteSlices`. -/
def merkleTree : MerkleTree :=
  treeWithin items.length items

/-- Every string that is hashed by `HashFromByteSlices`. -/
def merkleInputs : List Bytes :=
  (merkleTree items).inputs H

variable {H}

theorem hashFromByteSlices_eq_root :
    hashFromByteSlices H items = (merkleTree items).root H := by
  suffices hdepth : ∀ depth items, hashWithin H depth items = (treeWithin depth items).root H from
    hdepth _ _
  intro depth
  induction depth with
  | zero =>
    intro items
    match items with
    | [] => rfl
    | [_] => rfl
    | _ :: _ :: _ => rfl
  | succ depth ih =>
    intro items
    match items with
    | [] => rfl
    | [_] => rfl
    | _ :: _ :: _ => simp only [hashWithin, treeWithin, MerkleTree.root, ih]; rfl

/-- A list of at least two splits into two shorter ones. -/
theorem getSplitPoint_bounds {n : Nat} (h : 2 ≤ n) : 0 < getSplitPoint n ∧ getSplitPoint n < n := by
  have hle : 2 ^ n.log2 ≤ n := Nat.log2_self_le (by omega)
  have hpos : 0 < 2 ^ n.log2 := Nat.two_pow_pos _
  simp only [getSplitPoint, Nat.add_sub_cancel]
  split <;> omega

theorem leaves_treeWithin {depth : Nat} {items : List Bytes} (h : items.length ≤ depth) :
    (treeWithin depth items).leaves = items := by
  induction depth generalizing items with
  | zero =>
    obtain rfl : items = [] := List.length_eq_zero_iff.mp (by omega)
    rfl
  | succ depth ih =>
    match items with
    | [] => rfl
    | [_] => rfl
    | x :: y :: rest =>
      obtain ⟨hpos, hlt⟩ := getSplitPoint_bounds (n := (x :: y :: rest).length) (by simp)
      rw [treeWithin, MerkleTree.leaves, ih (by rw [List.length_take]; omega),
        ih (by rw [List.length_drop]; omega), List.take_append_drop]
      · simp
      · simp

/-- Equal roots belong to equal lists of slices. -/
theorem eq_of_hashFromByteSlices_eq {xs ys : List Bytes}
    (hfree : H.CollisionFree (merkleInputs H xs) (merkleInputs H ys))
    (h : hashFromByteSlices H xs = hashFromByteSlices H ys) : xs = ys := by
  rw [hashFromByteSlices_eq_root, hashFromByteSlices_eq_root] at h
  have htree := MerkleTree.eq_of_root_eq hfree h
  calc xs = (merkleTree xs).leaves := (leaves_treeWithin (Nat.le_refl _)).symm
    _ = (merkleTree ys).leaves := congrArg MerkleTree.leaves htree
    _ = ys := leaves_treeWithin (Nat.le_refl _)

/-- Roots have the length of a digest. -/
theorem length_hashFromByteSlices :
    (hashFromByteSlices H items).length = H.size := by
  rw [hashFromByteSlices_eq_root]
  exact MerkleTree.length_root _

/-! ### The iterative variant -/

section Iterative

open List

variable (H : HashFunction)

/-- One round of `HashFromByteSlicesIterative`: two hashes are read for each one that is written. -/
def pairUp : List Bytes → List Bytes
  | left :: right :: rest => innerHash H left right :: pairUp rest
  | hashes => hashes

/-- The rounds, with a bound on their number. -/
def collapseWithin : Nat → List Bytes → Bytes
  | _, [] => emptyHash H
  | _, [hash] => hash
  | 0, _ => emptyHash H
  | rounds + 1, hashes => collapseWithin rounds (pairUp H hashes)

/-- `HashFromByteSlicesIterative`. Each round leaves fewer hashes. -/
def hashFromByteSlicesIterative (input : List Bytes) : Bytes :=
  collapseWithin H input.length (input.map (leafHash H))

/-- The items are divided into chunks of one size, the last maybe smaller, and the hashes are the
roots of the chunks. -/
inductive Chunked (size : Nat) : List Bytes → List Bytes → Prop
  | last {items : List Bytes} (hpos : 0 < items.length) (hle : items.length ≤ size) :
    Chunked size items [hashFromByteSlices H items]
  | cons {chunk items hashes : List Bytes} (hlength : chunk.length = size)
      (hrest : Chunked size items hashes) :
    Chunked size (chunk ++ items) (hashFromByteSlices H chunk :: hashes)

variable {H} {items hashes : List Bytes} {n : Nat}

/-- The bound on the depth does not matter. -/
theorem hashWithin_congr {depth depth' : Nat} (h : items.length ≤ depth)
    (h' : items.length ≤ depth') : hashWithin H depth items = hashWithin H depth' items := by
  induction depth generalizing depth' items with
  | zero =>
    obtain rfl : items = [] := length_eq_zero_iff.mp (by omega)
    cases depth' <;> rfl
  | succ depth ih =>
    match items, depth' with
    | [], depth' => cases depth' <;> rfl
    | [_], depth' => cases depth' <;> rfl
    | x :: y :: rest, depth' + 1 =>
      have hbounds := getSplitPoint_bounds (n := (x :: y :: rest).length) (by simp)
      simp only [hashWithin]
      rw [@ih _ depth', @ih _ depth']
      all_goals
        simp only [length_take, length_drop]
        omega

/-- The split point is the power of 2 below the length. -/
theorem getSplitPoint_eq {j : Nat} (hlow : 2 ^ j < n) (hhigh : n ≤ 2 ^ (j + 1)) :
    getSplitPoint n = 2 ^ j := by
  rcases Nat.eq_or_lt_of_le hhigh with rfl | hlt
  · simp only [getSplitPoint, Nat.log2_two_pow, Nat.add_sub_cancel, if_true]
    omega
  · have hlog : n.log2 = j := (Nat.log2_eq_iff (by omega)).mpr ⟨Nat.le_of_lt hlow, hlt⟩
    simp only [getSplitPoint, hlog, Nat.add_sub_cancel]
    rw [if_neg (Nat.ne_of_lt hlow)]

/-- The root of two neighbouring chunks. -/
theorem hashFromByteSlices_append {chunk : List Bytes} (hchunk : chunk.length = 2 ^ n)
    (hpos : 0 < items.length) (hle : items.length ≤ 2 ^ n) :
    hashFromByteSlices H (chunk ++ items) =
      innerHash H (hashFromByteSlices H chunk) (hashFromByteSlices H items) := by
  have hlength : (chunk ++ items).length = _ := length_append
  have htwo := Nat.two_pow_pos n
  have hsplit : getSplitPoint (chunk ++ items).length = chunk.length := by
    rw [hchunk]
    exact getSplitPoint_eq (by omega) (by omega)
  have hunfold : ∀ both : List Bytes, 2 ≤ both.length → hashFromByteSlices H both = innerHash H
      (hashWithin H (both.length - 1) (both.take (getSplitPoint both.length)))
      (hashWithin H (both.length - 1) (both.drop (getSplitPoint both.length)))
    | _ :: _ :: _, _ => rfl
  rw [hunfold _ (by omega), hsplit, take_left, drop_left, hashFromByteSlices, hashFromByteSlices,
    hashWithin_congr (by omega) (Nat.le_refl chunk.length),
    hashWithin_congr (by omega) (Nat.le_refl items.length)]

theorem length_pairUp_le (hashes : List Bytes) :
    (pairUp H hashes).length ≤ (hashes.length + 1) / 2 := by
  fun_induction pairUp H hashes with
  | case1 left right rest ih =>
    simp only [length_cons]
    omega
  | case2 hashes hshort =>
    match hashes with
    | [] => simp
    | [_] => simp
    | x :: y :: rest => exact absurd rfl (hshort x y rest)

/-- A round doubles the size of the chunks. -/
theorem Chunked.pairUp (h : Chunked H (2 ^ n) items hashes) :
    Chunked H (2 ^ (n + 1)) items (pairUp H hashes) := by
  fun_induction Tendermint.pairUp H hashes generalizing items with
  | case1 left right rest ih =>
    cases h with
    | cons hchunk hrest =>
      cases hrest with
      | last hpos hle =>
        rw [← hashFromByteSlices_append hchunk hpos hle]
        exact .last (by simp; omega) (by simp; omega)
      | cons hchunk' hrest =>
        have hpos := hchunk' ▸ Nat.two_pow_pos n
        rw [← append_assoc, ← hashFromByteSlices_append hchunk hpos (Nat.le_of_eq hchunk')]
        exact .cons (by simp; omega) (ih hrest)
  | case2 hashes hshort =>
    cases h with
    | last hpos hle => exact .last hpos (by omega)
    | cons hchunk hrest =>
      cases hrest with
      | last => exact absurd rfl (hshort _ _ _)
      | cons => exact absurd rfl (hshort _ _ _)

theorem chunked_leafHashes (item : Bytes) (rest : List Bytes) :
    Chunked H (2 ^ 0) (item :: rest) ((item :: rest).map (leafHash H)) := by
  induction rest generalizing item with
  | nil => exact .last (by simp) (by simp)
  | cons next rest ih =>
    have hchunk : [item].length = 2 ^ 0 := rfl
    exact .cons hchunk (ih next)

theorem collapseWithin_of_chunked {rounds : Nat} (h : Chunked H (2 ^ n) items hashes)
    (hrounds : hashes.length ≤ rounds) :
    collapseWithin H rounds hashes = hashFromByteSlices H items := by
  induction rounds generalizing n hashes with
  | zero =>
    obtain rfl : hashes = [] := length_eq_zero_iff.mp (by omega)
    cases h
  | succ rounds ih =>
    match hashes with
    | [_] =>
      cases h with
      | last => rfl
      | cons _ hrest => cases hrest
    | left :: right :: rest =>
      have hround := length_pairUp_le (H := H) (left :: right :: rest)
      exact ih h.pairUp (by simp only [length_cons] at hrounds hround; omega)

end Iterative

/-- The iterative and the recursive computation agree, and the root determines the slices. -/
theorem merkle_root_determines_slices (H : HashFunction) :
    (∀ items, hashFromByteSlicesIterative H items = hashFromByteSlices H items) ∧
      ∀ xs ys, H.CollisionFree (merkleInputs H xs) (merkleInputs H ys) →
        hashFromByteSlices H xs = hashFromByteSlices H ys → xs = ys := by
  refine ⟨fun items => ?_, fun xs ys => eq_of_hashFromByteSlices_eq⟩
  cases items with
  | nil => rfl
  | cons item rest => exact collapseWithin_of_chunked (chunked_leafHashes item rest) (by simp)

/-- Three slices. -/
def threeSlices : List Bytes := [[1], [2], [3]]

/-- The roots of two orders of the slices differ. -/
theorem merkle_root_determines_slices_reversed :
    hashFromByteSlices (polynomial 4) threeSlices ≠
      hashFromByteSlices (polynomial 4) threeSlices.reverse := by
  have hfree : (polynomial 4).CollisionFree (merkleInputs (polynomial 4) threeSlices)
      (merkleInputs (polynomial 4) threeSlices.reverse) := by decide +kernel
  intro h
  have heq := (merkle_root_determines_slices (polynomial 4)).2 _ _ hfree h
  exact absurd heq (by decide)

end NimbleChain.Tendermint
