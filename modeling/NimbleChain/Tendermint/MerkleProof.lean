import NimbleChain.Tendermint.Merkle
import NimbleChain.Tendermint.Types

/-!
# Merkle proofs

`crypto/merkle/proof.go`. A proof claims that a leaf stands at an index among a total number of
leaves; `Verify` recomputes the root from the hashes of the siblings on the way up. The path is
determined by the index, the total and the number of aunts, all of which the proof itself names.
-/

namespace NimbleChain.Tendermint

open Common HashFunction List Option MerkleTree

/-- `merkle.Proof`. -/
structure MerkleProof where
  total : Int64
  index : Int64
  leafHash : Bytes
  aunts : List Bytes
  deriving DecidableEq

namespace MerkleProof

section Verify

variable (H : HashFunction)

/-- `computeHashFromAunts` with the last of the inner hashes first, which is the order in which the
recursion uses them. -/
def computeFromLast (leafHash : Bytes) : List Bytes → Int → Int → Option Bytes
  | [], index, total =>
    if total ≤ index ∨ index < 0 ∨ total ≤ 0 then none
    else if total = 1 then some leafHash
    else none
  | aunt :: rest, index, total =>
    if total ≤ index ∨ index < 0 ∨ total ≤ 0 then none
    else if total = 1 then none
    else
      let numLeft : Int := getSplitPoint total.toNat
      if index < numLeft then
        (computeFromLast leafHash rest index numLeft).map fun left => innerHash H left aunt
      else
        (computeFromLast leafHash rest (index - numLeft) (total - numLeft)).map fun right =>
          innerHash H aunt right

/-- `computeHashFromAunts`, with `none` for the nil hash. -/
def computeHashFromAunts (index total : Int) (leafHash : Bytes) (innerHashes : List Bytes) :
    Option Bytes :=
  computeFromLast H leafHash innerHashes.reverse index total

/-- `ComputeRootHash`. -/
def computeRootHash (sp : MerkleProof) : Option Bytes :=
  computeHashFromAunts H sp.index.toInt sp.total.toInt sp.leafHash sp.aunts

/-- `Verify`. A nil hash compares like an empty one. -/
def verify (sp : MerkleProof) (rootHash leaf : Bytes) : Check := do
  let leafHash := Tendermint.leafHash H leaf
  Check.failIf (sp.total < 0) "proof total must be positive" [] []
  Check.failIf (sp.index < 0) "proof index cannot be negative" [] []
  Check.failIf (sp.leafHash ≠ leafHash) "invalid leaf hash: wanted %X got %X" []
    [leafHash, sp.leafHash]
  let computedHash := (sp.computeRootHash H).getD []
  Check.failIf (computedHash ≠ rootHash) "invalid root hash: wanted %X got %X" []
    [rootHash, computedHash]

end Verify

section Path

/-- The way down to an index among a number of leaves, with the given siblings, the one nearest to
the root first. There are as many siblings as the way is long. -/
def path : List Bytes → Int → Int → Option (List (MerkleTree.Side × Bytes))
  | [], index, total =>
    if total ≤ index ∨ index < 0 ∨ total ≤ 0 then none
    else if total = 1 then some []
    else none
  | aunt :: rest, index, total =>
    if total ≤ index ∨ index < 0 ∨ total ≤ 0 then none
    else if total = 1 then none
    else
      let numLeft : Int := getSplitPoint total.toNat
      if index < numLeft then (path rest index numLeft).map fun steps => (.left, aunt) :: steps
      else (path rest (index - numLeft) (total - numLeft)).map fun steps => (.right, aunt) :: steps

variable (H : HashFunction)

/-- The strings that `Verify` hashes. -/
def verifyInputs (sp : MerkleProof) (leaf : Bytes) : List Bytes :=
  leafInput leaf ::
    ((path sp.aunts.reverse sp.index.toInt sp.total.toInt).map
      (climbInputs H (Tendermint.leafHash H leaf))).getD []

variable {H}

/-- The recomputed hash is the one at the top of the path. -/
theorem computeFromLast_eq (leafHash : Bytes) (aunts : List Bytes) (index total : Int) :
    computeFromLast H leafHash aunts index total =
      (path aunts index total).map (climb H leafHash) := by
  induction aunts generalizing index total with
  | nil =>
    simp only [computeFromLast, path]
    split_ifs <;> rfl
  | cons aunt rest ih =>
    simp only [computeFromLast, path, ih]
    split_ifs <;> simp only [Option.map_none, Option.map_map] <;> rfl

theorem verify_eq_ok {sp : MerkleProof} {rootHash leaf : Bytes} :
    sp.verify H rootHash leaf = .ok () ↔
      0 ≤ sp.total.toInt ∧ 0 ≤ sp.index.toInt ∧ sp.leafHash = Tendermint.leafHash H leaf ∧
        (sp.computeRootHash H).getD [] = rootHash := by
  simp only [verify, Check.seq_eq_ok, Check.failIf_eq_ok, Int64.not_lt, Decidable.not_not,
    Int64.le_iff_toInt_le]
  rfl

theorem length_halves {items : List Bytes} (hlt : getSplitPoint items.length < items.length) :
    (items.take (getSplitPoint items.length)).length = getSplitPoint items.length ∧
      ((items.drop (getSplitPoint items.length)).length : Int) =
        items.length - getSplitPoint items.length := by
  rw [length_take, length_drop]
  omega

/-- In the tree of a list, the way down to an index leads to the item at that index. -/
theorem descend_path {depth : Nat} {items aunts : List Bytes} {index : Int}
    {steps : List (MerkleTree.Side × Bytes)} (hdepth : items.length ≤ depth)
    (h : path aunts index items.length = some steps) :
    (treeWithin depth items).descend (steps.map Prod.fst) = items[index.toNat]?.map .leaf := by
  induction depth generalizing items aunts index steps with
  | zero =>
    obtain rfl : items = [] := length_eq_zero_iff.mp (by omega)
    cases aunts <;> simp [path] at h
  | succ depth ih =>
    match items, aunts with
    | [], [] => simp [path] at h
    | [], _ :: _ => simp [path] at h
    | [item], [] =>
      simp only [path, length_singleton] at h
      split_ifs at h with hrange
      · obtain rfl : index = 0 := by omega
        cases h
        rfl
    | [item], _ :: _ => simp [path] at h
    | x :: y :: more, [] =>
      simp [path] at h
      omega
    | x :: y :: more, aunt :: rest =>
      have hlen : 2 ≤ (x :: y :: more).length := by simp
      obtain ⟨hpos, hlt⟩ := getSplitPoint_bounds hlen
      have htree : treeWithin (depth + 1) (x :: y :: more) = .inner
          (treeWithin depth ((x :: y :: more).take (getSplitPoint (x :: y :: more).length)))
          (treeWithin depth ((x :: y :: more).drop (getSplitPoint (x :: y :: more).length))) := rfl
      rw [htree]
      generalize x :: y :: more = items at *
      obtain ⟨htake, hdrop⟩ := length_halves hlt
      simp only [path, Int.toNat_natCast] at h
      split_ifs at h with hrange hone hside
      · obtain ⟨tail, htail, rfl⟩ := map_eq_some_iff.mp h
        rw [← htake] at htail
        have hbelow := ih (by omega) htail
        rw [getElem?_take, if_pos (by omega)] at hbelow
        exact hbelow
      · obtain ⟨tail, htail, rfl⟩ := map_eq_some_iff.mp h
        rw [← hdrop] at htail
        have hbelow := ih (by rw [length_drop]; omega) htail
        have hindex : getSplitPoint items.length +
            (index - getSplitPoint items.length).toNat = index.toNat := by omega
        rw [getElem?_drop, hindex] at hbelow
        exact hbelow

/-- A leaf with a proof accepted for the total of a list, and for an index below it, is the item at
that index. -/
theorem verify_sound {sp : MerkleProof} {items : List Bytes} {leaf : Bytes}
    (hfree : H.CollisionFree (merkleInputs H items) (sp.verifyInputs H leaf))
    (htotal : sp.total.toInt = items.length) (hindex : sp.index.toInt < items.length)
    (h : sp.verify H (hashFromByteSlices H items) leaf = .ok ()) :
    items[sp.index.toInt.toNat]? = some leaf := by
  obtain ⟨-, hnonneg, hleaf, hroot⟩ := verify_eq_ok.mp h
  rw [computeRootHash, computeHashFromAunts, computeFromLast_eq, hleaf, htotal,
    hashFromByteSlices_eq_root] at hroot
  rw [verifyInputs, htotal] at hfree
  cases hpath : path sp.aunts.reverse sp.index.toInt items.length with
  | some steps =>
    rw [hpath] at hroot hfree
    have hdescend := descend_of_climb_eq hfree hroot.symm
    rw [merkleTree, descend_path (Nat.le_refl _) hpath] at hdescend
    obtain ⟨item, hitem, hleafEq⟩ := map_eq_some_iff.mp hdescend
    rw [hitem, MerkleTree.leaf.inj hleafEq]
  | none =>
    -- a nil hash is only accepted for empty digests, which are all equal
    rw [hpath] at hroot
    have hsize : H.size = 0 := by
      rw [← length_root (merkleTree items), ← hroot]
      rfl
    have hsum : ∀ x, H.sum x = [] := fun x =>
      length_eq_zero_iff.mp (by rw [H.length_sum, hsize])
    have hall : ∀ x ∈ merkleInputs H items, x = leafInput leaf := fun x hx =>
      hfree x hx _ mem_cons_self (by rw [hsum, hsum])
    match items with
    | [] =>
      exact absurd (hall [] (by simp [merkleInputs, merkleTree, treeWithin, inputs]))
        (by simp [leafInput])
    | [item] =>
      have hitem := hall (leafInput item) (by simp [merkleInputs, merkleTree, treeWithin, inputs])
      have hzero : sp.index.toInt = 0 := by simp at hindex; omega
      rw [hzero, ← (cons.inj hitem).2]
      rfl
    | x :: y :: more =>
      exact absurd (hall _ mem_cons_self) (by simp [leafInput, innerInput])

end Path

section Proofs

variable (H : HashFunction)

/-- `trailsFromByteSlices` with a bound on the depth: for each item its leaf hash and the hashes
that `FlattenAunts` collects, and the hash of the root. -/
def trailsWithin : Nat → List Bytes → List (Bytes × List Bytes) × Bytes
  | _, [] => ([], emptyHash H)
  | _, [item] => ([(Tendermint.leafHash H item, [])], Tendermint.leafHash H item)
  | 0, _ => ([], emptyHash H)
  | depth + 1, items =>
    let k := getSplitPoint items.length
    let lefts := trailsWithin depth (items.take k)
    let rights := trailsWithin depth (items.drop k)
    (lefts.1.map (fun trail => (trail.1, trail.2 ++ [rights.2])) ++
      rights.1.map (fun trail => (trail.1, trail.2 ++ [lefts.2])),
      innerHash H lefts.2 rights.2)

/-- `ProofsFromByteSlices`. -/
def proofsFromByteSlices (items : List Bytes) : Bytes × List MerkleProof :=
  let trails := trailsWithin H items.length items
  (trails.2, trails.1.mapIdx fun i trail =>
    { total := Int64.ofNat items.length, index := Int64.ofNat i, leafHash := trail.1,
      aunts := trail.2 })

variable {H}

theorem trailsWithin_root (depth : Nat) (items : List Bytes) :
    (trailsWithin H depth items).2 = hashWithin H depth items := by
  induction depth generalizing items with
  | zero =>
    match items with
    | [] => rfl
    | [_] => rfl
    | _ :: _ :: _ => rfl
  | succ depth ih =>
    match items with
    | [] => rfl
    | [_] => rfl
    | _ :: _ :: _ => simp only [trailsWithin, hashWithin, ih]

variable {items : List Bytes} {depth i : Nat}

theorem length_trailsWithin (h : items.length ≤ depth) :
    (trailsWithin H depth items).1.length = items.length := by
  induction depth generalizing items with
  | zero =>
    obtain rfl : items = [] := length_eq_zero_iff.mp (by omega)
    rfl
  | succ depth ih =>
    match items with
    | [] => rfl
    | [_] => rfl
    | x :: y :: rest =>
      obtain ⟨hpos, hlt⟩ : 0 < getSplitPoint (x :: y :: rest).length ∧
        getSplitPoint (x :: y :: rest).length < (x :: y :: rest).length :=
        getSplitPoint_bounds (by simp)
      simp only [trailsWithin, length_append, length_map]
      rw [ih (by rw [length_take]; omega), ih (by rw [length_drop]; omega),
        ← length_append, take_append_drop]

/-- The trail of an item leads from its leaf hash to the root. -/
theorem trailsWithin_spec (h : items.length ≤ depth) {trail : Bytes × List Bytes}
    (htrail : (trailsWithin H depth items).1[i]? = some trail) :
    items[i]?.map (Tendermint.leafHash H) = some trail.1 ∧
      computeFromLast H trail.1 trail.2.reverse i items.length =
        some (trailsWithin H depth items).2 := by
  induction depth generalizing items i trail with
  | zero =>
    obtain rfl : items = [] := length_eq_zero_iff.mp (by omega)
    simp [trailsWithin] at htrail
  | succ depth ih =>
    match items with
    | [] => simp [trailsWithin] at htrail
    | [item] =>
      obtain ⟨rfl, rfl⟩ : i = 0 ∧ trail = (Tendermint.leafHash H item, []) := by
        simpa [trailsWithin, getElem?_singleton, eq_comm] using htrail
      exact ⟨rfl, rfl⟩
    | x :: y :: more =>
      have hlen : 2 ≤ (x :: y :: more).length := by simp
      obtain ⟨hpos, hlt⟩ := getSplitPoint_bounds hlen
      simp only [trailsWithin] at htrail ⊢
      generalize x :: y :: more = items at *
      have hone : (items.length : Int) ≠ 1 := by omega
      obtain ⟨htake, hdrop⟩ := length_halves hlt
      have hdepthLeft : (items.take (getSplitPoint items.length)).length ≤ depth := by omega
      have hdepthRight : (items.drop (getSplitPoint items.length)).length ≤ depth := by
        rw [length_drop]; omega
      by_cases hside : i < getSplitPoint items.length
      · rw [getElem?_append_left (by rw [length_map, length_trailsWithin hdepthLeft]; omega),
          getElem?_map] at htrail
        obtain ⟨below, hbelow, rfl⟩ := map_eq_some_iff.mp htrail
        obtain ⟨hitem, hcompute⟩ := ih hdepthLeft hbelow
        rw [getElem?_take, if_pos hside] at hitem
        rw [htake] at hcompute
        refine ⟨hitem, ?_⟩
        rw [reverse_append, reverse_singleton, singleton_append, computeFromLast,
          if_neg (by omega), if_neg hone]
        simp only [Int.toNat_natCast]
        rw [if_pos (by omega), hcompute]
        rfl
      · rw [getElem?_append_right (by rw [length_map, length_trailsWithin hdepthLeft]; omega),
          getElem?_map, length_map, length_trailsWithin hdepthLeft, htake] at htrail
        obtain ⟨below, hbelow, rfl⟩ := map_eq_some_iff.mp htrail
        have hinRange : i - getSplitPoint items.length <
            (items.drop (getSplitPoint items.length)).length := by
          have hlength := (List.getElem_of_getElem? hbelow).1
          rwa [length_trailsWithin hdepthRight] at hlength
        obtain ⟨hitem, hcompute⟩ := ih hdepthRight hbelow
        rw [getElem?_drop, Nat.add_sub_cancel' (by omega)] at hitem
        rw [hdrop, Int.ofNat_sub (by omega)] at hcompute
        refine ⟨hitem, ?_⟩
        rw [reverse_append, reverse_singleton, singleton_append, computeFromLast,
          if_neg (by omega), if_neg hone]
        simp only [Int.toNat_natCast]
        rw [if_neg (by omega), hcompute]
        rfl

/-- The proofs of a list have its length as total and the positions as indices, and are accepted. -/
theorem proofsFromByteSlices_spec (hlength : items.length < 2 ^ 63) {sp : MerkleProof}
    {item : Bytes} (hproof : (proofsFromByteSlices H items).2[i]? = some sp)
    (hitem : items[i]? = some item) :
    sp.total.toInt = items.length ∧ sp.index.toInt = i ∧
      sp.verify H (hashFromByteSlices H items) item = .ok () := by
  simp only [proofsFromByteSlices, getElem?_mapIdx] at hproof
  obtain ⟨trail, htrail, rfl⟩ := map_eq_some_iff.mp hproof
  obtain ⟨hleaf, hcompute⟩ := trailsWithin_spec (Nat.le_refl _) htrail
  have hrange : i < items.length := (List.getElem_of_getElem? hitem).1
  have htotal : (Int64.ofNat items.length).toInt = items.length := Int64.toInt_ofNat_of_lt hlength
  have hindex : (Int64.ofNat i).toInt = i := Int64.toInt_ofNat_of_lt (by omega)
  rw [hitem] at hleaf
  rw [trailsWithin_root] at hcompute
  refine ⟨htotal, hindex, verify_eq_ok.mpr ⟨?_, ?_, (some.inj hleaf).symm, ?_⟩⟩
  · rw [htotal]
    exact Int.natCast_nonneg _
  · rw [hindex]
    exact Int.natCast_nonneg _
  · rw [computeRootHash, computeHashFromAunts, htotal, hindex, hcompute]
    rfl

/-- The proofs of a list are accepted for its items, and a leaf with an accepted proof for its
length is the item at the index of the proof, which is within the list. -/
theorem proofs_complete_and_sound (hsize : 0 < H.size) (hlength : items.length < 2 ^ 63) :
    ((proofsFromByteSlices H items).1 = hashFromByteSlices H items ∧
      (proofsFromByteSlices H items).2.length = items.length ∧
      ∀ (i : Nat) sp item, (proofsFromByteSlices H items).2[i]? = some sp → items[i]? = some item →
        sp.verify H (hashFromByteSlices H items) item = .ok ()) ∧
    ∀ (sp : MerkleProof) leaf, H.CollisionFree (merkleInputs H items) (sp.verifyInputs H leaf) →
      sp.total.toInt = items.length → sp.verify H (hashFromByteSlices H items) leaf = .ok () →
      0 ≤ sp.index.toInt ∧ sp.index.toInt < sp.total.toInt ∧
        items[sp.index.toInt.toNat]? = some leaf := by
  refine ⟨⟨trailsWithin_root _ _, ?_, fun i sp item hproof hitem =>
    (proofsFromByteSlices_spec hlength hproof hitem).2.2⟩, fun sp leaf hfree htotal h => ?_⟩
  · rw [proofsFromByteSlices, length_mapIdx, length_trailsWithin (Nat.le_refl _)]
  · obtain ⟨-, -, -, hroot⟩ := verify_eq_ok.mp h
    rw [computeRootHash, computeHashFromAunts, computeFromLast_eq] at hroot
    cases hpath : path sp.aunts.reverse sp.index.toInt sp.total.toInt with
    | none =>
      -- the nil hash is too short for a root
      have hshort := length_hashFromByteSlices (H := H) items
      rw [← hroot, hpath] at hshort
      exact absurd hsize (hshort ▸ Nat.lt_irrefl 0)
    | some steps =>
      have hrange : 0 ≤ sp.index.toInt ∧ sp.index.toInt < sp.total.toInt := by
        unfold path at hpath
        split at hpath <;> split_ifs at hpath <;> omega
      exact ⟨hrange.1, hrange.2, verify_sound hfree htotal (htotal ▸ hrange.2) h⟩

/-- The proof of the second of three slices. -/
def secondProof : MerkleProof :=
  ⟨3, 1, Tendermint.leafHash (polynomial 4) [2],
    [Tendermint.leafHash (polynomial 4) [1], Tendermint.leafHash (polynomial 4) [3]]⟩

/-- The proof is made and accepted, and the slice is where it says. -/
theorem proofs_complete_and_sound_second :
    (proofsFromByteSlices (polynomial 4) threeSlices).2[1]? = some secondProof ∧
      secondProof.verify (polynomial 4) (hashFromByteSlices (polynomial 4) threeSlices) [2] =
        .ok () ∧
      threeSlices[secondProof.index.toInt.toNat]? = some [2] := by
  have hproof : (proofsFromByteSlices (polynomial 4) threeSlices).2[1]? = some secondProof := by
    decide +kernel
  have hfree : (polynomial 4).CollisionFree (merkleInputs (polynomial 4) threeSlices)
      (secondProof.verifyInputs (polynomial 4) [2]) := by decide +kernel
  have hsize : 0 < (polynomial 4).size := by decide
  obtain ⟨⟨-, -, hcomplete⟩, hsound⟩ := proofs_complete_and_sound hsize
    (by decide : threeSlices.length < 2 ^ 63)
  have hverify := hcomplete 1 secondProof [2] hproof rfl
  exact ⟨hproof, hverify, (hsound secondProof [2] hfree rfl hverify).2.2⟩

end Proofs

end MerkleProof

end NimbleChain.Tendermint
