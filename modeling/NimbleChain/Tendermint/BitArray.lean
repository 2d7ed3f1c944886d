import Mathlib

/-!
# Bit arrays

`libs/bits/bit_array.go`. The number of bits and the elements that hold them are separate fields,
and nothing relates them in an array that was decoded from a message. A pointer that may be nil is
an `Option`; `none` as a result stands for a panic of the runtime.
-/

namespace NimbleChain.Tendermint

/-- `BitArray`. -/
structure BitArray where
  bits : Int
  elems : List UInt64
  deriving DecidableEq

namespace BitArray

/-- The number of elements for a number of bits, `(bits+63)/64`. -/
def elemsFor (bits : Int) : Int :=
  (bits + 63).tdiv 64

/-- `NewBitArray`. It returns nil for a number of bits that is not positive. -/
def newBitArray (bits : Int) : Option BitArray :=
  if bits ≤ 0 then none
  else some { bits := bits, elems := List.replicate (elemsFor bits).toNat 0 }

/-- `uint64(1) << uint(i%64)`. The shift is by more than 63 if the remainder is negative. -/
def mask (i : Int) : UInt64 :=
  if i.tmod 64 < 0 then 0 else 1 <<< UInt64.ofNat (i.tmod 64).toNat

/-- Indexing of `Elems`. -/
def elem (bA : BitArray) (i : Int) : Option UInt64 :=
  if i < 0 then none else bA.elems[i.toNat]?

/-- `setIndex`. -/
def setIndex (bA : BitArray) (i : Int) (v : Bool) : Option (BitArray × Bool) :=
  if bA.bits ≤ i then some (bA, false)
  else do
    let elem ← bA.elem (i.tdiv 64)
    let changed := if v then elem ||| mask i else elem &&& ~~~ mask i
    some ({ bA with elems := bA.elems.set (i.tdiv 64).toNat changed }, true)

/-- `SetIndex`, which does nothing on nil. -/
def setIndexOf (bA : Option BitArray) (i : Int) (v : Bool) : Option (Option BitArray × Bool) :=
  match bA with
  | none => some (none, false)
  | some bA => (bA.setIndex i v).map fun result => (some result.1, result.2)

/-- The elements are as many as the bits need. -/
structure WellFormed (bA : BitArray) : Prop where
  bits_pos : 0 < bA.bits
  length_elems : (bA.elems.length : Int) = elemsFor bA.bits

variable {bA : BitArray} {i : Int}

theorem wellFormed_newBitArray {bits : Int} (h : newBitArray bits = some bA) : bA.WellFormed := by
  unfold newBitArray at h
  split at h
  · cases h
  · rename_i hpos
    cases h
    constructor
    · exact Int.not_le.mp hpos
    · rw [List.length_replicate]
      exact Int.toNat_of_nonneg (Int.tdiv_nonneg (by omega) (by omega))

/-- An index below the number of bits is within the elements. -/
theorem WellFormed.elem_isSome (h : bA.WellFormed) (hi : 0 ≤ i) (hbits : i < bA.bits) :
    ∃ elem, bA.elem (i.tdiv 64) = some elem := by
  have hlength := h.length_elems
  rw [elemsFor, Int.tdiv_eq_ediv_of_nonneg (by omega)] at hlength
  have hindex : i.tdiv 64 = i / 64 := Int.tdiv_eq_ediv_of_nonneg hi
  have hrange : (i.tdiv 64).toNat < bA.elems.length := by omega
  refine ⟨bA.elems[(i.tdiv 64).toNat], ?_⟩
  rw [elem, if_neg (by omega), List.getElem?_eq_getElem hrange]

/-- Setting a bit of a well-formed array succeeds and leaves it well-formed. -/
theorem WellFormed.setIndex (h : bA.WellFormed) (hi : 0 ≤ i) (v : Bool) :
    ∃ bA' set, bA.setIndex i v = some (bA', set) ∧ bA'.WellFormed ∧ bA'.bits = bA.bits := by
  by_cases hbits : bA.bits ≤ i
  · exact ⟨bA, false, by rw [BitArray.setIndex, if_pos hbits], h, rfl⟩
  · obtain ⟨elem, helem⟩ := h.elem_isSome hi (Int.not_le.mp hbits)
    let changed := if v then elem ||| mask i else elem &&& ~~~ mask i
    have hset : bA.setIndex i v =
        some ({ bA with elems := bA.elems.set (i.tdiv 64).toNat changed }, true) := by
      rw [BitArray.setIndex, if_neg hbits, helem]
      rfl
    refine ⟨_, true, hset, ⟨h.bits_pos, ?_⟩, rfl⟩
    rw [List.length_set]
    exact h.length_elems

/-- The same for a pointer. -/
theorem setIndexOf_wellFormed {bA : Option BitArray} (h : ∀ b, bA = some b → b.WellFormed)
    (hi : 0 ≤ i) (v : Bool) :
    ∃ bA' set, setIndexOf bA i v = some (bA', set) ∧ ∀ b, bA' = some b → b.WellFormed := by
  cases bA with
  | none => exact ⟨none, false, rfl, nofun⟩
  | some bA =>
    obtain ⟨bA', set, hset, hwell, -⟩ := (h bA rfl).setIndex hi v
    refine ⟨some bA', set, by rw [setIndexOf, hset]; rfl, ?_⟩
    intro b hb
    exact Option.some.inj hb ▸ hwell

end BitArray

end NimbleChain.Tendermint
