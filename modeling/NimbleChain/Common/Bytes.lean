import Mathlib

/-!
# Byte strings

Fixed-width numbers and hash functions with digests of one length.
-/

namespace NimbleChain.Common

/-- A byte slice. -/
abbrev Bytes := List UInt8

/-- The order of byte strings is linear. -/
theorem bytes_lt_of_le_of_ne {a b : Bytes} (hle : a ≤ b) (hne : a ≠ b) : a < b := by
  by_contra hlt
  exact hne (Std.Trichotomous.trichotomous (r := fun a b : Bytes => a < b) a b hlt hle)

/-- The `width` low-order bytes of a number, least significant byte first. -/
def littleEndian : (width : Nat) → Nat → Bytes
  | 0, _ => []
  | width + 1, n => UInt8.ofNat n :: littleEndian width (n / 256)

@[simp] theorem length_littleEndian (width n : Nat) : (littleEndian width n).length = width := by
  induction width generalizing n with
  | zero => rfl
  | succ width ih => simp [littleEndian, ih]

variable {width n : Nat} {α : Type*} {code : α → Bytes}

/-- The number with the given bytes, least significant byte first. -/
def ofLittleEndian : Bytes → Nat
  | [] => 0
  | byte :: rest => byte.toNat + 256 * ofLittleEndian rest

theorem ofLittleEndian_littleEndian (hn : n < 256 ^ width) :
    ofLittleEndian (littleEndian width n) = n := by
  induction width generalizing n with
  | zero => simp at hn; simp [littleEndian, ofLittleEndian, hn]
  | succ width ih =>
    rw [littleEndian, ofLittleEndian, ih (by omega), UInt8.toNat_ofNat']
    omega

/-- Numbers below `256 ^ width` are determined by their encoding. -/
theorem littleEndian_inj {m : Nat} (hn : n < 256 ^ width) (hm : m < 256 ^ width)
    (h : littleEndian width n = littleEndian width m) : n = m := by
  rw [← ofLittleEndian_littleEndian hn, h, ofLittleEndian_littleEndian hm]

/-- Each code takes at least one byte. -/
theorem length_le_length_flatMap (hne : ∀ x, code x ≠ []) (xs : List α) :
    xs.length ≤ (xs.flatMap code).length := by
  induction xs with
  | nil => simp
  | cons x xs ih =>
    have hpos : 0 < (code x).length := List.length_pos_iff.mpr (hne x)
    rw [List.flatMap_cons, List.length_append, List.length_cons]
    omega

/-- Codes of equal lengths can be told apart in a concatenation. -/
theorem eq_of_flatMap_eq {code' : α → Bytes} {xs : List α}
    (hlength : ∀ x ∈ xs, (code x).length = (code' x).length)
    (h : xs.flatMap code = xs.flatMap code') : ∀ x ∈ xs, code x = code' x := by
  induction xs with
  | nil => exact List.forall_mem_nil _
  | cons x rest ih =>
    obtain ⟨hx, hrest⟩ := List.forall_mem_cons.mp hlength
    rw [List.flatMap_cons, List.flatMap_cons] at h
    obtain ⟨hhead, htail⟩ := List.append_inj h hx
    exact List.forall_mem_cons.mpr ⟨hhead, ih hrest htail⟩

/-- A hash function whose digests all have the same length. -/
structure HashFunction where
  size : Nat
  sum : Bytes → Bytes
  length_sum : ∀ message, (sum message).length = size

namespace HashFunction

/-- No string of the first list collides with another one of the second list. -/
def CollisionFree (H : HashFunction) (xs ys : List Bytes) : Prop :=
  ∀ x ∈ xs, ∀ y ∈ ys, H.sum x = H.sum y → x = y

instance (H : HashFunction) (xs ys : List Bytes) : Decidable (H.CollisionFree xs ys) :=
  inferInstanceAs (Decidable (∀ x ∈ xs, ∀ y ∈ ys, H.sum x = H.sum y → x = y))

theorem CollisionFree.mono {H : HashFunction} {xs xs' ys ys' : List Bytes}
    (h : H.CollisionFree xs ys) (hxs : xs' ⊆ xs) (hys : ys' ⊆ ys) : H.CollisionFree xs' ys' :=
  fun x hx y hy => h x (hxs hx) y (hys hy)

/-- A hash function that can be evaluated: a polynomial in the bytes. -/
def polynomial (size : Nat) : HashFunction where
  size := size
  sum message := littleEndian size
    (message.foldl (fun acc byte => (acc * 257 + byte.toNat + 1) % 256 ^ size) 0)
  length_sum _ := length_littleEndian size _

end HashFunction

end NimbleChain.Common
