import NimbleChain.Common.Bytes

/-!
# Decimal numbers

Decimal digits of a number, most significant first, as ASCII characters, and their parsing.
-/

namespace NimbleChain.Common.Decimal

open Common

/-- The digits of a number; the first argument bounds how many. -/
def digitsWithin : Nat → Nat → Bytes
  | 0, n => [UInt8.ofNat (48 + n % 10)]
  | bound + 1, n =>
    if n < 10 then [UInt8.ofNat (48 + n)]
    else digitsWithin bound (n / 10) ++ [UInt8.ofNat (48 + n % 10)]

/-- The digits of a number. -/
def digits (n : Nat) : Bytes :=
  digitsWithin n n

/-- Read digits up to the end of the string behind digits of the given value. -/
def parseFrom : Nat → Bytes → Option Nat
  | value, [] => some value
  | value, byte :: rest =>
    if 48 ≤ byte.toNat ∧ byte.toNat ≤ 57 then parseFrom (10 * value + (byte.toNat - 48)) rest
    else none

theorem parseFrom_append (value : Nat) (xs ys : Bytes) :
    parseFrom value (xs ++ ys) = (parseFrom value xs).bind fun v => parseFrom v ys := by
  induction xs generalizing value with
  | nil => rfl
  | cons x xs ih =>
    rw [List.cons_append, parseFrom, parseFrom]
    split
    · exact ih _
    · rfl

theorem parseFrom_digit {value d : Nat} (hd : d < 10) :
    parseFrom value [UInt8.ofNat (48 + d)] = some (10 * value + d) := by
  have hbyte : (UInt8.ofNat (48 + d)).toNat = 48 + d := by
    rw [UInt8.toNat_ofNat']
    omega
  have hrange : 48 ≤ 48 + d ∧ 48 + d ≤ 57 := by omega
  rw [parseFrom, hbyte, if_pos hrange, parseFrom]
  congr 2
  omega

theorem parseFrom_digitsWithin {bound n : Nat} (h : n ≤ bound) :
    parseFrom 0 (digitsWithin bound n) = some n := by
  induction bound generalizing n with
  | zero =>
    obtain rfl : n = 0 := by omega
    rfl
  | succ bound ih =>
    rw [digitsWithin]
    split
    case isTrue hsmall => simpa using @parseFrom_digit 0 n hsmall
    case isFalse hlarge =>
      have hlast : n % 10 < 10 := Nat.mod_lt _ (by decide)
      rw [parseFrom_append, ih (by omega), Option.bind_some, parseFrom_digit hlast]
      congr 1
      omega

theorem parseFrom_digits (n : Nat) : parseFrom 0 (digits n) = some n :=
  parseFrom_digitsWithin (Nat.le_refl n)

theorem digitsWithin_ne_nil (bound n : Nat) : digitsWithin bound n ≠ [] := by
  cases bound with
  | zero => simp [digitsWithin]
  | succ bound =>
    rw [digitsWithin]
    split <;> simp

/-- A digit is no sign. -/
theorem digitsWithin_head (bound n : Nat) :
    ∃ byte rest, digitsWithin bound n = byte :: rest ∧ 48 ≤ byte.toNat := by
  induction bound generalizing n with
  | zero =>
    refine ⟨_, [], rfl, ?_⟩
    rw [UInt8.toNat_ofNat']
    omega
  | succ bound ih =>
    rw [digitsWithin]
    split
    · refine ⟨_, [], rfl, ?_⟩
      rw [UInt8.toNat_ofNat']
      omega
    · obtain ⟨byte, rest, hdigits, hbyte⟩ := ih (n / 10)
      exact ⟨byte, rest ++ [UInt8.ofNat (48 + n % 10)], by rw [hdigits, List.cons_append], hbyte⟩

/-- `%d` of an `int64`. -/
def formatInt (x : Int64) : Bytes :=
  if x < 0 then 45 :: digits x.toInt.natAbs else digits x.toInt.toNat

/-- Digits, of which there must be some. -/
def parseNat (s : Bytes) : Option Nat :=
  if s = [] then none else parseFrom 0 s

/-- `strconv.ParseInt` to base 10 and 64 bits. -/
def parseInt : Bytes → Option Int64
  | [] => none
  | byte :: rest =>
    if byte = 45 then
      (parseNat rest).bind fun n => if n ≤ 2 ^ 63 then some (Int64.ofInt (-n)) else none
    else
      (parseNat (if byte = 43 then rest else byte :: rest)).bind fun n =>
        if n < 2 ^ 63 then some (Int64.ofInt n) else none

theorem formatInt_ne_nil (x : Int64) : formatInt x ≠ [] := by
  unfold formatInt
  split
  · simp
  · exact digitsWithin_ne_nil _ _

/-- A number that is not negative is read back. -/
theorem parseInt_formatInt {x : Int64} (h : 0 ≤ x) : parseInt (formatInt x) = some x := by
  have hnonneg : ¬ x < 0 := Int64.not_lt.mpr h
  have hpos : 0 ≤ x.toInt := by
    rw [Int64.le_iff_toInt_le] at h
    exact h
  have hlt := x.toInt_lt
  rw [formatInt, if_neg hnonneg]
  obtain ⟨byte, rest, hdigits, hbyte⟩ := digitsWithin_head x.toInt.toNat x.toInt.toNat
  have hparse := parseFrom_digits x.toInt.toNat
  rw [digits, hdigits] at hparse ⊢
  have hminus : byte ≠ 45 := by
    rintro rfl
    exact absurd hbyte (by decide)
  have hplus : byte ≠ 43 := by
    rintro rfl
    exact absurd hbyte (by decide)
  have hfits : x.toInt.toNat < 2 ^ 63 := by omega
  rw [parseInt, if_neg hminus, if_neg hplus, parseNat, if_neg (by simp), hparse, Option.bind_some,
    if_pos hfits, Int.toNat_of_nonneg hpos, Int64.ofInt_toInt]

end NimbleChain.Common.Decimal
