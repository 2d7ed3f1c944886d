import NimbleChain.Common.Bytes

/-!
# Reading a stream item by item

A reader takes an item off the front of its input or stops with an error. Reading on until it stops
gives the items in front of the error. A reader that consumes input with every item always stops.
-/

namespace NimbleChain.Common.Stream

open Common

variable {α ε : Type} (next : Bytes → Except ε (α × Bytes))

/-- Read items until an error; the first argument bounds the number of reads. -/
def readWithin : Nat → Bytes → Option (List α × ε)
  | 0, _ => none
  | fuel + 1, input =>
    match next input with
    | .error e => some ([], e)
    | .ok (x, rest) => (readWithin fuel rest).map fun read => (x :: read.1, read.2)

/-- Read items until an error. -/
def readAll (input : Bytes) : Option (List α × ε) :=
  readWithin next (input.length + 1) input

/-- Every item takes some of the input. -/
def Consuming : Prop :=
  ∀ input x rest, next input = .ok (x, rest) → rest.length < input.length

variable {next}

/-- More reads than there are bytes are never made. -/
theorem readWithin_congr (hnext : Consuming next) {fuel fuel' : Nat} {input : Bytes}
    (hfuel : input.length < fuel) (hfuel' : input.length < fuel') :
    readWithin next fuel input = readWithin next fuel' input := by
  induction fuel generalizing fuel' input with
  | zero => omega
  | succ fuel ih =>
    obtain ⟨fuel', rfl⟩ : ∃ n, fuel' = n + 1 := ⟨fuel' - 1, by omega⟩
    rw [readWithin, readWithin]
    cases hread : next input with
    | error e => rfl
    | ok item =>
      obtain ⟨x, rest⟩ := item
      have hshorter := hnext input x rest hread
      simp only [ih (show rest.length < fuel by omega) (show rest.length < fuel' by omega)]

/-- The reader stops where it fails. -/
theorem readAll_of_error {input : Bytes} {e : ε} (h : next input = .error e) :
    readAll next input = some ([], e) := by
  rw [readAll, readWithin, h]

/-- An item that is read stands in front of the items in the rest of the input. -/
theorem readAll_of_ok (hnext : Consuming next) {input rest : Bytes} {x : α}
    (h : next input = .ok (x, rest)) :
    readAll next input = (readAll next rest).map fun read => (x :: read.1, read.2) := by
  have hsame : readWithin next input.length rest = readAll next rest :=
    readWithin_congr hnext (hnext input x rest h) (Nat.lt_succ_self rest.length)
  simp only [readAll, readWithin, h] at hsame ⊢
  rw [hsame]

end NimbleChain.Common.Stream
