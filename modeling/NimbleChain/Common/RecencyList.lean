import Mathlib

/-!
# Lists ordered by recency of use

A least-recently-used store of bounded size holds the most recently used keys. `recency` orders
the keys of a history by their last use; the store is a prefix of it.
-/

namespace NimbleChain.Common

variable {α : Type*} [BEq α] [LawfulBEq α]

/-- The keys of a history, given most recent use first, each at the place of its last use. -/
def recency : List α → List α
  | [] => []
  | key :: older => key :: (recency older).erase key

/-- Removing a key from the first `n + 1` entries decides the first `n` entries of the rest. -/
theorem take_erase (n : Nat) (key : α) (keys : List α) :
    ((keys.take (n + 1)).erase key).take n = (keys.erase key).take n := by
  induction keys generalizing n with
  | nil => rfl
  | cons head tail ih =>
    by_cases hkey : head = key
    · subst hkey
      simp [List.take_take]
    · cases n with
      | zero => simp
      | succ n =>
        have hne : (head == key) = false := by simpa using hkey
        simp only [List.take_succ_cons, List.erase_cons, hne, Bool.false_eq_true, if_false]
        exact congrArg (head :: ·) (ih n)

/-- A bounded store stays a prefix of the recency order if a used key moves to the front and the
result is cut to the bound. -/
theorem take_recency_cons (bound : Nat) (key : α) (history : List α) :
    (recency (key :: history)).take bound =
      (key :: ((recency history).take bound).erase key).take bound := by
  cases bound with
  | zero => rfl
  | succ n => simp only [recency, List.take_succ_cons, take_erase]

end NimbleChain.Common
