import Mathlib

/-!
# Welford's estimator

`metrics/welford.go` keeps a mean and a sum of squared deviations that every value updates. The
floats are exact rationals; a division by a counter of 64 bits that has wrapped is not modelled.
-/

namespace NimbleChain.HotStuff

open List UInt64

/-- `Welford`. -/
structure Welford where
  mean : ℚ := 0
  m2 : ℚ := 0
  count : UInt64 := 0

namespace Welford

variable (w : Welford)

/-- `Update`. -/
def update (val : ℚ) : Welford :=
  let count := w.count + 1
  let delta := val - w.mean
  let mean := w.mean + delta / count.toNat
  { mean := mean, m2 := w.m2 + delta * (val - mean), count := count }

/-- `Get`; there is no variance where the code returns NaN. -/
def get : ℚ × Option ℚ × UInt64 :=
  if w.count < 2 then (w.mean, none, w.count)
  else (w.mean, some (w.m2 / (w.count - 1).toNat), w.count)

/-- The calls that change the estimate. -/
inductive Call where
  | update (val : ℚ)
  | reset

/-- `Update` and `Reset`. -/
def perform : Call → Welford
  | .update val => w.update val
  | .reset => {}

/-- The estimate after the calls. -/
def run (calls : List Call) : Welford :=
  calls.foldl perform {}

/-- The values since the last `Reset`. -/
def values (calls : List Call) : List ℚ :=
  calls.foldl (fun xs call => match call with | .update val => xs ++ [val] | .reset => []) []

/-- The arithmetic mean. -/
def batchMean (xs : List ℚ) : ℚ :=
  xs.sum / xs.length

/-- The sample variance. -/
def sampleVariance (xs : List ℚ) : ℚ :=
  (xs.map fun x => (x - batchMean xs) ^ 2).sum / (xs.length - 1)

/-- Only the values since the last `Reset` matter. -/
theorem run_eq (calls : List Call) : run calls = (values calls).foldl update {} := by
  induction calls using reverseRecOn with
  | nil => rfl
  | append_singleton calls call ih =>
    rw [run, values, foldl_append, foldl_append, ← run, ← values, ih]
    cases call with
    | update val => simp [perform]
    | reset => rfl

theorem count_foldl (xs : List ℚ) : (xs.foldl update {}).count = .ofNat xs.length := by
  induction xs using reverseRecOn with
  | nil => rfl
  | append_singleton xs x ih =>
    rw [foldl_append, length_append, ofNat_add, ← ih]
    rfl

/-- The mean and the sum of squares are those of the values. -/
theorem foldl_update (xs : List ℚ) (hlength : xs.length < 2 ^ 64) :
    (xs.foldl update {}).mean * xs.length = xs.sum ∧
      (xs.foldl update {}).m2 = (xs.map (· ^ 2)).sum - (xs.foldl update {}).mean * xs.sum := by
  induction xs using reverseRecOn with
  | nil => simp
  | append_singleton xs x ih =>
    rw [length_append, length_singleton] at hlength
    obtain ⟨hmean, hm2⟩ := ih (by omega)
    have hcount : ((xs.foldl update {}).count + 1).toNat = xs.length + 1 := by
      rw [count_foldl, ← UInt64.ofNat_one, ← UInt64.ofNat_add, UInt64.toNat_ofNat']
      exact Nat.mod_eq_of_lt hlength
    rw [foldl_append, foldl_cons, foldl_nil, update]
    dsimp only
    rw [hcount, hm2]
    simp only [sum_append, map_append, length_append, sum_singleton,
      map_singleton, length_singleton, Nat.cast_add, Nat.cast_one]
    generalize (xs.foldl update {}).mean = mean at *
    have hpos : (xs.length : ℚ) + 1 ≠ 0 := by positivity
    have hnew : (mean + (x - mean) / (xs.length + 1)) * (xs.length + 1) = xs.sum + x := by
      rw [add_mul, div_mul_cancel₀ _ hpos]
      linear_combination hmean
    refine ⟨hnew, ?_⟩
    generalize mean + (x - mean) / (xs.length + 1) = mean' at *
    linear_combination mean * hnew - mean' * hmean

/-- The squared deviations from any center. -/
theorem sum_sq_sub (xs : List ℚ) (center : ℚ) :
    (xs.map fun x => (x - center) ^ 2).sum =
      (xs.map (· ^ 2)).sum - 2 * center * xs.sum + xs.length * center ^ 2 := by
  induction xs with
  | nil => simp
  | cons x xs ih =>
    simp only [map_cons, sum_cons, length_cons, ih]
    rw [Nat.cast_succ]
    ring

theorem get_foldl (xs : List ℚ) (htwo : 2 ≤ xs.length) (hlength : xs.length < 2 ^ 64) :
    (xs.foldl update {}).get = (batchMean xs, some (sampleVariance xs), .ofNat xs.length) := by
  obtain ⟨hmean, hm2⟩ := foldl_update xs hlength
  have hcount : (ofNat xs.length).toNat = xs.length := toNat_ofNat_of_lt' hlength
  have hlarge : ¬ ofNat xs.length < 2 := by
    rw [lt_iff_toNat_lt, hcount]
    exact not_lt.mpr htwo
  have hpred : (ofNat xs.length - 1).toNat = xs.length - 1 := by
    have hle : 1 ≤ ofNat xs.length := by
      rw [le_iff_toNat_le, hcount]
      exact le_of_lt htwo
    rw [UInt64.toNat_sub_of_le _ _ hle, hcount]
    rfl
  have hpos : (xs.length : ℚ) ≠ 0 := Nat.cast_ne_zero.mpr (by omega)
  have hbatch : (xs.foldl update {}).mean = batchMean xs := by
    rw [batchMean, ← hmean, mul_div_cancel_right₀ _ hpos]
  rw [hbatch] at hmean hm2
  rw [get, count_foldl, if_neg hlarge, hpred, hm2, hbatch, sampleVariance, sum_sq_sub,
    Nat.cast_pred (by omega)]
  congr 4
  linear_combination -batchMean xs * hmean

/-- For at least two and less than 2^64 values since the last `Reset`, `Get` returns their mean,
their sample variance, which is not negative, and their number, whatever their order. -/
theorem get_eq_batch (calls : List Call) (htwo : 2 ≤ (values calls).length)
    (hlength : (values calls).length < 2 ^ 64) :
    (run calls).get = (batchMean (values calls), some (sampleVariance (values calls)),
      .ofNat (values calls).length) ∧
    0 ≤ sampleVariance (values calls) ∧
    ∀ calls', (values calls').Perm (values calls) → (run calls').get = (run calls).get := by
  refine ⟨?_, ?_, ?_⟩
  · rw [run_eq, get_foldl _ htwo hlength]
  · refine div_nonneg (sum_nonneg ?_) ?_
    · intro y hy
      obtain ⟨x, -, rfl⟩ := mem_map.mp hy
      exact sq_nonneg _
    · rw [sub_nonneg]
      exact_mod_cast le_of_lt htwo
  · intro calls' hperm
    have hmean : batchMean (values calls') = batchMean (values calls) := by
      rw [batchMean, batchMean, hperm.sum_eq, hperm.length_eq]
    rw [run_eq, run_eq, get_foldl _ (hperm.length_eq ▸ htwo) (hperm.length_eq ▸ hlength),
      get_foldl _ htwo hlength, sampleVariance, sampleVariance, hmean, (hperm.map _).sum_eq,
      hperm.length_eq]

/-- After 2^64 values the counter is zero. -/
theorem count_wraps : ∃ calls, (values calls).length = 2 ^ 64 ∧ (run calls).get.2.2 = 0 := by
  have hvalues : ∀ n, values (replicate n (.update 0)) = replicate n 0 := by
    intro n
    induction n with
    | zero => rfl
    | succ n ih =>
      rw [replicate_succ', values, foldl_append, ← values, ih, replicate_succ']
      rfl
  refine ⟨replicate (2 ^ 64) (.update 0), ?_, ?_⟩
  · rw [hvalues, length_replicate]
  · have hcount := count_foldl (replicate (2 ^ 64) 0)
    rw [length_replicate] at hcount
    rw [run_eq, hvalues, get, hcount]
    rfl

theorem get_eq_batch_two :
    (run [.update 7, .reset, .update 1, .update 3]).get = (2, some 2, 2) := by
  have hget := (get_eq_batch [.update 7, .reset, .update 1, .update 3] (by decide) (by decide)).1
  rw [hget]
  decide +kernel

end Welford

end NimbleChain.HotStuff
