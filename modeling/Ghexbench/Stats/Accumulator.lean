import Ghexbench.Common.Moments
import Mathlib.Algebra.Order.BigOperators.Group.List
import Mathlib.Algebra.Order.Field.Basic
import Mathlib.Data.Nat.Cast.Order.Ring

/-!
# The accumulator

`accumulator` keeps the number, the extremes, the mean and the squared deviations of samples without
keeping the samples. Samples are added one by one, and one accumulator can be merged into another.
Values are elements of an ordered field instead of floating-point numbers.
-/

namespace Ghexbench.Stats

open Ghexbench.Common

variable {K : Type*} [Field K] [LinearOrder K]

/-- `numeric_limits<double>::max()`: the largest finite value. -/
def limitMax : K := (2 ^ 53 - 1) * 2 ^ 971

/-- `numeric_limits<double>::min()`: the smallest positive normal value. -/
def limitMin : K := (2 ^ 1022)⁻¹

/-- `accumulator`. -/
@[ext] structure Accumulator (K : Type*) where
  numSamples : ℕ
  min : K
  max : K
  mean : K
  mVariance : K

namespace Accumulator

/-- The default constructor. -/
def empty : Accumulator K where
  numSamples := 0
  min := limitMax
  max := limitMin
  mean := 0
  mVariance := 0

/-- `operator()(value_type)`. -/
def add (a : Accumulator K) (sample : K) : Accumulator K :=
  let delta := sample - a.mean
  let numSamples := a.numSamples + 1
  let mean := a.mean + delta / numSamples
  { numSamples := numSamples
    min := Min.min a.min sample
    max := Max.max a.max sample
    mean := mean
    mVariance := a.mVariance + delta * (sample - mean) }

/-- `operator()(InputIterator, InputIterator)`. -/
def addAll (a : Accumulator K) (samples : List K) : Accumulator K := samples.foldl add a

/-- `operator()(const accumulator&)`. -/
def merge (a other : Accumulator K) : Accumulator K :=
  if other.numSamples = 0 then a
  else if a.numSamples = 0 then other
  else
    let delta := other.mean - a.mean
    let numSamplesNew := a.numSamples + other.numSamples
    { numSamples := numSamplesNew
      min := Min.min a.min other.min
      max := Max.max a.max other.max
      mean := a.mean + delta * other.numSamples / numSamplesNew
      mVariance := a.mVariance + (other.mVariance +
        delta * delta * a.numSamples * other.numSamples / numSamplesNew) }

/-- `clear`. -/
def clear (_ : Accumulator K) : Accumulator K where
  numSamples := 0
  min := limitMax
  max := limitMin
  mean := 0
  mVariance := 0

/-- `variance`. -/
def variance (a : Accumulator K) : K := if a.numSamples > 1 then a.mVariance / (a.numSamples - 1 : ℕ) else 0

/-- `stddev`, with a function for the square root. -/
def stddev (sqrt : K → K) (a : Accumulator K) : K := if a.numSamples > 1 then sqrt a.variance else 0

/-- `sum`. -/
def sum (a : Accumulator K) : K := a.numSamples * a.mean

/-- The accumulator of a list of samples, by the definitions of the statistics. -/
def ofSamples (l : List K) : Accumulator K where
  numSamples := l.length
  min := l.foldl Min.min limitMax
  max := l.foldl Max.max limitMin
  mean := Common.mean l
  mVariance := sqDev l

/-- The number of samples. -/
@[simp] theorem numSamples_ofSamples (l : List K) : (ofSamples l).numSamples = l.length := rfl

/-- The accumulator of no samples. -/
theorem ofSamples_nil : ofSamples ([] : List K) = empty := by
  simp [ofSamples, empty, Common.mean, sqDev, deviations]

variable [IsStrictOrderedRing K]

/-- A sample is added to those of the accumulator. -/
theorem add_ofSamples (l : List K) (x : K) : (ofSamples l).add x = ofSamples (l ++ [x]) := by
  have hne : ((l.length + [x].length : ℕ) : K) ≠ 0 := Nat.cast_ne_zero.mpr (Nat.succ_ne_zero _)
  have hmean : Common.mean (l ++ [x]) = Common.mean l + (x - Common.mean l) / (l.length + 1 : ℕ) := by
    rw [mean_append hne, mean_singleton, List.length_singleton, Nat.cast_one, mul_one]
  have hsucc : ((l.length + 1 : ℕ) : K) ≠ 0 := hne
  ext
  · simp [add]
  · simp [add, ofSamples]
  · simp [add, ofSamples]
  · exact hmean.symm
  · change sqDev l + (x - Common.mean l) *
      (x - (Common.mean l + (x - Common.mean l) / (l.length + 1 : ℕ))) = sqDev (l ++ [x])
    rw [sqDev_append hne, mean_singleton, sqDev_singleton, List.length_singleton]
    push_cast at hsucc ⊢
    field_simp
    ring

/-- The samples are added in order. -/
theorem addAll_ofSamples (l m : List K) : (ofSamples l).addAll m = ofSamples (l ++ m) := by
  induction m generalizing l with
  | nil => rw [List.append_nil, addAll, List.foldl_nil]
  | cons x m ih =>
    change ((ofSamples l).add x).addAll m = _
    rw [add_ofSamples, ih, List.append_assoc, List.singleton_append]

/-- An accumulator for a list of samples. -/
theorem empty_addAll (l : List K) : empty.addAll l = ofSamples l := by
  rw [← ofSamples_nil, addAll_ofSamples, List.nil_append]

/-- The standard deviation is not negative if no square root is. -/
theorem stddev_ofSamples_nonneg {sqrt : K → K} (hsqrt : ∀ v, 0 ≤ v → 0 ≤ sqrt v) (l : List K) :
    0 ≤ (ofSamples l).stddev sqrt := by
  unfold stddev
  split
  · next hmany =>
    have hdev : 0 ≤ sqDev l := List.sum_nonneg fun d hd => by
      obtain ⟨x, -, rfl⟩ := List.mem_map.mp hd
      exact sq_nonneg _
    apply hsqrt
    rw [variance, if_pos hmany]
    exact div_nonneg hdev (Nat.cast_nonneg _)
  · exact le_rfl

/-- The samples of two accumulators are put together. -/
theorem merge_ofSamples (l m : List K) : (ofSamples l).merge (ofSamples m) = ofSamples (l ++ m) := by
  unfold merge
  split
  · next hm => rw [List.length_eq_zero_iff.mp hm, List.append_nil]
  · next hm =>
    split
    · next hl => rw [List.length_eq_zero_iff.mp hl, List.nil_append]
    · next hl =>
      have hne : ((l.length + m.length : ℕ) : K) ≠ 0 := by
        rw [numSamples_ofSamples] at hl
        exact Nat.cast_ne_zero.mpr (by omega)
      ext
      · simp
      · exact (foldl_min_append limitMax l m).symm
      · exact (foldl_max_append limitMin l m).symm
      · exact (mean_append hne).symm
      · exact (sqDev_append hne).symm

end Accumulator

end Ghexbench.Stats
