import Ghexbench.Stats.Accumulator
import Mathlib.Algebra.Order.Floor.Semiring

/-!
# The histogram

`histogram` keeps the samples themselves beside an accumulator. `median` and `percentile` sort them in
place and read one, and printing counts how many fall into each of a number of bins around the mean.
A read or a write outside a vector and a division by zero have no result.
-/

namespace Ghexbench.Stats

open Ghexbench.Common

variable {K : Type*}

/-- `histogram`. -/
structure Histogram (K : Type*) where
  acc : Accumulator K
  data : List K
  scale : K
  nbins : ℕ
  sigma : K

/-- `bins`, `under` and `over` in `operator<<`. -/
structure Counts where
  bins : List ℕ
  underCount : ℕ
  overCount : ℕ

/-- What a sample is counted in. -/
inductive Slot
  | underRange
  | overRange
  | bin (i : ℕ)
  deriving DecidableEq

/-- Count a sample. -/
def Counts.add (c : Counts) : Slot → Option Counts
  | .underRange => some { c with underCount := c.underCount + 1 }
  | .overRange => some { c with overCount := c.overCount + 1 }
  | .bin i => if i < c.bins.length then some { c with bins := c.bins.modify i (· + 1) } else none

namespace Histogram

variable [Field K] [LinearOrder K]

/-- The constructor: the number of bins becomes odd. -/
def new (scale : K) (nbins : ℕ) (sigma : K) : Histogram K where
  acc := .empty
  data := []
  scale := scale
  nbins := if nbins % 2 = 0 then nbins + 1 else nbins
  sigma := sigma

/-- `operator()(value_type)`. -/
def add (h : Histogram K) (sample : K) : Histogram K :=
  { h with data := h.data ++ [sample], acc := h.acc.add sample }

omit [Field K] in
/-- `std::sort` on the samples. -/
def sort (h : Histogram K) : Histogram K := { h with data := h.data.mergeSort fun a b => decide (a ≤ b) }

/-- `clear`. -/
def clear (h : Histogram K) : Histogram K := { h with data := [], acc := h.acc.clear }

omit [Field K] [LinearOrder K] in
/-- `num_samples`. -/
def numSamples (h : Histogram K) : ℕ := h.acc.numSamples

/-- `mean`. -/
def mean (h : Histogram K) : K := h.acc.mean * h.scale

/-- `stddev`. -/
def stddev (sqrt : K → K) (h : Histogram K) : K := h.acc.stddev sqrt * h.scale

/-- `median`: the histogram with its samples in order, and the sample in the middle. -/
def median (h : Histogram K) : Histogram K × Option K :=
  (h.sort, h.sort.data[h.numSamples / 2]?.map (· * h.scale))

/-- `percentile`. -/
def percentile [FloorSemiring K] (h : Histogram K) (percent : K) : Histogram K × Option K :=
  (h.sort, h.sort.data[⌊(h.numSamples : K) * (percent / 100)⌋₊]?.map (· * h.scale))

section Bins

variable (sqrt : K → K) (h : Histogram K)

/-- `min` in `operator<<`. -/
def lower : K := h.mean - h.sigma * h.stddev sqrt

/-- `max` in `operator<<`. -/
def upper : K := h.mean + h.sigma * h.stddev sqrt

/-- `width` in `operator<<`. -/
def width : K := (2 : ℕ) * h.sigma * h.stddev sqrt

/-- `bin_width` in `operator<<`. -/
def binWidth : K := h.width sqrt / h.nbins

variable [FloorSemiring K]

/-- What a sample is counted in: a division by the width of a bin is made only between the limits. -/
def slot (x : K) : Option Slot :=
  if x * h.scale < h.lower sqrt then some .underRange
  else if x * h.scale ≥ h.upper sqrt then some .overRange
  else if h.binWidth sqrt = 0 then none
  else some (.bin ⌊(x * h.scale - h.lower sqrt) / h.binWidth sqrt⌋₊)

/-- The counts of all samples. -/
def counts : Option Counts :=
  h.data.foldlM (fun c x => (h.slot sqrt x).bind c.add) ⟨List.replicate h.nbins 0, 0, 0⟩

end Bins

end Histogram

end Ghexbench.Stats
