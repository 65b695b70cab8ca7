import Ghexbench.Stats.Binning
import Mathlib.Data.Rat.Cast.OfScientific
import Mathlib.Tactic.NormNum.OfScientific

/-!
# The printed histogram

`operator<<` prints a row for the samples below the bins if the centre of the first bin is positive, a row
for every bin whose centre is not negative, and a row for the samples above the bins. Times are not negative,
so that a row that is left out before the first bin holds no sample. A bin with a negative centre may reach
above zero, and its samples are in no row that is printed.
-/

namespace Ghexbench.Stats

section Model

variable {K : Type*}

/-- What a row is for. -/
inductive Label (K : Type*)
  | outlier (title : String)
  | centre (mu : K)

/-- A line of the output: a row with the count of its samples, the percentage of all samples that it prints,
and the length of its bar, or a line between rows. -/
inductive Line (K : Type*)
  | row (label : Label K) (count : ℕ) (percent : K) (bar : ℕ)
  | rule

/-- The samples that a line accounts for. -/
def Line.count : Line K → ℕ
  | row _ count _ _ => count
  | rule => 0

variable [Field K] [LinearOrder K] [FloorSemiring K] (sqrt : K → K) (h : Histogram K)

namespace Histogram

/-- The centre of a bin. -/
def mu (i : ℕ) : K := (i + 0.5) * h.binWidth sqrt + h.lower sqrt

/-- `print_row` and `print_outlier_row`, with what `print_bar` prints. -/
def row (label : Label K) (x : ℕ) : Line K :=
  .row label x ((x : K) * 100.0 / h.numSamples) ⌊(x : K) * 1.0 / h.numSamples * (50 : ℕ)⌋₊

/-- The row of the samples below the bins. -/
def underRows (underCount : ℕ) : List (Line K) :=
  if 0.5 * h.binWidth sqrt + h.lower sqrt > 0 then [h.row (.outlier "under") underCount] else []

/-- The rows of the bins. -/
def binRows (bins : List ℕ) : List (Line K) :=
  (List.range h.nbins).flatMap fun i =>
    if h.mu sqrt i < 0 then [] else [h.row (.centre (h.mu sqrt i)) (bins.getD i 0)]

/-- The lines that `operator<<` prints. -/
def lines : Option (List (Line K)) :=
  (h.counts sqrt).map fun c =>
    h.underRows sqrt c.underCount ++ [.rule] ++ h.binRows sqrt c.bins ++
      [.rule, h.row (.outlier "over") c.overCount]

/-- The printed rows account for all samples. -/
def AccountsForAll : Prop :=
  ∃ ls, h.lines sqrt = some ls ∧ (ls.map Line.count).sum = h.numSamples

/-- The lower edge of a bin, which is the upper one of the bin before. -/
def edge (i : ℕ) : K := h.mean + h.sigma * h.stddev sqrt * ((2 * i : ℕ) / h.nbins - 1)

end Histogram

end Model

section Edges

variable {K : Type*} [Field K] [LinearOrder K] [FloorSemiring K] {sqrt : K → K} {h : Histogram K}

/-- The edges lie a bin width apart, from the lower limit on. -/
theorem edge_eq (sqrt : K → K) (hpos : 0 < h.nbins) (i : ℕ) :
    h.edge sqrt i = h.lower sqrt + i * h.binWidth sqrt := by
  have hbins : (h.nbins : K) ≠ 0 := Nat.cast_ne_zero.mpr hpos.ne'
  simp only [Histogram.edge, Histogram.lower, Histogram.binWidth, Histogram.width]
  push_cast
  field_simp
  ring

/-- The last edge is the upper limit. -/
theorem edge_last (sqrt : K → K) (hpos : 0 < h.nbins) : h.edge sqrt h.nbins = h.upper sqrt := by
  rw [edge_eq sqrt hpos, ← upper_sub_lower sqrt hpos, add_sub_cancel]

/-- The centre lies in the middle between the edges. -/
theorem edge_add_edge (sqrt : K → K) (hpos : 0 < h.nbins) (i : ℕ) :
    h.edge sqrt i + h.edge sqrt (i + 1) = 2 * h.mu sqrt i := by
  rw [edge_eq sqrt hpos, edge_eq sqrt hpos, Histogram.mu]
  have hhalf : (0.5 : K) = 1 / 2 := by norm_num
  rw [hhalf]
  push_cast
  ring

variable [IsStrictOrderedRing K]

/-- A bin has a negative centre if its edges add up to less than zero. -/
theorem mu_neg_iff (sqrt : K → K) (hpos : 0 < h.nbins) (i : ℕ) :
    h.mu sqrt i < 0 ↔ h.edge sqrt i + h.edge sqrt (i + 1) < 0 := by
  rw [edge_add_edge sqrt hpos]
  constructor
  · intro hmu
    linarith
  · intro hsum
    linarith

/-- Edges are in order. -/
theorem edge_mono (hpos : 0 < h.nbins) (hwidth : 0 ≤ h.binWidth sqrt) : Monotone (h.edge sqrt) := by
  intro i j hij
  rw [edge_eq sqrt hpos, edge_eq sqrt hpos]
  gcongr

/-- The row below the bins is left out only if no sample lies below them. -/
theorem lower_nonpos (hwidth : 0 ≤ h.binWidth sqrt) (hprint : ¬ 0.5 * h.binWidth sqrt + h.lower sqrt > 0) :
    h.lower sqrt ≤ 0 := by
  have hhalf : 0 ≤ 0.5 * h.binWidth sqrt := mul_nonneg (by norm_num) hwidth
  linarith

end Edges

section Counting

variable {K : Type*} [Field K] [LinearOrder K] [FloorSemiring K] {sqrt : K → K} {h : Histogram K}
  {slots : List Slot}

/-- What the rows of the bins account for. -/
theorem sum_binRows (sqrt : K → K) (h : Histogram K) (slots : List Slot) :
    ((h.binRows sqrt (Counts.ofSlots h.nbins slots).bins).map Line.count).sum =
      ∑ i ∈ Finset.range h.nbins, if h.mu sqrt i < 0 then 0 else slots.count (.bin i) := by
  have hrow (i : ℕ) (hi : i ∈ List.range h.nbins) :
      ((if h.mu sqrt i < 0 then [] else
        [h.row (.centre (h.mu sqrt i)) ((Counts.ofSlots h.nbins slots).bins.getD i 0)]).map Line.count).sum =
      if h.mu sqrt i < 0 then 0 else slots.count (.bin i) := by
    split
    · rfl
    · simp [Histogram.row, Line.count, Counts.ofSlots, List.mem_range.mp hi]
  change _ = ((List.range h.nbins).map _).sum
  rw [Histogram.binRows, List.map_flatMap, List.flatMap_def, List.sum_flatten, List.map_map]
  exact congrArg List.sum (List.map_congr_left hrow)

/-- The row below the bins accounts for its slots if it is left out only without them. -/
theorem sum_underRows (hunder : ¬ 0.5 * h.binWidth sqrt + h.lower sqrt > 0 → .underRange ∉ slots) :
    ((h.underRows sqrt (slots.count .underRange)).map Line.count).sum = slots.count .underRange := by
  unfold Histogram.underRows
  split
  · rfl
  · next hprint => exact (List.count_eq_zero.mpr (hunder hprint)).symm

/-- What the printed rows account for. -/
theorem exists_lines (hcounts : h.counts sqrt = some (.ofSlots h.nbins slots))
    (hunder : ¬ 0.5 * h.binWidth sqrt + h.lower sqrt > 0 → .underRange ∉ slots) :
    ∃ ls, h.lines sqrt = some ls ∧ (ls.map Line.count).sum = slots.count .underRange +
      (∑ i ∈ Finset.range h.nbins, if h.mu sqrt i < 0 then 0 else slots.count (.bin i)) +
        slots.count .overRange := by
  refine ⟨_, congrArg (Option.map _) hcounts, ?_⟩
  rw [List.map_append, List.map_append, List.map_append, List.sum_append, List.sum_append, List.sum_append,
    sum_binRows]
  have hover : ([Line.rule, h.row (.outlier "over") (slots.count Slot.overRange)].map Line.count).sum =
      slots.count Slot.overRange := Nat.zero_add _
  change ((h.underRows sqrt (slots.count .underRange)).map Line.count).sum + 0 + _ +
    ([Line.rule, h.row (.outlier "over") (slots.count .overRange)].map Line.count).sum = _
  rw [sum_underRows hunder, hover, Nat.add_zero]

omit [FloorSemiring K] in
/-- Every slot is in a row that is printed or in a bin that is left out. -/
theorem printed_add_omitted (hslots : ∀ s ∈ slots, s.Valid h.nbins) :
    slots.count .underRange +
      (∑ i ∈ Finset.range h.nbins, if h.mu sqrt i < 0 then 0 else slots.count (.bin i)) +
        slots.count .overRange +
      (∑ i ∈ Finset.range h.nbins, if h.mu sqrt i < 0 then slots.count (.bin i) else 0) = slots.length := by
  have hsplit : (∑ i ∈ Finset.range h.nbins, if h.mu sqrt i < 0 then 0 else slots.count (.bin i)) +
      (∑ i ∈ Finset.range h.nbins, if h.mu sqrt i < 0 then slots.count (.bin i) else 0) =
        ∑ i ∈ Finset.range h.nbins, slots.count (.bin i) := by
    rw [← Finset.sum_add_distrib]
    refine Finset.sum_congr rfl fun i _ => ?_
    split
    · exact Nat.zero_add _
    · rfl
  have htotal : slots.count .underRange + slots.count .overRange +
      ∑ i ∈ Finset.range h.nbins, slots.count (.bin i) = slots.length := Counts.total_ofSlots hslots
  omega

/-- The printed rows account for all slots if and only if no slot is a bin that is left out. -/
theorem accounts_iff_slots (hslots : ∀ s ∈ slots, s.Valid h.nbins)
    (hcounts : h.counts sqrt = some (.ofSlots h.nbins slots)) (hnum : h.numSamples = slots.length)
    (hunder : ¬ 0.5 * h.binWidth sqrt + h.lower sqrt > 0 → .underRange ∉ slots) :
    h.AccountsForAll sqrt ↔ ∀ i < h.nbins, h.mu sqrt i < 0 → .bin i ∉ slots := by
  obtain ⟨ls, hls, hsum⟩ := exists_lines hcounts hunder
  have hall : h.AccountsForAll sqrt ↔
      (∑ i ∈ Finset.range h.nbins, if h.mu sqrt i < 0 then slots.count (.bin i) else 0) = 0 := by
    rw [Histogram.AccountsForAll, hls, hnum, ← printed_add_omitted hslots, ← hsum]
    simp
  rw [hall, Finset.sum_eq_zero_iff]
  constructor
  · intro hzero i hi hmu
    have hcount := hzero i (Finset.mem_range.mpr hi)
    rw [if_pos hmu] at hcount
    exact List.count_eq_zero.mp hcount
  · intro hmissing i hi
    split
    · next hmu => exact List.count_eq_zero.mpr (hmissing i (Finset.mem_range.mp hi) hmu)
    · rfl

end Counting

section Samples

variable {K : Type*} [Field K] [LinearOrder K] [IsStrictOrderedRing K] [FloorSemiring K] {sqrt : K → K}
  {h : Histogram K} {i : ℕ} {x : K}

/-- Without the row below the bins no sample lies below them. -/
theorem no_underRange (hpos : 0 < h.nbins) (hwidth : 0 ≤ h.binWidth sqrt)
    (hscaled : ∀ x ∈ h.data, 0 ≤ x * h.scale) (hprint : ¬ 0.5 * h.binWidth sqrt + h.lower sqrt > 0) :
    .underRange ∉ h.data.filterMap (h.slot sqrt) := by
  intro hmem
  obtain ⟨x, hx, hslot⟩ := List.mem_filterMap.mp hmem
  have hlower := lower_nonpos hwidth hprint
  have hnonneg := hscaled x hx
  obtain ⟨-, hlt⟩ | ⟨hs, -⟩ | ⟨i, hs, -⟩ := slot_spec sqrt hpos x
  · linarith
  · cases hs.symm.trans hslot
  · cases hs.symm.trans hslot

/-- A sample below the upper edge of a bin with a negative centre is in a bin with a negative centre. -/
theorem exists_omitted (hpos : 0 < h.nbins) (hwidth : 0 ≤ h.binWidth sqrt) (hi : i < h.nbins)
    (hmu : h.mu sqrt i < 0) (hx : 0 ≤ x * h.scale) (hlt : x * h.scale < h.edge sqrt (i + 1)) :
    ∃ j < h.nbins, h.mu sqrt j < 0 ∧ h.slot sqrt x = some (.bin j) := by
  have hmono := edge_mono hpos hwidth
  have hedges : h.edge sqrt i + h.edge sqrt (i + 1) < 0 := (mu_neg_iff sqrt hpos i).mp hmu
  obtain ⟨-, hunder⟩ | ⟨-, -, hover⟩ | ⟨j, hs, hbin⟩ := slot_spec sqrt hpos x
  · -- the lower limit is the first edge, which is negative
    have hfirst : h.edge sqrt 0 = h.lower sqrt := by simp [edge_eq sqrt hpos]
    have hle := hmono (Nat.zero_le i)
    linarith
  · -- the upper limit is the last edge
    have hle := hmono (show i + 1 ≤ h.nbins from hi)
    rw [edge_last sqrt hpos] at hle
    linarith
  · have hle : h.edge sqrt j ≤ x * h.scale := (edge_eq sqrt hpos j).trans_le hbin.lower_le
    have hji : j ≤ i := by
      by_contra hij
      have := hmono (show i + 1 ≤ j by omega)
      linarith
    refine ⟨j, hbin.lt, (mu_neg_iff sqrt hpos j).mpr ?_, hs⟩
    have hlow := hmono hji
    have hhigh := hmono (Nat.succ_le_succ hji)
    linarith

/-- The printed rows account for all samples if and only if no sample lies below the upper edge of a bin
with a negative centre. -/
theorem accounts_iff (hpos : 0 < h.nbins) (hwidth : 0 ≤ h.binWidth sqrt)
    (hscaled : ∀ x ∈ h.data, 0 ≤ x * h.scale) (hnum : h.numSamples = h.data.length) :
    h.AccountsForAll sqrt ↔ ∀ i < h.nbins, h.edge sqrt i + h.edge sqrt (i + 1) < 0 →
      ∀ x ∈ h.data, h.edge sqrt (i + 1) ≤ x * h.scale := by
  have hlength := hnum.trans (length_filterMap_slot sqrt hpos h.data).symm
  rw [accounts_iff_slots (valid_of_mem_slots hpos _) (counts_eq sqrt hpos) hlength
    (no_underRange hpos hwidth hscaled)]
  constructor
  · intro hmissing i hi hedges x hx
    by_contra hlt
    obtain ⟨j, hj, hmu, hs⟩ := exists_omitted hpos hwidth hi ((mu_neg_iff sqrt hpos i).mpr hedges)
      (hscaled x hx) (not_le.mp hlt)
    exact hmissing j hj hmu (List.mem_filterMap.mpr ⟨x, hx, hs⟩)
  · intro habove i hi hmu hmem
    obtain ⟨x, hx, hs⟩ := List.mem_filterMap.mp hmem
    have hle := habove i hi ((mu_neg_iff sqrt hpos i).mp hmu) x hx
    obtain ⟨hs', -⟩ | ⟨hs', -⟩ | ⟨j, hs', hbin⟩ := slot_spec sqrt hpos x
    · cases hs'.symm.trans hs
    · cases hs'.symm.trans hs
    · obtain rfl := Slot.bin.inj (Option.some.inj (hs'.symm.trans hs))
      have hlt := hbin.lt_upper
      rw [edge_eq sqrt hpos, Nat.cast_succ] at hle
      linarith

omit [FloorSemiring K] in
/-- The width of a bin is not negative. -/
theorem binWidth_nonneg (hsqrt : ∀ v, 0 ≤ v → 0 ≤ sqrt v) {scale sigma : K} (hscale : 0 ≤ scale)
    (hsigma : 0 ≤ sigma) (nbins : ℕ) (samples : List K) :
    0 ≤ (Histogram.ofSamples scale nbins sigma samples).binWidth sqrt := by
  rw [Histogram.ofSamples_eq]
  have hstddev := Accumulator.stddev_ofSamples_nonneg hsqrt samples
  exact div_nonneg (mul_nonneg (mul_nonneg (Nat.cast_nonneg 2) hsigma) (mul_nonneg hstddev hscale))
    (Nat.cast_nonneg _)

/-- The same for the histogram of a list of samples. -/
theorem accounts_ofSamples_iff (hsqrt : ∀ v, 0 ≤ v → 0 ≤ sqrt v) {scale sigma : K} (hscale : 0 ≤ scale)
    (hsigma : 0 ≤ sigma) (nbins : ℕ) {samples : List K} (hsamples : ∀ x ∈ samples, 0 ≤ x)
    (hh : h = Histogram.ofSamples scale nbins sigma samples) :
    h.AccountsForAll sqrt ↔ ∀ i < h.nbins, h.edge sqrt i + h.edge sqrt (i + 1) < 0 →
      ∀ x ∈ samples, h.edge sqrt (i + 1) ≤ x * h.scale := by
  have heq := hh.trans (Histogram.ofSamples_eq scale nbins sigma samples)
  have hdata : h.data = samples := by rw [heq]
  rw [accounts_iff (hh ▸ Histogram.nbins_pos scale nbins sigma samples)
    (hh ▸ binWidth_nonneg hsqrt hscale hsigma nbins samples) ?_ ?_, hdata]
  · rw [heq]
    exact fun x hx => mul_nonneg (hsamples x hx) hscale
  · rw [heq]
    rfl

end Samples

section Timings

/-- Three timings of a millisecond and one of 31 milliseconds, in nanoseconds. -/
noncomputable def skewedTimings : List ℝ := [1000000, 1000000, 1000000, 31000000].map (Nat.cast : ℕ → ℝ)

/-- The histogram of `runtime::exchange` for these timings. -/
noncomputable def skewedHistogram : Histogram ℝ :=
  Histogram.ofSamples (1.0e-9 : ℝ) 20 ((2 : ℕ) : ℝ) skewedTimings

/-- What the histogram holds. -/
theorem skewed_eq : skewedHistogram = { Histogram.new (1.0e-9 : ℝ) 20 ((2 : ℕ) : ℝ) with
    data := skewedTimings, acc := .ofSamples skewedTimings } := Histogram.ofSamples_eq ..

/-- The standard deviation is a number whose square is the variance. -/
theorem stddev_of_variance {l : List ℝ} {s : ℝ} (hmany : (Accumulator.ofSamples l).numSamples > 1)
    (hs : 0 ≤ s) (hvariance : (Accumulator.ofSamples l).variance = s ^ 2) :
    (Accumulator.ofSamples l).stddev Real.sqrt = s := by
  rw [Accumulator.stddev, if_pos hmany, hvariance, Real.sqrt_sq hs]

/-- The mean is 8.5 milliseconds. -/
theorem mean_skewed : skewedHistogram.mean = (0.0085 : ℝ) := by
  rw [skewed_eq]
  norm_num [Histogram.mean, Histogram.new, Accumulator.ofSamples, Common.mean, skewedTimings]

/-- The standard deviation is 15 milliseconds. -/
theorem stddev_skewed : skewedHistogram.stddev Real.sqrt = (0.015 : ℝ) := by
  have hvariance : (Accumulator.ofSamples skewedTimings).variance = (15000000 : ℝ) ^ 2 := by
    norm_num [Accumulator.variance, Accumulator.ofSamples, Common.sqDev, Common.deviations, Common.mean,
      skewedTimings]
  rw [skewed_eq, Histogram.stddev, stddev_of_variance (by decide) (by norm_num) hvariance]
  norm_num [Histogram.new]

/-- The edges. -/
theorem edge_skewed (i : ℕ) :
    skewedHistogram.edge Real.sqrt i = (0.0085 : ℝ) + (0.03 : ℝ) * ((2 * i : ℕ) / (21 : ℕ) - 1) := by
  have hsigma : skewedHistogram.sigma = ((2 : ℕ) : ℝ) := by rw [skewed_eq, Histogram.new]
  have hnbins : skewedHistogram.nbins = 21 := by
    rw [skewed_eq]
    rfl
  rw [Histogram.edge, mean_skewed, stddev_skewed, hsigma, hnbins]
  norm_num

/-- For times, a positive scale and a positive number of standard deviations, the printed rows account for
all samples if and only if no sample lies below the upper edge of a bin whose edges add up to less than zero. -/
theorem printed_accounts_iff {K : Type*} [Field K] [LinearOrder K] [IsStrictOrderedRing K] [FloorSemiring K]
    (sqrt : K → K) (hsqrt : ∀ v, 0 ≤ v → 0 ≤ sqrt v) (scale : K) (hscale : 0 < scale) (nbins : ℕ) (sigma : K)
    (hsigma : 0 < sigma) (samples : List K) (hsamples : ∀ x ∈ samples, 0 ≤ x) (h : Histogram K)
    (hh : h = Histogram.ofSamples scale nbins sigma samples) :
    h.AccountsForAll sqrt ↔ ∀ i < h.nbins, h.edge sqrt i + h.edge sqrt (i + 1) < 0 →
      ∀ x ∈ samples, h.edge sqrt (i + 1) ≤ x * h.scale :=
  accounts_ofSamples_iff hsqrt hscale.le hsigma.le nbins hsamples hh

/-- Timings of 8, 10 and 12 seconds are all accounted for: the edges lie between 6 and 14 seconds. -/
theorem printed_accounts_three :
    (Histogram.ofSamples (1 : ℝ) 20 ((2 : ℕ) : ℝ) ([8, 10, 12].map (Nat.cast : ℕ → ℝ))).AccountsForAll
      Real.sqrt := by
  refine (printed_accounts_iff Real.sqrt (fun v _ => Real.sqrt_nonneg v) 1 one_pos 20 ((2 : ℕ) : ℝ) (by simp)
    ([8, 10, 12].map (Nat.cast : ℕ → ℝ)) (by simp) _ rfl).mpr ?_
  have hvariance : (Accumulator.ofSamples ([8, 10, 12].map (Nat.cast : ℕ → ℝ))).variance = 2 ^ 2 := by
    norm_num [Accumulator.variance, Accumulator.ofSamples, Common.sqDev, Common.deviations, Common.mean]
  have hstddev := stddev_of_variance (by decide) zero_le_two hvariance
  have hedge (i : ℕ) : 0 ≤ (Histogram.ofSamples (1 : ℝ) 20 ((2 : ℕ) : ℝ)
      ([8, 10, 12].map (Nat.cast : ℕ → ℝ))).edge Real.sqrt i := by
    rw [Histogram.ofSamples_eq, Histogram.edge, Histogram.stddev, hstddev]
    norm_num [Histogram.mean, Histogram.new, Accumulator.ofSamples, Common.mean]
    have : 0 ≤ (i : ℝ) := Nat.cast_nonneg i
    linarith
  intro i _ hedges
  linarith [hedge i, hedge (i + 1)]

/-- Three of four timings are in no row that is printed. -/
theorem printed_missing_skewed : ¬ skewedHistogram.AccountsForAll Real.sqrt := by
  have hsamples : ∀ x ∈ skewedTimings, (0 : ℝ) ≤ x := by simp [skewedTimings]
  rw [accounts_ofSamples_iff (h := skewedHistogram) (fun v _ => Real.sqrt_nonneg v) (by norm_num)
    (Nat.cast_nonneg 2) 20 hsamples rfl]
  -- bin 7 reaches from -1.5 to 1.36 milliseconds
  intro habove
  have hbin : 7 < skewedHistogram.nbins := by
    rw [skewed_eq]
    decide
  have hscale : skewedHistogram.scale = (1.0e-9 : ℝ) := by rw [skewed_eq, Histogram.new]
  have hcentre : skewedHistogram.edge Real.sqrt 7 + skewedHistogram.edge Real.sqrt (7 + 1) < 0 := by
    rw [edge_skewed, edge_skewed]
    norm_num
  have hsample := habove 7 hbin hcentre 1000000 (by simp [skewedTimings])
  rw [edge_skewed, hscale] at hsample
  norm_num at hsample

end Timings

end Ghexbench.Stats
