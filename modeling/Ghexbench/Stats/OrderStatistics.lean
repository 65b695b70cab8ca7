import Ghexbench.Stats.Histogram
import Mathlib.Algebra.Order.Field.Rat
import Mathlib.Algebra.Order.Floor.Semifield
import Mathlib.Data.Rat.Floor
import Mathlib.Tactic.Linarith
import Mathlib.Tactic.Positivity

/-!
# Median and percentiles

A histogram that has gone through any insertions, clears and reads holds the samples inserted since it
was cleared, in some order, and its accumulator is the one of these samples. The median and the
percentiles below 100 are samples if there are any, and ordered like the percents. Without samples, and
for the percentile 100, the read goes past the end of the vector.
-/

namespace Ghexbench.Stats

variable {K : Type*}

/-- A call of a member function. -/
inductive Call (K : Type*)
  | add (sample : K)
  | clear
  | median
  | percentile (percent : K)

section Calls

variable [Field K] [LinearOrder K] [FloorSemiring K]

/-- What a call does to the histogram. -/
def Call.apply (h : Histogram K) : Call K → Histogram K
  | add sample => h.add sample
  | clear => h.clear
  | median => h.median.1
  | percentile percent => (h.percentile percent).1

/-- The histogram after some calls. -/
def Histogram.after (h : Histogram K) (calls : List (Call K)) : Histogram K := calls.foldl Call.apply h

omit [Field K] [LinearOrder K] [FloorSemiring K] in
/-- What a call does to the list of samples. -/
def Call.track (samples : List K) : Call K → List K
  | add sample => samples ++ [sample]
  | clear => []
  | _ => samples

omit [Field K] [LinearOrder K] [FloorSemiring K] in
/-- The samples inserted since the last clear. -/
def inserted (calls : List (Call K)) : List K := calls.foldl Call.track []

/-- The order statistics of samples are well defined: the reads are reads of samples, and their values
are ordered like the percents. -/
structure OrderStatistics (h : Histogram K) (samples : List K) (p q : K) : Prop where
  stored : h.data.length = h.numSamples
  median : h.median.2.isSome
  lower : (h.percentile p).2.isSome
  upper : (h.percentile q).2.isSome
  half : (h.percentile 50).2 = h.median.2
  ordered : ∀ least greatest, IsLeast {x | x ∈ samples} least →
    IsGreatest {x | x ∈ samples} greatest →
      ∀ a b, (h.percentile p).2 = some a → (h.percentile q).2 = some b →
        least * h.scale ≤ a ∧ a ≤ b ∧ b ≤ greatest * h.scale

/-- A histogram holds samples. -/
structure Histogram.Holds (h : Histogram K) (samples : List K) : Prop where
  acc : h.acc = .ofSamples samples
  data : h.data.Perm samples

end Calls

section Holds

variable [Field K] [LinearOrder K] {h : Histogram K} {samples : List K}

omit [Field K] in
/-- Sorting keeps the samples. -/
theorem Histogram.sort_perm (h : Histogram K) : h.sort.data.Perm h.data := List.mergeSort_perm _ _

omit [Field K] in
/-- Sorting puts the samples in order. -/
theorem Histogram.sort_pairwise (h : Histogram K) : h.sort.data.Pairwise (· ≤ ·) := by
  have hsorted : h.sort.data.Pairwise fun a b => decide (a ≤ b) = true :=
    List.pairwise_mergeSort
      (fun a b c hab hbc => by simpa using (of_decide_eq_true hab).trans (of_decide_eq_true hbc))
      (fun a b => by simpa using le_total a b) h.data
  exact hsorted.imp of_decide_eq_true

/-- A new histogram holds no samples. -/
theorem Histogram.holds_new (scale : K) (nbins : ℕ) (sigma : K) : (new scale nbins sigma).Holds [] where
  acc := Accumulator.ofSamples_nil.symm
  data := List.Perm.refl []

namespace Histogram.Holds

/-- Sorting keeps the samples and the counter. -/
theorem sort (hh : h.Holds samples) : h.sort.Holds samples where
  acc := hh.acc
  data := h.sort_perm.trans hh.data

/-- As many samples are stored as are counted. -/
theorem numSamples_eq (hh : h.Holds samples) : h.numSamples = samples.length := by
  rw [numSamples, hh.acc, Accumulator.numSamples_ofSamples]

variable [IsStrictOrderedRing K] [FloorSemiring K]

/-- A call leaves a histogram that holds the samples. -/
theorem step (hh : h.Holds samples) (call : Call K) : (call.apply h).Holds (call.track samples) := by
  cases call with
  | add sample =>
    constructor
    · change h.acc.add sample = _
      rw [hh.acc, Accumulator.add_ofSamples]
      rfl
    · exact hh.data.append_right [sample]
  | clear =>
    constructor
    · exact Accumulator.ofSamples_nil.symm
    · exact List.Perm.refl []
  | median => exact hh.sort
  | percentile percent => exact hh.sort

/-- The samples are held after any calls. -/
theorem after (hh : h.Holds samples) (calls : List (Call K)) :
    (h.after calls).Holds (calls.foldl Call.track samples) := by
  induction calls generalizing h samples with
  | nil => exact hh
  | cons call calls ih => exact ih (hh.step call)

omit [IsStrictOrderedRing K] in
/-- Calls do not change the scale. -/
theorem scale_after (h : Histogram K) (calls : List (Call K)) : (h.after calls).scale = h.scale := by
  induction calls generalizing h with
  | nil => rfl
  | cons call calls ih =>
    change ((call.apply h).after calls).scale = _
    rw [ih]
    cases call <;> rfl

end Histogram.Holds

end Holds

section Reads

variable [Field K] [LinearOrder K] {h : Histogram K} {samples : List K} {i j : ℕ} {a b : K}

/-- A read is one of a sample if the index is less than the number of samples. -/
theorem Histogram.Holds.isSome_iff (hh : h.Holds samples) :
    (h.sort.data[i]?.map (· * h.scale)).isSome ↔ i < samples.length := by
  rw [Option.isSome_map, Option.isSome_iff_ne_none, ne_eq, List.getElem?_eq_none_iff, not_le,
    hh.sort.data.length_eq]

omit [Field K] in
/-- Samples are in order after sorting. -/
theorem Histogram.sort_le (hij : i ≤ j) (ha : h.sort.data[i]? = some a)
    (hb : h.sort.data[j]? = some b) : a ≤ b := by
  obtain ⟨hi, rfl⟩ := List.getElem?_eq_some_iff.mp ha
  obtain ⟨hj, rfl⟩ := List.getElem?_eq_some_iff.mp hb
  cases hij.lt_or_eq with
  | inl hlt => exact List.pairwise_iff_getElem.mp h.sort_pairwise i j hi hj hlt
  | inr heq =>
    subst heq
    exact le_rfl

variable [IsStrictOrderedRing K] [FloorSemiring K] {p q : K} {n : ℕ}

/-- The index of a percentile is less than the number of samples if the percent is less than 100. -/
theorem floor_percent_lt_iff (hn : 0 < n) (hp : 0 ≤ p) : ⌊(n : K) * (p / 100)⌋₊ < n ↔ p < 100 := by
  have hpos : (0 : K) < n := Nat.cast_pos.mpr hn
  rw [Nat.floor_lt (by positivity)]
  constructor
  · intro h
    have hlt : p / 100 < 1 := (mul_lt_iff_lt_one_right hpos).mp h
    linarith
  · intro h
    exact (mul_lt_iff_lt_one_right hpos).mpr (by linarith)

/-- The indices of percentiles are ordered like the percents. -/
theorem floor_percent_mono (n : ℕ) (hpq : p ≤ q) :
    ⌊(n : K) * (p / 100)⌋₊ ≤ ⌊(n : K) * (q / 100)⌋₊ := by
  apply Nat.floor_mono
  gcongr

/-- The index of the percentile 50 is that of the median. -/
theorem floor_percent_half (n : ℕ) : ⌊(n : K) * (50 / 100)⌋₊ = n / 2 := by
  have hhalf : (n : K) * (50 / 100) = (n : K) / (2 : ℕ) := by
    push_cast
    ring
  rw [hhalf, Nat.floor_div_eq_div]

/-- With a non-negative scale the order statistics are well defined if there are samples and the percent
is less than 100. -/
theorem Histogram.Holds.orderStatistics (hh : h.Holds samples) (hscale : 0 ≤ h.scale) (hp : 0 ≤ p)
    (hpq : p ≤ q) (hne : samples ≠ []) (hq : q < 100) : OrderStatistics h samples p q := by
  have hlength : 0 < samples.length := List.length_pos_iff.mpr hne
  constructor
  · rw [hh.numSamples_eq, hh.data.length_eq]
  · rw [median, hh.isSome_iff, hh.numSamples_eq]
    exact Nat.div_lt_self hlength Nat.one_lt_two
  · rw [percentile, hh.isSome_iff, hh.numSamples_eq, floor_percent_lt_iff hlength hp]
    exact hpq.trans_lt hq
  · rw [percentile, hh.isSome_iff, hh.numSamples_eq, floor_percent_lt_iff hlength (hp.trans hpq)]
    exact hq
  · rw [percentile, median, floor_percent_half]
  · intro least greatest hleast hgreatest a b ha hb
    obtain ⟨x, hx, rfl⟩ := Option.map_eq_some_iff.mp ha
    obtain ⟨y, hy, rfl⟩ := Option.map_eq_some_iff.mp hb
    have hxmem : x ∈ samples := hh.sort.data.mem_iff.mp (List.mem_of_getElem? hx)
    have hymem : y ∈ samples := hh.sort.data.mem_iff.mp (List.mem_of_getElem? hy)
    have hxy : x ≤ y := sort_le (floor_percent_mono _ hpq) hx hy
    exact ⟨mul_le_mul_of_nonneg_right (hleast.2 hxmem) hscale,
      mul_le_mul_of_nonneg_right hxy hscale, mul_le_mul_of_nonneg_right (hgreatest.2 hymem) hscale⟩

/-- Where the order statistics are well defined there are samples and the percent is less than 100. -/
theorem Histogram.Holds.of_orderStatistics (hh : h.Holds samples) (hq : 0 ≤ q)
    (hstat : OrderStatistics h samples p q) : samples ≠ [] ∧ q < 100 := by
  have hmedian := hstat.median
  have hupper := hstat.upper
  rw [median, hh.isSome_iff] at hmedian
  rw [percentile, hh.isSome_iff, hh.numSamples_eq] at hupper
  have hlength : 0 < samples.length := Nat.zero_lt_of_lt hmedian
  exact ⟨List.length_pos_iff.mp hlength, (floor_percent_lt_iff hlength hq).mp hupper⟩

end Reads

/-- After any calls the order statistics for two percents up to 100 are well defined if and only if there
are samples and the larger percent is less than 100. -/
theorem order_statistics_iff [Field K] [LinearOrder K] [IsStrictOrderedRing K] [FloorSemiring K]
    (scale : K) (nbins : ℕ) (sigma : K) (calls : List (Call K)) (p q : K) (hscale : 0 ≤ scale)
    (hp : 0 ≤ p) (hpq : p ≤ q) :
    OrderStatistics ((Histogram.new scale nbins sigma).after calls) (inserted calls) p q ↔
      inserted calls ≠ [] ∧ q < 100 := by
  have hh := (Histogram.holds_new scale nbins sigma).after calls
  constructor
  · exact hh.of_orderStatistics (hp.trans hpq)
  · rintro ⟨hne, hlt⟩
    apply hh.orderStatistics _ hp hpq hne hlt
    rw [Histogram.Holds.scale_after]
    exact hscale

/-- The histogram of a benchmark with two repetitions, of which the median has been asked for. -/
theorem order_statistics_two : OrderStatistics
    ((Histogram.new (1 / 10 ^ 9 : ℚ) 20 2).after [.add 7, .add 5, .median]) [7, 5] 5 95 :=
  (order_statistics_iff (1 / 10 ^ 9 : ℚ) 20 2 [.add 7, .add 5, .median] 5 95 (by positivity)
    (by norm_num) (by norm_num)).mpr ⟨List.cons_ne_nil _ _, by norm_num⟩

/-- The order statistics are not well defined without repetitions, nor is the percentile 100. -/
theorem order_statistics_fail :
    ¬ OrderStatistics ((Histogram.new (1 / 10 ^ 9 : ℚ) 20 2).after []) (inserted []) 5 95 ∧
    ¬ OrderStatistics ((Histogram.new (1 / 10 ^ 9 : ℚ) 20 2).after [.add 7]) (inserted [.add 7]) 50 100 := by
  have hnew := Histogram.holds_new (1 / 10 ^ 9 : ℚ) 20 2
  constructor
  · intro h
    exact ((hnew.after []).of_orderStatistics (by norm_num) h).1 rfl
  · intro h
    exact absurd ((hnew.after [.add 7]).of_orderStatistics (by norm_num) h).2 (lt_irrefl _)

end Ghexbench.Stats
