import Ghexbench.Stats.Histogram
import Mathlib.Algebra.Order.Archimedean.Real.Basic
import Mathlib.Algebra.Order.Floor.Semifield
import Mathlib.Analysis.Real.Sqrt
import Mathlib.Tactic.Linarith

/-!
# The bins of a histogram

A sample is counted below the bins, above them, or in the bin whose range it lies in. Between the limits
there is a positive width to divide by, and the quotient is less than the number of bins, so that nothing
is written outside the vector of bins and no sample is lost.
-/

namespace Ghexbench.Stats

section Counting

variable {n : ℕ} {s : Slot} {slots : List Slot}

/-- The slot exists if there are `n` bins. -/
def Slot.Valid (n : ℕ) : Slot → Prop
  | bin i => i < n
  | _ => True

/-- The counts of a list of slots. -/
def Counts.ofSlots (n : ℕ) (slots : List Slot) : Counts where
  bins := (List.range n).map fun i => slots.count (.bin i)
  underCount := slots.count .underRange
  overCount := slots.count .overRange

/-- Nothing has been counted yet. -/
theorem Counts.ofSlots_nil (n : ℕ) : ofSlots n [] = ⟨List.replicate n 0, 0, 0⟩ := by
  simp [ofSlots]

/-- A slot is counted. -/
theorem Counts.add_ofSlots (hs : s.Valid n) (slots : List Slot) :
    (ofSlots n slots).add s = some (ofSlots n (slots ++ [s])) := by
  cases s with
  | underRange => simp [add, ofSlots]
  | overRange => simp [add, ofSlots]
  | bin i =>
    have hi : i < n := hs
    have hlength : i < (ofSlots n slots).bins.length := by
      simpa [ofSlots] using hi
    have hbins : (ofSlots n slots).bins.modify i (· + 1) = (ofSlots n (slots ++ [.bin i])).bins := by
      apply List.ext_getElem
      · simp [ofSlots]
      · intro j hj hj'
        rw [List.getElem_modify]
        by_cases hij : i = j <;> simp [ofSlots, hij, List.count_singleton]
    rw [add, if_pos hlength, hbins]
    simp [ofSlots]

/-- The counts of the bins added up. -/
theorem Counts.sum_bins (n : ℕ) (slots : List Slot) :
    (ofSlots n slots).bins.sum = ∑ i ∈ Finset.range n, slots.count (.bin i) := rfl

/-- Every slot is counted once. -/
theorem Counts.total_ofSlots (h : ∀ s ∈ slots, s.Valid n) :
    (ofSlots n slots).underCount + (ofSlots n slots).overCount + (ofSlots n slots).bins.sum = slots.length := by
  rw [sum_bins]
  induction slots with
  | nil => simp [ofSlots]
  | cons s slots ih =>
    have hrest := ih fun s' hs' => h s' (List.mem_cons_of_mem s hs')
    have hs := h s List.mem_cons_self
    simp only [ofSlots, List.count_cons, List.length_cons, Finset.sum_add_distrib] at hrest ⊢
    cases s with
    | underRange | overRange =>
      simp
      omega
    | bin i =>
      have hi : i < n := hs
      simp [hi]
      omega

end Counting

section Run

variable {K : Type*} [Field K] [LinearOrder K] [FloorSemiring K] {sqrt : K → K} {h : Histogram K}

/-- Samples in valid slots are counted one after the other. -/
theorem foldlM_counts {n : ℕ} {l : List K} (hl : ∀ x ∈ l, ∃ s, h.slot sqrt x = some s ∧ s.Valid n)
    (slots : List Slot) :
    l.foldlM (fun (c : Counts) x => (h.slot sqrt x).bind c.add) (.ofSlots n slots) =
      some (.ofSlots n (slots ++ l.filterMap (h.slot sqrt))) := by
  induction l generalizing slots with
  | nil => simp
  | cons x l ih =>
    obtain ⟨s, hs, hvalid⟩ := hl x List.mem_cons_self
    rw [List.foldlM_cons, hs, Option.bind_some, Counts.add_ofSlots hvalid]
    change l.foldlM _ (Counts.ofSlots n (slots ++ [s])) = _
    rw [ih (fun y hy => hl y (List.mem_cons_of_mem x hy)), List.filterMap_cons, hs, List.append_assoc,
      List.singleton_append]

/-- A sample between the limits lies in the range of its bin, which exists. -/
structure InBin (sqrt : K → K) (h : Histogram K) (x : K) (i : ℕ) : Prop where
  width_ne : h.binWidth sqrt ≠ 0
  lt : i < h.nbins
  lower_le : h.lower sqrt + i * h.binWidth sqrt ≤ x * h.scale
  lt_upper : x * h.scale < h.lower sqrt + (i + 1) * h.binWidth sqrt

/-- The bins fill the range between the limits. -/
theorem upper_sub_lower (sqrt : K → K) (hpos : 0 < h.nbins) :
    h.upper sqrt - h.lower sqrt = h.nbins * h.binWidth sqrt := by
  have hbins : (h.nbins : K) ≠ 0 := Nat.cast_ne_zero.mpr hpos.ne'
  rw [Histogram.binWidth, mul_div_cancel₀ _ hbins]
  simp only [Histogram.upper, Histogram.lower, Histogram.width]
  push_cast
  ring

variable [IsStrictOrderedRing K]

/-- A sample has a slot, which is a bin if and only if the sample lies between the limits. -/
theorem slot_spec (sqrt : K → K) (hpos : 0 < h.nbins) (x : K) :
    h.slot sqrt x = some .underRange ∧ x * h.scale < h.lower sqrt ∨
    h.slot sqrt x = some .overRange ∧ h.lower sqrt ≤ x * h.scale ∧ h.upper sqrt ≤ x * h.scale ∨
    ∃ i, h.slot sqrt x = some (.bin i) ∧ InBin sqrt h x i := by
  unfold Histogram.slot
  split
  · next hunder => exact Or.inl ⟨rfl, hunder⟩
  · next hunder =>
    split
    · next hover => exact Or.inr (Or.inl ⟨rfl, not_lt.mp hunder, hover⟩)
    · next hover =>
      have hlower : h.lower sqrt ≤ x * h.scale := not_lt.mp hunder
      have hupper : x * h.scale < h.upper sqrt := not_le.mp hover
      have hwidth := upper_sub_lower sqrt hpos
      -- there is a sample between the limits, so that they differ
      have hbin : 0 < h.binWidth sqrt := by
        apply pos_of_mul_pos_right _ (Nat.cast_nonneg h.nbins)
        rw [← hwidth]
        linarith
      have hquot : 0 ≤ (x * h.scale - h.lower sqrt) / h.binWidth sqrt :=
        div_nonneg (sub_nonneg.mpr hlower) hbin.le
      rw [if_neg hbin.ne']
      refine Or.inr (Or.inr ⟨_, rfl, hbin.ne', ?_, ?_, ?_⟩)
      · rw [Nat.floor_lt hquot, div_lt_iff₀ hbin, ← hwidth]
        linarith
      · have hle := Nat.floor_le hquot
        rw [le_div_iff₀ hbin] at hle
        linarith
      · have hlt := Nat.lt_floor_add_one ((x * h.scale - h.lower sqrt) / h.binWidth sqrt)
        rw [div_lt_iff₀ hbin] at hlt
        linarith

omit [IsStrictOrderedRing K] in
/-- The samples below the limits. -/
theorem slot_eq_underRange_iff (sqrt : K → K) (h : Histogram K) (x : K) :
    h.slot sqrt x = some .underRange ↔ x * h.scale < h.lower sqrt := by
  unfold Histogram.slot
  split
  · next hunder => exact iff_of_true rfl hunder
  · next hunder =>
    apply iff_of_false _ hunder
    split <;> (try split) <;> simp

omit [IsStrictOrderedRing K] in
/-- The samples above the limits. -/
theorem slot_eq_overRange_iff (sqrt : K → K) (h : Histogram K) (x : K) :
    h.slot sqrt x = some .overRange ↔ h.lower sqrt ≤ x * h.scale ∧ h.upper sqrt ≤ x * h.scale := by
  unfold Histogram.slot
  split
  · next hunder => exact iff_of_false (by simp) fun hover => absurd hunder (not_lt.mpr hover.1)
  · next hunder =>
    split
    · next hover => exact iff_of_true rfl ⟨not_lt.mp hunder, hover⟩
    · next hover =>
      refine iff_of_false ?_ fun h => hover h.2
      split <;> simp

/-- Every sample has a slot that exists. -/
theorem exists_slot (sqrt : K → K) (hpos : 0 < h.nbins) (x : K) :
    ∃ s, h.slot sqrt x = some s ∧ s.Valid h.nbins := by
  obtain ⟨hs, -⟩ | ⟨hs, -⟩ | ⟨i, hs, hbin⟩ := slot_spec sqrt hpos x
  · exact ⟨_, hs, trivial⟩
  · exact ⟨_, hs, trivial⟩
  · exact ⟨_, hs, hbin.lt⟩

/-- The counts are those of the slots of the samples. -/
theorem counts_eq (sqrt : K → K) (hpos : 0 < h.nbins) :
    h.counts sqrt = some (.ofSlots h.nbins (h.data.filterMap (h.slot sqrt))) := by
  rw [Histogram.counts, ← Counts.ofSlots_nil, foldlM_counts fun x _ => exists_slot sqrt hpos x,
    List.nil_append]

/-- The slots of samples exist. -/
theorem valid_of_mem_slots (hpos : 0 < h.nbins) (l : List K) :
    ∀ s ∈ l.filterMap (h.slot sqrt), s.Valid h.nbins := by
  intro s hs
  obtain ⟨x, -, hx⟩ := List.mem_filterMap.mp hs
  obtain ⟨s', hs', hvalid⟩ := exists_slot sqrt hpos x
  obtain rfl := Option.some.inj (hs'.symm.trans hx)
  exact hvalid

/-- As many slots as samples. -/
theorem length_filterMap_slot (sqrt : K → K) (hpos : 0 < h.nbins) (l : List K) :
    (l.filterMap (h.slot sqrt)).length = l.length := by
  rw [List.filterMap_length_eq_length]
  intro x _
  obtain ⟨s, hs, -⟩ := exists_slot sqrt hpos x
  rw [hs]
  rfl

end Run

section Built

variable {K : Type*} [Field K] [LinearOrder K]

/-- The histogram of a list of samples. -/
def Histogram.ofSamples (scale : K) (nbins : ℕ) (sigma : K) (samples : List K) : Histogram K :=
  samples.foldl Histogram.add (.new scale nbins sigma)

/-- The samples are stored in order and accumulated, and the constants stay. -/
theorem Histogram.foldl_add (h : Histogram K) (samples : List K) :
    samples.foldl add h = { h with data := h.data ++ samples, acc := h.acc.addAll samples } := by
  induction samples generalizing h with
  | nil => rw [List.foldl_nil, List.append_nil, Accumulator.addAll, List.foldl_nil]
  | cons x samples ih =>
    rw [List.foldl_cons, ih, add, List.append_assoc, List.singleton_append]
    rfl

/-- The number of bins is odd. -/
theorem Histogram.nbins_odd (scale : K) (nbins : ℕ) (sigma : K) (samples : List K) :
    (ofSamples scale nbins sigma samples).nbins % 2 = 1 := by
  rw [ofSamples, foldl_add, new]
  dsimp only
  split <;> omega

/-- There is a bin. -/
theorem Histogram.nbins_pos (scale : K) (nbins : ℕ) (sigma : K) (samples : List K) :
    0 < (ofSamples scale nbins sigma samples).nbins := by
  have hodd := nbins_odd scale nbins sigma samples
  omega

/-- What the constructor and the samples determine. -/
theorem Histogram.ofSamples_eq [IsStrictOrderedRing K] (scale : K) (nbins : ℕ) (sigma : K) (samples : List K) :
    ofSamples scale nbins sigma samples =
      { new scale nbins sigma with data := samples, acc := .ofSamples samples } := by
  rw [ofSamples, foldl_add, ← Accumulator.empty_addAll]
  rfl

end Built

/-- Printing a histogram divides by no bin width of zero and writes to no bin that does not exist. Every
sample is counted once: below the bins if it is less than the lower limit, above them if it is not and is not
less than the upper limit either, or else in a bin, whose range it lies in. -/
theorem binning_safe {K : Type*} [Field K] [LinearOrder K] [IsStrictOrderedRing K] [FloorSemiring K]
    (sqrt : K → K) (scale : K) (nbins : ℕ) (sigma : K) (samples : List K) (h : Histogram K)
    (hh : h = Histogram.ofSamples scale nbins sigma samples) :
    (∀ x ∈ samples, ∃ s, h.slot sqrt x = some s ∧ (s = .underRange ↔ x * h.scale < h.lower sqrt) ∧
      (s = .overRange ↔ h.lower sqrt ≤ x * h.scale ∧ h.upper sqrt ≤ x * h.scale) ∧
      ∀ i, s = .bin i → InBin sqrt h x i) ∧
    ∃ c, h.counts sqrt = some c ∧ c.bins.length = h.nbins ∧
      c.underCount = samples.countP (h.slot sqrt · == some .underRange) ∧
      c.overCount = samples.countP (h.slot sqrt · == some .overRange) ∧
      (∀ i < h.nbins, c.bins[i]? = some (samples.countP (h.slot sqrt · == some (.bin i)))) ∧
      c.underCount + c.overCount + c.bins.sum = samples.length := by
  have hpos : 0 < h.nbins := hh ▸ Histogram.nbins_pos scale nbins sigma samples
  have hdata : h.data = samples := by
    rw [hh, Histogram.ofSamples_eq]
  constructor
  · intro x _
    obtain ⟨s, hs, -⟩ := exists_slot sqrt hpos x
    have hunder := slot_eq_underRange_iff sqrt h x
    have hover := slot_eq_overRange_iff sqrt h x
    rw [hs, Option.some.injEq] at hunder hover
    refine ⟨s, hs, hunder, hover, ?_⟩
    rintro i rfl
    obtain ⟨hs', -⟩ | ⟨hs', -⟩ | ⟨j, hs', hbin⟩ := slot_spec sqrt hpos x <;> cases hs.symm.trans hs'
    exact hbin
  · refine ⟨_, counts_eq sqrt hpos, ?_, ?_, ?_, ?_, ?_⟩
    · simp [Counts.ofSlots]
    · rw [hdata]
      exact List.count_filterMap
    · rw [hdata]
      exact List.count_filterMap
    · intro i hi
      rw [hdata, ← List.count_filterMap]
      simp [Counts.ofSlots, hi]
    · rw [Counts.total_ofSlots (valid_of_mem_slots hpos _), hdata, length_filterMap_slot sqrt hpos]

/-- Four samples with the mean 1/2 and the standard deviation 1: three of them are in a bin, and one is above
the bins. -/
theorem binning_safe_four : ∃ c, (Histogram.ofSamples (1 : ℝ) 11 1 [0, 0, 0, 2]).counts Real.sqrt = some c ∧
    c.bins[2]? = some 3 ∧ c.underCount = 0 ∧ c.overCount = 1 ∧
    c.underCount + c.overCount + c.bins.sum = 4 := by
  obtain ⟨h, hh⟩ : ∃ h, h = Histogram.ofSamples (1 : ℝ) 11 1 [0, 0, 0, 2] := ⟨_, rfl⟩
  have hmean : h.mean = 1 / 2 := by
    rw [hh, Histogram.ofSamples_eq]
    norm_num [Histogram.mean, Histogram.new, Accumulator.ofSamples, Common.mean]
  have hdev : h.stddev Real.sqrt = 1 := by
    rw [hh, Histogram.ofSamples_eq]
    norm_num [Histogram.stddev, Histogram.new, Accumulator.stddev, Accumulator.variance, Accumulator.ofSamples,
      Common.mean, Common.sqDev, Common.deviations]
  have hconst : h.scale = 1 ∧ h.sigma = 1 ∧ h.nbins = 11 := by
    rw [hh, Histogram.ofSamples_eq]
    exact ⟨rfl, rfl, rfl⟩
  obtain ⟨hscale, hsigma, hnbins⟩ := hconst
  have hzero : h.slot Real.sqrt 0 = some (.bin 2) := by
    norm_num [Histogram.slot, Histogram.lower, Histogram.upper, Histogram.binWidth, Histogram.width, hmean, hdev,
      hscale, hsigma, hnbins]
  have htwo : h.slot Real.sqrt 2 = some .overRange := by
    norm_num [Histogram.slot, Histogram.lower, Histogram.upper, hmean, hdev, hscale, hsigma]
  obtain ⟨-, c, hc, -, hunder, hover, hbins, htotal⟩ := binning_safe Real.sqrt (1 : ℝ) 11 1 [0, 0, 0, 2] h hh
  rw [← hh]
  refine ⟨c, hc, ?_, ?_, ?_, htotal⟩
  · rw [hbins 2 (by omega)]
    simp [hzero, htwo]
  · rw [hunder]
    simp [hzero, htwo]
  · rw [hover]
    simp [hzero, htwo]

end Ghexbench.Stats
