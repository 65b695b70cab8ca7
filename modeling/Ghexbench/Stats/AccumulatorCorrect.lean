import Ghexbench.Stats.Accumulator
import Mathlib.Algebra.Order.Field.Rat
import Mathlib.Tactic.Linarith
import Mathlib.Tactic.Positivity

/-!
# The statistics of an accumulator

In whatever parts samples are accumulated and however these are merged, the result is that of one
accumulator for all samples, and its statistics are the ones of the list of all samples. An accumulator
that has gone through any operations is the accumulator of the samples that it then represents. Its
maximum starts from a positive value, and is wrong for samples below this value.
-/

namespace Ghexbench.Stats

open Ghexbench.Common

variable {K : Type*}

section Parts

/-- A way of splitting samples: lists that are accumulated, and pairs of parts that are merged. -/
inductive Parts (K : Type*)
  | samples (l : List K)
  | merge (p q : Parts K)

/-- All samples in order. -/
def Parts.toList : Parts K → List K
  | samples l => l
  | merge p q => p.toList ++ q.toList

variable [Field K] [LinearOrder K]

/-- Accumulate the lists and merge the accumulators. -/
def Parts.accumulate : Parts K → Accumulator K
  | samples l => Accumulator.empty.addAll l
  | merge p q => p.accumulate.merge q.accumulate

variable [IsStrictOrderedRing K]

/-- The merged accumulators are the accumulator for all samples. -/
theorem Parts.accumulate_eq (p : Parts K) : p.accumulate = Accumulator.ofSamples p.toList := by
  induction p with
  | samples l => exact Accumulator.empty_addAll l
  | merge p q ihp ihq => rw [accumulate, toList, ihp, ihq, Accumulator.merge_ofSamples]

end Parts

/-- The merged accumulators have the number, the mean and the squared deviations of all samples, the
state is that of one accumulator, and `variance` and `sum` are those of the samples. -/
theorem statistics_exact [Field K] [LinearOrder K] [IsStrictOrderedRing K] (p : Parts K) :
    let a := p.accumulate
    let l := p.toList
    a.numSamples = l.length ∧ a.mean = l.sum / l.length ∧
      a.mVariance = (l.map fun x => (x - l.sum / l.length) ^ 2).sum ∧
      a = Accumulator.empty.addAll l ∧
      a.variance = (if 2 ≤ l.length then
        (l.map fun x => (x - l.sum / l.length) ^ 2).sum / ((l.length : K) - 1) else 0) ∧
      a.sum = l.sum := by
  intro a l
  have ha : a = Accumulator.ofSamples l := p.accumulate_eq
  have hall := ha.trans (Accumulator.empty_addAll l).symm
  refine ⟨by rw [ha]; rfl, by rw [ha]; rfl, by rw [ha]; rfl, hall, ?_, ?_⟩
  · rw [ha, Accumulator.variance]
    apply ite_congr rfl
    · intro h
      have hcast : ((l.length - 1 : ℕ) : K) = l.length - 1 := Nat.cast_pred (Nat.zero_lt_of_lt h)
      rw [Accumulator.numSamples_ofSamples, hcast]
      rfl
    · intro _
      rfl
  · rw [ha]
    exact length_mul_mean l

/-- Three samples in two parts, one after the other. -/
theorem statistics_exact_parts :
    (Parts.accumulate (.merge (.samples [1, 2]) (.samples [6]) : Parts ℚ)).mean = 3 := by
  have h := (statistics_exact (.merge (.samples [1, 2]) (.samples [6]) : Parts ℚ)).2.1
  rw [h]
  norm_num [Parts.toList]

section Operations

/-- An operation on one of a number of accumulators. -/
inductive Op (K : Type*)
  | construct (i : ℕ)
  | add (i : ℕ) (sample : K)
  | merge (i other : ℕ)
  | clear (i : ℕ)

variable [Field K] [LinearOrder K]

/-- What an operation does to the accumulators. -/
def Op.apply (accs : ℕ → Accumulator K) : Op K → ℕ → Accumulator K
  | construct i => Function.update accs i Accumulator.empty
  | add i sample => Function.update accs i ((accs i).add sample)
  | merge i other => Function.update accs i ((accs i).merge (accs other))
  | clear i => Function.update accs i (accs i).clear

/-- The accumulators after some operations. -/
def accumulators (ops : List (Op K)) : ℕ → Accumulator K := ops.foldl Op.apply fun _ => Accumulator.empty

omit [Field K] [LinearOrder K] in
/-- What an operation does to the samples that the accumulators represent. -/
def Op.track (samples : ℕ → List K) : Op K → ℕ → List K
  | construct i => Function.update samples i []
  | add i sample => Function.update samples i (samples i ++ [sample])
  | merge i other => Function.update samples i (samples i ++ samples other)
  | clear i => Function.update samples i []

/-- The samples that the accumulators represent after some operations. -/
def represented (ops : List (Op K)) : ℕ → List K := ops.foldl Op.track fun _ => []

/-- Only finite samples are added. -/
def Op.Finite : Op K → Prop
  | add _ sample => |sample| ≤ limitMax
  | _ => True

end Operations

section Run

variable [Field K] [LinearOrder K] [IsStrictOrderedRing K] {ops : List (Op K)} {i : ℕ}

/-- An operation leaves accumulators of the samples that they represent. -/
theorem Op.apply_eq (op : Op K) (samples : ℕ → List K) :
    op.apply (Accumulator.ofSamples ∘ samples) = Accumulator.ofSamples ∘ op.track samples := by
  cases op with
  | construct i => rw [apply, track, Function.comp_update, Accumulator.ofSamples_nil]
  | add i x =>
    rw [apply, track, Function.comp_update, ← Accumulator.add_ofSamples]
    rfl
  | merge i other =>
    rw [apply, track, Function.comp_update, ← Accumulator.merge_ofSamples]
    rfl
  | clear i =>
    rw [apply, track, Function.comp_update, Accumulator.ofSamples_nil]
    rfl

/-- The accumulators are those of the samples that they represent. -/
theorem accumulators_eq (ops : List (Op K)) :
    accumulators ops = Accumulator.ofSamples ∘ represented ops := by
  have hinit : (fun _ => Accumulator.empty) = Accumulator.ofSamples ∘ fun _ : ℕ => ([] : List K) :=
    funext fun _ => Accumulator.ofSamples_nil.symm
  rw [accumulators, hinit]
  exact List.foldl_hom (Accumulator.ofSamples ∘ ·) fun samples op => op.apply_eq samples

omit [IsStrictOrderedRing K] in
/-- The represented samples have been added at some time. -/
theorem finite_of_mem_foldl {x : K} (hops : ∀ op ∈ ops, op.Finite) (samples : ℕ → List K)
    (hsamples : ∀ i, ∀ x ∈ samples i, |x| ≤ limitMax) (hx : x ∈ ops.foldl Op.track samples i) :
    |x| ≤ limitMax := by
  induction ops generalizing samples with
  | nil => exact hsamples i x hx
  | cons op ops ih =>
    apply ih (fun op' hop' => hops op' (List.mem_cons_of_mem op hop')) (op.track samples) _ hx
    have hop := hops op List.mem_cons_self
    have hupdate (k : ℕ) {l : List K} (hl : ∀ x ∈ l, |x| ≤ limitMax) (j : ℕ) :
        ∀ y ∈ Function.update samples k l j, |y| ≤ limitMax := by
      rw [Function.update_apply]
      split
      · exact hl
      · exact hsamples j
    cases op with
    | construct k | clear k => exact hupdate k fun y hy => absurd hy List.not_mem_nil
    | add k sample =>
      have hsample : ∀ y ∈ [sample], |y| ≤ limitMax := List.forall_mem_singleton.mpr hop
      exact hupdate k (List.forall_mem_append.mpr ⟨hsamples k, hsample⟩)
    | merge k other => exact hupdate k (List.forall_mem_append.mpr ⟨hsamples k, hsamples other⟩)

/-- The minimum is the smallest sample: the neutral value is not smaller than any of them. -/
theorem isLeast_min (hops : ∀ op ∈ ops, op.Finite) (hne : represented ops i ≠ []) :
    IsLeast {x | x ∈ represented ops i} (accumulators ops i).min := by
  obtain ⟨x, hx⟩ := List.exists_mem_of_ne_nil _ hne
  have hfinite : |x| ≤ limitMax :=
    finite_of_mem_foldl hops _ (fun i x hx => absurd hx List.not_mem_nil) hx
  rw [accumulators_eq]
  exact (isLeast_foldl_min_iff limitMax _).mpr ⟨x, hx, (le_abs_self x).trans hfinite⟩

/-- The maximum is the largest sample if some sample is not smaller than the neutral value. -/
theorem isGreatest_max_iff : IsGreatest {x | x ∈ represented ops i} (accumulators ops i).max ↔
    ∃ x ∈ represented ops i, limitMin ≤ x := by
  rw [accumulators_eq]
  exact isGreatest_foldl_max_iff limitMin _

end Run

/-- After any operations with finite samples, `min` and `max` of an accumulator with samples are the
smallest and the largest sample if and only if some sample is at least `numeric_limits::min()`. -/
theorem extremes_iff [Field K] [LinearOrder K] [IsStrictOrderedRing K] (ops : List (Op K))
    (hops : ∀ op ∈ ops, op.Finite) (i : ℕ) (hne : represented ops i ≠ []) :
    (IsLeast {x | x ∈ represented ops i} (accumulators ops i).min ∧
      IsGreatest {x | x ∈ represented ops i} (accumulators ops i).max) ↔
      ∃ x ∈ represented ops i, limitMin ≤ x := by
  rw [isGreatest_max_iff]
  exact and_iff_right (isLeast_min hops hne)

section Values

/-- The value that maxima start from is positive and less than one. -/
theorem limitMin_bounds : (0 : ℚ) < limitMin ∧ limitMin ≤ (1 : ℚ) := by
  have hpow : (1 : ℚ) ≤ 2 ^ 1022 := one_le_pow₀ one_le_two
  exact ⟨inv_pos.mpr (by positivity), inv_le_one_of_one_le₀ hpow⟩

/-- One is finite. -/
theorem one_le_limitMax : (1 : ℚ) ≤ limitMax := by
  have hpow : (1 : ℚ) ≤ 2 ^ 971 := one_le_pow₀ one_le_two
  exact one_le_mul_of_one_le_of_one_le (by norm_num) hpow

end Values

/-- Two accumulators are merged. -/
theorem extremes_iff_merge :
    let ops : List (Op ℚ) := [.add 0 1, .add 1 (-1), .merge 0 1]
    IsLeast {x | x ∈ [1, -1]} (accumulators ops 0).min ∧
      IsGreatest {x | x ∈ [1, -1]} (accumulators ops 0).max := by
  intro ops
  have hone : |(1 : ℚ)| ≤ limitMax := by
    rw [abs_one]
    exact one_le_limitMax
  refine (extremes_iff ops ?_ 0 (List.cons_ne_nil _ _)).mpr ⟨1, List.mem_cons_self, limitMin_bounds.2⟩
  simpa [ops, Op.Finite] using hone

/-- The largest of negative samples is not found. -/
theorem max_not_greatest : ¬ ∀ ops : List (Op ℚ), (∀ op ∈ ops, op.Finite) →
    ∀ i, represented ops i ≠ [] →
      IsLeast {x | x ∈ represented ops i} (accumulators ops i).min ∧
        IsGreatest {x | x ∈ represented ops i} (accumulators ops i).max := by
  intro h
  have hfinite : ∀ op ∈ [Op.add 0 (-1 : ℚ)], op.Finite := by
    simpa [Op.Finite] using one_le_limitMax
  obtain ⟨x, hx, hle⟩ := isGreatest_max_iff.mp (h _ hfinite 0 (List.cons_ne_nil _ _)).2
  obtain rfl := List.mem_singleton.mp hx
  linarith [limitMin_bounds.1]

end Ghexbench.Stats
