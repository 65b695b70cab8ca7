import Mathlib.Algebra.BigOperators.Group.List.Basic
import Mathlib.Algebra.CharZero.Defs
import Mathlib.Algebra.Field.Basic
import Mathlib.Order.Bounds.Basic
import Mathlib.Tactic.FieldSimp
import Mathlib.Tactic.Ring

/-!
# Moments and extremes of lists

The mean of a list, the sum of the squared deviations from the mean, and how both of a concatenation
follow from those of the parts. Extremes are taken over a list from a neutral value on.
-/

namespace Ghexbench.Common

section Moments

variable {K : Type*} [Field K]

/-- The arithmetic mean; that of no values is zero. -/
def mean (l : List K) : K := l.sum / l.length

/-- The sum of the squared deviations from a value. -/
def deviations (l : List K) (c : K) : K := (l.map fun x => (x - c) ^ 2).sum

/-- The sum of the squared deviations from the mean. -/
def sqDev (l : List K) : K := deviations l (mean l)

/-- The mean of one value. -/
@[simp] theorem mean_singleton (x : K) : mean [x] = x := by simp [mean]

/-- One value does not deviate from its mean. -/
@[simp] theorem sqDev_singleton (x : K) : sqDev [x] = 0 := by simp [sqDev, deviations]

/-- The deviations of the parts add up. -/
theorem deviations_append (l m : List K) (c : K) :
    deviations (l ++ m) c = deviations l c + deviations m c := by
  rw [deviations, List.map_append, List.sum_append]
  rfl

/-- The squares expanded. -/
theorem deviations_expand (l : List K) (c : K) :
    deviations l c = (l.map fun x => x ^ 2).sum - 2 * c * l.sum + l.length * c ^ 2 := by
  induction l with
  | nil => simp [deviations]
  | cons x l ih =>
    have hcons : deviations (x :: l) c = (x - c) ^ 2 + deviations l c := by simp [deviations]
    rw [hcons, ih, List.map_cons, List.sum_cons, List.sum_cons, List.length_cons]
    push_cast
    ring

variable [CharZero K]

/-- The mean times the number of values is the sum. -/
theorem length_mul_mean (l : List K) : l.length * mean l = l.sum := by
  cases l with
  | nil => simp [mean]
  | cons x l => exact mul_div_cancel₀ _ (Nat.cast_ne_zero.mpr (Nat.succ_ne_zero l.length))

/-- The deviations from a value are those from the mean and the deviation of the mean. -/
theorem deviations_eq (l : List K) (c : K) :
    deviations l c = sqDev l + l.length * (mean l - c) ^ 2 := by
  rw [sqDev, deviations_expand, deviations_expand, ← length_mul_mean l]
  ring

variable {l m : List K}

/-- The mean of a concatenation. -/
theorem mean_append (h : ((l.length + m.length : ℕ) : K) ≠ 0) : mean (l ++ m) =
    mean l + (mean m - mean l) * m.length / ((l.length + m.length : ℕ) : K) := by
  rw [mean, List.sum_append, List.length_append, ← length_mul_mean l, ← length_mul_mean m,
    div_eq_iff h, add_mul, div_mul_cancel₀ _ h]
  push_cast
  ring

/-- The squared deviations of a concatenation. -/
theorem sqDev_append (h : ((l.length + m.length : ℕ) : K) ≠ 0) : sqDev (l ++ m) = sqDev l +
    (sqDev m + (mean m - mean l) * (mean m - mean l) * l.length * m.length /
      ((l.length + m.length : ℕ) : K)) := by
  rw [sqDev, deviations_append, deviations_eq l, deviations_eq m, mean_append h]
  push_cast at h ⊢
  field_simp
  ring

end Moments

section Extremes

variable {α : Type*} [LinearOrder α]

/-- The smallest of some values and a neutral one. -/
theorem isLeast_foldl_min (a : α) (l : List α) : IsLeast {x | x ∈ a :: l} (l.foldl min a) := by
  induction l generalizing a with
  | nil => simp [IsLeast, lowerBounds]
  | cons x l ih =>
    obtain ⟨hmem, hle⟩ := ih (min a x)
    have hmin : l.foldl min (min a x) ≤ min a x := hle List.mem_cons_self
    constructor
    · rw [List.foldl_cons]
      cases List.mem_cons.mp hmem with
      | inl heq =>
        rw [heq]
        cases min_choice a x with
        | inl ha => simp [ha]
        | inr hx => simp [hx]
      | inr hrest => exact List.mem_cons_of_mem a (List.mem_cons_of_mem x hrest)
    · intro y hy
      cases List.mem_cons.mp hy with
      | inl ha => exact ha ▸ hmin.trans (min_le_left a x)
      | inr hrest =>
        cases List.mem_cons.mp hrest with
        | inl hx => exact hx ▸ hmin.trans (min_le_right a x)
        | inr hl => exact hle (List.mem_cons_of_mem _ hl)

/-- The smallest value is found if and only if the neutral value is not smaller than all values. -/
theorem isLeast_foldl_min_iff (a : α) (l : List α) :
    IsLeast {x | x ∈ l} (l.foldl min a) ↔ ∃ x ∈ l, x ≤ a := by
  obtain ⟨hmem, hle⟩ := isLeast_foldl_min a l
  constructor
  · intro h
    exact ⟨_, h.1, hle List.mem_cons_self⟩
  · rintro ⟨x, hx, hxa⟩
    refine ⟨?_, fun y hy => hle (List.mem_cons_of_mem a hy)⟩
    cases List.mem_cons.mp hmem with
    | inl heq =>
      -- then the neutral value is one of the values
      have hax : a ≤ x := heq ▸ hle (List.mem_cons_of_mem a hx)
      rw [heq, ← le_antisymm hxa hax]
      exact hx
    | inr hl => exact hl

/-- The largest value is found if and only if the neutral value is not larger than all values. -/
theorem isGreatest_foldl_max_iff (a : α) (l : List α) :
    IsGreatest {x | x ∈ l} (l.foldl max a) ↔ ∃ x ∈ l, a ≤ x :=
  isLeast_foldl_min_iff (OrderDual.toDual a) l

/-- The smallest value of a concatenation. -/
theorem foldl_min_append (a : α) (l m : List α) :
    (l ++ m).foldl min a = min (l.foldl min a) (m.foldl min a) := by
  have hle : l.foldl min a ≤ a := (isLeast_foldl_min a l).2 List.mem_cons_self
  calc (l ++ m).foldl min a
      = m.foldl min (min (l.foldl min a) a) := by rw [List.foldl_append, min_eq_left hle]
    _ = min (l.foldl min a) (m.foldl min a) := List.foldl_assoc

/-- The largest value of a concatenation. -/
theorem foldl_max_append (a : α) (l m : List α) :
    (l ++ m).foldl max a = max (l.foldl max a) (m.foldl max a) :=
  foldl_min_append (OrderDual.toDual a) l m

end Extremes

end Ghexbench.Common
