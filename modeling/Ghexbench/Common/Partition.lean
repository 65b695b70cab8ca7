import Mathlib.Algebra.BigOperators.Group.Finset.Basic
import Mathlib.Algebra.Order.BigOperators.Group.Finset
import Mathlib.Tactic.Linarith

/-!
# Even distribution

`n` cells in a row are cut into `m` consecutive parts whose sizes differ by at most one: the
first `n % m` parts have one cell more than the others. The parts cover the row exactly once.
-/

namespace Ghexbench.Common

/-- The size of part `i`. -/
def share (n m i : ℕ) : ℕ := n / m + if i < n % m then 1 else 0

/-- The first cell of part `i`. -/
def start (n m i : ℕ) : ℕ := n / m * i + min i (n % m)

/-- The first part begins with the first cell. -/
@[simp] theorem start_zero (n m : ℕ) : start n m 0 = 0 := by simp [start]

/-- A part begins where the previous one ends. -/
theorem start_succ (n m i : ℕ) : start n m (i + 1) = start n m i + share n m i := by
  simp only [start, share, Nat.mul_succ]
  split <;> omega

/-- The last part ends with the last cell. -/
theorem start_last {n m : ℕ} (hm : 0 < m) : start n m m = n := by
  have hmod := Nat.mod_lt n hm
  rw [start, min_eq_right hmod.le, Nat.mul_comm]
  exact Nat.div_add_mod n m

/-- Later parts begin later. -/
theorem start_mono (n m : ℕ) : Monotone (start n m) :=
  monotone_nat_of_le_succ fun i => by rw [start_succ]; exact Nat.le_add_right _ _

/-- The parts are in order and do not overlap. -/
theorem start_add_share_le {n m i j : ℕ} (h : i < j) : start n m i + share n m i ≤ start n m j := by
  rw [← start_succ]
  exact start_mono n m h

/-- No part is smaller than the quotient. -/
theorem div_le_share (n m i : ℕ) : n / m ≤ share n m i := Nat.le_add_right _ _

/-- The last part has the size of the quotient. -/
theorem share_last {n m : ℕ} (hm : 0 < m) : share n m (m - 1) = n / m := by
  have hmod := Nat.mod_lt n hm
  rw [share, if_neg (by omega), Nat.add_zero]

/-- The sizes of two parts differ by at most one. -/
theorem share_le_succ (n m i j : ℕ) : share n m i ≤ share n m j + 1 := by
  simp only [share]
  split <;> split <;> omega

/-- A cell lies in part `i`. -/
def InPart (n m i x : ℕ) : Prop := start n m i ≤ x ∧ x < start n m i + share n m i

/-- Every cell before the beginning of part `k` lies in one of the parts before it. -/
theorem exists_inPart {n m k x : ℕ} (hx : x < start n m k) : ∃ i < k, InPart n m i x := by
  induction k with
  | zero => simp at hx
  | succ k ih =>
    cases lt_or_ge x (start n m k) with
    | inl hlt =>
      obtain ⟨i, hi, hpart⟩ := ih hlt
      exact ⟨i, Nat.lt_succ_of_lt hi, hpart⟩
    | inr hge =>
      rw [start_succ] at hx
      exact ⟨k, Nat.lt_succ_self k, hge, hx⟩

/-- A cell lies in one part only. -/
theorem InPart.unique {n m i j x : ℕ} (hi : InPart n m i x) (hj : InPart n m j x) : i = j := by
  rcases lt_trichotomy i j with hlt | heq | hgt
  · exact absurd (start_add_share_le hlt) (not_le.mpr (lt_of_le_of_lt hj.1 hi.2))
  · exact heq
  · exact absurd (start_add_share_le hgt) (not_le.mpr (lt_of_le_of_lt hi.1 hj.2))

/-- The cells of the parts are cells of the row. -/
theorem InPart.lt {n m i x : ℕ} (h : InPart n m i x) (hi : i < m) : x < n :=
  calc x < start n m i + share n m i := h.2
    _ ≤ start n m m := start_add_share_le hi
    _ = n := start_last (Nat.zero_lt_of_lt hi)

end Ghexbench.Common
