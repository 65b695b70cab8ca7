import Mathlib.Data.Fin.VecNotation
import Mathlib.Data.Fintype.Basic
import Mathlib.Tactic.FinCases
import Mathlib.Tactic.Linarith

/-!
# Boxes in three dimensions and their linear index

Cells of a three-dimensional box are numbered with the first dimension running fastest.
The number of a cell lies below the volume of the box, and a cell is recovered from its
number by division with remainder.
-/

namespace Ghexbench.Common

/-- One value for each dimension. -/
abbrev Arr (α : Type*) := Fin 3 → α

/-- There is a first dimension. -/
instance neZeroThree : NeZero (3 : ℕ) := ⟨by decide⟩

/-- There is a first side of a dimension. -/
instance neZeroSix : NeZero (6 : ℕ) := ⟨by decide⟩

/-- The cells with coordinates below the extents. -/
def InBox (dims c : Arr ℕ) : Prop := ∀ d, c d < dims d

instance (dims c : Arr ℕ) : Decidable (InBox dims c) := by unfold InBox; infer_instance

/-- The number of cells in a box. -/
def volume (dims : Arr ℕ) : ℕ := dims 0 * dims 1 * dims 2

/-- The number of a cell, with the first dimension running fastest. -/
def index (dims c : Arr ℕ) : ℕ := c 0 + dims 0 * (c 1 + dims 1 * c 2)

/-- The cell with a given number; the last coordinate takes what is left. -/
def unindex (dims : Arr ℕ) (n : ℕ) : Arr ℕ := ![n % dims 0, n / dims 0 % dims 1, n / dims 0 / dims 1]

/-- One more leading digit. -/
theorem digit_lt {a m k n : ℕ} (ha : a < m) (hk : k < n) : a + m * k < m * n :=
  calc a + m * k < m + m * k := Nat.add_lt_add_right ha _
    _ = m * (k + 1) := by rw [Nat.mul_succ, Nat.add_comm]
    _ ≤ m * n := Nat.mul_le_mul_left m hk

/-- The leading digit and the rest of a number. -/
theorem digit_injective {a a' m k k' : ℕ} (ha : a < m) (ha' : a' < m) (h : a + m * k = a' + m * k') :
    a = a' ∧ k = k' := by
  have hmod : a = a' := by
    have := congrArg (· % m) h
    simpa [Nat.mod_eq_of_lt ha, Nat.mod_eq_of_lt ha'] using this
  subst hmod
  exact ⟨rfl, Nat.eq_of_mul_eq_mul_left (Nat.zero_lt_of_lt ha) (Nat.add_left_cancel h)⟩

/-- A cell of the box has a number below the volume. -/
theorem index_lt {dims c : Arr ℕ} (h : InBox dims c) : index dims c < volume dims := by
  rw [volume, Nat.mul_assoc]
  exact digit_lt (h 0) (digit_lt (h 1) (h 2))

/-- The number of the cell with a given number. -/
theorem index_unindex (dims : Arr ℕ) (n : ℕ) : index dims (unindex dims n) = n := by
  change n % dims 0 + dims 0 * (n / dims 0 % dims 1 + dims 1 * (n / dims 0 / dims 1)) = n
  rw [Nat.mod_add_div, Nat.mod_add_div]

/-- The cell with the number of a given cell. -/
theorem unindex_index {dims c : Arr ℕ} (h0 : c 0 < dims 0) (h1 : c 1 < dims 1) :
    unindex dims (index dims c) = c := by
  have hdiv : index dims c / dims 0 = c 1 + dims 1 * c 2 := by
    rw [index, Nat.add_mul_div_left _ _ (by omega), Nat.div_eq_of_lt h0, Nat.zero_add]
  have hmod : index dims c % dims 0 = c 0 := by
    rw [index, Nat.add_mul_mod_self_left, Nat.mod_eq_of_lt h0]
  funext d
  fin_cases d
  · exact hmod
  · change index dims c / dims 0 % dims 1 = c 1
    rw [hdiv, Nat.add_mul_mod_self_left, Nat.mod_eq_of_lt h1]
  · change index dims c / dims 0 / dims 1 = c 2
    rw [hdiv, Nat.add_mul_div_left _ _ (by omega), Nat.div_eq_of_lt h1, Nat.zero_add]

/-- Numbers below the volume belong to cells of the box. -/
theorem unindex_inBox {dims : Arr ℕ} (hpos : ∀ d, 0 < dims d) {n : ℕ} (hn : n < volume dims) :
    InBox dims (unindex dims n) := by
  intro d
  fin_cases d
  · exact Nat.mod_lt _ (hpos 0)
  · exact Nat.mod_lt _ (hpos 1)
  · change n / dims 0 / dims 1 < dims 2
    rw [Nat.div_div_eq_div_mul]
    exact Nat.div_lt_of_lt_mul hn

/-- Three nested loops run over the cells of a box. -/
theorem exists_inBox {x y z : ℕ} {p : ℕ → ℕ → ℕ → Prop} :
    (∃ k2 < z, ∃ k1 < y, ∃ k0 < x, p k0 k1 k2) ↔ ∃ k, InBox ![x, y, z] k ∧ p (k 0) (k 1) (k 2) := by
  constructor
  · rintro ⟨k2, h2, k1, h1, k0, h0, hp⟩
    refine ⟨![k0, k1, k2], ?_, hp⟩
    intro d
    fin_cases d
    · exact h0
    · exact h1
    · exact h2
  · rintro ⟨k, hk, hp⟩
    exact ⟨k 2, hk 2, k 1, hk 1, k 0, hk 0, hp⟩

/-- Numbers below the volume belong to cells of the box, which is then not empty. -/
theorem inBox_unindex {dims : Arr ℕ} {n : ℕ} (hn : n < volume dims) : InBox dims (unindex dims n) := by
  apply unindex_inBox _ hn
  intro d
  apply Nat.pos_of_ne_zero
  intro hzero
  have hvolume : volume dims = 0 := by fin_cases d <;> simp_all [volume]
  omega

end Ghexbench.Common
