import Mathlib.Data.Nat.Log
import Mathlib.Data.Nat.Notation
import Mathlib.Tactic.Ring

/-!
# Machine arithmetic

Expressions of type `int`: their values in exact arithmetic, the values of their operations, and their
evaluation, which fails as soon as the value of an operation is out of range. An integer that is stored as
a floating-point number is rounded to the nearest number with a given count of binary digits, and in
case of a tie to the even one.
-/

namespace Ghexbench.Common

/-- The values of type `int`. -/
def IsInt (v : ℤ) : Prop := -2 ^ 31 ≤ v ∧ v < 2 ^ 31

instance (v : ℤ) : Decidable (IsInt v) := by unfold IsInt; infer_instance

/-- Expressions of type `int`, with the values of variables and constants as leaves. -/
inductive IntExpr
  | val (v : ℤ)
  | add (a b : IntExpr)
  | mul (a b : IntExpr)

namespace IntExpr

/-- The value in exact arithmetic. -/
def eval : IntExpr → ℤ
  | val v => v
  | add a b => a.eval + b.eval
  | mul a b => a.eval * b.eval

/-- The values of the operations in exact arithmetic. -/
def results : IntExpr → List ℤ
  | val _ => []
  | add a b => a.results ++ b.results ++ [a.eval + b.eval]
  | mul a b => a.results ++ b.results ++ [a.eval * b.eval]

/-- The value of an operation, if it is in range. -/
def checked (v : ℤ) : Option ℤ := if IsInt v then some v else none

/-- The evaluation on the machine. An overflow is undefined behaviour. -/
def run : IntExpr → Option ℤ
  | val v => some v
  | add a b => do checked ((← a.run) + (← b.run))
  | mul a b => do checked ((← a.run) * (← b.run))

/-- Without an overflow the machine finds the value in exact arithmetic. -/
theorem run_eq (e : IntExpr) (h : ∀ v ∈ e.results, IsInt v) : e.run = some e.eval := by
  induction e with
  | val v => rfl
  | add a b iha ihb =>
    simp only [results, List.mem_append, List.mem_singleton] at h
    have hint : IsInt (a.eval + b.eval) := h _ (Or.inr rfl)
    rw [run, iha fun v hv => h v (Or.inl (Or.inl hv)), ihb fun v hv => h v (Or.inl (Or.inr hv))]
    exact if_pos hint
  | mul a b iha ihb =>
    simp only [results, List.mem_append, List.mem_singleton] at h
    have hint : IsInt (a.eval * b.eval) := h _ (Or.inr rfl)
    rw [run, iha fun v hv => h v (Or.inl (Or.inl hv)), ihb fun v hv => h v (Or.inl (Or.inr hv))]
    exact if_pos hint

variable {a b : IntExpr} {v : ℤ}

/-- The value of a sum. -/
theorem run_add_eq_some_iff :
    (add a b).run = some v ↔ ∃ x y, a.run = some x ∧ b.run = some y ∧ x + y = v ∧ IsInt v := by
  simp only [run, checked, Option.bind_eq_bind, Option.bind_eq_some_iff, Option.ite_none_right_eq_some,
    Option.some.injEq]
  constructor
  · rintro ⟨x, hx, y, hy, hint, rfl⟩
    exact ⟨x, y, hx, hy, rfl, hint⟩
  · rintro ⟨x, y, hx, hy, rfl, hint⟩
    exact ⟨x, hx, y, hy, hint, rfl⟩

/-- The value of a product. -/
theorem run_mul_eq_some_iff :
    (mul a b).run = some v ↔ ∃ x y, a.run = some x ∧ b.run = some y ∧ x * y = v ∧ IsInt v := by
  simp only [run, checked, Option.bind_eq_bind, Option.bind_eq_some_iff, Option.ite_none_right_eq_some,
    Option.some.injEq]
  constructor
  · rintro ⟨x, hx, y, hy, hint, rfl⟩
    exact ⟨x, y, hx, hy, rfl, hint⟩
  · rintro ⟨x, y, hx, hy, rfl, hint⟩
    exact ⟨x, hx, y, hy, hint, rfl⟩

/-- A product of three factors. -/
def product (a b c : IntExpr) : IntExpr := mul (mul a b) c

/-- A product of natural numbers that are in range. -/
theorem run_product {a b c : IntExpr} {x y z : ℕ} (ha : a.run = some (x : ℤ)) (hb : b.run = some (y : ℤ))
    (hc : c.run = some (z : ℤ)) (hxy : x * y < 2 ^ 31) (hxyz : x * y * z < 2 ^ 31) :
    (product a b c).run = some ((x * y * z : ℕ) : ℤ) := by
  have hint {n : ℕ} (hn : n < 2 ^ 31) : IsInt n := by
    constructor <;> omega
  have hab : (mul a b).run = some ((x * y : ℕ) : ℤ) :=
    run_mul_eq_some_iff.mpr ⟨x, y, ha, hb, (Nat.cast_mul x y).symm, hint hxy⟩
  exact run_mul_eq_some_iff.mpr ⟨_, z, hab, hc, (Nat.cast_mul _ z).symm, hint hxyz⟩

end IntExpr

section Conversions

variable {n : ℕ}

/-- Conversion to `unsigned int`. -/
def toUnsigned (v : ℤ) : ℕ := (v % 2 ^ 32).toNat

/-- Conversion to `std::size_t`. -/
def toSize (v : ℤ) : ℕ := (v % 2 ^ 64).toNat

/-- Conversion of a `std::size_t` to `int`. -/
def toInt (n : ℕ) : ℤ := (n + 2 ^ 31) % 2 ^ 32 - 2 ^ 31

/-- Numbers in range are converted to themselves. -/
theorem toUnsigned_natCast (h : n < 2 ^ 32) : toUnsigned n = n := by
  simp only [toUnsigned]
  omega

/-- Numbers in range are converted to themselves. -/
theorem toSize_natCast (h : n < 2 ^ 64) : toSize n = n := by
  simp only [toSize]
  omega

/-- Exactly the numbers in range are converted to themselves. -/
theorem toInt_eq_iff : toInt n = n ↔ n < 2 ^ 31 := by
  simp only [toInt]
  omega

end Conversions

/-- The nearest number with `p` binary digits. -/
def roundTo (p n : ℕ) : ℕ :=
  let unit := 2 ^ (n.log2 + 1 - p)
  let q := n / unit
  let r := n % unit
  if unit < 2 * r ∨ (unit = 2 * r ∧ q % 2 = 1) then (q + 1) * unit else q * unit

section Rounding

variable {p n : ℕ}

/-- Multiples of the unit in the last digit are not rounded. -/
theorem roundTo_of_dvd (h : 2 ^ (n.log2 + 1 - p) ∣ n) : roundTo p n = n := by
  have hpos : 0 < 2 ^ (n.log2 + 1 - p) := Nat.two_pow_pos _
  simp only [roundTo, Nat.mod_eq_zero_of_dvd h, Nat.mul_zero]
  rw [if_neg (by omega), Nat.div_mul_cancel h]

/-- Numbers up to `2 ^ p` have `p` binary digits. -/
theorem roundTo_of_le (hp : 0 < p) (h : n ≤ 2 ^ p) : roundTo p n = n := by
  apply roundTo_of_dvd
  cases h.lt_or_eq with
  | inl hlt =>
    have hlog : n.log2 < p := by
      cases Nat.eq_zero_or_pos n with
      | inl hzero =>
        rw [hzero]
        exact hp
      | inr hpos => exact (Nat.log2_lt hpos.ne').mpr hlt
    rw [Nat.sub_eq_zero_of_le hlog]
    exact one_dvd n
  | inr heq =>
    rw [heq, Nat.log2_two_pow, Nat.add_sub_cancel_left]
    exact dvd_pow_self 2 hp.ne'

end Rounding

end Ghexbench.Common
