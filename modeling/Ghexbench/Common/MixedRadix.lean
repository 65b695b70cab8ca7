import Ghexbench.Common.Grid
import Mathlib.Algebra.BigOperators.Fin
import Mathlib.Algebra.BigOperators.GroupWithZero.Finset
import Mathlib.Algebra.BigOperators.Intervals

/-!
# Numbers with mixed radices

Every place of a number has a radix of its own, and the first place is the least significant one. Numbers
below the product of the radices and digits below the radices determine each other.
-/

namespace Ghexbench.Common

namespace MixedRadix

variable (m : ℕ → ℕ)

/-- The value of a place. -/
def place (l : ℕ) : ℕ := ∏ i ∈ Finset.range l, m i

/-- The number with the given digits in the first `n` places. -/
def number (c : ℕ → ℕ) (n : ℕ) : ℕ := ∑ l ∈ Finset.range n, c l * place m l

/-- The digit in a place. -/
def digit (x l : ℕ) : ℕ := x / place m l % m l

variable {m} {c c' : ℕ → ℕ} {n l x : ℕ}

/-- The value of the next place. -/
theorem place_succ : place m (n + 1) = place m n * m n := Finset.prod_range_succ m n

/-- One more digit. -/
theorem number_succ : number m c (n + 1) = number m c n + c n * place m n := Finset.sum_range_succ _ n

/-- Only the digits in the first places count. -/
theorem number_congr (h : ∀ l < n, c l = c' l) : number m c n = number m c' n :=
  Finset.sum_congr rfl fun l hl => by rw [h l (Finset.mem_range.mp hl)]

/-- A digit is the leading one of the rest of a division. -/
theorem mod_place_succ_div : x % place m (n + 1) / place m n = digit m x n := by
  rw [place_succ, Nat.mod_mul_right_div_self]
  rfl

/-- Digits below the radices make a number below the product of the radices. -/
theorem number_lt (hc : ∀ l < n, c l < m l) : number m c n < place m n := by
  induction n with
  | zero => exact Nat.one_pos
  | succ n ih =>
    have hrest : number m c n < place m n := ih fun l hl => hc l (Nat.lt_succ_of_lt hl)
    rw [number_succ, place_succ, Nat.mul_comm (c n)]
    exact digit_lt hrest (hc n n.lt_succ_self)

/-- The digits of a number that is made of digits. -/
theorem digit_number (hc : ∀ l < n, c l < m l) (hl : l < n) : digit m (number m c n) l = c l := by
  induction n with
  | zero => exact absurd hl (Nat.not_lt_zero l)
  | succ n ih =>
    have hbelow : ∀ l < n, c l < m l := fun l hl => hc l (Nat.lt_succ_of_lt hl)
    have hrest : number m c n < place m n := number_lt hbelow
    cases Nat.lt_succ_iff_lt_or_eq.mp hl with
    | inl hlt =>
      obtain ⟨k, hk⟩ : place m (l + 1) ∣ c n * place m n :=
        Dvd.dvd.mul_left (Finset.prod_dvd_prod_of_subset _ _ _ (Finset.range_subset_range.mpr hlt)) _
      rw [← mod_place_succ_div, number_succ, hk, Nat.add_mul_mod_self_left, mod_place_succ_div,
        ih hbelow hlt]
    | inr heq =>
      rw [heq, digit, number_succ, Nat.add_mul_div_right _ _ (Nat.zero_lt_of_lt hrest),
        Nat.div_eq_of_lt hrest, Nat.zero_add, Nat.mod_eq_of_lt (hc n n.lt_succ_self)]

/-- The number that is made of the digits of a number. -/
theorem number_digit : number m (digit m x) n = x % place m n := by
  induction n with
  | zero => exact (Nat.mod_one x).symm
  | succ n ih => rw [number_succ, ih, place_succ, Nat.mod_mul, Nat.mul_comm (place m n)]; rfl

/-- The value of a place divides those of the later places. -/
theorem place_dvd (m : ℕ → ℕ) (h : l ≤ n) : place m l ∣ place m n :=
  Finset.prod_dvd_prod_of_subset _ _ _ (Finset.range_subset_range.mpr h)

/-- Two numbers below the product of the radices have the same digits from some place on if they are the
same, divided by the value of this place. -/
theorem div_place_eq_iff {y : ℕ} (hl : l ≤ n) (hx : x < place m n) (hy : y < place m n) :
    x / place m l = y / place m l ↔ ∀ j, l ≤ j → j < n → digit m x j = digit m y j := by
  constructor
  · intro heq j hj _
    obtain ⟨k, hk⟩ := place_dvd m hj
    rw [digit, digit, hk, ← Nat.div_div_eq_div_mul, ← Nat.div_div_eq_div_mul, heq]
  · induction hl using Nat.decreasingInduction with
    | self =>
      intro _
      rw [Nat.div_eq_of_lt hx, Nat.div_eq_of_lt hy]
    | of_succ l hl ih =>
      intro h
      have hrest := ih fun j hj hjn => h j (Nat.le_of_succ_le hj) hjn
      have hdigit := h l le_rfl hl
      rw [place_succ, ← Nat.div_div_eq_div_mul, ← Nat.div_div_eq_div_mul] at hrest
      rw [← Nat.mod_add_div (x / place m l) (m l), ← Nat.mod_add_div (y / place m l) (m l), hrest]
      exact congrArg (· + _) hdigit

section Arrays

variable {k : ℕ}

/-- An array, continued with zeros. -/
def padded (a : Fin k → ℕ) (l : ℕ) : ℕ := if h : l < k then a ⟨l, h⟩ else 0

variable {a dims : Fin k → ℕ}

/-- The entries of an array. -/
theorem padded_val (a : Fin k → ℕ) (d : Fin k) : padded a d = a d := dif_pos d.isLt

/-- The value of the place after the last is the product of the radices. -/
theorem place_padded (dims : Fin k → ℕ) : place (padded dims) k = ∏ d, dims d := by
  rw [place, Finset.prod_range]
  exact Finset.prod_congr rfl fun d _ => padded_val dims d

/-- Arrays of digits below the radices. -/
theorem padded_lt (h : ∀ d, a d < dims d) : ∀ l < k, padded a l < padded dims l := by
  intro l hl
  rw [padded_val a ⟨l, hl⟩, padded_val dims ⟨l, hl⟩]
  exact h ⟨l, hl⟩

/-- Arrays of digits below the radices correspond to the numbers below the product of the radices. -/
theorem bijOn_number (dims : Fin k → ℕ) : Set.BijOn (fun a => number (padded dims) (padded a) k)
    {a | ∀ d, a d < dims d} (Set.Iio (∏ d, dims d)) := by
  refine ⟨?_, ?_, ?_⟩
  · intro a ha
    rw [← place_padded]
    exact number_lt (padded_lt ha)
  · intro a ha b hb heq
    funext d
    rw [← padded_val a d, ← padded_val b d, ← digit_number (padded_lt ha) d.isLt,
      ← digit_number (padded_lt hb) d.isLt]
    exact congrArg (fun x => digit (padded dims) x d) heq
  · intro x hx
    have hpos (d : Fin k) : 0 < dims d := by
      apply Nat.pos_of_ne_zero
      intro hzero
      have hprod : ∏ d, dims d = 0 := Finset.prod_eq_zero (Finset.mem_univ d) hzero
      exact Nat.not_lt_zero x (hprod ▸ hx)
    have hdigit (d : Fin k) : digit (padded dims) x d < dims d := by
      rw [digit, padded_val]
      exact Nat.mod_lt _ (hpos d)
    refine ⟨fun d => digit (padded dims) x d, hdigit, ?_⟩
    have hdigits : ∀ l < k, padded (fun d : Fin k => digit (padded dims) x d) l = digit (padded dims) x l :=
      fun l hl => padded_val _ ⟨l, hl⟩
    change number (padded dims) (padded fun d : Fin k => digit (padded dims) x d) k = x
    rw [number_congr hdigits, number_digit, place_padded, Nat.mod_eq_of_lt hx]

end Arrays

end MixedRadix

end Ghexbench.Common
