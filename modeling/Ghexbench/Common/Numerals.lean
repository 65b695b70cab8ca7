import Ghexbench.Common.Arithmetic
import Mathlib.Data.List.TakeWhile

/-!
# Numbers as text

Formatted extraction of an `int` from a stream skips blanks and reads the longest decimal number with an
optional sign. It stores zero if there are no digits, the nearest value of the type if the number is out of
range, and leaves the variable alone if there are only blanks. The rest of the stream is not looked at.
-/

namespace Ghexbench.Common

/-- `std::isspace`. -/
def isBlank (c : Char) : Bool := c == ' ' || (9 ≤ c.toNat && c.toNat ≤ 13)

/-- Whether there is a minus sign, and what follows the sign. -/
def splitSign : List Char → Bool × List Char
  | '-' :: s => (true, s)
  | '+' :: s => (false, s)
  | s => (false, s)

/-- A number with a sign. -/
def signed (negative : Bool) (n : ℕ) : ℤ := if negative then -n else n

/-- The nearest value of type `int`. -/
def clamp (v : ℤ) : ℤ := max (-2 ^ 31) (min v (2 ^ 31 - 1))

/-- `operator>>(int&)`: what it stores, if it does not leave the variable alone. -/
def extract (s : List Char) : Option ℤ :=
  match s.dropWhile isBlank with
  | [] => none
  | c :: t =>
    let (negative, digits) := splitSign (c :: t)
    some (clamp (signed negative (Nat.ofDigitChars 10 (digits.takeWhile Char.isDigit) 0)))

/-- The integer that a complete text denotes: behind blanks, an optional sign and at least one digit, and
nothing else. -/
def numeral (s : List Char) : Option ℤ :=
  let (negative, digits) := splitSign (s.dropWhile isBlank)
  if digits ≠ [] ∧ digits.all Char.isDigit then some (signed negative (Nat.ofDigitChars 10 digits 0))
  else none

/-- The decimal form of an integer. -/
def decimal (v : ℤ) : List Char :=
  if v < 0 then '-' :: Nat.toDigits 10 v.natAbs else Nat.toDigits 10 v.natAbs

section Extraction

variable {s : List Char} {v : ℤ}

/-- Values of type `int` are those that are stored as they are. -/
theorem clamp_eq_iff : clamp v = v ↔ IsInt v := by
  simp only [clamp, IsInt]
  omega

/-- Of a text that denotes an integer, the nearest value is stored. -/
theorem extract_of_numeral (h : numeral s = some v) : extract s = some (clamp v) := by
  simp only [numeral, extract] at h ⊢
  split at h
  next hdigits =>
    cases htoken : s.dropWhile isBlank with
    | nil =>
      rw [htoken] at hdigits
      exact absurd rfl hdigits.1
    | cons c t =>
      rw [htoken] at h hdigits
      have hall : (splitSign (c :: t)).2.takeWhile Char.isDigit = (splitSign (c :: t)).2 :=
        List.takeWhile_eq_self_iff.mpr (List.all_eq_true.mp hdigits.2)
      simp only [hall]
      rw [Option.some.inj h]
  next => cases h

/-- The integer that a text denotes is stored if and only if it is a value of the type. -/
theorem extract_eq_numeral_iff :
    (∃ v, extract s = some v ∧ numeral s = some v) ↔ ∃ v, numeral s = some v ∧ IsInt v := by
  constructor
  · rintro ⟨v, hextract, hnumeral⟩
    rw [extract_of_numeral hnumeral] at hextract
    exact ⟨v, hnumeral, clamp_eq_iff.mp (Option.some.inj hextract)⟩
  · rintro ⟨v, hnumeral, hint⟩
    rw [extract_of_numeral hnumeral, clamp_eq_iff.mpr hint]
    exact ⟨v, rfl, hnumeral⟩

end Extraction

section Decimal

variable {v : ℤ} {c : Char}

/-- A decimal form consists of digits and a minus sign. -/
theorem mem_decimal (h : c ∈ decimal v) : c = '-' ∨ c.isDigit := by
  have hdigit : c ∈ Nat.toDigits 10 v.natAbs → c.isDigit :=
    Nat.isDigit_of_mem_toDigits (by decide) (by decide)
  simp only [decimal] at h
  split at h
  · exact (List.mem_cons.mp h).imp_right hdigit
  · exact Or.inr (hdigit h)

/-- A decimal form is not empty. -/
theorem decimal_ne_nil : decimal v ≠ [] := by
  simp only [decimal]
  split
  · exact List.cons_ne_nil _ _
  · exact Nat.toDigits_ne_nil

/-- Digits begin neither with a blank nor with a sign. -/
theorem splitSign_of_digits {digits : List Char} (hdigits : digits ≠ [] ∧ digits.all Char.isDigit) :
    splitSign (digits.dropWhile isBlank) = (false, digits) := by
  obtain ⟨hne, hall⟩ := hdigits
  cases digits with
  | nil => exact absurd rfl hne
  | cons c t =>
    have hc : 48 ≤ c.toNat ∧ c.toNat ≤ 57 := by
      simpa [Char.isDigit, UInt32.le_iff_toNat_le] using List.all_eq_true.mp hall c List.mem_cons_self
    have hother (d : Char) (hd : d.toNat < 48) : c ≠ d := by
      rintro rfl
      omega
    have hblank : isBlank c = false := by
      simp only [isBlank, Bool.or_eq_false_iff, beq_eq_false_iff_ne]
      exact ⟨hother ' ' (by decide), by simp; omega⟩
    rw [List.dropWhile_cons, hblank, if_neg Bool.false_ne_true, splitSign]
    · exact fun s heq => hother '-' (by decide) (List.cons.inj heq).1
    · exact fun s heq => hother '+' (by decide) (List.cons.inj heq).1

/-- The decimal form of an integer denotes it. -/
theorem numeral_decimal : numeral (decimal v) = some v := by
  have hdigits : Nat.toDigits 10 v.natAbs ≠ [] ∧ (Nat.toDigits 10 v.natAbs).all Char.isDigit :=
    ⟨Nat.toDigits_ne_nil,
      List.all_eq_true.mpr fun c => Nat.isDigit_of_mem_toDigits (by decide) (by decide)⟩
  simp only [numeral, decimal]
  split
  next hneg =>
    have hsign : splitSign (('-' :: Nat.toDigits 10 v.natAbs).dropWhile isBlank) =
        (true, Nat.toDigits 10 v.natAbs) := rfl
    rw [hsign, if_pos hdigits, Nat.ofDigitChars_ten_toDigits, signed, if_pos rfl]
    exact congrArg some (by omega)
  next hneg =>
    rw [splitSign_of_digits hdigits, if_pos hdigits, Nat.ofDigitChars_ten_toDigits, signed,
      if_neg Bool.false_ne_true]
    exact congrArg some (by omega)

end Decimal

end Ghexbench.Common
