import Ghexbench.Cli.Options
import Ghexbench.Common.Numerals
import Mathlib.Data.List.Forall2

/-!
# The values of options

`options_values::get` looks up the arguments of an option and converts each by extraction from a stream.
The variable that a value is extracted into is not initialised: where extraction leaves it alone, the
value is not set.
-/

namespace Ghexbench.Cli

open Ghexbench.Common

/-- `parse_value<int>`. -/
def parseValue (value : Str) : Option ℤ := extract value

/-- `parse_value<std::string>`: the first word. -/
def parseWord (value : Str) : Str := (value.dropWhile isBlank).takeWhile fun c => !isBlank c

/-- `parse` with a type whose values are extracted by `convert`. -/
def parseAs {α : Type*} (convert : Str → α) (values : List Str) : Except Exit α :=
  if values.length ≠ 1 then .error (.abort (str "wrong number of arguments requested"))
  else .ok (convert (values.headD []))

/-- `parse` with type `int`. -/
def parseInt : List Str → Except Exit (Option ℤ) := parseAs parseValue

/-- `parse` with type `std::string`. -/
def parseString : List Str → Except Exit Str := parseAs parseWord

/-- `parse` with an array of `n` values that are extracted by `convert`. -/
def parseArrayAs {α : Type*} (n : ℕ) (convert : Str → α) (values : List Str) : Except Exit (List α) :=
  if values.length ≠ n then .error (.abort (str "wrong number of arguments requested"))
  else .ok (values.map convert)

/-- `parse` with type `std::array<int, n>`. -/
def parseArray (n : ℕ) : List Str → Except Exit (List (Option ℤ)) := parseArrayAs n parseValue

/-- `parse` with type `std::array<std::string, n>`. -/
def parseWords (n : ℕ) : List Str → Except Exit (List Str) := parseArrayAs n parseWord

namespace OptionsValues

variable {α : Type*} (values : OptionsValues)

/-- `get`, with `parse` for its type. -/
def get (parse : List Str → Except Exit α) (name : Str) : Except Exit α :=
  match values.map name with
  | none => .error (.abort (str "no value found for option '" ++ name ++ str "'"))
  | some value => parse value

/-- `get_or`, with `parse` for its type. -/
def getOr (parse : List Str → Except Exit α) (name : Str) (default : α) : Except Exit α :=
  match values.map name with
  | none => .ok default
  | some value => parse value

/-- `has`. -/
def hasOption (name : Str) : Bool := (values.map name).isSome

end OptionsValues

/-- A text is converted exactly: the value is set, and it is the integer that the complete text denotes. -/
def Converts (s : Str) (value : Option ℤ) : Prop := ∃ v, value = some v ∧ numeral s = some v

/-- A text denotes a value of type `int`. -/
def DenotesInt (s : Str) : Prop := ∃ v, numeral s = some v ∧ IsInt v

/-- A text is converted exactly if and only if it denotes a value of the type. -/
theorem converts_parseValue_iff {s : Str} : Converts s (parseValue s) ↔ DenotesInt s :=
  extract_eq_numeral_iff

/-- The same of all texts in a list. -/
theorem forall₂_converts_iff {l : List Str} :
    List.Forall₂ Converts l (l.map parseValue) ↔ ∀ s ∈ l, DenotesInt s := by
  rw [List.forall₂_map_right_iff, List.forall₂_same]
  exact forall₂_congr fun s _ => converts_parseValue_iff

section Get

variable {α : Type*} {values : OptionsValues} {name : Str} {args : List Str} {n : ℕ}

/-- What `get` returns. -/
theorem get_eq_ok_iff {parse : List Str → Except Exit α} {a : α} :
    values.get parse name = .ok a ↔ ∃ args, values.map name = some args ∧ parse args = .ok a := by
  rw [OptionsValues.get]
  cases values.map name <;> simp

/-- A single argument is parsed. -/
theorem parseAs_eq_ok_iff {convert : Str → α} {value : α} :
    parseAs convert args = .ok value ↔ ∃ s, args = [s] ∧ convert s = value := by
  rw [parseAs]
  split
  next hlength =>
    constructor
    · intro h
      cases h
    · rintro ⟨s, rfl, -⟩
      exact absurd rfl hlength
  next hlength =>
    obtain ⟨s, rfl⟩ := List.length_eq_one_iff.mp (not_not.mp hlength)
    simp

/-- As many arguments as the array has elements are parsed. -/
theorem parseArrayAs_eq_ok_iff {convert : Str → α} {l : List α} :
    parseArrayAs n convert args = .ok l ↔ args.length = n ∧ args.map convert = l := by
  rw [parseArrayAs]
  split <;> simp_all

/-- An option of type `int` is converted exactly if and only if its argument denotes a value of the type. -/
theorem get_int_iff : (∀ value, values.get parseInt name = .ok value →
      ∃ s, values.map name = some [s] ∧ Converts s value) ↔
    ∀ s, values.map name = some [s] → DenotesInt s := by
  constructor
  · intro h s hs
    obtain ⟨s', hs', hconverts⟩ := h (parseValue s)
      (get_eq_ok_iff.mpr ⟨[s], hs, parseAs_eq_ok_iff.mpr ⟨s, rfl, rfl⟩⟩)
    cases hs.symm.trans hs'
    exact converts_parseValue_iff.mp hconverts
  · intro h value hget
    obtain ⟨args, hargs, hparse⟩ := get_eq_ok_iff.mp hget
    obtain ⟨s, rfl, rfl⟩ := parseAs_eq_ok_iff.mp hparse
    exact ⟨s, hargs, converts_parseValue_iff.mpr (h s hargs)⟩

/-- An option with an array of them is converted exactly if and only if all its arguments do. -/
theorem get_array_iff : (∀ l, values.get (parseArray n) name = .ok l →
      ∃ args, values.map name = some args ∧ args.length = n ∧ List.Forall₂ Converts args l) ↔
    ∀ args, values.map name = some args → args.length = n → ∀ s ∈ args, DenotesInt s := by
  constructor
  · intro h args hargs hlength
    obtain ⟨args', hargs', -, hconverts⟩ := h (args.map parseValue)
      (get_eq_ok_iff.mpr ⟨args, hargs, parseArrayAs_eq_ok_iff.mpr ⟨hlength, rfl⟩⟩)
    cases hargs.symm.trans hargs'
    exact forall₂_converts_iff.mp hconverts
  · intro h l hget
    obtain ⟨args, hargs, hparse⟩ := get_eq_ok_iff.mp hget
    obtain ⟨hlength, rfl⟩ := parseArrayAs_eq_ok_iff.mp hparse
    exact ⟨args, hargs, hlength, forall₂_converts_iff.mpr (h args hargs hlength)⟩

end Get

end Ghexbench.Cli
