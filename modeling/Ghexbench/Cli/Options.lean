import Mathlib.Data.List.Basic
import Mathlib.Logic.Function.Basic

/-!
# The command line parser

`options` declares flags and options with a number of values each, and `parse` runs over the arguments
with an index that the values of an option advance. It ends with the parsed values, or the program
prints the help message or an error message and exits.
-/

namespace Ghexbench.Cli

/-- `std::string`. -/
abbrev Str := List Char

/-- A string literal. -/
def str (s : String) : Str := s.toList

/-- `options::flag`. -/
structure FlagDecl where
  name : Str
  description : Str

/-- `options::option`. -/
structure OptionDecl where
  name : Str
  description : Str
  variableName : Str
  defaultValues : List Str
  nargs : ℕ

/-- `options`. -/
structure Options where
  options : List OptionDecl
  flags : List FlagDecl

/-- `options_values`: the values of the options that are given, and which flags are set. -/
@[ext] structure OptionsValues where
  map : Str → Option (List Str)
  set : Str → Bool

/-- Nothing has been parsed. -/
def OptionsValues.empty : OptionsValues := ⟨fun _ => none, fun _ => false⟩

/-- The program exits with a message: on request, or because of an error (`options_impl::abort`). -/
inductive Exit
  | help (message : Str)
  | abort (message : Str)

/-- A string begins with two dashes. Characters past the end of a string are zero. -/
def isDashed (s : Str) : Bool := s.getD 0 '\x00' == '-' && s.getD 1 '\x00' == '-'

namespace Options

variable (o : Options)

/-- A line of the help message. -/
def helpLine (width : ℕ) (opt descr : Str) (defaultValues : List Str) : Str :=
  str "    " ++ (opt ++ List.replicate (width - opt.length) ' ') ++ str " " ++ descr ++
    (if defaultValues.isEmpty then [] else
      str " (default:" ++ defaultValues.flatMap (fun value => str " " ++ value) ++ str ")") ++ str "\n"

/-- `help_message`. -/
def helpMessage (command : Str) : Str :=
  let maxOptLen := o.flags.foldl (fun len flg => max flg.name.length len) 4
  let maxOptLen := o.options.foldl
    (fun len opt => max (opt.name.length + opt.variableName.length) len) maxOptLen
  str "usage: " ++ command ++ str " [options...]\n" ++
    helpLine (maxOptLen + 3) (str "--help") (str "print this help message and exit") [] ++
    o.flags.flatMap (fun flg => helpLine (maxOptLen + 3) (str "--" ++ flg.name) flg.description []) ++
    o.options.flatMap fun opt => helpLine (maxOptLen + 3)
      (str "--" ++ opt.name ++ str " " ++ opt.variableName) opt.description opt.defaultValues

/-- The loop over the values of an option, which starts with index `i`: the values and the index of the
last one. -/
def takeValues (argv : List Str) (arg : Str) : ℕ → ℕ → List Str → Except Exit (List Str × ℕ)
  | 0, i, values => .ok (values, i)
  | n + 1, i, values =>
    let command := argv.getD 0 []
    if i + 1 ≥ argv.length then
      .error (.abort (str "unexpected end of arguments while parsing args for '" ++ arg ++ str "'\n" ++
        o.helpMessage command))
    else
      let value := argv.getD (i + 1) []
      if isDashed value then
        .error (.abort (str "expected argument for option '" ++ arg ++ str "', found '" ++ value ++
          str "'\n" ++ o.helpMessage command))
      else takeValues argv arg n (i + 1) (values ++ [value])

/-- The body of the loop over the arguments: the index of the last argument that it has read, and what has
been parsed. -/
def pass (argv : List Str) (i : ℕ) (parsed : OptionsValues) : Except Exit (ℕ × OptionsValues) :=
  let command := argv.getD 0 []
  let arg := argv.getD i []
  if arg = str "-h" ∨ arg = str "--help" then .error (.help (o.helpMessage command))
  else if isDashed arg then
    let name := arg.drop 2
    match o.flags.find? (fun f => f.name == name) with
    | some _ =>
      if parsed.set name then
        .error (.abort (str "multiple occurences of '" ++ arg ++ str "'\n" ++ o.helpMessage command))
      else .ok (i, { parsed with set := Function.update parsed.set name true })
    | none =>
      match o.options.find? (fun opt => opt.name == name) with
      | none => .error (.abort (str "unkown option: '" ++ arg ++ str "'\n" ++ o.helpMessage command))
      | some opt =>
        if (parsed.map name).isSome then
          .error (.abort (str "multiple occurences of '" ++ arg ++ str "'\n" ++ o.helpMessage command))
        else
          match o.takeValues argv arg opt.nargs i [] with
          | .error exit => .error exit
          | .ok (values, j) =>
            .ok (j, { parsed with map := Function.update parsed.map name (some values) })
  else
    .error (.abort (str "unexpected token: '" ++ arg ++ str "' (too many arguments provided?)\n" ++
      o.helpMessage command))

/-- The body of the loop over the options: one that is not given gets its default values. -/
def addDefault (parsed : OptionsValues) (opt : OptionDecl) : OptionsValues :=
  if !opt.defaultValues.isEmpty && (parsed.map opt.name).isNone then
    { parsed with map := Function.update parsed.map opt.name (some opt.defaultValues) }
  else parsed

/-- The loop over the options at the end of `parse`. -/
def addDefaults (parsed : OptionsValues) : OptionsValues := o.options.foldl addDefault parsed

variable {o} {argv : List Str} {arg : Str} {n i j : ℕ} {values values' : List Str}

/-- The values lie behind the option. -/
theorem takeValues_index (h : o.takeValues argv arg n i values = .ok (values', j)) : j = i + n := by
  induction n generalizing i values with
  | zero =>
    cases h
    rfl
  | succ n ih =>
    simp only [takeValues] at h
    split at h
    · cases h
    · split at h
      · cases h
      · rw [ih h]
        omega

/-- The index does not go back. -/
theorem le_of_pass {parsed parsed' : OptionsValues} (h : o.pass argv i parsed = .ok (j, parsed')) :
    i ≤ j := by
  simp only [pass] at h
  split at h
  · cases h
  · split at h
    · split at h
      · split at h
        · cases h
        · cases h
          exact Nat.le_refl i
      · split at h
        · cases h
        · split at h
          · cases h
          · split at h
            · cases h
            · next htake =>
              cases h
              exact takeValues_index htake ▸ Nat.le_add_right i _
    · cases h

variable (o)

/-- The loop over the arguments. -/
def loop (argv : List Str) (i : ℕ) (parsed : OptionsValues) : Except Exit OptionsValues :=
  if i < argv.length then
    match h : o.pass argv i parsed with
    | .error exit => .error exit
    | .ok (j, parsed') => loop argv (j + 1) parsed'
  else .ok (o.addDefaults parsed)
termination_by argv.length - i
decreasing_by
  have hle := le_of_pass h
  omega

/-- `options::parse`. -/
def parse (argv : List Str) : Except Exit OptionsValues := o.loop argv 1 .empty

end Options

end Ghexbench.Cli
