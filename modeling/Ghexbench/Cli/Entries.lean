import Ghexbench.Cli.OptionsCorrect
import Ghexbench.Cli.Values

/-!
# Command lines from entries

A program that wants to write a command line lists the flags that it may set and the options that it may give
values. The groups of those that it does set and give are accepted, and looking a name up in what has been
parsed finds the value of its entry or else the default values of the option.
-/

namespace Ghexbench.Cli

open Ghexbench.Common

/-- The flags that are set. -/
def flagGroups (flags : List (Str × Bool)) : List Group :=
  flags.filterMap fun e => if e.2 then some (.flag e.1) else none

/-- The options that are given. -/
def optionGroups (entries : List (Str × Option (List Str))) : List Group :=
  entries.filterMap fun e => e.2.map (Group.option e.1)

/-- The groups of the flags that are set and of the options that are given. -/
def groupsOf (flags : List (Str × Bool)) (entries : List (Str × Option (List Str))) : List Group :=
  flagGroups flags ++ optionGroups entries

variable {flags : List (Str × Bool)} {entries : List (Str × Option (List Str))} {o : Options} {name : Str}
  {values : OptionsValues}

section Membership

/-- The flags among the groups. -/
theorem flag_mem_groupsOf : .flag name ∈ groupsOf flags entries ↔ (name, true) ∈ flags := by
  simp only [groupsOf, flagGroups, optionGroups, List.mem_append, List.mem_filterMap, Option.map_eq_some_iff,
    reduceCtorEq, and_false, exists_false, or_false]
  constructor
  · rintro ⟨⟨n, set⟩, hmem, hset⟩
    cases set with
    | true =>
      rw [if_pos rfl, Option.some.injEq, Group.flag.injEq] at hset
      exact hset ▸ hmem
    | false => cases hset
  · intro hmem
    exact ⟨_, hmem, if_pos rfl⟩

/-- The options among the groups. -/
theorem option_mem_groupsOf {l : List Str} :
    .option name l ∈ groupsOf flags entries ↔ (name, some l) ∈ entries := by
  simp only [groupsOf, flagGroups, optionGroups, List.mem_append, List.mem_filterMap, Option.map_eq_some_iff]
  constructor
  · rintro (⟨⟨n, set⟩, -, hset⟩ | ⟨⟨n, v⟩, hmem, l', hv, heq⟩)
    · cases set <;> cases hset
    · rw [Group.option.injEq] at heq
      obtain ⟨rfl, rfl⟩ := heq
      exact hv ▸ hmem
  · intro hmem
    exact Or.inr ⟨_, hmem, l, rfl, rfl⟩

/-- What becomes of some elements of a list keeps their names. -/
theorem map_filterMap_sublist {α β γ : Type*} {f : α → Option β} {g : β → γ} {h : α → γ}
    (hf : ∀ x y, f x = some y → g y = h x) (l : List α) : ((l.filterMap f).map g).Sublist (l.map h) := by
  induction l with
  | nil => exact List.Sublist.refl _
  | cons x l ih =>
    rw [List.filterMap_cons]
    cases hx : f x with
    | none => exact ih.cons _
    | some y =>
      rw [List.map_cons, List.map_cons, hf x y hx]
      exact ih.cons_cons _

/-- The names of the groups are among those of the flags and of the entries. -/
theorem names_groupsOf_sublist : ((groupsOf flags entries).map Group.name).Sublist
    (flags.map Prod.fst ++ entries.map Prod.fst) := by
  rw [groupsOf, List.map_append]
  apply List.Sublist.append
  · apply map_filterMap_sublist
    rintro ⟨n, set⟩ g hg
    cases set with
    | true =>
      cases hg
      rfl
    | false => cases hg
  · apply map_filterMap_sublist
    rintro ⟨n, v⟩ g hg
    obtain ⟨l, -, rfl⟩ := Option.map_eq_some_iff.mp hg
    rfl

end Membership

section Lookup

/-- The values that an option has without an entry. -/
def OptionDecl.default (opt : OptionDecl) : Option (List Str) :=
  if opt.defaultValues = [] then none else some opt.defaultValues

/-- An entry for an option: as many values as it is declared with, none of which begins with two dashes. -/
def OptionDecl.Fits (opt : OptionDecl) (e : Str × Option (List Str)) : Prop :=
  opt.name = e.1 ∧ ∀ l, e.2 = some l → l.length = opt.nargs ∧ ∀ value ∈ l, isDashed value = false

/-- An entry for each flag and one for each option. -/
structure Options.Fits (o : Options) (flags : List (Str × Bool)) (entries : List (Str × Option (List Str))) :
    Prop where
  flags : flags.map Prod.fst = o.flags.map FlagDecl.name
  entries : List.Forall₂ OptionDecl.Fits o.options entries

/-- Each of the second elements of a relation between lists belongs to one of the first. -/
theorem exists_of_forall₂ {α β : Type*} {R : α → β → Prop} {l : List α} {m : List β} (h : List.Forall₂ R l m)
    {y : β} (hy : y ∈ m) : ∃ x ∈ l, R x y := by
  induction h with
  | nil => cases hy
  | cons hR _ ih =>
    cases List.mem_cons.mp hy with
    | inl heq => exact ⟨_, List.mem_cons_self, heq ▸ hR⟩
    | inr hmem =>
      obtain ⟨x, hx, hxy⟩ := ih hmem
      exact ⟨x, List.mem_cons_of_mem _ hx, hxy⟩

namespace Options.Fits

/-- The names of the entries are those of the options. -/
theorem names_entries (h : o.Fits flags entries) : entries.map Prod.fst = o.options.map OptionDecl.name := by
  symm
  rw [← List.forall₂_eq_eq_eq, List.forall₂_map_left_iff, List.forall₂_map_right_iff]
  exact h.entries.imp fun _ _ hfits => hfits.1

/-- Groups of entries that fit are accepted. -/
theorem accepts (h : o.Fits flags entries) (hd : o.Distinct) : o.Accepts (groupsOf flags entries) where
  declared g hg := by
    cases g with
    | flag name =>
      have hname := List.mem_map_of_mem (f := Prod.fst) (flag_mem_groupsOf.mp hg)
      rw [h.flags] at hname
      exact List.mem_map.mp hname
    | option name l =>
      obtain ⟨opt, hopt, hname, hvalues⟩ := exists_of_forall₂ h.entries (option_mem_groupsOf.mp hg)
      exact ⟨opt, hopt, hname, hvalues l rfl⟩
  nodup := by
    apply List.Nodup.sublist names_groupsOf_sublist
    rw [h.flags, h.names_entries]
    exact hd.nodup

/-- What is found under a name is its entry, or the default values. -/
theorem map_eq (h : o.Fits flags entries) (hd : o.Distinct) (hmeans : o.Means (groupsOf flags entries) values)
    {opt : OptionDecl} (hopt : opt ∈ o.options) {v : Option (List Str)} (hentry : (opt.name, v) ∈ entries) :
    values.map opt.name = v.or opt.default := by
  have hoptions := (List.nodup_append.mp hd.nodup).2.1
  have hmem {l : List Str} : .option opt.name l ∈ groupsOf flags entries ↔ v = some l := by
    rw [option_mem_groupsOf]
    constructor
    · intro hl
      have hnodup : (entries.map Prod.fst).Nodup := h.names_entries ▸ hoptions
      exact congrArg Prod.snd (List.inj_on_of_nodup_map hnodup hentry hl rfl)
    · rintro rfl
      exact hentry
  cases v with
  | some l => exact (hmeans.map_iff opt.name l).mpr (Or.inl (hmem.mpr rfl))
  | none =>
    have hnot (l : List Str) : .option opt.name l ∉ groupsOf flags entries := by simp [hmem]
    rw [Option.none_or, OptionDecl.default]
    split
    · next hempty =>
      rw [Option.eq_none_iff_forall_ne_some]
      intro l hl
      rcases (hmeans.map_iff opt.name l).mp hl with hl | ⟨-, opt', hopt', hname, hne, -⟩
      · exact hnot l hl
      · have hsame := List.inj_on_of_nodup_map hoptions hopt' hopt hname
        exact hne (hsame ▸ hempty)
    · next hne => exact (hmeans.map_iff opt.name _).mpr (Or.inr ⟨hnot, opt, hopt, rfl, hne, rfl⟩)

/-- All entries are found. -/
theorem lookup (h : o.Fits flags entries) (hd : o.Distinct) (hmeans : o.Means (groupsOf flags entries) values) :
    List.Forall₂ (fun opt e => values.map opt.name = e.2.or opt.default) o.options entries := by
  rw [List.forall₂_iff_zip]
  refine ⟨h.entries.length_eq, fun {opt e} hzip => ?_⟩
  have hname := ((List.forall₂_iff_zip.mp h.entries).2 hzip).1
  obtain ⟨hopt, hentry⟩ := List.of_mem_zip hzip
  exact h.map_eq hd hmeans hopt (hname ▸ hentry)

/-- All flags are found. -/
theorem lookup_flags (h : o.Fits flags entries) (hd : o.Distinct)
    (hmeans : o.Means (groupsOf flags entries) values) : ∀ e ∈ flags, values.set e.1 = e.2 := by
  rintro ⟨name, set⟩ hflag
  have hnodup : (flags.map Prod.fst).Nodup := h.flags ▸ (List.nodup_append.mp hd.nodup).1
  rw [Bool.eq_iff_iff, hmeans.set_iff, flag_mem_groupsOf]
  constructor
  · intro hset
    exact congrArg Prod.snd (List.inj_on_of_nodup_map hnodup hflag hset rfl)
  · rintro rfl
    exact hflag

end Options.Fits

/-- Every option that is there has as many values as it is declared with. -/
def Options.Sized (o : Options) (values : OptionsValues) : Prop :=
  ∀ opt ∈ o.options, ∀ l, values.map opt.name = some l → l.length = opt.nargs

/-- The options have as many values as they are declared with, whether these are given or not. -/
theorem sized_of_parse (hd : o.Distinct) (hdefaults : ∀ opt ∈ o.options, opt.defaultValues ≠ [] →
    opt.defaultValues.length = opt.nargs) {command : Str} {args : List Str}
    (h : o.parse (command :: args) = .ok values) : o.Sized values := by
  intro opt hopt l hl
  obtain ⟨groups, haccepts, -, hmeans⟩ := exists_groups_of_parse hd h
  have hsame {opt' : OptionDecl} (hopt' : opt' ∈ o.options) (hname : opt'.name = opt.name) : opt' = opt :=
    List.inj_on_of_nodup_map (List.nodup_append.mp hd.nodup).2.1 hopt' hopt hname
  rcases (hmeans.map_iff _ _).mp hl with hgiven | ⟨-, opt', hopt', hname, hne, rfl⟩
  · obtain ⟨opt', hopt', hname, hlength, -⟩ := haccepts.declared _ hgiven
    exact hsame hopt' hname ▸ hlength
  · exact hsame hopt' hname ▸ hdefaults opt' hopt' hne

/-- The declaration under a name. -/
def Options.find (o : Options) (name : Str) : Option OptionDecl :=
  o.options.find? fun opt => opt.name == name

/-- What is found under a name is declared with the name. -/
theorem Options.mem_of_find {opt : OptionDecl} (hfind : o.find name = some opt) :
    opt ∈ o.options ∧ opt.name = name := by
  have hname := List.find?_some hfind
  rw [beq_iff_eq] at hname
  exact ⟨List.mem_of_find?_eq_some hfind, hname⟩

/-- The number of values under a name. -/
theorem Options.Sized.length_eq (h : o.Sized values) {opt : OptionDecl} (hfind : o.find name = some opt)
    {l : List Str} (hl : values.map name = some l) : l.length = opt.nargs := by
  obtain ⟨hopt, rfl⟩ := Options.mem_of_find hfind
  exact h opt hopt l hl

/-- An option with default values is there. -/
theorem hasOption_of_parse (hd : o.Distinct) {opt : OptionDecl} (hfind : o.find name = some opt)
    (hne : opt.defaultValues ≠ []) (hnargs : opt.defaultValues.length = opt.nargs) {command : Str}
    {args : List Str} (h : o.parse (command :: args) = .ok values) : values.hasOption name = true := by
  obtain ⟨hopt, rfl⟩ := Options.mem_of_find hfind
  obtain ⟨l, hl, -⟩ := exists_values_of_parse hd hopt hne hnargs h
  exact Option.isSome_iff_exists.mpr ⟨l, hl⟩

end Lookup

section Numbers

/-- The decimal form of an integer is no option. -/
theorem isDashed_decimal (v : ℤ) : isDashed (decimal v) = false := by
  have hdigit {c : Char} (hc : c ∈ Nat.toDigits 10 v.natAbs) : (c == '-') = false := by
    rw [beq_eq_false_iff_ne]
    rintro rfl
    have hminus := Nat.isDigit_of_mem_toDigits (by decide) (by decide) hc
    exact absurd hminus (by decide)
  obtain ⟨c, t, hct⟩ := List.exists_cons_of_ne_nil (Nat.toDigits_ne_nil (n := v.natAbs) (b := 10))
  have hc := hdigit (c := c) (by rw [hct]; exact List.mem_cons_self)
  unfold decimal
  split
  · rw [hct, isDashed]
    simp [hc]
  · rw [hct, isDashed]
    simp [hc]

/-- The decimal form of a value of type `int` is converted to it. -/
theorem parseValue_decimal {v : ℤ} (hv : IsInt v) : parseValue (decimal v) = some v := by
  rw [parseValue, extract_of_numeral numeral_decimal, clamp_eq_iff.mpr hv]

end Numbers

section Reading

variable {α β : Type*} {values : OptionsValues} {name : Str} {parse : List Str → Except Exit β}
  {texts : α → List Str} {read : α → β} {a : Option α} {l : List Str} {d : β}

/-- A name is there if its entry is. -/
theorem hasOption_of_map (hmap : values.map name = a.map texts) : values.hasOption name = a.isSome := by
  rw [OptionsValues.hasOption, hmap, Option.isSome_map]

/-- An entry is read with `get`. -/
theorem get_of_map (hparse : ∀ b, parse (texts b) = .ok (read b)) {b : α}
    (hmap : values.map name = (some b).map texts) : values.get parse name = .ok (read b) :=
  get_eq_ok_iff.mpr ⟨texts b, hmap, hparse b⟩

/-- An entry is read with `get_or`. -/
theorem getOr_of_map (hparse : ∀ b, parse (texts b) = .ok (read b)) (hmap : values.map name = a.map texts)
    (d : β) : values.getOr parse name d = .ok ((a.map read).getD d) := by
  rw [OptionsValues.getOr, hmap]
  cases a with
  | none => rfl
  | some b => exact hparse b

/-- An entry or the default values are read with `get`. -/
theorem get_of_map_or (hparse : ∀ b, parse (texts b) = .ok (read b)) (hdefault : parse l = .ok d)
    (hmap : values.map name = (a.map texts).or (some l)) :
    values.get parse name = .ok ((a.map read).getD d) := by
  rw [OptionsValues.get, hmap]
  cases a with
  | none => exact hdefault
  | some b => exact hparse b

/-- A single value is parsed with every type. -/
theorem exists_parseAs {convert : Str → β} (hlength : l.length = 1) : ∃ b, parseAs convert l = .ok b :=
  ⟨_, if_neg (not_not.mpr hlength)⟩

/-- As many values as the array has elements are parsed. -/
theorem exists_parseArray {n : ℕ} (hlength : l.length = n) : ∃ b, parseArray n l = .ok b :=
  ⟨_, if_neg (not_not.mpr hlength)⟩

/-- An option that is there is read if its values are parsed. -/
theorem exists_get (hparse : ∀ l, values.map name = some l → ∃ b, parse l = .ok b)
    (hhas : values.hasOption name = true) : ∃ b, values.get parse name = .ok b := by
  obtain ⟨l, hl⟩ := Option.isSome_iff_exists.mp hhas
  obtain ⟨b, hb⟩ := hparse l hl
  exact ⟨b, get_eq_ok_iff.mpr ⟨l, hl, hb⟩⟩

/-- An option with a default value is read if its values are parsed. -/
theorem exists_getOr (hparse : ∀ l, values.map name = some l → ∃ b, parse l = .ok b) (d : β) :
    ∃ b, values.getOr parse name d = .ok b := by
  rw [OptionsValues.getOr]
  cases hmap : values.map name with
  | none => exact ⟨d, rfl⟩
  | some l => exact hparse l hmap

end Reading

end Ghexbench.Cli
