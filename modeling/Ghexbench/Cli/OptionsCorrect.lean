import Ghexbench.Cli.Options
import Mathlib.Data.List.GetD
import Mathlib.Data.List.Nodup
import Mathlib.Data.List.Perm.Basic

/-!
# The grammar of the command line

The parser accepts the arguments that consist of groups: a flag, or an option with its values, and no name
twice. What it returns is determined by the groups and does not depend on their order.
-/

namespace Ghexbench.Cli

/-- A flag, or an option with its values. -/
inductive Group
  | flag (name : Str)
  | option (name : Str) (values : List Str)

namespace Group

/-- The name of the flag or of the option. -/
def name : Group → Str
  | flag name => name
  | option name _ => name

/-- The arguments for a group. -/
def render : Group → List Str
  | flag name => [str "--" ++ name]
  | option name values => (str "--" ++ name) :: values

end Group

/-- The arguments for some groups. -/
def render (groups : List Group) : List Str := groups.flatMap Group.render

namespace Options

variable (o : Options)

/-- All declared names. -/
def names : List Str := o.flags.map FlagDecl.name ++ o.options.map OptionDecl.name

/-- Distinct names are declared, and none of them is that of the option for help. -/
structure Distinct : Prop where
  nodup : o.names.Nodup
  help : str "help" ∉ o.names

/-- A declared flag, or a declared option with as many values as it is declared with, none of which begins
with two dashes. -/
def Declared : Group → Prop
  | .flag name => ∃ flg ∈ o.flags, flg.name = name
  | .option name values => ∃ opt ∈ o.options, opt.name = name ∧ values.length = opt.nargs ∧
      ∀ value ∈ values, isDashed value = false

/-- Groups that may be given together: all are declared, and no name is repeated. -/
structure Accepts (groups : List Group) : Prop where
  declared : ∀ g ∈ groups, o.Declared g
  nodup : (groups.map Group.name).Nodup

/-- What parsing some groups returns: exactly the given flags are set, and exactly the given options have
their values and those with default values that are not given have these. -/
structure Means (groups : List Group) (values : OptionsValues) : Prop where
  set_iff : ∀ name, values.set name = true ↔ .flag name ∈ groups
  map_iff : ∀ name l, values.map name = some l ↔ .option name l ∈ groups ∨
    (∀ l', .option name l' ∉ groups) ∧
      ∃ opt ∈ o.options, opt.name = name ∧ opt.defaultValues ≠ [] ∧ l = opt.defaultValues

end Options

/-- A group has been parsed already. -/
def OptionsValues.has (values : OptionsValues) : Group → Bool
  | .flag name => values.set name
  | .option name _ => (values.map name).isSome

/-- Add a group to what has been parsed. -/
def OptionsValues.give (values : OptionsValues) : Group → OptionsValues
  | .flag name => { values with set := Function.update values.set name true }
  | .option name l => { values with map := Function.update values.map name (some l) }

section Scan

variable {o : Options} {argv : List Str} {arg : Str} {n i j : ℕ} {values values' : List Str}

/-- What begins with two dashes. -/
theorem isDashed_iff {s : Str} : isDashed s = true ↔ ∃ name, s = str "--" ++ name := by
  constructor
  · intro h
    cases s with
    | nil => cases h
    | cons c t =>
      cases t with
      | nil =>
        have hc : (c == '-' && false) = true := h
        rw [Bool.and_false] at hc
        exact absurd hc Bool.false_ne_true
      | cons d t =>
        have hcd : (c == '-' && d == '-') = true := h
        obtain ⟨hc, hd⟩ := Bool.and_eq_true_iff.mp hcd
        exact ⟨t, by rw [eq_of_beq hc, eq_of_beq hd]; rfl⟩
  · rintro ⟨name, rfl⟩
    rfl

/-- The argument at an index comes before those behind it. -/
theorem drop_eq_cons (h : i < argv.length) : argv.drop i = argv.getD i [] :: argv.drop (i + 1) := by
  rw [List.getD_eq_getElem _ _ h, ← List.drop_eq_getElem_cons h]

/-- Arguments that are left begin at an index of the list. -/
theorem of_drop_eq_cons {rest : List Str} (h : argv.drop i = arg :: rest) :
    i < argv.length ∧ argv.getD i [] = arg ∧ argv.drop (i + 1) = rest := by
  have hi : i < argv.length := by
    apply Nat.lt_of_not_le
    intro hle
    rw [List.drop_eq_nil_of_le hle] at h
    cases h
  rw [drop_eq_cons hi] at h
  exact ⟨hi, List.cons.inj h⟩

/-- The values of an option are taken if there are enough of them. -/
theorem takeValues_eq_ok : o.takeValues argv arg n i values = .ok (values', j) ↔
    ∃ l, l.length = n ∧ (∀ value ∈ l, isDashed value = false) ∧ values' = values ++ l ∧ j = i + n ∧
      argv.drop (i + 1) = l ++ argv.drop (j + 1) := by
  induction n generalizing i values with
  | zero =>
    constructor
    · intro h
      cases h
      exact ⟨[], rfl, fun _ h => absurd h List.not_mem_nil, (List.append_nil _).symm, rfl, rfl⟩
    · rintro ⟨l, hlength, -, rfl, rfl, -⟩
      rw [List.length_eq_zero_iff.mp hlength, List.append_nil]
      rfl
  | succ n ih =>
    rw [Options.takeValues]
    constructor
    · intro h
      dsimp only at h
      split at h
      · cases h
      · next hlt =>
        split at h
        · cases h
        · next hvalue =>
          obtain ⟨l, hlength, hl, rfl, rfl, hdrop⟩ := ih.mp h
          refine ⟨argv.getD (i + 1) [] :: l, by rw [List.length_cons, hlength], ?_, ?_, ?_, ?_⟩
          · rintro value hmem
            cases List.mem_cons.mp hmem with
            | inl heq => exact heq ▸ Bool.not_eq_true _ ▸ hvalue
            | inr hmem => exact hl value hmem
          · rw [List.append_assoc, List.singleton_append]
          · omega
          · rw [drop_eq_cons (Nat.not_le.mp hlt), hdrop, List.cons_append]
    · rintro ⟨l, hlength, hl, rfl, rfl, hdrop⟩
      obtain ⟨value, l, rfl⟩ := List.exists_cons_of_length_eq_add_one hlength
      obtain ⟨hlt, hvalue, hdrop⟩ := of_drop_eq_cons hdrop
      have hfalse := hl value List.mem_cons_self
      dsimp only
      rw [if_neg (Nat.not_le.mpr hlt), hvalue, hfalse, if_neg Bool.false_ne_true]
      apply ih.mpr
      exact ⟨l, Nat.succ.inj hlength, fun v hv => hl v (List.mem_cons_of_mem value hv),
        by rw [List.append_assoc, List.singleton_append], by omega, hdrop⟩

/-- A declared flag is found. -/
theorem find?_flag {name : Str} (h : o.Declared (.flag name)) :
    ∃ flg, o.flags.find? (fun f => f.name == name) = some flg := by
  obtain ⟨flg, hmem, hname⟩ := h
  rw [← Option.isSome_iff_exists, List.find?_isSome]
  exact ⟨flg, hmem, beq_iff_eq.mpr hname⟩

/-- No flag has the name of an option. -/
theorem Options.Distinct.flag_ne_option (hd : o.Distinct) {flg : FlagDecl} {opt : OptionDecl}
    (hflg : flg ∈ o.flags) (hopt : opt ∈ o.options) : flg.name ≠ opt.name :=
  (List.nodup_append.mp hd.nodup).2.2 _ (List.mem_map_of_mem hflg) _ (List.mem_map_of_mem hopt)

/-- A declared option is found, and is not found among the flags. -/
theorem find?_option (hd : o.Distinct) {opt : OptionDecl} (hopt : opt ∈ o.options) :
    o.flags.find? (fun f => f.name == opt.name) = none ∧
      o.options.find? (fun p => p.name == opt.name) = some opt := by
  have hnodup := (List.nodup_append.mp hd.nodup).2.1
  constructor
  · rw [List.find?_eq_none]
    intro flg hmem hname
    exact hd.flag_ne_option hmem hopt (beq_iff_eq.mp hname)
  · obtain ⟨found, hfound⟩ : ∃ found, o.options.find? (fun p => p.name == opt.name) = some found := by
      rw [← Option.isSome_iff_exists, List.find?_isSome]
      exact ⟨opt, hopt, beq_self_eq_true _⟩
    have hname := List.find?_some hfound
    rw [beq_iff_eq] at hname
    rw [hfound, List.inj_on_of_nodup_map hnodup (List.mem_of_find?_eq_some hfound) hopt hname]

/-- A declared name. -/
theorem Options.Declared.name_mem {g : Group} (h : o.Declared g) : g.name ∈ o.names := by
  cases g with
  | flag name =>
    obtain ⟨flg, hmem, hname⟩ := h
    exact List.mem_append_left _ (hname ▸ List.mem_map_of_mem hmem)
  | option name l =>
    obtain ⟨opt, hmem, hname, -⟩ := h
    exact List.mem_append_right _ (hname ▸ List.mem_map_of_mem hmem)

/-- A declared name does not ask for help. -/
theorem Options.Distinct.ne_help (hd : o.Distinct) {g : Group} (hg : o.Declared g) :
    ¬ (str "--" ++ g.name = str "-h" ∨ str "--" ++ g.name = str "--help") := by
  rintro (h | h)
  · have hchar : 'h' = '-' := (List.cons.inj (List.cons.inj h).2).1.symm
    exact absurd hchar (by decide)
  · have hname : g.name = str "help" := (List.cons.inj (List.cons.inj h).2).2
    exact hd.help (hname ▸ hg.name_mem)

variable {parsed parsed' : OptionsValues}

/-- The body of the loop reads one group that has not been parsed before. -/
theorem exists_group_of_pass (hi : i < argv.length) (h : o.pass argv i parsed = .ok (j, parsed')) :
    ∃ g, o.Declared g ∧ parsed.has g = false ∧ parsed' = parsed.give g ∧
      argv.drop i = g.render ++ argv.drop (j + 1) := by
  simp only [Options.pass] at h
  split at h
  · cases h
  · split at h
    · next hdashed =>
      obtain ⟨name, hname⟩ := isDashed_iff.mp hdashed
      have hdrop : (argv.getD i []).drop 2 = name := by
        rw [hname]
        rfl
      rw [hdrop] at h
      split at h
      · next flg hfind =>
        split at h
        · cases h
        · next hset =>
          cases h
          have hflag := List.find?_some hfind
          rw [beq_iff_eq] at hflag
          refine ⟨.flag name, ⟨flg, List.mem_of_find?_eq_some hfind, hflag⟩, ?_, rfl, ?_⟩
          · exact Bool.eq_false_iff.mpr hset
          · rw [drop_eq_cons hi, hname]
            rfl
      · split at h
        · cases h
        · next opt hfind =>
          split at h
          · cases h
          · next hmap =>
            split at h
            · cases h
            · next values index htake =>
              cases h
              obtain ⟨l, hlength, hl, rfl, -, hrest⟩ := takeValues_eq_ok.mp htake
              have hoption := List.find?_some hfind
              rw [beq_iff_eq] at hoption
              refine ⟨.option name values, ⟨opt, List.mem_of_find?_eq_some hfind, hoption, hlength, hl⟩,
                ?_, rfl, ?_⟩
              · exact Bool.eq_false_iff.mpr hmap
              · rw [drop_eq_cons hi, hname, hrest]
                rfl
    · cases h

/-- The body of the loop reads a declared group that has not been parsed before. -/
theorem pass_of_group (hd : o.Distinct) {g : Group} {rest : List Str} (hg : o.Declared g)
    (hnew : parsed.has g = false) (hdrop : argv.drop i = g.render ++ rest) :
    ∃ j, o.pass argv i parsed = .ok (j, parsed.give g) ∧ argv.drop (j + 1) = rest := by
  have harg : argv.getD i [] = str "--" ++ g.name := by
    cases g <;> exact (of_drop_eq_cons hdrop).2.1
  have hname : (str "--" ++ g.name).drop 2 = g.name := rfl
  simp only [Options.pass]
  rw [harg, if_neg (hd.ne_help hg), if_pos (isDashed_iff.mpr ⟨_, rfl⟩), hname]
  cases g with
  | flag name =>
    obtain ⟨flg, hfind⟩ := find?_flag hg
    refine ⟨i, ?_, (of_drop_eq_cons hdrop).2.2⟩
    change parsed.set name = false at hnew
    simp only [Group.name, hfind, hnew]
    rfl
  | option name l =>
    obtain ⟨opt, hopt, rfl, hlength, hl⟩ := hg
    obtain ⟨hflag, hoption⟩ := find?_option hd hopt
    change (parsed.map opt.name).isSome = false at hnew
    have hrest : argv.drop (i + 1) = l ++ rest := (of_drop_eq_cons hdrop).2.2
    have hindex : argv.drop (i + opt.nargs + 1) = rest := by
      rw [Nat.add_right_comm, ← List.drop_drop, hrest, ← hlength, List.drop_left]
    have htake : o.takeValues argv (str "--" ++ opt.name) opt.nargs i [] = .ok (l, i + opt.nargs) :=
      takeValues_eq_ok.mpr ⟨l, hlength, hl, rfl, rfl, by rw [hrest, hindex]⟩
    refine ⟨i + opt.nargs, ?_, hindex⟩
    simp only [Group.name, hflag, hoption, hnew, htake]
    rfl

end Scan

section Loop

variable {o : Options} {argv : List Str} {i j : ℕ} {parsed parsed' : OptionsValues}

/-- The loop goes on behind the last argument that its body has read. -/
theorem loop_of_ok (hi : i < argv.length) (h : o.pass argv i parsed = .ok (j, parsed')) :
    o.loop argv i parsed = o.loop argv (j + 1) parsed' := by
  rw [Options.loop, if_pos hi]
  split
  · next herror => cases h.symm.trans herror
  · next hok =>
    cases h.symm.trans hok
    rfl

/-- The loop ends when its body exits. -/
theorem loop_of_error {exit : Exit} (hi : i < argv.length) (h : o.pass argv i parsed = .error exit) :
    o.loop argv i parsed = .error exit := by
  rw [Options.loop, if_pos hi]
  split
  · next herror =>
    cases h.symm.trans herror
    rfl
  · next hok => cases h.symm.trans hok

/-- The loop ends behind the last argument. -/
theorem loop_of_le (hi : argv.length ≤ i) : o.loop argv i parsed = .ok (o.addDefaults parsed) := by
  rw [Options.loop, if_neg (Nat.not_lt.mpr hi)]

/-- Groups that have not been parsed before, one after the other. -/
def OptionsValues.Fresh : OptionsValues → List Group → Prop
  | _, [] => True
  | values, g :: groups => values.has g = false ∧ (values.give g).Fresh groups

/-- The loop accepts groups only. -/
theorem exists_groups_of_loop {values : OptionsValues} (h : o.loop argv i parsed = .ok values) :
    ∃ groups, (∀ g ∈ groups, o.Declared g) ∧ parsed.Fresh groups ∧ argv.drop i = render groups ∧
      values = o.addDefaults (groups.foldl OptionsValues.give parsed) := by
  -- the index increases with every pass
  induction hn : argv.length - i using Nat.strongRecOn generalizing i parsed with
  | ind n ih =>
    by_cases hi : i < argv.length
    · cases hpass : o.pass argv i parsed with
      | error exit => cases (loop_of_error hi hpass).symm.trans h
      | ok result =>
        obtain ⟨j, parsed'⟩ := result
        rw [loop_of_ok hi hpass] at h
        have hle := Options.le_of_pass hpass
        obtain ⟨g, hg, hnew, rfl, hdrop⟩ := exists_group_of_pass hi hpass
        obtain ⟨groups, hgroups, hfresh, hrest, rfl⟩ := ih _ (by omega) h rfl
        refine ⟨g :: groups, ?_, ⟨hnew, hfresh⟩, ?_, rfl⟩
        · intro g' hg'
          cases List.mem_cons.mp hg' with
          | inl heq => exact heq ▸ hg
          | inr hmem => exact hgroups g' hmem
        · rw [hdrop, hrest]
          rfl
    · have hle := Nat.not_lt.mp hi
      rw [loop_of_le hle] at h
      cases h
      exact ⟨[], fun g hg => absurd hg List.not_mem_nil, trivial, List.drop_eq_nil_of_le hle, rfl⟩

/-- The loop accepts groups. -/
theorem loop_of_groups (hd : o.Distinct) {groups : List Group} (hgroups : ∀ g ∈ groups, o.Declared g)
    (hfresh : parsed.Fresh groups) (hdrop : argv.drop i = render groups) :
    o.loop argv i parsed = .ok (o.addDefaults (groups.foldl OptionsValues.give parsed)) := by
  induction groups generalizing i parsed with
  | nil => exact loop_of_le (List.drop_eq_nil_iff.mp hdrop)
  | cons g groups ih =>
    obtain ⟨hnew, hfresh⟩ := hfresh
    have hi : i < argv.length := by
      cases g <;> exact (of_drop_eq_cons hdrop).1
    obtain ⟨j, hpass, hrest⟩ := pass_of_group hd (hgroups g List.mem_cons_self) hnew hdrop
    rw [loop_of_ok hi hpass, ih (fun g' hg' => hgroups g' (List.mem_cons_of_mem g hg')) hfresh hrest]
    rfl

end Loop

section Meaning

variable {o : Options} {done groups : List Group} {parsed : OptionsValues} {g : Group}

/-- What has been parsed are some groups. -/
structure OptionsValues.Gives (parsed : OptionsValues) (done : List Group) : Prop where
  set_iff : ∀ name, parsed.set name = true ↔ .flag name ∈ done
  map_iff : ∀ name l, parsed.map name = some l ↔ .option name l ∈ done

/-- At first there are no groups. -/
theorem OptionsValues.gives_empty : OptionsValues.empty.Gives [] where
  set_iff _ := iff_of_false Bool.false_ne_true List.not_mem_nil
  map_iff _ _ := iff_of_false (Option.some_ne_none _).symm List.not_mem_nil

namespace OptionsValues.Gives

/-- A group is added. -/
theorem give (h : parsed.Gives done) (hnew : g.name ∉ done.map Group.name) :
    (parsed.give g).Gives (done ++ [g]) := by
  cases g with
  | flag n =>
    constructor
    · intro name
      simp only [OptionsValues.give, Function.update_apply, List.mem_append, List.mem_singleton,
        Group.flag.injEq]
      split
      · next heq => simp [heq]
      · next hne => simp [hne, h.set_iff]
    · intro name l
      simp [OptionsValues.give, h.map_iff]
  | option n l =>
    constructor
    · intro name
      simp [OptionsValues.give, h.set_iff]
    · intro name l'
      simp only [OptionsValues.give, Function.update_apply, List.mem_append, List.mem_singleton,
        Group.option.injEq]
      split
      · next heq =>
        subst heq
        have hnot : .option name l' ∉ done := fun hmem => hnew (List.mem_map.mpr ⟨_, hmem, rfl⟩)
        simp [hnot, eq_comm]
      · next hne => simp [hne, h.map_iff]

/-- A declared group has been parsed if its name has. -/
theorem has_iff (h : parsed.Gives done) (hd : o.Distinct) (hdone : ∀ g ∈ done, o.Declared g)
    (hg : o.Declared g) : parsed.has g = true ↔ g.name ∈ done.map Group.name := by
  constructor
  · intro hhas
    cases g with
    | flag name => exact List.mem_map_of_mem ((h.set_iff name).mp hhas)
    | option name l =>
      obtain ⟨l', hl'⟩ := Option.isSome_iff_exists.mp hhas
      exact List.mem_map.mpr ⟨_, (h.map_iff name l').mp hl', rfl⟩
  · intro hmem
    obtain ⟨g', hg', hname⟩ := List.mem_map.mp hmem
    have hdeclared := hdone g' hg'
    cases g with
    | flag name =>
      obtain ⟨flg, hflg, hflgname⟩ := hg
      cases g' with
      | flag name' =>
        obtain rfl : name' = name := hname
        exact (h.set_iff name').mpr hg'
      | option name' l =>
        obtain rfl : name' = name := hname
        obtain ⟨opt, hopt, hoptname, -⟩ := hdeclared
        exact absurd (hflgname.trans hoptname.symm) (hd.flag_ne_option hflg hopt)
    | option name l =>
      obtain ⟨opt, hopt, hoptname, -⟩ := hg
      cases g' with
      | flag name' =>
        obtain rfl : name' = name := hname
        obtain ⟨flg, hflg, hflgname⟩ := hdeclared
        exact absurd (hflgname.trans hoptname.symm) (hd.flag_ne_option hflg hopt)
      | option name' l' =>
        obtain rfl : name' = name := hname
        exact Option.isSome_iff_exists.mpr ⟨l', (h.map_iff name' l').mpr hg'⟩

omit o parsed in
/-- The name of a group after those of others. -/
theorem nodup_concat_iff : ((done ++ [g]).map Group.name).Nodup ↔
    (done.map Group.name).Nodup ∧ g.name ∉ done.map Group.name := by
  rw [List.map_append, List.map_singleton, ← List.concat_eq_append, List.nodup_concat, and_comm]

omit o parsed in
/-- The name of a group between others. -/
theorem nodup_concat_of_append (h : ((done ++ [g] ++ groups).map Group.name).Nodup) :
    ((done ++ [g]).map Group.name).Nodup := by
  rw [List.map_append] at h
  exact h.of_append_left

/-- Groups have not been parsed before if no name is repeated. -/
theorem fresh_iff (h : parsed.Gives done) (hd : o.Distinct) (hdone : ∀ g ∈ done, o.Declared g)
    (hgroups : ∀ g ∈ groups, o.Declared g) (hnodup : (done.map Group.name).Nodup) :
    parsed.Fresh groups ↔ ((done ++ groups).map Group.name).Nodup := by
  induction groups generalizing done parsed with
  | nil => simpa [Fresh] using hnodup
  | cons g groups ih =>
    have hg := hgroups g List.mem_cons_self
    have hrest (g' : Group) (hg' : g' ∈ groups) : o.Declared g' := hgroups g' (List.mem_cons_of_mem g hg')
    have hdone' : ∀ g' ∈ done ++ [g], o.Declared g' := by
      intro g' hg'
      cases List.mem_append.mp hg' with
      | inl hmem => exact hdone g' hmem
      | inr hmem => exact List.mem_singleton.mp hmem ▸ hg
    rw [Fresh, ← Bool.not_eq_true, h.has_iff hd hdone hg, ← List.singleton_append, ← List.append_assoc]
    constructor
    · rintro ⟨hnew, hfresh⟩
      exact (ih (h.give hnew) hdone' hrest (nodup_concat_iff.mpr ⟨hnodup, hnew⟩)).mp hfresh
    · intro hall
      have hconcat := nodup_concat_of_append hall
      have hnew := (nodup_concat_iff.mp hconcat).2
      exact ⟨hnew, (ih (h.give hnew) hdone' hrest hconcat).mpr hall⟩

/-- Groups that no name is repeated in are parsed. -/
theorem foldl_give (h : parsed.Gives done) (hnodup : ((done ++ groups).map Group.name).Nodup) :
    (groups.foldl OptionsValues.give parsed).Gives (done ++ groups) := by
  induction groups generalizing done parsed with
  | nil => rwa [List.append_nil]
  | cons g groups ih =>
    rw [← List.singleton_append, ← List.append_assoc] at hnodup ⊢
    exact ih (h.give (nodup_concat_iff.mp (nodup_concat_of_append hnodup)).2) hnodup

end OptionsValues.Gives

/-- The default values of an option that is not given. -/
theorem map_addDefault (parsed : OptionsValues) (opt : OptionDecl) (name : Str) :
    (Options.addDefault parsed opt).map name =
      if name = opt.name ∧ opt.defaultValues ≠ [] ∧ parsed.map opt.name = none then
        some opt.defaultValues else parsed.map name := by
  unfold Options.addDefault
  by_cases hname : name = opt.name
  · subst hname
    cases hvalues : opt.defaultValues <;> cases hmap : parsed.map opt.name <;> simp [hmap]
  · split <;> simp [hname]

/-- Flags have no default values. -/
theorem set_addDefault (parsed : OptionsValues) (opt : OptionDecl) :
    (Options.addDefault parsed opt).set = parsed.set := by
  unfold Options.addDefault
  split <;> rfl

/-- Options with default values that are not given get these. -/
theorem map_foldl_addDefault {opts : List OptionDecl} (hnodup : (opts.map OptionDecl.name).Nodup)
    (parsed : OptionsValues) (name : Str) (l : List Str) :
    (opts.foldl Options.addDefault parsed).map name = some l ↔
      parsed.map name = some l ∨ parsed.map name = none ∧
        ∃ opt ∈ opts, opt.name = name ∧ opt.defaultValues ≠ [] ∧ l = opt.defaultValues := by
  induction opts generalizing parsed with
  | nil => simp
  | cons opt opts ih =>
    obtain ⟨hnot, hnodup⟩ := List.nodup_cons.mp hnodup
    rw [List.foldl_cons, ih hnodup, map_addDefault]
    simp only [List.mem_cons, exists_eq_or_imp]
    by_cases hname : name = opt.name
    · subst hname
      -- no other option has the name
      have hothers : (∃ p ∈ opts, p.name = opt.name ∧ p.defaultValues ≠ [] ∧ l = p.defaultValues) ↔
          False := by
        apply iff_false_intro
        rintro ⟨p, hp, heq, -⟩
        exact hnot (heq ▸ List.mem_map_of_mem hp)
      rw [hothers]
      cases hmap : parsed.map opt.name <;> by_cases hvalues : opt.defaultValues = [] <;>
        simp [hvalues, eq_comm]
    · have hne : opt.name ≠ name := fun heq => hname heq.symm
      simp [hname, hne]

/-- Flags have no default values. -/
theorem set_foldl_addDefault (opts : List OptionDecl) (parsed : OptionsValues) :
    (opts.foldl Options.addDefault parsed).set = parsed.set := by
  induction opts generalizing parsed with
  | nil => rfl
  | cons opt opts ih => rw [List.foldl_cons, ih, set_addDefault]

/-- Parsed groups with default values added. -/
theorem OptionsValues.Gives.means (h : parsed.Gives groups) (hd : o.Distinct) :
    o.Means groups (o.addDefaults parsed) := by
  have hnodup := (List.nodup_append.mp hd.nodup).2.1
  constructor
  · intro name
    rw [Options.addDefaults, set_foldl_addDefault, h.set_iff]
  · intro name l
    have hnone : parsed.map name = none ↔ ∀ l', .option name l' ∉ groups := by
      rw [Option.eq_none_iff_forall_ne_some]
      exact forall_congr' fun l' => not_congr (h.map_iff name l')
    rw [Options.addDefaults, map_foldl_addDefault hnodup, h.map_iff, hnone]

/-- The groups determine what parsing returns. -/
theorem Options.Means.unique {values values' : OptionsValues} (h : o.Means groups values)
    (h' : o.Means groups values') : values = values' := by
  ext name l
  · rw [h.map_iff, h'.map_iff]
  · rw [Bool.eq_iff_iff, h.set_iff, h'.set_iff]

/-- The order of the groups does not matter. -/
theorem Options.Means.perm {groups' : List Group} {values : OptionsValues} (h : o.Means groups values)
    (hperm : groups'.Perm groups) : o.Means groups' values where
  set_iff name := (h.set_iff name).trans hperm.mem_iff.symm
  map_iff name l := by simp only [h.map_iff, hperm.mem_iff]

/-- The order of the groups does not matter. -/
theorem Options.Accepts.perm {groups' : List Group} (h : o.Accepts groups)
    (hperm : groups'.Perm groups) : o.Accepts groups' where
  declared g hg := h.declared g (hperm.mem_iff.mp hg)
  nodup := (hperm.map Group.name).nodup_iff.mpr h.nodup

/-- Groups that may be given together are parsed. -/
theorem parse_render (hd : o.Distinct) (command : Str) (h : o.Accepts groups) :
    ∃ values, o.parse (command :: render groups) = .ok values ∧ o.Means groups values := by
  have hgives : (groups.foldl OptionsValues.give .empty).Gives groups :=
    OptionsValues.gives_empty.foldl_give h.nodup
  refine ⟨_, loop_of_groups hd h.declared ?_ rfl, hgives.means hd⟩
  exact (OptionsValues.gives_empty.fresh_iff hd (fun g hg => absurd hg List.not_mem_nil) h.declared
    List.nodup_nil).mpr h.nodup

/-- Parsed arguments are groups that may be given together. -/
theorem exists_groups_of_parse (hd : o.Distinct) {command : Str} {args : List Str} {values : OptionsValues}
    (h : o.parse (command :: args) = .ok values) :
    ∃ groups, o.Accepts groups ∧ args = render groups ∧ o.Means groups values := by
  obtain ⟨groups, hgroups, hfresh, hargs, rfl⟩ := exists_groups_of_loop h
  have hnodup := (OptionsValues.gives_empty.fresh_iff hd (fun g hg => absurd hg List.not_mem_nil) hgroups
    List.nodup_nil).mp hfresh
  exact ⟨groups, ⟨hgroups, hnodup⟩, hargs, (OptionsValues.gives_empty.foldl_give hnodup).means hd⟩

/-- An option with a default value for each argument has as many values as it is declared with. -/
theorem exists_values_of_parse (hd : o.Distinct) {opt : OptionDecl} (hopt : opt ∈ o.options)
    (hne : opt.defaultValues ≠ []) (hnargs : opt.defaultValues.length = opt.nargs) {command : Str}
    {args : List Str} {values : OptionsValues} (h : o.parse (command :: args) = .ok values) :
    ∃ l, values.map opt.name = some l ∧ l.length = opt.nargs := by
  obtain ⟨groups, haccepts, -, hmeans⟩ := exists_groups_of_parse hd h
  by_cases hgiven : ∃ l, .option opt.name l ∈ groups
  · obtain ⟨l, hl⟩ := hgiven
    obtain ⟨opt', hopt', hname, hlength, -⟩ := haccepts.declared _ hl
    have hnodup := (List.nodup_append.mp hd.nodup).2.1
    obtain rfl := List.inj_on_of_nodup_map hnodup hopt' hopt hname
    exact ⟨l, (hmeans.map_iff _ _).mpr (Or.inl hl), hlength⟩
  · have hdefault := (hmeans.map_iff opt.name opt.defaultValues).mpr
      (Or.inr ⟨not_exists.mp hgiven, opt, hopt, rfl, hne, rfl⟩)
    exact ⟨opt.defaultValues, hdefault, hnargs⟩

end Meaning

/-- The parser accepts exactly the arguments that are groups of a declared flag, or of a declared option
with its values, in which no name is repeated, and returns what they mean. The order of the groups does not
matter. -/
theorem parse_exact (o : Options) (hd : o.Distinct) (command : Str) :
    (∀ args values, o.parse (command :: args) = .ok values ↔
      ∃ groups, o.Accepts groups ∧ args = render groups ∧ o.Means groups values) ∧
    ∀ groups, o.Accepts groups → ∃ values, o.Means groups values ∧
      ∀ groups' : List Group, groups'.Perm groups → o.parse (command :: render groups') = .ok values := by
  constructor
  · intro args values
    constructor
    · exact exists_groups_of_parse hd
    · rintro ⟨groups, haccepts, rfl, hmeans⟩
      obtain ⟨values', hparse, hmeans'⟩ := parse_render hd command haccepts
      rw [hparse, hmeans'.unique hmeans]
  · intro groups haccepts
    obtain ⟨values, -, hmeans⟩ := parse_render hd command haccepts
    refine ⟨values, hmeans, fun groups' hperm => ?_⟩
    obtain ⟨values', hparse, hmeans'⟩ := parse_render hd command (haccepts.perm hperm)
    rw [hparse, hmeans'.unique (hmeans.perm hperm)]

/-- A flag, an option with a default value and one with three values. -/
def sampleOptions : Options where
  options := [⟨str "halo", str "halo size", str "H", [str "1"], 1⟩,
    ⟨str "domain", str "local domain size", str "X Y Z", [], 3⟩]
  flags := [⟨str "check", str "check results"⟩]

/-- The option without default value and the flag are given. -/
theorem parse_exact_sample : ∃ values, sampleOptions.parse (str "bench" :: [str "--domain", str "4",
      str "-5", str "6", str "--check"]) = .ok values ∧
    values.map (str "halo") = some [str "1"] ∧ values.set (str "check") = true := by
  have hd : sampleOptions.Distinct := ⟨by decide, by decide⟩
  obtain ⟨values, hmeans, hparse⟩ := (parse_exact sampleOptions hd (str "bench")).2
    [.option (str "domain") [str "4", str "-5", str "6"], .flag (str "check")]
    ⟨by simp [Options.Declared, sampleOptions]; decide, by decide⟩
  refine ⟨values, hparse _ (List.Perm.refl _), ?_, ?_⟩
  · rw [hmeans.map_iff]
    right
    exact ⟨by simp; decide, _, List.mem_cons_self, rfl, List.cons_ne_nil _ _, rfl⟩
  · rw [hmeans.set_iff]
    simp

end Ghexbench.Cli
