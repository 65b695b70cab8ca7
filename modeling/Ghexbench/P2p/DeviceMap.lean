import Ghexbench.Cli.OptionsCorrect
import Ghexbench.Cli.Values

/-!
# The device map

`device_map` reads integers between colons from a string, in the way in which the values of options are
read. Neither tests whether a text is a number: exactly those that denote a value of type `int` as a
whole are converted to what they denote.
-/

namespace Ghexbench.P2p

open Ghexbench.Common Ghexbench.Cli

/-- `std::getline`: the text up to the delimiter, and what follows it. It fails at the end of the stream. -/
def getline (delim : Char) (s : Str) : Option (Str × Str) :=
  if s.isEmpty then none else some (s.takeWhile (· != delim), (s.dropWhile (· != delim)).tail)

/-- Reading a text advances the stream. -/
theorem length_lt_of_getline {delim : Char} {s id rest : Str} (h : getline delim s = some (id, rest)) :
    rest.length < s.length := by
  rw [getline] at h
  split at h
  · cases h
  · next hne =>
    cases h
    have hpos : 0 < s.length := List.length_pos_iff.mpr fun hs => hne (List.isEmpty_iff.mpr hs)
    have hle := (List.dropWhile_suffix (l := s) (· != delim)).length_le
    rw [List.length_tail]
    omega

/-- The loop of the constructor. -/
def readDevices (s : Str) (devices : List (Option ℤ)) : List (Option ℤ) :=
  match _ : getline ':' s with
  | none => devices
  | some (id, rest) => readDevices rest (devices ++ [extract id])
termination_by s.length
decreasing_by exact length_lt_of_getline (by assumption)

/-- `device_map`. -/
def deviceMap (s : Str) : List (Option ℤ) := readDevices s []

/-- The texts between the colons of a string. Behind a colon at the end there is none. -/
def tokens (s : Str) : List Str :=
  let l := s.splitOn ':'
  if l.getLast? = some [] then l.dropLast else l

section Tokens

variable {s t : Str}

/-- What comes before a colon is read. -/
theorem getline_append_cons (h : ':' ∉ t) : getline ':' (t ++ ':' :: s) = some (t, s) := by
  have ht : ∀ c ∈ t, (c != ':') = true := fun c hc => bne_iff_ne.mpr fun heq => h (heq ▸ hc)
  rw [getline, List.takeWhile_append_of_pos ht, List.dropWhile_append_of_pos ht, if_neg (by simp)]
  simp

/-- Without a colon everything is read. -/
theorem getline_of_not_mem (h : ':' ∉ t) (hne : t ≠ []) : getline ':' t = some (t, []) := by
  have ht : ∀ c ∈ t, (c != ':') = true := fun c hc => bne_iff_ne.mpr fun heq => h (heq ▸ hc)
  rw [getline, List.takeWhile_eq_self_iff.mpr ht, List.dropWhile_eq_nil_iff.mpr ht,
    if_neg (by simpa using hne)]
  rfl

/-- The first of several texts. -/
theorem tokens_append_cons (h : ':' ∉ t) : tokens (t ++ ':' :: s) = t :: tokens s := by
  have hne : s.splitOn ':' ≠ [] := List.splitOn_ne_nil _ _
  rw [tokens, List.splitOn_append_cons_self_of_not_mem h, List.getLast?_cons_of_ne_nil hne,
    List.dropLast_cons_of_ne_nil hne]
  exact (apply_ite (List.cons t) ..).symm

/-- A single text. -/
theorem tokens_of_not_mem (h : ':' ∉ t) (hne : t ≠ []) : tokens t = [t] := by
  rw [tokens, List.splitOn_eq_singleton h, if_neg]
  exact fun hlast => hne (Option.some.inj hlast)

/-- Texts without colons that are not empty are found between colons. -/
theorem tokens_intercalate {l : List Str} (hl : ∀ t ∈ l, ':' ∉ t ∧ t ≠ []) :
    tokens ([':'].intercalate l) = l := by
  induction l with
  | nil => rfl
  | cons t l ih =>
    have ht := hl t List.mem_cons_self
    cases l with
    | nil =>
      rw [List.intercalate_singleton]
      exact tokens_of_not_mem ht.1 ht.2
    | cons t' l =>
      rw [List.intercalate_cons_cons, List.append_assoc, List.singleton_append, tokens_append_cons ht.1,
        ih fun u hu => hl u (List.mem_cons_of_mem t hu)]

/-- The text that is read first is the first one. -/
theorem tokens_eq_cons {id rest : Str} (h : getline ':' s = some (id, rest)) :
    tokens s = id :: tokens rest := by
  by_cases hmem : ':' ∈ s
  · obtain ⟨t, u, rfl, ht⟩ := List.eq_append_cons_of_mem hmem
    rw [getline_append_cons ht] at h
    cases h
    exact tokens_append_cons ht
  · have hne : s ≠ [] := by
      rintro rfl
      cases h
    rw [getline_of_not_mem hmem hne] at h
    cases h
    exact tokens_of_not_mem hmem hne

/-- The loop converts the texts of the string one after another. -/
theorem readDevices_eq (s : Str) (devices : List (Option ℤ)) :
    readDevices s devices = devices ++ (tokens s).map extract := by
  induction s, devices using readDevices.induct with
  | case1 s devices h =>
    have hs : s = [] := by
      rw [getline] at h
      split at h
      · next hempty => exact List.isEmpty_iff.mp hempty
      · cases h
    rw [readDevices, hs]
    exact (List.append_nil devices).symm
  | case2 s devices id rest h ih =>
    rw [readDevices]
    split
    · next hnone => cases h.symm.trans hnone
    · next hsome =>
      cases h.symm.trans hsome
      rw [ih, tokens_eq_cons h, List.map_cons, List.append_assoc, List.singleton_append]

/-- The entries of a device map. -/
theorem deviceMap_eq (s : Str) : deviceMap s = (tokens s).map parseValue :=
  readDevices_eq s []

end Tokens

/-- A value of an option and a device map hold the integers that the complete texts denote if and only if
every text denotes a value of type `int`. All lists of integers are read from their decimal forms. -/
theorem values_exact_iff (values : OptionsValues) (name : Str) (n : ℕ) (s : Str) :
    ((∀ value, values.get parseInt name = .ok value →
        ∃ t, values.map name = some [t] ∧ Converts t value) ↔
      ∀ t, values.map name = some [t] → DenotesInt t) ∧
    ((∀ l, values.get (parseArray n) name = .ok l →
        ∃ args, values.map name = some args ∧ args.length = n ∧ List.Forall₂ Converts args l) ↔
      ∀ args, values.map name = some args → args.length = n → ∀ t ∈ args, DenotesInt t) ∧
    (List.Forall₂ Converts (tokens s) (deviceMap s) ↔ ∀ t ∈ tokens s, DenotesInt t) ∧
    ∀ devices : List ℤ, (∀ v ∈ devices, IsInt v) →
      deviceMap ([':'].intercalate (devices.map decimal)) = devices.map some := by
  refine ⟨get_int_iff, get_array_iff, ?_, ?_⟩
  · rw [deviceMap_eq]
    exact forall₂_converts_iff
  · intro devices hdevices
    have htokens : tokens ([':'].intercalate (devices.map decimal)) = devices.map decimal := by
      apply tokens_intercalate
      intro t ht
      obtain ⟨v, -, rfl⟩ := List.mem_map.mp ht
      refine ⟨fun hcolon => ?_, decimal_ne_nil⟩
      exact absurd (mem_decimal hcolon) (by decide)
    rw [deviceMap_eq, htokens, List.map_map]
    refine List.map_congr_left fun v hv => ?_
    rw [Function.comp_apply, parseValue, extract_of_numeral numeral_decimal,
      clamp_eq_iff.mpr (hdevices v hv)]

/-- The map for three processes. -/
theorem values_exact_iff_sample : deviceMap (str "0:12:-3") = [some 0, some 12, some (-3)] := by
  have htext : str "0:12:-3" = [':'].intercalate ([0, 12, -3].map decimal) := by decide
  rw [htext]
  exact (values_exact_iff .empty [] 0 []).2.2.2 [0, 12, -3] (by decide)

/-- Part of an argument is read as a number, and a device is not set. -/
theorem values_not_exact :
    (∃ values, sampleOptions.parse [str "bench", str "--halo", str "1x"] = .ok values ∧
      ¬ ∀ value, values.get parseInt (str "halo") = .ok value →
        ∃ s, values.map (str "halo") = some [s] ∧ Converts s value) ∧
    ¬ List.Forall₂ Converts (tokens (str "0::2")) (deviceMap (str "0::2")) := by
  have hd : sampleOptions.Distinct := ⟨by decide, by decide⟩
  have hnot (s : Str) (hs : numeral s = none) : ¬ DenotesInt s := by
    rintro ⟨v, hv, -⟩
    cases hs.symm.trans hv
  constructor
  · have haccepts : sampleOptions.Accepts [.option (str "halo") [str "1x"]] :=
      ⟨by simp [Options.Declared, sampleOptions]; decide, by decide⟩
    obtain ⟨values, hparse, hmeans⟩ := parse_render hd (str "bench") haccepts
    refine ⟨values, hparse, fun h => ?_⟩
    exact hnot _ rfl (get_int_iff.mp h _ ((hmeans.map_iff _ _).mpr (Or.inl List.mem_cons_self)))
  · rw [deviceMap_eq, forall₂_converts_iff]
    intro h
    exact hnot [] rfl (h [] (by decide))

end Ghexbench.P2p
