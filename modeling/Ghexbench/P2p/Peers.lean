import Ghexbench.Cli.OptionsCorrect
import Ghexbench.Cli.Values
import Ghexbench.P2p.ChainsOrder

/-!
# The pairs of peers

Every process computes its peer and the memory locations of both from its own rank, the number of ranks and
the locations in its arguments. The peers are in pairs. The test that should exchange the locations in one
half of the ranks compares with the number of ranks instead of its half, so that all processes use the first
location and take the second one for that of their peer.
-/

namespace Ghexbench.P2p

open Ghexbench.Cli

/-- The options of the benchmark, with or without `P2P_ENABLE_DEVICE`. -/
def benchOptions (device : Bool) : Options where
  options := [⟨str "size", str "buffer size", str "s", [str "1024"], 1⟩,
      ⟨str "inflights", str "number of simultaneous inflights per thread", str "i", [str "1"], 1⟩,
      ⟨str "nrep", str "number of messages per thread", str "n", [str "100"], 1⟩] ++
    (if device then
      [⟨str "devicemap",
        str "rank to device map (per node) in the form i1:i2:...:iN (N=number of ranks per node)",
        str "d", [], 1⟩]
      else []) ++
    [⟨str "memory", str "specify the memory location (host: H or device: D) for a pair of processes",
      str "M0 M1", [str "H", str "H"], 2⟩]
  flags := [⟨str "mt", str "enable multithreading"⟩,
    ⟨str "smt", str "enable symmetric multithreading (hyper-threading), requires mt"⟩]

/-- A process ends: in the options, or in `abort`, which prints on one rank only. -/
inductive Stop
  | exit (e : Exit)
  | terminate (printed : Str)

/-- `abort`. -/
def abort (msg : Str) (print : Bool) : Stop :=
  .terminate (if print then str "aborting: " ++ msg ++ str "\n" else [])

/-- The members that the body of the constructor sets, and what it prints. -/
structure Members where
  peerRank : ℕ
  onDevice : Bool
  peerOnDevice : Bool
  printed : Str

/-- The body of the constructor, for the values of the options and the size and the rank of the context. -/
def construct (device : Bool) (values : OptionsValues) (size rank : ℕ) : Except Stop Members :=
  if size % 2 ≠ 0 then .error (abort (str "number of ranks not divisible by 2") (rank == 0))
  else
    match values.get (parseWords 2) (str "memory") with
    | .error e => .error (.exit e)
    | .ok memory =>
      let m0 := memory.getD 0 []
      let m1 := memory.getD 1 []
      if (m0 ≠ str "H" ∧ m0 ≠ str "D") ∨ (m1 ≠ str "H" ∧ m1 ≠ str "D") then
        .error (abort (str "invalid memory locations") (rank == 0))
      else if device then
        let pair := if rank < size then (m0, m1) else (m1, m0)
        .ok ⟨peerRank size rank, pair.1 == str "D", pair.2 == str "D", []⟩
      else
        .ok ⟨peerRank size rank, false, false, if (m0 = str "D" ∨ m1 = str "D") ∧ rank = 0 then
          str "warning: device memory is not suppored - using host memory instead\n" else []⟩

/-- A memory location. -/
def IsLocation (m : Str) : Prop := m = str "H" ∨ m = str "D"

/-- The processes are in pairs of peers. -/
structure PeersPaired (size : ℕ) (ranks : ℕ → Members) : Prop where
  peer_lt : ∀ r < size, (ranks r).peerRank < size
  peer_ne : ∀ r < size, (ranks r).peerRank ≠ r
  peer_peer : ∀ r < size, (ranks (ranks r).peerRank).peerRank = r

/-- The pairs are consistent: each process knows the location that its peer uses, and one of them uses the
first location and the other the second. -/
structure PairsConsistent (size : ℕ) (m0 m1 : Str) (ranks : ℕ → Members) : Prop
    extends PeersPaired size ranks where
  peerOnDevice : ∀ r < size, (ranks r).peerOnDevice = (ranks (ranks r).peerRank).onDevice
  locations : ∀ r < size,
    (ranks r).onDevice = (m0 == str "D") ∧ (ranks (ranks r).peerRank).onDevice = (m1 == str "D") ∨
    (ranks r).onDevice = (m1 == str "D") ∧ (ranks (ranks r).peerRank).onDevice = (m0 == str "D")

section Options

variable {device : Bool}

/-- The declared names are distinct. -/
theorem benchOptions_distinct (device : Bool) : (benchOptions device).Distinct := by
  cases device
  · exact ⟨by decide, by decide⟩
  · exact ⟨by decide, by decide⟩

/-- All command lines that are accepted specify two memory locations. -/
theorem exists_memory {command : Str} {args : List Str} {values : OptionsValues}
    (h : (benchOptions device).parse (command :: args) = .ok values) :
    ∃ m0 m1, values.get (parseWords 2) (str "memory") = .ok [m0, m1] := by
  have hmem : (⟨str "memory", str "specify the memory location (host: H or device: D) for a pair of processes",
      str "M0 M1", [str "H", str "H"], 2⟩ : OptionDecl) ∈ (benchOptions device).options :=
    List.mem_append_right _ List.mem_cons_self
  obtain ⟨l, hl, hlength⟩ := exists_values_of_parse (benchOptions_distinct device) hmem
    (List.cons_ne_nil _ _) rfl h
  obtain ⟨a0, a1, rfl⟩ := List.length_eq_two.mp hlength
  exact ⟨parseWord a0, parseWord a1, get_eq_ok_iff.mpr ⟨_, hl, rfl⟩⟩

/-- The locations on a command line. -/
theorem parse_memory (device : Bool) (command m0 m1 : Str) (hm0 : isDashed m0 = false)
    (hm1 : isDashed m1 = false) :
    ∃ values, (benchOptions device).parse (command :: [str "--memory", m0, m1]) = .ok values ∧
      values.get (parseWords 2) (str "memory") = .ok [parseWord m0, parseWord m1] := by
  have haccepts : (benchOptions device).Accepts [.option (str "memory") [m0, m1]] := by
    constructor
    · intro g hg
      obtain rfl := List.mem_singleton.mp hg
      refine ⟨_, List.mem_append_right _ List.mem_cons_self, rfl, rfl, ?_⟩
      simp [hm0, hm1]
    · simp
  obtain ⟨values, hparse, hmeans⟩ := parse_render (benchOptions_distinct device) command haccepts
  have hmap := (hmeans.map_iff (str "memory") [m0, m1]).mpr (Or.inl List.mem_cons_self)
  exact ⟨values, hparse, get_eq_ok_iff.mpr ⟨_, hmap, rfl⟩⟩

end Options

section Construct

variable {values : OptionsValues} {size rank : ℕ} {m0 m1 : Str} {m : Members}

/-- Both locations are valid unless the constructor aborts. -/
theorem not_invalid_iff : ¬ ((m0 ≠ str "H" ∧ m0 ≠ str "D") ∨ (m1 ≠ str "H" ∧ m1 ≠ str "D")) ↔
    IsLocation m0 ∧ IsLocation m1 := by
  rw [not_or, not_and_or, not_and_or, not_not, not_not, not_not, not_not]
  rfl

/-- What the constructor computes in a device build: the locations of the pair are never exchanged. -/
theorem construct_eq_ok_iff (hrank : rank < size)
    (hmemory : values.get (parseWords 2) (str "memory") = .ok [m0, m1]) :
    construct true values size rank = .ok m ↔ size % 2 = 0 ∧ IsLocation m0 ∧ IsLocation m1 ∧
      m = ⟨peerRank size rank, m0 == str "D", m1 == str "D", []⟩ := by
  rw [construct, hmemory, ← and_assoc (a := IsLocation m0), ← not_invalid_iff]
  dsimp only [List.getD_cons_zero, List.getD_cons_succ]
  rw [if_pos hrank, if_pos rfl]
  by_cases heven : size % 2 = 0
  · rw [if_neg (not_not.mpr heven)]
    split
    · next hinvalid => exact iff_of_false nofun fun h => h.2.1 hinvalid
    · next hvalid =>
      rw [Except.ok.injEq, eq_comm]
      exact ⟨fun h => ⟨heven, hvalid, h⟩, fun h => h.2.2⟩
  · rw [if_pos heven]
    exact iff_of_false nofun fun h => heven h.1

variable {ranks : ℕ → Members}

/-- The processes are in pairs, whatever the locations are. -/
theorem peersPaired_of_construct (hpos : 0 < size)
    (hmemory : values.get (parseWords 2) (str "memory") = .ok [m0, m1])
    (hranks : ∀ r < size, construct true values size r = .ok (ranks r)) : PeersPaired size ranks := by
  have heven := ((construct_eq_ok_iff hpos hmemory).mp (hranks 0 hpos)).1
  obtain ⟨pairs, rfl⟩ : ∃ pairs, size = 2 * pairs := ⟨size / 2, by omega⟩
  have hpeer (r : ℕ) (hr : r < 2 * pairs) : (ranks r).peerRank = peerRank (2 * pairs) r := by
    rw [((construct_eq_ok_iff hr hmemory).mp (hranks r hr)).2.2.2]
  have hlt (r : ℕ) (hr : r < 2 * pairs) : (ranks r).peerRank < 2 * pairs := hpeer r hr ▸ peerRank_lt hr
  refine ⟨hlt, ?_, ?_⟩
  · intro r hr
    rw [hpeer r hr]
    exact peerRank_ne hr
  · intro r hr
    rw [hpeer _ (hlt r hr), hpeer r hr]
    exact peerRank_peerRank hr

/-- The pairs are consistent if and only if both locations are the same. -/
theorem consistent_iff (hpos : 0 < size)
    (hmemory : values.get (parseWords 2) (str "memory") = .ok [m0, m1])
    (hranks : ∀ r < size, construct true values size r = .ok (ranks r)) :
    PairsConsistent size m0 m1 ranks ↔ m0 = m1 := by
  have hpaired := peersPaired_of_construct hpos hmemory hranks
  have hmembers (r : ℕ) (hr : r < size) : IsLocation m0 ∧ IsLocation m1 ∧
      (ranks r).onDevice = (m0 == str "D") ∧ (ranks r).peerOnDevice = (m1 == str "D") := by
    obtain ⟨-, hm0, hm1, hmembers⟩ := (construct_eq_ok_iff hr hmemory).mp (hranks r hr)
    rw [hmembers]
    exact ⟨hm0, hm1, rfl, rfl⟩
  constructor
  · intro h
    obtain ⟨hm0, hm1, -, hother⟩ := hmembers 0 hpos
    obtain ⟨-, -, hpeer, -⟩ := hmembers _ (h.peer_lt 0 hpos)
    have hsame := h.peerOnDevice 0 hpos
    rw [hother, hpeer] at hsame
    -- a location is determined by whether it is the device
    obtain rfl | rfl := hm0 <;> obtain rfl | rfl := hm1
    · rfl
    · cases hsame
    · cases hsame
    · rfl
  · rintro rfl
    refine ⟨hpaired, ?_, ?_⟩
    · intro r hr
      rw [(hmembers r hr).2.2.2, (hmembers _ (hpaired.peer_lt r hr)).2.2.1]
    · intro r hr
      exact Or.inl ⟨(hmembers r hr).2.2.1, (hmembers _ (hpaired.peer_lt r hr)).2.2.1⟩

end Construct

/-- Every accepted command line specifies two memory locations. In a device build, on an even number of ranks
and with valid locations, the processes are started and are peers in pairs, and these are consistent if and
only if the locations are the same. -/
theorem pairs_consistent_iff (command : Str) (args : List Str) (values : OptionsValues)
    (hparse : (benchOptions true).parse (command :: args) = .ok values) (size : ℕ) (hpos : 0 < size)
    (heven : size % 2 = 0) :
    ∃ m0 m1, values.get (parseWords 2) (str "memory") = .ok [m0, m1] ∧
      (IsLocation m0 → IsLocation m1 →
        (∀ r < size, ∃ m, construct true values size r = .ok m) ∧
        ∀ ranks : ℕ → Members, (∀ r < size, construct true values size r = .ok (ranks r)) →
          PeersPaired size ranks ∧ (PairsConsistent size m0 m1 ranks ↔ m0 = m1)) := by
  obtain ⟨m0, m1, hmemory⟩ := exists_memory hparse
  refine ⟨m0, m1, hmemory, fun hm0 hm1 => ⟨?_, ?_⟩⟩
  · intro r hr
    exact ⟨_, (construct_eq_ok_iff hr hmemory).mpr ⟨heven, hm0, hm1, rfl⟩⟩
  · intro ranks hranks
    exact ⟨peersPaired_of_construct hpos hmemory hranks, consistent_iff hpos hmemory hranks⟩

/-- Two processes that use the device. -/
theorem pairs_consistent_device : ∃ values,
    (benchOptions true).parse (str "p2p" :: [str "--memory", str "D", str "D"]) = .ok values ∧
    (∀ r < 2, construct true values 2 r = .ok ⟨peerRank 2 r, true, true, []⟩) ∧
    PairsConsistent 2 (str "D") (str "D") fun r => ⟨peerRank 2 r, true, true, []⟩ := by
  obtain ⟨values, hparse, hget⟩ := parse_memory true (str "p2p") (str "D") (str "D") rfl rfl
  obtain ⟨m0, m1, hmemory, h⟩ := pairs_consistent_iff _ _ values hparse 2 two_pos rfl
  cases hget.symm.trans hmemory
  have hconstruct (r : ℕ) (hr : r < 2) : construct true values 2 r = .ok ⟨peerRank 2 r, true, true, []⟩ :=
    (construct_eq_ok_iff hr hget).mpr ⟨rfl, Or.inr rfl, Or.inr rfl, rfl⟩
  exact ⟨values, hparse, hconstruct, ((h (Or.inr rfl) (Or.inr rfl)).2 _ hconstruct).2.mpr rfl⟩

/-- Two processes that should use different locations both use the first one. -/
theorem pairs_not_consistent : ∃ values,
    (benchOptions true).parse (str "p2p" :: [str "--memory", str "H", str "D"]) = .ok values ∧
    values.get (parseWords 2) (str "memory") = .ok [str "H", str "D"] ∧
    (∀ r < 2, construct true values 2 r = .ok ⟨peerRank 2 r, false, true, []⟩) ∧
    ¬ PairsConsistent 2 (str "H") (str "D") fun r => ⟨peerRank 2 r, false, true, []⟩ := by
  obtain ⟨values, hparse, hget⟩ := parse_memory true (str "p2p") (str "H") (str "D") rfl rfl
  have hconstruct (r : ℕ) (hr : r < 2) : construct true values 2 r = .ok ⟨peerRank 2 r, false, true, []⟩ :=
    (construct_eq_ok_iff hr hget).mpr ⟨rfl, Or.inl rfl, Or.inr rfl, rfl⟩
  refine ⟨values, hparse, hget, hconstruct, fun h => ?_⟩
  have hsame : str "H" = str "D" := (consistent_iff two_pos hget hconstruct).mp h
  exact absurd hsame (by decide)

end Ghexbench.P2p
