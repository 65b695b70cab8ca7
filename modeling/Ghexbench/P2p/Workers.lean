import Ghexbench.Cli.Options
import Ghexbench.Common.Numerals
import Ghexbench.P2p.Chains
import Ghexbench.Sync.TeamProgress
import Ghexbench.Sync.TeamScripts

/-!
# The workers of the benchmark

The jobs that `benchmark::run` schedules on every thread of every rank: `print_locality`, `check`,
`warm_up` and `main_loop`. The last three begin with a barrier of all threads. `print_locality` lets the
ranks print one after the other, and the threads of a rank one after the other.

The calls of `sync` of the pool between the jobs are left out.
-/

namespace Ghexbench.P2p.Workers

open Ghexbench.Cli Ghexbench.Common Ghexbench.Team

/-- A job that exchanges messages. -/
inductive Phase
  | check
  | warmUp
  | mainLoop
  deriving DecidableEq, Repr

/-- What a worker does apart from waiting in barriers. -/
inductive Action
  | print (line : Str)
  | start (phase : Phase)
  | finish (phase : Phase)
  deriving DecidableEq

/-- The line that an action prints. -/
def Action.line : Action → Option Str
  | print line => some line
  | _ => none

/-- The machine: the processors on which the threads run, and the devices that the ranks use. `device` says
whether the benchmark is built with `P2P_ENABLE_DEVICE`. -/
structure Machine where
  device : Bool
  cpu : ℕ × ℕ → ℤ
  onDevice : ℕ → Bool
  deviceId : ℕ → ℤ

/-- `print_cell`: the item with the width 7. -/
def printCell (item : Str) : Str := List.replicate (7 - item.length) ' ' ++ item

/-- `print_row`. -/
def printRow (items : List Str) : Str := items.flatMap printCell ++ str "\n"

/-- The first line. -/
def Machine.header (m : Machine) : Str :=
  printRow ([str "rank", str "peer", str "thread", str "cpu"] ++ if m.device then [str "device"] else [])

/-- The line of a thread. -/
def Machine.row (m : Machine) (size : ℕ) (q : ℕ × ℕ) : Str :=
  printRow ([decimal q.1, decimal (peerRank size q.1), decimal q.2, decimal (m.cpu q)] ++
    if m.device then [if m.onDevice q.1 then decimal (m.deviceId q.1) else str "-"] else [])

section Programs

variable (layout : Layout) (m : Machine)

/-- `if (thread_id == 0) MPI_Barrier(comm.mpi_comm()); m_thread_barrier();`. -/
def worldTeam (q : ℕ × ℕ) : List (Instr Gate Action) :=
  (if q.2 = 0 then [.sync .world] else []) ++ [.sync (.team q.1)]

/-- The turn of a rank in `print_locality`. -/
def printTurn (q : ℕ × ℕ) (r : ℕ) : List (Instr Gate Action) :=
  worldTeam q ++
    (if r = q.1 then
      (List.range (layout.threads r)).flatMap fun tid =>
        (if tid = q.2 then [.act (.print (m.row layout.numRanks q))] else []) ++ [.sync (.team q.1)]
    else []) ++
    worldTeam q

/-- `print_locality`. -/
def printLocality (q : ℕ × ℕ) : List (Instr Gate Action) :=
  (if q.1 = 0 ∧ q.2 = 0 then [.act (.print m.header)] else []) ++
    (List.range layout.numRanks).flatMap (printTurn layout m q)

/-- `check`, `warm_up` and `main_loop`. -/
def Phase.job (q : ℕ × ℕ) (phase : Phase) : List (Instr Gate Action) :=
  rendezvous q ++ [.act (.start phase), .act (.finish phase)]

/-- The jobs of a worker. -/
def worker (q : ℕ × ℕ) : List (Instr Gate Action) :=
  printLocality layout m q ++ [Phase.check, .warmUp, .mainLoop].flatMap (Phase.job q)

/-- What is printed. -/
def table : List Str := m.header :: layout.threadList.map (m.row layout.numRanks)

/-- What has been printed. -/
def printed (s : Team.State layout Action) : List Str := s.log.filterMap fun x => x.2.line

end Programs

/-- The jobs before a job. -/
def Phase.earlier : Phase → List Phase
  | check => []
  | warmUp => [check]
  | mainLoop => [check, warmUp]

section Scripts

variable (layout : Layout) (m : Machine)

/-- The lines of the threads of a rank. -/
def rows (r : ℕ) : List (Entry (ℕ × ℕ) Gate Action) :=
  (List.range (layout.threads r)).flatMap fun tid =>
    [.act (r, tid) (.print (m.row layout.numRanks (r, tid))), .sync (.team r)]

/-- The turn of a rank. -/
def turn (r : ℕ) : List (Entry (ℕ × ℕ) Gate Action) :=
  layout.worldTeams ++ rows layout m r ++ layout.worldTeams

/-- `print_locality` of all threads. -/
def localityScript : List (Entry (ℕ × ℕ) Gate Action) :=
  .act (0, 0) (.print m.header) :: (List.range layout.numRanks).flatMap (turn layout m)

/-- A job of all threads. -/
def Phase.script (phase : Phase) : List (Entry (ℕ × ℕ) Gate Action) :=
  layout.meeting ++ layout.each fun _ => [.start phase, .finish phase]

/-- What all threads do before a job. -/
def before (phase : Phase) : List (Entry (ℕ × ℕ) Gate Action) :=
  localityScript layout m ++ phase.earlier.flatMap (Phase.script layout)

/-- The jobs of all threads. -/
def script : List (Entry (ℕ × ℕ) Gate Action) :=
  localityScript layout m ++ [Phase.check, .warmUp, .mainLoop].flatMap (Phase.script layout)

variable {layout m} {q : ℕ × ℕ} {prog : ℕ × ℕ → List (Instr Gate Action)}

/-- What a thread sees of the turn of a rank. -/
theorem project_turn (hq : q ∈ layout.members) (r : ℕ) :
    (layout.ensemble prog).project (turn layout m r) q = printTurn layout m q r := by
  have hworld : (layout.ensemble prog).project layout.worldTeams q = worldTeam q :=
    Layout.project_worldTeams hq
  have hrow (tid : ℕ) : (layout.ensemble prog).project
      [.act (r, tid) (.print (m.row layout.numRanks (r, tid))), .sync (.team r)] q =
      if r = q.1 then
        (if tid = q.2 then [.act (.print (m.row layout.numRanks q))] else []) ++ [.sync (.team q.1)]
      else [] := by
    have hteam : (layout.ensemble prog).project [.sync (.team r)] q =
        if r = q.1 then [.sync (.team r)] else [] := Layout.project_team hq r
    rw [← List.singleton_append, Ensemble.project_append, hteam]
    obtain ⟨r', t'⟩ := q
    by_cases hr : r = r'
    · subst hr
      by_cases ht : tid = t'
      · subst ht
        simp [Ensemble.project, Ensemble.view]
      · simp [Ensemble.project, Ensemble.view, ht, Ne.symm ht]
    · simp [Ensemble.project, Ensemble.view, hr, Ne.symm hr]
  rw [turn, Ensemble.project_append, Ensemble.project_append, hworld, rows, Layout.project_flatMap]
  simp only [hrow, printTurn]
  by_cases hr : r = q.1
  · simp only [if_pos hr]
  · simp only [if_neg hr, List.flatMap_eq_nil_iff.mpr fun _ _ => rfl]

/-- What a thread sees of `print_locality`. -/
theorem project_localityScript (hq : q ∈ layout.members) :
    (layout.ensemble prog).project (localityScript layout m) q = printLocality layout m q := by
  rw [localityScript, ← List.singleton_append, Ensemble.project_append, Layout.project_flatMap]
  simp only [project_turn hq, printLocality]
  congr 1
  obtain ⟨r, t⟩ := q
  by_cases hfirst : r = 0 ∧ t = 0 <;> simp [Ensemble.project, Ensemble.view, hfirst]

/-- Every action of the script is one of a thread. -/
theorem mem_members_of_script (hranks : 0 < layout.numRanks) {p : ℕ × ℕ} {a : Action}
    (h : .act p a ∈ script layout m) : p ∈ layout.members := by
  simp only [script, localityScript, turn, rows, Phase.script, List.mem_append, List.mem_cons,
    List.mem_flatMap, Layout.worldTeams, Layout.teams, List.mem_map, List.mem_range, Layout.mem_each,
    Layout.act_not_mem_meeting, Entry.act.injEq, reduceCtorEq, List.not_mem_nil, or_false, false_or,
    and_false, exists_false] at h
  rcases h with (⟨rfl, -⟩ | ⟨r, hr, tid, htid, rfl, -⟩) | ⟨-, -, hp, -⟩
  · exact layout.mem_members.mpr ⟨hranks, layout.threads_pos 0⟩
  · exact layout.mem_members.mpr ⟨hr, htid⟩
  · exact hp

/-- The workers follow the script. -/
theorem follows_script (hranks : 0 < layout.numRanks) :
    (layout.ensemble (worker layout m)).Follows (script layout m) := by
  refine follows (fun q hq => ?_) fun p a => mem_members_of_script hranks
  have hjob (phase : Phase) : (layout.ensemble (worker layout m)).project
      (Phase.script layout phase) q = Phase.job q phase := by
    rw [Phase.script, Ensemble.project_append, Layout.project_meeting hq, Layout.project_each hq]
    rfl
  rw [script, Ensemble.project_append, project_localityScript hq, Layout.project_flatMap]
  simp only [hjob, worker]

variable (layout m) in
/-- A job begins with a barrier of all threads. -/
theorem script_eq (phase : Phase) : ∃ after, script layout m =
    before layout m phase ++ layout.meeting ++ after := by
  cases phase with
  | check =>
    refine ⟨(layout.each fun _ => [.start .check, .finish .check]) ++
      [Phase.warmUp, .mainLoop].flatMap (Phase.script layout), ?_⟩
    simp [script, before, Phase.earlier, Phase.script]
  | warmUp =>
    refine ⟨(layout.each fun _ => [.start .warmUp, .finish .warmUp]) ++
      [Phase.mainLoop].flatMap (Phase.script layout), ?_⟩
    simp [script, before, Phase.earlier, Phase.script]
  | mainLoop =>
    refine ⟨layout.each fun _ => [.start .mainLoop, .finish .mainLoop], ?_⟩
    simp [script, before, Phase.earlier, Phase.script]

end Scripts

end Ghexbench.P2p.Workers
