import Ghexbench.Common.ScriptOrder
import Ghexbench.P2p.Workers

/-!
# The order of the workers

The lines of `print_locality` appear in the order of the ranks and of their threads, however the threads
interleave: whoever prints a line is informed of the line before it. No thread begins one of the jobs that
exchange messages before all threads have completed the jobs before it.
-/

namespace Ghexbench.P2p.Workers

open Ghexbench.Cli Ghexbench.Common Ghexbench.Team

variable {layout : Layout} {m : Machine}

section Chain

variable {prog : ℕ × ℕ → List (Instr Gate Action)} {known : Finset (ℕ × ℕ)}

/-- The threads that print. -/
def prints (x : (ℕ × ℕ) × Action) : Bool := x.2.line.isSome

variable (prog) in
/-- After `MPI_Barrier` and the thread barriers, all threads are informed of what a first thread knows. -/
theorem chained_worldTeams (hknown : ∃ p ∈ layout.members, (p.1, 0) ∈ known) :
    (layout.ensemble prog).Chained prints known layout.worldTeams ∧
      layout.members ⊆ layout.worldTeams.foldl ((layout.ensemble prog).hold prints) known := by
  obtain ⟨p, hp, hleader⟩ := hknown
  have hnot (q : ℕ × ℕ) (b : Action) (hmem : .act q b ∈ layout.worldTeams) : prints (q, b) = false := by
    simp [Layout.worldTeams, Layout.teams] at hmem
  obtain ⟨hchained, heq⟩ := Ensemble.chained_of_not (E := layout.ensemble prog) hnot known
  refine ⟨hchained, fun q hq => ?_⟩
  rw [heq]
  exact Layout.mem_informed_worldTeams hp hleader hq

variable (prog) in
/-- The threads of a rank print one after the other. -/
theorem chained_rows {r : ℕ} (hr : r < layout.numRanks)
    (hknown : ∀ t < layout.threads r, (r, t) ∈ known) :
    (layout.ensemble prog).Chained prints known (rows layout m r) ∧ ∀ t < layout.threads r,
      (r, t) ∈ (rows layout m r).foldl ((layout.ensemble prog).hold prints) known := by
  apply Ensemble.chained_flatMap (fun known => ∀ t < layout.threads r, (r, t) ∈ known) _ hknown
  intro tid htid known hknown
  rw [List.mem_range] at htid
  have hgroup (t : ℕ) (ht : t < layout.threads r) : (r, t) ∈ (layout.ensemble prog).group (.team r) :=
    (Layout.mem_team (layout.mem_members.mpr ⟨hr, ht⟩)).mpr rfl
  have hhold : (layout.ensemble prog).hold prints known
      (.act (r, tid) (.print (m.row layout.numRanks (r, tid)))) = {(r, tid)} := by
    simp [Ensemble.hold, prints, Action.line]
  simp only [Ensemble.Chained, List.foldl_cons, hhold]
  refine ⟨⟨fun _ => hknown tid htid, trivial⟩, fun t ht => ?_⟩
  have hmem : (r, t) ∈ (layout.ensemble prog).informed {(r, tid)} [.sync (.team r)] :=
    Ensemble.mem_informed_of_sync (Finset.mem_singleton_self (r, tid))
      (List.mem_singleton_self _) (hgroup tid htid) (hgroup t ht)
  rwa [Ensemble.informed, List.foldl_cons, List.foldl_nil] at hmem

/-- Every line is printed by a thread that is informed of the line before it. -/
theorem chained_script (layout : Layout) (m : Machine) (prog : ℕ × ℕ → List (Instr Gate Action))
    (hranks : 0 < layout.numRanks) :
    (layout.ensemble prog).Chained prints {(0, 0)} (script layout m) := by
  rw [script, Ensemble.chained_append]
  refine ⟨⟨fun _ => Finset.mem_singleton_self _, ?_⟩, ?_⟩
  · have hfirst : (0, 0) ∈ layout.members := layout.mem_members.mpr ⟨hranks, layout.threads_pos 0⟩
    refine (Ensemble.chained_flatMap (fun known => ∃ p ∈ layout.members, (p.1, 0) ∈ known) ?_
      ⟨(0, 0), hfirst, Finset.mem_singleton_self _⟩).1
    intro r hr known hknown
    rw [List.mem_range] at hr
    have hmember (t : ℕ) (ht : t < layout.threads r) : (r, t) ∈ layout.members :=
      layout.mem_members.mpr ⟨hr, ht⟩
    obtain ⟨hbefore, hall⟩ := chained_worldTeams prog hknown
    obtain ⟨hrows, hrank⟩ := chained_rows (m := m) prog hr fun t ht => hall (hmember t ht)
    have hleader := hmember 0 (layout.threads_pos r)
    obtain ⟨hafter, hend⟩ := chained_worldTeams prog
      ⟨(r, 0), hleader, hrank 0 (layout.threads_pos r)⟩
    simp only [turn, Ensemble.chained_append, List.foldl_append]
    exact ⟨⟨⟨hbefore, hrows⟩, hafter⟩, (r, 0), hleader, hend hleader⟩
  · refine (Ensemble.chained_of_not (fun q b hmem => ?_) _).1
    simp only [List.mem_flatMap, Phase.script, List.mem_append, Layout.act_not_mem_meeting, false_or,
      Layout.mem_each] at hmem
    obtain ⟨phase, -, -, hb⟩ := hmem
    simp only [List.mem_cons, List.not_mem_nil, or_false] at hb
    rcases hb with rfl | rfl <;> rfl

end Chain

section Lines

/-- The lines that the actions of a script print. -/
def lines (l : List (Entry (ℕ × ℕ) Gate Action)) : List Str :=
  (Ensemble.acts l).filterMap fun x => x.2.line

/-- The lines of two parts of a script. -/
theorem lines_append (l l' : List (Entry (ℕ × ℕ) Gate Action)) : lines (l ++ l') = lines l ++ lines l' := by
  simp [lines, Ensemble.acts]

/-- The lines of a script in parts. -/
theorem lines_flatMap {β : Type*} (l : List β) (f : β → List (Entry (ℕ × ℕ) Gate Action)) :
    lines (l.flatMap f) = l.flatMap fun x => lines (f x) := by
  simp [lines, Ensemble.acts, List.filterMap_flatMap]

/-- Nothing is printed in the barriers. -/
theorem lines_worldTeams : lines layout.worldTeams = [] := by
  simp [lines, Ensemble.acts, Layout.worldTeams, Layout.teams]

/-- The jobs that exchange messages print nothing. -/
theorem lines_phase (phase : Phase) : lines (Phase.script layout phase) = [] := by
  simp [lines, Ensemble.acts, Phase.script, Layout.meeting, Layout.worldTeams, Layout.teams, Layout.each,
    List.filterMap_flatMap, Action.line]

/-- `print_locality` prints the table. -/
theorem lines_localityScript : lines (localityScript layout m) = table layout m := by
  have hrow (r tid : ℕ) : lines [.act (r, tid) (.print (m.row layout.numRanks (r, tid))), .sync (.team r)] =
      [m.row layout.numRanks (r, tid)] := rfl
  have hturn (r : ℕ) : lines (turn layout m r) =
      ((List.range (layout.threads r)).map fun t => (r, t)).map (m.row layout.numRanks) := by
    rw [turn, lines_append, lines_append, lines_worldTeams, rows, lines_flatMap]
    simp only [hrow, List.nil_append, List.append_nil, List.map_map, ← List.map_eq_flatMap]
    rfl
  have hhead : lines [.act (0, 0) (.print m.header)] = [m.header] := rfl
  rw [localityScript, ← List.singleton_append, lines_append, hhead, lines_flatMap, table,
    Layout.threadList, List.map_flatMap, List.singleton_append]
  simp only [hturn]

/-- The workers print the table. -/
theorem lines_script : lines (script layout m) = table layout m := by
  rw [script, lines_append, lines_localityScript, lines_flatMap]
  simp [lines_phase]

/-- Only actions that print matter for the lines. -/
theorem filterMap_line (l : List ((ℕ × ℕ) × Action)) :
    (l.filter prints).filterMap (fun x => x.2.line) = l.filterMap fun x => x.2.line := by
  rw [List.filterMap_filter]
  congr 1
  funext x
  cases hx : x.2.line <;> simp [prints, hx]

end Lines

/-- A thread is in a job. -/
def InProgress (s : Team.State layout Action) (q : ℕ × ℕ) (phase : Phase) : Prop :=
  (q, .start phase) ∈ s.log ∧ (q, .finish phase) ∉ s.log

section Runs

variable {s : Team.State layout Action} {p q : ℕ × ℕ}

/-- Only the beginning of the table has been printed. -/
theorem printed_isPrefix (hranks : 0 < layout.numRanks) (h : Reached (worker layout m) s) :
    printed layout s <+: table layout m := by
  have hprefix := h.outline.log_prefix (follows_script hranks)
    (chained_script layout m (worker layout m) hranks).sequential
  have hlines := hprefix.filterMap fun x : (ℕ × ℕ) × Action => x.2.line
  rwa [filterMap_line, filterMap_line, ← lines, lines_script] at hlines

/-- A job is not among those before it. -/
theorem start_not_mem_before (phase : Phase) : Entry.act q (.start phase) ∉ before layout m phase := by
  cases phase <;>
    simp [before, Phase.earlier, Phase.script, localityScript, turn, rows, Layout.worldTeams, Layout.teams,
      Layout.mem_each, Layout.act_not_mem_meeting]

/-- When a thread has begun a job, all threads have passed what comes before. -/
theorem passed_before (hranks : 0 < layout.numRanks) (h : Reached (worker layout m) s)
    (hp : p ∈ layout.members) (hq : q ∈ layout.members) {phase : Phase}
    (hlog : (q, .start phase) ∈ s.log) :
    (layout.ensemble (worker layout m)).Passed s.outline p (before layout m phase) := by
  obtain ⟨after, heq⟩ := script_eq layout m phase
  have hf := follows_script (m := m) hranks
  rw [heq] at hf
  exact h.passed_of_meeting hf hp hq hlog (start_not_mem_before phase)

/-- When a thread has begun a job that exchanges messages, the whole table has been printed. -/
theorem printed_eq (hranks : 0 < layout.numRanks) (h : Reached (worker layout m) s)
    (hq : q ∈ layout.members) {phase : Phase} (hlog : (q, .start phase) ∈ s.log) :
    printed layout s = table layout m := by
  have hpassed (p : ℕ × ℕ) (hp : p ∈ layout.members) :
      (layout.ensemble (worker layout m)).Passed s.outline p (localityScript layout m) :=
    (passed_before hranks h hp hq hlog).of_append
  have hprefix := h.outline.prefix_log (follows_script hranks)
    (chained_script layout m (worker layout m) hranks).sequential hpassed
  have hlines := hprefix.filterMap fun x : (ℕ × ℕ) × Action => x.2.line
  rw [filterMap_line, filterMap_line, ← lines, lines_localityScript] at hlines
  exact (printed_isPrefix hranks h).eq_of_length_le hlines.length_le

/-- When a thread has begun a job, all threads have completed the jobs before it. -/
theorem finish_mem_log (hranks : 0 < layout.numRanks) (h : Reached (worker layout m) s)
    (hp : p ∈ layout.members) (hq : q ∈ layout.members) {phase phase' : Phase}
    (hlog : (q, .start phase) ∈ s.log) (hphase : phase' ∈ phase.earlier) : (p, .finish phase') ∈ s.log := by
  have hpassed := passed_before hranks h hp hq hlog
  obtain ⟨after, heq⟩ := script_eq layout m phase
  have hf := follows_script (m := m) hranks
  rw [heq, List.append_assoc] at hf
  apply h.outline.mem_log_of_passed hf hp hpassed
  rw [before, List.mem_append, List.mem_flatMap]
  refine Or.inr ⟨phase', hphase, ?_⟩
  simp [Phase.script, Layout.mem_each, hp]

/-- While a thread is in a job, no thread is in another one. -/
theorem phase_eq_of_inProgress (hranks : 0 < layout.numRanks) (h : Reached (worker layout m) s)
    (hp : p ∈ layout.members) (hq : q ∈ layout.members) {phase phase' : Phase}
    (hphase : InProgress s q phase) (hphase' : InProgress s p phase') : phase' = phase := by
  have horder : phase' = phase ∨ phase' ∈ phase.earlier ∨ phase ∈ phase'.earlier := by
    cases phase <;> cases phase' <;> simp [Phase.earlier]
  rcases horder with heq | hbefore | hafter
  · exact heq
  · exact absurd (finish_mem_log hranks h hp hq hphase.1 hbefore) hphase'.2
  · exact absurd (finish_mem_log hranks h hq hp hphase'.1 hafter) hphase.2

end Runs

/-- Two ranks with one and two threads. -/
def oneAndTwo : Layout := ⟨2, fun r => r + 1, fun r => Nat.succ_pos r⟩

/-- A machine whose second rank uses a device. -/
def sampleMachine : Machine := ⟨true, fun q => 4 * q.1 + q.2, fun r => r == 1, fun _ => 3⟩

/-- The three threads take turns. -/
def turns (rounds : ℕ) : List ((ℕ × ℕ) × Bool) :=
  (List.replicate rounds [((1, 1), false), ((1, 0), false), ((0, 0), false)]).flatten

/-- The state of the three threads after some turns. -/
def afterTurns (rounds : ℕ) : Team.State oneAndTwo Action :=
  runEnabled (Team.next (worker oneAndTwo sampleMachine)) State.init (turns rounds)

/-- The table of `print_locality` is printed in the order of the ranks and their threads, whatever the
numbers of threads are and however the threads interleave, and it is complete before any thread begins to
exchange messages. -/
theorem locality_in_order (layout : Layout) (m : Machine) (hranks : 0 < layout.numRanks)
    (s : Team.State layout Action) (h : Reached (worker layout m) s) :
    printed layout s <+: table layout m ∧ ∀ q ∈ layout.members, ∀ phase, (q, .start phase) ∈ s.log →
      printed layout s = table layout m :=
  ⟨printed_isPrefix hranks h, fun _ hq _ hlog => printed_eq hranks h hq hlog⟩

/-- The table of three threads is complete when one of them has begun `check`. -/
theorem locality_in_order_turns :
    printed oneAndTwo (afterTurns 115) = table oneAndTwo sampleMachine :=
  (locality_in_order oneAndTwo sampleMachine (by decide) _
    (reachable_runEnabled _ (Reachable.initial rfl))).2 (1, 1) (by decide) .check (by decide +kernel)

/-- The jobs that exchange messages do not overlap: when a thread begins one, all threads of all ranks have
completed the jobs before it, and while a thread is in one, no thread is in another one. The barriers that
ensure this never block all threads. -/
theorem phases_apart (layout : Layout) (m : Machine) (hranks : 0 < layout.numRanks)
    (s : Team.State layout Action) (h : Reached (worker layout m) s) :
    (∀ p ∈ layout.members, ∀ q ∈ layout.members, ∀ phase, (q, .start phase) ∈ s.log →
      ∀ phase' ∈ phase.earlier, (p, .finish phase') ∈ s.log) ∧
    (∀ p ∈ layout.members, ∀ q ∈ layout.members, ∀ phase phase', InProgress s q phase →
      InProgress s p phase' → phase' = phase) ∧
    ∀ q ∈ layout.members, s.done q < (worker layout m q).length →
      ∃ p ∈ layout.members, CanMove (worker layout m) s p :=
  ⟨fun _ hp _ hq _ hlog _ hphase => finish_mem_log hranks h hp hq hlog hphase,
    fun _ hp _ hq _ _ hphase hphase' => phase_eq_of_inProgress hranks h hp hq hphase hphase',
    fun _ hq hlt => h.exists_canMove (follows_script hranks) hq hlt⟩

/-- The two other threads have completed `check` when one of three threads has begun `warm_up`. -/
theorem phases_apart_turns :
    ((0, 0), .finish .check) ∈ (afterTurns 150).log ∧ ((1, 0), .finish .check) ∈ (afterTurns 150).log := by
  have hstart : ((1, 1), .start .warmUp) ∈ (afterTurns 150).log := by decide +kernel
  have hcheck := (phases_apart oneAndTwo sampleMachine (by decide) (afterTurns 150)
    (reachable_runEnabled _ (Reachable.initial rfl))).1
  exact ⟨hcheck (0, 0) (by decide) (1, 1) (by decide) .warmUp hstart .check (by decide),
    hcheck (1, 0) (by decide) (1, 1) (by decide) .warmUp hstart .check (by decide)⟩

end Ghexbench.P2p.Workers
