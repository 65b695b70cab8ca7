import Ghexbench.Common.Loops
import Ghexbench.Sync.TeamRefines
import Mathlib.Data.List.ProdSigma

/-!
# Scripts of threads with their barriers

A script lists the actions and barriers of all threads of all ranks together. The thread barrier of every
rank, `MPI_Barrier` and the thread barriers again are a barrier of all threads: whatever a thread does
after them follows everything that any thread does before them.
-/

namespace Ghexbench.Team

open Ghexbench.Common

variable {α : Type*}

/-- The part of a thread in a barrier of all threads: `b(); if (j == 0) MPI_Barrier(comm); b();`. -/
def rendezvous (q : ℕ × ℕ) : List (Instr Gate α) :=
  [.sync (.team q.1)] ++ (if q.2 = 0 then [.sync .world] else []) ++ [.sync (.team q.1)]

namespace Layout

variable (layout : Layout)

/-- The threads, in the order of their ranks and within each rank of their numbers. -/
def threadList : List (ℕ × ℕ) :=
  (List.range layout.numRanks).flatMap fun r => (List.range (layout.threads r)).map fun t => (r, t)

/-- Actions of every thread. -/
def each (f : ℕ × ℕ → List α) : List (Entry (ℕ × ℕ) Gate α) :=
  layout.threadList.flatMap fun q => (f q).map (Entry.act q)

/-- A call of every thread barrier. -/
def teams : List (Entry (ℕ × ℕ) Gate α) := (List.range layout.numRanks).map fun r => .sync (.team r)

/-- A call of `MPI_Barrier`, and then of every thread barrier. -/
def worldTeams : List (Entry (ℕ × ℕ) Gate α) := .sync .world :: layout.teams

/-- A barrier of all threads. -/
def meeting : List (Entry (ℕ × ℕ) Gate α) := layout.teams ++ layout.worldTeams

variable {layout} {prog : ℕ × ℕ → List (Instr Gate α)} {p q : ℕ × ℕ} {a : α}

/-- The list contains all threads. -/
theorem mem_threadList : q ∈ layout.threadList ↔ q ∈ layout.members := by
  obtain ⟨r, t⟩ := q
  simp only [threadList, List.mem_flatMap, List.mem_range, List.mem_map, Prod.mk.injEq, mem_members]
  constructor
  · rintro ⟨r', hr, t', ht, rfl, rfl⟩
    exact ⟨hr, ht⟩
  · rintro ⟨hr, ht⟩
    exact ⟨r, hr, t, ht, rfl, rfl⟩

/-- The list contains every thread once. -/
theorem nodup_threadList : layout.threadList.Nodup := by
  rw [threadList, List.nodup_flatMap]
  refine ⟨fun r _ => List.nodup_range.map fun t t' h => (Prod.mk.inj h).2, ?_⟩
  refine List.nodup_range.imp fun {r r'} hne q hq hq' => ?_
  obtain ⟨t, -, rfl⟩ := List.mem_map.mp hq
  obtain ⟨t', -, heq⟩ := List.mem_map.mp hq'
  exact hne (Prod.mk.inj heq).1.symm

section Groups

/-- The thread barriers of a thread. -/
theorem mem_team (hq : q ∈ layout.members) {r : ℕ} :
    q ∈ (layout.ensemble prog).group (.team r) ↔ q.1 = r := by
  change q ∈ layout.members.filter (fun q => q.1 = r) ↔ _
  simp [hq]

/-- The threads that call `MPI_Barrier`. -/
theorem mem_world (hq : q ∈ layout.members) : q ∈ (layout.ensemble prog).group .world ↔ q.2 = 0 := by
  change q ∈ layout.members.filter (fun q => q.2 = 0) ↔ _
  simp [hq]

/-- The first thread of the rank of a thread. -/
theorem leader_mem (hq : q ∈ layout.members) : (q.1, 0) ∈ layout.members :=
  layout.mem_members.mpr ⟨(layout.mem_members.mp hq).1, layout.threads_pos q.1⟩

end Groups

section Projections

/-- What a thread sees of a script in parts. -/
theorem project_flatMap {β : Type*} (l : List β) (f : β → List (Entry (ℕ × ℕ) Gate α)) :
    (layout.ensemble prog).project (l.flatMap f) q =
      l.flatMap fun x => (layout.ensemble prog).project (f x) q :=
  List.filterMap_flatMap

/-- What a thread sees of the actions of every thread. -/
theorem project_each (hq : q ∈ layout.members) (f : ℕ × ℕ → List α) :
    (layout.ensemble prog).project (layout.each f) q = (f q).map Instr.act := by
  have hpart (p : ℕ × ℕ) : (layout.ensemble prog).project ((f p).map (Entry.act p)) q =
      if p = q then (f p).map Instr.act else [] := by
    by_cases hpq : p = q
    · subst hpq
      simp [Ensemble.project, List.filterMap_map, Function.comp_def, Ensemble.view, List.filterMap_eq_map']
    · simp [Ensemble.project, List.filterMap_map, Function.comp_def, Ensemble.view, hpq, Ne.symm hpq]
  rw [each, project_flatMap]
  simp only [hpart]
  exact flatMap_ite_eq nodup_threadList (mem_threadList.mpr hq) fun p => (f p).map Instr.act

/-- What a thread sees of a call of a thread barrier. -/
theorem project_team (hq : q ∈ layout.members) (r : ℕ) :
    (layout.ensemble prog).project [.sync (.team r)] q =
      if r = q.1 then [.sync (.team r)] else [] := by
  by_cases hr : q.1 = r
  · simp [Ensemble.project, Ensemble.view, mem_team hq, hr]
  · simp [Ensemble.project, Ensemble.view, mem_team hq, hr, Ne.symm hr]

/-- What a thread sees of the calls of all thread barriers. -/
theorem project_teams (hq : q ∈ layout.members) :
    (layout.ensemble prog).project layout.teams q = [.sync (.team q.1)] := by
  have hteams : layout.teams = (List.range layout.numRanks).flatMap fun r =>
      [(.sync (.team r) : Entry (ℕ × ℕ) Gate α)] := List.map_eq_flatMap
  rw [hteams, project_flatMap]
  simp only [project_team hq]
  exact flatMap_ite_eq List.nodup_range (List.mem_range.mpr (layout.mem_members.mp hq).1) fun r =>
    [(.sync (.team r) : Instr Gate α)]

/-- What a thread sees of `MPI_Barrier` and the thread barriers. -/
theorem project_worldTeams (hq : q ∈ layout.members) :
    (layout.ensemble prog).project layout.worldTeams q =
      (if q.2 = 0 then [.sync .world] else []) ++ [.sync (.team q.1)] := by
  have hteams : (layout.ensemble prog).project layout.teams q = [.sync (.team q.1)] := project_teams hq
  rw [← hteams]
  by_cases ht : q.2 = 0 <;> simp [worldTeams, Ensemble.project, Ensemble.view, mem_world hq, ht]

/-- What a thread sees of a barrier of all threads. -/
theorem project_meeting (hq : q ∈ layout.members) :
    (layout.ensemble prog).project layout.meeting q = rendezvous q := by
  rw [meeting, Ensemble.project_append, project_teams hq, project_worldTeams hq, rendezvous,
    List.append_assoc]

/-- The actions of every thread. -/
theorem mem_each {f : ℕ × ℕ → List α} :
    Entry.act p a ∈ layout.each f ↔ p ∈ layout.members ∧ a ∈ f p := by
  simp [each, mem_threadList]

/-- There is no action in a barrier of all threads. -/
theorem act_not_mem_meeting : Entry.act p a ∉ layout.meeting := by
  simp [meeting, worldTeams, teams]

end Projections

section Knowledge

variable {known : Finset (ℕ × ℕ)} {l : List (Entry (ℕ × ℕ) Gate α)}

/-- The first threads inform each other, and then the other threads of their ranks. -/
theorem mem_informed_worldTeams (hp : p ∈ layout.members) (hknown : (p.1, 0) ∈ known)
    (hq : q ∈ layout.members) : q ∈ (layout.ensemble prog).informed known layout.worldTeams := by
  have hleader : (q.1, 0) ∈ (layout.ensemble prog).informed known [.sync .world] :=
    Ensemble.mem_informed_of_sync hknown (List.mem_singleton_self _)
      ((mem_world (leader_mem hp)).mpr rfl) ((mem_world (leader_mem hq)).mpr rfl)
  have hteam : .sync (.team q.1) ∈ (layout.teams : List (Entry (ℕ × ℕ) Gate α)) :=
    List.mem_map.mpr ⟨q.1, List.mem_range.mpr (layout.mem_members.mp hq).1, rfl⟩
  change q ∈ (layout.ensemble prog).informed
    ((layout.ensemble prog).informed known [.sync .world]) layout.teams
  exact Ensemble.mem_informed_of_sync hleader hteam ((mem_team (leader_mem hq)).mpr rfl)
    ((mem_team hq).mpr rfl)

/-- After a barrier of all threads everybody is informed of everybody. -/
theorem mem_informed_meeting (hp : p ∈ layout.members) (hknown : p ∈ known) (hq : q ∈ layout.members) :
    q ∈ (layout.ensemble prog).informed known layout.meeting := by
  rw [Ensemble.informed, meeting, List.foldl_append]
  apply mem_informed_worldTeams hp _ hq
  have hteam : .sync (.team p.1) ∈ (layout.teams : List (Entry (ℕ × ℕ) Gate α)) :=
    List.mem_map.mpr ⟨p.1, List.mem_range.mpr (layout.mem_members.mp hp).1, rfl⟩
  exact Ensemble.mem_informed_of_sync hknown hteam
    ((mem_team hp).mpr rfl) ((mem_team (leader_mem hp)).mpr rfl)

end Knowledge

end Layout

section Meetings

variable {layout : Layout} {prog : ℕ × ℕ → List (Instr Gate α)} {s : State layout α} {p q : ℕ × ℕ}
  {a b : α} {script before after : List (Entry (ℕ × ℕ) Gate α)}

/-- The threads follow a script. -/
theorem follows (hprog : ∀ q ∈ layout.members, prog q = (layout.ensemble prog).project script q)
    (hact : ∀ p a, Entry.act p a ∈ script → p ∈ layout.members) :
    (layout.ensemble prog).Follows script :=
  ⟨hprog, layout.group_subset, hact⟩

/-- If a thread has done anything that comes after a barrier of all threads, then all threads have passed
what comes before. -/
theorem Reached.passed_of_meeting (h : Reached prog s)
    (hf : (layout.ensemble prog).Follows (before ++ layout.meeting ++ after)) (hp : p ∈ layout.members)
    (hq : q ∈ layout.members) (hlog : (q, b) ∈ s.log) (hnot : Entry.act q b ∉ before) :
    (layout.ensemble prog).Passed s.outline p before := by
  have hinformed : q ∈ (layout.ensemble prog).informed {p} layout.meeting :=
    Layout.mem_informed_meeting hp (Finset.mem_singleton_self p) hq
  refine hf.passed_of_informed h.outline.fair hinformed (h.outline.passed_of_mem_log hf hq hlog ?_)
  rw [List.mem_append]
  exact fun hor => hor.elim hnot Layout.act_not_mem_meeting

/-- If a thread has done anything that comes after a barrier of all threads, then all threads have done
everything that comes before. -/
theorem Reached.mem_log_of_meeting (h : Reached prog s)
    (hf : (layout.ensemble prog).Follows (before ++ layout.meeting ++ after)) (hq : q ∈ layout.members)
    (hlog : (q, b) ∈ s.log) (hnot : Entry.act q b ∉ before) (hact : Entry.act p a ∈ before) :
    (p, a) ∈ s.log := by
  have hp : p ∈ layout.members := hf.act p a (by simp [hact])
  have hpassed := h.passed_of_meeting hf hp hq hlog hnot
  rw [List.append_assoc] at hf
  exact h.outline.mem_log_of_passed hf hp hpassed hact

end Meetings

end Ghexbench.Team
