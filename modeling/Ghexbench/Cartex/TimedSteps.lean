import Ghexbench.Cartex.Neighbor
import Ghexbench.Sync.TeamProgress
import Ghexbench.Sync.TeamScripts

/-!
# The timed steps

`runtime::exchange` without `--time`, on every thread of every rank. Every main step begins with a barrier
of all threads, and the time of the step is measured after it. The warm-up steps and the step before
`check` have no barrier.
-/

namespace Ghexbench.Cartex

open Ghexbench.Common

/-- The threads of a decomposition. -/
def Config.layout (cfg : Config) : Team.Layout :=
  ⟨cfg.numRanks, fun _ => cfg.numThreads, fun _ => cfg.numThreads_pos⟩

namespace TimedSteps

open Team

/-- The calls of `step` in `exchange`. -/
inductive Call
  | checked
  | warmUp (t : ℕ)
  | main (t : ℕ)
  deriving DecidableEq, Repr

/-- What a thread does in `exchange` apart from waiting in barriers. -/
inductive Action
  | start (call : Call)
  | finish (call : Call)
  | check
  deriving DecidableEq, Repr

/-- A call of `step`. -/
def step (call : Call) : List Action := [.start call, .finish call]

/-- What a thread does before the main steps. -/
def prologue (checkRes : Bool) : List Action :=
  (if checkRes then step .checked ++ [.check] else []) ++
    (List.range 50).flatMap fun t => step (.warmUp t)

/-- `main_step`. -/
def mainStep (q : ℕ × ℕ) (t : ℕ) : List (Instr Gate Action) :=
  rendezvous q ++ (step (.main t)).map .act

/-- The program of a thread. -/
def exchange (checkRes : Bool) (numReps : ℕ) (q : ℕ × ℕ) : List (Instr Gate Action) :=
  (prologue checkRes).map .act ++ (List.range numReps).flatMap (mainStep q)

/-- What a thread does before some main step. -/
def earlier (checkRes : Bool) (n : ℕ) : List Action :=
  prologue checkRes ++ (List.range n).flatMap fun t => step (.main t)

/-- The main step of all threads. -/
def mainSteps (layout : Layout) (t : ℕ) : List (Entry (ℕ × ℕ) Gate Action) :=
  layout.meeting ++ layout.each fun _ => step (.main t)

/-- What all threads do before some main step. -/
def script (layout : Layout) (checkRes : Bool) (n : ℕ) : List (Entry (ℕ × ℕ) Gate Action) :=
  layout.each (fun _ => prologue checkRes) ++ (List.range n).flatMap (mainSteps layout)

/-- A thread is in a call of `step`. -/
def InProgress {layout : Layout} (s : State layout Action) (q : ℕ × ℕ) (call : Call) : Prop :=
  (q, .start call) ∈ s.log ∧ (q, .finish call) ∉ s.log

section Programs

variable {checkRes : Bool} {n : ℕ} {call : Call}

/-- Whatever call begins before a main step also ends before it. -/
theorem finish_mem_earlier : .finish call ∈ earlier checkRes n ↔ .start call ∈ earlier checkRes n := by
  cases checkRes <;> simp [earlier, prologue, step]

/-- The main steps before a main step. -/
theorem start_main_mem_earlier {m : ℕ} : .start (.main m) ∈ earlier checkRes n ↔ m < n := by
  cases checkRes <;> simp [earlier, prologue, step]

/-- A call that is no main step comes before all of them. -/
theorem mem_earlier_of_ne {N : ℕ} (hcall : ∀ m, call ≠ .main m) (h : .start call ∈ earlier checkRes N) :
    .start call ∈ earlier checkRes n := by
  simp only [earlier, List.mem_append, List.mem_flatMap, List.mem_range] at h ⊢
  refine Or.inl (h.resolve_right ?_)
  rintro ⟨t, -, hstep⟩
  simp only [step, List.mem_cons, Action.start.injEq, reduceCtorEq, List.not_mem_nil, or_self, or_false]
    at hstep
  exact hcall t hstep

variable {layout : Layout} {p q : ℕ × ℕ} {a : Action}

/-- The actions of a thread. -/
theorem act_mem_exchange {N : ℕ} : .act a ∈ exchange checkRes N q ↔ a ∈ earlier checkRes N := by
  have hnot : (Instr.act a : Instr Gate Action) ∉ rendezvous q := by
    by_cases ht : q.2 = 0 <;> simp [rendezvous, ht]
  simp only [exchange, mainStep, earlier, List.mem_append, List.mem_map, List.mem_flatMap, hnot, false_or,
    Instr.act.injEq, exists_eq_right]

/-- The actions of the threads before some main step. -/
theorem act_mem_script :
    .act p a ∈ script layout checkRes n ↔ p ∈ layout.members ∧ a ∈ earlier checkRes n := by
  simp only [script, mainSteps, earlier, List.mem_append, Layout.mem_each, List.mem_flatMap,
    Layout.act_not_mem_meeting, false_or]
  constructor
  · rintro (⟨hp, ha⟩ | ⟨t, ht, hp, ha⟩)
    · exact ⟨hp, Or.inl ha⟩
    · exact ⟨hp, Or.inr ⟨t, ht, ha⟩⟩
  · rintro ⟨hp, ha | ⟨t, ht, ha⟩⟩
    · exact Or.inl ⟨hp, ha⟩
    · exact Or.inr ⟨t, ht, hp, ha⟩

variable (checkRes layout) in
/-- The threads follow the script. -/
theorem follows_script (N : ℕ) :
    (layout.ensemble (exchange checkRes N)).Follows (script layout checkRes N) := by
  refine follows (fun q hq => ?_) fun p a ha => (act_mem_script.mp ha).1
  have hmain (t : ℕ) :
      (layout.ensemble (exchange checkRes N)).project (mainSteps layout t) q = mainStep q t := by
    rw [mainSteps, Ensemble.project_append, Layout.project_meeting hq, Layout.project_each hq, mainStep]
  rw [script, Ensemble.project_append, Layout.project_each hq, Layout.project_flatMap]
  simp only [hmain, exchange]

variable (checkRes layout) in
/-- A main step begins with a barrier of all threads. -/
theorem script_eq {N : ℕ} (hn : n < N) : ∃ after, script layout checkRes N =
    script layout checkRes n ++ layout.meeting ++ after := by
  obtain ⟨k, rfl⟩ := Nat.exists_eq_add_of_lt hn
  refine ⟨layout.each (fun _ => step (.main n)) ++
    (List.range k).flatMap fun t => mainSteps layout (n + (t + 1)), ?_⟩
  have hrange : List.range (n + k + 1) =
      List.range n ++ n :: (List.range k).map fun t => n + (t + 1) := by
    rw [add_assoc, List.range_add, List.range_succ_eq_map]
    simp [Function.comp_def]
  simp only [script, hrange, List.flatMap_append, List.flatMap_cons, List.flatMap_map, mainSteps,
    List.append_assoc]

end Programs

section Runs

variable {layout : Layout} {checkRes : Bool} {numReps : ℕ} {s : State layout Action} {p q : ℕ × ℕ}

/-- Nobody does anything that is not part of its program. -/
theorem mem_earlier_of_log (h : Reached (exchange checkRes numReps) s) {a : Action}
    (hlog : (q, a) ∈ s.log) : a ∈ earlier checkRes numReps :=
  act_mem_exchange.mp (List.mem_of_mem_take (h.outline.mem_log_iff.mp hlog))

/-- When a thread has begun a main step, all threads have completed everything that comes before. -/
theorem mem_log_of_start (h : Reached (exchange checkRes numReps) s) (hp : p ∈ layout.members)
    (hq : q ∈ layout.members) {n : ℕ} (hlog : (q, .start (.main n)) ∈ s.log) {a : Action}
    (ha : a ∈ earlier checkRes n) : (p, a) ∈ s.log := by
  have hn : n < numReps := start_main_mem_earlier.mp (mem_earlier_of_log h hlog)
  obtain ⟨after, heq⟩ := script_eq checkRes layout hn
  have hf := follows_script checkRes layout numReps
  rw [heq] at hf
  have hnot : Entry.act q (.start (.main n)) ∉ script layout checkRes n := by
    rw [act_mem_script, start_main_mem_earlier]
    exact fun hlt => lt_irrefl n hlt.2
  exact h.mem_log_of_meeting hf hq hlog hnot (act_mem_script.mpr ⟨hp, ha⟩)

/-- While a thread is in a main step, no thread is in another call of `step`. -/
theorem call_eq_of_inProgress (h : Reached (exchange checkRes numReps) s) (hp : p ∈ layout.members)
    (hq : q ∈ layout.members) {n : ℕ} {call : Call} (hmain : InProgress s q (.main n))
    (hcall : InProgress s p call) : call = .main n := by
  by_contra hne
  have hbegun := mem_earlier_of_log h hcall.1
  have hnot : .start call ∉ earlier checkRes n := fun hmem =>
    hcall.2 (mem_log_of_start h hp hq hmain.1 (finish_mem_earlier.mpr hmem))
  by_cases hother : ∀ m, call ≠ .main m
  · exact hnot (mem_earlier_of_ne hother hbegun)
  · push Not at hother
    obtain ⟨m, rfl⟩ := hother
    rw [start_main_mem_earlier, not_lt] at hnot
    have hlt : n < m := lt_of_le_of_ne hnot fun heq => hne (congrArg Call.main heq.symm)
    apply hmain.2
    exact mem_log_of_start h hq hp hcall.1 (finish_mem_earlier.mpr (start_main_mem_earlier.mpr hlt))

end Runs

/-- The time of a main step is that of this step of all threads and of nothing else: when a thread begins
it, all threads have completed everything that comes before, and while a thread is in it, no thread is in
another call of `step`. The barriers that ensure this never block all threads. -/
theorem main_steps_apart (cfg : Config) (checkRes : Bool) (numReps : ℕ) (s : State cfg.layout Action)
    (h : Reached (exchange checkRes numReps) s) :
    (∀ p ∈ cfg.layout.members, ∀ q ∈ cfg.layout.members, ∀ n, (q, .start (.main n)) ∈ s.log →
      ∀ a ∈ earlier checkRes n, (p, a) ∈ s.log) ∧
    (∀ p ∈ cfg.layout.members, ∀ q ∈ cfg.layout.members, ∀ n call, InProgress s q (.main n) →
      InProgress s p call → call = .main n) ∧
    ∀ q ∈ cfg.layout.members, s.done q < (exchange checkRes numReps q).length →
      ∃ p ∈ cfg.layout.members, CanMove (exchange checkRes numReps) s p :=
  ⟨fun _ hp _ hq _ hlog _ ha => mem_log_of_start h hp hq hlog ha,
    fun _ hp _ hq _ _ hmain hcall => call_eq_of_inProgress h hp hq hmain hcall,
    fun _ hq hlt => h.exists_canMove (follows_script checkRes _ numReps) hq hlt⟩

/-- The four threads of two ranks take turns. -/
def turns (rounds : ℕ) : List ((ℕ × ℕ) × Bool) :=
  (List.replicate rounds [((0, 0), false), ((0, 1), false), ((1, 0), false), ((1, 1), false)]).flatten

/-- When the second thread of rank 0 has begun the first main step, all threads of two ranks have completed
the warm-up steps. -/
theorem main_steps_apart_turns : ∃ s : State twoRanks.layout Action,
    ((0, 1), .start (.main 0)) ∈ s.log ∧
      ∀ p ∈ twoRanks.layout.members, ∀ a ∈ earlier false 0, (p, a) ∈ s.log := by
  have hrun : ((runActions (next (exchange false 1)) (State.init : State twoRanks.layout Action)
      (turns 126)).map fun s => decide (((0, 1), .start (.main 0)) ∈ s.log)) = some true := by
    decide +kernel
  obtain ⟨s, hs, hlog⟩ := Option.map_eq_some_iff.mp hrun
  have hreached : Reached (exchange false 1) s :=
    reachable_of_runActions _ (Reachable.initial rfl) hs
  have hlog := of_decide_eq_true hlog
  refine ⟨s, hlog, fun p hp => ?_⟩
  exact (main_steps_apart twoRanks false 1 s hreached).1 p hp (0, 1) (by decide) 0 hlog

end TimedSteps

end Ghexbench.Cartex
