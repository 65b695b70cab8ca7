import Mathlib.Data.Nat.Notation
import Mathlib.Data.Option.Basic
import Mathlib.Logic.Relation
import Mathlib.Tactic.Push

/-!
# Transition systems and their runs

States, a predicate of initial states and a step relation. An invariant is proved once
for the initial states and once for a single step; `Reachable.invariant` then gives it
in every state of every run. Executable systems are given by a partial transition
function on labelled actions, and `runActions` evaluates it on a concrete schedule.
-/

namespace Ghexbench.Common

variable {σ α : Type*}

/-- The states at the end of some finite run from an initial state. -/
def Reachable (init : σ → Prop) (step : σ → σ → Prop) (s : σ) : Prop :=
  ∃ s₀, init s₀ ∧ Relation.ReflTransGen step s₀ s

/-- Every initial state is reached by the empty run. -/
theorem Reachable.initial {init : σ → Prop} {step : σ → σ → Prop} {s : σ} (h : init s) :
    Reachable init step s := ⟨s, h, Relation.ReflTransGen.refl⟩

/-- A run may be prolonged by one step. -/
theorem Reachable.tail {init : σ → Prop} {step : σ → σ → Prop} {s t : σ}
    (h : Reachable init step s) (hst : step s t) : Reachable init step t := by
  obtain ⟨s₀, hs₀, hrun⟩ := h
  exact ⟨s₀, hs₀, hrun.tail hst⟩

/-- What holds initially and is preserved by one step holds in every reachable state. -/
theorem Reachable.invariant {init : σ → Prop} {step : σ → σ → Prop} {inv : σ → Prop}
    (hinit : ∀ s, init s → inv s) (hstep : ∀ s t, inv s → step s t → inv t)
    {s : σ} (h : Reachable init step s) : inv s := by
  obtain ⟨s₀, hs₀, hrun⟩ := h
  induction hrun with
  | refl => exact hinit s₀ hs₀
  | tail _ hlast ih => exact hstep _ _ ih hlast

/-- A stronger step relation reaches fewer states. -/
theorem Reachable.mono {init : σ → Prop} {step step' : σ → σ → Prop}
    (hle : ∀ s t, step s t → step' s t) {s : σ} (h : Reachable init step s) :
    Reachable init step' s := by
  obtain ⟨s₀, hs₀, hrun⟩ := h
  exact ⟨s₀, hs₀, Relation.ReflTransGen.mono hle _ _ hrun⟩

/-- If a map of the states takes initial states to initial states, and every step from a reachable state
to a step or to nothing, then it takes reachable states to reachable states. -/
theorem Reachable.simulation {τ : Type*} {init : σ → Prop} {step : σ → σ → Prop} {init' : τ → Prop}
    {step' : τ → τ → Prop} (f : σ → τ) (hinit : ∀ s, init s → init' (f s))
    (hstep : ∀ s t, Reachable init step s → step s t → step' (f s) (f t) ∨ f t = f s)
    {s : σ} (h : Reachable init step s) : Reachable init' step' (f s) := by
  obtain ⟨s₀, hs₀, hrun⟩ := h
  induction hrun with
  | refl => exact Reachable.initial (hinit s₀ hs₀)
  | @tail s t hbefore hlast ih =>
    cases hstep s t ⟨s₀, hs₀, hbefore⟩ hlast with
    | inl hmove => exact ih.tail hmove
    | inr hstay => exact hstay ▸ ih

/-- One step of a system given by a partial transition function on actions. -/
def Steps (next : σ → α → Option σ) (s t : σ) : Prop := ∃ a, next s a = some t

/-- One step by an action that satisfies a condition in the state it starts from. -/
def StepsWhen (cond : σ → α → Prop) (next : σ → α → Option σ) (s t : σ) : Prop :=
  ∃ a, cond s a ∧ next s a = some t

/-- Forgetting the condition on the actions. -/
theorem StepsWhen.steps {cond : σ → α → Prop} {next : σ → α → Option σ} {s t : σ}
    (h : StepsWhen cond next s t) : Steps next s t := by
  obtain ⟨a, _, ha⟩ := h
  exact ⟨a, ha⟩

/-- Execute a schedule, failing at the first action that is not enabled. -/
def runActions (next : σ → α → Option σ) : σ → List α → Option σ
  | s, [] => some s
  | s, a :: rest => (next s a).bind fun t => runActions next t rest

/-- An executed schedule is a run of the system. -/
theorem reachable_of_runActions {init : σ → Prop} {next : σ → α → Option σ} {s t : σ}
    (actions : List α) (hs : Reachable init (Steps next) s)
    (h : runActions next s actions = some t) : Reachable init (Steps next) t := by
  induction actions generalizing s with
  | nil =>
    simp only [runActions, Option.some.injEq] at h
    exact h ▸ hs
  | cons a rest ih =>
    obtain ⟨u, hu, hrest⟩ := Option.bind_eq_some_iff.mp h
    exact ih (hs.tail ⟨a, hu⟩) hrest

/-- The transition function without the actions that do not satisfy a condition. -/
def nextWhen (cond : σ → α → Prop) [∀ s, DecidablePred (cond s)] (next : σ → α → Option σ) (s : σ) (a : α) :
    Option σ :=
  if cond s a then next s a else none

/-- It has the steps that satisfy the condition. -/
theorem steps_nextWhen {cond : σ → α → Prop} [∀ s, DecidablePred (cond s)] {next : σ → α → Option σ}
    {s t : σ} : Steps (nextWhen cond next) s t ↔ StepsWhen cond next s t := by
  simp [Steps, StepsWhen, nextWhen]

/-- An executed schedule whose actions satisfy a condition is a run with this condition. -/
theorem reachable_of_nextWhen {init : σ → Prop} {cond : σ → α → Prop} [∀ s, DecidablePred (cond s)]
    {next : σ → α → Option σ} {s t : σ} (actions : List α) (hs : init s)
    (h : runActions (nextWhen cond next) s actions = some t) : Reachable init (StepsWhen cond next) t :=
  Reachable.mono (fun _ _ => steps_nextWhen.mp) (reachable_of_runActions actions (.initial hs) h)

/-- If a map of the states takes every step of a system to the step of another one by the same action, and
steps that are not enabled to such, then so it does with schedules. -/
theorem runActions_map {τ : Type*} {next : σ → α → Option σ} {next' : τ → α → Option τ} (f : σ → τ)
    (hstep : ∀ s a, next' (f s) a = (next s a).map f) (s : σ) (actions : List α) :
    runActions next' (f s) actions = (runActions next s actions).map f := by
  induction actions generalizing s with
  | nil => rfl
  | cons a rest ih =>
    rw [runActions, runActions, hstep, Option.bind_map, Option.map_bind]
    congr 1
    funext t
    exact ih t

/-- Execute a schedule, leaving out the actions that are not enabled. -/
def runEnabled (next : σ → α → Option σ) (s : σ) (actions : List α) : σ :=
  actions.foldl (fun s a => (next s a).getD s) s

/-- The enabled actions of a schedule are a run of the system. -/
theorem reachable_runEnabled {init : σ → Prop} {next : σ → α → Option σ} {s : σ} (actions : List α)
    (hs : Reachable init (Steps next) s) : Reachable init (Steps next) (runEnabled next s actions) := by
  induction actions generalizing s with
  | nil => exact hs
  | cons a rest ih =>
    refine ih (s := (next s a).getD s) ?_
    cases hnext : next s a with
    | none => exact hs
    | some t => exact hs.tail ⟨a, hnext⟩

/-- A quantity that grows with every step and stays below a bound limits the length of every
schedule. -/
theorem length_le_of_measure {init : σ → Prop} {next : σ → α → Option σ} (measure : σ → ℕ)
    {bound : ℕ} (hlt : ∀ s a t, Reachable init (Steps next) s → next s a = some t → measure s < measure t)
    (hle : ∀ s, Reachable init (Steps next) s → measure s ≤ bound) {s t : σ} {actions : List α}
    (hs : Reachable init (Steps next) s) (h : runActions next s actions = some t) :
    actions.length + measure s ≤ bound := by
  induction actions generalizing s with
  | nil => simpa using hle s hs
  | cons a rest ih =>
    obtain ⟨u, hu, hrest⟩ := Option.bind_eq_some_iff.mp h
    have hgrow := hlt s a u hs hu
    have hlength := ih (hs.tail ⟨a, hu⟩) hrest
    rw [List.length_cons]
    omega

/-- If no run can go on for ever then some run comes to its end. -/
theorem exists_stuck {init : σ → Prop} {next : σ → α → Option σ} (measure : σ → ℕ) {bound : ℕ}
    (hlt : ∀ s a t, Reachable init (Steps next) s → next s a = some t → measure s < measure t)
    (hle : ∀ s, Reachable init (Steps next) s → measure s ≤ bound) {s : σ}
    (hs : Reachable init (Steps next) s) :
    ∃ t, Reachable init (Steps next) t ∧ ∀ a, next t a = none := by
  obtain ⟨left, hleft⟩ := Nat.le.dest (hle s hs)
  induction left using Nat.strongRecOn generalizing s with
  | ind left ih =>
    by_cases hstuck : ∀ a, next s a = none
    · exact ⟨s, hs, hstuck⟩
    · push Not at hstuck
      obtain ⟨a, ha⟩ := hstuck
      obtain ⟨t, ht⟩ := Option.ne_none_iff_exists'.mp ha
      have hreached := hs.tail ⟨a, ht⟩
      obtain ⟨left', hleft'⟩ := Nat.le.dest (hle t hreached)
      have hgrow := hlt s a t hs ht
      exact ih left' (by omega) hreached hleft'

end Ghexbench.Common
