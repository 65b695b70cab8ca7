import Ghexbench.Common.Script
import Ghexbench.Sync.Barrier
import Mathlib.Data.Finset.Prod

/-!
# Threads of several ranks with their barriers

The threads of all ranks run straight-line programs with calls of the thread barrier of their rank and, by
the first thread of each rank, of `MPI_Barrier`. A call of the thread barrier is carried out by the atomic
actions of `thread_pool::barrier`. Of `MPI_Barrier` only this is known: nobody leaves a call before all
ranks have entered it.
-/

namespace Ghexbench.Team

open Ghexbench.Common

/-- The barriers: that of the threads of a rank, and that of all ranks. -/
inductive Gate
  | team (rank : ℕ)
  | world
  deriving DecidableEq, Repr

/-- The number of ranks, and the number of threads of each rank. -/
structure Layout where
  numRanks : ℕ
  threads : ℕ → ℕ
  threads_pos : ∀ r, 0 < threads r

namespace Layout

variable (layout : Layout)

/-- The threads, each with its rank. -/
def members : Finset (ℕ × ℕ) :=
  (Finset.range layout.numRanks).biUnion fun r => {r} ×ˢ Finset.range (layout.threads r)

/-- The members of a barrier. -/
def group : Gate → Finset (ℕ × ℕ)
  | .team r => layout.members.filter fun q => q.1 = r
  | .world => layout.members.filter fun q => q.2 = 0

/-- The threads with their programs. -/
def ensemble {α : Type*} (prog : ℕ × ℕ → List (Instr Gate α)) : Ensemble (ℕ × ℕ) Gate α :=
  ⟨layout.members, layout.group, prog⟩

/-- A thread of one of the ranks. -/
theorem mem_members {q : ℕ × ℕ} :
    q ∈ layout.members ↔ q.1 < layout.numRanks ∧ q.2 < layout.threads q.1 := by
  simp only [members, Finset.mem_biUnion, Finset.mem_product, Finset.mem_singleton, Finset.mem_range]
  constructor
  · rintro ⟨r, hr, hq, ht⟩
    rw [hq]
    exact ⟨hr, ht⟩
  · rintro ⟨hr, ht⟩
    exact ⟨q.1, hr, rfl, ht⟩

/-- Members of a barrier are threads. -/
theorem group_subset (g : Gate) : layout.group g ⊆ layout.members := by
  cases g <;> exact Finset.filter_subset _ _

end Layout

/-- The instructions that each thread has completed, the threads that are inside `MPI_Barrier`, the
thread barriers, and the actions in the order in which they have been performed. -/
structure State (layout : Layout) (α : Type*) where
  done : ℕ × ℕ → ℕ
  inside : ℕ × ℕ → Bool
  barriers : (r : ℕ) → Barrier.State (layout.threads r)
  log : List ((ℕ × ℕ) × α)

variable {layout : Layout} {α : Type*} (prog : ℕ × ℕ → List (Instr Gate α))

/-- All threads at the start of their programs, with new thread barriers. -/
def State.init : State layout α := ⟨fun _ => 0, fun _ => false, fun _ => Barrier.init _, []⟩

/-- Where a thread stands in its thread barrier. -/
def State.thread (s : State layout α) (q : ℕ × ℕ) : Barrier.Thread :=
  if h : q.2 < layout.threads q.1 then (s.barriers q.1).threads ⟨q.2, h⟩ else ⟨.outside, 0, 0⟩

/-- The state without the counters of the thread barriers. -/
def State.outline (s : State layout α) : EnsembleState (ℕ × ℕ) α where
  done := s.done
  inside q := s.inside q || decide ((s.thread q).pc ≠ .outside)
  log := s.log

/-- The next atomic action of a thread in its thread barrier; the call returns when the thread is outside
again. -/
def State.atomic (s : State layout α) (q : ℕ × ℕ) (hq : q.2 < layout.threads q.1) (spurious : Bool) :
    State layout α :=
  let b := s.barriers q.1
  let result := Barrier.threadStep (layout.threads q.1) spurious b.counters (b.threads ⟨q.2, hq⟩)
  { s with
    barriers := Function.update s.barriers q.1 (b.set ⟨q.2, hq⟩ result)
    done := if result.2.pc = .outside then Function.update s.done q (s.done q + 1) else s.done }

/-- The next action of a thread, if it is enabled; `spurious` makes a compare-exchange fail. -/
def next (s : State layout α) (action : (ℕ × ℕ) × Bool) : Option (State layout α) :=
  let q := action.1
  let E := layout.ensemble prog
  if h : q.1 < layout.numRanks ∧ q.2 < layout.threads q.1 then
    match (prog q)[s.done q]? with
    | none => none
    | some (.act a) =>
      some { s with done := Function.update s.done q (s.done q + 1), log := s.log ++ [(q, a)] }
    | some (.sync .world) =>
      if s.inside q = false then some { s with inside := Function.update s.inside q true }
      else if ∀ m ∈ E.group .world, E.departed s.outline q .world < E.entered s.outline m .world then
        some { s with
          done := Function.update s.done q (s.done q + 1)
          inside := Function.update s.inside q false }
      else none
    | some (.sync (.team r)) => if r = q.1 then some (s.atomic q h.2 action.2) else none
  else none

/-- The states of all interleavings. -/
def Reached (s : State layout α) : Prop := Reachable (· = State.init) (Steps (next prog)) s

end Ghexbench.Team
