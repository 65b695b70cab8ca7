import Ghexbench.Common.Transition
import Mathlib.Algebra.Group.Nat.Defs
import Mathlib.Data.Fintype.Basic
import Mathlib.Data.List.Range
import Mathlib.Order.Lattice

/-!
# The timed loop

`sync_loop::repeat_for` on every thread of every rank. A caller runs the body `f`, decides
by itself whether to go on, and takes part in the two broadcasts of `elapsed` only if its
decision depends on the time: thread 0 of each rank gets the value of rank 0 by `MPI_Bcast`,
and every thread gets the value of thread 0 of its rank by `bcast`. The clock readings of
different callers are unrelated. Calls of one caller run in its own order, callers interleave
arbitrarily, and a caller waits in a broadcast that is not yet complete.

`std::size_t` has 64 bits, so the counter of iterations wraps around.
-/

namespace Ghexbench.RepeatFor

open Ghexbench.Common

variable {τ : Type*} [LinearOrder τ]

/-- The number of values of `std::size_t`. -/
def sizeBound : ℕ := 2 ^ 64

/-- The arguments of `repeat_for`, the same for all callers. -/
structure Args (τ : Type*) where
  seconds : τ
  minIterations : ℕ
  increment : ℕ
  maxIterations : ℕ

/-- `increment = std::max((std::size_t)1, increment)`. -/
def Args.step (a : Args τ) : ℕ := max 1 a.increment

/-- Where a caller stands: in the loop over `f`, in `MPI_Bcast`, before or inside `bcast`. -/
inductive Pc (τ : Type*)
  | body (j : ℕ)
  | mpiBcast (dt : τ)
  | enterBcast (dt : τ)
  | leaveBcast
  | done
  deriving DecidableEq, Repr

/-- A caller with its counter `i`, the calls of `f` and of `elapsed` it has made, the rounds
of `bcast` it has entered and the passes through the loop it has completed. -/
structure Caller (τ : Type*) where
  pc : Pc τ
  i : ℕ
  fCalls : ℕ
  elapsedCalls : ℕ
  entered : ℕ
  passes : ℕ

/-- All callers, the values rank 0 has sent with its calls of `MPI_Bcast`, and the values
thread 0 of each rank has published in the rounds of its `bcast`. -/
structure State (τ : Type*) (R T : ℕ) where
  callers : Fin R → Fin T → Caller τ
  mpi : List τ
  published : Fin R → List τ

variable {R T : ℕ}

/-- All callers at the beginning of the loop. -/
def init (τ : Type*) (R T : ℕ) : State τ R T := ⟨fun _ _ => ⟨.body 0, 0, 0, 0, 0, 0⟩, [], fun _ => []⟩

/-- Replace the state of one caller. -/
def State.set (s : State τ R T) (r : Fin R) (t : Fin T) (c : Caller τ) : State τ R T :=
  { s with callers := Function.update s.callers r (Function.update (s.callers r) t c) }

/-- The end of a pass: count it and decide whether to stop, to go on, or to ask for the time,
which first reads the own clock. -/
def endPass (a : Args τ) (reading : τ) (leader : Bool) (c : Caller τ) : Caller τ :=
  let i := (c.i + a.step) % sizeBound
  let c := { c with i := i, passes := c.passes + 1 }
  if a.maxIterations ≤ i then { c with pc := .done }
  else if i < a.minIterations then { c with pc := .body 0 }
  else { c with
    pc := if leader then .mpiBcast reading else .enterBcast reading
    elapsedCalls := c.elapsedCalls + 1 }

/-- The next step of thread `t` of rank `r`, if it does not have to wait; `clock r t j` is the
time it has measured when it calls `elapsed` for the `j`-th time (from zero). -/
def next (a : Args τ) (clock : ℕ → ℕ → ℕ → τ) (s : State τ R T) (caller : Fin R × Fin T) :
    Option (State τ R T) :=
  let r := caller.1
  let t := caller.2
  let c := s.callers r t
  match c.pc with
  | .body j =>
    if j < a.step then some (s.set r t { c with pc := .body (j + 1), fCalls := c.fCalls + 1 })
    else some (s.set r t (endPass a (clock r t c.elapsedCalls) (t.val = 0) c))
  -- if (thread_id == 0) MPI_Bcast(&dt, 1, MPI_DOUBLE, 0, m_comm)
  | .mpiBcast dt =>
    if r.val = 0 then some { s.set r t { c with pc := .enterBcast dt } with mpi := s.mpi ++ [dt] }
    else match s.mpi[c.elapsedCalls - 1]? with
      | some v => some (s.set r t { c with pc := .enterBcast v })
      | none => none
  | .enterBcast dt =>
    let s' := s.set r t { c with pc := .leaveBcast, entered := c.entered + 1 }
    if t.val = 0 then
      some { s' with published := Function.update s.published r (s.published r ++ [dt]) }
    else some s'
  | .leaveBcast =>
    if ∀ t', c.entered ≤ (s.callers r t').entered then
      match (s.published r)[c.entered - 1]? with
      | some v => some (s.set r t { c with pc := if v < a.seconds then .body 0 else .done })
      | none => none
    else none
  | .done => none

/-- The states of all interleavings of the callers. -/
def Reached (a : Args τ) (clock : ℕ → ℕ → ℕ → τ) (s : State τ R T) : Prop :=
  Reachable (· = init τ R T) (Steps (next a clock)) s

/-- The value of `i` after `k` passes. -/
def Args.count (a : Args τ) (k : ℕ) : ℕ := a.step * k % sizeBound

/-- The decision at the end of pass `k` depends on the time. -/
def Args.AsksTime (a : Args τ) (k : ℕ) : Prop := a.count k < a.maxIterations ∧ a.minIterations ≤ a.count k

instance (a : Args τ) (k : ℕ) : Decidable (a.AsksTime k) := by unfold Args.AsksTime; infer_instance

/-- The number of calls of `elapsed` in the first `k` passes. -/
def Args.asked (a : Args τ) : ℕ → ℕ
  | 0 => 0
  | k + 1 => a.asked k + if a.AsksTime (k + 1) then 1 else 0

/-- The loop ends after pass `k`; the time broadcast in that pass is what rank 0 and thread 0
measured in the call of `elapsed` that belongs to it. -/
def Args.Stops (a : Args τ) (clock : ℕ → ℕ → ℕ → τ) (k : ℕ) : Prop :=
  a.maxIterations ≤ a.count k ∨
    (a.minIterations ≤ a.count k ∧ a.seconds ≤ clock 0 0 (a.asked (k - 1)))

end Ghexbench.RepeatFor
