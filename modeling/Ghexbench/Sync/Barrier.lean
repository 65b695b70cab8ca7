import Ghexbench.Common.Counting
import Ghexbench.Common.Transition
import Mathlib.Data.Int.Basic

/-!
# The reusable thread barrier

`thread_pool::barrier::operator()` with `count_up` and `count_down` inlined, one program
point for each atomic load, store and compare-exchange. The threads of the pool share the
two counters of the barrier and may call it again and again; every thread keeps the number
of calls it has entered and the number it has returned from.

The atomics are sequentially consistent: a step of the system is one step of one thread.
A failed compare-exchange, spurious or not, reloads the expected value as the source does.
-/

namespace Ghexbench.Barrier

open Ghexbench.Common

/-- Where a thread stands in `operator()`; `expected` and `ex` are its local copies. -/
inductive Pc
  | outside
  | entry
  | loadUp
  | casUp (expected : ℤ)
  | resetUp
  | spinUp
  | spinDown
  | loadDown
  | casDown (ex : ℤ)
  | resetDown
  | awaitDown
  deriving DecidableEq, Repr

/-- A thread with the calls of the barrier it has entered and returned from. -/
structure Thread where
  pc : Pc
  entered : ℕ
  returned : ℕ
  deriving DecidableEq, Repr

/-- The atomics `m_up` and `m_down` that all threads share. -/
structure Counters where
  up : ℤ
  down : ℤ
  deriving DecidableEq, Repr

/-- Leave `operator()`. -/
def Thread.ret (t : Thread) : Thread := { t with pc := .outside, returned := t.returned + 1 }

/-- Move to another program point of the same call. -/
def Thread.goto (t : Thread) (pc : Pc) : Thread := { t with pc := pc }

/-- The next atomic action of a thread; `spurious` makes a compare-exchange fail. -/
def threadStep (numThreads : ℤ) (spurious : Bool) (c : Counters) (t : Thread) : Counters × Thread :=
  match t.pc with
  | .outside => (c, { t with pc := .entry, entered := t.entered + 1 })
  -- if (m_num_threads > 1)
  | .entry => (c, if 1 < numThreads then t.goto .loadUp else t.ret)
  -- count_up
  | .loadUp => (c, t.goto (.casUp c.up))
  | .casUp expected =>
    if c.up = expected ∧ spurious = false then
      ({ c with up := expected + 1 }, t.goto (if expected = numThreads - 1 then .resetUp else .spinUp))
    else (c, t.goto .loadUp)
  -- `count_up` returned true, which skips the loop on `m_down`
  | .resetUp => ({ c with up := 0 }, t.goto .loadDown)
  | .spinUp => (c, if c.up ≠ 0 then t else t.goto .spinDown)
  -- while (m_counters->m_down == m_num_threads)
  | .spinDown => (c, if c.down = numThreads then t else t.goto .loadDown)
  -- count_down
  | .loadDown => (c, t.goto (.casDown c.down))
  | .casDown ex =>
    if c.down = ex ∧ spurious = false then
      ({ c with down := ex - 1 }, t.goto (if ex = 1 then .resetDown else .awaitDown))
    else (c, t.goto .loadDown)
  | .resetDown => ({ c with down := numThreads }, t.ret)
  | .awaitDown => (c, if c.down ≠ numThreads then t else t.ret)

variable {n : ℕ}

/-- The shared counters and the `n` threads of the pool. -/
structure State (n : ℕ) where
  counters : Counters
  threads : Fin n → Thread

/-- The counters as `barrier::barrier` constructs them, before any call. -/
def init (n : ℕ) : State n := ⟨⟨0, n⟩, fun _ => ⟨.outside, 0, 0⟩⟩

/-- The state after thread `i` has changed the counters to `r.1` and moved to `r.2`. -/
def State.set (s : State n) (i : Fin n) (r : Counters × Thread) : State n :=
  ⟨r.1, Function.update s.threads i r.2⟩

/-- A thread performs its next atomic action; every thread always has one. -/
def next (s : State n) (action : Fin n × Bool) : Option (State n) :=
  some (s.set action.1 (threadStep n action.2 s.counters (s.threads action.1)))

/-- The states of all interleavings of any number of calls by the threads. -/
def Reached (s : State n) : Prop := Reachable (· = init n) (Steps next) s

/-- A thread that would only read a spin condition again and find it unchanged. -/
def Spinning (s : State n) (i : Fin n) : Prop :=
  match (s.threads i).pc with
  | .spinUp => s.counters.up ≠ 0
  | .spinDown => s.counters.down = n
  | .awaitDown => s.counters.down ≠ n
  | _ => False

/-- The thread is between entering and leaving a call. -/
def Thread.Inside (t : Thread) : Prop := t.pc ≠ .outside

end Ghexbench.Barrier
