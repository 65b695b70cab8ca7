import Ghexbench.Common.Counting
import Ghexbench.Common.Transition

/-!
# The broadcast of the timed loop

`sync_loop::bcast`: thread 0 publishes its value in `m_dt`, the threads pass `m_count_up` in
the order of their ids, read `m_dt` and leave through `m_count_down`. Every load, store and
compare-exchange is one step of one thread, sequentially consistent, and a failed
compare-exchange restarts with a fresh expected value as the source does. A round of
thread `i` is one call `bcast(dt, i)`; `values i k` is the `dt` it passes in round `k`.

The counters are unsigned. `m_count_down` is decremented only when it is positive (see
`Release.drop`), so the natural-number subtraction below is the unsigned one.
-/

namespace Ghexbench.Bcast

open Ghexbench.Common

variable {V : Type*}

/-- Where a thread stands in `bcast`; `ex_d` is its local copy of the down counter. -/
inductive Pc
  | outside
  | storeDt
  | casUp
  | resetUp
  | spinUp
  | readDt
  | loadDown
  | casDown (ex_d : ℕ)
  | resetDown
  | awaitDown
  deriving DecidableEq, Repr

/-- A thread with its variable `dt`, the rounds it has entered and the values with which it
has returned, oldest first. -/
structure Thread (V : Type*) where
  pc : Pc
  dt : V
  entered : ℕ
  results : List V

/-- The members `m_count_up`, `m_count_down` and `m_dt` that all threads share. -/
structure Shared (V : Type*) where
  countUp : ℕ
  countDown : ℕ
  dt : V

/-- Leave `bcast`, with `dt` as the value handed back by reference. -/
def Thread.ret (t : Thread V) : Thread V := { t with pc := .outside, results := t.results ++ [t.dt] }

/-- Move to another program point of the same call. -/
def Thread.goto (t : Thread V) (pc : Pc) : Thread V := { t with pc := pc }

/-- The next atomic action of thread `id`; `spurious` makes a compare-exchange fail, and
`value` is the argument if the thread starts a new round. -/
def threadStep (numThreads id : ℕ) (value : V) (spurious : Bool) (c : Shared V) (t : Thread V) :
    Shared V × Thread V :=
  match t.pc with
  -- if (thread_id == 0) m_dt = dt
  | .outside => (c, { t with
      pc := if id = 0 then .storeDt else .casUp, dt := value, entered := t.entered + 1 })
  | .storeDt => ({ c with dt := t.dt }, t.goto .casUp)
  -- the expected value is the thread id in every attempt
  | .casUp =>
    if c.countUp = id ∧ spurious = false then
      ({ c with countUp := id + 1 }, t.goto (if id = numThreads - 1 then .resetUp else .spinUp))
    else (c, t)
  | .resetUp => ({ c with countUp := 0 }, t.goto .readDt)
  | .spinUp => (c, if c.countUp ≠ 0 then t else t.goto .readDt)
  | .readDt => (c, { t with pc := .loadDown, dt := c.dt })
  | .loadDown => (c, t.goto (.casDown c.countDown))
  | .casDown ex_d =>
    if c.countDown = ex_d ∧ spurious = false then
      ({ c with countDown := ex_d - 1 }, t.goto (if ex_d = 1 then .resetDown else .awaitDown))
    else (c, t.goto .loadDown)
  | .resetDown => ({ c with countDown := numThreads }, t.ret)
  | .awaitDown => (c, if c.countDown ≠ numThreads then t else t.ret)

variable {n : ℕ}

/-- The shared members and the `n` threads of a rank. -/
structure State (V : Type*) (n : ℕ) where
  shared : Shared V
  threads : Fin n → Thread V

/-- The state after `sync_loop::sync_loop`; `m_dt` and the local variables are arbitrary. -/
def init (n : ℕ) (dt : V) (locals : Fin n → V) : State V n :=
  ⟨⟨0, n, dt⟩, fun i => ⟨.outside, locals i, 0, []⟩⟩

/-- The state after thread `i` has changed the shared members to `r.1` and moved to `r.2`. -/
def State.set (s : State V n) (i : Fin n) (r : Shared V × Thread V) : State V n :=
  ⟨r.1, Function.update s.threads i r.2⟩

/-- A thread performs its next atomic action; every thread always has one. -/
def next (values : Fin n → ℕ → V) (s : State V n) (action : Fin n × Bool) : Option (State V n) :=
  let i := action.1
  let t := s.threads i
  some (s.set i (threadStep n i (values i t.entered) action.2 s.shared t))

/-- The states of all interleavings of any number of rounds. -/
def Reached (values : Fin n → ℕ → V) (s : State V n) : Prop :=
  Reachable (fun s₀ => ∃ dt locals, s₀ = init n dt locals) (Steps (next values)) s

/-- A thread that would only read a spin condition again and find it unchanged. -/
def Spinning (s : State V n) (i : Fin n) : Prop :=
  match (s.threads i).pc with
  | .casUp => s.shared.countUp ≠ i
  | .spinUp => s.shared.countUp ≠ 0
  | .awaitDown => s.shared.countDown ≠ n
  | _ => False

/-- The thread is between entering and leaving a call. -/
def Thread.Inside (t : Thread V) : Prop := t.pc ≠ .outside

/-- The number of rounds in which the thread has read `m_dt`. -/
def Thread.reads (t : Thread V) : ℕ :=
  t.results.length + match t.pc with
    | .loadDown | .casDown _ | .resetDown | .awaitDown => 1
    | _ => 0

end Ghexbench.Bcast
