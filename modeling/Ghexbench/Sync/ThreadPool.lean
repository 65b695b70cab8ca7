import Ghexbench.Common.Transition
import Mathlib.Data.Fintype.Basic
import Mathlib.Logic.Function.Basic

/-!
# The thread pool

`thread_pool`: the owning thread calls `schedule`, `sync` and `join`, and each worker takes
jobs from its own queue. A lock region is one step. A worker that finds its wait predicate
false releases the lock and blocks in one step; it wakes up when notified or spuriously, and
then evaluates the predicate again under the lock. A notification that finds nobody blocked
is lost.

The owner runs an arbitrary list of calls. `join` changes `m_running` while it holds all
locks, which is one step here because no worker can be inside a lock region of its own then.
Jobs terminate, but when they do is left to the interleaving.
-/

namespace Ghexbench.ThreadPool

open Ghexbench.Common

/-- What is queued: a function given to `schedule`, or the empty one that `sync` schedules. -/
inductive Job (J : Type*)
  | user (job : J)
  | noop
  deriving DecidableEq, Repr

/-- Where a worker stands in its loop. -/
inductive WorkerPc (J : Type*)
  | lockQueue
  | blocked
  | busy (job : Job J)
  | exited
  deriving DecidableEq, Repr

/-- A `thread_wrapper` with the thread that serves it: its queue, and the jobs it has
finished together with the thread id it called them with, oldest first. -/
structure Worker (J : Type*) where
  pc : WorkerPc J
  queue : List (Job J)
  finished : List (Job J × ℕ)

/-- The calls that the owning thread can make. -/
inductive Call (J : Type*) (n : ℕ)
  | schedule (threadId : Fin n) (job : J)
  | sync
  | join

/-- Where a call of `schedule` returns to: the owner's program or the loop in `sync`, which
goes on with thread `j`. `before` counts the jobs accepted for each worker when that `sync`
was called. -/
inductive Return (n : ℕ)
  | caller
  | sync (j : ℕ) (before : Fin n → ℕ)

/-- Where the owner stands; `found` is the number of non-empty queues that `sync` has seen. -/
inductive OwnerPc (J : Type*) (n : ℕ)
  | idle
  | push (threadId : Fin n) (job : Job J) (ret : Return n)
  | notify (threadId : Fin n) (job : Job J) (ret : Return n)
  | syncSchedule (j : ℕ) (before : Fin n → ℕ)
  | syncCount (j found : ℕ) (before : Fin n → ℕ)
  | joinLock
  | joinNotify (i : ℕ)
  | joinWait (i : Fin n)

/-- The pool with its owner. `results` records what the calls of `schedule` returned, and
`synced` the jobs accepted for each worker before the latest `sync` that has returned. -/
structure State (J : Type*) (n : ℕ) where
  workers : Fin n → Worker J
  running : Bool
  joined : Bool
  program : List (Call J n)
  pc : OwnerPc J n
  results : List (Fin n × Job J × Bool)
  synced : Fin n → ℕ

variable {J : Type*} {n : ℕ}

/-- The pool after its constructor, and the calls its owner is going to make. -/
def init (program : List (Call J n)) : State J n where
  workers _ := ⟨.lockQueue, [], []⟩
  running := true
  joined := false
  program := program
  pc := .idle
  results := []
  synced _ := 0

/-- The jobs for which `schedule` has returned true, in the order of the calls. -/
def State.returned (s : State J n) (i : Fin n) : List (Job J) :=
  s.results.filterMap fun r => if r.1 = i ∧ r.2.2 = true then some r.2.1 else none

/-- The job that is queued and for which `schedule` is about to return true. -/
def OwnerPc.pending (pc : OwnerPc J n) (i : Fin n) : List (Job J) :=
  match pc with
  | .notify threadId job _ => if threadId = i then [job] else []
  | _ => []

/-- All jobs accepted for worker `i`. -/
def State.accepted (s : State J n) (i : Fin n) : List (Job J) := s.returned i ++ s.pc.pending i

/-- Replace the state of one worker. -/
def State.setWorker (s : State J n) (i : Fin n) (w : Worker J) : State J n :=
  { s with workers := Function.update s.workers i w }

/-- `notify_one` on the condition variable of a worker. -/
def State.wake (s : State J n) (i : Fin n) : State J n :=
  match (s.workers i).pc with
  | .blocked => s.setWorker i { s.workers i with pc := .lockQueue }
  | _ => s

/-- Where the owner goes on after `schedule`. -/
def Return.pc : Return n → OwnerPc J n
  | .caller => .idle
  | .sync j before => .syncSchedule j before

/-- The beginning of `schedule_impl`: a joined pool rejects the job. -/
def State.schedule (s : State J n) (threadId : Fin n) (job : Job J) (ret : Return n) : State J n :=
  if s.joined then { s with pc := ret.pc, results := s.results ++ [(threadId, job, false)] }
  else { s with pc := .push threadId job ret }

/-- The next step of the owner; there is none at the end of its program and while the thread
it joins has not exited. -/
def ownerStep (s : State J n) : Option (State J n) :=
  match s.pc with
  | .idle =>
    match s.program with
    | [] => none
    | .schedule threadId job :: rest =>
      some ({ s with program := rest }.schedule threadId (.user job) .caller)
    | .sync :: rest =>
      some { s with program := rest, pc := .syncSchedule 0 fun i => (s.accepted i).length }
    | .join :: rest => some { s with program := rest, pc := if s.joined then .idle else .joinLock }
  -- schedule_impl: the queue is changed under the lock, the notification comes after it
  | .push threadId job ret =>
    let w := s.workers threadId
    some { s.setWorker threadId { w with queue := w.queue ++ [job] } with
      pc := .notify threadId job ret }
  | .notify threadId job ret =>
    some { s.wake threadId with pc := ret.pc, results := s.results ++ [(threadId, job, true)] }
  -- sync
  | .syncSchedule j before =>
    if h : j < n then some (s.schedule ⟨j, h⟩ .noop (.sync (j + 1) before))
    else some { s with pc := .syncCount 0 0 before }
  | .syncCount j found before =>
    if h : j < n then
      let nonEmpty := (s.workers ⟨j, h⟩).queue.length > 0
      some { s with pc := .syncCount (j + 1) (if nonEmpty then found + 1 else found) before }
    else if found ≠ 0 then some { s with pc := .syncCount 0 0 before }
    else some { s with pc := .idle, synced := before }
  -- join
  | .joinLock => some { s with running := false, pc := .joinNotify 0 }
  | .joinNotify i =>
    if h : i < n then some { s.wake ⟨i, h⟩ with pc := .joinWait ⟨i, h⟩ }
    else some { s with joined := true, pc := .idle }
  | .joinWait i =>
    match (s.workers i).pc with
    | .exited => some { s with pc := .joinNotify (i.val + 1) }
    | _ => none

/-- The next step of worker `i`: its lock region, or the end of the job it is running. -/
def workerStep (s : State J n) (i : Fin n) : Option (State J n) :=
  let w := s.workers i
  match w.pc with
  | .lockQueue =>
    -- [this, &t] { return !t.m_queue.empty() || !m_running; }
    if w.queue ≠ [] ∨ s.running = false then
      match w.queue with
      | [] => some (s.setWorker i { w with pc := .exited })
      | job :: rest => some (s.setWorker i { w with pc := .busy job, queue := rest })
    else some (s.setWorker i { w with pc := .blocked })
  | .busy job =>
    some (s.setWorker i { w with pc := .lockQueue, finished := w.finished ++ [(job, i.val)] })
  | .blocked => none
  | .exited => none

/-- A spurious wake-up of worker `i`. -/
def spuriousStep (s : State J n) (i : Fin n) : Option (State J n) :=
  match (s.workers i).pc with
  | .blocked => some (s.wake i)
  | _ => none

/-- Who makes the next step. -/
inductive Action (n : ℕ)
  | owner
  | worker (i : Fin n)
  | spurious (i : Fin n)
  deriving DecidableEq, Repr

/-- The next step of the pool. -/
def next (s : State J n) : Action n → Option (State J n)
  | .owner => ownerStep s
  | .worker i => workerStep s i
  | .spurious i => spuriousStep s i

/-- The states of all interleavings of a program with the workers. -/
def Reached (program : List (Call J n)) (s : State J n) : Prop :=
  Reachable (· = init program) (Steps next) s

/-- The job a worker is running. -/
def Worker.current (w : Worker J) : List (Job J) :=
  match w.pc with
  | .busy job => [job]
  | _ => []

/-- All jobs a worker was given, in the order in which it takes them. -/
def Worker.jobs (w : Worker J) : List (Job J) := w.finished.map Prod.fst ++ w.current ++ w.queue

/-- `sync` is counting the non-empty queues and there still is one. -/
def State.Polling (s : State J n) : Prop :=
  (∃ j found before, s.pc = .syncCount j found before) ∧ ∃ i, (s.workers i).queue ≠ []

end Ghexbench.ThreadPool
