import Ghexbench.Sync.ThreadPoolRounds

/-!
# The tasks of the program

What `main` has the thread pool do: every worker runs `runtime::init`, `runtime::exchange` and
`runtime::exit` for its domain. A `sync` separates the first from the second, and `join` comes at the end.

The barrier between the ranks that follows the `sync` is left out, and so is `set_device`.
-/

namespace Ghexbench.Cartex

open Ghexbench.Common Ghexbench.ThreadPool

/-- The methods of `runtime` that the tasks call. -/
inductive Task
  | init
  | exchange
  | exit
  deriving DecidableEq, Repr

/-- The calls of the owner up to `join`. -/
def mainCalls (numThreads : ℕ) : List (ThreadPool.Call Task numThreads) :=
  forEach numThreads [.init] ++ [.sync] ++ forEach numThreads [.exchange, .exit]

/-- The calls of the owner. -/
def mainProgram (numThreads : ℕ) : List (ThreadPool.Call Task numThreads) := mainCalls numThreads ++ [.join]

/-- Whether a task waits for the other workers: `exchange` does, unless no main step is made at all. -/
def Task.waits (meets : Bool) : Task → Bool
  | exchange => meets
  | _ => false

/-- What a worker is given. -/
def tasks : List (Job Task) := [.user .init, .noop, .user .exchange, .user .exit]

variable {numThreads : ℕ} {meets : Bool} {s : ThreadPool.State Task numThreads}

/-- Every worker is given the same tasks. -/
theorem given_mainCalls (i : Fin numThreads) : given i (mainCalls numThreads) = tasks := by
  rw [mainCalls, given_append, given_append, given_forEach, given_forEach, given_sync]
  rfl

/-- The program does not join the pool before the end. -/
theorem join_not_mem_mainCalls : .join ∉ mainCalls numThreads := by
  simp only [mainCalls, List.mem_append, List.mem_singleton, reduceCtorEq, or_false, not_or]
  constructor <;> exact join_not_mem_forEach

/-- The `sync` comes when all workers have been given the same tasks. -/
theorem balanced_mainCalls : Balanced (mainCalls numThreads) := by
  have hinit := balanced_nil.forEach (n := numThreads) [Task.init]
  exact hinit.sync'.forEach [.exchange, .exit]

/-- In every interleaving of a run of `main`, each worker runs `init`, the empty job of `sync`, `exchange` and
`exit`, in this order and with its own id. No worker begins `exchange` before all have finished `init`, and
none begins `exit` before all have begun `exchange`. When the owner has joined the pool, every worker has
finished its tasks and left its loop, and until then somebody can go on, although `exchange` waits for the
other workers. -/
theorem tasks_in_order (numThreads : ℕ) (meets : Bool) (s : ThreadPool.State Task numThreads)
    (h : CollectiveReached (Task.waits meets) (mainProgram numThreads) s) :
    (∀ i, (s.workers i).taken <+: tasks ∧ ∀ r ∈ (s.workers i).finished, r.2 = i.val) ∧
    (∀ i, .user .exchange ∈ (s.workers i).taken →
      ∀ j, .user .init ∈ (s.workers j).finished.map Prod.fst) ∧
    (meets = true → ∀ i, .user .exit ∈ (s.workers i).taken →
      ∀ j, .user .exchange ∈ (s.workers j).taken) ∧
    (s.pc = .idle → s.program = [] → ∀ i, (s.workers i).pc = .exited ∧
      (s.workers i).finished.map Prod.fst = tasks) ∧
    ((s.pc = .idle → s.program ≠ []) →
      (∃ i t, MayEnd (Task.waits meets) s (.worker i) ∧ workerStep s i = some t) ∨
        ((∃ t, ownerStep s = some t) ∧ ¬ s.Polling)) := by
  obtain ⟨htaken, hend, hprogress⟩ := h.orderly join_not_mem_mainCalls balanced_mainCalls
  simp only [given_mainCalls] at htaken hend
  refine ⟨htaken, fun i hexchange j => ?_, fun hmeets i hexit j => ?_, hend, hprogress⟩
  · have hcalls : mainCalls numThreads =
        forEach numThreads [.init] ++ .sync :: forEach numThreads [.exchange, .exit] := List.append_assoc _ _ _
    have hfinished := finished_of_mem_taken hcalls join_not_mem_mainCalls h.reached hexchange
      (by rw [given_append, given_forEach, given_sync]; decide) j
    rw [given_forEach] at hfinished
    exact hfinished.mem (by simp)
  · have hwaits : Task.waits meets .exchange = true := hmeets
    refine h.mem_taken join_not_mem_mainCalls (k := 2) (fun i => ?_) hwaits hexit ?_ j
    · rw [given_mainCalls]
      rfl
    · rw [given_mainCalls]
      decide

/-- The owner goes on until it has nothing more to do, then the workers do, and again. -/
def mainSchedule (i j : Fin 2) : List (ThreadPool.Action 2) :=
  List.replicate 14 .owner ++ List.replicate 4 (.worker i) ++ List.replicate 4 (.worker j) ++
    List.replicate 15 .owner ++ [.worker i, .worker j, .worker i, .worker i]

/-- Worker 0 is in `exit`, and worker 1 still in `exchange`. -/
theorem tasks_in_order_exit : ∃ s : ThreadPool.State Task 2,
    runActions (nextWhen (MayEnd (Task.waits true)) next) (ThreadPool.init (mainProgram 2))
      (mainSchedule 0 1) = some s ∧
    (s.workers 0).pc = .busy (.user .exit) ∧ (s.workers 1).pc = .busy (.user .exchange) ∧
    .user .init ∈ (s.workers 1).finished.map Prod.fst ∧ .user .exchange ∈ (s.workers 1).taken := by
  refine ⟨_, rfl, rfl, rfl, ?_⟩
  have htasks := tasks_in_order 2 true _ (reachable_of_nextWhen (mainSchedule 0 1) rfl rfl)
  exact ⟨htasks.2.1 0 (by decide) 1, htasks.2.2.1 rfl 0 (by decide) 1⟩

end Ghexbench.Cartex
