import Ghexbench.Sync.ThreadPoolRounds

/-!
# The tasks of a run

What `benchmark::run` has the thread pool do. The workers set themselves up, print, check and warm up; after a
`sync` they run the main loop, and after another one they clear their states. At the end the pool is joined.

The barriers between the ranks that follow the calls of `sync` are left out, and so is what the owner measures
and prints.
-/

namespace Ghexbench.P2p

open Ghexbench.Common Ghexbench.ThreadPool

/-- What the tasks call: `hwmalloc::set_device_id`, which is only there with `P2P_ENABLE_DEVICE`, and the
methods of `benchmark`. -/
inductive Task
  | setDeviceId
  | init
  | printLocality
  | check
  | warmUp
  | mainLoop
  | clear
  deriving DecidableEq, Repr

/-- What is scheduled for a worker before the first `sync`. -/
def prologue (device : Bool) : List Task :=
  (if device then [.setDeviceId] else []) ++ [.init, .printLocality, .check, .warmUp]

/-- The calls of the owner up to `join`. -/
def runCalls (device : Bool) (threads : ℕ) : List (Call Task threads) :=
  forEach threads (prologue device) ++ [.sync] ++ forEach threads [.mainLoop] ++ [.sync] ++
    forEach threads [.clear] ++ [.sync]

/-- The calls of the owner. -/
def runProgram (device : Bool) (threads : ℕ) : List (Call Task threads) := runCalls device threads ++ [.join]

/-- Whether a task contains barriers of all workers. -/
def Task.waits : Task → Bool
  | printLocality => true
  | check => true
  | warmUp => true
  | mainLoop => true
  | _ => false

/-- What a worker is given. -/
def tasks (device : Bool) : List (Job Task) :=
  (prologue device).map .user ++ [.noop, .user .mainLoop, .noop, .user .clear, .noop]

variable {device : Bool} {threads : ℕ}

/-- Every worker is given the same tasks. -/
theorem given_runCalls (i : Fin threads) : given i (runCalls device threads) = tasks device := by
  simp only [runCalls, given_append, given_forEach, given_sync, tasks, List.append_assoc]
  rfl

/-- The program does not join the pool before the end. -/
theorem join_not_mem_runCalls : .join ∉ runCalls device threads := by
  simp only [runCalls, List.mem_append, List.mem_singleton, reduceCtorEq, or_false, not_or]
  exact ⟨⟨join_not_mem_forEach, join_not_mem_forEach⟩, join_not_mem_forEach⟩

/-- Every `sync` comes when all workers have been given the same tasks. -/
theorem balanced_runCalls : ThreadPool.Balanced (runCalls device threads) := by
  have hprologue : ThreadPool.Balanced (forEach threads (prologue device)) := balanced_nil.forEach _
  exact (((hprologue.sync'.forEach [.mainLoop]).sync').forEach [.clear]).sync'

/-- In every interleaving of a run, each worker runs its tasks in order and with its own id. None begins
something that comes behind a task with barriers before all workers have begun that task. None begins
`main_loop` before all have finished what comes in front of the first `sync`, and none begins `clear` before
all have finished `main_loop`. When the owner has joined the pool, every worker has finished its tasks and
left its loop, and until then somebody can go on, although some tasks wait for the other workers. -/
theorem run_in_order (device : Bool) (threads : ℕ) (s : ThreadPool.State Task threads)
    (h : CollectiveReached Task.waits (runProgram device threads) s) :
    (∀ i, (s.workers i).taken <+: tasks device ∧ ∀ r ∈ (s.workers i).finished, r.2 = i.val) ∧
    (∀ task pre post later, tasks device = pre ++ .user task :: post → task.waits = true →
      later ∉ pre ++ [.user task] → ∀ i, later ∈ (s.workers i).taken →
        ∀ j, .user task ∈ (s.workers j).taken) ∧
    (∀ i, .user .mainLoop ∈ (s.workers i).taken →
      ∀ j, (prologue device).map .user <+: (s.workers j).finished.map Prod.fst) ∧
    (∀ i, .user .clear ∈ (s.workers i).taken →
      ∀ j, .user .mainLoop ∈ (s.workers j).finished.map Prod.fst) ∧
    (s.pc = .idle → s.program = [] → ∀ i, (s.workers i).pc = .exited ∧
      (s.workers i).finished.map Prod.fst = tasks device) ∧
    ((s.pc = .idle → s.program ≠ []) →
      (∃ i t, MayEnd Task.waits s (.worker i) ∧ workerStep s i = some t) ∨
        ((∃ t, ownerStep s = some t) ∧ ¬ s.Polling)) := by
  obtain ⟨htaken, hend, hprogress⟩ := h.orderly join_not_mem_runCalls balanced_runCalls
  simp only [given_runCalls] at htaken hend
  refine ⟨htaken, ?_, fun i hmain j => ?_, fun i hclear j => ?_, hend, hprogress⟩
  · intro task pre post later htasks hwaits hnot i hlater j
    have hlength : pre.length + 1 = (pre ++ [Job.user task]).length := by simp
    refine h.mem_taken join_not_mem_runCalls (k := pre.length) (fun i => ?_) hwaits hlater ?_ j
    · rw [given_runCalls, htasks, List.getElem?_append_right le_rfl, Nat.sub_self]
      rfl
    · rwa [given_runCalls, htasks, List.append_cons, hlength, List.take_left]
  · have hcalls : runCalls device threads = forEach threads (prologue device) ++
        .sync :: (forEach threads [.mainLoop] ++ [.sync] ++ forEach threads [.clear] ++ [.sync]) := by
      simp only [runCalls, List.append_assoc, List.cons_append, List.nil_append]
    have hfinished := finished_of_mem_taken hcalls join_not_mem_runCalls h.reached hmain
      (by rw [given_append, given_forEach, given_sync]; cases device <;> decide) j
    rwa [given_forEach] at hfinished
  · have hcalls : runCalls device threads =
        (forEach threads (prologue device) ++ [.sync] ++ forEach threads [.mainLoop]) ++
          .sync :: (forEach threads [.clear] ++ [.sync]) := by
      simp only [runCalls, List.append_assoc, List.cons_append, List.nil_append]
    have hfinished := finished_of_mem_taken hcalls join_not_mem_runCalls h.reached hclear
      (by simp only [given_append, given_forEach, given_sync]; cases device <;> decide) j
    simp only [given_append, given_forEach, given_sync] at hfinished
    exact hfinished.mem (by simp)

/-- The workers in turn. -/
def workersInTurn (rounds : ℕ) : List (ThreadPool.Action 2) :=
  (List.replicate rounds ((List.finRange 2).map .worker)).flatten

/-- The owner and the workers take turns until one worker has been given its last task and begins it. -/
def runSchedule (i : Fin 2) : List (ThreadPool.Action 2) :=
  List.replicate 32 .owner ++ workersInTurn 10 ++ List.replicate 17 .owner ++ workersInTurn 4 ++
    List.replicate 6 .owner ++ [.worker i]

/-- Worker 0 is in `clear`, and worker 1 has not been given it yet. -/
theorem run_in_order_clear : ∃ s : ThreadPool.State Task 2,
    runActions (nextWhen (MayEnd Task.waits) next) (ThreadPool.init (runProgram false 2)) (runSchedule 0) =
      some s ∧
    (s.workers 0).pc = .busy (.user .clear) ∧
    .user .mainLoop ∈ (s.workers 1).finished.map Prod.fst := by
  refine ⟨_, rfl, rfl, ?_⟩
  have hrun := run_in_order false 2 _ (reachable_of_nextWhen (runSchedule 0) rfl rfl)
  exact hrun.2.2.2.1 0 (by decide) 1

end Ghexbench.P2p
