import Ghexbench.Sync.ThreadPool
import Mathlib.Tactic.Linarith

/-!
# The invariant of the thread pool

What a worker has finished, is running and has queued is always what was accepted for it. A
worker is blocked only while it has nothing to do, or while the owner is about to notify it,
and it has left its loop only if it was told to stop and had drained its queue. The moves of
the workers keep all this, whatever the owner is doing.
-/

namespace Ghexbench.ThreadPool

open Ghexbench.Common

variable {J : Type*} {n : ℕ}

/-- The owner is going to notify worker `i` before it waits for anything that needs it. -/
def OwnerPc.WillNotify (pc : OwnerPc J n) (i : Fin n) : Prop :=
  match pc with
  | .notify threadId _ _ => threadId = i
  | .joinNotify j => j ≤ i.val
  | .joinWait j => j.val < i.val
  | _ => False

/-- The jobs counted by `before` are accepted, and unless the pool rejects all jobs, one more
is accepted for the workers in `p`: the empty job of the `sync` in progress. -/
def State.Marked (s : State J n) (before : Fin n → ℕ) (p : Fin n → Prop) : Prop :=
  ∀ i, before i ≤ (s.accepted i).length ∧
    (p i → s.joined = false → before i + 1 ≤ (s.accepted i).length)

/-- What the `sync` in progress, if any, has established inside `schedule`; the workers in
`p` have not been given the empty job of this call yet. -/
def Return.Ok (ret : Return n) (s : State J n) (p : Fin n → Prop) : Prop :=
  match ret with
  | .caller => True
  | .sync j before => s.Marked before fun i => i.val < j ∧ ¬ p i

/-- The flags at every point of the owner, and what the call in progress has established. -/
def OwnerOk (s : State J n) : OwnerPc J n → Prop
  | .idle => s.running = !s.joined
  | .push threadId _ ret => s.running = true ∧ s.joined = false ∧ ret.Ok s (threadId = ·)
  | .notify _ _ ret => s.running = true ∧ s.joined = false ∧ ret.Ok s fun _ => False
  | .syncSchedule j before => s.running = !s.joined ∧ s.Marked before (·.val < j)
  | .syncCount j found before => s.running = !s.joined ∧ s.Marked before (fun _ => True) ∧
      (found = 0 → ∀ i : Fin n, i.val < j → (s.workers i).queue = [])
  | .joinLock => s.running = true ∧ s.joined = false
  | .joinNotify j => s.running = false ∧ s.joined = false ∧
      ∀ i : Fin n, i.val < j → (s.workers i).pc = .exited
  | .joinWait j => s.running = false ∧ s.joined = false ∧
      ∀ i : Fin n, i.val < j.val → (s.workers i).pc = .exited

/-- The invariant of the pool. -/
structure Inv (s : State J n) : Prop where
  jobs : ∀ i, (s.workers i).jobs = s.accepted i
  ids : ∀ i, ∀ r ∈ (s.workers i).finished, r.2 = i.val
  blocked : ∀ i, (s.workers i).pc = .blocked →
    ((s.workers i).queue = [] ∧ s.running = true) ∨ s.pc.WillNotify i
  exited : ∀ i, (s.workers i).pc = .exited → (s.workers i).queue = [] ∧ s.running = false
  joined : s.joined = true → ∀ i, (s.workers i).pc = .exited
  owner : OwnerOk s s.pc
  synced : ∀ i, s.synced i ≤ (s.workers i).finished.length

/-- The pool starts with empty queues. -/
theorem inv_init (program : List (Call J n)) : Inv (init program) where
  jobs i := rfl
  ids i r hr := by simp [init] at hr
  blocked i hi := by simp [init] at hi
  exited i hi := by simp [init] at hi
  joined hj := by simp [init] at hj
  owner := by simp [OwnerOk, init]
  synced i := Nat.zero_le _

section Worker

variable {s t : State J n} {i : Fin n}

/-- What a step of worker `i` does to it: its jobs stay the same, it may finish one, and it
blocks or exits only with an empty queue. -/
structure WorkerMove (running : Bool) (i : Fin n) (w w' : Worker J) : Prop where
  active : w.pc ≠ .exited
  jobs : w'.jobs = w.jobs
  finished : w'.finished = w.finished ∨ ∃ job, w'.finished = w.finished ++ [(job, i.val)]
  queue : w.queue = [] → w'.queue = []
  blocked : w'.pc = .blocked → w'.queue = [] ∧ running = true
  exited : w'.pc = .exited → w'.queue = [] ∧ running = false

/-- A lock region or the end of a job is such a move. -/
theorem workerStep_move (h : workerStep s i = some t) :
    ∃ w, t = s.setWorker i w ∧ WorkerMove s.running i (s.workers i) w := by
  unfold workerStep at h
  cases hpc : (s.workers i).pc with
  | lockQueue =>
    simp only [hpc] at h
    split at h
    · next hpred =>
      cases hq : (s.workers i).queue with
      | nil =>
        have hstop : s.running = false := hpred.resolve_left (by simp [hq])
        simp only [hq, Option.some.injEq] at h
        exact ⟨_, h.symm, by simp [hpc], by simp [Worker.jobs, Worker.current, hpc, hq],
          Or.inl rfl, by simp, by simp, by simp [hstop]⟩
      | cons job rest =>
        simp only [hq, Option.some.injEq] at h
        exact ⟨_, h.symm, by simp [hpc], by simp [Worker.jobs, Worker.current, hpc, hq],
          Or.inl rfl, by simp [hq], by simp, by simp⟩
    · next hpred =>
      simp only [ne_eq, not_or, not_not, Bool.not_eq_false] at hpred
      simp only [Option.some.injEq] at h
      exact ⟨_, h.symm, by simp [hpc], by simp [Worker.jobs, Worker.current, hpc],
        Or.inl rfl, id, fun _ => hpred, by simp⟩
  | busy job =>
    simp only [hpc, Option.some.injEq] at h
    exact ⟨_, h.symm, by simp [hpc], by simp [Worker.jobs, Worker.current, hpc],
      Or.inr ⟨job, rfl⟩, id, by simp, by simp⟩
  | blocked => simp [hpc] at h
  | exited => simp [hpc] at h

/-- So is a wake-up, notified or spurious. -/
theorem wake_move (hpc : (s.workers i).pc = .blocked) :
    WorkerMove s.running i (s.workers i) { s.workers i with pc := .lockQueue } :=
  ⟨by simp [hpc], by simp [Worker.jobs, Worker.current, hpc], Or.inl rfl, id, by simp, by simp⟩

/-- A property of all workers survives a step of one of them that keeps it. -/
theorem State.forall_setWorker {p : Fin n → Worker J → Prop} (h : ∀ j, p j (s.workers j))
    {w : Worker J} (hw : p i w) (j : Fin n) : p j ((s.setWorker i w).workers j) := by
  by_cases hji : j = i
  · subst hji
    simpa [State.setWorker] using hw
  · simpa [State.setWorker, Function.update_of_ne hji] using h j

/-- Moves of the workers keep the invariant. -/
theorem Inv.setWorker (h : Inv s) {w : Worker J} (hm : WorkerMove s.running i (s.workers i) w) :
    Inv (s.setWorker i w) where
  jobs := State.forall_setWorker (p := fun j w => w.jobs = s.accepted j) h.jobs
    (hm.jobs.trans (h.jobs i))
  ids := by
    refine State.forall_setWorker (p := fun j w => ∀ r ∈ w.finished, r.2 = j.val) h.ids ?_
    intro r hr
    rcases hm.finished with hf | ⟨job, hf⟩
    · exact h.ids i r (hf ▸ hr)
    · rw [hf, List.mem_append, List.mem_singleton] at hr
      rcases hr with hr | rfl
      · exact h.ids i r hr
      · rfl
  blocked := State.forall_setWorker
    (p := fun j w => w.pc = .blocked → (w.queue = [] ∧ s.running = true) ∨ s.pc.WillNotify j)
    h.blocked (fun hb => Or.inl (hm.blocked hb))
  exited := State.forall_setWorker
    (p := fun _ w => w.pc = .exited → w.queue = [] ∧ s.running = false) h.exited hm.exited
  joined hj := absurd (h.joined hj i) hm.active
  owner := by
    have hexited (j : ℕ) (hj : ∀ m : Fin n, m.val < j → (s.workers m).pc = .exited) :
        ∀ m : Fin n, m.val < j → ((s.setWorker i w).workers m).pc = .exited :=
      State.forall_setWorker (p := fun m w => m.val < j → w.pc = .exited) hj
        (fun hi => absurd (hj i hi) hm.active)
    have howner := h.owner
    change OwnerOk (s.setWorker i w) s.pc
    cases hpc : s.pc <;> rw [hpc] at howner
    case syncCount j found before =>
      exact ⟨howner.1, howner.2.1, fun hf => State.forall_setWorker
        (p := fun m w => m.val < j → w.queue = []) (howner.2.2 hf)
        (fun hi => hm.queue (howner.2.2 hf i hi))⟩
    case joinNotify j => exact ⟨howner.1, howner.2.1, hexited j howner.2.2⟩
    case joinWait j => exact ⟨howner.1, howner.2.1, hexited j howner.2.2⟩
    all_goals exact howner
  synced := by
    refine State.forall_setWorker (p := fun j w => s.synced j ≤ w.finished.length) h.synced ?_
    have hs := h.synced i
    rcases hm.finished with hf | ⟨job, hf⟩
    · rw [hf]
      exact hs
    · rw [hf, List.length_append]
      exact hs.trans (Nat.le_add_right _ _)

/-- Notifying a worker keeps the invariant. -/
theorem Inv.wake (h : Inv s) : Inv (s.wake i) := by
  unfold State.wake
  cases hpc : (s.workers i).pc with
  | blocked => exact h.setWorker (wake_move hpc)
  | _ => exact h

/-- A notified worker is not blocked. -/
theorem State.wake_not_blocked : ((s.wake i).workers i).pc ≠ .blocked := by
  unfold State.wake
  cases hpc : (s.workers i).pc <;> simp [State.setWorker, hpc]

/-- A notification only changes the worker. -/
theorem State.wake_eq : ∃ workers, s.wake i = { s with workers := workers } := by
  unfold State.wake
  split
  · exact ⟨_, rfl⟩
  · exact ⟨s.workers, rfl⟩

end Worker

end Ghexbench.ThreadPool
