import Ghexbench.Sync.ThreadPoolOwner

/-!
# Correctness of the thread pool

What the invariant says about whole runs: no job is lost, duplicated or reordered, `sync`
waits for everything scheduled before it, `join` leaves nothing behind, a joined pool stays
as it is, and until the owner has completed its program somebody can always go on.
-/

namespace Ghexbench.ThreadPool

open Ghexbench.Common

variable {J : Type*} {n : ℕ} {program : List (Call J n)} {s t : State J n}

/-- Every step of the pool keeps the invariant. -/
theorem Inv.step (h : Inv s) {action : Action n} (hstep : next s action = some t) : Inv t := by
  cases action with
  | owner => exact h.of_ownerStep hstep
  | worker i =>
    obtain ⟨w, rfl, hmove⟩ := workerStep_move hstep
    exact h.setWorker hmove
  | spurious i =>
    simp only [next, spuriousStep] at hstep
    split at hstep
    · simp only [Option.some.injEq] at hstep
      exact hstep ▸ h.wake
    · cases hstep

/-- The invariant holds in every state of every run. -/
theorem Reached.inv (h : Reached program s) : Inv s := by
  apply Reachable.invariant _ _ h
  · intro s₀ hs₀
    subst hs₀
    exact inv_init program
  · intro s t hinv hnext
    obtain ⟨action, hstep⟩ := hnext
    exact hinv.step hstep

/-- Once the pool is joined, all that was accepted is finished. -/
theorem Inv.finished_of_joined (h : Inv s) (hj : s.joined = true) (i : Fin n) :
    (s.workers i).finished.map Prod.fst = s.accepted i := by
  have hexited := h.joined hj i
  rw [← h.jobs i, Worker.jobs, (h.exited i hexited).1]
  simp [Worker.current, hexited]

/-- A worker that is not at rest can make its next step. -/
theorem workerStep_isSome {i : Fin n} (hblocked : (s.workers i).pc ≠ .blocked)
    (hexited : (s.workers i).pc ≠ .exited) : ∃ t, workerStep s i = some t := by
  unfold workerStep
  cases hpc : (s.workers i).pc with
  | lockQueue =>
    simp only [hpc]
    split
    · cases (s.workers i).queue <;> exact ⟨_, rfl⟩
    · exact ⟨_, rfl⟩
  | busy job =>
    simp only [hpc]
    exact ⟨_, rfl⟩
  | blocked => exact absurd hpc hblocked
  | exited => exact absurd hpc hexited

/-- The owner waits only for a worker to exit, and ends only with its program. -/
theorem ownerStep_isSome (hwait : ∀ i, s.pc = .joinWait i → (s.workers i).pc = .exited)
    (hidle : s.pc = .idle → s.program ≠ []) : ∃ t, ownerStep s = some t := by
  unfold ownerStep
  cases hpc : s.pc with
  | idle =>
    simp only
    cases hprogram : s.program with
    | nil => exact absurd hprogram (hidle hpc)
    | cons call rest => cases call <;> exact ⟨_, rfl⟩
  | push threadId job ret => exact ⟨_, rfl⟩
  | notify threadId job ret => exact ⟨_, rfl⟩
  | syncSchedule j before =>
    simp only
    split <;> exact ⟨_, rfl⟩
  | syncCount j found before =>
    simp only
    split
    · exact ⟨_, rfl⟩
    · split <;> exact ⟨_, rfl⟩
  | joinLock => exact ⟨_, rfl⟩
  | joinNotify i =>
    simp only
    split <;> exact ⟨_, rfl⟩
  | joinWait i =>
    simp only [hwait i hpc]
    exact ⟨_, rfl⟩

/-- Before the owner has completed its program, a worker can go on, or the owner can, and then
not only by counting queues that are still not empty. -/
theorem Inv.progress (h : Inv s) (hdone : s.pc = .idle → s.program ≠ []) :
    (∃ i t, workerStep s i = some t) ∨ ((∃ t, ownerStep s = some t) ∧ ¬ s.Polling) := by
  have howner := h.owner
  by_cases hpoll : s.Polling
  · -- a worker with a queue is not blocked, because the owner does not owe it a notification
    obtain ⟨⟨j, found, before, hpc⟩, i, hqueue⟩ := hpoll
    refine Or.inl ⟨i, workerStep_isSome (fun hb => ?_) fun he => hqueue (h.exited i he).1⟩
    cases h.blocked i hb with
    | inl hempty => exact hqueue hempty.1
    | inr hnotify => simp [hpc, OwnerPc.WillNotify] at hnotify
  by_cases hwait : ∃ i, s.pc = .joinWait i ∧ (s.workers i).pc ≠ .exited
  · -- the awaited worker has been notified after the pool was stopped
    obtain ⟨i, hpc, hexited⟩ := hwait
    rw [hpc] at howner
    refine Or.inl ⟨i, workerStep_isSome (fun hb => ?_) hexited⟩
    cases h.blocked i hb with
    | inl hempty => exact absurd hempty.2 (by simp [howner.1])
    | inr hnotify => simp [hpc, OwnerPc.WillNotify] at hnotify
  · push Not at hwait
    exact Or.inr ⟨ownerStep_isSome hwait hdone, hpoll⟩

end Ghexbench.ThreadPool
