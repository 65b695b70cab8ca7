import Ghexbench.Sync.ThreadPoolCorrect

/-!
# The program of the owner

Before the pool is joined, a worker is given the jobs that the program of the owner has for it, in this
order. A `sync` counts what was accepted when it was called, which is all that the program has in front of
it. Hence no worker is given a job that is behind a `sync` before all workers have finished the jobs in front
of it, in any interleaving.
-/

namespace Ghexbench.ThreadPool

open Ghexbench.Common

variable {J : Type*} {n : ℕ}

/-- The jobs that a call gives a worker of a pool that has not been joined. -/
def Call.given (i : Fin n) : Call J n → List (Job J)
  | .schedule threadId job => if threadId = i then [.user job] else []
  | .sync => [.noop]
  | .join => []

/-- The jobs that calls give a worker. -/
def given (i : Fin n) (calls : List (Call J n)) : List (Job J) := calls.flatMap (Call.given i)

/-- The jobs that the `sync` in progress is still going to give a worker, after `schedule` has returned. -/
def Return.left (ret : Return n) (i : Fin n) : List (Job J) :=
  match ret with
  | .caller => []
  | .sync j _ => if j ≤ i.val then [.noop] else []

/-- The jobs that the call in progress is still going to give a worker. -/
def OwnerPc.left (pc : OwnerPc J n) (i : Fin n) : List (Job J) :=
  match pc with
  | .push threadId job ret => (if threadId = i then [job] else []) ++ ret.left i
  | .notify _ _ ret => ret.left i
  | .syncSchedule j _ => if j ≤ i.val then [.noop] else []
  | _ => []

/-- The jobs that a worker has been given, or is being given by the call in progress. -/
def State.planned (s : State J n) (i : Fin n) : List (Job J) := s.accepted i ++ s.pc.left i

/-- What the `sync` in progress, if any, has counted when it was called. -/
def Return.marks : Return n → Option (Fin n → ℕ)
  | .caller => none
  | .sync _ before => some before

/-- What the `sync` in progress, if any, has counted when it was called. -/
def OwnerPc.marks : OwnerPc J n → Option (Fin n → ℕ)
  | .push _ _ ret => ret.marks
  | .notify _ _ ret => ret.marks
  | .syncSchedule _ before => some before
  | .syncCount _ _ before => some before
  | _ => none

/-- The owner is in `join`. -/
def OwnerPc.Joining : OwnerPc J n → Prop
  | .joinLock => True
  | .joinNotify _ => True
  | .joinWait _ => True
  | _ => False

section Moves

/-- What a step of the owner does to the jobs of the workers. -/
inductive OwnerMove (s t : State J n) : Prop
  | call (call : Call J n) (rest : List (Call J n)) (hidle : s.pc = .idle)
    (hprogram : s.program = call :: rest ∧ t.program = rest) (hjoined : t.joined = s.joined)
    (haccepted : ∀ i, t.accepted i = s.accepted i) (hsynced : t.synced = s.synced)
    (hplanned : s.joined = false → ∀ i, t.planned i = s.planned i ++ call.given i)
    (hsync : call = .sync → t.pc.marks = some fun i => (s.accepted i).length)
    (hmarks : call ≠ .sync → t.pc.marks = none)
    (hjoining : s.joined = false → (t.pc.Joining ↔ call = .join))
  | go (hbusy : s.pc ≠ .idle) (hprogram : t.program = s.program)
    (haccepted : ∀ i, s.accepted i <+: t.accepted i) (hsynced : t.synced = s.synced)
    (hplanned : s.joined = false → ∀ i, t.planned i = s.planned i) (hmarks : t.pc.marks = s.pc.marks)
    (hjoining : (t.pc.Joining ↔ s.pc.Joining) ∧ t.joined = s.joined ∨
      s.pc.Joining ∧ t.pc = .idle ∧ t.joined = true)
  | returned (hprogram : t.program = s.program) (haccepted : ∀ i, t.accepted i = s.accepted i)
    (hmarks : s.pc.marks = some t.synced) (hidle : t.pc = .idle) (hjoined : t.joined = s.joined)
    (hplanned : ∀ i, t.planned i = s.planned i)

variable {s t : State J n} {threadId : Fin n} {job : Job J} {ret : Return n}

/-- What is accepted depends on the results and on the job that is pending. -/
theorem accepted_congr (hresults : t.results = s.results) (hpending : t.pc.pending = s.pc.pending)
    (i : Fin n) : t.accepted i = s.accepted i := by
  rw [State.accepted, State.accepted, State.returned, State.returned, hresults, hpending]

/-- Between the calls of `schedule` nothing is pending. -/
theorem pending_ret (ret : Return n) : (ret.pc : OwnerPc J n).pending = fun _ => [] := by
  cases ret <;> rfl

/-- What is left after `schedule` has returned. -/
theorem left_ret (ret : Return n) (i : Fin n) : (ret.pc : OwnerPc J n).left i = ret.left i := by
  cases ret <;> rfl

/-- `schedule` accepts a job when it has been queued. -/
theorem accepted_push (hpc : s.pc = .push threadId job ret) (ht : t.pc = .notify threadId job ret)
    (hresults : t.results = s.results) (i : Fin n) :
    t.accepted i = s.accepted i ++ if threadId = i then [job] else [] := by
  simp only [State.accepted, State.returned, hresults, hpc, ht, OwnerPc.pending, List.append_nil]

/-- The return of `schedule` does not change what is accepted. -/
theorem accepted_notify (hpc : s.pc = .notify threadId job ret) (ht : t.pc = ret.pc)
    (hresults : t.results = s.results ++ [(threadId, job, true)]) (i : Fin n) :
    t.accepted i = s.accepted i := by
  rw [State.accepted, returned_append s.results true hresults rfl, State.accepted, hpc, ht, pending_ret]
  simp [OwnerPc.pending]

/-- The beginning of `schedule` does not change what is accepted. -/
theorem accepted_schedule (hpending : s.pc.pending = fun _ => []) (i : Fin n) :
    (s.schedule threadId job ret).accepted i = s.accepted i := by
  by_cases hj : s.joined = true
  · rw [State.schedule, if_pos hj, State.accepted,
      returned_append (s := s) s.results false rfl rfl, State.accepted, pending_ret, hpending]
    simp
  · rw [State.schedule, if_neg hj, State.accepted, State.accepted, hpending]
    rfl

/-- What is planned at the beginning of `schedule`. -/
theorem planned_schedule (hjoined : s.joined = false) (hpending : s.pc.pending = fun _ => []) (i : Fin n) :
    (s.schedule threadId job ret).planned i =
      s.accepted i ++ ((if threadId = i then [job] else []) ++ ret.left i) := by
  rw [State.planned, accepted_schedule hpending, State.schedule, if_neg (by simp [hjoined])]
  rfl

/-- A step inside a call that neither accepts a job nor returns from `sync`. -/
theorem ownerMove_jump {pc pc' : OwnerPc J n} (hs : s.pc = pc) (ht : t.pc = pc') (hbusy : pc ≠ .idle)
    (hprogram : t.program = s.program) (hresults : t.results = s.results) (hsynced : t.synced = s.synced)
    (hpending : pc'.pending = pc.pending) (hleft : pc'.left = pc.left) (hmarks : pc'.marks = pc.marks)
    (hjoining : (pc'.Joining ↔ pc.Joining) ∧ t.joined = s.joined ∨
      pc.Joining ∧ pc' = .idle ∧ t.joined = true) : OwnerMove s t := by
  subst hs ht
  have haccepted := accepted_congr hresults hpending
  refine .go hbusy hprogram (fun i => ?_) hsynced (fun _ i => ?_) hmarks hjoining
  · rw [haccepted]
  · rw [State.planned, State.planned, haccepted, hleft]

/-- What else the beginning of `schedule` changes. -/
theorem schedule_frame (s : State J n) (threadId : Fin n) (job : Job J) (ret : Return n) :
    let t := s.schedule threadId job ret
    t.program = s.program ∧ t.joined = s.joined ∧ t.synced = s.synced ∧ t.pc.marks = ret.marks ∧
      ¬ t.pc.Joining := by
  unfold State.schedule
  split
  · cases ret <;> exact ⟨rfl, rfl, rfl, rfl, id⟩
  · exact ⟨rfl, rfl, rfl, rfl, id⟩

/-- In front of a call all jobs that are planned have been accepted. -/
theorem planned_idle (hpc : s.pc = .idle) (i : Fin n) : s.planned i = s.accepted i := by
  rw [State.planned, hpc]
  exact List.append_nil _

/-- A call of the owner. -/
theorem ownerMove_call (hpc : s.pc = .idle) (hstep : ownerStep s = some t) : OwnerMove s t := by
  unfold ownerStep at hstep
  simp only [hpc] at hstep
  cases hprogram : s.program with
  | nil => simp [hprogram] at hstep
  | cons call rest =>
    -- nothing is pending before the call and behind its beginning
    have hsame (pc : OwnerPc J n) (hpending : pc.pending = fun _ => []) (i : Fin n) :
        ({ s with program := rest, pc := pc } : State J n).accepted i = s.accepted i := by
      apply accepted_congr
      · rfl
      · rw [hpc]
        exact hpending
    cases call with
    | schedule threadId job =>
      simp only [hprogram, Option.some.injEq] at hstep
      subst hstep
      obtain ⟨htail, hjoined, hsynced, hmarks, hjoining⟩ :=
        schedule_frame { s with program := rest, pc := .idle } threadId (.user job) .caller
      refine .call _ rest hpc ⟨hprogram, htail⟩ hjoined (fun i => ?_) hsynced (fun hj i => ?_) nofun
        (fun _ => hmarks) fun _ => ⟨fun h => absurd h hjoining, nofun⟩
      · rw [accepted_schedule rfl, hsame _ rfl]
      · rw [planned_schedule (s := { s with program := rest, pc := .idle }) hj rfl, planned_idle hpc,
          hsame _ rfl]
        exact congrArg _ (List.append_nil _)
    | sync =>
      simp only [hprogram, Option.some.injEq] at hstep
      subst hstep
      refine .call _ rest hpc ⟨hprogram, rfl⟩ rfl (hsame _ rfl) rfl (fun _ i => ?_) (fun _ => rfl)
        (fun h => absurd rfl h) fun _ => ⟨False.elim, nofun⟩
      rw [planned_idle hpc, State.planned, hsame _ rfl]
      rfl
    | join =>
      simp only [hprogram, Option.some.injEq] at hstep
      subst hstep
      by_cases hj : s.joined = true
      · rw [if_pos hj]
        exact .call _ rest hpc ⟨hprogram, rfl⟩ rfl (hsame _ rfl) rfl (fun hj' => by simp [hj] at hj')
          nofun (fun _ => rfl) fun hj' => by simp [hj] at hj'
      · rw [if_neg hj]
        refine .call _ rest hpc ⟨hprogram, rfl⟩ rfl (hsame _ rfl) rfl (fun _ i => ?_) nofun
          (fun _ => rfl) fun _ => ⟨fun _ => rfl, fun _ => trivial⟩
        rw [planned_idle hpc, State.planned, hsame _ rfl]
        rfl

/-- A notification changes none of what the owner has. -/
theorem wake_frame (s : State J n) (i : Fin n) : (s.wake i).program = s.program ∧
    (s.wake i).joined = s.joined ∧ (s.wake i).synced = s.synced ∧ (s.wake i).results = s.results ∧
      (s.wake i).pc = s.pc := by
  obtain ⟨workers, heq⟩ := State.wake_eq (s := s) (i := i)
  rw [heq]
  exact ⟨rfl, rfl, rfl, rfl, rfl⟩

/-- `schedule` has queued a job. -/
theorem ownerMove_push (hpc : s.pc = .push threadId job ret) (hstep : ownerStep s = some t) :
    OwnerMove s t := by
  simp only [ownerStep, hpc, Option.some.injEq] at hstep
  subst hstep
  have haccepted := accepted_push (t := { s.setWorker threadId { s.workers threadId with
    queue := (s.workers threadId).queue ++ [job] } with pc := .notify threadId job ret }) hpc rfl rfl
  refine .go (by simp [hpc]) rfl (fun i => ?_) rfl (fun _ i => ?_) ?_ (.inl ⟨?_, rfl⟩)
  · rw [haccepted]
    exact List.prefix_append _ _
  · rw [State.planned, State.planned, haccepted, List.append_assoc, hpc]
    rfl
  · rw [hpc]
    rfl
  · rw [hpc]
    exact Iff.rfl

/-- `schedule` returns. -/
theorem ownerMove_notify (hpc : s.pc = .notify threadId job ret) (hstep : ownerStep s = some t) :
    OwnerMove s t := by
  simp only [ownerStep, hpc, Option.some.injEq] at hstep
  subst hstep
  obtain ⟨hprogram, hjoined, hsynced, hresults, -⟩ := wake_frame s threadId
  have haccepted := accepted_notify (t := { s.wake threadId with
    pc := ret.pc, results := s.results ++ [(threadId, job, true)] }) hpc rfl rfl
  refine .go (by simp [hpc]) hprogram (fun i => ?_) hsynced (fun _ i => ?_) ?_ (.inl ⟨?_, hjoined⟩)
  · rw [haccepted]
  · rw [State.planned, State.planned, haccepted, hpc, left_ret]
    rfl
  · rw [hpc]
    cases ret <;> rfl
  · rw [hpc]
    cases ret <;> exact Iff.rfl

/-- `sync` schedules its jobs one after the other. -/
theorem ownerMove_syncSchedule {j : ℕ} {before : Fin n → ℕ} (hpc : s.pc = .syncSchedule j before)
    (hstep : ownerStep s = some t) : OwnerMove s t := by
  simp only [ownerStep, hpc] at hstep
  have hpending : s.pc.pending = fun _ => [] := by rw [hpc]; rfl
  split at hstep
  · next hj =>
    simp only [Option.some.injEq] at hstep
    subst hstep
    obtain ⟨hprogram, hjoined, hsynced, hmarks, hjoining⟩ :=
      schedule_frame s ⟨j, hj⟩ .noop (.sync (j + 1) before)
    refine .go (by simp [hpc]) hprogram (fun i => ?_) hsynced (fun hj' i => ?_) ?_ (.inl ⟨?_, hjoined⟩)
    · rw [accepted_schedule hpending]
    · rw [planned_schedule hj' hpending, State.planned, hpc]
      congr 1
      simp only [Return.left, OwnerPc.left, Fin.ext_iff]
      split_ifs <;> first | rfl | omega
    · rw [hmarks, hpc]
      rfl
    · rw [hpc]
      exact ⟨fun h => absurd h hjoining, False.elim⟩
  · next hj =>
    simp only [Option.some.injEq] at hstep
    subst hstep
    refine ownerMove_jump hpc rfl (by simp) rfl rfl rfl rfl ?_ rfl (.inl ⟨Iff.rfl, rfl⟩)
    funext i
    exact (if_neg (by have hlt := i.isLt; omega)).symm

/-- `sync` counts the workers that have nothing to do, and returns when these are all. -/
theorem ownerMove_syncCount {j found : ℕ} {before : Fin n → ℕ}
    (hpc : s.pc = .syncCount j found before) (hstep : ownerStep s = some t) : OwnerMove s t := by
  simp only [ownerStep, hpc] at hstep
  split at hstep
  · simp only [Option.some.injEq] at hstep
    subst hstep
    exact ownerMove_jump hpc rfl (by simp) rfl rfl rfl rfl rfl rfl (.inl ⟨Iff.rfl, rfl⟩)
  · split at hstep
    · simp only [Option.some.injEq] at hstep
      subst hstep
      exact ownerMove_jump hpc rfl (by simp) rfl rfl rfl rfl rfl rfl (.inl ⟨Iff.rfl, rfl⟩)
    · simp only [Option.some.injEq] at hstep
      subst hstep
      have haccepted (i : Fin n) : ({ s with pc := .idle, synced := before } : State J n).accepted i =
          s.accepted i := by
        apply accepted_congr
        · rfl
        · rw [hpc]
          rfl
      refine .returned rfl haccepted (by rw [hpc]; rfl) rfl rfl fun i => ?_
      rw [State.planned, State.planned, haccepted, hpc]
      rfl

/-- `join` notifies a worker, for which it then waits, or it is over. -/
theorem ownerMove_joinNotify {i : ℕ} (hpc : s.pc = .joinNotify i) (hstep : ownerStep s = some t) :
    OwnerMove s t := by
  simp only [ownerStep, hpc] at hstep
  split at hstep
  · next hi =>
    simp only [Option.some.injEq] at hstep
    subst hstep
    obtain ⟨hprogram, hjoined, hsynced, hresults, -⟩ := wake_frame s ⟨i, hi⟩
    exact ownerMove_jump hpc rfl (by simp) hprogram hresults hsynced rfl rfl rfl (.inl ⟨Iff.rfl, hjoined⟩)
  · simp only [Option.some.injEq] at hstep
    subst hstep
    exact ownerMove_jump hpc rfl (by simp) rfl rfl rfl rfl rfl rfl (.inr ⟨trivial, rfl, rfl⟩)

/-- A step inside a call of the owner. -/
theorem ownerMove_go (hpc : s.pc ≠ .idle) (hstep : ownerStep s = some t) : OwnerMove s t := by
  cases hcase : s.pc with
  | idle => exact absurd hcase hpc
  | push threadId job ret => exact ownerMove_push hcase hstep
  | notify threadId job ret => exact ownerMove_notify hcase hstep
  | syncSchedule j before => exact ownerMove_syncSchedule hcase hstep
  | syncCount j found before => exact ownerMove_syncCount hcase hstep
  | joinLock =>
    simp only [ownerStep, hcase, Option.some.injEq] at hstep
    subst hstep
    exact ownerMove_jump hcase rfl (by simp) rfl rfl rfl rfl rfl rfl (.inl ⟨Iff.rfl, rfl⟩)
  | joinNotify i => exact ownerMove_joinNotify hcase hstep
  | joinWait i =>
    simp only [ownerStep, hcase] at hstep
    split at hstep
    · simp only [Option.some.injEq] at hstep
      subst hstep
      exact ownerMove_jump hcase rfl (by simp) rfl rfl rfl rfl rfl rfl (.inl ⟨Iff.rfl, rfl⟩)
    · cases hstep

/-- Every step of the owner is one of these. -/
theorem ownerMove_of_step (hstep : ownerStep s = some t) : OwnerMove s t := by
  by_cases hpc : s.pc = .idle
  · exact ownerMove_call hpc hstep
  · exact ownerMove_go hpc hstep

end Moves

end Ghexbench.ThreadPool
