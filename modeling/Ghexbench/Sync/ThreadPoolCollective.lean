import Ghexbench.Sync.ThreadPoolPhases
import Mathlib.Data.Finset.Max
import Mathlib.Data.Fintype.Basic

/-!
# Jobs that wait for each other

A job may contain barriers, and then it does not end before all workers have begun the job at the same place
among theirs. If every `sync` and the final `join` of the owner's program come when all workers have been
given the same jobs, in the same order, then such jobs never block the pool, because no two of them have to
be run by the same worker.
-/

namespace Ghexbench.ThreadPool

open Ghexbench.Common

variable {J : Type*} {n : ℕ}

/-- How many jobs a worker has begun. -/
def Worker.begun (w : Worker J) : ℕ := w.finished.length + w.current.length

/-- A worker ends a collective job only when all workers have begun the job at the same place among theirs. -/
def MayEnd (collective : J → Bool) (s : State J n) : Action n → Prop
  | .worker i => ∀ job, (s.workers i).pc = .busy (.user job) → collective job = true →
      ∀ j, (s.workers i).finished.length < (s.workers j).begun
  | _ => True

instance (collective : J → Bool) (s : State J n) : DecidablePred (MayEnd collective s)
  | .owner => isTrue trivial
  | .spurious _ => isTrue trivial
  | .worker i =>
    match hpc : (s.workers i).pc with
    | .busy (.user job) =>
      decidable_of_iff (collective job = true → ∀ j, (s.workers i).finished.length < (s.workers j).begun)
        ⟨fun h job' hjob => by
          rw [hpc, WorkerPc.busy.injEq, Job.user.injEq] at hjob
          exact hjob ▸ h, fun h => h job hpc⟩
    | .busy .noop => isTrue fun job hjob => by simp [hpc] at hjob
    | .lockQueue => isTrue fun job hjob => by simp [hpc] at hjob
    | .blocked => isTrue fun job hjob => by simp [hpc] at hjob
    | .exited => isTrue fun job hjob => by simp [hpc] at hjob

/-- The states of all interleavings in which collective jobs wait for each other. -/
def CollectiveReached (collective : J → Bool) (program : List (Call J n)) (s : State J n) : Prop :=
  Reachable (· = init program) (StepsWhen (MayEnd collective) next) s

/-- At every `sync` and at the end all workers have been given the same jobs. -/
structure Balanced (calls : List (Call J n)) : Prop where
  whole : ∀ i j, given i calls = given j calls
  sync : ∀ pre post, calls = pre ++ .sync :: post → ∀ i j, given i pre = given j pre

variable {s t : State J n} {program calls : List (Call J n)} {collective : J → Bool} {i j : Fin n}

/-- Waiting leaves out interleavings. -/
theorem CollectiveReached.reached (h : CollectiveReached collective program s) : Reached program s :=
  Reachable.mono (fun _ _ => StepsWhen.steps) h

section Workers

/-- What a step of the owner does to the workers. -/
inductive OwnerTouch (s t : State J n) : Prop
  | none (hworkers : t.workers = s.workers) (hpc : ∀ i job ret, s.pc ≠ .notify i job ret)
  | push (i : Fin n) (job : Job J) (ret : Return n) (hpc : s.pc = .push i job ret ∧ t.pc = .notify i job ret)
    (hworkers : t.workers = (s.setWorker i { s.workers i with
      queue := (s.workers i).queue ++ [job] }).workers)
  | wake (i : Fin n) (hworkers : t.workers = (s.wake i).workers)
    (hpc : ∀ j job ret, s.pc = .notify j job ret → j = i)

/-- Every step of the owner does one of these. -/
theorem ownerTouch_of_step (hstep : ownerStep s = some t) : OwnerTouch s t := by
  unfold ownerStep at hstep
  cases hcase : s.pc with
  | idle =>
    simp only [hcase] at hstep
    refine .none ?_ fun i job ret h => by rw [hcase] at h; cases h
    cases hprogram : s.program with
    | nil => simp [hprogram] at hstep
    | cons call rest =>
      cases call <;> simp only [hprogram, Option.some.injEq] at hstep <;> subst hstep
      · unfold State.schedule
        split <;> rfl
      · rfl
      · rfl
  | push threadId job ret =>
    simp only [hcase, Option.some.injEq] at hstep
    subst hstep
    exact .push threadId job ret ⟨hcase, rfl⟩ rfl
  | notify threadId job ret =>
    simp only [hcase, Option.some.injEq] at hstep
    subst hstep
    refine .wake threadId rfl fun j job' ret' h => ?_
    rw [hcase] at h
    injection h with hj
    exact hj.symm
  | syncSchedule j before =>
    simp only [hcase] at hstep
    refine .none ?_ fun i job ret h => by rw [hcase] at h; cases h
    split at hstep <;> simp only [Option.some.injEq] at hstep <;> subst hstep
    · unfold State.schedule
      split <;> rfl
    · rfl
  | syncCount j found before =>
    simp only [hcase] at hstep
    refine .none ?_ fun i job ret h => by rw [hcase] at h; cases h
    split at hstep
    · simp only [Option.some.injEq] at hstep
      exact hstep ▸ rfl
    · split at hstep <;> simp only [Option.some.injEq] at hstep <;> exact hstep ▸ rfl
  | joinLock =>
    simp only [hcase, Option.some.injEq] at hstep
    exact .none (hstep ▸ rfl) fun i job ret h => by rw [hcase] at h; cases h
  | joinNotify i =>
    simp only [hcase] at hstep
    split at hstep
    · next hi =>
      simp only [Option.some.injEq] at hstep
      subst hstep
      exact .wake ⟨i, hi⟩ rfl fun j job ret h => by rw [hcase] at h; cases h
    · simp only [Option.some.injEq] at hstep
      exact .none (hstep ▸ rfl) fun i job ret h => by rw [hcase] at h; cases h
  | joinWait i =>
    simp only [hcase] at hstep
    split at hstep
    · simp only [Option.some.injEq] at hstep
      exact .none (hstep ▸ rfl) fun i job ret h => by rw [hcase] at h; cases h
    · cases hstep

/-- Changes of a worker that neither begin nor end a job. -/
theorem setWorker_same {w : Worker J} (hfinished : w.finished = (s.workers i).finished)
    (hcurrent : w.current = (s.workers i).current) (j : Fin n) :
    ((s.setWorker i w).workers j).finished = (s.workers j).finished ∧
      ((s.setWorker i w).workers j).current = (s.workers j).current :=
  State.forall_setWorker (p := fun j w => w.finished = (s.workers j).finished ∧
    w.current = (s.workers j).current) (fun _ => ⟨rfl, rfl⟩) ⟨hfinished, hcurrent⟩ j

/-- A wake-up neither begins nor ends a job. -/
theorem wake_same (s : State J n) (i j : Fin n) :
    ((s.wake i).workers j).finished = (s.workers j).finished ∧
      ((s.wake i).workers j).current = (s.workers j).current := by
  unfold State.wake
  split
  · next hblocked =>
    apply setWorker_same
    · rfl
    · simp [Worker.current, hblocked]
  · exact ⟨rfl, rfl⟩

/-- A step of the owner neither begins nor ends a job. -/
theorem OwnerTouch.same (h : OwnerTouch s t) (j : Fin n) :
    (t.workers j).finished = (s.workers j).finished ∧ (t.workers j).current = (s.workers j).current := by
  cases h with
  | none hworkers hpc => exact hworkers ▸ ⟨rfl, rfl⟩
  | push i job ret hpc hworkers =>
    rw [hworkers]
    apply setWorker_same <;> rfl
  | wake i hworkers hpc => exact hworkers ▸ wake_same s i j

/-- A step of a worker: it begins a job, ends one, or does neither. -/
theorem begun_of_workerStep (hstep : workerStep s i = some t) : ∃ w, t = s.setWorker i w ∧
    (s.workers i).begun ≤ w.begun ∧ (w.finished = (s.workers i).finished ∨
      ∃ job, (s.workers i).pc = .busy job ∧ w.finished = (s.workers i).finished ++ [(job, i.val)]) := by
  unfold workerStep at hstep
  cases hpc : (s.workers i).pc with
  | lockQueue =>
    simp only [hpc] at hstep
    split at hstep
    · cases hq : (s.workers i).queue <;> simp only [hq, Option.some.injEq] at hstep
      · exact ⟨_, hstep.symm, by simp [Worker.begun, Worker.current, hpc], Or.inl rfl⟩
      · exact ⟨_, hstep.symm, by simp [Worker.begun, Worker.current, hpc], Or.inl rfl⟩
    · simp only [Option.some.injEq] at hstep
      exact ⟨_, hstep.symm, by simp [Worker.begun, Worker.current, hpc], Or.inl rfl⟩
  | busy job =>
    simp only [hpc, Option.some.injEq] at hstep
    exact ⟨_, hstep.symm, by simp [Worker.begun, Worker.current, hpc], Or.inr ⟨job, rfl, rfl⟩⟩
  | blocked => simp [hpc] at hstep
  | exited => simp [hpc] at hstep

/-- A spurious wake-up is a wake-up. -/
theorem eq_wake_of_spuriousStep (hstep : spuriousStep s i = some t) : t = s.wake i := by
  unfold spuriousStep at hstep
  split at hstep
  · exact (Option.some.inj hstep).symm
  · cases hstep

/-- A blocked worker has nothing queued, unless it is about to be notified of it. -/
def Rests (s : State J n) : Prop := ∀ i, (s.workers i).pc = .blocked →
  (s.workers i).queue = [] ∨ ∃ job ret, s.pc = .notify i job ret

/-- A worker that is woken up is not blocked, and nothing happens to the others. -/
theorem wake_blocked (hblocked : ((s.wake i).workers j).pc = .blocked) :
    j ≠ i ∧ (s.workers j).pc = .blocked ∧ ((s.wake i).workers j).queue = (s.workers j).queue := by
  have hne : j ≠ i := by
    rintro rfl
    exact State.wake_not_blocked hblocked
  have hsame : (s.wake i).workers j = s.workers j := by
    unfold State.wake
    split
    · simp [State.setWorker, hne]
    · rfl
  exact ⟨hne, hsame ▸ hblocked, congrArg Worker.queue hsame⟩

/-- Every step keeps this. -/
theorem Rests.step (h : Rests s) {a : Action n} (hstep : next s a = some t) : Rests t := by
  intro j hblocked
  cases a with
  | owner =>
    cases ownerTouch_of_step hstep with
    | none hworkers hpc =>
      rw [hworkers] at hblocked ⊢
      rcases h j hblocked with hempty | ⟨job, ret, hnotify⟩
      · exact Or.inl hempty
      · exact absurd hnotify (hpc j job ret)
    | push i job ret hpc hworkers =>
      by_cases hj : j = i
      · exact Or.inr ⟨job, ret, hj ▸ hpc.2⟩
      · have hsame : t.workers j = s.workers j := by simp [hworkers, State.setWorker, hj]
        rw [hsame] at hblocked ⊢
        rcases h j hblocked with hempty | ⟨job', ret', hnotify⟩
        · exact Or.inl hempty
        · rw [hpc.1] at hnotify
          cases hnotify
    | wake i hworkers hpc =>
      rw [hworkers] at hblocked ⊢
      obtain ⟨hne, hbefore, hqueue⟩ := wake_blocked hblocked
      rcases h j hbefore with hempty | ⟨job, ret, hnotify⟩
      · exact Or.inl (hqueue.trans hempty)
      · exact absurd (hpc j job ret hnotify) hne
  | worker i =>
    obtain ⟨w, rfl, hmove⟩ := workerStep_move hstep
    exact State.forall_setWorker (p := fun j w => w.pc = .blocked →
      w.queue = [] ∨ ∃ job ret, s.pc = .notify j job ret) h (fun hb => Or.inl (hmove.blocked hb).1) j hblocked
  | spurious i =>
    obtain rfl := eq_wake_of_spuriousStep hstep
    obtain ⟨-, hbefore, hqueue⟩ := wake_blocked hblocked
    have hpc := (wake_frame s i).2.2.2.2
    rw [hpc, hqueue]
    exact h j hbefore

/-- It holds in every run. -/
theorem Reached.rests (h : Reached program s) : Rests s := by
  apply Reachable.invariant _ _ h
  · rintro _ rfl i hblocked
    cases hblocked
  · rintro s t hs ⟨a, hstep⟩
    exact hs.step hstep

end Workers

section Closing

/-- The owner is in the `join` at the end of its program, or has returned from it. -/
structure Closing (calls : List (Call J n)) (s : State J n) : Prop where
  program : s.program = []
  planned : ∀ i, s.planned i = given i calls
  place : s.pc.Joining ∧ s.joined = false ∨ s.pc = .idle ∧ s.joined = true

/-- In `join` no `sync` is in progress. -/
theorem marks_joining (hpc : s.pc.Joining) : s.pc.marks = none := by
  cases hcase : s.pc <;> rw [hcase] at hpc <;> first | rfl | exact hpc.elim

/-- `join` is called when nothing else is left. -/
theorem Working.close {done : List (Call J n)} (w : Working calls [.join] s done []) (hidle : s.pc = .idle)
    (hmove : OwnerMove s t) : Closing calls t := by
  have hdone : calls = done := w.calls_eq.trans (List.append_nil _)
  cases hmove with
  | call call tail hidle' hprogram hjoined haccepted hsynced hplanned hsync hmarks hjoining =>
    have hprogram' := w.program
    rw [hprogram.1, List.nil_append, List.cons.injEq] at hprogram'
    obtain ⟨rfl, rfl⟩ := hprogram'
    refine ⟨hprogram.2, fun i => ?_, Or.inl ⟨(hjoining w.joined).mpr rfl, hjoined.trans w.joined⟩⟩
    rw [hplanned w.joined, w.planned, hdone]
    exact List.append_nil _
  | go hbusy => exact absurd hidle hbusy
  | returned hprogram haccepted hmarks =>
    rw [marks_idle hidle] at hmarks
    cases hmarks

/-- `join` goes on until it returns. -/
theorem Closing.of_ownerMove (h : Closing calls s) (hmove : OwnerMove s t) : Closing calls t := by
  cases hmove with
  | call call tail hidle hprogram =>
    rw [h.program] at hprogram
    cases hprogram.1
  | go hbusy hprogram haccepted hsynced hplanned hmarks hjoining =>
    obtain ⟨hjoin, hjoined⟩ := h.place.resolve_right fun hidle => hbusy hidle.1
    refine ⟨hprogram.trans h.program, fun i => (hplanned hjoined i).trans (h.planned i), ?_⟩
    rcases hjoining with ⟨hjoin', hjoined'⟩ | ⟨-, hidle, hjoined'⟩
    · exact Or.inl ⟨hjoin'.mpr hjoin, hjoined'.trans hjoined⟩
    · exact Or.inr ⟨hidle, hjoined'⟩
  | returned hprogram haccepted hmarks =>
    rcases h.place with ⟨hjoin, -⟩ | ⟨hidle, -⟩
    · rw [marks_joining hjoin] at hmarks
      cases hmarks
    · rw [marks_idle hidle] at hmarks
      cases hmarks

/-- The owner carries out its calls, and then `join`. -/
theorem working_or_closing (hjoin : .join ∉ calls) (h : Reached (calls ++ [.join]) s) :
    (∃ done rest, Working calls [.join] s done rest) ∨ Closing calls s := by
  apply Reachable.invariant _ _ h
  · rintro _ rfl
    exact Or.inl ⟨[], calls, working_init calls [.join]⟩
  · rintro s t hs ⟨a, hstep⟩
    by_cases ha : a = .owner
    · subst ha
      have hmove := ownerMove_of_step hstep
      rcases hs with ⟨done, rest, w⟩ | hclosing
      · by_cases hleft : s.pc = .idle ∧ rest = []
        · obtain ⟨hidle, rfl⟩ := hleft
          exact Or.inr (w.close hidle hmove)
        · exact Or.inl (w.of_ownerMove hjoin hmove fun hidle hrest => hleft ⟨hidle, hrest⟩)
      · exact Or.inr (hclosing.of_ownerMove hmove)
    · have hframe := frame_of_step ha hstep
      rcases hs with ⟨done, rest, w⟩ | hclosing
      · exact Or.inl ⟨done, rest, w.of_frame hframe⟩
      · obtain ⟨hprogram, hjoined, -, hresults, hpc⟩ := hframe
        refine Or.inr ⟨hprogram.trans hclosing.program, fun i => ?_, hpc ▸ hjoined ▸ hclosing.place⟩
        rw [State.planned, accepted_congr hresults (by rw [hpc]), hpc]
        exact hclosing.planned i

/-- A worker is given what the calls give it, in this order. -/
theorem accepted_isPrefix (hjoin : .join ∉ calls) (h : Reached (calls ++ [.join]) s) (i : Fin n) :
    s.accepted i <+: given i calls := by
  rcases working_or_closing hjoin h with ⟨done, rest, w⟩ | hclosing
  · exact w.accepted i
  · rw [← hclosing.planned]
    exact List.prefix_append _ _

/-- When the owner has completed its program, the workers have exited and finished all jobs. -/
theorem finished_at_end (hjoin : .join ∉ calls) (h : Reached (calls ++ [.join]) s) (hidle : s.pc = .idle)
    (hprogram : s.program = []) (i : Fin n) :
    (s.workers i).pc = .exited ∧ (s.workers i).finished.map Prod.fst = given i calls := by
  rcases working_or_closing hjoin h with ⟨done, rest, w⟩ | hclosing
  · have hleft := w.program
    rw [hprogram] at hleft
    simp at hleft
  · have hjoined : s.joined = true := by
      rcases hclosing.place with ⟨hjoining, -⟩ | ⟨-, hjoined⟩
      · rw [hidle] at hjoining
        exact hjoining.elim
      · exact hjoined
    rw [h.inv.finished_of_joined hjoined, ← hclosing.planned, planned_idle hidle]
    exact ⟨h.inv.joined hjoined i, rfl⟩

end Closing

section Progress

/-- A worker that can make a step. -/
def Worker.Active (w : Worker J) : Prop := w.pc ≠ .blocked ∧ w.pc ≠ .exited

/-- What a worker has been given it has finished, is running or has queued. -/
theorem Inv.length_accepted (h : Inv s) (i : Fin n) :
    (s.workers i).begun + (s.workers i).queue.length = (s.accepted i).length := by
  rw [← h.jobs i, Worker.jobs, Worker.begun]
  simp only [List.length_append, List.length_map]

/-- A worker that cannot make a step has finished all that it has been given. -/
theorem begun_of_not_active (h : Inv s) (hrests : ∀ i, (s.workers i).pc = .blocked → (s.workers i).queue = [])
    {j : Fin n} (hj : ¬ (s.workers j).Active) : (s.workers j).begun = (s.accepted j).length := by
  have hqueue : (s.workers j).queue = [] := by
    by_cases hblocked : (s.workers j).pc = .blocked
    · exact hrests j hblocked
    · exact (h.exited j (not_not.mp fun hexited => hj ⟨hblocked, hexited⟩)).1
  have hlength := h.length_accepted j
  rw [hqueue, List.length_nil, Nat.add_zero] at hlength
  exact hlength

/-- Among workers that have been given the same jobs, one that can make a step and has finished least does
not have to wait. -/
theorem exists_worker_step (h : Inv s) (hrests : ∀ i, (s.workers i).pc = .blocked → (s.workers i).queue = [])
    (hsame : ∀ i j, s.accepted i = s.accepted j) (hactive : ∃ i, (s.workers i).Active) :
    ∃ i t, MayEnd collective s (.worker i) ∧ workerStep s i = some t := by
  classical
  by_cases hfree : ∃ i, (s.workers i).Active ∧ (s.workers i).current = []
  · obtain ⟨i, hi, hcurrent⟩ := hfree
    obtain ⟨t, hstep⟩ := workerStep_isSome hi.1 hi.2
    refine ⟨i, t, fun job hbusy => ?_, hstep⟩
    simp [Worker.current, hbusy] at hcurrent
  · push Not at hfree
    obtain ⟨i₀, hi₀⟩ := hactive
    obtain ⟨i, hi, hleast⟩ := (Finset.univ.filter fun i => (s.workers i).Active).exists_min_image
      (fun i => (s.workers i).finished.length) ⟨i₀, by simpa using hi₀⟩
    simp only [Finset.mem_filter, Finset.mem_univ, true_and] at hi hleast
    obtain ⟨t, hstep⟩ := workerStep_isSome hi.1 hi.2
    refine ⟨i, t, fun job hbusy _ j => ?_, hstep⟩
    have hbegun : (s.workers i).begun = (s.workers i).finished.length + 1 := by
      simp [Worker.begun, Worker.current, hbusy]
    by_cases hj : (s.workers j).Active
    · have hpositive : 0 < (s.workers j).current.length := List.length_pos_iff.mpr (hfree j hj)
      have hle := hleast j hj
      rw [Worker.begun]
      omega
    · have hlength := h.length_accepted i
      rw [begun_of_not_active h hrests hj, hsame j i]
      omega

/-- Before the owner has completed its program, a worker can go on, even though collective jobs wait for each
other, or the owner can, and then not only by counting queues that are still not empty. -/
theorem collective_progress (hjoin : .join ∉ calls) (hbalanced : Balanced calls)
    (h : Reached (calls ++ [.join]) s) (hdone : s.pc = .idle → s.program ≠ []) :
    (∃ i t, MayEnd collective s (.worker i) ∧ workerStep s i = some t) ∨
      ((∃ t, ownerStep s = some t) ∧ ¬ s.Polling) := by
  have hinv := h.inv
  have hwork (hpc : ∀ i job ret, s.pc ≠ .notify i job ret) (hsame : ∀ i j, s.accepted i = s.accepted j)
      (hactive : ∃ i, (s.workers i).Active) :
      ∃ i t, MayEnd collective s (.worker i) ∧ workerStep s i = some t := by
    refine exists_worker_step hinv (fun i hblocked => ?_) hsame hactive
    refine (h.rests i hblocked).resolve_right ?_
    rintro ⟨job, ret, hnotify⟩
    exact hpc i job ret hnotify
  by_cases hpoll : s.Polling
  · -- all workers have been given the jobs in front of this `sync`, and its empty job
    obtain ⟨⟨j, found, before, hpc⟩, i, hqueue⟩ := hpoll
    refine Or.inl (hwork (fun i job ret hnotify => by rw [hpc] at hnotify; cases hnotify) ?_ ⟨i, ?_, ?_⟩)
    · rcases working_or_closing hjoin h with ⟨done, rest, w⟩ | hclosing
      · obtain ⟨pre, hpre, -⟩ := w.marks before (by rw [hpc]; rfl)
        have hcalls : calls = pre ++ .sync :: rest := by rw [w.calls_eq, hpre, List.append_assoc]; rfl
        have haccepted (i : Fin n) : s.accepted i = given i pre ++ [.noop] := by
          have hplanned := w.planned i
          rw [State.planned, hpc, hpre, given_append] at hplanned
          exact (List.append_nil _).symm.trans hplanned
        intro i j
        rw [haccepted, haccepted, hbalanced.sync pre rest hcalls i j]
      · rcases hclosing.place with ⟨hjoining, -⟩ | ⟨hidle, -⟩
        · rw [hpc] at hjoining
          exact hjoining.elim
        · rw [hpc] at hidle
          cases hidle
    · intro hblocked
      rcases h.rests i hblocked with hempty | ⟨job, ret, hnotify⟩
      · exact hqueue hempty
      · rw [hpc] at hnotify
        cases hnotify
    · exact fun hexited => hqueue (hinv.exited i hexited).1
  by_cases hwait : ∃ i, s.pc = .joinWait i ∧ (s.workers i).pc ≠ .exited
  · -- all workers have been given all jobs, and the awaited one has been notified
    obtain ⟨i, hpc, hexited⟩ := hwait
    have howner := hinv.owner
    rw [hpc] at howner
    refine Or.inl (hwork (fun i job ret hnotify => by rw [hpc] at hnotify; cases hnotify) ?_
      ⟨i, fun hblocked => ?_, hexited⟩)
    · rcases working_or_closing hjoin h with ⟨done, rest, w⟩ | hclosing
      · have hjoining := w.joining
        rw [hpc] at hjoining
        exact (hjoining trivial).elim
      · have haccepted (i : Fin n) : s.accepted i = given i calls := by
          have hplanned := hclosing.planned i
          rw [State.planned, hpc] at hplanned
          exact (List.append_nil _).symm.trans hplanned
        intro i j
        rw [haccepted, haccepted, hbalanced.whole i j]
    · cases hinv.blocked i hblocked with
      | inl hempty => exact absurd hempty.2 (by simp [howner.1])
      | inr hnotify => simp [hpc, OwnerPc.WillNotify] at hnotify
  · push Not at hwait
    exact Or.inr ⟨ownerStep_isSome hwait hdone, hpoll⟩

/-- All workers have begun the job at the same place as a collective job that some worker has ended. -/
def Waited (collective : J → Bool) (s : State J n) : Prop :=
  ∀ i k r, (s.workers i).finished[k]? = some r → ∀ job, r.1 = .user job → collective job = true →
    ∀ j, k < (s.workers j).begun

/-- A step that neither begins nor ends a job. -/
theorem Waited.of_same (h : Waited collective s)
    (hsame : ∀ j, (t.workers j).finished = (s.workers j).finished ∧
      (t.workers j).current = (s.workers j).current) : Waited collective t := by
  intro i k r hr job hjob hcollective j
  rw [(hsame i).1] at hr
  have hbegun : (t.workers j).begun = (s.workers j).begun := by
    rw [Worker.begun, Worker.begun, (hsame j).1, (hsame j).2]
  rw [hbegun]
  exact h i k r hr job hjob hcollective j

/-- A step of a worker that has waited. -/
theorem Waited.of_workerStep (h : Waited collective s) (hmay : MayEnd collective s (.worker i))
    (hstep : workerStep s i = some t) : Waited collective t := by
  obtain ⟨w, rfl, hbegun, hfinished⟩ := begun_of_workerStep hstep
  have hmono (j : Fin n) : (s.workers j).begun ≤ ((s.setWorker i w).workers j).begun :=
    State.forall_setWorker (p := fun j w => (s.workers j).begun ≤ w.begun) (fun _ => le_rfl) hbegun j
  have hbefore (k : ℕ) (r : Job J × ℕ) (i' : Fin n) (hr : (s.workers i').finished[k]? = some r) (job : J)
      (hjob : r.1 = .user job) (hcollective : collective job = true) (j : Fin n) :
      k < ((s.setWorker i w).workers j).begun :=
    (h i' k r hr job hjob hcollective j).trans_le (hmono j)
  intro i' k r hr job hjob hcollective j
  by_cases hi : i' = i
  · subst hi
    have hself : (s.setWorker i' w).workers i' = w := by simp [State.setWorker]
    rw [hself] at hr
    rcases hfinished with hsame | ⟨job', hbusy, happend⟩
    · exact hbefore k r i' (hsame ▸ hr) job hjob hcollective j
    · rw [happend] at hr
      rcases Nat.lt_or_ge k (s.workers i').finished.length with hk | hk
      · rw [List.getElem?_append_left hk] at hr
        exact hbefore k r i' hr job hjob hcollective j
      · -- the job that has just ended
        rw [List.getElem?_append_right hk, List.getElem?_singleton] at hr
        split at hr
        · next hzero =>
          cases hr
          subst hjob
          have hlast : k = (s.workers i').finished.length := by omega
          rw [hlast]
          exact (hmay job hbusy hcollective j).trans_le (hmono j)
        · cases hr
  · have hother : (s.setWorker i w).workers i' = s.workers i' := by simp [State.setWorker, hi]
    rw [hother] at hr
    exact hbefore k r i' hr job hjob hcollective j

/-- It holds in every run in which collective jobs wait for each other. -/
theorem CollectiveReached.waited (h : CollectiveReached collective program s) : Waited collective s := by
  apply Reachable.invariant _ _ h
  · rintro _ rfl i k r hr
    simp [init] at hr
  · rintro s t hs ⟨a, hmay, hstep⟩
    cases a with
    | owner => exact hs.of_same (ownerTouch_of_step hstep).same
    | worker i => exact hs.of_workerStep hmay hstep
    | spurious i =>
      obtain rfl := eq_wake_of_spuriousStep hstep
      exact hs.of_same (wake_same s i)

end Progress

end Ghexbench.ThreadPool
