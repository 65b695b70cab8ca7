import Ghexbench.Sync.ThreadPoolProgram

/-!
# What `sync` separates

As long as the owner carries out calls other than `join`, what it has planned for a worker is what these
calls give it, and every `sync` that has returned has seen the jobs in front of it finished.
-/

namespace Ghexbench.ThreadPool

open Ghexbench.Common

variable {J : Type*} {n : ℕ}

/-- The jobs that calls give, one part after the other. -/
theorem given_append (i : Fin n) (calls calls' : List (Call J n)) :
    given i (calls ++ calls') = given i calls ++ given i calls' :=
  List.flatMap_append

/-- The owner carries out the first calls of its program: it has called `done`, and `rest` and `post` are
left. -/
structure Working (calls post : List (Call J n)) (s : State J n) (done rest : List (Call J n)) : Prop where
  calls_eq : calls = done ++ rest
  program : s.program = rest ++ post
  joined : s.joined = false
  joining : ¬ s.pc.Joining
  planned : ∀ i, s.planned i = given i done
  marks : ∀ before, s.pc.marks = some before →
    ∃ pre, done = pre ++ [.sync] ∧ ∀ i, before i = (given i pre).length
  synced : ∀ pre, pre ++ [.sync] <+: done → (pre ++ [.sync] = done → s.pc.marks = none) →
    ∀ i, (given i pre).length ≤ s.synced i

/-- The calls of `pre` are behind the owner, and so is the `sync` that came next. -/
structure Beyond (pre : List (Call J n)) (s : State J n) : Prop where
  accepted : ∀ i, given i pre <+: s.accepted i
  synced : ∀ i, (given i pre).length ≤ s.synced i
  marks : ∀ before, s.pc.marks = some before → ∀ i, (given i pre).length ≤ before i

section Steps

variable {calls post pre done rest : List (Call J n)} {s t : State J n}

/-- At the start nothing has been called. -/
theorem working_init (calls post : List (Call J n)) :
    Working calls post (init (calls ++ post)) [] calls where
  calls_eq := rfl
  program := rfl
  joined := rfl
  joining := id
  planned _ := rfl
  marks _ h := by cases h
  synced pre h := absurd (List.prefix_nil.mp h) (by simp)

/-- In front of a call there is no `sync` in progress. -/
theorem marks_idle (hpc : s.pc = .idle) : s.pc.marks = none := by
  rw [hpc]
  rfl

/-- The next call. -/
theorem Working.call (w : Working calls post s done rest) {call : Call J n} {rest' : List (Call J n)}
    (hrest : rest = call :: rest') (hjoin : call ≠ .join) (hpc : s.pc = .idle)
    (hprogram : t.program = rest' ++ post) (hjoined : t.joined = s.joined) (hsynced : t.synced = s.synced)
    (hplanned : ∀ i, t.planned i = s.planned i ++ call.given i)
    (hsync : call = .sync → t.pc.marks = some fun i => (s.accepted i).length)
    (hmarks : call ≠ .sync → t.pc.marks = none) (hjoining : t.pc.Joining ↔ call = .join) :
    Working calls post t (done ++ [call]) rest' where
  calls_eq := by rw [w.calls_eq, hrest, List.append_assoc, List.singleton_append]
  program := hprogram
  joined := hjoined.trans w.joined
  joining h := hjoin (hjoining.mp h)
  planned i := by rw [hplanned, w.planned, given_append, given, given, List.flatMap_singleton]
  marks before hbefore := by
    by_cases hcall : call = .sync
    · refine ⟨done, by rw [hcall], fun i => ?_⟩
      rw [hsync hcall, Option.some.injEq] at hbefore
      subst hbefore
      exact congrArg List.length ((planned_idle hpc i).symm.trans (w.planned i))
    · rw [hmarks hcall] at hbefore
      cases hbefore
  synced pre hpre hnone i := by
    rw [hsynced]
    rcases List.prefix_concat_iff.mp hpre with heq | hpre
    · have hcall : call = .sync := by
        have hlast := congrArg List.getLast? heq
        simpa using hlast.symm
      have hmarked := hsync hcall
      rw [hnone heq] at hmarked
      cases hmarked
    · exact w.synced pre hpre (fun _ => marks_idle hpc) i

/-- A step inside a call. -/
theorem Working.go (w : Working calls post s done rest) (hprogram : t.program = s.program)
    (hsynced : t.synced = s.synced) (hplanned : ∀ i, t.planned i = s.planned i)
    (hmarks : t.pc.marks = s.pc.marks) (hjoining : ¬ t.pc.Joining) (hjoined : t.joined = s.joined) :
    Working calls post t done rest where
  calls_eq := w.calls_eq
  program := hprogram.trans w.program
  joined := hjoined.trans w.joined
  joining := hjoining
  planned i := (hplanned i).trans (w.planned i)
  marks := hmarks ▸ w.marks
  synced := hmarks ▸ hsynced ▸ w.synced

/-- The return from `sync`. -/
theorem Working.returned (w : Working calls post s done rest) (hprogram : t.program = s.program)
    (hmarks : s.pc.marks = some t.synced) (hidle : t.pc = .idle) (hjoined : t.joined = s.joined)
    (hplanned : ∀ i, t.planned i = s.planned i) : Working calls post t done rest where
  calls_eq := w.calls_eq
  program := hprogram.trans w.program
  joined := hjoined.trans w.joined
  joining h := by
    rw [hidle] at h
    exact h
  planned i := (hplanned i).trans (w.planned i)
  marks before h := by
    rw [marks_idle hidle] at h
    cases h
  synced pre hpre _ i := by
    obtain ⟨pre', hdone, hbefore⟩ := w.marks _ hmarks
    rw [hdone] at hpre
    rw [hbefore]
    rcases List.prefix_concat_iff.mp hpre with heq | hpre
    · rw [List.append_left_inj] at heq
      rw [heq]
    · obtain ⟨tail, rfl⟩ := hpre
      rw [given_append, given_append, List.length_append, List.length_append, Nat.add_assoc]
      exact Nat.le_add_right _ _

/-- While calls are left, or the last one is in progress. -/
theorem Working.of_ownerMove (w : Working calls post s done rest) (hcalls : .join ∉ calls)
    (hmove : OwnerMove s t) (hleft : s.pc = .idle → rest ≠ []) :
    ∃ done rest, Working calls post t done rest := by
  cases hmove with
  | call call tail hidle hprogram hjoined haccepted hsynced hplanned hsync hmarks hjoining =>
    obtain ⟨first, rest', hrest⟩ := List.exists_cons_of_ne_nil (hleft hidle)
    have hprogram' := w.program
    rw [hrest, hprogram.1, List.cons_append, List.cons.injEq] at hprogram'
    obtain ⟨rfl, rfl⟩ := hprogram'
    have hjoin : call ≠ .join := by
      rintro rfl
      apply hcalls
      rw [w.calls_eq, hrest]
      simp
    exact ⟨_, _, w.call hrest hjoin hidle hprogram.2 hjoined hsynced (hplanned w.joined) hsync hmarks
      (hjoining w.joined)⟩
  | go hbusy hprogram haccepted hsynced hplanned hmarks hjoining =>
    rcases hjoining with ⟨hjoining, hjoined⟩ | ⟨hjoining, -⟩
    · exact ⟨done, rest, w.go hprogram hsynced (hplanned w.joined) hmarks
        (fun h => w.joining (hjoining.mp h)) hjoined⟩
    · exact absurd hjoining w.joining
  | returned hprogram haccepted hmarks hidle hjoined hplanned =>
    exact ⟨done, rest, w.returned hprogram hmarks hidle hjoined hplanned⟩

/-- The steps of the workers change nothing that the owner has. -/
theorem frame_of_step {a : Action n} (ha : a ≠ .owner) (hstep : next s a = some t) :
    t.program = s.program ∧ t.joined = s.joined ∧ t.synced = s.synced ∧ t.results = s.results ∧
      t.pc = s.pc := by
  cases a with
  | owner => exact absurd rfl ha
  | worker i =>
    obtain ⟨w, rfl, -⟩ := workerStep_move hstep
    exact ⟨rfl, rfl, rfl, rfl, rfl⟩
  | spurious i =>
    simp only [next, spuriousStep] at hstep
    split at hstep
    · simp only [Option.some.injEq] at hstep
      exact hstep ▸ wake_frame s i
    · cases hstep

/-- The owner leaves the first calls of its program with the next one. -/
theorem Working.leave (w : Working (pre ++ [.sync]) post s done []) (hidle : s.pc = .idle)
    (hmove : OwnerMove s t) : Beyond pre t := by
  have hdone : pre ++ [.sync] = done := w.calls_eq.trans (List.append_nil _)
  have hsynced := w.synced pre (by rw [hdone]) fun _ => marks_idle hidle
  have hplanned (i : Fin n) : given i pre <+: s.accepted i := by
    rw [← planned_idle hidle, w.planned, ← hdone, given_append]
    exact List.prefix_append _ _
  cases hmove with
  | call call tail hidle' hprogram hjoined haccepted hsynced' hplanned' hsync hmarks hjoining =>
    refine ⟨fun i => haccepted i ▸ hplanned i, hsynced' ▸ hsynced, fun before hbefore i => ?_⟩
    by_cases hcall : call = .sync
    · rw [hsync hcall, Option.some.injEq] at hbefore
      subst hbefore
      exact (hplanned i).length_le
    · rw [hmarks hcall] at hbefore
      cases hbefore
  | go hbusy => exact absurd hidle hbusy
  | returned hprogram haccepted hmarks =>
    rw [marks_idle hidle] at hmarks
    cases hmarks

/-- The owner does not come back. -/
theorem Beyond.of_ownerMove (h : Beyond pre s) (hmove : OwnerMove s t) : Beyond pre t := by
  cases hmove with
  | call call tail hidle hprogram hjoined haccepted hsynced hplanned hsync hmarks hjoining =>
    refine ⟨fun i => haccepted i ▸ h.accepted i, hsynced ▸ h.synced, fun before hbefore i => ?_⟩
    by_cases hcall : call = .sync
    · rw [hsync hcall, Option.some.injEq] at hbefore
      subst hbefore
      exact (h.accepted i).length_le
    · rw [hmarks hcall] at hbefore
      cases hbefore
  | go hbusy hprogram haccepted hsynced hplanned hmarks hjoining =>
    exact ⟨fun i => (h.accepted i).trans (haccepted i), hsynced ▸ h.synced, hmarks ▸ h.marks⟩
  | returned hprogram haccepted hmarks hidle hjoined hplanned =>
    refine ⟨fun i => haccepted i ▸ h.accepted i, h.marks _ hmarks, fun before hbefore => ?_⟩
    rw [marks_idle hidle] at hbefore
    cases hbefore

/-- The steps of the workers. -/
theorem Working.of_frame (w : Working calls post s done rest) (hframe : t.program = s.program ∧
    t.joined = s.joined ∧ t.synced = s.synced ∧ t.results = s.results ∧ t.pc = s.pc) :
    Working calls post t done rest := by
  obtain ⟨hprogram, hjoined, hsynced, hresults, hpc⟩ := hframe
  refine w.go hprogram hsynced (fun i => ?_) (by rw [hpc]) (by rw [hpc]; exact w.joining) hjoined
  rw [State.planned, State.planned, accepted_congr hresults (by rw [hpc]), hpc]

/-- In every run the owner carries out the calls up to a `sync`, or is beyond it. -/
theorem working_or_beyond (hjoin : .join ∉ pre) {program : List (Call J n)}
    (hprogram : program = pre ++ .sync :: post) (h : Reached program s) :
    (∃ done rest, Working (pre ++ [.sync]) post s done rest) ∨ Beyond pre s := by
  have hcalls : .join ∉ pre ++ [.sync] := by simpa using hjoin
  apply Reachable.invariant _ _ h
  · rintro _ rfl
    refine Or.inl ⟨[], pre ++ [.sync], ?_⟩
    rw [hprogram, List.append_cons pre .sync post]
    exact working_init (pre ++ [.sync]) post
  · rintro s t hs ⟨a, hstep⟩
    by_cases ha : a = .owner
    · subst ha
      have hmove := ownerMove_of_step hstep
      rcases hs with ⟨done, rest, w⟩ | hbeyond
      · by_cases hleft : s.pc = .idle ∧ rest = []
        · obtain ⟨hidle, rfl⟩ := hleft
          exact Or.inr (w.leave hidle hmove)
        · exact Or.inl (w.of_ownerMove hcalls hmove fun hidle hrest => hleft ⟨hidle, hrest⟩)
      · exact Or.inr (hbeyond.of_ownerMove hmove)
    · have hframe := frame_of_step ha hstep
      rcases hs with ⟨done, rest, w⟩ | hbeyond
      · exact Or.inl ⟨done, rest, w.of_frame hframe⟩
      · obtain ⟨-, -, hsynced, hresults, hpc⟩ := hframe
        refine Or.inr ⟨fun i => ?_, hsynced ▸ hbeyond.synced, hpc ▸ hbeyond.marks⟩
        rw [accepted_congr hresults (by rw [hpc])]
        exact hbeyond.accepted i

/-- What is accepted while the owner carries out calls is part of what these give. -/
theorem Working.accepted (w : Working calls post s done rest) (i : Fin n) :
    s.accepted i <+: given i calls := by
  have hplanned : s.accepted i <+: given i done := by
    rw [← w.planned]
    exact List.prefix_append _ _
  rw [w.calls_eq, given_append]
  exact hplanned.trans (List.prefix_append _ _)

/-- Beyond a `sync` the jobs in front of it are finished. -/
theorem Beyond.finished (h : Beyond pre s) (hinv : Inv s) (i : Fin n) :
    given i pre <+: (s.workers i).finished.map Prod.fst := by
  have hfinished : (s.workers i).finished.map Prod.fst <+: s.accepted i := by
    rw [← hinv.jobs i, Worker.jobs, List.append_assoc]
    exact List.prefix_append _ _
  apply List.prefix_of_prefix_length_le (h.accepted i) hfinished
  rw [List.length_map]
  exact (h.synced i).trans (hinv.synced i)

/-- If a worker has been given a job that is behind a `sync`, all jobs in front of it are finished. -/
theorem finished_of_accepted (hjoin : .join ∉ pre) {program : List (Call J n)}
    (hprogram : program = pre ++ .sync :: post) (h : Reached program s) {i : Fin n}
    (hi : (given i (pre ++ [.sync])).length < (s.accepted i).length) (j : Fin n) :
    given j pre <+: (s.workers j).finished.map Prod.fst := by
  rcases working_or_beyond hjoin hprogram h with ⟨done, rest, w⟩ | hbeyond
  · exact absurd (w.accepted i).length_le (Nat.not_le.mpr hi)
  · exact hbeyond.finished h.inv j

end Steps

/-- `sync` separates the jobs of all workers: in every run of every program, if a worker has been given a job
by a call behind a `sync`, then all workers have finished the jobs of the calls in front of it, in the order
of these calls. The pool must not have been joined before. -/
theorem sync_separates (n : ℕ) (program pre post : List (Call J n))
    (hprogram : program = pre ++ .sync :: post) (hjoin : .join ∉ pre) (s : State J n)
    (h : Reached program s) (i : Fin n)
    (hi : (given i (pre ++ [.sync])).length < (s.accepted i).length) :
    ∀ j, given j pre <+: (s.workers j).finished.map Prod.fst :=
  finished_of_accepted hjoin hprogram h hi

/-- Two workers with a job each, a `sync`, and a job behind it. -/
def syncProgram (i j : Fin 2) : List (Call ℕ 2) := [.schedule i 7, .schedule j 8, .sync, .schedule i 9]

/-- The workers finish their jobs as soon as they have got them, and the owner gets behind the `sync`. -/
def syncSchedule (i j : Fin 2) : List (Action 2) :=
  List.replicate 14 .owner ++ List.replicate 4 (.worker i) ++ List.replicate 4 (.worker j) ++
    List.replicate 6 .owner

/-- When worker 0 has been given the job behind the `sync`, worker 1 has finished its job. -/
theorem sync_separates_two : ∃ s : State ℕ 2,
    runActions next (init (syncProgram 0 1)) (syncSchedule 0 1) = some s ∧
    s.accepted 0 = [.user 7, .noop, .user 9] ∧
    [.user 8] <+: (s.workers 1).finished.map Prod.fst := by
  refine ⟨_, rfl, rfl, ?_⟩
  exact sync_separates 2 (syncProgram 0 1) [.schedule 0 7, .schedule 1 8] [.schedule 0 9] rfl (by simp) _
    (reachable_of_runActions (syncSchedule 0 1) (Reachable.initial rfl) rfl) 0 (by decide) 1

end Ghexbench.ThreadPool
