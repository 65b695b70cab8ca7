import Ghexbench.Cartex.MainLoop
import Ghexbench.Sync.RepeatForOrder

/-!
# The timed loops of the benchmark

`runtime::exchange` with `--time`, on every thread of every rank: the step before `check`, if there is one,
then `repeat_for` with the warm-up step and `repeat_for` with the main step, which begins with barriers of all
threads. These are one meeting here, which a thread leaves when all threads have come to it; how they are
carried out is left to the barriers themselves.

Each call of `repeat_for` has broadcasts of its own, although both use one `sync_loop`: no thread comes to a
broadcast of the second call before all threads have left the first one.
-/

namespace Ghexbench.Cartex.TimedLoop

open Ghexbench.Common RepeatFor

/-- Where a thread stands: in the step before `check`, in the warm-up, in the main loop but not in its step,
in the barriers of the main step, or in its call of `step`. -/
inductive Phase
  | checking
  | warmUp
  | outside
  | waiting
  | stepping
  deriving DecidableEq, Repr

/-- Both calls of `repeat_for` on all threads. -/
structure State (R T : ℕ) where
  warmUp : RepeatFor.State ℚ R T
  main : RepeatFor.State ℚ R T
  phase : Fin R × Fin T → Phase

/-- The arguments of `repeat_for` for the warm-up; the number of iterations has its default limit. -/
def warmUpArgs (time : ℚ) : Args ℚ := ⟨1 / 10 * time, 50, 10, sizeBound - 2⟩

variable {R T : ℕ}

/-- All threads at the beginning of `exchange`. -/
def State.init (R T : ℕ) (checkRes : Bool) : State R T :=
  ⟨RepeatFor.init ℚ R T, RepeatFor.init ℚ R T, fun _ => if checkRes then .checking else .warmUp⟩

/-- A thread gets to another phase. -/
def State.setPhase (s : State R T) (p : Fin R × Fin T) (phase : Phase) : State R T :=
  { s with phase := Function.update s.phase p phase }

/-- The main steps whose barriers a thread has come to. -/
def State.arrivals (s : State R T) (p : Fin R × Fin T) : ℕ :=
  (s.main.caller p).fCalls + if s.phase p = .waiting ∨ s.phase p = .stepping then 1 else 0

/-- The main steps whose barriers a thread has left. -/
def State.passed (s : State R T) (p : Fin R × Fin T) : ℕ :=
  (s.main.caller p).fCalls + if s.phase p = .stepping then 1 else 0

/-- A thread has completed both loops. -/
def State.Finished (s : State R T) (p : Fin R × Fin T) : Prop :=
  s.phase p = .outside ∧ (s.main.caller p).pc = .done

/-- The next step of a thread, if it does not have to wait. Both calls of `repeat_for` have clocks of their
own. -/
def next (time : ℚ) (numReps : ℕ) (warmClock mainClock : ℕ → ℕ → ℕ → ℚ) (s : State R T)
    (p : Fin R × Fin T) : Option (State R T) :=
  let mainNext := RepeatFor.next (mainArgs time numReps) mainClock s.main p
  match s.phase p with
  | .checking => some (s.setPhase p .warmUp)
  | .warmUp =>
    match (s.warmUp.caller p).pc with
    | .done => some (s.setPhase p .outside)
    | _ => (RepeatFor.next (warmUpArgs time) warmClock s.warmUp p).map fun w => { s with warmUp := w }
  | .outside =>
    match (s.main.caller p).pc with
    | .body j =>
      if j < (mainArgs time numReps).step then some (s.setPhase p .waiting)
      else mainNext.map fun m => { s with main := m }
    | _ => mainNext.map fun m => { s with main := m }
  -- b(); if (j==0) MPI_Barrier(m_decomposition.mpi_comm()); b();
  | .waiting =>
    if ∀ q, (s.main.caller p).fCalls < s.arrivals q then some (s.setPhase p .stepping) else none
  | .stepping => mainNext.map fun m => { s.setPhase p .outside with main := m }

variable {time : ℚ} {numReps : ℕ} {warmClock mainClock : ℕ → ℕ → ℕ → ℚ} {s t : State R T}
  {p q : Fin R × Fin T} {checkRes : Bool}

/-- The states of all interleavings of the threads. -/
def Reached (checkRes : Bool) (time : ℚ) (numReps : ℕ) (warmClock mainClock : ℕ → ℕ → ℕ → ℚ)
    (s : State R T) : Prop :=
  Reachable (· = State.init R T checkRes) (Steps (next time numReps warmClock mainClock)) s

section Steps

/-- What a thread does. -/
inductive Moves (time : ℚ) (numReps : ℕ) (warmClock mainClock : ℕ → ℕ → ℕ → ℚ) (s : State R T)
    (p : Fin R × Fin T) : State R T → Prop
  | checked (hphase : s.phase p = .checking) :
    Moves time numReps warmClock mainClock s p (s.setPhase p .warmUp)
  | warmUp (w : RepeatFor.State ℚ R T) (hphase : s.phase p = .warmUp)
    (hw : RepeatFor.next (warmUpArgs time) warmClock s.warmUp p = some w) :
    Moves time numReps warmClock mainClock s p { s with warmUp := w }
  | warm (hphase : s.phase p = .warmUp) (hdone : (s.warmUp.caller p).pc = .done) :
    Moves time numReps warmClock mainClock s p (s.setPhase p .outside)
  | arrive (hphase : s.phase p = .outside)
    (hcalling : (s.main.caller p).Calling (mainArgs time numReps)) :
    Moves time numReps warmClock mainClock s p (s.setPhase p .waiting)
  | loop (m : RepeatFor.State ℚ R T) (hphase : s.phase p = .outside)
    (hcalling : ¬ (s.main.caller p).Calling (mainArgs time numReps))
    (hm : RepeatFor.next (mainArgs time numReps) mainClock s.main p = some m) :
    Moves time numReps warmClock mainClock s p { s with main := m }
  | meet (hphase : s.phase p = .waiting) (hall : ∀ q, (s.main.caller p).fCalls < s.arrivals q) :
    Moves time numReps warmClock mainClock s p (s.setPhase p .stepping)
  | step (m : RepeatFor.State ℚ R T) (hphase : s.phase p = .stepping)
    (hm : RepeatFor.next (mainArgs time numReps) mainClock s.main p = some m) :
    Moves time numReps warmClock mainClock s p { s.setPhase p .outside with main := m }

/-- Every step is one of these. -/
theorem moves_of_next (hstep : next time numReps warmClock mainClock s p = some t) :
    Moves time numReps warmClock mainClock s p t := by
  unfold next at hstep
  cases hphase : s.phase p with
  | checking =>
    simp only [hphase, Option.some.injEq] at hstep
    exact hstep ▸ .checked hphase
  | warmUp =>
    simp only [hphase] at hstep
    split at hstep
    · next hdone => exact Option.some.inj hstep ▸ .warm hphase hdone
    · obtain ⟨w, hw, rfl⟩ := Option.map_eq_some_iff.mp hstep
      exact .warmUp w hphase hw
  | outside =>
    simp only [hphase] at hstep
    split at hstep
    · next j hpc =>
      split at hstep
      · next hj => exact Option.some.inj hstep ▸ .arrive hphase ⟨j, hj, hpc⟩
      · next hj =>
        obtain ⟨m, hm, rfl⟩ := Option.map_eq_some_iff.mp hstep
        refine .loop m hphase ?_ hm
        rintro ⟨j', hj', hpc'⟩
        rw [hpc] at hpc'
        cases hpc'
        exact hj hj'
    · next hpc =>
      obtain ⟨m, hm, rfl⟩ := Option.map_eq_some_iff.mp hstep
      refine .loop m hphase ?_ hm
      rintro ⟨j', -, hpc'⟩
      exact hpc j' hpc'
  | waiting =>
    simp only [hphase] at hstep
    split at hstep
    · next hall => exact Option.some.inj hstep ▸ .meet hphase hall
    · cases hstep
  | stepping =>
    simp only [hphase] at hstep
    obtain ⟨m, hm, rfl⟩ := Option.map_eq_some_iff.mp hstep
    exact .step m hphase hm

end Steps

section Invariant

/-- Both calls of `repeat_for` keep their invariant, the main loop begins after the warm-up, and a thread
leaves the barriers of a main step when all threads have come to them. -/
structure Ok (time : ℚ) (numReps : ℕ) (warmClock mainClock : ℕ → ℕ → ℕ → ℚ) (s : State R T) : Prop where
  warmUp : Inv (warmUpArgs time) warmClock s.warmUp
  main : Inv (mainArgs time numReps) mainClock s.main
  early : ∀ p, s.phase p = .checking ∨ s.phase p = .warmUp → (s.main.caller p).fCalls = 0
  late : ∀ p, s.phase p ≠ .checking → s.phase p ≠ .warmUp → (s.warmUp.caller p).pc = .done
  calling : ∀ p, s.phase p = .waiting ∨ s.phase p = .stepping →
    (s.main.caller p).Calling (mainArgs time numReps)
  met : ∀ p q, s.passed p ≤ s.arrivals q

/-- The phase of the thread that has moved. -/
@[simp] theorem setPhase_self (s : State R T) (p : Fin R × Fin T) (phase : Phase) :
    (s.setPhase p phase).phase p = phase := Function.update_self _ _ _

/-- The phase of another thread. -/
theorem setPhase_of_ne (s : State R T) {p q : Fin R × Fin T} (h : q ≠ p) (phase : Phase) :
    (s.setPhase p phase).phase q = s.phase q := Function.update_of_ne h _ _

/-- A thread moves, without taking back that it has come to some barriers. -/
theorem Ok.of_move (h : Ok time numReps warmClock mainClock s)
    (hwarmUp : Inv (warmUpArgs time) warmClock t.warmUp)
    (hmain : Inv (mainArgs time numReps) mainClock t.main)
    (hother : ∀ q, q ≠ p → t.phase q = s.phase q ∧ t.main.caller q = s.main.caller q ∧
      t.warmUp.caller q = s.warmUp.caller q)
    (hearly : t.phase p = .checking ∨ t.phase p = .warmUp → (t.main.caller p).fCalls = 0)
    (hlate : t.phase p ≠ .checking → t.phase p ≠ .warmUp → (t.warmUp.caller p).pc = .done)
    (hcalling : t.phase p = .waiting ∨ t.phase p = .stepping →
      (t.main.caller p).Calling (mainArgs time numReps))
    (harrivals : s.arrivals p ≤ t.arrivals p) (hpassed : ∀ q, t.passed p ≤ s.arrivals q) :
    Ok time numReps warmClock mainClock t := by
  have hmono (q : Fin R × Fin T) : s.arrivals q ≤ t.arrivals q := by
    by_cases hq : q = p
    · exact hq ▸ harrivals
    · obtain ⟨hphase, hcaller, -⟩ := hother q hq
      rw [State.arrivals, State.arrivals, hphase, hcaller]
  refine ⟨hwarmUp, hmain, fun q => ?_, fun q => ?_, fun q => ?_, fun q q' => ?_⟩
  all_goals by_cases hq : q = p
  · exact hq ▸ hearly
  · obtain ⟨hphase, hcaller, -⟩ := hother q hq
    rw [hphase, hcaller]
    exact h.early q
  · exact hq ▸ hlate
  · obtain ⟨hphase, -, hcaller⟩ := hother q hq
    rw [hphase, hcaller]
    exact h.late q
  · exact hq ▸ hcalling
  · obtain ⟨hphase, hcaller, -⟩ := hother q hq
    rw [hphase, hcaller]
    exact h.calling q
  · exact hq ▸ (hpassed q').trans (hmono q')
  · obtain ⟨hphase, hcaller, -⟩ := hother q hq
    rw [State.passed, hphase, hcaller]
    exact (h.met q q').trans (hmono q')

/-- A thread gets to another phase. -/
theorem Ok.setPhase (h : Ok time numReps warmClock mainClock s) {phase : Phase}
    (hearly : phase = .checking ∨ phase = .warmUp → (s.main.caller p).fCalls = 0)
    (hlate : phase ≠ .checking → phase ≠ .warmUp → (s.warmUp.caller p).pc = .done)
    (hcalling : phase = .waiting ∨ phase = .stepping → (s.main.caller p).Calling (mainArgs time numReps))
    (harrivals : s.arrivals p ≤ (s.setPhase p phase).arrivals p)
    (hpassed : ∀ q, (s.setPhase p phase).passed p ≤ s.arrivals q) :
    Ok time numReps warmClock mainClock (s.setPhase p phase) := by
  refine h.of_move h.warmUp h.main (fun q hq => ⟨setPhase_of_ne s hq phase, rfl, rfl⟩) ?_ ?_ ?_
    harrivals hpassed
  all_goals rw [setPhase_self]
  · exact hearly
  · exact hlate
  · exact hcalling

/-- Every step keeps this. -/
theorem Ok.step (h : Ok time numReps warmClock mainClock s)
    (hstep : next time numReps warmClock mainClock s p = some t) : Ok time numReps warmClock mainClock t := by
  cases moves_of_next hstep with
  | checked hphase =>
    refine h.setPhase (fun _ => h.early p (Or.inl hphase)) (fun _ hno => absurd rfl hno) (by simp) ?_
      fun q => ?_
    · simp [State.arrivals, State.setPhase, hphase]
    · have hmet := h.met p q
      simpa [State.passed, State.setPhase, hphase] using hmet
  | warmUp w hphase hw =>
    obtain ⟨hother, -⟩ := next_frame hw
    refine h.of_move (h.warmUp.step hw) h.main (fun q hq => ⟨rfl, rfl, hother q hq⟩) (h.early p)
      (fun _ hno => absurd hphase hno) (h.calling p) le_rfl (h.met p)
  | warm hphase hdone =>
    refine h.setPhase (by simp) (fun _ _ => hdone) (by simp) ?_ fun q => ?_
    · simp [State.arrivals, State.setPhase, hphase]
    · have hmet := h.met p q
      simpa [State.passed, State.setPhase, hphase] using hmet
  | arrive hphase hcalling =>
    refine h.setPhase (by simp) (fun _ _ => h.late p (by simp [hphase]) (by simp [hphase]))
      (fun _ => hcalling) ?_ fun q => ?_
    · simp [State.arrivals, State.setPhase, hphase]
    · have hmet := h.met p q
      simpa [State.passed, State.setPhase, hphase] using hmet
  | loop m hphase hcalling hm =>
    obtain ⟨hother, -, hsame⟩ := next_frame hm
    have hsame := hsame hcalling
    refine h.of_move h.warmUp (h.main.step hm) (fun q hq => ⟨rfl, hother q hq, rfl⟩) (by simp [hphase])
      (h.late p) (by simp [hphase]) ?_ fun q => ?_
    · simp [State.arrivals, hsame]
    · have hmet := h.met p q
      simpa [State.passed, hsame] using hmet
  | meet hphase hall =>
    refine h.setPhase (by simp) (fun _ _ => h.late p (by simp [hphase]) (by simp [hphase]))
      (fun _ => h.calling p (Or.inl hphase)) ?_ fun q => ?_
    · simp [State.arrivals, State.setPhase, hphase]
    · have hpassed : (s.setPhase p .stepping).passed p = (s.main.caller p).fCalls + 1 := by
        simp [State.passed, State.setPhase]
      rw [hpassed]
      exact hall q
  | step m hphase hm =>
    obtain ⟨hother, hmore, -⟩ := next_frame hm
    have hmore := hmore (h.calling p (Or.inr hphase))
    refine h.of_move h.warmUp (h.main.step hm)
      (fun q hq => ⟨setPhase_of_ne s hq _, hother q hq, rfl⟩) (by simp)
      (fun _ _ => h.late p (by simp [hphase]) (by simp [hphase])) (by simp) ?_ fun q => ?_
    · simp [State.arrivals, State.setPhase, hphase, hmore]
    · have hmet := h.met p q
      simpa [State.passed, State.setPhase, hphase, hmore] using hmet

/-- It holds in every state of every run. -/
theorem Reached.ok (h : Reached checkRes time numReps warmClock mainClock s) :
    Ok time numReps warmClock mainClock s := by
  apply Reachable.invariant _ _ h
  · rintro _ rfl
    refine ⟨Reached.inv (Reachable.initial rfl), Reached.inv (Reachable.initial rfl), fun p _ => rfl,
      fun p hchecking hwarmUp => ?_, fun p hphase => ?_, fun p q => ?_⟩
    · cases checkRes <;> simp [State.init] at hchecking hwarmUp
    · cases checkRes <;> simp [State.init] at hphase
    · cases checkRes <;> simp [State.passed, State.init, RepeatFor.init, State.caller]
  · rintro s t hs ⟨p, hstep⟩
    exact hs.step hstep

/-- While a thread is in a main step, all threads have come to its barriers. -/
theorem Ok.met_of_stepping (h : Ok time numReps warmClock mainClock s) (hp : s.phase p = .stepping)
    (q : Fin R × Fin T) : s.phase q ≠ .checking ∧ s.phase q ≠ .warmUp ∧
      (s.main.caller p).fCalls ≤ (s.main.caller q).fCalls := by
  have hmet := h.met p q
  rw [State.passed, if_pos hp, State.arrivals] at hmet
  have hearly (hphase : s.phase q = .checking ∨ s.phase q = .warmUp) : False := by
    have hnot : ¬ (s.phase q = .waiting ∨ s.phase q = .stepping) := by
      rcases hphase with hphase | hphase <;> simp [hphase]
    rw [h.early q hphase, if_neg hnot] at hmet
    omega
  refine ⟨fun hphase => hearly (Or.inl hphase), fun hphase => hearly (Or.inr hphase), ?_⟩
  split at hmet <;> omega

end Invariant

section Progress

/-- In the warm-up the threads do not wait for each other outside of the broadcasts. -/
theorem Ok.warmUp_moves (h : Ok time numReps warmClock mainClock s)
    (hq : s.phase q = .checking ∨ s.phase q = .warmUp) :
    ∃ p t, next time numReps warmClock mainClock s p = some t := by
  rcases hq with hphase | hphase
  · exact ⟨q, s.setPhase q .warmUp, by simp only [next, hphase]⟩
  by_cases hdone : (s.warmUp.caller q).pc = .done
  · exact ⟨q, s.setPhase q .outside, by simp only [next, hphase, hdone]⟩
  · obtain ⟨p, hp, -, w, hw⟩ := h.warmUp.exists_can_move hdone
    by_cases hchecking : s.phase p = .checking
    · exact ⟨p, s.setPhase p .warmUp, by simp only [next, hchecking]⟩
    · have hwarmUp : s.phase p = .warmUp := by
        by_contra hno
        exact hp (h.late p hchecking hno)
      refine ⟨p, { s with warmUp := w }, ?_⟩
      simp only [next, hwarmUp]
      rw [hw]
      rfl

/-- In the main loop a least advanced thread can move, or one that has not yet come to the barriers. -/
theorem Ok.main_moves (h : Ok time numReps warmClock mainClock s)
    (hphases : ∀ q, s.phase q ≠ .checking ∧ s.phase q ≠ .warmUp) (hq : (s.main.caller q).pc ≠ .done) :
    ∃ p t, next time numReps warmClock mainClock s p = some t := by
  classical
  obtain ⟨q', hq', hleast⟩ := (Finset.univ.filter fun q => (s.main.caller q).pc ≠ .done).exists_min_image
    (fun q => (s.main.caller q).work (mainArgs time numReps)) ⟨q, by simpa using hq⟩
  simp only [Finset.mem_filter, Finset.mem_univ, true_and] at hq' hleast
  obtain ⟨p, hp, hwork, m, hm⟩ := h.main.exists_can_move hq'
  cases hphase : s.phase p with
  | checking => exact absurd hphase (hphases p).1
  | warmUp => exact absurd hphase (hphases p).2
  | outside =>
    by_cases hcalling : (s.main.caller p).Calling (mainArgs time numReps)
    · obtain ⟨j, hj, hpc⟩ := hcalling
      exact ⟨p, s.setPhase p .waiting, by simp only [next, hphase, hpc, if_pos hj]⟩
    · refine ⟨p, { s with main := m }, ?_⟩
      simp only [next, hphase]
      split
      · next j hpc =>
        rw [if_neg fun hj => hcalling ⟨j, hj, hpc⟩, hm]
        rfl
      · rw [hm]
        rfl
  | stepping =>
    refine ⟨p, { s.setPhase p .outside with main := m }, ?_⟩
    simp only [next, hphase, hm, Option.map_some]
  | waiting =>
    have hbehind (q : Fin R × Fin T) :
        (s.main.caller p).fCalls < (s.main.caller q).fCalls ∨
          (s.main.caller p).fCalls = (s.main.caller q).fCalls ∧
            (s.main.caller q).Calling (mainArgs time numReps) := by
      apply h.main.fCalls_of_work_le (h.calling p (Or.inl hphase))
      by_cases hdone : (s.main.caller q).pc = .done
      · exact Or.inl hdone
      · exact Or.inr (hwork.trans (hleast q hdone))
    by_cases hlate : ∃ q, s.phase q = .outside ∧ (s.main.caller q).Calling (mainArgs time numReps)
    · obtain ⟨q, hphase', j, hj, hpc⟩ := hlate
      exact ⟨q, s.setPhase q .waiting, by simp only [next, hphase', hpc, if_pos hj]⟩
    · -- all threads have come to the barriers
      refine ⟨p, s.setPhase p .stepping, ?_⟩
      simp only [next, hphase]
      refine if_pos fun q => ?_
      rcases hbehind q with hless | ⟨heq, hcalling⟩
      · exact hless.trans_le (Nat.le_add_right _ _)
      · have hcome : s.phase q = .waiting ∨ s.phase q = .stepping := by
          cases hphase' : s.phase q with
          | checking => exact absurd hphase' (hphases q).1
          | warmUp => exact absurd hphase' (hphases q).2
          | outside => exact absurd ⟨q, hphase', hcalling⟩ hlate
          | waiting => exact Or.inl rfl
          | stepping => exact Or.inr rfl
        rw [State.arrivals, if_pos hcome, heq]
        exact Nat.lt_succ_self _

/-- As long as some thread has not completed both loops, some thread can move. -/
theorem Ok.progress (h : Ok time numReps warmClock mainClock s) (hq : ¬ s.Finished q) :
    ∃ p t, next time numReps warmClock mainClock s p = some t := by
  by_cases hphases : ∀ q, s.phase q ≠ .checking ∧ s.phase q ≠ .warmUp
  · apply h.main_moves hphases (q := q)
    intro hdone
    apply hq
    refine ⟨?_, hdone⟩
    have hnot : ¬ (s.phase q = .waiting ∨ s.phase q = .stepping) := by
      intro hphase
      obtain ⟨j, -, hpc⟩ := h.calling q hphase
      rw [hdone] at hpc
      cases hpc
    cases hphase : s.phase q with
    | checking => exact absurd hphase (hphases q).1
    | warmUp => exact absurd hphase (hphases q).2
    | outside => rfl
    | waiting => exact absurd (Or.inl hphase) hnot
    | stepping => exact absurd (Or.inr hphase) hnot
  · push Not at hphases
    obtain ⟨q, hq⟩ := hphases
    apply h.warmUp_moves (q := q)
    by_cases hchecking : s.phase q = .checking
    · exact Or.inl hchecking
    · exact Or.inr (hq hchecking)

end Progress

section Termination

/-- The phases in the order in which a thread gets to them for the first time. -/
def Phase.rank : Phase → ℕ
  | checking => 0
  | warmUp => 1
  | outside => 2
  | waiting => 3
  | stepping => 4

/-- The ranks of the phases of all threads. -/
def State.ranks (s : State R T) : ℕ := ∑ p, (s.phase p).rank

/-- What all threads have done. A main step takes a thread back to the phase in front of its barriers. -/
def State.progress (time : ℚ) (numReps : ℕ) (s : State R T) : ℕ :=
  s.warmUp.work (warmUpArgs time) + 3 * s.main.work (mainArgs time numReps) + s.ranks

/-- The rank of one thread changes. -/
theorem ranks_setPhase (s : State R T) (p : Fin R × Fin T) (phase : Phase) :
    (s.setPhase p phase).ranks + (s.phase p).rank = s.ranks + phase.rank := by
  have hrest : ∑ q ∈ Finset.univ.erase p, ((s.setPhase p phase).phase q).rank =
      ∑ q ∈ Finset.univ.erase p, (s.phase q).rank := by
    apply Finset.sum_congr rfl
    intro q hq
    rw [setPhase_of_ne s (Finset.ne_of_mem_erase hq)]
  rw [State.ranks, State.ranks, ← Finset.add_sum_erase _ _ (Finset.mem_univ p), hrest, setPhase_self,
    ← Finset.add_sum_erase Finset.univ _ (Finset.mem_univ p)]
  omega

/-- Every step is progress. -/
theorem Ok.progress_lt (h : Ok time numReps warmClock mainClock s)
    (hstep : next time numReps warmClock mainClock s p = some t) :
    s.progress time numReps < t.progress time numReps := by
  have hrank {phase phase' : Phase} (hphase : s.phase p = phase) (hless : phase.rank < phase'.rank) :
      s.progress time numReps < (s.setPhase p phase').progress time numReps := by
    have hranks := ranks_setPhase s p phase'
    rw [hphase] at hranks
    have hwarmUp : (s.setPhase p phase').warmUp = s.warmUp := rfl
    have hmain : (s.setPhase p phase').main = s.main := rfl
    rw [State.progress, State.progress, hwarmUp, hmain]
    omega
  cases moves_of_next hstep with
  | checked hphase => exact hrank hphase Nat.zero_lt_one
  | warmUp w hphase hw =>
    have hwork := h.warmUp.work_lt hw
    exact Nat.add_lt_add_right (Nat.add_lt_add_right hwork _) _
  | warm hphase hdone => exact hrank hphase Nat.one_lt_two
  | arrive hphase hcalling => exact hrank hphase (Nat.lt_succ_self 2)
  | loop m hphase hcalling hm =>
    have hwork := h.main.work_lt hm
    exact Nat.add_lt_add_right (Nat.add_lt_add_left (Nat.mul_lt_mul_of_pos_left hwork three_pos) _) _
  | meet hphase hall => exact hrank hphase (Nat.lt_succ_self 3)
  | step m hphase hm =>
    have hwork := h.main.work_lt hm
    have hranks := ranks_setPhase s p .outside
    rw [hphase] at hranks
    have hranks : (s.setPhase p .outside).ranks + 4 = s.ranks + 2 := hranks
    change s.warmUp.work _ + 3 * s.main.work _ + s.ranks <
      s.warmUp.work _ + 3 * m.work _ + (s.setPhase p .outside).ranks
    omega

/-- The main loop ends when the number of repetitions is reached. -/
theorem exists_main_stops (hreps : numReps < 2 ^ 31) :
    (mainArgs time numReps).Stops mainClock (numReps / 100 + 1) := by
  left
  have hcount : (mainArgs time numReps).count (numReps / 100 + 1) = 100 * (numReps / 100 + 1) := by
    apply Nat.mod_eq_of_lt
    change 100 * (numReps / 100 + 1) < 2 ^ 64
    omega
  rw [hcount]
  change numReps ≤ _
  omega

/-- The progress is limited if the time for the warm-up is reached some time. -/
theorem Ok.progress_le (h : Ok time numReps warmClock mainClock s) (hreps : numReps < 2 ^ 31) {k : ℕ}
    (hk : 1 ≤ k) (hstops : (warmUpArgs time).Stops warmClock k) : s.progress time numReps ≤
      R * T * (14 * (k + 1)) + 3 * (R * T * (104 * (numReps / 100 + 1 + 1))) + R * T * 4 := by
  have hwarmUp := h.warmUp.sum_work_le hk hstops
  have hmain := h.main.sum_work_le (Nat.le_add_left 1 _) (exists_main_stops hreps)
  have hranks : s.ranks ≤ R * T * 4 := by
    have hsum := Finset.sum_le_card_nsmul Finset.univ (fun p => (s.phase p).rank) 4 fun p _ => by
      cases s.phase p <;> simp [Phase.rank]
    rwa [Finset.card_univ, Fintype.card_prod, Fintype.card_fin, Fintype.card_fin, smul_eq_mul] at hsum
  exact Nat.add_le_add (Nat.add_le_add hwarmUp (Nat.mul_le_mul_left 3 hmain)) hranks

/-- The length of every run is limited too. -/
theorem Reached.length_le (h : Reached checkRes time numReps warmClock mainClock s) (hreps : numReps < 2 ^ 31)
    {k : ℕ} (hk : 1 ≤ k) (hstops : (warmUpArgs time).Stops warmClock k) {actions : List (Fin R × Fin T)}
    (hrun : runActions (next time numReps warmClock mainClock) s actions = some t) : actions.length ≤
      R * T * (14 * (k + 1)) + 3 * (R * T * (104 * (numReps / 100 + 1 + 1))) + R * T * 4 := by
  have hlength := length_le_of_measure (State.progress time numReps)
    (fun _ _ _ hu => (Reached.ok hu).progress_lt)
    (fun _ hu => (Reached.ok hu).progress_le hreps hk hstops) h hrun
  omega

end Termination

/-- `exchange` with `--time`, in every interleaving of all threads of all ranks and whatever their clocks
show. While a thread is in a main step, all threads have completed the step before `check`, the warm-up and
the main steps before it, and no thread is in another main step. Threads that have completed both loops have
made the same numbers of steps. As long as some thread has not, some thread can move, although the main steps
wait for each other; and every run is finite, provided that the time for the warm-up is reached some time. -/
theorem timed_steps_apart (R T : ℕ) (checkRes : Bool) (time : ℚ) (numReps : ℕ)
    (warmClock mainClock : ℕ → ℕ → ℕ → ℚ) (s : State R T)
    (h : Reached checkRes time numReps warmClock mainClock s) :
    (∀ p, s.phase p = .stepping → ∀ q, s.phase q ≠ .checking ∧ (s.warmUp.caller q).pc = .done ∧
      (s.main.caller p).fCalls ≤ (s.main.caller q).fCalls ∧
      (s.phase q = .stepping → (s.main.caller q).fCalls = (s.main.caller p).fCalls)) ∧
    (∀ p q, s.Finished p → s.Finished q → (s.main.caller p).fCalls = (s.main.caller q).fCalls ∧
      (s.warmUp.caller p).fCalls = (s.warmUp.caller q).fCalls) ∧
    ((∃ p, ¬ s.Finished p) → ∃ p t, next time numReps warmClock mainClock s p = some t) ∧
    (numReps < 2 ^ 31 → ∀ k, 1 ≤ k → (warmUpArgs time).Stops warmClock k → ∃ bound, ∀ actions t,
      runActions (next time numReps warmClock mainClock) s actions = some t → actions.length ≤ bound) := by
  have hok := h.ok
  refine ⟨fun p hp q => ?_, fun p q hp hq => ?_, fun ⟨p, hp⟩ => hok.progress hp,
    fun hreps k hk hstops => ⟨_, fun actions t hrun => h.length_le hreps hk hstops hrun⟩⟩
  · obtain ⟨hchecking, hwarmUp, hle⟩ := hok.met_of_stepping hp q
    refine ⟨hchecking, hok.late q hchecking hwarmUp, hle, fun hq => ?_⟩
    exact Nat.le_antisymm (hok.met_of_stepping hq p).2.2 hle
  · have hwarmUp (p : Fin R × Fin T) (hp : s.Finished p) : (s.warmUp.caller p).pc = .done :=
      hok.late p (by simp [hp.1]) (by simp [hp.1])
    exact ⟨hok.main.fCalls_eq_of_done hp.2 hq.2, hok.warmUp.fCalls_eq_of_done (hwarmUp p hp) (hwarmUp q hq)⟩

/-- All threads in turn. -/
def turns (R T rounds : ℕ) : List (Fin R × Fin T) :=
  (List.replicate rounds ((List.finRange R).flatMap fun r => (List.finRange T).map fun t => (r, t))).flatten

/-- Two ranks, when the first one has just left the barriers of a main step. -/
theorem timed_steps_apart_turns : ∃ s : State 2 1,
    Reached true 0 100 (fun _ _ _ => 0) (fun _ _ _ => 0) s ∧ s.phase (0, 0) = .stepping ∧
    s.phase (1, 0) = .waiting ∧ (s.warmUp.caller (1, 0)).pc = .done := by
  let s : State 2 1 := runEnabled (next 0 100 (fun _ _ _ => 0) (fun _ _ _ => 0)) (State.init 2 1 true)
    (turns 2 1 61 ++ [(0, 0)])
  have hreached : Reached true 0 100 (fun _ _ _ => 0) (fun _ _ _ => 0) s :=
    reachable_runEnabled _ (Reachable.initial rfl)
  have hstepping : s.phase (0, 0) = .stepping := by decide +kernel
  refine ⟨s, hreached, hstepping, by decide +kernel, ?_⟩
  exact ((timed_steps_apart 2 1 true 0 100 _ _ s hreached).1 (0, 0) hstepping (1, 0)).2.1

end Ghexbench.Cartex.TimedLoop
