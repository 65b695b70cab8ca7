import Ghexbench.Common.ScriptRuns
import Ghexbench.Sync.BarrierCorrect
import Ghexbench.Sync.Team

/-!
# Thread barriers as barriers of programs

Every call of a thread barrier, from the first atomic action to the last one, is a call of a barrier that a
thread enters and leaves: the atomics are a detail of its implementation. Hence what holds for all
programs with barriers holds for the threads with their atomic actions.
-/

namespace Ghexbench.Barrier

open Ghexbench.Common

variable {n : ℕ} {s : State n}

/-- What an atomic action does to a thread: it enters a call, goes on in it, or returns from it. -/
theorem threadStep_cases (numThreads : ℤ) (spurious : Bool) (c : Counters) (t : Thread) :
    let t' := (threadStep numThreads spurious c t).2
    (t.pc = .outside ∧ t'.pc ≠ .outside ∧ t'.entered = t.entered + 1 ∧ t'.returned = t.returned) ∨
    (t.pc ≠ .outside ∧ t'.pc ≠ .outside ∧ t'.entered = t.entered ∧ t'.returned = t.returned) ∨
    (t.pc ≠ .outside ∧ t'.pc = .outside ∧ t'.entered = t.entered ∧ t'.returned = t.returned + 1) := by
  intro t'
  cases hpc : t.pc with
  | outside => simp [t', threadStep, hpc]
  | loadUp => simp [t', threadStep, hpc, Thread.goto]
  | resetUp => simp [t', threadStep, hpc, Thread.goto]
  | loadDown => simp [t', threadStep, hpc, Thread.goto]
  | resetDown => simp [t', threadStep, hpc, Thread.ret]
  | entry =>
    by_cases hn : 1 < numThreads <;> simp [t', threadStep, hpc, hn, Thread.goto, Thread.ret]
  | casUp expected =>
    by_cases hcas : c.up = expected ∧ spurious = false
    · by_cases hlast : expected = numThreads - 1 <;>
        simp [t', threadStep, hpc, hcas, hlast, Thread.goto]
    · simp [t', threadStep, hpc, hcas, Thread.goto]
  | spinUp => by_cases hup : c.up = 0 <;> simp [t', threadStep, hpc, hup, Thread.goto]
  | spinDown =>
    by_cases hdown : c.down = numThreads <;> simp [t', threadStep, hpc, hdown, Thread.goto]
  | casDown ex =>
    by_cases hcas : c.down = ex ∧ spurious = false
    · by_cases hlast : ex = 1 <;> simp [t', threadStep, hpc, hcas, hlast, Thread.goto]
    · simp [t', threadStep, hpc, hcas, Thread.goto]
  | awaitDown =>
    by_cases hdown : c.down = numThreads <;> simp [t', threadStep, hpc, hdown, Thread.ret]

/-- A thread has entered the calls it has returned from, and the one it is in. -/
theorem Reached.entered_eq (h : Reached s) (i : Fin n) : (s.threads i).entered =
    (s.threads i).returned + if (s.threads i).pc = .outside then 0 else 1 := by
  revert i
  apply Reachable.invariant _ _ h
  · intro s₀ hs₀ i
    subst hs₀
    simp [init]
  · rintro s t hall ⟨⟨i, spurious⟩, hstep⟩ j
    simp only [next, Option.some.injEq] at hstep
    subst hstep
    have hj := hall j
    by_cases hji : j = i
    · subst hji
      have hcases := threadStep_cases n spurious s.counters (s.threads j)
      simp only [State.set, Function.update_self] at hcases ⊢
      rcases hcases with ⟨hpc, hpc', hentered, hreturned⟩ | ⟨hpc, hpc', hentered, hreturned⟩ |
        ⟨hpc, hpc', hentered, hreturned⟩ <;> simp [hpc] at hj <;> simp [hpc', hentered, hreturned, hj]
    · simpa only [State.set, Function.update_of_ne hji] using hj

/-- Nobody returns from a call that somebody has not entered, however many threads there are. -/
theorem Reached.returned_le (h : Reached s) (i j : Fin n) :
    (s.threads i).returned ≤ (s.threads j).entered := by
  by_cases hn : 2 ≤ n
  · obtain ⟨k, hk⟩ := (h.inv hn).entered_bounds
    exact (hk i).1.trans (hk j).2
  · have hij : i = j := Fin.ext (by have hi := i.isLt; have hj := j.isLt; omega)
    subst hij
    rw [h.entered_eq i]
    exact Nat.le_add_right _ _

end Ghexbench.Barrier

namespace Ghexbench.Team

open Ghexbench.Common

variable {layout : Layout} {α : Type*} {prog : ℕ × ℕ → List (Instr Gate α)} {s t : State layout α}

/-- Where the threads stand in their programs and in their barriers. -/
structure Inv (prog : ℕ × ℕ → List (Instr Gate α)) (s : State layout α) : Prop where
  barriers : ∀ r, Barrier.Reached (s.barriers r)
  returned : ∀ q ∈ layout.members,
    (s.thread q).returned = ((prog q).take (s.done q)).countP (Instr.isSync (.team q.1))
  team : ∀ q, (s.thread q).pc ≠ .outside → (prog q)[s.done q]? = some (.sync (.team q.1))
  world : ∀ q, s.inside q = true → (prog q)[s.done q]? = some (.sync .world)

/-- The start of the programs. -/
theorem Inv.init (prog : ℕ × ℕ → List (Instr Gate α)) : Inv prog (State.init : State layout α) where
  barriers r := Reachable.initial rfl
  returned q hq := by
    have ht := (layout.mem_members.mp hq).2
    simp [State.thread, State.init, ht, Barrier.init]
  team q hpc := by
    simp only [State.thread, State.init, Barrier.init] at hpc
    split at hpc <;> exact absurd rfl hpc
  world q h := by cases h

section Outline

variable {q : ℕ × ℕ} {i : Instr Gate α}

/-- The calls of the thread barrier that a thread has entered. -/
theorem Inv.entered_eq (h : Inv prog s) (hq : q ∈ layout.members) :
    (layout.ensemble prog).entered s.outline q (.team q.1) = (s.thread q).entered := by
  have ht := (layout.mem_members.mp hq).2
  have hthread : s.thread q = (s.barriers q.1).threads ⟨q.2, ht⟩ := dif_pos ht
  have hentered := (h.barriers q.1).entered_eq ⟨q.2, ht⟩
  rw [← hthread, h.returned q hq] at hentered
  rw [hentered]
  change ((prog q).take (s.done q + (s.inside q || decide ((s.thread q).pc ≠ .outside)).toNat)).countP
    _ = _
  by_cases hpc : (s.thread q).pc = .outside
  · simp only [hpc, ne_eq, not_true_eq_false, decide_false, Bool.or_false, if_true, add_zero]
    cases hin : s.inside q with
    | false => rfl
    | true =>
      rw [Bool.toNat_true, Ensemble.countP_take_succ (h.world q hin)]
      simp [Instr.isSync]
  · simp only [hpc, ne_eq, not_false_eq_true, decide_true, Bool.or_true, Bool.toNat_true, if_false]
    rw [Ensemble.countP_take_succ (h.team q hpc)]
    simp [Instr.isSync]

/-- A thread completes an instruction that is no call of its thread barrier. -/
theorem Inv.complete (h : Inv prog s) (hinstr : (prog q)[s.done q]? = some i)
    (hi : i.isSync (.team q.1) = false) (hbarriers : t.barriers = s.barriers)
    (hdone : t.done = Function.update s.done q (s.done q + 1))
    (hinside : ∀ q', t.inside q' = true → q' ≠ q ∧ s.inside q' = true) : Inv prog t := by
  have hthread (q' : ℕ × ℕ) : t.thread q' = s.thread q' := by
    unfold State.thread
    rw [hbarriers]
  refine ⟨fun r => hbarriers ▸ h.barriers r, fun q' hq' => ?_, fun q' hpc => ?_, fun q' hin => ?_⟩
  · rw [hthread, h.returned q' hq', hdone]
    by_cases hq : q' = q
    · subst hq
      rw [Function.update_self, Ensemble.countP_take_succ hinstr, hi]
      rfl
    · rw [Function.update_of_ne hq]
  · rw [hthread] at hpc
    have hsync := h.team q' hpc
    by_cases hq : q' = q
    · subst hq
      rw [hinstr, Option.some.injEq] at hsync
      simp [hsync, Instr.isSync] at hi
    · rwa [hdone, Function.update_of_ne hq]
  · obtain ⟨hq, hin'⟩ := hinside q' hin
    rw [hdone, Function.update_of_ne hq]
    exact h.world q' hin'

/-- A thread that is about to perform an action is in no barrier. -/
theorem Inv.outside_of_act {a : α} (h : Inv prog s) (hinstr : (prog q)[s.done q]? = some (.act a)) :
    s.inside q = false ∧ (s.thread q).pc = .outside := by
  constructor
  · by_contra hin
    have hworld := h.world q (eq_true_of_ne_false hin)
    rw [hinstr] at hworld
    cases hworld
  · by_contra hpc
    have hteam := h.team q hpc
    rw [hinstr] at hteam
    cases hteam

/-- A thread that is about to call `MPI_Barrier`, or is inside, is not in its thread barrier. -/
theorem Inv.outside_of_world (h : Inv prog s) (hinstr : (prog q)[s.done q]? = some (.sync .world)) :
    (s.thread q).pc = .outside := by
  by_contra hpc
  have hteam := h.team q hpc
  rw [hinstr] at hteam
  cases hteam

end Outline

section Steps

variable {q : ℕ × ℕ}

/-- What an atomic action does. -/
inductive Moves (prog : ℕ × ℕ → List (Instr Gate α)) (s : State layout α) (q : ℕ × ℕ) :
    State layout α → Prop
  | act {a : α} (hinstr : (prog q)[s.done q]? = some (.act a)) :
    Moves prog s q { s with
      done := Function.update s.done q (s.done q + 1), log := s.log ++ [(q, a)] }
  | enter (hinstr : (prog q)[s.done q]? = some (.sync .world)) (hout : s.inside q = false) :
    Moves prog s q { s with inside := Function.update s.inside q true }
  | leave (hinstr : (prog q)[s.done q]? = some (.sync .world)) (hin : s.inside q = true)
    (hall : ∀ m ∈ (layout.ensemble prog).group .world, (layout.ensemble prog).departed s.outline q
      .world < (layout.ensemble prog).entered s.outline m .world) :
    Moves prog s q { s with
      done := Function.update s.done q (s.done q + 1)
      inside := Function.update s.inside q false }
  | atomic (spurious : Bool) (hq : q.2 < layout.threads q.1)
    (hinstr : (prog q)[s.done q]? = some (.sync (.team q.1))) :
    Moves prog s q (s.atomic q hq spurious)

/-- Every step is one of these, of one of the threads. -/
theorem moves_of_next {spurious : Bool} (hstep : next prog s (q, spurious) = some t) :
    q ∈ layout.members ∧ Moves prog s q t := by
  simp only [next] at hstep
  split at hstep
  · next hq =>
    refine ⟨layout.mem_members.mpr hq, ?_⟩
    cases hinstr : (prog q)[s.done q]? with
    | none => simp [hinstr] at hstep
    | some i =>
      cases i with
      | act a =>
        simp only [hinstr, Option.some.injEq] at hstep
        exact hstep ▸ Moves.act hinstr
      | sync g =>
        cases g with
        | world =>
          simp only [hinstr] at hstep
          split at hstep
          · next hout =>
            simp only [Option.some.injEq] at hstep
            exact hstep ▸ Moves.enter hinstr hout
          · next hin =>
            simp only [Option.ite_none_right_eq_some, Option.some.injEq] at hstep
            exact hstep.2 ▸ Moves.leave hinstr (eq_true_of_ne_false hin) hstep.1
        | team r =>
          simp only [hinstr, Option.ite_none_right_eq_some, Option.some.injEq] at hstep
          obtain ⟨rfl, hstep⟩ := hstep
          exact hstep ▸ Moves.atomic spurious hq.2 hinstr
  · cases hstep

/-- The thread that acts in its barrier, and the others. -/
theorem thread_atomic (hq : q.2 < layout.threads q.1) (spurious : Bool) (q' : ℕ × ℕ) :
    (s.atomic q hq spurious).thread q' =
      if q' = q then (Barrier.threadStep (layout.threads q.1) spurious (s.barriers q.1).counters
        (s.thread q)).2
      else s.thread q' := by
  have hthread : s.thread q = (s.barriers q.1).threads ⟨q.2, hq⟩ := dif_pos hq
  rw [hthread]
  obtain ⟨r, j⟩ := q
  obtain ⟨r', j'⟩ := q'
  unfold State.thread State.atomic
  by_cases hr : r' = r
  · subst hr
    simp only [Function.update_self, Barrier.State.set]
    by_cases hj : j' = j
    · subst hj
      rw [dif_pos hq, if_pos rfl, Function.update_self]
    · rw [if_neg (by simpa using hj)]
      split
      · next hlt => rw [Function.update_of_ne (by simpa [Fin.ext_iff] using hj)]
      · rfl
  · rw [if_neg (by simp [hr])]
    simp only [Function.update_of_ne hr]

/-- The instructions that are completed after an atomic action. -/
theorem done_atomic (hq : q.2 < layout.threads q.1) (spurious : Bool) (q' : ℕ × ℕ) :
    (s.atomic q hq spurious).done q' = s.done q' +
      if q' = q ∧ ((s.atomic q hq spurious).thread q).pc = .outside then 1 else 0 := by
  have hthread : s.thread q = (s.barriers q.1).threads ⟨q.2, hq⟩ := dif_pos hq
  rw [thread_atomic, if_pos rfl, hthread]
  simp only [State.atomic]
  split
  · next hpc =>
    by_cases hq' : q' = q
    · subst hq'
      simp [hpc]
    · simp [hq']
  · next hpc => simp [hpc]

/-- An atomic action keeps the invariant. -/
theorem Inv.atomic (h : Inv prog s) (hq : q ∈ layout.members)
    (hinstr : (prog q)[s.done q]? = some (.sync (.team q.1))) (ht : q.2 < layout.threads q.1)
    (spurious : Bool) : Inv prog (s.atomic q ht spurious) := by
  have hcases := Barrier.threadStep_cases (layout.threads q.1) spurious (s.barriers q.1).counters
    (s.thread q)
  have hthread := thread_atomic (s := s) ht spurious
  have hdone := done_atomic (s := s) ht spurious
  have hself := hthread q
  rw [if_pos rfl] at hself
  simp only [← hself] at hcases
  refine ⟨fun r => ?_, fun q' hq' => ?_, fun q' hpc => ?_, fun q' hin => ?_⟩
  · by_cases hr : r = q.1
    · subst hr
      refine (h.barriers q.1).tail ⟨(⟨q.2, ht⟩, spurious), ?_⟩
      simp only [Barrier.next, State.atomic, Function.update_self]
    · simp only [State.atomic, Function.update_of_ne hr]
      exact h.barriers r
  · by_cases hqq : q' = q
    · subst hqq
      have hreturned := h.returned q' hq
      have hcount : ((prog q').take (s.done q' + 1)).countP (Instr.isSync (.team q'.1)) =
          (s.thread q').returned + 1 := by
        rw [Ensemble.countP_take_succ hinstr, hreturned]
        simp [Instr.isSync]
      rw [hdone]
      rcases hcases with ⟨-, hpc, -, hret⟩ | ⟨-, hpc, -, hret⟩ | ⟨-, hpc, -, hret⟩
      · simp [hpc, hret, hreturned]
      · simp [hpc, hret, hreturned]
      · simp [hpc, hret, hcount]
    · rw [hthread, if_neg hqq, hdone]
      simp [hqq, h.returned q' hq']
  · by_cases hqq : q' = q
    · subst hqq
      rw [hdone]
      simp [hpc, hinstr]
    · rw [hthread, if_neg hqq] at hpc
      rw [hdone]
      simp [hqq, h.team q' hpc]
  · have hworld := h.world q' hin
    by_cases hqq : q' = q
    · subst hqq
      rw [hinstr] at hworld
      cases hworld
    · rw [hdone]
      simp [hqq, hworld]

/-- Every step keeps the invariant. -/
theorem Inv.step (h : Inv prog s) {spurious : Bool} (hstep : next prog s (q, spurious) = some t) :
    Inv prog t := by
  obtain ⟨hq, hmove⟩ := moves_of_next hstep
  cases hmove with
  | act hinstr =>
    refine h.complete hinstr rfl rfl rfl fun q' hin => ⟨?_, hin⟩
    rintro rfl
    rw [(h.outside_of_act hinstr).1] at hin
    cases hin
  | enter hinstr hout =>
    refine ⟨h.barriers, h.returned, h.team, fun q' hin => ?_⟩
    by_cases hqq : q' = q
    · exact hqq ▸ hinstr
    · exact h.world q' (by simpa [hqq] using hin)
  | leave hinstr hin hall =>
    refine h.complete hinstr rfl rfl rfl fun q' hin' => ?_
    by_cases hqq : q' = q
    · simp [hqq] at hin'
    · exact ⟨hqq, by simpa [hqq] using hin'⟩
  | atomic spurious ht hinstr => exact h.atomic hq hinstr ht spurious

end Steps

section Outline

variable {q : ℕ × ℕ}

/-- A thread may return from its thread barrier only when all threads of its rank have entered it. -/
theorem Inv.all_entered (h : Inv prog s) (hq : q ∈ layout.members)
    (hinstr : (prog q)[s.done q]? = some (.sync (.team q.1))) (ht : q.2 < layout.threads q.1)
    {spurious : Bool} (hin : (s.thread q).pc ≠ .outside)
    (hout : ((s.atomic q ht spurious).thread q).pc = .outside) : ∀ m ∈ layout.group (.team q.1),
      (layout.ensemble prog).departed s.outline q (.team q.1) <
        (layout.ensemble prog).entered s.outline m (.team q.1) := by
  intro m hm
  obtain ⟨hmember, hrank⟩ := Finset.mem_filter.mp hm
  have htm := (layout.mem_members.mp hmember).2
  have hafter := h.atomic hq hinstr ht spurious
  have hthread := thread_atomic (s := s) ht spurious
  have hcases := Barrier.threadStep_cases (layout.threads q.1) spurious (s.barriers q.1).counters
    (s.thread q)
  have hself := hthread q
  rw [if_pos rfl] at hself
  simp only [← hself] at hcases
  rcases hcases with ⟨hpc, -⟩ | ⟨-, hpc, -⟩ | ⟨-, -, hentered, hreturned⟩
  · exact absurd hpc hin
  · exact absurd hout hpc
  · -- after the action the thread has returned, and the others have not moved
    have hsame : ((s.atomic q ht spurious).thread m).entered = (s.thread m).entered := by
      rw [hthread]
      split
      · next heq =>
        subst heq
        rw [← hself, hentered]
      · rfl
    obtain ⟨r, j⟩ := q
    obtain ⟨r', j'⟩ := m
    obtain rfl : r' = r := hrank
    have hle := (hafter.barriers r').returned_le ⟨j, ht⟩ ⟨j', htm⟩
    have hq' : (s.atomic (r', j) ht spurious).thread (r', j) =
        ((s.atomic (r', j) ht spurious).barriers r').threads ⟨j, ht⟩ := dif_pos ht
    have hm' : (s.atomic (r', j) ht spurious).thread (r', j') =
        ((s.atomic (r', j) ht spurious).barriers r').threads ⟨j', htm⟩ := dif_pos htm
    rw [← hq', ← hm', hsame, hreturned, h.returned _ hq] at hle
    have heq : (layout.ensemble prog).entered s.outline (r', j') (.team r') =
        (s.thread (r', j')).entered := h.entered_eq hmember
    rw [heq]
    exact hle

/-- The outline after a thread has entered or left a barrier. -/
theorem outline_eq (inside : Bool) (done : ℕ) (hdone : t.done = Function.update s.done q done)
    (hlog : t.log = s.log) (hself : (t.outline).inside q = inside)
    (hothers : ∀ q', q' ≠ q → (t.outline).inside q' = (s.outline).inside q') :
    t.outline = { s.outline with
      done := Function.update s.done q done
      inside := Function.update s.outline.inside q inside } := by
  have hinside : t.outline.inside = Function.update s.outline.inside q inside := by
    funext q'
    by_cases hqq : q' = q
    · subst hqq
      rw [hself, Function.update_self]
    · rw [hothers q' hqq, Function.update_of_ne hqq]
  rw [← hinside, ← hdone]
  change (⟨t.done, t.outline.inside, t.log⟩ : EnsembleState (ℕ × ℕ) α) = _
  rw [hlog]
  rfl

/-- An atomic action in a thread barrier enters or leaves it, or is not visible. -/
theorem Inv.outline_atomic (h : Inv prog s) (hq : q ∈ layout.members)
    (hinstr : (prog q)[s.done q]? = some (.sync (.team q.1))) (ht : q.2 < layout.threads q.1)
    (spurious : Bool) : Steps (layout.ensemble prog).next s.outline (s.atomic q ht spurious).outline ∨
      (s.atomic q ht spurious).outline = s.outline := by
  have hthread := thread_atomic (s := s) ht spurious
  have hdone := done_atomic (s := s) ht spurious
  have hcases := Barrier.threadStep_cases (layout.threads q.1) spurious (s.barriers q.1).counters
    (s.thread q)
  have hself := hthread q
  rw [if_pos rfl] at hself
  simp only [← hself] at hcases
  have hout : s.inside q = false := by
    by_contra hin
    have hworld := h.world q (eq_true_of_ne_false hin)
    rw [hinstr] at hworld
    cases hworld
  have hinside (q' : ℕ × ℕ) : (s.atomic q ht spurious).outline.inside q' =
      (s.inside q' || decide (((s.atomic q ht spurious).thread q').pc ≠ .outside)) := rfl
  have hothers (q' : ℕ × ℕ) (hqq : q' ≠ q) :
      (s.atomic q ht spurious).outline.inside q' = s.outline.inside q' := by
    rw [hinside, hthread, if_neg hqq]
    rfl
  have hupdate : (s.atomic q ht spurious).done =
      Function.update s.done q ((s.atomic q ht spurious).done q) := by
    funext q'
    by_cases hqq : q' = q
    · subst hqq
      rw [Function.update_self]
    · rw [Function.update_of_ne hqq, hdone]
      simp [hqq]
  have hdoneq := hdone q
  rcases hcases with ⟨hbefore, hafter, -⟩ | ⟨hbefore, hafter, -⟩ | ⟨hbefore, hafter, -⟩
  · left
    refine ⟨q, ?_⟩
    rw [outline_eq true _ hupdate rfl (by simp [hinside, hafter]) hothers]
    simp only [hafter, and_false, if_false, add_zero] at hdoneq
    have hin : s.outline.inside q = false := by simp [State.outline, hout, hbefore]
    rw [hdoneq, Function.update_eq_self]
    exact (Ensemble.Moves.enter hinstr hin).next_eq hq
  · right
    rw [outline_eq true _ hupdate rfl (by simp [hinside, hafter]) hothers]
    simp only [hafter, and_false, if_false, add_zero] at hdoneq
    have hin : s.outline.inside q = true := by simp [State.outline, hbefore]
    rw [hdoneq, Function.update_eq_self, ← hin, Function.update_eq_self]
    rfl
  · left
    refine ⟨q, ?_⟩
    rw [outline_eq false _ hupdate rfl (by simp [hinside, hafter, hout]) hothers]
    simp only [hafter, and_self, if_true] at hdoneq
    have hin : s.outline.inside q = true := by simp [State.outline, hbefore]
    rw [hdoneq]
    have hall := h.all_entered hq hinstr ht hbefore hafter
    exact (Ensemble.Moves.leave hinstr hin hall).next_eq hq

/-- A step is a step of the programs with barriers, or not visible there. -/
theorem Inv.outline_step (h : Inv prog s) {spurious : Bool}
    (hstep : next prog s (q, spurious) = some t) :
    Steps (layout.ensemble prog).next s.outline t.outline ∨ t.outline = s.outline := by
  obtain ⟨hq, hmove⟩ := moves_of_next hstep
  cases hmove with
  | @act a hinstr =>
    left
    exact ⟨q, (Ensemble.Moves.act (E := layout.ensemble prog) (s := s.outline) hinstr).next_eq hq⟩
  | enter hinstr hout =>
    left
    refine ⟨q, ?_⟩
    have hpc := h.outside_of_world hinstr
    have hin : s.outline.inside q = false := by simp [State.outline, hout, hpc]
    have heq : ({ s with inside := Function.update s.inside q true } : State layout α).outline =
        { s.outline with
          done := Function.update s.done q (s.done q)
          inside := Function.update s.outline.inside q true } := by
      refine outline_eq true (s.done q) (Function.update_eq_self q s.done).symm rfl ?_ ?_
      · simp [State.outline]
      · intro q' hqq
        simp only [State.outline, Function.update_of_ne hqq]
        rfl
    rw [heq, Function.update_eq_self]
    exact (Ensemble.Moves.enter hinstr hin).next_eq hq
  | leave hinstr hin hall =>
    left
    refine ⟨q, ?_⟩
    have hpc : (s.thread q).pc = .outside := h.outside_of_world hinstr
    have hinside : s.outline.inside q = true := by simp [State.outline, hin]
    have heq : ({ s with
        done := Function.update s.done q (s.done q + 1)
        inside := Function.update s.inside q false } : State layout α).outline =
        { s.outline with
          done := Function.update s.done q (s.done q + 1)
          inside := Function.update s.outline.inside q false } := by
      refine outline_eq false (s.done q + 1) rfl rfl ?_ ?_
      · simp only [State.outline, Function.update_self, Bool.false_or]
        exact decide_eq_false (not_not.mpr hpc)
      · intro q' hqq
        simp only [State.outline, Function.update_of_ne hqq]
        rfl
    rw [heq]
    exact (Ensemble.Moves.leave hinstr hinside hall).next_eq hq
  | atomic spurious ht hinstr => exact h.outline_atomic hq hinstr ht spurious

/-- Every interleaving keeps the invariant. -/
theorem Reached.inv (h : Reached prog s) : Inv prog s := by
  apply Reachable.invariant _ _ h
  · intro s₀ hs₀
    exact hs₀ ▸ Inv.init prog
  · rintro s t hs ⟨⟨q, spurious⟩, hstep⟩
    exact hs.step hstep

/-- Without the counters of the thread barriers, a run is a run of the programs with barriers. -/
theorem Reached.outline (h : Reached prog s) : (layout.ensemble prog).Reached s.outline := by
  refine Reachable.simulation State.outline ?_ ?_ h
  · intro s₀ hs₀
    subst hs₀
    have hthread (q : ℕ × ℕ) : ((State.init : State layout α).thread q).pc = .outside := by
      simp only [State.thread, State.init, Barrier.init]
      split <;> rfl
    simp only [State.outline, hthread]
    rfl
  · rintro s t hs ⟨⟨q, spurious⟩, hstep⟩
    exact (Reached.inv hs).outline_step hstep

end Outline

end Ghexbench.Team
