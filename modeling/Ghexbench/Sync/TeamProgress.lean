import Ghexbench.Sync.TeamRefines

/-!
# Progress of threads with their barriers

As long as the threads have not completed programs that follow a script, one of them can go on: it does
not wait in `MPI_Barrier`, and it does not just read a counter of its thread barrier again that has not
changed.
-/

namespace Ghexbench.Barrier

open Ghexbench.Common

/-- A single thread never counts in its barrier. -/
theorem Reached.single {n : ℕ} {s : State n} (h : Reached s) (hn : ¬ 2 ≤ n) (i : Fin n) :
    (s.threads i).pc = .outside ∨ (s.threads i).pc = .entry := by
  revert i
  apply Reachable.invariant _ _ h
  · intro s₀ hs₀ i
    exact Or.inl (by rw [hs₀]; rfl)
  · rintro s t hall ⟨⟨i, spurious⟩, hstep⟩ j
    simp only [next, Option.some.injEq] at hstep
    subst hstep
    by_cases hji : j = i
    · subst hji
      simp only [State.set, Function.update_self]
      rcases hall j with hpc | hpc
      · simp [threadStep, hpc]
      · have hnot : ¬ (1 : ℤ) < n := by omega
        simp [threadStep, hpc, hnot, Thread.ret]
    · simpa only [State.set, Function.update_of_ne hji] using hall j

end Ghexbench.Barrier

namespace Ghexbench.Team

open Ghexbench.Common

variable {layout : Layout} {α : Type*} {prog : ℕ × ℕ → List (Instr Gate α)} {s t : State layout α}
  {p q : ℕ × ℕ} {script : List (Entry (ℕ × ℕ) Gate α)}

/-- A thread can go on: it has a next action that changes the state, and this is not to read an unchanged
counter again. -/
def CanMove (prog : ℕ × ℕ → List (Instr Gate α)) (s : State layout α) (q : ℕ × ℕ) : Prop :=
  (∃ t, next prog s (q, false) = some t ∧ t ≠ s) ∧
    ∀ h : q.2 < layout.threads q.1, ¬ Barrier.Spinning (s.barriers q.1) ⟨q.2, h⟩

/-- Unless a thread reads an unchanged counter again, its actions change the state. -/
theorem ne_of_next {spurious : Bool} (hstep : next prog s (q, spurious) = some t)
    (hspin : ∀ h : q.2 < layout.threads q.1, ¬ Barrier.Spinning (s.barriers q.1) ⟨q.2, h⟩) : t ≠ s := by
  intro hsame
  cases (moves_of_next hstep).2 with
  | act hinstr =>
    have hlog := congrArg (fun s => s.log.length) hsame
    simp at hlog
  | enter hinstr hout =>
    have hinside := congrArg (fun s => s.inside q) hsame
    simp [hout] at hinside
  | leave hinstr hin hall =>
    have hinside := congrArg (fun s => s.inside q) hsame
    simp [hin] at hinside
  | atomic spurious ht hinstr =>
    have hbarrier := congrArg (fun s => s.barriers q.1) hsame
    simp only [State.atomic, Function.update_self] at hbarrier
    exact Barrier.next_ne_of_not_spinning (hspin ht) spurious (congrArg some hbarrier)

/-- A thread that has a next action and does not read an unchanged counter again can go on. -/
theorem canMove_of_isSome (hsome : (next prog s (q, false)).isSome)
    (hspin : ∀ h : q.2 < layout.threads q.1, ¬ Barrier.Spinning (s.barriers q.1) ⟨q.2, h⟩) :
    CanMove prog s q := by
  obtain ⟨t, hstep⟩ := Option.isSome_iff_exists.mp hsome
  exact ⟨⟨t, hstep, ne_of_next hstep hspin⟩, hspin⟩

/-- Outside its thread barrier a thread does not wait there. -/
theorem not_spinning (hpc : (s.thread q).pc = .outside) (h : q.2 < layout.threads q.1) :
    ¬ Barrier.Spinning (s.barriers q.1) ⟨q.2, h⟩ := by
  have hthread : s.thread q = (s.barriers q.1).threads ⟨q.2, h⟩ := dif_pos h
  rw [hthread] at hpc
  simp [Barrier.Spinning, hpc]

/-- A thread that calls its thread barrier has a next action. -/
theorem next_team (hq : q ∈ layout.members) (hinstr : (prog q)[s.done q]? = some (.sync (.team q.1))) :
    (next prog s (q, false)).isSome := by
  simp [next, layout.mem_members.mp hq, hinstr]

/-- If all threads of a rank have entered the call of the barrier that one of them is in, then one of
them can go on. -/
theorem Inv.exists_canMove (h : Inv prog s) (hq : q ∈ layout.members)
    (hin : (s.thread q).pc ≠ .outside) (hall : ∀ m ∈ layout.group (.team q.1),
      (layout.ensemble prog).departed s.outline q (.team q.1) <
        (layout.ensemble prog).entered s.outline m (.team q.1)) : ∃ p ∈ layout.members, CanMove prog s p := by
  obtain ⟨r, t⟩ := q
  obtain ⟨hr, ht⟩ := layout.mem_members.mp hq
  have hthread (j : Fin (layout.threads r)) : s.thread (r, j) = (s.barriers r).threads j :=
    dif_pos j.isLt
  have hcan (j : Fin (layout.threads r)) (hj : (s.thread (r, j)).pc ≠ .outside)
      (hspin : ¬ Barrier.Spinning (s.barriers r) j) : CanMove prog s (r, j) :=
    canMove_of_isSome (next_team (layout.mem_members.mpr ⟨hr, j.isLt⟩) (h.team (r, j) hj)) fun _ => hspin
  have hmember (j : Fin (layout.threads r)) : (r, j.val) ∈ layout.members :=
    layout.mem_members.mpr ⟨hr, j.isLt⟩
  by_cases hn : 2 ≤ layout.threads r
  · have hentered (j : Fin (layout.threads r)) : ((s.barriers r).threads ⟨t, ht⟩).entered ≤
        ((s.barriers r).threads j).entered := by
      have hlt := hall (r, j) (Finset.mem_filter.mpr ⟨hmember j, rfl⟩)
      have hself := (h.barriers r).entered_eq ⟨t, ht⟩
      have hreturned := h.returned (r, t) hq
      have hj : (layout.ensemble prog).entered s.outline (r, j) (.team r) = (s.thread (r, j)).entered :=
        h.entered_eq (hmember j)
      change ((prog (r, t)).take (s.done (r, t))).countP _ < _ at hlt
      rw [hj, ← hreturned, hthread j, hthread ⟨t, ht⟩] at hlt
      split at hself <;> omega
    have hinside : ((s.barriers r).threads ⟨t, ht⟩).Inside := by
      rw [Barrier.Thread.Inside, ← hthread]
      exact hin
    obtain ⟨j, hj, hspin⟩ := ((h.barriers r).inv hn).progress ⟨t, ht⟩ hinside hentered
    refine ⟨(r, j), hmember j, hcan j ?_ hspin⟩
    rw [hthread]
    exact hj
  · -- the only thread of the rank
    refine ⟨(r, t), hq, hcan ⟨t, ht⟩ hin ?_⟩
    rcases (h.barriers r).single hn ⟨t, ht⟩ with hpc | hpc
    · exact absurd ((congrArg Barrier.Thread.pc (hthread ⟨t, ht⟩)).trans hpc) hin
    · simp [Barrier.Spinning, hpc]

/-- A thread only calls barriers of groups it belongs to. -/
theorem mem_group_of_sync (hf : (layout.ensemble prog).Follows script) (hp : p ∈ layout.members)
    {n : ℕ} {g : Gate} (hinstr : (prog p)[n]? = some (.sync g)) : p ∈ layout.group g := by
  have hprog : prog p = (layout.ensemble prog).project script p := hf.prog p hp
  have hmem := List.mem_of_getElem? hinstr
  rw [hprog, Ensemble.project, List.mem_filterMap] at hmem
  obtain ⟨e, -, hview⟩ := hmem
  cases e with
  | act q a => simp [Ensemble.view] at hview
  | sync g' =>
    simp only [Ensemble.view, Option.ite_none_right_eq_some, Option.some.injEq, Instr.sync.injEq] at hview
    exact hview.2 ▸ hview.1

/-- As long as some thread has not completed its program, some thread can go on. -/
theorem Reached.exists_canMove (h : Reached prog s) (hf : (layout.ensemble prog).Follows script)
    (hq : q ∈ layout.members) (hlt : s.done q < (prog q).length) :
    ∃ p ∈ layout.members, CanMove prog s p := by
  by_contra hnone
  push Not at hnone
  have hinv := h.inv
  have hstuck (p : ℕ × ℕ) : (layout.ensemble prog).next s.outline p = none := by
    rw [Option.eq_none_iff_forall_ne_some]
    intro t hstep
    obtain ⟨hp, hmove⟩ := Ensemble.moves_of_next hstep
    have hlayout := layout.mem_members.mp hp
    have hmoves {g : Gate} (hinstr : (prog p)[s.done p]? = some (.sync g)) :
        g = .world ∨ g = .team p.1 := by
      have hgroup := mem_group_of_sync hf hp hinstr
      cases g with
      | world => exact Or.inl rfl
      | team r => exact Or.inr (congrArg Gate.team (Finset.mem_filter.mp hgroup).2.symm)
    cases hmove with
    | @act a hinstr =>
      have hinstr : (prog p)[s.done p]? = some (.act a) := hinstr
      refine hnone p hp (canMove_of_isSome ?_ (not_spinning (hinv.outside_of_act hinstr).2))
      simp [next, hlayout, hinstr]
    | @enter g hinstr hout =>
      have hinstr : (prog p)[s.done p]? = some (.sync g) := hinstr
      simp only [State.outline, Bool.or_eq_false_iff, decide_eq_false_iff_not, not_not] at hout
      refine hnone p hp (canMove_of_isSome ?_ (not_spinning hout.2))
      rcases hmoves hinstr with rfl | rfl
      · simp [next, hlayout, hinstr, hout.1]
      · exact next_team hp hinstr
    | @leave g hinstr hin hall =>
      have hinstr : (prog p)[s.done p]? = some (.sync g) := hinstr
      simp only [State.outline, Bool.or_eq_true, decide_eq_true_eq] at hin
      rcases hmoves hinstr with rfl | rfl
      · have hpc := hinv.outside_of_world hinstr
        have hinside : s.inside p = true := hin.resolve_right (not_not.mpr hpc)
        refine hnone p hp (canMove_of_isSome ?_ (not_spinning hpc))
        simp only [next, dif_pos hlayout, hinstr, hinside, Bool.true_eq_false, if_false, if_pos hall,
          Option.isSome_some]
      · have hpc : (s.thread p).pc ≠ .outside := by
          refine hin.resolve_left fun hinside => ?_
          have hworld := hinv.world p hinside
          rw [hinstr] at hworld
          cases hworld
        obtain ⟨m, hm, hcan⟩ := hinv.exists_canMove hp hpc hall
        exact hnone m hm hcan
  have hdone := hf.done_of_stuck hstuck hq
  have hprog : prog q = (layout.ensemble prog).project script q := hf.prog q hq
  rw [← hprog] at hdone
  exact absurd hlt (not_lt.mpr hdone)

end Ghexbench.Team
