import Ghexbench.Sync.Barrier
import Mathlib.Tactic.Linarith

/-!
# Correctness of the thread barrier

In every reachable state one call of the barrier is in progress, and it is either gathering
the threads, with `m_up` counting those that have joined, or releasing them, with `m_down`
counting those that have not yet dropped. The last thread to join turns gathering into
releasing, the last to drop starts the next call. The counters are reset only when no
thread reads them in a spin loop of another call, so no reset is missed.
-/

namespace Ghexbench.Barrier

open Ghexbench.Common

variable {n : ℕ}

/-- A thread that has counted itself up and has not yet seen the counter reset. -/
def Thread.Joined (t : Thread) : Prop := t.pc = .spinUp ∨ t.pc = .resetUp

/-- A thread that has counted itself down and has not yet left. -/
def Thread.Dropped (t : Thread) : Prop := t.pc = .awaitDown ∨ t.pc = .resetDown

/-- A thread that is about to change `m_down`, or to read it for that purpose. -/
def Thread.Counting (t : Thread) : Prop := t.pc = .loadDown ∨ ∃ ex, t.pc = .casDown ex

instance : DecidablePred Thread.Joined := fun t => by unfold Thread.Joined; infer_instance

instance : DecidablePred Thread.Dropped := fun t => by unfold Thread.Dropped; infer_instance

/-- Where a thread may be while call `k` (from zero) gathers the threads. A thread that has
not noticed the end of the previous call still waits in it. -/
def GatherThread (k : ℕ) (t : Thread) : Prop :=
  match t.pc with
  | .outside => t.entered = k ∧ t.returned = k
  | .entry | .loadUp | .casUp _ | .spinUp | .resetUp => t.entered = k + 1 ∧ t.returned = k
  | .awaitDown => t.entered = k ∧ t.returned + 1 = k
  | .spinDown | .loadDown | .casDown _ | .resetDown => False

/-- Where a thread may be while call `k` releases the threads: nobody has left it. -/
def ReleaseThread (k : ℕ) (t : Thread) : Prop :=
  match t.pc with
  | .spinUp | .spinDown | .loadDown | .casDown _ | .resetDown | .awaitDown =>
    t.entered = k + 1 ∧ t.returned = k
  | .outside | .entry | .loadUp | .casUp _ | .resetUp => False

/-- Call `k` gathers the threads: `m_up` counts those that joined, `m_down` is full, and the
one that completes the count is about to reset it. -/
structure Gather (k : ℕ) (s : State n) : Prop where
  up : s.counters.up = countOf Thread.Joined s.threads
  down : s.counters.down = n
  threads : ∀ i, GatherThread k (s.threads i)
  tally : Tally Thread.Joined (·.pc = .resetUp) s.threads

/-- Call `k` releases the threads: `m_up` is reset, `m_down` counts those that have not yet
dropped, and the one that completes the count is about to reset it. -/
structure Release (k : ℕ) (s : State n) : Prop where
  up : s.counters.up = 0
  down : s.counters.down = n - countOf Thread.Dropped s.threads
  threads : ∀ i, ReleaseThread k (s.threads i)
  first : countOf Thread.Dropped s.threads = 0 → ∃ i, (s.threads i).Counting
  tally : Tally Thread.Dropped (·.pc = .resetDown) s.threads

/-- Every call is either gathering or releasing. -/
def Inv (s : State n) : Prop := ∃ k, Gather k s ∨ Release k s

/-- A gathering call is one of the two. -/
theorem Gather.inv {k : ℕ} {s : State n} (h : Gather k s) : Inv s := ⟨k, Or.inl h⟩

/-- A releasing call is one of the two. -/
theorem Release.inv {k : ℕ} {s : State n} (h : Release k s) : Inv s := ⟨k, Or.inr h⟩

/-- Storing back what a thread already has changes nothing. -/
theorem State.set_self (s : State n) (i : Fin n) : s.set i (s.counters, s.threads i) = s := by
  simp [State.set]

/-- A property of all threads survives a step of one of them that keeps it. -/
theorem State.forall_set {p : Thread → Prop} {s : State n} (h : ∀ j, p (s.threads j)) (i : Fin n)
    {r : Counters × Thread} (hr : p r.2) (j : Fin n) : p ((s.set i r).threads j) := by
  by_cases hji : j = i
  · subst hji
    simpa [State.set] using hr
  · simpa [State.set, Function.update_of_ne hji] using h j

section Gather

variable {s : State n} {i : Fin n} {k : ℕ}

/-- While call `k` gathers, a thread may move between program points before it joins. -/
theorem Gather.move (h : Gather k s) {t : Thread} (hi : ¬ (s.threads i).Joined)
    (ht : ¬ t.Joined) (hk : GatherThread k t) : Gather k (s.set i (s.counters, t)) where
  up := by
    rw [State.set, countOf_update_same _ _ _ _ (iff_of_false ht hi)]
    exact h.up
  down := h.down
  threads := State.forall_set h.threads i hk
  tally := h.tally.move (fun _ => Or.inr) hi ht

/-- A successful compare-exchange on `m_up` joins the call; the last one completes it. -/
theorem Gather.join (h : Gather k s) {expected : ℤ} (hpc : (s.threads i).pc = .casUp expected)
    (hup : s.counters.up = expected) :
    Gather k (s.set i ({ s.counters with up := expected + 1 },
      (s.threads i).goto (if expected = n - 1 then .resetUp else .spinUp))) := by
  have hi : ¬ (s.threads i).Joined := by simp [Thread.Joined, hpc]
  have hthread := h.threads i
  simp only [GatherThread, hpc] at hthread
  have hcounted := h.up
  set t := (s.threads i).goto (if expected = n - 1 then .resetUp else .spinUp) with ht
  have hjoined : t.Joined := by
    by_cases hlast : expected = n - 1 <;> simp [ht, Thread.Joined, Thread.goto, hlast]
  have hlast : t.pc = .resetUp ↔ countOf Thread.Joined s.threads + 1 = Fintype.card (Fin n) := by
    rw [Fintype.card_fin]
    by_cases hlast : expected = n - 1
    · simp only [ht, Thread.goto, if_pos hlast, true_iff]
      omega
    · simp only [ht, Thread.goto, if_neg hlast, reduceCtorEq, false_iff]
      omega
  refine ⟨?_, h.down, State.forall_set h.threads i ?_,
    h.tally.arrive (fun _ => Or.inr) hi hjoined hlast⟩
  · simp only [State.set, countOf_update_enter _ _ _ _ hi hjoined]
    push_cast
    omega
  · by_cases hlast : expected = n - 1 <;>
      simpa [GatherThread, ht, Thread.goto, hlast] using hthread

/-- Resetting `m_up` turns gathering into releasing. -/
theorem Gather.release (h : Gather k s) (hpc : (s.threads i).pc = .resetUp) :
    Release k (s.set i ({ s.counters with up := 0 }, (s.threads i).goto .loadDown)) := by
  have hother (j : Fin n) (hj : j ≠ i) : (s.threads j).pc = .spinUp :=
    let hjoined := h.tally.last i hpc j hj
    hjoined.1.resolve_right hjoined.2
  have hnone (j : Fin n) :
      ¬ (Function.update s.threads i ((s.threads i).goto .loadDown) j).Dropped := by
    by_cases hj : j = i
    · subst hj
      simp [Thread.Dropped, Thread.goto]
    · simp [Thread.Dropped, Function.update_of_ne hj, hother j hj]
  have hzero := (countOf_eq_zero_iff Thread.Dropped _).mpr hnone
  have : Nonempty (Fin n) := ⟨i⟩
  refine ⟨rfl, ?_, fun j => ?_, fun _ => ⟨i, Or.inl ?_⟩, Tally.empty (fun _ => Or.inr) hnone⟩
  · simp only [State.set, hzero, h.down]
    simp
  · have hthread := h.threads j
    by_cases hj : j = i
    · subst hj
      simpa [State.set, GatherThread, ReleaseThread, Thread.goto, hpc] using hthread
    · simpa [State.set, GatherThread, ReleaseThread, hj, hother j hj] using hthread
  · simp [State.set, Thread.goto]

/-- Every step of a gathering call keeps it gathering or starts its release. -/
theorem Gather.step (h : Gather k s) (hn : 2 ≤ n) (spurious : Bool) :
    Inv (s.set i (threadStep n spurious s.counters (s.threads i))) := by
  have hi := h.threads i
  cases hpc : (s.threads i).pc with
  | outside =>
    simp only [GatherThread, hpc] at hi
    apply Gather.inv
    simp only [threadStep, hpc]
    exact h.move (by simp [Thread.Joined, hpc]) (by simp [Thread.Joined])
      (by simp [GatherThread, hi.1, hi.2])
  | entry =>
    simp only [GatherThread, hpc] at hi
    apply Gather.inv
    simp only [threadStep, hpc, if_pos (show (1 : ℤ) < n by omega)]
    exact h.move (by simp [Thread.Joined, hpc]) (by simp [Thread.Joined, Thread.goto])
      (by simp [GatherThread, Thread.goto, hi.1, hi.2])
  | loadUp =>
    simp only [GatherThread, hpc] at hi
    apply Gather.inv
    simp only [threadStep, hpc]
    exact h.move (by simp [Thread.Joined, hpc]) (by simp [Thread.Joined, Thread.goto])
      (by simp [GatherThread, Thread.goto, hi.1, hi.2])
  | casUp expected =>
    simp only [GatherThread, hpc] at hi
    apply Gather.inv
    simp only [threadStep, hpc]
    split
    · next hcas => exact h.join hpc hcas.1
    · exact h.move (by simp [Thread.Joined, hpc]) (by simp [Thread.Joined, Thread.goto])
        (by simp [GatherThread, Thread.goto, hi.1, hi.2])
  | resetUp =>
    apply Release.inv
    simp only [threadStep, hpc]
    exact h.release hpc
  | spinUp =>
    -- the thread itself has joined, so the counter is not zero yet
    have hne : s.counters.up ≠ 0 := by
      rw [h.up]
      intro hzero
      have hnone := (countOf_eq_zero_iff Thread.Joined s.threads).mp (by exact_mod_cast hzero)
      exact hnone i (Or.inl hpc)
    apply Gather.inv
    simp only [threadStep, hpc, if_pos hne, State.set_self]
    exact h
  | awaitDown =>
    simp only [GatherThread, hpc] at hi
    apply Gather.inv
    simp only [threadStep, hpc, h.down, ne_eq, not_true_eq_false, if_false]
    exact h.move (by simp [Thread.Joined, hpc]) (by simp [Thread.Joined, Thread.ret])
      (by simp [GatherThread, Thread.ret, hi.1, hi.2])
  | spinDown => simp [GatherThread, hpc] at hi
  | loadDown => simp [GatherThread, hpc] at hi
  | casDown ex => simp [GatherThread, hpc] at hi
  | resetDown => simp [GatherThread, hpc] at hi

end Gather

section Release

variable {s : State n} {i : Fin n} {k : ℕ}

/-- While call `k` releases, a thread may move between program points before it drops; one
that was counting goes on counting. -/
theorem Release.move (h : Release k s) {t : Thread} (hi : ¬ (s.threads i).Dropped)
    (ht : ¬ t.Dropped) (hk : ReleaseThread k t) (hc : (s.threads i).Counting → t.Counting) :
    Release k (s.set i (s.counters, t)) := by
  have hcount := countOf_update_same Thread.Dropped s.threads i t (iff_of_false ht hi)
  refine ⟨h.up, ?_, State.forall_set h.threads i hk, fun hzero => ?_,
    h.tally.move (fun _ => Or.inr) hi ht⟩
  · rw [State.set, hcount]
    exact h.down
  · obtain ⟨j, hj⟩ := h.first (by rw [← hcount]; exact hzero)
    refine ⟨j, ?_⟩
    by_cases hji : j = i
    · subst hji
      simpa only [State.set, Function.update_self] using hc hj
    · simpa only [State.set, Function.update_of_ne hji] using hj

/-- A successful compare-exchange on `m_down` drops out of the call; the last one ends it. -/
theorem Release.drop (h : Release k s) {ex : ℤ} (hpc : (s.threads i).pc = .casDown ex)
    (hdown : s.counters.down = ex) :
    Release k (s.set i ({ s.counters with down := ex - 1 },
      (s.threads i).goto (if ex = 1 then .resetDown else .awaitDown))) := by
  have hi : ¬ (s.threads i).Dropped := by simp [Thread.Dropped, hpc]
  have hthread := h.threads i
  simp only [ReleaseThread, hpc] at hthread
  have hcounted := h.down
  set t := (s.threads i).goto (if ex = 1 then .resetDown else .awaitDown) with ht
  have hdropped : t.Dropped := by
    by_cases hlast : ex = 1 <;> simp [ht, Thread.Dropped, Thread.goto, hlast]
  have hlast : t.pc = .resetDown ↔ countOf Thread.Dropped s.threads + 1 = Fintype.card (Fin n) := by
    rw [Fintype.card_fin]
    by_cases hlast : ex = 1
    · simp only [ht, Thread.goto, if_pos hlast, true_iff]
      omega
    · simp only [ht, Thread.goto, if_neg hlast, reduceCtorEq, false_iff]
      omega
  have hcount := countOf_update_enter Thread.Dropped s.threads i t hi hdropped
  refine ⟨h.up, ?_, State.forall_set h.threads i ?_, fun hzero => ?_,
    h.tally.arrive (fun _ => Or.inr) hi hdropped hlast⟩
  · simp only [State.set, hcount]
    push_cast
    omega
  · by_cases hlast : ex = 1 <;> simpa [ReleaseThread, ht, Thread.goto, hlast] using hthread
  · simp [State.set, hcount] at hzero

/-- Resetting `m_down` starts the next call. -/
theorem Release.gather (h : Release k s) (hpc : (s.threads i).pc = .resetDown) :
    Gather (k + 1) (s.set i ({ s.counters with down := n }, (s.threads i).ret)) := by
  have hother (j : Fin n) (hj : j ≠ i) : (s.threads j).pc = .awaitDown :=
    let hdropped := h.tally.last i hpc j hj
    hdropped.1.resolve_right hdropped.2
  have hnone (j : Fin n) : ¬ (Function.update s.threads i (s.threads i).ret j).Joined := by
    by_cases hj : j = i
    · subst hj
      simp [Thread.Joined, Thread.ret]
    · simp [Thread.Joined, Function.update_of_ne hj, hother j hj]
  have hzero := (countOf_eq_zero_iff Thread.Joined _).mpr hnone
  have : Nonempty (Fin n) := ⟨i⟩
  refine ⟨?_, rfl, fun j => ?_, Tally.empty (fun _ => Or.inr) hnone⟩
  · simp only [State.set, hzero, h.up, Nat.cast_zero]
  · have hthread := h.threads j
    by_cases hj : j = i
    · subst hj
      simpa [State.set, GatherThread, ReleaseThread, Thread.ret, hpc] using hthread
    · simpa [State.set, GatherThread, ReleaseThread, hj, hother j hj] using hthread

/-- Every step of a releasing call keeps it releasing or starts the next call. -/
theorem Release.step (h : Release k s) (spurious : Bool) :
    Inv (s.set i (threadStep n spurious s.counters (s.threads i))) := by
  have hi := h.threads i
  cases hpc : (s.threads i).pc with
  | spinUp =>
    simp only [ReleaseThread, hpc] at hi
    apply Release.inv
    simp only [threadStep, hpc, h.up, ne_eq, not_true_eq_false, if_false]
    exact h.move (by simp [Thread.Dropped, hpc]) (by simp [Thread.Dropped, Thread.goto])
      (by simp [ReleaseThread, Thread.goto, hi.1, hi.2]) (by simp [Thread.Counting, hpc])
  | spinDown =>
    simp only [ReleaseThread, hpc] at hi
    apply Release.inv
    simp only [threadStep, hpc]
    split
    · rw [State.set_self]
      exact h
    · exact h.move (by simp [Thread.Dropped, hpc]) (by simp [Thread.Dropped, Thread.goto])
        (by simp [ReleaseThread, Thread.goto, hi.1, hi.2]) (by simp [Thread.Counting, hpc])
  | loadDown =>
    simp only [ReleaseThread, hpc] at hi
    apply Release.inv
    simp only [threadStep, hpc]
    exact h.move (by simp [Thread.Dropped, hpc]) (by simp [Thread.Dropped, Thread.goto])
      (by simp [ReleaseThread, Thread.goto, hi.1, hi.2])
      (fun _ => Or.inr ⟨s.counters.down, rfl⟩)
  | casDown ex =>
    simp only [ReleaseThread, hpc] at hi
    apply Release.inv
    simp only [threadStep, hpc]
    split
    · next hcas => exact h.drop hpc hcas.1
    · exact h.move (by simp [Thread.Dropped, hpc]) (by simp [Thread.Dropped, Thread.goto])
        (by simp [ReleaseThread, Thread.goto, hi.1, hi.2]) (fun _ => Or.inl rfl)
  | resetDown =>
    apply Gather.inv
    simp only [threadStep, hpc]
    exact h.gather hpc
  | awaitDown =>
    -- the thread itself has dropped, so the counter is not full again yet
    have hne : s.counters.down ≠ n := by
      rw [h.down]
      intro hfull
      have hnone := (countOf_eq_zero_iff Thread.Dropped s.threads).mp (by omega)
      exact hnone i (Or.inl hpc)
    apply Release.inv
    simp only [threadStep, hpc, if_pos hne, State.set_self]
    exact h
  | outside => simp [ReleaseThread, hpc] at hi
  | entry => simp [ReleaseThread, hpc] at hi
  | loadUp => simp [ReleaseThread, hpc] at hi
  | casUp expected => simp [ReleaseThread, hpc] at hi
  | resetUp => simp [ReleaseThread, hpc] at hi

end Release

section Runs

variable {s : State n}

/-- Before any call the first call gathers and nobody has joined. -/
theorem inv_init (hn : 2 ≤ n) : Inv (init n) := by
  have hnone (i : Fin n) : ¬ ((init n).threads i).Joined := by simp [init, Thread.Joined]
  have : Nonempty (Fin n) := ⟨⟨0, by omega⟩⟩
  refine ⟨0, Or.inl ⟨?_, rfl, fun i => ?_, Tally.empty (fun _ => Or.inr) hnone⟩⟩
  · rw [(countOf_eq_zero_iff Thread.Joined _).mpr hnone]
    rfl
  · simp [init, GatherThread]

/-- A call is gathering or releasing in every state of every run. -/
theorem Reached.inv (hn : 2 ≤ n) (h : Reached s) : Inv s := by
  apply Reachable.invariant (fun s hs => hs ▸ inv_init hn) _ h
  intro s t hinv hnext
  obtain ⟨k, hk⟩ := hinv
  obtain ⟨⟨i, spurious⟩, hstep⟩ := hnext
  simp only [next, Option.some.injEq] at hstep
  subst hstep
  cases hk with
  | inl hk => exact hk.step hn spurious
  | inr hk => exact hk.step spurious

/-- A thread has left as many calls as it entered, or one less. -/
theorem Inv.entered_bounds (h : Inv s) :
    ∃ k, ∀ i, (s.threads i).returned ≤ k ∧ k ≤ (s.threads i).entered := by
  obtain ⟨k, hk | hk⟩ := h
  · refine ⟨k, fun i => ?_⟩
    have hi := hk.threads i
    cases hpc : (s.threads i).pc <;> simp only [GatherThread, hpc] at hi <;> omega
  · refine ⟨k, fun i => ?_⟩
    have hi := hk.threads i
    cases hpc : (s.threads i).pc <;> simp only [ReleaseThread, hpc] at hi <;> omega

/-- Between calls both counters have their initial values. -/
theorem Inv.at_rest (hn : 0 < n) (h : Inv s) (hrest : ∀ i, ¬ (s.threads i).Inside) :
    s.counters.up = 0 ∧ s.counters.down = n := by
  simp only [Thread.Inside, not_not] at hrest
  obtain ⟨k, hk | hk⟩ := h
  · have hzero : countOf Thread.Joined s.threads = 0 := by
      rw [countOf_eq_zero_iff]
      simp [Thread.Joined, hrest]
    exact ⟨by rw [hk.up, hzero]; rfl, hk.down⟩
  · have h0 := hk.threads ⟨0, hn⟩
    simp [ReleaseThread, hrest] at h0

/-- Both counters stay between zero and the number of threads. -/
theorem Inv.counters_bounds (h : Inv s) :
    (0 ≤ s.counters.up ∧ s.counters.up ≤ n) ∧ 0 ≤ s.counters.down ∧ s.counters.down ≤ n := by
  have hcard : Fintype.card (Fin n) = n := Fintype.card_fin n
  obtain ⟨k, hk | hk⟩ := h
  · have hle := countOf_le Thread.Joined s.threads
    have hup := hk.up
    have hdown := hk.down
    omega
  · have hle := countOf_le Thread.Dropped s.threads
    have hup := hk.up
    have hdown := hk.down
    omega

/-- A gathering call that every thread has entered is not stuck. -/
theorem Gather.progress {k : ℕ} (h : Gather k s)
    (hall : ∀ i, k + 1 ≤ (s.threads i).entered) : ∃ i, (s.threads i).Inside ∧ ¬ Spinning s i := by
  by_cases hfull : countOf Thread.Joined s.threads = Fintype.card (Fin n)
  · obtain ⟨i, hi⟩ := h.tally.full hfull
    exact ⟨i, by simp [Thread.Inside, hi], by simp [Spinning, hi]⟩
  · obtain ⟨i, hi⟩ := exists_not_of_countOf_lt Thread.Joined s.threads
      (lt_of_le_of_ne (countOf_le _ _) hfull)
    refine ⟨i, ?_⟩
    have hthread := h.threads i
    have hentered := hall i
    cases hpc : (s.threads i).pc <;>
      simp [GatherThread, Thread.Joined, Thread.Inside, Spinning, hpc] at hthread hi ⊢
    all_goals omega

/-- A releasing call is not stuck. -/
theorem Release.progress {k : ℕ} (h : Release k s) :
    ∃ i, (s.threads i).Inside ∧ ¬ Spinning s i := by
  by_cases hzero : countOf Thread.Dropped s.threads = 0
  · obtain ⟨i, hi | ⟨ex, hi⟩⟩ := h.first hzero <;>
      exact ⟨i, by simp [Thread.Inside, hi], by simp [Spinning, hi]⟩
  by_cases hfull : countOf Thread.Dropped s.threads = Fintype.card (Fin n)
  · obtain ⟨i, hi⟩ := h.tally.full hfull
    exact ⟨i, by simp [Thread.Inside, hi], by simp [Spinning, hi]⟩
  · -- somebody has dropped, so a thread that has not does not wait for that any more
    obtain ⟨i, hi⟩ := exists_not_of_countOf_lt Thread.Dropped s.threads
      (lt_of_le_of_ne (countOf_le _ _) hfull)
    have hup := h.up
    have hdown : s.counters.down ≠ n := by
      rw [h.down]
      omega
    refine ⟨i, ?_⟩
    have hthread := h.threads i
    cases hpc : (s.threads i).pc <;>
      simp [ReleaseThread, Thread.Dropped, Thread.Inside, Spinning, hpc, hup, hdown]
        at hthread hi ⊢

/-- When every thread has entered the call that some thread is in, one inside can go on. -/
theorem Inv.progress (h : Inv s) (i : Fin n) (hi : (s.threads i).Inside)
    (hall : ∀ j, (s.threads i).entered ≤ (s.threads j).entered) :
    ∃ j, (s.threads j).Inside ∧ ¬ Spinning s j := by
  obtain ⟨k, hk | hk⟩ := h
  · have hthread := hk.threads i
    by_cases hwait : (s.threads i).pc = .awaitDown
    · -- the call of this thread is over and it sees `m_down` reset
      exact ⟨i, hi, by simp [Spinning, hwait, hk.down]⟩
    · have hentered : (s.threads i).entered = k + 1 := by
        cases hpc : (s.threads i).pc <;>
          simp [GatherThread, Thread.Inside, hpc] at hthread hi hwait <;> omega
      exact hk.progress fun j => hentered ▸ hall j
  · exact hk.progress

/-- A thread that does not spin changes the state with its next step, whether or not a compare-exchange
fails. -/
theorem next_ne_of_not_spinning {i : Fin n} (hspin : ¬ Spinning s i) (spurious : Bool) :
    next s (i, spurious) ≠ some s := by
  intro hsame
  have hself : threadStep n spurious s.counters (s.threads i) = (s.counters, s.threads i) := by
    have hstate : s.set i (threadStep n spurious s.counters (s.threads i)) = s := Option.some.inj hsame
    have hthread := congrArg (fun s => s.threads i) hstate
    simp only [State.set, Function.update_self] at hthread
    exact Prod.ext (congrArg State.counters hstate) hthread
  have hpc := congrArg (fun r => r.2.pc) hself
  cases hcase : (s.threads i).pc with
  | outside => simp [threadStep, hcase] at hpc
  | entry =>
    simp only [threadStep, hcase, apply_ite, Thread.goto, Thread.ret] at hpc
    split at hpc <;> cases hpc
  | casUp expected =>
    simp only [threadStep, hcase, apply_ite, Thread.goto] at hpc
    split at hpc
    · split at hpc <;> cases hpc
    · cases hpc
  | casDown ex =>
    simp only [threadStep, hcase, apply_ite, Thread.goto] at hpc
    split at hpc
    · split at hpc <;> cases hpc
    · cases hpc
  | spinUp =>
    have hup : s.counters.up = 0 := by simpa [Spinning, hcase] using hspin
    simp [threadStep, hcase, hup, Thread.goto] at hpc
  | spinDown =>
    have hdown : s.counters.down ≠ n := by simpa [Spinning, hcase] using hspin
    simp [threadStep, hcase, hdown, Thread.goto] at hpc
  | awaitDown =>
    have hdown : s.counters.down = n := by simpa [Spinning, hcase] using hspin
    simp [threadStep, hcase, hdown, Thread.ret] at hpc
  | loadUp | resetUp | loadDown | resetDown => simp [threadStep, hcase, Thread.goto, Thread.ret] at hpc

/-- The barrier is a reusable barrier: nobody returns from a call before all threads have
entered it, the counters are restored between calls and stay within their range, and a call
that all threads have entered always lets one of them go on, with a step that changes the state. -/
theorem barrier_reusable (n : ℕ) (hn : 2 ≤ n) (s : State n) (h : Reached s) :
    (∀ i j, (s.threads i).returned ≤ (s.threads j).entered) ∧
      ((∀ i, ¬ (s.threads i).Inside) → s.counters.up = 0 ∧ s.counters.down = n) ∧
      (0 ≤ s.counters.up ∧ s.counters.up ≤ n) ∧
      (0 ≤ s.counters.down ∧ s.counters.down ≤ n) ∧
      (∀ i, (s.threads i).Inside → (∀ j, (s.threads i).entered ≤ (s.threads j).entered) →
        ∃ j, (s.threads j).Inside ∧ ¬ Spinning s j ∧ ∀ spurious, next s (j, spurious) ≠ some s) := by
  have hinv := h.inv hn
  obtain ⟨k, hk⟩ := hinv.entered_bounds
  refine ⟨fun i j => (hk i).1.trans (hk j).2, hinv.at_rest (by omega), hinv.counters_bounds.1,
    hinv.counters_bounds.2, fun i hi hall => ?_⟩
  obtain ⟨j, hj, hspin⟩ := hinv.progress i hi hall
  exact ⟨j, hj, hspin, next_ne_of_not_spinning hspin⟩

/-- A schedule after which one of two threads waits in its first call and the other one has
only entered it. -/
def waitingSchedule : List (Fin 2 × Bool) :=
  [(0, false), (1, false), (0, false), (0, false), (0, false)]

/-- The guarantees in the state that this schedule reaches. -/
theorem barrier_reusable_waiting : ∃ s : State 2,
    runActions next (init 2) waitingSchedule = some s ∧
      ((s.threads 0).pc = .spinUp ∧ (s.threads 1).pc = .entry ∧ s.counters.up = 1) ∧
      (∀ i j, (s.threads i).returned ≤ (s.threads j).entered) ∧
      ∃ j, (s.threads j).Inside ∧ ¬ Spinning s j ∧ ∀ spurious, next s (j, spurious) ≠ some s := by
  refine ⟨_, rfl, ⟨rfl, rfl, rfl⟩, ?_⟩
  obtain ⟨horder, -, -, -, hprogress⟩ := barrier_reusable 2 le_rfl _
    (reachable_of_runActions waitingSchedule (Reachable.initial rfl) rfl)
  exact ⟨horder, hprogress 0 (fun hpc => by cases hpc) (Fin.forall_fin_two.mpr ⟨le_rfl, le_rfl⟩)⟩

end Runs

end Ghexbench.Barrier
