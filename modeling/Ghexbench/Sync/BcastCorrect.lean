import Ghexbench.Sync.Bcast
import Mathlib.Data.Fin.VecNotation
import Mathlib.Tactic.FinCases
import Mathlib.Tactic.Linarith

/-!
# Correctness of the broadcast

In every reachable state one round is in progress. While it gathers, exactly the threads
with ids below `m_count_up` have joined; the thread with the largest id resets the counter
and the round releases the threads, with `m_count_down` counting those that have not yet
dropped. The value of thread 0 is in `m_dt` from the moment thread 0 can join until every
thread has dropped, and thread 0 can only then enter the next round.
-/

namespace Ghexbench.Bcast

open Ghexbench.Common

variable {V : Type*} {n : ℕ} {root : ℕ → V}

/-- A thread that has counted itself up and has not yet seen the counter reset. -/
def Thread.Joined (t : Thread V) : Prop := t.pc = .spinUp ∨ t.pc = .resetUp

/-- A thread that has counted itself down and has not yet left. -/
def Thread.Dropped (t : Thread V) : Prop := t.pc = .awaitDown ∨ t.pc = .resetDown

instance : DecidablePred (Thread.Joined (V := V)) := fun t => by unfold Thread.Joined; infer_instance

instance : DecidablePred (Thread.Dropped (V := V)) := fun t => by unfold Thread.Dropped; infer_instance

/-- The results of the first `k` rounds: what thread 0 passed in each of them. -/
def past (root : ℕ → V) (k : ℕ) : List V := (List.range k).map root

theorem past_length (k : ℕ) : (past root k).length = k := by simp [past]

theorem past_succ (k : ℕ) : past root k ++ [root k] = past root (k + 1) := by
  simp [past, List.range_succ]

/-- Where thread `id` may be while round `k` (from zero) gathers the threads. A thread that
has not noticed the end of the previous round still waits in it. -/
def GatherThread (root : ℕ → V) (n k id : ℕ) (t : Thread V) : Prop :=
  match t.pc with
  | .outside => t.entered = k ∧ t.results = past root k
  | .storeDt => t.entered = k + 1 ∧ t.results = past root k ∧ id = 0 ∧ t.dt = root k
  | .casUp => t.entered = k + 1 ∧ t.results = past root k
  | .spinUp => t.entered = k + 1 ∧ t.results = past root k ∧ id + 1 ≠ n
  | .resetUp => t.entered = k + 1 ∧ t.results = past root k ∧ id + 1 = n
  | .awaitDown => ∃ j, k = j + 1 ∧ t.entered = k ∧ t.results = past root j ∧ t.dt = root j
  | .readDt | .loadDown | .casDown _ | .resetDown => False

/-- Where a thread may be while round `k` releases the threads: nobody has left it, and those
that have read `m_dt` hold the value of thread 0. -/
def ReleaseThread (root : ℕ → V) (k : ℕ) (t : Thread V) : Prop :=
  match t.pc with
  | .spinUp | .readDt => t.entered = k + 1 ∧ t.results = past root k
  | .loadDown | .casDown _ | .resetDown | .awaitDown =>
    t.entered = k + 1 ∧ t.results = past root k ∧ t.dt = root k
  | .outside | .storeDt | .casUp | .resetUp => False

/-- Round `k` gathers the threads: those below `m_count_up` have joined, and `m_dt` holds the
value of the round once thread 0 is past its store. -/
structure Gather (root : ℕ → V) (k : ℕ) (s : State V n) : Prop where
  up_le : s.shared.countUp ≤ n
  joined : ∀ i : Fin n, (s.threads i).Joined ↔ i.val < s.shared.countUp
  down : s.shared.countDown = n
  threads : ∀ i : Fin n, GatherThread root n k i (s.threads i)
  published : ∀ i : Fin n, i.val = 0 →
    (s.threads i).pc = .casUp ∨ (s.threads i).Joined → s.shared.dt = root k

/-- Round `k` releases the threads: `m_count_up` is reset, `m_count_down` counts those that
have not yet dropped, and `m_dt` holds the value of the round. -/
structure Release (root : ℕ → V) (k : ℕ) (s : State V n) : Prop where
  up : s.shared.countUp = 0
  down : s.shared.countDown + countOf Thread.Dropped s.threads = n
  threads : ∀ i, ReleaseThread root k (s.threads i)
  published : s.shared.dt = root k
  tally : Tally Thread.Dropped (·.pc = .resetDown) s.threads

/-- Every round is either gathering or releasing. -/
def Inv (root : ℕ → V) (s : State V n) : Prop := ∃ k, Gather root k s ∨ Release root k s

/-- A gathering round is one of the two. -/
theorem Gather.inv {root : ℕ → V} {k : ℕ} {s : State V n} (h : Gather root k s) : Inv root s :=
  ⟨k, Or.inl h⟩

/-- A releasing round is one of the two. -/
theorem Release.inv {root : ℕ → V} {k : ℕ} {s : State V n} (h : Release root k s) : Inv root s :=
  ⟨k, Or.inr h⟩

/-- Storing back what a thread already has changes nothing. -/
theorem State.set_self (s : State V n) (i : Fin n) : s.set i (s.shared, s.threads i) = s := by
  simp [State.set]

/-- A property of all threads survives a step of one of them that keeps it. -/
theorem State.forall_set {p : Fin n → Thread V → Prop} {s : State V n}
    (h : ∀ j, p j (s.threads j)) (i : Fin n) {r : Shared V × Thread V} (hr : p i r.2) (j : Fin n) :
    p j ((s.set i r).threads j) := by
  by_cases hji : j = i
  · subst hji
    simpa [State.set] using hr
  · simpa [State.set, Function.update_of_ne hji] using h j

section Gather

variable {s : State V n} {i : Fin n} {k : ℕ}

/-- While round `k` gathers, a thread may move between program points before it joins, and
thread 0 may store the value of the round. -/
theorem Gather.move (h : Gather root k s) {t : Thread V} {dt : V} (hi : ¬ (s.threads i).Joined)
    (ht : ¬ t.Joined) (hk : GatherThread root n k i t) (hdt : dt = s.shared.dt ∨ dt = root k)
    (hcas : i.val = 0 → t.pc = .casUp → dt = root k) :
    Gather root k (s.set i ({ s.shared with dt := dt }, t)) where
  up_le := h.up_le
  joined := State.forall_set (p := fun j t => t.Joined ↔ j.val < s.shared.countUp) h.joined i
    (iff_of_false ht (fun hlt => hi ((h.joined i).mpr hlt)))
  down := h.down
  threads := State.forall_set h.threads i hk
  published := by
    refine State.forall_set (p := fun j t => j.val = 0 → t.pc = .casUp ∨ t.Joined → dt = root k)
      (fun j hj hpc => ?_) i (fun hi0 hpc => hcas hi0 (hpc.resolve_right ht))
    cases hdt with
    | inl hdt => exact hdt.trans (h.published j hj hpc)
    | inr hdt => exact hdt

/-- A successful compare-exchange on `m_count_up` joins the round in the order of the ids. -/
theorem Gather.join (h : Gather root k s) (hpc : (s.threads i).pc = .casUp)
    (hup : s.shared.countUp = i) :
    Gather root k (s.set i ({ s.shared with countUp := i + 1 },
      (s.threads i).goto (if i.val = n - 1 then .resetUp else .spinUp))) := by
  have hlt := i.isLt
  have hthread := h.threads i
  simp only [GatherThread, hpc] at hthread
  set t := (s.threads i).goto (if i.val = n - 1 then .resetUp else .spinUp) with ht
  have hjoined : t.Joined := by
    by_cases hlast : i.val = n - 1 <;> simp [ht, Thread.Joined, Thread.goto, hlast]
  refine ⟨hlt, fun j => ?_, h.down, State.forall_set h.threads i ?_,
    State.forall_set (p := fun j t => j.val = 0 → t.pc = .casUp ∨ t.Joined → s.shared.dt = root k)
      h.published i (fun hi0 _ => h.published i hi0 (Or.inl hpc))⟩
  · by_cases hji : j = i
    · subst hji
      simpa [State.set] using hjoined
    · have hne : j.val ≠ i.val := fun heq => hji (Fin.ext heq)
      simp only [State.set, Function.update_of_ne hji, h.joined j, hup]
      omega
  · by_cases hlast : i.val = n - 1
    · have hn : i.val + 1 = n := by omega
      simpa [GatherThread, ht, Thread.goto, if_pos hlast, hn] using hthread
    · have hn : i.val + 1 ≠ n := by omega
      simpa [GatherThread, ht, Thread.goto, if_neg hlast, hn] using hthread

/-- The thread about to reset `m_count_up` is the last to join: all others spin on it. -/
theorem Gather.spinUp_of_resetUp (h : Gather root k s) (hpc : (s.threads i).pc = .resetUp)
    (j : Fin n) (hj : j ≠ i) : (s.threads j).pc = .spinUp := by
  have hne : j.val ≠ i.val := fun heq => hj (Fin.ext heq)
  have hthread := h.threads i
  simp only [GatherThread, hpc] at hthread
  have hup := (h.joined i).mp (Or.inr hpc)
  cases (h.joined j).mpr (by omega) with
  | inl hpcj => exact hpcj
  | inr hpcj =>
    have hthreadj := h.threads j
    simp only [GatherThread, hpcj] at hthreadj
    omega

/-- Resetting `m_count_up` turns gathering into releasing. -/
theorem Gather.release (h : Gather root k s) (hpc : (s.threads i).pc = .resetUp) :
    Release root k (s.set i ({ s.shared with countUp := 0 }, (s.threads i).goto .readDt)) := by
  have hother := h.spinUp_of_resetUp hpc
  have hlt := i.isLt
  have hnone (j : Fin n) :
      ¬ (Function.update s.threads i ((s.threads i).goto .readDt) j).Dropped := by
    by_cases hj : j = i
    · subst hj
      simp [Thread.Dropped, Thread.goto]
    · simp [Thread.Dropped, Function.update_of_ne hj, hother j hj]
  have : Nonempty (Fin n) := ⟨i⟩
  refine ⟨rfl, ?_, fun j => ?_, ?_, Tally.empty (fun _ => Or.inr) hnone⟩
  · simp only [State.set, (countOf_eq_zero_iff Thread.Dropped _).mpr hnone, h.down, add_zero]
  · have hthread := h.threads j
    by_cases hj : j = i
    · subst hj
      simp only [GatherThread, hpc] at hthread
      simpa [State.set, ReleaseThread, Thread.goto] using ⟨hthread.1, hthread.2.1⟩
    · simp only [GatherThread, hother j hj] at hthread
      simpa [State.set, ReleaseThread, hj, hother j hj] using ⟨hthread.1, hthread.2.1⟩
  · -- thread 0 has joined, whether or not it is the one that resets
    have hup := (h.joined i).mp (Or.inr hpc)
    apply h.published ⟨0, by omega⟩ rfl
    exact Or.inr ((h.joined _).mpr (Nat.lt_of_le_of_lt (Nat.zero_le _) hup))

/-- Every step of a gathering round keeps it gathering or starts its release. -/
theorem Gather.step (h : Gather root k s) {value : V} (hvalue : i.val = 0 → value = root k)
    (spurious : Bool) :
    Inv root (s.set i (threadStep n i value spurious s.shared (s.threads i))) := by
  have hi := h.threads i
  cases hpc : (s.threads i).pc with
  | outside =>
    simp only [GatherThread, hpc] at hi
    apply Gather.inv
    simp only [threadStep, hpc]
    apply h.move (by simp [Thread.Joined, hpc]) _ _ (Or.inl rfl) _
    · by_cases h0 : i.val = 0 <;> simp [Thread.Joined, h0]
    · by_cases h0 : i.val = 0 <;> simp [GatherThread, h0, hi.1, hi.2, hvalue]
    · intro h0
      simp [h0]
  | storeDt =>
    simp only [GatherThread, hpc] at hi
    apply Gather.inv
    simp only [threadStep, hpc]
    exact h.move (by simp [Thread.Joined, hpc]) (by simp [Thread.Joined, Thread.goto])
      (by simp [GatherThread, Thread.goto, hi.1, hi.2.1]) (Or.inr hi.2.2.2) (fun _ _ => hi.2.2.2)
  | casUp =>
    apply Gather.inv
    simp only [threadStep, hpc]
    split
    · next hcas => exact h.join hpc hcas.1
    · rw [State.set_self]
      exact h
  | resetUp =>
    apply Release.inv
    simp only [threadStep, hpc]
    exact h.release hpc
  | spinUp =>
    -- the thread itself has joined, so the counter is not zero yet
    have hne : s.shared.countUp ≠ 0 := by
      have hup := (h.joined i).mp (Or.inl hpc)
      omega
    apply Gather.inv
    simp only [threadStep, hpc, if_pos hne, State.set_self]
    exact h
  | awaitDown =>
    simp only [GatherThread, hpc] at hi
    obtain ⟨j, rfl, hentered, hresults, hdt⟩ := hi
    apply Gather.inv
    simp only [threadStep, hpc, h.down, ne_eq, not_true_eq_false, if_false]
    exact h.move (by simp [Thread.Joined, hpc]) (by simp [Thread.Joined, Thread.ret])
      (by simp [GatherThread, Thread.ret, hentered, hresults, hdt, past_succ]) (Or.inl rfl)
      (by simp [Thread.ret])
  | readDt => simp [GatherThread, hpc] at hi
  | loadDown => simp [GatherThread, hpc] at hi
  | casDown ex_d => simp [GatherThread, hpc] at hi
  | resetDown => simp [GatherThread, hpc] at hi

end Gather

section Release

variable {s : State V n} {i : Fin n} {k : ℕ}

/-- While round `k` releases, a thread may move between program points before it drops. -/
theorem Release.move (h : Release root k s) {t : Thread V} (hi : ¬ (s.threads i).Dropped)
    (ht : ¬ t.Dropped) (hk : ReleaseThread root k t) : Release root k (s.set i (s.shared, t)) where
  up := h.up
  down := by
    rw [State.set, countOf_update_same _ _ _ _ (iff_of_false ht hi)]
    exact h.down
  threads := State.forall_set (p := fun _ => ReleaseThread root k) h.threads i hk
  published := h.published
  tally := h.tally.move (fun _ => Or.inr) hi ht

/-- A successful compare-exchange on `m_count_down` drops out of the round; the counter was
positive, and the last one ends the round. -/
theorem Release.drop (h : Release root k s) {ex_d : ℕ} (hpc : (s.threads i).pc = .casDown ex_d)
    (hdown : s.shared.countDown = ex_d) :
    Release root k (s.set i ({ s.shared with countDown := ex_d - 1 },
      (s.threads i).goto (if ex_d = 1 then .resetDown else .awaitDown))) := by
  have hi : ¬ (s.threads i).Dropped := by simp [Thread.Dropped, hpc]
  have hthread := h.threads i
  simp only [ReleaseThread, hpc] at hthread
  have hcounted := h.down
  set t := (s.threads i).goto (if ex_d = 1 then .resetDown else .awaitDown) with ht
  have hdropped : t.Dropped := by
    by_cases hlast : ex_d = 1 <;> simp [ht, Thread.Dropped, Thread.goto, hlast]
  have hcount := countOf_update_enter Thread.Dropped s.threads i t hi hdropped
  have hpos : 0 < ex_d := by
    have hle := countOf_le Thread.Dropped (Function.update s.threads i t)
    rw [hcount, Fintype.card_fin] at hle
    omega
  have hlast : t.pc = .resetDown ↔ countOf Thread.Dropped s.threads + 1 = Fintype.card (Fin n) := by
    rw [Fintype.card_fin]
    by_cases hlast : ex_d = 1
    · simp only [ht, Thread.goto, if_pos hlast, true_iff]
      omega
    · simp only [ht, Thread.goto, if_neg hlast, reduceCtorEq, false_iff]
      omega
  refine ⟨h.up, ?_, State.forall_set (p := fun _ => ReleaseThread root k) h.threads i ?_,
    h.published, h.tally.arrive (fun _ => Or.inr) hi hdropped hlast⟩
  · simp only [State.set, hcount]
    omega
  · by_cases hlast : ex_d = 1 <;> simpa [ReleaseThread, ht, Thread.goto, hlast] using hthread

/-- Resetting `m_count_down` starts the next round. -/
theorem Release.gather (h : Release root k s) (hpc : (s.threads i).pc = .resetDown) :
    Gather root (k + 1) (s.set i ({ s.shared with countDown := n }, (s.threads i).ret)) := by
  have hother (j : Fin n) (hj : j ≠ i) : (s.threads j).pc = .awaitDown :=
    let hdropped := h.tally.last i hpc j hj
    hdropped.1.resolve_right hdropped.2
  have hpcs (j : Fin n) : (Function.update s.threads i (s.threads i).ret j).pc =
      if j = i then .outside else .awaitDown := by
    by_cases hj : j = i
    · subst hj
      simp [Thread.ret]
    · simp [hj, hother j hj]
  refine ⟨?_, fun j => iff_of_false ?_ ?_, rfl, fun j => ?_, fun j _ hj => ?_⟩
  · simp [State.set, h.up]
  · simp only [State.set, Thread.Joined, hpcs]
    split <;> simp
  · simp [State.set, h.up]
  · have hthread := h.threads j
    by_cases hj : j = i
    · subst hj
      simp only [ReleaseThread, hpc] at hthread
      simp [State.set, GatherThread, Thread.ret, hthread.1, hthread.2.1, hthread.2.2, past_succ]
    · simp only [ReleaseThread, hother j hj] at hthread
      simpa [State.set, GatherThread, hj, hother j hj] using hthread
  · simp only [State.set, Thread.Joined, hpcs] at hj
    split at hj <;> simp at hj

/-- Every step of a releasing round keeps it releasing or starts the next round. -/
theorem Release.step (h : Release root k s) (value : V) (spurious : Bool) :
    Inv root (s.set i (threadStep n i value spurious s.shared (s.threads i))) := by
  have hi := h.threads i
  cases hpc : (s.threads i).pc with
  | spinUp =>
    simp only [ReleaseThread, hpc] at hi
    apply Release.inv
    simp only [threadStep, hpc, h.up, ne_eq, not_true_eq_false, if_false]
    exact h.move (by simp [Thread.Dropped, hpc]) (by simp [Thread.Dropped, Thread.goto])
      (by simp [ReleaseThread, Thread.goto, hi.1, hi.2])
  | readDt =>
    simp only [ReleaseThread, hpc] at hi
    apply Release.inv
    simp only [threadStep, hpc]
    exact h.move (by simp [Thread.Dropped, hpc]) (by simp [Thread.Dropped])
      (by simp [ReleaseThread, hi.1, hi.2, h.published])
  | loadDown =>
    simp only [ReleaseThread, hpc] at hi
    apply Release.inv
    simp only [threadStep, hpc]
    exact h.move (by simp [Thread.Dropped, hpc]) (by simp [Thread.Dropped, Thread.goto])
      (by simp [ReleaseThread, Thread.goto, hi])
  | casDown ex_d =>
    simp only [ReleaseThread, hpc] at hi
    apply Release.inv
    simp only [threadStep, hpc]
    split
    · next hcas => exact h.drop hpc hcas.1
    · exact h.move (by simp [Thread.Dropped, hpc]) (by simp [Thread.Dropped, Thread.goto])
        (by simp [ReleaseThread, Thread.goto, hi])
  | resetDown =>
    apply Gather.inv
    simp only [threadStep, hpc]
    exact h.gather hpc
  | awaitDown =>
    -- the thread itself has dropped, so the counter is not full again yet
    have hne : s.shared.countDown ≠ n := by
      intro hfull
      have hdown := h.down
      have hnone := (countOf_eq_zero_iff Thread.Dropped s.threads).mp (by omega)
      exact hnone i (Or.inl hpc)
    apply Release.inv
    simp only [threadStep, hpc, if_pos hne, State.set_self]
    exact h
  | outside => simp [ReleaseThread, hpc] at hi
  | storeDt => simp [ReleaseThread, hpc] at hi
  | casUp => simp [ReleaseThread, hpc] at hi
  | resetUp => simp [ReleaseThread, hpc] at hi

end Release

section Runs

variable {values : Fin n → ℕ → V} {s : State V n}

/-- Before any call the first round gathers and nobody has joined. -/
theorem inv_init (dt : V) (locals : Fin n → V) : Inv root (init n dt locals) := by
  refine ⟨0, Or.inl ⟨Nat.zero_le _, fun i => ?_, rfl, fun i => ?_, fun i _ hi => ?_⟩⟩
  · simp [init, Thread.Joined]
  · simp [init, GatherThread, past]
  · simp [init, Thread.Joined] at hi

/-- A round is gathering or releasing in every state of every run. -/
theorem Reached.inv (hroot : ∀ i k, i.val = 0 → values i k = root k) (h : Reached values s) :
    Inv root s := by
  apply Reachable.invariant _ _ h
  · intro s₀ hs₀
    obtain ⟨dt, locals, rfl⟩ := hs₀
    exact inv_init dt locals
  · intro s t hinv hnext
    obtain ⟨k, hk⟩ := hinv
    obtain ⟨⟨i, spurious⟩, hstep⟩ := hnext
    simp only [next, Option.some.injEq] at hstep
    subst hstep
    cases hk with
    | inl hk =>
      -- a thread outside starts round `k`
      cases hpc : (s.threads i).pc with
      | outside =>
        have hi := hk.threads i
        simp only [GatherThread, hpc] at hi
        exact hk.step (fun h0 => hi.1 ▸ hroot i _ h0) spurious
      | _ =>
        have hvalue : threadStep n i (values i (s.threads i).entered) spurious s.shared
            (s.threads i) = threadStep n i (root k) spurious s.shared (s.threads i) := by
          simp only [threadStep, hpc]
        rw [hvalue]
        exact hk.step (fun _ => rfl) spurious
    | inr hk => exact hk.step _ spurious

/-- The results of a thread are those of the first rounds. -/
theorem Inv.results_eq_past (h : Inv root s) (i : Fin n) : ∃ j, (s.threads i).results = past root j := by
  obtain ⟨k, hk | hk⟩ := h
  · have hi := hk.threads i
    cases hpc : (s.threads i).pc <;> simp only [GatherThread, hpc] at hi
    case awaitDown =>
      obtain ⟨j, -, -, hresults, -⟩ := hi
      exact ⟨j, hresults⟩
    case outside | casUp => exact ⟨k, hi.2⟩
    all_goals exact ⟨k, hi.2.1⟩
  · have hi := hk.threads i
    cases hpc : (s.threads i).pc <;> simp only [ReleaseThread, hpc] at hi
    case spinUp | readDt => exact ⟨k, hi.2⟩
    all_goals exact ⟨k, hi.2.1⟩

/-- In every round a thread has finished, it returned with the value of thread 0. -/
theorem Inv.results (h : Inv root s) (i : Fin n) :
    (s.threads i).results = past root (s.threads i).results.length := by
  obtain ⟨j, hj⟩ := h.results_eq_past i
  rw [hj, past_length]

/-- Between rounds both counters have their initial values. -/
theorem Inv.at_rest (hn : 1 ≤ n) (h : Inv root s) (hrest : ∀ i, ¬ (s.threads i).Inside) :
    s.shared.countUp = 0 ∧ s.shared.countDown = n := by
  simp only [Thread.Inside, not_not] at hrest
  obtain ⟨k, hk | hk⟩ := h
  · refine ⟨?_, hk.down⟩
    have h0 := hk.joined ⟨0, hn⟩
    simp only [Thread.Joined, hrest, reduceCtorEq, or_self, false_iff, not_lt] at h0
    omega
  · have h0 := hk.threads ⟨0, hn⟩
    simp [ReleaseThread, hrest] at h0

/-- A gathering round that every thread has entered is not stuck: the thread whose turn it is
at `m_count_up` can go on. -/
theorem Gather.progress {k : ℕ} (h : Gather root k s) (hn : 1 ≤ n)
    (hall : ∀ i, k + 1 ≤ (s.threads i).entered) : ∃ i, (s.threads i).Inside ∧ ¬ Spinning s i := by
  cases h.up_le.eq_or_lt with
  | inl hup =>
    -- everybody has joined, so the thread with the largest id resets the counter
    refine ⟨⟨n - 1, by omega⟩, ?_⟩
    have hthread := h.threads ⟨n - 1, by omega⟩
    cases (h.joined ⟨n - 1, by omega⟩).mpr (by simp only [hup]; omega) with
    | inl hpc =>
      simp only [GatherThread, hpc] at hthread
      omega
    | inr hpc => exact ⟨by simp [Thread.Inside, hpc], by simp [Spinning, hpc]⟩
  | inr hup =>
    refine ⟨⟨s.shared.countUp, hup⟩, ?_⟩
    have hjoined := (h.joined ⟨s.shared.countUp, hup⟩).not.mpr (by simp)
    have hthread := h.threads ⟨s.shared.countUp, hup⟩
    have hentered := hall ⟨s.shared.countUp, hup⟩
    cases hpc : (s.threads ⟨s.shared.countUp, hup⟩).pc <;>
      simp [GatherThread, Thread.Joined, Thread.Inside, Spinning, hpc] at hthread hjoined ⊢
    · omega
    · obtain ⟨j, hj, hk, -⟩ := hthread
      omega

/-- A releasing round is not stuck. -/
theorem Release.progress {k : ℕ} (h : Release root k s) :
    ∃ i, (s.threads i).Inside ∧ ¬ Spinning s i := by
  by_cases hfull : countOf Thread.Dropped s.threads = Fintype.card (Fin n)
  · obtain ⟨i, hi⟩ := h.tally.full hfull
    exact ⟨i, by simp [Thread.Inside, hi], by simp [Spinning, hi]⟩
  · obtain ⟨i, hi⟩ := exists_not_of_countOf_lt Thread.Dropped s.threads
      (lt_of_le_of_ne (countOf_le _ _) hfull)
    refine ⟨i, ?_⟩
    have hup := h.up
    have hthread := h.threads i
    cases hpc : (s.threads i).pc <;>
      simp [ReleaseThread, Thread.Dropped, Thread.Inside, Spinning, hpc, hup] at hthread hi ⊢

/-- When every thread has entered the round that some thread is in, one inside can go on. -/
theorem Inv.progress (h : Inv root s) (i : Fin n) (hi : (s.threads i).Inside)
    (hall : ∀ j, (s.threads i).entered ≤ (s.threads j).entered) :
    ∃ j, (s.threads j).Inside ∧ ¬ Spinning s j := by
  obtain ⟨k, hk | hk⟩ := h
  · have hthread := hk.threads i
    by_cases hwait : (s.threads i).pc = .awaitDown
    · -- the round of this thread is over and it sees `m_count_down` reset
      exact ⟨i, hi, by simp [Spinning, hwait, hk.down]⟩
    · have hentered : (s.threads i).entered = k + 1 := by
        cases hpc : (s.threads i).pc <;>
          simp [GatherThread, Thread.Inside, hpc] at hthread hi hwait <;> omega
      exact hk.progress (by have hlt := i.isLt; omega) fun j => hentered ▸ hall j
  · exact hk.progress

/-- A thread that does not spin changes the state with its next step, unless a compare-exchange fails
spuriously. -/
theorem next_ne_of_not_spinning {i : Fin n} (values : Fin n → ℕ → V) (hspin : ¬ Spinning s i) :
    next values s (i, false) ≠ some s := by
  intro hsame
  have hthread : (threadStep n i (values i (s.threads i).entered) false s.shared (s.threads i)).2 =
      s.threads i := by
    have hstate : s.set i (threadStep n i (values i (s.threads i).entered) false s.shared (s.threads i)) = s :=
      Option.some.inj hsame
    have hthread := congrArg (fun s => s.threads i) hstate
    simpa only [State.set, Function.update_self] using hthread
  have hpc := congrArg Thread.pc hthread
  cases hcase : (s.threads i).pc with
  | outside =>
    simp only [threadStep, hcase] at hpc
    split at hpc <;> cases hpc
  | casUp =>
    have hup : s.shared.countUp = i := by simpa [Spinning, hcase] using hspin
    simp only [threadStep, hcase, hup, and_self, if_true, Thread.goto] at hpc
    split at hpc <;> cases hpc
  | casDown ex_d =>
    simp only [threadStep, hcase, apply_ite, Thread.goto] at hpc
    split at hpc
    · split at hpc <;> cases hpc
    · cases hpc
  | spinUp =>
    have hup : s.shared.countUp = 0 := by simpa [Spinning, hcase] using hspin
    simp [threadStep, hcase, hup, Thread.goto] at hpc
  | awaitDown =>
    have hdown : s.shared.countDown = n := by simpa [Spinning, hcase] using hspin
    simp [threadStep, hcase, hdown, Thread.ret] at hpc
  | storeDt | resetUp | readDt | loadDown | resetDown => simp [threadStep, hcase, Thread.goto, Thread.ret] at hpc

/-- Every thread has a step. -/
theorem next_eq (values : Fin n → ℕ → V) (s : State V n) (action : Fin n × Bool) : next values s action =
    some (s.set action.1 (threadStep n action.1 (values action.1 (s.threads action.1).entered) action.2
      s.shared (s.threads action.1))) := rfl

end Runs

end Ghexbench.Bcast
