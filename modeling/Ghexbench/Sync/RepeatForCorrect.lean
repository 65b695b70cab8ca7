import Ghexbench.Sync.RepeatFor
import Mathlib.Data.Finset.Max
import Mathlib.Tactic.Linarith

/-!
# Agreement of the timed loop

Every caller follows one and the same sequence of passes, determined by the arguments and by
the times that rank 0 broadcasts. Its counters are functions of the number of passes it has
completed, the `j`-th value of each broadcast is the `j`-th reading of rank 0 and thread 0,
and it stops after the first pass whose decision says so. Hence all callers stop together,
and none of them waits in a broadcast that another one has skipped.
-/

namespace Ghexbench.RepeatFor

open Ghexbench.Common

variable {τ : Type*} [LinearOrder τ] {R T : ℕ} {a : Args τ} {clock : ℕ → ℕ → ℕ → τ}

/-- No decision up to pass `k` ends the loop. -/
def Args.Runs (a : Args τ) (clock : ℕ → ℕ → ℕ → τ) (k : ℕ) : Prop :=
  ∀ m, 1 ≤ m → m ≤ k → ¬ a.Stops clock m

/-- A caller whose decision at the end of pass `k` waits for the time. -/
def Asking (a : Args τ) (clock : ℕ → ℕ → ℕ → τ) (c : Caller τ) : Prop :=
  1 ≤ c.passes ∧ c.fCalls = a.step * c.passes ∧ a.AsksTime c.passes ∧ a.Runs clock (c.passes - 1)

/-- What the counters of thread `t` of rank `r` say about the passes it has completed. -/
def CallerOk (a : Args τ) (clock : ℕ → ℕ → ℕ → τ) (r t : ℕ) (c : Caller τ) : Prop :=
  c.i = a.count c.passes ∧ c.elapsedCalls = a.asked c.passes ∧
    match c.pc with
    | .body j => j ≤ a.step ∧ c.fCalls = a.step * c.passes + j ∧
      c.entered = a.asked c.passes ∧ a.Runs clock c.passes
    | .mpiBcast dt => Asking a clock c ∧ c.entered + 1 = a.asked c.passes ∧ t = 0 ∧
      (r = 0 → dt = clock 0 0 (a.asked (c.passes - 1)))
    | .enterBcast dt => Asking a clock c ∧ c.entered + 1 = a.asked c.passes ∧
      (t = 0 → dt = clock 0 0 (a.asked (c.passes - 1)))
    | .leaveBcast => Asking a clock c ∧ c.entered = a.asked c.passes
    | .done => 1 ≤ c.passes ∧ c.fCalls = a.step * c.passes ∧ c.entered = a.asked c.passes ∧
      a.Stops clock c.passes ∧ a.Runs clock (c.passes - 1)

/-- The number of calls of `MPI_Bcast` that a thread 0 has completed. -/
def Caller.sent (c : Caller τ) : ℕ :=
  match c.pc with
  | .mpiBcast _ => c.elapsedCalls - 1
  | _ => c.elapsedCalls

/-- The callers follow the common sequence of passes, and all values in the broadcasts are
readings of rank 0 and thread 0, in order. -/
structure Inv (a : Args τ) (clock : ℕ → ℕ → ℕ → τ) (s : State τ R T) : Prop where
  callers : ∀ r t, CallerOk a clock r.val t.val (s.callers r t)
  mpiLength : ∀ r t, r.val = 0 → t.val = 0 → s.mpi.length = (s.callers r t).sent
  mpiValue : ∀ j v, s.mpi[j]? = some v → v = clock 0 0 j
  publishedLength : ∀ r t, t.val = 0 → (s.published r).length = (s.callers r t).entered
  publishedValue : ∀ r j v, (s.published r)[j]? = some v → v = clock 0 0 j

omit [LinearOrder τ] in
/-- The counter after one more pass. -/
theorem Args.count_succ (k : ℕ) : a.count (k + 1) = (a.count k + a.step) % sizeBound := by
  rw [Args.count, Args.count, Nat.mul_succ, Nat.mod_add_mod]

/-- A decision that depends on the time is one more call of `elapsed`. -/
theorem Asking.asked (c : Caller τ) (h : Asking a clock c) :
    a.asked c.passes = a.asked (c.passes - 1) + 1 := by
  obtain ⟨hpos, _, hasks, _⟩ := h
  obtain ⟨k, hk⟩ := Nat.exists_eq_add_of_le' hpos
  rw [hk] at hasks ⊢
  simp [Args.asked, hasks]

/-- The time broadcast in a pass decides whether it is the last one. -/
theorem Asking.stops_iff (c : Caller τ) (h : Asking a clock c) :
    a.Stops clock c.passes ↔ a.seconds ≤ clock 0 0 (a.asked (c.passes - 1)) := by
  obtain ⟨_, _, hasks, _⟩ := h
  simp [Args.Stops, hasks.1.not_ge, hasks.2]

/-- One more pass that does not end the loop. -/
theorem Args.Runs.extend {k : ℕ} (h : a.Runs clock (k - 1)) (hk : ¬ a.Stops clock k) :
    a.Runs clock k := by
  intro m hm hle
  by_cases hne : m = k
  · subst hne
    exact hk
  · exact h m hm (by omega)

/-- The end of a pass leads to the point that the common sequence prescribes. -/
theorem endPass_ok {r t : ℕ} {c : Caller τ} (h : CallerOk a clock r t c)
    (hpc : c.pc = .body a.step) :
    CallerOk a clock r t (endPass a (clock r t c.elapsedCalls) (t = 0) c) := by
  obtain ⟨hi, helapsed, hbody⟩ := h
  simp only [hpc] at hbody
  obtain ⟨-, hf, hentered, hruns⟩ := hbody
  have hcount : (c.i + a.step) % sizeBound = a.count (c.passes + 1) := by
    rw [hi, Args.count_succ]
  have hf' : c.fCalls = a.step * (c.passes + 1) := by rw [hf, Nat.mul_succ]
  have hnever (h : ¬ a.AsksTime (c.passes + 1)) : a.asked (c.passes + 1) = a.asked c.passes := by
    simp [Args.asked, h]
  simp only [endPass, hcount]
  by_cases hmax : a.maxIterations ≤ a.count (c.passes + 1)
  · have hask := hnever fun h => absurd h.1 hmax.not_gt
    rw [if_pos hmax]
    exact ⟨rfl, helapsed.trans hask.symm, Nat.succ_pos _, hf', hentered.trans hask.symm,
      Or.inl hmax, hruns⟩
  · rw [if_neg hmax]
    by_cases hmin : a.count (c.passes + 1) < a.minIterations
    · have hask := hnever fun h => absurd h.2 hmin.not_ge
      rw [if_pos hmin]
      refine ⟨rfl, helapsed.trans hask.symm, Nat.zero_le _, hf', hentered.trans hask.symm, ?_⟩
      exact Args.Runs.extend hruns fun hstop => hstop.elim hmax fun h => absurd h.1 hmin.not_ge
    · have hasks : a.AsksTime (c.passes + 1) := ⟨not_le.mp hmax, not_lt.mp hmin⟩
      have hask : a.asked (c.passes + 1) = a.asked c.passes + 1 := by simp [Args.asked, hasks]
      have hasking : 1 ≤ c.passes + 1 ∧ c.fCalls = a.step * (c.passes + 1) ∧
          a.AsksTime (c.passes + 1) ∧ a.Runs clock c.passes :=
        ⟨Nat.succ_pos _, hf', hasks, hruns⟩
      rw [if_neg hmin]
      refine ⟨rfl, by simp only [hask, helapsed], ?_⟩
      by_cases ht : t = 0
      · simp only [ht, decide_true, if_true]
        refine ⟨hasking, by rw [hentered, hask], trivial, fun hr => ?_⟩
        rw [hr, helapsed, Nat.add_sub_cancel]
      · simp only [ht, decide_false, Bool.false_eq_true, if_false]
        exact ⟨hasking, by rw [hentered, hask], fun h => h.elim⟩

omit [LinearOrder τ] in
/-- The caller that moved, and the others. -/
theorem State.set_callers (s : State τ R T) (r r' : Fin R) (t t' : Fin T) (c : Caller τ) :
    (s.set r t c).callers r' t' = if r' = r ∧ t' = t then c else s.callers r' t' := by
  by_cases hr : r' = r
  · subst hr
    by_cases ht : t' = t
    · subst ht
      simp [State.set]
    · simp [State.set, ht]
  · simp [State.set, hr]

section Steps

variable {s s' : State τ R T} {r : Fin R} {t : Fin T}

/-- What a caller does. -/
inductive Moves (a : Args τ) (clock : ℕ → ℕ → ℕ → τ) (s : State τ R T) (r : Fin R) (t : Fin T) :
    State τ R T → Prop
  | body {j : ℕ} (hpc : (s.callers r t).pc = .body j) (hlt : j < a.step) :
    Moves a clock s r t (s.set r t { s.callers r t with
      pc := .body (j + 1), fCalls := (s.callers r t).fCalls + 1 })
  | endPass {j : ℕ} (hpc : (s.callers r t).pc = .body j) (hge : ¬ j < a.step) :
    Moves a clock s r t (s.set r t (endPass a (clock r t (s.callers r t).elapsedCalls) (t.val = 0)
      (s.callers r t)))
  | sendRoot {dt : τ} (hpc : (s.callers r t).pc = .mpiBcast dt) (hr : r.val = 0) :
    Moves a clock s r t
      { s.set r t { s.callers r t with pc := .enterBcast dt } with mpi := s.mpi ++ [dt] }
  | receive {dt v : τ} (hpc : (s.callers r t).pc = .mpiBcast dt) (hr : r.val ≠ 0)
    (hv : s.mpi[(s.callers r t).elapsedCalls - 1]? = some v) :
    Moves a clock s r t (s.set r t { s.callers r t with pc := .enterBcast v })
  | publish {dt : τ} (hpc : (s.callers r t).pc = .enterBcast dt) (ht : t.val = 0) :
    Moves a clock s r t { s.set r t { s.callers r t with
        pc := .leaveBcast, entered := (s.callers r t).entered + 1 } with
      published := Function.update s.published r (s.published r ++ [dt]) }
  | enter {dt : τ} (hpc : (s.callers r t).pc = .enterBcast dt) (ht : t.val ≠ 0) :
    Moves a clock s r t (s.set r t { s.callers r t with
      pc := .leaveBcast, entered := (s.callers r t).entered + 1 })
  | leave {v : τ} (hpc : (s.callers r t).pc = .leaveBcast)
    (hall : ∀ t', (s.callers r t).entered ≤ (s.callers r t').entered)
    (hv : (s.published r)[(s.callers r t).entered - 1]? = some v) :
    Moves a clock s r t (s.set r t { s.callers r t with
      pc := if v < a.seconds then .body 0 else .done })

/-- Every step is one of these. -/
theorem moves_of_next (hstep : next a clock s (r, t) = some s') : Moves a clock s r t s' := by
  unfold next at hstep
  cases hpc : (s.callers r t).pc with
  | body j =>
    simp only [hpc] at hstep
    split at hstep
    · next hlt => exact Option.some.inj hstep ▸ Moves.body hpc hlt
    · next hge => exact Option.some.inj hstep ▸ Moves.endPass hpc hge
  | mpiBcast dt =>
    simp only [hpc] at hstep
    split at hstep
    · next hr => exact Option.some.inj hstep ▸ Moves.sendRoot hpc hr
    · next hr =>
      split at hstep
      · next v hv => exact Option.some.inj hstep ▸ Moves.receive hpc hr hv
      · cases hstep
  | enterBcast dt =>
    simp only [hpc] at hstep
    split at hstep
    · next ht => exact Option.some.inj hstep ▸ Moves.publish hpc ht
    · next ht => exact Option.some.inj hstep ▸ Moves.enter hpc ht
  | leaveBcast =>
    simp only [hpc] at hstep
    split at hstep
    · next hall =>
      split at hstep
      · next v hv => exact Option.some.inj hstep ▸ Moves.leave hpc hall hv
      · cases hstep
    · cases hstep
  | done => simp [hpc] at hstep

/-- A caller moves without adding to a broadcast. -/
theorem Inv.set (h : Inv a clock s) {c : Caller τ} (hc : CallerOk a clock r t c)
    (hsent : r.val = 0 → t.val = 0 → c.sent = (s.callers r t).sent)
    (hentered : t.val = 0 → c.entered = (s.callers r t).entered) : Inv a clock (s.set r t c) where
  callers r' t' := by
    rw [State.set_callers]
    split
    · next heq => exact heq.1 ▸ heq.2 ▸ hc
    · exact h.callers r' t'
  mpiLength r' t' hr ht := by
    rw [State.set_callers, show (s.set r t c).mpi = s.mpi from rfl, h.mpiLength r' t' hr ht]
    split
    · next heq => rw [heq.1, heq.2, hsent (heq.1 ▸ hr) (heq.2 ▸ ht)]
    · rfl
  mpiValue := h.mpiValue
  publishedLength r' t' ht := by
    rw [State.set_callers, show (s.set r t c).published = s.published from rfl,
      h.publishedLength r' t' ht]
    split
    · next heq => rw [heq.1, heq.2, hentered (heq.2 ▸ ht)]
    · rfl
  publishedValue := h.publishedValue

omit [LinearOrder τ] in
/-- Appending a value at its place in the sequence of readings. -/
theorem append_value {values : List τ} {dt : τ} (h : ∀ j v, values[j]? = some v → v = clock 0 0 j)
    (hdt : dt = clock 0 0 values.length) (j : ℕ) (v : τ) (hj : (values ++ [dt])[j]? = some v) :
    v = clock 0 0 j := by
  rcases Nat.lt_trichotomy j values.length with hlt | heq | hgt
  · rw [List.getElem?_append_left hlt] at hj
    exact h j v hj
  · subst heq
    simp only [List.getElem?_concat_length, Option.some.injEq] at hj
    rw [← hj, hdt]
  · rw [List.getElem?_eq_none (by simp only [List.length_append, List.length_singleton]; omega)] at hj
    cases hj

/-- Rank 0 broadcasts the reading of its thread 0. -/
theorem Inv.sendRoot (h : Inv a clock s) {dt : τ} (hr : r.val = 0)
    (hpc : (s.callers r t).pc = .mpiBcast dt) :
    Inv a clock { s.set r t { s.callers r t with pc := .enterBcast dt } with mpi := s.mpi ++ [dt] } := by
  have hok := h.callers r t
  obtain ⟨hi, helapsed, hmatch⟩ := hok
  simp only [hpc] at hmatch
  obtain ⟨hasking, hentered, ht, hdt⟩ := hmatch
  have hasked := Asking.asked _ hasking
  have hlength := h.mpiLength r t hr ht
  simp only [Caller.sent, hpc, helapsed, hasked, Nat.add_sub_cancel] at hlength
  refine ⟨fun r' t' => ?_, fun r' t' hr' ht' => ?_, append_value h.mpiValue ?_, fun r' t' ht' => ?_,
    h.publishedValue⟩
  · change CallerOk a clock r' t' ((s.set r t _).callers r' t')
    rw [State.set_callers]
    split
    · next heq =>
      rw [heq.1, heq.2]
      exact ⟨hi, helapsed, hasking, hentered, fun _ => hdt hr⟩
    · exact h.callers r' t'
  · change (s.mpi ++ [dt]).length = ((s.set r t _).callers r' t').sent
    rw [State.set_callers, if_pos ⟨Fin.ext (hr'.trans hr.symm), Fin.ext (ht'.trans ht.symm)⟩,
      List.length_append, hlength]
    exact hasked.symm.trans helapsed.symm
  · rw [hlength]
    exact hdt hr
  · change (s.published r').length = ((s.set r t _).callers r' t').entered
    rw [State.set_callers, h.publishedLength r' t' ht']
    split
    · next heq => rw [heq.1, heq.2]
    · rfl

/-- Thread 0 of a rank publishes the value it has received. -/
theorem Inv.publish (h : Inv a clock s) {dt : τ} (ht : t.val = 0)
    (hpc : (s.callers r t).pc = .enterBcast dt) :
    Inv a clock { s.set r t { s.callers r t with
        pc := .leaveBcast, entered := (s.callers r t).entered + 1 } with
      published := Function.update s.published r (s.published r ++ [dt]) } := by
  obtain ⟨hi, helapsed, hmatch⟩ := h.callers r t
  simp only [hpc] at hmatch
  obtain ⟨hasking, hentered, hdt⟩ := hmatch
  have hasked := Asking.asked _ hasking
  have hlength := h.publishedLength r t ht
  refine ⟨fun r' t' => ?_, fun r' t' hr' ht' => ?_, h.mpiValue, fun r' t' ht' => ?_, fun r' => ?_⟩
  · change CallerOk a clock r' t' ((s.set r t _).callers r' t')
    rw [State.set_callers]
    split
    · next heq =>
      rw [heq.1, heq.2]
      exact ⟨hi, helapsed, hasking, hentered⟩
    · exact h.callers r' t'
  · change s.mpi.length = ((s.set r t _).callers r' t').sent
    rw [State.set_callers, h.mpiLength r' t' hr' ht']
    split
    · next heq =>
      rw [heq.1, heq.2]
      simp [Caller.sent, hpc]
    · rfl
  · change (Function.update s.published r (s.published r ++ [dt]) r').length =
      ((s.set r t _).callers r' t').entered
    rw [State.set_callers]
    by_cases hr : r' = r
    · subst hr
      rw [Function.update_self, if_pos ⟨rfl, Fin.ext (ht'.trans ht.symm)⟩, List.length_append, hlength]
      rfl
    · rw [Function.update_of_ne hr, if_neg fun heq => hr heq.1]
      exact h.publishedLength r' t' ht'
  · change ∀ j v, (Function.update s.published r (s.published r ++ [dt]) r')[j]? = some v → _
    by_cases hr : r' = r
    · subst hr
      rw [Function.update_self]
      apply append_value (h.publishedValue r') _
      rw [hlength, hdt ht]
      congr 1
      omega
    · rw [Function.update_of_ne hr]
      exact h.publishedValue r'

/-- A caller calls `f` once more. -/
theorem Inv.body (h : Inv a clock s) {j : ℕ} (hpc : (s.callers r t).pc = .body j)
    (hlt : j < a.step) : Inv a clock (s.set r t { s.callers r t with
      pc := .body (j + 1), fCalls := (s.callers r t).fCalls + 1 }) := by
  obtain ⟨hi, helapsed, hmatch⟩ := h.callers r t
  simp only [hpc] at hmatch
  obtain ⟨hj, hf, hentered, hruns⟩ := hmatch
  exact h.set ⟨hi, helapsed, hlt, by simp only [hf]; omega, hentered, hruns⟩
    (fun _ _ => by simp [Caller.sent, hpc]) (fun _ => rfl)

/-- A caller ends a pass. -/
theorem Inv.endPass (h : Inv a clock s) {j : ℕ} (hpc : (s.callers r t).pc = .body j)
    (hge : ¬ j < a.step) : Inv a clock (s.set r t (RepeatFor.endPass a
      (clock r t (s.callers r t).elapsedCalls) (t.val = 0) (s.callers r t))) := by
  have hok := h.callers r t
  obtain ⟨_, _, hmatch⟩ := h.callers r t
  simp only [hpc] at hmatch
  have hj : j = a.step := by omega
  refine h.set (endPass_ok hok (hj ▸ hpc)) (fun _ ht => ?_) (fun _ => ?_)
  · simp only [RepeatFor.endPass, ht, decide_true, if_true]
    split
    · simp [Caller.sent, hpc]
    · split <;> simp [Caller.sent, hpc]
  · simp only [RepeatFor.endPass]
    split
    · rfl
    · split <;> rfl

/-- Another rank receives the reading of rank 0. -/
theorem Inv.receive (h : Inv a clock s) {dt v : τ} (hpc : (s.callers r t).pc = .mpiBcast dt)
    (hr : r.val ≠ 0) (hv : s.mpi[(s.callers r t).elapsedCalls - 1]? = some v) :
    Inv a clock (s.set r t { s.callers r t with pc := .enterBcast v }) := by
  obtain ⟨hi, helapsed, hmatch⟩ := h.callers r t
  simp only [hpc] at hmatch
  obtain ⟨hasking, hentered, _, _⟩ := hmatch
  have hvalue := h.mpiValue _ v hv
  rw [helapsed, Asking.asked _ hasking, Nat.add_sub_cancel] at hvalue
  exact h.set ⟨hi, helapsed, hasking, hentered, fun _ => hvalue⟩ (fun hr' => absurd hr' hr)
    (fun _ => rfl)

/-- Another thread enters the broadcast within its rank. -/
theorem Inv.enter (h : Inv a clock s) {dt : τ} (hpc : (s.callers r t).pc = .enterBcast dt)
    (ht : t.val ≠ 0) : Inv a clock (s.set r t { s.callers r t with
      pc := .leaveBcast, entered := (s.callers r t).entered + 1 }) := by
  obtain ⟨hi, helapsed, hmatch⟩ := h.callers r t
  simp only [hpc] at hmatch
  obtain ⟨hasking, hentered, _⟩ := hmatch
  exact h.set ⟨hi, helapsed, hasking, hentered⟩ (fun _ ht' => absurd ht' ht)
    (fun ht' => absurd ht' ht)

/-- A caller leaves the broadcast with the common value and decides. -/
theorem Inv.leave (h : Inv a clock s) {v : τ} (hpc : (s.callers r t).pc = .leaveBcast)
    (hv : (s.published r)[(s.callers r t).entered - 1]? = some v) :
    Inv a clock (s.set r t { s.callers r t with
      pc := if v < a.seconds then .body 0 else .done }) := by
  obtain ⟨hi, helapsed, hmatch⟩ := h.callers r t
  simp only [hpc] at hmatch
  obtain ⟨hasking, hentered⟩ := hmatch
  have hvalue := h.publishedValue r _ v hv
  rw [hentered, Asking.asked _ hasking, Nat.add_sub_cancel] at hvalue
  have hstops := Asking.stops_iff _ hasking
  obtain ⟨hpos, hf, -, hruns⟩ := hasking
  rw [← hvalue] at hstops
  refine h.set ?_ (fun _ _ => ?_) (fun _ => rfl)
  · by_cases hlt : v < a.seconds
    · rw [if_pos hlt]
      exact ⟨hi, helapsed, Nat.zero_le _, hf, hentered,
        hruns.extend fun hs => absurd (hstops.mp hs) hlt.not_ge⟩
    · rw [if_neg hlt]
      exact ⟨hi, helapsed, hpos, hf, hentered, hstops.mpr (not_lt.mp hlt), hruns⟩
  · by_cases hlt : v < a.seconds <;> simp [Caller.sent, hpc, hlt]

/-- Every step of a caller follows the common sequence of passes. -/
theorem Inv.step (h : Inv a clock s) (hstep : next a clock s (r, t) = some s') : Inv a clock s' := by
  cases moves_of_next hstep with
  | body hpc hlt => exact h.body hpc hlt
  | endPass hpc hge => exact h.endPass hpc hge
  | sendRoot hpc hr => exact h.sendRoot hr hpc
  | receive hpc hr hv => exact h.receive hpc hr hv
  | publish hpc ht => exact h.publish ht hpc
  | enter hpc ht => exact h.enter hpc ht
  | leave hpc hall hv => exact h.leave hpc hv

end Steps

/-- The callers follow the common sequence of passes in every state of every run. -/
theorem Reached.inv {s : State τ R T} (h : Reached a clock s) : Inv a clock s := by
  apply Reachable.invariant _ _ h
  · intro s₀ hs₀
    subst hs₀
    refine ⟨fun r t => ?_, fun r t _ _ => ?_, fun j v hv => ?_, fun r t _ => ?_, fun r j v hv => ?_⟩
    · refine ⟨by simp [init, Args.count], rfl, Nat.zero_le _, rfl, rfl, fun m hm hle => ?_⟩
      exact absurd hle (by simp only [init]; omega)
    · simp [init, Caller.sent]
    · simp [init] at hv
    · simp [init]
    · simp [init] at hv
  · intro s s' hinv hnext
    obtain ⟨⟨r, t⟩, hstep⟩ := hnext
    exact hinv.step hstep

end Ghexbench.RepeatFor
