import Ghexbench.Sync.RepeatForCorrect
import Mathlib.Algebra.Group.Action.Defs
import Mathlib.Algebra.Order.BigOperators.Group.Finset
import Mathlib.Data.Fintype.Prod
import Mathlib.Order.Bounds.Defs

/-!
# Termination and common result of the timed loop

The last pass of the loop is the first one whose decision ends it. All callers that have
returned have completed exactly this number of passes. A caller waits only for a value that
some other caller is still going to provide, so that the callers are never all waiting; and
as soon as some pass ends the loop, every run is finite.
-/

namespace Ghexbench.RepeatFor

open Ghexbench.Common

variable {τ : Type*} [LinearOrder τ] {R T : ℕ} {a : Args τ} {clock : ℕ → ℕ → ℕ → τ}
  {s : State τ R T}

/-- Pass `k` is the first one whose decision ends the loop. -/
def Args.LastPass (a : Args τ) (clock : ℕ → ℕ → ℕ → τ) (k : ℕ) : Prop :=
  1 ≤ k ∧ a.Stops clock k ∧ a.Runs clock (k - 1)

/-- There is at most one last pass. -/
theorem Args.LastPass.le_of_stops {k m : ℕ} (h : a.LastPass clock k) (hm : 1 ≤ m)
    (hstops : a.Stops clock m) : k ≤ m := by
  by_contra hlt
  exact h.2.2 m hm (by omega) hstops

/-- The passes that are completed without an end of the loop come before every pass that
ends it. -/
theorem Args.Runs.lt_of_stops {k m : ℕ} (h : a.Runs clock k) (hm : 1 ≤ m)
    (hstops : a.Stops clock m) : k < m := by
  by_contra hle
  exact h m hm (by omega) hstops

omit [LinearOrder τ] in
/-- The number of calls of `elapsed` grows with the passes. -/
theorem Args.asked_mono (a : Args τ) : Monotone a.asked :=
  monotone_nat_of_le_succ fun k => by rw [Args.asked]; exact Nat.le_add_right _ _

/-- A caller that has returned has completed the last pass. -/
theorem Inv.done (h : Inv a clock s) {r : Fin R} {t : Fin T} (hpc : (s.callers r t).pc = .done) :
    a.LastPass clock (s.callers r t).passes ∧
      (s.callers r t).fCalls = a.step * (s.callers r t).passes ∧
      (s.callers r t).i = a.count (s.callers r t).passes ∧
      (s.callers r t).elapsedCalls = a.asked (s.callers r t).passes := by
  obtain ⟨hi, helapsed, hmatch⟩ := h.callers r t
  simp only [hpc] at hmatch
  obtain ⟨hpos, hf, _, hstops, hruns⟩ := hmatch
  exact ⟨⟨hpos, hstops, hruns⟩, hf, hi, helapsed⟩

section Progress

/-- A caller that cannot move waits in one of the broadcasts or has returned. -/
theorem blocked_cases {r : Fin R} {t : Fin T} (hstuck : next a clock s (r, t) = none) :
    (s.callers r t).pc = .done ∨ (s.callers r t).pc = .leaveBcast ∨
      (∃ dt, (s.callers r t).pc = .mpiBcast dt ∧ r.val ≠ 0 ∧
        s.mpi.length ≤ (s.callers r t).elapsedCalls - 1) := by
  unfold next at hstuck
  cases hpc : (s.callers r t).pc with
  | body j =>
    simp only [hpc] at hstuck
    split at hstuck <;> cases hstuck
  | mpiBcast dt =>
    simp only [hpc] at hstuck
    split at hstuck
    · cases hstuck
    · next hr =>
      split at hstuck
      · cases hstuck
      · next hnone => exact Or.inr (Or.inr ⟨dt, rfl, hr, List.getElem?_eq_none_iff.mp hnone⟩)
  | enterBcast dt =>
    simp only [hpc] at hstuck
    split at hstuck <;> cases hstuck
  | leaveBcast => exact Or.inr (Or.inl rfl)
  | done => exact Or.inl rfl

/-- A caller may leave `bcast` once every thread of its rank has entered the round. -/
theorem Inv.leaves (h : Inv a clock s) {r : Fin R} {t : Fin T}
    (hpc : (s.callers r t).pc = .leaveBcast)
    (hall : ∀ t', (s.callers r t).entered ≤ (s.callers r t').entered) :
    ∃ s', next a clock s (r, t) = some s' := by
  obtain ⟨_, _, hmatch⟩ := h.callers r t
  simp only [hpc] at hmatch
  obtain ⟨hasking, hentered⟩ := hmatch
  have hpos : 0 < (s.callers r t).entered := by rw [hentered, Asking.asked _ hasking]; omega
  let leader : Fin T := ⟨0, lt_of_le_of_lt (Nat.zero_le _) t.isLt⟩
  have hlt : (s.callers r t).entered - 1 < (s.published r).length := by
    rw [h.publishedLength r leader rfl]
    have := hall leader
    omega
  unfold next
  simp only [hpc]
  rw [if_pos hall, List.getElem?_eq_getElem hlt]
  exact ⟨_, rfl⟩

/-- The thread of a rank that has entered the fewest rounds is not waiting for the others. -/
theorem Inv.rank_blocked (h : Inv a clock s) {r : Fin R}
    (hstuck : ∀ t, next a clock s (r, t) = none) :
    (∀ t, (s.callers r t).pc = .done) ∨
      ∃ t, ∃ dt, (s.callers r t).pc = .mpiBcast dt ∧ r.val ≠ 0 ∧
        s.mpi.length ≤ (s.callers r t).elapsedCalls - 1 := by
  rw [or_iff_not_imp_right]
  intro hnone t
  have hwaits (t' : Fin T) : (s.callers r t').pc = .done ∨ (s.callers r t').pc = .leaveBcast := by
    rcases blocked_cases (hstuck t') with hdone | hleave | hmpi
    · exact Or.inl hdone
    · exact Or.inr hleave
    · exact absurd ⟨t', hmpi⟩ hnone
  have hnotmin (t' : Fin T) (ht' : (s.callers r t').pc = .leaveBcast) :
      ∃ u, (s.callers r u).entered < (s.callers r t').entered := by
    by_contra hmin
    push Not at hmin
    obtain ⟨s', hs'⟩ := h.leaves ht' hmin
    rw [hstuck t'] at hs'
    cases hs'
  obtain ⟨m, _, hm⟩ := Finset.exists_min_image Finset.univ (fun u => (s.callers r u).entered)
    ⟨t, Finset.mem_univ t⟩
  have hmdone : (s.callers r m).pc = .done := by
    refine (hwaits m).resolve_right fun hleave => ?_
    obtain ⟨u, hu⟩ := hnotmin m hleave
    exact absurd (hm u (Finset.mem_univ u)) (not_le.mpr hu)
  -- the caller with the fewest rounds has gone through all of them
  refine (hwaits t).resolve_right fun hleave => ?_
  obtain ⟨_, _, hmatch⟩ := h.callers r t
  simp only [hleave] at hmatch
  obtain ⟨⟨hpos, _, _, hruns⟩, hentered⟩ := hmatch
  obtain ⟨_, _, hmatch'⟩ := h.callers r m
  simp only [hmdone] at hmatch'
  obtain ⟨hmpos, _, hmentered, hmstops, _⟩ := hmatch'
  have hle : (s.callers r t).passes ≤ (s.callers r m).passes := by
    have := hruns.lt_of_stops hmpos hmstops
    omega
  obtain ⟨u, hu⟩ := hnotmin t hleave
  have hmu := hm u (Finset.mem_univ u)
  have hmono := a.asked_mono hle
  omega

/-- If no caller can move, all of them have returned. -/
theorem Inv.progress (h : Inv a clock s) (hstuck : ∀ caller, next a clock s caller = none)
    (r : Fin R) (t : Fin T) : (s.callers r t).pc = .done := by
  let root : Fin R := ⟨0, lt_of_le_of_lt (Nat.zero_le _) r.isLt⟩
  let leader : Fin T := ⟨0, lt_of_le_of_lt (Nat.zero_le _) t.isLt⟩
  have hroot : (s.callers root leader).pc = .done := by
    rcases h.rank_blocked fun t' => hstuck (root, t') with hall | ⟨_, _, _, hne, _⟩
    · exact hall leader
    · exact absurd rfl hne
  rcases h.rank_blocked fun t' => hstuck (r, t') with hall | ⟨u, dt, hpc, _, hmpi⟩
  · exact hall t
  · exfalso
    obtain ⟨hlast, _, _, helapsed⟩ := h.done hroot
    obtain ⟨_, hued, hmatch⟩ := h.callers r u
    simp only [hpc] at hmatch
    obtain ⟨hasking, hentered, _⟩ := hmatch
    have hlength := h.mpiLength root leader rfl rfl
    simp only [Caller.sent, hroot, helapsed] at hlength
    have hle : (s.callers r u).passes ≤ (s.callers root leader).passes := by
      have := hasking.2.2.2.lt_of_stops hlast.1 hlast.2.1
      omega
    have hmono := a.asked_mono hle
    have hasked := Asking.asked _ hasking
    omega

end Progress

section Termination

/-- The position of a caller within its pass. -/
def Pc.position : Pc τ → ℕ
  | .mpiBcast _ => 0
  | .enterBcast _ => 1
  | .leaveBcast => 2
  | .body j => j + 3
  | .done => 3

/-- The steps that a caller has at least made. -/
def Caller.work (a : Args τ) (c : Caller τ) : ℕ := (a.step + 4) * c.passes + c.pc.position

/-- The work of all callers. -/
def State.work (a : Args τ) (s : State τ R T) : ℕ := ∑ p : Fin R × Fin T, (s.callers p.1 p.2).work a

omit [LinearOrder τ] in
/-- Replacing one caller by one that has worked more adds to the work of all. -/
theorem State.work_lt {s s' : State τ R T} {r : Fin R} {t : Fin T} {c : Caller τ}
    (h : s'.callers = (s.set r t c).callers) (hlt : (s.callers r t).work a < c.work a) :
    s.work a < s'.work a := by
  refine Finset.sum_lt_sum (fun p _ => ?_) ⟨(r, t), Finset.mem_univ _, ?_⟩
  · rw [h, State.set_callers]
    split
    · next heq => rw [heq.1, heq.2]; exact hlt.le
    · rfl
  · rw [h, State.set_callers, if_pos ⟨rfl, rfl⟩]
    exact hlt

omit [LinearOrder τ] in
/-- The end of a pass is a step forward. -/
theorem endPass_work {c : Caller τ} (reading : τ) (leader : Bool) (hpc : c.pc = .body a.step) :
    c.work a < (endPass a reading leader c).work a := by
  have hwork : c.work a = (a.step + 4) * c.passes + (a.step + 3) := by
    rw [Caller.work, hpc]
    rfl
  have hpasses : (endPass a reading leader c).passes = c.passes + 1 := by
    simp only [endPass]
    split
    · rfl
    · split <;> rfl
  rw [hwork, Caller.work, hpasses, Nat.mul_succ]
  omega

/-- Every step adds to the work. -/
theorem Inv.work_lt (h : Inv a clock s) {s' : State τ R T} {caller : Fin R × Fin T}
    (hstep : next a clock s caller = some s') : s.work a < s'.work a := by
  obtain ⟨r, t⟩ := caller
  obtain ⟨_, _, hmatch⟩ := h.callers r t
  cases moves_of_next hstep with
  | body hpc hlt => exact State.work_lt rfl (by simp [Caller.work, hpc, Pc.position])
  | @endPass j hpc hge =>
    simp only [hpc] at hmatch
    have hj : j = a.step := by omega
    exact State.work_lt rfl (endPass_work _ _ (hj ▸ hpc))
  | sendRoot hpc hr => exact State.work_lt rfl (by simp [Caller.work, hpc, Pc.position])
  | receive hpc hr hv => exact State.work_lt rfl (by simp [Caller.work, hpc, Pc.position])
  | publish hpc ht => exact State.work_lt rfl (by simp [Caller.work, hpc, Pc.position])
  | enter hpc ht => exact State.work_lt rfl (by simp [Caller.work, hpc, Pc.position])
  | leave hpc hall hv =>
    apply State.work_lt rfl _
    simp only [Caller.work, hpc]
    split <;> simp [Pc.position]

/-- No caller goes beyond a pass that ends the loop. -/
theorem Inv.work_le (h : Inv a clock s) {k : ℕ} (hk : 1 ≤ k) (hstops : a.Stops clock k)
    (r : Fin R) (t : Fin T) : (s.callers r t).work a ≤ (a.step + 4) * (k + 1) := by
  obtain ⟨_, _, hmatch⟩ := h.callers r t
  have hfinish {m p : ℕ} (hm : m ≤ k) (hp : p ≤ a.step + 4) :
      (a.step + 4) * m + p ≤ (a.step + 4) * (k + 1) := by
    rw [Nat.mul_succ]
    exact Nat.add_le_add (Nat.mul_le_mul_left _ hm) hp
  have hle (hruns : a.Runs clock ((s.callers r t).passes - 1)) : (s.callers r t).passes ≤ k := by
    have := hruns.lt_of_stops hk hstops
    omega
  cases hpc : (s.callers r t).pc <;> simp only [hpc] at hmatch <;>
    simp only [Caller.work, hpc, Pc.position]
  case body j => exact hfinish (hmatch.2.2.2.lt_of_stops hk hstops).le (by omega)
  case mpiBcast => exact hfinish (hle hmatch.1.2.2.2) (by omega)
  case enterBcast => exact hfinish (hle hmatch.1.2.2.2) (by omega)
  case leaveBcast => exact hfinish (hle hmatch.1.2.2.2) (by omega)
  case done => exact hfinish (hle hmatch.2.2.2.2) (by omega)

end Termination

/-- The work of all callers is bounded as soon as some pass ends the loop. -/
theorem Reached.work_le {k : ℕ} (hk : 1 ≤ k) (hstops : a.Stops clock k) (h : Reached a clock s) :
    s.work a ≤ R * T * ((a.step + 4) * (k + 1)) := by
  have hsum := Finset.sum_le_card_nsmul Finset.univ
    (fun p : Fin R × Fin T => (s.callers p.1 p.2).work a) _
    fun p _ => h.inv.work_le hk hstops p.1 p.2
  rwa [Finset.card_univ, Fintype.card_prod, Fintype.card_fin, Fintype.card_fin, smul_eq_mul] at hsum

/-- The length of every run is bounded as soon as some pass ends the loop. -/
theorem Reached.length_le {k : ℕ} (h : Reached a clock s) (hk : 1 ≤ k) (hstops : a.Stops clock k)
    {actions : List (Fin R × Fin T)} {s' : State τ R T}
    (hrun : runActions (next a clock) s actions = some s') :
    actions.length ≤ R * T * ((a.step + 4) * (k + 1)) := by
  have hlength := length_le_of_measure (State.work a)
    (fun _ _ _ hu => Inv.work_lt (Reached.inv hu)) (fun _ => Reached.work_le hk hstops) h hrun
  omega

/-- As soon as some pass ends the loop there is a run in which all calls return. -/
theorem exists_done {k : ℕ} (hk : 1 ≤ k) (hstops : a.Stops clock k) (R T : ℕ) :
    ∃ s : State τ R T, Reached a clock s ∧ ∀ r t, (s.callers r t).pc = .done := by
  obtain ⟨s, hs, hstuck⟩ := exists_stuck (State.work a)
    (fun _ _ _ hu => Inv.work_lt (Reached.inv hu)) (fun _ => Reached.work_le hk hstops)
    (Reachable.initial (rfl : init τ R T = init τ R T))
  exact ⟨s, hs, (Reached.inv hs).progress hstuck⟩

/-- No caller calls `f` more often than up to the end of a pass that ends the loop. -/
theorem Reached.fCalls_le {k : ℕ} (h : Reached a clock s) (hk : 1 ≤ k) (hstops : a.Stops clock k)
    (r : Fin R) (t : Fin T) : (s.callers r t).fCalls ≤ a.step * k := by
  obtain ⟨_, _, hmatch⟩ := h.inv.callers r t
  have hle (hruns : a.Runs clock ((s.callers r t).passes - 1)) :
      a.step * (s.callers r t).passes ≤ a.step * k := by
    have := hruns.lt_of_stops hk hstops
    exact Nat.mul_le_mul_left _ (by omega)
  cases hpc : (s.callers r t).pc <;> simp only [hpc] at hmatch
  case body j =>
    have hlt := Nat.mul_le_mul_left a.step (Nat.succ_le_of_lt (hmatch.2.2.2.lt_of_stops hk hstops))
    rw [Nat.mul_succ] at hlt
    omega
  case mpiBcast => exact hmatch.1.2.1.trans_le (hle hmatch.1.2.2.2)
  case enterBcast => exact hmatch.1.2.1.trans_le (hle hmatch.1.2.2.2)
  case leaveBcast => exact hmatch.1.2.1.trans_le (hle hmatch.1.2.2.2)
  case done => exact hmatch.2.1.trans_le (hle hmatch.2.2.2.2)

/-- All calls of `repeat_for` agree. Those that have returned have completed the passes up to
the first one whose decision ends the loop, with the same numbers of calls of `f` and of
`elapsed` and the same result, which is the number of calls of `f` in a `std::size_t`. As long
as some caller has not returned, one of them can move; and if some pass ends the loop then the
length of every run is bounded. -/
theorem repeat_for_agrees (a : Args τ) (clock : ℕ → ℕ → ℕ → τ) (s : State τ R T)
    (h : Reached a clock s) :
    (∀ r t, (s.callers r t).pc = .done → ∃ k, a.LastPass clock k ∧
      (s.callers r t).fCalls = a.step * k ∧ (s.callers r t).i = a.step * k % sizeBound ∧
      (s.callers r t).elapsedCalls = a.asked k) ∧
    (∀ r t r' t', (s.callers r t).pc = .done → (s.callers r' t').pc = .done →
      (s.callers r t).fCalls = (s.callers r' t').fCalls ∧ (s.callers r t).i = (s.callers r' t').i ∧
      (s.callers r t).elapsedCalls = (s.callers r' t').elapsedCalls) ∧
    ((∃ r t, (s.callers r t).pc ≠ .done) → ∃ caller s', next a clock s caller = some s') ∧
    (∀ k, 1 ≤ k → a.Stops clock k → ∃ bound, ∀ actions s',
      runActions (next a clock) s actions = some s' → actions.length ≤ bound) := by
  refine ⟨fun r t hpc => ⟨_, h.inv.done hpc⟩, fun r t r' t' hpc hpc' => ?_, fun hex => ?_,
    fun k hk hstops => ⟨_, fun actions s' hrun => h.length_le hk hstops hrun⟩⟩
  · obtain ⟨hlast, hf, hi, helapsed⟩ := h.inv.done hpc
    obtain ⟨hlast', hf', hi', helapsed'⟩ := h.inv.done hpc'
    have hpasses : (s.callers r t).passes = (s.callers r' t').passes :=
      le_antisymm (hlast.le_of_stops hlast'.1 hlast'.2.1) (hlast'.le_of_stops hlast.1 hlast.2.1)
    rw [hf, hf', hi, hi', helapsed, helapsed', hpasses]
    exact ⟨rfl, rfl, rfl⟩
  · by_contra hstuck
    push Not at hstuck
    obtain ⟨r, t, hne⟩ := hex
    refine hne (h.inv.progress (fun caller => ?_) r t)
    exact Option.eq_none_iff_forall_ne_some.mpr (hstuck caller)

/-- A loop of at least one second. -/
def oneSecond : Args ℕ := ⟨1, 1, 1, 5⟩

/-- Rank 0 measures three seconds, and no other rank measures any time. -/
def rootClock (r _ _ : ℕ) : ℕ := if r = 0 then 3 else 0

/-- Two ranks whose own clocks disagree, at the end of the loop. -/
theorem repeat_for_agrees_returned : ∃ s : State ℕ 2 1, (∀ r t, (s.callers r t).pc = .done) ∧
    (s.callers 0 0).fCalls = (s.callers 1 0).fCalls ∧ (s.callers 0 0).i = (s.callers 1 0).i ∧
    (s.callers 0 0).elapsedCalls = (s.callers 1 0).elapsedCalls := by
  let actions : List (Fin 2 × Fin 1) :=
    [(1, 0), (1, 0), (0, 0), (0, 0), (0, 0), (1, 0), (1, 0), (0, 0), (0, 0), (1, 0)]
  have hrun : ∃ s, runActions (next oneSecond rootClock) (init ℕ 2 1) actions = some s ∧
      ∀ r t, (s.callers r t).pc = .done := ⟨_, rfl, by decide⟩
  obtain ⟨s, hs, hdone⟩ := hrun
  have hreached : Reached oneSecond rootClock s :=
    reachable_of_runActions actions (Reachable.initial rfl) hs
  exact ⟨s, hdone, (repeat_for_agrees _ _ s hreached).2.1 0 0 1 0 (hdone 0 0) (hdone 1 0)⟩

/-- Arguments for which the counter is never `2 ^ 63 + 1` or more: it is `2 ^ 63` after an odd
number of passes and zero after an even number. -/
def wrapping : Args ℕ := ⟨0, 2 ^ 63 + 1, 2 ^ 63, 2 ^ 63 + 1⟩

/-- No pass ends the loop when the counter wraps around below its bounds. -/
theorem wrapping_never_stops (clock : ℕ → ℕ → ℕ → ℕ) (k : ℕ) : ¬ wrapping.Stops clock k := by
  have hcount : wrapping.count k < 2 ^ 63 + 1 := by
    have hstep : wrapping.step = 2 ^ 63 := by decide
    rw [Args.count, hstep, sizeBound]
    omega
  simp only [Args.Stops, wrapping] at hcount ⊢
  omega

/-- Without regard to the wrap-around the loop would end after the second pass with the number
`2 ^ 64`, but the call never returns. -/
theorem repeat_for_wraps :
    IsLeast {k | 1 ≤ k ∧ (wrapping.maxIterations ≤ wrapping.increment * k ∨
      wrapping.minIterations ≤ wrapping.increment * k ∧ wrapping.seconds ≤ 0)} 2 ∧
    ∀ s : State ℕ 1 1, Reached wrapping (fun _ _ _ => 0) s → (s.callers 0 0).pc ≠ .done := by
  refine ⟨⟨by simp [wrapping], fun k hk => ?_⟩, fun s hs hdone => ?_⟩
  · have hbound : 2 ^ 63 + 1 ≤ 2 ^ 63 * k := hk.2.elim id And.left
    omega
  · exact wrapping_never_stops _ _ (hs.inv.done hdone).1.2.1

end Ghexbench.RepeatFor
