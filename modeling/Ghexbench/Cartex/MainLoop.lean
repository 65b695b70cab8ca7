import Ghexbench.Cartex.DomainGrid
import Ghexbench.Sync.RepeatForAgree
import Mathlib.Algebra.Order.Field.Rat

/-!
# The timed benchmark

With `--time` the main step is repeated by `repeat_for` in batches of 100, for at least 0.9 of the
time and at most as often as `--nrep` says, which is zero if it is not given. Times are rational
numbers.
-/

namespace Ghexbench.Cartex

open Ghexbench.Common RepeatFor

/-- The options `--time` and `--nrep`. -/
structure Options where
  time : Option ℚ
  nrep : Option ℕ

/-- The members of `runtime` that determine how often the main step is repeated. -/
structure Runtime where
  numReps : ℕ
  useTimer : Bool
  time : ℚ

/-- The constructor of `runtime`. -/
def Options.runtime (o : Options) : Runtime where
  numReps := if o.time.isSome then o.nrep.getD 0 else o.nrep.getD 10
  useTimer := o.time.isSome
  time := o.time.getD 0

/-- The repetition of the main step: a call of `repeat_for`, or a counting loop. -/
inductive MainLoop
  | repeatFor (args : Args ℚ)
  | count (reps : ℕ)

/-- The repetition of the main step in `exchange`. -/
def Runtime.mainLoop (rt : Runtime) : MainLoop :=
  if rt.useTimer then .repeatFor ⟨9 / 10 * rt.time, 100, 100, rt.numReps⟩ else .count rt.numReps

/-- The main loop of a caller honours its limits: it makes at most `nrep` steps, and if it ends with
another number of steps then it has made at least 100, and the time that was broadcast last is at
least 0.9 of the time asked for. -/
def HonoursLimits (nrep : Option ℕ) (time : ℚ) (clock : ℕ → ℕ → ℕ → ℚ) (c : Caller ℚ) : Prop :=
  (∀ n, nrep = some n → c.fCalls ≤ n) ∧
  (c.pc = .done → (∀ n, nrep = some n → c.fCalls ≠ n) →
    100 ≤ c.fCalls ∧ 1 ≤ c.elapsedCalls ∧ 9 / 10 * time ≤ clock 0 0 (c.elapsedCalls - 1))

/-- The arguments of `repeat_for`. -/
def mainArgs (time : ℚ) (n : ℕ) : Args ℚ := ⟨9 / 10 * time, 100, 100, n⟩

section Passes

variable {time : ℚ} {n k : ℕ} {clock : ℕ → ℕ → ℕ → ℚ}

/-- The counter does not wrap around before the number of repetitions is reached. -/
theorem mainArgs_count (hn : n < 2 ^ 31) (hk : 100 * k < n + 100) :
    (mainArgs time n).count k = 100 * k := by
  apply Nat.mod_eq_of_lt
  change 100 * k < 2 ^ 64
  omega

/-- The time is asked for after every batch before the number of repetitions is reached. -/
theorem mainArgs_asked (hn : n < 2 ^ 31) (hk : 100 * k < n) : (mainArgs time n).asked k = k := by
  induction k with
  | zero => rfl
  | succ k ih =>
    have hasks : (mainArgs time n).AsksTime (k + 1) := by
      have hcount : (mainArgs time n).count (k + 1) = 100 * (k + 1) := mainArgs_count hn (by omega)
      change (mainArgs time n).count (k + 1) < n ∧ 100 ≤ (mainArgs time n).count (k + 1)
      omega
    rw [Args.asked, ih (by omega), if_pos hasks]

/-- A batch ends the loop if the number of repetitions or the time is reached. -/
theorem mainArgs_stops_iff (hn : n < 2 ^ 31) (hk : 1 ≤ k) (hle : 100 * k < n + 100) :
    (mainArgs time n).Stops clock k ↔ n ≤ 100 * k ∨ 9 / 10 * time ≤ clock 0 0 (k - 1) := by
  have hasked : (mainArgs time n).asked (k - 1) = k - 1 := mainArgs_asked hn (by omega)
  have hmin : (mainArgs time n).minIterations ≤ 100 * k := Nat.le_mul_of_pos_right 100 hk
  rw [Args.Stops, mainArgs_count hn hle, hasked, and_iff_right hmin]
  rfl

end Passes

/-- The main loop honours its limits in all states of all its runs. -/
def LimitsHonoured (cfg : Config) (time : ℚ) (nrep : Option ℕ) (clock : ℕ → ℕ → ℕ → ℚ) : Prop :=
  ∀ args, (Options.runtime ⟨some time, nrep⟩).mainLoop = .repeatFor args →
    ∀ s : State ℚ cfg.numRanks cfg.numThreads, Reached args clock s →
      ∀ r t, HonoursLimits nrep time clock (s.callers r t)

section Runs

variable {cfg : Config} {time : ℚ} {n k : ℕ} {clock : ℕ → ℕ → ℕ → ℚ}

/-- Without `--nrep` the loop ends after the first batch and never asks for the time. -/
theorem not_limitsHonoured_none : ¬ LimitsHonoured cfg time none clock := by
  intro h
  have hstops : (mainArgs time 0).Stops clock 1 := Or.inl (Nat.zero_le _)
  obtain ⟨s, hs, hdone⟩ := exists_done le_rfl hstops cfg.numRanks cfg.numThreads
  obtain ⟨hlast, -, -, helapsed⟩ := hs.inv.done (hdone ⟨0, cfg.numRanks_pos⟩ ⟨0, cfg.numThreads_pos⟩)
  have hpasses := le_antisymm (hlast.le_of_stops le_rfl hstops) hlast.1
  obtain ⟨-, hasked, -⟩ := (h _ rfl s hs ⟨0, cfg.numRanks_pos⟩ ⟨0, cfg.numThreads_pos⟩).2
    (hdone _ _) (fun n hn => absurd hn (Option.some_ne_none n).symm)
  have hnever : (mainArgs time 0).asked 1 = 0 := rfl
  rw [helapsed, hpasses, hnever] at hasked
  exact absurd hasked (Nat.not_succ_le_zero 0)

/-- A batch that ends the loop without more steps than asked for keeps all calls within limits. -/
theorem limitsHonoured_of_stops (hn : n < 2 ^ 31) (hk : 1 ≤ k) (hle : 100 * k ≤ n)
    (hstops : (mainArgs time n).Stops clock k) : LimitsHonoured cfg time (some n) clock := by
  intro args hargs s hs r t
  obtain rfl : mainArgs time n = args := MainLoop.repeatFor.inj hargs
  have hcalls : (s.callers r t).fCalls ≤ n := (hs.fCalls_le hk hstops r t).trans hle
  refine ⟨fun m hm => Option.some.inj hm ▸ hcalls, fun hpc hother => ?_⟩
  have hne := hother n rfl
  obtain ⟨hlast, hf, -, helapsed⟩ := hs.inv.done hpc
  have hf : (s.callers r t).fCalls = 100 * (s.callers r t).passes := hf
  have hpos := hlast.1
  have hlt : 100 * (s.callers r t).passes < n := by omega
  have hend := (mainArgs_stops_iff hn hpos (by omega)).mp hlast.2.1
  rw [helapsed, mainArgs_asked hn hlt]
  exact ⟨by omega, hpos, hend.resolve_left (not_le.mpr hlt)⟩

/-- If the loop keeps within limits, some batch ends it without more steps than asked for. -/
theorem exists_stops_of_limitsHonoured (hn : n < 2 ^ 31) (hpos : 1 ≤ n)
    (h : LimitsHonoured cfg time (some n) clock) :
    ∃ k, 1 ≤ k ∧ 100 * k ≤ n ∧ (mainArgs time n).Stops clock k := by
  have hlast : (mainArgs time n).Stops clock ((n + 99) / 100) :=
    (mainArgs_stops_iff hn (by omega) (by omega)).mpr (Or.inl (by omega))
  obtain ⟨s, hs, hdone⟩ := exists_done (by omega) hlast cfg.numRanks cfg.numThreads
  have hpc := hdone ⟨0, cfg.numRanks_pos⟩ ⟨0, cfg.numThreads_pos⟩
  obtain ⟨hpass, hf, -⟩ := hs.inv.done hpc
  refine ⟨_, hpass.1, ?_, hpass.2.1⟩
  exact hf.symm.trans_le ((h _ rfl s hs _ _).1 n rfl)

end Runs

/-- The main loop honours its limits if and only if `--nrep` is given, and its number is a multiple of
100 or the time has passed when some earlier batch ends. -/
theorem limits_honoured_iff (cfg : Config) (time : ℚ) (nrep : Option ℕ) (clock : ℕ → ℕ → ℕ → ℚ)
    (hnrep : ∀ n, nrep = some n → 1 ≤ n ∧ n < 2 ^ 31) :
    LimitsHonoured cfg time nrep clock ↔ ∃ n, nrep = some n ∧
      (100 ∣ n ∨ ∃ k, 1 ≤ k ∧ 100 * k < n ∧ 9 / 10 * time ≤ clock 0 0 (k - 1)) := by
  cases nrep with
  | none =>
    constructor
    · intro h
      exact absurd h not_limitsHonoured_none
    · rintro ⟨n, hn, -⟩
      exact absurd hn (Option.some_ne_none n).symm
  | some n =>
    obtain ⟨hpos, hlt⟩ := hnrep n rfl
    constructor
    · intro h
      obtain ⟨k, hk, hle, hstops⟩ := exists_stops_of_limitsHonoured hlt hpos h
      refine ⟨n, rfl, ?_⟩
      cases (mainArgs_stops_iff hlt hk (by omega)).mp hstops with
      | inl hge => exact Or.inl ⟨k, le_antisymm hge hle⟩
      | inr htime =>
        cases hle.lt_or_eq with
        | inl hbefore => exact Or.inr ⟨k, hk, hbefore, htime⟩
        | inr heq => exact Or.inl ⟨k, heq.symm⟩
    · rintro ⟨m, hm, hcond⟩
      obtain rfl := Option.some.inj hm
      cases hcond with
      | inl hdvd =>
        obtain ⟨k, rfl⟩ := hdvd
        have hk : 1 ≤ k := by omega
        exact limitsHonoured_of_stops hlt hk le_rfl
          ((mainArgs_stops_iff hlt hk (by omega)).mpr (Or.inl le_rfl))
      | inr hearly =>
        obtain ⟨k, hk, hbefore, htime⟩ := hearly
        exact limitsHonoured_of_stops hlt hk hbefore.le
          ((mainArgs_stops_iff hlt hk (by omega)).mpr (Or.inr htime))

/-- A run for ten seconds on one rank, with 200 steps at most. -/
theorem limits_honoured_200 :
    LimitsHonoured (cube 4) 10 (some 200) (fun _ _ j => (j : ℚ)) :=
  (limits_honoured_iff (cube 4) 10 (some 200) (fun _ _ j => (j : ℚ))
    (fun n hn => by obtain rfl := Option.some.inj hn; decide)).mpr ⟨200, rfl, Or.inl (by decide)⟩

/-- A run for ten seconds without a number of steps ends after the first batch. -/
theorem limits_not_honoured : ¬ LimitsHonoured (cube 4) 10 none (fun _ _ j => (j : ℚ)) :=
  not_limitsHonoured_none

end Ghexbench.Cartex
