import Ghexbench.Cartex.PassingHalos

/-!
# The exchange with oomph

The version of `exchange` for oomph posts both receives of a dimension before it packs the field, and sends
when it has packed. The tags are those of the version for MPI, `wait_all` waits for the two receives and
the two sends, and the communicator is assumed to match messages as MPI does. A message of a phase may thus
arrive before the receiver has packed. It is unpacked after `wait_all` only, except for the planes of the
third dimension, which are not packed if their messages go straight to the field; so packing a field earlier
would not make a difference, and the runs of this version are those of the version for MPI.
-/

namespace Ghexbench.Cartex

open Ghexbench.Common

/-- The variant of `step` with oomph, with or without `CARTEX_MPI_PACK_Z` and `CARTEX_MPI_MANY_BUFFERS`. -/
def Variant.oomph (packZ manyBuffers : Bool) : Variant := ⟨if packZ then .packedZ else .packed, manyBuffers⟩

namespace Stage

variable {M μ : Type*} (ph : Phase M μ)

/-- What a call does to the memory with oomph: the first send of a phase follows the packing. -/
def oomphEffect : Stage → M → M
  | .send true => ph.prepare
  | .waitall => ph.conclude
  | _ => id

/-- What is left of the packing for a thread that has posted a receive and no send. -/
def pending : Stage → M → M
  | .recv false => ph.prepare
  | .send true => ph.prepare
  | _ => id

end Stage

namespace Setup

variable {V : Type*} (su : Setup)

/-- One step of the system with oomph. -/
def oomphPass (v : Variant) (steps : ℕ) (eager : Op → Bool) (s : PassingState V) :
    PassingAction → Option (PassingState V) :=
  su.passWith Stage.oomphEffect v steps eager s

/-- The states of all runs with oomph from the given memories. -/
def OomphPassed (v : Variant) (steps : ℕ) (eager : Op → Bool) (start : ℕ × ℕ → Memory V)
    (s : PassingState V) : Prop :=
  Reachable (· = PassingState.init start) (Steps (su.oomphPass v steps eager)) s

/-- The state in which every thread that has posted a receive has packed as well. -/
def packedEarly (v : Variant) (steps : ℕ) (s : PassingState V) : PassingState V := { s with
  mem := fun q => (s.exchange.cursors q).stage.pending
    ((su.stepping V v steps).phase (s.exchange.cursors q).phase q) (s.mem q) }

end Setup

namespace Neighborhood

variable {V : Type*} {nb : Neighborhood}

/-- Packing and the arrival of a message do not interfere. -/
theorem slotPhase_prepare_incoming (path : Path) (slot fieldId : ℕ) (dim : Fin 3) (left : Bool)
    (data : List V) (m : Memory V) :
    let ph := nb.slotPhase path slot fieldId dim
    ph.prepare (ph.incoming left data m) = ph.incoming left data (ph.prepare m) := by
  cases path with
  | datatypes => rfl
  | packedZ => rfl
  | packed => fin_cases dim <;> rfl

end Neighborhood

namespace Setup

variable {V : Type*} {su : Setup} {v : Variant} {steps : ℕ} {eager : Op → Bool} {s : PassingState V}

@[simp] theorem packedEarly_exchange : (su.packedEarly v steps s).exchange = s.exchange := rfl

@[simp] theorem packedEarly_contents : (su.packedEarly v steps s).contents = s.contents := rfl

/-- What is left of the packing does not interfere with the arrival of a message. -/
theorem pending_incoming (stage : Stage) (p : ℕ) (q : ℕ × ℕ) (left : Bool) (data : List V) (m : Memory V) :
    let ph := (su.stepping V v steps).phase p q
    stage.pending ph (ph.incoming left data m) = ph.incoming left data (stage.pending ph m) := by
  have hprepare := (su.neighborhood q).slotPhase_prepare_incoming v.path (v.slot (p / 3 % su.numFields))
    (p / 3 % su.numFields) (phaseDim p) left data m
  rcases stage with (_ | _) | (_ | _) | _
  · exact hprepare
  · rfl
  · rfl
  · exact hprepare
  · rfl

/-- Nothing is left of the packing when a send has been posted. -/
theorem pending_of_sent {M μ : Type*} (ph : Phase M μ) {stage : Stage} {left : Bool}
    (hsent : stage.sent left = true) : stage.pending ph = id := by
  rcases stage with (_ | _) | (_ | _) | _
  · cases hsent
  · rfl
  · rfl
  · cases hsent
  · rfl

/-- The memory of the thread that moves is packed like all others. -/
theorem packedEarly_move {q : ℕ × ℕ} {c : Cursor} {net : Network Op Op} {m : Memory V} :
    su.packedEarly v steps { s with
      exchange := s.exchange.move q c net
      mem := Function.update s.mem q m } =
    { su.packedEarly v steps s with
      exchange := s.exchange.move q c net
      mem := Function.update (su.packedEarly v steps s).mem q
        (c.stage.pending ((su.stepping V v steps).phase c.phase q) m) } := by
  unfold packedEarly
  congr 1
  funext q'
  simp only [move_cursors, Function.update_apply]
  split
  · next heq => rw [heq]
  · rfl

/-- The arrival of a message at a thread that has packed, and at one that has not. -/
theorem packedEarly_land (q : ℕ × ℕ) (left : Bool) (data : List V) (landed : Op → Bool) :
    let ph := (su.stepping V v steps).phase (s.exchange.cursors q).phase q
    su.packedEarly v steps { s with
      mem := Function.update s.mem q (ph.incoming left data (s.mem q))
      landed := landed } =
    { su.packedEarly v steps s with
      mem := Function.update (su.packedEarly v steps s).mem q
        (ph.incoming left data ((su.packedEarly v steps s).mem q))
      landed := landed } := by
  intro ph
  unfold packedEarly
  congr 1
  funext q'
  simp only [Function.update_apply]
  split
  · next heq =>
    subst heq
    exact pending_incoming _ _ _ left data (s.mem q')
  · rfl

/-- A call with MPI, of a thread that has packed, and with oomph. -/
theorem packedEarly_call {q : ℕ × ℕ} {e : ExchangeState} (hmove : su.Moves steps eager s.exchange (.run q) e) :
    let ph := (su.stepping V v steps).phase (s.exchange.cursors q).phase q
    let stage := (s.exchange.cursors q).stage
    su.packedEarly v steps { s with
      exchange := e
      mem := Function.update s.mem q (stage.oomphEffect ph (s.mem q)) } =
    { su.packedEarly v steps s with
      exchange := e
      mem := Function.update (su.packedEarly v steps s).mem q
        (stage.effect ph ((su.packedEarly v steps s).mem q)) } := by
  intro ph stage
  have hmem : (su.packedEarly v steps s).mem q = stage.pending ph (s.mem q) := rfl
  rw [hmem]
  cases hmove with
  | @recv _ left hq hphase hstage =>
    simp only [packedEarly_move, stage, hstage]
    cases left <;> rfl
  | @send _ left hq hphase hstage =>
    simp only [packedEarly_move, stage, hstage]
    cases left <;> rfl
  | waitall hstage hwait =>
    simp only [packedEarly_move, stage, hstage]
    rfl

/-- Every step with oomph is, apart from when the fields are packed, the same step with MPI. -/
theorem pass_packedEarly (s : PassingState V) (a : PassingAction) :
    su.pass v steps eager (su.packedEarly v steps s) a =
      (su.oomphPass v steps eager s a).map (su.packedEarly v steps) := by
  cases a with
  | deliver sender key =>
    simp only [pass, oomphPass, passWith, next, Option.map_map]
    rfl
  | call q =>
    simp only [pass, oomphPass, passWith]
    split_ifs with hwait hwait' hwait'
    · rw [packedEarly_exchange, Option.map_map]
      cases hnext : su.next steps eager s.exchange (.run q) with
      | none => rfl
      | some e => exact congrArg some (packedEarly_call (moves_of_next hnext)).symm
    · exact absurd hwait hwait'
    · exact absurd hwait' hwait
    · rfl
  | read q left =>
    simp only [pass, oomphPass, passWith]
    split_ifs with hread hread' hread'
    · have hmem : (su.packedEarly v steps s).mem q = s.mem q :=
        congrFun (pending_of_sent _ hread'.2.1) (s.mem q)
      rw [Option.map_some, hmem]
      rfl
    · exact absurd hread hread'
    · exact absurd hread' hread
    · rfl
  | land q left =>
    simp only [pass, oomphPass, passWith]
    split_ifs with hland hland' hland'
    · rw [packedEarly_exchange, Option.map_bind]
      congr 1
      funext p
      rw [packedEarly_contents, Function.comp_apply, Option.map_map]
      congr 1
      funext data
      exact (packedEarly_land q left data _).symm
    · exact absurd hland hland'
    · exact absurd hland' hland
    · rfl

/-- Before the first step there is nothing to pack. -/
theorem packedEarly_init (start : ℕ × ℕ → Memory V) :
    su.packedEarly v steps (PassingState.init start) = PassingState.init start := rfl

/-- If fields were packed earlier, a run with oomph would be a run with MPI. -/
theorem OomphPassed.passed {start : ℕ × ℕ → Memory V} (h : su.OomphPassed v steps eager start s) :
    su.Passed v steps eager start (su.packedEarly v steps s) := by
  refine Reachable.simulation (su.packedEarly v steps) ?_ ?_ h
  · intro s₀ hs₀
    rw [hs₀, packedEarly_init]
  · rintro s t - ⟨a, hstep⟩
    left
    exact ⟨a, by rw [pass_packedEarly, hstep, Option.map_some]⟩

/-- Where oomph cannot go on, MPI cannot either. -/
theorem pass_eq_none (hstuck : ∀ a, su.oomphPass v steps eager s a = none) (a : PassingAction) :
    su.pass v steps eager (su.packedEarly v steps s) a = none := by
  rw [pass_packedEarly, hstuck, Option.map_none]

/-- Some run with oomph comes to its end. -/
theorem exists_oomph_stuck (hsep : su.Separate) (hind : (su.stepping V v steps).Independent)
    (eager : Op → Bool) (start : ℕ × ℕ → Memory V) :
    ∃ s, su.OomphPassed v steps eager start s ∧ ∀ a, su.oomphPass v steps eager s a = none := by
  have hlt : ∀ s a t, su.OomphPassed v steps eager start s → su.oomphPass v steps eager s a = some t →
      su.passProgress v steps (su.packedEarly v steps s) <
        su.passProgress v steps (su.packedEarly v steps t) := by
    intro s a t h hstep
    apply passProgress_lt hsep (OomphPassed.passed h)
    rw [pass_packedEarly, hstep, Option.map_some]
  have hle : ∀ s, su.OomphPassed v steps eager start s →
      su.passProgress v steps (su.packedEarly v steps s) ≤ su.passBound steps := by
    intro s h
    have hpassed := OomphPassed.passed h
    exact passProgress_le (Passed.inStep hsep hind hpassed) hpassed
  exact exists_stuck _ hlt hle (Reachable.initial rfl)

/-- The versions of `exchange` without MPI datatypes suit all halos. -/
theorem pathSuits_oomph (packZ manyBuffers : Bool) :
    su.PathSuits (Variant.oomph packZ manyBuffers).path := by
  intro hpath
  cases packZ <;> cases hpath

end Setup

/-- With oomph, `step` makes the same runs as with MPI: it takes the same sequences of calls, deliveries,
readings and writings to states that only differ in what has been packed. Hence, if the domains are at least as
large as their halos, and with one thread per rank or at most as many fields as threads, no run goes on for
ever, at the end of a run all threads have completed all steps, and the fields of a thread that has completed a
step and not begun the next one have everywhere the values that the owners of the cells had at the start. -/
theorem oomph_fills_halos {V : Type*} (su : Setup) (packZ manyBuffers : Bool) (steps : ℕ)
    (eager : Op → Bool) (start : ℕ × ℕ → Memory V) :
    let v := Variant.oomph packZ manyBuffers
    (∀ actions, runActions (su.pass v steps eager) (PassingState.init start) actions =
      (runActions (su.oomphPass v steps eager) (PassingState.init start) actions).map
        (su.packedEarly v steps)) ∧
    (su.Fitting → (su.cfg.numThreads = 1 ∨ su.numFields ≤ su.cfg.numThreads) →
      (∀ actions s, runActions (su.oomphPass v steps eager) (PassingState.init start) actions = some s →
        actions.length ≤ su.passBound steps) ∧
      (∃ s, su.OomphPassed v steps eager start s ∧ ∀ a, su.oomphPass v steps eager s a = none) ∧
      ∀ s, su.OomphPassed v steps eager start s →
        ((∀ a, su.oomphPass v steps eager s a = none) →
          ∀ q, su.InRange q → s.exchange.cursors q = ⟨su.numPhases steps, .recv true⟩) ∧
        ∀ q, su.InRange q → ∀ k, s.exchange.cursors q = ⟨su.numPhases (k + 1), .recv true⟩ →
          ∀ f < su.numFields, ∀ c, InBox (su.neighborhood q).extBuffer c →
            su.OwnerValue (fun q => (start q).fields f) q c
              ((s.mem q).fields f (index (su.neighborhood q).extBuffer c))) := by
  intro v
  have hpass (s : PassingState V) (a : PassingAction) :
      su.pass v steps eager (su.packedEarly v steps s) a =
        (su.oomphPass v steps eager s a).map (su.packedEarly v steps) := Setup.pass_packedEarly s a
  have hruns (actions : List PassingAction) :=
    runActions_map (su.packedEarly v steps) hpass (PassingState.init start) actions
  refine ⟨hruns, fun w hkeys => ?_⟩
  have hsep := Setup.separate_of_keys hkeys
  have hpath : su.PathSuits v.path := Setup.pathSuits_oomph packZ manyBuffers
  have hind := w.stepping_independent (V := V) (v := v) hpath steps
  obtain ⟨hbound, -, hends⟩ := Setup.passing_ends hsep hind eager start
  refine ⟨fun actions s hrun => ?_, Setup.exists_oomph_stuck hsep hind eager start,
    fun s h => ⟨fun hstuck => ?_, fun q hq k hk f hf c hc => ?_⟩⟩
  · apply hbound actions (su.packedEarly v steps s)
    rw [← su.packedEarly_init, hruns, hrun, Option.map_some]
  · exact hends (su.packedEarly v steps s) h.passed (Setup.pass_eq_none hstuck)
  · have hmem : (su.packedEarly v steps s).mem q = s.mem q := by
      simp only [Setup.packedEarly, hk]
      rfl
    rw [← hmem]
    exact w.ownerValue_of_step hpath hsep h.passed hq hk hf hc

/-- With oomph and shared buffers, after two steps the first corner of thread 0 of rank 0 comes from the
last cell of thread 1 of rank 1. -/
theorem oomph_fills_halos_corner : ∃ s, twoRanksSetup.OomphPassed ⟨.packedZ, false⟩ 2 (fun _ => false)
    labelled s ∧ (s.mem (0, 0)).fields 1 0 = 11130 := by
  obtain ⟨-, hends⟩ := oomph_fills_halos twoRanksSetup true false 2 (fun _ => false) labelled
  obtain ⟨-, ⟨s, hs, hstuck⟩, hfilled⟩ := hends twoRanksSetup_fitting (Or.inr le_rfl)
  obtain ⟨hends, hvalues⟩ := hfilled s hs
  refine ⟨s, hs, ?_⟩
  exact ownerValue_corner (hvalues (0, 0) (by decide) 1 (hends hstuck (0, 0) (by decide)) 1 (by decide)
    ![0, 0, 0] (by decide))

end Ghexbench.Cartex
