import Ghexbench.Cartex.Check
import Ghexbench.Cartex.HaloExchange
import Ghexbench.Cartex.PassingEnds

/-!
# The messages fill the halos

The data that the matched messages carry is that of the halo exchange, step after step. A field that has
gone through a step has the right values in its whole extended buffer, and goes on having them at the end
of every later step. Hence `check` finds no error after any step, at a thread that has completed it, however
far the other threads have come.
-/

namespace Ghexbench.Cartex

open Ghexbench.Common

namespace Neighborhood

variable {V : Type*} {nb : Neighborhood}

/-- The phases with the buffers of a slot exchange the blocks. -/
theorem Built.buffered_exchanges (b : nb.Built) (slot fieldId : ℕ) (dim : Fin 3) :
    Exchanges nb fieldId dim (nb.bufferedPhase (V := V) slot fieldId dim) where
  outgoing_prepare left m := by
    obtain ⟨hfalse, htrue⟩ := contents_pack (m.fields fieldId)
      (m.sendBuffers slot (bufferOf dim false)) (m.sendBuffers slot (bufferOf dim true)) nb dim
    simp only [bufferedPhase, Memory.setSend, readRange, Nat.zero_add, b.bufferSize_eq, ← packed_size]
    cases left with
    | false => simp [bufferOf_ne, hfalse]
    | true => simp [htrue]
  field l r m hl hr := by
    simp only [bufferedPhase, Memory.setField, Memory.setRecv, Memory.setSend, b.unpack_eq,
      b.bufferSize_eq]
    simp [bufferOf_ne, (bufferOf_ne dim).symm, contents_writeRange, hl, hr]
    rw [Block.write_comm (nb.recvType_disjoint dim)]
  others l r m f hf := by
    simp [bufferedPhase, Memory.setField, Memory.setRecv, Memory.setSend, hf]
  outgoing_incoming left left' data m := rfl
  incoming_comm l r m := by
    simp [bufferedPhase, Memory.setRecv, bufferOf_ne, (bufferOf_ne dim).symm]
    rw [Function.update_comm (bufferOf_ne dim)]

/-- With any buffers all versions exchange the same blocks, the one with MPI datatypes if both halos of
each dimension have the same width. -/
theorem Fitting.slot_exchanges (w : nb.Fitting) {path : Path}
    (hpath : path = .datatypes → haloLeft nb.halos = haloRight nb.halos) (slot fieldId : ℕ)
    (dim : Fin 3) : Exchanges nb fieldId dim (nb.slotPhase (V := V) path slot fieldId dim) := by
  cases path with
  | datatypes => exact w.exchanges hpath fieldId dim
  | packedZ => exact w.buffered_exchanges slot fieldId dim
  | packed =>
    fin_cases dim
    · exact w.buffered_exchanges slot fieldId 0
    · exact w.buffered_exchanges slot fieldId 1
    · exact w.exchanges hpath fieldId 2

end Neighborhood

namespace Setup

variable {su : Setup} {V : Type*} {v : Variant} {steps : ℕ} {q : ℕ × ℕ}

section Phases

/-- The phases of `step` exchange the blocks of a dimension of a field. -/
theorem Fitting.stepping_exchanges (w : su.Fitting) (hpath : su.PathSuits v.path) (steps : ℕ)
    (hq : su.InRange q) (p : ℕ) : Neighborhood.Exchanges (su.neighborhood q) (p / 3 % su.numFields) (phaseDim p)
      ((su.stepping V v steps).phase p q) :=
  (w.neighborhood hq).slot_exchanges hpath _ _ _

/-- Messages are read from places where no message arrives. -/
theorem Fitting.stepping_independent (w : su.Fitting) (hpath : su.PathSuits v.path) (steps : ℕ) :
    (su.stepping V v steps).Independent where
  outgoing_incoming p _ hq :=
    (w.stepping_exchanges hpath steps (mem_stepping_members.mp hq) p).outgoing_incoming
  incoming_comm p _ hq :=
    (w.stepping_exchanges hpath steps (mem_stepping_members.mp hq) p).incoming_comm
  source_mem p _ hq left := mem_threads.mpr (source_inRange (mem_threads.mp hq) (phaseDim p) left)

/-- A phase is a round for its field and leaves the other fields alone. -/
theorem Fitting.stepping_round (w : su.Fitting) (hpath : su.PathSuits v.path) (hq : su.InRange q)
    (mem : ℕ × ℕ → Memory V) (p f : ℕ) : ((su.stepping V v steps).round p mem q).fields f =
      if f = p / 3 % su.numFields then
        su.haloRound (phaseDim p) (fun q => (mem q).fields f) q
      else (mem q).fields f := by
  have hphase := w.stepping_exchanges (V := V) hpath steps hq p
  set field := fun q => (mem q).fields (p / 3 % su.numFields) with hfield
  have hmessage (left : Bool) :
      (su.stepping V v steps).message p mem ((su.stepping V v steps).source p q left) left =
        su.blockFrom (phaseDim p) field q left :=
    (w.stepping_exchanges hpath steps (source_inRange hq (phaseDim p) left) p).outgoing_prepare left _
  have hlength (left : Bool) : (su.blockFrom (phaseDim p) field q left).length =
      volume ((su.neighborhood q).recvType (phaseDim p) left).size := by
    rw [blockFrom, Block.length_read, packed_source_size hq]
  simp only [Staged.round, Staged.receive, if_true, hmessage]
  split
  · next hf =>
    subst hf
    exact hphase.field _ _ _ (hlength true) (hlength false)
  · next hf => exact hphase.others _ _ _ f hf

end Phases

section Levels

variable {field field' : ℕ × ℕ → ℕ → V}

/-- The cells of a field that are inside the domain from a dimension on have the values that their
owners had at the start. -/
def FilledFrom (su : Setup) (field field' : ℕ × ℕ → ℕ → V) (k : ℕ) : Prop :=
  ∀ q, su.InRange q → ∀ c, InBox (su.neighborhood q).extBuffer c → su.InsideFrom q k c →
    su.OwnerValue field q c (field' q (index (su.neighborhood q).extBuffer c))

/-- At the start the interiors have their own values. -/
theorem filledFrom_zero (field : ℕ × ℕ → ℕ → V) : su.FilledFrom field field 0 :=
  fun _ hq _ _ hin => ownerValue_inner hq hin

/-- What is filled further is filled. -/
theorem FilledFrom.mono {k k' : ℕ} (h : su.FilledFrom field field' k') (hle : k ≤ k') :
    su.FilledFrom field field' k :=
  fun q hq c hc hin => h q hq c hc fun d hd => hin d (hle.trans hd)

/-- The round of a dimension fills the halo of this dimension. -/
theorem Fitting.filledFrom_haloRound (w : su.Fitting) {dim : Fin 3}
    (h : su.FilledFrom field field' dim.val) :
    su.FilledFrom field (su.haloRound dim field') (dim.val + 1) :=
  fun _ hq _ hc hin => w.ownerValue_haloRound h hq hc hin

/-- How many dimensions of a field are filled after some phases: while the field is exchanged, those
that have been exchanged in this step; otherwise all, if the field has been exchanged at all. -/
def level (numFields p f : ℕ) : ℕ :=
  if p / 3 % numFields = f ∧ p % 3 ≠ 0 then p % 3 else if 3 * (f + 1) ≤ p then 3 else 0

/-- Before a phase the dimensions of the earlier phases are filled, for the field that is exchanged. -/
theorem mod_le_level {numFields p f : ℕ} (hf : p / 3 % numFields = f) :
    p % 3 ≤ level numFields p f := by
  unfold level
  split
  · exact le_rfl
  · omega

/-- A phase fills one more dimension of its field. -/
theorem level_succ_le {numFields p f : ℕ} (hf : p / 3 % numFields = f) :
    level numFields (p + 1) f ≤ p % 3 + 1 := by
  unfold level
  split
  · omega
  · next hnot =>
    split
    · -- the last dimension, or the field would be exchanged further
      by_cases hlast : p % 3 = 2
      · omega
      · have hsame : (p + 1) / 3 = p / 3 := by omega
        rw [hsame] at hnot
        omega
    · omega

/-- A phase of another field fills nothing. -/
theorem level_succ_other {numFields p f : ℕ} (hf : f < numFields) (hne : p / 3 % numFields ≠ f) :
    level numFields (p + 1) f ≤ level numFields p f := by
  unfold level
  split
  · next hthis =>
    have hsame : (p + 1) / 3 = p / 3 := by omega
    exact absurd (hsame ▸ hthis.1) hne
  · have hnot : ¬ (p / 3 % numFields = f ∧ p % 3 ≠ 0) := fun h => hne h.1
    rw [if_neg hnot]
    split
    · next hle =>
      -- the field is not completed by this phase
      have hbefore : 3 * (f + 1) ≠ p + 1 := by
        intro heq
        have hdiv : p / 3 = f := by omega
        exact hne (by rw [hdiv, Nat.mod_eq_of_lt hf])
      rw [if_pos (by omega)]
    · exact Nat.zero_le _

/-- What is filled after some phases in lockstep. -/
theorem Fitting.filledFrom_after (w : su.Fitting) (hpath : su.PathSuits v.path) (steps : ℕ)
    (start : ℕ × ℕ → Memory V) (p : ℕ) {f : ℕ} (hf : f < su.numFields) : su.FilledFrom (fun q => (start q).fields f)
      (fun q => ((su.stepping V v steps).after start p q).fields f) (level su.numFields p f) := by
  induction p with
  | zero =>
    have hlevel : level su.numFields 0 f = 0 := by simp [level]
    rw [hlevel]
    exact filledFrom_zero _
  | succ p ih =>
    intro q hq c hc hin
    simp only [Staged.after, w.stepping_round hpath hq]
    split
    · next hthis =>
      have hbefore : su.FilledFrom (fun q => (start q).fields f)
          (fun q => ((su.stepping V v steps).after start p q).fields f) (phaseDim p).val :=
        ih.mono (mod_le_level hthis.symm)
      exact (w.filledFrom_haloRound hbefore).mono (level_succ_le hthis.symm) q hq c hc hin
    · next hother => exact ih.mono (level_succ_other hf (Ne.symm hother)) q hq c hc hin

/-- After a number of steps, one at least, all dimensions are filled. -/
theorem level_step {numFields f : ℕ} (hf : f < numFields) (k : ℕ) :
    level numFields ((k + 1) * numFields * 3) f = 3 := by
  have hmod : (k + 1) * numFields * 3 % 3 = 0 := Nat.mul_mod_left _ 3
  have hle : numFields ≤ (k + 1) * numFields := Nat.le_mul_of_pos_left _ (Nat.succ_pos k)
  unfold level
  rw [if_neg fun h => h.2 hmod, if_pos (by omega)]

end Levels

section Runs

variable {start : ℕ × ℕ → Memory V} {s : PassingState V} {eager : Op → Bool}

/-- A thread that has completed a step and not begun the next one has the right values in the extended
buffers of all fields. -/
theorem Fitting.ownerValue_of_step (w : su.Fitting) (hpath : su.PathSuits v.path)
    (hsep : su.Separate) (h : su.Passed v steps eager start s) (hq : su.InRange q) {k : ℕ}
    (hk : s.exchange.cursors q = ⟨su.numPhases (k + 1), .recv true⟩) {f : ℕ} (hf : f < su.numFields)
    {c : Arr ℕ} (hc : InBox (su.neighborhood q).extBuffer c) :
    su.OwnerValue (fun q => (start q).fields f) q c
      ((s.mem q).fields f (index (su.neighborhood q).extBuffer c)) := by
  have hinv := Passed.inStep hsep (w.stepping_independent hpath steps) h
  have hclosed : (su.staged s).isOpen q = false := by simp [staged, hk]
  have hdone : (su.staged s).done q = su.numPhases (k + 1) := congrArg Cursor.phase hk
  have hmem : s.mem q = (su.stepping V v steps).after start (su.numPhases (k + 1)) q :=
    hdone ▸ hinv.mem_closed q (mem_threads.mpr hq) hclosed
  have hfilled := w.filledFrom_after hpath steps start (su.numPhases (k + 1)) hf
  rw [numPhases, level_step hf] at hfilled
  rw [hmem]
  exact hfilled q hq c hc fun d hd => absurd d.isLt (not_lt.mpr hd)

/-- With one thread per rank, or at most as many fields as threads, the keys separate the threads. -/
theorem separate_of_keys (h : su.cfg.numThreads = 1 ∨ su.numFields ≤ su.cfg.numThreads) :
    su.Separate := h.elim separate_of_single separate_of_le

end Runs

end Setup

/-- The messages of `step` fill the halos. With one thread per rank, or at most as many fields as
threads, no run goes on for ever, and at the end of a run all threads have completed all steps. Whenever
a thread has completed a step and not begun the next one, its fields have everywhere the values that the
owners of the cells had at the start. -/
theorem passing_fills_halos {V : Type*} (su : Setup) (v : Variant) (steps : ℕ) (eager : Op → Bool)
    (start : ℕ × ℕ → Memory V) (w : su.Fitting) (hpath : su.PathSuits v.path)
    (hkeys : su.cfg.numThreads = 1 ∨ su.numFields ≤ su.cfg.numThreads) :
    (∀ actions s, runActions (su.pass v steps eager) (PassingState.init start) actions = some s →
      actions.length ≤ su.passBound steps) ∧
    (∃ s, su.Passed v steps eager start s ∧ ∀ a, su.pass v steps eager s a = none) ∧
    ∀ s, su.Passed v steps eager start s →
      ((∀ a, su.pass v steps eager s a = none) →
        ∀ q, su.InRange q → s.exchange.cursors q = ⟨su.numPhases steps, .recv true⟩) ∧
      ∀ q, su.InRange q → ∀ k, s.exchange.cursors q = ⟨su.numPhases (k + 1), .recv true⟩ →
        ∀ f < su.numFields, ∀ c, InBox (su.neighborhood q).extBuffer c →
          su.OwnerValue (fun q => (start q).fields f) q c
            ((s.mem q).fields f (index (su.neighborhood q).extBuffer c)) := by
  have hsep := Setup.separate_of_keys hkeys
  obtain ⟨hbound, hexists, hends⟩ :=
    Setup.passing_ends hsep (w.stepping_independent (V := V) hpath steps) eager start
  refine ⟨hbound, hexists, fun s h => ⟨hends s h, ?_⟩⟩
  intro q hq k hk f hf c hc
  exact w.ownerValue_of_step hpath hsep h hq hk hf hc

/-- The domains of two ranks of two threads are as large as their halos. -/
theorem twoRanksSetup_fitting : twoRanksSetup.Fitting := by
  have u : twoRanksSetup.Uniform 1 := ⟨le_rfl, fun _ => rfl, twoRanksSetup_ext⟩
  exact u.fitting

/-- The first corner of thread 0 of rank 0 is the last cell of thread 1 of rank 1. -/
theorem ownerValue_corner {value : ℕ}
    (h : twoRanksSetup.OwnerValue (fun q => (labelled q).fields 1) (0, 0) ![0, 0, 0] value) :
    value = 11130 := by
  obtain ⟨⟨r, t⟩, hq, hcontains, hvalue⟩ := h
  have hr : r < 2 := hq.1
  have ht : t < 2 := hq.2
  unfold Domain.Contains at hcontains
  apply Eq.trans hvalue _
  interval_cases r <;> interval_cases t
  · exact absurd hcontains (by decide)
  · exact absurd hcontains (by decide)
  · exact absurd hcontains (by decide)
  · rfl

/-- After two steps with shared buffers the first corner of thread 0 of rank 0 still comes from the
last cell of thread 1 of rank 1. -/
theorem passing_fills_halos_corner : ∃ s, twoRanksSetup.Passed ⟨.packed, false⟩ 2 (fun _ => false)
    labelled s ∧ (s.mem (0, 0)).fields 1 0 = 11130 := by
  obtain ⟨_, ⟨s, hs, hstuck⟩, hfilled⟩ :=
    passing_fills_halos twoRanksSetup ⟨.packed, false⟩ 2 (fun _ => false) labelled
      twoRanksSetup_fitting (fun h => Path.noConfusion h) (Or.inr le_rfl)
  obtain ⟨hends, hvalues⟩ := hfilled s hs
  refine ⟨s, hs, ?_⟩
  exact ownerValue_corner (hvalues (0, 0) (by decide) 1 (hends hstuck (0, 0) (by decide)) 1 (by decide)
    ![0, 0, 0] (by decide))

/-- The memory of a thread after `init`: the contents of `make_fields`, and buffers of zeros. -/
def Setup.initMemory (su : Setup) (q : ℕ × ℕ) : Memory ℤ where
  fields := su.makeField q
  sendBuffers _ _ _ := 0
  recvBuffers _ _ _ := 0

/-- `check` never fails after `step`: whenever a thread has completed a step and not begun the next one,
it finds the expected values in its fields, wherever the other threads are. -/
theorem check_passes (su : Setup) (v : Variant) (steps : ℕ) (eager : Op → Bool) (w : su.Fitting)
    (hpath : su.PathSuits v.path)
    (hkeys : su.cfg.numThreads = 1 ∨ su.numFields ≤ su.cfg.numThreads) (s : PassingState ℤ)
    (h : su.Passed v steps eager su.initMemory s) (q : ℕ × ℕ) (hq : su.InRange q) (k : ℕ)
    (hk : s.exchange.cursors q = ⟨su.numPhases (k + 1), .recv true⟩) :
    su.check q (s.mem q).fields = true := by
  rw [w.check_iff hq]
  intro i hi c hc
  exact w.ownerValue_of_step hpath (Setup.separate_of_keys hkeys) h hq hk hi hc

/-- The check of the last thread of two ranks of two threads, after the second of two steps. -/
theorem check_passes_twoRanks : ∃ s, twoRanksSetup.Passed ⟨.datatypes, true⟩ 2 (fun _ => true)
    twoRanksSetup.initMemory s ∧ twoRanksSetup.check (1, 1) (s.mem (1, 1)).fields = true := by
  have hpath : twoRanksSetup.PathSuits .datatypes := fun _ => rfl
  have hind := twoRanksSetup_fitting.stepping_independent (V := ℤ) (v := ⟨.datatypes, true⟩) hpath 2
  obtain ⟨_, ⟨s, hs, hstuck⟩, hends⟩ := Setup.passing_ends (Setup.separate_of_keys (Or.inr le_rfl)) hind
    (fun _ => true) twoRanksSetup.initMemory
  refine ⟨s, hs, ?_⟩
  exact check_passes twoRanksSetup ⟨.datatypes, true⟩ 2 (fun _ => true) twoRanksSetup_fitting hpath
    (Or.inr le_rfl) s hs (1, 1) (by decide) 1 (hends s hs hstuck (1, 1) (by decide))

end Ghexbench.Cartex
