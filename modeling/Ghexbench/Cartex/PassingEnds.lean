import Ghexbench.Cartex.PassingRefines

/-!
# Every run of the exchange comes to an end

Each call of a thread, each delivery, and each reading and writing of a message brings the system forward,
and there is a bound on how far it can come. Where nothing can be done any more, the contents of all
messages of the current phases have been read and written, so that no thread waits in `MPI_Waitall` for
anything but the network, and the network has nothing left to deliver: all threads are done.
-/

namespace Ghexbench.Cartex

open Ghexbench.Common

/-- The calls that a thread has made. -/
def Cursor.calls (c : Cursor) : ℕ :=
  5 * c.phase + match c.stage with
    | .recv true => 0
    | .recv false => 1
    | .send true => 2
    | .send false => 3
    | .waitall => 4

/-- The sends before the count of a cursor have been posted. -/
theorem Cursor.sent_of_lt {c : Cursor} {left : Bool}
    (h : 2 * c.phase + (if left then 0 else 1) < c.sendCount) : c.stage.sent left = true := by
  unfold Cursor.sendCount at h
  cases hstage : c.stage with
  | recv side => simp only [hstage] at h; omega
  | waitall => rfl
  | send side =>
    cases side <;> cases left <;> simp [hstage, Stage.sent] at h ⊢

namespace Setup

variable {V : Type*} {su : Setup} {v : Variant} {steps : ℕ} {eager : Op → Bool}
  {start : ℕ × ℕ → Memory V} {s t : PassingState V}

section Progress

/-- Where nothing can be read any more, the messages that have been posted have been read. -/
theorem read_of_stuck (hinv : (su.stepping V v steps).InStep start (su.staged s))
    (hstuck : ∀ a, su.pass v steps eager s a = none) {u : ℕ × ℕ} (hu : su.InRange u) {p : ℕ}
    {left : Bool} (hsent : 2 * p + (if left then 0 else 1) < (s.exchange.cursors u).sendCount) :
    (s.contents (su.op u p left)).isSome := by
  rcases Nat.lt_trichotomy p (s.exchange.cursors u).phase with hlt | rfl | hgt
  · exact hinv.sent u (mem_stepping_members.mpr hu) p hlt left
  · by_contra hunread
    have hnone := hstuck (.read u left)
    simp only [pass, passWith] at hnone
    rw [if_pos ⟨hu, Cursor.sent_of_lt hsent, Option.isNone_iff_eq_none.mpr
      (Option.not_isSome_iff_eq_none.mp hunread)⟩] at hnone
    cases hnone
  · -- a thread posts no sends of later phases
    unfold Cursor.sendCount at hsent
    cases hstage : (s.exchange.cursors u).stage with
    | recv side => simp only [hstage] at hsent; omega
    | waitall => simp only [hstage] at hsent; omega
    | send side => cases side <;> simp only [hstage] at hsent <;> omega

/-- Where nothing can be written any more, the receives that are matched have been written. -/
theorem landed_of_stuck (hinv : (su.stepping V v steps).InStep start (su.staged s))
    (hordered : su.Ordered s.exchange) (hstuck : ∀ a, su.pass v steps eager s a = none) {q : ℕ × ℕ}
    {left : Bool} (hdone : s.exchange.recvDone (su.op q (s.exchange.cursors q).phase left) = true) :
    s.landed (su.op q (s.exchange.cursors q).phase left) = true := by
  obtain ⟨sent, received, hposted⟩ := hordered
  by_contra hnot
  have hnone := hstuck (.land q left)
  simp only [pass, passWith] at hnone
  rw [if_pos (eq_false_of_ne_true hnot)] at hnone
  cases hfind : s.exchange.net.matched.find? fun p =>
      p.1 = su.op q (s.exchange.cursors q).phase left with
  | none =>
    obtain ⟨p, hp, hr⟩ := List.any_eq_true.mp hdone
    exact absurd hr (List.find?_eq_none.mp hfind p hp)
  | some p =>
    obtain ⟨r, m⟩ := p
    have hr := List.find?_some hfind
    have hmem := List.mem_of_find?_eq_some hfind
    simp only [decide_eq_true_eq] at hr
    subst hr
    obtain ⟨hq, -, rfl⟩ := hposted.matched_current hmem
    have hsent := (Posted.mem_log_iff hposted.sends).mp (hposted.posted_of_matched hmem).2
    have hread := read_of_stuck hinv hstuck (source_inRange hq _ left) hsent
    obtain ⟨data, hdata⟩ := Option.isSome_iff_exists.mp hread
    rw [hfind, Option.bind_some, hdata] at hnone
    cases hnone

/-- Where nothing can be done any more, the exchange protocol cannot go on either. -/
theorem next_of_stuck (hinv : (su.stepping V v steps).InStep start (su.staged s))
    (hordered : su.Ordered s.exchange) (hstuck : ∀ a, su.pass v steps eager s a = none)
    (a : ExchangeAction) : su.next steps eager s.exchange a = none := by
  by_contra hsome
  obtain ⟨e, he⟩ := Option.ne_none_iff_exists'.mp hsome
  cases a with
  | deliver sender key =>
    have hnone := hstuck (.deliver sender key)
    simp only [pass, passWith, he, Option.map_some, reduceCtorEq] at hnone
  | run q =>
    have hnone := hstuck (.call q)
    simp only [pass, passWith, he, Option.map_some] at hnone
    split at hnone
    · cases hnone
    · next hwait =>
      apply hwait
      intro hstage left
      have hq : su.InRange q := by
        by_contra hnot
        simp only [next, hnot, false_and, if_false, reduceCtorEq] at he
      cases moves_of_next he with
      | recv _ _ hother => rw [hstage] at hother; cases hother
      | send _ _ hother => rw [hstage] at hother; cases hother
      | waitall _ hdone =>
        refine ⟨landed_of_stuck hinv hordered hstuck (hdone left).1, ?_⟩
        apply read_of_stuck hinv hstuck hq
        simp only [Cursor.sendCount, hstage]
        split <;> omega

end Progress

section Measure

/-- The sends that have been posted, of all threads. -/
def sends (su : Setup) (e : ExchangeState) : ℕ :=
  ∑ q ∈ Finset.range su.cfg.numRanks ×ˢ Finset.range su.cfg.numThreads, (e.cursors q).sendCount

/-- The calls that have been made, of all threads. -/
def calls (su : Setup) (e : ExchangeState) : ℕ :=
  ∑ q ∈ Finset.range su.cfg.numRanks ×ˢ Finset.range su.cfg.numThreads, (e.cursors q).calls

/-- One thread moves. -/
theorem sum_move {members : Finset (ℕ × ℕ)} {q : ℕ × ℕ} (hq : q ∈ members) (e : ExchangeState)
    (net : Network Op Op) {f : Cursor → ℕ} {c : Cursor} {d : ℕ} (hc : f c = f (e.cursors q) + d) :
    ∑ q' ∈ members, f ((e.move q c net).cursors q') = ∑ q' ∈ members, f (e.cursors q') + d := by
  have hothers : ∑ q' ∈ members.erase q, f ((e.move q c net).cursors q') =
      ∑ q' ∈ members.erase q, f (e.cursors q') := by
    apply Finset.sum_congr rfl
    intro q' hq'
    rw [move_cursors, if_neg (Finset.ne_of_mem_erase hq')]
  rw [← Finset.add_sum_erase _ _ hq, ← Finset.add_sum_erase _ _ hq, hothers, move_cursors, if_pos rfl,
    hc]
  omega

/-- A thread makes a call, and posts a send or not. -/
theorem counts_move {q : ℕ × ℕ} (hq : su.InRange q) (e : ExchangeState) (net : Network Op Op)
    {c : Cursor} {d : ℕ} (hsends : c.sendCount = (e.cursors q).sendCount + d)
    (hcalls : c.calls = (e.cursors q).calls + 1) :
    su.sends (e.move q c net) = su.sends e + d ∧ su.calls (e.move q c net) = su.calls e + 1 :=
  ⟨sum_move (mem_threads.mpr hq) e net hsends, sum_move (mem_threads.mpr hq) e net hcalls⟩

/-- What a step of the protocol does to the counts: every message is one of the sends, every step is a
call or a delivery. -/
theorem counts_of_next {e e' : ExchangeState} {a : ExchangeAction}
    (hnext : su.next steps eager e a = some e') (hsize : e.net.size = su.sends e) :
    e'.net.size = su.sends e' ∧ su.calls e + e.net.settled < su.calls e' + e'.net.settled := by
  cases moves_of_next hnext with
  | deliver hnet =>
    obtain ⟨hsame, hlt⟩ := Network.size_deliver hnet
    exact ⟨hsame.trans hsize, Nat.add_lt_add_left hlt _⟩
  | @recv q left hq hphase hstage =>
    obtain ⟨hsame, hle⟩ := Network.size_postRecv su.labels e.net (su.op q (e.cursors q).phase left)
    obtain ⟨hsends, hcalls⟩ := counts_move hq e
      (e.net.postRecv su.labels (su.op q (e.cursors q).phase left))
      (c := ⟨(e.cursors q).phase, if left then .recv false else .send true⟩) (d := 0)
      (by cases left <;> simp [Cursor.sendCount, hstage])
      (by cases left <;> simp [Cursor.calls, hstage])
    refine ⟨(hsame.trans hsize).trans hsends.symm, ?_⟩
    rw [hcalls]
    change _ < _ + (e.net.postRecv su.labels _).settled
    omega
  | @send q left hq hphase hstage =>
    have hsame := Network.size_postSend e.net (su.op q (e.cursors q).phase left)
    obtain ⟨hsends, hcalls⟩ := counts_move hq e (e.net.postSend (su.op q (e.cursors q).phase left))
      (c := ⟨(e.cursors q).phase, if left then .send false else .waitall⟩) (d := 1)
      (by cases left <;> simp [Cursor.sendCount, hstage])
      (by cases left <;> simp [Cursor.calls, hstage])
    rw [hsends, hcalls]
    refine ⟨hsame.trans (congrArg (· + 1) hsize), ?_⟩
    change _ < _ + e.net.settled
    omega
  | @waitall q hstage hdone =>
    have hq : su.InRange q := by
      by_contra hnot
      simp only [next, hnot, false_and, if_false, reduceCtorEq] at hnext
    obtain ⟨hsends, hcalls⟩ := counts_move hq e e.net
      (c := ⟨(e.cursors q).phase + 1, .recv true⟩) (d := 0)
      (by simp only [Cursor.sendCount, hstage]; omega)
      (by simp only [Cursor.calls, hstage]; omega)
    rw [hsends, hcalls]
    refine ⟨hsize, ?_⟩
    change _ < _ + e.net.settled
    omega

/-- The messages of the network are the sends that have been posted. -/
theorem Passed.size_eq (h : su.Passed v steps eager start s) :
    s.exchange.net.size = su.sends s.exchange := by
  have hinv (e : ExchangeState) (he : su.Reached steps eager e) : e.net.size = su.sends e := by
    apply Reachable.invariant _ _ he
    · intro e₀ he₀
      subst he₀
      simp [sends, ExchangeState.init, Cursor.start, Cursor.sendCount, Network.size, Network.empty]
    · rintro e e' hsize ⟨a, hnext⟩
      exact (counts_of_next hnext hsize).1
  exact hinv s.exchange (Passed.exchange h)

/-- How far the system has come. -/
def passProgress (su : Setup) (v : Variant) (steps : ℕ) (s : PassingState V) : ℕ :=
  (su.stepping V v steps).work (su.staged s) + (su.calls s.exchange + s.exchange.net.settled)

/-- Every step brings the system forward. -/
theorem passProgress_lt (hsep : su.Separate) (h : su.Passed v steps eager start s)
    {a : PassingAction} (hstep : su.pass v steps eager s a = some t) :
    su.passProgress v steps s < su.passProgress v steps t := by
  have hordered := Reached.ordered hsep (Passed.exchange h)
  have hsize := Passed.size_eq h
  have hwork : (su.stepping V v steps).work (su.staged s) ≤
      (su.stepping V v steps).work (su.staged t) := by
    cases staged_step hordered hstep with
    | inl hmove =>
      obtain ⟨a', hmove⟩ := hmove
      exact (Staged.work_lt_of_next hmove).le
    | inr hsame => rw [hsame]
  unfold passProgress
  cases passes_of_pass hstep with
  | deliver hnext =>
    have hlt := (counts_of_next hnext hsize).2
    exact Nat.add_lt_add_of_le_of_lt hwork hlt
  | call hwait hnext =>
    have hlt := (counts_of_next hnext hsize).2
    exact Nat.add_lt_add_of_le_of_lt hwork hlt
  | @read q left hq hsent hnone =>
    apply Nat.add_lt_add_right
    cases staged_step hordered hstep with
    | inl hmove =>
      obtain ⟨a', hmove⟩ := hmove
      exact Staged.work_lt_of_next hmove
    | inr hsame =>
      have hmessage := congrFun (congrFun (congrFun (congrArg StagedState.messages hsame) q)
        (s.exchange.cursors q).phase) left
      simp [Setup.staged, hnone] at hmessage
  | @land q left m data hnot hmatch hdata =>
    apply Nat.add_lt_add_right
    cases staged_step hordered hstep with
    | inl hmove =>
      obtain ⟨a', hmove⟩ := hmove
      exact Staged.work_lt_of_next hmove
    | inr hsame =>
      have harrived := congrFun (congrFun (congrFun (congrArg StagedState.arrived hsame) q)
        (s.exchange.cursors q).phase) left
      simp [Setup.staged, hnot] at harrived

/-- A bound on how far the system can come. -/
def passBound (su : Setup) (steps : ℕ) : ℕ :=
  su.cfg.numRanks * su.cfg.numThreads * (15 * su.numPhases steps + 15)

/-- The system comes only so far. -/
theorem passProgress_le (hinv : (su.stepping V v steps).InStep start (su.staged s))
    (h : su.Passed v steps eager start s) : su.passProgress v steps s ≤ su.passBound steps := by
  have hcard : (su.stepping V v steps).members.card = su.cfg.numRanks * su.cfg.numThreads := by
    rw [stepping, Finset.card_product, Finset.card_range, Finset.card_range]
  have hwork : (su.stepping V v steps).work (su.staged s) ≤
      (su.stepping V v steps).members.card * (6 * su.numPhases steps + 5) := hinv.work_le
  have hphase (q : ℕ × ℕ) : (s.exchange.cursors q).phase ≤ su.numPhases steps := hinv.done_le q
  have hcalls : su.calls s.exchange ≤
      (su.stepping V v steps).members.card * (5 * su.numPhases steps + 4) := by
    apply Finset.sum_le_card_nsmul
    intro q _
    have hle := hphase q
    unfold Cursor.calls
    cases hstage : (s.exchange.cursors q).stage with
    | waitall => simp only; omega
    | recv left => cases left <;> simp only <;> omega
    | send left => cases left <;> simp only <;> omega
  have hsends : su.sends s.exchange ≤
      (su.stepping V v steps).members.card * (2 * su.numPhases steps + 2) := by
    apply Finset.sum_le_card_nsmul
    intro q _
    have hle := hphase q
    unfold Cursor.sendCount
    cases hstage : (s.exchange.cursors q).stage with
    | waitall => simp only; omega
    | recv left => simp only; omega
    | send left => cases left <;> simp only <;> omega
  have hsettled : s.exchange.net.settled ≤ 2 * su.sends s.exchange := by
    have hsize := Passed.size_eq h
    unfold Network.size at hsize
    unfold Network.settled
    omega
  rw [passProgress, passBound, ← hcard]
  generalize (su.stepping V v steps).members.card = n at hwork hcalls hsends ⊢
  nlinarith

end Measure

section Ends

/-- The states of a run are in step with the staged exchange. -/
theorem Passed.inStep (hsep : su.Separate) (hind : (su.stepping V v steps).Independent)
    (h : su.Passed v steps eager start s) : (su.stepping V v steps).InStep start (su.staged s) :=
  Staged.Reached.inStep hind (Passed.staged hsep h)

/-- No run goes on for ever, there are runs that come to their end, and at the end of a run all threads
have completed all phases. -/
theorem passing_ends (hsep : su.Separate) (hind : (su.stepping V v steps).Independent)
    (eager : Op → Bool) (start : ℕ × ℕ → Memory V) :
    (∀ actions s, runActions (su.pass v steps eager) (PassingState.init start) actions = some s →
      actions.length ≤ su.passBound steps) ∧
    (∃ s, su.Passed v steps eager start s ∧ ∀ a, su.pass v steps eager s a = none) ∧
    ∀ s, su.Passed v steps eager start s → (∀ a, su.pass v steps eager s a = none) →
      ∀ q, su.InRange q → s.exchange.cursors q = ⟨su.numPhases steps, .recv true⟩ := by
  have hlt : ∀ s a t, su.Passed v steps eager start s → su.pass v steps eager s a = some t →
      su.passProgress v steps s < su.passProgress v steps t :=
    fun s a t h hstep => passProgress_lt hsep h hstep
  have hle : ∀ s, su.Passed v steps eager start s →
      su.passProgress v steps s ≤ su.passBound steps :=
    fun s h => passProgress_le (Passed.inStep hsep hind h) h
  refine ⟨fun actions s hrun => ?_, exists_stuck _ hlt hle (Reachable.initial rfl), ?_⟩
  · have hlength := length_le_of_measure _ hlt hle (Reachable.initial rfl) hrun
    exact (Nat.le_add_right _ _).trans hlength
  · intro s h hstuck q hq
    have hinv := Passed.inStep hsep hind h
    have hordered := Reached.ordered hsep (Passed.exchange h)
    obtain ⟨sent, received, hposted⟩ := hordered
    have hphase : (s.exchange.cursors q).phase = su.numPhases steps :=
      le_antisymm (hinv.done_le q)
        (hposted.progress (next_of_stuck hinv ⟨sent, received, hposted⟩ hstuck) hq)
    have hstage : (s.exchange.cursors q).stage = .recv true := by
      by_contra hopen
      have hless := hinv.open_lt q (decide_eq_true hopen)
      exact absurd hphase (Nat.ne_of_lt hless)
    rw [← hphase, ← hstage]

end Ends

end Setup

end Ghexbench.Cartex
