import Ghexbench.Cartex.ExchangeMatching
import Ghexbench.Cartex.Passing

/-!
# The protocol carries out the staged exchange

Forgetting the data, a run of the system is a run of the exchange protocol. Forgetting the network, it is
a run of the staged exchange: the call that packs opens a phase, the return of `MPI_Waitall` completes it,
and the match of a receive names the message whose contents are written. For this the matching has to be
right; then every run comes to an end, at which all threads have completed all steps.
-/

namespace Ghexbench.Cartex

open Ghexbench.Common

namespace Setup

variable {su : Setup} {q q' : ℕ × ℕ} {p p' : ℕ} {left left' : Bool}

/-- An operation determines the thread, the phase and the side. -/
theorem op_eq_iff : su.op q p left = su.op q' p' left' ↔ q = q' ∧ p = p' ∧ left = left' := by
  constructor
  · intro h
    have hstep : p / 3 / su.numFields = p' / 3 / su.numFields := congrArg Op.step h
    have hfield : p / 3 % su.numFields = p' / 3 % su.numFields := congrArg Op.field h
    have hdim : p % 3 = p' % 3 := congrArg (fun o => o.dim.val) h
    have hdiv : p / 3 = p' / 3 := by
      rw [← Nat.div_add_mod (p / 3) su.numFields, hstep, hfield, Nat.div_add_mod]
    exact ⟨congrArg Op.thread h, by omega, congrArg Op.left h⟩
  · rintro ⟨rfl, rfl, rfl⟩
    rfl

namespace Posted

variable {s : ExchangeState} {sent received : List Op}

/-- A log of the operations of the threads contains those before the count of their thread. -/
theorem mem_log_iff {log : List Op} {count : ℕ × ℕ → ℕ}
    (h : ∀ q, log.filter (fun o => o.thread = q) = (List.range (count q)).map (su.opAt q)) :
    su.op q p left ∈ log ↔ 2 * p + (if left then 0 else 1) < count q := by
  have hthread : (su.op q p left).thread = q := rfl
  have hfilter : su.op q p left ∈ log ↔ su.op q p left ∈ log.filter fun o => o.thread = q := by
    simp [List.mem_filter, hthread]
  rw [hfilter, h, List.mem_map]
  constructor
  · rintro ⟨k, hk, heq⟩
    obtain ⟨-, hphase, hleft⟩ := op_eq_iff.mp heq
    rw [List.mem_range] at hk
    have hparity : left = decide (k % 2 = 0) := hleft.symm
    subst hparity
    by_cases heven : k % 2 = 0
    · simp only [heven, decide_true, if_true]
      omega
    · simp only [heven, decide_false, Bool.false_eq_true, if_false]
      omega
  · intro hlt
    exact ⟨_, List.mem_range.mpr hlt, su.opAt_eq q p left⟩

/-- Only operations that have been posted are matched. -/
theorem posted_of_matched (h : su.Posted s sent received) {r m : Op}
    (hmem : (r, m) ∈ s.net.matched) : r ∈ received ∧ m ∈ sent := by
  have hpair : (r, m) ∈ su.streams.pairs (su.streams.ofRecv r) s.net.matched :=
    List.mem_filter.mpr ⟨hmem, decide_eq_true rfl⟩
  obtain ⟨i, hr, hm⟩ := (h.order.paired _).mem hpair
  exact ⟨(List.mem_filter.mp (List.mem_of_getElem? hr)).1,
    (List.mem_filter.mp (List.mem_of_getElem? hm)).1⟩

/-- What a matched receive of the phase of a thread is matched with, and that the thread has begun the
phase. -/
theorem matched_current (h : su.Posted s sent received) {m : Op}
    (hmem : (su.op q (s.cursors q).phase left, m) ∈ s.net.matched) :
    su.InRange q ∧ (s.cursors q).stage ≠ .recv true ∧
      m = su.op (su.source q (phaseDim (s.cursors q).phase) left) (s.cursors q).phase left := by
  have hreceived := (h.posted_of_matched hmem).1
  refine ⟨(h.valid _ (Or.inr hreceived)).1, ?_, h.rightMatch hmem⟩
  intro hstage
  have hlt := (mem_log_iff h.recvs).mp hreceived
  simp only [Cursor.recvCount, hstage] at hlt
  omega

end Posted

end Setup

namespace Setup

variable {V : Type*} {su : Setup} {v : Variant} {steps : ℕ} {eager : Op → Bool}
  {start : ℕ × ℕ → Memory V} {s t : PassingState V}

/-- What an action does. -/
inductive Passes (su : Setup) (v : Variant) (steps : ℕ) (eager : Op → Bool) (s : PassingState V) :
    PassingAction → PassingState V → Prop
  | deliver {sender : ℕ × ℕ} {key : ℕ × ℕ × ℕ} {e : ExchangeState}
    (hnext : su.next steps eager s.exchange (.deliver sender key) = some e) :
    Passes su v steps eager s (.deliver sender key) { s with exchange := e }
  | call {q : ℕ × ℕ} {e : ExchangeState}
    (hwait : (s.exchange.cursors q).stage = .waitall → ∀ left,
      s.landed (su.op q (s.exchange.cursors q).phase left) = true ∧
        (s.contents (su.op q (s.exchange.cursors q).phase left)).isSome)
    (hnext : su.next steps eager s.exchange (.run q) = some e) :
    Passes su v steps eager s (.call q) { s with
      exchange := e
      mem := Function.update s.mem q ((s.exchange.cursors q).stage.effect
        ((su.stepping V v steps).phase (s.exchange.cursors q).phase q) (s.mem q)) }
  | read {q : ℕ × ℕ} {left : Bool} (hq : su.InRange q)
    (hsent : (s.exchange.cursors q).stage.sent left = true)
    (hnone : s.contents (su.op q (s.exchange.cursors q).phase left) = none) :
    Passes su v steps eager s (.read q left) { s with
      contents := Function.update s.contents (su.op q (s.exchange.cursors q).phase left)
        (some (((su.stepping V v steps).phase (s.exchange.cursors q).phase q).outgoing left
          (s.mem q))) }
  | land {q : ℕ × ℕ} {left : Bool} {m : Op} {data : List V}
    (hnot : s.landed (su.op q (s.exchange.cursors q).phase left) = false)
    (hmatch : (su.op q (s.exchange.cursors q).phase left, m) ∈ s.exchange.net.matched)
    (hdata : s.contents m = some data) :
    Passes su v steps eager s (.land q left) { s with
      mem := Function.update s.mem q
        (((su.stepping V v steps).phase (s.exchange.cursors q).phase q).incoming left data (s.mem q))
      landed := Function.update s.landed (su.op q (s.exchange.cursors q).phase left) true }

/-- Every step is one of these. -/
theorem passes_of_pass {a : PassingAction} (hstep : su.pass v steps eager s a = some t) :
    su.Passes v steps eager s a t := by
  cases a with
  | deliver sender key =>
    obtain ⟨e, hnext, rfl⟩ := Option.map_eq_some_iff.mp hstep
    exact Passes.deliver hnext
  | call q =>
    simp only [pass, passWith, Option.ite_none_right_eq_some] at hstep
    obtain ⟨hwait, hstep⟩ := hstep
    obtain ⟨e, hnext, rfl⟩ := Option.map_eq_some_iff.mp hstep
    exact Passes.call hwait hnext
  | read q left =>
    simp only [pass, passWith, Option.ite_none_right_eq_some, Option.some.injEq] at hstep
    obtain ⟨⟨hq, hsent, hnone⟩, rfl⟩ := hstep
    exact Passes.read hq hsent (Option.isNone_iff_eq_none.mp hnone)
  | land q left =>
    simp only [pass, passWith, Option.ite_none_right_eq_some] at hstep
    obtain ⟨hnot, hstep⟩ := hstep
    obtain ⟨⟨r, m⟩, hfind, hstep⟩ := Option.bind_eq_some_iff.mp hstep
    obtain ⟨data, hdata, rfl⟩ := Option.map_eq_some_iff.mp hstep
    have hr := List.find?_some hfind
    simp only [decide_eq_true_eq] at hr
    subst hr
    exact Passes.land hnot (List.mem_of_find?_eq_some hfind) hdata

/-- Without the data, a run is a run of the exchange protocol. -/
theorem Passed.exchange (h : su.Passed v steps eager start s) : su.Reached steps eager s.exchange := by
  refine Reachable.simulation PassingState.exchange ?_ ?_ h
  · intro s₀ hs₀
    exact congrArg PassingState.exchange hs₀
  · rintro s t - ⟨a, hstep⟩
    cases passes_of_pass hstep with
    | deliver hnext => exact Or.inl ⟨_, hnext⟩
    | call hwait hnext => exact Or.inl ⟨_, hnext⟩
    | read hq hsent hnone => exact Or.inr rfl
    | land hnot hmatch hdata => exact Or.inr rfl

section Staged

/-- The state without the network: a phase is open as soon as its first receive has been posted. -/
def staged (su : Setup) (s : PassingState V) : StagedState (ℕ × ℕ) (Memory V) (List V) where
  done q := (s.exchange.cursors q).phase
  isOpen q := decide ((s.exchange.cursors q).stage ≠ .recv true)
  mem := s.mem
  messages q p left := s.contents (su.op q p left)
  arrived q p left := s.landed (su.op q p left)

/-- The threads of the run. -/
theorem mem_threads {q : ℕ × ℕ} :
    q ∈ Finset.range su.cfg.numRanks ×ˢ Finset.range su.cfg.numThreads ↔ su.InRange q := by
  rw [Finset.mem_product, Finset.mem_range, Finset.mem_range]
  rfl

/-- The members of the exchange are the threads of the run. -/
theorem mem_stepping_members {q : ℕ × ℕ} :
    q ∈ (su.stepping V v steps).members ↔ su.InRange q := mem_threads

/-- What is recorded of an operation is recorded of a message. -/
theorem update_op {β : Type*} (f : Op → β) (q : ℕ × ℕ) (p : ℕ) (left : Bool) (b : β) :
    (fun q' p' left' => Function.update f (su.op q p left) b (su.op q' p' left')) =
      mark (fun q' p' left' => f (su.op q' p' left')) q p left b := by
  funext q' p' left'
  simp only [mark_apply, Function.update_apply, op_eq_iff]

/-- The staged states before and after a thread moves. -/
theorem staged_move {e : ExchangeState} {q : ℕ × ℕ} {c : Cursor} {net : Network Op Op}
    {mem : ℕ × ℕ → Memory V} (he : e = s.exchange.move q c net) :
    su.staged { s with exchange := e, mem := mem } =
      { su.staged s with
        done := Function.update (su.staged s).done q c.phase
        isOpen := Function.update (su.staged s).isOpen q (decide (c.stage ≠ .recv true))
        mem := mem } := by
  subst he
  unfold staged
  congr 1
  · funext q'
    rw [move_cursors, Function.update_apply]
    split <;> rfl
  · funext q'
    rw [move_cursors, Function.update_apply]
    split <;> rfl

/-- Posting an operation is a step of the staged exchange if it is the first one of its phase. -/
theorem staged_post {q : ℕ × ℕ} {stage : Stage} {net : Network Op Op} (hq : su.InRange q)
    (hphase : (s.exchange.cursors q).phase < su.numPhases steps) (hstage : stage ≠ .recv true)
    (hwait : (s.exchange.cursors q).stage ≠ .waitall) :
    let t := { s with
      exchange := s.exchange.move q ⟨(s.exchange.cursors q).phase, stage⟩ net
      mem := Function.update s.mem q ((s.exchange.cursors q).stage.effect
        ((su.stepping V v steps).phase (s.exchange.cursors q).phase q) (s.mem q)) }
    Steps (su.stepping V v steps).next (su.staged s) (su.staged t) ∨ su.staged t = su.staged s := by
  intro t
  have ht : su.staged t = { su.staged s with
      done := Function.update (su.staged s).done q (s.exchange.cursors q).phase
      isOpen := Function.update (su.staged s).isOpen q (decide (stage ≠ .recv true))
      mem := t.mem } := staged_move rfl
  rw [ht]
  have hdone : Function.update (su.staged s).done q (s.exchange.cursors q).phase =
      (su.staged s).done := Function.update_eq_self q _
  by_cases hfirst : (s.exchange.cursors q).stage = .recv true
  · left
    refine ⟨.start q, ?_⟩
    have hclosed : (su.staged s).isOpen q = false := by simp [staged, hfirst]
    rw [Staged.next, if_pos ⟨mem_stepping_members.mpr hq, hphase, hclosed⟩]
    simp only [hdone, hstage, ne_eq, not_false_eq_true, decide_true, t, hfirst, Stage.effect]
    rfl
  · right
    have hopen : (su.staged s).isOpen q = true := by simp [staged, hfirst]
    have heffect : (s.exchange.cursors q).stage.effect
        ((su.stepping V v steps).phase (s.exchange.cursors q).phase q) (s.mem q) = s.mem q := by
      cases hcase : (s.exchange.cursors q).stage with
      | recv left =>
        cases left with
        | true => exact absurd hcase hfirst
        | false => rfl
      | send left => rfl
      | waitall => exact absurd hcase hwait
    have hisOpen : Function.update (su.staged s).isOpen q (decide (stage ≠ .recv true)) =
        (su.staged s).isOpen := by
      rw [decide_eq_true hstage, ← hopen]
      exact Function.update_eq_self q _
    simp only [hdone, hisOpen, t, heffect, Function.update_eq_self]
    rfl

/-- A step is a step of the staged exchange, or not visible there. -/
theorem staged_step (hordered : su.Ordered s.exchange) {a : PassingAction}
    (hstep : su.pass v steps eager s a = some t) :
    Steps (su.stepping V v steps).next (su.staged s) (su.staged t) ∨ su.staged t = su.staged s := by
  cases passes_of_pass hstep with
  | deliver hnext =>
    cases moves_of_next hnext with
    | deliver hnet => exact Or.inr rfl
  | @call q e hwait hnext =>
    cases moves_of_next hnext with
    | @recv _ left hq hphase hstage =>
      apply staged_post hq hphase
      · cases left <;> simp
      · simp [hstage]
    | @send _ left hq hphase hstage =>
      apply staged_post hq hphase
      · cases left <;> simp
      · simp [hstage]
    | waitall hstage hdone =>
      left
      refine ⟨.finish q, ?_⟩
      have hq : su.InRange q ∧ (s.exchange.cursors q).phase < su.numPhases steps := by
        by_contra hnot
        simp only [next, if_neg hnot, reduceCtorEq] at hnext
      have hopen : (su.staged s).isOpen q = true := by simp [staged, hstage]
      have hall : ∀ left, ((su.staged s).messages q ((su.staged s).done q) left).isSome ∧
          (su.staged s).arrived q ((su.staged s).done q) left = true :=
        fun left => ⟨(hwait hstage left).2, (hwait hstage left).1⟩
      rw [Staged.next, if_pos ⟨mem_stepping_members.mpr hq.1, hopen, hall⟩, staged_move rfl]
      simp only [hstage, Stage.effect, ne_eq, not_true_eq_false, decide_false]
      rfl
  | @read q left hq hsent hnone =>
    left
    refine ⟨.read q left, ?_⟩
    have hopen : (su.staged s).isOpen q = true := by
      cases hstage : (s.exchange.cursors q).stage <;> simp [staged, hstage]
      rw [hstage] at hsent
      cases hsent
    have hunread : ((su.staged s).messages q ((su.staged s).done q) left).isNone :=
      Option.isNone_iff_eq_none.mpr hnone
    rw [Staged.next, if_pos ⟨mem_stepping_members.mpr hq, hopen, hunread⟩]
    simp only [staged, update_op]
  | @land q left m data hnot hmatch hdata =>
    left
    refine ⟨.arrive q left, ?_⟩
    obtain ⟨sent, received, hposted⟩ := hordered
    obtain ⟨hq, hstage, rfl⟩ := hposted.matched_current hmatch
    have hopen : (su.staged s).isOpen q = true := decide_eq_true hstage
    have hmessage : (su.staged s).messages ((su.stepping V v steps).source ((su.staged s).done q) q left)
        ((su.staged s).done q) left = some data := hdata
    rw [Staged.next, if_pos ⟨mem_stepping_members.mpr hq, hopen, hnot⟩, hmessage, Option.map_some]
    simp only [staged, update_op]

/-- Without the network, a run is a run of the staged exchange. -/
theorem Passed.staged (hsep : su.Separate) (h : su.Passed v steps eager start s) :
    (su.stepping V v steps).Reached start (su.staged s) := by
  refine Reachable.simulation su.staged ?_ ?_ h
  · intro s₀ hs₀
    subst hs₀
    rfl
  · rintro s t hs ⟨a, hstep⟩
    exact staged_step (Reached.ordered hsep (Passed.exchange hs)) hstep

end Staged

end Setup

end Ghexbench.Cartex
