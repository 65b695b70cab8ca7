import Ghexbench.Cartex.ExchangeOrder

/-!
# Matching and progress of the exchange protocol

Operations of two different pairs of threads may have the same source rank, destination rank and
tag, because the tag of `neighborhood` counts the fields up to the number of threads only. As
long as no call of a thread meets unmatched operations of another pair, all matches are right and
the system is never stuck. This is always so for ranks of a single thread, and for at most as
many fields as threads; with more fields and several threads a wrong match is reachable.
-/

namespace Ghexbench.Cartex

open Ghexbench.Common

namespace Setup

variable {su : Setup} {s s' : ExchangeState} {sent received : List Op} {steps : ℕ}
  {eager : Op → Bool}

section Progress

/-- A thread that cannot make its next call waits for the operations of its phase. -/
theorem waits {q : ℕ × ℕ} (hq : su.InRange q) (hphase : (s.cursors q).phase < su.numPhases steps)
    (hstuck : su.next steps eager s (.run q) = none) :
    (s.cursors q).stage = .waitall ∧ ¬ ∀ left, s.recvDone (su.op q (s.cursors q).phase left) ∧
      (eager (su.op q (s.cursors q).phase left) ∨
        s.sendMatched (su.op q (s.cursors q).phase left)) := by
  simp only [next] at hstuck
  rw [if_pos ⟨hq, hphase⟩] at hstuck
  cases hstage : (s.cursors q).stage with
  | recv left => simp [hstage] at hstuck
  | send left => simp [hstage] at hstuck
  | waitall =>
    simp only [hstage] at hstuck
    split at hstuck
    · cases hstuck
    · next hwait => exact ⟨rfl, hwait⟩

/-- No message can be delivered when none is in flight. -/
theorem inFlight_nil (hstuck : ∀ a, su.next steps eager s a = none) : s.net.inFlight = [] := by
  by_contra hne
  obtain ⟨m, hm⟩ := List.exists_mem_of_ne_nil _ hne
  obtain ⟨net, hnet⟩ := Network.deliver_isSome su.labels hm
  have hnone := hstuck (.deliver (su.labels.sender m) (su.labels.sendKey m))
  simp only [next, hnet, Option.map_some, reduceCtorEq] at hnone

/-- The threads that have completed the fewest phases do not wait for each other. -/
theorem Posted.progress (h : su.Posted s sent received)
    (hstuck : ∀ a, su.next steps eager s a = none) {q : ℕ × ℕ} (hq : su.InRange q) :
    su.numPhases steps ≤ (s.cursors q).phase := by
  by_contra hlt
  have hmem (v : ℕ × ℕ) : v ∈ Finset.range su.cfg.numRanks ×ˢ Finset.range su.cfg.numThreads ↔
      su.InRange v := by
    rw [Finset.mem_product, Finset.mem_range, Finset.mem_range]
    rfl
  obtain ⟨u, hu, hmin⟩ := Finset.exists_min_image _ (fun v => (s.cursors v).phase)
    ⟨q, (hmem q).mpr hq⟩
  rw [hmem] at hu
  have hphase : (s.cursors u).phase < su.numPhases steps := by
    have := hmin q ((hmem q).mpr hq)
    omega
  -- every thread has posted all operations of the phase of `u`
  have hposted (v : ℕ × ℕ) (hv : su.InRange v) :
      2 * (s.cursors u).phase + 2 ≤ (s.cursors v).sendCount ∧
        2 * (s.cursors u).phase + 2 ≤ (s.cursors v).recvCount := by
    have hle := hmin v ((hmem v).mpr hv)
    cases Nat.lt_or_ge (s.cursors u).phase (s.cursors v).phase with
    | inl hahead =>
      simp only [Cursor.sendCount, Cursor.recvCount]
      omega
    | inr hsame =>
      have hwait := (waits hv (by omega) (hstuck (.run v))).1
      simp only [Cursor.sendCount, Cursor.recvCount, hwait]
      omega
  apply (waits hu hphase (hstuck (.run u))).2
  intro left
  have hflight := inFlight_nil hstuck
  have hplace : 2 * (s.cursors u).phase + (if left then 0 else 1) <
      2 * (s.cursors u).phase + 2 := by split <;> omega
  have hleft : (su.op u (s.cursors u).phase left).left = left := rfl
  constructor
  · have hmatch := h.matched hflight hu (hplace.trans_le (hposted u hu).2)
      (hplace.trans_le (hposted _ (source_inRange hu _ _)).1)
    rw [su.opAt_eq] at hmatch
    exact List.any_eq_true.mpr ⟨_, hmatch, decide_eq_true rfl⟩
  · right
    have hv := target_inRange hu (su.op u (s.cursors u).phase left).dim left
    have hsource := source_target hu (su.op u (s.cursors u).phase left).dim left
    have hmatch := h.matched hflight hv (hplace.trans_le (hposted _ hv).2) (by
      rw [su.opAt_eq]
      change _ < (s.cursors (su.source _ (su.op u (s.cursors u).phase left).dim left)).sendCount
      rw [hsource]
      exact hplace.trans_le (hposted u hu).1)
    rw [su.opAt_eq, su.opAt_eq] at hmatch
    change (_, su.op (su.source _ (su.op u (s.cursors u).phase left).dim left) _ left) ∈ _ at hmatch
    rw [hsource] at hmatch
    exact List.any_eq_true.mpr ⟨_, hmatch, decide_eq_true rfl⟩

end Progress

section Separate

/-- Valid operations with the same source rank, destination rank and tag are between the same two
threads. -/
def Separate (su : Setup) : Prop := ∀ o o', su.Valid o → su.Valid o' →
  su.labels.sendKey o = su.labels.sendKey o' → su.streams.ofSend o = su.streams.ofSend o'

/-- The stream of a receive is that of the message it is posted for. -/
theorem exists_send {r : Op} (hr : su.Valid r) :
    ∃ o, su.Valid o ∧ su.streams.ofSend o = su.streams.ofRecv r := by
  refine ⟨{ r with thread := su.source r.thread r.dim r.left },
    ⟨source_inRange hr.1 r.dim r.left, hr.2⟩, ?_⟩
  change (su.source r.thread r.dim r.left, su.target (su.source r.thread r.dim r.left) r.dim r.left,
    _) = _
  rw [target_source hr.1, ← recvtag_eq_sendtag]
  rfl

/-- If the keys separate the pairs of threads then no call disturbs another pair. -/
theorem Posted.clear (h : su.Posted s sent received) (hsep : su.Separate) {o : Op}
    (ho : su.Valid o) : s.net.Clear su.streams (su.streams.ofSend o) := by
  intro τ hτ hkey
  have hvalid : ∃ m, su.Valid m ∧ su.streams.ofSend m = τ := by
    rcases h.order.unmatched_mem hτ with ⟨m, hm, rfl⟩ | ⟨r, hr, rfl⟩
    · exact ⟨m, h.valid m (Or.inl hm), rfl⟩
    · exact exists_send (h.valid r (Or.inr hr))
  obtain ⟨m, hm, rfl⟩ := hvalid
  exact hsep m o hm ho hkey

/-- If the keys separate the pairs of threads then no call disturbs another pair. -/
theorem Posted.undisturbed (h : su.Posted s sent received) (hsep : su.Separate)
    {a : ExchangeAction} (hstep : su.next steps eager s a = some s') : su.Undisturbed s a := by
  cases moves_of_next hstep with
  | deliver hnet => trivial
  | @recv q left hq hphase hstage =>
    obtain ⟨o, ho, heq⟩ := exists_send (Posted.valid_op hq hphase left)
    simp only [Undisturbed, hstage, ← heq]
    exact h.clear hsep ho
  | @send q left hq hphase hstage =>
    simp only [Undisturbed, hstage]
    exact h.clear hsep (Posted.valid_op hq hphase left)
  | waitall hstage hwait => simp only [Undisturbed, hstage]

/-- With one thread per rank the ranks determine the threads. -/
theorem separate_of_single (hthreads : su.cfg.numThreads = 1) : su.Separate := by
  intro o o' ho ho' hkey
  have heq {u v : ℕ × ℕ} (hu : su.InRange u) (hv : su.InRange v) (h : u.1 = v.1) : u = v := by
    have hu2 := hu.2
    have hv2 := hv.2
    exact Prod.ext h (by omega)
  obtain ⟨hrank, hkey'⟩ := Prod.ext_iff.mp hkey
  obtain ⟨hdest, htag⟩ := Prod.ext_iff.mp hkey'
  have hsource : o.thread = o'.thread := heq ho.1 ho'.1 hrank
  have htarget : su.target o.thread o.dim o.left = su.target o'.thread o'.dim o'.left :=
    heq (target_inRange ho.1 _ _) (target_inRange ho'.1 _ _) hdest
  exact Prod.ext hsource (Prod.ext htarget htag)

/-- With at most as many fields as threads the tag determines the field, the direction and the
sending thread. -/
theorem separate_of_le (hfields : su.numFields ≤ su.cfg.numThreads) : su.Separate := by
  intro o o' ho ho' hkey
  obtain ⟨hrank, hkey'⟩ := Prod.ext_iff.mp hkey
  have htag : o.field + su.cfg.numThreads * (o.dim.val * 2 + (if o.left then 0 else 1) +
      6 * o.thread.2) = o'.field + su.cfg.numThreads * (o'.dim.val * 2 +
        (if o'.left then 0 else 1) + 6 * o'.thread.2) :=
    (Prod.ext_iff.mp hkey').2
  have hlt : o.field < su.cfg.numThreads := lt_of_lt_of_le ho.2 hfields
  have hlt' : o'.field < su.cfg.numThreads := lt_of_lt_of_le ho'.2 hfields
  have hfield : o.field = o'.field := by
    have hmod := congrArg (· % su.cfg.numThreads) htag
    simpa [Nat.add_mul_mod_self_left, Nat.mod_eq_of_lt hlt, Nat.mod_eq_of_lt hlt'] using hmod
  rw [hfield, Nat.add_left_cancel_iff] at htag
  have hdigits := Nat.eq_of_mul_eq_mul_left (Nat.zero_lt_of_lt hlt) htag
  have hdim := o.dim.isLt
  have hdim' := o'.dim.isLt
  have hside (b : Bool) : (if b then 0 else 1) ≤ 1 := by cases b <;> decide
  have hthread : o.thread = o'.thread := by
    refine Prod.ext hrank ?_
    have h1 := hside o.left
    have h2 := hside o'.left
    omega
  have hdims : o.dim = o'.dim := by
    apply Fin.ext
    have h1 := hside o.left
    have h2 := hside o'.left
    rw [hthread] at hdigits
    omega
  have hleft : o.left = o'.left := by
    rw [hthread, hdims] at hdigits
    cases ho : o.left <;> cases ho' : o'.left <;> simp [ho, ho'] at hdigits ⊢
  change (o.thread, su.target o.thread o.dim o.left, (su.neighborhood o.thread).sendtag o.field o.dim
    o.left) = (o'.thread, su.target o'.thread o'.dim o'.left, _)
  rw [hthread, hdims, hleft, hfield]

end Separate

section Runs

/-- The thread that moved, and the others. -/
theorem move_cursors (s : ExchangeState) (q q' : ℕ × ℕ) (c : Cursor) (net : Network Op Op) :
    (s.move q c net).cursors q' = if q' = q then c else s.cursors q' := by
  simp only [ExchangeState.move, Function.update_apply]

/-- The state has a history in which all streams are in order. -/
def Ordered (su : Setup) (s : ExchangeState) : Prop := ∃ sent received, su.Posted s sent received

/-- Every state of an undisturbed run has a history in which all streams are in order. -/
theorem ordered_of_undisturbed (h : Reachable (· = ExchangeState.init)
    (StepsWhen su.Undisturbed (su.next steps eager)) s) : su.Ordered s := by
  apply Reachable.invariant _ _ h
  · intro s₀ hs₀
    subst hs₀
    exact ⟨[], [], Posted.init⟩
  · intro t t' hordered hnext
    obtain ⟨sent, received, hposted⟩ := hordered
    obtain ⟨a, hclear, hstep⟩ := hnext
    exact hposted.step hclear hstep

/-- If the keys separate the pairs of threads then all runs are undisturbed. -/
theorem Reached.ordered (hsep : su.Separate) (h : su.Reached steps eager s) : su.Ordered s := by
  apply Reachable.invariant _ _ h
  · intro s₀ hs₀
    subst hs₀
    exact ⟨[], [], Posted.init⟩
  · intro t t' hordered hnext
    obtain ⟨sent, received, hposted⟩ := hordered
    obtain ⟨a, hstep⟩ := hnext
    exact hposted.step (hposted.undisturbed hsep hstep) hstep

/-- The receives of completed phases are matched. -/
def Completed (su : Setup) (s : ExchangeState) : Prop :=
  ∀ q phase left, phase < (s.cursors q).phase → ∃ m, (su.op q phase left, m) ∈ s.net.matched

/-- The receives of completed phases stay matched while a thread goes through a phase. -/
theorem Completed.keep (h : su.Completed s) {q : ℕ × ℕ} {stage : Stage} {net : Network Op Op}
    (hnet : s.net.matched ⊆ net.matched) :
    su.Completed (s.move q ⟨(s.cursors q).phase, stage⟩ net) := by
  intro q' phase left hphase
  have hphase' : phase < (s.cursors q').phase := by
    rw [move_cursors] at hphase
    split at hphase
    · next hq => exact hq ▸ hphase
    · exact hphase
  obtain ⟨m, hm⟩ := h q' phase left hphase'
  exact ⟨m, hnet hm⟩

/-- A thread completes a phase after its receives are matched, and matches are final. -/
theorem Completed.step (h : su.Completed s) {a : ExchangeAction}
    (hstep : su.next steps eager s a = some s') : su.Completed s' := by
  cases moves_of_next hstep with
  | deliver hnet =>
    intro q phase left hphase
    obtain ⟨m, hm⟩ := h q phase left hphase
    exact ⟨m, Network.matched_deliver hnet hm⟩
  | recv hq hphase hstage => exact h.keep (Network.matched_postRecv _)
  | send hq hphase hstage => exact h.keep (List.Subset.refl _)
  | waitall hstage hwait =>
    intro q' phase left hphase
    rw [move_cursors] at hphase
    split at hphase
    · next hq =>
      subst hq
      cases Nat.lt_succ_iff_lt_or_eq.mp hphase with
      | inl hlt => exact h q' phase left hlt
      | inr heq =>
        obtain ⟨p, hp, hr⟩ := List.any_eq_true.mp (hwait left).1
        have hr' := of_decide_eq_true hr
        exact ⟨p.2, by rw [heq, ← hr']; exact hp⟩
    · exact h q' phase left hphase

/-- The receives of completed phases are matched in every state of every run. -/
theorem Reached.completed (h : su.Reached steps eager s) : su.Completed s := by
  apply Reachable.invariant _ _ h
  · intro s₀ hs₀ q phase left hphase
    subst hs₀
    exact absurd hphase (Nat.not_lt_zero phase)
  · intro t t' hcompleted hnext
    obtain ⟨a, hstep⟩ := hnext
    exact hcompleted.step hstep

end Runs

end Setup

/-- With one thread per rank, every receive is matched by the send that the neighbour in its
direction issues for the same step, field, dimension and side, the receives of completed phases
are matched, and while a rank has not completed its steps the system is not stuck. -/
theorem single_thread_exchange (su : Setup) (hthreads : su.cfg.numThreads = 1) (steps : ℕ)
    (eager : Op → Bool) (s : ExchangeState) (h : su.Reached steps eager s) :
    (∀ r m, (r, m) ∈ s.net.matched → su.RightMatch r m) ∧
    (∀ q phase left, phase < (s.cursors q).phase → ∃ m, (su.op q phase left, m) ∈ s.net.matched) ∧
    ((∃ q, su.InRange q ∧ (s.cursors q).phase < su.numPhases steps) →
      ∃ a s', su.next steps eager s a = some s') := by
  obtain ⟨sent, received, hposted⟩ := Setup.Reached.ordered (Setup.separate_of_single hthreads) h
  refine ⟨fun r m hmem => hposted.rightMatch hmem, Setup.Reached.completed h, ?_⟩
  rintro ⟨q, hq, hphase⟩
  by_contra hstuck
  push Not at hstuck
  have hle := hposted.progress
    (fun a => Option.eq_none_iff_forall_ne_some.mpr (hstuck a)) hq
  omega

/-- The grid with a single place has positive extents. -/
theorem single_pos : ∀ d, 0 < (![1, 1, 1] : Arr ℕ) d := by decide

/-- A single rank of one thread with one field: it is its own neighbour in all directions. -/
def selfNeighbor : Setup where
  cfg := { rankGrid := ![1, 1, 1], threadGrid := ![1, 1, 1], domainSize := ![1, 1, 1],
           isLocal := true, rankGrid_pos := single_pos, threadGrid_pos := single_pos }
  placement := .mpiCart (RankMap.xyz _ single_pos)
  halos := fun _ => 1
  numFields := 1

/-- The state after both receives are posted and the message to the left is delivered: it is
matched by the receive from the right. -/
theorem single_thread_exchange_delivered : ∃ s, selfNeighbor.Reached 1 (fun _ => false) s ∧
    s.net.matched.length = 1 ∧ (∀ r m, (r, m) ∈ s.net.matched → selfNeighbor.RightMatch r m) := by
  let actions : List ExchangeAction :=
    [.run (0, 0), .run (0, 0), .run (0, 0), .deliver (0, 0) (0, 0, 0)]
  obtain ⟨s, hs, hlength⟩ : ∃ s, runActions (selfNeighbor.next 1 fun _ => false) ExchangeState.init
      actions = some s ∧ s.net.matched.length = 1 := ⟨_, rfl, by decide⟩
  have hreached : selfNeighbor.Reached 1 (fun _ => false) s :=
    reachable_of_runActions actions (Reachable.initial rfl) hs
  exact ⟨s, hreached, hlength,
    (single_thread_exchange selfNeighbor (by decide) 1 (fun _ => false) s hreached).1⟩

/-- In a run in which no call of a thread meets unmatched operations of another pair of threads
with the same source rank, destination rank and tag, every receive is matched by the send that the
neighbour in its direction issues for the same step, field, dimension and side. With at most as
many fields as threads per rank every run is of this kind. -/
theorem exchange_matches (su : Setup) (steps : ℕ) (eager : Op → Bool) :
    (∀ s, Reachable (· = ExchangeState.init) (StepsWhen su.Undisturbed (su.next steps eager)) s →
      ∀ r m, (r, m) ∈ s.net.matched → su.RightMatch r m) ∧
    (su.numFields ≤ su.cfg.numThreads → ∀ s, su.Reached steps eager s →
      (∀ a s', su.next steps eager s a = some s' → su.Undisturbed s a) ∧
      ∀ r m, (r, m) ∈ s.net.matched → su.RightMatch r m) := by
  constructor
  · intro s h r m hmem
    obtain ⟨sent, received, hposted⟩ := Setup.ordered_of_undisturbed h
    exact hposted.rightMatch hmem
  · intro hfields s h
    have hsep := Setup.separate_of_le hfields
    obtain ⟨sent, received, hposted⟩ := Setup.Reached.ordered hsep h
    exact ⟨fun a s' hstep => hposted.undisturbed hsep hstep, fun r m hmem => hposted.rightMatch hmem⟩

/-- One rank of two threads with three fields. -/
def twoThreads : Setup where
  cfg := { rankGrid := ![1, 1, 1], threadGrid := ![2, 1, 1], domainSize := ![1, 1, 1],
           isLocal := true, rankGrid_pos := single_pos, threadGrid_pos := twoRanks.rankGrid_pos }
  placement := .mpiCart (RankMap.xyz _ single_pos)
  halos := fun _ => 1
  numFields := 3

/-- The deliveries of the messages of a thread in a phase. -/
def deliveries (q : ℕ × ℕ) (phase : ℕ) : List ExchangeAction :=
  [true, false].map fun left => .deliver q (twoThreads.labels.sendKey (twoThreads.op q phase left))

/-- A schedule in which both threads go through one phase together. -/
def together (phase : ℕ) : List ExchangeAction :=
  List.replicate 4 (.run (0, 0)) ++ List.replicate 4 (.run (0, 1)) ++
    deliveries (0, 0) phase ++ deliveries (0, 1) phase ++ [.run (0, 0), .run (0, 1)]

/-- Both threads go through eight phases; thread 1 completes the last phase of the first step and
sends to the left in the second step, while thread 0 has only posted the receives of that phase. -/
def overtaking : List ExchangeAction :=
  (List.range 8).flatMap together ++ List.replicate 4 (.run (0, 1)) ++ deliveries (0, 1) 8 ++
    List.replicate 4 (.run (0, 1)) ++ [.run (0, 0), .run (0, 0)] ++ (deliveries (0, 1) 9).take 1

/-- A receive of the first step, for field 2 in the last dimension, is matched by a message of the
second step, for field 0 in the first dimension. -/
theorem exchange_crossMatch : ∃ s, twoThreads.Reached 2 (fun _ => false) s ∧
    ∃ r m, (r, m) ∈ s.net.matched ∧ r.step = 0 ∧ m.step = 1 ∧ ¬ twoThreads.RightMatch r m := by
  have hrun : ((runActions (twoThreads.next 2 fun _ => false) ExchangeState.init overtaking).map
      fun s => s.net.matched.any fun p => p.1.step = 0 ∧ p.2.step = 1) = some true := by
    decide +kernel
  obtain ⟨s, hs, hany⟩ := Option.map_eq_some_iff.mp hrun
  obtain ⟨⟨r, m⟩, hmem, hsteps⟩ := List.any_eq_true.mp hany
  obtain ⟨hr, hm⟩ := of_decide_eq_true hsteps
  refine ⟨s, reachable_of_runActions overtaking (Reachable.initial rfl) hs, r, m, hmem, hr, hm, ?_⟩
  intro hright
  have hstep : m.step = r.step := by rw [hright]
  rw [hr, hm] at hstep
  cases hstep

end Ghexbench.Cartex
