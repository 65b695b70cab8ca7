import Ghexbench.Cartex.Exchange
import Mathlib.Data.Finset.Max
import Mathlib.Data.Finset.Prod

/-!
# The order of sends and receives

A stream of the exchange protocol consists of the messages from one thread to another with one
tag. Sender and receiver go through the same phases in the same order, hence through the
operations of each stream in the same order, and the matching pairs the operations of the same
phase. A thread that has completed the fewest phases never waits for another one.
-/

namespace Ghexbench.Cartex

open Ghexbench.Common

/-- The number of sends that a thread has posted. -/
def Cursor.sendCount (c : Cursor) : ℕ :=
  2 * c.phase + match c.stage with
    | .recv _ => 0
    | .send true => 0
    | .send false => 1
    | .waitall => 2

/-- The number of receives that a thread has posted. -/
def Cursor.recvCount (c : Cursor) : ℕ :=
  2 * c.phase + match c.stage with
    | .recv true => 0
    | .recv false => 1
    | .send _ => 2
    | .waitall => 2

namespace Setup

variable (su : Setup)

/-- The operation that a thread posts at a place of its sequence of sends or of receives. -/
def opAt (q : ℕ × ℕ) (p : ℕ) : Op := su.op q (p / 2) (p % 2 = 0)

/-- The operation of a phase. -/
theorem opAt_eq (q : ℕ × ℕ) (phase : ℕ) (left : Bool) :
    su.opAt q (2 * phase + if left then 0 else 1) = su.op q phase left := by
  unfold opAt
  cases left
  · have hdiv : (2 * phase + 1) / 2 = phase := by omega
    have hmod : (2 * phase + 1) % 2 = 1 := by omega
    simp only [Bool.false_eq_true, if_false, hdiv, hmod]
    rfl
  · have hdiv : (2 * phase + 0) / 2 = phase := by omega
    have hmod : (2 * phase + 0) % 2 = 0 := by omega
    simp only [if_true, hdiv, hmod]
    rfl

/-- A stream: the sender, the receiver and the tag. -/
def streams : Streams su.labels ((ℕ × ℕ) × (ℕ × ℕ) × ℕ) where
  ofSend o := (o.thread, su.target o.thread o.dim o.left,
    (su.neighborhood o.thread).sendtag o.field o.dim o.left)
  ofRecv o := (su.source o.thread o.dim o.left, o.thread,
    (su.neighborhood o.thread).recvtag o.field o.dim o.left)
  key σ := (σ.1.1, σ.2.1.1, σ.2.2)
  sender σ := σ.1
  sendKey_eq _ := rfl
  recvKey_eq _ := rfl
  sender_eq _ := rfl

/-- Sender and receiver agree about the operations of their stream. -/
theorem stream_iff {u q : ℕ × ℕ} {tag p : ℕ} (hu : su.InRange u) (hq : su.InRange q) :
    su.streams.ofSend (su.opAt u p) = (u, q, tag) ↔ su.streams.ofRecv (su.opAt q p) = (u, q, tag) := by
  have hdim : (su.opAt q p).dim = (su.opAt u p).dim := rfl
  have hleft : (su.opAt q p).left = (su.opAt u p).left := rfl
  have hfield : (su.opAt q p).field = (su.opAt u p).field := rfl
  constructor
  · intro h
    have htarget : su.target u (su.opAt u p).dim (su.opAt u p).left = q :=
      congrArg (fun σ => σ.2.1) h
    have htag : (su.neighborhood u).sendtag (su.opAt u p).field (su.opAt u p).dim
        (su.opAt u p).left = tag := congrArg (fun σ => σ.2.2) h
    have hsource := source_target hu (su.opAt u p).dim (su.opAt u p).left
    rw [htarget] at hsource
    change (su.source q _ _, q, (su.neighborhood q).recvtag _ _ _) = _
    rw [recvtag_eq_sendtag, hdim, hleft, hfield, hsource, htag]
  · intro h
    have hsource : su.source q (su.opAt u p).dim (su.opAt u p).left = u :=
      congrArg (fun σ => σ.1) h
    have htag : (su.neighborhood q).recvtag (su.opAt u p).field (su.opAt u p).dim
        (su.opAt u p).left = tag := congrArg (fun σ => σ.2.2) h
    rw [recvtag_eq_sendtag, hsource] at htag
    have htarget := target_source hq (su.opAt u p).dim (su.opAt u p).left
    rw [hsource] at htarget
    change (u, su.target u _ _, (su.neighborhood u).sendtag _ _ _) = _
    rw [htarget, htag]

/-- An operation of a thread that takes part in the run, for one of the fields. -/
def Valid (o : Op) : Prop := su.InRange o.thread ∧ o.field < su.numFields

/-- The messages and receives posted so far: each thread has posted those of its sequence up to its
cursor, and every stream has been matched in order. -/
structure Posted (s : ExchangeState) (sent received : List Op) : Prop where
  order : s.net.InOrder su.streams sent received
  sends : ∀ q, sent.filter (fun o => o.thread = q) =
    (List.range (s.cursors q).sendCount).map (su.opAt q)
  recvs : ∀ q, received.filter (fun o => o.thread = q) =
    (List.range (s.cursors q).recvCount).map (su.opAt q)
  valid : ∀ o, o ∈ sent ∨ o ∈ received → su.Valid o

/-- The call of a thread disturbs no other pair of threads: every unmatched operation with the
same source rank, destination rank and tag is between the same two threads. -/
def Undisturbed (s : ExchangeState) : ExchangeAction → Prop
  | .deliver _ _ => True
  | .run q =>
    match (s.cursors q).stage with
    | .recv left => s.net.Clear su.streams
        (su.streams.ofRecv (su.op q (s.cursors q).phase left))
    | .send left => s.net.Clear su.streams
        (su.streams.ofSend (su.op q (s.cursors q).phase left))
    | .waitall => True

end Setup

namespace Setup

variable {su : Setup} {s s' : ExchangeState} {steps : ℕ} {eager : Op → Bool}

/-- What an action does. -/
inductive Moves (su : Setup) (steps : ℕ) (eager : Op → Bool) (s : ExchangeState) :
    ExchangeAction → ExchangeState → Prop
  | deliver {sender : ℕ × ℕ} {key : ℕ × ℕ × ℕ} {net : Network Op Op}
    (hnet : s.net.deliver su.labels sender key = some net) :
    Moves su steps eager s (.deliver sender key) { s with net := net }
  | recv {q : ℕ × ℕ} {left : Bool} (hq : su.InRange q)
    (hphase : (s.cursors q).phase < su.numPhases steps) (hstage : (s.cursors q).stage = .recv left) :
    Moves su steps eager s (.run q)
      (s.move q ⟨(s.cursors q).phase, if left then .recv false else .send true⟩
        (s.net.postRecv su.labels (su.op q (s.cursors q).phase left)))
  | send {q : ℕ × ℕ} {left : Bool} (hq : su.InRange q)
    (hphase : (s.cursors q).phase < su.numPhases steps) (hstage : (s.cursors q).stage = .send left) :
    Moves su steps eager s (.run q)
      (s.move q ⟨(s.cursors q).phase, if left then .send false else .waitall⟩
        (s.net.postSend (su.op q (s.cursors q).phase left)))
  | waitall {q : ℕ × ℕ} (hstage : (s.cursors q).stage = .waitall)
    (hwait : ∀ left, s.recvDone (su.op q (s.cursors q).phase left) ∧
      (eager (su.op q (s.cursors q).phase left) ∨
        s.sendMatched (su.op q (s.cursors q).phase left))) :
    Moves su steps eager s (.run q) (s.move q ⟨(s.cursors q).phase + 1, .recv true⟩ s.net)

/-- Every step is one of these. -/
theorem moves_of_next {a : ExchangeAction} (hstep : su.next steps eager s a = some s') :
    su.Moves steps eager s a s' := by
  cases a with
  | deliver sender key =>
    obtain ⟨net, hnet, rfl⟩ := Option.map_eq_some_iff.mp hstep
    exact Moves.deliver hnet
  | run q =>
    simp only [next, Option.ite_none_right_eq_some] at hstep
    obtain ⟨⟨hq, hphase⟩, hstep⟩ := hstep
    cases hstage : (s.cursors q).stage with
    | recv left =>
      simp only [hstage, Option.some.injEq] at hstep
      exact hstep ▸ Moves.recv hq hphase hstage
    | send left =>
      simp only [hstage, Option.some.injEq] at hstep
      exact hstep ▸ Moves.send hq hphase hstage
    | waitall =>
      simp only [hstage, Option.ite_none_right_eq_some, Option.some.injEq] at hstep
      exact hstep.2 ▸ Moves.waitall hstage hstep.1

end Setup

namespace Setup.Posted

variable {su : Setup} {s s' : ExchangeState} {sent received : List Op} {steps : ℕ}
  {eager : Op → Bool}

/-- Nothing is posted at the start. -/
theorem init : su.Posted ExchangeState.init [] [] where
  order := Network.InOrder.empty
  sends _ := rfl
  recvs _ := rfl
  valid o h := by simp at h

/-- One thread adds the next operation of its sequence to a log. -/
theorem log_add {log : List Op} {cursors : ℕ × ℕ → Cursor} {count : Cursor → ℕ} {q : ℕ × ℕ}
    {c : Cursor} (h : ∀ q', log.filter (fun o => o.thread = q') =
      (List.range (count (cursors q'))).map (su.opAt q'))
    (hcount : count c = count (cursors q) + 1) (q' : ℕ × ℕ) :
    (log ++ [su.opAt q (count (cursors q))]).filter (fun o => o.thread = q') =
      (List.range (count (Function.update cursors q c q'))).map (su.opAt q') := by
  have hthread : (su.opAt q (count (cursors q))).thread = q := rfl
  rw [List.filter_append]
  by_cases hq : q = q'
  · subst hq
    rw [Function.update_self, hcount, List.range_succ, List.map_append, ← h]
    simp [hthread]
  · rw [Function.update_of_ne (Ne.symm hq), ← h]
    simp [hthread, hq]

/-- A thread moves without adding to a log. -/
theorem log_keep {log : List Op} {cursors : ℕ × ℕ → Cursor} {count : Cursor → ℕ} {q : ℕ × ℕ}
    {c : Cursor} (h : ∀ q', log.filter (fun o => o.thread = q') =
      (List.range (count (cursors q'))).map (su.opAt q'))
    (hcount : count c = count (cursors q)) (q' : ℕ × ℕ) : log.filter (fun o => o.thread = q') =
      (List.range (count (Function.update cursors q c q'))).map (su.opAt q') := by
  by_cases hq : q = q'
  · subst hq
    rw [Function.update_self, hcount, h]
  · rw [Function.update_of_ne (Ne.symm hq), h]

/-- The operations of a phase before the last one are valid. -/
theorem valid_op {q : ℕ × ℕ} {phase : ℕ} (hq : su.InRange q) (hphase : phase < su.numPhases steps)
    (left : Bool) : su.Valid (su.op q phase left) := by
  refine ⟨hq, ?_⟩
  apply Nat.mod_lt
  rw [numPhases, Nat.mul_comm, ← Nat.mul_assoc] at hphase
  exact Nat.pos_of_ne_zero fun h => by simp [h] at hphase

/-- One more operation of the logs is valid. -/
theorem valid_append {log : List Op} {o : Op} (hlog : ∀ o' ∈ log, su.Valid o') (ho : su.Valid o) :
    ∀ o' ∈ log ++ [o], su.Valid o' := by
  intro o' ho'
  cases List.mem_append.mp ho' with
  | inl hin => exact hlog o' hin
  | inr heq => exact List.mem_singleton.mp heq ▸ ho

/-- A thread starts a receive. -/
theorem recv (h : su.Posted s sent received) {q : ℕ × ℕ} {left : Bool} (hq : su.InRange q)
    (hphase : (s.cursors q).phase < su.numPhases steps) (hstage : (s.cursors q).stage = .recv left)
    (hclear : s.net.Clear su.streams (su.streams.ofRecv (su.op q (s.cursors q).phase left))) :
    su.Posted (s.move q ⟨(s.cursors q).phase, if left then .recv false else .send true⟩
      (s.net.postRecv su.labels (su.op q (s.cursors q).phase left))) sent
      (received ++ [su.op q (s.cursors q).phase left]) := by
  have hop : su.op q (s.cursors q).phase left = su.opAt q (s.cursors q).recvCount := by
    rw [← su.opAt_eq, Cursor.recvCount, hstage]
    cases left <;> rfl
  refine ⟨h.order.postRecv hclear, ?_, ?_, ?_⟩
  · apply log_keep h.sends
    rw [Cursor.sendCount, Cursor.sendCount, hstage]
    cases left <;> rfl
  · rw [hop]
    apply log_add h.recvs
    rw [Cursor.recvCount, Cursor.recvCount, hstage]
    cases left <;> rfl
  · intro o ho
    cases ho with
    | inl ho => exact h.valid o (Or.inl ho)
    | inr ho =>
      exact valid_append (fun o ho => h.valid o (Or.inr ho)) (valid_op hq hphase left) o ho

/-- A thread sends a message. -/
theorem send (h : su.Posted s sent received) {q : ℕ × ℕ} {left : Bool} (hq : su.InRange q)
    (hphase : (s.cursors q).phase < su.numPhases steps) (hstage : (s.cursors q).stage = .send left)
    (hclear : s.net.Clear su.streams (su.streams.ofSend (su.op q (s.cursors q).phase left))) :
    su.Posted (s.move q ⟨(s.cursors q).phase, if left then .send false else .waitall⟩
      (s.net.postSend (su.op q (s.cursors q).phase left)))
      (sent ++ [su.op q (s.cursors q).phase left]) received := by
  have hop : su.op q (s.cursors q).phase left = su.opAt q (s.cursors q).sendCount := by
    rw [← su.opAt_eq, Cursor.sendCount, hstage]
    cases left <;> rfl
  refine ⟨h.order.postSend hclear, ?_, ?_, ?_⟩
  · rw [hop]
    apply log_add h.sends
    rw [Cursor.sendCount, Cursor.sendCount, hstage]
    cases left <;> rfl
  · apply log_keep h.recvs
    rw [Cursor.recvCount, Cursor.recvCount, hstage]
    cases left <;> rfl
  · intro o ho
    cases ho with
    | inl ho =>
      exact valid_append (fun o ho => h.valid o (Or.inl ho)) (valid_op hq hphase left) o ho
    | inr ho => exact h.valid o (Or.inr ho)

/-- Every step adds at most the next operation of one thread. -/
theorem step (h : su.Posted s sent received) {a : ExchangeAction} (hclear : su.Undisturbed s a)
    (hstep : su.next steps eager s a = some s') :
    ∃ sent' received', su.Posted s' sent' received' := by
  cases moves_of_next hstep with
  | deliver hnet => exact ⟨sent, received, h.order.deliver hnet, h.sends, h.recvs, h.valid⟩
  | recv hq hphase hstage =>
    simp only [Undisturbed, hstage] at hclear
    exact ⟨_, _, h.recv hq hphase hstage hclear⟩
  | send hq hphase hstage =>
    simp only [Undisturbed, hstage] at hclear
    exact ⟨_, _, h.send hq hphase hstage hclear⟩
  | waitall hstage hwait =>
    refine ⟨sent, received, h.order, ?_, ?_, h.valid⟩
    · apply log_keep h.sends
      rw [Cursor.sendCount, Cursor.sendCount, hstage]
      rfl
    · apply log_keep h.recvs
      rw [Cursor.recvCount, Cursor.recvCount, hstage]
      rfl

/-- The messages of a stream are those of its sender. -/
theorem stream_sends (h : su.Posted s sent received) (u q : ℕ × ℕ) (tag : ℕ) :
    su.streams.sends (u, q, tag) sent = ((List.range (s.cursors u).sendCount).filter
      fun p => su.streams.ofSend (su.opAt u p) = (u, q, tag)).map (su.opAt u) := by
  have hsplit : su.streams.sends (u, q, tag) sent =
      su.streams.sends (u, q, tag) (sent.filter fun o => o.thread = u) := by
    rw [Streams.sends, Streams.sends, List.filter_filter]
    apply List.filter_congr
    intro o _
    by_cases ho : su.streams.ofSend o = (u, q, tag)
    · have hthread : o.thread = u := congrArg Prod.fst ho
      simp [ho, hthread]
    · simp [ho]
  rw [hsplit, h.sends, Streams.sends, List.filter_map]
  rfl

/-- The receives of a stream are those of its receiver, at the same places. -/
theorem stream_recvs (h : su.Posted s sent received) {u q : ℕ × ℕ} (hu : su.InRange u)
    (hq : su.InRange q) (tag : ℕ) :
    su.streams.recvs (u, q, tag) received = ((List.range (s.cursors q).recvCount).filter
      fun p => su.streams.ofSend (su.opAt u p) = (u, q, tag)).map (su.opAt q) := by
  have hsplit : su.streams.recvs (u, q, tag) received =
      su.streams.recvs (u, q, tag) (received.filter fun o => o.thread = q) := by
    rw [Streams.recvs, Streams.recvs, List.filter_filter]
    apply List.filter_congr
    intro o _
    by_cases ho : su.streams.ofRecv o = (u, q, tag)
    · have hthread : o.thread = q := congrArg (fun σ => σ.2.1) ho
      simp [ho, hthread]
    · simp [ho]
  rw [hsplit, h.recvs, Streams.recvs, List.filter_map]
  congr 1
  apply List.filter_congr
  intro p _
  exact decide_eq_decide.mpr (su.stream_iff hu hq).symm

/-- Every match is right. -/
theorem rightMatch (h : su.Posted s sent received) {r m : Op} (hmem : (r, m) ∈ s.net.matched) :
    su.RightMatch r m := by
  let u := su.source r.thread r.dim r.left
  let tag := (su.neighborhood r.thread).recvtag r.field r.dim r.left
  have hpair : (r, m) ∈ su.streams.pairs (u, r.thread, tag) s.net.matched :=
    List.mem_filter.mpr ⟨hmem, decide_eq_true rfl⟩
  obtain ⟨i, hr, hm⟩ := (h.order.paired _).mem hpair
  have hreceived : r ∈ received := (List.mem_filter.mp (List.mem_of_getElem? hr)).1
  have hq : su.InRange r.thread := (h.valid r (Or.inr hreceived)).1
  have hu : su.InRange u := source_inRange hq r.dim r.left
  rw [h.stream_recvs hu hq, List.getElem?_map, Option.map_eq_some_iff] at hr
  rw [h.stream_sends, List.getElem?_map, Option.map_eq_some_iff] at hm
  obtain ⟨p, hp, hr⟩ := hr
  obtain ⟨p', hp', hm⟩ := hm
  have hplace : p = p' := filter_range_inj hp hp'
  calc m = su.opAt u p := by rw [← hm, ← hplace]
    _ = { su.opAt r.thread p with thread := u } := rfl
    _ = { r with thread := u } := by rw [hr]

/-- Without messages in flight, an operation that both sides have posted is matched. -/
theorem matched (h : su.Posted s sent received) (hflight : s.net.inFlight = []) {q : ℕ × ℕ}
    (hq : su.InRange q) {p : ℕ} (hp : p < (s.cursors q).recvCount)
    (hp' : p < (s.cursors (su.source q (su.opAt q p).dim (su.opAt q p).left)).sendCount) :
    (su.opAt q p, su.opAt (su.source q (su.opAt q p).dim (su.opAt q p).left) p) ∈ s.net.matched := by
  let u := su.source q (su.opAt q p).dim (su.opAt q p).left
  let tag := (su.neighborhood q).recvtag (su.opAt q p).field (su.opAt q p).dim (su.opAt q p).left
  have hu : su.InRange u := source_inRange hq _ _
  have hstream : su.streams.ofSend (su.opAt u p) = (u, q, tag) := (su.stream_iff hu hq).mpr rfl
  have hr : (su.streams.recvs (u, q, tag) received)[Nat.count
      (fun k => su.streams.ofSend (su.opAt u k) = (u, q, tag)) p]? = some (su.opAt q p) := by
    rw [h.stream_recvs hu hq, List.getElem?_map,
      (filter_range_getElem? _).mpr ⟨hp, hstream, rfl⟩]
    rfl
  have hm : (su.streams.sends (u, q, tag) sent)[Nat.count
      (fun k => su.streams.ofSend (su.opAt u k) = (u, q, tag)) p]? = some (su.opAt u p) := by
    rw [h.stream_sends, List.getElem?_map, (filter_range_getElem? _).mpr ⟨hp', hstream, rfl⟩]
    rfl
  have hdone : su.streams.sends (u, q, tag) s.net.unexpected ++
      su.streams.sends (u, q, tag) s.net.inFlight = [] ∨
      su.streams.recvs (u, q, tag) s.net.posted = [] := by
    rw [hflight, Streams.sends, Streams.sends, List.filter_nil, List.append_nil]
    exact h.order.exclusive _
  exact (List.mem_filter.mp ((h.order.paired _).matched_of hdone hr hm)).1

end Setup.Posted

end Ghexbench.Cartex
